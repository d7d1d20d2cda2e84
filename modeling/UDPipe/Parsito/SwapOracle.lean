import UDPipe.Parsito.Strategy
import Mathlib.Data.Int.Interval
import Mathlib.Order.Interval.Finset.Defs

/-!
# The order of the swap oracles

The swap oracles number the nodes by an in-order traversal of the gold tree, which
makes every tree projective. With this order, and with any division of the nodes into
projective components, their predictions follow a plan. The eager oracle is the case
where every node is a component of its own.
-/

namespace UDPipe.Parsito

open Forest (LeadsTo IsForest IsChildren Within)

namespace IsTree

variable {n : ℕ} {gold : Tree}

/-- The children lists of a tree belong to its heads. -/
theorem isChildren (h : IsTree n gold) : IsChildren gold.parent gold.childrenOf where
  mem_iff a c := by
    rw [Tree.parent_eq_some]
    rcases lt_or_ge a 0 with hneg | ha
    · simp [Tree.childrenOf, Tree.linksOf, not_le_of_gt hneg]
    · rw [h.mem_children a c ha, and_iff_left ha]
  increase := h.children_increase

/-- The tree is no deeper than it has nodes. -/
theorem within (h : IsTree n gold) : Within gold.parent gold.nodes.length 0 := by
  have hsize := h.size
  refine Forest.within_of_range h.isForest (fun c p hcp => ?_) le_rfl le_rfl (by omega)
  have := h.range_of_parent hcp
  omega

/-- The nodes are those that lead to the root. -/
theorem leadsTo_zero (h : IsTree n gold) {i : ℤ} (hi : 0 ≤ i) (hn : i ≤ n) :
    LeadsTo gold.parent i 0 :=
  h.upClosed.leadsTo_root h.isForest ⟨hi, hn⟩

/-- The children of a node are attached when there are as many as in the gold tree. -/
theorem complete_iff (h : IsTree n gold) {conf : Configuration} (hconf : conf.Consistent n)
    (hagree : ∀ i, conf.t.headOf i ≠ -1 → conf.t.headOf i = gold.headOf i) {i : ℤ} (hi : 0 ≤ i) :
    (gold.childrenOf i).length = (conf.t.childrenOf i).length ↔ Complete gold conf.t i := by
  have hmem : ∀ j, j ∈ conf.t.childrenOf i ↔ conf.t.headOf j = i := by
    intro j
    rw [hconf.mem_children, and_iff_right hi]
  have hnodup : (conf.t.childrenOf i).Nodup := (hconf.children_increase i).imp ne_of_lt
  have hgold : (gold.childrenOf i).Nodup := (h.children_increase i).imp ne_of_lt
  have hsubset : conf.t.childrenOf i ⊆ gold.childrenOf i := by
    intro j hj
    rw [hmem] at hj
    rw [h.mem_children i j hi, ← hagree j (by omega), hj]
  have hperm := List.subperm_of_subset hnodup hsubset
  constructor
  · intro hlength j hj
    have hj' : j ∈ conf.t.childrenOf i :=
      (hperm.perm_of_length_le hlength.le).symm.subset ((h.mem_children i j hi).mpr hj)
    rw [hmem] at hj'
    omega
  · intro hcomplete
    apply le_antisymm _ hperm.length_le
    apply (List.subperm_of_subset hgold fun j hj => ?_).length_le
    have hj' := (h.mem_children i j hi).mp hj
    rw [hmem, hagree j (hcomplete j hj'), hj']

end IsTree

namespace SwapOracle

/-- Give the next number to a node. -/
private def number (state : List ℤ × ℤ) (node : ℤ) : List ℤ × ℤ :=
  (state.1.set node.toNat state.2, state.2 + 1)

/-- The recursion numbers the nodes of the traversal. -/
private theorem createProjectiveOrder_eq (gold : Tree) (fuel : ℕ) (node : ℤ)
    (state : List ℤ × ℤ) : createProjectiveOrder gold fuel node state =
      (Forest.inorder gold.childrenOf fuel node).foldl number state := by
  induction fuel generalizing node state with
  | zero => rfl
  | succ fuel ih =>
    have hfold : ∀ (cs : List ℤ) (state : List ℤ × ℤ), cs.foldl
        (fun state child => createProjectiveOrder gold fuel child state) state =
          (cs.flatMap (Forest.inorder gold.childrenOf fuel)).foldl number state := by
      intro cs state
      rw [List.foldl_flatMap]
      exact List.foldl_ext _ _ _ fun state child _ => ih child state
    rw [createProjectiveOrder, Forest.inorder, List.foldl_append, List.foldl_cons]
    simp only [hfold]
    rfl

/-- Numbering keeps the length. -/
private theorem length_foldl_number (nodes : List ℤ) (state : List ℤ × ℤ) :
    (nodes.foldl number state).1.length = state.1.length := by
  induction nodes generalizing state with
  | nil => rfl
  | cons i nodes ih =>
    rw [List.foldl_cons, ih]
    simp [number]

/-- A node gets the number of its place. -/
private theorem foldl_number {nodes : List ℤ} (hnodup : nodes.Nodup) {state : List ℤ × ℤ}
    (hnodes : ∀ i ∈ nodes, 0 ≤ i ∧ i.toNat < state.1.length) {i : ℤ} (hi : i ∈ nodes) :
    (nodes.foldl number state).1.getD i.toNat 0 = state.2 + nodes.idxOf i := by
  have hkeep : ∀ {nodes : List ℤ} {state : List ℤ × ℤ}, (∀ j ∈ nodes, 0 ≤ j) → 0 ≤ i →
      i ∉ nodes → (nodes.foldl number state).1.getD i.toNat 0 = state.1.getD i.toNat 0 := by
    intro nodes
    induction nodes with
    | nil => intros; rfl
    | cons j nodes ih =>
      intro state hpos hi hnot
      simp only [List.mem_cons, not_or] at hnot
      rw [List.foldl_cons, ih (fun j hj => hpos j (List.mem_cons_of_mem _ hj)) hi hnot.2]
      have hj := hpos j List.mem_cons_self
      have hne : j.toNat ≠ i.toNat := by omega
      simp [number, List.getD_eq_getElem?_getD, List.getElem?_set_ne hne]
  induction nodes generalizing state with
  | nil => cases hi
  | cons j nodes ih =>
    obtain ⟨hj, hnodup⟩ := List.nodup_cons.mp hnodup
    obtain ⟨hj₀, hlt⟩ := hnodes j List.mem_cons_self
    rw [List.foldl_cons]
    by_cases heq : i = j
    · subst heq
      rw [hkeep (fun j hj => (hnodes j (List.mem_cons_of_mem _ hj)).1) hj₀ hj]
      simp [number, List.getD_eq_getElem?_getD, hlt]
    · have hi' := (List.mem_cons.mp hi).resolve_left heq
      rw [ih hnodup (fun k hk => by simpa [number] using hnodes k (List.mem_cons_of_mem _ hk)) hi',
        List.idxOf_cons_ne _ (Ne.symm heq)]
      simp only [number]
      push_cast
      omega

/-- The number that `create_projective_order` gives to a node. -/
def orderOf (gold : Tree) (start i : ℤ) : ℤ :=
  start + (Forest.inorder gold.childrenOf gold.nodes.length 0).idxOf i

section Order

variable {n : ℕ} {gold : Tree} (tree : IsTree n gold) (start : ℤ)

include tree

/-- The numbers are the projective order. -/
theorem getD_createProjectiveOrder {i : ℤ} (hi : 0 ≤ i) (hn : i ≤ n) :
    (createProjectiveOrder gold gold.nodes.length 0
      (List.replicate gold.nodes.length 0, start)).1.getD i.toNat 0 = orderOf gold start i := by
  have hsize := tree.size
  have hmem := fun i => @IsChildren.mem_inorder _ _ _ _ tree.isChildren tree.isForest _ 0 i
    tree.within
  rw [createProjectiveOrder_eq, foldl_number
    (tree.isChildren.nodup_inorder tree.isForest tree.within) _ ((hmem i).mpr
      (tree.leadsTo_zero hi hn))]
  · rfl
  · intro j hj
    rcases ((hmem j).mp hj).cases_head with rfl | ⟨p, hjp, _⟩
    · simp [hsize]
    · have := tree.range_of_parent hjp
      simp only [List.length_replicate]
      omega

/-- Different nodes have different places. -/
theorem order_inj : Set.InjOn (orderOf gold start) ({i : ℤ | 0 ≤ i ∧ i ≤ n}) := by
  intro i hi j hj heq
  have hmem := fun i => @IsChildren.mem_inorder _ _ _ _ tree.isChildren tree.isForest _ 0 i
    tree.within
  have hidx : (Forest.inorder gold.childrenOf gold.nodes.length 0).idxOf i =
      (Forest.inorder gold.childrenOf gold.nodes.length 0).idxOf j := by
    simp only [orderOf] at heq
    omega
  exact (List.idxOf_inj ((hmem i).mpr (tree.leadsTo_zero hi.1 hi.2))).mp hidx

/-- The root comes first. -/
theorem order_root_least {i : ℤ} (hi : 1 ≤ i) (hn : i ≤ n) :
    orderOf gold start 0 < orderOf gold start i := by
  obtain ⟨v, hv, hbranch⟩ := (tree.reaches_root i hi hn).exists_branch
  have hpos : 0 < v := by
    rcases hv with rfl | hv
    · rcases hbranch with ⟨_, rfl⟩ | ⟨hself, _⟩
      · omega
      · simp [tree.parent_zero] at hself
    · have := tree.range_of_parent hv
      omega
  have hlt := tree.isChildren.idxOf_lt_of_branch tree.isForest tree.within .refl
    (.inl ⟨rfl, rfl⟩) hbranch hpos
  simp only [orderOf]
  omega

/-- In its order the gold tree is projective. -/
theorem order_projective :
    Forest.Projective gold.parent (orderOf gold start) ({i : ℤ | 0 ≤ i ∧ i ≤ n}) := by
  intro c hc p k hcp hk hbetween
  apply tree.isChildren.projective_inorder tree.isForest tree.within tree.parent_zero c
    (tree.leadsTo_zero hc.1 hc.2) p k hcp (tree.leadsTo_zero hk.1 hk.2)
  simp only [Forest.Between, orderOf] at hbetween ⊢
  omega

end Order

end SwapOracle

/-- A division of the nodes into components, each of which is a projective part of the
sentence and has everything below its nodes but the topmost one. -/
structure Division (n : ℕ) (gold : Tree) where
  comp : ℤ → ℤ
  comp_leads : ∀ i : ℤ, 0 ≤ i → i ≤ n → LeadsTo gold.parent i (comp i)
  comp_comp : ∀ i : ℤ, 0 ≤ i → i ≤ n → comp (comp i) = comp i
  comp_parent : ∀ i j, gold.parent i = some j → comp i ≠ i → comp j = comp i
  comp_child : ∀ i j, gold.parent i = some j → comp j ≠ j → comp i = comp j
  interval : ∀ a k b : ℤ, 0 ≤ a → a ≤ k → k ≤ b → b ≤ n → comp a = comp b → comp k = comp a
  projective : ∀ i j k, gold.parent i = some j → comp i = comp j → Forest.Between id i k j →
    LeadsTo gold.parent k j

namespace Division

variable {n : ℕ} {gold : Tree} (division : Division n gold) (tree : IsTree n gold)

include tree

/-- The nodes of a component have their heads in it, up to the topmost one. -/
theorem upClosed {a : ℤ} (ha : 0 ≤ a) (hn : a ≤ n) :
    Forest.UpClosed gold.parent (division.comp a)
      {i | 0 ≤ i ∧ i ≤ n ∧ division.comp i = division.comp a} := by
  have hrange : ∀ i j : ℤ, 0 ≤ i → i ≤ n → LeadsTo gold.parent i j → 0 ≤ j ∧ j ≤ n := by
    intro i j hi hn hlead
    rcases hlead.cases_tail with rfl | ⟨k, _, hkj⟩
    · exact ⟨hi, hn⟩
    · have := tree.range_of_parent hkj
      omega
  have hcomp := hrange a _ ha hn (division.comp_leads a ha hn)
  refine ⟨⟨hcomp.1, hcomp.2, division.comp_comp a ha hn⟩, fun i ⟨hi, hin, heq⟩ hne => ?_⟩
  have hself : division.comp i ≠ i := fun hself => hne (hself.symm.trans heq)
  rcases (division.comp_leads i hi hin).cases_head with h | ⟨j, hij, _⟩
  · exact absurd h.symm hself
  · have := tree.range_of_parent hij
    exact ⟨j, ⟨by omega, this.2.2.2, (division.comp_parent i j hij hself).trans heq⟩, hij⟩

/-- The traversal keeps the order inside of a component. -/
theorem increase (start : ℤ) {a b : ℤ} (ha : 0 ≤ a) (hlt : a < b) (hn : b ≤ n)
    (hcomp : division.comp a = division.comp b) :
    SwapOracle.orderOf gold start a < SwapOracle.orderOf gold start b := by
  have hup := division.upClosed tree ha (by omega)
  have hproj : Forest.Projective gold.parent id
      {i | 0 ≤ i ∧ i ≤ n ∧ division.comp i = division.comp a} := by
    rintro i ⟨hi, hin, hia⟩ j k hij ⟨hk, hkn, hka⟩ hbetween
    by_cases hself : division.comp i = i
    · have hlead := division.comp_leads k hk hkn
      rw [hka, ← hia, hself] at hlead
      exact hlead.tail hij
    · exact division.projective i j k hij (division.comp_parent i j hij hself).symm hbetween
  have htop := hup.root_mem
  have hidx := tree.isChildren.idxOf_lt_of_projective tree.isForest tree.within hup
    (tree.leadsTo_zero htop.1 htop.2.1) hproj ⟨ha, by omega, rfl⟩ ⟨by omega, hn, hcomp.symm⟩ hlt
  simp only [SwapOracle.orderOf]
  omega

omit tree in
/-- A division of a tree and the order of the traversal are a plan. -/
def plan (tree : IsTree n gold) (start : ℤ) : Plan n gold where
  order := SwapOracle.orderOf gold start
  comp := division.comp
  order_inj := SwapOracle.order_inj tree start
  root_least _ hi hn := SwapOracle.order_root_least tree start hi hn
  projective := SwapOracle.order_projective tree start
  comp_leads := division.comp_leads
  comp_comp := division.comp_comp
  comp_parent := division.comp_parent
  comp_child := division.comp_child
  interval := division.interval
  increase _ _ ha hlt hn hcomp := division.increase tree start ha hlt hn hcomp

end Division

namespace SwapOracle

/-! ### The predictions -/

/-- What the oracle predicts, as rules. -/
inductive TreeOracle.Predicts (oracle : TreeOracle) (conf : Configuration) : Transition → Prop
  | leftArc {parent child : ℤ} {rest : List ℤ} (hstack : conf.stack = parent :: child :: rest)
    (hready : Ready oracle.gold conf.t child parent) :
    oracle.Predicts conf (.leftArc (oracle.gold.deprelOf child))
  | rightArc {child parent : ℤ} {rest : List ℤ} (hstack : conf.stack = child :: parent :: rest)
    (hready : Ready oracle.gold conf.t child parent) :
    oracle.Predicts conf (.rightArc (oracle.gold.deprelOf child))
  | swap {top second : ℤ} {rest : List ℤ} (hstack : conf.stack = top :: second :: rest)
    (hapart : Apart oracle.gold conf.t top second)
    (hswap : oracle.swaps top second conf.buffer = true) : oracle.Predicts conf .swap
  | shift
    (hpair : ∀ top second rest, conf.stack = top :: second :: rest →
      Apart oracle.gold conf.t top second ∧ oracle.swaps top second conf.buffer = false) :
    oracle.Predicts conf .shift

/-- The number that is predicted stands for a transition that the rules allow. -/
theorem TreeOracle.exists_predicts {n : ℕ} {oracle : TreeOracle} {conf : Configuration}
    (hgold : GoldTree n oracle.labels oracle.gold) (hconf : Agrees n oracle.gold conf) :
    ∃ tr, (TransitionSystem.swap oracle.labels)[(oracle.predict conf).toFollow]? = some tr ∧
      oracle.Predicts conf tr := by
  match hstack : conf.stack with
  | [] =>
    refine ⟨.shift, by simp [TreeOracle.predict, hstack, predictArcs, TransitionSystem.swap],
      .shift fun top second rest hpair => ?_⟩
    cases hstack.symm.trans hpair
  | [a] =>
    refine ⟨.shift, by simp [TreeOracle.predict, hstack, predictArcs, TransitionSystem.swap],
      .shift fun top second rest hpair => ?_⟩
    cases hstack.symm.trans hpair
  | top :: second :: rest =>
    have hpending : ∀ i ∈ [top, second], 0 ≤ i := by
      intro i hi
      apply (hconf.mem_pending.mp _).1
      simp only [Configuration.pending, hstack, List.cons_append, List.mem_cons,
        List.not_mem_nil, or_false] at hi ⊢
      tauto
    have hready : ∀ child ∈ [top, second], ∀ parent, oracle.gold.headOf child = parent ∧
        (oracle.gold.childrenOf child).length = (conf.t.childrenOf child).length ↔
          Ready oracle.gold conf.t child parent := by
      intro child hchild parent
      rw [hgold.complete_iff hconf.consistent (fun i hi => (hconf.agree i hi).1)
        (hpending child hchild)]
      exact Iff.rfl
    have hlabel : ∀ child ∈ [top, second], ∀ parent ∈ [top, second],
        Ready oracle.gold conf.t child parent →
          oracle.gold.deprelOf child ∈ oracle.labels := by
      intro child _ parent hparent hchild
      have hrange := hgold.range_of_parent
        (Tree.parent_eq_some.mpr ⟨hchild.1, hpending parent hparent⟩)
      exact hgold.labelled child hrange.1 hrange.2.1
    simp only [TreeOracle.predict, hstack, predictArcs]
    by_cases hleft : Ready oracle.gold conf.t second top
    · obtain ⟨i, hi, hnumber⟩ := arcTransition_eq (hlabel second (by simp) top (by simp) hleft)
      refine ⟨.leftArc (oracle.gold.deprelOf second), ?_, .leftArc hstack hleft⟩
      rw [if_pos ((hready second (by simp) top).mpr hleft), hnumber]
      simp [(getElem?_swap oracle.labels i).1, hi]
    rw [if_neg (mt (hready second (by simp) top).mp hleft), Option.none_or]
    by_cases hright : Ready oracle.gold conf.t top second
    · obtain ⟨i, hi, hnumber⟩ := arcTransition_eq (hlabel top (by simp) second (by simp) hright)
      refine ⟨.rightArc (oracle.gold.deprelOf top), ?_, .rightArc hstack hright⟩
      rw [if_pos ((hready top (by simp) second).mpr hright), hnumber]
      simp [(getElem?_swap oracle.labels i).2, hi]
    rw [if_neg (mt (hready top (by simp) second).mp hright), Option.getD_none]
    by_cases hswap : oracle.swaps top second conf.buffer = true
    · refine ⟨.swap, ?_, .swap hstack ⟨hright, hleft⟩ hswap⟩
      rw [if_pos hswap]
      rfl
    · refine ⟨.shift, ?_, .shift fun top' second' rest' hpair => ?_⟩
      · rw [if_neg hswap]
        rfl
      · cases hstack.symm.trans hpair
        exact ⟨⟨hright, hleft⟩, by simpa using hswap⟩

/-- An oracle holds the numbers of a plan. Without components, every node is one. -/
structure TreeOracle.Holds {n : ℕ} {gold : Tree} (oracle : TreeOracle) (plan : Plan n gold) :
    Prop where
  gold_eq : oracle.gold = gold
  order_ne : oracle.projectiveOrder ≠ []
  order_eq : ∀ i : ℤ, 0 ≤ i → i ≤ n → oracle.projectiveOrder.getD i.toNat 0 = plan.order i
  comp_eq : oracle.projectiveComponents = [] ∧ (∀ i, plan.comp i = i) ∨
    oracle.projectiveComponents ≠ [] ∧
      ∀ i : ℤ, 0 ≤ i → i ≤ n → oracle.projectiveComponents.getD i.toNat 0 = plan.comp i

section Predict

variable {n : ℕ} {gold : Tree} {oracle : TreeOracle} {plan : Plan n gold} {conf : Configuration}

/-- The oracle swaps where the plan does. -/
theorem TreeOracle.Holds.swaps_iff (h : oracle.Holds plan) (hconf : plan.Keeps conf)
    {top second : ℤ} {rest : List ℤ} (hstack : conf.stack = top :: second :: rest) :
    oracle.swaps top second conf.buffer = true ↔ plan.order top < plan.order second ∧
      ∀ front ∈ conf.buffer.head?, plan.comp front ≠ plan.comp top := by
  have hpending : ∀ i ∈ conf.pending, 0 ≤ i ∧ i ≤ n := fun i hi =>
    ⟨(hconf.mem_pending.mp hi).1, (hconf.mem_pending.mp hi).2.1⟩
  have htop := hpending top (by simp [Configuration.pending, hstack])
  have hsecond := hpending second (by simp [Configuration.pending, hstack])
  have hfront : (oracle.projectiveComponents.isEmpty || conf.buffer.isEmpty ||
      oracle.projectiveComponents.getD top.toNat 0 !=
        oracle.projectiveComponents.getD (conf.buffer.headD 0).toNat 0) = true ↔
      ∀ front ∈ conf.buffer.head?, plan.comp front ≠ plan.comp top := by
    cases hbuffer : conf.buffer with
    | nil => simp
    | cons front buffer =>
      have hmem : front ∈ conf.pending := by simp [Configuration.pending, hbuffer]
      rcases h.comp_eq with ⟨hnil, hself⟩ | ⟨hne, heq⟩
      · have hnodup := hconf.consistent.nodup
        have hne : front ≠ top := by
          rintro rfl
          simp [Configuration.pending, hstack, hbuffer] at hnodup
        simp [hnil, hself, hne]
      · have hfront := hpending front hmem
        have hne' : oracle.projectiveComponents.isEmpty = false := by simpa using hne
        rw [List.headD_cons, heq _ htop.1 htop.2, heq _ hfront.1 hfront.2, hne']
        simpa using not_congr eq_comm
  have hne : oracle.projectiveOrder.isEmpty = false := by simpa using h.order_ne
  rw [TreeOracle.swaps, h.order_eq _ htop.1 htop.2, h.order_eq _ hsecond.1 hsecond.2, hne,
    Bool.and_eq_true, hfront]
  simp

/-- An oracle that holds a plan predicts what it asks for. -/
theorem TreeOracle.Holds.chooses (h : oracle.Holds plan) (hconf : plan.Keeps conf)
    {tr : Transition} (hpredicts : oracle.Predicts conf tr) : plan.Chooses conf tr := by
  cases hpredicts with
  | leftArc hstack hready =>
    rw [h.gold_eq] at hready ⊢
    exact .leftArc hstack hready
  | rightArc hstack hready =>
    rw [h.gold_eq] at hready ⊢
    exact .rightArc hstack hready
  | swap hstack hapart hswap =>
    rw [h.gold_eq] at hapart
    obtain ⟨horder, hfront⟩ := (h.swaps_iff hconf hstack).mp hswap
    exact .swap hstack hapart horder hfront
  | shift hpair =>
    refine .shift fun top second rest hstack => ?_
    obtain ⟨hapart, hswap⟩ := hpair top second rest hstack
    rw [h.gold_eq] at hapart
    refine ⟨hapart, ?_⟩
    rw [← Bool.not_eq_true, h.swaps_iff hconf hstack, not_and_or, not_lt] at hswap
    rcases hswap with hle | hfront
    · left
      apply lt_of_le_of_ne hle
      intro heq
      have hmem : ∀ i ∈ conf.stack, i ∈ {i : ℤ | 0 ≤ i ∧ i ≤ n} := by
        intro i hi
        have hi' := hconf.mem_pending.mp (List.mem_append_left _ hi)
        exact ⟨hi'.1, hi'.2.1⟩
      have hsame :=
        plan.order_inj (hmem second (by simp [hstack])) (hmem top (by simp [hstack])) heq
      have hnodup := hconf.consistent.nodup
      simp [Configuration.pending, hstack, hsame] at hnodup
    · right
      push Not at hfront
      exact hfront

end Predict

/-! ### The eager oracle -/

/-- Every node is a component of its own. -/
def ownDivision {n : ℕ} {gold : Tree} : Division n gold where
  comp := id
  comp_leads _ _ _ := .refl
  comp_comp _ _ _ := rfl
  comp_parent _ _ _ hne := absurd rfl hne
  comp_child _ _ _ hne := absurd rfl hne
  interval a k b _ hak hkb _ heq := by
    simp only [id] at heq ⊢
    omega
  projective i j k hij heq hbetween := by
    simp only [Forest.Between, id] at heq hbetween
    omega

/-- The order that `create_tree_oracle` numbers the nodes by. -/
theorem createTreeOracle_order {n : ℕ} {labels : List Bytes} {lazy : Bool} {start : ℤ}
    {gold : Tree} (tree : IsTree n gold) :
    (createTreeOracle labels lazy start gold).projectiveOrder ≠ [] ∧
      ∀ i : ℤ, 0 ≤ i → i ≤ n →
        (createTreeOracle labels lazy start gold).projectiveOrder.getD i.toNat 0 =
          orderOf gold start i := by
  refine ⟨fun hnil => ?_, fun i => getD_createProjectiveOrder tree start⟩
  have hlength := congrArg List.length hnil
  have hsize := tree.size
  simp only [createTreeOracle, createProjectiveOrder_eq, length_foldl_number,
    List.length_replicate, List.length_nil] at hlength
  omega

/-- An oracle that holds a plan leads to the gold tree. -/
theorem TreeOracle.Holds.rebuilds {n : ℕ} {oracle : TreeOracle} {gold : Tree} {plan : Plan n gold}
    (h : oracle.Holds plan) (single : Bool) (hgold : GoldTree n oracle.labels gold)
    (hchecks : single = true →
      ∃ train, gold ∈ train ∧ singleRootFailure train oracle.labels = none) :
    Rebuilds (TransitionSystem.swap oracle.labels) oracle.predict
      (Configuration.init single gold) gold := by
  refine rebuilds_of_plan hgold.toIsTree plan (fun hsingle => ?_) fun conf hconf _ => ?_
  · obtain ⟨train, hmem, hnone⟩ := hchecks hsingle
    exact hgold.singleRooted hmem hnone
  · obtain ⟨tr, htr, hpredicts⟩ := TreeOracle.exists_predicts (h.gold_eq ▸ hgold)
      (h.gold_eq ▸ hconf.toAgrees)
    exact ⟨tr, htr, h.chooses hconf hpredicts⟩

/-- Following the eager oracle builds every gold tree, whatever number the order of the
nodes starts with. -/
theorem eager_rebuilds {n : ℕ} {labels : List Bytes} {gold : Tree} (single : Bool) (start : ℤ)
    (hgold : GoldTree n labels gold)
    (hchecks : single = true → ∃ train, gold ∈ train ∧ singleRootFailure train labels = none) :
    Rebuilds (TransitionSystem.swap labels) (createTreeOracle labels false start gold).predict
      (Configuration.init single gold) gold := by
  have tree := hgold.toIsTree
  have horder := @createTreeOracle_order n labels false start gold tree
  have hholds : (createTreeOracle labels false start gold).Holds (ownDivision.plan tree start) :=
    ⟨rfl, horder.1, horder.2, .inl ⟨rfl, fun _ => rfl⟩⟩
  exact hholds.rebuilds single hgold hchecks

/-- Three words with crossing arcs: the first hangs below the third, and the third
below the second. -/
def crossing : Tree :=
  (((twoWords.addNode (bytes "c")).setHead 2 0 rootLabel).setHead 3 2 (bytes "det")).setHead 1 3
    (bytes "det")

/-- The tree with crossing arcs is a gold tree. -/
theorem goldTree_crossing : GoldTree 3 [rootLabel, bytes "det"] crossing :=
  @GoldTree.of_run 3 [rootLabel, bytes "det"] crossing
    (TransitionSystem.swap [rootLabel, bytes "det"]) [0, 0, 0, 1, 4, 0, 4, 3] true
    (twoWords.addNode (bytes "c")) (by decide) ⟨_, rfl, by decide, by decide⟩ (by decide)
    (by decide)

/-- The tree with crossing arcs is rebuilt. -/
theorem eager_rebuilds_crossing :
    Rebuilds (TransitionSystem.swap [rootLabel, bytes "det"])
      (createTreeOracle [rootLabel, bytes "det"] false 7 crossing).predict
      (Configuration.init true crossing) crossing :=
  eager_rebuilds true 7 goldTree_crossing fun _ => ⟨[crossing], by simp, by decide⟩

end SwapOracle

end UDPipe.Parsito
