import UDPipe.Parsito.SwapOracle

/-!
# The components of the lazy swap oracle

For the lazy oracle a run without swaps attaches all that it can. It never changes
the order of the nodes, so what it builds below each node that is left is one part of
the sentence without crossing arcs. These parts are the components that delay swaps.
-/

namespace UDPipe.Parsito

open Forest (LeadsTo IsForest IsChildren Within)

/-- A configuration of a run without swaps: the pending nodes stand for consecutive
parts of the sentence, and inside of them the tree is projective. -/
structure Blocks (n : ℕ) (gold : Tree) (conf : Configuration) : Prop
    extends Agrees n gold conf where
  increase : conf.inOrder.Pairwise (· < ·)
  consecutive : ∀ x ∈ conf.pending, ∀ y ∈ conf.pending, x < y → ∀ a b,
    LeadsTo conf.t.parent a x → LeadsTo conf.t.parent b y → a < b
  projective : ∀ c p k, conf.t.parent c = some p → Forest.Between id c k p →
    LeadsTo conf.t.parent k p

namespace Configuration.Consistent

variable {n : ℕ} {conf : Configuration} (h : conf.Consistent n)

include h

/-- Pending nodes are roots of the forest. -/
theorem parent_of_mem_pending {i : ℤ} (hi : i ∈ conf.pending) : conf.t.parent i = none := by
  simp [Tree.parent, ((h.mem_pending i).mp hi).2.2]

/-- Every node leads to a pending one. -/
theorem exists_pending {i : ℤ} (hi : 0 ≤ i) (hn : i ≤ n) :
    ∃ r ∈ conf.pending, LeadsTo conf.t.parent i r := by
  obtain ⟨r, hr, hlead⟩ := h.forest i
  have hrange := h.range_of_leadsTo hi hn hlead
  refine ⟨r, (h.mem_pending r).mpr ⟨hrange.1, hrange.2, ?_⟩, hlead⟩
  rcases h.heads r with hnone | hhead
  · exact hnone
  · simp [Tree.parent, hhead.1] at hr

/-- The pending node that a node leads to is unique. -/
theorem pending_unique {i r s : ℤ} (hr : r ∈ conf.pending) (hs : s ∈ conf.pending)
    (hir : LeadsTo conf.t.parent i r) (his : LeadsTo conf.t.parent i s) : r = s :=
  hir.root_unique (h.parent_of_mem_pending hr) (h.parent_of_mem_pending hs) his

/-- A node with a parent is a node of the tree, and so is the parent. -/
theorem range_of_parent {i j : ℤ} (hij : conf.t.parent i = some j) :
    0 ≤ i ∧ i ≤ n ∧ 0 ≤ j ∧ j ≤ n := by
  obtain ⟨hhead, hj⟩ := Tree.parent_eq_some.mp hij
  have hsize := h.size
  have hi : 0 ≤ i ∧ i ≤ n := by
    by_contra hout
    have := Tree.headOf_eq_of_length_le (t := conf.t) (i := i) (by omega)
    omega
  rcases h.heads i with hnone | hrange
  · omega
  · omega

end Configuration.Consistent

/-- Attaching a node changes its parent only. -/
theorem Attaches.parent_eq {gold t t' : Tree} {child parent : ℤ}
    (h : Attaches gold t t' child parent) :
    t'.parent = Function.update t.parent child (some parent) := by
  funext j
  simp only [Tree.parent, h.headOf, Function.update_apply, eq_comm (a := child)]
  split
  · rw [if_pos h.parent_nonneg]
  · rfl

namespace Blocks

variable {n : ℕ} {gold : Tree}

/-- At the start every node is a part of its own. -/
theorem init (tree : IsTree n gold) (single : Bool) :
    Blocks n gold (Configuration.init single gold) := by
  have hnone : ∀ i, (Configuration.init single gold).t.parent i = none := by
    simp [Configuration.init, Tree.parent, Tree.headOf]
  refine ⟨agrees_init tree single, increase_init tree single, fun x _ y _ hlt a b hax hby => ?_,
    fun c p k hcp => ?_⟩
  · rcases hax.cases_head with rfl | ⟨_, h, _⟩
    · rcases hby.cases_head with rfl | ⟨_, h, _⟩
      · exact hlt
      · simp [hnone] at h
    · simp [hnone] at h
  · simp [hnone] at hcp

/-- A shift keeps the parts. -/
theorem shift {t : Tree} {front : ℤ} {stack buffer : List ℤ} {single : Bool}
    (h : Blocks n gold ⟨t, stack, front :: buffer, single⟩) :
    Blocks n gold ⟨t, front :: stack, buffer, single⟩ := by
  have hpending : ∀ c, c ∈ Configuration.pending ⟨t, front :: stack, buffer, single⟩ →
      c ∈ Configuration.pending ⟨t, stack, front :: buffer, single⟩ := by
    intro c hc
    simp only [Configuration.pending, List.cons_append, List.mem_cons, List.mem_append] at hc ⊢
    tauto
  refine ⟨⟨h.consistent.step .shift, h.agree, h.complete⟩, ?_, fun x hx y hy =>
    h.consecutive x (hpending x hx) y (hpending y hy), h.projective⟩
  simpa [Configuration.inOrder] using h.increase

/-- An arc joins two parts that are next to each other. -/
theorem arc {t : Tree} {x₁ x₂ child parent : ℤ} {rest buffer : List ℤ} {single : Bool}
    (h : Blocks n gold ⟨t, x₁ :: x₂ :: rest, buffer, single⟩)
    (hpair : parent = x₁ ∧ child = x₂ ∨ child = x₁ ∧ parent = x₂)
    (hready : Ready gold t child parent)
    (hstep : Step ⟨t, x₁ :: x₂ :: rest, buffer, single⟩
      ⟨t.setHead child parent (gold.deprelOf child), parent :: rest, buffer, single⟩) :
    Blocks n gold ⟨t.setHead child parent (gold.deprelOf child), parent :: rest, buffer, single⟩ := by
  have hboth : ∀ i, i = child ∨ i = parent ↔ i = x₁ ∨ i = x₂ := by
    intro i
    rcases hpair with ⟨rfl, rfl⟩ | ⟨rfl, rfl⟩
    · exact or_comm
    · exact Iff.rfl
  have hmem : ∀ i, i = child ∨ i = parent →
      i ∈ Configuration.pending ⟨t, x₁ :: x₂ :: rest, buffer, single⟩ := by
    intro i hi
    rcases (hboth i).mp hi with rfl | rfl <;> simp [Configuration.pending]
  have hchild := hmem child (.inl rfl)
  have hparent := hmem parent (.inr rfl)
  have hattach := h.attaches hchild hparent hready
  have hchild' := h.consistent.parent_of_mem_pending hchild
  have hparent' := h.consistent.parent_of_mem_pending hparent
  -- the other pending nodes are on one side of both
  have hside : ∀ y ∈ Configuration.pending ⟨t, x₁ :: x₂ :: rest, buffer, single⟩,
      y ≠ child → y ≠ parent → y < child ∧ y < parent ∨ child < y ∧ parent < y := by
    intro y hy hyc hyp
    have hincrease := h.increase
    simp only [Configuration.inOrder, List.reverse_cons, List.append_assoc, List.cons_append,
      List.nil_append, List.pairwise_append, List.pairwise_cons, List.mem_cons,
      List.mem_reverse] at hincrease
    have hy' : y ∈ rest ∨ y ∈ buffer := by
      have hne := mt (hboth y).mpr (not_or.mpr ⟨hyc, hyp⟩)
      simp only [Configuration.pending, List.cons_append, List.mem_cons, List.mem_append] at hy
      tauto
    have hx₁ := hincrease.2.2 y
    have hx₂ := hincrease.2.1.1 y
    have hx₃ := hincrease.2.1.2.1 y
    rcases hpair with ⟨rfl, rfl⟩ | ⟨rfl, rfl⟩ <;> rcases hy' with hy' | hy'
    · exact .inl ⟨hx₁ hy' _ (.inl rfl), hx₁ hy' _ (.inr (.inl rfl))⟩
    · exact .inr ⟨hx₂ (.inr hy'), hx₃ hy'⟩
    · exact .inl ⟨hx₁ hy' _ (.inr (.inl rfl)), hx₁ hy' _ (.inl rfl)⟩
    · exact .inr ⟨hx₃ hy', hx₂ (.inr hy')⟩
  have hpending : ∀ y ∈ Configuration.pending
      ⟨t.setHead child parent (gold.deprelOf child), parent :: rest, buffer, single⟩,
      y ∈ Configuration.pending ⟨t, x₁ :: x₂ :: rest, buffer, single⟩ ∧ y ≠ child := by
    intro y hy
    have hnodup := h.consistent.nodup
    simp only [Configuration.pending, List.cons_append, List.mem_cons, List.mem_append,
      List.nodup_cons] at hy hnodup ⊢
    rcases hpair with ⟨rfl, rfl⟩ | ⟨rfl, rfl⟩ <;> refine ⟨by tauto, ?_⟩ <;> rintro rfl <;> tauto
  have hways : ∀ {a y}, LeadsTo (t.setHead child parent (gold.deprelOf child)).parent a y →
      LeadsTo t.parent a y ∨ y = parent ∧ LeadsTo t.parent a child := by
    intro a y hlead
    rw [hattach.parent_eq] at hlead
    exact hlead.of_attach hparent'
  have hkeep : ∀ {a y}, LeadsTo t.parent a y →
      LeadsTo (t.setHead child parent (gold.deprelOf child)).parent a y := by
    intro a y hlead
    rw [hattach.parent_eq]
    exact hlead.attach hchild'
  have harc : (t.setHead child parent (gold.deprelOf child)).parent child = some parent := by
    simp [hattach.parent_eq]
  refine ⟨h.attach (h.consistent.step hstep) hattach, ?_, fun x hx y hy hlt a b hax hby => ?_,
    fun c p k hcp hbetween => ?_⟩
  · refine List.Pairwise.sublist ?_ h.increase
    simp only [Configuration.inOrder]
    refine List.Sublist.append_right (List.Sublist.reverse ?_) buffer
    rcases hpair with ⟨rfl, rfl⟩ | ⟨rfl, rfl⟩
    · exact (List.sublist_cons_self _ rest).cons_cons _
    · exact List.sublist_cons_self _ _
  · obtain ⟨hx', hxc⟩ := hpending x hx
    obtain ⟨hy', hyc⟩ := hpending y hy
    rcases hways hax with hax' | ⟨rfl, hac⟩ <;> rcases hways hby with hby' | ⟨rfl, hbc⟩
    · exact h.consecutive x hx' y hy' hlt a b hax' hby'
    · have hside' := hside x hx' hxc (ne_of_lt hlt)
      exact h.consecutive x hx' child hchild (by omega) a b hax' hbc
    · have hside' := hside y hy' hyc (ne_of_gt hlt)
      exact h.consecutive child hchild y hy' (by omega) a b hac hby'
    · exact absurd hlt (lt_irrefl _)
  · by_cases hc : c = child
    · subst hc
      obtain rfl : parent = p := Option.some.inj (harc.symm.trans hcp)
      have hcrange := h.mem_pending.mp hchild
      have hprange := h.mem_pending.mp hparent
      simp only [Forest.Between, id] at hbetween
      obtain ⟨r, hr, hkr⟩ := h.consistent.exists_pending (i := k) (by omega) (by omega)
      by_cases hrc : r = c
      · exact (hkeep (hrc ▸ hkr)).tail harc
      by_cases hrp : r = parent
      · exact hkeep (hrp ▸ hkr)
      -- a node of another part is not between them
      rcases hside r hr hrc hrp with hlt | hgt
      · have := h.consecutive r hr c hchild hlt.1 k c hkr .refl
        have := h.consecutive r hr parent hparent hlt.2 k parent hkr .refl
        omega
      · have := h.consecutive c hchild r hr hgt.1 c k .refl hkr
        have := h.consecutive parent hparent r hr hgt.2 parent k .refl hkr
        omega
    · rw [hattach.parent_eq, Function.update_of_ne hc] at hcp
      exact hkeep (h.projective c p k hcp hbetween)

/-! ### The division -/

section Division

variable {conf : Configuration} (h : Blocks n gold conf) (tree : IsTree n gold) (comp : ℤ → ℤ)
  (hcomp : ∀ i : ℤ, 0 ≤ i → i ≤ n → comp i ∈ conf.pending ∧ LeadsTo conf.t.parent i (comp i))

include h in
/-- The arcs made so far are gold. -/
theorem parent_gold {i j : ℤ} (hij : conf.t.parent i = some j) : gold.parent i = some j := by
  obtain ⟨hhead, hj⟩ := Tree.parent_eq_some.mp hij
  exact Tree.parent_eq_some.mpr ⟨(h.agree i (by omega)).1.symm.trans hhead, hj⟩

include h in
/-- What is built leads where the gold tree leads. -/
theorem leadsTo_gold {i j : ℤ} (hij : LeadsTo conf.t.parent i j) : LeadsTo gold.parent i j :=
  Relation.ReflTransGen.mono (fun _ _ hstep => h.parent_gold hstep) _ _ hij

include h tree in
/-- The gold head of an attached word is its head. -/
theorem parent_of_attached {i j : ℤ} (hi : i ∉ conf.pending) (hij : gold.parent i = some j) :
    conf.t.parent i = some j := by
  have hrange := tree.range_of_parent hij
  have hattached : conf.t.headOf i ≠ -1 := fun hnone =>
    hi (h.mem_pending.mpr ⟨by omega, hrange.2.1, hnone⟩)
  obtain ⟨hhead, hj⟩ := Tree.parent_eq_some.mp hij
  exact Tree.parent_eq_some.mpr ⟨(h.agree i hattached).1.trans hhead, hj⟩

include h hcomp in
/-- Components are those of their pending nodes. -/
theorem comp_eq_iff {i : ℤ} (hi : 0 ≤ i) (hn : i ≤ n) {r : ℤ} (hr : r ∈ conf.pending) :
    comp i = r ↔ LeadsTo conf.t.parent i r := by
  obtain ⟨hmem, hlead⟩ := hcomp i hi hn
  constructor
  · rintro rfl
    exact hlead
  · exact fun hir => h.consistent.pending_unique hmem hr hlead hir

include h hcomp in
/-- An attached node is in the component of its parent. -/
theorem comp_parent_of_attached {i j : ℤ} (hij : conf.t.parent i = some j) : comp j = comp i := by
  have hrange := h.consistent.range_of_parent hij
  obtain ⟨hmem, hlead⟩ := hcomp j hrange.2.2.1 hrange.2.2.2
  exact ((h.comp_eq_iff comp hcomp hrange.1 hrange.2.1 hmem).mpr (.head hij hlead)).symm

/-- The parts are the components of a division. -/
def division (h : Blocks n gold conf) (tree : IsTree n gold) (comp : ℤ → ℤ)
    (hcomp : ∀ i : ℤ, 0 ≤ i → i ≤ n → comp i ∈ conf.pending ∧ LeadsTo conf.t.parent i (comp i)) :
    Division n gold where
  comp := comp
  comp_leads i hi hn := h.leadsTo_gold (hcomp i hi hn).2
  comp_comp i hi hn := by
    have hmem := (hcomp i hi hn).1
    have hrange := h.mem_pending.mp hmem
    exact (h.comp_eq_iff comp hcomp hrange.1 hrange.2.1 hmem).mpr .refl
  comp_parent i j hij hne := by
    have hrange := tree.range_of_parent hij
    have hattached : i ∉ conf.pending := fun hmem =>
      hne ((h.comp_eq_iff comp hcomp (by omega) hrange.2.1 hmem).mpr .refl)
    exact h.comp_parent_of_attached comp hcomp (h.parent_of_attached tree hattached hij)
  comp_child i j hij hne := by
    have hrange := tree.range_of_parent hij
    have hattached : j ∉ conf.pending := fun hmem =>
      hne ((h.comp_eq_iff comp hcomp hrange.2.2.1 hrange.2.2.2 hmem).mpr .refl)
    have hi : i ∉ conf.pending := fun hmem => hattached (h.parent_mem_pending tree hmem hij)
    exact (h.comp_parent_of_attached comp hcomp (h.parent_of_attached tree hi hij)).symm
  interval a k b ha hak hkb hn heq := by
    obtain ⟨hra, hlead_a⟩ := hcomp a ha (by omega)
    obtain ⟨hrk, hlead_k⟩ := hcomp k (by omega) (by omega)
    obtain ⟨-, hlead_b⟩ := hcomp b (by omega) hn
    rw [← heq] at hlead_b
    rcases lt_trichotomy (comp k) (comp a) with hlt | h' | hgt
    · have := h.consecutive _ hrk _ hra hlt k a hlead_k hlead_a
      omega
    · exact h'
    · have := h.consecutive _ hra _ hrk hgt b k hlead_b hlead_k
      omega
  projective i j k hij heq hbetween := by
    have hrange := tree.range_of_parent hij
    have hattached : i ∉ conf.pending := by
      intro hmem
      have hself := (h.comp_eq_iff comp hcomp (by omega) hrange.2.1 hmem).mpr .refl
      have hlead := (hcomp j hrange.2.2.1 hrange.2.2.2).2
      rw [← heq, hself] at hlead
      exact tree.isForest.ne_of_leadsTo_parent (h.leadsTo_gold hlead) hij
    exact h.leadsTo_gold (h.projective i j k (h.parent_of_attached tree hattached hij) hbetween)

end Division

end Blocks

namespace SwapOracle

variable {n : ℕ} {labels : List Bytes} {gold : Tree}

/-- A step of the run without swaps: where the predicted transition is not applicable,
the buffer is empty. -/
private theorem blocks_next (hgold : GoldTree n labels gold) {conf : Configuration}
    (h : Blocks n gold conf) (hsingle : conf.singleRoot = false) {tr : Transition}
    (hpredicts : TreeOracle.Predicts ⟨labels, gold, [], []⟩ conf tr) :
    (tr.applicable conf = false ∧ conf.buffer = []) ∨
      tr.applicable conf = true ∧ ∃ conf' child, tr.perform conf = some (conf', child) ∧
        Blocks n gold conf' ∧ conf'.singleRoot = false ∧ conf'.remaining < conf.remaining := by
  have hstep : ∀ {conf' child}, tr.applicable conf = true → tr.perform conf = some (conf', child) →
      Step conf conf' := fun happlicable hperform => step_of_perform happlicable hperform
  obtain ⟨t, stack, buffer, single⟩ := conf
  cases hpredicts with
  | @leftArc parent child rest hstack hready =>
    cases hstack
    cases hsingle
    have hparent : 0 ≤ parent :=
      (h.mem_pending.mp (by simp [Configuration.pending] : parent ∈ Configuration.pending _)).1
    have hchild : child ≠ 0 := by
      have := hgold.range_of_parent (Tree.parent_eq_some.mpr ⟨hready.1, hparent⟩)
      omega
    have happlicable : (Transition.leftArc (gold.deprelOf child)).applicable
        ⟨t, parent :: child :: rest, buffer, false⟩ = true := by
      simp [Transition.applicable, hchild]
    exact .inr ⟨happlicable, _, _, rfl,
      h.arc (.inl ⟨rfl, rfl⟩) hready (hstep happlicable rfl), rfl,
      (hstep happlicable rfl).remaining_lt⟩
  | @rightArc child parent rest hstack hready =>
    cases hstack
    cases hsingle
    have happlicable : (Transition.rightArc (gold.deprelOf child)).applicable
        ⟨t, child :: parent :: rest, buffer, false⟩ = true := by
      simp [Transition.applicable]
    exact .inr ⟨happlicable, _, _, rfl,
      h.arc (.inr ⟨rfl, rfl⟩) hready (hstep happlicable rfl), rfl,
      (hstep happlicable rfl).remaining_lt⟩
  | swap hstack hapart hswap => simp [TreeOracle.swaps] at hswap
  | shift hpair =>
    cases buffer with
    | nil => exact .inl ⟨rfl, rfl⟩
    | cons front buffer =>
      have happlicable : Transition.shift.applicable ⟨t, stack, front :: buffer, single⟩ = true :=
        rfl
      exact .inr ⟨happlicable, _, _, rfl, h.shift, hsingle, (hstep happlicable rfl).remaining_lt⟩

/-- The run without swaps ends with an empty buffer. -/
private theorem blocks_follow (hgold : GoldTree n labels gold) (fuel : ℕ) {conf : Configuration}
    (h : Blocks n gold conf) (hsingle : conf.singleRoot = false) (hfuel : conf.remaining ≤ fuel) :
    Blocks n gold (follow (TransitionSystem.swap labels)
        (TreeOracle.predict ⟨labels, gold, [], []⟩) fuel conf) ∧
      (follow (TransitionSystem.swap labels)
        (TreeOracle.predict ⟨labels, gold, [], []⟩) fuel conf).buffer = [] := by
  induction fuel generalizing conf with
  | zero =>
    have hstack := List.length_pos_of_mem (List.mem_of_getLast? h.consistent.bottom)
    simp only [Configuration.remaining] at hfuel
    omega
  | succ fuel ih =>
    cases hfinal : conf.final with
    | true => simpa [follow, hfinal] using ⟨h, (Configuration.final_iff.mp hfinal).1⟩
    | false =>
      obtain ⟨tr, htr, hpredicts⟩ := @TreeOracle.exists_predicts n ⟨labels, gold, [], []⟩ conf
        hgold h.toAgrees
      rcases blocks_next hgold h hsingle hpredicts with
        ⟨happlicable, hbuffer⟩ | ⟨happlicable, conf', child, hperform, h', hsingle', hlt⟩
      · simpa [follow, hfinal, TransitionSystem.applicable, htr, happlicable] using ⟨h, hbuffer⟩
      · simpa [follow, hfinal, TransitionSystem.applicable, TransitionSystem.perform, htr,
          happlicable, hperform] using ih h' hsingle' (by omega)

/-! ### The component of a node -/

section Component

variable {conf : Configuration} (h : conf.Consistent n)

include h

/-- The children are the nodes with this parent. -/
private theorem isChildren : IsChildren conf.t.parent conf.t.childrenOf where
  mem_iff a c := by rw [h.mem_children, Tree.parent_eq_some, and_comm]
  increase := h.children_increase

/-- The nodes stay within the sentence. -/
private theorem within {i : ℤ} (hi : 0 ≤ i) (hn : i ≤ n) :
    Within conf.t.parent (n + 1) i := by
  classical
  refine Forest.within_of_card h.forest (Finset.Icc 0 (n : ℤ)) (fun c p hcp => ?_) ?_ ?_
  · have := h.range_of_parent hcp
    exact Finset.mem_Icc.mpr ⟨this.1, this.2.1⟩
  · exact Finset.mem_Icc.mpr ⟨hi, hn⟩
  · apply (Finset.card_filter_le _ _).trans
    rw [Int.card_Icc]
    omega

/-- The nodes below `node` get its number, the others keep theirs. -/
private theorem getD_createProjectiveComponent {fuel : ℕ} {node index i : ℤ}
    {components : List ℤ} (hwithin : Within conf.t.parent fuel node) (hnode : 0 ≤ node)
    (hn : node ≤ n) (hlength : components.length = n + 1) (hi : 0 ≤ i) :
    (createProjectiveComponent conf.t fuel node components index).length = n + 1 ∧
      (LeadsTo conf.t.parent i node →
        (createProjectiveComponent conf.t fuel node components index).getD i.toNat 0 = index) ∧
      (¬ LeadsTo conf.t.parent i node →
        (createProjectiveComponent conf.t fuel node components index).getD i.toNat 0 =
          components.getD i.toNat 0) := by
  induction fuel generalizing node components with
  | zero => exact hwithin.elim
  | succ fuel ih =>
    -- the loop over the children
    have hloop : ∀ (cs components : List ℤ), (∀ c ∈ cs, conf.t.parent c = some node) →
        components.length = n + 1 →
        (cs.foldl (fun components child =>
          createProjectiveComponent conf.t fuel child components index) components).length =
            n + 1 ∧
        ((∃ c ∈ cs, LeadsTo conf.t.parent i c) → (cs.foldl (fun components child =>
          createProjectiveComponent conf.t fuel child components index) components).getD
            i.toNat 0 = index) ∧
        ((∀ c ∈ cs, ¬ LeadsTo conf.t.parent i c) → (cs.foldl (fun components child =>
          createProjectiveComponent conf.t fuel child components index) components).getD
            i.toNat 0 = components.getD i.toNat 0) := by
      intro cs
      induction cs with
      | nil =>
        intro components _ hlength
        refine ⟨hlength, fun hex => ?_, fun _ => rfl⟩
        simp at hex
      | cons c cs ihcs =>
        intro components hcs hlength
        have hc := hcs c List.mem_cons_self
        have hrange := h.range_of_parent hc
        obtain ⟨hlength', hbelow, hother⟩ :=
          ih (hwithin c hc) hrange.1 hrange.2.1 hlength
        obtain ⟨hlength'', hbelow', hother'⟩ :=
          ihcs _ (fun d hd => hcs d (List.mem_cons_of_mem _ hd)) hlength'
        refine ⟨hlength'', fun hex => ?_, fun hall => ?_⟩
        · by_cases hrest : ∃ d ∈ cs, LeadsTo conf.t.parent i d
          · exact hbelow' hrest
          · push Not at hrest
            obtain ⟨d, hd, hid⟩ := hex
            obtain rfl := (List.mem_cons.mp hd).resolve_right fun hd => hrest d hd hid
            exact (hother' hrest).trans (hbelow hid)
        · exact (hother' fun d hd => hall d (List.mem_cons_of_mem _ hd)).trans
            (hother (hall c List.mem_cons_self))
    have hmem := fun c => (isChildren h).mem_iff node c
    obtain ⟨hlength', hbelow, hother⟩ := hloop (conf.t.childrenOf node)
      (components.set node.toNat index) (fun c hc => (hmem c).mp hc) (by simpa using hlength)
    refine ⟨hlength', fun hlead => ?_, fun hnot => ?_⟩
    · by_cases hex : ∃ c ∈ conf.t.childrenOf node, LeadsTo conf.t.parent i c
      · exact hbelow hex
      · push Not at hex
        rcases hlead.cases_tail with rfl | ⟨c, hic, hc⟩
        · refine (hother hex).trans ?_
          simp [List.getD_eq_getElem?_getD, show node.toNat < components.length by omega]
        · exact absurd hic (hex c ((hmem c).mpr hc))
    · refine (hother fun c hc hic => hnot (hic.tail ((hmem c).mp hc))).trans ?_
      have hne : node.toNat ≠ i.toNat := by
        intro heq
        obtain rfl : node = i := by omega
        exact hnot .refl
      simp [List.getD_eq_getElem?_getD, List.getElem?_set_ne hne]

/-- The loop over the stack gives every node the number of its pending node. -/
private theorem getD_components {i r : ℤ} (hi : 0 ≤ i) (hr : r ∈ conf.pending)
    (hir : LeadsTo conf.t.parent i r) (roots : List ℤ) (hroots : ∀ x ∈ roots, x ∈ conf.pending)
    {components : List ℤ} (hlength : components.length = n + 1) :
    (roots.foldl (fun components node =>
        if node != 0 then createProjectiveComponent conf.t (n + 1) node components node
        else components) components).length = n + 1 ∧
      (roots.foldl (fun components node =>
        if node != 0 then createProjectiveComponent conf.t (n + 1) node components node
        else components) components).getD i.toNat 0 =
          if r ∈ roots ∧ r ≠ 0 then r else components.getD i.toNat 0 := by
  induction roots generalizing components with
  | nil => simpa using hlength
  | cons x roots ih =>
    have hx := hroots x List.mem_cons_self
    have ih' := fun {components : List ℤ} => @ih (fun y hy => hroots y (List.mem_cons_of_mem _ hy))
      components
    rw [List.foldl_cons]
    by_cases hzero : x = 0
    · have hskip : r ∈ x :: roots ∧ r ≠ 0 ↔ r ∈ roots ∧ r ≠ 0 := by
        rw [hzero, List.mem_cons]
        tauto
      rw [if_congr hskip rfl rfl, hzero]
      exact ih' hlength
    · have hrange := (h.mem_pending x).mp hx
      obtain ⟨hlength', hbelow, hother⟩ := @getD_createProjectiveComponent n conf h _ x x i
        components (within h hrange.1 hrange.2.1) hrange.1 hrange.2.1 hlength hi
      obtain ⟨hlength'', heq⟩ := ih' hlength'
      rw [if_pos (by simpa using hzero)]
      refine ⟨hlength'', heq.trans ?_⟩
      by_cases hrx : r = x
      · subst hrx
        rw [hbelow hir, ite_self]
        exact (if_pos ⟨List.mem_cons_self, hzero⟩).symm
      · have hnot : ¬ LeadsTo conf.t.parent i x := fun hix =>
          hrx (h.pending_unique hr hx hir hix)
        rw [hother hnot]
        apply if_congr _ rfl rfl
        rw [List.mem_cons, or_iff_right hrx]

end Component

/-- Following the lazy oracle builds every gold tree. -/
theorem lazy_rebuilds {n : ℕ} {labels : List Bytes} {gold : Tree} (single : Bool) (start : ℤ)
    (hgold : GoldTree n labels gold)
    (hchecks : single = true → ∃ train, gold ∈ train ∧ singleRootFailure train labels = none) :
    Rebuilds (TransitionSystem.swap labels) (createTreeOracle labels true start gold).predict
      (Configuration.init single gold) gold := by
  have tree := hgold.toIsTree
  have horder := @createTreeOracle_order n labels true start gold tree
  obtain ⟨conf, hconf⟩ : ∃ conf, conf = follow (TransitionSystem.swap labels)
      (TreeOracle.predict ⟨labels, gold, [], []⟩) (Configuration.init false gold).remaining
      (Configuration.init false gold) := ⟨_, rfl⟩
  obtain ⟨hblocks, hbuffer⟩ := blocks_follow hgold _ (Blocks.init tree false) rfl le_rfl
  rw [← hconf] at hblocks hbuffer
  have hcomponents : (createTreeOracle labels true start gold).projectiveComponents =
      conf.stack.reverse.foldl (fun components node =>
        if node != 0 then createProjectiveComponent conf.t (n + 1) node components node
        else components) (List.replicate (n + 1) 0) := by
    rw [hconf, ← tree.size]
    rfl
  have hstack : ∀ x, x ∈ conf.stack.reverse ↔ x ∈ conf.pending := by
    simp [Configuration.pending, hbuffer]
  have hget := fun i (hi : 0 ≤ i) r (hr : r ∈ conf.pending) hir =>
    @getD_components n conf hblocks.consistent i r hi hr hir conf.stack.reverse
      (fun x => (hstack x).mp) (List.replicate (n + 1) 0) List.length_replicate
  rw [← hcomponents] at hget
  have hlength := (hget 0 le_rfl 0 hblocks.consistent.zero_mem .refl).1
  have hcomp : ∀ i : ℤ, 0 ≤ i → i ≤ n →
      (createTreeOracle labels true start gold).projectiveComponents.getD i.toNat 0 ∈
          conf.pending ∧
        LeadsTo conf.t.parent i
          ((createTreeOracle labels true start gold).projectiveComponents.getD i.toNat 0) := by
    intro i hi hn
    obtain ⟨r, hr, hir⟩ := hblocks.consistent.exists_pending hi hn
    have heq : (createTreeOracle labels true start gold).projectiveComponents.getD i.toNat 0 =
        r := by
      rw [(hget i hi r hr hir).2]
      split
      · rfl
      · rename_i hnot
        have hzero : r = 0 := by
          by_contra hne
          exact hnot ⟨(hstack r).mpr hr, hne⟩
        rw [hzero, List.getD_eq_getElem?_getD, List.getElem?_replicate]
        split <;> rfl
    rw [heq]
    exact ⟨hr, hir⟩
  have hholds : (createTreeOracle labels true start gold).Holds
      ((hblocks.division tree _ hcomp).plan tree start) :=
    ⟨rfl, horder.1, horder.2, .inr ⟨List.ne_nil_of_length_eq_add_one hlength,
      fun _ _ _ => rfl⟩⟩
  exact hholds.rebuilds single hgold hchecks

/-- A tree with crossing arcs. -/
theorem lazy_rebuilds_crossing :
    Rebuilds (TransitionSystem.swap [rootLabel, bytes "det"])
      (createTreeOracle [rootLabel, bytes "det"] true 7 crossing).predict
      (Configuration.init true crossing) crossing :=
  lazy_rebuilds true 7 goldTree_crossing fun _ => ⟨[crossing], by simp, by decide⟩

end SwapOracle

end UDPipe.Parsito
