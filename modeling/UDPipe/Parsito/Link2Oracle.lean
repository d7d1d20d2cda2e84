import UDPipe.Parsito.ProjectiveOracle
import UDPipe.Parsito.SwapOracle

/-!
# The static oracle of the link2 system

The oracle tries the four directions of arcs one after another and predicts the
first one that is gold and whose child has its children. So whatever is attached
is attached as in the gold tree. In a projective tree the arcs over a node are
never gold when their turn comes: the node between would have been attached
before. There the oracle follows the plan of the projective oracle.
-/

namespace UDPipe.Parsito

open Forest (LeadsTo IsForest)
open ProjectiveOracle (nested goldTree_nested projective_nested)

/-- The arcs of the link2 system by their numbers. -/
theorem getElem?_link2 (labels : List Bytes) (i : ℕ) :
    (TransitionSystem.link2 labels)[1 + 4 * i]? = labels[i]?.map .leftArc ∧
      (TransitionSystem.link2 labels)[1 + 4 * i + 1]? = labels[i]?.map .rightArc ∧
      (TransitionSystem.link2 labels)[1 + 4 * i + 2]? = labels[i]?.map .leftArc2 ∧
      (TransitionSystem.link2 labels)[1 + 4 * i + 3]? = labels[i]?.map .rightArc2 := by
  simp only [TransitionSystem.link2, show 1 + 4 * i = 4 * i + 1 by omega,
    Nat.add_right_comm _ 1, List.getElem?_cons_succ]
  induction labels generalizing i with
  | nil => simp
  | cons label labels ih =>
    cases i with
    | zero => simp
    | succ i => simpa [Nat.mul_add] using ih i

namespace Link2Oracle

/-- Where the parent and the child of each direction stand, counted from the top of
the stack. -/
def directions : List (ℕ × ℕ) := [(0, 1), (1, 0), (0, 2), (2, 0)]

/-- The number of the arc of a direction when the arc is gold and its child has as many
children as in the gold tree. -/
def goldArc (labels : List Bytes) (gold : Tree) (conf : Configuration) (ends : ℕ × ℕ)
    (direction : ℕ) : Option ℕ :=
  match conf.stack[ends.1]?, conf.stack[ends.2]? with
  | some parent, some child =>
    if gold.headOf child = parent ∧
        (gold.childrenOf child).length = (conf.t.childrenOf child).length
    then (labels.findIdx? fun label => gold.deprelOf child == label).map (1 + 4 * · + direction)
    else none
  | _, _ => none

/-- `tree_oracle_static::predict` of the link2 system. -/
def predict (labels : List Bytes) (gold : Tree) (conf : Configuration) : PredictedTransition :=
  let transition := (directions.zipIdx.findSome? fun (ends, direction) =>
    goldArc labels gold conf ends direction).getD 0
  ⟨transition, transition⟩

/-! ### The predictions as rules -/

/-- What the oracle predicts, as rules. -/
inductive Predicts (gold : Tree) (conf : Configuration) : Transition → Prop
  | leftArc {parent child : ℤ} {rest : List ℤ} (hstack : conf.stack = parent :: child :: rest)
    (hready : Ready gold conf.t child parent) :
    Predicts gold conf (.leftArc (gold.deprelOf child))
  | rightArc {child parent : ℤ} {rest : List ℤ} (hstack : conf.stack = child :: parent :: rest)
    (hready : Ready gold conf.t child parent) :
    Predicts gold conf (.rightArc (gold.deprelOf child))
  | leftArc2 {parent ignore child : ℤ} {rest : List ℤ}
    (hstack : conf.stack = parent :: ignore :: child :: rest)
    (hapart : Apart gold conf.t parent ignore) (hready : Ready gold conf.t child parent) :
    Predicts gold conf (.leftArc2 (gold.deprelOf child))
  | rightArc2 {child toBuffer parent : ℤ} {rest : List ℤ}
    (hstack : conf.stack = child :: toBuffer :: parent :: rest)
    (hapart : Apart gold conf.t child toBuffer) (hready : Ready gold conf.t child parent) :
    Predicts gold conf (.rightArc2 (gold.deprelOf child))
  | shift
    (hpair : ∀ top second rest, conf.stack = top :: second :: rest →
      Apart gold conf.t top second) : Predicts gold conf .shift

section Predicts

variable {n : ℕ} {labels : List Bytes} {gold : Tree} {conf : Configuration}
  (hgold : GoldTree n labels gold) (hconf : Agrees n gold conf)

include hgold hconf

/-- A direction gives the number of its arc when the child is ready, else nothing. -/
theorem goldArc_cases (ends : ℕ × ℕ) (direction : ℕ) :
    (goldArc labels gold conf ends direction = none ∧ ∀ parent ∈ conf.stack[ends.1]?,
      ∀ child ∈ conf.stack[ends.2]?, ¬ Ready gold conf.t child parent) ∨
    ∃ parent ∈ conf.stack[ends.1]?, ∃ child ∈ conf.stack[ends.2]?,
      Ready gold conf.t child parent ∧ ∃ i, labels[i]? = some (gold.deprelOf child) ∧
        goldArc labels gold conf ends direction = some (1 + 4 * i + direction) := by
  have hpending : ∀ i : ℕ, ∀ node ∈ conf.stack[i]?, 0 ≤ node := fun i node hnode =>
    (hconf.mem_pending.mp (List.mem_append_left _ (List.mem_of_getElem? hnode))).1
  unfold goldArc
  cases hparent : conf.stack[ends.1]? with
  | none => exact .inl ⟨rfl, fun parent h => nomatch h⟩
  | some parent =>
    cases hchild : conf.stack[ends.2]? with
    | none => exact .inl ⟨rfl, fun _ _ child h => nomatch h⟩
    | some child =>
      have hready : gold.headOf child = parent ∧
          (gold.childrenOf child).length = (conf.t.childrenOf child).length ↔
            Ready gold conf.t child parent := by
        rw [hgold.complete_iff hconf.consistent (fun i hi => (hconf.agree i hi).1)
          (hpending _ _ hchild)]
        exact Iff.rfl
      by_cases h : Ready gold conf.t child parent
      · have hrange := hgold.range_of_parent
          (Tree.parent_eq_some.mpr ⟨h.1, hpending _ _ hparent⟩)
        obtain ⟨i, hi, hnumber⟩ := arcTransition_eq (hgold.labelled child hrange.1 hrange.2.1)
        have hfind : (labels.findIdx? fun label => gold.deprelOf child == label) = some i := by
          simpa [arcTransition] using hnumber 0
        refine .inr ⟨parent, rfl, child, rfl, h, i, hi, ?_⟩
        simp only [if_pos (hready.mpr h), hfind, Option.map_some]
      · refine .inl ⟨by simp only [if_neg (mt hready.mp h)], ?_⟩
        rintro _ ⟨⟩ _ ⟨⟩
        exact h

/-- The number that is predicted stands for a transition that the rules allow. -/
theorem exists_predicts :
    ∃ tr, (TransitionSystem.link2 labels)[(predict labels gold conf).toFollow]? = some tr ∧
      Predicts gold conf tr := by
  have hcases := goldArc_cases hgold hconf
  have hnumber := getElem?_link2 labels
  simp only [predict, directions, List.zipIdx_cons, List.zipIdx_nil, List.findSome?_cons,
    List.findSome?_nil, Nat.zero_add, Nat.reduceAdd]
  match hstack : conf.stack with
  | [] =>
    refine ⟨.shift, by simp [goldArc, hstack, TransitionSystem.link2], .shift ?_⟩
    simp [hstack]
  | [a] =>
    refine ⟨.shift, by simp [goldArc, hstack, TransitionSystem.link2], .shift ?_⟩
    simp [hstack]
  | top :: second :: rest =>
    simp only [hstack] at hcases
    rcases hcases (0, 1) 0 with ⟨hnone₀, hleft⟩ | ⟨_, ⟨⟩, _, ⟨⟩, hready, i, hi, h⟩
    swap
    · refine ⟨_, ?_, .leftArc hstack hready⟩
      simp [h, (hnumber i).1, hi]
    rcases hcases (1, 0) 1 with ⟨hnone₁, hright⟩ | ⟨_, ⟨⟩, _, ⟨⟩, hready, i, hi, h⟩
    swap
    · refine ⟨_, ?_, .rightArc hstack hready⟩
      simp [hnone₀, h, (hnumber i).2.1, hi]
    have hapart : Apart gold conf.t top second := ⟨hright _ rfl _ rfl, hleft _ rfl _ rfl⟩
    rcases hcases (0, 2) 2 with ⟨hnone₂, -⟩ | ⟨_, ⟨⟩, child, hchild, hready, i, hi, h⟩
    swap
    · obtain ⟨rest, rfl⟩ := List.head?_eq_some_iff.mp (List.head?_eq_getElem? ▸ hchild)
      refine ⟨_, ?_, .leftArc2 hstack hapart hready⟩
      simp [hnone₀, hnone₁, h, (hnumber i).2.2.1, hi]
    rcases hcases (2, 0) 3 with ⟨hnone₃, -⟩ | ⟨parent, hparent, _, ⟨⟩, hready, i, hi, h⟩
    swap
    · obtain ⟨rest, rfl⟩ := List.head?_eq_some_iff.mp (List.head?_eq_getElem? ▸ hparent)
      refine ⟨_, ?_, .rightArc2 hstack hapart hready⟩
      simp [hnone₀, hnone₁, hnone₂, h, (hnumber i).2.2.2, hi]
    refine ⟨.shift, by simp [hnone₀, hnone₁, hnone₂, hnone₃, TransitionSystem.link2], .shift ?_⟩
    rintro _ _ _ hpair
    cases hstack.symm.trans hpair
    exact hapart

end Predicts

/-! ### Soundness -/

/-- The configurations that the predictions lead through while they are applicable. -/
inductive Applies (labels : List Bytes) (gold : Tree) (start : Configuration) :
    Configuration → Prop
  | start : Applies labels gold start start
  | next {conf conf' : Configuration} {child : ℤ} (happlies : Applies labels gold start conf)
    (hfinal : conf.final = false)
    (happlicable : (TransitionSystem.link2 labels).applicable conf
      (predict labels gold conf).toFollow = true)
    (hperform : (TransitionSystem.link2 labels).perform conf
      (predict labels gold conf).toFollow = some (conf', child)) :
    Applies labels gold start conf'

/-- Node `i`, which has its gold children in `t`, gets its gold head and label in `t'`. -/
structure AddsGoldArc (gold t t' : Tree) (i : ℤ) : Prop where
  headOf : t'.headOf i = gold.headOf i
  deprelOf : t'.deprelOf i = gold.deprelOf i
  children : ∀ j, gold.headOf j = i → t.headOf j = i

/-- Every arc that an applicable prediction adds is gold. -/
def AddsGoldArcs (labels : List Bytes) (gold : Tree) (start : Configuration) : Prop :=
  ∀ conf, Applies labels gold start conf → conf.final = false →
    (TransitionSystem.link2 labels).applicable conf (predict labels gold conf).toFollow = true →
      ∀ conf' child, (TransitionSystem.link2 labels).perform conf
          (predict labels gold conf).toFollow = some (conf', child) →
        ∀ i, (conf'.t.headOf i, conf'.t.deprelOf i) ≠ (conf.t.headOf i, conf.t.deprelOf i) →
          AddsGoldArc gold conf.t conf'.t i

section Sound

variable {n : ℕ} {labels : List Bytes} {gold : Tree} {conf : Configuration}

/-- Attaching a ready word keeps the agreement and adds no other arc. -/
theorem attach_next (h : Agrees n gold conf) {conf' : Configuration} {parent child : ℤ}
    (hready : Ready gold conf.t child parent) (hchild : child ∈ conf.stack)
    (hparent : parent ∈ conf.stack) (hconsistent : conf'.Consistent n)
    (htree : conf'.t = conf.t.setHead child parent (gold.deprelOf child)) :
    Agrees n gold conf' ∧ ∀ i, (conf'.t.headOf i, conf'.t.deprelOf i) ≠
      (conf.t.headOf i, conf.t.deprelOf i) → AddsGoldArc gold conf.t conf'.t i := by
  have hattach := h.attaches (List.mem_append_left _ hchild) (List.mem_append_left _ hparent) hready
  rw [← htree] at hattach
  refine ⟨h.attach hconsistent hattach, fun i hi => ?_⟩
  obtain rfl : child = i := by
    by_contra hne
    simp [hattach.headOf, hattach.deprelOf, hne] at hi
  refine ⟨by simp [hattach.headOf, hready.1], by simp [hattach.deprelOf], fun j hj => ?_⟩
  exact ((h.agree j (hready.2 j hj)).1).trans hj

/-- What is predicted keeps the agreement, and adds gold arcs only. -/
theorem Predicts.next (h : Agrees n gold conf) {tr : Transition} (hpredicts : Predicts gold conf tr)
    (happlicable : tr.applicable conf = true) {conf' : Configuration} {child : ℤ}
    (hperform : tr.perform conf = some (conf', child)) :
    Agrees n gold conf' ∧ ∀ i, (conf'.t.headOf i, conf'.t.deprelOf i) ≠
      (conf.t.headOf i, conf.t.deprelOf i) → AddsGoldArc gold conf.t conf'.t i := by
  have hconsistent := h.consistent.step (step_of_perform happlicable hperform)
  obtain ⟨t, stack, buffer, single⟩ := conf
  cases hpredicts with
  | leftArc hstack hready =>
    cases hstack
    obtain ⟨rfl, -⟩ := Prod.ext_iff.mp (Option.some.inj hperform)
    exact attach_next h hready (by simp) (by simp) hconsistent rfl
  | rightArc hstack hready =>
    cases hstack
    obtain ⟨rfl, -⟩ := Prod.ext_iff.mp (Option.some.inj hperform)
    exact attach_next h hready (by simp) (by simp) hconsistent rfl
  | leftArc2 hstack hapart hready =>
    cases hstack
    obtain ⟨rfl, -⟩ := Prod.ext_iff.mp (Option.some.inj hperform)
    exact attach_next h hready (by simp) (by simp) hconsistent rfl
  | rightArc2 hstack hapart hready =>
    cases hstack
    obtain ⟨rfl, -⟩ := Prod.ext_iff.mp (Option.some.inj hperform)
    exact attach_next h hready (by simp) (by simp) hconsistent rfl
  | shift hpair =>
    cases buffer with
    | nil => cases hperform
    | cons front buffer =>
      obtain ⟨rfl, -⟩ := Prod.ext_iff.mp (Option.some.inj hperform)
      exact ⟨⟨hconsistent, h.agree, h.complete⟩, fun i hi => absurd rfl hi⟩

/-- An applicable prediction is one of the rules. -/
theorem next_of_perform (hgold : GoldTree n labels gold) (h : Agrees n gold conf)
    (happlicable : (TransitionSystem.link2 labels).applicable conf
      (predict labels gold conf).toFollow = true) {conf' : Configuration} {child : ℤ}
    (hperform : (TransitionSystem.link2 labels).perform conf
      (predict labels gold conf).toFollow = some (conf', child)) :
    Agrees n gold conf' ∧ ∀ i, (conf'.t.headOf i, conf'.t.deprelOf i) ≠
      (conf.t.headOf i, conf.t.deprelOf i) → AddsGoldArc gold conf.t conf'.t i := by
  obtain ⟨tr, htr, hpredicts⟩ := exists_predicts hgold h
  have happlicable' : tr.applicable conf = true := by
    simpa [TransitionSystem.applicable, htr] using happlicable
  have hperform' : tr.perform conf = some (conf', child) := by
    simpa [TransitionSystem.perform, htr] using hperform
  exact hpredicts.next h happlicable' hperform'

/-- Along the applicable predictions the arcs agree with the gold tree. -/
theorem Applies.agrees (hgold : GoldTree n labels gold) {single : Bool}
    (h : Applies labels gold (Configuration.init single gold) conf) : Agrees n gold conf := by
  induction h with
  | start => exact agrees_init hgold.toIsTree single
  | next _ _ happlicable hperform ih => exact (next_of_perform hgold ih happlicable hperform).1

end Sound

/-! ### Completeness -/

section Complete

variable {n : ℕ} {labels : List Bytes} {gold : Tree} {tree : IsTree n gold}
  {hproj : Forest.Projective gold.parent id ({i : ℤ | 0 ≤ i ∧ i ≤ n})} {conf : Configuration}
  (hconf : (ProjectiveOracle.plan tree hproj).Keeps conf)

include hconf

/-- No arc goes over a single pending node that cannot be attached to the head: in a
projective tree that node is below the head too. -/
theorem not_ready_over {child mid parent : ℤ} (hchild : child ∈ conf.pending)
    (hmid : mid ∈ conf.pending) (hparent : parent ∈ conf.pending)
    (hbetween : Forest.Between id child mid parent)
    (honly : ∀ w ∈ conf.pending, Forest.Between id child w parent → w = mid)
    (hwait : ¬ Ready gold conf.t mid parent) : ¬ Ready gold conf.t child parent := by
  rintro ⟨hhead, hcomplete⟩
  have hpos : ∀ i ∈ conf.pending, 0 ≤ i := fun i hi => (hconf.mem_pending.mp hi).1
  have harc : gold.parent child = some parent := Tree.parent_eq_some.mpr ⟨hhead, hpos _ hparent⟩
  have hacyclic : ∀ {a b : ℤ}, LeadsTo gold.parent b a → gold.parent a ≠ some b :=
    fun hlead => tree.isForest.ne_of_leadsTo_parent hlead
  have hover := fun {a b k : ℤ} (ha : a ∈ conf.pending) (hb : b ∈ conf.pending)
    (hk : k ∈ conf.pending) => ProjectiveOracle.leadsTo_of_between hconf ha hb hk
  have hlead := hover hchild hparent hmid (.single harc) hbetween
  -- nothing but the child and its head can be linked with the node between
  have hends : ∀ w ∈ conf.pending, w ≠ child → w ≠ mid → w ≠ parent →
      Forest.Between id w child mid ∨ Forest.Between id w parent mid := by
    intro w hw hwchild hwmid hwparent
    have := mt (honly w hw) hwmid
    simp only [Forest.Between, id] at this hbetween ⊢
    omega
  have hnot : ¬ LeadsTo gold.parent parent mid := by
    intro hback
    have := tree.isForest.antisymm hlead hback
    simp only [Forest.Between, id] at hbetween
    omega
  have hnot' : ¬ LeadsTo gold.parent child mid := by
    intro hback
    rcases hback.cases_head with heq | ⟨p, hp, hback⟩
    · simp only [Forest.Between, id] at hbetween
      omega
    · obtain rfl := Option.some.inj (harc.symm.trans hp)
      exact hnot hback
  -- the head of the node between is the head of the arc
  obtain ⟨q, hq, hqlead⟩ : ∃ q, gold.parent mid = some q ∧ LeadsTo gold.parent q parent := by
    rcases hlead.cases_head with rfl | h
    · exact absurd .refl hnot
    · exact h
  have hqpending := hconf.parent_mem_pending tree hmid hq
  have hqparent : q = parent := by
    by_contra hne
    have hback : ¬ LeadsTo gold.parent parent q := fun hback =>
      hne (tree.isForest.antisymm hqlead hback)
    have hqchild : q ≠ child := by
      rintro rfl
      exact (hcomplete mid (Tree.parent_eq_some.mp hq).1) (hconf.mem_pending.mp hmid).2.2
    have hqmid : q ≠ mid := by
      rintro rfl
      exact hacyclic .refl hq
    rcases hends q hqpending hqchild hqmid hne with hout | hout
    · rcases (hover hmid hqpending hchild (.single hq) hout.symm).cases_head with heq | ⟨p, hp, h⟩
      · exact hqchild heq.symm
      · obtain rfl := Option.some.inj (harc.symm.trans hp)
        exact hback h
    · exact hback (hover hmid hqpending hparent (.single hq) hout.symm)
  subst hqparent
  -- so it waits for a child of its own, which has nowhere to stand
  refine hwait ⟨(Tree.parent_eq_some.mp hq).1, fun z hz hnone => ?_⟩
  have hzmid : gold.parent z = some mid := Tree.parent_eq_some.mpr ⟨hz, hpos _ hmid⟩
  have hzrange := tree.range_of_parent hzmid
  have hzpending : z ∈ conf.pending := hconf.mem_pending.mpr ⟨by omega, hzrange.2.1, hnone⟩
  have hzchild : z ≠ child := by
    rintro rfl
    exact hnot' (.single hzmid)
  have hzq : z ≠ q := by
    rintro rfl
    exact hnot (.single hzmid)
  have hzmid' : z ≠ mid := by
    rintro rfl
    exact hacyclic .refl hzmid
  rcases hends z hzpending hzchild hzmid' hzq with hout | hout
  · exact hnot' (hover hzpending hmid hchild (.single hzmid) hout)
  · exact hnot (hover hzpending hmid hparent (.single hzmid) hout)

/-- The three topmost nodes are neighbours in the order of the sentence. -/
theorem neighbours {top second third : ℤ} {rest : List ℤ}
    (hstack : conf.stack = top :: second :: third :: rest) :
    third < second ∧ second < top ∧
      ∀ w ∈ conf.pending, third < w → w < top → w = second := by
  have hincrease := ProjectiveOracle.increase hconf
  simp only [Configuration.inOrder, hstack, List.reverse_cons, List.append_assoc,
    List.cons_append, List.nil_append, List.pairwise_append, List.pairwise_cons, List.mem_cons,
    List.mem_reverse, List.pairwise_reverse] at hincrease
  obtain ⟨-, ⟨hthird, hsecond, htop, -⟩, hrest⟩ := hincrease
  refine ⟨hthird second (.inl rfl), hsecond top (.inl rfl), fun w hw hlower hupper => ?_⟩
  simp only [Configuration.pending, hstack, List.cons_append, List.mem_cons,
    List.mem_append] at hw
  rcases hw with rfl | rfl | rfl | hw | hw
  · exact absurd hupper (lt_irrefl _)
  · rfl
  · exact absurd hlower (lt_irrefl _)
  · exact absurd hlower (not_lt_of_gt (hrest w hw third (.inl rfl)))
  · exact absurd hupper (not_lt_of_gt (htop w hw))

/-- The oracle predicts what the plan of the projective tree asks for. -/
theorem Predicts.chooses {tr : Transition} (hpredicts : Predicts gold conf tr) :
    (ProjectiveOracle.plan tree hproj).Chooses conf tr := by
  have hpending : ∀ i ∈ conf.stack, i ∈ conf.pending := fun i hi => List.mem_append_left _ hi
  cases hpredicts with
  | leftArc hstack hready => exact .leftArc hstack hready
  | rightArc hstack hready => exact .rightArc hstack hready
  | @leftArc2 parent ignore child rest hstack hapart hready =>
    exfalso
    obtain ⟨hlower, hupper, honly⟩ := neighbours hconf hstack
    simp only [hstack, List.mem_cons] at hpending
    exact not_ready_over hconf (hpending child (by simp)) (hpending ignore (by simp))
      (hpending parent (by simp)) (.inl ⟨hlower, hupper⟩)
      (fun w hw hbetween => honly w hw (by simp only [Forest.Between, id] at hbetween; omega)
        (by simp only [Forest.Between, id] at hbetween; omega)) hapart.2 hready
  | @rightArc2 child toBuffer parent rest hstack hapart hready =>
    exfalso
    obtain ⟨hlower, hupper, honly⟩ := neighbours hconf hstack
    have hwait := (hconf.waiting child _ hstack toBuffer parent ⟨[], rest, rfl⟩).1.1
    simp only [hstack, List.mem_cons] at hpending
    exact not_ready_over hconf (hpending child (by simp)) (hpending toBuffer (by simp))
      (hpending parent (by simp)) (.inr ⟨hlower, hupper⟩)
      (fun w hw hbetween => honly w hw (by simp only [Forest.Between, id] at hbetween; omega)
        (by simp only [Forest.Between, id] at hbetween; omega)) hwait hready
  | shift hpair =>
    refine .shift fun top second rest hstack => ⟨hpair top second rest hstack, .inl ?_⟩
    have hincrease := ProjectiveOracle.increase hconf
    rw [Configuration.inOrder, hstack] at hincrease
    have hbefore : [second, top].Sublist ((top :: second :: rest).reverse ++ conf.buffer) := by
      simp only [List.reverse_cons, List.append_assoc, List.cons_append, List.nil_append]
      exact List.sublist_append_of_sublist_right (List.sublist_append_left [second, top] _)
    simpa [ProjectiveOracle.plan] using hincrease.sublist hbefore

end Complete

/-- For every gold tree, an applicable prediction of the static oracle adds an arc only
with the gold head and the gold label, to a word that has its gold children; and for a
projective one the predictions are applicable and lead to the gold tree. -/
theorem static_sound_and_rebuilds {n : ℕ} {labels : List Bytes} {gold : Tree} (single : Bool)
    (hgold : GoldTree n labels gold) :
    AddsGoldArcs labels gold (Configuration.init single gold) ∧
    (Forest.Projective gold.parent id ({i : ℤ | 0 ≤ i ∧ i ≤ n}) →
      (single = true → ∃ train, gold ∈ train ∧ singleRootFailure train labels = none) →
      Rebuilds (TransitionSystem.link2 labels) (predict labels gold)
        (Configuration.init single gold) gold) := by
  constructor
  · intro conf happlies _ happlicable conf' child hperform
    exact (next_of_perform hgold (happlies.agrees hgold) happlicable hperform).2
  · intro hproj hchecks
    refine rebuilds_of_plan hgold.toIsTree (ProjectiveOracle.plan hgold.toIsTree hproj)
      (fun hsingle => ?_) fun conf hconf _ => ?_
    · obtain ⟨train, hmem, hnone⟩ := hchecks hsingle
      exact hgold.singleRooted hmem hnone
    · obtain ⟨tr, htr, hpredicts⟩ := exists_predicts hgold hconf.toAgrees
      exact ⟨tr, htr, hpredicts.chooses hconf⟩

/-- A tree with nested arcs. -/
theorem static_sound_and_rebuilds_nested :
    AddsGoldArcs [rootLabel, bytes "det"] nested (Configuration.init true nested) ∧
      Rebuilds (TransitionSystem.link2 [rootLabel, bytes "det"])
        (predict [rootLabel, bytes "det"] nested) (Configuration.init true nested) nested := by
  have h := static_sound_and_rebuilds true goldTree_nested
  exact ⟨h.1, h.2 projective_nested fun _ => ⟨[nested], by simp, by decide⟩⟩

end Link2Oracle

end UDPipe.Parsito
