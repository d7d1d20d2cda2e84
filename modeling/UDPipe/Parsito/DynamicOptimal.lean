import UDPipe.Parsito.DynamicTable
import UDPipe.Parsito.ProjectiveOracle

/-!
# What the dynamic oracle predicts

In a run of the projective system the stack and the buffer stand in the order of the sentence, so
they are a row of the gold tree, and the words that will get a wrong head are the errors of a
reduction. The right stack of the oracle should have the wanted nodes of the buffer. It has more
of them when a node is kept for a child that is attached already. Without such nodes the
predicted transition avoids every error that can be avoided.
-/

namespace UDPipe.Parsito

open Forest (LeadsTo)
open Joining

namespace DynamicOracle

/-! ### Runs of the projective system -/

/-- What the applicable transitions of the projective system do. -/
inductive ProjectiveStep (labels : List Bytes) : Move → Configuration → Configuration → Prop
  | shift {t : Tree} {front : ℤ} {stack buffer : List ℤ} {single : Bool} :
    ProjectiveStep labels .shift ⟨t, stack, front :: buffer, single⟩
      ⟨t, front :: stack, buffer, single⟩
  | leftArc {t : Tree} {parent child : ℤ} {rest buffer : List ℤ} {single : Bool} {label : Bytes}
    (hlabel : label ∈ labels) (hchild : child ≠ 0) :
    ProjectiveStep labels .leftArc ⟨t, parent :: child :: rest, buffer, single⟩
      ⟨t.setHead child parent label, parent :: rest, buffer, single⟩
  | rightArc {t : Tree} {parent child : ℤ} {rest buffer : List ℤ} {single : Bool} {label : Bytes}
    (hlabel : label ∈ labels) :
    ProjectiveStep labels .rightArc ⟨t, child :: parent :: rest, buffer, single⟩
      ⟨t.setHead child parent label, parent :: rest, buffer, single⟩

/-- The numbers of the projective system stand for a shift and for the arcs with the labels. -/
theorem mem_projective {labels : List Bytes} {tr : Transition} :
    tr ∈ TransitionSystem.projective labels ↔
      tr = .shift ∨ ∃ label ∈ labels, tr = .leftArc label ∨ tr = .rightArc label := by
  simp [TransitionSystem.projective]

/-- Performing an applicable transition is one of the steps. -/
theorem exists_projectiveStep {labels : List Bytes} {tr : Transition} {conf conf' : Configuration}
    {child : ℤ} (hmem : tr ∈ TransitionSystem.projective labels)
    (happlicable : tr.applicable conf = true) (h : tr.perform conf = some (conf', child)) :
    ∃ move, ProjectiveStep labels move conf conf' := by
  obtain ⟨t, stack, buffer, single⟩ := conf
  rcases mem_projective.mp hmem with rfl | ⟨label, hlabel, rfl | rfl⟩
  · cases buffer with
    | nil => cases h
    | cons front buffer =>
      obtain ⟨rfl, rfl⟩ := Prod.ext_iff.mp (Option.some.inj h)
      exact ⟨_, .shift⟩
  · rcases stack with _ | ⟨parent, _ | ⟨child', rest⟩⟩
    · cases h
    · cases h
    · obtain ⟨rfl, rfl⟩ := Prod.ext_iff.mp (Option.some.inj h)
      simp only [Transition.applicable, Bool.if_false_left, Bool.and_eq_true, bne_iff_ne]
        at happlicable
      exact ⟨_, .leftArc hlabel happlicable.2⟩
  · rcases stack with _ | ⟨child', _ | ⟨parent, rest⟩⟩
    · cases h
    · cases h
    · obtain ⟨rfl, rfl⟩ := Prod.ext_iff.mp (Option.some.inj h)
      exact ⟨_, .rightArc hlabel⟩

/-- The pending nodes of a run of the projective system: they are in the order of the sentence, and
the buffer has the last ones. -/
structure InOrder (n : ℕ) (conf : Configuration) : Prop where
  consistent : conf.Consistent n
  increase : conf.inOrder.Pairwise (· < ·)
  before : ∀ i : ℤ, 0 ≤ i → i ≤ n → i ∉ conf.buffer → ∀ b ∈ conf.buffer, i < b

namespace InOrder

variable {n : ℕ} {labels : List Bytes} {conf conf' : Configuration} {move : Move}

/-- The initial configuration is in order. -/
theorem init {gold : Tree} (tree : IsTree n gold) : InOrder n (Configuration.init false gold) := by
  refine ⟨Configuration.consistent_init false tree.size, increase_init tree false, ?_⟩
  intro i hi hn hnot b hb
  have hne : gold.nodes ≠ [] := List.ne_nil_of_length_eq_add_one tree.size
  simp only [Configuration.init, tree.size, Nat.add_sub_cancel, List.mem_map, List.mem_range'_1]
    at hnot hb
  obtain ⟨k, hk, rfl⟩ := hb
  by_contra hge
  exact hnot ⟨i.toNat, by omega, by omega⟩

/-- Every step keeps the order. -/
theorem step (h : InOrder n conf) (hstep : ProjectiveStep labels move conf conf')
    (hstep' : Step conf conf') : InOrder n conf' := by
  refine ⟨h.consistent.step hstep', ?_, ?_⟩
  · have hincrease := h.increase
    cases hstep with
    | shift => simpa [Configuration.inOrder] using hincrease
    | leftArc =>
      refine hincrease.sublist (List.Sublist.append_right (List.Sublist.reverse ?_) _)
      exact (List.sublist_cons_self _ _).cons_cons _
    | rightArc =>
      refine hincrease.sublist (List.Sublist.append_right (List.Sublist.reverse ?_) _)
      exact List.sublist_cons_self _ _
  · have hbefore := h.before
    cases hstep with
    | @shift t front stack buffer single =>
      intro i hi hn hnot b hb
      have hfront : ∀ b ∈ buffer, front < b :=
        (List.pairwise_cons.mp (List.pairwise_append.mp h.increase).2.1).1
      by_cases heq : i = front
      · exact heq ▸ hfront b hb
      · exact hbefore i hi hn (by simp [heq, hnot]) b (List.mem_cons_of_mem _ hb)
    | leftArc => exact hbefore
    | rightArc => exact hbefore

/-- Every run keeps the order, and a single root that is not asked for. -/
theorem run {transitions : List ℕ} (h : InOrder n conf)
    (hrun : (TransitionSystem.projective labels).run transitions conf = some conf') :
    InOrder n conf' ∧ conf'.singleRoot = conf.singleRoot := by
  induction transitions generalizing conf with
  | nil =>
    cases hrun
    exact ⟨h, rfl⟩
  | cons transition rest ih =>
    obtain ⟨tr, next, child, hmem, happlicable, hperform, hrest⟩ := TransitionSystem.run_cons hrun
    obtain ⟨move, hstep⟩ := exists_projectiveStep hmem happlicable hperform
    have hstep' := step_of_perform happlicable hperform
    obtain ⟨h', hsingle⟩ := ih (h.step hstep hstep') hrest
    exact ⟨h', hsingle.trans (hstep'.effect h.consistent.bottom h.consistent.nodup).1⟩

/-- A node on the stack below another one is not a child with a wrong direction: only the
bottom of the stack is the root. -/
theorem ne_zero {top second : ℤ} {rest : List ℤ} (h : InOrder n conf)
    (hstack : conf.stack = top :: second :: rest) : top ≠ 0 := by
  have hbottom := h.consistent.bottom
  have hnodup := h.consistent.nodup
  rw [Configuration.pending, hstack] at hnodup
  rw [hstack] at hbottom
  exact ne_zero_of_above hbottom (List.cons_ne_nil _ _) hnodup

end InOrder

/-! ### Words with a wrong head -/

/-- The number of words with a wrong head. -/
def wrongHeads (gold t : Tree) : ℕ :=
  (List.range' 1 (gold.nodes.length - 1)).countP fun i : ℕ => t.headOf i ≠ gold.headOf i

/-- The number of words that are attached to a wrong head. -/
def wrongArcs (gold t : Tree) : ℕ :=
  (List.range' 1 (gold.nodes.length - 1)).countP fun i : ℕ =>
    t.headOf i ≠ -1 ∧ t.headOf i ≠ gold.headOf i

/-- A change in one place. -/
theorem countP_change {l : List ℕ} {k : ℕ} (hnodup : l.Nodup) (hk : k ∈ l) {p q : ℕ → Bool}
    (hsame : ∀ a ∈ l, a ≠ k → q a = p a) (hp : p k = false) :
    l.countP q = (if q k then 1 else 0) + l.countP p := by
  obtain ⟨before, after, rfl⟩ := List.append_of_mem hk
  obtain ⟨-, hcons, hdisjoint⟩ := List.nodup_append.mp hnodup
  have hbefore : before.countP q = before.countP p := List.countP_congr fun a ha => by
    rw [hsame a (List.mem_append_left _ ha) (hdisjoint a ha k List.mem_cons_self)]
  have hafter : after.countP q = after.countP p := List.countP_congr fun a ha => by
    rw [hsame a (by simp [ha]) fun heq => (List.nodup_cons.mp hcons).1 (heq ▸ ha)]
  simp only [List.countP_append, List.countP_cons, hbefore, hafter, hp]
  simp only [Bool.false_eq_true, if_false]
  omega

section Counts

variable {n : ℕ} {labels : List Bytes} {gold : Tree} (tree : IsTree n gold)
  {conf conf' : Configuration}

include tree

/-- A first head is counted when it is wrong. -/
theorem wrongArcs_setHead {parent child : ℤ} {label : Bytes} (h : conf.Consistent n)
    (hparent : parent ∈ conf.pending) (hchild : child ∈ conf.pending) (hne : child ≠ 0) :
    wrongArcs gold (conf.t.setHead child parent label) =
      error (HeadIn gold.parent) parent child + wrongArcs gold conf.t := by
  obtain ⟨hparent, hparentn, -⟩ := (h.mem_pending parent).mp hparent
  obtain ⟨hchild, hchildn, hfree⟩ := (h.mem_pending child).mp hchild
  obtain ⟨k, rfl⟩ : ∃ k : ℕ, child = k := ⟨child.toNat, by omega⟩
  have hsize := h.size
  have hhead : ∀ i : ℕ, (conf.t.setHead k parent label).headOf i =
      if (k : ℤ) = i then parent else conf.t.headOf i := fun i => by
    rw [Tree.headOf, Tree.linksOf_setHead hchild (by omega) (by omega) hfree]
  have hmem : k ∈ List.range' 1 (gold.nodes.length - 1) := by
    rw [List.mem_range'_1, tree.size]
    omega
  rw [wrongArcs, countP_change List.nodup_range' hmem (fun i _ hi => ?_) ?_, wrongArcs]
  · rw [hhead, if_pos rfl, error]
    congr 1
    have hiff : HeadIn gold.parent parent k ↔ gold.headOf k = parent := by
      simp [HeadIn, Tree.parent_eq_some, hparent]
    simp only [hiff, decide_eq_true_eq]
    split_ifs <;> omega
  · simp [hfree]
  · rw [hhead, if_neg (by omega)]

/-- In the end all words are attached. -/
theorem wrongHeads_of_final (h : conf.Consistent n) (hfinal : conf.final = true) :
    wrongHeads gold conf.t = wrongArcs gold conf.t := by
  refine List.countP_congr fun i hi => ?_
  rw [List.mem_range'_1, tree.size] at hi
  have hattached : conf.t.headOf i ≠ -1 := by
    have := (h.isTree hfinal).heads i (by omega) (by omega)
    omega
  simp [hattached]

omit tree

/-- The transition with a label for a step. -/
def transitionOf (label : Bytes) : Move → Transition
  | .shift => .shift
  | .leftArc => .leftArc label
  | .rightArc => .rightArc label

variable {move : Move}

/-- A step that a reduction can begin with is applicable. -/
theorem exists_perform {label : Bytes} {errors : ℕ} (h : InOrder n conf)
    (hsingle : conf.singleRoot = false) (hlabel : label ∈ labels)
    (hreduces : ReducesBy (HeadIn gold.parent) 0 move conf.stack conf.buffer errors) :
    (transitionOf label move).applicable conf = true ∧
      ∃ conf' child, (transitionOf label move).perform conf = some (conf', child) ∧
        ProjectiveStep labels move conf conf' := by
  obtain ⟨t, stack, buffer, single⟩ := conf
  obtain rfl : single = false := hsingle
  cases hreduces with
  | shift => exact ⟨rfl, _, _, rfl, .shift⟩
  | leftArc hchild =>
    exact ⟨by simpa [Transition.applicable, transitionOf] using hchild, _, _, rfl,
      .leftArc hlabel hchild⟩
  | rightArc hchild =>
    exact ⟨by simp [Transition.applicable, transitionOf], _, _, rfl, .rightArc hlabel⟩

include tree

/-- The arcs of a step are counted, and what is left is reduced as before. -/
theorem exists_arcErrors (h : InOrder n conf) (hstep : ProjectiveStep labels move conf conf') :
    ∃ arcErrors, wrongArcs gold conf'.t = arcErrors + wrongArcs gold conf.t ∧
      ∀ errors, ReducesBy (HeadIn gold.parent) 0 move conf.stack conf.buffer errors ↔
        ∃ errors', errors = arcErrors + errors' ∧
          Reduces (HeadIn gold.parent) 0 conf'.stack conf'.buffer errors' := by
  cases hstep with
  | shift =>
    refine ⟨0, (Nat.zero_add _).symm, fun errors => ⟨?_, ?_⟩⟩
    · rintro ⟨hreduces⟩
      exact ⟨errors, (Nat.zero_add _).symm, hreduces⟩
    · rintro ⟨errors', rfl, hreduces⟩
      rw [Nat.zero_add]
      exact .shift hreduces
  | @leftArc t parent child rest buffer single label hlabel hchild =>
    have harc := @wrongArcs_setHead n gold tree _ parent child label h.consistent
      (by simp [Configuration.pending]) (by simp [Configuration.pending]) hchild
    refine ⟨error (HeadIn gold.parent) parent child, harc, fun errors => ⟨?_, ?_⟩⟩
    · rintro (_ | ⟨_, hreduces⟩ | _)
      exact ⟨_, rfl, hreduces⟩
    · rintro ⟨errors', rfl, hreduces⟩
      exact .leftArc hchild hreduces
  | @rightArc t parent child rest buffer single label hlabel =>
    have hchild := h.ne_zero rfl
    have harc := @wrongArcs_setHead n gold tree _ parent child label h.consistent
      (by simp [Configuration.pending]) (by simp [Configuration.pending]) hchild
    refine ⟨error (HeadIn gold.parent) parent child, harc, fun errors => ⟨?_, ?_⟩⟩
    · rintro (_ | _ | ⟨_, hreduces⟩)
      exact ⟨_, rfl, hreduces⟩
    · rintro ⟨errors', rfl, hreduces⟩
      exact .rightArc hchild hreduces

/-- What is left after a run to the end can be reduced with its errors. -/
theorem reduces_of_run {transitions : List ℕ} (h : InOrder n conf)
    (hrun : (TransitionSystem.projective labels).run transitions conf = some conf')
    (hfinal : conf'.final = true) :
    ∃ errors, wrongHeads gold conf'.t = errors + wrongArcs gold conf.t ∧
      Reduces (HeadIn gold.parent) 0 conf.stack conf.buffer errors := by
  induction transitions generalizing conf with
  | nil =>
    cases hrun
    have hpending := h.consistent.pending_of_final hfinal
    obtain ⟨hbuffer, -⟩ := Configuration.final_iff.mp hfinal
    rw [Configuration.pending, hbuffer, List.append_nil] at hpending
    refine ⟨0, ?_, ?_⟩
    · rw [Nat.zero_add, wrongHeads_of_final tree h.consistent hfinal]
    · rw [hpending, hbuffer]
      exact .done 0
  | cons transition rest ih =>
    obtain ⟨tr, next, child, hmem, happlicable, hperform, hrest⟩ := TransitionSystem.run_cons hrun
    obtain ⟨move, hstep⟩ := exists_projectiveStep hmem happlicable hperform
    have h' := h.step hstep (step_of_perform happlicable hperform)
    obtain ⟨errors, hcount, hreduces⟩ := ih h' hrest
    obtain ⟨arcErrors, harc, hiff⟩ := exists_arcErrors tree h hstep
    refine ⟨arcErrors + errors, by omega, ?_⟩
    exact ((hiff _).mpr ⟨errors, rfl, hreduces⟩).reduces

/-- What can be reduced can be brought to an end with so many errors at most. -/
theorem exists_run {label : Bytes} {errors : ℕ} (h : InOrder n conf)
    (hsingle : conf.singleRoot = false) (hlabel : label ∈ labels)
    (hreduces : Reduces (HeadIn gold.parent) 0 conf.stack conf.buffer errors) :
    ∃ transitions last, (TransitionSystem.projective labels).run transitions conf = some last ∧
      last.final = true ∧ wrongHeads gold last.t ≤ errors + wrongArcs gold conf.t := by
  induction hremaining : conf.remaining using Nat.strong_induction_on generalizing conf errors with
  | _ remaining ih =>
  subst hremaining
  rcases hreduces.cases with ⟨hstack, hbuffer⟩ | ⟨move, hreduces⟩
  · have hfinal : conf.final = true := Configuration.final_iff.mpr ⟨hbuffer, by simp [hstack]⟩
    refine ⟨[], conf, rfl, hfinal, ?_⟩
    rw [wrongHeads_of_final tree h.consistent hfinal]
    omega
  · obtain ⟨happlicable, next, child, hperform, hstep⟩ := exists_perform h hsingle hlabel hreduces
    have hstep' := step_of_perform happlicable hperform
    have hsingle' := (hstep'.effect h.consistent.bottom h.consistent.nodup).1
    obtain ⟨arcErrors, harc, hiff⟩ := exists_arcErrors tree h hstep
    obtain ⟨errors', rfl, hreduces'⟩ := (hiff errors).mp hreduces
    obtain ⟨transitions, last, hrun, hfinal, hle⟩ := ih next.remaining hstep'.remaining_lt
      (h.step hstep hstep') (hsingle'.trans hsingle) hreduces' rfl
    have hmem : transitionOf label move ∈ TransitionSystem.projective labels := by
      rw [mem_projective]
      cases move with
      | shift => exact .inl rfl
      | leftArc => exact .inr ⟨label, hlabel, .inl rfl⟩
      | rightArc => exact .inr ⟨label, hlabel, .inr rfl⟩
    obtain ⟨transition, htransition⟩ := List.mem_iff_getElem?.mp hmem
    refine ⟨transition :: transitions, last, ?_, hfinal, by omega⟩
    simp only [TransitionSystem.run, TransitionSystem.applicable, TransitionSystem.perform,
      htransition, happlicable, if_true, Option.bind_some, hperform, hrun]

/-- The numbers of wrong heads that the continuations of a configuration can end with. -/
def finalErrors (system : TransitionSystem) (gold : Tree) (conf : Configuration) : Set ℕ :=
  {errors | ∃ transitions last, system.run transitions conf = some last ∧ last.final = true ∧
    wrongHeads gold last.t = errors}

/-- The least number of wrong heads is that of the least reduction. -/
theorem isLeast_finalErrors {label : Bytes} {errors : ℕ} (h : InOrder n conf)
    (hsingle : conf.singleRoot = false) (hlabel : label ∈ labels)
    (hreduces : Reduces (HeadIn gold.parent) 0 conf.stack conf.buffer errors)
    (hleast : ∀ errors', Reduces (HeadIn gold.parent) 0 conf.stack conf.buffer errors' →
      errors ≤ errors') :
    IsLeast (finalErrors (TransitionSystem.projective labels) gold conf)
      (errors + wrongArcs gold conf.t) := by
  have hbound : ∀ transitions last,
      (TransitionSystem.projective labels).run transitions conf = some last → last.final = true →
        errors + wrongArcs gold conf.t ≤ wrongHeads gold last.t := by
    intro transitions last hrun hfinal
    obtain ⟨errors', hcount, hreduces'⟩ := reduces_of_run tree h hrun hfinal
    have := hleast errors' hreduces'
    omega
  obtain ⟨transitions, last, hrun, hfinal, hle⟩ := exists_run tree h hsingle hlabel hreduces
  refine ⟨⟨transitions, last, hrun, hfinal, ?_⟩, ?_⟩
  · exact le_antisymm hle (hbound transitions last hrun hfinal)
  · rintro _ ⟨transitions, last, hrun, hfinal, rfl⟩
    exact hbound transitions last hrun hfinal

end Counts

/-! ### The right stack -/

/-- When the oracle can be relied on: no node of the buffer is needed only for a child that is
attached already, and the numbers fit: those of the cells in 32 bits, those of the words and
of the transitions in an int. -/
structure Reliable (n : ℕ) (labels : List Bytes) (gold : Tree) (conf : Configuration) : Prop where
  lost : ∀ a ∈ conf.buffer, ∀ child, gold.parent child = some a → child ∉ conf.pending →
    Wanted gold.parent conf.stack conf.buffer a
  nodes : ∀ right : List ℤ, right.Sublist conf.buffer →
    (∀ a ∈ right, Wanted gold.parent conf.stack conf.buffer a) →
      conf.stack.length + right.length < 65535
  words : n + 3 < 2 ^ 31
  numbers : labels.length < 2 ^ 30

section RightStack

variable {n : ℕ} {labels : List Bytes} {gold : Tree} (tree : IsTree n gold)
  (hproj : Forest.Projective gold.parent id ({i : ℤ | 0 ≤ i ∧ i ≤ n})) {conf : Configuration}
  (h : InOrder n conf)

include tree hproj h

/-- The stack and the buffer are a row of the gold tree. -/
theorem row_of_inOrder :
    Row gold.parent 0 ({i : ℤ | 0 ≤ i ∧ i ≤ n}) conf.stack conf.buffer := by
  have hrange : ∀ a ∈ conf.pending, 0 ≤ a ∧ a ≤ n := fun a ha =>
    ⟨((h.consistent.mem_pending a).mp ha).1, ((h.consistent.mem_pending a).mp ha).2.1⟩
  obtain ⟨hstack, hbuffer, -⟩ := List.pairwise_append.mp h.increase
  have hdisjoint := (List.nodup_append.mp h.consistent.nodup).2.2
  exact
    { forest := tree.isForest
      upClosed := tree.upClosed
      projective := hproj
      stack_mem := fun a ha => hrange a (List.mem_append_left _ ha)
      buffer_mem := fun a ha => hrange a (List.mem_append_right _ ha)
      stack_decreases := List.pairwise_reverse.mp hstack
      buffer_increases := hbuffer
      before := fun a ha hnot b hb => h.before a ha.1 ha.2 hnot b hb
      stack_not_buffer := fun a ha hb => hdisjoint a ha a hb rfl
      root_not_buffer := fun hb =>
        hdisjoint 0 (List.mem_of_getLast? h.consistent.bottom) 0 hb rfl }

/-- The test of the oracle for a node of the buffer, when the wanted nodes before are known. -/
theorem test_iff (hlost : ∀ a ∈ conf.buffer, ∀ child, gold.parent child = some a →
      child ∉ conf.pending → Wanted gold.parent conf.stack conf.buffer a)
    {bufferStart : ℤ} {rest : List ℤ} (hstart : conf.buffer = bufferStart :: rest) {node : ℤ}
    (hnode : node ∈ conf.buffer) {right : List ℤ}
    (hright : ∀ a ∈ conf.buffer, a < node →
      (a ∈ right ↔ Wanted gold.parent conf.stack conf.buffer a))
    (hsub : ∀ a ∈ right, a ∈ conf.buffer ∧ a < node) :
    (gold.headOf node < bufferStart ∨
        ∃ child ∈ gold.childrenOf node, child < bufferStart ∨ child ∈ right) ↔
      Wanted gold.parent conf.stack conf.buffer node := by
  have row := row_of_inOrder tree hproj h
  have hfirst : ∀ a ∈ conf.buffer, bufferStart ≤ a := by
    intro a ha
    have hsorted := row.buffer_increases
    rw [hstart] at hsorted ha
    rcases List.mem_cons.mp ha with rfl | ha
    · exact le_rfl
    · exact ((List.pairwise_cons.mp hsorted).1 a ha).le
  have hstartmem : bufferStart ∈ conf.buffer := by simp [hstart]
  obtain ⟨hnode0, hnoden⟩ := row.buffer_mem node hnode
  have hchildren : ∀ child, child ∈ gold.childrenOf node ↔ gold.parent child = some node := by
    intro child
    rw [tree.mem_children node child hnode0, Tree.parent_eq_some, and_iff_left hnode0]
  have hparent : gold.parent node = some (gold.headOf node) :=
    tree.exists_parent (by have := row.ne_root hnode; omega) hnoden
  constructor
  · rintro (hhead | ⟨child, hchild, hlt | hmem⟩)
    · refine .outside hnode fun b hb hheadb => ?_
      have := hfirst b hb
      rw [hparent] at hheadb
      exact absurd (Option.some.inj hheadb) (by omega)
    · have hchild := (hchildren child).mp hchild
      by_cases hpending : child ∈ conf.pending
      · have hstack : child ∈ conf.stack := (List.mem_append.mp hpending).resolve_right
          fun hb => absurd (hfirst child hb) (not_le_of_gt hlt)
        exact .ofStack hnode hstack hchild
      · exact hlost node hnode child hchild hpending
    · obtain ⟨hbuffer, hlt⟩ := hsub child hmem
      exact .ofWanted hnode ((hright child hbuffer hlt).mp hmem) ((hchildren child).mp hchild)
  · rintro (⟨-, hhead⟩ | ⟨-, hstack, hchild⟩ | ⟨-, hwanted, hchild⟩)
    · have hrange := tree.range_of_parent hparent
      refine .inl (row.before _ ⟨hrange.2.2.1, hrange.2.2.2⟩ (fun hb => ?_) _ hstartmem)
      exact hhead _ hb hparent
    · exact .inr ⟨_, (hchildren _).mpr hchild, .inl (row.stack_lt hstack hstartmem)⟩
    · refine .inr ⟨_, (hchildren _).mpr hchild, .inr ?_⟩
      refine (hright _ hwanted.mem_buffer ?_).mpr hwanted
      have hne : _ ≠ node := fun heq => tree.isForest.ne_of_leadsTo_parent .refl (heq ▸ hchild)
      refine lt_of_le_of_ne (not_lt.mp fun hlt => ?_) hne
      exact row.not_leadsTo_of_lt hwanted hnode hlt (.single hchild)

/-- The right stack of the oracle has the wanted nodes. -/
theorem rightStack_spec (hlost : ∀ a ∈ conf.buffer, ∀ child, gold.parent child = some a →
      child ∉ conf.pending → Wanted gold.parent conf.stack conf.buffer a) :
    (rightStack gold conf.buffer).Sublist conf.buffer ∧
      ∀ a, a ∈ rightStack gold conf.buffer ↔ Wanted gold.parent conf.stack conf.buffer a := by
  have row := row_of_inOrder tree hproj h
  cases hbuffer : conf.buffer with
  | nil =>
    refine ⟨.refl _, fun a => iff_of_false List.not_mem_nil fun ha => ?_⟩
    exact absurd ha.mem_buffer (by simp)
  | cons bufferStart rest =>
    rw [← hbuffer]
    -- the right stack has the wanted nodes among those that the loop has seen
    have hloop : ∀ todo done right : List ℤ, conf.buffer = done ++ todo → right.Sublist done →
        (∀ a ∈ done, a ∈ right ↔ Wanted gold.parent conf.stack conf.buffer a) →
        (todo.foldl (pushRight gold bufferStart) right).Sublist conf.buffer ∧
          ∀ a ∈ conf.buffer, a ∈ todo.foldl (pushRight gold bufferStart) right ↔
            Wanted gold.parent conf.stack conf.buffer a := by
      intro todo
      induction todo with
      | nil =>
        intro done right hsplit hsub hright
        rw [List.append_nil] at hsplit
        exact ⟨hsplit ▸ hsub, hsplit ▸ hright⟩
      | cons node todo ih =>
        intro done right hsplit hsub hright
        have hsorted := row.buffer_increases
        rw [hsplit] at hsorted
        obtain ⟨-, htodo, hcross⟩ := List.pairwise_append.mp hsorted
        have hdone : ∀ a ∈ conf.buffer, a < node → a ∈ done := by
          intro a ha hlt
          rw [hsplit, List.mem_append, List.mem_cons] at ha
          rcases ha with ha | rfl | ha
          · exact ha
          · exact absurd hlt (lt_irrefl _)
          · exact absurd hlt (not_lt_of_gt ((List.pairwise_cons.mp htodo).1 a ha))
        have htest := test_iff tree hproj h hlost hbuffer (by simp [hsplit] : node ∈ conf.buffer)
          (fun a ha hlt => hright a (hdone a ha hlt))
          (fun a ha => ⟨hsplit ▸ List.mem_append_left _ (hsub.subset ha),
            hcross a (hsub.subset ha) node List.mem_cons_self⟩)
        have hnot : node ∉ right := fun hmem =>
          lt_irrefl node (hcross node (hsub.subset hmem) node List.mem_cons_self)
        rw [List.foldl_cons]
        refine ih (done ++ [node]) _ (by simp [hsplit]) ?_ ?_
        · unfold pushRight
          split
          · exact hsub.append (.refl _)
          · exact hsub.trans (List.sublist_append_left _ _)
        · intro a ha
          unfold pushRight
          rcases List.mem_append.mp ha with ha | ha
          · have hne : a ≠ node := (hcross a ha node List.mem_cons_self).ne
            rw [← hright a ha]
            split <;> simp [hne]
          · obtain rfl := List.mem_singleton.mp ha
            rw [← htest]
            split <;> simp_all
    obtain ⟨hsub, hmem⟩ := hloop conf.buffer [] [] rfl (.refl _) (by simp)
    have hright : rightStack gold conf.buffer =
        conf.buffer.foldl (pushRight gold bufferStart) [] := by
      rw [hbuffer]
      rfl
    rw [hright]
    refine ⟨hsub, fun a => ⟨fun ha => (hmem a (hsub.subset ha)).mp ha, fun ha => ?_⟩⟩
    exact (hmem a ha.mem_buffer).mpr ha

end RightStack

/-! ### The prediction -/

/-- A transition can be performed, and no more words need to get a wrong head than before. -/
def AvoidsErrors (system : TransitionSystem) (gold : Tree) (conf : Configuration)
    (transition : ℕ) : Prop :=
  system.applicable conf transition = true ∧
    ∃ next child, system.perform conf transition = some (next, child) ∧
      ∃ errors, IsLeast (finalErrors system gold conf) errors ∧
        IsLeast (finalErrors system gold next) errors

section Predict

variable {n : ℕ} {labels : List Bytes} {gold : Tree}

/-- The number of an arc with a known label. -/
theorem whichArcTransition_eq {child : ℤ} (hlabel : gold.deprelOf child ∈ labels) :
    ∃ i : ℕ, labels[i]? = some (gold.deprelOf child) ∧
      ∀ parent, whichArcTransition labels gold parent child =
        1 + 2 * i + if child > parent then 1 else 0 := by
  obtain ⟨i, hi, hnumber⟩ := arcTransition_eq hlabel
  have hfind : (labels.findIdx? fun label => gold.deprelOf child == label) = some i := by
    simpa [arcTransition] using hnumber 0
  refine ⟨i, hi, fun parent => ?_⟩
  rw [whichArcTransition, hfind]

variable (hgold : GoldTree n labels gold)
  (hproj : Forest.Projective gold.parent id ({i : ℤ | 0 ≤ i ∧ i ≤ n})) {conf : Configuration}
  (h : InOrder n conf)

include hgold hproj h

/-- The number of the first transition stands for it. -/
theorem exists_number {top : ℤ} {left : List ℤ} (hstack : conf.stack = top :: left) {move : Move}
    {errors : ℕ} (hreduces : ReducesBy (HeadIn gold.parent) 0 move conf.stack conf.buffer errors) :
    ∃ label ∈ labels, ∃ transition < 2 * labels.length + 1,
      number labels gold top left move = transition ∧
        (TransitionSystem.projective labels)[transition]? = some (transitionOf label move) := by
  have row := row_of_inOrder hgold.toIsTree hproj h
  have hlabelled : ∀ a : ℤ, 0 ≤ a ∧ a ≤ n → a ≠ 0 → gold.deprelOf a ∈ labels := fun a ha hne =>
    hgold.labelled a (by omega) ha.2
  generalize hbuffer : conf.buffer = buffer at hreduces
  rw [hstack] at hreduces
  have hdecreases := row.stack_decreases
  rw [hstack] at hdecreases
  cases hreduces with
  | @shift _ buffer item _ hreduces =>
    have hitem : item ∈ conf.buffer := by simp [hbuffer]
    exact ⟨_, hlabelled item (row.buffer_mem item hitem) (row.ne_root hitem), 0, by omega, rfl, rfl⟩
  | @leftArc left _ _ child _ hchild hreduces =>
    have hmem : child ∈ conf.stack := by simp [hstack]
    have hlabel := hlabelled child (row.stack_mem child hmem) hchild
    obtain ⟨i, hi, hnumber⟩ := whichArcTransition_eq hlabel
    have hlt : child < top := (List.pairwise_cons.mp hdecreases).1 child List.mem_cons_self
    have hbound := (List.getElem?_eq_some_iff.mp hi).1
    refine ⟨_, hlabel, 1 + 2 * i, by omega, ?_, ?_⟩
    · simp [number, hnumber, not_lt_of_gt hlt]
    · rw [(getElem?_projective labels i).1, hi]
      rfl
  | @rightArc left _ parent _ _ hchild hreduces =>
    have hmem : top ∈ conf.stack := by simp [hstack]
    have hlabel := hlabelled top (row.stack_mem top hmem) hchild
    obtain ⟨i, hi, hnumber⟩ := whichArcTransition_eq hlabel
    have hlt : parent < top := (List.pairwise_cons.mp hdecreases).1 parent List.mem_cons_self
    have hbound := (List.getElem?_eq_some_iff.mp hi).1
    refine ⟨_, hlabel, 2 + 2 * i, by omega, ?_, ?_⟩
    · simp only [number, List.headD_cons, hnumber, if_pos hlt]
      omega
    · rw [(getElem?_projective labels i).2, hi]
      rfl

/-- The table gives the first step of a reduction with the least number of errors. -/
theorem exists_reducesBy (hfinal : conf.final = false) (hreliable : Reliable n labels gold conf)
    {top : ℤ} {left : List ℤ} (hstack : conf.stack = top :: left) :
    ∃ move errors, (TRepresentation.fill labels gold conf.stack
        (rightStack gold conf.buffer)).transition
          ⟨left.length, (rightStack gold conf.buffer).length, 0⟩ =
        number labels gold top left move ∧
      ReducesBy (HeadIn gold.parent) 0 move conf.stack conf.buffer errors ∧
      ∀ errors', Reduces (HeadIn gold.parent) 0 conf.stack conf.buffer errors' →
        errors ≤ errors' := by
  have row := row_of_inOrder hgold.toIsTree hproj h
  obtain ⟨hsub, hwanted⟩ := rightStack_spec hgold.toIsTree hproj h hreliable.lost
  have hsize := hreliable.nodes _ hsub fun a ha => (hwanted a).mp ha
  generalize rightStack gold conf.buffer = right at hsub hwanted hsize ⊢
  have hall : (top :: left ++ right).Nodup := by
    rw [← hstack]
    exact h.consistent.nodup.sublist (hsub.append_left conf.stack)
  have hrange : ∀ a ∈ top :: left ++ right, 0 ≤ a ∧ a ≤ n := by
    intro a ha
    rw [← hstack] at ha
    rcases List.mem_append.mp ha with ha | ha
    · exact row.stack_mem a ha
    · exact row.buffer_mem a (hsub.subset ha)
  have nodes : Nodes top left right :=
    ⟨hall, fun a ha => (hrange a ha).1, hstack ▸ h.consistent.bottom⟩
  have hne : ¬ (left = [] ∧ right = []) := by
    rintro ⟨rfl, rfl⟩
    have hbuffer : conf.buffer ≠ [] := by
      intro hbuffer
      simp [Configuration.final, hstack, hbuffer] at hfinal
    obtain ⟨a, ha⟩ := row.exists_wanted hbuffer
    exact List.not_mem_nil ((hwanted a).mpr ha)
  have hlength : left.length + right.length ≤ gold.nodes.length := by
    have hcard := List.toFinset_card_of_nodup hall
    have hsubset : (top :: left ++ right).toFinset ⊆ Finset.Icc 0 (n : ℤ) := fun a ha =>
      Finset.mem_Icc.mpr (hrange a (List.mem_toFinset.mp ha))
    have hle := Finset.card_le_card hsubset
    rw [hcard, Int.card_Icc] at hle
    simp only [List.length_append, List.length_cons] at hle
    have := hgold.size
    omega
  obtain ⟨move, errors, htransition, hbegins, hleast⟩ := @exists_begins labels gold top left right
    nodes (by simpa [hstack] using hsize) hne hlength
  refine ⟨move, errors, hstack ▸ htransition, row.reducesBy_of_begins hstack hsub hwanted hbegins,
    fun errors' hreduces => ?_⟩
  exact hleast errors' ((row.reduces_iff hstack hsub hwanted).mp hreduces)

omit h in
/-- In a run of the projective system the predicted transition avoids every error that can be
avoided, when the oracle can be relied on. -/
theorem predict_avoidsErrors {transitions : List ℕ}
    (hrun : (TransitionSystem.projective labels).run transitions (Configuration.init false gold) =
      some conf) (hfinal : conf.final = false) (hreliable : Reliable n labels gold conf)
    (networkOutcome : ℕ) {iteration : ℕ} (hiteration : 1 < iteration) :
    AvoidsErrors (TransitionSystem.projective labels) gold conf
      (predict labels gold conf networkOutcome iteration).best := by
  obtain ⟨h, hsingle⟩ := (InOrder.init hgold.toIsTree).run hrun
  obtain ⟨top, left, hstack⟩ := List.exists_cons_of_ne_nil
    (List.ne_nil_of_mem (List.mem_of_getLast? h.consistent.bottom))
  obtain ⟨move, errors, htransition, hreduces, hleast⟩ :=
    exists_reducesBy hgold hproj h hfinal hreliable hstack
  obtain ⟨label, hlabel, transition, hlt, hnumber, hsystem⟩ :=
    exists_number hgold hproj h hstack hreduces
  have hbest : (predict labels gold conf networkOutcome iteration).best = transition := by
    have hlength : conf.stack.length - 1 = left.length := by simp [hstack]
    have := hreliable.numbers
    rw [predict, if_neg (by omega)]
    simp only [hlength, htransition, hnumber]
    omega
  obtain ⟨happlicable, next, child, hperform, hstep⟩ := exists_perform h hsingle hlabel hreduces
  have hstep' := step_of_perform happlicable hperform
  have hsingle' := (hstep'.effect h.consistent.bottom h.consistent.nodup).1
  obtain ⟨arcErrors, hcount, hiff⟩ := exists_arcErrors hgold.toIsTree h hstep
  obtain ⟨errors', rfl, hreduces'⟩ := (hiff errors).mp hreduces
  rw [hbest]
  refine ⟨by simpa [TransitionSystem.applicable, hsystem] using happlicable, next, child,
    by simpa [TransitionSystem.perform, hsystem] using hperform, _,
    isLeast_finalErrors hgold.toIsTree h hsingle hlabel hreduces.reduces hleast, ?_⟩
  have hnext := isLeast_finalErrors hgold.toIsTree (h.step hstep hstep') (hsingle'.trans hsingle)
    hlabel hreduces' fun k hk => by
      have := hleast _ ((hiff _).mpr ⟨k, rfl, hk⟩).reduces
      omega
  rw [hcount] at hnext
  rwa [Nat.add_comm arcErrors errors', Nat.add_assoc]

end Predict

/-! ### A configuration where an error becomes unavoidable -/

/-- In a run over two words the first one was attached to the root, though it hangs below the
second one, and the oracle can be relied on. -/
theorem predict_avoidsErrors_nested : ∃ conf,
    (TransitionSystem.projective [rootLabel, bytes "det"]).run [0, 2]
        (Configuration.init false ProjectiveOracle.nested) = some conf ∧
      AvoidsErrors (TransitionSystem.projective [rootLabel, bytes "det"]) ProjectiveOracle.nested
        conf (predict [rootLabel, bytes "det"] ProjectiveOracle.nested conf 3 2).best := by
  refine ⟨⟨twoWords.unlinkAllNodes.setHead 1 0 rootLabel, [0], [2], false⟩, by decide, ?_⟩
  refine @predict_avoidsErrors 2 [rootLabel, bytes "det"] ProjectiveOracle.nested
    ProjectiveOracle.goldTree_nested ProjectiveOracle.projective_nested _ [0, 2] (by decide)
    (by decide) ⟨fun a ha child _ _ => ?_, fun right hsub _ => ?_, by decide, by decide⟩ 3 2
    (by decide)
  · obtain rfl := List.mem_singleton.mp ha
    exact .outside ha (by decide)
  · have := hsub.length_le
    simp only [List.length_cons, List.length_nil] at this ⊢
    omega

/-- Five words: the first and the last one hang below the root, the others each below the next. -/
def chain : Tree :=
  let t := ["a", "b", "c", "d", "e"].foldl (fun t form => t.addNode (bytes form)) Tree.clear
  let t := (t.setHead 1 0 rootLabel).setHead 2 3 (bytes "det")
  ((t.setHead 3 4 (bytes "det")).setHead 4 5 (bytes "det")).setHead 5 0 rootLabel

/-- The tree of five words is a gold tree. -/
theorem goldTree_chain : GoldTree 5 [rootLabel, bytes "det"] chain :=
  @GoldTree.of_run 5 [rootLabel, bytes "det"] chain
    (TransitionSystem.projective [rootLabel, bytes "det"]) [0, 2, 0, 0, 3, 0, 3, 0, 3, 2] false
    chain (by decide) ⟨_, rfl, by decide, by decide⟩ (by decide) (by decide)

/-- The tree of five words is projective. -/
theorem projective_chain :
    Forest.Projective chain.parent id ({i : ℤ | 0 ≤ i ∧ i ≤ (5 : ℕ)}) := by
  intro c hc p k hcp hk hbetween
  have tree := goldTree_chain.toIsTree
  have hrange := tree.range_of_parent hcp
  obtain ⟨hk, hk'⟩ := hk
  simp only [Forest.Between, id] at hbetween
  -- only the arc to the last word has words inside
  obtain rfl : p = 0 := by
    obtain ⟨hc, hc', -, -⟩ := hrange
    have hheads : chain.parent 1 = some 0 ∧ chain.parent 2 = some 3 ∧ chain.parent 3 = some 4 ∧
        chain.parent 4 = some 5 ∧ chain.parent 5 = some 0 := by decide
    have hcases : c = 1 ∨ c = 2 ∨ c = 3 ∨ c = 4 ∨ c = 5 := by omega
    rcases hcases with rfl | rfl | rfl | rfl | rfl <;>
      simp only [hheads, Option.some.injEq] at hcp <;> omega
  exact tree.reaches_root k (by omega) hk'

/-- The second word was attached to the first one, though it hangs below the third one. -/
def lostChild : Configuration where
  t := chain.unlinkAllNodes.setHead 2 1 (bytes "det")
  stack := [1, 0]
  buffer := [3, 4, 5]
  singleRoot := false

/-- The third word is on the right stack for the child that it has lost, and so are those behind
it. The oracle shifts, and then the first word cannot be attached to the root any more. -/
theorem not_avoidsErrors_chain :
    GoldTree 5 [rootLabel, bytes "det"] chain ∧
      Forest.Projective chain.parent id ({i : ℤ | 0 ≤ i ∧ i ≤ (5 : ℕ)}) ∧
      (TransitionSystem.projective [rootLabel, bytes "det"]).run [0, 0, 4]
        (Configuration.init false chain) = some lostChild ∧ lostChild.final = false ∧
      (predict [rootLabel, bytes "det"] chain lostChild 3 2).best = 0 ∧
      ¬ AvoidsErrors (TransitionSystem.projective [rootLabel, bytes "det"]) chain lostChild
        (predict [rootLabel, bytes "det"] chain lostChild 3 2).best := by
  have hbest : (predict [rootLabel, bytes "det"] chain lostChild 3 2).best = 0 := by decide +kernel
  have hrun : (TransitionSystem.projective [rootLabel, bytes "det"]).run [0, 0, 4]
      (Configuration.init false chain) = some lostChild := by decide
  refine ⟨goldTree_chain, projective_chain, hrun, by decide, hbest, ?_⟩
  rw [hbest]
  rintro ⟨-, next, child, hperform, errors, ⟨-, hleast⟩,
    ⟨transitions, last, hlast, hfinal, hcount⟩, -⟩
  have tree := goldTree_chain.toIsTree
  obtain ⟨rfl, -⟩ := Prod.ext_iff.mp (Option.some.inj hperform)
  -- a right arc first, and no other word gets a wrong head
  have hone : 1 ∈ finalErrors (TransitionSystem.projective [rootLabel, bytes "det"]) chain
      lostChild := ⟨[2, 0, 0, 3, 0, 3, 2], _, rfl, by decide, by decide⟩
  have hshift : (TransitionSystem.projective [rootLabel, bytes "det"]).run [0, 0, 4, 0]
      (Configuration.init false chain) =
        some ⟨lostChild.t, [3, 1, 0], [4, 5], false⟩ := by decide
  have horder := ((InOrder.init tree).run hshift).1
  obtain ⟨left, hleft, hreduces⟩ := reduces_of_run tree horder hlast hfinal
  have hpos := @Reduces.pos_of_blocked ℤ (HeadIn chain.parent) _ 0 _ _ _ hreduces [3] [0] 1 rfl
    (List.cons_ne_nil _ _) fun a ha => by
      simp only [List.mem_cons, List.not_mem_nil, or_false] at ha
      rcases ha with rfl | rfl | rfl <;> decide
  have harcs : wrongArcs chain lostChild.t = 1 := by decide
  have := hleast hone
  simp only at hleft
  omega

end DynamicOracle

end UDPipe.Parsito
