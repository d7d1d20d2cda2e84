import Mathlib.Data.List.Basic
import Mathlib.Logic.Function.Basic
import Mathlib.Logic.Relation
import Mathlib.Tactic.Common

/-!
# Cycles found with marks

Every node has at most one successor. From each node in turn a walk follows the successors,
leaving the mark of the walk, until there is no successor or one that has a mark already. If
that is the mark of the walk itself, there is a cycle. The start of a walk gets the mark of the
walk even if an earlier walk has been there.
-/

namespace MarkedWalks

open Relation

variable {α : Type} [DecidableEq α] (next : α → Option α)

/-- The walk from a node that has the mark of the walk, with fuel: the marks in the end, and
whether the walk came back to itself. -/
def walk (mark : ℕ) : ℕ → α → (α → ℕ) → Option ((α → ℕ) × Bool)
  | 0, _, _ => none
  | fuel + 1, node, marks =>
    match next node with
    | none => some (marks, false)
    | some node =>
      if marks node ≠ 0 then some (marks, marks node == mark)
      else walk mark fuel node (Function.update marks node mark)

/-- The walks from several nodes. -/
def search (fuel : ℕ) : List α → ℕ → (α → ℕ) → Bool → Option Bool
  | [], _, _, containsCycle => some containsCycle
  | start :: starts, mark, marks, containsCycle => do
    let (marks, found) ← walk next (mark + 1) fuel start (Function.update marks start (mark + 1))
    search fuel starts (mark + 1) marks (containsCycle || found)

/-- A node from which no cycle is reached. -/
def Ends (a : α) : Prop :=
  ∀ c, ReflTransGen (fun a b => next a = some b) a c → ¬ TransGen (fun a b => next a = some b) c c

variable {next}

omit [DecidableEq α] in
/-- A walk without a next node ends. -/
theorem ends_of_none {a : α} (h : next a = none) : Ends next a := by
  have hnone (b : α) : ¬ next a = some b := by
    rw [h]
    exact (Option.some_ne_none b).symm
  intro c hreach hcycle
  rcases hreach.cases_head with rfl | ⟨b, hb, -⟩
  · obtain ⟨b, hb, -⟩ := TransGen.head'_iff.mp hcycle
    exact hnone b hb
  · exact hnone b hb

omit [DecidableEq α] in
/-- If no cycle is reached from the successor, none is reached from the node. -/
theorem Ends.of_next {a b : α} (hnext : next a = some b) (h : Ends next b) : Ends next a := by
  intro c hreach hcycle
  rcases hreach.cases_head with rfl | ⟨b', hb', hreach⟩
  · -- the node itself would be on the cycle, and so would its successor
    obtain ⟨b', hb', hback⟩ := TransGen.head'_iff.mp hcycle
    obtain rfl := Option.some.inj (hnext.symm.trans hb')
    exact h a hback hcycle
  · obtain rfl := Option.some.inj (hnext.symm.trans hb')
    exact h c hreach hcycle

omit [DecidableEq α] in
/-- What comes before the end of a walk ends there, too. -/
theorem Ends.of_reach {a b : α} (hreach : ReflTransGen (fun a b => next a = some b) a b)
    (h : Ends next b) : Ends next a := by
  induction hreach using ReflTransGen.head_induction_on with
  | refl => exact h
  | head hnext _ ih => exact ih.of_next hnext

/-- The marks at a node of a walk: the walk has its own mark, with which it leads to the node,
and marks of earlier walks are smaller. -/
structure Walking (next : α → Option α) (mark : ℕ) (node : α) (marks : α → ℕ) : Prop where
  pos : 0 < mark
  here : marks node = mark
  le : ∀ a, marks a ≤ mark
  leads : ∀ a, marks a = mark → ReflTransGen (fun a b => next a = some b) a node

/-- A walk begins at its start, with a mark that is nowhere yet. -/
theorem Walking.start {mark : ℕ} {marks : α → ℕ} (h : ∀ a, marks a ≤ mark) (start : α) :
    Walking next (mark + 1) start (Function.update marks start (mark + 1)) where
  pos := Nat.succ_pos mark
  here := Function.update_self ..
  le a := by
    rw [Function.update_apply]
    split
    · exact Nat.le_refl _
    · exact Nat.le_succ_of_le (h a)
  leads a ha := by
    rw [Function.update_apply] at ha
    split at ha
    · next heq => exact heq ▸ .refl
    · have hle := h a
      omega

/-- A walk goes on to the next node, which gets the mark. -/
theorem Walking.onward {mark : ℕ} {node node' : α} {marks : α → ℕ}
    (h : Walking next mark node marks) (hnext : next node = some node') :
    Walking next mark node' (Function.update marks node' mark) where
  pos := h.pos
  here := Function.update_self ..
  le a := by
    rw [Function.update_apply]
    split
    · exact Nat.le_refl _
    · exact h.le a
  leads a ha := by
    rw [Function.update_apply] at ha
    split at ha
    · next heq => exact heq ▸ .refl
    · exact (h.leads a ha).tail hnext

/-- What a walk returns. -/
structure Walked (next : α → Option α) (mark : ℕ) (marks marks' : α → ℕ) (found : Bool) : Prop where
  le : ∀ a, marks' a ≤ mark
  keeps : ∀ a, marks a ≠ 0 → marks' a ≠ 0
  sound : found = true → ∃ a, TransGen (fun a b => next a = some b) a a
  complete : found = false → (∀ a, marks a ≠ 0 → marks a ≠ mark → Ends next a) →
    ∀ a, marks' a ≠ 0 → Ends next a

/-- A mark for a node without one leaves fewer nodes without one. -/
theorem countP_update_lt {nodes : List α} {node : α} {marks : α → ℕ} {mark : ℕ}
    (hmem : node ∈ nodes) (hnode : marks node = 0) (hmark : mark ≠ 0) :
    nodes.countP (fun a => Function.update marks node mark a = 0) <
      nodes.countP fun a => marks a = 0 := by
  obtain ⟨before, after, rfl⟩ := List.append_of_mem hmem
  have hle (l : List α) : l.countP (fun a => Function.update marks node mark a = 0) ≤
      l.countP fun a => marks a = 0 := by
    apply List.countP_mono_left
    intro a _ ha
    rw [decide_eq_true_eq, Function.update_apply] at ha
    split at ha
    · exact absurd ha hmark
    · exact decide_eq_true ha
  have hbefore := hle before
  have hafter := hle after
  rw [List.countP_append, List.countP_append, List.countP_cons_of_neg (by simpa using hmark),
    List.countP_cons_of_pos (by simpa using hnode)]
  omega

/-- A walk over some nodes returns, with fuel for the nodes without a mark. -/
theorem Walking.walk {nodes : List α} (hnodes : ∀ a b, next a = some b → b ∈ nodes) {mark : ℕ}
    {fuel : ℕ} {node : α} {marks : α → ℕ} (h : Walking next mark node marks)
    (hfuel : nodes.countP (fun a => marks a = 0) < fuel) :
    ∃ marks' found, MarkedWalks.walk next mark fuel node marks = some (marks', found) ∧
      Walked next mark marks marks' found := by
  induction fuel generalizing node marks with
  | zero => cases hfuel
  | succ fuel ih =>
    rw [MarkedWalks.walk]
    cases hnext : next node with
    | none =>
      refine ⟨marks, false, rfl, h.le, fun _ ha => ha, ?_, ?_⟩
      · exact fun hfound => absurd hfound Bool.false_ne_true
      intro _ hearlier a ha
      by_cases hmark : marks a = mark
      · exact (ends_of_none hnext).of_reach (h.leads a hmark)
      · exact hearlier a ha hmark
    | some node' =>
      by_cases hmarked : marks node' = 0
      · -- the walk goes on, and one more node is marked
        have hcount := countP_update_lt (hnodes node node' hnext) hmarked
          (Nat.pos_iff_ne_zero.mp h.pos)
        obtain ⟨marks', found, hwalk, hwalked⟩ := ih (h.onward hnext) (by omega)
        simp only [hmarked, ne_eq, not_true_eq_false, if_false]
        refine ⟨marks', found, hwalk, hwalked.le, ?_, hwalked.sound, ?_⟩
        · intro a ha
          apply hwalked.keeps
          rw [Function.update_apply]
          split
          · exact Nat.pos_iff_ne_zero.mp h.pos
          · exact ha
        · intro hfound hearlier
          apply hwalked.complete hfound
          intro a ha hne
          rw [Function.update_apply] at ha hne
          split at ha
          · next heq => exact absurd (by rw [if_pos heq]) hne
          · next heq => exact hearlier a ha (by rwa [if_neg heq] at hne)
      · simp only [hmarked, ne_eq, not_false_eq_true, if_true]
        refine ⟨marks, _, rfl, h.le, fun _ ha => ha, ?_, ?_⟩
        · intro hfound
          have hreach := h.leads node' (beq_iff_eq.mp hfound)
          exact ⟨node', TransGen.tail' hreach hnext⟩
        · intro hfound hearlier a ha
          have hne : marks node' ≠ mark := beq_eq_false_iff_ne.mp hfound
          by_cases hmark : marks a = mark
          · exact ((hearlier node' hmarked hne).of_next hnext).of_reach (h.leads a hmark)
          · exact hearlier a ha hmark

/-- The walks from some starts find a cycle, or there is none that can be reached from them or
from the nodes that are marked already. -/
theorem search_spec {nodes : List α} (hnodes : ∀ a b, next a = some b → b ∈ nodes) {fuel : ℕ}
    (hfuel : nodes.length < fuel) {starts : List α} {mark : ℕ} {marks : α → ℕ} {found : Bool}
    (hle : ∀ a, marks a ≤ mark)
    (hsound : found = true → ∃ a, TransGen (fun a b => next a = some b) a a)
    (hcomplete : found = false → ∀ a, marks a ≠ 0 → Ends next a) :
    ∃ containsCycle, search next fuel starts mark marks found = some containsCycle ∧
      (containsCycle = true → ∃ a, TransGen (fun a b => next a = some b) a a) ∧
      (containsCycle = false → ∀ a, marks a ≠ 0 ∨ a ∈ starts → Ends next a) := by
  induction starts generalizing mark marks found with
  | nil =>
    refine ⟨found, rfl, hsound, fun hfound a ha => hcomplete hfound a ?_⟩
    exact ha.resolve_right List.not_mem_nil
  | cons start starts ih =>
    have hcount := List.countP_le_length (l := nodes)
      (p := fun a => decide (Function.update marks start (mark + 1) a = 0))
    obtain ⟨marks', found', hwalk, hwalked⟩ :=
      (Walking.start hle start).walk hnodes (Nat.lt_of_le_of_lt hcount hfuel)
    have hsound' : (found || found') = true → ∃ a, TransGen (fun a b => next a = some b) a a := by
      intro hor
      rcases Bool.or_eq_true_iff.mp hor with hfound | hfound
      · exact hsound hfound
      · exact hwalked.sound hfound
    have hcomplete' : (found || found') = false → ∀ a, marks' a ≠ 0 → Ends next a := by
      intro hor
      rw [Bool.or_eq_false_iff] at hor
      apply hwalked.complete hor.2
      intro a ha hne
      rw [Function.update_apply] at ha hne
      split at ha
      · next heq => exact absurd (if_pos heq) hne
      · exact hcomplete hor.1 a ha
    obtain ⟨containsCycle, hsearch, hcycle, hends⟩ := ih hwalked.le hsound' hcomplete'
    refine ⟨containsCycle, ?_, hcycle, fun hnot a ha => hends hnot a ?_⟩
    · rw [search, hwalk]
      exact hsearch
    · by_cases hstart : a = start
      · left
        apply hwalked.keeps
        rw [hstart, Function.update_self]
        exact Nat.succ_ne_zero mark
      · rcases ha with ha | ha
        · left
          apply hwalked.keeps
          rwa [Function.update_of_ne hstart]
        · exact .inr ((List.mem_cons.mp ha).resolve_left hstart)

/-- The walks from all nodes find a cycle exactly if there is one. -/
theorem search_iff {nodes : List α} (hnodes : ∀ a b, next a = some b → b ∈ nodes) {fuel : ℕ}
    (hfuel : nodes.length < fuel) :
    ∃ containsCycle, search next fuel nodes 0 (fun _ => 0) false = some containsCycle ∧
      (containsCycle = true ↔ ∃ a, TransGen (fun a b => next a = some b) a a) := by
  obtain ⟨containsCycle, hsearch, hcycle, hends⟩ := @search_spec α _ next nodes hnodes fuel hfuel
    nodes 0 (fun _ => 0) false (fun _ => Nat.le_refl 0) (fun h => absurd h Bool.false_ne_true)
    (fun _ _ h => absurd rfl h)
  refine ⟨containsCycle, hsearch, hcycle, ?_⟩
  rintro ⟨a, ha⟩
  by_contra hnot
  obtain ⟨b, -, hb⟩ := TransGen.tail'_iff.mp ha
  exact hends ((Bool.not_eq_true _).mp hnot) a (.inr (hnodes b a hb)) a .refl ha

end MarkedWalks
