import UDPipe.Library.LowerBound
import Mathlib.Data.List.Infix
import Mathlib.Tactic.Common

/-!
# Sorted suffixes

The order of two lists is kept when both are cut to the same length. So among the sorted
suffixes of a list, those that are below a pattern when they are cut to its length come first,
then those that begin with it, and then those above it.
-/

variable {α : Type*} [LT α] [LE α] [Std.IsLinearOrder α] [Std.LawfulOrderLT α]

/-- Cutting two lists to the same length keeps their order. -/
theorem List.take_le_take_of_le {s t : List α} (h : s ≤ t) (n : ℕ) : s.take n ≤ t.take n := by
  induction n generalizing s t with
  | zero => simp
  | succ n ih =>
    cases s with
    | nil => exact List.nil_le _
    | cons a s =>
      cases t with
      | nil => simp at h
      | cons b t =>
        rw [List.take_succ_cons, List.take_succ_cons]
        rcases List.cons_le_cons_iff.mp h with hlt | ⟨rfl, hle⟩
        · exact List.cons_le_cons_iff.mpr (.inl hlt)
        · exact List.cons_le_cons_iff.mpr (.inr ⟨rfl, ih hle⟩)

/-- Elements with one of two predicates that exclude each other. -/
theorem countP_or {β : Type*} {p q : β → Bool} (h : ∀ a, ¬ (p a = true ∧ q a = true))
    (l : List β) : l.countP (fun a => p a || q a) = l.countP p + l.countP q := by
  induction l with
  | nil => rfl
  | cons a l ih =>
    rw [List.countP_cons, List.countP_cons, List.countP_cons, ih]
    have ha := h a
    cases hp : p a <;> cases hq : q a <;> simp_all <;> omega

/-- Of a sorted list of suffixes, those that begin with a pattern stand between the two
points at which a binary search stops. -/
theorem partitionPoint_sub_eq_countP [DecidableEq α] [DecidableLT α] {places : List ℕ}
    {text : List α} (hsorted : places.Pairwise fun a b => text.drop a ≤ text.drop b)
    (pattern : List α) :
    partitionPoint places (fun a => !decide (pattern < (text.drop a).take pattern.length)) -
        partitionPoint places (fun a => decide ((text.drop a).take pattern.length < pattern)) =
      places.countP fun a => decide (pattern <+: text.drop a) := by
  have hlower : places.Pairwise fun a b =>
      decide ((text.drop b).take pattern.length < pattern) = true →
        decide ((text.drop a).take pattern.length < pattern) = true := by
    refine hsorted.imp fun {a b} hle hlt => ?_
    rw [decide_eq_true_eq] at hlt ⊢
    exact List.lt_of_le_of_lt (List.take_le_take_of_le hle _) hlt
  have hupper : places.Pairwise fun a b =>
      (!decide (pattern < (text.drop b).take pattern.length)) = true →
        (!decide (pattern < (text.drop a).take pattern.length)) = true := by
    refine hsorted.imp fun {a b} hle hnot => ?_
    rw [Bool.not_eq_true', decide_eq_false_iff_not, List.not_lt] at hnot ⊢
    exact List.le_trans (List.take_le_take_of_le hle _) hnot
  rw [partitionPoint_eq_countP hlower, partitionPoint_eq_countP hupper]
  have hsplit : ∀ a, (!decide (pattern < (text.drop a).take pattern.length)) =
      (decide ((text.drop a).take pattern.length < pattern) || decide (pattern <+: text.drop a)) := by
    intro a
    rw [Bool.eq_iff_iff, Bool.not_eq_true', decide_eq_false_iff_not, List.not_lt,
      Bool.or_eq_true, decide_eq_true_eq, decide_eq_true_eq, List.le_iff_lt_or_eq,
      List.prefix_iff_eq_take, eq_comm (a := pattern)]
  have hapart : ∀ a, ¬ (decide ((text.drop a).take pattern.length < pattern) = true ∧
      decide (pattern <+: text.drop a) = true) := by
    rintro a ⟨hlt, hprefix⟩
    rw [decide_eq_true_eq] at hlt hprefix
    rw [← List.prefix_iff_eq_take.mp hprefix] at hlt
    exact List.lt_irrefl _ hlt
  rw [List.countP_congr (q := fun a => decide ((text.drop a).take pattern.length < pattern) ||
    decide (pattern <+: text.drop a)) fun a _ => by rw [hsplit a], countP_or hapart,
    Nat.add_sub_cancel_left]
