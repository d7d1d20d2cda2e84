import Mathlib.Data.List.Basic
import Mathlib.Order.Lattice
import Mathlib.Order.Nat

/-!
# Longest common subsequences

The length of a longest common subsequence by the textbook recursion: heads that are equal
are matched, and otherwise one of them is left out.
-/

namespace CommonSubsequence

variable {κ : Type*} [DecidableEq κ]

/-- The length of a longest common subsequence. -/
def longest : List κ → List κ → ℕ
  | [], _ => 0
  | _, [] => 0
  | x :: xs, y :: ys =>
    if x = y then longest xs ys + 1 else max (longest xs (y :: ys)) (longest (x :: xs) ys)
termination_by xs ys => xs.length + ys.length

/-- The empty list has no common elements with another one. -/
@[simp] theorem longest_nil_left (ys : List κ) : longest [] ys = 0 := by rw [longest]

/-- Another list has no common elements with the empty one. -/
@[simp] theorem longest_nil_right (xs : List κ) : longest xs [] = 0 := by
  cases xs <;> rw [longest]
  simp

/-- No common subsequence is longer. -/
theorem length_le_longest {l xs ys : List κ} (hxs : l.Sublist xs) (hys : l.Sublist ys) :
    l.length ≤ longest xs ys := by
  induction xs, ys using longest.induct generalizing l with
  | case1 ys =>
    rw [List.sublist_nil.mp hxs]
    exact Nat.zero_le _
  | case2 xs =>
    rw [List.sublist_nil.mp hys]
    exact Nat.zero_le _
  | case3 xs y ys ih =>
    rw [longest, if_pos rfl]
    cases l with
    | nil => exact Nat.zero_le _
    | cons a l => exact Nat.succ_le_succ (ih hxs.of_cons_cons hys.of_cons_cons)
  | case4 x xs y ys hne ih ih' =>
    rw [longest, if_neg hne]
    rcases List.sublist_cons_iff.mp hxs with hxs' | ⟨l', rfl, hl'⟩
    · exact (ih hxs' hys).trans (le_max_left _ _)
    · rcases List.sublist_cons_iff.mp hys with hys' | ⟨l'', heq, -⟩
      · exact (ih' hxs hys').trans (le_max_right _ _)
      · exact absurd (List.cons.inj heq).1 hne

/-- Some common subsequence is as long. -/
theorem exists_length_eq_longest (xs ys : List κ) :
    ∃ l : List κ, l.Sublist xs ∧ l.Sublist ys ∧ l.length = longest xs ys := by
  induction xs, ys using longest.induct with
  | case1 ys => exact ⟨[], List.nil_sublist _, List.nil_sublist _, by simp⟩
  | case2 xs => exact ⟨[], List.nil_sublist _, List.nil_sublist _, by simp⟩
  | case3 xs y ys ih =>
    obtain ⟨l, hxs, hys, hl⟩ := ih
    refine ⟨y :: l, hxs.cons_cons y, hys.cons_cons y, ?_⟩
    rw [longest, if_pos rfl, List.length_cons, hl]
  | case4 x xs y ys hne ih ih' =>
    rw [longest, if_neg hne]
    rcases le_total (longest xs (y :: ys)) (longest (x :: xs) ys) with hle | hle
    · obtain ⟨l, hxs, hys, hl⟩ := ih'
      exact ⟨l, hxs, hys.cons y, by rw [hl, max_eq_right hle]⟩
    · obtain ⟨l, hxs, hys, hl⟩ := ih
      exact ⟨l, hxs.cons x, hys, by rw [hl, max_eq_left hle]⟩

/-- One more element makes it longer by one at most. -/
theorem longest_cons_left_le (x : κ) (xs ys : List κ) :
    longest (x :: xs) ys ≤ longest xs ys + 1 := by
  obtain ⟨l, hxs, hys, hl⟩ := exists_length_eq_longest (x :: xs) ys
  rw [← hl]
  rcases List.sublist_cons_iff.mp hxs with hxs' | ⟨l', rfl, hl'⟩
  · exact (length_le_longest hxs' hys).trans (Nat.le_succ _)
  · exact Nat.succ_le_succ (length_le_longest hl' (List.sublist_of_cons_sublist hys))

/-- One element more makes the common subsequence longer by at most one. -/
theorem longest_cons_right_le (xs : List κ) (y : κ) (ys : List κ) :
    longest xs (y :: ys) ≤ longest xs ys + 1 := by
  obtain ⟨l, hxs, hys, hl⟩ := exists_length_eq_longest xs (y :: ys)
  rw [← hl]
  rcases List.sublist_cons_iff.mp hys with hys' | ⟨l', rfl, hl'⟩
  · exact (length_le_longest hxs hys').trans (Nat.le_succ _)
  · exact Nat.succ_le_succ (length_le_longest (List.sublist_of_cons_sublist hxs) hl')

/-- Matching equal heads is as good as leaving one of them out. -/
theorem longest_cons_cons (x y : κ) (xs ys : List κ) : longest (x :: xs) (y :: ys) =
    if x = y then max (max (longest xs (y :: ys)) (longest (x :: xs) ys)) (1 + longest xs ys)
    else max (longest xs (y :: ys)) (longest (x :: xs) ys) := by
  rw [longest]
  split
  · have hleft := longest_cons_left_le x xs ys
    have hright := longest_cons_right_le xs y ys
    omega
  · rfl

end CommonSubsequence
