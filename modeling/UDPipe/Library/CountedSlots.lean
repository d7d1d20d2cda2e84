import Mathlib.Data.List.Basic
import Mathlib.Tactic.Common

/-!
# Slots that count themselves

A fixed number of slots is filled from the left. Until the last slot is needed for a value, it
holds how many values there are.
-/

namespace CountedSlots

/-- Add a value. -/
def push (slots : List ℕ) (val : ℕ) : List ℕ :=
  let last := slots.length - 1
  let count := slots.getD last 0
  let slots := slots.set count val
  if count + 1 < slots.length then slots.set last (slots.getD last 0 + 1) else slots

/-- The slots with some values. -/
def filled (n : ℕ) (vals : List ℕ) : List ℕ :=
  if vals.length < n then vals ++ (List.replicate (n - 1 - vals.length) 0 ++ [vals.length])
  else vals

variable {n : ℕ} {vals : List ℕ}

/-- The last slot has the value that was put there. -/
theorem getD_concat {l : List ℕ} {i : ℕ} (hi : i = l.length) (val : ℕ) :
    (l ++ [val]).getD i 0 = val := by
  rw [hi, List.getD_eq_getElem?_getD, List.getElem?_concat_length, Option.getD_some]

/-- The last slot can be replaced. -/
theorem set_concat {l : List ℕ} {i : ℕ} (hi : i = l.length) (val val' : ℕ) :
    (l ++ [val]).set i val' = l ++ [val'] := by
  rw [hi, List.set_append_right _ _ (Nat.le_refl _), Nat.sub_self]
  rfl

/-- With room left, the last slot has the number of the values. -/
theorem filled_of_lt (h : vals.length < n) : filled n vals =
    vals ++ (List.replicate (n - 1 - vals.length) 0 ++ [vals.length]) :=
  if_pos h

/-- All slots are used in the end. -/
theorem filled_of_length (h : vals.length = n) : filled n vals = vals :=
  if_neg (by omega)

/-- Slots without values are zero. -/
theorem filled_nil (n : ℕ) : filled n [] = List.replicate n 0 := by
  cases n with
  | zero => rfl
  | succ n =>
    rw [filled_of_lt (Nat.succ_pos n), List.nil_append, List.replicate_succ']
    rfl

/-- All slots are filled. -/
theorem length_filled (h : vals.length ≤ n) : (filled n vals).length = n := by
  rcases Nat.lt_or_eq_of_le h with hlt | heq
  · rw [filled_of_lt hlt]
    simp only [List.length_append, List.length_replicate, List.length_singleton]
    omega
  · rw [filled_of_length heq, heq]

/-- The last slot tells where the next value belongs. -/
theorem getD_filled (h : vals.length < n) : (filled n vals).getD (n - 1) 0 = vals.length := by
  rw [filled_of_lt h, ← List.append_assoc]
  apply getD_concat
  rw [List.length_append, List.length_replicate]
  omega

/-- The slots are below a bound of the values and of their number. -/
theorem lt_of_mem_filled {bound : ℕ} (hvals : ∀ val ∈ vals, val < bound) (hn : n < bound) :
    ∀ slot ∈ filled n vals, slot < bound := by
  intro slot hslot
  by_cases h : vals.length < n
  · rw [filled_of_lt h] at hslot
    simp only [List.mem_append, List.mem_replicate, List.mem_singleton] at hslot
    rcases hslot with hslot | ⟨-, rfl⟩ | rfl
    · exact hvals slot hslot
    · omega
    · omega
  · rw [filled, if_neg h] at hslot
    exact hvals slot hslot

/-- A value is added behind the others. -/
theorem push_filled (h : vals.length < n) (val : ℕ) :
    push (filled n vals) val = filled n (vals ++ [val]) := by
  have hlength : (vals ++ [val]).length = vals.length + 1 := by
    rw [List.length_append, List.length_singleton]
  have hset (cells : List ℕ) : (vals ++ cells).set vals.length val = vals ++ cells.set 0 val := by
    rw [List.set_append_right _ _ (Nat.le_refl _), Nat.sub_self]
  simp only [push, List.length_set, length_filled (Nat.le_of_lt h), getD_filled h]
  rw [filled_of_lt h, hset]
  rcases hrest : n - 1 - vals.length with _ | rest
  · -- the value takes the place of the number
    rw [if_neg (by omega), filled_of_length (by omega)]
    rfl
  · have hlast : n - 1 = (vals ++ val :: List.replicate rest 0).length := by
      simp only [List.length_append, List.length_cons, List.length_replicate]
      omega
    have hcells : vals ++ (List.replicate (rest + 1) 0 ++ [vals.length]).set 0 val =
        (vals ++ val :: List.replicate rest 0) ++ [vals.length] := by
      rw [List.append_assoc]
      rfl
    have hcount : n - 1 - (vals.length + 1) = rest := by omega
    rw [if_pos (by omega), hcells, getD_concat hlast, set_concat hlast, filled_of_lt (by omega),
      hlength, hcount, List.append_assoc, List.append_assoc]
    rfl

end CountedSlots
