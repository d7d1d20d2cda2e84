import Mathlib.Data.List.Basic
import Mathlib.Data.Nat.Choose.Basic
import Mathlib.Order.Basic

/-!
# Pairs in increasing order

The number of pairs of positions of a list whose elements increase. Exchanging
two neighbours that increase lowers it by one and dropping elements does not
raise it, so it bounds how often a procedure can do the former.
-/

namespace List

variable {α : Type*} [LT α] [DecidableLT α]

/-- The number of elements above `a`. -/
def countAbove (a : α) (l : List α) : ℕ := l.countP fun b => a < b

/-- The number of pairs of positions whose elements increase. -/
def orderedPairs : List α → ℕ
  | [] => 0
  | a :: l => l.countAbove a + orderedPairs l

/-- A list has at most as many increasing pairs as pairs. -/
theorem orderedPairs_le (l : List α) : l.orderedPairs ≤ l.length.choose 2 := by
  induction l with
  | nil => simp [orderedPairs]
  | cons a l ih =>
    have hcount : l.countAbove a ≤ l.length := List.countP_le_length
    have hchoose : (l.length + 1).choose 2 = l.length + l.length.choose 2 := by
      rw [Nat.choose_succ_succ', Nat.choose_one_right]
    simp only [orderedPairs, List.length_cons, hchoose]
    omega

/-- Dropping elements leaves no more increasing pairs. -/
theorem Sublist.orderedPairs_le {l l' : List α} (h : l.Sublist l') :
    l.orderedPairs ≤ l'.orderedPairs := by
  induction h with
  | slnil => exact le_rfl
  | cons a _ ih => exact ih.trans (Nat.le_add_left _ _)
  | cons_cons a hsub ih => exact Nat.add_le_add hsub.countP_le ih

/-- Exchanging two neighbours that increase removes their pair and no other. -/
theorem orderedPairs_exchange {a b : α} (hab : a < b) (hba : ¬ b < a) (before after : List α) :
    (before ++ a :: b :: after).orderedPairs = (before ++ b :: a :: after).orderedPairs + 1 := by
  induction before with
  | nil =>
    simp only [List.nil_append, orderedPairs, countAbove, List.countP_cons, hab, hba, decide_true,
      decide_false, if_true]
    simp only [Bool.false_eq_true, if_false]
    omega
  | cons c before ih =>
    have hcount : (before ++ a :: b :: after).countAbove c =
        (before ++ b :: a :: after).countAbove c :=
      (List.Perm.append_left before (List.Perm.swap b a after)).countP_eq _
    simp only [List.cons_append, orderedPairs, hcount, ih]
    omega

end List
