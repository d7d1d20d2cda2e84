import Mathlib.Data.List.Basic
import Mathlib.Data.List.Infix

/-!
# Common substrings

A common substring of two lists is given by where it begins in each of them and by its
length. Along a diagonal, that is with a fixed difference of both beginnings, equal elements
form runs, and a common substring begins at the start of a run unless the elements before
it are equal too.
-/

variable {α : Type*} {l l' : List α} {i j n : ℕ}

/-- The lists have `n` equal elements from `i` and from `j` on. -/
structure CommonAt (l l' : List α) (i j n : ℕ) : Prop where
  left : i + n ≤ l.length
  right : j + n ≤ l'.length
  eq : (l.drop i).take n = (l'.drop j).take n

/-- No equal elements stand before the places. -/
def StartsRun (l l' : List α) (i j : ℕ) : Prop := i = 0 ∨ j = 0 ∨ l[i - 1]? ≠ l'[j - 1]?

instance [DecidableEq α] (l l' : List α) (i j : ℕ) : Decidable (StartsRun l l' i j) :=
  inferInstanceAs (Decidable (_ ∨ _ ∨ _))

namespace CommonAt

/-- At every two places there is a common substring of length zero. -/
theorem zero (hi : i ≤ l.length) (hj : j ≤ l'.length) : CommonAt l l' i j 0 :=
  ⟨by simpa using hi, by simpa using hj, by simp⟩

/-- Inside a common substring the elements are equal. -/
theorem getElem?_eq (h : CommonAt l l' i j n) {k : ℕ} (hk : k < n) : l[i + k]? = l'[j + k]? := by
  have hget := congrArg (·[k]?) h.eq
  simpa [List.getElem?_take_of_lt hk] using hget

/-- Equal elements make a common substring. -/
theorem of_getElem? (hi : i + n ≤ l.length) (hj : j + n ≤ l'.length)
    (h : ∀ k < n, l[i + k]? = l'[j + k]?) : CommonAt l l' i j n := by
  refine ⟨hi, hj, List.ext_getElem? fun k => ?_⟩
  by_cases hk : k < n
  · simpa [List.getElem?_take_of_lt hk] using h k hk
  · rw [List.getElem?_eq_none (by simp; omega), List.getElem?_eq_none (by simp; omega)]

/-- A common substring grows by an element that comes next in both lists. -/
theorem succ (h : CommonAt l l' i j n) {a : α} (hl : l[i + n]? = some a)
    (hl' : l'[j + n]? = some a) : CommonAt l l' i j (n + 1) := by
  have hlt := (List.getElem?_eq_some_iff.mp hl).1
  have hlt' := (List.getElem?_eq_some_iff.mp hl').1
  refine of_getElem? (by omega) (by omega) fun k hk => ?_
  rcases Nat.lt_succ_iff_lt_or_eq.mp hk with hk | rfl
  · exact h.getElem?_eq hk
  · rw [hl, hl']

/-- What is before and behind the common substring in the second list makes the second list
of it. -/
theorem replace (h : CommonAt l l' i j n) :
    l'.take j ++ (l.drop i).take n ++ l'.drop (j + n) = l' := by
  rw [h.eq, List.append_assoc, ← List.drop_drop, List.take_append_drop, List.take_append_drop]

/-- Lists that have everything in common are the same. -/
theorem eq_of_whole (h : CommonAt l l' i j n) (hi : i = 0) (hj : j = 0) (hl : l.length ≤ n)
    (hl' : l'.length ≤ n) : l = l' := by
  have heq := h.eq
  rwa [hi, hj, List.drop_zero, List.drop_zero, List.take_of_length_le hl,
    List.take_of_length_le hl'] at heq

/-- A run does not begin inside of a common substring on its diagonal. -/
theorem le_of_startsRun {i' j' : ℕ} (h : CommonAt l l' i j n) (hstart : StartsRun l l' i' j')
    (hdiagonal : i + j' = i' + j) (hend : i' < i + n) : i' ≤ i := by
  by_contra hlt
  have hget := h.getElem?_eq (show i' - 1 - i < n by omega)
  have hi : i + (i' - 1 - i) = i' - 1 := by omega
  have hj : j + (i' - 1 - i) = j' - 1 := by omega
  rw [hi, hj] at hget
  rcases hstart with hzero | hzero | hne
  · omega
  · omega
  · exact hne hget

/-- Common substrings that end at the same places and begin with a run are the same. -/
theorem start_eq {i' j' n' : ℕ} (h : CommonAt l l' i j n) (h' : CommonAt l l' i' j' n')
    (hstart : StartsRun l l' i j) (hstart' : StartsRun l l' i' j')
    (hdiagonal : i + j' = i' + j) (hend : i + n = i' + n') (hn : 0 < n) (hn' : 0 < n') : i = i' :=
  le_antisymm (h'.le_of_startsRun hstart hdiagonal.symm (by omega))
    (h.le_of_startsRun hstart' hdiagonal (by omega))

end CommonAt
