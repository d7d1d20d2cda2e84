import Mathlib.Order.Lattice
import Mathlib.Order.Nat
import Mathlib.Data.List.Basic

/-!
# Binary search

The first index of an interval at which a predicate that holds of a first part fails.
-/

/-- Halve the interval of `size` indices from `first` on until it is empty. -/
def lowerBound (below : ℕ → Bool) (first size : ℕ) : ℕ :=
  if size = 0 then first
  else if below (first + size / 2) then
    lowerBound below (first + size / 2 + 1) (size - (size / 2 + 1))
  else lowerBound below first (size / 2)
termination_by size

/-- The predicate holds before the result and fails from it on. -/
theorem lowerBound_spec {below : ℕ → Bool} {first size : ℕ}
    (hmono : ∀ i j, first ≤ i → i ≤ j → j < first + size → below j = true → below i = true) :
    first ≤ lowerBound below first size ∧ lowerBound below first size ≤ first + size ∧
      (∀ i, first ≤ i → i < lowerBound below first size → below i = true) ∧
      ∀ i, lowerBound below first size ≤ i → i < first + size → below i = false := by
  induction size using Nat.strongRecOn generalizing first with
  | ind size ih =>
    rw [lowerBound]
    by_cases hsize : size = 0
    · simp only [if_pos hsize]
      exact ⟨le_refl first, by omega, fun i hi hlt => by omega, fun i hi hlt => by omega⟩
    rw [if_neg hsize]
    by_cases hmiddle : below (first + size / 2) = true
    · rw [if_pos hmiddle]
      obtain ⟨hlow, hhigh, hbefore, hafter⟩ :=
        @ih (size - (size / 2 + 1)) (by omega) (first + size / 2 + 1)
          (fun i j hi hij hj => hmono i j (by omega) hij (by omega))
      refine ⟨by omega, by omega, fun i hi hlt => ?_, fun i hi hlt => hafter i hi (by omega)⟩
      rcases le_or_gt i (first + size / 2) with hle | hgt
      · exact hmono i _ hi hle (by omega) hmiddle
      · exact hbefore i (by omega) hlt
    · rw [if_neg hmiddle]
      obtain ⟨hlow, hhigh, hbefore, hafter⟩ :=
        @ih (size / 2) (by omega) first (fun i j hi hij hj => hmono i j hi hij (by omega))
      refine ⟨hlow, by omega, hbefore, fun i hi hlt => ?_⟩
      rcases lt_or_ge i (first + size / 2) with hlt' | hge
      · exact hafter i hi hlt'
      · by_contra hbelow
        exact hmiddle (hmono _ i (by omega) hge hlt (by simpa using hbelow))

/-- In a sorted list the search finds the place of a member. -/
theorem lowerBound_eq {α : Type*} [LinearOrder α] {l : List α}
    (hsorted : l.Pairwise (· < ·)) {i : ℕ} (hi : i < l.length) :
    lowerBound (fun k => (l[k]?.map fun a => decide (a < l[i])).getD false) 0 l.length = i := by
  have hlt : ∀ j k (hj : j < l.length) (hk : k < l.length), j < k → l[j] < l[k] := fun j k hj hk =>
    List.pairwise_iff_getElem.mp hsorted j k hj hk
  have hbelow : ∀ k, k < l.length →
      (((l[k]?.map fun a => decide (a < l[i])).getD false) = true ↔ k < i) := by
    intro k hk
    simp only [List.getElem?_eq_getElem hk, Option.map_some, Option.getD_some, decide_eq_true_eq]
    constructor
    · intro hlt'
      by_contra hge
      rcases eq_or_lt_of_le (not_lt.mp hge) with rfl | hgt
      · exact lt_irrefl _ hlt'
      · exact lt_asymm hlt' (hlt i k hi hk hgt)
    · exact hlt k i hk hi
  obtain ⟨-, hle, hbefore, hafter⟩ := @lowerBound_spec
    (fun k => (l[k]?.map fun a => decide (a < l[i])).getD false) 0 l.length
    (fun j k _ hjk hk hk' => (hbelow j (by omega)).mpr
      (lt_of_le_of_lt hjk ((hbelow k (by omega)).mp hk')))
  apply le_antisymm
  · by_contra hgt
    have := (hbelow i hi).mp (hbefore i (Nat.zero_le i) (by omega))
    omega
  · by_contra hgt
    have hnot := hafter _ le_rfl (by omega)
    have := (hbelow _ (by omega)).mpr (not_le.mp hgt)
    rw [hnot] at this
    cases this

/-- The index of the first element at which the predicate fails, by binary search. -/
def partitionPoint {α : Type*} (l : List α) (below : α → Bool) : ℕ :=
  lowerBound (fun k => (l[k]?.map below).getD false) 0 l.length

/-- In a list that begins with the elements that have the predicate, their number is the index
of the first element that does not. -/
theorem partitionPoint_eq_countP {α : Type*} {l : List α} {below : α → Bool}
    (h : l.Pairwise fun a b => below b = true → below a = true) :
    partitionPoint l below = l.countP below := by
  have hget : ∀ k (hk : k < l.length), (l[k]?.map below).getD false = below l[k] := fun k hk => by
    rw [List.getElem?_eq_getElem hk, Option.map_some, Option.getD_some]
  obtain ⟨-, hle, hbefore, hafter⟩ := @lowerBound_spec
    (fun k => (l[k]?.map below).getD false) 0 l.length fun i j _ hij hj hbelow => by
      rw [Nat.zero_add] at hj
      rw [hget j hj] at hbelow
      rw [hget i (by omega)]
      rcases Nat.eq_or_lt_of_le hij with rfl | hlt
      · exact hbelow
      · exact List.pairwise_iff_getElem.mp h i j (by omega) hj hlt hbelow
  rw [Nat.zero_add] at hle hafter
  obtain ⟨point, hpoint⟩ : ∃ point, point = partitionPoint l below := ⟨_, rfl⟩
  rw [partitionPoint] at hpoint
  rw [← hpoint] at hle hbefore hafter
  have htake : (l.take point).countP below = point := by
    rw [List.countP_eq_length.mpr, List.length_take, min_eq_left hle]
    intro a ha
    obtain ⟨k, hk, rfl⟩ := List.mem_iff_getElem.mp ha
    have hlt : k < point := by
      rw [List.length_take] at hk
      omega
    have hbelow := hbefore k (Nat.zero_le k) hlt
    rwa [hget k (by omega), ← List.getElem_take] at hbelow
  have hdrop : (l.drop point).countP below = 0 := by
    rw [List.countP_eq_zero]
    intro a ha
    obtain ⟨k, hk, rfl⟩ := List.mem_iff_getElem.mp ha
    have hlt : point + k < l.length := by
      rw [List.length_drop] at hk
      omega
    have hbelow := hafter (point + k) (Nat.le_add_right _ _) hlt
    rw [hget _ hlt] at hbelow
    rw [List.getElem_drop, hbelow]
    exact Bool.false_ne_true
  calc partitionPoint l below = point := by rw [partitionPoint, ← hpoint]
    _ = (l.take point).countP below + (l.drop point).countP below := by rw [htake, hdrop]; rfl
    _ = l.countP below := by rw [← List.countP_append, List.take_append_drop]
