import Mathlib.Data.List.Basic
import Mathlib.Data.Nat.ModEq
import Mathlib.Tactic.Common

/-!
# Rings of recent items

A ring of fixed size is written at the number of the item modulo its size. As long as it has
not been written over, an item is found at its number; a cell whose number has not come yet
holds what it held at first.
-/

variable {α : Type*}

/-- Write items to a ring, the first of them as the item with the number `index`. -/
def writeRing (ring : List α) (index : ℕ) : List α → List α
  | [] => ring
  | item :: items => writeRing (ring.set (index % ring.length) item) (index + 1) items

/-- The ring keeps its size. -/
@[simp] theorem length_writeRing (ring : List α) (index : ℕ) (items : List α) :
    (writeRing ring index items).length = ring.length := by
  induction items generalizing ring index with
  | nil => rfl
  | cons item items ih => rw [writeRing, ih, List.length_set]

/-- A cell that is not written keeps its item. -/
theorem getElem?_writeRing_of_ne (ring : List α) (index : ℕ) (items : List α) {p : ℕ}
    (h : ∀ t, index ≤ t → t < index + items.length → t % ring.length ≠ p) :
    (writeRing ring index items)[p]? = ring[p]? := by
  induction items generalizing ring index with
  | nil => rfl
  | cons item items ih =>
    rw [List.length_cons] at h
    rw [writeRing, ih, List.getElem?_set_ne (h index le_rfl (by omega))]
    intro t hle hlt
    rw [List.length_set]
    exact h t (by omega) (by omega)

/-- Numbers that are less than the size apart have different cells. -/
theorem mod_ne_of_lt {size s t : ℕ} (hlt : s < t) (h : t < s + size) : s % size ≠ t % size := by
  intro heq
  have hdvd : size ∣ t - s := (Nat.modEq_iff_dvd' hlt.le).mp heq
  have hle := Nat.le_of_dvd (by omega) hdvd
  omega

/-- An item that has not been written over is found at its number. -/
theorem getElem?_writeRing (ring : List α) (index : ℕ) (items : List α) {t : ℕ}
    (hle : index ≤ t) (hlt : t < index + items.length)
    (hrecent : index + items.length ≤ t + ring.length) :
    (writeRing ring index items)[t % ring.length]? = items[t - index]? := by
  induction items generalizing ring index with
  | nil =>
    rw [List.length_nil] at hlt
    omega
  | cons item items ih =>
    rw [List.length_cons] at hlt hrecent
    rw [writeRing]
    rcases Nat.eq_or_lt_of_le hle with rfl | hnext
    · have hmod : index % ring.length < ring.length := Nat.mod_lt index (by omega)
      rw [getElem?_writeRing_of_ne, List.getElem?_set_self hmod, Nat.sub_self,
        List.getElem?_cons_zero]
      intro s hs hs'
      rw [List.length_set]
      exact (mod_ne_of_lt (by omega) (by omega)).symm
    · obtain ⟨d, hd⟩ : ∃ d, t - index = d + 1 := ⟨t - index - 1, by omega⟩
      have hcell := ih (ring.set (index % ring.length) item) (index + 1) (by omega) (by omega)
        (by rw [List.length_set]; omega)
      rw [List.length_set] at hcell
      rw [hcell, hd, List.getElem?_cons_succ]
      congr 1
      omega
