import Mathlib.Algebra.BigOperators.Group.List.Basic
import Mathlib.Order.Nat
import Mathlib.Tactic.Common

/-!
# Adding into a vector

A loop adds amounts to the cells of a vector, one after another. In the end every cell has
what it had before and the sum of the amounts that were added to it, so the order of the
additions does not matter, and neither does whether amounts are added up elsewhere before.
-/

variable {α R : Type*} [AddCommMonoid R]

/-- Add amounts to the cells with the given indices. -/
def addAll (cells : List R) (updates : List (ℕ × R)) : List R :=
  updates.foldl (fun cells update => cells.modify update.1 (· + update.2)) cells

/-- What is added to a cell. -/
def amountAt (updates : List (ℕ × R)) (i : ℕ) : R :=
  (updates.map fun update => if update.1 = i then update.2 else 0).sum

/-- Additions keep the number of cells. -/
@[simp] theorem length_addAll (cells : List R) (updates : List (ℕ × R)) :
    (addAll cells updates).length = cells.length := by
  induction updates generalizing cells with
  | nil => rfl
  | cons update updates ih =>
    rw [addAll, List.foldl_cons]
    exact (ih _).trans (List.length_modify _ _ _)

/-- No update adds nothing. -/
@[simp] theorem amountAt_nil (i : ℕ) : amountAt ([] : List (ℕ × R)) i = 0 := rfl

/-- The first update adds its amount if it is for the cell. -/
theorem amountAt_cons (update : ℕ × R) (updates : List (ℕ × R)) (i : ℕ) :
    amountAt (update :: updates) i =
      (if update.1 = i then update.2 else 0) + amountAt updates i := by
  simp [amountAt]

/-- Amounts of two lists of updates are added. -/
theorem amountAt_append (updates updates' : List (ℕ × R)) (i : ℕ) :
    amountAt (updates ++ updates') i = amountAt updates i + amountAt updates' i := by
  simp [amountAt]

/-- The updates of a loop add the sums of its passes. -/
theorem amountAt_flatMap (l : List α) (f : α → List (ℕ × R)) (i : ℕ) :
    amountAt (l.flatMap f) i = (l.map fun a => amountAt (f a) i).sum := by
  induction l with
  | nil => rfl
  | cons a l ih => rw [List.flatMap_cons, amountAt_append, ih, List.map_cons, List.sum_cons]

/-- A cell gets what is added to it. -/
theorem getElem?_addAll (cells : List R) (updates : List (ℕ × R)) (i : ℕ) :
    (addAll cells updates)[i]? = cells[i]?.map (· + amountAt updates i) := by
  induction updates generalizing cells with
  | nil => simp [addAll]
  | cons update updates ih =>
    have hstep : addAll cells (update :: updates) =
        addAll (cells.modify update.1 (· + update.2)) updates := rfl
    rw [hstep, ih, List.getElem?_modify, amountAt_cons]
    cases cells[i]? with
    | none => rfl
    | some a => by_cases hi : update.1 = i <;> simp [hi, add_assoc]

/-- Updates that add the same amounts have the same effect. -/
theorem addAll_congr {cells : List R} {updates updates' : List (ℕ × R)}
    (h : ∀ i < cells.length, amountAt updates i = amountAt updates' i) :
    addAll cells updates = addAll cells updates' := by
  refine List.ext_getElem? fun i => ?_
  rw [getElem?_addAll, getElem?_addAll]
  rcases lt_or_ge i cells.length with hi | hi
  · rw [h i hi]
  · rw [List.getElem?_eq_none hi]
    rfl

/-- Updates of other cells add nothing. -/
theorem amountAt_eq_zero {updates : List (ℕ × R)} {i : ℕ} (h : ∀ update ∈ updates, update.1 ≠ i) :
    amountAt updates i = 0 := by
  induction updates with
  | nil => rfl
  | cons update updates ih =>
    obtain ⟨hne, h⟩ := List.forall_mem_cons.mp h
    rw [amountAt_cons, if_neg hne, ih h, add_zero]

/-- One amount for each cell of a block. -/
theorem amountAt_block (first size : ℕ) (f : ℕ → R) {k : ℕ} (hk : k < size) :
    amountAt ((List.range size).map fun k => (first + k, f k)) (first + k) = f k := by
  induction size with
  | zero => omega
  | succ size ih =>
    rw [List.range_succ, List.map_append, List.map_singleton, amountAt_append, amountAt_cons,
      amountAt_nil, add_zero]
    rcases Nat.lt_succ_iff_lt_or_eq.mp hk with hk | rfl
    · rw [ih hk, if_neg (by omega), add_zero]
    · have hzero : amountAt ((List.range k).map fun j => (first + j, f j)) (first + k) = 0 := by
        refine amountAt_eq_zero fun update hupdate => ?_
        obtain ⟨j, hj, rfl⟩ := List.mem_map.mp hupdate
        have hlt := List.mem_range.mp hj
        omega
      rw [hzero, if_pos rfl, zero_add]

/-- Of a list of updates for the numbers below a bound, only those for one number count. -/
theorem amountAt_flatMap_range {size s : ℕ} (hs : s < size) (f : ℕ → List (ℕ × R)) {i : ℕ}
    (h : ∀ k < size, k ≠ s → ∀ update ∈ f k, update.1 ≠ i) :
    amountAt ((List.range size).flatMap f) i = amountAt (f s) i := by
  induction size with
  | zero => omega
  | succ size ih =>
    rw [List.range_succ, List.flatMap_append, amountAt_append, List.flatMap_singleton]
    rcases Nat.lt_succ_iff_lt_or_eq.mp hs with hs | rfl
    · rw [ih hs fun k hk => h k (by omega),
        amountAt_eq_zero (h size (Nat.lt_succ_self size) (by omega)), add_zero]
    · have hzero : amountAt ((List.range s).flatMap f) i = 0 := by
        refine amountAt_eq_zero fun update hupdate => ?_
        obtain ⟨k, hk, hupdate⟩ := List.mem_flatMap.mp hupdate
        have hlt := List.mem_range.mp hk
        exact h k (by omega) (by omega) update hupdate
      rw [hzero, zero_add]
