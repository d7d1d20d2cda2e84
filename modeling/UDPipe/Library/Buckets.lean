import Mathlib.Algebra.BigOperators.Group.List.Basic
import Mathlib.Data.List.Induction
import Mathlib.Data.List.GetD
import Mathlib.Tactic.Common

/-!
# Buckets filled in two passes

Items with an index and a record are put into one array, ordered by index. The first
pass counts the cells of each index, the counts become starts of buckets, and the second
pass writes each record at the start of its bucket and moves the start behind it. In the
end the starts have become ends, and shifting them by one gives the starts again.
-/

namespace Buckets

variable {α β : Type*} (index : α → ℕ) (record : α → List β)

/-- The records of the items with an index. -/
def bucket (items : List α) (i : ℕ) : List β :=
  (items.filter fun a => index a = i).flatMap record

/-- Where the bucket of an index starts. -/
def start (items : List α) (i : ℕ) : ℕ := ((List.range i).flatMap (bucket index record items)).length

/-- The first pass, for one item. -/
def count (counts : List ℕ) (a : α) : List ℕ := counts.modify (index a) (· + (record a).length)

/-- The sums of the counts before. -/
def sums (total : ℕ) : List ℕ → List ℕ
  | [] => []
  | c :: counts => total :: sums (total + c) counts

/-- Overwrite the cells from `pos` on. -/
def write (data : List β) (pos : ℕ) (cells : List β) : List β :=
  data.take pos ++ cells ++ data.drop (pos + cells.length)

/-- The second pass, for one item. -/
def fill (state : List ℕ × List β) (a : α) : List ℕ × List β :=
  (state.1.modify (index a) (· + (record a).length),
    write state.2 (state.1.getD (index a) 0) (record a))

variable {index record}

/-- More items come behind the others in their bucket. -/
theorem bucket_append (items more : List α) (i : ℕ) :
    bucket index record (items ++ more) i =
      bucket index record items i ++ bucket index record more i := by
  simp [bucket]

/-- The bucket of one item. -/
theorem bucket_singleton (a : α) (i : ℕ) :
    bucket index record [a] i = if index a = i then record a else [] := by
  by_cases h : index a = i <;> simp [bucket, h]

/-- The first item comes first in its bucket. -/
theorem bucket_cons (a : α) (items : List α) (i : ℕ) :
    bucket index record (a :: items) i =
      (if index a = i then record a else []) ++ bucket index record items i := by
  rw [← bucket_singleton, ← bucket_append, List.singleton_append]

/-- A bucket starts where the one before it ends. -/
theorem start_succ (items : List α) (i : ℕ) :
    start index record items (i + 1) =
      start index record items i + (bucket index record items i).length := by
  simp [start, List.range_succ]

/-- Grouped by index, the items are the same. -/
theorem flatMap_filter_perm (items : List α) (n : ℕ) :
    ((List.range n).flatMap fun i => items.filter fun a => index a = i).Perm
      (items.filter fun a => index a < n) := by
  induction n with
  | zero => simp
  | succ n ih =>
    have hsplit := List.filter_append_perm (fun a => decide (index a < n))
      (items.filter fun a => index a < n + 1)
    have hlow : ((items.filter fun a => index a < n + 1).filter fun a => index a < n) =
        items.filter fun a => index a < n := by
      rw [List.filter_filter]
      apply List.filter_congr
      intro a _
      rw [← Bool.decide_and, decide_eq_decide]
      omega
    have hhigh : ((items.filter fun a => index a < n + 1).filter fun a => !decide (index a < n)) =
        items.filter fun a => index a = n := by
      rw [List.filter_filter]
      apply List.filter_congr
      intro a _
      rw [← decide_not, ← Bool.decide_and, decide_eq_decide]
      omega
    rw [hlow, hhigh] at hsplit
    rw [List.range_succ, List.flatMap_append, List.flatMap_singleton]
    exact (ih.append_right _).trans hsplit

/-- Updates of several tables are, for each table, its own updates. -/
theorem foldl_modify {γ : Type*} (f : α → γ → γ) (items : List α) (tables : List γ) (k : ℕ) :
    (items.foldl (fun tables a => tables.modify (index a) (f a)) tables)[k]? =
      tables[k]?.map fun t => (items.filter fun a => index a = k).foldl (fun t a => f a t) t := by
  induction items generalizing tables with
  | nil => simp
  | cons a items ih =>
    rw [List.foldl_cons, ih, List.getElem?_modify]
    by_cases h : index a = k
    · simp [h, Function.comp_def]
    · simp [h]

/-! ### The first pass -/

/-- Counting the items adds the size of their bucket to its counter. -/
theorem foldl_count (items : List α) (counts : List ℕ) (i : ℕ) :
    (items.foldl (count index record) counts)[i]? =
      counts[i]?.map (· + (bucket index record items i).length) := by
  induction items generalizing counts with
  | nil => simp [bucket]
  | cons a items ih =>
    rw [List.foldl_cons, ih, count, List.getElem?_modify, bucket_cons]
    by_cases h : index a = i
    · simp [h, Function.comp_def, Nat.add_assoc]
    · simp [h]

/-- The counts are the sizes of the buckets. -/
theorem foldl_count_replicate (items : List α) (n : ℕ) :
    items.foldl (count index record) (List.replicate n 0) =
      (List.range n).map fun i => (bucket index record items i).length := by
  apply List.ext_getElem?
  intro i
  rw [foldl_count]
  by_cases h : i < n
  · simp [h]
  · simp [h]

/-- The sums are the starts of the buckets. -/
theorem sums_eq (items : List α) (n : ℕ) :
    sums 0 ((List.range n).map fun i => (bucket index record items i).length) =
      (List.range n).map (start index record items) := by
  suffices h : ∀ m, sums (start index record items m) ((List.range n).map fun i =>
      (bucket index record items (m + i)).length) =
        (List.range n).map fun i => start index record items (m + i) by
    have hzero : start index record items 0 = 0 := rfl
    simpa only [hzero, Nat.zero_add] using h 0
  induction n with
  | zero => exact fun _ => rfl
  | succ n ih =>
    intro m
    have ih' := ih (m + 1)
    simp only [start_succ, Nat.add_assoc, Nat.add_comm 1] at ih'
    rw [List.range_succ_eq_map, List.map_cons, List.map_map, List.map_cons, List.map_map, sums]
    simp only [Nat.add_zero, Function.comp_def]
    rw [ih']

/-! ### The second pass -/

/-- The state of the second pass after some of the items. -/
structure Filling (index : α → ℕ) (record : α → List β) (n : ℕ) (all done : List α)
    (state : List ℕ × List β) : Prop where
  positions : state.1 = (List.range n).map fun i =>
    start index record all i + (bucket index record done i).length
  data : ∃ gap : ℕ → List β,
    (∀ i, (bucket index record done i).length + (gap i).length =
      (bucket index record all i).length) ∧
    state.2 = (List.range n).flatMap fun i => bucket index record done i ++ gap i

/-- At the beginning the positions are the starts, and nothing is filled. -/
theorem filling_init (n : ℕ) (all : List α) (b : β) :
    Filling index record n all [] ((List.range n).map (start index record all),
      List.replicate (start index record all n) b) where
  positions := by simp [bucket]
  data := by
    refine ⟨fun i => List.replicate (bucket index record all i).length b, by simp [bucket], ?_⟩
    induction n with
    | zero => rfl
    | succ n ih =>
      simp only at ih ⊢
      rw [start_succ, List.replicate_add, List.range_succ, List.flatMap_append, ih]
      simp [bucket]

/-- The cells before, in and after a bucket. -/
theorem flatMap_range_split {n k : ℕ} (hk : k < n) (f : ℕ → List β) :
    (List.range n).flatMap f = (List.range k).flatMap f ++ f k ++
      (List.range (n - (k + 1))).flatMap fun i => f (k + 1 + i) := by
  have hn : n = k + 1 + (n - (k + 1)) := by omega
  conv_lhs => rw [hn, List.range_add, List.range_succ]
  simp [List.flatMap_map]

/-- Writing replaces as many cells as are written. -/
theorem write_append (pre old post cells : List β) (hlength : old.length = cells.length) :
    write (pre ++ old ++ post) pre.length cells = pre ++ cells ++ post := by
  simp [write, ← hlength]

/-- A record goes right behind the records of its bucket. -/
theorem Filling.step {n : ℕ} {all done rest : List α} {a : α} {state : List ℕ × List β}
    (h : Filling index record n all done state) (hall : all = done ++ a :: rest)
    (ha : index a < n) :
    Filling index record n all (done ++ [a]) (fill index record state a) where
  positions := by
    rw [fill, h.positions]
    apply List.ext_getElem?
    intro i
    rw [List.getElem?_modify, List.getElem?_map, List.getElem?_map]
    by_cases hn : i < n
    · by_cases hi : index a = i
      · simp [hn, hi, Nat.add_assoc, bucket_append, bucket_singleton]
      · simp [hn, hi, bucket_append, bucket_singleton]
    · simp [hn]
  data := by
    obtain ⟨gap, hgap, hdata⟩ := h.data
    obtain ⟨k, hk⟩ : ∃ k, k = index a := ⟨_, rfl⟩
    have hbucket : ∀ i, bucket index record (done ++ [a]) i =
        bucket index record done i ++ if i = k then record a else [] := by
      intro i
      simp only [bucket_append, bucket_singleton, hk, eq_comm]
    have hfits : (record a).length ≤ (gap k).length := by
      have hgapk := hgap k
      rw [hall, bucket_append, bucket_cons, if_pos hk.symm] at hgapk
      simp only [List.length_append] at hgapk
      omega
    refine ⟨fun i => if i = k then (gap k).drop (record a).length else gap i, fun i => ?_, ?_⟩
    · rw [hbucket, ← hgap i]
      by_cases hi : i = k
      · simp [hi]
        omega
      · simp [hi]
    · have hposition : state.1.getD (index a) 0 = ((List.range k).flatMap fun i =>
          bucket index record done i ++ gap i).length + (bucket index record done k).length := by
        have hstart : start index record all k = ((List.range k).flatMap fun i =>
            bucket index record done i ++ gap i).length := by
          simp [start, List.length_flatMap, hgap]
        rw [h.positions, ← hk, List.getD_eq_getElem?_getD, List.getElem?_map, ← hstart]
        simp [hk, ha]
      have hbefore : ∀ (m : ℕ) (j : ℕ → ℕ), (∀ i < m, j i ≠ k) →
          ((List.range m).flatMap fun i => bucket index record (done ++ [a]) (j i) ++
            if j i = k then (gap k).drop (record a).length else gap (j i)) =
          (List.range m).flatMap fun i => bucket index record done (j i) ++ gap (j i) := by
        intro m j hj
        apply List.flatMap_congr
        intro i hi
        rw [hbucket, if_neg (hj i (List.mem_range.mp hi)), if_neg (hj i (List.mem_range.mp hi)),
          List.append_nil]
      have hkn : k < n := hk ▸ ha
      rw [fill, hposition, hdata, flatMap_range_split hkn, flatMap_range_split hkn,
        hbefore k (fun i => i) (fun i hi => by omega),
        hbefore _ (fun i => k + 1 + i) (fun i hi => by omega), hbucket, if_pos rfl]
      beta_reduce
      rw [if_pos rfl]
      have hwrite := write_append (((List.range k).flatMap fun i =>
          bucket index record done i ++ gap i) ++ bucket index record done k)
        ((gap k).take (record a).length) ((gap k).drop (record a).length ++
          (List.range (n - (k + 1))).flatMap fun i =>
            bucket index record done (k + 1 + i) ++ gap (k + 1 + i)) (record a) (by simp [hfits])
      simp only [List.length_append, List.append_assoc] at hwrite ⊢
      rw [← hwrite]
      congr 3
      rw [← List.append_assoc ((gap k).take _), List.take_append_drop]

/-- The second pass over all items. -/
theorem Filling.run {n : ℕ} {all : List α} (hindex : ∀ a ∈ all, index a < n) (b : β) :
    Filling index record n all all (all.foldl (fill index record)
      ((List.range n).map (start index record all),
        List.replicate (start index record all n) b)) := by
  suffices h : ∀ rest done state, all = done ++ rest → Filling index record n all done state →
      Filling index record n all all (rest.foldl (fill index record) state) from
    h all [] _ rfl (filling_init n all b)
  intro rest
  induction rest with
  | nil =>
    intro done state hall hfilling
    rw [List.append_nil] at hall
    rw [List.foldl_nil]
    rwa [← hall] at hfilling
  | cons a rest ih =>
    intro done state hall hfilling
    have ha : index a < n := hindex a (by simp [hall])
    exact ih (done ++ [a]) _ (by simp [hall]) (hfilling.step hall ha)

/-- The second pass over the first items. -/
theorem filling_foldl {n : ℕ} {all done rest : List α} (hall : all = done ++ rest)
    (hindex : ∀ a ∈ all, index a < n) (b : β) :
    Filling index record n all done (done.foldl (fill index record)
      ((List.range n).map (start index record all),
        List.replicate (start index record all n) b)) := by
  induction done using List.reverseRecOn generalizing rest with
  | nil => exact filling_init n all b
  | append_singleton done a ih =>
    rw [List.append_assoc, List.singleton_append] at hall
    rw [List.foldl_append]
    exact (ih hall).step hall (hindex a (by simp [hall]))

/-- In the end the array is the concatenation of the buckets. -/
theorem Filling.data_eq {n : ℕ} {all : List α} {state : List ℕ × List β}
    (h : Filling index record n all all state) :
    state.2 = (List.range n).flatMap (bucket index record all) := by
  obtain ⟨gap, hgap, hdata⟩ := h.data
  rw [hdata]
  apply List.flatMap_congr
  intro i _
  have hnil : gap i = [] := List.length_eq_zero_iff.mp (by have := hgap i; omega)
  rw [hnil, List.append_nil]

/-- Shifted by one, the ends are the starts. -/
theorem Filling.shift {n : ℕ} {all : List α} {state : List ℕ × List β}
    (h : Filling index record n all all state) :
    (0 :: state.1).dropLast = (List.range n).map (start index record all) := by
  have hends : state.1 = (List.range n).map fun i => start index record all (i + 1) := by
    rw [h.positions]
    simp only [start_succ]
  cases n with
  | zero => simp [hends]
  | succ n =>
    rw [hends, List.range_succ, List.map_append, List.map_singleton, ← List.cons_append,
      List.dropLast_concat, ← List.range_succ, List.range_succ_eq_map]
    simp [Function.comp_def, start]

/-- The array from the start of a bucket on. -/
theorem drop_start {n : ℕ} (items : List α) {k : ℕ} (hk : k < n) :
    ((List.range n).flatMap (bucket index record items)).drop (start index record items k) =
      bucket index record items k ++
        (List.range (n - (k + 1))).flatMap fun i => bucket index record items (k + 1 + i) := by
  rw [flatMap_range_split hk, List.append_assoc, start, List.drop_left]

end Buckets
