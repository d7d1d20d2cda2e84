import Mathlib.Data.List.Induction
import Mathlib.Data.List.Sort
import Mathlib.Order.MinMax

/-!
# The best of a sequence, kept in a heap

A binary heap holds its least element in front. A heap of bounded size drops its
least element when a larger one is offered, so after any sequence of offers it
holds a best selection of what was offered.
-/

namespace Heap

open scoped List

variable {α β κ : Type*} [LinearOrder κ] {key : α → κ}

/-- No element is below its parent. -/
def IsHeap (key : α → κ) (l : List α) : Prop :=
  ∀ (i : ℕ) (a b : α), 0 < i → l[(i - 1) / 2]? = some a → l[i]? = some b → key a ≤ key b

/-- What a library promises of its two heap operations: to make a heap again after
an element was put behind it, and to move the front of a heap behind the others. -/
structure Operations (key : α → κ) where
  pushHeap : List α → List α
  popHeap : List α → List α
  push_perm : ∀ l a, IsHeap key l → (pushHeap (l ++ [a])).Perm (l ++ [a])
  push_isHeap : ∀ l a, IsHeap key l → IsHeap key (pushHeap (l ++ [a]))
  pop_eq : ∀ a l, IsHeap key (a :: l) →
    ∃ rest, popHeap (a :: l) = rest ++ [a] ∧ rest.Perm l ∧ IsHeap key rest

/-- Offer an element to a heap that holds at most `size` of them. -/
def offer (ops : Operations key) (size : ℕ) (heap : List α) (a : α) : List α :=
  if heap.length = size then
    match heap with
    | [] => []
    | least :: _ =>
      if key a ≤ key least then heap else ops.pushHeap ((ops.popHeap heap).dropLast ++ [a])
  else ops.pushHeap (heap ++ [a])

/-- As many elements of `offered` as `size` allows, and none better is left out. -/
structure IsBest (key : α → κ) (size : ℕ) (offered kept : List α) : Prop where
  length_eq : kept.length = min size offered.length
  exists_dropped : ∃ dropped, offered.Perm (kept ++ dropped) ∧
    ∀ d ∈ dropped, ∀ a ∈ kept, key d ≤ key a

/-- The empty heap. -/
theorem IsHeap.nil : IsHeap key ([] : List α) := by
  intro i a b hi ha
  simp at ha

/-- A sorted list is a heap. -/
theorem IsHeap.of_sorted {l : List α} (h : l.Pairwise fun a b => key a ≤ key b) :
    IsHeap key l := by
  intro i a b hi ha hb
  obtain ⟨hp, rfl⟩ := List.getElem?_eq_some_iff.mp ha
  obtain ⟨hi', rfl⟩ := List.getElem?_eq_some_iff.mp hb
  exact List.pairwise_iff_getElem.mp h _ _ hp hi' (by omega)

/-- The front of a heap is least, by induction on the position: the way up ends there. -/
theorem IsHeap.front_le {a : α} {l : List α} (h : IsHeap key (a :: l)) :
    ∀ b ∈ l, key a ≤ key b := by
  have hall : ∀ (i : ℕ) (b : α), (a :: l)[i]? = some b → key a ≤ key b := by
    intro i
    induction i using Nat.strong_induction_on with
    | h i ih =>
      intro b hb
      rcases Nat.eq_zero_or_pos i with rfl | hi
      · obtain rfl := Option.some.inj hb
        exact le_rfl
      · have hlt := (List.getElem?_eq_some_iff.mp hb).1
        have hparent := List.getElem?_eq_getElem (show (i - 1) / 2 < (a :: l).length by omega)
        exact (ih _ (by omega) _ hparent).trans (h i _ b hi hparent hb)
  intro b hb
  obtain ⟨i, hi⟩ := List.mem_iff_getElem?.mp (List.mem_cons_of_mem a hb)
  exact hall i b hi

/-! ### Offers -/

/-- Of no items, none are the best ones. -/
theorem IsBest.nil (size : ℕ) : IsBest key size ([] : List α) [] where
  length_eq := by simp
  exists_dropped := ⟨[], by simp⟩

/-- The last item can stand before the dropped ones. -/
private theorem perm_last_first {kept dropped : List α} {a : α} :
    ((kept ++ dropped) ++ [a]).Perm ((kept ++ [a]) ++ dropped) := by
  rw [List.append_assoc, List.append_assoc]
  exact List.Perm.append_left kept List.perm_append_comm

/-- An offer keeps the selection best, and the heap a heap. -/
theorem IsBest.offer {ops : Operations key} {size : ℕ} {offered heap : List α}
    (h : IsBest key size offered heap) (hheap : IsHeap key heap) (hsize : 0 < size) (a : α) :
    IsBest key size (offered ++ [a]) (Heap.offer ops size heap a) ∧
      IsHeap key (Heap.offer ops size heap a) := by
  obtain ⟨hlength, dropped, hperm, hdropped⟩ := h
  have hoffered : offered.length = heap.length + dropped.length := by
    rw [hperm.length_eq, List.length_append]
  unfold Heap.offer
  by_cases hfull : heap.length = size
  · rw [if_pos hfull]
    cases heap with
    | nil => exact absurd hfull (by simp; omega)
    | cons least rest =>
      have hfront := hheap.front_le
      simp only [List.length_cons] at hlength hfull hoffered
      dsimp only
      by_cases hle : key a ≤ key least
      · rw [if_pos hle]
        refine ⟨⟨?_, dropped ++ [a], ?_, ?_⟩, hheap⟩
        · rw [List.length_append, List.length_cons, List.length_singleton]
          omega
        · rw [← List.append_assoc]
          exact hperm.append_right [a]
        · intro d hd b hb
          rcases List.mem_append.mp hd with hd | hd
          · exact hdropped d hd b hb
          · obtain rfl := List.mem_singleton.mp hd
            rcases List.mem_cons.mp hb with rfl | hb
            · exact hle
            · exact hle.trans (hfront b hb)
      · obtain ⟨rest', hpop, hrest, hheap'⟩ := ops.pop_eq least rest hheap
        have hpush := ops.push_perm rest' a hheap'
        rw [if_neg hle, hpop, List.dropLast_concat]
        refine ⟨⟨?_, least :: dropped, ?_, ?_⟩, ops.push_isHeap rest' a hheap'⟩
        · rw [hpush.length_eq, List.length_append, List.length_append, hrest.length_eq,
            List.length_singleton]
          omega
        · calc offered ++ [a]
            _ ~ ((least :: rest) ++ dropped) ++ [a] := hperm.append_right [a]
            _ ~ ((least :: rest') ++ dropped) ++ [a] :=
              (((hrest.symm.cons least).append_right dropped).append_right [a])
            _ ~ ((least :: rest') ++ [a]) ++ dropped := perm_last_first
            _ ~ (rest' ++ [a]) ++ least :: dropped := List.perm_middle.symm
            _ ~ ops.pushHeap (rest' ++ [a]) ++ least :: dropped := hpush.symm.append_right _
        · intro d hd b hb
          rcases List.mem_append.mp (hpush.mem_iff.mp hb) with hb | hb
          · have hb' := hrest.mem_iff.mp hb
            rcases List.mem_cons.mp hd with rfl | hd
            · exact hfront b hb'
            · exact hdropped d hd b (List.mem_cons_of_mem least hb')
          · obtain rfl := List.mem_singleton.mp hb
            rcases List.mem_cons.mp hd with rfl | hd
            · exact (not_le.mp hle).le
            · exact (hdropped d hd least List.mem_cons_self).trans (not_le.mp hle).le
  · rw [if_neg hfull]
    have hpush := ops.push_perm heap a hheap
    obtain rfl : dropped = [] := List.eq_nil_of_length_eq_zero (by omega)
    refine ⟨⟨?_, [], ?_, by simp⟩, ops.push_isHeap heap a hheap⟩
    · rw [hpush.length_eq, List.length_append, List.length_append, List.length_singleton]
      omega
    · rw [List.append_nil] at hperm ⊢
      exact (hperm.append_right [a]).trans hpush.symm

/-- After all offers the heap holds a best selection. -/
theorem isBest_foldl_offer {ops : Operations key} {size : ℕ} (hsize : 0 < size)
    (offered : List α) :
    IsBest key size offered (offered.foldl (Heap.offer ops size) []) ∧
      IsHeap key (offered.foldl (Heap.offer ops size) []) := by
  induction offered using List.reverseRecOn with
  | nil => exact ⟨.nil size, .nil⟩
  | append_singleton offered a ih =>
    rw [List.foldl_append]
    exact ih.1.offer ih.2 hsize a

/-! ### Selections -/

/-- What is kept was offered. -/
theorem IsBest.subset {size : ℕ} {offered kept : List α} (h : IsBest key size offered kept) :
    kept ⊆ offered := by
  obtain ⟨_, dropped, hperm, _⟩ := h
  intro a ha
  exact hperm.mem_iff.mpr (List.mem_append_left dropped ha)

/-- Nothing is left out by a map that has a value everywhere. -/
private theorem length_filterMap_of_some {f : α → Option β} {l : List α}
    (h : ∀ a ∈ l, ∃ b, f a = some b) : (l.filterMap f).length = l.length := by
  induction l with
  | nil => rfl
  | cons a l ih =>
    obtain ⟨b, hb⟩ := h a List.mem_cons_self
    rw [List.filterMap_cons_some hb, List.length_cons, List.length_cons,
      ih fun c hc => h c (List.mem_cons_of_mem a hc)]

/-- A map that keeps the keys takes a best selection to a best selection. -/
theorem IsBest.filterMap {key' : β → κ} {size : ℕ} {offered kept : List α} {f : α → Option β}
    (h : IsBest key size offered kept)
    (hf : ∀ a ∈ offered, ∃ b, f a = some b ∧ key' b = key a) :
    IsBest key' size (offered.filterMap f) (kept.filterMap f) := by
  have hkept := h.subset
  obtain ⟨hlength, dropped, hperm, hdropped⟩ := h
  have hsome : ∀ a ∈ offered, ∃ b, f a = some b := fun a ha => (hf a ha).imp fun _ hb => hb.1
  have hkey : ∀ a ∈ offered, ∀ b, f a = some b → key' b = key a := by
    intro a ha b hb
    obtain ⟨c, hc, hkey⟩ := hf a ha
    rw [← hkey, Option.some.inj (hb.symm.trans hc)]
  refine ⟨?_, dropped.filterMap f, ?_, ?_⟩
  · rw [length_filterMap_of_some hsome, length_filterMap_of_some fun a ha => hsome a (hkept ha),
      hlength]
  · rw [← List.filterMap_append]
    exact hperm.filterMap f
  · intro d' hd a' ha
    obtain ⟨d, hd, hd'⟩ := List.mem_filterMap.mp hd
    obtain ⟨a, ha, ha'⟩ := List.mem_filterMap.mp ha
    rw [hkey d (hperm.mem_iff.mpr (List.mem_append_right kept hd)) d' hd', hkey a (hkept ha) a' ha']
    exact hdropped d hd a ha

/-- Something is kept of something. -/
theorem IsBest.ne_nil {size : ℕ} {offered kept : List α} (h : IsBest key size offered kept)
    (hsize : 0 < size) (hoffered : offered ≠ []) : kept ≠ [] := by
  rintro rfl
  have hlength := h.length_eq
  have hpos := List.length_pos_iff.mpr hoffered
  rw [List.length_nil] at hlength
  omega

/-! ### Heaps that are sorted -/

/-- A sorted list is a heap. -/
private theorem insertionSort_isHeap (l : List α) :
    IsHeap key (l.insertionSort fun a b => key a ≤ key b) :=
  haveI : IsTrans α (fun a b => key a ≤ key b) := ⟨fun _ _ _ => le_trans⟩
  haveI : Std.Total (fun a b : α => key a ≤ key b) := ⟨fun a b => le_total (key a) (key b)⟩
  .of_sorted (List.pairwise_insertionSort _ l)

/-- The operations that keep the heap sorted. -/
def sorting (key : α → κ) : Operations key where
  pushHeap l := l.insertionSort fun a b => key a ≤ key b
  popHeap
    | [] => []
    | a :: l => l.insertionSort (fun a b => key a ≤ key b) ++ [a]
  push_perm _ _ _ := List.perm_insertionSort _ _
  push_isHeap _ _ _ := insertionSort_isHeap _
  pop_eq _ l _ := ⟨_, rfl, List.perm_insertionSort _ l, insertionSort_isHeap l⟩

end Heap
