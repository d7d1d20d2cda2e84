import Mathlib.Data.List.TakeWhile
import Mathlib.Data.List.Range
import Mathlib.Tactic.Common

/-!
# Working in place

Blocks that are written over parts of a buffer: each position shows the last block that
covers it. And a list that is filtered in place: the elements that are kept move to the
front in their order.
-/

namespace InPlace

variable {α : Type*}

/-! ### Blocks over a buffer -/

/-- The buffer after a block was written at a position. -/
def write (buffer : List α) (block : ℕ × List α) : List α :=
  buffer.take block.1 ++ block.2 ++ buffer.drop (block.1 + block.2.length)

/-- The positions that a block covers. -/
def covers (p : ℕ) (block : ℕ × List α) : Bool :=
  block.1 ≤ p && p < block.1 + block.2.length

/-- Writing inside the buffer keeps its length. -/
theorem length_write {buffer : List α} {block : ℕ × List α}
    (h : block.1 + block.2.length ≤ buffer.length) :
    (write buffer block).length = buffer.length := by
  simp only [write, List.length_append, List.length_take, List.length_drop]
  omega

/-- A place has the byte of the block that covers it, or the one of the buffer. -/
theorem getElem?_write {buffer : List α} {block : ℕ × List α}
    (h : block.1 + block.2.length ≤ buffer.length) (p : ℕ) :
    (write buffer block)[p]? =
      if covers p block = true then block.2[p - block.1]? else buffer[p]? := by
  have htake : (buffer.take block.1).length = block.1 := List.length_take_of_le (by omega)
  simp only [write, covers, Bool.and_eq_true, decide_eq_true_eq]
  split
  · rename_i hcovers
    rw [List.getElem?_append_left (by rw [List.length_append, htake]; omega),
      List.getElem?_append_right (by omega), htake]
  · rename_i hcovers
    rcases lt_or_ge p block.1 with hlt | hge
    · rw [List.getElem?_append_left (by rw [List.length_append, htake]; omega),
        List.getElem?_append_left (by omega), List.getElem?_take_of_lt hlt]
    · rw [List.getElem?_append_right (by rw [List.length_append, htake]; omega),
        List.length_append, htake, List.getElem?_drop]
      congr 1
      omega

/-- Writing several blocks keeps the length, too. -/
theorem length_foldl_write {buffer : List α} {blocks : List (ℕ × List α)}
    (h : ∀ block ∈ blocks, block.1 + block.2.length ≤ buffer.length) :
    (blocks.foldl write buffer).length = buffer.length := by
  induction blocks generalizing buffer with
  | nil => rfl
  | cons block blocks ih =>
    obtain ⟨hblock, hblocks⟩ := List.forall_mem_cons.mp h
    have hlength := length_write hblock
    rw [List.foldl_cons, ih fun other hother => hlength ▸ hblocks other hother, hlength]

/-- A position shows the last block that covers it. -/
theorem getElem?_foldl_write {buffer : List α} {blocks : List (ℕ × List α)}
    (h : ∀ block ∈ blocks, block.1 + block.2.length ≤ buffer.length) (p : ℕ) :
    (blocks.foldl write buffer)[p]? =
      match blocks.reverse.find? (covers p) with
      | some block => block.2[p - block.1]?
      | none => buffer[p]? := by
  induction blocks using List.reverseRecOn with
  | nil => rfl
  | append_singleton blocks block ih =>
    have hblocks := fun other hother => h other (List.mem_append_left _ hother)
    have hblock : block.1 + block.2.length ≤ (blocks.foldl write buffer).length :=
      (h block (by simp)).trans_eq (length_foldl_write hblocks).symm
    rw [List.foldl_append, List.foldl_cons, List.foldl_nil, getElem?_write hblock,
      List.reverse_append, List.reverse_singleton, List.singleton_append, List.find?_cons]
    cases covers p block with
    | true => rfl
    | false => exact ih hblocks

/-! ### Filtering -/

/-- The pass of the loop for an element: it is moved behind the elements that are kept, with
a change, or left behind. -/
def compactStep (keep : α → Bool) (f : α → α) (state : List α × ℕ) (i : ℕ) : List α × ℕ :=
  match state.1[i]? with
  | some a => if keep a then (state.1.set state.2 (f a), state.2 + 1) else state
  | none => state

/-- The elements from a position on are filtered. -/
theorem foldl_compactStep (keep : α → Bool) (f : α → α) (start rest : List α) :
    ∃ l, (List.range' start.length rest.length).foldl (compactStep keep f)
        (start ++ rest, start.length) =
          (start ++ (rest.filter keep).map f ++ l,
            (start ++ (rest.filter keep).map f).length) ∧
      l.length = rest.length - (rest.filter keep).length := by
  -- the loop has kept some elements, left a gap, and comes to the others
  have hloop : ∀ (kept gap rest : List α),
      ∃ l, (List.range' (kept.length + gap.length) rest.length).foldl (compactStep keep f)
          (kept ++ gap ++ rest, kept.length) =
            (kept ++ (rest.filter keep).map f ++ l, (kept ++ (rest.filter keep).map f).length) ∧
        l.length = gap.length + rest.length - (rest.filter keep).length := by
    intro kept gap rest
    induction rest generalizing kept gap with
    | nil => exact ⟨gap, by simp⟩
    | cons a rest ih =>
      have hget : (kept ++ gap ++ a :: rest)[kept.length + gap.length]? = some a := by
        rw [List.getElem?_append_right (by rw [List.length_append]), List.length_append]
        simp
      rw [List.length_cons, List.range'_succ, List.foldl_cons, compactStep, hget]
      by_cases hkeep : keep a = true
      · have hset : ∃ gap', (kept ++ gap ++ a :: rest).set kept.length (f a) =
            kept ++ [f a] ++ gap' ++ rest ∧ gap'.length = gap.length := by
          cases gap with
          | nil => exact ⟨[], by simp, rfl⟩
          | cons b gap =>
            refine ⟨gap ++ [a], ?_, by simp⟩
            rw [List.append_assoc, List.set_append_right _ _ le_rfl]
            simp
        obtain ⟨gap', hset, hlength⟩ := hset
        obtain ⟨l, hl, hlast⟩ := ih (kept ++ [f a]) gap'
        have hindex : (kept ++ [f a]).length + gap'.length = kept.length + gap.length + 1 := by
          rw [List.length_append, List.length_singleton]
          omega
        rw [hindex, List.length_append, List.length_singleton] at hl
        simp only [hkeep, if_true, hset, List.filter_cons_of_pos, List.map_cons]
        refine ⟨l, ?_, ?_⟩
        · rw [hl]
          simp
        · rw [hlast, hlength, List.length_cons]
          omega
      · obtain ⟨l, hl, hlast⟩ := ih kept (gap ++ [a])
        have hindex : kept.length + (gap ++ [a]).length = kept.length + gap.length + 1 := by
          rw [List.length_append, List.length_singleton]
          omega
        have hlist : kept ++ (gap ++ [a]) ++ rest = kept ++ gap ++ a :: rest := by simp
        rw [hindex, hlist] at hl
        simp only [hkeep, Bool.false_eq_true, if_false, List.filter_cons_of_neg,
          not_false_eq_true]
        refine ⟨l, hl, ?_⟩
        rw [hlast, List.length_append, List.length_singleton]
        omega
  obtain ⟨l, hl, hlength⟩ := hloop start [] rest
  rw [List.length_nil, Nat.add_zero, List.append_nil] at hl
  exact ⟨l, hl, by simpa using hlength⟩

end InPlace
