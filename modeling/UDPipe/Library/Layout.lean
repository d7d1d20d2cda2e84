import UDPipe.Library.Buckets

/-!
# Records laid out one after another

A record is a key followed by an entry. Where a record begins depends on the lengths of the
records before it only, so it stays where it is when entries are overwritten in place.
-/

namespace Layout

variable {β : Type*} [DecidableEq β]

/-- What is laid out. -/
def flat (items : List (List β × List β)) : List β := items.flatMap fun e => e.1 ++ e.2

/-- Where the record of a key begins. -/
def offset (items : List (List β × List β)) (key : List β) : ℕ :=
  (flat (items.takeWhile fun e => e.1 ≠ key)).length

/-- Overwrite a part of the entry of a key. -/
def overwrite (key : List β) (pos : ℕ) (cells : List β) (e : List β × List β) : List β × List β :=
  if e.1 = key then (e.1, Buckets.write e.2 pos cells) else e

omit [DecidableEq β] in
/-- Items one after the other. -/
theorem flat_append (items more : List (List β × List β)) :
    flat (items ++ more) = flat items ++ flat more := by
  simp [flat]

omit [DecidableEq β] in
/-- The first item, and the other ones. -/
theorem flat_cons (e : List β × List β) (items : List (List β × List β)) :
    flat (e :: items) = e.1 ++ (e.2 ++ flat items) := by
  simp [flat]

variable {items more : List (List β × List β)} {key entry : List β}

/-- The record of a key, between the records before it and those behind it. -/
theorem exists_split (hmem : (key, entry) ∈ items) (hkeys : (items.map Prod.fst).Nodup) :
    ∃ before after, items = before ++ (key, entry) :: after ∧ (∀ e ∈ before, e.1 ≠ key) ∧
      (∀ e ∈ after, e.1 ≠ key) ∧ offset items key = (flat before).length := by
  obtain ⟨before, after, rfl⟩ := List.append_of_mem hmem
  rw [List.map_append, List.map_cons, List.nodup_append, List.nodup_cons] at hkeys
  obtain ⟨-, ⟨hafter, -⟩, hbefore⟩ := hkeys
  have hne : ∀ e ∈ before, e.1 ≠ key := fun e he =>
    hbefore e.1 (List.mem_map_of_mem he) key List.mem_cons_self
  refine ⟨before, after, rfl, hne, ?_, ?_⟩
  · intro e he heq
    have hmem := List.mem_map_of_mem (f := Prod.fst) he
    rw [heq] at hmem
    exact hafter hmem
  · rw [offset, List.takeWhile_append_of_pos (by simpa using hne),
      List.takeWhile_cons_of_neg (by simp), List.append_nil]

/-- The layout from the record of a key on. -/
theorem drop_offset (hmem : (key, entry) ∈ items) (hkeys : (items.map Prod.fst).Nodup) :
    ∃ rest, (flat items).drop (offset items key) = key ++ (entry ++ rest) := by
  obtain ⟨before, after, rfl, -, -, hoffset⟩ := exists_split hmem hkeys
  exact ⟨flat after, by rw [hoffset, flat_append, List.drop_left, flat_cons]⟩

/-- An entry ends before the end of all. -/
theorem offset_le (hmem : (key, entry) ∈ items) (hkeys : (items.map Prod.fst).Nodup) :
    offset items key + key.length + entry.length ≤ (flat items).length := by
  obtain ⟨before, after, rfl, -, -, hoffset⟩ := exists_split hmem hkeys
  rw [hoffset, flat_append, flat_cons]
  simp only [List.length_append]
  omega

/-- Records of other keys stand before the others. -/
theorem offset_append (h : ∀ e ∈ items, e.1 ≠ key) :
    offset (items ++ more) key = (flat items).length + offset more key := by
  rw [offset, List.takeWhile_append_of_pos (by simpa using h), flat_append, List.length_append,
    offset]

/-- Items behind do not move an entry. -/
theorem offset_append_of_mem (h : key ∈ items.map Prod.fst) :
    offset (items ++ more) key = offset items key := by
  induction items with
  | nil => cases h
  | cons e items ih =>
    by_cases he : e.1 = key
    · rw [offset, offset, List.cons_append, List.takeWhile_cons_of_neg (by simpa using he),
        List.takeWhile_cons_of_neg (by simpa using he)]
    · have hmem : key ∈ items.map Prod.fst := by
        rw [List.map_cons, List.mem_cons] at h
        exact h.resolve_left (Ne.symm he)
      have ih' := ih hmem
      rw [offset, offset] at ih' ⊢
      rw [List.cons_append, List.takeWhile_cons_of_pos (by simpa using he),
        List.takeWhile_cons_of_pos (by simpa using he), flat_cons, flat_cons]
      simp only [List.length_append, ih']

/-- The lengths of the entries determine where the records begin. -/
theorem offset_map_congr {α : Type*} {l : List α} {f g : α → List β × List β}
    (hkey : ∀ a ∈ l, (f a).1 = (g a).1) (hlength : ∀ a ∈ l, (f a).2.length = (g a).2.length)
    (key : List β) : offset (l.map f) key = offset (l.map g) key := by
  induction l with
  | nil => rfl
  | cons a l ih =>
    obtain ⟨ha, hkey⟩ := List.forall_mem_cons.mp hkey
    obtain ⟨ha', hlength⟩ := List.forall_mem_cons.mp hlength
    have ih' := ih hkey hlength
    rw [offset, offset] at ih' ⊢
    by_cases heq : (g a).1 = key
    · rw [List.map_cons, List.map_cons, List.takeWhile_cons_of_neg (by simpa [ha] using heq),
        List.takeWhile_cons_of_neg (by simpa using heq)]
    · rw [List.map_cons, List.map_cons, List.takeWhile_cons_of_pos (by simpa [ha] using heq),
        List.takeWhile_cons_of_pos (by simpa using heq), flat_cons, flat_cons]
      simp only [List.length_append, ha, ha', ih']

omit [DecidableEq β] in
/-- Writing inside the data keeps their length. -/
theorem length_write {data cells : List β} {pos : ℕ} (h : pos + cells.length ≤ data.length) :
    (Buckets.write data pos cells).length = data.length := by
  simp only [Buckets.write, List.length_append, List.length_take, List.length_drop]
  omega

omit [DecidableEq β] in
/-- A write into a part of the data. -/
theorem write_middle (before data after cells : List β) {pos : ℕ}
    (h : pos + cells.length ≤ data.length) :
    Buckets.write (before ++ data ++ after) (before.length + pos) cells =
      before ++ Buckets.write data pos cells ++ after := by
  have hpos : pos ≤ data.length := by omega
  simp only [Buckets.write, List.append_assoc]
  rw [List.take_append, List.drop_append, Nat.add_assoc, List.take_of_length_le (by omega),
    Nat.add_sub_cancel_left, List.take_append_of_le_length hpos,
    List.drop_of_length_le (by omega), List.nil_append, Nat.add_sub_cancel_left,
    List.drop_append_of_le_length h, List.append_assoc]

/-- A write into the entry of a key. -/
theorem write_flat (hmem : (key, entry) ∈ items) (hkeys : (items.map Prod.fst).Nodup) {pos : ℕ}
    {cells : List β} (hpos : pos + cells.length ≤ entry.length) :
    Buckets.write (flat items) (offset items key + key.length + pos) cells =
      flat (items.map (overwrite key pos cells)) := by
  obtain ⟨before, after, rfl, hbefore, hafter, hoffset⟩ := exists_split hmem hkeys
  have hkeep {l : List (List β × List β)} (h : ∀ e ∈ l, e.1 ≠ key) :
      l.map (overwrite key pos cells) = l := by
    apply (List.map_congr_left (g := id) fun e he => if_neg (h e he)).trans
    exact List.map_id l
  have hwrite := write_middle (flat before ++ key) entry (flat after) cells hpos
  rw [List.map_append, List.map_cons, hkeep hbefore, hkeep hafter, overwrite, if_pos rfl, hoffset,
    flat_append, flat_append, flat_cons, flat_cons]
  simp only [List.length_append, List.append_assoc] at hwrite ⊢
  exact hwrite

end Layout
