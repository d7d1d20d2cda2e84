import UDPipe.Morphodita.PersistentStores
import UDPipe.Morphodita.MorphoDictionary

/-!
# Places of records

The place that `fill` gives to a record while a map is filled is the place of the record in the
map that is finished, also where several records have one key.
-/

namespace UDPipe.Morphodita

namespace FnvHash

/-- A table between the passes. -/
theorem doneAdding_foldl (num : ℕ) (items : List (Bytes × Bytes)) :
    (items.foldl (fun h e => h.add e.1 e.2.length) (new num)).doneAdding =
      ⟨(new num).mask, (List.range ((new num).mask + 2)).map
        (Buckets.start (fun e => index (new num).mask e.1) record items),
        List.replicate (Buckets.start (fun e => index (new num).mask e.1) record items
          ((new num).mask + 2)) 0⟩ := by
  obtain ⟨-, hhash⟩ := new_spec num
  have hcounts := @Buckets.foldl_count_replicate _ _ (fun e : Bytes × Bytes => index (new num).mask
    e.1) record items ((new num).mask + 2)
  have htotal : ((List.range ((new num).mask + 2)).map fun i =>
      (Buckets.bucket (fun e => index (new num).mask e.1) record items i).length).sum =
        Buckets.start (fun e => index (new num).mask e.1) record items ((new num).mask + 2) := by
    rw [Buckets.start, List.length_flatMap]
  rw [foldl_add, hhash, hcounts, doneAdding, htotal, Buckets.sums_eq]

/-- The record of an item begins where it is filled in. -/
theorem drop_fill {num : ℕ} {items before after : List (Bytes × Bytes)} {e : Bytes × Bytes}
    (hitems : items = before ++ e :: after)
    (hindex : ∀ e ∈ items, index (new num).mask e.1 ≤ (new num).mask) :
    ∃ h more, before.foldl (fun h e => h.fill e.1 e.2)
        (items.foldl (fun h e => h.add e.1 e.2.length) (new num)).doneAdding = h ∧
      (filled (new num).mask items).data.drop (h.hash.getD (index h.mask e.1) 0) =
        e.1 ++ (e.2 ++ more) := by
  obtain ⟨mask, hmask⟩ : ∃ mask, mask = (new num).mask := ⟨_, rfl⟩
  rw [doneAdding_foldl, foldl_fill, ← hmask]
  rw [← hmask] at hindex
  obtain ⟨f, hf⟩ : ∃ f : Bytes × Bytes → ℕ, f = fun e => index mask e.1 := ⟨_, rfl⟩
  have hindexOf : index mask e.1 = f e := by rw [hf]
  have hlt : f e < mask + 2 := by
    have hle := hindex e (by simp [hitems])
    omega
  have hfilling := @Buckets.filling_foldl _ _ f record (mask + 2) _ before (e :: after) hitems
    (fun e he => by rw [hf]; exact Nat.lt_succ_of_le ((hindex e he).trans (Nat.le_succ _))) 0
  simp only [← hf]
  have hposition : (before.foldl (Buckets.fill f record) ((List.range (mask + 2)).map
      (Buckets.start f record items), List.replicate (Buckets.start f record items (mask + 2))
        0)).1.getD (f e) 0 = Buckets.start f record items (f e) +
          (Buckets.bucket f record before (f e)).length := by
    rw [hfilling.positions, List.getD_eq_getElem?_getD, List.getElem?_map, List.getElem?_range hlt]
    rfl
  have hdata : (filled mask items).data =
      (List.range (mask + 2)).flatMap (Buckets.bucket f record items) := by
    rw [filled, hf]
  have hbucket : Buckets.bucket f record items (f e) = Buckets.bucket f record before (f e) ++
      (record e ++ Buckets.bucket f record after (f e)) := by
    rw [hitems, Buckets.bucket_append, Buckets.bucket_cons, if_pos rfl]
  refine ⟨_, Buckets.bucket f record after (f e) ++ (List.range (mask + 2 - (f e + 1))).flatMap
    fun i => Buckets.bucket f record items (f e + 1 + i), rfl, ?_⟩
  simp only
  rw [hindexOf, hposition, hdata, ← List.drop_drop, Buckets.drop_start items hlt, hbucket]
  simp only [List.append_assoc]
  rw [List.drop_left, record, List.append_assoc]

end FnvHash

namespace PersistentUnorderedMap

open FnvHash

/-- A map after the first pass. -/
def counted (tables : ℕ) (elems : ℕ → ℕ) (entries : List (Bytes × Bytes)) :
    PersistentUnorderedMap :=
  entries.foldl (fun m e => add m e.1 e.2.length)
    ⟨(List.range tables).map fun len => FnvHash.new (capacity elems len)⟩

/-- A map between the passes. -/
def added (tables : ℕ) (elems : ℕ → ℕ) (entries : List (Bytes × Bytes)) : PersistentUnorderedMap :=
  doneAdding (counted tables elems entries)

/-- A map after some entries. -/
def filledWith (m : PersistentUnorderedMap) (entries : List (Bytes × Bytes)) :
    PersistentUnorderedMap :=
  entries.foldl (fun m e => fill m e.1 e.2) m

/-- Filling more entries goes on from those before. -/
theorem filledWith_append (m : PersistentUnorderedMap) (entries more : List (Bytes × Bytes)) :
    m.filledWith (entries ++ more) = (m.filledWith entries).filledWith more :=
  List.foldl_append

/-- A map that is filled with all entries is built of them. -/
theorem doneFilling_filledWith (tables : ℕ) (elems : ℕ → ℕ) (entries : List (Bytes × Bytes)) :
    doneFilling ((added tables elems entries).filledWith entries) = built tables elems entries :=
  passes_eq_built tables elems entries

variable {tables : ℕ} {elems : ℕ → ℕ} {before after : List (Bytes × Bytes)} {key entry : Bytes}

/-- A table is filled with the entries of its length. -/
theorem added_filledWith_table (entries done : List (Bytes × Bytes)) {len : ℕ} (hlen : len < tables) :
    ((added tables elems entries).filledWith done).hashes[len]? =
      some ((ofLength done len).foldl (fun h e => h.fill e.1 e.2)
        ((ofLength entries len).foldl (fun h e => h.add e.1 e.2.length)
          (FnvHash.new (capacity elems len))).doneAdding) := by
  have hadd := foldl_hashes (fun e h => h.add e.1 e.2.length) entries
  have hfill := foldl_hashes (fun e h => h.fill e.1 e.2) done
  simp only [filledWith, added, counted, add, fill]
  rw [hadd, hfill, doneAdding]
  simp only
  rw [Buckets.foldl_modify (fun (e : Bytes × Bytes) (h : FnvHash) => h.fill e.1 e.2),
    List.getElem?_map,
    Buckets.foldl_modify (fun (e : Bytes × Bytes) (h : FnvHash) => h.add e.1 e.2.length),
    List.getElem?_map, List.getElem?_range hlen]
  rfl

/-- The record of an entry begins where it is filled in. -/
theorem drop_fillOffset (hkey : key.length < tables) :
    ∃ more, ((built tables elems (before ++ (key, entry) :: after)).dataStart key.length).drop
      (fillOffset ((added tables elems (before ++ (key, entry) :: after)).filledWith before) key) =
        key ++ (entry ++ more) := by
  obtain ⟨entries, hentries⟩ : ∃ entries, entries = before ++ (key, entry) :: after := ⟨_, rfl⟩
  have hitems : ofLength entries key.length =
      ofLength before key.length ++ (key, entry) :: ofLength after key.length := by
    rw [hentries, ofLength, List.filter_append, List.filter_cons_of_pos (by simp)]
    rfl
  obtain ⟨h, more, hfill, hdrop⟩ := @drop_fill (capacity elems key.length) _ _ _ _ hitems
    fun e he => fits_maskOf elems key.length e.1 (mem_ofLength.mp he).2
  refine ⟨more, ?_⟩
  rw [← hentries, dataStart, built_table elems entries hkey, fillOffset,
    added_filledWith_table entries before hkey, hfill]
  exact hdrop

/-- A record begins within the size of the records with keys of its length. -/
theorem fillOffset_lt (hkey : key.length < tables) (hentry : entry ≠ []) :
    fillOffset ((added tables elems (before ++ (key, entry) :: after)).filledWith before) key <
      totalSize (ofLength (before ++ (key, entry) :: after) key.length) := by
  obtain ⟨more, hdrop⟩ := @drop_fillOffset tables elems before after key entry hkey
  have hlength := congrArg List.length hdrop
  rw [List.length_drop, List.length_append, List.length_append, dataStart,
    built_table elems _ hkey, Option.map_some, Option.getD_some, length_filled_data fun e he =>
      fits_maskOf elems key.length e.1 (mem_ofLength.mp he).2] at hlength
  have hpos := List.length_pos_of_ne_nil hentry
  omega

end PersistentUnorderedMap

end UDPipe.Morphodita
