import UDPipe.Morphodita.PersistentMap
import Mathlib.Algebra.Order.BigOperators.Group.List
import Mathlib.Data.List.Forall2
import Mathlib.Data.List.Induction
import Mathlib.Data.List.Nodup
import Mathlib.Data.List.Perm.Subperm
import Mathlib.Tactic.Linarith

/-!
# The persistent map holds its entries

After the two passes each table has its records grouped by the hash of the key, and the
offsets are the starts of the groups. Lookups go through one group only, and the group
has the key if the map has it.
-/

namespace UDPipe.Morphodita

namespace FnvHash

/-! ### Tables -/

/-- What is stored for a key and an entry. -/
def record (e : Bytes × Bytes) : Bytes := e.1 ++ e.2

/-- A table with its records in place. -/
def filled (mask : ℕ) (items : List (Bytes × Bytes)) : FnvHash where
  mask := mask
  hash := (List.range (mask + 2)).map (Buckets.start (fun e => index mask e.1) record items)
  data := (List.range (mask + 2)).flatMap (Buckets.bucket (fun e => index mask e.1) record items)

/-- The strings of the length fit the table. -/
def Fits (mask len : ℕ) : Prop := ∀ str : Bytes, str.length = len → index mask str ≤ mask

/-- The mask grows until it is large enough. -/
theorem growMask_spec {num fuel mask : ℕ} (hmask : 1 ≤ mask) (hfuel : num ≤ mask + fuel) :
    1 ≤ growMask num fuel mask ∧ num ≤ growMask num fuel mask := by
  induction fuel generalizing mask with
  | zero => exact ⟨hmask, hfuel⟩
  | succ fuel ih =>
    rw [growMask]
    split
    · exact ih (by omega) (by omega)
    · omega

/-- The mask is a power of two, which stays below a power of two above the number. -/
theorem growMask_le {num bound k fuel : ℕ} (hk : k ≤ bound) (hnum : num ≤ 2 ^ bound) :
    growMask num fuel (2 ^ k) ≤ 2 ^ bound := by
  induction fuel generalizing k with
  | zero => exact Nat.pow_le_pow_right (by decide) hk
  | succ fuel ih =>
    rw [growMask]
    split
    · rename_i hlt
      have hkb : k < bound := (Nat.pow_lt_pow_iff_right (by decide)).mp (hlt.trans_le hnum)
      rw [← Nat.pow_succ']
      exact ih hkb
    · exact Nat.pow_le_pow_right (by decide) hk

/-- A new table has room for all, and no entries. -/
theorem new_spec (num : ℕ) :
    num ≤ (new num).mask + 1 ∧ (new num).hash = List.replicate ((new num).mask + 2) 0 := by
  obtain ⟨hpos, hle⟩ := @growMask_spec num num 1 le_rfl (Nat.le_add_left _ _)
  have hmask : (new num).mask = growMask num num 1 - 1 := rfl
  refine ⟨by omega, ?_⟩
  have hsize : growMask num num 1 + 1 = (new num).mask + 2 := by omega
  rw [← hsize]
  rfl

/-- Short strings have an index each. -/
theorem fits_of_lt_three {mask len : ℕ} (hlen : len < 3) (hmask : 256 ^ len ≤ mask + 1) :
    Fits mask len := by
  rintro str rfl
  match str, hlen with
  | [], _ => exact Nat.zero_le _
  | [c], _ =>
    have hlt := word_lt [c]
    exact Nat.le_of_lt_succ (hlt.trans_le hmask)
  | [c, d], _ =>
    have hlt := word_lt [c, d]
    exact Nat.le_of_lt_succ (hlt.trans_le hmask)

/-- Other strings have an index below the mask. -/
theorem fits_of_three_le (mask : ℕ) {len : ℕ} (hlen : 3 ≤ len) : Fits mask len := by
  rintro str rfl
  match str, hlen with
  | _ :: _ :: _ :: _, _ => exact Nat.and_le_right

/-- Short strings have an index of their own. -/
theorem index_injective {mask : ℕ} {s t : Bytes} (hs : s.length ≤ 2) (hlength : s.length = t.length)
    (h : index mask s = index mask t) : s = t := by
  apply word_injective hlength
  match s, t, hs, hlength with
  | [], [], _, _ => rfl
  | [c], [d], _, _ => exact h
  | [c, c'], [d, d'], _, _ => exact h

/-- The first pass over a table. -/
theorem foldl_add (items : List (Bytes × Bytes)) (h : FnvHash) :
    items.foldl (fun h e => h.add e.1 e.2.length) h =
      { h with hash := items.foldl (Buckets.count (fun e => index h.mask e.1) record) h.hash } := by
  induction items generalizing h with
  | nil => rfl
  | cons e items ih =>
    rw [List.foldl_cons, ih, List.foldl_cons, Buckets.count, record, List.length_append]
    rfl

/-- The second pass over a table. -/
theorem foldl_fill (items : List (Bytes × Bytes)) (h : FnvHash) :
    items.foldl (fun h e => h.fill e.1 e.2) h =
      let state := items.foldl (Buckets.fill (fun e => index h.mask e.1) record) (h.hash, h.data)
      ⟨h.mask, state.1, state.2⟩ := by
  induction items generalizing h with
  | nil => rfl
  | cons e items ih =>
    rw [List.foldl_cons, ih, List.foldl_cons, Buckets.fill, record, List.length_append]
    rfl

/-- Both passes fill a new table. -/
theorem passes_eq (num : ℕ) {items : List (Bytes × Bytes)}
    (hindex : ∀ e ∈ items, index (new num).mask e.1 ≤ (new num).mask) :
    (items.foldl (fun h e => h.fill e.1 e.2)
      (items.foldl (fun h e => h.add e.1 e.2.length) (new num)).doneAdding).doneFilling =
        filled (new num).mask items := by
  obtain ⟨-, hhash⟩ := new_spec num
  obtain ⟨mask, hmask⟩ : ∃ mask, mask = (new num).mask := ⟨_, rfl⟩
  rw [← hmask] at hindex hhash ⊢
  have hcounts := @Buckets.foldl_count_replicate _ _ (fun e : Bytes × Bytes => index mask e.1)
    record items (mask + 2)
  have hadded : items.foldl (fun h e => h.add e.1 e.2.length) (new num) =
      ⟨mask, (List.range (mask + 2)).map fun i =>
        (Buckets.bucket (fun e => index mask e.1) record items i).length, (new num).data⟩ := by
    rw [foldl_add, hhash, ← hmask, hcounts]
  have htotal : ((List.range (mask + 2)).map fun i =>
      (Buckets.bucket (fun e => index mask e.1) record items i).length).sum =
        Buckets.start (fun e => index mask e.1) record items (mask + 2) := by
    rw [Buckets.start, List.length_flatMap]
  have hfilling := @Buckets.Filling.run _ _ (fun e : Bytes × Bytes => index mask e.1) record
    (mask + 2) items (fun e he => Nat.lt_succ_of_le ((hindex e he).trans (Nat.le_succ _))) 0
  rw [hadded, doneAdding, htotal, Buckets.sums_eq, foldl_fill, doneFilling, filled]
  simp only
  rw [hfilling.shift, hfilling.data_eq]

/-! ### Records -/

/-- A record is read: its key, and its entry with what follows it. -/
def Reads (r e : Bytes × Bytes) : Prop := r.1 = e.1 ∧ ∃ more, r.2 = e.2 ++ more

/-- The function tells the lengths of the entries. -/
def Measures (entrySize : Bytes → ℕ) (items : List (Bytes × Bytes)) : Prop :=
  ∀ e ∈ items, ∀ more, entrySize (e.2 ++ more) = e.2.length

/-- The loop reads the records that are there. -/
theorem records_reads (h : FnvHash) {len : ℕ} {entrySize : Bytes → ℕ} {items : List (Bytes × Bytes)}
    (hlen : ∀ e ∈ items, e.1.length = len) (hne : ∀ e ∈ items, e.2 ≠ [])
    (hsize : Measures entrySize items) {fuel pos stop : ℕ} {rest : Bytes}
    (hdata : h.data.drop pos = items.flatMap record ++ rest)
    (hstop : stop = pos + (items.flatMap record).length) (hfuel : items.length ≤ fuel) :
    List.Forall₂ Reads (h.records len entrySize stop fuel pos) items := by
  induction items generalizing fuel pos with
  | nil =>
    have hnot : ¬ pos < stop := by simp [hstop]
    cases fuel with
    | zero => exact .nil
    | succ fuel =>
      rw [records, if_neg hnot]
      exact .nil
  | cons e items ih =>
    obtain ⟨hlen, hlens⟩ := List.forall_mem_cons.mp hlen
    obtain ⟨hne, hnes⟩ := List.forall_mem_cons.mp hne
    obtain ⟨fuel, rfl⟩ : ∃ k, fuel = k + 1 := ⟨fuel - 1, by rw [List.length_cons] at hfuel; omega⟩
    rw [List.flatMap_cons, record, List.append_assoc, List.append_assoc] at hdata
    have hentry : h.data.drop (pos + len) = e.2 ++ (items.flatMap record ++ rest) := by
      rw [← List.drop_drop, hdata, List.drop_left' hlen]
    have hnext : h.data.drop (pos + len + e.2.length) = items.flatMap record ++ rest := by
      rw [← List.drop_drop, hentry, List.drop_left]
    have hlength : ((e :: items).flatMap record).length =
        len + e.2.length + (items.flatMap record).length := by
      rw [List.flatMap_cons, record, List.length_append, List.length_append, hlen]
    have hpos := List.length_pos_of_ne_nil hne
    have hmeasure := hsize e List.mem_cons_self (items.flatMap record ++ rest)
    rw [records, if_pos (by omega)]
    simp only [hentry, hmeasure]
    refine .cons ⟨?_, _, rfl⟩ (ih hlens hnes (fun e he => hsize e (List.mem_cons_of_mem _ he))
      hnext (by omega) (by simpa using hfuel))
    rw [hdata, List.take_left' hlen]

/-- The loop of `at` stops at the first record with the key. -/
theorem scan_eq (h : FnvHash) (str : Bytes) (entrySize : Bytes → ℕ) (stop fuel pos : ℕ) :
    h.scan str entrySize stop fuel pos =
      ((h.records str.length entrySize stop fuel pos).find? fun r => r.1 = str).map Prod.snd := by
  induction fuel generalizing pos with
  | zero => rfl
  | succ fuel ih =>
    rw [scan, records]
    by_cases hpos : pos < stop
    · by_cases hstr : (h.data.drop pos).take str.length = str
      · simp [hpos, hstr]
      · simp [hpos, hstr, ih]
    · simp [hpos]

/-- A key with an entry is found with this entry. -/
theorem find?_reads {rs items : List (Bytes × Bytes)} (hreads : List.Forall₂ Reads rs items)
    (hkeys : (items.map Prod.fst).Nodup) {e : Bytes × Bytes} (he : e ∈ items) :
    ∃ more, (rs.find? fun r => r.1 = e.1).map Prod.snd = some (e.2 ++ more) := by
  induction hreads with
  | nil => cases he
  | @cons r f rs items hread _ ih =>
    obtain ⟨hkey, more, hentry⟩ := hread
    rw [List.map_cons, List.nodup_cons] at hkeys
    rcases List.mem_cons.mp he with rfl | he
    · exact ⟨more, by simp [hkey, hentry]⟩
    · have hne : r.1 ≠ e.1 := by
        rw [hkey]
        exact fun heq => hkeys.1 (heq ▸ List.mem_map_of_mem he)
      rw [List.find?_cons_of_neg (by simpa using hne)]
      exact ih hkeys.2 he

/-- A key without an entry is not found. -/
theorem find?_reads_none {rs items : List (Bytes × Bytes)} (hreads : List.Forall₂ Reads rs items)
    {str : Bytes} (hstr : ∀ e ∈ items, e.1 ≠ str) : rs.find? (fun r => r.1 = str) = none := by
  induction hreads with
  | nil => rfl
  | cons hread _ ih =>
    obtain ⟨hne, hnes⟩ := List.forall_mem_cons.mp hstr
    rw [List.find?_cons_of_neg (by simpa [hread.1] using hne)]
    exact ih hnes

/-- There are no more items than bytes of their records. -/
theorem length_le_flatMap_record {items : List (Bytes × Bytes)} (hne : ∀ e ∈ items, e.2 ≠ []) :
    items.length ≤ (items.flatMap record).length := by
  rw [List.length_flatMap, ← List.length_map (fun e => (record e).length)]
  apply List.length_le_sum_of_one_le
  intro k hk
  obtain ⟨e, he, rfl⟩ := List.mem_map.mp hk
  have hpos := List.length_pos_of_ne_nil (hne e he)
  rw [record, List.length_append]
  omega

/-- What is read tells the records. -/
theorem map_reads {rs items : List (Bytes × Bytes)} (hreads : List.Forall₂ Reads rs items)
    {entrySize : Bytes → ℕ} (hsize : Measures entrySize items) :
    (rs.map fun r => (r.1, r.2.take (entrySize r.2))) = items := by
  induction hreads with
  | nil => rfl
  | @cons r e rs items hread _ ih =>
    obtain ⟨hkey, more, hentry⟩ := hread
    have he := hsize e List.mem_cons_self more
    rw [List.map_cons, ih fun f hf => hsize f (List.mem_cons_of_mem _ hf), hkey, hentry, he,
      List.take_left]

/-- The group of a string in a filled table. -/
theorem filled_chain {mask : ℕ} (items : List (Bytes × Bytes)) {str : Bytes}
    (hstr : index mask str ≤ mask) :
    ∃ start rest, (filled mask items).chain str =
        (start, start +
          ((items.filter fun e => index mask e.1 = index mask str).flatMap record).length) ∧
      (filled mask items).data.drop start =
        (items.filter fun e => index mask e.1 = index mask str).flatMap record ++ rest := by
  obtain ⟨i, hi⟩ : ∃ i, i = index mask str := ⟨_, rfl⟩
  rw [← hi] at hstr ⊢
  refine ⟨Buckets.start (fun e => index mask e.1) record items i, _, ?_,
    Buckets.drop_start items (show i < mask + 2 by omega)⟩
  have hsucc := @Buckets.start_succ _ _ (fun e : Bytes × Bytes => index mask e.1) record items i
  have hget : ∀ j < mask + 2, (filled mask items).hash.getD j 0 =
      Buckets.start (fun e => index mask e.1) record items j := by
    intro j hj
    simp [filled, hj]
  have hmask : (filled mask items).mask = mask := rfl
  rw [chain, hmask, ← hi, hget _ (by omega), hget _ (by omega), hsucc]
  rfl

/-- All records of a filled table are read, grouped by their index. -/
theorem filled_records {mask len : ℕ} {entrySize : Bytes → ℕ} {items : List (Bytes × Bytes)}
    (hlen : ∀ e ∈ items, e.1.length = len) (hne : ∀ e ∈ items, e.2 ≠ [])
    (hsize : Measures entrySize items) :
    List.Forall₂ Reads ((filled mask items).records len entrySize (filled mask items).data.length
      (filled mask items).data.length 0)
        ((List.range (mask + 2)).flatMap fun i => items.filter fun e => index mask e.1 = i) := by
  obtain ⟨groups, hgroups⟩ : ∃ groups, groups =
      (List.range (mask + 2)).flatMap fun i => items.filter fun e => index mask e.1 = i := ⟨_, rfl⟩
  have hmem : ∀ e ∈ groups, e ∈ items := by
    intro e he
    rw [hgroups] at he
    obtain ⟨i, -, he⟩ := List.mem_flatMap.mp he
    exact (List.mem_filter.mp he).1
  have hdata : (filled mask items).data = groups.flatMap record := by
    rw [hgroups, List.flatMap_assoc]
    rfl
  have hshort : groups.length ≤ (filled mask items).data.length := by
    rw [hdata]
    exact length_le_flatMap_record fun e he => hne e (hmem e he)
  rw [← hgroups]
  exact records_reads _ (fun e he => hlen e (hmem e he)) (fun e he => hne e (hmem e he))
    (fun e he => hsize e (hmem e he)) (by rw [List.drop_zero, hdata, List.append_nil])
    (by rw [hdata, Nat.zero_add]) hshort

end FnvHash

namespace PersistentUnorderedMap

open FnvHash

/-! ### The construction -/

/-- The entries with keys of one length. -/
def ofLength (entries : List (Bytes × Bytes)) (len : ℕ) : List (Bytes × Bytes) :=
  entries.filter fun e => e.1.length = len

/-- The entries of a length. -/
theorem mem_ofLength {entries : List (Bytes × Bytes)} {len : ℕ} {e : Bytes × Bytes} :
    e ∈ ofLength entries len ↔ e ∈ entries ∧ e.1.length = len := by
  simp [ofLength]

/-- The number of elements that the table for a length is created for. -/
def capacity (elems : ℕ → ℕ) : ℕ → ℕ
  | 0 => 1
  | 1 => 2 ^ 8
  | 2 => 2 ^ 16
  | len => elems len

/-- The mask of the table for a length. -/
def maskOf (elems : ℕ → ℕ) (len : ℕ) : ℕ := (FnvHash.new (capacity elems len)).mask

/-- The strings of all lengths have an index. -/
theorem fits_maskOf (elems : ℕ → ℕ) (len : ℕ) : FnvHash.Fits (maskOf elems len) len := by
  match len with
  | 0 | 1 | 2 => exact fits_of_lt_three (by decide) (new_spec _).1
  | len + 3 => exact fits_of_three_le _ (by omega)

/-- The map after both passes, with the given number of tables. -/
def built (tables : ℕ) (elems : ℕ → ℕ) (entries : List (Bytes × Bytes)) : PersistentUnorderedMap :=
  ⟨(List.range tables).map fun len => filled (maskOf elems len) (ofLength entries len)⟩

/-- The tables get their sizes one after the other. -/
theorem foldl_resize (sizes : List ℕ) (loadFactor : ℕ → ℕ) :
    sizes.foldl (fun m size => resize m (loadFactor size)) ⟨[]⟩ =
      ⟨(List.range sizes.length).map fun len =>
        FnvHash.new (capacity (fun len => loadFactor (sizes.getD len 0)) len)⟩ := by
  induction sizes using List.reverseRecOn with
  | nil => rfl
  | append_singleton sizes size ih =>
    rw [List.foldl_append, ih, List.foldl_cons, List.foldl_nil, resize, List.length_append,
      List.length_singleton, List.range_succ, List.map_append, List.map_singleton]
    simp only [List.length_map, List.length_range]
    congr 2
    · apply List.map_congr_left
      intro len hlen
      have hlt := List.mem_range.mp hlen
      rcases len with _ | _ | _ | len
      · rfl
      · rfl
      · rfl
      · rw [capacity, capacity, List.getD_append _ _ _ _ hlt]
        all_goals omega
    · have hget : (sizes ++ [size]).getD sizes.length 0 = size := by
        simp [List.getD_eq_getElem?_getD]
      rcases hsizes : sizes.length with _ | _ | _ | len
      · rfl
      · rfl
      · rfl
      · rw [hsizes] at hget
        rw [capacity, hget]
        · rfl
        all_goals omega

/-- A loop over the entries changes the table of their length. -/
theorem foldl_hashes (f : Bytes × Bytes → FnvHash → FnvHash) (entries : List (Bytes × Bytes))
    (m : PersistentUnorderedMap) :
    entries.foldl (fun m e => ⟨m.hashes.modify e.1.length (f e)⟩) m =
      (⟨entries.foldl (fun hashes e => hashes.modify e.1.length (f e)) m.hashes⟩ :
        PersistentUnorderedMap) := by
  induction entries generalizing m with
  | nil => rfl
  | cons e entries ih => exact ih ⟨m.hashes.modify e.1.length (f e)⟩

/-- The passes fill the tables. -/
theorem passes_eq_built (tables : ℕ) (elems : ℕ → ℕ) (entries : List (Bytes × Bytes)) :
    doneFilling (entries.foldl (fun m e => fill m e.1 e.2)
      (doneAdding (entries.foldl (fun m e => add m e.1 e.2.length)
        ⟨(List.range tables).map fun len => FnvHash.new (capacity elems len)⟩))) =
      built tables elems entries := by
  have hadd := foldl_hashes (fun e h => h.add e.1 e.2.length) entries
  have hfill := foldl_hashes (fun e h => h.fill e.1 e.2) entries
  simp only [add, fill]
  rw [hadd, hfill, doneAdding, doneFilling, built]
  congr 1
  apply List.ext_getElem?
  intro len
  rw [List.getElem?_map,
    Buckets.foldl_modify (fun (e : Bytes × Bytes) (h : FnvHash) => h.fill e.1 e.2), List.getElem?_map,
    Buckets.foldl_modify (fun (e : Bytes × Bytes) (h : FnvHash) => h.add e.1 e.2.length)]
  by_cases hlen : len < tables
  · simp only [List.getElem?_map, List.getElem?_range hlen, Option.map_some]
    congr 1
    apply passes_eq
    intro e he
    exact fits_maskOf elems len e.1 (mem_ofLength.mp he).2
  · simp [hlen]

/-- The counts of the keys of each length. -/
theorem countSizes_spec (keys : List Bytes) :
    (∀ len, (countSizes keys).getD len 0 = keys.countP fun key => key.length = len) ∧
      (∀ key ∈ keys, key.length < (countSizes keys).length) ∧
      ∀ n, (countSizes keys).length = n + 1 → ∃ key ∈ keys, key.length = n := by
  induction keys using List.reverseRecOn with
  | nil => simp [countSizes]
  | append_singleton keys key ih =>
    obtain ⟨hcount, hlt, hlast⟩ := ih
    have hstep : countSizes (keys ++ [key]) = (countSizes keys ++
        List.replicate (key.length + 1 - (countSizes keys).length) 0).modify key.length (· + 1) := by
      rw [countSizes, List.foldl_append]
      rfl
    have hlength : (countSizes (keys ++ [key])).length =
        (countSizes keys).length + (key.length + 1 - (countSizes keys).length) := by
      simp [hstep]
    refine ⟨fun len => ?_, fun key' hkey' => ?_, fun n hn => ?_⟩
    · have hpad : (countSizes keys ++
          List.replicate (key.length + 1 - (countSizes keys).length) 0).getD len 0 =
            (countSizes keys).getD len 0 := by
        rw [List.getD_eq_getElem?_getD, List.getD_eq_getElem?_getD, List.getElem?_append]
        split
        · rfl
        · rename_i hge
          rw [List.getElem?_eq_none (Nat.not_lt.mp hge), List.getElem?_replicate]
          split <;> rfl
      rw [hstep, List.countP_append, ← hcount len, ← hpad, List.getD_eq_getElem?_getD,
        List.getD_eq_getElem?_getD, List.getElem?_modify]
      by_cases hlen : key.length = len
      · have hin : len < (countSizes keys ++
            List.replicate (key.length + 1 - (countSizes keys).length) 0).length := by
          simp
          omega
        rw [List.getElem?_eq_getElem hin]
        simp [hlen]
      · simp [hlen]
    · rw [hlength]
      rcases List.mem_append.mp hkey' with hkey' | hkey'
      · exact (hlt key' hkey').trans_le (Nat.le_add_right _ _)
      · obtain rfl := List.mem_singleton.mp hkey'
        omega
    · by_cases hkey : key.length + 1 ≤ (countSizes keys).length
      · obtain ⟨key', hmem, hkey'⟩ := hlast n (by omega)
        exact ⟨key', List.mem_append_left _ hmem, hkey'⟩
      · exact ⟨key, by simp, by omega⟩

/-- The construction gives the tables. -/
theorem construct_eq {Entry : Type} (map : List (Bytes × Entry)) (loadFactor : ℕ → ℕ)
    (entryEncode : Entry → Bytes) :
    construct map loadFactor entryEncode = built (countSizes (map.map Prod.fst)).length
      (fun len => loadFactor ((map.map Prod.fst).countP fun key => key.length = len))
      (map.map fun e => (e.1, entryEncode e.2)) := by
  have hcount := (countSizes_spec (map.map Prod.fst)).1
  rw [construct, ← passes_eq_built, List.foldl_map, List.foldl_map]
  simp only [foldl_resize, hcount]

/-! ### Access -/

section Access

variable {tables : ℕ} {elems : ℕ → ℕ} {entries : List (Bytes × Bytes)}

/-- The entries with keys that have the length and the index of a string. -/
def group (elems : ℕ → ℕ) (entries : List (Bytes × Bytes)) (str : Bytes) : List (Bytes × Bytes) :=
  (ofLength entries str.length).filter fun e =>
    index (maskOf elems str.length) e.1 = index (maskOf elems str.length) str

/-- A group has the entries of one index. -/
theorem mem_group {str : Bytes} {e : Bytes × Bytes} :
    e ∈ group elems entries str ↔ e ∈ entries ∧ e.1.length = str.length ∧
      index (maskOf elems str.length) e.1 = index (maskOf elems str.length) str := by
  simp [group, mem_ofLength, and_assoc]

/-- An entry is in its own group. -/
theorem self_mem_group {e : Bytes × Bytes} (he : e ∈ entries) : e ∈ group elems entries e.1 :=
  mem_group.mpr ⟨he, rfl, rfl⟩

/-- A table of a length is filled with the entries of the length. -/
theorem built_table (elems : ℕ → ℕ) (entries : List (Bytes × Bytes)) {len : ℕ}
    (hlen : len < tables) :
    (built tables elems entries).hashes[len]? =
      some (filled (maskOf elems len) (ofLength entries len)) := by
  simp [built, hlen]

/-- There are no tables for longer strings. -/
theorem built_no_table (elems : ℕ → ℕ) (entries : List (Bytes × Bytes)) {len : ℕ}
    (hlen : tables ≤ len) : (built tables elems entries).hashes[len]? = none := by
  simp [built, hlen]

/-- The records of a group are read. -/
theorem chain_reads (hne : ∀ e ∈ entries, e.2 ≠ []) {str : Bytes} {entrySize : Bytes → ℕ}
    (hsize : Measures entrySize (group elems entries str)) {h : FnvHash}
    (hh : h = filled (maskOf elems str.length) (ofLength entries str.length)) :
    List.Forall₂ Reads
      (h.records str.length entrySize (h.chain str).2 h.data.length (h.chain str).1)
      (group elems entries str) := by
  obtain ⟨start, rest, hchain, hdata⟩ := filled_chain (ofLength entries str.length)
    (fits_maskOf elems str.length str rfl)
  rw [← hh] at hchain hdata
  have hne' : ∀ e ∈ group elems entries str, e.2 ≠ [] := fun e he => hne e (mem_group.mp he).1
  have hfuel : (group elems entries str).length ≤ h.data.length := by
    have hdrop := congrArg List.length hdata
    have hle := length_le_flatMap_record hne'
    rw [List.length_drop, List.length_append] at hdrop
    simp only [group] at hle ⊢
    omega
  rw [hchain]
  exact records_reads h (fun e he => (mem_group.mp he).2.1) hne' hsize hdata rfl hfuel

/-- The method `iter` goes through the entries with the same index. -/
theorem iter_reads (hne : ∀ e ∈ entries, e.2 ≠ []) {str : Bytes} (hstr : str.length < tables)
    {entrySize : Bytes → ℕ} (hsize : Measures entrySize (group elems entries str)) :
    List.Forall₂ Reads ((built tables elems entries).iter str entrySize)
      (group elems entries str) := by
  rw [iter, built_table elems entries hstr]
  exact chain_reads hne hsize rfl

/-- Nothing is found for longer strings. -/
theorem iter_eq_nil {str : Bytes} (hstr : tables ≤ str.length) (entrySize : Bytes → ℕ) :
    (built tables elems entries).iter str entrySize = [] := by
  rw [iter, built_no_table elems entries hstr]

/-- Entries of different keys that share a group with a short key do not exist. -/
theorem eq_of_mem_group {str : Bytes} (hshort : str.length ≤ 2) {e : Bytes × Bytes}
    (he : e ∈ group elems entries str) : e.1 = str := by
  obtain ⟨-, hlength, hindex⟩ := mem_group.mp he
  exact index_injective (by omega) hlength hindex

/-- The method `at` gives the entry of a key. -/
theorem entryAt_mem (hkeys : (entries.map Prod.fst).Nodup) (hne : ∀ e ∈ entries, e.2 ≠ [])
    {entrySize : Bytes → ℕ} (hsize : Measures entrySize entries) {e : Bytes × Bytes}
    (he : e ∈ entries) (htable : e.1.length < tables) :
    ∃ more, (built tables elems entries).entryAt e.1 entrySize = some (e.2 ++ more) := by
  obtain ⟨h, hh⟩ : ∃ h, h = filled (maskOf elems e.1.length) (ofLength entries e.1.length) :=
    ⟨_, rfl⟩
  rw [entryAt, built_table elems entries htable, ← hh]
  simp only
  split
  · rename_i hshort
    obtain ⟨start, rest, hchain, hdata⟩ := filled_chain (ofLength entries e.1.length)
      (fits_maskOf elems e.1.length e.1 rfl)
    rw [← hh] at hchain hdata
    obtain ⟨f, more, hgroup⟩ : ∃ f more, group elems entries e.1 = f :: more :=
      List.exists_cons_of_ne_nil (List.ne_nil_of_mem (self_mem_group he))
    have hf : f ∈ group elems entries e.1 := hgroup ▸ List.mem_cons_self
    obtain rfl : f = e := List.inj_on_of_nodup_map hkeys (mem_group.mp hf).1 he
      (eq_of_mem_group hshort hf)
    rw [group] at hgroup
    rw [hgroup, List.flatMap_cons] at hchain hdata
    have hpos : 0 < (record f).length := by
      rw [record, List.length_append]
      exact Nat.add_pos_right _ (List.length_pos_of_ne_nil (hne f he))
    rw [hchain, if_pos (by rw [List.length_append]; omega)]
    refine ⟨more.flatMap record ++ rest, ?_⟩
    rw [← List.drop_drop, hdata, record, List.append_assoc, List.append_assoc, List.drop_left]
  · rw [scan_eq]
    have hreads := chain_reads hne (fun f hf => hsize f (mem_group.mp hf).1) hh
    exact find?_reads hreads (hkeys.sublist
      ((List.filter_sublist.trans List.filter_sublist).map _)) (self_mem_group he)

/-- The method `at` gives nothing for another key. -/
theorem entryAt_not_mem (hne : ∀ e ∈ entries, e.2 ≠ []) {entrySize : Bytes → ℕ}
    (hsize : Measures entrySize entries) {str : Bytes} (hstr : ∀ e ∈ entries, e.1 ≠ str) :
    (built tables elems entries).entryAt str entrySize = none := by
  rcases Nat.lt_or_ge str.length tables with htable | htable
  · obtain ⟨h, hh⟩ : ∃ h, h = filled (maskOf elems str.length) (ofLength entries str.length) :=
      ⟨_, rfl⟩
    rw [entryAt, built_table elems entries htable, ← hh]
    simp only
    split
    · rename_i hshort
      obtain ⟨start, rest, hchain, hdata⟩ := filled_chain (ofLength entries str.length)
        (fits_maskOf elems str.length str rfl)
      have hgroup : group elems entries str = [] := by
        apply List.eq_nil_iff_forall_not_mem.mpr
        intro e he
        exact hstr e (mem_group.mp he).1 (eq_of_mem_group hshort he)
      rw [group] at hgroup
      rw [hh, hchain, hgroup]
      simp
    · rw [scan_eq, find?_reads_none (chain_reads hne (fun f hf => hsize f (mem_group.mp hf).1) hh)
        fun e he => hstr e (mem_group.mp he).1]
      rfl
  · rw [entryAt, built_no_table elems entries htable]

/-- The method `iter_all` goes through all entries. -/
theorem iterAll_perm (hne : ∀ e ∈ entries, e.2 ≠ []) (htables : ∀ e ∈ entries, e.1.length < tables)
    {entrySize : Bytes → ℕ} (hsize : Measures entrySize entries) :
    ∃ order, List.Forall₂ Reads ((built tables elems entries).iterAll entrySize) order ∧
      order.Perm entries := by
  refine ⟨(List.range tables).flatMap fun len => (List.range (maskOf elems len + 2)).flatMap
    fun i => (ofLength entries len).filter fun e => index (maskOf elems len) e.1 = i, ?_, ?_⟩
  · have hzip : (built tables elems entries).hashes.zipIdx =
        (List.range tables).map fun len =>
          (filled (maskOf elems len) (ofLength entries len), len) := by
      apply List.ext_getElem?
      intro len
      by_cases hlen : len < tables
      · simp [List.getElem?_zipIdx, built_table elems entries hlen, hlen]
      · simp [List.getElem?_zipIdx, built_no_table elems entries (Nat.not_lt.mp hlen), hlen]
    rw [iterAll, hzip, List.flatMap_map]
    apply List.rel_flatMap (List.forall₂_eq_eq_eq ▸ rfl)
    rintro len _ rfl
    exact filled_records (fun e he => (mem_ofLength.mp he).2)
      (fun e he => hne e (mem_ofLength.mp he).1) fun e he => hsize e (mem_ofLength.mp he).1
  · have htable : ∀ len, ((List.range (maskOf elems len + 2)).flatMap fun i =>
        (ofLength entries len).filter fun e => index (maskOf elems len) e.1 = i).Perm
          (ofLength entries len) := by
      intro len
      have hperm := @Buckets.flatMap_filter_perm _ (fun e : Bytes × Bytes =>
        index (maskOf elems len) e.1) (ofLength entries len) (maskOf elems len + 2)
      rw [List.filter_eq_self.mpr] at hperm
      · exact hperm
      · intro e he
        have hle := fits_maskOf elems len e.1 (mem_ofLength.mp he).2
        simp
        omega
    have hperm := @Buckets.flatMap_filter_perm _ (fun e : Bytes × Bytes => e.1.length) entries
      tables
    rw [List.filter_eq_self.mpr fun e he => decide_eq_true (htables e he)] at hperm
    exact (List.Perm.flatMap_left _ fun len _ => htable len).trans hperm

end Access

/-! ### Serialization -/

/-- The numbers of a table fit into four bytes. -/
structure Stored (h : FnvHash) : Prop where
  mask : h.mask = h.hash.length - 2
  size : h.hash.length < 256 ^ 4
  offsets : ∀ n ∈ h.hash, n < 256 ^ 4
  data : h.data.length < 256 ^ 4

/-- A table is saved and loaded. -/
theorem Stored.load_save {h : FnvHash} (hh : Stored h) :
    ∃ saved, h.save = some saved ∧ ∀ rest, FnvHash.load (saved ++ rest) = some (h, rest) := by
  refine ⟨toBytes 4 h.hash.length ++ addWords 4 h.hash ++ toBytes 4 h.data.length ++ h.data, ?_,
    fun rest => ?_⟩
  · rw [FnvHash.save, add4B, add_of_lt hh.size, add_of_lt hh.data]
    rfl
  · simp only [FnvHash.load, next4B, List.append_assoc, next_append hh.size, Option.bind_eq_bind,
      Option.bind_some, nextWords_append hh.offsets, next_append hh.data, nextBytes_append,
      ← hh.mask]
    rfl

/-- The tables are saved and loaded. -/
theorem load_save_hashes {hashes : List FnvHash} (hall : ∀ h ∈ hashes, Stored h) :
    ∃ saved, hashes.mapM FnvHash.save = some saved ∧
      ∀ rest, loadHashes hashes.length (saved.flatten ++ rest) = some (hashes, rest) := by
  induction hashes with
  | nil => exact ⟨[], rfl, fun _ => rfl⟩
  | cons h hashes ih =>
    obtain ⟨hh, hall⟩ := List.forall_mem_cons.mp hall
    obtain ⟨first, hfirst, hload⟩ := hh.load_save
    obtain ⟨saved, hsaved, hloads⟩ := ih hall
    refine ⟨first :: saved, by simp [hfirst, hsaved], fun rest => ?_⟩
    simp only [List.length_cons, loadHashes, List.flatten_cons, List.append_assoc, hload, hloads,
      Option.bind_eq_bind, Option.bind_some]
    rfl

/-- A map is saved and loaded. -/
theorem load_save {m : PersistentUnorderedMap} (hlength : m.hashes.length < 256 ^ 1)
    (hall : ∀ h ∈ m.hashes, Stored h) :
    ∃ saved, m.save = some saved ∧ ∀ rest, load (saved ++ rest) = some (m, rest) := by
  obtain ⟨saved, hsaved, hload⟩ := load_save_hashes hall
  refine ⟨toBytes 1 m.hashes.length ++ saved.flatten, ?_, fun rest => ?_⟩
  · rw [save, add1B, add_of_lt hlength, hsaved]
    rfl
  · simp only [load, next1B, List.append_assoc, next_append hlength, hload, Option.bind_eq_bind,
      Option.bind_some]
    rfl

/-! ### Faithful maps -/

/-- The map answers as the entries say. -/
structure Represents (m : PersistentUnorderedMap) (entries : List (Bytes × Bytes)) : Prop where
  at_mem : ∀ entrySize, Measures entrySize entries → ∀ e ∈ entries,
    ∃ more, m.entryAt e.1 entrySize = some (e.2 ++ more)
  at_not_mem : ∀ entrySize, Measures entrySize entries → ∀ str, (∀ e ∈ entries, e.1 ≠ str) →
    m.entryAt str entrySize = none
  typed_mem : ∀ size, (∀ e ∈ entries, e.2.length = size) → ∀ e ∈ entries,
    ∃ more, m.atTyped e.1 size = some (e.2 ++ more)
  typed_not_mem : ∀ size, (∀ e ∈ entries, e.2.length = size) → ∀ str, (∀ e ∈ entries, e.1 ≠ str) →
    m.atTyped str size = none
  iterAll : ∀ entrySize, Measures entrySize entries →
    ((m.iterAll entrySize).map fun r => (r.1, r.2.take (entrySize r.2))).Perm entries

/-- A map with tables for all keys answers as its entries say. -/
theorem built_represents {tables : ℕ} {elems : ℕ → ℕ} {entries : List (Bytes × Bytes)}
    (hkeys : (entries.map Prod.fst).Nodup) (hne : ∀ e ∈ entries, e.2 ≠ [])
    (htables : ∀ e ∈ entries, e.1.length < tables) :
    Represents (built tables elems entries) entries where
  at_mem entrySize hsize e he := entryAt_mem hkeys hne hsize he (htables e he)
  at_not_mem entrySize hsize str hstr := entryAt_not_mem hne hsize hstr
  typed_mem size hsize e he :=
    entryAt_mem hkeys hne (fun e he _ => (hsize e he).symm) he (htables e he)
  typed_not_mem size hsize str hstr := entryAt_not_mem hne (fun e he _ => (hsize e he).symm) hstr
  iterAll entrySize hsize := by
    obtain ⟨order, hreads, hperm⟩ := iterAll_perm hne htables hsize
    rw [map_reads hreads fun e he => hsize e (hperm.subset he)]
    exact hperm

/-- The order of the entries does not matter. -/
theorem Represents.perm {m : PersistentUnorderedMap} {entries entries' : List (Bytes × Bytes)}
    (h : Represents m entries) (hperm : entries.Perm entries') : Represents m entries' where
  at_mem entrySize hsize e he :=
    h.at_mem entrySize (fun f hf => hsize f (hperm.subset hf)) e (hperm.symm.subset he)
  at_not_mem entrySize hsize str hstr :=
    h.at_not_mem entrySize (fun f hf => hsize f (hperm.subset hf)) str
      fun e he => hstr e (hperm.subset he)
  typed_mem size hsize e he :=
    h.typed_mem size (fun f hf => hsize f (hperm.subset hf)) e (hperm.symm.subset he)
  typed_not_mem size hsize str hstr :=
    h.typed_not_mem size (fun f hf => hsize f (hperm.subset hf)) str
      fun e he => hstr e (hperm.subset he)
  iterAll entrySize hsize :=
    (h.iterAll entrySize fun f hf => hsize f (hperm.subset hf)).trans hperm

/-- A constructed map answers as its entries say. -/
theorem represents_construct {Entry : Type} {map : List (Bytes × Entry)} (loadFactor : ℕ → ℕ)
    {entryEncode : Entry → Bytes} (hkeys : (map.map Prod.fst).Nodup)
    (hne : ∀ e ∈ map, entryEncode e.2 ≠ []) :
    (construct map loadFactor entryEncode).Represents (map.map fun e => (e.1, entryEncode e.2)) := by
  obtain ⟨-, hlt, -⟩ := countSizes_spec (map.map Prod.fst)
  rw [construct_eq]
  apply built_represents
  · rw [List.map_map]
    exact hkeys
  · intro e he
    obtain ⟨f, hf, rfl⟩ := List.mem_map.mp he
    exact hne f hf
  · intro e he
    obtain ⟨f, hf, rfl⟩ := List.mem_map.mp he
    exact hlt f.1 (List.mem_map_of_mem hf)

/-- A map that is made of an unordered one represents it. -/
theorem represents_ofUnordered {Entry : Type} {map : List (Bytes × Entry)} (loadFactor : ℕ → ℕ)
    {entryEncode : Entry → Bytes} (hkeys : (map.map Prod.fst).Nodup)
    (hne : ∀ e ∈ map, entryEncode e.2 ≠ []) :
    (ofUnordered map loadFactor entryEncode).Represents
      (map.map fun e => (e.1, entryEncode e.2)) := by
  have hperm := List.mergeSort_perm map fun a b => decide (a.1 ≤ b.1)
  have hkeys' := (hperm.map Prod.fst).nodup_iff.mpr hkeys
  have hsorted := represents_construct loadFactor hkeys' fun e he => hne e (hperm.subset he)
  exact hsorted.perm (hperm.map _)

/-- The size of all records. -/
def totalSize (entries : List (Bytes × Bytes)) : ℕ :=
  (entries.map fun e => e.1.length + e.2.length).sum

/-- The data have the size of all records. -/
theorem length_filled_data {mask : ℕ} {items : List (Bytes × Bytes)}
    (hindex : ∀ e ∈ items, index mask e.1 ≤ mask) :
    (filled mask items).data.length = totalSize items := by
  have hperm := @Buckets.flatMap_filter_perm _ (fun e : Bytes × Bytes => index mask e.1) items
    (mask + 2)
  rw [List.filter_eq_self.mpr fun e he => decide_eq_true
    (Nat.lt_succ_of_le ((hindex e he).trans (Nat.le_succ _)))] at hperm
  have hdata : (filled mask items).data = ((List.range (mask + 2)).flatMap fun i =>
      items.filter fun e => index mask e.1 = i).flatMap record := by
    rw [List.flatMap_assoc]
    rfl
  rw [hdata, (hperm.flatMap_right record).length_eq, List.length_flatMap, totalSize]
  simp only [record, List.length_append]

/-- The counts of the first pass over a table sum up to the size of its records. -/
theorem sum_hash_foldl_add (num : ℕ) {items : List (Bytes × Bytes)}
    (hindex : ∀ e ∈ items, index (new num).mask e.1 ≤ (new num).mask) :
    (items.foldl (fun h e => h.add e.1 e.2.length) (new num)).hash.sum = totalSize items := by
  obtain ⟨-, hhash⟩ := new_spec num
  have hcounts := @Buckets.foldl_count_replicate _ _ (fun e : Bytes × Bytes => index (new num).mask
    e.1) record items ((new num).mask + 2)
  rw [← length_filled_data hindex, foldl_add, hhash, hcounts, filled, List.length_flatMap]

/-- The sizes of the tables can be summed if those of the records of each length can. -/
theorem summed_foldl_add_iff (tables : ℕ) (elems : ℕ → ℕ) (entries : List (Bytes × Bytes)) :
    (entries.foldl (fun m e => add m e.1 e.2.length)
      ⟨(List.range tables).map fun len => FnvHash.new (capacity elems len)⟩).Summed ↔
      ∀ len < tables, totalSize (ofLength entries len) < 2 ^ 31 := by
  have hsum : ∀ len, ((ofLength entries len).foldl (fun h e => h.add e.1 e.2.length)
      (FnvHash.new (capacity elems len))).hash.sum = totalSize (ofLength entries len) :=
    fun len => sum_hash_foldl_add (capacity elems len)
      fun e he => fits_maskOf elems len e.1 (mem_ofLength.mp he).2
  have htable : ∀ len, (entries.foldl (fun m e => add m e.1 e.2.length)
      ⟨(List.range tables).map fun len => FnvHash.new (capacity elems len)⟩).hashes[len]? =
        if len < tables then some ((ofLength entries len).foldl (fun h e => h.add e.1 e.2.length)
          (FnvHash.new (capacity elems len))) else none := by
    intro len
    have hadd := foldl_hashes (fun e h => h.add e.1 e.2.length) entries
    simp only [add]
    rw [hadd]
    dsimp only
    rw [Buckets.foldl_modify (fun (e : Bytes × Bytes) (h : FnvHash) => h.add e.1 e.2.length),
      List.getElem?_map]
    split
    · next hlt =>
      rw [List.getElem?_range hlt]
      rfl
    · next hge =>
      rw [List.getElem?_eq_none (by rw [List.length_range]; exact Nat.not_lt.mp hge)]
      rfl
  constructor
  · intro hsummed len hlen
    rw [← hsum]
    exact hsummed _ (List.mem_of_getElem? ((htable len).trans (if_pos hlen)))
  · intro hsizes table hmem
    obtain ⟨len, hlen⟩ := List.mem_iff_getElem?.mp hmem
    rw [htable] at hlen
    split at hlen
    · next hlt =>
      rw [← Option.some.inj hlen, hsum]
      exact hsizes len hlt
    · cases hlen

/-- The records of a length are some of all records. -/
theorem totalSize_ofLength_le (entries : List (Bytes × Bytes)) (len : ℕ) :
    totalSize (ofLength entries len) ≤ totalSize entries :=
  (List.filter_sublist.map _).sum_le_sum fun _ _ => Nat.zero_le _

/-- There are not more keys of a length than strings of it. -/
theorem length_ofLength_le {entries : List (Bytes × Bytes)} (hkeys : (entries.map Prod.fst).Nodup)
    (len : ℕ) : (ofLength entries len).length ≤ 256 ^ len := by
  have hnodup : ((ofLength entries len).map fun e => word e.1).Nodup := by
    have hsub : ((ofLength entries len).map Prod.fst).Nodup :=
      hkeys.sublist (List.filter_sublist.map _)
    have hmap := hsub.map_on (f := word) (by
      intro s hs t ht heq
      obtain ⟨e, he, rfl⟩ := List.mem_map.mp hs
      obtain ⟨f, hf, rfl⟩ := List.mem_map.mp ht
      exact word_injective ((mem_ofLength.mp he).2.trans (mem_ofLength.mp hf).2.symm) heq)
    simpa [Function.comp_def] using hmap
  have hsubset : ((ofLength entries len).map fun e => word e.1) ⊆ List.range (256 ^ len) := by
    intro n hn
    obtain ⟨e, he, rfl⟩ := List.mem_map.mp hn
    have hlt := word_lt e.1
    rw [(mem_ofLength.mp he).2] at hlt
    exact List.mem_range.mpr hlt
  have hle := (hnodup.subperm hsubset).length_le
  rwa [List.length_map, List.length_range] at hle

/-- The number of keys of a length, in the size of all records. -/
theorem length_ofLength_mul_le {entries : List (Bytes × Bytes)} (hne : ∀ e ∈ entries, e.2 ≠ [])
    (len : ℕ) : (ofLength entries len).length * (len + 1) ≤ totalSize entries := by
  apply le_trans _ (totalSize_ofLength_le entries len)
  have hsum := List.card_nsmul_le_sum ((ofLength entries len).map fun e => e.1.length + e.2.length)
    (len + 1) (by
      intro n hn
      obtain ⟨e, he, rfl⟩ := List.mem_map.mp hn
      obtain ⟨hmem, hlen⟩ := mem_ofLength.mp he
      have hpos := List.length_pos_of_ne_nil (hne e hmem)
      omega)
  simpa [totalSize] using hsum

/-- No table gets too large. -/
theorem capacity_le {entries : List (Bytes × Bytes)} (hkeys : (entries.map Prod.fst).Nodup)
    (hne : ∀ e ∈ entries, e.2 ≠ []) (hsize : totalSize entries < 2 ^ 31) {loadFactor : ℕ → ℕ}
    (hload : ∀ size, loadFactor size ≤ 5 * size) (len : ℕ) :
    capacity (fun len => loadFactor (ofLength entries len).length) len ≤ 2 ^ 31 := by
  match len with
  | 0 | 1 | 2 => simp [capacity]
  | 3 =>
    have hle := hload (ofLength entries 3).length
    have hcount := length_ofLength_le hkeys 3
    rw [capacity]
    · omega
    all_goals omega
  | len + 4 =>
    have hle := hload (ofLength entries (len + 4)).length
    have hcount := length_ofLength_mul_le hne (len + 4)
    have hmul : (ofLength entries (len + 4)).length * 5 ≤
        (ofLength entries (len + 4)).length * (len + 4 + 1) := Nat.mul_le_mul_left _ (by omega)
    rw [capacity]
    · omega
    all_goals omega

/-- No offset of a table is behind its data. -/
theorem filled_offset_le (mask : ℕ) (items : List (Bytes × Bytes)) :
    ∀ n ∈ (filled mask items).hash, n ≤ (filled mask items).data.length := by
  intro n hn
  obtain ⟨i, hi, rfl⟩ := List.mem_map.mp hn
  have hsplit := @Buckets.flatMap_range_split _ (mask + 2) i (List.mem_range.mp hi)
    (Buckets.bucket (fun e : Bytes × Bytes => index mask e.1) record items)
  rw [filled, hsplit, Buckets.start, List.length_append, List.length_append]
  omega

/-- A filled table has its number of places. -/
@[simp] theorem length_filled_hash (mask : ℕ) (items : List (Bytes × Bytes)) :
    (filled mask items).hash.length = mask + 2 := by simp [filled]

/-- The tables can be saved. -/
theorem built_stored {tables : ℕ} {elems : ℕ → ℕ} {entries : List (Bytes × Bytes)}
    (hsize : totalSize entries < 2 ^ 31) (hcapacity : ∀ len, capacity elems len ≤ 2 ^ 31) :
    ∀ h ∈ (built tables elems entries).hashes, Stored h := by
  intro h hh
  obtain ⟨len, -, rfl⟩ := List.mem_map.mp hh
  have hindex : ∀ e ∈ ofLength entries len, index (maskOf elems len) e.1 ≤ maskOf elems len :=
    fun e he => fits_maskOf elems len e.1 (mem_ofLength.mp he).2
  have hdata := length_filled_data hindex
  have htotal := totalSize_ofLength_le entries len
  have hlength := length_filled_hash (maskOf elems len) (ofLength entries len)
  have hmask : maskOf elems len < 2 ^ 31 := by
    have hgrow := @growMask_le (capacity elems len) 31 0 (capacity elems len) (by decide)
      (hcapacity len)
    have hpos := (@growMask_spec (capacity elems len) (capacity elems len) 1 le_rfl
      (Nat.le_add_left _ _)).1
    rw [Nat.pow_zero] at hgrow
    rw [maskOf, new]
    simp only
    omega
  refine ⟨by rw [hlength]; rfl, by omega, fun n hn => ?_, by omega⟩
  have hle := filled_offset_le _ _ n hn
  omega

/-- A constructed map can be saved. The load factor is at most five, which is the largest
one in use. -/
theorem construct_stored {Entry : Type} (map : List (Bytes × Entry)) (entryEncode : Entry → Bytes)
    (loadFactor : ℕ → ℕ) (hkeys : (map.map Prod.fst).Nodup)
    (hlength : ∀ e ∈ map, e.1.length ≤ 254) (hne : ∀ e ∈ map, entryEncode e.2 ≠ [])
    (hsize : totalSize (map.map fun e => (e.1, entryEncode e.2)) < 2 ^ 31)
    (hload : ∀ size, loadFactor size ≤ 5 * size) :
    (construct map loadFactor entryEncode).hashes.length < 256 ^ 1 ∧
      ∀ h ∈ (construct map loadFactor entryEncode).hashes, Stored h := by
  obtain ⟨entries, hentries⟩ : ∃ entries, entries = map.map fun e => (e.1, entryEncode e.2) :=
    ⟨_, rfl⟩
  have hfst : map.map Prod.fst = entries.map Prod.fst := by simp [hentries]
  obtain ⟨-, -, hlast⟩ := countSizes_spec (map.map Prod.fst)
  have hcount : (fun len => loadFactor ((map.map Prod.fst).countP fun key => key.length = len)) =
      fun len => loadFactor (ofLength entries len).length := by
    funext len
    rw [hfst, List.countP_map, ofLength, List.countP_eq_length_filter]
    rfl
  rw [construct_eq, hcount, ← hentries]
  rw [← hentries] at hsize
  rw [hfst] at hkeys
  have hne' : ∀ e ∈ entries, e.2 ≠ [] := by
    intro e he
    rw [hentries] at he
    obtain ⟨f, hf, rfl⟩ := List.mem_map.mp he
    exact hne f hf
  have hbound : (countSizes (map.map Prod.fst)).length < 256 ^ 1 := by
    cases hn : (countSizes (map.map Prod.fst)).length with
    | zero => decide
    | succ n =>
      obtain ⟨key, hkey, rfl⟩ := hlast n hn
      obtain ⟨e, he, rfl⟩ := List.mem_map.mp hkey
      have hle := hlength e he
      omega
  exact ⟨by simpa [built] using hbound, built_stored hsize (capacity_le hkeys hne' hsize hload)⟩

/-- A map that is constructed, saved and loaded answers as its entries say. The load factor
is at most five, which is the largest one in use. -/
theorem construct_represents {Entry : Type} (map : List (Bytes × Entry))
    (entryEncode : Entry → Bytes) (loadFactor : ℕ → ℕ) (hkeys : (map.map Prod.fst).Nodup)
    (hlength : ∀ e ∈ map, e.1.length ≤ 254) (hne : ∀ e ∈ map, entryEncode e.2 ≠ [])
    (hsize : totalSize (map.map fun e => (e.1, entryEncode e.2)) < 2 ^ 31)
    (hload : ∀ size, loadFactor size ≤ 5 * size) :
    ∃ saved, (construct map loadFactor entryEncode).save = some saved ∧
      ∀ rest, ∃ loaded, load (saved ++ rest) = some (loaded, rest) ∧
        loaded.Represents (map.map fun e => (e.1, entryEncode e.2)) := by
  obtain ⟨hbound, hstored⟩ :=
    construct_stored map entryEncode loadFactor hkeys hlength hne hsize hload
  obtain ⟨saved, hsaved, hloaded⟩ := load_save hbound hstored
  exact ⟨saved, hsaved, fun rest => ⟨_, hloaded rest, represents_construct loadFactor hkeys hne⟩⟩

/-- A map with an empty, a short and two longer keys. -/
theorem construct_represents_four :
    ∃ saved, (construct [(bytes "", 7), (bytes "a", 300), (bytes "abc", 0), (bytes "bca", 65535)]
        (fun size => size) (toBytes 2)).save = some saved ∧
      ∀ rest, ∃ loaded, load (saved ++ rest) = some (loaded, rest) ∧
        loaded.Represents [(bytes "", [7, 0]), (bytes "a", [44, 1]), (bytes "abc", [0, 0]),
          (bytes "bca", [255, 255])] :=
  construct_represents _ (toBytes 2) (fun size => size) (by decide) (by decide) (by decide)
    (by decide) fun size => by omega

end PersistentUnorderedMap

end UDPipe.Morphodita
