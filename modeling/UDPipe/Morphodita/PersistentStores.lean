import UDPipe.Library.Layout
import UDPipe.Morphodita.PersistentLookup

/-!
# Pointers into a persistent map

A map whose entries are filled can be changed through the pointers that `at` returns. A pointer
is the length of its key and a position in the data of the table for this length. Entries are
overwritten in place, so the records stay where they are.
-/

namespace UDPipe.Morphodita

namespace PersistentUnorderedMap

/-! ### Loads and stores -/

/-- The data that `data_start` points to. -/
def dataStart (m : PersistentUnorderedMap) (len : ℕ) : Bytes :=
  (m.hashes[len]?.map FnvHash.data).getD []

/-- The pointer that `at` returns, as a position in the data of its table. -/
def position (m : PersistentUnorderedMap) (str : Bytes) (entrySize : Bytes → ℕ) : Option ℕ :=
  (m.entryAt str entrySize).map fun entry => (m.dataStart str.length).length - entry.length

/-- The number at a position of a table. -/
def loadAt (m : PersistentUnorderedMap) (size len pos : ℕ) : ℕ :=
  unalignedLoad size ((m.dataStart len).drop pos)

/-- Bytes stored at a position of a table. -/
def storeAt (m : PersistentUnorderedMap) (len pos : ℕ) (cells : Bytes) : PersistentUnorderedMap :=
  ⟨m.hashes.modify len fun h => { h with data := Buckets.write h.data pos cells }⟩

end PersistentUnorderedMap

namespace FnvHash

/-! ### The records of a table -/

/-- The items of a filled table in the order of their records. -/
def order (mask : ℕ) (items : List (Bytes × Bytes)) : List (Bytes × Bytes) :=
  (List.range (mask + 2)).flatMap fun i => items.filter fun e => index mask e.1 = i

/-- The data are the records in their order. -/
theorem flat_order (mask : ℕ) (items : List (Bytes × Bytes)) :
    (filled mask items).data = Layout.flat (order mask items) := by
  rw [filled, Layout.flat, order, List.flatMap_assoc]
  rfl

/-- The records in their order are all of them. -/
theorem order_perm {mask : ℕ} {items : List (Bytes × Bytes)}
    (hindex : ∀ e ∈ items, index mask e.1 ≤ mask) : (order mask items).Perm items := by
  have hperm := @Buckets.flatMap_filter_perm _ (fun e : Bytes × Bytes => index mask e.1) items
    (mask + 2)
  rwa [List.filter_eq_self.mpr fun e he => decide_eq_true
    (Nat.lt_succ_of_le ((hindex e he).trans (Nat.le_succ _)))] at hperm

/-- The order depends on the keys only. -/
theorem order_map {mask : ℕ} {items : List (Bytes × Bytes)} {g : Bytes × Bytes → Bytes × Bytes}
    (hkey : ∀ e ∈ items, (g e).1 = e.1) :
    order mask (items.map g) = (order mask items).map g := by
  rw [order, order, List.map_flatMap]
  apply List.flatMap_congr
  intro i _
  rw [List.filter_map]
  congr 1
  apply List.filter_congr
  intro e he
  rw [Function.comp_apply, hkey e he]

/-- The bucket of a key begins behind the records with smaller indices. -/
theorem offset_order {mask : ℕ} {items : List (Bytes × Bytes)} {str : Bytes}
    (hstr : index mask str ≤ mask) (hmem : str ∈ items.map Prod.fst) :
    Layout.offset (order mask items) str =
      Buckets.start (fun e => index mask e.1) record items (index mask str) +
        Layout.offset (items.filter fun e => index mask e.1 = index mask str) str := by
  have hsplit := @Buckets.flatMap_range_split _ (mask + 2) (index mask str) (by omega)
    fun i => items.filter fun e => index mask e.1 = i
  have hbefore : ∀ e ∈ (List.range (index mask str)).flatMap fun i =>
      items.filter fun e => index mask e.1 = i, e.1 ≠ str := by
    rintro e he rfl
    obtain ⟨i, hi, he⟩ := List.mem_flatMap.mp he
    have hindex := (List.mem_filter.mp he).2
    rw [decide_eq_true_eq] at hindex
    have hlt := List.mem_range.mp hi
    omega
  have hgroup : str ∈ (items.filter fun e => index mask e.1 = index mask str).map Prod.fst := by
    obtain ⟨e, he, rfl⟩ := List.mem_map.mp hmem
    exact List.mem_map_of_mem (List.mem_filter.mpr ⟨he, decide_eq_true rfl⟩)
  have hstart : (Layout.flat ((List.range (index mask str)).flatMap fun i =>
      items.filter fun e => index mask e.1 = i)).length =
        Buckets.start (fun e => index mask e.1) record items (index mask str) := by
    rw [Layout.flat, List.flatMap_assoc]
    rfl
  rw [order, hsplit, List.append_assoc, Layout.offset_append hbefore,
    Layout.offset_append_of_mem hgroup, hstart]

/-- The loop of `at` stops at the record of the key. -/
theorem scan_offset (h : FnvHash) {str : Bytes} {entrySize : Bytes → ℕ}
    {items : List (Bytes × Bytes)} (hlen : ∀ e ∈ items, e.1.length = str.length)
    (hne : ∀ e ∈ items, e.2 ≠ []) (hsize : Measures entrySize items) {fuel pos stop : ℕ}
    {rest : Bytes} (hdata : h.data.drop pos = Layout.flat items ++ rest)
    (hstop : stop = pos + (Layout.flat items).length) (hfuel : items.length ≤ fuel)
    (hmem : str ∈ items.map Prod.fst) :
    h.scan str entrySize stop fuel pos =
      some (h.data.drop (pos + Layout.offset items str + str.length)) := by
  induction items generalizing fuel pos with
  | nil => cases hmem
  | cons e items ih =>
    obtain ⟨hlen, hlens⟩ := List.forall_mem_cons.mp hlen
    obtain ⟨hne, hnes⟩ := List.forall_mem_cons.mp hne
    obtain ⟨fuel, rfl⟩ : ∃ k, fuel = k + 1 := ⟨fuel - 1, by rw [List.length_cons] at hfuel; omega⟩
    have hpos := List.length_pos_of_ne_nil hne
    rw [Layout.flat_cons, List.append_assoc, List.append_assoc] at hdata
    have hlength : (Layout.flat (e :: items)).length =
        str.length + e.2.length + (Layout.flat items).length := by
      rw [Layout.flat_cons, List.length_append, List.length_append, hlen, Nat.add_assoc]
    have hkey : (h.data.drop pos).take str.length = e.1 := by rw [hdata, List.take_left' hlen]
    have hentry : h.data.drop (pos + str.length) = e.2 ++ (Layout.flat items ++ rest) := by
      rw [← List.drop_drop, hdata, List.drop_left' hlen]
    have hnext : h.data.drop (pos + str.length + e.2.length) = Layout.flat items ++ rest := by
      rw [← List.drop_drop, hentry, List.drop_left]
    rw [scan, if_pos (by omega)]
    simp only [hkey]
    by_cases heq : e.1 = str
    · rw [if_pos heq, Layout.offset, List.takeWhile_cons_of_neg (by simpa using heq)]
      rfl
    · have hmem' : str ∈ items.map Prod.fst := by
        rw [List.map_cons, List.mem_cons] at hmem
        exact hmem.resolve_left (Ne.symm heq)
      have hmeasure := hsize e List.mem_cons_self (Layout.flat items ++ rest)
      have hoffset : Layout.offset (e :: items) str =
          str.length + e.2.length + Layout.offset items str := by
        rw [Layout.offset, List.takeWhile_cons_of_pos (by simpa using heq), Layout.flat_cons,
          List.length_append, List.length_append, hlen, Nat.add_assoc]
        rfl
      rw [if_neg heq, hentry, hmeasure, ih hlens hnes
        (fun e he => hsize e (List.mem_cons_of_mem _ he)) hnext (by omega) (by simpa using hfuel)
        hmem', hoffset]
      congr 2
      omega

/-- A chain begins at the start of its bucket. -/
theorem filled_chain_fst {mask : ℕ} (items : List (Bytes × Bytes)) {str : Bytes}
    (hstr : index mask str ≤ mask) : ((filled mask items).chain str).1 =
      Buckets.start (fun e => index mask e.1) record items (index mask str) := by
  have hlt : index mask str < mask + 2 := by omega
  rw [chain, filled]
  simp [hlt]

/-- Where a bucket begins depends on the lengths of the entries only. -/
theorem start_map {mask : ℕ} {items : List (Bytes × Bytes)} {g : Bytes × Bytes → Bytes × Bytes}
    (hkey : ∀ e, (g e).1 = e.1) (hlength : ∀ e ∈ items, (g e).2.length = e.2.length) (i : ℕ) :
    Buckets.start (fun e => index mask e.1) record (items.map g) i =
      Buckets.start (fun e => index mask e.1) record items i := by
  rw [Buckets.start, Buckets.start, List.length_flatMap, List.length_flatMap]
  congr 1
  apply List.map_congr_left
  intro j _
  have hfilter : (items.map g).filter (fun e => index mask e.1 = j) =
      (items.filter fun e => index mask e.1 = j).map g := by
    rw [List.filter_map]
    congr 1
    apply List.filter_congr
    intro e _
    rw [Function.comp_apply, hkey e]
  rw [Buckets.bucket, Buckets.bucket, hfilter, List.flatMap_map, List.length_flatMap,
    List.length_flatMap]
  congr 1
  apply List.map_congr_left
  intro e he
  rw [record, record, List.length_append, List.length_append, hkey e,
    hlength e (List.mem_filter.mp he).1]

/-- A table with entries of the same lengths. -/
theorem filled_map {mask : ℕ} {items : List (Bytes × Bytes)} {g : Bytes × Bytes → Bytes × Bytes}
    (hkey : ∀ e, (g e).1 = e.1) (hlength : ∀ e ∈ items, (g e).2.length = e.2.length) :
    filled mask (items.map g) =
      { filled mask items with data := Layout.flat ((order mask items).map g) } := by
  rw [← order_map fun e _ => hkey e, ← flat_order, filled, filled]
  congr 1
  apply List.map_congr_left
  exact fun i _ => start_map hkey hlength i

end FnvHash

namespace PersistentUnorderedMap

open FnvHash

/-! ### Records of a filled map -/

variable {tables : ℕ} {elems : ℕ → ℕ} {entries : List (Bytes × Bytes)}

/-- The records of the keys of one length in their order. -/
def ordered (elems : ℕ → ℕ) (entries : List (Bytes × Bytes)) (len : ℕ) : List (Bytes × Bytes) :=
  order (maskOf elems len) (ofLength entries len)

/-- Where the record of a key begins in its table. -/
def recordOffset (elems : ℕ → ℕ) (entries : List (Bytes × Bytes)) (key : Bytes) : ℕ :=
  Layout.offset (ordered elems entries key.length) key

/-- The records of a length are the entries of the length. -/
theorem ordered_perm (elems : ℕ → ℕ) (entries : List (Bytes × Bytes)) (len : ℕ) :
    (ordered elems entries len).Perm (ofLength entries len) :=
  order_perm fun e he => fits_maskOf elems len e.1 (mem_ofLength.mp he).2

/-- The data of a length are its records. -/
theorem dataStart_built {len : ℕ} (hlen : len < tables) :
    (built tables elems entries).dataStart len = Layout.flat (ordered elems entries len) := by
  rw [dataStart, built_table elems entries hlen, Option.map_some, Option.getD_some, flat_order]
  rfl

/-- An entry is among those of its length. -/
theorem mem_ordered {key entry : Bytes} (he : (key, entry) ∈ entries) :
    (key, entry) ∈ ordered elems entries key.length :=
  (ordered_perm elems entries key.length).mem_iff.mpr (mem_ofLength.mpr ⟨he, rfl⟩)

/-- The records of a length have different keys. -/
theorem nodup_ordered (elems : ℕ → ℕ) (hkeys : (entries.map Prod.fst).Nodup) (len : ℕ) :
    ((ordered elems entries len).map Prod.fst).Nodup :=
  ((ordered_perm elems entries len).map Prod.fst).nodup_iff.mpr
    (hkeys.sublist (List.filter_sublist.map Prod.fst))

/-- A record begins within the size of all records. -/
theorem recordOffset_le (elems : ℕ → ℕ) (hkeys : (entries.map Prod.fst).Nodup) {key entry : Bytes}
    (he : (key, entry) ∈ entries) : recordOffset elems entries key ≤ totalSize entries := by
  have hle : recordOffset elems entries key + key.length + entry.length ≤
      (Layout.flat (ordered elems entries key.length)).length :=
    Layout.offset_le (mem_ordered he) (nodup_ordered elems hkeys key.length)
  rw [ordered, ← flat_order, length_filled_data fun f hf =>
    fits_maskOf elems key.length f.1 (mem_ofLength.mp hf).2] at hle
  have hsize := totalSize_ofLength_le entries key.length
  omega

/-- The data from a record on. -/
theorem drop_recordOffset (elems : ℕ → ℕ) (hkeys : (entries.map Prod.fst).Nodup) {key entry : Bytes}
    (he : (key, entry) ∈ entries) (htable : key.length < tables) :
    ∃ rest, ((built tables elems entries).dataStart key.length).drop
      (recordOffset elems entries key) = key ++ (entry ++ rest) := by
  rw [dataStart_built htable]
  exact Layout.drop_offset (mem_ordered he) (nodup_ordered elems hkeys key.length)

/-- Loading at a record loads from its entry. -/
theorem loadAt_built (elems : ℕ → ℕ) (hkeys : (entries.map Prod.fst).Nodup) {key entry : Bytes}
    (he : (key, entry) ∈ entries) (htable : key.length < tables) (size pos : ℕ) :
    ∃ rest, (built tables elems entries).loadAt size key.length
      (recordOffset elems entries key + key.length + pos) =
        unalignedLoad size ((entry ++ rest).drop pos) := by
  obtain ⟨rest, hrest⟩ := drop_recordOffset elems hkeys he htable
  refine ⟨rest, ?_⟩
  rw [loadAt, ← List.drop_drop, ← List.drop_drop, hrest, List.drop_left]

/-- The method `at` points behind the key of the record. -/
theorem entryAt_built (elems : ℕ → ℕ) (hne : ∀ e ∈ entries, e.2 ≠ []) {entrySize : Bytes → ℕ}
    (hsize : Measures entrySize entries) {key entry : Bytes} (he : (key, entry) ∈ entries)
    (htable : key.length < tables) :
    (built tables elems entries).entryAt key entrySize =
      some (((built tables elems entries).dataStart key.length).drop
        (recordOffset elems entries key + key.length)) := by
  obtain ⟨h, hh⟩ : ∃ h, h = filled (maskOf elems key.length) (ofLength entries key.length) :=
    ⟨_, rfl⟩
  have hfits := fits_maskOf elems key.length key rfl
  have hdataStart : (built tables elems entries).dataStart key.length = h.data := by
    rw [dataStart, built_table elems entries htable, ← hh]
    rfl
  obtain ⟨start, rest, hchain, hdata⟩ := filled_chain (ofLength entries key.length) hfits
  have hstart := filled_chain_fst (ofLength entries key.length) hfits
  rw [hchain] at hstart
  have hmem : key ∈ (ofLength entries key.length).map Prod.fst :=
    List.mem_map_of_mem (mem_ofLength.mpr ⟨he, rfl⟩)
  have hself : (key, entry) ∈ group elems entries key := @self_mem_group _ _ (key, entry) he
  have hoffset : recordOffset elems entries key =
      start + Layout.offset (group elems entries key) key := by
    rw [recordOffset, ordered, offset_order hfits hmem, ← hstart]
    rfl
  have hpos : 0 < ((group elems entries key).flatMap record).length :=
    lt_of_lt_of_le (List.length_pos_of_mem hself)
      (length_le_flatMap_record fun f hf => hne f (mem_group.mp hf).1)
  rw [← hh] at hchain hdata
  rw [entryAt, built_table elems entries htable, ← hh]
  simp only
  rw [hchain, hdataStart, hoffset]
  split
  · rename_i hshort
    have hzero : Layout.offset (group elems entries key) key = 0 := by
      obtain ⟨f, more, hgroup⟩ := List.exists_cons_of_ne_nil (List.ne_nil_of_mem hself)
      have hf : f.1 = key := eq_of_mem_group hshort (hgroup ▸ List.mem_cons_self)
      rw [hgroup, Layout.offset, List.takeWhile_cons_of_neg (by simpa using hf)]
      rfl
    rw [if_pos (by rw [group] at hpos; omega), hzero, Nat.add_zero]
  · have hlength : (group elems entries key).length ≤ h.data.length := by
      have hle := @length_le_flatMap_record (group elems entries key)
        fun f hf => hne f (mem_group.mp hf).1
      have hlengths := congrArg List.length hdata
      rw [List.length_drop, List.length_append] at hlengths
      rw [group] at hle ⊢
      omega
    exact scan_offset h (fun f hf => (mem_group.mp hf).2.1) (fun f hf => hne f (mem_group.mp hf).1)
      (fun f hf => hsize f (mem_group.mp hf).1) hdata rfl hlength (List.mem_map_of_mem hself)

/-- The pointer to an entry is right behind the key of its record. -/
theorem position_built (elems : ℕ → ℕ) (hkeys : (entries.map Prod.fst).Nodup)
    (hne : ∀ e ∈ entries, e.2 ≠ []) {entrySize : Bytes → ℕ} (hsize : Measures entrySize entries)
    {key entry : Bytes} (he : (key, entry) ∈ entries) (htable : key.length < tables) :
    (built tables elems entries).position key entrySize =
      some (recordOffset elems entries key + key.length) := by
  have hle := Layout.offset_le (mem_ordered he) (nodup_ordered elems hkeys key.length)
  rw [position, entryAt_built elems hne hsize he htable, Option.map_some, List.length_drop,
    dataStart_built htable]
  simp only [recordOffset] at hle ⊢
  congr 1
  omega

/-- Changing entries does not change their lengths. -/
theorem ofLength_map {g : Bytes × Bytes → Bytes × Bytes} (hkey : ∀ e, (g e).1 = e.1)
    (entries : List (Bytes × Bytes)) (len : ℕ) :
    ofLength (entries.map g) len = (ofLength entries len).map g := by
  rw [ofLength, ofLength, List.filter_map]
  congr 1
  apply List.filter_congr
  intro e _
  rw [Function.comp_apply, hkey e]

/-- A store into an entry overwrites the entry. -/
theorem storeAt_built (elems : ℕ → ℕ) (hkeys : (entries.map Prod.fst).Nodup)
    {key entry : Bytes} (he : (key, entry) ∈ entries) (tables : ℕ) {pos : ℕ} {cells : Bytes}
    (hpos : pos + cells.length ≤ entry.length) :
    (built tables elems entries).storeAt key.length
      (recordOffset elems entries key + key.length + pos) cells =
        built tables elems (entries.map (Layout.overwrite key pos cells)) := by
  obtain ⟨g, hg⟩ : ∃ g, g = Layout.overwrite key pos cells := ⟨_, rfl⟩
  have hgkey (e : Bytes × Bytes) : (g e).1 = e.1 := by
    rw [hg, Layout.overwrite]
    split <;> rfl
  have hglength : ∀ e ∈ entries, (g e).2.length = e.2.length := by
    intro e hmem
    rw [hg, Layout.overwrite]
    split
    · next heq =>
      obtain rfl : e = (key, entry) := List.inj_on_of_nodup_map hkeys hmem he heq
      exact Layout.length_write hpos
    · rfl
  rw [← hg, storeAt, built, built]
  congr 1
  apply List.ext_getElem?
  intro len
  rw [List.getElem?_modify, List.getElem?_map, List.getElem?_map]
  by_cases hlen : len < tables
  · have hlength' : ∀ e ∈ ofLength entries len, (g e).2.length = e.2.length :=
      fun e he => hglength e (mem_ofLength.mp he).1
    rw [List.getElem?_range hlen, Option.map_some, Option.map_some, ofLength_map hgkey]
    by_cases heq : key.length = len
    · subst heq
      have hwrite := Layout.write_flat (@mem_ordered elems entries _ _ he)
        (nodup_ordered elems hkeys key.length) hpos
      rw [filled_map hgkey hlength', hg]
      simp only [if_true, Option.map_eq_map, Option.map_some, flat_order]
      exact congrArg (fun data => some (FnvHash.mk _ _ data)) hwrite
    · have hkeep : (ofLength entries len).map g = ofLength entries len := by
        apply (List.map_congr_left (g := id) ?_).trans (List.map_id _)
        intro e hmem
        rw [hg]
        apply if_neg
        rintro rfl
        exact heq (mem_ofLength.mp hmem).2
      rw [hkeep]
      simp only [if_neg heq]
      rfl
  · rw [List.getElem?_eq_none (by simpa using hlen)]
    rfl

end PersistentUnorderedMap

end UDPipe.Morphodita
