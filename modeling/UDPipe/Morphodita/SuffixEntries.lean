import UDPipe.BinaryCoder
import UDPipe.Library.Associations
import UDPipe.Library.LowerBound
import Mathlib.Algebra.BigOperators.Group.List.Basic

/-!
# The entries of the suffixes

For every suffix the dictionary keeps the classes that have it, each with its tags: the
number of the classes, their sorted ids, the offsets of their tags and the tags. The
offsets are stored in two bytes and wrap around. Loading takes their differences, so it
finds the tags of every class; analyzing takes them as they are.
-/

namespace UDPipe.Morphodita

/-- The classes of a suffix with their tags: a `map<int, vector<int>>`. A class has a tag
only once. -/
structure SuffixClasses where
  classes : List (ℕ × List ℕ)
  sorted : (classes.map Prod.fst).Pairwise (· < ·)
  nodup : ∀ clas ∈ classes, clas.2.Nodup

namespace SuffixClasses

/-- The numbers of the classes. -/
def ids (suffix : SuffixClasses) : List ℕ := suffix.classes.map Prod.fst

/-- The numbers of tags of the classes. -/
def sizes (suffix : SuffixClasses) : List ℕ := suffix.classes.map fun clas => clas.2.length

/-- The number of all tags of the entry. -/
def total (suffix : SuffixClasses) : ℕ := suffix.sizes.sum

end SuffixClasses

/-! ### Encoding -/

/-- The offset `tags` in two bytes, which fails after a class with too many tags. -/
def encodeIndex (tags prevTags : ℕ) : Option Bytes :=
  add2B (if tags - prevTags < 2 ^ 16 then tags % 2 ^ 16 else tags)

/-- The loop over the offsets, and the one behind it. -/
def encodeIndices : List (ℕ × List ℕ) → ℕ → ℕ → Option Bytes
  | [], tags, prevTags => encodeIndex tags prevTags
  | clas :: rest, tags, prevTags => do
    let index ← encodeIndex tags prevTags
    let indices ← encodeIndices rest (tags + clas.2.length) tags
    return index ++ indices

/-- The encoder of the entries in `dictionary::encode`. -/
def SuffixClasses.encode (suffix : SuffixClasses) : Option Bytes := do
  let size ← add2B suffix.classes.length
  let ids ← suffix.classes.mapM fun clas => add2B clas.1
  let indices ← encodeIndices suffix.classes 0 0
  let tags ← (suffix.classes.flatMap Prod.snd).mapM add2B
  return size ++ ids.flatten ++ indices ++ tags.flatten

/-! ### Decoding -/

/-- How far the decoder of the lookup in `analyze` gets over an entry. -/
def suffixEntrySize (data : Bytes) : ℕ :=
  let classes := unalignedLoad 2 data
  2 + 2 * (2 * classes) + (2 + 2 * unalignedLoad 2 (data.drop (2 + 2 * (2 * classes))))

/-- The first tag and the end of the tags that `analyze` reads for a class. -/
def analyzedRange (data : Bytes) (rootClass : ℕ) : Option (ℕ × ℕ) :=
  let suffClasses := unalignedLoad 2 data
  let suffData := words 2 suffClasses (data.drop 2)
  let suffTagIndices := words 2 (suffClasses + 1) (data.drop (2 + 2 * suffClasses))
  let i := lowerBound (fun k => (suffData[k]?.map fun clas => decide (clas < rootClass)).getD false)
    0 suffClasses
  if i < suffClasses ∧ suffData[i]? = some rootClass then
    some (suffTagIndices.getD i 0, suffTagIndices.getD (i + 1) 0)
  else none

/-- The number of tags by the offsets, where `load` adds the differences. -/
def loadedTags : List ℕ → ℕ
  | index :: next :: indices => (next + 2 ^ 16 - index) % 2 ^ 16 + loadedTags (next :: indices)
  | _ => 0

/-- The loop of `load` over the classes: where the tags of each one start and end. -/
def loadedRanges : List ℕ → ℕ → List (ℕ × ℕ)
  | index :: next :: indices, start =>
    let stop := start + (next + 2 ^ 16 - index) % 2 ^ 16
    (start, stop) :: loadedRanges (next :: indices) stop
  | _, _ => []

/-- The offsets that `load` reads. -/
def loadedIndices (data : Bytes) : List ℕ :=
  words 2 (unalignedLoad 2 data + 1) (data.drop (2 + 2 * unalignedLoad 2 data))

/-- How far `load` gets over an entry. -/
def loadedSize (data : Bytes) : ℕ :=
  let classes := unalignedLoad 2 data
  let tags := (loadedIndices data).headD 0 + loadedTags (loadedIndices data)
  2 + 2 * classes + 2 * (classes + 1) + 2 * tags

/-- The first tag and the end of the tags that `load` adds to a class. -/
def loadedRange (data : Bytes) (clas : ℕ) : Option (ℕ × ℕ) :=
  ((words 2 (unalignedLoad 2 data) (data.drop 2)).zip
    (loadedRanges (loadedIndices data) ((loadedIndices data).headD 0))).lookup clas

/-- An entry is decoded alike: with the same tags of every class, and with the same size. -/
structure DecodedAlike (data : Bytes) : Prop where
  range : ∀ clas, analyzedRange data clas = loadedRange data clas
  size : suffixEntrySize data = loadedSize data

/-! ### What is encoded -/

/-- An index is encoded if its step fits in two bytes, and is stored modulo 2^16. -/
theorem encodeIndex_eq_some {tags prevTags : ℕ} {data : Bytes} (hle : prevTags ≤ tags) :
    encodeIndex tags prevTags = some data ↔
      tags - prevTags < 2 ^ 16 ∧ data = toBytes 2 (tags % 2 ^ 16) := by
  rw [encodeIndex, add2B, add_eq_some]
  split
  · rename_i hlt
    simp only [hlt, true_and, and_iff_right_iff_imp]
    intro _
    omega
  · rename_i hge
    simp only [hge, false_and, iff_false, not_and]
    omega

/-- The offsets of the tags, up to the end of the last class. -/
def offsets : List ℕ → ℕ → List ℕ
  | [], start => [start]
  | size :: sizes, start => start :: offsets sizes (start + size)

/-- The indices are encoded if all steps fit in two bytes, and are stored modulo 2^16. -/
theorem encodeIndices_eq_some (classes : List (ℕ × List ℕ)) {tags prevTags : ℕ} {data : Bytes}
    (hle : prevTags ≤ tags) : encodeIndices classes tags prevTags = some data ↔
      tags - prevTags < 2 ^ 16 ∧ (∀ clas ∈ classes, clas.2.length < 2 ^ 16) ∧
        data = addWords 2
          ((offsets (classes.map fun clas => clas.2.length) tags).map (· % 2 ^ 16)) := by
  induction classes generalizing tags prevTags data with
  | nil => simp [encodeIndices, encodeIndex_eq_some hle, offsets, addWords]
  | cons clas classes ih =>
    rw [encodeIndices]
    simp only [Option.bind_eq_bind, Option.bind_eq_some_iff, encodeIndex_eq_some hle,
      ih (Nat.le_add_right tags clas.2.length), Option.pure_def, Option.some.injEq,
      List.forall_mem_cons, Nat.add_sub_cancel_left, List.map_cons, offsets]
    constructor
    · rintro ⟨_, ⟨htags, rfl⟩, _, ⟨hclas, hclasses, rfl⟩, rfl⟩
      exact ⟨htags, ⟨hclas, hclasses⟩, by simp [addWords]⟩
    · rintro ⟨htags, ⟨hclas, hclasses⟩, rfl⟩
      exact ⟨_, ⟨htags, rfl⟩, _, ⟨hclas, hclasses, rfl⟩, by simp [addWords]⟩

/-- There is an offset more than sizes. -/
@[simp] theorem length_offsets (sizes : List ℕ) (start : ℕ) :
    (offsets sizes start).length = sizes.length + 1 := by
  induction sizes generalizing start with
  | nil => rfl
  | cons size sizes ih => rw [offsets, List.length_cons, ih, List.length_cons]

/-- An offset is the number of the tags before it. -/
theorem offsets_getElem (sizes : List ℕ) (start : ℕ) {i : ℕ} (hi : i ≤ sizes.length) :
    (offsets sizes start)[i]? = some (start + (sizes.take i).sum) := by
  induction sizes generalizing start i with
  | nil =>
    obtain rfl : i = 0 := Nat.le_zero.mp hi
    rfl
  | cons size sizes ih =>
    rcases i with _ | i
    · rfl
    · rw [offsets, List.getElem?_cons_succ, ih _ (Nat.le_of_succ_le_succ hi), List.take_succ_cons,
        List.sum_cons, Nat.add_assoc]

/-- The difference of two offsets that wrap around is the number of tags between them. -/
theorem offset_difference {start size : ℕ} (hsize : size < 2 ^ 16) :
    ((start + size) % 2 ^ 16 + 2 ^ 16 - start % 2 ^ 16) % 2 ^ 16 = size := by omega

/-- Loading adds up the tags of all classes. -/
theorem loadedTags_offsets {sizes : List ℕ} (hsizes : ∀ size ∈ sizes, size < 2 ^ 16) (start : ℕ) :
    loadedTags ((offsets sizes start).map (· % 2 ^ 16)) = sizes.sum := by
  induction sizes generalizing start with
  | nil => rfl
  | cons size sizes ih =>
    obtain ⟨hsize, hsizes⟩ := List.forall_mem_cons.mp hsizes
    have hnext := ih hsizes (start + size)
    rcases sizes with _ | ⟨next, sizes⟩
    all_goals
      simp only [offsets, List.map_cons, List.map_nil, loadedTags, List.sum_cons] at hnext ⊢
      rw [offset_difference hsize, hnext]

/-- Loading finds where the tags of every class are. -/
theorem loadedRanges_offsets {sizes : List ℕ} (hsizes : ∀ size ∈ sizes, size < 2 ^ 16)
    (start first : ℕ) {i : ℕ} (hi : i < sizes.length) :
    (loadedRanges ((offsets sizes start).map (· % 2 ^ 16)) first)[i]? =
      some (first + (sizes.take i).sum, first + (sizes.take (i + 1)).sum) := by
  induction sizes generalizing start first i with
  | nil => cases hi
  | cons size sizes ih =>
    obtain ⟨hsize, hsizes⟩ := List.forall_mem_cons.mp hsizes
    have hstep : loadedRanges ((offsets (size :: sizes) start).map (· % 2 ^ 16)) first =
        (first, first + size) ::
          loadedRanges ((offsets sizes (start + size)).map (· % 2 ^ 16)) (first + size) := by
      rcases sizes with _ | ⟨next, sizes⟩
      all_goals
        simp only [offsets, List.map_cons, List.map_nil, loadedRanges]
        rw [offset_difference hsize]
    rw [hstep]
    rcases i with _ | i
    · simp
    · rw [List.getElem?_cons_succ, ih hsizes _ _ (Nat.lt_of_succ_lt_succ hi)]
      simp only [List.take_succ_cons, List.sum_cons, Nat.add_assoc]

/-- There is a range less than indices. -/
@[simp] theorem length_loadedRanges (indices : List ℕ) (start : ℕ) :
    (loadedRanges indices start).length = indices.length - 1 := by
  induction indices generalizing start with
  | nil => rfl
  | cons index indices ih =>
    rcases indices with _ | ⟨next, indices⟩
    · rfl
    · simpa [loadedRanges] using ih _

namespace SuffixClasses

variable (suffix : SuffixClasses)

/-- The entry fits: all its numbers do, and no class has too many tags. -/
structure Fits : Prop where
  length : suffix.classes.length < 2 ^ 16
  ids : ∀ clas ∈ suffix.classes, clas.1 < 2 ^ 16
  sizes : ∀ clas ∈ suffix.classes, clas.2.length < 2 ^ 16
  tags : ∀ tag ∈ suffix.classes.flatMap Prod.snd, tag < 2 ^ 16

/-- The offsets as they are written. -/
def indices : List ℕ := (offsets suffix.sizes 0).map (· % 2 ^ 16)

/-- The data of an entry that fits. -/
def data : Bytes :=
  toBytes 2 suffix.classes.length ++ addWords 2 suffix.ids ++ addWords 2 suffix.indices ++
    addWords 2 (suffix.classes.flatMap Prod.snd)

/-- A suffix is encoded if its numbers fit. -/
theorem encode_eq_some {data : Bytes} :
    suffix.encode = some data ↔ suffix.Fits ∧ data = suffix.data := by
  have hwords : ∀ vals : List ℕ, (vals.map (toBytes 2)).flatten = addWords 2 vals := fun vals =>
    List.flatMap_def.symm
  have hids : (suffix.classes.map fun clas => toBytes 2 clas.1).flatten =
      addWords 2 suffix.ids := by
    rw [← hwords, ids, List.map_map]
    rfl
  simp only [encode, add2B, Option.bind_eq_bind, Option.bind_eq_some_iff, add_eq_some,
    mapM_add_eq_some, encodeIndices_eq_some _ (le_refl 0), Option.pure_def, Option.some.injEq]
  constructor
  · rintro ⟨_, ⟨hlength, rfl⟩, _, ⟨hclasses, rfl⟩, _, ⟨-, hsizes, rfl⟩, _, hmapM, rfl⟩
    obtain ⟨htags, rfl⟩ := (mapM_add_eq_some (f := id) _).mp hmapM
    exact ⟨⟨hlength, hclasses, hsizes, htags⟩, by
      rw [hids]
      exact congrArg _ (hwords _)⟩
  · rintro ⟨hfits, rfl⟩
    refine ⟨_, ⟨hfits.length, rfl⟩, _, ⟨hfits.ids, rfl⟩, _, ⟨by decide, hfits.sizes, rfl⟩, _,
      (mapM_add_eq_some (f := id) _).mpr ⟨hfits.tags, rfl⟩, ?_⟩
    rw [hids]
    exact congrArg _ (hwords _)

/-- A class has a number. -/
@[simp] theorem length_ids : suffix.ids.length = suffix.classes.length := List.length_map ..

/-- A class has a size. -/
@[simp] theorem length_sizes : suffix.sizes.length = suffix.classes.length := List.length_map ..

/-- There is an index more than classes. -/
@[simp] theorem length_indices : suffix.indices.length = suffix.classes.length + 1 := by
  rw [indices, List.length_map, length_offsets, length_sizes]

/-- An index is the number of the tags before it, modulo 2^16. -/
theorem indices_getElem {i : ℕ} (hi : i ≤ suffix.classes.length) :
    suffix.indices[i]? = some ((suffix.sizes.take i).sum % 2 ^ 16) := by
  rw [indices, List.getElem?_map, offsets_getElem _ _ (by simpa using hi), Option.map_some,
    Nat.zero_add]

/-! ### What is decoded -/

variable {suffix} (hfits : suffix.Fits) (rest : Bytes)
include hfits

/-- The number of classes is loaded. -/
theorem unalignedLoad_data : unalignedLoad 2 (suffix.data ++ rest) = suffix.classes.length := by
  simp only [data, List.append_assoc]
  exact unalignedLoad_append hfits.length _

/-- The numbers of the classes are read. -/
theorem words_ids :
    words 2 suffix.classes.length ((suffix.data ++ rest).drop 2) = suffix.ids := by
  have hids : ∀ id ∈ suffix.ids, id < 256 ^ 2 := List.forall_mem_map.mpr hfits.ids
  simp only [data, List.append_assoc]
  rw [List.drop_left' (length_toBytes 2 _), ← suffix.length_ids]
  exact words_addWords hids _

omit hfits in
/-- The indices are read. -/
theorem words_indices :
    words 2 (suffix.classes.length + 1)
      ((suffix.data ++ rest).drop (2 + 2 * suffix.classes.length)) = suffix.indices := by
  have hindices : ∀ index ∈ suffix.indices, index < 256 ^ 2 := by
    intro index hindex
    obtain ⟨offset, -, rfl⟩ := List.mem_map.mp hindex
    exact Nat.mod_lt _ (by decide)
  have hlength : (toBytes 2 suffix.classes.length ++ addWords 2 suffix.ids).length =
      2 + 2 * suffix.classes.length := by simp
  rw [data, List.append_assoc, List.append_assoc, List.drop_left' hlength, ← suffix.length_indices]
  exact words_addWords hindices _

/-- The loaded indices are those that were stored. -/
theorem loadedIndices_data : loadedIndices (suffix.data ++ rest) = suffix.indices := by
  rw [loadedIndices, unalignedLoad_data hfits, words_indices]

omit hfits in
/-- The first index is zero. -/
theorem indices_headD : suffix.indices.headD 0 = 0 := by
  rw [List.headD_eq_head?_getD, List.head?_eq_getElem?, indices_getElem _ (Nat.zero_le _)]
  rfl

/-- The size by the last offset. -/
theorem suffixEntrySize_data : suffixEntrySize (suffix.data ++ rest) =
    4 + 4 * suffix.classes.length + 2 * (suffix.total % 2 ^ 16) := by
  have hlast := words_getElem 2 ((suffix.data ++ rest).drop (2 + 2 * suffix.classes.length))
    (Nat.lt_succ_self suffix.classes.length)
  rw [words_indices, indices_getElem _ le_rfl, ← length_sizes, List.take_length,
    Option.some.injEq, List.drop_drop, length_sizes] at hlast
  have hdrop : 2 + 2 * (2 * suffix.classes.length) =
      2 + 2 * suffix.classes.length + 2 * suffix.classes.length := by omega
  simp only [suffixEntrySize, unalignedLoad_data hfits]
  rw [hdrop, ← hlast, total]
  omega

/-- The size by the number of all tags. -/
theorem loadedSize_data : loadedSize (suffix.data ++ rest) =
    4 + 4 * suffix.classes.length + 2 * suffix.total := by
  have hsizes : ∀ size ∈ suffix.sizes, size < 2 ^ 16 := List.forall_mem_map.mpr hfits.sizes
  simp only [loadedSize, unalignedLoad_data hfits, loadedIndices_data hfits, indices_headD]
  rw [indices, loadedTags_offsets hsizes, total]
  omega

/-- Analyzing takes the offsets of a class as they are written. -/
theorem analyzedRange_data {i : ℕ} (hi : i < suffix.classes.length) :
    analyzedRange (suffix.data ++ rest) suffix.classes[i].1 =
      some ((suffix.sizes.take i).sum % 2 ^ 16, (suffix.sizes.take (i + 1)).sum % 2 ^ 16) := by
  have hi' : i < suffix.ids.length := by simpa using hi
  have hplace := lowerBound_eq (l := suffix.ids) suffix.sorted hi'
  have hid : suffix.ids[i] = suffix.classes[i].1 := List.getElem_map ..
  rw [length_ids, hid] at hplace
  simp only [analyzedRange, unalignedLoad_data hfits, words_ids hfits, words_indices]
  rw [hplace, if_pos ⟨hi, by rw [List.getElem?_eq_getElem hi', hid]⟩]
  simp only [List.getD_eq_getElem?_getD, indices_getElem _ hi.le, indices_getElem _ hi,
    Option.getD_some]

/-- Loading takes the tags of the class. -/
theorem loadedRange_data {i : ℕ} (hi : i < suffix.classes.length) :
    loadedRange (suffix.data ++ rest) suffix.classes[i].1 =
      some ((suffix.sizes.take i).sum, (suffix.sizes.take (i + 1)).sum) := by
  have hsizes : ∀ size ∈ suffix.sizes, size < 2 ^ 16 := List.forall_mem_map.mpr hfits.sizes
  have hrange := loadedRanges_offsets hsizes 0 0 (i := i) (by simpa using hi)
  have hid : suffix.ids[i]? = some suffix.classes[i].1 := by
    rw [ids, List.getElem?_map, List.getElem?_eq_getElem hi, Option.map_some]
  have hnodup : suffix.ids.Nodup := suffix.sorted.imp fun hlt => hlt.ne
  simp only [loadedRange, unalignedLoad_data hfits, words_ids hfits, loadedIndices_data hfits,
    indices_headD]
  rw [Associations.lookup_eq_some_iff (by rw [List.map_fst_zip (by simp)]; exact hnodup)]
  apply List.mem_of_getElem? (i := i)
  rw [List.getElem?_zip_eq_some]
  rw [Nat.zero_add, Nat.zero_add] at hrange
  exact ⟨hid, hrange⟩

/-- No tags are read for other classes. -/
theorem range_data_of_notMem {clas : ℕ} (hclas : clas ∉ suffix.ids) :
    analyzedRange (suffix.data ++ rest) clas = none ∧
      loadedRange (suffix.data ++ rest) clas = none := by
  constructor
  · simp only [analyzedRange, unalignedLoad_data hfits, words_ids hfits, words_indices]
    exact if_neg fun h => hclas (List.mem_of_getElem? h.2)
  · rw [loadedRange, unalignedLoad_data hfits, words_ids hfits]
    exact Associations.lookup_eq_none fun e he heq => hclas (heq ▸ (List.of_mem_zip he).1)

end SuffixClasses

/-- An entry is decoded alike exactly if it has fewer tags than two bytes can count. -/
theorem decodedAlike_iff (suffix : SuffixClasses) {data : Bytes} (hdata : suffix.encode = some data)
    (rest : Bytes) : DecodedAlike (data ++ rest) ↔ suffix.total < 2 ^ 16 := by
  obtain ⟨hfits, rfl⟩ := suffix.encode_eq_some.mp hdata
  constructor
  · intro halike
    have hsize := halike.size
    rw [SuffixClasses.suffixEntrySize_data hfits, SuffixClasses.loadedSize_data hfits] at hsize
    omega
  · intro htotal
    have hoffset : ∀ i, (suffix.sizes.take i).sum % 2 ^ 16 = (suffix.sizes.take i).sum := by
      intro i
      have hsum := congrArg List.sum (List.take_append_drop i suffix.sizes)
      rw [List.sum_append] at hsum
      rw [SuffixClasses.total] at htotal
      exact Nat.mod_eq_of_lt (by omega)
    refine ⟨fun clas => ?_, ?_⟩
    · by_cases hclas : clas ∈ suffix.ids
      · obtain ⟨i, hi, rfl⟩ := List.getElem_of_mem hclas
        simp only [SuffixClasses.length_ids] at hi
        simp only [SuffixClasses.ids, List.getElem_map]
        rw [SuffixClasses.analyzedRange_data hfits rest hi,
          SuffixClasses.loadedRange_data hfits rest hi, hoffset, hoffset]
      · obtain ⟨hanalyzed, hloaded⟩ := SuffixClasses.range_data_of_notMem hfits rest hclas
        rw [hanalyzed, hloaded]
    · rw [SuffixClasses.suffixEntrySize_data hfits, SuffixClasses.loadedSize_data hfits,
        Nat.mod_eq_of_lt htotal]

/-- One class with the tags 5 and 7. -/
theorem decodedAlike_iff_sample : DecodedAlike [1, 0, 3, 0, 0, 0, 2, 0, 5, 0, 7, 0] :=
  (@decodedAlike_iff ⟨[(3, [5, 7])], by decide, by decide⟩ [1, 0, 3, 0, 0, 0, 2, 0, 5, 0, 7, 0]
    (by decide) []).mpr (by decide)

/-- The classes of two lemmas with 40000 tags each, half of them shared. -/
def wrappedClasses : SuffixClasses where
  classes := [(0, List.range 40000), (1, List.range' 20000 40000)]
  sorted := by decide
  nodup := by simp [List.nodup_range, List.nodup_range']

/-- Two classes with many tags fit. -/
private theorem wrappedClasses_fits : wrappedClasses.Fits where
  length := by decide
  ids := by simp [wrappedClasses]
  sizes := by simp [wrappedClasses]
  tags := by
    intro tag htag
    simp only [wrappedClasses, List.flatMap_cons, List.flatMap_nil, List.append_nil,
      List.mem_append, List.mem_range, List.mem_range'_1] at htag
    omega

/-- The sizes of two classes with many tags. -/
private theorem wrappedClasses_sizes : wrappedClasses.sizes = [40000, 40000] := by
  simp [SuffixClasses.sizes, wrappedClasses]

/-- The end of the tags of the second class wraps around, so that analyzing finds none. -/
theorem wrappedClasses_not_decodedAlike :
    wrappedClasses.encode = some wrappedClasses.data ∧
      analyzedRange wrappedClasses.data 1 = some (40000, 14464) ∧
      loadedRange wrappedClasses.data 1 = some (40000, 80000) ∧
      suffixEntrySize wrappedClasses.data = 28940 ∧ loadedSize wrappedClasses.data = 160012 ∧
      ¬ DecodedAlike wrappedClasses.data := by
  have hfits := wrappedClasses_fits
  have hrange := SuffixClasses.analyzedRange_data hfits [] (i := 1) (by decide)
  have hloaded := SuffixClasses.loadedRange_data hfits [] (i := 1) (by decide)
  have hsize := SuffixClasses.suffixEntrySize_data hfits []
  have hloadedSize := SuffixClasses.loadedSize_data hfits []
  rw [List.append_nil, wrappedClasses_sizes] at hrange hloaded
  rw [List.append_nil, SuffixClasses.total, wrappedClasses_sizes] at hsize hloadedSize
  have hencode := (SuffixClasses.encode_eq_some _).mpr ⟨hfits, rfl⟩
  refine ⟨hencode, hrange, hloaded, hsize, hloadedSize, ?_⟩
  intro halike
  have := halike.size
  rw [hsize, hloadedSize] at this
  revert this
  decide

end UDPipe.Morphodita
