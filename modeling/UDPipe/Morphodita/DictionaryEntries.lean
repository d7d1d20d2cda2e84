import UDPipe.Morphodita.DictionaryLemmas
import UDPipe.Morphodita.MorphoDictionary

/-!
# The entries of the suffixes that were encoded

The map of the suffixes has an entry for every suffix of a suffix. From the entry of a suffix,
analyzing reads the tags of one class, and loading those of all classes.
-/

namespace UDPipe.Morphodita

/-! ### Tags of an entry -/

/-- Some of the numbers that were written one after another. -/
theorem words_drop_addWords {vals : List ℕ} (h : ∀ val ∈ vals, val < 256 ^ 2) (rest : Bytes)
    {start len : ℕ} (hlen : start + len ≤ vals.length) :
    words 2 len ((addWords 2 vals ++ rest).drop (2 * start)) = (vals.drop start).take len := by
  have hlength : ((vals.drop start).take len).length = len := by
    rw [List.length_take, List.length_drop]
    omega
  have hstart : (addWords 2 (vals.take start)).length = 2 * start := by
    rw [length_addWords, List.length_take]
    omega
  have hsplit : addWords 2 vals = addWords 2 (vals.take start) ++
      (addWords 2 ((vals.drop start).take len) ++ addWords 2 ((vals.drop start).drop len)) := by
    simp only [addWords, ← List.flatMap_append, List.take_append_drop]
  have hvals : ∀ val ∈ (vals.drop start).take len, val < 256 ^ 2 := fun val hval =>
    h val (List.mem_of_mem_drop (List.mem_of_mem_take hval))
  have hwords := words_addWords hvals (addWords 2 ((vals.drop start).drop len) ++ rest)
  rw [hlength] at hwords
  rw [hsplit, List.append_assoc, List.append_assoc, List.drop_left' hstart]
  exact hwords

/-- The tags of a class stand behind those of the classes before it. -/
theorem drop_flatMap_snd (classes : List (ℕ × List ℕ)) {i : ℕ} (hi : i < classes.length) :
    ((classes.flatMap Prod.snd).drop ((classes.map fun clas => clas.2.length).take i).sum).take
        classes[i].2.length = classes[i].2 ∧
      ((classes.map fun clas => clas.2.length).take i).sum + classes[i].2.length ≤
        (classes.flatMap Prod.snd).length ∧
      ((classes.map fun clas => clas.2.length).take (i + 1)).sum =
        ((classes.map fun clas => clas.2.length).take i).sum + classes[i].2.length := by
  have hbefore : ((classes.take i).flatMap Prod.snd).length =
      ((classes.map fun clas => clas.2.length).take i).sum := by
    rw [List.length_flatMap, List.map_take]
  have hsplit : classes.flatMap Prod.snd = (classes.take i).flatMap Prod.snd ++
      (classes[i].2 ++ (classes.drop (i + 1)).flatMap Prod.snd) := by
    rw [← List.flatMap_cons, List.getElem_cons_drop, ← List.flatMap_append, List.take_append_drop]
  refine ⟨?_, ?_, ?_⟩
  · rw [hsplit, List.drop_left' hbefore, List.take_left]
  · rw [hsplit, List.length_append, List.length_append, hbefore]
    omega
  · rw [List.take_succ_eq_append_getElem (by simpa using hi), List.sum_append]
    simp

namespace SuffixClasses

variable {suffix : SuffixClasses}

/-- The tags of a class. -/
def tagsOfClass (suffix : SuffixClasses) (clas : ℕ) : List ℕ :=
  (suffix.classes.lookup clas).getD []

/-- The classes of a suffix are different. -/
theorem nodup_ids (suffix : SuffixClasses) : suffix.ids.Nodup := suffix.sorted.imp fun hlt => hlt.ne

/-- A class of the suffix has its tags. -/
theorem lookup_getElem {i : ℕ} (hi : i < suffix.classes.length) :
    suffix.classes.lookup suffix.classes[i].1 = some suffix.classes[i].2 :=
  (Associations.lookup_eq_some_iff suffix.nodup_ids).mpr (List.getElem_mem hi)

/-- The tags of a class are those of its only entry. -/
theorem flatMap_filter_classes (suffix : SuffixClasses) (clas : ℕ) :
    (suffix.classes.filter fun c => c.1 = clas).flatMap Prod.snd = suffix.tagsOfClass clas := by
  rw [Associations.filter_eq_toList suffix.nodup_ids, tagsOfClass]
  cases suffix.classes.lookup clas with
  | none => rfl
  | some tags => exact List.flatMap_singleton ..

/-- The tags between the bounds of a class. -/
theorem words_data (hfits : suffix.Fits) (rest : Bytes) {i : ℕ} (hi : i < suffix.classes.length) :
    words 2 ((suffix.sizes.take (i + 1)).sum - (suffix.sizes.take i).sum)
      ((suffix.data ++ rest).drop (2 + 2 * suffix.classes.length + 2 * (suffix.classes.length + 1) +
        2 * (suffix.sizes.take i).sum)) = suffix.classes[i].2 := by
  obtain ⟨htake, hle, hnext⟩ := drop_flatMap_snd suffix.classes hi
  rw [← sizes] at htake hle hnext
  have hhead : (toBytes 2 suffix.classes.length ++ addWords 2 suffix.ids ++
      addWords 2 suffix.indices).length =
        2 + 2 * suffix.classes.length + 2 * (suffix.classes.length + 1) := by
    simp only [List.length_append, length_toBytes, length_addWords, length_ids, length_indices]
  rw [data, List.append_assoc, ← List.drop_drop, List.drop_left' hhead, hnext,
    Nat.add_sub_cancel_left, words_drop_addWords hfits.tags rest hle, htake]

/-- Analyzing reads the tags of a class. -/
theorem tags_analyzed (hfits : suffix.Fits) (htotal : suffix.total < 2 ^ 16) (rest : Bytes)
    (clas : ℕ) : ((analyzedRange (suffix.data ++ rest) clas).map
      (MorphoDictionary.tagsBetween (suffix.data ++ rest))).getD [] = suffix.tagsOfClass clas := by
  by_cases hclas : clas ∈ suffix.ids
  · obtain ⟨i, hi, rfl⟩ := List.getElem_of_mem hclas
    rw [length_ids] at hi
    have hid : suffix.ids[i] = suffix.classes[i].1 := List.getElem_map ..
    have hmod : ∀ j, (suffix.sizes.take j).sum % 2 ^ 16 = (suffix.sizes.take j).sum := by
      intro j
      have hsum := congrArg List.sum (List.take_append_drop j suffix.sizes)
      rw [List.sum_append] at hsum
      rw [total] at htotal
      exact Nat.mod_eq_of_lt (by omega)
    rw [hid, tagsOfClass, lookup_getElem hi, analyzedRange_data hfits rest hi, hmod, hmod]
    simp only [Option.map_some, Option.getD_some, MorphoDictionary.tagsBetween,
      unalignedLoad_data hfits]
    exact words_data hfits rest hi
  · have hnone : suffix.classes.lookup clas = none :=
      Associations.lookup_eq_none fun e he heq => hclas (heq ▸ List.mem_map_of_mem he)
    rw [(range_data_of_notMem hfits rest hclas).1, tagsOfClass, hnone]
    rfl

/-- Loading reads all classes. -/
theorem loadedClasses_data (hfits : suffix.Fits) (rest : Bytes) :
    MorphoDictionary.loadedClasses (suffix.data ++ rest) = suffix.classes := by
  have hsizes : ∀ size ∈ suffix.sizes, size < 2 ^ 16 := List.forall_mem_map.mpr hfits.sizes
  have hranges : (loadedRanges suffix.indices 0).length = suffix.classes.length := by
    rw [length_loadedRanges, length_indices, Nat.add_sub_cancel]
  simp only [MorphoDictionary.loadedClasses, unalignedLoad_data hfits, words_ids hfits,
    loadedIndices_data hfits, indices_headD]
  apply List.ext_getElem
  · simp [hranges]
  · intro i hi hi'
    have hrange := loadedRanges_offsets hsizes 0 0 (i := i) (by simpa using hi')
    rw [Nat.zero_add, Nat.zero_add] at hrange
    have hiRanges : i < (loadedRanges suffix.indices 0).length := by rwa [hranges]
    have hiIds : i < suffix.ids.length := by rwa [length_ids]
    have hget : (loadedRanges suffix.indices 0)[i] =
        ((suffix.sizes.take i).sum, (suffix.sizes.take (i + 1)).sum) :=
      Option.some.inj ((List.getElem?_eq_getElem _).symm.trans hrange)
    have hid : suffix.ids[i] = suffix.classes[i].1 := List.getElem_map ..
    rw [List.getElem_zip, List.getElem_map, hget, hid, List.drop_drop]
    exact Prod.ext rfl (words_data hfits rest hi')

/-- The size of the data of a suffix. -/
theorem length_data (suffix : SuffixClasses) :
    suffix.data.length = 4 + 4 * suffix.classes.length + 2 * suffix.total := by
  rw [total, sizes, ← List.length_flatMap, data]
  simp only [List.length_append, length_toBytes, length_addWords, length_ids, length_indices]
  omega

end SuffixClasses

/-! ### Suffixes of suffixes -/

section Suffixes

open PersistentUnorderedMap (Touched touched_nil enlarged touch)

variable {Entry : Type} {default : Entry}

/-- The suffixes that `add_suffixes` adds for a key. -/
def properSuffixes (key : Bytes) : List Bytes := (List.range' 1 (key.length - 1)).map key.drop

/-- The proper suffixes of a key. -/
theorem mem_properSuffixes {key label : Bytes} :
    label ∈ properSuffixes key ↔ label ≠ [] ∧ label ≠ key ∧ label <:+ key := by
  simp only [properSuffixes, List.mem_map, List.mem_range'_1]
  constructor
  · rintro ⟨n, ⟨hpos, hlt⟩, rfl⟩
    have hlength : (key.drop n).length = key.length - n := List.length_drop
    refine ⟨fun hnil => ?_, fun heq => ?_, List.drop_suffix _ _⟩
    · rw [hnil, List.length_nil] at hlength
      omega
    · rw [heq] at hlength
      omega
  · rintro ⟨hne, hproper, hends⟩
    have hpos := List.length_pos_iff.mpr hne
    have hle := hends.length_le
    have hlt : label.length ≠ key.length := fun heq => hproper (hends.eq_of_length heq)
    exact ⟨key.length - label.length, ⟨by omega, by omega⟩,
      (List.suffix_iff_eq_drop.mp hends).symm⟩

/-- The suffixes are added. -/
theorem touched_enlarged_suffixes {map : List (Bytes × Entry)} (hkeys : (map.map Prod.fst).Nodup) :
    Touched default (map.flatMap fun e => properSuffixes e.1) map
      (enlarged default map false true) := by
  have hall := (@touched_nil _ default _ hkeys).foldl (map.flatMap fun e => properSuffixes e.1)
  rw [List.nil_append, List.foldl_flatMap] at hall
  exact hall

/-- With a key, the map has all its nonempty suffixes. -/
theorem exists_suffix_key {map : List (Bytes × Entry)} (hkeys : (map.map Prod.fst).Nodup)
    {key label : Bytes} (hkey : key ∈ (enlarged default map false true).map Prod.fst)
    (hne : label ≠ []) (hends : label <:+ key) :
    label ∈ (enlarged default map false true).map Prod.fst := by
  have htouched := @touched_enlarged_suffixes _ default _ hkeys
  by_cases heq : label = key
  · rwa [heq]
  have hadd : ∀ e ∈ map, label ≠ e.1 → label <:+ e.1 →
      label ∈ (enlarged default map false true).map Prod.fst := by
    intro e he hproper hends
    obtain ⟨f, hf, rfl⟩ := htouched.mem_of_key label
      (List.mem_flatMap.mpr ⟨e, he, mem_properSuffixes.mpr ⟨hne, hproper, hends⟩⟩)
    exact List.mem_map_of_mem hf
  obtain ⟨e, he, rfl⟩ := List.mem_map.mp hkey
  rcases htouched.of_mem e he with hold | ⟨-, hnew, -⟩
  · exact hadd e hold heq hends
  · obtain ⟨f, hf, hlabel⟩ := List.mem_flatMap.mp hnew
    obtain ⟨-, -, hends'⟩ := mem_properSuffixes.mp hlabel
    by_cases hsame : label = f.1
    · rw [hsame]
      exact List.mem_map_of_mem (htouched.mem_of_mem f hf)
    · exact hadd f hf hsame (hends.trans hends')

end Suffixes

/-! ### Entries of all suffixes -/

/-- The tags of a suffix in the classes are those of an entry. -/
structure EntryFor (tags : List Bytes) (classList : List (List TaggedForm)) (str : Bytes)
    (suffix : SuffixClasses) : Prop where
  names : ∀ clas, (suffix.tagsOfClass clas).map (fun tag => tags.getD tag []) =
    tagsOf str (membersOf classList clas)
  ids : ∀ clas ∈ suffix.classes, clas.1 < classList.length

/-- The classes of a suffix make an entry. -/
theorem exists_entryFor {tags : List Bytes} {classList : List (List TaggedForm)} {str : Bytes}
    {classes : List (ℕ × List ℕ)} (hnodup : ∀ members ∈ classList, members.Nodup)
    (h : List.Forall₂ (ClassNamed tags) classes (classesOf classList str)) :
    ∃ suffix : SuffixClasses, suffix.classes = classes ∧ EntryFor tags classList str suffix := by
  have hfst : classes.map Prod.fst = (classesOf classList str).map Prod.fst := by
    rw [← List.forall₂_eq_eq_eq, List.forall₂_map_left_iff, List.forall₂_map_right_iff]
    exact h.imp fun clas named hclas => hclas.1
  have hsorted : (classes.map Prod.fst).Pairwise (· < ·) := by
    rw [hfst, List.pairwise_map]
    exact pairwise_classesOf classList str
  have hnamed : ∀ clas ∈ classes, clas.2.map (fun tag => tags.getD tag []) =
      tagsOf str (membersOf classList clas.1) ∧ clas.1 < classList.length ∧ clas.2.Nodup := by
    intro clas hclas
    obtain ⟨named, hmem, hid, hnames⟩ := exists_of_forall₂ h.flip hclas
    obtain ⟨-, members, hget, htags⟩ := mem_classesOf.mp (hmem : (named.1, named.2) ∈ _)
    have hmap : clas.2.map (fun tag => tags.getD tag []) = tagsOf str members :=
      hnames.map_getD.trans htags
    have hmapNodup := nodup_tagsOf (hnodup members (List.mem_of_getElem? hget)) str
    rw [← hmap] at hmapNodup
    exact ⟨by rw [hmap, hid, membersOf, hget, Option.getD_some],
      hid ▸ (List.getElem?_eq_some_iff.mp hget).1, hmapNodup.of_map _⟩
  refine ⟨⟨classes, hsorted, fun clas hclas => (hnamed clas hclas).2.2⟩, rfl, fun clas => ?_,
    fun clas hclas => (hnamed clas hclas).2.1⟩
  rw [SuffixClasses.tagsOfClass]
  dsimp only
  cases hlookup : classes.lookup clas with
  | some ids =>
    exact (hnamed _ ((Associations.lookup_eq_some_iff (hsorted.imp fun hlt => hlt.ne)).mp
      hlookup)).1
  | none =>
    by_contra hne
    have htags : tagsOf str (membersOf classList clas) ≠ [] := fun hnil => hne hnil.symm
    obtain ⟨members, hget⟩ : ∃ members, classList[clas]? = some members := by
      cases hget : classList[clas]? with
      | some members => exact ⟨members, rfl⟩
      | none =>
        rw [membersOf, hget] at htags
        exact absurd rfl htags
    rw [membersOf, hget, Option.getD_some] at htags
    obtain ⟨named, hmem, hid, -⟩ := exists_of_forall₂ h
      (mem_classesOf.mpr ⟨htags, members, hget, rfl⟩)
    obtain rfl : named.1 = clas := hid
    have hpair : (named.1, named.2) ∈ classes := hmem
    rw [(Associations.lookup_eq_some_iff (hsorted.imp fun hlt => hlt.ne)).mpr hpair] at hlookup
    cases hlookup

end UDPipe.Morphodita
