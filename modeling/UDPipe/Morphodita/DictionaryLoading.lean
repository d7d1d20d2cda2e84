import UDPipe.Morphodita.DictionaryEntries
import UDPipe.Morphodita.DictionaryTables
import UDPipe.Morphodita.Guessing

/-!
# Loading an encoded dictionary

The dictionary that is loaded has the tags, a map of the suffixes that answers as the classes say,
and two maps whose entries point at each other.
-/

namespace UDPipe.Morphodita

/-- No suffix has more tags than two bytes can count. -/
def ClassTable.FewTags (table : ClassTable) : Prop :=
  ∀ e ∈ table.suffixes, (e.2.map fun clas => clas.2.length).sum < 2 ^ 16

namespace Dictionary

open PersistentUnorderedMap (enlarged Represents Touched)
open FnvHash (Measures)

/-- The entries of the suffixes in a file. -/
structure EncodesSuffixes (table : ClassTable) (classList : List (List TaggedForm))
    (entries : List (Bytes × Bytes)) : Prop where
  nodup : (entries.map Prod.fst).Nodup
  entry : ∀ entry ∈ entries, ∃ suffix : SuffixClasses, suffix.Fits ∧ entry.2 = suffix.data ∧
    EntryFor table.table.tags classList entry.1 suffix ∧ (table.FewTags → suffix.total < 2 ^ 16)
  missing : ∀ str, str ∉ entries.map Prod.fst → ∀ clas, tagsOf str (membersOf classList clas) = []
  closed : ∀ key ∈ entries.map Prod.fst, ∀ label, label ≠ [] → label <:+ key →
    label ∈ entries.map Prod.fst
  nil_mem : [] ∈ entries.map Prod.fst ↔ [] ∈ table.suffixes.map Prod.fst

/-- Encoded suffixes have the classes that the table describes. -/
theorem encodesSuffixes_of_encoded {table : ClassTable} {classList : List (List TaggedForm)}
    (htable : table.Describes classList) {entries : List (Bytes × Bytes)}
    (h : encodedSuffixes table.suffixes = some entries) :
    EncodesSuffixes table classList entries := by
  obtain ⟨all, hall⟩ : ∃ all : List (Bytes × List (ℕ × List ℕ)),
      all = enlarged [] table.suffixes false true := ⟨_, rfl⟩
  have htouched := @touched_enlarged_suffixes _ ([] : List (ℕ × List ℕ)) _ htable.keys
  have hclosed := @exists_suffix_key _ ([] : List (ℕ × List ℕ)) _ htable.keys
  rw [encodedSuffixes, ← hall] at h
  rw [← hall] at htouched hclosed
  have hpairs : List.Forall₂ (fun e entry => e.1 = entry.1 ∧ encodeSuffix e.2 = some entry.2)
      all entries := by
    refine (mapM_eq_some_iff.mp h).imp fun e entry heq => ?_
    simp only [Option.bind_eq_bind, Option.bind_eq_some_iff, Option.pure_def,
      Option.some.injEq] at heq
    obtain ⟨data, hdata, rfl⟩ := heq
    exact ⟨rfl, hdata⟩
  have hkeys : all.map Prod.fst = entries.map Prod.fst := by
    rw [← List.forall₂_eq_eq_eq, List.forall₂_map_left_iff, List.forall₂_map_right_iff]
    exact hpairs.imp fun e entry heq => heq.1
  rw [hkeys] at hclosed
  -- a suffix without a key has no class
  have hlookup : ∀ {str classes}, (str, classes) ∈ table.suffixes →
      table.suffixes.lookup str = some classes :=
    (Associations.lookup_eq_some_iff htable.keys).mpr
  have hnone : ∀ str, (∀ e ∈ table.suffixes, e.1 ≠ str) → classesOf classList str = [] := by
    intro str hstr
    have hclasses := htable.classes str
    rw [Associations.lookup_eq_none hstr] at hclasses
    exact List.forall₂_nil_left_iff.mp hclasses
  have hclasses : ∀ e ∈ all,
      List.Forall₂ (ClassNamed table.table.tags) e.2 (classesOf classList e.1) := by
    intro e he
    rcases htouched.of_mem e he with hold | ⟨hdefault, -, hnew⟩
    · have hclasses := htable.classes e.1
      rwa [hlookup hold] at hclasses
    · rw [hdefault, hnone e.1 hnew]
      exact .nil
  refine ⟨hkeys ▸ htouched.nodup, fun entry hentry => ?_, fun str hstr clas => ?_,
    fun key hkey label hne hends => hclosed hkey hne hends, ?_⟩
  · obtain ⟨e, he, heq, hencode⟩ := exists_of_forall₂ hpairs hentry
    obtain ⟨suffix, hsuffix, hentryFor⟩ := exists_entryFor
      (fun members hmembers => (htable.members members hmembers).2.1) (hclasses e he)
    rw [← hsuffix] at hencode
    obtain ⟨hfits, hdata⟩ := suffix.encode_eq_some.mp hencode
    refine ⟨suffix, hfits, hdata, heq ▸ hentryFor, fun hfew => ?_⟩
    rw [SuffixClasses.total, SuffixClasses.sizes, hsuffix]
    rcases htouched.of_mem e he with hold | ⟨hdefault, -, -⟩
    · exact hfew e hold
    · rw [hdefault]
      decide
  · by_contra hne
    have hnil := hnone str fun e he heq => hstr (hkeys ▸ heq ▸ List.mem_map_of_mem
      (htouched.mem_of_mem e he))
    cases hget : classList[clas]? with
    | none =>
      rw [membersOf, hget] at hne
      exact hne rfl
    | some members =>
      rw [membersOf, hget, Option.getD_some] at hne
      have hmem := mem_classesOf.mpr ⟨hne, members, hget, rfl⟩
      rw [hnil] at hmem
      cases hmem
  · rw [← hkeys]
    constructor
    · intro hmem
      obtain ⟨e, he, heq⟩ := List.mem_map.mp hmem
      rcases htouched.of_mem e he with hold | ⟨-, hnew, -⟩
      · exact heq ▸ List.mem_map_of_mem hold
      · obtain ⟨f, -, hproper⟩ := List.mem_flatMap.mp hnew
        exact absurd heq (mem_properSuffixes.mp hproper).1
    · intro hmem
      obtain ⟨e, he, heq⟩ := List.mem_map.mp hmem
      exact heq ▸ List.mem_map_of_mem (htouched.mem_of_mem e he)

namespace EncodesSuffixes

variable {table : ClassTable} {classList : List (List TaggedForm)} {entries : List (Bytes × Bytes)}

/-- The entries of suffixes are not empty. -/
theorem ne_nil (h : EncodesSuffixes table classList entries) : ∀ entry ∈ entries, entry.2 ≠ [] := by
  intro entry hentry hnil
  obtain ⟨suffix, -, hdata, -⟩ := h.entry entry hentry
  have hlength := suffix.length_data
  rw [← hdata, hnil, List.length_nil] at hlength
  omega

/-- Analyzing gets over an entry with few tags. -/
theorem measures (h : EncodesSuffixes table classList entries) (hfew : table.FewTags) :
    Measures suffixEntrySize entries := by
  intro entry hentry more
  obtain ⟨suffix, hfits, hdata, -, htotal⟩ := h.entry entry hentry
  rw [hdata, suffix.length_data, SuffixClasses.suffixEntrySize_data hfits,
    Nat.mod_eq_of_lt (htotal hfew)]

/-- Loading gets over all entries. -/
theorem measures_loaded (h : EncodesSuffixes table classList entries) :
    Measures loadedSize entries := by
  intro entry hentry more
  obtain ⟨suffix, hfits, hdata, -⟩ := h.entry entry hentry
  rw [hdata, suffix.length_data, SuffixClasses.loadedSize_data hfits]

end EncodesSuffixes

/-! ### The dictionary in a file -/

/-- A dictionary that was loaded from the data of another one. -/
structure LoadedAs (dict : Dictionary) (classList : List (List TaggedForm))
    (morpho : MorphoDictionary) (entries lemmaEntries rootEntries : List (Bytes × Bytes)) : Prop where
  tags : morpho.tags = dict.table.table.tags
  suffixes : morpho.suffixes.Represents entries
  encodes : EncodesSuffixes dict.table classList entries
  linked : MorphoDictionary.Linked dict.lemmas (morpho.lemmas, morpho.roots) lemmaEntries rootEntries
  classes : morpho.classes = MorphoDictionary.fillClasses morpho.suffixes
  fits : ∀ info ∈ dict.lemmas, RecordFits info
  lemmaLengths : ∀ info ∈ dict.lemmas, info.lem.length < 256
  rootLengths : ∀ info ∈ dict.lemmas, ∀ root ∈ info.forms, root.form.length < 256

/-- What is encoded is loaded. -/
theorem exists_load_of_encode {addinfo : LemmaAddinfo} {dict : Dictionary}
    {classList : List (List TaggedForm)} {raws : List RawLemma}
    (hdict : dict.LoadedFrom addinfo classList raws)
    (hsize : MorphoDictionary.Addressable dict.lemmas) {data : Bytes}
    (hencode : dict.encode = some data) (rest : Bytes) :
    ∃ morpho entries lemmaEntries rootEntries,
      MorphoDictionary.load (data ++ rest) = some (morpho, rest) ∧
        dict.LoadedAs classList morpho entries lemmaEntries rootEntries := by
  simp only [encode, Option.bind_eq_bind, Option.bind_eq_some_iff, Option.pure_def,
    Option.some.injEq] at hencode
  obtain ⟨lemmasHist, hlemmasHist, formsHist, hformsHist, count, hcount, records, hrecords, tags,
    htags, entries, hentries, saved, hsaved, rfl⟩ := hencode
  have hencodes := encodesSuffixes_of_encoded hdict.table hentries
  obtain ⟨loaded, hload, hrepresents⟩ := PersistentUnorderedMap.represents_of_save hencodes.nodup
    hencodes.ne_nil hsaved rest
  obtain ⟨lemmaEntries, rootEntries, hlinked⟩ := MorphoDictionary.exists_linked hdict.covers
    hdict.coversRoots hsize
  have hsummed := (MorphoDictionary.summed_addRecord_iff hdict.covers hdict.coversRoots).mpr
    ⟨hsize.lemmaSizes, hsize.rootSizes⟩
  obtain ⟨cells, hnextTags, hloadTags⟩ := encodeTags_load htags (saved ++ rest)
  obtain ⟨formsSizes, hnextForms, hresizeForms⟩ := resizeAll_of_encodeHistogram hformsHist
    (count ++ (records ++ (tags ++ (saved ++ rest))))
  obtain ⟨lemmasSizes, hnextLemmas, hresizeLemmas⟩ := resizeAll_of_encodeHistogram hlemmasHist
    (formsHist ++ (count ++ (records ++ (tags ++ (saved ++ rest)))))
  have hpass := pass_of_encodeLemmas hsize.count hcount hrecords
  refine ⟨⟨_, _, loaded, dict.table.table.tags, MorphoDictionary.fillClasses loaded⟩, entries,
    lemmaEntries, rootEntries, ?_, ⟨rfl, ?_, hencodes, hlinked, rfl, fits_of_encodeLemmas hrecords, ?_, ?_⟩⟩
  · simp only [MorphoDictionary.load, List.append_assoc, hnextLemmas, hresizeLemmas, hnextForms,
      hresizeForms, hpass, if_neg (not_not.mpr hsummed), hnextTags, hloadTags, hload, Option.bind_eq_bind, Option.bind_some]
    rfl
  · simpa using hrepresents
  · exact fun info hinfo => (hdict.covers info hinfo).trans (length_of_encodeHistogram hlemmasHist)
  · exact fun info hinfo root hroot =>
      (hdict.coversRoots info hinfo root hroot).trans (length_of_encodeHistogram hformsHist)

/-- A map without entries. -/
def Emptied (m : PersistentUnorderedMap) : Prop :=
  ∃ tables elems, m = PersistentUnorderedMap.built tables elems []

/-- Nothing is found in an emptied map. -/
theorem Emptied.iter_eq_nil {m : PersistentUnorderedMap} (h : Emptied m) (str : Bytes)
    (entrySize : Bytes → ℕ) : m.iter str entrySize = [] := by
  obtain ⟨tables, elems, rfl⟩ := h
  rcases Nat.lt_or_ge str.length tables with hlt | hge
  · have hreads := @PersistentUnorderedMap.iter_reads tables elems [] (by simp) str hlt entrySize
      (fun e he => by cases he)
    exact List.forall₂_nil_right_iff.mp hreads
  · exact PersistentUnorderedMap.iter_eq_nil hge entrySize

/-- A map that is never filled is emptied. -/
theorem emptied_tablesOf (hist : Histogram) : Emptied (tablesOf hist).doneAdding.doneFilling :=
  ⟨hist.length, fun len => (hist.map List.length).getD len 0,
    PersistentUnorderedMap.doneFilling_filledWith _ _ []⟩

/-- If what is encoded is loaded, then the sizes can be counted, or the lemmas cannot and the maps
have no entries. -/
theorem addressable_or_emptied_of_load {addinfo : LemmaAddinfo} {dict : Dictionary}
    {classList : List (List TaggedForm)} {raws : List RawLemma}
    (hdict : dict.LoadedFrom addinfo classList raws) {data : Bytes}
    (hencode : dict.encode = some data) {rest rest' : Bytes} {morpho : MorphoDictionary}
    (hload : MorphoDictionary.load (data ++ rest) = some (morpho, rest')) :
    MorphoDictionary.Addressable dict.lemmas ∨
      dict.lemmas ≠ [] ∧ Emptied morpho.lemmas ∧ Emptied morpho.roots := by
  simp only [encode, Option.bind_eq_bind, Option.bind_eq_some_iff, Option.pure_def,
    Option.some.injEq] at hencode
  obtain ⟨lemmasHist, hlemmasHist, formsHist, hformsHist, count, hcount, records, hrecords, tags,
    htags, entries, hentries, saved, hsaved, rfl⟩ := hencode
  obtain ⟨formsSizes, hnextForms, hresizeForms⟩ := resizeAll_of_encodeHistogram hformsHist
    (count ++ (records ++ (tags ++ (saved ++ rest))))
  obtain ⟨lemmasSizes, hnextLemmas, hresizeLemmas⟩ := resizeAll_of_encodeHistogram hlemmasHist
    (formsHist ++ (count ++ (records ++ (tags ++ (saved ++ rest)))))
  simp only [MorphoDictionary.load, List.append_assoc, hnextLemmas, hresizeLemmas, hnextForms,
    hresizeForms, Option.bind_eq_bind, Option.bind_some] at hload
  by_cases hlength : dict.lemmas.length < 2 ^ 31
  · left
    have hpass := pass_of_encodeLemmas hlength hcount hrecords
    simp only [hpass, Option.bind_some] at hload
    split at hload
    · cases hload
    · next hsummed =>
      obtain ⟨hlemmas, hroots⟩ := (MorphoDictionary.summed_addRecord_iff hdict.covers
        hdict.coversRoots).mp (not_not.mp hsummed)
      exact ⟨hlength, hlemmas, hroots⟩
  · right
    have hpass := pass_of_many hlength hcount
    simp only [hpass, Option.bind_some] at hload
    split at hload
    · cases hload
    · simp only [Option.bind_eq_some_iff, Option.pure_def, Option.some.injEq,
        Prod.mk.injEq] at hload
      obtain ⟨_, -, _, -, _, -, rfl, -⟩ := hload
      refine ⟨?_, emptied_tablesOf _, emptied_tablesOf _⟩
      rintro hnil
      rw [hnil] at hlength
      exact hlength (Nat.two_pow_pos 31)

/-- A raw dictionary that is read and encoded is loaded. -/
theorem exists_loadedAs {addinfo : LemmaAddinfo} {text : Bytes} {maxSuffixLen : ℤ}
    {dict : Dictionary} {data : Bytes} (hdict : load addinfo text maxSuffixLen = some dict)
    (hencode : encodeDictionary addinfo text maxSuffixLen = some data)
    (hsize : MorphoDictionary.Addressable dict.lemmas) (rest : Bytes) :
    ∃ raws classList morpho entries lemmaEntries rootEntries,
      RawMorphoDictionaryReader.lemmas text = some raws ∧
        dict.LoadedFrom addinfo classList raws ∧
        MorphoDictionary.load (data ++ rest) = some (morpho, rest) ∧
        dict.LoadedAs classList morpho entries lemmaEntries rootEntries := by
  rw [encodeDictionary, hdict, Option.bind_eq_bind, Option.bind_some] at hencode
  have hread := hdict
  rw [load, Option.bind_eq_bind, Option.bind_eq_some_iff] at hread
  obtain ⟨raws, hraws, -⟩ := hread
  obtain ⟨dict', classList, hdict', hfrom⟩ := exists_load addinfo maxSuffixLen hraws
  obtain rfl := Option.some.inj (hdict.symm.trans hdict')
  obtain ⟨morpho, entries, lemmaEntries, rootEntries, hload, hloaded⟩ :=
    exists_load_of_encode hfrom hsize hencode rest
  exact ⟨raws, classList, morpho, entries, lemmaEntries, rootEntries, hraws, hfrom, hload, hloaded⟩

end Dictionary

end UDPipe.Morphodita
