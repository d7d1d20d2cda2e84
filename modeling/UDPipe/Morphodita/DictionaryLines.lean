import UDPipe.Morphodita.DictionaryGeneration
import UDPipe.Morphodita.OwnForms

/-!
# When a dictionary keeps the lines of the raw dictionary

The lines of a raw dictionary are found again if the sizes of the records can be counted. Analyzing
needs a class with the empty suffix, too: without it the loop over the suffixes of a form stops at
the first one.
-/

namespace UDPipe.Morphodita

open MorphoDictionary (Addressable)

namespace Dictionary

/-! ### Analyzing -/

/-- What is encoded of a raw dictionary is loaded, and a form is analyzed to the lemmas and tags of
its lines, each of them once. -/
def AnalyzesLines (text data : Bytes) : Prop :=
  ∀ rest, ∃ morpho, MorphoDictionary.load (data ++ rest) = some (morpho, rest) ∧
    ∀ form, (morpho.analyze genericLemmaAddinfo form).Perm
      (((rawLines text).dedup.filter fun line => line.form = form).map fun line =>
        (line.lem, line.tag))

/-- The sizes of the records and the tags of a suffix can be counted, and some class has the empty
suffix. -/
structure Analyzable (dict : Dictionary) : Prop where
  addressable : Addressable dict.lemmas
  fewTags : dict.table.FewTags
  empty : dict.lemmas ≠ [] → [] ∈ dict.table.suffixes.map Prod.fst

section Raw

variable {text data : Bytes} {maxSuffixLen : ℤ} {dict : Dictionary}
  (hdict : load genericLemmaAddinfo text maxSuffixLen = some dict)
  (hencode : dict.encode = some data)
include hdict

/-- The dictionary that is loaded is the one that is encoded. -/
theorem encodeDictionary_of_load :
    encodeDictionary genericLemmaAddinfo text maxSuffixLen = dict.encode := by
  rw [encodeDictionary, hdict, Option.bind_eq_bind, Option.bind_some]

/-- A raw dictionary has lines if it has lemmas. -/
theorem exists_line_of_load (hne : dict.lemmas ≠ []) : ∃ line, line ∈ rawLines text := by
  have hread := hdict
  rw [load, Option.bind_eq_bind, Option.bind_eq_some_iff] at hread
  obtain ⟨raws, hraws, -⟩ := hread
  obtain ⟨dict', classList, hdict', hfrom⟩ := exists_load genericLemmaAddinfo maxSuffixLen hraws
  obtain rfl := Option.some.inj (hdict.symm.trans hdict')
  obtain ⟨info, hinfo⟩ := List.exists_mem_of_ne_nil _ hne
  obtain ⟨line, hline, -⟩ := List.mem_map.mp
    (((hfrom.lemmas_spec hraws).2 info.lem).mp (List.mem_map_of_mem hinfo))
  exact ⟨line, hline⟩

include hencode

/-- A dictionary that is loaded and answers something has sizes that can be counted. -/
theorem addressable_or_emptied {rest rest' : Bytes} {morpho : MorphoDictionary}
    (hload : MorphoDictionary.load (data ++ rest) = some (morpho, rest')) :
    Addressable dict.lemmas ∨ dict.lemmas ≠ [] ∧ Emptied morpho.lemmas ∧ Emptied morpho.roots := by
  have hread := hdict
  rw [load, Option.bind_eq_bind, Option.bind_eq_some_iff] at hread
  obtain ⟨raws, hraws, -⟩ := hread
  obtain ⟨dict', classList, hdict', hfrom⟩ := exists_load genericLemmaAddinfo maxSuffixLen hraws
  obtain rfl := Option.some.inj (hdict.symm.trans hdict')
  exact addressable_or_emptied_of_load hfrom hencode hload

/-- The lines of an analyzable dictionary are analyzed. -/
theorem Analyzable.analyzesLines (h : dict.Analyzable) : AnalyzesLines text data := by
  intro rest
  obtain ⟨raws, classList, morpho, entries, lemmaEntries, rootEntries, hraws, hfrom, hload,
    hloaded⟩ := exists_loadedAs hdict ((encodeDictionary_of_load hdict).trans hencode)
      h.addressable rest
  refine ⟨morpho, hload, fun form => ?_⟩
  have hanalyze := hloaded.analyze_lines h.fewTags hraws hfrom form
  simp only [restored_generic] at hanalyze
  split at hanalyze
  · exact hanalyze
  · next hmissing =>
    -- without lemmas there are no lines
    have hnil : dict.lemmas = [] := by
      by_contra hne
      exact hmissing (h.empty hne)
    have hlines : rawLines text = [] := by
      refine List.eq_nil_iff_forall_not_mem.mpr fun line hline => ?_
      have hmem := ((hfrom.lemmas_spec hraws).2 line.lem).mpr (List.mem_map_of_mem hline)
      rw [hnil] at hmem
      cases hmem
    rw [hlines]
    exact hanalyze

/-- Lines are analyzed for an analyzable dictionary only, if no suffix has too many tags. -/
theorem AnalyzesLines.analyzable (h : AnalyzesLines text data) (hfew : dict.table.FewTags) :
    dict.Analyzable := by
  obtain ⟨morpho, hload, hanalyze⟩ := h []
  -- a line of the dictionary is found for its form
  have hfound : ∀ line ∈ rawLines text, morpho.analyze genericLemmaAddinfo line.form ≠ [] := by
    intro line hline hnil
    have hperm := hanalyze line.form
    rw [hnil] at hperm
    have hempty := List.map_eq_nil_iff.mp hperm.nil_eq.symm
    exact List.filter_eq_nil_iff.mp hempty line (List.mem_dedup.mpr hline) (decide_eq_true rfl)
  have haddressable : Addressable dict.lemmas := by
    refine (addressable_or_emptied hdict hencode hload).resolve_right ?_
    rintro ⟨hne, -, hroots⟩
    obtain ⟨line, hline⟩ := exists_line_of_load hdict hne
    refine hfound line hline ?_
    rw [analyze_eq, List.flatMap_eq_nil_iff]
    intro s _
    rw [endAnalyses, hroots.iter_eq_nil, List.flatMap_nil, ite_self]
  refine ⟨haddressable, hfew, fun hne => ?_⟩
  by_contra hmissing
  obtain ⟨raws, classList, morpho', entries, lemmaEntries, rootEntries, hraws, hfrom, hload',
    hloaded⟩ := exists_loadedAs hdict ((encodeDictionary_of_load hdict).trans hencode)
      haddressable []
  obtain ⟨rfl, -⟩ := Prod.mk.injEq .. ▸ Option.some.inj (hload.symm.trans hload')
  obtain ⟨line, hline⟩ := exists_line_of_load hdict hne
  have hanalyze' := hloaded.analyze_lines hfew hraws hfrom line.form
  rw [if_neg hmissing] at hanalyze'
  exact hfound line hline hanalyze'.eq_nil

end Raw

/-- A lemma with two forms, neither of which is the root. -/
def otherFormsText : Bytes := bytes "x\tN\tab\nx\tN\tac\n"

/-- The dictionary of the lemma without its own form. -/
def otherForms : Dictionary where
  table := ⟨[([98, 9, 78, 9, 99, 9, 78], 0)], [([98], [(0, [0])]), ([99], [(0, [0])])],
    ⟨[[78]], [([78], 0)]⟩⟩
  lemmasHist := [[], [[120]]]
  formsHist := [[], [[97]]]
  lemmas := [⟨[120], [], [⟨[97], 0⟩]⟩]

/-- The lemma without its own form is read. -/
theorem load_otherForms : load genericLemmaAddinfo otherFormsText 8 = some otherForms := by
  have hraws : RawMorphoDictionaryReader.lemmas otherFormsText =
      some [⟨[120], [([97, 98], [78]), ([97, 99], [78])]⟩] := by decide
  have hadd : addLemmas genericLemmaAddinfo 8 [⟨[120], [([97, 98], [78]), ([97, 99], [78])]⟩] =
      some otherForms := by decide +kernel
  rw [load, hraws, Option.bind_eq_bind, Option.bind_some, hadd]
  rfl

/-- The lemma without its own form is encoded. -/
theorem exists_encode_otherForms : ∃ data, otherForms.encode = some data := by
  obtain ⟨entries, hentries⟩ : ∃ entries : List (Bytes × Bytes), entries =
      [([98], [1, 0, 0, 0, 0, 0, 1, 0, 0, 0]), ([99], [1, 0, 0, 0, 0, 0, 1, 0, 0, 0])] := ⟨_, rfl⟩
  have hsuffixes : encodedSuffixes otherForms.table.suffixes = some entries := by
    rw [hentries]
    decide
  obtain ⟨saved, hsaved⟩ := PersistentUnorderedMap.exists_save entries id (5 * ·)
    (by rw [hentries]; decide) (by rw [hentries]; decide) (by rw [hentries]; decide)
    (by rw [hentries]; decide) fun size => le_rfl
  have hlemmas : encodeHistogram otherForms.lemmasHist = some [2, 0, 0, 0, 0, 1, 0, 0, 0] := by
    decide
  have hforms : encodeHistogram otherForms.formsHist = some [2, 0, 0, 0, 0, 1, 0, 0, 0] := by
    decide
  obtain ⟨records, hrecords⟩ : ∃ records, encodeLemmas [] otherForms.lemmas = some records :=
    exists_encodeLemmas (by decide) (by
      simp only [otherForms, List.forall_mem_singleton]
      exact ⟨by decide, ⟨by decide, by decide, by decide⟩, by decide⟩)
  have hcount : add4B otherForms.lemmas.length = some [1, 0, 0, 0] := by decide
  have htags : encodeTags otherForms.table.table.tags = some [1, 0, 1, 78] := by decide
  simp only [encode, hlemmas, hforms, hcount, hrecords, htags, hsuffixes, hsaved,
    Option.bind_eq_bind, Option.bind_some, Option.pure_def]
  exact ⟨_, rfl⟩

/-- What is encoded of a raw dictionary is loaded, and generating with a filter that all tags match
gives the forms and tags of the lines of a lemma, each of them once. -/
def GeneratesLines (text data : Bytes) : Prop :=
  ∀ rest, ∃ morpho, MorphoDictionary.load (data ++ rest) = some (morpho, rest) ∧
    ∀ filter : TagFilter, (∀ tag, filter.matchesTag tag = true) → ∀ lem, ∃ forms,
      forms.Perm (((rawLines text).dedup.filter fun line => line.lem = lem).map fun line =>
        (line.form, line.tag)) ∧
      morpho.generate genericLemmaAddinfo lem filter =
        (decide (∃ line ∈ rawLines text, line.lem = lem),
          if forms = [] then [] else [(lem, forms)])

/-- The filter without a condition is matched by all tags. -/
theorem matchesTag_ofString_nil (tag : Bytes) : (TagFilter.ofString []).matchesTag tag = true := by
  have hfilters : TagFilter.charFilters 0 0 [] = [] := by simp [TagFilter.charFilters]
  rw [TagFilter.matchesTag, TagFilter.ofString, List.takeWhile_nil, hfilters]
  rfl

section Raw

variable {text data : Bytes} {maxSuffixLen : ℤ} {dict : Dictionary}
  (hdict : load genericLemmaAddinfo text maxSuffixLen = some dict)
  (hencode : dict.encode = some data)
include hdict hencode

/-- The lines are generated if the sizes of the records can be counted. -/
theorem generatesLines_of_addressable (h : Addressable dict.lemmas) : GeneratesLines text data := by
  intro rest
  obtain ⟨raws, classList, morpho, entries, lemmaEntries, rootEntries, hraws, hfrom, hload,
    hloaded⟩ := exists_loadedAs hdict ((encodeDictionary_of_load hdict).trans hencode) h rest
  refine ⟨morpho, hload, fun filter hfilter lem => ?_⟩
  obtain ⟨forms, hforms, hgenerate⟩ := hloaded.generate_lines hraws hfrom lem filter
  simp only [hfilter, and_true] at hforms
  refine ⟨forms, hforms, ?_⟩
  rw [hgenerate, decide_eq_decide.mpr List.mem_map]

/-- Lines are generated only if the sizes of the records can be counted. -/
theorem GeneratesLines.addressable (h : GeneratesLines text data) : Addressable dict.lemmas := by
  obtain ⟨morpho, hload, hgenerate⟩ := h []
  refine (addressable_or_emptied hdict hencode hload).resolve_right ?_
  rintro ⟨hne, hlemmas, -⟩
  obtain ⟨line, hline⟩ := exists_line_of_load hdict hne
  obtain ⟨forms, -, heq⟩ := hgenerate _ matchesTag_ofString_nil line.lem
  have hfound := congrArg Prod.fst heq
  simp only [MorphoDictionary.generate, hlemmas.iter_eq_nil, List.map_nil, List.any_nil] at hfound
  exact of_decide_eq_false hfound.symm ⟨line, hline, rfl⟩

end Raw

/-- Many long strings, which differ in their last letters. -/
def longStrings (count : ℕ) : List Bytes :=
  (List.range count).map fun i =>
    (List.range 250).map fun k => if i.testBit (249 - k) then 98 else 97

/-- The long strings are different columns. -/
theorem longStrings_spec {count : ℕ} (hcount : count ≤ 2 ^ 250) :
    (longStrings count).Nodup ∧ ∀ s ∈ longStrings count, ColumnText s ∧ s.length = 250 := by
  constructor
  · refine List.Nodup.map_on ?_ List.nodup_range
    intro i hi j hj heq
    refine Nat.eq_of_testBit_eq fun k => ?_
    rcases Nat.lt_or_ge k 250 with hk | hk
    · have hplace : 249 - k < 250 := by omega
      have hback : 249 - (249 - k) = k := by omega
      have hbit := congrArg (fun l => l[249 - k]?) heq
      simp only [List.getElem?_map, List.getElem?_range hplace, Option.map_some,
        Option.some.injEq, hback] at hbit
      cases hi : i.testBit k <;> cases hj : j.testBit k <;> simp [hi, hj] at hbit ⊢
    · have hlt : ∀ n ∈ List.range count, n.testBit k = false := fun n hn =>
        Nat.testBit_lt_two_pow (((List.mem_range.mp hn).trans_le hcount).trans_le
          (Nat.pow_le_pow_right (by decide) hk))
      rw [hlt i hi, hlt j hj]
  · intro s hs
    obtain ⟨i, -, rfl⟩ := List.mem_map.mp hs
    have hletters : ∀ c ∈ (List.range 250).map
        (fun k => if i.testBit (249 - k) then (98 : Byte) else 97), c = 98 ∨ c = 97 := by
      intro c hc
      obtain ⟨k, -, rfl⟩ := List.mem_map.mp hc
      split
      · exact .inl rfl
      · exact .inr rfl
    refine ⟨⟨fun htab => ?_, fun hlf => ?_⟩, by rw [List.length_map, List.length_range]⟩
    · exact absurd (hletters _ htab) (by decide)
    · exact absurd (hletters _ hlf) (by decide)

/-- The records of so many lemmas of one length cannot be counted. -/
theorem not_addressable_own {strings : List Bytes} (hlength : ∀ s ∈ strings, s.length = 250)
    (hcount : 2 ^ 23 ≤ strings.length) {lemmas : List DictionaryLemma}
    (hlemmas : lemmas.Perm (strings.map ownLemma)) : ¬ Addressable lemmas := by
  intro h
  have hsize := h.lemmaSizes 250
  have hall : ∀ info ∈ lemmas, info.lem.length = 250 ∧ MorphoDictionary.lemmaSize info = 9 := by
    intro info hinfo
    obtain ⟨s, hs, rfl⟩ := List.mem_map.mp (hlemmas.subset hinfo)
    exact ⟨hlength s hs, rfl⟩
  rw [List.filter_eq_self.mpr fun info hinfo => decide_eq_true (hall info hinfo).1,
    List.map_congr_left fun info hinfo => by rw [(hall info hinfo).1, (hall info hinfo).2],
    List.map_const', List.sum_replicate_nat, hlemmas.length_eq, List.length_map] at hsize
  omega

end Dictionary

end UDPipe.Morphodita
