import UDPipe.Morphodita.DictionaryAnalysis

/-!
# Generating with a dictionary that was loaded

The classes are filled from the entries of all suffixes, in the order of the map. The roots of a
lemma with the suffixes of their classes are the forms of the lemma in the raw dictionary.
-/

namespace UDPipe.Morphodita

open FnvHash (Measures)

namespace MorphoDictionary

/-! ### Filling the classes -/

/-- A suffix is added to its class. -/
theorem getD_addSuffix (classes : List (List (Bytes × List ℕ))) (clas : ℕ)
    (suffix : Bytes × List ℕ) (id : ℕ) : (addSuffix classes clas suffix).getD id [] =
      if clas = id then classes.getD id [] ++ [suffix] else classes.getD id [] := by
  have hresized : ∀ i, (classes ++ List.replicate (clas + 1 - classes.length) []).getD i [] =
      classes.getD i [] := by
    intro i
    rcases Nat.lt_or_ge i classes.length with hlt | hge
    · rw [List.getD_append _ _ _ _ hlt]
    · rw [List.getD_append_right _ _ _ _ hge, List.getD_eq_default _ _ hge,
        List.getD_eq_getElem?_getD, List.getElem?_replicate]
      split <;> rfl
  rw [addSuffix, List.getD_eq_getElem?_getD, List.getElem?_modify]
  split
  · next heq =>
    subst heq
    have hlt : clas < (classes ++ List.replicate (clas + 1 - classes.length) []).length := by
      rw [List.length_append, List.length_replicate]
      omega
    have hget := hresized clas
    rw [List.getD_eq_getElem _ _ hlt] at hget
    rw [List.getElem?_eq_getElem hlt, hget]
    rfl
  · rw [← hresized id, List.getD_eq_getElem?_getD]
    cases (classes ++ List.replicate (clas + 1 - classes.length) [])[id]? <;> rfl

/-- A class has the suffixes that were added to it. -/
theorem getD_foldl_addSuffix (pairs : List (ℕ × (Bytes × List ℕ)))
    (classes : List (List (Bytes × List ℕ))) (id : ℕ) :
    (pairs.foldl (fun classes p => addSuffix classes p.1 p.2) classes).getD id [] =
      classes.getD id [] ++ (pairs.filter fun p => p.1 = id).map Prod.snd := by
  induction pairs generalizing classes with
  | nil => simp
  | cons p pairs ih =>
    rw [List.foldl_cons, ih, getD_addSuffix, List.filter_cons]
    by_cases hp : p.1 = id
    · simp [hp]
    · simp [hp]

/-- A class has the suffixes whose entries list it. -/
theorem getD_fillClasses (suffixes : PersistentUnorderedMap) (id : ℕ) :
    (fillClasses suffixes).getD id [] = (suffixes.iterAll loadedSize).flatMap fun r =>
      ((loadedClasses r.2).filter fun clas => clas.1 = id).map fun clas => (r.1, clas.2) := by
  have hpairs : fillClasses suffixes = ((suffixes.iterAll loadedSize).flatMap fun r =>
      (loadedClasses r.2).map fun clas => (clas.1, (r.1, clas.2))).foldl
        (fun classes p => addSuffix classes p.1 p.2) [] := by
    rw [fillClasses, List.foldl_flatMap]
    simp only [List.foldl_map]
  rw [hpairs, getD_foldl_addSuffix, List.filter_flatMap, List.map_flatMap]
  simp only [List.getD_nil, List.nil_append, List.filter_map, List.map_map]
  rfl

end MorphoDictionary

namespace Dictionary

open MorphoDictionary

variable {dict : Dictionary} {classList : List (List TaggedForm)} {morpho : MorphoDictionary}
  {entries lemmaEntries rootEntries : List (Bytes × Bytes)}

/-- The suffixes of a class with the tags. -/
def namedSuffixes (morpho : MorphoDictionary) (clas : ℕ) : List TaggedForm :=
  (morpho.classes.getD clas []).flatMap fun suffix =>
    suffix.2.map fun tag => (suffix.1, morpho.tags.getD tag [])

/-- A class that was loaded has its members. -/
theorem LoadedAs.namedSuffixes_perm
    (h : dict.LoadedAs classList morpho entries lemmaEntries rootEntries) (clas : ℕ) :
    (namedSuffixes morpho clas).Perm (membersOf classList clas) := by
  have hall := h.suffixes.iterAll loadedSize h.encodes.measures_loaded
  -- an entry has the tags of its suffix in the class
  have hrecord : ∀ r ∈ morpho.suffixes.iterAll loadedSize,
      (((loadedClasses r.2).filter fun c => c.1 = clas).map fun c => (r.1, c.2)).flatMap
          (fun suffix => suffix.2.map fun tag => (suffix.1, morpho.tags.getD tag [])) =
        (membersOf classList clas).filter fun m => m.1 = r.1 := by
    intro r hr
    have hentry := hall.subset (List.mem_map_of_mem hr)
    obtain ⟨suffix, hfits, hdata, hentryFor, -⟩ := h.encodes.entry _ hentry
    dsimp only at hdata hentryFor
    have hsplit := (List.take_append_drop (loadedSize r.2) r.2).symm
    rw [hdata] at hsplit
    have hclasses : loadedClasses r.2 = suffix.classes := by
      rw [hsplit]
      exact SuffixClasses.loadedClasses_data hfits _
    have htags : (tagsOf r.1 (membersOf classList clas)).map (fun tag => (r.1, tag)) =
        (membersOf classList clas).filter fun m => m.1 = r.1 := by
      rw [tagsOf, List.map_map]
      refine (List.map_congr_left fun m hm => ?_).trans (List.map_id _)
      rw [Function.comp_apply, ← of_decide_eq_true (List.mem_filter.mp hm).2]
      rfl
    rw [hclasses, ← htags, ← hentryFor.names, ← suffix.flatMap_filter_classes, List.flatMap_map,
      List.map_map, List.map_flatMap, h.tags]
    rfl
  have hnamed : namedSuffixes morpho clas =
      ((morpho.suffixes.iterAll loadedSize).map Prod.fst).flatMap fun str =>
        (membersOf classList clas).filter fun m => m.1 = str := by
    rw [namedSuffixes, h.classes, getD_fillClasses, List.flatMap_assoc, List.flatMap_map]
    exact List.flatMap_congr hrecord
  have hkeys : ((morpho.suffixes.iterAll loadedSize).map Prod.fst).Perm (entries.map Prod.fst) := by
    have hmap := hall.map Prod.fst
    rwa [List.map_map] at hmap
  rw [hnamed]
  refine NestedLoops.flatMap_keys_perm (hkeys.nodup_iff.mpr h.encodes.nodup) Prod.fst ?_
  intro m hm
  rw [hkeys.mem_iff]
  by_contra hnot
  have hnil := h.encodes.missing m.1 hnot clas
  rw [tagsOf, List.map_eq_nil_iff, List.filter_eq_nil_iff] at hnil
  exact hnil m hm (decide_eq_true rfl)

/-! ### Forms of a lemma -/

/-- The forms of a root are read at its place. -/
theorem LoadedAs.generateRoot_perm
    (h : dict.LoadedAs classList morpho entries lemmaEntries rootEntries) (filter : TagFilter)
    {root : LemmaFormInfo} {place : ℕ} (hplace : RootAt morpho.roots root.form place)
    (hlength : root.form.length < 256) (hclas : root.clas < 2 ^ 16) (more : Bytes) :
    (morpho.generateRoot filter (rootPointer (root, place) ++ more)).Perm
      ((withRoot root.form (membersOf classList root.clas)).filter fun f =>
        filter.matchesTag f.2) := by
  obtain ⟨rest, hdrop⟩ := hplace.drop
  have hdata : rootPointer (root, place) ++ more =
      toBytes 4 place ++ (toBytes 1 root.form.length ++ (toBytes 2 root.clas ++ more)) := by
    simp only [rootPointer, List.append_assoc]
  have hlenData : (rootPointer (root, place) ++ more).drop 4 =
      toBytes 1 root.form.length ++ (toBytes 2 root.clas ++ more) := by
    rw [hdata, List.drop_left' (length_toBytes 4 _)]
  have hclasData : (rootPointer (root, place) ++ more).drop 5 = toBytes 2 root.clas ++ more := by
    have hnext := congrArg (List.drop 1) hlenData
    rwa [List.drop_drop, List.drop_left' (length_toBytes 1 _)] at hnext
  have hloadPlace : unalignedLoad 4 (rootPointer (root, place) ++ more) = place :=
    hdata ▸ unalignedLoad_append hplace.lt _
  have hloadLen : unalignedLoad 1 ((rootPointer (root, place) ++ more).drop 4) =
      root.form.length := hlenData ▸ unalignedLoad_append hlength _
  have hloadClas : unalignedLoad 2 ((rootPointer (root, place) ++ more).drop 5) = root.clas :=
    hclasData ▸ unalignedLoad_append hclas _
  refine .trans (.of_eq ?_)
    (((h.namedSuffixes_perm root.clas).map fun m => (root.form ++ m.1, m.2)).filter _)
  simp only [generateRoot, hloadPlace, hloadLen, hloadClas, hdrop, List.take_left, namedSuffixes,
    List.map_flatMap, List.filter_flatMap, List.map_map, List.filter_map]
  refine List.flatMap_congr fun suffix _ => ?_
  rw [← List.filterMap_eq_map, List.filterMap_filter]
  rfl

/-- The forms of all roots. -/
theorem LoadedAs.generateRoots_perm
    (h : dict.LoadedAs classList morpho entries lemmaEntries rootEntries) (filter : TagFilter)
    {info : DictionaryLemma} (hinfo : info ∈ dict.lemmas) {places : List (LemmaFormInfo × ℕ)}
    (hplaces : places.map Prod.fst = info.forms)
    (hroots : ∀ root ∈ places, RootAt morpho.roots root.1.form root.2) (more : Bytes) :
    ((List.range info.forms.length).flatMap fun i =>
        morpho.generateRoot filter ((places.flatMap rootPointer ++ more).drop (7 * i))).Perm
      ((formsOf classList info.forms).filter fun f => filter.matchesTag f.2) := by
  have hall : ∀ root ∈ places, root.1.form.length < 256 ∧ root.1.clas < 2 ^ 16 := by
    intro root hroot
    have hmem : root.1 ∈ info.forms := hplaces ▸ List.mem_map_of_mem hroot
    exact ⟨h.rootLengths info hinfo _ hmem, (h.fits info hinfo).classes _ hmem⟩
  rw [← hplaces]
  clear hplaces
  induction places with
  | nil => exact .nil
  | cons root places ih =>
    obtain ⟨hroot, hroots⟩ := List.forall_mem_cons.mp hroots
    obtain ⟨hfits, hall⟩ := List.forall_mem_cons.mp hall
    have hfirst := h.generateRoot_perm filter hroot hfits.1 hfits.2
      (places.flatMap rootPointer ++ more)
    have hnext : ∀ i, ((root :: places).flatMap rootPointer ++ more).drop (7 * (i + 1)) =
        (places.flatMap rootPointer ++ more).drop (7 * i) := by
      intro i
      have hlength : (rootPointer root).length = 7 := by
        simp only [rootPointer, List.length_append, length_toBytes]
      rw [Nat.mul_succ, Nat.add_comm, ← List.drop_drop, List.flatMap_cons, List.append_assoc,
        List.drop_left' hlength]
    have hforms : formsOf classList ((root :: places).map Prod.fst) =
        withRoot root.1.form (membersOf classList root.1.clas) ++
          formsOf classList (places.map Prod.fst) := List.flatMap_cons ..
    have hrange : (List.range ((root :: places).map Prod.fst).length).flatMap (fun i =>
        morpho.generateRoot filter (((root :: places).flatMap rootPointer ++ more).drop (7 * i))) =
        morpho.generateRoot filter (rootPointer root ++ (places.flatMap rootPointer ++ more)) ++
          (List.range (places.map Prod.fst).length).flatMap fun i =>
            morpho.generateRoot filter ((places.flatMap rootPointer ++ more).drop (7 * i)) := by
      rw [List.map_cons, List.length_cons, List.range_succ_eq_map, List.flatMap_cons,
        List.flatMap_map]
      simp only [Nat.succ_eq_add_one, hnext]
      rw [Nat.mul_zero, List.drop_zero, List.flatMap_cons, List.append_assoc]
    rw [hrange, hforms, List.filter_append]
    exact hfirst.append (ih hroots hall)

/-- The entry of a lemma is read. -/
theorem lemmaEntry_read {info : DictionaryLemma} (hfits : RecordFits info)
    (places : List (LemmaFormInfo × ℕ)) (more : Bytes) :
    unalignedLoad 1 ((lemmaEntry info places).2 ++ more) = info.addinfo.length ∧
      unalignedLoad 1 (((lemmaEntry info places).2 ++ more).drop (1 + info.addinfo.length)) =
        info.forms.length ∧
      ((lemmaEntry info places).2 ++ more).drop (1 + info.addinfo.length + 1) =
        places.flatMap rootPointer ++ more := by
  have hdata : (lemmaEntry info places).2 ++ more = toBytes 1 info.addinfo.length ++
      (info.addinfo ++ (toBytes 1 info.forms.length ++ (places.flatMap rootPointer ++ more))) := by
    simp only [lemmaEntry, List.append_assoc]
  have hdrop : ((lemmaEntry info places).2 ++ more).drop (1 + info.addinfo.length) =
      toBytes 1 info.forms.length ++ (places.flatMap rootPointer ++ more) := by
    rw [hdata, ← List.drop_drop, List.drop_left' (length_toBytes 1 _), List.drop_left]
  refine ⟨hdata ▸ unalignedLoad_append hfits.addinfo _,
    hdrop ▸ unalignedLoad_append hfits.count _, ?_⟩
  rw [← List.drop_drop, hdrop, List.drop_left' (length_toBytes 1 _)]

/-- What is generated for the entry of a lemma. -/
theorem LoadedAs.generateLemma_eq
    (h : dict.LoadedAs classList morpho entries lemmaEntries rootEntries) (filter : TagFilter)
    {info : DictionaryLemma} (hinfo : info ∈ dict.lemmas) {places : List (LemmaFormInfo × ℕ)}
    (hplaces : places.map Prod.fst = info.forms)
    (hroots : ∀ root ∈ places, RootAt morpho.roots root.1.form root.2) {record : Bytes × Bytes}
    (hrecord : FnvHash.Reads record (lemmaEntry info places)) :
    ∃ forms, forms.Perm ((formsOf classList info.forms).filter fun f => filter.matchesTag f.2) ∧
      morpho.generateLemma genericLemmaAddinfo info.lem filter record =
        (true, if forms = [] then none else some (info.lem, forms)) := by
  obtain ⟨hkey, more, hdata⟩ := hrecord
  obtain ⟨hlen, hcount, hdrop⟩ := lemmaEntry_read (h.fits info hinfo) places more
  rw [← hdata] at hlen hcount hdrop
  refine ⟨_, h.generateRoots_perm filter hinfo hplaces hroots more, ?_⟩
  have hkey' : info.lem = record.1 := hkey.symm
  simp only [generateLemma, genericLemmaAddinfo, hlen, hcount, hdrop, ← hkey', List.take_length,
    List.append_nil, and_self, if_true]

/-- The decoder gets over the entries of the lemmas. -/
theorem LoadedAs.measures_lemmas
    (h : dict.LoadedAs classList morpho entries lemmaEntries rootEntries) :
    Measures lemmaEntrySize lemmaEntries := by
  intro e he more
  obtain ⟨info, hinfo, places, hplaces, rfl, -⟩ := exists_of_forall₂ h.linked.lemmas_filled he
  obtain ⟨hlen, hcount, -⟩ := lemmaEntry_read (h.fits info hinfo) places more
  rw [length_lemmaEntry hplaces]
  simp only [lemmaEntrySize, lemmaSize, hlen, hcount]

/-- The entries of lemmas are not empty. -/
theorem LoadedAs.lemmaEntries_ne_nil
    (h : dict.LoadedAs classList morpho entries lemmaEntries rootEntries) :
    ∀ e ∈ lemmaEntries, e.2 ≠ [] := by
  intro e he hnil
  obtain ⟨info, -, places, hplaces, rfl, -⟩ := exists_of_forall₂ h.linked.lemmas_filled he
  have hlength := length_lemmaEntry hplaces
  rw [hnil, List.length_nil, lemmaSize] at hlength
  omega

/-- Only the entries with the lemma count. -/
theorem generate_filter (morpho : MorphoDictionary) (lem : Bytes) (filter : TagFilter) :
    morpho.generate genericLemmaAddinfo lem filter =
      let found := ((morpho.lemmas.iter lem lemmaEntrySize).filter fun r => r.1 = lem).map
        (morpho.generateLemma genericLemmaAddinfo lem filter)
      (found.any Prod.fst, found.filterMap Prod.snd) := by
  have hparse : lem.take (genericLemmaAddinfo.parse lem).1 = lem := List.take_length
  have hother : ∀ r : Bytes × Bytes, r.1 ≠ lem →
      morpho.generateLemma genericLemmaAddinfo lem filter r = (false, none) := by
    intro r hr
    simp only [generateLemma, hparse, Ne.symm hr, false_and, if_false]
  rw [generate, hparse]
  dsimp only
  rw [List.any_map, List.any_map, List.filterMap_map, List.filterMap_map, List.any_filter,
    List.filterMap_filter]
  refine Prod.ext ?_ ?_
  · dsimp only
    congr 1
    funext r
    by_cases hr : r.1 = lem
    · simp [hr]
    · simp [hother r hr, hr]
  · dsimp only
    congr 1
    funext r
    by_cases hr : r.1 = lem
    · simp [hr]
    · simp [hother r hr, hr]

/-- A lemma is matched if the dictionary has it, and its forms with the tags are generated. -/
theorem LoadedAs.generate_eq
    (h : dict.LoadedAs classList morpho entries lemmaEntries rootEntries)
    (hlems : (dict.lemmas.map DictionaryLemma.lem).Nodup) (lem : Bytes) (filter : TagFilter) :
    if lem ∈ dict.lemmas.map DictionaryLemma.lem then
      ∃ info ∈ dict.lemmas, info.lem = lem ∧ ∃ forms,
        forms.Perm ((formsOf classList info.forms).filter fun f => filter.matchesTag f.2) ∧
        morpho.generate genericLemmaAddinfo lem filter =
          (true, if forms = [] then [] else [(lem, forms)])
    else morpho.generate genericLemmaAddinfo lem filter = (false, []) := by
  obtain ⟨tables, elems, hbuilt, htables⟩ := h.linked.lemma_built
  dsimp only at hbuilt
  have hreads := @PersistentUnorderedMap.filter_iter_reads tables elems lemmaEntries
    h.lemmaEntries_ne_nil htables lemmaEntrySize h.measures_lemmas lem
  rw [← hbuilt] at hreads
  have hfilled := @List.rel_filter _ _ _ (fun info : DictionaryLemma => decide (info.lem = lem))
    (fun e : Bytes × Bytes => decide (e.1 = lem)) (by
      rintro info e ⟨places, -, rfl, -⟩
      rfl) _ _ h.linked.lemmas_filled
  obtain ⟨records, hrecords⟩ : ∃ records, records = morpho.lemmas.iter lem lemmaEntrySize :=
    ⟨_, rfl⟩
  rw [← hrecords] at hreads
  rw [generate_filter, ← hrecords]
  split
  · next hmem =>
    obtain ⟨info, hinfo, rfl⟩ := List.mem_map.mp hmem
    rw [Associations.filter_eq_singleton hlems hinfo] at hfilled
    obtain ⟨e, _, ⟨places, hplaces, rfl, hroots⟩, hnil, hentries⟩ :=
      List.forall₂_cons_left_iff.mp hfilled
    obtain rfl := List.forall₂_nil_left_iff.mp hnil
    rw [hentries] at hreads
    obtain ⟨record, _, hread, hnil', hfound⟩ := List.forall₂_cons_right_iff.mp hreads
    obtain rfl := List.forall₂_nil_right_iff.mp hnil'
    obtain ⟨forms, hforms, hlemma⟩ := h.generateLemma_eq filter hinfo hplaces hroots hread
    refine ⟨info, hinfo, rfl, forms, hforms, ?_⟩
    dsimp only
    rw [hfound, List.map_singleton, hlemma]
    split <;> rfl
  · next hmem =>
    have hnil : dict.lemmas.filter (fun info => info.lem = lem) = [] :=
      List.filter_eq_nil_iff.mpr fun info hinfo heq =>
        hmem (of_decide_eq_true heq ▸ List.mem_map_of_mem hinfo)
    rw [hnil] at hfilled
    rw [List.forall₂_nil_left_iff.mp hfilled] at hreads
    rw [List.forall₂_nil_right_iff.mp hreads]
    rfl

/-! ### Lemmas of the raw dictionary -/

section Raw

variable {text : Bytes} {raws : List RawLemma}
  (hraws : RawMorphoDictionaryReader.lemmas text = some raws)
  (hfrom : dict.LoadedFrom genericLemmaAddinfo classList raws)
include hraws hfrom

/-- The lemmas are those of the lines, and different. -/
theorem LoadedFrom.lemmas_spec : (dict.lemmas.map DictionaryLemma.lem).Nodup ∧
    ∀ lem, lem ∈ dict.lemmas.map DictionaryLemma.lem ↔ lem ∈ (rawLines text).map RawLine.lem := by
  obtain ⟨hlines, hnodup, hforms, -⟩ := Morphodita.lemmas_spec hraws
  obtain ⟨lemmas, hperm, hread⟩ := hfrom.lemmas
  have hlems : lemmas.map DictionaryLemma.lem = raws.map RawLemma.lem := by
    rw [eq_comm, ← List.forall₂_eq_eq_eq, List.forall₂_map_left_iff, List.forall₂_map_right_iff]
    refine hread.imp fun raw info hinfo => ?_
    rw [hinfo.lem]
    exact List.take_length.symm
  have hperm' : (dict.lemmas.map DictionaryLemma.lem).Perm (raws.map RawLemma.lem) :=
    hlems ▸ hperm.map _
  refine ⟨hperm'.nodup_iff.mpr hnodup, fun lem => ?_⟩
  rw [hperm'.mem_iff, hlines, List.map_flatMap]
  simp only [RawLemma.lines, List.map_map, List.mem_map, List.mem_flatMap, Function.comp_apply]
  constructor
  · rintro ⟨raw, hraw, rfl⟩
    obtain ⟨f, hf⟩ := List.exists_mem_of_ne_nil _ (hforms raw hraw)
    exact ⟨raw, hraw, f, hf, rfl⟩
  · rintro ⟨raw, hraw, f, -, rfl⟩
    exact ⟨raw, hraw, rfl⟩

/-- The forms of a lemma are those of its lines. -/
theorem LoadedFrom.formsOf_perm {info : DictionaryLemma} (hinfo : info ∈ dict.lemmas) :
    (formsOf classList info.forms).Perm
      (((rawLines text).dedup.filter fun line => line.lem = info.lem).map fun line =>
        (line.form, line.tag)) := by
  obtain ⟨hnodup, -⟩ := hfrom.lemmas_spec hraws
  have htext : ∀ info, lemmaText genericLemmaAddinfo info = info.lem := by
    intro info
    simp [lemmaText, genericLemmaAddinfo]
  have hfound : ((analyses genericLemmaAddinfo classList dict.lemmas).filter fun a =>
      a.1 = info.lem).map Prod.snd = formsOf classList info.forms := by
    rw [analyses, List.filter_flatMap, List.map_flatMap,
      NestedLoops.flatMap_eq_of_nodup (hnodup.of_map _) hinfo]
    · rw [List.filter_eq_self.mpr, List.map_map]
      · exact List.map_id _
      · intro a ha
        obtain ⟨f, -, rfl⟩ := List.mem_map.mp ha
        exact decide_eq_true (htext info)
    · intro other hother hne
      rw [List.map_eq_nil_iff, List.filter_eq_nil_iff]
      intro a ha heq
      obtain ⟨f, -, rfl⟩ := List.mem_map.mp ha
      have hlem := of_decide_eq_true heq
      rw [htext] at hlem
      exact hne (List.inj_on_of_nodup_map hnodup hother hinfo hlem)
  refine .trans (.of_eq hfound.symm) ((((hfrom.analyses_perm hraws).filter _).map _).trans
    (.of_eq ?_))
  rw [List.filter_map, List.map_map]
  congr 1
  apply List.filter_congr
  intro line _
  rw [Function.comp_apply, restored_generic]

/-- What is generated are the forms of the different lines with the lemma and the tags. -/
theorem LoadedAs.generate_lines
    (h : dict.LoadedAs classList morpho entries lemmaEntries rootEntries) (lem : Bytes)
    (filter : TagFilter) : ∃ forms, forms.Perm
        (((rawLines text).dedup.filter fun line =>
          line.lem = lem ∧ filter.matchesTag line.tag = true).map fun line =>
            (line.form, line.tag)) ∧
      morpho.generate genericLemmaAddinfo lem filter =
        (decide (lem ∈ (rawLines text).map RawLine.lem),
          if forms = [] then [] else [(lem, forms)]) := by
  obtain ⟨hnodup, hmem⟩ := hfrom.lemmas_spec hraws
  have hgenerate := h.generate_eq hnodup lem filter
  split at hgenerate
  · next hlem =>
    obtain ⟨info, hinfo, rfl, forms, hforms, heq⟩ := hgenerate
    refine ⟨forms, hforms.trans (((hfrom.formsOf_perm hraws hinfo).filter _).trans (.of_eq ?_)), ?_⟩
    · rw [List.filter_map, List.filter_filter]
      congr 1
      apply List.filter_congr
      intro line _
      rw [Bool.decide_and, Bool.decide_eq_true, Bool.and_comm]
      rfl
    · rw [heq, decide_eq_true ((hmem _).mp hlem)]
  · next hlem =>
    refine ⟨[], ?_, ?_⟩
    · rw [List.filter_eq_nil_iff.mpr]
      · exact .nil
      · intro line hline heq
        obtain ⟨hline', -⟩ := of_decide_eq_true heq
        exact hlem ((hmem lem).mpr (hline' ▸ List.mem_map_of_mem (List.mem_dedup.mp hline)))
    · rw [hgenerate, decide_eq_false fun hline => hlem ((hmem lem).mpr hline)]
      rfl

end Raw

end Dictionary

end UDPipe.Morphodita
