import UDPipe.Morphodita.DictionarySuffixes

/-!
# The lemmas of the dictionary

A raw dictionary is always read: the roots of every lemma, together with the suffixes of their
classes, are the different forms of the lemma with their tags.
-/

namespace UDPipe.Morphodita

/-! ### Histograms -/

namespace Histogram

/-- The histogram reaches to the length of the string. -/
theorem length_add (lengths : Histogram) (str : Bytes) :
    (lengths.add str).length = max lengths.length (str.length + 1) := by
  rw [Histogram.add, List.length_modify, List.length_append, List.length_replicate]
  omega

/-- There is a place for the length of each string. -/
def Covers (lengths : Histogram) (str : Bytes) : Prop := str.length < lengths.length

/-- The added string is covered. -/
theorem covers_add (lengths : Histogram) (str : Bytes) : (lengths.add str).Covers str := by
  rw [Covers, length_add]
  omega

/-- What is covered stays covered. -/
theorem Covers.add {lengths : Histogram} {str : Bytes} (h : lengths.Covers str) (other : Bytes) :
    (lengths.add other).Covers str := by
  rw [Covers, length_add]
  exact lt_max_of_lt_left h

end Histogram

/-! ### Forms of a lemma -/

/-- The members of a class. -/
def membersOf (classList : List (List TaggedForm)) (clas : ℕ) : List TaggedForm :=
  classList[clas]?.getD []

/-- The forms of some roots, with their tags. -/
def formsOf (classList : List (List TaggedForm)) (infos : List LemmaFormInfo) : List TaggedForm :=
  infos.flatMap fun info => withRoot info.form (membersOf classList info.clas)

/-- Classes that are added leave the forms as they are. -/
theorem formsOf_of_begins {classList more : List (List TaggedForm)} (hbegins : classList <+: more)
    {infos : List LemmaFormInfo} (hids : ∀ info ∈ infos, info.clas < classList.length) :
    formsOf more infos = formsOf classList infos := by
  obtain ⟨rest, rfl⟩ := hbegins
  rw [formsOf, formsOf, List.flatMap_def, List.flatMap_def]
  congr 1
  apply List.map_congr_left
  intro info hinfo
  rw [membersOf, membersOf, List.getElem?_append_left (hids info hinfo)]

/-- What the loop over the classes of a lemma adds. -/
structure AddsForms (forms : List TaggedForm) (table table' : ClassTable) (hist hist' : Histogram)
    (classList classList' : List (List TaggedForm)) (infos : List LemmaFormInfo) : Prop where
  begins : classList <+: classList'
  describes : table'.Describes classList'
  tags : table.table.tags <+: table'.table.tags
  perm : forms.Perm (formsOf classList' infos)
  ids : ∀ info ∈ infos, info.clas < classList'.length
  covers : ∀ info ∈ infos, hist'.Covers info.form
  keeps : ∀ str, hist.Covers str → hist'.Covers str

/-- Members are different if they are with the root before them. -/
theorem nodup_of_withRoot {root : Bytes} {members : List TaggedForm}
    (h : (withRoot root members).Nodup) : members.Nodup := List.Nodup.of_map _ h

/-- Members have no tabs if they are without with the root. -/
theorem tabless_of_withRoot {root : Bytes} {members : List TaggedForm}
    (h : Tabless (withRoot root members)) : Tabless members := by
  intro m hm
  have hboth := h _ (List.mem_map_of_mem hm)
  exact ⟨fun htab => hboth.1 (List.mem_append_right _ htab), hboth.2⟩

/-- The loop over the classes of a lemma ends with all forms in some class. -/
theorem exists_addForms (maxSuffixLen : ℤ) {fuel : ℕ} {forms : List TaggedForm}
    (hfuel : forms.length ≤ fuel) (hsorted : forms.Pairwise taggedFormLe) (hnodup : forms.Nodup)
    (htabless : Tabless forms) {table : ClassTable} {classList : List (List TaggedForm)}
    (h : table.Describes classList) (hist : Histogram) (infos : List LemmaFormInfo) :
    ∃ table' hist' more classList', Dictionary.addForms maxSuffixLen fuel forms (table, hist, infos) =
        some (table', hist', infos ++ more) ∧
      AddsForms forms table table' hist hist' classList classList' more := by
  induction fuel generalizing forms table classList hist infos with
  | zero =>
    obtain rfl := List.eq_nil_of_length_eq_zero (Nat.le_zero.mp hfuel)
    exact ⟨table, hist, [], classList, by rw [Dictionary.addForms, List.append_nil],
      List.prefix_rfl, h, List.prefix_rfl, .nil, by simp, by simp, fun _ => id⟩
  | succ fuel ih =>
    by_cases hnil : forms = []
    · subst hnil
      exact ⟨table, hist, [], classList, by rw [Dictionary.addForms, List.append_nil],
        List.prefix_rfl, h, List.prefix_rfl, .nil, by simp, by simp, fun _ => id⟩
    obtain ⟨next, hnext, hcuts⟩ := cuts_nextClass maxSuffixLen hnil hsorted
    have hall := hcuts.perm.nodup_iff.mp hnodup
    have htablessAll : Tabless (withRoot next.root next.members ++ next.rest) :=
      fun m hm => htabless m (hcuts.perm.mem_iff.mpr hm)
    have hmembers := nodup_of_withRoot (List.nodup_append.mp hall).1
    have htablessMembers : Tabless next.members := tabless_of_withRoot
      fun m hm => htablessAll m (List.mem_append_left _ hm)
    obtain ⟨classList₁, hbegins, hdescribes, hget, htags⟩ :=
      h.classId hcuts.members hmembers htablessMembers
    obtain ⟨id, table₁, hid⟩ : ∃ id table₁, table.classId next.members = (id, table₁) :=
      ⟨_, _, rfl⟩
    rw [hid] at hdescribes hget htags
    have hlength : next.rest.length ≤ fuel := by
      have hlengths := hcuts.perm.length_eq
      have hpos := List.length_pos_of_ne_nil hcuts.members
      rw [List.length_append, withRoot, List.length_map] at hlengths
      omega
    obtain ⟨table', hist', more, classList', hforms, hadds⟩ := ih hlength
      (hsorted.sublist hcuts.rest) (List.nodup_append.mp hall).2.1
      (fun m hm => htablessAll m (List.mem_append_right _ hm)) hdescribes (hist.add next.root)
      (infos ++ [⟨next.root, id⟩])
    have hlt := (List.getElem?_eq_some_iff.mp hget).1
    have hroot : withRoot next.root (membersOf classList' id) = withRoot next.root next.members := by
      obtain ⟨rest, rfl⟩ := hadds.begins
      rw [membersOf, List.getElem?_append_left hlt, hget, Option.getD_some]
    have hidLt := hlt.trans_le hadds.begins.length_le
    refine ⟨table', hist', ⟨next.root, id⟩ :: more, classList', ?_, hbegins.trans hadds.begins,
      hadds.describes, htags.trans hadds.tags, ?_, List.forall_mem_cons.mpr ⟨hidLt, hadds.ids⟩,
      List.forall_mem_cons.mpr ⟨hadds.keeps _ (hist.covers_add _), hadds.covers⟩,
      fun str hstr => hadds.keeps str (hstr.add _)⟩
    · obtain ⟨f, forms, rfl⟩ := List.exists_cons_of_ne_nil hnil
      simp only [Dictionary.addForms, hnext, Option.bind_eq_bind, Option.bind_some, hid]
      rw [hforms, List.append_assoc, List.singleton_append]
    · rw [formsOf, List.flatMap_cons, hroot]
      exact hcuts.perm.trans (hadds.perm.append_left _)

/-! ### Lemmas -/

/-- A lemma of the dictionary has the forms of a raw one. -/
structure ReadFrom (addinfo : LemmaAddinfo) (classList : List (List TaggedForm)) (raw : RawLemma)
    (info : DictionaryLemma) : Prop where
  lem : info.lem = raw.lem.take (addinfo.parse raw.lem).1
  addinfo : info.addinfo = (addinfo.parse raw.lem).2
  forms : raw.taggedForms.dedup.Perm (formsOf classList info.forms)

/-- More classes do not change what was read. -/
theorem readFrom_of_begins {addinfo : LemmaAddinfo} {classList more : List (List TaggedForm)}
    (hbegins : classList <+: more) {raws : List RawLemma} {lemmas : List DictionaryLemma}
    (hids : ∀ info ∈ lemmas, ∀ root ∈ info.forms, root.clas < classList.length)
    (h : List.Forall₂ (ReadFrom addinfo classList) raws lemmas) :
    List.Forall₂ (ReadFrom addinfo more) raws lemmas := by
  induction h with
  | nil => exact .nil
  | cons hread _ ih =>
    obtain ⟨hinfo, hids⟩ := List.forall_mem_cons.mp hids
    refine .cons ⟨hread.lem, hread.addinfo, ?_⟩ (ih hids)
    rw [formsOf_of_begins hbegins hinfo]
    exact hread.forms

namespace Dictionary

/-- The dictionary after some raw lemmas. -/
structure Reads (addinfo : LemmaAddinfo) (dict : Dictionary) (classList : List (List TaggedForm))
    (raws : List RawLemma) : Prop where
  table : dict.table.Describes classList
  lemmas : List.Forall₂ (ReadFrom addinfo classList) raws dict.lemmas
  ids : ∀ info ∈ dict.lemmas, ∀ root ∈ info.forms, root.clas < classList.length
  covers : ∀ info ∈ dict.lemmas, dict.lemmasHist.Covers info.lem
  coversRoots : ∀ info ∈ dict.lemmas, ∀ root ∈ info.forms, dict.formsHist.Covers root.form

/-- One lemma more is read. -/
theorem Reads.addLemma {addinfo : LemmaAddinfo} (maxSuffixLen : ℤ) {dict : Dictionary}
    {classList : List (List TaggedForm)} {raws : List RawLemma}
    (h : dict.Reads addinfo classList raws) {raw : RawLemma} (htabless : Tabless raw.taggedForms) :
    ∃ dict' classList', dict.addLemma addinfo maxSuffixLen raw = some dict' ∧
      dict'.Reads addinfo classList' (raws ++ [raw]) := by
  obtain ⟨hsorted, hperm⟩ := unique_sorted raw.taggedForms
  obtain ⟨forms, hforms⟩ : ∃ forms, forms = unique (raw.taggedForms.insertionSort taggedFormLe) :=
    ⟨_, rfl⟩
  rw [← hforms] at hsorted hperm
  have htablessForms : Tabless forms := fun m hm =>
    htabless m (List.mem_dedup.mp (hperm.mem_iff.mp hm))
  obtain ⟨table', hist', more, classList', hadd, hadds⟩ := exists_addForms maxSuffixLen
    (le_refl forms.length) hsorted (hperm.nodup_iff.mpr (List.nodup_dedup _)) htablessForms h.table
    dict.formsHist []
  have hsort := List.perm_insertionSort LemmaFormInfo.le more
  rw [List.nil_append] at hadd
  refine ⟨⟨table', dict.lemmasHist.add (raw.lem.take (addinfo.parse raw.lem).1), hist',
    dict.lemmas ++ [⟨raw.lem.take (addinfo.parse raw.lem).1, (addinfo.parse raw.lem).2,
      more.insertionSort LemmaFormInfo.le⟩]⟩, classList', ?_, hadds.describes, ?_, ?_, ?_, ?_⟩
  · rw [Dictionary.addLemma, ← hforms]
    simp only [hadd]
    rfl
  · refine List.rel_append ?_ (.cons ⟨rfl, rfl, ?_⟩ .nil)
    · exact readFrom_of_begins hadds.begins h.ids h.lemmas
    · exact (hperm.symm.trans hadds.perm).trans (hsort.symm.flatMap_right _)
  · intro info hinfo
    rcases List.mem_append.mp hinfo with hinfo | hinfo
    · exact fun root hroot => (h.ids info hinfo root hroot).trans_le hadds.begins.length_le
    · rw [List.mem_singleton.mp hinfo]
      exact fun root hroot => hadds.ids root (hsort.mem_iff.mp hroot)
  · intro info hinfo
    rcases List.mem_append.mp hinfo with hinfo | hinfo
    · exact (h.covers info hinfo).add _
    · rw [List.mem_singleton.mp hinfo]
      exact Histogram.covers_add _ _
  · intro info hinfo
    rcases List.mem_append.mp hinfo with hinfo | hinfo
    · exact fun root hroot => hadds.keeps _ (h.coversRoots info hinfo root hroot)
    · rw [List.mem_singleton.mp hinfo]
      exact fun root hroot => hadds.covers root (hsort.mem_iff.mp hroot)

/-- Lemmas without tabs are all read. -/
theorem exists_addLemmas (addinfo : LemmaAddinfo) (maxSuffixLen : ℤ) {raws : List RawLemma}
    (htabless : ∀ raw ∈ raws, Tabless raw.taggedForms) :
    ∃ dict classList, addLemmas addinfo maxSuffixLen raws = some dict ∧
      dict.Reads addinfo classList raws := by
  induction raws using List.reverseRecOn with
  | nil =>
    exact ⟨_, [], rfl, ClassTable.describes_empty, .nil, by simp, by simp, by simp⟩
  | append_singleton raws raw ih =>
    obtain ⟨hraws, hraw⟩ := List.forall_mem_append.mp htabless
    obtain ⟨dict, classList, hdict, hreads⟩ := ih hraws
    obtain ⟨dict', classList', hdict', hreads'⟩ :=
      hreads.addLemma maxSuffixLen (hraw raw List.mem_cons_self)
    refine ⟨dict', classList', ?_, hreads'⟩
    rw [addLemmas] at hdict ⊢
    rw [List.foldlM_append, hdict]
    simpa using hdict'

/-- A lemma with a form of its and the tag. -/
abbrev Analysis := Bytes × TaggedForm

/-- The text of a lemma with its data. -/
def lemmaText (addinfo : LemmaAddinfo) (info : DictionaryLemma) : Bytes :=
  info.lem ++ if info.addinfo = [] then [] else addinfo.format info.addinfo

/-- All lemmas with their forms and tags. -/
def analyses (addinfo : LemmaAddinfo) (classList : List (List TaggedForm))
    (lemmas : List DictionaryLemma) : List Analysis :=
  lemmas.flatMap fun info => (formsOf classList info.forms).map fun f => (lemmaText addinfo info, f)

/-- The dictionary that is loaded from a text. -/
structure LoadedFrom (addinfo : LemmaAddinfo) (dict : Dictionary)
    (classList : List (List TaggedForm)) (raws : List RawLemma) : Prop where
  table : dict.table.Describes classList
  ids : ∀ info ∈ dict.lemmas, ∀ root ∈ info.forms, root.clas < classList.length
  covers : ∀ info ∈ dict.lemmas, dict.lemmasHist.Covers info.lem
  coversRoots : ∀ info ∈ dict.lemmas, ∀ root ∈ info.forms, dict.formsHist.Covers root.form
  lemmas : ∃ lemmas, dict.lemmas.Perm lemmas ∧ List.Forall₂ (ReadFrom addinfo classList) raws lemmas

/-- A raw dictionary whose lines can be read is loaded. -/
theorem exists_load (addinfo : LemmaAddinfo) (maxSuffixLen : ℤ) {text : Bytes}
    {raws : List RawLemma} (hraws : RawMorphoDictionaryReader.lemmas text = some raws) :
    ∃ dict classList, Dictionary.load addinfo text maxSuffixLen = some dict ∧
      dict.LoadedFrom addinfo classList raws := by
  obtain ⟨hlines, -, -, htabless⟩ := lemmas_spec hraws
  obtain ⟨dict, classList, hdict, hreads⟩ := @exists_addLemmas addinfo maxSuffixLen raws
    fun raw hraw f hf => by
      have hline : (⟨raw.lem, f.2, f.1⟩ : RawLine) ∈ rawLines text := by
        rw [hlines]
        exact List.mem_flatMap.mpr ⟨raw, hraw, List.mem_map.mpr ⟨f, hf, rfl⟩⟩
      exact ⟨(htabless _ hline).form, (htabless _ hline).tag⟩
  have hsort := List.perm_insertionSort DictionaryLemma.le dict.lemmas
  refine ⟨{ dict with lemmas := dict.lemmas.insertionSort DictionaryLemma.le }, classList, ?_,
    hreads.table, ?_, ?_, ?_, _, hsort, hreads.lemmas⟩
  · rw [load, hraws, Option.bind_eq_bind, Option.bind_some, hdict]
    rfl
  · exact fun info hinfo => hreads.ids info (hsort.mem_iff.mp hinfo)
  · exact fun info hinfo => hreads.covers info (hsort.mem_iff.mp hinfo)
  · exact fun info hinfo => hreads.coversRoots info (hsort.mem_iff.mp hinfo)

end Dictionary

end UDPipe.Morphodita
