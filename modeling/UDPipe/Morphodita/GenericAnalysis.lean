import UDPipe.Morphodita.DictionaryGeneration
import UDPipe.Morphodita.GenericMorpho
import UDPipe.Morphodita.Guessing

/-!
# Analyzing with a generic morphology that was loaded

A form and its variants are looked for in the lines of the raw dictionary. If there are none, the
form is a number, punctuation or a symbol, or else the guesser applies the most specific rules of
its description, no rule twice.
-/

namespace UDPipe.Morphodita

/-! ### Guesses for several forms -/

namespace GuesserDescription

/-- What the most specific rule gives for a form, for the labels that were used. -/
inductive Finds (description : GuesserDescription) (used : List Bytes) (form : Bytes) :
    List (Bytes × Bytes) → List Bytes → Prop
  | rule {line : GuesserLine} (hmost : description.MostSpecific form line)
      (hnew : line.label ∉ used) :
      Finds description used form (description.pairs form line.pref line.suff)
        (used ++ [line.label])
  | usedRule {line : GuesserLine} (hmost : description.MostSpecific form line)
      (hused : line.label ∈ used) : Finds description used form [] used
  | noRule (hnone : ∀ line ∈ description.lines, ¬ line.Applies form) :
      Finds description used form [] used

/-- The guesses for a form; the default tag is given only once, too. -/
inductive GuessesUsing (description : GuesserDescription) (used : List Bytes) (form : Bytes) :
    List (Bytes × Bytes) → List Bytes → Prop
  | found {found : List (Bytes × Bytes)} {used' : List Bytes}
      (hfinds : description.Finds used form found used') (hne : found ≠ []) :
      GuessesUsing description used form found used'
  | default {used' : List Bytes} (hfinds : description.Finds used form [] used')
      (hnew : [] ∉ used') :
      GuessesUsing description used form [(form, description.defaultTag)] (used' ++ [[]])
  | nothing {used' : List Bytes} (hfinds : description.Finds used form [] used')
      (hused : [] ∈ used') : GuessesUsing description used form [] used'

/-- The guesses for some forms one after another. -/
inductive GuessesAll (description : GuesserDescription) :
    List Bytes → List Bytes → List (Bytes × Bytes) → Prop
  | nil (used : List Bytes) : GuessesAll description used [] []
  | cons {used used' forms : List Bytes} {form : Bytes} {found more : List (Bytes × Bytes)}
      (hform : description.GuessesUsing used form found used')
      (hforms : GuessesAll description used' forms more) :
      GuessesAll description used (form :: forms) (found ++ more)

/-- A label is not empty. -/
theorem label_ne_nil (line : GuesserLine) : line.label ≠ [] := by
  rw [GuesserLine.label, ruleLabel]
  simp

/-- The empty label is never used. -/
theorem Finds.nil_not_mem {description : GuesserDescription} {used used' : List Bytes}
    {form : Bytes} {found : List (Bytes × Bytes)} (h : description.Finds used form found used')
    (hused : [] ∉ used) : [] ∉ used' := by
  cases h with
  | rule hmost hnew =>
    rw [List.mem_append, List.mem_singleton, not_or]
    exact ⟨hused, (label_ne_nil _).symm⟩
  | usedRule hmost hin => exact hused
  | noRule hnone => exact hused

/-- The first form has a guess. -/
theorem GuessesUsing.ne_nil {description : GuesserDescription} {used used' : List Bytes}
    {form : Bytes} {found : List (Bytes × Bytes)}
    (h : description.GuessesUsing used form found used') (hused : [] ∉ used) : found ≠ [] := by
  cases h with
  | found hfinds hne => exact hne
  | default hfinds hnew => exact List.cons_ne_nil _ _
  | nothing hfinds hmem => exact absurd hmem (hfinds.nil_not_mem hused)

end GuesserDescription

namespace MorphoStatisticalGuesser

/-- The guesser has the rules of a description. -/
structure Follows (guesser : MorphoStatisticalGuesser) (description : GuesserDescription) :
    Prop where
  defaultTag : guesser.tags.getD guesser.defaultTag [] = description.defaultTag
  rules : ∀ form,
    let found := findRule (fun label => guesser.rules.entryAt label ruleEntrySize) form
      (suffixLen (fun label => guesser.rules.entryAt label ruleEntrySize) form.reverse [])
    (∃ line rule, description.MostSpecific form line ∧ found = some (rule, line.label) ∧
        line.label.length > 1 ∧
        applyRules form guesser.tags (unalignedLoad 1 rule) (rule.drop 1) =
          description.pairs form line.pref line.suff) ∨
      (∀ line ∈ description.lines, ¬ line.Applies form) ∧
        ∀ rule label, found = some (rule, label) → ¬ label.length > 1

/-- The rules of the description are found. -/
theorem follows_of_encodes {description : GuesserDescription}
    (hlines : ∀ line ∈ description.lines, line.WellFormed) {tables : GuesserTables}
    (htables : tables.Reads description.lines) {guesser : MorphoStatisticalGuesser}
    (htags : guesser.tags = tables.table.tags)
    (hdefault : guesser.tags.getD guesser.defaultTag [] = description.defaultTag)
    {entries : List (Bytes × Bytes)} (hentries : Encodes tables.statisticalGuesser entries)
    (hrules : guesser.rules.Represents entries) : guesser.Follows description where
  defaultTag := hdefault
  rules form := by
    have hfinds := hentries.finds htables.nodup (fun e he => htables.rules_ne_nil hlines he) hrules
    rcases search_spec hfinds form with ⟨s, p, found, hmost, hfound, heq⟩ | ⟨hnone, heq⟩
    · obtain ⟨line, hline, hlabel⟩ := htables.mem_labels.mp hmost.mem
      obtain ⟨hs, hp, hspecific, hempty⟩ := GuesserDescription.mostSpecific_of_label hlines
        (fun label => htables.mem_labels) hmost hline hlabel
      have hlength : (affixLabel form s p).length = s + p + 1 := by
        rw [← hlabel, GuesserLine.label, ruleLabel]
        simp only [List.length_append, List.length_reverse, List.length_cons]
        omega
      simp only [heq]
      by_cases hpos : 0 < s + p
      · refine .inl ⟨line, found.drop 2, hspecific hpos, by rw [hlabel], by rw [hlabel]; omega, ?_⟩
        obtain ⟨e, he, hkey⟩ := List.mem_map.mp hmost.mem
        have htouched := @PersistentUnorderedMap.touched_enlarged _ ([] : List (Replacement ℕ)) _
          htables.nodup
        obtain ⟨entry, hentry, hsame, hencode⟩ := hentries.mem_of e (htouched.mem_of_mem e he)
        obtain ⟨more, hmore⟩ := hentries.find_mem hrules hentry
        rw [← hsame, hkey] at hmore
        obtain rfl : entry.2 ++ more = found := Option.some.inj (hmore.symm.trans hfound)
        obtain ⟨-, -, hcount, cells, hcells, hdata⟩ := encodeRules_eq_some hencode more
        have happly := @applyRules_append form _ _ _ (htables.resolves he) cells hcells more
        rw [hcount, hdata, htags, happly, GuesserDescription.pairs_eq hlines, hlabel, hkey]
      · refine .inr ⟨hempty (by omega), fun rule label hsome => ?_⟩
        obtain ⟨-, rfl⟩ := Prod.mk.injEq .. ▸ Option.some.inj hsome
        omega
    · refine .inr ⟨GuesserDescription.not_applies_of_label hlines
        (fun label => htables.mem_labels) hnone, fun rule label hsome => ?_⟩
      rw [heq] at hsome
      cases hsome

/-- A guesser that was encoded and loaded follows its description. -/
theorem exists_load_follows {text data : Bytes} (hencode : encodeGuesser text = some data)
    (rest : Bytes) : ∃ description guesser, GuesserDescription.parse text = some description ∧
      load (data ++ rest) = some (guesser, rest) ∧ guesser.Follows description := by
  simp only [encodeGuesser, add2B, Option.bind_eq_bind, Option.bind_eq_some_iff, add_eq_some,
    Option.pure_def, Option.some.injEq] at hencode
  obtain ⟨description, hparse, tags, htags, _, ⟨hsize, rfl⟩, entries, hentries, saved, hsaved,
    rfl⟩ := hencode
  obtain ⟨htables, hplace⟩ := GuesserTables.read_spec description
  have hencodes := encodes_of_encodedRules htables.nodup hentries
  obtain ⟨rules, hload, hrules⟩ := PersistentUnorderedMap.represents_of_save hencodes.nodup
    hencodes.ne_nil hsaved rest
  obtain ⟨cells, hnext, hcells⟩ := encodeTags_load htags
    (toBytes 2 (GuesserTables.read description).1 ++ (saved ++ rest))
  refine ⟨description, ⟨(GuesserTables.read description).2.table.tags,
    (GuesserTables.read description).1, rules⟩, hparse, ?_,
      follows_of_encodes (wellFormed_of_parse hparse) htables rfl ?_ hencodes ?_⟩
  · rw [next2B] at hnext
    simp only [load, List.append_assoc, hnext, hcells, next2B, @next_append 2 _ hsize, hload,
      Option.bind_eq_bind, Option.bind_some]
    rfl
  · rw [List.getD_eq_getElem?_getD, hplace, Option.getD_some]
  · simpa using hrules

variable {guesser : MorphoStatisticalGuesser} {description : GuesserDescription}

/-- The first analysis is the same with an empty list of used rules. -/
theorem analyze_none_eq (guesser : MorphoStatisticalGuesser) (form : Bytes)
    (lemmas : List (Bytes × Bytes)) :
    (guesser.analyze form lemmas none).1 = (guesser.analyze form lemmas (some [])).1 := by
  simp only [analyze]
  cases findRule (fun label => guesser.rules.entryAt label ruleEntrySize) form
      (suffixLen (fun label => guesser.rules.entryAt label ruleEntrySize) form.reverse []) with
  | none => rfl
  | some found =>
    obtain ⟨rule, label⟩ := found
    dsimp only
    by_cases hlength : label.length > 1
    · have hlabel : label ≠ [] := List.ne_nil_of_length_pos (by omega)
      by_cases hnil : applyRules form guesser.tags (unalignedLoad 1 rule) (rule.drop 1) = []
      · rw [List.drop_one] at hnil
        simp [contains, hlength, hlabel, hnil]
      · rw [List.drop_one] at hnil
        simp [contains, hlength, hnil]
    · simp [contains, hlength]

/-- Analyzing with the used rules. -/
theorem Follows.analyze_some {guesser : MorphoStatisticalGuesser}
    {description : GuesserDescription} (h : guesser.Follows description) (form : Bytes)
    (lemmas : List (Bytes × Bytes)) (used : List Bytes) : ∃ found used',
      description.GuessesUsing used form found used' ∧
        guesser.analyze form lemmas (some used) = (lemmas ++ found, some used') := by
  -- what is found by the rule, and what is done with it
  have hfinds : ∃ found used', description.Finds used form found used' ∧
      guesser.analyze form lemmas (some used) =
        if found = [] ∧ contains (some used') [] = false then
          (lemmas ++ [(form, description.defaultTag)], (some used').map (· ++ [[]]))
        else (lemmas ++ found, some used') := by
    have hrules := h.rules form
    rw [analyze, h.defaultTag]
    rcases hrules with ⟨line, rule, hmost, hfind, hlength, happly⟩ | ⟨hnone, hshort⟩
    · by_cases hused : line.label ∈ used
      · refine ⟨[], used, .usedRule hmost hused, ?_⟩
        simp [hfind, contains, hused]
      · refine ⟨_, _, .rule hmost hused, ?_⟩
        simp [hfind, contains, hused, hlength, ← happly]
    · refine ⟨[], used, .noRule hnone, ?_⟩
      cases hfind : findRule (fun label => guesser.rules.entryAt label ruleEntrySize) form
          (suffixLen (fun label => guesser.rules.entryAt label ruleEntrySize) form.reverse []) with
      | none => rfl
      | some found => simp [hshort found.1 found.2 hfind]
  obtain ⟨found, used', hfinds, heq⟩ := hfinds
  by_cases hnil : found = []
  · subst hnil
    by_cases hused : [] ∈ used'
    · refine ⟨[], used', .nothing hfinds hused, ?_⟩
      rw [heq, if_neg (by simp [contains, hused])]
    · refine ⟨_, _, .default hfinds hused, ?_⟩
      rw [heq, if_pos (by simp [contains, hused])]
      rfl
  · refine ⟨found, used', .found hfinds hnil, ?_⟩
    rw [heq, if_neg fun hand => hnil hand.1]

end MorphoStatisticalGuesser

/-! ### Loading -/

/-- An encoded string is read. -/
theorem nextString_encodeString {str data : Bytes} (h : encodeString str = some data)
    (rest : Bytes) : nextString (data ++ rest) = some (str, rest) := by
  obtain ⟨hlt, rfl⟩ := encodeString_eq_some.mp h
  simp only [nextString, next1B, List.append_assoc, @next_append 1 _ hlt, nextBytes_append,
    Option.bind_eq_bind, Option.bind_some]

/-- Encoded tags are loaded. -/
theorem GenericTags.load_encode {tags : GenericTags} {data : Bytes} (h : tags.encode = some data)
    (rest : Bytes) : GenericTags.load (data ++ rest) = some (tags, rest) := by
  simp only [encode, Option.bind_eq_bind, Option.bind_eq_some_iff, Option.pure_def,
    Option.some.injEq] at h
  obtain ⟨unknown, hunknown, number, hnumber, punctuation, hpunctuation, symbol, hsymbol, rfl⟩ := h
  simp only [load, List.append_assoc, nextString_encodeString hunknown,
    nextString_encodeString hnumber, nextString_encodeString hpunctuation,
    nextString_encodeString hsymbol, Option.bind_eq_bind, Option.bind_some]
  rfl

namespace GenericMorpho

/-- The form and the variants that are needed. -/
def variants (tables : CasingTables) (form : Bytes) : List Bytes :=
  let (formUclc, formLc) := generateCasingVariants tables form
  form :: [formUclc, formLc].filter (· ≠ [])

/-- What a form is analyzed as, for the analyses of the raw dictionary and the description of the
guesser. -/
inductive AnalyzedAs (classes : SymbolClasses) (tables : CasingTables) (tags : GenericTags)
    (lines : Bytes → List (Bytes × Bytes)) (description : Option GuesserDescription)
    (form : Bytes) (guesser : Bool) : AnalyzedBy × List (Bytes × Bytes) → Prop
  | dictionary {found : List (Bytes × Bytes)} (hform : form ≠ [])
      (hfound : found.Perm ((variants tables form).flatMap lines)) (hne : found ≠ []) :
      AnalyzedAs classes tables tags lines description form guesser (.noGuesser, found)
  | special {special : SpecialForm} (hform : form ≠ [])
      (hlines : (variants tables form).flatMap lines = [])
      (hspecial : specialForm classes form = some special) :
      AnalyzedAs classes tables tags lines description form guesser
        (.noGuesser, [(form, tags.special.tagOf special)])
  | guessed {description' : GuesserDescription} {found : List (Bytes × Bytes)} (hform : form ≠ [])
      (hlines : (variants tables form).flatMap lines = [])
      (hspecial : specialForm classes form = none) (hguesser : guesser = true)
      (hdescription : description = some description')
      (hfound : description'.GuessesAll [] (variants tables form) found) :
      AnalyzedAs classes tables tags lines description form guesser (.guesser, found)
  | unknown (hunknown : form = [] ∨ (variants tables form).flatMap lines = [] ∧
      specialForm classes form = none ∧ (guesser = false ∨ description = none)) :
      AnalyzedAs classes tables tags lines description form guesser
        (.nothing, [(form, tags.unknown)])

/-- The guesser gives what its description says for the form and its variants. -/
theorem guesses_guess {guesser : MorphoStatisticalGuesser} {description : GuesserDescription}
    (h : guesser.Follows description) (form formUclc formLc : Bytes) :
    description.GuessesAll [] (form :: [formUclc, formLc].filter (· ≠ []))
        (guess guesser form formUclc formLc) ∧ guess guesser form formUclc formLc ≠ [] := by
  obtain ⟨found, used, hfound, hfirst⟩ := h.analyze_some form [] []
  have hne := hfound.ne_nil List.not_mem_nil
  rw [List.nil_append] at hfirst
  rw [guess]
  split
  · next hnone =>
    rw [guesser.analyze_none_eq, hfirst, hnone.1, hnone.2]
    refine ⟨?_, hne⟩
    have hall := GuesserDescription.GuessesAll.cons hfound (.nil used)
    rwa [List.append_nil] at hall
  next hsome =>
  rw [hfirst]
  dsimp only
  by_cases huclc : formUclc = []
  · have hlc : formLc ≠ [] := fun hlc => hsome ⟨huclc, hlc⟩
    obtain ⟨found', used', hfound', hsecond⟩ := h.analyze_some formLc found used
    have hall := GuesserDescription.GuessesAll.cons hfound (.cons hfound' (.nil used'))
    rw [List.append_nil] at hall
    simpa [huclc, hlc, hsecond, hne] using hall
  · obtain ⟨found', used', hfound', hsecond⟩ := h.analyze_some formUclc found used
    by_cases hlc : formLc = []
    · have hall := GuesserDescription.GuessesAll.cons hfound (.cons hfound' (.nil used'))
      rw [List.append_nil] at hall
      simpa [huclc, hlc, hsecond, hne] using hall
    · obtain ⟨found'', used'', hfound'', hthird⟩ := h.analyze_some formLc (found ++ found') used'
      have hall := GuesserDescription.GuessesAll.cons hfound
        (.cons hfound' (.cons hfound'' (.nil used'')))
      rw [List.append_nil, ← List.append_assoc] at hall
      simpa [huclc, hlc, hsecond, hthird, hne] using hall

/-- Generating gives the forms of the lines with the lemma whose tags match the wildcard. -/
inductive GeneratedAs (text : Bytes) (lem wildcard : Bytes) :
    AnalyzedBy × List (Bytes × List (Bytes × Bytes)) → Prop
  | dictionary {forms : List (Bytes × Bytes)} (hlem : lem ≠ [])
      (hmem : lem ∈ (rawLines text).map RawLine.lem)
      (hforms : forms.Perm (((rawLines text).dedup.filter fun line =>
        line.lem = lem ∧ (TagFilter.ofString wildcard).matchesTag line.tag = true).map fun line =>
          (line.form, line.tag))) :
      GeneratedAs text lem wildcard (.noGuesser, if forms = [] then [] else [(lem, forms)])
  | unknown (hunknown : lem = [] ∨ lem ∉ (rawLines text).map RawLine.lem) :
      GeneratedAs text lem wildcard (.nothing, [])

/-- The lines of a raw dictionary for a form, unless no class has the empty suffix. -/
def linesOf (dict : Dictionary) (text form : Bytes) : List (Bytes × Bytes) :=
  if (dict.table.suffixes.map Prod.fst).contains []
    then ((rawLines text).dedup.filter fun line => line.form = form).map fun line =>
      (line.lem, line.tag)
    else []

/-- The parts of a morphology give what a raw dictionary and the description of a guesser say. -/
structure LoadedFrom (self : GenericMorpho) (dict : Dictionary) (text : Bytes) (tags : GenericTags)
    (description : Option GuesserDescription) : Prop where
  tags_eq : self.tags = tags
  analyze : ∀ form, (self.dictionary.analyze genericLemmaAddinfo form).Perm (linesOf dict text form)
  generate : ∀ lem filter, ∃ forms, forms.Perm
      (((rawLines text).dedup.filter fun line =>
        line.lem = lem ∧ filter.matchesTag line.tag = true).map fun line => (line.form, line.tag)) ∧
    self.dictionary.generate genericLemmaAddinfo lem filter =
      (decide (lem ∈ (rawLines text).map RawLine.lem), if forms = [] then [] else [(lem, forms)])
  guesser : Option.Rel (fun guesser description => guesser.Follows description)
    self.statisticalGuesser description

section Loaded

variable {self : GenericMorpho} {dict : Dictionary} {text : Bytes} {tags : GenericTags}
  {description : Option GuesserDescription}
  (h : self.LoadedFrom dict text tags description)
include h

/-- The loaded morphology analyzes what the texts say. -/
theorem LoadedFrom.analyzedAs (classes : SymbolClasses) (tables : CasingTables) (form : Bytes)
    (guesser : Bool) : AnalyzedAs classes tables tags (linesOf dict text) description form guesser
      (self.analyze classes tables form guesser) := by
  obtain ⟨rfl, hlines, -, hguesser⟩ := h
  rw [GenericMorpho.analyze]
  split
  · next hform => exact .unknown (.inl hform)
  next hform =>
  generalize hvariants : generateCasingVariants tables form = both
  obtain ⟨formUclc, formLc⟩ := both
  dsimp only
  have hall : variants tables form = form :: [formUclc, formLc].filter (· ≠ []) := by
    rw [variants, hvariants]
  generalize hfound : self.dictionary.analyze genericLemmaAddinfo form ++
      (if formUclc ≠ [] then self.dictionary.analyze genericLemmaAddinfo formUclc else []) ++
      (if formLc ≠ [] then self.dictionary.analyze genericLemmaAddinfo formLc else []) = found
  have hperm : found.Perm ((variants tables form).flatMap (linesOf dict text)) := by
    rw [← hfound, hall]
    by_cases huclc : formUclc = []
    · by_cases hlc : formLc = []
      · simpa [huclc, hlc] using hlines form
      · simpa [huclc, hlc] using (hlines form).append (hlines formLc)
    · by_cases hlc : formLc = []
      · simpa [huclc, hlc] using (hlines form).append (hlines formUclc)
      · simpa [huclc, hlc] using
          (hlines form).append ((hlines formUclc).append (hlines formLc))
  split
  · next hne => exact .dictionary hform hperm hne
  next hnil =>
  rw [not_not] at hnil
  have hempty : (variants tables form).flatMap (linesOf dict text) = [] := (hnil ▸ hperm).nil_eq.symm
  split
  · next special hspecial => exact .special hform hempty hspecial
  next hspecial =>
  generalize self.statisticalGuesser = statisticalGuesser at hguesser
  cases hguesser with
  | none =>
    simpa using .unknown (.inr ⟨hempty, hspecial, .inr rfl⟩)
  | @some g description' hfollows =>
    cases guesser with
    | false => simpa using .unknown (.inr ⟨hempty, hspecial, .inl rfl⟩)
    | true =>
      obtain ⟨hguesses, hne⟩ := guesses_guess hfollows form formUclc formLc
      rw [if_pos hne]
      exact .guessed hform hempty hspecial rfl rfl (hall ▸ hguesses)

/-- The loaded morphology generates what the dictionary says. -/
theorem LoadedFrom.generatedAs (lem wildcard : Bytes) :
    GeneratedAs text lem wildcard (self.generate lem wildcard) := by
  rw [GenericMorpho.generate]
  split
  · next hlem => exact .unknown (.inl hlem)
  next hlem =>
  obtain ⟨forms, hforms, heq⟩ := LoadedFrom.generate h lem (.ofString wildcard)
  rw [heq]
  by_cases hmem : lem ∈ (rawLines text).map RawLine.lem
  · rw [decide_eq_true hmem]
    exact .dictionary hlem hmem hforms
  · have hnil : forms = [] := by
      rw [← List.perm_nil]
      refine hforms.trans (.of_eq ?_)
      rw [List.map_eq_nil_iff, List.filter_eq_nil_iff]
      intro line hline heq
      obtain ⟨hline', -⟩ := of_decide_eq_true heq
      exact hmem (hline' ▸ List.mem_map_of_mem (List.mem_dedup.mp hline))
    rw [decide_eq_false hmem, hnil]
    exact .unknown (.inr hmem)

end Loaded

/-- What was encoded is loaded, and its parts follow what was encoded. -/
theorem exists_loadedFrom {dictionary : Bytes} {maxSuffixLen : ℤ} {tags : GenericTags}
    {statisticalGuesser : Option Bytes} {data : Bytes} {dict : Dictionary}
    (hdict : Dictionary.load genericLemmaAddinfo dictionary maxSuffixLen = some dict)
    (hencode : encodeGenericMorpho dictionary maxSuffixLen tags statisticalGuesser = some data)
    (hsize : MorphoDictionary.Addressable dict.lemmas) (hfew : dict.table.FewTags) :
    ∃ morpho, load data = some morpho ∧
      morpho.LoadedFrom dict dictionary tags
        (statisticalGuesser.bind GuesserDescription.parse) := by
  simp only [encodeGenericMorpho, Option.bind_eq_bind, Option.bind_eq_some_iff] at hencode
  obtain ⟨tagsData, htags, dictData, hdictData, hencode⟩ := hencode
  -- what is behind the dictionary
  obtain ⟨guesserData, present, rest, found, rfl, hnext, hpresent, hfollows⟩ :
      ∃ (guesserData : Bytes) (present : ℕ) (rest : Bytes) (found : Option MorphoStatisticalGuesser),
        data = tagsData ++ (dictData ++ guesserData) ∧ next1B guesserData = some (present, rest) ∧
        (if present ≠ 0 then (MorphoStatisticalGuesser.load rest).map fun g => (some g.1, g.2)
          else some (none, rest)) = some (found, []) ∧
        Option.Rel (fun guesser description => guesser.Follows description) found
          (statisticalGuesser.bind GuesserDescription.parse) := by
    cases statisticalGuesser with
    | none =>
      refine ⟨[0], 0, [], none, ?_, rfl, rfl, .none⟩
      rw [← Option.some.inj hencode, List.append_assoc]
    | some text =>
      simp only [Option.bind_eq_some_iff, Option.pure_def, Option.some.injEq] at hencode
      obtain ⟨guesserData, hguesser, rfl⟩ := hencode
      obtain ⟨description, guesser, hparse, hload, hfollows⟩ :=
        MorphoStatisticalGuesser.exists_load_follows hguesser []
      rw [List.append_nil] at hload
      refine ⟨[1] ++ guesserData, 1, guesserData, some guesser, by simp only [List.append_assoc],
        @next_append 1 1 (by decide) guesserData, ?_, ?_⟩
      · rw [if_pos Nat.one_ne_zero, hload]
        rfl
      · rw [Option.bind_some, hparse]
        exact .some hfollows
  obtain ⟨raws, classList, morpho, entries, lemmaEntries, rootEntries, hraws, hfrom, hload,
    hloaded⟩ := Dictionary.exists_loadedAs hdict hdictData hsize guesserData
  refine ⟨⟨tags, morpho, found⟩, ?_, rfl, fun form => ?_, hloaded.generate_lines hraws hfrom,
    hfollows⟩
  · simp only [GenericMorpho.load, GenericTags.load_encode htags, hload, hnext,
      Option.bind_eq_bind, Option.bind_some, Option.pure_def]
    split at hpresent
    · next hne => simp only [if_pos hne, hpresent, Option.bind_some, if_true]
    · next hzero =>
      obtain ⟨rfl, rfl⟩ := Prod.mk.injEq .. ▸ Option.some.inj hpresent
      rw [if_neg hzero, if_pos rfl]
  · refine (hloaded.analyze_lines hfew hraws hfrom form).trans (.of_eq ?_)
    simp only [linesOf, Dictionary.restored_generic, List.contains_iff_mem]

/-- A lemma with two forms is encoded with a guesser that knows only its default tag. -/
theorem exists_encode_twoForms : ∃ data, encodeGenericMorpho twoFormsText 8
    ⟨[88], ⟨[78], [80], [83]⟩⟩ (some (bytes "N\n")) = some data := by
  obtain ⟨dictData, hdictData⟩ := encode_twoForms
  obtain ⟨saved, hsaved⟩ := PersistentUnorderedMap.exists_save [] id (5 * ·)
    (by decide) (by decide) (by decide) (by decide) fun size => le_rfl
  have hparse : GuesserDescription.parse (bytes "N\n") = some ⟨bytes "N", []⟩ := by decide
  have hread : GuesserTables.read ⟨bytes "N", []⟩ =
      (0, ⟨⟨[bytes "N"], [(bytes "N", 0)]⟩, []⟩) := by decide
  have htags : encodeTags [bytes "N"] = some [1, 0, 1, 78] := by decide
  have hguesser : encodeGuesser (bytes "N\n") = some ([1, 0, 1, 78] ++ [0, 0] ++ saved) := by
    have hrules : encodedRules [] = some [] := rfl
    simp only [encodeGuesser, hparse, hread, htags, hrules, hsaved, Option.bind_eq_bind,
      Option.bind_some]
    rfl
  have hspecial : GenericTags.encode ⟨[88], ⟨[78], [80], [83]⟩⟩ =
      some [1, 88, 1, 78, 1, 80, 1, 83] := by decide
  refine ⟨[1, 88, 1, 78, 1, 80, 1, 83] ++ dictData ++ [1] ++
    ([1, 0, 1, 78] ++ [0, 0] ++ saved), ?_⟩
  simp only [encodeGenericMorpho, hspecial, hdictData, hguesser, Option.bind_eq_bind,
    Option.bind_some, Option.pure_def]

end GenericMorpho

end UDPipe.Morphodita
