import UDPipe.Morphodita.GuesserEncoding
import UDPipe.Morphodita.GuesserSearch

/-!
# The guesser applies the most specific rule

A rule applies to a form if its prefix starts the form and its suffix ends it, without
overlapping. Of these rules the guesser takes one with the longest suffix, and of those the
one with the longest prefix, and gives the lemmas and tags of its replacements.
-/

namespace UDPipe.Morphodita

/-! ### What a description says -/

namespace Replacement

/-- The form with the affixes replaced. -/
def lemmaOf (rule : Replacement Bytes) (form : Bytes) : Bytes :=
  rule.prefAdd ++ (form.drop rule.prefDel.length).take
    (form.length - rule.prefDel.length - rule.suffDel.length) ++ rule.suffAdd

/-- The form has the affixes to delete, and something is left. -/
structure Fits (rule : Replacement Bytes) (form : Bytes) : Prop where
  apart : rule.prefDel.length + rule.suffDel.length ≤ form.length
  starts : rule.prefDel <+: form
  ends : rule.suffDel <:+ form
  nonempty : rule.lemmaOf form ≠ []

instance (rule : Replacement Bytes) (form : Bytes) : Decidable (rule.Fits form) :=
  decidable_of_iff (rule.prefDel.length + rule.suffDel.length ≤ form.length ∧
      rule.prefDel <+: form ∧ rule.suffDel <:+ form ∧ rule.lemmaOf form ≠ [])
    ⟨fun h => ⟨h.1, h.2.1, h.2.2.1, h.2.2.2⟩, fun h => ⟨h.apart, h.starts, h.ends, h.nonempty⟩⟩

/-- The lemmas and tags of a replacement. -/
def pairs (rule : Replacement Bytes) (form : Bytes) : List (Bytes × Bytes) :=
  if rule.Fits form then rule.tags.map fun tag => (rule.lemmaOf form, tag) else []

end Replacement

/-- The rule is not the one without affixes, and its affixes are those of the form. -/
structure GuesserLine.Applies (line : GuesserLine) (form : Bytes) : Prop where
  starts : line.pref <+: form
  ends : line.suff <:+ form
  apart : line.suff.length + line.pref.length ≤ form.length
  nonempty : line.pref ≠ [] ∨ line.suff ≠ []

namespace GuesserDescription

/-- A line whose suffix is the longest that applies, and whose prefix is the longest with it. -/
structure MostSpecific (description : GuesserDescription) (form : Bytes) (line : GuesserLine) :
    Prop where
  mem : line ∈ description.lines
  applies : line.Applies form
  most : ∀ other ∈ description.lines, other.Applies form →
    other.suff.length < line.suff.length ∨
      other.suff.length = line.suff.length ∧ other.pref.length ≤ line.pref.length

/-- The lemmas and tags that the replacements of two affixes give. -/
def pairs (description : GuesserDescription) (form pref suff : Bytes) : List (Bytes × Bytes) :=
  (description.lines.filter fun line => line.pref = pref ∧ line.suff = suff).flatMap fun line =>
    line.replacements.flatMap fun rule => rule.pairs form

/-- The form with the default tag, unless something was found. -/
def orDefault (description : GuesserDescription) (form : Bytes) (found : List (Bytes × Bytes)) :
    List (Bytes × Bytes) :=
  if found = [] then [(form, description.defaultTag)] else found

/-- The guesses for a form: by its most specific rule, or by none. -/
inductive Guesses (description : GuesserDescription) (form : Bytes) : List (Bytes × Bytes) → Prop
  | rule {line : GuesserLine} (hmost : description.MostSpecific form line) :
      Guesses description form
        (description.orDefault form (description.pairs form line.pref line.suff))
  | noRule (hnone : ∀ line ∈ description.lines, ¬ line.Applies form) :
      Guesses description form (description.orDefault form [])

/-- A form has guesses only by one pair of affixes. -/
theorem MostSpecific.unique {description : GuesserDescription} {form : Bytes}
    {line other : GuesserLine} (h : description.MostSpecific form line)
    (hother : description.MostSpecific form other) :
    line.pref = other.pref ∧ line.suff = other.suff := by
  have hle := h.most other hother.mem hother.applies
  have hge := hother.most line h.mem h.applies
  constructor
  · rw [List.prefix_iff_eq_take.mp h.applies.starts,
      List.prefix_iff_eq_take.mp hother.applies.starts]
    congr 1
    omega
  · rw [List.suffix_iff_eq_drop.mp h.applies.ends, List.suffix_iff_eq_drop.mp hother.applies.ends]
    congr 1
    omega

/-- A description guesses in one way. -/
theorem Guesses.unique {description : GuesserDescription} {form : Bytes}
    {found found' : List (Bytes × Bytes)} (h : description.Guesses form found)
    (h' : description.Guesses form found') : found = found' := by
  cases h with
  | rule hmost =>
    cases h' with
    | rule hmost' => rw [(hmost.unique hmost').1, (hmost.unique hmost').2]
    | noRule hnone => exact absurd hmost.applies (hnone _ hmost.mem)
  | noRule hnone =>
    cases h' with
    | rule hmost => exact absurd hmost.applies (hnone _ hmost.mem)
    | noRule _ => rfl

end GuesserDescription

/-! ### What is parsed -/

/-- Affixes have no spaces, and a rule has replacements. -/
structure GuesserLine.WellFormed (line : GuesserLine) : Prop where
  pref : space ∉ line.pref
  suff : space ∉ line.suff
  replacements : line.replacements ≠ []

/-- A line that is read is well formed. -/
theorem wellFormed_of_parseLine {text : Bytes} {line : GuesserLine}
    (hline : parseLine text = some line) : line.WellFormed := by
  simp only [parseLine] at hline
  split at hline
  · cases hline
  rename_i htokens
  have hpieces : ∀ piece ∈ split space ((split tab text).headD []), space ∉ piece :=
    fun piece hpiece => not_mem_of_mem_split hpiece
  split at hline
  · rename_i pref suff haffixes
    rw [haffixes] at hpieces
    simp only [Option.bind_eq_bind, Option.bind_eq_some_iff, Option.pure_def,
      Option.some.injEq] at hline
    obtain ⟨replacements, hparse, rfl⟩ := hline
    refine ⟨hpieces _ (by simp), hpieces _ (by simp), ?_⟩
    rintro rfl
    have hlength : 2 ≤ (split tab text).tail.length := by
      rw [List.length_tail]
      omega
    rcases htail : (split tab text).tail with _ | ⟨affixes, _ | ⟨ruleTags, tokens⟩⟩
    · simp [htail] at hlength
    · simp [htail] at hlength
    · rw [htail, parseReplacements] at hparse
      split at hparse
      · simp only [Option.bind_eq_bind, Option.bind_eq_some_iff, Option.pure_def,
          Option.some.injEq] at hparse
        obtain ⟨rest, -, hcons⟩ := hparse
        cases hcons
      · cases hparse
  · cases hline

/-- The lines of a description are well formed. -/
theorem wellFormed_of_parse {text : Bytes} {description : GuesserDescription}
    (hparse : GuesserDescription.parse text = some description) :
    ∀ line ∈ description.lines, line.WellFormed := by
  rw [GuesserDescription.parse] at hparse
  split at hparse
  · cases hparse
  simp only [Option.bind_eq_bind, Option.bind_eq_some_iff, Option.pure_def,
    Option.some.injEq] at hparse
  obtain ⟨lines, hlines, rfl⟩ := hparse
  intro line hline
  obtain ⟨text, -, htext⟩ := exists_of_mem_mapM hlines line hline
  exact wellFormed_of_parseLine htext

/-! ### Labels -/

/-- A label has one space, so it tells the affixes apart. -/
theorem ruleLabel_injective {pref suff pref' suff' : Bytes} (hpref : space ∉ pref)
    (hsuff : space ∉ suff) (h : ruleLabel pref suff = ruleLabel pref' suff') :
    pref = pref' ∧ suff = suff' := by
  have hinj := (List.append_cons_inj_of_notMem (by simpa using hsuff) hpref).mp h
  exact ⟨hinj.2.2, List.reverse_injective hinj.1⟩

open MorphoStatisticalGuesser (affixLabel LongestAffixes)

/-- The label of affixes is the one of their rule. -/
theorem affixLabel_eq (form : Bytes) (suffixLen prefixLen : ℕ) :
    affixLabel form suffixLen prefixLen =
      ruleLabel (form.take prefixLen) (form.drop (form.length - suffixLen)) := by
  rw [affixLabel, ruleLabel, List.take_reverse]

/-- The lines whose label belongs to a form are those with the affixes of the form. -/
theorem GuesserLine.WellFormed.label_eq_iff {line : GuesserLine} (h : line.WellFormed)
    (form : Bytes) {s p : ℕ} (hle : s + p ≤ form.length) : line.label = affixLabel form s p ↔
      line.pref <+: form ∧ line.suff <:+ form ∧ line.suff.length = s ∧ line.pref.length = p := by
  rw [affixLabel_eq]
  constructor
  · intro hlabel
    obtain ⟨hpref, hsuff⟩ := ruleLabel_injective h.pref h.suff hlabel
    rw [hpref, hsuff]
    exact ⟨List.take_prefix _ _, List.drop_suffix _ _, by simp; omega, by simp; omega⟩
  · rintro ⟨hstarts, hends, rfl, rfl⟩
    rw [← List.prefix_iff_eq_take.mp hstarts, ← List.suffix_iff_eq_drop.mp hends]
    rfl

/-! ### Entries -/

/-- A short string is encoded with its length. -/
theorem encodeString_eq_some {str data : Bytes} :
    encodeString str = some data ↔ str.length < 256 ∧ data = toBytes 1 str.length ++ str := by
  simp only [encodeString, add1B, Option.bind_eq_bind, Option.bind_eq_some_iff, add_eq_some,
    Option.pure_def, Option.some.injEq]
  constructor
  · rintro ⟨_, ⟨hlength, rfl⟩, rfl⟩
    exact ⟨hlength, rfl⟩
  · rintro ⟨hlength, rfl⟩
    exact ⟨_, ⟨hlength, rfl⟩, rfl⟩

/-- A string is read, and the rest is left. -/
theorem readString_append {str : Bytes} (hstr : str.length < 256) (more : Bytes) :
    readString (toBytes 1 str.length ++ (str ++ more)) = (str, more) := by
  have hload := @unalignedLoad_append 1 _ hstr (str ++ more)
  have hdrop : (toBytes 1 str.length ++ (str ++ more)).drop 1 = str ++ more :=
    List.drop_left' (length_toBytes 1 _)
  rw [readString, hload, hdrop, ← List.drop_drop, hdrop, List.take_left', List.drop_left'] <;> rfl

/-- What an encoded replacement consists of. -/
theorem Replacement.encode_eq_some {rule : Replacement ℕ} {data : Bytes}
    (h : rule.encode = some data) :
    rule.prefDel.length < 256 ∧ rule.prefAdd.length < 256 ∧ rule.suffDel.length < 256 ∧
      rule.suffAdd.length < 256 ∧ rule.tags.length < 256 ∧ (∀ tag ∈ rule.tags, tag < 256 ^ 2) ∧
      data = toBytes 1 rule.prefDel.length ++ (rule.prefDel ++
        (toBytes 1 rule.prefAdd.length ++ (rule.prefAdd ++
        (toBytes 1 rule.suffDel.length ++ (rule.suffDel ++
        (toBytes 1 rule.suffAdd.length ++ (rule.suffAdd ++
        (toBytes 1 rule.tags.length ++ addWords 2 rule.tags)))))))) := by
  simp only [Replacement.encode, add1B, add2B, List.mapM_cons, List.mapM_nil, Option.bind_eq_bind,
    Option.bind_eq_some_iff, encodeString_eq_some, add_eq_some, Option.pure_def,
    Option.some.injEq] at h
  obtain ⟨_, ⟨_, ⟨hprefDel, rfl⟩, _, ⟨_, ⟨hprefAdd, rfl⟩, _, ⟨_, ⟨hsuffDel, rfl⟩, _,
    ⟨_, ⟨hsuffAdd, rfl⟩, _, rfl, rfl⟩, rfl⟩, rfl⟩, rfl⟩, _, ⟨htags, rfl⟩, cells, hcells, rfl⟩ := h
  obtain ⟨hids, rfl⟩ := (mapM_add_eq_some (f := id) _).mp hcells
  refine ⟨hprefDel, hprefAdd, hsuffDel, hsuffAdd, htags, hids, ?_⟩
  simp only [List.flatten_cons, List.flatten_nil, List.append_nil, List.append_assoc, addWords,
    List.flatMap_def]
  rfl

/-- The check of the affixes in the loop over the replacements. -/
theorem Replacement.not_fits_iff (rule : Replacement Bytes) (form : Bytes) : ¬ rule.Fits form ↔
    rule.prefDel.length + rule.suffDel.length > form.length ∨
      form.take rule.prefDel.length ≠ rule.prefDel ∨
      form.drop (form.length - rule.suffDel.length) ≠ rule.suffDel ∨
      form.length + rule.prefAdd.length - rule.prefDel.length + rule.suffAdd.length -
        rule.suffDel.length = 0 := by
  by_cases hapart : rule.prefDel.length + rule.suffDel.length > form.length
  · exact ⟨fun _ => .inl hapart, fun _ h => absurd h.apart (not_le.mpr hapart)⟩
  have hlength : (rule.lemmaOf form).length = form.length + rule.prefAdd.length -
      rule.prefDel.length + rule.suffAdd.length - rule.suffDel.length := by
    simp only [lemmaOf, List.length_append, List.length_take, List.length_drop]
    omega
  rw [← hlength, List.length_eq_zero_iff]
  have hiff : rule.Fits form ↔ rule.prefDel <+: form ∧ rule.suffDel <:+ form ∧
      rule.lemmaOf form ≠ [] :=
    ⟨fun h => ⟨h.starts, h.ends, h.nonempty⟩, fun h => ⟨not_lt.mp hapart, h.1, h.2.1, h.2.2⟩⟩
  rw [hiff, List.prefix_iff_eq_take, List.suffix_iff_eq_drop, eq_comm, @eq_comm _ rule.suffDel]
  tauto

/-- The loop reads the replacements as they were encoded. -/
theorem applyRules_append {form : Bytes} {tags : List Bytes} {rules : List (Replacement ℕ)}
    {named : List (Replacement Bytes)} (hnamed : List.Forall₂ (Resolves tags) rules named)
    {cells : List Bytes} (hcells : rules.mapM Replacement.encode = some cells) (more : Bytes) :
    applyRules form tags rules.length (cells.flatten ++ more) =
      named.flatMap fun rule => rule.pairs form := by
  rw [mapM_eq_some_iff] at hcells
  induction hcells generalizing named with
  | nil =>
    cases hnamed
    rfl
  | @cons rule cell rules cells hcell _ ih =>
    obtain ⟨name, names, hname, hnames, rfl⟩ := List.forall₂_cons_left_iff.mp hnamed
    obtain ⟨hprefDel, hprefAdd, hsuffDel, hsuffAdd, htags, hids, rfl⟩ :=
      Replacement.encode_eq_some hcell
    have hwords := words_addWords hids (cells.flatten ++ more)
    simp only [List.length_cons, applyRules, List.flatten_cons, List.append_assoc,
      readString_append hprefDel, readString_append hprefAdd, readString_append hsuffDel,
      readString_append hsuffAdd, @unalignedLoad_append 1 _ htags,
      List.drop_left' (length_toBytes 1 _), hwords, ← List.drop_drop]
    rw [List.drop_left' (length_addWords 2 _), ih hnames, List.flatMap_cons, Replacement.pairs]
    congr 1
    have hcheck := name.not_fits_iff form
    rw [← hname.prefDel, ← hname.prefAdd, ← hname.suffDel, ← hname.suffAdd] at hcheck
    by_cases hfits : name.Fits form
    · rw [if_neg (mt hcheck.mpr (not_not.mpr hfits)), if_pos hfits, ← hname.tags.map_getD,
        List.map_map, Replacement.lemmaOf, ← hname.prefDel, ← hname.prefAdd, ← hname.suffDel,
        ← hname.suffAdd]
      simp only [List.append_assoc, Function.comp_def]
    · rw [if_pos (hcheck.mp hfits), if_neg hfits]

/-- An entry starts with its size, and goes on with the number of its replacements. -/
theorem encodeRules_eq_some {rules : List (Replacement ℕ)} {entry : Bytes}
    (h : encodeRules rules = some entry) (more : Bytes) : entry ≠ [] ∧
      ruleEntrySize (entry ++ more) = entry.length ∧
      unalignedLoad 1 ((entry ++ more).drop 2) = rules.length ∧
      ∃ cells, rules.mapM Replacement.encode = some cells ∧
        ((entry ++ more).drop 2).drop 1 = cells.flatten ++ more := by
  simp only [encodeRules, add1B, add2B, Option.bind_eq_bind, Option.bind_eq_some_iff, add_eq_some,
    Option.pure_def, Option.some.injEq] at h
  obtain ⟨_, ⟨hrules, rfl⟩, cells, hcells, _, ⟨hsize, rfl⟩, rfl⟩ := h
  have hload := fun rest => @unalignedLoad_append 2 _ hsize rest
  have hdrop : (toBytes 2 (toBytes 1 rules.length ++ cells.flatten).length ++
      (toBytes 1 rules.length ++ cells.flatten) ++ more).drop 2 =
        toBytes 1 rules.length ++ (cells.flatten ++ more) := by
    rw [List.append_assoc, List.drop_left' (length_toBytes 2 _), List.append_assoc]
  refine ⟨fun hnil => ?_, ?_, ?_, cells, hcells, ?_⟩
  · have hlength := congrArg List.length hnil
    rw [List.length_append, length_toBytes, List.length_nil] at hlength
    omega
  · rw [ruleEntrySize, List.append_assoc, hload]
    simp only [List.length_append, length_toBytes]
  · rw [hdrop, unalignedLoad_append hrules]
  · rw [hdrop, List.drop_left' (length_toBytes 1 _)]

/-- Strings after their lengths are loaded one after another. -/
theorem loadTags_append {tags : List Bytes} {cells : List Bytes}
    (h : tags.mapM encodeString = some cells) (more : Bytes) :
    loadTags tags.length (cells.flatten ++ more) = some (tags, more) := by
  rw [mapM_eq_some_iff] at h
  induction h with
  | nil => rfl
  | @cons tag cell tags cells hcell _ ih =>
    obtain ⟨htag, rfl⟩ := encodeString_eq_some.mp hcell
    simp only [List.length_cons, loadTags, next1B, List.flatten_cons, List.append_assoc,
      @next_append 1 _ htag, nextBytes_append, ih, Option.bind_eq_bind, Option.bind_some]
    rfl

/-- Encoded tags are loaded, and the rest is left. -/
theorem encodeTags_load {tags : List Bytes} {data : Bytes} (h : encodeTags tags = some data)
    (more : Bytes) : ∃ cells, next2B (data ++ more) = some (tags.length, cells) ∧
      loadTags tags.length cells = some (tags, more) := by
  simp only [encodeTags, add2B, Option.bind_eq_bind, Option.bind_eq_some_iff, add_eq_some,
    Option.pure_def, Option.some.injEq] at h
  obtain ⟨_, ⟨hsize, rfl⟩, cells, hcells, rfl⟩ := h
  refine ⟨cells.flatten ++ more, ?_, loadTags_append hcells more⟩
  rw [next2B, List.append_assoc, next_append hsize]

/-! ### The map of the rules -/

namespace GuesserTables

variable {tables : GuesserTables} {lines : List GuesserLine}

/-- The labels of the rules are those of the lines. -/
theorem Reads.mem_labels (h : tables.Reads lines) {label : Bytes} :
    label ∈ tables.statisticalGuesser.map Prod.fst ↔ ∃ line ∈ lines, line.label = label := by
  rw [← h.keys, Option.isSome_iff_exists]
  simp only [Associations.lookup_eq_some_iff h.nodup, List.mem_map]
  constructor
  · rintro ⟨e, he, rfl⟩
    exact ⟨e.2, he⟩
  · rintro ⟨rules, hmem⟩
    exact ⟨_, hmem, rfl⟩

/-- The rules of a label resolve to those of the description. -/
theorem Reads.resolves (h : tables.Reads lines) {e : Bytes × List (Replacement ℕ)}
    (he : e ∈ tables.statisticalGuesser) :
    List.Forall₂ (Resolves tables.table.tags) e.2 (replacementsOf lines e.1) := by
  have hlookup := (Associations.lookup_eq_some_iff h.nodup).mpr (he : (e.1, e.2) ∈ _)
  have hrules := h.rules e.1
  rwa [hlookup, Option.getD_some] at hrules

/-- A label has rules. -/
theorem Reads.rules_ne_nil (h : tables.Reads lines) (hlines : ∀ line ∈ lines, line.WellFormed)
    {e : Bytes × List (Replacement ℕ)} (he : e ∈ tables.statisticalGuesser) : e.2 ≠ [] := by
  obtain ⟨line, hline, hlabel⟩ := h.mem_labels.mp (List.mem_map_of_mem he)
  have hlength := (h.resolves he).length_eq
  intro hnil
  rw [hnil, List.length_nil, eq_comm, List.length_eq_zero_iff, replacementsOf,
    List.flatMap_eq_nil_iff] at hlength
  exact (hlines line hline).replacements (hlength line (List.mem_filter.mpr ⟨hline, by simpa⟩))

end GuesserTables

/-! ### Lookups -/

section Lookups

open PersistentUnorderedMap FnvHash

variable {map : List (Bytes × List (Replacement ℕ))} {entries : List (Bytes × Bytes)}

/-- The entries of the enlarged map. -/
structure Encodes (map : List (Bytes × List (Replacement ℕ))) (entries : List (Bytes × Bytes)) :
    Prop where
  nodup : (entries.map Prod.fst).Nodup
  of_mem : ∀ entry ∈ entries, ∃ e ∈ enlarged [] map true false,
    e.1 = entry.1 ∧ encodeRules e.2 = some entry.2
  mem_of : ∀ e ∈ enlarged [] map true false, ∃ entry ∈ entries,
    e.1 = entry.1 ∧ encodeRules e.2 = some entry.2

/-- The encoded rules encode the map. -/
theorem encodes_of_encodedRules (hkeys : (map.map Prod.fst).Nodup)
    (h : encodedRules map = some entries) : Encodes map entries := by
  have hpair : ∀ {e : Bytes × List (Replacement ℕ)} {entry : Bytes × Bytes},
      (do let cell ← encodeRules e.2; return (e.1, cell)) = some entry →
        e.1 = entry.1 ∧ encodeRules e.2 = some entry.2 := by
    intro e entry heq
    simp only [Option.bind_eq_bind, Option.bind_eq_some_iff, Option.pure_def,
      Option.some.injEq] at heq
    obtain ⟨cell, hcell, rfl⟩ := heq
    exact ⟨rfl, hcell⟩
  refine ⟨?_, fun entry hentry => ?_, fun e he => ?_⟩
  · have hall := mapM_eq_some_iff.mp h
    have hfst : (enlarged [] map true false).map Prod.fst = entries.map Prod.fst := by
      rw [← List.forall₂_eq_eq_eq, List.forall₂_map_left_iff, List.forall₂_map_right_iff]
      exact hall.imp fun e entry heq => (hpair heq).1
    rw [← hfst]
    exact (touched_enlarged hkeys).nodup
  · obtain ⟨e, he, heq⟩ := exists_of_mem_mapM h entry hentry
    exact ⟨e, he, hpair heq⟩
  · obtain ⟨entry, hentry, heq⟩ := exists_of_mapM h e he
    exact ⟨entry, hentry, hpair heq⟩

/-- The entries of rules are not empty. -/
theorem Encodes.ne_nil (h : Encodes map entries) : ∀ entry ∈ entries, entry.2 ≠ [] := by
  intro entry hentry
  obtain ⟨e, -, -, hencode⟩ := h.of_mem entry hentry
  exact (encodeRules_eq_some hencode []).1

/-- The sizes of the entries are read from them. -/
theorem Encodes.measures (h : Encodes map entries) : Measures ruleEntrySize entries := by
  intro entry hentry more
  obtain ⟨e, -, -, hencode⟩ := h.of_mem entry hentry
  exact (encodeRules_eq_some hencode more).2.1

variable {m : PersistentUnorderedMap}

/-- An entry is found with what follows it. -/
theorem Encodes.find_mem (h : Encodes map entries) (hm : m.Represents entries)
    {entry : Bytes × Bytes} (hentry : entry ∈ entries) :
    ∃ more, m.entryAt entry.1 ruleEntrySize = some (entry.2 ++ more) :=
  hm.at_mem _ h.measures entry hentry

/-- The map finds the beginnings of the labels. -/
theorem Encodes.finds (h : Encodes map entries) (hkeys : (map.map Prod.fst).Nodup)
    (hne : ∀ e ∈ map, e.2 ≠ []) (hm : m.Represents entries) :
    Finds (fun label => m.entryAt label ruleEntrySize) (map.map Prod.fst) := by
  have htouched := @touched_enlarged _ ([] : List (Replacement ℕ)) _ hkeys
  have hentry : ∀ label, (m.entryAt label ruleEntrySize).isSome = true →
      ∃ entry ∈ entries, entry.1 = label := by
    intro label hsome
    by_contra hnone
    push Not at hnone
    rw [hm.at_not_mem _ h.measures label hnone] at hsome
    cases hsome
  refine ⟨fun label hlabel => ⟨fun hsome => ?_, ?_⟩, fun label found hlabel hfound => ?_⟩
  · obtain ⟨entry, hmem, rfl⟩ := hentry label hsome
    obtain ⟨e, he, heq, -⟩ := h.of_mem entry hmem
    rcases htouched.of_mem e he with hold | ⟨-, hbegins, -⟩
    · exact ⟨e.1, List.mem_map_of_mem hold, heq ▸ List.prefix_rfl⟩
    · obtain ⟨f, hf, hproper⟩ := List.mem_flatMap.mp hbegins
      exact ⟨f.1, List.mem_map_of_mem hf, heq ▸ (mem_properPrefixes.mp hproper).2.2⟩
  · rintro ⟨l, hl, hbegins⟩
    obtain ⟨f, hf, rfl⟩ := List.mem_map.mp hl
    have hkey : ∃ e ∈ enlarged [] map true false, e.1 = label := by
      by_cases heq : label = f.1
      · exact ⟨f, htouched.mem_of_mem f hf, heq.symm⟩
      · exact htouched.mem_of_key label
          (List.mem_flatMap.mpr ⟨f, hf, mem_properPrefixes.mpr ⟨hlabel, heq, hbegins⟩⟩)
    obtain ⟨e, he, rfl⟩ := hkey
    obtain ⟨entry, hmem, heq, -⟩ := h.mem_of e he
    obtain ⟨more, hmore⟩ := h.find_mem hm hmem
    rw [heq, hmore, Option.isSome_some]
  · obtain ⟨entry, hmem, rfl⟩ := hentry label (by rw [hfound, Option.isSome_some])
    obtain ⟨e, he, heq, hencode⟩ := h.of_mem entry hmem
    obtain ⟨more, hmore⟩ := h.find_mem hm hmem
    rw [hmore, Option.some.injEq] at hfound
    rw [← hfound, (encodeRules_eq_some hencode more).2.2.1, Ne, List.length_eq_zero_iff]
    rcases htouched.of_mem e he with hold | ⟨hdefault, -, hnew⟩
    · exact ⟨fun _ => heq ▸ List.mem_map_of_mem hold, fun _ => hne e hold⟩
    · refine ⟨fun hnonempty => absurd hdefault hnonempty, fun hlabel => ?_⟩
      obtain ⟨f, hf, hfst⟩ := List.mem_map.mp hlabel
      exact absurd (hfst.trans heq.symm) (hnew f hf)

end Lookups

/-! ### Guessing -/

/-- The replacements of the lines with the affixes of a line. -/
theorem GuesserDescription.pairs_eq {description : GuesserDescription}
    (hlines : ∀ line ∈ description.lines, line.WellFormed) (form : Bytes) (line : GuesserLine) :
    description.pairs form line.pref line.suff =
      (replacementsOf description.lines line.label).flatMap fun rule => rule.pairs form := by
  have hfilter : description.lines.filter (fun other => other.label = line.label) =
      description.lines.filter fun other => other.pref = line.pref ∧ other.suff = line.suff := by
    apply List.filter_congr
    intro other hother
    have hwell := hlines other hother
    rw [decide_eq_decide]
    constructor
    · exact ruleLabel_injective hwell.pref hwell.suff
    · rintro ⟨hpref, hsuff⟩
      rw [GuesserLine.label, GuesserLine.label, hpref, hsuff]
  rw [pairs, replacementsOf, hfilter, List.flatMap_assoc]

/-- The line with the affixes of a form is the most specific one if its label is. -/
theorem GuesserDescription.mostSpecific_of_label {description : GuesserDescription}
    (hlines : ∀ line ∈ description.lines, line.WellFormed) {labels : List Bytes}
    (hlabels : ∀ label, label ∈ labels ↔ ∃ line ∈ description.lines, line.label = label)
    {form : Bytes} {s p : ℕ} (hmost : LongestAffixes labels form s p) {line : GuesserLine}
    (hline : line ∈ description.lines) (hlabel : line.label = affixLabel form s p) :
    line.suff.length = s ∧ line.pref.length = p ∧
      (0 < s + p → description.MostSpecific form line) ∧
      (s + p = 0 → ∀ other ∈ description.lines, ¬ other.Applies form) := by
  obtain ⟨hstarts, hends, hs, hp⟩ := ((hlines line hline).label_eq_iff form hmost.le).mp hlabel
  have hothers : ∀ other ∈ description.lines, other.Applies form →
      other.suff.length < s ∨ other.suff.length = s ∧ other.pref.length ≤ p := by
    intro other hother happlies
    have heq := ((hlines other hother).label_eq_iff form happlies.apart).mpr
      ⟨happlies.starts, happlies.ends, rfl, rfl⟩
    exact hmost.most _ _ happlies.apart ((hlabels _).mpr ⟨other, hother, heq⟩)
  refine ⟨hs, hp, fun hpos => ⟨hline, ⟨hstarts, hends, ?_, ?_⟩, ?_⟩,
    fun hzero other hother happlies => ?_⟩
  · rw [hs, hp]
    exact hmost.le
  · simp only [ne_eq, ← List.length_eq_zero_iff]
    omega
  · intro other hother happlies
    rw [hs, hp]
    exact hothers other hother happlies
  · have hle := hothers other hother happlies
    rcases happlies.nonempty with hne | hne
    · have hpos := List.length_pos_iff.mpr hne
      omega
    · have hpos := List.length_pos_iff.mpr hne
      omega

/-- No line applies to a form that has no label. -/
theorem GuesserDescription.not_applies_of_label {description : GuesserDescription}
    (hlines : ∀ line ∈ description.lines, line.WellFormed) {labels : List Bytes}
    (hlabels : ∀ label, label ∈ labels ↔ ∃ line ∈ description.lines, line.label = label)
    {form : Bytes} (hnone : ∀ s p, s + p ≤ form.length → affixLabel form s p ∉ labels) :
    ∀ line ∈ description.lines, ¬ line.Applies form := by
  intro line hline happlies
  have heq := ((hlines line hline).label_eq_iff form happlies.apart).mpr
    ⟨happlies.starts, happlies.ends, rfl, rfl⟩
  exact hnone _ _ happlies.apart ((hlabels _).mpr ⟨line, hline, heq⟩)

namespace MorphoStatisticalGuesser

/-- Analyzing without used rules, for a rule that was found. -/
theorem analyze_none (guesser : MorphoStatisticalGuesser) (form : Bytes)
    (lemmas : List (Bytes × Bytes)) :
    let find := fun label => guesser.rules.entryAt label ruleEntrySize
    guesser.analyze form lemmas none =
      let found := match findRule find form (suffixLen find form.reverse []) with
        | some (rule, label) =>
          if label.length > 1 then
            applyRules form guesser.tags (unalignedLoad 1 rule) (rule.drop 1)
          else []
        | none => []
      (lemmas ++ if found = [] then [(form, guesser.tags.getD guesser.defaultTag [])] else found,
        none) := by
  intro find
  simp only [analyze, contains, and_true, Option.map_none]
  cases findRule find form (suffixLen find form.reverse []) with
  | none => rfl
  | some result =>
    simp only
    by_cases hlength : result.2.length > 1
    · by_cases hnil :
          applyRules form guesser.tags (unalignedLoad 1 result.1) (result.1.drop 1) = []
      · simp only [if_pos hlength, hnil, and_self, if_true, Option.map_none]
      · simp only [if_pos hlength, hnil, false_and, if_false]
    · simp only [if_neg hlength, and_self, if_true, Option.map_none]

/-- A guesser with the rules of a description gives what its most specific rule gives. -/
theorem guesses_analyze {description : GuesserDescription}
    (hlines : ∀ line ∈ description.lines, line.WellFormed) {tables : GuesserTables}
    (htables : tables.Reads description.lines) {guesser : MorphoStatisticalGuesser}
    (htags : guesser.tags = tables.table.tags)
    (hdefault : guesser.tags.getD guesser.defaultTag [] = description.defaultTag)
    {entries : List (Bytes × Bytes)} (hentries : Encodes tables.statisticalGuesser entries)
    (hrules : guesser.rules.Represents entries) (form : Bytes) (lemmas : List (Bytes × Bytes)) :
    ∃ found, description.Guesses form found ∧
      guesser.analyze form lemmas none = (lemmas ++ found, none) := by
  have hfinds := hentries.finds htables.nodup (fun e he => htables.rules_ne_nil hlines he) hrules
  rw [analyze_none, hdefault]
  rcases search_spec hfinds form with ⟨s, p, found, hmost, hfound, heq⟩ | ⟨hnone, heq⟩
  · obtain ⟨line, hline, hlabel⟩ := htables.mem_labels.mp hmost.mem
    obtain ⟨hs, hp, hspecific, hempty⟩ := GuesserDescription.mostSpecific_of_label hlines
      (fun label => htables.mem_labels) hmost hline hlabel
    have hlength : (affixLabel form s p).length = s + p + 1 := by
      rw [← hlabel, GuesserLine.label, ruleLabel]
      simp only [List.length_append, List.length_reverse, List.length_cons]
      omega
    simp only [heq, hlength]
    by_cases hpos : 0 < s + p
    · rw [if_pos (show s + p + 1 > 1 by omega)]
      refine ⟨_, .rule (hspecific hpos), ?_⟩
      obtain ⟨e, he, hkey⟩ := List.mem_map.mp hmost.mem
      have htouched := @PersistentUnorderedMap.touched_enlarged _ ([] : List (Replacement ℕ)) _
        htables.nodup
      obtain ⟨entry, hentry, hsame, hencode⟩ := hentries.mem_of e (htouched.mem_of_mem e he)
      obtain ⟨more, hmore⟩ := hentries.find_mem hrules hentry
      rw [← hsame, hkey] at hmore
      obtain rfl : entry.2 ++ more = found := Option.some.inj (hmore.symm.trans hfound)
      obtain ⟨-, -, hcount, cells, hcells, hdata⟩ := encodeRules_eq_some hencode more
      have happly := @applyRules_append form _ _ _ (htables.resolves he) cells hcells more
      rw [hcount, hdata, htags, happly, GuesserDescription.pairs_eq hlines, hlabel, hkey]
      rfl
    · rw [if_neg (show ¬ s + p + 1 > 1 by omega)]
      exact ⟨_, .noRule (hempty (by omega)), rfl⟩
  · simp only [heq, if_true]
    exact ⟨_, .noRule (GuesserDescription.not_applies_of_label hlines
      (fun label => htables.mem_labels) hnone), rfl⟩

/-- The guesser gives what the most specific rule of its description gives. -/
theorem load_guesses {text data : Bytes} (hencode : encodeGuesser text = some data)
    (rest : Bytes) : ∃ description guesser, GuesserDescription.parse text = some description ∧
      load (data ++ rest) = some (guesser, rest) ∧
      ∀ form lemmas, ∃ found, description.Guesses form found ∧
        guesser.analyze form lemmas none = (lemmas ++ found, none) := by
  simp only [encodeGuesser, add2B, Option.bind_eq_bind, Option.bind_eq_some_iff, add_eq_some,
    Option.pure_def, Option.some.injEq] at hencode
  obtain ⟨description, hparse, tags, htags, _, ⟨hsize, rfl⟩, entries, hentries, saved, hsaved,
    rfl⟩ := hencode
  have hlines := wellFormed_of_parse hparse
  obtain ⟨htables, hplace⟩ := GuesserTables.read_spec description
  have hencodes := encodes_of_encodedRules htables.nodup hentries
  obtain ⟨rules, hload, hrules⟩ := PersistentUnorderedMap.represents_of_save hencodes.nodup
    hencodes.ne_nil hsaved rest
  obtain ⟨cells, hnext, hcells⟩ := encodeTags_load htags
    (toBytes 2 (GuesserTables.read description).1 ++ (saved ++ rest))
  refine ⟨description, ⟨(GuesserTables.read description).2.table.tags,
    (GuesserTables.read description).1, rules⟩, hparse, ?_, fun form lemmas =>
      guesses_analyze hlines htables rfl ?_ hencodes ?_ form lemmas⟩
  · rw [next2B] at hnext
    simp only [load, List.append_assoc, hnext, hcells, next2B, @next_append 2 _ hsize, hload,
      Option.bind_eq_bind, Option.bind_some]
    rfl
  · rw [List.getD_eq_getElem?_getD, hplace, Option.getD_some]
  · simpa using hrules

/-- A default tag and a rule for a suffix. -/
theorem load_guesses_suffix : ∃ data, encodeGuesser (bytes "N\n ly\t  ly \tA\n") = some data ∧
    ∃ description guesser,
      GuesserDescription.parse (bytes "N\n ly\t  ly \tA\n") = some description ∧
      load (data ++ []) = some (guesser, []) ∧
      ∀ form lemmas, ∃ found, description.Guesses form found ∧
        guesser.analyze form lemmas none = (lemmas ++ found, none) := by
  have hparse : GuesserDescription.parse (bytes "N\n ly\t  ly \tA\n") =
      some ⟨bytes "N", [⟨[], bytes "ly", [⟨[], [], bytes "ly", [], [bytes "A"]⟩]⟩]⟩ := by decide
  obtain ⟨entries, hentries⟩ : ∃ entries : List (Bytes × Bytes), entries =
      [(bytes "yl ", [10, 0, 1, 0, 0, 2, 108, 121, 0, 1, 1, 0]), (bytes "yl", [1, 0, 0]),
        (bytes "y", [1, 0, 0])] := ⟨_, rfl⟩
  have hrules : encodedRules [(bytes "yl ", [⟨[], [], bytes "ly", [], [1]⟩])] = some entries := by
    rw [hentries]
    decide
  obtain ⟨saved, hsaved⟩ := PersistentUnorderedMap.exists_save entries id (5 * ·)
    (by rw [hentries]; decide) (by rw [hentries]; decide) (by rw [hentries]; decide)
    (by rw [hentries]; decide) fun size => le_rfl
  have htags : encodeTags [bytes "N", bytes "A"] = some [2, 0, 1, 78, 1, 65] := by decide
  have hencode : encodeGuesser (bytes "N\n ly\t  ly \tA\n") =
      some ([2, 0, 1, 78, 1, 65] ++ [0, 0] ++ saved) := by
    have hread : GuesserTables.read
        ⟨bytes "N", [⟨[], bytes "ly", [⟨[], [], bytes "ly", [], [bytes "A"]⟩]⟩]⟩ =
          (0, ⟨⟨[bytes "N", bytes "A"], [(bytes "N", 0), (bytes "A", 1)]⟩,
            [(bytes "yl ", [⟨[], [], bytes "ly", [], [1]⟩])]⟩) := by decide
    simp only [encodeGuesser, hparse, hread, htags, hrules, hsaved, Option.bind_eq_bind,
      Option.bind_some]
    rfl
  exact ⟨_, hencode, load_guesses hencode []⟩

end MorphoStatisticalGuesser

end UDPipe.Morphodita
