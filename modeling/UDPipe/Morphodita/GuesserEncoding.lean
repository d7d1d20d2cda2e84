import UDPipe.Morphodita.EnlargedMaps
import UDPipe.Morphodita.StatisticalGuesser
import Mathlib.Data.List.Forall2

/-!
# What the encoder of the guesser reads and writes

The places of the tags name the tags of the description, every label has the replacements
of its lines in their order, and the data of a label is read as these replacements.
-/

namespace UDPipe.Morphodita

/-! ### Tags -/

/-- The places are those of the tags. -/
def Names (tags : List Bytes) (ids : List ℕ) (names : List Bytes) : Prop :=
  List.Forall₂ (fun id tag => tags[id]? = some tag) ids names

/-- More tags do not change the number of one. -/
theorem getElem?_of_begins {tags more : List Bytes} (hbegins : tags <+: more) {id : ℕ} {tag : Bytes}
    (h : tags[id]? = some tag) : more[id]? = some tag := by
  obtain ⟨rest, rfl⟩ := hbegins
  rw [List.getElem?_append_left (List.getElem?_eq_some_iff.mp h).1, h]

/-- More tags do not change the names of numbers. -/
theorem Names.mono {tags more : List Bytes} {ids : List ℕ} {names : List Bytes}
    (h : Names tags ids names) (hbegins : tags <+: more) : Names more ids names :=
  List.Forall₂.imp (fun _ _ hid => getElem?_of_begins hbegins hid) h

/-- The names of the numbers are those of the table. -/
theorem Names.map_getD {tags : List Bytes} {ids : List ℕ} {names : List Bytes}
    (h : Names tags ids names) : ids.map (fun id => tags.getD id []) = names := by
  induction h with
  | nil => rfl
  | cons hid _ ih => rw [List.map_cons, ih, List.getD_eq_getElem?_getD, hid, Option.getD_some]

/-- A replacement with places is the one with these tags. -/
structure Resolves (tags : List Bytes) (rule : Replacement ℕ) (named : Replacement Bytes) :
    Prop where
  prefDel : rule.prefDel = named.prefDel
  prefAdd : rule.prefAdd = named.prefAdd
  suffDel : rule.suffDel = named.suffDel
  suffAdd : rule.suffAdd = named.suffAdd
  tags : Names tags rule.tags named.tags

/-- More tags do not change a rule. -/
theorem Resolves.mono {tags more : List Bytes} {rule : Replacement ℕ} {named : Replacement Bytes}
    (h : Resolves tags rule named) (hbegins : tags <+: more) : Resolves more rule named :=
  ⟨h.prefDel, h.prefAdd, h.suffDel, h.suffAdd, h.tags.mono hbegins⟩

namespace TagTable

/-- The map has the places of the tags. -/
def Valid (table : TagTable) : Prop :=
  ∀ tag id, table.tagsMap.lookup tag = some id → table.tags[id]? = some tag

/-- The empty table is valid. -/
theorem valid_empty : empty.Valid := by
  intro tag id h
  cases h

/-- The tag stands at its place, and the other tags stay. -/
theorem Valid.place {table : TagTable} (h : table.Valid) (tag : Bytes) :
    (table.place tag).2.Valid ∧ table.tags <+: (table.place tag).2.tags ∧
      (table.place tag).2.tags[(table.place tag).1]? = some tag := by
  unfold TagTable.place
  cases hfound : table.tagsMap.lookup tag with
  | some id =>
    have hid := h tag id hfound
    have hlt : ¬ id ≥ table.tags.length := not_le.mpr (List.getElem?_eq_some_iff.mp hid).1
    simp only [if_neg hlt]
    exact ⟨h, List.prefix_rfl, hid⟩
  | none =>
    simp only [ge_iff_le, le_refl, if_true]
    refine ⟨fun other id hother => ?_, List.prefix_append _ _, by simp⟩
    simp only [List.lookup_append, Option.or_eq_some_iff] at hother
    rcases hother with hother | ⟨-, hother⟩
    · have hid := h other id hother
      rw [List.getElem?_append_left (List.getElem?_eq_some_iff.mp hid).1, hid]
    · rw [Associations.lookup_cons] at hother
      split at hother
      · rename_i heq
        obtain rfl := Option.some.inj hother
        simp [heq]
      · cases hother

/-- Tags get their numbers. -/
theorem Valid.decodeTags {table : TagTable} (h : table.Valid) (tags : List Bytes) :
    (TagTable.decodeTags tags table).2.Valid ∧
      table.tags <+: (TagTable.decodeTags tags table).2.tags ∧
      Names (TagTable.decodeTags tags table).2.tags (TagTable.decodeTags tags table).1 tags := by
  induction tags generalizing table with
  | nil => exact ⟨h, List.prefix_rfl, .nil⟩
  | cons tag tags ih =>
    obtain ⟨hplaced, hkept, hid⟩ := h.place tag
    obtain ⟨hvalid, hrest, hnames⟩ := ih hplaced
    exact ⟨hvalid, hkept.trans hrest, .cons (getElem?_of_begins hrest hid) hnames⟩

/-- The tags of rules get their numbers. -/
theorem Valid.decodeReplacements {table : TagTable} (h : table.Valid)
    (rules : List (Replacement Bytes)) :
    (TagTable.decodeReplacements rules table).2.Valid ∧
      table.tags <+: (TagTable.decodeReplacements rules table).2.tags ∧
      List.Forall₂ (Resolves (TagTable.decodeReplacements rules table).2.tags)
        (TagTable.decodeReplacements rules table).1 rules := by
  induction rules generalizing table with
  | nil => exact ⟨h, List.prefix_rfl, .nil⟩
  | cons rule rules ih =>
    obtain ⟨hdecoded, hkept, hnames⟩ := h.decodeTags rule.tags
    obtain ⟨hvalid, hrest, hresolves⟩ := ih hdecoded
    exact ⟨hvalid, hkept.trans hrest, .cons ⟨rfl, rfl, rfl, rfl, hnames.mono hrest⟩ hresolves⟩

end TagTable

/-! ### Labels -/

/-- The label of the rules of a line. -/
def GuesserLine.label (line : GuesserLine) : Bytes := ruleLabel line.pref line.suff

/-- The replacements of all lines with a label. -/
def replacementsOf (lines : List GuesserLine) (label : Bytes) : List (Replacement Bytes) :=
  (lines.filter fun line => line.label = label).flatMap GuesserLine.replacements

/-- Rules are appended to those of the label. -/
theorem lookup_appendRules (map : List (Bytes × List (Replacement ℕ))) (label : Bytes)
    (rules : List (Replacement ℕ)) (key : Bytes) : (appendRules map label rules).lookup key =
      if key = label then some ((map.lookup label).getD [] ++ rules) else map.lookup key := by
  induction map with
  | nil =>
    rw [appendRules, Associations.lookup_cons]
    rfl
  | cons e map ih =>
    rw [appendRules]
    by_cases he : e.1 = label
    · subst he
      rw [if_pos rfl]
      simp only [Associations.lookup_cons, if_true, Option.getD_some]
      by_cases hkey : key = e.1
      · rw [if_pos hkey, if_pos hkey]
      · rw [if_neg hkey, if_neg hkey, if_neg hkey]
    · rw [if_neg he]
      simp only [Associations.lookup_cons, ih, if_neg (Ne.symm he)]
      by_cases hkey : key = e.1
      · rw [if_pos hkey, if_neg (hkey ▸ he), if_pos hkey]
      · rw [if_neg hkey, if_neg hkey]

/-- Appending rules keeps the labels different. -/
theorem nodup_appendRules {map : List (Bytes × List (Replacement ℕ))}
    (hkeys : (map.map Prod.fst).Nodup) (label : Bytes) (rules : List (Replacement ℕ)) :
    ((appendRules map label rules).map Prod.fst).Nodup := by
  have hmap : (appendRules map label rules).map Prod.fst =
      if label ∈ map.map Prod.fst then map.map Prod.fst else map.map Prod.fst ++ [label] := by
    clear hkeys
    induction map with
    | nil => simp [appendRules]
    | cons e map ih =>
      rw [appendRules]
      by_cases he : e.1 = label
      · simp [he]
      · rw [if_neg he, List.map_cons, List.map_cons, ih]
        by_cases hmem : label ∈ map.map Prod.fst
        · rw [if_pos hmem, if_pos (List.mem_cons_of_mem _ hmem)]
        · rw [if_neg hmem, if_neg (by simp only [List.mem_cons, not_or]; exact ⟨Ne.symm he, hmem⟩)]
          rfl
  rw [hmap]
  split
  · exact hkeys
  · rename_i hnot
    refine List.nodup_append.mpr ⟨hkeys, List.nodup_singleton _, fun key hkey other hother => ?_⟩
    rw [List.mem_singleton] at hother
    rintro rfl
    exact hnot (hother ▸ hkey)

namespace GuesserTables

/-- The tables after some lines. -/
structure Reads (tables : GuesserTables) (lines : List GuesserLine) : Prop where
  valid : tables.table.Valid
  nodup : (tables.statisticalGuesser.map Prod.fst).Nodup
  keys : ∀ label, (tables.statisticalGuesser.lookup label).isSome = true ↔
    ∃ line ∈ lines, line.label = label
  rules : ∀ label, List.Forall₂ (Resolves tables.table.tags)
    ((tables.statisticalGuesser.lookup label).getD []) (replacementsOf lines label)

/-- A line of the description is added. -/
theorem Reads.addLine {tables : GuesserTables} {lines : List GuesserLine}
    (h : tables.Reads lines) (line : GuesserLine) :
    (tables.addLine line).Reads (lines ++ [line]) ∧
      tables.table.tags <+: (tables.addLine line).table.tags := by
  obtain ⟨hvalid, hkept, hresolves⟩ := h.valid.decodeReplacements line.replacements
  refine ⟨⟨hvalid, nodup_appendRules h.nodup _ _, fun label => ?_, fun label => ?_⟩, hkept⟩
  · simp only [GuesserTables.addLine, lookup_appendRules, List.mem_append, List.mem_singleton,
      or_and_right, exists_or, exists_eq_left, ← h.keys]
    by_cases hlabel : label = ruleLabel line.pref line.suff
    · simp [hlabel, GuesserLine.label]
    · rw [if_neg hlabel]
      have hne : line.label ≠ label := fun heq => hlabel heq.symm
      simp [hne]
  · have hold := (h.rules label).imp fun rule named hrule => hrule.mono hkept
    simp only [GuesserTables.addLine, lookup_appendRules, replacementsOf, List.filter_append,
      List.flatMap_append]
    by_cases hlabel : label = ruleLabel line.pref line.suff
    · have hline : line.label = label := hlabel.symm
      rw [if_pos hlabel, ← hlabel, Option.getD_some, List.filter_cons_of_pos (by simpa using hline),
        List.filter_nil, List.flatMap_singleton]
      exact List.rel_append hold hresolves
    · have hline : line.label ≠ label := fun heq => hlabel heq.symm
      rw [if_neg hlabel, List.filter_cons_of_neg (by simpa using hline), List.filter_nil,
        List.flatMap_nil, List.append_nil]
      exact hold

/-- The loop over the lines. -/
theorem Reads.foldl {tables : GuesserTables} {done : List GuesserLine} (h : tables.Reads done)
    (lines : List GuesserLine) :
    (lines.foldl GuesserTables.addLine tables).Reads (done ++ lines) ∧
      tables.table.tags <+: (lines.foldl GuesserTables.addLine tables).table.tags := by
  induction lines generalizing tables done with
  | nil => exact ⟨by rwa [List.append_nil], List.prefix_rfl⟩
  | cons line lines ih =>
    obtain ⟨hnext, hkept⟩ := h.addLine line
    obtain ⟨hall, hkept'⟩ := ih hnext
    rw [List.append_assoc] at hall
    exact ⟨hall, hkept.trans hkept'⟩

/-- What is read of a description. -/
theorem read_spec (description : GuesserDescription) :
    (read description).2.Reads description.lines ∧
      (read description).2.table.tags[(read description).1]? = some description.defaultTag := by
  obtain ⟨hvalid, -, hplace⟩ := TagTable.valid_empty.place description.defaultTag
  have hstart : Reads ⟨(TagTable.empty.place description.defaultTag).2, []⟩ [] :=
    ⟨hvalid, List.nodup_nil, by simp, fun label => .nil⟩
  obtain ⟨hall, hkept⟩ := hstart.foldl description.lines
  exact ⟨hall, getElem?_of_begins hkept hplace⟩

end GuesserTables

end UDPipe.Morphodita
