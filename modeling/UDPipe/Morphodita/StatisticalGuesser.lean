import UDPipe.Streams
import UDPipe.Morphodita.PersistentMap

/-!
# The statistical guesser

The description has a default tag and rules: a prefix and a suffix with replacements of
affixes and the tags that they give. A rule is stored under its label, the reversed suffix
followed by a space and the prefix.
-/

namespace UDPipe.Morphodita

/-- A replacement rule: the affixes that it deletes and adds, and its tags. -/
structure Replacement (Tag : Type) where
  prefDel : Bytes
  prefAdd : Bytes
  suffDel : Bytes
  suffAdd : Bytes
  tags : List Tag
  deriving DecidableEq, Repr

/-- A line of the description. -/
structure GuesserLine where
  pref : Bytes
  suff : Bytes
  replacements : List (Replacement Bytes)
  deriving DecidableEq, Repr

/-- The description of a statistical guesser. -/
structure GuesserDescription where
  defaultTag : Bytes
  lines : List GuesserLine
  deriving DecidableEq, Repr

/-! ### Reading a description -/

/-- The loop over the pairs of a replacement and its tags. -/
def parseReplacements : List Bytes → Option (List (Replacement Bytes))
  | affixes :: ruleTags :: tokens =>
    match split space affixes with
    | [prefDel, prefAdd, suffDel, suffAdd] => do
      let replacements ← parseReplacements tokens
      return ⟨prefDel, prefAdd, suffDel, suffAdd, split space ruleTags⟩ :: replacements
    | _ => none
  | _ => some []

/-- A line of the description: the two affixes, and the replacements with their tags. -/
def parseLine (line : Bytes) : Option GuesserLine :=
  let tokens := split tab line
  if tokens.length < 3 ∨ tokens.length % 2 ≠ 1 then none
  else match split space (tokens.headD []) with
    | [pref, suff] => do
      let replacements ← parseReplacements tokens.tail
      return ⟨pref, suff, replacements⟩
    | _ => none

/-- The default tag ends at a null character, since it is taken as a C string. -/
def GuesserDescription.parse (text : Bytes) : Option GuesserDescription :=
  match textLines text with
  | [] => none
  | line :: lines => do
    let lines ← lines.mapM parseLine
    return ⟨line.takeWhile (· ≠ 0), lines⟩

/-! ### Encoder -/

/-- The vector of the tags, with the map of their places. -/
structure TagTable where
  tags : List Bytes
  tagsMap : List (Bytes × ℕ)
  deriving DecidableEq, Repr

namespace TagTable

/-- The table without tags. -/
def empty : TagTable := ⟨[], []⟩

/-- The place of a tag, which is added if it is new. -/
def place (table : TagTable) (tag : Bytes) : ℕ × TagTable :=
  let (id, tagsMap) := match table.tagsMap.lookup tag with
    | some id => (id, table.tagsMap)
    | none => (table.tags.length, table.tagsMap ++ [(tag, table.tags.length)])
  (id, ⟨if id ≥ table.tags.length then table.tags ++ [tag] else table.tags, tagsMap⟩)

/-- The loop over the tags of a replacement. -/
def decodeTags : List Bytes → TagTable → List ℕ × TagTable
  | [], table => ([], table)
  | tag :: tags, table =>
    let (id, table) := table.place tag
    let (ids, table) := decodeTags tags table
    (id :: ids, table)

/-- The loop over the replacements of a line. -/
def decodeReplacements : List (Replacement Bytes) → TagTable → List (Replacement ℕ) × TagTable
  | [], table => ([], table)
  | rule :: rules, table =>
    let (ids, table) := decodeTags rule.tags table
    let (rules, table) := decodeReplacements rules table
    ({ rule with tags := ids } :: rules, table)

end TagTable

/-- The label of a rule. -/
def ruleLabel (pref suff : Bytes) : Bytes := suff.reverse ++ space :: pref

/-- The replacements of a label are followed by more of them. -/
def appendRules (map : List (Bytes × List (Replacement ℕ))) (label : Bytes)
    (rules : List (Replacement ℕ)) : List (Bytes × List (Replacement ℕ)) :=
  match map with
  | [] => [(label, rules)]
  | e :: map => if e.1 = label then (e.1, e.2 ++ rules) :: map else e :: appendRules map label rules

/-- What the encoder has read: the tags, and the map of the rules. -/
structure GuesserTables where
  table : TagTable
  statisticalGuesser : List (Bytes × List (Replacement ℕ))
  deriving DecidableEq, Repr

namespace GuesserTables

/-- The loop body over the lines of the description. -/
def addLine (tables : GuesserTables) (line : GuesserLine) : GuesserTables :=
  let (rules, table) := TagTable.decodeReplacements line.replacements tables.table
  ⟨table, appendRules tables.statisticalGuesser (ruleLabel line.pref line.suff) rules⟩

/-- The place of the default tag, and the tables after all lines. -/
def read (description : GuesserDescription) : ℕ × GuesserTables :=
  let (statisticalGuesserDefault, table) := TagTable.empty.place description.defaultTag
  (statisticalGuesserDefault, description.lines.foldl addLine ⟨table, []⟩)

end GuesserTables

/-- A string after its length. -/
def encodeString (str : Bytes) : Option Bytes := do
  let size ← add1B str.length
  return size ++ str

/-- The tags, encoded with their number. -/
def encodeTags (tags : List Bytes) : Option Bytes := do
  let size ← add2B tags.length
  let cells ← tags.mapM encodeString
  return size ++ cells.flatten

/-- A replacement: its affixes and its tags. -/
def Replacement.encode (rule : Replacement ℕ) : Option Bytes := do
  let affixes ← [rule.prefDel, rule.prefAdd, rule.suffDel, rule.suffAdd].mapM encodeString
  let size ← add1B rule.tags.length
  let tags ← rule.tags.mapM add2B
  return affixes.flatten ++ size ++ tags.flatten

/-- The encoder of the entries. -/
def encodeRules (rules : List (Replacement ℕ)) : Option Bytes := do
  let size ← add1B rules.length
  let cells ← rules.mapM Replacement.encode
  let data := size ++ cells.flatten
  let dataSize ← add2B data.length
  return dataSize ++ data

/-- The map of the rules with their encoded entries. -/
def encodedRules (statisticalGuesser : List (Bytes × List (Replacement ℕ))) :
    Option (List (Bytes × Bytes)) :=
  (PersistentUnorderedMap.enlarged [] statisticalGuesser true false).mapM fun e => do
    let entry ← encodeRules e.2
    return (e.1, entry)

/-- The method `morpho_statistical_guesser_encoder::encode`. -/
def encodeGuesser (text : Bytes) : Option Bytes := do
  let description ← GuesserDescription.parse text
  let (statisticalGuesserDefault, tables) := GuesserTables.read description
  let tags ← encodeTags tables.table.tags
  let default ← add2B statisticalGuesserDefault
  let entries ← encodedRules tables.statisticalGuesser
  let rules ← (PersistentUnorderedMap.ofUnordered entries (5 * ·) id).save
  return tags ++ default ++ rules

/-! ### Guesser -/

/-- The class `morpho_statistical_guesser`. -/
structure MorphoStatisticalGuesser where
  tags : List Bytes
  defaultTag : ℕ
  rules : PersistentUnorderedMap
  deriving DecidableEq, Repr

/-- The loop that loads the tags. -/
def loadTags : ℕ → Bytes → Option (List Bytes × Bytes)
  | 0, data => some ([], data)
  | size + 1, data => do
    let (length, data) ← next1B data
    let (tag, data) ← nextBytes length data
    let (tags, data) ← loadTags size data
    return (tag :: tags, data)

/-- How far the decoder gets over the replacements of a label. -/
def ruleEntrySize (data : Bytes) : ℕ := 2 + unalignedLoad 2 data

/-- A string after its length, and the data behind it. -/
def readString (rule : Bytes) : Bytes × Bytes :=
  let len := unalignedLoad 1 rule
  ((rule.drop 1).take len, rule.drop (1 + len))

/-- The loop over the replacements of a rule. -/
def applyRules (form : Bytes) (tags : List Bytes) : ℕ → Bytes → List (Bytes × Bytes)
  | 0, _ => []
  | rulesLen + 1, rule =>
    let (prefDel, rule) := readString rule
    let (prefAdd, rule) := readString rule
    let (suffDel, rule) := readString rule
    let (suffAdd, rule) := readString rule
    let tagsLen := unalignedLoad 1 rule
    let ids := words 2 tagsLen (rule.drop 1)
    let found :=
      if prefDel.length + suffDel.length > form.length ∨
          form.take prefDel.length ≠ prefDel ∨
          form.drop (form.length - suffDel.length) ≠ suffDel ∨
          form.length + prefAdd.length - prefDel.length + suffAdd.length - suffDel.length = 0 then
        []
      else
        let inner := (form.drop prefDel.length).take
          (form.length - prefDel.length - suffDel.length)
        ids.map fun id => (prefAdd ++ inner ++ suffAdd, tags.getD id [])
    found ++ applyRules form tags rulesLen (rule.drop (1 + 2 * tagsLen))

namespace MorphoStatisticalGuesser

/-- The method `load`. -/
def load (data : Bytes) : Option (MorphoStatisticalGuesser × Bytes) := do
  let (size, data) ← next2B data
  let (tags, data) ← loadTags size data
  let (defaultTag, data) ← next2B data
  let (rules, data) ← PersistentUnorderedMap.load data
  return (⟨tags, defaultTag, rules⟩, data)

/-- Whether a rule was used, if this is asked for. -/
def contains : Option (List Bytes) → Bytes → Bool
  | none, _ => false
  | some used, rule => used.contains rule

/-- The loop that lets the suffix grow while labels begin with it, over the reversed form. -/
def suffixLen (find : Bytes → Option Bytes) : Bytes → Bytes → ℕ
  | [], _ => 0
  | c :: form, label =>
    if (find (label ++ [c])).isSome then suffixLen find form (label ++ [c]) + 1 else 0

/-- The loop that lets the prefix grow, over the characters that the suffix leaves. The
result is the last rule found and the length of its prefix. -/
def longestPrefix (find : Bytes → Option Bytes) :
    Bytes → Bytes → ℕ → Option (Bytes × ℕ) → Option (Bytes × ℕ)
  | form, label, prefixLen, rule =>
    match find label with
    | none => rule
    | some found =>
      let found := found.drop 2
      let rule := if unalignedLoad 1 found ≠ 0 then some (found, prefixLen) else rule
      match form with
      | [] => rule
      | c :: form => longestPrefix find form (label ++ [c]) (prefixLen + 1) rule

/-- The rule with the longest prefix for the suffix of the given length, with its label. -/
def ruleFor (find : Bytes → Option Bytes) (form : Bytes) (suffixLen : ℕ) :
    Option (Bytes × Bytes) :=
  let label := form.reverse.take suffixLen ++ [space]
  let inner := form.take (form.length - suffixLen)
  (longestPrefix find inner label 0 none).map fun (rule, rulePrefixLen) =>
    (rule, label ++ inner.take rulePrefixLen)

/-- The loop over the suffixes from the given length on. -/
def findRule (find : Bytes → Option Bytes) (form : Bytes) : ℕ → Option (Bytes × Bytes)
  | 0 => ruleFor find form 0
  | suffixLen + 1 => (ruleFor find form (suffixLen + 1)).or (findRule find form suffixLen)

/-- The method `analyze`. -/
def analyze (guesser : MorphoStatisticalGuesser) (form : Bytes) (lemmas : List (Bytes × Bytes))
    (used : Option (List Bytes)) : List (Bytes × Bytes) × Option (List Bytes) :=
  let find := fun label => guesser.rules.entryAt label ruleEntrySize
  let (found, used) := match findRule find form (suffixLen find form.reverse []) with
    | some (rule, label) =>
      -- the rule with the label of a space alone is ignored
      if label.length > 1 ∧ contains used label = false then
        (applyRules form guesser.tags (unalignedLoad 1 rule) (rule.drop 1),
          used.map (· ++ [label]))
      else ([], used)
    | none => ([], used)
  if found = [] ∧ contains used [] = false then
    (lemmas ++ [(form, guesser.tags.getD guesser.defaultTag [])], used.map (· ++ [[]]))
  else (lemmas ++ found, used)

end MorphoStatisticalGuesser

end UDPipe.Morphodita
