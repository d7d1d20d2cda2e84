import UDPipe.Morphodita.Dictionary
import UDPipe.Morphodita.PrefixGuesser

/-!
# The morphological dictionary

`morpho_dictionary::load` reads the lemmas with their roots twice: it counts the sizes of the
entries of two maps and fills them. The entry of a lemma points to its roots, and the entry of a
root to its lemma. Analyzing looks for the suffixes of a form and for the roots in front of them;
generating puts the roots of a lemma together with the suffixes of their classes.
-/

namespace UDPipe.Morphodita

namespace PersistentUnorderedMap

/-- Where the record begins that `fill` makes for a key. -/
def fillOffset (m : PersistentUnorderedMap) (str : Bytes) : ℕ :=
  (m.hashes[str.length]?.map fun h => h.hash.getD (FnvHash.index h.mask str) 0).getD 0

end PersistentUnorderedMap

/-- The class `morpho_dictionary`. -/
structure MorphoDictionary where
  lemmas : PersistentUnorderedMap
  roots : PersistentUnorderedMap
  suffixes : PersistentUnorderedMap
  tags : List Bytes
  classes : List (List (Bytes × List ℕ))
  deriving DecidableEq, Repr

namespace MorphoDictionary

open Derinet (removeStart removeEnd addStart addEnd)
open DerivatorDictionary (nextIf nextAdded resizeAll)

/-! ### Loading -/

/-- A root with its class behind another one; a range that is none has no result. -/
def nextRoot (prev data : Bytes) : Option (LemmaFormInfo × Bytes) := do
  let (operations, data) ← next1B data
  let (removedStart, data) ← nextIf operations removeStart data
  let (removedEnd, data) ← nextIf operations removeEnd data
  let (addedStart, data) ← nextAdded operations addStart data
  if prev.length < removedStart + removedEnd then none
  let (addedEnd, data) ← nextAdded operations addEnd data
  let (clas, data) ← next2B data
  let kept := (prev.drop removedStart).take (prev.length - removedStart - removedEnd)
  return (⟨addedStart ++ kept ++ addedEnd, clas⟩, data)

/-- The loop over the roots of a lemma. -/
def nextRoots : ℕ → Bytes → Bytes → Option (List LemmaFormInfo × Bytes)
  | 0, _, data => some ([], data)
  | lemmaRoots + 1, prev, data => do
    let (root, data) ← nextRoot prev data
    let (roots, data) ← nextRoots lemmaRoots root.form data
    return (root :: roots, data)

/-- What a pass reads for the lemma behind another one. -/
def nextRecord (prev data : Bytes) : Option (DictionaryLemma × Bytes) := do
  let (removed, data) ← next1B data
  if prev.length < removed then none
  let (added, data) ← next1B data
  let (chars, data) ← nextBytes added data
  let lem := prev.take (prev.length - removed) ++ chars
  let (lemmaInfoLen, data) ← next1B data
  let (lemmaInfo, data) ← nextBytes lemmaInfoLen data
  let (lemmaRoots, data) ← next1B data
  let (roots, data) ← nextRoots lemmaRoots lem data
  return (⟨lem, lemmaInfo, roots⟩, data)

/-- The maps `lemmas` and `roots`. -/
abbrev Maps := PersistentUnorderedMap × PersistentUnorderedMap

/-- The loop over the lemmas in a pass. -/
def passFrom (step : Maps → DictionaryLemma → Maps) :
    ℕ → Bytes → Bytes → Maps → Option (Maps × Bytes)
  | 0, _, data, maps => some (maps, data)
  | count + 1, prev, data, maps => do
    let (info, data) ← nextRecord prev data
    passFrom step count info.lem data (step maps info)

/-- A pass over the data. The number of lemmas becomes an `int`. -/
def pass (step : Maps → DictionaryLemma → Maps) (data : Bytes) (maps : Maps) :
    Option (Maps × Bytes) := do
  let (count, data) ← next4B data
  passFrom step (if count < 2 ^ 31 then count else 0) [] data maps

/-- The size of the entry of a lemma. -/
def lemmaSize (info : DictionaryLemma) : ℕ := 1 + info.addinfo.length + 1 + info.forms.length * 7

/-- What the first pass does for a lemma. -/
def addRecord (maps : Maps) (info : DictionaryLemma) : Maps :=
  (maps.1.add info.lem (lemmaSize info),
    info.forms.foldl (fun roots root => roots.add root.form 7) maps.2)

/-- What the second pass does for a root: its entry, and what is stored in the entry of the
lemma. -/
def fillRoot (lemmaOffset lemmaLen : ℕ) (state : PersistentUnorderedMap × Bytes)
    (root : LemmaFormInfo) : PersistentUnorderedMap × Bytes :=
  (state.1.fill root.form
      (toBytes 2 root.clas ++ (toBytes 4 lemmaOffset ++ toBytes 1 lemmaLen)),
    state.2 ++ (toBytes 4 (state.1.fillOffset root.form) ++
      (toBytes 1 root.form.length ++ toBytes 2 root.clas)))

/-- What the second pass does for a lemma. Its entry stands in the map before the roots, and what is
stored in it later stands here at once. -/
def fillRecord (maps : Maps) (info : DictionaryLemma) : Maps :=
  let lemmaOffset := maps.1.fillOffset info.lem
  let (roots, lemmaRoots) := info.forms.foldl (fillRoot lemmaOffset info.lem.length) (maps.2, [])
  (maps.1.fill info.lem (toBytes 1 info.addinfo.length ++ (info.addinfo ++
    (toBytes 1 info.forms.length ++ lemmaRoots))), roots)

/-- The class at a place of `classes`, which is resized, with one more suffix. -/
def addSuffix (classes : List (List (Bytes × List ℕ))) (clas : ℕ) (suffix : Bytes × List ℕ) :
    List (List (Bytes × List ℕ)) :=
  (classes ++ List.replicate (clas + 1 - classes.length) []).modify clas (· ++ [suffix])

/-- The classes of an entry of a suffix, with their tags. -/
def loadedClasses (data : Bytes) : List (ℕ × List ℕ) :=
  let classesLen := unalignedLoad 2 data
  let tags := data.drop (2 + 2 * classesLen + 2 * (classesLen + 1))
  (words 2 classesLen (data.drop 2)).zip
    ((loadedRanges (loadedIndices data) ((loadedIndices data).headD 0)).map fun range =>
      words 2 (range.2 - range.1) (tags.drop (2 * range.1)))

/-- The function over the suffixes that fills the classes. -/
def fillClasses (suffixes : PersistentUnorderedMap) : List (List (Bytes × List ℕ)) :=
  (suffixes.iterAll loadedSize).foldl
    (fun classes suffix => (loadedClasses suffix.2).foldl
      (fun classes clas => addSuffix classes clas.1 (suffix.1, clas.2)) classes) []

/-- The method `load`, with the data behind the dictionary. -/
def load (data : Bytes) : Option (MorphoDictionary × Bytes) := do
  let (sizes, data) ← next1B data
  let (lemmas, data) ← resizeAll sizes data ⟨[]⟩
  let (sizes, data) ← next1B data
  let (roots, data) ← resizeAll sizes data ⟨[]⟩
  let (maps, _) ← pass addRecord data (lemmas, roots)
  if ¬ (maps.1.Summed ∧ maps.2.Summed) then none
  let (maps, data) ← pass fillRecord data (maps.1.doneAdding, maps.2.doneAdding)
  let (size, data) ← next2B data
  let (tags, data) ← loadTags size data
  let (suffixes, data) ← PersistentUnorderedMap.load data
  return (⟨maps.1.doneFilling, maps.2.doneFilling, suffixes, tags, fillClasses suffixes⟩, data)

/-! ### Analyzing -/

/-- The loop that looks the suffixes of a form up, from the given length on and for the given
number of lengths. -/
def findSuffixes (suffixes : PersistentUnorderedMap) (form : Bytes) : ℕ → ℕ → List Bytes
  | 0, _ => []
  | count + 1, suffLen =>
    if suffLen < suffixes.maxLength then
      match suffixes.entryAt (form.drop (form.length - suffLen)) suffixEntrySize with
      | some data => data :: findSuffixes suffixes form count (suffLen + 1)
      | none => []
    else []

/-- The lemma at an offset, with the text of its data. -/
def lemmaAt (addinfo : LemmaAddinfo) (lemmas : PersistentUnorderedMap) (lemmaOffset lemmaLen : ℕ) :
    Bytes :=
  let data := (lemmas.dataStart lemmaLen).drop lemmaOffset
  let lemmaInfoLen := unalignedLoad 1 (data.drop lemmaLen)
  data.take lemmaLen ++
    if lemmaInfoLen = 0 then [] else addinfo.format ((data.drop (lemmaLen + 1)).take lemmaInfoLen)

/-- The tags between two places in the entry of a suffix. -/
def tagsBetween (data : Bytes) (range : ℕ × ℕ) : List ℕ :=
  let suffClasses := unalignedLoad 2 data
  words 2 (range.2 - range.1)
    (data.drop (2 + 2 * suffClasses + 2 * (suffClasses + 1) + 2 * range.1))

/-- What `analyze` finds in the entry of a root, for the entry of the suffix behind it. -/
def analyzeRoot (self : MorphoDictionary) (addinfo : LemmaAddinfo) (root suffData : Bytes)
    (record : Bytes × Bytes) : List (Bytes × Bytes) :=
  let rootClass := unalignedLoad 2 record.2
  let lemmaOffset := unalignedLoad 4 (record.2.drop 2)
  let lemmaLen := unalignedLoad 1 (record.2.drop 6)
  if root = record.1 then
    match analyzedRange suffData rootClass with
    | some range => (tagsBetween suffData range).map fun tag =>
        (lemmaAt addinfo self.lemmas lemmaOffset lemmaLen, self.tags.getD tag [])
    | none => []
  else []

/-- The method `analyze`: the lemmas with the tags. -/
def analyze (self : MorphoDictionary) (addinfo : LemmaAddinfo) (form : Bytes) :
    List (Bytes × Bytes) :=
  let suff := findSuffixes self.suffixes form (form.length + 1) 0
  let lengths := (suff.zipIdx.reverse).takeWhile fun s => form.length - s.2 < self.roots.maxLength
  lengths.flatMap fun s =>
    if unalignedLoad 2 s.1 = 0 then []
    else
      let root := form.take (form.length - s.2)
      (self.roots.iter root fun _ => 7).flatMap (self.analyzeRoot addinfo root s.1)

/-! ### Generating -/

/-- How far the decoder gets over the entry of a lemma. -/
def lemmaEntrySize (data : Bytes) : ℕ :=
  let lemmaInfoLen := unalignedLoad 1 data
  1 + lemmaInfoLen + 1 + unalignedLoad 1 (data.drop (1 + lemmaInfoLen)) * 7

/-- The forms of a root with the suffixes of its class, for the tags that match. -/
def generateRoot (self : MorphoDictionary) (filter : TagFilter) (rootData : Bytes) :
    List (Bytes × Bytes) :=
  let rootOffset := unalignedLoad 4 rootData
  let rootLen := unalignedLoad 1 (rootData.drop 4)
  let clas := unalignedLoad 2 (rootData.drop 5)
  let root := ((self.roots.dataStart rootLen).drop rootOffset).take rootLen
  (self.classes.getD clas []).flatMap fun suffix =>
    suffix.2.filterMap fun tag =>
      if filter.matchesTag (self.tags.getD tag []) then
        some (root ++ suffix.1, self.tags.getD tag [])
      else none

/-- What `generate` does for the entry of a lemma: whether it is matched, and the lemma with its
forms, if there are some. -/
def generateLemma (self : MorphoDictionary) (addinfo : LemmaAddinfo) (lem : Bytes)
    (filter : TagFilter) (record : Bytes × Bytes) :
    Bool × Option (Bytes × List (Bytes × Bytes)) :=
  let (rawLemmaLen, data) := addinfo.parse lem
  let lemmaInfoLen := unalignedLoad 1 record.2
  let lemmaInfo := (record.2.drop 1).take lemmaInfoLen
  let lemmaRootsLen := unalignedLoad 1 (record.2.drop (1 + lemmaInfoLen))
  let lemmaRoots := record.2.drop (1 + lemmaInfoLen + 1)
  if lem.take rawLemmaLen = record.1 ∧ addinfo.matchLemmaId data lemmaInfo = true ∧
      addinfo.generatable lemmaInfo = true then
    let forms := (List.range lemmaRootsLen).flatMap fun i =>
      self.generateRoot filter (lemmaRoots.drop (7 * i))
    (true, if forms = [] then none else some (lem.take rawLemmaLen ++ addinfo.format lemmaInfo, forms))
  else (false, none)

/-- The method `generate`: whether the lemma was matched, and the lemmas with their forms. -/
def generate (self : MorphoDictionary) (addinfo : LemmaAddinfo) (lem : Bytes) (filter : TagFilter) :
    Bool × List (Bytes × List (Bytes × Bytes)) :=
  let found := (self.lemmas.iter (lem.take (addinfo.parse lem).1) lemmaEntrySize).map
    (self.generateLemma addinfo lem filter)
  (found.any Prod.fst, found.filterMap Prod.snd)

end MorphoDictionary

end UDPipe.Morphodita
