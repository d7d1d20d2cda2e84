import UDPipe.Morphodita.Derivator
import UDPipe.Morphodita.RawDictionary
import UDPipe.Morphodita.StatisticalGuesser
import UDPipe.Morphodita.SuffixEntries
import Mathlib.Data.List.Sort

/-!
# The encoder of the morphological dictionary

The encoder of `morpho_dictionary_encoder.h` cuts the forms of a lemma into roots and suffixes. A
root has a class: the suffixes that stand behind it, with their tags. Classes that are equal are
shared by the lemmas. What is written are the lemmas with their roots, each as a difference from
the one before, the tags, and the suffixes with their classes.
-/

namespace UDPipe.Morphodita

/-- What a parameter `LemmaAddinfo` of the templates does: the length of the raw lemma with the
data of the rest, their text, whether data match others, and whether forms are generated. -/
structure LemmaAddinfo where
  parse : Bytes → ℕ × Bytes
  format : Bytes → Bytes
  matchLemmaId : Bytes → Bytes → Bool
  generatable : Bytes → Bool

/-- The struct `generic_lemma_addinfo`. -/
def genericLemmaAddinfo : LemmaAddinfo where
  parse lem := (lem.length, [])
  format _ := []
  matchLemmaId _ _ := true
  generatable _ := true

/-! ### Prefixes of a class -/

/-- The class `trie`: its children and its depth. -/
inductive Trie where
  | node (children : List (Byte × Trie)) (depth : ℕ)

namespace Trie

/-- The trie without strings. -/
def empty : Trie := node [] 0

/-- The children of a node. -/
def children : Trie → List (Byte × Trie)
  | node children _ => children

/-- The depth of a node. -/
def depth : Trie → ℕ
  | node _ depth => depth

/-- The loop over the children in `add`, with the child that the rest was added to. -/
def addChild (addRest : Trie → Trie) (c : Byte) : List (Byte × Trie) → List (Byte × Trie) × Trie
  | [] => ([(c, addRest empty)], addRest empty)
  | child :: children =>
    if child.1 = c then ((c, addRest child.2) :: children, addRest child.2)
    else
      let (children, added) := addChild addRest c children
      (child :: children, added)

/-- The method `add` of a trie. -/
def add : Bytes → Trie → Trie
  | [], t => t
  | c :: str, t =>
    let (children, added) := addChild (add str) c t.children
    node children (max t.depth (1 + added.depth))

mutual

/-- The method `find_candidate_prefix`, for `best` with its length. -/
def findCandidatePrefix (maxSuffixLen : ℤ) (current : Bytes) (length : ℕ) :
    Trie → Bytes × ℕ → Bytes × ℕ
  | node children depth, best =>
    findCandidatePrefixes maxSuffixLen current (if children.length = 1 then length + 1 else 1)
      children (if (depth : ℤ) < maxSuffixLen ∧ length > best.2 then (current, length) else best)

/-- The loop over the children. -/
def findCandidatePrefixes (maxSuffixLen : ℤ) (current : Bytes) (length : ℕ) :
    List (Byte × Trie) → Bytes × ℕ → Bytes × ℕ
  | [], best => best
  | (c, child) :: children, best =>
    findCandidatePrefixes maxSuffixLen current length children
      (findCandidatePrefix maxSuffixLen (current ++ [c]) length child best)

end

end Trie

/-! ### Classes -/

/-- A form with its tag, or the suffix of a form with its tag. -/
abbrev TaggedForm := Bytes × Bytes

/-- The order of `sort` on the forms with their tags. -/
def taggedFormLe (a b : TaggedForm) : Prop := a.1 < b.1 ∨ a.1 = b.1 ∧ a.2 ≤ b.2

instance : DecidableRel taggedFormLe := fun _ _ => inferInstanceAs (Decidable (_ ∨ _))

/-- The function `unique` of the standard library. -/
def unique : List TaggedForm → List TaggedForm
  | a :: b :: forms => if a = b then unique (b :: forms) else a :: unique (b :: forms)
  | forms => forms

/-- The root of a class, the suffixes with their tags, and the forms that are left. -/
structure NextClass where
  root : Bytes
  members : List TaggedForm
  rest : List TaggedForm
  deriving DecidableEq, Repr

/-- The forms of the class that is added next, for a prefix. The loop over the common bytes ends
at the end of the last form, which is not less than the first one. -/
def classOf (pref : Bytes) (forms : List TaggedForm) : Option NextClass :=
  match forms.dropWhile fun f => f.1.take pref.length ≠ pref with
  | [] => none
  | start :: more =>
    let inClass := (start :: more).takeWhile fun f => f.1.take pref.length = pref
    let last := inClass.getLastD start
    let commonPrefix := pref.length +
      Derinet.matchLength (start.1.drop pref.length) (last.1.drop pref.length)
    some ⟨start.1.take commonPrefix, inClass.map fun f => (f.1.drop commonPrefix, f.2),
      (forms.takeWhile fun f => f.1.take pref.length ≠ pref) ++
        (start :: more).dropWhile fun f => f.1.take pref.length = pref⟩

/-- A pass of the loop that creates the classes of a lemma. -/
def nextClass (maxSuffixLen : ℤ) (forms : List TaggedForm) : Option NextClass :=
  let t := forms.foldl (fun t f => t.add (Derinet.cString f.1)) Trie.empty
  classOf (t.findCandidatePrefix maxSuffixLen [] 0 ([], 0)).1 forms

/-- The string `clas`. -/
def classString (members : List TaggedForm) : Bytes :=
  members.foldl (fun clas m => (if clas = [] then clas else clas ++ [tab]) ++ m.1 ++ [tab] ++ m.2) []

/-- The operator of a `map<int, vector<int>>` that finds a class or adds it, and the tag behind
its tags. -/
def addTag (clas tag : ℕ) : List (ℕ × List ℕ) → List (ℕ × List ℕ)
  | [] => [(clas, [tag])]
  | e :: map =>
    if e.1 < clas then e :: addTag clas tag map
    else if e.1 = clas then (e.1, e.2 ++ [tag]) :: map
    else (clas, [tag]) :: e :: map

/-- The same for a suffix. -/
def addSuffix (suffix : Bytes) (clas tag : ℕ) :
    List (Bytes × List (ℕ × List ℕ)) → List (Bytes × List (ℕ × List ℕ))
  | [] => [(suffix, addTag clas tag [])]
  | e :: suffixes =>
    if e.1 = suffix then (e.1, addTag clas tag e.2) :: suffixes
    else e :: addSuffix suffix clas tag suffixes

/-- The fields `classes` and `suffixes`, and the tags. -/
structure ClassTable where
  classes : List (Bytes × ℕ)
  suffixes : List (Bytes × List (ℕ × List ℕ))
  table : TagTable
  deriving DecidableEq, Repr

namespace ClassTable

/-- The table without classes. -/
def empty : ClassTable := ⟨[], [], .empty⟩

/-- The loop over the forms of a new class. -/
def addMembers (id : ℕ) : List TaggedForm → ClassTable → ClassTable
  | [], table => table
  | m :: members, table =>
    let (tag, tags) := table.table.place m.2
    addMembers id members ⟨table.classes, addSuffix m.1 id tag table.suffixes, tags⟩

/-- The class of some suffixes with their tags, which is added if it is new. -/
def classId (table : ClassTable) (members : List TaggedForm) : ℕ × ClassTable :=
  let clas := classString members
  match table.classes.lookup clas with
  | some id => (id, table)
  | none =>
    let id := table.classes.length
    (id, addMembers id members { table with classes := table.classes ++ [(clas, id)] })

end ClassTable

/-- The class `histogram`: the different strings of each length. -/
abbrev Histogram := List (List Bytes)

/-- The method `add` of a histogram. -/
def Histogram.add (lengths : Histogram) (str : Bytes) : Histogram :=
  (lengths ++ List.replicate (str.length + 1 - lengths.length) []).modify str.length (·.insert str)

/-- The struct `lemma_form_info`: a root and its class. -/
structure LemmaFormInfo where
  form : Bytes
  clas : ℕ
  deriving DecidableEq, Repr

namespace LemmaFormInfo

/-- Not greater, for the operator `<`. -/
def le (a b : LemmaFormInfo) : Prop := ¬ (b.form < a.form ∨ b.form = a.form ∧ b.clas < a.clas)

instance : DecidableRel le := fun _ _ => inferInstanceAs (Decidable (¬ _))

end LemmaFormInfo

/-- The struct `lemma_info` of the dictionary. -/
structure DictionaryLemma where
  lem : Bytes
  addinfo : Bytes
  forms : List LemmaFormInfo
  deriving DecidableEq, Repr

namespace DictionaryLemma

/-- Not greater, for the operator `<`. -/
def le (a b : DictionaryLemma) : Prop := ¬ (b.lem < a.lem ∨ b.lem = a.lem ∧ b.addinfo < a.addinfo)

instance : DecidableRel le := fun _ _ => inferInstanceAs (Decidable (¬ _))

end DictionaryLemma

/-- The class `dictionary`. -/
structure Dictionary where
  table : ClassTable
  lemmasHist : Histogram
  formsHist : Histogram
  lemmas : List DictionaryLemma
  deriving DecidableEq, Repr

namespace Dictionary

/-- The loop that creates the classes of a lemma. Each pass removes a form. -/
def addForms (maxSuffixLen : ℤ) : ℕ → List TaggedForm → ClassTable × Histogram × List LemmaFormInfo →
    Option (ClassTable × Histogram × List LemmaFormInfo)
  | _, [], state => some state
  | 0, _ :: _, _ => none
  | fuel + 1, forms, (table, formsHist, infos) => do
    let next ← nextClass maxSuffixLen forms
    let (id, table) := table.classId next.members
    addForms maxSuffixLen fuel next.rest
      (table, formsHist.add next.root, infos ++ [⟨next.root, id⟩])

/-- What `load` does for a lemma. -/
def addLemma (addinfo : LemmaAddinfo) (maxSuffixLen : ℤ) (dict : Dictionary) (raw : RawLemma) :
    Option Dictionary := do
  let forms := unique (raw.taggedForms.insertionSort taggedFormLe)
  let (length, data) := addinfo.parse raw.lem
  let lem := raw.lem.take length
  let (table, formsHist, infos) ← addForms maxSuffixLen forms.length forms
    (dict.table, dict.formsHist, [])
  return ⟨table, dict.lemmasHist.add lem, formsHist,
    dict.lemmas ++ [⟨lem, data, infos.insertionSort LemmaFormInfo.le⟩]⟩

/-- The loop of `load`. -/
def addLemmas (addinfo : LemmaAddinfo) (maxSuffixLen : ℤ) (raws : List RawLemma) :
    Option Dictionary :=
  raws.foldlM (addLemma addinfo maxSuffixLen) ⟨.empty, [], [], []⟩

/-- The method `load`. -/
def load (addinfo : LemmaAddinfo) (text : Bytes) (maxSuffixLen : ℤ) : Option Dictionary := do
  let raws ← RawMorphoDictionaryReader.lemmas text
  let dict ← addLemmas addinfo maxSuffixLen raws
  return { dict with lemmas := dict.lemmas.insertionSort DictionaryLemma.le }

/-! ### Encoding -/

/-- The method `encode` of a histogram. -/
def encodeHistogram (lengths : Histogram) : Option Bytes := do
  let size ← add1B lengths.length
  let sizes ← lengths.mapM fun strings => add4B strings.length
  return size ++ sizes.flatten

open Derinet (encodeIf bestCommon commonPrefix removeStart removeEnd addStart addEnd)

/-- The difference of a root from the one before, and its class. -/
def encodeRoot (prev : Bytes) (info : LemmaFormInfo) : Option Bytes := do
  let best := bestCommon prev info.form
  let prevEnd := best.lemmaFrom + best.len
  let formEnd := best.parentFrom + best.len
  let operations ← add1B (removeStart * (decide (best.lemmaFrom > 0)).toNat +
    removeEnd * (decide (prevEnd < prev.length)).toNat +
    addStart * (decide (best.parentFrom > 0)).toNat +
    addEnd * (decide (formEnd < info.form.length)).toNat)
  let removedStart ← encodeIf (best.lemmaFrom > 0) (add1B best.lemmaFrom)
  let removedEnd ← encodeIf (prevEnd < prev.length)
    (add1B (prev.length - best.lemmaFrom - best.len))
  let addedStart ← encodeIf (best.parentFrom > 0)
    ((add1B best.parentFrom).map (· ++ info.form.take best.parentFrom))
  let addedEnd ← encodeIf (formEnd < info.form.length)
    ((add1B (info.form.length - best.parentFrom - best.len)).map (· ++ info.form.drop formEnd))
  let clas ← add2B info.clas
  return operations ++ removedStart ++ removedEnd ++ addedStart ++ addedEnd ++ clas

/-- The loop over the roots of a lemma. -/
def encodeRoots : Bytes → List LemmaFormInfo → Option Bytes
  | _, [] => some []
  | prev, info :: infos => do
    let root ← encodeRoot prev info
    let roots ← encodeRoots info.form infos
    return root ++ roots

/-- The record of a lemma behind another one. -/
def encodeLemma (prev : Bytes) (info : DictionaryLemma) : Option Bytes := do
  let cpl := commonPrefix prev info.lem
  let removed ← add1B (prev.length - cpl)
  let added ← add1B (info.lem.length - cpl)
  let addinfoLen ← add1B info.addinfo.length
  let rootsLen ← add1B info.forms.length
  let roots ← encodeRoots info.lem info.forms
  return removed ++ added ++ info.lem.drop cpl ++ addinfoLen ++ info.addinfo ++ rootsLen ++ roots

/-- The loop over the lemmas. -/
def encodeLemmas : Bytes → List DictionaryLemma → Option Bytes
  | _, [] => some []
  | prev, info :: lemmas => do
    let record ← encodeLemma prev info
    let records ← encodeLemmas info.lem lemmas
    return record ++ records

/-- The encoder of the entries of the suffixes. -/
def encodeSuffix (classes : List (ℕ × List ℕ)) : Option Bytes := do
  let size ← add2B classes.length
  let ids ← classes.mapM fun clas => add2B clas.1
  let indices ← encodeIndices classes 0 0
  let tags ← (classes.flatMap Prod.snd).mapM add2B
  return size ++ ids.flatten ++ indices ++ tags.flatten

/-- The map of the suffixes with their encoded entries. -/
def encodedSuffixes (suffixes : List (Bytes × List (ℕ × List ℕ))) : Option (List (Bytes × Bytes)) :=
  (PersistentUnorderedMap.enlarged [] suffixes false true).mapM fun e => do
    let entry ← encodeSuffix e.2
    return (e.1, entry)

/-- The method `encode`. -/
def encode (dict : Dictionary) : Option Bytes := do
  let lemmasHist ← encodeHistogram dict.lemmasHist
  let formsHist ← encodeHistogram dict.formsHist
  let count ← add4B dict.lemmas.length
  let records ← encodeLemmas [] dict.lemmas
  let tags ← encodeTags dict.table.table.tags
  let entries ← encodedSuffixes dict.table.suffixes
  let suffixes ← (PersistentUnorderedMap.ofUnordered entries (5 * ·) id).save
  return lemmasHist ++ formsHist ++ count ++ records ++ tags ++ suffixes

end Dictionary

/-- The function `morpho_dictionary_encoder::encode`. -/
def encodeDictionary (addinfo : LemmaAddinfo) (text : Bytes) (maxSuffixLen : ℤ) : Option Bytes := do
  let dict ← Dictionary.load addinfo text maxSuffixLen
  dict.encode

end UDPipe.Morphodita
