import UDPipe.Library.MarkedWalks
import UDPipe.Morphodita.PersistentStores

/-!
# The derivation dictionary

`derivator_dictionary_encoder::encode` in `derivator/derivator_dictionary_encoder.cpp` writes
lemmas with their comments and parents, each as a difference from the lemma before, and the
parent as a difference from the lemma. `derivator_dictionary::load` reads the data three times:
it counts the sizes of the entries, fills them, and links every lemma with its parent. While the
children of a lemma are being linked, the last of their slots holds how many there are already.
-/

namespace UDPipe.Morphodita

open PersistentUnorderedMap (countSizes)

/-- A key and the struct `lemma_info` in the map of the encoder. Without a parent, `parent` is
empty. -/
structure LemmaInfo where
  lemmaId : Bytes
  comment : Bytes
  parent : Bytes
  deriving DecidableEq, Repr

/-- The map of the encoder in the order of its lemmas, once the parents have been chosen. -/
structure Derinet where
  lemmas : List LemmaInfo
  nodup : (lemmas.map LemmaInfo.lemmaId).Nodup
  nonempty : ∀ e ∈ lemmas, e.lemmaId ≠ []
  zero_free : ∀ e ∈ lemmas, 0 ∉ e.lemmaId
  parents : ∀ e ∈ lemmas, e.parent ≠ [] → e.parent ∈ lemmas.map LemmaInfo.lemmaId

namespace Derinet

/-- The chosen parent of a lemma. -/
def parentOf (d : Derinet) (lem : Bytes) : Option Bytes :=
  (d.lemmas.find? fun e => e.lemmaId = lem).bind fun e =>
    if e.parent = [] then none else some e.parent

/-- The field `children`: how often the lemma was chosen as a parent. -/
def children (d : Derinet) (lem : Bytes) : ℕ := d.lemmas.countP fun e => e.parent = lem

/-! ### Encoder -/

/-- The loops that look for cycles. -/
def containsCycle (d : Derinet) : Option Bool :=
  MarkedWalks.search d.parentOf (d.lemmas.length + 1) (d.lemmas.map LemmaInfo.lemmaId) 0
    (fun _ => 0) false

/-- The loop over the bytes that a lemma has in common with the one before. -/
def commonPrefix : Bytes → Bytes → ℕ
  | c :: prev, d :: lem => if c ≠ 0 ∧ c = d then commonPrefix prev lem + 1 else 0
  | _, _ => 0

/-- The bytes of a C string. -/
def cString (text : Bytes) : Bytes := text.takeWhile (· ≠ 0)

/-- The variables `best_lemma_from`, `best_parent_from` and `best_len`. -/
structure BestCommon where
  lemmaFrom : ℕ
  parentFrom : ℕ
  len : ℕ
  deriving DecidableEq, Repr

/-- The loop over equal bytes. -/
def matchLength : Bytes → Bytes → ℕ
  | c :: lem, d :: parent => if c = d then matchLength lem parent + 1 else 0
  | _, _ => 0

/-- The loops over the places in the lemma and in the parent. -/
def bestCommon (lem parent : Bytes) : BestCommon :=
  (List.range lem.length).foldl
    (fun best lemmaFrom => (List.range parent.length).foldl
      (fun best parentFrom =>
        let len := matchLength (lem.drop lemmaFrom) (parent.drop parentFrom)
        if len > best.len then ⟨lemmaFrom, parentFrom, len⟩ else best) best) ⟨0, 0, 0⟩

/-- `REMOVE_START`. -/
abbrev removeStart : ℕ := 1

/-- `REMOVE_END`. -/
abbrev removeEnd : ℕ := 2

/-- `ADD_START`. -/
abbrev addStart : ℕ := 4

/-- `ADD_END`. -/
abbrev addEnd : ℕ := 8

/-- What is encoded if a condition holds. -/
def encodeIf (condition : Bool) (data : Option Bytes) : Option Bytes :=
  if condition then data else some []

/-- The difference of the parent from the lemma. -/
def encodeParent (lem parent : Bytes) : Option Bytes :=
  if parent = [] then add1B 0
  else
    let best := bestCommon lem parent
    let lemmaEnd := best.lemmaFrom + best.len
    let parentEnd := best.parentFrom + best.len
    do
      let operations ← add1B (removeStart * (decide (best.lemmaFrom > 0)).toNat +
        removeEnd * (decide (lemmaEnd < lem.length)).toNat +
        addStart * (decide (best.parentFrom > 0)).toNat +
        addEnd * (decide (parentEnd < parent.length)).toNat)
      let removedStart ← encodeIf (best.lemmaFrom > 0) (add1B best.lemmaFrom)
      let removedEnd ← encodeIf (lemmaEnd < lem.length)
        (add1B (lem.length - best.lemmaFrom - best.len))
      let addedStart ← encodeIf (best.parentFrom > 0)
        ((add1B best.parentFrom).map (· ++ parent.take best.parentFrom))
      let addedEnd ← encodeIf (parentEnd < parent.length)
        ((add1B (parent.length - best.parentFrom - best.len)).map
          (· ++ cString (parent.drop parentEnd)))
      return operations ++ removedStart ++ removedEnd ++ addedStart ++ addedEnd

/-- The record of a lemma behind another one. -/
def encodeRecord (d : Derinet) (prev : Bytes) (e : LemmaInfo) : Option Bytes := do
  let cpl := commonPrefix prev e.lemmaId
  let removed ← add1B (prev.length - cpl)
  let added ← add1B (e.lemmaId.length - cpl)
  let commentLen ← add1B e.comment.length
  let children ← add2B (d.children e.lemmaId)
  let parent ← encodeParent e.lemmaId e.parent
  return removed ++ added ++ cString (e.lemmaId.drop cpl) ++ commentLen ++ e.comment ++ children ++
    parent

/-- The loop over the lemmas. -/
def encodeRecords (d : Derinet) : Bytes → List LemmaInfo → Option Bytes
  | _, [] => some []
  | prev, e :: lemmas => do
    let record ← d.encodeRecord prev e
    let records ← encodeRecords d e.lemmaId lemmas
    return record ++ records

/-- What `encode` gives to the compressor. -/
def encode (d : Derinet) : Option Bytes := do
  let containsCycle ← d.containsCycle
  if containsCycle then none
  let lengths := countSizes (d.lemmas.map LemmaInfo.lemmaId)
  let size ← add1B lengths.length
  let counts ← lengths.mapM add4B
  let count ← add4B d.lemmas.length
  let records ← d.encodeRecords [] d.lemmas
  return size ++ counts.flatten ++ count ++ records

end Derinet

/-! ### Loading -/

/-- What a pass reads for a lemma. -/
structure DerivatorRecord where
  lemmaId : Bytes
  comment : Bytes
  children : ℕ
  parent : Bytes
  deriving DecidableEq, Repr

open Derinet (removeStart removeEnd addStart addEnd)

namespace DerivatorDictionary

/-- A number in a byte, if an operation has one. -/
def nextIf (operations operation : ℕ) (data : Bytes) : Option (ℕ × Bytes) :=
  if operations / operation % 2 = 1 then next1B data else some (0, data)

/-- A string behind its length, if an operation has one. -/
def nextAdded (operations operation : ℕ) (data : Bytes) : Option (Bytes × Bytes) :=
  if operations / operation % 2 = 1 then do
    let (len, data) ← next1B data
    nextBytes len data
  else some ([], data)

/-- The parent of a lemma; a range that is none has no result. -/
def nextParent (lem data : Bytes) : Option (Bytes × Bytes) := do
  let (operations, data) ← next1B data
  if operations = 0 then return ([], data)
  let (removedStart, data) ← nextIf operations removeStart data
  let (removedEnd, data) ← nextIf operations removeEnd data
  let (addedStart, data) ← nextAdded operations addStart data
  if lem.length < removedStart + removedEnd then none
  let (addedEnd, data) ← nextAdded operations addEnd data
  let kept := (lem.drop removedStart).take (lem.length - removedStart - removedEnd)
  return (addedStart ++ kept ++ addedEnd, data)

/-- What is read for the lemma behind another one. -/
def nextRecord (prev data : Bytes) : Option (DerivatorRecord × Bytes) := do
  let (removed, data) ← next1B data
  if prev.length < removed then none
  let (added, data) ← next1B data
  let (chars, data) ← nextBytes added data
  let lem := prev.take (prev.length - removed) ++ chars
  let (commentLen, data) ← next1B data
  let (comment, data) ← nextBytes commentLen data
  let (children, data) ← next2B data
  let (parent, data) ← nextParent lem data
  return (⟨lem, comment, children, parent⟩, data)

/-- The loop over the records in a pass. -/
def passFrom (step : PersistentUnorderedMap → DerivatorRecord → Option PersistentUnorderedMap) :
    ℕ → Bytes → Bytes → PersistentUnorderedMap → Option PersistentUnorderedMap
  | 0, _, _, derinet => some derinet
  | count + 1, prev, data, derinet => do
    let (r, data) ← nextRecord prev data
    let derinet ← step derinet r
    passFrom step count r.lemmaId data derinet

/-- A pass over the data. The number of lemmas becomes an `int`. -/
def pass (step : PersistentUnorderedMap → DerivatorRecord → Option PersistentUnorderedMap)
    (data : Bytes) (derinet : PersistentUnorderedMap) : Option PersistentUnorderedMap := do
  let (count, data) ← next4B data
  passFrom step (if count < 2 ^ 31 then count else 0) [] data derinet

/-- The size of an entry: the comment, the parent and the children. -/
def entrySize (data : Bytes) : ℕ :=
  let commentLen := unalignedLoad 1 data
  1 + commentLen + 4 + 2 + 4 * unalignedLoad 2 (data.drop (1 + commentLen + 4))

/-- What the first pass does for a record. -/
def addRecord (derinet : PersistentUnorderedMap) (r : DerivatorRecord) : PersistentUnorderedMap :=
  derinet.add r.lemmaId (1 + r.comment.length + 4 + 2 + 4 * r.children)

/-- What the second pass does for a record. The last slot of the children is set to zero, and the
others are zero from the start. -/
def fillRecord (derinet : PersistentUnorderedMap) (r : DerivatorRecord) : PersistentUnorderedMap :=
  derinet.fill r.lemmaId (toBytes 1 r.comment.length ++ r.comment ++ toBytes 4 0 ++
    toBytes 2 r.children ++ addWords 4 (List.replicate r.children 0))

/-- What the third pass does with the entry of a parent. The positions of the slots are computed
from what is stored in the entry; without slots there is no result. -/
def addChild (derinet : PersistentUnorderedMap) (parentLen parentData child : ℕ) :
    Option PersistentUnorderedMap :=
  let commentLen := derinet.loadAt 1 parentLen parentData
  let childrenLen := derinet.loadAt 2 parentLen (parentData + 1 + commentLen + 4)
  if childrenLen = 0 then none
  else
    let children := parentData + 1 + commentLen + 4 + 2
    let last := children + 4 * (childrenLen - 1)
    let childIndex := derinet.loadAt 4 parentLen last
    let derinet := derinet.storeAt parentLen (children + 4 * childIndex) (toBytes 4 child)
    if childIndex + 1 < childrenLen then
      some (derinet.storeAt parentLen last (toBytes 4 (derinet.loadAt 4 parentLen last + 1)))
    else some derinet

/-- What the third pass does for a record, with its assertions. -/
def linkRecord (derinet : PersistentUnorderedMap) (r : DerivatorRecord) :
    Option PersistentUnorderedMap :=
  if r.parent = [] then some derinet
  else do
    let lemmaLen := r.lemmaId.length
    let parentLen := r.parent.length
    let lemmaData ← derinet.position r.lemmaId entrySize
    let parentData ← derinet.position r.parent entrySize
    let parentOffset := parentData - parentLen
    if ¬ (parentLen < 2 ^ 8 ∧ parentOffset < 2 ^ 24) then none
    let derinet := derinet.storeAt lemmaLen (lemmaData + 1 + derinet.loadAt 1 lemmaLen lemmaData)
      (toBytes 4 (parentOffset * 2 ^ 8 + parentLen))
    let lemmaOffset := lemmaData - lemmaLen
    if ¬ (lemmaLen < 2 ^ 8 ∧ lemmaOffset < 2 ^ 24) then none
    addChild derinet parentLen parentData (lemmaOffset * 2 ^ 8 + lemmaLen)

/-- The loop that reads the numbers of lemmas of each length. -/
def resizeAll : ℕ → Bytes → PersistentUnorderedMap → Option (PersistentUnorderedMap × Bytes)
  | 0, data, derinet => some (derinet, data)
  | sizes + 1, data, derinet => do
    let (elems, data) ← next4B data
    resizeAll sizes data (derinet.resize elems)

/-- What `load` does with the data. -/
def loadData (data : Bytes) : Option PersistentUnorderedMap := do
  let (sizes, data) ← next1B data
  let (derinet, data) ← resizeAll sizes data ⟨[]⟩
  let derinet ← pass (fun derinet r => some (addRecord derinet r)) data derinet
  if ¬ derinet.Summed then none
  let derinet ← pass (fun derinet r => some (fillRecord derinet r)) data derinet.doneAdding
  pass linkRecord data derinet.doneFilling

end DerivatorDictionary

/-- The class `derivator_dictionary`. With a dictionary, `lemma_id_len` cuts the lemmas that are
looked up. -/
structure DerivatorDictionary where
  dictionary : Option (Bytes → ℕ)
  derinet : PersistentUnorderedMap

namespace DerivatorDictionary

/-- The method `load`, for a stream and its decompression. -/
def load (decompress : Bytes → Option Bytes) (dictionary : Option (Bytes → ℕ)) (stream : Bytes) :
    Option DerivatorDictionary := do
  let data ← decompress stream
  let derinet ← loadData data
  return ⟨dictionary, derinet⟩

/-- The lemma that is looked up. -/
def lemmaIdOf (dictionary : Option (Bytes → ℕ)) (lem : Bytes) : Bytes :=
  match dictionary with
  | some lemmaIdLen => lem.take (lemmaIdLen lem)
  | none => lem

/-- The lemma with its comment that an offset with a length points to. -/
def derivatedLemma (self : DerivatorDictionary) (encoded : ℕ) : Bytes :=
  let len := encoded % 2 ^ 8
  let data := (self.derinet.dataStart len).drop (encoded / 2 ^ 8)
  data.take len ++ (data.drop (len + 1)).take (unalignedLoad 1 (data.drop len))

/-- The method `parent`; without a parent there is no result. -/
def parent (self : DerivatorDictionary) (lem : Bytes) : Option Bytes := do
  let lemmaData ← self.derinet.entryAt (lemmaIdOf self.dictionary lem) entrySize
  let parentEncoded := unalignedLoad 4 (lemmaData.drop (1 + unalignedLoad 1 lemmaData))
  if parentEncoded = 0 then none else some (self.derivatedLemma parentEncoded)

/-- The method `children`; without children there is no result. -/
def children (self : DerivatorDictionary) (lem : Bytes) : Option (List Bytes) := do
  let lemmaData ← self.derinet.entryAt (lemmaIdOf self.dictionary lem) entrySize
  let commentLen := unalignedLoad 1 lemmaData
  let childrenLen := unalignedLoad 2 (lemmaData.drop (1 + commentLen + 4))
  let childrenEncoded := words 4 childrenLen (lemmaData.drop (1 + commentLen + 4 + 2))
  if childrenLen = 0 then none else some (childrenEncoded.map self.derivatedLemma)

end DerivatorDictionary

end UDPipe.Morphodita
