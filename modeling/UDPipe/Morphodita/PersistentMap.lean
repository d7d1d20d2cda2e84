import UDPipe.BinaryCoder
import UDPipe.Library.Buckets

/-!
# The persistent unordered map

The keys of each length have a table of their own: a vector of offsets, one for each
value of the hash function, into a vector of records. A record is the key followed by
the entry. Pointers into the data are the data from there on.
-/

namespace UDPipe.Morphodita

/-- The struct `persistent_unordered_map::fnv_hash`. -/
structure FnvHash where
  mask : ℕ
  hash : List ℕ
  data : Bytes
  deriving DecidableEq, Repr

namespace FnvHash

/-- The loop that doubles the mask, with fuel. -/
def growMask (num : ℕ) : ℕ → ℕ → ℕ
  | 0, mask => mask
  | fuel + 1, mask => if mask < num then growMask num fuel (2 * mask) else mask

/-- The constructor from a number of elements. -/
def new (num : ℕ) : FnvHash where
  mask := growMask num num 1 - 1
  hash := List.replicate (growMask num num 1 + 1) 0
  data := []

/-- The FNV hash, over the characters as signed numbers. -/
def fnv (str : Bytes) : UInt32 :=
  str.foldl (fun hash c => (hash ^^^ c.toInt8.toInt32.toUInt32) * 16777619) 2166136261

/-- The method `index`, for a mask. -/
def index (mask : ℕ) : Bytes → ℕ
  | [] => 0
  | [c] => unalignedLoad 1 [c]
  | [c, d] => unalignedLoad 2 [c, d]
  | str => (fnv str).toNat &&& mask

/-- The method `save` of a table. -/
def save (h : FnvHash) : Option Bytes := do
  let size ← add4B h.hash.length
  let dataSize ← add4B h.data.length
  return size ++ addWords 4 h.hash ++ dataSize ++ h.data

/-- The constructor from a binary decoder. -/
def load (data : Bytes) : Option (FnvHash × Bytes) := do
  let (size, data) ← next4B data
  let (hash, data) ← nextWords 4 size data
  let (dataSize, data) ← next4B data
  let (cells, data) ← nextBytes dataSize data
  return (⟨size - 2, hash, cells⟩, data)

/-- The data from the records with an index on, and the offsets of these records and of
those behind them. -/
def chain (h : FnvHash) (str : Bytes) : ℕ × ℕ :=
  (h.hash.getD (index h.mask str) 0, h.hash.getD (index h.mask str + 1) 0)

/-- The loop over the records in `at` and `at_typed`. -/
def scan (h : FnvHash) (str : Bytes) (entrySize : Bytes → ℕ) (stop : ℕ) : ℕ → ℕ → Option Bytes
  | 0, _ => none
  | fuel + 1, pos =>
    if pos < stop then
      let entry := h.data.drop (pos + str.length)
      if (h.data.drop pos).take str.length = str then some entry
      else scan h str entrySize stop fuel (pos + str.length + entrySize entry)
    else none

/-- The loops over the records in `iter` and `iter_all`: each key with the data behind it. -/
def records (h : FnvHash) (len : ℕ) (entrySize : Bytes → ℕ) (stop : ℕ) :
    ℕ → ℕ → List (Bytes × Bytes)
  | 0, _ => []
  | fuel + 1, pos =>
    if pos < stop then
      let entry := h.data.drop (pos + len)
      ((h.data.drop pos).take len, entry) ::
        records h len entrySize stop fuel (pos + len + entrySize entry)
    else []

/-! What the creation functions do to one table. -/

/-- The method `add` of a table. -/
def add (h : FnvHash) (str : Bytes) (dataLen : ℕ) : FnvHash :=
  { h with hash := h.hash.modify (index h.mask str) (· + (str.length + dataLen)) }

/-- The method `done_adding` for a table whose size is an `int`. -/
def doneAdding (h : FnvHash) : FnvHash :=
  { h with hash := Buckets.sums 0 h.hash, data := List.replicate h.hash.sum 0 }

/-- With the copy of the entry to the place that `fill` returns. -/
def fill (h : FnvHash) (str entry : Bytes) : FnvHash :=
  let offset := h.hash.getD (index h.mask str) 0
  { h with
    hash := h.hash.modify (index h.mask str) (· + (str.length + entry.length))
    data := Buckets.write h.data offset (str ++ entry) }

/-- The method `done_filling` of a table. -/
def doneFilling (h : FnvHash) : FnvHash := { h with hash := (0 :: h.hash).dropLast }

end FnvHash

/-- The class `persistent_unordered_map`. -/
structure PersistentUnorderedMap where
  hashes : List FnvHash
  deriving DecidableEq, Repr

namespace PersistentUnorderedMap

/-! ### Access -/

/-- The method `at`. The function tells how far the decoder gets over an entry. -/
def entryAt (m : PersistentUnorderedMap) (str : Bytes) (entrySize : Bytes → ℕ) : Option Bytes :=
  match m.hashes[str.length]? with
  | none => none
  | some h =>
    let (start, stop) := h.chain str
    if str.length ≤ 2 then
      if start ≠ stop then some (h.data.drop (start + str.length)) else none
    else h.scan str entrySize stop h.data.length start

/-- The method `at_typed`, for a type with the given size. -/
def atTyped (m : PersistentUnorderedMap) (str : Bytes) (size : ℕ) : Option Bytes :=
  m.entryAt str fun _ => size

/-- The method `iter`. -/
def iter (m : PersistentUnorderedMap) (str : Bytes) (entrySize : Bytes → ℕ) :
    List (Bytes × Bytes) :=
  match m.hashes[str.length]? with
  | none => []
  | some h =>
    let (start, stop) := h.chain str
    h.records str.length entrySize stop h.data.length start

/-- The method `iter_all`. -/
def iterAll (m : PersistentUnorderedMap) (entrySize : Bytes → ℕ) : List (Bytes × Bytes) :=
  m.hashes.zipIdx.flatMap fun (h, len) => h.records len entrySize h.data.length h.data.length 0

/-- The method `max_length`. -/
def maxLength (m : PersistentUnorderedMap) : ℕ := m.hashes.length

/-! ### Creation -/

/-- The method `resize`. -/
def resize (m : PersistentUnorderedMap) (elems : ℕ) : PersistentUnorderedMap :=
  ⟨m.hashes ++ [FnvHash.new
    (match m.hashes.length with
    | 0 => 1
    | 1 => 2 ^ 8
    | 2 => 2 ^ 16
    | _ => elems)]⟩

/-- The method `add`. -/
def add (m : PersistentUnorderedMap) (str : Bytes) (dataLen : ℕ) : PersistentUnorderedMap :=
  ⟨m.hashes.modify str.length fun h => h.add str dataLen⟩

/-- The sizes of the tables, which `done_adding` sums in an `int total`, are no larger ones:
from 2^31 on it throws, or it makes the data too short for the records. -/
def Summed (m : PersistentUnorderedMap) : Prop := ∀ h ∈ m.hashes, h.hash.sum < 2 ^ 31

instance (m : PersistentUnorderedMap) : Decidable m.Summed :=
  inferInstanceAs (Decidable (∀ h ∈ m.hashes, h.hash.sum < 2 ^ 31))

/-- The method `done_adding`, if the sizes can be summed. -/
def doneAdding (m : PersistentUnorderedMap) : PersistentUnorderedMap :=
  ⟨m.hashes.map FnvHash.doneAdding⟩

/-- The method `fill`. -/
def fill (m : PersistentUnorderedMap) (str entry : Bytes) : PersistentUnorderedMap :=
  ⟨m.hashes.modify str.length fun h => h.fill str entry⟩

/-- The method `done_filling`. -/
def doneFilling (m : PersistentUnorderedMap) : PersistentUnorderedMap :=
  ⟨m.hashes.map FnvHash.doneFilling⟩

/-- The loop that counts the keys of each length. -/
def countSizes (keys : List Bytes) : List ℕ :=
  keys.foldl
    (fun sizes key =>
      (sizes ++ List.replicate (key.length + 1 - sizes.length) 0).modify key.length (· + 1)) []

/-- The method `construct`, for the map in the order of its keys, when the sizes of its tables
can be summed. The load factor gives the number of elements for a number of keys. -/
def construct {Entry : Type} (map : List (Bytes × Entry)) (loadFactor : ℕ → ℕ)
    (entryEncode : Entry → Bytes) : PersistentUnorderedMap :=
  let sizes := countSizes (map.map Prod.fst)
  let m := sizes.foldl (fun m size => resize m (loadFactor size)) ⟨[]⟩
  let m := map.foldl (fun m elem => add m elem.1 (entryEncode elem.2).length) m
  let m := map.foldl (fun m elem => fill m elem.1 (entryEncode elem.2)) (doneAdding m)
  doneFilling m

/-- The constructor from an unordered map, which is put in the order of its keys. -/
def ofUnordered {Entry : Type} (map : List (Bytes × Entry)) (loadFactor : ℕ → ℕ)
    (entryEncode : Entry → Bytes) : PersistentUnorderedMap :=
  construct (map.mergeSort fun a b => a.1 ≤ b.1) loadFactor entryEncode

/-- The operator that finds a key or adds it with the default entry. -/
def touch {Entry : Type} (default : Entry) (map : List (Bytes × Entry)) (key : Bytes) :
    List (Bytes × Entry) :=
  if (map.lookup key).isSome then map else map ++ [(key, default)]

/-- The copy of the map with the proper prefixes and suffixes of its keys. -/
def enlarged {Entry : Type} (default : Entry) (map : List (Bytes × Entry))
    (addPrefixes addSuffixes : Bool) : List (Bytes × Entry) :=
  map.foldl
    (fun enlarged e =>
      let inner := List.range' 1 (e.1.length - 1)
      let enlarged :=
        if addPrefixes then (inner.reverse.map e.1.take).foldl (touch default) enlarged
        else enlarged
      if addSuffixes then (inner.map e.1.drop).foldl (touch default) enlarged else enlarged) map

/-! ### Serialization -/

/-- The method `save`. -/
def save (m : PersistentUnorderedMap) : Option Bytes := do
  let sizes ← add1B m.hashes.length
  let hashes ← m.hashes.mapM FnvHash.save
  return sizes ++ hashes.flatten

/-- The loop that loads the tables. -/
def loadHashes : ℕ → Bytes → Option (List FnvHash × Bytes)
  | 0, data => some ([], data)
  | sizes + 1, data => do
    let (h, data) ← FnvHash.load data
    let (hashes, data) ← loadHashes sizes data
    return (h :: hashes, data)

/-- The method `load`. -/
def load (data : Bytes) : Option (PersistentUnorderedMap × Bytes) := do
  let (sizes, data) ← next1B data
  let (hashes, data) ← loadHashes sizes data
  return (⟨hashes⟩, data)

end PersistentUnorderedMap

end UDPipe.Morphodita
