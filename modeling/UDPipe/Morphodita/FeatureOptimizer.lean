import UDPipe.Morphodita.FeatureSequences

/-!
# The optimizer of feature sequences

The optimizer counts how often each number of an elementary map occurs in the keys with
a weight, gives the frequent ones the small numbers, and drops those that do not occur.
The order of numbers with the same count is left to the sorting algorithm.
-/

namespace UDPipe.Morphodita

/-- The struct `count_info`. -/
structure CountInfo where
  ori : ℕ
  count : ℕ
  deriving DecidableEq, Repr

namespace FeatureOptimizer

/-- The maps of the elements of a sequence. -/
def mapIndices (descriptions : List FeatureDescription) (sequence : FeatureSequence) : List ℤ :=
  sequence.elements.flatMap fun element =>
    (descriptions.filter fun d => element.type = d.type ∧ element.elementaryIndex = d.index).map
      FeatureDescription.mapIndex

/-- The numbers of a key. -/
def elementaryIds (key : Bytes) : List ℕ := Vli.decodeAll key.length key

/-- The numbers of all keys with a weight, each with its map. -/
def occurrences (descriptions : List FeatureDescription) (f : TrainingFeatures) : List (ℤ × ℕ) :=
  (f.sequences.zip f.scores).flatMap fun (sequence, map) =>
    (map.filter fun element => element.2 ≠ 0).flatMap fun element =>
      (mapIndices descriptions sequence).zip (elementaryIds element.1)

/-- Count a number. -/
def countId (counts : List (List ℕ)) (occurrence : ℤ × ℕ) : List (List ℕ) :=
  if occurrence.1 < 0 then counts
  else
    counts.modify occurrence.1.toNat fun count =>
      (count ++ List.replicate (occurrence.2 + 1 - count.length) 0).modify occurrence.2 (· + 1)

/-- The counts of a map with their numbers, sorted except for the unknown and the empty
number. -/
def sortCounts (sort : List CountInfo → List CountInfo) (count : List ℕ) : List CountInfo :=
  let count := count ++ List.replicate (elementaryFeatureEmpty + 1 - count.length) 0
  let count := (count.set elementaryFeatureUnknown 0).set elementaryFeatureEmpty 1
  let infos := count.zipIdx.map fun (count, ori) => ⟨ori, count⟩
  infos.take (elementaryFeatureEmpty + 1) ++ sort (infos.drop (elementaryFeatureEmpty + 1))

/-- The new number for each number of a map. -/
def idsMap (infos : List CountInfo) : List ℕ :=
  infos.zipIdx.foldl
    (fun ids (info, j) =>
      ids.set info.ori (if info.count ≠ 0 then j else elementaryFeatureUnknown))
    (List.replicate infos.length 0)

/-- The new number for a number of an element. -/
def remap (idsMaps : List (List ℕ)) (mapIndex : ℤ) (id : ℕ) : ℕ :=
  if mapIndex < 0 then id
  else (idsMaps.getD mapIndex.toNat []).getD id elementaryFeatureUnknown

/-- The strings that keep a number, with their new numbers. -/
def mappedIds (ids : List ℕ) (map : TrainingElementaryFeatureMap) : List (Bytes × ℕ) :=
  map.filterMap fun (feature, id) =>
    if id < ids.length ∧ ids.getD id elementaryFeatureUnknown ≠ elementaryFeatureUnknown then
      some (feature, ids.getD id elementaryFeatureUnknown)
    else none

/-- The new key for a key. -/
def remapKey (idsMaps : List (List ℕ)) (mapIndices : List ℤ) (key : Bytes) : Bytes :=
  (List.zipWith (remap idsMaps) mapIndices (elementaryIds key)).flatMap Vli.encode

/-- The method `emplace`, which keeps an element with the same key. -/
def emplace (map : TrainingFeatureSequenceMap) (element : Bytes × ℤ) : TrainingFeatureSequenceMap :=
  if map.any fun e => e.1 = element.1 then map else map ++ [element]

/-- The weights of a sequence with their new keys. -/
def updatedMap (idsMaps : List (List ℕ)) (mapIndices : List ℤ) (map : TrainingFeatureSequenceMap) :
    TrainingFeatureSequenceMap :=
  (map.filter fun element => element.2 ≠ 0).foldl
    (fun updated element => emplace updated (remapKey idsMaps mapIndices element.1, element.2)) []

/-- The bytes of a weight. -/
def encodeGamma (gamma : ℤ) : Bytes := toBytes 4 (gamma % 2 ^ 32).toNat

/-- The new numbers for all maps. -/
def idsMaps (sort : List CountInfo → List CountInfo) (descriptions : List FeatureDescription)
    (f : TrainingFeatures) : List (List ℕ) :=
  ((occurrences descriptions f).foldl countId (f.maps.map fun _ => [])).map fun count =>
    idsMap (sortCounts sort count)

/-- The method `optimize`. -/
def optimize (sort : List CountInfo → List CountInfo) (descriptions : List FeatureDescription)
    (f : TrainingFeatures) : PersistentFeatures :=
  let ids := idsMaps sort descriptions f
  { maps := List.zipWith
      (fun ids map => .ofUnordered (mappedIds ids map) (fun size => size) (toBytes 4)) ids f.maps
    sequences := f.sequences
    scores := List.zipWith
      (fun sequence map => .ofUnordered (updatedMap ids (mapIndices descriptions sequence) map)
        (fun size => size) encodeGamma) f.sequences f.scores }

end FeatureOptimizer

end UDPipe.Morphodita
