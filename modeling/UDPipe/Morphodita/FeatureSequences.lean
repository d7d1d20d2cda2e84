import UDPipe.Morphodita.PersistentMap
import UDPipe.Morphodita.Vli

/-!
# Feature sequences

A feature sequence looks at some elementary features around a position. The values of
these features are numbers that a map gives to strings; written one after another they
are the key of the sequence, and another map gives its score. A cache keeps the last key
and score of each sequence, and the sequences that do not depend on the changed tags keep
their scores.

Elementary features are computed in the same way for every kind of maps, so they are
modelled as what is looked up.
-/

namespace UDPipe.Morphodita

/-- `elementary_feature_unknown`. -/
abbrev elementaryFeatureUnknown : ℕ := 0

/-- `elementary_feature_empty`. -/
abbrev elementaryFeatureEmpty : ℕ := 1

/-- The enumeration `elementary_feature_type`. -/
inductive FeatureType
  | perForm | perTag | dynamic
  deriving DecidableEq, Repr

/-- The struct `elementary_feature_description`, as far as the optimizer reads it. -/
structure FeatureDescription where
  type : FeatureType
  index : ℕ
  mapIndex : ℤ
  deriving DecidableEq, Repr

/-- A `tagged_lemma`. -/
structure TaggedLemma where
  lemmaString : Bytes
  tag : Bytes
  deriving DecidableEq, Repr

/-- What gives the value of an elementary feature: a number of the code, or the number that
a map gives to a string. -/
inductive FeatureValue
  | constant (value : ℕ)
  | lookup (map : ℕ) (feature : Bytes)
  deriving DecidableEq, Repr

/-- The values of the features of a sentence, by form and by form and tag. -/
structure FeatureValues (α : Type) where
  perForm : List (List α)
  perTag : List (List (List α))

namespace FeatureValues

/-- Other values of the same features. -/
def map {α β : Type} (f : α → β) (values : FeatureValues α) : FeatureValues β where
  perForm := values.perForm.map (List.map f)
  perTag := values.perTag.map (List.map (List.map f))

end FeatureValues

namespace FeatureValue

/-- The value may stand for a feature with the given map: it is looked up in this map, or it
is unknown or empty. Without a map it is any number of four bytes. -/
def Suits (mapIndex : ℤ) : FeatureValue → Prop
  | constant value => value < 2 ^ 32 ∧ (0 ≤ mapIndex → value ≤ elementaryFeatureEmpty)
  | lookup map _ => mapIndex = map

/-- The value is among those that have been looked up. -/
def Known (lookups : List (ℕ × Bytes)) : FeatureValue → Prop
  | constant _ => True
  | lookup map feature => (map, feature) ∈ lookups

end FeatureValue

/-- A class of elementary features: its descriptions, the features that it computes for a
sentence, the lookups in their order, and the dynamic features that there can be. Every
feature is looked up in the map of its description. -/
structure ElementaryFeatures where
  mapsTotal : ℕ
  descriptions : List FeatureDescription
  computeFeatures : List Bytes → List (List TaggedLemma) → FeatureValues FeatureValue
  lookups : List Bytes → List (List TaggedLemma) → List (ℕ × Bytes)
  IsDynamic : List Bytes → List (List TaggedLemma) → List FeatureValue → Prop
  mapIndex_lt : ∀ d ∈ descriptions, d.mapIndex < mapsTotal
  unique : (descriptions.map fun d => (d.type, d.index)).Nodup
  perForm_ok : ∀ forms analyses, ∀ d ∈ descriptions, d.type = .perForm →
    ∀ features ∈ (computeFeatures forms analyses).perForm, ∀ v ∈ features[d.index]?,
      v.Suits d.mapIndex ∧ v.Known (lookups forms analyses)
  perTag_ok : ∀ forms analyses, ∀ d ∈ descriptions, d.type = .perTag →
    ∀ tags ∈ (computeFeatures forms analyses).perTag, ∀ features ∈ tags, ∀ v ∈ features[d.index]?,
      v.Suits d.mapIndex ∧ v.Known (lookups forms analyses)
  dynamic_ok : ∀ forms analyses, ∀ d ∈ descriptions, d.type = .dynamic →
    ∀ features, IsDynamic forms analyses features → ∀ v ∈ features[d.index]?,
      v.Suits d.mapIndex ∧ v.Known (lookups forms analyses)

/-- The struct `feature_sequence_element`. -/
structure SequenceElement where
  type : FeatureType
  elementaryIndex : ℕ
  sequenceIndex : ℤ
  deriving DecidableEq, Repr

/-- The struct `feature_sequence`. -/
structure FeatureSequence where
  elements : List SequenceElement
  dependantRange : ℤ
  deriving DecidableEq, Repr

/-! ### Scores -/

/-- The struct `cache_element`. -/
structure CacheElement where
  key : Bytes
  score : ℤ
  deriving DecidableEq, Repr

/-- The struct `cache` with the features of a sentence. -/
structure FeatureCache where
  values : FeatureValues ℕ
  caches : List CacheElement
  score : ℤ

/-- The value of an element at a position, or the given one for what is out of bounds. -/
def elementValue {α : Type} (empty other : α) (values : FeatureValues α) (formIndex : ℕ)
    (tagsWindow : List ℤ) (dynamic : List α) (element : SequenceElement) : α :=
  let index := formIndex + element.sequenceIndex
  match element.type with
  | .perForm =>
    if index < 0 ∨ index ≥ values.perForm.length then empty
    else (values.perForm.getD index.toNat []).getD element.elementaryIndex other
  | .perTag =>
    if index < 0 then empty
    else
      let tag := tagsWindow.getD (-element.sequenceIndex).toNat (-1)
      ((values.perTag.getD index.toNat []).getD tag.toNat []).getD element.elementaryIndex other
  | .dynamic => dynamic.getD element.elementaryIndex other

/-- The loop that builds a key, which is empty when a value is unknown. -/
def makeKey : List ℕ → Bytes → Bytes
  | [], key => key
  | value :: values, key =>
    if value = elementaryFeatureUnknown then [] else makeKey values (key ++ Vli.encode value)

/-- The new cache of a sequence for a key. -/
def CacheElement.update (score : Bytes → ℤ) (key : Bytes) (cache : CacheElement) : CacheElement :=
  if key = [] then ⟨[], 0⟩ else if key ≠ cache.key then ⟨key, score key⟩ else cache

/-- The score of the key of some values. -/
def keyScore (score : Bytes → ℤ) (values : List ℕ) : ℤ :=
  if makeKey values [] = [] then 0 else score (makeKey values [])

/-- A cache holds the score of its key. -/
def CacheElement.Holds (score : Bytes → ℤ) (cache : CacheElement) : Prop :=
  cache.score = if cache.key = [] then 0 else score cache.key

/-- An updated cache holds the score of the new key. -/
theorem CacheElement.update_score {score : Bytes → ℤ} {cache : CacheElement}
    (h : cache.Holds score) (values : List ℕ) :
    (cache.update score (makeKey values [])).Holds score ∧
      (cache.update score (makeKey values [])).score = keyScore score values := by
  unfold CacheElement.update keyScore
  split
  · exact ⟨rfl, rfl⟩
  · rename_i hkey
    split
    · exact ⟨by simp [Holds, hkey], rfl⟩
    · rename_i hsame
      rw [not_not] at hsame
      refine ⟨h, ?_⟩
      rw [h, ← hsame, if_neg hkey]

/-- The loop of `score` over the sequences. -/
def scoreLoop (valueOf : SequenceElement → ℕ) (tagsUnchanged : ℤ) :
    List (FeatureSequence × (Bytes → ℤ)) → List CacheElement → ℤ → List CacheElement × ℤ
  | (sequence, score) :: rest, cache :: caches, result =>
    if tagsUnchanged ≥ sequence.dependantRange then (cache :: caches, result)
    else
      let key := makeKey (sequence.elements.map valueOf) []
      let updated := cache.update score key
      let (caches, result) :=
        scoreLoop valueOf tagsUnchanged rest caches (result - cache.score + updated.score)
      (updated :: caches, result)
  | _, caches, result => (caches, result)

/-- The arguments of a call of `score`, with the dynamic features. -/
structure ScoreCall (α : Type) where
  formIndex : ℕ
  tagsWindow : List ℤ
  tagsUnchanged : ℤ
  dynamic : List α

/-- A call with other dynamic features. -/
def ScoreCall.map {α β : Type} (f : α → β) (call : ScoreCall α) : ScoreCall β where
  formIndex := call.formIndex
  tagsWindow := call.tagsWindow
  tagsUnchanged := call.tagsUnchanged
  dynamic := call.dynamic.map f

/-- The class `feature_sequences` with the method `score` of its maps. -/
structure FeatureSequences where
  sequences : List FeatureSequence
  scores : List (Bytes → ℤ)

namespace FeatureSequences

/-- The method `initialize_sentence`, for computed features. -/
def initializeSentence (f : FeatureSequences) (values : FeatureValues ℕ) : FeatureCache where
  values := values
  caches := f.sequences.map fun _ => ⟨[], 0⟩
  score := 0

/-- The method `score`. -/
def score (f : FeatureSequences) (c : FeatureCache) (call : ScoreCall ℕ) : FeatureCache × ℤ :=
  let valueOf := elementValue elementaryFeatureEmpty elementaryFeatureUnknown c.values
    call.formIndex call.tagsWindow call.dynamic
  let (caches, result) :=
    scoreLoop valueOf call.tagsUnchanged (f.sequences.zip f.scores) c.caches c.score
  ({ c with caches := caches, score := result }, result)

/-- The scores of one call after another. -/
def run (f : FeatureSequences) : FeatureCache → List (ScoreCall ℕ) → List ℤ
  | _, [] => []
  | c, call :: calls => (f.score c call).2 :: run f (f.score c call).1 calls

end FeatureSequences

/-! ### Maps for training -/

/-- The class `training_elementary_feature_map`, in the order in which it was filled. -/
abbrev TrainingElementaryFeatureMap := List (Bytes × ℕ)

/-- The map when it is created. -/
def TrainingElementaryFeatureMap.empty : TrainingElementaryFeatureMap :=
  [([], elementaryFeatureEmpty)]

/-- The method `value`, with the map after it. -/
def TrainingElementaryFeatureMap.value (feature : Bytes) (map : TrainingElementaryFeatureMap) :
    ℕ × TrainingElementaryFeatureMap :=
  match map.lookup feature with
  | some value => (value, map)
  | none =>
    (elementaryFeatureEmpty + map.length, map ++ [(feature, elementaryFeatureEmpty + map.length)])

/-- The class `training_feature_sequence_map`, with the field `gamma` of the scores. -/
abbrev TrainingFeatureSequenceMap := List (Bytes × ℤ)

/-- The score by `gamma`. -/
def TrainingFeatureSequenceMap.score (map : TrainingFeatureSequenceMap) (key : Bytes) : ℤ :=
  (map.lookup key).getD 0

/-- Set the weight of a key. -/
def TrainingFeatureSequenceMap.set (key : Bytes) (gamma : ℤ) (map : TrainingFeatureSequenceMap) :
    TrainingFeatureSequenceMap :=
  map.filter (fun e => e.1 ≠ key) ++ [(key, gamma)]

/-- Features with maps for training. -/
structure TrainingFeatures where
  maps : List TrainingElementaryFeatureMap
  sequences : List FeatureSequence
  scores : List TrainingFeatureSequenceMap

namespace TrainingFeatures

/-- Features before training. -/
def init (e : ElementaryFeatures) (sequences : List FeatureSequence) : TrainingFeatures where
  maps := List.replicate e.mapsTotal .empty
  sequences := sequences
  scores := sequences.map fun _ => []

/-- The maps after the features of a sentence have been computed. -/
def compute (f : TrainingFeatures) (e : ElementaryFeatures) (forms : List Bytes)
    (analyses : List (List TaggedLemma)) : TrainingFeatures :=
  let maps := (e.lookups forms analyses).foldl
    (fun maps l => maps.modify l.1 fun map => (TrainingElementaryFeatureMap.value l.2 map).2) f.maps
  { f with maps := maps }

/-- The number of a value that has been looked up before. -/
def valueOf (f : TrainingFeatures) : FeatureValue → ℕ
  | .constant value => value
  | .lookup map feature => (TrainingElementaryFeatureMap.value feature (f.maps.getD map [])).1

/-- The features with the scores by `gamma`. -/
def byGamma (f : TrainingFeatures) : FeatureSequences where
  sequences := f.sequences
  scores := f.scores.map TrainingFeatureSequenceMap.score

/-- The key of a sequence, as the method `feature_keys` gives it. -/
def keyOf (f : TrainingFeatures) (values : FeatureValues FeatureValue)
    (call : ScoreCall FeatureValue) (sequence : FeatureSequence) : Bytes :=
  makeKey (sequence.elements.map fun element => f.valueOf (elementValue
    (.constant elementaryFeatureEmpty) (.constant elementaryFeatureUnknown) values call.formIndex
      call.tagsWindow call.dynamic element)) []

/-- Set the weight of a sequence for a key. -/
def weigh (f : TrainingFeatures) (sequence : ℕ) (key : Bytes) (gamma : ℤ) : TrainingFeatures :=
  { f with scores := f.scores.modify sequence (TrainingFeatureSequenceMap.set key gamma) }

/-- The features that training can give, with arbitrary weights for the keys of features
that were computed. -/
inductive Trained (e : ElementaryFeatures) (sequences : List FeatureSequence) :
    TrainingFeatures → Prop
  | init : Trained e sequences (init e sequences)
  | compute {f : TrainingFeatures} (h : Trained e sequences f) (forms : List Bytes)
    (analyses : List (List TaggedLemma)) : Trained e sequences (f.compute e forms analyses)
  | weigh {f : TrainingFeatures} (h : Trained e sequences f) (forms : List Bytes)
    (analyses : List (List TaggedLemma)) (call : ScoreCall FeatureValue)
    (hdynamic : e.IsDynamic forms analyses call.dynamic) {i : ℕ} {sequence : FeatureSequence}
    (hsequence : sequences[i]? = some sequence) {key : Bytes}
    (hkey : key = (f.compute e forms analyses).keyOf (e.computeFeatures forms analyses) call
      sequence) (hne : key ≠ []) (gamma : ℤ) :
    Trained e sequences ((f.compute e forms analyses).weigh i key gamma)

end TrainingFeatures

/-! ### Persistent maps -/

/-- The method `persistent_elementary_feature_map::value`. -/
def PersistentUnorderedMap.elementaryValue (m : PersistentUnorderedMap) (feature : Bytes) : ℕ :=
  match m.atTyped feature 4 with
  | some it => unalignedLoad 4 it
  | none => elementaryFeatureUnknown

/-- The number of four bytes as a signed one. -/
def toSigned (value : ℕ) : ℤ := if value < 2 ^ 31 then value else value - 2 ^ 32

/-- The method `persistent_feature_sequence_map::score`. -/
def PersistentUnorderedMap.sequenceScore (m : PersistentUnorderedMap) (key : Bytes) : ℤ :=
  match m.atTyped key 4 with
  | some it => toSigned (unalignedLoad 4 it)
  | none => 0

/-- Features with persistent maps. -/
structure PersistentFeatures where
  maps : List PersistentUnorderedMap
  sequences : List FeatureSequence
  scores : List PersistentUnorderedMap

namespace PersistentFeatures

/-- The number of a value. -/
def valueOf (f : PersistentFeatures) : FeatureValue → ℕ
  | .constant value => value
  | .lookup map feature => ((f.maps[map]?.map fun m => m.elementaryValue feature).getD
      elementaryFeatureUnknown)

/-- The features with the scores that their maps give. -/
def byScore (f : PersistentFeatures) : FeatureSequences where
  sequences := f.sequences
  scores := f.scores.map PersistentUnorderedMap.sequenceScore

end PersistentFeatures

end UDPipe.Morphodita
