import Mathlib.Algebra.BigOperators.Group.Finset.Basic
import Mathlib.Tactic.Ring
import UDPipe.Bytes
import UDPipe.Library.Associations

/-!
# Averages of the perceptron trainer

`perceptron_tagger_trainer::train_viterbi` of `tagger/perceptron_tagger_trainer.h` keeps for
each feature its weight and the sum of its weights after every sentence. The sum is brought
up to date only when the weight changes, and at the end of an iteration. What the decoder
finds is a parameter that may depend on the weights in any way.
-/

namespace UDPipe.Morphodita.PerceptronTrainer

/-- The struct `training_feature_sequence_map::info`. -/
structure Info where
  alpha : ℤ := 0
  gamma : ℤ := 0
  lastGammaUpdate : ℤ := 0
  deriving DecidableEq, Repr

/-- The maps of the feature sequences. -/
abbrev Scores := List (List (Bytes × Info))

/-- The keys of the decoded and the gold feature sequences at a position. -/
abbrev Position := List (Bytes × Bytes)

/-- Bring `gamma` up to date before sentence `s`, and add to `alpha`. -/
def Info.update (s : ℕ) (delta : ℤ) (info : Info) : Info where
  alpha := info.alpha + delta
  gamma := info.gamma + info.alpha * (s - info.lastGammaUpdate)
  lastGammaUpdate := s

/-- Without pruning, a feature is added if it is not there. -/
def addKey (pruneFeatures : Bool) (key : Bytes) (map : List (Bytes × Info)) : List (Bytes × Info) :=
  if (map.lookup key).isNone ∧ pruneFeatures = false then map ++ [(key, ({} : Info))] else map

/-- Update the feature with the given key, if there is one. -/
def updateKey (pruneFeatures : Bool) (s : ℕ) (delta : ℤ) (key : Bytes)
    (map : List (Bytes × Info)) : List (Bytes × Info) :=
  if key = [] then map
  else (addKey pruneFeatures key map).map fun e =>
    (e.1, if e.1 = key then e.2.update s delta else e.2)

/-- The update of one feature sequence. -/
def updateKeys (pruneFeatures : Bool) (s : ℕ) (keys : Bytes × Bytes) (map : List (Bytes × Info)) :
    List (Bytes × Info) :=
  if keys.1 = keys.2 then map
  else updateKey pruneFeatures s 1 keys.2 (updateKey pruneFeatures s (-1) keys.1 map)

/-- The update at one position. -/
def updatePosition (pruneFeatures : Bool) (s : ℕ) (scores : Scores) (position : Position) :
    Scores :=
  scores.mapIdx fun f map => updateKeys pruneFeatures s (position.getD f ([], [])) map

/-- The update of `gamma` at the end of an iteration. -/
def Info.finalize (size : ℕ) (info : Info) : Info :=
  { info with
    gamma := info.gamma + info.alpha * (size - info.lastGammaUpdate)
    lastGammaUpdate := 0 }

/-- The loop after the training, which settles all weights. -/
def finalize (size : ℕ) (scores : Scores) : Scores :=
  scores.map fun map => map.map fun e => (e.1, e.2.finalize size)

/-- The features of the gold sentences, which are the only ones if features are pruned. -/
def initialScores (pruneFeatures : Bool) (gold : List (List Bytes)) (sequences : ℕ) : Scores :=
  let empty : Scores := List.replicate sequences []
  if pruneFeatures then
    gold.foldl (fun scores keys => scores.mapIdx fun f map =>
      let key := keys.getD f []
      if key = [] then map else addKey false key map) empty
  else empty

section Train

variable (pruneFeatures : Bool) (size : ℕ) (outcome : ℕ → ℕ → Scores → List Position)

/-- The first sentences of iteration `i`. -/
def trainSentences (i : ℕ) : ℕ → Scores → Scores
  | 0, scores => scores
  | s + 1, scores =>
    let scores := trainSentences i s scores
    (outcome i s scores).foldl (updatePosition pruneFeatures s) scores

/-- The first iterations. -/
def trainIterations : ℕ → Scores → Scores
  | 0, scores => scores
  | i + 1, scores =>
    finalize size (trainSentences pruneFeatures outcome i size (trainIterations i scores))

end Train

/-! ### The features -/

/-- What is stored of a feature; a feature that is not there has the weight zero. -/
def infoOf (scores : Scores) (f : ℕ) (key : Bytes) : Info :=
  ((scores[f]?.bind fun map => map.lookup key)).getD {}

/-- The sum of the weights up to sentence `n`, as if it were brought up to date. -/
def Info.settled (n : ℕ) (info : Info) : ℤ :=
  info.gamma + info.alpha * (n - info.lastGammaUpdate)

/-- Updating settles the same amount. -/
theorem Info.settled_update (s : ℕ) (delta : ℤ) (info : Info) :
    (info.update s delta).settled s = info.settled s := by
  simp [Info.settled, Info.update]

/-- One sentence more adds the weight once more. -/
theorem Info.settled_succ (n : ℕ) (info : Info) :
    info.settled (n + 1) = info.settled n + info.alpha := by
  simp only [Info.settled]
  push_cast
  ring

/-- The finished weight is the settled one. -/
theorem Info.settled_finalize (size : ℕ) (info : Info) :
    (info.finalize size).settled 0 = info.settled size ∧ (info.finalize size).gamma =
      info.settled size := by
  simp [Info.settled, Info.finalize]

/-- What is stored of a feature in one map. -/
def infoIn (map : List (Bytes × Info)) (key : Bytes) : Info := (map.lookup key).getD {}

/-- Adding a key does not change the weights. -/
theorem infoIn_addKey (pruneFeatures : Bool) (key : Bytes) (map : List (Bytes × Info)) (k : Bytes) :
    infoIn (addKey pruneFeatures key map) k = infoIn map k := by
  rw [addKey]
  split
  · rw [infoIn, infoIn, List.lookup_append]
    cases map.lookup k with
    | some info => rfl
    | none =>
      rw [Option.none_or, List.lookup_cons, List.lookup_nil]
      cases k == key <;> rfl
  · rfl

/-- Updates during a sentence keep the sums up to it, also of features that are added. -/
theorem settled_updateKey (pruneFeatures : Bool) (s : ℕ) (delta : ℤ) (key : Bytes)
    (map : List (Bytes × Info)) (k : Bytes) :
    (infoIn (updateKey pruneFeatures s delta key map) k).settled s = (infoIn map k).settled s := by
  rw [updateKey]
  split
  · rfl
  · have hlookup := Associations.lookup_map_snd
      (fun k' info => if k' = key then Info.update s delta info else info)
      (addKey pruneFeatures key map) k
    rw [← infoIn_addKey pruneFeatures key map k, infoIn, infoIn, hlookup]
    cases (addKey pruneFeatures key map).lookup k with
    | none => rfl
    | some info =>
      simp only [Option.map_some, Option.getD_some]
      split
      · exact info.settled_update s delta
      · rfl

/-- Updating settles the weights of all keys. -/
theorem settled_updateKeys (pruneFeatures : Bool) (s : ℕ) (keys : Bytes × Bytes)
    (map : List (Bytes × Info)) (k : Bytes) :
    (infoIn (updateKeys pruneFeatures s keys map) k).settled s = (infoIn map k).settled s := by
  rw [updateKeys]
  split
  · rfl
  · rw [settled_updateKey, settled_updateKey]

/-- The weight of a key is the one in its map. -/
theorem infoOf_eq (scores : Scores) (f : ℕ) (key : Bytes) :
    infoOf scores f key = infoIn (scores.getD f []) key := by
  rw [infoOf, infoIn, List.getD_eq_getElem?_getD]
  cases scores[f]? <;> rfl

/-- The updates at one position keep the sums up to the sentence. -/
theorem settled_updatePosition (pruneFeatures : Bool) (s : ℕ) (scores : Scores)
    (position : Position) (f : ℕ) (key : Bytes) :
    (infoOf (updatePosition pruneFeatures s scores position) f key).settled s =
      (infoOf scores f key).settled s := by
  rw [infoOf_eq, infoOf_eq, updatePosition, List.getD_eq_getElem?_getD, List.getD_eq_getElem?_getD,
    List.getElem?_mapIdx]
  cases scores[f]? with
  | none => rfl
  | some map => exact settled_updateKeys pruneFeatures s _ map key

/-- The updates of a sentence keep the sums up to it. -/
theorem settled_sentence (pruneFeatures : Bool) (s : ℕ) (positions : List Position)
    (scores : Scores) (f : ℕ) (key : Bytes) :
    (infoOf (positions.foldl (updatePosition pruneFeatures s) scores) f key).settled s =
      (infoOf scores f key).settled s := by
  induction positions generalizing scores with
  | nil => rfl
  | cons position positions ih => rw [List.foldl_cons, ih, settled_updatePosition]

/-- The end of an iteration brings every sum up to date. -/
theorem infoOf_finalize (size : ℕ) (scores : Scores) (f : ℕ) (key : Bytes) :
    infoOf (finalize size scores) f key = (infoOf scores f key).finalize size := by
  rw [infoOf_eq, infoOf_eq, finalize, List.getD_eq_getElem?_getD, List.getD_eq_getElem?_getD,
    List.getElem?_map]
  have hempty : infoIn [] key = (infoIn [] key).finalize size := by
    simp [infoIn, Info.finalize]
  cases scores[f]? with
  | none => exact hempty
  | some map =>
    have hlookup := Associations.lookup_map_snd (fun _ info => Info.finalize size info) map key
    simp only [Option.map_some, Option.getD_some, infoIn]
    rw [hlookup]
    cases map.lookup key with
    | none => exact hempty
    | some info => rfl

/-! ### The averages -/

variable {pruneFeatures : Bool} {size : ℕ} {outcome : ℕ → ℕ → Scores → List Position}

/-- The sum so far grows by the weight after each sentence. -/
theorem settled_trainSentences (i n : ℕ) (scores : Scores) (f : ℕ) (key : Bytes) :
    (infoOf (trainSentences pruneFeatures outcome i n scores) f key).settled n =
      (infoOf scores f key).settled 0 + ∑ s ∈ Finset.range n,
        (infoOf (trainSentences pruneFeatures outcome i (s + 1) scores) f key).alpha := by
  induction n with
  | zero => simp [trainSentences]
  | succ n ih =>
    rw [Finset.sum_range_succ, ← add_assoc, ← ih, Info.settled_succ, add_left_inj, trainSentences]
    exact settled_sentence pruneFeatures n _ _ f key

/-- At the beginning there are no weights. -/
theorem infoOf_initialScores (pruneFeatures : Bool) (gold : List (List Bytes)) (sequences f : ℕ)
    (key : Bytes) : infoOf (initialScores pruneFeatures gold sequences) f key = {} := by
  have hempty : infoOf (List.replicate sequences []) f key = {} := by
    rw [infoOf_eq, List.getD_eq_getElem?_getD, List.getElem?_replicate]
    split <;> rfl
  rw [initialScores]
  split
  · rw [← hempty]
    generalize List.replicate sequences ([] : List (Bytes × Info)) = scores
    induction gold generalizing scores with
    | nil => rfl
    | cons keys gold ih =>
      rw [List.foldl_cons, ih, infoOf_eq, infoOf_eq, List.getD_eq_getElem?_getD,
        List.getD_eq_getElem?_getD, List.getElem?_mapIdx]
      cases scores[f]? with
      | none => rfl
      | some map =>
        simp only [Option.map_some, Option.getD_some]
        split
        · rfl
        · exact infoIn_addKey false _ map key
  · exact hempty

/-- After every iteration, the average of each feature is the sum of its weights right after
each of the sentences so far. -/
theorem gamma_trainIterations (pruneFeatures : Bool) (size : ℕ)
    (outcome : ℕ → ℕ → Scores → List Position) (gold : List (List Bytes)) (sequences : ℕ)
    (iterations f : ℕ) (key : Bytes) :
    (infoOf (trainIterations pruneFeatures size outcome iterations
        (initialScores pruneFeatures gold sequences)) f key).gamma =
      ∑ i ∈ Finset.range iterations, ∑ s ∈ Finset.range size,
        (infoOf (trainSentences pruneFeatures outcome i (s + 1)
          (trainIterations pruneFeatures size outcome i
            (initialScores pruneFeatures gold sequences))) f key).alpha := by
  have hsettled : ∀ i, (infoOf (trainIterations pruneFeatures size outcome i
      (initialScores pruneFeatures gold sequences)) f key).settled 0 =
      (infoOf (trainIterations pruneFeatures size outcome i
        (initialScores pruneFeatures gold sequences)) f key).gamma := by
    intro i
    cases i with
    | zero =>
      rw [trainIterations, infoOf_initialScores]
      rfl
    | succ i =>
      rw [trainIterations, infoOf_finalize, (Info.settled_finalize size _).1,
        (Info.settled_finalize size _).2]
  induction iterations with
  | zero =>
    rw [trainIterations, infoOf_initialScores]
    rfl
  | succ i ih =>
    rw [trainIterations, infoOf_finalize, (Info.settled_finalize size _).2, settled_trainSentences,
      hsettled, ih, Finset.sum_range_succ]

end UDPipe.Morphodita.PerceptronTrainer
