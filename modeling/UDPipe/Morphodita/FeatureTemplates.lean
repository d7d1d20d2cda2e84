import UDPipe.Morphodita.FeatureSequences
import UDPipe.ParseInt
import UDPipe.Streams

/-!
# Feature templates

`parse` reads the feature sequences from lines of elements with offsets. It sets for
each sequence how far back its features depend on the tags, and sorts the sequences by
it, the farthest first.
-/

namespace UDPipe.Morphodita

/-- The enumeration `elementary_feature_range`. -/
inductive FeatureRange
  | onlyCurrent | anyOffset
  deriving DecidableEq, Repr

/-- The struct `elementary_feature_description` with its name and range. -/
structure NamedFeatureDescription extends FeatureDescription where
  name : Bytes
  range : FeatureRange
  deriving DecidableEq, Repr

/-- The separator of the elements of a sequence. -/
abbrev comma : Byte := 44

/-- How far back the tags matter after an element is added. -/
def dependantRangeWith (windowSize : ℕ) (type : FeatureType) (sequenceIndex range : ℤ) : ℤ :=
  match type with
  | .dynamic => max range (windowSize + 1)
  | .perTag => max range (1 - sequenceIndex)
  | .perForm => range

/-- Parse one element and add it to the sequence; the flag tells whether there is a
feature without an offset. -/
def parseElement (descriptions : List NamedFeatureDescription) (windowSize : ℕ)
    (state : FeatureSequence × Bool) (token : Bytes) : Except Bytes (FeatureSequence × Bool) :=
  match split space token with
  | [name, offset] =>
    match descriptions.find? (·.name == name) with
    | none => .error (bytes "Unknown elementary feature '" ++ name ++
        bytes "' used in feature sequence '" ++ token ++ bytes "'!")
    | some desc =>
      (parseInt (offset.takeWhile (· != 0)) (bytes "sequence_index")).bind fun sequenceIndex =>
        let index := intToString sequenceIndex
        if desc.type = .dynamic ∧ sequenceIndex ≠ 0 then
          .error (bytes "Nonzero sequence index " ++ index ++
            bytes " of dynamic elementary feature '" ++ desc.name ++ bytes "'!")
        else if desc.type = .perTag ∧ (sequenceIndex > 0 ∨ sequenceIndex ≤ -windowSize) then
          .error (bytes "Wrong sequence index " ++ index ++
            bytes " of per-tag elementary feature '" ++ desc.name ++ bytes "'!")
        else if desc.range = .onlyCurrent ∧ sequenceIndex ≠ 0 then
          .error (bytes "Nonzero sequence index " ++ index ++ bytes " of elementary feature '" ++
            desc.name ++ bytes "' requiring zero offset!")
        else
          .ok (⟨state.1.elements ++ [⟨desc.type, desc.index, sequenceIndex⟩],
              dependantRangeWith windowSize desc.type sequenceIndex state.1.dependantRange⟩,
            state.2 || desc.range == .onlyCurrent)
  | _ => .error (bytes "Cannot parse feature sequence element '" ++ token ++ bytes "'!")

/-- Parse the line of one sequence. -/
def parseSequence (descriptions : List NamedFeatureDescription) (windowSize : ℕ) (line : Bytes) :
    Except Bytes FeatureSequence :=
  let tokens := split comma line
  if tokens = [] then .error (bytes "Feature sequence cannot be empty!")
  else
    (tokens.foldlM (parseElement descriptions windowSize) (⟨[], 1⟩, false)).bind fun state =>
      if state.2 ∧ state.1.dependantRange > 1 then
        .error (bytes "Feature sequence '" ++ line ++ bytes "' contains both a non-local " ++
          bytes "elementary feature and exclusively-local elementary feature!")
      else .ok state.1

/-- The first description whose name an earlier one has. -/
def firstRepeated : List NamedFeatureDescription → List Bytes → Option NamedFeatureDescription
  | [], _ => none
  | d :: descriptions, names =>
    if names.contains d.name then some d else firstRepeated descriptions (d.name :: names)

/-- The method `parse`, of features without sequences. -/
def parse (descriptions : List NamedFeatureDescription) (windowSize : ℕ) (text : Bytes) :
    Except Bytes (List FeatureSequence) :=
  match firstRepeated descriptions [] with
  | some d => .error (bytes "Repeated elementary feature with name " ++ d.name ++ bytes "!")
  | none =>
    ((textLines text).mapM (parseSequence descriptions windowSize)).map fun sequences =>
      sequences.mergeSort fun a b => a.dependantRange ≥ b.dependantRange

/-! ### What is parsed -/

/-- The features of a sequence do not depend on tags beyond its range. -/
structure FeatureSequence.Ranged (windowSize : ℕ) (s : FeatureSequence) : Prop where
  pos : 1 ≤ s.dependantRange
  perTag : ∀ e ∈ s.elements, e.type = .perTag → 1 - e.sequenceIndex ≤ s.dependantRange
  dynamic : ∀ e ∈ s.elements, e.type = .dynamic → windowSize < s.dependantRange

/-- The range only grows. -/
theorem le_dependantRangeWith (windowSize : ℕ) (type : FeatureType) (sequenceIndex range : ℤ) :
    range ≤ dependantRangeWith windowSize type sequenceIndex range := by
  cases type <;> simp [dependantRangeWith]

/-- An element is added at its range. -/
theorem ranged_of_parseElement {descriptions : List NamedFeatureDescription} {windowSize : ℕ}
    {state state' : FeatureSequence × Bool} {token : Bytes} (h : state.1.Ranged windowSize)
    (hparse : parseElement descriptions windowSize state token = .ok state') :
    state'.1.Ranged windowSize := by
  unfold parseElement at hparse
  split at hparse
  swap
  · cases hparse
  split at hparse
  · cases hparse
  rename_i desc hdesc
  cases hindex : parseInt _ (bytes "sequence_index") with
  | error message =>
    rw [hindex] at hparse
    cases hparse
  | ok sequenceIndex =>
    rw [hindex] at hparse
    simp only [Except.bind] at hparse
    split_ifs at hparse
    cases hparse
    have hle := le_dependantRangeWith windowSize desc.type sequenceIndex state.1.dependantRange
    refine ⟨h.pos.trans hle, fun e he htype => ?_, fun e he htype => ?_⟩
    · rcases List.mem_append.mp he with he | he
      · exact (h.perTag e he htype).trans hle
      · obtain rfl := List.mem_singleton.mp he
        have htype : desc.type = .perTag := htype
        simp [dependantRangeWith, htype]
    · rcases List.mem_append.mp he with he | he
      · exact (h.dynamic e he htype).trans_le hle
      · obtain rfl := List.mem_singleton.mp he
        have htype : desc.type = .dynamic := htype
        simp [dependantRangeWith, htype]

/-- The elements of a line are added one after another. -/
theorem ranged_of_foldlM {descriptions : List NamedFeatureDescription} {windowSize : ℕ}
    (tokens : List Bytes) {state state' : FeatureSequence × Bool} (h : state.1.Ranged windowSize)
    (hparse : tokens.foldlM (parseElement descriptions windowSize) state = .ok state') :
    state'.1.Ranged windowSize := by
  induction tokens generalizing state with
  | nil =>
    cases hparse
    exact h
  | cons token tokens ih =>
    rw [List.foldlM_cons] at hparse
    cases helement : parseElement descriptions windowSize state token with
    | error message =>
      rw [helement] at hparse
      cases hparse
    | ok next =>
      rw [helement] at hparse
      exact ih (ranged_of_parseElement h helement) hparse

/-- A parsed sequence has the range that its elements need. -/
theorem ranged_of_parseSequence {descriptions : List NamedFeatureDescription} {windowSize : ℕ}
    {line : Bytes} {sequence : FeatureSequence}
    (hparse : parseSequence descriptions windowSize line = .ok sequence) :
    sequence.Ranged windowSize := by
  simp only [parseSequence] at hparse
  split at hparse
  · cases hparse
  cases hfold : (split comma line).foldlM (parseElement descriptions windowSize)
      (⟨[], 1⟩, false) with
  | error message =>
    rw [hfold] at hparse
    cases hparse
  | ok state =>
    rw [hfold] at hparse
    simp only [Except.bind] at hparse
    split_ifs at hparse
    cases hparse
    exact ranged_of_foldlM _ ⟨le_rfl, by simp, by simp⟩ hfold

/-- What holds of every result holds of all of them. -/
private theorem forall_of_mapM {α β : Type} {f : α → Except Bytes β} {p : β → Prop}
    (hf : ∀ a b, f a = .ok b → p b) (l : List α) {bs : List β} (h : l.mapM f = .ok bs) :
    ∀ b ∈ bs, p b := by
  induction l generalizing bs with
  | nil =>
    cases h
    simp
  | cons a l ih =>
    rw [List.mapM_cons] at h
    cases ha : f a with
    | error message =>
      rw [ha] at h
      cases h
    | ok b =>
      rw [ha] at h
      cases hl : l.mapM f with
      | error message =>
        simp only [hl] at h
        cases h
      | ok bs' =>
        simp only [hl] at h
        cases h
        exact List.forall_mem_cons.mpr ⟨hf a b ha, ih hl⟩

/-- The parsed sequences have their ranges and are sorted by them. -/
theorem ranged_of_parse {descriptions : List NamedFeatureDescription} {windowSize : ℕ}
    {text : Bytes} {sequences : List FeatureSequence}
    (hparse : parse descriptions windowSize text = .ok sequences) :
    (∀ s ∈ sequences, s.Ranged windowSize) ∧
      sequences.Pairwise fun a b => b.dependantRange ≤ a.dependantRange := by
  unfold parse at hparse
  split at hparse
  · cases hparse
  cases hlines : (textLines text).mapM (parseSequence descriptions windowSize) with
  | error message =>
    rw [hlines] at hparse
    cases hparse
  | ok parsed =>
    rw [hlines] at hparse
    cases hparse
    refine ⟨fun s hs => ?_, ?_⟩
    · rw [List.mem_mergeSort] at hs
      exact forall_of_mapM (fun _ _ => ranged_of_parseSequence) _ hlines s hs
    · refine (List.pairwise_mergeSort ?_ ?_ parsed).imp fun h => by simpa using h
      · intro a b c hab hbc
        simp only [ge_iff_le, decide_eq_true_eq] at hab hbc ⊢
        exact hbc.trans hab
      · intro a b
        simpa using le_total _ _

end UDPipe.Morphodita
