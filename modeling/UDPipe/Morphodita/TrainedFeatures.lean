import UDPipe.Library.Associations
import UDPipe.Morphodita.FeatureSequences
import Mathlib.Data.List.Forall2

/-!
# Features after training

The elementary maps number their strings from one on, and the numbers that occur in the
keys of a trained model are numbers of these maps.
-/

namespace UDPipe.Morphodita

/-! ### Elementary maps -/

namespace TrainingElementaryFeatureMap

/-- The strings have the numbers from one on, the empty string being first. -/
structure Numbered (map : TrainingElementaryFeatureMap) : Prop where
  ids : map.map Prod.snd = (List.range map.length).map (· + 1)
  keys : (map.map Prod.fst).Nodup
  first : map.head? = some ([], elementaryFeatureEmpty)

variable {map : TrainingElementaryFeatureMap}

/-- The empty map is numbered. -/
theorem numbered_empty : Numbered empty where
  ids := rfl
  keys := List.nodup_singleton _
  first := rfl

/-- A string has a number if they are in the map together. -/
theorem Numbered.lookup_iff (h : map.Numbered) {s : Bytes} {id : ℕ} :
    map.lookup s = some id ↔ (s, id) ∈ map := Associations.lookup_eq_some_iff h.keys

/-- The number of an element is its place. -/
theorem Numbered.getElem_snd (h : map.Numbered) {k : ℕ} (hk : k < map.length) :
    map[k].2 = k + 1 := by
  have hids := congrArg (fun l : List ℕ => l[k]?) h.ids
  simpa [hk] using hids

/-- The numbers are those of the entries. -/
theorem Numbered.bounds (h : map.Numbered) {s : Bytes} {id : ℕ} (hs : map.lookup s = some id) :
    1 ≤ id ∧ id ≤ map.length := by
  obtain ⟨k, hk, hget⟩ := List.getElem_of_mem (h.lookup_iff.mp hs)
  have hid := h.getElem_snd hk
  rw [hget] at hid
  simp only at hid
  omega

/-- The empty string has the first number. -/
theorem Numbered.lookup_nil (h : map.Numbered) : map.lookup [] = some elementaryFeatureEmpty :=
  h.lookup_iff.mpr (List.mem_of_head? h.first)

/-- Looking a string up keeps the numbers, and the string has a number after it. -/
theorem Numbered.value (h : map.Numbered) (s : Bytes) :
    (map.value s).2.Numbered ∧ map <+: (map.value s).2 ∧
      (map.value s).2.lookup s = some (map.value s).1 := by
  unfold TrainingElementaryFeatureMap.value
  cases hs : map.lookup s with
  | some id => exact ⟨h, List.prefix_rfl, hs⟩
  | none =>
    have hnew : ∀ e ∈ map, e.1 ≠ s := by
      intro e he heq
      have hsome := h.lookup_iff.mpr (he : (e.1, e.2) ∈ map)
      rw [heq, hs] at hsome
      cases hsome
    refine ⟨⟨?_, ?_, ?_⟩, List.prefix_append _ _, ?_⟩
    · rw [List.map_append, h.ids, List.length_append, List.length_singleton, List.range_succ,
        List.map_append]
      simp [Nat.add_comm]
    · rw [List.map_append, List.nodup_append]
      refine ⟨h.keys, List.nodup_singleton _, ?_⟩
      intro k hk t ht
      obtain ⟨e, he, rfl⟩ := List.mem_map.mp hk
      obtain rfl : t = s := by simpa using ht
      exact hnew e he
    · rw [List.head?_append, h.first, Option.some_or]
    · rw [List.lookup_append, hs]
      simp

/-- A string that was numbered later has a later number. -/
theorem Numbered.lt_of_prefix {map' : TrainingElementaryFeatureMap} (h : map'.Numbered)
    (hcontinues : map <+: map') {s : Bytes} {id : ℕ} (hs : map.lookup s = none)
    (hs' : map'.lookup s = some id) : map.length < id := by
  obtain ⟨more, rfl⟩ := hcontinues
  obtain ⟨k, hk, hget⟩ := List.getElem_of_mem (h.lookup_iff.mp hs')
  have hid := h.getElem_snd hk
  rw [hget] at hid
  by_contra hle
  have hlt : k < map.length := by
    simp only at hid
    omega
  rw [List.getElem_append_left hlt] at hget
  rw [List.lookup_eq_none_iff] at hs
  have hne := hs _ (List.getElem_mem hlt)
  rw [hget] at hne
  simp at hne

/-- Looking up several strings. -/
theorem Numbered.foldl_value {map : TrainingElementaryFeatureMap} (h : map.Numbered)
    (lookups : List (ℕ × Bytes)) :
    let map' := lookups.foldl (fun map l => (map.value l.2).2) map
    map'.Numbered ∧ map <+: map' ∧ ∀ l ∈ lookups, ∃ id, map'.lookup l.2 = some id := by
  induction lookups generalizing map with
  | nil => exact ⟨h, List.prefix_rfl, by simp⟩
  | cons l lookups ih =>
    obtain ⟨hvalue, hcontinues, hl⟩ := h.value l.2
    obtain ⟨hnumbered, hcontinues', hlookups⟩ := ih hvalue
    refine ⟨hnumbered, hcontinues.trans hcontinues', fun l' hl' => ?_⟩
    rcases List.mem_cons.mp hl' with rfl | hl'
    · obtain ⟨more, hmore⟩ := hcontinues'
      rw [List.foldl_cons, ← hmore]
      exact ⟨_, Associations.lookup_append_of_some hl⟩
    · exact hlookups l' hl'

/-- A known string keeps its number. -/
theorem value_of_lookup {s : Bytes} {id : ℕ} (h : map.lookup s = some id) :
    (map.value s).1 = id := by
  rw [value, h]

end TrainingElementaryFeatureMap

/-! ### Keys -/

/-- A key holds its numbers, unless one of them is unknown. -/
theorem makeKey_eq (values : List ℕ) (key : Bytes) :
    makeKey values key =
      if elementaryFeatureUnknown ∈ values then [] else key ++ values.flatMap Vli.encode := by
  induction values generalizing key with
  | nil => simp [makeKey]
  | cons value values ih =>
    rw [makeKey]
    by_cases hvalue : value = elementaryFeatureUnknown
    · simp [hvalue]
    · have hne : ¬ elementaryFeatureUnknown = value := fun h => hvalue h.symm
      rw [if_neg hvalue, ih]
      simp [hne]

section Elements

variable (e : ElementaryFeatures) {forms : List Bytes} {analyses : List (List TaggedLemma)}

/-- The values of a described element suit the map of its description, and have been looked
up. -/
theorem elementValue_ok {d : FeatureDescription} (hd : d ∈ e.descriptions)
    {element : SequenceElement} (htype : d.type = element.type)
    (hindex : d.index = element.elementaryIndex) (formIndex : ℕ) (tagsWindow : List ℤ)
    {dynamic : List FeatureValue} (hdynamic : e.IsDynamic forms analyses dynamic) :
    let v := elementValue (.constant elementaryFeatureEmpty) (.constant elementaryFeatureUnknown)
      (e.computeFeatures forms analyses) formIndex tagsWindow dynamic element
    v.Suits d.mapIndex ∧ v.Known (e.lookups forms analyses) := by
  have hconstant : ∀ value ≤ elementaryFeatureEmpty,
      (FeatureValue.constant value).Suits d.mapIndex ∧
        (FeatureValue.constant value).Known (e.lookups forms analyses) := by
    intro value hvalue
    exact ⟨⟨hvalue.trans_lt (by decide), fun _ => hvalue⟩, trivial⟩
  have hget : ∀ features : List FeatureValue, (∀ v ∈ features[element.elementaryIndex]?,
      v.Suits d.mapIndex ∧ v.Known (e.lookups forms analyses)) →
        let v := features.getD element.elementaryIndex (.constant elementaryFeatureUnknown)
        v.Suits d.mapIndex ∧ v.Known (e.lookups forms analyses) := by
    intro features hall
    rw [List.getD_eq_getElem?_getD]
    cases hv : features[element.elementaryIndex]? with
    | none => exact hconstant _ (by decide)
    | some v => exact hall v hv
  have hnil : ∀ v ∈ ([] : List FeatureValue)[element.elementaryIndex]?,
      v.Suits d.mapIndex ∧ v.Known (e.lookups forms analyses) := by simp
  unfold elementValue
  cases htype' : element.type with
  | perForm =>
    simp only
    split
    · exact hconstant _ le_rfl
    · apply hget
      rw [List.getD_eq_getElem?_getD]
      cases hf : (e.computeFeatures forms analyses).perForm[
          (formIndex + element.sequenceIndex).toNat]? with
      | none => exact hnil
      | some features =>
        rw [← hindex]
        exact e.perForm_ok forms analyses d hd (htype.trans htype') features
          (List.mem_of_getElem? hf)
  | perTag =>
    simp only
    split
    · exact hconstant _ le_rfl
    · apply hget
      rw [List.getD_eq_getElem?_getD, List.getD_eq_getElem?_getD]
      cases ht : (e.computeFeatures forms analyses).perTag[
          (formIndex + element.sequenceIndex).toNat]? with
      | none => exact hnil
      | some tags =>
        simp only [Option.getD_some]
        cases hf : tags[(tagsWindow.getD (-element.sequenceIndex).toNat (-1)).toNat]? with
        | none => exact hnil
        | some features =>
          rw [← hindex]
          exact e.perTag_ok forms analyses d hd (htype.trans htype') tags
            (List.mem_of_getElem? ht) features (List.mem_of_getElem? hf)
  | dynamic =>
    apply hget
    rw [← hindex]
    exact e.dynamic_ok forms analyses d hd (htype.trans htype') dynamic hdynamic

end Elements

/-! ### Trained features -/

namespace TrainingFeatures

/-- The number may stand for the element in a key. -/
def IsId (e : ElementaryFeatures) (maps : List TrainingElementaryFeatureMap)
    (element : SequenceElement) (id : ℕ) : Prop :=
  id ≠ elementaryFeatureUnknown ∧
    ∀ d ∈ e.descriptions, d.type = element.type → d.index = element.elementaryIndex →
      (d.mapIndex < 0 → id < 2 ^ 32) ∧
        (0 ≤ d.mapIndex → id ≤ (maps.getD d.mapIndex.toNat []).length)

/-- The key has numbers for the elements of the sequence. -/
def IsKey (e : ElementaryFeatures) (maps : List TrainingElementaryFeatureMap)
    (sequence : FeatureSequence) (key : Bytes) : Prop :=
  ∃ ids, key = ids.flatMap Vli.encode ∧ List.Forall₂ (IsId e maps) sequence.elements ids

/-- What holds of trained features. -/
structure Invariant (e : ElementaryFeatures) (sequences : List FeatureSequence)
    (f : TrainingFeatures) : Prop where
  maps_length : f.maps.length = e.mapsTotal
  numbered : ∀ map ∈ f.maps, map.Numbered
  sequences_eq : f.sequences = sequences
  scores_length : f.scores.length = sequences.length
  keys_nodup : ∀ map ∈ f.scores, (map.map Prod.fst).Nodup
  keys : ∀ (i : ℕ) sequence (map : List (Bytes × ℤ)), sequences[i]? = some sequence → f.scores[i]? = some map →
    ∀ element ∈ map, element.1 ≠ [] ∧ IsKey e f.maps sequence element.1

variable {e : ElementaryFeatures} {sequences : List FeatureSequence} {f : TrainingFeatures}

/-- Computing features looks the strings of each map up. -/
theorem getElem?_compute (f : TrainingFeatures) (e : ElementaryFeatures) (forms : List Bytes)
    (analyses : List (List TaggedLemma)) (m : ℕ) :
    (f.compute e forms analyses).maps[m]? = f.maps[m]?.map fun map =>
      ((e.lookups forms analyses).filter fun l => l.1 = m).foldl
        (fun map l => (TrainingElementaryFeatureMap.value l.2 map).2) map :=
  Buckets.foldl_modify (fun (l : ℕ × Bytes) map => (TrainingElementaryFeatureMap.value l.2 map).2)
    (e.lookups forms analyses) f.maps m

/-- The maps after computing features go on with the maps before. -/
theorem Invariant.compute_map (h : Invariant e sequences f) (forms : List Bytes)
    (analyses : List (List TaggedLemma)) {m : ℕ} {map : TrainingElementaryFeatureMap}
    (hm : f.maps[m]? = some map) :
    ∃ map', (f.compute e forms analyses).maps[m]? = some map' ∧ map'.Numbered ∧ map <+: map' ∧
      ∀ s, (m, s) ∈ e.lookups forms analyses → ∃ id, map'.lookup s = some id := by
  obtain ⟨hnumbered, hcontinues, hknown⟩ := (h.numbered map (List.mem_of_getElem? hm)).foldl_value
    ((e.lookups forms analyses).filter fun l => l.1 = m)
  refine ⟨_, by rw [getElem?_compute, hm, Option.map_some], hnumbered, hcontinues, fun s hs => ?_⟩
  exact hknown (m, s) (List.mem_filter.mpr ⟨hs, decide_eq_true rfl⟩)

/-- Computing features keeps the number of maps. -/
theorem length_compute (f : TrainingFeatures) (e : ElementaryFeatures) (forms : List Bytes)
    (analyses : List (List TaggedLemma)) :
    (f.compute e forms analyses).maps.length = f.maps.length := by
  have hlength : ∀ (lookups : List (ℕ × Bytes)) (maps : List TrainingElementaryFeatureMap),
      (lookups.foldl (fun maps l => maps.modify l.1 fun map =>
        (TrainingElementaryFeatureMap.value l.2 map).2) maps).length = maps.length := by
    intro lookups
    induction lookups with
    | nil => exact fun _ => rfl
    | cons l lookups ih => exact fun maps => (ih _).trans (List.length_modify _ _ _)
  exact hlength _ _

/-- At the beginning the invariant holds. -/
theorem invariant_init (e : ElementaryFeatures) (sequences : List FeatureSequence) :
    Invariant e sequences (init e sequences) where
  maps_length := List.length_replicate
  numbered map hmap := by
    obtain ⟨-, rfl⟩ := List.mem_replicate.mp hmap
    exact TrainingElementaryFeatureMap.numbered_empty
  sequences_eq := rfl
  scores_length := List.length_map _
  keys_nodup map hmap := by
    obtain ⟨_, _, rfl⟩ := List.mem_map.mp hmap
    exact List.nodup_nil
  keys i sequence map _ hmap element helement := by
    obtain ⟨_, _, rfl⟩ := List.mem_map.mp (List.mem_of_getElem? hmap)
    cases helement

/-- Longer maps keep the keys. -/
theorem IsKey.mono {maps maps' : List TrainingElementaryFeatureMap} {sequence : FeatureSequence}
    {key : Bytes} (hmaps : ∀ m, (maps.getD m []).length ≤ (maps'.getD m []).length)
    (h : IsKey e maps sequence key) : IsKey e maps' sequence key := by
  obtain ⟨ids, hkey, hids⟩ := h
  refine ⟨ids, hkey, hids.imp ?_⟩
  rintro element id ⟨hne, hid⟩
  refine ⟨hne, fun d hd htype hindex => ?_⟩
  obtain ⟨hnone, hmap⟩ := hid d hd htype hindex
  exact ⟨hnone, fun hnonneg => (hmap hnonneg).trans (hmaps _)⟩

/-- Computing features only adds strings. -/
theorem Invariant.length_le_compute (h : Invariant e sequences f) (forms : List Bytes)
    (analyses : List (List TaggedLemma)) (m : ℕ) :
    (f.maps.getD m []).length ≤ ((f.compute e forms analyses).maps.getD m []).length := by
  rw [List.getD_eq_getElem?_getD, List.getD_eq_getElem?_getD]
  cases hm : f.maps[m]? with
  | none => exact Nat.zero_le _
  | some map =>
    obtain ⟨map', hmap', -, hcontinues, -⟩ := h.compute_map forms analyses hm
    rw [hmap']
    exact hcontinues.length_le

/-- Computing features keeps the invariant. -/
theorem Invariant.compute (h : Invariant e sequences f) (forms : List Bytes)
    (analyses : List (List TaggedLemma)) : Invariant e sequences (f.compute e forms analyses) where
  maps_length := (length_compute f e forms analyses).trans h.maps_length
  numbered map' hmap' := by
    obtain ⟨m, hm⟩ := List.mem_iff_getElem?.mp hmap'
    cases hmap : f.maps[m]? with
    | none =>
      rw [getElem?_compute, hmap] at hm
      cases hm
    | some map =>
      obtain ⟨map'', hmap'', hnumbered, -⟩ := h.compute_map forms analyses hmap
      rw [hm] at hmap''
      obtain rfl := Option.some.inj hmap''
      exact hnumbered
  sequences_eq := h.sequences_eq
  scores_length := h.scores_length
  keys_nodup := h.keys_nodup
  keys i sequence map hsequence hmap element helement := by
    obtain ⟨hne, hkey⟩ := h.keys i sequence map hsequence hmap element helement
    exact ⟨hne, hkey.mono (h.length_le_compute forms analyses)⟩

/-- The number of a value that suits a described feature. -/
theorem Invariant.valueOf_compute (h : Invariant e sequences f) (forms : List Bytes)
    (analyses : List (List TaggedLemma)) {d : FeatureDescription} (hd : d ∈ e.descriptions)
    {m : ℕ} {s : Bytes} (hsuits : (FeatureValue.lookup m s).Suits d.mapIndex)
    (hknown : (FeatureValue.lookup m s).Known (e.lookups forms analyses)) :
    ∃ map map' : TrainingElementaryFeatureMap, ∃ id, f.maps[m]? = some map ∧
      map.Numbered ∧ map'.Numbered ∧ map <+: map' ∧
      (f.compute e forms analyses).maps.getD m [] = map' ∧ map'.lookup s = some id ∧
        (f.compute e forms analyses).valueOf (.lookup m s) = id := by
  have hlt : m < f.maps.length := by
    have hmap := e.mapIndex_lt d hd
    have hmaps := h.maps_length
    rw [hsuits] at hmap
    omega
  have hm := List.getElem?_eq_getElem hlt
  obtain ⟨map', hmap', hnumbered', hcontinues, hlookups⟩ := h.compute_map forms analyses hm
  obtain ⟨id, hid⟩ := hlookups s hknown
  have hget : (f.compute e forms analyses).maps.getD m [] = map' := by
    rw [List.getD_eq_getElem?_getD, hmap', Option.getD_some]
  refine ⟨_, map', id, hm, h.numbered _ (List.getElem_mem hlt), hnumbered', hcontinues, hget, hid, ?_⟩
  rw [valueOf, hget]
  exact TrainingElementaryFeatureMap.value_of_lookup hid

/-- The values of a described element are numbers for keys, unless they are unknown. -/
theorem Invariant.isId (h : Invariant e sequences f) (forms : List Bytes)
    (analyses : List (List TaggedLemma)) {call : ScoreCall FeatureValue}
    (hdynamic : e.IsDynamic forms analyses call.dynamic) (element : SequenceElement) {id : ℕ}
    (hid : id = (f.compute e forms analyses).valueOf (elementValue
      (.constant elementaryFeatureEmpty) (.constant elementaryFeatureUnknown)
        (e.computeFeatures forms analyses) call.formIndex call.tagsWindow call.dynamic element))
    (hne : id ≠ elementaryFeatureUnknown) :
    IsId e (f.compute e forms analyses).maps element id := by
  refine ⟨hne, fun d hd htype hindex => ?_⟩
  obtain ⟨hsuits, hknown⟩ := elementValue_ok e hd htype hindex call.formIndex call.tagsWindow
    hdynamic
  generalize elementValue (.constant elementaryFeatureEmpty) (.constant elementaryFeatureUnknown)
    (e.computeFeatures forms analyses) call.formIndex call.tagsWindow call.dynamic element = v
    at hid hsuits hknown
  cases v with
  | constant value =>
    obtain ⟨hlt, hempty⟩ := hsuits
    obtain rfl : id = value := hid
    refine ⟨fun _ => hlt, fun hnonneg => (hempty hnonneg).trans ?_⟩
    have hmap := e.mapIndex_lt d hd
    have hlength := (h.compute forms analyses).maps_length
    have hin : d.mapIndex.toNat < (f.compute e forms analyses).maps.length := by omega
    rw [List.getD_eq_getElem _ _ hin]
    have hnumbered := (h.compute forms analyses).numbered _ (List.getElem_mem hin)
    exact (hnumbered.bounds hnumbered.lookup_nil).2
  | lookup m s =>
    obtain ⟨map, map', id', -, -, hnumbered', -, hget, hlookup, hvalue⟩ :=
      h.valueOf_compute forms analyses hd hsuits hknown
    have hm : d.mapIndex = m := hsuits
    refine ⟨fun hneg => by omega, fun _ => ?_⟩
    rw [hm, Int.toNat_natCast, hget, hid, hvalue]
    exact (hnumbered'.bounds hlookup).2

/-- Setting a weight keeps the keys different. -/
theorem lookup_set {map : TrainingFeatureSequenceMap} {key : Bytes} {gamma : ℤ}
    (hkeys : (map.map Prod.fst).Nodup) :
    ((TrainingFeatureSequenceMap.set key gamma map).map Prod.fst).Nodup := by
  rw [TrainingFeatureSequenceMap.set, List.map_append, List.nodup_append]
  refine ⟨hkeys.sublist (List.filter_sublist.map _), List.nodup_singleton _, ?_⟩
  intro k hk t ht
  obtain ⟨element, helement, rfl⟩ := List.mem_map.mp hk
  obtain rfl : t = key := by simpa using ht
  simpa using (List.mem_filter.mp helement).2

/-- Setting a weight keeps the invariant. -/
theorem Invariant.weigh (h : Invariant e sequences f) {i : ℕ} {sequence : FeatureSequence}
    (hsequence : sequences[i]? = some sequence) {key : Bytes} (hne : key ≠ [])
    (hkey : IsKey e f.maps sequence key) (gamma : ℤ) :
    Invariant e sequences (f.weigh i key gamma) where
  maps_length := h.maps_length
  numbered := h.numbered
  sequences_eq := h.sequences_eq
  scores_length := (List.length_modify _ _ _).trans h.scores_length
  keys_nodup map hmap := by
    obtain ⟨j, hj⟩ := List.mem_iff_getElem?.mp hmap
    rw [TrainingFeatures.weigh, List.getElem?_modify] at hj
    cases hold : f.scores[j]? with
    | none =>
      rw [hold] at hj
      cases hj
    | some old =>
      have hnodup := h.keys_nodup old (List.mem_of_getElem? hold)
      rw [hold] at hj
      obtain rfl := Option.some.inj hj
      split
      · exact lookup_set hnodup
      · exact hnodup
  keys j sequence' map hsequence' hmap element helement := by
    rw [TrainingFeatures.weigh, List.getElem?_modify] at hmap
    cases hold : f.scores[j]? with
    | none =>
      rw [hold] at hmap
      cases hmap
    | some old =>
      have hkeys := h.keys j sequence' old hsequence' hold
      rw [hold] at hmap
      obtain rfl := Option.some.inj hmap
      split at helement
      · rename_i hij
        subst hij
        obtain rfl : sequence = sequence' := Option.some.inj (hsequence.symm.trans hsequence')
        rcases List.mem_append.mp helement with helement | helement
        · exact hkeys element (List.mem_filter.mp helement).1
        · obtain rfl := List.mem_singleton.mp helement
          exact ⟨hne, hkey⟩
      · exact hkeys element helement

/-- Training keeps the invariant. -/
theorem Trained.invariant (h : Trained e sequences f) : Invariant e sequences f := by
  induction h with
  | init => exact invariant_init e sequences
  | compute _ forms analyses ih => exact ih.compute forms analyses
  | weigh _ forms analyses call hdynamic hsequence hkey hne gamma ih =>
    apply (ih.compute forms analyses).weigh hsequence hne
    rw [keyOf, makeKey_eq] at hkey
    split at hkey
    · exact absurd hkey hne
    · rename_i hknown
      refine ⟨_, hkey, ?_⟩
      rw [List.forall₂_map_right_iff]
      apply List.forall₂_same.mpr
      intro element helement
      apply ih.isId forms analyses hdynamic element rfl
      intro hunknown
      exact hknown (List.mem_map.mpr ⟨element, helement, hunknown⟩)

end TrainingFeatures

end UDPipe.Morphodita
