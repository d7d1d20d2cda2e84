import UDPipe.Morphodita.ElementaryConllu
import UDPipe.Morphodita.PersistentLookup
import UDPipe.Morphodita.Renumbering
import UDPipe.Morphodita.TrainedFeatures

/-!
# The optimizer keeps the scores

A value of an optimized feature is the new number of the value of the trained feature, so
a key has a weight after optimizing exactly when it had one before. Caches on both sides
hold scores of keys, and so the scores stay the same over any calls.
-/

namespace UDPipe.Morphodita

open FeatureOptimizer TrainingFeatures

/-! ### Caches -/

/-- Two caches of a sequence, each with the score of its own key, which is the same. -/
def Agree (score score' : Bytes → ℤ) (cache cache' : CacheElement) : Prop :=
  cache.Holds score ∧ cache'.Holds score' ∧ cache.score = cache'.score

/-- The loops over the sequences give the same scores when the keys have the same scores. -/
theorem scoreLoop_agree {valueOf valueOf' : SequenceElement → ℕ} (tagsUnchanged : ℤ)
    {sequences : List FeatureSequence} {scores scores' : List (Bytes → ℤ)}
    {caches caches' : List CacheElement}
    (hscores : ∀ (i : ℕ) sequence score score', sequences[i]? = some sequence →
      scores[i]? = some score → scores'[i]? = some score' →
        keyScore score (sequence.elements.map valueOf) =
          keyScore score' (sequence.elements.map valueOf'))
    (hlength : scores.length = sequences.length) (hlength' : scores'.length = sequences.length)
    (hcaches : List.Forall₂ (fun (s : (Bytes → ℤ) × (Bytes → ℤ)) (c : CacheElement × CacheElement) =>
      Agree s.1 s.2 c.1 c.2) (scores.zip scores') (caches.zip caches'))
    (hsize : caches.length = sequences.length) (hsize' : caches'.length = sequences.length)
    (result : ℤ) :
    let r := scoreLoop valueOf tagsUnchanged (sequences.zip scores) caches result
    let r' := scoreLoop valueOf' tagsUnchanged (sequences.zip scores') caches' result
    r.2 = r'.2 ∧ r.1.length = sequences.length ∧ r'.1.length = sequences.length ∧
      List.Forall₂ (fun (s : (Bytes → ℤ) × (Bytes → ℤ)) (c : CacheElement × CacheElement) =>
        Agree s.1 s.2 c.1 c.2) (scores.zip scores') (r.1.zip r'.1) := by
  induction sequences generalizing scores scores' caches caches' result with
  | nil =>
    obtain rfl := List.length_eq_zero_iff.mp hsize
    obtain rfl := List.length_eq_zero_iff.mp hsize'
    obtain rfl := List.length_eq_zero_iff.mp hlength
    exact ⟨rfl, rfl, rfl, .nil⟩
  | cons sequence sequences ih =>
    obtain ⟨score, scores, rfl⟩ := List.exists_cons_of_length_eq_add_one hlength
    obtain ⟨score', scores', rfl⟩ := List.exists_cons_of_length_eq_add_one hlength'
    obtain ⟨cache, caches, rfl⟩ := List.exists_cons_of_length_eq_add_one hsize
    obtain ⟨cache', caches', rfl⟩ := List.exists_cons_of_length_eq_add_one hsize'
    simp only [List.zip_cons_cons, List.forall₂_cons] at hcaches
    obtain ⟨⟨hholds, hholds', hsame⟩, hrest⟩ := hcaches
    simp only [List.zip_cons_cons, scoreLoop]
    split
    · exact ⟨rfl, hsize, hsize', .cons ⟨hholds, hholds', hsame⟩ hrest⟩
    · obtain ⟨hupdate, hvalue⟩ := cache.update_score hholds (sequence.elements.map valueOf)
      obtain ⟨hupdate', hvalue'⟩ := cache'.update_score hholds' (sequence.elements.map valueOf')
      have hkey := hscores 0 sequence score score' rfl rfl rfl
      have hscore := hvalue.trans (hkey.trans hvalue'.symm)
      rw [hsame, hscore]
      obtain ⟨hresult, hl, hl', hagree⟩ := ih
        (fun i s t t' hs ht ht' => hscores (i + 1) s t t' hs ht ht') (by simpa using hlength)
        (by simpa using hlength') hrest (by simpa using hsize) (by simpa using hsize')
        (result - cache'.score +
          (cache'.update score' (makeKey (sequence.elements.map valueOf') [])).score)
      refine ⟨hresult, by simp [hl], by simp [hl'], ?_⟩
      rw [List.zip_cons_cons]
      exact .cons ⟨hupdate, hupdate', hscore⟩ hagree

/-- Values of features are computed before or after their numbers. -/
theorem elementValue_map {α β : Type} (g : α → β) (empty other : α) (values : FeatureValues α)
    (call : ScoreCall α) (element : SequenceElement) :
    elementValue (g empty) (g other) (values.map g) call.formIndex call.tagsWindow
      (call.dynamic.map g) element =
        g (elementValue empty other values call.formIndex call.tagsWindow call.dynamic element) := by
  have hget : ∀ (l : List α) (k : ℕ), (l.map g).getD k (g other) = g (l.getD k other) := by
    intro l k
    rw [List.getD_eq_getElem?_getD, List.getD_eq_getElem?_getD, List.getElem?_map,
      Option.getD_map]
  have hgetList : ∀ (l : List (List α)) (k : ℕ),
      (l.map (List.map g)).getD k [] = (l.getD k []).map g := by
    intro l k
    rw [List.getD_eq_getElem?_getD, List.getD_eq_getElem?_getD, List.getElem?_map]
    cases l[k]? <;> rfl
  have hgetTags : ∀ (l : List (List (List α))) (k : ℕ),
      (l.map (List.map (List.map g))).getD k [] = (l.getD k []).map (List.map g) := by
    intro l k
    rw [List.getD_eq_getElem?_getD, List.getD_eq_getElem?_getD, List.getElem?_map]
    cases l[k]? <;> rfl
  unfold elementValue FeatureValues.map
  cases element.type with
  | perForm =>
    simp only [List.length_map, hgetList, hget]
    split <;> rfl
  | perTag =>
    simp only [hgetTags, hgetList, hget]
    split <;> rfl
  | dynamic => exact hget _ _

/-- Runs give the same scores when the keys of all calls have the same scores. -/
theorem run_agree {f f' : FeatureSequences} (hsequences : f'.sequences = f.sequences)
    (hlength : f.scores.length = f.sequences.length)
    (hlength' : f'.scores.length = f.sequences.length) {values values' : FeatureValues ℕ}
    {calls : List (ScoreCall ℕ × ScoreCall ℕ)}
    (hcalls : ∀ call ∈ calls, call.1.tagsUnchanged = call.2.tagsUnchanged ∧
      ∀ (i : ℕ) sequence score score', f.sequences[i]? = some sequence →
        f.scores[i]? = some score → f'.scores[i]? = some score' →
          keyScore score (sequence.elements.map (elementValue elementaryFeatureEmpty
            elementaryFeatureUnknown values call.1.formIndex call.1.tagsWindow call.1.dynamic)) =
          keyScore score' (sequence.elements.map (elementValue elementaryFeatureEmpty
            elementaryFeatureUnknown values' call.2.formIndex call.2.tagsWindow call.2.dynamic))) :
    f.run (f.initializeSentence values) (calls.map Prod.fst) =
      f'.run (f'.initializeSentence values') (calls.map Prod.snd) := by
  suffices h : ∀ c c' : FeatureCache, c.values = values → c'.values = values' →
      c.score = c'.score → c.caches.length = f.sequences.length →
      c'.caches.length = f.sequences.length →
      List.Forall₂ (fun (s : (Bytes → ℤ) × (Bytes → ℤ)) (c : CacheElement × CacheElement) =>
        Agree s.1 s.2 c.1 c.2) (f.scores.zip f'.scores) (c.caches.zip c'.caches) →
      f.run c (calls.map Prod.fst) = f'.run c' (calls.map Prod.snd) by
    apply h (f.initializeSentence values) (f'.initializeSentence values') rfl rfl rfl
      (List.length_map _) ((List.length_map _).trans (congrArg List.length hsequences))
    rw [List.forall₂_iff_get]
    simp only [FeatureSequences.initializeSentence, List.length_zip, List.length_map, hsequences,
      hlength, hlength', min_self, true_and]
    intro k hk hk'
    simp [Agree, CacheElement.Holds]
  induction calls with
  | nil => exact fun _ _ _ _ _ _ _ _ => rfl
  | cons call calls ih =>
    intro c c' hvalues hvalues' hscore hsize hsize' hagree
    obtain ⟨⟨hunchanged, hkeys⟩, hcalls⟩ := List.forall_mem_cons.mp hcalls
    have hloop := scoreLoop_agree call.1.tagsUnchanged hkeys hlength hlength' hagree hsize hsize'
      c.score
    obtain ⟨hresult, hl, hl', hagree'⟩ := hloop
    simp only [List.map_cons, FeatureSequences.run, FeatureSequences.score, hvalues, hvalues',
      ← hscore, ← hunchanged, hsequences]
    rw [hresult]
    congr 1
    exact ih hcalls _ _ rfl rfl rfl hl hl' hagree'

/-! ### Keys of sequences -/

/-- Every element of the sequence has a description. -/
def Described (e : ElementaryFeatures) (sequence : FeatureSequence) : Prop :=
  ∀ element ∈ sequence.elements,
    ∃ d ∈ e.descriptions, d.type = element.type ∧ d.index = element.elementaryIndex

/-- The element belongs to the map. -/
def InMap (e : ElementaryFeatures) (element : SequenceElement) (mapIndex : ℤ) : Prop :=
  ∃ d ∈ e.descriptions, d.type = element.type ∧ d.index = element.elementaryIndex ∧
    d.mapIndex = mapIndex

/-- The elements of a described sequence are in their maps. -/
theorem forall₂_mapIndices {e : ElementaryFeatures} {sequence : FeatureSequence}
    (h : Described e sequence) :
    List.Forall₂ (InMap e) sequence.elements (mapIndices e.descriptions sequence) := by
  obtain ⟨elements, range⟩ := sequence
  induction elements with
  | nil => exact .nil
  | cons element elements ih =>
    obtain ⟨hfirst, hrest⟩ := List.forall_mem_cons.mp h
    obtain ⟨d, hd, htype, hindex⟩ := hfirst
    have hfilter : (e.descriptions.filter fun d =>
        element.type = d.type ∧ element.elementaryIndex = d.index) = [d] := by
      have hunique := e.unique
      have hmem : d ∈ e.descriptions.filter fun d =>
          element.type = d.type ∧ element.elementaryIndex = d.index :=
        List.mem_filter.mpr ⟨hd, by simp [htype, hindex]⟩
      obtain ⟨l, hl⟩ : ∃ l, l = e.descriptions.filter fun d =>
        element.type = d.type ∧ element.elementaryIndex = d.index := ⟨_, rfl⟩
      have hnodup : l.Nodup := hl ▸ (List.Nodup.of_map _ hunique).filter _
      have hall : ∀ d' ∈ l, d' = d := by
        intro d' hd'
        rw [hl] at hd'
        obtain ⟨hmem', hmatch⟩ := List.mem_filter.mp hd'
        obtain ⟨htype', hindex'⟩ := of_decide_eq_true hmatch
        apply List.inj_on_of_nodup_map hunique hmem' hd
        rw [← htype', ← hindex', htype, hindex]
      rw [← hl] at hmem ⊢
      match l, hnodup, hall, hmem with
      | [d'], _, hall, _ => rw [hall d' List.mem_cons_self]
      | d' :: d'' :: l, hnodup, hall, _ =>
        rw [hall d' List.mem_cons_self, hall d'' (by simp)] at hnodup
        simp at hnodup
    have hunfold : mapIndices e.descriptions ⟨element :: elements, range⟩ =
        d.mapIndex :: mapIndices e.descriptions ⟨elements, range⟩ := by
      rw [mapIndices, List.flatMap_cons, hfilter]
      rfl
    rw [hunfold]
    exact .cons ⟨d, hd, htype, hindex, rfl⟩ (ih hrest)

/-! ### Persistent values -/

/-- The entries of the strings that keep a number. -/
theorem mem_mappedIds {ids : List ℕ} {map : TrainingElementaryFeatureMap} {s : Bytes} {id : ℕ} :
    (s, id) ∈ mappedIds ids map ↔
      ∃ old, (s, old) ∈ map ∧ ids.getD old 0 ≠ 0 ∧ ids.getD old 0 = id := by
  rw [mappedIds, List.mem_filterMap]
  constructor
  · rintro ⟨⟨s', old⟩, hmem, heq⟩
    simp only [Option.ite_none_right_eq_some, Option.some.injEq, Prod.mk.injEq] at heq
    obtain ⟨⟨-, hne⟩, rfl, rfl⟩ := heq
    exact ⟨old, hmem, hne, rfl⟩
  · rintro ⟨old, hmem, hne, rfl⟩
    have hlt : old < ids.length := by
      by_contra hge
      exact hne (List.getD_eq_default _ _ (Nat.not_lt.mp hge))
    exact ⟨(s, old), hmem, if_pos ⟨hlt, hne⟩⟩

/-- The mapped numbers have different strings. -/
theorem nodup_mappedIds (ids : List ℕ) {map : TrainingElementaryFeatureMap}
    (hkeys : (map.map Prod.fst).Nodup) : ((mappedIds ids map).map Prod.fst).Nodup := by
  refine List.Nodup.sublist ?_ hkeys
  clear hkeys
  induction map with
  | nil => exact .slnil
  | cons element map ih =>
    obtain ⟨feature, id⟩ := element
    by_cases hid : id < ids.length ∧ ids.getD id elementaryFeatureUnknown ≠ elementaryFeatureUnknown
    · have hcons : mappedIds ids ((feature, id) :: map) =
          (feature, ids.getD id elementaryFeatureUnknown) :: mappedIds ids map :=
        List.filterMap_cons_some (if_pos hid)
      rw [hcons]
      exact ih.cons_cons feature
    · have hcons : mappedIds ids ((feature, id) :: map) = mappedIds ids map :=
        List.filterMap_cons_none (if_neg hid)
      rw [hcons]
      exact ih.cons feature

/-- The value of a string is its new number. -/
theorem elementaryValue_ofUnordered {count ids : List ℕ} (hids : Renumbering count ids)
    {map : TrainingElementaryFeatureMap} (hmap : map.Numbered)
    (hcount : count.length ≤ map.length + 1)
    (hbound : map.length < 2 ^ 32) (s : Bytes) :
    (PersistentUnorderedMap.ofUnordered (mappedIds ids map) (fun size => size)
      (toBytes 4)).elementaryValue s =
        match map.lookup s with
        | some id => ids.getD id 0
        | none => 0 := by
  have hne : ∀ e ∈ mappedIds ids map, toBytes 4 e.2 ≠ [] := fun e _ h => by
    have hlength := congrArg List.length h
    simp at hlength
  have hrep := PersistentUnorderedMap.represents_ofUnordered (fun size => size)
    (nodup_mappedIds ids hmap.keys) hne
  have hsize : ∀ e ∈ (mappedIds ids map).map fun e => (e.1, toBytes 4 e.2), e.2.length = 4 := by
    intro e he
    obtain ⟨f, -, rfl⟩ := List.mem_map.mp he
    exact length_toBytes 4 f.2
  have hfirst := (hmap.bounds hmap.lookup_nil).2
  have hlt : ∀ id, ids.getD id 0 < 256 ^ 4 := by
    intro id
    have hlt := hids.lt id
    have hlength := hids.length
    have hone : elementaryFeatureEmpty = 1 := rfl
    omega
  have hmissing : (∀ e ∈ mappedIds ids map, e.1 ≠ s) →
      (PersistentUnorderedMap.ofUnordered (mappedIds ids map) (fun size => size)
        (toBytes 4)).elementaryValue s = 0 := by
    intro hnot
    rw [PersistentUnorderedMap.elementaryValue, hrep.typed_not_mem 4 hsize s]
    intro e he
    obtain ⟨f, hf, rfl⟩ := List.mem_map.mp he
    exact hnot f hf
  cases hs : map.lookup s with
  | none =>
    apply hmissing
    rintro ⟨t, id⟩ he rfl
    obtain ⟨old, hold, -⟩ := mem_mappedIds.mp he
    rw [hmap.lookup_iff.mpr hold] at hs
    cases hs
  | some id =>
    simp only
    by_cases hzero : ids.getD id 0 = 0
    · rw [hzero]
      apply hmissing
      rintro ⟨t, id'⟩ he rfl
      obtain ⟨old, hold, hne', -⟩ := mem_mappedIds.mp he
      rw [hmap.lookup_iff.mpr hold] at hs
      exact hne' (Option.some.inj hs ▸ hzero)
    · have hmem : (s, ids.getD id 0) ∈ mappedIds ids map :=
        mem_mappedIds.mpr ⟨id, hmap.lookup_iff.mp hs, hzero, rfl⟩
      obtain ⟨more, hmore⟩ := hrep.typed_mem 4 hsize _
        (List.mem_map_of_mem (f := fun e : Bytes × ℕ => (e.1, toBytes 4 e.2)) hmem)
      rw [PersistentUnorderedMap.elementaryValue, hmore]
      exact unalignedLoad_append (hlt id) more

/-- The bytes of a weight give the weight. -/
theorem toSigned_encodeGamma {gamma : ℤ} (hlow : -2 ^ 31 ≤ gamma) (hhigh : gamma < 2 ^ 31)
    (more : Bytes) : toSigned (unalignedLoad 4 (encodeGamma gamma ++ more)) = gamma := by
  have hlt : (gamma % 2 ^ 32).toNat < 256 ^ 4 := by omega
  rw [encodeGamma, unalignedLoad_append hlt, toSigned]
  split <;> omega

/-- The score of a key is its weight. -/
theorem sequenceScore_ofUnordered {map : TrainingFeatureSequenceMap}
    (hkeys : (map.map Prod.fst).Nodup) (hgamma : ∀ e ∈ map, -2 ^ 31 ≤ e.2 ∧ e.2 < 2 ^ 31)
    (key : Bytes) :
    (PersistentUnorderedMap.ofUnordered map (fun size => size) encodeGamma).sequenceScore key =
      map.score key := by
  have hne : ∀ e ∈ map, encodeGamma e.2 ≠ [] := fun e _ h => by
    have hlength := congrArg List.length h
    simp [encodeGamma] at hlength
  have hrep := PersistentUnorderedMap.represents_ofUnordered (fun size => size) hkeys hne
  have hsize : ∀ e ∈ map.map fun e => (e.1, encodeGamma e.2), e.2.length = 4 := by
    intro e he
    obtain ⟨f, -, rfl⟩ := List.mem_map.mp he
    exact length_toBytes 4 _
  rw [TrainingFeatureSequenceMap.score, PersistentUnorderedMap.sequenceScore]
  cases hkey : map.lookup key with
  | none =>
    rw [hrep.typed_not_mem 4 hsize key]
    · rfl
    · intro e he heq
      obtain ⟨f, hf, rfl⟩ := List.mem_map.mp he
      have hsome := (Associations.lookup_eq_some_iff hkeys).mpr (hf : (f.1, f.2) ∈ map)
      rw [heq, hkey] at hsome
      cases hsome
  | some gamma =>
    have hmem := (Associations.lookup_eq_some_iff hkeys).mp hkey
    obtain ⟨more, hmore⟩ := hrep.typed_mem 4 hsize _
      (List.mem_map_of_mem (f := fun e : Bytes × ℤ => (e.1, encodeGamma e.2)) hmem)
    obtain ⟨hlow, hhigh⟩ := hgamma _ hmem
    rw [hmore]
    exact toSigned_encodeGamma hlow hhigh more

/-- Elements with different keys are all kept. -/
theorem foldl_emplace {map : TrainingFeatureSequenceMap} (hkeys : (map.map Prod.fst).Nodup) :
    map.foldl emplace [] = map := by
  suffices h : ∀ done : TrainingFeatureSequenceMap, ((done ++ map).map Prod.fst).Nodup →
      map.foldl emplace done = done ++ map from h [] hkeys
  clear hkeys
  induction map with
  | nil => intro done _; rw [List.append_nil]; rfl
  | cons element map ih =>
    intro done hkeys
    have hnew : (done.any fun e => e.1 = element.1) = false := by
      rw [List.any_eq_false]
      intro e he
      rw [List.map_append, List.nodup_append] at hkeys
      have hne := hkeys.2.2 e.1 (List.mem_map_of_mem he) element.1 (by simp)
      simpa using hne
    rw [List.foldl_cons, emplace, hnew]
    simp only [Bool.false_eq_true, if_false]
    rw [ih, List.append_assoc, List.singleton_append]
    rwa [List.append_assoc, List.singleton_append]

/-! ### Values of both sides -/

section Both

variable {e : ElementaryFeatures} {sequences : List FeatureSequence}
  {sort : List CountInfo → List CountInfo} {f : TrainingFeatures}

/-- The numbers of a key. -/
theorem exists_ids {maps : List TrainingElementaryFeatureMap}
    (hbound : ∀ m, (maps.getD m []).length < 2 ^ 32) {sequence : FeatureSequence}
    (hdescribed : Described e sequence) {key : Bytes} (hkey : IsKey e maps sequence key) :
    ∃ ids, key = ids.flatMap Vli.encode ∧ elementaryIds key = ids ∧ (∀ id ∈ ids, id < 2 ^ 32) ∧
      elementaryFeatureUnknown ∉ ids ∧ List.Forall₂ (fun (m : ℤ) id =>
        0 ≤ m → id ≤ (maps.getD m.toNat []).length) (mapIndices e.descriptions sequence) ids := by
  obtain ⟨ids, rfl, hids⟩ := hkey
  have hmaps := forall₂_mapIndices hdescribed
  have hlt : ∀ id ∈ ids, id < 2 ^ 32 := by
    intro id hid
    obtain ⟨k, hk, rfl⟩ := List.getElem_of_mem hid
    obtain ⟨hlength, hget⟩ := List.forall₂_iff_get.mp hids
    obtain ⟨-, hid⟩ := hget k (hlength ▸ hk) hk
    obtain ⟨d, hd, htype, hindex⟩ := hdescribed _ (List.getElem_mem (hlength ▸ hk))
    obtain ⟨hnone, hmap⟩ := hid d hd htype hindex
    have hmaps := hbound d.mapIndex.toNat
    rcases lt_or_ge d.mapIndex 0 with hneg | hnonneg
    · exact hnone hneg
    · have hle := hmap hnonneg
      exact lt_of_le_of_lt hle hmaps
  refine ⟨ids, rfl, Vli.decodeAll_encode hlt (Vli.length_le_encode ids), hlt, ?_, ?_⟩
  · intro hzero
    obtain ⟨k, hk, hget⟩ := List.getElem_of_mem hzero
    obtain ⟨hlength, hids⟩ := List.forall₂_iff_get.mp hids
    exact (hids k (hlength ▸ hk) hk).1 hget
  · obtain ⟨hlength, hids⟩ := List.forall₂_iff_get.mp hids
    obtain ⟨hlength', hmaps⟩ := List.forall₂_iff_get.mp hmaps
    rw [List.forall₂_iff_get]
    refine ⟨by omega, fun k hk hk' hnonneg => ?_⟩
    obtain ⟨d, hd, htype, hindex, hmap⟩ := hmaps k (by omega) hk
    obtain ⟨-, hid⟩ := hids k (by omega) hk'
    rw [← hmap] at hnonneg ⊢
    exact (hid d hd htype hindex).2 hnonneg

/-- What is known of the features and of the numbers they get. -/
structure Setting (e : ElementaryFeatures) (sequences : List FeatureSequence)
    (sort : List CountInfo → List CountInfo) (f : TrainingFeatures) : Prop where
  invariant : Invariant e sequences f
  sort_perm : ∀ l, (sort l).Perm l
  described : ∀ sequence ∈ sequences, Described e sequence
  bound : ∀ m, (f.maps.getD m []).length < 2 ^ 32

/-- The occurrences are those of the elements with weights. -/
theorem mem_occurrences (h : Setting e sequences sort f) {m : ℤ} {id : ℕ} :
    (m, id) ∈ occurrences e.descriptions f ↔ ∃ (i : ℕ) (sequence : FeatureSequence)
      (map : List (Bytes × ℤ)), sequences[i]? = some sequence ∧ f.scores[i]? = some map ∧
        ∃ element ∈ map, element.2 ≠ 0 ∧
          (m, id) ∈ (mapIndices e.descriptions sequence).zip (elementaryIds element.1) := by
  rw [occurrences, List.mem_flatMap]
  constructor
  · rintro ⟨⟨sequence, map⟩, hzip, hmem⟩
    obtain ⟨i, hi⟩ := List.mem_iff_getElem?.mp hzip
    rw [List.getElem?_zip_eq_some] at hi
    obtain ⟨element, helement, hids⟩ := List.mem_flatMap.mp hmem
    obtain ⟨hmap, hgamma⟩ := List.mem_filter.mp helement
    rw [h.invariant.sequences_eq] at hi
    exact ⟨i, sequence, map, hi.1, hi.2, element, hmap, by simpa using hgamma, hids⟩
  · rintro ⟨i, sequence, map, hsequence, hmap, element, helement, hgamma, hids⟩
    refine ⟨(sequence, map), List.mem_iff_getElem?.mpr ⟨i, ?_⟩, List.mem_flatMap.mpr
      ⟨element, List.mem_filter.mpr ⟨helement, by simpa using hgamma⟩, hids⟩⟩
    rw [List.getElem?_zip_eq_some, h.invariant.sequences_eq]
    exact ⟨hsequence, hmap⟩

/-- The numbers of each map get new ones, and those that occur keep one. -/
theorem Setting.idsMap (h : Setting e sequences sort f) {m : ℕ} (hm : m < f.maps.length) :
    ∃ count ids, (idsMaps sort e.descriptions f)[m]? = some ids ∧ Renumbering count ids ∧
      count.length ≤ (f.maps.getD m []).length + 1 ∧
      ∀ id, ((m : ℤ), id) ∈ occurrences e.descriptions f → count.getD id 0 ≠ 0 := by
  have hcounts := getElem?_foldl_countId (occurrences e.descriptions f) (f.maps.map fun _ => []) m
  rw [List.getElem?_map, List.getElem?_eq_getElem hm, Option.map_some, Option.map_some] at hcounts
  have hids : ∀ id ∈ ((occurrences e.descriptions f).filter fun o : ℤ × ℕ =>
      o.1 = (m : ℤ)).map Prod.snd, id < (f.maps.getD m []).length + 1 := by
    intro id hid
    obtain ⟨⟨m', id'⟩, ho, rfl⟩ := List.mem_map.mp hid
    obtain ⟨hmem, hm'⟩ := List.mem_filter.mp ho
    obtain rfl : m' = m := by simpa using hm'
    obtain ⟨i, sequence, map, hsequence, hmap, element, helement, -, hzip⟩ :=
      (mem_occurrences h).mp hmem
    obtain ⟨-, hkey⟩ := h.invariant.keys i sequence map hsequence hmap element helement
    obtain ⟨ids, -, helementary, -, -, hle⟩ := exists_ids h.bound
      (h.described sequence (List.mem_of_getElem? hsequence)) hkey
    rw [helementary] at hzip
    have hid := (List.forall₂_iff_zip.mp hle).2 hzip (by omega)
    rw [Int.toNat_natCast] at hid
    omega
  obtain ⟨hlength, -, hmem⟩ := foldl_bump _ [] (Nat.zero_le _) hids
  refine ⟨_, _, ?_, renumbering h.sort_perm _, hlength, fun id hid => hmem id ?_⟩
  · rw [idsMaps, List.getElem?_map, hcounts, Option.map_some]
  · exact List.mem_map.mpr ⟨(m, id), List.mem_filter.mpr ⟨hid, by simp⟩, rfl⟩

/-- The value after optimizing is the new number of the value before. -/
theorem Setting.valueOf_optimize (h : Setting e sequences sort f) (forms : List Bytes)
    (analyses : List (List TaggedLemma)) {d : FeatureDescription} (hd : d ∈ e.descriptions)
    {v : FeatureValue} (hsuits : v.Suits d.mapIndex) (hknown : v.Known (e.lookups forms analyses)) :
    (optimize sort e.descriptions f).valueOf v =
      remap (idsMaps sort e.descriptions f) d.mapIndex ((f.compute e forms analyses).valueOf v) := by
  have hmapIndex := e.mapIndex_lt d hd
  have hlength := h.invariant.maps_length
  cases v with
  | constant value =>
    unfold remap
    split
    · rfl
    · obtain ⟨count, ids, hids, hrenumbering, -⟩ := h.idsMap (m := d.mapIndex.toNat) (by omega)
      have hempty := hsuits.2 (by omega)
      have hget : (idsMaps sort e.descriptions f).getD d.mapIndex.toNat [] = ids := by
        rw [List.getD_eq_getElem?_getD, hids, Option.getD_some]
      rw [hget]
      have hvalue : value = elementaryFeatureUnknown ∨ value = elementaryFeatureEmpty := by
        have hone : elementaryFeatureEmpty = 1 := rfl
        have hzero : elementaryFeatureUnknown = 0 := rfl
        omega
      rcases hvalue with rfl | rfl
      · exact hrenumbering.unknown.symm
      · exact hrenumbering.empty.symm
  | lookup m s =>
    obtain ⟨map, map', id, hmap, hnumbered, hnumbered', hcontinues, -, hid, hvalue⟩ :=
      h.invariant.valueOf_compute forms analyses hd hsuits hknown
    have hm : d.mapIndex = m := hsuits
    obtain ⟨hlt, -⟩ := List.getElem?_eq_some_iff.mp hmap
    obtain ⟨count, ids, hids, hrenumbering, hcount, -⟩ := h.idsMap hlt
    have hbound := h.bound m
    rw [List.getD_eq_getElem?_getD, hmap, Option.getD_some] at hcount hbound
    have hget : (idsMaps sort e.descriptions f).getD m [] = ids := by
      rw [List.getD_eq_getElem?_getD, hids, Option.getD_some]
    have hpersistent : (optimize sort e.descriptions f).maps[m]? =
        some (.ofUnordered (mappedIds ids map) (fun size => size) (toBytes 4)) := by
      rw [optimize, List.getElem?_zipWith, hids, hmap]
    rw [PersistentFeatures.valueOf, hpersistent, Option.map_some, Option.getD_some,
      elementaryValue_ofUnordered hrenumbering hnumbered hcount hbound s, hvalue, remap, hm,
      if_neg (by omega), Int.toNat_natCast, hget]
    cases hs : map.lookup s with
    | some old =>
      obtain ⟨more, rfl⟩ := hcontinues
      rw [Associations.lookup_append_of_some hs] at hid
      rw [Option.some.inj hid]
    | none =>
      have hnew := hnumbered'.lt_of_prefix hcontinues hs hid
      have hfirst := (hnumbered.bounds hnumbered.lookup_nil).2
      have hsize := hrenumbering.length
      have hone : elementaryFeatureEmpty = 1 := rfl
      exact (List.getD_eq_default _ _ (by omega)).symm

/-- What the new numbers of the elements of a map have in common. -/
structure Remaps (e : ElementaryFeatures) (f : TrainingFeatures) (idsMaps : List (List ℕ))
    (m : ℤ) : Prop where
  unknown : remap idsMaps m elementaryFeatureUnknown = elementaryFeatureUnknown
  injective : ∀ id id', remap idsMaps m id ≠ elementaryFeatureUnknown →
    remap idsMaps m id = remap idsMaps m id' → id = id'
  kept : ∀ id, (m, id) ∈ occurrences e.descriptions f → id ≠ elementaryFeatureUnknown →
    remap idsMaps m id ≠ elementaryFeatureUnknown
  lt : ∀ id < 2 ^ 32, remap idsMaps m id < 2 ^ 32

/-- The new numbers of a map are remapped ones. -/
theorem Setting.remaps (h : Setting e sequences sort f) {d : FeatureDescription}
    (hd : d ∈ e.descriptions) : Remaps e f (idsMaps sort e.descriptions f) d.mapIndex := by
  have hmapIndex := e.mapIndex_lt d hd
  have hlength := h.invariant.maps_length
  rcases lt_or_ge d.mapIndex 0 with hneg | hnonneg
  · have hremap : ∀ id, remap (idsMaps sort e.descriptions f) d.mapIndex id = id := fun id =>
      if_pos hneg
    refine ⟨hremap _, fun id id' _ heq => ?_, fun id _ hne => ?_, fun id hlt => ?_⟩
    · rwa [hremap, hremap] at heq
    · rwa [hremap]
    · rwa [hremap]
  · have hm : d.mapIndex.toNat < f.maps.length := by omega
    obtain ⟨count, ids, hids, hrenumbering, hcount, hkept⟩ := h.idsMap hm
    have hget : (idsMaps sort e.descriptions f).getD d.mapIndex.toNat [] = ids := by
      rw [List.getD_eq_getElem?_getD, hids, Option.getD_some]
    have hremap : ∀ id, remap (idsMaps sort e.descriptions f) d.mapIndex id = ids.getD id 0 := by
      intro id
      rw [remap, if_neg (by omega), hget]
    have hnumbered := h.invariant.numbered _ (List.getElem_mem hm)
    have hfirst := (hnumbered.bounds hnumbered.lookup_nil).2
    have hbound := h.bound d.mapIndex.toNat
    rw [List.getD_eq_getElem _ _ hm] at hcount hbound
    have hone : elementaryFeatureEmpty = 1 := rfl
    refine ⟨(hremap _).trans hrenumbering.unknown, fun id id' => ?_, fun id hmem hne => ?_,
      fun id _ => ?_⟩
    · rw [hremap, hremap]
      exact hrenumbering.injective id id'
    · rw [hremap]
      rw [← Int.toNat_of_nonneg hnonneg] at hmem
      rcases Nat.lt_or_ge id 2 with hlt | hge
      · have hzero : elementaryFeatureUnknown = 0 := rfl
        obtain rfl : id = elementaryFeatureEmpty := by omega
        rw [hrenumbering.empty]
        decide
      · exact hrenumbering.kept id hge (hkept id hmem)
    · rw [hremap]
      have hlt := hrenumbering.lt id
      have hsize := hrenumbering.length
      omega

/-- Numbers are told apart by their new ones. -/
theorem zipWith_remap_injective {idsMaps : List (List ℕ)} {mapIndices : List ℤ}
    (hmaps : ∀ m ∈ mapIndices, Remaps e f idsMaps m) {s t : List ℕ}
    (hs : s.length = mapIndices.length) (ht : t.length = mapIndices.length)
    (hne : elementaryFeatureUnknown ∉ List.zipWith (remap idsMaps) mapIndices s)
    (heq : List.zipWith (remap idsMaps) mapIndices s = List.zipWith (remap idsMaps) mapIndices t) :
    s = t := by
  induction mapIndices generalizing s t with
  | nil =>
    obtain rfl := List.length_eq_zero_iff.mp hs
    obtain rfl := List.length_eq_zero_iff.mp ht
    rfl
  | cons m mapIndices ih =>
    obtain ⟨a, s, rfl⟩ := List.exists_cons_of_length_eq_add_one hs
    obtain ⟨b, t, rfl⟩ := List.exists_cons_of_length_eq_add_one ht
    obtain ⟨hm, hmaps⟩ := List.forall_mem_cons.mp hmaps
    simp only [List.zipWith_cons_cons, List.cons.injEq, List.mem_cons, not_or] at hne heq
    rw [hm.injective a b (Ne.symm hne.1) heq.1,
      ih hmaps (by simpa using hs) (by simpa using ht) hne.2 heq.2]

/-- The numbers of keys with a weight are kept. -/
theorem zipWith_remap_known {idsMaps : List (List ℕ)} {mapIndices : List ℤ}
    (hmaps : ∀ m ∈ mapIndices, Remaps e f idsMaps m) {ids : List ℕ}
    (hids : elementaryFeatureUnknown ∉ ids)
    (hmem : ∀ p ∈ mapIndices.zip ids, p ∈ occurrences e.descriptions f) :
    elementaryFeatureUnknown ∉ List.zipWith (remap idsMaps) mapIndices ids := by
  rw [← List.map_uncurry_zip_eq_zipWith]
  intro hzero
  obtain ⟨⟨m, id⟩, hzip, heq⟩ := List.mem_map.mp hzero
  obtain ⟨hm, hid⟩ := List.of_mem_zip hzip
  exact (hmaps m hm).kept id (hmem _ hzip) (fun h => hids (h ▸ hid)) heq

/-- An unknown element stays unknown. -/
theorem zipWith_remap_unknown {idsMaps : List (List ℕ)} {mapIndices : List ℤ}
    (hmaps : ∀ m ∈ mapIndices, Remaps e f idsMaps m) {ids : List ℕ}
    (hlength : ids.length = mapIndices.length) (hids : elementaryFeatureUnknown ∈ ids) :
    elementaryFeatureUnknown ∈ List.zipWith (remap idsMaps) mapIndices ids := by
  obtain ⟨k, hk, hget⟩ := List.getElem_of_mem hids
  have hk' : k < (List.zipWith (remap idsMaps) mapIndices ids).length := by
    rw [List.length_zipWith]
    omega
  have hm : k < mapIndices.length := by omega
  have hvalue := (hmaps _ (List.getElem_mem hm)).unknown
  rw [← hvalue]
  have hmem := List.getElem_mem hk'
  rwa [List.getElem_zipWith, hget] at hmem

/-- New numbers are short. -/
theorem zipWith_remap_lt {idsMaps : List (List ℕ)} {mapIndices : List ℤ}
    (hmaps : ∀ m ∈ mapIndices, Remaps e f idsMaps m) {ids : List ℕ}
    (hids : ∀ id ∈ ids, id < 2 ^ 32) :
    ∀ id ∈ List.zipWith (remap idsMaps) mapIndices ids, id < 2 ^ 32 := by
  rw [← List.map_uncurry_zip_eq_zipWith]
  intro id hid
  obtain ⟨⟨m, old⟩, hzip, rfl⟩ := List.mem_map.mp hid
  obtain ⟨hm, hold⟩ := List.of_mem_zip hzip
  exact (hmaps m hm).lt old (hids old hold)

/-- The elements of a sequence have remapped numbers. -/
theorem Setting.remaps_mapIndices (h : Setting e sequences sort f) {sequence : FeatureSequence}
    (hdescribed : Described e sequence) :
    ∀ m ∈ mapIndices e.descriptions sequence, Remaps e f (idsMaps sort e.descriptions f) m := by
  intro m hm
  obtain ⟨k, hk, rfl⟩ := List.getElem_of_mem hm
  obtain ⟨hlength, hget⟩ := List.forall₂_iff_get.mp (forall₂_mapIndices hdescribed)
  obtain ⟨d, hd, -, -, hmapIndex⟩ := hget k (by rw [hlength]; exact hk) hk
  have hremaps := h.remaps hd
  rw [hmapIndex] at hremaps
  exact hremaps

/-- The weights with their new keys: nothing is lost. -/
theorem Setting.updatedMap_eq (h : Setting e sequences sort f) {i : ℕ} {sequence : FeatureSequence}
    (hsequence : sequences[i]? = some sequence) {map : TrainingFeatureSequenceMap}
    (hmap : f.scores[i]? = some map) :
    let ids := idsMaps sort e.descriptions f
    let mapIndices := mapIndices e.descriptions sequence
    updatedMap ids mapIndices map = ((map.filter fun element => element.2 ≠ 0).map fun element =>
        (remapKey ids mapIndices element.1, element.2)) ∧
      ((updatedMap ids mapIndices map).map Prod.fst).Nodup := by
  intro ids mapIndices
  have hdescribed := h.described sequence (List.mem_of_getElem? hsequence)
  have hmaps := h.remaps_mapIndices hdescribed
  have hnodup : (((map.filter fun element => element.2 ≠ 0).map fun element =>
      (remapKey ids mapIndices element.1, element.2)).map Prod.fst).Nodup := by
    rw [List.map_map]
    have hfilter : ((map.filter fun element => element.2 ≠ 0).map Prod.fst).Nodup :=
      (h.invariant.keys_nodup map (List.mem_of_getElem? hmap)).sublist
        (List.filter_sublist.map _)
    have hfun : (Prod.fst ∘ fun element : Bytes × ℤ =>
        (remapKey ids mapIndices element.1, element.2)) = remapKey ids mapIndices ∘ Prod.fst := rfl
    rw [hfun, ← List.map_map]
    apply hfilter.map_on
    intro key hkey key' hkey' heq
    obtain ⟨element, helement, rfl⟩ := List.mem_map.mp hkey
    obtain ⟨element', helement', rfl⟩ := List.mem_map.mp hkey'
    obtain ⟨hmem, hgamma⟩ := List.mem_filter.mp helement
    obtain ⟨hmem', -⟩ := List.mem_filter.mp helement'
    obtain ⟨s, hs, hids, hlt, hunknown, hlength⟩ := exists_ids h.bound hdescribed
      (h.invariant.keys i sequence map hsequence hmap element hmem).2
    obtain ⟨t, ht, hids', hlt', -, hlength'⟩ := exists_ids h.bound hdescribed
      (h.invariant.keys i sequence map hsequence hmap element' hmem').2
    simp only [remapKey, hids, hids'] at heq
    have hsame :=
      Vli.encode_injective (zipWith_remap_lt hmaps hlt) (zipWith_remap_lt hmaps hlt') heq
    have hknown := zipWith_remap_known hmaps hunknown fun p hp => (mem_occurrences h).mpr
      ⟨i, sequence, map, hsequence, hmap, element, hmem, by simpa using hgamma, by rwa [hids]⟩
    rw [hs, ht, zipWith_remap_injective hmaps hlength.length_eq.symm hlength'.length_eq.symm hknown
      hsame]
  have hfold : updatedMap ids mapIndices map = (map.filter fun element => element.2 ≠ 0).map
      fun element => (remapKey ids mapIndices element.1, element.2) := by
    rw [updatedMap, ← foldl_emplace hnodup, List.foldl_map]
  exact ⟨hfold, hfold ▸ hnodup⟩

/-- Scores are the same when the lookups give the same weights other than zero. -/
theorem score_congr {map map' : TrainingFeatureSequenceMap} {key key' : Bytes}
    (h : ∀ gamma ≠ 0, map.lookup key = some gamma ↔ map'.lookup key' = some gamma) :
    map.score key = map'.score key' := by
  rw [TrainingFeatureSequenceMap.score, TrainingFeatureSequenceMap.score]
  by_cases hzero : (map.lookup key).getD 0 = 0
  · rw [hzero]
    by_contra hne
    cases hkey : map'.lookup key' with
    | none => exact hne (by rw [hkey]; rfl)
    | some gamma =>
      have hgamma : gamma ≠ 0 := by
        rintro rfl
        exact hne (by rw [hkey]; rfl)
      rw [(h gamma hgamma).mpr hkey] at hzero
      exact hgamma hzero
  · cases hkey : map.lookup key with
    | none => exact absurd (by rw [hkey]; rfl) hzero
    | some gamma =>
      have hgamma : gamma ≠ 0 := by
        rintro rfl
        exact hzero (by rw [hkey]; rfl)
      rw [(h gamma hgamma).mp hkey]

/-- The key of a sequence has the same score after optimizing. -/
theorem Setting.keyScore_eq (h : Setting e sequences sort f) {i : ℕ} {sequence : FeatureSequence}
    (hsequence : sequences[i]? = some sequence) {map : TrainingFeatureSequenceMap}
    (hmap : f.scores[i]? = some map) (hgamma : ∀ el ∈ map, -2 ^ 31 ≤ el.2 ∧ el.2 < 2 ^ 31)
    {values : List ℕ} (hlength : values.length = (mapIndices e.descriptions sequence).length)
    (hvalues : elementaryFeatureUnknown ∉ values → ∀ id ∈ values, id < 2 ^ 32) :
    let ids := idsMaps sort e.descriptions f
    let mapIndices := mapIndices e.descriptions sequence
    keyScore map.score values =
      keyScore (PersistentUnorderedMap.ofUnordered (updatedMap ids mapIndices map)
        (fun size => size) encodeGamma).sequenceScore
          (List.zipWith (remap ids) mapIndices values) := by
  intro ids mapIndices
  have hdescribed := h.described sequence (List.mem_of_getElem? hsequence)
  have hmaps := h.remaps_mapIndices hdescribed
  obtain ⟨hupdated, hnodup⟩ := h.updatedMap_eq hsequence hmap
  have hgamma' : ∀ el ∈ updatedMap ids mapIndices map, -2 ^ 31 ≤ el.2 ∧ el.2 < 2 ^ 31 := by
    intro el hel
    rw [hupdated] at hel
    obtain ⟨old, hold, rfl⟩ := List.mem_map.mp hel
    exact hgamma old (List.mem_filter.mp hold).1
  obtain ⟨news, hnews⟩ : ∃ news, news = List.zipWith (remap ids) mapIndices values := ⟨_, rfl⟩
  have hnewsLength : news.length = values.length := by
    rw [hnews, List.length_zipWith, hlength, min_self]
  have hunknown := zipWith_remap_unknown hmaps hlength
  rw [← hnews] at hunknown ⊢
  simp only [keyScore, makeKey_eq, List.nil_append]
  by_cases hzero : elementaryFeatureUnknown ∈ values
  · simp [hzero, hunknown hzero]
  rw [if_neg hzero]
  have hlt := hvalues hzero
  have hnewsLt := hnews ▸ zipWith_remap_lt hmaps hlt
  -- the elements with a weight and the key of the values
  have hsame : ∀ el ∈ map, el.2 ≠ 0 → remapKey ids mapIndices el.1 = news.flatMap Vli.encode →
      el.1 = values.flatMap Vli.encode ∧ elementaryFeatureUnknown ∉ news := by
    intro el hel hne hkey
    obtain ⟨s, hs, hids, hslt, hsunknown, hslength⟩ := exists_ids h.bound hdescribed
      (h.invariant.keys i sequence map hsequence hmap el hel).2
    have hknown := zipWith_remap_known hmaps hsunknown fun p hp => (mem_occurrences h).mpr
      ⟨i, sequence, map, hsequence, hmap, el, hel, hne, by rwa [hids]⟩
    rw [remapKey, hids] at hkey
    have heq := Vli.encode_injective (zipWith_remap_lt hmaps hslt) hnewsLt hkey
    rw [hnews] at heq
    rw [hs, zipWith_remap_injective hmaps hslength.length_eq.symm hlength hknown heq, hnews, ← heq]
    exact ⟨rfl, hknown⟩
  have hkeys := h.invariant.keys_nodup map (List.mem_of_getElem? hmap)
  have hlookup : ∀ gamma, gamma ≠ 0 → ((updatedMap ids mapIndices map).lookup
      (news.flatMap Vli.encode) = some gamma ↔
        map.lookup (values.flatMap Vli.encode) = some gamma) := by
    intro gamma hne
    rw [Associations.lookup_eq_some_iff hnodup, Associations.lookup_eq_some_iff hkeys, hupdated,
      List.mem_map]
    constructor
    · rintro ⟨el, hel, heq⟩
      obtain ⟨hkey, rfl⟩ := Prod.ext_iff.mp heq
      obtain ⟨hmem, -⟩ := List.mem_filter.mp hel
      rw [← (hsame el hmem hne hkey).1]
      exact hmem
    · intro hmem
      obtain ⟨s, hs, hids, hslt, -, -⟩ := exists_ids h.bound hdescribed
        (h.invariant.keys i sequence map hsequence hmap _ hmem).2
      refine ⟨_, List.mem_filter.mpr ⟨hmem, by simpa using hne⟩, ?_⟩
      rw [remapKey, hids, ← Vli.encode_injective hlt hslt hs, hnews]
  have hempty : values ≠ [] → values.flatMap Vli.encode ≠ [] := by
    intro hne hnil
    have hle := Vli.length_le_encode values
    rw [hnil] at hle
    exact hne (List.length_eq_zero_iff.mp (Nat.le_zero.mp hle))
  have hempty' : news ≠ [] → news.flatMap Vli.encode ≠ [] := by
    intro hne hnil
    have hle := Vli.length_le_encode news
    rw [hnil] at hle
    exact hne (List.length_eq_zero_iff.mp (Nat.le_zero.mp hle))
  by_cases hnil : values = []
  · obtain rfl : news = [] := List.length_eq_zero_iff.mp (by rw [hnewsLength, hnil]; rfl)
    simp [hnil]
  have hnil' : news ≠ [] := fun hnews => hnil
    (List.length_eq_zero_iff.mp (by rw [← hnewsLength, hnews]; rfl))
  rw [if_neg (hempty hnil)]
  by_cases hnewsZero : elementaryFeatureUnknown ∈ news
  · rw [if_pos hnewsZero, if_pos rfl]
    by_contra hne
    cases hkey : map.lookup (values.flatMap Vli.encode) with
    | none => exact hne (by rw [TrainingFeatureSequenceMap.score, hkey]; rfl)
    | some gamma =>
      have hgamma0 : gamma ≠ 0 := by
        rintro rfl
        exact hne (by rw [TrainingFeatureSequenceMap.score, hkey]; rfl)
      have hmem := (hlookup gamma hgamma0).mpr hkey
      rw [Associations.lookup_eq_some_iff hnodup, hupdated, List.mem_map] at hmem
      obtain ⟨el, hel, heq⟩ := hmem
      obtain ⟨hmem, hnonzero⟩ := List.mem_filter.mp hel
      exact (hsame el hmem (by simpa using hnonzero) (Prod.ext_iff.mp heq).1).2 hnewsZero
  · rw [if_neg hnewsZero, if_neg (hempty' hnil'), sequenceScore_ofUnordered hnodup hgamma']
    exact score_congr fun gamma hne => (hlookup gamma hne).symm

end Both

/-- Two maps with values in a relation. -/
theorem map_eq_zipWith {α : Type} {r : ℤ → ℕ → ℕ} {g k : α → ℕ} {elements : List α}
    {mapIndices : List ℤ}
    (h : List.Forall₂ (fun element m => g element = r m (k element)) elements mapIndices) :
    elements.map g = List.zipWith r mapIndices (elements.map k) := by
  induction h with
  | nil => rfl
  | cons hfirst _ ih => rw [List.map_cons, List.map_cons, List.zipWith_cons_cons, hfirst, ih]

/-- For every trained model, every sentence and any calls with dynamic features of the
sentence, the optimized features give the scores of the trained ones by `gamma`. -/
theorem optimize_scores {e : ElementaryFeatures} {sequences : List FeatureSequence}
    (hdescribed : ∀ sequence ∈ sequences, Described e sequence)
    {sort : List CountInfo → List CountInfo} (hsort : ∀ l, (sort l).Perm l) {f : TrainingFeatures}
    (htrained : Trained e sequences f)
    (hgamma : ∀ map ∈ f.scores, ∀ el ∈ (map : List (Bytes × ℤ)), -2 ^ 31 ≤ el.2 ∧ el.2 < 2 ^ 31)
    (forms : List Bytes) (analyses : List (List TaggedLemma))
    (hids : ∀ map ∈ (f.compute e forms analyses).maps,
      (map : List (Bytes × ℕ)).length < 2 ^ 32)
    (calls : List (ScoreCall FeatureValue))
    (hcalls : ∀ call ∈ calls, e.IsDynamic forms analyses call.dynamic) :
    let values := e.computeFeatures forms analyses
    let trained := f.compute e forms analyses
    let optimized := optimize sort e.descriptions f
    optimized.byScore.run
        (optimized.byScore.initializeSentence (values.map optimized.valueOf))
        (calls.map (ScoreCall.map optimized.valueOf)) =
      trained.byGamma.run (trained.byGamma.initializeSentence (values.map trained.valueOf))
        (calls.map (ScoreCall.map trained.valueOf)) := by
  intro values trained optimized
  have hinvariant := htrained.invariant
  have hinvariant' := hinvariant.compute forms analyses
  have hbound' : ∀ m, (trained.maps.getD m []).length < 2 ^ 32 := by
    intro m
    rw [List.getD_eq_getElem?_getD]
    cases hm : trained.maps[m]? with
    | none => exact Nat.two_pow_pos 32
    | some map => exact hids map (List.mem_of_getElem? hm)
  have h : Setting e sequences sort f := ⟨hinvariant, hsort, hdescribed, fun m =>
    (hinvariant.length_le_compute forms analyses m).trans_lt (hbound' m)⟩
  have hscores : optimized.byScore.scores = List.zipWith (fun sequence map =>
      (PersistentUnorderedMap.ofUnordered (updatedMap (idsMaps sort e.descriptions f)
        (mapIndices e.descriptions sequence) map) (fun size => size) encodeGamma).sequenceScore)
          sequences f.scores := by
    simp only [optimized, PersistentFeatures.byScore, optimize, List.map_zipWith,
      hinvariant.sequences_eq]
  have hrun := @run_agree trained.byGamma optimized.byScore rfl
    ((List.length_map _).trans (hinvariant.scores_length.trans
      (congrArg List.length hinvariant.sequences_eq.symm)))
    (by
      rw [hscores, List.length_zipWith, hinvariant.scores_length, min_self]
      exact congrArg List.length hinvariant.sequences_eq.symm)
    (values.map trained.valueOf) (values.map optimized.valueOf)
    (calls.map fun call => (call.map trained.valueOf, call.map optimized.valueOf)) (by
      intro pair hpair
      obtain ⟨call, hcall, rfl⟩ := List.mem_map.mp hpair
      refine ⟨rfl, fun i sequence score score' hsequence hscore hscore' => ?_⟩
      have hsequence' : sequences[i]? = some sequence :=
        hinvariant.sequences_eq ▸ hsequence
      have hdesc := hdescribed sequence (List.mem_of_getElem? hsequence')
      have hdynamic := hcalls call hcall
      have hmaps := forall₂_mapIndices hdesc
      -- the values on both sides, from the same features
      obtain ⟨value, hvalue⟩ : ∃ value : SequenceElement → FeatureValue, value = fun element =>
        elementValue (.constant elementaryFeatureEmpty) (.constant elementaryFeatureUnknown)
          values call.formIndex call.tagsWindow call.dynamic element := ⟨_, rfl⟩
      have hleft : sequence.elements.map (elementValue elementaryFeatureEmpty
          elementaryFeatureUnknown (values.map trained.valueOf) call.formIndex call.tagsWindow
            (call.dynamic.map trained.valueOf)) =
          sequence.elements.map fun element => trained.valueOf (value element) := by
        apply List.map_congr_left
        intro element _
        rw [hvalue]
        exact elementValue_map trained.valueOf (.constant elementaryFeatureEmpty)
          (.constant elementaryFeatureUnknown) values call element
      have hright : sequence.elements.map (elementValue elementaryFeatureEmpty
          elementaryFeatureUnknown (values.map optimized.valueOf) call.formIndex call.tagsWindow
            (call.dynamic.map optimized.valueOf)) =
          List.zipWith (remap (idsMaps sort e.descriptions f)) (mapIndices e.descriptions sequence)
            (sequence.elements.map fun element => trained.valueOf (value element)) := by
        apply map_eq_zipWith
        apply hmaps.imp
        rintro element m ⟨d, hd, htype, hindex, rfl⟩
        obtain ⟨hsuits, hknown⟩ := elementValue_ok e hd htype hindex call.formIndex call.tagsWindow
          hdynamic
        rw [hvalue, ← h.valueOf_optimize forms analyses hd hsuits hknown]
        exact elementValue_map optimized.valueOf (.constant elementaryFeatureEmpty)
          (.constant elementaryFeatureUnknown) values call element
      have hlength : (sequence.elements.map fun element => trained.valueOf (value element)).length =
          (mapIndices e.descriptions sequence).length := by
        rw [List.length_map]
        exact hmaps.length_eq
      have hlt : elementaryFeatureUnknown ∉
          (sequence.elements.map fun element => trained.valueOf (value element)) →
          ∀ id ∈ sequence.elements.map fun element => trained.valueOf (value element),
            id < 2 ^ 32 := by
        intro hunknown id hid
        obtain ⟨element, helement, rfl⟩ := List.mem_map.mp hid
        have hne : trained.valueOf (value element) ≠ elementaryFeatureUnknown := fun heq =>
          hunknown (heq ▸ hid)
        obtain ⟨-, hisId⟩ := hinvariant.isId forms analyses hdynamic element
          (by rw [hvalue]) hne
        obtain ⟨d, hd, htype, hindex⟩ := hdesc element helement
        obtain ⟨hnone, hmap⟩ := hisId d hd htype hindex
        rcases lt_or_ge d.mapIndex 0 with hneg | hnonneg
        · exact hnone hneg
        · exact (hmap hnonneg).trans_lt (hbound' _)
      obtain ⟨map, hmap, rfl⟩ : ∃ map, f.scores[i]? = some map ∧ map.score = score := by
        have hscore : (f.scores.map TrainingFeatureSequenceMap.score)[i]? = some score := hscore
        rw [List.getElem?_map] at hscore
        exact Option.map_eq_some_iff.mp hscore
      rw [hscores, List.getElem?_zipWith, hsequence', hmap] at hscore'
      obtain rfl := Option.some.inj hscore'
      simp only [ScoreCall.map]
      rw [hleft, hright]
      exact h.keyScore_eq hsequence' hmap (hgamma map (List.mem_of_getElem? hmap)) hlength hlt)
  rw [List.map_map, List.map_map] at hrun
  exact hrun.symm

/-! ### The features of CoNLL-U -/

/-- A word and a verb, which is one of two analyses. -/
def barkForms : List Bytes := [bytes "dog", bytes "barks"]

/-- Two forms, the second of which may be a verb or a noun. -/
def barkAnalyses : List (List TaggedLemma) :=
  [[⟨bytes "dog", bytes "~NOUN~"⟩],
    [⟨bytes "bark", bytes "~VERB~"⟩, ⟨bytes "bark", bytes "~NOUN~~Number=Plur"⟩]]

/-- The features of CoNLL-U for characters of no class. -/
def plainFeatures : ElementaryFeatures :=
  ConlluFeatures.elementaryFeatures ⟨fun _ => false, fun _ => false, fun _ => false⟩

/-- The dynamic features of an analysis of a form. -/
def barkDynamic (i j : ℕ) (previous : Option (List FeatureValue)) : List FeatureValue :=
  let values := plainFeatures.computeFeatures barkForms barkAnalyses
  ConlluFeatures.computeDynamicFeatures
    ((barkAnalyses.getD i []).getD j ⟨[], []⟩) (values.perForm.getD i [])
    ((values.perTag.getD i []).getD j []) previous

/-- A call for the verb, and one for the word before. -/
def barkCalls : List (ScoreCall FeatureValue) :=
  [⟨1, [0, 0], 0, barkDynamic 1 0 (some (barkDynamic 0 0 none))⟩, ⟨0, [0], 0, barkDynamic 0 0 none⟩]

/-- The sequences of the verb before with the tag, and of the form with the tag. -/
def verbAndForm : List FeatureSequence :=
  [⟨[⟨.dynamic, 0, 0⟩, ⟨.perTag, 0, 0⟩], 4⟩, ⟨[⟨.perForm, 0, 0⟩, ⟨.perTag, 0, 0⟩], 1⟩]

/-- The key of the form and the tag of the verb. -/
def barkKey : Bytes :=
  ((init plainFeatures verbAndForm).compute plainFeatures barkForms barkAnalyses).keyOf
    (plainFeatures.computeFeatures barkForms barkAnalyses)
    ⟨1, [0, 0], 0, barkDynamic 1 0 (some (barkDynamic 0 0 none))⟩
    ⟨[⟨.perForm, 0, 0⟩, ⟨.perTag, 0, 0⟩], 1⟩

/-- Features that know the verb, with a weight. -/
def barkFeatures : TrainingFeatures :=
  ((init plainFeatures verbAndForm).compute plainFeatures barkForms barkAnalyses).weigh 1 barkKey 5

/-- The dynamic features of the example are dynamic. -/
theorem isDynamic_barkDynamic {i j : ℕ} (hi : i < 2) (hj : j < (barkAnalyses.getD i []).length)
    {previous : Option (List FeatureValue)}
    (h : ∀ dynamic, previous = some dynamic →
      plainFeatures.IsDynamic barkForms barkAnalyses dynamic) :
    plainFeatures.IsDynamic barkForms barkAnalyses (barkDynamic i j previous) := by
  have hlengths : ∀ i < 2, i < (plainFeatures.computeFeatures barkForms barkAnalyses).perForm.length ∧
      (barkAnalyses.getD i []).length =
        ((plainFeatures.computeFeatures barkForms barkAnalyses).perTag.getD i []).length := by
    decide +kernel
  exact ConlluFeatures.isDynamic_getD hj (hlengths i hi).1 ((hlengths i hi).2 ▸ hj) h

/-- The optimized features give the known form its weight, and the scores of the trained ones. -/
theorem optimize_scores_bark :
    let values := plainFeatures.computeFeatures barkForms barkAnalyses
    let trained := barkFeatures.compute plainFeatures barkForms barkAnalyses
    let optimized := optimize (fun l => l) plainFeatures.descriptions barkFeatures
    optimized.byScore.run
        (optimized.byScore.initializeSentence (values.map optimized.valueOf))
        (barkCalls.map (ScoreCall.map optimized.valueOf)) =
      trained.byGamma.run (trained.byGamma.initializeSentence (values.map trained.valueOf))
        (barkCalls.map (ScoreCall.map trained.valueOf)) := by
  have hword : plainFeatures.IsDynamic barkForms barkAnalyses (barkDynamic 0 0 none) :=
    isDynamic_barkDynamic (by decide) (by decide) (by simp)
  have hverb : plainFeatures.IsDynamic barkForms barkAnalyses
      (barkDynamic 1 0 (some (barkDynamic 0 0 none))) := by
    refine isDynamic_barkDynamic (by decide) (by decide) fun dynamic hdynamic => ?_
    obtain rfl := Option.some.inj hdynamic
    exact hword
  refine optimize_scores ?_ (fun l => .refl l)
    (.weigh .init barkForms barkAnalyses _ hverb rfl rfl (by decide +kernel) 5)
    (by decide +kernel) barkForms barkAnalyses (by decide +kernel) barkCalls ?_
  · intro sequence hsequence element helement
    have hall : ∀ sequence ∈ verbAndForm, ∀ element ∈ sequence.elements,
        ∃ d ∈ ConlluFeatures.descriptions, d.type = element.type ∧
          d.index = element.elementaryIndex := by decide
    exact hall sequence hsequence element helement
  · exact List.forall_mem_cons.mpr ⟨hverb, List.forall_mem_singleton.mpr hword⟩

end UDPipe.Morphodita
