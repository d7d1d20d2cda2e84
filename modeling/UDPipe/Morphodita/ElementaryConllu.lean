import UDPipe.Morphodita.ConlluFeatures

/-!
# The elementary features of CoNLL-U and their maps

Every value that `conllu_elementary_features` computes is looked up in the map of its description,
so the class is one of those whose features can be renumbered.
-/

namespace UDPipe.Morphodita.ConlluFeatures

/-- The vector `descriptions`. -/
def descriptions : List FeatureDescription :=
  [⟨.perForm, 0, mapForm⟩, ⟨.perForm, 1, mapTag⟩, ⟨.perForm, 2, mapForm⟩, ⟨.perForm, 3, -1⟩,
    ⟨.perForm, 4, -1⟩, ⟨.perForm, 5, -1⟩] ++
  (List.range 9).map (fun k => ⟨.perForm, prefixFeature (k + 1), mapPrefix (k + 1)⟩) ++
  (List.range 9).map (fun k => ⟨.perForm, suffixFeature (k + 1), mapSuffix (k + 1)⟩) ++
  (List.range 8).map (fun k => ⟨.perTag, k, mapTag + k⟩) ++
  [⟨.dynamic, 0, mapTag⟩, ⟨.dynamic, 1, mapForm⟩]

/-- The maps of the values of each type, in their order. The dynamic features have two values more
than descriptions. -/
def mapsOf : FeatureType → List ℤ
  | .perForm => [(mapForm : ℤ), mapTag, mapForm, -1, -1, -1] ++
      (List.range 9).map (fun k => (mapPrefix (k + 1) : ℤ)) ++
      (List.range 9).map fun k => (mapSuffix (k + 1) : ℤ)
  | .perTag => (List.range 8).map fun k => (mapTag + k : ℤ)
  | .dynamic => [(mapTag : ℤ), mapForm, mapTag, mapForm]

/-- The maps of the values are those of the descriptions. -/
theorem mapsOf_descriptions :
    ∀ d ∈ descriptions, (mapsOf d.type)[d.index]? = some d.mapIndex := by
  decide

/-! ### What is looked up -/

/-- What is looked up for a field of a tag. -/
def fieldLookup (field : Bytes) : List (ℕ × Bytes) :=
  let name := field.takeWhile (· != 61)
  if name.length + 1 < field.length then
    (namedFeature name).toList.map fun feature => (feature.2, field.drop (name.length + 1))
  else []

/-- What is looked up for the fields, with as much fuel as there are bytes. -/
def fieldLookups : ℕ → Bytes → List (ℕ × Bytes)
  | 0, _ => []
  | fuel + 1, rest =>
    if rest = [] then []
    else
      let field := rest.takeWhile (· != bar)
      fieldLookup field ++ fieldLookups fuel (rest.drop (field.length + 1))

/-- What is looked up for a tag behind the lemma. -/
def tagLookups (tag : Bytes) : List (ℕ × Bytes) :=
  let separator := tag.headD 0
  let upos := (tag.drop 1).takeWhile (· != separator)
  let lpos := (tag.drop (upos.length + 2)).takeWhile (· != separator)
  let fields := tag.drop (upos.length + 2 + lpos.length + 1)
  (mapTagUpos, upos) :: fieldLookups fields.length fields

/-- What is looked up for the analyses of a form, behind a lemma. -/
def perTagLookups (previous : Option Bytes) : List TaggedLemma → List (ℕ × Bytes)
  | [] => []
  | analysis :: analyses =>
    ((mapTag, analysis.tag) ::
      (if previous = some analysis.lemmaString then [] else [(mapLemma, analysis.lemmaString)])) ++
    (tagLookups analysis.tag ++ perTagLookups (some analysis.lemmaString) analyses)

variable (classes : FormClasses)

/-- What is looked up for the characters of a form: the values of its prefixes and suffixes. -/
def orthographicLookups (form : Bytes) (analyses : ℕ) : List (ℕ × Bytes) :=
  match orthographicValues classes form analyses with
  | some values => values.filterMap fun
    | .constant _ => none
    | .lookup map feature => some (map, feature)
  | none => []

/-- What is looked up for the forms from one on, in the order of the loop. -/
def lookupsFrom : List (Bytes × List TaggedLemma) → List (ℕ × Bytes)
  | [] => []
  | (form, analyses) :: sentence =>
    lookupsFrom sentence ++ (perTagLookups none analyses ++
      ((mapForm, form) :: orthographicLookups classes form analyses.length))

/-- The method `compute_dynamic_features`. -/
def computeDynamicFeatures (analysis : TaggedLemma) (perForm perTag : List FeatureValue)
    (previous : Option (List FeatureValue)) : List FeatureValue :=
  let verb (index : ℕ) : FeatureValue :=
    match previous with
    | some dynamic => dynamic.getD index (.constant elementaryFeatureUnknown)
    | none => .constant elementaryFeatureEmpty
  [verb 2, verb 3] ++
    if analysis.tag[1]? = some 86 then
      [perTag.getD tagFeature (.constant elementaryFeatureUnknown),
        perForm.getD 0 (.constant elementaryFeatureUnknown)]
    else [verb 2, verb 3]

/-- The dynamic features that there can be: those of an analysis of a form, behind others. -/
inductive IsDynamic (values : FeatureValues FeatureValue) (analyses : List (List TaggedLemma)) :
    List FeatureValue → Prop
  | compute {i j : ℕ} {tags : List TaggedLemma} {analysis : TaggedLemma}
      {perForm perTag : List FeatureValue} {perTags : List (List FeatureValue)}
      {previous : Option (List FeatureValue)} :
      analyses[i]? = some tags → tags[j]? = some analysis → values.perForm[i]? = some perForm →
      values.perTag[i]? = some perTags → perTags[j]? = some perTag →
      (∀ dynamic, previous = some dynamic → IsDynamic values analyses dynamic) →
      IsDynamic values analyses (computeDynamicFeatures analysis perForm perTag previous)

/-! ### Every value has its map -/

/-- The value is looked up in the map, or it needs none. -/
def Looks (lookups : List (ℕ × Bytes)) (mapIndex : ℤ) (v : FeatureValue) : Prop :=
  v.Suits mapIndex ∧ v.Known lookups

/-- More lookups do not change a value that is looked up. -/
theorem Looks.of_subset {lookups more : List (ℕ × Bytes)} (hsub : lookups ⊆ more) {mapIndex : ℤ}
    {v : FeatureValue} (h : Looks lookups mapIndex v) : Looks more mapIndex v := by
  refine ⟨h.1, ?_⟩
  cases v with
  | constant value => exact trivial
  | lookup map feature => exact hsub h.2

/-- A feature is looked up in its map. -/
theorem looks_lookup {lookups : List (ℕ × Bytes)} {map : ℕ} {feature : Bytes}
    (h : (map, feature) ∈ lookups) : Looks lookups map (.lookup map feature) :=
  ⟨rfl, h⟩

/-- Unknown and empty values are in every map. -/
theorem looks_constant (lookups : List (ℕ × Bytes)) (mapIndex : ℤ) {value : ℕ}
    (h : value ≤ elementaryFeatureEmpty) : Looks lookups mapIndex (.constant value) :=
  ⟨⟨h.trans_lt (by decide), fun _ => h⟩, trivial⟩

/-- A value may be replaced by another one that is in the relation. -/
theorem forall₂_set {α β : Type} {R : α → β → Prop} {as : List α} {bs : List β}
    (h : List.Forall₂ R as bs) {i : ℕ} {a : α} (ha : as[i]? = some a) {b : β} (hb : R a b) :
    List.Forall₂ R as (bs.set i b) := by
  induction h generalizing i with
  | nil => cases ha
  | cons hfirst hrest ih =>
    cases i with
    | zero =>
      obtain rfl := Option.some.inj ha
      exact .cons hb hrest
    | succ i => exact .cons hfirst (ih ha)

/-- The values that are there are looked up in their maps. -/
theorem looks_getElem? {lookups : List (ℕ × Bytes)} {maps : List ℤ} {values : List FeatureValue}
    (h : List.Forall₂ (Looks lookups) maps values) {i : ℕ} {mapIndex : ℤ}
    (hi : maps[i]? = some mapIndex) : ∀ v ∈ values[i]?, Looks lookups mapIndex v := by
  induction h generalizing i with
  | nil => cases hi
  | cons hfirst _ ih =>
    cases i with
    | zero =>
      obtain rfl := Option.some.inj hi
      intro v hv
      obtain rfl := Option.some.inj hv
      exact hfirst
    | succ i => exact ih hi

/-- A value is looked up in its map, or unknown. -/
theorem looks_getD {lookups : List (ℕ × Bytes)} {maps : List ℤ} {values : List FeatureValue}
    (h : List.Forall₂ (Looks lookups) maps values) {i : ℕ} {mapIndex : ℤ}
    (hi : maps[i]? = some mapIndex) :
    Looks lookups mapIndex (values.getD i (.constant elementaryFeatureUnknown)) := by
  rw [List.getD_eq_getElem?_getD]
  cases hv : values[i]? with
  | none => exact looks_constant _ _ (Nat.zero_le _)
  | some v => exact looks_getElem? h hi v hv

/-- Each named feature has its map among those of the tag. -/
theorem mapsOf_namedFeature {name : Bytes} {feature : ℕ × ℕ} (h : namedFeature name = some feature) :
    (mapsOf .perTag)[feature.1]? = some (feature.2 : ℤ) := by
  unfold namedFeature at h
  split_ifs at h <;> obtain rfl := Option.some.inj h <;> decide

section Tags

variable {lookups : List (ℕ × Bytes)}

/-- A field of the tag sets values of its own map. -/
theorem looks_addField {values : List FeatureValue}
    (h : List.Forall₂ (Looks lookups) (mapsOf .perTag) values) {field : Bytes}
    (hfield : fieldLookup field ⊆ lookups) :
    List.Forall₂ (Looks lookups) (mapsOf .perTag) (addField values field) := by
  rw [addField]
  rw [fieldLookup] at hfield
  split
  · next hlt =>
    rw [if_pos hlt] at hfield
    cases hnamed : namedFeature (field.takeWhile (· != 61)) with
    | none => exact h
    | some feature =>
      rw [hnamed] at hfield
      exact forall₂_set h (mapsOf_namedFeature hnamed)
        (looks_lookup (hfield (List.mem_singleton_self _)))
  · exact h

/-- The loop over the fields keeps every value in its map. -/
theorem looks_addFields {fuel : ℕ} {rest : Bytes} {values : List FeatureValue}
    (h : List.Forall₂ (Looks lookups) (mapsOf .perTag) values)
    (hrest : fieldLookups fuel rest ⊆ lookups) :
    List.Forall₂ (Looks lookups) (mapsOf .perTag) (addFields fuel rest values) := by
  induction fuel generalizing rest values with
  | zero => exact h
  | succ fuel ih =>
    rw [addFields]
    rw [fieldLookups] at hrest
    split
    · exact h
    · next hne =>
      rw [if_neg hne] at hrest
      obtain ⟨hfield, hmore⟩ := List.append_subset.mp hrest
      exact ih (looks_addField h hfield) hmore

/-- The values of a tag are looked up in their maps. -/
theorem looks_tagValues {tag : Bytes} {lemmaValue : FeatureValue} (htag : (mapTag, tag) ∈ lookups)
    (hrest : tagLookups tag ⊆ lookups) (hlemma : Looks lookups mapLemma lemmaValue) :
    List.Forall₂ (Looks lookups) (mapsOf .perTag) (tagValues tag lemmaValue) := by
  rw [tagLookups] at hrest
  obtain ⟨hupos, hfields⟩ := List.cons_subset.mp hrest
  rw [tagValues]
  refine looks_addFields ?_ hfields
  have hempty : ∀ mapIndex : ℤ, Looks lookups mapIndex (.constant elementaryFeatureEmpty) :=
    fun mapIndex => looks_constant lookups mapIndex le_rfl
  exact .cons (looks_lookup htag) (.cons (looks_lookup hupos) (.cons (hempty _) (.cons (hempty _)
    (.cons (hempty _) (.cons (hempty _) (.cons (hempty _) (.cons hlemma .nil)))))))

/-- The values of the analyses of a form. The lemma before has its value already. -/
theorem looks_perTagValues {previous : Option (Bytes × FeatureValue)} {analyses : List TaggedLemma}
    (hprevious : ∀ p, previous = some p → Looks lookups mapLemma p.2)
    (hrest : perTagLookups (previous.map Prod.fst) analyses ⊆ lookups) :
    ∀ values ∈ perTagValues previous analyses,
      List.Forall₂ (Looks lookups) (mapsOf .perTag) values := by
  induction analyses generalizing previous with
  | nil => simp [perTagValues]
  | cons analysis analyses ih =>
    rw [perTagLookups] at hrest
    obtain ⟨hfirst, hrest⟩ := List.append_subset.mp hrest
    obtain ⟨htag, hlemma⟩ := List.cons_subset.mp hfirst
    obtain ⟨htags, hmore⟩ := List.append_subset.mp hrest
    obtain ⟨lemmaValue, hvalue, hlooks⟩ : ∃ lemmaValue, perTagValues previous (analysis :: analyses) =
        tagValues analysis.tag lemmaValue ::
          perTagValues (some (analysis.lemmaString, lemmaValue)) analyses ∧
        Looks lookups mapLemma lemmaValue := by
      refine ⟨_, rfl, ?_⟩
      cases previous with
      | none =>
        simp only [Option.map_none, reduceCtorEq, if_false] at hlemma
        exact looks_lookup (hlemma (List.mem_singleton_self _))
      | some p =>
        dsimp only
        split
        · exact hprevious p rfl
        · next hne =>
          simp only [Option.map_some, Option.some.injEq, hne, if_false] at hlemma
          exact looks_lookup (hlemma (List.mem_singleton_self _))
    rw [hvalue, List.forall_mem_cons]
    refine ⟨looks_tagValues htag htags hlooks, ih ?_ hmore⟩
    intro p hp
    obtain rfl := Option.some.inj hp
    exact hlooks

end Tags

/-! ### Values of a form -/

/-- Constants suit a map of no strings and one of any. -/
theorem suits_replicate {value : ℕ} (mapIndex : ℤ) (h : value < 2 ^ 32)
    (hmap : 0 ≤ mapIndex → value ≤ elementaryFeatureEmpty) (n : ℕ) :
    List.Forall₂ (fun m v => FeatureValue.Suits m v) (List.replicate n mapIndex)
      (List.replicate n (.constant value)) := by
  induction n with
  | zero => exact .nil
  | succ n ih => exact .cons ⟨h, hmap⟩ ih

/-- The values of the affixes with a number from 1 to 9 are looked up in their maps. -/
theorem suits_affixes (map : ℕ → ℕ) (feature : ℕ → Bytes) :
    List.Forall₂ (fun m v => FeatureValue.Suits m v)
      ((List.range 9).map fun k => (map (k + 1) : ℤ))
      ((List.range 9).map fun k => .lookup (map (k + 1)) (feature k)) := by
  rw [List.forall₂_map_left_iff, List.forall₂_map_right_iff, List.forall₂_same]
  exact fun k _ => rfl

/-- Missing values suit their maps. -/
theorem suits_empty (maps : List ℤ) {value : ℕ} (h : value ≤ elementaryFeatureEmpty) :
    List.Forall₂ (fun m v => FeatureValue.Suits m v) maps
      (List.replicate maps.length (.constant value)) := by
  induction maps with
  | nil => exact .nil
  | cons m maps ih => exact .cons ⟨h.trans_lt (by decide), fun _ => h⟩ ih

/-- The values of the characters of a form have the maps behind those of the form and the verb. -/
theorem suits_orthographicValues {form : Bytes} {analyses : ℕ} {values : List FeatureValue}
    (h : orthographicValues classes form analyses = some values) :
    List.Forall₂ (fun m v => FeatureValue.Suits m v) ((mapsOf .perForm).drop 3) values := by
  by_cases hone : analyses = 1
  · rw [orthographicValues, if_pos hone] at h
    obtain rfl := Option.some.inj h
    exact suits_empty ((mapsOf .perForm).drop 3) (Nat.zero_le _)
  by_cases hempty : form = []
  · rw [orthographicValues, if_neg hone, if_pos hempty] at h
    obtain rfl := Option.some.inj h
    exact List.rel_append (suits_replicate (-1) (by decide) (by decide) 3)
      (suits_empty (((mapsOf .perForm).drop 6)) le_rfl)
  rw [orthographicValues_eq classes form hempty hone] at h
  split_ifs at h
  obtain rfl := Option.some.inj h
  have hfound : ∀ b : Bool, FeatureValue.Suits (-1)
      (.constant (elementaryFeatureEmpty + 1 + b.toNat)) := by
    intro b
    cases b <;> exact ⟨by decide, by decide⟩
  rw [Scan.prefixes_run classes form (chars_ne_nil form hempty) (Scan.start form) rfl
    (Nat.zero_lt_succ 9)]
  exact List.rel_append (List.rel_append
    (.cons (hfound _) (.cons (hfound _) (.cons (hfound _) .nil))) (suits_affixes mapPrefix _))
    (suits_affixes mapSuffix _)

/-- They have been looked up, too. -/
theorem looks_orthographicValues {form : Bytes} {analyses : ℕ} {values : List FeatureValue}
    (h : orthographicValues classes form analyses = some values) :
    List.Forall₂ (Looks (orthographicLookups classes form analyses))
      ((mapsOf .perForm).drop 3) values := by
  have hsuits := suits_orthographicValues classes h
  have hknown : ∀ v ∈ values, v.Known (orthographicLookups classes form analyses) := by
    intro v hv
    rw [orthographicLookups, h]
    cases v with
    | constant value => exact trivial
    | lookup map feature => exact List.mem_filterMap.mpr ⟨_, hv, rfl⟩
  rw [List.forall₂_iff_get] at hsuits ⊢
  exact ⟨hsuits.1, fun i hi hi' => ⟨hsuits.2 i hi hi', hknown _ (List.get_mem _ _)⟩⟩

/-! ### Values of a sentence -/

/-- The values of a sentence and of the following verb are looked up in their maps. -/
structure LooksAll (lookups : List (ℕ × Bytes))
    (result : FeatureValues FeatureValue × FollowingVerb) : Prop where
  perForm : ∀ values ∈ result.1.perForm, List.Forall₂ (Looks lookups) (mapsOf .perForm) values
  perTag : ∀ tags ∈ result.1.perTag, ∀ values ∈ tags,
    List.Forall₂ (Looks lookups) (mapsOf .perTag) values
  tag : Looks lookups mapTag result.2.tag
  form : Looks lookups mapForm result.2.form

/-- A verb candidate has the values of some analysis. -/
theorem mem_of_foldl_verbCandidate {pairs : List (TaggedLemma × List FeatureValue)}
    {candidate : Option (TaggedLemma × List FeatureValue)}
    {p : TaggedLemma × List FeatureValue} (h : pairs.foldl verbCandidate candidate = some p) :
    candidate = some p ∨ p ∈ pairs := by
  induction pairs generalizing candidate with
  | nil => exact .inl h
  | cons first pairs ih =>
    rcases ih h with hfirst | hmem
    · rw [verbCandidate] at hfirst
      split at hfirst
      · exact .inr (Option.some.inj hfirst ▸ List.mem_cons_self)
      · exact .inl hfirst
    · exact .inr (List.mem_cons_of_mem _ hmem)

/-- The loop over the forms keeps every value in its map. -/
theorem looksAll_computeFrom {lookups : List (ℕ × Bytes)}
    {sentence : List (Bytes × List TaggedLemma)} (hsub : lookupsFrom classes sentence ⊆ lookups)
    {result : FeatureValues FeatureValue × FollowingVerb}
    (h : computeFrom classes sentence = some result) : LooksAll lookups result := by
  induction sentence generalizing result with
  | nil =>
    obtain rfl := Option.some.inj h
    exact ⟨by simp, by simp, looks_constant _ _ le_rfl, looks_constant _ _ le_rfl⟩
  | cons first sentence ih =>
    obtain ⟨form, analyses⟩ := first
    rw [computeFrom] at h
    simp only [Option.bind_eq_bind, Option.bind_eq_some_iff, Option.pure_def,
      Option.some.injEq] at h
    obtain ⟨⟨values, following⟩, hrest, orthographic, horthographic, rfl⟩ := h
    rw [lookupsFrom] at hsub
    obtain ⟨hbehind, hsub⟩ := List.append_subset.mp hsub
    obtain ⟨htags, hsub⟩ := List.append_subset.mp hsub
    obtain ⟨hform, hchars⟩ := List.cons_subset.mp hsub
    have hall := ih hbehind hrest
    have hperTag := @looks_perTagValues lookups none analyses (by simp) htags
    have hformValue : Looks lookups mapForm (.lookup mapForm form) := looks_lookup hform
    have horth := (looks_orthographicValues classes horthographic).imp
      fun m v hv => hv.of_subset hchars
    refine ⟨List.forall_mem_cons.mpr ⟨?_, hall.perForm⟩,
      List.forall_mem_cons.mpr ⟨hperTag, hall.perTag⟩, ?_, ?_⟩
    · exact .cons hformValue (.cons hall.tag (.cons hall.form horth))
    · dsimp only
      split
      · next analysis tags hverb =>
        obtain hnone | hmem := mem_of_foldl_verbCandidate hverb
        · cases hnone
        · have hlooks := hperTag tags (List.of_mem_zip hmem).2
          exact looks_getD hlooks rfl
      · exact hall.tag
    · dsimp only
      split
      · exact hformValue
      · exact hall.form

/-! ### Dynamic features -/

/-- The dynamic features are empty, or values of forms and tags of the sentence. -/
theorem looks_of_isDynamic {lookups : List (ℕ × Bytes)} {values : FeatureValues FeatureValue}
    {analyses : List (List TaggedLemma)}
    (hperForm : ∀ form ∈ values.perForm, List.Forall₂ (Looks lookups) (mapsOf .perForm) form)
    (hperTag : ∀ tags ∈ values.perTag, ∀ tag ∈ tags,
      List.Forall₂ (Looks lookups) (mapsOf .perTag) tag)
    {dynamic : List FeatureValue} (h : IsDynamic values analyses dynamic) :
    List.Forall₂ (Looks lookups) (mapsOf .dynamic) dynamic := by
  induction h with
  | @compute i j tags analysis perForm perTag perTags previous _ _ hform htags htag _ ih =>
    have hverb : ∀ index mapIndex, (mapsOf .dynamic)[index]? = some mapIndex →
        Looks lookups mapIndex (match previous with
          | some dynamic => dynamic.getD index (.constant elementaryFeatureUnknown)
          | none => .constant elementaryFeatureEmpty) := by
      intro index mapIndex hindex
      cases previous with
      | none => exact looks_constant _ _ le_rfl
      | some dynamic => exact looks_getD (ih dynamic rfl) hindex
    have hform' := hperForm perForm (List.mem_of_getElem? hform)
    have htag' := hperTag perTags (List.mem_of_getElem? htags) perTag (List.mem_of_getElem? htag)
    rw [computeDynamicFeatures]
    refine .cons (hverb 2 mapTag rfl) (.cons (hverb 3 mapForm rfl) ?_)
    dsimp only
    split
    · exact .cons (looks_getD htag' rfl) (.cons (looks_getD hform' rfl) .nil)
    · exact .cons (hverb 2 mapTag rfl) (.cons (hverb 3 mapForm rfl) .nil)

/-- The dynamic features of an analysis are dynamic. -/
theorem isDynamic_getD {values : FeatureValues FeatureValue} {analyses : List (List TaggedLemma)}
    {i j : ℕ} (hanalysis : j < (analyses.getD i []).length) (hform : i < values.perForm.length)
    (htag : j < (values.perTag.getD i []).length) {previous : Option (List FeatureValue)}
    (h : ∀ dynamic, previous = some dynamic → IsDynamic values analyses dynamic) :
    IsDynamic values analyses (computeDynamicFeatures ((analyses.getD i []).getD j ⟨[], []⟩)
      (values.perForm.getD i []) ((values.perTag.getD i []).getD j []) previous) := by
  have hgetD : ∀ {α : Type} (l : List (List α)), j < (l.getD i []).length →
      l[i]? = some (l.getD i []) := by
    intro α l hl
    rw [List.getD_eq_getElem?_getD] at hl ⊢
    cases hget : l[i]? with
    | none =>
      rw [hget] at hl
      cases hl
    | some tags => rfl
  refine .compute (hgetD analyses hanalysis) (i := i) (j := j) ?_ ?_ (hgetD values.perTag htag) ?_ h
  · rw [List.getD_eq_getElem _ _ hanalysis, List.getElem?_eq_getElem hanalysis]
  · rw [List.getD_eq_getElem _ _ hform, List.getElem?_eq_getElem hform]
  · rw [List.getD_eq_getElem _ _ htag, List.getElem?_eq_getElem htag]

/-! ### The class of elementary features -/

/-- What is computed for a sentence is looked up in the maps. -/
theorem looksAll_computeFeatures (forms : List Bytes) (analyses : List (List TaggedLemma)) :
    (∀ values ∈ ((computeFeatures classes forms analyses).getD ⟨[], []⟩).perForm,
      List.Forall₂ (Looks (lookupsFrom classes (forms.zip analyses))) (mapsOf .perForm) values) ∧
    ∀ tags ∈ ((computeFeatures classes forms analyses).getD ⟨[], []⟩).perTag, ∀ values ∈ tags,
      List.Forall₂ (Looks (lookupsFrom classes (forms.zip analyses))) (mapsOf .perTag) values := by
  rw [computeFeatures]
  cases hresult : computeFrom classes (forms.zip analyses) with
  | none => exact ⟨by simp, by simp⟩
  | some result =>
    have hall := looksAll_computeFrom classes (List.Subset.refl _) hresult
    exact ⟨hall.perForm, hall.perTag⟩

/-- The class `conllu_elementary_features`. A sentence whose features cannot be computed has
none. -/
def elementaryFeatures : ElementaryFeatures where
  mapsTotal := 27
  descriptions := descriptions
  computeFeatures forms analyses := (computeFeatures classes forms analyses).getD ⟨[], []⟩
  lookups forms analyses := lookupsFrom classes (forms.zip analyses)
  IsDynamic forms analyses :=
    IsDynamic ((computeFeatures classes forms analyses).getD ⟨[], []⟩) analyses
  mapIndex_lt := by decide
  unique := by decide
  perForm_ok forms analyses d hd htype values hvalues :=
    looks_getElem? ((looksAll_computeFeatures classes forms analyses).1 values hvalues)
      (htype ▸ mapsOf_descriptions d hd)
  perTag_ok forms analyses d hd htype tags htags values hvalues :=
    looks_getElem? ((looksAll_computeFeatures classes forms analyses).2 tags htags values hvalues)
      (htype ▸ mapsOf_descriptions d hd)
  dynamic_ok forms analyses d hd htype dynamic hdynamic := by
    obtain ⟨hperForm, hperTag⟩ := looksAll_computeFeatures classes forms analyses
    exact looks_getElem? (looks_of_isDynamic hperForm hperTag hdynamic)
      (htype ▸ mapsOf_descriptions d hd)

end UDPipe.Morphodita.ConlluFeatures
