import UDPipe.Library.Ring
import UDPipe.Morphodita.FeatureSequences
import UDPipe.Tokenizer.Concatenation

/-!
# The elementary features of CoNLL-U

`conllu_elementary_features::compute_features` of `tagger/conllu_elementary_features.h`. The
boundaries of the characters of a form are kept in a ring of 18 offsets, from which the
features of its beginning and its end are cut. The characters are counted in an `int`, whose
overflow has no result.
-/

namespace UDPipe.Morphodita

open Utf8 (flat)
open Tokenizer

/-- The classes of characters that a form is searched for. -/
structure FormClasses where
  /-- `category(chr) & unicode::N`. -/
  number : ℕ → Bool
  /-- `category(chr) & unicode::Lut`. -/
  capital : ℕ → Bool
  /-- `category(chr) & unicode::Pd`. -/
  dash : ℕ → Bool

namespace ConlluFeatures

/-! The values of the enumerations `features_per_form`, `features_per_tag` and `features_map`. The
prefixes and the suffixes have numbers from 1 to 9. -/

/-- `PREFIX1` and the ones after it. -/
def prefixFeature (k : ℕ) : ℕ := 5 + k

/-- `SUFFIX1` and the ones after it. -/
def suffixFeature (k : ℕ) : ℕ := 14 + k

/-- `TAG`. -/
abbrev tagFeature : ℕ := 0

/-- `MAP_FORM`. -/
abbrev mapForm : ℕ := 0

/-- `MAP_PREFIX1` and the ones after it. -/
def mapPrefix (k : ℕ) : ℕ := k

/-- `MAP_SUFFIX1` and the ones after it. -/
def mapSuffix (k : ℕ) : ℕ := 9 + k

/-- `MAP_TAG`. -/
abbrev mapTag : ℕ := 19

/-- `MAP_TAG_UPOS`. -/
abbrev mapTagUpos : ℕ := 20

/-- `MAP_LEMMA`. -/
abbrev mapLemma : ℕ := 26

/-- The place and the map of the value of a named field: `TAG_CASE`, `TAG_GENDER`, `TAG_NUMBER`,
`TAG_NEGATIVE` and `TAG_PERSON`. -/
def namedFeature (name : Bytes) : Option (ℕ × ℕ) :=
  if name = bytes "Case" then some (2, 21)
  else if name = bytes "Gender" then some (3, 22)
  else if name = bytes "Number" then some (4, 23)
  else if name = bytes "Person" then some (6, 25)
  else if name = bytes "Negative" then some (5, 24)
  else none

/-! ### Features of a tag -/

/-- What is done with a field: its name ends before the first `=`, which is not its last byte. -/
def addField (values : List FeatureValue) (field : Bytes) : List FeatureValue :=
  let name := field.takeWhile (· != 61)
  if name.length + 1 < field.length then
    match namedFeature name with
    | some (value, map) => values.set value (.lookup map (field.drop (name.length + 1)))
    | none => values
  else values

/-- The loop over the fields, with as much fuel as there are bytes. -/
def addFields : ℕ → Bytes → List FeatureValue → List FeatureValue
  | 0, _, values => values
  | fuel + 1, rest, values =>
    if rest = [] then values
    else
      let field := rest.takeWhile (· != bar)
      addFields fuel (rest.drop (field.length + 1)) (addField values field)

/-- The values of a tag, with the value of the lemma. The first byte of the tag separates its
parts. -/
def tagValues (tag : Bytes) (lemmaValue : FeatureValue) : List FeatureValue :=
  let separator := tag.headD 0
  let upos := (tag.drop 1).takeWhile (· != separator)
  let lpos := (tag.drop (upos.length + 2)).takeWhile (· != separator)
  let fields := tag.drop (upos.length + 2 + lpos.length + 1)
  addFields fields.length fields
    ([.lookup mapTag tag, .lookup mapTagUpos upos] ++
      List.replicate 5 (.constant elementaryFeatureEmpty) ++ [lemmaValue])

/-- The values of the analyses of a form. A lemma that is that of the analysis before has its
value. -/
def perTagValues (previous : Option (Bytes × FeatureValue)) :
    List TaggedLemma → List (List FeatureValue)
  | [] => []
  | analysis :: analyses =>
    let lemmaValue :=
      match previous with
      | some (lem, value) =>
        if lem = analysis.lemmaString then value else .lookup mapLemma analysis.lemmaString
      | none => .lookup mapLemma analysis.lemmaString
    tagValues analysis.tag lemmaValue ::
      perTagValues (some (analysis.lemmaString, lemmaValue)) analyses

/-- Whether an analysis comes before another one, by the tag and then by the lemma. -/
def precedes (analysis other : TaggedLemma) : Bool :=
  analysis.tag < other.tag || analysis.tag == other.tag && analysis.lemmaString < other.lemmaString

/-- The verb candidate after an analysis, each with its values. -/
def verbCandidate (candidate : Option (TaggedLemma × List FeatureValue))
    (analysis : TaggedLemma × List FeatureValue) : Option (TaggedLemma × List FeatureValue) :=
  if analysis.1.tag[1]? = some 86 ∧ candidate.all (fun other => precedes analysis.1 other.1) then
    some analysis
  else candidate

/-! ### Features of a form -/

/-- The variables of the scan of a form, and the values of the prefixes. -/
structure Scan where
  index : ℕ
  indices : List ℕ
  position : ℕ
  num : Bool
  cap : Bool
  dash : Bool
  prefixes : List FeatureValue

/-- The values of the prefixes. -/
def prefixValues (form : Bytes) (indices : List ℕ) : List FeatureValue :=
  (List.range 9).map fun k => .lookup (mapPrefix (k + 1)) (form.take (indices.getD (k + 1) 0))

/-- The values of the suffixes. -/
def suffixValues (form : Bytes) (scan : Scan) : List FeatureValue :=
  (List.range 9).map fun k =>
    let start := scan.indices.getD ((scan.index + 18 - (k + 1)) % 18) 0
    .lookup (mapSuffix (k + 1)) ((form.drop start).take (scan.position - start))

variable (classes : FormClasses) (form : Bytes)

/-- A pass of the loop, when the character has been decoded. The prefixes are filled after ten
characters, or after the last one. -/
def Scan.step (scan : Scan) (c : Character) (last : Bool) : Scan :=
  let index := scan.index + 1
  let indices := scan.indices.set (scan.index % 18) scan.position
  { index, indices
    position := scan.position + c.bytes.length
    num := scan.num || classes.number c.code
    cap := scan.cap || classes.capital c.code
    dash := scan.dash || classes.dash c.code
    prefixes :=
      if index = 10 ∨ (last ∧ index < 10) then prefixValues form indices else scan.prefixes }

/-- The loop over the characters of a form. -/
def Scan.run : List Character → Scan → Scan
  | [], scan => scan
  | c :: cs, scan => run cs (scan.step classes form c cs.isEmpty)

/-- The initial ring, "careful here regarding forms shorter than 9 characters". -/
def startRing (length : ℕ) : List ℕ := 0 :: (List.replicate 9 length ++ List.replicate 8 0)

/-- The scan at the start of a form. -/
def Scan.start : Scan where
  index := 0
  indices := startRing form.length
  position := 0
  num := false
  cap := false
  dash := false
  prefixes := []

/-- The values `NUM`, `CAP` and `DASH` of a form. -/
def foundValues (scan : Scan) : List FeatureValue :=
  [scan.num, scan.cap, scan.dash].map fun b => .constant (elementaryFeatureEmpty + 1 + b.toNat)

/-- The values `NUM`, `CAP` and `DASH`, the prefixes and the suffixes of a form with a number
of analyses. -/
def orthographicValues (analyses : ℕ) : Option (List FeatureValue) :=
  if analyses = 1 then some (List.replicate 21 (.constant elementaryFeatureUnknown))
  else if form = [] then
    some (List.replicate 3 (.constant (elementaryFeatureEmpty + 1)) ++
      List.replicate 18 (.constant elementaryFeatureEmpty))
  else
    let scan := Scan.run classes form (Utf8.chars form) (Scan.start form)
    -- `index++` was within `int` if the sum `index + 18` of the suffixes is
    if scan.index + 18 < 2 ^ 31 then
      some (foundValues scan ++ scan.prefixes ++ suffixValues form scan)
    else none

/-! ### Features of a sentence -/

/-- The features of the following verb, `following_verb_tag` and `following_verb_form`. -/
structure FollowingVerb where
  tag : FeatureValue
  form : FeatureValue

/-- What the loop, which goes from the last form to the first, has computed for the forms from
one on. -/
def computeFrom (classes : FormClasses) :
    List (Bytes × List TaggedLemma) → Option (FeatureValues FeatureValue × FollowingVerb)
  | [] =>
    some (⟨[], []⟩, ⟨.constant elementaryFeatureEmpty, .constant elementaryFeatureEmpty⟩)
  | (form, analyses) :: sentence => do
    let (values, following) ← computeFrom classes sentence
    let perTag := perTagValues none analyses
    let formValue := .lookup mapForm form
    let orthographic ← orthographicValues classes form analyses.length
    let perForm := [formValue, following.tag, following.form] ++ orthographic
    let following :=
      match (analyses.zip perTag).foldl verbCandidate none with
      | some (_, values) => ⟨values.getD tagFeature (.constant elementaryFeatureUnknown), formValue⟩
      | none => following
    return (⟨perForm :: values.perForm, perTag :: values.perTag⟩, following)

/-- The method `compute_features`. -/
def computeFeatures (classes : FormClasses) (forms : List Bytes)
    (analyses : List (List TaggedLemma)) : Option (FeatureValues FeatureValue) :=
  (computeFrom classes (forms.zip analyses)).map Prod.fst

/-! ### What the scan holds -/

/-- The offsets at which characters begin, the first of them at `position`. -/
def starts (position : ℕ) : List Character → List ℕ
  | [] => []
  | c :: cs => position :: starts (position + c.bytes.length) cs

/-- Every character has a start. -/
@[simp] theorem length_starts (position : ℕ) (cs : List Character) :
    (starts position cs).length = cs.length := by
  induction cs generalizing position with
  | nil => rfl
  | cons c cs ih => rw [starts, List.length_cons, ih, List.length_cons]

/-- A character starts at its offset. -/
theorem getElem?_starts (position : ℕ) {cs : List Character} {t : ℕ} (h : t < cs.length) :
    (starts position cs)[t]? = some (position + offset cs t) := by
  induction cs generalizing position t with
  | nil => cases h
  | cons c cs ih =>
    cases t with
    | zero => rfl
    | succ t =>
      rw [starts, List.getElem?_cons_succ, ih _ (by simpa using h)]
      simp only [offset, List.take_succ_cons, Utf8.flat_cons, List.length_append]
      rw [Nat.add_assoc]

/-- The scan writes the ring with the starts of the characters. -/
theorem Scan.run_spec (cs : List Character) (scan : Scan) (hsize : scan.indices.length = 18) :
    (scan.run classes form cs).index = scan.index + cs.length ∧
      (scan.run classes form cs).position = scan.position + (flat cs).length ∧
      (scan.run classes form cs).indices =
        writeRing scan.indices scan.index (starts scan.position cs) := by
  induction cs generalizing scan with
  | nil => exact ⟨rfl, rfl, rfl⟩
  | cons c cs ih =>
    obtain ⟨hindex, hposition, hindices⟩ := ih (scan.step classes form c cs.isEmpty)
      ((List.length_set ..).trans hsize)
    refine ⟨?_, ?_, ?_⟩
    · rw [run, hindex, List.length_cons, Nat.add_comm cs.length, ← Nat.add_assoc]
      rfl
    · rw [run, hposition, Utf8.flat_cons, List.length_append, ← Nat.add_assoc]
      rfl
    · rw [run, hindices, starts, writeRing, hsize]
      rfl

/-- After ten characters the prefixes do not change any more. -/
theorem Scan.prefixes_run_of_le (cs : List Character) (scan : Scan) (h : 10 ≤ scan.index) :
    (scan.run classes form cs).prefixes = scan.prefixes := by
  induction cs generalizing scan with
  | nil => rfl
  | cons c cs ih =>
    rw [run, ih _ (Nat.le_succ_of_le h)]
    apply if_neg
    omega

/-- The prefixes are cut at what the ring holds after ten characters, or after all. -/
theorem Scan.prefixes_run {cs : List Character} (hne : cs ≠ []) (scan : Scan)
    (hsize : scan.indices.length = 18) (h : scan.index < 10) :
    (scan.run classes form cs).prefixes = prefixValues form
      (writeRing scan.indices scan.index ((starts scan.position cs).take (10 - scan.index))) := by
  induction cs generalizing scan with
  | nil => exact absurd rfl hne
  | cons c cs ih =>
    obtain ⟨n, hn⟩ : ∃ n, 10 - scan.index = n + 1 := ⟨9 - scan.index, by omega⟩
    rw [run, starts, hn, List.take_succ_cons, writeRing, hsize]
    rcases Nat.eq_or_lt_of_le h with hten | hten
    · -- the tenth character
      obtain rfl : n = 0 := by omega
      rw [prefixes_run_of_le _ _ _ _ hten.ge]
      exact if_pos (.inl hten)
    cases cs with
    | nil =>
      rw [starts, List.take_nil]
      exact if_pos (.inr ⟨rfl, hten⟩)
    | cons d cs =>
      have hrest := ih (List.cons_ne_nil d cs) (scan.step classes form c false)
        ((List.length_set ..).trans hsize) hten
      have hcount : 10 - (scan.step classes form c false).index = n := by
        change 10 - (scan.index + 1) = n
        omega
      rw [hcount] at hrest
      exact hrest

/-! ### Cells of the ring -/

/-- The ring has 18 places. -/
@[simp] theorem length_startRing (length : ℕ) : (startRing length).length = 18 := rfl

/-- The places of the ends begin with the length of the form. -/
theorem getElem?_startRing_of_le (length : ℕ) {k : ℕ} (hk : 1 ≤ k) (hk' : k ≤ 9) :
    (startRing length)[k]? = some length := by
  obtain ⟨l, rfl⟩ : ∃ l, k = l + 1 := ⟨k - 1, by omega⟩
  have hl : l < (List.replicate 9 length).length := by
    rw [List.length_replicate]
    omega
  rw [startRing, List.getElem?_cons_succ, List.getElem?_append_left hl,
    List.getElem?_eq_getElem hl, List.getElem_replicate]

/-- The other places begin with zero. -/
theorem getElem?_startRing_of_ge (length : ℕ) {p : ℕ} (hp : 10 ≤ p) (hp' : p < 18) :
    (startRing length)[p]? = some 0 := by
  obtain ⟨q, rfl⟩ : ∃ q, p = 9 + q + 1 := ⟨p - 10, by omega⟩
  have hq : q < (List.replicate 8 0).length := by
    rw [List.length_replicate]
    omega
  rw [startRing, List.getElem?_cons_succ, List.getElem?_append_right (by simp),
    List.length_replicate, Nat.add_sub_cancel_left, List.getElem?_eq_getElem hq,
    List.getElem_replicate]

/-- The ring after some items. -/
def ring (length : ℕ) (items : List ℕ) : List ℕ := writeRing (startRing length) 0 items

/-- One of the last 18 items is in its place. -/
theorem ring_written {length : ℕ} {items : List ℕ} {t : ℕ} (hlt : t < items.length)
    (hrecent : items.length ≤ t + 18) : (ring length items)[t % 18]? = items[t]? := by
  have hcell := getElem?_writeRing (startRing length) 0 items (Nat.zero_le t) (by omega)
    (by rw [length_startRing]; omega)
  rw [length_startRing, Nat.sub_zero] at hcell
  exact hcell

/-- A place that is not reached has what it began with. -/
theorem ring_unwritten {length : ℕ} {items : List ℕ} {p : ℕ} (hle : items.length ≤ p)
    (hp : p < 18) : (ring length items)[p]? = (startRing length)[p]? := by
  apply getElem?_writeRing_of_ne
  intro t _ hlt
  rw [length_startRing, Nat.mod_eq_of_lt (by omega)]
  omega

/-- Behind the last character the offset is the length. -/
theorem offset_of_length_le {cs : List Character} {k : ℕ} (h : cs.length ≤ k) :
    offset cs k = (flat cs).length := by
  rw [offset, List.take_of_length_le h]

/-- The end of a prefix is in the ring when the prefixes are filled. -/
theorem ring_prefix (cs : List Character) {k : ℕ} (hk : 1 ≤ k) (hk' : k ≤ 9) :
    (ring (flat cs).length ((starts 0 cs).take 10)).getD k 0 = offset cs k := by
  rw [List.getD_eq_getElem?_getD]
  rcases Nat.lt_or_ge k cs.length with hlt | hge
  · have hcell := @ring_written (flat cs).length ((starts 0 cs).take 10) k
      (by simp only [List.length_take, length_starts]; omega)
      (by simp only [List.length_take, length_starts]; omega)
    rw [Nat.mod_eq_of_lt (by omega), List.getElem?_take_of_lt (by omega),
      getElem?_starts 0 hlt] at hcell
    rw [hcell, Option.getD_some, Nat.zero_add]
  · rw [ring_unwritten (by simp; omega) (by omega), getElem?_startRing_of_le _ hk hk',
      offset_of_length_le hge, Option.getD_some]

/-- The start of a suffix is in the ring at the end of the form. -/
theorem ring_suffix {cs : List Character} (hne : cs ≠ []) {k : ℕ} (hk : 1 ≤ k) (hk' : k ≤ 9) :
    (ring (flat cs).length (starts 0 cs)).getD ((cs.length + 18 - k) % 18) 0 =
      offset cs (cs.length - k) := by
  have hpos := List.length_pos_iff.mpr hne
  rw [List.getD_eq_getElem?_getD]
  rcases Nat.lt_or_ge cs.length k with hlt | hge
  · rw [Nat.mod_eq_of_lt (by omega), ring_unwritten (by rw [length_starts]; omega) (by omega),
      getElem?_startRing_of_ge _ (by omega) (by omega), Nat.sub_eq_zero_of_le hlt.le]
    rfl
  · have hmod : (cs.length + 18 - k) % 18 = (cs.length - k) % 18 := by omega
    rw [hmod, ring_written (by simp; omega) (by simp; omega), getElem?_starts 0 (by omega),
      Option.getD_some, Nat.zero_add]

/-! ### Prefixes and suffixes -/

/-- The bytes before a character are those of the characters before it. -/
theorem take_offset (cs : List Character) (k : ℕ) :
    (flat cs).take (offset cs k) = flat (cs.take k) := by
  simpa [slice, offset] using slice_offset cs (Nat.zero_le k)

/-- A nonempty form has a character. -/
theorem chars_ne_nil (hne : form ≠ []) : Utf8.chars form ≠ [] := by
  intro hempty
  have hflat := Utf8.flat_chars form
  rw [hempty] at hflat
  exact hne hflat.symm

/-- The values of the prefixes of a form. -/
theorem prefixes_run_start (hne : form ≠ []) {k : ℕ} (hk : 1 ≤ k) (hk' : k ≤ 9) :
    ((Scan.start form).run classes form (Utf8.chars form)).prefixes[k - 1]? =
      some (.lookup (mapPrefix k) (flat ((Utf8.chars form).take k))) := by
  have hprefixes := Scan.prefixes_run classes form (chars_ne_nil form hne) (Scan.start form) rfl
    (Nat.zero_lt_succ 9)
  have hring := ring_prefix (Utf8.chars form) hk hk'
  rw [Utf8.flat_chars] at hring
  obtain ⟨l, rfl⟩ : ∃ l, k = l + 1 := ⟨k - 1, by omega⟩
  rw [hprefixes, prefixValues, List.getElem?_map, Nat.add_sub_cancel,
    List.getElem?_range (by omega), Option.map_some, ← take_offset, Utf8.flat_chars, ← hring]
  rfl

/-- The values of the suffixes of a form. -/
theorem suffixValues_run_start (hne : form ≠ []) {k : ℕ} (hk : 1 ≤ k) (hk' : k ≤ 9) :
    (suffixValues form ((Scan.start form).run classes form (Utf8.chars form)))[k - 1]? =
      some (.lookup (mapSuffix k)
        (flat ((Utf8.chars form).drop ((Utf8.chars form).length - k)))) := by
  obtain ⟨hindex, hposition, hindices⟩ :=
    Scan.run_spec classes form (Utf8.chars form) (Scan.start form) rfl
  have hring := ring_suffix (chars_ne_nil form hne) hk hk'
  rw [Utf8.flat_chars] at hring
  have hstart : ((Scan.start form).run classes form (Utf8.chars form)).indices.getD
      ((((Scan.start form).run classes form (Utf8.chars form)).index + 18 - k) % 18) 0 =
        offset (Utf8.chars form) ((Utf8.chars form).length - k) := by
    rw [hindex, hindices, ← hring]
    simp only [Scan.start, Nat.zero_add]
    rfl
  have hend : ((Scan.start form).run classes form (Utf8.chars form)).position = form.length := by
    rw [hposition, Utf8.flat_chars]
    exact Nat.zero_add _
  have hdrop := drop_offset (Utf8.chars form) ((Utf8.chars form).length - k)
  rw [Utf8.flat_chars] at hdrop
  obtain ⟨l, rfl⟩ : ∃ l, k = l + 1 := ⟨k - 1, by omega⟩
  rw [suffixValues, List.getElem?_map, Nat.add_sub_cancel, List.getElem?_range (by omega),
    Option.map_some, hstart, hend, ← hdrop]
  simp only [List.take_of_length_le (List.length_drop ..).le]

/-- A form that is scanned has values when its characters can be counted. -/
theorem orthographicValues_eq (hne : form ≠ []) {analyses : ℕ} (hanalyses : analyses ≠ 1) :
    orthographicValues classes form analyses =
      if (Utf8.chars form).length + 18 < 2 ^ 31 then
        some (foundValues ((Scan.start form).run classes form (Utf8.chars form)) ++
          ((Scan.start form).run classes form (Utf8.chars form)).prefixes ++
            suffixValues form ((Scan.start form).run classes form (Utf8.chars form)))
      else none := by
  obtain ⟨hindex, -, -⟩ := Scan.run_spec classes form (Utf8.chars form) (Scan.start form) rfl
  have hcount : ((Scan.start form).run classes form (Utf8.chars form)).index =
      (Utf8.chars form).length := hindex.trans (Nat.zero_add _)
  simp only [orthographicValues, if_neg hanalyses, if_neg hne, hcount]

/-- The places of the prefixes and the suffixes among the values of a form. -/
theorem orthographicValues_spec (hne : form ≠ []) {analyses : ℕ} (hanalyses : analyses ≠ 1)
    {values : List FeatureValue} (h : orthographicValues classes form analyses = some values)
    {k : ℕ} (hk : 1 ≤ k) (hk' : k ≤ 9) :
    values[k + 2]? = some (.lookup (mapPrefix k) (flat ((Utf8.chars form).take k))) ∧
      values[k + 11]? = some (.lookup (mapSuffix k)
        (flat ((Utf8.chars form).drop ((Utf8.chars form).length - k)))) := by
  have hnine : ((Scan.start form).run classes form (Utf8.chars form)).prefixes.length = 9 := by
    rw [Scan.prefixes_run classes form (chars_ne_nil form hne) (Scan.start form) rfl
      (Nat.zero_lt_succ 9), prefixValues, List.length_map, List.length_range]
  have hthree : (foundValues ((Scan.start form).run classes form (Utf8.chars form))).length = 3 := rfl
  rw [orthographicValues_eq classes form hne hanalyses] at h
  split_ifs at h
  obtain rfl := Option.some.inj h
  constructor
  · rw [← prefixes_run_start classes form hne hk hk', List.getElem?_append_left (by
      rw [List.length_append]; omega), List.getElem?_append_right (by omega), hthree]
    rfl
  · rw [← suffixValues_run_start classes form hne hk hk',
      List.getElem?_append_right (by rw [List.length_append]; omega)]
    congr 1
    rw [List.length_append, hthree, hnine]
    omega

/-- The characters of a form that is scanned can be counted. -/
def Counted (form : Bytes) (analyses : ℕ) : Prop :=
  form ≠ [] → analyses ≠ 1 → (Utf8.chars form).length + 18 < 2 ^ 31

/-- A form has values exactly when its characters can be counted, if it is scanned. -/
theorem exists_orthographicValues (analyses : ℕ) :
    (∃ values, orthographicValues classes form analyses = some values) ↔
      Counted form analyses := by
  by_cases hone : analyses = 1
  · exact iff_of_true ⟨_, if_pos hone⟩ fun _ hne => absurd hone hne
  by_cases hempty : form = []
  · rw [orthographicValues, if_neg hone, if_pos hempty]
    exact iff_of_true ⟨_, rfl⟩ fun hne => absurd hempty hne
  rw [orthographicValues_eq classes form hempty hone]
  constructor
  · rintro ⟨values, hvalues⟩ _ _
    by_contra hlong
    rw [if_neg hlong] at hvalues
    cases hvalues
  · exact fun hcounted => ⟨_, if_pos (hcounted hempty hone)⟩

variable {form}

/-- The values of a form of a sentence. -/
theorem perForm_computeFrom {sentence : List (Bytes × List TaggedLemma)} {i : ℕ}
    {analyses : List TaggedLemma} {result : FeatureValues FeatureValue × FollowingVerb}
    (hresult : computeFrom classes sentence = some result)
    (h : sentence[i]? = some (form, analyses)) :
    ∃ formValue tag verb values, result.1.perForm[i]? = some ([formValue, tag, verb] ++ values) ∧
      orthographicValues classes form analyses.length = some values := by
  induction sentence generalizing i result with
  | nil => cases h
  | cons first sentence ih =>
    rw [computeFrom] at hresult
    simp only [Option.bind_eq_bind, Option.bind_eq_some_iff, Option.pure_def,
      Option.some.injEq] at hresult
    obtain ⟨rest, hrest, orthographic, horthographic, rfl⟩ := hresult
    cases i with
    | zero =>
      obtain rfl := Option.some.inj h
      exact ⟨_, _, _, orthographic, rfl, horthographic⟩
    | succ i =>
      obtain ⟨formValue, tag, verb, values, hvalues⟩ := ih hrest h
      exact ⟨formValue, tag, verb, values, hvalues⟩

/-- The features of a sentence are computed exactly when the characters of every form that is
scanned can be counted. -/
theorem exists_computeFrom (sentence : List (Bytes × List TaggedLemma)) :
    (∃ result, computeFrom classes sentence = some result) ↔
      ∀ p ∈ sentence, Counted p.1 p.2.length := by
  induction sentence with
  | nil => exact iff_of_true ⟨_, rfl⟩ (by simp)
  | cons first sentence ih =>
    rw [List.forall_mem_cons, ← ih, ← exists_orthographicValues classes, computeFrom]
    simp only [Option.bind_eq_bind, Option.bind_eq_some_iff, Option.pure_def, Option.some.injEq]
    constructor
    · rintro ⟨_, rest, hrest, orthographic, horthographic, -⟩
      exact ⟨⟨orthographic, horthographic⟩, rest, hrest⟩
    · rintro ⟨⟨orthographic, horthographic⟩, rest, hrest⟩
      exact ⟨_, rest, hrest, orthographic, horthographic, rfl⟩

/-- The prefixes of a form are looked up with its first characters and the suffixes with its
last ones, or with the whole form if it is shorter. -/
def LooksUp (form : Bytes) (values : List FeatureValue) : Prop :=
  ∀ k, 1 ≤ k → k ≤ 9 →
    values[prefixFeature k]? =
        some (.lookup (mapPrefix k) ((wholeCharacters form).take k).flatten) ∧
      values[suffixFeature k]? =
        some (.lookup (mapSuffix k)
          ((wholeCharacters form).drop ((wholeCharacters form).length - k)).flatten)

/-- The features are computed, and the prefixes and suffixes of every nonempty valid form with
other than one analysis are looked up with the right characters. -/
def AffixesLookedUp (classes : FormClasses) (forms : List Bytes)
    (analyses : List (List TaggedLemma)) : Prop :=
  ∃ features, computeFeatures classes forms analyses = some features ∧
    ∀ (i : ℕ) form formAnalyses, forms[i]? = some form → analyses[i]? = some formAnalyses →
      form ≠ [] → Utf8.valid form = true → formAnalyses.length ≠ 1 →
        ∃ values, features.perForm[i]? = some values ∧ LooksUp form values

/-- The prefixes and the suffixes take the right characters exactly when the characters of every
form that is scanned can be counted. -/
theorem affixesLookedUp_iff (forms : List Bytes) (analyses : List (List TaggedLemma)) :
    AffixesLookedUp classes forms analyses ↔
      ∀ p ∈ forms.zip analyses, Counted p.1 p.2.length := by
  rw [← exists_computeFrom classes]
  constructor
  · rintro ⟨features, hfeatures, -⟩
    obtain ⟨result, hresult, -⟩ := Option.map_eq_some_iff.mp hfeatures
    exact ⟨result, hresult⟩
  · rintro ⟨result, hresult⟩
    refine ⟨result.1, by rw [computeFeatures, hresult]; rfl, ?_⟩
    intro i form formAnalyses hform hanalyses hne hvalid hcount
    have hzip : (forms.zip analyses)[i]? = some (form, formAnalyses) := by
      rw [List.getElem?_zip_eq_some]
      exact ⟨hform, hanalyses⟩
    obtain ⟨formValue, tag, verb, values, hvalues, hsome⟩ :=
      perForm_computeFrom classes hresult hzip
    refine ⟨_, hvalues, fun k hk hk' => ?_⟩
    obtain ⟨hbegin, hend⟩ := orthographicValues_spec classes form hne hcount hsome hk hk'
    constructor
    · have hplace : prefixFeature k = k + 2 + 3 := by
        rw [prefixFeature]
        omega
      rw [hplace, ← map_bytes_chars hvalid, ← List.map_take]
      exact hbegin
    · have hplace : suffixFeature k = k + 11 + 3 := by
        rw [suffixFeature]
        omega
      rw [hplace, ← map_bytes_chars hvalid, List.length_map, ← List.map_drop]
      exact hend

/-- A form of eleven characters, the tenth of which has two bytes. -/
theorem affixesLookedUp_eleven :
    AffixesLookedUp ⟨fun _ => false, fun _ => false, fun _ => false⟩
      [[97, 98, 99, 100, 101, 102, 103, 104, 105, 0xC5, 0xA1, 107]] [[]] := by
  refine (affixesLookedUp_iff _ _ _).mpr fun p hp _ _ => ?_
  obtain rfl := List.mem_singleton.mp hp
  decide

/-- A form of letters without analyses whose count overflows. -/
theorem not_affixesLookedUp_replicate (classes : FormClasses) {n : ℕ} (hn : 2 ^ 31 ≤ n) :
    ¬ AffixesLookedUp classes [List.replicate n 97] [[]] := by
  have hlength : ∀ n, (Utf8.chars (List.replicate n 97)).length = n := by
    intro n
    induction n with
    | zero => rfl
    | succ n ih =>
      rw [List.replicate_succ, chars_cons_of_ascii (by decide), List.length_cons, ih]
  have hne : List.replicate n (97 : Byte) ≠ [] := by
    intro hnil
    have hzero := congrArg List.length hnil
    rw [List.length_replicate, List.length_nil] at hzero
    omega
  rw [affixesLookedUp_iff]
  intro h
  have hcounted := h (List.replicate n 97, []) List.mem_cons_self hne (Nat.zero_ne_one)
  rw [hlength] at hcounted
  omega

/-- The characters of a form of 2^31 letters cannot be counted. -/
theorem not_affixesLookedUp_long :
    ¬ AffixesLookedUp ⟨fun _ => false, fun _ => false, fun _ => false⟩
      [List.replicate 2147483648 97] [[]] :=
  not_affixesLookedUp_replicate _ (by decide)

end ConlluFeatures

end UDPipe.Morphodita
