import UDPipe.Morphodita.MorphoDictionary
import UDPipe.Morphodita.SpecialForms

/-!
# The generic morphology

`generic_morpho` of `morpho/generic_morpho.cpp` asks the dictionary for a form and its variants with
lowercase letters, then takes numbers, punctuation and symbols, and then asks the guesser.
-/

namespace UDPipe.Morphodita

/-! ### Casing -/

/-- What is asked of the Unicode tables. -/
structure CasingTables where
  /-- `category(chr) & unicode::Lut`. -/
  upperOrTitle : ℕ → Bool
  lowercase : ℕ → ℕ

/-- The variants `form_uclc` and `form_lc`, each empty if it is not needed. -/
def generateCasingVariants (tables : CasingTables) (form : Bytes) : Bytes × Bytes :=
  match Utf8.chars form with
  | [] => ([], [])
  | first :: rest =>
    let firstLut := tables.upperOrTitle first.code
    let restHasLut := rest.any fun c => tables.upperOrTitle c.code
    let lowercase := rest.flatMap fun c => Utf8.encode (tables.lowercase c.code)
    if firstLut && !restHasLut then
      ([], Utf8.encode (tables.lowercase first.code) ++ form.drop first.bytes.length)
    else if !firstLut && restHasLut then ([], Utf8.map tables.lowercase form)
    else if firstLut && restHasLut then
      (Utf8.encode first.code ++ lowercase, Utf8.encode (tables.lowercase first.code) ++ lowercase)
    else ([], [])

/-! ### The data -/

/-- The tags that `generic_morpho_encoder` is given. -/
structure GenericTags where
  unknown : Bytes
  special : SpecialTags
  deriving DecidableEq, Repr

/-- The class `generic_morpho`. -/
structure GenericMorpho where
  tags : GenericTags
  dictionary : MorphoDictionary
  statisticalGuesser : Option MorphoStatisticalGuesser
  deriving DecidableEq, Repr

/-- A string behind its length in one byte. -/
def nextString (data : Bytes) : Option (Bytes × Bytes) := do
  let (length, data) ← next1B data
  nextBytes length data

namespace GenericTags

/-- The tags in front of a dictionary. -/
def encode (tags : GenericTags) : Option Bytes := do
  let unknown ← encodeString tags.unknown
  let number ← encodeString tags.special.number
  let punctuation ← encodeString tags.special.punctuation
  let symbol ← encodeString tags.special.symbol
  return unknown ++ number ++ punctuation ++ symbol

/-- The tags at the beginning of `generic_morpho::load`. -/
def load (data : Bytes) : Option (GenericTags × Bytes) := do
  let (unknown, data) ← nextString data
  let (number, data) ← nextString data
  let (punctuation, data) ← nextString data
  let (symbol, data) ← nextString data
  return (⟨unknown, number, punctuation, symbol⟩, data)

end GenericTags

/-- The function `generic_morpho_encoder::encode`, before the compression. A text of the guesser is
given if its stream is good. -/
def encodeGenericMorpho (dictionary : Bytes) (maxSuffixLen : ℤ) (tags : GenericTags)
    (statisticalGuesser : Option Bytes) : Option Bytes := do
  let tags ← tags.encode
  let dictionary ← encodeDictionary genericLemmaAddinfo dictionary maxSuffixLen
  match statisticalGuesser with
  | none => return tags ++ dictionary ++ [0]
  | some text => do
    let guesser ← encodeGuesser text
    return tags ++ dictionary ++ [1] ++ guesser

namespace GenericMorpho

/-- The method `load`, behind the decompression. -/
def load (data : Bytes) : Option GenericMorpho := do
  let (tags, data) ← GenericTags.load data
  let (dictionary, data) ← MorphoDictionary.load data
  let (present, data) ← next1B data
  let (statisticalGuesser, data) ←
    if present ≠ 0 then (MorphoStatisticalGuesser.load data).map fun g => (some g.1, g.2)
    else some (none, data)
  if data = [] then return ⟨tags, dictionary, statisticalGuesser⟩ else none

/-! ### Analyzing and generating -/

/-- What the analysis was found by: `NO_GUESSER`, `GUESSER` or nothing. -/
inductive AnalyzedBy where
  | noGuesser
  | guesser
  | nothing
  deriving DecidableEq, Repr

/-- What the guesser gives for a form and its variants. With variants, no rule is used twice. -/
def guess (guesser : MorphoStatisticalGuesser) (form formUclc formLc : Bytes) :
    List (Bytes × Bytes) :=
  if formUclc = [] ∧ formLc = [] then (guesser.analyze form [] none).1
  else
    let (lemmas, used) := guesser.analyze form [] (some [])
    let (lemmas, used) :=
      if formUclc ≠ [] then guesser.analyze formUclc lemmas used else (lemmas, used)
    let (lemmas, _) := if formLc ≠ [] then guesser.analyze formLc lemmas used else (lemmas, used)
    lemmas

/-- The method `analyze`, for whether the guesser may be used. -/
def analyze (classes : SymbolClasses) (tables : CasingTables) (self : GenericMorpho)
    (form : Bytes) (guesser : Bool) : AnalyzedBy × List (Bytes × Bytes) :=
  let unknown := (AnalyzedBy.nothing, [(form, self.tags.unknown)])
  if form = [] then unknown
  else
    let (formUclc, formLc) := generateCasingVariants tables form
    let lemmas := self.dictionary.analyze genericLemmaAddinfo form ++
      (if formUclc ≠ [] then self.dictionary.analyze genericLemmaAddinfo formUclc else []) ++
      (if formLc ≠ [] then self.dictionary.analyze genericLemmaAddinfo formLc else [])
    if lemmas ≠ [] then (.noGuesser, lemmas)
    else
      match specialForm classes form with
      | some special => (.noGuesser, [(form, self.tags.special.tagOf special)])
      | none =>
        let lemmas := match guesser, self.statisticalGuesser with
          | true, some statisticalGuesser => guess statisticalGuesser form formUclc formLc
          | _, _ => []
        if lemmas ≠ [] then (.guesser, lemmas) else unknown

/-- The method `generate`. -/
def generate (self : GenericMorpho) (lem : Bytes) (wildcard : Bytes) :
    AnalyzedBy × List (Bytes × List (Bytes × Bytes)) :=
  if lem = [] then (.nothing, [])
  else
    let (matched, forms) := self.dictionary.generate genericLemmaAddinfo lem (.ofString wildcard)
    (if matched then .noGuesser else .nothing, forms)

end GenericMorpho

end UDPipe.Morphodita
