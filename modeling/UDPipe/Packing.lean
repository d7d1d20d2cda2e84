import UDPipe.Morphodita.FeatureSequences
import UDPipe.Sentence
import UDPipe.Tokenizer.Utf8

/-!
# Tags and lemmas of a tagging model

A tagging model knows one tag and one lemma of a word. The trainer
`trainer_morphodita_parsito.cpp` packs the UPOS tag, the language tag and the features in
one tag, with a separator that the tags do not contain, and writes some lemmas relatively
to the form. The model `model_morphodita_parsito.cpp` normalizes forms and lemmas, and
takes the tag and the lemma of an analysis apart.
-/

namespace UDPipe.Tagging

open Morphodita (TaggedLemma)

/-- The mark of what is relative to the form. -/
abbrev tilde : Byte := 126

/-! ### Normalization -/

/-- `model_morphodita_parsito::VERSION_LATEST`. -/
def versionLatest : ℕ := 3

/-- What `normalize_form` makes of a character; some Arabic characters are dropped. -/
def normalizeCode (version code : ℕ) : Option ℕ :=
  if code = 0x640 ∨ (0x64B ≤ code ∧ code ≤ 0x657) ∨ code = 0x670 then none
  else if code = 0x622 then some 0x627
  else if code = 0x623 then some 0x627
  else if code = 0x624 then some 0x648
  else if code = 0x625 then some 0x627
  else if code = 0x626 then some 0x64A
  else if code = 0x671 then some 0x627
  else if code = 0x6A9 then some 0x643
  else if code = 0x6AA then some 0x643
  else if code = 0x6CC then some 0x64A
  else if code = 32 ∧ version = 2 then some 1
  else if code = 32 ∧ 3 ≤ version then some 0xA0
  else some code

/-- `model_morphodita_parsito::normalize_form`, which does not remove everything. -/
def normalizeForm (version : ℕ) (form : Bytes) : Bytes :=
  if version ≤ 1 then form
  else
    let codes := (Utf8.chars form).map Character.code
    let output := (codes.filterMap (normalizeCode version)).flatMap Utf8.encode
    if output = [] then (codes.take 1).flatMap Utf8.encode else output

/-- `model_morphodita_parsito::normalize_lemma`. -/
def normalizeLemma (version : ℕ) (text : Bytes) : Bytes :=
  if version ≤ 2 then text
  else text.flatMap fun c => if c = space then Utf8.encode 0xA0 else [c]

/-! ### Packing -/

/-- `tag_separators`. -/
def tagSeparators : Bytes := bytes "~!@#$%^&*()/"

/-- The first separator that neither the UPOS tag nor the language tag contains. -/
def tagSeparator (w : Word) : Option Byte :=
  tagSeparators.find? fun c => !w.upostag.contains c && !w.xpostag.contains c

/-- `can_combine_tag`. -/
def canCombineTag (w : Word) : Except Bytes Unit :=
  match tagSeparator w with
  | some _ => .ok ()
  | none => .error
      (bytes "Cannot find tag separating character, UPOSTAG and XPOSTAG contain all of '" ++
        tagSeparators ++ bytes "'!")

/-- `combine_tag`; without a separator it takes the first one. -/
def combineTag (w : Word) (xpostag feats : Bool) : Bytes :=
  let separator := (tagSeparator w).getD tilde
  [separator] ++ w.upostag ++
    if xpostag || feats then
      [separator] ++ (if xpostag then w.xpostag else []) ++
        if feats then [separator] ++ w.feats else []
    else []

/-- `combine_lemma`, with the forms and lemmas of the latest version. -/
def combineLemma (w : Word) (useLemma : ℤ) (flatLemmas : List Bytes) : Bytes :=
  let form := normalizeForm versionLatest w.form
  let combined := normalizeLemma versionLatest w.lemma
  let isFlat := flatLemmas.contains w.lemma || flatLemmas.contains combined
  if useLemma = 0 then form
  else if useLemma = 1 then if isFlat then form else combined
  else if w.lemma = [] then bytes "~~" ++ form
  else if w.lemma = bytes "_" then bytes "~_~" ++ form
  else if isFlat then [tilde] ++ combined ++ [tilde] ++ form
  else combined

/-! ### Unpacking -/

/-- The text to the separator, or to the end, and what follows the separator. -/
def cut (separator : Byte) (text : Bytes) : Bytes × Bytes :=
  (text.takeWhile (· != separator), (text.dropWhile (· != separator)).drop 1)

/-- A lemma that matches `~replacement~normalized_form` is changed to the replacement. -/
def unescapeLemma (version : ℕ) (form text : Bytes) : Bytes :=
  match text with
  | [] => []
  | c :: rest =>
    if c = tilde ∧ tilde ∈ rest ∧ (cut tilde rest).2 = normalizeForm version form then
      (cut tilde rest).1
    else text

/-- The bytes of U+00A0 are replaced by a space. -/
def restoreNoBreakSpaces : Bytes → Bytes
  | [] => []
  | [c] => [c]
  | c :: d :: rest =>
    if c = 0xC2 ∧ d = 0xA0 then space :: restoreNoBreakSpaces rest
    else c :: restoreNoBreakSpaces (d :: rest)

/-- How spaces of a lemma are put back. -/
def restoreSpaces (version : ℕ) (text : Bytes) : Bytes :=
  if version = 2 then text.map fun c => if c = 1 then space else c
  else if 3 ≤ version then restoreNoBreakSpaces text
  else text

/-- The lemma of a word that `fill_word_analysis` fills; spaces are put back also in a
lemma that the word had. -/
def filledLemma (version : ℕ) (analysis : TaggedLemma) (useLemma : ℤ) (w : Word) : Bytes :=
  restoreSpaces version
    (if useLemma = 1 then analysis.lemmaString
      else if useLemma = 2 then unescapeLemma version w.form analysis.lemmaString
      else w.lemma)

/-- `model_morphodita_parsito::fill_word_analysis`. -/
def fillWordAnalysis (version : ℕ) (analysis : TaggedLemma) (raw upostag : Bool) (useLemma : ℤ)
    (xpostag feats : Bool) (w : Word) : Word :=
  if raw then
    { w with
      «lemma» := if useLemma ≠ 0 then analysis.lemmaString else w.lemma
      xpostag := if xpostag then analysis.tag else w.xpostag }
  else
    let separator := analysis.tag.headD 0
    let upos := cut separator (analysis.tag.drop 1)
    let xpos := cut separator upos.2
    { w with
      «lemma» := filledLemma version analysis useLemma w
      upostag := if upostag then upos.1 else w.upostag
      xpostag := if xpostag then xpos.1 else w.xpostag
      feats := if feats then xpos.2 else w.feats }

end UDPipe.Tagging
