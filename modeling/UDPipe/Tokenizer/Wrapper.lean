import UDPipe.InputFormat
import UDPipe.Tokenizer.Splitter

/-!
# The tokenizer wrapper

`tokenizer/morphodita_tokenizer_wrapper.cpp` turns the tokens of an inner
tokenizer into sentences, with the white space around the tokens and their
ranges in MISC. The inner tokenizer is a parameter: it returns the ranges of the
tokens in characters, from which `unicode_tokenizer::next_sentence` makes forms.
String pieces are offsets into the text of the inner tokenizer. A sentence is made
as if the loops that escape white space end; `storeSpaces` runs them, and
`returns_storeSpaces` says when they do.
-/

namespace UDPipe.Tokenizer

open Utf8

/-- A `token_range`, in characters. -/
structure TokenRange where
  start : ℕ
  length : ℕ
  deriving DecidableEq, Repr

/-- The class `morphodita::tokenizer`: the tokens of the next sentence of its text;
`none` stands for the result false. -/
structure InnerTokenizer (σ : Type) where
  setText : Bytes → σ → σ
  nextSentence : σ → Option (List TokenRange) × σ

/-- A `string_piece` of a text, from a byte up to another one. -/
structure Piece where
  start : ℕ
  stop : ℕ
  deriving DecidableEq, Repr

/-- The bytes of a text from one offset to another. -/
def slice (text : Bytes) (start stop : ℕ) : Bytes := (text.drop start).take (stop - start)

/-- The bytes of a piece. -/
def Piece.text (block : Bytes) (piece : Piece) : Bytes := slice block piece.start piece.stop

/-- The form that `unicode_tokenizer::next_sentence` makes from a range. -/
def formOf (block : Bytes) (range : TokenRange) : Piece where
  start := (flat ((chars block).take range.start)).length
  stop := (flat ((chars block).take (range.start + range.length))).length

/-! ### Forms -/

/-- The bytes that are trimmed and normalised. -/
def isBlank (c : Byte) : Bool := c == cr || c == lf || c == tab || c == space

/-- A form without the blanks around it. -/
def trimForm (block : Bytes) (form : Piece) : Piece where
  start := form.start + ((form.text block).takeWhile isBlank).length
  stop := form.stop - (((form.text block).dropWhile isBlank).reverse.takeWhile isBlank).length

/-- The forms that are left after trimming, without the empty ones. -/
def trimForms (block : Bytes) (forms : List Piece) : List Piece :=
  (forms.map (trimForm block)).filter fun form => form.start < form.stop

/-- A line end or a tab becomes a space. -/
def toSpace (c : Byte) : Byte := if c == cr || c == lf || c == tab then space else c

/-- The form of the token: every run of blanks becomes a single space. -/
def normalizeForm (form : Bytes) : Bytes :=
  form.foldl (fun out c =>
    if toSpace c != space || out.getLast? != some space then out ++ [toSpace c] else out) []

/-! ### The state and the loop over the forms -/

/-- The options of the wrapper. -/
structure Options where
  tables : Unicode
  splitter : Option MultiwordSplitter
  normalizedSpaces : Bool
  tokenRanges : Bool

/-- The fields of the wrapper. Its `text` is the inner tokenizer's text from
`position` on; the vectors `forms` and `tokens` are written before they are read. -/
structure State (σ : Type) where
  inner : σ
  newDocument : Bool := true
  documentId : Bytes := []
  preceedingNewlines : ℕ := 2
  sentenceId : ℕ := 1
  block : Bytes := []
  position : ℕ := 0
  unicodeOffset : ℕ := 0
  textUnicodeLength : ℕ := 0
  savedSpaces : Bytes := []
  tok : Token := {}

/-- What the loop over the forms changes. -/
structure Progress where
  sentence : Sentence
  tok : Token
  savedSpaces : Bytes
  position : ℕ
  preceedingNewlines : ℕ
  followingNewlines : ℕ
  deriving DecidableEq, Repr

namespace Options

variable (opts : Options)

/-- The white space at the beginning of a text. -/
def leadingSpaces (text : Bytes) : List Character :=
  (chars text).takeWhile fun c => opts.tables.isSpace c.code

/-- The white space that follows a form, up to the next form or to other characters. -/
def spacesAfter (block : Bytes) (form : Piece) (next : Option Piece) : Bytes :=
  match next with
  | none => flat (opts.leadingSpaces (block.drop form.stop))
  | some next => slice block form.stop next.start

/-- Store the white space of a token. -/
def storeSpaces (tok : Token) (block : Bytes) (form : Piece) (next : Option Piece)
    (before after : Bytes) : Comp Token :=
  if opts.normalizedSpaces then
    pure <| tok.setSpaceAfter <|
      match next with
      | none => after != []
      | some next => form.stop < next.start
  else do
    let tok ← tok.setSpacesBefore before
    let tok ← tok.setSpacesInToken
      (if tok.form.length != form.stop - form.start then form.text block else [])
    tok.setSpacesAfter after

/-- What storing the white space leaves when its loops end. -/
def setSpaces (tok : Token) (block : Bytes) (form : Piece) (next : Option Piece)
    (before after : Bytes) : Token :=
  if opts.normalizedSpaces then
    tok.setSpaceAfter <|
      match next with
      | none => after != []
      | some next => form.stop < next.start
  else
    let tok := tok.withSpacesBefore before
    let inToken := if tok.form.length != form.stop - form.start then form.text block else []
    (tok.withSpacesInToken inToken).withSpacesAfter after

/-- Store the range of a token if requested. -/
def setRange (tok : Token) (unicodeOffset : ℕ) (range : Option TokenRange) : Token :=
  if opts.tokenRanges then
    tok.setTokenRange <| range.map fun r =>
      (unicodeOffset + r.start, unicodeOffset + r.start + r.length)
  else tok

/-- Append a token to the sentence, split if there is a splitter. -/
def appendTo (s : Sentence) (tok : Token) : Sentence :=
  match opts.splitter with
  | some splitter => splitter.appendToken tok.form tok.misc s
  | none => s.addWord tok.form fun word => { word with misc := tok.misc }

/-- One pass of the loop over the forms. -/
def addForm (block : Bytes) (unicodeOffset : ℕ) (first : Bool) (form : Piece)
    (next : Option Piece) (range : Option TokenRange) (st : Progress) : Progress :=
  let before := if first then st.savedSpaces ++ slice block st.position form.start else []
  let after := opts.spacesAfter block form next
  let tok := { st.tok with form := normalizeForm (form.text block) }
  let tok := opts.setSpaces tok block form next before after
  let tok := opts.setRange tok unicodeOffset range
  { sentence := opts.appendTo st.sentence tok
    tok
    savedSpaces := []
    position := if next.isNone then form.stop + after.length else st.position
    preceedingNewlines := (st.preceedingNewlines + before.count lf) % unsignedValues
    followingNewlines :=
      if next.isNone then (st.followingNewlines + after.count lf) % unsignedValues
      else st.followingNewlines }

/-- The loop over the forms; the ranges are taken one for each form. -/
def addForms (block : Bytes) (unicodeOffset : ℕ) :
    Bool → List Piece → List TokenRange → Progress → Progress
  | _, [], _, st => st
  | first, form :: forms, ranges, st =>
    addForms block unicodeOffset false forms ranges.tail
      (opts.addForm block unicodeOffset first form forms.head? ranges.head? st)

/-- The comments of a sentence. -/
def addComments (s : Sentence) (newDocument : Bool) (documentId : Bytes)
    (preceedingNewlines sentenceId : ℕ) : Sentence :=
  let s := if newDocument then s.setNewDoc true documentId else s
  let s := if 2 ≤ preceedingNewlines then s.setNewPar true else s
  let s := s.setSentId (natToString sentenceId)
  { s with comments := s.comments ++ [bytes "# text = " ++ s.surfaceText] }

/-! ### The operations -/

variable {σ : Type} (inner : InnerTokenizer σ)

/-- `set_text`. -/
def setText (text : Bytes) (w : State σ) : State σ :=
  let spaces := opts.leadingSpaces text
  let block := text.drop (flat spaces).length
  { w with
    inner := inner.setText block w.inner
    block
    position := 0
    unicodeOffset := w.unicodeOffset + spaces.length + w.textUnicodeLength
    textUnicodeLength := (chars block).length
    savedSpaces := w.savedSpaces ++ flat spaces }

/-- `reset_document`. -/
def resetDocument (id : Bytes) (w : State σ) : State σ :=
  let w := opts.setText inner []
    { w with newDocument := true, documentId := id, preceedingNewlines := 2, sentenceId := 1 }
  { w with unicodeOffset := 0, textUnicodeLength := 0, savedSpaces := [] }

end Options

section NextSentence

variable {σ : Type} (inner : InnerTokenizer σ)

/-- Take sentences of the inner tokenizer until one has a form that is not empty. -/
def nextForms (block : Bytes) (s : σ) : Comp (Option (List Piece × List TokenRange) × σ) :=
  Comp.loopOf (fun s =>
    match inner.nextSentence s with
    | (none, s) => .done (none, s)
    | (some ranges, s) =>
      let forms := trimForms block (ranges.map (formOf block))
      if forms = [] then .next s else .done (some (forms, ranges), s)) s

/-- The sentence made of the forms, and the state after it. -/
def Options.makeSentence (opts : Options) (w : State σ) (forms : List Piece)
    (ranges : List TokenRange) : Sentence × State σ :=
  let st := opts.addForms w.block w.unicodeOffset true forms ranges
    { sentence := Sentence.clear
      tok := w.tok
      savedSpaces := w.savedSpaces
      position := w.position
      preceedingNewlines := w.preceedingNewlines
      followingNewlines := 0 }
  (addComments st.sentence w.newDocument w.documentId st.preceedingNewlines w.sentenceId,
    { w with
      newDocument := false
      preceedingNewlines := st.followingNewlines
      sentenceId := (w.sentenceId + 1) % unsignedValues
      position := st.position
      savedSpaces := st.savedSpaces
      tok := st.tok })

/-- Save the unused part of the text. -/
def saveRest (w : State σ) : State σ :=
  { w with
    savedSpaces := w.savedSpaces ++ w.block.drop w.position
    position := w.block.length }

/-- `next_sentence`, when the loops that escape white space end. -/
def Options.nextSentence (opts : Options) (w : State σ) : Comp (NextSentence (State σ)) := do
  let (found, s) ← nextForms inner w.block w.inner
  let w := { w with inner := s }
  match found with
  | none => pure ⟨false, Sentence.clear, [], saveRest w⟩
  | some (forms, ranges) =>
    let (sentence, w) := opts.makeSentence w forms ranges
    pure ⟨true, sentence, [], w⟩

/-- The class `morphodita_tokenizer_wrapper`. -/
def wrapper (opts : Options) : InputFormat (State σ) where
  readBlock := getpara
  resetDocument := opts.resetDocument inner
  setText := opts.setText inner
  nextSentence := opts.nextSentence inner

end NextSentence

end UDPipe.Tokenizer
