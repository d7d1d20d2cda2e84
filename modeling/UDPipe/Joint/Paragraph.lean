import UDPipe.Comments
import UDPipe.Library.Comp
import Mathlib.Data.Int.Cast.Basic

/-!
# Segmentation of a paragraph joint with parsing

`joint_with_parsing_tokenizer::parse_paragraph` of `model_morphodita_parsito.cpp`
puts the words of a paragraph together, finds the best segmentation of them by a
dynamic program over the positions between words, and cuts the words into new
sentences. The parser and its cost are a parameter, and costs are elements of
any type with the operations the program uses; `none` is `-∞`.
-/

namespace UDPipe.Joint

/-- The options of the tokenizer and the model it parses with. -/
structure Options (R : Type) where
  maxSentenceLen : ℤ
  changeBoundaryLogprob : R
  sentenceLogprob : R
  /-- Whether a cost is greater than `-∞`, to which a sum of doubles can overflow. -/
  aboveInfinity : R → Bool := fun _ => true
  /-- `model.parse`, which fills in the heads and returns the cost, or fails. -/
  parse : Sentence → Except Bytes (Sentence × R)

/-- `unsigned(max_sentence_len)`. -/
def Options.limit {R : Type} (opts : Options R) : ℕ := (opts.maxSentenceLen % 2 ^ 32).toNat

/-! ### Gathering the words -/

/-- The words of the paragraph, and which positions between words end a sentence
and a token there. -/
structure AllWords where
  words : List Word
  multiwordTokens : List MultiwordToken
  sentenceBoundary : List Bool
  tokenBoundary : List Bool
  deriving DecidableEq, Repr

/-- Before the first sentence only the root is there. -/
def AllWords.init : AllWords where
  words := Sentence.clear.words
  multiwordTokens := []
  sentenceBoundary := [true]
  tokenBoundary := [true]

/-- A multiword token after `offset` more words. -/
def shiftToken (offset : ℤ) (token : MultiwordToken) : MultiwordToken :=
  { token with idFirst := token.idFirst + offset, idLast := token.idLast + offset }

/-- The positions inside a multiword token are no token boundaries. -/
def forbidInside (tokenBoundary : List Bool) (token : MultiwordToken) : List Bool :=
  tokenBoundary.mapIdx fun i boundary => boundary && !(token.idFirst ≤ i && i < token.idLast)

/-- The words and multiword tokens of one more sentence. -/
def AllWords.addSentence (all : AllWords) (s : Sentence) : AllWords :=
  let offset : ℤ := all.words.length - 1
  let count := s.words.length - 1
  let tokens := s.multiwordTokens.map (shiftToken offset)
  { words := all.words ++ (s.words.drop 1).map fun word => { word with id := word.id + offset }
    multiwordTokens := all.multiwordTokens ++ tokens
    sentenceBoundary :=
      all.sentenceBoundary ++ (List.range' 1 count).map fun i => i + 1 == s.words.length
    tokenBoundary := tokens.foldl forbidInside (all.tokenBoundary ++ List.replicate count true) }

/-- The words and multiword tokens of the paragraph. -/
def gather (paragraph : List Sentence) : AllWords :=
  paragraph.foldl AllWords.addSentence AllWords.init

/-- Whether a token ends at this position. -/
def AllWords.isBoundary (all : AllWords) (position : ℕ) : Bool :=
  all.tokenBoundary.getD position false

/-! ### The dynamic program -/

/-- The best segmentations up to each position: their costs, and the lengths of
their last sentences. -/
structure Best (R : Type) where
  logprob : List (Option R)
  length : List ℕ

/-- Initially only the position before all words is reached. -/
def Best.init {R : Type} (zero : R) (size : ℕ) : Best R where
  logprob := (List.replicate size none).set 0 (some zero)
  length := List.replicate size 0

section Search

variable {R : Type} [Add R] [Mul R] [IntCast R] [LT R] [DecidableLT R]

/-- Whether a cost is greater than another one. -/
def Options.isAbove (opts : Options R) (cost : R) : Option R → Bool
  | none => opts.aboveInfinity cost
  | some old => decide (old < cost)

/-- Take the sentence from `start` to `stop` if it improves the best cost; after `-∞` no sum is
greater than another one. -/
def Options.improve (opts : Options R) (best : Best R) (start stop : ℕ) (cost : R) : Best R :=
  match best.logprob.getD (start - 1) none with
  | none => best
  | some before =>
    if opts.isAbove (before + cost) (best.logprob.getD (stop - 1) none) then
      { logprob := best.logprob.set (stop - 1) (some (before + cost))
        length := best.length.set (stop - 1) (stop - start) }
    else best

/-- The cost of a sentence with the costs of its boundaries. -/
def Options.totalCost (opts : Options R) (all : AllWords) (start stop : ℕ) (cost : R) : R :=
  let boundary (i : ℕ) : ℤ := if all.sentenceBoundary.getD i false then 1 else 0
  cost + (opts.sentenceLogprob +
    opts.changeBoundaryLogprob * ((2 - boundary (start - 1) - boundary (stop - 1) : ℤ) : R))

/-- The words but the root lose their links. -/
def clearLinks (s : Sentence) : Sentence :=
  { s with words := s.words.mapIdx fun i word =>
      if i = 0 then word else { word with head := -1, children := [] } }

/-- The sentence that begins with word `start`, with its word before `stop`. -/
def pushWord (all : AllWords) (start stop : ℕ) (s : Sentence) : Sentence :=
  { s with words := s.words ++ all.words[stop - 1]?.toList.map fun word =>
      { word with id := word.id - (start - 1 : ℕ) } }

/-- The inner loop: the sentences that begin with word `start`. -/
def Options.tryStops (opts : Options R) (all : AllWords) (start : ℕ) :
    List ℕ → Sentence → Best R → Except Bytes (Best R)
  | [], _, best => .ok best
  | stop :: stops, s, best =>
    let s := pushWord all start stop s
    if all.isBoundary (stop - 1) then
      match opts.parse (clearLinks s) with
      | .error error => .error error
      | .ok (s, cost) =>
        opts.tryStops all start stops s
          (opts.improve best start stop (opts.totalCost all start stop cost))
    else opts.tryStops all start stops s best

/-- The ends of the sentences that begin with word `start`, each with one more word. -/
def Options.stops (opts : Options R) (size start : ℕ) : List ℕ :=
  List.range' (start + 1) (min opts.limit (size - start))

/-- The outer loop: sentences begin where a token does. -/
def Options.tryStarts (opts : Options R) (all : AllWords) :
    List ℕ → Best R → Except Bytes (Best R)
  | [], best => .ok best
  | start :: starts, best =>
    if all.isBoundary (start - 1) then
      match opts.tryStops all start (opts.stops all.words.length start) Sentence.clear best with
      | .error error => .error error
      | .ok best => opts.tryStarts all starts best
    else opts.tryStarts all starts best

/-- The whole dynamic program. -/
def Options.search (opts : Options R) (all : AllWords) : Except Bytes (Best R) :=
  opts.tryStarts all (List.range' 1 (all.words.length - 1))
    (Best.init ((0 : ℤ) : R) all.words.length)

/-- One pass of the backtrace, from the sentence that ends before `stop`. -/
def Best.backStep (best : Best R) : ℕ × List ℕ → LoopStep (ℕ × List ℕ) (List ℕ)
  | (stop, lengths) =>
    if 1 < stop then
      let length := best.length.getD (stop - 1) 0
      .next (stop - length, length :: lengths)
    else .done lengths

/-- The lengths of the best sentences, found from the end. -/
def Best.backtrace (best : Best R) (size : ℕ) : Comp (List ℕ) :=
  Comp.loopOf best.backStep (size, [])

/-! ### The new sentences -/

/-- The sentences of these lengths, the first one beginning with word `first`. -/
def cutSentences (words : List Word) : List MultiwordToken → ℕ → List ℕ → List Sentence
  | _, _, [] => []
  | tokens, first, length :: lengths =>
    let next := first + length
    let offset : ℤ := first - 1
    let isHere (token : MultiwordToken) : Bool := 0 ≤ token.idFirst && token.idFirst < next
    let sentence : Sentence :=
      { words := Sentence.clear.words ++ ((words.drop first).take length).map fun word =>
          { word with id := word.id - offset, head := -1, children := [] }
        multiwordTokens := (tokens.takeWhile isHere).map (shiftToken (-offset)) }
    sentence :: cutSentences words (tokens.dropWhile isHere) next lengths

/-- The first sentence begins a paragraph, and the document if none has begun it. -/
def markFirst (newDocument : Bool) (documentId : Bytes) : List Sentence → List Sentence × Bool
  | [] => ([], newDocument)
  | s :: rest =>
    let s := if newDocument then s.setNewDoc true documentId else s
    (s.setNewPar true :: rest, false)

/-- `parse_paragraph`: the new sentences, and whether the document is still to begin. -/
def Options.parseParagraph (opts : Options R) (newDocument : Bool) (documentId : Bytes)
    (paragraph : List Sentence) : Comp (Except Bytes (List Sentence × Bool)) :=
  let all := gather paragraph
  match opts.search all with
  | .error error => pure (.error error)
  | .ok best => do
    let lengths ← best.backtrace all.words.length
    pure (.ok (markFirst newDocument documentId
      (cutSentences all.words all.multiwordTokens 1 lengths)))

end Search

end UDPipe.Joint
