import UDPipe.Sentence
import UDPipe.Tokenizer.Utf8

/-!
# Evaluation data

`evaluator::evaluation_data` of `model/evaluator.cpp` collects what is compared
in an evaluation: the characters of the tokens without spaces, and sentences,
tokens, multiword tokens and words with the ranges of characters they take.
-/

namespace UDPipe.Evaluator

open Utf8

/-- `evaluation_data::word_data`; `stop` is the source's `end`. -/
structure WordData where
  start : ℕ
  stop : ℕ
  isMultiword : Bool
  w : Word
  deriving DecidableEq, Repr

/-- The universal part of a DEPREL, up to a colon. -/
def universalPart (deprel : Bytes) : Bytes := deprel.takeWhile (· != colon)

/-- The constructor of `word_data`, with absolute ids for words and heads. -/
def WordData.make (tables : Unicode) (start stop : ℕ) (id : ℤ) (isMultiword : Bool) (w : Word) :
    WordData where
  start
  stop
  isMultiword
  w := { w with
    id
    head := if w.head ≠ 0 then id + (w.head - w.id) else 0
    form := mapToZero tables.lowercase w.form
    deprel := universalPart w.deprel }

/-- The class `evaluation_data`. -/
structure EvaluationData where
  chars : List ℕ := []
  sentences : List (ℕ × ℕ) := []
  tokens : List (ℕ × ℕ) := []
  multiwords : List (ℕ × Bytes) := []
  words : List WordData := []
  deriving DecidableEq, Repr

/-- The characters of a form that are collected. -/
def formChars (form : Bytes) : List ℕ :=
  ((charsToZero form).map Character.code).filter (· != 32)

namespace EvaluationData

/-- Collect the characters of a token. -/
def addForm (data : EvaluationData) (form : Bytes) : EvaluationData :=
  { data with
    chars := data.chars ++ formChars form
    tokens := data.tokens ++
      [(data.chars.length, data.chars.length + (formChars form).length)] }

/-- Add a word that covers the characters from `start` on. -/
def pushWord (tables : Unicode) (start : ℕ) (isMultiword : Bool) (data : EvaluationData)
    (w : Word) : EvaluationData :=
  { data with words := data.words ++
      [.make tables start data.chars.length (data.words.length + 1) isMultiword w] }

/-- Add a surface token that is a word. -/
def addWord (tables : Unicode) (data : EvaluationData) (w : Word) : EvaluationData :=
  pushWord tables data.chars.length false (data.addForm w.form) w

/-- Add a multiword token with the words it covers. -/
def addMultiword (tables : Unicode) (data : EvaluationData) (form : Bytes) (covered : List Word) :
    EvaluationData :=
  let start := data.chars.length
  let data := data.addForm form
  let value := form ++ covered.flatMap fun w => space :: mapToZero tables.lowercase w.form
  covered.foldl (pushWord tables start true)
    { data with multiwords := data.multiwords ++ [(start, value)] }

/-- Add the surface tokens from word `i` on; the words up to `covered` belong to a
multiword token before. -/
def addTokens (tables : Unicode) :
    List Word → ℕ → ℤ → List MultiwordToken → EvaluationData → EvaluationData
  | [], _, _, _, data => data
  | word :: words, i, covered, tokens, data =>
    if i ≤ covered then addTokens tables words (i + 1) covered tokens data
    else
      match tokens with
      | [] => addTokens tables words (i + 1) covered [] (data.addWord tables word)
      | token :: rest =>
        if token.idFirst = i then
          addTokens tables words (i + 1) token.idLast rest <|
            data.addMultiword tables token.form
              ((word :: words).take (token.idLast + 1 - i).toNat)
        else addTokens tables words (i + 1) covered (token :: rest) (data.addWord tables word)

/-- `add_sentence`. -/
def addSentence (tables : Unicode) (data : EvaluationData) (s : Sentence) : EvaluationData :=
  let start := data.chars.length
  let data := addTokens tables (s.words.drop 1) 1 0 s.multiwordTokens data
  { data with sentences := data.sentences ++ [(start, data.chars.length)] }

/-- The data of several sentences. -/
def ofSentences (tables : Unicode) (sentences : List Sentence) : EvaluationData :=
  sentences.foldl (addSentence tables) {}

/-- Only the words change while the words of a multiword token are added. -/
theorem foldl_pushWord_eq (tables : Unicode) (start : ℕ) (covered : List Word)
    (data : EvaluationData) :
    covered.foldl (pushWord tables start true) data =
      { data with words := (covered.foldl (pushWord tables start true) data).words } := by
  induction covered generalizing data with
  | nil => rfl
  | cons w covered ih => exact ih (data.pushWord tables start true w)

/-- What each word of a multiword token keeps holds after all of them. -/
theorem foldl_pushWord_induction {tables : Unicode} {start : ℕ} {motive : EvaluationData → Prop}
    (covered : List Word) {data : EvaluationData}
    (push : ∀ data' w, data'.chars = data.chars → motive data' →
      motive (data'.pushWord tables start true w))
    (hdata : motive data) : motive (covered.foldl (pushWord tables start true) data) := by
  induction covered generalizing data with
  | nil => exact hdata
  | cons w covered ih => exact ih (fun data' => push data') (push data w rfl hdata)

/-- What a multiword token adds besides its words. -/
theorem addMultiword_eq (tables : Unicode) (data : EvaluationData) (form : Bytes)
    (covered : List Word) :
    data.addMultiword tables form covered =
      { data.addForm form with
        multiwords := data.multiwords ++ [(data.chars.length,
          form ++ covered.flatMap fun w => space :: mapToZero tables.lowercase w.form)]
        words := (data.addMultiword tables form covered).words } :=
  foldl_pushWord_eq ..

end EvaluationData

end UDPipe.Evaluator
