import UDPipe.Evaluator.F1
import UDPipe.Surface
import UDPipe.Tokenizer.Gru
import UDPipe.Tokenizer.Utf8Encoding

/-!
# The training data of the tokenizer

`train_tokenizer` in `trainer/trainer_morphodita_parsito.cpp` writes the tokens of each sentence
one after the other, and `gru_tokenizer_network_trainer` gives the characters the outcomes that
the network is to answer. Its `evaluate` runs the tokenizer over the text of the heldout data and
compares the tokens and sentences by their starts and lengths.
-/

namespace UDPipe.Tokenizer

open Utf8 Gru Evaluator

/-- The struct `tokenized_sentence`. -/
structure TokenizedSentence where
  sentence : List ℕ
  tokens : List TokenRange
  deriving DecidableEq, Repr

namespace TokenizedSentence

/-- What `train_tokenizer` adds to a sentence for a word or a multiword token. -/
def addToken (s : TokenizedSentence) (tok : Token) : TokenizedSentence :=
  let codes := (charsToZero tok.form).map (·.code)
  { sentence := s.sentence ++ codes ++ if tok.getSpaceAfter then [32] else []
    tokens := s.tokens ++ [⟨s.sentence.length, codes.length⟩] }

/-- A sentence of the data, followed by a blank line if the next one begins a document or a
paragraph. -/
def ofSentence (s : Sentence) (next : Option Sentence) : TokenizedSentence :=
  let tokenized := (s.surface.map (·.token)).foldl addToken ⟨[], []⟩
  if next.any fun s => s.getNewDoc || s.getNewPar then
    { tokenized with sentence := tokenized.sentence ++ [10, 10] }
  else tokenized

/-- The loop over the sentences of the data. -/
def ofSentences : List Sentence → List TokenizedSentence
  | [] => []
  | s :: rest => ofSentence s rest.head? :: ofSentences rest

/-- The loop over the tokens that sets the outcomes of their last characters. -/
def setOutcomes : List TokenRange → List Outcome → List Outcome
  | [], outcomes => outcomes
  | r :: rest, outcomes =>
    setOutcomes rest (outcomes.set (r.start + r.length - 1)
      (if rest = [] then .endOfSentence else .endOfToken))

/-- The outcomes of the characters of a sentence, in `training_output`. -/
def outcomes (s : TokenizedSentence) : List Outcome :=
  setOutcomes s.tokens (List.replicate s.sentence.length .noSplit)

/-- The sentences that are used: those with a token. -/
def used (data : List TokenizedSentence) : List TokenizedSentence :=
  data.filter fun s => s.tokens ≠ []

/-- The text of the sentences, as in `training_input`. -/
def text (data : List TokenizedSentence) : List ℕ := (used data).flatMap sentence

/-- The outcome of each character of the text, as in `training_output`. -/
def outcomeAt (data : List TokenizedSentence) (i : ℕ) : Outcome :=
  ((used data).flatMap outcomes).getD i .noSplit

/-- The ranges of the tokens of each sentence within the text. -/
def rangesFrom : ℕ → List TokenizedSentence → List (List TokenRange)
  | _, [] => []
  | offset, s :: rest =>
    (s.tokens.map fun r => ⟨offset + r.start, r.length⟩) ::
      rangesFrom (offset + s.sentence.length) rest

/-- The ranges of the tokens of each sentence that is used. -/
def ranges (data : List TokenizedSentence) : List (List TokenRange) := rangesFrom 0 (used data)

end TokenizedSentence

open TokenizedSentence

/-- The range from the first to the last of the tokens of a sentence. -/
def sentenceRange (tokens : List TokenRange) : TokenRange :=
  let first := (tokens.head?.map (·.start)).getD 0
  let stop := (tokens.getLast?.map fun r => r.start + r.length).getD 0
  ⟨first, stop - first⟩

/-- `evaluate_f1` on ranges. -/
def evaluateRanges (system gold : List TokenRange) : F1Info :=
  evaluateF1 (system.map fun r => (r.start, r.length)) (gold.map fun r => (r.start, r.length))

/-- `evaluate`: the counts for tokens and for sentences. -/
def Gru.Options.evaluate (opts : Gru.Options) (heldout : List TokenizedSentence) :
    Comp (F1Info × F1Info) := do
  let (sentences, _) ← opts.sentences (setText ((text heldout).flatMap encode) {})
  return (evaluateRanges sentences.flatten (ranges heldout).flatten,
    evaluateRanges (sentences.map sentenceRange) ((ranges heldout).map sentenceRange))

end UDPipe.Tokenizer
