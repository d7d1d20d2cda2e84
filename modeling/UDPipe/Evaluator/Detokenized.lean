import UDPipe.Evaluator.EvaluationData
import UDPipe.InputFormat
import UDPipe.Surface

/-!
# Evaluating a tokenizer

The part of `evaluator::evaluate` in `model/evaluator.cpp` that compares a tokenizer
with gold sentences: the gold sentences are detokenized into paragraphs, which the
tokenizer reads one after the other. What it returns is compared only if both have
the same characters.
-/

namespace UDPipe.Evaluator

/-- The text of a gold sentence, detokenized. -/
def detokenized (gold : Sentence) : Bytes :=
  gold.surface.flatMap fun t =>
    t.token.form ++ if t.token.getSpaceAfter then [space] else []

/-- Add a gold sentence to `plain_text_paragraphs`, the last of which is kept apart. -/
def addGold (paragraphs : List Bytes × Bytes) (gold : Sentence) : List Bytes × Bytes :=
  if gold.getNewDoc || gold.getNewPar then
    (paragraphs.1 ++ [paragraphs.2 ++ [lf, lf]], detokenized gold)
  else (paragraphs.1, paragraphs.2 ++ detokenized gold)

/-- `plain_text_paragraphs` after all gold sentences. -/
def plainTextParagraphs (gold : List Sentence) : List Bytes :=
  let paragraphs := gold.foldl addGold ([], [])
  paragraphs.1 ++ [paragraphs.2]

/-- The loop over the paragraphs, which adds the sentences of the tokenizer to the data. -/
def tokenizeParagraphs {σ : Type} (reader : InputFormat σ) (tables : Unicode) :
    List Bytes → σ → EvaluationData → Comp (Except Bytes EvaluationData)
  | [], _, data => pure (.ok data)
  | text :: texts, t, data => do
    let (sentences, error, t) ← reader.readAll (reader.setText text t)
    if error = [] then
      tokenizeParagraphs reader tables texts t
        (sentences.foldl (EvaluationData.addSentence tables) data)
    else pure (.error error)

namespace EvaluationData

/-- Pushing a word adds no characters. -/
@[simp] theorem chars_pushWord (tables : Unicode) (start : ℕ) (isMultiword : Bool)
    (data : EvaluationData) (w : Word) :
    (data.pushWord tables start isMultiword w).chars = data.chars := rfl

/-- A word adds the characters of its form. -/
@[simp] theorem chars_addWord (tables : Unicode) (data : EvaluationData) (w : Word) :
    (data.addWord tables w).chars = data.chars ++ formChars w.form := rfl

/-- A multiword token adds the characters of its own form only. -/
@[simp] theorem chars_addMultiword (tables : Unicode) (data : EvaluationData) (form : Bytes)
    (covered : List Word) :
    (data.addMultiword tables form covered).chars = data.chars ++ formChars form := by
  rw [addMultiword_eq]
  rfl

/-- The surface tokens give the characters. -/
theorem chars_addTokens (tables : Unicode) (words : List Word) (i : ℕ) (covered : ℤ)
    (tokens : List MultiwordToken) (data : EvaluationData) :
    (addTokens tables words i covered tokens data).chars =
      data.chars ++ (surfaceFrom words i covered tokens).flatMap fun t => formChars t.token.form := by
  induction words generalizing i covered tokens data with
  | nil => cases tokens <;> simp [addTokens, surfaceFrom]
  | cons word words ih =>
    cases tokens with
    | nil =>
      simp only [addTokens, surfaceFrom]
      split
      · exact ih ..
      · rw [ih, chars_addWord, List.flatMap_cons, List.append_assoc]
    | cons token rest =>
      simp only [addTokens, surfaceFrom]
      split_ifs
      · exact ih ..
      · rw [ih, chars_addMultiword, List.flatMap_cons, List.append_assoc]
      · rw [ih, chars_addWord, List.flatMap_cons, List.append_assoc]

/-- The characters that sentences add. -/
theorem chars_foldl_addSentence (tables : Unicode) (sentences : List Sentence)
    (data : EvaluationData) :
    (sentences.foldl (addSentence tables) data).chars =
      data.chars ++ sentences.flatMap fun s => s.surface.flatMap fun t => formChars t.token.form := by
  induction sentences generalizing data with
  | nil => simp
  | cons s sentences ih =>
    have hone : (data.addSentence tables s).chars =
        data.chars ++ s.surface.flatMap fun t => formChars t.token.form := chars_addTokens ..
    rw [List.foldl_cons, ih, hone, List.flatMap_cons, List.append_assoc]

end EvaluationData

end UDPipe.Evaluator
