import UDPipe.Evaluator.AlignmentRuns
import UDPipe.Evaluator.Detokenized

/-!
# Spans of tokens and sentences

The tokens of evaluation data, and its sentences, follow each other without gaps: each one
starts where the one before ends.
-/

namespace UDPipe.Evaluator

/-- Spans of the given sizes, each starting where the one before ends. -/
def spans (start : ℕ) : List ℕ → List (ℕ × ℕ)
  | [] => []
  | size :: sizes => (start, start + size) :: spans (start + size) sizes

/-- More spans start where the others end. -/
theorem spans_append (start : ℕ) (sizes more : List ℕ) :
    spans start (sizes ++ more) = spans start sizes ++ spans (start + sizes.sum) more := by
  induction sizes generalizing start with
  | nil => simp [spans]
  | cons size sizes ih => simp [spans, ih, Nat.add_assoc]

/-- A span has the size of its token. -/
theorem mem_spans {start : ℕ} {sizes : List ℕ} {span : ℕ × ℕ} (h : span ∈ spans start sizes) :
    ∃ size ∈ sizes, span.2 = span.1 + size := by
  induction sizes generalizing start with
  | nil => cases h
  | cons size sizes ih =>
    rcases List.mem_cons.mp h with rfl | h
    · exact ⟨size, List.mem_cons_self, rfl⟩
    · obtain ⟨size', hmem, heq⟩ := ih h
      exact ⟨size', List.mem_cons_of_mem _ hmem, heq⟩

/-- The numbers of the characters of surface tokens. -/
def tokenSizes (surface : List SurfaceToken) : List ℕ :=
  surface.map fun t => (formChars t.token.form).length

/-- The sizes of the tokens add up to the characters of their forms. -/
theorem sum_tokenSizes (surface : List SurfaceToken) :
    (tokenSizes surface).sum = (surface.flatMap fun t => formChars t.token.form).length := by
  rw [List.length_flatMap]
  rfl

namespace EvaluationData

variable (tables : Unicode)

/-- A word adds its token. -/
theorem tokens_addWord (data : EvaluationData) (w : Word) :
    (data.addWord tables w).tokens = data.tokens ++
      [(data.chars.length, data.chars.length + (formChars w.form).length)] := rfl

/-- A multiword token adds its own token only. -/
theorem tokens_addMultiword (data : EvaluationData) (form : Bytes) (covered : List Word) :
    (data.addMultiword tables form covered).tokens = data.tokens ++
      [(data.chars.length, data.chars.length + (formChars form).length)] := by
  rw [addMultiword_eq]
  rfl

/-- A surface token before others. -/
theorem tokens_append_spans (tokens : List (ℕ × ℕ)) (start : ℕ) (t : SurfaceToken)
    (surface : List SurfaceToken) :
    tokens ++ [(start, start + (formChars t.token.form).length)] ++
        spans (start + (formChars t.token.form).length) (tokenSizes surface) =
      tokens ++ spans start (tokenSizes (t :: surface)) := by
  have hsizes : tokenSizes (t :: surface) =
      (formChars t.token.form).length :: tokenSizes surface := rfl
  rw [hsizes, spans, List.append_assoc, List.singleton_append]

/-- The surface tokens give the tokens. -/
theorem tokens_addTokens (words : List Word) (i : ℕ) (covered : ℤ) (tokens : List MultiwordToken)
    (data : EvaluationData) :
    (addTokens tables words i covered tokens data).tokens = data.tokens ++
      spans data.chars.length (tokenSizes (surfaceFrom words i covered tokens)) := by
  induction words generalizing i covered tokens data with
  | nil => cases tokens <;> simp [addTokens, surfaceFrom, tokenSizes, spans]
  | cons word words ih =>
    cases tokens with
    | nil =>
      simp only [addTokens, surfaceFrom]
      split
      · exact ih _ _ _ _
      · rw [ih, tokens_addWord, chars_addWord, List.length_append, ← tokens_append_spans]
    | cons token rest =>
      simp only [addTokens, surfaceFrom]
      split_ifs
      · exact ih _ _ _ _
      · rw [ih, tokens_addMultiword, chars_addMultiword, List.length_append,
          ← tokens_append_spans]
      · rw [ih, tokens_addWord, chars_addWord, List.length_append, ← tokens_append_spans]

/-- The spans of the tokens of sentences. -/
theorem tokens_foldl_addSentence (sentences : List Sentence) (data : EvaluationData) :
    (sentences.foldl (addSentence tables) data).tokens = data.tokens ++
      spans data.chars.length (sentences.flatMap fun s => tokenSizes s.surface) := by
  induction sentences generalizing data with
  | nil => simp [spans]
  | cons s sentences ih =>
    have htokens : (data.addSentence tables s).tokens = data.tokens ++
        spans data.chars.length (tokenSizes s.surface) := tokens_addTokens ..
    have hchars : (data.addSentence tables s).chars =
        data.chars ++ s.surface.flatMap fun t => formChars t.token.form := chars_addTokens ..
    rw [List.foldl_cons, ih, htokens, hchars, List.length_append, ← sum_tokenSizes,
      List.flatMap_cons, spans_append, List.append_assoc]

/-- The tokens have the spans of the forms on the surface. -/
theorem tokens_ofSentences (sentences : List Sentence) :
    (ofSentences tables sentences).tokens =
      spans 0 (sentences.flatMap fun s => tokenSizes s.surface) :=
  (tokens_foldl_addSentence tables sentences {}).trans (List.nil_append _)

end EvaluationData

end UDPipe.Evaluator
