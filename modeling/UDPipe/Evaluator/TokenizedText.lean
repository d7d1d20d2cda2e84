import UDPipe.Conllu.WellFormed
import UDPipe.Evaluator.Shown
import UDPipe.Library.Spans

/-!
# The characters of a tokenized text

What an inner tokenizer does with a text is the list of its sentences, each a list of
tokens. The wrapper makes sentences of them whose forms show the characters of the
tokens. So the evaluation data of the tokenizer has, for each paragraph, the characters
that its tokens show.
-/

namespace UDPipe.Tokenizer

open Utf8

namespace InnerTokenizer

variable {σ : Type} (inner : InnerTokenizer σ)

/-- The calls from a state on give these sentences, and then no more. -/
inductive Tokenizes : σ → List (List TokenRange) → σ → Prop
  | stop {s t : σ} : inner.nextSentence s = (none, t) → Tokenizes s [] t
  | sentence {s t u : σ} {ranges : List TokenRange} {sentences : List (List TokenRange)} :
      inner.nextSentence s = (some ranges, t) → Tokenizes t sentences u →
      Tokenizes s (ranges :: sentences) u

/-- Every text is tokenized: its tokens follow each other, and every character that is not
white space is in one of them. -/
def Conforms (tables : Unicode) : Prop :=
  ∀ text s, ∃ sentences t, inner.Tokenizes (inner.setText text s) sentences t ∧
    Ordered (chars text).length sentences.flatten ∧
    ∀ i, ∀ c ∈ (chars text)[i]?, tables.isSpace c.code = false →
      ∃ r ∈ sentences.flatten, r.start ≤ i ∧ i < r.start + r.length

end InnerTokenizer

section Reading

variable {σ : Type} {opts : Options} {inner : InnerTokenizer σ}

/-- The forms of the tokens of some forms. -/
theorem map_form_formTokens (block : Bytes) (unicodeOffset : ℕ) (before : Bytes)
    (forms : List Piece) (ranges : List TokenRange) :
    (opts.formTokens block unicodeOffset before forms ranges).map Token.form =
      forms.map fun form => normalizeForm (form.text block) := by
  induction forms generalizing before ranges with
  | nil => rfl
  | cons form forms ih => rw [Options.formTokens, List.map_cons, List.map_cons, ih, Options.tokenOf]

/-- A sentence without forms is skipped. -/
private theorem returns_nextForms_of_empty {block : Bytes} {s t : σ} {ranges : List TokenRange}
    {found : Option (List Piece × List TokenRange) × σ}
    (hcall : inner.nextSentence s = (some ranges, t))
    (hempty : trimForms block (ranges.map (formOf block)) = [])
    (h : (nextForms inner block t).Returns found) : (nextForms inner block s).Returns found := by
  rw [nextForms, Comp.returns_loopOf]
  simp only [hcall, hempty, if_true]
  exact h

/-- The first forms that are found do not depend on the other fields of the wrapper. -/
private theorem returns_nextSentence_of_inner {w : State σ} {t : σ}
    (h : ∀ found, (nextForms inner w.block t).Returns found →
      (nextForms inner w.block w.inner).Returns found) {r : NextSentence (State σ)}
    (hr : (opts.nextSentence inner { w with inner := t }).Returns r) :
    (opts.nextSentence inner w).Returns r := by
  obtain ⟨found, hfound, hrest⟩ := Comp.returns_bind.mp hr
  exact Comp.returns_bind.mpr ⟨found, h found hfound, hrest⟩

/-- Reading the text of the wrapper to its end gives sentences with the forms of the tokens. -/
theorem readsAll_of_tokenizes {s t : σ} {sentences : List (List TokenRange)}
    (h : inner.Tokenizes s sentences t) {w : State σ} (hinner : w.inner = s)
    (hown : opts.Own w.tok.misc) :
    ∃ out w', (wrapper inner opts).ReadsAll w out [] w' ∧ opts.Own w'.tok.misc ∧
      (out.flatMap fun s => s.surface.map fun t => t.token.form) =
        sentences.flatMap fun ranges => (trimForms w.block (ranges.map (formOf w.block))).map
          fun form => normalizeForm (form.text w.block) := by
  induction h generalizing w with
  | @stop s t hcall =>
    have hfound : (nextForms inner w.block w.inner).Returns (none, t) := by
      rw [nextForms, Comp.returns_loopOf, hinner]
      simp only [hcall]
    exact ⟨[], _, .stop (Comp.returns_bind.mpr ⟨_, hfound, Comp.returns_pure.mpr rfl⟩), hown, rfl⟩
  | @sentence s t u ranges sentences hcall _ ih =>
    by_cases hempty : trimForms w.block (ranges.map (formOf w.block)) = []
    · -- the inner tokenizer is asked again in the same call
      obtain ⟨out, w', hreads, hown', hforms⟩ := @ih { w with inner := t } rfl hown
      have hskip : ∀ r, (opts.nextSentence inner { w with inner := t }).Returns r →
          (opts.nextSentence inner w).Returns r := fun r => returns_nextSentence_of_inner
        fun found => returns_nextForms_of_empty (hinner ▸ hcall) hempty
      refine ⟨out, w', ?_, hown', ?_⟩
      · cases hreads with
        | stop hr => exact .stop (hskip _ hr)
        | next hr hrest => exact .next (hskip _ hr) hrest
      · rw [hforms, List.flatMap_cons, hempty, List.map_nil, List.nil_append]
    · have hfound : (nextForms inner w.block w.inner).Returns
          (some (trimForms w.block (ranges.map (formOf w.block)), ranges), t) := by
        rw [nextForms, Comp.returns_loopOf, hinner]
        simp only [hcall, if_neg hempty]
      obtain ⟨htokens, hown', hsaved, hposition⟩ :=
        @Options.makeSentence_spec opts σ { w with inner := t } _ ranges hempty hown
      have hcallWrapper : ((wrapper inner opts).nextSentence w).Returns ⟨true, _, [], _⟩ :=
        Comp.returns_bind.mpr ⟨_, hfound, Comp.returns_pure.mpr rfl⟩
      obtain ⟨out, w', hreads, hown'', hforms⟩ :=
        @ih (opts.makeSentence { w with inner := t } _ ranges).2 rfl hown'
      refine ⟨_, w', .next hcallWrapper hreads, hown'', ?_⟩
      have hfirst := congrArg (List.map Token.form) htokens
      rw [List.map_map, map_form_formTokens] at hfirst
      rw [List.flatMap_cons, List.flatMap_cons, hforms]
      exact congrArg (· ++ _) hfirst

end Reading

end UDPipe.Tokenizer

namespace UDPipe.Evaluator

open Utf8 Tokenizer

/-! ### Paragraphs -/

section Paragraphs

variable {σ : Type} {opts : Options} {inner : InnerTokenizer σ} {tables : Unicode}

/-- The text that the wrapper passes on to the inner tokenizer. -/
def blockOf (opts : Options) (text : Bytes) : Bytes :=
  text.drop (flat (opts.leadingSpaces text)).length

/-- The characters that tokens of a text show. -/
def shownBy (block : Bytes) (ranges : List TokenRange) : List ℕ :=
  ranges.flatMap fun r => shown (r.chars (chars block))

/-- The characters that are read from a paragraph are those that its tokens show. -/
theorem readAll_paragraph (text : Bytes) {w : State σ} (hown : opts.Own w.tok.misc)
    {sentences : List (List TokenRange)} {t : σ}
    (h : inner.Tokenizes (inner.setText (blockOf opts text) w.inner) sentences t) :
    ∃ out w', ((wrapper inner opts).readAll ((wrapper inner opts).setText text w)).Returns
        (out, [], w') ∧ opts.Own w'.tok.misc ∧
      (out.flatMap fun s => s.surface.flatMap fun t => formChars t.token.form) =
        shownBy (blockOf opts text) sentences.flatten := by
  obtain ⟨out, w', hreads, hown', hforms⟩ :=
    @readsAll_of_tokenizes σ opts inner _ _ _ h (opts.setText inner text w) rfl hown
  refine ⟨out, w', InputFormat.returns_readAll.mpr hreads, hown', ?_⟩
  have hchars := congrArg (List.flatMap formChars) hforms
  rw [List.flatMap_assoc, List.flatMap_assoc] at hchars
  simp only [List.flatMap_map] at hchars
  calc
    _ = sentences.flatMap fun ranges =>
          (trimForms (blockOf opts text) (ranges.map (formOf (blockOf opts text)))).flatMap
            fun form => formChars (normalizeForm (form.text (blockOf opts text))) := hchars
    _ = sentences.flatMap (shownBy (blockOf opts text)) := by
      simp only [shown_trimForms]
      rfl
    _ = _ := by
      rw [shownBy, ← List.flatMap_id, List.flatMap_assoc]
      rfl

/-- The data of a tokenizer that tokenizes every text in some way has the characters that
its tokens show, paragraph by paragraph. -/
theorem tokenizeParagraphs_returns (tables : Unicode) {Good : Bytes → List TokenRange → Prop}
    (hgood : ∀ text s, ∃ sentences t, inner.Tokenizes (inner.setText text s) sentences t ∧
      Good text sentences.flatten)
    (texts : List Bytes) {w : State σ} (hown : opts.Own w.tok.misc) (data : EvaluationData) :
    ∃ data' outs, (tokenizeParagraphs (wrapper inner opts) tables texts w data).Returns
        (.ok data') ∧ data'.chars = data.chars ++ outs.flatten ∧
      List.Forall₂ (fun text out => ∃ ranges, Good (blockOf opts text) ranges ∧
        out = shownBy (blockOf opts text) ranges) texts outs := by
  induction texts generalizing w data with
  | nil => exact ⟨data, [], Comp.returns_pure.mpr rfl, by simp, .nil⟩
  | cons text texts ih =>
    obtain ⟨sentences, t, htokenizes, hthis⟩ := hgood (blockOf opts text) w.inner
    obtain ⟨out, w', hreads, hown', hchars⟩ := readAll_paragraph text hown htokenizes
    obtain ⟨data', outs, hreturns, hdata, houts⟩ :=
      ih hown' (out.foldl (EvaluationData.addSentence tables) data)
    refine ⟨data', shownBy (blockOf opts text) sentences.flatten :: outs, ?_, ?_,
      .cons ⟨_, hthis, rfl⟩ houts⟩
    · refine Comp.returns_bind.mpr ⟨_, hreads, ?_⟩
      simpa using hreturns
    · rw [hdata, EvaluationData.chars_foldl_addSentence, hchars, List.flatten_cons,
        List.append_assoc]

end Paragraphs

/-! ### Gold paragraphs -/

/-- The pieces of the text of a token. -/
def tokenPieces (tok : Token) : List Bytes :=
  tok.form :: if tok.getSpaceAfter then [[space]] else []

/-- The pieces of the text of a gold sentence. -/
def goldPieces (gold : Sentence) : List Bytes := gold.surface.flatMap fun t => tokenPieces t.token

/-- Add the pieces of a gold sentence to those of the paragraphs. -/
def addPieces (paragraphs : List (List Bytes) × List Bytes) (gold : Sentence) :
    List (List Bytes) × List Bytes :=
  if gold.getNewDoc || gold.getNewPar then
    (paragraphs.1 ++ [paragraphs.2 ++ [[lf, lf]]], goldPieces gold)
  else (paragraphs.1, paragraphs.2 ++ goldPieces gold)

/-- The pieces of the paragraphs: the forms, and what is put between them. -/
def paragraphPieces (gold : List Sentence) : List (List Bytes) :=
  let paragraphs := gold.foldl addPieces ([], [])
  paragraphs.1 ++ [paragraphs.2]

/-- The pieces of the gold sentence make its text. -/
theorem flatten_goldPieces (gold : Sentence) : (goldPieces gold).flatten = detokenized gold := by
  rw [goldPieces, detokenized, ← List.flatMap_id, List.flatMap_assoc]
  refine List.flatMap_congr fun t _ => ?_
  rw [tokenPieces]
  split <;> simp

/-- The texts of the paragraphs are their pieces put together. -/
theorem plainTextParagraphs_eq (gold : List Sentence) :
    plainTextParagraphs gold = (paragraphPieces gold).map List.flatten := by
  have hfold : ∀ (gold : List Sentence) (p : List (List Bytes) × List Bytes),
      gold.foldl addGold (p.1.map List.flatten, p.2.flatten) =
        ((gold.foldl addPieces p).1.map List.flatten, (gold.foldl addPieces p).2.flatten) := by
    intro gold
    induction gold with
    | nil => exact fun p => rfl
    | cons s gold ih =>
      intro p
      rw [List.foldl_cons, List.foldl_cons, ← ih]
      congr 1
      unfold addGold addPieces
      split <;> simp [flatten_goldPieces]
  have h := hfold gold ([], [])
  rw [plainTextParagraphs, paragraphPieces, List.map_append]
  exact congrArg (fun p => p.1 ++ [p.2]) h

/-- What the pieces of the paragraphs show is what the pieces of the sentences show. -/
theorem flatMap_paragraphPieces {gold : List Sentence} (f : Bytes → List ℕ)
    (hbreak : f [lf, lf] = []) :
    ((paragraphPieces gold).flatMap fun pieces => pieces.flatMap f) =
      gold.flatMap fun s => (goldPieces s).flatMap f := by
  have hfold : ∀ (gold : List Sentence) (p : List (List Bytes) × List Bytes),
      (((gold.foldl addPieces p).1 ++ [(gold.foldl addPieces p).2]).flatMap
          fun pieces => pieces.flatMap f) =
        ((p.1 ++ [p.2]).flatMap fun pieces => pieces.flatMap f) ++
          gold.flatMap fun s => (goldPieces s).flatMap f := by
    intro gold
    induction gold with
    | nil => exact fun p => by simp
    | cons s gold ih =>
      intro p
      rw [List.foldl_cons, ih, List.flatMap_cons, ← List.append_assoc]
      congr 1
      unfold addPieces
      split <;> simp [hbreak]
  exact hfold gold ([], [])

/-- The forms of a gold sentence have no line ends and no tabs. -/
theorem form_clean {version : ℕ} {s : Sentence} (h : Conllu.WellFormed version s) :
    ∀ t ∈ s.surface, ∀ d ∈ t.token.form, d ≠ tab ∧ isLineEnd d = false := by
  intro t ht
  refine h.fields_clean t.token.form ?_
  simp only [Sentence.textFields, List.mem_append, List.mem_flatMap]
  rcases mem_surfaceFrom ht with ⟨word, hword, htoken⟩ | ⟨token, htoken, heq⟩
  · refine Or.inl (Or.inl ⟨word, List.mem_of_mem_drop hword, ?_⟩)
    simp [htoken, Word.textFields]
  · refine Or.inl (Or.inr ⟨token, htoken, ?_⟩)
    simp [heq, MultiwordToken.textFields]

/-- The gold data has the characters that the pieces of the paragraphs show. -/
theorem chars_gold (tables : Unicode) {gold : List Sentence}
    (hclean : ∀ s ∈ gold, ∀ t ∈ s.surface, ∀ d ∈ t.token.form, d ≠ tab ∧ isLineEnd d = false) :
    (EvaluationData.ofSentences tables gold).chars =
      (paragraphPieces gold).flatMap fun pieces => pieces.flatMap fun piece =>
        shown (chars piece) := by
  rw [EvaluationData.ofSentences, EvaluationData.chars_foldl_addSentence,
    flatMap_paragraphPieces (fun piece => shown (chars piece)) (by decide), List.nil_append]
  refine List.flatMap_congr fun s hs => ?_
  rw [goldPieces, List.flatMap_assoc]
  refine List.flatMap_congr fun t ht => ?_
  have hspace : shown (chars [space]) = [] := by decide
  rw [formChars_eq_shown (hclean s hs t ht), tokenPieces]
  split <;> simp [hspace]

end UDPipe.Evaluator
