import UDPipe.Tokenizer.Characters
import UDPipe.Tokenizer.Sentences
import Mathlib.Data.List.ReduceOption

/-!
# Runs of the wrapper

A document is given to the wrapper in blocks: each `set_text` is followed by some
calls of `next_sentence`. A run records for every sentence which tokens of the
inner tokenizer it was made of. What the wrapper keeps about its text between the
calls is an invariant of the runs.
-/

namespace UDPipe.Tokenizer

open Utf8

/-- Tokens that follow each other in a text of this many characters. -/
structure Ordered (count : ℕ) (ranges : List TokenRange) : Prop where
  within : ∀ r ∈ ranges, 0 < r.length ∧ r.start + r.length ≤ count
  disjoint : ranges.Pairwise fun r r' => r.start + r.length ≤ r'.start

/-- Some of the ranges are in order, too. -/
theorem Ordered.sublist {count : ℕ} {ranges ranges' : List TokenRange} (h : Ordered count ranges')
    (hsub : ranges.Sublist ranges') : Ordered count ranges :=
  ⟨fun r hr => h.within r (hsub.mem hr), h.disjoint.sublist hsub⟩

/-- Trimming keeps the order. -/
theorem Ordered.trimRanges {cs : List Character} {count : ℕ} {ranges : List TokenRange}
    (h : Ordered count ranges) : Ordered count (trimRanges cs ranges) := by
  constructor
  · intro r hr
    obtain ⟨hmem, hpos⟩ := List.mem_filter.mp hr
    obtain ⟨r', hr', rfl⟩ := List.mem_map.mp hmem
    have := h.within r' hr'
    have := trimRange_within cs r'
    exact ⟨of_decide_eq_true hpos, by omega⟩
  · apply List.Pairwise.filter
    apply List.pairwise_map.mpr
    apply h.disjoint.imp
    intro r r' hlt
    have := trimRange_within cs r
    have := trimRange_within cs r'
    omega

namespace InnerTokenizer

variable {σ : Type} (inner : InnerTokenizer σ)

/-- The tokens that successive calls give, whatever the calls return. -/
inductive Yields : σ → List TokenRange → σ → Prop
  | start (s : σ) : Yields s [] s
  | sentence {s t u : σ} {ranges more : List TokenRange} :
      Yields s ranges t → inner.nextSentence t = (some more, u) → Yields s (ranges ++ more) u
  | stop {s t u : σ} {ranges : List TokenRange} :
      Yields s ranges t → inner.nextSentence t = (none, u) → Yields s ranges u

/-- The tokens of every text follow each other in the text. -/
def Orderly : Prop :=
  ∀ text s ranges t, inner.Yields (inner.setText text s) ranges t →
    Ordered (chars text).length ranges

/-- No token begins with a white space character. -/
def SkipsSpaces (tables : Unicode) : Prop :=
  ∀ text s ranges t, inner.Yields (inner.setText text s) ranges t →
    ∀ r ∈ ranges, ∀ c ∈ (chars text)[r.start]?, tables.isSpace c.code = false

/-- When there are no more sentences, every character is in a token or white space. -/
def Covers (tables : Unicode) : Prop :=
  ∀ text s ranges t u, inner.Yields (inner.setText text s) ranges t →
    inner.nextSentence t = (none, u) → ∀ i, ∀ c ∈ (chars text)[i]?,
      tables.isSpace c.code = false → ∃ r ∈ ranges, r.start ≤ i ∧ i < r.start + r.length

variable {inner}

/-- The forms that are found are those of tokens that come next. -/
theorem yields_of_nextForms {block : Bytes} {s t u : σ} {before : List TokenRange}
    {found : Option (List Piece × List TokenRange)} (hbefore : inner.Yields s before t)
    (h : (nextForms inner block t).Returns (found, u)) :
    ∃ skipped, match found with
      | none => inner.Yields s (before ++ skipped) u
      | some (forms, ranges) => inner.Yields s (before ++ skipped ++ ranges) u ∧
          forms = trimForms block (ranges.map (formOf block)) ∧ forms ≠ [] := by
  apply Comp.loopOf_invariant (fun t => ∃ skipped, inner.Yields s (before ++ skipped) t)
    (fun a => ∃ skipped, match a.1 with
      | none => inner.Yields s (before ++ skipped) a.2
      | some (forms, ranges) => inner.Yields s (before ++ skipped ++ ranges) a.2 ∧
          forms = trimForms block (ranges.map (formOf block)) ∧ forms ≠ []) _ _ _ h
  · rintro t t' ⟨skipped, hskipped⟩ hstep
    cases hcall : inner.nextSentence t with
    | mk result u =>
      cases result with
      | none => simp [hcall] at hstep
      | some ranges =>
        simp only [hcall] at hstep
        split at hstep
        · obtain rfl := LoopStep.next.inj hstep
          exact ⟨skipped ++ ranges, by
            rw [← List.append_assoc]
            exact hskipped.sentence hcall⟩
        · cases hstep
  · rintro t a ⟨skipped, hskipped⟩ hstep
    cases hcall : inner.nextSentence t with
    | mk result u =>
      cases result with
      | none =>
        simp only [hcall] at hstep
        obtain rfl := LoopStep.done.inj hstep
        exact ⟨skipped, hskipped.stop hcall⟩
      | some ranges =>
        simp only [hcall] at hstep
        split at hstep
        · cases hstep
        · rename_i hforms
          obtain rfl := LoopStep.done.inj hstep
          exact ⟨skipped, hskipped.sentence hcall, rfl, hforms⟩
  · exact ⟨[], by rwa [List.append_nil]⟩

end InnerTokenizer

/-! ### Documents -/

/-- A sentence that was read, with the text of the inner tokenizer, where that text
begins in the document, the white space and other text before the first form, and the
tokens of the inner tokenizer. -/
structure Read where
  block : Bytes
  offset : ℕ
  before : Bytes
  ranges : List TokenRange
  sentence : Sentence
  deriving DecidableEq, Repr

/-- The forms of the tokens that are reported. -/
def Read.forms (read : Read) : List Piece :=
  trimForms read.block (read.ranges.map (formOf read.block))

/-- The texts of the tokens that are reported, before the white space inside them
is normalised. -/
def Read.formTexts (read : Read) : List Bytes := read.forms.map (Piece.text read.block)

/-- A block, with what the calls of `next_sentence` after `set_text` give; `none`
stands for the result false. -/
structure Block where
  text : Bytes
  calls : List (Option Read)
  deriving DecidableEq, Repr

/-- The sentences that are read from a block. -/
def Block.reads (block : Block) : List Read := block.calls.reduceOption

/-- The block is read until there are no sentences left. -/
def Block.Exhausted (block : Block) : Prop :=
  ∃ reads : List Read, block.calls = reads.map some ++ [none]

section Runs

variable {σ : Type} (opts : Options) (inner : InnerTokenizer σ)

/-- The text before the first form of the next sentence. -/
def State.before (w : State σ) (forms : List Piece) : Bytes :=
  w.savedSpaces ++ slice w.block w.position ((forms.head?.map Piece.start).getD 0)

/-- The state after construction. -/
def fresh (s : σ) : State σ where
  inner := s

/-- Calls of `next_sentence`. -/
inductive Calls : State σ → List (Option Read) → State σ → Prop
  | start (w : State σ) : Calls w [] w
  | read {w w₁ w₂ : State σ} {calls : List (Option Read)} {forms : List Piece}
      {ranges : List TokenRange} {s : σ} {sentence : Sentence} {error : Bytes} :
      Calls w calls w₁ →
      (nextForms inner w₁.block w₁.inner).Returns (some (forms, ranges), s) →
      (opts.nextSentence inner w₁).Returns ⟨true, sentence, error, w₂⟩ →
      Calls w (calls ++ [some ⟨w₁.block, w₁.unicodeOffset, w₁.before forms, ranges, sentence⟩]) w₂
  | stop {w w₁ w₂ : State σ} {calls : List (Option Read)} {sentence : Sentence} {error : Bytes} :
      Calls w calls w₁ →
      (opts.nextSentence inner w₁).Returns ⟨false, sentence, error, w₂⟩ →
      Calls w (calls ++ [none]) w₂

/-- The blocks of a document. -/
inductive Document : State σ → List Block → State σ → Prop
  | start (w : State σ) : Document w [] w
  | block {w w₁ w₂ : State σ} {blocks : List Block} {text : Bytes}
      {calls : List (Option Read)} :
      Document w blocks w₁ → Calls opts inner (opts.setText inner text w₁) calls w₂ →
      Document w (blocks ++ [⟨text, calls⟩]) w₂

/-- The states in which a document begins: after construction, and after `reset_document`
at the end of another document. -/
inductive Begins : State σ → Prop
  | fresh (s : σ) : Begins (fresh s)
  | reset {w w' : State σ} {blocks : List Block} (id : Bytes) :
      Begins w → Document opts inner w blocks w' → Begins (opts.resetDocument inner id w')

end Runs

/-- The text of a document. -/
def documentText (blocks : List Block) : Bytes := blocks.flatMap Block.text

/-- The characters of a document, which are decoded in each block. -/
def documentChars (blocks : List Block) : List Character := blocks.flatMap fun b => chars b.text

/-- The sentences of a document. -/
def documentReads (blocks : List Block) : List Read := blocks.flatMap Block.reads

/-! ### One call -/

section Step

variable {σ : Type} {opts : Options} {inner : InnerTokenizer σ} {w w' : State σ}

/-- What making a sentence of some forms does. -/
structure Makes (opts : Options) (w w' : State σ) (sentence : Sentence) (forms : List Piece)
    (ranges : List TokenRange) : Prop where
  tokens : sentence.surface.map SurfaceToken.token =
    opts.formTokens w.block w.unicodeOffset (w.before forms) forms ranges
  own : opts.Own w'.tok.misc
  savedSpaces : w'.savedSpaces = []
  position : w'.position = opts.positionAfter w.block forms w.position
  block : w'.block = w.block
  unicodeOffset : w'.unicodeOffset = w.unicodeOffset
  textUnicodeLength : w'.textUnicodeLength = w.textUnicodeLength

/-- A call that returns true makes a sentence of the forms that are found. -/
theorem returns_nextSentence_true {sentence : Sentence} {error : Bytes} {forms : List Piece}
    {ranges : List TokenRange} {s : σ} (hown : opts.Own w.tok.misc)
    (hfound : (nextForms inner w.block w.inner).Returns (some (forms, ranges), s))
    (h : (opts.nextSentence inner w).Returns ⟨true, sentence, error, w'⟩) :
    Makes opts w w' sentence forms ranges ∧ w'.inner = s := by
  obtain ⟨⟨found, s'⟩, hfound', hpure⟩ := Comp.returns_bind.mp h
  obtain ⟨rfl, rfl⟩ := Prod.mk.inj (hfound.unique hfound')
  have heq := Comp.returns_pure.mp hpure
  have hsentence := congrArg NextSentence.sentence heq
  have hstate := congrArg NextSentence.state heq
  have hne : forms ≠ [] := (InnerTokenizer.yields_of_nextForms (.start _) hfound).choose_spec.2.2
  obtain ⟨htokens, hown', hsaved, hposition⟩ :=
    @Options.makeSentence_spec opts σ { w with inner := s } forms ranges hne hown
  subst hsentence hstate
  exact ⟨⟨htokens, hown', hsaved, hposition, rfl, rfl, rfl⟩, rfl⟩

/-- A call that returns false saves the rest of the text. -/
theorem returns_nextSentence_false {sentence : Sentence} {error : Bytes}
    (h : (opts.nextSentence inner w).Returns ⟨false, sentence, error, w'⟩) :
    ∃ s, (nextForms inner w.block w.inner).Returns (none, s) ∧
      w' = saveRest { w with inner := s } := by
  obtain ⟨⟨found, s⟩, hfound, hpure⟩ := Comp.returns_bind.mp h
  cases found with
  | none => exact ⟨s, hfound, (congrArg NextSentence.state (Comp.returns_pure.mp hpure)).symm⟩
  | some found =>
    have := congrArg NextSentence.returned (Comp.returns_pure.mp hpure)
    cases this

end Step

section Step

variable {σ : Type} {opts : Options} {inner : InnerTokenizer σ} {w w₁ : State σ}
  {calls : List (Option Read)} {s : σ}

/-- A call that finds forms returns true. -/
theorem Calls.sentence {forms : List Piece} {ranges : List TokenRange}
    (h : Calls opts inner w calls w₁)
    (hfound : (nextForms inner w₁.block w₁.inner).Returns (some (forms, ranges), s)) :
    Calls opts inner w
      (calls ++ [some ⟨w₁.block, w₁.unicodeOffset, w₁.before forms, ranges,
        (opts.makeSentence { w₁ with inner := s } forms ranges).1⟩])
      (opts.makeSentence { w₁ with inner := s } forms ranges).2 :=
  h.read hfound (Comp.returns_bind.mpr ⟨_, hfound, Comp.returns_pure.mpr rfl⟩)

/-- A call that finds no more forms returns false. -/
theorem Calls.finish (h : Calls opts inner w calls w₁)
    (hfound : (nextForms inner w₁.block w₁.inner).Returns (none, s)) :
    Calls opts inner w (calls ++ [none]) (saveRest { w₁ with inner := s }) :=
  h.stop (Comp.returns_bind.mpr ⟨_, hfound, Comp.returns_pure.mpr rfl⟩)

end Step

/-! ### What the wrapper keeps about the document -/

section Invariant

variable {σ : Type} {opts : Options} {inner : InnerTokenizer σ}

/-- The text is the end of the document so far, and the offset is where it begins. -/
structure Aligned (opts : Options) (doc : List Character) (w : State σ) : Prop where
  own : opts.Own w.tok.misc
  text : ∃ before, doc = before ++ chars w.block ∧ before.length = w.unicodeOffset
  length : w.textUnicodeLength = (chars w.block).length

/-- The document ends where the text does. -/
theorem Aligned.length_doc {doc : List Character} {w : State σ} (h : Aligned opts doc w) :
    doc.length = w.unicodeOffset + w.textUnicodeLength := by
  obtain ⟨before, rfl, hbefore⟩ := h.text
  rw [List.length_append, hbefore, h.length]

/-- A new state is aligned with the empty document. -/
theorem aligned_fresh (s : σ) : Aligned opts [] (fresh s) :=
  ⟨opts.own_nil, ⟨[], rfl, rfl⟩, rfl⟩

/-- The white space at the beginning of a text and the characters of the rest. -/
theorem leadingSpaces_append (text : Bytes) :
    opts.leadingSpaces text ++ chars (text.drop (flat (opts.leadingSpaces text)).length) =
      chars text := by
  have hprefix : opts.leadingSpaces text <+: chars text := List.takeWhile_prefix _
  have hoffset : (flat (opts.leadingSpaces text)).length =
      offset (chars text) (opts.leadingSpaces text).length := by
    rw [offset, ← List.prefix_iff_eq_take.mp hprefix]
  rw [hoffset, chars_drop, List.prefix_iff_eq_append.mp hprefix]

/-- The next text keeps the state aligned. -/
theorem Aligned.setText {doc : List Character} {w : State σ} (h : Aligned opts doc w)
    (text : Bytes) : Aligned opts (doc ++ chars text) (opts.setText inner text w) := by
  obtain ⟨before, hdoc, hbefore⟩ := h.text
  refine ⟨h.own, ⟨doc ++ opts.leadingSpaces text, ?_, ?_⟩, rfl⟩
  · rw [List.append_assoc]
    exact congrArg (doc ++ ·) (leadingSpaces_append text).symm
  · have hlength := h.length
    simp only [hdoc, List.length_append, Options.setText]
    omega

/-- A sentence of the text, with the tokens of its forms. -/
structure ReadOf (opts : Options) (w : State σ) (read : Read) : Prop where
  block : read.block = w.block
  offset : read.offset = w.unicodeOffset
  forms : read.forms ≠ []
  tokens : read.sentence.surface.map SurfaceToken.token =
    opts.formTokens read.block read.offset read.before read.forms read.ranges

/-- What the calls after `set_text` keep. -/
structure Reading (opts : Options) (inner : InnerTokenizer σ) (doc : List Character)
    (w w' : State σ) (calls : List (Option Read)) : Prop where
  aligned : Aligned opts doc w'
  block : w'.block = w.block
  offset : w'.unicodeOffset = w.unicodeOffset
  yields : ∃ past, inner.Yields w.inner past w'.inner ∧
    (calls.reduceOption.flatMap Read.ranges).Sublist past
  reads : ∀ read ∈ calls.reduceOption, ReadOf opts w read

/-- A sentence that is read is one more. -/
theorem reduceOption_append_some (calls : List (Option Read)) (read : Read) :
    (calls ++ [some read]).reduceOption = calls.reduceOption ++ [read] := by
  rw [List.reduceOption_append, List.reduceOption_singleton, Option.toList_some]

/-- A call without a sentence adds none. -/
theorem reduceOption_append_none (calls : List (Option Read)) :
    (calls ++ [none]).reduceOption = calls.reduceOption := by
  rw [List.reduceOption_append, List.reduceOption_singleton, Option.toList_none, List.append_nil]

/-- Calls that all read sentences. -/
theorem reduceOption_map_some (reads : List Read) : (reads.map some).reduceOption = reads := by
  induction reads with
  | nil => rfl
  | cons read reads ih => rw [List.map_cons, List.reduceOption_cons_of_some, ih]

/-- The calls read sentences of the text that follow each other. -/
theorem reading_of_calls {doc : List Character} {w w' : State σ} {calls : List (Option Read)}
    (hdoc : Aligned opts doc w) (h : Calls opts inner w calls w') :
    Reading opts inner doc w w' calls := by
  induction h with
  | start => exact ⟨hdoc, rfl, rfl, ⟨[], .start _, .slnil⟩, by simp⟩
  | @read w₁ w₂ calls forms ranges s sentence error hcalls hfound hcall ih =>
    obtain ⟨haligned, hblock, hoffset, ⟨past, hpast, hsub⟩, hreads⟩ := ih
    obtain ⟨hmakes, hinner⟩ := returns_nextSentence_true haligned.own hfound hcall
    obtain ⟨skipped, hyields, hforms, hne⟩ := InnerTokenizer.yields_of_nextForms hpast hfound
    refine ⟨⟨hmakes.own, ?_, ?_⟩, hmakes.block.trans hblock, hmakes.unicodeOffset.trans hoffset,
      ?_, ?_⟩
    · rw [hmakes.block, hmakes.unicodeOffset]
      exact haligned.text
    · rw [hmakes.block, hmakes.textUnicodeLength]
      exact haligned.length
    · refine ⟨past ++ skipped ++ ranges, by rwa [hinner], ?_⟩
      rw [reduceOption_append_some, List.flatMap_append, List.flatMap_singleton]
      exact (hsub.trans (List.sublist_append_left _ _)).append (List.Sublist.refl _)
    · rw [reduceOption_append_some]
      refine List.forall_mem_append.mpr ⟨hreads, List.forall_mem_singleton.mpr ?_⟩
      refine ⟨hblock, hoffset, ?_, ?_⟩
      · rw [Read.forms, ← hforms]
        exact hne
      · rw [Read.forms, ← hforms]
        exact hmakes.tokens
  | @stop w₁ w₂ calls sentence error hcalls hcall ih =>
    obtain ⟨haligned, hblock, hoffset, ⟨past, hpast, hsub⟩, hreads⟩ := ih
    obtain ⟨s, hfound, rfl⟩ := returns_nextSentence_false hcall
    obtain ⟨skipped, hyields⟩ := InnerTokenizer.yields_of_nextForms hpast hfound
    refine ⟨⟨haligned.own, haligned.text, haligned.length⟩, hblock, hoffset, ?_, ?_⟩
    · rw [reduceOption_append_none]
      exact ⟨past ++ skipped, hyields, hsub.trans (List.sublist_append_left _ _)⟩
    · rwa [reduceOption_append_none]

/-- The blocks of a document stay aligned with it. -/
theorem aligned_of_document {doc : List Character} {w w' : State σ} {blocks : List Block}
    (hdoc : Aligned opts doc w) (h : Document opts inner w blocks w') :
    Aligned opts (doc ++ documentChars blocks) w' := by
  induction h with
  | start => simpa [documentChars] using hdoc
  | @block w₁ w₂ blocks text calls _ hcalls ih =>
    have haligned := (reading_of_calls (ih.setText text) hcalls).aligned
    simpa [documentChars] using haligned

/-- Every sentence of a document has the tokens of its forms. -/
theorem tokens_of_document {doc : List Character} {w w' : State σ} {blocks : List Block}
    (hdoc : Aligned opts doc w) (h : Document opts inner w blocks w') :
    ∀ read ∈ documentReads blocks, read.sentence.surface.map SurfaceToken.token =
      opts.formTokens read.block read.offset read.before read.forms read.ranges := by
  induction h with
  | start => exact List.forall_mem_nil _
  | @block w₁ w₂ blocks text calls hdocument hcalls ih =>
    have haligned := @Aligned.setText _ _ inner _ _ (aligned_of_document hdoc hdocument) text
    have hblock : documentReads (blocks ++ [⟨text, calls⟩]) =
        documentReads blocks ++ calls.reduceOption := by
      simp [documentReads, Block.reads]
    rw [hblock]
    exact List.forall_mem_append.mpr
      ⟨ih, fun read hread => ((reading_of_calls haligned hcalls).reads read hread).tokens⟩

/-- At the beginning of a document the state is aligned with the empty text. -/
theorem aligned_of_begins {w : State σ} (h : Begins opts inner w) : Aligned opts [] w := by
  induction h with
  | fresh s => exact aligned_fresh s
  | reset id _ hdocument ih =>
    exact ⟨(aligned_of_document ih hdocument).own, ⟨[], rfl, rfl⟩, rfl⟩

end Invariant

/-! ### An inner tokenizer with one token -/

/-- The tables for ASCII letters and the space. -/
def asciiTables : Unicode where
  category code := if code = 32 then .Zs else if 97 ≤ code ∧ code ≤ 122 then .Ll else .other
  lowercase code := code
  uppercase code := if 97 ≤ code ∧ code ≤ 122 then code - 32 else code

/-- The inner tokenizer whose only token is the text after the white space at its
beginning. Its state is the range of that token. -/
def wholeText (tables : Unicode) : InnerTokenizer TokenRange where
  setText text _ :=
    let spaces := ((chars text).takeWhile fun c => tables.isSpace c.code).length
    ⟨spaces, (chars text).length - spaces⟩
  nextSentence r := if r.length = 0 then (none, r) else (some [r], ⟨r.start, 0⟩)

/-- The tokenizer of whole texts returns the text or nothing. -/
private theorem yields_wholeText {tables : Unicode} {r t : TokenRange} {ranges : List TokenRange}
    (h : (wholeText tables).Yields r ranges t) :
    ranges = [] ∧ t = r ∨ 0 < r.length ∧ ranges = [r] ∧ t.length = 0 := by
  induction h with
  | start => exact .inl ⟨rfl, rfl⟩
  | @sentence t u ranges more _ hcall ih =>
    unfold wholeText at hcall
    dsimp only at hcall
    split at hcall
    · cases hcall
    · rename_i hne
      obtain ⟨hmore, rfl⟩ := Prod.mk.inj hcall
      obtain rfl := Option.some.inj hmore
      rcases ih with ⟨rfl, rfl⟩ | ⟨_, _, hzero⟩
      · exact .inr ⟨Nat.pos_of_ne_zero hne, rfl, rfl⟩
      · exact absurd hzero hne
  | @stop t u ranges _ hcall ih =>
    unfold wholeText at hcall
    dsimp only at hcall
    split at hcall
    · obtain ⟨_, rfl⟩ := Prod.mk.inj hcall
      exact ih
    · cases hcall

/-- The tokenizer of whole texts is orderly. -/
theorem orderly_wholeText (tables : Unicode) : (wholeText tables).Orderly := by
  intro text s ranges t h
  have hle := (List.takeWhile_prefix (l := chars text)
    fun c => tables.isSpace c.code).length_le
  rcases yields_wholeText h with ⟨rfl, _⟩ | ⟨hpos, rfl, _⟩
  · exact ⟨List.forall_mem_nil _, .nil⟩
  · refine ⟨List.forall_mem_singleton.mpr ⟨hpos, ?_⟩, List.pairwise_singleton _ _⟩
    dsimp only [wholeText] at hpos ⊢
    omega

/-- The tokenizer of whole texts skips the leading spaces. -/
theorem skipsSpaces_wholeText (tables : Unicode) : (wholeText tables).SkipsSpaces tables := by
  intro text s ranges t h r hr c hc
  rcases yields_wholeText h with ⟨rfl, _⟩ | ⟨hpos, rfl, _⟩
  · cases hr
  · obtain rfl := List.mem_singleton.mp hr
    have hsplit := List.takeWhile_append_dropWhile (p := fun c : Character => tables.isSpace c.code)
      (l := chars text)
    have hhead := List.head?_dropWhile_not (fun c : Character => tables.isSpace c.code) (chars text)
    have hprefix := List.takeWhile_prefix (l := chars text) fun c => tables.isSpace c.code
    have hdrop := List.append_cancel_left
      (hsplit.trans (List.prefix_iff_eq_append.mp hprefix).symm)
    dsimp only [wholeText] at hc
    rw [hdrop, List.head?_drop, Option.mem_def.mp hc] at hhead
    exact hhead

/-- The only token has every character that is not white space. -/
theorem covers_wholeText (tables : Unicode) : (wholeText tables).Covers tables := by
  intro text s ranges t u h hnone i c hc hspace
  obtain ⟨hi, hci⟩ := List.getElem?_eq_some_iff.mp hc
  have hprefix := List.takeWhile_prefix (l := chars text) fun c => tables.isSpace c.code
  have hafter : ((chars text).takeWhile fun c => tables.isSpace c.code).length ≤ i := by
    by_contra hlt
    obtain ⟨rest, hrest⟩ := hprefix
    rw [← hrest, List.getElem?_append_left (by omega)] at hc
    have hmem := List.mem_of_getElem? (Option.mem_def.mp hc)
    have := List.mem_takeWhile_imp (p := fun c : Character => tables.isSpace c.code) hmem
    simp [hspace] at this
  have hend : t.length = 0 := by
    unfold wholeText at hnone
    dsimp only at hnone
    split at hnone
    · assumption
    · cases hnone
  rcases yields_wholeText h with ⟨rfl, rfl⟩ | ⟨_, rfl, _⟩
  · dsimp only [wholeText] at hend
    omega
  · refine ⟨_, List.mem_singleton_self _, hafter, ?_⟩
    dsimp only [wholeText]
    omega

/-- The document of a text that is read to its end, with one token of this many characters. -/
def exhaustedText (opts : Options) (text : Bytes) (length : ℕ) : List Block :=
  let w := opts.setText (wholeText asciiTables) text (fresh ⟨0, 0⟩)
  let ranges : List TokenRange := [⟨0, length⟩]
  let forms := trimForms w.block (ranges.map (formOf w.block))
  [⟨text, [some ⟨w.block, w.unicodeOffset, w.before forms, ranges,
    (opts.makeSentence { w with inner := (⟨0, 0⟩ : TokenRange) } forms ranges).1⟩, none]⟩]

/-- The state after reading such a document. -/
def exhaustedState (opts : Options) (text : Bytes) (length : ℕ) : State TokenRange :=
  let w := opts.setText (wholeText asciiTables) text (fresh ⟨0, 0⟩)
  let ranges : List TokenRange := [⟨0, length⟩]
  let forms := trimForms w.block (ranges.map (formOf w.block))
  let made := (opts.makeSentence { w with inner := (⟨0, 0⟩ : TokenRange) } forms ranges).2
  saveRest { made with inner := ⟨0, 0⟩ }

/-- A document of one text that is read to its end. -/
theorem document_exhaustedText {opts : Options} {text : Bytes} {length : ℕ} {forms : List Piece}
    (hforms : let w := opts.setText (wholeText asciiTables) text (fresh ⟨0, 0⟩)
      trimForms w.block [formOf w.block ⟨0, length⟩] = forms)
    (hfound : let w := opts.setText (wholeText asciiTables) text (fresh ⟨0, 0⟩)
      (nextForms (wholeText asciiTables) w.block w.inner).Returns
        (some (forms, [⟨0, length⟩]), ⟨0, 0⟩)) :
    Document opts (wholeText asciiTables) (fresh ⟨0, 0⟩) (exhaustedText opts text length)
      (exhaustedState opts text length) := by
  have hend : ∀ block, (nextForms (wholeText asciiTables) block ⟨0, 0⟩).Returns (none, ⟨0, 0⟩) :=
    fun _ => ⟨1, rfl⟩
  subst hforms
  exact Document.block (.start _) (((Calls.start _).sentence hfound).finish (hend _))

end UDPipe.Tokenizer
