import UDPipe.Isolation
import UDPipe.Tokenizer.Sentences

/-!
# Documents of the tokenizer wrapper

A reset sets all fields of the wrapper but its last token, on which the next token does
not depend, and the inner tokenizer, which gets a text. So it separates documents if the
inner tokenizer forgets what it has read when it gets a text.

Who uses only the nodes of the sentences cannot tell two wrappers apart that have saved
the same white space and come to the same offset, or do not store them.
-/

namespace UDPipe.Tokenizer

open Comp InputFormat

/-! ### The inner tokenizer -/

namespace InnerTokenizer

variable {σ : Type} (inner : InnerTokenizer σ)

/-- What the next calls answer. -/
def answers : ℕ → σ → List (Option (List TokenRange))
  | 0, _ => []
  | count + 1, s => (inner.nextSentence s).1 :: answers count (inner.nextSentence s).2

/-- Two states that answer all calls in the same way. -/
def SameAnswers (s s' : σ) : Prop := ∀ count, inner.answers count s = inner.answers count s'

/-- What is read of a text does not depend on what was read before it. -/
def Forgets : Prop := ∀ text s s', inner.SameAnswers (inner.setText text s) (inner.setText text s')

variable {inner}

/-- Giving the same answers is symmetric. -/
theorem SameAnswers.symm {s s' : σ} (h : inner.SameAnswers s s') : inner.SameAnswers s' s :=
  fun count => (h count).symm

/-- The answer is the same, and so are those that follow. -/
theorem SameAnswers.nextSentence {s s' : σ} (h : inner.SameAnswers s s') :
    (inner.nextSentence s).1 = (inner.nextSentence s').1 ∧
      inner.SameAnswers (inner.nextSentence s).2 (inner.nextSentence s').2 := by
  have hanswers : ∀ count, (inner.nextSentence s).1 = (inner.nextSentence s').1 ∧
      inner.answers count (inner.nextSentence s).2 =
        inner.answers count (inner.nextSentence s').2 :=
    fun count => List.cons.inj (h (count + 1))
  exact ⟨(hanswers 0).1, fun count => (hanswers count).2⟩

/-- The same forms are found, and they are not empty. -/
structure SameForms (inner : InnerTokenizer σ)
    (found found' : Option (List Piece × List TokenRange) × σ) : Prop where
  forms : found.1 = found'.1
  ne_nil : ∀ forms ranges, found.1 = some (forms, ranges) → forms ≠ []
  answers : inner.SameAnswers found.2 found'.2

/-- The forms of the next sentence are the same. -/
theorem SameAnswers.nextForms {s s' : σ} (h : inner.SameAnswers s s') (block : Bytes) :
    Matches inner.SameForms (nextForms inner block s) (nextForms inner block s') := by
  refine matches_loopOf (I := inner.SameAnswers) (fun s s' h => ?_) h
  obtain ⟨hfound, hnext⟩ := h.nextSentence
  cases hcall : inner.nextSentence s with
  | mk found t =>
    cases hcall' : inner.nextSentence s' with
    | mk found' t' =>
      rw [hcall, hcall'] at hfound hnext
      obtain rfl : found = found' := hfound
      cases found with
      | none => exact ⟨rfl, nofun, hnext⟩
      | some ranges =>
        dsimp only
        split
        · exact hnext
        · rename_i hforms
          refine ⟨rfl, fun forms ranges hsome => ?_, hnext⟩
          obtain ⟨rfl, rfl⟩ := Prod.mk.inj (Option.some.inj hsome)
          exact hforms

end InnerTokenizer

namespace Options

variable {opts : Options}

/-! ### The loop over the forms -/

/-- The white space before a token is used if it is not normalized, and the offset if
ranges are requested. -/
theorem tokenOf_congr {before before' : Bytes} {offset offset' : ℕ}
    (hbefore : opts.normalizedSpaces = false → before = before')
    (hoffset : opts.tokenRanges = true → offset = offset') (block : Bytes) (form : Piece)
    (next : Option Piece) (range : Option TokenRange) :
    opts.tokenOf block form next before (opts.rangeOf offset range) =
      opts.tokenOf block form next before' (opts.rangeOf offset' range) := by
  have hrange : opts.rangeOf offset range = opts.rangeOf offset' range := by
    unfold rangeOf
    split
    · rename_i hranges
      rw [hoffset hranges]
    · rfl
  rw [hrange]
  unfold tokenOf fieldsOf
  split
  · rfl
  · rename_i hnormalized
    rw [hbefore (by simpa using hnormalized)]

/-- Two states of the loop that differ in what is not used. -/
structure AlikeProgress (opts : Options) (first : Bool) (st st' : Progress) : Prop where
  sentence : st.sentence = st'.sentence
  own : opts.Own st.tok.misc
  own' : opts.Own st'.tok.misc
  savedSpaces : first = true → opts.normalizedSpaces = false → st.savedSpaces = st'.savedSpaces
  position : st.position = st'.position
  followingNewlines : st.followingNewlines = st'.followingNewlines

/-- The loop leaves two such states with the same token, and no white space is saved. -/
structure SameProgress (st st' : Progress) : Prop where
  sentence : st.sentence = st'.sentence
  tok : st.tok = st'.tok
  savedSpaces : st.savedSpaces = [] ∧ st'.savedSpaces = []
  position : st.position = st'.position
  followingNewlines : st.followingNewlines = st'.followingNewlines

/-- A token of the tokenizer has its own fields only. -/
theorem own_tokenOf (block : Bytes) (form : Piece) (next : Option Piece) (before : Bytes)
    (offset : ℕ) (range : Option TokenRange) :
    opts.Own (opts.tokenOf block form next before (opts.rangeOf offset range)).misc :=
  ⟨_, opts.separate_fieldsOf _ _ _ _ _, opts.names_fieldsOf _ _ _ _ _ _, rfl⟩

/-- One pass; the counts of line ends agree if those before and the white space do. -/
theorem AlikeProgress.addForm {first : Bool} {st st' : Progress}
    (h : AlikeProgress opts first st st') {offset offset' : ℕ}
    (hoffset : opts.tokenRanges = true → offset = offset') (block : Bytes) (form : Piece)
    (next : Option Piece) (range : Option TokenRange) :
    let made := opts.addForm block offset first form next range st
    let made' := opts.addForm block offset' first form next range st'
    SameProgress made made' ∧ opts.Own made.tok.misc ∧
      ((first = true → st.savedSpaces = st'.savedSpaces) →
        st.preceedingNewlines = st'.preceedingNewlines →
        made.preceedingNewlines = made'.preceedingNewlines) := by
  have htok : opts.tokenOf block form next
        (if first then st.savedSpaces ++ slice block st.position form.start else [])
        (opts.rangeOf offset range) =
      opts.tokenOf block form next
        (if first then st'.savedSpaces ++ slice block st'.position form.start else [])
        (opts.rangeOf offset' range) := by
    refine tokenOf_congr (fun hnormalized => ?_) hoffset block form next range
    split
    · rename_i hfirst
      rw [h.savedSpaces hfirst hnormalized, h.position]
    · rfl
  rw [addForm_eq h.own, addForm_eq h.own']
  dsimp only
  refine ⟨⟨?_, htok, ⟨rfl, rfl⟩, ?_, ?_⟩, own_tokenOf _ _ _ _ _ _, fun hsaved hcount => ?_⟩
  · rw [h.sentence, htok]
  · rw [h.position]
  · rw [h.followingNewlines]
  · rw [hcount]
    cases first with
    | false => rfl
    | true => rw [if_pos rfl, if_pos rfl, hsaved rfl, h.position]

/-- The forms are added alike. -/
theorem AlikeProgress.addForms {first : Bool} {st st' : Progress}
    (h : AlikeProgress opts first st st') {offset offset' : ℕ}
    (hoffset : opts.tokenRanges = true → offset = offset') (block : Bytes) {forms : List Piece}
    (hforms : forms ≠ []) (ranges : List TokenRange) :
    let made := opts.addForms block offset first forms ranges st
    let made' := opts.addForms block offset' first forms ranges st'
    SameProgress made made' ∧ opts.Own made.tok.misc ∧
      ((first = true → st.savedSpaces = st'.savedSpaces) →
        st.preceedingNewlines = st'.preceedingNewlines →
        made.preceedingNewlines = made'.preceedingNewlines) := by
  induction forms generalizing first ranges st st' with
  | nil => exact absurd rfl hforms
  | cons form forms ih =>
    obtain ⟨hsame, hown, hcounts⟩ := h.addForm hoffset block form forms.head? ranges.head?
    cases forms with
    | nil => exact ⟨hsame, hown, hcounts⟩
    | cons next forms =>
      obtain ⟨hsame', hown', hcounts'⟩ := @ih false _ _
        ⟨hsame.sentence, hown, hsame.tok ▸ hown, nofun, hsame.position, hsame.followingNewlines⟩
        (List.cons_ne_nil _ _) ranges.tail
      exact ⟨hsame', hown', fun hsaved hcount => hcounts' nofun (hcounts hsaved hcount)⟩

/-- The sentences have the same nodes, and all comments if the marks agree as well. -/
theorem makeSentence_alike {σ : Type} {w w' : State σ} (hown : opts.Own w.tok.misc)
    (hown' : opts.Own w'.tok.misc) (hblock : w.block = w'.block)
    (hposition : w.position = w'.position)
    (hsaved : opts.normalizedSpaces = false → w.savedSpaces = w'.savedSpaces)
    (hoffset : opts.tokenRanges = true → w.unicodeOffset = w'.unicodeOffset) {forms : List Piece}
    (hforms : forms ≠ []) (ranges : List TokenRange) :
    ∃ s progress progress', SameProgress progress progress' ∧ opts.Own progress.tok.misc ∧
      (w.savedSpaces = w'.savedSpaces → w.preceedingNewlines = w'.preceedingNewlines →
        progress.preceedingNewlines = progress'.preceedingNewlines) ∧
      opts.makeSentence w forms ranges =
        (addComments s w.newDocument w.documentId progress.preceedingNewlines w.sentenceId,
          { w with
            newDocument := false
            preceedingNewlines := progress.followingNewlines
            sentenceId := (w.sentenceId + 1) % unsignedValues
            position := progress.position
            savedSpaces := progress.savedSpaces
            tok := progress.tok }) ∧
      opts.makeSentence w' forms ranges =
        (addComments s w'.newDocument w'.documentId progress'.preceedingNewlines w'.sentenceId,
          { w' with
            newDocument := false
            preceedingNewlines := progress'.followingNewlines
            sentenceId := (w'.sentenceId + 1) % unsignedValues
            position := progress'.position
            savedSpaces := progress'.savedSpaces
            tok := progress'.tok }) := by
  have halike : AlikeProgress opts true
      ⟨.clear, w.tok, w.savedSpaces, w.position, w.preceedingNewlines, 0⟩
      ⟨.clear, w'.tok, w'.savedSpaces, w'.position, w'.preceedingNewlines, 0⟩ :=
    ⟨rfl, hown, hown', fun _ => hsaved, hposition, rfl⟩
  obtain ⟨hsame, hprogress, hcounts⟩ := halike.addForms hoffset w.block hforms ranges
  refine ⟨_, _, _, hsame, hprogress, fun hsaved => hcounts fun _ => hsaved, rfl, ?_⟩
  rw [makeSentence, hsame.sentence, hblock]

end Options

/-! ### All of the sentence -/

section Wrapper

variable {σ : Type} {opts : Options} {inner : InnerTokenizer σ}

/-- Two states of the wrapper that differ in the token they keep at most. -/
structure SameDocument (opts : Options) (inner : InnerTokenizer σ) (w w' : State σ) : Prop where
  own : opts.Own w.tok.misc
  own' : opts.Own w'.tok.misc
  answers : inner.SameAnswers w.inner w'.inner
  rest : w' = { w with inner := w'.inner, tok := w'.tok }

/-- Being in the same document is symmetric. -/
theorem SameDocument.symm {w w' : State σ} (h : SameDocument opts inner w w') :
    SameDocument opts inner w' w where
  own := h.own'
  own' := h.own
  answers := h.answers.symm
  rest := by rw [h.rest]

/-- What a call returns for the forms that are found. -/
def Options.respond (opts : Options) (w : State σ) :
    Option (List Piece × List TokenRange) × σ → NextSentence (State σ)
  | (none, s) => ⟨false, Sentence.clear, [], saveRest { w with inner := s }⟩
  | (some (forms, ranges), s) =>
    let made := opts.makeSentence { w with inner := s } forms ranges
    ⟨true, made.1, [], made.2⟩

/-- `next_sentence` responds to the forms that are found. -/
theorem nextSentence_eq (w : State σ) : opts.nextSentence inner w =
    nextForms inner w.block w.inner >>= fun found => pure (opts.respond w found) := by
  rw [Options.nextSentence]
  congr 1
  funext found
  obtain ⟨_ | ⟨forms, ranges⟩, s⟩ := found <;> rfl

/-- The answers in a document are the same. -/
theorem SameDocument.nextSentence {w w' : State σ} (h : SameDocument opts inner w w') :
    Matches (Alike Eq (SameDocument opts inner)) (opts.nextSentence inner w)
      (opts.nextSentence inner w') := by
  obtain ⟨hown, hown', hanswers, hrest⟩ := h
  have hblock : w'.block = w.block := by rw [hrest]
  rw [nextSentence_eq, nextSentence_eq, hblock]
  refine (hanswers.nextForms w.block).bind fun found found' hfound => matches_pure ?_
  obtain ⟨found, s⟩ := found
  obtain ⟨found', s'⟩ := found'
  obtain ⟨hforms, hne, hanswers'⟩ := hfound
  obtain rfl : found = found' := hforms
  cases found with
  | none => exact ⟨rfl, rfl, rfl, hown, hown', hanswers', by rw [hrest]; rfl⟩
  | some found =>
    obtain ⟨forms, ranges⟩ := found
    obtain ⟨s₁, progress, progress', hsame, hprogress, hcounts, hmade, hmade'⟩ :=
      @Options.makeSentence_alike opts σ { w with inner := s } { w' with inner := s' } hown hown'
        hblock.symm (by rw [hrest]) (fun _ => by rw [hrest]) (fun _ => by rw [hrest]) forms
        (hne _ _ rfl) ranges
    have hcount := hcounts (by rw [hrest]) (by rw [hrest])
    rw [Options.respond, Options.respond]
    rw [hmade, hmade', hsame.tok, hsame.savedSpaces.1, hsame.savedSpaces.2, hsame.position,
      hsame.followingNewlines, hcount, hrest]
    exact ⟨rfl, rfl, rfl, hsame.tok ▸ hprogress, hsame.tok ▸ hprogress, hanswers', rfl⟩

/-- A new text keeps the states in the same document. -/
theorem SameDocument.setText (hforgets : inner.Forgets) {w w' : State σ}
    (h : SameDocument opts inner w w') (text : Bytes) :
    SameDocument opts inner (opts.setText inner text w) (opts.setText inner text w') := by
  obtain ⟨hown, hown', _, hrest⟩ := h
  rw [hrest]
  exact ⟨hown, hown', hforgets _ _ _, rfl⟩

/-- The wrapper separates documents. -/
theorem resettable_wrapper (opts : Options) (hforgets : inner.Forgets) :
    Resettable (wrapper inner opts) (fun w => opts.Own w.tok.misc) (SameDocument opts inner) := by
  have hreset : ∀ id (w w' : State σ), opts.Own w.tok.misc → opts.Own w'.tok.misc →
      SameDocument opts inner (opts.resetDocument inner id w) (opts.resetDocument inner id w') :=
    fun id w w' hown hown' => ⟨hown, hown', hforgets _ _ _, rfl⟩
  exact {
    resetDocument := fun id w w' h => hreset id w w' h.own h.own'
    setText := fun text w w' h => h.setText hforgets text
    nextSentence := fun w w' h => h.nextSentence
    symm := fun w w' h => h.symm
    refl := fun w hown => ⟨hown, hown, fun _ => rfl, rfl⟩
    left := fun w w' h => h.own
    reset := hreset }

/-! ### Only the nodes of the sentence -/

/-- Whether a sentence begins a paragraph depends on the count of line ends. -/
theorem getNewPar_addComments (s : Sentence) (documentId documentId' : Bytes)
    (preceedingNewlines sentenceId sentenceId' : ℕ) :
    (Options.addComments s false documentId preceedingNewlines sentenceId).getNewPar =
      (Options.addComments s false documentId' preceedingNewlines sentenceId').getNewPar := by
  have hpar : ∀ documentId sentenceId,
      (Options.addComments s false documentId preceedingNewlines sentenceId).getNewPar =
        (if 2 ≤ preceedingNewlines then s.setNewPar true else s).getNewPar := by
    intro documentId sentenceId
    have htext : ∀ t : Sentence, Sentence.getNewPar
        { t with comments := t.comments ++ [bytes "# text = " ++ t.surfaceText] } = t.getNewPar :=
      fun t => Sentence.getNewPar_append rfl rfl
    exact (htext _).trans (Sentence.getNewPar_setSentId _ _)
  rw [hpar, hpar]

/-- Two states of the wrapper that have saved the same white space and come to the same
offset, as far as these are used. -/
structure SameCarry (opts : Options) (w w' : State σ) : Prop where
  own : opts.Own w.tok.misc
  own' : opts.Own w'.tok.misc
  savedSpaces : opts.normalizedSpaces = false → w.savedSpaces = w'.savedSpaces
  offset : opts.tokenRanges = true →
    w.unicodeOffset + w.textUnicodeLength = w'.unicodeOffset + w'.textUnicodeLength

/-- Two such states within the same text. After a sentence of it, they also count the same
line ends. -/
structure SameText (opts : Options) (inner : InnerTokenizer σ) (read : Bool) (w w' : State σ) :
    Prop where
  own : opts.Own w.tok.misc
  own' : opts.Own w'.tok.misc
  answers : inner.SameAnswers w.inner w'.inner
  block : w.block = w'.block
  position : w.position = w'.position
  savedSpaces : opts.normalizedSpaces = false → w.savedSpaces = w'.savedSpaces
  unicodeOffset : opts.tokenRanges = true → w.unicodeOffset = w'.unicodeOffset
  textUnicodeLength : w.textUnicodeLength = w'.textUnicodeLength
  newDocument : read = true → w.newDocument = false ∧ w'.newDocument = false
  counted : read = true →
    w.savedSpaces = w'.savedSpaces ∧ w.preceedingNewlines = w'.preceedingNewlines

/-- The answers in a text are the same. -/
theorem SameText.nextSentence {read : Bool} {w w' : State σ}
    (h : SameText opts inner read w w') :
    Matches (AlikeNodes (SameText opts inner) read) (opts.nextSentence inner w)
      (opts.nextSentence inner w') := by
  rw [nextSentence_eq, nextSentence_eq, ← h.block]
  refine (h.answers.nextForms w.block).bind fun found found' hfound => matches_pure ?_
  obtain ⟨found, s⟩ := found
  obtain ⟨found', s'⟩ := found'
  obtain ⟨hforms, hne, hanswers⟩ := hfound
  obtain rfl : found = found' := hforms
  cases found with
  | none =>
    refine ⟨rfl, ⟨rfl, rfl, rfl⟩, fun _ => rfl, rfl, ?_⟩
    have hrest : w.block.drop w.position = w'.block.drop w'.position := by
      rw [h.block, h.position]
    exact {
      own := h.own
      own' := h.own'
      answers := hanswers
      block := h.block
      position := congrArg List.length h.block
      savedSpaces := fun hnormalized => congrArg₂ (· ++ ·) (h.savedSpaces hnormalized) hrest
      unicodeOffset := h.unicodeOffset
      textUnicodeLength := h.textUnicodeLength
      newDocument := fun hread => h.newDocument ((Bool.or_false read).symm.trans hread)
      counted := fun hread =>
        have hcounted := h.counted ((Bool.or_false read).symm.trans hread)
        ⟨congrArg₂ (· ++ ·) hcounted.1 hrest, hcounted.2⟩ }
  | some found =>
    obtain ⟨forms, ranges⟩ := found
    obtain ⟨s₁, progress, progress', hsame, hprogress, hcounts, hmade, hmade'⟩ :=
      @Options.makeSentence_alike opts σ { w with inner := s } { w' with inner := s' } h.own h.own'
        h.block h.position h.savedSpaces h.unicodeOffset forms (hne _ _ rfl) ranges
    rw [Options.respond, Options.respond]
    rw [hmade, hmade']
    refine ⟨rfl, ?_, fun hread => ?_, rfl, ?_⟩
    · exact (Options.sameNodes_addComments _ _ _ _ _).trans
        (Options.sameNodes_addComments _ _ _ _ _).symm
    · obtain ⟨hnew, hnew'⟩ := h.newDocument hread
      have hcounted := h.counted hread
      rw [hcounts hcounted.1 hcounted.2]
      dsimp only
      rw [hnew, hnew', getNewPar_addComments]
    · exact {
        own := hprogress
        own' := hsame.tok ▸ hprogress
        answers := hanswers
        block := h.block
        position := hsame.position
        savedSpaces := fun _ => hsame.savedSpaces.1.trans hsame.savedSpaces.2.symm
        unicodeOffset := h.unicodeOffset
        textUnicodeLength := h.textUnicodeLength
        newDocument := fun _ => ⟨rfl, rfl⟩
        counted := fun _ =>
          ⟨hsame.savedSpaces.1.trans hsame.savedSpaces.2.symm, hsame.followingNewlines⟩ }

/-- The nodes of the sentences depend on what is carried over from the texts before only. -/
theorem nodeSimulation_wrapper (opts : Options) (hforgets : inner.Forgets) :
    NodeSimulation (wrapper inner opts) (SameCarry opts) (SameText opts inner) where
  setText text w w' h := {
    own := h.own
    own' := h.own'
    answers := hforgets _ _ _
    block := rfl
    position := rfl
    savedSpaces := fun hnormalized => congrArg (· ++ _) (h.savedSpaces hnormalized)
    unicodeOffset := fun hranges => by
      have hoffset := h.offset hranges
      show w.unicodeOffset + _ + w.textUnicodeLength = w'.unicodeOffset + _ + w'.textUnicodeLength
      omega
    textUnicodeLength := rfl
    newDocument := nofun
    counted := nofun }
  nextSentence _ _ _ h := h.nextSentence
  ready _ w w' h :=
    ⟨h.own, h.own', h.savedSpaces, fun hranges => by
      rw [h.unicodeOffset hranges, h.textUnicodeLength]⟩

end Wrapper

end UDPipe.Tokenizer
