import UDPipe.Tokenizer.Isolation

/-!
# The presegmented tokenizer

The class `input_format_presegmented_tokenizer` of `sentence/input_format.cpp` gives every
line of a text to the reader it wraps, and makes one sentence of all that is read of it.
It resets the reader together with its own fields, so it separates documents if the reader
does; of the sentences that are read only the nodes are used.
-/

namespace UDPipe.Presegmented

open Comp InputFormat
open LineFormats (Marks)

variable {σ : Type}

/-- The fields of the tokenizer. -/
structure State (σ : Type) extends Marks where
  tokenizer : σ
  text : Bytes := []

/-- Count line ends. -/
def addNewlines (m : Marks) (count : ℕ) : Marks :=
  { m with preceedingNewlines := (m.preceedingNewlines + count) % unsignedValues }

/-- Append the words, multiword tokens and empty nodes of a partial sentence. -/
def appendPartial (s part : Sentence) : Sentence :=
  let words : ℤ := s.words.length - 1
  { s with
    words := s.words ++ (part.words.drop 1).map fun word =>
      { word with
        id := word.id + words
        head := if word.head > 0 then word.head + words else word.head }
    multiwordTokens := s.multiwordTokens ++ part.multiwordTokens.map fun token =>
      { token with idFirst := token.idFirst + words, idLast := token.idLast + words }
    emptyNodes := s.emptyNodes ++ part.emptyNodes.map fun node =>
      { node with id := node.id + words } }

/-- What `next_sentence` changes. -/
structure Progress (σ : Type) where
  marks : Marks
  tokenizer : σ
  text : Bytes
  sentence : Sentence
  followingNewlines : ℕ

/-- A line with the line ends around it. -/
structure Line where
  before : Bytes
  body : Bytes
  after : Bytes

/-- The next line of a text, and the text after it. -/
def nextLine (text : Bytes) : Line × Bytes :=
  let rest := text.dropWhile isLineEnd
  let rest' := rest.dropWhile fun c => !isLineEnd c
  (⟨text.takeWhile isLineEnd, rest.takeWhile fun c => !isLineEnd c, rest'.takeWhile isLineEnd⟩,
    rest'.dropWhile isLineEnd)

section Reader

variable (inner : InputFormat σ)

/-- One pass of the loop over the sentences of a line. -/
def partialStep (state : σ × Sentence) :
    Comp (LoopStep (σ × Sentence) (Bytes × σ × Sentence)) := do
  let r ← inner.nextSentence state.1
  pure (if r.returned then .next (r.state, appendPartial state.2 r.sentence)
    else .done (r.error, r.state, state.2))

/-- One pass of the loop over the lines, which ends with an error or without. -/
def lineStep (p : Progress σ) : Comp (LoopStep (Progress σ) (Bytes × Progress σ)) :=
  if p.text = [] ∨ p.sentence.isEmpty = false then pure (.done ([], p))
  else
    let line := (nextLine p.text).1
    let marks := addNewlines p.marks (line.before.count lf)
    let followingNewlines := (p.followingNewlines + line.after.count lf) % unsignedValues
    do
      let (error, tokenizer, sentence) ← Comp.loop (partialStep inner)
        (inner.setText (line.before ++ line.body ++ line.after) p.tokenizer, p.sentence)
      let text := (nextLine p.text).2
      pure <|
        if error ≠ [] then .done (error, ⟨marks, tokenizer, text, sentence, followingNewlines⟩)
        else if sentence.isEmpty then
          .next ⟨addNewlines marks followingNewlines, tokenizer, text, sentence, 0⟩
        else .next ⟨marks, tokenizer, text, sentence, followingNewlines⟩

/-- How `next_sentence` ends. -/
def finish (ended : Bytes × Progress σ) : NextSentence (State σ) :=
  let (error, p) := ended
  let m := p.marks
  if error ≠ [] ∨ p.sentence.isEmpty then
    ⟨false, p.sentence, error, { m with tokenizer := p.tokenizer, text := p.text }⟩
  else
    ⟨true, Tokenizer.Options.addComments p.sentence m.newDocument m.documentId
        m.preceedingNewlines m.sentenceId, [],
      { m.next with
        preceedingNewlines := p.followingNewlines
        tokenizer := p.tokenizer
        text := p.text }⟩

/-- `next_sentence`. -/
def nextSentence (state : State σ) : Comp (NextSentence (State σ)) := do
  let ended ← Comp.loop (lineStep inner)
    ⟨state.toMarks, state.tokenizer, state.text, .clear, 0⟩
  pure (finish ended)

/-- `input_format_presegmented_tokenizer`. -/
def reader : InputFormat (State σ) where
  readBlock := LineFormats.Horizontal.readBlock
  resetDocument id state :=
    { documentId := id, tokenizer := inner.resetDocument [] state.tokenizer }
  setText text state := { state with text }
  nextSentence := nextSentence inner

end Reader

/-! ### What the loops keep of two states -/

section Loops

variable {inner : InputFormat σ} {same : Sentence → Sentence → Prop} {R Q : σ → σ → Prop}

/-- Two states of the loop over the lines. -/
structure AlikeProgress (R : σ → σ → Prop) (M : Marks → Marks → Prop) (p p' : Progress σ) :
    Prop where
  marks : M p.marks p'.marks
  tokenizer : R p.tokenizer p'.tokenizer
  text : p.text = p'.text
  sentence : p.sentence = p'.sentence
  followingNewlines : p.followingNewlines = p'.followingNewlines

/-- Only the nodes of an appended part matter. -/
theorem appendPartial_congr {part part' : Sentence} (h : part.SameNodes part') (s : Sentence) :
    appendPartial s part = appendPartial s part' := by
  obtain ⟨hwords, htokens, hnodes⟩ := h
  rw [appendPartial, appendPartial, hwords, htokens, hnodes]

/-- If the sentences of a line have the same nodes, the same sentence is made of them. -/
theorem matches_partialSteps
    (hcall : ∀ s s', Q s s' → Matches
      (fun r r' => r.returned = r'.returned ∧ r.sentence.SameNodes r'.sentence ∧
        r.error = r'.error ∧ Q r.state r'.state) (inner.nextSentence s) (inner.nextSentence s'))
    {s s' : σ} (h : Q s s') (sentence : Sentence) :
    Matches (fun (a b : Bytes × σ × Sentence) => a.1 = b.1 ∧ Q a.2.1 b.2.1 ∧ a.2.2 = b.2.2)
      (Comp.loop (partialStep inner) (s, sentence))
      (Comp.loop (partialStep inner) (s', sentence)) := by
  refine matches_loop (I := fun a b => Q a.1 b.1 ∧ a.2 = b.2) (fun a b hab => ?_) ⟨h, rfl⟩
  obtain ⟨hstate, hsentence⟩ := hab
  refine (hcall _ _ hstate).bind fun r r' hr => matches_pure ?_
  obtain ⟨hreturned, hnodes, herror, hnext⟩ := hr
  rw [← hreturned]
  split
  · exact ⟨hnext, by rw [hsentence, appendPartial_congr hnodes]⟩
  · exact ⟨herror, hnext, hsentence⟩

/-- The steps of the lines match when the calls of the inner reader do. -/
theorem matches_lineSteps {M : Marks → Marks → Prop}
    (hsetText : ∀ text s s', R s s' → Q (inner.setText text s) (inner.setText text s'))
    (hready : ∀ s s', Q s s' → R s s')
    (hcall : ∀ s s', Q s s' → Matches
      (fun r r' => r.returned = r'.returned ∧ r.sentence.SameNodes r'.sentence ∧
        r.error = r'.error ∧ Q r.state r'.state) (inner.nextSentence s) (inner.nextSentence s'))
    (hcount : ∀ m m' count, M m m' → M (addNewlines m count) (addNewlines m' count))
    {p p' : Progress σ} (h : AlikeProgress R M p p') :
    Matches (fun (a b : Bytes × Progress σ) => a.1 = b.1 ∧ AlikeProgress R M a.2 b.2)
      (Comp.loop (lineStep inner) p) (Comp.loop (lineStep inner) p') := by
  refine matches_loop (I := AlikeProgress R M) (fun p p' h => ?_) h
  obtain ⟨hmarks, htokenizer, htext, hsentence, hfollowing⟩ := h
  rw [lineStep, lineStep, ← htext, ← hsentence, ← hfollowing]
  split
  · exact matches_pure ⟨rfl, hmarks, htokenizer, htext, hsentence, hfollowing⟩
  · refine (matches_partialSteps hcall (hsetText _ _ _ htokenizer) p.sentence).bind
      fun a b hab => matches_pure ?_
    obtain ⟨error, tokenizer, sentence⟩ := a
    obtain ⟨error', tokenizer', sentence'⟩ := b
    obtain ⟨rfl, hQ, rfl⟩ : error = error' ∧ Q tokenizer tokenizer' ∧ sentence = sentence' := hab
    dsimp only
    split
    · exact ⟨rfl, hcount _ _ _ hmarks, hready _ _ hQ, rfl, rfl, rfl⟩
    · split
      · exact ⟨hcount _ _ _ (hcount _ _ _ hmarks), hready _ _ hQ, rfl, rfl, rfl⟩
      · exact ⟨hcount _ _ _ hmarks, hready _ _ hQ, rfl, rfl, rfl⟩

end Loops

/-! ### Documents -/

section Documents

variable {inner : InputFormat σ} {R : σ → σ → Prop}

/-- Two states with the same fields and with readers that cannot be told apart. -/
structure SameState (R : σ → σ → Prop) (state state' : State σ) : Prop where
  marks : state.toMarks = state'.toMarks
  tokenizer : R state.tokenizer state'.tokenizer
  text : state.text = state'.text

/-- Readers in the same state answer alike. -/
theorem SameState.nextSentence (h : Simulation inner R) {state state' : State σ}
    (hstate : SameState R state state') :
    Matches (Alike Eq (SameState R)) (nextSentence inner state) (nextSentence inner state') := by
  have hstart : AlikeProgress R Eq ⟨state.toMarks, state.tokenizer, state.text, .clear, 0⟩
      ⟨state'.toMarks, state'.tokenizer, state'.text, .clear, 0⟩ :=
    ⟨hstate.marks, hstate.tokenizer, hstate.text, rfl, rfl⟩
  refine (matches_lineSteps h.setText (fun _ _ h => h) (fun s s' hs => ?_)
    (fun m m' count hm => hm ▸ rfl) hstart).bind fun a b hab => matches_pure ?_
  · intro r hr
    obtain ⟨r', hr', halike⟩ := h.nextSentence s s' hs r hr
    exact ⟨r', hr', halike.returned, halike.sentence ▸ ⟨rfl, rfl, rfl⟩, halike.error,
      halike.state⟩
  · obtain ⟨error, p⟩ := a
    obtain ⟨error', p'⟩ := b
    obtain ⟨rfl, hmarks, htokenizer, htext, hsentence, hfollowing⟩ := hab
    rw [finish, finish, ← hsentence, ← hmarks, ← hfollowing]
    dsimp only
    split
    · exact ⟨rfl, rfl, rfl, rfl, htokenizer, htext⟩
    · exact ⟨rfl, rfl, rfl, rfl, htokenizer, htext⟩

/-- The tokenizer separates documents if the reader it wraps does. -/
theorem resettable_reader {Inv : σ → Prop} (h : Resettable inner Inv R) :
    Resettable (reader inner) (fun state => Inv state.tokenizer) (SameState R) where
  resetDocument _ _ _ hstate := ⟨rfl, h.resetDocument [] _ _ hstate.tokenizer, rfl⟩
  setText _ _ _ hstate := ⟨hstate.marks, hstate.tokenizer, rfl⟩
  nextSentence _ _ hstate := hstate.nextSentence h.toSimulation
  symm _ _ hstate := ⟨hstate.marks.symm, h.symm _ _ hstate.tokenizer, hstate.text.symm⟩
  refl _ hstate := ⟨rfl, h.refl _ hstate, rfl⟩
  left _ _ hstate := h.left _ _ hstate.tokenizer
  reset _ _ _ hstate hstate' := ⟨rfl, h.reset [] _ _ hstate hstate', rfl⟩

/-- Two states within the same text, of which a sentence may have been read. -/
structure SameText (ready : σ → σ → Prop) (read : Bool) (state state' : State σ) : Prop where
  tokenizer : ready state.tokenizer state'.tokenizer
  text : state.text = state'.text
  counted : read = true → (state.newDocument = false ∧ state'.newDocument = false) ∧
    state.preceedingNewlines = state'.preceedingNewlines

/-- The nodes depend on what the wrapped reader carries over only. -/
theorem nodeSimulation_reader {ready : σ → σ → Prop} {within : Bool → σ → σ → Prop}
    (h : NodeSimulation inner ready within) :
    NodeSimulation (reader inner) (fun state state' => ready state.tokenizer state'.tokenizer)
      (SameText ready) where
  setText _ _ _ hready := ⟨hready, rfl, nofun⟩
  ready _ _ _ hstate := hstate.tokenizer
  nextSentence read state state' hstate := by
    let M (m m' : Marks) : Prop := read = true →
      (m.newDocument = false ∧ m'.newDocument = false) ∧
        m.preceedingNewlines = m'.preceedingNewlines
    have hstart : AlikeProgress ready M ⟨state.toMarks, state.tokenizer, state.text, .clear, 0⟩
        ⟨state'.toMarks, state'.tokenizer, state'.text, .clear, 0⟩ :=
      ⟨hstate.counted, hstate.tokenizer, hstate.text, rfl, rfl⟩
    have hcount : ∀ m m' count, M m m' → M (addNewlines m count) (addNewlines m' count) :=
      fun m m' count hm hread => ⟨(hm hread).1, by rw [addNewlines, addNewlines, (hm hread).2]⟩
    refine (matches_lineSteps (Q := fun s s' => ∃ read, within read s s')
      (fun text s s' hready => ⟨false, h.setText text s s' hready⟩)
      (fun s s' ⟨read, hwithin⟩ => h.ready read s s' hwithin) (fun s s' hwithin => ?_)
      hcount hstart).bind fun a b hab => matches_pure ?_
    · obtain ⟨read, hwithin⟩ := hwithin
      intro r hr
      obtain ⟨r', hr', halike⟩ := h.nextSentence read s s' hwithin r hr
      exact ⟨r', hr', halike.returned, halike.nodes, halike.error, _, halike.state⟩
    · obtain ⟨error, p⟩ := a
      obtain ⟨error', p'⟩ := b
      obtain ⟨rfl, hmarks, htokenizer, htext, hsentence, hfollowing⟩ := hab
      rw [finish, finish, ← hsentence, ← hfollowing]
      dsimp only
      split
      · exact ⟨rfl, ⟨rfl, rfl, rfl⟩, fun _ => rfl, rfl, htokenizer, htext,
          fun hread => hmarks ((Bool.or_false read).symm.trans hread)⟩
      · refine ⟨rfl, ?_, fun hread => ?_, rfl, htokenizer, htext, fun _ => ⟨⟨rfl, rfl⟩, rfl⟩⟩
        · exact (Tokenizer.Options.sameNodes_addComments _ _ _ _ _).trans
            (Tokenizer.Options.sameNodes_addComments _ _ _ _ _).symm
        · obtain ⟨⟨hnew, hnew'⟩, hlines⟩ := hmarks hread
          rw [hnew, hnew', hlines]
          exact Tokenizer.getNewPar_addComments _ _ _ _ _ _

end Documents

end UDPipe.Presegmented
