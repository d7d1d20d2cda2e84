import Mathlib.Data.List.Forall2
import UDPipe.Joint.Paragraph
import UDPipe.Tokenizer.Presegmented
import UDPipe.Tokenizer.Runs

/-!
# The tokenizer that is joint with parsing

The class `joint_with_parsing_tokenizer` of `model_morphodita_parsito.cpp` reads all
sentences of a text from the tokenizer it wraps, and segments each paragraph of them anew.
Its `reset_document` does not reset that tokenizer. So a document is read as by a new
reader if the tokenizer has nothing to carry over: no white space that it would store
before a token, and no offset that it would add to ranges.
-/

namespace UDPipe.Joint

open Comp InputFormat

variable {σ R : Type}

/-- The fields of the tokenizer; of its sentences those that were not returned. -/
structure State (σ : Type) where
  tokenizer : σ
  newDocument : Bool := true
  documentId : Bytes := []
  text : Bytes := []
  sentences : List Sentence := []

/-- What the loop over the sentences of a text changes. -/
structure Progress (σ : Type) where
  tokenizer : σ
  newDocument : Bool
  paragraph : List Sentence
  sentences : List Sentence

section Reader

variable [Add R] [Mul R] [IntCast R] [LT R] [DecidableLT R] (inner : InputFormat σ)
  (opts : Options R)

/-- Segment a paragraph and take its sentences. -/
def closeParagraph (documentId : Bytes) (p : Progress σ) : Comp (Except Bytes (Progress σ)) := do
  match ← opts.parseParagraph p.newDocument documentId p.paragraph with
  | .error error => pure (.error error)
  | .ok (sentences, newDocument) =>
    pure (.ok { p with newDocument, paragraph := [], sentences := p.sentences ++ sentences })

/-- One pass of the loop over the sentences of a text, which may end with an error. -/
def sentenceStep (documentId : Bytes) (p : Progress σ) :
    Comp (LoopStep (Progress σ) (Option Bytes × Progress σ)) := do
  let r ← inner.nextSentence p.tokenizer
  let p := { p with tokenizer := r.state }
  if r.returned then
    if r.sentence.getNewPar ∧ p.paragraph ≠ [] then
      match ← closeParagraph opts documentId p with
      | .error error => pure (.done (some error, p))
      | .ok p => pure (.next { p with paragraph := [r.sentence] })
    else pure (.next { p with paragraph := p.paragraph ++ [r.sentence] })
  else if r.error ≠ [] then pure (.done (some r.error, p))
  else if p.paragraph = [] then pure (.done (none, p))
  else
    match ← closeParagraph opts documentId p with
    | .error error => pure (.done (some error, p))
    | .ok p => pure (.done (none, p))

/-- Return the next of the sentences; without one, the sentence stays as it was. -/
def takeSentence (state : State σ) : NextSentence (State σ) :=
  match state.sentences with
  | [] => ⟨false, .clear, [], state⟩
  | s :: rest => ⟨true, s, [], { state with sentences := rest }⟩

/-- The end of the loop; after an error the text stays. -/
def finish (state : State σ) (ended : Option Bytes × Progress σ) : NextSentence (State σ) :=
  let (failed, p) := ended
  let state := { state with
    tokenizer := p.tokenizer, newDocument := p.newDocument, sentences := p.sentences }
  match failed with
  | some error => ⟨false, .clear, error, state⟩
  | none => takeSentence { state with text := [] }

/-- `next_sentence`. -/
def nextSentence (state : State σ) : Comp (NextSentence (State σ)) :=
  if state.text = [] then pure (takeSentence state)
  else do
    let ended ← Comp.loop (sentenceStep inner opts state.documentId)
      ⟨inner.setText state.text state.tokenizer, state.newDocument, [], []⟩
    pure (finish state ended)

/-- `joint_with_parsing_tokenizer`; the tokenizer is not reset. -/
def reader : InputFormat (State σ) where
  readBlock := getwhole
  resetDocument id state := { documentId := id, tokenizer := state.tokenizer }
  setText text state := { state with text }
  nextSentence := nextSentence inner opts

end Reader

/-! ### Paragraphs with the same nodes -/

/-- The segmentation uses the nodes of the sentences only. -/
theorem gather_congr {paragraph paragraph' : List Sentence}
    (h : List.Forall₂ Sentence.SameNodes paragraph paragraph') :
    gather paragraph = gather paragraph' := by
  have hfold : ∀ all : AllWords, paragraph.foldl AllWords.addSentence all =
      paragraph'.foldl AllWords.addSentence all := by
    induction h with
    | nil => exact fun _ => rfl
    | cons hnodes _ ih =>
      intro all
      rw [List.foldl_cons, List.foldl_cons, ih, AllWords.addSentence, AllWords.addSentence,
        hnodes.1, hnodes.2.1]
  exact hfold _

section Documents

variable [Add R] [Mul R] [IntCast R] [LT R] [DecidableLT R] {inner : InputFormat σ}
  {opts : Options R} {ready : σ → σ → Prop} {within : Bool → σ → σ → Prop}

/-- Only the nodes of the sentences matter for a paragraph. -/
theorem parseParagraph_congr {paragraph paragraph' : List Sentence}
    (h : List.Forall₂ Sentence.SameNodes paragraph paragraph') (newDocument : Bool)
    (documentId : Bytes) : opts.parseParagraph newDocument documentId paragraph =
      opts.parseParagraph newDocument documentId paragraph' := by
  rw [Options.parseParagraph, Options.parseParagraph, gather_congr h]

/-- Two states of the loop that read the same nodes. -/
structure AlikeProgress (within : Bool → σ → σ → Prop) (read : Bool) (p p' : Progress σ) :
    Prop where
  tokenizer : within read p.tokenizer p'.tokenizer
  newDocument : p.newDocument = p'.newDocument
  paragraph : List.Forall₂ Sentence.SameNodes p.paragraph p'.paragraph
  read : p.paragraph ≠ [] → read = true
  sentences : p.sentences = p'.sentences

/-- The ends of the loop from such states. -/
structure AlikeEnd (ready : σ → σ → Prop) (ended ended' : Option Bytes × Progress σ) : Prop where
  failed : ended.1 = ended'.1
  tokenizer : ready ended.2.tokenizer ended'.2.tokenizer
  newDocument : ended.2.newDocument = ended'.2.newDocument
  sentences : ended.2.sentences = ended'.2.sentences

/-- The result of a paragraph, which is empty afterwards. -/
def AlikeClosed (within : Bool → σ → σ → Prop) (read : Bool) :
    Except Bytes (Progress σ) → Except Bytes (Progress σ) → Prop
  | .error error, .error error' => error = error'
  | .ok p, .ok p' => AlikeProgress within read p p'
  | _, _ => False

/-- Alike readers close a paragraph alike. -/
theorem AlikeProgress.closeParagraph {read : Bool} {p p' : Progress σ}
    (h : AlikeProgress within read p p') (documentId : Bytes) :
    Matches (AlikeClosed within read) (closeParagraph opts documentId p)
      (closeParagraph opts documentId p') := by
  obtain ⟨htokenizer, hnew, hparagraph, _, hsentences⟩ := h
  rw [Joint.closeParagraph, Joint.closeParagraph, parseParagraph_congr hparagraph, hnew,
    hsentences]
  intro closed hclosed
  obtain ⟨result, hresult, hclosed⟩ := returns_bind.mp hclosed
  cases result with
  | error error =>
    obtain rfl := returns_pure.mp hclosed
    exact ⟨_, returns_bind.mpr ⟨_, hresult, returns_pure.mpr rfl⟩, rfl⟩
  | ok result =>
    obtain rfl := returns_pure.mp hclosed
    exact ⟨_, returns_bind.mpr ⟨_, hresult, returns_pure.mpr rfl⟩,
      htokenizer, rfl, .nil, fun hne => absurd rfl hne, rfl⟩

/-- Alike readers read a sentence alike. -/
theorem AlikeProgress.sentenceStep (h : NodeSimulation inner ready within) (documentId : Bytes)
    {read : Bool} {p p' : Progress σ} (hp : AlikeProgress within read p p') :
    Matches (SameStep (fun p p' => ∃ read, AlikeProgress within read p p') (AlikeEnd ready))
      (sentenceStep inner opts documentId p) (sentenceStep inner opts documentId p') := by
  obtain ⟨htokenizer, hnew, hparagraph, hread, hsentences⟩ := hp
  refine (h.nextSentence read _ _ htokenizer).bind fun r r' hr => ?_
  obtain ⟨hreturned, hnodes, hnewPar, herror, hstate⟩ := hr
  have hempty : p.paragraph = [] ↔ p'.paragraph = [] := by
    rw [← List.length_eq_zero_iff, ← List.length_eq_zero_iff, hparagraph.length_eq]
  have hready := h.ready _ _ _ hstate
  have hpara : AlikeProgress within (read || r.returned) { p with tokenizer := r.state }
      { p' with tokenizer := r'.state } :=
    ⟨hstate, hnew, hparagraph, fun hne => by rw [hread hne, Bool.true_or], hsentences⟩
  dsimp only
  rw [← hreturned]
  split
  · rename_i hreturned
    have hbegins : (r.sentence.getNewPar = true ∧ p.paragraph ≠ []) ↔
        (r'.sentence.getNewPar = true ∧ p'.paragraph ≠ []) := by
      rw [Ne, Ne, ← hempty]
      exact and_congr_left fun hne => by rw [hnewPar (hread hne)]
    by_cases hcond : r.sentence.getNewPar = true ∧ p.paragraph ≠ []
    · rw [if_pos hcond, if_pos (hbegins.mp hcond)]
      refine (hpara.closeParagraph documentId).bind fun closed closed' hclosed => ?_
      match closed, closed', hclosed with
      | .error error, .error _, rfl =>
        exact matches_pure ⟨rfl, hready, hnew, hsentences⟩
      | .ok q, .ok q', hq =>
        refine matches_pure ⟨true, ?_, hq.newDocument, .cons hnodes .nil, fun _ => rfl,
          hq.sentences⟩
        simpa [hreturned] using hq.tokenizer
    · rw [if_neg hcond, if_neg (mt hbegins.mpr hcond)]
      refine matches_pure ⟨true, ?_, hnew, ?_, fun _ => rfl, hsentences⟩
      · simpa [hreturned] using hstate
      · exact List.rel_append hparagraph (.cons hnodes .nil)
  · rw [← herror]
    split
    · exact matches_pure ⟨rfl, hready, hnew, hsentences⟩
    · by_cases hnil : p.paragraph = []
      · rw [if_pos hnil, if_pos (hempty.mp hnil)]
        exact matches_pure ⟨rfl, hready, hnew, hsentences⟩
      · rw [if_neg hnil, if_neg (mt hempty.mpr hnil)]
        refine (hpara.closeParagraph documentId).bind fun closed closed' hclosed => ?_
        match closed, closed', hclosed with
        | .error error, .error _, rfl =>
          exact matches_pure ⟨rfl, hready, hnew, hsentences⟩
        | .ok q, .ok q', hq =>
          exact matches_pure ⟨rfl, h.ready _ _ _ hq.tokenizer, hq.newDocument, hq.sentences⟩

/-- Two states that return the same sentences from now on. -/
structure SameState (ready : σ → σ → Prop) (state state' : State σ) : Prop where
  tokenizer : ready state.tokenizer state'.tokenizer
  newDocument : state.newDocument = state'.newDocument
  documentId : state.documentId = state'.documentId
  text : state.text = state'.text
  sentences : state.sentences = state'.sentences

/-- Alike readers take a sentence out of their buffers alike. -/
theorem SameState.takeSentence {state state' : State σ} (h : SameState ready state state') :
    Alike Eq (SameState ready) (takeSentence state) (takeSentence state') := by
  obtain ⟨htokenizer, hnew, hid, htext, hsentences⟩ := h
  rw [Joint.takeSentence, Joint.takeSentence, ← hsentences]
  cases hrest : state.sentences with
  | nil => exact ⟨rfl, rfl, rfl, htokenizer, hnew, hid, htext, hsentences⟩
  | cons s rest => exact ⟨rfl, rfl, rfl, htokenizer, hnew, hid, htext, rfl⟩

/-- Alike readers return alike. -/
theorem SameState.nextSentence (h : NodeSimulation inner ready within) {state state' : State σ}
    (hstate : SameState ready state state') : Matches (Alike Eq (SameState ready))
      (nextSentence inner opts state) (nextSentence inner opts state') := by
  obtain ⟨htokenizer, hnew, hid, htext, hsentences⟩ := hstate
  rw [Joint.nextSentence, Joint.nextSentence, ← htext, ← hid, ← hnew]
  split
  · exact matches_pure (SameState.takeSentence ⟨htokenizer, hnew, hid, htext, hsentences⟩)
  · have hstart : AlikeProgress within false
        ⟨inner.setText state.text state.tokenizer, state.newDocument, [], []⟩
        ⟨inner.setText state.text state'.tokenizer, state.newDocument, [], []⟩ :=
      ⟨h.setText _ _ _ htokenizer, rfl, .nil, fun hne => absurd rfl hne, rfl⟩
    have hloop := matches_loop (I := fun p p' => ∃ read, AlikeProgress within read p p')
      (fun p p' ⟨_, hp⟩ => @AlikeProgress.sentenceStep _ _ _ _ _ _ _ _ opts _ _ h
        state.documentId _ p p' hp) ⟨false, hstart⟩
    refine hloop.bind fun ended ended' hended => matches_pure ?_
    obtain ⟨failed, p⟩ := ended
    obtain ⟨failed', p'⟩ := ended'
    obtain ⟨rfl, htokenizer, hnew, hsentences⟩ := hended
    cases failed with
    | none => exact SameState.takeSentence ⟨htokenizer, hnew, hid, rfl, hsentences⟩
    | some error => exact ⟨rfl, rfl, rfl, htokenizer, hnew, hid, htext, hsentences⟩

/-- What the wrapped tokenizer carries over is all that tells two states apart. -/
theorem simulation_reader (h : NodeSimulation inner ready within) :
    Simulation (reader inner opts) (SameState ready) where
  resetDocument _ _ _ hstate := ⟨hstate.tokenizer, rfl, rfl, rfl, rfl⟩
  setText _ _ _ hstate :=
    ⟨hstate.tokenizer, hstate.newDocument, hstate.documentId, rfl, hstate.sentences⟩
  nextSentence _ _ hstate := hstate.nextSentence h

/-- A reader with a ready tokenizer reads as a new one. -/
theorem readsAsFresh_of_ready (h : NodeSimulation inner ready within)
    (hsymm : ∀ s s', ready s s' → ready s' s) {fresh state : State σ}
    (hready : ready state.tokenizer fresh.tokenizer) :
    ReadsAsFresh (reader inner opts) fresh state :=
  (simulation_reader h).readsAsFresh
    (fun _ _ hstate => ⟨hsymm _ _ hstate.tokenizer, hstate.newDocument.symm,
      hstate.documentId.symm, hstate.text.symm, hstate.sentences.symm⟩)
    fun _ => ⟨hready, rfl, rfl, rfl, rfl⟩

end Documents

end UDPipe.Joint
