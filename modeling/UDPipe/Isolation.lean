import UDPipe.Conllu.Reader
import UDPipe.LineFormats.Readers

/-!
# What is read after a reset

A reader is used by calls of its operations, and answers the calls of `next_sentence`.
Two states of a reader cannot be told apart if a relation between them is kept by every
call and makes the answers the same. So `reset_document` separates documents if it takes
all states that calls lead to, to related ones.
-/

namespace UDPipe.InputFormat

/-- A call of an operation of a reader. -/
inductive Call where
  | resetDocument (id : Bytes)
  | setText (text : Bytes)
  | nextSentence
  deriving DecidableEq, Repr

/-- What `next_sentence` answers. -/
structure Answer where
  returned : Bool
  sentence : Sentence
  error : Bytes
  deriving DecidableEq, Repr

variable {σ : Type}

/-- The answer of a call, without the state after it. -/
def answer (r : NextSentence σ) : Answer := ⟨r.returned, r.sentence, r.error⟩

/-- The answers that some calls get, and the state after them. -/
inductive Runs (reader : InputFormat σ) : σ → List Call → List Answer → σ → Prop
  | start (s : σ) : Runs reader s [] [] s
  | resetDocument {s t : σ} {id : Bytes} {calls : List Call} {answers : List Answer} :
      Runs reader (reader.resetDocument id s) calls answers t →
      Runs reader s (.resetDocument id :: calls) answers t
  | setText {s t : σ} {text : Bytes} {calls : List Call} {answers : List Answer} :
      Runs reader (reader.setText text s) calls answers t →
      Runs reader s (.setText text :: calls) answers t
  | nextSentence {s t : σ} {r : NextSentence σ} {calls : List Call} {answers : List Answer} :
      (reader.nextSentence s).Returns r → Runs reader r.state calls answers t →
      Runs reader s (.nextSentence :: calls) (answer r :: answers) t

/-- A state that calls lead to. -/
def Reached (reader : InputFormat σ) (fresh s : σ) : Prop :=
  ∃ calls answers, Runs reader fresh calls answers s

/-- After a reset, whatever is called gets the same answers as from a new reader. -/
def ReadsAsFresh (reader : InputFormat σ) (fresh s : σ) : Prop :=
  ∀ id calls answers, (∃ t, Runs reader (reader.resetDocument id s) calls answers t) ↔
    ∃ t, Runs reader (reader.resetDocument id fresh) calls answers t

/-- `reset_document` separates what is read before from what is read after it. -/
def Isolates (reader : InputFormat σ) (fresh : σ) : Prop :=
  ∀ s, Reached reader fresh s → ReadsAsFresh reader fresh s

/-! ### Simulations -/

/-- Two answers that the view does not tell apart, with related states. -/
structure Alike (view : Sentence → Sentence → Prop) (R : σ → σ → Prop) (r r' : NextSentence σ) :
    Prop where
  returned : r.returned = r'.returned
  sentence : view r.sentence r'.sentence
  error : r.error = r'.error
  state : R r.state r'.state

/-- A relation that every call keeps, with equal answers. -/
structure Simulation (reader : InputFormat σ) (R : σ → σ → Prop) : Prop where
  resetDocument : ∀ id s s', R s s' → R (reader.resetDocument id s) (reader.resetDocument id s')
  setText : ∀ text s s', R s s' → R (reader.setText text s) (reader.setText text s')
  nextSentence : ∀ s s', R s s' →
    Comp.Matches (Alike Eq R) (reader.nextSentence s) (reader.nextSentence s')

variable {reader : InputFormat σ} {R : σ → σ → Prop}

/-- Related states give the same answers in every run. -/
theorem Simulation.runs (h : Simulation reader R) {s s' t : σ} {calls : List Call}
    {answers : List Answer} (hR : R s s') (hruns : Runs reader s calls answers t) :
    ∃ t', Runs reader s' calls answers t' ∧ R t t' := by
  induction hruns generalizing s' with
  | start s => exact ⟨s', .start s', hR⟩
  | resetDocument _ ih =>
    obtain ⟨t', hruns', ht⟩ := ih (h.resetDocument _ _ _ hR)
    exact ⟨t', .resetDocument hruns', ht⟩
  | setText _ ih =>
    obtain ⟨t', hruns', ht⟩ := ih (h.setText _ _ _ hR)
    exact ⟨t', .setText hruns', ht⟩
  | nextSentence hcall _ ih =>
    obtain ⟨r', hcall', halike⟩ := h.nextSentence _ _ hR _ hcall
    obtain ⟨t', hruns', ht⟩ := ih halike.state
    have hanswer : answer _ = answer r' :=
      Answer.mk.injEq .. |>.mpr ⟨halike.returned, halike.sentence, halike.error⟩
    exact ⟨t', hanswer ▸ .nextSentence hcall' hruns', ht⟩

/-- What a reader needs to separate documents: an invariant of its states, and a
simulation that relates every two of them after a reset. -/
structure Resettable (reader : InputFormat σ) (Inv : σ → Prop) (R : σ → σ → Prop) : Prop
    extends Simulation reader R where
  symm : ∀ s s', R s s' → R s' s
  refl : ∀ s, Inv s → R s s
  left : ∀ s s', R s s' → Inv s
  reset : ∀ id s s', Inv s → Inv s' → R (reader.resetDocument id s) (reader.resetDocument id s')

/-- The invariant is kept by a new text. -/
theorem Resettable.inv_setText {Inv : σ → Prop} (h : Resettable reader Inv R) {s : σ}
    (hs : Inv s) (text : Bytes) : Inv (reader.setText text s) :=
  h.left _ _ (h.setText text _ _ (h.refl s hs))

/-- The invariant is kept by a next sentence. -/
theorem Resettable.inv_nextSentence {Inv : σ → Prop} (h : Resettable reader Inv R) {s : σ}
    {r : NextSentence σ} (hs : Inv s) (hr : (reader.nextSentence s).Returns r) : Inv r.state := by
  obtain ⟨r', _, halike⟩ := h.nextSentence s s (h.refl s hs) r hr
  exact h.left _ _ halike.state

/-- The invariant is kept by runs. -/
theorem Resettable.inv_runs {Inv : σ → Prop} (h : Resettable reader Inv R) {s t : σ}
    {calls : List Call} {answers : List Answer} (hs : Inv s)
    (hruns : Runs reader s calls answers t) : Inv t := by
  induction hruns with
  | start s => exact hs
  | resetDocument _ ih => exact ih (h.left _ _ (h.reset _ _ _ hs hs))
  | setText _ ih => exact ih (h.inv_setText hs _)
  | nextSentence hcall _ ih => exact ih (h.inv_nextSentence hs hcall)

/-- States that a reset takes to related ones read the same after it. -/
theorem Simulation.readsAsFresh (h : Simulation reader R) (hsymm : ∀ s s', R s s' → R s' s)
    {fresh s : σ} (hR : ∀ id, R (reader.resetDocument id s) (reader.resetDocument id fresh)) :
    ReadsAsFresh reader fresh s := by
  intro id calls answers
  constructor
  · rintro ⟨t, hruns⟩
    obtain ⟨t', hruns', _⟩ := h.runs (hR id) hruns
    exact ⟨t', hruns'⟩
  · rintro ⟨t, hruns⟩
    obtain ⟨t', hruns', _⟩ := h.runs (hsymm _ _ (hR id)) hruns
    exact ⟨t', hruns'⟩

/-- A resettable reader isolates the documents of a run. -/
theorem Resettable.isolates {Inv : σ → Prop} (h : Resettable reader Inv R) {fresh : σ}
    (hfresh : Inv fresh) : Isolates reader fresh := by
  rintro s ⟨calls, answers, hruns⟩
  exact h.toSimulation.readsAsFresh h.symm fun id =>
    h.reset id s fresh (h.inv_runs hfresh hruns) hfresh

/-! ### Readers of which only the nodes are used -/

/-- Two answers to someone who uses the nodes of a sentence, and in a text of which a
sentence was read also whether a paragraph begins. -/
structure AlikeNodes (R : Bool → σ → σ → Prop) (read : Bool) (r r' : NextSentence σ) : Prop where
  returned : r.returned = r'.returned
  nodes : r.sentence.SameNodes r'.sentence
  newPar : read = true → r.sentence.getNewPar = r'.sentence.getNewPar
  error : r.error = r'.error
  state : R (read || r.returned) r.state r'.state

/-- States that are ready for a text are related within it, as long as only nodes are used;
`within` also knows whether a sentence of the text was read. -/
structure NodeSimulation (reader : InputFormat σ) (ready : σ → σ → Prop)
    (within : Bool → σ → σ → Prop) : Prop where
  setText : ∀ text s s', ready s s' →
    within false (reader.setText text s) (reader.setText text s')
  nextSentence : ∀ read s s', within read s s' →
    Comp.Matches (AlikeNodes within read) (reader.nextSentence s) (reader.nextSentence s')
  ready : ∀ read s s', within read s s' → ready s s'

/-! ### Readers that a reset takes to one state -/

/-- A reader simulates itself. -/
theorem simulation_eq (reader : InputFormat σ) : Simulation reader Eq where
  resetDocument _ _ _ h := congrArg _ h
  setText _ _ _ h := congrArg _ h
  nextSentence := by
    rintro s _ rfl r hr
    exact ⟨r, hr, rfl, rfl, rfl, rfl⟩

/-- If a reset forgets the state, it separates documents. -/
theorem resettable_eq (hreset : ∀ id s s', reader.resetDocument id s = reader.resetDocument id s') :
    Resettable reader (fun _ => True) Eq where
  toSimulation := simulation_eq reader
  symm _ _ h := h.symm
  refl _ _ := rfl
  left _ _ _ := trivial
  reset id s s' _ _ := hreset id s s'

/-- The CoNLL-U reader keeps nothing over a reset. -/
theorem resettable_conllu (version : ℕ) :
    Resettable (Conllu.reader version) (fun _ => True) Eq :=
  resettable_eq fun _ _ _ => rfl

/-- The horizontal reader keeps nothing over a reset. -/
theorem resettable_horizontal : Resettable LineFormats.Horizontal.reader (fun _ => True) Eq :=
  resettable_eq fun _ _ _ => rfl

/-- The vertical reader keeps nothing over a reset. -/
theorem resettable_vertical : Resettable LineFormats.Vertical.reader (fun _ => True) Eq :=
  resettable_eq fun _ _ _ => rfl

end UDPipe.InputFormat
