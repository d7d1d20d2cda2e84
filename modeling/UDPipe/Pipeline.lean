import UDPipe.InputFormat

/-!
# The pipeline

`pipeline::process` of `model/pipeline.cpp`: read a block, set it as the text
of the reader, and tag, parse and write each of its sentences. What is written
depends only on the sentences that the blocks give and on the first error.
-/

namespace UDPipe

/-- The settings of a `pipeline` that `process` uses. A missing tagger or
parser is the option `none` of the source. -/
structure Pipeline where
  tag : Option (Sentence → Except Bytes Sentence) := none
  parse : Option (Sentence → Except Bytes Sentence) := none
  immediate : Bool := false
  documentId : Bytes := []

/-- What one call of `process` does: the sentences it gives to the writer, and
whether it returns true or stores an error. -/
structure Processed where
  written : List Sentence
  result : Except Bytes Unit
  deriving DecidableEq

namespace Pipeline

variable {σ : Type} (p : Pipeline) (reader : InputFormat σ)

/-- Tag and parse one sentence. -/
def annotate (s : Sentence) : Except Bytes Sentence :=
  let tagged : Except Bytes Sentence := match p.tag with
    | none => .ok s
    | some tag => tag s
  match tagged with
  | .error error => .error error
  | .ok s =>
    match p.parse with
    | none => .ok s
    | some parse => parse s

/-- One pass of the loop over the sentences of a block; it leaves the loop with
the state of the reader, or with an error. -/
def sentenceStep : σ × List Sentence →
    Comp (LoopStep (σ × List Sentence) (List Sentence × Except Bytes σ))
  | (state, written) => do
    let r ← reader.nextSentence state
    pure <|
      if r.returned then
        match p.annotate r.sentence with
        | .error error => .done (written, .error error)
        | .ok s => .next (r.state, written ++ [s])
      else if r.error = [] then .done (written, .ok r.state)
      else .done (written, .error r.error)

/-- The block that the next pass reads. -/
def readBlock (is : IStream) : Comp (Bytes × IStream) :=
  if p.immediate then reader.readBlock is else getwhole is

/-- One pass of the loop over the blocks of the stream. -/
def blockStep : IStream × σ × List Sentence →
    Comp (LoopStep (IStream × σ × List Sentence) Processed)
  | (is, state, written) => do
    let (block, is) ← p.readBlock reader is
    if is.failbit then pure (.done ⟨written, .ok ()⟩)
    else do
      let (written, result) ← Comp.loop (p.sentenceStep reader) (reader.setText block state, written)
      pure <|
        match result with
        | .error error => .done ⟨written, .error error⟩
        | .ok state => .next (is, state, written)

/-- `pipeline::process`, from the state of a new reader. -/
def process (state : σ) (is : IStream) : Comp Processed :=
  Comp.loop (p.blockStep reader) (is, reader.resetDocument p.documentId state, [])

/-- What is written for sentences that are read until a call returns false with
this error. -/
def deliver : List Sentence → Bytes → List Sentence × Except Bytes Unit
  | [], error => ([], if error = [] then .ok () else .error error)
  | s :: sentences, error =>
    match p.annotate s with
    | .error error => ([], .error error)
    | .ok s => (s :: (deliver sentences error).1, (deliver sentences error).2)

/-- What is written for several blocks of sentences, the last one with an error. -/
theorem deliver_append (sentences sentences' : List Sentence) (error : Bytes) :
    p.deliver (sentences ++ sentences') error =
      match (p.deliver sentences []).2 with
      | .error error' => ((p.deliver sentences []).1, .error error')
      | .ok () => ((p.deliver sentences []).1 ++ (p.deliver sentences' error).1,
          (p.deliver sentences' error).2) := by
  induction sentences with
  | nil => simp [deliver]
  | cons s sentences ih =>
    rw [List.cons_append, deliver, deliver]
    cases p.annotate s with
    | error error' => rfl
    | ok s' =>
      simp only [ih]
      cases (p.deliver sentences []).2 with
      | error error' => rfl
      | ok u => rfl

/-- The mode of reading has no part in what is written for the sentences. -/
@[simp] theorem deliver_immediate (immediate : Bool) (sentences : List Sentence) (error : Bytes) :
    { p with immediate }.deliver sentences error = p.deliver sentences error := by
  induction sentences with
  | nil => rfl
  | cons s sentences ih =>
    have hannotate : { p with immediate }.annotate s = p.annotate s := rfl
    rw [deliver, deliver, hannotate]
    cases p.annotate s with
    | error error => rfl
    | ok s => simp only [ih]

variable {p reader}

/-- The loop over the sentences of a block writes what the reading delivers. -/
theorem returns_sentences {state state' : σ} {sentences written : List Sentence} {error : Bytes}
    (h : reader.ReadsAll state sentences error state') :
    (Comp.loop (p.sentenceStep reader) (state, written)).Returns
      (written ++ (p.deliver sentences error).1, (p.deliver sentences error).2.map fun _ => state') := by
  induction h generalizing written with
  | @stop state state' sentence error hcall =>
    refine Comp.returns_loop.mpr (Or.inl (Comp.returns_bind.mpr ⟨_, hcall, ?_⟩))
    rw [Comp.returns_pure]
    by_cases herror : error = [] <;> simp [deliver, herror, Except.map]
  | @next state state' state'' sentence sentences error error' hcall _ ih =>
    cases hannotate : p.annotate sentence with
    | error e =>
      refine Comp.returns_loop.mpr (Or.inl (Comp.returns_bind.mpr ⟨_, hcall, ?_⟩))
      simp [deliver, hannotate, Except.map]
    | ok s =>
      refine Comp.returns_loop.mpr (Or.inr ⟨(state', written ++ [s]),
        Comp.returns_bind.mpr ⟨_, hcall, ?_⟩, ?_⟩)
      · simp [hannotate]
      · simpa [deliver, hannotate] using @ih (written ++ [s])

end Pipeline

/-- The blocks of a stream, read one after the other up to the first error:
their sentences, and the error. -/
inductive ReadsBlocks {σ : Type} (reader : InputFormat σ)
    (readBlock : IStream → Comp (Bytes × IStream)) :
    IStream → σ → List Sentence → Bytes → Prop
  | stop {is is' : IStream} {state : σ} {block : Bytes} :
      (readBlock is).Returns (block, is') → is'.failbit = true →
      ReadsBlocks reader readBlock is state [] []
  | error {is is' : IStream} {state state' : σ} {block error : Bytes} {sentences : List Sentence} :
      (readBlock is).Returns (block, is') → is'.failbit = false →
      reader.ReadsAll (reader.setText block state) sentences error state' → error ≠ [] →
      ReadsBlocks reader readBlock is state sentences error
  | next {is is' : IStream} {state state' : σ} {block error : Bytes}
      {sentences sentences' : List Sentence} :
      (readBlock is).Returns (block, is') → is'.failbit = false →
      reader.ReadsAll (reader.setText block state) sentences [] state' →
      ReadsBlocks reader readBlock is' state' sentences' error →
      ReadsBlocks reader readBlock is state (sentences ++ sentences') error

/-- The pipeline writes what the sentences of its blocks deliver. -/
theorem Pipeline.returns_process {σ : Type} {p : Pipeline} {reader : InputFormat σ} {state : σ}
    {is : IStream} {sentences : List Sentence} {error : Bytes}
    (h : ReadsBlocks reader (p.readBlock reader) is (reader.resetDocument p.documentId state)
      sentences error) :
    (p.process reader state is).Returns
      ⟨(p.deliver sentences error).1, (p.deliver sentences error).2⟩ := by
  have key : ∀ {is : IStream} {state : σ} {sentences : List Sentence} {error : Bytes},
      ReadsBlocks reader (p.readBlock reader) is state sentences error → ∀ written,
      (Comp.loop (p.blockStep reader) (is, state, written)).Returns
        ⟨written ++ (p.deliver sentences error).1, (p.deliver sentences error).2⟩ := by
    intro is state sentences error h
    induction h with
    | stop hblock hfail =>
      intro written
      refine Comp.returns_loop.mpr (Or.inl (Comp.returns_bind.mpr ⟨_, hblock, ?_⟩))
      simp [hfail, deliver]
    | @error is is' state state' block error sentences hblock hgood hreads herror =>
      intro written
      have hfails : ∀ sentences, ∃ e, (p.deliver sentences error).2 = .error e := by
        intro sentences
        induction sentences with
        | nil => exact ⟨error, by simp [deliver, herror]⟩
        | cons s sentences ih =>
          cases hannotate : p.annotate s with
          | error e => exact ⟨e, by simp [deliver, hannotate]⟩
          | ok s' => simpa [deliver, hannotate] using ih
      obtain ⟨e, he⟩ := hfails sentences
      have hsentences := @returns_sentences _ p _ _ _ _ written _ hreads
      rw [he] at hsentences ⊢
      refine Comp.returns_loop.mpr (Or.inl (Comp.returns_bind.mpr ⟨_, hblock, ?_⟩))
      simp only [hgood, Bool.false_eq_true, if_false]
      exact Comp.returns_bind.mpr ⟨_, hsentences, Comp.returns_pure.mpr rfl⟩
    | @next is is' state state' block error sentences sentences' hblock hgood hreads _ ih =>
      intro written
      have hsentences := @returns_sentences _ p _ _ _ _ written _ hreads
      rw [deliver_append]
      cases hresult : (p.deliver sentences []).2 with
      | error e =>
        rw [hresult] at hsentences
        refine Comp.returns_loop.mpr (Or.inl (Comp.returns_bind.mpr ⟨_, hblock, ?_⟩))
        simp only [hgood, Bool.false_eq_true, if_false]
        exact Comp.returns_bind.mpr ⟨_, hsentences, Comp.returns_pure.mpr rfl⟩
      | ok u =>
        rw [hresult] at hsentences
        refine Comp.returns_loop.mpr (Or.inr
          ⟨(is', state', written ++ (p.deliver sentences []).1),
            Comp.returns_bind.mpr ⟨_, hblock, ?_⟩, ?_⟩)
        · simp only [hgood, Bool.false_eq_true, if_false]
          exact Comp.returns_bind.mpr ⟨_, hsentences, Comp.returns_pure.mpr rfl⟩
        · simpa using ih (written ++ (p.deliver sentences []).1)
  have hprocess := key h []
  rw [List.nil_append] at hprocess
  exact hprocess

end UDPipe
