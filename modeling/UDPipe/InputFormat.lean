import UDPipe.Sentence
import UDPipe.Streams

/-!
# Readers of sentences

The class `input_format` as a record of operations on the state of a reader.
`next_sentence` is a computation that may not end, since readers scan their
text with loops that are not obviously making progress. Reading to exhaustion
calls it until it returns false.
-/

namespace UDPipe

/-- What `next_sentence` returns: its result, the sentence and the error it
stores, and the state of the reader after the call. -/
structure NextSentence (σ : Type) where
  returned : Bool
  sentence : Sentence
  error : Bytes
  state : σ
  deriving DecidableEq, Repr

/-- The class `input_format`, without its factory methods. -/
structure InputFormat (σ : Type) where
  /-- `read_block`: the block, the stream afterwards; the call returns true
  exactly when that stream has not failed. -/
  readBlock : IStream → Comp (Bytes × IStream)
  resetDocument : Bytes → σ → σ
  setText : Bytes → σ → σ
  nextSentence : σ → Comp (NextSentence σ)

namespace InputFormat

variable {σ : Type} (reader : InputFormat σ)

/-- One call of `next_sentence` in a loop that collects sentences: the loop
goes on while the call returns true. -/
def readAllStep (s : σ × List Sentence) :
    Comp (LoopStep (σ × List Sentence) (List Sentence × Bytes × σ)) := do
  let r ← reader.nextSentence s.1
  pure (if r.returned then .next (r.state, s.2 ++ [r.sentence]) else .done (s.2, r.error, r.state))

/-- Call `next_sentence` until it returns false: the sentences read, the error
of the last call, and the state it leaves. -/
def readAll (s : σ) : Comp (List Sentence × Bytes × σ) := Comp.loop reader.readAllStep (s, [])

/-- The calls of `next_sentence` that one reading makes, spelled out. -/
inductive ReadsAll : σ → List Sentence → Bytes → σ → Prop
  | stop {s s' : σ} {sentence : Sentence} {error : Bytes} :
      (reader.nextSentence s).Returns ⟨false, sentence, error, s'⟩ → ReadsAll s [] error s'
  | next {s s' t : σ} {sentence : Sentence} {sentences : List Sentence} {error error' : Bytes} :
      (reader.nextSentence s).Returns ⟨true, sentence, error', s'⟩ →
      ReadsAll s' sentences error t → ReadsAll s (sentence :: sentences) error t

/-- The states that successive calls of `next_sentence` lead to, whatever the
calls return. -/
inductive AfterCalls : σ → σ → Prop
  | refl (s : σ) : AfterCalls s s
  | call {s t : σ} {r : NextSentence σ} :
      (reader.nextSentence s).Returns r → AfterCalls r.state t → AfterCalls s t

variable {reader}

/-- The loop appends the sentences that are read to those before. -/
private theorem returns_loop_readAllStep {s t : σ} {error : Bytes} {before out : List Sentence} :
    (Comp.loop reader.readAllStep (s, before)).Returns (out, error, t) ↔
      ∃ sentences, out = before ++ sentences ∧ reader.ReadsAll s sentences error t := by
  constructor
  · intro h
    refine Comp.loop_induction
      (motive := fun p => ∃ sentences, out = p.2 ++ sentences ∧
        reader.ReadsAll p.1 sentences error t) ?_ ?_ h
    · rintro ⟨s, before⟩ hdone
      obtain ⟨⟨returned, sentence, e, s'⟩, hcall, hstep⟩ := Comp.returns_bind.mp hdone
      cases returned with
      | true => simp at hstep
      | false =>
        simp only [Bool.false_eq_true, if_false, Comp.returns_pure, LoopStep.done.injEq,
          Prod.mk.injEq] at hstep
        obtain ⟨rfl, rfl, rfl⟩ := hstep
        exact ⟨[], (List.append_nil _).symm, .stop hcall⟩
    · rintro ⟨s, before⟩ p hnext _ ⟨sentences, hout, hreads⟩
      obtain ⟨⟨returned, sentence, e, s'⟩, hcall, hstep⟩ := Comp.returns_bind.mp hnext
      cases returned with
      | false => simp at hstep
      | true =>
        simp only [if_true, Comp.returns_pure, LoopStep.next.injEq] at hstep
        subst hstep
        exact ⟨sentence :: sentences, by simpa using hout, .next hcall hreads⟩
  · rintro ⟨sentences, rfl, hreads⟩
    induction hreads generalizing before with
    | stop hcall =>
      refine Comp.returns_loop.mpr (Or.inl (Comp.returns_bind.mpr ⟨_, hcall, ?_⟩))
      simp
    | @next s s' t sentence sentences error error' hcall _ ih =>
      refine Comp.returns_loop.mpr (Or.inr ⟨(s', before ++ [sentence]),
        Comp.returns_bind.mpr ⟨_, hcall, ?_⟩, ?_⟩)
      · exact Comp.returns_pure.mpr rfl
      · simpa using @ih (before ++ [sentence])

/-- Reading to exhaustion is exactly a sequence of calls, the last one returning false. -/
theorem returns_readAll {s t : σ} {sentences : List Sentence} {error : Bytes} :
    (reader.readAll s).Returns (sentences, error, t) ↔ reader.ReadsAll s sentences error t := by
  rw [readAll, returns_loop_readAllStep]
  simp

end InputFormat

end UDPipe
