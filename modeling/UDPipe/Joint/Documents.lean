import UDPipe.Joint.Preserves
import UDPipe.Joint.Reader

/-!
# Documents of all readers

After `reset_document` every reader reads as a new one, except the tokenizer that is joint
with parsing: it does so if the tokenizer it wraps has nothing to carry over at the reset.
-/

namespace UDPipe.Joint

open Comp InputFormat Tokenizer

variable {σ R : Type} [Add R] [Mul R] [IntCast R] [LT R] [DecidableLT R]

/-- The wrapper has neither white space that it would store before the next token, nor an
offset that it would add to the next ranges. -/
def CarriesNothing (opts : Tokenizer.Options) (w : Tokenizer.State σ) : Prop :=
  (opts.normalizedSpaces = false → w.savedSpaces = []) ∧
    (opts.tokenRanges = true → w.unicodeOffset + w.textUnicodeLength = 0)

section Carry

variable {inner : InnerTokenizer σ} {opts : Tokenizer.Options}

/-- Carrying the same is symmetric. -/
theorem sameCarry_symm {w w' : Tokenizer.State σ} (h : SameCarry opts w w') :
    SameCarry opts w' w :=
  ⟨h.own', h.own, fun hnormalized => (h.savedSpaces hnormalized).symm,
    fun hranges => (h.offset hranges).symm⟩

/-- What carries nothing carries the same as a new state. -/
theorem sameCarry_fresh {w : Tokenizer.State σ} (hown : opts.Own w.tok.misc) (s : σ)
    (h : CarriesNothing opts w) : SameCarry opts w (fresh s) :=
  ⟨hown, opts.own_nil, h.1, h.2⟩

/-- A new state carries nothing. -/
theorem carriesNothing_fresh (s : σ) : CarriesNothing opts (fresh s) :=
  ⟨fun _ => rfl, fun _ => rfl⟩

/-- A reader that is ready for a text in every state that it comes to. -/
theorem ready_of_reached {τ : Type} {wrapped : InputFormat τ} {ready : τ → τ → Prop}
    {within : Bool → τ → τ → Prop} (h : NodeSimulation wrapped ready within)
    {joint : Options R} {fresh state : State τ} (hfresh : ready fresh.tokenizer fresh.tokenizer)
    (hreached : Reached (reader wrapped joint) fresh state) :
    ∃ t, ready state.tokenizer t := by
  obtain ⟨calls, answers, hruns⟩ := hreached
  obtain ⟨t, _, hsame⟩ := (simulation_reader h).runs ⟨hfresh, rfl, rfl, rfl, rfl⟩ hruns
  exact ⟨_, hsame.tokenizer⟩

end Carry

/-- The presegmented tokenizer when it is made. -/
def freshPresegmented (s : σ) : Presegmented.State (Tokenizer.State σ) where
  tokenizer := fresh s

/-- A reset separates documents for all readers; with joint parsing, if the wrapped tokenizer
carries nothing over. -/
theorem resetDocument_isolates {inner : InnerTokenizer σ} (hforgets : inner.Forgets) (s : σ)
    (version : ℕ) (opts : Tokenizer.Options) (joint : Options R) :
    Isolates (Conllu.reader version) [] ∧ Isolates LineFormats.Horizontal.reader {} ∧
      Isolates LineFormats.Vertical.reader {} ∧ Isolates (wrapper inner opts) (fresh s) ∧
      Isolates (Presegmented.reader (wrapper inner opts)) (freshPresegmented s) ∧
      (∀ state, Reached (reader (wrapper inner opts) joint) { tokenizer := fresh s } state →
        CarriesNothing opts state.tokenizer →
        ReadsAsFresh (reader (wrapper inner opts) joint) { tokenizer := fresh s } state) ∧
      ∀ state, Reached (reader (Presegmented.reader (wrapper inner opts)) joint)
          { tokenizer := freshPresegmented s } state →
        CarriesNothing opts state.tokenizer.tokenizer →
        ReadsAsFresh (reader (Presegmented.reader (wrapper inner opts)) joint)
          { tokenizer := freshPresegmented s } state := by
  have hwrapper := resettable_wrapper opts hforgets
  have hnodes := nodeSimulation_wrapper opts hforgets
  have hnodes' := Presegmented.nodeSimulation_reader hnodes
  have hstart : SameCarry opts (fresh s) (fresh s) :=
    sameCarry_fresh opts.own_nil s (carriesNothing_fresh s)
  refine ⟨(resettable_conllu version).isolates trivial, resettable_horizontal.isolates trivial,
    resettable_vertical.isolates trivial, hwrapper.isolates opts.own_nil,
    (Presegmented.resettable_reader hwrapper).isolates opts.own_nil, ?_, ?_⟩
  · intro state hreached hcarry
    obtain ⟨_, hcarried⟩ := ready_of_reached hnodes hstart hreached
    exact readsAsFresh_of_ready hnodes (fun _ _ h => sameCarry_symm h)
      (sameCarry_fresh hcarried.own s hcarry)
  · intro state hreached hcarry
    obtain ⟨_, hcarried⟩ := ready_of_reached hnodes' hstart hreached
    exact readsAsFresh_of_ready hnodes' (fun _ _ h => sameCarry_symm h)
      (sameCarry_fresh hcarried.own s hcarry)

/-- A tokenizer of whole texts forgets. -/
theorem forgets_wholeText (tables : Unicode) : (wholeText tables).Forgets :=
  fun _ _ _ _ => rfl

/-- The tokenizer of one token, joint with parsing. -/
def wholeTextReader (tokenRanges : Bool) : InputFormat (State (Tokenizer.State TokenRange)) :=
  reader (wrapper (wholeText asciiTables) ⟨asciiTables, none, false, tokenRanges⟩)
    (sampleOptions 20)

/-- After a sentence and without ranges, the document is read as by a new reader. -/
theorem resetDocument_isolates_wholeText :
    Isolates (wrapper (wholeText asciiTables) ⟨asciiTables, none, false, true⟩) (fresh ⟨0, 0⟩) ∧
    ∃ r, ((wholeTextReader false).nextSentence
        { tokenizer := fresh ⟨0, 0⟩, text := bytes "a" }).Returns r ∧ r.returned = true ∧
      ReadsAsFresh (wholeTextReader false) { tokenizer := fresh ⟨0, 0⟩ } r.state := by
  have hisolates := fun ranges => resetDocument_isolates (forgets_wholeText asciiTables) ⟨0, 0⟩ 2
    ⟨asciiTables, none, false, ranges⟩ (sampleOptions 20)
  have hcall : (((wholeTextReader false).nextSentence
      { tokenizer := fresh ⟨0, 0⟩, text := bytes "a" }).run 4).map (fun r =>
        r.returned && r.state.tokenizer.savedSpaces == []) = some true := by decide +kernel
  obtain ⟨r, hr, hread⟩ := Option.map_eq_some_iff.mp hcall
  obtain ⟨hreturned, hsaved⟩ := Bool.and_eq_true_iff.mp hread
  exact ⟨(hisolates true).2.2.2.1, r, ⟨4, hr⟩, hreturned,
    (hisolates false).2.2.2.2.2.1 _
      ⟨[.setText (bytes "a"), .nextSentence], _, .setText (.nextSentence ⟨4, hr⟩ (.start _))⟩
      ⟨fun _ => eq_of_beq hsaved, nofun⟩⟩

/-- The range of the token of a text that was read before is counted from the beginning of
the first document. -/
theorem not_isolates_ranges : (wholeText asciiTables).Forgets ∧
    ¬ Isolates (wholeTextReader true) { tokenizer := fresh ⟨0, 0⟩ } := by
  refine ⟨forgets_wholeText _, fun hisolates => ?_⟩
  let joint := wholeTextReader true
  let start := joint.resetDocument [] { tokenizer := fresh ⟨0, 0⟩ }
  let call s := (joint.nextSentence (joint.setText (bytes "a") s)).run 4
  have hdiffer : (call start).bind (fun r => (call (joint.resetDocument [] r.state)).map
      fun r' => decide (answer r = answer r')) = some false := by decide +kernel
  obtain ⟨r, hr, hmap⟩ := Option.bind_eq_some_iff.mp hdiffer
  obtain ⟨r', hr', hne⟩ := Option.map_eq_some_iff.mp hmap
  have hreached : Reached joint { tokenizer := fresh ⟨0, 0⟩ } r.state :=
    ⟨[.resetDocument [], .setText (bytes "a"), .nextSentence], [answer r],
      .resetDocument (.setText (.nextSentence ⟨4, hr⟩ (.start _)))⟩
  obtain ⟨t, hruns⟩ := (hisolates r.state hreached [] [.setText (bytes "a"), .nextSentence]
    [answer r]).mpr ⟨_, .setText (.nextSentence ⟨4, hr⟩ (.start _))⟩
  obtain ⟨r'', hcall, hanswer⟩ : ∃ r'', (joint.nextSentence
      (joint.setText (bytes "a") (joint.resetDocument [] r.state))).Returns r'' ∧
        answer r'' = answer r := by
    generalize hanswers : [answer r] = answers at hruns
    cases hruns with
    | setText hruns =>
      cases hruns with
      | nextSentence hcall _ => exact ⟨_, hcall, (List.cons.inj hanswers).1.symm⟩
  obtain rfl := hcall.unique ⟨4, hr'⟩
  exact of_decide_eq_false hne hanswer.symm

end UDPipe.Joint
