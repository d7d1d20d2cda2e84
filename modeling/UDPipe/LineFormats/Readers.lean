import UDPipe.Comments
import UDPipe.InputFormat
import UDPipe.ParseInt
import Mathlib.Data.List.Infix

/-!
# The horizontal and the vertical reader

The classes `input_format_horizontal` and `input_format_vertical` of
`sentence/input_format.cpp`. Both skip white space and count the line ends in it, add
words until a line end stops them, and mark the sentence by what they have counted. So a
text is for them a sequence of line ends that count and of sentences.
-/

namespace UDPipe

namespace LineFormats

open Sentence (isBlank)

/-- The members of both readers that say how the next sentence is marked. -/
structure Marks where
  newDocument : Bool := true
  documentId : Bytes := []
  preceedingNewlines : ℕ := 2
  sentenceId : ℕ := 1
  deriving DecidableEq, Repr

/-- The members of both readers. -/
structure State extends Marks where
  text : Bytes := []
  deriving DecidableEq, Repr

/-- Count a line end. -/
def Marks.addNewline (m : Marks) : Marks :=
  { m with preceedingNewlines := (m.preceedingNewlines + 1) % unsignedValues }

/-- Mark the new document, the new paragraph and the sentence id. -/
def Marks.mark (m : Marks) (s : Sentence) : Sentence :=
  let s := if m.newDocument then s.setNewDoc true m.documentId else s
  let s := if m.preceedingNewlines ≥ 2 then s.setNewPar true else s
  s.setSentId (natToString m.sentenceId)

/-- The members after a sentence was marked. -/
def Marks.next (m : Marks) : Marks :=
  { m with
    newDocument := false
    preceedingNewlines := 0
    sentenceId := (m.sentenceId + 1) % unsignedValues }

/-- The first loop of `next_sentence`. -/
def skip (skipped : Byte → Bool) : Bytes → Marks → State
  | [], m => { m with text := [] }
  | c :: text, m =>
    if skipped c then skip skipped text (if c = lf then m.addNewline else m)
    else { m with text := c :: text }

/-- `next_sentence`, which differs in what it skips and in how it reads a word. -/
def nextSentence (skipped : Byte → Bool)
    (wordStep : Bytes × Sentence → LoopStep (Bytes × Sentence) (Bytes × Sentence))
    (state : State) : Comp (NextSentence State) := do
  let state := skip skipped state.text state.toMarks
  let (text, s) ← Comp.loopOf wordStep (state.text, .clear)
  pure <|
    if s.isEmpty then ⟨false, s, [], { state with text }⟩
    else ⟨true, state.mark s, [], { state.next with text }⟩

/-- `reset_document`. -/
def resetDocument (id : Bytes) (_ : State) : State := { documentId := id }

/-- `set_text`. -/
def setText (text : Bytes) (state : State) : State := { state with text }

namespace Horizontal

/-- The bytes before a sentence. -/
def isSkipped (c : Byte) : Bool := isBlank c || isLineEnd c

/-- The bytes that end a word. -/
def isWordEnd (c : Byte) : Bool := isBlank c || isLineEnd c

/-- One pass of the loop that replaces no-break spaces, with the bytes kept so far. -/
def nbspStep (form : Bytes) (c : Byte) : Bytes :=
  if form.getLast? = some 0xC2 ∧ c = 0xA0 then form.dropLast ++ [space] else form ++ [c]

/-- The no-break spaces of a form become spaces. -/
def replaceNbsp (form : Bytes) : Bytes :=
  if [0xC2, 0xA0] <:+: form then form.foldl nbspStep [] else form

/-- One pass of the loop over the words of a line. -/
def wordStep : Bytes × Sentence → LoopStep (Bytes × Sentence) (Bytes × Sentence)
  | ([], s) => .done ([], s)
  | (c :: text, s) =>
    if isLineEnd c then .done (c :: text, s)
    else
      let word := (c :: text).takeWhile fun c => !isWordEnd c
      let rest := (c :: text).dropWhile fun c => !isWordEnd c
      .next (rest.dropWhile isBlank, s.addWord (replaceNbsp word))

/-- `input_format_horizontal::read_block`. -/
def readBlock (is : IStream) : Comp (Bytes × IStream) :=
  let (block, is) := getline is []
  pure (if is.failbit then (block, is) else (block ++ [lf], is))

/-- `input_format_horizontal`. -/
def reader : InputFormat State where
  readBlock
  resetDocument
  setText
  nextSentence := nextSentence isSkipped wordStep

end Horizontal

namespace Vertical

/-- The bytes before a sentence. -/
def isSkipped (c : Byte) : Bool := c == tab || isLineEnd c

/-- The bytes that end a word. -/
def isWordEnd (c : Byte) : Bool := c == tab || isLineEnd c

/-- Skip one line end. -/
def skipLineEnd : Bytes → Bytes
  | 13 :: 10 :: text => text
  | 10 :: text => text
  | text => text

/-- One pass of the loop over the lines of a sentence. -/
def wordStep : Bytes × Sentence → LoopStep (Bytes × Sentence) (Bytes × Sentence)
  | ([], s) => .done ([], s)
  | (c :: text, s) =>
    if isLineEnd c then .done (c :: text, s)
    else
      let word := (c :: text).takeWhile fun c => !isWordEnd c
      let rest := (c :: text).dropWhile fun c => !isWordEnd c
      let rest := skipLineEnd (rest.dropWhile fun c => !isLineEnd c)
      .next (rest.dropWhile (· == tab), s.addWord word)

/-- `input_format_vertical`. -/
def reader : InputFormat State where
  readBlock := getpara
  resetDocument
  setText
  nextSentence := nextSentence isSkipped wordStep

end Vertical

/-! ### What the readers see -/

/-- A line end that counts, or a sentence. -/
inductive Event where
  | newline
  | sentence (forms : List Bytes)
  deriving DecidableEq, Repr

/-- Add words with these forms. -/
def addForms (s : Sentence) (forms : List Bytes) : Sentence := forms.foldl (·.addWord ·) s

/-- The sentences of some events, and the marks after them. -/
def Marks.emit : Marks → List Event → List Sentence × Marks
  | m, [] => ([], m)
  | m, .newline :: events => m.addNewline.emit events
  | m, .sentence forms :: events =>
    (m.mark (addForms .clear forms) :: (m.next.emit events).1, (m.next.emit events).2)

/-- Events one after the other. -/
theorem Marks.emit_append (m : Marks) (events events' : List Event) :
    m.emit (events ++ events') =
      ((m.emit events).1 ++ ((m.emit events).2.emit events').1,
        ((m.emit events).2.emit events').2) := by
  induction events generalizing m with
  | nil => rfl
  | cons event events ih =>
    cases event with
    | newline => exact ih m.addNewline
    | sentence forms =>
      rw [List.cons_append, emit, ih m.next]
      rfl

/-- Line ends after the last sentence give no sentence. -/
theorem Marks.emit_append_newline (m : Marks) (events : List Event) :
    (m.emit (events ++ [.newline])).1 = (m.emit events).1 := by
  rw [emit_append]
  exact List.append_nil _

/-- No forms add no words. -/
@[simp] theorem addForms_nil (s : Sentence) : addForms s [] = s := rfl

/-- The first form adds its word. -/
@[simp] theorem addForms_cons (s : Sentence) (form : Bytes) (forms : List Bytes) :
    addForms s (form :: forms) = addForms (s.addWord form) forms := rfl

/-- Words are added after the others. -/
theorem map_form_addForms (s : Sentence) (forms : List Bytes) :
    (addForms s forms).words.map (·.form) = s.words.map (·.form) ++ forms := by
  induction forms generalizing s with
  | nil => simp
  | cons form forms ih =>
    rw [addForms_cons, ih, Sentence.words_addWord]
    simp

/-- A sentence with forms has words. -/
theorem isEmpty_addForms {forms : List Bytes} (hne : forms ≠ []) :
    (addForms .clear forms).isEmpty = false := by
  have hlength := congrArg List.length (map_form_addForms .clear forms)
  have hpos := List.length_pos_of_ne_nil hne
  rw [List.length_map, List.length_append, List.length_map, Sentence.words_clear,
    List.length_singleton] at hlength
  rw [Sentence.isEmpty_eq_false_iff]
  omega

section Gives

variable {skipped : Byte → Bool}
  {wordStep : Bytes × Sentence → LoopStep (Bytes × Sentence) (Bytes × Sentence)}

/-- The events that the calls of `next_sentence` meet in a text. -/
inductive Gives (skipped : Byte → Bool)
    (wordStep : Bytes × Sentence → LoopStep (Bytes × Sentence) (Bytes × Sentence)) :
    Bytes → List Event → Prop
  | nil : Gives skipped wordStep [] []
  | skip {c : Byte} {text : Bytes} {events : List Event} :
      skipped c = true → c ≠ lf → Gives skipped wordStep text events →
      Gives skipped wordStep (c :: text) events
  | newline {text : Bytes} {events : List Event} :
      skipped lf = true → Gives skipped wordStep text events →
      Gives skipped wordStep (lf :: text) (.newline :: events)
  | sentence {c : Byte} {text rest : Bytes} {forms : List Bytes} {events : List Event} :
      skipped c = false → forms ≠ [] →
      (Comp.loopOf wordStep (c :: text, .clear)).Returns (rest, addForms .clear forms) →
      Gives skipped wordStep rest events →
      Gives skipped wordStep (c :: text) (.sentence forms :: events)

/-- A byte that is skipped changes the marks at most. -/
private theorem nextSentence_skip {c : Byte} (hc : skipped c = true) (text : Bytes) (m : Marks) :
    nextSentence skipped wordStep { m with text := c :: text } =
      nextSentence skipped wordStep { (if c = lf then m.addNewline else m) with text } := by
  simp only [nextSentence, LineFormats.skip, hc, if_true]

/-- A skipped byte is read before all others. -/
private theorem readsAll_skip {reader : InputFormat State} {c : Byte} {text error : Bytes}
    {m : Marks} {sentences : List Sentence} {state : State}
    (hreader : reader.nextSentence = nextSentence skipped wordStep) (hc : skipped c = true)
    (h : reader.ReadsAll { (if c = lf then m.addNewline else m) with text } sentences error state) :
    reader.ReadsAll { m with text := c :: text } sentences error state := by
  have heq : reader.nextSentence { m with text := c :: text } =
      reader.nextSentence { (if c = lf then m.addNewline else m) with text } := by
    rw [hreader, nextSentence_skip hc]
  cases h with
  | stop hcall => exact .stop (heq ▸ hcall)
  | next hcall hreads => exact .next (heq ▸ hcall) hreads

/-- The calls return the sentences of the events. -/
theorem readsAll_of_gives {reader : InputFormat State} {text : Bytes} {events : List Event}
    (hreader : reader.nextSentence = nextSentence skipped wordStep)
    (hstop : ∀ s, wordStep ([], s) = .done ([], s))
    (h : Gives skipped wordStep text events) (m : Marks) :
    reader.ReadsAll { m with text } (m.emit events).1 [] { (m.emit events).2 with text := [] } := by
  induction h generalizing m with
  | nil =>
    have hcall : (reader.nextSentence { m with text := [] }).Returns
        ⟨false, .clear, [], { m with text := [] }⟩ := by
      have hloop : (Comp.loopOf wordStep ([], .clear)).Returns ([], .clear) := by
        rw [Comp.returns_loopOf, hstop]
      rw [hreader]
      exact Comp.returns_bind.mpr ⟨_, hloop, Comp.returns_pure.mpr rfl⟩
    exact .stop hcall
  | skip hc hne _ ih =>
    apply readsAll_skip hreader hc
    rw [if_neg hne]
    exact ih m
  | newline hc _ ih =>
    apply readsAll_skip hreader hc
    rw [if_pos rfl]
    exact ih m.addNewline
  | @sentence c text rest forms events hc hforms hloop _ ih =>
    have hcall : (reader.nextSentence { m with text := c :: text }).Returns
        ⟨true, m.mark (addForms .clear forms), [], { m.next with text := rest }⟩ := by
      rw [hreader]
      simp only [nextSentence, LineFormats.skip, hc, Bool.false_eq_true, if_false]
      refine Comp.returns_bind.mpr ⟨_, hloop, ?_⟩
      simp [isEmpty_addForms hforms]
    exact .next hcall (ih m.next)

end Gives

end LineFormats

end UDPipe
