import UDPipe.Tokenizer.Runs

/-!
# The GRU tokenizer

`gru_tokenizer` with the parts of `unicode_tokenizer` that it uses. A window of
characters is classified at a time, in which a run of spaces is one character, and the
outcomes decide where tokens and sentences end. The network and the recogniser of URLs
and emails are parameters, so is the part of the categories that only the emergency
limit looks at.
-/

namespace UDPipe.Tokenizer.Gru

open Utf8

/-- The outcomes of the network. -/
inductive Outcome where
  | noSplit
  | endOfToken
  | endOfSentence
  deriving DecidableEq, Repr

/-- A `char_info` of the network. -/
structure NetworkChar where
  chr : ℕ
  cat : Category
  deriving DecidableEq, Repr

/-- What the tokenizer is made of. The network is told how many windows were classified
before, so that it may answer differently each time. -/
structure Options where
  tables : Unicode
  /-- `cat & unicode::P`. -/
  isPunctuation : ℕ → Bool
  /-- `cat & unicode::Po`. -/
  isOtherPunctuation : ℕ → Bool
  segment : ℕ
  allowSpaces : Bool
  /-- `ragel_url_email`: where the URL or email that starts at a position ends. -/
  urlEmail : List Character → ℕ → Option ℕ
  /-- `network.classify`: the outcome of each character of a window. -/
  classify : ℕ → List NetworkChar → ℕ → Outcome

/-- The fields of the tokenizer; `chars` is without the character that ends the vector. -/
structure State where
  chars : List Character := []
  current : ℕ := 0
  networkIndex : ℕ := 0
  networkLength : ℕ := 0
  networkOutcomes : List Outcome := []
  networkOffsets : List ℕ := []
  windows : ℕ := 0
  deriving DecidableEq, Repr

/-- `set_text`. -/
def setText (text : Bytes) (st : State) : State := { st with chars := chars text, current := 0 }

namespace Options

variable (opts : Options)

/-- `is_space`. -/
def isSpace (cs : List Character) (index : ℕ) : Bool :=
  cs[index]?.any fun c => opts.tables.isSpace c.code

/-- `emergency_sentence_split`. -/
def emergencySentenceSplit (cs : List Character) (tokens : List TokenRange) : Bool :=
  let code := ((tokens.getLast?.bind fun token => cs[token.start]?).map (·.code)).getD 0
  decide (tokens.length ≥ 500) || (decide (tokens.length ≥ 450) && opts.isPunctuation code) ||
    (decide (tokens.length ≥ 400) && opts.isOtherPunctuation code)

/-! ### Windows -/

/-- The position after a character, or after a run of spaces. -/
def nextOffset (cs : List Character) (offset : ℕ) : ℕ :=
  if opts.isSpace cs offset then
    offset + 1 + ((cs.drop (offset + 1)).takeWhile fun c => opts.tables.isSpace c.code).length
  else offset + 1

/-- The loop that prepares a window of at most this many characters: their offsets, and
the offset after them. -/
def windowOffsets (cs : List Character) : ℕ → ℕ → List ℕ
  | 0, offset => [offset]
  | left + 1, offset =>
    if offset < cs.length then offset :: windowOffsets cs left (opts.nextOffset cs offset)
    else [offset]

/-- A character of the window. -/
def networkChar (cs : List Character) (offset : ℕ) : NetworkChar :=
  match cs[offset]? with
  | none => ⟨0, .other⟩
  | some c =>
    if opts.tables.isSpace c.code then ⟨32, .Zs⟩ else ⟨c.code, opts.tables.category c.code⟩

/-- The characters to classify, with a space at the end of the text. -/
def networkChars (cs : List Character) (starts : List ℕ) : List NetworkChar :=
  let chars := starts.map (opts.networkChar cs)
  if starts.length < opts.segment ∧ (chars.getLast?.map (·.chr)) ≠ some 32 then
    chars ++ [⟨32, .Zs⟩]
  else chars

/-- Two line ends in a row between two positions, or two of `\r\n`. -/
def hasBlankLine (cs : List Character) (start stop : ℕ) : Bool :=
  (List.range' start (stop - 1 - start)).any fun j =>
    let is (k code : ℕ) : Bool := cs[k]?.map (·.code) == some code
    (is j 10 && is (j + 1) 10) ||
      (decide (j + 3 < stop) && is j 13 && is (j + 1) 10 && is (j + 2) 13 && is (j + 3) 10)

/-- What the spaces that follow a character change of its outcome. The loop over the
characters looks at the outcome of the spaces before it changes that one. -/
def spacedOutcome (cs : List Character) (offsets : List ℕ) (outcomes : List Outcome) (i : ℕ)
    (outcome : Outcome) : Outcome :=
  let networkLength := offsets.length - 1
  let following := offsets.getD (i + 1) 0
  if i + 1 < networkLength ∧ opts.isSpace cs following then
    let after := outcomes.getD (i + 1) .noSplit
    let eos := after == .endOfSentence || i + 2 == networkLength ||
      hasBlankLine cs following (offsets.getD (i + 2) 0)
    let outcome := if eos then .endOfSentence else outcome
    if outcome = .noSplit ∧ (opts.allowSpaces = false ∨ after = .endOfToken) then .endOfToken
    else outcome
  else outcome

/-- The loop that cuts a full window back to a character whose outcome is a split. -/
def cutBack (outcomes : List Outcome) (half : ℕ) : ℕ → ℕ
  | 0 => 0
  | length + 1 =>
    if length + 1 > half then
      if outcomes.getD length .noSplit ≠ .noSplit then length else cutBack outcomes half length
    else length + 1

/-- The length of the window that is used. -/
def usedLength (outcomes : List Outcome) (length : ℕ) : ℕ :=
  if length = opts.segment ∧ 10 ≤ length then cutBack outcomes (opts.segment / 2) (length - 5)
  else length

/-- Compute a window from the current position. -/
def computeWindow (st : State) : State :=
  let offsets := opts.windowOffsets st.chars opts.segment st.current
  let networkChars := opts.networkChars st.chars offsets.dropLast
  let outcomes := (List.range networkChars.length).map (opts.classify st.windows networkChars)
  let outcomes := outcomes.mapIdx (opts.spacedOutcome st.chars offsets outcomes)
  { st with
    networkIndex := 0
    networkLength := opts.usedLength outcomes (offsets.length - 1)
    networkOutcomes := outcomes
    networkOffsets := offsets
    windows := st.windows + 1 }

/-- `next_outcome`. -/
def nextOutcome (st : State) : Outcome × State :=
  let st := if st.networkIndex ≥ st.networkLength then opts.computeWindow st else st
  (st.networkOutcomes.getD st.networkIndex .noSplit,
    { st with
      current := st.networkOffsets.getD (st.networkIndex + 1) 0
      networkIndex := st.networkIndex + 1 })

/-! ### Sentences -/

/-- One pass of the loop over the spaces before a token. -/
def spaceStep (tokens : List TokenRange) (st : State) : LoopStep State State :=
  if st.current < st.chars.length ∧ opts.isSpace st.chars st.current then
    let (outcome, st) := opts.nextOutcome st
    if outcome = .endOfSentence ∧ tokens ≠ [] then .done st else .next st
  else .done st

/-- One pass of the loop over the outcomes of a URL. -/
def urlStep (tokens : List TokenRange) : State × Bool → LoopStep (State × Bool) (State × Bool)
  | (st, eos) =>
    if st.networkIndex < st.networkLength ∧
        st.networkOffsets.getD st.networkIndex 0 < st.current then
      let outcome := st.networkOutcomes.getD st.networkIndex .noSplit
      .next ({ st with networkIndex := st.networkIndex + 1 },
        eos || (outcome == .endOfSentence && tokens != []))
    else .done (st, eos)

/-- One pass of the loop over the characters of a token. -/
def tokenStep (st : State) : LoopStep State (State × Bool) :=
  let (outcome, st) := opts.nextOutcome st
  let eos := outcome == .endOfSentence
  if outcome ≠ .noSplit then .done (st, eos)
  else if st.current < st.chars.length then .next st
  else .done (st, eos)

/-- One pass of the loop over the tokens of a sentence. -/
def sentenceStep : State × List TokenRange × Bool →
    Comp (LoopStep (State × List TokenRange × Bool) (List TokenRange × State))
  | (st, tokens, eos) =>
    if eos || opts.emergencySentenceSplit st.chars tokens then pure (.done (tokens, st))
    else do
      let st ← Comp.loopOf (opts.spaceStep tokens) st
      if st.current ≥ st.chars.length then pure (.done (tokens, st))
      else
        match opts.urlEmail st.chars st.current with
        | some stop => do
          let tokens := tokens ++ [⟨st.current, stop - st.current⟩]
          let (st, eos) ← Comp.loopOf (urlStep tokens) ({ st with current := stop }, false)
          pure (.next (st, tokens, eos))
        | none => do
          let start := st.current
          let (st, eos) ← Comp.loopOf opts.tokenStep st
          pure (.next (st, tokens ++ [⟨start, st.current - start⟩], eos))

/-- `next_sentence`, which fails at the end of the text. -/
def nextSentence (st : State) : Comp (Option (List TokenRange) × State) :=
  if st.current ≥ st.chars.length then pure (none, st)
  else do
    let st := if st.current = 0 then { st with networkIndex := 0, networkLength := 0 } else st
    let (tokens, st) ← Comp.loop opts.sentenceStep (st, [], false)
    pure (if tokens = [] then none else some tokens, st)

/-- Call `next_sentence` until it returns false. -/
def sentences (st : State) : Comp (List (List TokenRange) × State) :=
  Comp.loop (fun (st, sentences) => do
    let (tokens, st) ← opts.nextSentence st
    pure <|
      match tokens with
      | some tokens => .next (st, sentences ++ [tokens])
      | none => .done (sentences, st)) (st, [])

end Options

end UDPipe.Tokenizer.Gru
