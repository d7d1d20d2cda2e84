import Mathlib.Data.List.Forall2
import UDPipe.Tokenizer.Presegmented

/-!
# Lines as sentences

The presegmented tokenizer makes one sentence of every line on which the inner tokenizer
finds a token: the words of the partial sentences one after the other, with their multiword
tokens and empty nodes moved along. A paragraph begins after two line ends. They are counted
on both sides of a line and over the lines without tokens, in an `unsigned` counter, so the
number that is compared is the remainder of theirs.
-/

namespace UDPipe.Presegmented

open Comp InputFormat
open LineFormats (Marks)

variable {σ : Type}

/-! ### The merged sentence -/

/-- A partial sentence of a tokenizer: numbered words without heads, and no other nodes
without words. -/
structure HeadlessPart (part : Sentence) : Prop where
  nonempty : part.words ≠ []
  ids : ∀ (i : ℕ) (word : Word), part.words[i]? = some word → word.id = i
  heads : ∀ word ∈ part.words, word.head ≤ 0
  nodes : part.isEmpty = true → part.multiwordTokens = [] ∧ part.emptyNodes = []

/-- The words of a sentence without its root. -/
def properWords (s : Sentence) : List Word := s.words.drop 1

/-- The words of several sentences. -/
def wordsOf (parts : List Sentence) : List Word := parts.flatMap properWords

/-- A multiword token behind `words` more words. -/
def rebaseToken (words : ℕ) (token : MultiwordToken) : MultiwordToken :=
  { token with idFirst := token.idFirst + words, idLast := token.idLast + words }

/-- An empty node behind `words` more words. -/
def rebaseNode (words : ℕ) (node : EmptyNode) : EmptyNode := { node with id := node.id + words }

/-- The nodes of several sentences, each rebased by the words before its sentence. -/
def rebased {α : Type} (nodes : Sentence → List α) (rebase : ℕ → α → α) :
    ℕ → List Sentence → List α
  | _, [] => []
  | words, part :: parts =>
    (nodes part).map (rebase words) ++
      rebased nodes rebase (words + (properWords part).length) parts

/-- Give words consecutive ids. -/
def numbered (first : ℕ) (words : List Word) : List Word :=
  words.mapIdx fun i word => { word with id := (first + i : ℕ) }

/-- A sentence has the nodes of several partial sentences: their words numbered on, and
their multiword tokens and empty nodes at the words they have there. -/
structure Merges (parts : List Sentence) (s : Sentence) : Prop where
  words : s.words = Sentence.rootWord :: numbered 1 (wordsOf parts)
  multiwordTokens : s.multiwordTokens = rebased Sentence.multiwordTokens rebaseToken 0 parts
  emptyNodes : s.emptyNodes = rebased Sentence.emptyNodes rebaseNode 0 parts
  covered : ∀ before part after, parts = before ++ part :: after →
    ∀ (i : ℕ) (word : Word), part.words[i + 1]? = some word →
      s.words[(wordsOf before).length + (i + 1)]? =
        some { word with id := ((wordsOf before).length + (i + 1) : ℕ) }

/-- More words are numbered behind the others. -/
theorem numbered_append (first : ℕ) (words words' : List Word) :
    numbered first (words ++ words') =
      numbered first words ++ numbered (first + words.length) words' := by
  rw [numbered, numbered, numbered, List.mapIdx_append]
  congr 2
  funext i word
  rw [Nat.add_comm i, Nat.add_assoc]

/-- Numbering keeps the number of words. -/
@[simp] theorem length_numbered (first : ℕ) (words : List Word) :
    (numbered first words).length = words.length := List.length_mapIdx

/-- The words of a part that is appended are numbered behind the others. -/
theorem HeadlessPart.numbered_eq {part : Sentence} (h : HeadlessPart part) (words : ℕ) :
    (properWords part).map (fun word =>
      { word with
        id := word.id + (words : ℤ)
        head := if word.head > 0 then word.head + (words : ℤ) else word.head }) =
      numbered (words + 1) (properWords part) := by
  refine List.ext_getElem? fun i => ?_
  rw [numbered, List.getElem?_map, List.getElem?_mapIdx]
  cases hword : (properWords part)[i]? with
  | none => rfl
  | some word =>
    have hget : part.words[1 + i]? = some word := by
      rw [← List.getElem?_drop]
      exact hword
    have hid := h.ids _ word hget
    have hhead : ¬ word.head > 0 := not_lt.mpr (h.heads word (List.mem_of_getElem? hget))
    have hsum : word.id + (words : ℤ) = ((words + 1 + i : ℕ) : ℤ) := by
      rw [hid]
      omega
    rw [Option.map_some, Option.map_some, if_neg hhead, hsum]

/-- A partial sentence is appended by numbering its words on. -/
theorem appendPartial_eq {part : Sentence} (h : HeadlessPart part) {s : Sentence} {words : ℕ}
    (hlength : s.words.length = words + 1) :
    appendPartial s part =
      { s with
        words := s.words ++ numbered (words + 1) (properWords part)
        multiwordTokens := s.multiwordTokens ++ part.multiwordTokens.map (rebaseToken words)
        emptyNodes := s.emptyNodes ++ part.emptyNodes.map (rebaseNode words) } := by
  have hwords : (s.words.length : ℤ) - 1 = words := by omega
  rw [appendPartial, hwords, ← h.numbered_eq]
  rfl

/-- All the partial sentences appended one after the other. -/
theorem foldl_appendPartial {parts : List Sentence} (h : ∀ part ∈ parts, HeadlessPart part)
    {s : Sentence} {words : ℕ} (hlength : s.words.length = words + 1) :
    parts.foldl appendPartial s =
      { s with
        words := s.words ++ numbered (words + 1) (wordsOf parts)
        multiwordTokens := s.multiwordTokens ++
          rebased Sentence.multiwordTokens rebaseToken words parts
        emptyNodes := s.emptyNodes ++ rebased Sentence.emptyNodes rebaseNode words parts } := by
  induction parts generalizing s words with
  | nil => simp [wordsOf, numbered, rebased]
  | cons part parts ih =>
    obtain ⟨hpart, hparts⟩ := List.forall_mem_cons.mp h
    have hnext : (appendPartial s part).words.length = words + (properWords part).length + 1 := by
      rw [appendPartial_eq hpart hlength, List.length_append, length_numbered, hlength]
      omega
    have hwords : wordsOf (part :: parts) = properWords part ++ wordsOf parts :=
      List.flatMap_cons
    have hfirst : words + (properWords part).length + 1 = words + 1 + (properWords part).length := by
      omega
    rw [List.foldl_cons, ih hparts hnext, appendPartial_eq hpart hlength, hwords, numbered_append,
      hfirst]
    simp only [List.append_assoc, rebased]

/-- Appending the parts of a line merges them. -/
theorem merges_foldl {parts : List Sentence} (h : ∀ part ∈ parts, HeadlessPart part) :
    Merges parts (parts.foldl appendPartial .clear) := by
  rw [foldl_appendPartial h (show Sentence.clear.words.length = 0 + 1 from rfl)]
  refine ⟨rfl, rfl, rfl, ?_⟩
  rintro before part after rfl i word hword
  have hproper : (properWords part)[i]? = some word := by
    rw [properWords, List.getElem?_drop, Nat.add_comm]
    exact hword
  have hwords : (wordsOf (before ++ part :: after))[(wordsOf before).length + i]? = some word := by
    rw [wordsOf, List.flatMap_append, ← wordsOf, List.getElem?_append_right (Nat.le_add_right _ _),
      Nat.add_sub_cancel_left, List.flatMap_cons,
      List.getElem?_append_left (List.getElem?_eq_some_iff.mp hproper).1]
    exact hproper
  have hindex : (wordsOf before).length + (i + 1) = (wordsOf before).length + i + 1 := rfl
  rw [hindex, Sentence.words_clear, List.singleton_append, List.getElem?_cons_succ, numbered,
    List.getElem?_mapIdx, hwords, Option.map_some, Nat.zero_add, Nat.add_comm 1]

/-- Lines without a token leave no nodes. -/
theorem foldl_appendPartial_of_isEmpty {parts : List Sentence}
    (h : ∀ part ∈ parts, HeadlessPart part) (hempty : ∀ part ∈ parts, part.isEmpty = true) :
    parts.foldl appendPartial .clear = .clear := by
  induction parts with
  | nil => rfl
  | cons part parts ih =>
    obtain ⟨hpart, hparts⟩ := List.forall_mem_cons.mp h
    obtain ⟨hnone, hothers⟩ := List.forall_mem_cons.mp hempty
    obtain ⟨htokens, hnodes⟩ := hpart.nodes hnone
    have hproper : properWords part = [] := by
      have hlength := Sentence.isEmpty_iff.mp hnone
      rw [properWords, List.drop_eq_nil_iff]
      omega
    have hsame : appendPartial .clear part = .clear := by
      rw [appendPartial_eq hpart (show Sentence.clear.words.length = 0 + 1 from rfl), hproper, htokens, hnodes]
      rfl
    rw [List.foldl_cons, hsame, ih hparts hothers]

/-- The sentence of a line is empty if all its parts are. -/
theorem isEmpty_foldl_appendPartial {parts : List Sentence}
    (h : ∀ part ∈ parts, HeadlessPart part) :
    (parts.foldl appendPartial .clear).isEmpty = parts.all Sentence.isEmpty := by
  have hiff : wordsOf parts = [] ↔ ∀ part ∈ parts, part.isEmpty = true := by
    rw [wordsOf, List.flatMap_eq_nil_iff]
    refine forall₂_congr fun part hmem => ?_
    have hpos := List.length_pos_iff.mpr (h part hmem).nonempty
    rw [properWords, List.drop_eq_nil_iff, Sentence.isEmpty_iff]
    omega
  rw [Bool.eq_iff_iff, List.all_eq_true, ← hiff, Sentence.isEmpty_iff, (merges_foldl h).words,
    List.length_cons, length_numbered, Nat.add_eq_right, List.length_eq_zero_iff]

/-! ### The lines of a text -/

/-- The bytes of a line with the line ends around it. -/
def Line.bytes (line : Line) : Bytes := line.before ++ line.body ++ line.after

/-- A line and the rest are the text. -/
theorem nextLine_bytes (text : Bytes) : (nextLine text).1.bytes ++ (nextLine text).2 = text := by
  simp only [nextLine, Line.bytes, List.append_assoc, List.takeWhile_append_dropWhile]

/-- A line has no line feed inside. -/
theorem nextLine_body (text : Bytes) : lf ∉ (nextLine text).1.body := by
  intro hmem
  have hend := List.mem_takeWhile_imp hmem
  simp [isLineEnd] at hend

/-- A line is not empty. -/
theorem length_nextLine_lt {text : Bytes} (h : text ≠ []) :
    (nextLine text).2.length < text.length := by
  have hsum := congrArg List.length (nextLine_bytes text)
  rw [List.length_append] at hsum
  have hpos : 0 < (nextLine text).1.bytes.length := by
    obtain ⟨c, rest, rfl⟩ := List.exists_cons_of_ne_nil h
    rw [List.length_pos_iff]
    by_cases hc : isLineEnd c = true <;> simp [Line.bytes, nextLine, hc]
  omega

/-- The lines of a text, each with the line ends around it. -/
def lines (text : Bytes) : List Line :=
  if h : text = [] then []
  else
    have := length_nextLine_lt h
    (nextLine text).1 :: lines (nextLine text).2
termination_by text.length

/-- The empty text has no lines. -/
@[simp] theorem lines_nil : lines [] = [] := by
  rw [lines]
  rfl

/-- The first line of a text, and those of the rest. -/
theorem lines_of_ne_nil {text : Bytes} (h : text ≠ []) :
    lines text = (nextLine text).1 :: lines (nextLine text).2 := by
  rw [lines, dif_neg h]

/-- The lines hold the whole text. -/
theorem flatMap_lines (text : Bytes) : (lines text).flatMap Line.bytes = text := by
  induction text using lines.induct with
  | case1 => simp
  | case2 text h _ ih =>
    rw [lines_of_ne_nil h, List.flatMap_cons, ih, nextLine_bytes]

/-! ### What is found on the lines -/

/-- A line and the partial sentences that the inner tokenizer gives for it. -/
structure Found where
  line : Line
  parts : List Sentence

/-- Some partial sentence has a token. -/
def Found.hasToken (found : Found) : Bool := !found.parts.all Sentence.isEmpty

/-- The inner tokenizer reads lines one after the other. -/
inductive Tokenizes (inner : InputFormat σ) : σ → List Found → σ → Prop
  | nil (s : σ) : Tokenizes inner s [] s
  | cons {s s' t : σ} {line : Line} {parts : List Sentence} {founds : List Found} :
      inner.ReadsAll (inner.setText line.bytes s) parts [] s' → Tokenizes inner s' founds t →
      Tokenizes inner s (⟨line, parts⟩ :: founds) t

/-- What lies between a line and the line of the sentence before, or the beginning. -/
structure Gap where
  first : Bool
  text : Bytes

/-- The gap after one more line. -/
def Gap.add (gap : Gap) (found : Found) : Gap :=
  if found.hasToken then ⟨false, found.line.after⟩
  else ⟨gap.first, gap.text ++ found.line.bytes⟩

/-- The lines with tokens, each with the gap before it. -/
def withGaps : Gap → List Found → List (Found × Gap)
  | _, [] => []
  | gap, found :: founds =>
    if found.hasToken then
      (found, ⟨gap.first, gap.text ++ found.line.before⟩) :: withGaps (gap.add found) founds
    else withGaps (gap.add found) founds

/-- A sentence after this gap begins a paragraph: it is the first one, or two line ends
precede it. -/
def Gap.BeginsParagraph (gap : Gap) : Prop := gap.first = true ∨ 2 ≤ gap.text.count lf

/-- The number that stands for the line ends of the gap. -/
def Gap.newlines (gap : Gap) : ℕ := (if gap.first then 2 else 0) + gap.text.count lf

/-- The counter is large enough to see a paragraph. -/
def Gap.Counted (gap : Gap) : Prop := 2 ≤ gap.newlines → 2 ≤ gap.newlines % unsignedValues

/-- The sentence for a line with tokens. -/
structure LineSentence (entry : Found × Gap) (s : Sentence) : Prop where
  merges : Merges entry.1.parts s
  newPar : s.getNewPar = true ↔ entry.2.BeginsParagraph

/-- Several texts are set and read to their ends. -/
inductive ReadsTexts (reader : InputFormat σ) : σ → List Bytes → List Sentence → σ → Prop
  | nil (s : σ) : ReadsTexts reader s [] [] s
  | cons {s s' t : σ} {text : Bytes} {texts : List Bytes} {sentences rest : List Sentence} :
      reader.ReadsAll (reader.setText text s) sentences [] s' →
      ReadsTexts reader s' texts rest t →
      ReadsTexts reader s (text :: texts) (sentences ++ rest) t

/-- After a reset, the texts give one sentence for every line with tokens, and no others. -/
def KeepsLines (inner : InputFormat σ) (state : State σ) (texts : List Bytes) : Prop :=
  ∃ founds t sentences state',
    Tokenizes inner state.tokenizer founds t ∧ founds.map Found.line = texts.flatMap lines ∧
    ReadsTexts (reader inner) state texts sentences state' ∧
    List.Forall₂ LineSentence (withGaps ⟨true, []⟩ founds) sentences

/-- An inner tokenizer reads every text to its end, without heads and without an error. -/
structure TokenizesLines (inner : InputFormat σ) (Inv : σ → Prop) : Prop where
  reset : ∀ s, Inv s → Inv (inner.resetDocument [] s)
  reads : ∀ s, Inv s → ∀ text, ∃ parts s', inner.ReadsAll (inner.setText text s) parts [] s' ∧
    Inv s' ∧ ∀ part ∈ parts, HeadlessPart part

/-! ### One line -/

section Steps

variable {inner : InputFormat σ}

/-- The loop over the partial sentences appends all of them. -/
theorem returns_partialSteps {s t : σ} {parts : List Sentence} {error : Bytes}
    (h : inner.ReadsAll s parts error t) (sentence : Sentence) :
    (Comp.loop (partialStep inner) (s, sentence)).Returns
      (error, t, parts.foldl appendPartial sentence) := by
  induction h generalizing sentence with
  | stop hcall =>
    exact returns_loop.mpr (.inl (returns_bind.mpr ⟨_, hcall, returns_pure.mpr rfl⟩))
  | @next s s' t part parts error error' hcall _ ih =>
    refine returns_loop.mpr (.inr ⟨(s', appendPartial sentence part),
      returns_bind.mpr ⟨_, hcall, returns_pure.mpr rfl⟩, ih _⟩)

/-- The beginning of a call. -/
def State.start (state : State σ) : Progress σ :=
  ⟨state.toMarks, state.tokenizer, state.text, .clear, 0⟩

/-- The state after a line without tokens. -/
def State.skip (state : State σ) (s : σ) : State σ where
  toMarks := addNewlines (addNewlines state.toMarks ((nextLine state.text).1.before.count lf))
    ((0 + (nextLine state.text).1.after.count lf) % unsignedValues)
  tokenizer := s
  text := (nextLine state.text).2

/-- The loop after a line with tokens. -/
def State.found (state : State σ) (s : σ) (sentence : Sentence) : Progress σ :=
  ⟨addNewlines state.toMarks ((nextLine state.text).1.before.count lf), s,
    (nextLine state.text).2, sentence,
    (0 + (nextLine state.text).1.after.count lf) % unsignedValues⟩

/-- The counted lines of a state stand for a gap. -/
def State.Tracks (state : State σ) (gap : Gap) : Prop :=
  state.preceedingNewlines = gap.newlines % unsignedValues

variable {state : State σ} {parts : List Sentence} {s : σ}

/-- A step reads the parts of the next line. -/
private theorem lineStep_start (htext : state.text ≠ [])
    (h : inner.ReadsAll (inner.setText (nextLine state.text).1.bytes state.tokenizer) parts [] s)
    {out : LoopStep (Progress σ) (Bytes × Progress σ)}
    (hout : (if (parts.foldl appendPartial .clear).isEmpty then
        .next ⟨(state.skip s).toMarks, s, (nextLine state.text).2,
          parts.foldl appendPartial .clear, 0⟩
      else .next (state.found s (parts.foldl appendPartial .clear))) = out) :
    (lineStep inner state.start).Returns out := by
  have hgo : ¬ (state.start.text = [] ∨ state.start.sentence.isEmpty = false) := by
    rintro (hnil | hfalse)
    · exact htext hnil
    · cases hfalse
  rw [lineStep, if_neg hgo]
  exact returns_bind.mpr ⟨_, returns_partialSteps h _, returns_pure.mpr hout⟩

/-- A line without tokens is skipped. -/
theorem nextSentence_skip (htext : state.text ≠ [])
    (h : inner.ReadsAll (inner.setText (nextLine state.text).1.bytes state.tokenizer) parts [] s)
    (hclear : parts.foldl appendPartial .clear = .clear) {r : NextSentence (State σ)}
    (hr : (nextSentence inner (state.skip s)).Returns r) :
    (nextSentence inner state).Returns r := by
  obtain ⟨ended, hloop, hfinish⟩ := returns_bind.mp hr
  refine returns_bind.mpr ⟨ended, returns_loop.mpr (.inr ⟨(state.skip s).start, ?_, hloop⟩), hfinish⟩
  refine lineStep_start htext h ?_
  rw [hclear]
  rfl

/-- A line with tokens gives a sentence. -/
theorem nextSentence_found (htext : state.text ≠ [])
    (h : inner.ReadsAll (inner.setText (nextLine state.text).1.bytes state.tokenizer) parts [] s)
    (hfull : (parts.foldl appendPartial .clear).isEmpty = false) :
    (nextSentence inner state).Returns
      ⟨true, Tokenizer.Options.addComments (parts.foldl appendPartial .clear) state.newDocument
        state.documentId
        ((state.preceedingNewlines + (nextLine state.text).1.before.count lf) % unsignedValues)
        state.sentenceId, [],
        { state.toMarks.next with
          preceedingNewlines := (0 + (nextLine state.text).1.after.count lf) % unsignedValues
          tokenizer := s
          text := (nextLine state.text).2 }⟩ := by
  have hstep : (lineStep inner state.start).Returns
      (.next (state.found s (parts.foldl appendPartial .clear))) := by
    refine lineStep_start htext h ?_
    rw [hfull]
    rfl
  have hstop : (lineStep inner (state.found s (parts.foldl appendPartial .clear))).Returns
      (.done ([], state.found s (parts.foldl appendPartial .clear))) := by
    rw [lineStep, if_pos (.inr hfull)]
    exact returns_pure.mpr rfl
  refine returns_bind.mpr ⟨_, returns_loop.mpr (.inr ⟨_, hstep, returns_loop.mpr (.inl hstop)⟩),
    returns_pure.mpr ?_⟩
  rw [finish, if_neg (by simp [State.found, hfull])]
  rfl

/-- At the end of the text the call returns false. -/
theorem nextSentence_end (htext : state.text = []) :
    (nextSentence inner state).Returns ⟨false, .clear, [], state⟩ := by
  refine returns_bind.mpr ⟨([], state.start), returns_loop.mpr (.inl ?_), returns_pure.mpr ?_⟩
  · rw [lineStep, if_pos (.inl htext)]
    exact returns_pure.mpr rfl
  · rw [finish, if_pos (.inr rfl)]
    rfl

end Steps

/-! ### The comments of a sentence -/

/-- Without comments no paragraph begins. -/
theorem getNewPar_of_comments_eq_nil {s : Sentence} (hs : s.comments = []) :
    s.getNewPar = false := by
  rw [Sentence.getNewPar_eq_any, hs]
  rfl

/-- Two line ends before a sentence make it begin a paragraph. -/
theorem getNewPar_addComments_eq {s : Sentence} (hs : s.comments = []) (newDocument : Bool)
    (documentId : Bytes) (preceedingNewlines sentenceId : ℕ) :
    (Tokenizer.Options.addComments s newDocument documentId preceedingNewlines
      sentenceId).getNewPar = decide (2 ≤ preceedingNewlines) := by
  have hdoc : ∀ id, (s.setNewDoc true id).getNewPar = false := by
    intro id
    have hadded : ∀ comment, Sentence.commentAfter (bytes "newpar") comment = none →
        Sentence.getNewPar { s with comments := [comment] } = false := by
      intro comment hcomment
      rw [Sentence.getNewPar_eq_any, List.any_cons, hcomment]
      rfl
    unfold Sentence.setNewDoc Sentence.setComment Sentence.removeComment
    rw [hs]
    by_cases hid : id = []
    · rw [if_neg (by simp [hid]), if_pos rfl]
      exact hadded _ rfl
    · rw [if_pos (by simp [hid])]
      dsimp only
      rw [if_neg hid]
      exact hadded _ rfl
  have htext : ∀ t : Sentence, Sentence.getNewPar
      { t with comments := t.comments ++ [bytes "# text = " ++ t.surfaceText] } = t.getNewPar :=
    fun t => Sentence.getNewPar_append rfl rfl
  have hpar : ∀ t : Sentence, (t.setNewPar true).getNewPar = true := by
    intro t
    have hmark : (Sentence.commentAfter (bytes "newpar") (bytes "# newpar")).isSome = true := rfl
    rw [Sentence.getNewPar_eq_any, List.any_eq_true]
    exact ⟨bytes "# newpar", List.mem_append_right _ (List.mem_singleton_self _), hmark⟩
  unfold Tokenizer.Options.addComments
  rw [htext, Sentence.getNewPar_setSentId]
  by_cases hlines : 2 ≤ preceedingNewlines
  · rw [if_pos hlines, hpar, decide_eq_true hlines]
  · rw [if_neg hlines, decide_eq_false hlines]
    cases newDocument with
    | true => exact hdoc documentId
    | false => exact getNewPar_of_comments_eq_nil hs

/-- Only the nodes of a sentence matter for merging. -/
theorem Merges.congr {parts : List Sentence} {s s' : Sentence} (h : Merges parts s)
    (hsame : s'.SameNodes s) : Merges parts s' := by
  obtain ⟨hwords, htokens, hnodes⟩ := hsame
  refine ⟨hwords.trans h.words, htokens.trans h.multiwordTokens, hnodes.trans h.emptyNodes, ?_⟩
  rw [hwords]
  exact h.covered

/-! ### Texts -/

section Runs

variable {inner : InputFormat σ}

/-- What is read for a line with tokens, with the remainder of the counter. -/
def Marked (entry : Found × Gap) (s : Sentence) : Prop :=
  Merges entry.1.parts s ∧ s.getNewPar = decide (2 ≤ entry.2.newlines % unsignedValues)

/-- Line ends are counted on both sides of a line without tokens. -/
theorem State.Tracks.skip {state : State σ} {gap : Gap} (h : state.Tracks gap) {found : Found}
    (hline : found.line = (nextLine state.text).1) (htoken : found.hasToken = false) (s : σ) :
    (state.skip s).Tracks (gap.add found) := by
  have hbody : found.line.body.count lf = 0 := by
    rw [List.count_eq_zero, hline]
    exact nextLine_body state.text
  have hnewlines : (gap.add found).newlines =
      gap.newlines + found.line.before.count lf + found.line.after.count lf := by
    rw [Gap.add, htoken]
    simp only [Bool.false_eq_true, if_false, Gap.newlines, Line.bytes, List.count_append, hbody]
    omega
  unfold State.Tracks at *
  rw [hnewlines, hline]
  change ((state.preceedingNewlines + _) % unsignedValues + (0 + _) % unsignedValues) %
    unsignedValues = _
  rw [h, Nat.zero_add]
  simp only [Nat.add_mod_mod, Nat.mod_add_mod]

/-- One text: the sentences that are read belong to its lines with tokens. -/
theorem exists_readsAll {founds : List Found} {state : State σ} {t : σ} {gap : Gap}
    (h : Tokenizes inner state.tokenizer founds t)
    (hlines : founds.map Found.line = lines state.text)
    (hparts : ∀ found ∈ founds, ∀ part ∈ found.parts, HeadlessPart part)
    (htracks : state.Tracks gap) :
    ∃ sentences state', (reader inner).ReadsAll state sentences [] state' ∧
      List.Forall₂ Marked (withGaps gap founds) sentences ∧ state'.tokenizer = t ∧
      state'.Tracks (founds.foldl Gap.add gap) := by
  induction founds generalizing state gap with
  | nil =>
    cases h
    have htext : state.text = [] := by
      by_contra hne
      rw [lines_of_ne_nil hne] at hlines
      cases hlines
    exact ⟨[], state, .stop (nextSentence_end htext), .nil, rfl, htracks⟩
  | cons found founds ih =>
    obtain ⟨hthis, hothers⟩ := List.forall_mem_cons.mp hparts
    have htext : state.text ≠ [] := by
      rintro hnil
      rw [hnil, lines_nil] at hlines
      cases hlines
    rw [lines_of_ne_nil htext, List.map_cons] at hlines
    obtain ⟨hline, hrest⟩ := List.cons.inj hlines
    cases h with
    | @cons _ s _ line parts _ hreads htokenizes =>
      obtain rfl : line = (nextLine state.text).1 := hline
      have hhas : Found.hasToken ⟨(nextLine state.text).1, parts⟩ =
          !(parts.foldl appendPartial .clear).isEmpty := by
        rw [isEmpty_foldl_appendPartial hthis]
        rfl
      cases htoken : Found.hasToken ⟨(nextLine state.text).1, parts⟩ with
      | false =>
        have hempty : ∀ part ∈ parts, part.isEmpty = true := by
          rw [Found.hasToken, Bool.not_eq_false', List.all_eq_true] at htoken
          exact htoken
        have hclear := foldl_appendPartial_of_isEmpty hthis hempty
        obtain ⟨sentences, state', hall, hmarked, htok, htracks'⟩ :=
          @ih (state.skip s) _ htokenizes hrest hothers (htracks.skip rfl htoken s)
        refine ⟨sentences, state', ?_, ?_, htok, htracks'⟩
        · cases hall with
          | stop hcall => exact .stop (nextSentence_skip htext hreads hclear hcall)
          | next hcall hreads' => exact .next (nextSentence_skip htext hreads hclear hcall) hreads'
        · rw [withGaps, if_neg (by simp [htoken])]
          exact hmarked
      | true =>
        rw [htoken, eq_comm, Bool.not_eq_true'] at hhas
        have hcall := nextSentence_found htext hreads hhas
        have hafter : (gap.add ⟨(nextLine state.text).1, parts⟩) =
            ⟨false, (nextLine state.text).1.after⟩ := by
          rw [Gap.add, if_pos htoken]
        obtain ⟨sentences, state', hall, hmarked, htok, htracks'⟩ :=
          @ih { state.toMarks.next with
            preceedingNewlines := (0 + (nextLine state.text).1.after.count lf) % unsignedValues
            tokenizer := s
            text := (nextLine state.text).2 } _ htokenizes hrest hothers
            (show State.Tracks _ (gap.add ⟨(nextLine state.text).1, parts⟩) by
              rw [hafter]
              rfl)
        refine ⟨_, state', .next hcall hall, ?_, htok, htracks'⟩
        rw [withGaps, if_pos htoken]
        refine .cons ⟨?_, ?_⟩ hmarked
        · exact (merges_foldl hthis).congr (Tokenizer.Options.sameNodes_addComments _ _ _ _ _)
        · have hcomments : (parts.foldl appendPartial .clear).comments = [] := by
            rw [foldl_appendPartial hthis (show Sentence.clear.words.length = 0 + 1 from rfl)]
            rfl
          have hcount : (state.preceedingNewlines + (nextLine state.text).1.before.count lf) %
              unsignedValues = Gap.newlines
                ⟨gap.first, gap.text ++ (nextLine state.text).1.before⟩ % unsignedValues := by
            rw [htracks, Nat.mod_add_mod, Gap.newlines, Gap.newlines, List.count_append,
              Nat.add_assoc]
          rw [getNewPar_addComments_eq hcomments, hcount]

/-- The gaps of more lines are counted on from those before. -/
theorem withGaps_append (gap : Gap) (founds founds' : List Found) :
    withGaps gap (founds ++ founds') =
      withGaps gap founds ++ withGaps (founds.foldl Gap.add gap) founds' := by
  induction founds generalizing gap with
  | nil => rfl
  | cons found founds ih =>
    rw [List.cons_append, withGaps, withGaps, List.foldl_cons]
    split <;> simp [ih]

/-- More lines are tokenized behind the others. -/
theorem Tokenizes.append {founds founds' : List Found} {s t : σ}
    (h : Tokenizes inner s (founds ++ founds') t) :
    ∃ m, Tokenizes inner s founds m ∧ Tokenizes inner m founds' t := by
  induction founds generalizing s with
  | nil => exact ⟨s, .nil s, h⟩
  | cons found founds ih =>
    cases h with
    | cons hreads hrest =>
      obtain ⟨m, hfounds, hfounds'⟩ := ih hrest
      exact ⟨m, .cons hreads hfounds, hfounds'⟩

/-- Several texts, one after the other. -/
theorem exists_readsTexts {texts : List Bytes} {founds : List Found} {state : State σ} {t : σ}
    {gap : Gap} (h : Tokenizes inner state.tokenizer founds t)
    (hlines : founds.map Found.line = texts.flatMap lines)
    (hparts : ∀ found ∈ founds, ∀ part ∈ found.parts, HeadlessPart part)
    (htracks : state.Tracks gap) :
    ∃ sentences state', ReadsTexts (reader inner) state texts sentences state' ∧
      List.Forall₂ Marked (withGaps gap founds) sentences := by
  induction texts generalizing founds state gap with
  | nil =>
    obtain rfl : founds = [] := List.map_eq_nil_iff.mp hlines
    exact ⟨[], state, .nil state, .nil⟩
  | cons text texts ih =>
    rw [List.flatMap_cons] at hlines
    obtain ⟨founds, founds', rfl, hthis, hrest⟩ := List.map_eq_append_iff.mp hlines
    obtain ⟨m, hfounds, hfounds'⟩ := h.append
    obtain ⟨hparts, hparts'⟩ := List.forall_mem_append.mp hparts
    obtain ⟨sentences, state', hreads, hmarked, rfl, htracks'⟩ :=
      @exists_readsAll _ inner founds ((reader inner).setText text state) m gap hfounds hthis
        hparts htracks
    obtain ⟨sentences', state'', hreads', hmarked'⟩ := ih hfounds' hrest hparts' htracks'
    rw [withGaps_append]
    exact ⟨_, state'', .cons hreads hreads', List.rel_append hmarked hmarked'⟩

/-- An inner tokenizer reads any lines. -/
theorem TokenizesLines.exists_tokenizes {Inv : σ → Prop} (h : TokenizesLines inner Inv) {s : σ}
    (hs : Inv s) (ls : List Line) :
    ∃ founds t, Tokenizes inner s founds t ∧ founds.map Found.line = ls ∧
      ∀ found ∈ founds, ∀ part ∈ found.parts, HeadlessPart part := by
  induction ls generalizing s with
  | nil => exact ⟨[], s, .nil s, rfl, List.forall_mem_nil _⟩
  | cons line ls ih =>
    obtain ⟨parts, s', hreads, hs', hparts⟩ := h.reads s hs line.bytes
    obtain ⟨founds, t, htokenizes, hlines, hrest⟩ := ih hs'
    exact ⟨⟨line, parts⟩ :: founds, t, .cons hreads htokenizes, by rw [List.map_cons, hlines],
      List.forall_mem_cons.mpr ⟨hparts, hrest⟩⟩

/-! ### Readings are unique -/

/-- A reader reads a text in one way. -/
theorem readsAll_unique {reader : InputFormat σ} {s t t' : σ} {sentences sentences' : List Sentence}
    {error error' : Bytes} (h : reader.ReadsAll s sentences error t)
    (h' : reader.ReadsAll s sentences' error' t') : sentences = sentences' ∧ t = t' := by
  have heq := (returns_readAll.mpr h).unique (returns_readAll.mpr h')
  simp only [Prod.mk.injEq] at heq
  exact ⟨heq.1, heq.2.2⟩

/-- The parts of the lines are found in one way. -/
theorem Tokenizes.unique {founds founds' : List Found} {s t t' : σ}
    (h : Tokenizes inner s founds t) (h' : Tokenizes inner s founds' t')
    (hlines : founds.map Found.line = founds'.map Found.line) : founds = founds' := by
  induction h generalizing founds' with
  | nil s => exact (List.map_eq_nil_iff.mp hlines.symm).symm
  | cons hreads _ ih =>
    cases h' with
    | nil => cases hlines
    | cons hreads' hrest' =>
      obtain ⟨hline, hrest⟩ := List.cons.inj hlines
      dsimp only at hline
      subst hline
      obtain ⟨rfl, rfl⟩ := readsAll_unique hreads hreads'
      rw [ih hrest' hrest]

/-- A reader reads texts in one way. -/
theorem ReadsTexts.unique {reader : InputFormat σ} {s t t' : σ} {texts : List Bytes}
    {sentences sentences' : List Sentence} (h : ReadsTexts reader s texts sentences t)
    (h' : ReadsTexts reader s texts sentences' t') : sentences = sentences' := by
  induction h generalizing sentences' with
  | nil s =>
    cases h'
    rfl
  | cons hreads _ ih =>
    cases h' with
    | cons hreads' hrest' =>
      obtain ⟨rfl, rfl⟩ := readsAll_unique hreads hreads'
      rw [ih hrest']

/-! ### Exactly one sentence for every line with tokens -/

/-- A paragraph begins behind two newlines. -/
theorem Gap.beginsParagraph_iff (gap : Gap) : gap.BeginsParagraph ↔ 2 ≤ gap.newlines := by
  rw [BeginsParagraph, newlines]
  cases gap.first <;> simp

/-- The marks of a sentence are those of its line if the newlines before it are counted. -/
theorem Marked.lineSentence_iff {entry : Found × Gap} {s : Sentence} (h : Marked entry s) :
    LineSentence entry s ↔ entry.2.Counted := by
  have hle := Nat.mod_le entry.2.newlines unsignedValues
  have hpar : (s.getNewPar = true ↔ entry.2.BeginsParagraph) ↔ entry.2.Counted := by
    rw [h.2, decide_eq_true_iff, Gap.beginsParagraph_iff, Gap.Counted]
    exact ⟨fun hiff => hiff.mpr, fun himp => ⟨fun hmod => hmod.trans hle, himp⟩⟩
  exact ⟨fun hline => hpar.mp hline.newPar, fun hcounted => ⟨h.1, hpar.mpr hcounted⟩⟩

/-- The marks of the sentences are those of their lines if all newlines are counted. -/
theorem forall₂_lineSentence_iff {entries : List (Found × Gap)} {sentences : List Sentence}
    (h : List.Forall₂ Marked entries sentences) :
    List.Forall₂ LineSentence entries sentences ↔ ∀ entry ∈ entries, entry.2.Counted := by
  induction h with
  | nil => simp
  | cons hmarked _ ih =>
    rw [List.forall₂_cons, List.forall_mem_cons, hmarked.lineSentence_iff, ih]

/-- The lines are kept exactly if all newlines are counted. -/
theorem keepsLines_iff_counted {texts : List Bytes} {founds : List Found} {state : State σ} {t : σ}
    (h : Tokenizes inner state.tokenizer founds t)
    (hlines : founds.map Found.line = texts.flatMap lines)
    (hparts : ∀ found ∈ founds, ∀ part ∈ found.parts, HeadlessPart part)
    (htracks : state.Tracks ⟨true, []⟩) :
    KeepsLines inner state texts ↔ ∀ entry ∈ withGaps ⟨true, []⟩ founds, entry.2.Counted := by
  obtain ⟨sentences, state', hreads, hmarked⟩ := exists_readsTexts h hlines hparts htracks
  rw [← forall₂_lineSentence_iff hmarked]
  constructor
  · rintro ⟨founds', t', sentences', _, h', hlines', hreads', hall⟩
    obtain rfl := h.unique h' (hlines.trans hlines'.symm)
    obtain rfl := hreads.unique hreads'
    exact hall
  · intro hall
    exact ⟨founds, t, sentences, state', h, hlines, hreads, hall⟩

/-- After a reset, the texts give exactly one sentence for every line with tokens, and
paragraphs begin where two line ends are, if and only if no gap between two lines with
tokens has so many line ends that the counter returns to zero or one. -/
theorem keepsLines_iff {Inv : σ → Prop} (h : TokenizesLines inner Inv) {state : State σ}
    (hstate : Inv state.tokenizer) (id : Bytes) (texts : List Bytes) :
    KeepsLines inner ((reader inner).resetDocument id state) texts ↔
      ∀ founds t, Tokenizes inner (inner.resetDocument [] state.tokenizer) founds t →
        founds.map Found.line = texts.flatMap lines →
        ∀ entry ∈ withGaps ⟨true, []⟩ founds, entry.2.Counted := by
  obtain ⟨founds, t, htokenizes, hlines, hparts⟩ :=
    h.exists_tokenizes (h.reset _ hstate) (texts.flatMap lines)
  have htracks : ((reader inner).resetDocument id state).Tracks ⟨true, []⟩ := rfl
  rw [keepsLines_iff_counted htokenizes hlines hparts htracks]
  constructor
  · intro hcounted founds' t' htokenizes' hlines'
    obtain rfl := htokenizes.unique htokenizes' (hlines.trans hlines'.symm)
    exact hcounted
  · intro hcounted
    exact hcounted founds t htokenizes hlines

end Runs

/-! ### Short texts -/

/-- The line ends of a gap are bytes of the text so far. -/
theorem newlines_le_of_mem_withGaps {gap : Gap} {founds : List Found} :
    ∀ entry ∈ withGaps gap founds, entry.2.newlines ≤
      2 + gap.text.length + (founds.flatMap fun found => found.line.bytes).length := by
  induction founds generalizing gap with
  | nil => simp [withGaps]
  | cons found founds ih =>
    have hbytes : found.line.bytes.length =
        found.line.before.length + found.line.body.length + found.line.after.length := by
      simp only [Line.bytes, List.length_append]
    rw [withGaps, List.flatMap_cons, List.length_append]
    split
    · next htoken =>
      rw [List.forall_mem_cons]
      constructor
      · have hcount := @List.count_le_length _ _ lf (gap.text ++ found.line.before)
        rw [List.length_append] at hcount
        simp only [Gap.newlines]
        split <;> omega
      · intro entry hentry
        have hle := ih entry hentry
        rw [Gap.add, if_pos htoken] at hle
        dsimp only at hle
        omega
    · next hnone =>
      intro entry hentry
      have hle := ih entry hentry
      rw [Gap.add, if_neg hnone, List.length_append] at hle
      omega

/-- In texts that are not too long all line ends are counted. -/
theorem counted_of_length_lt {texts : List Bytes} {founds : List Found}
    (hlines : founds.map Found.line = texts.flatMap lines)
    (hlength : texts.flatten.length + 2 < unsignedValues) :
    ∀ entry ∈ withGaps ⟨true, []⟩ founds, entry.2.Counted := by
  have htexts : (founds.flatMap fun found => found.line.bytes) = texts.flatten := by
    have hflat := congrArg (List.flatMap Line.bytes) hlines
    rw [List.flatMap_map, List.flatMap_assoc] at hflat
    rw [hflat, List.flatMap_def]
    simp only [flatMap_lines, List.map_id']
  intro entry hentry hmany
  have hle := newlines_le_of_mem_withGaps entry hentry
  rw [htexts, List.length_nil] at hle
  rwa [Nat.mod_eq_of_lt (by omega)]

/-! ### A tokenizer for whole texts -/

/-- A tokenizer that takes a text for a word. -/
def wordReader : InputFormat Bytes where
  readBlock := LineFormats.Horizontal.readBlock
  resetDocument _ _ := []
  setText text _ := text
  nextSentence text :=
    pure (if text = [] then ⟨false, .clear, [], []⟩
      else ⟨true, Sentence.clear.addWord text, [], []⟩)

/-- A word is a part without heads. -/
theorem headlessPart_addWord (text : Bytes) : HeadlessPart (Sentence.clear.addWord text) where
  nonempty := List.cons_ne_nil _ _
  ids i word h := by
    rcases i with - | - | i
    · obtain rfl := Option.some.inj h
      rfl
    · obtain rfl := Option.some.inj h
      rfl
    · simp at h
  heads := List.forall_mem_cons.mpr ⟨by decide,
    List.forall_mem_singleton.mpr (show (-1 : ℤ) ≤ 0 by decide)⟩
  nodes h := by cases h

/-- The reader reads a line as a word. -/
theorem readsAll_wordReader {text : Bytes} (h : text ≠ []) :
    wordReader.ReadsAll text [Sentence.clear.addWord text] [] [] := by
  have hword : (wordReader.nextSentence text).Returns
      ⟨true, Sentence.clear.addWord text, [], []⟩ := returns_pure.mpr (if_neg h)
  have hend : (wordReader.nextSentence []).Returns ⟨false, .clear, [], []⟩ := returns_pure.mpr rfl
  exact .next hword (.stop hend)

/-- The reader tokenizes all lines. -/
theorem tokenizesLines_wordReader : TokenizesLines wordReader fun _ => True where
  reset _ _ := trivial
  reads s _ text := by
    by_cases htext : text = []
    · subst htext
      exact ⟨[], [], .stop (returns_pure.mpr rfl), trivial, List.forall_mem_nil _⟩
    · exact ⟨[Sentence.clear.addWord text], [], readsAll_wordReader htext, trivial,
        List.forall_mem_singleton.mpr (headlessPart_addWord text)⟩

/-- Three lines, with a blank one between the first two, and a line of another text. -/
theorem keepsLines_iff_wordReader :
    KeepsLines wordReader ((reader wordReader).resetDocument [] { tokenizer := [] })
      [bytes "a\n\nb\nc", bytes "d\n"] :=
  (keepsLines_iff tokenizesLines_wordReader trivial [] _).mpr fun _ _ _ hlines =>
    counted_of_length_lt hlines (by decide)

/-- Two words with line ends between them. -/
def farApart (count : ℕ) : Bytes := bytes "a" ++ List.replicate (count + 1) lf ++ bytes "b"

/-- The lines of two letters that are far apart. -/
theorem lines_farApart (count : ℕ) : lines (farApart count) =
    [⟨[], bytes "a", List.replicate (count + 1) lf⟩, ⟨[], bytes "b", []⟩] := by
  have hends : ∀ c ∈ List.replicate (count + 1) lf, isLineEnd c = true := by
    intro c hc
    rw [List.eq_of_mem_replicate hc]
    rfl
  have hfirst : nextLine (farApart count) =
      (⟨[], bytes "a", List.replicate (count + 1) lf⟩, bytes "b") := by
    have hbefore : (farApart count).dropWhile isLineEnd = farApart count := rfl
    have hbody : (farApart count).dropWhile (fun c => !isLineEnd c) =
        List.replicate (count + 1) lf ++ bytes "b" := rfl
    have hbody' : (farApart count).takeWhile (fun c => !isLineEnd c) = bytes "a" := rfl
    have hnone : (farApart count).takeWhile isLineEnd = [] := rfl
    rw [nextLine, hbefore, hbody, hbody', hnone, List.takeWhile_append_of_pos hends,
      List.dropWhile_append_of_pos hends]
    have hlast : (bytes "b").takeWhile isLineEnd = [] := rfl
    have hlast' : (bytes "b").dropWhile isLineEnd = bytes "b" := rfl
    rw [hlast, hlast', List.append_nil]
  have hnext : nextLine (bytes "b") = (⟨[], bytes "b", []⟩, []) := rfl
  have hne : farApart count ≠ [] := List.cons_ne_nil _ _
  have hne' : bytes "b" ≠ [] := List.cons_ne_nil _ _
  rw [lines_of_ne_nil hne, hfirst, lines_of_ne_nil hne', hnext, lines_nil]

/-- So many newlines that few of them are counted lose a paragraph. -/
theorem not_keepsLines_of_mod {count : ℕ} (hpos : 0 < count) (hmod : (count + 1) % unsignedValues < 2)
    (state : State Bytes) :
    ¬ KeepsLines wordReader ((reader wordReader).resetDocument [] state) [farApart count] := by
  let part (line : Line) : Sentence := Sentence.clear.addWord line.bytes
  let first : Line := ⟨[], bytes "a", List.replicate (count + 1) lf⟩
  let second : Line := ⟨[], bytes "b", []⟩
  have htokenizes : Tokenizes wordReader [] [⟨first, [part first]⟩, ⟨second, [part second]⟩] [] :=
    .cons (readsAll_wordReader (List.cons_ne_nil _ _))
      (.cons (readsAll_wordReader (List.cons_ne_nil _ _)) (.nil []))
  have hparts : ∀ found ∈ [Found.mk first [part first], ⟨second, [part second]⟩],
      ∀ part ∈ found.parts, HeadlessPart part :=
    List.forall_mem_cons.mpr ⟨List.forall_mem_singleton.mpr (headlessPart_addWord _),
      List.forall_mem_singleton.mpr (List.forall_mem_singleton.mpr (headlessPart_addWord _))⟩
  rw [@keepsLines_iff_counted _ _ _ _ ((reader wordReader).resetDocument [] state) [] htokenizes
    (by simp [lines_farApart, first, second]) hparts rfl]
  intro hcounted
  have hentry := hcounted (⟨second, [part second]⟩, ⟨false, List.replicate (count + 1) lf ++ []⟩)
    (List.mem_cons_of_mem _ List.mem_cons_self)
  have hnewlines : Gap.newlines ⟨false, List.replicate (count + 1) lf ++ []⟩ = count + 1 := by
    rw [Gap.newlines, List.append_nil, List.count_replicate_self]
    exact Nat.zero_add _
  rw [Gap.Counted, hnewlines] at hentry
  exact absurd (hentry (by omega)) (by omega)

/-- 2^32 newlines between two letters. -/
theorem not_keepsLines_wordReader :
    TokenizesLines wordReader (fun _ => True) ∧
      ¬ KeepsLines wordReader ((reader wordReader).resetDocument [] { tokenizer := [] })
        [farApart (unsignedValues - 1)] :=
  ⟨tokenizesLines_wordReader, not_keepsLines_of_mod (by decide) (by decide) _⟩

end UDPipe.Presegmented
