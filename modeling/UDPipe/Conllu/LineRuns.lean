import UDPipe.Conllu.Writer

/-!
# Runs over lines

The line loop on a text that begins with terminated lines is a run over these
lines, followed by the loop on the rest of the text.
-/

namespace UDPipe.Conllu

/-- A line that does not end a sentence. -/
def IsLine (line : Bytes) : Prop := line ≠ [] ∧ ∀ c ∈ line, isLineEnd c = false

/-- Handle lines one after the other, up to the first error. -/
def readLines (version : ℕ) : List Bytes → LineState → Except Bytes LineState
  | [], st => .ok st
  | line :: lines, st =>
    match handleLine version line st with
    | .error error => .error error
    | .ok st => readLines version lines st

/-- The lines behind an accepted one are read in the state after it. -/
theorem readLines_cons_ok {version : ℕ} {line : Bytes} {lines : List Bytes} {st st' : LineState}
    (h : handleLine version line st = .ok st') :
    readLines version (line :: lines) st = readLines version lines st' := by
  simp [readLines, h]

/-- A run over lines that are all accepted goes on with the lines after them. -/
theorem readLines_append {version : ℕ} {lines lines' : List Bytes} {st st' : LineState}
    (h : readLines version lines st = .ok st') :
    readLines version (lines ++ lines') st = readLines version lines' st' := by
  induction lines generalizing st with
  | nil =>
    obtain rfl := Except.ok.inj h
    rfl
  | cons line lines ih =>
    cases hline : handleLine version line st with
    | error error => simp [readLines, hline] at h
    | ok st₁ =>
      rw [readLines_cons_ok hline] at h
      rw [List.cons_append, readLines_cons_ok hline]
      exact ih h

/-- The lines are lines of a sentence, and all of them are accepted. -/
structure ReadsLines (version : ℕ) (lines : List Bytes) (st st' : LineState) : Prop where
  isLine : ∀ line ∈ lines, IsLine line
  run : readLines version lines st = .ok st'

/-- No lines keep the state. -/
theorem ReadsLines.nil (version : ℕ) (st : LineState) : ReadsLines version [] st st :=
  ⟨by simp, rfl⟩

/-- An accepted line leads to its state. -/
theorem ReadsLines.single {version : ℕ} {line : Bytes} {st st' : LineState} (hline : IsLine line)
    (h : handleLine version line st = .ok st') : ReadsLines version [line] st st' :=
  ⟨by simpa using hline, by simp [readLines, h]⟩

/-- Lines that are read one after the other. -/
theorem ReadsLines.append {version : ℕ} {lines lines' : List Bytes} {st st' st'' : LineState}
    (h : ReadsLines version lines st st') (h' : ReadsLines version lines' st' st'') :
    ReadsLines version (lines ++ lines') st st'' where
  isLine := List.forall_mem_append.mpr ⟨h.isLine, h'.isLine⟩
  run := (readLines_append h.run).trans h'.run

/-- A pass on a terminated line handles it. -/
theorem lineStep_line {version : ℕ} {line rest : Bytes} {st : LineState} (hline : IsLine line) :
    lineStep version (line ++ lf :: rest, st) =
      match handleLine version line st with
      | .error error => .done ⟨false, st.sentence, error, rest⟩
      | .ok st' => .next (rest, st') := by
  have hne : line ++ lf :: rest ≠ [] := by simp
  rw [lineStep, if_neg hne, readLine_append hline.2 rest]
  exact if_neg hline.1

/-- A pass on an empty line ends a sentence that has a word. -/
theorem lineStep_lf {version : ℕ} {rest : Bytes} {st : LineState} :
    lineStep version (lf :: rest, st) =
      if st.sentence.isEmpty then .next (rest, st) else .done (finish rest st) := by
  have hread : readLine (lf :: rest) = ([], rest) :=
    readLine_append (List.forall_mem_nil _) rest
  simp [lineStep, hread]

/-- The loop on a text that begins with accepted lines goes on after them. -/
theorem returns_joinLines {version : ℕ} {lines : List Bytes} {rest : Bytes} {st st' : LineState}
    {r : NextSentence Bytes} (hreads : ReadsLines version lines st st') :
    (Comp.loopOf (lineStep version) (joinLines lines ++ rest, st)).Returns r ↔
      (Comp.loopOf (lineStep version) (rest, st')).Returns r := by
  obtain ⟨hlines, h⟩ := hreads
  induction lines generalizing st with
  | nil =>
    obtain rfl := Except.ok.inj h
    rfl
  | cons line lines ih =>
    simp only [List.forall_mem_cons] at hlines
    cases hline : handleLine version line st with
    | error error => simp [readLines, hline] at h
    | ok st₁ =>
      rw [readLines_cons_ok hline] at h
      rw [Comp.returns_loopOf, joinLines_cons, List.append_assoc, List.cons_append,
        lineStep_line hlines.1, hline]
      exact ih hlines.2 h

/-- The loop on a text that begins with lines one of which is not accepted. -/
theorem returns_joinLines_error {version : ℕ} {lines : List Bytes} {error : Bytes}
    {st : LineState} (rest : Bytes) (hlines : ∀ line ∈ lines, IsLine line)
    (h : readLines version lines st = .error error) :
    ∃ s text, (Comp.loopOf (lineStep version) (joinLines lines ++ rest, st)).Returns
      ⟨false, s, error, text⟩ := by
  induction lines generalizing st with
  | nil => cases h
  | cons line lines ih =>
    simp only [List.forall_mem_cons] at hlines
    cases hline : handleLine version line st with
    | error error' =>
      obtain rfl : error' = error := by simpa [readLines, hline] using h
      refine ⟨st.sentence, joinLines lines ++ rest, ?_⟩
      rw [Comp.returns_loopOf, joinLines_cons, List.append_assoc, List.cons_append,
        lineStep_line hlines.1, hline]
    | ok st₁ =>
      rw [readLines_cons_ok hline] at h
      obtain ⟨s, text, hreturns⟩ := ih hlines.2 h
      refine ⟨s, text, ?_⟩
      rw [Comp.returns_loopOf, joinLines_cons, List.append_assoc, List.cons_append,
        lineStep_line hlines.1, hline]
      exact hreturns

/-- Comments before the first word are collected. -/
theorem readsLines_comments (version : ℕ) {comments : List Bytes} {st : LineState}
    (hcomments : ∀ comment ∈ comments, IsComment comment) (hempty : st.sentence.isEmpty = true) :
    ReadsLines version comments st
      { st with sentence :=
        { st.sentence with comments := st.sentence.comments ++ comments } } := by
  induction comments generalizing st with
  | nil => simpa using ReadsLines.nil version st
  | cons comment comments ih =>
    simp only [List.forall_mem_cons] at hcomments
    have hne : comment ≠ [] := by
      rintro rfl
      cases hcomments.1.1
    have hfirst : handleLine version comment st = .ok
        { st with sentence :=
          { st.sentence with comments := st.sentence.comments ++ [comment] } } := by
      rw [handleLine, if_pos hcomments.1.1, if_pos hempty]
    have hrest := (ReadsLines.single ⟨hne, hcomments.1.2⟩ hfirst).append (ih hcomments.2 hempty)
    simpa using hrest

end UDPipe.Conllu
