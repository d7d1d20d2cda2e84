import UDPipe.LineFormats.Readers
import UDPipe.Pipeline

/-!
# Reading lines in blocks

The horizontal reader meets one sentence in each line that is not blank, and the
vertical one a sentence in each run of lines that have a word in their first column. The
blocks end where no sentence is open, so the events of a text are those of its blocks,
and the marks carry over.
-/

namespace UDPipe.LineFormats

open Sentence (isBlank)

/-- A line without bytes that end lines. -/
def Clean (line : Bytes) : Prop := ∀ c ∈ line, isLineEnd c = false

/-- The event of a sentence, if it has words. -/
def sentenceOf (forms : List Bytes) : List Event := if forms = [] then [] else [.sentence forms]

/-- The text ends here or goes on with a new line. -/
def AtLineEnd (text : Bytes) : Prop := text = [] ∨ ∃ rest, text = lf :: rest

/-- A text is some lines and a rest without a terminator. -/
theorem exists_lines (text : Bytes) : ∃ lines rest, text = joinLines lines ++ rest ∧ lf ∉ rest ∧
    textLines text = lines ++ if rest = [] then [] else [rest] := by
  induction hn : text.length using Nat.strongRecOn generalizing text with
  | ind n ih =>
    by_cases hlf : lf ∈ text
    · obtain ⟨line, rest, rfl, hline⟩ := List.eq_append_cons_of_mem hlf
      obtain ⟨lines, last, rfl, hlast, hlines⟩ := ih rest.length (by simp at hn; omega) rest rfl
      refine ⟨line :: lines, last, by simp, hlast, ?_⟩
      rw [textLines_append_lf hline, hlines, List.cons_append]
    · refine ⟨[], text, rfl, hlf, ?_⟩
      by_cases hnil : text = []
      · subst hnil
        rfl
      · rw [textLines_of_not_mem hlf hnil, if_neg hnil, List.nil_append]

/-- Lines of a text without carriage returns are clean. -/
theorem clean_of_mem_textLines {text line : Bytes} (hcr : cr ∉ text) (h : line ∈ textLines text) :
    Clean line := by
  intro c hc
  obtain ⟨hmem, hlf⟩ := mem_of_mem_textLines h hc
  rw [Bool.eq_false_iff, ne_eq, isLineEnd_iff]
  rintro (rfl | rfl)
  · exact hcr hmem
  · exact hlf rfl

/-- A clean line is split where a condition on its bytes first fails, whatever follows it. -/
private theorem takeWhile_line (p : Byte → Bool) (line : Bytes) {tail : Bytes}
    (htail : AtLineEnd tail)
    (hp : p lf = false) :
    (line ++ tail).takeWhile p = line.takeWhile p ∧
      (line ++ tail).dropWhile p = line.dropWhile p ++ tail := by
  induction line with
  | nil =>
    rcases htail with rfl | ⟨rest, rfl⟩
    · exact ⟨rfl, rfl⟩
    · simp [hp]
  | cons c line ih =>
    by_cases hc : p c = true
    · simp [hc, ih]
    · simp [hc]

/-! ### Horizontal lines -/

namespace Horizontal

/-- The words of a line. -/
def lineForms (line : Bytes) : List Bytes :=
  ((line.splitOnP isBlank).filter (· ≠ [])).map replaceNbsp

/-- The events of a text. -/
def events (lines : List Bytes) (rest : Bytes) : List Event :=
  lines.flatMap (fun line => sentenceOf (lineForms line) ++ [.newline]) ++
    sentenceOf (lineForms rest)

/-- An empty line has no forms. -/
@[simp] theorem lineForms_nil : lineForms [] = [] := by
  simp [lineForms]

/-- Blanks at the beginning of a line are skipped. -/
theorem lineForms_blank {c : Byte} (hc : isBlank c = true) (line : Bytes) :
    lineForms (c :: line) = lineForms line := by
  simp [lineForms, List.splitOnP_cons_eq_if_modifyHead, hc]

/-- The blanks at the beginning of a line do not matter. -/
theorem lineForms_dropWhile (line : Bytes) :
    lineForms (line.dropWhile isBlank) = lineForms line := by
  induction line with
  | nil => rfl
  | cons c line ih =>
    by_cases hc : isBlank c = true
    · rw [List.dropWhile_cons_of_pos hc, ih, lineForms_blank hc]
    · rw [List.dropWhile_cons_of_neg hc]

/-- A word is the beginning of the first form. -/
private theorem splitOnP_word {word : Bytes} (hword : ∀ c ∈ word, isBlank c = false)
    (rest : Bytes) :
    (word ++ rest).splitOnP isBlank = (rest.splitOnP isBlank).modifyHead (word ++ ·) := by
  induction word with
  | nil =>
    rw [List.nil_append]
    cases rest.splitOnP isBlank <;> rfl
  | cons c word ih =>
    obtain ⟨hc, hword⟩ := List.forall_mem_cons.mp hword
    rw [List.cons_append, List.splitOnP_cons_eq_if_modifyHead, if_neg (by simp [hc]), ih hword,
      List.modifyHead_modifyHead]
    rfl

/-- The first word of a line and the rest. -/
theorem lineForms_append {word rest : Bytes} (hword : ∀ c ∈ word, isBlank c = false)
    (hne : word ≠ []) (hrest : ∀ c ∈ rest.head?, isBlank c = true) :
    lineForms (word ++ rest) = replaceNbsp word :: lineForms rest := by
  rw [lineForms, splitOnP_word hword]
  cases rest with
  | nil => simp [hne]
  | cons c rest =>
    have hc : isBlank c = true := hrest c rfl
    rw [lineForms_blank hc, List.splitOnP_cons_eq_if_modifyHead, if_pos hc, lineForms]
    simp [hne]

/-- The loop over words reads a line up to its end. -/
theorem returns_wordStep {line tail : Bytes} (hclean : Clean line) (htail : AtLineEnd tail)
    (hstart : ∀ c ∈ line.head?, isBlank c = false) (s : Sentence) :
    (Comp.loopOf wordStep (line ++ tail, s)).Returns (tail, addForms s (lineForms line)) := by
  induction hn : line.length using Nat.strongRecOn generalizing line s with
  | ind n ih =>
    cases line with
    | nil =>
      rw [Comp.returns_loopOf]
      rcases htail with rfl | ⟨rest, rfl⟩
      · simp [wordStep]
      · simp [wordStep]
    | cons c line =>
      have hc : isBlank c = false := hstart c rfl
      have hend : isLineEnd c = false := hclean c (List.mem_cons_self ..)
      have hwordEnd : ∀ d ∈ c :: line, (!isWordEnd d) = !isBlank d := by
        intro d hd
        rw [isWordEnd, hclean d hd, Bool.or_false]
      obtain ⟨word, hword⟩ : ∃ word, word = (c :: line).takeWhile fun d => !isWordEnd d :=
        ⟨_, rfl⟩
      obtain ⟨rest, hrest⟩ : ∃ rest, rest = (c :: line).dropWhile fun d => !isWordEnd d :=
        ⟨_, rfl⟩
      have hsplit : c :: line = word ++ rest := by
        rw [hword, hrest, List.takeWhile_append_dropWhile]
      have hblank : ∀ d ∈ word, isBlank d = false := by
        intro d hd
        have hmem : d ∈ c :: line := hsplit ▸ List.mem_append_left _ hd
        rw [hword] at hd
        have hnot := List.mem_takeWhile_imp hd
        rw [hwordEnd d hmem] at hnot
        simpa using hnot
      have hne : word ≠ [] := by
        rw [hword, List.takeWhile_cons_of_pos]
        · exact List.cons_ne_nil _ _
        · simp [isWordEnd, hc, hend]
      have hrestBlank : ∀ d ∈ rest.head?, isBlank d = true := by
        intro d hd
        have hmem : d ∈ c :: line := hsplit ▸ List.mem_append_right _ (List.mem_of_head? hd)
        rw [hrest] at hd
        have hnot := List.head?_dropWhile_not (fun d => !isWordEnd d) (c :: line)
        rw [Option.mem_def.mp hd] at hnot
        simpa [isWordEnd, hclean d hmem] using hnot
      have hcleanRest : Clean (rest.dropWhile isBlank) := by
        intro d hd
        exact hclean d
          (hsplit ▸ List.mem_append_right _ ((List.dropWhile_sublist isBlank).subset hd))
      have hstartRest : ∀ d ∈ (rest.dropWhile isBlank).head?, isBlank d = false := by
        intro d hd
        have hnot := List.head?_dropWhile_not isBlank rest
        rw [Option.mem_def.mp hd] at hnot
        simpa using hnot
      have hshort : (rest.dropWhile isBlank).length < n := by
        have hle : (rest.dropWhile isBlank).length ≤ rest.length :=
          (List.dropWhile_sublist isBlank).length_le
        have hpos := List.length_pos_of_ne_nil hne
        have hlength := congrArg List.length hsplit
        rw [List.length_append] at hlength
        omega
      have hlf : (!isWordEnd lf) = false := by decide
      obtain ⟨htake, hdrop⟩ := takeWhile_line (fun d => !isWordEnd d) (c :: line) htail hlf
      rw [← hword, List.cons_append] at htake
      rw [← hrest, List.cons_append] at hdrop
      have hstep : wordStep (c :: (line ++ tail), s) =
          .next (rest.dropWhile isBlank ++ tail, s.addWord (replaceNbsp word)) := by
        have hblankDrop := (takeWhile_line isBlank rest htail (by decide)).2
        simp only [wordStep, hend, Bool.false_eq_true, if_false, htake, hdrop, hblankDrop]
      rw [List.cons_append, Comp.returns_loopOf, hstep]
      rw [hsplit, lineForms_append hblank hne hrestBlank, ← lineForms_dropWhile rest, addForms_cons]
      exact ih _ hshort hcleanRest hstartRest _ rfl

/-- A line is skipped or gives a sentence. -/
theorem gives_line {line tail : Bytes} {tailEvents : List Event} (hclean : Clean line)
    (htail : AtLineEnd tail) (h : Gives isSkipped wordStep tail tailEvents) :
    Gives isSkipped wordStep (line ++ tail) (sentenceOf (lineForms line) ++ tailEvents) := by
  induction line with
  | nil => exact h
  | cons c line ih =>
    obtain ⟨hc, hcleanLine⟩ := List.forall_mem_cons.mp hclean
    by_cases hblank : isBlank c = true
    · have hne : c ≠ lf := by
        rintro rfl
        cases hc
      rw [lineForms_blank hblank]
      exact .skip (by simp [isSkipped, hblank]) hne (ih hcleanLine)
    · have hstart : ∀ d ∈ (c :: line).head?, isBlank d = false := by
        rintro d ⟨⟩
        simpa using hblank
      have hforms : lineForms (c :: line) ≠ [] := by
        intro hnone
        have hall := List.filter_eq_nil_iff.mp (List.map_eq_nil_iff.mp hnone)
        rw [List.splitOnP_cons_eq_if_modifyHead, if_neg hblank] at hall
        cases hpieces : line.splitOnP isBlank with
        | nil => exact List.splitOnP_ne_nil _ _ hpieces
        | cons piece pieces =>
          rw [hpieces] at hall
          exact absurd (hall (c :: piece) (List.mem_cons_self ..)) (by simp)
      rw [sentenceOf, if_neg hforms]
      refine .sentence ?_ hforms (returns_wordStep hclean htail hstart .clear) h
      simp [isSkipped, hblank, hc]

/-- The events of a text. -/
theorem gives_events {lines : List Bytes} {rest : Bytes} (hlines : ∀ line ∈ lines, Clean line)
    (hrest : Clean rest) :
    Gives isSkipped wordStep (joinLines lines ++ rest) (events lines rest) := by
  induction lines with
  | nil =>
    have hgives := gives_line hrest (.inl rfl) .nil
    rw [List.append_nil] at hgives
    simpa [events] using hgives
  | cons line lines ih =>
    obtain ⟨hline, hlines⟩ := List.forall_mem_cons.mp hlines
    have hgives := gives_line hline (.inr ⟨_, rfl⟩) (.newline (by decide) (ih hlines))
    simpa [events] using hgives

/-- Reading to the end emits the events of the lines. -/
theorem readsAll_events {lines : List Bytes} {rest : Bytes} (hlines : ∀ line ∈ lines, Clean line)
    (hrest : Clean rest) (state : State) :
    reader.ReadsAll (reader.setText (joinLines lines ++ rest) state)
      (state.emit (events lines rest)).1 []
      { (state.emit (events lines rest)).2 with text := [] } := by
  have hstop : ∀ s, wordStep ([], s) = .done ([], s) := fun _ => rfl
  exact readsAll_of_gives rfl hstop (gives_events hlines hrest) state.toMarks

/-- Reading a stream line by line gives the events of its lines. -/
theorem readsBlocks_events {is : IStream} {lines : List Bytes} (h : HasLines is lines)
    (hlines : ∀ line ∈ lines, Clean line) (state : State) :
    ReadsBlocks reader reader.readBlock is state (state.emit (events lines [])).1 [] := by
  induction h generalizing state with
  | @ended is hend =>
    obtain ⟨hfail, _⟩ := hend []
    have hblock : (readBlock is).Returns (getline is []) := by
      simp [readBlock, hfail]
    exact .stop hblock hfail
  | @line is is' line lines hget hgood _ ih =>
    obtain ⟨hline, hlines⟩ := List.forall_mem_cons.mp hlines
    have hblock : (readBlock is).Returns (line ++ [lf], is') := by
      simp [readBlock, hget, hgood]
    have hreads := @readsAll_events [line] [] (List.forall_mem_singleton.mpr hline)
      (fun _ h => by cases h) state
    have hevents : events (line :: lines) [] = events [line] [] ++ events lines [] := by
      simp [events, sentenceOf]
    rw [hevents, Marks.emit_append]
    refine .next hblock hgood ?_
      (ih hlines { (state.emit (events [line] [])).2 with text := [] })
    simpa using hreads

end Horizontal

/-! ### Vertical lines -/

namespace Vertical

/-- The word in the first column of a line, if there is one. -/
def lineForms (line : Bytes) : List Bytes :=
  let word := (line.dropWhile (· == tab)).takeWhile (· != tab)
  if word = [] then [] else [word]

/-- The events of the lines that follow some words, and of a rest. -/
def events (rest : Bytes) : List Bytes → List Bytes → List Event
  | forms, [] => sentenceOf (forms ++ lineForms rest)
  | forms, line :: lines =>
    if lineForms line = [] then sentenceOf forms ++ .newline :: events rest [] lines
    else events rest (forms ++ lineForms line) lines

/-- The text after the tabs at its start. -/
def dropTabs (text : Bytes) : Bytes := text.dropWhile (· == tab)

/-- The tabs are looked for up to the end of the line. -/
theorem dropTabs_line (line : Bytes) {tail : Bytes} (htail : AtLineEnd tail) :
    dropTabs (line ++ tail) = dropTabs line ++ tail :=
  (takeWhile_line (· == tab) line htail (by decide)).2

/-- A line with a word: the word, and what is skipped after it. -/
theorem lineForms_of_ne_nil {line : Bytes} (h : dropTabs line ≠ []) :
    ∃ word rest, dropTabs line = word ++ rest ∧ word ≠ [] ∧ tab ∉ word ∧
      (∀ c ∈ rest.head?, c = tab) ∧ lineForms line = [word] := by
  obtain ⟨c, rest, hline⟩ := List.exists_cons_of_ne_nil h
  have hc : (c == tab) = false := by
    have hnot := List.head?_dropWhile_not (· == tab) line
    rw [dropTabs] at hline
    rw [hline] at hnot
    simpa using hnot
  refine ⟨(dropTabs line).takeWhile (· != tab), (dropTabs line).dropWhile (· != tab),
    List.takeWhile_append_dropWhile.symm, ?_, ?_, ?_, ?_⟩
  · rw [hline, List.takeWhile_cons_of_pos (by simpa using hc)]
    exact List.cons_ne_nil _ _
  · intro hmem
    simpa using List.mem_takeWhile_imp hmem
  · intro d hd
    have hnot := List.head?_dropWhile_not (· != tab) (dropTabs line)
    rw [Option.mem_def.mp hd] at hnot
    simpa using hnot
  · rw [lineForms, if_neg]
    · rfl
    · change (dropTabs line).takeWhile (· != tab) ≠ []
      rw [hline, List.takeWhile_cons_of_pos (by simpa using hc)]
      exact List.cons_ne_nil _ _

/-- An empty line has no form. -/
theorem lineForms_nil : lineForms [] = [] := rfl

/-- A line has no form exactly if it has tabs only. -/
theorem lineForms_eq_nil {line : Bytes} : lineForms line = [] ↔ dropTabs line = [] := by
  constructor
  · intro h
    by_contra hne
    obtain ⟨word, _, _, _, _, _, hforms⟩ := lineForms_of_ne_nil hne
    rw [hforms] at h
    cases h
  · intro h
    rw [lineForms, ← dropTabs, h]
    rfl

/-- One pass of the loop reads the word of a line and goes to the next line. -/
theorem wordStep_line {word skipped tail : Bytes} (hword : word ≠ []) (htab : tab ∉ word)
    (hclean : Clean (word ++ skipped)) (hskipped : ∀ c ∈ skipped.head?, c = tab)
    (htail : AtLineEnd tail) (s : Sentence) :
    wordStep (word ++ (skipped ++ tail), s) = .next (dropTabs tail.tail, s.addWord word) := by
  have hinWord : ∀ c ∈ word, (!isWordEnd c) = true := by
    intro c hc
    have hne : c ≠ tab := ne_of_mem_of_not_mem hc htab
    simp [isWordEnd, hne, hclean c (List.mem_append_left _ hc)]
  have hinSkipped : ∀ c ∈ skipped, (!isLineEnd c) = true := by
    intro c hc
    simp [hclean c (List.mem_append_right _ hc)]
  have hafter : ∀ c ∈ (skipped ++ tail).head?, (!isWordEnd c) = false := by
    intro c hc
    cases skipped with
    | nil =>
      rcases htail with rfl | ⟨rest, rfl⟩
      · cases hc
      · obtain rfl := Option.some.inj hc
        decide
    | cons d skipped =>
      obtain rfl := Option.some.inj hc
      rw [hskipped d rfl]
      decide
  have hstop : ∀ (p : Byte → Bool) (l : Bytes), (∀ c ∈ l.head?, p c = false) →
      l.takeWhile p = [] ∧ l.dropWhile p = l := by
    intro p l hl
    cases l with
    | nil => exact ⟨rfl, rfl⟩
    | cons c l => simp [hl c rfl]
  have htake : (word ++ (skipped ++ tail)).takeWhile (fun c => !isWordEnd c) = word := by
    rw [List.takeWhile_append_of_pos hinWord, (hstop _ _ hafter).1, List.append_nil]
  have hdrop : (word ++ (skipped ++ tail)).dropWhile (fun c => !isWordEnd c) = skipped ++ tail := by
    rw [List.dropWhile_append_of_pos hinWord, (hstop _ _ hafter).2]
  have hline : skipLineEnd ((skipped ++ tail).dropWhile fun c => !isLineEnd c) = tail.tail := by
    rw [List.dropWhile_append_of_pos hinSkipped]
    rcases htail with rfl | ⟨rest, rfl⟩
    · rfl
    · rfl
  obtain ⟨c, word, rfl⟩ := List.exists_cons_of_ne_nil hword
  have hc : isLineEnd c = false := hclean c (by simp)
  rw [List.cons_append] at htake hdrop ⊢
  simp only [wordStep, hc, Bool.false_eq_true, if_false, htake, hdrop, hline]
  rfl

/-- Tabs before a sentence or a line end are skipped. -/
theorem gives_of_dropTabs {text : Bytes} {textEvents : List Event}
    (h : Gives isSkipped wordStep (dropTabs text) textEvents) :
    Gives isSkipped wordStep text textEvents := by
  induction text with
  | nil => exact h
  | cons c text ih =>
    by_cases hc : c = tab
    · subst hc
      exact .skip (by decide) (by decide) (ih h)
    · have hkeep : dropTabs (c :: text) = c :: text :=
        List.dropWhile_cons_of_neg (by simpa using hc)
      rwa [hkeep] at h

/-- The loop reads the word of a line and goes on with the next one. -/
theorem returns_line {line tail : Bytes} (hclean : Clean line) (htail : AtLineEnd tail)
    (hne : dropTabs line ≠ []) : ∃ word c text,
      lineForms line = [word] ∧ dropTabs (line ++ tail) = c :: text ∧ isSkipped c = false ∧
      ∀ s out, (Comp.loopOf wordStep (dropTabs tail.tail, s.addWord word)).Returns out →
        (Comp.loopOf wordStep (c :: text, s)).Returns out := by
  obtain ⟨word, skipped, hsplit, hword, htab, hskipped, hforms⟩ := lineForms_of_ne_nil hne
  obtain ⟨c, word', rfl⟩ := List.exists_cons_of_ne_nil hword
  have hcleanSplit : Clean (c :: word' ++ skipped) := by
    intro d hd
    rw [← hsplit] at hd
    exact hclean d ((List.dropWhile_sublist (· == tab)).subset hd)
  have hc : c ≠ tab := by
    rintro rfl
    exact htab (List.mem_cons_self ..)
  refine ⟨c :: word', c, word' ++ (skipped ++ tail), hforms, ?_, ?_, ?_⟩
  · rw [dropTabs_line line htail, hsplit]
    simp
  · simp [isSkipped, hc, hcleanSplit c (by simp)]
  · intro s out hloop
    rw [← List.cons_append, Comp.returns_loopOf,
      wordStep_line hword htab hcleanSplit hskipped htail]
    exact hloop

/-- What the reader does with the rest of a text, outside of a sentence and within one. -/
theorem gives_lines {lines : List Bytes} {rest : Bytes} (hlines : ∀ line ∈ lines, Clean line)
    (hrest : Clean rest) :
    Gives isSkipped wordStep (dropTabs (joinLines lines ++ rest)) (events rest [] lines) ∧
      ∀ forms : List Bytes, forms ≠ [] → ∃ more left leftEvents,
        (∀ s, (Comp.loopOf wordStep (dropTabs (joinLines lines ++ rest), s)).Returns
          (left, addForms s more)) ∧
        Gives isSkipped wordStep left leftEvents ∧
        events rest forms lines = .sentence (forms ++ more) :: leftEvents := by
  have hdone : ∀ s : Sentence, (Comp.loopOf wordStep ([], s)).Returns ([], s) := fun s =>
    Comp.returns_loopOf.mpr rfl
  have hdoneLf : ∀ (text : Bytes) (s : Sentence),
      (Comp.loopOf wordStep (lf :: text, s)).Returns (lf :: text, s) := fun text s =>
    Comp.returns_loopOf.mpr rfl
  induction lines with
  | nil =>
    rw [joinLines_nil, List.nil_append]
    by_cases hne : dropTabs rest = []
    · have hforms := lineForms_eq_nil.mpr hne
      rw [hne]
      refine ⟨?_, fun forms hforms' => ⟨[], [], [], hdone, .nil, ?_⟩⟩
      · rw [events, hforms]
        exact .nil
      · rw [events, hforms, List.append_nil, sentenceOf, if_neg hforms']
    · obtain ⟨word, c, text, hforms, htext, hc, hloop⟩ := returns_line hrest (.inl rfl) hne
      rw [List.append_nil] at htext
      rw [htext]
      have hreturns : ∀ s, (Comp.loopOf wordStep (c :: text, s)).Returns ([], addForms s [word]) :=
        fun s => hloop s _ (hdone _)
      refine ⟨?_, fun forms _ => ⟨[word], [], [], hreturns, .nil, ?_⟩⟩
      · rw [events, hforms]
        exact .sentence hc (List.cons_ne_nil _ _) (hreturns .clear) .nil
      · rw [events, hforms, sentenceOf, if_neg (by simp)]
  | cons line lines ih =>
    obtain ⟨hline, hlines⟩ := List.forall_mem_cons.mp hlines
    obtain ⟨hgives, hwithin⟩ := ih hlines
    obtain ⟨tail, htail⟩ : ∃ tail, tail = lf :: (joinLines lines ++ rest) := ⟨_, rfl⟩
    have htext : joinLines (line :: lines) ++ rest = line ++ tail := by
      rw [htail]
      simp
    have hend : AtLineEnd tail := .inr ⟨_, htail⟩
    rw [htext]
    by_cases hne : dropTabs line = []
    · have hforms := lineForms_eq_nil.mpr hne
      have hnewline : Gives isSkipped wordStep tail (.newline :: events rest [] lines) := by
        rw [htail]
        exact .newline (by decide) (gives_of_dropTabs hgives)
      rw [dropTabs_line line hend, hne, List.nil_append]
      refine ⟨?_, fun forms hforms' => ⟨[], tail, _, ?_, hnewline, ?_⟩⟩
      · rw [events, if_pos hforms]
        exact hnewline
      · rw [htail]
        exact hdoneLf _
      · rw [events, if_pos hforms, sentenceOf, if_neg hforms', List.append_nil]
        rfl
    · obtain ⟨word, c, text, hforms, htext, hc, hloop⟩ := returns_line hline hend hne
      rw [htail, List.tail_cons] at hloop
      have hsome : lineForms line ≠ [] := by
        rw [hforms]
        exact List.cons_ne_nil _ _
      rw [htext]
      refine ⟨?_, fun forms _ => ?_⟩
      · obtain ⟨more, left, leftEvents, hreturns, hleft, hevents⟩ :=
          hwithin [word] (List.cons_ne_nil _ _)
        rw [events, if_neg hsome, List.nil_append, hforms, hevents]
        exact .sentence hc (List.cons_ne_nil _ _) (hloop _ _ (hreturns _)) hleft
      · obtain ⟨more, left, leftEvents, hreturns, hleft, hevents⟩ :=
          hwithin (forms ++ [word]) (by simp)
        refine ⟨word :: more, left, leftEvents, fun s => hloop s _ (hreturns _), hleft, ?_⟩
        rw [events, if_neg hsome, hforms, hevents]
        simp

/-- The events of a text. -/
theorem gives_events {lines : List Bytes} {rest : Bytes} (hlines : ∀ line ∈ lines, Clean line)
    (hrest : Clean rest) :
    Gives isSkipped wordStep (joinLines lines ++ rest) (events rest [] lines) :=
  gives_of_dropTabs (gives_lines hlines hrest).1

/-- Reading to the end emits the events of the lines. -/
theorem readsAll_events {lines : List Bytes} {rest : Bytes} (hlines : ∀ line ∈ lines, Clean line)
    (hrest : Clean rest) (state : State) :
    reader.ReadsAll (reader.setText (joinLines lines ++ rest) state)
      (state.emit (events rest [] lines)).1 []
      { (state.emit (events rest [] lines)).2 with text := [] } := by
  have hstop : ∀ s, wordStep ([], s) = .done ([], s) := fun _ => rfl
  exact readsAll_of_gives rfl hstop (gives_events hlines hrest) state.toMarks

/-- An empty line ends a block and any sentence. -/
theorem events_append_blank (rest : Bytes) (forms para lines : List Bytes) :
    events rest forms (para ++ [] :: lines) =
      events [] forms (para ++ [[]]) ++ events rest [] lines := by
  induction para generalizing forms with
  | nil => simp [events, lineForms_nil, sentenceOf]
  | cons line para ih =>
    rw [List.cons_append, List.cons_append, events, events]
    split
    · rw [ih]
      simp
    · exact ih _

/-- A rest is a line, up to line ends after the last sentence. -/
theorem emit_events_rest (m : Marks) (rest : Bytes) (forms lines : List Bytes) :
    (m.emit (events [] forms (lines ++ [rest]))).1 = (m.emit (events rest forms lines)).1 := by
  induction lines generalizing m forms with
  | nil =>
    by_cases hforms : lineForms rest = []
    · have hevents : events [] forms [rest] = sentenceOf forms ++ [.newline] := by
        simp [events, hforms, lineForms_nil, sentenceOf]
      rw [List.nil_append, hevents, Marks.emit_append_newline, events, hforms, List.append_nil]
    · simp [events, hforms, lineForms_nil]
  | cons line lines ih =>
    rw [List.cons_append, events, events]
    split
    · rw [Marks.emit_append, Marks.emit_append]
      exact congrArg ((m.emit (sentenceOf forms)).1 ++ ·) (ih _ [])
    · exact ih m _

/-- Reading a stream paragraph by paragraph gives the events of its lines. -/
theorem readsBlocks_events {is : IStream} {lines : List Bytes} (h : HasLines is lines)
    (hlines : ∀ line ∈ lines, Clean line) (state : State) :
    ReadsBlocks reader reader.readBlock is state (state.emit (events [] [] lines)).1 [] := by
  induction hn : lines.length using Nat.strongRecOn generalizing is lines state with
  | ind n ih =>
    by_cases hblank : [] ∈ lines
    · obtain ⟨para, after, rfl, hpara⟩ := List.eq_append_cons_of_mem hblank
      obtain ⟨is', hblock, hgood, hafter⟩ := returns_getpara hpara h
      have hcleanPara : ∀ line ∈ para ++ [[]], Clean line := by
        intro line hline
        apply hlines
        simp only [List.mem_append, List.mem_cons] at hline ⊢
        tauto
      have hreads := @readsAll_events (para ++ [[]]) [] hcleanPara (fun _ h => by cases h) state
      rw [events_append_blank, Marks.emit_append]
      refine .next hblock hgood (by simpa using hreads) ?_
      exact ih after.length (by simp at hn; omega) hafter
        (fun line hline => hlines line (by simp [hline]))
        { (state.emit (events [] [] (para ++ [[]]))).2 with text := [] } rfl
    · by_cases hnil : lines = []
      · subst hnil
        obtain ⟨is', hblock, hfail⟩ := returns_getpara_nil h
        exact .stop hblock hfail
      · obtain ⟨is', hblock, hgood, hafter⟩ := returns_getpara_last hblank hnil h
        obtain ⟨is'', hblock', hfail⟩ := returns_getpara_nil hafter
        have hreads := @readsAll_events lines [] hlines (fun _ h => by cases h) state
        rw [List.append_nil] at hreads
        rw [← List.append_nil (state.emit (events [] [] lines)).1]
        exact .next hblock hgood hreads (.stop hblock' hfail)

end Vertical

/-! ### Both formats -/

/-- The horizontal or the vertical format. -/
inductive Format where
  | horizontal
  | vertical
  deriving DecidableEq, Repr

/-- The reader of a format. -/
def Format.reader : Format → InputFormat State
  | horizontal => Horizontal.reader
  | vertical => Vertical.reader

/-- Reading a text in blocks gives the sentences that reading it at once gives, with their
forms and comments, from any state of the reader. -/
theorem readsBlocks_eq_readsAll (format : Format) {text : Bytes} (hcr : cr ∉ text)
    (state : State) :
    ∃ sentences state', ReadsBlocks format.reader format.reader.readBlock { rest := text } state
        sentences [] ∧
      format.reader.ReadsAll (format.reader.setText text state) sentences [] state' := by
  obtain ⟨lines, rest, hsplit, hlf, htext⟩ := exists_lines text
  have hclean : ∀ line ∈ textLines text, Clean line := fun _ => clean_of_mem_textLines hcr
  have hlines : ∀ line ∈ lines, Clean line := fun line hline =>
    hclean line (htext ▸ List.mem_append_left _ hline)
  have hrest : Clean rest := by
    by_cases hnil : rest = []
    · rw [hnil]
      exact fun _ h => by cases h
    · refine hclean rest ?_
      rw [htext, if_neg hnil]
      simp
  cases format with
  | horizontal =>
    have hevents : (state.emit (Horizontal.events (textLines text) [])).1 =
        (state.emit (Horizontal.events lines rest)).1 := by
      rw [htext]
      by_cases hnil : rest = []
      · rw [if_pos hnil, List.append_nil, hnil]
      · rw [if_neg hnil, ← Marks.emit_append_newline _ (Horizontal.events lines rest)]
        simp [Horizontal.events, sentenceOf]
    have hblocks := Horizontal.readsBlocks_events (hasLines_textLines text) hclean state
    rw [hevents] at hblocks
    have hreads := Horizontal.readsAll_events hlines hrest state
    rw [← hsplit] at hreads
    exact ⟨_, _, hblocks, hreads⟩
  | vertical =>
    have hevents : (state.emit (Vertical.events [] [] (textLines text))).1 =
        (state.emit (Vertical.events rest [] lines)).1 := by
      rw [htext]
      by_cases hnil : rest = []
      · rw [if_pos hnil, List.append_nil, hnil]
      · rw [if_neg hnil, Vertical.emit_events_rest]
    have hblocks := Vertical.readsBlocks_events (hasLines_textLines text) hclean state
    rw [hevents] at hblocks
    have hreads := Vertical.readsAll_events hlines hrest state
    rw [← hsplit] at hreads
    exact ⟨_, _, hblocks, hreads⟩

/-- A new paragraph in the second block. -/
theorem readsBlocks_eq_readsAll_sample : ∃ sentences state',
    ReadsBlocks Format.vertical.reader Format.vertical.reader.readBlock
        { rest := bytes "a\n\n\nb" } {} sentences [] ∧
      Format.vertical.reader.ReadsAll
        (Format.vertical.reader.setText (bytes "a\n\n\nb") {}) sentences [] state' :=
  readsBlocks_eq_readsAll .vertical (by decide) {}

end UDPipe.LineFormats
