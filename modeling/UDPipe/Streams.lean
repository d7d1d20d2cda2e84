import UDPipe.Bytes
import UDPipe.Library.Comp

/-!
# Reading blocks of a stream

An input stream of bytes with the two flags that `getline` sets, and the block
readers `getpara` and `getwhole` of `utils/` built on it. On a stream that has
certain lines left, they return the first paragraph and all lines.
-/

namespace UDPipe

/-- An `istream`: the bytes that are left, and its flags. -/
structure IStream where
  rest : Bytes
  eofbit : Bool := false
  failbit : Bool := false
  deriving DecidableEq, Repr

/-- `getline(is, line)`; a stream that is not good fails and leaves `line` alone,
and so does one with no bytes left except that `line` is cleared. -/
def getline (is : IStream) (line : Bytes) : Bytes × IStream :=
  if is.eofbit || is.failbit then (line, { is with failbit := true })
  else
    let line := is.rest.takeWhile (· != lf)
    match is.rest.dropWhile (· != lf) with
    | [] => (line, { rest := [], eofbit := true, failbit := line == [] })
    | _ :: rest => (line, { rest })

/-- The statement after the loops of `getpara` and `getwhole`: a block that ends
with the stream is not a failure. -/
def clearFail (block : Bytes) (is : IStream) : IStream :=
  if is.eofbit && block != [] then { is with failbit := false } else is

/-- One pass of the loop of `getpara`: the paragraph so far, `line`, the stream. -/
def getparaStep : Bytes × Bytes × IStream →
    LoopStep (Bytes × Bytes × IStream) (Bytes × IStream)
  | (para, line, is) =>
    let (line, is) := getline is line
    if is.failbit then .done (para, clearFail para is)
    else
      let para := para ++ line ++ [lf]
      if line = [] then .done (para, clearFail para is) else .next (para, line, is)

/-- `getpara`: a paragraph up to an empty line or the end of the stream. -/
def getpara (is : IStream) : Comp (Bytes × IStream) := Comp.loopOf getparaStep ([], [], is)

/-- One pass of the loop of `getwhole`. -/
def getwholeStep : Bytes × Bytes × IStream →
    LoopStep (Bytes × Bytes × IStream) (Bytes × IStream)
  | (whole, line, is) =>
    let (line, is) := getline is line
    if is.failbit then .done (whole, clearFail whole is)
    else .next (whole ++ line ++ [lf], line, is)

/-- `getwhole`: everything up to the end of the stream. -/
def getwhole (is : IStream) : Comp (Bytes × IStream) := Comp.loopOf getwholeStep ([], [], is)

/-! ### Lines of a stream -/

/-- Lines with their terminators. -/
def joinLines (lines : List Bytes) : Bytes := lines.flatMap (· ++ [lf])

/-- No lines make an empty text. -/
@[simp] theorem joinLines_nil : joinLines [] = [] := rfl

/-- The first line ends before the others. -/
@[simp] theorem joinLines_cons (line : Bytes) (lines : List Bytes) :
    joinLines (line :: lines) = line ++ lf :: joinLines lines := by
  simp [joinLines]

/-- Lines one after the other. -/
@[simp] theorem joinLines_append (lines lines' : List Bytes) :
    joinLines (lines ++ lines') = joinLines lines ++ joinLines lines' := by
  simp [joinLines]

/-- Every line has a byte, its end. -/
theorem length_le_length_joinLines (lines : List Bytes) :
    lines.length ≤ (joinLines lines).length := by
  induction lines with
  | nil => exact le_rfl
  | cons line lines ih =>
    rw [joinLines_cons, List.length_cons, List.length_append, List.length_cons]
    omega

/-- The lines of a text; the last one may have no terminator. -/
def textLines : Bytes → List Bytes
  | [] => []
  | c :: text =>
    if c = lf then [] :: textLines text
    else match textLines text with
      | [] => [[c]]
      | line :: lines => (c :: line) :: lines

/-- The first line of a text. -/
theorem textLines_append_lf {line : Bytes} (h : lf ∉ line) (rest : Bytes) :
    textLines (line ++ lf :: rest) = line :: textLines rest := by
  induction line with
  | nil => simp [textLines]
  | cons c line ih =>
    obtain ⟨hc, hline⟩ := not_or.mp (mt List.mem_cons.mpr h)
    rw [List.cons_append, textLines, if_neg (Ne.symm hc), ih hline]

/-- A last line without its end. -/
theorem textLines_of_not_mem {line : Bytes} (h : lf ∉ line) (hne : line ≠ []) :
    textLines line = [line] := by
  induction line with
  | nil => exact absurd rfl hne
  | cons c line ih =>
    obtain ⟨hc, hline⟩ := not_or.mp (mt List.mem_cons.mpr h)
    rw [textLines, if_neg (Ne.symm hc)]
    by_cases hnil : line = []
    · simp [hnil, textLines]
    · rw [ih hline hnil]

/-- The bytes of the lines are bytes of the text, without its terminators. -/
theorem mem_of_mem_textLines {text line : Bytes} (hline : line ∈ textLines text) {c : Byte}
    (hc : c ∈ line) : c ∈ text ∧ c ≠ lf := by
  induction text generalizing line with
  | nil => simp [textLines] at hline
  | cons d text ih =>
    rw [textLines] at hline
    by_cases hd : d = lf
    · rw [if_pos hd] at hline
      rcases List.mem_cons.mp hline with rfl | hline
      · simp at hc
      · exact ⟨List.mem_cons_of_mem _ (ih hline hc).1, (ih hline hc).2⟩
    · rw [if_neg hd] at hline
      cases hlines : textLines text with
      | nil =>
        rw [hlines, List.mem_singleton] at hline
        rw [hline, List.mem_singleton] at hc
        exact ⟨by simp [hc], hc ▸ hd⟩
      | cons first rest =>
        rw [hlines] at hline ih
        rcases List.mem_cons.mp hline with rfl | hline
        · rcases List.mem_cons.mp hc with rfl | hc
          · exact ⟨by simp, hd⟩
          · have := ih List.mem_cons_self hc
            exact ⟨List.mem_cons_of_mem _ this.1, this.2⟩
        · have := ih (List.mem_cons_of_mem _ hline) hc
          exact ⟨List.mem_cons_of_mem _ this.1, this.2⟩

/-- Successive calls of `getline` give these lines, and then fail at the end of the stream. -/
inductive HasLines : IStream → List Bytes → Prop
  | ended {is : IStream} :
      (∀ old, (getline is old).2.failbit = true ∧ (getline is old).2.eofbit = true) →
      HasLines is []
  | line {is is' : IStream} {line : Bytes} {lines : List Bytes} :
      (∀ old, getline is old = (line, is')) → is'.failbit = false → HasLines is' lines →
      HasLines is (line :: lines)

/-- At the end of the stream there are no lines. -/
theorem hasLines_of_eofbit {is : IStream} (h : is.eofbit = true) : HasLines is [] :=
  .ended fun old => by simp [getline, h]

/-- A new stream has the lines of its text. -/
theorem hasLines_textLines (text : Bytes) : HasLines { rest := text } (textLines text) := by
  induction hn : text.length using Nat.strongRecOn generalizing text with
  | ind n ih =>
    by_cases hlf : lf ∈ text
    · obtain ⟨line, rest, rfl, hline⟩ := List.eq_append_cons_of_mem hlf
      have hall : ∀ c ∈ line, (c != lf) = true := fun c hc => by
        simp only [bne_iff_ne, ne_eq]
        rintro rfl
        exact hline hc
      have hget : ∀ old, getline { rest := line ++ lf :: rest } old = (line, { rest }) := by
        intro old
        simp [getline, List.takeWhile_append_of_pos hall, List.dropWhile_append_of_pos hall]
      rw [textLines_append_lf hline]
      exact .line hget rfl (ih rest.length (by simp at hn; omega) rest rfl)
    · have hall : ∀ c ∈ text, (c != lf) = true := fun c hc => by
        simp only [bne_iff_ne, ne_eq]
        rintro rfl
        exact hlf hc
      have htake : text.takeWhile (· != lf) = text := List.takeWhile_eq_self_iff.mpr hall
      have hdrop : text.dropWhile (· != lf) = [] := List.dropWhile_eq_nil_iff.mpr hall
      by_cases hnil : text = []
      · subst hnil
        exact .ended fun old => by simp [getline]
      · rw [textLines_of_not_mem hlf hnil]
        have hget : ∀ old, getline { rest := text } old =
            (text, { rest := [], eofbit := true }) := fun old => by
          simp [getline, htake, hdrop, hnil]
        exact .line hget rfl (hasLines_of_eofbit rfl)

/-- `clearFail` at the end of the stream after a nonempty block. -/
private theorem hasLines_clearFail {block : Bytes} {is : IStream} (heof : is.eofbit = true)
    (hblock : block ≠ []) :
    (clearFail block is).failbit = false ∧ HasLines (clearFail block is) [] := by
  simp [clearFail, heof, hblock, hasLines_of_eofbit]

/-- `getwhole` returns all lines, each with a terminator. -/
theorem returns_getwhole {is : IStream} {lines : List Bytes} (h : HasLines is lines)
    (hne : lines ≠ []) :
    ∃ is', (getwhole is).Returns (joinLines lines, is') ∧ is'.failbit = false ∧ HasLines is' [] := by
  have key : ∀ {is lines}, HasLines is lines → ∀ (whole old : Bytes), whole ++ joinLines lines ≠ [] →
      ∃ is', (Comp.loopOf getwholeStep (whole, old, is)).Returns (whole ++ joinLines lines, is') ∧
        is'.failbit = false ∧ HasLines is' [] := by
    intro is lines h
    induction h with
    | @ended is hend =>
      intro whole old hwhole
      obtain ⟨hfail, heof⟩ := hend old
      simp only [joinLines_nil, List.append_nil] at hwhole ⊢
      refine ⟨clearFail whole (getline is old).2, ?_, hasLines_clearFail heof hwhole⟩
      rw [Comp.returns_loopOf]
      simp [getwholeStep, hfail]
    | @line is is' line lines hget hgood _ ih =>
      intro whole old _
      obtain ⟨is'', hreturns, hrest⟩ := ih (whole ++ line ++ [lf]) line (by simp)
      refine ⟨is'', ?_, hrest⟩
      rw [Comp.returns_loopOf]
      simpa [getwholeStep, hget, hgood] using hreturns
  have hjoin : [] ++ joinLines lines ≠ [] := by
    cases lines with
    | nil => exact absurd rfl hne
    | cons line lines => simp
  simpa [getwhole] using key h [] [] hjoin

/-- At the end of the stream `getwhole` and `getpara` fail. -/
theorem returns_getwhole_nil {is : IStream} (h : HasLines is []) :
    ∃ is', (getwhole is).Returns ([], is') ∧ is'.failbit = true := by
  cases h with
  | ended hend =>
    refine ⟨_, Comp.returns_loopOf.mpr ?_, (hend []).1⟩
    simp [getwholeStep, (hend []).1, clearFail]

/-- Without lines there is no paragraph, and the stream fails. -/
theorem returns_getpara_nil {is : IStream} (h : HasLines is []) :
    ∃ is', (getpara is).Returns ([], is') ∧ is'.failbit = true := by
  cases h with
  | ended hend =>
    refine ⟨_, Comp.returns_loopOf.mpr ?_, (hend []).1⟩
    simp [getparaStep, (hend []).1, clearFail]

/-- `getpara` returns the lines up to an empty line and that line. -/
theorem returns_getpara {is : IStream} {para lines : List Bytes} (hpara : [] ∉ para)
    (h : HasLines is (para ++ [] :: lines)) :
    ∃ is', (getpara is).Returns (joinLines (para ++ [[]]), is') ∧ is'.failbit = false ∧
      HasLines is' lines := by
  have key : ∀ (para : List Bytes) (is : IStream) (before old : Bytes), [] ∉ para →
      HasLines is (para ++ [] :: lines) →
      ∃ is', (Comp.loopOf getparaStep (before, old, is)).Returns
          (before ++ joinLines (para ++ [[]]), is') ∧ is'.failbit = false ∧ HasLines is' lines := by
    intro para
    induction para with
    | nil =>
      intro is before old _ h
      cases h with
      | @line _ is' _ _ hget hgood hlines =>
        refine ⟨clearFail (before ++ [lf]) is', ?_, ?_, ?_⟩
        · rw [Comp.returns_loopOf]
          simp [getparaStep, hget, hgood]
        · simp only [clearFail]
          split <;> simp [hgood]
        · simp only [clearFail]
          split
          · have : ({ is' with failbit := false } : IStream) = is' := by rw [← hgood]
            rwa [this]
          · exact hlines
    | cons line para ih =>
      intro is before old hpara h
      obtain ⟨hline, hpara⟩ := not_or.mp (mt List.mem_cons.mpr hpara)
      cases h with
      | @line _ is' _ _ hget hgood hlines =>
        obtain ⟨is'', hreturns, hrest⟩ := ih is' (before ++ line ++ [lf]) line hpara hlines
        refine ⟨is'', ?_, hrest⟩
        rw [Comp.returns_loopOf]
        simpa [getparaStep, hget, hgood, Ne.symm hline] using hreturns
  simpa [getpara] using key para is [] [] hpara h

/-- `getpara` returns the last lines of a stream, if none of them is empty. -/
theorem returns_getpara_last {is : IStream} {para : List Bytes} (hpara : [] ∉ para)
    (hne : para ≠ []) (h : HasLines is para) :
    ∃ is', (getpara is).Returns (joinLines para, is') ∧ is'.failbit = false ∧ HasLines is' [] := by
  have key : ∀ (para : List Bytes) (is : IStream) (before old : Bytes), [] ∉ para →
      HasLines is para → before ++ joinLines para ≠ [] →
      ∃ is', (Comp.loopOf getparaStep (before, old, is)).Returns (before ++ joinLines para, is') ∧
        is'.failbit = false ∧ HasLines is' [] := by
    intro para
    induction para with
    | nil =>
      intro is before old _ h hbefore
      cases h with
      | ended hend =>
        obtain ⟨hfail, heof⟩ := hend old
        simp only [joinLines_nil, List.append_nil] at hbefore ⊢
        refine ⟨clearFail before (getline is old).2, ?_, hasLines_clearFail heof hbefore⟩
        rw [Comp.returns_loopOf]
        simp [getparaStep, hfail]
    | cons line para ih =>
      intro is before old hpara h _
      obtain ⟨hline, hpara⟩ := not_or.mp (mt List.mem_cons.mpr hpara)
      cases h with
      | @line _ is' _ _ hget hgood hlines =>
        obtain ⟨is'', hreturns, hrest⟩ :=
          ih is' (before ++ line ++ [lf]) line hpara hlines (by simp)
        refine ⟨is'', ?_, hrest⟩
        rw [Comp.returns_loopOf]
        simpa [getparaStep, hget, hgood, Ne.symm hline] using hreturns
  have hjoin : [] ++ joinLines para ≠ [] := by
    cases para with
    | nil => exact absurd rfl hne
    | cons line lines => simp
  simpa [getpara] using key para is [] [] hpara h hjoin

end UDPipe
