import UDPipe.Conllu.Reader

/-!
# Lines of a text

How one pass of the line loop cuts a line off the remaining text, and when the
remaining text gets shorter: always, except at a CR that no LF follows.
-/

namespace UDPipe.Conllu

/-- Every CR of the text is followed by an LF. -/
def LoneCrFree (text : Bytes) : Prop := ∀ i : ℕ, text[i]? = some cr → text[i + 1]? = some lf

/-- The text starts with a CR that no LF follows. -/
def StartsLoneCr (text : Bytes) : Prop := ∃ rest, text = cr :: rest ∧ rest.head? ≠ some lf

/-- At the end of the text there is no line end. -/
@[simp] theorem skipLineEnd_nil : skipLineEnd [] = [] := by simp [skipLineEnd]

/-- A line end is one byte. -/
@[simp] theorem skipLineEnd_lf (rest : Bytes) : skipLineEnd (lf :: rest) = rest := by
  simp [skipLineEnd]

/-- A line end of two bytes is skipped whole. -/
@[simp] theorem skipLineEnd_cr_lf (rest : Bytes) : skipLineEnd (cr :: lf :: rest) = rest := by
  simp [skipLineEnd]

/-- A lone carriage return is not skipped. -/
theorem skipLineEnd_loneCr {text : Bytes} (h : StartsLoneCr text) : skipLineEnd text = text := by
  obtain ⟨rest, rfl, hrest⟩ := h
  have hsecond : rest[0]? ≠ some lf := by rwa [← List.head?_eq_getElem?]
  simp [skipLineEnd, hsecond]

/-- The line of a pass contains no line end. -/
theorem not_isLineEnd_of_mem_readLine {text : Bytes} {c : Byte} (h : c ∈ (readLine text).1) :
    isLineEnd c = false := by
  simpa using List.mem_takeWhile_imp h

/-- How a text is cut: the line, its terminator, and the rest. The terminator is
missing at the end of the text and at a CR without an LF, which stays in the rest. -/
theorem readLine_cases (text : Bytes) :
    (∃ terminator, (terminator = [lf] ∨ terminator = [cr, lf]) ∧
      text = (readLine text).1 ++ terminator ++ (readLine text).2) ∨
    (text = (readLine text).1 ∧ (readLine text).2 = []) ∨
    (text = (readLine text).1 ++ (readLine text).2 ∧ StartsLoneCr (readLine text).2) := by
  have hsplit : text = (readLine text).1 ++ text.dropWhile (!isLineEnd ·) :=
    List.takeWhile_append_dropWhile.symm
  have hrest : (readLine text).2 = skipLineEnd (text.dropWhile (!isLineEnd ·)) := rfl
  cases htail : text.dropWhile (!isLineEnd ·) with
  | nil =>
    rw [htail] at hsplit hrest
    exact Or.inr (Or.inl ⟨by simpa using hsplit, by simpa using hrest⟩)
  | cons c rest =>
    have hc : isLineEnd c = true := by
      have := List.head?_dropWhile_not (fun c => !isLineEnd c) text
      simpa [htail] using this
    rw [htail] at hsplit hrest
    rcases isLineEnd_iff.mp hc with rfl | rfl
    · cases rest with
      | nil =>
        have hlone : StartsLoneCr [cr] := ⟨[], rfl, by simp⟩
        rw [skipLineEnd_loneCr hlone] at hrest
        exact Or.inr (Or.inr ⟨by rw [hrest]; exact hsplit, hrest ▸ hlone⟩)
      | cons d rest =>
        by_cases hd : d = lf
        · subst hd
          rw [skipLineEnd_cr_lf] at hrest
          exact Or.inl ⟨[cr, lf], Or.inr rfl, by rw [hrest]; simpa using hsplit⟩
        · have hlone : StartsLoneCr (cr :: d :: rest) := ⟨_, rfl, by simpa using hd⟩
          rw [skipLineEnd_loneCr hlone] at hrest
          exact Or.inr (Or.inr ⟨by rw [hrest]; exact hsplit, hrest ▸ hlone⟩)
    · rw [skipLineEnd_lf] at hrest
      exact Or.inl ⟨[lf], Or.inl rfl, by rw [hrest]; simpa using hsplit⟩

/-- At a CR without an LF a pass reads an empty line and consumes nothing. -/
theorem readLine_loneCr {text : Bytes} (h : StartsLoneCr text) : readLine text = ([], text) := by
  have hskip := skipLineEnd_loneCr h
  obtain ⟨rest, rfl, _⟩ := h
  simp [readLine, isLineEnd, hskip]

/-- Everywhere else a pass makes the text shorter. -/
theorem readLine_length_lt {text : Bytes} (hne : text ≠ []) (h : ¬ StartsLoneCr text) :
    (readLine text).2.length < text.length := by
  rcases readLine_cases text with ⟨terminator, hterm, heq⟩ | ⟨heq, hnil⟩ | ⟨heq, hlone⟩
  · have := congrArg List.length heq
    rcases hterm with rfl | rfl <;> simp at this <;> omega
  · rw [hnil]
    exact List.length_pos_of_ne_nil hne
  · cases hline : (readLine text).1 with
    | nil =>
      rw [hline, List.nil_append] at heq
      exact absurd (heq ▸ hlone) h
    | cons c line =>
      have := congrArg List.length heq
      simp [hline] at this
      omega

/-- Reading a line does not make the text longer. -/
theorem readLine_length_le (text : Bytes) : (readLine text).2.length ≤ text.length := by
  by_cases hlone : StartsLoneCr text
  · simp [readLine_loneCr hlone]
  · by_cases hne : text = []
    · simp [hne, readLine]
    · exact (readLine_length_lt hne hlone).le

/-- A line that ends in LF is read back. -/
theorem readLine_append {line : Bytes} (h : ∀ c ∈ line, isLineEnd c = false) (rest : Bytes) :
    readLine (line ++ lf :: rest) = (line, rest) := by
  have hall : ∀ c ∈ line, (!isLineEnd c) = true := by simpa using h
  have hlf : (!isLineEnd lf) = false := rfl
  simp [readLine, List.takeWhile_append_of_pos hall, List.dropWhile_append_of_pos hall, hlf]

/-- The empty text has no lone carriage return. -/
theorem loneCrFree_nil : LoneCrFree [] := by simp [LoneCrFree]

/-- A text without lone carriage returns does not begin with one. -/
theorem not_startsLoneCr_of_loneCrFree {text : Bytes} (h : LoneCrFree text) :
    ¬ StartsLoneCr text := by
  rintro ⟨rest, rfl, hrest⟩
  exact hrest (by simpa [List.head?_eq_getElem?] using h 0 (by simp))

/-- What is before the rest matters only if it has a lone carriage return. -/
private theorem loneCrFree_append {consumed rest : Bytes}
    (h : ∀ i : ℕ, i < consumed.length → (consumed ++ rest)[i]? = some cr →
      (consumed ++ rest)[i + 1]? = some lf) :
    LoneCrFree (consumed ++ rest) ↔ LoneCrFree rest := by
  constructor
  · intro hall i hi
    have hshift : ∀ k, (consumed ++ rest)[consumed.length + k]? = rest[k]? := fun k => by
      rw [List.getElem?_append_right (by omega)]
      congr 1
      omega
    rw [← hshift (i + 1)]
    exact hall (consumed.length + i) (by rw [hshift]; exact hi)
  · intro hrest i hi
    by_cases hlt : i < consumed.length
    · exact h i hlt hi
    · rw [List.getElem?_append_right (by omega)] at hi
      rw [List.getElem?_append_right (by omega)]
      have := hrest _ hi
      rwa [show i + 1 - consumed.length = i - consumed.length + 1 by omega]

/-- A pass leaves a lone CR in the rest if there is one. -/
theorem loneCrFree_readLine (text : Bytes) :
    LoneCrFree (readLine text).2 ↔ LoneCrFree text := by
  have hline : ∀ i : ℕ, (readLine text).1[i]? ≠ some cr := fun i hi => by
    have := not_isLineEnd_of_mem_readLine (List.mem_of_getElem? hi)
    simp [isLineEnd] at this
  rcases readLine_cases text with ⟨terminator, hterm, heq⟩ | ⟨heq, hnil⟩ | ⟨heq, _⟩
  · conv_rhs => rw [heq]
    refine (loneCrFree_append ?_).symm
    intro i hi hcr
    by_cases hlt : i < (readLine text).1.length
    · rw [List.append_assoc, List.getElem?_append_left hlt] at hcr
      exact absurd hcr (hline i)
    · rw [List.append_assoc, List.getElem?_append_right (by omega)] at hcr ⊢
      generalize hk : i - (readLine text).1.length = k at hcr
      rw [show i + 1 - (readLine text).1.length = k + 1 by omega]
      rcases hterm with rfl | rfl
      · have : k = 0 := by simp at hi; omega
        subst this
        simp at hcr
      · have : k = 0 ∨ k = 1 := by simp at hi; omega
        rcases this with rfl | rfl
        · simp
        · simp at hcr
  · rw [hnil]
    refine ⟨fun _ i hi => ?_, fun _ => loneCrFree_nil⟩
    rw [heq] at hi
    exact absurd hi (hline i)
  · conv_rhs => rw [heq]
    refine (loneCrFree_append ?_).symm
    intro i hi hcr
    rw [List.getElem?_append_left hi] at hcr
    exact absurd hcr (hline i)

end UDPipe.Conllu
