import UDPipe.Evaluator.Detokenized
import UDPipe.Tokenizer.Concatenation
import UDPipe.Tokenizer.Reconstruct

/-!
# The characters that are compared

Of the characters of a form, the evaluation data shows those before the first zero
that are no spaces. A tokenizer shows those of the characters of its tokens, where
blanks have become spaces. Detokenizing can only lose characters: when a form goes on
with an incomplete character of the form before it, they are one character.
-/

namespace UDPipe.Evaluator

open Utf8 Tokenizer

/-- A character that is compared: no zero, no space and no blank. -/
def visible (c : Character) : Bool := c.code != 0 && c.code != 32 && !isBlankChar c

/-- The codes that are compared of some characters. -/
def codes (cs : List Character) : List ℕ := (cs.filter visible).map Character.code

/-- The codes that are compared of the characters of a token, which a zero ends. -/
def shown (cs : List Character) : List ℕ := codes (cs.takeWhile fun c => c.code != 0)

/-- No characters have no codes. -/
@[simp] theorem codes_nil : codes [] = [] := rfl

/-- The codes of characters one after the other. -/
@[simp] theorem codes_append (cs cs' : List Character) :
    codes (cs ++ cs') = codes cs ++ codes cs' := by
  simp [codes]

/-- The first character has a code if it is visible. -/
theorem codes_cons (c : Character) (cs : List Character) :
    codes (c :: cs) = (if visible c then [c.code] else []) ++ codes cs := by
  rw [codes, List.filter_cons]
  split <;> simp [codes]

/-- There are no codes exactly if no character is visible. -/
theorem codes_eq_nil {cs : List Character} : codes cs = [] ↔ ∀ c ∈ cs, visible c = false := by
  simp [codes]

/-- Nothing is shown of no characters. -/
@[simp] theorem shown_nil : shown [] = [] := rfl

/-- Nothing is shown from a zero on. -/
theorem shown_cons_of_zero {c : Character} (h : c.code = 0) (cs : List Character) :
    shown (c :: cs) = [] := by
  simp [shown, h]

/-- Another character is shown if it is visible. -/
theorem shown_cons {c : Character} (h : c.code ≠ 0) (cs : List Character) :
    shown (c :: cs) = (if visible c then [c.code] else []) ++ shown cs := by
  rw [shown, List.takeWhile_cons_of_pos (by simpa using h), codes_cons, shown]

/-- Characters without a zero before others. -/
theorem shown_append {cs : List Character} (h : ∀ c ∈ cs, c.code ≠ 0) (cs' : List Character) :
    shown (cs ++ cs') = codes cs ++ shown cs' := by
  rw [shown, List.takeWhile_append_of_pos (fun c hc => by simpa using h c hc), codes_append, shown]

/-- Without zeros all visible characters are shown. -/
theorem shown_eq_codes {cs : List Character} (h : ∀ c ∈ cs, c.code ≠ 0) : shown cs = codes cs := by
  simpa using shown_append h []

/-- Nothing is shown after a zero. -/
theorem shown_append_of_zero {cs : List Character} (h : ∃ c ∈ cs, c.code = 0)
    (cs' : List Character) : shown (cs ++ cs') = shown cs := by
  induction cs with
  | nil => simp at h
  | cons c cs ih =>
    by_cases hc : c.code = 0
    · rw [List.cons_append, shown_cons_of_zero hc, shown_cons_of_zero hc]
    · obtain ⟨d, hd, hzero⟩ := h
      have hmem : d ∈ cs := (List.mem_cons.mp hd).resolve_left (by rintro rfl; exact hc hzero)
      rw [List.cons_append, shown_cons hc, shown_cons hc, ih ⟨d, hmem, hzero⟩]

/-- What is shown is followed by what the characters after a zero have. -/
theorem codes_eq_shown_append (cs : List Character) :
    codes cs = shown cs ++ codes (cs.dropWhile fun c => c.code != 0) := by
  rw [shown, ← codes_append, List.takeWhile_append_dropWhile]

/-! ### The characters of a form -/

/-- The bytes of a character are bytes of the text. -/
theorem mem_of_mem_bytes {text : Bytes} {c : Character} (hc : c ∈ chars text) {d : Byte}
    (hd : d ∈ c.bytes) : d ∈ text := by
  rw [← flat_chars text]
  exact List.mem_flatMap.mpr ⟨c, hc, hd⟩

/-- A form without line ends and tabs shows its characters that are no spaces. -/
theorem formChars_eq_shown {form : Bytes} (h : ∀ d ∈ form, d ≠ tab ∧ isLineEnd d = false) :
    formChars form = shown (chars form) := by
  rw [formChars, charsToZero, shown, codes, List.filter_map]
  congr 1
  refine List.filter_congr fun c hc => ?_
  have hzero : c.code ≠ 0 := by simpa using List.mem_takeWhile_imp hc
  have hmem : c ∈ chars form := (List.takeWhile_prefix _).mem hc
  have hspace : isBlankChar c = true → c.code = 32 := by
    intro hblank
    obtain ⟨hne, hascii⟩ := wellCut_chars hmem
    obtain ⟨d, more, hbytes⟩ := List.exists_cons_of_ne_nil hne
    have hd : d ∈ c.bytes := hbytes ▸ List.mem_cons_self
    have hclean := h d (mem_of_mem_bytes hmem hd)
    have hd' : isBlank d = true := List.all_eq_true.mp hblank d hd
    obtain rfl : d = space := by
      simp only [isBlank, Bool.or_eq_true, beq_iff_eq] at hd'
      rcases hd' with ((rfl | rfl) | rfl) | rfl
      · exact absurd hclean.2 (by decide)
      · exact absurd hclean.2 (by decide)
      · exact absurd rfl hclean.1
      · rfl
    rw [hascii space hd (by decide)]
    rfl
  simp only [Function.comp_apply, visible]
  cases hblank : isBlankChar c with
  | true => simp [hspace hblank]
  | false => simp [hzero]

/-! ### The characters of a token -/

/-- The characters from one to another one are decoded from their bytes. -/
theorem chars_flat_take (text : Bytes) (k : ℕ) :
    chars (flat ((chars text).take k)) = (chars text).take k := by
  induction text using chars_induction generalizing k with
  | nil => cases k <;> rfl
  | cons c more rest hbytes hchars ih =>
    cases k with
    | zero => rfl
    | succ k =>
      have hinside : startsInside (flat ((chars rest).take k)) = true →
          startsInside rest = true := by
        have hprefix : flat ((chars rest).take k) <+: rest := by
          conv_rhs => rw [← flat_chars rest, ← List.take_append_drop k (chars rest), flat_append]
          exact List.prefix_append _ _
        obtain ⟨after, hafter⟩ := hprefix
        cases hflat : flat ((chars rest).take k) with
        | nil => simp
        | cons d taken =>
          rw [hflat] at hafter
          rw [← hafter]
          exact id
      rw [hchars, List.take_succ_cons, flat_cons, hbytes, List.cons_append,
        chars_of_congr hbytes hinside, ih]

/-- The characters of a range are decoded from their bytes. -/
theorem chars_flat_range (text : Bytes) (r : TokenRange) :
    chars (flat (r.chars (chars text))) = r.chars (chars text) := by
  rw [TokenRange.chars, ← chars_drop, chars_flat_take]

/-- What is collected of a form, by its first character. -/
private theorem formChars_of_chars {form rest : Bytes} {c : Character}
    (h : chars form = c :: chars rest) :
    formChars form =
      if c.code = 0 then [] else (if c.code = 32 then [] else [c.code]) ++ formChars rest := by
  rw [formChars, charsToZero, h]
  by_cases hzero : c.code = 0
  · simp [hzero]
  · rw [List.takeWhile_cons_of_pos (by simpa using hzero), List.map_cons, List.filter_cons]
    by_cases hspace : c.code = 32
    · simp [hspace, formChars, charsToZero]
    · simp [hzero, hspace, formChars, charsToZero]

/-- Normalizing puts nothing inside a character that was not there. -/
private theorem startsInside_normalizeAfter {form : Bytes}
    (h : startsInside (normalizeAfter false form) = true) : startsInside form = true := by
  cases form with
  | nil => exact h
  | cons c form =>
    rw [normalizeAfter] at h
    split at h
    · exact absurd (show isContinuation space = true from h) (by decide)
    · exact h

/-- Blanks are bytes of one character. -/
private theorem isBlank_lt {c : Byte} (h : isBlank c = true) : c < 0x80 := by
  simp only [isBlank, Bool.or_eq_true, beq_iff_eq] at h
  rcases h with ((rfl | rfl) | rfl) | rfl <;> decide

/-- No byte of a character that begins with another byte is blank. -/
private theorem normalizeAfter_append {more : Bytes} (h : ∀ d ∈ more, isContinuation d = true)
    (rest : Bytes) : normalizeAfter false (more ++ rest) = more ++ normalizeAfter false rest := by
  induction more with
  | nil => rfl
  | cons d more ih =>
    obtain ⟨hd, hmore⟩ := List.forall_mem_cons.mp h
    have hblank : isBlank d ≠ true := by
      intro hblank
      simp only [isContinuation, Bool.and_eq_true, decide_eq_true_eq] at hd
      exact absurd (isBlank_lt hblank) (UInt8.not_lt.mpr hd.1)
    rw [List.cons_append, normalizeAfter, if_neg hblank, ih hmore, List.cons_append]

/-- A normalised form shows the characters of the form. -/
theorem formChars_normalizeForm (form : Bytes) :
    formChars (normalizeForm form) = shown (chars form) := by
  have key : ∀ blank, formChars (normalizeAfter blank form) = shown (chars form) := by
    induction form using chars_induction with
    | nil => exact fun blank => rfl
    | cons c more rest hbytes hchars ih =>
      intro blank
      by_cases hblank : isBlank c = true
      · have hascii := isBlank_lt hblank
        obtain rfl : more = [] := by
          rw [decode, if_pos hascii] at hbytes
          simpa using hbytes.symm
        have hcode : c.toNat ≠ 0 := by
          simp only [isBlank, Bool.or_eq_true, beq_iff_eq] at hblank
          rcases hblank with ((rfl | rfl) | rfl) | rfl <;> decide
        have hvisible : visible ⟨c.toNat, [c]⟩ = false := by
          simp [visible, isBlankChar, hblank]
        have hspace : formChars (space :: normalizeAfter true rest) =
            formChars (normalizeAfter true rest) := by
          rw [formChars_of_chars (chars_cons_of_ascii (by decide) _)]
          rfl
        rw [List.nil_append, chars_cons_of_ascii hascii, shown_cons hcode, hvisible,
          normalizeAfter, if_pos hblank]
        cases blank with
        | true => exact ih true
        | false => exact hspace.trans (ih true)
      · have hinside : ∀ d ∈ more, isContinuation d = true := by
          obtain ⟨more', rest', heq, hbytes', _, hinside⟩ := exists_decode c (more ++ rest)
          rw [heq] at hbytes
          obtain rfl : more' = more := by simpa [hbytes] using hbytes'.symm
          exact hinside
        have hnormal : normalizeAfter blank (c :: (more ++ rest)) =
            c :: (more ++ normalizeAfter false rest) := by
          rw [normalizeAfter, if_neg hblank, normalizeAfter_append hinside]
        have hfirst := chars_of_congr hbytes (@startsInside_normalizeAfter rest)
        have hvisible : isBlankChar (decode c (more ++ rest)) = false := by
          simp [isBlankChar, hbytes, hblank]
        rw [hnormal, hchars, formChars_of_chars hfirst, ih false]
        by_cases hzero : (decode c (more ++ rest)).code = 0
        · rw [if_pos hzero, shown_cons_of_zero hzero]
        · rw [if_neg hzero, shown_cons hzero]
          simp only [visible, hvisible, Bool.not_false, Bool.and_true, Bool.and_eq_true,
            bne_iff_ne, ne_eq, hzero, not_false_eq_true, true_and, ite_not]
  rw [normalizeForm_eq]
  exact key false

/-- Blanks show nothing. -/
theorem shown_blanks {cs : List Character}
    (h : ∀ c ∈ cs, WellCut c ∧ isBlankChar c = true) :
    (∀ c ∈ cs, c.code ≠ 0) ∧ codes cs = [] := by
  constructor
  · intro c hc
    obtain ⟨⟨hne, hascii⟩, hblank⟩ := h c hc
    obtain ⟨d, more, hbytes⟩ := List.exists_cons_of_ne_nil hne
    have hd : d ∈ c.bytes := hbytes ▸ List.mem_cons_self
    have hd' : isBlank d = true := List.all_eq_true.mp hblank d hd
    rw [hascii d hd (isBlank_lt hd')]
    simp only [isBlank, Bool.or_eq_true, beq_iff_eq] at hd'
    rcases hd' with ((rfl | rfl) | rfl) | rfl <;> decide
  · exact codes_eq_nil.mpr fun c hc => by simp [visible, (h c hc).2]

/-- Trimming a token does not change what it shows. -/
theorem shown_trimRange {cs : List Character} (hcut : ∀ c ∈ cs, WellCut c) (r : TokenRange) :
    shown ((trimRange cs r).chars cs) = shown (r.chars cs) := by
  have hmem : ∀ c ∈ r.chars cs, WellCut c :=
    fun c hc => hcut c (List.mem_of_mem_drop (List.mem_of_mem_take hc))
  obtain ⟨hsplit, _⟩ := chars_split cs r
  have hlead : ∀ c ∈ (r.chars cs).takeWhile isBlankChar, WellCut c ∧ isBlankChar c = true :=
    fun c hc => ⟨hmem c ((List.takeWhile_prefix _).mem hc), List.mem_takeWhile_imp hc⟩
  have htrail : ∀ c ∈ ((r.chars cs).dropWhile isBlankChar).rtakeWhile isBlankChar,
      WellCut c ∧ isBlankChar c = true := by
    intro c hc
    have hdrop := (List.rtakeWhile_suffix _ _).mem hc
    exact ⟨hmem c ((List.dropWhile_suffix _).mem hdrop), List.mem_rtakeWhile_imp hc⟩
  obtain ⟨hleadZero, hleadCodes⟩ := shown_blanks hlead
  obtain ⟨htrailZero, htrailCodes⟩ := shown_blanks htrail
  rw [← hsplit, shown_append hleadZero, hleadCodes, List.nil_append]
  by_cases hzero : ∃ c ∈ (trimRange cs r).chars cs, c.code = 0
  · rw [shown_append_of_zero hzero]
  · have hnone : ∀ c ∈ (trimRange cs r).chars cs, c.code ≠ 0 :=
      fun c hc hcode => hzero ⟨c, hc, hcode⟩
    rw [shown_append hnone, shown_eq_codes htrailZero, htrailCodes, List.append_nil,
      shown_eq_codes hnone]

/-- The forms of tokens show the characters of the tokens. -/
theorem shown_trimForms (block : Bytes) (ranges : List TokenRange) :
    ((trimForms block (ranges.map (formOf block))).flatMap fun form =>
        formChars (normalizeForm (form.text block))) =
      ranges.flatMap fun r => shown (r.chars (chars block)) := by
  have hform : ∀ r, formChars (normalizeForm ((formOf block r).text block)) =
      shown (r.chars (chars block)) := by
    intro r
    rw [formChars_normalizeForm, text_formOf, chars_flat_range]
  rw [trimForms_map_formOf, List.flatMap_map, trimRanges]
  induction ranges with
  | nil => rfl
  | cons r ranges ih =>
    have htrim := shown_trimRange (fun c hc => @wellCut_chars block c hc) r
    rw [List.map_cons, List.filter_cons, List.flatMap_cons, ← ih, ← htrim]
    split
    · rw [List.flatMap_cons, hform]
    · rename_i hempty
      have hnil : (trimRange (chars block) r).chars (chars block) = [] := by
        have hlength := length_chars_trimRange (chars block) r
        simp only [decide_eq_true_eq, not_lt, Nat.le_zero] at hempty
        rw [hempty] at hlength
        exact List.length_eq_zero_iff.mp hlength
      rw [hnil, shown_nil, List.nil_append]

/-! ### The characters of a detokenized text -/

/-- A character shows one code at most. -/
theorem length_shown_cons_le (c : Character) (cs : List Character) :
    (shown (c :: cs)).length ≤ 1 + (shown cs).length := by
  by_cases h : c.code = 0
  · simp [shown_cons_of_zero h]
  · rw [shown_cons h, List.length_append]
    split <;> simp

/-- Two texts together show no more than each of them. -/
theorem length_shown_append_le (cs cs' : List Character) :
    (shown (cs ++ cs')).length ≤ (shown cs).length + (shown cs').length := by
  by_cases h : ∃ c ∈ cs, c.code = 0
  · rw [shown_append_of_zero h]
    exact Nat.le_add_right _ _
  · have hnone : ∀ c ∈ cs, c.code ≠ 0 := fun c hc hcode => h ⟨c, hc, hcode⟩
    rw [shown_append hnone, shown_eq_codes hnone, List.length_append]

/-- Every continuation byte at the beginning of a text is shown. -/
private theorem length_shown_inside {more : Bytes} (h : ∀ d ∈ more, isContinuation d = true)
    (rest : Bytes) :
    (shown (chars (more ++ rest))).length = more.length + (shown (chars rest)).length := by
  rw [chars_append_of_continuation h]
  induction more with
  | nil => simp
  | cons d more ih =>
    obtain ⟨hd, hmore⟩ := List.forall_mem_cons.mp h
    have hvisible : visible ⟨replacementChar, [d]⟩ = true := by
      have hblank : isBlank d ≠ true := by
        intro hblank
        simp only [isContinuation, Bool.and_eq_true, decide_eq_true_eq] at hd
        exact absurd (isBlank_lt hblank) (UInt8.not_lt.mpr hd.1)
      simp [visible, isBlankChar, hblank, replacementChar]
    rw [List.map_cons, List.cons_append, shown_cons (show replacementChar ≠ 0 by decide), hvisible,
      if_pos rfl, List.length_append, ih hmore, List.length_singleton, List.length_cons]
    omega

/-- A merged character shows less than its parts. -/
private theorem length_shown_lt_of_merges {text rest more after : Bytes} {before : List Character}
    {last merged : Character} (h : Merges text rest before last merged more after) :
    (shown (chars (text ++ rest))).length <
      (shown (chars text)).length + (shown (chars rest)).length := by
  have hmore : 0 < more.length := List.length_pos_iff.mpr h.more_ne_nil
  have hrest := length_shown_inside h.more_inside after
  rw [← h.rest_eq] at hrest
  rw [h.chars_append, h.chars_text, hrest]
  by_cases hzero : ∃ c ∈ before, c.code = 0
  · rw [shown_append_of_zero hzero, shown_append_of_zero hzero]
    omega
  · have hnone : ∀ c ∈ before, c.code ≠ 0 := fun c hc hcode => hzero ⟨c, hc, hcode⟩
    have hcode : last.code ≠ 0 := by
      rw [h.last_code]
      decide
    have hvisible : visible last = true := by
      have hlast : last ∈ chars text := by simp [h.chars_text]
      obtain ⟨d, more', hbytes⟩ := List.exists_cons_of_ne_nil (wellCut_chars hlast).1
      have hblank : isBlankChar last = false := by
        refine List.all_eq_false.mpr ⟨d, hbytes ▸ List.mem_cons_self, fun hblank => ?_⟩
        exact h.last_bytes d (hbytes ▸ List.mem_cons_self) (isBlank_lt hblank)
      simp [visible, hblank, h.last_code, replacementChar]
    have hmerged := length_shown_cons_le merged (chars after)
    rw [shown_append hnone, shown_append hnone, shown_cons hcode, hvisible]
    simp only [if_true, List.length_append, List.length_singleton, shown_nil, List.length_nil]
    omega

/-- Two texts together show at most what they show apart, and less if they are decoded
in another way. -/
theorem length_shown_chars_append_le (text rest : Bytes) :
    (shown (chars (text ++ rest))).length ≤
      (shown (chars text)).length + (shown (chars rest)).length ∧
    ((shown (chars (text ++ rest))).length =
      (shown (chars text)).length + (shown (chars rest)).length →
      chars (text ++ rest) = chars text ++ chars rest) := by
  rcases chars_append text rest with hclean | ⟨_, _, _, _, _, hmerges⟩
  · exact ⟨hclean ▸ length_shown_append_le _ _, fun _ => hclean⟩
  · have hlt := length_shown_lt_of_merges hmerges
    exact ⟨Nat.le_of_lt hlt, fun heq => absurd heq (Nat.ne_of_lt hlt)⟩

/-- Several texts together show at most what they show apart, and less if they are decoded
in another way. -/
theorem length_shown_flatten_le (pieces : List Bytes) :
    (shown (chars pieces.flatten)).length ≤
      (pieces.flatMap fun piece => shown (chars piece)).length ∧
    ((shown (chars pieces.flatten)).length =
      (pieces.flatMap fun piece => shown (chars piece)).length →
      chars pieces.flatten = pieces.flatMap chars) := by
  induction pieces with
  | nil => exact ⟨le_rfl, fun _ => rfl⟩
  | cons piece pieces ih =>
    obtain ⟨hle, heq⟩ := length_shown_chars_append_le piece pieces.flatten
    simp only [List.flatten_cons, List.flatMap_cons, List.length_append]
    constructor
    · omega
    · intro hboth
      rw [heq (by omega), ih.2 (by omega)]

end UDPipe.Evaluator
