import UDPipe.Tokenizer.Wrapper
import Mathlib.Data.List.DropRight
import Mathlib.Data.List.SplitBy

/-!
# Forms as ranges of characters

The wrapper handles bytes, and the inner tokenizer characters. A form begins and
ends between characters, also when it has been trimmed: blanks are characters of
their own. So the forms of the wrapper are ranges of characters again.
-/

namespace UDPipe.Tokenizer

open Utf8

/-- The byte offset of a character. -/
def offset (cs : List Character) (k : ℕ) : ℕ := (flat (cs.take k)).length

/-- The characters of a range. -/
def TokenRange.chars (cs : List Character) (range : TokenRange) : List Character :=
  (cs.drop range.start).take range.length

/-- A blank character. -/
def isBlankChar (c : Character) : Bool := c.bytes.all isBlank

/-- A range without the blanks around it. -/
def trimRange (cs : List Character) (range : TokenRange) : TokenRange where
  start := range.start + ((range.chars cs).takeWhile isBlankChar).length
  length := (((range.chars cs).dropWhile isBlankChar).rdropWhile isBlankChar).length

/-- The ranges that are left after trimming, without the empty ones. -/
def trimRanges (cs : List Character) (ranges : List TokenRange) : List TokenRange :=
  (ranges.map (trimRange cs)).filter fun range => 0 < range.length

/-! ### Offsets -/

/-- The bytes of some characters more. -/
theorem offset_add (cs : List Character) (i n : ℕ) :
    offset cs (i + n) = offset cs i + (flat ((cs.drop i).take n)).length := by
  rw [offset, List.take_add, flat_append, List.length_append, offset]

/-- Behind the offset of a character are the bytes of the characters from it on. -/
theorem drop_offset (cs : List Character) (k : ℕ) :
    (flat cs).drop (offset cs k) = flat (cs.drop k) := by
  conv_lhs => rw [← List.take_append_drop k cs, flat_append]
  rw [List.take_append_drop]
  exact List.drop_left

/-- The bytes between two characters. -/
theorem slice_offset (cs : List Character) {i j : ℕ} (h : i ≤ j) :
    slice (flat cs) (offset cs i) (offset cs j) = flat ((cs.drop i).take (j - i)) := by
  obtain ⟨n, rfl⟩ := Nat.exists_eq_add_of_le h
  rw [slice, drop_offset, offset_add, Nat.add_sub_cancel_left, Nat.add_sub_cancel_left]
  conv_lhs => rw [← List.take_append_drop n (cs.drop i), flat_append]
  rw [List.take_append_drop]
  exact List.take_left

/-- The text of a form is that of its range. -/
theorem text_formOf (block : Bytes) (range : TokenRange) :
    (formOf block range).text block = flat (range.chars (chars block)) := by
  have h := slice_offset (chars block) (Nat.le_add_right range.start range.length)
  rw [flat_chars, Nat.add_sub_cancel_left] at h
  exact h

/-! ### Decoding from a character on -/

/-- Enough fuel decodes all characters. -/
private theorem charsWith_of_le {fuel fuel' : ℕ} {text : Bytes} (h : text.length ≤ fuel)
    (h' : text.length ≤ fuel') : charsWith fuel text = charsWith fuel' text := by
  induction fuel generalizing text fuel' with
  | zero =>
    obtain rfl := List.length_eq_zero_iff.mp (Nat.le_zero.mp h)
    cases fuel' <;> rfl
  | succ fuel ih =>
    cases text with
    | nil => cases fuel' <;> rfl
    | cons c text =>
      obtain ⟨more, hbytes, ⟨rest, rfl⟩, _⟩ := decode_spec c text
      have hdrop : (c :: (more ++ rest)).drop (c :: more).length = rest := by simp
      simp only [List.length_cons, List.length_append] at h h'
      obtain ⟨fuel', rfl⟩ : ∃ k, fuel' = k + 1 := ⟨fuel' - 1, by omega⟩
      have hrest : charsWith fuel rest = charsWith fuel' rest := ih (by omega) (by omega)
      rw [charsWith, charsWith, hbytes, hdrop, hrest]

/-- The first character of a text, and those of the rest. -/
theorem chars_cons (c : Byte) (text : Bytes) :
    chars (c :: text) =
      decode c text :: chars ((c :: text).drop (decode c text).bytes.length) := by
  obtain ⟨more, hbytes, _⟩ := decode_spec c text
  rw [chars, List.length_cons, charsWith, chars]
  congr 1
  apply charsWith_of_le
  · simp [hbytes]
  · exact le_rfl

/-- Decoding from a character on gives the characters from there on. -/
theorem chars_drop (text : Bytes) (k : ℕ) :
    chars (text.drop (offset (chars text) k)) = (chars text).drop k := by
  induction k generalizing text with
  | zero => rfl
  | succ k ih =>
    cases text with
    | nil => simp [chars, charsWith]
    | cons c text =>
      have hoffset : ∀ d cs, offset (d :: cs) (k + 1) = d.bytes.length + offset cs k := by
        intro d cs
        simp [offset]
      rw [chars_cons, hoffset, ← List.drop_drop, ih, List.drop_succ_cons]

/-! ### Trimming -/

/-- Where the pieces have the property as a whole or in no byte, the first bytes that have it are
whole pieces. -/
private theorem takeWhile_flatten {p : Byte → Bool} {chunks : List Bytes}
    (h : ∀ chunk ∈ chunks, chunk ≠ [] ∧ (chunk.all p = false → ∀ c ∈ chunk, p c = false)) :
    chunks.flatten.takeWhile p = (chunks.takeWhile fun chunk => chunk.all p).flatten := by
  induction chunks with
  | nil => rfl
  | cons chunk chunks ih =>
    obtain ⟨⟨hne, hnone⟩, hrest⟩ := List.forall_mem_cons.mp h
    rw [List.flatten_cons]
    cases hall : chunk.all p with
    | true =>
      rw [List.takeWhile_append_of_pos (List.all_eq_true.mp hall), ih hrest,
        List.takeWhile_cons_of_pos (by simpa using hall), List.flatten_cons]
    | false =>
      rw [List.takeWhile_cons_of_neg (by simp [hall]), List.flatten_nil]
      obtain ⟨c, rest, rfl⟩ := List.exists_cons_of_ne_nil hne
      rw [List.cons_append, List.takeWhile_cons_of_neg]
      simp [hnone hall c List.mem_cons_self]

/-- The bytes of a character are all blank or none is. -/
private theorem uniform {c : Character} (h : WellCut c) :
    c.bytes ≠ [] ∧ (isBlankChar c = false → ∀ d ∈ c.bytes, isBlank d = false) := by
  refine ⟨h.1, fun hblank d hd => ?_⟩
  by_contra hne
  rw [Bool.not_eq_false] at hne
  have hlt : d < 0x80 := by
    simp only [isBlank, Bool.or_eq_true, beq_iff_eq] at hne
    rcases hne with ((rfl | rfl) | rfl) | rfl <;> decide
  rw [h.2 d hd hlt] at hblank
  simp [isBlankChar, hne] at hblank

section Trim

variable {cs : List Character} (hcut : ∀ c ∈ cs, WellCut c)

include hcut

/-- The blanks at the beginning are those of the blank characters. -/
private theorem takeWhile_flat : (flat cs).takeWhile isBlank = flat (cs.takeWhile isBlankChar) := by
  rw [flat, List.flatMap_def, takeWhile_flatten, List.takeWhile_map, ← List.flatMap_def]
  · rfl
  · intro chunk hchunk
    obtain ⟨c, hc, rfl⟩ := List.mem_map.mp hchunk
    exact uniform (hcut c hc)

/-- Behind the blanks at the beginning are the characters behind the blank ones. -/
private theorem dropWhile_flat : (flat cs).dropWhile isBlank = flat (cs.dropWhile isBlankChar) := by
  have h : (flat cs).takeWhile isBlank ++ (flat cs).dropWhile isBlank =
      (flat cs).takeWhile isBlank ++ flat (cs.dropWhile isBlankChar) := by
    rw [List.takeWhile_append_dropWhile, takeWhile_flat hcut, ← flat_append,
      List.takeWhile_append_dropWhile]
  exact List.append_cancel_left h

/-- The blanks at the end are those of the blank characters. -/
private theorem length_rtakeWhile_flat :
    ((flat cs).reverse.takeWhile isBlank).length = (flat (cs.rtakeWhile isBlankChar)).length := by
  have hreverse : (flat cs).reverse = (cs.reverse.map fun c => c.bytes.reverse).flatten := by
    rw [flat, List.flatMap_def, List.reverse_flatten, List.map_map, List.map_reverse]
    rfl
  have hall : ∀ l : Bytes, l.reverse.all isBlank = l.all isBlank := fun l => List.all_reverse
  rw [hreverse, takeWhile_flatten, List.takeWhile_map, List.rtakeWhile]
  · simp only [Function.comp_def, hall, flat, List.length_flatten, List.length_flatMap,
      List.map_map, List.length_reverse, List.map_reverse, List.sum_reverse]
    rfl
  · intro chunk hchunk
    obtain ⟨c, hc, rfl⟩ := List.mem_map.mp hchunk
    obtain ⟨hne, hnone⟩ := uniform (hcut c (List.mem_reverse.mp hc))
    refine ⟨by simpa using hne, fun hblank d hd => ?_⟩
    rw [hall] at hblank
    exact hnone hblank d (List.mem_reverse.mp hd)

end Trim

/-- A range of a text is blanks, what is left of it after trimming, and blanks again. -/
theorem chars_split (cs : List Character) (range : TokenRange) :
    (range.chars cs).takeWhile isBlankChar ++ ((trimRange cs range).chars cs ++
      ((range.chars cs).dropWhile isBlankChar).rtakeWhile isBlankChar) = range.chars cs ∧
    (trimRange cs range).chars cs =
      ((range.chars cs).dropWhile isBlankChar).rdropWhile isBlankChar := by
  have hdrop : cs.drop range.start = range.chars cs ++ cs.drop (range.start + range.length) := by
    rw [TokenRange.chars, ← List.drop_drop, List.take_append_drop]
  have hsplit : (range.chars cs).takeWhile isBlankChar ++
      (((range.chars cs).dropWhile isBlankChar).rdropWhile isBlankChar ++
        ((range.chars cs).dropWhile isBlankChar).rtakeWhile isBlankChar) = range.chars cs := by
    rw [List.rdropWhile_append_rtakeWhile, List.takeWhile_append_dropWhile]
  have hchars : (trimRange cs range).chars cs =
      ((range.chars cs).dropWhile isBlankChar).rdropWhile isBlankChar := by
    rw [TokenRange.chars, trimRange, ← List.drop_drop, hdrop]
    dsimp only
    generalize (range.chars cs).takeWhile isBlankChar = before at hsplit ⊢
    generalize ((range.chars cs).dropWhile isBlankChar).rdropWhile isBlankChar = left at hsplit ⊢
    rw [← hsplit, List.append_assoc, List.drop_left, List.append_assoc, List.take_left]
  rw [hchars]
  exact ⟨hsplit, rfl⟩

/-- The byte where a range ends. -/
theorem offset_stop (cs : List Character) (range : TokenRange) :
    offset cs (range.start + range.length) =
      offset cs range.start + (flat (range.chars cs)).length := offset_add cs _ _

/-- Trimming a form is trimming its range. -/
theorem trimForm_formOf (block : Bytes) (range : TokenRange) :
    trimForm block (formOf block range) = formOf block (trimRange (chars block) range) := by
  have hcut : ∀ c ∈ range.chars (chars block), WellCut c := fun c hc =>
    wellCut_chars (List.mem_of_mem_drop (List.mem_of_mem_take hc))
  have hcut' : ∀ c ∈ (range.chars (chars block)).dropWhile isBlankChar, WellCut c := fun c hc =>
    hcut c ((List.dropWhile_sublist _).mem hc)
  have hsplit := congrArg (fun cs => (flat cs).length) (chars_split (chars block) range).1
  simp only [flat_append, List.length_append] at hsplit
  have hstart : offset (chars block) (trimRange (chars block) range).start =
      offset (chars block) range.start +
        (flat ((range.chars (chars block)).takeWhile isBlankChar)).length := by
    have htake : ((chars block).drop range.start).take
        ((range.chars (chars block)).takeWhile isBlankChar).length =
          (range.chars (chars block)).takeWhile isBlankChar := by
      apply (List.prefix_iff_eq_take.mp _).symm
      exact (List.takeWhile_prefix _).trans (List.take_prefix _ _)
    rw [trimRange, offset_add, htake]
  have hstop := offset_stop (chars block) range
  have hstop' := offset_stop (chars block) (trimRange (chars block) range)
  rw [trimForm, text_formOf, takeWhile_flat hcut, dropWhile_flat hcut,
    length_rtakeWhile_flat hcut', Piece.mk.injEq]
  simp only [formOf]
  constructor
  · exact hstart.symm
  · change offset _ _ - _ = offset _ _
    omega

/-- A range that has been trimmed is within the text. -/
theorem length_chars_trimRange (cs : List Character) (range : TokenRange) :
    ((trimRange cs range).chars cs).length = (trimRange cs range).length := by
  rw [(chars_split cs range).2, trimRange]

/-- Trimming stays within the range. -/
theorem trimRange_within (cs : List Character) (range : TokenRange) :
    range.start ≤ (trimRange cs range).start ∧
      (trimRange cs range).start + (trimRange cs range).length ≤ range.start + range.length := by
  have hsplit := congrArg List.length (chars_split cs range).1
  have hle : (range.chars cs).length ≤ range.length := List.length_take_le _ _
  have hlength := length_chars_trimRange cs range
  simp only [List.length_append] at hsplit
  have hstart : (trimRange cs range).start =
    range.start + ((range.chars cs).takeWhile isBlankChar).length := rfl
  omega

/-- A trimmed form has bytes exactly if it has characters. -/
private theorem start_lt_stop_iff (block : Bytes) (range : TokenRange) :
    (formOf block (trimRange (chars block) range)).start <
        (formOf block (trimRange (chars block) range)).stop ↔
      0 < (trimRange (chars block) range).length := by
  have hstop := offset_stop (chars block) (trimRange (chars block) range)
  have hcut : ∀ c ∈ (trimRange (chars block) range).chars (chars block), c.bytes ≠ [] :=
    fun c hc => (wellCut_chars (List.mem_of_mem_drop (List.mem_of_mem_take hc))).1
  rw [← length_chars_trimRange]
  change offset _ _ < offset _ _ ↔ _
  rw [hstop]
  generalize (trimRange (chars block) range).chars (chars block) = cs at hcut
  cases cs with
  | nil => simp
  | cons c cs =>
    have hpos := List.length_pos_iff.mpr (hcut c List.mem_cons_self)
    simp only [flat_cons, List.length_append, List.length_cons]
    omega

/-- The forms of the wrapper are the trimmed ranges. -/
theorem trimForms_map_formOf (block : Bytes) (ranges : List TokenRange) :
    trimForms block (ranges.map (formOf block)) =
      (trimRanges (chars block) ranges).map (formOf block) := by
  have htrim : trimForm block ∘ formOf block = formOf block ∘ trimRange (chars block) :=
    funext fun range => trimForm_formOf block range
  rw [trimForms, trimRanges, List.map_map, htrim, ← List.map_map, List.filter_map]
  congr 1
  apply List.filter_congr
  intro range hrange
  obtain ⟨range, _, rfl⟩ := List.mem_map.mp hrange
  exact decide_eq_decide.mpr (start_lt_stop_iff block range)

/-! ### Valid texts -/

/-- The characters of a valid text, as bytes: every byte that is no continuation begins one. -/
def wholeCharacters (text : Bytes) : List Bytes := text.splitBy fun _ b => isContinuation b

/-- The first character of a text that begins with a whole one. -/
theorem wholeCharacters_cons {c : Byte} {more rest : Bytes}
    (hmore : ∀ d ∈ more, isContinuation d = true)
    (hrest : ∀ d ∈ rest.head?, isContinuation d = false) :
    wholeCharacters (c :: (more ++ rest)) = (c :: more) :: wholeCharacters rest := by
  have hchain : (c :: more).IsChain fun _ b => isContinuation b = true := by
    induction more generalizing c with
    | nil => exact List.isChain_singleton c
    | cons d more ih =>
      obtain ⟨hd, hmore⟩ := List.forall_mem_cons.mp hmore
      exact List.isChain_cons_cons.mpr ⟨hd, ih hmore⟩
  rw [wholeCharacters, ← List.cons_append, List.splitBy_append fun _ _ => hrest,
    List.splitBy_of_isChain (List.cons_ne_nil c more) hchain]
  rfl

/-- A valid text does not begin inside a character. -/
private theorem head?_of_valid {text : Bytes} (h : valid text = true) :
    ∀ d ∈ text.head?, isContinuation d = false := by
  intro d hd
  cases text with
  | nil => cases hd
  | cons c text =>
    obtain rfl := Option.some.inj hd
    by_contra hcont
    simp only [isContinuation, Bool.not_eq_false, Bool.and_eq_true, decide_eq_true_eq] at hcont
    rw [valid.eq_def] at h
    simp only [if_neg (UInt8.not_lt.mpr hcont.1), if_pos hcont.2] at h
    cases h

/-- The continuation bytes of a character are its bytes. -/
private theorem decodeRest_continuations {more : Bytes} (hmore : ∀ d ∈ more, isContinuation d = true)
    (code : ℕ) (taken rest : Bytes) :
    (decodeRest more.length code taken (more ++ rest)).bytes = taken ++ more := by
  induction more generalizing code taken with
  | nil => simp [decodeRest]
  | cons d more ih =>
    obtain ⟨hd, hmore⟩ := List.forall_mem_cons.mp hmore
    rw [List.length_cons, List.cons_append, decodeRest, if_pos hd, ih hmore, List.append_assoc]
    rfl

/-- A valid text begins with a character and goes on with a valid text. -/
private theorem exists_of_valid_cons {c : Byte} {text : Bytes} (h : valid (c :: text) = true) :
    ∃ more rest, text = more ++ rest ∧ (∀ d ∈ more, isContinuation d = true) ∧
      (decode c text).bytes = c :: more ∧ valid rest = true := by
  have hfound (more rest : Bytes) (hmore : ∀ d ∈ more, isContinuation d = true) (code : ℕ)
      (hdecode : decode c (more ++ rest) = decodeRest more.length code [c] (more ++ rest))
      (hvalid : valid rest = true) :
      ∃ more' rest', more ++ rest = more' ++ rest' ∧ (∀ d ∈ more', isContinuation d = true) ∧
        (decode c (more ++ rest)).bytes = c :: more' ∧ valid rest' = true := by
    refine ⟨more, rest, rfl, hmore, ?_, hvalid⟩
    rw [hdecode, decodeRest_continuations hmore]
    rfl
  rw [valid.eq_def] at h
  dsimp only at h
  split_ifs at h with h1 h2 h3 h4 h5
  · exact ⟨[], text, rfl, by simp, by rw [decode, if_pos h1], h⟩
  · split at h
    · next d text =>
      rw [Bool.and_eq_true] at h
      exact hfound [d] text (by simpa using h.1) (c.toNat % 32)
        (by rw [decode, if_neg h1, if_neg h2, if_pos h3]; rfl) h.2
    · cases h
  · split at h
    · next d e text =>
      simp only [Bool.and_eq_true] at h
      exact hfound [d, e] text (by simpa using h.1) (c.toNat % 16)
        (by rw [decode, if_neg h1, if_neg h2, if_neg h3, if_pos h4]; rfl) h.2
    · cases h
  · split at h
    · next d e f text =>
      simp only [Bool.and_eq_true] at h
      exact hfound [d, e, f] text (by simpa [and_assoc] using h.1) (c.toNat % 8)
        (by rw [decode, if_neg h1, if_neg h2, if_neg h3, if_neg h4, if_pos h5]; rfl) h.2
    · cases h

/-- Decoding a valid text finds its characters. -/
theorem map_bytes_chars {text : Bytes} (h : valid text = true) :
    (Utf8.chars text).map Character.bytes = wholeCharacters text := by
  induction hn : text.length using Nat.strongRecOn generalizing text with
  | ind n ih =>
    cases text with
    | nil => rfl
    | cons c text =>
      obtain ⟨more, rest, rfl, hmore, hbytes, hvalid⟩ := exists_of_valid_cons h
      have hdrop : (c :: (more ++ rest)).drop (c :: more).length = rest := by simp
      simp only [List.length_cons, List.length_append] at hn
      rw [chars_cons, List.map_cons, hbytes, hdrop, ih rest.length (by omega) hvalid rfl,
        wholeCharacters_cons hmore (head?_of_valid hvalid)]

end UDPipe.Tokenizer
