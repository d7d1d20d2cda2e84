import UDPipe.Morphodita.PrefixTables
import UDPipe.Library.InPlace

/-!
# The tries of the prefix guesser

The masks of the guesser say where the middle prefixes behind an initial part end: a
position has the bits with which the segment up to it is put together of prefixes. The loops
make one try for each initial part and each segment that has a bit, in their order.
-/

namespace UDPipe.Morphodita

/-! ### Initial parts and segments -/

/-- The part of the form between two positions. -/
def segment (form : Bytes) (t : ℕ × ℕ) : Bytes := (form.drop t.1).take (t.2 - t.1)

/-- A text is put together of prefixes with a bit. -/
inductive Splits (find : Bytes → Option ℕ) (bit : ℕ) : Bytes → Prop
  | nil : Splits find bit []
  | append {text piece : Bytes} {mask : ℕ} : Splits find bit text → piece ≠ [] →
      find piece = some mask → mask.testBit bit = true → Splits find bit (text ++ piece)

namespace MorphoPrefixGuesser

variable (guesser : MorphoPrefixGuesser) (dictionary : Bytes → List (Bytes × Bytes))
  (form : Bytes)

/-- The mask of an initial part. -/
abbrev maskOf (initial : ℕ) : Option ℕ :=
  initialMask guesser.tagFilters (maskAt guesser.prefixesInitial) form initial

/-- The initial part and the middle prefixes of the segment behind it have a bit in common. -/
def HasBit (t : ℕ × ℕ) (bit : ℕ) : Prop :=
  (∃ mask, guesser.maskOf form t.1 = some mask ∧ mask.testBit bit = true) ∧
    Splits (maskAt guesser.prefixesMiddle) bit (segment form t)

/-- A matching initial part and a segment behind it, with something of the form left. -/
def Tried (t : ℕ × ℕ) : Prop :=
  t.1 < t.2 ∧ t.2 < form.length ∧ ∃ bit, guesser.HasBit form t bit

open Classical in
/-- All initial parts with their segments, from the shorter ones to the longer ones. -/
noncomputable def tries : List (ℕ × ℕ) :=
  (List.range form.length).flatMap fun initial =>
    ((List.range form.length).filter fun middle => guesser.Tried form (initial, middle)).map
      fun middle => (initial, middle)

/-- A tag filter of the mask matches a tag. -/
def Matches (t : ℕ × ℕ) (tag : Bytes) : Prop :=
  ∃ filter tagFilter, guesser.tagFilters[filter]? = some tagFilter ∧
    guesser.HasBit form t filter ∧ tagFilter.matchesTag tag = true

open Classical in
/-- The analyses of a string that match, with the segment in front of the lemma. -/
noncomputable def analysesOf (str : Bytes) (t : ℕ × ℕ) : List (Bytes × Bytes) :=
  ((dictionary str).filter fun found => guesser.Matches form t found.2).map
    fun found => (segment form t ++ found.1, found.2)

end MorphoPrefixGuesser

/-! ### Segments -/

/-- A segment has its length. -/
theorem segment_length {form : Bytes} {t : ℕ × ℕ} (h : t.2 ≤ form.length) :
    (segment form t).length = t.2 - t.1 := by
  rw [segment, List.length_take, List.length_drop]
  omega

/-- A segment is put together of the parts before and behind a position. -/
theorem segment_append (form : Bytes) {a b c : ℕ} (hab : a ≤ b) (hbc : b ≤ c) :
    segment form (a, b) ++ segment form (b, c) = segment form (a, c) := by
  simp only [segment]
  have hsplit := @List.take_append_drop _ (b - a) ((form.drop a).take (c - a))
  rw [List.take_take, List.drop_take, List.drop_drop, min_eq_left (by omega)] at hsplit
  have hstart : a + (b - a) = b := by omega
  have hlength : c - a - (b - a) = c - b := by omega
  rwa [hstart, hlength] at hsplit

/-- The last of the prefixes that a segment is put together of. -/
theorem splits_segment_iff {find : Bytes → Option ℕ} {bit : ℕ} {form : Bytes} {a c : ℕ}
    (hac : a < c) (hc : c ≤ form.length) :
    Splits find bit (segment form (a, c)) ↔ ∃ b, a ≤ b ∧ b < c ∧
      Splits find bit (segment form (a, b)) ∧
        ∃ mask, find (segment form (b, c)) = some mask ∧ mask.testBit bit = true := by
  constructor
  · intro h
    have hlength := segment_length (show (a, c).2 ≤ form.length from hc)
    generalize hsegment : segment form (a, c) = whole at h hlength
    cases h with
    | nil =>
      simp only [List.length_nil] at hlength
      omega
    | @append text piece mask htext hpiece hfind hbit =>
      have hpos := List.length_pos_of_ne_nil hpiece
      rw [List.length_append] at hlength
      have hb : a + text.length ≤ c := by omega
      have hsplit := (segment_append form (by omega : a ≤ a + text.length) hb).trans hsegment
      have hleft := segment_length
        (show (a, a + text.length).2 ≤ form.length from hb.trans hc)
      obtain ⟨htext', hpiece'⟩ := List.append_inj hsplit (by omega)
      exact ⟨a + text.length, by omega, by omega, htext'.symm ▸ htext, mask, hpiece'.symm ▸ hfind,
        hbit⟩
  · rintro ⟨b, hab, hbc, htext, mask, hfind, hbit⟩
    rw [← segment_append form hab hbc.le]
    refine .append htext (fun hnil => ?_) hfind hbit
    have hlength := segment_length (show (b, c).2 ≤ form.length from hc)
    rw [hnil, List.length_nil] at hlength
    omega

/-- A segment that is not found, with the text behind it. -/
theorem PrefixClosed.find_segment_eq_none {find : Bytes → Option ℕ} (h : PrefixClosed find)
    {form : Bytes} {a b c : ℕ} (hab : a < b) (hbc : b ≤ c) (hc : c ≤ form.length)
    (hnone : find (segment form (a, b)) = none) : find (segment form (a, c)) = none := by
  have hlength := segment_length (show (a, b).2 ≤ form.length from hbc.trans hc)
  have hne : segment form (a, b) ≠ [] := by
    intro hnil
    rw [hnil, List.length_nil] at hlength
    omega
  by_contra hsome
  have hfound := h _ (segment form (b, c)) hne
  rw [segment_append form hab.le hbc, hnone] at hfound
  exact absurd (hfound (Option.isSome_iff_ne_none.mpr hsome)) (by simp)

namespace MorphoPrefixGuesser

/-! ### Masks -/

/-- Missing masks are zero. -/
theorem getD_resize {masks : List ℕ} {size : ℕ} (h : masks.length ≤ size) (j : ℕ) :
    (resize masks size).getD j 0 = masks.getD j 0 := by
  rw [resize, List.take_of_length_le h, List.getD_eq_getElem?_getD, List.getD_eq_getElem?_getD]
  rcases lt_or_ge j masks.length with hlt | hge
  · rw [List.getElem?_append_left hlt]
  · rw [List.getElem?_append_right hge, List.getElem?_replicate, List.getElem?_eq_none hge]
    split <;> rfl

/-- A resized list of masks has its size. -/
theorem length_resize (masks : List ℕ) (size : ℕ) : (resize masks size).length = size := by
  simp only [resize, List.length_append, List.length_take, List.length_replicate]
  omega

/-- Bits are added to the mask of a position, which may be behind the masks. -/
theorem set_resize_spec {masks extended : List ℕ} {i middle mask size : ℕ}
    (h : extended = (if i + 1 > masks.length then resize masks (i + 1) else masks).set i
      ((if i + 1 > masks.length then resize masks (i + 1) else masks).getD i 0 |||
        ((if i + 1 > masks.length then resize masks (i + 1) else masks).getD middle 0 &&& mask)))
    (hi : i < size) (hlength : masks.length ≤ size) :
    extended.length ≤ size ∧ ∀ j, extended.getD j 0 =
      if i = j then masks.getD i 0 ||| (masks.getD middle 0 &&& mask) else masks.getD j 0 := by
  obtain ⟨grown, hgrown⟩ : ∃ grown,
      grown = if i + 1 > masks.length then resize masks (i + 1) else masks := ⟨_, rfl⟩
  rw [← hgrown] at h
  have hgetD : ∀ j, grown.getD j 0 = masks.getD j 0 := by
    intro j
    rw [hgrown]
    split
    · exact getD_resize (by omega) j
    · rfl
  have hgrownLength : i < grown.length ∧ grown.length ≤ size := by
    rw [hgrown]
    split
    · rw [length_resize]
      omega
    · omega
  refine ⟨by rw [h, List.length_set]; exact hgrownLength.2, fun j => ?_⟩
  rw [h, List.getD_eq_getElem?_getD, List.getElem?_set, hgetD, hgetD]
  split
  · rw [if_pos hgrownLength.1, Option.getD_some]
  · rw [← List.getD_eq_getElem?_getD, hgetD]

/-- The masks get the bits of the middle prefixes that begin at a position. -/
theorem extendMasks_spec {find : Bytes → Option ℕ} (hclosed : PrefixClosed find) {form : Bytes}
    {middle count i : ℕ} {masks : List ℕ} (hi : middle < i) (hcount : i + count ≤ form.length)
    (hlength : masks.length ≤ form.length) :
    (extendMasks find form middle count i masks).length ≤ form.length ∧
      ∀ j bit, (((extendMasks find form middle count i masks).getD j 0).testBit bit = true ↔
        (masks.getD j 0).testBit bit = true ∨
          i ≤ j ∧ j < i + count ∧ (masks.getD middle 0).testBit bit = true ∧
            ∃ mask, find (segment form (middle, j)) = some mask ∧ mask.testBit bit = true) := by
  induction count generalizing i masks with
  | zero =>
    refine ⟨hlength, fun j bit => ?_⟩
    rw [extendMasks]
    constructor
    · exact .inl
    · rintro (hbit | ⟨h₁, h₂, -⟩)
      · exact hbit
      · omega
  | succ count ih =>
    rw [extendMasks]
    cases hfind : find ((form.drop middle).take (i - middle)) with
    | none =>
      refine ⟨hlength, fun j bit => ⟨.inl, ?_⟩⟩
      rintro (hbit | ⟨h₁, h₂, -, mask, hmask, -⟩)
      · exact hbit
      · rw [hclosed.find_segment_eq_none hi h₁ (by omega) hfind] at hmask
        cases hmask
    | some mask =>
      dsimp only
      have hmask : find (segment form (middle, i)) = some mask := hfind
      by_cases hzero : mask = 0
      · rw [if_neg (not_not.mpr hzero)]
        obtain ⟨hlast, hbits⟩ := ih (by omega : middle < i + 1) (by omega) hlength
        refine ⟨hlast, fun j bit => (hbits j bit).trans (or_congr_right ?_)⟩
        constructor
        · rintro ⟨h₁, h₂, hbit, found⟩
          exact ⟨by omega, by omega, hbit, found⟩
        · rintro ⟨h₁, h₂, hbit, mask', hmask', hbit'⟩
          refine ⟨?_, by omega, hbit, mask', hmask', hbit'⟩
          rcases Nat.eq_or_lt_of_le h₁ with rfl | hlt
          · rw [hmask, Option.some.injEq] at hmask'
            rw [← hmask', hzero] at hbit'
            simp at hbit'
          · exact hlt
      · rw [if_pos hzero]
        obtain ⟨extended, hextended⟩ : ∃ extended, extended =
            (if i + 1 > masks.length then resize masks (i + 1) else masks).set i
              ((if i + 1 > masks.length then resize masks (i + 1) else masks).getD i 0 |||
                ((if i + 1 > masks.length then resize masks (i + 1) else masks).getD middle 0 &&&
                  mask)) := ⟨_, rfl⟩
        rw [← hextended]
        obtain ⟨hextendedLength, hset⟩ := set_resize_spec hextended (by omega) hlength
        obtain ⟨hlast, hbits⟩ := ih (by omega : middle < i + 1) (by omega) hextendedLength
        refine ⟨hlast, fun j bit => (hbits j bit).trans ?_⟩
        rw [hset middle, if_neg (by omega), hset j]
        by_cases hj : i = j
        · subst hj
          rw [if_pos rfl, Nat.testBit_or, Nat.testBit_and, Bool.or_eq_true, Bool.and_eq_true]
          constructor
          · rintro ((hbit | ⟨hbit, hbit'⟩) | ⟨h₁, -⟩)
            · exact .inl hbit
            · exact .inr ⟨le_rfl, by omega, hbit, mask, hmask, hbit'⟩
            · omega
          · rintro (hbit | ⟨-, -, hbit, mask', hmask', hbit'⟩)
            · exact .inl (.inl hbit)
            · rw [hmask, Option.some.injEq] at hmask'
              exact .inl (.inr ⟨hbit, hmask' ▸ hbit'⟩)
        · rw [if_neg hj]
          refine or_congr_right ?_
          constructor
          · rintro ⟨h₁, h₂, found⟩
            exact ⟨by omega, by omega, found⟩
          · rintro ⟨h₁, h₂, found⟩
            exact ⟨by omega, by omega, found⟩

variable {guesser : MorphoPrefixGuesser} {dictionary : Bytes → List (Bytes × Bytes)}
  {form : Bytes}

/-- Before the loop comes to a position, the masks have the bits of all middle prefixes that
begin at the positions before. -/
structure MasksAt (guesser : MorphoPrefixGuesser) (form : Bytes) (initial middle : ℕ)
    (masks : List ℕ) : Prop where
  initial_le : initial ≤ middle
  middle_le : middle ≤ form.length
  length_le : masks.length ≤ form.length
  testBit_iff : ∀ j bit, initial ≤ j → j < form.length →
    ((masks.getD j 0).testBit bit = true ↔
      j = initial ∧ guesser.HasBit form (initial, initial) bit ∨
        ∃ k, initial ≤ k ∧ k < middle ∧ k < j ∧ guesser.HasBit form (initial, k) bit ∧
          ∃ mask, maskAt guesser.prefixesMiddle (segment form (k, j)) = some mask ∧
            mask.testBit bit = true)

/-- The last of the middle prefixes of a segment. -/
theorem hasBit_iff {initial j bit : ℕ} (hlt : initial < j) (hj : j ≤ form.length) :
    guesser.HasBit form (initial, j) bit ↔ ∃ k, initial ≤ k ∧ k < j ∧
      guesser.HasBit form (initial, k) bit ∧
        ∃ mask, maskAt guesser.prefixesMiddle (segment form (k, j)) = some mask ∧
          mask.testBit bit = true := by
  rw [HasBit, splits_segment_iff hlt hj]
  constructor
  · rintro ⟨hinitial, k, hk, hkj, hsplits, hfind⟩
    exact ⟨k, hk, hkj, ⟨hinitial, hsplits⟩, hfind⟩
  · rintro ⟨k, hk, hkj, ⟨hinitial, hsplits⟩, hfind⟩
    exact ⟨hinitial, k, hk, hkj, hsplits, hfind⟩

namespace MasksAt

variable {initial middle : ℕ} {masks : List ℕ}

/-- The masks up to the position are complete. -/
theorem hasBit_iff (h : MasksAt guesser form initial middle masks) {j bit : ℕ}
    (hinitial : initial ≤ j) (hj : j ≤ middle) (hlt : j < form.length) :
    (masks.getD j 0).testBit bit = true ↔ guesser.HasBit form (initial, j) bit := by
  rw [h.testBit_iff j bit hinitial hlt]
  rcases Nat.eq_or_lt_of_le hinitial with rfl | hpos
  · constructor
    · rintro (⟨-, hbit⟩ | ⟨k, h₁, -, h₂, -⟩)
      · exact hbit
      · omega
    · exact fun hbit => .inl ⟨rfl, hbit⟩
  · rw [MorphoPrefixGuesser.hasBit_iff hpos hlt.le]
    constructor
    · rintro (⟨rfl, -⟩ | ⟨k, h₁, -, h₂, hk⟩)
      · omega
      · exact ⟨k, h₁, h₂, hk⟩
    · rintro ⟨k, h₁, h₂, hk⟩
      exact .inr ⟨k, h₁, by omega, h₂, hk⟩

/-- Nothing begins at a position without a mask. -/
theorem skip (h : MasksAt guesser form initial middle masks) (hmiddle : middle < form.length)
    (hzero : masks.getD middle 0 = 0) : MasksAt guesser form initial (middle + 1) masks := by
  have hnone : ∀ bit, ¬ guesser.HasBit form (initial, middle) bit := by
    intro bit hbit
    rw [← h.hasBit_iff h.initial_le le_rfl hmiddle, hzero] at hbit
    simp at hbit
  refine ⟨h.initial_le.trans (Nat.le_succ _), hmiddle, h.length_le, fun j bit hj hlt => ?_⟩
  rw [h.testBit_iff j bit hj hlt]
  refine or_congr_right ⟨?_, ?_⟩
  · rintro ⟨k, h₁, h₂, h₃, hk⟩
    exact ⟨k, h₁, by omega, h₃, hk⟩
  · rintro ⟨k, h₁, h₂, h₃, hk, hfind⟩
    rcases Nat.lt_succ_iff_lt_or_eq.mp h₂ with hlt | rfl
    · exact ⟨k, h₁, hlt, h₃, hk, hfind⟩
    · exact absurd hk (hnone bit)

/-- The middle prefixes that begin at the position are added. -/
theorem extend (hclosed : PrefixClosed (maskAt guesser.prefixesMiddle))
    (h : MasksAt guesser form initial middle masks) (hmiddle : middle < form.length) :
    MasksAt guesser form initial (middle + 1)
      (extendMasks (maskAt guesser.prefixesMiddle) form middle (form.length - (middle + 1))
        (middle + 1) masks) := by
  obtain ⟨hlength, hbits⟩ := extendMasks_spec hclosed (Nat.lt_succ_self middle)
    (by omega : middle + 1 + (form.length - (middle + 1)) ≤ form.length) h.length_le
  refine ⟨h.initial_le.trans (Nat.le_succ _), hmiddle, hlength, fun j bit hj hlt => ?_⟩
  rw [hbits j bit, h.testBit_iff j bit hj hlt, h.hasBit_iff h.initial_le le_rfl hmiddle,
    or_assoc]
  refine or_congr_right ⟨?_, ?_⟩
  · rintro (⟨k, h₁, h₂, h₃, hk⟩ | ⟨h₁, -, hbit, hfind⟩)
    · exact ⟨k, h₁, by omega, h₃, hk⟩
    · exact ⟨middle, h.initial_le, by omega, by omega, hbit, hfind⟩
  · rintro ⟨k, h₁, h₂, h₃, hk, hfind⟩
    rcases Nat.lt_succ_iff_lt_or_eq.mp h₂ with hlt' | rfl
    · exact .inl ⟨k, h₁, hlt', h₃, hk, hfind⟩
    · exact .inr ⟨h₃, by omega, hk, hfind⟩

/-- No segment ends behind the last mask. -/
theorem not_hasBit (h : MasksAt guesser form initial middle masks)
    (hlength : masks.length ≤ middle) (hinitial : initial < masks.length) {j bit : ℕ}
    (hj : middle ≤ j) (hlt : j < form.length) : ¬ guesser.HasBit form (initial, j) bit := by
  induction j using Nat.strong_induction_on with
  | _ j ih =>
    intro hbit
    obtain ⟨k, h₁, h₂, hk, hfind⟩ :=
      (MorphoPrefixGuesser.hasBit_iff (by omega) hlt.le).mp hbit
    rcases lt_or_ge k middle with hkm | hkm
    · have hmask := (h.testBit_iff j bit (by omega) hlt).mpr (.inr ⟨k, h₁, hkm, h₂, hk, hfind⟩)
      rw [List.getD_eq_default _ _ (by omega)] at hmask
      simp at hmask
    · exact ih k h₂ hkm (by omega) hk

end MasksAt

/-! ### The loops -/

/-- The copy of the form is not made yet or as long as the form. -/
def HasCopy (form : Bytes) (work : PrefixWork) : Prop :=
  work.formTmp = [] ∨ work.formTmp.length = form.length

/-- What a try does. -/
noncomputable def tryStep (guesser : MorphoPrefixGuesser)
    (dictionary : Bytes → List (Bytes × Bytes)) (form : Bytes) (work : PrefixWork) (t : ℕ × ℕ) :
    PrefixWork :=
  let formTmp :=
    if t.1 ≠ 0 then
      InPlace.write (if work.formTmp = [] then form else work.formTmp)
        (t.2 - t.1, form.take t.1)
    else work.formTmp
  let str := (if t.1 ≠ 0 then formTmp else form).drop (t.2 - t.1)
  { formTmp, passed := work.passed ++ [str]
    lemmas := work.lemmas ++ guesser.analysesOf dictionary form str t }

/-- A tag is kept if it matches a filter of the try. -/
theorem keeps_iff {t : ℕ × ℕ} {mask : ℕ}
    (hmask : ∀ bit, mask.testBit bit = true ↔ guesser.HasBit form t bit) (tag : Bytes) :
    keeps guesser.tagFilters mask tag = true ↔ guesser.Matches form t tag := by
  simp only [keeps, List.any_eq_true, Prod.exists, List.mem_zipIdx_iff_getElem?, Bool.and_eq_true,
    hmask, Matches]
  constructor
  · rintro ⟨tagFilter, filter, hget, hbit, htag⟩
    exact ⟨filter, tagFilter, hget, hbit, htag⟩
  · rintro ⟨filter, tagFilter, hget, hbit, htag⟩
    exact ⟨tagFilter, filter, hget, hbit, htag⟩

/-- A lemma that is kept in its place and one that is moved are changed in the same way. -/
theorem filterLemma_eq (tagFilters : List TagFilter) (mask : ℕ) (text : Bytes) :
    filterLemma tagFilters mask text =
      InPlace.compactStep (fun found => keeps tagFilters mask found.2)
        fun found => (text ++ found.1, found.2) := by
  funext state i
  rw [filterLemma, InPlace.compactStep]
  cases hget : state.1[i]? with
  | none => rfl
  | some found =>
    dsimp only
    by_cases hkeep : keeps tagFilters mask found.2 = true
    · rw [if_pos hkeep, if_pos hkeep]
      by_cases hi : i = state.2
      · rw [if_pos hi, ← hi, List.modify_eq_set_getElem?, hget]
        rfl
      · rw [if_neg hi]
    · rw [if_neg hkeep, if_neg hkeep]

/-- A try keeps the copy. -/
theorem HasCopy.tryStep {work : PrefixWork} (h : HasCopy form work) {t : ℕ × ℕ}
    (hlt : t.1 < t.2) (hle : t.2 ≤ form.length) :
    HasCopy form (tryStep guesser dictionary form work t) := by
  rw [MorphoPrefixGuesser.tryStep]
  by_cases hzero : t.1 = 0
  · simpa [HasCopy, hzero] using h
  · have hlength : (if work.formTmp = [] then form else work.formTmp).length = form.length := by
      split
      · rfl
      · rename_i hne
        exact h.resolve_left hne
    have htake : (form.take t.1).length = t.1 := List.length_take_of_le (by omega)
    right
    simp only [hzero, ne_eq, not_false_eq_true, if_true]
    rw [InPlace.length_write, hlength]
    rw [htake, hlength]
    omega

/-- The new lemmas are filtered in place, and those left behind are erased. -/
theorem filterLemma_foldl (dictionary : Bytes → List (Bytes × Bytes)) {t : ℕ × ℕ} {mask : ℕ}
    (hmask : ∀ bit, mask.testBit bit = true ↔ guesser.HasBit form t bit)
    (lemmas : List (Bytes × Bytes)) (str : Bytes) :
    ∃ l, (List.range' lemmas.length ((lemmas ++ dictionary str).length - lemmas.length)).foldl
        (filterLemma guesser.tagFilters mask (segment form t))
        (lemmas ++ dictionary str, lemmas.length) =
      (lemmas ++ guesser.analysesOf dictionary form str t ++ l,
        (lemmas ++ guesser.analysesOf dictionary form str t).length) := by
  obtain ⟨l, hl, -⟩ := InPlace.foldl_compactStep
    (fun found => keeps guesser.tagFilters mask found.2)
    (fun found => (segment form t ++ found.1, found.2)) lemmas (dictionary str)
  have hfilter : ((dictionary str).filter fun found => keeps guesser.tagFilters mask found.2).map
      (fun found => (segment form t ++ found.1, found.2)) =
        guesser.analysesOf dictionary form str t := by
    rw [analysesOf]
    congr 1
    exact List.filter_congr fun found _ => Bool.eq_iff_iff.mpr
      ((keeps_iff hmask found.2).trans (@decide_eq_true_iff _ (_)).symm)
  refine ⟨l, ?_⟩
  rw [List.length_append, Nat.add_sub_cancel_left, filterLemma_eq, hl, hfilter]

/-- What the code does for a try. -/
theorem tryForm_eq {work : PrefixWork} (hcopy : HasCopy form work) {t : ℕ × ℕ} {mask : ℕ}
    (hlt : t.1 < t.2) (hle : t.2 ≤ form.length)
    (hmask : ∀ bit, mask.testBit bit = true ↔ guesser.HasBit form t bit) :
    tryForm guesser.tagFilters dictionary form t.1 t.2 mask work =
      tryStep guesser dictionary form work t := by
  have htake : (form.take t.1).length = t.1 := List.length_take_of_le (by omega)
  have hwhole : ∀ source : Bytes, source.length = form.length →
      (source.drop (t.2 - t.1)).take (form.length - t.2 + t.1) = source.drop (t.2 - t.1) := by
    intro source hsource
    refine List.take_of_length_le ?_
    rw [List.length_drop]
    omega
  have herase : ∀ first l : List (Bytes × Bytes),
      (if first.length < (first ++ l).length then (first ++ l).take first.length
        else first ++ l) = first := by
    intro first l
    split
    · exact List.take_left
    · rename_i hnot
      rw [List.length_append] at hnot
      rw [List.length_eq_zero_iff.mp (by omega : l.length = 0), List.append_nil]
  have hsegment : (form.drop t.1).take (t.2 - t.1) = segment form t := rfl
  rw [tryForm, tryStep, hsegment]
  by_cases hzero : t.1 = 0
  · obtain ⟨l, hl⟩ := filterLemma_foldl dictionary hmask work.lemmas
      (form.drop (t.2 - t.1))
    simp only [if_neg (not_not.mpr hzero), hwhole form rfl, hl, herase]
  · obtain ⟨copied, hcopied⟩ : ∃ copied, copied =
        InPlace.write (if work.formTmp = [] then form else work.formTmp)
          (t.2 - t.1, form.take t.1) := ⟨_, rfl⟩
    have hwrite : (if work.formTmp = [] then form else work.formTmp).take (t.2 - t.1) ++
        form.take t.1 ++ (if work.formTmp = [] then form else work.formTmp).drop t.2 =
          copied := by
      rw [hcopied, InPlace.write, htake, Nat.sub_add_cancel hlt.le]
    have hlength : copied.length = form.length := by
      have hsource : (if work.formTmp = [] then form else work.formTmp).length =
          form.length := by
        split
        · rfl
        · rename_i hne
          exact hcopy.resolve_left hne
      rw [hcopied, InPlace.length_write, hsource]
      rw [htake, hsource]
      omega
    obtain ⟨l, hl⟩ := filterLemma_foldl dictionary hmask work.lemmas
      (copied.drop (t.2 - t.1))
    simp only [if_pos hzero, hwrite, ← hcopied, hwhole copied hlength, hl, herase]

open Classical in
/-- The segments behind an initial part that end at a position or behind it. -/
noncomputable def triesFrom (guesser : MorphoPrefixGuesser) (form : Bytes)
    (initial middle : ℕ) : List (ℕ × ℕ) :=
  ((List.range' middle (form.length - middle)).filter
    fun middle => guesser.Tried form (initial, middle)).map fun middle => (initial, middle)

/-- A tried segment is the next one. -/
theorem triesFrom_of_tried {initial middle : ℕ} (h : guesser.Tried form (initial, middle)) :
    guesser.triesFrom form initial middle =
      (initial, middle) :: guesser.triesFrom form initial (middle + 1) := by
  have hlt : middle < form.length := h.2.1
  obtain ⟨count, hcount⟩ : ∃ count, form.length - middle = count + 1 :=
    ⟨form.length - (middle + 1), by omega⟩
  have hrest : form.length - (middle + 1) = count := by omega
  rw [triesFrom, hcount, List.range'_succ, List.filter_cons_of_pos (by simpa using h),
    List.map_cons, triesFrom, hrest]

/-- Another segment is left out. -/
theorem triesFrom_of_not_tried {initial middle : ℕ}
    (h : ¬ guesser.Tried form (initial, middle)) :
    guesser.triesFrom form initial middle = guesser.triesFrom form initial (middle + 1) := by
  rcases lt_or_ge middle form.length with hlt | hge
  · obtain ⟨count, hcount⟩ : ∃ count, form.length - middle = count + 1 :=
      ⟨form.length - (middle + 1), by omega⟩
    have hrest : form.length - (middle + 1) = count := by omega
    rw [triesFrom, hcount, List.range'_succ, List.filter_cons_of_neg (by simpa using h),
      triesFrom, hrest]
  · have h₁ : form.length - middle = 0 := by omega
    have h₂ : form.length - (middle + 1) = 0 := by omega
    rw [triesFrom, triesFrom, h₁, h₂, List.range'_zero, List.range'_zero]

/-- Without further segments there are no tries. -/
theorem triesFrom_eq_nil {initial middle : ℕ}
    (h : ∀ j, middle ≤ j → ¬ guesser.Tried form (initial, j)) :
    guesser.triesFrom form initial middle = [] := by
  rw [triesFrom, List.filter_eq_nil_iff.mpr, List.map_nil]
  intro j hj
  simpa using h j (List.mem_range'_1.mp hj).1

/-- The loop over the ends of the middle prefixes makes the tries of an initial part. -/
theorem middleLoop_spec (dictionary : Bytes → List (Bytes × Bytes))
    (hclosed : PrefixClosed (maskAt guesser.prefixesMiddle))
    {initial fuel middle : ℕ} {masks : List ℕ} {work : PrefixWork}
    (h : MasksAt guesser form initial middle masks) (hinitial : initial < masks.length)
    (hfuel : form.length < fuel + middle) (hcopy : HasCopy form work) :
    ∃ masks', middleLoop guesser.tagFilters (maskAt guesser.prefixesMiddle) dictionary form
        initial fuel middle masks work = some (masks', (guesser.triesFrom form initial middle).foldl
          (tryStep guesser dictionary form) work) ∧
      HasCopy form ((guesser.triesFrom form initial middle).foldl
        (tryStep guesser dictionary form) work) := by
  induction fuel generalizing middle masks work with
  | zero =>
    have := h.middle_le
    omega
  | succ fuel ih =>
    rw [middleLoop]
    by_cases hlength : middle < masks.length
    · have hmiddle : middle < form.length := lt_of_lt_of_le hlength h.length_le
      rw [if_pos hlength]
      by_cases hzero : masks.getD middle 0 = 0
      · have hnot : ¬ guesser.Tried form (initial, middle) := by
          rintro ⟨-, -, bit, hbit⟩
          rw [← h.hasBit_iff h.initial_le le_rfl hmiddle, hzero] at hbit
          simp at hbit
        rw [if_pos hzero, triesFrom_of_not_tried hnot]
        exact ih (h.skip hmiddle hzero) hinitial (by omega) hcopy
      · have hnext := h.extend hclosed hmiddle
        obtain ⟨extended, hextended⟩ : ∃ extended, extended =
            extendMasks (maskAt guesser.prefixesMiddle) form middle (form.length - (middle + 1))
              (middle + 1) masks := ⟨_, rfl⟩
        rw [if_neg hzero]
        simp only [← hextended] at hnext ⊢
        obtain ⟨bit, hbit⟩ := Nat.exists_testBit_of_ne_zero hzero
        have hhas : guesser.HasBit form (initial, middle) bit :=
          (h.hasBit_iff h.initial_le le_rfl hmiddle).mp hbit
        have hmask : ∀ bit, (extended.getD middle 0).testBit bit = true ↔
            guesser.HasBit form (initial, middle) bit :=
          fun bit => hnext.hasBit_iff h.initial_le (Nat.le_succ _) hmiddle
        have hlonger : middle < extended.length := by
          by_contra hge
          have hlast := (hmask bit).mpr hhas
          rw [List.getD_eq_default _ _ (not_lt.mp hge)] at hlast
          simp at hlast
        rcases Nat.eq_or_lt_of_le h.initial_le with rfl | hlt
        · have hnot : ¬ guesser.Tried form (initial, initial) := fun htried =>
            lt_irrefl _ htried.1
          rw [if_neg (by omega), triesFrom_of_not_tried hnot]
          exact ih hnext (by omega) (by omega) hcopy
        · have htried : guesser.Tried form (initial, middle) := ⟨hlt, hmiddle, bit, hhas⟩
          rw [if_pos ⟨hlt, hmiddle⟩, triesFrom_of_tried htried, List.foldl_cons,
            tryForm_eq (t := (initial, middle)) hcopy hlt hmiddle.le hmask]
          exact ih hnext (by omega) (by omega) (hcopy.tryStep hlt hmiddle.le)
    · have hnot : ∀ j, middle ≤ j → ¬ guesser.Tried form (initial, j) := by
        rintro j hj ⟨-, hlt, bit, hbit⟩
        exact h.not_hasBit (not_lt.mp hlength) hinitial hj hlt hbit
      rw [if_neg hlength, triesFrom_eq_nil hnot]
      exact ⟨masks, rfl, hcopy⟩

/-- The tries are those of all beginnings. -/
theorem tries_eq (guesser : MorphoPrefixGuesser) (form : Bytes) :
    guesser.tries form = (List.range' 0 form.length).flatMap fun initial =>
      guesser.triesFrom form initial initial := by
  rw [tries, ← List.range_eq_range']
  refine List.flatMap_congr fun initial hinitial => ?_
  have hlt : initial < form.length := List.mem_range.mp hinitial
  have hsplit := @List.range'_append_1 0 initial (form.length - initial)
  rw [Nat.zero_add, Nat.add_sub_cancel' hlt.le, ← List.range_eq_range',
    ← List.range_eq_range'] at hsplit
  rw [triesFrom, ← hsplit, List.filter_append, List.filter_eq_nil_iff.mpr, List.nil_append]
  intro middle hmiddle
  have hnot : ¬ guesser.Tried form (initial, middle) := fun htried =>
    absurd htried.1 (not_lt.mpr (List.mem_range.mp hmiddle).le)
  simpa using hnot

/-- An initial part that is not found, and the longer ones. -/
theorem initialMask_eq_none (hclosed : PrefixClosed (maskAt guesser.prefixesInitial))
    {initial i : ℕ} (hle : initial ≤ i) (hlt : initial < form.length)
    (h : guesser.maskOf form initial = none) : guesser.maskOf form i = none := by
  have hpos : initial ≠ 0 := by
    rintro rfl
    rw [maskOf, initialMask, if_pos rfl] at h
    cases h
  rw [maskOf, initialMask, if_neg hpos] at h
  rw [maskOf, initialMask, if_neg (by omega)]
  by_contra hsome
  have hsplit := @List.take_append_drop _ initial (form.take i)
  rw [List.take_take, min_eq_left hle] at hsplit
  have hne : form.take initial ≠ [] := by
    intro hnil
    have hlength : (form.take initial).length = initial := List.length_take_of_le hlt.le
    rw [hnil, List.length_nil] at hlength
    exact hpos hlength.symm
  have hfound := hclosed _ ((form.take i).drop initial) hne
  rw [hsplit, h] at hfound
  exact absurd (hfound (Option.isSome_iff_ne_none.mpr hsome)) (by simp)

/-- Before the loop over the middle prefixes there is the mask of the initial part alone. -/
theorem masksAt_initial {initial mask : ℕ} (hlt : initial < form.length)
    (hmask : guesser.maskOf form initial = some mask) (masks : List ℕ) :
    MasksAt guesser form initial initial (resize masks initial ++ [mask]) := by
  have hlength := length_resize masks initial
  refine ⟨le_rfl, hlt.le, ?_, fun j bit hj _ => ?_⟩
  · rw [List.length_append, hlength, List.length_singleton]
    omega
  · have hempty : segment form (initial, initial) = [] := by simp [segment]
    have hhas : guesser.HasBit form (initial, initial) bit ↔ mask.testBit bit = true := by
      rw [HasBit, hempty, and_iff_left .nil]
      simp [hmask]
    rw [List.getD_eq_getElem?_getD, List.getElem?_append_right (by omega), hlength, hhas]
    rcases Nat.eq_or_lt_of_le hj with rfl | hgt
    · rw [Nat.sub_self, List.getElem?_cons_zero, Option.getD_some]
      constructor
      · exact fun hbit => .inl ⟨rfl, hbit⟩
      · rintro (⟨-, hbit⟩ | ⟨k, h₁, h₂, -⟩)
        · exact hbit
        · omega
    · rw [List.getElem?_eq_none (by simp; omega)]
      constructor
      · intro hbit
        simp at hbit
      · rintro (⟨rfl, -⟩ | ⟨k, h₁, h₂, -⟩)
        · exact absurd hgt (lt_irrefl _)
        · omega

/-- The loop over the initial parts makes their tries. -/
theorem initialLoop_spec (hinitial : PrefixClosed (maskAt guesser.prefixesInitial))
    (hmiddle : PrefixClosed (maskAt guesser.prefixesMiddle)) {count initial : ℕ}
    {masks : List ℕ} {work : PrefixWork} (hcount : initial + count = form.length)
    (hcopy : HasCopy form work) :
    initialLoop guesser.tagFilters (maskAt guesser.prefixesInitial)
        (maskAt guesser.prefixesMiddle) dictionary form count initial masks work =
      some (((List.range' initial count).flatMap fun initial =>
        guesser.triesFrom form initial initial).foldl (tryStep guesser dictionary form) work) := by
  induction count generalizing initial masks work with
  | zero => rfl
  | succ count ih =>
    have hnil : ∀ i, (∀ mask, guesser.maskOf form i = some mask → mask = 0) →
        guesser.triesFrom form i i = [] := by
      intro i hnone
      refine triesFrom_eq_nil fun j _ htried => ?_
      obtain ⟨-, -, bit, ⟨mask, hmask, hbit⟩, -⟩ := htried
      rw [hnone mask hmask, Nat.zero_testBit] at hbit
      cases hbit
    rw [initialLoop]
    cases hmask : initialMask guesser.tagFilters (maskAt guesser.prefixesInitial) form initial with
    | none =>
      replace hmask : guesser.maskOf form initial = none := hmask
      have hall : (List.range' initial (count + 1)).flatMap
          (fun initial => guesser.triesFrom form initial initial) = [] := by
        refine List.flatMap_eq_nil_iff.mpr fun i hi => hnil i fun mask hmask' => ?_
        rw [initialMask_eq_none hinitial (List.mem_range'_1.mp hi).1 (by omega) hmask] at hmask'
        cases hmask'
      rw [hall, List.foldl_nil]
    | some mask =>
      replace hmask : guesser.maskOf form initial = some mask := hmask
      dsimp only
      rw [List.range'_succ, List.flatMap_cons, List.foldl_append]
      by_cases hzero : mask = 0
      · have hthis := hnil initial fun mask' hmask' => by
          rw [hmask, Option.some.injEq] at hmask'
          rw [← hmask', hzero]
        rw [if_pos hzero, hthis, List.foldl_nil]
        exact ih (by omega) hcopy
      · have hstart := masksAt_initial (by omega) hmask masks
        have hlength : initial < (resize masks initial ++ [mask]).length := by
          rw [List.length_append, length_resize, List.length_singleton]
          omega
        obtain ⟨masks', hloop, hcopy'⟩ := middleLoop_spec dictionary hmiddle hstart hlength
          (by omega : form.length < form.length + 1 + initial) hcopy
        rw [if_neg hzero, hloop, Option.bind_eq_bind, Option.bind_some]
        exact ih (by omega) hcopy'

end MorphoPrefixGuesser

end UDPipe.Morphodita
