import UDPipe.Tokenizer.Runs

/-!
# Reconstruction of the text

The plain text of the sentences of a document, and the white space that the wrapper
still holds, is the text of the document up to the blanks within the forms. These
are stored in `SpacesInToken` only if the form of the token has another length, so a
single tab or line end within a form is written as a space. All of this needs that the
loops over the white space end, which have `unsigned` counters.
-/

namespace UDPipe.Tokenizer

open Utf8 Misc

/-! ### The form of a token -/

/-- Two blanks next to each other. -/
def HasBlankPair (form : Bytes) : Prop :=
  ∃ before c d after, form = before ++ c :: d :: after ∧ isBlank c = true ∧ isBlank d = true

/-- A form that is written as it was: it has no blanks but spaces, or it is stored
since two of its blanks are next to each other. -/
def Restorable (form : Bytes) : Prop :=
  (∀ c ∈ form, c ≠ cr ∧ c ≠ lf ∧ c ≠ tab) ∨ HasBlankPair form

/-- The normalised form of what follows a blank or another byte. -/
def normalizeAfter : Bool → Bytes → Bytes
  | _, [] => []
  | blank, c :: form =>
    if isBlank c then (if blank then [] else [space]) ++ normalizeAfter true form
    else c :: normalizeAfter false form

/-- Blanks are written as spaces. -/
private theorem toSpace_eq (c : Byte) : toSpace c = if isBlank c then space else c := by
  unfold toSpace isBlank
  by_cases hspace : c = space
  · subst hspace
    rfl
  · simp [hspace]

/-- Normalizing a form begins with no blank before it. -/
theorem normalizeForm_eq (form : Bytes) : normalizeForm form = normalizeAfter false form := by
  have key : ∀ out, form.foldl (fun out c =>
      if toSpace c != space || out.getLast? != some space then out ++ [toSpace c] else out) out =
      out ++ normalizeAfter (out.getLast? == some space) form := by
    induction form with
    | nil => simp [normalizeAfter]
    | cons c form ih =>
      intro out
      rw [List.foldl_cons, ih, toSpace_eq, normalizeAfter]
      by_cases hblank : isBlank c = true
      · rw [if_pos hblank]
        by_cases hlast : out.getLast? = some space
        · simp [hblank, hlast]
        · simp [hblank, hlast]
      · have hne : c ≠ space := by
          rintro rfl
          exact hblank rfl
        simp [hblank, hne, beq_eq_false_iff_ne.mpr hne]
  exact (key []).trans (List.nil_append _)

/-- Whether a form begins with a blank. -/
private def startsBlank (form : Bytes) : Bool := form.head?.any isBlank

/-- A pair of blanks is at the beginning or behind it. -/
private theorem hasBlankPair_cons (c : Byte) (form : Bytes) :
    HasBlankPair (c :: form) ↔ isBlank c = true ∧ startsBlank form = true ∨ HasBlankPair form := by
  constructor
  · rintro ⟨before, c', d, after, heq, hc, hd⟩
    cases before with
    | nil =>
      obtain ⟨rfl, rfl⟩ := List.cons.inj heq
      exact .inl ⟨hc, by simpa [startsBlank] using hd⟩
    | cons b before =>
      obtain ⟨rfl, rfl⟩ := List.cons.inj heq
      exact .inr ⟨before, c', d, after, rfl, hc, hd⟩
  · rintro (⟨hc, hstarts⟩ | ⟨before, c', d, after, rfl, hc, hd⟩)
    · cases form with
      | nil => simp [startsBlank] at hstarts
      | cons d after => exact ⟨[], c, d, after, rfl, hc, by simpa [startsBlank] using hstarts⟩
    · exact ⟨c :: before, c', d, after, rfl, hc, hd⟩

/-- The normalised form is shorter exactly if there was a run of blanks. -/
private theorem length_normalizeAfter (blank : Bool) (form : Bytes) :
    (normalizeAfter blank form).length ≤ form.length ∧
      ((normalizeAfter blank form).length = form.length ↔
        ¬ HasBlankPair form ∧ ¬ (blank = true ∧ startsBlank form = true)) := by
  induction form generalizing blank with
  | nil => simp [normalizeAfter, startsBlank, HasBlankPair]
  | cons c form ih =>
    rw [normalizeAfter, hasBlankPair_cons]
    cases hc : isBlank c with
    | true =>
      obtain ⟨hle, hiff⟩ := ih true
      cases blank with
      | true =>
        have hstarts : startsBlank (c :: form) = true := by simp [startsBlank, hc]
        simp only [if_true, List.nil_append, List.length_cons, hstarts, and_self, not_true,
          and_false, iff_false]
        omega
      | false =>
        simp only [if_true, Bool.false_eq_true, if_false, List.singleton_append, List.length_cons,
          false_and, not_false_iff, and_true, true_and, Nat.add_right_cancel_iff, hiff]
        exact ⟨by omega, by tauto⟩
    | false =>
      obtain ⟨hle, hiff⟩ := ih false
      have hstarts : startsBlank (c :: form) = false := by simp [startsBlank, hc]
      simp only [Bool.false_eq_true, if_false, List.length_cons, hstarts, and_false,
        not_false_iff, and_true, false_and, false_or, Nat.add_right_cancel_iff, hiff]
      omega

/-- Without runs of blanks, each blank has become a space. -/
private theorem normalizeAfter_of_not_pair {blank : Bool} {form : Bytes}
    (hpair : ¬ HasBlankPair form) (hblank : ¬ (blank = true ∧ startsBlank form = true)) :
    normalizeAfter blank form = form.map fun c => if isBlank c then space else c := by
  induction form generalizing blank with
  | nil => rfl
  | cons c form ih =>
    rw [hasBlankPair_cons, not_or] at hpair
    rw [normalizeAfter, List.map_cons]
    cases hc : isBlank c with
    | true =>
      rw [hc] at hpair
      have hfalse : blank = false := by
        cases blank with
        | true => exact absurd ⟨rfl, by simp [startsBlank, hc]⟩ hblank
        | false => rfl
      rw [if_pos rfl, hfalse, ih hpair.2 hpair.1]
      rfl
    | false => rw [if_neg Bool.false_ne_true, ih hpair.2 (by simp)]; rfl

/-! ### Texts that agree under a condition -/

/-- Texts of the same length that are equal exactly under a condition. -/
def Matches (out truth : Bytes) (P : Prop) : Prop := out.length = truth.length ∧ (out = truth ↔ P)

/-- A text matches itself. -/
theorem matches_self (text : Bytes) : Matches text text True := ⟨rfl, by simp⟩

/-- Of two parts, both have to agree. -/
theorem Matches.append {out out' truth truth' : Bytes} {P P' : Prop} (h : Matches out truth P)
    (h' : Matches out' truth' P') : Matches (out ++ out') (truth ++ truth') (P ∧ P') := by
  refine ⟨by rw [List.length_append, List.length_append, h.1, h'.1], ?_⟩
  rw [← h.2, ← h'.2]
  constructor
  · exact fun heq => List.append_inj heq h.1
  · rintro ⟨rfl, rfl⟩
    rfl

/-- The condition of a match may be stated in other words. -/
theorem Matches.congr {out truth : Bytes} {P P' : Prop} (h : Matches out truth P) (hP : P ↔ P') :
    Matches out truth P' := ⟨h.1, h.2.trans hP⟩

/-- How a form is written. -/
def written (form : Bytes) : Bytes :=
  if (normalizeForm form).length = form.length then normalizeForm form else form

/-- A form is written as it was exactly if it is restorable. -/
theorem matches_written (form : Bytes) : Matches (written form) form (Restorable form) := by
  obtain ⟨_, hlength⟩ := length_normalizeAfter false form
  simp only [Bool.false_eq_true, false_and, not_false_iff, and_true] at hlength
  rw [← normalizeForm_eq] at hlength
  unfold written
  by_cases hpair : HasBlankPair form
  · rw [if_neg fun h => hlength.mp h hpair]
    exact ⟨rfl, iff_of_true rfl (.inr hpair)⟩
  · rw [if_pos (hlength.mpr hpair)]
    refine ⟨hlength.mpr hpair, ?_⟩
    rw [normalizeForm_eq, normalizeAfter_of_not_pair hpair (by simp), Restorable, or_iff_left hpair]
    have hfix : ∀ c : Byte, (if isBlank c then space else c) = c ↔ c ≠ cr ∧ c ≠ lf ∧ c ≠ tab := by
      intro c
      by_cases hspace : c = space
      · subst hspace
        decide
      · have hblank : isBlank c = true ↔ ¬ (c ≠ cr ∧ c ≠ lf ∧ c ≠ tab) := by
          simp only [isBlank, Bool.or_eq_true, beq_iff_eq, hspace, or_false]
          tauto
        by_cases h : isBlank c = true
        · rw [if_pos h]
          exact iff_of_false (Ne.symm hspace) (hblank.mp h)
        · rw [if_neg h]
          exact iff_of_true rfl (not_not.mp fun hnot => h (hblank.mpr hnot))
    conv_lhs => rw [← List.map_id form, List.map_map]
    rw [List.map_inj_left]
    exact forall₂_congr fun c _ => hfix c

/-- The plain text of a token. -/
theorem plainText_tokenOf {opts : Options} (hopts : opts.normalizedSpaces = false) {block : Bytes}
    {form : Piece} (hstart : form.start < form.stop) (hstop : form.stop ≤ block.length)
    (next : Option Piece) (before : Bytes) (range : Option (ℕ × ℕ)) :
    (opts.tokenOf block form next before range).plainText =
      before ++ written (form.text block) ++ opts.spacesAfter block form next := by
  have hlength : (form.text block).length = form.stop - form.start := by
    rw [Piece.text, slice, List.length_take, List.length_drop]
    omega
  have hinToken : (if Options.inToken block form = [] then normalizeForm (form.text block)
      else Options.inToken block form) = written (form.text block) := by
    unfold Options.inToken written
    rw [← hlength]
    by_cases h : (normalizeForm (form.text block)).length = (form.text block).length
    · simp [h]
    · have hne : form.text block ≠ [] := by
        intro hnil
        simp [hnil] at hlength
        omega
      simp [h, hne]
  have htoken : opts.tokenOf block form next before range =
      ⟨normalizeForm (form.text block), ofFields (tokenFields before (Options.inToken block form)
        (opts.spacesAfter block form next) range)⟩ := by
    rw [Options.tokenOf]
    unfold Options.fieldsOf
    rw [if_neg (by simp [hopts])]
  rw [htoken, Token.plainText, spacesBefore_tokenFields, spacesInToken_tokenFields,
    spacesAfter_tokenFields, hinToken]

/-! ### The plain text of a sentence -/

/-- The bytes between two offsets, cut at one between them. -/
theorem slice_append (text : Bytes) {i j k : ℕ} (hij : i ≤ j) (hjk : j ≤ k) :
    slice text i j ++ slice text j k = slice text i k := by
  obtain ⟨m, rfl⟩ := Nat.exists_eq_add_of_le hij
  obtain ⟨n, rfl⟩ := Nat.exists_eq_add_of_le hjk
  rw [slice, slice, slice, Nat.add_sub_cancel_left, Nat.add_sub_cancel_left, Nat.add_assoc,
    Nat.add_sub_cancel_left, ← List.drop_drop, List.take_add]

/-- The bytes of a piece, and those behind it. -/
theorem slice_append_drop (text : Bytes) {i j : ℕ} (hij : i ≤ j) :
    slice text i j ++ text.drop j = text.drop i := by
  obtain ⟨m, rfl⟩ := Nat.exists_eq_add_of_le hij
  rw [slice, Nat.add_sub_cancel_left, ← List.drop_drop, List.take_append_drop]

/-- The white space after the last form is in the text. -/
theorem slice_spacesAfter (opts : Options) (block : Bytes) (form : Piece) :
    slice block form.stop (form.stop + (opts.spacesAfter block form none).length) =
      opts.spacesAfter block form none := by
  have hprefix : opts.spacesAfter block form none <+: block.drop form.stop := by
    obtain ⟨rest, hrest⟩ := List.takeWhile_prefix (l := chars (block.drop form.stop))
      fun c => opts.tables.isSpace c.code
    have hflat := congrArg flat hrest
    rw [flat_append, flat_chars] at hflat
    exact ⟨flat rest, hflat⟩
  rw [slice, Nat.add_sub_cancel_left]
  exact (List.prefix_iff_eq_take.mp hprefix).symm

/-- Forms that follow each other in a text. -/
structure Follow (block : Bytes) (forms : List Piece) : Prop where
  within : ∀ form ∈ forms, form.start < form.stop ∧ form.stop ≤ block.length
  disjoint : forms.Pairwise fun form form' => form.stop ≤ form'.start

/-- The forms behind the first follow each other. -/
theorem Follow.tail {block : Bytes} {form : Piece} {forms : List Piece}
    (h : Follow block (form :: forms)) : Follow block forms :=
  ⟨fun f hf => h.within f (List.mem_cons_of_mem form hf), h.disjoint.of_cons⟩

/-- The position after the forms is the one after the last of them. -/
private theorem positionAfter_cons_cons (opts : Options) (block : Bytes) (form next : Piece)
    (forms : List Piece) (position : ℕ) :
    opts.positionAfter block (form :: next :: forms) position =
      opts.positionAfter block (next :: forms) position := by
  rw [Options.positionAfter, Options.positionAfter, List.getLast?_cons_cons]

/-- The forms end before the position after them. -/
theorem Follow.le_positionAfter {opts : Options} {block : Bytes} {forms : List Piece}
    (h : Follow block forms) (position : ℕ) :
    ∀ form ∈ forms, form.stop ≤ opts.positionAfter block forms position := by
  induction forms with
  | nil => exact List.forall_mem_nil _
  | cons first forms ih =>
    cases forms with
    | nil => exact List.forall_mem_singleton.mpr (Nat.le_add_right _ _)
    | cons next forms =>
      rw [positionAfter_cons_cons]
      refine List.forall_mem_cons.mpr ⟨?_, ih h.tail⟩
      have hlt := (List.pairwise_cons.mp h.disjoint).1 next List.mem_cons_self
      have hnext := (h.tail.within next List.mem_cons_self).1
      have := ih h.tail next List.mem_cons_self
      omega

/-- The tokens of some forms are written as the text from the first of the forms on, up
to the blanks within the forms. -/
theorem matches_formTokens {opts : Options} (hopts : opts.normalizedSpaces = false) {block : Bytes}
    {form : Piece} {forms : List Piece} (h : Follow block (form :: forms)) (unicodeOffset : ℕ)
    (before : Bytes) (ranges : List TokenRange) (position : ℕ) :
    Matches ((opts.formTokens block unicodeOffset before (form :: forms) ranges).flatMap
        Token.plainText)
      (before ++ slice block form.start (opts.positionAfter block (form :: forms) position))
      (∀ f ∈ form :: forms, Restorable (f.text block)) := by
  induction forms generalizing form before ranges with
  | nil =>
    obtain ⟨hstart, hstop⟩ := h.within form List.mem_cons_self
    have hposition : opts.positionAfter block [form] position =
      form.stop + (opts.spacesAfter block form none).length := rfl
    rw [Options.formTokens, Options.formTokens, List.flatMap_singleton,
      plainText_tokenOf hopts hstart hstop, hposition,
      ← slice_append block (le_of_lt hstart) (Nat.le_add_right _ _), slice_spacesAfter,
      ← List.append_assoc]
    apply (((matches_self before).append (matches_written _)).append (matches_self _)).congr
    simp
  | cons next forms ih =>
    obtain ⟨hstart, hstop⟩ := h.within form List.mem_cons_self
    have hnext : form.stop ≤ next.start :=
      (List.pairwise_cons.mp h.disjoint).1 next List.mem_cons_self
    have hafter : next.stop ≤ opts.positionAfter block (next :: forms) position :=
      h.tail.le_positionAfter position next List.mem_cons_self
    have hnext' := (h.tail.within next List.mem_cons_self).1
    rw [Options.formTokens, List.flatMap_cons, plainText_tokenOf hopts hstart hstop,
      positionAfter_cons_cons, ← slice_append block (le_of_lt hstart) (by omega),
      ← slice_append block hnext (by omega), ← List.append_assoc, ← List.append_assoc]
    have hrest := @ih next h.tail [] ranges.tail
    rw [List.nil_append] at hrest
    apply ((((matches_self before).append (matches_written _)).append
      (matches_self _)).append hrest).congr
    simp only [List.forall_mem_cons, true_and, and_true]

/-! ### The position in the text -/

/-- Offsets grow with the characters. -/
theorem offset_mono (cs : List Character) {i j : ℕ} (h : i ≤ j) : offset cs i ≤ offset cs j := by
  obtain ⟨n, rfl⟩ := Nat.exists_eq_add_of_le h
  rw [offset_add]
  exact Nat.le_add_right _ _

/-- Offsets are inside the text. -/
theorem offset_le_length (text : Bytes) (k : ℕ) : offset (chars text) k ≤ text.length := by
  have h := congrArg List.length (flat_chars text)
  rw [← List.take_append_drop k (chars text), flat_append, List.length_append] at h
  rw [offset]
  omega

/-- Tokens that follow each other give forms that do. -/
theorem follow_trimForms {block : Bytes} {ranges : List TokenRange}
    (h : Ordered (chars block).length ranges) :
    Follow block (trimForms block (ranges.map (formOf block))) := by
  constructor
  · intro form hform
    have hlt : form.start < form.stop := of_decide_eq_true (List.mem_filter.mp hform).2
    rw [trimForms_map_formOf] at hform
    obtain ⟨r, _, rfl⟩ := List.mem_map.mp hform
    exact ⟨hlt, offset_le_length block _⟩
  · rw [trimForms_map_formOf]
    apply List.pairwise_map.mpr
    apply h.trimRanges.disjoint.imp
    exact fun hle => offset_mono _ hle

/-- The position is after some of the tokens, and after white space that follows them. -/
structure Positioned (opts : Options) (block : Bytes) (past : List TokenRange) (position : ℕ) :
    Prop where
  exists_spaces : ∃ p n, position = offset (chars block) (p + n) ∧
    (p = 0 ∨ ∃ r ∈ past, p ≤ r.start + r.length) ∧
    ∀ i, p ≤ i → i < p + n → ∀ c ∈ (chars block)[i]?, opts.tables.isSpace c.code = true

/-- A token that comes later and begins with another character begins after the position. -/
theorem Positioned.le_offset {opts : Options} {block : Bytes} {past more : List TokenRange}
    {position : ℕ} (h : Positioned opts block past position)
    (hordered : Ordered (chars block).length (past ++ more)) {r : TokenRange} (hr : r ∈ more)
    (hspace : ∀ c ∈ (chars block)[r.start]?, opts.tables.isSpace c.code = false) :
    position ≤ offset (chars block) r.start := by
  obtain ⟨p, n, rfl, hp, hspaces⟩ := h.exists_spaces
  apply offset_mono
  by_contra hlt
  have hle : p ≤ r.start := by
    rcases hp with rfl | ⟨r', hr', hle⟩
    · exact Nat.zero_le _
    · have := (List.pairwise_append.mp hordered.disjoint).2.2 r' hr' r hr
      omega
  have hin := (hordered.within r (List.mem_append_right past hr))
  obtain ⟨c, hc⟩ : ∃ c, (chars block)[r.start]? = some c :=
    ⟨_, List.getElem?_eq_getElem (by omega)⟩
  have htrue := hspaces r.start hle (by omega) c hc
  rw [hspace c hc] at htrue
  cases htrue

/-- The position stays after more tokens. -/
theorem Positioned.append {opts : Options} {block : Bytes} {past : List TokenRange} {position : ℕ}
    (h : Positioned opts block past position) (more : List TokenRange) :
    Positioned opts block (past ++ more) position := by
  obtain ⟨p, n, hposition, hp, hspaces⟩ := h.exists_spaces
  refine ⟨p, n, hposition, hp.imp_right ?_, hspaces⟩
  rintro ⟨r, hr, hle⟩
  exact ⟨r, List.mem_append_left more hr, hle⟩

/-- The forms of tokens that come later begin after the position. -/
theorem Positioned.le_start {opts : Options} {block : Bytes} {past ranges : List TokenRange}
    {position : ℕ} (h : Positioned opts block past position)
    (hordered : Ordered (chars block).length (past ++ ranges))
    (hspace : ∀ r ∈ ranges, ∀ c ∈ (chars block)[r.start]?, opts.tables.isSpace c.code = false) :
    ∀ form ∈ trimForms block (ranges.map (formOf block)), position ≤ form.start := by
  intro form hform
  rw [trimForms_map_formOf] at hform
  obtain ⟨t, ht, rfl⟩ := List.mem_map.mp hform
  obtain ⟨r, hr, rfl⟩ := List.mem_map.mp (List.mem_filter.mp ht).1
  calc
    position ≤ offset (chars block) r.start := h.le_offset hordered hr (hspace r hr)
    _ ≤ offset (chars block) (trimRange (chars block) r).start :=
      offset_mono _ (trimRange_within (chars block) r).1

/-- The white space after a range of characters. -/
theorem spacesAfter_formOf (opts : Options) (block : Bytes) (r : TokenRange) :
    opts.spacesAfter block (formOf block r) none =
      flat (((chars block).drop (r.start + r.length)).takeWhile
        fun c => opts.tables.isSpace c.code) := by
  rw [← chars_drop]
  rfl

/-- The position after the forms of some tokens. -/
theorem positioned_positionAfter (opts : Options) {block : Bytes} (past : List TokenRange)
    {ranges : List TokenRange} (hforms : trimForms block (ranges.map (formOf block)) ≠ [])
    (position : ℕ) :
    Positioned opts block (past ++ ranges)
      (opts.positionAfter block (trimForms block (ranges.map (formOf block))) position) := by
  obtain ⟨last, hlast⟩ := Option.ne_none_iff_exists'.mp (mt List.getLast?_eq_none_iff.mp hforms)
  have hmem := List.mem_of_getLast? hlast
  rw [trimForms_map_formOf] at hmem
  obtain ⟨t, ht, rfl⟩ := List.mem_map.mp hmem
  obtain ⟨r, hr, rfl⟩ := List.mem_map.mp (List.mem_filter.mp ht).1
  have hposition : opts.positionAfter block (trimForms block (ranges.map (formOf block))) position =
      (formOf block (trimRange (chars block) r)).stop +
        (opts.spacesAfter block (formOf block (trimRange (chars block) r)) none).length := by
    rw [Options.positionAfter, hlast]
  have hwithin := (trimRange_within (chars block) r).2
  rw [hposition, spacesAfter_formOf]
  generalize hstop : (trimRange (chars block) r).start + (trimRange (chars block) r).length = p
  rw [hstop] at hwithin
  have hprefix := List.takeWhile_prefix (l := (chars block).drop p)
    fun c => opts.tables.isSpace c.code
  refine ⟨p, (((chars block).drop p).takeWhile fun c => opts.tables.isSpace c.code).length, ?_,
    .inr ⟨r, List.mem_append_right past hr, hwithin⟩, fun i hpi hlt c hc => ?_⟩
  · rw [offset_add, ← List.prefix_iff_eq_take.mp hprefix, ← hstop]
    rfl
  · obtain ⟨j, rfl⟩ := Nat.exists_eq_add_of_le hpi
    rw [← List.getElem?_drop] at hc
    obtain ⟨rest, hrest⟩ := hprefix
    rw [← hrest, List.getElem?_append_left (by omega)] at hc
    have hmem := List.mem_of_getElem? (Option.mem_def.mp hc)
    exact List.mem_takeWhile_imp (p := fun c : Character => opts.tables.isSpace c.code) hmem

/-! ### The text of a document -/

/-- The text that has been consumed is written up to a condition, and the wrapper holds
the rest of the text. -/
structure Reconstructs {σ : Type} (out truth : Bytes) (P : Prop) (w : State σ) : Prop where
  exists_consumed : ∃ consumed, truth = consumed ++ (w.savedSpaces ++ w.block.drop w.position) ∧
    Matches out consumed P

section Document

variable {σ : Type} {opts : Options} {inner : InnerTokenizer σ}
  (hopts : opts.normalizedSpaces = false)

include hopts

/-- A sentence is written as the text from the position before it to the one after it. -/
theorem Reconstructs.read {out truth : Bytes} {P : Prop} {w w' : State σ} {sentence : Sentence}
    {forms : List Piece} {ranges : List TokenRange} (h : Reconstructs out truth P w)
    (hmakes : Makes opts w w' sentence forms ranges) (hne : forms ≠ [])
    (hfollow : Follow w.block forms) (hposition : ∀ form ∈ forms, w.position ≤ form.start) :
    Reconstructs (out ++ sentence.plainText) truth
      (P ∧ ∀ form ∈ forms, Restorable (form.text w.block)) w' := by
  obtain ⟨consumed, rfl, hmatches⟩ := h.exists_consumed
  obtain ⟨form, forms, rfl⟩ := List.exists_cons_of_ne_nil hne
  have hstart := hposition form List.mem_cons_self
  have hlt := (hfollow.within form List.mem_cons_self).1
  have hle : form.stop ≤ opts.positionAfter w.block (form :: forms) w.position :=
    hfollow.le_positionAfter w.position form List.mem_cons_self
  have htokens : sentence.surface.map SurfaceToken.token = opts.formTokens w.block w.unicodeOffset
      (w.savedSpaces ++ slice w.block w.position form.start) (form :: forms) ranges :=
    hmakes.tokens
  have hsentence : sentence.plainText =
      (sentence.surface.map SurfaceToken.token).flatMap Token.plainText := by
    rw [Sentence.plainText, List.flatMap_map]
  rw [htokens] at hsentence
  have htext := matches_formTokens hopts hfollow w.unicodeOffset
    (w.savedSpaces ++ slice w.block w.position form.start) ranges w.position
  rw [← hsentence] at htext
  refine ⟨_, ?_, hmatches.append htext⟩
  rw [hmakes.savedSpaces, hmakes.block, hmakes.position, List.nil_append]
  simp only [List.append_assoc]
  rw [slice_append_drop _ (by omega), slice_append_drop _ (by omega)]

/-- The calls that return true write the text up to the position. -/
theorem reconstructs_of_calls {doc : List Character} {out truth : Bytes} {P : Prop}
    {w w' : State σ} {s : σ} {calls : List (Option Read)} (horderly : inner.Orderly)
    (hspaces : inner.SkipsSpaces opts.tables) (hdoc : Aligned opts doc w)
    (hinner : w.inner = inner.setText w.block s) (hposition : w.position = 0)
    (h : Reconstructs out truth P w)
    (hcalls : Calls opts inner w calls w') (hall : none ∉ calls) :
    Reconstructs (out ++ calls.reduceOption.flatMap fun read => read.sentence.plainText) truth
        (P ∧ ∀ read ∈ calls.reduceOption, ∀ text ∈ read.formTexts, Restorable text) w' ∧
      ∃ past, inner.Yields w.inner past w'.inner ∧ Positioned opts w.block past w'.position := by
  induction hcalls with
  | start =>
    refine ⟨?_, [], .start _, ⟨0, 0, by simp [hposition, offset], .inl rfl, by omega⟩⟩
    simpa using h
  | @read w₁ w₂ calls forms ranges s' sentence error hcalls hfound hcall ih =>
    obtain ⟨hreconstructs, past, hpast, hpositioned⟩ := ih fun hmem =>
      hall (List.mem_append_left _ hmem)
    obtain ⟨haligned, hblock, _, _, _⟩ := reading_of_calls hdoc hcalls
    obtain ⟨hmakes, hinner'⟩ := returns_nextSentence_true haligned.own hfound hcall
    obtain ⟨skipped, hyields, rfl, hne⟩ := InnerTokenizer.yields_of_nextForms hpast hfound
    have hyields' := hyields
    rw [hinner, ← hblock] at hyields'
    rw [← hblock] at hpositioned
    have hordered := horderly _ _ _ _ hyields'
    have hspace : ∀ r ∈ ranges, ∀ c ∈ (chars w₁.block)[r.start]?,
        opts.tables.isSpace c.code = false := fun r hr =>
      hspaces _ _ _ _ hyields' r (List.mem_append_right _ hr)
    have hfollow := follow_trimForms (hordered.sublist (List.sublist_append_right _ _))
    have hstart := (hpositioned.append skipped).le_start hordered hspace
    constructor
    · have hread := hreconstructs.read hopts hmakes hne hfollow hstart
      obtain ⟨consumed, htruth, hmatches⟩ := hread.exists_consumed
      refine ⟨consumed, htruth, ?_⟩
      rw [reduceOption_append_some, List.flatMap_append, List.flatMap_singleton,
        ← List.append_assoc]
      apply hmatches.congr
      rw [and_assoc, List.forall_mem_append, List.forall_mem_singleton, Read.formTexts,
        List.forall_mem_map]
      rfl
    · rw [hinner', hmakes.position, ← hblock]
      exact ⟨_, hyields, positioned_positionAfter opts (past ++ skipped) hne w₁.position⟩
  | stop => exact absurd (List.mem_append_right _ (List.mem_singleton_self _)) hall

omit hopts in
/-- A new text follows what the wrapper holds. -/
theorem Reconstructs.setText {out truth : Bytes} {P : Prop} {w : State σ}
    (h : Reconstructs out truth P w) (hend : w.block.drop w.position = []) (text : Bytes) :
    Reconstructs out (truth ++ text) P (opts.setText inner text w) := by
  obtain ⟨consumed, rfl, hmatches⟩ := h.exists_consumed
  refine ⟨consumed, ?_, hmatches⟩
  have htext := congrArg flat (@leadingSpaces_append opts text)
  rw [flat_append, flat_chars, flat_chars] at htext
  rw [hend, List.append_nil, List.append_assoc]
  conv_lhs => rw [← htext]
  simp [Options.setText]

omit hopts in
/-- The last call of a block that is read to its end. -/
private theorem stop_of_calls {w w' : State σ} {calls : List (Option Read)} {reads : List Read}
    (h : Calls opts inner w calls w') (hcalls : calls = reads.map some ++ [none]) :
    ∃ w₁ sentence error, Calls opts inner w (reads.map some) w₁ ∧
      (opts.nextSentence inner w₁).Returns ⟨false, sentence, error, w'⟩ := by
  cases h with
  | start => simp at hcalls
  | read _ _ _ =>
    have := (List.append_inj' hcalls rfl).2
    simp at this
  | stop h hcall =>
    obtain rfl := (List.append_inj' hcalls rfl).1
    exact ⟨_, _, _, h, hcall⟩

/-- Reading the blocks of a document to their ends writes its text. -/
theorem reconstructs_of_document {w w' : State σ} {blocks : List Block}
    (horderly : inner.Orderly) (hspaces : inner.SkipsSpaces opts.tables)
    (hdoc : Aligned opts [] w) (hsaved : w.savedSpaces = []) (hend : w.block.drop w.position = [])
    (h : Document opts inner w blocks w') (hexhausted : ∀ b ∈ blocks, b.Exhausted) :
    Reconstructs ((documentReads blocks).flatMap fun read => read.sentence.plainText)
        (documentText blocks)
        (∀ read ∈ documentReads blocks, ∀ text ∈ read.formTexts, Restorable text) w' ∧
      w'.block.drop w'.position = [] := by
  induction h with
  | start =>
    refine ⟨⟨[], ?_, rfl, by simp [documentReads]⟩, hend⟩
    rw [hsaved, hend]
    rfl
  | @block w₁ w₂ blocks text calls hdocument hcalls ih =>
    obtain ⟨hbefore, hlast⟩ := List.forall_mem_append.mp hexhausted
    obtain ⟨hreconstructs, hend₁⟩ := ih hbefore
    obtain ⟨reads, hreads⟩ := List.forall_mem_singleton.mp hlast
    obtain ⟨w₃, sentence, error, hcalls', hcall⟩ := stop_of_calls hcalls hreads
    have hstart := @Reconstructs.setText σ opts inner _ _ _ w₁ hreconstructs hend₁ text
    have haligned : Aligned opts (documentChars blocks) w₁ := by
      simpa using aligned_of_document hdoc hdocument
    obtain ⟨hread, _⟩ := reconstructs_of_calls hopts horderly hspaces
      (haligned.setText text) rfl rfl hstart hcalls' (by simp)
    obtain ⟨s, _, rfl⟩ := returns_nextSentence_false hcall
    obtain ⟨consumed, htruth, hmatches⟩ := hread.exists_consumed
    have hreduce := reduceOption_map_some reads
    have hblock : documentReads (blocks ++ [⟨text, calls⟩]) = documentReads blocks ++ reads := by
      obtain rfl : calls = reads.map some ++ [none] := hreads
      rw [documentReads, List.flatMap_append, List.flatMap_singleton, Block.reads,
        reduceOption_append_none, hreduce, documentReads]
    rw [hreduce] at hmatches
    refine ⟨⟨consumed, ?_, ?_⟩, ?_⟩
    · rw [documentText, List.flatMap_append, List.flatMap_singleton]
      simpa [saveRest, documentText] using htruth
    · rw [hblock, List.flatMap_append, List.forall_mem_append]
      exact hmatches
    · simp [saveRest]

end Document

/-- A document begins without text and white space. -/
theorem empty_of_begins {σ : Type} {opts : Options} {inner : InnerTokenizer σ} {w : State σ}
    (h : Begins opts inner w) : w.savedSpaces = [] ∧ w.block.drop w.position = [] := by
  cases h with
  | fresh s => exact ⟨rfl, rfl⟩
  | reset id _ _ => exact ⟨rfl, by simp [Options.resetDocument, Options.setText]⟩

/-! ### White space that the loops can go through -/

/-- The texts that are escaped for some forms. -/
def Options.storedAll (opts : Options) (block : Bytes) : Bytes → List Piece → List Bytes
  | _, [] => []
  | before, form :: forms =>
    opts.stored block form before (opts.spacesAfter block form forms.head?) ++
      opts.storedAll block [] forms

/-- The loops over the white space of some forms end, whatever the token was before. -/
def Options.Stores (opts : Options) (block : Bytes) : Bytes → List Piece → Prop
  | _, [] => True
  | before, form :: forms =>
    (∀ misc, (opts.storeSpaces ⟨normalizeForm (form.text block), misc⟩ block form forms.head?
      before (opts.spacesAfter block form forms.head?)).Terminates) ∧ opts.Stores block [] forms

/-- The texts that are escaped when a sentence is made. -/
def Read.stored (opts : Options) (read : Read) : List Bytes :=
  opts.storedAll read.block read.before read.forms

/-- The texts are stored if they are short enough for the loops. -/
theorem Options.stores_iff {opts : Options} {block before : Bytes} {forms : List Piece} :
    opts.Stores block before forms ↔
      ∀ spaces ∈ opts.storedAll block before forms, spaces.length < unsignedValues := by
  induction forms generalizing before with
  | nil => exact iff_of_true trivial (List.forall_mem_nil _)
  | cons form forms ih =>
    rw [Options.Stores, storedAll, List.forall_mem_append, ih]
    refine and_congr_left fun _ => ⟨fun h => ?_, fun h misc => ?_⟩
    · obtain ⟨tok, htok⟩ := h []
      exact (returns_storeSpaces.mp htok).1
    · exact ⟨_, returns_storeSpaces.mpr ⟨h, rfl⟩⟩

/-- The tokens of some forms are written exactly if their escaped texts are short. -/
theorem Options.readable_formTokens {opts : Options} (hopts : opts.normalizedSpaces = false)
    {block : Bytes} {unicodeOffset : ℕ} {before : Bytes} {forms : List Piece}
    {ranges : List TokenRange} :
    (∀ tok ∈ opts.formTokens block unicodeOffset before forms ranges, tok.Readable) ↔
      ∀ spaces ∈ opts.storedAll block before forms,
        (escapedSpaces spaces).length < unsignedValues := by
  induction forms generalizing before ranges with
  | nil => exact iff_of_true (List.forall_mem_nil _) (List.forall_mem_nil _)
  | cons form forms ih =>
    rw [formTokens, storedAll, List.forall_mem_cons, List.forall_mem_append, ih]
    refine and_congr_left fun _ => ?_
    have hopts' : ¬ opts.normalizedSpaces = true := by simp [hopts]
    unfold tokenOf fieldsOf stored
    rw [if_neg hopts', if_neg hopts', readable_tokenFields]

/-- The document is written as it was: the loops over the white space of its tokens end,
and what the writer writes, with the white space that the wrapper still holds, is its text. -/
structure WritesText {σ : Type} (opts : Options) (writer : Plaintext) (blocks : List Block)
    (w : State σ) : Prop where
  stores : ∀ read ∈ documentReads blocks, opts.Stores read.block read.before read.forms
  writes : ∃ out, (writer.writeSentences ((documentReads blocks).map Read.sentence)).Returns out ∧
    out ++ w.savedSpaces = documentText blocks

/-- A document is written as it was exactly if every reported token is restorable and no
escaped text has 2^32 bytes. -/
theorem writesText_iff {σ : Type} {opts : Options} {inner : InnerTokenizer σ} {w w' : State σ}
    {blocks : List Block} {writer : Plaintext} (hopts : opts.normalizedSpaces = false)
    (hwriter : writer.normalized = false) (horderly : inner.Orderly)
    (hspaces : inner.SkipsSpaces opts.tables) (hbegins : Begins opts inner w)
    (h : Document opts inner w blocks w') (hexhausted : ∀ b ∈ blocks, b.Exhausted) :
    WritesText opts writer blocks w' ↔
      ∀ read ∈ documentReads blocks, (∀ text ∈ read.formTexts, Restorable text) ∧
        ∀ spaces ∈ read.stored opts, (escapedSpaces spaces).length < unsignedValues := by
  obtain ⟨hsaved, hend⟩ := empty_of_begins hbegins
  obtain ⟨hreconstructs, hend'⟩ := reconstructs_of_document hopts horderly hspaces
    (aligned_of_begins hbegins) hsaved hend h hexhausted
  obtain ⟨consumed, htruth, hmatches⟩ := hreconstructs.exists_consumed
  rw [hend', List.append_nil] at htruth
  have htokens := tokens_of_document (aligned_of_begins hbegins) h
  have hreadable : (∀ s ∈ (documentReads blocks).map Read.sentence, ∀ t ∈ s.surface,
      t.token.Readable) ↔ ∀ read ∈ documentReads blocks, ∀ spaces ∈ read.stored opts,
        (escapedSpaces spaces).length < unsignedValues := by
    rw [List.forall_mem_map]
    refine forall₂_congr fun read hread => ?_
    rw [Read.stored, ← Options.readable_formTokens hopts, ← htokens read hread,
      List.forall_mem_map]
  have htext : ((documentReads blocks).map Read.sentence).flatMap Sentence.plainText ++
      w'.savedSpaces = documentText blocks ↔
        ∀ read ∈ documentReads blocks, ∀ text ∈ read.formTexts, Restorable text := by
    rw [List.flatMap_map, htruth, List.append_cancel_right_eq]
    exact hmatches.2
  rw [forall₂_and, ← htext, ← hreadable]
  constructor
  · rintro ⟨_, out, hout, heq⟩
    obtain ⟨hshort, rfl⟩ := (Plaintext.returns_writeSentences hwriter).mp hout
    exact ⟨heq, hshort⟩
  · rintro ⟨heq, hshort⟩
    refine ⟨fun read hread => Options.stores_iff.mpr fun spaces hspaces => ?_, _,
      (Plaintext.returns_writeSentences hwriter).mpr ⟨hshort, rfl⟩, heq⟩
    -- a text is not longer than it is escaped
    exact Nat.lt_of_le_of_lt (length_le_length_escapedSpaces spaces)
      (hreadable.mp hshort read hread spaces hspaces)

section Samples

/-- The wrapper over the tokenizer with one token. -/
def plainOptions : Options where
  tables := asciiTables
  splitter := none
  normalizedSpaces := false
  tokenRanges := false

/-- A token with two spaces in it. -/
theorem writesText_iff_sample :
    WritesText plainOptions ⟨false, true⟩ (exhaustedText plainOptions (bytes " a  b ") 5)
      (exhaustedState plainOptions (bytes " a  b ") 5) := by
  have h := @document_exhaustedText plainOptions (bytes " a  b ") 5 [⟨0, 4⟩] (by decide)
    ⟨1, by decide⟩
  have hexhausted : ∀ b ∈ exhaustedText plainOptions (bytes " a  b ") 5, b.Exhausted :=
    List.forall_mem_singleton.mpr ⟨[_], rfl⟩
  apply (writesText_iff rfl rfl (orderly_wholeText asciiTables) (skipsSpaces_wholeText asciiTables)
    (.fresh ⟨0, 0⟩) h hexhausted).mpr
  intro read hread
  obtain rfl := List.mem_singleton.mp hread
  refine ⟨fun text htext => ?_, by decide⟩
  obtain rfl : text = bytes "a  b" := by
    revert text
    decide
  exact .inr ⟨bytes "a", space, space, bytes "b", by decide⟩

/-- A token with a tab in it is written with a space. -/
theorem not_writesText_tab :
    ∃ (opts : Options) (inner : InnerTokenizer TokenRange) (w w' : State TokenRange)
      (blocks : List Block) (writer : Plaintext),
      opts.normalizedSpaces = false ∧ writer.normalized = false ∧ inner.Orderly ∧
        inner.SkipsSpaces opts.tables ∧ inner.Covers opts.tables ∧ Begins opts inner w ∧
        Document opts inner w blocks w' ∧ (∀ b ∈ blocks, b.Exhausted) ∧
        ¬ WritesText opts writer blocks w' := by
  have h := @document_exhaustedText plainOptions (bytes "a\tb") 3 [⟨0, 3⟩] (by decide)
    ⟨1, by decide⟩
  refine ⟨plainOptions, wholeText asciiTables, _, _, _, ⟨false, true⟩, rfl, rfl,
    orderly_wholeText asciiTables, skipsSpaces_wholeText asciiTables,
    covers_wholeText asciiTables, .fresh ⟨0, 0⟩, h,
    List.forall_mem_singleton.mpr ⟨[_], rfl⟩, ?_⟩
  rintro ⟨_, out, hout, heq⟩
  obtain ⟨_, rfl⟩ := (Plaintext.returns_writeSentences rfl).mp hout
  exact absurd heq (by decide)

end Samples

end UDPipe.Tokenizer
