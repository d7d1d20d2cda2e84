import UDPipe.Tokenizer.Runs

/-!
# Token ranges

With the option `ranges` each token has the range of its characters in the whole
document. The forms are trimmed, and those that are empty are erased, but the list
of ranges is left as the inner tokenizer returned it. So the ranges are those of
the reported tokens exactly if no form has been trimmed, and none has been erased
before one that is reported.
-/

namespace UDPipe.Tokenizer

open Utf8 Misc

/-- The ranges of a run of text follow each other in it. -/
structure Consecutive (start stop : ℕ) (spans : List (ℕ × ℕ)) : Prop where
  within : ∀ s ∈ spans, start ≤ s.1 ∧ s.1 < s.2 ∧ s.2 ≤ stop
  disjoint : spans.Pairwise fun s s' => s.2 ≤ s'.1

/-- Consecutive spans behind consecutive ones. -/
theorem Consecutive.append {start middle stop : ℕ} {spans spans' : List (ℕ × ℕ)}
    (h : Consecutive start middle spans) (h' : Consecutive middle stop spans')
    (hle : start ≤ middle) (hle' : middle ≤ stop) : Consecutive start stop (spans ++ spans') := by
  constructor
  · refine List.forall_mem_append.mpr ⟨fun s hs => ?_, fun s hs => ?_⟩
    · have := h.within s hs
      omega
    · have := h'.within s hs
      omega
  · refine List.pairwise_append.mpr ⟨h.disjoint, h'.disjoint, fun s hs s' hs' => ?_⟩
    have := h.within s hs
    have := h'.within s' hs'
    omega

/-- The ranges in the document that are stored with the tokens of a sentence. -/
def Read.spans (read : Read) : List (ℕ × ℕ) :=
  (read.ranges.take read.forms.length).map fun r =>
    (read.offset + r.start, read.offset + r.start + r.length)

/-- The `TokenRange` fields of a sentence. -/
def Read.fields (read : Read) : List (Option Bytes) :=
  read.sentence.surface.map fun t => getMiscField (bytes "TokenRange") t.token.misc

/-- The text of a range of the document. -/
def spanText (doc : List Character) (span : ℕ × ℕ) : Bytes :=
  flat ((doc.drop span.1).take (span.2 - span.1))

/-- The fields are ranges of the document that follow each other, and their
characters are the reported tokens. -/
structure Delimits (doc : List Character) (reads : List Read) (spans : List (ℕ × ℕ)) : Prop where
  fields : reads.flatMap Read.fields = spans.map fun s => some (Token.rangeText s.1 s.2)
  texts : spans.map (spanText doc) = reads.flatMap Read.formTexts
  consecutive : Consecutive 0 doc.length spans

/-- A range that begins and ends with characters that are not blank. -/
def TokenRange.Trimmed (cs : List Character) (range : TokenRange) : Prop :=
  (∀ c ∈ (range.chars cs).head?, isBlankChar c = false) ∧
    ∀ c ∈ (range.chars cs).getLast?, isBlankChar c = false

instance (cs : List Character) (range : TokenRange) : Decidable (range.Trimmed cs) :=
  inferInstanceAs (Decidable (_ ∧ _))

/-- A range of blank characters. -/
def TokenRange.Blank (cs : List Character) (range : TokenRange) : Prop :=
  ∀ c ∈ range.chars cs, isBlankChar c = true

/-- The ranges without blanks around them come first, and the others are blank. -/
def TrimmedFirst (cs : List Character) (ranges : List TokenRange) : Prop :=
  ∃ kept blanks, ranges = kept ++ blanks ∧ (∀ r ∈ kept, r.Trimmed cs) ∧ ∀ r ∈ blanks, r.Blank cs

/-! ### The fields of a sentence -/

section Fields

variable {opts : Options} (hranges : opts.tokenRanges = true)

include hranges

/-- The range of a token is stored with the offset of its block. -/
theorem getMiscField_tokenOf (block : Bytes) (form : Piece) (next : Option Piece) (before : Bytes)
    (unicodeOffset : ℕ) (r : TokenRange) :
    getMiscField (bytes "TokenRange")
        (opts.tokenOf block form next before (opts.rangeOf unicodeOffset (some r))).misc =
      some (Token.rangeText (unicodeOffset + r.start) (unicodeOffset + r.start + r.length)) := by
  obtain ⟨fs, hsep, hother, heq⟩ := opts.fieldsOf_eq_append block form next before
    (opts.rangeOf unicodeOffset (some r))
  have hnone : fs.lookup (bytes "TokenRange") = none := by
    apply List.lookup_eq_none_iff.mpr
    intro f hf
    simpa using (hother f hf).symm
  have hrange : opts.rangeOf unicodeOffset (some r) =
      some (unicodeOffset + r.start, unicodeOffset + r.start + r.length) := if_pos hranges
  rw [Options.tokenOf, heq, hrange, getMiscField_rangeField hsep hnone]

/-- The ranges of the tokens are stored with the offset of the block. -/
theorem fields_formTokens (block : Bytes) (unicodeOffset : ℕ) (before : Bytes) {forms : List Piece}
    {ranges : List TokenRange} (hlength : forms.length ≤ ranges.length) :
    (opts.formTokens block unicodeOffset before forms ranges).map
        (fun tok => getMiscField (bytes "TokenRange") tok.misc) =
      (ranges.take forms.length).map fun r =>
        some (Token.rangeText (unicodeOffset + r.start) (unicodeOffset + r.start + r.length)) := by
  induction forms generalizing before ranges with
  | nil => rfl
  | cons form forms ih =>
    cases ranges with
    | nil => simp at hlength
    | cons r ranges =>
      rw [Options.formTokens, List.map_cons, List.length_cons, List.take_succ_cons, List.map_cons]
      congr 1
      · exact getMiscField_tokenOf hranges _ _ _ _ _ _
      · exact ih [] (by simpa using hlength)

end Fields

/-! ### Where the texts are in the document -/

/-- A sentence whose text is in the document at its offset. -/
structure Read.Placed (doc : List Character) (read : Read) : Prop where
  text : chars read.block <+: doc.drop read.offset
  ordered : Ordered (chars read.block).length read.ranges
  fields : read.fields = read.spans.map fun s => some (Token.rangeText s.1 s.2)

/-- More text does not move what is read. -/
theorem Read.Placed.append {doc : List Character} {read : Read} (h : read.Placed doc)
    (hle : read.offset ≤ doc.length) (doc' : List Character) : read.Placed (doc ++ doc') := by
  refine ⟨?_, h.ordered, h.fields⟩
  rw [List.drop_append_of_le_length hle]
  exact h.text.trans (List.prefix_append _ _)

/-- The forms are no more than the ranges. -/
theorem Read.length_forms_le (read : Read) : read.forms.length ≤ read.ranges.length := by
  rw [Read.forms, trimForms]
  exact (List.length_filter_le _ _).trans (by simp)

/-- The spans of sentences of one text follow each other in it. -/
theorem consecutive_spans {count offset : ℕ} {reads : List Read}
    (h : Ordered count (reads.flatMap Read.ranges))
    (hoffset : ∀ read ∈ reads, read.offset = offset) :
    Consecutive offset (offset + count) (reads.flatMap Read.spans) := by
  have hsub : (reads.flatMap Read.spans).Sublist ((reads.flatMap Read.ranges).map fun r =>
      (offset + r.start, offset + r.start + r.length)) := by
    clear h
    induction reads with
    | nil => exact .slnil
    | cons read reads ih =>
      obtain ⟨hread, hreads⟩ := List.forall_mem_cons.mp hoffset
      rw [List.flatMap_cons, List.flatMap_cons, List.map_append]
      apply List.Sublist.append _ (ih hreads)
      rw [Read.spans, hread]
      exact (List.take_sublist _ _).map _
  constructor
  · intro s hs
    obtain ⟨r, hr, rfl⟩ := List.mem_map.mp (hsub.mem hs)
    have := h.within r hr
    dsimp only
    omega
  · apply List.Pairwise.sublist hsub
    apply List.pairwise_map.mpr
    apply h.disjoint.imp
    intro r r' hlt
    dsimp only
    omega

/-- All sentences of a document are placed in it, and their spans follow each other. -/
theorem placed_of_document {σ : Type} {opts : Options} {inner : InnerTokenizer σ}
    {blocks : List Block} {w w' : State σ} (hranges : opts.tokenRanges = true)
    (horderly : inner.Orderly) (hbegins : Begins opts inner w)
    (h : Document opts inner w blocks w') :
    (∀ read ∈ documentReads blocks, read.Placed (documentChars blocks) ∧
        read.offset ≤ (documentChars blocks).length) ∧
      Consecutive 0 (documentChars blocks).length ((documentReads blocks).flatMap Read.spans) := by
  induction h with
  | start => exact ⟨by simp [documentReads], ⟨by simp [documentReads], .nil⟩⟩
  | @block w₁ w₂ blocks text calls hdocument hcalls ih =>
    obtain ⟨hplaced, hspans⟩ := ih
    have haligned : Aligned opts (documentChars blocks) w₁ := by
      simpa using aligned_of_document (aligned_of_begins hbegins) hdocument
    have hstart : Aligned opts (documentChars blocks ++ chars text)
        (opts.setText inner text w₁) := haligned.setText text
    obtain ⟨_, _, _, ⟨past, hyields, hsub⟩, hreads⟩ := reading_of_calls hstart hcalls
    have hordered : Ordered (chars (opts.setText inner text w₁).block).length
        (calls.reduceOption.flatMap Read.ranges) := (horderly _ _ _ _ hyields).sublist hsub
    have hdoc : documentChars (blocks ++ [⟨text, calls⟩]) = documentChars blocks ++ chars text := by
      simp [documentChars]
    have hdocReads : documentReads (blocks ++ [⟨text, calls⟩]) =
        documentReads blocks ++ calls.reduceOption := by
      simp [documentReads, Block.reads]
    obtain ⟨before, htext, hbefore⟩ := hstart.text
    rw [hdoc, hdocReads]
    refine ⟨List.forall_mem_append.mpr ⟨fun read hread => ?_, fun read hread => ?_⟩, ?_⟩
    · obtain ⟨hread, hle⟩ := hplaced read hread
      exact ⟨hread.append hle _, by rw [List.length_append]; omega⟩
    · obtain ⟨hb, ho, _, htokens⟩ := hreads read hread
      have hlength := congrArg List.length htext
      simp only [List.length_append] at hlength ⊢
      have hdrop : (documentChars blocks ++ chars text).drop read.offset = chars read.block := by
        rw [htext, ho, ← hbefore, List.drop_left, hb]
      refine ⟨⟨⟨[], by rw [List.append_nil, hdrop]⟩, ?_, ?_⟩, by omega⟩
      · rw [hb]
        apply hordered.sublist
        rw [List.flatMap_def]
        exact List.sublist_flatten_of_mem (List.mem_map_of_mem hread)
      · have hfields := congrArg (List.map fun tok : Token =>
          getMiscField (bytes "TokenRange") tok.misc) htokens
        rw [fields_formTokens hranges _ _ _ read.length_forms_le, List.map_map] at hfields
        rw [Read.spans, List.map_map]
        exact hfields
    · have hlater := consecutive_spans hordered fun read hread => (hreads read hread).offset
      have hlength := haligned.length_doc
      have hlength' := hstart.length_doc
      have hoffset : (opts.setText inner text w₁).unicodeOffset =
          w₁.unicodeOffset + (opts.leadingSpaces text).length + w₁.textUnicodeLength := rfl
      rw [← hstart.length, ← hlength'] at hlater
      rw [List.flatMap_append]
      apply hspans.append ⟨fun s hs => _, hlater.disjoint⟩ (Nat.zero_le _)
      · simp
      · intro s hs
        have := hlater.within s hs
        omega

/-! ### Trimmed tokens -/

section Trimmed

variable {cs : List Character} {r : TokenRange}

/-- Nothing is left of a blank range. -/
theorem TokenRange.blank_iff : r.Blank cs ↔ (trimRange cs r).length = 0 := by
  rw [← length_chars_trimRange, List.length_eq_zero_iff, (chars_split cs r).2,
    List.rdropWhile_eq_nil_iff, Blank]
  constructor
  · exact fun h c hc => h c ((List.dropWhile_sublist _).mem hc)
  · intro h c hc
    rw [← List.takeWhile_append_dropWhile (p := isBlankChar) (l := r.chars cs)] at hc
    rcases List.mem_append.mp hc with hc | hc
    · exact List.mem_takeWhile_imp hc
    · exact h c hc

/-- What is left of a range ends with a character that is not blank. -/
theorem exists_not_blank (h : ¬ r.Blank cs) :
    ∃ c ∈ (trimRange cs r).chars cs, isBlankChar c = false := by
  have hne : ((r.chars cs).dropWhile isBlankChar).rdropWhile isBlankChar ≠ [] := by
    intro hnil
    rw [TokenRange.blank_iff, ← length_chars_trimRange, (chars_split cs r).2, hnil] at h
    exact h rfl
  have hlast := List.rdropWhile_last_not _ _ hne
  rw [(chars_split cs r).2]
  exact ⟨_, List.getLast_mem hne, by simpa using hlast⟩

/-- Trimming keeps a range without blanks around it. -/
theorem TokenRange.Trimmed.trimRange_eq (h : r.Trimmed cs) (hin : r.start + r.length ≤ cs.length) :
    trimRange cs r = r := by
  have hlength : (r.chars cs).length = r.length := by
    rw [TokenRange.chars, List.length_take, List.length_drop]
    omega
  have htake : (r.chars cs).takeWhile isBlankChar = [] := by
    cases hchars : r.chars cs with
    | nil => rfl
    | cons c rest => exact List.takeWhile_cons_of_neg (by simp [h.1 c (by simp [hchars])])
  have hdrop : (r.chars cs).dropWhile isBlankChar = r.chars cs := by
    conv_rhs => rw [← List.takeWhile_append_dropWhile (p := isBlankChar) (l := r.chars cs), htake]
    rfl
  have hrdrop : (r.chars cs).rdropWhile isBlankChar = r.chars cs := by
    apply List.rdropWhile_eq_self_iff.mpr
    intro hne
    simpa using h.2 _ (List.getLast_mem_getLast? hne)
  rw [trimRange, htake, hdrop, hrdrop, hlength]
  rfl

/-- Without bytes there are no characters. -/
private theorem eq_nil_of_flat {cs : List Character} (hcut : ∀ c ∈ cs, WellCut c)
    (h : (flat cs).length = 0) : cs = [] := by
  cases cs with
  | nil => rfl
  | cons c cs =>
    rw [flat_cons, List.length_append] at h
    exact absurd (List.length_eq_zero_iff.mp (by omega)) (hcut c List.mem_cons_self).1

/-- If a range has the bytes of what is left of it, there were no blanks around it. -/
theorem TokenRange.trimmed_of_flat_eq (hcut : ∀ c ∈ cs, WellCut c)
    (h : flat (r.chars cs) = flat ((trimRange cs r).chars cs)) : r.Trimmed cs := by
  have hcut' : ∀ c ∈ r.chars cs, WellCut c := fun c hc =>
    hcut c (List.mem_of_mem_drop (List.mem_of_mem_take hc))
  have hsplit := congrArg (fun cs => (flat cs).length) (chars_split cs r).1
  simp only [flat_append, List.length_append, h] at hsplit
  have htake : (r.chars cs).takeWhile isBlankChar = [] :=
    eq_nil_of_flat (fun c hc => hcut' c ((List.takeWhile_sublist _).mem hc)) (by omega)
  have hdrop : (r.chars cs).dropWhile isBlankChar = r.chars cs := by
    conv_rhs => rw [← List.takeWhile_append_dropWhile (p := isBlankChar) (l := r.chars cs), htake]
    rfl
  rw [hdrop] at hsplit
  have hlast : (r.chars cs).rtakeWhile isBlankChar = [] :=
    eq_nil_of_flat (fun c hc => hcut' c ((List.rtakeWhile_suffix _ _).mem hc)) (by omega)
  constructor
  · intro c hc
    obtain ⟨rest, hrest⟩ := List.head?_eq_some_iff.mp hc
    by_contra hblank
    rw [hrest, List.takeWhile_cons_of_pos (by simpa using hblank)] at htake
    cases htake
  · intro c hc
    obtain ⟨hne, rfl⟩ := List.mem_getLast?_eq_getLast hc
    simpa using List.rtakeWhile_eq_nil_iff.mp hlast hne

end Trimmed

section TrimmedFirst

variable {cs : List Character} (hcut : ∀ c ∈ cs, WellCut c)

include hcut

omit hcut in
/-- Trimming leaves out the blank ranges only. -/
private theorem trimRanges_eq_nil_iff {ranges : List TokenRange} :
    trimRanges cs ranges = [] ↔ ∀ r ∈ ranges, r.Blank cs := by
  simp [trimRanges, List.filter_eq_nil_iff, TokenRange.blank_iff]

omit hcut in
/-- A blank range and what is left of another one have different bytes. -/
private theorem flat_ne_of_blank {r t : TokenRange} (hr : r.Blank cs) (ht : ¬ t.Blank cs) :
    flat (r.chars cs) ≠ flat ((trimRange cs t).chars cs) := by
  obtain ⟨c, hc, hnot⟩ := exists_not_blank ht
  intro heq
  have hall : (flat (r.chars cs)).all isBlank = true := by
    rw [flat, List.all_flatMap]
    exact List.all_eq_true.mpr hr
  rw [heq, flat, List.all_flatMap] at hall
  have hblank : isBlankChar c = true := List.all_eq_true.mp hall c hc
  simp [hblank] at hnot

/-- The first ranges are those of the forms exactly if nothing had to be trimmed. -/
theorem trimmedFirst_iff {ranges : List TokenRange}
    (hin : ∀ r ∈ ranges, 0 < r.length ∧ r.start + r.length ≤ cs.length) :
    (ranges.take (trimRanges cs ranges).length).map (fun r => flat (r.chars cs)) =
        (trimRanges cs ranges).map (fun r => flat (r.chars cs)) ↔
      TrimmedFirst cs ranges := by
  induction ranges with
  | nil => exact iff_of_true rfl ⟨[], [], rfl, List.forall_mem_nil _, List.forall_mem_nil _⟩
  | cons r ranges ih =>
    obtain ⟨⟨hpos, hr⟩, hrest⟩ := List.forall_mem_cons.mp hin
    by_cases hblank : r.Blank cs
    · have htrim : trimRanges cs (r :: ranges) = trimRanges cs ranges := by
        have hzero := TokenRange.blank_iff.mp hblank
        simp [trimRanges, hzero]
      rw [htrim]
      constructor
      · intro htake
        cases hleft : trimRanges cs ranges with
        | nil =>
          have hblanks := trimRanges_eq_nil_iff.mp hleft
          exact ⟨[], r :: ranges, rfl, List.forall_mem_nil _,
            List.forall_mem_cons.mpr ⟨hblank, hblanks⟩⟩
        | cons t left =>
          rw [hleft, List.length_cons, List.take_succ_cons, List.map_cons, List.map_cons] at htake
          have ht : t ∈ trimRanges cs ranges := by simp [hleft]
          obtain ⟨hmem, hpos⟩ := List.mem_filter.mp ht
          obtain ⟨t, _, rfl⟩ := List.mem_map.mp hmem
          have hnot : ¬ t.Blank cs := fun h => by
            rw [TokenRange.blank_iff.mp h] at hpos
            cases hpos
          exact absurd (List.cons.inj htake).1 (flat_ne_of_blank hblank hnot)
      · rintro ⟨kept, blanks, heq, hkept, hblanks⟩
        cases kept with
        | nil =>
          have hnil : trimRanges cs ranges = [] := trimRanges_eq_nil_iff.mpr fun t ht =>
            hblanks t (by rw [← List.nil_append blanks, ← heq]; simp [ht])
          rw [hnil]
          rfl
        | cons r' kept =>
          obtain ⟨rfl, _⟩ := List.cons.inj heq
          have htrimmed := hkept r List.mem_cons_self
          have hzero := TokenRange.blank_iff.mp hblank
          rw [htrimmed.trimRange_eq hr] at hzero
          omega
    · have htrim : trimRanges cs (r :: ranges) = trimRange cs r :: trimRanges cs ranges := by
        have hne : 0 < (trimRange cs r).length :=
          Nat.pos_of_ne_zero fun h => hblank (TokenRange.blank_iff.mpr h)
        simp [trimRanges, hne]
      rw [htrim, List.length_cons, List.take_succ_cons, List.map_cons, List.map_cons,
        List.cons.injEq, ih hrest]
      constructor
      · rintro ⟨hflat, kept, blanks, rfl, hkept, hblanks⟩
        have htrimmed := TokenRange.trimmed_of_flat_eq hcut hflat
        exact ⟨r :: kept, blanks, rfl, List.forall_mem_cons.mpr ⟨htrimmed, hkept⟩, hblanks⟩
      · rintro ⟨kept, blanks, heq, hkept, hblanks⟩
        cases kept with
        | nil => exact absurd (hblanks r (by rw [← List.nil_append blanks, ← heq]; simp)) hblank
        | cons r' kept =>
          obtain ⟨rfl, rfl⟩ := List.cons.inj heq
          obtain ⟨htrimmed, hkept⟩ := List.forall_mem_cons.mp hkept
          exact ⟨by rw [htrimmed.trimRange_eq hr], kept, blanks, rfl, hkept, hblanks⟩

end TrimmedFirst

/-! ### The ranges of the reported tokens -/

/-- The spans of a sentence delimit the ranges that its inner tokens have. -/
theorem Read.Placed.map_spanText {doc : List Character} {read : Read} (h : read.Placed doc) :
    read.spans.map (spanText doc) =
      (read.ranges.take read.forms.length).map fun r => flat (r.chars (chars read.block)) := by
  rw [Read.spans, List.map_map]
  apply List.map_congr_left
  intro r hr
  obtain ⟨_, hin⟩ := h.ordered.within r (List.mem_of_mem_take hr)
  obtain ⟨after, hafter⟩ := h.text
  have hle : r.length ≤ ((chars read.block).drop r.start).length := by
    rw [List.length_drop]
    omega
  rw [Function.comp_apply, spanText, Nat.add_sub_cancel_left, ← List.drop_drop, ← hafter,
    List.drop_append_of_le_length (by omega), List.take_append_of_le_length hle,
    TokenRange.chars]

/-- The texts of the forms are those of their trimmed ranges. -/
theorem Read.formTexts_eq (read : Read) :
    read.formTexts = (trimRanges (chars read.block) read.ranges).map fun r =>
      flat (r.chars (chars read.block)) := by
  rw [Read.formTexts, Read.forms, trimForms_map_formOf, List.map_map]
  exact List.map_congr_left fun r _ => text_formOf read.block r

/-- The spans of one sentence are those of its reported tokens if nothing was trimmed. -/
theorem Read.Placed.map_spanText_iff {doc : List Character} {read : Read} (h : read.Placed doc) :
    read.spans.map (spanText doc) = read.formTexts ↔
      TrimmedFirst (chars read.block) read.ranges := by
  have hlength : read.forms.length = (trimRanges (chars read.block) read.ranges).length := by
    rw [Read.forms, trimForms_map_formOf, List.length_map]
  rw [h.map_spanText, read.formTexts_eq, hlength]
  exact trimmedFirst_iff (fun c hc => wellCut_chars hc) h.ordered.within

/-- Pieces of the same lengths are together the same exactly if each of them is. -/
private theorem flatMap_eq_flatMap_iff {α β : Type} {f g : α → List β} {l : List α}
    (hlength : ∀ a ∈ l, (f a).length = (g a).length) :
    l.flatMap f = l.flatMap g ↔ ∀ a ∈ l, f a = g a := by
  induction l with
  | nil => simp
  | cons a l ih =>
    obtain ⟨ha, hl⟩ := List.forall_mem_cons.mp hlength
    rw [List.flatMap_cons, List.flatMap_cons, List.forall_mem_cons, ← ih hl]
    constructor
    · exact fun h => List.append_inj h ha
    · rintro ⟨hfirst, hrest⟩
      rw [hfirst, hrest]

/-- The ranges that are stored delimit the reported tokens of a document exactly if
in no sentence a token had to be trimmed, or erased before one that is reported. -/
theorem delimits_iff {σ : Type} {opts : Options} {inner : InnerTokenizer σ}
    {blocks : List Block} {w w' : State σ} (hranges : opts.tokenRanges = true)
    (horderly : inner.Orderly) (hbegins : Begins opts inner w)
    (h : Document opts inner w blocks w') :
    (∃ spans, Delimits (documentChars blocks) (documentReads blocks) spans) ↔
      ∀ read ∈ documentReads blocks, TrimmedFirst (chars read.block) read.ranges := by
  obtain ⟨hplaced, hspans⟩ := placed_of_document hranges horderly hbegins h
  have hfields : (documentReads blocks).flatMap Read.fields =
      ((documentReads blocks).flatMap Read.spans).map fun s =>
        some (Token.rangeText s.1 s.2) := by
    rw [List.map_flatMap]
    exact List.flatMap_congr fun read hread => (hplaced read hread).1.fields
  have htexts : ((documentReads blocks).flatMap Read.spans).map (spanText (documentChars blocks)) =
      (documentReads blocks).flatMap Read.formTexts ↔
        ∀ read ∈ documentReads blocks, TrimmedFirst (chars read.block) read.ranges := by
    rw [List.map_flatMap, flatMap_eq_flatMap_iff]
    · exact forall₂_congr fun read hread => (hplaced read hread).1.map_spanText_iff
    · intro read _
      rw [List.length_map, Read.spans, List.length_map, List.length_take, Read.formTexts,
        List.length_map, Nat.min_eq_left read.length_forms_le]
  rw [← htexts]
  constructor
  · rintro ⟨spans, hdelimits⟩
    have hinjective : Function.Injective fun s : ℕ × ℕ => some (Token.rangeText s.1 s.2) := by
      intro s s' heq
      exact Prod.ext_iff.mpr (rangeText_injective (Option.some.inj heq))
    have hsame : (documentReads blocks).flatMap Read.spans = spans :=
      List.map_injective_iff.mpr hinjective (hfields.symm.trans hdelimits.fields)
    rw [hsame]
    exact hdelimits.texts
  · exact fun h => ⟨_, hfields, h, hspans⟩

section Samples

/-- The wrapper with ranges over the tokenizer with one token. -/
def rangeOptions : Options where
  tables := asciiTables
  splitter := none
  normalizedSpaces := false
  tokenRanges := true

/-- The range of a token after a space. -/
theorem delimits_iff_sample :
    ∃ spans, Delimits (documentChars (exhaustedText rangeOptions (bytes " a b") 3))
      (documentReads (exhaustedText rangeOptions (bytes " a b") 3)) spans := by
  have h := @document_exhaustedText rangeOptions (bytes " a b") 3 [⟨0, 3⟩] (by decide)
    ⟨1, by decide⟩
  apply (delimits_iff rfl (orderly_wholeText asciiTables) (.fresh ⟨0, 0⟩) h).mpr
  intro read hread
  obtain rfl := List.mem_singleton.mp hread
  exact ⟨[⟨0, 3⟩], [], rfl, List.forall_mem_singleton.mpr (by decide), List.forall_mem_nil _⟩

/-- A token that ends with a space: its range is `0:2`, and the reported token has one
character. -/
theorem not_delimits_space :
    ∃ (opts : Options) (inner : InnerTokenizer TokenRange) (w w' : State TokenRange)
      (blocks : List Block),
      opts.tokenRanges = true ∧ inner.Orderly ∧ Begins opts inner w ∧
        Document opts inner w blocks w' ∧
        ¬ ∃ spans, Delimits (documentChars blocks) (documentReads blocks) spans := by
  have h := @document_exhaustedText rangeOptions (bytes "a ") 2 [⟨0, 1⟩] (by decide)
    ⟨1, by decide⟩
  refine ⟨rangeOptions, wholeText asciiTables, _, _, _, rfl, orderly_wholeText asciiTables,
    .fresh ⟨0, 0⟩, h, ?_⟩
  rintro ⟨spans, hdelimits⟩
  have hfields : (documentReads (exhaustedText rangeOptions (bytes "a ") 2)).flatMap Read.fields =
      [some (Token.rangeText 0 2)] := by decide
  obtain ⟨span, rest, rfl, hspan, hrest⟩ :=
    List.map_eq_cons_iff.mp (hdelimits.fields.symm.trans hfields)
  obtain rfl := List.map_eq_nil_iff.mp hrest
  obtain ⟨hstart, hstop⟩ := rangeText_injective (Option.some.inj hspan)
  obtain rfl : span = (0, 2) := Prod.ext hstart hstop
  exact absurd hdelimits.texts (by decide)

end Samples

end UDPipe.Tokenizer
