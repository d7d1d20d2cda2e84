import UDPipe.Evaluator.TokenizedText

/-!
# When a tokenizer has the gold characters

The tokens of a conforming tokenizer have all characters that are not white space. The
gold data has all characters but spaces, so a character of a form that is white space
for the tokenizer is lost by a tokenizer that leaves it out. Two more things matter: a
zero ends a form or a token, and the forms are decoded apart. Three tokenizers show
that each of the conditions is needed.
-/

namespace UDPipe.Evaluator

open Utf8 Tokenizer

/-- The forms of a paragraph are decoded in its text as they are apart, none of their
characters is white space but a space, and nothing is compared after a zero. -/
structure Legible (tables : Unicode) (pieces : List Bytes) : Prop where
  joined : chars pieces.flatten = pieces.flatMap chars
  notSpace : ∀ c ∈ chars pieces.flatten, visible c = true → tables.isSpace c.code = false
  zeroLast : codes ((chars pieces.flatten).dropWhile fun c => c.code != 0) = []

instance (tables : Unicode) (pieces : List Bytes) : Decidable (Legible tables pieces) :=
  decidable_of_iff (chars pieces.flatten = pieces.flatMap chars ∧
      (∀ c ∈ chars pieces.flatten, visible c = true → tables.isSpace c.code = false) ∧
      codes ((chars pieces.flatten).dropWhile fun c => c.code != 0) = [])
    ⟨fun h => ⟨h.1, h.2.1, h.2.2⟩, fun h => ⟨h.joined, h.notSpace, h.zeroLast⟩⟩

/-! ### Blocks -/

section Block

variable {opts : Options} {text : Bytes}

/-- The characters of a text are the white space before the block and those of the block. -/
theorem chars_eq_append (opts : Options) (text : Bytes) :
    chars text = opts.leadingSpaces text ++ chars (blockOf opts text) :=
  (leadingSpaces_append text).symm

/-- The leading spaces are spaces. -/
theorem isSpace_of_mem_leadingSpaces {c : Character} (h : c ∈ opts.leadingSpaces text) :
    opts.tables.isSpace c.code = true :=
  List.mem_takeWhile_imp (p := fun c : Character => opts.tables.isSpace c.code) h

/-- The white space before the block has no zero. -/
theorem leadingSpaces_ne_zero (hzero : opts.tables.isSpace 0 = false) :
    ∀ c ∈ opts.leadingSpaces text, c.code ≠ 0 := by
  intro c hc hcode
  have := isSpace_of_mem_leadingSpaces hc
  rw [hcode, hzero] at this
  cases this

/-- A text shows what the white space before the block has, and what the block shows. -/
theorem shown_text (hzero : opts.tables.isSpace 0 = false) :
    shown (chars text) = codes (opts.leadingSpaces text) ++ shown (chars (blockOf opts text)) := by
  rw [chars_eq_append opts text, shown_append (leadingSpaces_ne_zero hzero)]

/-- What follows the first zero in the text follows it in the block. -/
theorem dropWhile_text (hzero : opts.tables.isSpace 0 = false) :
    (chars text).dropWhile (fun c => c.code != 0) =
      (chars (blockOf opts text)).dropWhile fun c => c.code != 0 := by
  rw [chars_eq_append opts text]
  exact List.dropWhile_append_of_pos fun c hc => by simpa using leadingSpaces_ne_zero hzero c hc

end Block

/-! ### Legible paragraphs -/

/-- Tokens that have all characters with a property, in the order of the text. -/
def Covering (p : Character → Bool) (cs : List Character) (ranges : List TokenRange) : Prop :=
  Ordered cs.length ranges ∧ ∀ i, ∀ c ∈ cs[i]?, p c = true →
    ∃ r ∈ ranges, r.start ≤ i ∧ i < r.start + r.length

/-- The characters with a property that tokens have are those of the text. -/
theorem Covering.flatMap_filter {p : Character → Bool} {cs : List Character}
    {ranges : List TokenRange} (h : Covering p cs ranges) :
    (ranges.flatMap fun r => (r.chars cs).filter p) = cs.filter p := by
  have hspans := @Spans.filter_drop_eq_flatMap Character p cs
    (ranges.map fun r => (r.start, r.length)) 0 (fun _ _ => Nat.zero_le _)
    (List.pairwise_map.mpr h.1.disjoint) (fun i c _ hc hp => by
      obtain ⟨r, hr, hcontains⟩ := h.2 i c hc hp
      exact ⟨_, List.mem_map_of_mem hr, hcontains⟩)
  rw [List.drop_zero, List.flatMap_map] at hspans
  exact hspans.symm

/-- Nothing is compared after a zero in a part of a text where nothing is after one in it. -/
theorem shown_eq_codes_of_infix {cs part : List Character} (hpartOf : part <:+: cs)
    (h : codes (cs.dropWhile fun c => c.code != 0) = []) : shown part = codes part := by
  obtain ⟨before, after, rfl⟩ := hpartOf
  have hpart : codes (part.dropWhile fun c => c.code != 0) = [] := by
    rw [codes_eq_nil] at h ⊢
    intro c hc
    refine h c ?_
    have hne : part.dropWhile (fun c => c.code != 0) ≠ [] := List.ne_nil_of_mem hc
    rw [List.append_assoc, List.dropWhile_append]
    split
    · rw [List.dropWhile_append, if_neg (by simpa using hne)]
      exact List.mem_append_left after hc
    · exact List.mem_append_right _ (List.mem_append_left after
        ((List.dropWhile_suffix _).mem hc))
  rw [codes_eq_shown_append part, hpart, List.append_nil]

/-- In a legible paragraph, tokens that have all characters that are not white space show
what the pieces show. -/
theorem Legible.shownBy_eq {opts : Options} {pieces : List Bytes}
    (h : Legible opts.tables pieces) {ranges : List TokenRange}
    (hcover : Covering (fun c => !opts.tables.isSpace c.code)
      (chars (blockOf opts pieces.flatten)) ranges) :
    shownBy (blockOf opts pieces.flatten) ranges =
      pieces.flatMap fun piece => shown (chars piece) := by
  have htext := chars_eq_append opts pieces.flatten
  have hvisible : Covering visible (chars (blockOf opts pieces.flatten)) ranges := by
    refine ⟨hcover.1, fun i c hc hvisible => hcover.2 i c hc ?_⟩
    have hmem : c ∈ chars pieces.flatten :=
      htext ▸ List.mem_append_right _ (List.mem_of_getElem? (Option.mem_def.mp hc))
    simp [h.notSpace c hmem hvisible]
  have hrange : ∀ r : TokenRange, r.chars (chars (blockOf opts pieces.flatten)) <:+:
      chars pieces.flatten := by
    intro r
    refine ((List.take_prefix _ _).isInfix.trans (List.drop_suffix _ _).isInfix).trans ?_
    rw [htext]
    exact (List.suffix_append _ _).isInfix
  have hpiece : ∀ piece ∈ pieces, chars piece <:+: chars pieces.flatten := by
    intro piece hpiece
    obtain ⟨before, after, rfl⟩ := List.append_of_mem hpiece
    rw [h.joined, List.flatMap_append, List.flatMap_cons]
    exact ⟨_, _, List.append_assoc .. ⟩
  have hleading : codes (opts.leadingSpaces pieces.flatten) = [] := by
    refine codes_eq_nil.mpr fun c hc => ?_
    by_contra hvisible
    have hmem : c ∈ chars pieces.flatten := htext ▸ List.mem_append_left _ hc
    have := h.notSpace c hmem (by simpa using hvisible)
    rw [isSpace_of_mem_leadingSpaces hc] at this
    cases this
  calc
    shownBy (blockOf opts pieces.flatten) ranges
    _ = ranges.flatMap fun r => codes (r.chars (chars (blockOf opts pieces.flatten))) :=
      List.flatMap_congr fun r _ => shown_eq_codes_of_infix (hrange r) h.zeroLast
    _ = codes (chars (blockOf opts pieces.flatten)) := by
      rw [codes, ← hvisible.flatMap_filter, List.map_flatMap]
      rfl
    _ = codes (chars pieces.flatten) := by rw [htext, codes_append, hleading, List.nil_append]
    _ = pieces.flatMap fun piece => codes (chars piece) := by
      rw [h.joined, codes, List.filter_flatMap, List.map_flatMap]
      rfl
    _ = pieces.flatMap fun piece => shown (chars piece) :=
      (List.flatMap_congr fun piece hp =>
        shown_eq_codes_of_infix (hpiece piece hp) h.zeroLast).symm

/-! ### Three tokenizers -/

/-- The inner tokenizer whose tokens are a function of the characters, in one sentence. -/
def segmenter (segment : List Character → List TokenRange) : InnerTokenizer (List TokenRange) where
  setText text _ := segment (chars text)
  nextSentence ranges := if ranges = [] then (none, []) else (some ranges, [])

/-- A tokenizer that cuts a text into its tokens returns them. -/
theorem tokenizes_segmenter (segment : List Character → List TokenRange) (text : Bytes)
    (s : List TokenRange) : ∃ sentences t, (segmenter segment).Tokenizes
      ((segmenter segment).setText text s) sentences t ∧
      sentences.flatten = segment (chars text) := by
  have hempty : (segmenter segment).Tokenizes [] [] [] := .stop rfl
  by_cases h : segment (chars text) = []
  · refine ⟨[], [], ?_, h.symm⟩
    have hset : (segmenter segment).setText text s = [] := h
    rw [hset]
    exact hempty
  · exact ⟨[segment (chars text)], [], .sentence (if_neg h) hempty, by simp⟩

/-- The characters with a property, each a token. -/
def units (p : Character → Bool) (cs : List Character) : List TokenRange :=
  ((List.range cs.length).filter fun i => cs[i]?.any p).map fun i => ⟨i, 1⟩

/-- All characters, as one token. -/
def whole (cs : List Character) : List TokenRange := if cs = [] then [] else [⟨0, cs.length⟩]

/-- A unit is a single character of the kind. -/
theorem mem_units {p : Character → Bool} {cs : List Character} {r : TokenRange}
    (h : r ∈ units p cs) : ∃ i c, r = ⟨i, 1⟩ ∧ cs[i]? = some c ∧ p c = true := by
  obtain ⟨i, hi, rfl⟩ := List.mem_map.mp h
  obtain ⟨c, hc, hp⟩ := (Option.any_eq_true _ _).mp (List.mem_filter.mp hi).2
  exact ⟨i, c, rfl, hc, hp⟩

/-- Units cover the characters of their kind. -/
theorem covering_units (p : Character → Bool) (cs : List Character) :
    Covering p cs (units p cs) := by
  refine ⟨⟨fun r hr => ?_, ?_⟩, fun i c hc hp => ?_⟩
  · obtain ⟨i, c, rfl, hc, _⟩ := mem_units hr
    have := (List.getElem?_eq_some_iff.mp hc).1
    exact ⟨Nat.one_pos, this⟩
  · refine List.pairwise_map.mpr ((List.pairwise_lt_range.filter _).imp fun {i j} hij => ?_)
    exact hij
  · have hlt := (List.getElem?_eq_some_iff.mp (Option.mem_def.mp hc)).1
    refine ⟨⟨i, 1⟩, List.mem_map_of_mem (List.mem_filter.mpr ⟨List.mem_range.mpr hlt, ?_⟩),
      le_rfl, Nat.lt_succ_self i⟩
    exact (Option.any_eq_true _ _).mpr ⟨c, hc, hp⟩

/-- The whole text covers all of its characters. -/
theorem covering_whole (p : Character → Bool) (cs : List Character) : Covering p cs (whole cs) := by
  unfold whole
  split
  · rename_i h
    subst h
    exact ⟨⟨List.forall_mem_nil _, .nil⟩, fun i c hc => by simp at hc⟩
  · rename_i h
    refine ⟨⟨List.forall_mem_singleton.mpr
        ⟨List.length_pos_iff.mpr h, Nat.le_of_eq (Nat.zero_add _)⟩,
      List.pairwise_singleton _ _⟩, fun i c hc _ => ?_⟩
    have hlt := (List.getElem?_eq_some_iff.mp (Option.mem_def.mp hc)).1
    exact ⟨_, List.mem_singleton_self _, Nat.zero_le i, by simpa using hlt⟩

/-- A function that covers all characters that are not white space conforms. -/
theorem conforms_segmenter {tables : Unicode} {segment : List Character → List TokenRange}
    (h : ∀ cs, Covering (fun c => !tables.isSpace c.code) cs (segment cs)) :
    (segmenter segment).Conforms tables := by
  intro text s
  obtain ⟨sentences, t, htokenizes, hflatten⟩ := tokenizes_segmenter segment text s
  refine ⟨sentences, t, htokenizes, ?_, fun i c hc hspace => ?_⟩
  · rw [hflatten]
    exact (h _).1
  · rw [hflatten]
    exact (h _).2 i c hc (by simp [hspace])

/-- Single characters show what is compared of them. -/
theorem shownBy_units (p : Character → Bool) (block : Bytes) :
    shownBy block (units p (chars block)) = codes ((chars block).filter p) := by
  have hone : ∀ r ∈ units p (chars block), shown (r.chars (chars block)) =
      ((r.chars (chars block)).filter fun c => visible c && p c).map Character.code := by
    intro r hr
    obtain ⟨i, c, rfl, hc, hp⟩ := mem_units hr
    have hchars : TokenRange.chars (chars block) ⟨i, 1⟩ = [c] := by
      rw [TokenRange.chars, List.take_one, List.head?_drop, hc, Option.toList_some]
    rw [hchars]
    by_cases hzero : c.code = 0
    · simp [shown_cons_of_zero hzero, visible, hzero]
    · rw [shown_cons hzero]
      cases hvisible : visible c <;> simp [hvisible, hp]
  have hcover : Covering (fun c => visible c && p c) (chars block) (units p (chars block)) := by
    refine ⟨(covering_units p _).1, fun i c hc hboth => (covering_units p _).2 i c hc ?_⟩
    exact (Bool.and_eq_true _ _ ▸ hboth).2
  rw [shownBy, List.flatMap_congr hone, ← List.map_flatMap, hcover.flatMap_filter, codes,
    List.filter_filter]

/-- The whole text shows all that is shown. -/
theorem shownBy_whole (block : Bytes) :
    shownBy block (whole (chars block)) = shown (chars block) := by
  unfold whole
  split
  · rename_i h
    rw [h]
    rfl
  · simp [shownBy, TokenRange.chars]

/-! ### Evaluating a tokenizer -/

/-- The evaluation of the tokenizer ends, and its data has the characters of the gold data. -/
def HasGoldCharacters {σ : Type} (opts : Options) (inner : InnerTokenizer σ) (s : σ)
    (gold : List Sentence) : Prop :=
  ∃ data, (tokenizeParagraphs (wrapper inner opts) opts.tables (plainTextParagraphs gold)
      (fresh s) {}).Returns (.ok data) ∧
    data.chars = (EvaluationData.ofSentences opts.tables gold).chars

/-- The characters of a legible gold text are those of any tokenizer. -/
theorem hasGoldCharacters_of_legible {σ : Type} {opts : Options} {inner : InnerTokenizer σ}
    (hconforms : inner.Conforms opts.tables) (s : σ) {gold : List Sentence}
    (hclean : ∀ s ∈ gold, ∀ t ∈ s.surface, ∀ d ∈ t.token.form, d ≠ tab ∧ isLineEnd d = false)
    (hlegible : ∀ pieces ∈ paragraphPieces gold, Legible opts.tables pieces) :
    HasGoldCharacters opts inner s gold := by
  have hgood : ∀ text s, ∃ sentences t, inner.Tokenizes (inner.setText text s) sentences t ∧
      Covering (fun c => !opts.tables.isSpace c.code) (chars text) sentences.flatten := by
    intro text s
    obtain ⟨sentences, t, htokenizes, hordered, hcover⟩ := hconforms text s
    exact ⟨sentences, t, htokenizes, hordered, fun i c hc hspace =>
      hcover i c hc (by simpa using hspace)⟩
  obtain ⟨data, outs, hreturns, hdata, houts⟩ :=
    @tokenizeParagraphs_returns σ opts inner opts.tables
      (fun text ranges => Covering (fun c => !opts.tables.isSpace c.code) (chars text) ranges)
      hgood (plainTextParagraphs gold) (fresh s) opts.own_nil {}
  refine ⟨data, hreturns, ?_⟩
  rw [hdata, chars_gold opts.tables hclean, List.nil_append]
  rw [plainTextParagraphs_eq] at houts
  clear hdata hreturns
  generalize paragraphPieces gold = ps at houts hlegible
  induction ps generalizing outs with
  | nil =>
    cases houts
    rfl
  | cons pieces ps ih =>
    obtain ⟨hthis, hrest⟩ := List.forall_mem_cons.mp hlegible
    cases houts with
    | cons hout houts =>
      obtain ⟨ranges, hcover, rfl⟩ := hout
      rw [List.flatten_cons, List.flatMap_cons, ih _ houts hrest, hthis.shownBy_eq hcover]

/-- A wrapper without a splitter. -/
def plainWrapper (tables : Unicode) : Options where
  tables
  splitter := none
  normalizedSpaces := false
  tokenRanges := false

/-- If a segmenting tokenizer has the gold characters, it shows as many in the paragraphs
as the gold data. -/
theorem sum_shownBy {tables : Unicode} {segment : List Character → List TokenRange}
    {gold : List Sentence}
    (hclean : ∀ s ∈ gold, ∀ t ∈ s.surface, ∀ d ∈ t.token.form, d ≠ tab ∧ isLineEnd d = false)
    (h : HasGoldCharacters (plainWrapper tables) (segmenter segment) [] gold) :
    ((paragraphPieces gold).map fun pieces =>
      let block := blockOf (plainWrapper tables) pieces.flatten
      (shownBy block (segment (chars block))).length).sum =
    ((paragraphPieces gold).map fun pieces =>
      (pieces.flatMap fun piece => shown (chars piece)).length).sum := by
  obtain ⟨data', hreturns', hchars⟩ := h
  obtain ⟨data, outs, hreturns, hdata, houts⟩ :=
    @tokenizeParagraphs_returns _ (plainWrapper tables) (segmenter segment) tables
      (fun text ranges => ranges = segment (chars text)) (tokenizes_segmenter segment)
      (plainTextParagraphs gold) (fresh []) (Options.own_nil _) {}
  obtain rfl := Except.ok.inj (hreturns'.unique hreturns)
  have hboth : outs.flatten = (EvaluationData.ofSentences tables gold).chars := by
    have hall : data'.chars = outs.flatten := by rw [hdata, List.nil_append]
    exact hall.symm.trans hchars
  rw [chars_gold tables hclean] at hboth
  have houts' : outs = (paragraphPieces gold).map fun pieces =>
      let block := blockOf (plainWrapper tables) pieces.flatten
      shownBy block (segment (chars block)) := by
    rw [plainTextParagraphs_eq] at houts
    clear hboth hdata hreturns hreturns' hchars
    generalize paragraphPieces gold = ps at houts
    induction ps generalizing outs with
    | nil =>
      cases houts
      rfl
    | cons pieces ps ih =>
      cases houts with
      | cons hout houts =>
        obtain ⟨ranges, rfl, rfl⟩ := hout
        rw [List.map_cons, ih _ houts]
  have hlength := congrArg List.length hboth
  rw [houts', List.length_flatten, List.length_flatMap, List.map_map] at hlength
  exact hlength

/-- If every conforming tokenizer has the gold characters, the paragraphs are legible. -/
theorem legible_of_hasGoldCharacters {tables : Unicode} (hzero : tables.isSpace 0 = false)
    {gold : List Sentence}
    (hclean : ∀ s ∈ gold, ∀ t ∈ s.surface, ∀ d ∈ t.token.form, d ≠ tab ∧ isLineEnd d = false)
    (h : ∀ segment : List Character → List TokenRange,
      (∀ cs, Covering (fun c => !tables.isSpace c.code) cs (segment cs)) →
      HasGoldCharacters (plainWrapper tables) (segmenter segment) [] gold) :
    ∀ pieces ∈ paragraphPieces gold, Legible tables pieces := by
  have hwhole := sum_shownBy hclean (h whole (covering_whole _))
  have hall := sum_shownBy hclean (h (units fun _ => true) fun cs =>
    ⟨(covering_units _ cs).1, fun i c hc _ => (covering_units _ cs).2 i c hc rfl⟩)
  have hvisible := sum_shownBy hclean (h (units fun c => !tables.isSpace c.code)
    (covering_units _))
  simp only [shownBy_whole, shownBy_units, List.filter_true] at hwhole hall hvisible
  have hshown : ∀ pieces : List Bytes, shown (chars pieces.flatten) =
      codes ((plainWrapper tables).leadingSpaces pieces.flatten) ++
        shown (chars (blockOf (plainWrapper tables) pieces.flatten)) :=
    fun pieces => shown_text hzero
  -- one token for each paragraph shows at most what the pieces show together
  have hwhole' := Spans.eq_of_sum_eq (fun pieces _ => by
    have hle := (length_shown_flatten_le pieces).1
    rw [hshown, List.length_append] at hle
    omega) hwhole
  have hcodes : ∀ pieces : List Bytes,
      (codes (chars (blockOf (plainWrapper tables) pieces.flatten))).length =
        (shown (chars (blockOf (plainWrapper tables) pieces.flatten))).length +
          (codes ((chars (blockOf (plainWrapper tables) pieces.flatten)).dropWhile
            fun c => c.code != 0)).length := by
    intro pieces
    rw [← List.length_append, ← codes_eq_shown_append]
  -- all characters as tokens show at least that much
  have hall' := Spans.eq_of_sum_eq (fun pieces hp => by
    have := hwhole' pieces hp
    have := hcodes pieces
    omega) hall.symm
  have hfilter : ∀ cs : List Character,
      (codes (cs.filter fun c => !tables.isSpace c.code)).length ≤ (codes cs).length := by
    intro cs
    rw [codes, codes, List.length_map, List.length_map, List.filter_comm]
    exact List.length_filter_le _ _
  have hvisible' := Spans.eq_of_sum_eq (fun pieces hp => by
    have := hall' pieces hp
    have := hfilter (chars (blockOf (plainWrapper tables) pieces.flatten))
    omega) hvisible
  intro pieces hp
  have hthis := hwhole' pieces hp
  have hthisAll := hall' pieces hp
  have hthisVisible := hvisible' pieces hp
  obtain ⟨hle, hjoined⟩ := length_shown_flatten_le pieces
  rw [hshown, List.length_append] at hle hjoined
  refine ⟨hjoined (by omega), fun c hc hcvisible => ?_, ?_⟩
  · rw [chars_eq_append (plainWrapper tables)] at hc
    rcases List.mem_append.mp hc with hleading | hblock
    · have hnil : codes ((plainWrapper tables).leadingSpaces pieces.flatten) = [] :=
        List.length_eq_zero_iff.mp (by omega)
      rw [codes_eq_nil.mp hnil c hleading] at hcvisible
      cases hcvisible
    · have hlength : (codes ((chars (blockOf (plainWrapper tables) pieces.flatten)).filter
          fun c => !tables.isSpace c.code)).length =
          (codes (chars (blockOf (plainWrapper tables) pieces.flatten))).length := by omega
      rw [codes, codes, List.length_map, List.length_map, List.filter_comm,
        List.length_filter_eq_length_iff] at hlength
      simpa using hlength c (List.mem_filter.mpr ⟨hblock, hcvisible⟩)
  · rw [@dropWhile_text (plainWrapper tables) _ hzero]
    have := hcodes pieces
    exact List.length_eq_zero_iff.mp (by omega)

/-- A sentence that the CoNLL-U reader accepts. -/
def ReadByConllu (s : Sentence) : Prop :=
  ∃ version text r, (Conllu.nextSentence version text).Returns r ∧ r.returned = true ∧
    r.sentence = s

/-- A form that was read has neither tabs nor line ends. -/
theorem ReadByConllu.form_clean {s : Sentence} (h : ReadByConllu s) :
    ∀ t ∈ s.surface, ∀ d ∈ t.token.form, d ≠ tab ∧ isLineEnd d = false := by
  obtain ⟨version, text, r, hcall, hreturned, rfl⟩ := h
  obtain ⟨_, words, haccepted⟩ := Conllu.accepted_of_returns hcall hreturned
  exact Evaluator.form_clean (Conllu.wellFormed_of_accepted haccepted)

/-- For gold sentences that were read, every conforming tokenizer has the characters of the
gold data if and only if all paragraphs are legible. -/
theorem hasGoldCharacters_iff {tables : Unicode} (hzero : tables.isSpace 0 = false)
    {gold : List Sentence} (hgold : ∀ s ∈ gold, ReadByConllu s) :
    (∀ (σ : Type) (inner : InnerTokenizer σ) (s : σ) (opts : Options), opts.tables = tables →
      inner.Conforms tables → HasGoldCharacters opts inner s gold) ↔
      ∀ pieces ∈ paragraphPieces gold, Legible tables pieces := by
  have hclean := fun s hs => (hgold s hs).form_clean
  constructor
  · exact fun h => legible_of_hasGoldCharacters hzero hclean fun segment hsegment =>
      h _ _ _ _ rfl (conforms_segmenter hsegment)
  · rintro hlegible σ inner s opts rfl hconforms
    exact hasGoldCharacters_of_legible hconforms s hclean hlegible

/-- Tables for lowercase ASCII letters, the space and the no-break space. -/
def spaceTables : Unicode where
  category code := if code = 32 ∨ code = 160 then .Zs else .Ll
  lowercase := id
  uppercase := id

/-- A sentence with a multiword token that has a space in its form. -/
theorem hasGoldCharacters_iff_sample : ∃ gold, ReadByConllu gold ∧
    ∀ (σ : Type) (inner : InnerTokenizer σ) (s : σ) (opts : Options), opts.tables = spaceTables →
      inner.Conforms spaceTables → HasGoldCharacters opts inner s [gold] := by
  obtain ⟨r, hr, hcheck⟩ : ∃ r, (Conllu.nextSentence 2 (bytes ("1-2\ta b\t_\t_\t_\t_\t_\t_\t_\t_\n" ++
      "1\ta\ta\t_\t_\t_\t0\t_\t_\t_\n2\tb\tb\t_\t_\t_\t1\t_\t_\t_\n"))).Returns r ∧
      (r.returned && (paragraphPieces [r.sentence]).all fun pieces =>
        decide (Legible spaceTables pieces)) = true :=
    Comp.exists_returns_of_run 9 (by decide +kernel)
  obtain ⟨hreturned, hlegible⟩ := (Bool.and_eq_true _ _).mp hcheck
  have hgold : ReadByConllu r.sentence := ⟨2, _, r, hr, hreturned, rfl⟩
  exact ⟨r.sentence, hgold, (hasGoldCharacters_iff (by decide)
    (List.forall_mem_singleton.mpr hgold)).mpr (by simpa using hlegible)⟩

/-- A gold sentence with a no-break space in a form: a tokenizer that has a token for every
other character does not have the gold characters. -/
theorem not_hasGoldCharacters_noBreakSpace : ∃ r data,
    (Conllu.nextSentence 2 (bytes "1\ta" ++ [0xC2, 0xA0] ++
      bytes "b\tb\t_\t_\t_\t0\t_\t_\t_\n")).Returns r ∧ r.returned = true ∧
    (segmenter (units fun c => !spaceTables.isSpace c.code)).Conforms spaceTables ∧
    (tokenizeParagraphs
      (wrapper (segmenter (units fun c => !spaceTables.isSpace c.code)) (plainWrapper spaceTables))
      spaceTables (plainTextParagraphs [r.sentence]) (fresh []) {}).Returns (.ok data) ∧
    data.chars ≠ (EvaluationData.ofSentences spaceTables [r.sentence]).chars := by
  obtain ⟨r, hr, hcheck⟩ : ∃ r, (Conllu.nextSentence 2 (bytes "1\ta" ++ [0xC2, 0xA0] ++
      bytes "b\tb\t_\t_\t_\t0\t_\t_\t_\n")).Returns r ∧
      (r.returned && ((tokenizeParagraphs
        (wrapper (segmenter (units fun c => !spaceTables.isSpace c.code))
          (plainWrapper spaceTables))
        spaceTables (plainTextParagraphs [r.sentence]) (fresh []) {}).run 9).any fun result =>
          result.toOption.any fun data =>
            data.chars != (EvaluationData.ofSentences spaceTables [r.sentence]).chars) = true :=
    Comp.exists_returns_of_run 9 (by decide +kernel)
  obtain ⟨hreturned, hcheck⟩ := (Bool.and_eq_true _ _).mp hcheck
  obtain ⟨result, hresult, hcheck⟩ := Comp.exists_returns_of_run 9 hcheck
  obtain ⟨data, hdata, hchars⟩ := (Option.any_eq_true _ _).mp hcheck
  cases result with
  | error => cases hdata
  | ok data' =>
    obtain rfl := Option.some.inj hdata
    exact ⟨r, data', hr, hreturned, conforms_segmenter (covering_units _), hresult,
      by simpa using hchars⟩

end UDPipe.Evaluator
