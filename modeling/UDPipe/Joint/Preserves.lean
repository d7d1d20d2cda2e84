import UDPipe.Joint.Search

/-!
# The segmentation keeps the words

Where the backtrace ends, cutting the gathered words at its positions gives
sentences with the same words and multiword tokens in the same order. It ends
exactly if some sentences within the length limit have costs that do not add up
to `-∞`; for sums that do not overflow, if the limit admits every multiword token.
-/

namespace UDPipe.Joint

open Segmentation

/-! ### Cutting -/

/-- A sentence numbered anew, with its own root. -/
structure Renumbered (s : Sentence) : Prop extends Tokenized s where
  root : s.words.head? = some Sentence.rootWord

/-- No token crosses a cut. -/
theorem Gathered.idLast_le {all : AllWords} {paragraph : List Sentence} (h : Gathered all paragraph)
    {token : MultiwordToken} (htoken : token ∈ all.multiwordTokens) {position : ℕ}
    (hposition : position < all.words.length) (hcut : all.Cut position)
    (hfirst : token.idFirst ≤ position) : token.idLast ≤ position := by
  by_contra hlt
  exact (h.boundary position hposition).mp hcut token htoken ⟨hfirst, by omega⟩

/-- The first of the new sentences: `len` words after position `a`, and the tokens there. -/
def cutOne (words : List Word) (tokens : List MultiwordToken) (a len : ℕ) : Sentence where
  words := Sentence.rootWord :: ((words.drop (a + 1)).take len).map fun word =>
    { word with id := word.id - a, head := -1, children := [] }
  multiwordTokens := tokens.map (shiftToken (-a))

/-- Whether a token begins before the given word. -/
def beginsBefore (next : ℕ) (token : MultiwordToken) : Bool :=
  0 ≤ token.idFirst && token.idFirst < next

/-- The first sentence is cut off with the multiword tokens that begin in it. -/
theorem cutSentences_cons (words : List Word) (tokens : List MultiwordToken) (a len : ℕ)
    (lengths : List ℕ) :
    cutSentences words tokens (a + 1) (len :: lengths) =
      cutOne words (tokens.takeWhile (beginsBefore (a + 1 + len))) a len ::
        cutSentences words (tokens.dropWhile (beginsBefore (a + 1 + len))) (a + 1 + len) lengths := by
  have hoffset : ((a + 1 : ℕ) : ℤ) - 1 = a := by omega
  simp only [cutSentences, hoffset]
  rfl

/-- The first sentence is well formed when its tokens are within it. -/
theorem renumbered_cutOne {all : AllWords} {paragraph : List Sentence}
    {tokens : List MultiwordToken} {a len : ℕ} (h : Gathered all paragraph)
    (hlen : a + len < all.words.length) (hsub : tokens.Sublist all.multiwordTokens)
    (hfirst : ∀ token ∈ tokens, (a : ℤ) < token.idFirst ∧ token.idLast ≤ a + len) :
    Renumbered (cutOne all.words tokens a len) := by
  have hlength : (cutOne all.words tokens a len).words.length = len + 1 := by
    simp [cutOne]
    omega
  refine ⟨⟨by simp [cutOne], fun i word hi => ?_, fun token htoken => ?_, ?_⟩, rfl⟩
  · cases i with
    | zero =>
      obtain rfl := Option.some.inj hi
      rfl
    | succ i =>
      simp only [cutOne, List.getElem?_cons_succ, List.getElem?_map, List.getElem?_take,
        List.getElem?_drop] at hi
      split at hi
      · obtain ⟨old, hold, rfl⟩ := Option.map_eq_some_iff.mp hi
        have := h.ids _ old hold
        dsimp only
        omega
      · cases hi
  · obtain ⟨old, hold, rfl⟩ := List.mem_map.mp htoken
    have hrange := h.ranges old (hsub.subset hold)
    have hwithin := hfirst old hold
    simp only [hlength, shiftToken]
    omega
  · refine List.pairwise_map.mpr ((h.ranges_ordered.sublist hsub).imp fun hlt => ?_)
    simp only [shiftToken]
    omega

/-- Shifting a token back and forth leaves it. -/
theorem map_shiftToken_neg (tokens : List MultiwordToken) (a : ℤ) :
    (tokens.map (shiftToken (-a))).map (shiftToken a) = tokens := by
  have hid : shiftToken a ∘ shiftToken (-a) = id := by
    funext token
    simp [shiftToken]
  rw [List.map_map, hid, List.map_id]

/-- In ordered tokens, those after the ones that begin before a word begin there or later. -/
theorem le_of_mem_dropWhile {tokens : List MultiwordToken} (next : ℕ)
    (hordered : tokens.Pairwise fun token token' => token.idFirst < token'.idFirst)
    (hpos : ∀ token ∈ tokens, 0 ≤ token.idFirst) :
    ∀ token ∈ tokens.dropWhile (beginsBefore next), (next : ℤ) ≤ token.idFirst := by
  induction tokens with
  | nil => simp
  | cons first rest ih =>
    obtain ⟨hlt, hrest⟩ := List.pairwise_cons.mp hordered
    obtain ⟨hfirst, hpos'⟩ := List.forall_mem_cons.mp hpos
    rw [List.dropWhile_cons]
    split
    · exact ih hrest hpos'
    · rename_i hafter
      have hge : (next : ℤ) ≤ first.idFirst := by
        simp only [beginsBefore, hfirst, decide_true, Bool.true_and, decide_eq_true_eq] at hafter
        omega
      refine List.forall_mem_cons.mpr ⟨hge, fun token htoken => ?_⟩
      have := hlt token htoken
      omega

/-- Cutting the gathered words after position `a` at the ends of segments. -/
theorem cutSentences_spec {all : AllWords} {paragraph : List Sentence} {limit a b : ℕ}
    {lengths : List ℕ} {tokens : List MultiwordToken} (h : Gathered all paragraph)
    (hsegments : Segments all.Cut limit a lengths b) (hb : b + 1 = all.words.length)
    (hsuffix : tokens <:+ all.multiwordTokens)
    (hfirst : ∀ token ∈ tokens, (a : ℤ) < token.idFirst) :
    bareWords (cutSentences all.words tokens (a + 1) lengths) =
        (all.words.drop (a + 1)).map bare ∧
      absoluteTokens a (cutSentences all.words tokens (a + 1) lengths) = tokens ∧
      ∀ s ∈ cutSentences all.words tokens (a + 1) lengths, Renumbered s := by
  induction hsegments generalizing tokens with
  | nil a =>
    have htokens : tokens = [] := by
      refine List.eq_nil_iff_forall_not_mem.mpr fun token htoken => ?_
      have := h.ranges token (hsuffix.subset htoken)
      have := hfirst token htoken
      omega
    subst htokens
    simp [cutSentences, bareWords, absoluteTokens, hb]
  | @cons a b len lengths hpos hle hcut hrest ih =>
    have hend := hrest.add_sum
    have hsplit := List.takeWhile_append_dropWhile (p := beginsBefore (a + 1 + len)) (l := tokens)
    have hordered : tokens.Pairwise fun token token' => token.idFirst < token'.idFirst := by
      refine (h.ranges_ordered.sublist hsuffix.sublist).imp_of_mem fun htoken _ hlt => ?_
      have := h.ranges _ (hsuffix.subset htoken)
      omega
    have hafter := le_of_mem_dropWhile (a + 1 + len) hordered fun token htoken => by
      have := hfirst token htoken
      omega
    obtain ⟨hwords, htokens, hsentences⟩ := ih hb ((List.dropWhile_suffix _).trans hsuffix)
      fun token htoken => by
        have := hafter token htoken
        omega
    have hcomm : a + 1 + len = a + len + 1 := by omega
    rw [cutSentences_cons]
    generalize hhere : tokens.takeWhile (beginsBefore (a + 1 + len)) = here at *
    generalize tokens.dropWhile (beginsBefore (a + 1 + len)) = later at *
    rw [hcomm]
    generalize cutSentences all.words later (a + len + 1) lengths = rest at *
    have hwithin : ∀ token ∈ here, (a : ℤ) < token.idFirst ∧ token.idLast ≤ a + len := by
      intro token htoken
      have hmem : token ∈ tokens := hsplit ▸ List.mem_append_left _ htoken
      have hbegins : beginsBefore (a + 1 + len) token = true :=
        List.mem_takeWhile_imp (hhere ▸ htoken)
      simp only [beginsBefore, Bool.and_eq_true, decide_eq_true_eq] at hbegins
      have := h.idLast_le (hsuffix.subset hmem) (by omega) hcut (by omega)
      exact ⟨hfirst token hmem, by omega⟩
    have hlength : (cutOne all.words here a len).words.length - 1 = len := by
      simp [cutOne]
      omega
    refine ⟨?_, ?_, ?_⟩
    · have hbare : ∀ word : Word,
          bare { word with id := word.id - a, head := -1, children := [] } = bare word :=
        fun _ => rfl
      have hone : ((cutOne all.words here a len).words.drop 1).map bare =
          ((all.words.drop (a + 1)).take len).map bare := by
        simp only [cutOne, List.drop_succ_cons, List.drop_zero, List.map_map, Function.comp_def,
          hbare]
      have hdrop : all.words.drop (a + len + 1) = (all.words.drop (a + 1)).drop len := by
        rw [List.drop_drop]
        congr 1
        omega
      unfold bareWords at hwords ⊢
      rw [List.flatMap_cons, List.map_append, hone, hwords, hdrop, ← List.map_append,
        List.take_append_drop]
    · rw [absoluteTokens, hlength, htokens, cutOne, map_shiftToken_neg, hsplit]
    · refine List.forall_mem_cons.mpr ⟨renumbered_cutOne h (by omega) ?_ hwithin, hsentences⟩
      exact (hsplit ▸ List.sublist_append_left here later).trans hsuffix.sublist

/-! ### The result of a paragraph -/

/-- The new sentences have the words and multiword tokens of the old ones in the
same order, they are numbered anew, and every multiword token is within one of them. -/
structure Preserves (paragraph result : List Sentence) : Prop where
  words : bareWords result = bareWords paragraph
  tokens : absoluteTokens 0 result = absoluteTokens 0 paragraph
  renumbered : ∀ s ∈ result, Renumbered s

/-- Comments do not matter for what is preserved. -/
theorem Preserves.of_sameNodes {paragraph rest : List Sentence} {s s' : Sentence}
    (h : Preserves paragraph (s :: rest)) (hsame : Sentence.SameNodes s' s) :
    Preserves paragraph (s' :: rest) := by
  obtain ⟨hwords, htokens, _⟩ := hsame
  refine ⟨?_, ?_, List.forall_mem_cons.mpr ⟨?_, (List.forall_mem_cons.mp h.renumbered).2⟩⟩
  · rw [← h.words, bareWords, bareWords, List.flatMap_cons, List.flatMap_cons, hwords]
  · rw [← h.tokens, absoluteTokens, absoluteTokens, hwords, htokens]
  · obtain ⟨⟨hne, hids, hranges, hordered⟩, hroot⟩ := (List.forall_mem_cons.mp h.renumbered).1
    rw [← hwords] at hne hids hranges hroot
    rw [← htokens] at hranges hordered
    exact ⟨⟨hne, hids, hranges, hordered⟩, hroot⟩

/-- Marking the first sentence keeps the words. -/
theorem Preserves.markFirst {paragraph result : List Sentence} (h : Preserves paragraph result)
    (newDocument : Bool) (documentId : Bytes) :
    Preserves paragraph (markFirst newDocument documentId result).1 := by
  cases result with
  | nil => exact h
  | cons s rest =>
    refine h.of_sameNodes ((Sentence.sameNodes_setNewPar _ _ _).trans ?_)
    split
    · exact Sentence.sameNodes_setNewDoc _ _ _
    · exact ⟨rfl, rfl, rfl⟩

section Result

variable {R : Type} [LinearOrder R] [Add R] [Mul R] [IntCast R]

/-- The segmentation ends, and its sentences keep the paragraph. -/
def SegmentsParagraph (opts : Options R) (newDocument : Bool) (documentId : Bytes)
    (paragraph : List Sentence) : Prop :=
  ∃ result, (opts.parseParagraph newDocument documentId paragraph).Returns (.ok result) ∧
    Preserves paragraph result.1

/-- Some sentences within the limit that do not cut tokens cover the paragraph, and the sum of
their costs from the left stays above `-∞`. -/
def Options.Segmentable (opts : Options R) (parseCost : List Word → R)
    (paragraph : List Sentence) : Prop :=
  ∃ lengths w, Segments (IsTokenEnd paragraph) opts.limit 0 lengths (wordCount paragraph) ∧
    leftScore opts.aboveInfinity (opts.segmentCost parseCost paragraph) ((0 : ℤ) : R) 0 lengths =
      some w

/-- The limit admits a single word, when there is one, and every multiword token. -/
def LimitAdmits (limit : ℕ) (paragraph : List Sentence) : Prop :=
  ∀ s ∈ paragraph, (2 ≤ s.words.length → 1 ≤ limit) ∧
    ∀ token ∈ s.multiwordTokens, token.idLast - token.idFirst < limit

instance (limit : ℕ) (paragraph : List Sentence) : Decidable (LimitAdmits limit paragraph) :=
  inferInstanceAs (Decidable (∀ _ ∈ _, _ ∧ _))

/-- The limit admits what it admits of the gathered words. -/
theorem limitAdmits_iff {all : AllWords} {paragraph : List Sentence} {limit : ℕ}
    (h : Gathered all paragraph) :
    LimitAdmits limit paragraph ↔ (1 < all.words.length → 1 ≤ limit) ∧
      ∀ token ∈ all.multiwordTokens, token.idLast - token.idFirst < limit := by
  have hwords : 1 < all.words.length ↔ ∃ s ∈ paragraph, 2 ≤ s.words.length := by
    rw [h.length, wordCount, Nat.lt_add_left_iff_pos, List.sum_pos_iff_exists_pos_nat]
    simp only [List.mem_map, exists_exists_and_eq_and]
    exact exists_congr fun s => and_congr_right fun _ => by omega
  rw [h.tokens, mem_absoluteTokens_length, hwords]
  constructor
  · intro hadmits
    refine ⟨?_, fun s hs => (hadmits s hs).2⟩
    rintro ⟨s, hs, htwo⟩
    exact (hadmits s hs).1 htwo
  · rintro ⟨hone, htokens⟩ s hs
    exact ⟨fun htwo => hone ⟨s, hs, htwo⟩, htokens s hs⟩

variable {opts : Options R} {paragraph : List Sentence} {parseCost : List Word → R}

omit [LinearOrder R] in
/-- Sums that do not overflow leave the limit as the only condition. -/
theorem segmentable_iff_limitAdmits (hexact : ∀ cost, opts.aboveInfinity cost = true)
    (hparagraph : ∀ s ∈ paragraph, Tokenized s) :
    opts.Segmentable parseCost paragraph ↔ LimitAdmits opts.limit paragraph := by
  have h := gathered_gather hparagraph
  have hlast : (gather paragraph).words.length - 1 = wordCount paragraph := by
    rw [h.length, Nat.add_sub_cancel]
  rw [limitAdmits_iff h, ← h.reaches_last_iff, hlast]
  constructor
  · rintro ⟨lengths, w, hsegments, -⟩
    exact (h.segments_iff.mpr hsegments).reaches .zero
  · intro hreach
    obtain ⟨lengths, hsegments⟩ := hreach.exists_segments (.nil (wordCount paragraph))
    obtain ⟨w, hw⟩ := exists_leftScore hexact (opts.segmentCost parseCost paragraph) ((0 : ℤ) : R) 0
      lengths
    exact ⟨lengths, w, h.segments_iff.mp hsegments, hw⟩

section Search

variable (hparse : ParsesWith opts parseCost) (hordered : OrderedSums opts.aboveInfinity)
  (hparagraph : ∀ s ∈ paragraph, Tokenized s)
include hparse hordered hparagraph

/-- The table holds the sums of the costs of the sentences of the paragraph. -/
theorem exists_search : ∃ best, opts.search (gather paragraph) = .ok best ∧
    IsTable opts.aboveInfinity ((0 : ℤ) : R) (gather paragraph).Cut opts.limit
        (gather paragraph).words.length (stepCost opts parseCost (gather paragraph) paragraph)
        (fun q => best.logprob.getD q none) (fun q => best.length.getD q 0) ∧
      ∀ lengths w, Segments (gather paragraph).Cut opts.limit 0 lengths (wordCount paragraph) →
        (leftScore opts.aboveInfinity (stepCost opts parseCost (gather paragraph) paragraph)
            ((0 : ℤ) : R) 0 lengths = some w ↔
          leftScore opts.aboveInfinity (opts.segmentCost parseCost paragraph) ((0 : ℤ) : R) 0
            lengths = some w) := by
  obtain ⟨best, hsearch, htable⟩ := search_isTable hparse hordered (gathered_gather hparagraph)
  refine ⟨best, hsearch, htable, fun lengths w hlengths => ?_⟩
  rw [hlengths.leftScore_congr (fun p q hlt hq => stepCost_eq hparagraph hlt hq)]

/-- A paragraph that is segmented has such sentences: the backtrace ends with some. -/
theorem segmentable_of_segmentsParagraph {newDocument : Bool} {documentId : Bytes}
    (hends : SegmentsParagraph opts newDocument documentId paragraph) :
    opts.Segmentable parseCost paragraph := by
  have h := gathered_gather hparagraph
  have hsize := h.length
  obtain ⟨best, hsearch, htable, hcost⟩ := exists_search hparse hordered hparagraph
  obtain ⟨result, hreturns, -⟩ := hends
  unfold Options.parseParagraph at hreturns
  dsimp only at hreturns
  rw [hsearch] at hreturns
  obtain ⟨lengths, hlengths, -⟩ := Comp.returns_bind.mp hreturns
  cases hv : best.logprob.getD ((gather paragraph).words.length - 1) none with
  | none => exact absurd ⟨lengths, hlengths⟩ (not_terminates_backtrace htable (by omega) hv)
  | some v =>
    obtain ⟨lengths', -, hsegments, hscore⟩ := backtrace_leftScore htable (by omega) hv (.nil _)
    rw [hsize, Nat.add_sub_cancel] at hsegments
    exact ⟨lengths', v, h.segments_iff.mp hsegments, (hcost lengths' v hsegments).mp hscore⟩

/-- With such sentences the backtrace ends, and the sentences it finds keep the paragraph. -/
theorem segmentsParagraph_of_segmentable (hsegmentable : opts.Segmentable parseCost paragraph)
    (newDocument : Bool) (documentId : Bytes) :
    SegmentsParagraph opts newDocument documentId paragraph := by
  have h := gathered_gather hparagraph
  have hsize := h.length
  obtain ⟨best, hsearch, htable, hcost⟩ := exists_search hparse hordered hparagraph
  obtain ⟨lengths₀, w, hsegments₀, hw⟩ := hsegmentable
  have hsegments₀ := h.segments_iff.mpr hsegments₀
  have hw := (hcost lengths₀ w hsegments₀).mpr hw
  obtain ⟨v, hv, -⟩ := htable.leftScore_le hordered hsegments₀ (by omega) htable.zero le_rfl hw
  obtain ⟨lengths, hlengths, hsegments, -⟩ := backtrace_leftScore htable (by omega) hv
    (.nil (wordCount paragraph))
  obtain ⟨hwords, htokens, hsentences⟩ := cutSentences_spec h hsegments hsize.symm
    (List.suffix_refl _) fun token htoken => by
      have := h.ranges token htoken
      omega
  have hkept : Preserves paragraph (cutSentences (gather paragraph).words
      (gather paragraph).multiwordTokens 1 lengths) :=
    ⟨hwords.trans h.words, htokens.trans h.tokens, hsentences⟩
  refine ⟨_, ?_, hkept.markFirst newDocument documentId⟩
  unfold Options.parseParagraph
  dsimp only
  rw [hsearch]
  rw [← hsize] at hlengths
  exact Comp.returns_bind.mpr ⟨lengths, hlengths, Comp.returns_pure.mpr rfl⟩

/-- With a parser that has a cost for the words of a sentence, a paragraph of a tokenizer is
segmented, and its words are kept, exactly if some sentences within the limit have costs that do
not add up to `-∞`. -/
theorem segmentsParagraph_iff (newDocument : Bool) (documentId : Bytes) :
    SegmentsParagraph opts newDocument documentId paragraph ↔
      opts.Segmentable parseCost paragraph :=
  ⟨segmentable_of_segmentsParagraph hparse hordered hparagraph, fun h =>
    segmentsParagraph_of_segmentable hparse hordered hparagraph h newDocument documentId⟩

end Search

end Result

/-- A parser whose cost is the negated number of words. -/
def sampleOptions (maxSentenceLen : ℤ) : Options ℤ where
  maxSentenceLen
  changeBoundaryLogprob := -1
  sentenceLogprob := -1
  parse s := .ok (s, -s.words.length)

/-- Three words, the first two of which are one token. -/
def sampleSentence : Sentence where
  words := Sentence.clear.words ++
    [{ id := 1, form := bytes "de" }, { id := 2, form := bytes "el" },
      { id := 3, form := bytes "mar" }]
  multiwordTokens := [{ idFirst := 1, idLast := 2, form := bytes "del" }]

/-- The sentence is a tokenized one. -/
theorem tokenized_sampleSentence : Tokenized sampleSentence where
  nonempty := by decide
  ids i word h := by
    match i with
    | 0 | 1 | 2 | 3 =>
      obtain rfl := Option.some.inj h
      rfl
    | i + 4 => cases h
  ranges := by decide
  ranges_ordered := by decide

/-- The cost of the parser is a number of the words that it reads. -/
theorem parsesWith_sampleOptions (maxSentenceLen : ℤ) :
    ParsesWith (sampleOptions maxSentenceLen) fun inputs => -inputs.length := fun s =>
  ⟨s, by simp [sampleOptions, parserInputs], rfl⟩

/-- Sums of integers do not overflow. -/
theorem orderedSums_sampleOptions (maxSentenceLen : ℤ) :
    OrderedSums (sampleOptions maxSentenceLen).aboveInfinity :=
  ⟨fun c hle => Int.add_le_add_right hle c, fun _ _ => rfl⟩

/-- A paragraph whose multiword token is within the limit. -/
theorem segmentsParagraph_iff_sample :
    SegmentsParagraph (sampleOptions 20) true (bytes "doc") [sampleSentence] := by
  have hparagraph : ∀ s ∈ [sampleSentence], Tokenized s :=
    List.forall_mem_singleton.mpr tokenized_sampleSentence
  exact (segmentsParagraph_iff (parsesWith_sampleOptions 20) (orderedSums_sampleOptions 20)
    hparagraph true (bytes "doc")).mpr
      ((segmentable_iff_limitAdmits (fun _ => rfl) hparagraph).mpr (by decide))

/-- With a limit of one word the token of two words is never passed. -/
theorem not_segmentsParagraph_token :
    ParsesWith (sampleOptions 1) (fun inputs => -inputs.length) ∧
      (∀ s ∈ [sampleSentence], Tokenized s) ∧
      ¬ SegmentsParagraph (sampleOptions 1) true (bytes "doc") [sampleSentence] := by
  have hparse := parsesWith_sampleOptions 1
  have hparagraph : ∀ s ∈ [sampleSentence], Tokenized s :=
    List.forall_mem_singleton.mpr tokenized_sampleSentence
  refine ⟨hparse, hparagraph, fun hends => ?_⟩
  have hsegmentable := segmentable_of_segmentsParagraph hparse (orderedSums_sampleOptions 1)
    hparagraph hends
  exact absurd ((segmentable_iff_limitAdmits (fun _ => rfl) hparagraph).mp hsegmentable) (by decide)

end UDPipe.Joint
