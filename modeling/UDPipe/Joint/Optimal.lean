import UDPipe.Joint.Preserves
import Mathlib.Algebra.Order.Ring.Defs

/-!
# The segmentation is optimal

The table of the dynamic program holds the best sum of every position that is reached,
and the backtrace follows it. So no other segmentation of the paragraph into sentences of
bounded length is better than the one that is chosen.
-/

namespace UDPipe.Joint

open Segmentation

/-! ### What is optimised -/

/-- Lengths of sentences that cover the paragraph, cut it between tokens, and have a
bounded number of words each. -/
def IsSegmentation (maxSentenceLen : ℤ) (paragraph : List Sentence) (lengths : List ℕ) : Prop :=
  Segments (IsTokenEnd paragraph) maxSentenceLen.toNat 0 lengths (wordCount paragraph)

/-- What the parser reads of the sentences of a segmentation. -/
def segmentsInputs (paragraph : List Sentence) : ℕ → List ℕ → List (List Word)
  | _, [] => []
  | a, len :: lengths =>
    segmentInputs paragraph a (a + len) :: segmentsInputs paragraph (a + len) lengths

section Spec

variable {R : Type} [Ring R]

/-- The cost of the sentence from one position to another. -/
def sentenceCost (opts : Options R) (parseCost : List Word → R) (paragraph : List Sentence)
    (a b : ℕ) : R :=
  parseCost (segmentInputs paragraph a b) + opts.sentenceLogprob +
    opts.changeBoundaryLogprob * (changedEnds paragraph a b : R)

/-- The sum over the sentences of a segmentation. -/
def segmentationCost (opts : Options R) (parseCost : List Word → R) (paragraph : List Sentence)
    (lengths : List ℕ) : R :=
  score (sentenceCost opts parseCost paragraph) 0 lengths

/-- In a ring the cost of a sentence is added up in any order. -/
theorem segmentCost_eq (opts : Options R) (parseCost : List Word → R) (paragraph : List Sentence)
    (a b : ℕ) : opts.segmentCost parseCost paragraph a b =
      sentenceCost opts parseCost paragraph a b := by
  rw [Options.segmentCost, sentenceCost, Int.cast_natCast, add_assoc]

/-! ### The chosen sentences -/

/-- What the parser reads of a sentence that is cut out. -/
theorem Gathered.parserInputs_cutOne {all : AllWords} {paragraph : List Sentence}
    (h : Gathered all paragraph) (tokens : List MultiwordToken) (a len : ℕ) :
    parserInputs (cutOne all.words tokens a len) = segmentInputs paragraph a (a + len) := by
  have hdrop := congrArg (fun words : List Word => (words.drop a).take len) h.parserInput_words
  simp only [← List.map_drop, ← List.map_take, List.drop_drop] at hdrop
  have hsame : (fun word : Word =>
      parserInput { word with id := word.id - a, head := -1, children := [] }) = parserInput := rfl
  rw [parserInputs, cutOne, segmentInputs, Nat.add_sub_cancel_left, List.map_cons, List.map_cons,
    List.map_map, ← hdrop, Nat.add_comm a 1]
  rfl

/-- The sentences that are cut out are those of the segmentation. -/
theorem cutSentences_inputs {all : AllWords} {paragraph : List Sentence} {limit a b : ℕ}
    {lengths : List ℕ} (h : Gathered all paragraph) (hsegments : Segments all.Cut limit a lengths b)
    (hb : b < all.words.length) (tokens : List MultiwordToken) :
    (cutSentences all.words tokens (a + 1) lengths).map (fun s => s.words.length - 1) = lengths ∧
      (cutSentences all.words tokens (a + 1) lengths).map parserInputs =
        segmentsInputs paragraph a lengths := by
  induction hsegments generalizing tokens with
  | nil => exact ⟨rfl, rfl⟩
  | @cons a b len lengths hpos hle hcut hrest ih =>
    have hend := hrest.add_sum
    obtain ⟨hlengths, hinputs⟩ := ih hb (tokens.dropWhile (beginsBefore (a + 1 + len)))
    have hcomm : a + 1 + len = a + len + 1 := by omega
    rw [cutSentences_cons]
    rw [← hcomm] at hlengths hinputs
    rw [List.map_cons, List.map_cons, hlengths, hinputs, segmentsInputs]
    refine ⟨?_, ?_⟩
    · congr 1
      simp [cutOne]
      omega
    · rw [h.parserInputs_cutOne]

end Spec

/-- Marking the first sentence changes its comments only. -/
theorem map_markFirst {α : Type} (f : Sentence → α) (hf : ∀ s s' : Sentence,
    Sentence.SameNodes s s' → f s = f s') (newDocument : Bool) (documentId : Bytes)
    (sentences : List Sentence) :
    (markFirst newDocument documentId sentences).1.map f = sentences.map f := by
  cases sentences with
  | nil => rfl
  | cons s rest =>
    simp only [markFirst, List.map_cons]
    rw [hf _ s]
    refine (Sentence.sameNodes_setNewPar _ _ _).trans ?_
    split
    · exact Sentence.sameNodes_setNewDoc _ _ _
    · exact ⟨rfl, rfl, rfl⟩

section Result

variable {R : Type} [Ring R] [LinearOrder R] [IsOrderedAddMonoid R]

/-- The chosen segmentation: how many words the sentences have, and that their cost is the
best. -/
structure IsOptimal (opts : Options R) (parseCost : List Word → R)
    (paragraph result : List Sentence) (lengths : List ℕ) : Prop where
  lengths_eq : result.map (fun s => s.words.length - 1) = lengths
  inputs : result.map parserInputs = segmentsInputs paragraph 0 lengths
  segmentation : IsSegmentation opts.maxSentenceLen paragraph lengths
  best : ∀ lengths', IsSegmentation opts.maxSentenceLen paragraph lengths' →
    segmentationCost opts parseCost paragraph lengths' ≤
      segmentationCost opts parseCost paragraph lengths

/-- When the paragraph has a segmentation within the limit, the best one is chosen. -/
theorem parseParagraph_optimal {opts : Options R} {parseCost : List Word → R}
    {paragraph : List Sentence} (hparse : ParsesWith opts parseCost)
    (hexact : ∀ cost, opts.aboveInfinity cost = true)
    (hparagraph : ∀ s ∈ paragraph, Tokenized s) (hlimit : 1 ≤ opts.maxSentenceLen)
    (hint : opts.maxSentenceLen < 2 ^ 31)
    (hexists : ∃ lengths, IsSegmentation opts.maxSentenceLen paragraph lengths)
    (newDocument : Bool) (documentId : Bytes) :
    ∃ result lengths, (opts.parseParagraph newDocument documentId paragraph).Returns (.ok result) ∧
      IsOptimal opts parseCost paragraph result.1 lengths := by
  have hall := gathered_gather hparagraph
  have hsize := hall.length
  have hmax : opts.limit = opts.maxSentenceLen.toNat := by
    rw [Options.limit, Int.emod_eq_of_lt (by omega) (by omega)]
  have hordered : OrderedSums opts.aboveInfinity :=
    ⟨fun c hle => add_le_add_left hle c, fun _ _ => hexact _⟩
  have hsegments : ∀ lengths, IsSegmentation opts.maxSentenceLen paragraph lengths ↔
      Segments (gather paragraph).Cut opts.limit 0 lengths (wordCount paragraph) := by
    intro lengths
    rw [hall.segments_iff, hmax, IsSegmentation]
  obtain ⟨best, hsearch, htable, hcost⟩ := exists_search hparse hordered hparagraph
  have hscore : ∀ lengths, IsSegmentation opts.maxSentenceLen paragraph lengths →
      leftScore opts.aboveInfinity (stepCost opts parseCost (gather paragraph) paragraph)
        ((0 : ℤ) : R) 0 lengths = some (segmentationCost opts parseCost paragraph lengths) := by
    intro lengths hlengths
    rw [hcost lengths _ ((hsegments lengths).mp hlengths), leftScore_eq_score hexact, Int.cast_zero,
      zero_add, segmentationCost, hlengths.score_congr fun p q _ _ => segmentCost_eq ..]
  obtain ⟨lengths₀, hlengths₀⟩ := hexists
  obtain ⟨v, hv, -⟩ := htable.leftScore_le hordered ((hsegments lengths₀).mp hlengths₀) (by omega)
    htable.zero le_rfl (hscore lengths₀ hlengths₀)
  obtain ⟨lengths, hreturns, hchosen, hchosenScore⟩ := backtrace_leftScore htable (by omega) hv
    (.nil (wordCount paragraph))
  rw [← hsize] at hreturns
  have hchosen' := (hsegments lengths).mpr hchosen
  have hbest : v = segmentationCost opts parseCost paragraph lengths :=
    Option.some.inj (hchosenScore.symm.trans (hscore lengths hchosen'))
  obtain ⟨hlengths, hinputs⟩ := cutSentences_inputs hall hchosen (by omega)
    (gather paragraph).multiwordTokens
  refine ⟨markFirst newDocument documentId (cutSentences (gather paragraph).words
    (gather paragraph).multiwordTokens 1 lengths), lengths, ?_, ?_, ?_, hchosen',
    fun lengths' hlengths' => ?_⟩
  · unfold Options.parseParagraph
    dsimp only
    rw [hsearch]
    exact Comp.returns_bind.mpr ⟨lengths, hreturns, Comp.returns_pure.mpr rfl⟩
  · rw [map_markFirst]
    · exact hlengths
    · exact fun s s' hsame => by rw [hsame.1]
  · rw [map_markFirst]
    · exact hinputs
    · exact fun s s' hsame => by rw [parserInputs, parserInputs, hsame.1]
  · obtain ⟨w, hw, hle⟩ := htable.leftScore_le hordered ((hsegments lengths').mp hlengths')
      (by omega) htable.zero le_rfl (hscore lengths' hlengths')
    obtain rfl : v = w := Option.some.inj (hv.symm.trans hw)
    exact hbest ▸ hle

end Result

/-- A paragraph of one sentence, with an optimum. -/
theorem parseParagraph_optimal_sample : ∃ result lengths,
    ((sampleOptions 20).parseParagraph true (bytes "doc") [sampleSentence]).Returns (.ok result) ∧
      IsOptimal (sampleOptions 20) (fun inputs => -inputs.length) [sampleSentence] result.1
        lengths := by
  refine parseParagraph_optimal (parsesWith_sampleOptions 20) (fun _ => rfl)
    (List.forall_mem_singleton.mpr tokenized_sampleSentence) (by decide) (by decide)
    ⟨[3], .cons (by decide) (by decide) ?_ (.nil 3)⟩ true (bytes "doc")
  simp [IsTokenEnd, absoluteTokens, sampleSentence, shiftToken, Inside]

end UDPipe.Joint
