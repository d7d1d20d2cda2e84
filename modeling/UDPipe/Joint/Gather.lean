import UDPipe.Joint.Paragraph
import UDPipe.Library.Segmentation
import UDPipe.Surface
import Mathlib.Data.List.GetD
import Mathlib.Data.List.Induction

/-!
# The gathered words of a paragraph

Gathering renumbers the words and the multiword tokens of a paragraph and
forbids the positions inside the tokens. So all words are reached exactly if
the length limit admits a single word and each of the tokens.
-/

namespace UDPipe.Joint

open Segmentation

/-! ### Sentences of a tokenizer -/

/-- A word but for what the segmentation changes. -/
def bare (word : Word) : Word := { word with id := 0, head := -1, children := [] }

/-- The words of a paragraph without the roots, but for what the segmentation changes. -/
def bareWords (paragraph : List Sentence) : List Word :=
  (paragraph.flatMap fun s => s.words.drop 1).map bare

/-- The number of words of a paragraph without the roots. -/
def wordCount (paragraph : List Sentence) : ℕ :=
  (paragraph.map fun s => s.words.length - 1).sum

/-- The multiword tokens of a paragraph that follows `offset` words, as ranges of
the words of all sentences. -/
def absoluteTokens (offset : ℕ) : List Sentence → List MultiwordToken
  | [] => []
  | s :: rest =>
    s.multiwordTokens.map (shiftToken offset) ++ absoluteTokens (offset + (s.words.length - 1)) rest

/-- The multiword tokens of a last sentence are shifted by the words before it. -/
theorem absoluteTokens_append (offset : ℕ) (paragraph : List Sentence) (s : Sentence) :
    absoluteTokens offset (paragraph ++ [s]) =
      absoluteTokens offset paragraph ++
        s.multiwordTokens.map (shiftToken (offset + wordCount paragraph : ℕ)) := by
  induction paragraph generalizing offset with
  | nil => simp [absoluteTokens, wordCount]
  | cons first rest ih =>
    simp only [List.cons_append, absoluteTokens, ih, List.append_assoc, wordCount, List.map_cons,
      List.sum_cons, Nat.add_assoc]

/-- A token keeps its length when it is shifted. -/
theorem mem_absoluteTokens_length {offset : ℕ} {paragraph : List Sentence} {bound : ℤ} :
    (∀ token ∈ absoluteTokens offset paragraph, token.idLast - token.idFirst < bound) ↔
      ∀ s ∈ paragraph, ∀ token ∈ s.multiwordTokens, token.idLast - token.idFirst < bound := by
  induction paragraph generalizing offset with
  | nil => simp [absoluteTokens]
  | cons s rest ih =>
    simp only [absoluteTokens, List.forall_mem_append, List.forall_mem_map, ih,
      List.forall_mem_cons, shiftToken, add_sub_add_right_eq_sub]

/-! ### Token boundaries -/

/-- The positions where a sentence may end. -/
def AllWords.Cut (all : AllWords) (position : ℕ) : Prop := all.isBoundary position = true

/-- A position inside a token. -/
def Inside (token : MultiwordToken) (position : ℕ) : Prop :=
  token.idFirst ≤ position ∧ position < token.idLast

/-- Forbidding boundaries keeps their number. -/
@[simp] theorem length_foldl_forbidInside (tokens : List MultiwordToken) (boundary : List Bool) :
    (tokens.foldl forbidInside boundary).length = boundary.length := by
  induction tokens generalizing boundary with
  | nil => rfl
  | cons token tokens ih => simp [ih, forbidInside]

/-- The tokens forbid the positions inside them. -/
theorem getD_foldl_forbidInside (tokens : List MultiwordToken) (boundary : List Bool)
    (position : ℕ) : (tokens.foldl forbidInside boundary).getD position false = true ↔
      boundary.getD position false = true ∧ ∀ token ∈ tokens, ¬ Inside token position := by
  induction tokens generalizing boundary with
  | nil => simp
  | cons token tokens ih =>
    have hone : (forbidInside boundary token).getD position false = true ↔
        boundary.getD position false = true ∧ ¬ Inside token position := by
      cases h : boundary[position]? with
      | none => simp [forbidInside, h]
      | some b =>
        simp only [forbidInside, List.getD_eq_getElem?_getD, List.getElem?_mapIdx, h,
          Option.map_some, Option.getD_some, Bool.and_eq_true, Bool.not_eq_true',
          Bool.and_eq_false_iff, decide_eq_false_iff_not, Inside]
        tauto
    rw [List.foldl_cons, ih, hone, List.forall_mem_cons, and_assoc]

/-- What gathering a paragraph gives. -/
structure Gathered (all : AllWords) (paragraph : List Sentence) : Prop where
  words : (all.words.drop 1).map bare = bareWords paragraph
  length : all.words.length = wordCount paragraph + 1
  ids : ∀ (i : ℕ) (word : Word), all.words[i]? = some word → word.id = i
  tokens : all.multiwordTokens = absoluteTokens 0 paragraph
  ranges : ∀ token ∈ all.multiwordTokens,
    1 ≤ token.idFirst ∧ token.idFirst ≤ token.idLast ∧ token.idLast < all.words.length
  ranges_ordered : all.multiwordTokens.Pairwise fun token token' => token.idLast < token'.idFirst
  length_boundary : all.tokenBoundary.length = all.words.length
  boundary : ∀ position < all.words.length,
    all.Cut position ↔ ∀ token ∈ all.multiwordTokens, ¬ Inside token position

/-- At the beginning nothing is gathered. -/
theorem gathered_init : Gathered AllWords.init [] where
  words := rfl
  length := rfl
  ids i word h := by
    have hi : i = 0 := by
      have := (List.getElem?_eq_some_iff.mp h).1
      simp [AllWords.init] at this
      exact this
    subst hi
    obtain rfl := Option.some.inj h
    rfl
  tokens := rfl
  ranges token h := by cases h
  ranges_ordered := .nil
  length_boundary := rfl
  boundary position h := by
    have hzero : position = 0 := by
      simp [AllWords.init] at h
      exact h
    subst hzero
    simp [AllWords.Cut, AllWords.isBoundary, AllWords.init]

/-- One more sentence of the tokenizer is gathered. -/
theorem Gathered.addSentence {all : AllWords} {paragraph : List Sentence} {s : Sentence}
    (h : Gathered all paragraph) (hs : Tokenized s) :
    Gathered (all.addSentence s) (paragraph ++ [s]) := by
  have hpos : 0 < s.words.length := List.length_pos_iff.mpr hs.nonempty
  have hoffset : (all.words.length : ℤ) - 1 = (wordCount paragraph : ℕ) := by
    rw [h.length]
    omega
  have hlength : (all.addSentence s).words.length =
      all.words.length + (s.words.length - 1) := by
    simp [AllWords.addSentence]
  have hnew : ∀ token ∈ s.multiwordTokens.map (shiftToken (wordCount paragraph : ℕ)),
      (all.words.length : ℤ) ≤ token.idFirst ∧ token.idFirst ≤ token.idLast ∧
        token.idLast < all.words.length + (s.words.length - 1 : ℕ) := by
    intro token htoken
    obtain ⟨old, hold, rfl⟩ := List.mem_map.mp htoken
    have := hs.ranges old hold
    simp only [shiftToken, h.length]
    omega
  have htokens : (all.addSentence s).multiwordTokens =
      all.multiwordTokens ++ s.multiwordTokens.map (shiftToken (wordCount paragraph : ℕ)) := by
    simp [AllWords.addSentence, hoffset]
  have hsize : (all.addSentence s).tokenBoundary.length =
      all.words.length + (s.words.length - 1) := by
    simp [AllWords.addSentence, h.length_boundary]
  refine ⟨?_, ?_, fun i word hi => ?_, ?_, fun token htoken => ?_, ?_, hsize.trans hlength.symm,
    fun position hposition => ?_⟩
  · have hkeep : 1 ≤ all.words.length := by
      rw [h.length]
      omega
    have hbare : ∀ word : Word,
        bare { word with id := word.id + (all.words.length - 1) } = bare word := fun _ => rfl
    simp only [AllWords.addSentence, List.drop_append_of_le_length hkeep, List.map_append, h.words,
      List.map_map, Function.comp_def, hbare, bareWords, List.flatMap_append, List.flatMap_cons,
      List.flatMap_nil, List.append_nil]
  · rw [hlength, h.length]
    simp only [wordCount, List.map_append, List.map_cons, List.map_nil, List.sum_append,
      List.sum_cons, List.sum_nil]
    omega
  · simp only [AllWords.addSentence, List.getElem?_append, List.getElem?_map,
      List.getElem?_drop] at hi
    split at hi
    · exact h.ids i word hi
    · rename_i hge
      obtain ⟨old, hold, rfl⟩ := Option.map_eq_some_iff.mp hi
      have := hs.ids _ old hold
      dsimp only
      omega
  · rw [htokens, h.tokens, absoluteTokens_append, Nat.zero_add]
  · rw [hlength]
    rw [htokens] at htoken
    rcases List.mem_append.mp htoken with hold | hadded
    · have := h.ranges token hold
      omega
    · have := hnew token hadded
      rw [h.length] at this ⊢
      omega
  · rw [htokens]
    refine List.pairwise_append.mpr ⟨h.ranges_ordered, ?_, fun token hold token' hadded => ?_⟩
    · refine List.pairwise_map.mpr (hs.ranges_ordered.imp fun hlt => ?_)
      simp only [shiftToken]
      omega
    · have := h.ranges token hold
      have := hnew token' hadded
      omega
  · rw [hlength] at hposition
    have hcut : (all.addSentence s).Cut position ↔
        (all.tokenBoundary ++ List.replicate (s.words.length - 1) true).getD position false = true ∧
          ∀ token ∈ s.multiwordTokens.map (shiftToken (wordCount paragraph : ℕ)),
            ¬ Inside token position := by
      rw [← getD_foldl_forbidInside]
      simp only [AllWords.Cut, AllWords.isBoundary, AllWords.addSentence, hoffset]
    rw [hcut, htokens, List.forall_mem_append]
    refine and_congr_left fun _ => ?_
    rcases Nat.lt_or_ge position all.words.length with hlt | hge
    · rw [List.getD_append _ _ _ _ (h.length_boundary ▸ hlt)]
      exact h.boundary position hlt
    · refine iff_of_true ?_ fun token hold hinside => ?_
      · rw [List.getD_append_right _ _ _ _ (h.length_boundary ▸ hge)]
        have hrest : position - all.tokenBoundary.length < s.words.length - 1 := by
          rw [h.length_boundary]
          omega
        simp [hrest]
      · have := h.ranges token hold
        unfold Inside at hinside
        omega

/-- Gathering a paragraph of a tokenizer. -/
theorem gathered_gather {paragraph : List Sentence} (h : ∀ s ∈ paragraph, Tokenized s) :
    Gathered (gather paragraph) paragraph := by
  induction paragraph using List.reverseRecOn with
  | nil => exact gathered_init
  | append_singleton rest s ih =>
    have hrest := ih fun s' hs' => h s' (List.mem_append_left _ hs')
    rw [gather, List.foldl_append]
    exact hrest.addSentence (h s (by simp))

/-! ### Reaching the last word -/

/-- Two multiword tokens are the same, or one ends before the other begins. -/
theorem Gathered.same_or_disjoint {all : AllWords} {paragraph : List Sentence}
    (h : Gathered all paragraph) {token token' : MultiwordToken}
    (htoken : token ∈ all.multiwordTokens) (htoken' : token' ∈ all.multiwordTokens) :
    token = token' ∨ token.idLast < token'.idFirst ∨ token'.idLast < token.idFirst := by
  have hordered := List.pairwise_iff_getElem.mp h.ranges_ordered
  obtain ⟨i, hi, rfl⟩ := List.getElem_of_mem htoken
  obtain ⟨j, hj, rfl⟩ := List.getElem_of_mem htoken'
  rcases Nat.lt_trichotomy i j with hij | rfl | hij
  · exact .inr (.inl (hordered i j hi hj hij))
  · exact .inl rfl
  · exact .inr (.inr (hordered j i hj hi hij))

/-- All words are reached exactly if the limit admits one word, when there is one,
and every multiword token. -/
theorem Gathered.reaches_last_iff {all : AllWords} {paragraph : List Sentence} {limit : ℕ}
    (h : Gathered all paragraph) :
    Reaches all.Cut limit (all.words.length - 1) ↔
      (1 < all.words.length → 1 ≤ limit) ∧
        ∀ token ∈ all.multiwordTokens, token.idLast - token.idFirst < limit := by
  have hpos : 0 < all.words.length := by
    rw [h.length]
    omega
  have hlast : all.Cut (all.words.length - 1) := by
    refine (h.boundary _ (by omega)).mpr fun token htoken hinside => ?_
    have := h.ranges token htoken
    unfold Inside at hinside
    omega
  constructor
  · intro hreach
    refine ⟨fun hwords => ?_, fun token htoken => ?_⟩
    · by_contra hzero
      have := hreach.lt_of_gap (a := 0) (b := 1) (by omega) (fun i _ _ => by omega)
      omega
    · by_contra hlong
      have hrange := h.ranges token htoken
      -- no position inside the token is a cut, so nothing is reached beyond it
      have := hreach.lt_of_gap (a := (token.idFirst - 1).toNat) (b := token.idLast.toNat)
        (by omega) fun i hi hi' hcut =>
          (h.boundary i (by omega)).mp hcut token htoken ⟨by omega, by omega⟩
      omega
  · rintro ⟨hone, hlong⟩
    refine reaches_of_close (n := all.words.length - 1) (fun q hq hqn hcut => ?_) le_rfl hlast
    by_cases hbefore : all.Cut (q - 1)
    · exact ⟨q - 1, by omega, by have := hone (by omega); omega, .inr hbefore⟩
    · -- the position before is inside a token, which ends here and begins at a cut
      obtain ⟨token, htoken, hinside⟩ : ∃ token ∈ all.multiwordTokens, Inside token (q - 1) := by
        by_contra hnone
        push Not at hnone
        exact hbefore ((h.boundary (q - 1) (by omega)).mpr hnone)
      have houtside := (h.boundary q (by omega)).mp hcut token htoken
      have hrange := h.ranges token htoken
      have hlimit := hlong token htoken
      unfold Inside at hinside houtside
      refine ⟨(token.idFirst - 1).toNat, by omega, by omega, .inr ?_⟩
      refine (h.boundary _ (by omega)).mpr fun token' htoken' hinside' => ?_
      unfold Inside at hinside'
      have hrange' := h.ranges token' htoken'
      rcases h.same_or_disjoint htoken htoken' with rfl | hlt | hlt <;> omega

/-- Before all words a sentence may end. -/
theorem Gathered.cut_zero {all : AllWords} {paragraph : List Sentence}
    (h : Gathered all paragraph) :
    0 < all.words.length ∧ all.Cut 0 := by
  have hpos : 0 < all.words.length := by
    rw [h.length]
    omega
  refine ⟨hpos, (h.boundary 0 hpos).mpr fun token htoken hinside => ?_⟩
  have := h.ranges token htoken
  unfold Inside at hinside
  omega

/-! ### The ends of sentences and tokens -/

/-- The positions where a sentence of the tokenizer ends, and the one before all words. -/
def sentenceEnds (paragraph : List Sentence) : List ℕ :=
  (List.range (paragraph.length + 1)).map fun k => wordCount (paragraph.take k)

/-- How many of two positions are no ends of sentences. -/
def changedEnds (paragraph : List Sentence) (a b : ℕ) : ℕ :=
  [a, b].countP (· ∉ sentenceEnds paragraph)

/-- No multiword token goes on after the position. -/
def IsTokenEnd (paragraph : List Sentence) (position : ℕ) : Prop :=
  ∀ token ∈ absoluteTokens 0 paragraph, ¬ Inside token position

/-- The ends are those of the first sentences. -/
theorem mem_sentenceEnds {paragraph : List Sentence} {p : ℕ} :
    p ∈ sentenceEnds paragraph ↔ ∃ k, wordCount (paragraph.take k) = p := by
  simp only [sentenceEnds, List.mem_map, List.mem_range]
  constructor
  · rintro ⟨k, -, hk⟩
    exact ⟨k, hk⟩
  · rintro ⟨k, hk⟩
    rcases Nat.lt_or_ge k (paragraph.length + 1) with hlt | hge
    · exact ⟨k, hlt, hk⟩
    · refine ⟨paragraph.length, by omega, ?_⟩
      rw [List.take_length, ← hk, List.take_of_length_le (by omega)]

/-- The words of two lists of sentences. -/
theorem wordCount_append (paragraph rest : List Sentence) :
    wordCount (paragraph ++ rest) = wordCount paragraph + wordCount rest := by
  simp [wordCount]

/-- The words of one sentence. -/
theorem wordCount_singleton (s : Sentence) : wordCount [s] = s.words.length - 1 := by
  simp [wordCount]

/-- One more sentence ends at one more position. -/
theorem mem_sentenceEnds_append {paragraph : List Sentence} {s : Sentence} {p : ℕ} :
    p ∈ sentenceEnds (paragraph ++ [s]) ↔
      p ∈ sentenceEnds paragraph ∨ p = wordCount paragraph + (s.words.length - 1) := by
  rw [mem_sentenceEnds, mem_sentenceEnds]
  constructor
  · rintro ⟨k, rfl⟩
    rcases Nat.lt_or_ge paragraph.length k with hlt | hle
    · right
      rw [List.take_of_length_le (by simp; omega), wordCount_append, wordCount_singleton]
    · left
      exact ⟨k, by rw [List.take_append_of_le_length hle]⟩
  · rintro (⟨k, rfl⟩ | rfl)
    · rcases Nat.le_total k paragraph.length with hle | hge
      · exact ⟨k, by rw [List.take_append_of_le_length hle]⟩
      · refine ⟨paragraph.length, ?_⟩
        rw [List.take_append_of_le_length le_rfl, List.take_length, List.take_of_length_le hge]
    · refine ⟨(paragraph ++ [s]).length, ?_⟩
      rw [List.take_length, wordCount_append, wordCount_singleton]

/-- No sentence ends after the last word. -/
theorem le_of_mem_sentenceEnds {paragraph : List Sentence} {p : ℕ}
    (h : p ∈ sentenceEnds paragraph) : p ≤ wordCount paragraph := by
  obtain ⟨k, rfl⟩ := mem_sentenceEnds.mp h
  have hsplit := wordCount_append (paragraph.take k) (paragraph.drop k)
  rw [List.take_append_drop] at hsplit
  omega

/-- The array of the boundaries of sentences. -/
theorem sentenceBoundary_gather {paragraph : List Sentence} (h : ∀ s ∈ paragraph, Tokenized s) :
    (gather paragraph).sentenceBoundary.length = wordCount paragraph + 1 ∧
      ∀ p ≤ wordCount paragraph, ((gather paragraph).sentenceBoundary.getD p false = true ↔
        p ∈ sentenceEnds paragraph) := by
  induction paragraph using List.reverseRecOn with
  | nil =>
    refine ⟨rfl, fun p hp => ?_⟩
    obtain rfl : p = 0 := Nat.le_zero.mp hp
    exact iff_of_true rfl (mem_sentenceEnds.mpr ⟨0, rfl⟩)
  | append_singleton rest s ih =>
    obtain ⟨hlength, hends⟩ := ih fun s' hs' => h s' (List.mem_append_left _ hs')
    have hpos : 0 < s.words.length := List.length_pos_iff.mpr (h s (by simp)).nonempty
    have hgather : (gather (rest ++ [s])).sentenceBoundary = (gather rest).sentenceBoundary ++
        (List.range' 1 (s.words.length - 1)).map fun i => i + 1 == s.words.length := by
      simp [gather, AllWords.addSentence]
    rw [hgather, wordCount_append, wordCount_singleton]
    refine ⟨by simp [hlength]; omega, fun p hp => ?_⟩
    rw [mem_sentenceEnds_append]
    rcases Nat.lt_or_ge (wordCount rest) p with hlt | hle
    · rw [List.getD_append_right _ _ _ _ (by omega), hlength]
      have hnot : p ∉ sentenceEnds rest := fun hmem => by
        have := le_of_mem_sentenceEnds hmem
        omega
      rw [or_iff_right hnot]
      have hindex : p - (wordCount rest + 1) < s.words.length - 1 := by omega
      simp only [List.getD_eq_getElem?_getD, List.getElem?_map, List.getElem?_range' hindex,
        Option.map_some, Option.getD_some, beq_iff_eq]
      omega
    · rw [List.getD_append _ _ _ _ (by omega), hends p hle]
      constructor
      · exact .inl
      · rintro (hmem | heq)
        · exact hmem
        · have hall : p = wordCount rest := by omega
          exact mem_sentenceEnds.mpr ⟨rest.length, by rw [List.take_length, hall]⟩

/-- Up to the last word the cuts are the ends of tokens. -/
theorem Gathered.cut_iff {all : AllWords} {paragraph : List Sentence} (h : Gathered all paragraph)
    {p : ℕ} (hp : p ≤ wordCount paragraph) : all.Cut p ↔ IsTokenEnd paragraph p := by
  have hsize := h.length
  rw [h.boundary p (by omega), h.tokens]
  rfl

/-- The segments between cuts are those between ends of tokens. -/
theorem Gathered.segments_iff {all : AllWords} {paragraph : List Sentence}
    (h : Gathered all paragraph) {limit : ℕ} {lengths : List ℕ} :
    Segments all.Cut limit 0 lengths (wordCount paragraph) ↔
      Segments (IsTokenEnd paragraph) limit 0 lengths (wordCount paragraph) :=
  ⟨fun hs => hs.congr fun _ hp => (h.cut_iff hp).mp,
    fun hs => hs.congr fun _ hp => (h.cut_iff hp).mpr⟩

end UDPipe.Joint
