import UDPipe.Joint.Gather

/-!
# What the dynamic program finds

The table of the dynamic program holds the best sum of every position that some sentences reach
with sums above `-∞`, and a last sentence for each of them; the other positions have none. So the
backtrace ends exactly if the position after all words is reached, and then it follows the table.
-/

namespace UDPipe.Joint

open Segmentation

section Table

variable {R : Type} [LinearOrder R] [Add R]

/-- What the table holds when some sentences have been tried: every cost comes from a
sentence that was tried, and none of those is better. -/
structure Best.Optimal (best : Best R) (above : R → Bool) (start : R) (size : ℕ)
    (cost : ℕ → ℕ → R) (tried : ℕ → ℕ → Prop) : Prop where
  length_logprob : best.logprob.length = size
  length_length : best.length.length = size
  zero : best.logprob.getD 0 none = some start
  link : ∀ q, 0 < q → q < size → ∀ v, best.logprob.getD q none = some v →
    ∃ p v', tried p q ∧ best.length.getD q 0 = q - p ∧ best.logprob.getD p none = some v' ∧
      v = v' + cost p q ∧ above v = true
  bound : ∀ p q, tried p q → q < size → ∀ v', best.logprob.getD p none = some v' →
    above (v' + cost p q) = true → ∃ v, best.logprob.getD q none = some v ∧ v' + cost p q ≤ v
  length_eq_zero : ∀ q < size, best.logprob.getD q none = none → best.length.getD q 0 = 0

/-- Nothing is tried in the initial table. -/
theorem optimal_init {size : ℕ} (hsize : 0 < size) (above : R → Bool) (start : R)
    (cost : ℕ → ℕ → R) :
    (Best.init start size).Optimal above start size cost fun _ _ => False where
  length_logprob := by simp [Best.init]
  length_length := by simp [Best.init]
  zero := by simp [Best.init, hsize]
  link q hpos hq v hv := by
    simp [Best.init, hq, Nat.ne_of_lt hpos] at hv
  bound p q h := h.elim
  length_eq_zero q hq _ := by simp [Best.init, hq]

variable {best : Best R} {above : R → Bool} {start : R} {size p q : ℕ} {cost : ℕ → ℕ → R}
  {tried tried' : ℕ → ℕ → Prop}

/-- Only what is tried up to the end of the table matters. -/
theorem Best.Optimal.congr (h : best.Optimal above start size cost tried)
    (heq : ∀ p q, q < size → (tried p q ↔ tried' p q)) :
    best.Optimal above start size cost tried' where
  length_logprob := h.length_logprob
  length_length := h.length_length
  zero := h.zero
  link q hpos hq v hv := by
    obtain ⟨p, v', htried, hrest⟩ := h.link q hpos hq v hv
    exact ⟨p, v', (heq p q hq).mp htried, hrest⟩
  bound p q htried hq := h.bound p q ((heq p q hq).mpr htried) hq
  length_eq_zero := h.length_eq_zero

/-- Trying a sentence that the table is no worse than changes nothing. -/
theorem Best.Optimal.tryWorse (h : best.Optimal above start size cost tried)
    (hworse : ∀ before, best.logprob.getD p none = some before → above (before + cost p q) = true →
      ∃ v, best.logprob.getD q none = some v ∧ before + cost p q ≤ v) :
    best.Optimal above start size cost fun a b => tried a b ∨ (a = p ∧ b = q) where
  length_logprob := h.length_logprob
  length_length := h.length_length
  zero := h.zero
  link b hpos hb v hv := by
    obtain ⟨a, v', htried, hrest⟩ := h.link b hpos hb v hv
    exact ⟨a, v', .inl htried, hrest⟩
  bound a b htried hb v' hv' := by
    rcases htried with htried | ⟨rfl, rfl⟩
    · exact h.bound a b htried hb v' hv'
    · exact hworse v' hv'
  length_eq_zero := h.length_eq_zero

/-- Trying a sentence after those that begin no later. -/
theorem Best.Optimal.improve {opts : Options R} (hordered : OrderedSums opts.aboveInfinity)
    (h : best.Optimal opts.aboveInfinity start size cost tried) (hq : q < size) (hpq : p < q)
    (hstart : ∀ a b, tried a b → a ≤ p) :
    (opts.improve best (p + 1) (q + 1) (cost p q)).Optimal opts.aboveInfinity start size cost
      fun a b => tried a b ∨ (a = p ∧ b = q) := by
  unfold Options.improve
  simp only [Nat.add_sub_cancel]
  cases hbefore : best.logprob.getD p none with
  | none =>
    refine h.tryWorse fun before h' => ?_
    rw [hbefore] at h'
    cases h'
  | some before =>
    dsimp only
    split
    · -- the sentence is stored, and the table changes at its end only
      rename_i hgreater
      have hself : (best.logprob.set q (some (before + cost p q))).getD q none =
          some (before + cost p q) := by
        simp [h.length_logprob, hq]
      have hother : ∀ b, b ≠ q →
          (best.logprob.set q (some (before + cost p q))).getD b none =
            best.logprob.getD b none := fun b hb => by
        simp [List.getD_eq_getElem?_getD, List.getElem?_set_ne (Ne.symm hb)]
      have hlast : ∀ b, b ≠ q →
          (best.length.set q (q + 1 - (p + 1))).getD b 0 = best.length.getD b 0 := fun b hb => by
        simp [List.getD_eq_getElem?_getD, List.getElem?_set_ne (Ne.symm hb)]
      -- the old cost was above `-∞`, and the new one is greater
      have habove : opts.aboveInfinity (before + cost p q) = true := by
        cases hold : best.logprob.getD q none with
        | none =>
          rw [hold] at hgreater
          exact hgreater
        | some old =>
          obtain ⟨_, _, _, _, _, _, habove⟩ := h.link q (by omega) hq old hold
          rw [hold] at hgreater
          exact hordered.allowed_of_le (le_of_lt (of_decide_eq_true hgreater)) habove
      refine ⟨by simpa using h.length_logprob, by simpa using h.length_length,
        (hother 0 (by omega)).trans h.zero, fun b hpos hb v hv => ?_,
        fun a b htried hb v' hv' habove' => ?_, fun b hb hnone => ?_⟩
      · by_cases hbq : b = q
        · subst hbq
          rw [hself] at hv
          obtain rfl := Option.some.inj hv
          refine ⟨p, before, .inr ⟨rfl, rfl⟩, ?_, (hother p (by omega)).trans hbefore, rfl, habove⟩
          simp [List.getD_eq_getElem?_getD, h.length_length, hb]
        · rw [hother b hbq] at hv
          obtain ⟨a, v', htried, hback, hv', hsum⟩ := h.link b hpos hb v hv
          have := hstart a b htried
          exact ⟨a, v', .inl htried, (hlast b hbq).trans hback, (hother a (by omega)).trans hv', hsum⟩
      · rcases htried with htried | ⟨rfl, rfl⟩
        · have := hstart a b htried
          rw [hother a (by omega)] at hv'
          obtain ⟨v, hv, hle⟩ := h.bound a b htried hb v' hv' habove'
          by_cases hbq : b = q
          · subst hbq
            rw [hv] at hgreater
            exact ⟨_, hself, hle.trans (le_of_lt (of_decide_eq_true hgreater))⟩
          · exact ⟨v, (hother b hbq).trans hv, hle⟩
        · rw [hother a (by omega), hbefore] at hv'
          obtain rfl := Option.some.inj hv'
          exact ⟨_, hself, le_rfl⟩
      · by_cases hbq : b = q
        · subst hbq
          rw [hself] at hnone
          cases hnone
        · exact (hlast b hbq).trans (h.length_eq_zero b hb ((hother b hbq).symm.trans hnone))
    · -- the sum is `-∞`, or the old cost is as good
      rename_i hworse
      refine h.tryWorse fun before' h' habove => ?_
      rw [hbefore] at h'
      obtain rfl := Option.some.inj h'
      cases hold : best.logprob.getD q none with
      | none =>
        rw [hold] at hworse
        exact absurd habove hworse
      | some old =>
        rw [hold] at hworse
        exact ⟨old, rfl, not_lt.mp fun hlt => hworse (decide_eq_true hlt)⟩

end Table

/-! ### What the parser is given -/

/-- What the parser reads of a word: neither its number nor its links. -/
def parserInput (word : Word) : Word := { word with id := 0, toLinks := {} }

/-- What the parser reads of a sentence. -/
def parserInputs (s : Sentence) : List Word := s.words.map parserInput

/-- The words of a paragraph without the roots. -/
def wordsOf (paragraph : List Sentence) : List Word := paragraph.flatMap fun s => s.words.drop 1

/-- What the parser reads of the sentence from position `a` to position `b`. -/
def segmentInputs (paragraph : List Sentence) (a b : ℕ) : List Word :=
  (Sentence.rootWord :: ((wordsOf paragraph).drop a).take (b - a)).map parserInput

/-- The parser has a cost for what it reads, and it only sets links. -/
def ParsesWith {R : Type} (opts : Options R) (parseCost : List Word → R) : Prop :=
  ∀ s, ∃ s', opts.parse s = .ok (s', parseCost (parserInputs s)) ∧ parserInputs s' = parserInputs s

/-- The parser sees no links. -/
theorem parserInputs_clearLinks (s : Sentence) : parserInputs (clearLinks s) = parserInputs s := by
  unfold parserInputs clearLinks
  refine List.ext_getElem? fun i => ?_
  simp only [List.getElem?_map, List.getElem?_mapIdx, Option.map_map]
  congr 1
  funext word
  simp only [Function.comp_apply]
  split <;> rfl

/-- The gathered words but for what the parser does not read. -/
theorem Gathered.parserInput_words {all : AllWords} {paragraph : List Sentence}
    (h : Gathered all paragraph) :
    (all.words.drop 1).map parserInput = (wordsOf paragraph).map parserInput := by
  have hbare : ∀ words : List Word, (words.map bare).map parserInput = words.map parserInput := by
    intro words
    rw [List.map_map]
    rfl
  rw [← hbare, h.words, bareWords, hbare]
  rfl

/-- One more word for the sentence that begins after position `k`. -/
theorem parserInputs_pushWord {all : AllWords} {paragraph : List Sentence} {k m : ℕ}
    {s : Sentence} (h : Gathered all paragraph) (hkm : k ≤ m)
    (hs : parserInputs s = segmentInputs paragraph k m) :
    parserInputs (pushWord all (k + 1) (m + 2) s) = segmentInputs paragraph k (m + 1) := by
  have hword : (all.words[m + 1]?).map parserInput = ((wordsOf paragraph)[m]?).map parserInput := by
    have hdrop := congrArg (fun words : List Word => words[m]?) h.parserInput_words
    simpa [List.getElem?_drop, Nat.add_comm 1 m] using hdrop
  have htoList : ∀ o : Option Word, (o.toList.map fun word =>
      ({ word with id := word.id - ((k + 1 - 1 : ℕ) : ℤ) } : Word)).map parserInput =
        (o.map parserInput).toList := by
    intro o
    cases o <;> rfl
  have hstop : m + 2 - 1 = m + 1 := rfl
  rw [parserInputs, pushWord, hstop, List.map_append, htoList, hword]
  have hstart : s.words.map parserInput = segmentInputs paragraph k m := hs
  have hsucc : m + 1 - k = m - k + 1 := by omega
  have hindex : k + (m - k) = m := by omega
  rw [hstart, segmentInputs, segmentInputs, hsucc, List.take_add_one, List.getElem?_drop, hindex,
    ← List.cons_append, List.map_append]
  cases (wordsOf paragraph)[m]? <;> rfl

/-! ### The loops -/

/-- The sentences that come before those from position `k` to above position `m`, by where
they start and then by where they end. -/
def InOrder (start cut : ℕ → Prop) (limit k m p q : ℕ) : Prop :=
  start p ∧ p < q ∧ q ≤ p + limit ∧ cut q ∧ (p < k ∨ (p = k ∧ q ≤ m))

section Order

variable {start cut : ℕ → Prop} {limit k m p q : ℕ}

/-- The next end is visited if it is a cut within the limit. -/
theorem inOrder_succ_of_cut (hk : start k) (hkm : k ≤ m) (hlimit : m + 1 ≤ k + limit)
    (hcut : cut (m + 1)) : InOrder start cut limit k m p q ∨ (p = k ∧ q = m + 1) ↔
      InOrder start cut limit k (m + 1) p q := by
  constructor
  · rintro (⟨hp, hlt, hle, hq, horder⟩ | ⟨rfl, rfl⟩)
    · exact ⟨hp, hlt, hle, hq, by omega⟩
    · exact ⟨hk, by omega, by omega, hcut, by omega⟩
  · rintro ⟨hp, hlt, hle, hq, horder⟩
    by_cases hlast : p = k ∧ q = m + 1
    · exact .inr hlast
    · exact .inl ⟨hp, hlt, hle, hq, by omega⟩

/-- An end inside a multiword token is not visited. -/
theorem inOrder_succ_of_not_cut (hcut : ¬ cut (m + 1)) :
    InOrder start cut limit k m p q ↔ InOrder start cut limit k (m + 1) p q := by
  constructor
  · rintro ⟨hp, hlt, hle, hq, horder⟩
    exact ⟨hp, hlt, hle, hq, by omega⟩
  · rintro ⟨hp, hlt, hle, hq, horder⟩
    have hne : q ≠ m + 1 := by
      rintro rfl
      exact hcut hq
    exact ⟨hp, hlt, hle, hq, by omega⟩

/-- All sentences from the position come before those from the next one. -/
theorem inOrder_next {size : ℕ} (hq : q < size) :
    InOrder start cut limit k (k + min limit (size - (k + 1))) p q ↔
      InOrder start cut limit (k + 1) (k + 1) p q := by
  constructor
  · rintro ⟨hp, hlt, hle, hcut, horder⟩
    exact ⟨hp, hlt, hle, hcut, by omega⟩
  · rintro ⟨hp, hlt, hle, hcut, horder⟩
    exact ⟨hp, hlt, hle, hcut, by omega⟩

/-- A start that is not reached is left out. -/
theorem inOrder_next_of_not_start (hk : ¬ start k) :
    InOrder start cut limit k k p q ↔ InOrder start cut limit (k + 1) (k + 1) p q := by
  refine and_congr_right fun hp => ?_
  have hne : p ≠ k := by
    rintro rfl
    exact hk hp
  refine and_congr_right fun hlt => and_congr_right fun _ => and_congr_right fun _ => ?_
  omega

/-- Nothing is before the beginning. -/
theorem not_inOrder_zero : ¬ InOrder start cut limit 0 0 p q := by
  rintro ⟨-, hlt, -, -, horder⟩
  omega

end Order

section Loops

variable {R : Type} [LinearOrder R] [Add R] [Mul R] [IntCast R] {opts : Options R}
  {parseCost : List Word → R} {all : AllWords} {paragraph : List Sentence}

/-- The cost that the dynamic program gives to the sentence between two positions. -/
def stepCost (opts : Options R) (parseCost : List Word → R) (all : AllWords)
    (paragraph : List Sentence) (p q : ℕ) : R :=
  opts.totalCost all (p + 1) (q + 1) (parseCost (segmentInputs paragraph p q))

/-- The cost of the sentence from one position to another, added up as in the code. -/
def Options.segmentCost (opts : Options R) (parseCost : List Word → R) (paragraph : List Sentence)
    (a b : ℕ) : R :=
  parseCost (segmentInputs paragraph a b) +
    (opts.sentenceLogprob + opts.changeBoundaryLogprob * ((changedEnds paragraph a b : ℤ) : R))

omit [LinearOrder R] in
/-- The cost in the dynamic program is the one that is to be summed. -/
theorem stepCost_eq (h : ∀ s ∈ paragraph, Tokenized s) {p q : ℕ} (hlt : p < q)
    (hq : q ≤ wordCount paragraph) : stepCost opts parseCost (gather paragraph) paragraph p q =
      opts.segmentCost parseCost paragraph p q := by
  obtain ⟨-, hends⟩ := sentenceBoundary_gather h
  have hp' := hends p (by omega)
  have hq' := hends q hq
  have hchanged : (2 - (if (gather paragraph).sentenceBoundary.getD p false then 1 else 0) -
      (if (gather paragraph).sentenceBoundary.getD q false then 1 else 0) : ℤ) =
        changedEnds paragraph p q := by
    simp only [changedEnds, List.countP_cons, List.countP_nil, hp', hq']
    by_cases hmem : p ∈ sentenceEnds paragraph <;> by_cases hmem' : q ∈ sentenceEnds paragraph <;>
      simp [hmem, hmem']
  unfold stepCost Options.segmentCost Options.totalCost
  simp only [Nat.add_sub_cancel, hchanged]

/-- The sentences tried before those from position `k` to above position `m`. -/
abbrev Visited (all : AllWords) (limit k m p q : ℕ) : Prop :=
  InOrder all.Cut all.Cut limit k m p q

/-- What the table of the dynamic program holds. -/
abbrev Best.OptimalFor (best : Best R) (opts : Options R) (parseCost : List Word → R)
    (all : AllWords) (paragraph : List Sentence) (tried : ℕ → ℕ → Prop) : Prop :=
  best.Optimal opts.aboveInfinity ((0 : ℤ) : R) all.words.length
    (stepCost opts parseCost all paragraph) tried

/-- The inner loop tries the sentences from position `k` to the next `count` positions. -/
theorem optimal_tryStops (hparse : ParsesWith opts parseCost)
    (hordered : OrderedSums opts.aboveInfinity) (hall : Gathered all paragraph)
    (count : ℕ) {k m : ℕ} {s : Sentence} {best : Best R} (hk : all.Cut k) (hkm : k ≤ m)
    (hsize : m + count < all.words.length) (hlimit : m + count ≤ k + opts.limit)
    (hs : parserInputs s = segmentInputs paragraph k m)
    (h : best.OptimalFor opts parseCost all paragraph (Visited all opts.limit k m)) :
    ∃ best', opts.tryStops all (k + 1) (List.range' (m + 2) count) s best = .ok best' ∧
      best'.OptimalFor opts parseCost all paragraph (Visited all opts.limit k (m + count)) := by
  induction count generalizing m s best with
  | zero => exact ⟨best, rfl, h⟩
  | succ count ih =>
    have hnext : m + (count + 1) = m + 1 + count := by omega
    rw [hnext] at hsize hlimit ⊢
    rw [List.range'_succ, Options.tryStops]
    have hpush := parserInputs_pushWord hall hkm hs
    split
    · rename_i hcut
      obtain ⟨s', hok, hs'⟩ := hparse (clearLinks (pushWord all (k + 1) (m + 2) s))
      rw [parserInputs_clearLinks, hpush] at hs' hok
      rw [hok]
      dsimp only
      refine ih (by omega) hsize hlimit hs' ?_
      refine (h.improve hordered (by omega : m + 1 < _) (by omega) fun a b htried => ?_).congr
        fun p q _ => inOrder_succ_of_cut hk hkm (by omega) hcut
      have := htried.2.2.2.2
      omega
    · rename_i hcut
      exact ih (by omega) hsize hlimit hpush (h.congr fun p q _ => inOrder_succ_of_not_cut hcut)

/-- The outer loop tries the sentences from the next `count` positions. -/
theorem optimal_tryStarts (hparse : ParsesWith opts parseCost)
    (hordered : OrderedSums opts.aboveInfinity) (hall : Gathered all paragraph)
    (count : ℕ) {k : ℕ} {best : Best R} (hsize : k + count < all.words.length)
    (h : best.OptimalFor opts parseCost all paragraph (Visited all opts.limit k k)) :
    ∃ best', opts.tryStarts all (List.range' (k + 1) count) best = .ok best' ∧
      best'.OptimalFor opts parseCost all paragraph
        (Visited all opts.limit (k + count) (k + count)) := by
  induction count generalizing k best with
  | zero => exact ⟨best, rfl, h⟩
  | succ count ih =>
    have hnext : k + (count + 1) = k + 1 + count := by omega
    rw [hnext] at hsize ⊢
    rw [List.range'_succ, Options.tryStarts]
    simp only [Nat.add_sub_cancel]
    split
    · rename_i hcut
      have hclear : parserInputs Sentence.clear = segmentInputs paragraph k k := by
        simp [parserInputs, segmentInputs]
      obtain ⟨best', hok, h'⟩ := optimal_tryStops hparse hordered hall
        (min opts.limit (all.words.length - (k + 1))) hcut le_rfl (by omega) (by omega) hclear h
      rw [Options.stops, hok]
      exact ih hsize (h'.congr fun p q hq => inOrder_next hq)
    · rename_i hcut
      exact ih hsize (h.congr fun p q _ => inOrder_next_of_not_start hcut)

/-- The table that the dynamic program ends with. -/
theorem search_isTable (hparse : ParsesWith opts parseCost)
    (hordered : OrderedSums opts.aboveInfinity) (hall : Gathered all paragraph) :
    ∃ best, opts.search all = .ok best ∧ IsTable opts.aboveInfinity ((0 : ℤ) : R) all.Cut opts.limit
      all.words.length (stepCost opts parseCost all paragraph) (fun q => best.logprob.getD q none)
      fun q => best.length.getD q 0 := by
  obtain ⟨hpos, hzero⟩ := hall.cut_zero
  have hinit : (Best.init ((0 : ℤ) : R) all.words.length).OptimalFor opts parseCost all paragraph
      (Visited all opts.limit 0 0) :=
    (optimal_init hpos _ _ _).congr fun p q _ => iff_of_false id not_inOrder_zero
  obtain ⟨best, hok, h⟩ := optimal_tryStarts hparse hordered hall (all.words.length - 1)
    (by omega) hinit
  have hvalue : ∀ q, q < all.words.length → ∀ v, best.logprob.getD q none = some v → all.Cut q := by
    intro q hq v hv
    rcases Nat.eq_zero_or_pos q with rfl | hqpos
    · exact hzero
    · obtain ⟨p, v', htried, hrest⟩ := h.link q hqpos hq v hv
      exact htried.2.2.2.1
  refine ⟨best, hok, h.zero, fun q hqpos hq v hv => ?_,
    fun p q hlt hle hcut hq v' hv' => ?_, h.length_eq_zero⟩
  · obtain ⟨p, v', ⟨_, hlt, hle, hcut, _⟩, hlast, hrest⟩ := h.link q hqpos hq v hv
    exact ⟨p, v', hlt, hle, hcut, hlast, hrest⟩
  · exact h.bound p q ⟨hvalue p (by omega) v' hv', hlt, hle, hcut, by omega⟩ hq v' hv'

end Loops

/-! ### The backtrace -/

section Backtrace

variable {R : Type} [LinearOrder R] [Add R] {best : Best R} {above : R → Bool} {start : R}
  {cut : ℕ → Prop} {limit size : ℕ} {cost : ℕ → ℕ → R}

/-- The backtrace finds a way to a position that has the sum of the table. -/
theorem backtrace_leftScore (h : IsTable above start cut limit size cost
      (fun q => best.logprob.getD q none) fun q => best.length.getD q 0)
    {q : ℕ} (hq : q < size) {v : R} (hv : best.logprob.getD q none = some v)
    {lengths : List ℕ} {b : ℕ} (hlengths : Segments cut limit q lengths b) :
    ∃ lengths', (Comp.loopOf best.backStep (q + 1, lengths)).Returns lengths' ∧
      Segments cut limit 0 lengths' b ∧
      leftScore above cost start 0 lengths' = leftScore above cost v q lengths := by
  induction q using Nat.strongRecOn generalizing lengths v with
  | ind q ih =>
    rcases Nat.eq_zero_or_pos q with rfl | hpos
    · obtain rfl := Option.some.inj (hv.symm.trans h.zero)
      exact ⟨lengths, Comp.returns_loopOf.mpr rfl, hlengths, rfl⟩
    · obtain ⟨p, v', hlt, hle, hcut, hlast, hv', hsum, habove⟩ := h.link q hpos hq v hv
      have hqp : p + (q - p) = q := by omega
      obtain ⟨lengths', hreturns, hsegments, hscore⟩ := ih p hlt (by omega) hv'
        (.cons (by omega) (by omega) (hqp.symm ▸ hcut) (hqp.symm ▸ hlengths) :
          Segments cut limit p ((q - p) :: lengths) b)
      refine ⟨lengths', Comp.returns_loopOf.mpr ?_, hsegments, ?_⟩
      · have hstop : q + 1 - (q - p) = p + 1 := by omega
        rw [Best.backStep, if_pos (by omega), Nat.add_sub_cancel]
        dsimp only at hlast ⊢
        rw [hlast, hstop]
        exact hreturns
      · rw [hscore, leftScore, hqp, ← hsum, if_pos habove]

/-- From a position that is not reached it runs forever: the last sentence has length zero. -/
theorem not_terminates_backtrace (h : IsTable above start cut limit size cost
      (fun q => best.logprob.getD q none) fun q => best.length.getD q 0)
    (hsize : 0 < size) (hnone : best.logprob.getD (size - 1) none = none) :
    ¬ (best.backtrace size).Terminates := by
  have hpos : 1 < size := by
    by_contra hle
    have hzero : size - 1 = 0 := by omega
    rw [hzero, h.zero] at hnone
    cases hnone
  have hlast := h.last_eq_zero (size - 1) (by omega) hnone
  refine Comp.loop_diverges (fun state => state.1 = size) ?_ rfl
  rintro ⟨stop, lengths⟩ heq
  obtain rfl : stop = size := heq
  refine ⟨_, Comp.returns_pure.mpr (if_pos hpos), ?_⟩
  dsimp only at hlast ⊢
  rw [hlast, Nat.sub_zero]

end Backtrace

end UDPipe.Joint
