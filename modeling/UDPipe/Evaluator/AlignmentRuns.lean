import UDPipe.Conllu.Reader
import UDPipe.Evaluator.Alignment

/-!
# Runs of the alignment

The words of evaluation data are numbered from one on. A pass of the alignment
takes words from the front of both lists and matches some of them in order; it
takes none only if a multiword token without characters decides it, and then
the loop runs forever. Otherwise the matched pairs form a matching, in which only
words of one multiword region can differ in the characters they cover.
-/

namespace UDPipe.Evaluator

/-! ### The numbers of words -/

namespace EvaluationData

/-- The words have consecutive ids, and cover ranges of characters. -/
structure Numbered (data : EvaluationData) : Prop where
  ids : ∀ (i : ℕ) (word : WordData), data.words[i]? = some word → word.w.id = i + 1
  ranges : ∀ word ∈ data.words, word.start ≤ word.stop ∧ word.stop ≤ data.chars.length

/-- Empty data are numbered. -/
theorem numbered_empty : Numbered {} where
  ids := by simp
  ranges := by simp

variable {tables : Unicode} {data : EvaluationData}

/-- A form adds characters only. -/
theorem Numbered.addForm (h : data.Numbered) (form : Bytes) : (data.addForm form).Numbered where
  ids := h.ids
  ranges word hword := by
    have hlength : (data.addForm form).chars.length =
        data.chars.length + (formChars form).length := List.length_append
    have := h.ranges word hword
    omega

/-- A word gets the next number. -/
theorem Numbered.pushWord {start : ℕ} (h : data.Numbered) (hstart : start ≤ data.chars.length)
    (isMultiword : Bool) (w : Word) : (data.pushWord tables start isMultiword w).Numbered where
  ids i word hword := by
    simp only [EvaluationData.pushWord, List.getElem?_append] at hword
    split at hword
    · exact h.ids i word hword
    · obtain ⟨hi, rfl⟩ := List.getElem?_eq_some_iff.mp hword
      simp only [List.length_singleton] at hi
      have hlength : i = data.words.length := by omega
      simp [WordData.make, hlength]
  ranges word hword := by
    rcases List.mem_append.mp hword with hold | hnew
    · exact h.ranges word hold
    · obtain rfl := List.mem_singleton.mp hnew
      exact ⟨hstart, le_rfl⟩

/-- A word with its form gets the next number. -/
theorem Numbered.addWord (h : data.Numbered) (w : Word) : (data.addWord tables w).Numbered := by
  refine (h.addForm w.form).pushWord ?_ false w
  simp [EvaluationData.addForm]

/-- The words of a multiword token get the next numbers. -/
theorem Numbered.addMultiword (h : data.Numbered) (form : Bytes) (covered : List Word) :
    (data.addMultiword tables form covered).Numbered := by
  have hform := h.addForm form
  refine foldl_pushWord_induction covered (fun data' w hchars hdata' => ?_) ⟨hform.ids, hform.ranges⟩
  refine hdata'.pushWord ?_ true w
  rw [hchars, EvaluationData.addForm, List.length_append]
  exact Nat.le_add_right _ _

/-- What every surface token keeps holds after the surface tokens of a sentence. -/
theorem addTokens_induction {motive : EvaluationData → Prop} {tokens : List MultiwordToken}
    (word : ∀ data w, motive data → motive (data.addWord tables w))
    (multiword : ∀ data, ∀ token ∈ tokens, ∀ covered,
      motive data → motive (data.addMultiword tables token.form covered))
    (words : List Word) (i : ℕ) (covered : ℤ) {data : EvaluationData} (hdata : motive data) :
    motive (addTokens tables words i covered tokens data) := by
  induction words generalizing i covered tokens data with
  | nil => cases tokens <;> exact hdata
  | cons w words ih =>
    cases tokens with
    | nil =>
      simp only [addTokens]
      split
      · exact ih multiword _ _ hdata
      · exact ih multiword _ _ (word _ _ hdata)
    | cons token rest =>
      have hrest : ∀ data, ∀ token ∈ rest, ∀ covered,
          motive data → motive (data.addMultiword tables token.form covered) :=
        fun data token htoken => multiword data token (List.mem_cons_of_mem _ htoken)
      simp only [addTokens]
      split_ifs
      · exact ih multiword _ _ hdata
      · exact ih hrest _ _ (multiword _ token List.mem_cons_self _ hdata)
      · exact ih multiword _ _ (word _ _ hdata)

/-- What every surface token and every sentence keeps holds of the data of sentences. -/
theorem ofSentences_induction {motive : EvaluationData → Prop} {sentences : List Sentence}
    (empty : motive {})
    (sentence : ∀ data spans, motive data → motive { data with sentences := spans })
    (word : ∀ data w, motive data → motive (data.addWord tables w))
    (multiword : ∀ data, ∀ s ∈ sentences, ∀ token ∈ s.multiwordTokens, ∀ covered,
      motive data → motive (data.addMultiword tables token.form covered)) :
    motive (ofSentences tables sentences) := by
  have hfold : ∀ (rest : List Sentence) (data : EvaluationData),
      (∀ s ∈ rest, s ∈ sentences) → motive data →
      motive (rest.foldl (addSentence tables) data) := by
    intro rest
    induction rest with
    | nil => exact fun data _ hdata => hdata
    | cons s rest ih =>
      intro data hmem hdata
      obtain ⟨hs, hrest⟩ := List.forall_mem_cons.mp hmem
      exact ih _ hrest (sentence _ _
        (addTokens_induction word (fun data => multiword data s hs) _ _ _ hdata))
  exact hfold sentences {} (fun _ h => h) empty

/-- The data of sentences is numbered. -/
theorem numbered_ofSentences (tables : Unicode) (sentences : List Sentence) :
    (ofSentences tables sentences).Numbered :=
  ofSentences_induction numbered_empty (fun _ _ h => ⟨h.ids, h.ranges⟩) (fun _ w h => h.addWord w)
    (fun _ _ _ token _ covered h => h.addMultiword token.form covered)

end EvaluationData

/-! ### What a region takes -/

/-- The end of the range that the words `s` and `g` begin. -/
def rangeEndOf (s g : WordData) : ℕ := if s.isMultiword then s.stop else g.stop

/-- A multiword token decides the pass, but neither word is in its range. -/
def Stuck (s g : WordData) : Prop :=
  noMultiword s g = false ∧ s.inRange (rangeEndOf s g) = false ∧ g.inRange (rangeEndOf s g) = false

instance (s g : WordData) : Decidable (Stuck s g) := inferInstanceAs (Decidable (_ ∧ _))

/-- The multiword token that decides a stuck pass has no characters, and the
other word does not end with it. -/
theorem stuck_iff {s g : WordData} (hs : s.start ≤ s.stop) :
    Stuck s g ↔
      (s.isMultiword = true ∧ s.start = s.stop ∧ s.start ≤ g.start ∧
        (g.isMultiword = true ∨ s.stop < g.stop)) ∨
      (s.isMultiword = false ∧ g.isMultiword = true ∧ g.stop ≤ g.start ∧ g.start ≤ s.start ∧
        g.stop < s.stop) := by
  cases hsm : s.isMultiword <;> cases hgm : g.isMultiword <;>
    simp [Stuck, noMultiword, WordData.inRange, rangeEndOf, hsm, hgm] <;> omega

/-- One of the next words is in the range. -/
def Region.Continues (r : Region) : Prop :=
  (r.system.head?.any (·.inRange r.rangeEnd)) = true ∨
    (r.gold.head?.any (·.inRange r.rangeEnd)) = true

/-- One pass of the loop over a region takes a word if one of the next words is in the range. -/
theorem Region.step_cases (r : Region) :
    (r.step = .done r ∧ ¬ r.Continues) ∨ r.Continues ∧
      ((∃ s system, r.system = s :: system ∧ r.step = .next (r.takeSystem s system)) ∨
        ∃ g gold, r.gold = g :: gold ∧ r.step = .next (r.takeGold g gold)) := by
  unfold Region.step
  split
  · rename_i hguard
    refine Or.inr ⟨(Bool.or_eq_true _ _).mp hguard, ?_⟩
    cases hsystem : r.system with
    | nil =>
      cases hgold : r.gold with
      | nil => simp [hsystem, hgold] at hguard
      | cons g gold => exact Or.inr ⟨g, gold, rfl, rfl⟩
    | cons s system =>
      cases hgold : r.gold with
      | nil => exact Or.inl ⟨s, system, rfl, rfl⟩
      | cons g gold =>
        rcases Nat.lt_or_ge g.start s.start with hlt | hle
        · exact Or.inr ⟨g, gold, rfl, if_neg (Nat.not_le.mpr hlt)⟩
        · exact Or.inl ⟨s, system, rfl, if_pos hle⟩
  · rename_i hguard
    exact Or.inl ⟨rfl, fun h => hguard ((Bool.or_eq_true _ _).mpr h)⟩

/-- The loop over a region ends, and splits the words into those collected and those left. -/
theorem Region.collects (r : Region) : ∃ r', (Comp.loopOf Region.step r).Returns r' ∧
    ∃ takenS takenG, r'.systemWords = r.systemWords ++ takenS ∧
      r'.goldWords = r.goldWords ++ takenG ∧ r.system = takenS ++ r'.system ∧
      r.gold = takenG ++ r'.gold := by
  refine Comp.loopOf_total
    (fun t => ∃ takenS takenG, t.systemWords = r.systemWords ++ takenS ∧
      t.goldWords = r.goldWords ++ takenG ∧ r.system = takenS ++ t.system ∧
      r.gold = takenG ++ t.gold) _
    (fun t => t.system.length + t.gold.length) (fun t ht => ?_) ⟨[], [], by simp⟩
  obtain ⟨takenS, takenG, hsystemWords, hgoldWords, hsystem, hgold⟩ := ht
  rcases t.step_cases with ⟨hdone, _⟩ | ⟨_, ⟨s, system, hs, hnext⟩ | ⟨g, gold, hg, hnext⟩⟩
  · exact Or.inl ⟨t, hdone, takenS, takenG, hsystemWords, hgoldWords, hsystem, hgold⟩
  · refine Or.inr ⟨_, hnext, ⟨takenS ++ [s], takenG, ?_, hgoldWords, ?_, hgold⟩, ?_⟩
    · simp [takeSystem, hsystemWords]
    · simp [takeSystem, hsystem, hs]
    · simp [takeSystem, hs]
  · refine Or.inr ⟨_, hnext, ⟨takenS, takenG ++ [g], hsystemWords, ?_, hsystem, ?_⟩, ?_⟩
    · simp [takeGold, hgoldWords]
    · simp [takeGold, hgold, hg]
    · simp [takeGold, hg]

/-- The loop over a region takes nothing if and only if its first pass ends it. -/
theorem Region.collects_nothing_iff {r r' : Region}
    (hr : (Comp.loopOf Region.step r).Returns r') (hempty : r.systemWords = [] ∧ r.goldWords = []) :
    r'.systemWords = [] ∧ r'.goldWords = [] ↔ ¬ r.Continues := by
  rw [Comp.returns_loopOf] at hr
  rcases r.step_cases with ⟨hdone, hnot⟩ | ⟨hcontinues, ⟨s, system, _, hnext⟩ | ⟨g, gold, _, hnext⟩⟩
  · rw [hdone] at hr
    subst hr
    exact ⟨fun _ => hnot, fun _ => hempty⟩
  · rw [hnext] at hr
    obtain ⟨r'', hr'', takenS, _, hsystemWords, _⟩ := (r.takeSystem s system).collects
    obtain rfl := hr.unique hr''
    exact ⟨fun h => by simp [hsystemWords, takeSystem] at h, fun h => absurd hcontinues h⟩
  · rw [hnext] at hr
    obtain ⟨r'', hr'', _, takenG, _, hgoldWords, _⟩ := (r.takeGold g gold).collects
    obtain rfl := hr.unique hr''
    exact ⟨fun h => by simp [hgoldWords, takeGold] at h, fun h => absurd hcontinues h⟩

/-- The region that two words begin takes words from the front, none if it is stuck. -/
theorem Region.start_returns {s g : WordData} (system gold : List WordData)
    (hmultiword : noMultiword s g = false) :
    ∃ r, (Comp.loopOf Region.step (.start s g system gold)).Returns r ∧
      s :: system = r.systemWords ++ r.system ∧ g :: gold = r.goldWords ++ r.gold ∧
      (r.systemWords = [] ∧ r.goldWords = [] ↔ Stuck s g) := by
  obtain ⟨r, hr, takenS, takenG, hsystemWords, hgoldWords, hsystem, hgold⟩ :=
    (Region.start s g system gold).collects
  refine ⟨r, hr, hsystemWords ▸ hsystem, hgoldWords ▸ hgold, ?_⟩
  have hcontinues : (Region.start s g system gold).Continues ↔
      s.inRange (rangeEndOf s g) = true ∨ g.inRange (rangeEndOf s g) = true := Iff.rfl
  rw [Region.collects_nothing_iff hr ⟨rfl, rfl⟩, hcontinues]
  simp [Stuck, hmultiword]

/-! ### What the table matches -/

/-- The pairs of words of matched word data. -/
def pairsOf (pairs : List (WordData × WordData)) : List PairSystemGold :=
  pairs.map fun p => ⟨p.1.w, p.2.w⟩

/-- No words make no pairs. -/
@[simp] theorem pairsOf_nil : pairsOf [] = [] := rfl

/-- Pairs one after the other. -/
@[simp] theorem pairsOf_append (pairs pairs' : List (WordData × WordData)) :
    pairsOf (pairs ++ pairs') = pairsOf pairs ++ pairsOf pairs' := List.map_append

/-- Pairs of words that are in order in both lists. -/
structure InOrder (system gold : List WordData) (pairs : List (WordData × WordData)) : Prop where
  system : (pairs.map Prod.fst).Sublist system
  gold : (pairs.map Prod.snd).Sublist gold

/-- No pairs are in order. -/
theorem InOrder.nil (system gold : List WordData) : InOrder system gold [] :=
  ⟨List.nil_sublist _, List.nil_sublist _⟩

/-- Pairs of words before others. -/
theorem InOrder.append {system gold system' gold' : List WordData}
    {pairs pairs' : List (WordData × WordData)} (h : InOrder system gold pairs)
    (h' : InOrder system' gold' pairs') :
    InOrder (system ++ system') (gold ++ gold') (pairs ++ pairs') := by
  constructor
  · rw [List.map_append]
    exact h.system.append h'.system
  · rw [List.map_append]
    exact h.gold.append h'.gold

/-- One pass of the loop along the table ends it, matches the next words, or leaves one out. -/
theorem LcsState.step_cases (st : LcsState) : st.step = .done st.matched ∨
    ∃ s system g gold lcs, st.system = s :: system ∧ st.gold = g :: gold ∧
      (st.step = .next ⟨system, gold, lcs, st.matched ++ [⟨s.w, g.w⟩]⟩ ∨
        st.step = .next ⟨system, g :: gold, lcs, st.matched⟩ ∨
        st.step = .next ⟨s :: system, gold, lcs, st.matched⟩) := by
  obtain ⟨system, gold, lcs, matched⟩ := st
  cases system with
  | nil => exact Or.inl rfl
  | cons s system =>
    cases gold with
    | nil => exact Or.inl rfl
    | cons g gold =>
      simp only [LcsState.step]
      split_ifs
      · exact Or.inr ⟨s, system, g, gold, _, rfl, rfl, Or.inl rfl⟩
      · exact Or.inr ⟨s, system, g, gold, _, rfl, rfl, Or.inr (Or.inl rfl)⟩
      · exact Or.inr ⟨s, system, g, gold, _, rfl, rfl, Or.inr (Or.inr rfl)⟩

/-- The loop along the table ends, and adds pairs of words in order. -/
theorem LcsState.adds_pairs (st : LcsState) :
    ∃ matched, (Comp.loopOf LcsState.step st).Returns matched ∧
      ∃ pairs, matched = st.matched ++ pairsOf pairs ∧ InOrder st.system st.gold pairs := by
  refine Comp.loopOf_total
    (fun t => ∃ takenS takenG pairs, st.system = takenS ++ t.system ∧ st.gold = takenG ++ t.gold ∧
      t.matched = st.matched ++ pairsOf pairs ∧ InOrder takenS takenG pairs) _
    (fun t => t.system.length + t.gold.length) (fun t ht => ?_)
    ⟨[], [], [], rfl, rfl, by simp, .nil _ _⟩
  obtain ⟨takenS, takenG, pairs, hsystem, hgold, hmatched, hpairs⟩ := ht
  rcases t.step_cases with hdone | ⟨s, system, g, gold, lcs, hs, hg, hnext⟩
  · refine Or.inl ⟨_, hdone, pairs, hmatched, ?_⟩
    rw [hsystem, hgold]
    simpa using hpairs.append (.nil t.system t.gold)
  rw [hs] at hsystem ⊢
  rw [hg] at hgold ⊢
  rcases hnext with hnext | hnext | hnext <;> refine Or.inr ⟨_, hnext, ?_, ?_⟩
  · refine ⟨takenS ++ [s], takenG ++ [g], pairs ++ [(s, g)], by simp [hsystem], by simp [hgold],
      by simp [hmatched, pairsOf], hpairs.append ⟨?_, ?_⟩⟩
    · exact List.Sublist.refl _
    · exact List.Sublist.refl _
  · simp only [List.length_cons]
    omega
  · refine ⟨takenS ++ [s], takenG, pairs, by simp [hsystem], hgold, hmatched, ?_⟩
    simpa using hpairs.append (.nil [s] [])
  · simp only [List.length_cons]
    omega
  · refine ⟨takenS, takenG ++ [g], pairs, hsystem, by simp [hgold], hmatched, ?_⟩
    simpa using hpairs.append (.nil [] [g])
  · simp only [List.length_cons]
    omega

/-! ### One pass of the alignment -/

/-- A region that is collected in the pass from `st` on, as the words of both sides. -/
def RegionAt (st : AlignState) (systemWords goldWords : List WordData) : Prop :=
  ∃ s system g gold r, st.system = s :: system ∧ st.gold = g :: gold ∧ noMultiword s g = false ∧
    (Comp.loopOf Region.step (.start s g system gold)).Returns r ∧
    r.systemWords = systemWords ∧ r.goldWords = goldWords

/-- The pass from this state on is stuck. -/
def AlignState.IsStuck (st : AlignState) : Prop :=
  ∃ s system g gold, st.system = s :: system ∧ st.gold = g :: gold ∧ Stuck s g

/-- What a pass of the alignment does: words are taken from the front, and some are matched. -/
structure Advances (st st' : AlignState) (takenS takenG : List WordData)
    (pairs : List (WordData × WordData)) : Prop where
  system : st.system = takenS ++ st'.system
  gold : st.gold = takenG ++ st'.gold
  matched : st'.matched = st.matched ++ pairsOf pairs
  inOrder : InOrder takenS takenG pairs
  spans : (∀ p ∈ pairs, SameSpan p.1 p.2) ∨ RegionAt st takenS takenG
  taken : takenS = [] ∧ takenG = [] ↔ st.IsStuck

/-- A pass of the alignment ends it, or advances. -/
theorem AlignState.step_cases (st : AlignState) :
    (st.step.Returns (.done st.matched) ∧ ¬ st.IsStuck) ∨
      ∃ st' takenS takenG pairs, st.step.Returns (.next st') ∧
        Advances st st' takenS takenG pairs := by
  obtain ⟨system, gold, matched⟩ := st
  cases system with
  | nil =>
    refine Or.inl ⟨Comp.returns_pure.mpr rfl, ?_⟩
    rintro ⟨s, system, g, gold, hs, _⟩
    cases hs
  | cons s system =>
    cases gold with
    | nil =>
      refine Or.inl ⟨Comp.returns_pure.mpr rfl, ?_⟩
      rintro ⟨s, system, g, gold, _, hg, _⟩
      cases hg
    | cons g gold =>
      refine Or.inr ?_
      have hstuck : (⟨s :: system, g :: gold, matched⟩ : AlignState).IsStuck ↔ Stuck s g := by
        constructor
        · rintro ⟨s', system', g', gold', hs, hg, h⟩
          cases hs
          cases hg
          exact h
        · exact fun h => ⟨s, system, g, gold, rfl, rfl, h⟩
      cases hmultiword : noMultiword s g with
      | true =>
        have hnot : ¬ Stuck s g := fun h => by simp [h.1] at hmultiword
        simp only [AlignState.step, hmultiword, if_true]
        by_cases hspan : SameSpan s g
        · rw [if_pos hspan]
          exact ⟨_, [s], [g], [(s, g)], Comp.returns_pure.mpr rfl, rfl, rfl, rfl,
            ⟨.refl _, .refl _⟩, Or.inl (List.forall_mem_singleton.mpr hspan), by simp [hstuck, hnot]⟩
        · rw [if_neg hspan]
          by_cases hle : s.start ≤ g.start
          · rw [if_pos hle]
            exact ⟨_, [s], [], [], Comp.returns_pure.mpr rfl, rfl, rfl, by simp, .nil _ _,
              Or.inl (List.forall_mem_nil _), by simp [hstuck, hnot]⟩
          · rw [if_neg hle]
            exact ⟨_, [], [g], [], Comp.returns_pure.mpr rfl, rfl, rfl, by simp, .nil _ _,
              Or.inl (List.forall_mem_nil _), by simp [hstuck, hnot]⟩
      | false =>
        obtain ⟨r, hr, hsystem, hgold, hnothing⟩ := Region.start_returns system gold hmultiword
        obtain ⟨matched', hmatched', pairs, hpairs, hinOrder⟩ := LcsState.adds_pairs
          { system := r.systemWords
            gold := r.goldWords
            lcs := lcsTable r.systemWords r.goldWords
            matched }
        refine ⟨⟨r.system, r.gold, matched'⟩, r.systemWords, r.goldWords, pairs, ?_,
          hsystem, hgold, hpairs, hinOrder, Or.inr ?_, by rw [hnothing, hstuck]⟩
        · simp only [AlignState.step, hmultiword, Bool.false_eq_true, if_false]
          exact Comp.returns_bind.mpr ⟨r, hr, Comp.returns_bind.mpr
            ⟨matched', hmatched', Comp.returns_pure.mpr rfl⟩⟩
        · exact ⟨s, system, g, gold, r, rfl, rfl, hmultiword, hr, rfl, rfl⟩

/-- A stuck pass changes nothing. -/
theorem AlignState.returns_self_of_isStuck {st : AlignState} (h : st.IsStuck) :
    st.step.Returns (.next st) := by
  rcases st.step_cases with ⟨_, hnot⟩ | ⟨st', takenS, takenG, pairs, hnext, hadvances⟩
  · exact absurd h hnot
  · obtain ⟨rfl, rfl⟩ := hadvances.taken.mpr h
    have hpairs : pairs = [] := by
      simpa using hadvances.inOrder.system
    have hsame : st' = st := by
      have hsystem := hadvances.system
      have hgold := hadvances.gold
      have hmatched := hadvances.matched
      simp only [hpairs, pairsOf_nil, List.nil_append, List.append_nil] at hsystem hgold hmatched
      obtain ⟨system, gold, matched⟩ := st
      obtain ⟨system', gold', matched'⟩ := st'
      simp_all
    exact hsame ▸ hnext

/-! ### Whole runs -/

/-- The passes of the alignment of two data. -/
def Visits (system gold : EvaluationData) (st : AlignState) : Prop :=
  Comp.Passes AlignState.step { system := system.words, gold := gold.words } st

/-- No pass of the alignment is stuck. -/
def NeverStuck (system gold : EvaluationData) : Prop :=
  ∀ st, Visits system gold st → ¬ st.IsStuck

/-- Two words that are in one multiword region. -/
def InRegion (system gold : EvaluationData) (s g : WordData) : Prop :=
  ∃ st systemWords goldWords, Visits system gold st ∧ RegionAt st systemWords goldWords ∧
    s ∈ systemWords ∧ g ∈ goldWords

/-- The loop over all words ends if and only if no pass is stuck. -/
theorem loop_terminates_iff_neverStuck (system gold : EvaluationData) :
    (Comp.loop AlignState.step { system := system.words, gold := gold.words }).Terminates ↔
      NeverStuck system gold := by
  refine Comp.loop_terminates_iff AlignState.IsStuck
    (fun st => st.system.length + st.gold.length)
    (fun st => AlignState.returns_self_of_isStuck) (fun st hst => ?_)
  rcases st.step_cases with ⟨hdone, _⟩ | ⟨st', takenS, takenG, pairs, hnext, hadvances⟩
  · exact Or.inl ⟨_, hdone⟩
  · refine Or.inr ⟨st', hnext, ?_⟩
    have htaken : ¬ (takenS = [] ∧ takenG = []) := fun h => hst (hadvances.taken.mp h)
    rw [← List.length_eq_zero_iff, ← List.length_eq_zero_iff] at htaken
    rw [hadvances.system, hadvances.gold, List.length_append, List.length_append]
    omega

/-- The pairs that a run has matched, in the words taken so far. -/
structure MatchedSoFar (system gold : EvaluationData) (st : AlignState)
    (pairs : List (WordData × WordData)) : Prop where
  visits : Visits system gold st
  matched : st.matched = pairsOf pairs
  inOrder : ∃ takenS takenG, system.words = takenS ++ st.system ∧ gold.words = takenG ++ st.gold ∧
    InOrder takenS takenG pairs
  spans : ∀ p ∈ pairs, InRegion system gold p.1 p.2 ∨ SameSpan p.1 p.2

/-- What a pass matches is added to the pairs. -/
theorem MatchedSoFar.advance {system gold : EvaluationData} {st st' : AlignState}
    {takenS takenG : List WordData} {pairs pairs' : List (WordData × WordData)}
    (h : MatchedSoFar system gold st pairs) (hnext : st.step.Returns (.next st'))
    (hadvances : Advances st st' takenS takenG pairs') :
    MatchedSoFar system gold st' (pairs ++ pairs') where
  visits := h.visits.tail hnext
  matched := by rw [hadvances.matched, h.matched, pairsOf_append]
  inOrder := by
    obtain ⟨doneS, doneG, hsystem, hgold, hinOrder⟩ := h.inOrder
    refine ⟨doneS ++ takenS, doneG ++ takenG, ?_, ?_, hinOrder.append hadvances.inOrder⟩
    · rw [hsystem, hadvances.system, List.append_assoc]
    · rw [hgold, hadvances.gold, List.append_assoc]
  spans := by
    refine List.forall_mem_append.mpr ⟨h.spans, fun p hp => ?_⟩
    rcases hadvances.spans with hspans | hregion
    · exact Or.inr (hspans p hp)
    · refine Or.inl ⟨st, takenS, takenG, h.visits, hregion, ?_, ?_⟩
      · exact hadvances.inOrder.system.subset (List.mem_map_of_mem hp)
      · exact hadvances.inOrder.gold.subset (List.mem_map_of_mem hp)

/-- What the loop over all words returns is a list of pairs in order. -/
theorem loop_returns_pairs {system gold : EvaluationData} {matched : List PairSystemGold}
    (h : (Comp.loop AlignState.step { system := system.words, gold := gold.words }).Returns
      matched) :
    ∃ pairs, matched = pairsOf pairs ∧ InOrder system.words gold.words pairs ∧
      ∀ p ∈ pairs, InRegion system gold p.1 p.2 ∨ SameSpan p.1 p.2 := by
  refine Comp.loop_invariant (fun st => ∃ pairs, MatchedSoFar system gold st pairs)
    (fun matched => ∃ pairs, matched = pairsOf pairs ∧ InOrder system.words gold.words pairs ∧
      ∀ p ∈ pairs, InRegion system gold p.1 p.2 ∨ SameSpan p.1 p.2)
    (fun st st' hst hnext => ?_) (fun st matched hst hdone => ?_)
    ⟨[], .refl, rfl, ⟨[], [], rfl, rfl, .nil _ _⟩, List.forall_mem_nil _⟩ h
  · obtain ⟨pairs, hpairs⟩ := hst
    rcases st.step_cases with ⟨hdone, _⟩ | ⟨st'', takenS, takenG, pairs', hnext', hadvances⟩
    · cases hdone.unique hnext
    · obtain rfl := LoopStep.next.inj (hnext'.unique hnext)
      exact ⟨_, hpairs.advance hnext hadvances⟩
  · obtain ⟨pairs, hpairs⟩ := hst
    rcases st.step_cases with ⟨hdone', _⟩ | ⟨st', _, _, _, hnext, _⟩
    · obtain rfl := LoopStep.done.inj (hdone'.unique hdone)
      obtain ⟨takenS, takenG, hsystem, hgold, hinOrder⟩ := hpairs.inOrder
      refine ⟨pairs, hpairs.matched, ?_, hpairs.spans⟩
      rw [hsystem, hgold]
      simpa using hinOrder.append (.nil st.system st.gold)
    · cases hdone.unique hnext

/-- The matched pairs are a matching: they are in order on both sides, each consists of
a word of either data (the system word with another head), and the two cover the same
characters unless they are in one multiword region. -/
structure Matching (system gold : EvaluationData) (matched : List PairSystemGold) : Prop where
  increasing : matched.Pairwise fun m m' => m.system.id < m'.system.id ∧ m.gold.id < m'.gold.id
  spans : ∀ m ∈ matched, ∃ (i j : ℕ) (s g : WordData), system.words[i]? = some s ∧
    gold.words[j]? = some g ∧ m.system.id = i + 1 ∧ m.gold.id = j + 1 ∧
    (∃ head, m.system = { s.w with head }) ∧ m.gold = g.w ∧
    (InRegion system gold s g ∨ SameSpan s g)

/-- The ids of numbered words increase. -/
theorem EvaluationData.Numbered.increasing {data : EvaluationData} (h : data.Numbered) :
    data.words.Pairwise fun word word' => word.w.id < word'.w.id := by
  refine List.pairwise_iff_getElem.mpr fun i j hi hj hij => ?_
  rw [h.ids i _ (List.getElem?_eq_getElem hi), h.ids j _ (List.getElem?_eq_getElem hj)]
  omega

/-- Reindexing the heads keeps everything else. -/
theorem mem_reindexHeads {total : ℕ} {matched : List PairSystemGold} {m : PairSystemGold}
    (h : m ∈ reindexHeads total matched) : ∃ m' ∈ matched,
      (∃ head, m.system = { m'.system with head }) ∧ m.gold = m'.gold := by
  obtain ⟨m', hm', rfl⟩ := List.mem_map.mp h
  refine ⟨m', hm', ?_⟩
  split
  · exact ⟨⟨_, rfl⟩, rfl⟩
  · exact ⟨⟨m'.system.head, rfl⟩, rfl⟩

/-- Pairs in order form a matching. -/
theorem matching_of_inOrder {system gold : EvaluationData} (hsystem : system.Numbered)
    (hgold : gold.Numbered) {pairs : List (WordData × WordData)}
    (hpairs : InOrder system.words gold.words pairs)
    (hspans : ∀ p ∈ pairs, InRegion system gold p.1 p.2 ∨ SameSpan p.1 p.2) (total : ℕ) :
    Matching system gold (reindexHeads total (pairsOf pairs)) where
  increasing := by
    have hs := List.pairwise_map.mp (hsystem.increasing.sublist hpairs.system)
    have hg := List.pairwise_map.mp (hgold.increasing.sublist hpairs.gold)
    refine List.pairwise_map.mpr (List.pairwise_map.mpr ((hs.and hg).imp fun {p q} hpq => ?_))
    split <;> split <;> exact hpq
  spans m hm := by
    obtain ⟨m', hm', ⟨head, hhead⟩, hgoldWord⟩ := mem_reindexHeads hm
    obtain ⟨p, hp, rfl⟩ := List.mem_map.mp hm'
    obtain ⟨i, hi⟩ := List.mem_iff_getElem?.mp (hpairs.system.subset (List.mem_map_of_mem hp))
    obtain ⟨j, hj⟩ := List.mem_iff_getElem?.mp (hpairs.gold.subset (List.mem_map_of_mem hp))
    refine ⟨i, j, p.1, p.2, hi, hj, ?_, ?_, ⟨head, hhead⟩, hgoldWord, hspans p hp⟩
    · rw [hhead]
      exact hsystem.ids i _ hi
    · rw [hgoldWord]
      exact hgold.ids j _ hj

/-- If no pass is stuck, the alignment ends in a matching. -/
theorem bestAlignment_matches {system gold : EvaluationData} (hsystem : system.Numbered)
    (hgold : gold.Numbered) (h : NeverStuck system gold) :
    ∃ alignment, (bestAlignment system gold).Returns alignment ∧
      Matching system gold alignment.matched := by
  obtain ⟨matched, hmatched⟩ := (loop_terminates_iff_neverStuck system gold).mpr h
  obtain ⟨pairs, rfl, hpairs, hspans⟩ := loop_returns_pairs hmatched
  exact ⟨_, Comp.returns_bind.mpr ⟨_, hmatched, Comp.returns_pure.mpr rfl⟩,
    matching_of_inOrder hsystem hgold hpairs hspans _⟩

/-- An alignment that ends has no stuck pass. -/
theorem neverStuck_of_terminates {system gold : EvaluationData}
    (h : (bestAlignment system gold).Terminates) : NeverStuck system gold := by
  obtain ⟨alignment, halignment⟩ := h
  obtain ⟨matched, hmatched, _⟩ := Comp.returns_bind.mp halignment
  exact (loop_terminates_iff_neverStuck system gold).mp ⟨matched, hmatched⟩

/-- Tables for texts of lowercase ASCII letters. -/
def lowercaseTables : Unicode where
  category code := if code = 32 then .Zs else .Ll
  lowercase := id
  uppercase := id

end UDPipe.Evaluator
