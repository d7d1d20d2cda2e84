import UDPipe.Evaluator.RegionMatches
import UDPipe.Evaluator.TokenSpans
import Mathlib.Data.List.Forall2

/-!
# Data aligned with itself

If every surface token has a character, then the words of one token cover the same
characters and the words of the next one cover later ones. The alignment of such data with
an equal copy takes the words of one token at a time, on both sides.
-/

namespace UDPipe.Evaluator

/-- A word before another one: of a token before, or of the same multiword token. -/
def Precedes (word later : WordData) : Prop :=
  word.stop ≤ later.start ∨ word.isMultiword = true ∧ later.isMultiword = true ∧
    SameSpan word later

/-- Words of tokens with characters, in their order. -/
structure Spaced (words : List WordData) : Prop where
  precedes : words.Pairwise Precedes
  visible : ∀ word ∈ words, word.start < word.stop

/-- A visible word behind the others. -/
theorem Spaced.append_singleton {words : List WordData} {word : WordData} (h : Spaced words)
    (hprecedes : ∀ before ∈ words, Precedes before word) (hvisible : word.start < word.stop) :
    Spaced (words ++ [word]) where
  precedes := List.pairwise_append.mpr ⟨h.precedes, List.pairwise_singleton _ _,
    fun before hbefore _ hlater => List.mem_singleton.mp hlater ▸ hprecedes before hbefore⟩
  visible := List.forall_mem_append.mpr ⟨h.visible, List.forall_mem_singleton.mpr hvisible⟩

/-- The words from one on are spaced. -/
theorem Spaced.of_append (before : List WordData) {words : List WordData}
    (h : Spaced (before ++ words)) : Spaced words where
  precedes := (List.pairwise_append.mp h.precedes).2.1
  visible word hword := h.visible word (List.mem_append_right _ hword)

/-- The words behind the first are spaced. -/
theorem Spaced.tail {word : WordData} {words : List WordData} (h : Spaced (word :: words)) :
    Spaced words := h.of_append [word]

namespace EvaluationData

variable {tables : Unicode}

/-- The words of a multiword token with characters. -/
theorem spaced_foldl_pushWord {start : ℕ} (covered : List Word) {data : EvaluationData}
    (h : Spaced data.words) (hstart : start < data.chars.length)
    (hbefore : ∀ word ∈ data.words, word.stop ≤ start ∨
      word.isMultiword = true ∧ word.start = start ∧ word.stop = data.chars.length) :
    Spaced (covered.foldl (pushWord tables start true) data).words := by
  have hall := @foldl_pushWord_induction tables start
    (fun data' => Spaced data'.words ∧ ∀ word ∈ data'.words, word.stop ≤ start ∨
      word.isMultiword = true ∧ word.start = start ∧ word.stop = data.chars.length)
    covered data (fun data' w hchars hdata' => ?_) ⟨h, hbefore⟩
  · exact hall.1
  · rw [← hchars] at hstart hdata' ⊢
    refine ⟨hdata'.1.append_singleton (fun before hword => ?_) hstart, fun word hword => ?_⟩
    · rcases hdata'.2 before hword with hle | ⟨hmultiword, hs, he⟩
      · exact .inl hle
      · exact .inr ⟨hmultiword, rfl, hs, he⟩
    · rcases List.mem_append.mp hword with hold | hnew
      · exact hdata'.2 word hold
      · obtain rfl := List.mem_singleton.mp hnew
        exact .inr ⟨rfl, rfl, rfl⟩

/-- Sentences whose surface tokens all have a character give such words. -/
theorem spaced_ofSentences {sentences : List Sentence}
    (h : ∀ s ∈ sentences, ∀ t ∈ s.surface, formChars t.token.form ≠ []) :
    Spaced (ofSentences tables sentences).words := by
  have htokens : ∀ span ∈ (ofSentences tables sentences).tokens, span.1 < span.2 := by
    intro span hspan
    rw [tokens_ofSentences] at hspan
    obtain ⟨size, hsize, heq⟩ := mem_spans hspan
    obtain ⟨s, hs, hsize⟩ := List.mem_flatMap.mp hsize
    obtain ⟨t, ht, rfl⟩ := List.mem_map.mp hsize
    have hpos := List.length_pos_iff.mpr (h s hs t ht)
    omega
  -- the tokens added on the way are tokens of the result
  have hall := @ofSentences_induction tables
    (fun data => data.Numbered ∧ ((∀ span ∈ data.tokens, span.1 < span.2) → Spaced data.words))
    sentences ⟨numbered_empty, fun _ => ⟨.nil, by simp⟩⟩
    (fun data spans hdata => ⟨⟨hdata.1.ids, hdata.1.ranges⟩, hdata.2⟩)
    (fun data w hdata => ⟨hdata.1.addWord w, fun hspans => ?_⟩)
    (fun data s hs token htoken covered hdata =>
      ⟨hdata.1.addMultiword token.form covered, fun hspans => ?_⟩)
  · exact hall.2 htokens
  · obtain ⟨hold, hnew⟩ := List.forall_mem_append.mp hspans
    exact (hdata.2 hold).append_singleton (fun before hbefore => .inl (hdata.1.ranges _ hbefore).2)
      (by simpa [EvaluationData.addForm, WordData.make] using hnew)
  · rw [tokens_addMultiword] at hspans
    obtain ⟨hold, hnew⟩ := List.forall_mem_append.mp hspans
    have hsize : data.chars.length < (data.addForm token.form).chars.length := by
      simpa [EvaluationData.addForm] using hnew
    exact spaced_foldl_pushWord covered (hdata.2 hold) hsize
      fun word hword => .inl (hdata.1.ranges _ hword).2

end EvaluationData

/-! ### The words of one token -/

/-- The words after a word are those of its token, and words behind it. -/
theorem Spaced.split {word : WordData} {words : List WordData} (h : Spaced (word :: words)) :
    ∃ token rest, words = token ++ rest ∧
      (∀ w ∈ token, word.isMultiword = true ∧ w.isMultiword = true ∧ SameSpan word w) ∧
      ∀ w ∈ rest, word.stop ≤ w.start := by
  obtain ⟨hprecedes, hvisible⟩ := h
  induction words with
  | nil => exact ⟨[], [], rfl, List.forall_mem_nil _, List.forall_mem_nil _⟩
  | cons next words ih =>
    obtain ⟨hword, hnext⟩ := List.pairwise_cons.mp hprecedes
    obtain ⟨hfirst, hothers⟩ := List.forall_mem_cons.mp hword
    rcases hfirst with hle | hsame
    · refine ⟨[], next :: words, rfl, List.forall_mem_nil _,
        List.forall_mem_cons.mpr ⟨hle, fun w hw => ?_⟩⟩
      have hlt := hvisible next (by simp)
      rcases (List.pairwise_cons.mp hnext).1 w hw with hle' | ⟨-, -, hs, -⟩
      · omega
      · omega
    · obtain ⟨token, rest, rfl, htoken, hrest⟩ :=
        ih (List.pairwise_cons.mpr ⟨hothers, (List.pairwise_cons.mp hnext).2⟩)
          (fun w hw => hvisible w (by
            rcases List.mem_cons.mp hw with rfl | hw
            · exact List.mem_cons_self
            · exact List.mem_cons_of_mem _ (List.mem_cons_of_mem _ hw)))
      exact ⟨next :: token, rest, rfl, List.forall_mem_cons.mpr ⟨hsame, htoken⟩, hrest⟩

/-- A word of a multiword token with the given span. -/
structure InToken (start stop : ℕ) (word : WordData) : Prop where
  isMultiword : word.isMultiword = true
  start_eq : word.start = start
  stop_eq : word.stop = stop

/-- A word of a token is in the range of the token. -/
theorem InToken.inRange {start stop : ℕ} {word : WordData} (h : InToken start stop word)
    (hlt : start < stop) : word.inRange stop = true := by
  simp [WordData.inRange, h.isMultiword, h.start_eq, hlt]

/-- A word of a token does not extend the range. -/
theorem InToken.extend {start stop : ℕ} {word : WordData} (h : InToken start stop word) :
    word.extend stop = stop := by
  simp [WordData.extend, h.isMultiword, h.stop_eq]

/-- The loop over a region takes the words of one token on both sides. -/
theorem Region.returns_token {start stop : ℕ} (hlt : start < stop)
    {systemToken goldToken rest : List WordData} (hsystem : ∀ w ∈ systemToken, InToken start stop w)
    (hgold : ∀ w ∈ goldToken, InToken start stop w)
    (hrest : ∀ w ∈ rest, stop ≤ w.start ∧ w.start < w.stop)
    (systemWords goldWords : List WordData) :
    (Comp.loopOf Region.step
        ⟨systemWords, goldWords, systemToken ++ rest, goldToken ++ rest, stop⟩).Returns
      ⟨systemWords ++ systemToken, goldWords ++ goldToken, rest, rest, stop⟩ := by
  induction systemToken generalizing systemWords with
  | cons s systemToken ih =>
    obtain ⟨hs, hsystem⟩ := List.forall_mem_cons.mp hsystem
    have hfirst : ∀ g ∈ goldToken ++ rest, s.start ≤ g.start := by
      intro g hg
      rw [hs.start_eq]
      rcases List.mem_append.mp hg with hg | hg
      · rw [(hgold g hg).start_eq]
      · exact hlt.le.trans (hrest g hg).1
    have hstep : Region.step
        ⟨systemWords, goldWords, s :: systemToken ++ rest, goldToken ++ rest, stop⟩ =
          .next ⟨systemWords ++ [s], goldWords, systemToken ++ rest, goldToken ++ rest, stop⟩ := by
      cases hwords : goldToken ++ rest with
      | nil => simp [Region.step, takeSystem, hs.inRange hlt, hs.extend]
      | cons g gold =>
        have hle := hfirst g (hwords ▸ List.mem_cons_self)
        simp [Region.step, takeSystem, hs.inRange hlt, hs.extend, hle]
    have hnext := ih hsystem (systemWords ++ [s])
    rw [List.append_assoc, List.singleton_append] at hnext
    rw [Comp.returns_loopOf, hstep]
    exact hnext
  | nil =>
    induction goldToken generalizing goldWords with
    | cons g goldToken ih =>
      obtain ⟨hg, hgold⟩ := List.forall_mem_cons.mp hgold
      have hstep : Region.step ⟨systemWords, goldWords, [] ++ rest, g :: goldToken ++ rest, stop⟩ =
          .next ⟨systemWords, goldWords ++ [g], [] ++ rest, goldToken ++ rest, stop⟩ := by
        cases rest with
        | nil => simp [Region.step, takeGold, hg.inRange hlt, hg.extend]
        | cons s rest =>
          have hlate := (hrest s List.mem_cons_self).1
          have hnot : ¬ s.start ≤ g.start := by
            rw [hg.start_eq]
            omega
          simp [Region.step, takeGold, hg.inRange hlt, hg.extend, hnot]
      have hnext := ih hgold (goldWords ++ [g])
      rw [List.append_assoc, List.singleton_append] at hnext
      rw [Comp.returns_loopOf, hstep]
      exact hnext
    | nil =>
      have hstep : Region.step ⟨systemWords, goldWords, rest, rest, stop⟩ =
          .done ⟨systemWords, goldWords, rest, rest, stop⟩ := by
        cases rest with
        | nil => rfl
        | cons s rest =>
          have hlate := hrest s List.mem_cons_self
          have hnot : s.inRange stop = false := by
            simp only [WordData.inRange]
            split <;> simp <;> omega
          simp [Region.step, hnot]
      rw [Comp.returns_loopOf, List.nil_append, hstep, List.append_nil, List.append_nil]

/-! ### The copies -/

/-- Each word with its copy. -/
def copies (words : List WordData) : List (WordData × WordData) :=
  words.map fun word => (word, word)

/-- The loop along a table matches each word with its copy. -/
theorem LcsState.returns_copies (words : List WordData) (table : List (List ℕ))
    (matched : List PairSystemGold) :
    (Comp.loopOf LcsState.step ⟨words, words, table, matched⟩).Returns
      (matched ++ pairsOf (copies words)) := by
  induction words generalizing table matched with
  | nil => exact Comp.returns_loopOf.mpr (by simp [LcsState.step, copies])
  | cons word words ih =>
    have hnext := ih (table.tail.map List.tail) (matched ++ [⟨word.w, word.w⟩])
    rw [List.append_assoc] at hnext
    rw [Comp.returns_loopOf]
    simp only [LcsState.step, if_true]
    exact hnext

/-- The alignment matches each word with its copy. -/
theorem AlignState.returns_copies {words : List WordData} (h : Spaced words)
    (matched : List PairSystemGold) :
    (Comp.loop AlignState.step ⟨words, words, matched⟩).Returns
      (matched ++ pairsOf (copies words)) := by
  induction hsize : words.length using Nat.strongRecOn generalizing words matched with
  | ind size ih =>
    subst hsize
    rcases words with _ | ⟨word, words⟩
    · exact Comp.returns_loop.mpr (.inl (by simp [AlignState.step, copies]))
    have hvisible := h.visible word List.mem_cons_self
    cases hmultiword : word.isMultiword with
    | false =>
      have hnext := ih _ (Nat.lt_succ_self _) h.tail (matched ++ [⟨word.w, word.w⟩]) rfl
      rw [List.append_assoc] at hnext
      refine Comp.returns_loop.mpr (.inr ⟨_, ?_, hnext⟩)
      simp [AlignState.step, noMultiword, hmultiword, SameSpan]
    | true =>
      obtain ⟨token, rest, rfl, htoken, hrest⟩ := h.split
      have hall : ∀ w ∈ word :: token, InToken word.start word.stop w :=
        List.forall_mem_cons.mpr ⟨⟨hmultiword, rfl, rfl⟩, fun w hw =>
          ⟨(htoken w hw).2.1, (htoken w hw).2.2.1.symm, (htoken w hw).2.2.2.symm⟩⟩
      have hlater : ∀ w ∈ rest, word.stop ≤ w.start ∧ w.start < w.stop := fun w hw =>
        ⟨hrest w hw, h.visible w (List.mem_cons_of_mem _ (List.mem_append_right _ hw))⟩
      have hregion := Region.returns_token hvisible hall hall hlater [] []
      have htable := LcsState.returns_copies (word :: token)
        (lcsTable (word :: token) (word :: token)) matched
      have hnext := ih rest.length (by simp only [List.length_cons, List.length_append]; omega)
        (h.of_append (word :: token)) (matched ++ pairsOf (copies (word :: token))) rfl
      rw [List.append_assoc, ← pairsOf_append, copies, copies, ← List.map_append] at hnext
      refine Comp.returns_loop.mpr (.inr ⟨_, ?_, hnext⟩)
      have hdecides : noMultiword word word = false := by simp [noMultiword, hmultiword]
      have hstart : Region.start word word (token ++ rest) (token ++ rest) =
          ⟨[], [], word :: token ++ rest, word :: token ++ rest, word.stop⟩ := by
        simp [Region.start, hmultiword]
      simp only [AlignState.step, hdecides, Bool.false_eq_true, if_false, hstart]
      exact Comp.returns_bind.mpr ⟨_, hregion, Comp.returns_bind.mpr
        ⟨_, htable, Comp.returns_pure.mpr rfl⟩⟩

/-! ### Heads -/

/-- Writing the ids of numbered words at their places gives the ids. -/
theorem foldl_set_copies (words : List WordData) (aligned : List ℤ) {k : ℕ}
    (hk : k < aligned.length) (hids : ∀ word ∈ words, 1 ≤ word.w.id)
    (hplace : aligned[k]? = some ((k : ℤ) + 1) ∨ ∃ word ∈ words, word.w.id = (k : ℤ) + 1) :
    ((pairsOf (copies words)).foldl (fun aligned m =>
      aligned.set (m.system.id - 1).toNat m.gold.id) aligned)[k]? = some ((k : ℤ) + 1) := by
  induction words generalizing aligned with
  | nil =>
    rcases hplace with hplace | ⟨word, hword, -⟩
    · exact hplace
    · cases hword
  | cons word words ih =>
    obtain ⟨hid, hids⟩ := List.forall_mem_cons.mp hids
    refine ih (aligned.set (word.w.id - 1).toNat word.w.id) (by rwa [List.length_set]) hids ?_
    by_cases heq : word.w.id = (k : ℤ) + 1
    · have hindex : (word.w.id - 1).toNat = k := by omega
      exact .inl (by rw [hindex, List.getElem?_set_self hk, heq])
    · have hindex : (word.w.id - 1).toNat ≠ k := by omega
      rcases hplace with hplace | ⟨other, hother, hother'⟩
      · exact .inl (by rw [List.getElem?_set_ne hindex, hplace])
      · rcases List.mem_cons.mp hother with rfl | hother
        · exact absurd hother' heq
        · exact .inr ⟨other, hother, hother'⟩

/-- Each word is matched with its copy; its head stays if it is the id of a word. -/
structure MatchedCopy (data : EvaluationData) (word : WordData) (m : PairSystemGold) : Prop where
  gold : m.gold = word.w
  system : ∃ head, m.system = { word.w with head }
  head : word.w.head ≤ data.words.length → m.system = word.w

/-- The result matches each word with its copy. -/
theorem matchedCopy_reindexHeads {data : EvaluationData} (h : data.Numbered) :
    List.Forall₂ (MatchedCopy data) data.words
      (reindexHeads data.words.length (pairsOf (copies data.words))) := by
  have hids : ∀ word ∈ data.words, 1 ≤ word.w.id := by
    intro word hword
    obtain ⟨i, hi⟩ := List.mem_iff_getElem?.mp hword
    have hid := h.ids i word hi
    omega
  rw [reindexHeads, pairsOf, copies, List.map_map, List.map_map, List.forall₂_map_right_iff,
    List.forall₂_same]
  intro word hword
  simp only [Function.comp_apply]
  split
  · rename_i hpos
    refine ⟨rfl, ⟨_, rfl⟩, fun hle => ?_⟩
    obtain ⟨k, hk⟩ : ∃ k : ℕ, word.w.head = (k : ℤ) + 1 := ⟨(word.w.head - 1).toNat, by omega⟩
    have hlt : k < data.words.length := by omega
    have hplace := h.ids k _ (List.getElem?_eq_getElem hlt)
    have haligned := @foldl_set_copies data.words (List.replicate data.words.length (-1)) k
      (by rwa [List.length_replicate]) hids (.inr ⟨_, List.getElem_mem hlt, hplace⟩)
    have hindex : (word.w.head - 1).toNat = k := by omega
    rw [pairsOf, copies] at haligned
    rw [hindex, List.getD_eq_getElem?_getD, haligned, Option.getD_some, ← hk]
  · exact ⟨rfl, ⟨word.w.head, rfl⟩, fun _ => rfl⟩

/-! ### The alignment -/

/-- In every alignment that ends the pairs of a region are a longest common subsequence of
its words, and data whose surface tokens have characters is matched with itself word for
word. -/
theorem bestAlignment_longest_and_self (tables : Unicode) :
    (∀ (system gold : EvaluationData) (alignment : WordAlignment),
      (bestAlignment system gold).Returns alignment →
      ∀ (st : AlignState) (systemWords goldWords : List WordData), Visits system gold st →
        RegionAt st systemWords goldWords →
        RegionMatched system gold alignment.matched systemWords goldWords) ∧
    ∀ sentences : List Sentence,
      (∀ s ∈ sentences, ∀ t ∈ s.surface, formChars t.token.form ≠ []) →
      ∃ alignment, (bestAlignment (.ofSentences tables sentences)
          (.ofSentences tables sentences)).Returns alignment ∧
        List.Forall₂ (MatchedCopy (.ofSentences tables sentences))
          (EvaluationData.ofSentences tables sentences).words alignment.matched := by
  constructor
  · intro system gold alignment h st systemWords goldWords hst hregion
    exact bestAlignment_regionMatched h hst hregion
  · intro sentences h
    have hmatched := AlignState.returns_copies
      (@EvaluationData.spaced_ofSentences tables _ h) []
    exact ⟨_, Comp.returns_bind.mpr ⟨_, hmatched, Comp.returns_pure.mpr rfl⟩,
      matchedCopy_reindexHeads (EvaluationData.numbered_ofSentences tables sentences)⟩

/-- A multiword token with its two words is a region that is matched with itself. -/
theorem bestAlignment_longest_and_self_token : ∃ read alignment systemWords goldWords,
    (Conllu.nextSentence 2 (bytes ("1-2\tdel\t_\t_\t_\t_\t_\t_\t_\t_\n" ++
      "1\tde\tde\t_\t_\t_\t0\t_\t_\t_\n2\tel\tel\t_\t_\t_\t1\t_\t_\t_\n"))).Returns read ∧
    (bestAlignment (.ofSentences lowercaseTables [read.sentence])
      (.ofSentences lowercaseTables [read.sentence])).Returns alignment ∧
    RegionMatched (.ofSentences lowercaseTables [read.sentence])
      (.ofSentences lowercaseTables [read.sentence]) alignment.matched systemWords goldWords ∧
    List.Forall₂ (MatchedCopy (.ofSentences lowercaseTables [read.sentence]))
      (EvaluationData.ofSentences lowercaseTables [read.sentence]).words alignment.matched := by
  obtain ⟨read, hread, hcheck⟩ : ∃ read, (Conllu.nextSentence 2
      (bytes ("1-2\tdel\t_\t_\t_\t_\t_\t_\t_\t_\n" ++
        "1\tde\tde\t_\t_\t_\t0\t_\t_\t_\n2\tel\tel\t_\t_\t_\t1\t_\t_\t_\n"))).Returns read ∧
      (decide (∀ s ∈ [read.sentence], ∀ t ∈ s.surface, formChars t.token.form ≠ []) &&
        (EvaluationData.ofSentences lowercaseTables [read.sentence]).words.head?.any
          fun s => !noMultiword s s) = true :=
    Comp.exists_returns_of_run 9 (by decide +kernel)
  rw [Bool.and_eq_true, decide_eq_true_iff, Option.any_eq_true] at hcheck
  obtain ⟨hvisible, s, hfirst, hs⟩ := hcheck
  obtain ⟨more, hwords⟩ := List.head?_eq_some_iff.mp hfirst
  obtain ⟨alignment, halignment, hself⟩ :=
    (bestAlignment_longest_and_self lowercaseTables).2 _ hvisible
  obtain ⟨region, hregion, -⟩ := Region.collects (.start s s more more)
  refine ⟨read, alignment, region.systemWords, region.goldWords, hread, halignment, ?_, hself⟩
  refine (bestAlignment_longest_and_self lowercaseTables).1 _ _ _ halignment
    ⟨s :: more, s :: more, []⟩ _ _ ?_
    ⟨s, more, s, more, region, rfl, rfl, by simpa using hs, hregion, rfl, rfl⟩
  rw [← hwords]
  exact .refl

end UDPipe.Evaluator
