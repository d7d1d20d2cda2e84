import UDPipe.Evaluator.Legible
import UDPipe.Evaluator.TokenSpans
import UDPipe.Library.MergeJoin

/-!
# F1 counts

`evaluate_f1` of `model/evaluator.cpp` counts the items that two lists have in common while it
merges the lists by their starts. Items that share a start are compared place by place, so
an item can be missed if other items with its start are in one of the lists only.
-/

namespace UDPipe.Evaluator

open MergeJoin Utf8

/-! ### The count -/

/-- `f1_info`, with the count of correct items instead of the ratios computed from it. -/
structure F1Info where
  totalSystem : ℕ
  totalGold : ℕ
  both : ℕ
  deriving DecidableEq, Repr

section Count

variable {T : Type*} [DecidableEq T]

/-- The loop of `evaluate_f1` over the items that are left. -/
def countBoth : List (ℕ × T) → List (ℕ × T) → ℕ → ℕ
  | [], [], both => both
  | _ :: system, [], both => countBoth system [] both
  | [], _ :: gold, both => countBoth [] gold both
  | s :: system, g :: gold, both =>
    if s.1 < g.1 then countBoth system (g :: gold) both
    else if g.1 < s.1 then countBoth (s :: system) gold both
    else countBoth system gold (both + (decide (s.2 = g.2)).toNat)
termination_by system gold => system.length + gold.length

/-- `evaluate_f1`. -/
def evaluateF1 (system gold : List (ℕ × T)) : F1Info where
  totalSystem := system.length
  totalGold := gold.length
  both := countBoth system gold 0

/-- The loop counts the items that the merge takes together and finds equal. -/
theorem countBoth_eq (system gold : List (ℕ × T)) (both : ℕ) :
    countBoth system gold both = both + (joined Prod.fst system gold).length := by
  induction system, gold, both using countBoth.induct with
  | case1 both => simp [countBoth, joined]
  | case2 s system both ih =>
    rw [countBoth, ih]
    cases system <;> simp [joined]
  | case3 g gold both ih =>
    rw [countBoth, ih]
    simp [joined]
  | case4 s system g gold both hlt ih => rw [countBoth, if_pos hlt, ih, joined, if_pos hlt]
  | case5 s system g gold both hnot hlt ih =>
    rw [countBoth, if_neg hnot, if_pos hlt, ih, joined, if_neg hnot, if_pos hlt]
  | case6 s system g gold both hnot hnot' ih =>
    rw [countBoth, if_neg hnot, if_neg hnot', ih, joined, if_neg hnot, if_neg hnot']
    have hstart : s.1 = g.1 := by omega
    by_cases hvalue : s.2 = g.2
    · rw [if_pos (Prod.ext hstart hvalue), List.length_cons, decide_eq_true hvalue, Bool.toNat_true]
      omega
    · rw [if_neg fun heq => hvalue (congrArg Prod.snd heq), decide_eq_false hvalue,
        Bool.toNat_false, Nat.add_zero]

/-- The items are counted right if the count is the size of their intersection. -/
def CountsIntersection (system gold : List (ℕ × T)) : Prop :=
  (evaluateF1 system gold).both =
    Multiset.card ((system : Multiset (ℕ × T)) ∩ (gold : Multiset (ℕ × T)))

/-- The intersection is counted exactly if equal items have the same places. -/
theorem countsIntersection_iff {system gold : List (ℕ × T)} (hsystem : Sorted Prod.fst system)
    (hgold : Sorted Prod.fst gold) :
    CountsIntersection system gold ↔ SamePlaces Prod.fst system gold := by
  rw [CountsIntersection, evaluateF1, countBoth_eq, Nat.zero_add]
  exact length_joined_iff Prod.fst hsystem hgold

end Count

/-! ### The starts of the items -/

/-- Every item starts at least `k` characters after the items before it. -/
def Apart {T : Type*} (k : ℕ) (items : List (ℕ × T)) : Prop :=
  items.Pairwise fun item item' => item.1 + k ≤ item'.1

/-- Items whose places are apart are sorted. -/
theorem Apart.sorted {T : Type*} {items : List (ℕ × T)} (h : Apart 0 items) :
    Sorted Prod.fst items := h

/-- Items whose places are apart by one are sorted strictly. -/
theorem Apart.strict {T : Type*} {items : List (ℕ × T)} (h : Apart 1 items) :
    items.Pairwise fun item item' => item.1 < item'.1 := h

/-- Spans do not start before the first one. -/
theorem spans_start_le {start : ℕ} {sizes : List ℕ} :
    ∀ span ∈ spans start sizes, start ≤ span.1 := by
  induction sizes generalizing start with
  | nil => simp [spans]
  | cons size sizes ih =>
    rw [spans, List.forall_mem_cons]
    exact ⟨le_rfl, fun span hspan => (Nat.le_add_right _ _).trans (ih span hspan)⟩

/-- Spans are as far apart as the smallest of them is long. -/
theorem apart_spans {k start : ℕ} {sizes : List ℕ} (h : ∀ size ∈ sizes, k ≤ size) :
    Apart k (spans start sizes) := by
  induction sizes generalizing start with
  | nil => exact .nil
  | cons size sizes ih =>
    obtain ⟨hsize, hrest⟩ := List.forall_mem_cons.mp h
    refine List.pairwise_cons.mpr ⟨fun span hspan => ?_, ih hrest⟩
    have := spans_start_le span hspan
    dsimp only
    omega

/-- The spans with one start are empty ones and at most one span with characters after them. -/
theorem withKey_spans (k start : ℕ) (sizes : List ℕ) :
    ∃ (n : ℕ) (last : Option ℕ), (∀ stop ∈ last, k < stop) ∧
      withKey Prod.fst k (spans start sizes) =
        List.replicate n (k, k) ++ last.toList.map fun stop => (k, stop) := by
  induction sizes generalizing start with
  | nil => exact ⟨0, none, by simp, rfl⟩
  | cons size sizes ih =>
    by_cases hstart : start = k
    · subst hstart
      rcases Nat.eq_zero_or_pos size with rfl | hpos
      · obtain ⟨n, last, hlast, heq⟩ := ih start
        refine ⟨n + 1, last, hlast, ?_⟩
        rw [spans, Nat.add_zero, withKey_cons_self Prod.fst (start, start), heq,
          List.replicate_succ, List.cons_append]
      · refine ⟨0, some (start + size), by simpa using hpos, ?_⟩
        have hlater : withKey Prod.fst start (spans (start + size) sizes) = [] := by
          refine List.filter_eq_nil_iff.mpr fun span hspan => ?_
          have := spans_start_le span hspan
          simp only [decide_eq_true_eq]
          omega
        rw [spans, withKey_cons_self Prod.fst (start, start + size), hlater]
        rfl
    · rw [spans, withKey_cons_of_ne Prod.fst hstart]
      exact ih _

/-- The places of the spans with one start. -/
theorem withKey_spans_getElem? (k start : ℕ) (sizes : List ℕ) :
    ∃ last : Option ℕ, (∀ stop ∈ last, k < stop) ∧ ∀ i stop : ℕ,
      (withKey Prod.fst k (spans start sizes))[i]? = some (k, stop) ↔
        i < (spans start sizes).count (k, k) ∧ stop = k ∨
          i = (spans start sizes).count (k, k) ∧ stop ∈ last := by
  obtain ⟨n, last, hlast, heq⟩ := withKey_spans k start sizes
  have hcount : (spans start sizes).count (k, k) = n := by
    rw [← count_withKey Prod.fst (k, k), heq, List.count_append, List.count_replicate_self]
    cases last with
    | none => rfl
    | some stop =>
      have := hlast stop rfl
      simp [show stop ≠ k by omega]
  refine ⟨last, hlast, fun i stop => ?_⟩
  rw [heq, hcount, List.getElem?_append, List.length_replicate]
  split_ifs with hi
  · simp [hi, hi.ne, eq_comm]
  · cases last with
    | none => simp [hi]
    | some stop' =>
      simp [hi, List.getElem?_singleton]
      omega

/-- Before every span with characters that both lists have, both have equally many spans
without characters. -/
def SameEmptySpans (system gold : List (ℕ × ℕ)) : Prop :=
  ∀ span ∈ system, span ∈ gold → span.1 < span.2 →
    system.count (span.1, span.1) = gold.count (span.1, span.1)

/-- Spans have the same places exactly if their empty spans have. -/
theorem samePlaces_spans_iff (start start' : ℕ) (sizes sizes' : List ℕ) :
    SamePlaces Prod.fst (spans start sizes) (spans start' sizes') ↔
      SameEmptySpans (spans start sizes) (spans start' sizes') := by
  have hmem : ∀ {items : List (ℕ × ℕ)} {k stop : ℕ}, (k, stop) ∈ items ↔
      ∃ i : ℕ, (withKey Prod.fst k items)[i]? = some (k, stop) := by
    intro items k stop
    rw [← List.mem_iff_getElem?, withKey, List.mem_filter]
    simp
  constructor
  · rintro hplaces ⟨k, stop⟩ hspan hspan' hlt
    obtain ⟨last, -, hat⟩ := withKey_spans_getElem? k start sizes
    obtain ⟨last', -, hat'⟩ := withKey_spans_getElem? k start' sizes'
    obtain ⟨i, hi⟩ := hmem.mp hspan
    obtain ⟨i', hi'⟩ := hmem.mp hspan'
    have hplace := (hat i stop).mp hi
    have hplace' := (hat' i' stop).mp hi'
    dsimp only at hlt ⊢
    rcases hplaces (k, stop) with hsame | hsame
    · have := (hat' i stop).mp (hsame i hi)
      omega
    · have := (hat i' stop).mp (hsame i' hi')
      omega
  · rintro hcounts ⟨k, stop⟩
    obtain ⟨last, hlast, hat⟩ := withKey_spans_getElem? k start sizes
    obtain ⟨last', hlast', hat'⟩ := withKey_spans_getElem? k start' sizes'
    simp only [hat, hat']
    by_cases hempty : stop = k
    · -- the places of the empty spans are the first ones
      subst hempty
      have hnone : ¬ stop ∈ last := fun hmem => lt_irrefl _ (hlast _ hmem)
      have hnone' : ¬ stop ∈ last' := fun hmem => lt_irrefl _ (hlast' _ hmem)
      rcases le_total ((spans start sizes).count (stop, stop))
          ((spans start' sizes').count (stop, stop)) with hle | hle
      · exact .inl fun i hi => by grind
      · exact .inr fun i hi => by grind
    · by_cases hboth : stop ∈ last ∧ stop ∈ last'
      · have hcount := hcounts (k, stop) (hmem.mpr ⟨_, (hat _ stop).mpr (.inr ⟨rfl, hboth.1⟩)⟩)
          (hmem.mpr ⟨_, (hat' _ stop).mpr (.inr ⟨rfl, hboth.2⟩)⟩) (hlast stop hboth.1)
        exact .inl fun i hi => by grind
      · by_cases hfirst : stop ∈ last
        · exact .inr fun i hi => by grind
        · exact .inl fun i hi => by grind

namespace EvaluationData

variable {tables : Unicode}

/-- A multiword token is counted with the forms of its words. -/
theorem multiwords_addMultiword (data : EvaluationData) (form : Bytes) (covered : List Word) :
    (data.addMultiword tables form covered).multiwords = data.multiwords ++
      [(data.chars.length, form ++ covered.flatMap fun w =>
        space :: mapToZero tables.lowercase w.form)] := by
  rw [addMultiword_eq]

/-- Multiword tokens are as far apart as the smallest of them is long. -/
theorem apart_multiwords {k : ℕ} {sentences : List Sentence}
    (h : ∀ s ∈ sentences, ∀ token ∈ s.multiwordTokens, k ≤ (formChars token.form).length) :
    Apart k (ofSentences tables sentences).multiwords := by
  have hinvariant : Apart k (ofSentences tables sentences).multiwords ∧
      ∀ item ∈ (ofSentences tables sentences).multiwords,
        item.1 + k ≤ (ofSentences tables sentences).chars.length := by
    refine @ofSentences_induction tables (fun data => Apart k data.multiwords ∧
        ∀ item ∈ data.multiwords, item.1 + k ≤ data.chars.length) sentences ⟨.nil, by simp⟩
      (fun _ _ hdata => hdata) (fun data w hdata => ⟨hdata.1, fun item hitem => ?_⟩)
      fun data s hs token htoken covered hdata => ?_
    · have := hdata.2 item hitem
      rw [chars_addWord, List.length_append]
      omega
    · have hform := h s hs token htoken
      rw [multiwords_addMultiword, chars_addMultiword, List.length_append]
      refine ⟨List.pairwise_append.mpr ⟨hdata.1, List.pairwise_singleton _ _, ?_⟩, ?_⟩
      · simpa using fun start value hitem => hdata.2 (start, value) hitem
      · rw [List.forall_mem_append, List.forall_mem_singleton]
        refine ⟨fun item hitem => ?_, ?_⟩
        · have := hdata.2 item hitem
          omega
        · dsimp only
          omega
  exact hinvariant.1

/-- The tokens of a sentence add no sentence. -/
theorem sentences_addTokens (words : List Word) (i : ℕ) (covered : ℤ)
    (tokens : List MultiwordToken) (data : EvaluationData) :
    (addTokens tables words i covered tokens data).sentences = data.sentences :=
  @addTokens_induction tables (fun data' => data'.sentences = data.sentences) tokens
    (fun _ _ hdata => hdata)
    (fun data' token _ covered hdata => by
      rw [addMultiword_eq]
      exact hdata)
    words i covered data rfl

/-- The spans of the sentences. -/
theorem sentences_foldl_addSentence (sentences : List Sentence) (data : EvaluationData) :
    (sentences.foldl (addSentence tables) data).sentences = data.sentences ++
      spans data.chars.length (sentences.map fun s => (tokenSizes s.surface).sum) := by
  induction sentences generalizing data with
  | nil => simp [spans]
  | cons s sentences ih =>
    have hchars : (data.addSentence tables s).chars =
        data.chars ++ s.surface.flatMap fun t => formChars t.token.form := chars_addTokens ..
    have hsentences : (data.addSentence tables s).sentences = data.sentences ++
        [(data.chars.length, (data.addSentence tables s).chars.length)] :=
      congrArg (· ++ [_]) (sentences_addTokens ..)
    rw [List.foldl_cons, ih, hsentences, hchars, List.length_append, ← sum_tokenSizes,
      List.map_cons, spans, List.append_assoc, List.singleton_append]

/-- The sentences have the spans of their tokens. -/
theorem sentences_ofSentences (sentences : List Sentence) :
    (ofSentences tables sentences).sentences =
      spans 0 (sentences.map fun s => (tokenSizes s.surface).sum) :=
  (sentences_foldl_addSentence sentences {}).trans (List.nil_append _)

end EvaluationData

/-! ### The lists of evaluation data -/

/-- The tokens, the multiword tokens and the sentences are counted right. -/
structure CountsIntersections (system gold : EvaluationData) : Prop where
  tokens : CountsIntersection system.tokens gold.tokens
  multiwords : CountsIntersection system.multiwords gold.multiwords
  sentences : CountsIntersection system.sentences gold.sentences

/-- Spans are counted right if and only if they stand after equally many empty spans. -/
theorem countsIntersection_spans_iff (sizes sizes' : List ℕ) :
    CountsIntersection (spans 0 sizes) (spans 0 sizes') ↔
      SameEmptySpans (spans 0 sizes) (spans 0 sizes') := by
  have hsorted : ∀ sizes, Sorted Prod.fst (spans 0 sizes) :=
    fun sizes => (apart_spans fun _ _ => Nat.zero_le _).sorted
  rw [countsIntersection_iff (hsorted sizes) (hsorted sizes'), samePlaces_spans_iff]

/-- The lists of two data are counted right if and only if their items with one start have
the same places. -/
theorem countsIntersections_iff (tables : Unicode) (systemSentences goldSentences : List Sentence) :
    let system := EvaluationData.ofSentences tables systemSentences
    let gold := EvaluationData.ofSentences tables goldSentences
    CountsIntersections system gold ↔
      SameEmptySpans system.tokens gold.tokens ∧
      SamePlaces Prod.fst system.multiwords gold.multiwords ∧
      SameEmptySpans system.sentences gold.sentences := by
  intro system gold
  have htokens : CountsIntersection system.tokens gold.tokens ↔
      SameEmptySpans system.tokens gold.tokens := by
    rw [EvaluationData.tokens_ofSentences, EvaluationData.tokens_ofSentences]
    exact countsIntersection_spans_iff _ _
  have hsentences : CountsIntersection system.sentences gold.sentences ↔
      SameEmptySpans system.sentences gold.sentences := by
    rw [EvaluationData.sentences_ofSentences, EvaluationData.sentences_ofSentences]
    exact countsIntersection_spans_iff _ _
  have hmultiwords : CountsIntersection system.multiwords gold.multiwords ↔
      SamePlaces Prod.fst system.multiwords gold.multiwords :=
    countsIntersection_iff
      (EvaluationData.apart_multiwords fun _ _ _ _ => Nat.zero_le _).sorted
      (EvaluationData.apart_multiwords fun _ _ _ _ => Nat.zero_le _).sorted
  rw [← htokens, ← hmultiwords, ← hsentences]
  exact ⟨fun h => ⟨h.tokens, h.multiwords, h.sentences⟩, fun h => ⟨h.1, h.2.1, h.2.2⟩⟩

/-- Items with different starts are counted right. -/
theorem countsIntersection_of_apart {T : Type*} [DecidableEq T] {system gold : List (ℕ × T)}
    (hsystem : Apart 1 system) (hgold : Apart 1 gold) : CountsIntersection system gold :=
  (countsIntersection_iff (hsystem.strict.imp le_of_lt) (hgold.strict.imp le_of_lt)).mpr
    (samePlaces_of_strict Prod.fst hsystem.strict hgold.strict)

/-- The first word of a sentence is a surface token or begins one. -/
theorem surface_ne_nil {version : ℕ} {s : Sentence} (h : Conllu.WellFormed version s) :
    s.surface ≠ [] := by
  have hlength := h.nonempty
  have hwords : s.words.drop 1 ≠ [] := by
    rw [ne_eq, List.drop_eq_nil_iff]
    omega
  obtain ⟨word, words, hcons⟩ := List.exists_cons_of_ne_nil hwords
  rw [Sentence.surface, hcons]
  cases s.multiwordTokens with
  | nil => simp [surfaceFrom]
  | cons token rest =>
    simp only [surfaceFrom]
    split_ifs <;> simp_all

/-- Where every word and every multiword token has a character other than a space, everything
is counted right. -/
theorem countsIntersections_of_visible (tables : Unicode) {system gold : List Sentence}
    (hread : ∀ s ∈ system ++ gold, ReadByConllu s)
    (hwords : ∀ s ∈ system ++ gold, ∀ word ∈ s.words.drop 1, formChars word.form ≠ [])
    (htokens : ∀ s ∈ system ++ gold, ∀ token ∈ s.multiwordTokens, formChars token.form ≠ []) :
    CountsIntersections (.ofSentences tables system) (.ofSentences tables gold) := by
  have hsurface : ∀ s ∈ system ++ gold, ∀ t ∈ s.surface, 0 < (formChars t.token.form).length := by
    intro s hs t ht
    rcases mem_surfaceFrom ht with ⟨word, hword, heq⟩ | ⟨token, htoken, heq⟩
    · rw [heq]
      exact List.length_pos_iff.mpr (hwords s hs word hword)
    · rw [heq]
      exact List.length_pos_iff.mpr (htokens s hs token htoken)
  have hapart : ∀ sentences : List Sentence, (∀ s ∈ sentences, s ∈ system ++ gold) →
      Apart 1 (EvaluationData.ofSentences tables sentences).tokens ∧
      Apart 1 (EvaluationData.ofSentences tables sentences).multiwords ∧
      Apart 1 (EvaluationData.ofSentences tables sentences).sentences := by
    intro sentences hmem
    refine ⟨?_, EvaluationData.apart_multiwords fun s hs token htoken =>
      List.length_pos_iff.mpr (htokens s (hmem s hs) token htoken), ?_⟩
    · rw [EvaluationData.tokens_ofSentences]
      refine apart_spans fun size hsize => ?_
      obtain ⟨s, hs, hsize⟩ := List.mem_flatMap.mp hsize
      obtain ⟨t, ht, rfl⟩ := List.mem_map.mp hsize
      exact hsurface s (hmem s hs) t ht
    · rw [EvaluationData.sentences_ofSentences]
      refine apart_spans fun size hsize => ?_
      obtain ⟨s, hs, rfl⟩ := List.mem_map.mp hsize
      obtain ⟨version, text, r, hcall, hreturned, rfl⟩ := hread s (hmem s hs)
      obtain ⟨t, surface, hcons⟩ := List.exists_cons_of_ne_nil
        (surface_ne_nil (Conllu.wellFormed_of_returns version hcall hreturned))
      have hfirst := hsurface _ (hmem _ hs) t (hcons ▸ List.mem_cons_self)
      rw [hcons, tokenSizes, List.map_cons, List.sum_cons]
      omega
  obtain ⟨htokens, hmultiwords, hsentences⟩ := hapart system fun s => List.mem_append_left _
  obtain ⟨htokens', hmultiwords', hsentences'⟩ := hapart gold fun s => List.mem_append_right _
  exact ⟨countsIntersection_of_apart htokens htokens',
    countsIntersection_of_apart hmultiwords hmultiwords',
    countsIntersection_of_apart hsentences hsentences'⟩

/-- A sentence with a multiword token that is a space, against one without it: the token that both
have is not counted. -/
theorem not_countsIntersections_spaceToken : ∃ system gold,
    (Conllu.nextSentence 2 (bytes ("1-2\t \t_\t_\t_\t_\t_\t_\t_\t_\n" ++
      "1\ta\ta\t_\t_\t_\t0\t_\t_\t_\n2\tb\tb\t_\t_\t_\t1\t_\t_\t_\n" ++
      "3\tc\tc\t_\t_\t_\t1\t_\t_\t_\n"))).Returns system ∧
    (Conllu.nextSentence 2 (bytes "1\tc\tc\t_\t_\t_\t0\t_\t_\t_\n")).Returns gold ∧
    system.returned = true ∧ gold.returned = true ∧
    (EvaluationData.ofSentences lowercaseTables [system.sentence]).chars =
      (EvaluationData.ofSentences lowercaseTables [gold.sentence]).chars ∧
    (EvaluationData.ofSentences lowercaseTables [system.sentence]).tokens = [(0, 0), (0, 1)] ∧
    (EvaluationData.ofSentences lowercaseTables [gold.sentence]).tokens = [(0, 1)] ∧
    ¬ CountsIntersections (.ofSentences lowercaseTables [system.sentence])
      (.ofSentences lowercaseTables [gold.sentence]) := by
  obtain ⟨system, gold, hsystem, hgold, hcheck⟩ : ∃ system gold, (Conllu.nextSentence 2
      (bytes ("1-2\t \t_\t_\t_\t_\t_\t_\t_\t_\n" ++
        "1\ta\ta\t_\t_\t_\t0\t_\t_\t_\n2\tb\tb\t_\t_\t_\t1\t_\t_\t_\n" ++
        "3\tc\tc\t_\t_\t_\t1\t_\t_\t_\n"))).Returns system ∧
      (Conllu.nextSentence 2 (bytes "1\tc\tc\t_\t_\t_\t0\t_\t_\t_\n")).Returns gold ∧
      (let data := EvaluationData.ofSentences lowercaseTables [system.sentence]
       let data' := EvaluationData.ofSentences lowercaseTables [gold.sentence]
       system.returned && gold.returned && decide (data.chars = data'.chars) &&
         decide (data.tokens = [(0, 0), (0, 1)]) && decide (data'.tokens = [(0, 1)])) = true :=
    Comp.exists_returns_of_runs 9 (by decide +kernel)
  simp only [Bool.and_eq_true, decide_eq_true_eq] at hcheck
  obtain ⟨⟨⟨⟨hreturned, hreturned'⟩, hchars⟩, htokens⟩, htokens'⟩ := hcheck
  refine ⟨system, gold, hsystem, hgold, hreturned, hreturned', hchars, htokens, htokens',
    fun hcounts => ?_⟩
  have hcount := hcounts.tokens
  rw [htokens, htokens', CountsIntersection, evaluateF1] at hcount
  have hboth : countBoth [(0, 0), (0, 1)] [(0, 1)] 0 = 0 := by
    simp [countBoth]
  rw [hboth] at hcount
  exact absurd hcount (by decide)

end UDPipe.Evaluator
