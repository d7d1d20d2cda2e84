import UDPipe.Conllu.WellFormed
import UDPipe.Evaluator.AlignmentRuns
import UDPipe.Evaluator.Legible

/-!
# Absolute heads

The words of evaluation data have absolute ids, and their heads are moved by the number of
the words before their sentence. So is the head of a word whose head is not specified: it
stays negative in the first sentence only.
-/

namespace UDPipe.Evaluator

/-! ### The words of sentences -/

/-- Words with absolute ids and heads, the first of them with the given id. -/
def absoluteWords (tables : Unicode) (first : ℕ) : List Word → List Word
  | [] => []
  | w :: words => (WordData.make tables 0 0 first false w).w ::
      absoluteWords tables (first + 1) words

/-- More words are numbered behind the others. -/
theorem absoluteWords_append (tables : Unicode) (first : ℕ) (words more : List Word) :
    absoluteWords tables first (words ++ more) =
      absoluteWords tables first words ++ absoluteWords tables (first + words.length) more := by
  induction words generalizing first with
  | nil => rfl
  | cons w words ih =>
    rw [List.cons_append, absoluteWords, ih, absoluteWords, List.cons_append, List.length_cons,
      Nat.add_assoc, Nat.add_comm 1]

/-- Every word has its data. -/
@[simp] theorem length_absoluteWords (tables : Unicode) (first : ℕ) (words : List Word) :
    (absoluteWords tables first words).length = words.length := by
  induction words generalizing first with
  | nil => rfl
  | cons w words ih => rw [absoluteWords, List.length_cons, ih, List.length_cons]

/-- The data of a word has its number. -/
theorem absoluteWords_getElem? (tables : Unicode) (first : ℕ) (words : List Word) (i : ℕ) :
    (absoluteWords tables first words)[i]? =
      words[i]?.map fun w => (WordData.make tables 0 0 ((first + i : ℕ) : ℤ) false w).w := by
  induction words generalizing first i with
  | nil => rfl
  | cons w words ih =>
    rcases i with _ | i
    · rfl
    · rw [absoluteWords, List.getElem?_cons_succ, ih, List.getElem?_cons_succ, Nat.add_assoc,
        Nat.add_comm 1]

namespace EvaluationData

variable {tables : Unicode}

/-- The words without their spans. -/
def plainWords (data : EvaluationData) : List Word := data.words.map WordData.w

/-- The words without their places are as many. -/
@[simp] theorem length_plainWords (data : EvaluationData) :
    data.plainWords.length = data.words.length := List.length_map ..

/-- A word is pushed with its head moved. -/
theorem plainWords_pushWord (start : ℕ) (isMultiword : Bool) (data : EvaluationData) (w : Word) :
    (data.pushWord tables start isMultiword w).plainWords =
      data.plainWords ++ absoluteWords tables (data.words.length + 1) [w] := by
  rw [plainWords, EvaluationData.pushWord, List.map_append]
  rfl

/-- A word outside multiword tokens is pushed with its head moved. -/
theorem plainWords_addWord (data : EvaluationData) (w : Word) :
    (data.addWord tables w).plainWords =
      data.plainWords ++ absoluteWords tables (data.words.length + 1) [w] :=
  plainWords_pushWord ..

/-- The words of a multiword token are pushed with their heads moved. -/
theorem plainWords_foldl_pushWord (start : ℕ) (covered : List Word) (data : EvaluationData) :
    (covered.foldl (pushWord tables start true) data).plainWords =
      data.plainWords ++ absoluteWords tables (data.words.length + 1) covered := by
  induction covered generalizing data with
  | nil => simp [absoluteWords]
  | cons w covered ih =>
    have hlength : (data.pushWord tables start true w).words.length = data.words.length + 1 := by
      simp [EvaluationData.pushWord]
    rw [List.foldl_cons, ih, plainWords_pushWord, hlength, List.append_assoc,
      ← List.singleton_append, absoluteWords_append]
    rfl

/-- A multiword token adds its words. -/
theorem plainWords_addMultiword (data : EvaluationData) (form : Bytes) (covered : List Word) :
    (data.addMultiword tables form covered).plainWords =
      data.plainWords ++ absoluteWords tables (data.words.length + 1) covered :=
  plainWords_foldl_pushWord ..

/-- Every word that is not covered yet is added once, in order. -/
theorem plainWords_addTokens (words : List Word) (i : ℕ) (covered : ℤ)
    (tokens : List MultiwordToken) (data : EvaluationData)
    (h : ∀ token ∈ tokens, token.idFirst ≤ token.idLast) :
    (addTokens tables words i covered tokens data).plainWords = data.plainWords ++
      absoluteWords tables (data.words.length + 1) (words.drop (covered + 1 - i).toNat) := by
  induction words generalizing i covered tokens data with
  | nil => cases tokens <;> simp [addTokens, absoluteWords]
  | cons word words ih =>
    have hskip : (i : ℤ) ≤ covered →
        (word :: words).drop (covered + 1 - i).toNat =
          words.drop (covered + 1 - (i + 1 : ℕ)).toNat := by
      intro hcovered
      have htail : (covered + 1 - i).toNat = (covered + 1 - (i + 1 : ℕ)).toNat + 1 := by
        omega
      rw [htail, List.drop_succ_cons]
    have hword : ¬ (i : ℤ) ≤ covered → ∀ tokens : List MultiwordToken,
        (∀ token ∈ tokens, token.idFirst ≤ token.idLast) →
        (addTokens tables words (i + 1) covered tokens (data.addWord tables word)).plainWords =
          data.plainWords ++ absoluteWords tables (data.words.length + 1)
            ((word :: words).drop (covered + 1 - i).toNat) := by
      intro hcovered tokens htokens
      have hnone : (covered + 1 - i).toNat = 0 ∧ (covered + 1 - (i + 1 : ℕ)).toNat = 0 := by
        omega
      have hlength : (data.addWord tables word).words.length = data.words.length + 1 := by
        simp [EvaluationData.addWord, EvaluationData.pushWord, EvaluationData.addForm]
      rw [ih _ _ _ _ htokens, plainWords_addWord, hlength, hnone.1, hnone.2, List.drop_zero,
        List.drop_zero, List.append_assoc]
      rfl
    cases tokens with
    | nil =>
      rw [addTokens]
      split
      · rename_i hcovered
        rw [ih _ _ _ _ h, hskip hcovered]
      · rename_i hcovered
        exact hword hcovered [] h
    | cons token rest =>
      rw [addTokens]
      split_ifs with hcovered hfirst
      · rw [ih _ _ _ _ h, hskip hcovered]
      · -- the multiword token adds the words it covers, the others are left
        obtain ⟨hrange, hrest⟩ := List.forall_mem_cons.mp h
        set count := (token.idLast + 1 - i).toNat with hcount
        have hnone : (covered + 1 - i).toNat = 0 := by
          omega
        have htail : count = (token.idLast + 1 - (i + 1 : ℕ)).toNat + 1 := by
          omega
        have hlength :
            (data.addMultiword tables token.form ((word :: words).take count)).words.length =
              data.words.length + ((word :: words).take count).length := by
          rw [← length_plainWords, plainWords_addMultiword, List.length_append, length_plainWords,
            length_absoluteWords]
        rw [ih _ _ _ _ hrest, plainWords_addMultiword, hlength, hnone, List.drop_zero,
          List.append_assoc, Nat.add_right_comm, ← absoluteWords_append]
        congr 2
        rw [htail, ← List.drop_succ_cons (a := word), List.take_append_drop]
      · exact hword hcovered (token :: rest) h

/-- The words of a sentence follow those that are there. -/
theorem plainWords_addSentence (data : EvaluationData) (s : Sentence)
    (h : ∀ token ∈ s.multiwordTokens, token.idFirst ≤ token.idLast) :
    (data.addSentence tables s).plainWords =
      data.plainWords ++ absoluteWords tables (data.words.length + 1) (s.words.drop 1) :=
  plainWords_addTokens (s.words.drop 1) 1 0 s.multiwordTokens data h

end EvaluationData

/-- The words of sentences, without the roots. -/
def wordsOf (sentences : List Sentence) : List Word := sentences.flatMap fun s => s.words.drop 1

namespace EvaluationData

variable {tables : Unicode}

/-- The words of sentences follow each other. -/
theorem plainWords_foldl_addSentence (sentences : List Sentence) (data : EvaluationData)
    (h : ∀ s ∈ sentences, ∀ token ∈ s.multiwordTokens, token.idFirst ≤ token.idLast) :
    (sentences.foldl (addSentence tables) data).plainWords =
      data.plainWords ++ absoluteWords tables (data.words.length + 1) (wordsOf sentences) := by
  induction sentences generalizing data with
  | nil => simp [wordsOf, absoluteWords]
  | cons s sentences ih =>
    obtain ⟨hs, hrest⟩ := List.forall_mem_cons.mp h
    have hwords : wordsOf (s :: sentences) = s.words.drop 1 ++ wordsOf sentences :=
      List.flatMap_cons
    have hlength : (data.addSentence tables s).words.length =
        data.words.length + (s.words.drop 1).length := by
      rw [← length_plainWords, plainWords_addSentence data s hs, List.length_append,
        length_plainWords, length_absoluteWords]
    rw [List.foldl_cons, ih _ hrest, plainWords_addSentence data s hs, hlength, hwords,
      absoluteWords_append, List.append_assoc, Nat.add_right_comm]

/-- The words of all sentences are there, with their heads moved by the words before the sentence.
-/
theorem plainWords_ofSentences (sentences : List Sentence)
    (h : ∀ s ∈ sentences, ∀ token ∈ s.multiwordTokens, token.idFirst ≤ token.idLast) :
    (ofSentences tables sentences).plainWords = absoluteWords tables 1 (wordsOf sentences) :=
  (plainWords_foldl_addSentence sentences {} h).trans (List.nil_append _)

end EvaluationData

/-! ### The head of a word -/

/-- The head that is stored for a word of a sentence after `count` other words. -/
def storedHead (count : ℕ) (head : ℤ) : ℤ := if head = 0 then 0 else count + head

/-- The words of a sentence after other sentences. -/
theorem words_ofSentences (tables : Unicode) {before after : List Sentence} {s : Sentence}
    (h : ∀ other ∈ before ++ s :: after, ∀ token ∈ other.multiwordTokens,
      token.idFirst ≤ token.idLast)
    (hids : ∀ (i : ℕ) (w : Word), s.words[i]? = some w → w.id = i) {i : ℕ} {w : Word}
    (hw : (s.words.drop 1)[i]? = some w) :
    ∃ word, (EvaluationData.ofSentences tables (before ++ s :: after)).words[
        (wordsOf before).length + i]? = some word ∧
      word.w.id = (wordsOf before).length + i + 1 ∧
      word.w.head = storedHead (wordsOf before).length w.head := by
  have hplace : (wordsOf (before ++ s :: after))[(wordsOf before).length + i]? = some w := by
    have hwords : wordsOf (before ++ s :: after) =
        wordsOf before ++ (s.words.drop 1 ++ wordsOf after) := by
      simp [wordsOf]
    have hlt : i < (s.words.drop 1).length := (List.getElem?_eq_some_iff.mp hw).1
    rw [hwords, List.getElem?_append_right (Nat.le_add_right _ _), Nat.add_sub_cancel_left,
      List.getElem?_append_left hlt, hw]
  have hplain := congrArg (·[(wordsOf before).length + i]?)
    (@EvaluationData.plainWords_ofSentences tables _ h)
  simp only [absoluteWords_getElem?, hplace, EvaluationData.plainWords, List.getElem?_map,
    Option.map_some, Option.map_eq_some_iff] at hplain
  obtain ⟨word, hword, heq⟩ := hplain
  have hid : w.id = i + 1 := by
    rw [List.getElem?_drop] at hw
    have := hids _ w hw
    push_cast at this
    omega
  refine ⟨word, hword, ?_, ?_⟩
  · rw [heq]
    simp only [WordData.make]
    push_cast
    omega
  · rw [heq]
    simp only [WordData.make, storedHead, hid]
    split_ifs <;> push_cast <;> omega

/-- What is stored of the head of a word `w` of a sentence with `count` words before it. -/
structure HeadKept (data : EvaluationData) (count : ℕ) (s : Sentence) (w : Word)
    (word : WordData) : Prop where
  root : word.w.head = 0 ↔ w.head = 0
  unspecified : word.w.head < 0 ↔ w.head < 0
  /-- Any other head is the absolute id of the head word in the same sentence. -/
  absolute : 0 < w.head → ∃ (h : ℕ) (headWord : WordData), w.head = h + 1 ∧
    h < (s.words.drop 1).length ∧ data.words[count + h]? = some headWord ∧
      word.w.head = headWord.w.id

/-- The heads of all words of the sentences are kept. -/
def HeadsKept (sentences : List Sentence) (data : EvaluationData) : Prop :=
  ∀ before s after, sentences = before ++ s :: after → ∀ (i : ℕ) (w : Word),
    (s.words.drop 1)[i]? = some w →
    ∃ word, data.words[(wordsOf before).length + i]? = some word ∧
      HeadKept data (wordsOf before).length s w word

/-- There are words in every well-formed sentence. -/
theorem wordsOf_eq_nil {sentences : List Sentence}
    (h : ∀ s ∈ sentences, ∃ version, Conllu.WellFormed version s) :
    (wordsOf sentences).length = 0 ↔ sentences = [] := by
  constructor
  · intro hnone
    cases sentences with
    | nil => rfl
    | cons s sentences =>
      obtain ⟨version, hs⟩ := h s List.mem_cons_self
      have := hs.nonempty
      simp only [wordsOf, List.flatMap_cons, List.length_append, List.length_drop] at hnone
      omega
  · rintro rfl
    rfl

/-- The head of a word is kept unless it is not specified and moved by other words. -/
theorem headKept_iff (tables : Unicode) {before after : List Sentence} {s : Sentence}
    (h : ∀ other ∈ before ++ s :: after, ∃ version, Conllu.WellFormed version other) {i : ℕ}
    {w : Word}
    (hw : (s.words.drop 1)[i]? = some w) :
    (∃ word, (EvaluationData.ofSentences tables (before ++ s :: after)).words[
        (wordsOf before).length + i]? = some word ∧
      HeadKept (EvaluationData.ofSentences tables (before ++ s :: after))
        (wordsOf before).length s w word) ↔ w.head = -1 → before = [] := by
  obtain ⟨version, hs⟩ := h s (by simp)
  have hranges : ∀ other ∈ before ++ s :: after, ∀ token ∈ other.multiwordTokens,
      token.idFirst ≤ token.idLast := by
    intro other hother token htoken
    obtain ⟨version, hother⟩ := h other hother
    exact (hother.ranges token htoken).2.1
  obtain ⟨word, hword, -, hhead⟩ := words_ofSentences tables hranges hs.ids hw
  have hnone := wordsOf_eq_nil fun other hother => h other (List.mem_append_left _ hother)
  constructor
  · rintro ⟨word', hword', hkept⟩ hunspecified
    obtain rfl := Option.some.inj (hword'.symm.trans hword)
    -- the stored head is the number of the other words, less one
    have hnegative := hkept.unspecified.mpr (by omega)
    rw [hhead, storedHead, if_neg (by omega), hunspecified] at hnegative
    exact hnone.mp (by omega)
  · intro hfirst
    have hrange := hs.heads w (List.mem_of_mem_drop (List.mem_of_getElem? hw))
    have hstored : w.head = -1 ∧ (wordsOf before).length = 0 ∨ 0 ≤ w.head := by
      rcases hrange with hunspecified | hrange
      · exact .inl ⟨hunspecified, hnone.mpr (hfirst hunspecified)⟩
      · exact .inr hrange.1
    refine ⟨word, hword, ?_, ?_, fun hpositive => ?_⟩
    · rw [hhead, storedHead]
      split_ifs <;> omega
    · rw [hhead, storedHead]
      split_ifs <;> omega
    · have hlt : (w.head - 1).toNat < (s.words.drop 1).length := by
        rw [List.length_drop]
        omega
      obtain ⟨headWord, hheadWord, hid, -⟩ :=
        words_ofSentences tables hranges hs.ids (List.getElem?_eq_getElem hlt)
      refine ⟨(w.head - 1).toNat, headWord, by omega, hlt, hheadWord, ?_⟩
      rw [hhead, storedHead, if_neg (by omega), hid]
      omega

/-- Heads are kept for sentences that the reader returns if and only if no word after the
first sentence has an unspecified head. -/
theorem headsKept_iff (tables : Unicode) (sentences : List Sentence)
    (h : ∀ s ∈ sentences, ReadByConllu s) :
    HeadsKept sentences (EvaluationData.ofSentences tables sentences) ↔
      ∀ s ∈ sentences.drop 1, ∀ w ∈ s.words.drop 1, w.head ≠ -1 := by
  have hwellFormed : ∀ s ∈ sentences, ∃ version, Conllu.WellFormed version s := by
    intro s hs
    obtain ⟨version, text, r, hcall, hreturned, rfl⟩ := h s hs
    exact ⟨version, Conllu.wellFormed_of_returns version hcall hreturned⟩
  constructor
  · intro hkept s hs w hw hunspecified
    obtain ⟨first, others, rfl⟩ : ∃ first others, sentences = first :: others := by
      cases sentences with
      | nil => cases hs
      | cons first others => exact ⟨first, others, rfl⟩
    obtain ⟨between, after, hsplit⟩ := List.append_of_mem hs
    rw [List.drop_one, List.tail_cons] at hsplit
    subst hsplit
    obtain ⟨i, hi⟩ := List.mem_iff_getElem?.mp hw
    have hfirst := (@headKept_iff tables (first :: between) after s hwellFormed i w hi).mp
      (hkept (first :: between) s after rfl i w hi) hunspecified
    cases hfirst
  · rintro hspecified before s after rfl i w hi
    refine (headKept_iff tables hwellFormed hi).mpr fun hunspecified => ?_
    by_contra hne
    obtain ⟨first, others, rfl⟩ := List.exists_cons_of_ne_nil hne
    exact hspecified s (by simp) w (List.mem_of_getElem? hi) hunspecified

/-- A sentence whose second word has an unspecified head, before one with a root. -/
theorem headsKept_iff_sample : ∃ first second, ReadByConllu first ∧ ReadByConllu second ∧
    (∃ w ∈ first.words, w.head = -1 ∧ w.id = 2) ∧
    HeadsKept [first, second] (EvaluationData.ofSentences lowercaseTables [first, second]) := by
  obtain ⟨first, second, hfirst, hsecond, hcheck⟩ : ∃ first second, (Conllu.nextSentence 2
      (bytes "1\ta\ta\t_\t_\t_\t0\t_\t_\t_\n2\tb\tb\t_\t_\t_\t_\t_\t_\t_\n")).Returns first ∧
      (Conllu.nextSentence 2 (bytes "1\tc\tc\t_\t_\t_\t0\t_\t_\t_\n")).Returns second ∧
      (first.returned && second.returned &&
        decide (∃ w ∈ first.sentence.words, w.head = -1 ∧ w.id = 2) &&
        decide (∀ w ∈ second.sentence.words.drop 1, w.head ≠ -1)) = true :=
    Comp.exists_returns_of_runs 9 (by decide +kernel)
  simp only [Bool.and_eq_true, decide_eq_true_eq] at hcheck
  obtain ⟨⟨⟨hreturned, hreturned'⟩, hunspecified⟩, hspecified⟩ := hcheck
  have hread : ReadByConllu first.sentence := ⟨2, _, first, hfirst, hreturned, rfl⟩
  have hread' : ReadByConllu second.sentence := ⟨2, _, second, hsecond, hreturned', rfl⟩
  refine ⟨first.sentence, second.sentence, hread, hread', hunspecified,
    (headsKept_iff lowercaseTables [first.sentence, second.sentence] ?_).mpr ?_⟩
  · simp [hread, hread']
  · simpa using hspecified

/-- A word without a head, read three times: in the second sentence it becomes a root, and in
the third one its head is the word of the first sentence. -/
theorem not_headsKept_unspecified : ∃ r,
    (Conllu.nextSentence 2 (bytes "1\tb\tb\t_\t_\t_\t_\t_\t_\t_\n")).Returns r ∧
    r.returned = true ∧ (r.sentence.words.drop 1).map (fun w => w.head) = [-1] ∧
    (EvaluationData.ofSentences lowercaseTables [r.sentence, r.sentence, r.sentence]).words.map
      (fun word => (word.w.id, word.w.head)) = [(1, -1), (2, 0), (3, 1)] ∧
    ¬ HeadsKept [r.sentence, r.sentence, r.sentence]
      (EvaluationData.ofSentences lowercaseTables [r.sentence, r.sentence, r.sentence]) := by
  obtain ⟨r, hr, hcheck⟩ : ∃ r,
      (Conllu.nextSentence 2 (bytes "1\tb\tb\t_\t_\t_\t_\t_\t_\t_\n")).Returns r ∧
      (r.returned && decide ((r.sentence.words.drop 1).map (fun w => w.head) = [-1]) &&
        decide ((EvaluationData.ofSentences lowercaseTables
          [r.sentence, r.sentence, r.sentence]).words.map
            (fun word => (word.w.id, word.w.head)) = [(1, -1), (2, 0), (3, 1)])) = true :=
    Comp.exists_returns_of_run 9 (by decide +kernel)
  simp only [Bool.and_eq_true, decide_eq_true_eq] at hcheck
  obtain ⟨⟨hreturned, hheads⟩, hstored⟩ := hcheck
  refine ⟨r, hr, hreturned, hheads, hstored, fun hkept => ?_⟩
  obtain ⟨w, hw, hhead⟩ : ∃ w, r.sentence.words.drop 1 = [w] ∧ w.head = -1 := by
    obtain ⟨w, hw, hhead⟩ := List.map_eq_singleton_iff.mp hheads
    exact ⟨w, hw, hhead⟩
  obtain ⟨word, hword, hroot⟩ := hkept [r.sentence] r.sentence [r.sentence] rfl 0 w
    (by rw [hw]; rfl)
  have hplace : (wordsOf [r.sentence]).length + 0 = 1 := by
    simp only [wordsOf, List.flatMap_singleton, hw, List.length_singleton]
  have hzero := congrArg (·[1]?) hstored
  rw [hplace] at hword
  simp only [List.getElem?_map, hword, Option.map_some] at hzero
  have hword0 : word.w.head = 0 := by
    simpa using congrArg (Option.map Prod.snd) hzero
  have := hroot.root.mp hword0
  omega

end UDPipe.Evaluator
