import UDPipe.Tokenizer.GoldRuns
import UDPipe.Tokenizer.TokenizerTrainer

/-!
# The outcomes of training are those that the tokenizer needs

The outcomes that the trainer gives to the characters of its data split the text into the tokens
and the sentences of the data: a network that answers them is evaluated without a mistake.
-/

namespace UDPipe.Tokenizer

open Utf8 Gru Evaluator

namespace TokenizedSentence

/-- The outcomes of a sentence can be followed: there are only spaces between its tokens, no line
ends before the last of them ends, and spaces inside them only if they are allowed. -/
structure Followable (opts : Gru.Options) (s : TokenizedSentence) : Prop where
  ordered : Ordered s.sentence.length s.tokens
  between : ∀ i, ∀ code ∈ s.sentence[i]?,
    (∀ r ∈ s.tokens, ¬ (r.start ≤ i ∧ i < r.start + r.length)) → opts.tables.isSpace code = true
  ends : ∀ r ∈ s.tokens, ∀ i, i = r.start ∨ i = r.start + r.length - 1 →
    ∀ code ∈ s.sentence[i]?, opts.tables.isSpace code = false
  lines : ∀ r ∈ s.tokens, ∀ i < r.start + r.length, s.sentence[i]? ≠ some 10
  spaces : opts.allowSpaces = true ∨ ∀ r ∈ s.tokens, ∀ i, r.start ≤ i → i < r.start + r.length →
    ∀ code ∈ s.sentence[i]?, opts.tables.isSpace code = false
  few : s.tokens.length ≤ 400

/-! ### The outcomes of a sentence -/

/-- Setting outcomes keeps their number. -/
@[simp] theorem length_setOutcomes (tokens : List TokenRange) (outcomes : List Outcome) :
    (setOutcomes tokens outcomes).length = outcomes.length := by
  induction tokens generalizing outcomes with
  | nil => rfl
  | cons r rest ih => rw [setOutcomes, ih, List.length_set]

/-- Every character has an outcome. -/
@[simp] theorem length_outcomes (s : TokenizedSentence) : s.outcomes.length = s.sentence.length := by
  rw [outcomes, length_setOutcomes, List.length_replicate]

/-- Characters that do not end a token keep their outcomes. -/
theorem getElem?_setOutcomes_of_ne {tokens : List TokenRange} {i : ℕ}
    (h : ∀ r ∈ tokens, r.start + r.length - 1 ≠ i) (outcomes : List Outcome) :
    (setOutcomes tokens outcomes)[i]? = outcomes[i]? := by
  induction tokens generalizing outcomes with
  | nil => rfl
  | cons r rest ih =>
    obtain ⟨hr, hrest⟩ := List.forall_mem_cons.mp h
    rw [setOutcomes, ih hrest, List.getElem?_set_ne hr]

/-- The last character of a token has the outcome of the token. -/
theorem getElem?_setOutcomes_end {count : ℕ} {before after : List TokenRange} {r : TokenRange}
    (h : Ordered count (before ++ r :: after)) {outcomes : List Outcome}
    (hlength : outcomes.length = count) :
    (setOutcomes (before ++ r :: after) outcomes)[r.start + r.length - 1]? =
      some (if after = [] then .endOfSentence else .endOfToken) := by
  induction before generalizing outcomes with
  | nil =>
    have hr := h.within r (by simp)
    rw [List.nil_append, setOutcomes, getElem?_setOutcomes_of_ne,
      List.getElem?_set_self (by omega)]
    intro r' hr'
    have hdisjoint := List.rel_of_pairwise_cons h.disjoint hr'
    have := h.within r' (by simp [hr'])
    omega
  | cons r' before ih =>
    rw [List.cons_append, setOutcomes]
    exact ih (h.sublist (List.sublist_cons_self _ _)) (by rw [List.length_set, hlength])

variable {opts : Gru.Options} {s : TokenizedSentence}

/-- Other characters have no split. -/
theorem getElem?_outcomes_of_ne {i : ℕ} (hi : i < s.sentence.length)
    (h : ∀ r ∈ s.tokens, r.start + r.length - 1 ≠ i) : s.outcomes[i]? = some .noSplit := by
  rw [outcomes, getElem?_setOutcomes_of_ne h, List.getElem?_replicate, if_pos hi]

/-- The last character of a token ends it, or the sentence. -/
theorem Followable.getElem?_end (h : s.Followable opts) {before after : List TokenRange}
    {r : TokenRange} (htokens : s.tokens = before ++ r :: after) :
    s.outcomes[r.start + r.length - 1]? =
      some (if after = [] then .endOfSentence else .endOfToken) := by
  have hordered := h.ordered
  rw [htokens] at hordered
  rw [outcomes, htokens]
  exact getElem?_setOutcomes_end hordered List.length_replicate

/-- A character that is no space is in a token. -/
theorem Followable.exists_token (h : s.Followable opts) {i code : ℕ}
    (hcode : s.sentence[i]? = some code) (hspace : opts.tables.isSpace code = false) :
    ∃ r ∈ s.tokens, r.start ≤ i ∧ i < r.start + r.length := by
  by_contra hnone
  push Not at hnone
  have := h.between i code hcode fun r hr hin => absurd hin.2 (not_lt.mpr (hnone r hr hin.1))
  rw [hspace] at this
  cases this

/-- The outcome of a space is no split. -/
theorem Followable.space (h : s.Followable opts) {i code : ℕ} (hcode : s.sentence[i]? = some code)
    (hspace : opts.tables.isSpace code = true) : s.outcomes[i]? = some .noSplit := by
  refine getElem?_outcomes_of_ne (List.getElem?_eq_some_iff.mp hcode).1 fun r hr hend => ?_
  rw [h.ends r hr i (.inr hend.symm) code hcode] at hspace
  cases hspace

/-- A character without the end of a sentence is followed by another one that is no space, with no
line end before it. If it has no split then spaces behind it are allowed. -/
theorem Followable.exists_stop (h : s.Followable opts) {i code : ℕ}
    (hcode : s.sentence[i]? = some code) (hspace : opts.tables.isSpace code = false)
    (houtcome : s.outcomes[i]? ≠ some .endOfSentence) :
    ∃ stop, i < stop ∧ (∃ last ∈ s.sentence[stop]?, opts.tables.isSpace last = false) ∧
      (∀ j < stop, s.sentence[j]? ≠ some 10) ∧
      (s.outcomes[i]? = some .noSplit → ∀ next ∈ s.sentence[i + 1]?,
        opts.tables.isSpace next = true → opts.allowSpaces = true) := by
  have hcodeAt : ∀ j < s.sentence.length, ∃ code, s.sentence[j]? = some code :=
    fun j hj => ⟨_, List.getElem?_eq_getElem hj⟩
  obtain ⟨r, hr, hfirst, hlast⟩ := h.exists_token hcode hspace
  have hrWithin := h.ordered.within r hr
  rcases Nat.lt_or_ge (i + 1) (r.start + r.length) with hinside | hend
  · refine ⟨r.start + r.length - 1, by omega, ?_, fun j hj => h.lines r hr j (by omega),
      fun _ next hnext hnextSpace => ?_⟩
    · obtain ⟨last, hget⟩ := hcodeAt (r.start + r.length - 1) (by omega)
      exact ⟨last, hget, h.ends r hr _ (.inr rfl) last hget⟩
    · rcases h.spaces with hallow | hnone
      · exact hallow
      · rw [hnone r hr (i + 1) (by omega) hinside next hnext] at hnextSpace
        cases hnextSpace
  · obtain ⟨before, after, htokens⟩ := List.append_of_mem hr
    have hget := h.getElem?_end htokens
    have hi : r.start + r.length - 1 = i := by omega
    rw [hi] at hget
    rw [hget] at houtcome ⊢
    cases after with
    | nil => exact absurd rfl houtcome
    | cons r' after =>
      have hr' : r' ∈ s.tokens := by simp [htokens]
      have hordered := h.ordered
      rw [htokens] at hordered
      have hdisjoint := (List.pairwise_append.mp hordered.disjoint).2.1
      have hnext := List.rel_of_pairwise_cons hdisjoint (List.mem_cons_self (a := r'))
      have hrWithin' := h.ordered.within r' hr'
      refine ⟨r'.start, by omega, ?_, fun j hj => h.lines r' hr' j (by omega), fun hno => ?_⟩
      · obtain ⟨first, hgetFirst⟩ := hcodeAt r'.start (by omega)
        exact ⟨first, hgetFirst, h.ends r' hr' _ (.inl rfl) first hgetFirst⟩
      · rw [if_neg (List.cons_ne_nil _ _)] at hno
        cases hno

/-! ### The outcomes of the text -/

section Text

variable {data : List TokenizedSentence} {cs : List Character}

/-- A place inside the piece of an element. -/
theorem getElem?_flatMap_append {α β : Type} (f : α → List β) (before after : List α) (a : α) {j : ℕ}
    (hj : j < (f a).length) :
    ((before ++ a :: after).flatMap f)[(before.flatMap f).length + j]? = (f a)[j]? := by
  rw [List.flatMap_append, List.flatMap_cons, List.getElem?_append_right (Nat.le_add_right _ _),
    Nat.add_sub_cancel_left, List.getElem?_append_left hj]

/-- Every character of the text has an outcome. -/
theorem length_flatMap_outcomes (data : List TokenizedSentence) :
    (data.flatMap outcomes).length = (data.flatMap sentence).length := by
  simp [List.length_flatMap]

/-- Every character is one of a sentence. -/
theorem exists_sentence {i : ℕ} (h : i < (data.flatMap sentence).length) :
    ∃ before s after j, data = before ++ s :: after ∧ j < s.sentence.length ∧
      i = (before.flatMap sentence).length + j := by
  induction data generalizing i with
  | nil => exact absurd h (Nat.not_lt_zero i)
  | cons s data ih =>
    rcases Nat.lt_or_ge i s.sentence.length with hlt | hge
    · exact ⟨[], s, data, i, rfl, hlt, by simp⟩
    · rw [List.flatMap_cons, List.length_append] at h
      obtain ⟨before, s', after, j, rfl, hj, hi⟩ := @ih (i - s.sentence.length) (by omega)
      refine ⟨s :: before, s', after, j, rfl, hj, ?_⟩
      rw [List.flatMap_cons, List.length_append]
      omega

/-- The spaces are those of the trained text. -/
theorem isSpace_eq (hcs : cs.map (·.code) = data.flatMap sentence) (i : ℕ) :
    opts.isSpace cs i = (data.flatMap sentence)[i]?.any opts.tables.isSpace := by
  rw [Options.isSpace, ← hcs, List.getElem?_map, Option.any_map]

/-- Without a line end there is no blank line. -/
theorem hasBlankLine_eq_false {start stop : ℕ}
    (h : ∀ k, start ≤ k → k < stop → cs[k]?.map (·.code) ≠ some 10) :
    Options.hasBlankLine cs start stop = false := by
  rw [Options.hasBlankLine, List.any_eq_false]
  intro j hj
  rw [List.mem_range'_1] at hj
  have hnone : ∀ k, start ≤ k → k < stop → (cs[k]?.map (·.code) == some 10) = false := by
    intro k hk hlt
    rw [beq_eq_false_iff_ne]
    exact h k hk hlt
  simp [hnone j (by omega) (by omega), hnone (j + 1) (by omega) (by omega)]

/-- Spaces do not change the outcomes of the text. -/
theorem goldOutcomes (hfollow : ∀ s ∈ data, s.Followable opts)
    (hcs : cs.map (·.code) = data.flatMap sentence) :
    opts.GoldOutcomes cs fun i => (data.flatMap outcomes).getD i .noSplit := by
  have hlength : cs.length = (data.flatMap sentence).length := by rw [← hcs, List.length_map]
  have hin : ∀ {i}, opts.isSpace cs i = true → i < cs.length := by
    intro i hi
    by_contra hge
    rw [Options.isSpace, List.getElem?_eq_none (by omega)] at hi
    cases hi
  constructor
  · intro i hi
    obtain ⟨before, s, after, j, rfl, hj, rfl⟩ := exists_sentence (hlength ▸ hin hi)
    rw [isSpace_eq hcs, getElem?_flatMap_append _ _ _ _ hj] at hi
    obtain ⟨code, hcode, hspace⟩ := (Option.any_eq_true _ _).mp hi
    rw [List.getD, ← length_flatMap_outcomes before,
      getElem?_flatMap_append _ _ _ _ (by rwa [length_outcomes]),
      (hfollow s (by simp)).space hcode hspace, Option.getD_some]
  · intro i hi hnext hne
    have hlt := hin hnext
    obtain ⟨before, s, after, j, rfl, hj, rfl⟩ :=
      exists_sentence (show i < (data.flatMap sentence).length by omega)
    have hsplit : ∀ k < s.sentence.length,
        ((before ++ s :: after).flatMap sentence)[(before.flatMap sentence).length + k]? =
          s.sentence[k]? := fun k hk => getElem?_flatMap_append _ _ _ _ hk
    have hgold : ((before ++ s :: after).flatMap outcomes).getD
        ((before.flatMap sentence).length + j) .noSplit = s.outcomes[j]?.getD .noSplit := by
      rw [List.getD, ← length_flatMap_outcomes before,
        getElem?_flatMap_append _ _ _ _ (by rwa [length_outcomes])]
    rw [hgold] at hne ⊢
    rw [isSpace_eq hcs, hsplit j hj] at hi
    obtain ⟨code, hcode⟩ : ∃ code, s.sentence[j]? = some code := ⟨_, List.getElem?_eq_getElem hj⟩
    rw [hcode, Option.any_some] at hi
    obtain ⟨stop, hstopLt, ⟨last, hlast, hlastSpace⟩, hlines, hallow⟩ :=
      (hfollow s (by simp)).exists_stop hcode hi fun heq => hne (by rw [heq, Option.getD_some])
    have hstopIn : stop < s.sentence.length := (List.getElem?_eq_some_iff.mp hlast).1
    have hstopSpace : opts.isSpace cs ((before.flatMap sentence).length + stop) = false := by
      rw [isSpace_eq hcs, hsplit stop hstopIn, Option.mem_def.mp hlast, Option.any_some, hlastSpace]
    have hbefore : (before.flatMap sentence).length + j + 1 <
        (before.flatMap sentence).length + stop := by
      rcases Nat.lt_or_ge (j + 1) stop with hlt | hge
      · omega
      · obtain rfl : stop = j + 1 := by omega
        rw [← Nat.add_assoc] at hstopSpace
        rw [hstopSpace] at hnext
        cases hnext
    have hrun := Options.nextOffset_le_of_not_space hbefore hstopSpace
    have hwhole : (before.flatMap sentence).length + stop < cs.length := by
      rw [hlength, List.flatMap_append, List.flatMap_cons, List.length_append, List.length_append]
      omega
    refine ⟨by omega, hasBlankLine_eq_false fun k hk hkLt => ?_, fun hno => ?_⟩
    · obtain ⟨k, rfl⟩ : ∃ k', k = (before.flatMap sentence).length + k' :=
        ⟨k - (before.flatMap sentence).length, by omega⟩
      rw [← List.getElem?_map, hcs, hsplit k (by omega)]
      exact hlines k (by omega)
    · have houtcome : s.outcomes[j]? = some .noSplit := by
        rw [List.getElem?_eq_getElem (by rwa [length_outcomes])] at hno ⊢
        rw [Option.getD_some] at hno
        rw [hno]
      rw [isSpace_eq hcs, Nat.add_assoc, hsplit (j + 1) (by omega)] at hnext
      obtain ⟨next, hget, hspace⟩ := (Option.any_eq_true _ _).mp hnext
      exact hallow houtcome next hget hspace

/-! ### The sentences of the text -/

/-- A character of a sentence of the text. -/
theorem isSpace_sentence {before after : List TokenizedSentence}
    (hcs : cs.map (·.code) = (before ++ s :: after).flatMap sentence) {i : ℕ}
    (hi : i < s.sentence.length) :
    opts.isSpace cs ((before.flatMap sentence).length + i) =
      s.sentence[i]?.any opts.tables.isSpace := by
  rw [isSpace_eq hcs, getElem?_flatMap_append _ _ _ _ hi]

/-- The outcome of a character of a sentence of the text. -/
theorem outcome_sentence {before after : List TokenizedSentence} {i : ℕ}
    (hi : i < s.sentence.length) :
    ((before ++ s :: after).flatMap outcomes).getD ((before.flatMap sentence).length + i) .noSplit =
      s.outcomes[i]?.getD .noSplit := by
  rw [List.getD, ← length_flatMap_outcomes before,
    getElem?_flatMap_append _ _ _ _ (by rwa [length_outcomes])]

/-- The tokens of a sentence follow a position with only spaces up to the first of them. -/
theorem Followable.tokensAt (h : s.Followable opts) {before after : List TokenizedSentence}
    (hcs : cs.map (·.code) = (before ++ s :: after).flatMap sentence)
    (hurl : ∀ r ∈ s.tokens, opts.urlEmail cs ((before.flatMap sentence).length + r.start) = none)
    {found tokens : List TokenRange} (htokens : s.tokens = found ++ tokens) {position : ℕ}
    (hfound : ∀ r ∈ found, (before.flatMap sentence).length + r.start + r.length ≤ position)
    (hposition : ∀ r ∈ tokens, position ≤ (before.flatMap sentence).length + r.start)
    (hgap : ∀ i, position ≤ i → i < (before.flatMap sentence).length →
      opts.isSpace cs i = true) :
    opts.TokensAt cs (fun i => ((before ++ s :: after).flatMap outcomes).getD i .noSplit) position
      (tokens.map fun r => ⟨(before.flatMap sentence).length + r.start, r.length⟩) := by
  obtain ⟨base, hbase⟩ : ∃ base, base = (before.flatMap sentence).length := ⟨_, rfl⟩
  have hspaceAt : ∀ i < s.sentence.length,
      opts.isSpace cs (base + i) = s.sentence[i]?.any opts.tables.isSpace :=
    fun i hi => hbase ▸ isSpace_sentence hcs hi
  have houtcomeAt : ∀ i < s.sentence.length,
      ((before ++ s :: after).flatMap outcomes).getD (base + i) .noSplit =
        s.outcomes[i]?.getD .noSplit := fun i hi => hbase ▸ outcome_sentence hi
  have hlength : base + s.sentence.length ≤ cs.length := by
    have hall := congrArg List.length hcs
    rw [List.length_map, List.flatMap_append, List.flatMap_cons, List.length_append,
      List.length_append] at hall
    omega
  rw [← hbase] at hurl hfound hposition hgap ⊢
  clear hbase
  induction tokens generalizing found position with
  | nil => trivial
  | cons r rest ih =>
    have hr : r ∈ s.tokens := by simp [htokens]
    have hwithin := h.ordered.within r hr
    have hordered := h.ordered.disjoint
    rw [htokens] at hordered
    obtain ⟨-, hlater, hearlier⟩ := List.pairwise_append.mp hordered
    have hcodeAt : ∀ i < s.sentence.length, ∃ code, s.sentence[i]? = some code :=
      fun i hi => ⟨_, List.getElem?_eq_getElem hi⟩
    have hends : ∀ i, i = r.start ∨ i = r.start + r.length - 1 →
        opts.isSpace cs (base + i) = false := by
      intro i hi
      have hlt : i < s.sentence.length := by omega
      obtain ⟨code, hcode⟩ := hcodeAt i hlt
      rw [hspaceAt i hlt, hcode, Option.any_some, h.ends r hr i hi code hcode]
    have hlast : base + r.start + r.length - 1 = base + (r.start + r.length - 1) := by omega
    rw [List.map_cons]
    refine ⟨⟨hposition r (by simp), fun i hge hlt => ?_, hwithin.1, by dsimp only; omega,
      hends _ (.inl rfl), ?_, fun i hge hlt => ?_, ?_, hurl r hr⟩, ?_⟩
    · -- before the token there is a gap between sentences or between tokens
      dsimp only at hlt
      rcases Nat.lt_or_ge i base with hsmall | hlarge
      · exact hgap i hge hsmall
      · obtain ⟨i, rfl⟩ := Nat.exists_eq_add_of_le hlarge
        have hin : i < s.sentence.length := by omega
        obtain ⟨code, hcode⟩ := hcodeAt i hin
        rw [hspaceAt i hin, hcode, Option.any_some]
        refine h.between i code hcode fun r' hr' hinside => ?_
        rw [htokens] at hr'
        rcases List.mem_append.mp hr' with hr' | hr'
        · have := hfound r' hr'
          omega
        · rcases List.mem_cons.mp hr' with rfl | hr'
          · omega
          · have := List.rel_of_pairwise_cons hlater hr'
            omega
    · dsimp only
      rw [hlast]
      exact hends _ (.inr rfl)
    · dsimp only at hge hlt ⊢
      obtain ⟨i, rfl⟩ := Nat.exists_eq_add_of_le (show base ≤ i by omega)
      rw [houtcomeAt i (by omega), getElem?_outcomes_of_ne (by omega), Option.getD_some]
      intro r' hr' hend
      have hwithin' := h.ordered.within r' hr'
      rw [htokens] at hr'
      rcases List.mem_append.mp hr' with hr' | hr'
      · have := hearlier r' hr' r (by simp)
        omega
      · rcases List.mem_cons.mp hr' with rfl | hr'
        · omega
        · have := List.rel_of_pairwise_cons hlater hr'
          omega
    · dsimp only
      rw [hlast, houtcomeAt _ (by omega), h.getElem?_end htokens, Option.getD_some]
      simp only [List.map_eq_nil_iff]
    · refine @ih (found ++ [r]) (by simp [htokens]) _ (fun i hge hlt => ?_)
        (fun r' hr' => ?_) (fun r' hr' => ?_)
      · dsimp only at hge
        omega
      · have := List.rel_of_pairwise_cons hlater hr'
        dsimp only
        omega
      · dsimp only
        rcases List.mem_append.mp hr' with hr' | hr'
        · have := hearlier r' hr' r (by simp)
          omega
        · obtain rfl := List.mem_singleton.mp hr'
          omega

/-- The last token ends after all others. -/
theorem end_le_getLast {count : ℕ} {tokens : List TokenRange} (h : Ordered count tokens)
    {last r : TokenRange} (hlast : tokens.getLast? = some last) (hr : r ∈ tokens) :
    r.start + r.length ≤ last.start + last.length := by
  obtain ⟨init, rfl⟩ := List.getLast?_eq_some_iff.mp hlast
  rcases List.mem_append.mp hr with hr | hr
  · have := (List.pairwise_append.mp h.disjoint).2.2 r hr last (by simp)
    omega
  · obtain rfl := List.mem_singleton.mp hr
    exact le_rfl

/-- The sentences of the data follow each other in the text. -/
theorem sentencesAt {before rest : List TokenizedSentence}
    (hfollow : ∀ s ∈ rest, s.Followable opts) (hne : ∀ s ∈ rest, s.tokens ≠ [])
    (hcs : cs.map (·.code) = (before ++ rest).flatMap sentence)
    (hurl : ∀ r ∈ (rangesFrom (before.flatMap sentence).length rest).flatten,
      opts.urlEmail cs r.start = none)
    {position : ℕ} (hposition : position ≤ (before.flatMap sentence).length)
    (hgap : ∀ i, position ≤ i → i < (before.flatMap sentence).length →
      opts.isSpace cs i = true) :
    opts.SentencesAt cs (fun i => ((before ++ rest).flatMap outcomes).getD i .noSplit) position
      (rangesFrom (before.flatMap sentence).length rest) := by
  induction rest generalizing before position with
  | nil =>
    intro i hge hlt
    have hlength := congrArg List.length hcs
    rw [List.length_map, List.append_nil] at hlength
    exact hgap i hge (by omega)
  | cons s rest ih =>
    obtain ⟨hs, hrest⟩ := List.forall_mem_cons.mp hfollow
    obtain ⟨hsTokens, hrestTokens⟩ := List.forall_mem_cons.mp hne
    have hsplit : before ++ s :: rest = (before ++ [s]) ++ rest := by simp
    have hbase : ((before ++ [s]).flatMap sentence).length =
        (before.flatMap sentence).length + s.sentence.length := by simp
    rw [rangesFrom, List.flatten_cons] at hurl
    obtain ⟨last, hlast⟩ : ∃ last, s.tokens.getLast? = some last :=
      ⟨_, List.getLast?_eq_some_getLast hsTokens⟩
    have hend : Options.endOf position (s.tokens.map fun r =>
        (⟨(before.flatMap sentence).length + r.start, r.length⟩ : TokenRange)) =
          (before.flatMap sentence).length + (last.start + last.length) := by
      rw [Options.endOf, List.getLast?_map, hlast, Option.map_some, Option.map_some,
        Option.getD_some, Nat.add_assoc]
    have hlastWithin := (hs.ordered.within last (List.mem_of_getLast? hlast)).2
    refine ⟨?_, by rw [List.length_map]; exact hs.few, ?_, ?_⟩
    · rw [ne_eq, List.map_eq_nil_iff]
      exact hsTokens
    · refine hs.tokensAt hcs (fun r hr => ?_) (List.nil_append _).symm (by simp) (fun r _ => by omega)
        hgap
      exact hurl ⟨_, r.length⟩ (List.mem_append_left _ (List.mem_map.mpr ⟨r, hr, rfl⟩))
    · rw [hend, hsplit, ← hbase]
      rw [hsplit] at hcs
      refine ih hrest hrestTokens hcs (fun r hr => hurl r (List.mem_append_right _ (hbase ▸ hr)))
        (by omega) (fun i hge hlt => ?_)
      -- behind the last token there are only spaces
      obtain ⟨j, rfl⟩ := Nat.exists_eq_add_of_le (show (before.flatMap sentence).length ≤ i by omega)
      have hj : j < s.sentence.length := by omega
      rw [← hsplit] at hcs
      rw [isSpace_sentence hcs hj, List.getElem?_eq_getElem hj, Option.any_some]
      refine hs.between j _ (List.getElem?_eq_getElem hj) fun r hr hin => ?_
      have := end_le_getLast hs.ordered hlast hr
      omega

end Text

/-! ### Evaluation -/

/-- Ranges are evaluated as right against themselves. -/
theorem evaluateRanges_self (ranges : List TokenRange) :
    evaluateRanges ranges ranges = ⟨ranges.length, ranges.length, ranges.length⟩ := by
  have hcount : ∀ (items : List (ℕ × ℕ)) both,
      countBoth items items both = both + items.length := by
    intro items
    induction items with
    | nil => intro both; rw [countBoth, List.length_nil, Nat.add_zero]
    | cons item items ih =>
      intro both
      rw [countBoth, if_neg (lt_irrefl _), if_neg (lt_irrefl _), ih, List.length_cons,
        decide_eq_true rfl, Bool.toNat_true]
      omega
  rw [evaluateRanges, evaluateF1, hcount, List.length_map, Nat.zero_add]

/-- A network that answers as in training finds all tokens and sentences and no others. -/
theorem returns_sentences_ranges (hsegment : 10 ≤ opts.segment) {data : List TokenizedSentence}
    (hfollow : ∀ s ∈ used data, s.Followable opts)
    (hcodes : ∀ code ∈ text data, code < 0x200000)
    (hurl : ∀ r ∈ (ranges data).flatten,
      opts.urlEmail (chars ((text data).flatMap encode)) r.start = none)
    (hanswers : opts.Answers (chars ((text data).flatMap encode)) (outcomeAt data)) :
    ∃ st', (opts.sentences (setText ((text data).flatMap encode) {})).Returns (ranges data, st') := by
  have hcs : (chars ((text data).flatMap encode)).map (·.code) = (used data).flatMap sentence := by
    rw [chars_flatMap_encode hcodes, List.map_map]
    exact List.map_id _
  have hgold := goldOutcomes hfollow hcs
  have hsentences := @sentencesAt _ _ [] (used data) hfollow
    (fun s hs => by simpa using (List.mem_filter.mp hs).2) hcs hurl 0 le_rfl
    (fun i _ hi => absurd hi (Nat.not_lt_zero i))
  exact Options.returns_sentences_gold hsegment hgold hanswers []
    ⟨rfl, fun _ => rfl, fun hne => absurd rfl hne⟩ hsentences

/-! ### Sentences of a treebank -/

/-- The codes of a form. -/
def formCodes (tok : Token) : List ℕ := (charsToZero tok.form).map (·.code)

end TokenizedSentence

open TokenizedSentence

/-- The forms of the tokens begin and end with characters that are not spaces and have no line
ends, and spaces only if they are allowed. There are not too many tokens. -/
structure Trainable (opts : Gru.Options) (s : Sentence) : Prop where
  nonempty : ∀ t ∈ s.surface, formCodes t.token ≠ []
  first : ∀ t ∈ s.surface, ∀ code ∈ (formCodes t.token).head?, opts.tables.isSpace code = false
  last : ∀ t ∈ s.surface, ∀ code ∈ (formCodes t.token).getLast?, opts.tables.isSpace code = false
  lines : ∀ t ∈ s.surface, 10 ∉ formCodes t.token
  spaces : opts.allowSpaces = true ∨
    ∀ t ∈ s.surface, ∀ code ∈ formCodes t.token, opts.tables.isSpace code = false
  few : s.surface.length ≤ 400

namespace TokenizedSentence

variable {opts : Gru.Options} {s : TokenizedSentence}

/-- What holds of a sentence while its tokens are added. -/
structure Growing (opts : Gru.Options) (s : TokenizedSentence) : Prop where
  ordered : Ordered s.sentence.length s.tokens
  between : ∀ i, ∀ code ∈ s.sentence[i]?,
    (∀ r ∈ s.tokens, ¬ (r.start ≤ i ∧ i < r.start + r.length)) → opts.tables.isSpace code = true
  ends : ∀ r ∈ s.tokens, ∀ i, i = r.start ∨ i = r.start + r.length - 1 →
    ∀ code ∈ s.sentence[i]?, opts.tables.isSpace code = false
  spaces : opts.allowSpaces = true ∨ ∀ r ∈ s.tokens, ∀ i, r.start ≤ i → i < r.start + r.length →
    ∀ code ∈ s.sentence[i]?, opts.tables.isSpace code = false
  lines : 10 ∉ s.sentence
  codes : ∀ code ∈ s.sentence, code < 0x200000

/-- The empty sentence grows. -/
theorem growing_nil : Growing opts ⟨[], []⟩ where
  ordered := ⟨List.forall_mem_nil _, .nil⟩
  between i code hcode := by simp at hcode
  ends := List.forall_mem_nil _
  spaces := .inr (List.forall_mem_nil _)
  lines := List.not_mem_nil
  codes := List.forall_mem_nil _

/-- A sentence grows by a token. -/
theorem Growing.addToken (h : s.Growing opts) (hspace : opts.tables.isSpace 32 = true) {tok : Token}
    (hnonempty : formCodes tok ≠ [])
    (hfirst : ∀ code ∈ (formCodes tok).head?, opts.tables.isSpace code = false)
    (hlast : ∀ code ∈ (formCodes tok).getLast?, opts.tables.isSpace code = false)
    (hlines : 10 ∉ formCodes tok)
    (hspaces : opts.allowSpaces = true ∨
      ∀ code ∈ formCodes tok, opts.tables.isSpace code = false) :
    (s.addToken tok).Growing opts := by
  obtain ⟨added, hadded, hall⟩ : ∃ added,
      s.addToken tok = ⟨s.sentence ++ formCodes tok ++ added,
        s.tokens ++ [⟨s.sentence.length, (formCodes tok).length⟩]⟩ ∧
      ∀ code ∈ added, code = 32 := by
    refine ⟨_, rfl, fun code hcode => ?_⟩
    split_ifs at hcode
    · exact List.mem_singleton.mp hcode
    · cases hcode
  have hpos := List.length_pos_of_ne_nil hnonempty
  have hold : ∀ i < s.sentence.length,
      (s.sentence ++ formCodes tok ++ added)[i]? = s.sentence[i]? := by
    intro i hi
    rw [List.append_assoc, List.getElem?_append_left hi]
  have hform : ∀ i < (formCodes tok).length,
      (s.sentence ++ formCodes tok ++ added)[s.sentence.length + i]? = (formCodes tok)[i]? := by
    intro i hi
    rw [List.append_assoc, List.getElem?_append_right (Nat.le_add_right _ _),
      Nat.add_sub_cancel_left, List.getElem?_append_left hi]
  rw [hadded]
  refine ⟨⟨fun r hr => ?_, ?_⟩, fun i code hcode hnone => ?_, fun r hr i hi code hcode => ?_, ?_,
    ?_, ?_⟩
  · dsimp only at hr ⊢
    rw [List.length_append, List.length_append]
    rcases List.mem_append.mp hr with hr | hr
    · have := h.ordered.within r hr
      omega
    · obtain rfl := List.mem_singleton.mp hr
      dsimp only
      omega
  · refine List.pairwise_append.mpr ⟨h.ordered.disjoint, List.pairwise_singleton _ _, ?_⟩
    intro r hr r' hr'
    obtain rfl := List.mem_singleton.mp hr'
    exact (h.ordered.within r hr).2
  · dsimp only at hcode hnone
    rcases Nat.lt_or_ge i s.sentence.length with hlt | hge
    · rw [hold i hlt] at hcode
      exact h.between i code hcode fun r hr => hnone r (List.mem_append_left _ hr)
    · have hnot := hnone _ (List.mem_append_right _ (List.mem_singleton_self _))
      dsimp only at hnot
      rw [List.append_assoc, List.getElem?_append_right hge,
        List.getElem?_append_right (by omega)] at hcode
      rw [hall code (List.mem_of_getElem? hcode)]
      exact hspace
  · dsimp only at hr hcode
    rcases List.mem_append.mp hr with hr | hr
    · have := h.ordered.within r hr
      rw [hold i (by omega)] at hcode
      exact h.ends r hr i hi code hcode
    · obtain rfl := List.mem_singleton.mp hr
      rcases hi with rfl | rfl
      · apply hfirst
        rw [List.head?_eq_getElem?, ← hform 0 hpos]
        exact hcode
      · apply hlast
        dsimp only at hcode
        rw [Nat.add_sub_assoc hpos, hform _ (by omega)] at hcode
        rw [List.getLast?_eq_getElem?]
        exact hcode
  · rcases h.spaces with hallow | hnone
    · exact .inl hallow
    · rcases hspaces with hallow | hforms
      · exact .inl hallow
      · refine .inr fun r hr i hge hlt code hcode => ?_
        dsimp only at hr hcode
        rcases List.mem_append.mp hr with hr | hr
        · have := h.ordered.within r hr
          rw [hold i (by omega)] at hcode
          exact hnone r hr i hge hlt code hcode
        · obtain rfl := List.mem_singleton.mp hr
          dsimp only at hge hlt
          obtain ⟨i, rfl⟩ := Nat.exists_eq_add_of_le hge
          rw [hform i (by omega)] at hcode
          exact hforms code (List.mem_of_getElem? hcode)
  · simp only [List.mem_append, not_or]
    refine ⟨⟨h.lines, hlines⟩, fun hmem => ?_⟩
    cases hall 10 hmem
  · intro code hcode
    simp only [List.mem_append] at hcode
    rcases hcode with (hcode | hcode) | hcode
    · exact h.codes code hcode
    · obtain ⟨c, hc, rfl⟩ := List.mem_map.mp hcode
      exact code_lt_of_mem_chars ((List.takeWhile_sublist _).mem hc)
    · rw [hall code hcode]
      decide

/-- The sentence with all its tokens. -/
theorem growing_foldl (h : s.Growing opts) (hspace : opts.tables.isSpace 32 = true)
    {tokens : List Token} (hnonempty : ∀ tok ∈ tokens, formCodes tok ≠ [])
    (hfirst : ∀ tok ∈ tokens, ∀ code ∈ (formCodes tok).head?, opts.tables.isSpace code = false)
    (hlast : ∀ tok ∈ tokens, ∀ code ∈ (formCodes tok).getLast?, opts.tables.isSpace code = false)
    (hlines : ∀ tok ∈ tokens, 10 ∉ formCodes tok)
    (hspaces : opts.allowSpaces = true ∨
      ∀ tok ∈ tokens, ∀ code ∈ formCodes tok, opts.tables.isSpace code = false) :
    (tokens.foldl TokenizedSentence.addToken s).Growing opts ∧
      (tokens.foldl TokenizedSentence.addToken s).tokens.length =
        s.tokens.length + tokens.length := by
  induction tokens generalizing s with
  | nil => exact ⟨h, rfl⟩
  | cons tok tokens ih =>
    obtain ⟨hnonempty, hnonempty'⟩ := List.forall_mem_cons.mp hnonempty
    obtain ⟨hfirst, hfirst'⟩ := List.forall_mem_cons.mp hfirst
    obtain ⟨hlast, hlast'⟩ := List.forall_mem_cons.mp hlast
    obtain ⟨hlines, hlines'⟩ := List.forall_mem_cons.mp hlines
    have hnext := h.addToken hspace hnonempty hfirst hlast hlines
      (hspaces.imp_right fun hall => hall tok List.mem_cons_self)
    obtain ⟨hgrowing, hlength⟩ := ih hnext hnonempty' hfirst' hlast' hlines'
      (hspaces.imp_right fun hall tok htok => hall tok (List.mem_cons_of_mem _ htok))
    refine ⟨hgrowing, hlength.trans ?_⟩
    rw [TokenizedSentence.addToken, List.length_append, List.length_singleton, List.length_cons]
    omega

/-- A blank line behind the tokens does not matter. -/
theorem Growing.followable (h : s.Growing opts) (hfew : s.tokens.length ≤ 400) {blank : List ℕ}
    (hblank : ∀ code ∈ blank, code = 10) :
    Followable opts { s with sentence := s.sentence ++ blank } := by
  have hold : ∀ r ∈ s.tokens, ∀ i < r.start + r.length,
      (s.sentence ++ blank)[i]? = s.sentence[i]? := by
    intro r hr i hi
    have := h.ordered.within r hr
    rw [List.getElem?_append_left (by omega)]
  refine ⟨⟨fun r hr => ?_, h.ordered.disjoint⟩, fun i code hcode hnone => ?_,
    fun r hr i hi code hcode => ?_, fun r hr i hi => ?_, ?_, hfew⟩
  · have := h.ordered.within r hr
    dsimp only
    rw [List.length_append]
    omega
  · dsimp only at hcode
    rcases Nat.lt_or_ge i s.sentence.length with hlt | hge
    · rw [List.getElem?_append_left hlt] at hcode
      exact h.between i code hcode hnone
    · rw [List.getElem?_append_right hge] at hcode
      rw [hblank code (List.mem_of_getElem? hcode)]
      simp [Unicode.isSpace]
  · have := h.ordered.within r hr
    dsimp only at hcode
    rw [hold r hr i (by omega)] at hcode
    exact h.ends r hr i hi code hcode
  · dsimp only
    rw [hold r hr i hi]
    exact fun hget => h.lines (List.mem_of_getElem? hget)
  · refine h.spaces.imp_right fun hnone r hr i hge hlt code hcode => ?_
    dsimp only at hcode
    rw [hold r hr i hlt] at hcode
    exact hnone r hr i hge hlt code hcode

/-- The sentences of a treebank give sentences whose outcomes can be followed. -/
theorem followable_ofSentence (hspace : opts.tables.isSpace 32 = true) {s : Sentence}
    (h : Trainable opts s) (next : Option Sentence) :
    Followable opts (ofSentence s next) ∧ (∀ code ∈ (ofSentence s next).sentence, code < 0x200000) ∧
      (ofSentence s next).tokens.length = s.surface.length := by
  obtain ⟨hgrowing, hlength⟩ := @growing_foldl opts _ growing_nil hspace
    (s.surface.map (·.token)) (by simpa using h.nonempty) (by simpa using h.first)
    (by simpa using h.last) (by simpa using h.lines) (by simpa using h.spaces)
  rw [List.length_nil, List.length_map, Nat.zero_add] at hlength
  have hfew := h.few
  rw [ofSentence]
  split_ifs
  · refine ⟨hgrowing.followable (by omega) (by simp), fun code hcode => ?_, hlength⟩
    rcases List.mem_append.mp hcode with hcode | hcode
    · exact hgrowing.codes code hcode
    · obtain rfl : code = 10 := by simpa using hcode
      decide
  · have hfollow := hgrowing.followable (by omega) (List.forall_mem_nil (· = 10))
    rw [List.append_nil] at hfollow
    exact ⟨hfollow, hgrowing.codes, hlength⟩

/-- What holds of all sentences holds of those of the data. -/
theorem forall_mem_ofSentences {p : TokenizedSentence → Prop} {sentences : List Sentence}
    (h : ∀ s ∈ sentences, ∀ next, p (ofSentence s next)) : ∀ t ∈ ofSentences sentences, p t := by
  induction sentences with
  | nil => exact List.forall_mem_nil _
  | cons s rest ih =>
    obtain ⟨hs, hrest⟩ := List.forall_mem_cons.mp h
    exact List.forall_mem_cons.mpr ⟨hs _, ih hrest⟩

/-- The numbers of tokens and of sentences. -/
theorem length_ranges (data : List TokenizedSentence) :
    (ranges data).length = data.countP (fun s => s.tokens ≠ []) ∧
      (ranges data).flatten.length = (data.map fun s => s.tokens.length).sum := by
  have hfrom : ∀ (data : List TokenizedSentence) offset,
      (rangesFrom offset data).length = data.length ∧
        (rangesFrom offset data).flatten.length = (data.map fun s => s.tokens.length).sum := by
    intro data
    induction data with
    | nil => exact fun _ => ⟨rfl, rfl⟩
    | cons s rest ih =>
      intro offset
      obtain ⟨hlength, hflatten⟩ := ih (offset + s.sentence.length)
      rw [rangesFrom, List.length_cons, hlength, List.flatten_cons, List.length_append, hflatten,
        List.length_map, List.map_cons, List.sum_cons]
      exact ⟨rfl, rfl⟩
  obtain ⟨hlength, hflatten⟩ := hfrom (used data) 0
  rw [ranges, hlength, hflatten, List.countP_eq_length_filter]
  refine ⟨rfl, ?_⟩
  rw [used]
  induction data with
  | nil => rfl
  | cons s rest ih =>
    rw [List.filter_cons, List.map_cons, List.sum_cons]
    by_cases hs : s.tokens = []
    · rw [if_neg (by simpa using hs), ih (hfrom _ 0).1 (hfrom _ 0).2, hs, List.length_nil,
        Nat.zero_add]
    · rw [if_pos (by simpa using hs), List.map_cons, List.sum_cons, ih (hfrom _ 0).1 (hfrom _ 0).2]

/-- The sentences of the data have as many tokens as they show. -/
theorem map_length_ofSentences {sentences : List Sentence}
    (h : ∀ s ∈ sentences, ∀ next, (ofSentence s next).tokens.length = s.surface.length) :
    (ofSentences sentences).map (fun s => s.tokens.length) =
      sentences.map fun s => s.surface.length := by
  induction sentences with
  | nil => rfl
  | cons s rest ih =>
    obtain ⟨hs, hrest⟩ := List.forall_mem_cons.mp h
    rw [ofSentences, List.map_cons, List.map_cons, hs, ih hrest]

/-- The outcomes that the trainer gives to the characters of its data are right: a network that
answers them finds exactly the tokens and the sentences of the data, wherever the windows are
cut. -/
theorem evaluate_ofSentences (hsegment : 10 ≤ opts.segment)
    (hspace : opts.tables.isSpace 32 = true) {sentences : List Sentence}
    (htrainable : ∀ s ∈ sentences, Trainable opts s)
    (hurl : ∀ r ∈ (ranges (ofSentences sentences)).flatten,
      opts.urlEmail (chars ((text (ofSentences sentences)).flatMap encode)) r.start = none)
    (hanswers : opts.Answers (chars ((text (ofSentences sentences)).flatMap encode))
      (outcomeAt (ofSentences sentences))) :
    let tokens := (sentences.map fun s => s.surface.length).sum
    let nonempty := sentences.countP fun s => s.surface ≠ []
    (opts.evaluate (ofSentences sentences)).Returns
      (⟨tokens, tokens, tokens⟩, ⟨nonempty, nonempty, nonempty⟩) := by
  have hfollow := fun s hs next => followable_ofSentence hspace (htrainable s hs) next
  have hcodes : ∀ code ∈ text (ofSentences sentences), code < 0x200000 := by
    intro code hcode
    obtain ⟨t, ht, hmem⟩ := List.mem_flatMap.mp hcode
    exact forall_mem_ofSentences (p := fun t => ∀ code ∈ t.sentence, code < 0x200000)
      (fun s hs next => (hfollow s hs next).2.1) t (List.mem_filter.mp ht).1 code hmem
  obtain ⟨st', hreturns⟩ := returns_sentences_ranges hsegment
    (fun t ht => forall_mem_ofSentences (fun s hs next => (hfollow s hs next).1) t
      (List.mem_filter.mp ht).1) hcodes hurl hanswers
  have hlengths := map_length_ofSentences fun s hs next => (hfollow s hs next).2.2
  obtain ⟨hcount, htotal⟩ := length_ranges (ofSentences sentences)
  have hnonempty : (ofSentences sentences).countP (fun s => s.tokens ≠ []) =
      sentences.countP fun s => s.surface ≠ [] := by
    have hmap := congrArg (List.countP (· ≠ 0)) hlengths
    rw [List.countP_map, List.countP_map] at hmap
    simpa only [Function.comp_def, ne_eq, List.length_eq_zero_iff] using hmap
  refine Comp.returns_bind.mpr ⟨_, hreturns, Comp.returns_pure.mpr ?_⟩
  rw [evaluateRanges_self, evaluateRanges_self, List.length_map, hcount, htotal, hlengths, hnonempty]

/-- A sentence of two words. -/
def twoTokens : Sentence := (Sentence.clear.addWord (bytes "ab")).addWord (bytes "c")

/-- A tokenizer for windows of ten characters that answers as in training. -/
def trainedOptions : Gru.Options where
  tables := asciiTables
  isPunctuation _ := false
  isOtherPunctuation _ := false
  segment := 10
  allowSpaces := false
  urlEmail _ _ := none
  classify _ _ := outcomeAt (ofSentences [twoTokens])

/-- The windows of the sample: the first one is the whole text. -/
theorem windows_twoTokens (windows : ℕ) :
    let offsets := trainedOptions.windowOffsets
      (chars ((text (ofSentences [twoTokens])).flatMap encode)) 10
      (trainedOptions.windowStart (chars ((text (ofSentences [twoTokens])).flatMap encode))
        (outcomeAt (ofSentences [twoTokens])) windows)
    offsets = [0, 1, 2, 3, 4, 5] ∨ offsets = [5] := by
  have hlater : ∀ windows, trainedOptions.windowStart
      (chars ((text (ofSentences [twoTokens])).flatMap encode))
        (outcomeAt (ofSentences [twoTokens])) (windows + 1) = 5 := by
    intro windows
    induction windows with
    | zero => decide
    | succ windows ih =>
      rw [Options.windowStart, ih]
      decide
  cases windows with
  | zero => exact .inl (by decide)
  | succ windows =>
    right
    rw [hlater]
    decide

/-- The tokenizer answers as in training. -/
theorem answers_twoTokens :
    trainedOptions.Answers (chars ((text (ofSentences [twoTokens])).flatMap encode))
      (outcomeAt (ofSentences [twoTokens])) := by
  intro windows i a offsets ha
  have hi : i = a := by
    rcases windows_twoTokens windows with hoffsets | hoffsets
    · have hget : ([0, 1, 2, 3, 4] : List ℕ)[i]? = some a := by
        rw [← ha]
        exact congrArg (fun l : List ℕ => l.dropLast[i]?) hoffsets.symm
      rcases i with _ | _ | _ | _ | _ | i <;> simp_all
    · have hget : ([] : List ℕ)[i]? = some a := by
        rw [← ha]
        exact congrArg (fun l : List ℕ => l.dropLast[i]?) hoffsets.symm
      cases hget
  rw [hi]
  rfl

/-- A sentence of two tokens. -/
theorem evaluate_ofSentences_twoTokens :
    (trainedOptions.evaluate (ofSentences [twoTokens])).Returns (⟨2, 2, 2⟩, ⟨1, 1, 1⟩) := by
  refine @evaluate_ofSentences trainedOptions (by decide) (by decide) [twoTokens] ?_
    (fun _ _ => rfl) answers_twoTokens
  intro s hs
  obtain rfl := List.mem_singleton.mp hs
  exact ⟨by decide, by decide, by decide, by decide, .inr (by decide), by decide⟩

end TokenizedSentence

end UDPipe.Tokenizer
