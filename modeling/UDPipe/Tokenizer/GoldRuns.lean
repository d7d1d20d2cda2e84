import UDPipe.Tokenizer.GruRuns

/-!
# A tokenizer that is answered right

Outcomes are given for every character of a text. If the network answers each window that is
reached with the outcomes of its characters, then the tokens and sentences end where the outcomes
say, wherever the windows are cut.
-/

namespace UDPipe.Tokenizer.Gru.Options

open Utf8

variable {opts : Options} {cs : List Character} {gold : ℕ → Outcome}

/-! ### Windows -/

/-- Where the window ends that begins at a position, if it is answered right. -/
def windowEnd (opts : Options) (cs : List Character) (gold : ℕ → Outcome) (start : ℕ) : ℕ :=
  let offsets := opts.windowOffsets cs opts.segment start
  offsets.getD (opts.usedLength (offsets.dropLast.map gold) (offsets.length - 1)) 0

/-- Where the windows begin. -/
def windowStart (opts : Options) (cs : List Character) (gold : ℕ → Outcome) : ℕ → ℕ
  | 0 => 0
  | windows + 1 => opts.windowEnd cs gold (opts.windowStart cs gold windows)

/-- The network gives the characters of each window their outcomes. -/
def Answers (opts : Options) (cs : List Character) (gold : ℕ → Outcome) : Prop :=
  ∀ windows i a,
    let offsets := opts.windowOffsets cs opts.segment (opts.windowStart cs gold windows)
    offsets.dropLast[i]? = some a →
      opts.classify windows (opts.networkChars cs offsets.dropLast) i = gold a

/-- Spaces split nothing, and those that follow a character do not change its outcome. -/
structure GoldOutcomes (opts : Options) (cs : List Character) (gold : ℕ → Outcome) : Prop where
  space : ∀ i, opts.isSpace cs i = true → gold i = .noSplit
  following : ∀ i, opts.isSpace cs i = false → opts.isSpace cs (i + 1) = true →
    gold i ≠ .endOfSentence → opts.nextOffset cs (i + 1) < cs.length ∧
      hasBlankLine cs (i + 1) (opts.nextOffset cs (i + 1)) = false ∧
        (gold i = .noSplit → opts.allowSpaces = true)

/-- A window that is not full goes to the end of the text. -/
theorem getLast_windowOffsets {left offset : ℕ} (hle : offset ≤ cs.length)
    (h : (opts.windowOffsets cs left offset).length ≤ left) :
    (opts.windowOffsets cs left offset).getLast? = some cs.length := by
  induction left generalizing offset with
  | zero => exact absurd h (by simp [windowOffsets])
  | succ left ih =>
    rw [windowOffsets] at h ⊢
    split at h
    · rename_i hlt
      rw [if_pos hlt]
      rw [List.length_cons] at h
      have hrest := ih (nextOffset_le hlt) (Nat.le_of_succ_le_succ h)
      rw [List.getLast?_cons, hrest]
      rfl
    · rename_i hge
      rw [if_neg hge]
      obtain rfl : offset = cs.length := by omega
      rfl

/-- A window has one character more than what is left at most. -/
theorem length_windowOffsets_le (left offset : ℕ) :
    (opts.windowOffsets cs left offset).length ≤ left + 1 := by
  induction left generalizing offset with
  | zero => exact le_rfl
  | succ left ih =>
    rw [windowOffsets]
    split
    · rw [List.length_cons]
      exact Nat.succ_le_succ (ih _)
    · exact Nat.succ_le_succ (Nat.zero_le _)

/-- Only the outcomes inside the window matter for cutting back. -/
theorem cutBack_congr {outcomes outcomes' : List Outcome} {half length : ℕ}
    (h : ∀ k < length, outcomes.getD k .noSplit = outcomes'.getD k .noSplit) :
    cutBack outcomes half length = cutBack outcomes' half length := by
  induction length with
  | zero => rfl
  | succ length ih =>
    rw [cutBack, cutBack, h length (Nat.lt_succ_self _), ih fun k hk => h k (Nat.lt_succ_of_lt hk)]

/-- Only outcomes before the last five are looked at in a full window. -/
theorem usedLength_congr {outcomes outcomes' : List Outcome} {length : ℕ}
    (h : ∀ k, (length = opts.segment → k + 5 < length) → k < length →
      outcomes.getD k .noSplit = outcomes'.getD k .noSplit) :
    opts.usedLength outcomes length = opts.usedLength outcomes' length := by
  rw [usedLength, usedLength]
  split
  · rename_i hfull
    exact cutBack_congr fun k hk => h k (fun _ => by omega) (by omega)
  · rfl

/-- In a full window the last characters are not used. -/
theorem usedLength_lt_of_full {outcomes : List Outcome} {length k : ℕ} (hsegment : 10 ≤ opts.segment)
    (hk : k < opts.usedLength outcomes length) (hfull : length = opts.segment) :
    k + 5 < length := by
  rw [usedLength, if_pos ⟨hfull, hfull ▸ hsegment⟩] at hk
  have hcut := (cutBack_bounds outcomes (opts.segment / 2) (length - 5) (by omega)).2
  omega

/-- The spaces in a window leave the outcomes as they are. -/
theorem spacedOutcome_gold (hgold : opts.GoldOutcomes cs gold) {start k a : ℕ}
    (hstart : start ≤ cs.length) {outcomes : List Outcome}
    (houtcomes : ∀ k a, (opts.windowOffsets cs opts.segment start).dropLast[k]? = some a →
      outcomes.getD k .noSplit = gold a)
    (hfull : (opts.windowOffsets cs opts.segment start).length - 1 = opts.segment →
      k + 5 < (opts.windowOffsets cs opts.segment start).length - 1)
    (ha : (opts.windowOffsets cs opts.segment start).dropLast[k]? = some a) :
    opts.spacedOutcome cs (opts.windowOffsets cs opts.segment start) outcomes k (gold a) =
      gold a := by
  obtain ⟨offsets, hoffsets⟩ : ∃ offsets, offsets = opts.windowOffsets cs opts.segment start :=
    ⟨_, rfl⟩
  have hnext : ∀ k, k + 1 < offsets.length → ∃ a, offsets[k]? = some a ∧ a < cs.length ∧
      offsets[k + 1]? = some (opts.nextOffset cs a) := by
    rw [hoffsets]
    exact (windowOffsets_next opts.segment start).2
  have hlast : offsets.length ≤ opts.segment → offsets.getLast? = some cs.length := by
    rw [hoffsets]
    exact getLast_windowOffsets hstart
  have hlengthLe : offsets.length ≤ opts.segment + 1 := hoffsets ▸ length_windowOffsets_le _ _
  rw [← hoffsets] at houtcomes hfull ha ⊢
  rw [spacedOutcome]
  split_ifs with hfollowing
  · obtain ⟨hlt, hspace⟩ := hfollowing
    obtain ⟨b, hb, hbLt, hfirst⟩ := hnext k (by omega)
    obtain ⟨c, hc, -, hsecond⟩ := hnext (k + 1) (by omega)
    have hka : offsets[k]? = some a := by
      rw [List.getElem?_dropLast, if_pos (by omega)] at ha
      exact ha
    obtain rfl : b = a := Option.some.inj (hb.symm.trans hka)
    obtain rfl : opts.nextOffset cs b = c := Option.some.inj (hfirst.symm.trans hc)
    rw [List.getD, hfirst, Option.getD_some] at hspace
    -- a run of spaces is not followed by another one
    have hnot : opts.isSpace cs b = false := by
      by_contra hb'
      rw [not_isSpace_nextOffset (by simpa using hb')] at hspace
      cases hspace
    rw [nextOffset_of_not_space hnot] at hspace hfirst hsecond
    have hafter : outcomes.getD (k + 1) .noSplit = .noSplit := by
      rw [houtcomes (k + 1) (b + 1) (by rw [List.getElem?_dropLast, if_pos (by omega), hfirst])]
      exact hgold.space _ hspace
    dsimp only
    rw [hafter, List.getD, hfirst, Option.getD_some, List.getD, hsecond, Option.getD_some]
    have hkeep : gold b ≠ .endOfSentence → k + 2 ≠ offsets.length - 1 ∧
        hasBlankLine cs (b + 1) (opts.nextOffset cs (b + 1)) = false ∧
          (gold b = .noSplit → opts.allowSpaces = true) := by
      intro hne
      obtain ⟨hmore, hblank, hallow⟩ := hgold.following b hnot hspace hne
      refine ⟨fun hend => ?_, hblank, hallow⟩
      by_cases hwhole : offsets.length - 1 = opts.segment
      · have := hfull hwhole
        omega
      · have hget := hlast (by omega)
        rw [List.getLast?_eq_getElem?, ← hend, hsecond] at hget
        exact hmore.ne (Option.some.inj hget)
    cases houtcome : gold b with
    | endOfSentence => simp
    | noSplit =>
      obtain ⟨hinner, hblank, hallow⟩ := hkeep (by simp [houtcome])
      simp [hblank, hallow houtcome, hinner]
    | endOfToken =>
      obtain ⟨hinner, hblank, -⟩ := hkeep (by simp [houtcome])
      simp [hblank, hinner]
  · rfl

/-! ### Outcomes -/

/-- The part of the window that is left has the right outcomes. -/
structure OnGold (opts : Options) (cs : List Character) (gold : ℕ → Outcome) (st : State) :
    Prop where
  chars : st.chars = cs
  position : st.networkIndex < st.networkLength →
    st.networkOffsets[st.networkIndex]? = some st.current
  used : st.networkLength ≤ st.networkIndex → opts.windowStart cs gold st.windows = st.current
  stop : st.networkIndex < st.networkLength →
    st.networkOffsets[st.networkLength]? = some (opts.windowStart cs gold st.windows)
  offsets : ∀ k a, k < st.networkLength → st.networkOffsets[k]? = some a →
    st.networkOffsets[k + 1]? = some (opts.nextOffset cs a) ∧
      st.networkOutcomes.getD k .noSplit = gold a

/-- A new window is answered right. -/
theorem onGold_computeWindow (hsegment : 10 ≤ opts.segment) (hgold : opts.GoldOutcomes cs gold)
    (hanswers : opts.Answers cs gold) {st : State} (h : opts.OnGold cs gold st)
    (hlt : st.current < cs.length) (hused : st.networkLength ≤ st.networkIndex) :
    opts.OnGold cs gold (opts.computeWindow st) ∧ 0 < (opts.computeWindow st).networkLength ∧
      (opts.computeWindow st).current = st.current := by
  have hstart := h.used hused
  obtain ⟨hfirst, hnext⟩ := @windowOffsets_next opts cs opts.segment st.current
  have htwo := @two_le_length_windowOffsets opts cs opts.segment st.current (by omega) hlt
  obtain ⟨offsets, hoffsets⟩ : ∃ offsets, offsets = opts.windowOffsets cs opts.segment st.current :=
    ⟨_, rfl⟩
  obtain ⟨answers, hanswersEq⟩ : ∃ answers, answers =
      (List.range (opts.networkChars cs offsets.dropLast).length).map
        (opts.classify st.windows (opts.networkChars cs offsets.dropLast)) := ⟨_, rfl⟩
  have hanswered : ∀ (k : ℕ) a, offsets.dropLast[k]? = some a → answers[k]? = some (gold a) := by
    intro k a hk
    have hlength : offsets.dropLast.length ≤ (opts.networkChars cs offsets.dropLast).length := by
      rw [networkChars]
      split_ifs <;> simp
    have hin : k < offsets.dropLast.length := (List.getElem?_eq_some_iff.mp hk).1
    have hanswer := hanswers st.windows k a
    rw [hstart, ← hoffsets] at hanswer
    rw [hanswersEq, List.getElem?_map, List.getElem?_range (by omega), Option.map_some, hanswer hk]
  have hwindow : opts.computeWindow st =
      { st with
        networkIndex := 0
        networkLength := opts.usedLength
          (answers.mapIdx (opts.spacedOutcome cs offsets answers)) (offsets.length - 1)
        networkOutcomes := answers.mapIdx (opts.spacedOutcome cs offsets answers)
        networkOffsets := offsets
        windows := st.windows + 1 } := by
    rw [computeWindow, h.chars, ← hoffsets, hanswersEq]
  -- the outcomes that are used are the right ones
  have hspaced : ∀ (k : ℕ) a, (offsets.length - 1 = opts.segment → k + 5 < offsets.length - 1) →
      offsets.dropLast[k]? = some a →
        (answers.mapIdx (opts.spacedOutcome cs offsets answers)).getD k .noSplit = gold a := by
    intro k a hk ha
    rw [List.getD, List.getElem?_mapIdx, hanswered k a ha, Option.map_some, Option.getD_some,
      hoffsets]
    refine spacedOutcome_gold hgold hlt.le (fun k a hk => ?_) (hoffsets ▸ hk) (hoffsets ▸ ha)
    rw [List.getD, hanswered k a (hoffsets ▸ hk), Option.getD_some]
  have hlength : opts.usedLength (answers.mapIdx (opts.spacedOutcome cs offsets answers))
      (offsets.length - 1) = opts.usedLength (offsets.dropLast.map gold) (offsets.length - 1) := by
    refine usedLength_congr fun k hk hlt => ?_
    obtain ⟨a, ha⟩ : ∃ a, offsets.dropLast[k]? = some a :=
      ⟨_, List.getElem?_eq_getElem (by rwa [List.length_dropLast])⟩
    rw [hspaced k a hk ha, List.getD, List.getElem?_map, ha, Option.map_some, Option.getD_some]
  have hbounds := @usedLength_bounds opts (offsets.dropLast.map gold) (offsets.length - 1)
    (by rw [hoffsets]; omega)
  rw [hwindow, hlength]
  refine ⟨⟨h.chars, fun _ => ?_, fun hle => ?_, fun _ => ?_, fun k a hk ha => ?_⟩, hbounds.1, rfl⟩
  · rw [hoffsets]
    exact hfirst
  · exact absurd hle (by dsimp only; omega)
  · dsimp only
    rw [windowStart, hstart, windowEnd, ← hoffsets, List.getD]
    obtain ⟨a, ha⟩ : ∃ a, offsets[opts.usedLength (offsets.dropLast.map gold)
        (offsets.length - 1)]? = some a := by
      refine ⟨_, List.getElem?_eq_getElem ?_⟩
      have : 2 ≤ offsets.length := hoffsets ▸ htwo
      omega
    rw [ha, Option.getD_some]
  · dsimp only at hk ha ⊢
    obtain ⟨b, hb, -, hnextOffset⟩ := hnext k (by rw [← hoffsets]; omega)
    rw [← hoffsets] at hb hnextOffset
    obtain rfl : b = a := Option.some.inj (hb.symm.trans ha)
    refine ⟨hnextOffset, hspaced k b (fun hfull => usedLength_lt_of_full hsegment hk hfull) ?_⟩
    rw [List.getElem?_dropLast, if_pos (by omega), hb]

/-- An outcome is that of the character at the position. -/
theorem nextOutcome_gold (hsegment : 10 ≤ opts.segment) (hgold : opts.GoldOutcomes cs gold)
    (hanswers : opts.Answers cs gold) {st : State} (h : opts.OnGold cs gold st)
    (hlt : st.current < cs.length) :
    (opts.nextOutcome st).1 = gold st.current ∧
      (opts.nextOutcome st).2.current = opts.nextOffset cs st.current ∧
      opts.OnGold cs gold (opts.nextOutcome st).2 := by
  obtain ⟨st', hst', hcurrent, hok, hin⟩ : ∃ st' : State,
      st' = (if st.networkIndex ≥ st.networkLength then opts.computeWindow st else st) ∧
        st'.current = st.current ∧ opts.OnGold cs gold st' ∧
        st'.networkIndex < st'.networkLength := by
    refine ⟨_, rfl, ?_⟩
    split
    · rename_i hused
      obtain ⟨hok, hpos, hcurrent⟩ := onGold_computeWindow hsegment hgold hanswers h hlt hused
      exact ⟨hcurrent, hok, hpos⟩
    · exact ⟨rfl, h, by omega⟩
  have hposition := hok.position hin
  obtain ⟨hnext, houtcome⟩ := hok.offsets _ _ hin hposition
  rw [hcurrent] at hnext houtcome
  have hcurrent' : st'.networkOffsets.getD (st'.networkIndex + 1) 0 =
      opts.nextOffset cs st.current := by
    rw [List.getD, hnext, Option.getD_some]
  rw [nextOutcome, ← hst']
  refine ⟨houtcome, hcurrent', hok.chars, fun _ => ?_, fun hused => ?_, fun hmore => ?_, hok.offsets⟩
  · dsimp only
    rw [hcurrent', hnext]
  · have hend : st'.networkIndex + 1 = st'.networkLength := by
      dsimp only at hused
      omega
    have hstop := hok.stop hin
    rw [← hend, hnext] at hstop
    dsimp only
    rw [hcurrent']
    exact (Option.some.inj hstop).symm
  · exact hok.stop (by dsimp only at hmore; omega)

/-! ### Tokens -/

/-- The next token after a position begins and ends with characters that are not spaces, and its
last character has the outcome. -/
structure TokenAt (opts : Options) (cs : List Character) (gold : ℕ → Outcome) (position : ℕ)
    (r : TokenRange) (outcome : Outcome) : Prop where
  le : position ≤ r.start
  spaces : ∀ i, position ≤ i → i < r.start → opts.isSpace cs i = true
  nonempty : 0 < r.length
  within : r.start + r.length ≤ cs.length
  first : opts.isSpace cs r.start = false
  final : opts.isSpace cs (r.start + r.length - 1) = false
  inside : ∀ i, r.start ≤ i → i + 1 < r.start + r.length → gold i = .noSplit
  outcome : gold (r.start + r.length - 1) = outcome
  url : opts.urlEmail cs r.start = none

/-- The tokens of a sentence follow a position. -/
def TokensAt (opts : Options) (cs : List Character) (gold : ℕ → Outcome) :
    ℕ → List TokenRange → Prop
  | _, [] => True
  | position, r :: rest =>
    opts.TokenAt cs gold position r (if rest = [] then .endOfSentence else .endOfToken) ∧
      TokensAt opts cs gold (r.start + r.length) rest

/-- Where the tokens end that follow a position. -/
def endOf (position : ℕ) (tokens : List TokenRange) : ℕ :=
  (tokens.getLast?.map fun r => r.start + r.length).getD position

/-- The sentences follow a position, and then there are only spaces. -/
def SentencesAt (opts : Options) (cs : List Character) (gold : ℕ → Outcome) :
    ℕ → List (List TokenRange) → Prop
  | position, [] => ∀ i, position ≤ i → i < cs.length → opts.isSpace cs i = true
  | position, tokens :: rest =>
    tokens ≠ [] ∧ tokens.length ≤ 400 ∧ opts.TokensAt cs gold position tokens ∧
      SentencesAt opts cs gold (endOf position tokens) rest

/-- Behind the last character there is no space. -/
theorem isSpace_length : opts.isSpace cs cs.length = false := by
  rw [isSpace, List.getElem?_eq_none le_rfl]
  rfl

/-- A step does not pass a character that is not a space. -/
theorem nextOffset_le_of_not_space {offset stop : ℕ} (hlt : offset < stop)
    (hstop : opts.isSpace cs stop = false) : opts.nextOffset cs offset ≤ stop := by
  by_contra hnot
  cases hspace : opts.isSpace cs offset with
  | false =>
    rw [nextOffset_of_not_space hspace] at hnot
    omega
  | true =>
    rw [isSpace_of_lt_nextOffset hspace hlt.le (by omega)] at hstop
    cases hstop

/-- The tokens end where the others do. -/
theorem endOf_cons (position : ℕ) (r : TokenRange) (rest : List TokenRange) :
    endOf position (r :: rest) = endOf (r.start + r.length) rest := by
  rw [endOf, endOf, List.getLast?_cons]
  cases rest.getLast? <;> rfl

/-- Tokens end behind the position, inside the text. -/
theorem TokensAt.lt_endOf {position : ℕ} {tokens : List TokenRange}
    (h : opts.TokensAt cs gold position tokens) (hne : tokens ≠ []) :
    position < endOf position tokens ∧ endOf position tokens ≤ cs.length := by
  induction tokens generalizing position with
  | nil => exact absurd rfl hne
  | cons r rest ih =>
    obtain ⟨hr, hrest⟩ := h
    have hle := hr.le
    have hnonempty := hr.nonempty
    have hwithin := hr.within
    rw [endOf_cons]
    by_cases hlast : rest = []
    · subst hlast
      dsimp only [endOf, List.getLast?_nil, Option.map_none, Option.getD_none]
      omega
    · obtain ⟨hlt, hend⟩ := ih hrest hlast
      exact ⟨by omega, hend⟩

/-- Between the calls, the window may be out of date at the beginning. -/
structure BetweenGold (opts : Options) (cs : List Character) (gold : ℕ → Outcome) (st : State) :
    Prop where
  chars : st.chars = cs
  first : st.current = 0 → st.windows = 0
  later : st.current ≠ 0 → opts.OnGold cs gold st

/-- A call starts with a window that is answered right. -/
theorem BetweenGold.onGold {st : State} (h : opts.BetweenGold cs gold st) :
    opts.OnGold cs gold (if st.current = 0 then { st with networkIndex := 0, networkLength := 0 }
      else st) := by
  split_ifs with hzero
  · refine ⟨h.chars, fun hlt => absurd hlt (Nat.lt_irrefl 0), fun _ => ?_,
      fun hlt => absurd hlt (Nat.lt_irrefl 0), fun k a hk => absurd hk (Nat.not_lt_zero k)⟩
    dsimp only
    rw [h.first hzero, hzero, windowStart]
  · exact h.later hzero

section Runs

variable (hsegment : 10 ≤ opts.segment) (hgold : opts.GoldOutcomes cs gold)
  (hanswers : opts.Answers cs gold)

include hsegment hgold hanswers

/-- The loop over spaces goes to the next character that is none. -/
theorem returns_spaces_gold (found : List TokenRange) {st : State} (h : opts.OnGold cs gold st)
    {stop : ℕ} (hle : st.current ≤ stop) (hwithin : stop ≤ cs.length)
    (hspaces : ∀ i, st.current ≤ i → i < stop → opts.isSpace cs i = true)
    (hstop : opts.isSpace cs stop = false) :
    ∃ st', (Comp.loopOf (opts.spaceStep found) st).Returns st' ∧
      opts.OnGold cs gold st' ∧ st'.current = stop := by
  refine Comp.loopOf_total (fun s => opts.OnGold cs gold s ∧ st.current ≤ s.current ∧
    s.current ≤ stop) _ (fun s => stop - s.current) ?_ ⟨h, le_rfl, hle⟩
  rintro s ⟨hok, hge, hbefore⟩
  rw [spaceStep, hok.chars]
  rcases Nat.eq_or_lt_of_le hbefore with heq | hlt
  · rw [heq, hstop, if_neg (by simp)]
    exact .inl ⟨s, rfl, hok, heq⟩
  · have hspace := hspaces s.current hge hlt
    obtain ⟨houtcome, hcurrent, hnext⟩ :=
      nextOutcome_gold hsegment hgold hanswers hok (hlt.trans_le hwithin)
    have hup := @lt_nextOffset opts cs s.current
    have hdown := nextOffset_le_of_not_space hlt hstop
    rw [if_pos ⟨hlt.trans_le hwithin, hspace⟩]
    dsimp only
    rw [houtcome, hgold.space _ hspace, if_neg (by simp)]
    exact .inr ⟨_, rfl, ⟨hnext, by omega, by omega⟩, by omega⟩

/-- The loop over a token ends where the token does. -/
theorem returns_token_gold {st : State} (h : opts.OnGold cs gold st) {r : TokenRange}
    {position : ℕ} {outcome : Outcome} (hr : opts.TokenAt cs gold position r outcome)
    (hcurrent : st.current = r.start) (hsplit : outcome ≠ .noSplit) :
    ∃ st', (Comp.loopOf opts.tokenStep st).Returns (st', outcome == .endOfSentence) ∧
      opts.OnGold cs gold st' ∧ st'.current = r.start + r.length := by
  have hwithin := hr.within
  have hnonempty := hr.nonempty
  obtain ⟨⟨st', eos⟩, hreturns, heos, hok, hend⟩ : ∃ out : State × Bool,
      (Comp.loopOf opts.tokenStep st).Returns out ∧ out.2 = (outcome == .endOfSentence) ∧
        opts.OnGold cs gold out.1 ∧ out.1.current = r.start + r.length := by
    refine Comp.loopOf_total (fun s => opts.OnGold cs gold s ∧ r.start ≤ s.current ∧
      s.current < r.start + r.length) _ (fun s => r.start + r.length - s.current) ?_
      ⟨h, hcurrent.ge, by omega⟩
    rintro s ⟨hok, hge, hlt⟩
    obtain ⟨houtcome, hnextCurrent, hnext⟩ :=
      nextOutcome_gold hsegment hgold hanswers hok (hlt.trans_le hwithin)
    rw [tokenStep]
    dsimp only
    rw [houtcome]
    rcases Nat.lt_or_ge (s.current + 1) (r.start + r.length) with hinside | hlast
    · have hup := @lt_nextOffset opts cs s.current
      have hdown := @nextOffset_le_of_not_space opts cs s.current _ (by omega) hr.final
      rw [hr.inside s.current hge hinside, if_neg (by simp), hnext.chars,
        if_pos (by omega)]
      exact .inr ⟨_, rfl, ⟨hnext, by omega, by omega⟩, by omega⟩
    · have heq : s.current = r.start + r.length - 1 := by omega
      have hnotSpace := hr.final
      rw [← heq] at hnotSpace
      rw [nextOffset_of_not_space hnotSpace] at hnextCurrent
      rw [heq, hr.outcome, if_pos hsplit]
      rw [← heq]
      exact .inl ⟨_, rfl, rfl, hnext, by dsimp only; omega⟩
  obtain rfl := heos
  exact ⟨st', hreturns, hok, hend⟩

/-- The loop over the tokens finds the tokens of the sentence. -/
theorem returns_sentence_gold {tokens : List TokenRange} (hne : tokens ≠ []) {position : ℕ}
    (htokens : opts.TokensAt cs gold position tokens) (found : List TokenRange)
    (hfew : found.length + tokens.length ≤ 400) {st : State} (h : opts.OnGold cs gold st)
    (hcurrent : st.current = position) :
    ∃ st', (Comp.loop opts.sentenceStep (st, found, false)).Returns (found ++ tokens, st') ∧
      opts.OnGold cs gold st' ∧ st'.current = endOf position tokens := by
  induction tokens generalizing position found st with
  | nil => exact absurd rfl hne
  | cons r rest ih =>
    obtain ⟨hr, hrest⟩ := htokens
    have hwithin := hr.within
    have hnonempty := hr.nonempty
    rw [List.length_cons] at hfew
    obtain ⟨st₁, hspaces, hok₁, hcurrent₁⟩ := returns_spaces_gold hsegment hgold hanswers found h
      (hcurrent ▸ hr.le) (by omega) (hcurrent ▸ hr.spaces) hr.first
    obtain ⟨st₂, htoken, hok₂, hcurrent₂⟩ := returns_token_gold hsegment hgold hanswers hok₁ hr
      hcurrent₁ (by split_ifs <;> simp)
    -- the step before the emergency limit
    have hstep : (opts.sentenceStep (st, found, false)).Returns
        (.next (st₂, found ++ [r], decide (rest = []))) := by
      have hemergency : opts.emergencySentenceSplit st.chars found = false := by
        rw [emergencySentenceSplit]
        simp only [Bool.or_eq_false_iff, Bool.and_eq_false_imp, decide_eq_false_iff_not,
          decide_eq_true_eq]
        exact ⟨⟨by omega, fun hmany => by omega⟩, fun hmany => by omega⟩
      rw [sentenceStep, hemergency, if_neg (by simp)]
      refine Comp.returns_bind.mpr ⟨st₁, hspaces, ?_⟩
      rw [hok₁.chars, if_neg (by omega), hcurrent₁, hr.url]
      refine Comp.returns_bind.mpr ⟨_, htoken, ?_⟩
      dsimp only
      rw [hcurrent₂, Nat.add_sub_cancel_left]
      apply Comp.returns_pure.mpr
      by_cases hlast : rest = [] <;> simp [hlast]
    by_cases hlast : rest = []
    · subst hlast
      refine ⟨st₂, Comp.returns_loop.mpr (.inr ⟨_, hstep, ?_⟩), hok₂, hcurrent₂⟩
      apply Comp.returns_loop.mpr
      left
      rw [sentenceStep]
      exact Comp.returns_pure.mpr rfl
    · obtain ⟨st', hreturns, hok', hcurrent'⟩ := ih hlast hrest (found ++ [r])
        (by rw [List.length_append, List.length_singleton]; omega) hok₂ hcurrent₂
      refine ⟨st', Comp.returns_loop.mpr (.inr ⟨_, hstep, ?_⟩), hok', ?_⟩
      · rw [decide_eq_false hlast]
        rwa [List.append_assoc, List.singleton_append] at hreturns
      · rw [hcurrent', endOf_cons]

/-! ### Calls of `next_sentence` -/

/-- A call returns the next sentence. -/
theorem returns_nextSentence_gold {tokens : List TokenRange} (hne : tokens ≠ [])
    (hfew : tokens.length ≤ 400) {st : State}
    (htokens : opts.TokensAt cs gold st.current tokens) (h : opts.BetweenGold cs gold st) :
    ∃ st', (opts.nextSentence st).Returns (some tokens, st') ∧ opts.BetweenGold cs gold st' ∧
      st'.current = endOf st.current tokens := by
  obtain ⟨st₁, hst₁⟩ : ∃ st₁, st₁ =
      if st.current = 0 then { st with networkIndex := 0, networkLength := 0 } else st := ⟨_, rfl⟩
  have hok : opts.OnGold cs gold st₁ := hst₁ ▸ h.onGold
  have hcurrent : st₁.current = st.current := by
    rw [hst₁]
    split_ifs <;> rfl
  obtain ⟨st', hloop, hok', hcurrent'⟩ := returns_sentence_gold hsegment hgold hanswers hne htokens
    [] (by rw [List.length_nil]; omega) hok hcurrent
  obtain ⟨hlt, hend⟩ := htokens.lt_endOf hne
  refine ⟨st', ?_, ⟨hok'.chars, fun hzero => ?_, fun _ => hok'⟩, hcurrent'⟩
  · rw [nextSentence, if_neg (by rw [h.chars]; omega)]
    refine Comp.returns_bind.mpr ⟨_, hst₁ ▸ hloop, ?_⟩
    dsimp only
    rw [List.nil_append, if_neg hne]
    exact Comp.returns_pure.mpr rfl
  · exact absurd hzero (by omega)

/-- Without another sentence, a call fails. -/
theorem returns_nextSentence_end {st : State} (h : opts.BetweenGold cs gold st)
    (hspaces : ∀ i, st.current ≤ i → i < cs.length → opts.isSpace cs i = true) :
    ∃ st', (opts.nextSentence st).Returns (none, st') := by
  rw [nextSentence]
  by_cases hend : st.current ≥ st.chars.length
  · exact ⟨st, by rw [if_pos hend]; exact Comp.returns_pure.mpr rfl⟩
  · rw [if_neg hend]
    rw [h.chars] at hend
    obtain ⟨st₁, hst₁⟩ : ∃ st₁, st₁ =
        if st.current = 0 then { st with networkIndex := 0, networkLength := 0 } else st := ⟨_, rfl⟩
    have hok : opts.OnGold cs gold st₁ := hst₁ ▸ h.onGold
    have hcurrent : st₁.current = st.current := by
      rw [hst₁]
      split_ifs <;> rfl
    obtain ⟨st₂, hloop, hok₂, hcurrent₂⟩ := returns_spaces_gold hsegment hgold hanswers [] hok
      (by omega) le_rfl (hcurrent ▸ hspaces) isSpace_length
    refine ⟨st₂, Comp.returns_bind.mpr ⟨([], st₂), ?_, Comp.returns_pure.mpr rfl⟩⟩
    apply Comp.returns_loop.mpr
    left
    rw [← hst₁, sentenceStep, if_neg (by simp [emergencySentenceSplit])]
    refine Comp.returns_bind.mpr ⟨st₂, hloop, ?_⟩
    rw [hok₂.chars, hcurrent₂, if_pos le_rfl]
    exact Comp.returns_pure.mpr rfl

/-- All calls return the sentences, one after the other. -/
theorem returns_sentences_gold {sentences : List (List TokenRange)} (found : List (List TokenRange))
    {st : State} (h : opts.BetweenGold cs gold st)
    (hsentences : opts.SentencesAt cs gold st.current sentences) :
    ∃ st', (Comp.loop (fun (st, sentences) => do
      let (tokens, st) ← opts.nextSentence st
      pure <|
        match tokens with
        | some tokens => LoopStep.next (st, sentences ++ [tokens])
        | none => LoopStep.done (sentences, st)) (st, found)).Returns (found ++ sentences, st') := by
  induction sentences generalizing found st with
  | nil =>
    obtain ⟨st', hcall⟩ := returns_nextSentence_end hsegment hgold hanswers h hsentences
    refine ⟨st', Comp.returns_loop.mpr (.inl (Comp.returns_bind.mpr ⟨_, hcall, ?_⟩))⟩
    rw [List.append_nil]
    exact Comp.returns_pure.mpr rfl
  | cons tokens rest ih =>
    obtain ⟨hne, hfew, htokens, hrest⟩ := hsentences
    obtain ⟨st₁, hcall, hbetween, hcurrent⟩ :=
      returns_nextSentence_gold hsegment hgold hanswers hne hfew htokens h
    obtain ⟨st', hcalls⟩ := ih (found ++ [tokens]) hbetween (hcurrent ▸ hrest)
    rw [List.append_assoc, List.singleton_append] at hcalls
    exact ⟨st', Comp.returns_loop.mpr (.inr ⟨_, Comp.returns_bind.mpr
      ⟨_, hcall, Comp.returns_pure.mpr rfl⟩, hcalls⟩)⟩

end Runs

end UDPipe.Tokenizer.Gru.Options
