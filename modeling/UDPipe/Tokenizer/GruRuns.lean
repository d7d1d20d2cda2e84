import UDPipe.Tokenizer.Gru
import Mathlib.Data.List.Pairwise

/-!
# The GRU tokenizer covers the text

Whatever the network answers, an outcome moves the position over one character or over
one run of spaces, because windows begin where the last one was cut. So the tokens and
the spaces between them follow each other from the beginning of the text to its end.
-/

namespace UDPipe.Tokenizer

/-- Different tokens are apart. -/
theorem Ordered.apart {count : ℕ} {ranges : List TokenRange} (h : Ordered count ranges)
    {r r' : TokenRange} (hr : r ∈ ranges) (hr' : r' ∈ ranges) (hne : r ≠ r') :
    r.start + r.length ≤ r'.start ∨ r'.start + r'.length ≤ r.start := by
  have : Std.Symm fun r r' : TokenRange =>
      r.start + r.length ≤ r'.start ∨ r'.start + r'.length ≤ r.start := ⟨fun _ _ h => h.symm⟩
  have hpairs : ranges.Pairwise fun r r' : TokenRange =>
      r.start + r.length ≤ r'.start ∨ r'.start + r'.length ≤ r.start :=
    h.disjoint.imp Or.inl
  exact hpairs.forall hr hr' hne

namespace Gru

open Utf8

namespace Options

variable {opts : Options} {cs : List Character}

/-! ### Offsets -/

/-- The next offset is further. -/
theorem lt_nextOffset (offset : ℕ) : offset < opts.nextOffset cs offset := by
  unfold nextOffset
  split <;> omega

/-- Without a space behind the character the next one follows. -/
theorem nextOffset_of_not_space {offset : ℕ} (h : opts.isSpace cs offset = false) :
    opts.nextOffset cs offset = offset + 1 := by
  rw [nextOffset, h, if_neg Bool.false_ne_true]

/-- The next offset is at most the end. -/
theorem nextOffset_le {offset : ℕ} (h : offset < cs.length) :
    opts.nextOffset cs offset ≤ cs.length := by
  have hrun : ((cs.drop (offset + 1)).takeWhile fun c => opts.tables.isSpace c.code).length ≤
      (cs.drop (offset + 1)).length := (List.takeWhile_sublist _).length_le
  rw [List.length_drop] at hrun
  unfold nextOffset
  split <;> omega

/-- A prefix of elements with a property ends before one without it. -/
private theorem any_getElem?_takeWhile {α : Type} (p : α → Bool) (l : List α) :
    (∀ k < (l.takeWhile p).length, l[k]?.any p = true) ∧
      l[(l.takeWhile p).length]?.any p = false := by
  induction l with
  | nil => exact ⟨fun k hk => by simp at hk, rfl⟩
  | cons c l ih =>
    by_cases hc : p c = true
    · rw [List.takeWhile_cons_of_pos hc]
      refine ⟨fun k hk => ?_, ih.2⟩
      cases k with
      | zero => exact hc
      | succ k => exact ih.1 k (Nat.lt_of_succ_lt_succ hk)
    · rw [List.takeWhile_cons_of_neg hc]
      exact ⟨fun k hk => by simp at hk, by simpa using hc⟩

/-- A space is a character that is one. -/
theorem isSpace_add (offset k : ℕ) : opts.isSpace cs (offset + 1 + k) =
    (cs.drop (offset + 1))[k]?.any fun c => opts.tables.isSpace c.code := by
  rw [isSpace, List.getElem?_drop]

/-- A run of spaces consists of spaces. -/
theorem isSpace_of_lt_nextOffset {offset i : ℕ} (h : opts.isSpace cs offset = true)
    (hle : offset ≤ i) (hlt : i < opts.nextOffset cs offset) : opts.isSpace cs i = true := by
  rcases Nat.eq_or_lt_of_le hle with rfl | hgt
  · exact h
  · obtain ⟨k, rfl⟩ := Nat.exists_eq_add_of_le hgt
    rw [nextOffset, if_pos h] at hlt
    rw [isSpace_add]
    exact (any_getElem?_takeWhile _ _).1 k (by omega)

/-- A run of spaces is not followed by a space. -/
theorem not_isSpace_nextOffset {offset : ℕ} (h : opts.isSpace cs offset = true) :
    opts.isSpace cs (opts.nextOffset cs offset) = false := by
  rw [nextOffset, if_pos h, isSpace_add]
  exact (any_getElem?_takeWhile _ _).2

/-- The offsets of a window follow each other. -/
theorem windowOffsets_next (left offset : ℕ) :
    (opts.windowOffsets cs left offset)[0]? = some offset ∧
    ∀ k, k + 1 < (opts.windowOffsets cs left offset).length →
      ∃ a, (opts.windowOffsets cs left offset)[k]? = some a ∧ a < cs.length ∧
        (opts.windowOffsets cs left offset)[k + 1]? = some (opts.nextOffset cs a) := by
  induction left generalizing offset with
  | zero =>
    refine ⟨rfl, fun k hk => ?_⟩
    simp [windowOffsets] at hk
  | succ left ih =>
    rw [windowOffsets]
    split
    · rename_i hlt
      obtain ⟨hfirst, hnext⟩ := ih (opts.nextOffset cs offset)
      refine ⟨rfl, fun k hk => ?_⟩
      cases k with
      | zero => exact ⟨offset, rfl, hlt, hfirst⟩
      | succ k =>
        rw [List.length_cons] at hk
        exact hnext k (by omega)
    · refine ⟨rfl, fun k hk => ?_⟩
      simp at hk

/-- A window within the text is not empty. -/
theorem two_le_length_windowOffsets {left offset : ℕ} (hleft : 1 ≤ left)
    (hlt : offset < cs.length) : 2 ≤ (opts.windowOffsets cs left offset).length := by
  obtain ⟨left, rfl⟩ : ∃ k, left = k + 1 := ⟨left - 1, by omega⟩
  have hrest : (opts.windowOffsets cs left (opts.nextOffset cs offset)) ≠ [] := by
    intro hnil
    have hfirst : (opts.windowOffsets cs left (opts.nextOffset cs offset))[0]? = some _ :=
      (windowOffsets_next left _).1
    rw [hnil] at hfirst
    cases hfirst
  have hpos := List.length_pos_of_ne_nil hrest
  rw [windowOffsets, if_pos hlt, List.length_cons]
  omega

/-- Cutting back stops in the second half. -/
theorem cutBack_bounds (outcomes : List Outcome) (half length : ℕ) (h : half ≤ length) :
    half ≤ cutBack outcomes half length ∧ cutBack outcomes half length ≤ length := by
  induction length with
  | zero => simpa [cutBack] using h
  | succ length ih =>
    rw [cutBack]
    split
    · rename_i hgt
      split
      · omega
      · have := ih (by omega)
        omega
    · omega

/-- At least one character is used, and no more than there are. -/
theorem usedLength_bounds (outcomes : List Outcome) {length : ℕ} (h : 1 ≤ length) :
    1 ≤ opts.usedLength outcomes length ∧ opts.usedLength outcomes length ≤ length := by
  unfold usedLength
  split
  · rename_i hfull
    have := cutBack_bounds outcomes (opts.segment / 2) (length - 5) (by omega)
    omega
  · omega

/-! ### Outcomes -/

/-- The part of the window that is left: its offsets follow each other. -/
def Follows (opts : Options) (st : State) : Prop :=
  ∀ k, st.networkIndex ≤ k → k < st.networkLength → ∃ a, st.networkOffsets[k]? = some a ∧
    a < st.chars.length ∧ st.networkOffsets[k + 1]? = some (opts.nextOffset st.chars a)

/-- The window goes on where the tokenizer is. -/
structure WindowOk (opts : Options) (st : State) : Prop where
  follows : opts.Follows st
  position : st.networkIndex < st.networkLength →
    st.networkOffsets[st.networkIndex]? = some st.current

/-- A new window begins where the tokenizer is. -/
theorem windowOk_computeWindow {st : State} (hsegment : 1 ≤ opts.segment)
    (hlt : st.current < st.chars.length) :
    opts.WindowOk (opts.computeWindow st) ∧ 0 < (opts.computeWindow st).networkLength := by
  obtain ⟨hfirst, hnext⟩ := @windowOffsets_next opts st.chars opts.segment st.current
  have htwo := @two_le_length_windowOffsets opts st.chars _ _ hsegment hlt
  obtain ⟨outcomes, houtcomes⟩ : ∃ outcomes, (opts.computeWindow st).networkLength =
      opts.usedLength outcomes ((opts.windowOffsets st.chars opts.segment st.current).length - 1) :=
    ⟨_, rfl⟩
  have hused := @usedLength_bounds opts outcomes
    ((opts.windowOffsets st.chars opts.segment st.current).length - 1) (by omega)
  refine ⟨⟨fun k _ hk => ?_, fun _ => hfirst⟩, by omega⟩
  exact hnext k (by omega)

/-- An outcome moves the position over a character or a run of spaces. -/
theorem nextOutcome_spec {st : State} (hsegment : 1 ≤ opts.segment) (h : opts.WindowOk st)
    (hlt : st.current < st.chars.length) :
    (opts.nextOutcome st).2.chars = st.chars ∧
      (opts.nextOutcome st).2.current = opts.nextOffset st.chars st.current ∧
      opts.WindowOk (opts.nextOutcome st).2 := by
  obtain ⟨st', hst', hchars, hcurrent, hok, hin⟩ : ∃ st' : State,
      st' = (if st.networkIndex ≥ st.networkLength then opts.computeWindow st else st) ∧
        st'.chars = st.chars ∧ st'.current = st.current ∧ opts.WindowOk st' ∧
        st'.networkIndex < st'.networkLength := by
    refine ⟨_, rfl, ?_⟩
    split
    · obtain ⟨hok, hpos⟩ := windowOk_computeWindow hsegment hlt
      exact ⟨rfl, rfl, hok, hpos⟩
    · exact ⟨rfl, rfl, h, by omega⟩
  have hposition := hok.position hin
  obtain ⟨a, ha, _, hnext⟩ := hok.follows st'.networkIndex le_rfl hin
  obtain rfl : st'.current = a := Option.some.inj (hposition.symm.trans ha)
  rw [hchars, hcurrent] at hnext
  rw [nextOutcome, ← hst']
  refine ⟨hchars, ?_, ?_, ?_⟩
  · simp [List.getD, hnext]
  · exact fun k hk hlt => hok.follows k (by simp at hk; omega) hlt
  · intro _
    simp [List.getD, hnext]

/-! ### Covering -/

/-- Up to a position, the tokens follow each other, begin with characters that are not
spaces, and have all such characters. -/
structure Covered (opts : Options) (cs : List Character) (tokens : List TokenRange)
    (position : ℕ) : Prop where
  ordered : Ordered position tokens
  starts : ∀ r ∈ tokens, opts.isSpace cs r.start = false
  covers : ∀ i < position, opts.isSpace cs i = false →
    ∃ r ∈ tokens, r.start ≤ i ∧ i < r.start + r.length

/-- Nothing is covered before the beginning. -/
theorem covered_nil : opts.Covered cs [] 0 where
  ordered := ⟨List.forall_mem_nil _, List.Pairwise.nil⟩
  starts := List.forall_mem_nil _
  covers i hi := absurd hi (Nat.not_lt_zero i)

variable {tokens : List TokenRange} {position stop : ℕ}

/-- Spaces need no token. -/
theorem Covered.skip (h : opts.Covered cs tokens position) (hle : position ≤ stop)
    (hspaces : ∀ i, position ≤ i → i < stop → opts.isSpace cs i = true) :
    opts.Covered cs tokens stop where
  ordered := by
    refine ⟨fun r hr => ?_, h.ordered.disjoint⟩
    have := h.ordered.within r hr
    omega
  starts := h.starts
  covers := by
    intro i hi hspace
    rcases Nat.lt_or_ge i position with hlt | hge
    · exact h.covers i hlt hspace
    · rw [hspaces i hge hi] at hspace
      cases hspace

/-- A token goes from one position to the next. -/
theorem Covered.token (h : opts.Covered cs tokens position) (hlt : position < stop)
    (hstart : opts.isSpace cs position = false) :
    opts.Covered cs (tokens ++ [⟨position, stop - position⟩]) stop where
  ordered := by
    constructor
    · intro r hr
      rcases List.mem_append.mp hr with hr | hr
      · have := h.ordered.within r hr
        omega
      · obtain rfl := List.mem_singleton.mp hr
        dsimp only
        omega
    · refine List.pairwise_append.mpr ⟨h.ordered.disjoint, List.pairwise_singleton _ _, ?_⟩
      intro r hr r' hr'
      obtain rfl := List.mem_singleton.mp hr'
      exact (h.ordered.within r hr).2
  starts := by
    intro r hr
    rcases List.mem_append.mp hr with hr | hr
    · exact h.starts r hr
    · obtain rfl := List.mem_singleton.mp hr
      exact hstart
  covers := by
    intro i hi hspace
    rcases Nat.lt_or_ge i position with hlt' | hge
    · obtain ⟨r, hr, hin⟩ := h.covers i hlt' hspace
      exact ⟨r, List.mem_append_left _ hr, hin⟩
    · refine ⟨_, List.mem_append_right _ (List.mem_singleton.mpr rfl), hge, ?_⟩
      dsimp only
      omega

/-! ### The loops of `next_sentence` -/

/-- URLs and emails are found where they begin and consist of characters that are not spaces. -/
def UrlsOk (opts : Options) : Prop :=
  ∀ cs current stop, current < cs.length → opts.urlEmail cs current = some stop →
    current < stop ∧ stop ≤ cs.length ∧
      ∀ i, current ≤ i → i < stop → opts.isSpace cs i = false

/-- The invariant of the tokenizer within a text, with the tokens found so far. -/
structure Ok (opts : Options) (cs : List Character) (tokens : List TokenRange) (st : State) :
    Prop where
  chars : st.chars = cs
  window : opts.WindowOk st
  current_le : st.current ≤ cs.length
  covered : opts.Covered cs tokens st.current

/-- The loop over the spaces goes to a character that is not a space or to the end. -/
theorem returns_spaces (hsegment : 1 ≤ opts.segment) (found : List TokenRange) {st : State}
    (h : opts.Ok cs tokens st) : ∃ st', (Comp.loopOf (opts.spaceStep found) st).Returns st' ∧
      opts.Ok cs tokens st' ∧ st.current ≤ st'.current ∧
        (st'.current < cs.length → opts.isSpace cs st'.current = false) := by
  refine Comp.loopOf_total (fun st' => opts.Ok cs tokens st' ∧ st.current ≤ st'.current) _
    (fun st' => cs.length - st'.current) ?_ ⟨h, le_rfl⟩
  rintro st' ⟨hok, hle⟩
  rw [spaceStep, hok.chars]
  by_cases hspace : st'.current < cs.length ∧ opts.isSpace cs st'.current = true
  · rw [if_pos hspace]
    obtain ⟨hchars, hcurrent, hwindow⟩ :=
      nextOutcome_spec hsegment hok.window (hok.chars.symm ▸ hspace.1)
    rw [hok.chars] at hchars hcurrent
    have hlt := @lt_nextOffset opts cs st'.current
    have hnext : opts.Ok cs tokens (opts.nextOutcome st').2 := by
      refine ⟨hchars, hwindow, ?_, ?_⟩
      · rw [hcurrent]
        exact nextOffset_le hspace.1
      · rw [hcurrent]
        exact hok.covered.skip hlt.le fun i hge hi => isSpace_of_lt_nextOffset hspace.2 hge hi
    have hstops : opts.isSpace cs (opts.nextOutcome st').2.current = false := by
      rw [hcurrent]
      exact not_isSpace_nextOffset hspace.2
    dsimp only
    split
    · exact .inl ⟨_, rfl, hnext, by omega, fun _ => hstops⟩
    · exact .inr ⟨_, rfl, ⟨hnext, by omega⟩, by omega⟩
  · rw [if_neg hspace]
    refine .inl ⟨_, rfl, hok, hle, fun hlt => ?_⟩
    simpa [hlt] using hspace

/-- The loop over the outcomes of a URL ends where the URL does. -/
theorem returns_url (found : List TokenRange) {st : State} {stop : ℕ} (hwindow : opts.WindowOk st)
    (hle : st.current ≤ stop)
    (hurl : ∀ i, st.current ≤ i → i < stop → opts.isSpace st.chars i = false) :
    ∃ out, (Comp.loopOf (urlStep found) ({ st with current := stop }, false)).Returns out ∧
      opts.WindowOk out.1 ∧ out.1.chars = st.chars ∧ out.1.current = stop := by
  refine Comp.loopOf_total (fun s => s.1.chars = st.chars ∧ s.1.current = stop ∧
      opts.Follows s.1 ∧ (s.1.networkIndex < s.1.networkLength →
        ∃ a, s.1.networkOffsets[s.1.networkIndex]? = some a ∧ st.current ≤ a ∧ a ≤ stop)) _
    (fun s => s.1.networkLength - s.1.networkIndex) ?_ ⟨rfl, rfl, hwindow.follows, fun hin =>
      ⟨st.current, hwindow.position hin, le_rfl, hle⟩⟩
  rintro ⟨s, eos⟩ ⟨hchars, hcurrent, hfollows, hposition⟩
  dsimp only at hchars hcurrent hfollows hposition
  rw [urlStep]
  by_cases hin : s.networkIndex < s.networkLength ∧
      s.networkOffsets.getD s.networkIndex 0 < s.current
  · rw [if_pos hin]
    obtain ⟨a, ha, hge, _⟩ := hposition hin.1
    obtain ⟨b, hb, _, hnext⟩ := hfollows s.networkIndex le_rfl hin.1
    obtain rfl : b = a := Option.some.inj (hb.symm.trans ha)
    have hbefore : b < stop := by
      have := hin.2
      simp only [List.getD, hb, Option.getD_some] at this
      omega
    rw [hchars, nextOffset_of_not_space (hurl b hge hbefore)] at hnext
    refine .inr ⟨_, rfl, ⟨hchars, hcurrent, fun k hk hlt => ?_, fun _ => ?_⟩, ?_⟩
    · exact hfollows k (by dsimp only at hk; omega) hlt
    · exact ⟨b + 1, hnext, by omega, by omega⟩
    · dsimp only
      omega
  · rw [if_neg hin]
    refine .inl ⟨_, rfl, ⟨hfollows, fun hlt => ?_⟩, hchars, hcurrent⟩
    obtain ⟨a, ha, _, hstop⟩ := hposition hlt
    have hnot : ¬ a < s.current := by
      intro hbefore
      apply hin
      simp only [List.getD, ha, Option.getD_some]
      exact ⟨hlt, hbefore⟩
    have heq : a = s.current := by omega
    rw [← heq]
    exact ha

/-- The loop over a token ends after it. -/
theorem returns_token (hsegment : 1 ≤ opts.segment) {st : State} (hwindow : opts.WindowOk st)
    (hlt : st.current < st.chars.length) :
    ∃ out, (Comp.loopOf opts.tokenStep st).Returns out ∧ opts.WindowOk out.1 ∧
      out.1.chars = st.chars ∧ st.current < out.1.current ∧
        out.1.current ≤ st.chars.length := by
  refine Comp.loopOf_total (fun s => opts.WindowOk s ∧ s.chars = st.chars ∧
      st.current ≤ s.current ∧ s.current < st.chars.length) _
    (fun s => st.chars.length - s.current) ?_ ⟨hwindow, rfl, le_rfl, hlt⟩
  rintro s ⟨hok, hchars, hle, hin⟩
  obtain ⟨hchars', hcurrent, hok'⟩ := nextOutcome_spec hsegment hok (hchars ▸ hin)
  have hup := @lt_nextOffset opts s.chars s.current
  have hwithin := @nextOffset_le opts s.chars s.current (hchars ▸ hin)
  rw [hchars] at hchars' hup hwithin hcurrent
  rw [tokenStep]
  dsimp only
  split
  · exact .inl ⟨_, rfl, hok', hchars', by dsimp only; omega, by dsimp only; omega⟩
  · split
    · rename_i hmore
      rw [hchars'] at hmore
      exact .inr ⟨_, rfl, ⟨hok', hchars', by omega, hmore⟩, by omega⟩
    · exact .inl ⟨_, rfl, hok', hchars', by dsimp only; omega, by dsimp only; omega⟩

/-- The loop over the tokens of a sentence covers the text up to where it stops, and it
stops without tokens at the end of the text only. -/
theorem returns_sentence (hsegment : 1 ≤ opts.segment) (hurls : opts.UrlsOk)
    (before : List TokenRange) {st : State} (h : opts.Ok cs before st) :
    ∃ out, (Comp.loop opts.sentenceStep (st, [], false)).Returns out ∧
      opts.Ok cs (before ++ out.1) out.2 ∧ (out.1 = [] → cs.length ≤ out.2.current) ∧
        (out.1 ≠ [] → st.current < out.2.current) := by
  refine Comp.loop_total (fun s => opts.Ok cs (before ++ s.2.1) s.1 ∧
      (s.2.2 = true → s.2.1 ≠ []) ∧ st.current ≤ s.1.current ∧
        (s.2.1 ≠ [] → st.current < s.1.current)) _
    (fun s => cs.length - s.1.current) ?_
    ⟨by simpa using h, by simp, le_rfl, fun hf => absurd rfl hf⟩
  rintro ⟨s, tokens, eos⟩ ⟨hok, heos, hle, hprogress⟩
  dsimp only at hok heos hle hprogress
  rw [sentenceStep]
  by_cases hends : (eos || opts.emergencySentenceSplit s.chars tokens) = true
  · rw [if_pos hends]
    have hne : tokens ≠ [] := by
      rcases Bool.or_eq_true_iff.mp hends with hends | hends
      · exact heos hends
      · rintro rfl
        simp [emergencySentenceSplit] at hends
    exact .inl ⟨_, Comp.returns_pure.mpr rfl, hok, fun hnil => absurd hnil hne, hprogress⟩
  · rw [if_neg hends]
    obtain ⟨s₁, hspaces, hok₁, hle₁, hstart⟩ := returns_spaces hsegment tokens hok
    by_cases hend : s₁.chars.length ≤ s₁.current
    · refine .inl ⟨(tokens, s₁), Comp.returns_bind.mpr ⟨s₁, hspaces, ?_⟩, hok₁, ?_, ?_⟩
      · rw [if_pos hend]
        exact Comp.returns_pure.mpr rfl
      · intro _
        exact hok₁.chars ▸ hend
      · intro hne
        have := hprogress hne
        dsimp only
        omega
    · have hlt : s₁.current < s₁.chars.length := by omega
      have hchars := hok₁.chars
      have hnotSpace := hstart (hchars ▸ hlt)
      refine .inr ?_
      cases hfound : opts.urlEmail s₁.chars s₁.current with
      | some stop =>
        obtain ⟨hup, hwithin, hurl⟩ := hurls _ _ _ hlt hfound
        obtain ⟨⟨s₂, eos₂⟩, hloop, hwindow, hchars₂, hcurrent⟩ := returns_url
          (tokens ++ [⟨s₁.current, stop - s₁.current⟩]) hok₁.window hup.le hurl
        dsimp only at hwindow hchars₂ hcurrent
        refine ⟨(s₂, tokens ++ [⟨s₁.current, stop - s₁.current⟩], eos₂),
          Comp.returns_bind.mpr ⟨s₁, hspaces, ?_⟩, ⟨?_, ?_, ?_, ?_⟩, ?_⟩
        · rw [if_neg hend, hfound]
          exact Comp.returns_bind.mpr ⟨_, hloop, Comp.returns_pure.mpr rfl⟩
        · refine ⟨hchars₂.trans hchars, hwindow, by rw [hcurrent, ← hchars]; exact hwithin, ?_⟩
          dsimp only
          rw [← List.append_assoc, hcurrent]
          exact hok₁.covered.token hup hnotSpace
        · simp
        · dsimp only
          omega
        · intro _
          dsimp only
          omega
        · dsimp only
          rw [hchars] at hlt
          omega
      | none =>
        obtain ⟨⟨s₂, eos₂⟩, hloop, hwindow, hchars₂, hup, hwithin⟩ :=
          returns_token hsegment hok₁.window hlt
        dsimp only at hwindow hchars₂ hup hwithin
        refine ⟨(s₂, tokens ++ [⟨s₁.current, s₂.current - s₁.current⟩], eos₂),
          Comp.returns_bind.mpr ⟨s₁, hspaces, ?_⟩, ⟨?_, ?_, ?_, ?_⟩, ?_⟩
        · rw [if_neg hend, hfound]
          exact Comp.returns_bind.mpr ⟨_, hloop, Comp.returns_pure.mpr rfl⟩
        · refine ⟨hchars₂.trans hchars, hwindow, hchars ▸ hwithin, ?_⟩
          dsimp only
          rw [← List.append_assoc]
          exact hok₁.covered.token hup hnotSpace
        · simp
        · dsimp only
          omega
        · intro _
          dsimp only
          omega
        · dsimp only
          rw [hchars] at hlt
          omega

/-! ### Calls of `next_sentence` -/

/-- The invariant between the calls: the window may be out of date at the beginning. -/
structure Between (opts : Options) (cs : List Character) (tokens : List TokenRange) (st : State) :
    Prop where
  chars : st.chars = cs
  window : st.current ≠ 0 → opts.WindowOk st
  current_le : st.current ≤ cs.length
  covered : opts.Covered cs tokens st.current

/-- A call returns a sentence and goes on, or it is at the end of the text. -/
theorem returns_nextSentence (hsegment : 1 ≤ opts.segment) (hurls : opts.UrlsOk)
    {before : List TokenRange} {st : State} (h : opts.Between cs before st) :
    ∃ result st', (opts.nextSentence st).Returns (result, st') ∧
      match result with
      | some tokens => opts.Between cs (before ++ tokens) st' ∧ tokens ≠ [] ∧
          st.current < st'.current
      | none => opts.Covered cs before cs.length := by
  rw [nextSentence]
  by_cases hend : st.current ≥ st.chars.length
  · rw [if_pos hend]
    refine ⟨none, st, Comp.returns_pure.mpr rfl, ?_⟩
    have heq : st.current = cs.length := by
      have := h.current_le
      have := h.chars ▸ hend
      omega
    exact heq ▸ h.covered
  · rw [if_neg hend]
    obtain ⟨st₁, hst₁⟩ : ∃ st₁, st₁ =
        if st.current = 0 then { st with networkIndex := 0, networkLength := 0 } else st := ⟨_, rfl⟩
    have hok : opts.Ok cs before st₁ ∧ st₁.current = st.current := by
      rw [hst₁]
      split
      · refine ⟨⟨h.chars, ⟨fun k _ hk => ?_, fun hk => ?_⟩, h.current_le, h.covered⟩, rfl⟩
        · exact absurd hk (Nat.not_lt_zero k)
        · exact absurd hk (Nat.lt_irrefl 0)
      · rename_i hne
        exact ⟨⟨h.chars, h.window hne, h.current_le, h.covered⟩, rfl⟩
    obtain ⟨⟨tokens, st'⟩, hloop, hok', hnone, hsome⟩ :=
      returns_sentence hsegment hurls before hok.1
    dsimp only at hok' hnone hsome
    refine ⟨if tokens = [] then none else some tokens, st',
      Comp.returns_bind.mpr ⟨_, hst₁ ▸ hloop, Comp.returns_pure.mpr rfl⟩, ?_⟩
    by_cases htokens : tokens = []
    · rw [if_pos htokens]
      have heq : st'.current = cs.length := le_antisymm hok'.current_le (hnone htokens)
      have hcovered := hok'.covered
      rw [htokens, List.append_nil, heq] at hcovered
      exact hcovered
    · rw [if_neg htokens]
      have hlt := hsome htokens
      rw [hok.2] at hlt
      exact ⟨⟨hok'.chars, fun _ => hok'.window, hok'.current_le, hok'.covered⟩, htokens, hlt⟩

/-- Successive calls end, and the tokens of their sentences follow each other, begin with
characters that are not spaces and have every such character exactly once. -/
theorem sentences_terminate (hsegment : 1 ≤ opts.segment) (hurls : opts.UrlsOk) (text : Bytes)
    (st : State) : ∃ sentences st', (opts.sentences (setText text st)).Returns (sentences, st') ∧
      Ordered (chars text).length sentences.flatten ∧
      (∀ r ∈ sentences.flatten, ∀ c ∈ (chars text)[r.start]?,
        opts.tables.isSpace c.code = false) ∧
      ∀ i, ∀ c ∈ (chars text)[i]?, opts.tables.isSpace c.code = false →
        ∃! r, r ∈ sentences.flatten ∧ r.start ≤ i ∧ i < r.start + r.length := by
  have hbegin : opts.Between (chars text) [] (setText text st) :=
    ⟨rfl, fun hne => absurd rfl hne, Nat.zero_le _, covered_nil⟩
  obtain ⟨⟨sentences, st'⟩, hcalls, hcovered⟩ : ∃ out,
      (opts.sentences (setText text st)).Returns out ∧
        opts.Covered (chars text) out.1.flatten (chars text).length := by
    refine Comp.loop_total (fun s => opts.Between (chars text) s.2.flatten s.1) _
      (fun s => (chars text).length - s.1.current) ?_ hbegin
    rintro ⟨s, sentences⟩ hbetween
    obtain ⟨result, s', hcall, hresult⟩ := returns_nextSentence hsegment hurls hbetween
    cases result with
    | none =>
      exact .inl ⟨(sentences, s'), Comp.returns_bind.mpr ⟨_, hcall, Comp.returns_pure.mpr rfl⟩,
        hresult⟩
    | some tokens =>
      obtain ⟨hnext, _, hlt⟩ := hresult
      refine .inr ⟨(s', sentences ++ [tokens]),
        Comp.returns_bind.mpr ⟨_, hcall, Comp.returns_pure.mpr rfl⟩, ?_, ?_⟩
      · simpa using hnext
      · have hle := hnext.current_le
        dsimp only at hlt hle ⊢
        omega
  have hspace : ∀ i, ∀ c ∈ (chars text)[i]?,
      opts.isSpace (chars text) i = opts.tables.isSpace c.code := by
    intro i c hc
    rw [isSpace, Option.mem_def.mp hc, Option.any_some]
  refine ⟨sentences, st', hcalls, hcovered.ordered, ?_, ?_⟩
  · intro r hr c hc
    rw [← hspace r.start c hc]
    exact hcovered.starts r hr
  · intro i c hc hnot
    have hlt : i < (chars text).length := (List.getElem?_eq_some_iff.mp hc).1
    rw [← hspace i c hc] at hnot
    obtain ⟨r, hr, hin⟩ := hcovered.covers i hlt hnot
    refine ⟨r, ⟨hr, hin⟩, ?_⟩
    rintro r' ⟨hr', hin'⟩
    by_contra hne
    rcases hcovered.ordered.apart hr' hr hne with h | h <;> omega

/-- A tokenizer with windows of two characters that splits at the end of every window. -/
def pairOptions : Options where
  tables := asciiTables
  isPunctuation _ := false
  isOtherPunctuation _ := false
  segment := 2
  allowSpaces := false
  urlEmail _ _ := none
  classify _ _ i := if i = 1 then .endOfToken else .noSplit

/-- A tokenizer for pairs of characters. -/
theorem sentences_terminate_sample : ∃ sentences st',
    (pairOptions.sentences (setText (bytes "abc d") {})).Returns (sentences, st') ∧
      Ordered (chars (bytes "abc d")).length sentences.flatten ∧
      (∀ r ∈ sentences.flatten, ∀ c ∈ (chars (bytes "abc d"))[r.start]?,
        pairOptions.tables.isSpace c.code = false) ∧
      ∀ i, ∀ c ∈ (chars (bytes "abc d"))[i]?, pairOptions.tables.isSpace c.code = false →
        ∃! r, r ∈ sentences.flatten ∧ r.start ≤ i ∧ i < r.start + r.length :=
  sentences_terminate (by decide) (fun _ _ _ _ h => by cases h) (bytes "abc d") {}

end Options

end Gru

end UDPipe.Tokenizer
