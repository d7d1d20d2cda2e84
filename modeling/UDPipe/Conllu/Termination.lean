import UDPipe.Conllu.Lines

/-!
# Termination of the CoNLL-U reader

A pass of the line loop shortens the text except at a CR that no LF follows.
There a call that has read no word yet repeats the same pass forever, so the
reader ends on exactly the texts without such a CR.
-/

namespace UDPipe.Conllu

/-! ### Errors are never empty -/

/-- Checks with messages give an error with a message. -/
private theorem firstError_ne_nil {row : Row} {first last : ℕ}
    {check : ℕ → Bytes → Bytes → Option Bytes}
    (hcheck : ∀ i column token, check i column token ≠ some []) :
    row.firstError first last check ≠ some [] := by
  intro h
  obtain ⟨⟨⟨column, token⟩, i⟩, _, hsome⟩ := List.exists_of_findSome?_eq_some h
  exact hcheck i column token hsome

/-- An error of a multiword token has a message. -/
private theorem handleMultiwordToken_ne_nil {version : ℕ} {line : Bytes} {row : Row}
    {st : LineState} : handleMultiwordToken version line row st ≠ .error [] := by
  have hcheck : ∀ i column token, checkMultiwordColumn version line i column token ≠ some [] := by
    intro i column token
    unfold checkMultiwordColumn
    split <;> split <;> simp
  intro h
  unfold handleMultiwordToken at h
  dsimp only at h
  split at h
  · split at h
    · rename_i hfirst
      cases h
      exact parseInt_error_ne_nil hfirst rfl
    · split at h
      · rename_i hlast
        cases h
        exact parseInt_error_ne_nil hlast rfl
      · split at h
        · simp at h
        · split at h
          · simp at h
          · split at h
            · simp at h
            · split at h
              · rename_i herror
                cases h
                exact firstError_ne_nil hcheck herror
              · cases h
  · simp at h

/-- An error of an empty node has a message. -/
private theorem handleEmptyNode_ne_nil {line : Bytes} {row : Row} {st : LineState} :
    handleEmptyNode line row st ≠ .error [] := by
  have hcheck : ∀ i column token, checkEmptyNodeColumn line i column token ≠ some [] := by
    intro i column token
    unfold checkEmptyNodeColumn
    split <;> simp
  intro h
  unfold handleEmptyNode at h
  dsimp only at h
  split at h
  · split at h
    · rename_i hfirst
      cases h
      exact parseInt_error_ne_nil hfirst rfl
    · split at h
      · rename_i hsecond
        cases h
        exact parseInt_error_ne_nil hsecond rfl
      · split at h
        · simp at h
        · split at h
          · simp at h
          · split at h
            · rename_i herror
              cases h
              exact firstError_ne_nil hcheck herror
            · cases h
  · simp at h

/-- An error of a head has a message. -/
private theorem parseHead_ne_nil {row : Row} : parseHead row ≠ .error [] := by
  intro h
  unfold parseHead at h
  split at h
  · cases h
  · split at h
    · rename_i herror
      cases h
      exact parseInt_error_ne_nil herror rfl
    · split at h
      · simp at h
      · cases h

/-- An error of a word has a message. -/
private theorem handleWord_ne_nil {line : Bytes} {row : Row} {st : LineState} :
    handleWord line row st ≠ .error [] := by
  intro h
  unfold handleWord at h
  split at h
  · rename_i hid
    cases h
    exact parseInt_error_ne_nil hid rfl
  · split at h
    · simp at h
    · split at h
      · rename_i hhead
        cases h
        exact parseHead_ne_nil hhead
      · cases h

/-- A line that is not accepted leaves a nonempty error. -/
theorem handleLine_error_ne_nil {version : ℕ} {line error : Bytes} {st : LineState}
    (h : handleLine version line st = .error error) : error ≠ [] := by
  rintro rfl
  have hcheck : ∀ i column token, checkColumn version line i column token ≠ some [] := by
    intro i column token
    unfold checkColumn
    split
    · simp
    · split <;> simp
  unfold handleLine at h
  split at h
  · split at h <;> cases h
  · unfold handleRow at h
    split at h
    · simp at h
    · split at h
      · rename_i herror
        cases h
        exact firstError_ne_nil hcheck herror
      · split at h
        · exact handleMultiwordToken_ne_nil h
        · split at h
          · exact handleEmptyNode_ne_nil h
          · exact handleWord_ne_nil h

/-! ### The end of a call -/

/-- Linking heads keeps the number of words. -/
theorem linkHeads_length {indices : List ℕ} {words words' : List Word}
    (h : linkHeads indices words = .ok words') : words'.length = words.length := by
  induction indices generalizing words with
  | nil =>
    cases h
    rfl
  | cons i indices ih =>
    rw [linkHeads] at h
    split at h
    · cases h
      rfl
    · split at h
      · split at h
        · cases h
        · simpa using ih h
      · exact ih h

/-- An error of linking has a message. -/
private theorem linkHeads_error_ne_nil {indices : List ℕ} {words words' : List Word}
    {error : Bytes} (h : linkHeads indices words = .error (error, words')) : error ≠ [] := by
  induction indices generalizing words with
  | nil => cases h
  | cons i indices ih =>
    rw [linkHeads] at h
    split at h
    · cases h
    · split at h
      · split at h
        · cases h
          simp
        · exact ih h
      · exact ih h

/-- A sentence that ends without an error is returned if it has a word. -/
theorem returned_finish {text : Bytes} {st : LineState} (h : (finish text st).error = []) :
    (finish text st).returned = !st.sentence.isEmpty := by
  unfold finish at h ⊢
  dsimp only at h ⊢
  split
  · rename_i hmissing
    simp [hmissing] at h
  · rename_i hmissing
    rw [if_neg hmissing] at h
    cases hlink : linkHeads (List.range st.sentence.words.length) st.sentence.words with
    | ok words => simp [Sentence.isEmpty, linkHeads_length hlink]
    | error e =>
      obtain ⟨error, words⟩ := e
      rw [hlink] at h
      exact absurd h (linkHeads_error_ne_nil hlink)

/-- At the end of a sentence the rest of the text is left. -/
@[simp] theorem state_finish (text : Bytes) (st : LineState) : (finish text st).state = text := by
  unfold finish
  dsimp only
  split
  · rfl
  · split <;> rfl

/-! ### Progress of a call -/

/-- What one pass does: it ends the call on the empty text or at an empty line
after a word, it ends the call with an error after a nonempty line, or it goes on. -/
theorem lineStep_cases (version : ℕ) (text : Bytes) (st : LineState) :
    (text = [] ∧ lineStep version (text, st) = .done (finish [] st)) ∨
    (text ≠ [] ∧ (readLine text).1 = [] ∧ st.sentence.isEmpty = true ∧
      lineStep version (text, st) = .next ((readLine text).2, st)) ∨
    (text ≠ [] ∧ (readLine text).1 = [] ∧ st.sentence.isEmpty = false ∧
      lineStep version (text, st) = .done (finish (readLine text).2 st)) ∨
    (text ≠ [] ∧ (readLine text).1 ≠ [] ∧
      ((∃ error, handleLine version (readLine text).1 st = .error error ∧
          lineStep version (text, st) = .done ⟨false, st.sentence, error, (readLine text).2⟩) ∨
        ∃ st', handleLine version (readLine text).1 st = .ok st' ∧
          lineStep version (text, st) = .next ((readLine text).2, st'))) := by
  by_cases htext : text = []
  · exact Or.inl ⟨htext, by simp [lineStep, htext]⟩
  · by_cases hline : (readLine text).1 = []
    · cases hempty : st.sentence.isEmpty with
      | true => exact Or.inr (Or.inl ⟨htext, hline, rfl, by simp [lineStep, htext, hline, hempty]⟩)
      | false =>
        exact Or.inr (Or.inr (Or.inl ⟨htext, hline, rfl,
          by simp [lineStep, htext, hline, hempty]⟩))
    · refine Or.inr (Or.inr (Or.inr ⟨htext, hline, ?_⟩))
      cases hhandle : handleLine version (readLine text).1 st with
      | error error => exact Or.inl ⟨error, rfl, by simp [lineStep, htext, hline, hhandle]⟩
      | ok st' => exact Or.inr ⟨st', rfl, by simp [lineStep, htext, hline, hhandle]⟩

/-- A nonempty line makes the text shorter. -/
theorem readLine_length_lt_of_line {text : Bytes} (htext : text ≠ [])
    (hline : (readLine text).1 ≠ []) : (readLine text).2.length < text.length :=
  readLine_length_lt htext fun hlone => hline (by rw [readLine_loneCr hlone])

/-- On a text without lone CRs a call ends. -/
theorem nextSentence_terminates (version : ℕ) {text : Bytes} (h : LoneCrFree text) :
    (nextSentence version text).Terminates := by
  refine Comp.loopOf_terminates (fun p => LoneCrFree p.1) (fun p => p.1.length) ?_ h
  rintro ⟨text, st⟩ p hfree hnext
  have hrest : LoneCrFree (readLine text).2 := (loneCrFree_readLine text).mpr hfree
  have hlt : text ≠ [] → (readLine text).2.length < text.length := fun htext =>
    readLine_length_lt htext (not_startsLoneCr_of_loneCrFree hfree)
  rcases lineStep_cases version text st with ⟨_, hstep⟩ | ⟨htext, _, _, hstep⟩ |
    ⟨_, _, _, hstep⟩ | ⟨htext, _, ⟨_, _, hstep⟩ | ⟨st', _, hstep⟩⟩ <;>
    rw [hstep] at hnext <;> cases hnext
  · exact ⟨hrest, hlt htext⟩
  · exact ⟨hrest, hlt htext⟩

/-- At a lone CR a call runs forever. -/
theorem nextSentence_diverges (version : ℕ) {text : Bytes} (h : StartsLoneCr text) :
    ¬ (nextSentence version text).Terminates := by
  refine Comp.loopOf_diverges ?_
  have htext : text ≠ [] := by
    obtain ⟨rest, rfl, _⟩ := h
    simp
  simp [lineStep, htext, readLine_loneCr h, LineState.init, Sentence.isEmpty]

/-- A call leaves the lone CRs of its text, and it consumes something unless the
text is empty. -/
theorem state_nextSentence {version : ℕ} {text : Bytes} {r : NextSentence Bytes}
    (h : (nextSentence version text).Returns r) :
    (LoneCrFree r.state ↔ LoneCrFree text) ∧ (r.state.length < text.length ∨ text = []) := by
  refine Comp.loopOf_invariant
    (fun p => (LoneCrFree p.1 ↔ LoneCrFree text) ∧
      (p.1.length < text.length ∨ p = (text, .init)))
    (fun r => (LoneCrFree r.state ↔ LoneCrFree text) ∧
      (r.state.length < text.length ∨ text = [])) ?_ ?_ ⟨Iff.rfl, Or.inr rfl⟩ h
  · rintro ⟨t, st⟩ p ⟨hfree, hprogress⟩ hnext
    have hle := readLine_length_le t
    rcases lineStep_cases version t st with ⟨_, hstep⟩ | ⟨htext, hline, _, hstep⟩ |
      ⟨_, _, _, hstep⟩ | ⟨htext, hline, ⟨_, _, hstep⟩ | ⟨st', _, hstep⟩⟩ <;>
      rw [hstep] at hnext <;> cases hnext
    · refine ⟨(loneCrFree_readLine t).trans hfree, ?_⟩
      rcases hprogress with hlt | heq
      · exact Or.inl (by dsimp only at hlt ⊢; omega)
      · obtain ⟨rfl, rfl⟩ := Prod.mk.inj heq
        by_cases hlone : StartsLoneCr t
        · exact Or.inr (by rw [readLine_loneCr hlone])
        · exact Or.inl (readLine_length_lt htext hlone)
    · refine ⟨(loneCrFree_readLine t).trans hfree, Or.inl ?_⟩
      have hlt := readLine_length_lt_of_line htext hline
      rcases hprogress with hlt' | heq
      · dsimp only at hlt' ⊢
        omega
      · obtain ⟨rfl, rfl⟩ := Prod.mk.inj heq
        exact hlt
  · rintro ⟨t, st⟩ r ⟨hfree, hprogress⟩ hdone
    have hle := readLine_length_le t
    rcases lineStep_cases version t st with ⟨rfl, hstep⟩ | ⟨_, _, _, hstep⟩ |
      ⟨htext, _, hword, hstep⟩ | ⟨htext, hline, ⟨_, _, hstep⟩ | ⟨_, _, hstep⟩⟩ <;>
      rw [hstep] at hdone <;> cases hdone
    · refine ⟨by simpa using hfree, ?_⟩
      rcases hprogress with hlt | heq
      · exact Or.inl (by simpa using hlt)
      · exact Or.inr (Prod.mk.inj heq).1.symm
    · rw [state_finish]
      refine ⟨(loneCrFree_readLine t).trans hfree, Or.inl ?_⟩
      rcases hprogress with hlt | heq
      · dsimp only at hlt
        omega
      · obtain ⟨rfl, rfl⟩ := Prod.mk.inj heq
        simp [LineState.init] at hword
    · refine ⟨(loneCrFree_readLine t).trans hfree, Or.inl ?_⟩
      have hlt := readLine_length_lt_of_line htext hline
      rcases hprogress with hlt' | heq
      · dsimp only at hlt' ⊢
        omega
      · obtain ⟨rfl, rfl⟩ := Prod.mk.inj heq
        exact hlt

/-- A call that returns false without an error has consumed the whole text. -/
theorem state_eq_nil_of_not_returned {version : ℕ} {text : Bytes} {r : NextSentence Bytes}
    (h : (nextSentence version text).Returns r) (hreturned : r.returned = false)
    (herror : r.error = []) : r.state = [] := by
  refine Comp.loopOf_invariant (fun _ => True)
    (fun r => r.returned = false → r.error = [] → r.state = []) ?_ ?_ trivial h
    hreturned herror
  · exact fun _ _ _ _ => trivial
  · rintro ⟨t, st⟩ r _ hdone hreturned herror
    rcases lineStep_cases version t st with ⟨rfl, hstep⟩ | ⟨_, _, _, hstep⟩ |
      ⟨_, _, hword, hstep⟩ | ⟨_, _, ⟨error, hhandle, hstep⟩ | ⟨_, _, hstep⟩⟩ <;>
      rw [hstep] at hdone <;> cases hdone
    · exact state_finish [] st
    · rw [returned_finish herror, hword] at hreturned
      simp at hreturned
    · exact absurd herror (handleLine_error_ne_nil hhandle)

/-! ### Reading a whole text -/

/-- What is asked of a text: every call of `next_sentence` ends, whatever earlier
calls returned, and calling it until it returns false stops, with the whole
text consumed unless there is an error. -/
def ReadsToEnd (version : ℕ) (text : Bytes) : Prop :=
  (∀ t, (reader version).AfterCalls text t → (nextSentence version t).Terminates) ∧
    ∃ sentences error rest, ((reader version).readAll text).Returns (sentences, error, rest) ∧
      (error = [] → rest = [])

/-- Calls neither read nor make lone carriage returns. -/
private theorem loneCrFree_afterCalls {version : ℕ} {text t : Bytes}
    (h : (reader version).AfterCalls text t) : LoneCrFree t ↔ LoneCrFree text := by
  induction h with
  | refl => exact Iff.rfl
  | call hcall _ ih => exact ih.trans (state_nextSentence hcall).1

/-- A text without lone carriage returns is read to its end. -/
theorem readsAll_of_loneCrFree (version : ℕ) {text : Bytes} (h : LoneCrFree text) :
    ∃ sentences error rest, (reader version).ReadsAll text sentences error rest ∧
      (error = [] → rest = []) := by
  induction hn : text.length using Nat.strongRecOn generalizing text with
  | ind n ih =>
    obtain ⟨⟨returned, sentence, error, rest⟩, hcall⟩ := nextSentence_terminates version h
    cases returned with
    | false =>
      exact ⟨[], error, rest, .stop hcall, state_eq_nil_of_not_returned hcall rfl⟩
    | true =>
      obtain ⟨hfree, hlt | rfl⟩ := state_nextSentence hcall
      · obtain ⟨sentences, error', rest', hreads, hend⟩ := ih _ (hn ▸ hlt) (hfree.mpr h) rfl
        exact ⟨_, error', rest', .next hcall hreads, hend⟩
      · have hend : (nextSentence version []).Returns ⟨false, .clear, [], []⟩ := ⟨1, rfl⟩
        cases hcall.unique hend

/-- Some call on another text does not end. -/
private theorem exists_diverging_call (version : ℕ) {text : Bytes} (h : ¬ LoneCrFree text) :
    ∃ t, (reader version).AfterCalls text t ∧ ¬ (nextSentence version t).Terminates := by
  induction hn : text.length using Nat.strongRecOn generalizing text with
  | ind n ih =>
    by_cases hterm : (nextSentence version text).Terminates
    · obtain ⟨r, hcall⟩ := hterm
      obtain ⟨hfree, hlt | rfl⟩ := state_nextSentence hcall
      · obtain ⟨t, ht, hdiv⟩ := ih _ (hn ▸ hlt) (fun hr => h (hfree.mp hr)) rfl
        exact ⟨t, .call hcall ht, hdiv⟩
      · exact absurd loneCrFree_nil h
    · exact ⟨text, .refl text, hterm⟩

/-- The reader ends on a text exactly when every CR of it is followed by an LF. -/
theorem readsToEnd_iff_loneCrFree (version : ℕ) (text before : Bytes) :
    ReadsToEnd version ((reader version).setText text before) ↔ LoneCrFree text := by
  constructor
  · rintro ⟨hcalls, _⟩
    by_contra hlone
    obtain ⟨t, ht, hdiv⟩ := exists_diverging_call version hlone
    exact hdiv (hcalls t ht)
  · intro hfree
    refine ⟨fun t ht => nextSentence_terminates version ((loneCrFree_afterCalls ht).mpr hfree), ?_⟩
    obtain ⟨sentences, error, rest, hreads, hend⟩ := readsAll_of_loneCrFree version hfree
    exact ⟨sentences, error, rest, InputFormat.returns_readAll.mpr hreads, hend⟩

/-- On the text that is a single CR the first call does not end. -/
theorem not_readsToEnd_single_cr : ¬ ReadsToEnd 2 ((reader 2).setText [cr] []) := fun h =>
  nextSentence_diverges 2 ⟨[], rfl, by simp⟩ (h.1 [cr] (.refl _))

end UDPipe.Conllu
