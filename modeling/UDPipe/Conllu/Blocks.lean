import UDPipe.Conllu.LineRuns
import UDPipe.Pipeline

/-!
# Reading a text in blocks

In immediate mode the pipeline gives the reader one paragraph at a time, and
otherwise the whole text. The reader starts anew with each paragraph, whereas in
the whole text it carries comments, multiword tokens and empty nodes over empty
lines until a word comes. Both modes agree if no paragraph leaves such a rest.
-/

namespace UDPipe.Conllu

/-- The paragraphs of a text: the lines between its empty lines. -/
def paragraphs (text : Bytes) : List (List Bytes) := (textLines text).splitOn []

/-- The first column of a line. -/
def idColumn (line : Bytes) : Bytes := line.takeWhile (· != tab)

/-- A line that the reader takes for a word. -/
def IsWordLine (version : ℕ) (line : Bytes) : Prop :=
  line.head? ≠ some hash ∧ minus ∉ idColumn line ∧ ¬ (version ≥ 2 ∧ dot ∈ idColumn line)

/-- A paragraph of comments, multiword tokens and empty nodes only. -/
def Wordless (version : ℕ) (para : List Bytes) : Prop :=
  para ≠ [] ∧ ∀ line ∈ para, ¬ IsWordLine version line

/-- Among the paragraphs up to the first one with an error, those without a word
are followed by empty lines only. -/
def CutsCleanly (version : ℕ) : List (List Bytes) → Prop
  | [] => True
  | para :: paras => ∀ st, readLines version para .init = .ok st →
      (Wordless version para → ∀ para' ∈ paras, para' = []) ∧
        ((finish [] st).error = [] → CutsCleanly version paras)

/-- Both modes of the pipeline write the same sentences, with the same success
or the same error. -/
def SameInBlocks (version : ℕ) (p : Pipeline) (text : Bytes) : Prop :=
  ∃ processed,
    ({ p with immediate := true }.process (reader version) [] { rest := text }).Returns processed ∧
    ({ p with immediate := false }.process (reader version) [] { rest := text }).Returns processed

instance (version : ℕ) (line : Bytes) : Decidable (IsWordLine version line) :=
  inferInstanceAs (Decidable (_ ∧ _))

instance (version : ℕ) (para : List Bytes) : Decidable (Wordless version para) :=
  inferInstanceAs (Decidable (_ ∧ _))

instance decidableCutsCleanly (version : ℕ) :
    (paras : List (List Bytes)) → Decidable (CutsCleanly version paras)
  | [] => isTrue trivial
  | para :: paras =>
    match hread : readLines version para .init with
    | .error error => isTrue fun st hst => by simp [hread] at hst
    | .ok st =>
      have := decidableCutsCleanly version paras
      decidable_of_iff ((Wordless version para → ∀ para' ∈ paras, para' = []) ∧
        ((finish [] st).error = [] → CutsCleanly version paras)) (by simp [CutsCleanly, hread])

/-! ### Paragraphs without a word -/

/-- The first column of a line is the one of its row. -/
theorem idColumn_eq {line : Bytes} {row : Row} (h : Row.ofTokens (split tab line) = some row) :
    idColumn line = row.id := by
  have htokens := tokens_of_ofTokens h
  have hne : line ≠ [] := by
    rintro rfl
    simp [split, Row.tokens] at htokens
  have hmem : row.id ∈ split tab line := by simp [htokens, Row.tokens]
  have hid : ∀ c ∈ row.id, (c != tab) = true := fun c hc => by
    simp only [bne_iff_ne, ne_eq]
    rintro rfl
    exact not_mem_of_mem_split hmem hc
  have hline : [tab].intercalate row.tokens = line := htokens ▸ intercalate_split hne
  rw [idColumn, ← hline, Row.tokens, List.intercalate_cons_cons, List.append_assoc,
    List.takeWhile_append_of_pos hid]
  simp

/-- An accepted line takes no word away, and a word line adds one. -/
theorem length_words_handleLine {version : ℕ} {line : Bytes} {st st' : LineState}
    (h : handleLine version line st = .ok st') :
    st.sentence.words.length ≤ st'.sentence.words.length ∧
      (IsWordLine version line → st.sentence.words.length < st'.sentence.words.length) := by
  unfold handleLine at h
  split at h
  · rename_i hcomment
    have hword : ¬ IsWordLine version line := fun hword => hword.1 hcomment
    split at h <;> cases h <;> simp [hword]
  · unfold handleRow at h
    split at h
    · cases h
    · rename_i row hrow
      split at h
      · cases h
      · have hid := idColumn_eq hrow
        split at h
        · rename_i hminus
          obtain ⟨_, _, _, _, _, _, _, _, _, rfl⟩ := handleMultiwordToken_eq_ok.mp h
          exact ⟨le_rfl, fun hword => absurd (hid ▸ hminus) hword.2.1⟩
        · split at h
          · rename_i hempty
            obtain ⟨_, _, _, _, _, _, _, _, _, rfl⟩ := handleEmptyNode_eq_ok.mp h
            exact ⟨le_rfl, fun hword => absurd (hid ▸ hempty) hword.2.2⟩
          · obtain ⟨_, _, _, rfl⟩ := handleWord_eq_ok.mp h
            simp [LineState.addWord]

/-- Lines that leave a sentence without a word contain no word line. -/
theorem not_isWordLine_of_readLines {version : ℕ} {lines : List Bytes} {st st' : LineState}
    (hpos : 0 < st.sentence.words.length) (h : readLines version lines st = .ok st')
    (hempty : st'.sentence.words.length = 1) : ∀ line ∈ lines, ¬ IsWordLine version line := by
  have hle : ∀ {lines : List Bytes} {st : LineState}, readLines version lines st = .ok st' →
      st.sentence.words.length ≤ st'.sentence.words.length := by
    intro lines
    induction lines with
    | nil =>
      intro st h
      obtain rfl := Except.ok.inj h
      rfl
    | cons line lines ih =>
      intro st h
      cases hline : handleLine version line st with
      | error error => simp [readLines, hline] at h
      | ok st₁ =>
        rw [readLines_cons_ok hline] at h
        exact (length_words_handleLine hline).1.trans (ih h)
  induction lines generalizing st with
  | nil => simp
  | cons line lines ih =>
    cases hline : handleLine version line st with
    | error error => simp [readLines, hline] at h
    | ok st₁ =>
      rw [readLines_cons_ok hline] at h
      obtain ⟨hkeep, hgrow⟩ := length_words_handleLine hline
      have hend := hle h
      simp only [List.forall_mem_cons]
      exact ⟨fun hword => by have := hgrow hword; omega, ih (by omega) h⟩

/-! ### One paragraph -/

/-- The end of a call does not depend on the text that is left. -/
theorem finish_text (text : Bytes) (st : LineState) :
    finish text st = { finish [] st with state := text } := by
  unfold finish
  dsimp only
  split
  · rfl
  · split <;> rfl

/-- At an empty line without a word before it a call goes on. -/
theorem returns_lf_of_isEmpty {version : ℕ} {st : LineState} {rest : Bytes} {r : NextSentence Bytes}
    (hempty : st.sentence.isEmpty = true) :
    (Comp.loopOf (lineStep version) (lf :: rest, st)).Returns r ↔
      (Comp.loopOf (lineStep version) (rest, st)).Returns r := by
  rw [Comp.returns_loopOf, lineStep_lf, hempty, if_pos rfl]

/-- At an empty line after a word a call ends. -/
theorem returns_lf_of_not_isEmpty {version : ℕ} {st : LineState} {rest : Bytes}
    (hempty : st.sentence.isEmpty = false) :
    (Comp.loopOf (lineStep version) (lf :: rest, st)).Returns { finish [] st with state := rest } := by
  rw [Comp.returns_loopOf, lineStep_lf, hempty]
  exact finish_text rest st

/-- At the end of the text a call ends. -/
theorem returns_nil {version : ℕ} {st : LineState} :
    (Comp.loopOf (lineStep version) ([], st)).Returns (finish [] st) := by
  rw [Comp.returns_loopOf]
  simp [lineStep]

/-- Reading nothing gives nothing. -/
theorem readsAll_nil (version : ℕ) : (reader version).ReadsAll [] [] [] [] := .stop ⟨1, rfl⟩

/-- A sentence without a word is not returned. -/
theorem not_returned_of_isEmpty {version : ℕ} {st : LineState} (hvalid : st.Valid version)
    (hempty : st.sentence.isEmpty = true) (text : Bytes) : (finish text st).returned = false := by
  rw [Bool.eq_false_iff, ne_eq, finish_returned_iff hvalid]
  intro h
  exact h.2.2 (Sentence.isEmpty_iff.mp hempty)

/-- What a call returns when it ends is a sentence, or an error, or neither when
there was no word. -/
theorem readsAll_of_finish {version : ℕ} {text : Bytes} {st : LineState} (rest : Bytes)
    (hcall : (nextSentence version text).Returns { finish [] st with state := rest }) :
    ((finish [] st).returned = false →
      (reader version).ReadsAll text [] (finish [] st).error rest) ∧
    ((finish [] st).returned = true → ∀ sentences error rest',
      (reader version).ReadsAll rest sentences error rest' →
      (reader version).ReadsAll text ((finish [] st).sentence :: sentences) error rest') := by
  generalize finish [] st = r at hcall
  obtain ⟨returned, sentence, error, state⟩ := r
  constructor
  · rintro rfl
    exact .stop hcall
  · rintro rfl sentences error' rest' hreads
    exact .next hcall hreads

/-- An empty line at the beginning of a text makes no difference. -/
theorem readsAll_lf {version : ℕ} {text rest error : Bytes} {sentences : List Sentence}
    (h : (reader version).ReadsAll text sentences error rest) :
    (reader version).ReadsAll (lf :: text) sentences error rest := by
  cases h with
  | stop hcall => exact .stop ((returns_lf_of_isEmpty rfl).mpr hcall)
  | next hcall hreads => exact .next ((returns_lf_of_isEmpty rfl).mpr hcall) hreads

/-- A run over lines that are not all accepted ends with an error. -/
theorem readLines_error_ne_nil {version : ℕ} {lines : List Bytes} {st : LineState} {error : Bytes}
    (h : readLines version lines st = .error error) : error ≠ [] := by
  induction lines generalizing st with
  | nil => cases h
  | cons line lines ih =>
    cases hline : handleLine version line st with
    | error e =>
      obtain rfl : e = error := by simpa [readLines, hline] using h
      exact handleLine_error_ne_nil hline
    | ok st₁ =>
      rw [readLines_cons_ok hline] at h
      exact ih h

/-- A run over accepted lines keeps the state valid. -/
theorem valid_readLines {version : ℕ} {lines : List Bytes} {st st' : LineState}
    (hlines : ∀ line ∈ lines, IsLine line) (hvalid : st.Valid version)
    (h : readLines version lines st = .ok st') : st'.Valid version := by
  induction lines generalizing st with
  | nil =>
    obtain rfl := Except.ok.inj h
    exact hvalid
  | cons line lines ih =>
    simp only [List.forall_mem_cons] at hlines
    cases hline : handleLine version line st with
    | error e => simp [readLines, hline] at h
    | ok st₁ =>
      rw [readLines_cons_ok hline] at h
      exact ih hlines.2 (valid_handleLine hlines.1.2 hvalid hline) h

/-- Empty paragraphs have empty lines only. -/
private theorem eq_nil_of_mem_intercalate {paras : List (List Bytes)}
    (h : ∀ para ∈ paras, para = []) : ∀ line ∈ [[]].intercalate paras, line = [] := by
  induction paras with
  | nil => simp
  | cons para paras ih =>
    simp only [List.forall_mem_cons] at h
    cases paras with
    | nil => simp [h.1]
    | cons para' paras =>
      have hrest := ih h.2
      rw [List.intercalate_cons_cons, h.1]
      simpa using hrest

/-! ### The whole text -/

/-- Empty lines after a sentence without a word lead to the end of the text. -/
private theorem returns_empty_lines {version : ℕ} {st : LineState} {lines : List Bytes}
    (hempty : st.sentence.isEmpty = true) (hlines : ∀ line ∈ lines, line = []) :
    (Comp.loopOf (lineStep version) (joinLines lines, st)).Returns (finish [] st) := by
  induction lines with
  | nil => exact returns_nil
  | cons line lines ih =>
    simp only [List.forall_mem_cons] at hlines
    rw [hlines.1, joinLines_cons, List.nil_append]
    exact (returns_lf_of_isEmpty hempty).mpr (ih hlines.2)

/-- Blocks of empty lines give nothing. -/
private theorem readsBlocks_empty_lines {version : ℕ} {is : IStream} {lines : List Bytes}
    (hlines : HasLines is lines) (hempty : ∀ line ∈ lines, line = []) (state : Bytes) :
    ReadsBlocks (reader version) getpara is state [] [] := by
  induction lines generalizing is state with
  | nil =>
    obtain ⟨is', hblock, hfail⟩ := returns_getpara_nil hlines
    exact .stop hblock hfail
  | cons line lines ih =>
    simp only [List.forall_mem_cons] at hempty
    obtain ⟨is', hblock, hgood, hrest⟩ := @returns_getpara _ [] _ (by simp) (hempty.1 ▸ hlines)
    exact .next hblock hgood (readsAll_lf (readsAll_nil version)) (ih hrest hempty.2 [])

/-- Reading the blocks of a stream gives what reading its whole text gives. -/
theorem readsBlocks_getpara {version : ℕ} {is : IStream} {lines : List Bytes}
    (hlines : HasLines is lines) (hclean : ∀ line ∈ lines, ∀ c ∈ line, isLineEnd c = false)
    (hcuts : CutsCleanly version (lines.splitOn [])) (state : Bytes) :
    ∃ sentences error rest, ReadsBlocks (reader version) getpara is state sentences error ∧
      (reader version).ReadsAll (joinLines lines) sentences error rest := by
  induction hn : lines.length using Nat.strongRecOn generalizing is lines state with
  | ind n ih =>
    by_cases hblank : [] ∈ lines
    · obtain ⟨para, after, rfl, hpara⟩ := List.eq_append_cons_of_mem hblank
      obtain ⟨is', hblock, hgood, hafter⟩ := returns_getpara hpara hlines
      rw [List.splitOn_append_cons_self_of_not_mem hpara] at hcuts
      have hisLine : ∀ line ∈ para, IsLine line := fun line hline =>
        ⟨fun hnil => hpara (hnil ▸ hline), hclean line (by simp [hline])⟩
      have hrest := fun hcuts state => ih after.length (by simp at hn; omega) hafter
        (fun line hline => hclean line (by simp [hline])) hcuts state rfl
      have hblockText : joinLines (para ++ [[]]) = joinLines para ++ lf :: [] := by simp
      have hwholeText : joinLines (para ++ [] :: after) =
          joinLines para ++ lf :: joinLines after := by simp
      rw [hblockText] at hblock
      rw [hwholeText]
      cases hread : readLines version para .init with
      | error error =>
        -- both modes stop at the same line
        obtain ⟨s, text, hshort⟩ := returns_joinLines_error (lf :: []) hisLine hread
        obtain ⟨s', text', hlong⟩ := returns_joinLines_error (lf :: joinLines after) hisLine hread
        exact ⟨[], error, text', .error hblock hgood (.stop hshort) (readLines_error_ne_nil hread),
          .stop hlong⟩
      | ok st =>
        have hreads : ReadsLines version para .init st := ⟨hisLine, hread⟩
        have hvalid := valid_readLines hisLine (valid_init version) hread
        obtain ⟨hwordless, hcuts⟩ := hcuts st hread
        cases hempty : st.sentence.isEmpty with
        | true =>
          have hnot := not_returned_of_isEmpty hvalid hempty []
          have hshort :
              (nextSentence version (joinLines para ++ lf :: [])).Returns (finish [] st) :=
            (returns_joinLines hreads).mpr ((returns_lf_of_isEmpty hempty).mpr returns_nil)
          have hshortReads := (readsAll_of_finish []
            (by rwa [← finish_text [] st])).1 hnot
          by_cases hnil : para = []
          · subst hnil
            obtain rfl : LineState.init = st := Except.ok.inj hread
            obtain ⟨sentences, error, rest, hblocks, hall⟩ := hrest (hcuts rfl) []
            exact ⟨[] ++ sentences, error, rest, .next hblock hgood hshortReads hblocks,
              readsAll_lf hall⟩
          · -- only empty lines follow, so nothing is carried over
            have hlast := hwordless ⟨hnil, not_isWordLine_of_readLines one_pos hread
              (Sentence.isEmpty_iff.mp hempty)⟩
            have hafterNil : ∀ line ∈ after, line = [] := by
              have := eq_nil_of_mem_intercalate hlast
              rwa [List.intercalate_splitOn] at this
            have hlong : (nextSentence version (joinLines para ++ lf :: joinLines after)).Returns
                (finish [] st) := (returns_joinLines hreads).mpr
              ((returns_lf_of_isEmpty hempty).mpr (returns_empty_lines hempty hafterNil))
            have hlongReads := (readsAll_of_finish []
              (by rwa [← finish_text [] st])).1 hnot
            by_cases herror : (finish [] st).error = []
            · rw [herror] at hshortReads hlongReads
              exact ⟨[] ++ [], [], [], .next hblock hgood hshortReads
                (readsBlocks_empty_lines hafter hafterNil []), hlongReads⟩
            · exact ⟨[], _, [], .error hblock hgood hshortReads herror, hlongReads⟩
        | false =>
          have hshort := readsAll_of_finish []
            ((returns_joinLines hreads).mpr (returns_lf_of_not_isEmpty hempty))
          have hlong := readsAll_of_finish (joinLines after)
            ((returns_joinLines hreads).mpr (returns_lf_of_not_isEmpty hempty))
          cases hreturned : (finish [] st).returned with
          | true =>
            have herror : (finish [] st).error = [] := by
              rw [finish_eq_of_returned hvalid hreturned]
            obtain ⟨sentences, error, rest, hblocks, hall⟩ := hrest (hcuts herror) []
            exact ⟨[(finish [] st).sentence] ++ sentences, error, rest,
              .next hblock hgood (hshort.2 hreturned _ _ _ (readsAll_nil version)) hblocks,
              hlong.2 hreturned _ _ _ hall⟩
          | false =>
            have herror : (finish [] st).error ≠ [] := fun hnone => by
              have := returned_finish hnone
              rw [hreturned, hempty] at this
              cases this
            exact ⟨[], _, _, .error hblock hgood (hshort.1 hreturned) herror, hlong.1 hreturned⟩
    · -- the last paragraph is the whole rest of the text
      by_cases hnil : lines = []
      · subst hnil
        obtain ⟨is', hblock, hfail⟩ := returns_getpara_nil hlines
        exact ⟨[], [], [], .stop hblock hfail, readsAll_nil version⟩
      · obtain ⟨is', hblock, hgood, hafter⟩ := returns_getpara_last hblank hnil hlines
        have hcr : LoneCrFree (joinLines lines) := by
          intro i hi
          have hmem := List.mem_of_getElem? hi
          simp only [joinLines, List.mem_flatMap, List.mem_append, List.mem_singleton] at hmem
          obtain ⟨line, hline, hc | hc⟩ := hmem
          · have := hclean line hline cr hc
            simp [isLineEnd] at this
          · exact absurd hc cr_ne_lf
        obtain ⟨sentences, error, rest, hreads, _⟩ := readsAll_of_loneCrFree version hcr
        by_cases herror : error = []
        · subst herror
          obtain ⟨is'', hblock', hfail⟩ := returns_getpara_nil hafter
          refine ⟨sentences ++ [], [], rest, .next hblock hgood hreads (.stop hblock' hfail), ?_⟩
          rwa [List.append_nil]
        · exact ⟨sentences, error, rest, .error hblock hgood hreads herror, hreads⟩

/-- The whole text as one block. -/
theorem readsBlocks_getwhole {version : ℕ} {is : IStream} {lines : List Bytes}
    {sentences : List Sentence} {error rest : Bytes} (hlines : HasLines is lines)
    (hreads : (reader version).ReadsAll (joinLines lines) sentences error rest) (state : Bytes) :
    ReadsBlocks (reader version) getwhole is state sentences error := by
  by_cases hnil : lines = []
  · subst hnil
    obtain ⟨is', hblock, hfail⟩ := returns_getwhole_nil hlines
    have hend : (nextSentence version []).Returns ⟨false, .clear, [], []⟩ := ⟨1, rfl⟩
    cases hreads with
    | stop hcall =>
      cases hcall.unique hend
      exact .stop hblock hfail
    | next hcall _ => cases hcall.unique hend
  · obtain ⟨is', hblock, hgood, hafter⟩ := returns_getwhole hlines hnil
    by_cases herror : error = []
    · obtain ⟨is'', hblock', hfail⟩ := returns_getwhole_nil hafter
      rw [herror] at hreads ⊢
      rw [← List.append_nil sentences]
      exact .next hblock hgood hreads (.stop hblock' hfail)
    · exact .error hblock hgood hreads herror

/-- A text whose wordless paragraphs are followed by empty lines only is
processed in blocks as it is processed at once. -/
theorem sameInBlocks_of_cutsCleanly (version : ℕ) (p : Pipeline) {text : Bytes} (hcr : cr ∉ text)
    (hcuts : CutsCleanly version (paragraphs text)) : SameInBlocks version p text := by
  have hlines := hasLines_textLines text
  have hclean : ∀ line ∈ textLines text, ∀ c ∈ line, isLineEnd c = false := by
    intro line hline c hc
    obtain ⟨hmem, hlf⟩ := mem_of_mem_textLines hline hc
    rw [Bool.eq_false_iff, ne_eq, isLineEnd_iff]
    rintro (rfl | rfl)
    · exact hcr hmem
    · exact hlf rfl
  obtain ⟨sentences, error, rest, hblocks, hall⟩ := readsBlocks_getpara hlines hclean hcuts []
  have himmediate := @Pipeline.returns_process _ { p with immediate := true } (reader version) []
    _ _ _ hblocks
  have hwhole := @Pipeline.returns_process _ { p with immediate := false } (reader version) []
    _ _ _ (readsBlocks_getwhole hlines hall [])
  rw [Pipeline.deliver_immediate] at himmediate hwhole
  exact ⟨_, himmediate, hwhole⟩

/-- Two sentences, the second one with a comment. -/
theorem sameInBlocks_of_cutsCleanly_sample : SameInBlocks 2 {}
    (bytes "1\ta\ta\t_\t_\t_\t0\t_\t_\t_\n\n# c\n1\tb\tb\t_\t_\t_\t0\t_\t_\t_") :=
  sameInBlocks_of_cutsCleanly 2 {} (by decide) (by decide +kernel)

/-- A comment that an empty line separates from its sentence is lost in blocks. -/
theorem not_sameInBlocks_comment :
    ¬ SameInBlocks 2 {} (bytes "# c\n\n1\ta\ta\t_\t_\t_\t0\t_\t_\t_\n\n") := by
  rintro ⟨processed, himmediate, hwhole⟩
  obtain ⟨block, hblock, hcomments⟩ : ∃ processed,
      (({ immediate := true } : Pipeline).process (reader 2) []
        { rest := bytes "# c\n\n1\ta\ta\t_\t_\t_\t0\t_\t_\t_\n\n" }).Returns processed ∧
        (processed.written.all fun s => s.comments == []) = true :=
    Comp.exists_returns_of_run 9 (by decide +kernel)
  obtain ⟨whole, hwholeRun, hcomment⟩ : ∃ processed,
      (({ immediate := false } : Pipeline).process (reader 2) []
        { rest := bytes "# c\n\n1\ta\ta\t_\t_\t_\t0\t_\t_\t_\n\n" }).Returns processed ∧
        (!processed.written.all fun s => s.comments == []) = true :=
    Comp.exists_returns_of_run 9 (by decide +kernel)
  obtain rfl := himmediate.unique hblock
  obtain rfl := hwhole.unique hwholeRun
  rw [hcomments] at hcomment
  cases hcomment

end UDPipe.Conllu
