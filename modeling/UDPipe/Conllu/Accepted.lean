import UDPipe.Conllu.Heads
import UDPipe.Conllu.Lines

/-!
# Accepted lines

What it means that the reader accepts a line, one equivalence for each kind of
line. A run over lines keeps a state in which everything read so far is well
formed; `Accepted` collects what the reader then guarantees of a sentence.
-/

namespace UDPipe.Conllu

/-! ### Fields -/

/-- A field that breaks neither columns nor lines. -/
def Clean (field : Bytes) : Prop := ∀ c ∈ field, c ≠ tab ∧ isLineEnd c = false

instance (field : Bytes) : Decidable (Clean field) := List.decidableBAll _ _

/-- A field of a column that may contain spaces from version 2 on. -/
structure SpacedField (version : ℕ) (field : Bytes) : Prop where
  clean : Clean field
  no_space : version < 2 → space ∉ field

/-- A field of a column that never contains spaces, and is empty when its token is `_`. -/
structure TagField (field : Bytes) : Prop where
  clean : Clean field
  no_space : space ∉ field
  ne_underscore : field ≠ underscore

/-- A MISC field. -/
structure MiscField (version : ℕ) (field : Bytes) : Prop extends SpacedField version field where
  ne_underscore : field ≠ underscore

/-- A FORM or LEMMA field. -/
structure FormField (version : ℕ) (field : Bytes) : Prop extends SpacedField version field where
  ne_nil : field ≠ []

/-- What is stored for a column is never an underscore. -/
theorem unlessUnderscore_ne {token : Bytes} : unlessUnderscore token ≠ underscore := by
  unfold unlessUnderscore
  split
  · simp [underscore]
  · assumption

/-- The bytes of a stored column are those of the column. -/
theorem mem_unlessUnderscore {token : Bytes} {c : Byte} (h : c ∈ unlessUnderscore token) :
    c ∈ token := by
  unfold unlessUnderscore at h
  split at h
  · simp at h
  · exact h

/-- A column without spaces is stored as a field of a tag. -/
theorem tagField_unlessUnderscore {token : Bytes} (hclean : Clean token) (hspace : space ∉ token) :
    TagField (unlessUnderscore token) where
  clean c hc := hclean c (mem_unlessUnderscore hc)
  no_space hc := hspace (mem_unlessUnderscore hc)
  ne_underscore := unlessUnderscore_ne

/-- A column is stored as a MISC field. -/
theorem miscField_unlessUnderscore {version : ℕ} {token : Bytes} (h : SpacedField version token) :
    MiscField version (unlessUnderscore token) where
  clean c hc := h.clean c (mem_unlessUnderscore hc)
  no_space hv hc := h.no_space hv (mem_unlessUnderscore hc)
  ne_underscore := unlessUnderscore_ne

/-! ### Rows -/

/-- A row is made of its columns. -/
theorem tokens_of_ofTokens {tokens : List Bytes} {row : Row} (h : Row.ofTokens tokens = some row) :
    tokens = row.tokens := by
  unfold Row.ofTokens at h
  split at h
  · obtain rfl := Option.some.inj h
    rfl
  · cases h

/-- The columns of a row make it again. -/
@[simp] theorem ofTokens_tokens (row : Row) : Row.ofTokens row.tokens = some row := rfl

/-- The tokens of a line contain no tab, and no line end if the line has none. -/
theorem clean_of_mem_tokens {line : Bytes} {row : Row} (hline : ∀ c ∈ line, isLineEnd c = false)
    (h : Row.ofTokens (split tab line) = some row) {token : Bytes} (htoken : token ∈ row.tokens) :
    Clean token := by
  rw [← tokens_of_ofTokens h] at htoken
  intro c hc
  refine ⟨?_, hline c (mem_of_mem_split htoken hc)⟩
  rintro rfl
  exact not_mem_of_mem_split htoken hc

/-- A loop over columns finds no error exactly if the check of each column finds none. -/
theorem firstError_eq_none {row : Row} {first last : ℕ}
    {check : ℕ → Bytes → Bytes → Option Bytes} :
    row.firstError first last check = none ↔
      ∀ entry ∈ ((columns.zip row.tokens).zipIdx.drop first).take (last - first),
        check entry.2 entry.1.1 entry.1.2 = none := by
  rw [Row.firstError, List.findSome?_eq_none_iff]

/-- The fields of a row that passes the check of its columns. -/
structure Row.Checked (version : ℕ) (row : Row) : Prop where
  ne_nil : ∀ token ∈ row.tokens, token ≠ []
  no_space : ∀ token ∈ [row.id, row.upostag, row.xpostag, row.feats, row.head, row.deprel,
    row.deps], space ∉ token
  no_space_v1 : version < 2 → ∀ token ∈ [row.form, row.lemma, row.misc], space ∉ token

/-- A column passes its check if it is not empty, and has no spaces where they are not allowed. -/
private theorem checkColumn_eq_none {version : ℕ} {line : Bytes} {i : ℕ} {column token : Bytes} :
    checkColumn version line i column token = none ↔
      token ≠ [] ∧ ((version < 2 ∨ (i ≠ 1 ∧ i ≠ 2 ∧ i ≠ 9)) → space ∉ token) := by
  unfold checkColumn
  split
  · simp_all
  · split <;> simp_all

/-- The columns of a row pass their checks exactly if they all do. -/
theorem firstError_checkColumn {version : ℕ} {line : Bytes} {row : Row} :
    row.firstError 0 10 (checkColumn version line) = none ↔ row.Checked version := by
  simp only [firstError_eq_none, checkColumn_eq_none]
  constructor
  · intro h
    simp only [columns, Row.tokens, List.zip_cons_cons, List.zip_nil_left, List.zipIdx_cons,
      List.zipIdx_nil, List.drop_zero, Nat.sub_zero, List.take_succ_cons, List.take_zero,
      List.forall_mem_cons] at h
    obtain ⟨hid, hform, hlemma, hupostag, hxpostag, hfeats, hhead, hdeprel, hdeps, hmisc, _⟩ := h
    refine ⟨?_, ?_, ?_⟩
    · simp only [Row.tokens, List.forall_mem_cons]
      exact ⟨hid.1, hform.1, hlemma.1, hupostag.1, hxpostag.1, hfeats.1, hhead.1, hdeprel.1,
        hdeps.1, hmisc.1, by simp⟩
    · simp only [List.forall_mem_cons]
      exact ⟨hid.2 (by simp), hupostag.2 (by simp), hxpostag.2 (by simp), hfeats.2 (by simp),
        hhead.2 (by simp), hdeprel.2 (by simp), hdeps.2 (by simp), by simp⟩
    · intro hversion
      simp only [List.forall_mem_cons]
      exact ⟨hform.2 (by simp [hversion]), hlemma.2 (by simp [hversion]),
        hmisc.2 (by simp [hversion]), by simp⟩
  · rintro ⟨hnil, hspace, hspace_v1⟩
    simp only [Row.tokens, List.forall_mem_cons] at hnil hspace hspace_v1
    simp only [columns, Row.tokens, List.zip_cons_cons, List.zip_nil_left, List.zipIdx_cons,
      List.zipIdx_nil, List.drop_zero, Nat.sub_zero, List.take_succ_cons, List.take_zero,
      List.forall_mem_cons]
    obtain ⟨hid, hform, hlemma, hupostag, hxpostag, hfeats, hhead, hdeprel, hdeps, hmisc, _⟩ := hnil
    obtain ⟨sid, supostag, sxpostag, sfeats, shead, sdeprel, sdeps, _⟩ := hspace
    refine ⟨⟨hid, fun _ => sid⟩, ⟨hform, ?_⟩, ⟨hlemma, ?_⟩, ⟨hupostag, fun _ => supostag⟩,
      ⟨hxpostag, fun _ => sxpostag⟩, ⟨hfeats, fun _ => sfeats⟩, ⟨hhead, fun _ => shead⟩,
      ⟨hdeprel, fun _ => sdeprel⟩, ⟨hdeps, fun _ => sdeps⟩, ⟨hmisc, ?_⟩, by simp⟩
    · exact fun hv => (hspace_v1 (by simpa using hv)).1
    · exact fun hv => (hspace_v1 (by simpa using hv)).2.1
    · exact fun hv => (hspace_v1 (by simpa using hv)).2.2.1

/-- The columns of a multiword token that have to be empty. -/
structure Row.MultiwordColumns (version : ℕ) (row : Row) : Prop where
  underscores : ∀ token ∈ [row.lemma, row.upostag, row.xpostag, row.head, row.deprel, row.deps],
    token = underscore
  feats : row.feats = underscore ∨ (2 ≤ version ∧ row.feats = bytes "Typo=Yes")

/-- A column of a multiword token is an underscore or the mark of a typo. -/
private theorem checkMultiwordColumn_eq_none {version : ℕ} {line : Bytes} {i : ℕ}
    {column token : Bytes} : checkMultiwordColumn version line i column token = none ↔
      token = underscore ∨ (i = 5 ∧ 2 ≤ version ∧ token = bytes "Typo=Yes") := by
  unfold checkMultiwordColumn
  split
  · rename_i hfeats
    simp [hfeats]
    tauto
  · rename_i hother
    have : ¬ (i = 5 ∧ 2 ≤ version) := fun h => hother ⟨h.2, h.1⟩
    simp only [ne_eq, ite_not, ite_eq_left_iff, reduceCtorEq, imp_false, not_not]
    tauto

/-- The columns of a multiword token pass their checks exactly if they all do. -/
theorem firstError_checkMultiwordColumn {version : ℕ} {line : Bytes} {row : Row} :
    row.firstError 2 9 (checkMultiwordColumn version line) = none ↔
      row.MultiwordColumns version := by
  simp only [firstError_eq_none, checkMultiwordColumn_eq_none]
  constructor
  · intro h
    simp [columns, Row.tokens] at h
    exact ⟨by simp [h], h.2.2.2.1⟩
  · rintro ⟨hunderscores, hfeats⟩
    simp at hunderscores
    simp [columns, Row.tokens, hunderscores, hfeats]

/-- The columns of an empty node pass their checks exactly if it has neither a head nor a
relation. -/
theorem firstError_checkEmptyNodeColumn {line : Bytes} {row : Row} :
    row.firstError 6 8 (checkEmptyNodeColumn line) = none ↔
      row.head = underscore ∧ row.deprel = underscore := by
  simp [firstError_eq_none, checkEmptyNodeColumn, columns, Row.tokens]

/-! ### Handled rows -/

/-- The multiword token of a row. -/
def Row.multiwordToken (row : Row) (idFirst idLast : ℤ) : MultiwordToken :=
  { idFirst, idLast, form := row.form, misc := unlessUnderscore row.misc
    feats := unlessUnderscore row.feats }

/-- The empty node of a row. -/
def Row.emptyNode (row : Row) (id index : ℤ) : EmptyNode :=
  { id, index, form := row.form, «lemma» := row.lemma
    upostag := unlessUnderscore row.upostag, xpostag := unlessUnderscore row.xpostag
    feats := unlessUnderscore row.feats, deps := unlessUnderscore row.deps
    misc := unlessUnderscore row.misc }

/-- The word of a row. -/
def Row.word (row : Row) (id head : ℤ) : Word := fillWord row head { id, form := row.form }

/-- The state with one more multiword token. -/
def LineState.addMultiwordToken (st : LineState) (token : MultiwordToken) : LineState where
  sentence := { st.sentence with multiwordTokens := st.sentence.multiwordTokens ++ [token] }
  lastMultiwordToken := token.idLast

/-- The state with one more empty node. -/
def LineState.addEmptyNode (st : LineState) (node : EmptyNode) : LineState :=
  { st with sentence := { st.sentence with emptyNodes := st.sentence.emptyNodes ++ [node] } }

/-- The state with one more word. -/
def LineState.addWord (st : LineState) (word : Word) : LineState :=
  { st with sentence := { st.sentence with words := st.sentence.words ++ [word] } }

/-- When the row of a multiword token is handled without an error. -/
theorem handleMultiwordToken_eq_ok {version : ℕ} {line : Bytes} {row : Row} {st st' : LineState} :
    handleMultiwordToken version line row st = .ok st' ↔
      ∃ first last idLast, split minus row.id = [first, last] ∧
        parseInt first (bytes "CoNLL-U id") = .ok (st.sentence.words.length : ℤ) ∧
        parseInt last (bytes "CoNLL-U id") = .ok idLast ∧
        (st.sentence.words.length : ℤ) ≤ idLast ∧
        st.lastMultiwordToken < st.sentence.words.length ∧ row.MultiwordColumns version ∧
        st' = st.addMultiwordToken (row.multiwordToken st.sentence.words.length idLast) := by
  constructor
  · intro h
    unfold handleMultiwordToken at h
    dsimp only at h
    split at h
    · rename_i first last hparts
      split at h
      · cases h
      · rename_i idFirst hfirst
        split at h
        · cases h
        · rename_i idLast hlast
          split at h
          · cases h
          · rename_i hid
            obtain rfl : idFirst = st.sentence.words.length := not_not.mp hid
            split at h
            · cases h
            · split at h
              · cases h
              · split at h
                · cases h
                · rename_i hcolumns
                  refine ⟨first, last, idLast, hparts, hfirst, hlast, by omega, by omega,
                    firstError_checkMultiwordColumn.mp hcolumns, ?_⟩
                  exact (Except.ok.inj h).symm
    · cases h
  · rintro ⟨first, last, idLast, hparts, hfirst, hlast, hle, hprevious, hcolumns, rfl⟩
    unfold handleMultiwordToken
    simp only [hparts, hfirst, hlast, ne_eq, not_true_eq_false, if_false, not_lt.mpr hle,
      not_le.mpr hprevious, firstError_checkMultiwordColumn.mpr hcolumns]
    rfl

/-- When the row of an empty node is handled without an error. -/
theorem handleEmptyNode_eq_ok {line : Bytes} {row : Row} {st st' : LineState} :
    handleEmptyNode line row st = .ok st' ↔
      ∃ first second index, split dot row.id = [first, second] ∧
        parseInt first (bytes "CoNLL-U empty node id") =
          .ok ((st.sentence.words.length : ℤ) - 1) ∧
        parseInt second (bytes "CoNLL-U empty node index") = .ok index ∧
        emptyNodeFollows st.sentence.emptyNodes (st.sentence.words.length - 1) index = true ∧
        row.head = underscore ∧ row.deprel = underscore ∧
        st' = st.addEmptyNode (row.emptyNode (st.sentence.words.length - 1) index) := by
  constructor
  · intro h
    unfold handleEmptyNode at h
    dsimp only at h
    split at h
    · rename_i first second hparts
      split at h
      · cases h
      · rename_i id hfirst
        split at h
        · cases h
        · rename_i index hsecond
          split at h
          · cases h
          · rename_i hid
            obtain rfl : id = st.sentence.words.length - 1 := not_not.mp hid
            split at h
            · cases h
            · rename_i hfollows
              split at h
              · cases h
              · rename_i hcolumns
                obtain ⟨hhead, hdeprel⟩ := firstError_checkEmptyNodeColumn.mp hcolumns
                exact ⟨first, second, index, hparts, hfirst, hsecond, by simpa using hfollows,
                  hhead, hdeprel, (Except.ok.inj h).symm⟩
    · cases h
  · rintro ⟨first, second, index, hparts, hfirst, hsecond, hfollows, hhead, hdeprel, rfl⟩
    unfold handleEmptyNode
    simp only [hparts, hfirst, hsecond, ne_eq, not_true_eq_false, if_false, hfollows,
      Bool.true_eq_false, firstError_checkEmptyNodeColumn.mpr ⟨hhead, hdeprel⟩]
    rfl

/-- When the row of a word is handled without an error. -/
theorem handleWord_eq_ok {line : Bytes} {row : Row} {st st' : LineState} :
    handleWord line row st = .ok st' ↔
      parseInt row.id (bytes "CoNLL-U id") = .ok (st.sentence.words.length : ℤ) ∧
        ∃ head, parseHead row = .ok head ∧
          st' = st.addWord (row.word st.sentence.words.length head) := by
  constructor
  · intro h
    unfold handleWord at h
    split at h
    · cases h
    · rename_i id hid
      split at h
      · cases h
      · rename_i heq
        split at h
        · cases h
        · rename_i head hhead
          exact ⟨by rw [hid, not_not.mp heq], head, hhead, (Except.ok.inj h).symm⟩
  · rintro ⟨hid, head, hhead, rfl⟩
    unfold handleWord
    simp only [hid, hhead, ne_eq, not_true_eq_false, if_false]
    rfl

/-- A head column that is accepted gives no head, or a nonnegative `int`. -/
theorem parseHead_bounds {row : Row} {head : ℤ} (h : parseHead row = .ok head) :
    -1 ≤ head ∧ head ≤ intMax := by
  unfold parseHead at h
  split at h
  · cases h
    exact ⟨le_rfl, by decide⟩
  · split at h
    · cases h
    · rename_i value hvalue
      split at h
      · cases h
      · cases h
        exact ⟨by omega, (parseInt_bounds hvalue).2⟩

end UDPipe.Conllu
