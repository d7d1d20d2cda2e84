import UDPipe.Conllu.LineRuns
import Mathlib.Data.List.Induction

/-!
# Reading what was written

Each line the writer writes for a part of an accepted sentence makes the reader
add exactly that part. Over the loop of the writer this gives back the words,
ranges and empty nodes that the reader had read, and linking restores the rest.
-/

namespace UDPipe.Conllu

/-! ### Written fields -/

/-- A field is read as it was, unless it is an underscore. -/
theorem unlessUnderscore_underscoreOnEmpty {field : Bytes} (h : field ≠ underscore) :
    unlessUnderscore (underscoreOnEmpty field) = field := by
  unfold underscoreOnEmpty
  split
  · simp_all [unlessUnderscore]
  · exact if_neg h

/-- A column is never empty. -/
theorem underscoreOnEmpty_ne_nil (field : Bytes) : underscoreOnEmpty field ≠ [] := by
  unfold underscoreOnEmpty
  split
  · simp [underscore]
  · assumption

/-- A field that is not empty is written as it is. -/
theorem underscoreOnEmpty_of_ne_nil {field : Bytes} (h : field ≠ []) :
    underscoreOnEmpty field = field := if_neg h

/-- A column has the bytes of its field, or an underscore. -/
theorem mem_underscoreOnEmpty {field : Bytes} {c : Byte} (h : c ∈ underscoreOnEmpty field) :
    c = underscoreByte ∨ c ∈ field := by
  unfold underscoreOnEmpty at h
  split at h
  · exact Or.inl (by simpa [underscore] using h)
  · exact Or.inr h

/-- A field is written as it is where its spaces are allowed. -/
theorem writeWithSpaces_eq {version : ℕ} {field : Bytes} (h : version < 2 → space ∉ field) :
    writeWithSpaces version field = field := by
  unfold writeWithSpaces
  by_cases hversion : version ≥ 2
  · simp [hversion]
  · simp [h (by omega)]

/-- The bytes of a number are none of the bytes that structure a line. -/
theorem natToString_separators (n : ℕ) : tab ∉ natToString n ∧ space ∉ natToString n ∧
    minus ∉ natToString n ∧ dot ∉ natToString n ∧ hash ∉ natToString n ∧
    underscoreByte ∉ natToString n := by
  have hdigit : ∀ c : Byte, isDigit c = false → c ∉ natToString n := fun c hc hmem => by
    rw [isDigit_of_mem_natToString hmem] at hc
    cases hc
  exact ⟨hdigit _ (by decide), hdigit _ (by decide), hdigit _ (by decide), hdigit _ (by decide),
    hdigit _ (by decide), hdigit _ (by decide)⟩

/-- A token of a column without spaces. -/
structure PlainToken (token : Bytes) : Prop where
  ne_nil : token ≠ []
  clean : Clean token
  no_space : space ∉ token

/-- A token of a column that may contain spaces from version 2 on. -/
structure SpacedToken (version : ℕ) (token : Bytes) : Prop where
  ne_nil : token ≠ []
  clean : Clean token
  no_space : version < 2 → space ∉ token

/-- A clean field has no tab. -/
theorem Clean.tab_not_mem {field : Bytes} (h : Clean field) : tab ∉ field := fun hc =>
  (h tab hc).1 rfl

/-- An underscore is a column without spaces. -/
theorem plainToken_underscore : PlainToken underscore where
  ne_nil := by decide
  clean := by decide
  no_space := by decide

/-- A number is a column without spaces. -/
theorem plainToken_natToString (n : ℕ) : PlainToken (natToString n) where
  ne_nil := natToString_ne_nil n
  clean c hc := by
    have hdigit := isDigit_of_mem_natToString hc
    refine ⟨?_, ?_⟩
    · rintro rfl
      revert hdigit
      decide
    · rw [Bool.eq_false_iff, ne_eq, isLineEnd_iff]
      rintro (rfl | rfl) <;> revert hdigit <;> decide
  no_space := (natToString_separators n).2.1

/-- A column without spaces may stand where spaces are allowed. -/
theorem PlainToken.spaced {token : Bytes} (h : PlainToken token) (version : ℕ) :
    SpacedToken version token := ⟨h.ne_nil, h.clean, fun _ => h.no_space⟩

/-- Two columns with a byte between them, as in a range, are one. -/
theorem PlainToken.append {token token' : Bytes} {c : Byte} (h : PlainToken token)
    (h' : PlainToken token') (hclean : Clean [c]) (hspace : c ≠ space) :
    PlainToken (token ++ [c] ++ token') where
  ne_nil := by simp
  clean := by
    simp only [Clean, List.forall_mem_append]
    exact ⟨⟨h.clean, hclean⟩, h'.clean⟩
  no_space := by simp [h.no_space, h'.no_space, hspace.symm]

/-- The column of a clean field is clean. -/
theorem Clean.underscoreOnEmpty {field : Bytes} (h : Clean field) :
    Clean (underscoreOnEmpty field) := fun c hc => by
  rcases mem_underscoreOnEmpty hc with rfl | hc
  · decide
  · exact h c hc

/-- The column of a tag has no spaces. -/
theorem TagField.plainToken {field : Bytes} (h : TagField field) :
    PlainToken (underscoreOnEmpty field) where
  ne_nil := underscoreOnEmpty_ne_nil field
  clean := h.clean.underscoreOnEmpty
  no_space hc := (mem_underscoreOnEmpty hc).elim (by decide) h.no_space

/-- The column of MISC may have spaces. -/
theorem MiscField.spacedToken {version : ℕ} {field : Bytes} (h : MiscField version field) :
    SpacedToken version (underscoreOnEmpty field) where
  ne_nil := underscoreOnEmpty_ne_nil field
  clean := h.clean.underscoreOnEmpty
  no_space hv hc := (mem_underscoreOnEmpty hc).elim (by decide) (h.no_space hv)

/-- The column of a form may have spaces. -/
theorem FormField.spacedToken {version : ℕ} {field : Bytes} (h : FormField version field) :
    SpacedToken version field := ⟨h.ne_nil, h.clean, h.no_space⟩

/-! ### Written rows -/

/-- A row that can be written and read back. -/
structure Row.Written (version : ℕ) (row : Row) : Prop where
  id : row.id.head? ≠ some hash
  plain : ∀ token ∈ [row.id, row.upostag, row.xpostag, row.feats, row.head, row.deprel, row.deps],
    PlainToken token
  spaced : ∀ token ∈ [row.form, row.lemma, row.misc], SpacedToken version token

/-- All columns of a written row are columns of its version. -/
theorem Row.Written.spaced_tokens {version : ℕ} {row : Row} (h : row.Written version) :
    ∀ token ∈ row.tokens, SpacedToken version token := by
  have hplain := fun token ht => (h.plain token ht).spaced version
  have hspaced := h.spaced
  simp only [List.forall_mem_cons] at hplain hspaced
  simp only [Row.tokens, List.forall_mem_cons]
  tauto

/-- A written row passes the checks. -/
theorem Row.Written.checked {version : ℕ} {row : Row} (h : row.Written version) :
    row.Checked version where
  ne_nil token ht := (h.spaced_tokens token ht).ne_nil
  no_space token ht := (h.plain token ht).no_space
  no_space_v1 hv token ht := (h.spaced token ht).no_space hv

/-- A row of clean tokens makes a line. -/
theorem isLine_line {row : Row} (hne : row.id ≠ []) (h : ∀ token ∈ row.tokens, Clean token) :
    IsLine row.line := by
  have hclean : ∀ token ∈ row.tokens, ∀ c ∈ token, isLineEnd c = false := fun token ht c hc =>
    (h token ht c hc).2
  have htab : isLineEnd tab = false := rfl
  simp only [Row.tokens, List.forall_mem_cons] at hclean
  refine ⟨?_, ?_⟩
  · rw [Row.line, Row.tokens, List.intercalate_cons_cons]
    exact List.append_ne_nil_of_left_ne_nil (List.append_ne_nil_of_left_ne_nil hne _) _
  · simp only [Row.line, Row.tokens, List.intercalate_cons_cons, List.intercalate_singleton,
      List.forall_mem_append, List.forall_mem_singleton, htab]
    tauto

/-- The line of a row begins like its id. -/
theorem head?_line {row : Row} (hne : row.id ≠ []) : row.line.head? = row.id.head? := by
  rw [Row.line, Row.tokens, List.intercalate_cons_cons]
  obtain ⟨c, rest, hrow⟩ := List.exists_cons_of_ne_nil hne
  simp [hrow]

/-- A written row is a line. -/
theorem Row.Written.isLine {version : ℕ} {row : Row} (h : row.Written version) :
    IsLine row.line :=
  isLine_line (h.plain row.id (by simp)).ne_nil fun token ht => (h.spaced_tokens token ht).clean

/-- The reader dispatches on the id of a written row. -/
theorem handleLine_line {version : ℕ} {row : Row} {st : LineState} (h : row.Written version) :
    handleLine version row.line st =
      if minus ∈ row.id then handleMultiwordToken version row.line row st
      else if version ≥ 2 ∧ dot ∈ row.id then handleEmptyNode row.line row st
      else handleWord row.line row st := by
  have hne : row.id ≠ [] := (h.plain row.id (by simp)).ne_nil
  rw [handleLine, if_neg (head?_line hne ▸ h.id), handleRow,
    split_line hne fun token ht => (h.spaced_tokens token ht).clean.tab_not_mem, ofTokens_tokens]
  simp only [firstError_checkColumn.mpr h.checked]

/-- A line that begins with a number is no comment. -/
theorem head?_natToString_append (n : ℕ) (rest : Bytes) :
    (natToString n ++ rest).head? ≠ some hash := by
  obtain ⟨c, digits, hdigits⟩ := List.exists_cons_of_ne_nil (natToString_ne_nil n)
  intro h
  refine (natToString_separators n).2.2.2.2.1 ?_
  rw [hdigits] at h ⊢
  simp only [List.cons_append, List.head?_cons, Option.some.injEq] at h
  simp [h]

/-- The head column of a written word. -/
theorem parseHead_wordRow (version i : ℕ) {word : Word}
    (h : -1 ≤ word.head ∧ word.head ≤ intMax) : PlainToken (wordRow version i word).head ∧
      parseHead (wordRow version i word) = .ok word.head := by
  rw [wordRow, parseHead]
  dsimp only
  by_cases hneg : word.head < 0
  · have : word.head = -1 := by omega
    rw [if_pos hneg, if_pos rfl, this]
    exact ⟨plainToken_underscore, rfl⟩
  · obtain ⟨n, hn⟩ : ∃ n : ℕ, word.head = n := ⟨word.head.toNat, by omega⟩
    have hne : natToString n ≠ underscore := fun heq =>
      (natToString_separators n).2.2.2.2.2 (by simp [heq, underscore])
    rw [if_neg hneg, hn, intToString_natCast, if_neg hne, parseInt_natToString (hn ▸ h.2)]
    exact ⟨plainToken_natToString n, if_neg (by omega)⟩

/-- The line of a word makes the reader add the word. -/
theorem readsLines_wordLine {version i : ℕ} {word : Word} {st : LineState}
    (hfields : WordFields version word) (hid : word.id = i) (hchildren : word.children = [])
    (hlength : st.sentence.words.length = i) (hmax : (i : ℤ) ≤ intMax) :
    ReadsLines version [wordLine version i word] st (st.addWord word) := by
  have hminus : minus ∉ (wordRow version i word).id := (natToString_separators i).2.2.1
  have hdot : dot ∉ (wordRow version i word).id := (natToString_separators i).2.2.2.1
  have htags := hfields.tags
  simp only [List.forall_mem_cons, List.not_mem_nil, false_implies, implies_true, and_true] at htags
  obtain ⟨hupostag, hxpostag, hfeats, hdeprel, hdeps⟩ := htags
  have hform : (wordRow version i word).form = word.form := writeWithSpaces_eq hfields.form.no_space
  have hlemma : Row.lemma (wordRow version i word) = word.lemma := by
    rw [wordRow, underscoreOnEmpty_of_ne_nil hfields.lemma.ne_nil,
      writeWithSpaces_eq hfields.lemma.no_space]
  obtain ⟨hheadPlain, hhead⟩ := parseHead_wordRow version i hfields.head
  have hwritten : (wordRow version i word).Written version := by
    refine ⟨?_, ?_, ?_⟩
    · simpa [wordRow] using head?_natToString_append i []
    · simp only [List.forall_mem_cons]
      exact ⟨plainToken_natToString i, hupostag.plainToken, hxpostag.plainToken, hfeats.plainToken,
        hheadPlain, hdeprel.plainToken, hdeps.plainToken, by simp⟩
    · simp only [List.forall_mem_cons, hform, hlemma]
      exact ⟨hfields.form.spacedToken, hfields.lemma.spacedToken, hfields.misc.spacedToken,
        by simp⟩
  rw [wordLine_eq]
  refine .single hwritten.isLine ?_
  rw [handleLine_line hwritten, if_neg hminus, if_neg fun h => hdot h.2, handleWord_eq_ok]
  refine ⟨by rw [hlength]; exact parseInt_natToString hmax _, word.head, hhead, ?_⟩
  obtain ⟨⟨form, misc⟩, ⟨head, deprel, children⟩, id, l, upostag, xpostag, feats, deps⟩ := word
  rw [Row.word, hform, fillWord, hlemma, hlength]
  dsimp only [wordRow] at *
  simp only [hid, hchildren, unlessUnderscore_underscoreOnEmpty hupostag.ne_underscore,
    unlessUnderscore_underscoreOnEmpty hxpostag.ne_underscore,
    unlessUnderscore_underscoreOnEmpty hfeats.ne_underscore,
    unlessUnderscore_underscoreOnEmpty hdeprel.ne_underscore,
    unlessUnderscore_underscoreOnEmpty hdeps.ne_underscore,
    unlessUnderscore_underscoreOnEmpty hfields.misc.ne_underscore]

/-- An id of two numbers is split at the separator. -/
private theorem split_two_numbers {c : Byte} (m n : ℕ) (hm : c ∉ natToString m)
    (hn : c ∉ natToString n) :
    split c (natToString m ++ [c] ++ natToString n) = [natToString m, natToString n] := by
  have hpieces : ∀ p ∈ [natToString m, natToString n], c ∉ p := by simp [hm, hn]
  simpa using split_intercalate hpieces (by simp)

/-- The line of a multiword token makes the reader add the token. -/
theorem readsLines_multiwordTokenLine {version : ℕ} {token : MultiwordToken} {st : LineState}
    (hfields : MultiwordFields version token) (hfirst : token.idFirst = st.sentence.words.length)
    (hrange : token.idFirst ≤ token.idLast) (hmax : token.idLast ≤ intMax)
    (hprevious : st.lastMultiwordToken < token.idFirst) :
    ReadsLines version [multiwordTokenLine version token] st (st.addMultiwordToken token) := by
  obtain ⟨last, hlast⟩ : ∃ n : ℕ, token.idLast = n := ⟨token.idLast.toNat, by omega⟩
  have hid : (multiwordTokenRow version token).id =
      natToString st.sentence.words.length ++ [minus] ++ natToString last := by
    simp only [multiwordTokenRow, hfirst, hlast, intToString_natCast]
  have hform : (multiwordTokenRow version token).form = token.form :=
    writeWithSpaces_eq hfields.form.no_space
  have hfeats : token.feats ≠ underscore ∧ PlainToken (underscoreOnEmpty token.feats) := by
    rcases hfields.feats with hfeats | ⟨_, hfeats⟩ <;> rw [hfeats]
    · exact ⟨by simp [underscore], plainToken_underscore⟩
    · exact ⟨by decide, by constructor <;> decide⟩
  have hwritten : (multiwordTokenRow version token).Written version := by
    refine ⟨?_, ?_, ?_⟩
    · rw [hid, List.append_assoc]
      exact head?_natToString_append _ _
    · simp only [List.forall_mem_cons, hid]
      exact ⟨(plainToken_natToString _).append (plainToken_natToString _) (by decide) (by decide),
        plainToken_underscore, plainToken_underscore, hfeats.2, plainToken_underscore,
        plainToken_underscore, plainToken_underscore, by simp⟩
    · simp only [List.forall_mem_cons, hform]
      exact ⟨hfields.form.spacedToken, plainToken_underscore.spaced version,
        hfields.misc.spacedToken, by simp⟩
  rw [multiwordTokenLine_eq]
  refine .single hwritten.isLine ?_
  rw [handleLine_line hwritten, if_pos (by simp [hid]), handleMultiwordToken_eq_ok]
  refine ⟨natToString st.sentence.words.length, natToString last, token.idLast, ?_,
    parseInt_natToString (by omega) _, ?_, by omega, by omega, ⟨?_, ?_⟩, ?_⟩
  · rw [hid]
    exact split_two_numbers _ _ (natToString_separators _).2.2.1 (natToString_separators _).2.2.1
  · rw [hlast]
    exact parseInt_natToString (by omega) _
  · simp [multiwordTokenRow]
  · rcases hfields.feats with hfeats | ⟨hversion, hfeats⟩
    · exact Or.inl (by simp [multiwordTokenRow, hfeats, underscoreOnEmpty])
    · exact Or.inr ⟨hversion, by simp [multiwordTokenRow, hfeats, underscoreOnEmpty]⟩
  · obtain ⟨⟨form, misc⟩, idFirst, idLast, feats⟩ := token
    rw [Row.multiwordToken, hform]
    dsimp only [multiwordTokenRow] at *
    simp only [hfirst, unlessUnderscore_underscoreOnEmpty hfeats.1,
      unlessUnderscore_underscoreOnEmpty hfields.misc.ne_underscore]

/-- The line of an empty node makes the reader add the node. -/
theorem readsLines_emptyNodeLine {version i : ℕ} {node : EmptyNode} {st : LineState}
    (hversion : 2 ≤ version) (hfields : EmptyNodeFields version node) (hid : node.id = i)
    (hlength : st.sentence.words.length = i + 1) (hmax : (i : ℤ) ≤ intMax)
    (hindex : 0 ≤ node.index ∧ node.index ≤ intMax)
    (hfollows : emptyNodeFollows st.sentence.emptyNodes node.id node.index = true) :
    ReadsLines version [emptyNodeLine i node] st (st.addEmptyNode node) := by
  obtain ⟨index, hn⟩ : ∃ n : ℕ, node.index = n := ⟨node.index.toNat, by omega⟩
  have hrow : (emptyNodeRow i node).id = natToString i ++ [dot] ++ natToString index := by
    simp only [emptyNodeRow, hn, intToString_natCast]
  have hlast : (st.sentence.words.length : ℤ) - 1 = i := by omega
  have htags := hfields.tags
  simp only [List.forall_mem_cons, List.not_mem_nil, false_implies, implies_true, and_true] at htags
  obtain ⟨hupostag, hxpostag, hfeats, hdeps⟩ := htags
  have hlemma : Row.lemma (emptyNodeRow i node) = node.lemma :=
    underscoreOnEmpty_of_ne_nil hfields.lemma.ne_nil
  have hwritten : (emptyNodeRow i node).Written version := by
    refine ⟨?_, ?_, ?_⟩
    · rw [hrow, List.append_assoc]
      exact head?_natToString_append _ _
    · simp only [List.forall_mem_cons, hrow]
      exact ⟨(plainToken_natToString _).append (plainToken_natToString _) (by decide) (by decide),
        hupostag.plainToken, hxpostag.plainToken, hfeats.plainToken, plainToken_underscore,
        plainToken_underscore, hdeps.plainToken, by simp⟩
    · simp only [List.forall_mem_cons, hlemma]
      exact ⟨hfields.form.spacedToken, hfields.lemma.spacedToken, hfields.misc.spacedToken,
        by simp⟩
  have hminus : minus ∉ (emptyNodeRow i node).id := by
    rw [hrow]
    have hne : minus ≠ dot := by decide
    simp [(natToString_separators i).2.2.1, (natToString_separators index).2.2.1, hne]
  rw [emptyNodeLine_eq]
  refine .single hwritten.isLine ?_
  rw [handleLine_line hwritten, if_neg hminus, if_pos ⟨hversion, by simp [hrow]⟩,
    handleEmptyNode_eq_ok, hlast]
  refine ⟨natToString i, natToString index, node.index, ?_, parseInt_natToString hmax _, ?_, ?_,
    rfl, rfl, ?_⟩
  · rw [hrow]
    exact split_two_numbers _ _ (natToString_separators _).2.2.2.1
      (natToString_separators _).2.2.2.1
  · rw [hn]
    exact parseInt_natToString (by omega) _
  · rwa [← hid]
  · obtain ⟨id, index, form, l, upostag, xpostag, feats, deps, misc⟩ := node
    rw [Row.emptyNode, hlemma]
    dsimp only [emptyNodeRow] at *
    simp only [hid, unlessUnderscore_underscoreOnEmpty hupostag.ne_underscore,
      unlessUnderscore_underscoreOnEmpty hxpostag.ne_underscore,
      unlessUnderscore_underscoreOnEmpty hfeats.ne_underscore,
      unlessUnderscore_underscoreOnEmpty hdeps.ne_underscore,
      unlessUnderscore_underscoreOnEmpty hfields.misc.ne_underscore]

/-! ### Written sentences -/

/-- How far the reader has come in a sentence: what is left to read, and the
part of the sentence in its state. -/
structure Progress (target st : LineState) (words : List Word) (tokens : List MultiwordToken)
    (nodes : List EmptyNode) : Prop where
  words : target.sentence.words = st.sentence.words ++ words
  tokens : target.sentence.multiwordTokens = st.sentence.multiwordTokens ++ tokens
  nodes : target.sentence.emptyNodes = st.sentence.emptyNodes ++ nodes
  comments : target.sentence.comments = st.sentence.comments
  last : st.lastMultiwordToken = lastCovered st.sentence.multiwordTokens

/-- Part of a list of numbered empty nodes is numbered. -/
theorem Numbered.of_append {nodes nodes' : List EmptyNode} (h : Numbered (nodes ++ nodes')) :
    Numbered nodes := by
  induction nodes' using List.reverseRecOn with
  | nil => simpa using h
  | append_singleton nodes' node ih =>
    rw [← List.append_assoc] at h
    generalize hall : nodes ++ nodes' ++ [node] = all at h
    cases h with
    | nil => simp at hall
    | snoc hnodes _ =>
      obtain ⟨heq, _⟩ := List.append_inj' hall rfl
      exact ih (heq ▸ hnodes)

/-- The next of the numbered empty nodes follows those before it. -/
theorem Numbered.follows {nodes nodes' : List EmptyNode} {node : EmptyNode}
    (h : Numbered (nodes ++ node :: nodes')) :
    emptyNodeFollows nodes node.id node.index = true := by
  have hnext : Numbered (nodes ++ [node]) := by
    rw [← List.singleton_append, ← List.append_assoc] at h
    exact h.of_append
  generalize hall : nodes ++ [node] = all at hnext
  cases hnext with
  | nil => simp at hall
  | snoc _ hfollows =>
    obtain ⟨rfl, hnode⟩ := List.append_inj' hall rfl
    obtain rfl : node = _ := by simpa using hnode
    exact hfollows

/-- The indices of numbered empty nodes are not negative. -/
theorem Numbered.index_nonneg {nodes : List EmptyNode} (h : Numbered nodes) {node : EmptyNode}
    (hnode : node ∈ nodes) : 0 ≤ node.index := by
  induction h generalizing node with
  | nil => simp at hnode
  | @snoc nodes last hnodes hfollows ih =>
    rcases List.mem_append.mp hnode with hmem | hmem
    · exact ih hmem
    · obtain rfl := List.mem_singleton.mp hmem
      rcases List.eq_nil_or_concat' nodes with rfl | ⟨before, back, rfl⟩
      · have : node.index = 1 := by simpa [emptyNodeFollows] using hfollows
        omega
      · have hback : 0 ≤ back.index := ih (by simp)
        simp only [emptyNodeFollows, List.getLast?_concat, Bool.or_eq_true, Bool.and_eq_true,
          decide_eq_true_eq, beq_iff_eq] at hfollows
        omega

section Progress

variable {version : ℕ} {target st : LineState} {words : List Word} {tokens : List MultiwordToken}
  {nodes : List EmptyNode}

/-- The multiword token at the next word is read, if there is one. -/
theorem progress_multiwordTokenLines {i : ℕ} (hvalid : target.Valid version)
    (h : Progress target st words tokens nodes) (hlength : st.sentence.words.length = i)
    (htokens : ∀ token ∈ tokens, (i : ℤ) ≤ token.idFirst) :
    ∃ st', ReadsLines version (multiwordTokenLines version i tokens).1 st st' ∧
      Progress target st' words (multiwordTokenLines version i tokens).2 nodes ∧
      st'.sentence.words = st.sentence.words ∧
      ∀ token ∈ (multiwordTokenLines version i tokens).2, (i + 1 : ℤ) ≤ token.idFirst := by
  have hordered := hvalid.multiwordTokens.ordered
  rw [h.tokens, List.pairwise_append] at hordered
  have hrange : ∀ token ∈ tokens, token.idFirst ≤ token.idLast := fun token ht =>
    (hvalid.multiwordTokens.range token (by simp [h.tokens, ht])).2
  cases tokens with
  | nil => exact ⟨st, .nil _ _, h, rfl, by simp [multiwordTokenLines]⟩
  | cons token rest =>
    have hnext := (List.pairwise_cons.mp hordered.2.1).1
    have hlater : ∀ token' ∈ rest, (i + 1 : ℤ) ≤ token'.idFirst := fun token' ht => by
      have := hnext token' ht
      have := htokens token (by simp)
      have := hrange token (by simp)
      omega
    by_cases hfirst : (i : ℤ) = token.idFirst
    · have hmem : token ∈ target.sentence.multiwordTokens := by simp [h.tokens]
      have hbounds := hvalid.multiwordTokens.bounds token hmem
      have hprevious : st.lastMultiwordToken < token.idFirst := by
        rw [h.last]
        rcases List.eq_nil_or_concat' st.sentence.multiwordTokens with hnil | ⟨before, last, hsnoc⟩
        · have := (hvalid.multiwordTokens.range token hmem).1
          rw [hnil, lastCovered_nil]
          omega
        · rw [hsnoc, lastCovered_snoc]
          exact hordered.2.2 last (by simp [hsnoc]) token (by simp)
      have hline := readsLines_multiwordTokenLine
        (hvalid.multiwordTokens.fields token hmem) (by omega) (hrange token (by simp)) hbounds.2
        hprevious
      simp only [multiwordTokenLines, if_pos hfirst]
      refine ⟨st.addMultiwordToken token, hline, ?_, rfl, hlater⟩
      exact ⟨h.words, by simp [h.tokens, LineState.addMultiwordToken], h.nodes, h.comments,
        (lastCovered_snoc _ _).symm⟩
    · simp only [multiwordTokenLines, if_neg hfirst]
      refine ⟨st, .nil _ _, h, rfl, ?_⟩
      simp only [List.forall_mem_cons]
      have := htokens token (by simp)
      exact ⟨by omega, hlater⟩

/-- The empty nodes after the last word are read. -/
theorem progress_emptyNodeLines {i : ℕ} (hvalid : target.Valid version) (hversion : 2 ≤ version)
    (h : Progress target st words tokens nodes) (hlength : st.sentence.words.length = i + 1)
    (hnodes : ∀ node ∈ nodes, (i : ℤ) ≤ node.id) :
    ∃ st', ReadsLines version (emptyNodeLines i nodes).1 st st' ∧
      Progress target st' words tokens (emptyNodeLines i nodes).2 ∧
      st'.sentence.words = st.sentence.words ∧
      ∀ node ∈ (emptyNodeLines i nodes).2, (i + 1 : ℤ) ≤ node.id := by
  induction nodes generalizing st with
  | nil => exact ⟨st, .nil _ _, h, rfl, by simp [emptyNodeLines]⟩
  | cons node rest ih =>
    have hordered := hvalid.emptyNodes.numbered.order.1
    rw [h.nodes, List.pairwise_append] at hordered
    have hnext := (List.pairwise_cons.mp hordered.2.1).1
    by_cases hid : (i : ℤ) = node.id
    · have hmem : node ∈ target.sentence.emptyNodes := by simp [h.nodes]
      have hbounds := hvalid.emptyNodes.bounds node hmem
      have hmax : (i : ℤ) ≤ intMax := by
        have := hvalid.words.length_le
        omega
      have hline := readsLines_emptyNodeLine hversion
        (hvalid.emptyNodes.fields node hmem) hid.symm hlength hmax
        ⟨hvalid.emptyNodes.numbered.index_nonneg hmem, hbounds.2.2⟩
        (Numbered.follows (h.nodes ▸ hvalid.emptyNodes.numbered))
      have hprogress : Progress target (st.addEmptyNode node) words tokens rest :=
        ⟨h.words, h.tokens, by simp [h.nodes, LineState.addEmptyNode], h.comments, h.last⟩
      obtain ⟨st', hread, hprogress', hwords, hlater⟩ := ih hprogress hlength
        fun node' hn => hnodes node' (by simp [hn])
      simp only [emptyNodeLines, if_pos hid]
      exact ⟨st', hline.append hread, hprogress', hwords, hlater⟩
    · simp only [emptyNodeLines, if_neg hid]
      refine ⟨st, .nil _ _, h, rfl, ?_⟩
      have hnode := hnodes node (by simp)
      simp only [List.forall_mem_cons]
      exact ⟨by omega, fun node' hn => by have := hnext node' hn; omega⟩

/-- The empty nodes after the last word are read in version 2; there are none before it. -/
private theorem progress_emptyNodes {i : ℕ} (hvalid : target.Valid version)
    (h : Progress target st words tokens nodes) (hlength : st.sentence.words.length = i + 1)
    (hnodes : ∀ node ∈ nodes, (i : ℤ) ≤ node.id) :
    let lines := if version ≥ 2 then emptyNodeLines i nodes else ([], nodes)
    ∃ st', ReadsLines version lines.1 st st' ∧ Progress target st' words tokens lines.2 ∧
      st'.sentence.words = st.sentence.words ∧ ∀ node ∈ lines.2, (i + 1 : ℤ) ≤ node.id := by
  by_cases hversion : version ≥ 2
  · simp only [if_pos hversion]
    exact progress_emptyNodeLines hvalid hversion h hlength hnodes
  · have hnil : nodes = [] := by
      by_contra hne
      exact hversion (hvalid.emptyNodes.version (by simp [h.nodes, hne]))
    subst hnil
    simp only [if_neg hversion]
    exact ⟨st, .nil _ _, h, rfl, by simp⟩

/-- The lines of the words from index `i` on make the reader complete the sentence. -/
theorem readsLines_nodeLines {i : ℕ} (hvalid : target.Valid version)
    (hcovered : ∀ token ∈ target.sentence.multiwordTokens,
      token.idFirst < target.sentence.words.length)
    (h : Progress target st words tokens nodes) (hlength : st.sentence.words.length = i)
    (hi : 0 < i) (htokens : ∀ token ∈ tokens, (i : ℤ) ≤ token.idFirst)
    (hnodes : ∀ node ∈ nodes, (i : ℤ) ≤ node.id) :
    ReadsLines version (nodeLines version i words tokens nodes) st target := by
  induction words generalizing i st tokens nodes with
  | nil =>
    have hend : target.sentence.words.length = i := by simp [h.words, hlength]
    obtain rfl : tokens = [] := List.eq_nil_iff_forall_not_mem.mpr fun token ht => by
      have := hcovered token (by simp [h.tokens, ht])
      have := htokens token ht
      omega
    obtain rfl : nodes = [] := List.eq_nil_iff_forall_not_mem.mpr fun node hn => by
      have := (hvalid.emptyNodes.bounds node (by simp [h.nodes, hn])).2.1
      have := hnodes node hn
      omega
    have hlast := hvalid.last
    obtain ⟨hwords, htokens, hnodes, hcomments, hstLast⟩ := h
    obtain ⟨⟨words, multiwordTokens, emptyNodes, comments⟩, last⟩ := target
    obtain ⟨⟨words', multiwordTokens', emptyNodes', comments'⟩, last'⟩ := st
    simp only [List.append_nil] at hwords htokens hnodes hcomments hstLast hlast
    subst hwords htokens hnodes hcomments hstLast hlast
    exact .nil _ _
  | cons word rest ih =>
    have hword : target.sentence.words[i]? = some word := by simp [h.words, ← hlength]
    obtain ⟨hid, hchildren⟩ := hvalid.words.unlinked i word hword
    have hfields : WordFields version word := by
      refine hvalid.words.fields word ?_
      obtain ⟨k, rfl⟩ : ∃ k, i = k + 1 := ⟨i - 1, by omega⟩
      exact List.mem_of_getElem? (i := k) (by simpa using hword)
    have hmax : (i : ℤ) ≤ intMax := by
      have := (List.getElem?_eq_some_iff.mp hword).1
      have := hvalid.words.length_le
      omega
    obtain ⟨st₁, hread₁, hprogress₁, hwords₁, htokens₁⟩ :=
      progress_multiwordTokenLines hvalid h hlength htokens
    have hline := readsLines_wordLine hfields hid hchildren (hwords₁ ▸ hlength) hmax
    have hprogress₂ : Progress target (st₁.addWord word) rest
        (multiwordTokenLines version i tokens).2 nodes :=
      ⟨by simp [hprogress₁.words, LineState.addWord], hprogress₁.tokens, hprogress₁.nodes,
        hprogress₁.comments, hprogress₁.last⟩
    have hlength₂ : (st₁.addWord word).sentence.words.length = i + 1 := by
      simp [LineState.addWord, hwords₁, hlength]
    obtain ⟨st₃, hread₃, hprogress₃, hwords₃, hnodes₃⟩ :=
      progress_emptyNodes hvalid hprogress₂ hlength₂ hnodes
    have hrest := ih hprogress₃ (hwords₃ ▸ hlength₂) (by omega) (by exact_mod_cast htokens₁)
      (by exact_mod_cast hnodes₃)
    simp only [nodeLines, if_pos hi]
    exact ((hread₁.append hline).append hread₃).append hrest

end Progress

/-- The first pass of the writer, at the root: only empty nodes can be written. -/
private theorem readsLines_root {version : ℕ} {target st : LineState} {words : List Word}
    (hvalid : target.Valid version)
    (hcovered : ∀ token ∈ target.sentence.multiwordTokens,
      token.idFirst < target.sentence.words.length)
    (h : Progress target st words target.sentence.multiwordTokens target.sentence.emptyNodes)
    (hlength : st.sentence.words.length = 1) :
    ReadsLines version (nodeLines version 0 (Sentence.rootWord :: words)
      target.sentence.multiwordTokens target.sentence.emptyNodes) st target := by
  obtain ⟨st', hread, hprogress, hwords', hnodes⟩ := progress_emptyNodes (i := 0) hvalid h hlength
    fun node hn => (hvalid.emptyNodes.bounds node hn).1
  have hrest := readsLines_nodeLines (i := 1) hvalid hcovered hprogress (hwords' ▸ hlength) one_pos
    (fun token ht => (hvalid.multiwordTokens.range token ht).1) (by simpa using hnodes)
  simp only [nodeLines, lt_irrefl, if_false, List.nil_append]
  exact hread.append hrest

/-- The children of words do not matter for the writer. -/
theorem nodeLines_linkedBelow (version i : ℕ) (words : List Word) (k : ℕ)
    (tokens : List MultiwordToken) (nodes : List EmptyNode) :
    nodeLines version i (linkedBelow words k) tokens nodes =
      nodeLines version i words tokens nodes := by
  have key : ∀ (words words' : List Word) (i : ℕ) (tokens : List MultiwordToken)
      (nodes : List EmptyNode),
      words.map (fun w => { w with children := [] }) = words'.map (fun w => { w with children := [] }) →
      nodeLines version i words tokens nodes = nodeLines version i words' tokens nodes := by
    intro words
    induction words with
    | nil =>
      intro words' i tokens nodes h
      simp_all
    | cons word words ih =>
      intro words' i tokens nodes h
      cases words' with
      | nil => simp at h
      | cons word' words' =>
        simp only [List.map_cons, List.cons.injEq] at h
        have hline : wordLine version i word = wordLine version i word' := by
          change wordLine version i { word with children := [] } =
            wordLine version i { word' with children := [] }
          rw [h.1]
        simp only [nodeLines, hline, ih words' _ _ _ h.2]
  refine key _ _ i tokens nodes (List.ext_getElem? fun j => ?_)
  simp only [List.getElem?_map, getElem?_linkedBelow, Option.map_map]
  rfl

/-- The lines written for an accepted sentence make the reader read its parts. -/
theorem readsLines_sentenceLines {version : ℕ} {s : Sentence} {words : List Word}
    (h : Accepted version s words) :
    ReadsLines version (sentenceLines version s) .init
      ⟨{ s with words }, lastCovered s.multiwordTokens⟩ := by
  obtain ⟨rest, rfl⟩ : ∃ rest, words = Sentence.rootWord :: rest := by
    have hroot : words.head? = some Sentence.rootWord := h.valid.words.root
    exact ⟨words.tail, (List.cons_head?_tail hroot).symm⟩
  have hcovered : ∀ token ∈ s.multiwordTokens,
      token.idFirst < ((Sentence.rootWord :: rest).length : ℤ) := fun token ht => by
    have hlast := h.valid.multiwordTokens.idLast_le ht
    have hrange := (h.valid.multiwordTokens.range token ht).2
    have := h.covered
    dsimp only at hlast
    omega
  have hcomments : ReadsLines version s.comments .init _ :=
    readsLines_comments version h.valid.comments rfl
  have hprogress : Progress ⟨{ s with words := Sentence.rootWord :: rest },
      lastCovered s.multiwordTokens⟩ ⟨{ Sentence.clear with comments := s.comments }, 0⟩ rest
      s.multiwordTokens s.emptyNodes := ⟨rfl, rfl, rfl, rfl, rfl⟩
  have hroot := readsLines_root h.valid hcovered hprogress rfl
  rw [sentenceLines, h.linked, linked, nodeLines_linkedBelow]
  exact hcomments.append hroot

/-- Reading back one written sentence, whatever follows it. -/
theorem returns_writeSentence {version : ℕ} {s : Sentence} {words : List Word}
    (h : Accepted version s words) (rest : Bytes) :
    (nextSentence version (writeSentence version s ++ rest)).Returns ⟨true, s, [], rest⟩ := by
  have hne : (Sentence.isEmpty { s with words }) = false := by simp [h.nonempty]
  have hreturned := (finish_returned_iff h.valid rest).mpr ⟨h.covered, h.heads, h.nonempty⟩
  rw [nextSentence, writeSentence, List.append_assoc,
    returns_joinLines (readsLines_sentenceLines h), Comp.returns_loopOf, List.singleton_append,
    lineStep_lf, hne]
  change finish rest _ = _
  rw [finish_eq_of_returned h.valid hreturned]
  obtain ⟨swords, multiwordTokens, emptyNodes, comments⟩ := s
  have hlinked : swords = linked words := h.linked
  rw [hlinked]

/-- Reading back written sentences. -/
theorem readsAll_writeSentences {version : ℕ} {sentences : List Sentence}
    (h : ∀ s ∈ sentences, ∃ words, Accepted version s words) :
    (reader version).ReadsAll (sentences.flatMap (writeSentence version)) sentences [] [] := by
  induction sentences with
  | nil => exact .stop ⟨1, rfl⟩
  | cons s sentences ih =>
    simp only [List.forall_mem_cons] at h
    obtain ⟨words, hwords⟩ := h.1
    rw [List.flatMap_cons]
    exact .next (returns_writeSentence hwords _) (ih h.2)

/-- A sentence that the reader returned on some text. -/
def ReadFromText (version : ℕ) (s : Sentence) : Prop :=
  ∃ text rest, (nextSentence version text).Returns ⟨true, s, [], rest⟩

/-- A sentence that was read is accepted. -/
theorem ReadFromText.accepted {version : ℕ} {s : Sentence} (h : ReadFromText version s) :
    ∃ words, Accepted version s words := by
  obtain ⟨text, rest, hreturns⟩ := h
  exact (accepted_of_returns hreturns rfl).2

/-- Sentences read in version 2 are read back from what is written for them, and
reading then stops without an error. -/
theorem readAll_writeSentences {sentences : List Sentence}
    (h : ∀ s ∈ sentences, ReadFromText 2 s) (before : Bytes) :
    ((reader 2).readAll ((reader 2).setText (sentences.flatMap (writeSentence 2)) before)).Returns
      (sentences, [], []) :=
  InputFormat.returns_readAll.mpr (readsAll_writeSentences fun s hs => (h s hs).accepted)

/-- A sentence, written twice. -/
theorem readAll_writeSentences_sample : ∃ s, ReadFromText 2 s ∧
    ((reader 2).readAll ((reader 2).setText ([s, s].flatMap (writeSentence 2)) [])).Returns
      ([s, s], [], []) := by
  obtain ⟨⟨returned, s, error, rest⟩, hrun, hreturned⟩ : ∃ r,
      (nextSentence 2 sampleText).Returns r ∧ (r.returned && r.error == []) = true :=
    Comp.exists_returns_of_run 9 (by decide +kernel)
  simp only [Bool.and_eq_true, beq_iff_eq] at hreturned
  obtain ⟨rfl, rfl⟩ := hreturned
  have hs : ReadFromText 2 s := ⟨sampleText, rest, hrun⟩
  exact ⟨s, hs, readAll_writeSentences (by simp [hs]) []⟩

end UDPipe.Conllu
