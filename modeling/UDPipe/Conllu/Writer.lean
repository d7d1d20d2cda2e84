import UDPipe.Conllu.WellFormed

/-!
# The CoNLL-U writer

`output_format_conllu::write_sentence` of `sentence/output_format.cpp`. Each of
its output statements writes one line, so the output is a list of lines. Every
line but a comment is a row of ten tokens, which the reader splits again.
-/

namespace UDPipe.Conllu

/-- `underscore_on_empty`. -/
def underscoreOnEmpty (str : Bytes) : Bytes := if str = [] then underscore else str

/-- `write_with_spaces`. -/
def writeWithSpaces (version : ℕ) (str : Bytes) : Bytes :=
  if version ≥ 2 ∨ space ∉ str then str
  else str.map fun chr => if chr = space then underscoreByte else chr

/-- The line of a multiword token. -/
def multiwordTokenLine (version : ℕ) (token : MultiwordToken) : Bytes :=
  intToString token.idFirst ++ [minus] ++ intToString token.idLast ++ [tab] ++
    writeWithSpaces version token.form ++ bytes "\t_\t_\t_\t" ++ underscoreOnEmpty token.feats ++
    bytes "\t_\t_\t_\t" ++ underscoreOnEmpty token.misc

/-- The line of the word at index `i`. -/
def wordLine (version : ℕ) (i : ℕ) (word : Word) : Bytes :=
  natToString i ++ [tab] ++ writeWithSpaces version word.form ++ [tab] ++
    writeWithSpaces version (underscoreOnEmpty word.lemma) ++ [tab] ++
    underscoreOnEmpty word.upostag ++ [tab] ++ underscoreOnEmpty word.xpostag ++ [tab] ++
    underscoreOnEmpty word.feats ++ [tab] ++
    (if word.head < 0 then underscore else intToString word.head) ++ [tab] ++
    underscoreOnEmpty word.deprel ++ [tab] ++ underscoreOnEmpty word.deps ++ [tab] ++
    underscoreOnEmpty word.misc

/-- The line of an empty node after the word at index `i`. -/
def emptyNodeLine (i : ℕ) (node : EmptyNode) : Bytes :=
  natToString i ++ [dot] ++ intToString node.index ++ [tab] ++ node.form ++ [tab] ++
    underscoreOnEmpty node.lemma ++ [tab] ++ underscoreOnEmpty node.upostag ++ [tab] ++
    underscoreOnEmpty node.xpostag ++ [tab] ++ underscoreOnEmpty node.feats ++ [tab] ++
    bytes "_\t" ++ bytes "_\t" ++ underscoreOnEmpty node.deps ++ [tab] ++
    underscoreOnEmpty node.misc

/-- The multiword token that begins at index `i`, if it is the next one. The
cursor `multiword_token` of the source is the list of the tokens from it on. -/
def multiwordTokenLines (version i : ℕ) :
    List MultiwordToken → List Bytes × List MultiwordToken
  | [] => ([], [])
  | token :: tokens =>
    if (i : ℤ) = token.idFirst then ([multiwordTokenLine version token], tokens)
    else ([], token :: tokens)

/-- The loop over the empty nodes after index `i`, from the cursor `empty_node` on. -/
def emptyNodeLines (i : ℕ) : List EmptyNode → List Bytes × List EmptyNode
  | [] => ([], [])
  | node :: nodes =>
    if (i : ℤ) = node.id then
      let (lines, rest) := emptyNodeLines i nodes
      (emptyNodeLine i node :: lines, rest)
    else ([], node :: nodes)

/-- The loop over the words, from index `i` on. -/
def nodeLines (version : ℕ) : ℕ → List Word → List MultiwordToken → List EmptyNode → List Bytes
  | _, [], _, _ => []
  | i, word :: words, tokens, nodes =>
    -- Write non-root nodes
    let (tokenLines, tokens) := if i > 0 then multiwordTokenLines version i tokens else ([], tokens)
    let wordLines := if i > 0 then [wordLine version i word] else []
    -- Empty nodes
    let (emptyLines, nodes) := if version ≥ 2 then emptyNodeLines i nodes else ([], nodes)
    tokenLines ++ wordLines ++ emptyLines ++ nodeLines version (i + 1) words tokens nodes

/-- The lines of a sentence. -/
def sentenceLines (version : ℕ) (s : Sentence) : List Bytes :=
  s.comments ++ nodeLines version 0 s.words s.multiwordTokens s.emptyNodes

/-- `output_format_conllu::write_sentence`. -/
def writeSentence (version : ℕ) (s : Sentence) : Bytes := joinLines (sentenceLines version s) ++ [lf]

/-! ### Lines as rows -/

/-- The line of a row. -/
def Row.line (row : Row) : Bytes := [tab].intercalate row.tokens

/-- The row of a multiword token. -/
def multiwordTokenRow (version : ℕ) (token : MultiwordToken) : Row where
  id := intToString token.idFirst ++ [minus] ++ intToString token.idLast
  form := writeWithSpaces version token.form
  «lemma» := underscore
  upostag := underscore
  xpostag := underscore
  feats := underscoreOnEmpty token.feats
  head := underscore
  deprel := underscore
  deps := underscore
  misc := underscoreOnEmpty token.misc

/-- The row of the word at index `i`. -/
def wordRow (version : ℕ) (i : ℕ) (word : Word) : Row where
  id := natToString i
  form := writeWithSpaces version word.form
  «lemma» := writeWithSpaces version (underscoreOnEmpty word.lemma)
  upostag := underscoreOnEmpty word.upostag
  xpostag := underscoreOnEmpty word.xpostag
  feats := underscoreOnEmpty word.feats
  head := if word.head < 0 then underscore else intToString word.head
  deprel := underscoreOnEmpty word.deprel
  deps := underscoreOnEmpty word.deps
  misc := underscoreOnEmpty word.misc

/-- The row of an empty node after the word at index `i`. -/
def emptyNodeRow (i : ℕ) (node : EmptyNode) : Row where
  id := natToString i ++ [dot] ++ intToString node.index
  form := node.form
  «lemma» := underscoreOnEmpty node.lemma
  upostag := underscoreOnEmpty node.upostag
  xpostag := underscoreOnEmpty node.xpostag
  feats := underscoreOnEmpty node.feats
  head := underscore
  deprel := underscore
  deps := underscoreOnEmpty node.deps
  misc := underscoreOnEmpty node.misc

/-- The line of a multiword token is the one of its row. -/
theorem multiwordTokenLine_eq (version : ℕ) (token : MultiwordToken) :
    multiwordTokenLine version token = (multiwordTokenRow version token).line := by
  have hempty : bytes "\t_\t_\t_\t" = tab :: underscore ++ tab :: underscore ++ tab :: underscore ++
      [tab] := by decide
  unfold multiwordTokenLine
  rw [hempty]
  simp only [Row.line, Row.tokens, multiwordTokenRow, List.intercalate_cons_cons,
    List.intercalate_singleton, List.append_assoc, List.cons_append, List.nil_append]

/-- The line of a word is the one of its row. -/
theorem wordLine_eq (version i : ℕ) (word : Word) :
    wordLine version i word = (wordRow version i word).line := by
  unfold wordLine
  simp only [Row.line, Row.tokens, wordRow, List.intercalate_cons_cons,
    List.intercalate_singleton, List.append_assoc, List.cons_append, List.nil_append]

/-- The line of an empty node is the one of its row. -/
theorem emptyNodeLine_eq (i : ℕ) (node : EmptyNode) :
    emptyNodeLine i node = (emptyNodeRow i node).line := by
  have hempty : bytes "_\t" = underscore ++ [tab] := by decide
  unfold emptyNodeLine
  rw [hempty]
  simp only [Row.line, Row.tokens, emptyNodeRow, List.intercalate_cons_cons,
    List.intercalate_singleton, List.append_assoc, List.cons_append, List.nil_append]

/-- The reader splits the line of a row into its tokens. -/
theorem split_line {row : Row} (hid : row.id ≠ []) (hclean : ∀ token ∈ row.tokens, tab ∉ token) :
    split tab row.line = row.tokens := by
  refine split_intercalate hclean ?_
  rw [Row.tokens, List.intercalate_cons_cons]
  exact List.append_ne_nil_of_left_ne_nil (List.append_ne_nil_of_left_ne_nil hid _) _

end UDPipe.Conllu
