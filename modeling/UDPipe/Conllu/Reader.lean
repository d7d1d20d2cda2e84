import UDPipe.InputFormat
import UDPipe.ParseInt

/-!
# The CoNLL-U reader

`input_format_conllu::next_sentence` of `sentence/input_format.cpp`. A call
repeats a loop over lines; each nonempty line is handled by the kind its ID
column selects (comment, multiword token, empty node, word), and when a
sentence ends its multiword ranges are checked and its heads are linked.
-/

namespace UDPipe.Conllu

/-- `input_format_conllu::columns`. -/
def columns : List Bytes :=
  [bytes "ID", bytes "FORM", bytes "LEMMA", bytes "UPOS", bytes "XPOS", bytes "FEATS",
    bytes "HEAD", bytes "DEPREL", bytes "DEPS", bytes "MISC"]

/-- The ten tokens of a line. -/
structure Row where
  id : Bytes
  form : Bytes
  «lemma» : Bytes
  upostag : Bytes
  xpostag : Bytes
  feats : Bytes
  head : Bytes
  deprel : Bytes
  deps : Bytes
  misc : Bytes
  deriving DecidableEq, Repr

namespace Row

/-- The array `tokens` of the source. -/
def tokens (row : Row) : List Bytes :=
  [row.id, row.form, row.lemma, row.upostag, row.xpostag, row.feats, row.head, row.deprel,
    row.deps, row.misc]

/-- A loop `for (int i = first; i < last; i++)` over the columns that stops at
the first error of its body. -/
def firstError (row : Row) (first last : ℕ) (check : ℕ → Bytes → Bytes → Option Bytes) :
    Option Bytes :=
  (((columns.zip row.tokens).zipIdx.drop first).take (last - first)).findSome?
    fun ((column, token), i) => check i column token

/-- The row of a line that splits into exactly ten tokens. -/
def ofTokens : List Bytes → Option Row
  | [id, form, l, upostag, xpostag, feats, head, deprel, deps, misc] =>
    some ⟨id, form, l, upostag, xpostag, feats, head, deprel, deps, misc⟩
  | _ => none

end Row

/-- The token that stands for an empty field. -/
def underscore : Bytes := [underscoreByte]

/-- A field of the source that is assigned only when its token is not `_`. -/
def unlessUnderscore (token : Bytes) : Bytes := if token = underscore then [] else token

/-- The sentence read so far and the last word of its last multiword token. -/
structure LineState where
  sentence : Sentence
  lastMultiwordToken : ℤ := 0
  deriving DecidableEq, Repr

/-- The state at the beginning of a call. -/
def LineState.init : LineState := { sentence := .clear }

/-- The check that column `i` is not empty and contains no spaces (except FORM,
LEMMA and MISC in version 2). -/
def checkColumn (version : ℕ) (line : Bytes) (i : ℕ) (column token : Bytes) : Option Bytes :=
  if token = [] then
    some (bytes "The CoNLL-U line '" ++ line ++ bytes "' contains empty column " ++ column ++
      bytes "!")
  else if (version < 2 ∨ (i ≠ 1 ∧ i ≠ 2 ∧ i ≠ 9)) ∧ space ∈ token then
    some (bytes "The CoNLL-U line '" ++ line ++ bytes "' contains spaces in column " ++ column ++
      bytes "!")
  else none

/-- The check that a column of a multiword token is empty; FEATS can be
`Typo=Yes` in version 2. -/
def checkMultiwordColumn (version : ℕ) (line : Bytes) (i : ℕ) (column token : Bytes) :
    Option Bytes :=
  if version ≥ 2 ∧ i = 5 then
    if token ≠ underscore ∧ token ≠ bytes "Typo=Yes" then
      some (bytes "Column " ++ column ++ bytes " of an multi-word token '" ++ line ++
        bytes "' is not empty or Typo=Yes!")
    else none
  else if token ≠ underscore then
    some (bytes "Column " ++ column ++ bytes " of an multi-word token '" ++ line ++
      bytes "' is not empty!")
  else none

/-- The branch of the line loop for multiword tokens. -/
def handleMultiwordToken (version : ℕ) (line : Bytes) (row : Row) (st : LineState) :
    Except Bytes LineState :=
  let s := st.sentence
  match split minus row.id with
  | [first, last] =>
    match parseInt first (bytes "CoNLL-U id") with
    | .error error => .error error
    | .ok idFirst =>
    match parseInt last (bytes "CoNLL-U id") with
    | .error error => .error error
    | .ok idLast =>
      if idFirst ≠ s.words.length then
        .error (bytes "Incorrect ID '" ++ first ++ bytes "' of multiword token '" ++ line ++
          bytes "'!")
      else if idLast < idFirst then
        .error (bytes "Incorrect range '" ++ row.id ++ bytes "' of multiword token '" ++ line ++
          bytes "'!")
      else if idFirst ≤ st.lastMultiwordToken then
        .error (bytes "Multiword token '" ++ line ++ bytes "' overlaps with the previous one!")
      else match row.firstError 2 9 (checkMultiwordColumn version line) with
        | some error => .error error
        | none =>
          let token : MultiwordToken :=
            { idFirst, idLast, form := row.form, misc := unlessUnderscore row.misc
              feats := unlessUnderscore row.feats }
          .ok { sentence := { s with multiwordTokens := s.multiwordTokens ++ [token] }
                lastMultiwordToken := idLast }
  | _ => .error (bytes "Cannot parse ID of multiword token '" ++ line ++ bytes "'!")

/-- The check that a column of an empty node is empty. -/
def checkEmptyNodeColumn (line : Bytes) (_ : ℕ) (column token : Bytes) : Option Bytes :=
  if token ≠ underscore then
    some (bytes "Column " ++ column ++ bytes " of an empty node token '" ++ line ++
      bytes "' is not an empty!")
  else none

/-- The condition on the index of the next empty node of a sentence. -/
def emptyNodeFollows (emptyNodes : List EmptyNode) (id index : ℤ) : Bool :=
  match emptyNodes.getLast? with
  | none => index == 1
  | some back => (back.id < id && index == 1) || (back.id == id && index == back.index + 1)

/-- The branch of the line loop for empty nodes. -/
def handleEmptyNode (line : Bytes) (row : Row) (st : LineState) : Except Bytes LineState :=
  let s := st.sentence
  match split dot row.id with
  | [first, second] =>
    match parseInt first (bytes "CoNLL-U empty node id") with
    | .error error => .error error
    | .ok id =>
    match parseInt second (bytes "CoNLL-U empty node index") with
    | .error error => .error error
    | .ok index =>
      if id ≠ s.words.length - 1 then
        .error (bytes "Incorrect ID '" ++ first ++ bytes "' of empty node token '" ++ line ++
          bytes "'!")
      else if emptyNodeFollows s.emptyNodes id index = false then
        .error (bytes "Incorrect ID index '" ++ second ++ bytes "' of empty node token '" ++
          line ++ bytes "'!")
      else match row.firstError 6 8 (checkEmptyNodeColumn line) with
        | some error => .error error
        | none =>
          let node : EmptyNode :=
            { id, index, form := row.form, «lemma» := row.lemma
              upostag := unlessUnderscore row.upostag, xpostag := unlessUnderscore row.xpostag
              feats := unlessUnderscore row.feats, deps := unlessUnderscore row.deps
              misc := unlessUnderscore row.misc }
          .ok { st with sentence := { s with emptyNodes := s.emptyNodes ++ [node] } }
  | _ => .error (bytes "Cannot parse ID of empty node '" ++ line ++ bytes "'!")

/-- The head column of a word: `_`, or a number that is not negative. -/
def parseHead (row : Row) : Except Bytes ℤ :=
  if row.head = underscore then .ok (-1)
  else match parseInt row.head (bytes "CoNLL-U head") with
    | .error error => .error error
    | .ok head =>
      if head < 0 then
        .error (bytes "Numeric head value '" ++ row.id ++ bytes "' cannot be negative!")
      else .ok head

/-- The fields that the line loop assigns to a new word. -/
def fillWord (row : Row) (head : ℤ) (word : Word) : Word :=
  { word with
    «lemma» := row.lemma, upostag := unlessUnderscore row.upostag
    xpostag := unlessUnderscore row.xpostag, feats := unlessUnderscore row.feats
    head, deprel := unlessUnderscore row.deprel, deps := unlessUnderscore row.deps
    misc := unlessUnderscore row.misc }

/-- The branch of the line loop for words. -/
def handleWord (line : Bytes) (row : Row) (st : LineState) : Except Bytes LineState :=
  match parseInt row.id (bytes "CoNLL-U id") with
  | .error error => .error error
  | .ok id =>
    if id ≠ st.sentence.words.length then
      .error (bytes "Incorrect ID '" ++ row.id ++ bytes "' of CoNLL-U line '" ++ line ++
        bytes "'!")
    else match parseHead row with
      | .error error => .error error
      | .ok head =>
        .ok { st with sentence := st.sentence.addWord row.form (fillWord row head) }

/-- A line that is neither empty nor a comment. -/
def handleRow (version : ℕ) (line : Bytes) (st : LineState) : Except Bytes LineState :=
  match Row.ofTokens (split tab line) with
  | none => .error (bytes "The CoNLL-U line '" ++ line ++ bytes "' does not contain 10 columns!")
  | some row =>
    match row.firstError 0 10 (checkColumn version line) with
    | some error => .error error
    | none =>
      if minus ∈ row.id then handleMultiwordToken version line row st
      else if version ≥ 2 ∧ dot ∈ row.id then handleEmptyNode line row st
      else handleWord line row st

/-- A nonempty line. Comments are stored at the beginning, the rest is ignored. -/
def handleLine (version : ℕ) (line : Bytes) (st : LineState) : Except Bytes LineState :=
  if line.head? = some hash then
    if st.sentence.isEmpty then
      .ok { st with sentence :=
        { st.sentence with comments := st.sentence.comments ++ [line] } }
    else .ok st
  else handleRow version line st

/-- The loop that sets heads, over the word indices that are left; on an error it
also returns the words as they are then. -/
def linkHeads : List ℕ → List Word → Except (Bytes × List Word) (List Word)
  | [], words => .ok words
  | i :: rest, words =>
    match words[i]? with
    | none => .ok words
    | some word =>
      if word.id ≠ 0 ∧ word.head ≥ 0 then
        if word.head ≥ words.length then
          .error (bytes "Node ID '" ++ intToString word.id ++ bytes "' form '" ++ word.form ++
            bytes "' has too large head: '" ++ intToString word.head ++ bytes "'!", words)
        else linkHeads rest (setHeadIn words word.id word.head word.deprel)
      else linkHeads rest words

/-- What follows the line loop: the check of the last multiword token, and the heads. -/
def finish (text : Bytes) (st : LineState) : NextSentence Bytes :=
  let s := st.sentence
  if st.lastMultiwordToken ≥ s.words.length then
    let form := (s.multiwordTokens.getLast?.map fun token => token.form).getD []
    { returned := false, sentence := s, state := text
      error := bytes "There are words missing for multiword token '" ++ form ++ bytes "'!" }
  else match linkHeads (List.range s.words.length) s.words with
    | .error (error, words) =>
      { returned := false, sentence := { s with words }, error, state := text }
    | .ok words =>
      let s := { s with words }
      { returned := !s.isEmpty, sentence := s, error := [], state := text }

/-- The line terminator that is skipped: CR LF, or LF. -/
def skipLineEnd (text : Bytes) : Bytes :=
  if text.length ≥ 2 ∧ text[0]? = some cr ∧ text[1]? = some lf then text.drop 2
  else if text.head? = some lf then text.drop 1
  else text

/-- Read a line: its bytes, and the text after its terminator. -/
def readLine (text : Bytes) : Bytes × Bytes :=
  (text.takeWhile (!isLineEnd ·), skipLineEnd (text.dropWhile (!isLineEnd ·)))

/-- One pass of the line loop, on the remaining text. -/
def lineStep (version : ℕ) :
    Bytes × LineState → LoopStep (Bytes × LineState) (NextSentence Bytes)
  | (text, st) =>
    if text = [] then .done (finish text st)
    else
      let (line, text) := readLine text
      -- Empty lines denote end of tree, unless at the beginning
      if line = [] then
        if st.sentence.isEmpty then .next (text, st) else .done (finish text st)
      else match handleLine version line st with
        | .error error => .done { returned := false, sentence := st.sentence, error, state := text }
        | .ok st => .next (text, st)

/-- `input_format_conllu::next_sentence`; the state of the reader is its text. -/
def nextSentence (version : ℕ) (text : Bytes) : Comp (NextSentence Bytes) :=
  Comp.loopOf (lineStep version) (text, .init)

/-- `input_format_conllu`. -/
def reader (version : ℕ) : InputFormat Bytes where
  readBlock := getpara
  setText text _ := text
  resetDocument _ _ := []
  nextSentence := nextSentence version

end UDPipe.Conllu
