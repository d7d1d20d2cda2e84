import UDPipe.Links

/-!
# Sentences

The data model of `sentence/`: words with their morphology and links,
multiword tokens over ranges of words, empty nodes, and comments. The word at
index zero is the artificial root, which every cleared sentence starts with.
-/

namespace UDPipe

/-- The class `token`: a surface form with its MISC column. -/
structure Token where
  form : Bytes := []
  misc : Bytes := []
  deriving DecidableEq, Repr

/-- The class `word`. -/
structure Word extends Token, Links where
  id : ℤ := -1
  «lemma» : Bytes := []
  upostag : Bytes := []
  xpostag : Bytes := []
  feats : Bytes := []
  deps : Bytes := []
  deriving DecidableEq, Repr

instance : HasLinks Word where
  links := Word.toLinks
  withLinks w l := { w with toLinks := l }
  links_withLinks _ _ := rfl
  withLinks_links _ := rfl
  withLinks_withLinks _ _ _ := rfl

/-- The class `multiword_token`; `feats` can contain only `Typo=Yes`. -/
structure MultiwordToken extends Token where
  idFirst : ℤ := -1
  idLast : ℤ := -1
  feats : Bytes := []
  deriving DecidableEq, Repr

/-- The class `empty_node`. -/
structure EmptyNode where
  id : ℤ := -1
  index : ℤ := 0
  form : Bytes := []
  «lemma» : Bytes := []
  upostag : Bytes := []
  xpostag : Bytes := []
  feats : Bytes := []
  deps : Bytes := []
  misc : Bytes := []
  deriving DecidableEq, Repr

/-- The class `sentence`. -/
structure Sentence where
  words : List Word
  multiwordTokens : List MultiwordToken := []
  emptyNodes : List EmptyNode := []
  comments : List Bytes := []
  deriving DecidableEq, Repr

/-- The columns of a word that are texts. -/
def Word.textFields (word : Word) : List Bytes :=
  [word.form, word.lemma, word.upostag, word.xpostag, word.feats, word.deprel, word.deps, word.misc]

/-- The columns of a multiword token that are texts. -/
def MultiwordToken.textFields (token : MultiwordToken) : List Bytes :=
  [token.form, token.feats, token.misc]

/-- The columns of an empty node that are texts. -/
def EmptyNode.textFields (node : EmptyNode) : List Bytes :=
  [node.form, node.lemma, node.upostag, node.xpostag, node.feats, node.deps, node.misc]

namespace Sentence

/-- `sentence::root_form`. -/
def rootForm : Bytes := bytes "<root>"

/-- The word that `sentence::clear` adds. -/
def rootWord : Word where
  id := 0
  form := rootForm
  «lemma» := rootForm
  upostag := rootForm
  xpostag := rootForm
  feats := rootForm

/-- `sentence::clear`. -/
def clear : Sentence where
  words := [rootWord]

/-- `sentence::empty`: only the root is there. -/
def isEmpty (s : Sentence) : Bool := s.words.length == 1

/-- `sentence::add_word`; `fill` is what the caller assigns to the returned word. -/
def addWord (s : Sentence) (form : Bytes) (fill : Word → Word := id) : Sentence :=
  { s with words := s.words ++ [fill { id := s.words.length, form }] }

/-- `sentence::set_head`. -/
def setHead (s : Sentence) (id head : ℤ) (deprel : Bytes) : Sentence :=
  { s with words := setHeadIn s.words id head deprel }

/-- The columns of all nodes that are texts. -/
def textFields (s : Sentence) : List Bytes :=
  s.words.flatMap Word.textFields ++ s.multiwordTokens.flatMap MultiwordToken.textFields ++
    s.emptyNodes.flatMap EmptyNode.textFields

/-- An empty sentence has its root only. -/
@[simp] theorem words_clear : clear.words = [rootWord] := rfl

/-- A sentence is empty if it has its root only. -/
@[simp] theorem isEmpty_iff {s : Sentence} : s.isEmpty = true ↔ s.words.length = 1 := by
  simp [isEmpty]

/-- Other sentences have words. -/
@[simp] theorem isEmpty_eq_false_iff {s : Sentence} : s.isEmpty = false ↔ s.words.length ≠ 1 := by
  simp [isEmpty]

/-- A new word comes behind the others. -/
@[simp] theorem words_addWord (s : Sentence) (form : Bytes) (fill : Word → Word) :
    (s.addWord form fill).words = s.words ++ [fill { id := s.words.length, form }] := rfl

end Sentence

end UDPipe
