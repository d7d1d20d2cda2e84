import UDPipe.Parsito.Transition

/-!
# Features of a configuration

The node extractor follows its selectors from the stack or the buffer through the
tree, and the value extractors read one text of a node each.
-/

namespace UDPipe.Parsito

/-- `value_extractor::value_t`. -/
inductive ValueExtractor where
  | form
  | lemmaForm
  | lemmaId
  | tag
  | universalTag
  | feats
  | universalTagFeats
  | deprel
  deriving DecidableEq, Repr

namespace ValueExtractor

/-- What follows the first occurrence of a text. -/
def afterFirst (pattern : Bytes) : Bytes → Option Bytes
  | [] => none
  | c :: text =>
    if pattern.isPrefixOf (c :: text) then some ((c :: text).drop pattern.length)
    else afterFirst pattern text

/-- `value_extractor::extract`. -/
def extract (selector : ValueExtractor) (n : Node) : Bytes :=
  match selector with
  | .form => n.form
  | .lemmaForm => n.lemma
  | .lemmaId =>
    match afterFirst (bytes "LId=") n.misc with
    | some rest => rest.takeWhile (· != bar)
    | none => n.lemma
  | .tag => n.xpostag
  | .universalTag => n.upostag
  | .feats => n.feats
  | .universalTagFeats => n.upostag ++ n.feats
  | .deprel => n.deprel

end ValueExtractor

/-- `node_extractor::start_t`. -/
inductive Start where
  | stack
  | buffer
  deriving DecidableEq, Repr

/-- `node_extractor::direction_t`, with the index of a child. -/
inductive Direction where
  | parent
  | child (index : ℤ)
  deriving DecidableEq, Repr

/-- `node_extractor::node_selector`. -/
structure NodeSelector where
  start : Start × ℤ
  directions : List Direction
  deriving DecidableEq, Repr

namespace NodeSelector

/-- The node of a list at an index from its end in the source, `-1` outside. -/
def startAt (nodes : List ℤ) (index : ℤ) : ℤ :=
  if index < 0 then -1 else nodes.getD index.toNat (-1)

/-- The child at an index, counted from the last one when it is negative. -/
def childAt (children : List ℤ) (index : ℤ) : ℤ :=
  if 0 ≤ index ∧ index < children.length then children.getD index.toNat (-1)
  else if index < 0 ∧ -index ≤ children.length then
    children.getD (children.length + index).toNat (-1)
  else -1

/-- One direction from a node. -/
def next (t : Tree) (current : ℤ) : Direction → ℤ
  | .parent => if t.headOf current = 0 then -1 else t.headOf current
  | .child index => childAt (t.childrenOf current) index

/-- All directions, until they lead to the root or nowhere. -/
def follow (t : Tree) : List Direction → ℤ → ℤ
  | [], current => current
  | direction :: directions, current =>
    let reached := next t current direction
    if reached ≤ 0 then reached else follow t directions reached

/-- The node a selector selects, `-1` for none. -/
def select (selector : NodeSelector) (conf : Configuration) : ℤ :=
  let current := match selector.start.1 with
    | .stack => startAt conf.stack selector.start.2
    | .buffer => startAt conf.buffer selector.start.2
  if 0 ≤ current then follow conf.t selector.directions current else current

end NodeSelector

/-- The class `node_extractor`. -/
abbrev NodeExtractor := List NodeSelector

/-- `node_extractor::extract`. -/
def NodeExtractor.extract (nodes : NodeExtractor) (conf : Configuration) : List ℤ :=
  List.map (fun selector => selector.select conf) nodes

end UDPipe.Parsito
