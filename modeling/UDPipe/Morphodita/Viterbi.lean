import UDPipe.Bytes
import Mathlib.Data.List.Basic
import Mathlib.Algebra.BigOperators.Group.List.Basic
import Mathlib.Algebra.Order.Ring.Int

/-!
# The Viterbi decoder

The decoder keeps all its nodes in one vector. The nodes of a position are found by
going through the tags and, for each tag, through the nodes of the position before; a
node is updated instead of created when the last tags are the same as in the step
before.
-/

namespace UDPipe.Morphodita

/-- The struct `viterbi::node`, for features without dynamic parts. -/
structure Viterbi.Node where
  tag : ℤ
  prev : ℤ
  score : ℤ
  deriving DecidableEq, Repr

/-- The class `viterbi`. Of the features it uses `score`, which is given the position,
the window of tags and the number of tags that have not changed. -/
structure Viterbi where
  score : ℕ → List ℤ → ℕ → ℤ
  decodingOrder : ℕ
  windowSize : ℕ

namespace Viterbi

/-- The loop that counts the nodes to allocate, in variables of type `unsigned`; there is no
number when a word has no analyses. -/
def countNodes (order : ℕ) (sizes : List ℕ) : List ℕ → ℕ → ℕ → ℕ → Option ℕ
  | [], _, _, nodes => some nodes
  | size :: rest, i, states, nodes =>
    if size = 0 then none
    else
      let states :=
        (if i + 1 ≥ order then states / sizes.getD (i + 1 - order) 0 else states) * size %
          unsignedValues
      countNodes order sizes rest (i + 1) states ((nodes + states) % unsignedValues)

/-- The loop that fills the window with the tags before, from entry `n` on, and counts
the tags that stay the same. -/
def fillWindow (nodes : List Node) : ℕ → ℤ → ℕ → List ℤ → ℕ → List ℤ × ℕ
  | 0, _, _, window, sameTags => (window, sameTags)
  | count + 1, p, n, window, sameTags =>
    if p ≥ 0 then
      match nodes[p.toNat]? with
      | some node =>
        let sameTags := if sameTags = n ∧ window.getD n 0 = node.tag then sameTags + 1 else sameTags
        fillWindow nodes count node.prev (n + 1) (window.set n node.tag) sameTags
      | none => (window, sameTags)
    else (window, sameTags)

/-- The score of a node, and zero before the first one. -/
def scoreAt (nodes : List Node) (p : ℤ) : ℤ :=
  if p ≥ 0 then (nodes[p.toNat]?.map Node.score).getD 0 else 0

/-- One step of the loop over the tags and the previous nodes. The scores are not
computed when there is only one step. -/
def visit (d : Viterbi) (i : ℕ) (single : Bool) (tag : ℤ) (state : List Node × List ℤ) (prev : ℤ) :
    List Node × List ℤ :=
  let (nodes, window) := state
  let sameTags := if window.getD 0 0 = tag then 1 else 0
  let (window, sameTags) := fillWindow nodes (d.windowSize - 1) prev 1 (window.set 0 tag) sameTags
  let score := (if single then 0 else d.score i window sameTags) + scoreAt nodes prev
  if sameTags ≥ d.decodingOrder - 1 then
    if score ≤ scoreAt nodes (nodes.length - 1) then (nodes, window)
    else (nodes.dropLast ++ [⟨tag, prev, score⟩], window)
  else (nodes ++ [⟨tag, prev, score⟩], window)

/-- The loop over the positions: all nodes, and the index of the first one of the last
position. -/
def layers (d : Viterbi) : List ℕ → ℕ → List Node → ℤ → List Node × ℤ
  | [], _, nodes, nodesPrev => (nodes, nodesPrev)
  | size :: rest, i, nodes, nodesPrev =>
    let nodesNow : ℤ := nodes.length
    let single := nodesPrev + 1 = nodesNow && size = 1
    let prevs := (List.range (nodesNow - nodesPrev).toNat).map fun k : ℕ => nodesPrev + k
    let state := (List.range size).foldl
      (fun state (tag : ℕ) => prevs.foldl (visit d i single tag) state)
      (nodes, List.replicate d.windowSize (-1))
    layers d rest (i + 1) state.1 nodesNow

/-- The first node with the best score from index `nodesPrev` on. -/
def bestNode (nodes : List Node) (nodesPrev : ℤ) : ℤ :=
  ((List.range (nodes.length - (nodesPrev + 1)).toNat).map fun k : ℕ => nodesPrev + 1 + k).foldl
    (fun best node => if scoreAt nodes node > scoreAt nodes best then node else best) nodesPrev

/-- The loop that reads the tags off the nodes, from the last position to the first. -/
def readTags (nodes : List Node) : ℕ → ℤ → List ℤ → List ℤ
  | 0, _, tags => tags
  | i + 1, best, tags =>
    match nodes[best.toNat]? with
    | some node => readTags nodes i node.prev (tags.set i node.tag)
    | none => tags

/-- The vector of nodes has the size that was counted, or a larger one from a sentence before,
and the nodes are numbered by `int`. Nodes are never removed, so all of them have been
written into the vector and have had their numbers if there is room for those at the end. -/
def HasRoom (reserved allocated : ℕ) (nodes : ℕ) : Prop :=
  nodes ≤ max reserved allocated ∧ nodes < 2 ^ 31

instance (reserved allocated nodes : ℕ) : Decidable (HasRoom reserved allocated nodes) :=
  inferInstanceAs (Decidable (_ ∧ _))

/-- `viterbi::tag`, with a cache that has a number of nodes from other sentences. The tags
are numbers of analyses. There is no result when a node is written behind the vector or has
a number that is not an `int`. -/
def tag {α : Type} (d : Viterbi) (reserved : ℕ) (analyses : List (List α)) (tags : List ℤ) :
    Option (List ℤ) :=
  let sizes := analyses.map List.length
  if analyses.isEmpty then some tags
  else
    match countNodes d.decodingOrder sizes sizes 0 1 0 with
    | none => some tags
    | some allocated =>
      let (nodes, nodesPrev) := layers d sizes 0 [] (-1)
      if HasRoom reserved allocated nodes.length then
        some (readTags nodes analyses.length (bestNode nodes nodesPrev) tags)
      else none

/-! ### What is decoded -/

/-- The tags in the window at position `i`, and `-1` before the first one. -/
def windowAt (size : ℕ) (tags : List ℤ) (i : ℕ) : List ℤ :=
  (List.range size).map fun k => if k ≤ i then tags.getD (i - k) (-1) else -1

/-- The score of a sequence of tags. -/
def total (d : Viterbi) (tags : List ℤ) : ℤ :=
  ((List.range tags.length).map fun i => d.score i (windowAt d.windowSize tags i) 0).sum

/-- The number of nodes for words after others, whose sizes are given with the latest first.
Every word needs a node for each choice of tags for it and for the words just before it,
`order - 1` words together. -/
def nodesAfter (order : ℕ) : List ℕ → List ℕ → ℕ
  | _, [] => 0
  | sizes, size :: rest =>
    ((size :: sizes).take (order - 1)).prod + nodesAfter order (size :: sizes) rest

/-- The number of nodes for words with given numbers of analyses. -/
def nodesNeeded (order : ℕ) (sizes : List ℕ) : ℕ := nodesAfter order [] sizes

/-- The sequence has the number of an analysis for every word. -/
def IsChoice {α : Type} (analyses : List (List α)) (tags : List ℤ) : Prop :=
  List.Forall₂ (fun a t => 0 ≤ t ∧ t < (a.length : ℤ)) analyses tags

/-- The tags have the best total of all choices, the tags after the words stay as they are,
and there are no more nodes than were allocated. -/
def TagsBest {α : Type} (d : Viterbi) (reserved : ℕ) (analyses : List (List α))
    (tags : List ℤ) : Prop :=
  ∃ chosen, d.tag reserved analyses tags = some (chosen ++ tags.drop analyses.length) ∧
    IsChoice analyses chosen ∧
    (∀ other, IsChoice analyses other → d.total other ≤ d.total chosen) ∧
    ∃ allocated, countNodes d.decodingOrder (analyses.map List.length)
        (analyses.map List.length) 0 1 0 = some allocated ∧
      (layers d (analyses.map List.length) 0 [] (-1)).1.length ≤ allocated

end Viterbi

end UDPipe.Morphodita
