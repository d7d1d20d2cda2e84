import UDPipe.Parsito.Oracles

/-!
# The dynamic oracle of the projective system

From the second iteration on the oracle computes a table: how few of the arcs are wrong when
the top of the stack is joined with the nodes below it and with some nodes of the buffer, the
right stack, and with which transition that begins. A cell has the number of nodes that were
taken from the stack and from the right stack, and the node that is the head of them all.
-/

namespace UDPipe.Parsito

namespace DynamicOracle

/-- The body of the loop over the buffer that computes the right stack. The set
`right_stack_inserted` has what `right_stack` has. -/
def pushRight (gold : Tree) (bufferStart : ℤ) (right : List ℤ) (node : ℤ) : List ℤ :=
  if gold.headOf node < bufferStart ∨
      ∃ child ∈ gold.childrenOf node, child < bufferStart ∨ child ∈ right
  then right ++ [node]
  else right

/-- The nodes of the buffer that the oracle thinks the stack has to be joined with. -/
def rightStack (gold : Tree) (buffer : List ℤ) : List ℤ :=
  match buffer with
  | [] => []
  | bufferStart :: _ => buffer.foldl (pushRight gold bufferStart) []

/-- The arguments `i`, `j` and `h` of a cell. -/
structure Cell where
  i : ℕ
  j : ℕ
  h : ℕ
  deriving DecidableEq, Repr

namespace Cell

/-- The diagonal of a cell. -/
def diagonal (c : Cell) : ℕ := c.i + c.j

/-- The place of a cell in its diagonal, computed with 32 bits. -/
def index (c : Cell) : ℕ := (c.i * (c.i + c.j + 1) + c.h) % 2 ^ 32

end Cell

/-- Two vectors: a diagonal has the one of its parity. -/
structure Diagonals (β : Type) where
  even : List β
  odd : List β
  deriving DecidableEq, Repr

namespace Diagonals

variable {β : Type}

/-- The vector of a diagonal. -/
def row (v : Diagonals β) (diagonal : ℕ) : List β := if diagonal % 2 = 0 then v.even else v.odd

/-- Change the vector of a diagonal. -/
def setRow (v : Diagonals β) (diagonal : ℕ) (row : List β) : Diagonals β :=
  if diagonal % 2 = 0 then { v with even := row } else { v with odd := row }

/-- The value of a cell. -/
def get (v : Diagonals β) (c : Cell) (default : β) : β :=
  (v.row c.diagonal).getD c.index default

/-- Change the value of a cell. -/
def set (v : Diagonals β) (c : Cell) (value : β) : Diagonals β :=
  v.setRow c.diagonal ((v.row c.diagonal).set c.index value)

end Diagonals

/-- The class `t_representation`. -/
structure TRepresentation where
  costs : Diagonals ℕ := ⟨[], []⟩
  transitions : Diagonals ℤ := ⟨[], []⟩
  deriving DecidableEq, Repr

/-- `t_representation::edge_cost`. -/
def edgeCost (gold : Tree) (parent child : ℤ) : ℕ := if gold.headOf child = parent then 0 else 1

/-- `t_representation::which_arc_transition`. Behind the assertion that the label is found
it returns zero. -/
def whichArcTransition (labels : List Bytes) (gold : Tree) (parent child : ℤ) : ℤ :=
  match labels.findIdx? fun label => gold.deprelOf child == label with
  | some i => 1 + 2 * i + if child > parent then 1 else 0
  | none => 0

/-- `t_representation::node`; the stack has its back first. -/
def node (stack right : List ℤ) (c : Cell) : ℤ :=
  if c.h ≤ c.i then stack.getD (c.i - c.h) 0 else right.getD (c.h - c.i - 1) 0

namespace TRepresentation

/-- `t_representation::cost`. -/
def cost (t : TRepresentation) (c : Cell) : ℕ := t.costs.get c 0

/-- `t_representation::transition`. -/
def transition (t : TRepresentation) (c : Cell) : ℤ := t.transitions.get c 0

/-- `t_representation::prepare`: every cell of the diagonal gets a cost that no cell can
reach. The number of cells is computed with 32 bits. -/
def prepare (t : TRepresentation) (gold : Tree) (diagonal : ℕ) : TRepresentation where
  costs := t.costs.setRow diagonal
    (List.replicate ((diagonal + 1) * (diagonal + 1) % 2 ^ 32) (gold.nodes.length + 1))
  transitions := t.transitions.setRow diagonal
    (List.replicate ((diagonal + 1) * (diagonal + 1) % 2 ^ 32) (-1))

/-- The assignments to a cell, and their condition: one more arc with a cost leads from a
cell to another one. With `tie` the new cost may be the old one. The first transition is that
of the former cell, if it has one. -/
def improve (t : TRepresentation) (source target : Cell) (edge : ℕ) (tie : Prop) [Decidable tie]
    (first : ℤ) : TRepresentation :=
  if t.cost source + edge < t.cost target + (if tie then 1 else 0) then
    { costs := t.costs.set target (t.cost source + edge)
      transitions := t.transitions.set target
        (if t.transition source ≥ 0 then t.transition source else first) }
  else t

variable (labels : List Bytes) (gold : Tree) (stack right : List ℤ)

/-- The body of the loop that tries to extend the stack. -/
def extendStack (i j : ℕ) (t : TRepresentation) (h : ℕ) : TRepresentation :=
  let hNode := node stack right ⟨i, j, h⟩
  let newNode := node stack right ⟨i + 1, j, 0⟩
  let t :=
    if newNode ≠ 0 then
      t.improve ⟨i, j, h⟩ ⟨i + 1, j, h + 1⟩ (edgeCost gold hNode newNode)
        (t.transition ⟨i, j, h⟩ ≠ 0) (whichArcTransition labels gold hNode newNode)
    else t
  t.improve ⟨i, j, h⟩ ⟨i + 1, j, 0⟩ (edgeCost gold newNode hNode)
    (t.transition ⟨i, j, h⟩ ≠ 0) (whichArcTransition labels gold newNode hNode)

/-- The body of the loop that tries to extend the right stack. -/
def extendRightStack (i j : ℕ) (t : TRepresentation) (h : ℕ) : TRepresentation :=
  let hNode := node stack right ⟨i, j, h⟩
  let newNode := node stack right ⟨i, j + 1, i + j + 1⟩
  let t := t.improve ⟨i, j, h⟩ ⟨i, j + 1, h⟩ (edgeCost gold hNode newNode)
    (t.transition ⟨i, j, h⟩ > 0) 0
  if hNode ≠ 0 then
    t.improve ⟨i, j, h⟩ ⟨i, j + 1, i + j + 1⟩ (edgeCost gold newNode hNode)
      (t.transition ⟨i, j, h⟩ > 0) 0
  else t

/-- What is tried for a number of nodes of the stack and of the right stack. -/
def extend (diagonal : ℕ) (t : TRepresentation) (i : ℕ) : TRepresentation :=
  let j := diagonal - i
  let t :=
    if i + 1 < stack.length then
      (List.range (diagonal + 1)).foldl (extendStack labels gold stack right i j) t
    else t
  if j + 1 < right.length + 1 then
    (List.range (diagonal + 1)).foldl (extendRightStack gold stack right i j) t
  else t

/-- The pass of the outer loop for a diagonal, which fills the next one. -/
def fillDiagonal (t : TRepresentation) (diagonal : ℕ) : TRepresentation :=
  let first := if diagonal > right.length then diagonal - right.length else 0
  (List.range' first (min (diagonal + 1) stack.length - first)).foldl
    (extend labels gold stack right diagonal) (t.prepare gold (diagonal + 1))

/-- The first diagonal: nothing is joined with the top of the stack. -/
def start : TRepresentation :=
  let t := ({} : TRepresentation).prepare gold 0
  { t with costs := t.costs.set ⟨0, 0, 0⟩ 0 }

/-- The whole table. -/
def fill : TRepresentation :=
  (List.range (stack.length + right.length)).foldl (fillDiagonal labels gold stack right)
    (start gold)

end TRepresentation

/-- `tree_oracle_dynamic::predict`. The transition is converted to an unsigned number. -/
def predict (labels : List Bytes) (gold : Tree) (conf : Configuration)
    (networkOutcome iteration : ℕ) : PredictedTransition :=
  if iteration ≤ 1 then ProjectiveOracle.predict labels gold conf
  else
    let right := rightStack gold conf.buffer
    let t := TRepresentation.fill labels gold conf.stack right
    let best := t.transition ⟨conf.stack.length - 1, right.length, 0⟩
    ⟨(best % 2 ^ 32).toNat, networkOutcome⟩

end DynamicOracle

end UDPipe.Parsito
