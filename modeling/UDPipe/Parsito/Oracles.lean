import UDPipe.Parsito.Runs

/-!
# Static oracles

For the training an oracle reads the gold tree and predicts which transition to
perform next. These are the static oracle of the projective system and the two
static oracles of the system with swaps, the loop that follows them, and the
conditions under which the trainer accepts trees with a single root.
-/

namespace UDPipe.Parsito

/-- The struct `predicted_transition`. -/
structure PredictedTransition where
  best : ℕ
  toFollow : ℕ
  deriving DecidableEq, Repr

/-- The number of the arc to `child` that has the gold label: `first` is the number
of the arc with the first label, and every label has two arcs. Where the source
asserts that the label is found, there is no number. -/
def arcTransition (labels : List Bytes) (gold : Tree) (child : ℤ) (first : ℕ) : Option ℕ :=
  (labels.findIdx? fun label => gold.deprelOf child == label).map fun i => first + 2 * i

/-- A known label is found. -/
theorem arcTransition_eq {labels : List Bytes} {gold : Tree} {child : ℤ}
    (h : gold.deprelOf child ∈ labels) : ∃ i, labels[i]? = some (gold.deprelOf child) ∧
      ∀ first, arcTransition labels gold child first = some (first + 2 * i) := by
  obtain ⟨i, hi⟩ := Option.isSome_iff_exists.mp (show
    (labels.findIdx? fun label => gold.deprelOf child == label).isSome from by
      simpa [List.findIdx?_isSome] using h)
  refine ⟨i, ?_, fun first => by simp [arcTransition, hi]⟩
  obtain ⟨hlt, heq, -⟩ := List.findIdx?_eq_some_iff_getElem.mp hi
  rw [List.getElem?_eq_getElem hlt, ← eq_of_beq heq]

/-- The arcs come in pairs, two for each label. -/
private theorem getElem?_arcs (labels : List Bytes) (i : ℕ) :
    (labels.flatMap fun label => [Transition.leftArc label, .rightArc label])[2 * i]? =
        labels[i]?.map .leftArc ∧
      (labels.flatMap fun label => [Transition.leftArc label, .rightArc label])[2 * i + 1]? =
        labels[i]?.map .rightArc := by
  induction labels generalizing i with
  | nil => simp
  | cons label labels ih =>
    cases i with
    | zero => simp
    | succ i => simpa [Nat.mul_add] using ih i

/-- The arcs of the projective system by their numbers. -/
theorem getElem?_projective (labels : List Bytes) (i : ℕ) :
    (TransitionSystem.projective labels)[1 + 2 * i]? = labels[i]?.map .leftArc ∧
      (TransitionSystem.projective labels)[2 + 2 * i]? = labels[i]?.map .rightArc := by
  have h := getElem?_arcs labels i
  rw [show 1 + 2 * i = 2 * i + 1 by omega, show 2 + 2 * i = 2 * i + 1 + 1 by omega]
  simpa [TransitionSystem.projective] using h

/-- The arcs of the system with swaps by their numbers. -/
theorem getElem?_swap (labels : List Bytes) (i : ℕ) :
    (TransitionSystem.swap labels)[2 + 2 * i]? = labels[i]?.map .leftArc ∧
      (TransitionSystem.swap labels)[3 + 2 * i]? = labels[i]?.map .rightArc := by
  have h := getElem?_arcs labels i
  rw [show 2 + 2 * i = 2 * i + 1 + 1 by omega, show 3 + 2 * i = 2 * i + 1 + 1 + 1 by omega]
  simpa [TransitionSystem.swap] using h

/-- The oracles predict an arc to the left if one is appropriate, else an arc to the
right, else the transition `other`. -/
def predictArcs (left right : Option ℕ) (other : ℕ) : PredictedTransition :=
  let transition := (left.or right).getD other
  ⟨transition, transition⟩

/-- `tree_oracle_static::predict` of the projective system. -/
def ProjectiveOracle.predict (labels : List Bytes) (gold : Tree) (conf : Configuration) :
    PredictedTransition :=
  let left :=
    match conf.stack with
    | parent :: child :: _ =>
      if gold.headOf child = parent then arcTransition labels gold child 1 else none
    | _ => none
  let right :=
    match conf.stack with
    | child :: parent :: _ =>
      if gold.headOf child = parent ∧ (conf.buffer.isEmpty ∨ (gold.childrenOf child).isEmpty ∨
          (gold.childrenOf child).getLastD 0 < conf.buffer.headD 0)
      then arcTransition labels gold child 2
      else none
    | _ => none
  predictArcs left right 0

/-- Perform the predicted transitions until the configuration is final, or until one
is not applicable. -/
def follow (system : TransitionSystem) (predict : Configuration → PredictedTransition) :
    ℕ → Configuration → Configuration
  | 0, conf => conf
  | fuel + 1, conf =>
    if conf.final then conf
    else if system.applicable conf (predict conf).toFollow then
      match system.perform conf (predict conf).toFollow with
      | some (next, _) => follow system predict fuel next
      | none => conf
    else conf

/-- The configurations that the predictions lead through. -/
inductive Visits (system : TransitionSystem) (predict : Configuration → PredictedTransition)
    (start : Configuration) : Configuration → Prop
  | start : Visits system predict start start
  | next {conf conf' : Configuration} {child : ℤ} (hvisits : Visits system predict start conf)
    (hfinal : conf.final = false)
    (hperform : system.perform conf (predict conf).toFollow = some (conf', child)) :
    Visits system predict start conf'

/-- The predictions lead from `start` to the gold tree: all of them are applicable, and
the loop ends in a final configuration with the gold heads and labels. -/
structure Rebuilds (system : TransitionSystem) (predict : Configuration → PredictedTransition)
    (start : Configuration) (gold : Tree) : Prop where
  applicable : ∀ conf, Visits system predict start conf → conf.final = false →
    system.applicable conf (predict conf).toFollow = true
  final : (follow system predict start.remaining start).final = true
  headOf : ∀ i, (follow system predict start.remaining start).t.headOf i = gold.headOf i
  deprelOf : ∀ i : ℤ, 1 ≤ i → i < gold.nodes.length →
    (follow system predict start.remaining start).t.deprelOf i = gold.deprelOf i

namespace SwapOracle

/-- The class `tree_oracle_static` of the system with swaps. -/
structure TreeOracle where
  labels : List Bytes
  gold : Tree
  projectiveOrder : List ℤ
  projectiveComponents : List ℤ

/-- Whether a swap of the two topmost nodes is appropriate, given the front of the
buffer. -/
def TreeOracle.swaps (oracle : TreeOracle) (last prev : ℤ) (buffer : List ℤ) : Bool :=
  !oracle.projectiveOrder.isEmpty &&
    oracle.projectiveOrder.getD last.toNat 0 < oracle.projectiveOrder.getD prev.toNat 0 &&
    (oracle.projectiveComponents.isEmpty || buffer.isEmpty ||
      oracle.projectiveComponents.getD last.toNat 0 !=
        oracle.projectiveComponents.getD (buffer.headD 0).toNat 0)

/-- `tree_oracle_static::predict`. -/
def TreeOracle.predict (oracle : TreeOracle) (conf : Configuration) : PredictedTransition :=
  let arc (parent child : ℤ) (first : ℕ) : Option ℕ :=
    if oracle.gold.headOf child = parent ∧
        (oracle.gold.childrenOf child).length = (conf.t.childrenOf child).length
    then arcTransition oracle.labels oracle.gold child first
    else none
  let left :=
    match conf.stack with
    | parent :: child :: _ => arc parent child 2
    | _ => none
  let right :=
    match conf.stack with
    | child :: parent :: _ => arc parent child 3
    | _ => none
  let other :=
    match conf.stack with
    | last :: prev :: _ => if oracle.swaps last prev conf.buffer then 1 else 0
    | _ => 0
  predictArcs left right other

/-- `create_projective_order`: the new numbers and the next index. The recursion
stops when the fuel is used up. -/
def createProjectiveOrder (gold : Tree) : ℕ → ℤ → List ℤ × ℤ → List ℤ × ℤ
  | 0, _, state => state
  | fuel + 1, node, state =>
    let children := gold.childrenOf node
    let visit := fun state child => createProjectiveOrder gold fuel child state
    let state := (children.takeWhile (· < node)).foldl visit state
    let state := (state.1.set node.toNat state.2, state.2 + 1)
    (children.dropWhile (· < node)).foldl visit state

/-- `create_projective_component`. The recursion stops when the fuel is used up. -/
def createProjectiveComponent (t : Tree) : ℕ → ℤ → List ℤ → ℤ → List ℤ
  | 0, _, components, _ => components
  | fuel + 1, node, components, index =>
    (t.childrenOf node).foldl
      (fun components child => createProjectiveComponent t fuel child components index)
      (components.set node.toNat index)

/-- `create_tree_oracle`. The start of the projective order is an integer that the
source leaves unset. -/
def createTreeOracle (labels : List Bytes) (lazy : Bool) (start : ℤ) (gold : Tree) : TreeOracle :=
  let size := gold.nodes.length
  let projectiveOrder := (createProjectiveOrder gold size 0 (List.replicate size 0, start)).1
  let projectiveComponents :=
    if lazy then
      let projectiveOracle : TreeOracle := ⟨labels, gold, [], []⟩
      let conf := Configuration.init false gold
      let conf := follow (TransitionSystem.swap labels) projectiveOracle.predict conf.remaining conf
      conf.stack.reverse.foldl
        (fun components node =>
          if node != 0 then createProjectiveComponent conf.t size node components node
          else components)
        (List.replicate size 0)
    else []
  ⟨labels, gold, projectiveOrder, projectiveComponents⟩

end SwapOracle

/-! ### The conditions of the trainer -/

/-- The checks of one tree for `single_root`, with the message of the failure. -/
def singleRootFailureOf (t : Tree) : Option Bytes :=
  let words := t.nodes.filter fun node => node.id != 0
  words.findSome? (fun node =>
    if node.head = 0 ∧ node.deprel ≠ rootLabel then
      some (bytes "When single root is required, every root node must have 'root' deprel!")
    else if node.head ≠ 0 ∧ node.deprel = rootLabel then
      some (bytes "When single root is required, any non-root cannot have 'root' deprel!")
    else none) |>.or
  (if words.countP (fun node => node.head = 0) ≠ 1 then
    some (bytes "When single root is required, every training tree must have single root!")
  else none)

/-- The checks for `single_root` in `parser_nn_trainer::train`. -/
def singleRootFailure (train : List Tree) (labels : List Bytes) : Option Bytes :=
  (train.findSome? singleRootFailureOf).or <|
    if rootLabel ∉ labels then
      some (bytes "When single root is required, the deprel 'root' must be present!")
    else if labels.dedup.length ≤ 1 then
      some (bytes "When single root is required, deprel different from 'root' must exist!")
    else none

end UDPipe.Parsito
