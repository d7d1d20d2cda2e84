import UDPipe.Parsito.Tree

/-!
# Configurations and transitions

A configuration holds the tree built so far, a stack and a buffer of nodes. The
six transitions test and change it as in `parsito/transition/transition.cpp`,
and a transition system is a numbered list of them.
-/

namespace UDPipe.Parsito

/-- The class `configuration`. The source uses both vectors from their ends
only, so `stack` and `buffer` start here with what the source has at `back()`. -/
structure Configuration where
  t : Tree
  stack : List ℤ
  buffer : List ℤ
  singleRoot : Bool
  deriving DecidableEq, Repr

namespace Configuration

/-- `configuration::init`: the root is on the stack, the words are in the buffer. -/
def init (singleRoot : Bool) (t : Tree) : Configuration where
  t := t.unlinkAllNodes
  stack := if t.nodes.isEmpty then [] else [0]
  buffer := (List.range' 1 (t.nodes.length - 1)).map fun i : ℕ => (i : ℤ)
  singleRoot

/-- `configuration::final`. -/
def final (conf : Configuration) : Bool := conf.buffer.isEmpty && conf.stack.length ≤ 1

end Configuration

/-- The label of arcs from the root. -/
def rootLabel : Bytes := bytes "root"

/-- The six classes of transitions. -/
inductive Transition where
  | leftArc (label : Bytes)
  | rightArc (label : Bytes)
  | shift
  | swap
  | leftArc2 (label : Bytes)
  | rightArc2 (label : Bytes)
  deriving DecidableEq, Repr

namespace Transition

/-- `applicable` of each class. -/
def applicable : Transition → Configuration → Bool
  | .leftArc label, conf =>
    if conf.singleRoot && label == rootLabel then false
    else
      match conf.stack with
      | _ :: child :: _ => child != 0
      | _ => false
  | .rightArc label, conf =>
    if conf.singleRoot && label == rootLabel then conf.stack.length == 2 && conf.buffer.isEmpty
    else if conf.singleRoot then conf.stack.length > 2
    else conf.stack.length ≥ 2
  | .shift, conf => !conf.buffer.isEmpty
  | .swap, conf =>
    match conf.stack with
    | top :: second :: _ => second != 0 && second < top
    | _ => false
  | .leftArc2 label, conf =>
    if conf.singleRoot && label == rootLabel then false
    else
      match conf.stack with
      | _ :: _ :: child :: _ => child != 0
      | _ => false
  | .rightArc2 label, conf =>
    if conf.singleRoot && label == rootLabel then false
    else if conf.singleRoot then conf.stack.length ≥ 4
    else conf.stack.length ≥ 3

/-- `perform` of each class, with the child that was attached (`-1` for none).
There is no result where a vector would be popped that is too short. -/
def perform : Transition → Configuration → Option (Configuration × ℤ)
  | .leftArc label, conf =>
    match conf.stack with
    | parent :: child :: rest =>
      some ({ conf with stack := parent :: rest, t := conf.t.setHead child parent label }, child)
    | _ => none
  | .rightArc label, conf =>
    match conf.stack with
    | child :: parent :: rest =>
      some ({ conf with stack := parent :: rest, t := conf.t.setHead child parent label }, child)
    | _ => none
  | .shift, conf =>
    match conf.buffer with
    | front :: rest => some ({ conf with stack := front :: conf.stack, buffer := rest }, -1)
    | [] => none
  | .swap, conf =>
    match conf.stack with
    | top :: toBuffer :: rest =>
      some ({ conf with stack := top :: rest, buffer := toBuffer :: conf.buffer }, -1)
    | _ => none
  | .leftArc2 label, conf =>
    match conf.stack with
    | parent :: ignore :: child :: rest =>
      some ({ conf with
        stack := parent :: ignore :: rest
        t := conf.t.setHead child parent label }, child)
    | _ => none
  | .rightArc2 label, conf =>
    match conf.stack with
    | child :: toBuffer :: parent :: rest =>
      some ({ conf with
        stack := parent :: rest
        buffer := toBuffer :: conf.buffer
        t := conf.t.setHead child parent label }, child)
    | _ => none

end Transition

/-- A `transition_system`: its transitions by number. -/
abbrev TransitionSystem := List Transition

namespace TransitionSystem

/-- `transition_system_projective`. -/
def projective (labels : List Bytes) : TransitionSystem :=
  .shift :: labels.flatMap fun label => [.leftArc label, .rightArc label]

/-- `transition_system_swap`. -/
def swap (labels : List Bytes) : TransitionSystem :=
  .shift :: .swap :: labels.flatMap fun label => [.leftArc label, .rightArc label]

/-- `transition_system_link2`. -/
def link2 (labels : List Bytes) : TransitionSystem :=
  .shift :: labels.flatMap fun label =>
    [.leftArc label, .rightArc label, .leftArc2 label, .rightArc2 label]

/-- `transition_system::create`. -/
def create (name : Bytes) (labels : List Bytes) : Option TransitionSystem :=
  if name = bytes "projective" then some (projective labels)
  else if name = bytes "swap" then some (swap labels)
  else if name = bytes "link2" then some (link2 labels)
  else none

/-- `transition_system::applicable`. -/
def applicable (system : TransitionSystem) (conf : Configuration) (transition : ℕ) : Bool :=
  match system[transition]? with
  | some tr => tr.applicable conf
  | none => false

/-- `transition_system::perform`. -/
def perform (system : TransitionSystem) (conf : Configuration) (transition : ℕ) :
    Option (Configuration × ℤ) :=
  system[transition]?.bind fun tr => tr.perform conf

/-- Perform the numbered transitions one after another; there is no result when
one of them is not applicable. -/
def run (system : TransitionSystem) : List ℕ → Configuration → Option Configuration
  | [], conf => some conf
  | transition :: rest, conf =>
    if system.applicable conf transition then
      (system.perform conf transition).bind fun result => run system rest result.1
    else none

/-- Every system shifts and has right arcs. -/
theorem mem_of_create {name : Bytes} {labels : List Bytes} {system : TransitionSystem}
    (h : create name labels = some system) :
    .shift ∈ system ∧ ∀ label ∈ labels, .rightArc label ∈ system := by
  unfold create at h
  split_ifs at h <;> obtain rfl := Option.some.inj h <;>
    simp [projective, swap, link2]

/-- A transition of the system is applicable under its number. -/
theorem exists_applicable {system : TransitionSystem} {tr : Transition} {conf : Configuration}
    (hmem : tr ∈ system) (h : tr.applicable conf = true) :
    ∃ transition < system.length, system.applicable conf transition = true := by
  obtain ⟨i, hi, rfl⟩ := List.getElem_of_mem hmem
  exact ⟨i, hi, by simp [applicable, List.getElem?_eq_getElem hi, h]⟩

/-- A step of a run performs an applicable transition. -/
theorem run_cons {system : TransitionSystem} {transition : ℕ} {rest : List ℕ}
    {conf conf' : Configuration} (h : system.run (transition :: rest) conf = some conf') :
    ∃ tr next child, tr ∈ system ∧ tr.applicable conf = true ∧
      tr.perform conf = some (next, child) ∧ system.run rest next = some conf' := by
  rw [run] at h
  split at h
  · rename_i happlicable
    unfold applicable at happlicable
    obtain ⟨⟨next, child⟩, hperform, hrest⟩ := Option.bind_eq_some_iff.mp h
    obtain ⟨tr, htr, hnext⟩ := Option.bind_eq_some_iff.mp hperform
    rw [htr] at happlicable
    exact ⟨tr, next, child, List.mem_of_getElem? htr, happlicable, hnext, hrest⟩
  · cases h

end TransitionSystem

end UDPipe.Parsito
