import UDPipe.Parsito.SharedTree

/-!
# Hypotheses that own their trees

The beam search as it is meant: a hypothesis has its own configuration with its own
tree and the history of its transitions. A step replaces the hypotheses by a best
selection of all their successors, where final ones stay as they are.
-/

namespace UDPipe.Parsito

variable {κ : Type}

/-- One hypothesis of a beam. -/
structure Hypothesis (κ : Type) where
  history : List ℕ
  conf : Configuration
  cost : κ

namespace ParserNN

variable (parser : ParserNN κ)

/-- The ids of a node. -/
def ids (n : Node) : List ℤ := parser.lookups.map fun l => l.2 (l.1.extract n)

/-- The ids of the extracted nodes, looked up in the tree of the configuration. -/
def embeddingIds (conf : Configuration) : List (Option (List ℤ)) :=
  (parser.nodes.extract conf).map fun i =>
    if i ≥ 0 then some ((conf.t.nodes[i.toNat]?.map parser.ids).getD []) else none

/-- The configuration that the transitions of the history lead to. -/
def Replays (t : Tree) (h : Hypothesis κ) : Prop :=
  parser.system.run h.history (.init parser.singleRoot t) = some h.conf

variable [LinearOrder κ] [Add κ] [Mul κ] [Div κ] [NatCast κ]

/-- The hypothesis a search starts with. -/
def initial (t : Tree) : Hypothesis κ where
  history := []
  conf := .init parser.singleRoot t
  cost := ((0 : ℕ) : κ)

/-- What can be done with a hypothesis, and what it costs then. -/
def choices (iteration : ℕ) (h : Hypothesis κ) : List (Option ℕ × κ) :=
  if h.conf.final then [(none, h.cost)]
  else (parser.network (parser.embeddingIds h.conf)).zipIdx.filterMap fun outcome =>
    if parser.system.applicable h.conf outcome.2 then
      some (some outcome.2, parser.costAfter iteration h.cost outcome.1)
    else none

/-- The hypothesis after a choice. -/
def after (h : Hypothesis κ) (choice : Option ℕ × κ) : Option (Hypothesis κ) :=
  match choice.1 with
  | none => some { h with cost := choice.2 }
  | some transition => (parser.system.perform h.conf transition).map fun result =>
    { history := h.history ++ [transition], conf := result.1, cost := choice.2 }

/-- All successors of a hypothesis. -/
def successors (iteration : ℕ) (h : Hypothesis κ) : List (Hypothesis κ) :=
  (parser.choices iteration h).filterMap (parser.after h)

/-- One step of the search. -/
def BeamStep (beamSize iteration : ℕ) (beam beam' : List (Hypothesis κ)) : Prop :=
  Heap.IsBest (fun h : Hypothesis κ => h.cost) beamSize
    (beam.flatMap (parser.successors iteration)) beam'

end ParserNN

/-! ### Runs and applicable transitions -/

/-- What is applicable can be performed. -/
theorem Transition.exists_perform {tr : Transition} {conf : Configuration}
    (h : tr.applicable conf = true) : ∃ result, tr.perform conf = some result := by
  obtain ⟨t, stack, buffer, single⟩ := conf
  cases tr with
  | shift =>
    cases buffer with
    | nil => simp [applicable] at h
    | cons front rest => exact ⟨_, rfl⟩
  | leftArc label | rightArc label | swap =>
    rcases stack with _ | ⟨a, _ | ⟨b, rest⟩⟩
    · simp [applicable] at h
    · simp [applicable] at h
    · exact ⟨_, rfl⟩
  | leftArc2 label | rightArc2 label =>
    rcases stack with _ | ⟨a, _ | ⟨b, _ | ⟨c, rest⟩⟩⟩
    · simp [applicable] at h
    · simp [applicable] at h
    · simp [applicable] at h
    · exact ⟨_, rfl⟩

/-- A step leaves the words of the tree. -/
theorem Step.sameWords {conf conf' : Configuration} (h : Step conf conf') :
    conf'.t.SameWords conf.t := by
  cases h with
  | shift => exact .refl _
  | swap _ _ => exact .refl _
  | leftArc _ _ => exact Tree.sameWords_setHead _ _ _ _
  | rightArc _ _ => exact Tree.sameWords_setHead _ _ _ _
  | leftArc2 _ _ => exact Tree.sameWords_setHead _ _ _ _
  | rightArc2 _ _ => exact Tree.sameWords_setHead _ _ _ _

namespace TransitionSystem

/-- An applicable transition is performed. -/
theorem exists_perform {system : TransitionSystem} {conf : Configuration} {transition : ℕ}
    (h : system.applicable conf transition = true) :
    ∃ result, system.perform conf transition = some result := by
  unfold applicable at h
  cases htr : system[transition]? with
  | none => simp [htr] at h
  | some tr =>
    rw [htr] at h
    obtain ⟨result, hresult⟩ := Transition.exists_perform h
    exact ⟨result, by rw [perform, htr, Option.bind_some, hresult]⟩

/-- A run of one more transition. -/
theorem run_concat {system : TransitionSystem} {history : List ℕ} {transition : ℕ}
    {conf conf' : Configuration} {result : Configuration × ℤ}
    (hrun : system.run history conf = some conf')
    (happlicable : system.applicable conf' transition = true)
    (hperform : system.perform conf' transition = some result) :
    system.run (history ++ [transition]) conf = some result.1 := by
  induction history generalizing conf with
  | nil =>
    obtain rfl := Option.some.inj hrun
    simp [run, happlicable, hperform]
  | cons first rest ih =>
    rw [run] at hrun
    split at hrun
    · rename_i hfirst
      obtain ⟨next, hnext, hrest⟩ := Option.bind_eq_some_iff.mp hrun
      rw [List.cons_append, run, if_pos hfirst, hnext, Option.bind_some]
      exact ih hrest
    · cases hrun

/-- A run leaves the words of the tree. -/
theorem sameWords_of_run {system : TransitionSystem} {history : List ℕ}
    {conf conf' : Configuration} (hrun : system.run history conf = some conf') :
    conf'.t.SameWords conf.t := by
  induction history generalizing conf with
  | nil =>
    obtain rfl := Option.some.inj hrun
    exact .refl _
  | cons first rest ih =>
    obtain ⟨tr, next, child, _, happlicable, hperform, hrest⟩ := run_cons hrun
    exact (ih hrest).trans (step_of_perform happlicable hperform).sameWords

end TransitionSystem

namespace ParserNN

variable {parser : ParserNN κ} {t : Tree} {n : ℕ} {h : Hypothesis κ}

/-- What a replayed history says about the configuration. -/
theorem Replays.consistent (hreplays : parser.Replays t h) (hsize : t.nodes.length = n + 1) :
    h.conf.Consistent n ∧ h.conf.singleRoot = parser.singleRoot ∧
      h.conf.t.SameWords t ∧ (h.conf.final = false → h.history.length ≤ n * n + 4 * n) := by
  have hinit := Configuration.consistent_init parser.singleRoot hsize
  obtain ⟨hconsistent, hsingle, hlength⟩ := consistent_of_run hinit hreplays
  refine ⟨hconsistent, hsingle, ?_, fun _ => ?_⟩
  · exact (TransitionSystem.sameWords_of_run hreplays).trans (Tree.sameWords_unlinkAllNodes t)
  · have hbound := remaining_init_le parser.singleRoot hsize
    have hstack := List.length_pos_of_mem (List.mem_of_getLast? hconsistent.bottom)
    rw [Configuration.remaining] at hlength
    omega

/-- The initial hypothesis is replayed by no transitions. -/
theorem replays_initial [NatCast κ] : parser.Replays t (parser.initial t) := rfl

/-- What a transition makes of a hypothesis. -/
theorem after_some (transition : ℕ) (cost : κ) :
    parser.after h (some transition, cost) =
      (parser.system.perform h.conf transition).map fun result =>
        { history := h.history ++ [transition], conf := result.1, cost := cost } := rfl

variable [Add κ] [Mul κ] [Div κ] [NatCast κ]

/-- A choice has a hypothesis after it, with the cost of the choice. -/
theorem exists_after {iteration : ℕ} {choice : Option ℕ × κ}
    (hchoice : choice ∈ parser.choices iteration h) :
    ∃ h', parser.after h choice = some h' ∧ h'.cost = choice.2 := by
  unfold choices at hchoice
  split at hchoice
  · obtain rfl := List.mem_singleton.mp hchoice
    exact ⟨_, rfl, rfl⟩
  · obtain ⟨outcome, _, houtcome⟩ := List.mem_filterMap.mp hchoice
    split at houtcome
    · rename_i happlicable
      obtain rfl := Option.some.inj houtcome
      obtain ⟨result, hresult⟩ := TransitionSystem.exists_perform happlicable
      exact ⟨_, by rw [after_some, hresult, Option.map_some], rfl⟩
    · cases houtcome

/-- A final hypothesis stays as it is. -/
theorem successors_of_final {iteration : ℕ} (hfinal : h.conf.final = true) :
    parser.successors iteration h = [h] := by
  rw [successors, choices, if_pos hfinal]
  rfl

/-- A hypothesis that is not final has made a transition in each iteration. -/
structure Valid (parser : ParserNN κ) (t : Tree) (iteration : ℕ) (h : Hypothesis κ) : Prop where
  replays : parser.Replays t h
  length_eq : h.conf.final = false → h.history.length = iteration

/-- A successor of a valid hypothesis is valid. -/
theorem Valid.of_successor {iteration : ℕ} (hvalid : parser.Valid t iteration h)
    {h' : Hypothesis κ} (hsuccessor : h' ∈ parser.successors iteration h) :
    parser.Valid t (iteration + 1) h' := by
  obtain ⟨choice, hchoice, hafter⟩ := List.mem_filterMap.mp hsuccessor
  unfold choices at hchoice
  split at hchoice
  · rename_i hfinal
    obtain rfl := List.mem_singleton.mp hchoice
    obtain rfl := Option.some.inj hafter
    exact ⟨hvalid.replays, fun hnot => absurd (hfinal.symm.trans hnot) (by simp)⟩
  · rename_i hfinal
    obtain ⟨outcome, _, houtcome⟩ := List.mem_filterMap.mp hchoice
    split at houtcome
    · rename_i happlicable
      obtain rfl := Option.some.inj houtcome
      obtain ⟨result, hresult, rfl⟩ := Option.map_eq_some_iff.mp hafter
      refine ⟨TransitionSystem.run_concat hvalid.replays happlicable hresult, fun _ => ?_⟩
      rw [List.length_append, hvalid.length_eq (Bool.eq_false_iff.mpr hfinal),
        List.length_singleton]
    · cases houtcome

/-- Every hypothesis has a successor, when the network has an outcome for each transition. -/
theorem successors_ne_nil {name : Bytes} {labels : List Bytes} (iteration : ℕ)
    (hsystem : TransitionSystem.create name labels = some parser.system) (hlabels : labels ≠ [])
    (hroot : h.conf.singleRoot = true →
      rootLabel ∈ labels ∧ ∃ label ∈ labels, label ≠ rootLabel)
    (hnetwork : ∀ ids, (parser.network ids).length = parser.system.length) :
    parser.successors iteration h ≠ [] := by
  obtain ⟨choice, hchoice⟩ : ∃ choice, choice ∈ parser.choices iteration h := by
    unfold choices
    split
    · exact ⟨_, List.mem_singleton_self _⟩
    · rename_i hfinal
      obtain ⟨transition, hlt, happlicable⟩ := exists_applicable_of_not_final hsystem hlabels hroot
        (Bool.eq_false_iff.mpr hfinal)
      have houtcome := List.getElem?_eq_getElem
        ((hnetwork (parser.embeddingIds h.conf)).symm ▸ hlt)
      have hmem := @List.mem_zipIdx_iff_getElem? _ (_, transition) _ |>.mpr houtcome
      exact ⟨_, List.mem_filterMap.mpr ⟨(_, transition), hmem, if_pos happlicable⟩⟩
  obtain ⟨h', hafter, _⟩ := exists_after hchoice
  exact List.ne_nil_of_mem (List.mem_filterMap.mpr ⟨choice, hchoice, hafter⟩)

end ParserNN

end UDPipe.Parsito
