import UDPipe.Parsito.BeamParse

/-!
# Greedy parsing

`parser_nn::parse_greedy` always performs the most probable applicable transition. It looks up the
ids of all nodes once, and after an arc only those of the child, as no value that is extracted from
a node depends on other links than its relation. So each transition is the best one for the ids of
the tree as it is then, and the parse ends with a tree.
-/

namespace UDPipe.Parsito

variable {κ : Type}

/-- What the workspace holds during a greedy parse. -/
structure GreedyState where
  conf : Configuration
  embeddings : List (List ℤ)
  deriving DecidableEq, Repr

namespace ParserNN

variable (parser : ParserNN κ)

/-! ### The parse -/

/-- Compute the embeddings of a node, in front of those its row has. -/
def nodeEmbeddings (n : Node) (row : List ℤ) : List ℤ :=
  parser.ids n ++ row.drop parser.lookups.length

/-- Before the loop, with the embeddings that the workspace had. -/
def greedyStart (embeddings : List (List ℤ)) (t : Tree) : GreedyState :=
  let conf := Configuration.init parser.singleRoot t
  { conf
    embeddings :=
      (conf.t.nodes.zipIdx.map fun v => parser.nodeEmbeddings v.1 (embeddings.getD v.2 [])) ++
        embeddings.drop conf.t.nodes.length }

variable [LinearOrder κ]

/-- One step of the loop over the outcomes. -/
def moreProbable (conf : Configuration) (best : Option (κ × ℕ)) (outcome : κ × ℕ) :
    Option (κ × ℕ) :=
  if parser.system.applicable conf outcome.2 && best.all fun b => decide (outcome.1 > b.1)
  then some outcome else best

/-- Find the most probable applicable transition. -/
def mostProbable (conf : Configuration) (outcomes : List κ) : Option (κ × ℕ) :=
  outcomes.zipIdx.foldl (parser.moreProbable conf) none

/-- The body of the loop: the state after the best transition, and its outcome. -/
def greedyStep (state : GreedyState) : Option (GreedyState × κ) :=
  let extractedEmbeddings := (parser.nodes.extract state.conf).map fun i =>
    if i ≥ 0 then some (state.embeddings.getD i.toNat []) else none
  (parser.mostProbable state.conf (parser.propagate extractedEmbeddings)).bind fun best =>
    (parser.system.perform state.conf best.2).map fun result =>
      -- if a node was linked, recompute its embeddings as its relation has changed
      let embeddings :=
        match (if result.2 ≥ 0 then result.1.t.nodes[result.2.toNat]? else none) with
        | some v => state.embeddings.modify result.2.toNat (parser.nodeEmbeddings v)
        | none => state.embeddings
      ({ conf := result.1, embeddings }, best.1)

/-- The loop, with the number of transitions and the sum of the logarithms so far. -/
def greedyLoop [Add κ] : ℕ → GreedyState → ℕ → κ → Option (Tree × ℕ × κ)
  | 0, _, _, _ => none
  | fuel + 1, state, transitions, cost =>
    if state.conf.final then some (state.conf.t, transitions, cost)
    else (parser.greedyStep state).bind fun next =>
      greedyLoop fuel next.1 (transitions + 1) (cost + parser.log next.2)

variable [Add κ] [Mul κ] [Div κ] [NatCast κ]

/-- `parser_nn::parse_greedy`: the tree, and its cost. -/
def parseGreedy (fuel : ℕ) (embeddings : List (List ℤ)) (t : Tree) : Option (Tree × κ) :=
  (parser.greedyLoop fuel (parser.greedyStart embeddings t) 0 ((0 : ℕ) : κ)).map fun result =>
    let (t', transitions, cost) := result
    (t', if transitions = 0 then cost
      else cost / (transitions : κ) * ((t.nodes.length - 1 : ℕ) : κ))

end ParserNN

/-! ### The best applicable transition -/

namespace ParserNN

variable {parser : ParserNN κ} [LinearOrder κ]

/-- The first one of the most probable applicable transitions. -/
structure MostProbable (parser : ParserNN κ) (conf : Configuration) (outcomes : List κ)
    (transition : ℕ) (outcome : κ) : Prop where
  applicable : parser.system.applicable conf transition = true
  outcome_eq : outcomes[transition]? = some outcome
  most : ∀ i o, outcomes[i]? = some o → parser.system.applicable conf i = true →
    o ≤ outcome ∧ (o = outcome → transition ≤ i)

/-- The loop keeps the first of the best so far, by induction on the outcomes from the end. -/
theorem mostProbable_eq (conf : Configuration) (outcomes : List κ) :
    (∃ outcome transition, MostProbable parser conf outcomes transition outcome ∧
        parser.mostProbable conf outcomes = some (outcome, transition)) ∨
      ((∀ i < outcomes.length, parser.system.applicable conf i = false) ∧
        parser.mostProbable conf outcomes = none) := by
  induction outcomes using List.reverseRecOn with
  | nil => exact .inr ⟨fun i hi => absurd hi (Nat.not_lt_zero i), rfl⟩
  | append_singleton outcomes last ih =>
    have hstep : parser.mostProbable conf (outcomes ++ [last]) =
        parser.moreProbable conf (parser.mostProbable conf outcomes) (last, outcomes.length) := by
      rw [mostProbable, mostProbable, List.zipIdx_append, List.foldl_append]
      simp
    have hold : ∀ i < outcomes.length, (outcomes ++ [last])[i]? = outcomes[i]? :=
      fun i hi => List.getElem?_append_left hi
    have hcases : ∀ i o, (outcomes ++ [last])[i]? = some o →
        outcomes[i]? = some o ∨ i = outcomes.length ∧ o = last := by
      intro i o hi
      rcases Nat.lt_trichotomy i outcomes.length with hlt | rfl | hgt
      · exact .inl (hold i hlt ▸ hi)
      · rw [List.getElem?_concat_length] at hi
        exact .inr ⟨rfl, (Option.some.inj hi).symm⟩
      · rw [List.getElem?_eq_none (by simpa using Nat.succ_le_of_lt hgt)] at hi
        cases hi
    rw [hstep, moreProbable]
    rcases ih with ⟨outcome, transition, hmost, heq⟩ | ⟨hnone, heq⟩
    · rw [heq]
      have hlt := (List.getElem?_eq_some_iff.mp hmost.outcome_eq).1
      by_cases hnew : parser.system.applicable conf outcomes.length = true ∧ last > outcome
      · refine .inl ⟨last, outcomes.length, ⟨hnew.1, List.getElem?_concat_length, ?_⟩, ?_⟩
        · intro i o hi happlicable
          rcases hcases i o hi with hi | ⟨rfl, rfl⟩
          · have hlower := (hmost.most i o hi happlicable).1.trans_lt hnew.2
            exact ⟨hlower.le, fun h => absurd h hlower.ne⟩
          · exact ⟨le_rfl, fun _ => le_rfl⟩
        · simp [hnew.1, hnew.2]
      · refine .inl ⟨outcome, transition, ⟨hmost.applicable, ?_, ?_⟩, ?_⟩
        · rw [hold transition hlt, hmost.outcome_eq]
        · intro i o hi happlicable
          rcases hcases i o hi with hi | ⟨rfl, rfl⟩
          · exact hmost.most i o hi happlicable
          · exact ⟨not_lt.mp fun hgt => hnew ⟨happlicable, hgt⟩, fun _ => hlt.le⟩
        · rw [if_neg]
          simpa using hnew
    · rw [heq]
      by_cases hnew : parser.system.applicable conf outcomes.length = true
      · refine .inl ⟨last, outcomes.length, ⟨hnew, List.getElem?_concat_length, ?_⟩, ?_⟩
        · intro i o hi happlicable
          rcases hcases i o hi with hi | ⟨rfl, rfl⟩
          · have hlt := (List.getElem?_eq_some_iff.mp hi).1
            rw [hnone i hlt] at happlicable
            cases happlicable
          · exact ⟨le_rfl, fun _ => le_rfl⟩
        · simp [hnew]
      · refine .inr ⟨fun i hi => ?_, ?_⟩
        · rw [List.length_append, List.length_singleton] at hi
          rcases Nat.lt_or_eq_of_le (Nat.le_of_lt_succ hi) with hlt | rfl
          · exact hnone i hlt
          · exact Bool.eq_false_iff.mpr hnew
        · simp [hnew]

/-! ### Arcs with known labels -/

end ParserNN

/-- The label of the arc that a transition adds. -/
def Transition.arcLabel : Transition → Option Bytes
  | .leftArc label | .rightArc label | .leftArc2 label | .rightArc2 label => some label
  | .shift | .swap => none

/-- The arcs of a system have its labels. -/
theorem TransitionSystem.mem_labels {name : Bytes} {labels : List Bytes}
    {system : TransitionSystem} (h : create name labels = some system) {tr : Transition}
    (htr : tr ∈ system) {label : Bytes} (hlabel : tr.arcLabel = some label) : label ∈ labels := by
  unfold create at h
  split_ifs at h <;> obtain rfl := Option.some.inj h
  all_goals
    simp only [projective, swap, link2, List.mem_cons, List.mem_flatMap, List.not_mem_nil,
      or_false] at htr
    rcases htr with rfl | htr
    · cases hlabel
  · obtain ⟨l, hl, rfl | rfl⟩ := htr <;> obtain rfl := Option.some.inj hlabel <;> exact hl
  · rcases htr with rfl | ⟨l, hl, rfl | rfl⟩
    · cases hlabel
    all_goals obtain rfl := Option.some.inj hlabel; exact hl
  · obtain ⟨l, hl, rfl | rfl | rfl | rfl⟩ := htr <;>
      obtain rfl := Option.some.inj hlabel <;> exact hl

/-- A transition leaves the tree, or sets the head of the child it returns to another node that
was pending. -/
theorem Transition.perform_tree {tr : Transition} {conf : Configuration}
    {result : Configuration × ℤ} (h : tr.perform conf = some result) :
    (result.2 = -1 ∧ result.1.t = conf.t) ∨
      ∃ parent label, tr.arcLabel = some label ∧ result.2 ∈ conf.pending ∧ parent ∈ conf.pending ∧
        result.1.t = conf.t.setHead result.2 parent label := by
  obtain ⟨t, stack, buffer, single⟩ := conf
  cases tr with
  | shift =>
    cases buffer with
    | nil => cases h
    | cons front rest =>
      obtain rfl := Option.some.inj h
      exact .inl ⟨rfl, rfl⟩
  | swap =>
    rcases stack with _ | ⟨top, _ | ⟨second, rest⟩⟩
    · cases h
    · cases h
    · obtain rfl := Option.some.inj h
      exact .inl ⟨rfl, rfl⟩
  | leftArc label | rightArc label =>
    rcases stack with _ | ⟨a, _ | ⟨b, rest⟩⟩
    · cases h
    · cases h
    · obtain rfl := Option.some.inj h
      exact .inr ⟨_, label, rfl, by simp [Configuration.pending], by simp [Configuration.pending], rfl⟩
  | leftArc2 label | rightArc2 label =>
    rcases stack with _ | ⟨a, _ | ⟨b, _ | ⟨c, rest⟩⟩⟩
    · cases h
    · cases h
    · cases h
    · obtain rfl := Option.some.inj h
      exact .inr ⟨_, label, rfl, by simp [Configuration.pending], by simp [Configuration.pending], rfl⟩

/-- Every word that has a head has a relation of the list. -/
def Labelled (labels : List Bytes) (t : Tree) : Prop := ∀ i, t.headOf i ≠ -1 → t.deprelOf i ∈ labels

/-- A run of a system adds its labels only. -/
theorem labelled_of_run {name : Bytes} {labels : List Bytes} {system : TransitionSystem}
    (hsystem : TransitionSystem.create name labels = some system) {n : ℕ} {choices : List ℕ}
    {conf conf' : Configuration} (hconf : conf.Consistent n) (h : Labelled labels conf.t)
    (hrun : system.run choices conf = some conf') : Labelled labels conf'.t := by
  induction choices generalizing conf with
  | nil =>
    obtain rfl := Option.some.inj hrun
    exact h
  | cons transition rest ih =>
    obtain ⟨tr, next, child, htr, happlicable, hperform, hrest⟩ := TransitionSystem.run_cons hrun
    have hnext := hconf.step (step_of_perform happlicable hperform)
    refine ih hnext ?_ hrest
    rcases Transition.perform_tree hperform with
      ⟨-, htree⟩ | ⟨parent, label, hlabel, hchild, hparent, htree⟩
    · exact htree ▸ h
    · have hmem := TransitionSystem.mem_labels hsystem htr hlabel
      obtain ⟨hnonneg, hle, hfirst⟩ := (hconf.mem_pending child).mp hchild
      have hparent' := (hconf.mem_pending parent).mp hparent
      have hsize := hconf.size
      intro i hi
      dsimp only at htree
      have hlinks := @Tree.linksOf_setHead conf.t child parent label hnonneg (by omega) (by omega)
        hfirst i
      rw [htree, Tree.headOf, hlinks] at hi
      rw [htree, Tree.deprelOf, hlinks]
      dsimp only at hi ⊢
      split at hi
      · next heq => rwa [if_pos heq]
      · next hne =>
        rw [if_neg hne]
        exact h i hi

/-! ### The cached embeddings -/

/-- What is extracted from a node depends on its links only by the relation. -/
theorem ValueExtractor.extract_withLinks (selector : ValueExtractor) (v : Node) {l : Links}
    (h : l.deprel = v.deprel) : selector.extract (withLinks v l) = selector.extract v := by
  cases selector with
  | deprel => exact h
  | _ => rfl

namespace ParserNN

variable {parser : ParserNN κ} {n : ℕ} {state : GreedyState}

/-- The ids of a node do not depend on its links, up to the relation. -/
theorem ids_withLinks (v : Node) {l : Links} (h : l.deprel = v.deprel) :
    parser.ids (withLinks v l) = parser.ids v := by
  rw [ids, ids]
  simp only [ValueExtractor.extract_withLinks _ v h]

/-- Every lookup gives an id. -/
theorem length_ids (v : Node) : (parser.ids v).length = parser.lookups.length := List.length_map ..

/-- The row of each node begins with its ids. -/
def Caches (parser : ParserNN κ) (state : GreedyState) : Prop :=
  ∀ (i : ℕ) (v : Node), state.conf.t.nodes[i]? = some v →
    ∃ rest, state.embeddings[i]? = some (parser.ids v ++ rest)

/-- At the start the embeddings are cached. -/
theorem caches_greedyStart (embeddings : List (List ℤ)) (t : Tree) :
    parser.Caches (parser.greedyStart embeddings t) := by
  intro i v hv
  have hlt := (List.getElem?_eq_some_iff.mp hv).1
  refine ⟨(embeddings.getD i []).drop parser.lookups.length, ?_⟩
  rw [greedyStart] at hv hlt ⊢
  dsimp only at hv hlt ⊢
  rw [List.getElem?_append_left (by simpa using hlt), List.getElem?_map, List.getElem?_zipIdx, hv]
  simp [nodeEmbeddings]

/-- The embeddings that are read are those of the extracted nodes of the tree. -/
theorem Caches.extracted_eq (h : parser.Caches state) (hconf : state.conf.Consistent n) :
    parser.propagate ((parser.nodes.extract state.conf).map fun i =>
        if i ≥ 0 then some (state.embeddings.getD i.toNat []) else none) =
      parser.network (parser.embeddingIds state.conf) := by
  rw [propagate, embeddingIds, List.map_map]
  congr 1
  apply List.map_congr_left
  intro i hi
  have hlt := extract_lt hconf hi
  rw [Function.comp_apply]
  split
  · have hsize := hconf.size
    have hget := List.getElem?_eq_getElem (show i.toNat < state.conf.t.nodes.length by omega)
    obtain ⟨rest, hrow⟩ := h _ _ hget
    rw [Option.map_some, List.getD_eq_getElem?_getD, hrow, Option.getD_some, hget, Option.map_some,
      Option.getD_some, List.take_left' (length_ids _)]
  · rfl

section Runs

variable [LinearOrder κ]

/-- The parse as it is meant: as long as the configuration is not final, the most probable
applicable transition for the ids of its tree is performed. -/
inductive Greedy (parser : ParserNN κ) : Configuration → List ℕ → List κ → Configuration → Prop
  | final {conf : Configuration} (hfinal : conf.final = true) : Greedy parser conf [] [] conf
  | step {conf last : Configuration} {transition : ℕ} {outcome : κ} {next : Configuration × ℤ}
      {history : List ℕ} {outcomes : List κ} (hfinal : conf.final = false)
      (hmost : parser.MostProbable conf (parser.network (parser.embeddingIds conf)) transition
        outcome)
      (hperform : parser.system.perform conf transition = some next)
      (hrest : Greedy parser next.1 history outcomes last) :
      Greedy parser conf (transition :: history) (outcome :: outcomes) last

/-- The body of the loop performs the most probable applicable transition and keeps the ids. -/
theorem Caches.greedyStep_eq (h : parser.Caches state) (hconf : state.conf.Consistent n)
    {transition : ℕ} {outcome : κ} {next : Configuration × ℤ}
    (hmost : parser.MostProbable state.conf (parser.network (parser.embeddingIds state.conf))
      transition outcome)
    (hperform : parser.system.perform state.conf transition = some next) :
    ∃ state', parser.greedyStep state = some (state', outcome) ∧ state'.conf = next.1 ∧
      parser.Caches state' := by
  have hbest : parser.mostProbable state.conf (parser.network (parser.embeddingIds state.conf)) =
      some (outcome, transition) := by
    rcases @mostProbable_eq κ parser _ state.conf (parser.network (parser.embeddingIds state.conf))
      with ⟨outcome', transition', hmost', heq⟩ | ⟨hnone, -⟩
    · have hle := hmost.most _ _ hmost'.outcome_eq hmost'.applicable
      have hge := hmost'.most _ _ hmost.outcome_eq hmost.applicable
      obtain rfl := le_antisymm hle.1 hge.1
      rw [heq, le_antisymm (hle.2 rfl) (hge.2 rfl)]
    · have hlt := (List.getElem?_eq_some_iff.mp hmost.outcome_eq).1
      have happlicable := hmost.applicable
      rw [hnone transition hlt] at happlicable
      cases happlicable
  have hstep : parser.greedyStep state = some (⟨next.1,
      match (if next.2 ≥ 0 then next.1.t.nodes[next.2.toNat]? else none) with
      | some v => state.embeddings.modify next.2.toNat (parser.nodeEmbeddings v)
      | none => state.embeddings⟩, outcome) := by
    simp only [greedyStep, h.extracted_eq hconf, hbest, Option.bind_some, hperform,
      Option.map_some]
  refine ⟨_, hstep, rfl, ?_⟩
  obtain ⟨tr, -, hperform'⟩ := Option.bind_eq_some_iff.mp hperform
  rcases Transition.perform_tree hperform' with
    ⟨hnone, htree⟩ | ⟨parent, label, -, hchild, hparent, htree⟩
  · rw [hnone, if_neg (by decide)]
    intro i v hv
    exact h i v (htree ▸ hv)
  · obtain ⟨hnonneg, hle, hfirst⟩ := (hconf.mem_pending next.2).mp hchild
    have hsize := hconf.size
    obtain ⟨old, hget⟩ : ∃ old, state.conf.t.nodes[next.2.toNat]? = some old :=
      ⟨_, List.getElem?_eq_getElem (by omega)⟩
    have hnode : ∀ j : ℕ, next.1.t.nodes[j]? = state.conf.t.nodes[j]?.map fun w =>
        withLinks w (linksAfter (links old).head next.2 parent label j (links w)) := by
      intro j
      rw [htree]
      exact getElem?_setHeadIn hnonneg hget j
    intro i v hv
    dsimp only at hv ⊢
    rw [if_pos hnonneg]
    have hnew := hnode next.2.toNat
    rw [hget, Option.map_some] at hnew
    rw [hnew]
    dsimp only
    obtain ⟨w, hw, hv'⟩ := Option.map_eq_some_iff.mp ((hnode i).symm.trans hv)
    obtain ⟨rest, hrow⟩ := h i w hw
    rw [List.getElem?_modify, hrow]
    by_cases hi : next.2.toNat = i
    · subst hi
      rw [hnew] at hv
      refine ⟨(parser.ids w ++ rest).drop parser.lookups.length, ?_⟩
      simp only [if_true, ← Option.some.inj hv]
      rfl
    · refine ⟨rest, ?_⟩
      have hne : next.2 ≠ (i : ℤ) := by omega
      have hids : parser.ids v = parser.ids w := by
        rw [← hv']
        exact ids_withLinks w (by simp only [linksAfter, if_neg hne]; rfl)
      simp only [if_neg hi, hids]
      rfl

/-- From a consistent configuration the parse reaches a final one. -/
theorem exists_greedy {name : Bytes} {labels : List Bytes}
    (hsystem : TransitionSystem.create name labels = some parser.system) (hlabels : labels ≠ [])
    (hroot : parser.singleRoot = true →
      rootLabel ∈ labels ∧ ∃ label ∈ labels, label ≠ rootLabel)
    (hnetwork : ∀ ids, (parser.network ids).length = parser.system.length) {conf : Configuration}
    (hconf : conf.Consistent n) (hsingle : conf.singleRoot = parser.singleRoot) :
    ∃ history outcomes last, parser.Greedy conf history outcomes last := by
  induction hmeasure : conf.remaining using Nat.strong_induction_on generalizing conf with
  | _ remaining ih =>
    cases hfinal : conf.final with
    | true => exact ⟨[], [], conf, .final hfinal⟩
    | false =>
      obtain ⟨outcome, transition, hmost⟩ : ∃ outcome transition, parser.MostProbable conf
          (parser.network (parser.embeddingIds conf)) transition outcome := by
        rcases @mostProbable_eq κ parser _ conf (parser.network (parser.embeddingIds conf)) with
          ⟨outcome, transition, hmost, -⟩ | ⟨hnone, -⟩
        · exact ⟨outcome, transition, hmost⟩
        · obtain ⟨i, hi, happlicable⟩ := exists_applicable_of_not_final hsystem hlabels
            (fun hs => hroot (hsingle ▸ hs)) hfinal
          rw [hnone i (hnetwork _ ▸ hi)] at happlicable
          cases happlicable
      obtain ⟨next, hperform⟩ := TransitionSystem.exists_perform hmost.applicable
      have hrun := @TransitionSystem.run_concat _ [] _ _ _ _ rfl hmost.applicable hperform
      obtain ⟨hconf', hsingle', hlength⟩ := consistent_of_run hconf hrun
      obtain ⟨history, outcomes, last, hrest⟩ := ih next.1.remaining
        (by rw [List.nil_append, List.length_singleton] at hlength; omega) hconf'
        (hsingle'.trans hsingle) rfl
      exact ⟨_, _, last, .step hfinal hmost hperform hrest⟩

/-- The history of a parse is a run to a final configuration. -/
theorem Greedy.run {conf last : Configuration} {history : List ℕ} {outcomes : List κ}
    (h : parser.Greedy conf history outcomes last) :
    parser.system.run history conf = some last ∧ last.final = true := by
  induction h with
  | final hfinal => exact ⟨rfl, hfinal⟩
  | step hfinal hmost hperform hrest ih =>
    refine ⟨?_, ih.2⟩
    rw [TransitionSystem.run, if_pos hmost.applicable, hperform, Option.bind_some]
    exact ih.1

/-- Every transition has its outcome. -/
theorem Greedy.length_eq {conf last : Configuration} {history : List ℕ} {outcomes : List κ}
    (h : parser.Greedy conf history outcomes last) : outcomes.length = history.length := by
  induction h with
  | final hfinal => rfl
  | step hfinal hmost hperform hrest ih => rw [List.length_cons, List.length_cons, ih]

/-- The loop follows the parse. -/
theorem Greedy.loop_eq [Add κ] {conf last : Configuration} {history : List ℕ} {outcomes : List κ}
    (h : parser.Greedy conf history outcomes last) (hconf : conf.Consistent n)
    {state : GreedyState} (hstate : state.conf = conf) (hcaches : parser.Caches state) {fuel : ℕ}
    (hfuel : history.length < fuel) (transitions : ℕ) (cost : κ) :
    parser.greedyLoop fuel state transitions cost = some (last.t, transitions + history.length,
      outcomes.foldl (fun cost outcome => cost + parser.log outcome) cost) := by
  induction h generalizing state fuel transitions cost with
  | final hfinal =>
    obtain ⟨fuel, rfl⟩ := Nat.exists_eq_succ_of_ne_zero (Nat.ne_of_gt hfuel)
    rw [greedyLoop, hstate, if_pos hfinal]
    rfl
  | @step conf last transition outcome next history outcomes hfinal hmost hperform hrest ih =>
    obtain ⟨fuel, rfl⟩ := Nat.exists_eq_succ_of_ne_zero (Nat.ne_of_gt (Nat.zero_lt_of_lt hfuel))
    subst hstate
    obtain ⟨state', hstep, hstate', hcaches'⟩ := hcaches.greedyStep_eq hconf hmost hperform
    have hrun := @TransitionSystem.run_concat _ [] _ _ _ _ rfl hmost.applicable hperform
    have hconf' := (consistent_of_run hconf hrun).1
    rw [greedyLoop, if_neg (by rw [hfinal]; decide), hstep, Option.bind_some,
      ih hconf' hstate' hcaches' (Nat.lt_of_succ_lt_succ hfuel), List.length_cons, Nat.add_assoc,
      Nat.add_comm 1]
    rfl

variable [Add κ] [Mul κ] [Div κ] [NatCast κ]

/-- The cost that a parse of `n` words returns for the outcomes of its transitions. -/
def greedyCost (parser : ParserNN κ) (n : ℕ) (outcomes : List κ) : κ :=
  let cost := outcomes.foldl (fun cost outcome => cost + parser.log outcome) ((0 : ℕ) : κ)
  if outcomes.length = 0 then cost else cost / (outcomes.length : κ) * (n : κ)

/-- Greedy parsing with cached embeddings performs in each configuration the first of the most
probable applicable transitions, for the ids of the tree of this configuration, whatever the
workspace held before. After at most quadratically many transitions the words form a tree whose
relations are labels. -/
theorem parseGreedy_refines (parser : ParserNN κ) (embeddings : List (List ℤ)) {name : Bytes}
    {labels : List Bytes} (hsystem : TransitionSystem.create name labels = some parser.system)
    (hlabels : labels ≠ [])
    (hroot : parser.singleRoot = true →
      rootLabel ∈ labels ∧ ∃ label ∈ labels, label ≠ rootLabel)
    (hnetwork : ∀ ids, (parser.network ids).length = parser.system.length)
    {t : Tree} {n : ℕ} (hsize : t.nodes.length = n + 1) :
    ∃ history outcomes last,
      parser.Greedy (Configuration.init parser.singleRoot t) history outcomes last ∧
      history.length ≤ n * n + 4 * n ∧ IsTree n last.t ∧ last.t.SameWords t ∧
      Labelled labels last.t ∧
      (parser.singleRoot = true → 1 ≤ n → SingleRooted n last.t) ∧
      ∀ fuel, n * n + 4 * n < fuel → parser.parseGreedy fuel embeddings t =
        some (last.t, parser.greedyCost n outcomes) := by
  have hinit := Configuration.consistent_init parser.singleRoot hsize
  obtain ⟨history, outcomes, last, hgreedy⟩ :=
    exists_greedy hsystem hlabels hroot hnetwork hinit rfl
  obtain ⟨hrun, hfinal⟩ := hgreedy.run
  obtain ⟨hconf, hsingle, hlength⟩ := consistent_of_run hinit hrun
  have hbound := remaining_init_le parser.singleRoot hsize
  have hstack := List.length_pos_of_mem (List.mem_of_getLast? hconf.bottom)
  have hhistory : history.length ≤ n * n + 4 * n := by
    rw [Configuration.remaining] at hlength
    omega
  refine ⟨history, outcomes, last, hgreedy, hhistory, hconf.isTree hfinal, ?_, ?_,
    fun hs hn => hconf.singleRooted hfinal (hsingle.trans hs) hn, fun fuel hfuel => ?_⟩
  · exact (TransitionSystem.sameWords_of_run hrun).trans (Tree.sameWords_unlinkAllNodes t)
  · refine labelled_of_run hsystem hinit (fun i hi => ?_) hrun
    rw [Tree.headOf, Configuration.init, Tree.linksOf_unlinkAllNodes] at hi
    exact absurd rfl hi
  · have hloop := hgreedy.loop_eq hinit (rfl : (parser.greedyStart embeddings t).conf = _)
      (caches_greedyStart embeddings t) (hhistory.trans_lt hfuel) 0 ((0 : ℕ) : κ)
    rw [parseGreedy, hloop, Option.map_some, greedyCost, hgreedy.length_eq, Nat.zero_add, hsize,
      Nat.add_sub_cancel]

end Runs

end ParserNN

/-- Two words. -/
theorem parseGreedy_refines_twoWords : ∃ t cost,
    leftmostRelation.parseGreedy 13 [[7], [], [0, 1, 2]] twoWords = some (t, cost) ∧ IsTree 2 t ∧
      SingleRooted 2 t := by
  obtain ⟨_, _, last, _, _, htree, _, _, hrooted, hparse⟩ :=
    leftmostRelation.parseGreedy_refines [[7], [], [0, 1, 2]]
      (show TransitionSystem.create (bytes "projective") [rootLabel, bytes "det"] = _ by decide)
      (by decide) (by decide) (fun ids => by simp only [leftmostRelation]; split <;> decide)
      (show twoWords.nodes.length = 2 + 1 by decide)
  exact ⟨_, _, hparse 13 (by decide), htree, hrooted rfl (by decide)⟩

end UDPipe.Parsito
