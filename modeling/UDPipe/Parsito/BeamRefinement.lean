import UDPipe.Parsito.Hypotheses

/-!
# The shared beam refines the hypotheses

Each element of the beam in the workspace stands for a hypothesis, although all of
them use one tree and one cache of embeddings. The shared parts are right for every
hypothesis: refreshing gives its own tree, and updating gives the ids of that tree.
-/

namespace UDPipe.Parsito

variable {κ : Type}

/-- An element of a beam has the configuration of a hypothesis, and saved its tree. -/
structure BeamSizeConfiguration.Represents (bsConf : BeamSizeConfiguration κ)
    (h : Hypothesis κ) : Prop where
  stack_eq : bsConf.stack = h.conf.stack
  buffer_eq : bsConf.buffer = h.conf.buffer
  saved : Saved bsConf.heads bsConf.deprels h.conf.t
  cost_eq : bsConf.cost = h.cost

/-- The beam of an iteration has elements for the hypotheses, one by one. -/
structure Workspace.Represents (w : Workspace κ) (iteration : ℕ) (beam : List (Hypothesis κ)) :
    Prop where
  size_eq : w.bsConfsSize (iteration % 2) = beam.length
  elements : ∀ (c : ℕ) (h : Hypothesis κ), beam[c]? = some h →
    ∃ bsConf, (w.bsConfs (iteration % 2))[c]? = some bsConf ∧ bsConf.Represents h

namespace ParserNN

variable {parser : ParserNN κ} {t : Tree} {n : ℕ} {h : Hypothesis κ}

/-! ### The cache of embeddings -/

/-- Every id is the one of the value beside it. -/
def Cached (ls : List (ValueExtractor × Embedding)) (row : List CachedEmbedding) : Prop :=
  List.Forall₂ (fun l cached => cached.id = l.2 cached.value) ls (row.take ls.length)

/-- The looked up embeddings of a node are cached. -/
theorem cached_lookup (n : Node) (ls : List (ValueExtractor × Embedding))
    (rest : List CachedEmbedding) : Cached ls (ls.map (lookup n) ++ rest) := by
  rw [Cached, List.take_left' (List.length_map ..), List.forall₂_map_right_iff]
  exact List.forall₂_same.mpr fun _ _ => rfl

/-- Updating a cached row looks everything up in the node. -/
theorem updateEmbeddings_eq {n : Node} {ls : List (ValueExtractor × Embedding)}
    {row : List CachedEmbedding} (hcached : Cached ls row) :
    updateEmbeddings n ls row = ls.map (lookup n) ++ row.drop ls.length := by
  induction ls generalizing row with
  | nil => rfl
  | cons l ls ih =>
    cases row with
    | nil => cases hcached
    | cons cached row =>
      obtain ⟨hid, hrest⟩ := List.forall₂_cons.mp hcached
      rw [updateEmbeddings, ih hrest]
      by_cases hvalue : l.1.extract n = cached.value
      · have hsame : cached = lookup n l := by
          obtain ⟨value, id⟩ := cached
          simp only at hid hvalue
          rw [lookup, hvalue, hid]
        simp [hvalue, ← hsame]
      · simp [hvalue]

/-- The cached ids are those of the node. -/
theorem map_id_lookup (n : Node) (rest : List CachedEmbedding) :
    ((parser.lookups.map (lookup n) ++ rest).map (·.id)).take parser.lookups.length =
      parser.ids n := by
  rw [List.map_append, List.take_left' (by simp), List.map_map]
  rfl

/-! ### Extracted nodes -/

/-- A node with a head is a node of the tree. -/
private theorem lt_of_headOf {conf : Configuration} (hconf : conf.Consistent n) {i : ℤ}
    (hhead : conf.t.headOf i ≠ -1) : i < n + 1 := by
  by_contra hout
  apply hhead
  have hnone : conf.t.linksOf i = {} := by
    unfold Tree.linksOf
    split
    · rw [List.getElem?_eq_none (by rw [hconf.size]; omega)]
      rfl
    · rfl
  rw [Tree.headOf, hnone]

/-- A list has its elements, or the number of no node. -/
private theorem getD_mem_or {l : List ℤ} (i : ℕ) : l.getD i (-1) ∈ l ∨ l.getD i (-1) = -1 := by
  rw [List.getD_eq_getElem?_getD]
  cases hget : l[i]? with
  | none => exact .inr rfl
  | some a => exact .inl (List.mem_of_getElem? hget)

/-- A next node is a node of the tree. -/
private theorem next_lt {conf : Configuration} (hconf : conf.Consistent n) (current : ℤ)
    (direction : Direction) : NodeSelector.next conf.t current direction < n + 1 := by
  cases direction with
  | parent =>
    have hhead := hconf.heads current
    rw [NodeSelector.next]
    split <;> omega
  | child index =>
    have hchild : ∀ i : ℕ, (conf.t.childrenOf current).getD i (-1) < n + 1 := by
      intro i
      rcases getD_mem_or (l := conf.t.childrenOf current) i with hmem | hnone
      · have hhead := (hconf.mem_children _ _).mp hmem
        exact lt_of_headOf hconf (by omega)
      · omega
    rw [NodeSelector.next, NodeSelector.childAt]
    split
    · exact hchild _
    · split
      · exact hchild _
      · omega

/-- Directions lead to nodes of the tree. -/
private theorem follow_lt {conf : Configuration} (hconf : conf.Consistent n)
    (directions : List Direction) {current : ℤ} (hcurrent : current < n + 1) :
    NodeSelector.follow conf.t directions current < n + 1 := by
  induction directions generalizing current with
  | nil => exact hcurrent
  | cons direction directions ih =>
    have hnext := next_lt hconf current direction
    rw [NodeSelector.follow]
    split
    · exact hnext
    · exact ih hnext

/-- Only nodes of the tree are extracted. -/
theorem extract_lt {conf : Configuration} (hconf : conf.Consistent n) {nodes : NodeExtractor}
    {i : ℤ} (hi : i ∈ nodes.extract conf) : i < n + 1 := by
  obtain ⟨selector, _, rfl⟩ := List.mem_map.mp hi
  have hstart : ∀ (l : List ℤ) (index : ℤ), (∀ a ∈ l, a ∈ conf.pending) →
      NodeSelector.startAt l index < n + 1 := by
    intro l index hl
    rw [NodeSelector.startAt]
    split
    · omega
    · rcases getD_mem_or (l := l) index.toNat with hmem | hnone
      · have hpending := (hconf.mem_pending _).mp (hl _ hmem)
        omega
      · omega
  rw [NodeSelector.select]
  split
  · split
    · exact follow_lt hconf _ (hstart _ _ fun a ha => List.mem_append_left _ ha)
    · exact hstart _ _ fun a ha => List.mem_append_left _ ha
  · split
    · exact follow_lt hconf _ (hstart _ _ fun a ha => List.mem_append_right _ ha)
    · exact hstart _ _ fun a ha => List.mem_append_right _ ha

/-! ### Classifying -/

/-- What all configurations of the beams share. -/
structure Shared (parser : ParserNN κ) (beamSize : ℕ) (t : Tree) (w : Workspace κ) : Prop where
  words : w.tree.SameWords t
  lengths : ∀ b, (w.bsConfs b).length = beamSize
  cached : ∀ i < t.nodes.length, ∃ row, w.embeddings[i]? = some row ∧ Cached parser.lookups row

/-- The configuration of an element, when the tree is that of its hypothesis. -/
theorem conf_eq {bsConf : BeamSizeConfiguration κ} (hrepresents : bsConf.Represents h)
    (hsingle : h.conf.singleRoot = parser.singleRoot) : parser.conf bsConf h.conf.t = h.conf := by
  rw [conf, hrepresents.stack_eq, hrepresents.buffer_eq, ← hsingle]

/-- Whether an element is final does not depend on the tree. -/
theorem final_eq {bsConf : BeamSizeConfiguration κ} (hrepresents : bsConf.Represents h)
    (s : Tree) : (parser.conf bsConf s).final = h.conf.final := by
  simp only [Configuration.final, conf, hrepresents.stack_eq, hrepresents.buffer_eq]

/-- The workspace after the outcomes for a hypothesis were computed. -/
structure Classified (parser : ParserNN κ) (h : Hypothesis κ) (w : Workspace κ) : Prop where
  tree_eq : w.tree = h.conf.t
  ids_eq : w.extractedEmbeddings.map (Option.map (List.take parser.lookups.length)) =
    parser.embeddingIds h.conf
  outcomes_eq : w.outcomes = parser.network (parser.embeddingIds h.conf)

/-- Classifying uses the tree of the hypothesis and the ids of this tree. -/
theorem classify_spec {beamSize : ℕ} {w : Workspace κ} {bsConf : BeamSizeConfiguration κ}
    (hshared : Shared parser beamSize t w) (hsize : t.nodes.length = n + 1)
    (hreplays : parser.Replays t h) (hrepresents : bsConf.Represents h) :
    Shared parser beamSize t (parser.classify w bsConf) ∧
      Classified parser h (parser.classify w bsConf) := by
  obtain ⟨hconf, hsingle, hwords, _⟩ := hreplays.consistent hsize
  have htree : bsConf.refreshTree w.tree = h.conf.t :=
    refresh_eq hconf (hshared.words.trans hwords.symm) hrepresents.saved
  have hlength : h.conf.t.nodes.length = t.nodes.length := hwords.length_eq
  let rows := List.zipWith (fun n row => updateEmbeddings n parser.lookups row) h.conf.t.nodes
    w.embeddings ++ w.embeddings.drop h.conf.t.nodes.length
  have hrows : ∀ i < t.nodes.length, ∃ v rest, h.conf.t.nodes[i]? = some v ∧
      rows[i]? = some (parser.lookups.map (lookup v) ++ rest) := by
    intro i hi
    obtain ⟨row, hrow, hcached⟩ := hshared.cached i hi
    have hv := List.getElem?_eq_getElem (hlength.symm ▸ hi)
    have hzip : (List.zipWith (fun n row => updateEmbeddings n parser.lookups row) h.conf.t.nodes
        w.embeddings)[i]? = some (updateEmbeddings h.conf.t.nodes[i] parser.lookups row) := by
      rw [List.getElem?_zipWith, hv, hrow]
    have hlt := (List.getElem?_eq_some_iff.mp hzip).1
    refine ⟨_, row.drop parser.lookups.length, hv, ?_⟩
    rw [List.getElem?_append_left hlt, hzip, updateEmbeddings_eq hcached]
  have hids : ((parser.nodes.extract h.conf).map fun i =>
        if i ≥ 0 then some ((rows.getD i.toNat []).map (·.id)) else none).map
          (Option.map (List.take parser.lookups.length)) = parser.embeddingIds h.conf := by
    rw [embeddingIds, List.map_map]
    apply List.map_congr_left
    intro i hi
    have hlt := extract_lt hconf hi
    rw [Function.comp_apply]
    split
    · obtain ⟨v, rest, hv, hrow⟩ := hrows i.toNat (by omega)
      rw [Option.map_some, List.getD_eq_getElem?_getD, hrow, Option.getD_some, map_id_lookup, hv]
      rfl
    · rfl
  have hclassified : parser.classify w bsConf =
      { w with
        tree := h.conf.t
        embeddings := rows
        extractedNodes := parser.nodes.extract h.conf
        extractedEmbeddings := (parser.nodes.extract h.conf).map fun i =>
          if i ≥ 0 then some ((rows.getD i.toNat []).map (·.id)) else none
        outcomes := parser.network (parser.embeddingIds h.conf) } := by
    rw [classify]
    simp only [htree, conf_eq hrepresents hsingle, propagate, ← hids]
    rfl
  rw [hclassified]
  refine ⟨⟨hwords, hshared.lengths, fun i hi => ?_⟩, rfl, hids, rfl⟩
  obtain ⟨v, rest, _, hrow⟩ := hrows i hi
  exact ⟨_, hrow, cached_lookup v _ rest⟩

end ParserNN

end UDPipe.Parsito
