import UDPipe.Parsito.BeamRuns

/-!
# The parse of a beam search

The first beam has the initial hypothesis, every iteration is a step of the search
over hypotheses, and after boundedly many iterations all hypotheses are final. So
the search returns the complete tree of a best hypothesis of the last beam.
-/

namespace UDPipe.Parsito

/-- Steps that can always be continued give a sequence of states. -/
private theorem exists_states {σ : Type} {P : ℕ → σ → Prop} {R : ℕ → σ → σ → Prop} {first : σ}
    (hfirst : P 0 first) (hstep : ∀ i s, P i s → ∃ s', R i s s' ∧ P (i + 1) s') :
    ∃ states : ℕ → σ, states 0 = first ∧
      ∀ i, P i (states i) ∧ R i (states i) (states (i + 1)) := by
  choose next hnext using hstep
  let states : (i : ℕ) → { s // P i s } := fun i =>
    Nat.rec ⟨first, hfirst⟩ (fun i s => ⟨next i s.1 s.2, (hnext i s.1 s.2).2⟩) i
  exact ⟨fun i => (states i).1, rfl, fun i => ⟨(states i).2, (hnext i _ (states i).2).1⟩⟩

namespace ParserNN

variable {κ : Type} {parser : ParserNN κ} {beamSize iteration n : ℕ} {t : Tree}
variable {w : Workspace κ} {beam : List (Hypothesis κ)}

/-! ### The first beam -/

/-- A resized beam has its size. -/
private theorem length_resizeBeam (cost : κ) (confs : List (BeamSizeConfiguration κ)) :
    (resizeBeam beamSize cost confs).length = beamSize := by
  rw [resizeBeam, List.length_take, List.length_append, List.length_replicate]
  omega

/-- The search starts with the initial hypothesis, whatever the workspace held. -/
theorem beamStart_spec [NatCast κ] (w : Workspace κ) (t : Tree) (hpos : 0 < beamSize) :
    Shared parser beamSize t (parser.beamStart beamSize w t) ∧
      (parser.beamStart beamSize w t).Represents 0 [parser.initial t] := by
  have hwords : t.unlinkAllNodes.SameWords t := t.sameWords_unlinkAllNodes
  refine ⟨⟨hwords, fun b => ?_, fun i hi => ?_⟩, ⟨rfl, fun c h hc => ?_⟩⟩
  · by_cases hb : b = 0 <;> simp [beamStart, hb, length_resizeBeam]
  · have hlt : i < t.unlinkAllNodes.nodes.length := hwords.length_eq.symm ▸ hi
    refine ⟨parser.computeEmbeddings t.unlinkAllNodes.nodes[i] (w.embeddings.getD i []), ?_,
      cached_lookup _ _ _⟩
    simp only [beamStart, Configuration.init]
    rw [List.getElem?_append_left (by simpa using hlt), List.getElem?_map, List.getElem?_zipIdx,
      List.getElem?_eq_getElem hlt]
    simp
  · obtain rfl : c = 0 := by
      have hlt := (List.getElem?_eq_some_iff.mp hc).1
      rw [List.length_singleton] at hlt
      omega
    obtain rfl := Option.some.inj hc
    obtain ⟨first, hget⟩ : ∃ first, (resizeBeam beamSize ((0 : ℕ) : κ) (w.bsConfs 0))[0]? =
        some first :=
      ⟨_, List.getElem?_eq_getElem (by rw [length_resizeBeam]; exact hpos)⟩
    let started : BeamSizeConfiguration κ :=
      { first with
        stack := (parser.initial t).conf.stack
        buffer := (parser.initial t).conf.buffer
        cost := ((0 : ℕ) : κ) }
    refine ⟨started.saveTree (parser.initial t).conf.t, ?_,
      ⟨rfl, rfl, saved_saveTree started (parser.initial t).conf.t, rfl⟩⟩
    simp only [beamStart, Nat.zero_mod, if_true, List.getElem?_modify, hget]
    rfl

/-! ### The end of the loop -/

/-- The loop ends when all hypotheses are final. -/
theorem allFinal_iff (hrepresents : w.Represents iteration beam) :
    parser.allFinal iteration w = true ↔ ∀ h ∈ beam, h.conf.final = true := by
  rw [allFinal, hrepresents.size_eq, List.all_eq_true]
  constructor
  · intro hall h hh
    obtain ⟨c, hc⟩ := List.mem_iff_getElem?.mp hh
    obtain ⟨bsConf, hbsConf, helement⟩ := hrepresents.elements c h hc
    have hsame : (parser.conf bsConf w.tree).final = h.conf.final := final_eq helement w.tree
    rw [← hsame]
    apply hall
    apply List.mem_of_getElem? (i := c)
    rw [List.getElem?_take_of_lt (List.getElem?_eq_some_iff.mp hc).1, hbsConf]
  · intro hall bsConf hmem
    obtain ⟨c, hc⟩ := List.mem_iff_getElem?.mp hmem
    have hlt : c < beam.length := by
      have := (List.getElem?_eq_some_iff.mp hc).1
      rw [List.length_take] at this
      omega
    have hget := List.getElem?_eq_getElem hlt
    obtain ⟨bsConf', hbsConf', helement⟩ := hrepresents.elements c _ hget
    rw [List.getElem?_take_of_lt hlt, hbsConf'] at hc
    obtain rfl := Option.some.inj hc
    rw [final_eq helement]
    exact hall _ (List.mem_of_getElem? hget)

/-! ### Following hypotheses -/

/-- What an iteration relies on: the workspace follows valid hypotheses. -/
structure Follows (parser : ParserNN κ) (beamSize : ℕ) (t : Tree) (iteration : ℕ)
    (w : Workspace κ) (beam : List (Hypothesis κ)) : Prop where
  shared : Shared parser beamSize t w
  represents : w.Represents iteration beam
  valid : ∀ h ∈ beam, parser.Valid t iteration h
  ne_nil : beam ≠ []

/-- At the beginning the workspace follows the initial hypothesis. -/
theorem follows_start [NatCast κ] (w : Workspace κ) (t : Tree) (hpos : 0 < beamSize) :
    Follows parser beamSize t 0 (parser.beamStart beamSize w t) [parser.initial t] := by
  obtain ⟨hshared, hrepresents⟩ := parser.beamStart_spec w t hpos
  refine ⟨hshared, hrepresents, fun h hh => ?_, List.cons_ne_nil _ _⟩
  obtain rfl := List.mem_singleton.mp hh
  exact ⟨replays_initial, fun _ => rfl⟩

/-- After so many iterations all hypotheses are final: another one would have made as
many transitions. -/
theorem Follows.allFinal (hsize : t.nodes.length = n + 1)
    (hfollows : Follows parser beamSize t (n * n + 4 * n + 1) w beam) :
    parser.allFinal (n * n + 4 * n + 1) w = true := by
  refine (allFinal_iff hfollows.represents).mpr fun h hh => ?_
  by_contra hnot
  have hvalid := hfollows.valid h hh
  have hfinal := Bool.eq_false_iff.mpr hnot
  have hlength := hvalid.length_eq hfinal
  have hbound := (hvalid.replays.consistent hsize).2.2.2 hfinal
  omega

section Costs

variable [LinearOrder κ]

/-- The loop over the last beam finds a configuration of the highest cost. -/
theorem best_spec {bsConfs : List (BeamSizeConfiguration κ)} {size : ℕ} (hpos : 0 < size)
    (hsize : size ≤ bsConfs.length) :
    best bsConfs size < size ∧ ∃ bestConf, bsConfs[best bsConfs size]? = some bestConf ∧
      ∀ i < size, ∀ bsConf, bsConfs[i]? = some bsConf → bsConf.cost ≤ bestConf.cost := by
  obtain ⟨count, rfl⟩ : ∃ count, size = count + 1 := ⟨size - 1, by omega⟩
  clear hpos
  rw [best, Nat.add_sub_cancel]
  induction count with
  | zero =>
    have hget := List.getElem?_eq_getElem (show 0 < bsConfs.length by omega)
    refine ⟨Nat.zero_lt_one, bsConfs[0], hget, fun i hi bsConf hbsConf => ?_⟩
    obtain rfl : i = 0 := by omega
    obtain rfl := Option.some.inj (hget.symm.trans hbsConf)
    exact le_rfl
  | succ count ih =>
    obtain ⟨hlt, bestConf, hbest, hmax⟩ := ih (by omega)
    have hget := List.getElem?_eq_getElem (show 1 + count < bsConfs.length by omega)
    rw [List.range'_1_concat, List.foldl_append, List.foldl_cons, List.foldl_nil, hget, hbest]
    dsimp only
    have hlast : ∀ i, i < count + 1 + 1 → i < count + 1 ∨ i = 1 + count := by
      intro i hi
      omega
    split
    · rename_i hgt
      refine ⟨by omega, _, hget, fun i hi bsConf hbsConf => ?_⟩
      rcases hlast i hi with hi | rfl
      · exact (hmax i hi bsConf hbsConf).trans hgt.le
      · rw [Option.some.inj (hget.symm.trans hbsConf)]
    · rename_i hle
      refine ⟨by omega, _, hbest, fun i hi bsConf hbsConf => ?_⟩
      rcases hlast i hi with hi | rfl
      · exact hmax i hi bsConf hbsConf
      · rw [← Option.some.inj (hget.symm.trans hbsConf)]
        exact not_lt.mp hle

/-- A best element of the beam stands for a best hypothesis, whose tree is refreshed. -/
theorem Follows.exists_best (hsize : t.nodes.length = n + 1)
    (hfollows : Follows parser beamSize t iteration w beam) (hroom : beam.length ≤ beamSize) :
    ∃ h ∈ beam, (∀ h' ∈ beam, h'.cost ≤ h.cost) ∧
      ∃ bsConf, (w.bsConfs (iteration % 2))[best (w.bsConfs (iteration % 2))
          (w.bsConfsSize (iteration % 2))]? = some bsConf ∧
        bsConf.refreshTree w.tree = h.conf.t ∧ bsConf.cost = h.cost := by
  obtain ⟨hshared, hrepresents, hvalid, hne⟩ := hfollows
  rw [hrepresents.size_eq]
  obtain ⟨hlt, bestConf, hbestConf, hmax⟩ :=
    best_spec (List.length_pos_iff.mpr hne)
      (show beam.length ≤ (w.bsConfs (iteration % 2)).length by rw [hshared.lengths]; exact hroom)
  have hget := List.getElem?_eq_getElem hlt
  obtain ⟨bsConf, hbsConf, helement⟩ := hrepresents.elements _ _ hget
  obtain rfl := Option.some.inj (hbestConf.symm.trans hbsConf)
  have hmem := List.mem_of_getElem? hget
  obtain ⟨hconf, _, hwords, _⟩ := (hvalid _ hmem).replays.consistent hsize
  refine ⟨_, hmem, fun h hh => ?_, bestConf, hbestConf, ?_, helement.cost_eq⟩
  · obtain ⟨c, hc⟩ := List.mem_iff_getElem?.mp hh
    obtain ⟨bsConf, hbsConf, helement'⟩ := hrepresents.elements c h hc
    have hcost := hmax c (List.getElem?_eq_some_iff.mp hc).1 bsConf hbsConf
    rwa [helement.cost_eq, helement'.cost_eq] at hcost
  · exact refresh_eq hconf (hshared.words.trans hwords.symm) helement.saved

variable [Add κ] [Mul κ] [Div κ] [NatCast κ] {ops : HeapOperations κ}

/-- An iteration makes a step, after which the workspace follows the next hypotheses. -/
theorem Follows.next {name : Bytes} {labels : List Bytes}
    (hfollows : Follows parser beamSize t iteration w beam)
    (hsystem : TransitionSystem.create name labels = some parser.system) (hlabels : labels ≠ [])
    (hroot : parser.singleRoot = true →
      rootLabel ∈ labels ∧ ∃ label ∈ labels, label ≠ rootLabel)
    (hnetwork : ∀ ids, (parser.network ids).length = parser.system.length)
    (hsize : t.nodes.length = n + 1) (hpos : 0 < beamSize) :
    ∃ w' beam', parser.beamIteration ops beamSize iteration w = some w' ∧
      parser.BeamStep beamSize iteration beam beam' ∧
      Follows parser beamSize t (iteration + 1) w' beam' := by
  obtain ⟨hshared, hrepresents, hvalid, hne⟩ := hfollows
  obtain ⟨w', beam', hiteration, hbest, hshared', hrepresents'⟩ :=
    beamIteration_spec hshared hsize hpos hvalid hrepresents
  refine ⟨w', beam', hiteration, hbest, hshared', hrepresents', fun h' hh' => ?_, ?_⟩
  · obtain ⟨h, hh, hsuccessor⟩ := List.mem_flatMap.mp (hbest.subset hh')
    exact (hvalid h hh).of_successor hsuccessor
  · apply hbest.ne_nil hpos
    obtain ⟨h, hh⟩ := List.exists_mem_of_ne_nil beam hne
    obtain ⟨_, hsingle, _, _⟩ := (hvalid h hh).replays.consistent hsize
    obtain ⟨h', hh'⟩ := List.exists_mem_of_ne_nil _ (successors_ne_nil iteration hsystem hlabels
      (fun hs => hroot (hsingle.symm.trans hs)) hnetwork)
    exact List.ne_nil_of_mem (List.mem_flatMap.mpr ⟨h, hh, hh'⟩)

/-- The loop follows the iterations to the first beam that is all final. -/
theorem beamLoop_eq {states : ℕ → Workspace κ}
    (hstates : ∀ i, parser.beamIteration ops beamSize i (states i) = some (states (i + 1)))
    {last : ℕ} (hlast : parser.allFinal last (states last) = true)
    (hbefore : ∀ i < last, parser.allFinal i (states i) = false) {fuel i : ℕ} (hi : i ≤ last)
    (hfuel : last < i + fuel) :
    parser.beamLoop ops beamSize fuel i (states i) = some (last + 1, states (last + 1)) := by
  induction fuel generalizing i with
  | zero => omega
  | succ fuel ih =>
    rw [beamLoop, hstates, Option.bind_some]
    rcases Nat.lt_or_ge i last with hlt | hge
    · rw [hbefore i hlt]
      exact ih (by omega) (by omega)
    · obtain rfl : i = last := by omega
      rw [if_pos hlast]

/-- Beam search with one tree for all configurations is the search over hypotheses that
own their trees: in each iteration the beam stands for hypotheses that replay their
histories, the ids of a hypothesis are looked up in its own tree, and the next beam is
a best selection of the successors. The result is the tree of a best hypothesis of the
last beam, which is complete. -/
theorem parseBeamSearch_refines (parser : ParserNN κ) (ops : HeapOperations κ) (w : Workspace κ)
    {name : Bytes} {labels : List Bytes}
    (hsystem : TransitionSystem.create name labels = some parser.system) (hlabels : labels ≠ [])
    (hroot : parser.singleRoot = true →
      rootLabel ∈ labels ∧ ∃ label ∈ labels, label ≠ rootLabel)
    (hnetwork : ∀ ids, (parser.network ids).length = parser.system.length)
    {t : Tree} {n : ℕ} (hsize : t.nodes.length = n + 1) {beamSize : ℕ} (hbeam : 2 ≤ beamSize) :
    ∃ (last : ℕ) (states : ℕ → Workspace κ) (beams : ℕ → List (Hypothesis κ)),
      states 0 = parser.beamStart beamSize w t ∧ beams 0 = [parser.initial t] ∧
      (∀ i, parser.beamIteration ops beamSize i (states i) = some (states (i + 1)) ∧
        parser.BeamStep beamSize i (beams i) (beams (i + 1)) ∧
        (states i).Represents i (beams i) ∧ (∀ h ∈ beams i, parser.Replays t h) ∧
        ∀ c h, (beams i)[c]? = some h → h.conf.final = false →
          Classified parser h (parser.storeFirst ops beamSize i (c + 1) (states i))) ∧
      last ≤ n * n + 4 * n + 2 ∧ (∀ h ∈ beams last, h.conf.final = true) ∧
      ∃ best ∈ beams last, (∀ h ∈ beams last, h.cost ≤ best.cost) ∧ IsTree n best.conf.t ∧
        (parser.singleRoot = true → 1 ≤ n → SingleRooted n best.conf.t) ∧
        ∀ fuel, last ≤ fuel → parser.parseBeamSearch ops beamSize fuel w t =
          some (best.conf.t, best.cost * (n : κ)) := by
  have hpos : 0 < beamSize := by omega
  let P : ℕ → Workspace κ × List (Hypothesis κ) → Prop := fun i s =>
    Follows parser beamSize t i s.1 s.2
  let R : ℕ → Workspace κ × List (Hypothesis κ) → Workspace κ × List (Hypothesis κ) → Prop :=
    fun i s s' => parser.beamIteration ops beamSize i s.1 = some s'.1 ∧
      parser.BeamStep beamSize i s.2 s'.2
  have hfirst : P 0 (parser.beamStart beamSize w t, [parser.initial t]) := follows_start w t hpos
  have hstep : ∀ i s, P i s → ∃ s', R i s s' ∧ P (i + 1) s' := by
    rintro i ⟨w, beam⟩ hfollows
    obtain ⟨w', beam', hiteration, hstep, hfollows'⟩ :=
      hfollows.next hsystem hlabels hroot hnetwork hsize hpos
    exact ⟨(w', beam'), ⟨hiteration, hstep⟩, hfollows'⟩
  obtain ⟨run, hrun, hall⟩ := exists_states hfirst hstep
  have hend := (hall (n * n + 4 * n + 1)).1.allFinal hsize
  have hexists : ∃ i, parser.allFinal i (run i).1 = true := ⟨_, hend⟩
  obtain ⟨last, hlast, hbefore, hle⟩ : ∃ last, parser.allFinal last (run last).1 = true ∧
      (∀ i < last, parser.allFinal i (run i).1 = false) ∧ last ≤ n * n + 4 * n + 1 :=
    ⟨Nat.find hexists, Nat.find_spec hexists,
      fun i hi => Bool.eq_false_iff.mpr (Nat.find_min hexists hi), Nat.find_min' hexists hend⟩
  -- the last iteration copies the hypotheses, which are final
  have hfinal : ∀ h ∈ (run (last + 1)).2, h.conf.final = true := by
    intro h' hh'
    obtain ⟨h, hh, hsuccessor⟩ := List.mem_flatMap.mp ((hall last).2.2.subset hh')
    have hfinal := (allFinal_iff (hall last).1.represents).mp hlast h hh
    rw [successors_of_final hfinal] at hsuccessor
    rw [List.mem_singleton.mp hsuccessor]
    exact hfinal
  have hroom : (run (last + 1)).2.length ≤ beamSize := by
    rw [(hall last).2.2.length_eq]
    exact Nat.min_le_left _ _
  obtain ⟨h, hmem, hmax, bsConf, hbest, htree, hcost⟩ := (hall (last + 1)).1.exists_best hsize hroom
  obtain ⟨hconf, hsingle, _, _⟩ := ((hall (last + 1)).1.valid h hmem).replays.consistent hsize
  refine ⟨last + 1, fun i => (run i).1, fun i => (run i).2, congrArg Prod.fst hrun,
    congrArg Prod.snd hrun, fun i => ?_, by omega, hfinal, h, hmem, hmax,
    hconf.isTree (hfinal h hmem), fun hs hn => ?_, fun fuel hfuel => ?_⟩
  · obtain ⟨⟨hshared, hrepresents, hvalid, _⟩, hiteration, hstep⟩ := hall i
    have hreplays : ∀ h ∈ (run i).2, parser.Replays t h := fun h hh => (hvalid h hh).replays
    refine ⟨hiteration, hstep, hrepresents, hreplays, fun c h hc hfinal => ?_⟩
    have hlt := (List.getElem?_eq_some_iff.mp hc).1
    exact (storeFirst_spec ops hshared hsize hreplays hrepresents
      (Nat.succ_le_of_lt hlt)).2 c h rfl hc hfinal
  · exact hconf.singleRooted (hfinal h hmem) (hsingle.trans hs) hn
  · have hloop : parser.beamLoop ops beamSize fuel 0 (parser.beamStart beamSize w t) =
        some (last + 1, (run (last + 1)).1) := by
      have hzero : (run 0).1 = parser.beamStart beamSize w t := by rw [hrun]
      rw [← hzero]
      exact beamLoop_eq (fun i => (hall i).2.1) hlast hbefore (Nat.zero_le _) (by omega)
    rw [parseBeamSearch, hloop, Option.bind_some]
    dsimp only
    rw [hbest, Option.map_some, htree, hcost, hsize, Nat.add_sub_cancel]

end Costs

end ParserNN

/-- A parser that looks at the relation of the leftmost child on top of the stack. -/
def leftmostRelation : ParserNN ℤ where
  singleRoot := true
  system := .projective [rootLabel, bytes "det"]
  nodes := [⟨(.stack, 0), [.child 0]⟩]
  values := [.form, .deprel]
  embeddings := [fun word => word.length, fun word => word.length]
  network ids := if ids = [none] then [1, 2, 3, 4, 5] else [5, 4, 3, 2, 1]
  log := id

/-- A workspace that was not used before. -/
def newWorkspace : Workspace ℤ where
  tree := {}
  embeddings := []
  extractedNodes := []
  extractedEmbeddings := []
  outcomes := []
  bsConfs _ := []
  bsConfsSize _ := 0
  bsAlternatives := []

/-- Two words. -/
theorem parseBeamSearch_refines_twoWords : ∃ t cost,
    leftmostRelation.parseBeamSearch (Heap.sorting _) 3 14 newWorkspace twoWords =
      some (t, cost) ∧ IsTree 2 t ∧ SingleRooted 2 t := by
  obtain ⟨last, states, beams, _, _, _, hlast, _, best, _, _, htree, hrooted, hparse⟩ :=
    leftmostRelation.parseBeamSearch_refines (Heap.sorting _) newWorkspace
      (show TransitionSystem.create (bytes "projective") [rootLabel, bytes "det"] = _ by decide)
      (by decide) (by decide) (fun ids => by simp only [leftmostRelation]; split <;> decide)
      (show twoWords.nodes.length = 2 + 1 by decide) (show 2 ≤ 3 by decide)
  exact ⟨_, _, hparse 14 hlast, htree, hrooted rfl (by decide)⟩

end UDPipe.Parsito
