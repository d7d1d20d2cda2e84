import UDPipe.Parsito.BeamRefinement

/-!
# Runs of the beam search

An iteration stores the alternatives of every hypothesis and fills the next beam
with those that were kept, so it is a step of the search over hypotheses. The last
beam has final hypotheses only, and the tree of a best one is returned.
-/

namespace UDPipe.Parsito

namespace ParserNN

variable {κ : Type} {parser : ParserNN κ} {beamSize iteration n : ℕ} {t : Tree}
variable {w : Workspace κ} {h : Hypothesis κ} {beam : List (Hypothesis κ)}

/-! ### Filling the next beam -/

/-- The hypothesis that an alternative leads to. -/
def successorOf (parser : ParserNN κ) (beam : List (Hypothesis κ))
    (alternative : BeamSizeAlternative κ) : Option (Hypothesis κ) :=
  beam[alternative.bsConf]?.bind fun h =>
    parser.after h (alternative.transition, alternative.cost)

/-- One more element in the next beam; the present beam stays. -/
theorem represents_addConf {done : List (Hypothesis κ)} {bsConf : BeamSizeConfiguration κ}
    (hlengths : ∀ b, (w.bsConfs b).length = beamSize) (hpresent : w.Represents iteration beam)
    (hnext : w.Represents (iteration + 1) done) (hroom : done.length < beamSize)
    (helement : bsConf.Represents h) :
    (addConf iteration w bsConf).Represents iteration beam ∧
      (addConf iteration w bsConf).Represents (iteration + 1) (done ++ [h]) ∧
      ∀ b, ((addConf iteration w bsConf).bsConfs b).length = beamSize := by
  have hparity : iteration % 2 ≠ (iteration + 1) % 2 := by omega
  have hslot : w.bsConfsSize ((iteration + 1) % 2) = done.length := hnext.size_eq
  refine ⟨⟨?_, ?_⟩, ⟨?_, ?_⟩, fun b => ?_⟩
  · simp only [addConf, Function.update_of_ne hparity]
    exact hpresent.size_eq
  · simp only [addConf, Function.update_of_ne hparity]
    exact hpresent.elements
  · simp only [addConf, Function.update_self, hslot, List.length_append, List.length_singleton]
  · intro c h' hc
    simp only [addConf, Function.update_self, hslot]
    rcases Nat.lt_trichotomy c done.length with hlt | rfl | hgt
    · rw [List.getElem?_append_left hlt] at hc
      rw [List.getElem?_set_ne (Nat.ne_of_gt hlt)]
      exact hnext.elements c h' hc
    · rw [List.getElem?_concat_length] at hc
      obtain rfl := Option.some.inj hc
      rw [List.getElem?_set_self (by rw [hlengths]; exact hroom)]
      exact ⟨bsConf, rfl, helement⟩
    · rw [List.getElem?_eq_none (by rw [List.length_append, List.length_singleton]; omega)] at hc
      cases hc
  · by_cases hb : b = (iteration + 1) % 2
    · subst hb
      simp only [addConf, Function.update_self, List.length_set, hlengths]
    · simp only [addConf, Function.update_of_ne hb, hlengths]

/-- Performing an alternative puts an element for its hypothesis into the next beam. -/
theorem performAlternative_spec {done : List (Hypothesis κ)} (hshared : Shared parser beamSize t w)
    (hsize : t.nodes.length = n + 1) (hbeam : ∀ h ∈ beam, parser.Replays t h)
    (hpresent : w.Represents iteration beam) (hnext : w.Represents (iteration + 1) done)
    (hroom : done.length < beamSize) {alternative : BeamSizeAlternative κ} {h' : Hypothesis κ}
    (hsuccessor : parser.successorOf beam alternative = some h') (hwords : h'.conf.t.SameWords t) :
    ∃ w', parser.performAlternative iteration w alternative = some w' ∧
      Shared parser beamSize t w' ∧ w'.Represents iteration beam ∧
      w'.Represents (iteration + 1) (done ++ [h']) := by
  obtain ⟨h, hget, hafter⟩ := Option.bind_eq_some_iff.mp hsuccessor
  obtain ⟨hconf, hsingle, hwords', _⟩ := (hbeam h (List.mem_of_getElem? hget)).consistent hsize
  obtain ⟨bsConf, hbsConf, helement⟩ := hpresent.elements _ h hget
  rw [performAlternative, hbsConf, Option.bind_some]
  cases htransition : alternative.transition with
  | none =>
    rw [htransition] at hafter
    obtain rfl := Option.some.inj hafter
    have hcopy : BeamSizeConfiguration.Represents { bsConf with cost := alternative.cost }
        { h with cost := alternative.cost } :=
      ⟨helement.stack_eq, helement.buffer_eq, helement.saved, rfl⟩
    obtain ⟨hpresent', hnext', hlengths⟩ :=
      represents_addConf hshared.lengths hpresent hnext hroom hcopy
    exact ⟨_, rfl, ⟨hshared.words, hlengths, hshared.cached⟩, hpresent', hnext'⟩
  | some transition =>
    rw [htransition, after_some] at hafter
    obtain ⟨result, hresult, rfl⟩ := Option.map_eq_some_iff.mp hafter
    have htree : bsConf.refreshTree w.tree = h.conf.t :=
      refresh_eq hconf (hshared.words.trans hwords'.symm) helement.saved
    have hcopy : parser.conf { bsConf with cost := alternative.cost } h.conf.t = h.conf :=
      conf_eq (h := { h with cost := alternative.cost })
        ⟨helement.stack_eq, helement.buffer_eq, helement.saved, rfl⟩ hsingle
    let performed : BeamSizeConfiguration κ :=
      { bsConf with
        cost := alternative.cost, stack := result.1.stack, buffer := result.1.buffer }
    have hperformed : (performed.saveTree result.1.t).Represents
        { history := h.history ++ [transition], conf := result.1, cost := alternative.cost } :=
      ⟨rfl, rfl, saved_saveTree performed result.1.t, rfl⟩
    obtain ⟨hpresent', hnext', hlengths⟩ :=
      represents_addConf (w := { w with tree := result.1.t }) hshared.lengths
        ⟨hpresent.size_eq, hpresent.elements⟩ ⟨hnext.size_eq, hnext.elements⟩ hroom hperformed
    refine ⟨_, ?_, ⟨hwords, hlengths, hshared.cached⟩, hpresent', hnext'⟩
    have hrefresh : BeamSizeConfiguration.refreshTree { bsConf with cost := alternative.cost }
        w.tree = h.conf.t := htree
    simp only [hrefresh, hcopy, hresult, Option.map_some]
    rfl

variable [Add κ] [Mul κ] [Div κ] [NatCast κ]

/-- The alternatives of the hypothesis at a position. -/
def alternativesAt (parser : ParserNN κ) (iteration c : ℕ) (h : Hypothesis κ) :
    List (BeamSizeAlternative κ) :=
  (parser.choices iteration h).map fun choice =>
    { bsConf := c, transition := choice.1, cost := choice.2 }

/-- The alternatives of a whole beam. -/
def alternatives (parser : ParserNN κ) (iteration : ℕ) (beam : List (Hypothesis κ)) :
    List (BeamSizeAlternative κ) :=
  beam.zipIdx.flatMap fun h => parser.alternativesAt iteration h.2 h.1

/-- The alternatives of a beam lead to the successors of its hypotheses. -/
theorem filterMap_alternatives :
    (parser.alternatives iteration beam).filterMap (parser.successorOf beam) =
      beam.flatMap (parser.successors iteration) := by
  have hone : ∀ h ∈ beam.zipIdx, (parser.alternativesAt iteration h.2 h.1).filterMap
      (parser.successorOf beam) = parser.successors iteration h.1 := by
    intro h hh
    have hget := List.mem_zipIdx_iff_getElem?.mp hh
    rw [alternativesAt, List.filterMap_map, successors]
    apply List.filterMap_congr
    intro choice _
    rw [Function.comp_apply, successorOf, hget, Option.bind_some]
  calc (parser.alternatives iteration beam).filterMap (parser.successorOf beam)
    _ = beam.zipIdx.flatMap fun h => (parser.alternativesAt iteration h.2 h.1).filterMap
        (parser.successorOf beam) := List.filterMap_flatMap ..
    _ = beam.zipIdx.flatMap fun h => parser.successors iteration h.1 := List.flatMap_congr hone
    _ = (beam.zipIdx.map Prod.fst).flatMap (parser.successors iteration) :=
      (List.flatMap_map ..).symm
    _ = beam.flatMap (parser.successors iteration) := by rw [List.zipIdx_map_fst]

/-- An alternative of a beam leads to a hypothesis of the same cost. -/
theorem exists_successorOf {alternative : BeamSizeAlternative κ}
    (hmem : alternative ∈ parser.alternatives iteration beam) :
    ∃ h', parser.successorOf beam alternative = some h' ∧ h'.cost = alternative.cost := by
  obtain ⟨⟨h, c⟩, hh, halternative⟩ := List.mem_flatMap.mp hmem
  obtain ⟨choice, hchoice, rfl⟩ := List.mem_map.mp halternative
  obtain ⟨h', hafter, hcost⟩ := exists_after hchoice
  refine ⟨h', ?_, hcost⟩
  rw [successorOf, List.mem_zipIdx_iff_getElem?.mp hh, Option.bind_some]
  exact hafter

/-- Performing all that was kept fills the next beam, by induction on what is left. -/
theorem foldlM_performAlternative {kept : List (BeamSizeAlternative κ)}
    {done : List (Hypothesis κ)} (hshared : Shared parser beamSize t w)
    (hsize : t.nodes.length = n + 1) (hbeam : ∀ h ∈ beam, parser.Valid t iteration h)
    (hpresent : w.Represents iteration beam) (hnext : w.Represents (iteration + 1) done)
    (hkept : kept ⊆ parser.alternatives iteration beam)
    (hroom : done.length + kept.length ≤ beamSize) :
    ∃ w', kept.foldlM (parser.performAlternative iteration) w = some w' ∧
      Shared parser beamSize t w' ∧
      w'.Represents (iteration + 1) (done ++ kept.filterMap (parser.successorOf beam)) := by
  induction kept generalizing w done with
  | nil => exact ⟨w, rfl, hshared, by simpa using hnext⟩
  | cons alternative kept ih =>
    rw [List.length_cons] at hroom
    have hmem := hkept List.mem_cons_self
    obtain ⟨h', hsuccessor, _⟩ := exists_successorOf hmem
    have hreplays : parser.Replays t h' := by
      have hsome : h' ∈ beam.flatMap (parser.successors iteration) := by
        rw [← filterMap_alternatives]
        exact List.mem_filterMap.mpr ⟨alternative, hmem, hsuccessor⟩
      obtain ⟨h, hh, hsome⟩ := List.mem_flatMap.mp hsome
      exact ((hbeam h hh).of_successor hsome).replays
    obtain ⟨_, _, hwords, _⟩ := hreplays.consistent hsize
    obtain ⟨w₁, hperform, hshared₁, hpresent₁, hnext₁⟩ := performAlternative_spec hshared hsize
      (fun h hh => (hbeam h hh).replays) hpresent hnext (by omega) hsuccessor hwords
    obtain ⟨w', hrest, hshared', hnext'⟩ := ih hshared₁ hpresent₁ hnext₁
      (List.subset_of_cons_subset hkept) (by rw [List.length_append, List.length_singleton]; omega)
    refine ⟨w', ?_, hshared', ?_⟩
    · rw [List.foldlM_cons, hperform]
      exact hrest
    · rw [List.filterMap_cons_some hsuccessor]
      simpa using hnext'

/-! ### Storing alternatives -/

variable [LinearOrder κ] {ops : HeapOperations κ}

/-- The workspace after some alternatives were offered, with the beams as they were. -/
structure Stored (parser : ParserNN κ) (ops : HeapOperations κ) (beamSize : ℕ) (t : Tree)
    (offered : List (BeamSizeAlternative κ)) (w w' : Workspace κ) : Prop where
  shared : Shared parser beamSize t w'
  bsConfs_eq : w'.bsConfs = w.bsConfs
  bsConfsSize_eq : w'.bsConfsSize = w.bsConfsSize
  bsAlternatives_eq : w'.bsAlternatives = offered.foldl (Heap.offer ops beamSize) w.bsAlternatives

/-- The loop over the outcomes stores an alternative for each applicable transition. -/
private theorem foldl_store (c : ℕ) (bsConf : BeamSizeConfiguration κ) (outcomes : List (κ × ℕ))
    (w : Workspace κ) :
    outcomes.foldl (fun w outcome =>
      if parser.system.applicable (parser.conf bsConf w.tree) outcome.2 then
        store ops beamSize w
          { bsConf := c
            transition := some outcome.2
            cost := parser.costAfter iteration bsConf.cost outcome.1 }
      else w) w =
    { w with
      bsAlternatives := ((outcomes.filterMap fun outcome =>
          if parser.system.applicable (parser.conf bsConf w.tree) outcome.2 then
            some (some outcome.2, parser.costAfter iteration bsConf.cost outcome.1)
          else none).map fun choice : Option ℕ × κ =>
            ({ bsConf := c, transition := choice.1, cost := choice.2 } :
              BeamSizeAlternative κ)).foldl (Heap.offer ops beamSize) w.bsAlternatives } := by
  induction outcomes generalizing w with
  | nil => rfl
  | cons outcome outcomes ih =>
    rw [List.foldl_cons, ih]
    by_cases happlicable :
        parser.system.applicable (parser.conf bsConf w.tree) outcome.2 = true
    · simp [happlicable, store]
    · simp [happlicable]

/-- One configuration of the beam stores the alternatives of its hypothesis. -/
theorem storeAlternatives_spec (hshared : Shared parser beamSize t w)
    (hsize : t.nodes.length = n + 1) (hreplays : parser.Replays t h) {c : ℕ}
    {bsConf : BeamSizeConfiguration κ} (hget : (w.bsConfs (iteration % 2))[c]? = some bsConf)
    (hrepresents : bsConf.Represents h) :
    Stored parser ops beamSize t (parser.alternativesAt iteration c h) w
        (parser.storeAlternatives ops beamSize iteration w c) ∧
      (h.conf.final = false →
        Classified parser h (parser.storeAlternatives ops beamSize iteration w c)) := by
  obtain ⟨_, hsingle, _, _⟩ := hreplays.consistent hsize
  unfold storeAlternatives
  simp only [hget, final_eq hrepresents]
  by_cases hfinal : h.conf.final = true
  · rw [if_pos hfinal]
    refine ⟨⟨⟨hshared.words, hshared.lengths, hshared.cached⟩, rfl, rfl, ?_⟩,
      fun hnot => absurd (hfinal.symm.trans hnot) (by simp)⟩
    rw [alternativesAt, choices, if_pos hfinal, hrepresents.cost_eq]
    rfl
  · obtain ⟨hshared', htree, hids, houtcomes⟩ :=
      classify_spec hshared hsize hreplays hrepresents
    rw [if_neg hfinal, foldl_store]
    refine ⟨⟨⟨hshared'.words, hshared'.lengths, hshared'.cached⟩, rfl, rfl, ?_⟩,
      fun _ => ⟨htree, hids, houtcomes⟩⟩
    rw [alternativesAt, choices, if_neg hfinal, htree, conf_eq hrepresents hsingle, houtcomes,
      hrepresents.cost_eq]
    rfl

/-- The configurations so far store the alternatives of their hypotheses, by induction
on how many there are. -/
theorem storeFirst_spec (ops : HeapOperations κ) (hshared : Shared parser beamSize t w)
    (hsize : t.nodes.length = n + 1) (hbeam : ∀ h ∈ beam, parser.Replays t h)
    (hrepresents : w.Represents iteration beam) {count : ℕ} (hcount : count ≤ beam.length) :
    Stored parser ops beamSize t (parser.alternatives iteration (beam.take count))
        { w with bsAlternatives := [] } (parser.storeFirst ops beamSize iteration count w) ∧
      ∀ c h, c + 1 = count → beam[c]? = some h → h.conf.final = false →
        Classified parser h (parser.storeFirst ops beamSize iteration count w) := by
  induction count with
  | zero =>
    exact ⟨⟨⟨hshared.words, hshared.lengths, hshared.cached⟩, rfl, rfl, rfl⟩,
      fun c h hc => absurd hc (Nat.succ_ne_zero c)⟩
  | succ count ih =>
    obtain ⟨hstored, _⟩ := ih (by omega)
    have hget := List.getElem?_eq_getElem (show count < beam.length by omega)
    obtain ⟨bsConf, hbsConf, helement⟩ := hrepresents.elements count _ hget
    have hbsConf' : ((parser.storeFirst ops beamSize iteration count w).bsConfs
        (iteration % 2))[count]? = some bsConf := by
      rw [hstored.bsConfs_eq]
      exact hbsConf
    obtain ⟨hstep, hclassified⟩ := storeAlternatives_spec hstored.shared hsize
      (hbeam _ (List.mem_of_getElem? hget)) hbsConf' helement
    have hsucc : parser.storeFirst ops beamSize iteration (count + 1) w =
        parser.storeAlternatives ops beamSize iteration
          (parser.storeFirst ops beamSize iteration count w) count := by
      rw [storeFirst, List.range_succ, List.foldl_append]
      rfl
    have halternatives : parser.alternatives iteration (beam.take (count + 1)) =
        parser.alternatives iteration (beam.take count) ++
          parser.alternativesAt iteration count beam[count] := by
      have hlength : (beam.take count).length = count := by
        rw [List.length_take]
        omega
      rw [List.take_succ_eq_append_getElem (by omega), alternatives, List.zipIdx_append,
        List.flatMap_append, hlength]
      simp [alternatives]
    rw [hsucc]
    refine ⟨⟨hstep.shared, hstep.bsConfs_eq.trans hstored.bsConfs_eq,
      hstep.bsConfsSize_eq.trans hstored.bsConfsSize_eq, ?_⟩, ?_⟩
    · rw [hstep.bsAlternatives_eq, hstored.bsAlternatives_eq, halternatives, List.foldl_append]
    · rintro c h hc hh
      obtain rfl : c = count := by omega
      obtain rfl := Option.some.inj (hget.symm.trans hh)
      exact hclassified

/-- An iteration is a step of the search over hypotheses. -/
theorem beamIteration_spec (hshared : Shared parser beamSize t w) (hsize : t.nodes.length = n + 1)
    (hpos : 0 < beamSize) (hbeam : ∀ h ∈ beam, parser.Valid t iteration h)
    (hrepresents : w.Represents iteration beam) :
    ∃ w' beam', parser.beamIteration ops beamSize iteration w = some w' ∧
      parser.BeamStep beamSize iteration beam beam' ∧ Shared parser beamSize t w' ∧
      w'.Represents (iteration + 1) beam' := by
  have hstored : Stored parser ops beamSize t (parser.alternatives iteration beam)
      { w with bsAlternatives := [] }
      (parser.storeFirst ops beamSize iteration beam.length w) := by
    have hall := (storeFirst_spec ops hshared hsize (fun h hh => (hbeam h hh).replays) hrepresents
      le_rfl).1
    rwa [List.take_length] at hall
  let stored := parser.storeFirst ops beamSize iteration beam.length w
  let emptied : Workspace κ :=
    { stored with bsConfsSize := Function.update stored.bsConfsSize ((iteration + 1) % 2) 0 }
  have hbest : Heap.IsBest (fun a : BeamSizeAlternative κ => a.cost) beamSize
      (parser.alternatives iteration beam) stored.bsAlternatives := by
    rw [hstored.bsAlternatives_eq]
    exact (Heap.isBest_foldl_offer hpos (parser.alternatives iteration beam)).1
  have hparity : iteration % 2 ≠ (iteration + 1) % 2 := by omega
  have hpresent : emptied.Represents iteration beam := by
    constructor
    · simp only [emptied, Function.update_of_ne hparity, stored, hstored.bsConfsSize_eq]
      exact hrepresents.size_eq
    · simp only [emptied, stored, hstored.bsConfs_eq]
      exact hrepresents.elements
  have hnext : emptied.Represents (iteration + 1) [] := by
    constructor
    · simp only [emptied, Function.update_self, List.length_nil]
    · intro c h hc
      simp at hc
  have hemptied : Shared parser beamSize t emptied :=
    ⟨hstored.shared.words, hstored.shared.lengths, hstored.shared.cached⟩
  obtain ⟨w', hfill, hshared', hnext'⟩ := foldlM_performAlternative hemptied hsize hbeam hpresent
    hnext hbest.subset (by rw [List.length_nil, hbest.length_eq]; omega)
  refine ⟨w', _, ?_, ?_, hshared', hnext'⟩
  · rw [beamIteration, hrepresents.size_eq]
    exact hfill
  · rw [List.nil_append, BeamStep, ← filterMap_alternatives]
    exact hbest.filterMap fun a ha => exists_successorOf ha

end ParserNN

end UDPipe.Parsito
