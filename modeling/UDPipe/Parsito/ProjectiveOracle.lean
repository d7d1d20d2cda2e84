import UDPipe.Parsito.Strategy

/-!
# The static oracle of the projective system

A projective tree is in the order of the sentence already, so its nodes are one
component and the plan never swaps. The oracle looks at the heads and at the last
child of the top only; in a projective tree this tells whether the children of the
nodes it attaches are there.
-/

namespace UDPipe.Parsito

open Forest (LeadsTo IsForest)

namespace ProjectiveOracle

variable {n : ℕ} {gold : Tree} (tree : IsTree n gold)
  (hproj : Forest.Projective gold.parent id ({i : ℤ | 0 ≤ i ∧ i ≤ n}))

/-- The plan of a projective tree: the order of the sentence and one component. -/
def plan (tree : IsTree n gold) (hproj : Forest.Projective gold.parent id ({i : ℤ | 0 ≤ i ∧ i ≤ n})) :
    Plan n gold where
  order := id
  comp _ := 0
  order_inj := Function.injective_id.injOn
  root_least _ hi _ := by simp only [id]; omega
  projective := hproj
  comp_leads _ hi hn := tree.upClosed.leadsTo_root tree.isForest ⟨hi, hn⟩
  comp_comp _ _ _ := rfl
  comp_parent _ _ _ _ := rfl
  comp_child _ _ _ _ := rfl
  interval _ _ _ _ _ _ _ _ := rfl
  increase _ _ _ hlt _ _ := hlt

variable {tree hproj} {conf : Configuration} (hconf : (plan tree hproj).Keeps conf)

include hconf

/-- The pending nodes are in the order of the sentence. -/
theorem increase : conf.inOrder.Pairwise (· < ·) := by
  have hnodup : conf.inOrder.Nodup :=
    conf.inOrder_perm_pending.nodup_iff.mpr hconf.consistent.nodup
  apply List.Pairwise.imp _ (hconf.inverted.and hnodup)
  intro a b ⟨hinverted, hne⟩
  simp only [plan, id] at hinverted
  omega

/-- Between a pending node and its gold ancestor there are only descendants of it. -/
theorem leadsTo_of_between {a b k : ℤ} (ha : a ∈ conf.pending) (hb : b ∈ conf.pending)
    (hk : k ∈ conf.pending) (hab : LeadsTo gold.parent a b) (hbetween : Forest.Between id a k b) :
    LeadsTo gold.parent k b := by
  have hrange : ∀ i ∈ conf.pending, i ∈ {i : ℤ | 0 ≤ i ∧ i ≤ n} := fun i hi =>
    ⟨(hconf.mem_pending.mp hi).1, (hconf.mem_pending.mp hi).2.1⟩
  exact tree.upClosed.leadsTo_of_between tree.isForest hproj Function.injective_id.injOn
    (hrange a ha) (hrange b hb) (hrange k hk) hab hbetween

/-- A node whose head has come next to it from the right has its children: what is
below it in the stack would have been attached before. -/
theorem complete_left {top second : ℤ} {rest : List ℤ} (hstack : conf.stack = top :: second :: rest)
    (hhead : gold.parent second = some top) : Complete gold conf.t second := by
  classical
  intro j hj hnone
  have hincrease := increase hconf
  simp only [Configuration.inOrder, hstack, List.reverse_cons, List.append_assoc, List.cons_append,
    List.nil_append, List.pairwise_append, List.pairwise_cons, List.mem_cons,
    List.mem_reverse, List.pairwise_reverse] at hincrease
  obtain ⟨hrest, ⟨hsecond, htop, -⟩, hcross⟩ := hincrease
  have hpending : conf.pending = top :: second :: rest ++ conf.buffer := by
    rw [Configuration.pending, hstack]
  have hmem : ∀ i, i = top ∨ i = second ∨ i ∈ rest ∨ i ∈ conf.buffer → i ∈ conf.pending := by
    intro i hi
    simp only [hpending, List.cons_append, List.mem_cons, List.mem_append]
    exact hi
  have htop' : ¬ LeadsTo gold.parent top second := fun hlead =>
    tree.isForest.ne_of_leadsTo_parent hlead hhead
  obtain ⟨l, post, hl, hseg⟩ : ∃ l post, second :: rest = l ++ post ∧
      l = (second :: rest).takeWhile fun i => LeadsTo gold.parent i second :=
    ⟨_, _, List.takeWhile_append_dropWhile.symm, rfl⟩
  have hsorted : (second :: rest).Pairwise (· > ·) :=
    List.pairwise_cons.mpr ⟨fun i hi => hcross i hi second (.inl rfl), hrest⟩
  have hof : ∀ i ∈ l, i ∈ conf.pending ∧ LeadsTo gold.parent i second := by
    intro i hi
    rw [hseg] at hi
    have hi' := List.takeWhile_subset _ hi
    exact ⟨hmem i (by simp only [List.mem_cons] at hi'; tauto),
      by simpa using List.mem_takeWhile_imp hi⟩
  have hto : ∀ i ∈ conf.pending, LeadsTo gold.parent i second → i ∈ l := by
    intro i hi hlead
    have hbetween : ∀ k ∈ conf.pending, Forest.Between id i k second →
        LeadsTo gold.parent k second := fun k hk =>
      leadsTo_of_between hconf hi (hmem second (by simp)) hk hlead
    rw [hpending] at hi
    rcases List.mem_append.mp hi with hi | hi
    · have hi' : i ∈ second :: rest := (List.mem_cons.mp hi).resolve_left fun heq =>
        htop' (heq ▸ hlead)
      rw [hseg]
      refine mem_takeWhile_of_before hi' (by simpa using hlead) fun d hd => ?_
      have hdi : i < d := by simpa using hsorted.sublist hd
      have hd' : d ∈ second :: rest := hd.subset (by simp)
      rcases List.mem_cons.mp hd' with rfl | hd'
      · simpa using Relation.ReflTransGen.refl
      · simpa using hbetween d (hmem d (by tauto)) (.inl ⟨hdi, hcross d hd' second (.inl rfl)⟩)
    · exact absurd (hbetween top (hmem top (.inl rfl)) (.inr ⟨hsecond top (.inl rfl), htop i hi⟩))
        htop'
  have hsecond' : second ∈ l := hto second (hmem second (by simp)) .refl
  have hup : Forest.UpClosed gold.parent second {i | i ∈ l} := by
    refine ⟨hsecond', fun i hi hne => ?_⟩
    obtain ⟨hi', hlead⟩ := hof i hi
    rcases hlead.cases_head with heq | ⟨b, hib, hb⟩
    · exact absurd heq hne
    · exact ⟨b, hto b (hconf.parent_mem_pending tree hi' hib) hb, hib⟩
  have hsecond₀ : 0 ≤ second := (hconf.mem_pending.mp (hmem second (by simp))).1
  have hjsecond := Tree.parent_eq_some.mpr ⟨hj, hsecond₀⟩
  have hjrange := tree.range_of_parent hjsecond
  have hjl : j ∈ l :=
    hto j (hconf.mem_pending.mpr ⟨by omega, hjrange.2.1, hnone⟩) (.single hjsecond)
  have hlength : 2 ≤ l.length := by
    have hne : j ≠ second := by
      rintro rfl
      exact tree.isForest.ne_of_leadsTo_parent .refl hjsecond
    have hpos := List.length_pos_of_mem hsecond'
    by_contra hlt
    obtain ⟨x, hx⟩ := List.length_eq_one_iff.mp (show l.length = 1 by omega)
    rw [hx] at hjl hsecond'
    exact hne ((List.mem_singleton.mp hjl).trans (List.mem_singleton.mp hsecond').symm)
  have hstack' : conf.stack = [top] ++ l ++ post := by rw [hstack, hl, List.append_assoc]; rfl
  have hsorted' := hl ▸ hsorted
  obtain ⟨a, b, hpiece, hnot⟩ := hconf.exists_ready tree hstack' hup
    (List.pairwise_append.mp hsorted').1
    (fun y hy _ z hz hzy => hto z hz (.head hzy (hof y hy).2)) hlength
  exact hnot (hconf.waiting top _ hstack a b (hpiece.trans ⟨[], post, hl.symm⟩)).1

/-- A node whose head is next to it has its children when the last one is not in the
buffer. -/
theorem complete_right {top second : ℤ} {rest : List ℤ}
    (hstack : conf.stack = top :: second :: rest) (hhead : gold.parent top = some second)
    (hlast : conf.buffer.isEmpty ∨ (gold.childrenOf top).isEmpty ∨
      (gold.childrenOf top).getLastD 0 < conf.buffer.headD 0) : Complete gold conf.t top := by
  intro j hj hnone
  have hincrease := increase hconf
  simp only [Configuration.inOrder, hstack, List.reverse_cons, List.append_assoc, List.cons_append,
    List.nil_append, List.pairwise_append, List.pairwise_cons, List.mem_cons,
    List.mem_reverse, List.pairwise_reverse] at hincrease
  obtain ⟨-, ⟨hsecond, htop, hbuffer⟩, hcross⟩ := hincrease
  have hmem : ∀ i, i = top ∨ i = second → i ∈ conf.pending := by
    intro i hi
    simp only [Configuration.pending, hstack, List.cons_append, List.mem_cons]
    tauto
  have htop₀ : 0 ≤ top := (hconf.mem_pending.mp (hmem top (.inl rfl))).1
  have hjtop := Tree.parent_eq_some.mpr ⟨hj, htop₀⟩
  have hjrange := tree.range_of_parent hjtop
  have hj' : j ∈ conf.pending := hconf.mem_pending.mpr ⟨by omega, hjrange.2.1, hnone⟩
  have hcycle : ¬ LeadsTo gold.parent second top := fun hlead =>
    tree.isForest.ne_of_leadsTo_parent hlead hhead
  have hj'' := hj'
  simp only [Configuration.pending, hstack, List.cons_append, List.mem_cons, List.mem_append]
    at hj''
  rcases hj'' with rfl | rfl | hrest | hjbuffer
  · exact tree.isForest.ne_of_leadsTo_parent .refl hjtop
  · exact hcycle (.single hjtop)
  · -- the head of the top would be below it
    exact hcycle (leadsTo_of_between hconf hj' (hmem top (.inl rfl)) (hmem second (.inr rfl))
      (.single hjtop) (.inl ⟨hcross j hrest second (.inl rfl), hsecond top (.inl rfl)⟩))
  · have hchild : j ∈ gold.childrenOf top := (tree.mem_children top j htop₀).mpr hj
    obtain ⟨front, buffer, hfront⟩ := List.exists_cons_of_ne_nil (List.ne_nil_of_mem hjbuffer)
    obtain ⟨cs, last, hcs⟩ := (List.eq_nil_or_concat' (gold.childrenOf top)).resolve_left
      (List.ne_nil_of_mem hchild)
    have hincrease := tree.children_increase top
    rw [hfront] at hjbuffer hbuffer hlast
    rw [hcs] at hchild hincrease hlast
    have hle : j ≤ last := by
      rcases List.mem_append.mp hchild with hc | hc
      · exact le_of_lt ((List.pairwise_append.mp hincrease).2.2 j hc last (by simp))
      · exact (List.mem_singleton.mp hc).le
    have hge : front ≤ j := by
      rcases List.mem_cons.mp hjbuffer with rfl | hjb
      · exact le_rfl
      · exact le_of_lt ((List.pairwise_cons.mp hbuffer).1 j hjb)
    simp at hlast
    omega

/-- A node that has its children has the last one before the buffer. -/
theorem last_lt_front {top : ℤ} {rest : List ℤ} (hstack : conf.stack = top :: rest)
    (hcomplete : Complete gold conf.t top) :
    conf.buffer.isEmpty ∨ (gold.childrenOf top).isEmpty ∨
      (gold.childrenOf top).getLastD 0 < conf.buffer.headD 0 := by
  by_contra hnot
  simp only [not_or, List.isEmpty_iff, not_lt] at hnot
  obtain ⟨hbuffer, hchildren, hle⟩ := hnot
  obtain ⟨front, buffer, hfront⟩ := List.exists_cons_of_ne_nil hbuffer
  obtain ⟨cs, last, hcs⟩ := (List.eq_nil_or_concat' _).resolve_left hchildren
  have hle' : front ≤ last := by simpa [hfront, hcs] using hle
  have hincrease := increase hconf
  simp only [Configuration.inOrder, hstack, hfront, List.reverse_cons, List.append_assoc,
    List.cons_append, List.nil_append, List.pairwise_append, List.pairwise_cons,
    List.mem_cons] at hincrease
  have hlt : top < front := hincrease.2.1.1 front (.inl rfl)
  have htop : top ∈ conf.pending := by simp [Configuration.pending, hstack]
  have hfront' : front ∈ conf.pending := by simp [Configuration.pending, hfront]
  have htop₀ : 0 ≤ top := (hconf.mem_pending.mp htop).1
  have hlast : gold.parent last = some top :=
    Tree.parent_eq_some.mpr ⟨(tree.mem_children top last htop₀).mp (by simp [hcs]), htop₀⟩
  have hlead : LeadsTo gold.parent front top := by
    rcases eq_or_lt_of_le hle' with rfl | hlt'
    · exact .single hlast
    · have hrange := hconf.mem_pending.mp hfront'
      have hlrange := tree.range_of_parent hlast
      exact hproj last ⟨by omega, hlrange.2.1⟩ top front hlast ⟨hrange.1, hrange.2.1⟩
        (.inr ⟨hlt, hlt'⟩)
  rcases Relation.reflTransGen_iff_eq_or_transGen.mp hlead with heq | hbelow
  · omega
  · exact hconf.not_mem_pending_of_leadsTo hcomplete hbelow hfront'

/-- The oracle predicts what the plan asks for. -/
theorem predict_chooses {labels : List Bytes}
    (hlabels : ∀ i : ℤ, 1 ≤ i → i ≤ n → gold.deprelOf i ∈ labels) :
    ∃ tr, (TransitionSystem.projective labels)[(predict labels gold conf).toFollow]? = some tr ∧
      (plan tree hproj).Chooses conf tr := by
  match hstack : conf.stack with
  | [] =>
    refine ⟨.shift, by simp [predict, hstack, predictArcs, TransitionSystem.projective],
      .shift fun top second rest hpair => ?_⟩
    cases hstack.symm.trans hpair
  | [a] =>
    refine ⟨.shift, by simp [predict, hstack, predictArcs, TransitionSystem.projective],
      .shift fun top second rest hpair => ?_⟩
    cases hstack.symm.trans hpair
  | top :: second :: rest =>
    have hpending : ∀ i ∈ [top, second], 0 ≤ i := by
      intro i hi
      apply (hconf.mem_pending.mp _).1
      simp only [Configuration.pending, hstack, List.cons_append, List.mem_cons,
        List.not_mem_nil, or_false] at hi ⊢
      tauto
    have hparent : ∀ parent ∈ [top, second], ∀ child, gold.headOf child = parent →
        gold.parent child = some parent := fun parent hp child hhead =>
      Tree.parent_eq_some.mpr ⟨hhead, hpending parent hp⟩
    have hlabel : ∀ parent ∈ [top, second], ∀ child, gold.headOf child = parent →
        gold.deprelOf child ∈ labels := by
      intro parent hp child hhead
      have hrange := tree.range_of_parent (hparent parent hp child hhead)
      exact hlabels child hrange.1 hrange.2.1
    simp only [predict, hstack, predictArcs]
    by_cases hleft : gold.headOf second = top
    · obtain ⟨i, hi, hnumber⟩ := arcTransition_eq (hlabel top (by simp) second hleft)
      refine ⟨.leftArc (gold.deprelOf second), ?_, .leftArc hstack ⟨hleft,
        complete_left hconf hstack (hparent top (by simp) second hleft)⟩⟩
      rw [if_pos hleft, hnumber]
      simp [(getElem?_projective labels i).1, hi]
    rw [if_neg hleft, Option.none_or]
    by_cases hright : gold.headOf top = second ∧ (conf.buffer.isEmpty ∨
        (gold.childrenOf top).isEmpty ∨ (gold.childrenOf top).getLastD 0 < conf.buffer.headD 0)
    · obtain ⟨i, hi, hnumber⟩ := arcTransition_eq (hlabel second (by simp) top hright.1)
      refine ⟨.rightArc (gold.deprelOf top), ?_, .rightArc hstack ⟨hright.1,
        complete_right hconf hstack (hparent second (by simp) top hright.1) hright.2⟩⟩
      rw [if_pos hright, hnumber]
      simp [(getElem?_projective labels i).2, hi]
    rw [if_neg hright, Option.getD_none]
    refine ⟨.shift, rfl, .shift fun top' second' rest' hpair => ?_⟩
    cases hstack.symm.trans hpair
    refine ⟨⟨fun hready => hright ⟨hready.1, last_lt_front hconf hstack hready.2⟩,
      fun hready => hleft hready.1⟩, .inl ?_⟩
    have hincrease := increase hconf
    rw [Configuration.inOrder, hstack] at hincrease
    have hbefore : [second, top].Sublist ((top :: second :: rest).reverse ++ conf.buffer) := by
      simp only [List.reverse_cons, List.append_assoc, List.cons_append, List.nil_append]
      exact List.sublist_append_of_sublist_right (List.sublist_append_left [second, top] _)
    simpa [plan] using hincrease.sublist hbefore

omit hconf in
/-- Following the static oracle builds every projective gold tree. -/
theorem static_rebuilds {labels : List Bytes} (single : Bool) (hgold : GoldTree n labels gold)
    (hproj : Forest.Projective gold.parent id ({i : ℤ | 0 ≤ i ∧ i ≤ n}))
    (hchecks : single = true → ∃ train, gold ∈ train ∧ singleRootFailure train labels = none) :
    Rebuilds (TransitionSystem.projective labels) (predict labels gold)
      (Configuration.init single gold) gold := by
  refine rebuilds_of_plan hgold.toIsTree (plan hgold.toIsTree hproj) (fun hsingle => ?_)
    fun conf hconf _ => predict_chooses hconf hgold.labelled
  obtain ⟨train, hmem, hnone⟩ := hchecks hsingle
  exact hgold.singleRooted hmem hnone

/-- Two words, the first of which hangs below the second. -/
def nested : Tree := (twoWords.setHead 1 2 (bytes "det")).setHead 2 0 rootLabel

omit hconf in
/-- The tree with nested arcs is a gold tree. -/
theorem goldTree_nested : GoldTree 2 [rootLabel, bytes "det"] nested :=
  @GoldTree.of_run 2 [rootLabel, bytes "det"] nested
    (TransitionSystem.projective [rootLabel, bytes "det"]) [0, 0, 3, 2] true twoWords
    (by decide) ⟨_, rfl, by decide, by decide⟩ (by decide) (by decide)

omit hconf in
/-- The tree with nested arcs is projective. -/
theorem projective_nested :
    Forest.Projective nested.parent id ({i : ℤ | 0 ≤ i ∧ i ≤ (2 : ℕ)}) := by
  intro c hc p k hcp hk hbetween
  have tree := goldTree_nested.toIsTree
  have hrange := tree.range_of_parent hcp
  obtain ⟨-, hk'⟩ := hk
  simp only [Forest.Between, id] at hbetween
  -- only the arc from the root has a word inside
  obtain rfl : p = 0 := by omega
  exact tree.reaches_root k (by omega) hk'

omit hconf in
/-- The tree with nested arcs is rebuilt. -/
theorem static_rebuilds_nested :
    Rebuilds (TransitionSystem.projective [rootLabel, bytes "det"])
      (predict [rootLabel, bytes "det"] nested) (Configuration.init true nested) nested :=
  static_rebuilds true goldTree_nested projective_nested fun _ => ⟨[nested], by simp, by decide⟩

end ProjectiveOracle

end UDPipe.Parsito
