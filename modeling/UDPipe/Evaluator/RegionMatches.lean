import UDPipe.Evaluator.AlignmentRuns
import UDPipe.Library.CommonSubsequence

/-!
# What is matched in a region

The table has the lengths of the longest common subsequences of the forms that are left,
so the loop along it matches a longest one.
-/

namespace UDPipe.Evaluator

open CommonSubsequence

/-- The forms of words, which are compared. -/
def forms (words : List WordData) : List Bytes := words.map fun word => word.w.form

/-! ### The table -/

/-- The cells of a row have the longest lengths from their columns on. -/
def IsRow (system : List WordData) : List WordData → List ℕ → Prop
  | [], row => row = []
  | g :: gold, row => ∃ cells, row = longest (forms system) (forms (g :: gold)) :: cells ∧
      IsRow system gold cells

/-- A row below the last one is empty, and reads as zeros. -/
def IsRowBelow (system gold : List WordData) (row : List ℕ) : Prop :=
  IsRow system gold row ∨ system = [] ∧ row = []

/-- The first cell of a row is for all the words that are left. -/
theorem IsRowBelow.headD {system gold : List WordData} {row : List ℕ}
    (h : IsRowBelow system gold row) : row.headD 0 = longest (forms system) (forms gold) := by
  rcases h with h | ⟨rfl, rfl⟩
  · cases gold with
    | nil =>
      rw [h]
      simp [forms]
    | cons g gold =>
      obtain ⟨cells, rfl, -⟩ := h
      rfl
  · simp [forms]

/-- The other cells are for fewer gold words. -/
theorem IsRowBelow.tail {system gold : List WordData} {g : WordData} {row : List ℕ}
    (h : IsRowBelow system (g :: gold) row) : IsRowBelow system gold row.tail := by
  rcases h with h | ⟨rfl, rfl⟩
  · obtain ⟨cells, rfl, hcells⟩ := h
    exact .inl hcells
  · exact .inr ⟨rfl, rfl⟩

/-- The row of one more word. -/
theorem isRow_lcsRow (s : WordData) (system gold : List WordData) {below : List ℕ}
    (h : IsRowBelow system gold below) : IsRow (s :: system) gold (lcsRow s gold below) := by
  induction gold generalizing below with
  | nil => rfl
  | cons g gold ih =>
    have hrow := ih h.tail
    refine ⟨_, ?_, hrow⟩
    have hright := IsRowBelow.headD (.inl hrow)
    have hbelow := h.headD
    have hdiagonal := h.tail.headD
    simp only [lcsRow, hright, hbelow, hdiagonal]
    simp only [forms, List.map_cons] at *
    rw [longest_cons_cons]

/-- The rows of the table, from the last word on. -/
def IsTable : List WordData → List WordData → List (List ℕ) → Prop
  | [], _, table => table = []
  | s :: system, gold, table => ∃ row rows, table = row :: rows ∧ IsRow (s :: system) gold row ∧
      IsTable system gold rows

/-- The first row is for all the words of the system. -/
theorem IsTable.headD {system gold : List WordData} {table : List (List ℕ)}
    (h : IsTable system gold table) : IsRowBelow system gold (table.headD []) := by
  cases system with
  | nil =>
    rw [h]
    exact .inr ⟨rfl, rfl⟩
  | cons s system =>
    obtain ⟨row, rows, rfl, hrow, -⟩ := h
    exact .inl hrow

/-- The table that is computed is the table. -/
theorem isTable_lcsTable (system gold : List WordData) :
    IsTable system gold (lcsTable system gold) := by
  induction system with
  | nil => rfl
  | cons s system ih => exact ⟨_, _, rfl, isRow_lcsRow s system gold ih.headD, ih⟩

/-- Without the first column it is the table for the rest of the gold words. -/
theorem IsTable.map_tail {system gold : List WordData} {g : WordData} {table : List (List ℕ)}
    (h : IsTable system (g :: gold) table) : IsTable system gold (table.map List.tail) := by
  induction system generalizing table with
  | nil =>
    rw [h]
    rfl
  | cons s system ih =>
    obtain ⟨row, rows, rfl, ⟨cells, rfl, hcells⟩, hrows⟩ := h
    exact ⟨cells, _, rfl, hcells, ih hrows⟩

/-! ### The loop along the table -/

/-- The pairs are a longest common subsequence of the forms of two lists of words. -/
structure LongestCommon (system gold : List WordData) (pairs : List (WordData × WordData)) : Prop
    where
  inOrder : InOrder system gold pairs
  forms : ∀ p ∈ pairs, p.1.w.form = p.2.w.form
  longest : ∀ l : List Bytes, l.Sublist (Evaluator.forms system) →
    l.Sublist (Evaluator.forms gold) → l.length ≤ pairs.length

/-- The loop along the table matches as many words as the first cell says. -/
theorem LcsState.returns_longest {system gold : List WordData} {table : List (List ℕ)}
    (htable : IsTable system gold table) (matched : List PairSystemGold) :
    ∃ pairs, (Comp.loopOf LcsState.step ⟨system, gold, table, matched⟩).Returns
        (matched ++ pairsOf pairs) ∧ InOrder system gold pairs ∧
      (∀ p ∈ pairs, p.1.w.form = p.2.w.form) ∧
      pairs.length = longest (forms system) (forms gold) := by
  induction hsize : system.length + gold.length using Nat.strongRecOn
    generalizing system gold table matched with
  | ind size ih =>
    subst hsize
    rcases system with _ | ⟨s, system⟩
    · exact ⟨[], Comp.returns_loopOf.mpr (by simp [LcsState.step]), .nil _ _,
        List.forall_mem_nil _, by simp [forms]⟩
    rcases gold with _ | ⟨g, gold⟩
    · exact ⟨[], Comp.returns_loopOf.mpr (by simp [LcsState.step]), .nil _ _,
        List.forall_mem_nil _, by simp [forms]⟩
    obtain ⟨row, rows, rfl, hrow, hrows⟩ := htable
    have hcell : row.headD 0 = longest (forms (s :: system)) (forms (g :: gold)) :=
      IsRowBelow.headD (.inl hrow)
    have hbelow := hrows.headD.headD
    simp only [forms, List.map_cons] at hcell hbelow
    rw [longest] at hcell
    by_cases hform : s.w.form = g.w.form
    · obtain ⟨pairs, hreturns, hinOrder, hforms, hlength⟩ :=
        ih _ (by simp only [List.length_cons]; omega) hrows.map_tail
          (matched ++ [⟨s.w, g.w⟩]) rfl
      refine ⟨(s, g) :: pairs, Comp.returns_loopOf.mpr ?_, ⟨hinOrder.system.cons_cons s,
        hinOrder.gold.cons_cons g⟩, List.forall_mem_cons.mpr ⟨hform, hforms⟩, ?_⟩
      · simp only [LcsState.step, if_pos hform, List.tail_cons]
        simpa [pairsOf] using hreturns
      · simp only [forms, List.map_cons] at hlength ⊢
        rw [longest, if_pos hform, List.length_cons, hlength]
    · rw [if_neg hform] at hcell
      by_cases hsame : row.headD 0 = (rows.headD []).headD 0
      · obtain ⟨pairs, hreturns, hinOrder, hforms, hlength⟩ :=
          ih _ (by simp only [List.length_cons]; omega) hrows matched rfl
        have hstep : LcsState.step ⟨s :: system, g :: gold, row :: rows, matched⟩ =
            .next ⟨system, g :: gold, rows, matched⟩ := by
          simp only [LcsState.step, if_neg hform]
          exact if_pos hsame
        refine ⟨pairs, ?_, ⟨hinOrder.system.cons s, hinOrder.gold⟩, hforms, ?_⟩
        · rw [Comp.returns_loopOf, hstep]
          exact hreturns
        · simp only [forms, List.map_cons] at hlength ⊢
          rw [longest, if_neg hform, hlength, ← hcell, hsame, hbelow]
      · have htail : IsTable (s :: system) gold ((row :: rows).map List.tail) :=
          IsTable.map_tail ⟨row, rows, rfl, hrow, hrows⟩
        obtain ⟨pairs, hreturns, hinOrder, hforms, hlength⟩ :=
          ih _ (by simp only [List.length_cons]; omega) htail matched rfl
        have hstep : LcsState.step ⟨s :: system, g :: gold, row :: rows, matched⟩ =
            .next ⟨s :: system, gold, (row :: rows).map List.tail, matched⟩ := by
          simp only [LcsState.step, if_neg hform]
          exact if_neg hsame
        refine ⟨pairs, ?_, ⟨hinOrder.system, hinOrder.gold.cons g⟩, hforms, ?_⟩
        · rw [Comp.returns_loopOf, hstep]
          exact hreturns
        · simp only [forms, List.map_cons] at hlength ⊢
          rw [longest, if_neg hform, hlength]
          rw [hbelow] at hsame
          omega

/-- The loop along the table of a region matches a longest common subsequence. -/
theorem LcsState.returns_longestCommon (system gold : List WordData)
    (matched : List PairSystemGold) : ∃ pairs,
    (Comp.loopOf LcsState.step ⟨system, gold, lcsTable system gold, matched⟩).Returns
        (matched ++ pairsOf pairs) ∧ LongestCommon system gold pairs := by
  obtain ⟨pairs, hreturns, hinOrder, hforms, hlength⟩ :=
    LcsState.returns_longest (isTable_lcsTable system gold) matched
  refine ⟨pairs, hreturns, hinOrder, hforms, fun l hsystem hgold => ?_⟩
  rw [hlength]
  exact length_le_longest hsystem hgold

/-! ### Regions of a run -/

/-- A pass over a region matches a longest common subsequence of its words. -/
theorem RegionAt.matches {st : AlignState} {systemWords goldWords : List WordData}
    (h : RegionAt st systemWords goldWords) : ∃ st' pairs, st.step.Returns (.next st') ∧
      st.system = systemWords ++ st'.system ∧ st.gold = goldWords ++ st'.gold ∧
      st'.matched = st.matched ++ pairsOf pairs ∧ LongestCommon systemWords goldWords pairs := by
  obtain ⟨s, system, g, gold, r, hs, hg, hmultiword, hr, rfl, rfl⟩ := h
  obtain ⟨r', hr', hsystem, hgold, -⟩ := Region.start_returns system gold hmultiword
  obtain rfl := hr.unique hr'
  obtain ⟨pairs, hpairs, hlongest⟩ :=
    LcsState.returns_longestCommon r.systemWords r.goldWords st.matched
  refine ⟨⟨r.system, r.gold, st.matched ++ pairsOf pairs⟩, pairs, ?_, by rw [hs, hsystem],
    by rw [hg, hgold], rfl, hlongest⟩
  simp only [AlignState.step, hs, hg, hmultiword, Bool.false_eq_true, if_false]
  exact Comp.returns_bind.mpr ⟨r, hr, Comp.returns_bind.mpr
    ⟨_, hpairs, Comp.returns_pure.mpr rfl⟩⟩

/-- What the passes up to a state have matched. -/
theorem Visits.matchedSoFar {system gold : EvaluationData} {st : AlignState}
    (h : Visits system gold st) : ∃ pairs, MatchedSoFar system gold st pairs := by
  induction h with
  | refl => exact ⟨[], .refl, rfl, ⟨[], [], rfl, rfl, .nil _ _⟩, List.forall_mem_nil _⟩
  | @tail st st' _ hnext ih =>
    obtain ⟨pairs, hpairs⟩ := ih
    rcases st.step_cases with ⟨hdone, _⟩ | ⟨st'', takenS, takenG, pairs', hnext', hadvances⟩
    · cases hdone.unique hnext
    · obtain rfl := LoopStep.next.inj (hnext'.unique hnext)
      exact ⟨_, hpairs.advance hnext hadvances⟩

/-- What the passes from a state on match. -/
theorem AlignState.matches_rest {st : AlignState} {matched : List PairSystemGold}
    (h : (Comp.loop AlignState.step st).Returns matched) :
    ∃ pairs, matched = st.matched ++ pairsOf pairs ∧ InOrder st.system st.gold pairs := by
  refine Comp.loop_induction (motive := fun st => ∃ pairs, matched = st.matched ++ pairsOf pairs ∧
    InOrder st.system st.gold pairs) (fun st hdone => ?_) (fun st st' hnext _ ih => ?_) h
  · rcases st.step_cases with ⟨hdone', _⟩ | ⟨st', _, _, _, hnext, _⟩
    · obtain rfl := LoopStep.done.inj (hdone'.unique hdone)
      exact ⟨[], by simp, .nil _ _⟩
    · cases hdone.unique hnext
  · rcases st.step_cases with ⟨hdone, _⟩ | ⟨st'', takenS, takenG, pairs', hnext', hadvances⟩
    · cases hdone.unique hnext
    · obtain rfl := LoopStep.next.inj (hnext'.unique hnext)
      obtain ⟨pairs, hmatched, hpairs⟩ := ih
      refine ⟨pairs' ++ pairs, ?_, ?_⟩
      · rw [hmatched, hadvances.matched, pairsOf_append, List.append_assoc]
      · rw [hadvances.system, hadvances.gold]
        exact hadvances.inOrder.append hpairs

/-- In the result the pairs of a region are a longest common subsequence of its words, and
the other pairs are of words before the region and of words behind it. -/
def RegionMatched (system gold : EvaluationData) (matched : List PairSystemGold)
    (systemWords goldWords : List WordData) : Prop :=
  ∃ beforeS afterS beforeG afterG before pairs after,
    system.words = beforeS ++ (systemWords ++ afterS) ∧
    gold.words = beforeG ++ (goldWords ++ afterG) ∧
    matched = reindexHeads system.words.length (pairsOf (before ++ (pairs ++ after))) ∧
    InOrder beforeS beforeG before ∧ LongestCommon systemWords goldWords pairs ∧
    InOrder afterS afterG after

/-- Every region of an alignment that ends is matched by a longest common subsequence. -/
theorem bestAlignment_regionMatched {system gold : EvaluationData} {alignment : WordAlignment}
    (h : (bestAlignment system gold).Returns alignment) {st : AlignState}
    (hst : Visits system gold st) {systemWords goldWords : List WordData}
    (hregion : RegionAt st systemWords goldWords) :
    RegionMatched system gold alignment.matched systemWords goldWords := by
  obtain ⟨matched, hmatched, halignment⟩ := Comp.returns_bind.mp h
  obtain rfl := Comp.returns_pure.mp halignment
  obtain ⟨before, hbefore⟩ := hst.matchedSoFar
  obtain ⟨beforeS, beforeG, hsystem, hgold, hinOrder⟩ := hbefore.inOrder
  obtain ⟨st', pairs, hnext, htakenS, htakenG, hpairs, hlongest⟩ := hregion.matches
  obtain ⟨after, hafter, hrest⟩ := AlignState.matches_rest
    (Comp.Passes.returns (hst.tail hnext) hmatched)
  refine ⟨beforeS, st'.system, beforeG, st'.gold, before, pairs, after, ?_, ?_, ?_, hinOrder,
    hlongest, hrest⟩
  · rw [hsystem, htakenS]
  · rw [hgold, htakenG]
  · rw [hafter, hpairs, hbefore.matched, pairsOf_append, pairsOf_append, List.append_assoc]

end UDPipe.Evaluator
