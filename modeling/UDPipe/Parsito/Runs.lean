import UDPipe.Library.Forest
import UDPipe.Library.OrderedPairs
import UDPipe.Parsito.Transition
import Mathlib.Data.List.Nodup
import Mathlib.Algebra.Group.Nat.Even

/-!
# Runs of the transition systems

Every transition either moves nodes between the stack and the buffer or attaches
one of them below another. So the nodes on the stack and in the buffer are the
roots of a forest that covers the tree, and only node zero is left in a final
configuration. Every transition lowers a measure, and none is missing: a
configuration that is not final has an applicable transition.
-/

namespace UDPipe.Parsito

/-- What the applicable transitions do, as rules between configurations. -/
inductive Step : Configuration → Configuration → Prop
  | shift {t : Tree} {front : ℤ} {stack buffer : List ℤ} {single : Bool} :
    Step ⟨t, stack, front :: buffer, single⟩ ⟨t, front :: stack, buffer, single⟩
  | swap {t : Tree} {top second : ℤ} {rest buffer : List ℤ} {single : Bool}
    (hsecond : second ≠ 0) (hlt : second < top) :
    Step ⟨t, top :: second :: rest, buffer, single⟩ ⟨t, top :: rest, second :: buffer, single⟩
  | leftArc {t : Tree} {parent child : ℤ} {rest buffer : List ℤ} {single : Bool} {label : Bytes}
    (hlabel : single = true → label ≠ rootLabel) (hchild : child ≠ 0) :
    Step ⟨t, parent :: child :: rest, buffer, single⟩
      ⟨t.setHead child parent label, parent :: rest, buffer, single⟩
  | rightArc {t : Tree} {parent child : ℤ} {rest buffer : List ℤ} {single : Bool} {label : Bytes}
    (hroot : single = true → label = rootLabel → rest = [] ∧ buffer = [])
    (hother : single = true → label ≠ rootLabel → rest ≠ []) :
    Step ⟨t, child :: parent :: rest, buffer, single⟩
      ⟨t.setHead child parent label, parent :: rest, buffer, single⟩
  | leftArc2 {t : Tree} {parent ignore child : ℤ} {rest buffer : List ℤ} {single : Bool}
    {label : Bytes} (hlabel : single = true → label ≠ rootLabel) (hchild : child ≠ 0) :
    Step ⟨t, parent :: ignore :: child :: rest, buffer, single⟩
      ⟨t.setHead child parent label, parent :: ignore :: rest, buffer, single⟩
  | rightArc2 {t : Tree} {parent toBuffer child : ℤ} {rest buffer : List ℤ} {single : Bool}
    {label : Bytes} (hlabel : single = true → label ≠ rootLabel)
    (hrest : single = true → rest ≠ []) :
    Step ⟨t, child :: toBuffer :: parent :: rest, buffer, single⟩
      ⟨t.setHead child parent label, parent :: rest, toBuffer :: buffer, single⟩

/-- Performing an applicable transition follows one of the rules. -/
theorem step_of_perform {tr : Transition} {conf conf' : Configuration} {child : ℤ}
    (happlicable : tr.applicable conf = true) (h : tr.perform conf = some (conf', child)) :
    Step conf conf' := by
  obtain ⟨t, stack, buffer, single⟩ := conf
  cases tr with
  | shift =>
    cases buffer with
    | nil => cases h
    | cons front buffer =>
      obtain ⟨rfl, rfl⟩ := Prod.ext_iff.mp (Option.some.inj h)
      exact .shift
  | swap =>
    rcases stack with _ | ⟨top, _ | ⟨second, rest⟩⟩
    · cases h
    · cases h
    · obtain ⟨rfl, rfl⟩ := Prod.ext_iff.mp (Option.some.inj h)
      simp only [Transition.applicable, Bool.and_eq_true, bne_iff_ne, decide_eq_true_eq]
        at happlicable
      exact .swap happlicable.1 happlicable.2
  | leftArc label =>
    rcases stack with _ | ⟨parent, _ | ⟨child', rest⟩⟩
    · cases h
    · cases h
    · obtain ⟨rfl, rfl⟩ := Prod.ext_iff.mp (Option.some.inj h)
      simp only [Transition.applicable, Bool.if_false_left, Bool.and_eq_true, bne_iff_ne]
        at happlicable
      refine .leftArc (fun hsingle hlabel => ?_) happlicable.2
      simp [hsingle, hlabel] at happlicable
  | rightArc label =>
    rcases stack with _ | ⟨child', _ | ⟨parent, rest⟩⟩
    · cases h
    · cases h
    · obtain ⟨rfl, rfl⟩ := Prod.ext_iff.mp (Option.some.inj h)
      refine .rightArc (fun hsingle hlabel => ?_) (fun hsingle hlabel => ?_)
      · simpa [Transition.applicable, hsingle, hlabel] using happlicable
      · rintro rfl
        simp [Transition.applicable, hsingle, hlabel] at happlicable
  | leftArc2 label =>
    rcases stack with _ | ⟨parent, _ | ⟨ignore, _ | ⟨child', rest⟩⟩⟩
    · cases h
    · cases h
    · cases h
    · obtain ⟨rfl, rfl⟩ := Prod.ext_iff.mp (Option.some.inj h)
      simp only [Transition.applicable, Bool.if_false_left, Bool.and_eq_true, bne_iff_ne]
        at happlicable
      refine .leftArc2 (fun hsingle hlabel => ?_) happlicable.2
      simp [hsingle, hlabel] at happlicable
  | rightArc2 label =>
    rcases stack with _ | ⟨child', _ | ⟨toBuffer, _ | ⟨parent, rest⟩⟩⟩
    · cases h
    · cases h
    · cases h
    · obtain ⟨rfl, rfl⟩ := Prod.ext_iff.mp (Option.some.inj h)
      refine .rightArc2 (fun hsingle hlabel => ?_) ?_
      · simp [Transition.applicable, hsingle, hlabel] at happlicable
      · rintro hsingle rfl
        simp [Transition.applicable, hsingle] at happlicable

/-! ### The measure -/

namespace Configuration

/-- The nodes on the stack and in the buffer, in the order of the sentence as far
as no swap has changed it. -/
def inOrder (conf : Configuration) : List ℤ := conf.stack.reverse ++ conf.buffer

/-- The measure that every transition lowers. -/
def remaining (conf : Configuration) : ℕ :=
  2 * conf.inOrder.orderedPairs + 3 * conf.buffer.length + 2 * conf.stack.length

end Configuration

/-- Fewer nodes on the stack have fewer ordered pairs. -/
private theorem orderedPairs_stack_le {stack stack' : List ℤ} (h : stack'.Sublist stack)
    (buffer : List ℤ) :
    (stack'.reverse ++ buffer).orderedPairs ≤ (stack.reverse ++ buffer).orderedPairs :=
  List.Sublist.orderedPairs_le (List.Sublist.append_right h.reverse buffer)

/-- Every step lowers the measure: a swap loses a pair in increasing order, and
the others shift or drop a node. -/
theorem Step.remaining_lt {conf conf' : Configuration} (h : Step conf conf') :
    conf'.remaining < conf.remaining := by
  cases h with
  | shift =>
    simp only [Configuration.remaining, Configuration.inOrder, List.length_cons,
      List.reverse_cons, List.append_assoc, List.singleton_append]
    omega
  | @swap t top second rest buffer single hsecond hlt =>
    have hpairs := List.orderedPairs_exchange hlt (not_lt_of_gt hlt) rest.reverse buffer
    simp only [Configuration.remaining, Configuration.inOrder, List.length_cons,
      List.reverse_cons, List.append_assoc, List.cons_append, List.nil_append, hpairs]
    omega
  | @leftArc t parent child rest buffer single label hlabel hchild =>
    have hpairs := orderedPairs_stack_le
      ((List.sublist_cons_self child rest).cons_cons parent) buffer
    simp only [Configuration.remaining, Configuration.inOrder, List.length_cons] at hpairs ⊢
    omega
  | @rightArc t parent child rest buffer single label hroot hother =>
    have hpairs := orderedPairs_stack_le (List.sublist_cons_self child (parent :: rest)) buffer
    simp only [Configuration.remaining, Configuration.inOrder, List.length_cons] at hpairs ⊢
    omega
  | @leftArc2 t parent ignore child rest buffer single label hlabel hchild =>
    have hpairs := orderedPairs_stack_le
      (((List.sublist_cons_self child rest).cons_cons ignore).cons_cons parent) buffer
    simp only [Configuration.remaining, Configuration.inOrder, List.length_cons] at hpairs ⊢
    omega
  | @rightArc2 t parent toBuffer child rest buffer single label hlabel hrest =>
    have hpairs := orderedPairs_stack_le
      (List.sublist_cons_self child (toBuffer :: parent :: rest)) buffer
    simp only [Configuration.remaining, Configuration.inOrder, List.length_cons,
      List.reverse_cons, List.append_assoc, List.cons_append, List.nil_append] at hpairs ⊢
    omega

/-! ### The invariant -/

namespace Configuration

/-- The nodes on the stack and in the buffer. -/
def pending (conf : Configuration) : List ℤ := conf.stack ++ conf.buffer

/-- A configuration is final without a buffer, and with the root alone on the stack. -/
theorem final_iff {conf : Configuration} :
    conf.final = true ↔ conf.buffer = [] ∧ conf.stack.length ≤ 1 := by
  simp [final]

/-- What holds of every configuration of a run over `n` words: the pending nodes
are those without a head, and the heads lead every other node to one of them. -/
structure Consistent (n : ℕ) (conf : Configuration) : Prop where
  size : conf.t.nodes.length = n + 1
  bottom : conf.stack.getLast? = some 0
  nodup : conf.pending.Nodup
  mem_pending : ∀ i, i ∈ conf.pending ↔ 0 ≤ i ∧ i ≤ n ∧ conf.t.headOf i = -1
  heads : ∀ i, conf.t.headOf i = -1 ∨ 0 ≤ conf.t.headOf i ∧ conf.t.headOf i ≤ n
  mem_children : ∀ i j, j ∈ conf.t.childrenOf i ↔ 0 ≤ i ∧ conf.t.headOf j = i
  children_increase : ∀ i, (conf.t.childrenOf i).Pairwise (· < ·)
  forest : Forest.IsForest conf.t.parent
  /-- With a single root, an arc from the root is the last one. -/
  root_arcs : conf.singleRoot = true →
    (∀ i, conf.t.headOf i ≠ 0 ∧ conf.t.deprelOf i ≠ rootLabel) ∨
      (conf.final = true ∧ ∃ i, ∀ j, (conf.t.headOf j = 0 ↔ j = i) ∧
        (conf.t.deprelOf j = rootLabel ↔ j = i))

end Configuration

/-- A step from `conf` to `conf'` moves pending nodes, or attaches one to another. -/
inductive Effect (conf conf' : Configuration) : Prop
  | move (htree : conf'.t = conf.t) (hpending : conf.pending.Perm conf'.pending)
  | attach (child parent : ℤ) (label : Bytes)
    (htree : conf'.t = conf.t.setHead child parent label)
    (hpending : conf.pending.Perm (child :: conf'.pending))
    (hparent : parent ∈ conf'.pending)
    (hroot : conf.singleRoot = true → (label = rootLabel ↔ parent = 0))
    (hlast : conf.singleRoot = true → parent = 0 → conf'.final = true)

/-- Above the bottom of the stack there is no root. -/
theorem ne_zero_of_above {a : ℤ} {stack buffer : List ℤ}
    (hbottom : (a :: stack).getLast? = some 0) (hne : stack ≠ [])
    (hnodup : (a :: stack ++ buffer).Nodup) : a ≠ 0 := by
  rintro rfl
  rw [List.getLast?_cons_of_ne_nil hne] at hbottom
  have hmem : (0 : ℤ) ∈ stack ++ buffer := List.mem_append_left _ (List.mem_of_getLast? hbottom)
  exact (List.nodup_cons.mp hnodup).1 hmem

/-- The effect of a step when node zero is at the bottom of the stack, where it stays. -/
theorem Step.effect {conf conf' : Configuration} (h : Step conf conf')
    (hbottom : conf.stack.getLast? = some 0) (hnodup : conf.pending.Nodup) :
    conf'.singleRoot = conf.singleRoot ∧ conf'.stack.getLast? = some 0 ∧ conf.final = false ∧
      Effect conf conf' := by
  cases h with
  | @shift t front stack buffer single =>
    refine ⟨rfl, ?_, by simp [Configuration.final], .move rfl List.perm_middle⟩
    have hne : stack ≠ [] := by
      rintro rfl
      simp at hbottom
    simpa [List.getLast?_cons_of_ne_nil hne] using hbottom
  | @swap t top second rest buffer single hsecond hlt =>
    have hne : rest ≠ [] := by
      rintro rfl
      simp at hbottom
      exact hsecond hbottom
    refine ⟨rfl, ?_, by simp [Configuration.final], .move rfl ?_⟩
    · simpa [List.getLast?_cons_of_ne_nil hne] using hbottom
    · exact (@List.perm_middle ℤ second rest buffer).symm.cons top
  | @leftArc t parent child rest buffer single label hlabel hchild =>
    have hne : rest ≠ [] := by
      rintro rfl
      simp at hbottom
      exact hchild hbottom
    have hparent : parent ≠ 0 := ne_zero_of_above hbottom (List.cons_ne_nil _ _) hnodup
    refine ⟨rfl, ?_, by simp [Configuration.final],
      .attach child parent label rfl (List.Perm.swap _ _ _) List.mem_cons_self ?_ ?_⟩
    · simpa [List.getLast?_cons_of_ne_nil hne] using hbottom
    · exact fun hsingle => iff_of_false (hlabel hsingle) hparent
    · exact fun _ hzero => absurd hzero hparent
  | @rightArc t parent child rest buffer single label hroot hother =>
    have hbottom' : (parent :: rest).getLast? = some 0 := by simpa using hbottom
    have hnodup' : (parent :: rest ++ buffer).Nodup := hnodup.of_cons
    refine ⟨rfl, hbottom', by simp [Configuration.final],
      .attach child parent label rfl (List.Perm.refl _) List.mem_cons_self ?_ ?_⟩
    · intro hsingle
      by_cases hlabel : label = rootLabel
      · obtain ⟨rfl, -⟩ := hroot hsingle hlabel
        exact iff_of_true hlabel (by simpa using hbottom')
      · exact iff_of_false hlabel (ne_zero_of_above hbottom' (hother hsingle hlabel) hnodup')
    · intro hsingle hzero
      by_cases hlabel : label = rootLabel
      · obtain ⟨rfl, rfl⟩ := hroot hsingle hlabel
        simp [Configuration.final]
      · exact absurd hzero (ne_zero_of_above hbottom' (hother hsingle hlabel) hnodup')
  | @leftArc2 t parent ignore child rest buffer single label hlabel hchild =>
    have hne : rest ≠ [] := by
      rintro rfl
      simp at hbottom
      exact hchild hbottom
    have hparent : parent ≠ 0 := ne_zero_of_above hbottom (List.cons_ne_nil _ _) hnodup
    refine ⟨rfl, ?_, by simp [Configuration.final],
      .attach child parent label rfl ?_ List.mem_cons_self ?_ ?_⟩
    · simpa [List.getLast?_cons_of_ne_nil hne] using hbottom
    · exact @List.perm_middle ℤ child [parent, ignore] (rest ++ buffer)
    · exact fun hsingle => iff_of_false (hlabel hsingle) hparent
    · exact fun _ hzero => absurd hzero hparent
  | @rightArc2 t parent toBuffer child rest buffer single label hlabel hrest =>
    have hbottom' : (parent :: rest).getLast? = some 0 := by simpa using hbottom
    have hnodup' : (parent :: rest ++ buffer).Nodup := hnodup.of_cons.of_cons
    refine ⟨rfl, hbottom', by simp [Configuration.final],
      .attach child parent label rfl ?_ List.mem_cons_self ?_ ?_⟩
    · exact (@List.perm_middle ℤ toBuffer (parent :: rest) buffer).symm.cons child
    · exact fun hsingle => iff_of_false (hlabel hsingle)
        (ne_zero_of_above hbottom' (hrest hsingle) hnodup')
    · exact fun hsingle hzero =>
        absurd hzero (ne_zero_of_above hbottom' (hrest hsingle) hnodup')

namespace Configuration

/-- The root is pending. -/
theorem Consistent.zero_mem {n : ℕ} {conf : Configuration} (h : conf.Consistent n) :
    0 ∈ conf.pending :=
  List.mem_append_left _ (List.mem_of_getLast? h.bottom)

/-- The initial configuration is consistent. -/
theorem consistent_init (single : Bool) {t : Tree} {n : ℕ} (hsize : t.nodes.length = n + 1) :
    (init single t).Consistent n where
  size := by simp [init, hsize]
  bottom := by
    have hne : t.nodes ≠ [] := List.ne_nil_of_length_eq_add_one hsize
    simp [init, hne]
  nodup := by
    have hne : t.nodes ≠ [] := List.ne_nil_of_length_eq_add_one hsize
    have hbuffer : ((List.range' 1 n).map fun i : ℕ => (i : ℤ)).Nodup :=
      List.Nodup.map Nat.cast_injective List.nodup_range'
    simpa [pending, init, hne, hsize] using hbuffer
  mem_pending i := by
    have hne : t.nodes ≠ [] := List.ne_nil_of_length_eq_add_one hsize
    have hhead : t.unlinkAllNodes.headOf i = -1 := by simp [Tree.headOf]
    simp only [pending, init, hne, List.isEmpty_iff, if_false, hsize, Nat.add_sub_cancel,
      List.singleton_append, List.mem_cons, List.mem_map, List.mem_range'_1, hhead, and_true]
    constructor
    · rintro (rfl | ⟨k, hk, rfl⟩) <;> omega
    · intro hi
      rcases eq_or_ne i 0 with hzero | hzero
      · exact .inl hzero
      · exact .inr ⟨i.toNat, by omega, by omega⟩
  heads i := by simp [init, Tree.headOf]
  mem_children i j := by
    simp only [init, Tree.childrenOf, Tree.headOf, Tree.linksOf_unlinkAllNodes, List.not_mem_nil,
      false_iff]
    omega
  children_increase i := by simp [init, Tree.childrenOf]
  forest i := ⟨i, by simp [init, Tree.parent, Tree.headOf], .refl⟩
  root_arcs _ := by
    refine .inl fun i => ⟨by simp [init, Tree.headOf], ?_⟩
    simp [init, Tree.deprelOf, rootLabel]

/-- A step keeps the configuration consistent. -/
theorem Consistent.step {n : ℕ} {conf conf' : Configuration} (h : conf.Consistent n)
    (hstep : Step conf conf') : conf'.Consistent n := by
  obtain ⟨hsingle, hbottom, hfinal, heffect⟩ := hstep.effect h.bottom h.nodup
  have hroot : conf.singleRoot = true →
      ∀ i, conf.t.headOf i ≠ 0 ∧ conf.t.deprelOf i ≠ rootLabel := by
    intro hs
    rcases h.root_arcs hs with hnone | ⟨hlast, _⟩
    · exact hnone
    · simp [hfinal] at hlast
  cases heffect with
  | move htree hpending =>
    refine ⟨htree ▸ h.size, hbottom, hpending.nodup h.nodup, fun i => ?_, htree ▸ h.heads,
      htree ▸ h.mem_children, htree ▸ h.children_increase, htree ▸ h.forest, fun hs => .inl ?_⟩
    · rw [← hpending.mem_iff, htree]
      exact h.mem_pending i
    · rw [htree]
      exact hroot (hsingle ▸ hs)
  | attach child parent label htree hpending hparent hlabel hlast =>
    obtain ⟨hchild, hnodup⟩ := List.nodup_cons.mp (hpending.nodup h.nodup)
    have hchild' := (h.mem_pending child).mp (hpending.mem_iff.mpr List.mem_cons_self)
    have hparent' := (h.mem_pending parent).mp
      (hpending.mem_iff.mpr (List.mem_cons_of_mem _ hparent))
    have hne : child ≠ parent := fun heq => hchild (heq ▸ hparent)
    have hlinks := @Tree.linksOf_setHead conf.t child parent label hchild'.1
      (by rw [h.size]; omega) (by rw [h.size]; omega) hchild'.2.2
    rw [← htree] at hlinks
    have hheadOf : ∀ j, conf'.t.headOf j = if child = j then parent else conf.t.headOf j := by
      intro j
      rw [Tree.headOf, hlinks]
    have hdeprelOf : ∀ j, conf'.t.deprelOf j = if child = j then label else conf.t.deprelOf j := by
      intro j
      rw [Tree.deprelOf, hlinks]
    have hchildrenOf : ∀ i, conf'.t.childrenOf i =
        if parent = i ∧ 0 ≤ i then insertChild child (conf.t.childrenOf i)
        else conf.t.childrenOf i := by
      intro i
      rw [Tree.childrenOf, hlinks]
    have hforest : conf'.t.parent = Function.update conf.t.parent child (some parent) := by
      funext j
      simp only [Tree.parent, hheadOf, Function.update_apply, eq_comm (a := child)]
      split
      · rw [if_pos hparent'.1]
      · rfl
    refine ⟨by rw [htree]; simpa using h.size, hbottom, hnodup, fun i => ?_, fun i => ?_,
      fun i j => ?_, fun i => ?_, ?_, fun hs => ?_⟩
    · rw [hheadOf]
      have hmem := h.mem_pending i
      rw [hpending.mem_iff, List.mem_cons] at hmem
      split
      · rename_i heq
        subst heq
        refine iff_of_false hchild ?_
        rintro ⟨_, _, hhead⟩
        omega
      · rename_i hother
        rw [← hmem, or_iff_right (Ne.symm hother)]
    · rw [hheadOf]
      split
      · exact .inr ⟨hparent'.1, hparent'.2.1⟩
      · exact h.heads i
    · rw [hchildrenOf, hheadOf]
      have hmem := h.mem_children i j
      by_cases hj : child = j
      · subst hj
        by_cases hi : parent = i
        · simp [hi, hi ▸ hparent'.1, mem_insertChild]
        · have hold : ¬ (0 ≤ i ∧ conf.t.headOf child = i) := by omega
          simpa [hi, hold] using hmem
      · rw [if_neg hj]
        split
        · rw [mem_insertChild, hmem, or_iff_right (Ne.symm hj)]
        · exact hmem
    · rw [hchildrenOf]
      split
      · exact pairwise_insertChild (h.children_increase i)
      · exact h.children_increase i
    · rw [hforest]
      refine h.forest.attach (by simp [Tree.parent, hchild'.2.2]) fun hlead => hne ?_
      exact hlead.eq_of_root (by simp [Tree.parent, hparent'.2.2])
    · rw [hsingle] at hs
      have hold := hroot hs
      simp only [hheadOf, hdeprelOf]
      by_cases hzero : parent = 0
      · refine .inr ⟨hlast hs hzero, child, fun j => ?_⟩
        by_cases hj : child = j
        · simp [hj, hzero, (hlabel hs).mpr hzero]
        · simp [hj, Ne.symm hj, hold j]
      · refine .inl fun i => ?_
        by_cases hi : child = i
        · simpa [hi, hzero] using fun heq => hzero ((hlabel hs).mp heq)
        · simpa [hi] using hold i

end Configuration

/-! ### Runs -/

/-- A run keeps the configuration consistent and the number of roots fixed, and it
is no longer than the measure is lowered. -/
theorem consistent_of_run {system : TransitionSystem} {n : ℕ} {choices : List ℕ}
    {conf conf' : Configuration} (h : conf.Consistent n)
    (hrun : system.run choices conf = some conf') :
    conf'.Consistent n ∧ conf'.singleRoot = conf.singleRoot ∧
      choices.length + conf'.remaining ≤ conf.remaining := by
  induction choices generalizing conf with
  | nil =>
    obtain rfl := Option.some.inj hrun
    exact ⟨h, rfl, by simp⟩
  | cons transition rest ih =>
    obtain ⟨tr, next, child, _, happlicable, hperform, hrest⟩ := TransitionSystem.run_cons hrun
    have hstep := step_of_perform happlicable hperform
    obtain ⟨hconsistent, hsingle, hlength⟩ := ih (h.step hstep) hrest
    have hlt := hstep.remaining_lt
    refine ⟨hconsistent, hsingle.trans (hstep.effect h.bottom h.nodup).1, ?_⟩
    simp only [List.length_cons]
    omega

/-- The measure at the start is quadratic in the number of words. -/
theorem remaining_init_le (single : Bool) {t : Tree} {n : ℕ} (hsize : t.nodes.length = n + 1) :
    (Configuration.init single t).remaining ≤ n * n + 4 * n + 2 := by
  have hne : t.nodes ≠ [] := List.ne_nil_of_length_eq_add_one hsize
  have hpairs := (Configuration.init single t).inOrder.orderedPairs_le
  have hlength : (Configuration.init single t).inOrder.length = n + 1 := by
    simp [Configuration.inOrder, Configuration.init, hne, hsize]
  have hchoose : 2 * (n + 1).choose 2 = n * n + n := by
    rw [Nat.choose_two_right, Nat.mul_div_cancel' (Nat.even_mul_pred_self _).two_dvd]
    simp [Nat.add_mul]
  rw [hlength] at hpairs
  have hbuffer : (Configuration.init single t).buffer.length = n := by
    simp [Configuration.init, hsize]
  have hstack : (Configuration.init single t).stack.length = 1 := by
    simp [Configuration.init, hne]
  rw [Configuration.remaining, hbuffer, hstack]
  omega

/-- A configuration that is not final can go on, by a shift or by a right arc. -/
theorem exists_applicable_of_not_final {name : Bytes} {labels : List Bytes}
    {system : TransitionSystem} {conf : Configuration}
    (hsystem : TransitionSystem.create name labels = some system) (hlabels : labels ≠ [])
    (hroot : conf.singleRoot = true →
      rootLabel ∈ labels ∧ ∃ label ∈ labels, label ≠ rootLabel)
    (hfinal : conf.final = false) :
    ∃ transition < system.length, system.applicable conf transition = true := by
  obtain ⟨hshift, harc⟩ := TransitionSystem.mem_of_create hsystem
  by_cases hbuffer : conf.buffer = []
  · have hstack : 2 ≤ conf.stack.length := by
      rw [← Bool.not_eq_true, Configuration.final_iff] at hfinal
      by_contra hlt
      exact hfinal ⟨hbuffer, by omega⟩
    rcases Bool.eq_false_or_eq_true conf.singleRoot with hsingle | hsingle
    · obtain ⟨hmem, label, hother, hne⟩ := hroot hsingle
      by_cases htwo : conf.stack.length = 2
      · apply TransitionSystem.exists_applicable (harc rootLabel hmem)
        simp [Transition.applicable, hsingle, htwo, hbuffer]
      · apply TransitionSystem.exists_applicable (harc label hother)
        simp only [Transition.applicable, hsingle, beq_eq_false_iff_ne.mpr hne, Bool.and_false,
          Bool.false_eq_true, if_false, if_true, gt_iff_lt, decide_eq_true_eq]
        omega
    · obtain ⟨label, hmem⟩ := List.exists_mem_of_ne_nil labels hlabels
      apply TransitionSystem.exists_applicable (harc label hmem)
      simpa [Transition.applicable, hsingle] using hstack
  · apply TransitionSystem.exists_applicable hshift
    simp [Transition.applicable, hbuffer]

/-! ### Trees -/

/-- The words `1` to `n` form a tree below the root `0`. -/
structure IsTree (n : ℕ) (t : Tree) : Prop where
  size : t.nodes.length = n + 1
  root : t.headOf 0 = -1
  heads : ∀ i : ℤ, 1 ≤ i → i ≤ n → 0 ≤ t.headOf i ∧ t.headOf i ≤ n
  /-- The children lists have every word once, with its head. -/
  mem_children : ∀ i j, 0 ≤ i → (j ∈ t.childrenOf i ↔ t.headOf j = i)
  children_increase : ∀ i, (t.childrenOf i).Pairwise (· < ·)
  acyclic : ∀ i, ¬ Relation.TransGen (fun i j => t.parent i = some j) i i
  reaches_root : ∀ i : ℤ, 1 ≤ i → i ≤ n → Forest.LeadsTo t.parent i 0

/-- Exactly one word hangs below the root, and its arc alone has the root label. -/
def SingleRooted (n : ℕ) (t : Tree) : Prop :=
  ∃ i : ℤ, 1 ≤ i ∧ i ≤ n ∧ ∀ j : ℤ, 1 ≤ j → j ≤ n →
    (t.headOf j = 0 ↔ j = i) ∧ (t.deprelOf j = rootLabel ↔ j = i)

namespace Configuration

/-- Only node zero is pending in a final configuration. -/
theorem Consistent.pending_of_final {n : ℕ} {conf : Configuration} (h : conf.Consistent n)
    (hfinal : conf.final = true) : conf.pending = [0] := by
  obtain ⟨hbuffer, hstack⟩ := final_iff.mp hfinal
  have hzero := h.bottom
  match hs : conf.stack with
  | [] => simp [hs] at hzero
  | [a] => simpa [pending, hs, hbuffer] using hzero
  | _ :: _ :: _ => simp [hs] at hstack

/-- Heads lead from the words and the root to words and the root only. -/
theorem Consistent.range_of_leadsTo {n : ℕ} {conf : Configuration} (h : conf.Consistent n)
    {i j : ℤ} (hi : 0 ≤ i) (hn : i ≤ n) (hlead : Forest.LeadsTo conf.t.parent i j) :
    0 ≤ j ∧ j ≤ n := by
  induction hlead with
  | refl => exact ⟨hi, hn⟩
  | @tail b c _ harc _ =>
    unfold Tree.parent at harc
    split at harc
    · obtain rfl := Option.some.inj harc
      have := h.heads b
      omega
    · cases harc

/-- The tree of a final configuration. -/
theorem Consistent.isTree {n : ℕ} {conf : Configuration} (h : conf.Consistent n)
    (hfinal : conf.final = true) : IsTree n conf.t := by
  have hpending : ∀ i : ℤ, i = 0 ↔ 0 ≤ i ∧ i ≤ n ∧ conf.t.headOf i = -1 := by
    intro i
    rw [← h.mem_pending, h.pending_of_final hfinal, List.mem_singleton]
  refine ⟨h.size, ((hpending 0).mp rfl).2.2, fun i hi hn => ?_, fun i j hi => ?_,
    h.children_increase, h.forest.acyclic, fun i hi hn => ?_⟩
  · rcases h.heads i with hnone | hhead
    · have := (hpending i).mpr ⟨by omega, hn, hnone⟩
      omega
    · exact hhead
  · rw [h.mem_children, and_iff_right hi]
  · obtain ⟨r, hr, hlead⟩ := h.forest i
    have hrange := h.range_of_leadsTo (by omega) hn hlead
    have hnone : conf.t.headOf r = -1 := by
      rcases h.heads r with hnone | hhead
      · exact hnone
      · simp [Tree.parent, hhead.1] at hr
    obtain rfl := (hpending r).mpr ⟨hrange.1, hrange.2, hnone⟩
    exact hlead

/-- With a single root, the tree of a final configuration has one. -/
theorem Consistent.singleRooted {n : ℕ} {conf : Configuration} (h : conf.Consistent n)
    (hfinal : conf.final = true) (hsingle : conf.singleRoot = true) (hn : 1 ≤ n) :
    SingleRooted n conf.t := by
  have htree := h.isTree hfinal
  have hlead := htree.reaches_root 1 le_rfl (by omega)
  -- the last arc on the way from the first word to the root
  obtain ⟨b, hb, harc⟩ : ∃ b, Forest.LeadsTo conf.t.parent 1 b ∧ conf.t.headOf b = 0 := by
    rcases hlead.cases_tail with heq | ⟨b, hb, harc⟩
    · cases heq
    · refine ⟨b, hb, ?_⟩
      unfold Tree.parent at harc
      split at harc
      · exact Option.some.inj harc
      · cases harc
  have hrange := h.range_of_leadsTo (by omega) (by omega) hb
  have hne : b ≠ 0 := by
    rintro rfl
    have := htree.root
    omega
  rcases h.root_arcs hsingle with hnone | ⟨_, i, honly⟩
  · exact absurd harc (hnone b).1
  · obtain rfl := (honly b).1.mp harc
    exact ⟨b, by omega, hrange.2, fun j _ _ => honly j⟩

end Configuration

/-- Every run of a system from the initial configuration is short and never stuck,
and where it ends, the words form a tree. -/
theorem runs_end_in_tree {name : Bytes} {labels : List Bytes} {system : TransitionSystem}
    {single : Bool} {n : ℕ} {t : Tree} {choices : List ℕ} {conf : Configuration}
    (hsystem : TransitionSystem.create name labels = some system) (hlabels : labels ≠ [])
    (hroot : single = true → rootLabel ∈ labels ∧ ∃ label ∈ labels, label ≠ rootLabel)
    (hsize : t.nodes.length = n + 1) (hn : 1 ≤ n)
    (hrun : system.run choices (Configuration.init single t) = some conf) :
    choices.length ≤ n * n + 4 * n ∧
      (conf.final = false →
        ∃ transition < system.length, system.applicable conf transition = true) ∧
      (conf.final = true → IsTree n conf.t ∧ (single = true → SingleRooted n conf.t)) := by
  obtain ⟨h, hsingle, hlength⟩ :=
    consistent_of_run (Configuration.consistent_init single hsize) hrun
  have hinit := remaining_init_le single hsize
  have hremaining : 2 ≤ conf.remaining := by
    have hstack := List.length_pos_of_mem (List.mem_of_getLast? h.bottom)
    simp only [Configuration.remaining]
    omega
  refine ⟨by omega, fun hfinal => ?_, fun hfinal => ⟨h.isTree hfinal, fun hs => ?_⟩⟩
  · exact exists_applicable_of_not_final hsystem hlabels
      (fun hs => hroot (hsingle.symm.trans hs)) hfinal
  · exact h.singleRooted hfinal (hsingle.trans hs) hn

/-- A tree of the root and two words. -/
def twoWords : Tree := (Tree.clear.addNode (bytes "a")).addNode (bytes "b")

/-- A run for two words. -/
theorem runs_end_in_tree_twoWords : ∃ conf,
    (TransitionSystem.swap [rootLabel, bytes "det"]).run [0, 0, 1, 0, 4, 3]
      (Configuration.init true twoWords) = some conf ∧ conf.final = true ∧
    IsTree 2 conf.t ∧ SingleRooted 2 conf.t := by
  obtain ⟨conf, hrun⟩ := Option.isSome_iff_exists.mp (show
    ((TransitionSystem.swap [rootLabel, bytes "det"]).run [0, 0, 1, 0, 4, 3]
      (Configuration.init true twoWords)).isSome = true by decide)
  have hfinal : conf.final = true := by
    have hall : ∀ conf' ∈ (TransitionSystem.swap [rootLabel, bytes "det"]).run [0, 0, 1, 0, 4, 3]
        (Configuration.init true twoWords), conf'.final = true := by decide
    exact hall conf hrun
  have hmain := @runs_end_in_tree (bytes "swap") [rootLabel, bytes "det"] _ true 2 twoWords _ conf
    (by decide) (by decide) (by decide) (by decide) (by decide) hrun
  obtain ⟨htree, hrooted⟩ := hmain.2.2 hfinal
  exact ⟨conf, hrun, hfinal, htree, hrooted rfl⟩

end UDPipe.Parsito
