import UDPipe.Library.Traversal
import UDPipe.Parsito.Oracles
import Mathlib.Order.Interval.Set.Basic
import Mathlib.Order.Interval.Finset.Nat
import Mathlib.Data.List.Chain

/-!
# Building a gold tree

The static oracles differ in the order they bring the nodes into and in how long
they delay the swaps, but all of them attach a node as soon as it is next to its
head and has its own children. Here a plan is such an order with a division of the
nodes into components; a swap waits while the next node of the buffer is in the
component of the top. Whatever the plan is, following it builds the gold tree.
-/

namespace UDPipe.Parsito

open Forest (LeadsTo IsForest)

namespace Tree

/-- Outside of the tree there are no heads. -/
theorem headOf_eq_of_length_le {t : Tree} {i : ℤ} (h : i < 0 ∨ t.nodes.length ≤ i) :
    t.headOf i = -1 := by
  unfold headOf linksOf
  split
  · have hnone : t.nodes[i.toNat]? = none := List.getElem?_eq_none_iff.mpr (by omega)
    simp [hnone]
  · rfl

/-- A node of a numbered tree is the one at its position. -/
theorem exists_node {t : Tree} (hnumbered : ∀ i : ℕ, ∀ node ∈ t.nodes[i]?, node.id = i) {i : ℤ}
    (hi : 0 ≤ i) (hlt : i < t.nodes.length) : ∃ node, node ∈ t.nodes ∧ node.id = i ∧
      node.head = t.headOf i ∧ node.deprel = t.deprelOf i := by
  have hlt' : i.toNat < t.nodes.length := by omega
  have hnode := List.getElem?_eq_getElem hlt'
  refine ⟨t.nodes[i.toNat], List.getElem_mem hlt', ?_, ?_, ?_⟩
  · rw [hnumbered i.toNat _ hnode]
    omega
  · simp [Tree.headOf, Tree.linksOf, hi, hnode]
  · simp [Tree.deprelOf, Tree.linksOf, hi, hnode]

/-- A node has a parent if its head is one. -/
theorem parent_eq_some {t : Tree} {i j : ℤ} : t.parent i = some j ↔ t.headOf i = j ∧ 0 ≤ j := by
  unfold parent
  split
  · simp only [Option.some.injEq]
    constructor
    · rintro rfl
      exact ⟨rfl, by assumption⟩
    · exact And.left
  · simp only [reduceCtorEq, false_iff, not_and]
    rintro rfl
    assumption

end Tree

namespace IsTree

variable {n : ℕ} {gold : Tree}

/-- Only words have heads, which are words or the root. -/
theorem range_of_parent (h : IsTree n gold) {i j : ℤ} (hparent : gold.parent i = some j) :
    1 ≤ i ∧ i ≤ n ∧ 0 ≤ j ∧ j ≤ n := by
  obtain ⟨hhead, hj⟩ := Tree.parent_eq_some.mp hparent
  have hsize := h.size
  have hi : 1 ≤ i ∧ i ≤ n := by
    by_contra hout
    have hnone : gold.headOf i = -1 := by
      rcases eq_or_ne i 0 with rfl | hne
      · exact h.root
      · exact Tree.headOf_eq_of_length_le (by omega)
    omega
  exact ⟨hi.1, hi.2, hj, hhead ▸ (h.heads i hi.1 hi.2).2⟩

/-- Every word has a head. -/
theorem exists_parent (h : IsTree n gold) {i : ℤ} (hi : 1 ≤ i) (hn : i ≤ n) :
    gold.parent i = some (gold.headOf i) :=
  Tree.parent_eq_some.mpr ⟨rfl, (h.heads i hi hn).1⟩

/-- The root has no head. -/
theorem parent_zero (h : IsTree n gold) : gold.parent 0 = none := by
  simp [Tree.parent, h.root]

/-- The gold tree is a forest. -/
theorem isForest (h : IsTree n gold) : IsForest gold.parent := by
  intro i
  by_cases hi : 1 ≤ i ∧ i ≤ n
  · exact ⟨0, h.parent_zero, h.reaches_root i hi.1 hi.2⟩
  · refine ⟨i, ?_, .refl⟩
    by_contra hne
    obtain ⟨j, hj⟩ := Option.ne_none_iff_exists'.mp hne
    have := h.range_of_parent hj
    omega

/-- The nodes are closed under heads. -/
theorem upClosed (h : IsTree n gold) : Forest.UpClosed gold.parent 0 ({i : ℤ | 0 ≤ i ∧ i ≤ n}) where
  root_mem := ⟨le_rfl, by omega⟩
  parent_mem i hi hne := by
    have hi' : 0 ≤ i ∧ i ≤ n := hi
    have hparent := h.exists_parent (by omega) hi'.2
    have := h.range_of_parent hparent
    exact ⟨_, ⟨this.2.2.1, this.2.2.2⟩, hparent⟩

/-- With a single root, the arcs with the root label are those from the root. -/
theorem deprelOf_eq_rootLabel (h : IsTree n gold) (hrooted : SingleRooted n gold) {i j : ℤ}
    (hparent : gold.parent i = some j) : gold.deprelOf i = rootLabel ↔ j = 0 := by
  obtain ⟨k, _, _, honly⟩ := hrooted
  have hrange := h.range_of_parent hparent
  obtain ⟨hhead, hlabel⟩ := honly i hrange.1 hrange.2.1
  rw [hlabel, ← hhead, (Tree.parent_eq_some.mp hparent).1]

end IsTree

/-- The nodes in their order are the pending nodes. -/
theorem Configuration.inOrder_perm_pending (conf : Configuration) :
    conf.inOrder.Perm conf.pending :=
  (List.reverse_perm conf.stack).append_right conf.buffer

/-- A tree that the oracles are asked about: it is numbered by positions and its
labels are known. -/
structure GoldTree (n : ℕ) (labels : List Bytes) (gold : Tree) : Prop extends IsTree n gold where
  numbered : ∀ i : ℕ, ∀ node ∈ gold.nodes[i]?, node.id = i
  labelled : ∀ i : ℤ, 1 ≤ i → i ≤ n → gold.deprelOf i ∈ labels

namespace GoldTree

variable {n : ℕ} {labels : List Bytes} {gold : Tree}

/-- A word is the node at its position. -/
theorem exists_node (h : GoldTree n labels gold) {i : ℤ} (hi : 1 ≤ i) (hn : i ≤ n) :
    ∃ node, node ∈ gold.nodes ∧ node.id = i ∧ node.head = gold.headOf i ∧
      node.deprel = gold.deprelOf i :=
  Tree.exists_node h.numbered (by omega) (by have := h.size; omega)

/-- The tree that a run ends with, when its nodes are numbered and its labels known. -/
theorem of_run {system : TransitionSystem} {choices : List ℕ} {single : Bool} {t : Tree}
    (hsize : t.nodes.length = n + 1)
    (hrun : ∃ conf, system.run choices (Configuration.init single t) = some conf ∧
      conf.final = true ∧ conf.t = gold)
    (hnumbered : ∀ i < n + 1, ∀ node ∈ gold.nodes[i]?, node.id = i)
    (hlabelled : ∀ i ∈ Finset.Icc 1 n, gold.deprelOf i ∈ labels) : GoldTree n labels gold := by
  obtain ⟨conf, hrun, hfinal, rfl⟩ := hrun
  have tree := (consistent_of_run (Configuration.consistent_init single hsize) hrun).1.isTree hfinal
  refine ⟨tree, fun i node hnode => ?_, fun i hi hn => ?_⟩
  · obtain ⟨hlt, -⟩ := List.getElem?_eq_some_iff.mp hnode
    exact hnumbered i (tree.size ▸ hlt) node hnode
  · have := hlabelled i.toNat (Finset.mem_Icc.mpr ⟨by omega, by omega⟩)
    rwa [show ((i.toNat : ℕ) : ℤ) = i by omega] at this

/-- A tree that passes the checks of the trainer has a single root. -/
theorem singleRooted (h : GoldTree n labels gold) {train : List Tree} (hmem : gold ∈ train)
    (hchecks : singleRootFailure train labels = none) : SingleRooted n gold := by
  have hnone : singleRootFailureOf gold = none := by
    rw [singleRootFailure, Option.or_eq_none_iff] at hchecks
    exact List.findSome?_eq_none_iff.mp hchecks.1 gold hmem
  rw [singleRootFailureOf, Option.or_eq_none_iff, List.findSome?_eq_none_iff] at hnone
  obtain ⟨hwords, hcount⟩ := hnone
  have hword : ∀ i : ℤ, 1 ≤ i → i ≤ n → ∀ node ∈ gold.nodes, node.id = i →
      node ∈ gold.nodes.filter fun node => node.id != 0 := by
    intro i hi _ node hnode hid
    refine List.mem_filter.mpr ⟨hnode, ?_⟩
    have : node.id ≠ 0 := by omega
    simpa using this
  have hlabel : ∀ i : ℤ, 1 ≤ i → i ≤ n → (gold.deprelOf i = rootLabel ↔ gold.headOf i = 0) := by
    intro i hi hn
    obtain ⟨node, hnode, hid, hhead, hdeprel⟩ := h.exists_node hi hn
    have hcheck := hwords node (hword i hi hn node hnode hid)
    rw [hhead, hdeprel] at hcheck
    split_ifs at hcheck
    tauto
  have hone : (gold.nodes.filter fun node => node.id != 0).countP (fun node => node.head = 0) =
      1 := by
    by_contra hne
    simp [hne] at hcount
  obtain ⟨node, hnode⟩ := List.length_eq_one_iff.mp (List.countP_eq_length_filter ▸ hone)
  have honly : ∀ i : ℤ, 1 ≤ i → i ≤ n → gold.headOf i = 0 → node.id = i := by
    intro i hi hn hroot
    obtain ⟨node', hnode', hid, hhead, -⟩ := h.exists_node hi hn
    have hmem' : node' ∈ [node] := by
      rw [← hnode]
      exact List.mem_filter.mpr ⟨hword i hi hn node' hnode' hid, by simp [hhead, hroot]⟩
    rw [← List.mem_singleton.mp hmem', hid]
  -- the one word below the root
  have hself : node ∈ (gold.nodes.filter fun node => node.id != 0).filter
      (fun node => node.head = 0) := by
    rw [hnode]
    exact List.mem_singleton_self node
  simp only [List.mem_filter, bne_iff_ne, decide_eq_true_eq] at hself
  obtain ⟨⟨hmem', hne⟩, hhead⟩ := hself
  obtain ⟨k, hk, hkeq⟩ := List.getElem_of_mem hmem'
  have hid : node.id = k :=
    h.numbered k node (by rw [List.getElem?_eq_getElem hk, hkeq]; exact rfl)
  have hsize := h.size
  have hrange : 1 ≤ node.id ∧ node.id ≤ n := by omega
  have hroot : gold.headOf node.id = 0 := by
    simpa [hid, Tree.headOf, Tree.linksOf, List.getElem?_eq_getElem hk, hkeq] using hhead
  refine ⟨node.id, hrange.1, hrange.2, fun j hj hjn => ?_⟩
  have hiff : gold.headOf j = 0 ↔ j = node.id :=
    ⟨fun hj0 => (honly j hj hjn hj0).symm, fun heq => heq ▸ hroot⟩
  exact ⟨hiff, (hlabel j hj hjn).trans hiff⟩

end GoldTree

/-- A swap against an order of the nodes is applicable when the nodes that are not in the
order of the sentence are in that order. -/
theorem swap_applicable {n : ℕ} {order : ℤ → ℤ} {conf : Configuration}
    (hinverted : conf.inOrder.Pairwise fun a b => b < a → order a < order b)
    (hleast : ∀ i : ℤ, 1 ≤ i → i ≤ n → order 0 < order i) {top second : ℤ} {rest : List ℤ}
    (hstack : conf.stack = top :: second :: rest) (htop : 0 ≤ top) (hn : top ≤ n)
    (horder : order top < order second) : Transition.swap.applicable conf = true := by
  have hbefore : [second, top].Sublist conf.inOrder := by
    rw [Configuration.inOrder, hstack]
    simp only [List.reverse_cons, List.append_assoc, List.cons_append, List.nil_append]
    exact List.sublist_append_of_sublist_right (List.sublist_append_left [second, top] _)
  have hinverted : top < second → order second < order top := by
    simpa using hinverted.sublist hbefore
  have hne : second ≠ 0 := by
    rintro rfl
    rcases eq_or_ne top 0 with rfl | hne
    · exact lt_irrefl _ horder
    · have := hleast top (by omega) hn
      omega
  have hlt : second < top := by
    rcases lt_trichotomy second top with hlt | heq | hgt
    · exact hlt
    · exact absurd horder (heq ▸ lt_irrefl _)
    · have := hinverted hgt
      omega
  simp [Transition.applicable, hstack, hne, hlt]

/-- An order of the nodes that makes the gold tree projective, with a division into
components that are in order already. A component is named by its topmost node and
has everything below its other nodes. -/
structure Plan (n : ℕ) (gold : Tree) where
  order : ℤ → ℤ
  comp : ℤ → ℤ
  order_inj : Set.InjOn order ({i : ℤ | 0 ≤ i ∧ i ≤ n})
  root_least : ∀ i : ℤ, 1 ≤ i → i ≤ n → order 0 < order i
  projective : Forest.Projective gold.parent order ({i : ℤ | 0 ≤ i ∧ i ≤ n})
  comp_leads : ∀ i : ℤ, 0 ≤ i → i ≤ n → LeadsTo gold.parent i (comp i)
  comp_comp : ∀ i : ℤ, 0 ≤ i → i ≤ n → comp (comp i) = comp i
  comp_parent : ∀ i j, gold.parent i = some j → comp i ≠ i → comp j = comp i
  comp_child : ∀ i j, gold.parent i = some j → comp j ≠ j → comp i = comp j
  interval : ∀ a k b : ℤ, 0 ≤ a → a ≤ k → k ≤ b → b ≤ n → comp a = comp b → comp k = comp a
  increase : ∀ a b : ℤ, 0 ≤ a → a < b → b ≤ n → comp a = comp b → order a < order b

/-- The gold children of `i` are attached. -/
def Complete (gold t : Tree) (i : ℤ) : Prop := ∀ j, gold.headOf j = i → t.headOf j ≠ -1

/-- `child` can be attached to `parent` for good. -/
def Ready (gold t : Tree) (child parent : ℤ) : Prop :=
  gold.headOf child = parent ∧ Complete gold t child

/-- None of the two nodes can be attached to the other. -/
def Apart (gold t : Tree) (a b : ℤ) : Prop := ¬ Ready gold t a b ∧ ¬ Ready gold t b a

/-- Attaching a word to its gold head. -/
structure Attaches (gold t t' : Tree) (child parent : ℤ) : Prop where
  headOf : ∀ j, t'.headOf j = if child = j then parent else t.headOf j
  deprelOf : ∀ j, t'.deprelOf j = if child = j then gold.deprelOf child else t.deprelOf j
  ready : Ready gold t child parent
  parent_nonneg : 0 ≤ parent

namespace Attaches

variable {gold t t' : Tree} {child parent : ℤ} (h : Attaches gold t t' child parent)

include h

/-- An attached node stays attached. -/
theorem headOf_ne {j : ℤ} (hj : t.headOf j ≠ -1) : t'.headOf j ≠ -1 := by
  rw [h.headOf]
  split
  · have := h.parent_nonneg
    omega
  · exact hj

/-- A complete node stays complete. -/
theorem complete {i : ℤ} (hi : Complete gold t i) : Complete gold t' i :=
  fun j hj => h.headOf_ne (hi j hj)

/-- The children of other nodes than the head stay as they are. -/
theorem complete_of_ne {i : ℤ} (hne : i ≠ parent) (hi : Complete gold t' i) :
    Complete gold t i := by
  intro j hj
  have hj' := hi j hj
  rw [h.headOf] at hj'
  split at hj'
  · rename_i heq
    subst heq
    exact absurd (hj.symm.trans h.ready.1) hne
  · exact hj'

/-- Nodes apart stay apart unless one is the parent. -/
theorem apart {a b : ℤ} (ha : a ≠ parent) (hb : b ≠ parent) (hapart : Apart gold t a b) :
    Apart gold t' a b :=
  ⟨fun hready => hapart.1 ⟨hready.1, h.complete_of_ne ha hready.2⟩,
    fun hready => hapart.2 ⟨hready.1, h.complete_of_ne hb hready.2⟩⟩

/-- The arcs stay those of the gold tree. -/
theorem agree (hagree : ∀ i, t.headOf i ≠ -1 →
      t.headOf i = gold.headOf i ∧ t.deprelOf i = gold.deprelOf i) :
    ∀ i, t'.headOf i ≠ -1 → t'.headOf i = gold.headOf i ∧ t'.deprelOf i = gold.deprelOf i := by
  intro i hi
  rw [h.headOf] at hi ⊢
  rw [h.deprelOf]
  split
  · rename_i heq
    subst heq
    exact ⟨h.ready.1.symm, rfl⟩
  · rename_i hne
    rw [if_neg hne] at hi
    exact hagree i hi

/-- Attached nodes stay complete. -/
theorem keeps_complete (hcomplete : ∀ i, t.headOf i ≠ -1 → Complete gold t i) :
    ∀ i, t'.headOf i ≠ -1 → Complete gold t' i := by
  intro i hi
  rw [h.headOf] at hi
  split at hi
  · rename_i heq
    subst heq
    exact h.complete h.ready.2
  · exact h.complete (hcomplete i hi)

end Attaches

/-- The arcs made so far are gold, and an attached word has its gold children. -/
structure Agrees (n : ℕ) (gold : Tree) (conf : Configuration) : Prop where
  consistent : conf.Consistent n
  agree : ∀ i, conf.t.headOf i ≠ -1 →
    conf.t.headOf i = gold.headOf i ∧ conf.t.deprelOf i = gold.deprelOf i
  complete : ∀ i, conf.t.headOf i ≠ -1 → Complete gold conf.t i

namespace Agrees

variable {n : ℕ} {gold : Tree} (tree : IsTree n gold) {conf : Configuration}
  (h : Agrees n gold conf)

include h

/-- A node is pending if it has no head. -/
theorem mem_pending {i : ℤ} : i ∈ conf.pending ↔ 0 ≤ i ∧ i ≤ n ∧ conf.t.headOf i = -1 :=
  h.consistent.mem_pending i

/-- What is attached has nothing pending below it. -/
theorem not_mem_pending_of_leadsTo {i j : ℤ} (hj : Complete gold conf.t j)
    (hlead : Relation.TransGen (fun a b => gold.parent a = some b) i j) : i ∉ conf.pending := by
  have hattached : conf.t.headOf i ≠ -1 := by
    induction hlead using Relation.TransGen.head_induction_on with
    | single hij => exact hj _ (Tree.parent_eq_some.mp hij).1
    | head hic _ ih => exact h.complete _ ih _ (Tree.parent_eq_some.mp hic).1
  exact fun hi => hattached (h.mem_pending.mp hi).2.2

/-- A ready child is attached. -/
theorem attaches {child parent : ℤ} (hchild : child ∈ conf.pending)
    (hparent : parent ∈ conf.pending)
    (hready : Ready gold conf.t child parent) :
    Attaches gold conf.t (conf.t.setHead child parent (gold.deprelOf child)) child parent := by
  obtain ⟨hchild₀, hchildn, hfree⟩ := h.mem_pending.mp hchild
  obtain ⟨hparent₀, hparentn, _⟩ := h.mem_pending.mp hparent
  have hsize := h.consistent.size
  have hlinks := fun j => @Tree.linksOf_setHead conf.t child parent (gold.deprelOf child) hchild₀
    (by omega) (by omega) hfree j
  exact ⟨fun j => by rw [Tree.headOf, hlinks], fun j => by rw [Tree.deprelOf, hlinks], hready,
    hparent₀⟩

/-- Attaching a ready word keeps the agreement. -/
theorem attach {conf' : Configuration} {child parent : ℤ} (hconsistent : conf'.Consistent n)
    (hattach : Attaches gold conf.t conf'.t child parent) : Agrees n gold conf' :=
  ⟨hconsistent, hattach.agree h.agree, hattach.keeps_complete h.complete⟩

include tree

/-- The head of a pending word is pending. -/
theorem parent_mem_pending {i j : ℤ} (hi : i ∈ conf.pending) (hij : gold.parent i = some j) :
    j ∈ conf.pending := by
  have hrange := tree.range_of_parent hij
  refine h.mem_pending.mpr ⟨hrange.2.2.1, hrange.2.2.2, ?_⟩
  by_contra hattached
  exact h.not_mem_pending_of_leadsTo (h.complete j hattached) (.single hij) hi

/-- All that a pending node leads to is pending. -/
theorem mem_pending_of_leadsTo {i j : ℤ} (hi : i ∈ conf.pending)
    (hlead : LeadsTo gold.parent i j) : j ∈ conf.pending := by
  induction hlead with
  | refl => exact hi
  | tail _ hstep ih => exact h.parent_mem_pending tree ih hstep

end Agrees

/-- At the start there is nothing to agree on. -/
theorem agrees_init {n : ℕ} {gold : Tree} (tree : IsTree n gold) (single : Bool) :
    Agrees n gold (Configuration.init single gold) := by
  have hhead : ∀ i, (Configuration.init single gold).t.headOf i = -1 := by
    simp [Configuration.init, Tree.headOf]
  exact ⟨Configuration.consistent_init single tree.size, fun i hi => absurd (hhead i) hi,
    fun i hi => absurd (hhead i) hi⟩

/-- A member is in the first part of a list when it has the property and all members
before it do. -/
theorem mem_takeWhile_of_before {l : List ℤ} {p : ℤ → Bool} {c : ℤ} (hc : c ∈ l) (hp : p c = true)
    (hbefore : ∀ d, [d, c].Sublist l → p d = true) : c ∈ l.takeWhile p := by
  induction l with
  | nil => cases hc
  | cons x l ih =>
    by_cases heq : c = x
    · simp [← heq, hp]
    · have hc' := (List.mem_cons.mp hc).resolve_left heq
      have hx := hbefore x ((List.singleton_sublist.mpr hc').cons_cons x)
      rw [List.takeWhile_cons_of_pos hx]
      exact List.mem_cons_of_mem _ (ih hc' fun d hd => hbefore d (hd.cons x))

/-- At the start the nodes are in the order of the sentence. -/
theorem increase_init {n : ℕ} {gold : Tree} (tree : IsTree n gold) (single : Bool) :
    (Configuration.init single gold).inOrder.Pairwise (· < ·) := by
  have hsize := tree.size
  have hne : gold.nodes ≠ [] := List.ne_nil_of_length_eq_add_one hsize
  have horder : (Configuration.init single gold).inOrder =
      (List.range' 0 (n + 1)).map fun i : ℕ => (i : ℤ) := by
    simp [Configuration.inOrder, Configuration.init, hne, hsize, List.range'_succ]
  rw [horder, List.pairwise_map]
  exact (@List.pairwise_lt_range' 0 (n + 1) 1 one_pos).imp fun hlt => by exact_mod_cast hlt

namespace Plan

variable {n : ℕ} {gold : Tree} (plan : Plan n gold)

/-- The transition that the plan asks for. -/
inductive Chooses (conf : Configuration) : Transition → Prop
  | leftArc {parent child : ℤ} {rest : List ℤ} (hstack : conf.stack = parent :: child :: rest)
    (hready : Ready gold conf.t child parent) : Chooses conf (.leftArc (gold.deprelOf child))
  | rightArc {child parent : ℤ} {rest : List ℤ} (hstack : conf.stack = child :: parent :: rest)
    (hready : Ready gold conf.t child parent) : Chooses conf (.rightArc (gold.deprelOf child))
  | swap {top second : ℤ} {rest : List ℤ} (hstack : conf.stack = top :: second :: rest)
    (hapart : Apart gold conf.t top second) (horder : plan.order top < plan.order second)
    (hfront : ∀ front ∈ conf.buffer.head?, plan.comp front ≠ plan.comp top) : Chooses conf .swap
  | shift
    (hpair : ∀ top second rest, conf.stack = top :: second :: rest →
      Apart gold conf.t top second ∧ (plan.order second < plan.order top ∨
        ∃ front ∈ conf.buffer.head?, plan.comp front = plan.comp top)) : Chooses conf .shift

/-- What holds in every configuration of a run that follows the plan. -/
structure Keeps (conf : Configuration) : Prop extends Agrees n gold conf where
  /-- Nodes that are not in the order of the sentence are in the order of the plan. -/
  inverted : conf.inOrder.Pairwise fun a b => b < a → plan.order a < plan.order b
  /-- The pending nodes of a component are next to each other. -/
  contiguous : ∀ a k b, [a, k, b].Sublist conf.inOrder → plan.comp a = plan.comp b →
    plan.comp k = plan.comp a
  /-- In the stack, only the component of the top has more than one node. -/
  sole : ∀ top rest, conf.stack = top :: rest → ∀ b ∈ rest, plan.comp b ≠ plan.comp top →
    ∀ c ∈ conf.pending, plan.comp c = plan.comp b → c = b
  /-- Below the top, neighbours are apart, and in the order of the plan but for the
  component of the top. -/
  waiting : ∀ top rest, conf.stack = top :: rest → ∀ b d, [b, d] <:+: rest →
    Apart gold conf.t b d ∧ (plan.comp b = plan.comp top ∨ plan.order d < plan.order b)

/-- Two neighbours may be exchanged if they are in the relation. -/
theorem pairwise_exchange {r : ℤ → ℤ → Prop} {x y : ℤ} {pre post : List ℤ} (hyx : r y x)
    (h : (pre ++ x :: y :: post).Pairwise r) : (pre ++ y :: x :: post).Pairwise r := by
  obtain ⟨hpre, htail, hcross⟩ := List.pairwise_append.mp h
  obtain ⟨hx, hy⟩ := List.pairwise_cons.mp htail
  obtain ⟨hy', hpost⟩ := List.pairwise_cons.mp hy
  refine List.pairwise_append.mpr ⟨hpre, List.pairwise_cons.mpr ⟨?_, List.pairwise_cons.mpr
    ⟨fun a ha => hx a (List.mem_cons_of_mem _ ha), hpost⟩⟩, fun a ha b hb => hcross a ha b ?_⟩
  · rintro a (_ | ⟨_, ha⟩)
    · exact hyx
    · exact hy' a ha
  · simp only [List.mem_cons] at hb ⊢
    tauto

/-- A sublist without an element is one of the others. -/
private theorem sublist_without {x : ℤ} {l pre post : List ℤ} (h : l.Sublist (pre ++ x :: post))
    (hx : x ∉ l) : l.Sublist (pre ++ post) := by
  have hfilter := h.filter (· != x)
  have hself : l.filter (· != x) = l := by
    rw [List.filter_eq_self]
    rintro a ha
    have hne : a ≠ x := fun heq => hx (heq ▸ ha)
    simpa using hne
  rw [hself] at hfilter
  apply hfilter.trans
  simp only [List.filter_append, List.filter_cons, bne_self_eq_false, Bool.false_eq_true, if_false]
  exact List.filter_sublist.append List.filter_sublist

/-- A list is in order if its neighbours are. -/
private theorem pairwise_of_pairs {l : List ℤ}
    (h : ∀ a b, [a, b] <:+: l → plan.order b < plan.order a) :
    l.Pairwise fun a b => plan.order b < plan.order a := by
  have htrans : Trans (fun a b => plan.order b < plan.order a)
      (fun a b => plan.order b < plan.order a) (fun a b => plan.order b < plan.order a) :=
    ⟨fun hab hbc => lt_trans hbc hab⟩
  rw [← List.isChain_iff_pairwise, List.isChain_iff_forall_rel_of_append_cons_cons]
  rintro a b pre post rfl
  exact h a b ⟨pre, post, by simp⟩

namespace Keeps

variable {plan} (tree : IsTree n gold) {conf : Configuration} (h : plan.Keeps conf)

include tree h

/-- Two or more nodes at one place of the stack, with their heads and in the order
of the plan, have a pair among them that is ready. -/
theorem exists_ready {pre l post : List ℤ} {root : ℤ} (hstack : conf.stack = pre ++ l ++ post)
    (hup : Forest.UpClosed gold.parent root {a | a ∈ l})
    (hsorted : l.Pairwise fun a b => plan.order b < plan.order a)
    (hdown : ∀ y ∈ l, y ≠ root → ∀ z ∈ conf.pending, gold.parent z = some y → z ∈ l)
    (hlength : 2 ≤ l.length) : ∃ a b, [a, b] <:+: l ∧ ¬ Apart gold conf.t a b := by
  have hpending : ∀ a ∈ l, a ∈ conf.pending := by
    intro a ha
    simp [Configuration.pending, hstack, ha]
  have hproj : Forest.Projective gold.parent plan.order {a | a ∈ l} := by
    intro c hc p k hcp hk hbetween
    have hrange := fun a ha => h.mem_pending.mp (hpending a ha)
    exact plan.projective c ⟨(hrange c hc).1, (hrange c hc).2.1⟩ p k hcp
      ⟨(hrange k hk).1, (hrange k hk).2.1⟩ hbetween
  obtain ⟨pre', a, b, post', rfl, hor⟩ := hup.exists_adjacent tree.isForest hproj hsorted hlength
  have hready : ∀ c p, c ∈ pre' ++ a :: b :: post' → c ≠ root → gold.parent c = some p →
      (∀ z ∈ pre' ++ a :: b :: post', gold.parent z ≠ some c) → Ready gold conf.t c p := by
    intro c p hc hne hcp hleaf
    refine ⟨(Tree.parent_eq_some.mp hcp).1, fun z hz hpending' => ?_⟩
    have hrange := h.mem_pending.mp (hpending c hc)
    have hzc : gold.parent z = some c := Tree.parent_eq_some.mpr ⟨hz, hrange.1⟩
    have hz' := tree.range_of_parent hzc
    exact hleaf z (hdown c hc hne z (h.mem_pending.mpr ⟨by omega, hz'.2.1, hpending'⟩) hzc) hzc
  refine ⟨a, b, ⟨pre', post', by simp⟩, fun hapart => ?_⟩
  rcases hor with ⟨hne, hab, hleaf⟩ | ⟨hne, hba, hleaf⟩
  · exact hapart.1 (hready a b (by simp) hne hab hleaf)
  · exact hapart.2 (hready b a (by simp) hne hba hleaf)

omit tree

/-- Within a component, earlier nodes come first in the plan. -/
theorem sorted : conf.inOrder.Pairwise fun a b =>
    plan.comp a = plan.comp b → plan.order a < plan.order b := by
  have hnodup : conf.inOrder.Nodup :=
    conf.inOrder_perm_pending.nodup_iff.mpr h.consistent.nodup
  have hrange : ∀ a ∈ conf.inOrder, 0 ≤ a ∧ a ≤ n := by
    intro a ha
    have ha' := conf.inOrder_perm_pending.subset ha
    exact ⟨(h.mem_pending.mp ha').1, (h.mem_pending.mp ha').2.1⟩
  apply List.Pairwise.imp_of_mem _ (h.inverted.and hnodup)
  intro a b ha hb ⟨hinverted, hne⟩ hcomp
  rcases lt_or_gt_of_ne hne with hlt | hgt
  · exact plan.increase a b (hrange a ha).1 hlt (hrange b hb).2 hcomp
  · have hback := plan.increase b a (hrange b hb).1 hgt (hrange a ha).2 hcomp.symm
    exact absurd (hinverted hgt) (not_lt_of_gt hback)

/-- The nodes on the stack that belong to the component of the top. -/
private theorem mem_segment {top : ℤ} {rest : List ℤ} (hstack : conf.stack = top :: rest)
    (hfront : ∀ front ∈ conf.buffer.head?, plan.comp front ≠ plan.comp top) {c : ℤ}
    (hc : c ∈ conf.pending) (hcomp : plan.comp c = plan.comp top) :
    c ∈ (top :: rest).takeWhile fun a => plan.comp a = plan.comp top := by
  have hcontiguous := h.contiguous
  rw [Configuration.pending, hstack] at hc
  rw [Configuration.inOrder, hstack] at hcontiguous
  rcases List.mem_append.mp hc with hc | hc
  · refine mem_takeWhile_of_before hc (by simpa using hcomp) fun d hd => ?_
    rcases List.sublist_cons_iff.mp hd with hd | ⟨r, heq, hr⟩
    · -- what is between the top and a node of its component is in it
      have hrev : [c, d, top].Sublist ((top :: rest).reverse ++ conf.buffer) :=
        List.sublist_append_of_sublist_left (by simpa using (hd.cons_cons top).reverse)
      simpa using (hcontiguous c d top hrev hcomp).trans hcomp
    · cases heq
      simp
  · obtain ⟨front, buffer, hbuffer⟩ := List.exists_cons_of_ne_nil (List.ne_nil_of_mem hc)
    rw [hbuffer] at hc hfront hcontiguous
    have hfront' := hfront front rfl
    rcases List.mem_cons.mp hc with rfl | hc
    · exact absurd hcomp hfront'
    · have hsub : [top, front, c].Sublist ((top :: rest).reverse ++ front :: buffer) := by
        have htop : [top].Sublist (top :: rest).reverse :=
          List.singleton_sublist.mpr (List.mem_reverse.mpr List.mem_cons_self)
        exact htop.append ((List.singleton_sublist.mpr hc).cons_cons front)
      exact absurd (hcontiguous top front c hsub hcomp.symm) hfront'

include tree

/-- When the rest of its component is not in the buffer and the top is apart from the
next node, the top is all that is left of its component. -/
theorem sole_top {top : ℤ} {rest : List ℤ} (hstack : conf.stack = top :: rest)
    (hfront : ∀ front ∈ conf.buffer.head?, plan.comp front ≠ plan.comp top)
    (hapart : ∀ second rest', rest = second :: rest' → Apart gold conf.t top second) :
    ∀ c ∈ conf.pending, plan.comp c = plan.comp top → c = top := by
  intro c hc hcomp
  by_contra hne
  let l := (top :: rest).takeWhile fun a => plan.comp a = plan.comp top
  have hcons : l = top :: rest.takeWhile fun a => plan.comp a = plan.comp top := by simp [l]
  have hl : top :: rest = l ++ (top :: rest).dropWhile fun a => plan.comp a = plan.comp top :=
    List.takeWhile_append_dropWhile.symm
  have hmem : ∀ c ∈ conf.pending, plan.comp c = plan.comp top → c ∈ l := fun c hc hcomp =>
    h.mem_segment hstack hfront hc hcomp
  have hof : ∀ a ∈ l, a ∈ conf.pending ∧ plan.comp a = plan.comp top := by
    intro a ha
    refine ⟨?_, by simpa using List.mem_takeWhile_imp ha⟩
    rw [Configuration.pending, hstack, hl]
    simp [ha]
  have hrange := fun a (ha : a ∈ l) => h.mem_pending.mp (hof a ha).1
  have htop : top ∈ l := by simp [l]
  have hparent : ∀ a ∈ l, a ≠ plan.comp top → ∃ b ∈ l, gold.parent a = some b := by
    intro a ha hroot
    have hne : plan.comp a ≠ a := fun heq => hroot ((hof a ha).2 ▸ heq).symm
    rcases (plan.comp_leads a (hrange a ha).1 (hrange a ha).2.1).cases_head with heq | ⟨b, hb, _⟩
    · exact absurd heq.symm hne
    · exact ⟨b, hmem b (h.parent_mem_pending tree (hof a ha).1 hb)
        ((plan.comp_parent a b hb hne).trans (hof a ha).2), hb⟩
  have hup : Forest.UpClosed gold.parent (plan.comp top) {a | a ∈ l} := by
    have hrange' := h.mem_pending.mp (hof top htop).1
    exact ⟨hmem _ (h.mem_pending_of_leadsTo tree (hof top htop).1
      (plan.comp_leads top hrange'.1 hrange'.2.1)) (plan.comp_comp top hrange'.1 hrange'.2.1),
      hparent⟩
  have hsorted : l.Pairwise fun a b => plan.order b < plan.order a := by
    have hall := h.sorted
    rw [Configuration.inOrder, hstack, hl, List.reverse_append] at hall
    have hrev := (List.pairwise_append.mp (List.pairwise_append.mp hall).1).2.1
    apply List.Pairwise.imp_of_mem _ (List.pairwise_reverse.mp hrev)
    intro a b ha hb horder
    exact horder ((hof b hb).2.trans (hof a ha).2.symm)
  have hdown : ∀ y ∈ l, y ≠ plan.comp top → ∀ z ∈ conf.pending, gold.parent z = some y →
      z ∈ l := by
    intro y hy hroot z hz hzy
    have hne : plan.comp y ≠ y := fun heq => hroot ((hof y hy).2 ▸ heq).symm
    exact hmem z hz ((plan.comp_child z y hzy hne).trans (hof y hy).2)
  have hlength : 2 ≤ l.length := by
    have hc' := hmem c hc hcomp
    rw [hcons] at hc' ⊢
    have := List.length_pos_of_mem ((List.mem_cons.mp hc').resolve_left hne)
    simp only [List.length_cons]
    omega
  obtain ⟨a, b, hpiece, hnot⟩ := @exists_ready n gold plan tree conf h [] l _ (plan.comp top)
    (hstack.trans hl) hup hsorted hdown hlength
  rw [hcons] at hpiece
  rcases List.infix_cons_iff.mp hpiece with hprefix | hbelow
  · obtain ⟨rfl, hprefix'⟩ := List.cons_prefix_cons.mp hprefix
    obtain ⟨rest', hrest⟩ := hprefix'.trans (List.takeWhile_prefix _)
    exact hnot (hapart b rest' hrest.symm)
  · exact hnot (h.waiting top rest hstack a b
      (hbelow.trans (List.takeWhile_prefix _).isInfix)).1

/-- Nothing is left to do where the plan shifts and the buffer is empty. -/
theorem final_of_shift (hchoose : plan.Chooses conf .shift) (hbuffer : conf.buffer = []) :
    conf.final = true := by
  rw [Configuration.final_iff]
  refine ⟨hbuffer, ?_⟩
  match hstack : conf.stack with
  | [] => simp
  | [a] => simp
  | top :: second :: rest =>
    exfalso
    obtain hpair : ∀ top second rest, conf.stack = top :: second :: rest →
        Apart gold conf.t top second ∧ (plan.order second < plan.order top ∨
          ∃ front ∈ conf.buffer.head?, plan.comp front = plan.comp top) := by
      cases hchoose
      assumption
    obtain ⟨hapart, horder⟩ := hpair top second rest hstack
    have hpending : conf.pending = top :: second :: rest := by
      simp [Configuration.pending, hstack, hbuffer]
    have hnodup := h.consistent.nodup
    have hbottom := h.consistent.bottom
    rw [hpending] at hnodup
    have hsole := h.sole_top tree hstack (by simp [hbuffer]) (by rintro a l ⟨⟩; exact hapart)
    -- the whole stack is in the order of the plan
    have hsorted : (top :: second :: rest).Pairwise fun a b => plan.order b < plan.order a := by
      apply pairwise_of_pairs plan
      intro a b hpiece
      rcases List.infix_cons_iff.mp hpiece with hprefix | hbelow
      · obtain ⟨rfl, hprefix'⟩ := List.cons_prefix_cons.mp hprefix
        obtain ⟨rfl, _⟩ := List.cons_prefix_cons.mp hprefix'
        simpa [hbuffer] using horder
      · refine (h.waiting top _ hstack a b hbelow).2.resolve_left fun hcomp => ?_
        have ha : a ∈ second :: rest := hbelow.subset (by simp)
        obtain rfl := hsole a (hpending ▸ List.mem_cons_of_mem _ ha) hcomp
        exact (List.nodup_cons.mp hnodup).1 ha
    have hup : Forest.UpClosed gold.parent 0 {a | a ∈ top :: second :: rest} := by
      refine ⟨hpending ▸ h.consistent.zero_mem, fun a ha hne => ?_⟩
      have ha' : a ∈ conf.pending := hpending ▸ ha
      have hrange := h.mem_pending.mp ha'
      have hparent := tree.exists_parent (by omega) hrange.2.1
      exact ⟨_, hpending ▸ h.parent_mem_pending tree ha' hparent, hparent⟩
    obtain ⟨a, b, hpiece, hnot⟩ := @exists_ready n gold plan tree conf h [] _ [] 0
      (by simp [hstack]) hup hsorted (fun _ _ _ z hz _ => hpending ▸ hz) (by simp)
    rcases List.infix_cons_iff.mp hpiece with hprefix | hbelow
    · obtain ⟨rfl, hprefix'⟩ := List.cons_prefix_cons.mp hprefix
      obtain ⟨rfl, _⟩ := List.cons_prefix_cons.mp hprefix'
      exact hnot hapart
    · exact hnot (h.waiting top _ hstack a b hbelow).1

/-- With a single root, the word below the root is attached last. -/
theorem buffer_eq_nil {child : ℤ} (hstack : conf.stack = [child, 0])
    (hready : Ready gold conf.t child 0) (hrooted : SingleRooted n gold) : conf.buffer = [] := by
  by_contra hne
  obtain ⟨front, buffer, hbuffer⟩ := List.exists_cons_of_ne_nil hne
  have hpending : conf.pending = child :: 0 :: front :: buffer := by
    simp [Configuration.pending, hstack, hbuffer]
  have hnodup := h.consistent.nodup
  rw [hpending] at hnodup
  have hfront : front ∈ conf.pending := by simp [hpending]
  have hrange := h.mem_pending.mp hfront
  have hne : front ≠ 0 := by
    rintro rfl
    simp at hnodup
  have hlead := tree.reaches_root front (by omega) hrange.2.1
  obtain ⟨i, hi, hroot⟩ := (Relation.ReflTransGen.cases_tail hlead).resolve_left hne.symm
  obtain ⟨j, _, _, honly⟩ := hrooted
  have hij := (tree.range_of_parent hroot)
  have hchild := tree.range_of_parent (Tree.parent_eq_some.mpr ⟨hready.1, le_rfl⟩)
  have heq : i = child := ((honly i hij.1 hij.2.1).1.mp (Tree.parent_eq_some.mp hroot).1).trans
    ((honly child hchild.1 hchild.2.1).1.mp hready.1).symm
  subst heq
  rcases Relation.reflTransGen_iff_eq_or_transGen.mp hi with rfl | hi
  · simp at hnodup
  · exact h.not_mem_pending_of_leadsTo hready.2 hi hfront

/-- What the plan asks for is applicable. -/
theorem applicable {tr : Transition} (hchoose : plan.Chooses conf tr)
    (hfinal : conf.final = false) (hrooted : conf.singleRoot = true → SingleRooted n gold) :
    tr.applicable conf = true := by
  have hnodup := h.consistent.nodup
  have hbottom := h.consistent.bottom
  have hpending : ∀ a ∈ conf.stack, a ∈ conf.pending := fun a ha => List.mem_append_left _ ha
  cases hchoose with
  | @leftArc parent child rest hstack hready =>
    rw [hstack] at hpending hbottom
    rw [Configuration.pending, hstack] at hnodup
    have hparent : 0 ≤ parent := (h.mem_pending.mp (hpending parent (by simp))).1
    have harc := Tree.parent_eq_some.mpr ⟨hready.1, hparent⟩
    have hne : parent ≠ 0 := ne_zero_of_above hbottom (by simp) hnodup
    have hchild : child ≠ 0 := by
      have := tree.range_of_parent harc
      omega
    have hlabel : (conf.singleRoot && gold.deprelOf child == rootLabel) = false := by
      cases hsingle : conf.singleRoot with
      | false => rfl
      | true => simpa [tree.deprelOf_eq_rootLabel (hrooted hsingle) harc] using hne
    simp [Transition.applicable, hlabel, hstack, hchild]
  | @rightArc child parent rest hstack hready =>
    rw [hstack] at hpending hbottom
    rw [Configuration.pending, hstack] at hnodup
    have hparent : 0 ≤ parent := (h.mem_pending.mp (hpending parent (by simp))).1
    have harc := Tree.parent_eq_some.mpr ⟨hready.1, hparent⟩
    have hbottom' : (parent :: rest).getLast? = some 0 := by simpa using hbottom
    cases hsingle : conf.singleRoot with
    | false => simp [Transition.applicable, hsingle, hstack]
    | true =>
      have hlabel := tree.deprelOf_eq_rootLabel (hrooted hsingle) harc
      have hrest : parent = 0 ↔ rest = [] := by
        constructor
        · rintro rfl
          by_contra hne
          exact ne_zero_of_above hbottom' hne hnodup.of_cons rfl
        · rintro rfl
          simpa using hbottom'
      by_cases hzero : parent = 0
      · obtain rfl := hrest.mp hzero
        subst hzero
        have hbuffer := h.buffer_eq_nil tree hstack hready (hrooted hsingle)
        simp [Transition.applicable, hlabel, hsingle, hstack, hbuffer]
      · have hne := fun hnil => hzero (hrest.mpr hnil)
        have := List.length_pos_of_ne_nil hne
        have hlabel' : (gold.deprelOf child == rootLabel) = false := by
          simpa using fun heq => hzero (hlabel.mp heq)
        simp only [Transition.applicable, hlabel', hsingle, hstack, Bool.and_false,
          Bool.false_eq_true, if_false, if_true, List.length_cons, decide_eq_true_eq]
        omega
  | @swap top second rest hstack hapart horder hfront =>
    have htop := h.mem_pending.mp (hpending top (by simp [hstack]))
    exact swap_applicable h.inverted plan.root_least hstack htop.1 htop.2.1 horder
  | shift hpair =>
    have hbuffer : conf.buffer ≠ [] := by
      intro hnil
      rw [h.final_of_shift tree (.shift hpair) hnil] at hfinal
      cases hfinal
    simp [Transition.applicable, hbuffer]

/-- A shift keeps the invariant: before the next component is started, the one of the
top is down to one node. -/
theorem shift {t : Tree} {front : ℤ} {stack buffer : List ℤ} {single : Bool}
    (hconf : conf = ⟨t, stack, front :: buffer, single⟩) (hchoose : plan.Chooses conf .shift) :
    plan.Keeps ⟨t, front :: stack, buffer, single⟩ := by
  subst hconf
  have horder : Configuration.inOrder ⟨t, front :: stack, buffer, single⟩ =
      Configuration.inOrder ⟨t, stack, front :: buffer, single⟩ := by
    simp [Configuration.inOrder]
  have hpending : ∀ c ∈ Configuration.pending ⟨t, front :: stack, buffer, single⟩,
      c ∈ Configuration.pending ⟨t, stack, front :: buffer, single⟩ := by
    intro c hc
    simp only [Configuration.pending, List.cons_append, List.mem_cons, List.mem_append] at hc ⊢
    tauto
  obtain ⟨top, rest, rfl⟩ : ∃ top rest, stack = top :: rest :=
    List.exists_cons_of_ne_nil fun hnil => by simpa [hnil] using h.consistent.bottom
  obtain hpair : ∀ second rest', rest = second :: rest' → Apart gold t top second ∧
      (plan.order second < plan.order top ∨ plan.comp front = plan.comp top) := by
    intro second rest' hrest
    cases hchoose with
    | shift hpair => simpa using hpair top second rest' (by rw [hrest])
  have hsole : plan.comp front ≠ plan.comp top →
      ∀ c ∈ Configuration.pending ⟨t, top :: rest, front :: buffer, single⟩,
        plan.comp c = plan.comp top → c = top := fun hne =>
    h.sole_top tree rfl (by simpa using hne) fun second rest' hrest => (hpair second rest' hrest).1
  have htop : top ∉ rest := (List.nodup_cons.mp (List.nodup_append.mp h.consistent.nodup).1).1
  refine ⟨⟨h.consistent.step .shift, h.agree, h.complete⟩, horder ▸ h.inverted,
    horder ▸ h.contiguous, ?_, ?_⟩
  · rintro _ _ ⟨⟩ b hb hne c hc hcomp
    by_cases hbtop : plan.comp b = plan.comp top
    · have hfront : plan.comp front ≠ plan.comp top := fun heq => hne (hbtop.trans heq.symm)
      have hb' : b ∈ Configuration.pending ⟨t, top :: rest, front :: buffer, single⟩ :=
        List.mem_append_left _ hb
      exact (hsole hfront c (hpending c hc) (hcomp.trans hbtop)).trans
        (hsole hfront b hb' hbtop).symm
    · have hb' : b ∈ rest := (List.mem_cons.mp hb).resolve_left fun heq => hbtop (heq ▸ rfl)
      exact h.sole top rest rfl b hb' hbtop c (hpending c hc) hcomp
  · rintro _ _ ⟨⟩ b d hpiece
    rcases List.infix_cons_iff.mp hpiece with hprefix | hbelow
    · obtain ⟨rfl, hprefix'⟩ := List.cons_prefix_cons.mp hprefix
      obtain ⟨rest', rfl⟩ := hprefix'
      obtain ⟨hapart, hor⟩ := hpair d rest' rfl
      exact ⟨hapart, hor.symm.imp_left Eq.symm⟩
    · obtain ⟨hapart, hor⟩ := h.waiting top rest rfl b d hbelow
      refine ⟨hapart, ?_⟩
      by_cases hfront : plan.comp front = plan.comp top
      · rwa [hfront]
      · refine .inr (hor.resolve_left fun hcomp => htop ?_)
        have hb : b ∈ rest := hbelow.subset (by simp)
        have hb' : b ∈ Configuration.pending ⟨t, top :: rest, front :: buffer, single⟩ :=
          List.mem_append_left _ (List.mem_cons_of_mem _ hb)
        exact hsole hfront b hb' hcomp ▸ hb

/-- A swap keeps the invariant: it exchanges two components of one node each. -/
theorem swap {t : Tree} {top second : ℤ} {rest buffer : List ℤ} {single : Bool}
    (hconf : conf = ⟨t, top :: second :: rest, buffer, single⟩) (hchoose : plan.Chooses conf .swap)
    (hstep : Step conf ⟨t, top :: rest, second :: buffer, single⟩) :
    plan.Keeps ⟨t, top :: rest, second :: buffer, single⟩ := by
  subst hconf
  obtain ⟨hapart, horder, hfront⟩ : Apart gold t top second ∧
      plan.order top < plan.order second ∧
        ∀ front ∈ buffer.head?, plan.comp front ≠ plan.comp top := by
    cases hchoose with
    | swap hstack hapart horder hfront =>
      cases hstack
      exact ⟨hapart, horder, hfront⟩
  have htop := h.sole_top tree rfl hfront (by rintro _ _ ⟨⟩; exact hapart)
  have hpending : ∀ c, c ∈ Configuration.pending ⟨t, top :: rest, second :: buffer, single⟩ →
      c ∈ Configuration.pending ⟨t, top :: second :: rest, buffer, single⟩ := by
    intro c hc
    simp only [Configuration.pending, List.cons_append, List.mem_cons, List.mem_append] at hc ⊢
    tauto
  have hnodup := h.consistent.nodup
  have hne : second ≠ top := by
    rintro rfl
    exact lt_irrefl _ horder
  have hcomp : plan.comp second ≠ plan.comp top := fun heq =>
    hne (htop second (by simp [Configuration.pending]) heq)
  have hsecond := h.sole top _ rfl second (by simp) hcomp
  have hbefore : Configuration.inOrder ⟨t, top :: second :: rest, buffer, single⟩ =
      rest.reverse ++ second :: top :: buffer := by simp [Configuration.inOrder]
  have hafter : Configuration.inOrder ⟨t, top :: rest, second :: buffer, single⟩ =
      rest.reverse ++ top :: second :: buffer := by simp [Configuration.inOrder]
  have hinverted := h.inverted
  have hcontiguous := h.contiguous
  rw [hbefore] at hinverted hcontiguous
  refine ⟨⟨h.consistent.step hstep, h.agree, h.complete⟩, ?_, ?_, ?_, ?_⟩
  · rw [hafter]
    exact pairwise_exchange (fun _ => horder) hinverted
  · rw [hafter]
    intro a k b hsub hab
    have hnodup' : [a, k, b].Nodup := by
      apply hsub.nodup
      rw [← hafter, (Configuration.inOrder_perm_pending _).nodup_iff]
      exact (h.consistent.step hstep).nodup
    have hmem : ∀ c ∈ [a, k, b],
        c ∈ Configuration.pending ⟨t, top :: second :: rest, buffer, single⟩ := by
      intro c hc
      apply hpending
      apply (Configuration.inOrder_perm_pending _).subset
      rw [hafter]
      exact hsub.subset hc
    have hends : ∀ x, (∀ c ∈ Configuration.pending ⟨t, top :: second :: rest, buffer, single⟩,
        plan.comp c = plan.comp x → c = x) → a ≠ x ∧ b ≠ x := by
      intro x hx
      have hab' : a ≠ b := by
        rintro rfl
        simp at hnodup'
      constructor
      · rintro rfl
        exact hab' (hx b (hmem b (by simp)) hab.symm).symm
      · rintro rfl
        exact hab' (hx a (hmem a (by simp)) hab)
    -- at most one of the exchanged nodes is there, so the nodes stood like this before
    have hold : [a, k, b].Sublist (rest.reverse ++ second :: top :: buffer) := by
      by_cases hk : k = second
      · have hout : top ∉ [a, k, b] := by
          simpa [hk, hne.symm, eq_comm] using hends top htop
        exact (sublist_without hsub hout).trans
          (((List.sublist_cons_self top buffer).cons_cons second).append_left _)
      · have hout : second ∉ [a, k, b] := by
          have := hends second hsecond
          simp only [List.mem_cons, List.not_mem_nil, or_false, not_or]
          exact ⟨this.1.symm, Ne.symm hk, this.2.symm⟩
        rw [show rest.reverse ++ top :: second :: buffer =
          (rest.reverse ++ [top]) ++ second :: buffer by simp] at hsub
        apply (sublist_without hsub hout).trans
        simp
    exact hcontiguous a k b hold hab
  · rintro _ _ ⟨⟩ b hb hne' c hc
    exact h.sole top _ rfl b (List.mem_cons_of_mem _ hb) hne' c (hpending c hc)
  · rintro _ _ ⟨⟩ b d hpiece
    exact h.waiting top _ rfl b d (hpiece.trans (List.suffix_cons second rest).isInfix)

omit tree in
/-- An arc to the left keeps the invariant. -/
theorem leftArc {t : Tree} {parent child : ℤ} {rest buffer : List ℤ} {single : Bool}
    (hconf : conf = ⟨t, parent :: child :: rest, buffer, single⟩)
    (hready : Ready gold t child parent)
    (hstep : Step conf
      ⟨t.setHead child parent (gold.deprelOf child), parent :: rest, buffer, single⟩) :
    plan.Keeps ⟨t.setHead child parent (gold.deprelOf child), parent :: rest, buffer, single⟩ := by
  subst hconf
  have hattach := h.attaches (by simp [Configuration.pending]) (by simp [Configuration.pending])
    hready
  have hsub : (Configuration.inOrder ⟨t.setHead child parent (gold.deprelOf child),
      parent :: rest, buffer, single⟩).Sublist
      (Configuration.inOrder ⟨t, parent :: child :: rest, buffer, single⟩) := by
    simp only [Configuration.inOrder]
    exact List.Sublist.append_right
      (((List.sublist_cons_self child rest).cons_cons parent).reverse) buffer
  have hnodup := h.consistent.nodup
  have hparent : ∀ b ∈ rest, b ≠ parent := by
    rintro b hb rfl
    simp [Configuration.pending, hb] at hnodup
  refine ⟨h.attach (h.consistent.step hstep) hattach,
    h.inverted.sublist hsub, fun a k b hakb => h.contiguous a k b (hakb.trans hsub), ?_, ?_⟩
  · rintro _ _ ⟨⟩ b hb hne c hc
    apply h.sole parent _ rfl b (List.mem_cons_of_mem _ hb) hne c
    simp only [Configuration.pending, List.cons_append, List.mem_cons, List.mem_append] at hc ⊢
    tauto
  · rintro _ _ ⟨⟩ b d hpiece
    obtain ⟨hapart, hor⟩ :=
      h.waiting parent _ rfl b d (hpiece.trans (List.suffix_cons child rest).isInfix)
    have hb := hparent b (hpiece.subset (by simp))
    have hd := hparent d (hpiece.subset (by simp))
    exact ⟨hattach.apart hb hd hapart, hor⟩

omit tree in
/-- An arc to the right keeps the invariant: the head is the next top, and nothing of
the component of the child is left when the head is in another one. -/
theorem rightArc {t : Tree} {child parent : ℤ} {rest buffer : List ℤ} {single : Bool}
    (hconf : conf = ⟨t, child :: parent :: rest, buffer, single⟩)
    (hready : Ready gold t child parent)
    (hstep : Step conf
      ⟨t.setHead child parent (gold.deprelOf child), parent :: rest, buffer, single⟩) :
    plan.Keeps ⟨t.setHead child parent (gold.deprelOf child), parent :: rest, buffer, single⟩ := by
  subst hconf
  have hattach := h.attaches (by simp [Configuration.pending]) (by simp [Configuration.pending])
    hready
  have hsub : (Configuration.inOrder ⟨t.setHead child parent (gold.deprelOf child),
      parent :: rest, buffer, single⟩).Sublist
      (Configuration.inOrder ⟨t, child :: parent :: rest, buffer, single⟩) := by
    simp only [Configuration.inOrder]
    exact List.Sublist.append_right ((List.sublist_cons_self child _).reverse) buffer
  have hnodup := h.consistent.nodup
  have hbelow : ∀ b ∈ rest, b ≠ parent ∧ b ≠ child ∧
      b ∈ Configuration.pending ⟨t, child :: parent :: rest, buffer, single⟩ := by
    intro b hb
    refine ⟨?_, ?_, by simp [Configuration.pending, hb]⟩ <;> rintro rfl <;>
      simp [Configuration.pending, hb] at hnodup
  have hgone : ∀ b ∈ rest, plan.comp b = plan.comp child →
      plan.comp parent = plan.comp child := by
    intro b hb hcomp
    by_contra hne
    obtain ⟨-, hbc, hpending⟩ := hbelow b hb
    have hself : plan.comp child = child := by
      by_contra hself
      exact hne (plan.comp_parent child parent
        (Tree.parent_eq_some.mpr ⟨hready.1, hattach.parent_nonneg⟩) hself)
    have hrange := h.mem_pending.mp hpending
    have hlead := plan.comp_leads b hrange.1 hrange.2.1
    rw [hcomp, hself] at hlead
    rcases Relation.reflTransGen_iff_eq_or_transGen.mp hlead with heq | hlead
    · exact hbc heq.symm
    · exact h.not_mem_pending_of_leadsTo hready.2 hlead hpending
  refine ⟨h.attach (h.consistent.step hstep) hattach,
    h.inverted.sublist hsub, fun a k b hakb => h.contiguous a k b (hakb.trans hsub), ?_, ?_⟩
  · rintro _ _ ⟨⟩ b hb hne c hc
    have hne' : plan.comp b ≠ plan.comp child := fun heq => hne (heq.trans (hgone b hb heq).symm)
    apply h.sole child _ rfl b (List.mem_cons_of_mem _ hb) hne' c
    simp only [Configuration.pending, List.cons_append, List.mem_cons, List.mem_append] at hc ⊢
    tauto
  · rintro _ _ ⟨⟩ b d hpiece
    have hb : b ∈ rest := hpiece.subset (by simp)
    have hd : d ∈ rest := hpiece.subset (by simp)
    obtain ⟨hapart, hor⟩ :=
      h.waiting child _ rfl b d (hpiece.trans (List.suffix_cons parent rest).isInfix)
    refine ⟨hattach.apart (hbelow b hb).1 (hbelow d hd).1 hapart, hor.imp_left fun hcomp => ?_⟩
    exact hcomp.trans (hgone b hb hcomp).symm

end Keeps

/-! ### Runs that follow a plan -/

/-- The invariant holds at the start. -/
theorem keeps_init (tree : IsTree n gold) (single : Bool) :
    plan.Keeps (Configuration.init single gold) := by
  have hstack : (Configuration.init single gold).stack = [0] := by
    have hne : gold.nodes ≠ [] := List.ne_nil_of_length_eq_add_one tree.size
    simp [Configuration.init, hne]
  have hincrease := increase_init tree single
  have hmem : ∀ i ∈ (Configuration.init single gold).inOrder, 0 ≤ i ∧ i ≤ n := fun i hi =>
    have hi' := (agrees_init tree single).mem_pending.mp
      ((Configuration.inOrder_perm_pending _).subset hi)
    ⟨hi'.1, hi'.2.1⟩
  refine ⟨agrees_init tree single, ?_, fun a k b hsub hcomp => ?_, ?_, ?_⟩
  · exact hincrease.imp fun hlt hgt => absurd hlt (not_lt_of_gt hgt)
  · have hpairs := hincrease.sublist hsub
    simp only [List.pairwise_cons, List.mem_cons, List.not_mem_nil, or_false, forall_eq_or_imp,
      forall_eq] at hpairs
    have ha := hmem a (hsub.subset (by simp))
    have hb := hmem b (hsub.subset (by simp))
    exact plan.interval a k b ha.1 (le_of_lt hpairs.1.1) (le_of_lt hpairs.2.1) hb.2 hcomp
  · intro top rest htop b hb
    rw [hstack] at htop
    cases htop
    cases hb
  · intro top rest htop b d hpiece
    rw [hstack] at htop
    cases htop
    simp at hpiece

variable {plan}

/-- What the plan asks for is applicable and keeps the invariant. -/
theorem Keeps.next (tree : IsTree n gold) {conf : Configuration} (h : plan.Keeps conf)
    {tr : Transition} (hchoose : plan.Chooses conf tr) (hfinal : conf.final = false)
    (hrooted : conf.singleRoot = true → SingleRooted n gold) :
    tr.applicable conf = true ∧ ∃ conf' child, tr.perform conf = some (conf', child) ∧
      plan.Keeps conf' ∧ conf'.singleRoot = conf.singleRoot ∧
        conf'.remaining < conf.remaining := by
  have happlicable := h.applicable tree hchoose hfinal hrooted
  refine ⟨happlicable, ?_⟩
  have hstep : ∀ {conf' child}, tr.perform conf = some (conf', child) → Step conf conf' :=
    fun hperform => step_of_perform happlicable hperform
  obtain ⟨t, stack, buffer, single⟩ := conf
  cases hchoose with
  | leftArc hstack hready =>
    cases hstack
    exact ⟨_, _, rfl, h.leftArc rfl hready (hstep rfl), rfl, (hstep rfl).remaining_lt⟩
  | rightArc hstack hready =>
    cases hstack
    exact ⟨_, _, rfl, h.rightArc rfl hready (hstep rfl), rfl, (hstep rfl).remaining_lt⟩
  | swap hstack hapart horder hfront =>
    cases hstack
    exact ⟨_, _, rfl, h.swap tree rfl (.swap rfl hapart horder hfront) (hstep rfl), rfl,
      (hstep rfl).remaining_lt⟩
  | shift hpair =>
    cases buffer with
    | nil => simp [Transition.applicable] at happlicable
    | cons front buffer =>
      exact ⟨_, _, rfl, h.shift tree rfl (.shift hpair), rfl, (hstep rfl).remaining_lt⟩

/-- In a final configuration everything is attached as in the gold tree. -/
theorem Keeps.gold_of_final (tree : IsTree n gold) {conf : Configuration} (h : plan.Keeps conf)
    (hfinal : conf.final = true) :
    (∀ i, conf.t.headOf i = gold.headOf i) ∧
      ∀ i : ℤ, 1 ≤ i → i < gold.nodes.length → conf.t.deprelOf i = gold.deprelOf i := by
  have hsize := tree.size
  have hattached : ∀ i : ℤ, 1 ≤ i → i ≤ n → conf.t.headOf i ≠ -1 := by
    intro i hi hn hnone
    have hmem := h.mem_pending.mpr ⟨by omega, hn, hnone⟩
    rw [h.consistent.pending_of_final hfinal, List.mem_singleton] at hmem
    omega
  refine ⟨fun i => ?_, fun i hi hn => (h.agree i (hattached i hi (by omega))).2⟩
  by_cases hi : 1 ≤ i ∧ i ≤ n
  · exact (h.agree i (hattached i hi.1 hi.2)).1
  · rcases eq_or_ne i 0 with rfl | hne
    · rw [tree.root, (h.consistent.isTree hfinal).root]
    · have hsize' := h.consistent.size
      rw [Tree.headOf_eq_of_length_le (by omega), Tree.headOf_eq_of_length_le (by omega)]

end Plan

/-- An oracle that predicts what a plan asks for leads to the gold tree. -/
theorem rebuilds_of_plan {n : ℕ} {gold : Tree} (tree : IsTree n gold) (plan : Plan n gold)
    {system : TransitionSystem} {predict : Configuration → PredictedTransition} {single : Bool}
    (hrooted : single = true → SingleRooted n gold)
    (hpredict : ∀ conf, plan.Keeps conf → conf.final = false →
      ∃ tr, system[(predict conf).toFollow]? = some tr ∧ plan.Chooses conf tr) :
    Rebuilds system predict (Configuration.init single gold) gold := by
  have hnext : ∀ conf, plan.Keeps conf → conf.singleRoot = single → conf.final = false →
      system.applicable conf (predict conf).toFollow = true ∧
        ∃ conf' child, system.perform conf (predict conf).toFollow = some (conf', child) ∧
          plan.Keeps conf' ∧ conf'.singleRoot = single ∧ conf'.remaining < conf.remaining := by
    intro conf h hsingle hfinal
    obtain ⟨tr, htr, hchoose⟩ := hpredict conf h hfinal
    obtain ⟨happlicable, conf', child, hperform, h', hsingle', hlt⟩ :=
      h.next tree hchoose hfinal fun hs => hrooted (hsingle.symm.trans hs)
    exact ⟨by simpa [TransitionSystem.applicable, htr] using happlicable, conf', child,
      by simpa [TransitionSystem.perform, htr] using hperform, h', hsingle'.trans hsingle, hlt⟩
  have hvisits : ∀ conf, Visits system predict (Configuration.init single gold) conf →
      plan.Keeps conf ∧ conf.singleRoot = single := by
    intro conf hvisits
    induction hvisits with
    | start => exact ⟨plan.keeps_init tree single, rfl⟩
    | @next conf conf' child _ hfinal hperform ih =>
      obtain ⟨_, conf'', child', hperform', h', hsingle', _⟩ := hnext conf ih.1 ih.2 hfinal
      obtain ⟨rfl, _⟩ := Prod.ext_iff.mp (Option.some.inj (hperform.symm.trans hperform'))
      exact ⟨h', hsingle'⟩
  have hfollow : ∀ fuel conf, plan.Keeps conf → conf.singleRoot = single →
      conf.remaining ≤ fuel → plan.Keeps (follow system predict fuel conf) ∧
        (follow system predict fuel conf).final = true := by
    intro fuel
    induction fuel with
    | zero =>
      intro conf h _ hle
      have hstack := List.length_pos_of_mem (List.mem_of_getLast? h.consistent.bottom)
      simp only [Configuration.remaining] at hle
      omega
    | succ fuel ih =>
      intro conf h hsingle hle
      cases hfinal : conf.final with
      | true => simpa [follow, hfinal] using h
      | false =>
        obtain ⟨happlicable, conf', child, hperform, h', hsingle', hlt⟩ :=
          hnext conf h hsingle hfinal
        simpa [follow, hfinal, happlicable, hperform] using ih conf' h' hsingle' (by omega)
  obtain ⟨h, hfinal⟩ := hfollow _ _ (plan.keeps_init tree single) rfl le_rfl
  obtain ⟨hhead, hdeprel⟩ := h.gold_of_final tree hfinal
  refine ⟨fun conf hconf hfinal' => ?_, hfinal, hhead, hdeprel⟩
  obtain ⟨h', hsingle⟩ := hvisits conf hconf
  exact (hnext conf h' hsingle hfinal').1

end UDPipe.Parsito
