import UDPipe.Parsito.BeamSearch
import UDPipe.Parsito.Runs

/-!
# One tree for all configurations

Two trees have the same words when they differ in their links only. A consistent
configuration knows the children of a node from the heads, so the tree it had is
found again when the heads and relations it saved are put into the shared tree.
-/

namespace UDPipe.Parsito

namespace Tree

/-- The trees differ in their links only. -/
def SameWords (s t : Tree) : Prop :=
  s.nodes.map (fun v => withLinks v {}) = t.nodes.map fun v => withLinks v {}

/-- A tree has its own words. -/
theorem SameWords.refl (t : Tree) : t.SameWords t := rfl

/-- Having the same words is symmetric. -/
theorem SameWords.symm {s t : Tree} (h : s.SameWords t) : t.SameWords s := Eq.symm h

/-- Having the same words is transitive. -/
theorem SameWords.trans {r s t : Tree} (h : r.SameWords s) (h' : s.SameWords t) :
    r.SameWords t := Eq.trans h h'

/-- The same words are as many. -/
theorem SameWords.length_eq {s t : Tree} (h : s.SameWords t) :
    s.nodes.length = t.nodes.length := by
  simpa using congrArg List.length h

/-- A node of one tree is the node of the other one with its own links. -/
theorem SameWords.getElem?_eq {s t : Tree} (h : s.SameWords t) {j : ℕ} {v w : Node}
    (hv : s.nodes[j]? = some v) (hw : t.nodes[j]? = some w) : w = withLinks v (links w) := by
  have hj : (s.nodes.map fun v => withLinks v {})[j]? = (t.nodes.map fun v => withLinks v {})[j]? :=
    congrArg (·[j]?) h
  rw [List.getElem?_map, List.getElem?_map, hv, hw] at hj
  have hbare : withLinks v ({} : Links) = withLinks w {} := Option.some.inj hj
  calc w = withLinks (withLinks w {}) (links w) := by simp
    _ = withLinks (withLinks v {}) (links w) := by rw [hbare]
    _ = withLinks v (links w) := by simp

/-- Changing links keeps what else the nodes have. -/
private theorem map_modifyLinks (nodes : List Node) (id : ℤ) (f : Links → Links) :
    ((modifyLinks nodes id f).map fun v => withLinks v {}) =
      nodes.map fun v => withLinks v {} := by
  apply List.ext_getElem?
  intro j
  simp only [modifyLinks, List.getElem?_map, List.getElem?_modify]
  cases nodes[j]? with
  | none => rfl
  | some v => by_cases h : id.toNat = j <;> simp [h]

/-- Setting a head keeps the words. -/
theorem sameWords_setHead (t : Tree) (id head : ℤ) (deprel : Bytes) :
    (t.setHead id head deprel).SameWords t := by
  unfold SameWords setHead setHeadIn
  dsimp only
  split <;> split <;> simp only [map_modifyLinks]

/-- Unlinking keeps the words. -/
theorem sameWords_unlinkAllNodes (t : Tree) : t.unlinkAllNodes.SameWords t := by
  unfold SameWords unlinkAllNodes
  rw [List.map_map]
  rfl

/-! ### Refreshing -/

/-- The links of node `j` after the loop has passed `count` nodes. -/
def linksRefreshed (heads : List ℤ) (deprels : List Bytes) (count j : ℕ) (l : Links) : Links where
  head := if j < count then heads.getD j 0 else l.head
  deprel := if j < count then deprels.getD j [] else l.deprel
  children := l.children ++
    ((List.range count).filter fun i => heads.getD i 0 = (j : ℤ)).map fun i : ℕ => (i : ℤ)

/-- Refreshing one node more. -/
private theorem linksRefreshed_succ (heads : List ℤ) (deprels : List Bytes) (count j : ℕ)
    (l : Links) :
    linksRefreshed heads deprels (count + 1) j l =
      { head := if count = j then heads.getD count 0
          else (linksRefreshed heads deprels count j l).head
        deprel := if count = j then deprels.getD count []
          else (linksRefreshed heads deprels count j l).deprel
        children := (linksRefreshed heads deprels count j l).children ++
          if heads.getD count 0 = (j : ℤ) then [(count : ℤ)] else [] } := by
  have hchildren : (((List.range (count + 1)).filter fun i => heads.getD i 0 = (j : ℤ)).map
        fun i : ℕ => (i : ℤ)) =
      (((List.range count).filter fun i => heads.getD i 0 = (j : ℤ)).map fun i : ℕ => (i : ℤ)) ++
        if heads.getD count 0 = (j : ℤ) then [(count : ℤ)] else [] := by
    rw [List.range_succ, List.filter_append, List.filter_singleton, List.map_append]
    by_cases hhead : heads.getD count 0 = (j : ℤ) <;> simp only [hhead, decide_true, decide_false,
      if_true, if_false, cond_true, cond_false, List.map_cons, List.map_nil]
  simp only [linksRefreshed, hchildren, List.append_assoc]
  rcases lt_trichotomy j count with hlt | rfl | hgt
  · have hne : count ≠ j := by omega
    simp only [Nat.lt_succ_of_lt hlt, hlt, hne, if_true, if_false]
  · simp only [Nat.lt_succ_self, if_true]
  · have hne : count ≠ j := by omega
    have hnot : ¬ j < count + 1 := by omega
    simp only [hnot, hne, not_lt_of_gt hgt, if_false]

/-- A refreshed node gets the head and the relation of the configuration. -/
private theorem getElem?_refreshNode (heads : List ℤ) (deprels : List Bytes) (nodes : List Node)
    (i j : ℕ) :
    (refreshNode heads deprels nodes i)[j]? = nodes[j]?.map fun v => withLinks v
      { head := if i = j then heads.getD i 0 else (links v).head
        deprel := if i = j then deprels.getD i [] else (links v).deprel
        children := (links v).children ++
          if heads.getD i 0 = (j : ℤ) then [(i : ℤ)] else [] } := by
  have hcast : ((i : ℤ) = (j : ℤ)) ↔ i = j := Int.natCast_inj
  have heta : ∀ v : Node, withLinks v ⟨(links v).head, (links v).deprel, (links v).children⟩ = v :=
    fun v => HasLinks.withLinks_links v
  unfold refreshNode
  dsimp only
  split
  · rename_i hhead
    rw [getElem?_modifyLinks _ hhead, getElem?_modifyLinks _ (Int.natCast_nonneg i),
      Option.map_map]
    congr 1
    funext v
    by_cases h' : heads.getD i 0 = (j : ℤ) <;> by_cases h : i = j <;>
      simp only [Function.comp_apply, hcast, h', if_true, if_false, List.append_nil] <;>
      simp only [h, if_true, if_false, HasLinks.links_withLinks, HasLinks.withLinks_withLinks, heta]
  · rename_i hhead
    have hne : heads.getD i 0 ≠ (j : ℤ) := by omega
    rw [getElem?_modifyLinks _ (Int.natCast_nonneg i)]
    congr 1
    funext v
    by_cases h : i = j <;> simp only [hcast, hne, if_false, List.append_nil] <;>
      simp only [h, if_true, if_false, heta]

/-- What the loop leaves of each node, by induction on the nodes passed. -/
theorem getElem?_refreshed (heads : List ℤ) (deprels : List Bytes) (nodes : List Node)
    (count j : ℕ) :
    ((List.range count).foldl (refreshNode heads deprels) nodes)[j]? =
      nodes[j]?.map fun v => withLinks v (linksRefreshed heads deprels count j (links v)) := by
  induction count with
  | zero =>
    have heta : ∀ v : Node,
        withLinks v ⟨(links v).head, (links v).deprel, (links v).children⟩ = v :=
      fun v => HasLinks.withLinks_links v
    simp [linksRefreshed, heta]
  | succ count ih =>
    rw [List.range_succ, List.foldl_append, List.foldl_cons, List.foldl_nil,
      getElem?_refreshNode, ih, Option.map_map]
    congr 1
    funext v
    simp only [Function.comp_apply, linksRefreshed_succ, HasLinks.links_withLinks,
      HasLinks.withLinks_withLinks]

end Tree

/-! ### Saved trees -/

/-- The heads and relations are those of the first nodes of the tree. -/
structure Saved (heads : List ℤ) (deprels : List Bytes) (t : Tree) : Prop where
  heads_eq : ∀ i < t.nodes.length, heads.getD i 0 = t.headOf i
  deprels_eq : ∀ i < t.nodes.length, deprels.getD i [] = t.deprelOf i

/-- An element of a mapped list. -/
private theorem getD_map_append {α β : Type} (f : α → β) (l : List α) (rest : List β) (default : β)
    {i : ℕ} {a : α} (h : l[i]? = some a) : (l.map f ++ rest).getD i default = f a := by
  have hlt := (List.getElem?_eq_some_iff.mp h).1
  rw [List.getD_eq_getElem?_getD, List.getElem?_append_left (by simpa using hlt),
    List.getElem?_map, h]
  rfl

/-- `save_tree` saves the tree. -/
theorem saved_saveTree {κ : Type} (bsConf : BeamSizeConfiguration κ) (t : Tree) :
    Saved (bsConf.saveTree t).heads (bsConf.saveTree t).deprels t := by
  constructor <;> intro i hi
  · have hget := List.getElem?_eq_getElem hi
    rw [BeamSizeConfiguration.saveTree, getD_map_append _ _ _ _ hget, Tree.headOf,
      Tree.linksOf_natCast, hget]
    rfl
  · have hget := List.getElem?_eq_getElem hi
    rw [BeamSizeConfiguration.saveTree, getD_map_append _ _ _ _ hget, Tree.deprelOf,
      Tree.linksOf_natCast, hget]
    rfl

/-- The children of a node are those whose head it is, in increasing order. -/
private theorem children_eq_filter {n : ℕ} {conf : Configuration} (h : conf.Consistent n)
    {heads : List ℤ} {deprels : List Bytes} (hsaved : Saved heads deprels conf.t) (j : ℕ) :
    ((List.range conf.t.nodes.length).filter fun i => heads.getD i 0 = (j : ℤ)).map
      (fun i : ℕ => (i : ℤ)) = conf.t.childrenOf j := by
  apply List.Pairwise.eq_of_mem_iff (r := (· < ·)) _ (h.children_increase j)
  · intro c
    rw [h.mem_children, List.mem_map]
    constructor
    · rintro ⟨i, hi, rfl⟩
      obtain ⟨hmem, hhead⟩ := List.mem_filter.mp hi
      rw [← hsaved.heads_eq i (List.mem_range.mp hmem)]
      exact ⟨Int.natCast_nonneg j, by simpa using hhead⟩
    · rintro ⟨_, hhead⟩
      -- a node with a head is in the tree
      have hrange : 0 ≤ c ∧ c.toNat < conf.t.nodes.length := by
        by_contra hout
        have hnone : conf.t.linksOf c = {} := by
          unfold Tree.linksOf
          split
          · rw [List.getElem?_eq_none (by omega)]
            rfl
          · rfl
        have : conf.t.headOf c = -1 := by rw [Tree.headOf, hnone]
        omega
      refine ⟨c.toNat, List.mem_filter.mpr ⟨List.mem_range.mpr hrange.2, ?_⟩,
        Int.toNat_of_nonneg hrange.1⟩
      rw [hsaved.heads_eq _ hrange.2, Int.toNat_of_nonneg hrange.1]
      simpa using hhead
  · rw [List.pairwise_map]
    exact (List.pairwise_lt_range.filter _).imp fun hlt => Int.ofNat_lt.mpr hlt

/-- The shared tree becomes the tree that was saved. -/
theorem refresh_eq {n : ℕ} {conf : Configuration} (h : conf.Consistent n) {s : Tree}
    (hwords : s.SameWords conf.t) {heads : List ℤ} {deprels : List Bytes}
    (hsaved : Saved heads deprels conf.t) : s.refresh heads deprels = conf.t := by
  have hnodes : (s.refresh heads deprels).nodes = conf.t.nodes := by
    apply List.ext_getElem?
    intro j
    rw [Tree.refresh, Tree.getElem?_refreshed, List.getElem?_map, hwords.length_eq]
    rcases lt_or_ge j conf.t.nodes.length with hj | hj
    · have hw := List.getElem?_eq_getElem hj
      have hv := List.getElem?_eq_getElem (hwords.length_eq ▸ hj)
      have hlinks : conf.t.linksOf j = links conf.t.nodes[j] := by
        rw [Tree.linksOf_natCast, hw]
        rfl
      have hchildren := children_eq_filter h hsaved j
      have hhead := hsaved.heads_eq j hj
      have hdeprel := hsaved.deprels_eq j hj
      rw [Tree.childrenOf, hlinks] at hchildren
      rw [Tree.headOf, hlinks] at hhead
      rw [Tree.deprelOf, hlinks] at hdeprel
      rw [hv, hw, Option.map_some, Option.map_some, hwords.getElem?_eq hv hw]
      congr 1
      have hrefreshed : ∀ l : Links, l.children = [] →
          Tree.linksRefreshed heads deprels conf.t.nodes.length j l = links conf.t.nodes[j] := by
        intro l hl
        simp only [Tree.linksRefreshed, hl, List.nil_append, hchildren, hhead, hdeprel, hj, if_true]
      rw [hrefreshed _ rfl]
      rfl
    · rw [List.getElem?_eq_none hj, List.getElem?_eq_none (hwords.length_eq ▸ hj)]
      rfl
  calc s.refresh heads deprels
    _ = ⟨(s.refresh heads deprels).nodes⟩ := rfl
    _ = ⟨conf.t.nodes⟩ := by rw [hnodes]

end UDPipe.Parsito
