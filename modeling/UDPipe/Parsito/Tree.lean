import UDPipe.Links

/-!
# Dependency trees

The `parsito::tree` the transitions build: its nodes are numbered by their
positions, node zero is the artificial root, and `set_head` is the code the
sentences have.
-/

namespace UDPipe.Parsito

/-- The class `node`. -/
structure Node extends Links where
  id : ℤ := -1
  form : Bytes := []
  «lemma» : Bytes := []
  upostag : Bytes := []
  xpostag : Bytes := []
  feats : Bytes := []
  deps : Bytes := []
  misc : Bytes := []
  deriving DecidableEq, Repr

instance : HasLinks Node where
  links := Node.toLinks
  withLinks v l := { v with toLinks := l }
  links_withLinks _ _ := rfl
  withLinks_links _ := rfl
  withLinks_withLinks _ _ _ := rfl

/-- The class `tree`. -/
structure Tree where
  nodes : List Node := []
  deriving DecidableEq, Repr

namespace Tree

/-- `tree::root_form`. -/
def rootForm : Bytes := bytes "<root>"

/-- The node that `tree::clear` adds. -/
def rootNode : Node where
  id := 0
  form := rootForm
  «lemma» := rootForm
  upostag := rootForm
  xpostag := rootForm
  feats := rootForm

/-- `tree::clear`. -/
def clear : Tree where
  nodes := [rootNode]

/-- `tree::add_node`. -/
def addNode (t : Tree) (form : Bytes) : Tree where
  nodes := t.nodes ++ [{ id := t.nodes.length, form }]

/-- `tree::set_head`. -/
def setHead (t : Tree) (id head : ℤ) (deprel : Bytes) : Tree where
  nodes := setHeadIn t.nodes id head deprel

/-- `tree::unlink_all_nodes`. -/
def unlinkAllNodes (t : Tree) : Tree where
  nodes := t.nodes.map fun v => { v with head := -1, deprel := [], children := [] }

/-! ### Reading the links -/

/-- The links of node `i`; there are none outside the tree. -/
def linksOf (t : Tree) (i : ℤ) : Links :=
  if 0 ≤ i then (t.nodes[i.toNat]?.map Node.toLinks).getD {} else {}

/-- `nodes[i].head`. -/
def headOf (t : Tree) (i : ℤ) : ℤ := (t.linksOf i).head

/-- `nodes[i].deprel`. -/
def deprelOf (t : Tree) (i : ℤ) : Bytes := (t.linksOf i).deprel

/-- `nodes[i].children`. -/
def childrenOf (t : Tree) (i : ℤ) : List ℤ := (t.linksOf i).children

/-- The head of a node, if it has one. -/
def parent (t : Tree) (i : ℤ) : Option ℤ := if 0 ≤ t.headOf i then some (t.headOf i) else none

/-- Setting a head keeps the number of nodes. -/
@[simp] theorem length_nodes_setHead (t : Tree) (id head : ℤ) (deprel : Bytes) :
    (t.setHead id head deprel).nodes.length = t.nodes.length :=
  length_setHeadIn t.nodes id head deprel

/-- Unlinking keeps the number of nodes. -/
@[simp] theorem length_nodes_unlinkAllNodes (t : Tree) :
    t.unlinkAllNodes.nodes.length = t.nodes.length := by
  simp [unlinkAllNodes]

/-- Unlinking leaves no links. -/
@[simp] theorem linksOf_unlinkAllNodes (t : Tree) (i : ℤ) : t.unlinkAllNodes.linksOf i = {} := by
  unfold linksOf unlinkAllNodes
  split
  · cases h : t.nodes[i.toNat]? <;> simp [h]
  · rfl

/-- The links of a node. -/
theorem linksOf_natCast (t : Tree) (k : ℕ) :
    t.linksOf k = (t.nodes[k]?.map Node.toLinks).getD {} := by
  simp [linksOf]

/-- The first head of a node adds it to the children of that head. -/
theorem linksOf_setHead {t : Tree} {child head : ℤ} {deprel : Bytes} (hchild : 0 ≤ child)
    (hlt : child < t.nodes.length) (hhead : head < t.nodes.length) (hfirst : t.headOf child = -1)
    (j : ℤ) :
    (t.setHead child head deprel).linksOf j =
      { head := if child = j then head else t.headOf j
        deprel := if child = j then deprel else t.deprelOf j
        children :=
          if head = j ∧ 0 ≤ j then insertChild child (t.childrenOf j) else t.childrenOf j } := by
  obtain ⟨v, hv⟩ : ∃ v, t.nodes[child.toNat]? = some v := by
    have : child.toNat < t.nodes.length := by omega
    exact ⟨_, List.getElem?_eq_getElem this⟩
  have hold : (links v).head = -1 := by
    simpa [headOf, linksOf, hchild, hv, links] using hfirst
  rcases lt_or_ge j 0 with hneg | hnonneg
  · have hne : child ≠ j := by omega
    simp [linksOf, headOf, deprelOf, childrenOf, not_le_of_gt hneg, hne]
  · obtain ⟨k, rfl⟩ : ∃ k : ℕ, j = k := ⟨j.toNat, by omega⟩
    have hchange := @getElem?_setHeadIn Node _ t.nodes child head deprel v hchild hv k
    simp only [headOf, deprelOf, childrenOf, linksOf_natCast, setHead, hchange, Option.map_map]
    cases hk : t.nodes[k]? with
    | none =>
      have hge : t.nodes.length ≤ k := List.getElem?_eq_none_iff.mp hk
      have hc : child ≠ (k : ℤ) := by omega
      have hh : head ≠ (k : ℤ) := by omega
      simp [hc, hh]
    | some w =>
      have hk' : (-1 : ℤ) ≠ (k : ℤ) := by omega
      rw [hold]
      simp [linksAfter, hk', links, withLinks]

end Tree

end UDPipe.Parsito
