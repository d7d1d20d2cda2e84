import UDPipe.Bytes
import Mathlib.Data.List.Basic
import Mathlib.Algebra.Order.Ring.Int

/-!
# Heads and children

The words of a sentence and the nodes of a parser tree carry the same three
fields, and `sentence::set_head` and `tree::set_head` are the same code: both
are `setHeadIn` below, at their own node type. Children lists are kept
increasing, so the loops of the source scan them from the end.
-/

namespace UDPipe

/-- The head (negative when there is none), the relation to it, and the children. -/
structure Links where
  head : ℤ := -1
  deprel : Bytes := []
  children : List ℤ := []
  deriving DecidableEq, Repr

/-- Types of nodes that carry links beside other data. -/
class HasLinks (ν : Type) where
  links : ν → Links
  withLinks : ν → Links → ν
  links_withLinks : ∀ v l, links (withLinks v l) = l
  withLinks_links : ∀ v, withLinks v (links v) = v
  withLinks_withLinks : ∀ v l l', withLinks (withLinks v l) l' = withLinks v l'

export HasLinks (links withLinks)

attribute [simp] HasLinks.links_withLinks HasLinks.withLinks_links HasLinks.withLinks_withLinks

/-- The erasing loop of `set_head` on a reversed children list: it stops at the
first child below `id`. -/
def eraseFromEnd (id : ℤ) : List ℤ → List ℤ
  | [] => []
  | c :: cs => if c ≥ id then if c = id then cs else c :: eraseFromEnd id cs else c :: cs

/-- Remove `id` from an increasing children list. -/
def eraseChild (id : ℤ) (children : List ℤ) : List ℤ := (eraseFromEnd id children.reverse).reverse

/-- The inserting loop of `set_head` on a reversed children list. -/
def insertFromEnd (id : ℤ) : List ℤ → List ℤ
  | [] => [id]
  | c :: cs => if c > id then c :: insertFromEnd id cs else if c < id then id :: c :: cs else c :: cs

/-- Insert `id` into an increasing children list unless it is there. -/
def insertChild (id : ℤ) (children : List ℤ) : List ℤ :=
  (insertFromEnd id children.reverse).reverse

/-! ### The loops as operations on increasing lists -/

/-- The erased child is the only one that is missing, as the children descend. -/
private theorem eraseFromEnd_eq_filter {id : ℤ} {cs : List ℤ} (h : cs.Pairwise (· > ·)) :
    eraseFromEnd id cs = cs.filter (· != id) := by
  induction cs with
  | nil => rfl
  | cons c cs ih =>
    obtain ⟨hc, hcs⟩ := List.pairwise_cons.mp h
    have hkeep : c ≤ id → cs.filter (· != id) = cs := fun hle =>
      List.filter_eq_self.mpr fun d hd => by simpa using ne_of_lt (lt_of_lt_of_le (hc d hd) hle)
    rw [eraseFromEnd]
    by_cases hge : c ≥ id
    · by_cases heq : c = id
      · subst heq
        simp [hkeep le_rfl]
      · simp [hge, heq, ih hcs]
    · have hne : c ≠ id := by omega
      simp [hge, hne, hkeep (by omega)]

/-- Erasing a child of an increasing list is filtering it out. -/
theorem eraseChild_eq_filter {id : ℤ} {cs : List ℤ} (h : cs.Pairwise (· < ·)) :
    eraseChild id cs = cs.filter (· != id) := by
  rw [eraseChild, eraseFromEnd_eq_filter (List.pairwise_reverse.mpr h), List.filter_reverse,
    List.reverse_reverse]

/-- The inserted child, and the others. -/
private theorem mem_insertFromEnd {id c : ℤ} {cs : List ℤ} :
    c ∈ insertFromEnd id cs ↔ c = id ∨ c ∈ cs := by
  induction cs with
  | nil => simp [insertFromEnd]
  | cons d cs ih =>
    rw [insertFromEnd]
    split
    · simp only [List.mem_cons, ih]
      tauto
    · split
      · simp
      · have hd : d = id := by omega
        simp only [List.mem_cons, hd]
        tauto

/-- Inserting a child adds exactly that child. -/
theorem mem_insertChild {id c : ℤ} {cs : List ℤ} : c ∈ insertChild id cs ↔ c = id ∨ c ∈ cs := by
  simp [insertChild, mem_insertFromEnd]

/-- Inserting keeps the order of the children. -/
private theorem pairwise_insertFromEnd {id : ℤ} {cs : List ℤ} (h : cs.Pairwise (· > ·)) :
    (insertFromEnd id cs).Pairwise (· > ·) := by
  induction cs with
  | nil => simp [insertFromEnd]
  | cons d cs ih =>
    obtain ⟨hd, hcs⟩ := List.pairwise_cons.mp h
    rw [insertFromEnd]
    split
    · rename_i hgt
      refine List.pairwise_cons.mpr ⟨fun c hc => ?_, ih hcs⟩
      rcases mem_insertFromEnd.mp hc with rfl | hc
      · exact hgt
      · exact hd c hc
    · split
      · rename_i hlt
        refine List.pairwise_cons.mpr ⟨fun c hc => ?_, h⟩
        rcases List.mem_cons.mp hc with rfl | hc
        · exact hlt
        · exact lt_trans (hd c hc) hlt
      · exact h

/-- Inserting a child keeps the list increasing. -/
theorem pairwise_insertChild {id : ℤ} {cs : List ℤ} (h : cs.Pairwise (· < ·)) :
    (insertChild id cs).Pairwise (· < ·) :=
  List.pairwise_reverse.mpr (pairwise_insertFromEnd (List.pairwise_reverse.mpr h))

/-- A child above all others is appended. -/
theorem insertChild_of_lt {id : ℤ} {cs : List ℤ} (h : ∀ c ∈ cs, c < id) :
    insertChild id cs = cs ++ [id] := by
  have hstop : insertFromEnd id cs.reverse = id :: cs.reverse := by
    cases hrev : cs.reverse with
    | nil => rfl
    | cons c rest =>
      have hc : c < id := h c (List.mem_reverse.mp (hrev ▸ List.mem_cons_self))
      simp [insertFromEnd, not_lt_of_gt hc, hc]
  simp [insertChild, hstop]

/-- Erasing leaves a list alone whose children are all below `id`. -/
theorem eraseChild_of_lt {id : ℤ} {cs : List ℤ} (h : ∀ c ∈ cs, c < id) : eraseChild id cs = cs := by
  have hstop : eraseFromEnd id cs.reverse = cs.reverse := by
    cases hrev : cs.reverse with
    | nil => rfl
    | cons c rest =>
      have hc : c < id := h c (List.mem_reverse.mp (hrev ▸ List.mem_cons_self))
      simp [eraseFromEnd, not_le_of_gt hc]
  simp [eraseChild, hstop]

section SetHead

variable {ν : Type} [HasLinks ν]

/-- Change the links of one node. -/
def modifyLinks (nodes : List ν) (id : ℤ) (f : Links → Links) : List ν :=
  nodes.modify id.toNat fun v => withLinks v (f (links v))

/-- `set_head(id, head, deprel)` on the nodes of a sentence or a tree. -/
def setHeadIn (nodes : List ν) (id head : ℤ) (deprel : Bytes) : List ν :=
  let oldHead := (nodes[id.toNat]?.map fun v => (links v).head).getD (-1)
  let unlinked :=
    if oldHead ≥ 0 then
      modifyLinks nodes oldHead fun l => { l with children := eraseChild id l.children }
    else nodes
  let headed := modifyLinks unlinked id fun l => { l with head, deprel }
  if head ≥ 0 then
    modifyLinks headed head fun l => { l with children := insertChild id l.children }
  else headed

/-- Changing the links of a node keeps the number of nodes. -/
@[simp] theorem length_modifyLinks (nodes : List ν) (id : ℤ) (f : Links → Links) :
    (modifyLinks nodes id f).length = nodes.length := by
  simp [modifyLinks]

/-- Setting a head keeps the number of nodes. -/
@[simp] theorem length_setHeadIn (nodes : List ν) (id head : ℤ) (deprel : Bytes) :
    (setHeadIn nodes id head deprel).length = nodes.length := by
  unfold setHeadIn
  dsimp only
  split <;> split <;> simp

/-- Only the links of the given node are changed. -/
theorem getElem?_modifyLinks (nodes : List ν) {id : ℤ} (hid : 0 ≤ id) (f : Links → Links) (j : ℕ) :
    (modifyLinks nodes id f)[j]? =
      nodes[j]?.map fun v => if id = j then withLinks v (f (links v)) else v := by
  have hcast : id.toNat = j ↔ id = (j : ℤ) := by omega
  simp only [modifyLinks, List.getElem?_modify, hcast]
  cases nodes[j]? with
  | none => rfl
  | some v => by_cases h : id = (j : ℤ) <;> simp [h]

/-- A negative number changes no node. -/
private theorem getElem?_modifyLinks_if (nodes : List ν) (id : ℤ) (f : Links → Links) (j : ℕ) :
    (if id ≥ 0 then modifyLinks nodes id f else nodes)[j]? =
      nodes[j]?.map fun v => if id = j then withLinks v (f (links v)) else v := by
  by_cases hid : id ≥ 0
  · rw [if_pos hid, getElem?_modifyLinks nodes hid]
  · have hne : id ≠ (j : ℤ) := by omega
    simp [hid, hne]

/-- The links that `set_head` leaves at node `j`, whose links were `l`. -/
def linksAfter (oldHead id head : ℤ) (deprel : Bytes) (j : ℤ) (l : Links) : Links where
  head := if id = j then head else l.head
  deprel := if id = j then deprel else l.deprel
  children :=
    let rest := if oldHead = j then eraseChild id l.children else l.children
    if head = j then insertChild id rest else rest

/-- What `set_head` does to each node: the head and relation of `id` change, the
old head loses the child and the new one gains it, and nothing else changes. -/
theorem getElem?_setHeadIn {nodes : List ν} {id head : ℤ} {deprel : Bytes} {v : ν}
    (hid : 0 ≤ id) (hv : nodes[id.toNat]? = some v) (j : ℕ) :
    (setHeadIn nodes id head deprel)[j]? =
      nodes[j]?.map fun w => withLinks w (linksAfter (links v).head id head deprel j (links w)) := by
  have hold : (nodes[id.toNat]?.map fun v => (links v).head).getD (-1) = (links v).head := by
    simp [hv]
  simp only [setHeadIn, hold, getElem?_modifyLinks_if, getElem?_modifyLinks _ hid, Option.map_map]
  congr 1
  funext w
  have heta : withLinks w ⟨(links w).head, (links w).deprel, (links w).children⟩ = w :=
    HasLinks.withLinks_links w
  simp only [Function.comp_apply]
  by_cases h₁ : (links v).head = (j : ℤ) <;> by_cases h₂ : id = (j : ℤ) <;>
    by_cases h₃ : head = (j : ℤ) <;> simp [linksAfter, h₁, h₂, h₃, heta]

end SetHead

end UDPipe
