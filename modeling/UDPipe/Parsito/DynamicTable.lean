import UDPipe.Library.WantedItems
import UDPipe.Parsito.DynamicOracle
import UDPipe.Parsito.Strategy

/-!
# The table of the dynamic oracle

A cell of the table has the least number of wrong arcs, and the first transition of a way to
join the nodes with so few. This holds of a diagonal when it holds of the one before, as the
last arc leads from a cell of that one, whatever the order of the assignments.
-/

namespace UDPipe.Parsito

namespace DynamicOracle

open Joining

/-! ### Cells and vectors -/

namespace Diagonals

variable {β : Type} {v : Diagonals β} {c c' : Cell} {value default : β}

/-- A changed vector is the one of every diagonal with the same parity. -/
theorem row_setRow (v : Diagonals β) (diagonal diagonal' : ℕ) (row : List β) :
    (v.setRow diagonal row).row diagonal' =
      if diagonal % 2 = diagonal' % 2 then row else v.row diagonal' := by
  unfold Diagonals.row setRow
  rcases Nat.mod_two_eq_zero_or_one diagonal with h | h <;>
    rcases Nat.mod_two_eq_zero_or_one diagonal' with h' | h' <;> simp [h, h']

/-- Changing a cell keeps the lengths of the vectors. -/
@[simp] theorem length_row_set (v : Diagonals β) (c : Cell) (value : β) (diagonal : ℕ) :
    ((v.set c value).row diagonal).length = (v.row diagonal).length := by
  rw [set, row_setRow]
  split
  · next h => simp [Diagonals.row, h]
  · rfl

/-- A cell that was changed has the new value. -/
theorem get_set_self (h : c.index < (v.row c.diagonal).length) :
    (v.set c value).get c default = value := by
  rw [get, set, row_setRow, if_pos rfl]
  simp [h]

/-- Cells of the other diagonal, and cells with another place, are not changed. -/
theorem get_set_of_ne (h : c.diagonal % 2 = c'.diagonal % 2 → c.index ≠ c'.index) :
    (v.set c value).get c' default = v.get c' default := by
  rw [get, set, row_setRow]
  split
  · next heq => simp [get, Diagonals.row, heq, h heq]
  · rfl

/-- Changing a vector does not change the cells of the other one. -/
theorem get_setRow_of_ne {diagonal : ℕ} {row : List β} (h : diagonal % 2 ≠ c.diagonal % 2) :
    (v.setRow diagonal row).get c default = v.get c default := by
  rw [get, row_setRow, if_neg h, get]

end Diagonals

namespace Cell

variable {c c' : Cell} {d : ℕ}

/-- The place of a cell when the vector is not too long. -/
theorem index_eq (hd : c.diagonal = d) (hh : c.h ≤ d) (hsize : d < 65535) :
    c.index = c.h + (d + 1) * c.i ∧ c.index < (d + 1) * (d + 1) := by
  have hi : c.i ≤ d := by
    unfold diagonal at hd
    omega
  have hlt : c.h + (d + 1) * c.i < (d + 1) * (d + 1) := by
    have := Nat.mul_le_mul_left (d + 1) hi
    rw [Nat.mul_succ (d + 1) d]
    omega
  have hbound : (d + 1) * (d + 1) ≤ 65535 * 65535 := Nat.mul_le_mul (by omega) (by omega)
  have heq : c.index = c.h + (d + 1) * c.i := by
    rw [index, show c.i + c.j = d from hd, Nat.mul_comm c.i, Nat.add_comm]
    exact Nat.mod_eq_of_lt (by omega)
  exact ⟨heq, heq ▸ hlt⟩

/-- The cells of a diagonal have their own places. -/
theorem index_inj (hd : c.diagonal = d) (hd' : c'.diagonal = d) (hh : c.h ≤ d) (hh' : c'.h ≤ d)
    (hsize : d < 65535) (h : c.index = c'.index) : c = c' := by
  rw [(index_eq hd hh hsize).1, (index_eq hd' hh' hsize).1] at h
  have hi : c.i = c'.i := by
    have hdiv := congrArg (· / (d + 1)) h
    simpa [Nat.add_mul_div_left, Nat.div_eq_of_lt (show c.h < d + 1 by omega),
      Nat.div_eq_of_lt (show c'.h < d + 1 by omega)] using hdiv
  obtain ⟨i, j, k⟩ := c
  obtain ⟨i', j', k'⟩ := c'
  simp only [diagonal] at *
  subst hi
  simp only [Cell.mk.injEq, true_and]
  omega

end Cell

namespace TRepresentation

variable {t : TRepresentation} {gold : Tree} {d : ℕ} {c : Cell}

/-- The vectors of a diagonal have a place for each of its cells. -/
structure Sized (t : TRepresentation) (d : ℕ) : Prop where
  costs : (t.costs.row d).length = (d + 1) * (d + 1)
  transitions : (t.transitions.row d).length = (d + 1) * (d + 1)

/-- The number of cells of a diagonal is not too large. -/
theorem size_mod (hsize : d < 65535) : (d + 1) * (d + 1) % 2 ^ 32 = (d + 1) * (d + 1) := by
  have hbound : (d + 1) * (d + 1) ≤ 65535 * 65535 := Nat.mul_le_mul (by omega) (by omega)
  exact Nat.mod_eq_of_lt (by omega)

/-- A prepared diagonal has a place for each of its cells. -/
theorem sized_prepare (hsize : d < 65535) : (t.prepare gold d).Sized d := by
  rw [prepare, size_mod hsize]
  constructor <;> simp [Diagonals.row_setRow]

/-- The cells of a prepared diagonal. -/
theorem cell_prepare (hsize : d < 65535) (hd : c.diagonal = d) (hh : c.h ≤ d) :
    (t.prepare gold d).cost c = gold.nodes.length + 1 ∧ (t.prepare gold d).transition c = -1 := by
  have hplace := (Cell.index_eq hd hh hsize).2
  rw [prepare, size_mod hsize]
  constructor <;> simp [cost, transition, Diagonals.get, Diagonals.row_setRow, hd, hplace]

/-- Preparing a diagonal does not change the one before. -/
theorem cell_prepare_of_ne (hd : c.diagonal = d) :
    (t.prepare gold (d + 1)).cost c = t.cost c ∧
      (t.prepare gold (d + 1)).transition c = t.transition c := by
  have hne : (d + 1) % 2 ≠ c.diagonal % 2 := by omega
  exact ⟨Diagonals.get_setRow_of_ne hne, Diagonals.get_setRow_of_ne hne⟩

/-- Preparing a diagonal keeps the places of the one before. -/
theorem Sized.prepare (h : t.Sized d) : (t.prepare gold (d + 1)).Sized d := by
  have hne : (d + 1) % 2 ≠ d % 2 := by omega
  constructor
  · simpa [TRepresentation.prepare, Diagonals.row_setRow, hne] using h.costs
  · simpa [TRepresentation.prepare, Diagonals.row_setRow, hne] using h.transitions

variable {source target : Cell} {edge : ℕ} {tie : Prop} [Decidable tie] {first : ℤ}

/-- What the assignments to a cell do. -/
structure Improved (t t' : TRepresentation) (d : ℕ) (source target : Cell) (edge : ℕ) (first : ℤ) :
    Prop where
  sized : ∀ d, t.Sized d → t'.Sized d
  cost_of_ne : ∀ c, c.diagonal = d ∨ c.diagonal = d + 1 → c.h ≤ c.diagonal → c ≠ target →
    t'.cost c = t.cost c ∧ t'.transition c = t.transition c
  cases : t'.cost target = t.cost target ∧ t'.transition target = t.transition target ∧
      t.cost target ≤ t.cost source + edge ∨
    t'.cost target = t.cost source + edge ∧ t.cost source + edge ≤ t.cost target ∧
      t'.transition target = if t.transition source ≥ 0 then t.transition source else first

/-- The assignments change the target only, and it gets the smaller cost. -/
theorem improved (hsized : t.Sized (d + 1)) (hsize : d + 1 < 65535)
    (htarget : target.diagonal = d + 1) (hh : target.h ≤ d + 1) :
    Improved t (t.improve source target edge tie first) d source target edge first := by
  have hplace := (Cell.index_eq htarget hh hsize).2
  by_cases hlt : t.cost source + edge < t.cost target + (if tie then 1 else 0)
  · have hle : t.cost source + edge ≤ t.cost target := by
      split at hlt <;> omega
    rw [improve, if_pos hlt]
    refine ⟨fun d' h => ⟨?_, ?_⟩, fun c hd hc hne => ?_, .inr ⟨?_, hle, ?_⟩⟩
    · rw [Diagonals.length_row_set, h.costs]
    · rw [Diagonals.length_row_set, h.transitions]
    · have hother : target.diagonal % 2 = c.diagonal % 2 → target.index ≠ c.index := by
        intro hparity heq
        have hc' : c.diagonal = d + 1 := hd.resolve_left fun hd => by omega
        exact hne (Cell.index_inj htarget hc' hh (by omega) hsize heq).symm
      exact ⟨Diagonals.get_set_of_ne hother, Diagonals.get_set_of_ne hother⟩
    · exact Diagonals.get_set_self (by rw [htarget, hsized.costs]; exact hplace)
    · exact Diagonals.get_set_self (by rw [htarget, hsized.transitions]; exact hplace)
  · rw [improve, if_neg hlt]
    refine ⟨fun _ h => h, fun _ _ _ _ => ⟨rfl, rfl⟩, .inl ⟨rfl, rfl, ?_⟩⟩
    split at hlt <;> omega

/-- The cost of the target is that over the source at most. -/
theorem Improved.cost_le {t' : TRepresentation} (h : Improved t t' d source target edge first) :
    t'.cost target ≤ t.cost source + edge ∧ t'.cost target ≤ t.cost target := by
  rcases h.cases with ⟨h, -, hle⟩ | ⟨h, hle, -⟩ <;> omega

end TRepresentation

/-! ### What the cells stand for -/

section Cells

variable (labels : List Bytes) (gold : Tree) (top : ℤ) (left right : List ℤ)

/-- The cells of a diagonal for the nodes that there are. -/
structure InTable (d : ℕ) (c : Cell) : Prop where
  diagonal : c.diagonal = d
  i_le : c.i ≤ left.length
  j_le : c.j ≤ right.length
  h_le : c.h ≤ d

/-- The nodes of a stack and a right stack: they are different, and the root is at the bottom. -/
structure Nodes : Prop where
  nodup : (top :: left ++ right).Nodup
  nonneg : ∀ a ∈ top :: left ++ right, 0 ≤ a
  bottom : (top :: left).getLast? = some 0

/-- The nodes of a cell in their order. -/
def nodesOf (c : Cell) : List ℤ := (left.take c.i).reverse ++ top :: right.take c.j

/-- The number of a first transition. -/
def number : Move → ℤ
  | .shift => 0
  | .leftArc => whichArcTransition labels gold top (left.headD 0)
  | .rightArc => whichArcTransition labels gold (left.headD 0) top

/-- The nodes of a cell can be joined to its node with a number of wrong arcs. -/
def JoinsAt (c : Cell) (errors : ℕ) : Prop :=
  Joins (HeadIn gold.parent) 0 (left.take c.i) top (right.take c.j) (node (top :: left) right c)
    errors

/-- The same with a first transition. -/
def BeginsAt (move : Move) (c : Cell) (errors : ℕ) : Prop :=
  Begins (HeadIn gold.parent) 0 move (left.take c.i) top (right.take c.j)
    (node (top :: left) right c) errors

/-- A cost that can be reached comes from a way to join the nodes, with its first transition. -/
structure Sound (t : TRepresentation) (c : Cell) : Prop where
  cost_le : t.cost c ≤ gold.nodes.length + 1
  begins : t.cost c < gold.nodes.length + 1 → (t.transition c < 0 ∧ c.i = 0 ∧ c.j = 0) ∨
    ∃ move, t.transition c = number labels gold top left move ∧
      BeginsAt gold top left right move c (t.cost c)

/-- No way to join the nodes is better than the cost. -/
def Complete (t : TRepresentation) (c : Cell) : Prop :=
  ∀ errors < gold.nodes.length + 1, JoinsAt gold top left right c errors → t.cost c ≤ errors

end Cells

variable {labels : List Bytes} {gold : Tree} {top : ℤ} {left right : List ℤ} {d : ℕ}
  {c source target : Cell}

/-- Transitions have numbers that are not negative. -/
theorem number_nonneg (move : Move) : 0 ≤ number labels gold top left move := by
  have harc : ∀ parent child, 0 ≤ whichArcTransition labels gold parent child := by
    intro parent child
    unfold whichArcTransition
    split
    · split <;> omega
    · rfl
  cases move with
  | shift => exact le_rfl
  | leftArc => exact harc _ _
  | rightArc => exact harc _ _

/-- The cost of an edge is the error of the arc. -/
theorem edgeCost_eq {parent : ℤ} (hparent : 0 ≤ parent) (child : ℤ) :
    edgeCost gold parent child = error (HeadIn gold.parent) parent child := by
  unfold edgeCost error HeadIn
  congr 1
  rw [Tree.parent_eq_some]
  simp [hparent]

/-- The node of a cell is the one at its place. -/
theorem getElem?_nodesOf (hc : InTable left right d c) :
    (nodesOf top left right c)[c.h]? = some (node (top :: left) right c) := by
  have hdiagonal : c.i + c.j = d := hc.diagonal
  have hi := hc.i_le
  have hj := hc.j_le
  have hh := hc.h_le
  have hlength : (left.take c.i).reverse.length = c.i := by simp [hi]
  unfold nodesOf node
  rcases lt_trichotomy c.h c.i with hlt | heq | hgt
  · have hplace : c.i - 1 - c.h < left.length := by omega
    rw [if_pos hlt.le, List.getElem?_append_left (by omega), List.getElem?_reverse (by simp; omega),
      List.length_take, min_eq_left hi, List.getElem?_take_of_lt (by omega),
      show c.i - c.h = c.i - 1 - c.h + 1 by omega, List.getD_cons_succ,
      List.getD_eq_getElem?_getD, List.getElem?_eq_getElem hplace, Option.getD_some]
  · rw [if_pos heq.le, List.getElem?_append_right (by omega), hlength]
    simp [heq]
  · have hplace : c.h - c.i - 1 < right.length := by omega
    rw [if_neg (by omega), List.getElem?_append_right (by omega), hlength,
      show c.h - c.i = c.h - c.i - 1 + 1 by omega, List.getElem?_cons_succ,
      List.getElem?_take_of_lt (by omega), Nat.add_sub_cancel, List.getD_eq_getElem?_getD,
      List.getElem?_eq_getElem hplace, Option.getD_some]

/-- Another node of a cell with the same nodes has another place. -/
theorem Nodes.eq_of_node_eq (nodes : Nodes top left right) (hc : InTable left right d c)
    {c' : Cell} (hc' : InTable left right d c') (hi : c.i = c'.i)
    (h : node (top :: left) right c = node (top :: left) right c') : c = c' := by
  have hj : c.j = c'.j := by
    have := hc.diagonal
    have := hc'.diagonal
    simp only [Cell.diagonal] at *
    omega
  have hnodup : (nodesOf top left right c).Nodup := by
    have hall : (left.reverse ++ top :: right).Nodup :=
      (List.perm_middle.trans ((left.reverse_perm.append_right right).cons top)).nodup_iff.mpr
        nodes.nodup
    refine hall.sublist ?_
    exact (List.take_sublist c.i left).reverse.append ((List.take_sublist c.j right).cons_cons top)
  have hsame : nodesOf top left right c = nodesOf top left right c' := by
    rw [nodesOf, nodesOf, hi, hj]
  have hh : c.h = c'.h := by
    obtain ⟨hlt, -⟩ := List.getElem?_eq_some_iff.mp (getElem?_nodesOf hc)
    refine (List.getElem?_inj hlt hnodup).mp ?_
    rw [getElem?_nodesOf hc, hsame, getElem?_nodesOf hc', h]
  obtain ⟨i, j, k⟩ := c
  obtain ⟨i', j', k'⟩ := c'
  simp_all

/-- The node that the nodes of a cell are joined to is one of them. -/
theorem exists_node {i j : ℕ} (hi : i ≤ left.length) (hj : j ≤ right.length) {last : ℤ} {errors : ℕ}
    (h : Joins (HeadIn gold.parent) 0 (left.take i) top (right.take j) last errors) :
    ∃ k ≤ i + j, node (top :: left) right ⟨i, j, k⟩ = last := by
  have hmem : last ∈ nodesOf top left right ⟨i, j, 0⟩ := by
    simpa [nodesOf, or_left_comm] using h.last_mem
  obtain ⟨k, hk⟩ := List.mem_iff_getElem?.mp hmem
  have hlt : k ≤ i + j := by
    obtain ⟨hlt, -⟩ := List.getElem?_eq_some_iff.mp hk
    simp only [nodesOf, List.length_append, List.length_reverse, List.length_take, min_eq_left hi,
      List.length_cons, min_eq_left hj] at hlt
    omega
  exact ⟨k, hlt, Option.some.inj ((getElem?_nodesOf ⟨rfl, hi, hj, hlt⟩).symm.trans hk)⟩

/-! ### Arcs to one more node -/

/-- A cell can be reached over another one by an arc with a cost. -/
structure Extends (labels : List Bytes) (gold : Tree) (top : ℤ) (left right : List ℤ) (d : ℕ)
    (source target : Cell) (edge : ℕ) (first : ℤ) : Prop where
  source_mem : InTable left right d source
  target_mem : InTable left right (d + 1) target
  begins : ∀ move errors, BeginsAt gold top left right move source errors →
    BeginsAt gold top left right move target (errors + edge)
  first : source.i = 0 → source.j = 0 → ∃ move, first = number labels gold top left move ∧
    ∀ errors, BeginsAt gold top left right move target (errors + edge)

section Arcs

variable {i j h h' edge : ℕ}

/-- One more node is taken from a list. -/
theorem take_succ {l : List ℤ} (hi : i < l.length) : l.take (i + 1) = l.take i ++ [l.getD i 0] := by
  rw [List.take_add_one, List.getD_eq_getElem?_getD, List.getElem?_eq_getElem hi]
  rfl

/-- Behind a node that was added to the stack the others have the next places. -/
theorem node_succ (stack right : List ℤ) (i j h : ℕ) :
    node stack right ⟨i + 1, j, h + 1⟩ = node stack right ⟨i, j, h⟩ := by
  simp [node]

/-- The node that is added to the stack. -/
theorem node_zero (top : ℤ) (left right : List ℤ) (i j : ℕ) :
    node (top :: left) right ⟨i + 1, j, 0⟩ = left.getD i 0 := by
  simp [node]

/-- The node that is added to the right stack. -/
theorem node_last (stack right : List ℤ) (i j : ℕ) :
    node stack right ⟨i, j + 1, i + j + 1⟩ = right.getD j 0 := by
  have hright : ¬ i + j + 1 ≤ i := by omega
  have hplace : i + j + 1 - i - 1 = j := by omega
  simp only [node, if_neg hright, hplace]

/-- An arc to the next node of the stack. -/
theorem extends_stack {first : ℤ} (hc : InTable left right d ⟨i, j, h⟩) (hi : i < left.length)
    (hh : h' ≤ d + 1)
    (harc : Arc (HeadIn gold.parent) 0 (node (top :: left) right ⟨i, j, h⟩) (left.getD i 0)
      (node (top :: left) right ⟨i + 1, j, h'⟩) edge)
    (hfirst : i = 0 → j = 0 → ∃ move, first = number labels gold top left move ∧
      ∀ errors, BeginsAt gold top left right move ⟨1, 0, h'⟩ (errors + edge)) :
    Extends labels gold top left right d ⟨i, j, h⟩ ⟨i + 1, j, h'⟩ edge first := by
  have hdiagonal : i + j = d := hc.diagonal
  refine ⟨hc, ⟨?_, hi, hc.j_le, hh⟩, fun move errors hbegins => ?_, ?_⟩
  · simp only [Cell.diagonal]
    omega
  · have hend := Begins.append_arc hbegins (.left [] []) harc
    rwa [← take_succ hi, List.append_nil] at hend
  · rintro rfl rfl
    exact hfirst rfl rfl

/-- An arc to the next node of the right stack. -/
theorem extends_rightStack (hc : InTable left right d ⟨i, j, h⟩) (hj : j < right.length)
    (hh : h' ≤ d + 1)
    (harc : Arc (HeadIn gold.parent) 0 (node (top :: left) right ⟨i, j, h⟩) (right.getD j 0)
      (node (top :: left) right ⟨i, j + 1, h'⟩) edge) :
    Extends labels gold top left right d ⟨i, j, h⟩ ⟨i, j + 1, h'⟩ edge 0 := by
  have hdiagonal : i + j = d := hc.diagonal
  refine ⟨hc, ⟨?_, hc.i_le, hj, hh⟩, fun move errors hbegins => ?_, ?_⟩
  · simp only [Cell.diagonal]
    omega
  · have hend := Begins.append_arc hbegins (.right [] []) harc
    rwa [← take_succ hj, List.append_nil] at hend
  · rintro rfl rfl
    refine ⟨.shift, rfl, fun errors => ?_⟩
    have hle : h ≤ d := hc.h_le
    obtain rfl : h = 0 := by omega
    rw [BeginsAt, take_succ hj, Nat.add_comm errors]
    exact .shift harc (.nil ..)

end Arcs

/-! ### Filling a diagonal -/

/-- A diagonal is being filled: the one before stays as it was, and the costs are sound. -/
structure Filling (labels : List Bytes) (gold : Tree) (top : ℤ) (left right : List ℤ) (d : ℕ)
    (t t' : TRepresentation) : Prop where
  sized : t'.Sized (d + 1)
  same : ∀ c, InTable left right d c → t'.cost c = t.cost c ∧ t'.transition c = t.transition c
  sound : ∀ c, InTable left right (d + 1) c → Sound labels gold top left right t' c

/-- The costs of a diagonal are not larger. -/
def NotAbove (left right : List ℤ) (d : ℕ) (t t' : TRepresentation) : Prop :=
  ∀ c, InTable left right (d + 1) c → t'.cost c ≤ t.cost c

/-- An assignment keeps the costs sound, makes no cost larger, and its target gets the cost over
the source at most. -/
theorem Filling.improve {t t' t'' : TRepresentation} {edge : ℕ} {tie : Prop} [Decidable tie]
    {first : ℤ} (h : Filling labels gold top left right d t t')
    (heq : t'' = t'.improve source target edge tie first) (hsize : d + 1 < 65535)
    (hsound : Sound labels gold top left right t source)
    (hextends : Extends labels gold top left right d source target edge first) :
    Filling labels gold top left right d t t'' ∧ NotAbove left right d t' t'' ∧
      t''.cost target ≤ t.cost source + edge := by
  have htarget := hextends.target_mem
  have himproved := @TRepresentation.improved t' d source target edge tie _ first h.sized hsize
    htarget.diagonal htarget.h_le
  rw [← heq] at himproved
  obtain ⟨hcost, htransition⟩ := h.same source hextends.source_mem
  have hother : ∀ c, InTable left right (d + 1) c → c ≠ target →
      t''.cost c = t'.cost c ∧ t''.transition c = t'.transition c := fun c hc hne =>
    himproved.cost_of_ne c (.inr hc.diagonal) (hc.diagonal ▸ hc.h_le) hne
  refine ⟨⟨himproved.sized _ h.sized, fun c hc => ?_, fun c hc => ?_⟩, fun c hc => ?_, ?_⟩
  · have hne : c ≠ target := by
      rintro rfl
      have := hc.diagonal.symm.trans htarget.diagonal
      omega
    have hkeep := himproved.cost_of_ne c (.inl hc.diagonal) (hc.diagonal ▸ hc.h_le) hne
    exact ⟨hkeep.1.trans (h.same c hc).1, hkeep.2.trans (h.same c hc).2⟩
  · have hc' := h.sound c hc
    by_cases hne : c = target
    · subst hne
      rcases himproved.cases with ⟨hsame, hsame', -⟩ | ⟨hnew, hle, hnew'⟩
      · exact ⟨hsame ▸ hc'.cost_le, by rw [hsame, hsame']; exact hc'.begins⟩
      · rw [hcost] at hnew hle
        rw [htransition] at hnew'
        refine ⟨by have := hc'.cost_le; omega, fun hlt => .inr ?_⟩
        rw [hnew]
        rcases hsound.begins (by omega) with ⟨hneg, hi, hj⟩ | ⟨move, hmove, hbegins⟩
        · rw [if_neg (by omega)] at hnew'
          obtain ⟨move, hfirst, hbegins⟩ := hextends.first hi hj
          exact ⟨move, hnew'.trans hfirst, hbegins _⟩
        · rw [if_pos (hmove ▸ number_nonneg move)] at hnew'
          exact ⟨move, hnew'.trans hmove, hextends.begins move _ hbegins⟩
    · obtain ⟨hsame, hsame'⟩ := hother c hc hne
      exact ⟨hsame ▸ hc'.cost_le, by rw [hsame, hsame']; exact hc'.begins⟩
  · by_cases hne : c = target
    · exact hne ▸ himproved.cost_le.2
    · exact (hother c hc hne).1.le
  · exact hcost ▸ himproved.cost_le.1

/-- The same for assignments with one more condition. -/
theorem Filling.improveIf {t t' t'' : TRepresentation} {edge : ℕ} {tie guard : Prop} [Decidable tie]
    [Decidable guard] {first : ℤ} (h : Filling labels gold top left right d t t')
    (heq : t'' = if guard then t'.improve source target edge tie first else t')
    (hsize : d + 1 < 65535) (hsound : Sound labels gold top left right t source)
    (hextends : guard → Extends labels gold top left right d source target edge first) :
    Filling labels gold top left right d t t'' ∧ NotAbove left right d t' t'' ∧
      (guard → t''.cost target ≤ t.cost source + edge) := by
  by_cases hguard : guard
  · rw [if_pos hguard] at heq
    obtain ⟨hfilling, hle, hcost⟩ := h.improve heq hsize hsound (hextends hguard)
    exact ⟨hfilling, hle, fun _ => hcost⟩
  · rw [if_neg hguard] at heq
    subst heq
    exact ⟨h, fun _ _ => le_rfl, fun hguard' => absurd hguard' hguard⟩

/-- A prepared diagonal has only costs that no cell can reach. -/
theorem filling_prepare {t : TRepresentation} (hsize : d + 1 < 65535) :
    Filling labels gold top left right d t (t.prepare gold (d + 1)) := by
  refine ⟨TRepresentation.sized_prepare hsize,
    fun c hc => TRepresentation.cell_prepare_of_ne hc.diagonal, fun c hc => ?_⟩
  have hcost := (@TRepresentation.cell_prepare t gold _ c hsize hc.diagonal hc.h_le).1
  exact ⟨hcost.le, fun hlt => absurd hlt (by omega)⟩

/-- The costs of some cells are not above those over another cell by an arc to a node. -/
def Bounded (gold : Tree) (stack right : List ℤ) (d : ℕ) (t t' : TRepresentation) (source : Cell)
    (i j : ℕ) (item : ℤ) : Prop :=
  ∀ h ≤ d + 1, ∀ edge,
    Arc (HeadIn gold.parent) 0 (node stack right source) item (node stack right ⟨i, j, h⟩) edge →
      t'.cost ⟨i, j, h⟩ ≤ t.cost source + edge

/-- Costs that are not larger keep the bounds. -/
theorem Bounded.mono {stack : List ℤ} {t t' t'' : TRepresentation} {item : ℤ} {i j : ℕ}
    (h : Bounded gold stack right d t t' source i j item) (hd : i + j = d + 1)
    (hi : i ≤ left.length) (hj : j ≤ right.length) (hle : NotAbove left right d t' t'') :
    Bounded gold stack right d t t'' source i j item :=
  fun k hk edge harc => (hle ⟨i, j, k⟩ ⟨hd, hi, hj, hk⟩).trans (h k hk edge harc)

/-- A loop fills a diagonal when its passes do. -/
theorem Filling.foldl {α : Type} {t t' : TRepresentation} {Done : α → TRepresentation → Prop}
    {step : TRepresentation → α → TRepresentation} {l : List α}
    (hdone : ∀ a ∈ l, ∀ {s s'}, NotAbove left right d s s' → Done a s → Done a s')
    (hstep : ∀ a ∈ l, ∀ s, Filling labels gold top left right d t s →
      Filling labels gold top left right d t (step s a) ∧ NotAbove left right d s (step s a) ∧
        Done a (step s a))
    (h : Filling labels gold top left right d t t') :
    Filling labels gold top left right d t (l.foldl step t') ∧
      NotAbove left right d t' (l.foldl step t') ∧ ∀ a ∈ l, Done a (l.foldl step t') := by
  induction l generalizing t' with
  | nil => exact ⟨h, fun _ _ => le_rfl, fun _ ha => nomatch ha⟩
  | cons a l ih =>
    obtain ⟨ha, hstep⟩ := List.forall_mem_cons.mp hstep
    obtain ⟨hdonea, hdone⟩ := List.forall_mem_cons.mp hdone
    obtain ⟨hfilling, hle, hd⟩ := ha t' h
    obtain ⟨hfilling', hle', hall⟩ := ih hdone hstep hfilling
    exact ⟨hfilling', fun c hc => (hle' c hc).trans (hle c hc),
      List.forall_mem_cons.mpr ⟨hdonea hle' hd, hall⟩⟩

/-- The same for a loop with a condition. -/
theorem Filling.foldlIf {α : Type} {t t' t'' : TRepresentation} {Done : α → TRepresentation → Prop}
    {step : TRepresentation → α → TRepresentation} {l : List α} {guard : Prop} [Decidable guard]
    (heq : t'' = if guard then l.foldl step t' else t')
    (hdone : guard → ∀ a ∈ l, ∀ {s s'}, NotAbove left right d s s' → Done a s → Done a s')
    (hstep : guard → ∀ a ∈ l, ∀ s, Filling labels gold top left right d t s →
      Filling labels gold top left right d t (step s a) ∧ NotAbove left right d s (step s a) ∧
        Done a (step s a))
    (h : Filling labels gold top left right d t t') :
    Filling labels gold top left right d t t'' ∧ NotAbove left right d t' t'' ∧
      (guard → ∀ a ∈ l, Done a t'') := by
  by_cases hguard : guard
  · rw [heq, if_pos hguard]
    obtain ⟨hfilling, hle, hall⟩ := h.foldl (hdone hguard) (hstep hguard)
    exact ⟨hfilling, hle, fun _ => hall⟩
  · rw [heq, if_neg hguard]
    exact ⟨h, fun _ _ => le_rfl, fun hguard' => absurd hguard' hguard⟩

section Loops

variable (nodes : Nodes top left right) (hsize : d + 1 < 65535) {t t' : TRepresentation} {i j h : ℕ}

include nodes

/-- The nodes of a cell are not negative. -/
theorem nonneg (hc : InTable left right d c) : 0 ≤ node (top :: left) right c := by
  refine nodes.nonneg _ ?_
  have hmem := List.mem_of_getElem? (@getElem?_nodesOf top left right d c hc)
  simp only [nodesOf, List.mem_append, List.mem_reverse, List.mem_cons] at hmem ⊢
  rcases hmem with hmem | hmem | hmem
  · exact .inl (.inr (List.mem_of_mem_take hmem))
  · exact .inl (.inl hmem)
  · exact .inr (List.mem_of_mem_take hmem)

/-- The root is not on the right stack. -/
theorem zero_not_mem : 0 ∉ right := fun hmem =>
  (List.nodup_append.mp nodes.nodup).2.2 0 (List.mem_of_getLast? nodes.bottom) 0 hmem rfl

/-- As long as there are nodes below, the root is not among those of a cell. -/
theorem node_ne_zero (hc : InTable left right d c) (hi : c.i < left.length) :
    node (top :: left) right c ≠ 0 := by
  intro hzero
  have hmem := hzero ▸ List.mem_of_getElem? (@getElem?_nodesOf top left right d c hc)
  have hbottom : 0 ∈ left.drop c.i := by
    have hne : left.drop c.i ≠ [] := by simpa using hi
    have hlast := nodes.bottom
    have hsplit : top :: left = (top :: left.take c.i) ++ left.drop c.i := by simp
    rw [hsplit, List.getLast?_append_of_ne_nil _ hne] at hlast
    exact List.mem_of_getLast? hlast
  have hnodup := nodes.nodup
  rw [← List.take_append_drop c.i left, ← List.cons_append, List.append_assoc,
    List.nodup_append] at hnodup
  simp only [nodesOf, List.mem_append, List.mem_reverse, List.mem_cons] at hmem
  rcases hmem with hmem | hmem | hmem
  · exact hnodup.2.2 0 (List.mem_cons_of_mem _ hmem) 0 (List.mem_append_left _ hbottom) rfl
  · exact hnodup.2.2 0 (hmem ▸ List.mem_cons_self) 0 (List.mem_append_left _ hbottom) rfl
  · exact zero_not_mem nodes (List.mem_of_mem_take hmem)

/-- The next node of the stack can become a child. -/
theorem extends_stackChild (hc : InTable left right d ⟨i, j, h⟩) (hi : i < left.length)
    (hitem : node (top :: left) right ⟨i + 1, j, 0⟩ ≠ 0) :
    Extends labels gold top left right d ⟨i, j, h⟩ ⟨i + 1, j, h + 1⟩
      (edgeCost gold (node (top :: left) right ⟨i, j, h⟩) (node (top :: left) right ⟨i + 1, j, 0⟩))
      (whichArcTransition labels gold (node (top :: left) right ⟨i, j, h⟩)
        (node (top :: left) right ⟨i + 1, j, 0⟩)) := by
  rw [node_zero] at hitem ⊢
  have hdiagonal : i + j = d := hc.diagonal
  have hle : h ≤ d := hc.h_le
  refine extends_stack hc hi (by omega) ?_ ?_
  · rw [node_succ, edgeCost_eq (nonneg nodes hc)]
    exact .child hitem
  · rintro rfl rfl
    obtain rfl : h = 0 := by omega
    obtain ⟨item, left, rfl⟩ := List.exists_cons_of_length_pos hi
    refine ⟨.leftArc, rfl, fun errors => ?_⟩
    have hnil : Joins (HeadIn gold.parent) 0 [] top [] top errors := .nil top errors
    rw [edgeCost_eq (nonneg nodes hc), Nat.add_comm errors]
    exact .leftArc hitem hnil

/-- The next node of the stack can become the head. -/
theorem extends_stackHead (hc : InTable left right d ⟨i, j, h⟩) (hi : i < left.length) :
    Extends labels gold top left right d ⟨i, j, h⟩ ⟨i + 1, j, 0⟩
      (edgeCost gold (node (top :: left) right ⟨i + 1, j, 0⟩) (node (top :: left) right ⟨i, j, h⟩))
      (whichArcTransition labels gold (node (top :: left) right ⟨i + 1, j, 0⟩)
        (node (top :: left) right ⟨i, j, h⟩)) := by
  have hdiagonal : i + j = d := hc.diagonal
  have hle : h ≤ d := hc.h_le
  have hhead := node_ne_zero nodes hc hi
  have hitem : InTable left right (d + 1) ⟨i + 1, j, 0⟩ :=
    ⟨by simp only [Cell.diagonal]; omega, hi, hc.j_le, Nat.zero_le _⟩
  rw [edgeCost_eq (nonneg nodes hitem), node_zero]
  refine extends_stack hc hi (by omega) ?_ ?_
  · rw [node_zero]
    exact .head hhead
  · rintro rfl rfl
    obtain rfl : h = 0 := by omega
    obtain ⟨item, left, rfl⟩ := List.exists_cons_of_length_pos hi
    refine ⟨.rightArc, rfl, fun errors => ?_⟩
    have hnil : Joins (HeadIn gold.parent) 0 [] item [] item errors := .nil item errors
    rw [Nat.add_comm errors]
    exact .rightArc hhead hnil

/-- The next node of the right stack can become a child. -/
theorem extends_rightChild (hc : InTable left right d ⟨i, j, h⟩) (hj : j < right.length) :
    Extends labels gold top left right d ⟨i, j, h⟩ ⟨i, j + 1, h⟩
      (edgeCost gold (node (top :: left) right ⟨i, j, h⟩)
        (node (top :: left) right ⟨i, j + 1, i + j + 1⟩)) 0 := by
  have hle : h ≤ d := hc.h_le
  refine extends_rightStack hc hj (by omega) ?_
  rw [edgeCost_eq (nonneg nodes hc), node_last]
  refine .child fun hzero => zero_not_mem nodes ?_
  rw [List.getD_eq_getElem?_getD, List.getElem?_eq_getElem hj] at hzero
  exact hzero ▸ List.getElem_mem hj

/-- The next node of the right stack can become the head, when the head is not the root. -/
theorem extends_rightHead (hc : InTable left right d ⟨i, j, h⟩) (hj : j < right.length)
    (hhead : node (top :: left) right ⟨i, j, h⟩ ≠ 0) :
    Extends labels gold top left right d ⟨i, j, h⟩ ⟨i, j + 1, i + j + 1⟩
      (edgeCost gold (node (top :: left) right ⟨i, j + 1, i + j + 1⟩)
        (node (top :: left) right ⟨i, j, h⟩)) 0 := by
  have hdiagonal : i + j = d := hc.diagonal
  have hitem : InTable left right (d + 1) ⟨i, j + 1, i + j + 1⟩ :=
    ⟨by simp only [Cell.diagonal]; omega, hc.i_le, hj, by simp only; omega⟩
  refine extends_rightStack hc hj (by omega) ?_
  rw [edgeCost_eq (nonneg nodes hitem), node_last]
  exact .head hhead

include hsize

/-- What the pass for a node does when the stack is extended. -/
theorem extendStack_spec (hfilling : Filling labels gold top left right d t t')
    (hc : InTable left right d ⟨i, j, h⟩) (hi : i < left.length)
    (hsound : Sound labels gold top left right t ⟨i, j, h⟩) :
    let t'' := t'.extendStack labels gold (top :: left) right i j h
    Filling labels gold top left right d t t'' ∧ NotAbove left right d t' t'' ∧
      Bounded gold (top :: left) right d t t'' ⟨i, j, h⟩ (i + 1) j (left.getD i 0) := by
  intro t''
  have hdiagonal : i + j = d := hc.diagonal
  have hle : h ≤ d := hc.h_le
  obtain ⟨s, hs⟩ : ∃ s, s = if node (top :: left) right ⟨i + 1, j, 0⟩ ≠ 0 then
      t'.improve ⟨i, j, h⟩ ⟨i + 1, j, h + 1⟩
        (edgeCost gold (node (top :: left) right ⟨i, j, h⟩)
          (node (top :: left) right ⟨i + 1, j, 0⟩))
        (t'.transition ⟨i, j, h⟩ ≠ 0)
        (whichArcTransition labels gold (node (top :: left) right ⟨i, j, h⟩)
          (node (top :: left) right ⟨i + 1, j, 0⟩))
    else t' := ⟨_, rfl⟩
  have ht'' : t'' = s.improve ⟨i, j, h⟩ ⟨i + 1, j, 0⟩
      (edgeCost gold (node (top :: left) right ⟨i + 1, j, 0⟩)
        (node (top :: left) right ⟨i, j, h⟩))
      (s.transition ⟨i, j, h⟩ ≠ 0)
      (whichArcTransition labels gold (node (top :: left) right ⟨i + 1, j, 0⟩)
        (node (top :: left) right ⟨i, j, h⟩)) := by
    rw [hs]
    rfl
  obtain ⟨hfilling', hnot, hchild⟩ :=
    hfilling.improveIf hs hsize hsound (extends_stackChild nodes hc hi)
  obtain ⟨hfilling'', hnot', hhead⟩ :=
    hfilling'.improve ht'' hsize hsound (extends_stackHead nodes hc hi)
  refine ⟨hfilling'', fun c hc => (hnot' c hc).trans (hnot c hc), fun h' hh' edge harc => ?_⟩
  have hmem : ∀ k ≤ d + 1, InTable left right (d + 1) ⟨i + 1, j, k⟩ := fun k hk =>
    ⟨by simp only [Cell.diagonal]; omega, hi, hc.j_le, hk⟩
  have hsame : ∀ k ≤ d + 1, node (top :: left) right ⟨i + 1, j, h'⟩ =
      node (top :: left) right ⟨i + 1, j, k⟩ → h' = k := fun k hk heq =>
    congrArg Cell.h (nodes.eq_of_node_eq (hmem h' hh') (hmem k hk) rfl heq)
  generalize hnext : node (top :: left) right ⟨i + 1, j, h'⟩ = next at harc hsame
  cases harc with
  | child hitem =>
    obtain rfl := hsame (h + 1) (by omega) (node_succ _ _ _ _ _).symm
    rw [← node_zero top left right i j] at hitem ⊢
    rw [← edgeCost_eq (nonneg nodes hc)]
    exact (hnot' _ (hmem _ hh')).trans (hchild hitem)
  | head =>
    obtain rfl := hsame 0 (by omega) (node_zero _ _ _ _ _).symm
    rw [← node_zero top left right i j, ← edgeCost_eq (nonneg nodes (hmem 0 hh'))]
    exact hhead

/-- What the pass for a node does when the right stack is extended. -/
theorem extendRightStack_spec (hfilling : Filling labels gold top left right d t t')
    (hc : InTable left right d ⟨i, j, h⟩) (hj : j < right.length)
    (hsound : Sound labels gold top left right t ⟨i, j, h⟩) :
    let t'' := t'.extendRightStack gold (top :: left) right i j h
    Filling labels gold top left right d t t'' ∧ NotAbove left right d t' t'' ∧
      Bounded gold (top :: left) right d t t'' ⟨i, j, h⟩ i (j + 1) (right.getD j 0) := by
  intro t''
  have hdiagonal : i + j = d := hc.diagonal
  have hle : h ≤ d := hc.h_le
  obtain ⟨s, hs⟩ : ∃ s, s = t'.improve ⟨i, j, h⟩ ⟨i, j + 1, h⟩
      (edgeCost gold (node (top :: left) right ⟨i, j, h⟩)
        (node (top :: left) right ⟨i, j + 1, i + j + 1⟩))
      (t'.transition ⟨i, j, h⟩ > 0) 0 := ⟨_, rfl⟩
  have ht'' : t'' = if node (top :: left) right ⟨i, j, h⟩ ≠ 0 then
      s.improve ⟨i, j, h⟩ ⟨i, j + 1, i + j + 1⟩
        (edgeCost gold (node (top :: left) right ⟨i, j + 1, i + j + 1⟩)
          (node (top :: left) right ⟨i, j, h⟩))
        (s.transition ⟨i, j, h⟩ > 0) 0
      else s := by
    rw [hs]
    rfl
  obtain ⟨hfilling', hnot, hchild⟩ :=
    hfilling.improve hs hsize hsound (extends_rightChild nodes hc hj)
  obtain ⟨hfilling'', hnot', hhead⟩ :=
    hfilling'.improveIf ht'' hsize hsound (extends_rightHead nodes hc hj)
  refine ⟨hfilling'', fun c hc => (hnot' c hc).trans (hnot c hc), fun h' hh' edge harc => ?_⟩
  have hmem : ∀ k ≤ d + 1, InTable left right (d + 1) ⟨i, j + 1, k⟩ := fun k hk =>
    ⟨by simp only [Cell.diagonal]; omega, hc.i_le, hj, hk⟩
  have hsame : ∀ k ≤ d + 1, node (top :: left) right ⟨i, j + 1, h'⟩ =
      node (top :: left) right ⟨i, j + 1, k⟩ → h' = k := fun k hk heq =>
    congrArg Cell.h (nodes.eq_of_node_eq (hmem h' hh') (hmem k hk) rfl heq)
  generalize hnext : node (top :: left) right ⟨i, j + 1, h'⟩ = next at harc hsame
  cases harc with
  | child hitem =>
    obtain rfl := hsame h (by omega) rfl
    rw [← node_last (top :: left) right i j, ← edgeCost_eq (nonneg nodes hc)]
    exact (hnot' _ (hmem _ hh')).trans hchild
  | head hne =>
    obtain rfl := hsame (i + j + 1) (by omega) (node_last _ _ _ _).symm
    rw [← node_last (top :: left) right i j, ← edgeCost_eq (nonneg nodes (hmem _ hh'))]
    exact hhead hne

/-- What is tried for a number of nodes of the stack and of the right stack. -/
theorem extend_spec (hfilling : Filling labels gold top left right d t t') (hd : i + j = d)
    (hi : i ≤ left.length) (hj : j ≤ right.length)
    (hsound : ∀ c, InTable left right d c → Sound labels gold top left right t c) :
    let t'' := t'.extend labels gold (top :: left) right d i
    Filling labels gold top left right d t t'' ∧ NotAbove left right d t' t'' ∧ ∀ h ≤ d,
      (i < left.length →
        Bounded gold (top :: left) right d t t'' ⟨i, j, h⟩ (i + 1) j (left.getD i 0)) ∧
      (j < right.length →
        Bounded gold (top :: left) right d t t'' ⟨i, j, h⟩ i (j + 1) (right.getD j 0)) := by
  intro t''
  obtain rfl : d - i = j := by omega
  have hc : ∀ h ∈ List.range (d + 1), InTable left right d ⟨i, d - i, h⟩ := fun h hh =>
    ⟨hd, hi, hj, Nat.le_of_lt_succ (List.mem_range.mp hh)⟩
  obtain ⟨s, hs⟩ : ∃ s, s = if i + 1 < (top :: left).length then
      (List.range (d + 1)).foldl
        (TRepresentation.extendStack labels gold (top :: left) right i (d - i)) t'
    else t' := ⟨_, rfl⟩
  have ht'' : t'' = if d - i + 1 < right.length + 1 then
      (List.range (d + 1)).foldl
        (TRepresentation.extendRightStack gold (top :: left) right i (d - i)) s
      else s := by
    rw [hs]
    rfl
  obtain ⟨hfilling', hle, hleft⟩ := @Filling.foldlIf labels gold top left right d ℕ t t' s
    (fun h s => Bounded gold (top :: left) right d t s ⟨i, d - i, h⟩ (i + 1) (d - i)
      (left.getD i 0)) _ _ _ _ hs
    (fun hi' h hh s s' hle hbound => hbound.mono (by omega) (Nat.le_of_succ_le_succ hi') hj hle)
    (fun hi' h hh s hs =>
      extendStack_spec nodes hsize hs (hc h hh) (Nat.lt_of_succ_lt_succ hi') (hsound _ (hc h hh)))
    hfilling
  obtain ⟨hfilling'', hle', hright⟩ := @Filling.foldlIf labels gold top left right d ℕ t s t''
    (fun h s => Bounded gold (top :: left) right d t s ⟨i, d - i, h⟩ i (d - i + 1)
      (right.getD (d - i) 0)) _ _ _ _ ht''
    (fun hj' h hh s s' hle hbound => hbound.mono (by omega) hi (Nat.le_of_lt_succ hj') hle)
    (fun hj' h hh s hs =>
      extendRightStack_spec nodes hsize hs (hc h hh) (Nat.lt_of_succ_lt_succ hj')
        (hsound _ (hc h hh)))
    hfilling'
  refine ⟨hfilling'', fun c hc => (hle' c hc).trans (hle c hc), fun h hh => ⟨fun hi' => ?_, ?_⟩⟩
  · have hbound := hleft (Nat.succ_lt_succ hi') h (List.mem_range.mpr (by omega))
    exact hbound.mono (by omega) hi' hj hle'
  · exact fun hj' => hright (Nat.succ_lt_succ hj') h (List.mem_range.mpr (by omega))

/-- A diagonal that is filled: its costs are the least numbers of wrong arcs. -/
structure Filled (labels : List Bytes) (gold : Tree) (top : ℤ) (left right : List ℤ) (d : ℕ)
    (t : TRepresentation) : Prop where
  sound : ∀ c, InTable left right d c → Sound labels gold top left right t c
  complete : ∀ c, InTable left right d c → Complete gold top left right t c

omit nodes in
/-- A cell is complete when its costs are bounded by those of the diagonal before. -/
theorem complete_of_bounded (h : Filled labels gold top left right d t)
    (hbound : ∀ i j h, InTable left right d ⟨i, j, h⟩ →
      (i < left.length →
        Bounded gold (top :: left) right d t t' ⟨i, j, h⟩ (i + 1) j (left.getD i 0)) ∧
      (j < right.length →
        Bounded gold (top :: left) right d t t' ⟨i, j, h⟩ i (j + 1) (right.getD j 0)))
    (hc : InTable left right (d + 1) c) : Complete gold top left right t' c := by
  intro errors herrors hjoins
  obtain ⟨i, j, k⟩ := c
  have hdiagonal : i + j = d + 1 := hc.diagonal
  have hi : i ≤ left.length := hc.i_le
  have hj : j ≤ right.length := hc.j_le
  have hne : ¬ (left.take i = [] ∧ right.take j = []) := by
    rintro ⟨hleft, hright⟩
    have hleft := congrArg List.length hleft
    have hright := congrArg List.length hright
    simp only [List.length_take, List.length_nil] at hleft hright
    omega
  obtain ⟨left', right', leftEnd, rightEnd, item, last', errors', arcErrors, hleft, hright, htakes,
    hjoins, harc, hle⟩ := hjoins.exists_last hne
  have hlt : errors' < gold.nodes.length + 1 := by omega
  simp only at hleft hright
  cases htakes with
  | left =>
    obtain _ | i := i
    · simp at hleft
    · rw [take_succ hi] at hleft
      obtain ⟨rfl, hitem⟩ := List.append_inj' hleft rfl
      obtain rfl := List.singleton_inj.mp hitem
      rw [List.append_nil] at hright
      subst hright
      obtain ⟨h', hh', rfl⟩ := exists_node (Nat.le_of_succ_le hi) hj hjoins
      have hsource : InTable left right d ⟨i, j, h'⟩ :=
        ⟨by simp only [Cell.diagonal]; omega, Nat.le_of_succ_le hi, hj, by simp only; omega⟩
      have hcost := h.complete _ hsource errors' hlt hjoins
      have hcost' := (hbound i j h' hsource).1 hi k hc.h_le arcErrors harc
      omega
  | right =>
    obtain _ | j := j
    · simp at hright
    · rw [take_succ hj] at hright
      obtain ⟨rfl, hitem⟩ := List.append_inj' hright rfl
      obtain rfl := List.singleton_inj.mp hitem
      rw [List.append_nil] at hleft
      subst hleft
      obtain ⟨h', hh', rfl⟩ := exists_node hi (Nat.le_of_succ_le hj) hjoins
      have hsource : InTable left right d ⟨i, j, h'⟩ :=
        ⟨by simp only [Cell.diagonal]; omega, hi, Nat.le_of_succ_le hj, by simp only; omega⟩
      have hcost := h.complete _ hsource errors' hlt hjoins
      have hcost' := (hbound i j h' hsource).2 hj k hc.h_le arcErrors harc
      omega

/-- The pass for a diagonal fills the next one. -/
theorem fillDiagonal_spec (h : Filled labels gold top left right d t) :
    Filling labels gold top left right d t (t.fillDiagonal labels gold (top :: left) right d) ∧
      Filled labels gold top left right (d + 1)
        (t.fillDiagonal labels gold (top :: left) right d) := by
  have hrange : ∀ i, i ∈ List.range' (if d > right.length then d - right.length else 0)
      (min (d + 1) (top :: left).length - if d > right.length then d - right.length else 0) ↔
      i ≤ d ∧ i ≤ left.length ∧ d - i ≤ right.length := by
    intro i
    rw [List.mem_range'_1, List.length_cons]
    split <;> omega
  obtain ⟨hfilling, -, hall⟩ := @Filling.foldl labels gold top left right d ℕ t _
    (fun i s => ∀ h ≤ d,
      (i < left.length →
        Bounded gold (top :: left) right d t s ⟨i, d - i, h⟩ (i + 1) (d - i) (left.getD i 0)) ∧
      (d - i < right.length →
        Bounded gold (top :: left) right d t s ⟨i, d - i, h⟩ i (d - i + 1) (right.getD (d - i) 0)))
    (TRepresentation.extend labels gold (top :: left) right d) _
    (fun i hi s s' hle hbound h hh => by
      obtain ⟨hd, hi, hj⟩ := (hrange i).mp hi
      exact ⟨fun hi' => ((hbound h hh).1 hi').mono (by omega) hi' hj hle,
        fun hj' => ((hbound h hh).2 hj').mono (by omega) hi hj' hle⟩)
    (fun i hi s hs => by
      obtain ⟨hd, hi, hj⟩ := (hrange i).mp hi
      exact extend_spec nodes hsize hs (by omega) hi hj h.sound)
    (filling_prepare hsize)
  refine ⟨hfilling, hfilling.sound, fun c hc =>
    complete_of_bounded hsize h (fun i j k hmem => ?_) hc⟩
  have hdiagonal : i + j = d := hmem.diagonal
  obtain rfl : j = d - i := by omega
  exact hall i ((hrange i).mpr ⟨by omega, hmem.i_le, hmem.j_le⟩) k hmem.h_le

end Loops

/-- The first diagonal is filled at the start. -/
theorem filled_start : Filled labels gold top left right 0 (TRepresentation.start gold) := by
  have hcell : ∀ c, InTable left right 0 c → c = ⟨0, 0, 0⟩ := by
    rintro ⟨i, j, h⟩ hc
    have hdiagonal : i + j = 0 := hc.diagonal
    have hh : h ≤ 0 := hc.h_le
    simp only [Cell.mk.injEq]
    omega
  have hcost : (TRepresentation.start gold).cost ⟨0, 0, 0⟩ = 0 := rfl
  have htransition : (TRepresentation.start gold).transition ⟨0, 0, 0⟩ = -1 := rfl
  refine ⟨fun c hc => ?_, fun c hc => ?_⟩
  · obtain rfl := hcell c hc
    exact ⟨hcost ▸ Nat.zero_le _, fun _ => .inl ⟨by rw [htransition]; decide, rfl, rfl⟩⟩
  · obtain rfl := hcell c hc
    exact fun errors _ _ => hcost ▸ Nat.zero_le errors

section Fill

variable (nodes : Nodes top left right) (hsize : left.length + 1 + right.length < 65535)

include nodes hsize

/-- The last cell of the table is sound and complete. -/
theorem fill_spec :
    Sound labels gold top left right (TRepresentation.fill labels gold (top :: left) right)
        ⟨left.length, right.length, 0⟩ ∧
      Complete gold top left right (TRepresentation.fill labels gold (top :: left) right)
        ⟨left.length, right.length, 0⟩ := by
  have hfilled : ∀ d ≤ left.length + right.length, Filled labels gold top left right d
      ((List.range d).foldl (TRepresentation.fillDiagonal labels gold (top :: left) right)
        (TRepresentation.start gold)) := by
    intro d hd
    induction d with
    | zero => exact filled_start
    | succ d ih =>
      rw [List.range_succ, List.foldl_append]
      exact (fillDiagonal_spec nodes (by omega) (ih (by omega))).2
  -- the last pass clears another diagonal
  have hlast := hfilled (left.length + right.length) le_rfl
  have hfilling := (fillDiagonal_spec nodes (by omega) hlast).1
  have hcell : InTable left right (left.length + right.length) ⟨left.length, right.length, 0⟩ :=
    ⟨rfl, le_rfl, le_rfl, Nat.zero_le _⟩
  obtain ⟨hcost, htransition⟩ := hfilling.same _ hcell
  have hfill : TRepresentation.fill labels gold (top :: left) right =
      ((List.range (left.length + right.length)).foldl
        (TRepresentation.fillDiagonal labels gold (top :: left) right)
        (TRepresentation.start gold)).fillDiagonal labels gold (top :: left) right
          (left.length + right.length) := by
    rw [TRepresentation.fill, List.length_cons, Nat.add_right_comm, List.range_succ,
      List.foldl_append]
    rfl
  rw [hfill]
  have hsound := hlast.sound _ hcell
  refine ⟨⟨hcost ▸ hsound.cost_le, ?_⟩, fun errors herrors hjoins => ?_⟩
  · rw [hcost, htransition]
    exact hsound.begins
  · exact hcost ▸ hlast.complete _ hcell errors herrors hjoins

/-- The transition of the last cell is the first one of a best way to join the stack with the
right stack. -/
theorem exists_begins (hne : ¬ (left = [] ∧ right = []))
    (hlength : left.length + right.length ≤ gold.nodes.length) :
    ∃ move errors, (TRepresentation.fill labels gold (top :: left) right).transition
        ⟨left.length, right.length, 0⟩ = number labels gold top left move ∧
      Begins (HeadIn gold.parent) 0 move left top right 0 errors ∧
      ∀ errors', Joins (HeadIn gold.parent) 0 left top right 0 errors' → errors ≤ errors' := by
  obtain ⟨hsound, hcomplete⟩ := @fill_spec labels gold top left right nodes hsize
  generalize TRepresentation.fill labels gold (top :: left) right = t at hsound hcomplete ⊢
  have hbottom : node (top :: left) right ⟨left.length, right.length, 0⟩ = 0 := by
    have hlast := nodes.bottom
    rw [List.getLast?_eq_getElem?, List.length_cons, Nat.add_sub_cancel] at hlast
    simp only [node, Nat.zero_le, if_true, Nat.sub_zero, List.getD_eq_getElem?_getD, hlast,
      Option.getD_some]
  have hjoins : ∀ errors, JoinsAt gold top left right ⟨left.length, right.length, 0⟩ errors ↔
      Joins (HeadIn gold.parent) 0 left top right 0 errors := by
    intro errors
    rw [JoinsAt, hbottom, List.take_length, List.take_length]
  have hcost : t.cost ⟨left.length, right.length, 0⟩ < gold.nodes.length + 1 := by
    obtain ⟨errors, h⟩ := @Joins.exists_of_bottom ℤ (HeadIn gold.parent) _ 0 left right top
      nodes.bottom (List.nodup_append.mp nodes.nodup).1
      fun a ha hzero => zero_not_mem nodes (hzero ▸ ha)
    have := hcomplete _ (by omega) ((hjoins _).mpr h.le_length)
    omega
  rcases hsound.begins hcost with ⟨-, hleft, hright⟩ | ⟨move, hmove, hbegins⟩
  · exact absurd ⟨List.eq_nil_of_length_eq_zero hleft, List.eq_nil_of_length_eq_zero hright⟩ hne
  · rw [BeginsAt, hbottom, List.take_length, List.take_length] at hbegins
    refine ⟨move, _, hmove, hbegins, fun errors' h => ?_⟩
    rcases lt_or_ge errors' (gold.nodes.length + 1) with hlt | hge
    · exact hcomplete errors' hlt ((hjoins errors').mpr h)
    · omega

end Fill

end DynamicOracle

end UDPipe.Parsito
