import Mathlib.Algebra.Order.Ring.Int
import Mathlib.Data.Set.Basic

/-!
# Sequences that gain step by step

A sequence is built at its front, and every new element gains a score that depends on
the element and on the state of the sequence before. A set of sequences covers another
one when it has, for each sequence of it, one with the same state and at least the same
total. Covering survives extension, so it is enough to keep the best sequence of each
state.
-/

namespace Trellis

variable {α σ : Type*} (state : List α → σ) (gain : List α → ℤ)

/-- The sum of what the elements gained. -/
def total : List α → ℤ
  | [] => 0
  | a :: h => total h + gain (a :: h)

/-- The state decides about the next state and about the next gain. -/
structure Decides : Prop where
  state_cons : ∀ a g h, state g = state h → state (a :: g) = state (a :: h)
  gain_cons : ∀ a g h, state g = state h → gain (a :: g) = gain (a :: h)

/-- `g` can stand for `h`. -/
def Dominates (g h : List α) : Prop := state g = state h ∧ total gain h ≤ total gain g

/-- Every sequence of `all` is dominated by one of `kept`. -/
def Covers (kept all : Set (List α)) : Prop := ∀ h ∈ all, ∃ g ∈ kept, Dominates state gain g h

variable {state gain}

/-- A history dominates itself. -/
theorem Dominates.refl (h : List α) : Dominates state gain h h := ⟨rfl, le_rfl⟩

/-- What dominates a history dominates all that it dominates. -/
theorem Dominates.trans {f g h : List α} (hfg : Dominates state gain f g)
    (hgh : Dominates state gain g h) : Dominates state gain f h :=
  ⟨hfg.1.trans hgh.1, hgh.2.trans hfg.2⟩

/-- Extended by the same element, a sequence goes on dominating. -/
theorem Dominates.cons (hdecides : Decides state gain) {g h : List α}
    (hgh : Dominates state gain g h) (a : α) : Dominates state gain (a :: g) (a :: h) := by
  refine ⟨hdecides.state_cons a g h hgh.1, ?_⟩
  have hgain := hdecides.gain_cons a g h hgh.1
  have htotal := hgh.2
  simp only [total]
  omega

/-- Covering sets can be replaced by sets that cover them. -/
theorem Covers.trans {s t u : Set (List α)} (hst : Covers state gain s t)
    (htu : Covers state gain t u) : Covers state gain s u := by
  intro h hh
  obtain ⟨g, hg, hgh⟩ := htu h hh
  obtain ⟨f, hf, hfg⟩ := hst g hg
  exact ⟨f, hf, hfg.trans hgh⟩

/-- The extensions of a covering set cover the extensions. -/
theorem Covers.cons (hdecides : Decides state gain) {kept all : Set (List α)}
    (h : Covers state gain kept all) (next : Set α) :
    Covers state gain {l | ∃ a ∈ next, ∃ g ∈ kept, l = a :: g}
      {l | ∃ a ∈ next, ∃ g ∈ all, l = a :: g} := by
  rintro _ ⟨a, ha, g, hg, rfl⟩
  obtain ⟨f, hf, hfg⟩ := h g hg
  exact ⟨a :: f, ⟨a, ha, f, hf, rfl⟩, hfg.cons hdecides a⟩

/-- The best kept sequence is the best of all. -/
theorem Covers.le_of_best {kept all : Set (List α)} (h : Covers state gain kept all) {best : List α}
    (hbest : ∀ g ∈ kept, total gain g ≤ total gain best) {l : List α} (hl : l ∈ all) :
    total gain l ≤ total gain best := by
  obtain ⟨g, hg, hgl⟩ := h l hl
  exact hgl.2.trans (hbest g hg)

end Trellis
