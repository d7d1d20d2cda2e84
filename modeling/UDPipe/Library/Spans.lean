import Mathlib.Tactic.Common
import Mathlib.Algebra.Ring.Nat
import Mathlib.Algebra.BigOperators.Group.List.Basic

/-!
# Spans of a list

A span is given by where it begins and by how many elements it has. Spans that follow
each other and contain all elements with a property have these elements in order. And
sums that are equal have equal terms, if each term of one is at most that of the other.
-/

namespace Spans

variable {α : Type}

/-- The elements of a span. -/
def elements (xs : List α) (span : ℕ × ℕ) : List α := (xs.drop span.1).take span.2

/-- The position is in the span. -/
def Contains (span : ℕ × ℕ) (i : ℕ) : Prop := span.1 ≤ i ∧ i < span.1 + span.2

/-- From position `k` on, the spans have all the elements with a property. -/
theorem filter_drop_eq_flatMap {p : α → Bool} {xs : List α} {spans : List (ℕ × ℕ)} {k : ℕ}
    (hfirst : ∀ span ∈ spans, k ≤ span.1)
    (hordered : spans.Pairwise fun span span' => span.1 + span.2 ≤ span'.1)
    (hcover : ∀ i x, k ≤ i → xs[i]? = some x → p x = true → ∃ span ∈ spans, Contains span i) :
    (xs.drop k).filter p = spans.flatMap fun span => (elements xs span).filter p := by
  induction spans generalizing k with
  | nil =>
    refine List.filter_eq_nil_iff.mpr fun x hx hp => ?_
    obtain ⟨i, hi⟩ := List.mem_iff_getElem?.mp hx
    rw [List.getElem?_drop] at hi
    obtain ⟨span, hspan, _⟩ := hcover (k + i) x (Nat.le_add_right k i) hi hp
    cases hspan
  | cons span spans ih =>
    obtain ⟨hafter, hordered⟩ := List.pairwise_cons.mp hordered
    have hk := hfirst span List.mem_cons_self
    have hgap : ((xs.drop k).take (span.1 - k)).filter p = [] := by
      refine List.filter_eq_nil_iff.mpr fun x hx hp => ?_
      obtain ⟨i, hi⟩ := List.mem_iff_getElem?.mp hx
      have hlt : i < span.1 - k := by
        have := (List.getElem?_eq_some_iff.mp hi).1
        rw [List.length_take] at this
        omega
      rw [List.getElem?_take_of_lt hlt, List.getElem?_drop] at hi
      obtain ⟨span', hspan', hle, _⟩ := hcover (k + i) x (Nat.le_add_right k i) hi hp
      rcases List.mem_cons.mp hspan' with rfl | hspan'
      · omega
      · have := hafter span' hspan'
        omega
    have hrest := @ih (span.1 + span.2) hafter hordered fun i x hi hx hp => by
      obtain ⟨span', hspan', hcontains⟩ := hcover i x (by omega) hx hp
      rcases List.mem_cons.mp hspan' with rfl | hspan'
      · exact absurd hcontains.2 (Nat.not_lt.mpr hi)
      · exact ⟨span', hspan', hcontains⟩
    have hsplit : xs.drop k =
        (xs.drop k).take (span.1 - k) ++ (elements xs span ++ xs.drop (span.1 + span.2)) := by
      rw [elements, ← List.drop_drop, List.take_append_drop]
      conv_lhs => rw [← List.take_append_drop (span.1 - k) (xs.drop k)]
      rw [List.drop_drop, Nat.add_sub_cancel' hk]
    rw [hsplit, List.filter_append, List.filter_append, hgap, hrest, List.flatMap_cons,
      List.nil_append]

/-- Terms that are at most those of another sum give a sum that is at most the other, and
equal terms if the sums are equal. -/
theorem sum_le_and_eq {xs : List α} {f g : α → ℕ} (hle : ∀ x ∈ xs, f x ≤ g x) :
    (xs.map f).sum ≤ (xs.map g).sum ∧
      ((xs.map f).sum = (xs.map g).sum → ∀ x ∈ xs, f x = g x) := by
  induction xs with
  | nil => exact ⟨le_rfl, fun _ => List.forall_mem_nil _⟩
  | cons x xs ih =>
    obtain ⟨hx, hxs⟩ := List.forall_mem_cons.mp hle
    obtain ⟨hrest, heq⟩ := ih hxs
    simp only [List.map_cons, List.sum_cons]
    exact ⟨by omega, fun hsum => List.forall_mem_cons.mpr ⟨by omega, heq (by omega)⟩⟩

/-- Equal sums of terms that are at most those of the other have equal terms. -/
theorem eq_of_sum_eq {xs : List α} {f g : α → ℕ} (hle : ∀ x ∈ xs, f x ≤ g x)
    (hsum : (xs.map f).sum = (xs.map g).sum) : ∀ x ∈ xs, f x = g x :=
  (sum_le_and_eq hle).2 hsum

end Spans
