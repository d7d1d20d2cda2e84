import Mathlib.Tactic.Common
import Mathlib.Algebra.Ring.Nat
import Mathlib.Algebra.BigOperators.Group.List.Basic
import Mathlib.Algebra.Order.Group.Defs

/-!
# Segmentations

A line of positions is cut into segments of bounded length, and cuts are allowed
at some positions only. A position is reached when the positions before it can
be cut up to it. Every allowed position is reached if each has another one close
below it, and nothing is reached beyond a gap that is too long. With a cost for every
segment, a table of the best sums is checked segment by segment; sums may be lost on the
way, as those of floating-point numbers that overflow.
-/

namespace Segmentation

variable {cut : ℕ → Prop} {limit : ℕ}

/-- The positions that segments of length at most `limit` reach from position zero. -/
inductive Reaches (cut : ℕ → Prop) (limit : ℕ) : ℕ → Prop
  | zero : Reaches cut limit 0
  | step {p q : ℕ} (hp : Reaches cut limit p) (hlt : p < q) (hle : q ≤ p + limit) (hq : cut q) :
    Reaches cut limit q

/-- What is reached is the start or an allowed cut. -/
theorem Reaches.eq_zero_or_cut {q : ℕ} (h : Reaches cut limit q) : q = 0 ∨ cut q := by
  cases h with
  | zero => exact .inl rfl
  | step _ _ _ hq => exact .inr hq

/-- All cuts are reached if each has a cut or the start within the limit below it. -/
theorem reaches_of_close {n : ℕ} (h : ∀ q, 0 < q → q ≤ n → cut q →
    ∃ p, p < q ∧ q ≤ p + limit ∧ (p = 0 ∨ cut p)) {q : ℕ} (hn : q ≤ n) (hq : cut q) :
    Reaches cut limit q := by
  induction q using Nat.strongRecOn with
  | ind q ih =>
    rcases Nat.eq_zero_or_pos q with rfl | hpos
    · exact .zero
    · obtain ⟨p, hlt, hle, hp⟩ := h q hpos hn hq
      have hreach : Reaches cut limit p := by
        rcases hp with rfl | hp
        · exact .zero
        · exact ih p hlt (by omega) hp
      exact hreach.step hlt hle hq

/-- Nothing is reached beyond a gap that is longer than the limit. -/
theorem Reaches.lt_of_gap {a b : ℕ} (hgap : a + limit < b) (hnone : ∀ i, a < i → i < b → ¬ cut i)
    {q : ℕ} (h : Reaches cut limit q) : q < b := by
  induction h with
  | zero => omega
  | @step p q hp hlt hle _ ih =>
    rcases Nat.lt_or_ge a p with hap | hpa
    · rcases hp.eq_zero_or_cut with rfl | hcut
      · omega
      · exact absurd hcut (hnone p hap ih)
    · omega

/-- The lengths of the segments that lead from one position to another. -/
inductive Segments (cut : ℕ → Prop) (limit : ℕ) : ℕ → List ℕ → ℕ → Prop
  | nil (a : ℕ) : Segments cut limit a [] a
  | cons {a b len : ℕ} {lengths : List ℕ} (hpos : 0 < len) (hle : len ≤ limit)
    (hcut : cut (a + len)) (h : Segments cut limit (a + len) lengths b) :
    Segments cut limit a (len :: lengths) b

/-- The lengths of the segments add up to the distance. -/
theorem Segments.add_sum {a b : ℕ} {lengths : List ℕ} (h : Segments cut limit a lengths b) :
    a + lengths.sum = b := by
  induction h with
  | nil => simp
  | cons _ _ _ _ ih => rw [List.sum_cons, ← Nat.add_assoc, ih]

/-- Only the cuts up to the end matter. -/
theorem Segments.congr {cut' : ℕ → Prop} {a b : ℕ} {lengths : List ℕ}
    (h : Segments cut limit a lengths b) (hcut : ∀ p ≤ b, cut p → cut' p) :
    Segments cut' limit a lengths b := by
  induction h with
  | nil a => exact .nil a
  | cons hpos hle hstep hrest ih =>
    have := hrest.add_sum
    exact .cons hpos hle (hcut _ (by omega) hstep) (ih hcut)

/-- A position that is reached is reached by segments. -/
theorem Reaches.exists_segments {q : ℕ} (h : Reaches cut limit q) {b : ℕ} {lengths : List ℕ}
    (hlengths : Segments cut limit q lengths b) : ∃ lengths', Segments cut limit 0 lengths' b := by
  induction h generalizing lengths with
  | zero => exact ⟨lengths, hlengths⟩
  | @step p q hp hlt hle hq ih =>
    have hpq : p + (q - p) = q := by omega
    exact ih (.cons (by omega) (by omega) (hpq.symm ▸ hq) (hpq.symm ▸ hlengths))

/-- Segments from a position that is reached lead to one that is. -/
theorem Segments.reaches {a b : ℕ} {lengths : List ℕ} (h : Segments cut limit a lengths b)
    (ha : Reaches cut limit a) : Reaches cut limit b := by
  induction h with
  | nil => exact ha
  | cons hpos hle hcut _ ih => exact ih (ha.step (by omega) (by omega) hcut)

/-! ### The best segmentation -/

section Score

variable {R : Type*}

/-- The sum of the costs of segments that begin at a position. -/
def score [Add R] [Zero R] (cost : ℕ → ℕ → R) : ℕ → List ℕ → R
  | _, [] => 0
  | a, len :: lengths => cost a (a + len) + score cost (a + len) lengths

/-- Only the costs up to the end matter. -/
theorem Segments.score_congr [Add R] [Zero R] {cost cost' : ℕ → ℕ → R} {a b : ℕ}
    {lengths : List ℕ} (h : Segments cut limit a lengths b)
    (hcost : ∀ p q, p < q → q ≤ b → cost p q = cost' p q) :
    score cost a lengths = score cost' a lengths := by
  induction h with
  | nil => rfl
  | cons hpos _ _ hrest ih =>
    have := hrest.add_sum
    rw [score, score, hcost _ _ (by omega) (by omega), ih hcost]

/-- The sum of the costs from the left, as long as every sum on the way is allowed. -/
def leftScore [Add R] (allowed : R → Bool) (cost : ℕ → ℕ → R) : R → ℕ → List ℕ → Option R
  | v, _, [] => some v
  | v, a, len :: lengths =>
    if allowed (v + cost a (a + len)) then
      leftScore allowed cost (v + cost a (a + len)) (a + len) lengths
    else none

/-- Where all sums are allowed, the order of adding has no part in the sum. -/
theorem leftScore_eq_score [AddMonoid R] {allowed : R → Bool} (hall : ∀ r, allowed r = true)
    (cost : ℕ → ℕ → R) (v : R) (a : ℕ) (lengths : List ℕ) :
    leftScore allowed cost v a lengths = some (v + score cost a lengths) := by
  induction lengths generalizing v a with
  | nil => rw [leftScore, score, add_zero]
  | cons len lengths ih => rw [leftScore, if_pos (hall _), ih, score, add_assoc]

/-- Where all sums are allowed, there is a sum. -/
theorem exists_leftScore [Add R] {allowed : R → Bool} (hall : ∀ r, allowed r = true)
    (cost : ℕ → ℕ → R) (v : R) (a : ℕ) (lengths : List ℕ) :
    ∃ w, leftScore allowed cost v a lengths = some w := by
  induction lengths generalizing v a with
  | nil => exact ⟨v, rfl⟩
  | cons len lengths ih =>
    rw [leftScore, if_pos (hall _)]
    exact ih _ _

/-- Only the costs up to the end matter. -/
theorem Segments.leftScore_congr [Add R] {allowed : R → Bool} {cost cost' : ℕ → ℕ → R} {a b : ℕ}
    {lengths : List ℕ} (h : Segments cut limit a lengths b)
    (hcost : ∀ p q, p < q → q ≤ b → cost p q = cost' p q) (v : R) :
    leftScore allowed cost v a lengths = leftScore allowed cost' v a lengths := by
  induction h generalizing v with
  | nil => rfl
  | cons hpos _ _ hrest ih =>
    have := hrest.add_sum
    rw [leftScore, leftScore, hcost _ _ (by omega) (by omega), ih hcost]

variable [LinearOrder R] [Add R]

/-- Adding a cost keeps the order of sums, and what is at least an allowed sum is allowed. -/
structure OrderedSums (allowed : R → Bool) : Prop where
  add_le_add : ∀ {v w : R} (c : R), v ≤ w → v + c ≤ w + c
  allowed_of_le : ∀ {v w : R}, v ≤ w → allowed v = true → allowed w = true

/-- A table with a value for each position that is reached by allowed sums: every value comes
from the value of the position before the last segment, and no other segment would improve it. -/
structure IsTable (allowed : R → Bool) (start : R) (cut : ℕ → Prop) (limit size : ℕ)
    (cost : ℕ → ℕ → R) (value : ℕ → Option R) (last : ℕ → ℕ) : Prop where
  zero : value 0 = some start
  link : ∀ q, 0 < q → q < size → ∀ v, value q = some v → ∃ p v', p < q ∧ q ≤ p + limit ∧ cut q ∧
    last q = q - p ∧ value p = some v' ∧ v = v' + cost p q ∧ allowed v = true
  bound : ∀ p q, p < q → q ≤ p + limit → cut q → q < size → ∀ v', value p = some v' →
    allowed (v' + cost p q) = true → ∃ v, value q = some v ∧ v' + cost p q ≤ v
  last_eq_zero : ∀ q < size, value q = none → last q = 0

variable {allowed : R → Bool} {start : R} {size : ℕ} {cost : ℕ → ℕ → R} {value : ℕ → Option R}
  {last : ℕ → ℕ}

/-- No allowed way from a position with a value leads to a better sum than the table has. -/
theorem IsTable.leftScore_le (h : IsTable allowed start cut limit size cost value last)
    (hordered : OrderedSums allowed) {a b : ℕ} {lengths : List ℕ}
    (hsegments : Segments cut limit a lengths b) (hb : b < size) {v v' w : R}
    (hv : value a = some v) (hle : v' ≤ v) (hscore : leftScore allowed cost v' a lengths = some w) :
    ∃ u, value b = some u ∧ w ≤ u := by
  induction hsegments generalizing v v' with
  | nil =>
    obtain rfl := Option.some.inj hscore
    exact ⟨v, hv, hle⟩
  | @cons a b len lengths hpos hlen hcut hrest ih =>
    have hsum := hrest.add_sum
    rw [leftScore] at hscore
    split at hscore
    · rename_i hallowed
      have hstep := hordered.add_le_add (cost a (a + len)) hle
      obtain ⟨u, hu, hvu⟩ := h.bound a (a + len) (by omega) (by omega) hcut (by omega) v hv
        (hordered.allowed_of_le hstep hallowed)
      exact ih hb hu (hstep.trans hvu) hscore
    · cases hscore

end Score

end Segmentation
