import UDPipe.Library.SortedSuffixes
import UDPipe.LineFormats.Readers

/-!
# The suffix array of the detokenizer

The class `detokenizer::suffix_array` of `tokenizer/detokenizer.h`. It sorts the places of
a text by the suffixes that begin there, and counts the occurrences of a pattern by two binary
searches. The places are `unsigned`, so the loop over them does not end for a text that has
more of them.
-/

namespace UDPipe.SuffixArray

/-- A pass of the loop that fills the array. -/
def placeStep (size : ℕ) : ℕ × List ℕ → LoopStep (ℕ × List ℕ) (List ℕ)
  | (i, sa) => if i < size then .next ((i + 1) % unsignedValues, sa ++ [i]) else .done sa

/-- The operator of `suffix_compare`. -/
def suffixCompare (str : Bytes) (a b : ℕ) : Bool := decide (str.drop a < str.drop b)

/-- The operator of `suffix_lower_find`. -/
def suffixLowerFind (str : Bytes) (a : ℕ) (data : Bytes) : Bool :=
  decide ((str.drop a).take data.length < data)

/-- The operator of `suffix_upper_find`. -/
def suffixUpperFind (str data : Bytes) (a : ℕ) : Bool :=
  decide (data < (str.drop a).take data.length)

/-- The constructor. -/
def new (str : Bytes) : Comp (List ℕ) := do
  let sa ← Comp.loopOf (placeStep str.length) (0, [])
  pure (sa.mergeSort fun a b => !suffixCompare str b a)

/-- The method `count`. -/
def count (str : Bytes) (sa : List ℕ) (data : Bytes) : ℕ :=
  let lower := partitionPoint sa fun a => suffixLowerFind str a data
  let upper := partitionPoint sa fun a => !suffixUpperFind str data a
  (upper - lower) % unsignedValues

/-! ### The places -/

/-- With few enough places, the loop adds those from the current one on. -/
theorem returns_places {size : ℕ} (hsize : size < unsignedValues) {k i : ℕ} (hk : i + k = size)
    (sa : List ℕ) :
    (Comp.loopOf (placeStep size) (i, sa)).Returns (sa ++ List.range' i k) := by
  induction k generalizing i sa with
  | zero =>
    have hstep : placeStep size (i, sa) = .done sa := if_neg (by omega)
    rw [Comp.returns_loopOf, hstep]
    simp
  | succ k ih =>
    have hnext : (i + 1) % unsignedValues = i + 1 := Nat.mod_eq_of_lt (by omega)
    have hstep : placeStep size (i, sa) = .next (i + 1, sa ++ [i]) := by
      rw [placeStep, if_pos (by omega), hnext]
    rw [Comp.returns_loopOf, hstep]
    have hrest := ih (show i + 1 + k = size by omega) (sa ++ [i])
    simpa [List.range'_succ] using hrest

/-- With too many places, the place wraps around before it comes to the end. -/
theorem not_terminates_places {size : ℕ} (hsize : unsignedValues ≤ size) (sa : List ℕ) :
    ¬ (Comp.loopOf (placeStep size) (0, sa)).Terminates := by
  refine Comp.loop_diverges (fun s => s.1 < unsignedValues) ?_ (show 0 < unsignedValues by decide)
  rintro ⟨i, sa⟩ hi
  refine ⟨((i + 1) % unsignedValues, sa ++ [i]), ?_, Nat.mod_lt _ (by decide)⟩
  rw [Comp.returns_pure]
  exact if_pos (lt_of_lt_of_le hi hsize)

/-- The array has every place once, in the order of the suffixes. -/
theorem exists_new {str : Bytes} (hsize : str.length < unsignedValues) :
    ∃ sa, (new str).Returns sa ∧ sa.Perm (List.range str.length) ∧
      sa.Pairwise fun a b => str.drop a ≤ str.drop b := by
  have hplaces := returns_places hsize (Nat.zero_add str.length) []
  rw [List.nil_append, ← List.range_eq_range'] at hplaces
  refine ⟨_, Comp.returns_bind.mpr ⟨_, hplaces, Comp.returns_pure.mpr rfl⟩,
    List.mergeSort_perm _ _, ?_⟩
  refine (List.pairwise_mergeSort ?_ ?_ _).imp fun {a b} h => ?_
  · intro a b c hab hbc
    simp only [suffixCompare, Bool.not_eq_true', decide_eq_false_iff_not, List.not_lt] at hab hbc ⊢
    exact List.le_trans hab hbc
  · intro a b
    simp only [suffixCompare, Bool.or_eq_true, Bool.not_eq_true', decide_eq_false_iff_not,
      List.not_lt]
    exact List.le_total _ _
  · simpa [suffixCompare] using h

/-! ### Counting -/

/-- The number of places at which a pattern occurs. -/
def occurrences (str pattern : Bytes) : ℕ :=
  (List.range str.length).countP fun i => decide (pattern <+: str.drop i)

/-- The array is built, and counts the occurrences of every pattern that is not empty. -/
def CountsExactly (str : Bytes) : Prop :=
  ∃ sa, (new str).Returns sa ∧
    ∀ pattern, pattern ≠ [] → count str sa pattern = occurrences str pattern

/-- The suffix array counts the occurrences. -/
theorem count_eq {str : Bytes} (hsize : str.length < unsignedValues) {sa : List ℕ}
    (hperm : sa.Perm (List.range str.length))
    (hsorted : sa.Pairwise fun a b => str.drop a ≤ str.drop b) (pattern : Bytes) :
    count str sa pattern = occurrences str pattern := by
  have hcount := partitionPoint_sub_eq_countP hsorted pattern
  have hle : occurrences str pattern ≤ str.length := by
    have hcountP := List.countP_le_length (p := fun i => decide (pattern <+: str.drop i))
      (l := List.range str.length)
    rwa [List.length_range] at hcountP
  rw [hperm.countP_eq] at hcount
  simp only [count, suffixLowerFind, suffixUpperFind]
  rw [hcount]
  exact Nat.mod_eq_of_lt (lt_of_le_of_lt hle hsize)

/-- Counting is exact if and only if the places of the text are values of `unsigned`. -/
theorem countsExactly_iff (str : Bytes) : CountsExactly str ↔ str.length < unsignedValues := by
  constructor
  · rintro ⟨sa, hnew, -⟩
    obtain ⟨places, hplaces, -⟩ := Comp.returns_bind.mp hnew
    by_contra hsize
    exact not_terminates_places (not_lt.mp hsize) [] hplaces.terminates
  · intro hsize
    obtain ⟨sa, hnew, hperm, hsorted⟩ := exists_new hsize
    exact ⟨sa, hnew, fun pattern _ => count_eq hsize hperm hsorted pattern⟩

/-- For a text of four gibibytes the array is never built. -/
theorem not_countsExactly_replicate :
    ¬ CountsExactly (List.replicate unsignedValues (97 : Byte)) := by
  rintro ⟨sa, hnew, -⟩
  obtain ⟨places, hplaces, -⟩ := Comp.returns_bind.mp hnew
  rw [List.length_replicate] at hplaces
  exact not_terminates_places le_rfl [] hplaces.terminates

/-- Occurrences may overlap. -/
example : occurrences (bytes "banana") (bytes "ana") = 2 := by decide

end UDPipe.SuffixArray
