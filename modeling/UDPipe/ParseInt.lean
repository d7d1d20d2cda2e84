import UDPipe.Bytes

/-!
# Reading and printing integers

`parse_int` of `utils/parse_int.h` with its overflow checks, and the decimal
output of `operator<<` and `to_string`. Printing a nonnegative `int` and
parsing it again gives the same number.
-/

namespace UDPipe

/-- `numeric_limits<int>::max()`. -/
def intMax : ℤ := 2147483647

/-- `numeric_limits<int>::min()`. -/
def intMin : ℤ := -2147483648

/-- The bytes that `parse_int` skips before and after the number. -/
def isSpace (c : Byte) : Bool :=
  c == space || c == 12 || c == lf || c == cr || c == tab || c == 11

/-- A decimal digit. -/
def isDigit (c : Byte) : Bool := 48 ≤ c && c ≤ 57

/-- `str.str[0] - '0'`. -/
def digitValue (c : Byte) : ℤ := c.toNat - 48

/-- Why the digits of a number do not fit into `int`. -/
inductive DigitsError where
  | overflow
  | underflow
  deriving DecidableEq, Repr

/-- The digit loop of `parse_int`: the value of the digits read so far is
extended by the leading digits of `str`; the rest is left over. The quotients
are C++ divisions, which round towards zero. -/
def parseDigits (positive : Bool) (value : ℤ) : Bytes → Except DigitsError (ℤ × Bytes)
  | [] => .ok (value, [])
  | c :: str =>
    if isDigit c then
      if positive then
        if value > (intMax - digitValue c).tdiv 10 then .error .overflow
        else parseDigits positive (10 * value + digitValue c) str
      else
        if value < (intMin + digitValue c).tdiv 10 then .error .underflow
        else parseDigits positive (10 * value - digitValue c) str
    else .ok (value, c :: str)

/-- The optional sign of a number: whether it is positive, and what follows it. -/
def takeSign : Bytes → Bool × Bytes
  | [] => (true, [])
  | c :: str => if c == 43 || c == minus then (c == 43, str) else (true, c :: str)

/-- `parse_int` of `utils/parse_int.h`; the error is the text it stores. -/
def parseInt (original valueName : Bytes) : Except Bytes ℤ :=
  let failure (reason : Bytes) : Except Bytes ℤ :=
    .error (bytes "Cannot parse " ++ valueName ++ bytes " int value '" ++ original ++ reason)
  let (positive, str) := takeSign (original.dropWhile isSpace)
  if str = [] then failure (bytes "': empty string.")
  else match parseDigits positive 0 str with
    | .error .overflow => failure (bytes "': overflow occured.")
    | .error .underflow => failure (bytes "': underflow occured.")
    | .ok (value, rest) =>
      if rest.dropWhile isSpace = [] then .ok value
      else failure (bytes "': non-digit character found.")

/-- `to_string` of an unsigned number. -/
def natToString (n : ℕ) : Bytes := (Nat.toDigits 10 n).map Char.toUInt8

/-- `to_string` and `operator<<` of an `int`. -/
def intToString : ℤ → Bytes
  | .ofNat n => natToString n
  | .negSucc n => minus :: natToString (n + 1)

/-- A natural number is written as one. -/
@[simp] theorem intToString_natCast (n : ℕ) : intToString n = natToString n := rfl

/-- The decimal digits of a number are those of its quotient by ten, then its last digit. -/
theorem natToString_of_ten_le {n : ℕ} (h : 10 ≤ n) :
    natToString n = natToString (n / 10) ++ [(n % 10).digitChar.toUInt8] := by
  simp [natToString, Nat.toDigits_of_base_le (by decide : 1 < 10) h]

/-- A small number is written as its digit. -/
theorem natToString_of_lt_ten {n : ℕ} (h : n < 10) : natToString n = [n.digitChar.toUInt8] := by
  simp [natToString, Nat.toDigits_of_lt_base h]

/-- A number has a digit. -/
@[simp] theorem natToString_ne_nil (n : ℕ) : natToString n ≠ [] := by
  simp [natToString, Nat.toDigits_ne_nil]

/-- The digits are digits, with their values. -/
private theorem digitChar_toUInt8 : ∀ d : ℕ, d < 10 →
    isDigit d.digitChar.toUInt8 = true ∧ digitValue d.digitChar.toUInt8 = (d : ℤ) := by
  decide

/-- A printed number consists of digits only. -/
private theorem digit_value : ∀ d : ℕ, d < 10 → d.digitChar.toUInt8.toNat - 48 = d := by decide

/-- The number can be computed from its digits. -/
private theorem foldl_natToString (n : ℕ) :
    (natToString n).foldl (fun value c => value * 10 + (c.toNat - 48)) 0 = n := by
  induction n using Nat.strongRecOn with
  | ind n ih =>
    rcases Nat.lt_or_ge n 10 with hlt | hge
    · rw [natToString_of_lt_ten hlt, List.foldl_cons, List.foldl_nil, digit_value n hlt]
      omega
    · rw [natToString_of_ten_le hge, List.foldl_append, ih (n / 10) (by omega), List.foldl_cons,
        List.foldl_nil, digit_value _ (Nat.mod_lt n (by decide))]
      omega

/-- Different numbers are written differently. -/
theorem natToString_injective {m n : ℕ} (h : natToString m = natToString n) : m = n := by
  rw [← foldl_natToString m, h, foldl_natToString n]

/-- Numbers are written in digits. -/
theorem isDigit_of_mem_natToString {n : ℕ} {c : Byte} (h : c ∈ natToString n) :
    isDigit c = true := by
  induction n using Nat.strongRecOn with
  | ind n ih =>
    by_cases hn : n < 10
    · rw [natToString_of_lt_ten hn, List.mem_singleton] at h
      exact h ▸ (digitChar_toUInt8 n hn).1
    · rw [natToString_of_ten_le (by omega), List.mem_append, List.mem_singleton] at h
      rcases h with h | rfl
      · exact ih (n / 10) (by omega) h
      · exact (digitChar_toUInt8 (n % 10) (by omega)).1

/-- After digits that all fit, the digit loop goes on with their value. -/
theorem parseDigits_append {positive : Bool} {value value' : ℤ} {str rest : Bytes}
    (h : parseDigits positive value str = .ok (value', [])) :
    parseDigits positive value (str ++ rest) = parseDigits positive value' rest := by
  induction str generalizing value with
  | nil =>
    simp only [parseDigits, Except.ok.injEq, Prod.mk.injEq, and_true] at h
    simp [h]
  | cons c str ih =>
    simp only [parseDigits, List.cons_append] at h ⊢
    by_cases hdigit : isDigit c = true
    · simp only [hdigit, if_true] at h ⊢
      cases positive <;> simp only [Bool.false_eq_true, if_true, if_false] at h ⊢
      · split at h
        · exact absurd h (by simp)
        · rename_i hfits
          rw [if_neg hfits, ih h]
      · split at h
        · exact absurd h (by simp)
        · rename_i hfits
          rw [if_neg hfits, ih h]
    · simp [hdigit] at h

/-- The digit loop reads back a printed number that fits into `int`. -/
theorem parseDigits_natToString {n : ℕ} (h : (n : ℤ) ≤ intMax) :
    parseDigits true 0 (natToString n) = .ok ((n : ℤ), []) := by
  induction n using Nat.strongRecOn with
  | ind n ih =>
    by_cases hn : n < 10
    · obtain ⟨hdigit, hvalue⟩ := digitChar_toUInt8 n hn
      have hfits : ¬ (0 > (intMax - (n : ℤ)).tdiv 10) := by
        unfold intMax at h ⊢
        rw [Int.tdiv_eq_ediv_of_nonneg (by omega)]
        omega
      simp [natToString_of_lt_ten hn, parseDigits, hdigit, hvalue, hfits]
    · obtain ⟨hdigit, hvalue⟩ := digitChar_toUInt8 (n % 10) (by omega)
      have hprefix := ih (n / 10) (by omega) (by omega)
      have hfits : ¬ (((n / 10 : ℕ) : ℤ) > (intMax - ((n % 10 : ℕ) : ℤ)).tdiv 10) := by
        unfold intMax at h ⊢
        rw [Int.tdiv_eq_ediv_of_nonneg (by omega)]
        omega
      have hsum : 10 * ((n / 10 : ℕ) : ℤ) + ((n % 10 : ℕ) : ℤ) = n := by omega
      rw [natToString_of_ten_le (by omega), parseDigits_append hprefix]
      simp only [parseDigits, hdigit, hvalue, if_true, if_neg hfits, hsum]

/-- A digit is neither a space nor a sign. -/
theorem digit_properties : ∀ c : Byte, isDigit c = true →
    isSpace c = false ∧ c ≠ 43 ∧ c ≠ minus := by
  intro c h
  simp only [isDigit, Bool.and_eq_true, decide_eq_true_eq] at h
  have hlow : 48 ≤ c.toNat := UInt8.le_iff_toNat_le.mp h.1
  have hne : ∀ d : Byte, d.toNat < 48 → c ≠ d := fun d hd heq => by
    subst heq
    omega
  refine ⟨?_, hne 43 (by decide), hne minus (by decide)⟩
  simp [isSpace, hne space (by decide), hne 12 (by decide), hne lf (by decide),
    hne cr (by decide), hne tab (by decide), hne 11 (by decide)]

/-- A printed nonnegative `int` parses as itself. -/
theorem parseInt_natToString {n : ℕ} (h : (n : ℤ) ≤ intMax) (valueName : Bytes) :
    parseInt (natToString n) valueName = .ok (n : ℤ) := by
  obtain ⟨c, str, hstr⟩ := List.exists_cons_of_ne_nil (natToString_ne_nil n)
  have hc : isDigit c = true := isDigit_of_mem_natToString (n := n) (by simp [hstr])
  obtain ⟨hspace, hplus, hminus⟩ := digit_properties c hc
  have hdigits := parseDigits_natToString h
  rw [hstr] at hdigits
  simp [parseInt, takeSign, hstr, hspace, hplus, hminus, hdigits]

/-- The value of a digit. -/
theorem digitValue_bounds {c : Byte} (h : isDigit c = true) :
    0 ≤ digitValue c ∧ digitValue c ≤ 9 := by
  simp only [isDigit, Bool.and_eq_true, decide_eq_true_eq] at h
  have hlow : 48 ≤ c.toNat := UInt8.le_iff_toNat_le.mp h.1
  have hhigh : c.toNat ≤ 57 := UInt8.le_iff_toNat_le.mp h.2
  unfold digitValue
  omega

/-- The overflow checks keep the value of the digit loop inside `int`. -/
theorem parseDigits_bounds {positive : Bool} {value value' : ℤ} {str rest : Bytes}
    (hsign : if positive then 0 ≤ value else value ≤ 0)
    (hvalue : intMin ≤ value ∧ value ≤ intMax)
    (h : parseDigits positive value str = .ok (value', rest)) :
    intMin ≤ value' ∧ value' ≤ intMax := by
  induction str generalizing value with
  | nil =>
    simp only [parseDigits, Except.ok.injEq, Prod.mk.injEq] at h
    exact h.1 ▸ hvalue
  | cons c str ih =>
    rw [parseDigits] at h
    by_cases hdigit : isDigit c = true
    · obtain ⟨hlow, hhigh⟩ := digitValue_bounds hdigit
      cases positive with
      | true =>
        simp only [hdigit, if_true] at h hsign
        split at h
        · exact absurd h (by simp)
        · rename_i hfits
          rw [Int.tdiv_eq_ediv_of_nonneg (by unfold intMax; omega)] at hfits
          refine ih ?_ ?_ h
          · rw [if_pos rfl]
            omega
          · unfold intMin intMax at *
            omega
      | false =>
        simp only [hdigit, if_true, Bool.false_eq_true, if_false] at h hsign
        split at h
        · exact absurd h (by simp)
        · rename_i hfits
          have hneg : (intMin + digitValue c).tdiv 10 = -((-(intMin + digitValue c)) / 10) := by
            rw [← Int.tdiv_eq_ediv_of_nonneg (by unfold intMin; omega), Int.neg_tdiv, Int.neg_neg]
          rw [hneg] at hfits
          refine ih ?_ ?_ h
          · rw [if_neg Bool.false_ne_true]
            omega
          · unfold intMin intMax at *
            omega
    · simp only [hdigit, Bool.false_eq_true, if_false, Except.ok.injEq, Prod.mk.injEq] at h
      exact h.1 ▸ hvalue

/-- A parsed number is an `int`. -/
theorem parseInt_bounds {str valueName : Bytes} {value : ℤ}
    (h : parseInt str valueName = .ok value) : intMin ≤ value ∧ value ≤ intMax := by
  simp only [parseInt] at h
  split at h
  · cases h
  · split at h
    · cases h
    · cases h
    · rename_i v rest hdigits
      split at h
      · cases h
        exact parseDigits_bounds (by split <;> exact Int.le_refl 0) (by decide) hdigits
      · cases h

/-- The error of a number that is not parsed is not the empty text. -/
theorem parseInt_error_ne_nil {str valueName error : Bytes}
    (h : parseInt str valueName = .error error) : error ≠ [] := by
  simp only [parseInt] at h
  split at h
  · cases h
    simp
  · split at h
    · cases h
      simp
    · cases h
      simp
    · split at h
      · cases h
      · cases h
        simp

end UDPipe
