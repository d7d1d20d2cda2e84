import UDPipe.ParseInt

/-!
# What parses as an integer

`parse_int` accepts an integer of the range of `int` between white space. It also accepts a
sign that only white space follows, since it checks for an empty string before it looks for
digits.
-/

namespace UDPipe

/-! ### The digit loop -/

/-- The number that decimal digits denote. -/
def decimal (digits : Bytes) : ℕ := digits.foldl (fun n c => 10 * n + (c.toNat - 48)) 0

/-- A number with its sign extended by further digits. -/
def extendBy (positive : Bool) (value : ℤ) (digits : Bytes) : ℤ :=
  digits.foldl (fun v c => if positive then 10 * v + digitValue c else 10 * v - digitValue c) value

/-- The value is on the side of zero that the sign says. -/
def OnSide (positive : Bool) (value : ℤ) : Prop := if positive then 0 ≤ value else value ≤ 0

/-- The value fits into `int`. -/
def InIntRange (value : ℤ) : Prop := intMin ≤ value ∧ value ≤ intMax

/-- Zero is on both sides. -/
theorem onSide_zero (positive : Bool) : OnSide positive 0 := by
  cases positive <;> exact Int.le_refl 0

/-- Zero is an `int`. -/
theorem inIntRange_zero : InIntRange 0 := ⟨by decide, by decide⟩

/-- The first digit extends the value. -/
theorem extendBy_cons (positive : Bool) (value : ℤ) (c : Byte) (digits : Bytes) :
    extendBy positive value (c :: digits) =
      extendBy positive
        (if positive then 10 * value + digitValue c else 10 * value - digitValue c) digits := rfl

/-- Further digits lead away from zero. -/
theorem extendBy_away {positive : Bool} {value : ℤ} {digits : Bytes}
    (hdigits : ∀ c ∈ digits, isDigit c = true) (hside : OnSide positive value) :
    OnSide positive (extendBy positive value digits - value) := by
  induction digits generalizing value with
  | nil => cases positive <;> simp [extendBy, OnSide]
  | cons c digits ih =>
    obtain ⟨hc, hdigits⟩ := List.forall_mem_cons.mp hdigits
    obtain ⟨hlow, hhigh⟩ := digitValue_bounds hc
    rw [extendBy_cons]
    cases positive with
    | true =>
      simp only [OnSide, if_true] at hside ih ⊢
      have := ih hdigits (by omega : 0 ≤ 10 * value + digitValue c)
      omega
    | false =>
      simp only [OnSide, Bool.false_eq_true, if_false] at hside ih ⊢
      have := ih hdigits (by omega : 10 * value - digitValue c ≤ 0)
      omega

/-- The division of the source rounds down here, as the number is not negative. -/
theorem intMax_sub_tdiv {c : Byte} (hc : isDigit c = true) :
    (intMax - digitValue c).tdiv 10 = (intMax - digitValue c) / 10 := by
  obtain ⟨hlow, hhigh⟩ := digitValue_bounds hc
  exact Int.tdiv_eq_ediv_of_nonneg (by unfold intMax; omega)

/-- The quotient of a negative number is rounded towards zero. -/
theorem intMin_add_tdiv {c : Byte} (hc : isDigit c = true) :
    (intMin + digitValue c).tdiv 10 = -((-(intMin + digitValue c)) / 10) := by
  obtain ⟨hlow, hhigh⟩ := digitValue_bounds hc
  rw [← Int.tdiv_eq_ediv_of_nonneg (by unfold intMin; omega), Int.neg_tdiv, Int.neg_neg]

/-- The check before a digit of a positive number is exact. -/
theorem overflow_iff {value : ℤ} {c : Byte} (hc : isDigit c = true) (hside : 0 ≤ value) :
    value > (intMax - digitValue c).tdiv 10 ↔ ¬ InIntRange (10 * value + digitValue c) := by
  obtain ⟨hlow, hhigh⟩ := digitValue_bounds hc
  rw [intMax_sub_tdiv hc]
  unfold InIntRange intMin intMax
  omega

/-- The check before a digit of a negative number is exact. -/
theorem underflow_iff {value : ℤ} {c : Byte} (hc : isDigit c = true) (hside : value ≤ 0) :
    value < (intMin + digitValue c).tdiv 10 ↔ ¬ InIntRange (10 * value - digitValue c) := by
  obtain ⟨hlow, hhigh⟩ := digitValue_bounds hc
  rw [intMin_add_tdiv hc]
  unfold InIntRange intMin intMax
  omega

/-- A value that does not fit is not left by further digits. -/
theorem not_fits_extendBy {positive : Bool} {value : ℤ} {digits : Bytes}
    (hdigits : ∀ c ∈ digits, isDigit c = true) (hside : OnSide positive value)
    (hfits : ¬ InIntRange value) : ¬ InIntRange (extendBy positive value digits) := by
  have haway := extendBy_away hdigits hside
  unfold InIntRange intMin intMax at *
  cases positive <;> simp only [OnSide, Bool.false_eq_true, if_true, if_false] at hside haway <;>
    omega

/-- The digits at the beginning are digits. -/
theorem takeWhile_isDigit (str : Bytes) : ∀ c ∈ str.takeWhile isDigit, isDigit c = true :=
  fun _ => List.mem_takeWhile_imp

/-- The digit loop reads all leading digits if their value fits into `int`. -/
theorem parseDigits_eq_ok_iff {positive : Bool} {value v : ℤ} {str rest : Bytes}
    (hside : OnSide positive value) (hfits : InIntRange value) :
    parseDigits positive value str = .ok (v, rest) ↔
      v = extendBy positive value (str.takeWhile isDigit) ∧ rest = str.dropWhile isDigit ∧
        InIntRange v := by
  induction str generalizing value with
  | nil =>
    simp only [parseDigits, Except.ok.injEq, Prod.mk.injEq, List.takeWhile_nil, List.dropWhile_nil,
      extendBy, List.foldl_nil]
    constructor
    · rintro ⟨rfl, rfl⟩
      exact ⟨rfl, rfl, hfits⟩
    · rintro ⟨rfl, rfl, -⟩
      exact ⟨rfl, rfl⟩
  | cons c str ih =>
    by_cases hc : isDigit c = true
    · obtain ⟨hlow, hhigh⟩ := digitValue_bounds hc
      rw [List.takeWhile_cons_of_pos hc, List.dropWhile_cons_of_pos hc, extendBy_cons]
      have hstop : ∀ next : ℤ, OnSide positive next → ¬ InIntRange next →
          ¬ (v = extendBy positive next (str.takeWhile isDigit) ∧ rest = str.dropWhile isDigit ∧
            InIntRange v) := by
        rintro next hnext hout ⟨rfl, -, hfits⟩
        exact not_fits_extendBy (takeWhile_isDigit str) hnext hout hfits
      cases positive with
      | true =>
        have hnext : OnSide true (10 * value + digitValue c) := by
          simp only [OnSide, if_true] at hside ⊢
          omega
        simp only [parseDigits, hc, if_true]
        split
        · rename_i hcheck
          simpa using hstop _ hnext ((overflow_iff hc hside).mp hcheck)
        · rename_i hcheck
          exact ih hnext (not_not.mp (mt (overflow_iff hc hside).mpr hcheck))
      | false =>
        have hnext : OnSide false (10 * value - digitValue c) := by
          simp only [OnSide, Bool.false_eq_true, if_false] at hside ⊢
          omega
        simp only [parseDigits, hc, if_true, Bool.false_eq_true, if_false]
        split
        · rename_i hcheck
          simpa using hstop _ hnext ((underflow_iff hc hside).mp hcheck)
        · rename_i hcheck
          exact ih hnext (not_not.mp (mt (underflow_iff hc hside).mpr hcheck))
    · rw [List.takeWhile_cons_of_neg hc, List.dropWhile_cons_of_neg hc]
      simp only [parseDigits, hc, Bool.false_eq_true, if_false, Except.ok.injEq, Prod.mk.injEq,
        extendBy, List.foldl_nil]
      constructor
      · rintro ⟨rfl, rfl⟩
        exact ⟨rfl, rfl, hfits⟩
      · rintro ⟨rfl, rfl, -⟩
        exact ⟨rfl, rfl⟩

/-! ### The arithmetic of the digit loop -/

/-- The value of an `int` expression; arithmetic that leaves the range of `int` is undefined. -/
def asInt (value : ℤ) : Option ℤ := if intMin ≤ value ∧ value ≤ intMax then some value else none

/-- A value in the range is kept. -/
theorem asInt_of_inIntRange {value : ℤ} (h : InIntRange value) : asInt value = some value := if_pos h

/-- The digit loop with every operation in `int`. -/
def parseDigitsInt (positive : Bool) (value : ℤ) :
    Bytes → Option (Except DigitsError (ℤ × Bytes))
  | [] => some (.ok (value, []))
  | c :: str =>
    if isDigit c then do
      let digit ← asInt (digitValue c)
      let scaled := asInt (10 * value)
      if positive then
        let room ← asInt (intMax - digit)
        let limit ← asInt (room.tdiv 10)
        if value > limit then some (.error .overflow)
        else parseDigitsInt positive (← asInt ((← scaled) + digit)) str
      else
        let room ← asInt (intMin + digit)
        let limit ← asInt (room.tdiv 10)
        if value < limit then some (.error .underflow)
        else parseDigitsInt positive (← asInt ((← scaled) - digit)) str
    else some (.ok (value, c :: str))

/-- No operation of the digit loop leaves the range of `int`. -/
theorem parseDigitsInt_eq {positive : Bool} {value : ℤ} {str : Bytes}
    (hside : OnSide positive value) (hfits : InIntRange value) :
    parseDigitsInt positive value str = some (parseDigits positive value str) := by
  induction str generalizing value with
  | nil => rfl
  | cons c str ih =>
    by_cases hc : isDigit c = true
    · obtain ⟨hlow, hhigh⟩ := digitValue_bounds hc
      have hdigit : asInt (digitValue c) = some (digitValue c) :=
        asInt_of_inIntRange (by unfold InIntRange intMin intMax; omega)
      cases positive with
      | true =>
        have hroom : asInt (intMax - digitValue c) = some (intMax - digitValue c) :=
          asInt_of_inIntRange (by unfold InIntRange intMin intMax; omega)
        have hlimit : asInt ((intMax - digitValue c).tdiv 10) =
            some ((intMax - digitValue c).tdiv 10) := by
          refine asInt_of_inIntRange ?_
          rw [intMax_sub_tdiv hc]
          unfold InIntRange intMin intMax
          omega
        simp only [parseDigitsInt, parseDigits, hc, if_true, hdigit, hroom, hlimit,
          Option.bind_eq_bind, Option.bind_some]
        split
        · rfl
        · rename_i hcheck
          have hnext := not_not.mp (mt (overflow_iff hc hside).mpr hcheck)
          have hscaled : asInt (10 * value) = some (10 * value) := by
            refine asInt_of_inIntRange ?_
            simp only [OnSide, if_true] at hside
            unfold InIntRange intMin intMax at *
            omega
          rw [hscaled, Option.bind_some, asInt_of_inIntRange hnext, Option.bind_some]
          refine ih ?_ hnext
          simp only [OnSide, if_true] at hside ⊢
          omega
      | false =>
        have hroom : asInt (intMin + digitValue c) = some (intMin + digitValue c) :=
          asInt_of_inIntRange (by unfold InIntRange intMin intMax; omega)
        have hlimit : asInt ((intMin + digitValue c).tdiv 10) =
            some ((intMin + digitValue c).tdiv 10) := by
          refine asInt_of_inIntRange ?_
          rw [intMin_add_tdiv hc]
          unfold InIntRange intMin intMax
          omega
        simp only [parseDigitsInt, parseDigits, hc, if_true, Bool.false_eq_true, if_false, hdigit,
          hroom, hlimit, Option.bind_eq_bind, Option.bind_some]
        split
        · rfl
        · rename_i hcheck
          have hnext := not_not.mp (mt (underflow_iff hc hside).mpr hcheck)
          have hscaled : asInt (10 * value) = some (10 * value) := by
            refine asInt_of_inIntRange ?_
            simp only [OnSide, Bool.false_eq_true, if_false] at hside
            unfold InIntRange intMin intMax at *
            omega
          rw [hscaled, Option.bind_some, asInt_of_inIntRange hnext, Option.bind_some]
          refine ih ?_ hnext
          simp only [OnSide, Bool.false_eq_true, if_false] at hside ⊢
          omega
    · simp [parseDigitsInt, parseDigits, hc]

/-! ### The syntax of an integer -/

/-- Only white space. -/
def Blank (str : Bytes) : Prop := ∀ c ∈ str, isSpace c = true

/-- White space, an optional sign, decimal digits and white space, with a value of `int`. -/
def IsInteger (str : Bytes) (value : ℤ) : Prop :=
  ∃ blanks sign digits blanks' : Bytes, str = blanks ++ sign ++ digits ++ blanks' ∧
    Blank blanks ∧ Blank blanks' ∧ (sign = [] ∨ sign = [43] ∨ sign = [minus]) ∧
    digits ≠ [] ∧ (∀ c ∈ digits, isDigit c = true) ∧
    value = (if sign = [minus] then -(decimal digits : ℤ) else decimal digits) ∧ InIntRange value

/-- White space, a sign, and white space in place of the digits. -/
def BlankSigned (str : Bytes) : Prop :=
  ∃ (blanks : Bytes) (sign : Byte) (blanks' : Bytes), str = blanks ++ sign :: blanks' ∧
    Blank blanks ∧ Blank blanks' ∧ (sign = 43 ∨ sign = minus) ∧ blanks' ≠ []

/-- What the digits add to a number, for both signs. -/
theorem extendBy_eq {positive : Bool} {digits : Bytes} (hdigits : ∀ c ∈ digits, isDigit c = true) :
    extendBy positive 0 digits = if positive then (decimal digits : ℤ) else -decimal digits := by
  have hfold : ∀ (n : ℕ), extendBy positive (if positive then (n : ℤ) else -n) digits =
      if positive then ((digits.foldl (fun n c => 10 * n + (c.toNat - 48)) n : ℕ) : ℤ)
      else -(digits.foldl (fun n c => 10 * n + (c.toNat - 48)) n : ℕ) := by
    induction digits with
    | nil => exact fun n => rfl
    | cons c digits ih =>
      intro n
      obtain ⟨hc, hdigits⟩ := List.forall_mem_cons.mp hdigits
      obtain ⟨hlow, -⟩ := digitValue_bounds hc
      have hvalue : ((c.toNat - 48 : ℕ) : ℤ) = digitValue c := by
        unfold digitValue at hlow ⊢
        omega
      have hih := ih hdigits (10 * n + (c.toNat - 48))
      rw [extendBy_cons, List.foldl_cons, ← hih]
      congr 1
      cases positive <;> simp only [Bool.false_eq_true, if_true, if_false] <;> push_cast <;> omega
  cases positive <;> simpa [decimal] using hfold 0

/-- The leading part of a text of which only the rest begins with other bytes. -/
theorem span_append {p : Byte → Bool} {first rest : Bytes} (hfirst : ∀ c ∈ first, p c = true)
    (hrest : ∀ c ∈ rest.head?, p c = false) :
    (first ++ rest).takeWhile p = first ∧ (first ++ rest).dropWhile p = rest := by
  have hstop : rest.takeWhile p = [] ∧ rest.dropWhile p = rest := by
    cases rest with
    | nil => exact ⟨rfl, rfl⟩
    | cons c rest =>
      have hc := hrest c rfl
      simp [hc]
  rw [List.takeWhile_append_of_pos hfirst, List.dropWhile_append_of_pos hfirst, hstop.1, hstop.2,
    List.append_nil]
  exact ⟨rfl, rfl⟩

/-- The sign and the digits of an integer are found behind the white space. -/
theorem takeSign_integer {blanks sign digits blanks' : Bytes} (hblanks : Blank blanks)
    (hsign : sign = [] ∨ sign = [43] ∨ sign = [minus]) (hne : digits ≠ [])
    (hdigits : ∀ c ∈ digits, isDigit c = true) :
    takeSign ((blanks ++ sign ++ digits ++ blanks').dropWhile isSpace) =
      (decide (sign ≠ [minus]), digits ++ blanks') := by
  obtain ⟨first, rest, rfl⟩ := List.exists_cons_of_ne_nil hne
  obtain ⟨hspace, hplus, hminus⟩ := digit_properties first (hdigits first List.mem_cons_self)
  have hdrop : (blanks ++ sign ++ (first :: rest) ++ blanks').dropWhile isSpace =
      sign ++ ((first :: rest) ++ blanks') := by
    rw [List.append_assoc, List.append_assoc]
    refine (span_append hblanks ?_).2
    rcases hsign with rfl | rfl | rfl
    · simpa using hspace
    · simp only [List.cons_append, List.head?_cons, Option.mem_some_iff, forall_eq']
      decide
    · simp only [List.cons_append, List.head?_cons, Option.mem_some_iff, forall_eq']
      decide
  rw [hdrop]
  rcases hsign with rfl | rfl | rfl
  · simp [takeSign, hplus, hminus]
  · rfl
  · rfl

/-- White space has no digits. -/
theorem not_isDigit_of_isSpace {c : Byte} (h : isSpace c = true) : isDigit c = false := by
  by_contra hdigit
  rw [Bool.not_eq_false] at hdigit
  rw [(digit_properties c hdigit).1] at h
  cases h

/-- Digits before a blank text are taken, and the text is left. -/
theorem Blank.span_isDigit {first rest : Bytes} (hfirst : ∀ c ∈ first, isDigit c = true)
    (hrest : Blank rest) :
    (first ++ rest).takeWhile isDigit = first ∧ (first ++ rest).dropWhile isDigit = rest :=
  span_append hfirst fun c hc => not_isDigit_of_isSpace (hrest c (List.mem_of_mem_head? hc))

/-- Only blank texts have nothing behind their spaces. -/
theorem dropWhile_isSpace_eq_nil {str : Bytes} : str.dropWhile isSpace = [] ↔ Blank str :=
  List.dropWhile_eq_nil_iff

/-- The sign is the beginning of the text. -/
theorem takeSign_eq (str : Bytes) : ∃ sign : Bytes, str = sign ++ (takeSign str).2 ∧
    (sign = [] ∨ sign = [43] ∨ sign = [minus]) ∧
    (takeSign str).1 = decide (sign ≠ [minus]) := by
  cases str with
  | nil => exact ⟨[], rfl, .inl rfl, rfl⟩
  | cons c str =>
    by_cases hplus : c = 43
    · subst hplus
      exact ⟨[43], rfl, .inr (.inl rfl), rfl⟩
    · by_cases hminus : c = minus
      · subst hminus
        exact ⟨[minus], rfl, .inr (.inr rfl), rfl⟩
      · exact ⟨[], by simp [takeSign, hplus, hminus], .inl rfl,
          by simp [takeSign, hplus, hminus]⟩

/-- What `parse_int` checks, in terms of the parts of the text. -/
theorem parseInt_eq_ok (str valueName : Bytes) (value : ℤ) :
    parseInt str valueName = .ok value ↔
      (takeSign (str.dropWhile isSpace)).2 ≠ [] ∧
      value = extendBy (takeSign (str.dropWhile isSpace)).1 0
        ((takeSign (str.dropWhile isSpace)).2.takeWhile isDigit) ∧
      InIntRange value ∧ Blank ((takeSign (str.dropWhile isSpace)).2.dropWhile isDigit) := by
  rcases htaken : takeSign (str.dropWhile isSpace) with ⟨positive, body⟩
  have hdigits : ∀ v rest, parseDigits positive 0 body = .ok (v, rest) ↔ _ := fun v rest =>
    parseDigits_eq_ok_iff (onSide_zero positive) inIntRange_zero
  simp only [parseInt, htaken]
  by_cases hbody : body = []
  · simp [hbody]
  · rw [if_neg hbody]
    constructor
    · intro h
      cases hparse : parseDigits positive 0 body with
      | error e =>
        rw [hparse] at h
        cases e <;> cases h
      | ok result =>
        obtain ⟨v, rest⟩ := result
        rw [hparse] at h
        obtain ⟨hvalue, hrest, hfits⟩ := (hdigits v rest).mp hparse
        dsimp only at h
        split at h
        · rename_i hblank
          obtain rfl := Except.ok.inj h
          exact ⟨hbody, hvalue, hfits, hrest ▸ dropWhile_isSpace_eq_nil.mp hblank⟩
        · cases h
    · rintro ⟨-, hvalue, hfits, hblank⟩
      rw [(hdigits value _).mpr ⟨hvalue, rfl, hfits⟩]
      exact if_pos (dropWhile_isSpace_eq_nil.mpr hblank)

/-- A text that is parsed has white space, a sign and digits only. -/
theorem mem_of_parseInt {str valueName : Bytes} {value : ℤ}
    (h : parseInt str valueName = .ok value) {c : Byte} (hc : c ∈ str) :
    isSpace c = true ∨ isDigit c = true ∨ c = 43 ∨ c = minus := by
  obtain ⟨-, -, -, hblank⟩ := (parseInt_eq_ok str valueName value).mp h
  obtain ⟨sign, hsplit, hsign, -⟩ := takeSign_eq (str.dropWhile isSpace)
  rw [← List.takeWhile_append_dropWhile (p := isSpace) (l := str), hsplit,
    ← List.takeWhile_append_dropWhile (p := isDigit)
      (l := (takeSign (str.dropWhile isSpace)).2)] at hc
  simp only [List.mem_append] at hc
  rcases hc with hc | hc | hc | hc
  · exact .inl (List.mem_takeWhile_imp hc)
  · rcases hsign with rfl | rfl | rfl
    · cases hc
    · exact .inr (.inr (.inl (List.mem_singleton.mp hc)))
    · exact .inr (.inr (.inr (List.mem_singleton.mp hc)))
  · exact .inr (.inl (List.mem_takeWhile_imp hc))
  · exact .inl (hblank c hc)

/-- What is accepted besides integers is a sign before white space. -/
theorem parseInt_eq_ok_iff (str valueName : Bytes) (value : ℤ) :
    parseInt str valueName = .ok value ↔
      IsInteger str value ∨ BlankSigned str ∧ value = 0 := by
  rw [parseInt_eq_ok]
  constructor
  · rintro ⟨hbody, hvalue, hfits, hblank⟩
    obtain ⟨sign, hsplit, hsign, hpositive⟩ := takeSign_eq (str.dropWhile isSpace)
    set body := (takeSign (str.dropWhile isSpace)).2
    have hstr : str = str.takeWhile isSpace ++ (sign ++ body) := by
      rw [← hsplit, List.takeWhile_append_dropWhile]
    have hblanks : Blank (str.takeWhile isSpace) := fun _ => List.mem_takeWhile_imp
    by_cases hdigits : body.takeWhile isDigit = []
    · -- no digits, so there is a sign, since the white space before it was skipped
      have hblank' : Blank body := by
        rw [← List.takeWhile_append_dropWhile (p := isDigit) (l := body), hdigits]
        exact hblank
      refine .inr ⟨?_, by rw [hvalue, hdigits]; rfl⟩
      have hsigned : ∀ c : Byte, c = 43 ∨ c = minus → sign = [c] → BlankSigned str :=
        fun c hc heq => ⟨_, c, body, by subst heq; exact hstr, hblanks,
           hblank', hc, hbody⟩
      rcases hsign with rfl | rfl | rfl
      · obtain ⟨c, rest, hcons⟩ := List.exists_cons_of_ne_nil hbody
        have hfirst := List.head?_dropWhile_not isSpace str
        rw [hsplit, List.nil_append, hcons] at hfirst
        rw [hcons] at hblank'
        simp [hblank' c List.mem_cons_self] at hfirst
      · exact hsigned 43 (.inl rfl) rfl
      · exact hsigned minus (.inr rfl) rfl
    · refine .inl ⟨_, sign, _, _, ?_, hblanks, hblank, hsign, hdigits, takeWhile_isDigit body, ?_,
        hfits⟩
      · rw [List.append_assoc, List.takeWhile_append_dropWhile, List.append_assoc]
        exact hstr
      · rw [hvalue, extendBy_eq (takeWhile_isDigit body), hpositive]
        by_cases hminus : sign = [minus] <;> simp [hminus]
  · rintro (⟨blanks, sign, digits, blanks', rfl, hblanks, hblanks', hsign, hne, hdigits, hvalue,
      hfits⟩ | ⟨⟨blanks, sign, blanks', rfl, hblanks, hblanks', hsign, hne⟩, rfl⟩)
    · rw [takeSign_integer hblanks hsign hne hdigits]
      obtain ⟨htake, hdrop⟩ := hblanks'.span_isDigit hdigits
      dsimp only
      rw [htake, hdrop, extendBy_eq hdigits, hvalue]
      refine ⟨by simp [hne], ?_, hvalue ▸ hfits, hblanks'⟩
      by_cases hminus : sign = [minus] <;> simp [hminus]
    · have htaken : (takeSign ((blanks ++ sign :: blanks').dropWhile isSpace)).2 = blanks' := by
        have hdrop : (blanks ++ sign :: blanks').dropWhile isSpace = sign :: blanks' :=
          (span_append hblanks fun c hc => by
            obtain rfl := Option.some.inj hc
            rcases hsign with rfl | rfl <;> rfl).2
        rw [hdrop]
        rcases hsign with rfl | rfl <;> rfl
      obtain ⟨htake, hdrop⟩ := @Blank.span_isDigit [] blanks' (by simp) hblanks'
      rw [htaken]
      refine ⟨hne, ?_, inIntRange_zero, ?_⟩
      · rw [List.nil_append] at htake
        rw [htake]
        rfl
      · rw [List.nil_append] at hdrop
        rw [hdrop]
        exact hblanks'

/-- `parse_int` accepts the integers only, each with its value, and computes in `int`. -/
structure ParsesIntegers (str valueName : Bytes) : Prop where
  accepts : ∀ value, parseInt str valueName = .ok value ↔ IsInteger str value
  /-- The digit loop is the same with every operation in `int`. -/
  defined : parseDigitsInt (takeSign (str.dropWhile isSpace)).1 0
      (takeSign (str.dropWhile isSpace)).2 =
    some (parseDigits (takeSign (str.dropWhile isSpace)).1 0 (takeSign (str.dropWhile isSpace)).2)

/-- A sign that only white space follows is no integer. -/
theorem BlankSigned.not_isInteger {str : Bytes} (h : BlankSigned str) (value : ℤ) :
    ¬ IsInteger str value := by
  obtain ⟨blanks, sign, blanks', rfl, hblanks, hblanks', hsign, -⟩ := h
  rintro ⟨first, sign', digits, last, heq, -, -, -, hne, hdigits, -⟩
  obtain ⟨c, hc⟩ := List.exists_mem_of_ne_nil digits hne
  obtain ⟨hspace, hplus, hminus⟩ := digit_properties c (hdigits c hc)
  have hmem : c ∈ blanks ++ sign :: blanks' := by
    rw [heq]
    simp [hc]
  rcases List.mem_append.mp hmem with hmem | hmem
  · rw [hblanks c hmem] at hspace
    cases hspace
  · rcases List.mem_cons.mp hmem with rfl | hmem
    · exact hsign.elim hplus hminus
    · rw [hblanks' c hmem] at hspace
      cases hspace

/-- `parse_int` is right unless a sign is followed by white space only. -/
theorem parsesIntegers_iff (str valueName : Bytes) :
    ParsesIntegers str valueName ↔ ¬ BlankSigned str := by
  constructor
  · intro h hsigned
    have hzero := (parseInt_eq_ok_iff str valueName 0).mpr (.inr ⟨hsigned, rfl⟩)
    exact hsigned.not_isInteger 0 ((h.accepts 0).mp hzero)
  · intro hsigned
    refine ⟨fun value => ?_, parseDigitsInt_eq (onSide_zero _) inIntRange_zero⟩
    rw [parseInt_eq_ok_iff]
    exact or_iff_left fun h => hsigned h.1

/-- A minus sign and a space are read as zero. -/
theorem not_parsesIntegers_minus :
    parseInt (bytes "- ") (bytes "CoNLL-U head") = .ok 0 ∧
      ¬ IsInteger (bytes "- ") 0 ∧ ¬ ParsesIntegers (bytes "- ") (bytes "CoNLL-U head") := by
  have hzero : parseInt (bytes "- ") (bytes "CoNLL-U head") = .ok 0 := by
    decide
  have hsigned : BlankSigned (bytes "- ") :=
    ⟨[], minus, [space], rfl, by simp [Blank], by simp [Blank, isSpace], .inr rfl, by simp⟩
  have hnot := hsigned.not_isInteger 0
  exact ⟨hzero, hnot, fun h => hnot ((h.accepts 0).mp hzero)⟩

end UDPipe
