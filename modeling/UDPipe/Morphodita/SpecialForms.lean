import UDPipe.Morphodita.FeatureSequences
import UDPipe.Tokenizer.Utf8

/-!
# Numbers, punctuation and symbols

`generic_morpho::analyze_special` of `morpho/generic_morpho.cpp` recognises forms that no
dictionary has. What it takes for a number is the grammar in its comment, and besides every
number of the grammar with one more dot behind it.
-/

namespace UDPipe.Morphodita

open Utf8

/-- The classes of characters that are asked for. -/
structure SymbolClasses where
  /-- `category(chr) & unicode::N`. -/
  number : ℕ → Bool
  /-- `category(chr) & unicode::P`. -/
  punctuation : ℕ → Bool
  /-- `category(chr) & unicode::S`. -/
  symbol : ℕ → Bool
  /-- The zero that ends a text and `+`, `,`, `-`, `.`, `E` and `e` are no numbers. -/
  number_marks : ∀ c ∈ [0, 43, 44, 45, 46, 69, 101], number c = false

/-- The tags of the analyzer. -/
structure SpecialTags where
  number : Bytes
  punctuation : Bytes
  symbol : Bytes
  deriving DecidableEq, Repr

/-- What a form is taken for. -/
inductive SpecialForm where
  | number
  | punctuation
  | symbol
  deriving DecidableEq, Repr

/-- The tag of a special form. -/
def SpecialTags.tagOf (tags : SpecialTags) : SpecialForm → Bytes
  | .number => tags.number
  | .punctuation => tags.punctuation
  | .symbol => tags.symbol

variable (classes : SymbolClasses)

/-! ### The recogniser

The variable `codepoint` of the source is the first of the characters that are left; at the end
of the text it is zero, and decoding leaves it so. -/

/-- The character that was decoded last. -/
def codepoint (cs : List ℕ) : ℕ := cs.headD 0

/-- `codepoint == '+' || codepoint == '-'`. -/
def isSign (c : ℕ) : Bool := c == 43 || c == 45

/-- Pass over a sign. -/
def skipSign (cs : List ℕ) : List ℕ := if isSign (codepoint cs) then cs.tail else cs

/-- Pass over numbers, and remember whether there was one. -/
def skipNumbers : Bool → List ℕ → Bool × List ℕ
  | anyDigit, [] => (anyDigit, [])
  | anyDigit, c :: cs =>
    if classes.number c then skipNumbers true cs else (anyDigit, c :: cs)

/-- The exponent and the end of a number. -/
def matchExponent (anyDigit : Bool) (cs : List ℕ) : Bool :=
  let (anyDigit, cs) :=
    if anyDigit ∧ (codepoint cs = 101 ∨ codepoint cs = 69) then
      skipNumbers classes false (skipSign cs.tail)
    else (anyDigit, cs)
  anyDigit && cs.tail.isEmpty && (codepoint cs == 0 || codepoint cs == 46)

/-- What follows the whole part of a number. -/
def matchFraction (anyDigit : Bool) (cs : List ℕ) : Bool :=
  let cs := if codepoint cs = 46 ∧ cs.tail ≠ [] ∨ codepoint cs = 44 then cs.tail else cs
  let (anyDigit, cs) := skipNumbers classes anyDigit cs
  matchExponent classes anyDigit cs

/-- Whether the form matches as a number. -/
def matchNumber (codes : List ℕ) : Bool :=
  let (anyDigit, cs) := skipNumbers classes false (skipSign codes)
  matchFraction classes anyDigit cs

/-- The codes of the characters of a form. -/
def codesOf (form : Bytes) : List ℕ := (chars form).map Character.code

/-- What `analyze_special` finds; it adds the form with the tag for it to the lemmas. -/
def specialForm (form : Bytes) : Option SpecialForm :=
  if form = [] then none
  else if matchNumber classes (codesOf form) then some .number
  else if (codesOf form).all classes.punctuation then some .punctuation
  else if (codesOf form).all classes.symbol then some .symbol
  else none

/-! ### The grammar -/

/-- `[+-]?` -/
def OptionalSign (sign : List ℕ) : Prop := sign = [] ∨ ∃ c, isSign c = true ∧ sign = [c]

/-- Numbers only. -/
def Numbers (digits : List ℕ) : Prop := ∀ c ∈ digits, classes.number c = true

/-- `([.,] N*)?` -/
def Fraction (fraction : List ℕ) : Prop :=
  fraction = [] ∨ ∃ separator digits, (separator = 46 ∨ separator = 44) ∧
    Numbers classes digits ∧ fraction = separator :: digits

/-- `([Ee] [+-]? N+)?` -/
def Exponent (exponent : List ℕ) : Prop :=
  exponent = [] ∨ ∃ e sign digits, (e = 69 ∨ e = 101) ∧ OptionalSign sign ∧
    Numbers classes digits ∧ digits ≠ [] ∧ exponent = e :: (sign ++ digits)

/-- The parts of a number, with a digit before the exponent. -/
structure NumberParts (sign whole fraction exponent : List ℕ) : Prop where
  digit : ∃ c ∈ whole ++ fraction, classes.number c = true
  sign : OptionalSign sign
  whole : Numbers classes whole
  fraction : Fraction classes fraction
  exponent : Exponent classes exponent

/-- The form is a number. -/
def IsNumber (codes : List ℕ) : Prop :=
  ∃ sign whole fraction exponent, NumberParts classes sign whole fraction exponent ∧
    codes = sign ++ whole ++ fraction ++ exponent

/-- The form is a number with a separator or an exponent, and a dot. -/
def IsDottedNumber (codes : List ℕ) : Prop :=
  ∃ sign whole fraction exponent, NumberParts classes sign whole fraction exponent ∧
    (fraction ≠ [] ∨ exponent ≠ []) ∧ codes = sign ++ whole ++ fraction ++ exponent ++ [46]

/-! ### What the loops take -/

variable {classes}

/-- A mark is not a digit. -/
theorem number_mark {c : ℕ} (h : c ∈ [0, 43, 44, 45, 46, 69, 101]) : classes.number c = false :=
  classes.number_marks c h

/-- A sign is not a digit. -/
theorem not_number_of_isSign {c : ℕ} (h : isSign c = true) : classes.number c = false := by
  have hcases : c = 43 ∨ c = 45 := by simpa [isSign] using h
  rcases hcases with rfl | rfl <;> exact number_mark (by simp)

/-- A sign at the beginning is skipped. -/
theorem skipSign_append {sign cs : List ℕ} (hsign : OptionalSign sign)
    (hcs : isSign (codepoint cs) = false) : skipSign (sign ++ cs) = cs := by
  rcases hsign with rfl | ⟨c, hc, rfl⟩
  · rw [List.nil_append, skipSign, hcs]
    rfl
  · exact if_pos hc

/-- The sign is what is passed over. -/
theorem exists_skipSign (cs : List ℕ) : ∃ sign, OptionalSign sign ∧ cs = sign ++ skipSign cs := by
  rw [skipSign]
  split
  · rename_i hsign
    cases cs with
    | nil => cases hsign
    | cons c cs => exact ⟨[c], .inr ⟨c, hsign, rfl⟩, rfl⟩
  · exact ⟨[], .inl rfl, rfl⟩

/-- Digits at the beginning are skipped. -/
theorem skipNumbers_append {anyDigit : Bool} {digits cs : List ℕ} (hdigits : Numbers classes digits)
    (hcs : classes.number (codepoint cs) = false) :
    skipNumbers classes anyDigit (digits ++ cs) = (anyDigit || !digits.isEmpty, cs) := by
  induction digits generalizing anyDigit with
  | nil =>
    cases cs with
    | nil => simp [skipNumbers]
    | cons c cs =>
      have hc : classes.number c = false := hcs
      simp [skipNumbers, hc]
  | cons d digits ih =>
    obtain ⟨hd, hdigits⟩ := List.forall_mem_cons.mp hdigits
    rw [List.cons_append, skipNumbers, if_pos hd, ih hdigits]
    simp

/-- The numbers are what is passed over, and something else follows. -/
theorem exists_skipNumbers (anyDigit : Bool) (cs : List ℕ) :
    ∃ digits rest, Numbers classes digits ∧ classes.number (codepoint rest) = false ∧
      cs = digits ++ rest ∧
      skipNumbers classes anyDigit cs = (anyDigit || !digits.isEmpty, rest) := by
  obtain ⟨digits, rest, hdigits, hrest, rfl⟩ : ∃ digits rest, Numbers classes digits ∧
      classes.number (codepoint rest) = false ∧ cs = digits ++ rest := by
    induction cs with
    | nil => exact ⟨[], [], by simp [Numbers], number_mark (by simp [codepoint]), rfl⟩
    | cons c cs ih =>
      by_cases hc : classes.number c = true
      · obtain ⟨digits, rest, hdigits, hrest, rfl⟩ := ih
        exact ⟨c :: digits, rest, List.forall_mem_cons.mpr ⟨hc, hdigits⟩, hrest, rfl⟩
      · exact ⟨[], c :: cs, by simp [Numbers], by simpa [codepoint] using hc, rfl⟩
  exact ⟨digits, rest, hdigits, hrest, rfl, skipNumbers_append hdigits hrest⟩

/-- The end of a number: nothing is left, or a dot. -/
def NumberEnd (tail : List ℕ) : Prop := tail = [] ∨ tail = [46]

/-- The last check: nothing is left, or a dot. -/
theorem check_end_iff {cs : List ℕ} (hzero : 0 ∉ cs) :
    (cs.tail.isEmpty && (codepoint cs == 0 || codepoint cs == 46)) = true ↔ NumberEnd cs := by
  rcases cs with _ | ⟨c, _ | ⟨c', cs⟩⟩
  · simp [codepoint, NumberEnd]
  · have hc : c ≠ 0 := fun hc => hzero (by simp [hc])
    simp [codepoint, NumberEnd, hc]
  · simp [NumberEnd]

/-- At the end of a number is nothing or a dot. -/
theorem NumberEnd.codepoint_cases {tail : List ℕ} (h : NumberEnd tail) :
    codepoint tail = 0 ∨ codepoint tail = 46 := by
  rcases h with rfl | rfl
  · exact .inl rfl
  · exact .inr rfl

/-- A digit or the end of a number is no sign. -/
theorem not_isSign_of_digits {digits tail : List ℕ} (hdigits : Numbers classes digits)
    (htail : isSign (codepoint tail) = false) : isSign (codepoint (digits ++ tail)) = false := by
  cases digits with
  | nil => exact htail
  | cons d digits =>
    by_contra hsign
    rw [Bool.not_eq_false] at hsign
    have hd := hdigits d List.mem_cons_self
    rw [not_number_of_isSign (c := d) hsign] at hd
    cases hd

/-- The exponent is passed over, and the end of a number follows. -/
theorem matchExponent_iff {anyDigit : Bool} {cs : List ℕ} (hzero : 0 ∉ cs) :
    matchExponent classes anyDigit cs = true ↔ anyDigit = true ∧
      ∃ exponent tail, Exponent classes exponent ∧ NumberEnd tail ∧ cs = exponent ++ tail := by
  cases anyDigit with
  | false => simp [matchExponent]
  | true =>
    by_cases he : codepoint cs = 101 ∨ codepoint cs = 69
    · obtain ⟨e, rest, rfl⟩ : ∃ e rest, cs = e :: rest := by
        cases cs with
        | nil => simp [codepoint] at he
        | cons e rest => exact ⟨e, rest, rfl⟩
      have hrun : matchExponent classes true (e :: rest) =
          ((skipNumbers classes false (skipSign rest)).1 &&
            ((skipNumbers classes false (skipSign rest)).2.tail.isEmpty &&
              (codepoint (skipNumbers classes false (skipSign rest)).2 == 0 ||
                codepoint (skipNumbers classes false (skipSign rest)).2 == 46))) := by
        rw [matchExponent, if_pos ⟨rfl, he⟩, ← Bool.and_assoc]
        rfl
      rw [hrun]
      constructor
      · intro h
        obtain ⟨sign, hsign, hrest⟩ := exists_skipSign rest
        obtain ⟨digits, tail, hdigits, -, hsplit, hskip⟩ :=
          @exists_skipNumbers classes false (skipSign rest)
        rw [hskip] at h
        obtain ⟨hany, hend⟩ := (Bool.and_eq_true _ _).mp h
        have htail : 0 ∉ tail := fun hmem => hzero (by rw [hrest, hsplit]; simp [hmem])
        refine ⟨rfl, e :: (sign ++ digits), tail, .inr ⟨e, sign, digits, he.symm, hsign, hdigits,
          by simpa using hany, rfl⟩, (check_end_iff htail).mp hend, ?_⟩
        rw [hrest, hsplit, List.cons_append, List.append_assoc]
      · rintro ⟨-, exponent, tail, hexponent, htail, hcs⟩
        rcases hexponent with rfl | ⟨e', sign, digits, -, hsign, hdigits, hne, rfl⟩
        · rcases htail with rfl | rfl
          · cases hcs
          · obtain ⟨rfl, -⟩ := List.cons.inj hcs
            simp [codepoint] at he
        · rw [List.cons_append] at hcs
          obtain ⟨rfl, rfl⟩ := List.cons.inj hcs
          have hstop : isSign (codepoint tail) = false ∧
              classes.number (codepoint tail) = false := by
            rcases htail.codepoint_cases with h | h <;> rw [h] <;>
              exact ⟨rfl, number_mark (by simp)⟩
          have hzero' : 0 ∉ tail := fun hmem => hzero (by simp [hmem])
          rw [List.append_assoc, skipSign_append hsign (not_isSign_of_digits hdigits hstop.1),
            skipNumbers_append hdigits hstop.2, Bool.and_eq_true]
          exact ⟨by simpa using hne, (check_end_iff hzero').mpr htail⟩
    · have hrun : matchExponent classes true cs =
          (cs.tail.isEmpty && (codepoint cs == 0 || codepoint cs == 46)) := by
        rw [matchExponent, if_neg fun h => he h.2]
        rfl
      rw [hrun, check_end_iff hzero]
      constructor
      · exact fun hend => ⟨rfl, [], cs, .inl rfl, hend, rfl⟩
      · rintro ⟨-, exponent, tail, hexponent, htail, rfl⟩
        rcases hexponent with rfl | ⟨e, sign, digits, he', -, -, -, rfl⟩
        · exact htail
        · exact absurd he'.symm he

/-- Whether there is a digit is whether one was passed over. -/
theorem exists_number_iff {whole fraction : List ℕ} (hwhole : Numbers classes whole) :
    (∃ c ∈ whole ++ fraction, classes.number c = true) ↔
      whole ≠ [] ∨ ∃ c ∈ fraction, classes.number c = true := by
  simp only [List.mem_append, or_and_right, exists_or]
  refine or_congr_left ⟨fun ⟨c, hc, _⟩ => List.ne_nil_of_mem hc, fun hne => ?_⟩
  obtain ⟨c, hc⟩ := List.exists_mem_of_ne_nil whole hne
  exact ⟨c, hc, hwhole c hc⟩

/-- A fraction has a digit behind its separator. -/
theorem exists_number_fraction_iff {separator : ℕ} {digits : List ℕ}
    (hseparator : separator = 46 ∨ separator = 44) (hdigits : Numbers classes digits) :
    (∃ c ∈ separator :: digits, classes.number c = true) ↔ digits ≠ [] := by
  have hmark : classes.number separator = false := by
    rcases hseparator with rfl | rfl <;> exact number_mark (by simp)
  simp only [List.mem_cons, or_and_right, exists_or, exists_eq_left, hmark, Bool.false_eq_true,
    false_or]
  refine ⟨fun ⟨c, hc, _⟩ => List.ne_nil_of_mem hc, fun hne => ?_⟩
  obtain ⟨c, hc⟩ := List.exists_mem_of_ne_nil digits hne
  exact ⟨c, hc, hdigits c hc⟩

/-- What follows a fraction begins with no number, and with no separator but the last dot. -/
theorem codepoint_exponent_end {exponent tail : List ℕ} (hexponent : Exponent classes exponent)
    (htail : NumberEnd tail) :
    (exponent ++ tail = [46] ∨ codepoint (exponent ++ tail) ∈ [0, 69, 101]) ∧
      classes.number (codepoint (exponent ++ tail)) = false ∧
      isSign (codepoint (exponent ++ tail)) = false := by
  rcases hexponent with rfl | ⟨e, sign, digits, rfl | rfl, -, -, -, rfl⟩
  · rcases htail with rfl | rfl
    · exact ⟨.inr (by simp [codepoint]), number_mark (by simp [codepoint]), rfl⟩
    · exact ⟨.inl rfl, number_mark (by simp [codepoint]), rfl⟩
  · exact ⟨.inr (by simp [codepoint]), number_mark (by simp [codepoint]), rfl⟩
  · exact ⟨.inr (by simp [codepoint]), number_mark (by simp [codepoint]), rfl⟩

/-- The fraction is passed over, and the exponent and the end of a number follow. -/
theorem matchFraction_iff {anyDigit : Bool} {cs : List ℕ} (hzero : 0 ∉ cs)
    (hcs : classes.number (codepoint cs) = false) :
    matchFraction classes anyDigit cs = true ↔ ∃ fraction exponent tail,
      Fraction classes fraction ∧ Exponent classes exponent ∧ NumberEnd tail ∧
      (anyDigit = true ∨ ∃ c ∈ fraction, classes.number c = true) ∧
      cs = fraction ++ exponent ++ tail := by
  have hplain : skipNumbers classes anyDigit cs = (anyDigit, cs) := by
    simpa using @skipNumbers_append classes anyDigit [] cs (by simp [Numbers]) hcs
  by_cases hseparator : codepoint cs = 46 ∧ cs.tail ≠ [] ∨ codepoint cs = 44
  · obtain ⟨separator, rest, rfl⟩ : ∃ separator rest, cs = separator :: rest := by
      cases cs with
      | nil => simp [codepoint] at hseparator
      | cons separator rest => exact ⟨separator, rest, rfl⟩
    have hmark : separator = 46 ∨ separator = 44 := hseparator.imp And.left id
    have hzero' : 0 ∉ rest := fun hmem => hzero (List.mem_cons_of_mem _ hmem)
    have hrun : matchFraction classes anyDigit (separator :: rest) =
        matchExponent classes (skipNumbers classes anyDigit rest).1
          (skipNumbers classes anyDigit rest).2 := by
      rw [matchFraction, if_pos hseparator]
      rfl
    rw [hrun]
    constructor
    · intro h
      obtain ⟨digits, rest', hdigits, -, rfl, hskip⟩ :=
        @exists_skipNumbers classes anyDigit rest
      rw [hskip, matchExponent_iff fun hmem => hzero' (List.mem_append_right _ hmem)] at h
      obtain ⟨hany, exponent, tail, hexponent, htail, rfl⟩ := h
      refine ⟨separator :: digits, exponent, tail, .inr ⟨separator, digits, hmark, hdigits, rfl⟩,
        hexponent, htail, ?_, by simp⟩
      rw [exists_number_fraction_iff hmark hdigits]
      simpa using hany
    · rintro ⟨fraction, exponent, tail, hfraction, hexponent, htail, hany, heq⟩
      rcases hfraction with rfl | ⟨separator', digits, -, hdigits, rfl⟩
      · rw [List.nil_append] at heq
        rcases (codepoint_exponent_end hexponent htail).1 with hdot | hmem
        · rw [hdot] at heq
          obtain ⟨rfl, rfl⟩ := List.cons.inj heq
          simp [codepoint] at hseparator
        · rw [← heq] at hmem
          rcases hmark with rfl | rfl <;> simp [codepoint] at hmem
      · rw [List.cons_append, List.cons_append, List.append_assoc] at heq
        obtain ⟨rfl, rfl⟩ := List.cons.inj heq
        rw [exists_number_fraction_iff hmark hdigits] at hany
        rw [skipNumbers_append hdigits (codepoint_exponent_end hexponent htail).2.1,
          matchExponent_iff fun hmem => hzero' (List.mem_append_right _ hmem)]
        exact ⟨by simpa using hany, exponent, tail, hexponent, htail, rfl⟩
  · have hrun : matchFraction classes anyDigit cs = matchExponent classes anyDigit cs := by
      rw [matchFraction, if_neg hseparator, hplain]
    rw [hrun, matchExponent_iff hzero]
    constructor
    · rintro ⟨hany, exponent, tail, hexponent, htail, rfl⟩
      exact ⟨[], exponent, tail, .inl rfl, hexponent, htail, .inl hany, rfl⟩
    · rintro ⟨fraction, exponent, tail, hfraction, hexponent, htail, hany, rfl⟩
      rcases hfraction with rfl | ⟨separator, digits, hmark, hdigits, rfl⟩
      · exact ⟨by simpa using hany, exponent, tail, hexponent, htail, rfl⟩
      · -- a dot at the end of the text is not taken for a separator
        rw [exists_number_fraction_iff hmark hdigits] at hany
        have hrest : separator = 46 ∧ digits = [] ∧ exponent = [] ∧ tail = [] := by
          rcases hmark with rfl | rfl
          · simpa [codepoint] using hseparator
          · simp [codepoint] at hseparator
        obtain ⟨rfl, rfl, rfl, rfl⟩ := hrest
        exact ⟨by simpa using hany, [], [46], .inl rfl, .inr rfl, rfl⟩

/-- The recogniser accepts the numbers of the grammar, with a dot behind them or not. -/
theorem matchNumber_iff {codes : List ℕ} (hzero : 0 ∉ codes) :
    matchNumber classes codes = true ↔ ∃ sign whole fraction exponent tail,
      NumberParts classes sign whole fraction exponent ∧ NumberEnd tail ∧
        codes = sign ++ whole ++ fraction ++ exponent ++ tail := by
  constructor
  · intro h
    obtain ⟨sign, hsign, hcodes⟩ := exists_skipSign codes
    obtain ⟨whole, rest, hwhole, hrest, hsplit, hskip⟩ :=
      @exists_skipNumbers classes false (skipSign codes)
    have hzero' : 0 ∉ rest := fun hmem => hzero (by rw [hcodes, hsplit]; simp [hmem])
    rw [matchNumber, hskip] at h
    obtain ⟨fraction, exponent, tail, hfraction, hexponent, htail, hany, rfl⟩ :=
      (matchFraction_iff hzero' hrest).mp h
    refine ⟨sign, whole, fraction, exponent, tail, ⟨?_, hsign, hwhole, hfraction, hexponent⟩, htail,
      ?_⟩
    · rw [exists_number_iff hwhole]
      simpa using hany
    · rw [hcodes, hsplit]
      simp only [List.append_assoc]
  · rintro ⟨sign, whole, fraction, exponent, tail, hparts, htail, rfl⟩
    have hrest : classes.number (codepoint (fraction ++ exponent ++ tail)) = false ∧
        isSign (codepoint (fraction ++ exponent ++ tail)) = false := by
      rcases hparts.fraction with rfl | ⟨separator, digits, rfl | rfl, -, rfl⟩
      · exact (codepoint_exponent_end hparts.exponent htail).2
      · exact ⟨number_mark (by simp [codepoint]), rfl⟩
      · exact ⟨number_mark (by simp [codepoint]), rfl⟩
    have hzero' : 0 ∉ fraction ++ exponent ++ tail := fun hmem => hzero (by
      simp only [List.append_assoc] at hmem ⊢
      exact List.mem_append_right _ (List.mem_append_right _ hmem))
    have hassoc : sign ++ whole ++ fraction ++ exponent ++ tail =
        sign ++ (whole ++ (fraction ++ exponent ++ tail)) := by
      simp only [List.append_assoc]
    have hany := (exists_number_iff hparts.whole).mp hparts.digit
    rw [hassoc, matchNumber, skipSign_append hparts.sign
      (not_isSign_of_digits hparts.whole hrest.2), skipNumbers_append hparts.whole hrest.1]
    exact (matchFraction_iff hzero' hrest.1).mpr ⟨fraction, exponent, tail, hparts.fraction,
      hparts.exponent, htail, by simpa using hany, rfl⟩

/-- A text that ends with a dot does not end with numbers. -/
theorem Numbers.eq_nil_of_dot {before digits codes : List ℕ} (hdigits : Numbers classes digits)
    (heq : codes ++ [46] = before ++ digits) : digits = [] := by
  rcases List.eq_nil_or_concat' digits with rfl | ⟨digits, d, rfl⟩
  · rfl
  · rw [← List.append_assoc] at heq
    obtain ⟨-, hd⟩ := List.append_inj' heq rfl
    have hnumber := hdigits d (by simp)
    rw [← (List.cons.inj hd).1, number_mark (by simp)] at hnumber
    cases hnumber

/-- A dot behind a separator or an exponent is not in the grammar. -/
theorem IsDottedNumber.not_isNumber {codes : List ℕ} (h : IsDottedNumber classes codes) :
    ¬ IsNumber classes codes := by
  obtain ⟨sign, whole, fraction, exponent, hparts, hne, rfl⟩ := h
  rintro ⟨sign', whole', fraction', exponent', hparts', heq⟩
  -- the last dot is the separator, so all before it is a sign and numbers
  have hbefore : sign ++ whole ++ fraction ++ exponent = sign' ++ whole' := by
    rcases hparts'.exponent with rfl | ⟨e, sign'', digits, -, -, hdigits, hdigits', rfl⟩
    · rw [List.append_nil] at heq
      rcases hparts'.fraction with rfl | ⟨separator, digits, -, hdigits, rfl⟩
      · rw [List.append_nil] at heq
        obtain rfl := hparts'.whole.eq_nil_of_dot heq
        obtain ⟨c, hc, -⟩ := hparts'.digit
        cases hc
      · have hseparator : sign ++ whole ++ fraction ++ exponent ++ [46] =
            sign' ++ whole' ++ [separator] ++ digits := by
          rw [heq, List.append_assoc _ [separator], List.singleton_append]
        obtain rfl := hdigits.eq_nil_of_dot hseparator
        rw [List.append_nil] at hseparator
        exact (List.append_inj' hseparator rfl).1
    · rw [← List.cons_append, ← List.append_assoc] at heq
      exact absurd (hdigits.eq_nil_of_dot heq) hdigits'
  have hmem : ∀ c ∈ fraction ++ exponent, isSign c = true ∨ classes.number c = true := by
    intro c hc
    have hc' : c ∈ sign' ++ whole' := by
      rw [← hbefore, List.append_assoc]
      exact List.mem_append_right _ hc
    rcases List.mem_append.mp hc' with hc' | hc'
    · rcases hparts'.sign with rfl | ⟨c', hsign, rfl⟩
      · cases hc'
      · exact .inl (List.mem_singleton.mp hc' ▸ hsign)
    · exact .inr (hparts'.whole c hc')
  have hmark : ∃ c ∈ fraction ++ exponent, c ∈ [44, 46, 69, 101] := by
    rcases hparts.fraction with rfl | ⟨separator, digits, hseparator, -, rfl⟩
    · rcases hparts.exponent with rfl | ⟨e, sign'', digits, he, -, -, -, rfl⟩
      · simp at hne
      · exact ⟨e, by simp, by rcases he with rfl | rfl <;> simp⟩
    · exact ⟨separator, by simp, by rcases hseparator with rfl | rfl <;> simp⟩
  obtain ⟨c, hc, hmark⟩ := hmark
  simp only [List.mem_cons, List.not_mem_nil, or_false] at hmark
  rcases hmark with rfl | rfl | rfl | rfl <;>
    · rcases hmem _ hc with h | h
      · cases h
      · rw [number_mark (by simp)] at h
        cases h

/-- What is accepted besides numbers. -/
theorem matchNumber_iff_isNumber {codes : List ℕ} (hzero : 0 ∉ codes) :
    matchNumber classes codes = true ↔ IsNumber classes codes ∨ IsDottedNumber classes codes := by
  rw [matchNumber_iff hzero]
  constructor
  · rintro ⟨sign, whole, fraction, exponent, tail, hparts, rfl | rfl, rfl⟩
    · exact .inl ⟨sign, whole, fraction, exponent, hparts, List.append_nil _⟩
    · by_cases hplain : fraction = [] ∧ exponent = []
      · obtain ⟨rfl, rfl⟩ := hplain
        refine .inl ⟨sign, whole, [46], [], ⟨?_, hparts.sign, hparts.whole, ?_, .inl rfl⟩, by simp⟩
        · obtain ⟨c, hc, hnumber⟩ := hparts.digit
          exact ⟨c, List.mem_append_left _ (by simpa using hc), hnumber⟩
        · exact .inr ⟨46, [], .inl rfl, by simp [Numbers], rfl⟩
      · exact .inr ⟨sign, whole, fraction, exponent, hparts, by tauto, rfl⟩
  · rintro (⟨sign, whole, fraction, exponent, hparts, rfl⟩ |
      ⟨sign, whole, fraction, exponent, hparts, -, rfl⟩)
    · exact ⟨sign, whole, fraction, exponent, [], hparts, .inl rfl, (List.append_nil _).symm⟩
    · exact ⟨sign, whole, fraction, exponent, [46], hparts, .inr rfl, rfl⟩

/-- The number tag is given exactly to numbers, unless the form is a number with a separator or
an exponent and one more dot. -/
theorem specialForm_number_iff (classes : SymbolClasses) (form : Bytes) (hne : form ≠ [])
    (hzero : 0 ∉ codesOf form) :
    (specialForm classes form = some .number ↔ IsNumber classes (codesOf form)) ↔
      ¬ IsDottedNumber classes (codesOf form) := by
  have hfound : specialForm classes form = some .number ↔
      matchNumber classes (codesOf form) = true := by
    rw [specialForm, if_neg hne]
    split_ifs <;> simp_all
  rw [hfound, matchNumber_iff_isNumber hzero]
  constructor
  · exact fun h hdotted => hdotted.not_isNumber (h.mp (.inr hdotted))
  · exact fun hdotted => or_iff_left hdotted

/-- The classes of ASCII characters. -/
def asciiClasses : SymbolClasses where
  number c := decide (48 ≤ c ∧ c ≤ 57)
  punctuation c := decide (c = 44 ∨ c = 45 ∨ c = 46)
  symbol c := decide (c = 43)
  number_marks := by decide

/-- A form that is a number: -1,5e3. -/
theorem specialForm_number_iff_sample : bytes "-1,5e3" ≠ [] ∧ 0 ∉ codesOf (bytes "-1,5e3") ∧
    specialForm asciiClasses (bytes "-1,5e3") = some .number ∧
    IsNumber asciiClasses (codesOf (bytes "-1,5e3")) := by
  have hzero : 0 ∉ codesOf (bytes "-1,5e3") := by
    decide
  have hfound : specialForm asciiClasses (bytes "-1,5e3") = some .number := by
    decide
  have hdotted : ¬ IsDottedNumber asciiClasses (codesOf (bytes "-1,5e3")) := by
    rintro ⟨sign, whole, fraction, exponent, -, -, heq⟩
    have hlast := congrArg List.getLast? heq
    rw [List.getLast?_concat] at hlast
    exact absurd hlast (by decide)
  exact ⟨by decide, hzero, hfound,
    ((specialForm_number_iff asciiClasses (bytes "-1,5e3") (by decide) hzero).mpr hdotted).mp
      hfound⟩

/-- The form 1.5. is taken for a number, though the grammar has one separator only. -/
theorem not_number_twoDots : specialForm asciiClasses (bytes "1.5.") = some .number ∧
    ¬ IsNumber asciiClasses (codesOf (bytes "1.5.")) := by
  have hdotted : IsDottedNumber asciiClasses (codesOf (bytes "1.5.")) := by
    refine ⟨[], [49], [46, 53], [], ⟨⟨49, by simp, by decide⟩, .inl rfl, ?_, ?_, .inl rfl⟩,
      .inl (by simp), by decide⟩
    · simp [Numbers, asciiClasses]
    · exact .inr ⟨46, [53], .inl rfl, by simp [Numbers, asciiClasses], rfl⟩
  exact ⟨by decide, hdotted.not_isNumber⟩

end UDPipe.Morphodita
