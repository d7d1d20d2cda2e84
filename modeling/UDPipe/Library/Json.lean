import Mathlib.Data.List.Basic
import Mathlib.Data.Nat.Digits.Lemmas

/-!
# JSON values

A text of bytes is decoded into a value: null, truth values, natural numbers, strings,
arrays, and objects as lists of members in their order. Printing a value and decoding it
gives the value back. Strings are kept as bytes; of the escapes for code units, those of
surrogates are refused.
-/

namespace Json

/-- A text in UTF-8. -/
abbrev Text := List UInt8

/-- The values of the syntax, with natural numbers only. -/
inductive Value where
  | null
  | bool (b : Bool)
  | number (n : ℕ)
  | string (text : Text)
  | array (items : List Value)
  | object (members : List (Text × Value))

/-! ### Printing -/

/-- The digit for a number below ten. -/
def digit (n : ℕ) : UInt8 := UInt8.ofNat (48 + n)

/-- A number in decimal. -/
def printNumber (n : ℕ) : Text :=
  if n = 0 then [48] else (Nat.digits 10 n).reverse.map digit

/-- The uppercase digit for a number below sixteen. -/
def hexDigit (n : ℕ) : UInt8 := UInt8.ofNat (if n < 10 then 48 + n else 55 + n)

/-- A byte of a string as it is printed. -/
def escape (c : UInt8) : Text :=
  if c = 34 then [92, 34]
  else if c = 92 then [92, 92]
  else if c = 8 then [92, 98]
  else if c = 12 then [92, 102]
  else if c = 10 then [92, 110]
  else if c = 13 then [92, 114]
  else if c = 9 then [92, 116]
  else if c < 32 then [92, 117, 48, 48, hexDigit (c.toNat / 16), hexDigit (c.toNat % 16)]
  else [c]

/-- A string in quotes. -/
def printString (text : Text) : Text := 34 :: (text.flatMap escape ++ [34])

mutual

/-- A value with `, ` between the parts of arrays and objects. -/
def print : Value → Text
  | .null => [110, 117, 108, 108]
  | .bool true => [116, 114, 117, 101]
  | .bool false => [102, 97, 108, 115, 101]
  | .number n => printNumber n
  | .string text => printString text
  | .array [] => [91, 93]
  | .array (item :: items) => 91 :: (print item ++ (printItems items ++ [93]))
  | .object [] => [123, 125]
  | .object ((key, value) :: members) =>
    123 :: (printString key ++ 58 :: (print value ++ (printMembers members ++ [125])))

/-- The items after the first one. -/
def printItems : List Value → Text
  | [] => []
  | item :: items => 44 :: 32 :: (print item ++ printItems items)

/-- The members after the first one. -/
def printMembers : List (Text × Value) → Text
  | [] => []
  | (key, value) :: members =>
    44 :: 32 :: (printString key ++ 58 :: (print value ++ printMembers members))

end

/-! ### Decoding -/

/-- White space. -/
def isBlank (c : UInt8) : Bool := c = 32 || c = 9 || c = 10 || c = 13

/-- The text without the white space at its beginning. -/
def skipBlanks (text : Text) : Text := text.dropWhile isBlank

/-- A decimal digit. -/
def isDigit (c : UInt8) : Bool := 48 ≤ c && c ≤ 57

/-- A number without leading zeros. -/
def parseNumber (text : Text) : Option (Value × Text) :=
  let digits := text.takeWhile isDigit
  if digits = [] ∨ (digits.head? = some 48 ∧ digits ≠ [48]) then none
  else some (.number (Nat.ofDigits 10 (digits.reverse.map fun c => c.toNat - 48)),
    text.dropWhile isDigit)

/-- The value of a hexadecimal digit. -/
def hexValue (c : UInt8) : Option ℕ :=
  if isDigit c then some (c.toNat - 48)
  else if 65 ≤ c ∧ c ≤ 70 then some (c.toNat - 55)
  else if 97 ≤ c ∧ c ≤ 102 then some (c.toNat - 87)
  else none

/-- The bytes of a code unit that is a character on its own. -/
def unitBytes (unit : ℕ) : Option Text :=
  if unit < 0x80 then some [UInt8.ofNat unit]
  else if unit < 0x800 then
    some [UInt8.ofNat (0xC0 + unit / 64), UInt8.ofNat (0x80 + unit % 64)]
  else if 0xD800 ≤ unit ∧ unit < 0xE000 then none
  else some [UInt8.ofNat (0xE0 + unit / 4096), UInt8.ofNat (0x80 + unit / 64 % 64),
    UInt8.ofNat (0x80 + unit % 64)]

/-- The character of four hexadecimal digits. -/
def parseUnit (a b c d : UInt8) : Option Text :=
  match hexValue a, hexValue b, hexValue c, hexValue d with
  | some a, some b, some c, some d => unitBytes (((a * 16 + b) * 16 + c) * 16 + d)
  | _, _, _, _ => none

/-- The byte for an escape with one letter. -/
def parseEscape (c : UInt8) : Option UInt8 :=
  if c = 34 then some 34
  else if c = 92 then some 92
  else if c = 47 then some 47
  else if c = 98 then some 8
  else if c = 102 then some 12
  else if c = 110 then some 10
  else if c = 114 then some 13
  else if c = 116 then some 9
  else none

/-- The rest of a string after its first quote. -/
def parseString : Text → Option (Text × Text)
  | [] => none
  | c :: rest =>
    if c = 34 then some ([], rest)
    else if c < 32 then none
    else if c = 92 then
      match rest with
      | [] => none
      | e :: rest =>
        if e = 117 then
          match rest with
          | h₃ :: h₂ :: h₁ :: h₀ :: rest =>
            match parseUnit h₃ h₂ h₁ h₀ with
            | none => none
            | some unit => (parseString rest).map fun p => (unit ++ p.1, p.2)
          | _ => none
        else
          match parseEscape e with
          | none => none
          | some c => (parseString rest).map fun p => (c :: p.1, p.2)
    else (parseString rest).map fun p => (c :: p.1, p.2)

mutual

/-- The value at the beginning of a text, with limited depth and length. -/
def parseValue : ℕ → Text → Option (Value × Text)
  | 0, _ => none
  | fuel + 1, text =>
    match skipBlanks text with
    | [] => none
    | c :: rest =>
      if c = 91 then
        match skipBlanks rest with
        | [] => none
        | d :: rest =>
          if d = 93 then some (.array [], rest)
          else (parseItems fuel (d :: rest)).map fun p => (.array p.1, p.2)
      else if c = 123 then
        match skipBlanks rest with
        | [] => none
        | d :: rest =>
          if d = 125 then some (.object [], rest)
          else (parseMembers fuel (d :: rest)).map fun p => (.object p.1, p.2)
      else if c = 34 then (parseString rest).map fun p => (.string p.1, p.2)
      else if (c :: rest).take 4 = [110, 117, 108, 108] then some (.null, rest.drop 3)
      else if (c :: rest).take 4 = [116, 114, 117, 101] then some (.bool true, rest.drop 3)
      else if (c :: rest).take 5 = [102, 97, 108, 115, 101] then some (.bool false, rest.drop 4)
      else parseNumber (c :: rest)

/-- The items of an array up to its end. -/
def parseItems : ℕ → Text → Option (List Value × Text)
  | 0, _ => none
  | fuel + 1, text =>
    match parseValue fuel text with
    | none => none
    | some (item, rest) =>
      match skipBlanks rest with
      | [] => none
      | c :: rest =>
        if c = 44 then (parseItems fuel rest).map fun p => (item :: p.1, p.2)
        else if c = 93 then some ([item], rest)
        else none

/-- The members of an object up to its end. -/
def parseMembers : ℕ → Text → Option (List (Text × Value) × Text)
  | 0, _ => none
  | fuel + 1, text =>
    match skipBlanks text with
    | [] => none
    | c :: rest =>
      if c ≠ 34 then none
      else
        match parseString rest with
        | none => none
        | some (key, rest) =>
          match skipBlanks rest with
          | [] => none
          | c :: rest =>
            if c ≠ 58 then none
            else
              match parseValue fuel rest with
              | none => none
              | some (value, rest) =>
                match skipBlanks rest with
                | [] => none
                | c :: rest =>
                  if c = 44 then
                    (parseMembers fuel rest).map fun p => ((key, value) :: p.1, p.2)
                  else if c = 125 then some ([(key, value)], rest)
                  else none

end

/-- Decode a text that is one value, with blanks around it. -/
def decode (text : Text) : Option Value :=
  match parseValue (text.length + 1) text with
  | some (value, rest) => if skipBlanks rest = [] then some value else none
  | none => none

/-! ### Decoding a printed number -/

/-- A digit is read as its number, and only zero is written as `0`. -/
theorem digit_spec : ∀ n : ℕ, n < 10 → isDigit (digit n) = true ∧ (digit n).toNat - 48 = n ∧
    (digit n = 48 → n = 0) := by
  decide

/-- A printed number has digits only, and the last of them tells where it ends. -/
theorem isDigit_of_mem_printNumber {n : ℕ} : ∀ c ∈ printNumber n, isDigit c = true := by
  unfold printNumber
  split
  · exact List.forall_mem_singleton.mpr rfl
  · intro c hc
    obtain ⟨d, hd, rfl⟩ := List.mem_map.mp hc
    exact (digit_spec d (Nat.digits_lt_base (by decide) (List.mem_reverse.mp hd))).1

/-- A number has a digit. -/
theorem printNumber_ne_nil (n : ℕ) : printNumber n ≠ [] := by
  unfold printNumber
  split
  · exact List.cons_ne_nil _ _
  · rename_i h
    rw [Ne, List.map_eq_nil_iff, List.reverse_eq_nil_iff]
    exact Nat.digits_ne_nil_iff_ne_zero.mpr h

/-- What follows does not go on with a number. -/
def NoDigit (rest : Text) : Prop := ∀ c ∈ rest.head?, isDigit c = false

/-- A number is read again, when no digit follows it. -/
theorem parseNumber_print (n : ℕ) {rest : Text} (h : NoDigit rest) :
    parseNumber (printNumber n ++ rest) = some (.number n, rest) := by
  have hnone : rest.takeWhile isDigit = [] ∧ rest.dropWhile isDigit = rest := by
    cases rest with
    | nil => exact ⟨rfl, rfl⟩
    | cons c rest =>
      have hc : isDigit c = false := h c rfl
      simp [hc]
  have htake : (printNumber n ++ rest).takeWhile isDigit = printNumber n := by
    rw [List.takeWhile_append_of_pos isDigit_of_mem_printNumber, hnone.1, List.append_nil]
  have hdrop : (printNumber n ++ rest).dropWhile isDigit = rest := by
    rw [List.dropWhile_append_of_pos isDigit_of_mem_printNumber, hnone.2]
  have hlead : ¬ (printNumber n = [] ∨ (printNumber n).head? = some 48 ∧ printNumber n ≠ [48]) := by
    rintro (hnil | ⟨hhead, hne⟩)
    · exact printNumber_ne_nil n hnil
    · unfold printNumber at hhead hne
      split at hhead
      · rename_i hzero
        exact hne (if_pos hzero)
      · rename_i hzero
        have hdigits : Nat.digits 10 n ≠ [] := Nat.digits_ne_nil_iff_ne_zero.mpr hzero
        have hlast := Nat.getLast_digit_ne_zero 10 hzero
        rw [List.head?_map, List.head?_reverse, List.getLast?_eq_getLast_of_ne_nil hdigits,
          Option.map_some] at hhead
        have hlt := Nat.digits_lt_base (by decide : 1 < 10) (List.getLast_mem hdigits)
        exact hlast ((digit_spec _ hlt).2.2 (Option.some.inj hhead))
  have hvalue : Nat.ofDigits 10 ((printNumber n).reverse.map fun c => c.toNat - 48) = n := by
    unfold printNumber
    split
    · rename_i hzero
      rw [hzero]
      rfl
    · rw [← List.map_reverse, List.reverse_reverse, List.map_map]
      have hsame : (Nat.digits 10 n).map ((fun c : UInt8 => c.toNat - 48) ∘ digit) =
          Nat.digits 10 n := by
        conv_rhs => rw [← List.map_id (Nat.digits 10 n)]
        exact List.map_congr_left fun d hd =>
          (digit_spec d (Nat.digits_lt_base (by decide) hd)).2.1
      rw [hsame, Nat.ofDigits_digits]
  unfold parseNumber
  rw [htake, hdrop, if_neg hlead, hvalue]

/-! ### Decoding a printed string -/

/-- An escaped control character is read again. -/
theorem parseUnit_control : ∀ n : ℕ, n < 32 →
    parseUnit 48 48 (hexDigit (n / 16)) (hexDigit (n % 16)) = some [UInt8.ofNat n] := by
  decide

/-- An escape with one letter. -/
theorem parseString_backslash {e c : UInt8} (h : parseEscape e = some c) (rest : Text) :
    parseString (92 :: e :: rest) = (parseString rest).map fun p => (c :: p.1, p.2) := by
  have hne : e ≠ 117 := by
    rintro rfl
    cases h
  rw [parseString.eq_def]
  dsimp only
  rw [if_neg (by decide), if_neg (by decide), if_pos rfl, if_neg hne, h]

/-- A character of a string is read again. -/
theorem parseString_escape (c : UInt8) (rest : Text) :
    parseString (escape c ++ rest) = (parseString rest).map fun p => (c :: p.1, p.2) := by
  unfold escape
  split_ifs with h₁ h₂ h₃ h₄ h₅ h₆ h₇ h₈
  · exact parseString_backslash (by rw [h₁]; rfl) rest
  · exact parseString_backslash (by rw [h₂]; rfl) rest
  · exact parseString_backslash (by rw [h₃]; rfl) rest
  · exact parseString_backslash (by rw [h₄]; rfl) rest
  · exact parseString_backslash (by rw [h₅]; rfl) rest
  · exact parseString_backslash (by rw [h₆]; rfl) rest
  · exact parseString_backslash (by rw [h₇]; rfl) rest
  · have hunit := parseUnit_control c.toNat (UInt8.lt_iff_toNat_lt.mp h₈)
    rw [UInt8.ofNat_toNat] at hunit
    simp only [List.cons_append, List.nil_append]
    rw [parseString.eq_def]
    dsimp only
    rw [if_neg (by decide), if_neg (by decide), if_pos rfl, if_pos rfl, hunit]
    rfl
  · rw [List.singleton_append, parseString.eq_def]
    dsimp only
    rw [if_neg h₁, if_neg h₈, if_neg h₂]

/-- A string is read again. -/
theorem parseString_print (text rest : Text) :
    parseString (text.flatMap escape ++ 34 :: rest) = some (text, rest) := by
  induction text with
  | nil =>
    rw [List.flatMap_nil, List.nil_append, parseString.eq_def]
    exact if_pos rfl
  | cons c text ih =>
    rw [List.flatMap_cons, List.append_assoc, parseString_escape, ih]
    rfl

/-! ### Decoding a printed value -/

/-- The first byte of a value is no blank and does not end an array. -/
theorem print_eq_cons (v : Value) : ∃ c text, print v = c :: text ∧ isBlank c = false ∧ c ≠ 93 := by
  have hnumber : ∀ n, ∃ c text, printNumber n = c :: text ∧ isBlank c = false ∧ c ≠ 93 := by
    intro n
    obtain ⟨c, text, heq⟩ := List.exists_cons_of_ne_nil (printNumber_ne_nil n)
    have hdigit : isDigit c = true :=
      isDigit_of_mem_printNumber c (heq ▸ List.mem_cons_self)
    refine ⟨c, text, heq, ?_, ?_⟩
    · rw [← Bool.not_eq_true]
      intro hblank
      simp only [isBlank, Bool.or_eq_true, decide_eq_true_eq] at hblank
      rcases hblank with ((rfl | rfl) | rfl) | rfl <;> exact absurd hdigit (by decide)
    · rintro rfl
      exact absurd hdigit (by decide)
  match v with
  | .null => exact ⟨110, _, by rw [print], by decide, by decide⟩
  | .bool true => exact ⟨116, _, by rw [print], by decide, by decide⟩
  | .bool false => exact ⟨102, _, by rw [print], by decide, by decide⟩
  | .number n =>
    rw [print]
    exact hnumber n
  | .string text => exact ⟨34, _, by rw [print, printString], by decide, by decide⟩
  | .array [] => exact ⟨91, _, by rw [print], by decide, by decide⟩
  | .array (item :: items) => exact ⟨91, _, by rw [print], by decide, by decide⟩
  | .object [] => exact ⟨123, _, by rw [print], by decide, by decide⟩
  | .object ((key, value) :: members) => exact ⟨123, _, by rw [print], by decide, by decide⟩

/-- Nothing is skipped before another character. -/
theorem skipBlanks_cons_of_not {c : UInt8} (h : isBlank c = false) (text : Text) :
    skipBlanks (c :: text) = c :: text := by
  rw [skipBlanks, List.dropWhile_cons, h]
  rfl

/-- A space is skipped. -/
theorem skipBlanks_space (text : Text) : skipBlanks (32 :: text) = skipBlanks text := rfl

/-- A space before a value is skipped. -/
theorem parseValue_space (fuel : ℕ) (text : Text) :
    parseValue fuel (32 :: text) = parseValue fuel text := by
  cases fuel with
  | zero => rfl
  | succ fuel => rw [parseValue, parseValue, skipBlanks_space]

/-- A space before the items is skipped. -/
theorem parseItems_space (fuel : ℕ) (text : Text) :
    parseItems fuel (32 :: text) = parseItems fuel text := by
  cases fuel with
  | zero => rfl
  | succ fuel => rw [parseItems, parseItems, parseValue_space]

/-- A space before the members is skipped. -/
theorem parseMembers_space (fuel : ℕ) (text : Text) :
    parseMembers fuel (32 :: text) = parseMembers fuel text := by
  cases fuel with
  | zero => rfl
  | succ fuel => rw [parseMembers, parseMembers, skipBlanks_space]

/-- A number is parsed as such: its first byte begins nothing else. -/
theorem parseValue_number (fuel n : ℕ) {rest : Text} (h : NoDigit rest) :
    parseValue (fuel + 1) (printNumber n ++ rest) = some (.number n, rest) := by
  obtain ⟨c, text, heq, hblank, -⟩ := print_eq_cons (.number n)
  rw [print] at heq
  have hdigit : isDigit c = true := isDigit_of_mem_printNumber c (heq ▸ List.mem_cons_self)
  have hne : ∀ d, isDigit d = false → c ≠ d := by
    rintro d hd rfl
    rw [hdigit] at hd
    cases hd
  have htake : ∀ d text' count, isDigit d = false →
      (c :: (text ++ rest)).take (count + 1) ≠ d :: text' := by
    intro d text' count hd heq
    exact hne d hd (List.cons.inj heq).1
  have hparse := parseNumber_print n h
  rw [heq, List.cons_append] at hparse ⊢
  rw [parseValue, skipBlanks_cons_of_not hblank]
  dsimp only
  rw [if_neg (hne 91 rfl), if_neg (hne 123 rfl), if_neg (hne 34 rfl), if_neg (htake 110 _ 3 rfl),
    if_neg (htake 116 _ 3 rfl), if_neg (htake 102 _ 4 rfl), hparse]

/-- The key of a member and the colon after it. -/
theorem parseMembers_key (key : Text) (fuel : ℕ) (text : Text) :
    parseMembers (fuel + 1) (printString key ++ 58 :: text) =
      match parseValue fuel text with
      | none => none
      | some (value, rest) =>
        match skipBlanks rest with
        | [] => none
        | c :: rest =>
          if c = 44 then (parseMembers fuel rest).map fun p => ((key, value) :: p.1, p.2)
          else if c = 125 then some ([(key, value)], rest)
          else none := by
  rw [printString, List.cons_append, List.append_assoc, parseMembers,
    skipBlanks_cons_of_not (by decide)]
  dsimp only
  rw [if_neg (by decide), List.singleton_append, parseString_print]
  dsimp only
  rw [skipBlanks_cons_of_not (by decide)]
  dsimp only
  rw [if_neg (by decide)]

mutual

/-- With enough fuel, a printed value is parsed back. -/
theorem parseValue_print : ∀ (v : Value) (fuel : ℕ) (rest : Text), (print v).length < fuel →
    NoDigit rest → parseValue fuel (print v ++ rest) = some (v, rest)
  | _, 0, _, hfuel, _ => absurd hfuel (Nat.not_lt_zero _)
  | .null, _ + 1, rest, _, _ => by
    rw [print]
    rfl
  | .bool true, _ + 1, rest, _, _ => by
    rw [print]
    rfl
  | .bool false, _ + 1, rest, _, _ => by
    rw [print]
    rfl
  | .number n, fuel + 1, rest, _, hrest => by
    rw [print]
    exact parseValue_number fuel n hrest
  | .string text, fuel + 1, rest, _, _ => by
    rw [print, printString, List.cons_append, List.append_assoc, parseValue,
      skipBlanks_cons_of_not (by decide)]
    dsimp only
    rw [if_neg (by decide), if_neg (by decide), if_pos rfl, List.singleton_append,
      parseString_print]
    rfl
  | .array [], _ + 1, rest, _, _ => by
    rw [print]
    rfl
  | .array (item :: items), fuel + 1, rest, hfuel, _ => by
    rw [print, List.length_cons, List.length_append, List.length_append, List.length_singleton]
      at hfuel
    have hitems := parseItems_print item items fuel rest (by omega)
    obtain ⟨c, text, heq, hblank, hc⟩ := print_eq_cons item
    rw [heq, List.cons_append] at hitems
    rw [print, heq, List.cons_append, parseValue, skipBlanks_cons_of_not (by decide)]
    dsimp only
    rw [if_pos rfl, List.cons_append, List.cons_append, skipBlanks_cons_of_not hblank]
    dsimp only
    rw [if_neg hc]
    simp only [List.append_assoc, List.singleton_append] at hitems ⊢
    rw [hitems]
    rfl
  | .object [], _ + 1, rest, _, _ => by
    rw [print]
    rfl
  | .object ((key, value) :: members), fuel + 1, rest, hfuel, _ => by
    rw [print, List.length_cons, List.length_append, List.length_cons, List.length_append,
      List.length_append, List.length_singleton] at hfuel
    have hmembers := parseMembers_print key value members fuel rest (by omega)
    rw [printString, List.cons_append] at hmembers
    rw [print, printString, List.cons_append, parseValue, skipBlanks_cons_of_not (by decide)]
    dsimp only
    rw [if_neg (by decide), if_pos rfl, List.cons_append, List.cons_append,
      skipBlanks_cons_of_not (by decide)]
    dsimp only
    rw [if_neg (by decide)]
    simp only [List.append_assoc, List.nil_append, List.cons_append] at hmembers ⊢
    rw [hmembers]
    rfl

/-- The printed items of an array are parsed back up to its end. -/
theorem parseItems_print : ∀ (item : Value) (items : List Value) (fuel : ℕ) (rest : Text),
    (print item).length + (printItems items).length + 1 < fuel →
    parseItems fuel (print item ++ (printItems items ++ 93 :: rest)) =
      some (item :: items, rest)
  | _, _, 0, _, hfuel => absurd hfuel (Nat.not_lt_zero _)
  | item, [], fuel + 1, rest, hfuel => by
    have hnext : NoDigit (93 :: rest) := by
      rintro c ⟨⟩
      rfl
    have hitem := parseValue_print item fuel (93 :: rest) (by omega) hnext
    rw [printItems, List.nil_append, parseItems, hitem]
    rfl
  | item, next :: items, fuel + 1, rest, hfuel => by
    have hnext : NoDigit (printItems (next :: items) ++ 93 :: rest) := by
      rw [printItems]
      rintro c ⟨⟩
      rfl
    have hitem := parseValue_print item fuel _ (by omega) hnext
    rw [parseItems, hitem]
    rw [printItems, List.length_cons, List.length_cons, List.length_append] at hfuel
    have hitems := parseItems_print next items fuel rest (by omega)
    dsimp only
    rw [printItems, List.cons_append, List.cons_append, skipBlanks_cons_of_not (by decide)]
    dsimp only
    rw [if_pos rfl, parseItems_space, List.append_assoc, hitems]
    rfl

/-- The printed members of an object are parsed back up to its end. -/
theorem parseMembers_print : ∀ (key : Text) (value : Value) (members : List (Text × Value))
    (fuel : ℕ) (rest : Text), (print value).length + (printMembers members).length + 1 < fuel →
    parseMembers fuel
        (printString key ++ 58 :: (print value ++ (printMembers members ++ 125 :: rest))) =
      some ((key, value) :: members, rest)
  | _, _, _, 0, _, hfuel => absurd hfuel (Nat.not_lt_zero _)
  | key, value, [], fuel + 1, rest, hfuel => by
    have hnext : NoDigit (125 :: rest) := by
      rintro c ⟨⟩
      rfl
    have hvalue := parseValue_print value fuel (125 :: rest) (by omega) hnext
    rw [parseMembers_key, printMembers, List.nil_append, hvalue]
    rfl
  | key, value, (key', value') :: members, fuel + 1, rest, hfuel => by
    have hnext : NoDigit (printMembers ((key', value') :: members) ++ 125 :: rest) := by
      rw [printMembers]
      rintro c ⟨⟩
      rfl
    have hvalue := parseValue_print value fuel _ (by omega) hnext
    rw [parseMembers_key, hvalue]
    rw [printMembers, List.length_cons, List.length_cons, List.length_append, List.length_cons,
      List.length_append] at hfuel
    have hmembers := parseMembers_print key' value' members fuel rest (by omega)
    dsimp only
    rw [printMembers, List.cons_append, List.cons_append, skipBlanks_cons_of_not (by decide)]
    dsimp only
    rw [if_pos rfl, parseMembers_space]
    simp only [List.append_assoc, List.cons_append] at hmembers ⊢
    rw [hmembers]
    rfl

end

/-- A printed value is decoded to the value. -/
theorem decode_print (v : Value) : decode (print v) = some v := by
  have hparse := parseValue_print v ((print v).length + 1) [] (Nat.lt_succ_self _) nofun
  rw [List.append_nil] at hparse
  rw [decode, hparse]
  rfl

/-! ### Printed text has no control characters -/

/-- No byte is a control character. -/
def Printable (text : Text) : Prop := ∀ c ∈ text, 32 ≤ c

/-- Text without control characters is printable. -/
theorem printable_of_all {text : Text} (h : text.all (fun c => 32 ≤ c) = true) :
    Printable text := by
  simpa [Printable] using h

/-- Printable texts together. -/
theorem Printable.append {text text' : Text} (h : Printable text) (h' : Printable text') :
    Printable (text ++ text') := List.forall_mem_append.mpr ⟨h, h'⟩

/-- A printable character before printable text. -/
theorem Printable.cons {c : UInt8} {text : Text} (hc : 32 ≤ c) (h : Printable text) :
    Printable (c :: text) := List.forall_mem_cons.mpr ⟨hc, h⟩

/-- The empty text is printable. -/
theorem printable_nil : Printable [] := List.forall_mem_nil _

/-- An escaped character is printable. -/
theorem printable_escape (c : UInt8) : Printable (escape c) := by
  have hhex : ∀ n : ℕ, n < 16 → 32 ≤ hexDigit n := by decide
  unfold escape
  split_ifs with h₁ h₂ h₃ h₄ h₅ h₆ h₇ h₈
  · exact printable_of_all rfl
  · exact printable_of_all rfl
  · exact printable_of_all rfl
  · exact printable_of_all rfl
  · exact printable_of_all rfl
  · exact printable_of_all rfl
  · exact printable_of_all rfl
  · have hlt : c.toNat < 32 := UInt8.lt_iff_toNat_lt.mp h₈
    have hunit : Printable ([92, 117, 48, 48] : Text) := printable_of_all rfl
    exact hunit.append (.cons (hhex _ (by omega)) (.cons (hhex _ (by omega)) printable_nil))
  · exact .cons (UInt8.not_lt.mp h₈) printable_nil

/-- A written string is printable. -/
theorem printable_printString (text : Text) : Printable (printString text) := by
  refine .cons (by decide) (.append (fun c hc => ?_) (.cons (by decide) printable_nil))
  obtain ⟨d, -, hd⟩ := List.mem_flatMap.mp hc
  exact printable_escape d c hd

/-- A written number is printable. -/
theorem printable_printNumber (n : ℕ) : Printable (printNumber n) := by
  intro c hc
  have hdigit := isDigit_of_mem_printNumber c hc
  simp only [isDigit, Bool.and_eq_true, decide_eq_true_eq] at hdigit
  exact UInt8.le_trans (by decide : (32 : UInt8) ≤ 48) hdigit.1

mutual

/-- A written value is printable. -/
theorem printable_print : ∀ v : Value, Printable (print v)
  | .null => by
    rw [print]
    exact printable_of_all rfl
  | .bool true => by
    rw [print]
    exact printable_of_all rfl
  | .bool false => by
    rw [print]
    exact printable_of_all rfl
  | .number n => by
    rw [print]
    exact printable_printNumber n
  | .string text => by
    rw [print]
    exact printable_printString text
  | .array [] => by
    rw [print]
    exact .cons (by decide) (.cons (by decide) printable_nil)
  | .array (item :: items) => by
    rw [print]
    exact .cons (by decide) ((printable_print item).append
      ((printable_printItems items).append (.cons (by decide) printable_nil)))
  | .object [] => by
    rw [print]
    exact .cons (by decide) (.cons (by decide) printable_nil)
  | .object ((key, value) :: members) => by
    rw [print]
    exact .cons (by decide) ((printable_printString key).append (.cons (by decide)
      ((printable_print value).append
        ((printable_printMembers members).append (.cons (by decide) printable_nil)))))

/-- The written items of a list are printable. -/
theorem printable_printItems : ∀ items : List Value, Printable (printItems items)
  | [] => by
    rw [printItems]
    exact printable_nil
  | item :: items => by
    rw [printItems]
    exact .cons (by decide) (.cons (by decide)
      ((printable_print item).append (printable_printItems items)))

/-- The written members of an object are printable. -/
theorem printable_printMembers : ∀ members : List (Text × Value),
    Printable (printMembers members)
  | [] => by
    rw [printMembers]
    exact printable_nil
  | (key, value) :: members => by
    rw [printMembers]
    exact .cons (by decide) (.cons (by decide) ((printable_printString key).append
      (.cons (by decide) ((printable_print value).append (printable_printMembers members)))))

end

end Json
