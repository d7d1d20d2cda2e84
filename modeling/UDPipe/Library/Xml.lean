import Mathlib.Data.List.Basic

/-!
# Well formed XML

A grammar that relates texts to their elements with names, attributes and children; character
data between the elements is not kept. Texts are bytes in UTF-8. Names are of ASCII
characters, a `>` in character data is written as a reference, and there are no document
type declarations.
-/

namespace Xml

/-- A text in UTF-8. -/
abbrev Text := List UInt8

/-- An element with its attributes and the elements within it. -/
inductive Element where
  | mk (name : Text) (attributes : List (Text × Text)) (children : List Element)

/-- The characters of XML documents. -/
def IsChar (code : ℕ) : Prop :=
  code = 9 ∨ code = 10 ∨ code = 13 ∨ (32 ≤ code ∧ code ≤ 0xD7FF) ∨
    (0xE000 ≤ code ∧ code ≤ 0xFFFD) ∨ (0x10000 ≤ code ∧ code ≤ 0x10FFFF)

/-- The bytes of a character. -/
def utf8 (code : ℕ) : Text :=
  if code < 0x80 then [UInt8.ofNat code]
  else if code < 0x800 then
    [UInt8.ofNat (0xC0 + code / 64), UInt8.ofNat (0x80 + code % 64)]
  else if code < 0x10000 then
    [UInt8.ofNat (0xE0 + code / 4096), UInt8.ofNat (0x80 + code / 64 % 64),
      UInt8.ofNat (0x80 + code % 64)]
  else
    [UInt8.ofNat (0xF0 + code / 262144), UInt8.ofNat (0x80 + code / 4096 % 64),
      UInt8.ofNat (0x80 + code / 64 % 64), UInt8.ofNat (0x80 + code % 64)]

/-- A text of characters that are neither tabs nor line ends. -/
def IsLine (text : Text) : Prop :=
  ∃ codes : List ℕ, (∀ code ∈ codes, IsChar code ∧ code ≠ 9 ∧ code ≠ 10 ∧ code ≠ 13) ∧
    text = codes.flatMap utf8

/-- White space. -/
def isBlank (c : UInt8) : Bool := c = 32 || c = 9 || c = 10 || c = 13

/-- A character that begins a name. -/
def isNameStart (c : UInt8) : Bool :=
  (65 ≤ c && c ≤ 90) || (97 ≤ c && c ≤ 122) || c = 95 || c = 58

/-- A character of a name. -/
def isNameChar (c : UInt8) : Bool := isNameStart c || (48 ≤ c && c ≤ 57) || c = 45 || c = 46

/-- A name of an element or an attribute. -/
def isName : Text → Bool
  | [] => false
  | c :: rest => isNameStart c && rest.all isNameChar

/-- The references to predefined entities, with the character they stand for. -/
def entities : List (Text × UInt8) :=
  [([38, 108, 116, 59], 60), ([38, 103, 116, 59], 62), ([38, 97, 109, 112, 59], 38),
    ([38, 113, 117, 111, 116, 59], 34), ([38, 97, 112, 111, 115, 59], 39)]

/-- The value of an attribute and its text between two quotes; a blank there stands for a
space. -/
inductive IsValue (quote : UInt8) : Text → Text → Prop
  | nil : IsValue quote [] []
  | char {code : ℕ} {value text : Text} : IsChar code → code ≠ 60 → code ≠ 38 →
      code ≠ quote.toNat → code ≠ 9 → code ≠ 10 → code ≠ 13 → IsValue quote value text →
      IsValue quote (utf8 code ++ value) (utf8 code ++ text)
  | blank {c : UInt8} {value text : Text} : isBlank c = true → IsValue quote value text →
      IsValue quote (32 :: value) (c :: text)
  | reference {entity : Text} {c : UInt8} {value text : Text} : (entity, c) ∈ entities →
      IsValue quote value text → IsValue quote (c :: value) (entity ++ text)

/-- The attributes of a tag with the blanks before each of them. -/
inductive IsAttributes : List (Text × Text) → Text → Prop
  | nil : IsAttributes [] []
  | cons {blanks name value text rest : Text} {quote : UInt8} {attributes : List (Text × Text)} :
      blanks ≠ [] → blanks.all isBlank = true → isName name = true → quote = 34 ∨ quote = 39 →
      IsValue quote value text → IsAttributes attributes rest →
      IsAttributes ((name, value) :: attributes)
        (blanks ++ name ++ 61 :: quote :: (text ++ quote :: rest))

/-- Elements with character data and references between them. -/
inductive IsContent (P : Element → Text → Prop) : List Element → Text → Prop
  | nil : IsContent P [] []
  | char {code : ℕ} {elements : List Element} {text : Text} : IsChar code → code ≠ 60 →
      code ≠ 38 → code ≠ 62 → IsContent P elements text →
      IsContent P elements (utf8 code ++ text)
  | reference {entity : Text} {c : UInt8} {elements : List Element} {text : Text} :
      (entity, c) ∈ entities → IsContent P elements text →
      IsContent P elements (entity ++ text)
  | element {e : Element} {elements : List Element} {text rest : Text} : P e text →
      IsContent P elements rest → IsContent P (e :: elements) (text ++ rest)

/-- An element and its text. The names of its attributes differ. -/
inductive IsElement : Element → Text → Prop
  | empty {name blanks text : Text} {attributes : List (Text × Text)} : isName name = true →
      (attributes.map Prod.fst).Nodup → IsAttributes attributes text →
      blanks.all isBlank = true →
      IsElement (.mk name attributes []) (60 :: (name ++ text ++ blanks ++ [47, 62]))
  | full {name blanks blanks' text body : Text} {attributes : List (Text × Text)}
      {children : List Element} : isName name = true → (attributes.map Prod.fst).Nodup →
      IsAttributes attributes text → blanks.all isBlank = true → blanks'.all isBlank = true →
      IsContent IsElement children body →
      IsElement (.mk name attributes children)
        (60 :: (name ++ text ++ blanks ++ 62 :: (body ++ 60 :: 47 :: (name ++ blanks' ++ [62]))))

/-- What may stand around the root element: blanks, comments and processing instructions. -/
inductive IsMisc : Text → Prop
  | nil : IsMisc []
  | blank {c : UInt8} {text : Text} : isBlank c = true → IsMisc text → IsMisc (c :: text)
  | comment {body text : Text} : ¬ [45, 45] <:+: body → IsMisc text →
      IsMisc ([60, 33, 45, 45] ++ body ++ [45, 45, 62] ++ text)
  | instruction {body text : Text} : ¬ [63, 62] <:+: body → IsMisc text →
      IsMisc ([60, 63] ++ body ++ [63, 62] ++ text)

/-- A document is one element with such parts around it. -/
def IsDocument (e : Element) (text : Text) : Prop :=
  ∃ before root after, text = before ++ root ++ after ∧ IsMisc before ∧ IsElement e root ∧
    IsMisc after

/-! ### Characters -/

/-- The bytes of a character beyond ASCII are beyond ASCII. -/
theorem le_of_mem_utf8 {code : ℕ} (hchar : IsChar code) (hcode : 0x80 ≤ code) {c : UInt8}
    (hc : c ∈ utf8 code) : 0x80 ≤ c.toNat := by
  have hlt : code ≤ 0x10FFFF := by
    unfold IsChar at hchar
    omega
  rw [utf8, if_neg (by omega)] at hc
  split at hc
  · simp only [List.mem_cons, List.not_mem_nil, or_false] at hc
    rcases hc with rfl | rfl <;> simp only [UInt8.toNat_ofNat'] <;> omega
  · split at hc
    · simp only [List.mem_cons, List.not_mem_nil, or_false] at hc
      rcases hc with rfl | rfl | rfl <;> simp only [UInt8.toNat_ofNat'] <;> omega
    · simp only [List.mem_cons, List.not_mem_nil, or_false] at hc
      rcases hc with rfl | rfl | rfl | rfl <;> simp only [UInt8.toNat_ofNat'] <;> omega

/-- A line of printable ASCII characters. -/
theorem isLine_of_ascii {text : Text} (h : text.all (fun c => 32 ≤ c && c < 0x80) = true) :
    IsLine text := by
  have h : ∀ c ∈ text, 32 ≤ c.toNat ∧ c.toNat < 0x80 := by
    intro c hc
    have hascii := List.all_eq_true.mp h c hc
    rw [Bool.and_eq_true, decide_eq_true_eq, decide_eq_true_eq] at hascii
    exact ⟨UInt8.le_iff_toNat_le.mp hascii.1, UInt8.lt_iff_toNat_lt.mp hascii.2⟩
  refine ⟨text.map UInt8.toNat, fun code hcode => ?_, ?_⟩
  · obtain ⟨c, hc, rfl⟩ := List.mem_map.mp hcode
    have := h c hc
    unfold IsChar
    omega
  · rw [List.flatMap_map]
    conv_lhs => rw [← List.flatMap_singleton' text]
    refine List.flatMap_congr fun c hc => ?_
    rw [utf8, if_pos (h c hc).2, UInt8.ofNat_toNat]

/-! ### Content -/

section Content

variable {P : Element → Text → Prop}

/-- Contents one after the other. -/
theorem IsContent.append {elements elements' : List Element} {text text' : Text}
    (h : IsContent P elements text) (h' : IsContent P elements' text') :
    IsContent P (elements ++ elements') (text ++ text') := by
  induction h with
  | nil => exact h'
  | char hchar h₁ h₂ h₃ _ ih =>
    rw [List.append_assoc]
    exact .char hchar h₁ h₂ h₃ ih
  | reference hentity _ ih =>
    rw [List.append_assoc]
    exact .reference hentity ih
  | element he _ ih =>
    rw [List.append_assoc]
    exact .element he ih

/-- Blanks are character data. -/
theorem isContent_blanks {blanks : Text} (h : blanks.all isBlank = true) :
    IsContent P [] blanks := by
  induction blanks with
  | nil => exact .nil
  | cons c blanks ih =>
    rw [List.all_cons, Bool.and_eq_true] at h
    have hutf8 : ∀ code : ℕ, code < 0x80 → UInt8.ofNat code = c → [c] = utf8 code := by
      rintro code hlt rfl
      rw [utf8, if_pos hlt]
    have hblank := h.1
    simp only [isBlank, Bool.or_eq_true, decide_eq_true_eq] at hblank
    have hchar : ∀ code : ℕ, code = 32 ∨ code = 9 ∨ code = 10 ∨ code = 13 → [c] = utf8 code →
        IsContent P [] (c :: blanks) := by
      intro code hcode heq
      have hcons : c :: blanks = utf8 code ++ blanks := by rw [← heq, List.singleton_append]
      rw [hcons]
      refine .char ?_ (by omega) (by omega) (by omega) (ih h.2)
      unfold IsChar
      omega
    rcases hblank with ((rfl | rfl) | rfl) | rfl
    · exact hchar 32 (.inl rfl) rfl
    · exact hchar 9 (.inr (.inl rfl)) rfl
    · exact hchar 10 (.inr (.inr (.inl rfl))) rfl
    · exact hchar 13 (.inr (.inr (.inr rfl))) rfl

/-- An element with blanks around it. -/
theorem isContent_element {e : Element} {text : Text} (h : P e text) {before after : Text}
    (hbefore : before.all isBlank = true) (hafter : after.all isBlank = true) :
    IsContent P [e] (before ++ text ++ after) := by
  rw [List.append_assoc]
  exact (isContent_blanks hbefore).append (.element h (isContent_blanks hafter))

end Content

/-! ### Documents -/

/-- A document does not begin with an end tag. -/
theorem not_isDocument_endTag (e : Element) (text : Text) : ¬ IsDocument e (60 :: 47 :: text) := by
  rintro ⟨before, root, after, heq, hbefore, hroot, -⟩
  cases hbefore with
  | nil =>
    have hname : ∀ {name rest : Text}, isName name = true →
        60 :: 47 :: text ≠ 60 :: (name ++ rest) := by
      intro name rest hname heq
      cases name with
      | nil => cases hname
      | cons c name =>
        obtain rfl : (47 : UInt8) = c := (List.cons.inj (List.cons.inj heq).2).1
        cases hname
    cases hroot with
    | empty h _ _ _ =>
      simp only [List.nil_append, List.cons_append, List.append_assoc] at heq
      exact hname h heq
    | full h _ _ _ _ _ =>
      simp only [List.nil_append, List.cons_append, List.append_assoc] at heq
      exact hname h heq
  | blank hblank _ =>
    obtain rfl : (60 : UInt8) = _ := (List.cons.inj heq).1
    cases hblank
  | comment _ _ => cases (List.cons.inj (List.cons.inj heq).2).1
  | instruction _ _ => cases (List.cons.inj (List.cons.inj heq).2).1

end Xml
