import UDPipe.Bytes

/-!
# Characters of a text

`unilib/utf8.h` decodes a text from left to right, character by character, and
passes over malformed sequences with a replacement. So every text is cut into
the groups of bytes that its characters take, which put together give it back.
The tables of `unilib/unicode.cpp` are a parameter.
-/

namespace UDPipe

/-- A decoded character: its code, and the bytes it takes in the text. -/
structure Character where
  code : ℕ
  bytes : Bytes
  deriving DecidableEq, Repr

namespace Utf8

/-- `REPLACEMENT_CHAR`. -/
def replacementChar : ℕ := 63

/-- Whether a byte continues a character. -/
def isContinuation (c : Byte) : Bool := 0x80 ≤ c && c < 0xC0

/-- The continuation bytes of a character, `count` of which are missing; the bytes
that are not there are not taken. -/
def decodeRest : ℕ → ℕ → Bytes → Bytes → Character
  | 0, code, taken, _ => ⟨code, taken⟩
  | _ + 1, _, taken, [] => ⟨replacementChar, taken⟩
  | count + 1, code, taken, c :: text =>
    if isContinuation c then decodeRest count (code * 64 + c.toNat % 64) (taken ++ [c]) text
    else ⟨replacementChar, taken⟩

/-- `utf8::decode` of a text that begins with `c`. -/
def decode (c : Byte) (text : Bytes) : Character :=
  if c < 0x80 then ⟨c.toNat, [c]⟩
  else if c < 0xC0 then ⟨replacementChar, [c]⟩
  else if c < 0xE0 then decodeRest 1 (c.toNat % 32) [c] text
  else if c < 0xF0 then decodeRest 2 (c.toNat % 16) [c] text
  else if c < 0xF8 then decodeRest 3 (c.toNat % 8) [c] text
  else ⟨replacementChar, [c]⟩

/-- The characters of a text, found with as much fuel as it has bytes. -/
def charsWith : ℕ → Bytes → List Character
  | 0, _ => []
  | _ + 1, [] => []
  | fuel + 1, c :: text =>
    let first := decode c text
    first :: charsWith fuel ((c :: text).drop first.bytes.length)

/-- The characters that decoding a text to its end gives. -/
def chars (text : Bytes) : List Character := charsWith text.length text

/-- `utf8::append`: the bytes of a code. -/
def encode (code : ℕ) : Bytes :=
  if code < 0x80 then [UInt8.ofNat code]
  else if code < 0x800 then
    [UInt8.ofNat (0xC0 + code / 64), UInt8.ofNat (0x80 + code % 64)]
  else if code < 0x10000 then
    [UInt8.ofNat (0xE0 + code / 4096), UInt8.ofNat (0x80 + code / 64 % 64),
      UInt8.ofNat (0x80 + code % 64)]
  else if code < 0x200000 then
    [UInt8.ofNat (0xF0 + code / 262144), UInt8.ofNat (0x80 + code / 4096 % 64),
      UInt8.ofNat (0x80 + code / 64 % 64), UInt8.ofNat (0x80 + code % 64)]
  else [63]

/-- `utf8::map` of a text with a length. -/
def map (f : ℕ → ℕ) (text : Bytes) : Bytes := (chars text).flatMap fun c => encode (f c.code)

/-- The characters of a text that ends with a zero, which decoding stops at. -/
def charsToZero (text : Bytes) : List Character := (chars text).takeWhile fun c => c.code != 0

/-- `utf8::map` of a `std::string`, which stops at a zero. -/
def mapToZero (f : ℕ → ℕ) (text : Bytes) : Bytes :=
  (charsToZero text).flatMap fun c => encode (f c.code)

/-- `utf8::valid` of a text with a length. -/
def valid : Bytes → Bool
  | [] => true
  | c :: text =>
    if c < 0x80 then valid text
    else if c < 0xC0 then false
    else if c < 0xE0 then
      match text with
      | d :: text => isContinuation d && valid text
      | _ => false
    else if c < 0xF0 then
      match text with
      | d :: e :: text => isContinuation d && isContinuation e && valid text
      | _ => false
    else if c < 0xF8 then
      match text with
      | d :: e :: f :: text =>
        isContinuation d && isContinuation e && isContinuation f && valid text
      | _ => false
    else false

/-- The bytes of several characters. -/
def flat (cs : List Character) : Bytes := cs.flatMap Character.bytes

/-- No characters have no bytes. -/
@[simp] theorem flat_nil : flat [] = [] := rfl

/-- The bytes of the first character, and those of the others. -/
@[simp] theorem flat_cons (c : Character) (cs : List Character) :
    flat (c :: cs) = c.bytes ++ flat cs := rfl

/-- The bytes of characters one after the other. -/
@[simp] theorem flat_append (cs cs' : List Character) : flat (cs ++ cs') = flat cs ++ flat cs' := by
  simp [flat]

/-! ### Characters partition the text -/

/-- The rest of a character takes continuation bytes only. -/
theorem decodeRest_spec (count code : ℕ) (taken text : Bytes) :
    ∃ more, (decodeRest count code taken text).bytes = taken ++ more ∧ more <+: text ∧
      ∀ c ∈ more, isContinuation c = true := by
  induction text generalizing count code taken with
  | nil => cases count <;> exact ⟨[], by simp [decodeRest]⟩
  | cons c text ih =>
    cases count with
    | zero => exact ⟨[], by simp [decodeRest]⟩
    | succ count =>
      rw [decodeRest]
      by_cases hc : isContinuation c = true
      · obtain ⟨more, hbytes, hprefix, hmore⟩ := ih count (code * 64 + c.toNat % 64) (taken ++ [c])
        refine ⟨c :: more, ?_, (List.prefix_cons_inj c).mpr hprefix, ?_⟩
        · rw [if_pos hc, hbytes, List.append_assoc, List.singleton_append]
        · exact List.forall_mem_cons.mpr ⟨hc, hmore⟩
      · exact ⟨[], by simp [hc]⟩

/-- A decoded character takes its first byte and continuation bytes that follow. -/
theorem decode_spec (c : Byte) (text : Bytes) :
    ∃ more, (decode c text).bytes = c :: more ∧ more <+: text ∧
      (∀ d ∈ more, isContinuation d = true) ∧ (c < 0x80 → decode c text = ⟨c.toNat, [c]⟩) := by
  have hnone : ∃ more, [c] = c :: more ∧ more <+: text ∧ ∀ d ∈ more, isContinuation d = true :=
    ⟨[], rfl, List.nil_prefix, by simp⟩
  have hrest : ∀ count code, ∃ more, (decodeRest count code [c] text).bytes = c :: more ∧
      more <+: text ∧ ∀ d ∈ more, isContinuation d = true :=
    fun count code => decodeRest_spec count code [c] text
  have hascii : c < 0x80 → decode c text = ⟨c.toNat, [c]⟩ := fun h => if_pos h
  have hbytes : ∃ more, (decode c text).bytes = c :: more ∧ more <+: text ∧
      ∀ d ∈ more, isContinuation d = true := by
    unfold decode
    split_ifs
    · exact hnone
    · exact hnone
    · exact hrest 1 _
    · exact hrest 2 _
    · exact hrest 3 _
    · exact hnone
  obtain ⟨more, hmore, hprefix, hcont⟩ := hbytes
  exact ⟨more, hmore, hprefix, hcont, hascii⟩

/-- The characters of a text are all of its bytes. -/
private theorem flat_charsWith (fuel : ℕ) (text : Bytes) (h : text.length ≤ fuel) :
    flat (charsWith fuel text) = text := by
  induction fuel generalizing text with
  | zero =>
    obtain rfl := List.length_eq_zero_iff.mp (Nat.le_zero.mp h)
    rfl
  | succ fuel ih =>
    cases text with
    | nil => rfl
    | cons c text =>
      obtain ⟨more, hbytes, ⟨rest, rfl⟩, _⟩ := decode_spec c text
      have hdrop : (c :: (more ++ rest)).drop (c :: more).length = rest := by simp
      simp only [List.length_cons, List.length_append] at h
      rw [charsWith, flat_cons, hbytes, hdrop, ih rest (by omega)]
      simp

/-- The bytes of the characters of a text are the text. -/
@[simp] theorem flat_chars (text : Bytes) : flat (chars text) = text :=
  flat_charsWith text.length text le_rfl

/-- Every character takes a byte, and an ASCII byte is a character on its own. -/
def WellCut (c : Character) : Prop :=
  c.bytes ≠ [] ∧ ∀ d ∈ c.bytes, d < 0x80 → c = ⟨d.toNat, [d]⟩

/-- The characters of a text are well cut, whatever the fuel. -/
private theorem wellCut_charsWith (fuel : ℕ) (text : Bytes) :
    ∀ c ∈ charsWith fuel text, WellCut c := by
  induction fuel generalizing text with
  | zero => simp [charsWith]
  | succ fuel ih =>
    cases text with
    | nil => simp [charsWith]
    | cons c text =>
      obtain ⟨more, hbytes, _, hcont, hascii⟩ := decode_spec c text
      rw [charsWith]
      refine List.forall_mem_cons.mpr ⟨⟨by simp [hbytes], fun d hd hlt => ?_⟩, ih _⟩
      rw [hbytes] at hd
      rcases List.mem_cons.mp hd with rfl | hd
      · exact hascii hlt
      · have := hcont d hd
        simp only [isContinuation, Bool.and_eq_true, decide_eq_true_eq] at this
        exact absurd hlt (UInt8.not_lt.mpr this.1)

/-- The characters of a text are well cut. -/
theorem wellCut_chars {text : Bytes} {c : Character} (h : c ∈ chars text) : WellCut c :=
  wellCut_charsWith text.length text c h

end Utf8

/-- The general categories that the code asks for. -/
inductive Category where
  | Lu | Ll | Lt | Lm | Lo | Zs | other
  deriving DecidableEq, Repr

/-- The tables of `unilib/unicode`. -/
structure Unicode where
  category : ℕ → Category
  lowercase : ℕ → ℕ
  uppercase : ℕ → ℕ

namespace Unicode

/-- `category(chr) & unicode::Lut`. -/
def isLut (tables : Unicode) (code : ℕ) : Bool :=
  match tables.category code with
  | .Lu | .Lt => true
  | _ => false

/-- `category(chr) & (unicode::L & ~unicode::Lut)`. -/
def isOtherLetter (tables : Unicode) (code : ℕ) : Bool :=
  match tables.category code with
  | .Ll | .Lm | .Lo => true
  | _ => false

/-- The characters that are white space for the tokenizer. -/
def isSpace (tables : Unicode) (code : ℕ) : Bool :=
  tables.category code == .Zs || code == 13 || code == 10 || code == 9

end Unicode

end UDPipe
