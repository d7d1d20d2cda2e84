import UDPipe.Tokenizer.Characters
import Mathlib.Tactic.Ring

/-!
# Codes that are written can be read

`utf8::append` writes a code below 2^21 as bytes that `utf8::decode` makes the same code of, and
decoding gives no other codes.
-/

namespace UDPipe.Utf8

open Tokenizer (chars_cons)

/-! ### Decoding what was encoded -/

/-- A number below 256 is a byte. -/
private theorem toNat_ofNat {k : ℕ} (h : k < 256) : (UInt8.ofNat k).toNat = k := by
  rw [UInt8.toNat_ofNat']
  exact Nat.mod_eq_of_lt h

/-- The range of the continuation bytes. -/
theorem isContinuation_iff (c : Byte) : isContinuation c = true ↔ 0x80 ≤ c.toNat ∧ c.toNat < 0xC0 := by
  rw [isContinuation, Bool.and_eq_true, decide_eq_true_eq, decide_eq_true_eq, UInt8.le_iff_toNat_le,
    UInt8.lt_iff_toNat_lt]
  rfl

/-- A continuation byte that was written adds its six bits. -/
theorem decodeRest_ofNat {k : ℕ} (h : k < 64) (count code : ℕ) (taken text : Bytes) :
    decodeRest (count + 1) code taken (UInt8.ofNat (0x80 + k) :: text) =
      decodeRest count (code * 64 + k) (taken ++ [UInt8.ofNat (0x80 + k)]) text := by
  have hnat := toNat_ofNat (k := 0x80 + k) (by omega)
  have hcont : isContinuation (UInt8.ofNat (0x80 + k)) = true := by
    rw [isContinuation_iff, hnat]
    omega
  rw [decodeRest, if_pos hcont, hnat]
  congr 2
  omega

/-- How a first byte is decoded, by its number. -/
theorem decode_eq (c : Byte) (text : Bytes) : decode c text =
    if c.toNat < 0x80 then ⟨c.toNat, [c]⟩
    else if c.toNat < 0xC0 then ⟨replacementChar, [c]⟩
    else if c.toNat < 0xE0 then decodeRest 1 (c.toNat % 32) [c] text
    else if c.toNat < 0xF0 then decodeRest 2 (c.toNat % 16) [c] text
    else if c.toNat < 0xF8 then decodeRest 3 (c.toNat % 8) [c] text
    else ⟨replacementChar, [c]⟩ := by
  simp only [decode, UInt8.lt_iff_toNat_lt]
  rfl

/-- An encoded character is decoded again. -/
theorem decode_encode {code : ℕ} (h : code < 0x200000) : ∃ c more, encode code = c :: more ∧
    ∀ text, decode c (more ++ text) = ⟨code, encode code⟩ := by
  rw [encode]
  split_ifs with hone htwo hthree
  · refine ⟨_, [], rfl, fun text => ?_⟩
    rw [decode_eq, toNat_ofNat (by omega), if_pos hone]
  · refine ⟨_, [_], rfl, fun text => ?_⟩
    rw [decode_eq, toNat_ofNat (by omega), if_neg (by omega), if_neg (by omega), if_pos (by omega),
      List.singleton_append, decodeRest_ofNat (by omega), decodeRest]
    congr 1
    omega
  · refine ⟨_, [_, _], rfl, fun text => ?_⟩
    rw [decode_eq, toNat_ofNat (by omega), if_neg (by omega), if_neg (by omega), if_neg (by omega),
      if_pos (by omega), List.cons_append, List.singleton_append, decodeRest_ofNat (by omega),
      decodeRest_ofNat (by omega), decodeRest]
    congr 1
    omega
  · refine ⟨_, [_, _, _], rfl, fun text => ?_⟩
    rw [decode_eq, toNat_ofNat (by omega), if_neg (by omega), if_neg (by omega), if_neg (by omega),
      if_neg (by omega), if_pos (by omega), List.cons_append, List.cons_append,
      List.singleton_append, decodeRest_ofNat (by omega), decodeRest_ofNat (by omega),
      decodeRest_ofNat (by omega), decodeRest]
    congr 1
    omega

/-- An encoded character is the first one. -/
theorem chars_encode_append {code : ℕ} (h : code < 0x200000) (text : Bytes) :
    chars (encode code ++ text) = ⟨code, encode code⟩ :: chars text := by
  obtain ⟨c, more, hencode, hdecode⟩ := decode_encode h
  rw [hencode, List.cons_append, chars_cons, hdecode, hencode, List.length_cons,
    List.drop_succ_cons, List.drop_left]

/-- The characters of codes that were written. -/
theorem chars_flatMap_encode {codes : List ℕ} (h : ∀ code ∈ codes, code < 0x200000) :
    chars (codes.flatMap encode) = codes.map fun code => ⟨code, encode code⟩ := by
  induction codes with
  | nil => rfl
  | cons code codes ih =>
    obtain ⟨hcode, hcodes⟩ := List.forall_mem_cons.mp h
    rw [List.flatMap_cons, chars_encode_append hcode, ih hcodes, List.map_cons]

/-! ### The codes of a text -/

/-- The code of a character is bounded by its bytes. -/
theorem code_decodeRest_lt (count code : ℕ) (taken text : Bytes)
    (h : code * 64 ^ count + 64 ^ count ≤ 0x200000) :
    (decodeRest count code taken text).code < 0x200000 := by
  induction text generalizing count code taken with
  | nil =>
    cases count with
    | zero =>
      rw [decodeRest]
      dsimp only
      omega
    | succ count => exact (by decide : replacementChar < 0x200000)
  | cons c text ih =>
    cases count with
    | zero =>
      rw [decodeRest]
      dsimp only
      omega
    | succ count =>
      rw [decodeRest]
      split_ifs
      · apply ih
        have hmod : c.toNat % 64 + 1 ≤ 64 := Nat.mod_lt _ (by decide)
        calc (code * 64 + c.toNat % 64) * 64 ^ count + 64 ^ count
            = code * 64 ^ (count + 1) + (c.toNat % 64 + 1) * 64 ^ count := by ring
          _ ≤ code * 64 ^ (count + 1) + 64 * 64 ^ count := by gcongr
          _ = code * 64 ^ (count + 1) + 64 ^ (count + 1) := by ring
          _ ≤ 0x200000 := h
      · exact (by decide : replacementChar < 0x200000)

/-- The code of a character has 21 bits. -/
theorem code_decode_lt (c : Byte) (text : Bytes) : (decode c text).code < 0x200000 := by
  rw [decode_eq]
  split_ifs
  · dsimp only
    omega
  · exact (by decide : replacementChar < 0x200000)
  · exact code_decodeRest_lt _ _ _ _ (by omega)
  · exact code_decodeRest_lt _ _ _ _ (by omega)
  · exact code_decodeRest_lt _ _ _ _ (by omega)
  · exact (by decide : replacementChar < 0x200000)

/-- The codes that decoding gives have at most 21 bits. -/
theorem code_lt_of_mem_chars {text : Bytes} {c : Character} (h : c ∈ chars text) :
    c.code < 0x200000 := by
  induction hn : text.length using Nat.strongRecOn generalizing text with
  | ind n ih =>
    cases text with
    | nil => cases h
    | cons d text =>
      rw [chars_cons] at h
      rcases List.mem_cons.mp h with rfl | h
      · exact code_decode_lt d text
      · refine ih _ ?_ h rfl
        obtain ⟨more, hbytes, -⟩ := decode_spec d text
        rw [hbytes, ← hn, List.length_cons, List.drop_succ_cons, List.length_drop,
          List.length_cons]
        omega

end UDPipe.Utf8
