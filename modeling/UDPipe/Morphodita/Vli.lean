import UDPipe.Bytes
import Mathlib.Data.List.Basic
import Mathlib.Data.Nat.Bitwise

/-!
# Numbers of variable length

A number is written in groups of seven bits, the highest group first. Every byte but the
last one has its highest bit set, so no number is written as the beginning of another.
-/

namespace UDPipe.Morphodita.Vli

/-- `vli<uint32_t>::encode`. -/
def encode (value : ℕ) : Bytes :=
  if value < 0x80 then [UInt8.ofNat value]
  else if value < 0x4000 then
    [UInt8.ofNat (value >>> 7 ||| 0x80), UInt8.ofNat (value &&& 0x7F)]
  else if value < 0x200000 then
    [UInt8.ofNat (value >>> 14 ||| 0x80), UInt8.ofNat ((value >>> 7) &&& 0x7F ||| 0x80),
      UInt8.ofNat (value &&& 0x7F)]
  else if value < 0x10000000 then
    [UInt8.ofNat (value >>> 21 ||| 0x80), UInt8.ofNat ((value >>> 14) &&& 0x7F ||| 0x80),
      UInt8.ofNat ((value >>> 7) &&& 0x7F ||| 0x80), UInt8.ofNat (value &&& 0x7F)]
  else
    [UInt8.ofNat (value >>> 28 ||| 0x80), UInt8.ofNat ((value >>> 21) &&& 0x7F ||| 0x80),
      UInt8.ofNat ((value >>> 14) &&& 0x7F ||| 0x80),
      UInt8.ofNat ((value >>> 7) &&& 0x7F ||| 0x80), UInt8.ofNat (value &&& 0x7F)]

/-- `vli<uint32_t>::decode`, for the value so far: the value and the data behind it. -/
def decode (value : ℕ) : Bytes → ℕ × Bytes
  | [] => (value, [])
  | c :: data =>
    if c &&& 0x80 ≠ 0 then decode (value <<< 7 ||| (c ^^^ 0x80).toNat) data
    else (value <<< 7 ||| c.toNat, data)

/-- The loops that decode all numbers of a key, with fuel. -/
def decodeAll : ℕ → Bytes → List ℕ
  | 0, _ => []
  | fuel + 1, key =>
    if key = [] then [] else (decode 0 key).1 :: decodeAll fuel (decode 0 key).2

/-- A number has a byte. -/
theorem encode_ne_nil (value : ℕ) : encode value ≠ [] := by
  unfold encode
  split_ifs <;> simp

/-- The high bit is set and cleared again. -/
private theorem highBit_spec (d : ℕ) (hd : d < 128) :
    UInt8.ofNat (d ||| 0x80) &&& 0x80 ≠ 0 ∧ (UInt8.ofNat (d ||| 0x80) ^^^ 0x80).toNat = d := by
  revert d
  decide

/-- A byte without the high bit is its value. -/
private theorem lowByte_spec (d : ℕ) (hd : d < 128) :
    ¬ UInt8.ofNat d &&& 0x80 ≠ 0 ∧ (UInt8.ofNat d).toNat = d := by
  revert d
  decide

/-- A byte with the high bit is followed by more. -/
theorem decode_more (value : ℕ) {d : ℕ} (hd : d < 128) (data : Bytes) :
    decode value (UInt8.ofNat (d ||| 0x80) :: data) = decode (128 * value + d) data := by
  obtain ⟨hbit, hvalue⟩ := highBit_spec d hd
  rw [decode, if_pos hbit, hvalue, ← Nat.shiftLeft_add_eq_or_of_lt hd, Nat.shiftLeft_eq,
    Nat.mul_comm]

/-- A byte without the high bit is the last one. -/
theorem decode_last (value : ℕ) {d : ℕ} (hd : d < 128) (data : Bytes) :
    decode value (UInt8.ofNat d :: data) = (128 * value + d, data) := by
  obtain ⟨hbit, hvalue⟩ := lowByte_spec d hd
  rw [decode, if_neg hbit, hvalue, ← Nat.shiftLeft_add_eq_or_of_lt hd, Nat.shiftLeft_eq,
    Nat.mul_comm]

/-- A number is decoded, whatever follows it. -/
theorem decode_encode {value : ℕ} (h : value < 2 ^ 32) (data : Bytes) :
    decode 0 (encode value ++ data) = (value, data) := by
  have hlow : ∀ n, n &&& 0x7F = n % 128 := fun n => Nat.and_two_pow_sub_one_eq_mod n 7
  have hshift : ∀ n k, n >>> k = n / 2 ^ k := Nat.shiftRight_eq_div_pow
  simp only [encode, hlow, hshift]
  split_ifs
  · rw [List.singleton_append, decode_last 0 (by omega), Nat.mul_zero, Nat.zero_add]
  · simp only [List.cons_append, List.nil_append]
    rw [decode_more _ (by omega), decode_last _ (by omega)]
    exact Prod.ext (by simp only; omega) rfl
  · simp only [List.cons_append, List.nil_append]
    rw [decode_more _ (by omega), decode_more _ (by omega), decode_last _ (by omega)]
    exact Prod.ext (by simp only; omega) rfl
  · simp only [List.cons_append, List.nil_append]
    rw [decode_more _ (by omega), decode_more _ (by omega), decode_more _ (by omega),
      decode_last _ (by omega)]
    exact Prod.ext (by simp only; omega) rfl
  · simp only [List.cons_append, List.nil_append]
    rw [decode_more _ (by omega), decode_more _ (by omega), decode_more _ (by omega),
      decode_more _ (by omega), decode_last _ (by omega)]
    exact Prod.ext (by simp only; omega) rfl

/-- All numbers of a key are decoded. -/
theorem decodeAll_encode {values : List ℕ} (h : ∀ v ∈ values, v < 2 ^ 32) {fuel : ℕ}
    (hfuel : values.length ≤ fuel) : decodeAll fuel (values.flatMap encode) = values := by
  induction values generalizing fuel with
  | nil => cases fuel <;> simp [decodeAll]
  | cons v values ih =>
    obtain ⟨hv, hvalues⟩ := List.forall_mem_cons.mp h
    obtain ⟨fuel, rfl⟩ : ∃ k, fuel = k + 1 := ⟨fuel - 1, by rw [List.length_cons] at hfuel; omega⟩
    have hne : encode v ++ values.flatMap encode ≠ [] := by simp [encode_ne_nil]
    rw [List.flatMap_cons, decodeAll, if_neg hne, decode_encode hv,
      ih hvalues (by simpa using hfuel)]

/-- There are no more numbers than bytes. -/
theorem length_le_encode (values : List ℕ) : values.length ≤ (values.flatMap encode).length := by
  induction values with
  | nil => exact le_rfl
  | cons v values ih =>
    have hpos := List.length_pos_of_ne_nil (encode_ne_nil v)
    rw [List.flatMap_cons, List.length_append, List.length_cons]
    omega

/-- Keys are told apart by their numbers. -/
theorem encode_injective {s t : List ℕ} (hs : ∀ v ∈ s, v < 2 ^ 32) (ht : ∀ v ∈ t, v < 2 ^ 32)
    (h : s.flatMap encode = t.flatMap encode) : s = t := by
  rw [← decodeAll_encode hs (length_le_encode s), h]
  exact decodeAll_encode ht (length_le_encode t)

end UDPipe.Morphodita.Vli
