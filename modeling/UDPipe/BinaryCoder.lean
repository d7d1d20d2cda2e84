import UDPipe.Bytes
import Mathlib.Algebra.Order.Ring.Nat
import Mathlib.Data.List.Forall2

/-!
# Binary encoder and decoder

Numbers are written in one, two or four bytes, the lowest byte first. The encoder fails
when a number does not fit, the decoder when it runs out of data.
-/

namespace UDPipe

/-- The number that some bytes hold. -/
def word : Bytes → ℕ
  | [] => 0
  | c :: data => c.toNat + 256 * word data

/-- A number in the given number of bytes. -/
def toBytes : ℕ → ℕ → Bytes
  | 0, _ => []
  | size + 1, val => UInt8.ofNat val :: toBytes size (val / 256)

/-- A number has as many bytes as are asked for. -/
@[simp] theorem length_toBytes (size val : ℕ) : (toBytes size val).length = size := by
  induction size generalizing val with
  | zero => rfl
  | succ size ih => simp [toBytes, ih]

/-- A number that fits its bytes is read from them. -/
theorem word_toBytes {size val : ℕ} (h : val < 256 ^ size) : word (toBytes size val) = val := by
  induction size generalizing val with
  | zero =>
    have hzero : val = 0 := by simpa using h
    rw [hzero, toBytes, word]
  | succ size ih =>
    have hdiv : val / 256 < 256 ^ size := by
      rw [Nat.div_lt_iff_lt_mul (by decide), ← Nat.pow_succ]
      exact h
    rw [toBytes, word, ih hdiv, UInt8.toNat_ofNat']
    omega

/-- What is read from bytes fits them. -/
theorem word_lt (data : Bytes) : word data < 256 ^ data.length := by
  induction data with
  | nil => simp [word]
  | cons c data ih =>
    have hc := c.toNat_lt
    rw [word, List.length_cons, Nat.pow_succ]
    omega

/-- The bytes of a number that was read are those it was read from. -/
theorem toBytes_word (data : Bytes) : toBytes data.length (word data) = data := by
  induction data with
  | nil => rfl
  | cons c data ih =>
    have hc := c.toNat_lt
    have hdiv : (c.toNat + 256 * word data) / 256 = word data := by omega
    rw [List.length_cons, word, toBytes, hdiv, ih, List.cons.injEq]
    refine ⟨?_, rfl⟩
    apply UInt8.toNat_inj.mp
    rw [UInt8.toNat_ofNat']
    omega

/-- Strings of one length are told apart by their numbers. -/
theorem word_injective {s t : Bytes} (hlength : s.length = t.length) (h : word s = word t) :
    s = t := by
  rw [← toBytes_word s, ← toBytes_word t, hlength, h]

/-! ### Encoder -/

/-- The methods `add_1B`, `add_2B` and `add_4B`, for the number of bytes. -/
def add (size val : ℕ) : Option Bytes := if val < 256 ^ size then some (toBytes size val) else none

/-- The method `add_1B`. -/
def add1B : ℕ → Option Bytes := add 1

/-- The method `add_2B`. -/
def add2B : ℕ → Option Bytes := add 2

/-- The method `add_4B`. -/
def add4B : ℕ → Option Bytes := add 4

/-- The method `add_data` for a vector of numbers. -/
def addWords (size : ℕ) (vals : List ℕ) : Bytes := vals.flatMap (toBytes size)

/-- Adding a number succeeds exactly if it fits. -/
theorem add_eq_some {size val : ℕ} {data : Bytes} :
    add size val = some data ↔ val < 256 ^ size ∧ data = toBytes size val := by
  simp only [add, Option.ite_none_right_eq_some, Option.some.injEq, @eq_comm _ data]

/-- A number that fits is added. -/
theorem add_of_lt {size val : ℕ} (h : val < 256 ^ size) : add size val = some (toBytes size val) :=
  if_pos h

/-- Elements are encoded one after another if each of them is. -/
theorem mapM_eq_some_iff {α β : Type} {f : α → Option β} {l : List α} {cells : List β} :
    l.mapM f = some cells ↔ List.Forall₂ (fun a cell => f a = some cell) l cells := by
  induction l generalizing cells with
  | nil => simp [eq_comm]
  | cons a l ih =>
    simp only [List.mapM_cons, Option.bind_eq_bind, Option.bind_eq_some_iff, ih, Option.pure_def,
      Option.some.injEq, List.forall₂_cons_left_iff]
    constructor
    · rintro ⟨cell, ha, cells, hl, rfl⟩
      exact ⟨cell, cells, ha, hl, rfl⟩
    · rintro ⟨cell, cells, ha, hl, rfl⟩
      exact ⟨cell, ha, cells, hl, rfl⟩

/-- There is a list of results if every element has one. -/
theorem exists_mapM {α β : Type} {f : α → Option β} {l : List α}
    (h : ∀ a ∈ l, ∃ b, f a = some b) : ∃ cells, l.mapM f = some cells := by
  induction l with
  | nil => exact ⟨[], rfl⟩
  | cons a l ih =>
    obtain ⟨⟨b, hb⟩, hl⟩ := List.forall_mem_cons.mp h
    obtain ⟨cells, hcells⟩ := ih hl
    exact ⟨b :: cells, mapM_eq_some_iff.mpr (.cons hb (mapM_eq_some_iff.mp hcells))⟩

/-- Numbers are encoded one after another if they fit. -/
theorem mapM_add_eq_some {α : Type} {size : ℕ} {f : α → ℕ} (l : List α) {cells : List Bytes} :
    (l.mapM fun a => UDPipe.add size (f a)) = some cells ↔
      (∀ a ∈ l, f a < 256 ^ size) ∧ cells = l.map fun a => toBytes size (f a) := by
  induction l generalizing cells with
  | nil => simp [eq_comm]
  | cons a l ih =>
    rw [List.mapM_cons]
    simp only [Option.bind_eq_bind, Option.bind_eq_some_iff, add_eq_some, ih, Option.pure_def,
      Option.some.injEq, List.forall_mem_cons, List.map_cons]
    constructor
    · rintro ⟨_, ⟨ha, rfl⟩, _, ⟨hl, rfl⟩, rfl⟩
      exact ⟨⟨ha, hl⟩, rfl⟩
    · rintro ⟨⟨ha, hl⟩, rfl⟩
      exact ⟨_, ⟨ha, rfl⟩, _, ⟨hl, rfl⟩, rfl⟩

/-- When the map succeeds, every element has its cell. -/
theorem exists_of_mapM {α β : Type} {f : α → Option β} {l : List α} {cells : List β}
    (h : l.mapM f = some cells) : ∀ a ∈ l, ∃ cell ∈ cells, f a = some cell := by
  rw [mapM_eq_some_iff] at h
  induction h with
  | nil => exact fun a ha => absurd ha List.not_mem_nil
  | cons ha _ ih =>
    rw [List.forall_mem_cons]
    refine ⟨⟨_, List.mem_cons_self, ha⟩, fun b hb => ?_⟩
    obtain ⟨cell, hcell, hb⟩ := ih b hb
    exact ⟨cell, List.mem_cons_of_mem _ hcell, hb⟩

/-- When the map succeeds, every cell comes from an element. -/
theorem exists_of_mem_mapM {α β : Type} {f : α → Option β} {l : List α} {cells : List β}
    (h : l.mapM f = some cells) : ∀ cell ∈ cells, ∃ a ∈ l, f a = some cell := by
  rw [mapM_eq_some_iff] at h
  induction h with
  | nil => exact fun a ha => absurd ha List.not_mem_nil
  | cons ha _ ih =>
    rw [List.forall_mem_cons]
    refine ⟨⟨_, List.mem_cons_self, ha⟩, fun cell hcell => ?_⟩
    obtain ⟨b, hb, heq⟩ := ih cell hcell
    exact ⟨b, List.mem_cons_of_mem _ hb, heq⟩

/-! ### Decoder -/

/-- The function `unaligned_load`. -/
def unalignedLoad (size : ℕ) (data : Bytes) : ℕ := word (data.take size)

/-- The methods `next_1B`, `next_2B` and `next_4B`, for the number of bytes. -/
def next (size : ℕ) (data : Bytes) : Option (ℕ × Bytes) :=
  if data.length < size then none else some (unalignedLoad size data, data.drop size)

/-- The method `next_1B`. -/
def next1B : Bytes → Option (ℕ × Bytes) := next 1

/-- The method `next_2B`. -/
def next2B : Bytes → Option (ℕ × Bytes) := next 2

/-- The method `next_4B`. -/
def next4B : Bytes → Option (ℕ × Bytes) := next 4

/-- The method `next` for characters. -/
def nextBytes (elements : ℕ) (data : Bytes) : Option (Bytes × Bytes) :=
  if data.length < elements then none else some (data.take elements, data.drop elements)

/-- The numbers at the beginning of the data. -/
def words (size : ℕ) : ℕ → Bytes → List ℕ
  | 0, _ => []
  | elements + 1, data => unalignedLoad size data :: words size elements (data.drop size)

/-- An element of the array is loaded from its place. -/
theorem words_getElem (size : ℕ) (data : Bytes) {elements i : ℕ} (hi : i < elements) :
    (words size elements data)[i]? = some (unalignedLoad size (data.drop (size * i))) := by
  induction elements generalizing data i with
  | zero => cases hi
  | succ elements ih =>
    rcases i with _ | i
    · rfl
    · rw [words, List.getElem?_cons_succ, ih _ (Nat.lt_of_succ_lt_succ hi), List.drop_drop,
        Nat.mul_succ, Nat.add_comm]

/-- The method `next` for numbers. -/
def nextWords (size elements : ℕ) (data : Bytes) : Option (List ℕ × Bytes) :=
  (nextBytes (size * elements) data).map fun (cells, data) => (words size elements cells, data)

/-- A number is loaded from the bytes before the rest. -/
theorem unalignedLoad_append {size val : ℕ} (h : val < 256 ^ size) (rest : Bytes) :
    unalignedLoad size (toBytes size val ++ rest) = val := by
  rw [unalignedLoad, List.take_left' (length_toBytes size val), word_toBytes h]

/-- A number is read, and the rest is left. -/
@[simp] theorem next_append {size val : ℕ} (h : val < 256 ^ size) (rest : Bytes) :
    next size (toBytes size val ++ rest) = some (val, rest) := by
  rw [next, unalignedLoad_append h, if_neg (by simp), List.drop_left' (length_toBytes size val)]

/-- As many bytes are read as there are, and the rest is left. -/
@[simp] theorem nextBytes_append (cells rest : Bytes) :
    nextBytes cells.length (cells ++ rest) = some (cells, rest) := by
  simp [nextBytes]

/-- An array takes the size of its elements. -/
@[simp] theorem length_addWords (size : ℕ) (vals : List ℕ) :
    (addWords size vals).length = size * vals.length := by
  induction vals with
  | nil => rfl
  | cons val vals ih =>
    rw [addWords] at ih ⊢
    simp [ih, Nat.mul_add, Nat.add_comm]

/-- The elements that fit are read again. -/
theorem words_addWords {size : ℕ} {vals : List ℕ} (h : ∀ val ∈ vals, val < 256 ^ size)
    (rest : Bytes) : words size vals.length (addWords size vals ++ rest) = vals := by
  induction vals with
  | nil => rfl
  | cons val vals ih =>
    have hval := h val List.mem_cons_self
    have ih' := ih fun v hv => h v (List.mem_cons_of_mem _ hv)
    rw [addWords, List.flatMap_cons, List.append_assoc, List.length_cons, words,
      unalignedLoad_append hval, List.drop_left' (length_toBytes size val)]
    exact congrArg _ ih'

/-- An array is read, and the rest is left. -/
@[simp] theorem nextWords_append {size : ℕ} {vals : List ℕ} (h : ∀ val ∈ vals, val < 256 ^ size)
    (rest : Bytes) : nextWords size vals.length (addWords size vals ++ rest) = some (vals, rest) := by
  rw [nextWords, ← length_addWords, nextBytes_append, Option.map_some]
  have hwords := words_addWords h []
  rw [List.append_nil] at hwords
  simp only [hwords]

end UDPipe
