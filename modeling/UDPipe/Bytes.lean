import Mathlib.Data.List.TakeWhile
import Mathlib.Tactic.Common

/-!
# Byte strings

Strings and string pieces of the source are sequences of bytes. Literals are
written as text, the separators the formats use have names, and `split` of
`utils/split.h` is list splitting with its special case for the empty string.
-/

namespace UDPipe

/-- The number of values of `unsigned`. -/
def unsignedValues : ℕ := 4294967296

/-- There are values of `unsigned`. -/
theorem unsignedValues_pos : 0 < unsignedValues := by decide

/-- A counter of type `unsigned` stays in its range. -/
theorem mod_unsignedValues_lt (n : ℕ) : n % unsignedValues < unsignedValues :=
  Nat.mod_lt n unsignedValues_pos

/-- One `char` of a C++ string. -/
abbrev Byte := UInt8

/-- A `string` or a `string_piece`. -/
abbrev Bytes := List Byte

/-- The bytes of an ASCII literal. -/
def bytes (literal : String) : Bytes := literal.toList.map Char.toUInt8

/-- Only the empty literal has no bytes. -/
@[simp] theorem bytes_eq_nil {literal : String} : bytes literal = [] ↔ literal = "" := by
  simp [bytes]

/-- The separator of columns. -/
abbrev tab : Byte := 9
/-- The line feed. -/
abbrev lf : Byte := 10
/-- The carriage return. -/
abbrev cr : Byte := 13
/-- The space. -/
abbrev space : Byte := 32
/-- The mark of a comment. -/
abbrev hash : Byte := 35
/-- The minus sign, also of a range. -/
abbrev minus : Byte := 45
/-- The separator of the index of an empty node. -/
abbrev dot : Byte := 46
/-- The separator of an empty node's head and relation. -/
abbrev colon : Byte := 58
/-- The underscore. -/
abbrev underscoreByte : Byte := 95
/-- The separator of fields. -/
abbrev bar : Byte := 124

/-- The two line ends differ. -/
@[simp] theorem cr_ne_lf : cr ≠ lf := by decide

/-- The two line ends differ, the other way round. -/
@[simp] theorem lf_ne_cr : lf ≠ cr := by decide

/-- The two bytes that end a line. -/
def isLineEnd (c : Byte) : Bool := c == cr || c == lf

/-- A line end is one of the two. -/
@[simp] theorem isLineEnd_iff {c : Byte} : isLineEnd c = true ↔ c = cr ∨ c = lf := by
  simp [isLineEnd]

/-- `split` of `utils/split.h`: the empty text has no pieces. -/
def split (sep : Byte) (text : Bytes) : List Bytes :=
  if text = [] then [] else text.splitOn sep

/-- The pieces of a nonempty text put together again. -/
theorem intercalate_split {sep : Byte} {text : Bytes} (h : text ≠ []) :
    [sep].intercalate (split sep text) = text := by
  rw [split, if_neg h]
  exact List.intercalate_splitOn sep

/-- A byte that is not the separator is a part of the first piece. -/
private theorem splitOn_eq_cons {sep c : Byte} (text : Bytes) (hc : c ≠ sep) :
    ∃ piece pieces, text.splitOn sep = piece :: pieces ∧
      (c :: text).splitOn sep = (c :: piece) :: pieces := by
  have hcons : (c :: text).splitOn sep = (text.splitOn sep).modifyHead (c :: ·) := by
    simp [List.splitOn, List.splitOnP_cons_eq_if_modifyHead, hc]
  cases hpieces : text.splitOn sep with
  | nil => exact absurd hpieces (by simp [List.splitOn, List.splitOnP_ne_nil])
  | cons piece pieces => exact ⟨piece, pieces, rfl, by rw [hcons, hpieces]; rfl⟩

/-- No piece of a list contains the separator it was split on. -/
theorem not_mem_of_mem_splitOn {sep : Byte} {text piece : Bytes} (h : piece ∈ text.splitOn sep) :
    sep ∉ piece := by
  induction text generalizing piece with
  | nil => simp_all [List.splitOn]
  | cons c text ih =>
    by_cases hc : c = sep
    · have hcons : (c :: text).splitOn sep = [] :: text.splitOn sep := by
        simp [List.splitOn, List.splitOnP_cons_eq_if_modifyHead, hc]
      rw [hcons] at h
      rcases List.mem_cons.mp h with rfl | h
      · simp
      · exact ih h
    · obtain ⟨first, rest, hfirst, hcons⟩ := splitOn_eq_cons text hc
      rw [hcons] at h
      rcases List.mem_cons.mp h with rfl | h
      · have := ih (hfirst ▸ List.mem_cons_self)
        simp [this, Ne.symm hc]
      · exact ih (hfirst ▸ List.mem_cons_of_mem _ h)

/-- The bytes of a piece are among those of the joined text. -/
private theorem mem_intercalate {sep : Bytes} {pieces : List Bytes} {piece : Bytes} {c : Byte}
    (h : piece ∈ pieces) (hc : c ∈ piece) : c ∈ sep.intercalate pieces := by
  induction pieces with
  | nil => simp at h
  | cons first rest ih =>
    cases rest with
    | nil =>
      rw [List.intercalate_singleton]
      exact List.mem_singleton.mp h ▸ hc
    | cons second rest =>
      rw [List.intercalate_cons_cons]
      rcases List.mem_cons.mp h with rfl | h
      · simp [hc]
      · exact List.mem_append_right _ (ih h)

/-- Every byte of a piece is a byte of the list that was split. -/
theorem mem_of_mem_splitOn {sep : Byte} {text piece : Bytes} (h : piece ∈ text.splitOn sep)
    {c : Byte} (hc : c ∈ piece) : c ∈ text := by
  have hjoin : [sep].intercalate (text.splitOn sep) = text := List.intercalate_splitOn sep
  rw [← hjoin]
  exact mem_intercalate h hc

/-- A piece does not contain the separator. -/
theorem not_mem_of_mem_split {sep : Byte} {text piece : Bytes} (h : piece ∈ split sep text) :
    sep ∉ piece := by
  by_cases htext : text = []
  · simp [split, htext] at h
  · rw [split, if_neg htext] at h
    exact not_mem_of_mem_splitOn h

/-- The bytes of a piece are those of the text. -/
theorem mem_of_mem_split {sep : Byte} {text piece : Bytes} (h : piece ∈ split sep text)
    {c : Byte} (hc : c ∈ piece) : c ∈ text := by
  by_cases htext : text = []
  · simp [split, htext] at h
  · rw [split, if_neg htext] at h
    exact mem_of_mem_splitOn h hc

/-- Splitting undoes joining pieces that do not contain the separator. -/
theorem split_intercalate {sep : Byte} {pieces : List Bytes} (hpieces : ∀ p ∈ pieces, sep ∉ p)
    (hne : [sep].intercalate pieces ≠ []) : split sep ([sep].intercalate pieces) = pieces := by
  have hnil : pieces ≠ [] := by
    rintro rfl
    simp at hne
  rw [split, if_neg hne]
  exact List.splitOn_intercalate sep hpieces hnil

end UDPipe
