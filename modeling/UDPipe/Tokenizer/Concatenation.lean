import UDPipe.Tokenizer.Characters

/-!
# Characters of concatenated texts

A character is decoded from its bytes and from whether a continuation byte follows
them. So decoding a concatenation gives the characters of both parts, unless the
last character of the first part is incomplete and the second part goes on with it.
-/

namespace UDPipe.Tokenizer

open Utf8

/-- Whether a text begins with a continuation byte. -/
def startsInside (text : Bytes) : Bool := text.head?.any isContinuation

/-- The empty text does not begin inside a character. -/
@[simp] theorem startsInside_nil : startsInside [] = false := rfl

/-- A text begins inside a character if its first byte continues one. -/
@[simp] theorem startsInside_cons (c : Byte) (text : Bytes) :
    startsInside (c :: text) = isContinuation c := rfl

/-- The continuation bytes of a character are found again before another text that does
not go on with it. -/
private theorem decodeRest_congr {count code : ℕ} {taken more rest rest' : Bytes}
    (h : (decodeRest count code taken (more ++ rest)).bytes = taken ++ more)
    (hrest : startsInside rest' = true → startsInside rest = true) :
    decodeRest count code taken (more ++ rest') = decodeRest count code taken (more ++ rest) := by
  induction more generalizing count code taken with
  | nil =>
    cases count with
    | zero => cases rest <;> cases rest' <;> rfl
    | succ count =>
      have hnot : startsInside rest = false := by
        cases rest with
        | nil => rfl
        | cons d rest =>
          by_contra hinside
          have hcont : isContinuation d = true := by simpa using hinside
          obtain ⟨more, hbytes, _⟩ := decodeRest_spec count (code * 64 + d.toNat % 64)
            (taken ++ [d]) rest
          simp only [List.nil_append, decodeRest, hcont, if_true, hbytes, List.append_nil,
            List.append_assoc, List.append_right_eq_self] at h
          simp at h
      have hnot' : startsInside rest' = false := by
        by_contra hinside
        rw [hrest (by simpa using hinside)] at hnot
        cases hnot
      have hreplaced : ∀ text, startsInside text = false →
          decodeRest (count + 1) code taken text = ⟨replacementChar, taken⟩ := by
        intro text htext
        cases text with
        | nil => rfl
        | cons d text => simp [decodeRest, show isContinuation d = false from htext]
      rw [List.nil_append, List.nil_append, hreplaced _ hnot, hreplaced _ hnot']
  | cons d more ih =>
    cases count with
    | zero => simp [decodeRest] at h
    | succ count =>
      simp only [List.cons_append, decodeRest] at h ⊢
      by_cases hcont : isContinuation d = true
      · rw [if_pos hcont] at h
        rw [if_pos hcont, if_pos hcont]
        exact ih (by rw [h, List.append_assoc, List.singleton_append])
      · rw [if_neg hcont] at h
        simp at h

/-- A character is found again before another text that does not go on with it. -/
theorem decode_congr {c : Byte} {more rest rest' : Bytes}
    (h : (decode c (more ++ rest)).bytes = c :: more)
    (hrest : startsInside rest' = true → startsInside rest = true) :
    decode c (more ++ rest') = decode c (more ++ rest) := by
  have hcongr : ∀ count code, (decodeRest count code [c] (more ++ rest)).bytes = c :: more →
      decodeRest count code [c] (more ++ rest') = decodeRest count code [c] (more ++ rest) :=
    fun count code h => decodeRest_congr h hrest
  unfold decode at h ⊢
  split_ifs at h ⊢
  · rfl
  · rfl
  · exact hcongr 1 _ h
  · exact hcongr 2 _ h
  · exact hcongr 3 _ h
  · rfl

/-- The bytes that a character takes, and the characters of the rest. -/
theorem exists_decode (c : Byte) (text : Bytes) : ∃ more rest, text = more ++ rest ∧
    (decode c (more ++ rest)).bytes = c :: more ∧
    chars (c :: (more ++ rest)) = decode c (more ++ rest) :: chars rest ∧
    ∀ d ∈ more, isContinuation d = true := by
  obtain ⟨more, hbytes, ⟨rest, rfl⟩, hmore, _⟩ := decode_spec c text
  refine ⟨more, rest, rfl, hbytes, ?_, hmore⟩
  have hdrop : (c :: (more ++ rest)).drop (c :: more).length = rest := by simp
  rw [chars_cons, hbytes, hdrop]

/-- Induction over the characters of a text. -/
theorem chars_induction {motive : Bytes → Prop} (nil : motive [])
    (cons : ∀ c more rest, (decode c (more ++ rest)).bytes = c :: more →
      chars (c :: (more ++ rest)) = decode c (more ++ rest) :: chars rest →
      motive rest → motive (c :: (more ++ rest)))
    (text : Bytes) : motive text := by
  induction hn : text.length using Nat.strongRecOn generalizing text with
  | ind n ih =>
    cases text with
    | nil => exact nil
    | cons c text =>
      obtain ⟨more, rest, rfl, hbytes, hchars, _⟩ := exists_decode c text
      refine cons c more rest hbytes hchars (ih rest.length ?_ rest rfl)
      simp only [List.length_cons, List.length_append] at hn
      omega

/-- The characters of a text that begins with a character which its rest does not go on with. -/
theorem chars_of_congr {c : Byte} {more rest rest' : Bytes}
    (h : (decode c (more ++ rest)).bytes = c :: more)
    (hrest : startsInside rest' = true → startsInside rest = true) :
    chars (c :: (more ++ rest')) = decode c (more ++ rest) :: chars rest' := by
  have hcongr := decode_congr h hrest
  have hdrop : (c :: (more ++ rest')).drop (c :: more).length = rest' := by simp
  rw [chars_cons, hcongr, h, hdrop]

/-- An ASCII byte is a character on its own. -/
theorem chars_cons_of_ascii {c : Byte} (h : c < 0x80) (text : Bytes) :
    chars (c :: text) = ⟨c.toNat, [c]⟩ :: chars text := by
  have hdecode : decode c text = ⟨c.toNat, [c]⟩ := if_pos h
  rw [chars_cons, hdecode]
  rfl

/-- Every continuation byte at the beginning of a text is replaced. -/
theorem chars_append_of_continuation {more : Bytes} (h : ∀ d ∈ more, isContinuation d = true)
    (rest : Bytes) :
    chars (more ++ rest) = more.map (fun d => ⟨replacementChar, [d]⟩) ++ chars rest := by
  induction more with
  | nil => rfl
  | cons d more ih =>
    obtain ⟨hd, hmore⟩ := List.forall_mem_cons.mp h
    simp only [isContinuation, Bool.and_eq_true, decide_eq_true_eq] at hd
    have hdecode : decode d (more ++ rest) = ⟨replacementChar, [d]⟩ := by
      rw [decode, if_neg (UInt8.not_lt.mpr hd.1), if_pos hd.2]
    rw [List.cons_append, chars_cons, hdecode, List.map_cons, List.cons_append, ← ih hmore]
    rfl

/-- The last character of `text` is incomplete, and `rest` goes on with it. -/
structure Merges (text rest : Bytes) (before : List Character) (last merged : Character)
    (more after : Bytes) : Prop where
  chars_text : chars text = before ++ [last]
  last_code : last.code = replacementChar
  last_bytes : ∀ d ∈ last.bytes, ¬ d < 0x80
  rest_eq : rest = more ++ after
  more_ne_nil : more ≠ []
  more_inside : ∀ d ∈ more, isContinuation d = true
  chars_append : chars (text ++ rest) = before ++ merged :: chars after

/-- If the bytes of a character end with the text, more of them can follow only when it
is incomplete. -/
private theorem decodeRest_append {count code : ℕ} {taken more : Bytes} (rest : Bytes)
    (h : (decodeRest count code taken more).bytes = taken ++ more) :
    ∃ m, (decodeRest count code taken (more ++ rest)).bytes = taken ++ more ++ m ∧
      (m ≠ [] → (decodeRest count code taken more).code = replacementChar) := by
  induction more generalizing count code taken with
  | nil =>
    cases count with
    | zero => exact ⟨[], by cases rest <;> simp [decodeRest], fun hne => absurd rfl hne⟩
    | succ count =>
      obtain ⟨m, hm, _⟩ := decodeRest_spec (count + 1) code taken rest
      exact ⟨m, by simpa using hm, fun _ => rfl⟩
  | cons d more ih =>
    cases count with
    | zero => simp [decodeRest] at h
    | succ count =>
      simp only [List.cons_append, decodeRest] at h ⊢
      by_cases hcont : isContinuation d = true
      · rw [if_pos hcont] at h
        rw [if_pos hcont, if_pos hcont]
        obtain ⟨m, hm, hcode⟩ := @ih count (code * 64 + d.toNat % 64) (taken ++ [d])
          (by rw [h, List.append_assoc, List.singleton_append])
        exact ⟨m, by rw [hm]; simp, hcode⟩
      · rw [if_neg hcont] at h
        simp at h

/-- A character that uses all of the bytes is continued by those behind it only if it is broken.
-/
private theorem decode_append {c : Byte} {more : Bytes} (rest : Bytes)
    (h : (decode c more).bytes = c :: more) :
    ∃ m, (decode c (more ++ rest)).bytes = c :: (more ++ m) ∧
      (m ≠ [] → (decode c more).code = replacementChar ∧ ¬ c < 0x80) := by
  have happend : ∀ count code, ¬ c < 0x80 → (decodeRest count code [c] more).bytes = c :: more →
      ∃ m, (decodeRest count code [c] (more ++ rest)).bytes = c :: (more ++ m) ∧
        (m ≠ [] → (decodeRest count code [c] more).code = replacementChar ∧ ¬ c < 0x80) := by
    intro count code hc h
    obtain ⟨m, hm, hcode⟩ := decodeRest_append rest (show _ = [c] ++ more from h)
    exact ⟨m, hm, fun hne => ⟨hcode hne, hc⟩⟩
  have hsingle : [c] = c :: more → ∃ m, [c] = c :: (more ++ m) ∧ (m ≠ [] → False) :=
    fun h => ⟨[], by simpa using h, fun hne => hne rfl⟩
  unfold decode at h ⊢
  split_ifs at h ⊢ with hascii
  · obtain ⟨m, hm, hnil⟩ := hsingle h
    exact ⟨m, hm, fun hne => (hnil hne).elim⟩
  · obtain ⟨m, hm, hnil⟩ := hsingle h
    exact ⟨m, hm, fun hne => (hnil hne).elim⟩
  · exact happend 1 _ hascii h
  · exact happend 2 _ hascii h
  · exact happend 3 _ hascii h
  · obtain ⟨m, hm, hnil⟩ := hsingle h
    exact ⟨m, hm, fun hne => (hnil hne).elim⟩

/-- The characters of two texts together are those of each of them, or the last character
of the first text and the beginning of the second one merge. -/
theorem chars_append (text rest : Bytes) : chars (text ++ rest) = chars text ++ chars rest ∨
    ∃ before last merged more after, Merges text rest before last merged more after := by
  induction text using chars_induction with
  | nil => exact Or.inl rfl
  | cons c more inner hbytes hchars ih =>
    by_cases hinner : inner = []
    · subst hinner
      rw [List.append_nil] at hbytes hchars
      have hnil : chars [] = [] := rfl
      rw [hnil] at hchars
      obtain ⟨m, hm, hincomplete⟩ := decode_append rest hbytes
      obtain ⟨taken, after, heq, htaken, htext, hinside⟩ := exists_decode c (more ++ rest)
      rw [← heq] at htaken htext
      obtain rfl : taken = more ++ m := by simpa [hm] using htaken.symm
      have hrest : rest = m ++ after := List.append_cancel_left (heq.trans (List.append_assoc ..))
      rw [List.append_nil, hchars]
      by_cases hmerge : m = []
      · subst hmerge
        rw [List.append_nil] at hm
        have hsame := @decode_congr c more rest [] hm (fun h => by simp at h)
        rw [List.append_nil] at hsame
        rw [List.nil_append] at hrest
        exact Or.inl (by rw [List.cons_append, htext, hsame, hrest, List.singleton_append])
      · obtain ⟨hcode, hascii⟩ := hincomplete hmerge
        refine Or.inr ⟨[], _, decode c (more ++ rest), m, after, hchars, hcode, ?_, hrest, hmerge,
          ?_, ?_⟩
        · rw [hbytes]
          refine List.forall_mem_cons.mpr ⟨hascii, fun d hd hlt => ?_⟩
          have := hinside d (List.mem_append_left m hd)
          simp only [isContinuation, Bool.and_eq_true, decide_eq_true_eq] at this
          exact absurd hlt (UInt8.not_lt.mpr this.1)
        · exact fun d hd => hinside d (List.mem_append_right more hd)
        · exact htext
    · have hfirst : chars (c :: (more ++ (inner ++ rest))) =
          decode c (more ++ inner) :: chars (inner ++ rest) := by
        refine chars_of_congr hbytes fun h => ?_
        obtain ⟨d, inner, rfl⟩ := List.exists_cons_of_ne_nil hinner
        exact h
      rw [List.cons_append, List.append_assoc, hfirst, hchars]
      rcases ih with hclean | ⟨before, last, merged, m, after, h⟩
      · exact Or.inl (by rw [hclean, List.cons_append])
      · refine Or.inr ⟨decode c (more ++ inner) :: before, last, merged, m, after, ?_, h.last_code,
          h.last_bytes, h.rest_eq, h.more_ne_nil, h.more_inside, ?_⟩
        · rw [hchars, h.chars_text, List.cons_append]
        · rw [List.cons_append, List.append_assoc, hfirst, h.chars_append, List.cons_append]

end UDPipe.Tokenizer
