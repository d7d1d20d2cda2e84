import UDPipe.Surface
import UDPipe.Tokenizer.Utf8

/-!
# Splitting multiword tokens

`multiword_splitter::append_token` of `tokenizer/multiword_splitter.cpp`: a token
is looked up in lowercase and from its end, as a whole and then by its suffixes,
and the words of the rule get its casing. Whatever the rules are, the sentence
gains one surface token, with the form and the MISC of the token.
-/

namespace UDPipe

/-- The class `multiword_splitter`; the keys of its rules are reversed texts. -/
structure MultiwordSplitter where
  version : ℕ
  fullRules : Bytes → Option (List Bytes)
  suffixRules : Bytes → Option (List Bytes)
  tables : Unicode
  /-- `load` refuses a full rule without words. -/
  fullRules_nonempty : ∀ key, fullRules key ≠ some []

namespace MultiwordSplitter

variable (splitter : MultiwordSplitter)

/-- The loop over the suffixes of these sizes: the words of the longest one that
has some, and the length of what is before it. -/
def searchSuffix (buffer : Bytes) :
    List ℕ → Option (List Bytes × ℕ) → Option (List Bytes × ℕ)
  | [], found => found
  | size :: sizes, found =>
    match splitter.suffixRules (buffer.take size) with
    | none => found
    | some words =>
      searchSuffix buffer sizes (if words = [] then found else some (words, buffer.length - size))

/-- The rule for a token: its words, and the length of the prefix that is kept. -/
def findRule (form : Bytes) : Option (List Bytes × ℕ) :=
  let buffer := (Utf8.map splitter.tables.lowercase form).reverse
  match splitter.fullRules buffer with
  | some words => some (words, 0)
  | none =>
    if 2 ≤ splitter.version then
      splitter.searchSuffix buffer (List.range' 1 (buffer.length - 1)) none
    else none

/-- The casing of a token. -/
inductive Casing where
  | upperFirst
  | upperAll
  | upperOther
  deriving DecidableEq, Repr

/-- Determine casing. -/
def casing (form : Bytes) : Casing :=
  let cs := Utf8.chars form
  if splitter.tables.isLut ((cs.head?.map Character.code).getD 0) then
    if cs.any fun c => splitter.tables.isOtherLetter c.code then .upperFirst else .upperAll
  else .upperOther

/-- The beginning of the token that takes `prefixLen` bytes in lowercase. -/
def keptPrefix (prefixLen : ℕ) : ℕ → List Character → Bytes
  | _, [] => []
  | lowered, c :: cs =>
    if lowered < prefixLen then
      c.bytes ++ keptPrefix prefixLen
        (lowered + (Utf8.encode (splitter.tables.lowercase c.code)).length) cs
    else []

/-- The first word of a rule after what is kept of the token. -/
def appendCased (casing : Casing) : Bytes → List Character → Bytes
  | form, [] => form
  | form, c :: cs =>
    let upper := casing == .upperAll || (casing == .upperFirst && form == [])
    let code := if upper then splitter.tables.uppercase c.code else c.code
    appendCased casing (form ++ Utf8.encode code) cs

/-- A further word of a rule. -/
def casedWord (casing : Casing) (word : Bytes) : Bytes :=
  if casing = .upperAll then
    (Utf8.charsToZero word).flatMap fun c => Utf8.encode (splitter.tables.uppercase c.code)
  else word

/-- The forms of the words that a rule gives. -/
def ruleForms (form : Bytes) (words : List Bytes) (prefixLen : ℕ) : Bytes × List Bytes :=
  let casing := splitter.casing form
  let kept := splitter.keptPrefix prefixLen 0 (Utf8.chars form)
  (splitter.appendCased casing kept (Utf8.charsToZero (words.headD [])),
    words.tail.map (splitter.casedWord casing))

/-- `multiword_splitter::append_token`. -/
def appendToken (form misc : Bytes) (s : Sentence) : Sentence :=
  match splitter.findRule form with
  | none => s.addWord form fun word => { word with misc }
  | some (words, prefixLen) =>
    let first : ℤ := s.words.length
    let forms := splitter.ruleForms form words prefixLen
    let token : MultiwordToken :=
      { idFirst := first, idLast := first + words.length - 1, form, misc }
    let s : Sentence := { s with multiwordTokens := s.multiwordTokens ++ [token] }
    forms.2.foldl (fun s form => s.addWord form) (s.addWord forms.1)

/-! ### What is appended -/

/-- A rule that is found has words. -/
private theorem searchSuffix_nonempty {buffer : Bytes} {sizes : List ℕ}
    {found : Option (List Bytes × ℕ)} (h : ∀ r ∈ found, r.1 ≠ []) :
    ∀ r ∈ splitter.searchSuffix buffer sizes found, r.1 ≠ [] := by
  induction sizes generalizing found with
  | nil => exact h
  | cons size sizes ih =>
    rw [searchSuffix]
    split
    · exact h
    · rename_i words _
      apply ih
      split
      · exact h
      · rename_i hwords
        intro r hr
        obtain rfl := Option.some.inj hr
        exact hwords

/-- The rule that is found has words. -/
theorem findRule_nonempty {form : Bytes} {words : List Bytes} {prefixLen : ℕ}
    (h : splitter.findRule form = some (words, prefixLen)) : words ≠ [] := by
  simp only [findRule] at h
  split at h
  · rename_i found hfound
    obtain ⟨rfl, _⟩ := Prod.mk.inj (Option.some.inj h)
    rintro rfl
    exact splitter.fullRules_nonempty _ hfound
  · split at h
    · exact splitter.searchSuffix_nonempty (by simp) _ h
    · cases h

/-- Adding forms appends words. -/
theorem foldl_addWord (s : Sentence) (forms : List Bytes) :
    forms.foldl (fun s form => s.addWord form) s =
      { s with words := s.words ++ forms.mapIdx fun k form =>
          { id := (s.words.length + k : ℕ), form } } := by
  induction forms generalizing s with
  | nil => simp
  | cons form forms ih =>
    rw [List.foldl_cons, ih]
    simp only [Sentence.addWord, List.mapIdx_cons, List.append_assoc, List.singleton_append,
      List.length_append, List.length_singleton, Nat.add_zero, Nat.add_assoc, id,
      Nat.add_comm 1]

/-- Appending a token adds one surface token, and keeps the sentence numbered. -/
theorem appendToken_spec {s : Sentence} (h : Tokenized s) (form misc : Bytes) :
    Tokenized (splitter.appendToken form misc s) ∧
      ∃ first last, (splitter.appendToken form misc s).surface =
        s.surface ++ [⟨⟨form, misc⟩, first, last⟩] := by
  unfold appendToken
  split
  · obtain ⟨htokenized, hsurface⟩ :=
      h.addWord form (fun word => { word with misc }) fun _ => rfl
    exact ⟨htokenized, _, _, hsurface⟩
  · rename_i words prefixLen hrule
    have hne := splitter.findRule_nonempty hrule
    have hpos : 0 < words.length := List.length_pos_iff.mpr hne
    have hcount : (splitter.ruleForms form words prefixLen).2.length = words.length - 1 := by
      simp [ruleForms]
    dsimp only
    generalize splitter.ruleForms form words prefixLen = forms at hcount ⊢
    rw [foldl_addWord]
    simp only [Sentence.addWord, List.append_assoc, List.singleton_append, id,
      List.length_append, List.length_singleton]
    obtain ⟨htokenized, hsurface⟩ := @Tokenized.addMultiword s h
      { id := s.words.length, form := forms.1 }
      (forms.2.mapIdx fun k form => { id := (s.words.length + 1 + k : ℕ), form })
      { idFirst := s.words.length, idLast := s.words.length + words.length - 1, form, misc }
      (fun k word hk => by
        cases k with
        | zero =>
          obtain rfl := Option.some.inj hk
          rfl
        | succ k =>
          rw [List.getElem?_cons_succ, List.getElem?_mapIdx, Option.map_eq_some_iff] at hk
          obtain ⟨form', _, rfl⟩ := hk
          dsimp only
          omega) rfl (by
        rw [List.length_mapIdx, hcount]
        dsimp only
        omega)
    exact ⟨htokenized, _, _, hsurface⟩

end MultiwordSplitter

end UDPipe
