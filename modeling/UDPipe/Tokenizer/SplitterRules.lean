import UDPipe.Tokenizer.SplitterLoad

/-!
# The rule for a token

A splitter that is loaded from a file uses the full rule of the lowercase token, else the
suffix rule with the longest suffix that is shorter than it. The search begins with a suffix
of one byte, so a rule with the empty suffix is never used. What is appended are the words of
the rule in the casing of the token, the first one after the characters of the token that
come before the suffix.
-/

namespace UDPipe

namespace MultiwordSplitter

open Utf8

/-! ### The rule -/

/-- The rule that these lists have for a lowercase token: its words, and the number of bytes
before the suffix. Only some keys of suffix rules are admitted. -/
inductive RuleFor (admitted : Bytes → Prop) (version : ℕ) (full suffix : List SavedRule)
    (token : Bytes) : Option (List Bytes × ℕ) → Prop
  | full {words : List Bytes} : (token, words) ∈ full →
      RuleFor admitted version full suffix token (some (words, 0))
  | suffix {leading key : Bytes} {words : List Bytes} :
      (∀ words', (token, words') ∉ full) → 2 ≤ version → leading ++ key = token →
      leading ≠ [] → admitted key → (key, words) ∈ suffix →
      (∀ rule ∈ suffix, admitted rule.1 → rule.1 <:+ token → rule.1.length < token.length →
        rule.1.length ≤ key.length) →
      RuleFor admitted version full suffix token (some (words, leading.length))
  | none : (∀ words', (token, words') ∉ full) →
      (2 ≤ version → ∀ rule ∈ suffix, admitted rule.1 → rule.1 <:+ token →
        ¬ rule.1.length < token.length) →
      RuleFor admitted version full suffix token none

/-- What the search over sizes from `start` on finds: the largest size with words. -/
theorem searchSuffix_spec (splitter : MultiwordSplitter) {rules : List SavedRule}
    (h : SuffixRepresents splitter.suffixRules rules) (buffer : Bytes) (start count : ℕ)
    (hstart : 0 < start) (found : Option (List Bytes × ℕ)) :
    (∃ size words, start ≤ size ∧ size < start + count ∧ words ≠ [] ∧
        splitter.suffixRules (buffer.take size) = some words ∧
        (∀ size', size < size' → size' < start + count → ∀ words',
          splitter.suffixRules (buffer.take size') = some words' → words' = []) ∧
        splitter.searchSuffix buffer (List.range' start count) found =
          some (words, buffer.length - size)) ∨
      (∀ size, start ≤ size → size < start + count → ∀ words,
        splitter.suffixRules (buffer.take size) = some words → words = []) ∧
        splitter.searchSuffix buffer (List.range' start count) found = found := by
  induction count generalizing start found with
  | zero =>
    refine .inr ⟨fun size hle hlt => ?_, rfl⟩
    omega
  | succ count ih =>
    rw [List.range'_succ, searchSuffix]
    cases hthis : splitter.suffixRules (buffer.take start) with
    | none =>
      -- a longer suffix would have this one as its beginning
      refine .inr ⟨fun size hle _ words hwords => ?_, rfl⟩
      exfalso
      have htake : (buffer.take size).take start = buffer.take start := by
        rw [List.take_take, min_eq_left hle]
      refine h.closed (buffer.take size) start hstart ?_ (htake ▸ hthis)
      rw [hwords]
      exact Option.some_ne_none words
    | some words =>
      dsimp only
      have hlast : start + 1 + count = start + (count + 1) := by omega
      rcases ih (start + 1) (Nat.succ_pos start)
          (if words = [] then found else some (words, buffer.length - start)) with
        ⟨size, words', hle, hlt, hne, hwords', hlarger, heq⟩ | ⟨hnone, heq⟩
      · rw [hlast] at hlt hlarger
        exact .inl ⟨size, words', by omega, hlt, hne, hwords', hlarger, heq⟩
      · rw [hlast] at hnone
        rw [heq]
        by_cases hempty : words = []
        · rw [if_pos hempty]
          refine .inr ⟨fun size hle hlt words' hwords' => ?_, rfl⟩
          rcases Nat.eq_or_lt_of_le hle with rfl | hgt
          · rw [hthis] at hwords'
            exact (Option.some.inj hwords').symm.trans hempty
          · exact hnone size hgt hlt words' hwords'
        · rw [if_neg hempty]
          exact .inl ⟨start, words, le_rfl, by omega, hempty, hthis,
            fun size' hgt hlt => hnone size' hgt hlt, rfl⟩

variable {splitter : MultiwordSplitter} {tables : Unicode} {version : ℕ}
  {full suffix : List SavedRule}

/-- The search finds the rule that the lists have. -/
theorem ruleFor_findRule (h : LoadedFrom splitter tables version full suffix) (form : Bytes) :
    RuleFor (· ≠ []) version full suffix (map tables.lowercase form)
      (splitter.findRule form) := by
  obtain ⟨rfl, rfl, hfull, hsuffix⟩ := h
  generalize htoken : map splitter.tables.lowercase form = token
  unfold findRule
  rw [htoken]
  dsimp only
  cases hlookup : splitter.fullRules token.reverse with
  | some words => exact .full ((hfull token words).mp hlookup)
  | none =>
    have hnone : ∀ words', (token, words') ∉ full := by
      intro words' hmem
      rw [(hfull token words').mpr hmem] at hlookup
      cases hlookup
    dsimp only
    by_cases hversion : 2 ≤ splitter.version
    swap
    · rw [if_neg hversion]
      exact .none hnone fun hge => absurd hge hversion
    rw [if_pos hversion]
    -- a suffix of the token is a beginning of the buffer
    have hkey : ∀ size, size ≤ token.length →
        token.reverse.take size = (token.drop (token.length - size)).reverse :=
      fun size _ => List.take_reverse
    have hsize : ∀ rule ∈ suffix, rule.1 <:+ token →
        token.reverse.take rule.1.length = rule.1.reverse := by
      intro rule _ hsuff
      rw [hkey _ hsuff.length_le, ← List.suffix_iff_eq_drop.mp hsuff]
    rcases splitter.searchSuffix_spec hsuffix token.reverse 1 (token.reverse.length - 1)
        Nat.one_pos none with ⟨size, words, hle, hlt, hne, hwords, hlarger, heq⟩ | ⟨hnone', heq⟩
    · rw [heq]
      rw [List.length_reverse] at hlt hlarger ⊢
      have hlength : (token.take (token.length - size)).length = token.length - size := by
        rw [List.length_take]
        omega
      have hmem : (token.drop (token.length - size), words) ∈ suffix := by
        rw [hkey size (by omega)] at hwords
        exact (hsuffix.rules_iff _ words hne).mp hwords
      rw [← hlength]
      refine .suffix hnone hversion (List.take_append_drop _ token) ?_ ?_ hmem ?_
      · rw [← List.length_pos_iff, hlength]
        omega
      · rw [← List.length_pos_iff, List.length_drop]
        omega
      · intro rule hrule hkeyne hsuff hshort
        rw [List.length_drop]
        by_contra hlong
        have hrulewords := (hsuffix.rules_iff rule.1 rule.2 (hsuffix.words_ne_nil rule hrule)).mpr
          hrule
        rw [← hsize rule hrule hsuff] at hrulewords
        exact hsuffix.words_ne_nil rule hrule
          (hlarger rule.1.length (by omega) (by omega) rule.2 hrulewords)
    · rw [heq]
      refine .none hnone fun _ rule hrule hkeyne hsuff hshort => ?_
      have hrulewords := (hsuffix.rules_iff rule.1 rule.2 (hsuffix.words_ne_nil rule hrule)).mpr
        hrule
      rw [← hsize rule hrule hsuff] at hrulewords
      have hpos := List.length_pos_iff.mpr hkeyne
      exact hsuffix.words_ne_nil rule hrule
        (hnone' rule.1.length hpos (by rw [List.length_reverse]; omega) rule.2 hrulewords)

/-! ### The words -/

/-- A text with the characters of a word, each as it is or in uppercase. A word ends at a
zero character, and malformed bytes are replaced. -/
def CaseVariant (tables : Unicode) (word text : Bytes) : Prop :=
  ∃ codes, List.Forall₂ (fun (c : Character) code => code = c.code ∨ code = tables.uppercase c.code)
    (charsToZero word) codes ∧ text = codes.flatMap encode

/-- Characters in lowercase. -/
def lowered (tables : Unicode) (cs : List Character) : Bytes :=
  cs.flatMap fun c => encode (tables.lowercase c.code)

/-- The forms are the words of a rule up to letter case, the first one after the first
characters of the token, as many as it takes for `prefixLen` bytes in lowercase. -/
structure Spelled (tables : Unicode) (form : Bytes) (words : List Bytes) (prefixLen : ℕ)
    (forms : List Bytes) : Prop where
  first : ∃ count text, forms.head? = some (flat ((chars form).take count) ++ text) ∧
    CaseVariant tables (words.headD []) text ∧
    prefixLen ≤ (lowered tables ((chars form).take count)).length ∧
    (∀ fewer < count, (lowered tables ((chars form).take fewer)).length < prefixLen) ∧
    ((∀ c ∈ (map tables.lowercase form)[prefixLen]?, isContinuation c = false) →
      lowered tables ((chars form).take count) = (map tables.lowercase form).take prefixLen)
  others : List.Forall₂ (fun word text => text = word ∨ CaseVariant tables word text)
    words.tail forms.tail

/-- A token was appended by a rule: as one word, or as a multiword token over the words that
are appended with it. -/
def Appended (tables : Unicode) (form misc : Bytes) (s : Sentence) :
    Option (List Bytes × ℕ) → Sentence → Prop
  | none, s' => s' = { s with words := s.words ++ [{ id := s.words.length, form, misc }] }
  | some (words, prefixLen), s' => ∃ forms, Spelled tables form words prefixLen forms ∧
      forms.length = words.length ∧
      s' = { s with
        words := s.words ++ forms.mapIdx fun k form => { id := (s.words.length + k : ℕ), form }
        multiwordTokens := s.multiwordTokens ++
          [{ idFirst := s.words.length, idLast := s.words.length + forms.length - 1, form, misc }] }

/-- Every character is written as it is or in uppercase. -/
theorem exists_appendCased (splitter : MultiwordSplitter) (casing : Casing) (form : Bytes)
    (cs : List Character) :
    ∃ codes, List.Forall₂ (fun (c : Character) code =>
        code = c.code ∨ code = splitter.tables.uppercase c.code) cs codes ∧
      splitter.appendCased casing form cs = form ++ codes.flatMap encode := by
  induction cs generalizing form with
  | nil => exact ⟨[], .nil, (List.append_nil form).symm⟩
  | cons c cs ih =>
    obtain ⟨code, hcode, hstep⟩ : ∃ code,
        (code = c.code ∨ code = splitter.tables.uppercase c.code) ∧
        splitter.appendCased casing form (c :: cs) =
          splitter.appendCased casing (form ++ encode code) cs := by
      refine ⟨if casing == .upperAll || (casing == .upperFirst && form == []) then
        splitter.tables.uppercase c.code else c.code, ?_, rfl⟩
      split
      · exact .inr rfl
      · exact .inl rfl
    obtain ⟨codes, hcodes, heq⟩ := ih (form ++ encode code)
    exact ⟨code :: codes, .cons hcode hcodes, by
      rw [hstep, heq, List.flatMap_cons, List.append_assoc]⟩

/-- A word is written as it is or as a variant of it. -/
theorem casedWord_spec (splitter : MultiwordSplitter) (casing : Casing) (word : Bytes) :
    splitter.casedWord casing word = word ∨
      CaseVariant splitter.tables word (splitter.casedWord casing word) := by
  unfold casedWord
  split
  · refine .inr ⟨(charsToZero word).map fun c => splitter.tables.uppercase c.code, ?_, ?_⟩
    · rw [List.forall₂_map_right_iff]
      exact List.forall₂_same.mpr fun c _ => .inr rfl
    · rw [List.flatMap_map]
  · exact .inl rfl

/-- The first character is written in lowercase, then the others. -/
theorem lowered_cons (tables : Unicode) (c : Character) (cs : List Character) :
    lowered tables (c :: cs) = encode (tables.lowercase c.code) ++ lowered tables cs :=
  List.flatMap_cons

/-- A text may be cut before it is written in lowercase. -/
theorem lowered_take_append_drop (tables : Unicode) (cs : List Character) (count : ℕ) :
    lowered tables (cs.take count) ++ lowered tables (cs.drop count) = lowered tables cs := by
  rw [lowered, lowered, ← List.flatMap_append, List.take_append_drop]
  rfl

/-- The kept characters are the fewest that take enough bytes in lowercase. -/
theorem exists_keptPrefix (splitter : MultiwordSplitter) (prefixLen already : ℕ)
    (cs : List Character) (h : prefixLen ≤ already + (lowered splitter.tables cs).length) :
    ∃ count ≤ cs.length, splitter.keptPrefix prefixLen already cs = flat (cs.take count) ∧
      prefixLen ≤ already + (lowered splitter.tables (cs.take count)).length ∧
      ∀ fewer < count, already + (lowered splitter.tables (cs.take fewer)).length < prefixLen := by
  induction cs generalizing already with
  | nil => exact ⟨0, le_rfl, rfl, h, fun fewer hfewer => absurd hfewer (Nat.not_lt_zero fewer)⟩
  | cons c cs ih =>
    rw [keptPrefix]
    by_cases hmore : already < prefixLen
    · rw [if_pos hmore]
      rw [lowered_cons, List.length_append, ← Nat.add_assoc] at h
      obtain ⟨count, hcount, hkept, hreach, hshort⟩ := ih _ h
      refine ⟨count + 1, Nat.succ_le_succ hcount, ?_, ?_, fun fewer hfewer => ?_⟩
      · rw [hkept, List.take_succ_cons, flat_cons]
      · rw [List.take_succ_cons, lowered_cons, List.length_append, ← Nat.add_assoc]
        exact hreach
      · cases fewer with
        | zero => exact hmore
        | succ fewer =>
          rw [List.take_succ_cons, lowered_cons, List.length_append, ← Nat.add_assoc]
          exact hshort fewer (Nat.lt_of_succ_lt_succ hfewer)
    · rw [if_neg hmore]
      exact ⟨0, Nat.zero_le _, rfl, Nat.le_of_not_lt hmore,
        fun fewer hfewer => absurd hfewer (Nat.not_lt_zero fewer)⟩

/-- An encoded character is one byte and continuation bytes. -/
theorem encode_eq (code : ℕ) :
    ∃ first more, encode code = first :: more ∧ ∀ c ∈ more, isContinuation c = true := by
  have hmore : ∀ value : ℕ, isContinuation (UInt8.ofNat (0x80 + value % 64)) = true := by
    intro value
    have hlt : 0x80 + value % 64 < 256 := by omega
    have hnat : (UInt8.ofNat (0x80 + value % 64)).toNat = 0x80 + value % 64 := by
      rw [UInt8.toNat_ofNat']
      omega
    rw [isContinuation, Bool.and_eq_true, decide_eq_true_eq, decide_eq_true_eq, UInt8.le_iff_toNat_le,
      UInt8.lt_iff_toNat_lt, hnat]
    constructor
    · exact Nat.le_add_right _ _
    · change _ < 192
      omega
  unfold encode
  split_ifs
  · exact ⟨_, _, rfl, List.forall_mem_nil _⟩
  · exact ⟨_, _, rfl, List.forall_mem_singleton.mpr (hmore _)⟩
  · exact ⟨_, _, rfl, List.forall_mem_cons.mpr ⟨hmore _, List.forall_mem_singleton.mpr (hmore _)⟩⟩
  · exact ⟨_, _, rfl, List.forall_mem_cons.mpr ⟨hmore _, List.forall_mem_cons.mpr
      ⟨hmore _, List.forall_mem_singleton.mpr (hmore _)⟩⟩⟩
  · exact ⟨_, _, rfl, List.forall_mem_nil _⟩

/-- If a character begins after `prefixLen` bytes, the kept characters end there. -/
theorem lowered_take_eq {tables : Unicode} {cs : List Character} {prefixLen count : ℕ}
    (hcount : count ≤ cs.length)
    (hreach : prefixLen ≤ (lowered tables (cs.take count)).length)
    (hshort : ∀ fewer < count, (lowered tables (cs.take fewer)).length < prefixLen)
    (hbegins : ∀ c ∈ (lowered tables cs)[prefixLen]?, isContinuation c = false) :
    lowered tables (cs.take count) = (lowered tables cs).take prefixLen := by
  have hlength : (lowered tables (cs.take count)).length = prefixLen := by
    cases count with
    | zero =>
      have hzero : (lowered tables (cs.take 0)).length = 0 := rfl
      omega
    | succ fewer =>
      refine le_antisymm ?_ hreach
      by_contra hlong
      have hless := hshort fewer (Nat.lt_succ_self fewer)
      have hget : fewer < cs.length := hcount
      obtain ⟨first, more, hencode, hmore⟩ := encode_eq (tables.lowercase (cs.get ⟨fewer, hget⟩).code)
      have hsplit : lowered tables (cs.take (fewer + 1)) =
          lowered tables (cs.take fewer) ++ first :: more := by
        rw [List.take_succ_eq_append_getElem hget, lowered, List.flatMap_append,
          List.flatMap_singleton, ← hencode]
        rfl
      have hall : lowered tables cs = lowered tables (cs.take fewer) ++
          (first :: more ++ lowered tables (cs.drop (fewer + 1))) := by
        rw [← List.append_assoc, ← hsplit, lowered_take_append_drop]
      rw [hsplit, List.length_append, List.length_cons] at hlong
      obtain ⟨k, hk⟩ : ∃ k, prefixLen = (lowered tables (cs.take fewer)).length + (k + 1) :=
        ⟨prefixLen - (lowered tables (cs.take fewer)).length - 1, by omega⟩
      have hkmore : k < more.length := by omega
      have hbyte : (lowered tables cs)[prefixLen]? = some (more.get ⟨k, hkmore⟩) := by
        rw [hall, hk, List.getElem?_append_right (Nat.le_add_right _ _), Nat.add_sub_cancel_left,
          List.cons_append, List.getElem?_cons_succ, List.getElem?_append_left hkmore]
        exact List.getElem?_eq_getElem hkmore
      have hcont := hmore _ (List.get_mem more ⟨k, hkmore⟩)
      rw [hbegins _ hbyte] at hcont
      cases hcont
  rw [← lowered_take_append_drop tables cs count]
  exact (List.take_left' hlength).symm

/-- The forms of a rule. -/
theorem spelled_ruleForms (splitter : MultiwordSplitter) (form : Bytes) (words : List Bytes)
    {prefixLen : ℕ} (h : prefixLen ≤ (map splitter.tables.lowercase form).length) :
    Spelled splitter.tables form words prefixLen
      ((splitter.ruleForms form words prefixLen).1 ::
        (splitter.ruleForms form words prefixLen).2) := by
  have hmap : map splitter.tables.lowercase form = lowered splitter.tables (chars form) := rfl
  constructor
  · rw [hmap] at h ⊢
    obtain ⟨count, hcount, hkept, hreach, hshort⟩ :=
      splitter.exists_keptPrefix prefixLen 0 (chars form) (by omega)
    simp only [Nat.zero_add] at hreach hshort
    obtain ⟨codes, hcodes, heq⟩ := splitter.exists_appendCased (splitter.casing form)
      (flat ((chars form).take count)) (charsToZero (words.headD []))
    refine ⟨count, codes.flatMap encode, ?_, ⟨codes, hcodes, rfl⟩, hreach, hshort,
      lowered_take_eq hcount hreach hshort⟩
    rw [ruleForms, List.head?_cons]
    dsimp only
    rw [hkept, heq]
  · rw [ruleForms, List.tail_cons]
    dsimp only
    rw [List.forall₂_map_right_iff]
    exact List.forall₂_same.mpr fun word _ => splitter.casedWord_spec _ word

/-- The prefix is inside the token. -/
theorem RuleFor.prefixLen_le {admitted : Bytes → Prop} {token : Bytes}
    {words : List Bytes} {prefixLen : ℕ}
    (h : RuleFor admitted version full suffix token (some (words, prefixLen))) :
    prefixLen ≤ token.length := by
  cases h with
  | full => exact Nat.zero_le _
  | suffix _ _ heq => exact (List.prefix_append _ _).length_le.trans_eq (congrArg _ heq)

/-- A token is appended by the rule that the lists have for it. -/
theorem appended_appendToken (h : LoadedFrom splitter tables version full suffix)
    (form misc : Bytes) (s : Sentence) :
    Appended tables form misc s (splitter.findRule form) (splitter.appendToken form misc s) := by
  have hrule := ruleFor_findRule h form
  have hnonempty : ∀ {words prefixLen}, splitter.findRule form = some (words, prefixLen) →
      words ≠ [] := fun hfound => splitter.findRule_nonempty hfound
  unfold appendToken
  cases hfound : splitter.findRule form with
  | none => rfl
  | some found =>
    obtain ⟨words, prefixLen⟩ := found
    rw [hfound] at hrule
    have hle := hrule.prefixLen_le
    rw [← h.tables_eq] at hle ⊢
    have hpos := List.length_pos_iff.mpr (hnonempty hfound)
    have hcount : (splitter.ruleForms form words prefixLen).2.length + 1 = words.length := by
      rw [ruleForms, List.length_map, List.length_tail]
      omega
    refine ⟨_, spelled_ruleForms splitter form words hle, hcount, ?_⟩
    dsimp only
    rw [foldl_addWord, List.length_cons, hcount, List.mapIdx_cons]
    simp only [Sentence.addWord, List.append_assoc, List.singleton_append, id, List.length_append,
      List.length_singleton, Nat.add_zero, Nat.add_assoc, Nat.add_comm 1]

/-- A splitter that is loaded from a file appends every token by the full rule of the token
in lowercase, or by the suffix rule with the longest nonempty suffix shorter than it, or as
one word if there is none. -/
theorem exists_rule_appendToken {decompress : Bytes → Option Bytes} {stream : Bytes}
    (hsaved : Saved decompress stream version full suffix)
    (hload : load tables decompress stream = some splitter) (form misc : Bytes) (s : Sentence) :
    ∃ rule, RuleFor (· ≠ []) version full suffix (map tables.lowercase form) rule ∧
      Appended tables form misc s rule (splitter.appendToken form misc s) :=
  have h := loadedFrom_of_saved hsaved hload
  ⟨splitter.findRule form, ruleFor_findRule h form, appended_appendToken h form misc s⟩

/-! ### Files with one suffix rule -/

/-- Tables for texts without uppercase letters. -/
def lowercaseTables : Unicode := ⟨fun _ => .Ll, id, id⟩

/-- A file, not compressed, with a suffix rule for these bytes. -/
def suffixFile (key : Bytes) : Bytes :=
  [2, 0, 0, 0, 0, 1, 0, 0, 0] ++ UInt8.ofNat key.length :: key ++
    [2, 1, 110, 3, 100, 101, 109]

/-- The words of the rule. -/
def suffixWords : List Bytes := [bytes "n", bytes "dem"]

/-- What is saved for one suffix rule. -/
theorem saved_suffixFile_m : Saved some (suffixFile (bytes "m")) 2 [] [(bytes "m", suffixWords)] :=
  ⟨⟨2, _, _, _, rfl, rfl, rfl, rfl, rfl⟩, .nil, by simp⟩

/-- A splitter with one suffix rule. -/
theorem exists_rule_appendToken_suffixFile :
    ∃ splitter, load lowercaseTables some (suffixFile (bytes "m")) = some splitter ∧
      ∃ rule, RuleFor (· ≠ []) 2 [] [(bytes "m", suffixWords)]
          (map lowercaseTables.lowercase (bytes "im")) rule ∧
        Appended lowercaseTables (bytes "im") [] .clear rule
          (splitter.appendToken (bytes "im") [] .clear) :=
  ⟨_, rfl, exists_rule_appendToken saved_suffixFile_m rfl (bytes "im") [] .clear⟩

/-- What is saved for the empty suffix. -/
theorem saved_suffixFile_nil : Saved some (suffixFile []) 2 [] [([], suffixWords)] :=
  ⟨⟨2, _, _, _, rfl, rfl, rfl, rfl, rfl⟩, .nil, by simp⟩

/-- A rule with the empty suffix is not used, although no other one is there. -/
theorem not_appended_emptySuffix :
    ∃ splitter, load lowercaseTables some (suffixFile []) = some splitter ∧
      Saved some (suffixFile []) 2 [] [([], suffixWords)] ∧
      ¬ ∃ rule, RuleFor (fun _ => True) 2 [] [([], suffixWords)]
          (map lowercaseTables.lowercase (bytes "b")) rule ∧
        Appended lowercaseTables (bytes "b") [] .clear rule
          (splitter.appendToken (bytes "b") [] .clear) := by
  refine ⟨_, rfl, saved_suffixFile_nil, ?_⟩
  rintro ⟨rule, hrule, happended⟩
  cases hrule with
  | full hmem => cases hmem
  | none _ hnone => exact absurd (hnone le_rfl _ (List.mem_singleton_self _) trivial
      List.nil_suffix) (by decide)
  | suffix _ _ _ _ _ hmem _ =>
    obtain ⟨-, rfl⟩ := Prod.mk.inj (List.mem_singleton.mp hmem)
    obtain ⟨forms, -, hlength, heq⟩ := happended
    have hwords := congrArg (fun t : Sentence => t.words.length) heq
    simp only [List.length_append, List.length_mapIdx, hlength] at hwords
    exact absurd hwords (by decide)

end MultiwordSplitter

end UDPipe
