import UDPipe.Conllu.RoundTrip

/-!
# Conversion from version 2 to version 1

The writer of version 1 drops empty nodes and replaces spaces in forms and
lemmas, and the reader of version 1 accepts the result unless a MISC field has
a space or a multiword token has features. The writer leaves both in place.
-/

namespace UDPipe.Conllu

/-- A field with underscores for its spaces. -/
def underscored (field : Bytes) : Bytes :=
  field.map fun chr => if chr = space then underscoreByte else chr

/-- The word that the conversion makes of a word. -/
def toV1Word (word : Word) : Word :=
  { word with form := underscored word.form, «lemma» := underscored word.lemma }

/-- The multiword token that the conversion makes of a multiword token. -/
def toV1MultiwordToken (token : MultiwordToken) : MultiwordToken :=
  { token with form := underscored token.form }

/-- The sentence that the conversion is meant to give. -/
def toV1 (s : Sentence) : Sentence where
  words := s.words.map toV1Word
  multiwordTokens := s.multiwordTokens.map toV1MultiwordToken
  emptyNodes := []
  comments := s.comments

/-- The text written in version 1 is read in version 1, to its end, and gives
the words and the ranges of the sentence without its empty nodes. -/
def ConvertsToV1 (s : Sentence) : Prop :=
  ∃ s', (nextSentence 1 (writeSentence 1 s)).Returns ⟨true, s', [], []⟩ ∧
    s'.words.map (fun w => (w.id, w.form, w.lemma, w.upostag, w.xpostag, w.head, w.deprel)) =
      s.words.map (fun w => (w.id, underscored w.form, underscored w.lemma, w.upostag, w.xpostag,
        w.head, w.deprel)) ∧
    s'.multiwordTokens.map (fun t => (t.idFirst, t.idLast, t.form)) =
      s.multiwordTokens.map (fun t => (t.idFirst, t.idLast, underscored t.form)) ∧
    s'.emptyNodes = []

/-- What the writer of version 1 leaves in place although its reader rejects it. -/
def V1Readable (s : Sentence) : Prop :=
  (∀ word ∈ s.words, space ∉ word.misc) ∧
    ∀ token ∈ s.multiwordTokens, space ∉ token.misc ∧ token.feats = []

instance (s : Sentence) : Decidable (V1Readable s) := inferInstanceAs (Decidable (_ ∧ _))

/-- In the first version spaces are written as underscores. -/
theorem writeWithSpaces_one (field : Bytes) : writeWithSpaces 1 field = underscored field := by
  unfold writeWithSpaces underscored
  by_cases hspace : space ∈ field
  · simp [hspace]
  · have hkeep : ∀ chr ∈ field, (if chr = space then underscoreByte else chr) = chr :=
      fun chr hchr => if_neg fun heq : chr = space => hspace (heq ▸ hchr)
    simp [hspace, List.map_congr_left hkeep]

/-- Underscores are written for all spaces. -/
theorem space_not_mem_underscored (field : Bytes) : space ∉ underscored field := by
  simp only [underscored, List.mem_map, not_exists, not_and]
  intro chr _
  split
  · decide
  · assumption

/-- Writing underscores a second time changes nothing. -/
@[simp] theorem underscored_underscored (field : Bytes) :
    underscored (underscored field) = underscored field := by
  simp only [underscored, List.map_map]
  refine List.map_congr_left fun chr _ => ?_
  by_cases hchr : chr = space <;> simp [hchr]

/-- Underscores for spaces and one for an empty field do not disturb each other. -/
theorem underscored_underscoreOnEmpty (field : Bytes) :
    underscored (underscoreOnEmpty field) = underscoreOnEmpty (underscored field) := by
  unfold underscoreOnEmpty
  by_cases hfield : field = []
  · subst hfield
    rfl
  · simp [hfield, underscored]

/-- A clean field stays clean with underscores. -/
theorem Clean.underscored {field : Bytes} (h : Clean field) : Clean (underscored field) := by
  intro c hc
  obtain ⟨chr, hchr, rfl⟩ := List.mem_map.mp hc
  split
  · decide
  · exact h chr hchr

/-- A clean field is written as one. -/
theorem Clean.writeWithSpaces {field : Bytes} (h : Clean field) (version : ℕ) :
    Clean (writeWithSpaces version field) := by
  unfold Conllu.writeWithSpaces
  split
  · exact h
  · exact h.underscored

/-- A form is a form of the first version when its spaces are underscores. -/
theorem FormField.toV1 {version : ℕ} {field : Bytes} (h : FormField version field) :
    FormField 1 (underscored field) where
  clean := h.clean.underscored
  no_space _ := space_not_mem_underscored field
  ne_nil := by simpa [underscored] using h.ne_nil

/-! ### Readable sentences convert -/

/-- The writer of version 1 writes what it would write for the converted words. -/
theorem nodeLines_toV1 (i : ℕ) (words : List Word) (tokens : List MultiwordToken)
    (nodes : List EmptyNode) : nodeLines 1 i words tokens nodes =
      nodeLines 1 i (words.map toV1Word) (tokens.map toV1MultiwordToken) [] := by
  have hword : ∀ (i : ℕ) (word : Word), wordLine 1 i (toV1Word word) = wordLine 1 i word := by
    intro i word
    simp only [wordLine_eq, wordRow, toV1Word, writeWithSpaces_one, underscored_underscored,
      underscored_underscoreOnEmpty]
  have htoken : ∀ (i : ℕ) (tokens : List MultiwordToken),
      multiwordTokenLines 1 i (tokens.map toV1MultiwordToken) =
        ((multiwordTokenLines 1 i tokens).1,
          (multiwordTokenLines 1 i tokens).2.map toV1MultiwordToken) := by
    intro i tokens
    cases tokens with
    | nil => rfl
    | cons token tokens =>
      have hline :
          multiwordTokenLine 1 (toV1MultiwordToken token) = multiwordTokenLine 1 token := by
        simp only [multiwordTokenLine_eq, multiwordTokenRow, toV1MultiwordToken,
          writeWithSpaces_one, underscored_underscored]
      simp only [List.map_cons, multiwordTokenLines, hline]
      by_cases hfirst : (i : ℤ) = token.idFirst <;> simp [hfirst, toV1MultiwordToken]
  have hversion : ¬ (1 ≥ 2) := by omega
  induction words generalizing i tokens with
  | nil => rfl
  | cons word words ih =>
    by_cases hi : i > 0
    · simp only [List.map_cons, nodeLines, if_pos hi, if_neg hversion, hword, htoken, ih]
    · simp only [List.map_cons, nodeLines, if_neg hi, if_neg hversion, ih]

/-- Converting the words keeps their links. -/
theorem linked_map_toV1Word (words : List Word) :
    linked (words.map toV1Word) = (linked words).map toV1Word := by
  have hchildren : ∀ k j, childrenBelow (words.map toV1Word) k j = childrenBelow words k j := by
    intro k j
    have hhead : ∀ c : ℕ, ((words.map toV1Word)[c]?.map fun w => w.head) =
        words[c]?.map fun w => w.head := by
      intro c
      rw [List.getElem?_map, Option.map_map]
      rfl
    simp only [childrenBelow, hhead]
  refine List.ext_getElem? fun j => ?_
  simp only [linked, List.length_map, List.getElem?_map, getElem?_linkedBelow, hchildren,
    Option.map_map]
  rfl

/-- The converted sentence is one that the reader of version 1 accepts. -/
theorem accepted_toV1 {s : Sentence} {words : List Word} (h : Accepted 2 s words)
    (hreadable : V1Readable s) : Accepted 1 (toV1 s) (words.map toV1Word) := by
  obtain ⟨hvalid, hlinked, hcovered, hheads, hnonempty⟩ := h
  have hlast : lastCovered (toV1 s).multiwordTokens = lastCovered s.multiwordTokens := by
    rw [lastCovered, toV1, List.getLast?_map, Option.map_map]
    rfl
  have hmisc : ∀ word ∈ words, space ∉ word.misc := by
    intro word hword
    obtain ⟨i, hi⟩ := List.mem_iff_getElem?.mp hword
    refine hreadable.1 { word with children := childrenBelow words words.length i } ?_
    refine List.mem_of_getElem? (i := i) ?_
    rw [hlinked, linked, getElem?_linkedBelow, hi]
    rfl
  refine ⟨⟨⟨?_, ?_, ?_, ?_⟩, ⟨?_, ?_, ?_, ?_⟩, ⟨?_, ?_, ?_, ?_⟩, hvalid.comments, rfl⟩,
    ?_, ?_, ?_, ?_⟩
  · rw [List.head?_map, hvalid.words.root]
    rfl
  · intro i w hw
    simp only [List.getElem?_map, Option.map_eq_some_iff] at hw
    obtain ⟨word, hword, rfl⟩ := hw
    exact hvalid.words.unlinked i word hword
  · simpa using hvalid.words.length_le
  · rw [← List.map_tail]
    simp only [List.forall_mem_map]
    intro word hword
    have hfields := hvalid.words.fields word hword
    exact ⟨hfields.form.toV1, hfields.lemma.toV1, hfields.tags,
      ⟨⟨hfields.misc.clean, fun _ => hmisc word (List.mem_of_mem_tail hword)⟩,
        hfields.misc.ne_underscore⟩, hfields.head⟩
  · simp only [toV1, List.forall_mem_map]
    intro token htoken
    have hfields := hvalid.multiwordTokens.fields token htoken
    obtain ⟨hspace, hfeats⟩ := hreadable.2 token htoken
    exact ⟨hfields.form.toV1, ⟨⟨hfields.misc.clean, fun _ => hspace⟩,
      hfields.misc.ne_underscore⟩, Or.inl hfeats⟩
  · simp only [toV1, List.forall_mem_map]
    exact hvalid.multiwordTokens.range
  · simp only [toV1, List.forall_mem_map, List.length_map]
    exact hvalid.multiwordTokens.bounds
  · exact List.pairwise_map.mpr hvalid.multiwordTokens.ordered
  · simp [toV1]
  · exact .nil
  · simp [toV1]
  · simp [toV1]
  · rw [toV1, hlinked, linked_map_toV1Word]
  · rw [hlast, List.length_map]
    exact hcovered
  · simp only [List.forall_mem_map, List.length_map]
    exact hheads
  · simpa using hnonempty

/-- A readable sentence is read back in version 1 as the converted sentence. -/
theorem returns_writeSentence_one {s : Sentence} {words : List Word} (h : Accepted 2 s words)
    (hreadable : V1Readable s) :
    (nextSentence 1 (writeSentence 1 s)).Returns ⟨true, toV1 s, [], []⟩ := by
  have hlines : sentenceLines 1 s = sentenceLines 1 (toV1 s) := by
    rw [sentenceLines, sentenceLines, nodeLines_toV1, toV1]
  have := returns_writeSentence (accepted_toV1 h hreadable) []
  rwa [List.append_nil, writeSentence, ← hlines] at this

/-! ### Sentences that convert are readable -/

/-- Every line of a run was accepted in some state. -/
theorem exists_handleLine_of_readLines {version : ℕ} {lines : List Bytes} {st st' : LineState}
    (h : readLines version lines st = .ok st') {line : Bytes} (hline : line ∈ lines) :
    ∃ st₁ st₂, handleLine version line st₁ = .ok st₂ := by
  induction lines generalizing st with
  | nil => simp at hline
  | cons first lines ih =>
    cases hfirst : handleLine version first st with
    | error error => simp [readLines, hfirst] at h
    | ok st₁ =>
      rw [readLines_cons_ok hfirst] at h
      rcases List.mem_cons.mp hline with rfl | hline
      · exact ⟨st, st₁, hfirst⟩
      · exact ih h hline

/-- A row that the reader accepts has passed the check of its columns. -/
theorem checked_of_handleLine {version : ℕ} {row : Row} {st st' : LineState}
    (hid : row.id.head? ≠ some hash) (hne : row.id ≠ [])
    (hclean : ∀ token ∈ row.tokens, Clean token)
    (h : handleLine version row.line st = .ok st') :
    row.Checked version ∧ (minus ∈ row.id → row.MultiwordColumns version) := by
  rw [handleLine, if_neg (head?_line hne ▸ hid), handleRow,
    split_line hne fun token ht => (hclean token ht).tab_not_mem, ofTokens_tokens] at h
  dsimp only at h
  split at h
  · cases h
  · rename_i hcheck
    refine ⟨firstError_checkColumn.mp hcheck, fun hminus => ?_⟩
    rw [if_pos hminus] at h
    obtain ⟨_, _, _, _, _, _, _, _, hcolumns, _⟩ := handleMultiwordToken_eq_ok.mp h
    exact hcolumns

/-- A word of a list is the first one or one behind it. -/
private theorem exists_getElem?_cons {word : Word} {words : List Word} {p : ℕ → Word → Prop} :
    (∃ (k : ℕ) (w : Word), (word :: words)[k]? = some w ∧ p k w) ↔
      p 0 word ∨ ∃ (k : ℕ) (w : Word), words[k]? = some w ∧ p (k + 1) w := by
  constructor
  · rintro ⟨k, w, hw, hp⟩
    cases k with
    | zero =>
      obtain rfl : word = w := by simpa using hw
      exact Or.inl hp
    | succ k => exact Or.inr ⟨k, w, by simpa using hw, hp⟩
  · rintro (hp | ⟨k, w, hw, hp⟩)
    · exact ⟨0, word, rfl, hp⟩
    · exact ⟨k + 1, w, by simpa using hw, hp⟩

/-- The lines written in version 1 for the words from index `i` on: those of the
multiword tokens that begin there, and those of the words. -/
theorem mem_nodeLines_one {i : ℕ} {words : List Word} {tokens : List MultiwordToken}
    {nodes : List EmptyNode} {line : Bytes} (hi : 0 < i)
    (hordered : tokens.Pairwise fun token token' => token.idFirst < token'.idFirst)
    (hbounds : ∀ token ∈ tokens, (i : ℤ) ≤ token.idFirst ∧ token.idFirst < i + words.length) :
    line ∈ nodeLines 1 i words tokens nodes ↔
      (∃ token ∈ tokens, line = multiwordTokenLine 1 token) ∨
        ∃ (k : ℕ) (word : Word), words[k]? = some word ∧ line = wordLine 1 (i + k) word := by
  induction words generalizing i tokens with
  | nil =>
    have hnone : ∀ token, token ∉ tokens := fun token ht => by
      have := hbounds token ht
      simp only [List.length_nil] at this
      omega
    simp [nodeLines, hnone]
  | cons word words ih =>
    have hversion : ¬ (1 ≥ 2) := by omega
    simp only [nodeLines, if_pos hi, if_neg hversion, List.append_nil, List.mem_append,
      List.mem_singleton]
    have hlater : ∀ tokens' : List MultiwordToken, tokens'.Sublist tokens →
        (∀ token ∈ tokens', (i : ℤ) < token.idFirst) →
        (line ∈ nodeLines 1 (i + 1) words tokens' nodes ↔
          (∃ token ∈ tokens', line = multiwordTokenLine 1 token) ∨
            ∃ (k : ℕ) (word : Word), words[k]? = some word ∧
              line = wordLine 1 (i + 1 + k) word) := by
      intro tokens' hsub hfirst
      refine ih (by omega) (hordered.sublist hsub) fun token ht => ?_
      have := hfirst token ht
      have := (hbounds token (hsub.subset ht)).2
      simp only [List.length_cons] at this
      push_cast at this ⊢
      omega
    have hwords : (∃ (k : ℕ) (w : Word), (word :: words)[k]? = some w ∧
          line = wordLine 1 (i + k) w) ↔
        line = wordLine 1 i word ∨
          ∃ (k : ℕ) (w : Word), words[k]? = some w ∧ line = wordLine 1 (i + 1 + k) w := by
      rw [exists_getElem?_cons]
      simp only [Nat.add_zero, Nat.add_assoc, Nat.add_comm 1]
    cases tokens with
    | nil =>
      simp only [multiwordTokenLines, hlater [] (List.Sublist.refl _) (by simp), hwords,
        List.not_mem_nil, false_or, false_and, exists_false]
    | cons token rest =>
      have hrest := (List.pairwise_cons.mp hordered).1
      have hfirst := (hbounds token (by simp)).1
      by_cases heq : (i : ℤ) = token.idFirst
      · have := hlater rest (List.sublist_cons_self _ _) fun token' ht => by
          have := hrest token' ht
          omega
        simp only [multiwordTokenLines, if_pos heq, this, hwords, List.mem_cons, List.not_mem_nil,
          or_false, exists_eq_or_imp]
        exact or_or_or_comm
      · have := hlater (token :: rest) (List.Sublist.refl _) fun token' ht => by
          rcases List.mem_cons.mp ht with rfl | ht
          · omega
          · have := hrest token' ht
            omega
        simp only [multiwordTokenLines, if_neg heq, List.not_mem_nil, false_or, this, hwords]
        exact or_left_comm

/-- What can be read off a line of a word, whatever version it is written in. -/
private theorem wordRow_clean {version : ℕ} (version' i : ℕ) {word : Word}
    (h : WordFields version word) : (wordRow version' i word).id ≠ [] ∧
      (wordRow version' i word).id.head? ≠ some hash ∧
      ∀ token ∈ (wordRow version' i word).tokens, Clean token := by
  have htags := h.tags
  simp only [List.forall_mem_cons, List.not_mem_nil, false_implies, implies_true, and_true] at htags
  obtain ⟨hupostag, hxpostag, hfeats, hdeprel, hdeps⟩ := htags
  refine ⟨natToString_ne_nil i, by simpa [wordRow] using head?_natToString_append i [], ?_⟩
  simp only [Row.tokens, List.forall_mem_cons]
  exact ⟨(plainToken_natToString i).clean, h.form.clean.writeWithSpaces version',
    h.lemma.clean.underscoreOnEmpty.writeWithSpaces version', hupostag.clean.underscoreOnEmpty,
    hxpostag.clean.underscoreOnEmpty, hfeats.clean.underscoreOnEmpty,
    (parseHead_wordRow version' i h.head).1.clean, hdeprel.clean.underscoreOnEmpty,
    hdeps.clean.underscoreOnEmpty, h.misc.clean.underscoreOnEmpty, by simp⟩

/-- What can be read off a line of a multiword token, whatever version it is written in. -/
private theorem multiwordTokenRow_clean {version : ℕ} (version' : ℕ) {token : MultiwordToken}
    (h : MultiwordFields version token) (hfirst : 0 ≤ token.idFirst)
    (hrange : token.idFirst ≤ token.idLast) : (multiwordTokenRow version' token).id ≠ [] ∧
      (multiwordTokenRow version' token).id.head? ≠ some hash ∧
      ∀ field ∈ (multiwordTokenRow version' token).tokens, Clean field := by
  obtain ⟨first, hfirst⟩ : ∃ n : ℕ, token.idFirst = n := ⟨token.idFirst.toNat, by omega⟩
  obtain ⟨last, hlast⟩ : ∃ n : ℕ, token.idLast = n := ⟨token.idLast.toNat, by omega⟩
  have hid : (multiwordTokenRow version' token).id =
      natToString first ++ [minus] ++ natToString last := by
    simp only [multiwordTokenRow, hfirst, hlast, intToString_natCast]
  have hplain := (plainToken_natToString first).append (plainToken_natToString last)
    (c := minus) (by decide) (by decide)
  have hfeats : Clean (underscoreOnEmpty token.feats) := by
    rcases h.feats with hfeats | ⟨_, hfeats⟩ <;> rw [hfeats] <;> decide
  have hunderscore := plainToken_underscore.clean
  refine ⟨by simp [hid], ?_, ?_⟩
  · rw [hid, List.append_assoc]
    exact head?_natToString_append _ _
  · simp only [Row.tokens, List.forall_mem_cons, hid]
    exact ⟨hplain.clean, h.form.clean.writeWithSpaces version', hunderscore, hunderscore,
      hunderscore, hfeats, hunderscore, hunderscore, hunderscore,
      h.misc.clean.underscoreOnEmpty, by simp⟩

/-- The lines written in version 1 for an accepted sentence. -/
private theorem sentenceLines_one {s : Sentence} {words : List Word} (h : Accepted 2 s words) :
    (∀ line ∈ sentenceLines 1 s, IsLine line) ∧
      (∀ token ∈ s.multiwordTokens, multiwordTokenLine 1 token ∈ sentenceLines 1 s) ∧
      ∀ word ∈ words.tail, ∃ i, wordLine 1 i word ∈ sentenceLines 1 s := by
  obtain ⟨rest, rfl⟩ : ∃ rest, words = Sentence.rootWord :: rest := by
    have hroot : words.head? = some Sentence.rootWord := h.valid.words.root
    exact ⟨words.tail, (List.cons_head?_tail hroot).symm⟩
  have htokens := h.valid.multiwordTokens
  have hmem : ∀ line, line ∈ sentenceLines 1 s ↔ line ∈ s.comments ∨
      (∃ token ∈ s.multiwordTokens, line = multiwordTokenLine 1 token) ∨
        ∃ (k : ℕ) (word : Word), rest[k]? = some word ∧ line = wordLine 1 (1 + k) word := by
    intro line
    have hversion : ¬ (1 ≥ 2) := by omega
    rw [sentenceLines, List.mem_append, h.linked, linked, nodeLines_linkedBelow]
    simp only [nodeLines, if_neg hversion, lt_irrefl, if_false, List.nil_append, zero_add]
    rw [mem_nodeLines_one one_pos]
    · refine htokens.ordered.imp_of_mem fun htoken _ hlt => ?_
      have := (htokens.range _ htoken).2
      omega
    · intro token ht
      have hlast := htokens.idLast_le ht
      have hrange := htokens.range token ht
      have hcovered := h.covered
      simp only [List.length_cons] at hlast hcovered
      push_cast at hcovered ⊢
      omega
  refine ⟨fun line hline => ?_, fun token ht => ?_, fun word hword => ?_⟩
  · rcases (hmem line).mp hline with hcomment | ⟨token, ht, htoken⟩ | ⟨k, word, hword, hline⟩
    · have := h.valid.comments line hcomment
      exact ⟨fun hnil => by simp [hnil, IsComment] at this, this.2⟩
    · obtain ⟨hne, _, hclean⟩ := multiwordTokenRow_clean 1
        (htokens.fields token ht) (by have := (htokens.range token ht).1; omega)
        (htokens.range token ht).2
      rw [htoken, multiwordTokenLine_eq]
      exact isLine_line hne hclean
    · obtain ⟨hne, _, hclean⟩ := wordRow_clean 1 (1 + k)
        (h.valid.words.fields word (List.mem_of_getElem? hword))
      rw [hline, wordLine_eq]
      exact isLine_line hne hclean
  · exact (hmem _).mpr (Or.inr (Or.inl ⟨token, ht, rfl⟩))
  · obtain ⟨k, hk⟩ := List.mem_iff_getElem?.mp hword
    exact ⟨1 + k, (hmem _).mpr (Or.inr (Or.inr ⟨k, word, hk, rfl⟩))⟩

/-- If the text written in version 1 is accepted, the sentence was readable. -/
theorem v1Readable_of_returns {s s' : Sentence} {words : List Word} {error rest : Bytes}
    (h : Accepted 2 s words)
    (hreturns : (nextSentence 1 (writeSentence 1 s)).Returns ⟨true, s', error, rest⟩) :
    V1Readable s := by
  obtain ⟨hlines, htokenLines, hwordLines⟩ := sentenceLines_one h
  obtain ⟨st, hread⟩ : ∃ st, readLines 1 (sentenceLines 1 s) .init = .ok st := by
    cases hread : readLines 1 (sentenceLines 1 s) .init with
    | ok st => exact ⟨st, rfl⟩
    | error error =>
      obtain ⟨s'', text, herror⟩ := returns_joinLines_error [lf] hlines hread
      cases hreturns.unique herror
  have hspace : ∀ {field : Bytes}, space ∉ underscoreOnEmpty field → space ∉ field := by
    intro field hfield hmem
    rw [underscoreOnEmpty_of_ne_nil (List.ne_nil_of_mem hmem)] at hfield
    exact hfield hmem
  refine ⟨fun word hword => ?_, fun token ht => ?_⟩
  · obtain ⟨i, hi⟩ := List.mem_iff_getElem?.mp hword
    rw [h.linked, linked, getElem?_linkedBelow, Option.map_eq_some_iff] at hi
    obtain ⟨raw, hraw, rfl⟩ := hi
    rcases eq_or_ne i 0 with rfl | hi
    · have hroot : words.head? = some Sentence.rootWord := h.valid.words.root
      rw [List.head?_eq_getElem?, hraw] at hroot
      obtain rfl := Option.some.inj hroot
      simp [Sentence.rootWord]
    · have htail : raw ∈ words.tail := by
        obtain ⟨k, rfl⟩ := Nat.exists_eq_succ_of_ne_zero hi
        exact List.mem_of_getElem? (i := k) (by simpa using hraw)
      obtain ⟨j, hj⟩ := hwordLines raw htail
      obtain ⟨st₁, st₂, hhandle⟩ := exists_handleLine_of_readLines hread hj
      obtain ⟨hne, hhash, hclean⟩ := wordRow_clean 1 j
        (h.valid.words.fields raw htail)
      rw [wordLine_eq] at hhandle
      have hchecked := (checked_of_handleLine hhash hne hclean hhandle).1
      exact hspace (hchecked.no_space_v1 (by omega) (wordRow 1 j raw).misc (by simp))
  · obtain ⟨st₁, st₂, hhandle⟩ := exists_handleLine_of_readLines hread (htokenLines token ht)
    obtain ⟨hne, hhash, hclean⟩ := multiwordTokenRow_clean 1
      (h.valid.multiwordTokens.fields token ht)
      (by have := (h.valid.multiwordTokens.range token ht).1; omega)
      (h.valid.multiwordTokens.range token ht).2
    rw [multiwordTokenLine_eq] at hhandle
    obtain ⟨hchecked, hcolumns⟩ := checked_of_handleLine hhash hne hclean hhandle
    refine ⟨hspace (hchecked.no_space_v1 (by omega) (multiwordTokenRow 1 token).misc (by simp)), ?_⟩
    have hminus : minus ∈ (multiwordTokenRow 1 token).id := by simp [multiwordTokenRow]
    have hfeats : underscoreOnEmpty token.feats = underscore := by
      rcases (hcolumns hminus).feats with hfeats | ⟨hversion, _⟩
      · exact hfeats
      · omega
    rcases (h.valid.multiwordTokens.fields token ht).feats with hnil | ⟨_, htypo⟩
    · exact hnil
    · rw [htypo] at hfeats
      exact absurd hfeats (by decide)

/-- A sentence read in version 2 converts exactly when it is readable in version 1. -/
theorem convertsToV1_iff {s : Sentence} (h : ReadFromText 2 s) : ConvertsToV1 s ↔ V1Readable s := by
  obtain ⟨words, haccepted⟩ := h.accepted
  constructor
  · rintro ⟨s', hreturns, _⟩
    exact v1Readable_of_returns haccepted hreturns
  · intro hreadable
    refine ⟨toV1 s, returns_writeSentence_one haccepted hreadable, ?_, ?_, rfl⟩
    · simp only [toV1, List.map_map]
      rfl
    · simp only [toV1, List.map_map]
      rfl

/-- A sentence with a space in a form. -/
theorem convertsToV1_iff_form : ∃ s, ReadFromText 2 s ∧ ConvertsToV1 s := by
  obtain ⟨⟨returned, s, error, rest⟩, hrun, hresult⟩ : ∃ r,
      (nextSentence 2 (bytes "1\ta b\ta b\t_\t_\t_\t0\troot\t_\t_\n")).Returns r ∧
        (r.returned && r.error == [] && decide (V1Readable r.sentence)) = true :=
    Comp.exists_returns_of_run 9 (by decide +kernel)
  simp only [Bool.and_eq_true, beq_iff_eq, decide_eq_true_eq] at hresult
  obtain ⟨⟨rfl, rfl⟩, hreadable⟩ := hresult
  have hs : ReadFromText 2 s := ⟨_, rest, hrun⟩
  exact ⟨s, hs, (convertsToV1_iff hs).mpr hreadable⟩

/-- A word with a space in MISC is read in version 2 and does not convert. -/
theorem not_convertsToV1_misc : ∃ s rest,
    (nextSentence 2 (bytes "1\ta\ta\t_\t_\t_\t0\troot\t_\tA B\n")).Returns ⟨true, s, [], rest⟩ ∧
      ¬ ConvertsToV1 s := by
  obtain ⟨⟨returned, s, error, rest⟩, hrun, hresult⟩ : ∃ r,
      (nextSentence 2 (bytes "1\ta\ta\t_\t_\t_\t0\troot\t_\tA B\n")).Returns r ∧
        (r.returned && r.error == [] && ((nextSentence 1 (writeSentence 1 r.sentence)).run 9).any
          fun r' => !r'.returned) = true :=
    Comp.exists_returns_of_run 9 (by decide +kernel)
  simp only [Bool.and_eq_true, beq_iff_eq] at hresult
  obtain ⟨⟨rfl, rfl⟩, hv1⟩ := hresult
  refine ⟨s, rest, hrun, ?_⟩
  rintro ⟨s', hreturns, _⟩
  obtain ⟨r', hrun', hreturned'⟩ := Comp.exists_returns_of_run 9 hv1
  obtain rfl := hreturns.unique hrun'
  cases hreturned'

end UDPipe.Conllu
