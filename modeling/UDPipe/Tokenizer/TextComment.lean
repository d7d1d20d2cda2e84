import UDPipe.Tokenizer.Sentences

/-!
# The text comment and the plain text

The tokenizers store the text of a sentence in its comment `# text`, and the plain text
writer with normalized spaces writes it as a line. Both loops go over the surface tokens, but
they decide about the space after a token at different words: the tokenizers at the last word
that the token covers, the writer at the first one. The texts differ exactly when a multiword
token with a space after it covers the last word of the sentence and another one.
-/

namespace UDPipe

/-- The multiword tokens are ranges of words, one after the other. -/
structure OrderedMultiwords (s : Sentence) : Prop where
  ranges : ∀ token ∈ s.multiwordTokens,
    1 ≤ token.idFirst ∧ token.idFirst ≤ token.idLast ∧ token.idLast < s.words.length
  ranges_ordered : s.multiwordTokens.Pairwise fun token token' => token.idLast < token'.idFirst

/-- The last comment is the text that is written as the line of the sentence. -/
def TextIsLine (s : Sentence) (writer : Plaintext) : Prop :=
  ∃ line, s.comments.getLast? = some (bytes "# text = " ++ line) ∧
    (writer.writeSentence s).Returns
      (writer.blankLine s ++ line ++ [lf], { writer with empty := false })

/-- A multiword token of several words, the last word of the sentence among them, has a
space after it. -/
def SpacedMultiwordAtEnd (s : Sentence) : Prop :=
  ∃ token ∈ s.multiwordTokens, token.idFirst + 1 < (s.words.length : ℤ) ∧
    (s.words.length : ℤ) ≤ token.idLast + 1 ∧ token.getSpaceAfter = true

instance (s : Sentence) : Decidable (SpacedMultiwordAtEnd s) :=
  inferInstanceAs (Decidable (∃ token ∈ s.multiwordTokens, _))

/-! ### The words of a surface token -/

/-- A surface token is one word, or it has the range of a multiword token. -/
theorem range_of_mem_surfaceFrom {words : List Word} {i : ℕ} {covered : ℤ}
    {tokens : List MultiwordToken} {t : SurfaceToken} (h : t ∈ surfaceFrom words i covered tokens) :
    t.first < i + words.length ∧
      (t.last = t.first ∨
        ∃ token ∈ tokens, t.token = token.toToken ∧ token.idFirst = t.first ∧
          token.idLast = t.last) := by
  rcases exists_of_mem_surfaceFrom h with
    ⟨j, word, hword, rfl⟩ | ⟨j, token, hj, htoken, hfirst, rfl⟩
  · have hj : j < words.length := (List.getElem?_eq_some_iff.mp hword).1
    exact ⟨Nat.add_lt_add_left hj i, .inl rfl⟩
  · exact ⟨Nat.add_lt_add_left hj i, .inr ⟨token, htoken, rfl, hfirst, rfl⟩⟩

/-- Every multiword token is a surface token. -/
theorem exists_mem_surfaceFrom {words : List Word} {i : ℕ} {covered : ℤ}
    {tokens : List MultiwordToken} (h : Within tokens i covered words.length)
    {token : MultiwordToken} (htoken : token ∈ tokens) :
    ∃ t ∈ surfaceFrom words i covered tokens,
      t.token = token.toToken ∧ (t.first : ℤ) = token.idFirst ∧ t.last = token.idLast := by
  induction words generalizing i covered tokens with
  | nil =>
    have := h.1 token htoken
    simp only [List.length_nil] at this
    omega
  | cons word words ih =>
    obtain ⟨hranges, hordered⟩ := h
    simp only [List.length_cons, Nat.cast_add, Nat.cast_one] at hranges
    have hnext : ∀ (covered : ℤ) (rest : List MultiwordToken),
        (∀ token' ∈ rest, (i : ℤ) < token'.idFirst ∧ covered < token'.idFirst ∧
          token'.idFirst ≤ token'.idLast ∧ token'.idLast < i + (words.length + 1)) →
        (rest.Pairwise fun token token' => token.idLast < token'.idFirst) →
        Within rest (i + 1) covered words.length := by
      intro covered rest hrest hpairs
      refine ⟨fun token' htoken' => ?_, hpairs⟩
      have := hrest token' htoken'
      omega
    rcases le_or_gt (i : ℤ) covered with hskip | hfree
    · rw [surfaceFrom_cons_covered hskip]
      refine ih (hnext covered tokens (fun token' htoken' => ?_) hordered) htoken
      have := hranges token' htoken'
      omega
    · by_cases hfirst : ∀ token ∈ tokens, (i : ℤ) < token.idFirst
      · rw [surfaceFrom_cons_word hfree hfirst]
        obtain ⟨t, ht, heq⟩ := ih (hnext covered tokens (fun token' htoken' => by
          have := hranges token' htoken'
          have := hfirst token' htoken'
          omega) hordered) htoken
        exact ⟨t, List.mem_cons_of_mem _ ht, heq⟩
      · cases tokens with
        | nil => cases htoken
        | cons head rest =>
          obtain ⟨hlt, hpairs⟩ := List.pairwise_cons.mp hordered
          obtain ⟨hthis, hothers⟩ := List.forall_mem_cons.mp hranges
          have heq : head.idFirst = i := by
            by_contra hne
            refine hfirst (List.forall_mem_cons.mpr ⟨by omega, fun token' htoken' => ?_⟩)
            have := hlt token' htoken'
            omega
          rw [surfaceFrom_cons_token hfree heq]
          rcases List.mem_cons.mp htoken with rfl | hrest
          · exact ⟨_, List.mem_cons_self, rfl, heq.symm, rfl⟩
          · obtain ⟨t, ht, hsame⟩ := ih (hnext head.idLast rest (fun token' htoken' => by
              have := hothers token' htoken'
              have := hlt token' htoken'
              omega) hpairs) hrest
            exact ⟨t, List.mem_cons_of_mem _ ht, hsame⟩

/-! ### The two texts -/

/-- Texts put together of pieces, none of which is longer in the first one, are equal if
and only if all the pieces are. -/
theorem flatMap_eq_flatMap_iff_of_length_le {α β : Type} {l : List α} {f g : α → List β}
    (h : ∀ a ∈ l, (f a).length ≤ (g a).length) :
    l.flatMap f = l.flatMap g ↔ ∀ a ∈ l, f a = g a := by
  have hlength : ∀ {l : List α}, (∀ a ∈ l, (f a).length ≤ (g a).length) →
      (l.flatMap f).length ≤ (l.flatMap g).length := by
    intro l hl
    induction l with
    | nil => exact le_rfl
    | cons a l ih =>
      obtain ⟨ha, hl⟩ := List.forall_mem_cons.mp hl
      rw [List.flatMap_cons, List.flatMap_cons, List.length_append, List.length_append]
      exact Nat.add_le_add ha (ih hl)
  induction l with
  | nil => simp
  | cons a l ih =>
    obtain ⟨ha, hl⟩ := List.forall_mem_cons.mp h
    rw [List.flatMap_cons, List.flatMap_cons, List.forall_mem_cons]
    constructor
    · intro heq
      have hsum := congrArg List.length heq
      rw [List.length_append, List.length_append] at hsum
      have hle := hlength hl
      obtain ⟨hpiece, hrest⟩ := List.append_inj heq (by omega)
      exact ⟨hpiece, (ih hl).mp hrest⟩
    · rintro ⟨hpiece, hrest⟩
      rw [hpiece, (ih hl).mpr hrest]

/-- With normalized spaces, no loop over white space is run. -/
theorem Plaintext.writeSentence_normalized {writer : Plaintext} (h : writer.normalized = true)
    (s : Sentence) (text : Bytes) :
    (writer.writeSentence s).Returns (text, { writer with empty := false }) ↔
      writer.blankLine s ++ s.lineText ++ [lf] = text := by
  simp [writeSentence, h]

/-- The comment and the line are compared without the other comments. -/
theorem textIsLine_addComments {writer : Plaintext} (h : writer.normalized = true) (s : Sentence)
    (newDocument : Bool) (documentId : Bytes) (preceedingNewlines sentenceId : ℕ) :
    TextIsLine (Tokenizer.Options.addComments s newDocument documentId preceedingNewlines
      sentenceId) writer ↔ s.surfaceText = s.lineText := by
  have hsame := Tokenizer.Options.sameNodes_addComments s newDocument documentId
    preceedingNewlines sentenceId
  have hline : (Tokenizer.Options.addComments s newDocument documentId preceedingNewlines
      sentenceId).lineText = s.lineText := by
    rw [Sentence.lineText, Sentence.lineText, hsame.surface, hsame.1]
  have hlast : (Tokenizer.Options.addComments s newDocument documentId preceedingNewlines
      sentenceId).comments.getLast? = some (bytes "# text = " ++ s.surfaceText) := by
    have hbefore : ∀ s' : Sentence, s'.SameNodes s → s'.surfaceText = s.surfaceText := by
      intro s' h'
      rw [Sentence.surfaceText, Sentence.surfaceText, h'.surface, h'.1]
    unfold Tokenizer.Options.addComments
    rw [List.getLast?_append_of_ne_nil _ (List.cons_ne_nil _ _), List.getLast?_singleton,
      hbefore]
    exact hsame
  simp only [TextIsLine, Plaintext.writeSentence_normalized h, hline, hlast]
  constructor
  · rintro ⟨line, hcomment, hwritten⟩
    obtain rfl := List.append_cancel_left (Option.some.inj hcomment)
    exact (List.append_cancel_left (List.append_cancel_right hwritten)).symm
  · intro heq
    exact ⟨s.surfaceText, rfl, by rw [heq]⟩

namespace OrderedMultiwords

variable {s : Sentence} (h : OrderedMultiwords s)

include h

/-- The multiword tokens are within the words. -/
private theorem within : Within s.multiwordTokens 1 0 (s.words.drop 1).length := by
  refine ⟨fun token htoken => ?_, h.ranges_ordered⟩
  have := h.ranges token htoken
  rw [List.length_drop]
  omega

/-- The words of a surface token lie within the sentence. -/
theorem first_le_last {t : SurfaceToken} (ht : t ∈ s.surface) :
    (t.first : ℤ) ≤ t.last ∧ t.first < s.words.length := by
  obtain ⟨hlt, hrange⟩ := range_of_mem_surfaceFrom ht
  rw [List.length_drop] at hlt
  have hpos : t.first < s.words.length ∨ s.words.length = 0 := by omega
  rcases hrange with hword | ⟨token, htoken, -, hfirst, hlast⟩
  · refine ⟨by omega, hpos.resolve_right fun hzero => ?_⟩
    rw [Sentence.surface, List.length_eq_zero_iff.mp hzero] at ht
    cases ht
  · have := h.ranges token htoken
    omega

/-- The writer puts a space after a token that the tokenizer has none after exactly when
the token covers the last word and others. -/
theorem surfaceText_eq_lineText_iff :
    s.surfaceText = s.lineText ↔ ¬ SpacedMultiwordAtEnd s := by
  have hpieces : ∀ t ∈ s.surface,
      t.token.form ++ (if t.last + 1 < (s.words.length : ℤ) && t.token.getSpaceAfter then [space]
        else []) =
      t.token.form ++ (if t.first + 1 < s.words.length && t.token.getSpaceAfter then [space]
        else []) ↔
      ¬ ((t.first : ℤ) + 1 < s.words.length ∧ (s.words.length : ℤ) ≤ t.last + 1 ∧
        t.token.getSpaceAfter = true) := by
    intro t ht
    obtain ⟨hle, -⟩ := h.first_le_last ht
    cases hspace : t.token.getSpaceAfter with
    | false => simp
    | true =>
      rcases le_or_gt (s.words.length : ℤ) (t.last + 1) with hend | hin
      · have hlast : ¬ t.last + 1 < (s.words.length : ℤ) := not_lt.mpr hend
        by_cases hfirst : t.first + 1 < s.words.length
        · have hcast : (t.first : ℤ) + 1 < s.words.length := by exact_mod_cast hfirst
          simp [hlast, hfirst, hend, hcast]
        · have hcast : ¬ (t.first : ℤ) + 1 < s.words.length := by exact_mod_cast hfirst
          simp [hlast, hfirst, hcast]
      · have hfirst : t.first + 1 < s.words.length := by omega
        simp [hin, hfirst]
  have hlength : ∀ t ∈ s.surface,
      (t.token.form ++ (if t.last + 1 < (s.words.length : ℤ) && t.token.getSpaceAfter then [space]
        else [])).length ≤
      (t.token.form ++ (if t.first + 1 < s.words.length && t.token.getSpaceAfter then [space]
        else [])).length := by
    intro t ht
    obtain ⟨hle, -⟩ := h.first_le_last ht
    have himp : t.last + 1 < (s.words.length : ℤ) → t.first + 1 < s.words.length := by omega
    cases t.token.getSpaceAfter <;> by_cases hlast : t.last + 1 < (s.words.length : ℤ) <;>
      simp [hlast, himp]
  rw [Sentence.surfaceText, Sentence.lineText, flatMap_eq_flatMap_iff_of_length_le hlength]
  constructor
  · rintro hall ⟨token, htoken, hfirst, hlast, hspace⟩
    obtain ⟨t, ht, heq, htfirst, htlast⟩ := exists_mem_surfaceFrom h.within htoken
    refine (hpieces t ht).mp (hall t ht) ⟨by omega, by omega, ?_⟩
    rw [heq]
    exact hspace
  · intro hnone t ht
    refine (hpieces t ht).mpr fun ⟨hfirst, hlast, hspace⟩ => hnone ?_
    obtain ⟨-, hword | ⟨token, htoken, heq, htfirst, htlast⟩⟩ := range_of_mem_surfaceFrom ht
    · omega
    · exact ⟨token, htoken, by omega, by omega, by rw [← heq]; exact hspace⟩

end OrderedMultiwords

/-- The comment of a tokenized sentence is the line that is written for it if and only if no
multiword token of several words ends the sentence with a space after it. -/
theorem textIsLine_iff {s : Sentence} (h : OrderedMultiwords s) {writer : Plaintext}
    (hwriter : writer.normalized = true) (newDocument : Bool) (documentId : Bytes)
    (preceedingNewlines sentenceId : ℕ) :
    TextIsLine (Tokenizer.Options.addComments s newDocument documentId preceedingNewlines
      sentenceId) writer ↔ ¬ SpacedMultiwordAtEnd s := by
  rw [textIsLine_addComments hwriter, h.surfaceText_eq_lineText_iff]

/-- A sentence with one multiword token of two words and a space after it. -/
def spacedMultiword : Sentence where
  words := [{ id := 0, form := bytes "<root>" }, { id := 1, form := bytes "de" },
    { id := 2, form := bytes "el" }]
  multiwordTokens := [{ form := bytes "del", idFirst := 1, idLast := 2 }]
  emptyNodes := []
  comments := []

/-- The multiword token is an ordered one. -/
theorem orderedMultiwords_spacedMultiword : OrderedMultiwords spacedMultiword where
  ranges := List.forall_mem_singleton.mpr ⟨by decide, by decide, by decide⟩
  ranges_ordered := List.pairwise_singleton _ _

/-- A sentence with a multiword token before its end. -/
theorem textIsLine_iff_spacedMultiword :
    TextIsLine (Tokenizer.Options.addComments spacedMultiword true [] 2 1) ⟨true, true⟩ ↔
      ¬ SpacedMultiwordAtEnd spacedMultiword :=
  textIsLine_iff orderedMultiwords_spacedMultiword rfl true [] 2 1

/-- A multiword token with spaces after it at the end. -/
theorem not_textIsLine_spacedMultiword :
    OrderedMultiwords spacedMultiword ∧
      ¬ TextIsLine (Tokenizer.Options.addComments spacedMultiword true [] 2 1) ⟨true, true⟩ := by
  refine ⟨orderedMultiwords_spacedMultiword, ?_⟩
  rw [textIsLine_addComments rfl]
  decide

end UDPipe
