import UDPipe.Comments
import UDPipe.Misc

/-!
# Surface tokens

The plain text of a sentence consists of its multiword tokens and of the words
that no multiword token covers. The loops of the writers and readers that go
over them are one function here, together with the index where each of the
tokens begins and ends.
-/

namespace UDPipe

/-- A surface token with the words it covers. -/
structure SurfaceToken where
  token : Token
  first : ℕ
  last : ℤ
  deriving DecidableEq, Repr

/-- The surface tokens from word `i` on; the words up to `covered` belong to a
multiword token before. Multiword tokens cover a word at least. -/
def surfaceFrom : List Word → ℕ → ℤ → List MultiwordToken → List SurfaceToken
  | [], _, _, _ => []
  | word :: words, i, covered, tokens =>
    if i ≤ covered then surfaceFrom words (i + 1) covered tokens
    else
      match tokens with
      | [] => ⟨word.toToken, i, i⟩ :: surfaceFrom words (i + 1) covered []
      | token :: rest =>
        if token.idFirst = i then
          ⟨token.toToken, i, token.idLast⟩ :: surfaceFrom words (i + 1) token.idLast rest
        else ⟨word.toToken, i, i⟩ :: surfaceFrom words (i + 1) covered (token :: rest)

/-- The surface tokens of a sentence. -/
def Sentence.surface (s : Sentence) : List SurfaceToken :=
  surfaceFrom (s.words.drop 1) 1 0 s.multiwordTokens

/-- A surface token is a word, or a multiword token that begins at a word. -/
theorem exists_of_mem_surfaceFrom {words : List Word} {i : ℕ} {covered : ℤ}
    {tokens : List MultiwordToken} {t : SurfaceToken} (h : t ∈ surfaceFrom words i covered tokens) :
    (∃ j word, words[j]? = some word ∧ t = ⟨word.toToken, i + j, ((i + j : ℕ) : ℤ)⟩) ∨
      ∃ j token, j < words.length ∧ token ∈ tokens ∧ token.idFirst = ((i + j : ℕ) : ℤ) ∧
        t = ⟨token.toToken, i + j, token.idLast⟩ := by
  induction words generalizing i covered tokens with
  | nil => cases tokens <;> cases h
  | cons word words ih =>
    have hword : t = ⟨word.toToken, i, i⟩ →
        ∃ j w, (word :: words)[j]? = some w ∧ t = ⟨w.toToken, i + j, ((i + j : ℕ) : ℤ)⟩ :=
      fun heq => ⟨0, word, rfl, heq⟩
    have hlater : ∀ {covered : ℤ} {rest : List MultiwordToken}, (∀ token ∈ rest, token ∈ tokens) →
        t ∈ surfaceFrom words (i + 1) covered rest →
        (∃ j w, (word :: words)[j]? = some w ∧ t = ⟨w.toToken, i + j, ((i + j : ℕ) : ℤ)⟩) ∨
          ∃ j token, j < (word :: words).length ∧ token ∈ tokens ∧
            token.idFirst = ((i + j : ℕ) : ℤ) ∧ t = ⟨token.toToken, i + j, token.idLast⟩ := by
      intro covered rest hrest hmem
      have hindex : ∀ j, i + 1 + j = i + (j + 1) := fun j => by omega
      rcases ih hmem with ⟨j, w, hw, heq⟩ | ⟨j, token, hj, htoken, hfirst, heq⟩
      · exact .inl ⟨j + 1, w, hw, hindex j ▸ heq⟩
      · exact .inr ⟨j + 1, token, Nat.succ_lt_succ hj, hrest token htoken, hindex j ▸ hfirst,
          hindex j ▸ heq⟩
    cases tokens with
    | nil =>
      simp only [surfaceFrom] at h
      split at h
      · exact hlater (fun _ hm => hm) h
      · rcases List.mem_cons.mp h with heq | h
        · exact .inl (hword heq)
        · exact hlater (fun _ hm => hm) h
    | cons token rest =>
      simp only [surfaceFrom] at h
      split_ifs at h with _ hfirst
      · exact hlater (fun _ hm => hm) h
      · rcases List.mem_cons.mp h with heq | h
        · exact .inr ⟨0, token, Nat.succ_pos _, List.mem_cons_self, hfirst, heq⟩
        · exact hlater (fun _ hm => List.mem_cons_of_mem token hm) h
      · rcases List.mem_cons.mp h with heq | h
        · exact .inl (hword heq)
        · exact hlater (fun _ hm => hm) h

/-- The token of a surface token is one of the words or of the multiword tokens. -/
theorem mem_surfaceFrom {words : List Word} {i : ℕ} {covered : ℤ} {tokens : List MultiwordToken}
    {t : SurfaceToken} (h : t ∈ surfaceFrom words i covered tokens) :
    (∃ word ∈ words, t.token = word.toToken) ∨ ∃ token ∈ tokens, t.token = token.toToken := by
  rcases exists_of_mem_surfaceFrom h with ⟨j, word, hword, rfl⟩ | ⟨j, token, -, htoken, -, rfl⟩
  · exact .inl ⟨word, List.mem_of_getElem? hword, rfl⟩
  · exact .inr ⟨token, htoken, rfl⟩

/-- Comments do not change the surface tokens. -/
theorem Sentence.SameNodes.surface {s s' : Sentence} (h : s.SameNodes s') :
    s.surface = s'.surface := by
  rw [Sentence.surface, Sentence.surface, h.1, h.2.1]

/-- The text that the readers store in the comment `# text`. -/
def Sentence.surfaceText (s : Sentence) : Bytes :=
  s.surface.flatMap fun t =>
    t.token.form ++
      if t.last + 1 < (s.words.length : ℤ) && t.token.getSpaceAfter then [space] else []

/-! ### Writing plain text -/

/-- The class `output_format_plaintext`. -/
structure Plaintext where
  normalized : Bool
  empty : Bool := true
  deriving DecidableEq, Repr

/-- Write a token with the white space around it. -/
def Token.writePlainText (tok : Token) : Comp Bytes := do
  let before ← tok.getSpacesBefore
  let inToken ← tok.getSpacesInToken
  let after ← tok.getSpacesAfter
  pure (before ++ (if inToken = [] then tok.form else inToken) ++ after)

/-- The loop over the surface tokens with the original white space. -/
def writePlainTexts : List Token → Comp Bytes
  | [] => pure []
  | tok :: toks => do
    let text ← tok.writePlainText
    let rest ← writePlainTexts toks
    pure (text ++ rest)

/-- The empty line that the writer puts between paragraphs. -/
def Plaintext.blankLine (writer : Plaintext) (s : Sentence) : Bytes :=
  if !writer.empty && (s.getNewDoc || s.getNewPar) then [lf] else []

/-- The text of the line that the writer makes of a sentence with normalized spaces. -/
def Sentence.lineText (s : Sentence) : Bytes :=
  s.surface.flatMap fun t =>
    t.token.form ++ if t.first + 1 < s.words.length && t.token.getSpaceAfter then [space] else []

/-- `output_format_plaintext::write_sentence`. -/
def Plaintext.writeSentence (writer : Plaintext) (s : Sentence) : Comp (Bytes × Plaintext) := do
  let text ←
    if writer.normalized then pure (writer.blankLine s ++ s.lineText ++ [lf])
    else writePlainTexts (s.surface.map SurfaceToken.token)
  pure (text, { writer with empty := false })

/-- The text written for several sentences. -/
def Plaintext.writeSentences : Plaintext → List Sentence → Comp Bytes
  | _, [] => pure []
  | writer, s :: sentences => do
    let (text, writer) ← writer.writeSentence s
    let rest ← writer.writeSentences sentences
    pure (text ++ rest)

/-- The text of a token with the white space around it. -/
def Token.plainText (tok : Token) : Bytes :=
  tok.spacesBefore ++
    (if tok.spacesInToken = [] then tok.form else tok.spacesInToken) ++ tok.spacesAfter

/-- The text of a sentence with the original white space. -/
def Sentence.plainText (s : Sentence) : Bytes := s.surface.flatMap fun t => t.token.plainText

/-- A token is written exactly if its getters return. -/
theorem Token.returns_writePlainText {tok : Token} {text : Bytes} :
    tok.writePlainText.Returns text ↔ tok.Readable ∧ text = tok.plainText := by
  simp only [writePlainText, Comp.returns_bind, getSpacesBefore, getSpacesInToken,
    getSpacesAfter, returns_getEscapedField, Comp.returns_pure, Readable]
  constructor
  · rintro ⟨_, ⟨hbefore, rfl⟩, _, ⟨hin, rfl⟩, _, ⟨hafter, rfl⟩, rfl⟩
    exact ⟨⟨hbefore, hin, hafter⟩, rfl⟩
  · rintro ⟨⟨hbefore, hin, hafter⟩, rfl⟩
    exact ⟨_, ⟨hbefore, rfl⟩, _, ⟨hin, rfl⟩, _, ⟨hafter, rfl⟩, rfl⟩

/-- The texts of tokens are written one after the other, if they can be read. -/
theorem returns_writePlainTexts {toks : List Token} {text : Bytes} :
    (writePlainTexts toks).Returns text ↔
      (∀ tok ∈ toks, tok.Readable) ∧ text = toks.flatMap Token.plainText := by
  induction toks generalizing text with
  | nil => simp [writePlainTexts, eq_comm]
  | cons tok toks ih =>
    simp only [writePlainTexts, Comp.returns_bind, Token.returns_writePlainText, ih,
      Comp.returns_pure, List.forall_mem_cons, List.flatMap_cons]
    constructor
    · rintro ⟨_, ⟨htok, rfl⟩, _, ⟨htoks, rfl⟩, rfl⟩
      exact ⟨⟨htok, htoks⟩, rfl⟩
    · rintro ⟨⟨htok, htoks⟩, rfl⟩
      exact ⟨_, ⟨htok, rfl⟩, _, ⟨htoks, rfl⟩, rfl⟩

/-- With the original white space, the sentences are written one after the other. -/
theorem Plaintext.returns_writeSentences {writer : Plaintext} (h : writer.normalized = false)
    {sentences : List Sentence} {text : Bytes} :
    (writer.writeSentences sentences).Returns text ↔
      (∀ s ∈ sentences, ∀ t ∈ s.surface, t.token.Readable) ∧
        text = sentences.flatMap Sentence.plainText := by
  induction sentences generalizing writer text with
  | nil => simp [writeSentences, eq_comm]
  | cons s sentences ih =>
    obtain ⟨normalized, empty⟩ := writer
    obtain rfl : normalized = false := h
    have hih := @ih ⟨false, false⟩ rfl
    simp only [writeSentences, writeSentence, Bool.false_eq_true, if_false, Comp.returns_bind,
      returns_writePlainTexts, Comp.returns_pure, List.forall_mem_cons, List.flatMap_cons,
      List.forall_mem_map, List.flatMap_map]
    constructor
    · rintro ⟨_, ⟨_, ⟨htoks, rfl⟩, rfl⟩, _, hrest, rfl⟩
      obtain ⟨hreadable, rfl⟩ := hih.mp hrest
      exact ⟨⟨htoks, hreadable⟩, rfl⟩
    · rintro ⟨⟨htoks, hrest⟩, rfl⟩
      exact ⟨_, ⟨_, ⟨htoks, rfl⟩, rfl⟩, _, hih.mpr ⟨hrest, rfl⟩, rfl⟩

/-! ### Numbered sentences -/

/-- A sentence as tokenizers deliver it: its words are numbered, and its multiword
tokens are ordered ranges of them. -/
structure Tokenized (s : Sentence) : Prop where
  nonempty : s.words ≠ []
  ids : ∀ (i : ℕ) (word : Word), s.words[i]? = some word → word.id = i
  ranges : ∀ token ∈ s.multiwordTokens,
    1 ≤ token.idFirst ∧ token.idFirst ≤ token.idLast ∧ token.idLast < s.words.length
  ranges_ordered : s.multiwordTokens.Pairwise fun token token' => token.idLast < token'.idFirst

/-- A cleared sentence has only its root. -/
theorem tokenized_clear : Tokenized Sentence.clear where
  nonempty := List.cons_ne_nil _ _
  ids i word h := by
    cases i with
    | zero =>
      obtain rfl := Option.some.inj h
      rfl
    | succ i => simp at h
  ranges _ h := by cases h
  ranges_ordered := .nil

/-- A word inside the last multiword token is not on the surface. -/
theorem surfaceFrom_cons_covered {i : ℕ} {covered : ℤ} (h : (i : ℤ) ≤ covered) (word : Word)
    (words : List Word) (tokens : List MultiwordToken) :
    surfaceFrom (word :: words) i covered tokens = surfaceFrom words (i + 1) covered tokens := by
  cases tokens <;> simp [surfaceFrom, h]

/-- A word before the next multiword token is on the surface. -/
theorem surfaceFrom_cons_word {i : ℕ} {covered : ℤ} {tokens : List MultiwordToken}
    (h : covered < i) (htokens : ∀ token ∈ tokens, (i : ℤ) < token.idFirst) (word : Word)
    (words : List Word) :
    surfaceFrom (word :: words) i covered tokens =
      ⟨word.toToken, i, i⟩ :: surfaceFrom words (i + 1) covered tokens := by
  cases tokens with
  | nil => simp [surfaceFrom, not_le_of_gt h]
  | cons token rest =>
    have hne := ne_of_gt (htokens token List.mem_cons_self)
    simp [surfaceFrom, not_le_of_gt h, hne]

/-- A multiword token stands at its first word, in place of its words. -/
theorem surfaceFrom_cons_token {i : ℕ} {covered : ℤ} {token : MultiwordToken} (h : covered < i)
    (hfirst : token.idFirst = i) (word : Word) (words : List Word) (tokens : List MultiwordToken) :
    surfaceFrom (word :: words) i covered (token :: tokens) =
      ⟨token.toToken, i, token.idLast⟩ :: surfaceFrom words (i + 1) token.idLast tokens := by
  simp [surfaceFrom, not_le_of_gt h, hfirst]

/-- Tokens that begin at word `i` or later, after the covered words, within `count` words. -/
def Within (tokens : List MultiwordToken) (i : ℕ) (covered : ℤ) (count : ℕ) : Prop :=
  (∀ token ∈ tokens, (i : ℤ) ≤ token.idFirst ∧ covered < token.idFirst ∧
    token.idFirst ≤ token.idLast ∧ token.idLast < i + count) ∧
  tokens.Pairwise fun token token' => token.idLast < token'.idFirst

/-- The surface tokens of words and of more words after them. -/
theorem surfaceFrom_append {words : List Word} {i : ℕ} {covered : ℤ} {tokens : List MultiwordToken}
    (hwithin : Within tokens i covered words.length) (hcovered : covered < i + words.length)
    (words' : List Word) {tokens' : List MultiwordToken}
    (hafter : ∀ token ∈ tokens', (i + words.length : ℤ) ≤ token.idFirst) :
    ∃ covered' : ℤ, covered' < i + words.length ∧
      surfaceFrom (words ++ words') i covered (tokens ++ tokens') =
        surfaceFrom words i covered tokens ++
          surfaceFrom words' (i + words.length) covered' tokens' := by
  induction words generalizing i covered tokens with
  | nil =>
    have htokens : tokens = [] := by
      refine List.eq_nil_iff_forall_not_mem.mpr fun token htoken => ?_
      have := hwithin.1 token htoken
      simp only [List.length_nil] at this
      omega
    subst htokens
    exact ⟨covered, hcovered, rfl⟩
  | cons word words ih =>
    obtain ⟨hranges, hordered⟩ := hwithin
    simp only [List.length_cons, Nat.cast_add, Nat.cast_one] at hranges hcovered hafter
    have hlength : i + (word :: words).length = i + 1 + words.length := by
      rw [List.length_cons]
      omega
    have hcast : ((i + 1 : ℕ) : ℤ) + words.length = i + (words.length + 1) := by omega
    have hafter' : ∀ token ∈ tokens', ((i + 1 : ℕ) : ℤ) + words.length ≤ token.idFirst := by
      rw [hcast]
      exact hafter
    -- the rest of the words, with the tokens that begin there
    have hrest : ∀ (covered : ℤ) (tokens : List MultiwordToken),
        covered < i + (words.length + 1) →
        (∀ token ∈ tokens, (i : ℤ) < token.idFirst ∧ covered < token.idFirst ∧
          token.idFirst ≤ token.idLast ∧ token.idLast < i + (words.length + 1)) →
        (tokens.Pairwise fun token token' => token.idLast < token'.idFirst) →
        ∃ covered' : ℤ, covered' < i + (words.length + 1) ∧
          surfaceFrom (words ++ words') (i + 1) covered (tokens ++ tokens') =
            surfaceFrom words (i + 1) covered tokens ++
              surfaceFrom words' (i + 1 + words.length) covered' tokens' := by
      intro covered tokens hcovered hranges hordered
      have hwithin : Within tokens (i + 1) covered words.length := by
        refine ⟨fun token htoken => ?_, hordered⟩
        have := hranges token htoken
        omega
      obtain ⟨covered', hlt, heq⟩ := ih hwithin (by omega) hafter'
      exact ⟨covered', by omega, heq⟩
    rw [hlength, List.cons_append, List.length_cons, Nat.cast_add, Nat.cast_one]
    rcases le_or_gt (i : ℤ) covered with hskip | hfree
    · rw [surfaceFrom_cons_covered hskip, surfaceFrom_cons_covered hskip]
      refine hrest covered tokens hcovered (fun token htoken => ?_) hordered
      have := hranges token htoken
      omega
    · by_cases hfirst : ∀ token ∈ tokens, (i : ℤ) < token.idFirst
      · rw [surfaceFrom_cons_word hfree hfirst, surfaceFrom_cons_word hfree]
        · obtain ⟨covered', hlt, heq⟩ := hrest covered tokens hcovered (fun token htoken => by
            have := hranges token htoken
            have := hfirst token htoken
            omega) hordered
          exact ⟨covered', hlt, by rw [heq, List.cons_append]⟩
        · refine List.forall_mem_append.mpr ⟨hfirst, fun token htoken => ?_⟩
          have := hafter token htoken
          omega
      · cases tokens with
        | nil => exact absurd (by simp) hfirst
        | cons token rest =>
          obtain ⟨hthis, hothers⟩ := List.forall_mem_cons.mp hranges
          obtain ⟨hlt, hordered'⟩ := List.pairwise_cons.mp hordered
          have heq : token.idFirst = i := by
            by_contra hne
            refine hfirst (List.forall_mem_cons.mpr ⟨by omega, fun token' htoken' => ?_⟩)
            have := hlt token' htoken'
            omega
          rw [List.cons_append, surfaceFrom_cons_token hfree heq, surfaceFrom_cons_token hfree heq]
          obtain ⟨covered', hlt', hsurface⟩ := hrest token.idLast rest (by omega)
            (fun token' htoken' => by
              have := hothers token' htoken'
              have := hlt token' htoken'
              omega) hordered'
          exact ⟨covered', hlt', by rw [hsurface, List.cons_append]⟩

/-- A multiword token leaves no other surface token among its words. -/
theorem surfaceFrom_of_covered {words : List Word} {i : ℕ} {covered : ℤ}
    (h : (i : ℤ) + words.length ≤ covered + 1) (tokens : List MultiwordToken) :
    surfaceFrom words i covered tokens = [] := by
  induction words generalizing i with
  | nil => rfl
  | cons word words ih =>
    rw [List.length_cons] at h
    rw [surfaceFrom_cons_covered (by omega), ih (by omega)]

namespace Tokenized

variable {s : Sentence} (h : Tokenized s)

include h

/-- New words with their tokens come behind the surface of the others. -/
private theorem surface_append (words : List Word) {tokens : List MultiwordToken}
    (hafter : ∀ token ∈ tokens, (s.words.length : ℤ) ≤ token.idFirst) :
    ∃ covered < (s.words.length : ℤ), Sentence.surface { s with
        words := s.words ++ words
        multiwordTokens := s.multiwordTokens ++ tokens } =
      s.surface ++ surfaceFrom words s.words.length covered tokens := by
  have hpos : 0 < s.words.length := List.length_pos_iff.mpr h.nonempty
  have hlength : 1 + (s.words.drop 1).length = s.words.length := by
    rw [List.length_drop]
    omega
  have hcast : ((1 : ℕ) : ℤ) + ((s.words.drop 1).length : ℕ) = (s.words.length : ℕ) := by
    exact_mod_cast hlength
  have hwithin : Within s.multiwordTokens 1 0 (s.words.drop 1).length := by
    refine ⟨fun token htoken => ?_, h.ranges_ordered⟩
    have := h.ranges token htoken
    omega
  obtain ⟨covered, hlt, heq⟩ := surfaceFrom_append hwithin (by omega) words
    (fun token htoken => by rw [hcast]; exact hafter token htoken)
  rw [hcast] at hlt
  refine ⟨covered, hlt, ?_⟩
  rw [Sentence.surface, Sentence.surface, List.drop_append_of_le_length hpos, heq, hlength]

/-- New words with their tokens keep a sentence a tokenized one. -/
private theorem append {words : List Word} {tokens : List MultiwordToken}
    (hids : ∀ (k : ℕ) (word : Word), words[k]? = some word → word.id = (s.words.length + k : ℕ))
    (hwithin : Within tokens s.words.length 0 words.length) :
    Tokenized { s with
      words := s.words ++ words
      multiwordTokens := s.multiwordTokens ++ tokens } := by
  have hpos : 0 < s.words.length := List.length_pos_iff.mpr h.nonempty
  refine ⟨by simp [h.nonempty], fun i word hi => ?_, fun token htoken => ?_,
    List.pairwise_append.mpr ⟨h.ranges_ordered, hwithin.2, fun token htoken token' htoken' => ?_⟩⟩
  · rw [List.getElem?_append] at hi
    split at hi
    · exact h.ids i word hi
    · have := hids _ word hi
      omega
  · rw [List.length_append]
    rcases List.mem_append.mp htoken with hold | hnew
    · have := h.ranges token hold
      omega
    · have := hwithin.1 token hnew
      omega
  · have := h.ranges token htoken
    have := hwithin.1 token' htoken'
    omega

/-- A word that is added is a surface token, and the sentence stays numbered. -/
theorem addWord (form : Bytes) (fill : Word → Word) (hfill : ∀ w, (fill w).id = w.id) :
    Tokenized (s.addWord form fill) ∧
      (s.addWord form fill).surface = s.surface ++
        [⟨(fill { id := s.words.length, form }).toToken, s.words.length, s.words.length⟩] := by
  have hsame : s.addWord form fill =
      { s with
        words := s.words ++ [fill { id := s.words.length, form }]
        multiwordTokens := s.multiwordTokens ++ [] } := by
    rw [List.append_nil]
    rfl
  rw [hsame]
  constructor
  · refine h.append (fun k word hk => ?_) ⟨by simp, .nil⟩
    cases k with
    | zero =>
      obtain rfl := Option.some.inj hk
      exact hfill _
    | succ k => simp at hk
  · obtain ⟨covered, hlt, hsurface⟩ := h.surface_append
      [fill { id := s.words.length, form }] (List.forall_mem_nil _)
    rw [hsurface, surfaceFrom_cons_word hlt (List.forall_mem_nil _)]
    rfl

/-- A multiword token that is added with its words is one surface token. -/
theorem addMultiword {word : Word} {words : List Word} {token : MultiwordToken}
    (hids : ∀ (k : ℕ) (w : Word), (word :: words)[k]? = some w →
      w.id = (s.words.length + k : ℕ))
    (hfirst : token.idFirst = s.words.length)
    (hlast : token.idLast = s.words.length + words.length) :
    Tokenized { s with
        words := s.words ++ word :: words
        multiwordTokens := s.multiwordTokens ++ [token] } ∧
      Sentence.surface { s with
        words := s.words ++ word :: words
        multiwordTokens := s.multiwordTokens ++ [token] } =
        s.surface ++ [⟨token.toToken, s.words.length, token.idLast⟩] := by
  have hpos : 0 < s.words.length := List.length_pos_iff.mpr h.nonempty
  constructor
  · refine h.append hids ⟨List.forall_mem_singleton.mpr ?_, List.pairwise_singleton _ _⟩
    rw [List.length_cons]
    omega
  · obtain ⟨covered, hlt, hsurface⟩ := h.surface_append (word :: words)
      (List.forall_mem_singleton.mpr (by omega) : ∀ t ∈ [token], _ ≤ t.idFirst)
    rw [hsurface, surfaceFrom_cons_token hlt hfirst, surfaceFrom_of_covered]
    omega

end Tokenized

end UDPipe
