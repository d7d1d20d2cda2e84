import UDPipe.Conllu.Accepted
import UDPipe.Conllu.Termination

/-!
# Well-formed sentences

Everything the line loop has read is well formed: words are numbered and not
linked yet, multiword ranges follow each other and begin at a word that comes
next at the latest, empty nodes are numbered within their word. Each line keeps
this invariant, and the end of a call turns it into a linked sentence.
-/

namespace UDPipe.Conllu

/-! ### Parts of a sentence -/

/-- The fields of a word other than its number and its links. -/
structure WordFields (version : ℕ) (word : Word) : Prop where
  form : FormField version word.form
  «lemma» : FormField version word.lemma
  tags : ∀ field ∈ [word.upostag, word.xpostag, word.feats, word.deprel, word.deps], TagField field
  misc : MiscField version word.misc
  head : -1 ≤ word.head ∧ word.head ≤ intMax

/-- The fields of a multiword token other than its range. -/
structure MultiwordFields (version : ℕ) (token : MultiwordToken) : Prop where
  form : FormField version token.form
  misc : MiscField version token.misc
  feats : token.feats = [] ∨ (2 ≤ version ∧ token.feats = bytes "Typo=Yes")

/-- The fields of an empty node other than its number. -/
structure EmptyNodeFields (version : ℕ) (node : EmptyNode) : Prop where
  form : FormField version node.form
  «lemma» : FormField version node.lemma
  tags : ∀ field ∈ [node.upostag, node.xpostag, node.feats, node.deps], TagField field
  misc : MiscField version node.misc

/-- Empty nodes each of which may follow those before it. -/
inductive Numbered : List EmptyNode → Prop
  | nil : Numbered []
  | snoc {nodes : List EmptyNode} {node : EmptyNode} : Numbered nodes →
      emptyNodeFollows nodes node.id node.index = true → Numbered (nodes ++ [node])

/-- A comment line. -/
def IsComment (comment : Bytes) : Prop :=
  comment.head? = some hash ∧ ∀ c ∈ comment, isLineEnd c = false

/-- The words the line loop has read: the root, then numbered words without links. -/
structure ValidWords (version : ℕ) (words : List Word) : Prop where
  root : words.head? = some Sentence.rootWord
  unlinked : Unlinked words
  length_le : (words.length : ℤ) ≤ intMax + 1
  fields : ∀ word ∈ words.tail, WordFields version word

/-- The multiword tokens the line loop has read before the word at index `next`. -/
structure ValidMultiwordTokens (version : ℕ) (tokens : List MultiwordToken) (next : ℤ) : Prop where
  fields : ∀ token ∈ tokens, MultiwordFields version token
  range : ∀ token ∈ tokens, 1 ≤ token.idFirst ∧ token.idFirst ≤ token.idLast
  bounds : ∀ token ∈ tokens, token.idFirst ≤ next ∧ token.idLast ≤ intMax
  ordered : tokens.Pairwise fun token token' => token.idLast < token'.idFirst

/-- The empty nodes the line loop has read before the word at index `next`. -/
structure ValidEmptyNodes (version : ℕ) (nodes : List EmptyNode) (next : ℤ) : Prop where
  fields : ∀ node ∈ nodes, EmptyNodeFields version node
  numbered : Numbered nodes
  bounds : ∀ node ∈ nodes, 0 ≤ node.id ∧ node.id < next ∧ node.index ≤ intMax
  version : nodes ≠ [] → 2 ≤ version

/-- The last word of the last multiword token, or zero. -/
def lastCovered (tokens : List MultiwordToken) : ℤ :=
  (tokens.getLast?.map fun token => token.idLast).getD 0

/-- The invariant of the line loop. -/
structure LineState.Valid (version : ℕ) (st : LineState) : Prop where
  words : ValidWords version st.sentence.words
  multiwordTokens :
    ValidMultiwordTokens version st.sentence.multiwordTokens st.sentence.words.length
  emptyNodes : ValidEmptyNodes version st.sentence.emptyNodes st.sentence.words.length
  comments : ∀ comment ∈ st.sentence.comments, IsComment comment
  last : st.lastMultiwordToken = lastCovered st.sentence.multiwordTokens

/-- Valid words have a root. -/
theorem ValidWords.length_pos {version : ℕ} {words : List Word} (h : ValidWords version words) :
    0 < words.length := by
  cases words with
  | nil => simpa using h.root
  | cons word words => simp

/-- A word is the root or has the fields of a word. -/
theorem ValidWords.root_or_fields {version : ℕ} {words : List Word} (h : ValidWords version words)
    {word : Word} (hword : word ∈ words) :
    word = Sentence.rootWord ∨ WordFields version word := by
  cases words with
  | nil => simp at hword
  | cons first rest =>
    rcases List.mem_cons.mp hword with rfl | hrest
    · exact Or.inl (Option.some.inj h.root)
    · exact Or.inr (h.fields word hrest)

/-- Without multiword tokens no word is covered. -/
@[simp] theorem lastCovered_nil : lastCovered [] = 0 := rfl

/-- The last multiword token covers the last words. -/
@[simp] theorem lastCovered_snoc (tokens : List MultiwordToken) (token : MultiwordToken) :
    lastCovered (tokens ++ [token]) = token.idLast := by
  simp [lastCovered]

/-- In an ordered list of ranges the last one ends last. -/
theorem ValidMultiwordTokens.idLast_le {version : ℕ} {tokens : List MultiwordToken} {next : ℤ}
    (h : ValidMultiwordTokens version tokens next) {token : MultiwordToken} (ht : token ∈ tokens) :
    token.idLast ≤ lastCovered tokens := by
  obtain ⟨before, last, rfl⟩ : ∃ before last, tokens = before ++ [last] :=
    ⟨_, _, (List.dropLast_append_getLast (List.ne_nil_of_mem ht)).symm⟩
  rw [lastCovered_snoc]
  rcases List.mem_append.mp ht with hbefore | hlast
  · have horder := (List.pairwise_append.mp h.ordered).2.2 token hbefore last (by simp)
    have := (h.range last (by simp)).2
    omega
  · exact (List.mem_singleton.mp hlast ▸ le_rfl)

/-! ### One line keeps the invariant -/

/-- The state before the first line is valid. -/
theorem valid_init (version : ℕ) : LineState.init.Valid version where
  words :=
    { root := rfl
      unlinked := by
        intro i w hw
        cases i with
        | zero =>
          obtain rfl : Sentence.rootWord = w := by simpa [LineState.init] using hw
          exact ⟨rfl, rfl⟩
        | succ i => simp [LineState.init, Sentence.clear] at hw
      length_le := by decide
      fields := by simp [LineState.init, Sentence.clear] }
  multiwordTokens := by constructor <;> simp [LineState.init, Sentence.clear]
  emptyNodes :=
    { fields := by simp [LineState.init, Sentence.clear]
      numbered := .nil
      bounds := by simp [LineState.init, Sentence.clear]
      version := by simp [LineState.init, Sentence.clear] }
  comments := by simp [LineState.init, Sentence.clear]
  last := rfl

/-- Multiword tokens before a word are before the next one. -/
theorem ValidMultiwordTokens.mono {version : ℕ} {tokens : List MultiwordToken} {next next' : ℤ}
    (hle : next ≤ next') (h : ValidMultiwordTokens version tokens next) :
    ValidMultiwordTokens version tokens next' :=
  { h with bounds := fun token ht =>
      ⟨(h.bounds token ht).1.trans hle, (h.bounds token ht).2⟩ }

/-- Empty nodes before a word are before the next one. -/
theorem ValidEmptyNodes.mono {version : ℕ} {nodes : List EmptyNode} {next next' : ℤ}
    (hle : next ≤ next') (h : ValidEmptyNodes version nodes next) :
    ValidEmptyNodes version nodes next' :=
  { h with bounds := fun node hn =>
      ⟨(h.bounds node hn).1, (h.bounds node hn).2.1.trans_le hle, (h.bounds node hn).2.2⟩ }

/-- One more word that has the next number and no links. -/
theorem valid_addWord {version : ℕ} {st : LineState} {word : Word} (h : st.Valid version)
    (hid : word.id = st.sentence.words.length) (hchildren : word.children = [])
    (hmax : word.id ≤ intMax) (hfields : WordFields version word) :
    (st.addWord word).Valid version := by
  have hpos := h.words.length_pos
  have hlength : ((st.addWord word).sentence.words.length : ℤ) = st.sentence.words.length + 1 := by
    simp [LineState.addWord]
  refine ⟨?_, ?_, ?_, h.comments, h.last⟩
  · refine ⟨?_, ?_, by omega, ?_⟩
    · simp [LineState.addWord, List.head?_append, h.words.root]
    · intro i w hw
      simp only [LineState.addWord, List.getElem?_append] at hw
      split at hw
      · exact h.words.unlinked i w hw
      · rename_i hi
        have hzero : i - st.sentence.words.length = 0 := by
          have := (List.getElem?_eq_some_iff.mp hw).1
          simp at this
          omega
        rw [hzero] at hw
        obtain rfl : word = w := by simpa using hw
        exact ⟨by omega, hchildren⟩
    · intro w hw
      rw [LineState.addWord, List.tail_append_of_ne_nil (List.ne_nil_of_length_pos hpos)] at hw
      rcases List.mem_append.mp hw with hw | hw
      · exact h.words.fields w hw
      · exact List.mem_singleton.mp hw ▸ hfields
  · exact h.multiwordTokens.mono (by omega)
  · exact h.emptyNodes.mono (by omega)

/-- One more multiword token that begins at the next word. -/
theorem valid_addMultiwordToken {version : ℕ} {st : LineState} {token : MultiwordToken}
    (h : st.Valid version) (hfirst : token.idFirst = st.sentence.words.length)
    (hrange : token.idFirst ≤ token.idLast) (hmax : token.idLast ≤ intMax)
    (hprevious : st.lastMultiwordToken < token.idFirst) (hfields : MultiwordFields version token) :
    (st.addMultiwordToken token).Valid version := by
  have hpos := h.words.length_pos
  refine ⟨h.words, ?_, h.emptyNodes, h.comments, (lastCovered_snoc _ _).symm⟩
  refine ⟨?_, ?_, ?_, ?_⟩ <;> dsimp only [LineState.addMultiwordToken]
  · simp only [List.forall_mem_append, List.forall_mem_singleton]
    exact ⟨h.multiwordTokens.fields, hfields⟩
  · simp only [List.forall_mem_append, List.forall_mem_singleton]
    exact ⟨h.multiwordTokens.range, by omega, hrange⟩
  · simp only [List.forall_mem_append, List.forall_mem_singleton]
    exact ⟨h.multiwordTokens.bounds, by omega, hmax⟩
  · refine List.pairwise_append.mpr ⟨h.multiwordTokens.ordered, List.pairwise_singleton _ _, ?_⟩
    simp only [List.forall_mem_singleton]
    intro token' ht
    have := h.multiwordTokens.idLast_le ht
    have := h.last
    omega

/-- One more empty node that follows the others. -/
theorem valid_addEmptyNode {version : ℕ} {st : LineState} {node : EmptyNode}
    (h : st.Valid version) (hversion : 2 ≤ version) (hid : node.id = st.sentence.words.length - 1)
    (hmax : node.index ≤ intMax)
    (hfollows : emptyNodeFollows st.sentence.emptyNodes node.id node.index = true)
    (hfields : EmptyNodeFields version node) : (st.addEmptyNode node).Valid version := by
  have hpos := h.words.length_pos
  refine ⟨h.words, h.multiwordTokens, ?_, h.comments, h.last⟩
  refine ⟨?_, .snoc h.emptyNodes.numbered hfollows, ?_, fun _ => hversion⟩ <;>
    dsimp only [LineState.addEmptyNode]
  · simp only [List.forall_mem_append, List.forall_mem_singleton]
    exact ⟨h.emptyNodes.fields, hfields⟩
  · simp only [List.forall_mem_append, List.forall_mem_singleton]
    exact ⟨h.emptyNodes.bounds, by omega, by omega, hmax⟩

/-- The columns that are kept have no spaces where they are not allowed. -/
private theorem spacedField_of_mem {version : ℕ} {row : Row}
    (hclean : ∀ token ∈ row.tokens, Clean token) (hchecked : row.Checked version) :
    SpacedField version row.form ∧ SpacedField version row.lemma ∧ SpacedField version row.misc := by
  have hspace : version < 2 → _ := hchecked.no_space_v1
  simp only [List.forall_mem_cons] at hspace
  refine ⟨⟨hclean _ (by simp [Row.tokens]), fun hv => (hspace hv).1⟩,
    ⟨hclean _ (by simp [Row.tokens]), fun hv => (hspace hv).2.1⟩,
    ⟨hclean _ (by simp [Row.tokens]), fun hv => (hspace hv).2.2.1⟩⟩

/-- The form and the lemma are those of a checked row. -/
private theorem formField_of_row {version : ℕ} {row : Row}
    (hclean : ∀ token ∈ row.tokens, Clean token) (hchecked : row.Checked version) :
    FormField version row.form ∧ FormField version row.lemma := by
  obtain ⟨hform, hlemma, _⟩ := spacedField_of_mem hclean hchecked
  exact ⟨⟨hform, hchecked.ne_nil _ (by simp [Row.tokens])⟩,
    ⟨hlemma, hchecked.ne_nil _ (by simp [Row.tokens])⟩⟩

/-- The tag columns of a checked row give tag fields. -/
private theorem tagField_of_row {version : ℕ} {row : Row}
    (hclean : ∀ token ∈ row.tokens, Clean token) (hchecked : row.Checked version) {token : Bytes}
    (h : token ∈ [row.upostag, row.xpostag, row.feats, row.deprel, row.deps]) :
    TagField (unlessUnderscore token) := by
  refine tagField_unlessUnderscore (hclean token ?_) (hchecked.no_space token ?_)
  · simp only [List.mem_cons, List.not_mem_nil, or_false] at h
    rcases h with rfl | rfl | rfl | rfl | rfl <;> simp [Row.tokens]
  · simp only [List.mem_cons, List.not_mem_nil, or_false] at h
    rcases h with rfl | rfl | rfl | rfl | rfl <;> simp

/-- The row of a line that the reader accepts extends a valid state. -/
theorem valid_handleRow {version : ℕ} {line : Bytes} {st st' : LineState}
    (hline : ∀ c ∈ line, isLineEnd c = false) (hvalid : st.Valid version)
    (h : handleRow version line st = .ok st') : st'.Valid version := by
  have hpos := hvalid.words.length_pos
  unfold handleRow at h
  split at h
  · cases h
  · rename_i row hrow
    have hclean : ∀ token ∈ row.tokens, Clean token := fun token =>
      clean_of_mem_tokens hline hrow
    split at h
    · cases h
    · rename_i hcheck
      have hchecked := firstError_checkColumn.mp hcheck
      obtain ⟨hform, hlemma⟩ := formField_of_row hclean hchecked
      have hmisc := miscField_unlessUnderscore (spacedField_of_mem hclean hchecked).2.2
      split at h
      · obtain ⟨_, _, idLast, _, _, hlast, hle, hprevious, hcolumns, rfl⟩ :=
          handleMultiwordToken_eq_ok.mp h
        refine valid_addMultiwordToken hvalid rfl hle (parseInt_bounds hlast).2 hprevious
          ⟨hform, hmisc, ?_⟩
        rcases hcolumns.feats with hfeats | ⟨hversion, hfeats⟩
        · exact Or.inl (by simp [Row.multiwordToken, hfeats, unlessUnderscore])
        · refine Or.inr ⟨hversion, ?_⟩
          simp only [Row.multiwordToken, hfeats]
          decide
      · split at h
        · rename_i hempty
          obtain ⟨_, _, index, _, _, hindex, hfollows, _, _, rfl⟩ := handleEmptyNode_eq_ok.mp h
          refine valid_addEmptyNode hvalid hempty.1 rfl (parseInt_bounds hindex).2 hfollows
            ⟨hform, hlemma, ?_, hmisc⟩
          simp only [Row.emptyNode, List.forall_mem_cons]
          exact ⟨tagField_of_row hclean hchecked (by simp),
            tagField_of_row hclean hchecked (by simp), tagField_of_row hclean hchecked (by simp),
            tagField_of_row hclean hchecked (by simp), by simp⟩
        · obtain ⟨hid, head, hhead, rfl⟩ := handleWord_eq_ok.mp h
          refine valid_addWord hvalid rfl rfl (parseInt_bounds hid).2
            ⟨hform, hlemma, ?_, hmisc, parseHead_bounds hhead⟩
          simp only [Row.word, fillWord, List.forall_mem_cons]
          exact ⟨tagField_of_row hclean hchecked (by simp),
            tagField_of_row hclean hchecked (by simp), tagField_of_row hclean hchecked (by simp),
            tagField_of_row hclean hchecked (by simp), tagField_of_row hclean hchecked (by simp),
            by simp⟩

/-- A line that the reader accepts keeps the state valid. -/
theorem valid_handleLine {version : ℕ} {line : Bytes} {st st' : LineState}
    (hline : ∀ c ∈ line, isLineEnd c = false) (hvalid : st.Valid version)
    (h : handleLine version line st = .ok st') : st'.Valid version := by
  unfold handleLine at h
  split at h
  · rename_i hcomment
    split at h
    · cases h
      refine ⟨hvalid.words, hvalid.multiwordTokens, hvalid.emptyNodes, ?_, hvalid.last⟩
      simp only [List.forall_mem_append, List.forall_mem_singleton]
      exact ⟨hvalid.comments, hcomment, hline⟩
    · cases h
      exact hvalid
  · exact valid_handleRow hline hvalid h

/-! ### What a call returns -/

/-- What the reader guarantees of a sentence: its words are those of a valid
state, linked, and every multiword token and every head stays inside. -/
structure Accepted (version : ℕ) (s : Sentence) (words : List Word) : Prop where
  valid : LineState.Valid version ⟨{ s with words }, lastCovered s.multiwordTokens⟩
  linked : s.words = linked words
  covered : lastCovered s.multiwordTokens < words.length
  heads : ∀ word ∈ words, word.head < words.length
  nonempty : words.length ≠ 1

/-- The end of a call returns a sentence exactly if its state has a word, its
multiword tokens end in time and its heads exist. -/
theorem finish_returned_iff {version : ℕ} {st : LineState} (hvalid : st.Valid version)
    (text : Bytes) : (finish text st).returned = true ↔
      st.lastMultiwordToken < st.sentence.words.length ∧
        (∀ word ∈ st.sentence.words, word.head < st.sentence.words.length) ∧
        st.sentence.words.length ≠ 1 := by
  have hheads : (∀ word ∈ st.sentence.words, word.head < st.sentence.words.length) ↔
      ∀ (i : ℕ) (w : Word), 0 < i → st.sentence.words[i]? = some w →
        w.head < st.sentence.words.length := by
    constructor
    · exact fun h i w _ hw => h w (List.mem_of_getElem? hw)
    · intro h w hw
      obtain ⟨i, hi⟩ := List.mem_iff_getElem?.mp hw
      by_cases hzero : i = 0
      · subst hzero
        have hroot := hvalid.words.root
        rw [List.head?_eq_getElem?, hi] at hroot
        obtain rfl := Option.some.inj hroot
        have : Sentence.rootWord.head = -1 := rfl
        omega
      · exact h i w (by omega) hi
  rw [hheads]
  unfold finish
  dsimp only
  split
  · rename_i hmissing
    simp only [Bool.false_eq_true, false_iff, not_and]
    omega
  · rename_i hcovered
    have hlink : ∀ words', _ ↔ _ := fun words' =>
      linkHeads_eq_ok_iff hvalid.words.unlinked words'
    split
    · rename_i herror
      simp only [Bool.false_eq_true, false_iff, not_and]
      intro _ hall
      have := (hlink _).mpr ⟨hall, rfl⟩
      simp [herror] at this
    · rename_i words' hok
      obtain ⟨hall, rfl⟩ := (hlink words').mp hok
      have hlength : (linked st.sentence.words).length = st.sentence.words.length :=
        length_linkedBelow _ _
      have : st.lastMultiwordToken < st.sentence.words.length := by omega
      rw [and_iff_right this, and_iff_right hall]
      simp [Sentence.isEmpty, hlength]

/-- The sentence that the end of a call returns. -/
theorem finish_eq_of_returned {version : ℕ} {st : LineState} (hvalid : st.Valid version)
    {text : Bytes} (h : (finish text st).returned = true) :
    finish text st =
      ⟨true, { st.sentence with words := linked st.sentence.words }, [], text⟩ := by
  have hreturned := h
  unfold finish at h ⊢
  dsimp only at h ⊢
  split at h
  · cases h
  · rename_i hcovered
    rw [if_neg hcovered]
    split at h
    · cases h
    · rename_i words' hok
      obtain ⟨_, rfl⟩ := (linkHeads_eq_ok_iff hvalid.words.unlinked _).mp hok
      simp only [NextSentence.mk.injEq, and_true]
      exact h

/-- Every sentence that a call returns is accepted. -/
theorem accepted_of_returns {version : ℕ} {text : Bytes} {r : NextSentence Bytes}
    (h : (nextSentence version text).Returns r) (hreturned : r.returned = true) :
    r.error = [] ∧ ∃ words, Accepted version r.sentence words := by
  refine Comp.loopOf_invariant (fun p => p.2.Valid version)
    (fun r => r.returned = true →
      r.error = [] ∧ ∃ words, Accepted version r.sentence words) ?_ ?_ (valid_init version) h
    hreturned
  · rintro ⟨t, st⟩ p hvalid hnext
    rcases lineStep_cases version t st with ⟨_, hstep⟩ | ⟨_, _, _, hstep⟩ |
      ⟨_, _, _, hstep⟩ | ⟨_, _, ⟨_, _, hstep⟩ | ⟨st', hok, hstep⟩⟩ <;>
      rw [hstep] at hnext <;> cases hnext
    · exact hvalid
    · exact valid_handleLine (fun c => not_isLineEnd_of_mem_readLine) hvalid hok
  · rintro ⟨t, st⟩ r hvalid hdone hreturned
    have hfinish : ∀ text, (finish text st).returned = true →
        (finish text st).error = [] ∧ ∃ words, Accepted version (finish text st).sentence words := by
      intro text hret
      obtain ⟨hcovered, hheads, hwords⟩ := (finish_returned_iff hvalid text).mp hret
      rw [finish_eq_of_returned hvalid hret]
      refine ⟨rfl, st.sentence.words, ⟨?_, rfl, ?_, hheads, hwords⟩⟩
      · exact hvalid.last ▸ hvalid
      · exact hvalid.last ▸ hcovered
    rcases lineStep_cases version t st with ⟨_, hstep⟩ | ⟨_, _, _, hstep⟩ |
      ⟨_, _, _, hstep⟩ | ⟨_, _, ⟨_, _, hstep⟩ | ⟨_, _, hstep⟩⟩ <;>
      rw [hstep] at hdone <;> cases hdone
    · exact hfinish [] hreturned
    · exact hfinish _ hreturned
    · cases hreturned

/-! ### Well-formed sentences -/

/-- Any two neighbours among numbered empty nodes are ordered by their ids, and
the indices under one id count from one. -/
theorem Numbered.order {nodes : List EmptyNode} (h : Numbered nodes) :
    (nodes.Pairwise fun node node' => node.id ≤ node'.id) ∧
      ∀ id : ℤ, (nodes.filter fun node => node.id == id).map (fun node => node.index) =
        (List.range (nodes.filter fun node => node.id == id).length).map fun i : ℕ => (i : ℤ) + 1 := by
  induction h with
  | nil => exact ⟨.nil, fun id => rfl⟩
  | @snoc nodes node hnodes hfollows ih =>
    obtain ⟨hordered, hindices⟩ := ih
    rcases List.eq_nil_or_concat' nodes with rfl | ⟨before, back, rfl⟩
    · have hindex : node.index = 1 := by simpa [emptyNodeFollows] using hfollows
      refine ⟨by simp, fun id => ?_⟩
      by_cases hid : node.id = id <;> simp [hid, hindex]
    · have hback : ∀ other ∈ before ++ [back], other.id ≤ back.id := by
        have := (List.pairwise_append.mp hordered).2.2
        simp only [List.forall_mem_append, List.forall_mem_singleton]
        exact ⟨fun other ho => this other ho back (by simp), le_rfl⟩
      have hcases : (back.id < node.id ∧ node.index = 1) ∨
          (back.id = node.id ∧ node.index = back.index + 1) := by
        simpa [emptyNodeFollows] using hfollows
      have hle : back.id ≤ node.id := by omega
      refine ⟨List.pairwise_append.mpr ⟨hordered, List.pairwise_singleton _ _, ?_⟩, fun id => ?_⟩
      · simp only [List.forall_mem_singleton]
        exact fun other ho => (hback other ho).trans hle
      · have hold := hindices id
        rw [List.filter_append, List.map_append, List.length_append, List.range_add,
          List.map_append, hold]
        congr 1
        by_cases hid : node.id = id
        · subst hid
          have hcount : node.index =
              ((before ++ [back]).filter fun other => other.id == node.id).length + 1 := by
            rcases hcases with ⟨hlt, hone⟩ | ⟨heq, hnext⟩
            · have hnone : (before ++ [back]).filter (fun other => other.id == node.id) = [] := by
                refine List.filter_eq_nil_iff.mpr fun other ho => ?_
                have := hback other ho
                simp only [beq_iff_eq]
                omega
              rw [hnone, hone]
              rfl
            · rw [hnext]
              congr 1
              have hlast := congrArg List.getLast? hold
              simp only [List.filter_append, List.filter_cons, heq, beq_self_eq_true, if_true,
                List.filter_nil, List.map_append, List.map_cons, List.map_nil, List.getLast?_concat,
                List.length_append, List.length_singleton, List.range_succ] at hlast ⊢
              have := Option.some.inj hlast
              push_cast
              exact this
          simp [hcount]
        · simp [hid]

/-- A sentence every later component can index without checks. -/
structure WellFormed (version : ℕ) (s : Sentence) : Prop where
  /-- There is a word beside the root. -/
  nonempty : 2 ≤ s.words.length
  ids : ∀ (i : ℕ) (word : Word), s.words[i]? = some word → word.id = i
  heads : ∀ word ∈ s.words, word.head = -1 ∨ (0 ≤ word.head ∧ word.head < s.words.length)
  children_increase : ∀ word ∈ s.words, word.children.Pairwise (· < ·)
  /-- The children of a word are the words that have it as their head. -/
  mem_children : ∀ (i : ℕ) (word : Word), s.words[i]? = some word → ∀ c : ℤ,
    c ∈ word.children ↔
      ∃ j : ℕ, c = j ∧ 1 ≤ j ∧ ∃ child, s.words[j]? = some child ∧ child.head = i
  ranges : ∀ token ∈ s.multiwordTokens,
    1 ≤ token.idFirst ∧ token.idFirst ≤ token.idLast ∧ token.idLast < s.words.length
  ranges_ordered : s.multiwordTokens.Pairwise fun token token' => token.idLast < token'.idFirst
  emptyNode_ids : ∀ node ∈ s.emptyNodes, 0 ≤ node.id ∧ node.id < s.words.length
  emptyNodes_ordered : s.emptyNodes.Pairwise fun node node' => node.id ≤ node'.id
  /-- The indices of the empty nodes after one word are 1, 2, 3 and so on. -/
  emptyNode_indices : ∀ id : ℤ,
    (s.emptyNodes.filter fun node => node.id == id).map (fun node => node.index) =
      (List.range (s.emptyNodes.filter fun node => node.id == id).length).map fun i : ℕ => (i : ℤ) + 1
  emptyNodes_version : version < 2 → s.emptyNodes = []
  fields_clean : ∀ field ∈ s.textFields, ∀ c ∈ field, c ≠ tab ∧ isLineEnd c = false
  comments_clean : ∀ comment ∈ s.comments, ∀ c ∈ comment, isLineEnd c = false

/-- The texts of an accepted sentence are clean. -/
private theorem textFields_clean {version : ℕ} {s : Sentence} {words : List Word}
    (h : Accepted version s words) : ∀ field ∈ s.textFields, Clean field := by
  have htags : ∀ {fields : List Bytes}, (∀ field ∈ fields, TagField field) →
      ∀ field ∈ fields, Clean field := fun h field hf => (h field hf).clean
  have hroot : ∀ field ∈ Sentence.rootWord.textFields, Clean field := by
    decide
  intro field hfield
  simp only [Sentence.textFields, List.mem_append, List.mem_flatMap] at hfield
  rcases hfield with (⟨word, hword, hfield⟩ | ⟨token, htoken, hfield⟩) | ⟨node, hnode, hfield⟩
  · obtain ⟨i, hi⟩ := List.mem_iff_getElem?.mp hword
    rw [h.linked, linked, getElem?_linkedBelow, Option.map_eq_some_iff] at hi
    obtain ⟨raw, hraw, rfl⟩ := hi
    -- linking changes no text, so the fields are those of the word that was read
    have hfield : field ∈ raw.textFields := hfield
    rcases h.valid.words.root_or_fields (List.mem_of_getElem? hraw) with rfl | hraw
    · exact hroot field hfield
    · have hclean := htags hraw.tags
      simp only [List.forall_mem_cons] at hclean
      simp only [Word.textFields, List.mem_cons, List.not_mem_nil, or_false] at hfield
      rcases hfield with rfl | rfl | rfl | rfl | rfl | rfl | rfl | rfl
      · exact hraw.form.clean
      · exact hraw.lemma.clean
      · exact hclean.1
      · exact hclean.2.1
      · exact hclean.2.2.1
      · exact hclean.2.2.2.1
      · exact hclean.2.2.2.2.1
      · exact hraw.misc.clean
  · have htoken := h.valid.multiwordTokens.fields token htoken
    simp only [MultiwordToken.textFields, List.mem_cons, List.not_mem_nil, or_false] at hfield
    rcases hfield with rfl | rfl | rfl
    · exact htoken.form.clean
    · rcases htoken.feats with hfeats | ⟨_, hfeats⟩ <;> rw [hfeats] <;> decide
    · exact htoken.misc.clean
  · have hnode := h.valid.emptyNodes.fields node hnode
    have hclean := htags hnode.tags
    simp only [List.forall_mem_cons] at hclean
    simp only [EmptyNode.textFields, List.mem_cons, List.not_mem_nil, or_false] at hfield
    rcases hfield with rfl | rfl | rfl | rfl | rfl | rfl | rfl
    · exact hnode.form.clean
    · exact hnode.lemma.clean
    · exact hclean.1
    · exact hclean.2.1
    · exact hclean.2.2.1
    · exact hclean.2.2.2.1
    · exact hnode.misc.clean

/-- An accepted sentence is well formed. -/
theorem wellFormed_of_accepted {version : ℕ} {s : Sentence} {words : List Word}
    (h : Accepted version s words) : WellFormed version s := by
  have hlength : s.words.length = words.length := by
    rw [h.linked]
    exact length_linkedBelow _ _
  have hword : ∀ {i : ℕ} {word : Word}, s.words[i]? = some word → ∃ raw, words[i]? = some raw ∧
      word = { raw with children := childrenBelow words words.length i } := by
    intro i word hi
    rw [h.linked, linked, getElem?_linkedBelow, Option.map_eq_some_iff] at hi
    obtain ⟨raw, hraw, rfl⟩ := hi
    exact ⟨raw, hraw, rfl⟩
  have hpos : 0 < words.length := h.valid.words.length_pos
  obtain ⟨hordered, hindices⟩ := h.valid.emptyNodes.numbered.order
  refine ⟨?_, ?_, ?_, ?_, ?_, ?_, h.valid.multiwordTokens.ordered, ?_, hordered, hindices, ?_,
    textFields_clean h, fun comment hc => (h.valid.comments comment hc).2⟩
  · have := h.nonempty
    omega
  · intro i word hi
    obtain ⟨raw, hraw, rfl⟩ := hword hi
    exact (h.valid.words.unlinked i raw hraw).1
  · intro word hmem
    obtain ⟨i, hi⟩ := List.mem_iff_getElem?.mp hmem
    obtain ⟨raw, hraw, rfl⟩ := hword hi
    have hlt := h.heads raw (List.mem_of_getElem? hraw)
    have hge : -1 ≤ raw.head := by
      rcases h.valid.words.root_or_fields (List.mem_of_getElem? hraw) with rfl | hfields
      · decide
      · exact hfields.head.1
    dsimp only
    omega
  · intro word hmem
    obtain ⟨i, hi⟩ := List.mem_iff_getElem?.mp hmem
    obtain ⟨raw, hraw, rfl⟩ := hword hi
    exact pairwise_childrenBelow _ _ _
  · intro i word hi c
    obtain ⟨raw, hraw, rfl⟩ := hword hi
    rw [mem_childrenBelow]
    constructor
    · rintro ⟨j, rfl, hj, hlt, child, hchild, hhead⟩
      refine ⟨j, rfl, hj, { child with children := childrenBelow words words.length j }, ?_, hhead⟩
      rw [h.linked, linked, getElem?_linkedBelow, hchild]
      rfl
    · rintro ⟨j, rfl, hj, child, hchild, hhead⟩
      obtain ⟨raw', hraw', rfl⟩ := hword hchild
      exact ⟨j, rfl, hj, (List.getElem?_eq_some_iff.mp hraw').1, raw', hraw', hhead⟩
  · intro token htoken
    have hrange := h.valid.multiwordTokens.range token htoken
    have hlast := h.valid.multiwordTokens.idLast_le htoken
    have hcovered := h.covered
    refine ⟨hrange.1, hrange.2, ?_⟩
    dsimp only at hlast
    omega
  · intro node hnode
    have hbounds := h.valid.emptyNodes.bounds node hnode
    dsimp only at hbounds
    exact ⟨hbounds.1, by omega⟩
  · intro hversion
    by_contra hne
    have := h.valid.emptyNodes.version hne
    omega

/-- Every sentence that a call returns is well formed, whatever text is left for the call. -/
theorem wellFormed_of_returns (version : ℕ) {text : Bytes} {r : NextSentence Bytes}
    (hcall : (nextSentence version text).Returns r) (hreturned : r.returned = true) :
    WellFormed version r.sentence := by
  obtain ⟨_, words, haccepted⟩ := accepted_of_returns hcall hreturned
  exact wellFormed_of_accepted haccepted

/-- A text with a comment, a multiword token and an empty node. -/
def sampleText : Bytes := bytes "# text\n1-2\tau x\t_\t_\t_\t_\t_\t_\t_\tA B\n1\t_\ta\t_\t_\t_\t2\t_\t_\t_\n" ++
  bytes "1.1\tx\tx\t_\t_\t_\t_\t_\t_\t_\n2\tle\tle\t_\t_\t_\t0\troot\t_\t_\n\n"

/-- A text with one sentence. -/
theorem wellFormed_of_returns_sample : ∃ r, (nextSentence 2 sampleText).Returns r ∧
    r.returned = true ∧ WellFormed 2 r.sentence := by
  obtain ⟨r, hrun, hreturned⟩ : ∃ r, (nextSentence 2 sampleText).Returns r ∧
      r.returned = true := Comp.exists_returns_of_run 9 (by decide +kernel)
  exact ⟨r, hrun, hreturned, wellFormed_of_returns 2 hrun hreturned⟩

end UDPipe.Conllu
