import UDPipe.Tokenizer.Wrapper

/-!
# The tokens of a sentence

The loop over the forms reuses one token, whose MISC keeps the fields of the token
before. All of these fields are set again or removed in every pass, so the token
of a pass depends on the form and the white space around it only. The sentence
that is made has exactly these tokens as its surface tokens.
-/

namespace UDPipe.Tokenizer

open Utf8 Misc

namespace Options

variable (opts : Options)

/-- The names of the fields that the wrapper uses. -/
def names : List Bytes :=
  (if opts.normalizedSpaces then [bytes "SpaceAfter"]
    else [bytes "SpacesBefore", bytes "SpacesInToken", bytes "SpaceAfter", bytes "SpacesAfter"]) ++
  if opts.tokenRanges then [bytes "TokenRange"] else []

/-- A MISC column with fields of the wrapper only. -/
def Own (misc : Bytes) : Prop :=
  ∃ fs, Separate fs ∧ (∀ f ∈ fs, f.1 ∈ opts.names) ∧ misc = ofFields fs

/-- The range that is stored. -/
def rangeOf (unicodeOffset : ℕ) (range : Option TokenRange) : Option (ℕ × ℕ) :=
  if opts.tokenRanges then
    range.map fun r => (unicodeOffset + r.start, unicodeOffset + r.start + r.length)
  else none

/-- The white space within a form that the form of the token does not have. -/
def inToken (block : Bytes) (form : Piece) : Bytes :=
  if (normalizeForm (form.text block)).length != form.stop - form.start then form.text block
  else []

/-- The fields of a token. -/
def fieldsOf (block : Bytes) (form : Piece) (next : Option Piece) (before : Bytes)
    (range : Option (ℕ × ℕ)) : List (Bytes × Bytes) :=
  if opts.normalizedSpaces then
    spaceAfterField (match next with
      | none => opts.spacesAfter block form none != []
      | some next => form.stop < next.start) ++ rangeField range
  else tokenFields before (inToken block form) (opts.spacesAfter block form next) range

/-- The token for a form. -/
def tokenOf (block : Bytes) (form : Piece) (next : Option Piece) (before : Bytes)
    (range : Option (ℕ × ℕ)) : Token where
  form := normalizeForm (form.text block)
  misc := ofFields (opts.fieldsOf block form next before range)

/-- The texts that are escaped for a token. -/
def stored (block : Bytes) (form : Piece) (before after : Bytes) : List Bytes :=
  if opts.normalizedSpaces then [] else [before, inToken block form, after]

/-! ### One pass -/

/-- An empty MISC has the tokenizer's own fields only. -/
theorem own_nil : opts.Own [] := ⟨[], List.forall_mem_nil _, List.forall_mem_nil _, rfl⟩

/-- The range comes after fields of other names. -/
theorem fieldsOf_eq_append (block : Bytes) (form : Piece) (next : Option Piece) (before : Bytes)
    (range : Option (ℕ × ℕ)) :
    ∃ fs, Separate fs ∧ (∀ f ∈ fs, f.1 ≠ bytes "TokenRange") ∧
      opts.fieldsOf block form next before range = fs ++ rangeField range := by
  unfold fieldsOf
  split
  · refine ⟨_, separate_spaceAfterField _, fun f hf => ?_, rfl⟩
    rw [name_of_mem_spaceAfterField hf]
    decide
  · refine ⟨_, ((separate_spacesField (by decide) _).append
      (separate_spacesField (by decide) _)).append (separate_spacesAfterFields _),
      fun f hf => ?_, rfl⟩
    simp only [List.mem_append] at hf
    rcases hf with (hbefore | hin) | hafter
    · rw [name_of_mem_spacesField hbefore]
      decide
    · rw [name_of_mem_spacesField hin]
      decide
    · rcases name_of_mem_spacesAfterFields hafter with hname | hname <;> rw [hname] <;> decide

/-- The token of a pass has fields of the wrapper only. -/
theorem names_fieldsOf (block : Bytes) (form : Piece) (next : Option Piece) (before : Bytes)
    (unicodeOffset : ℕ) (range : Option TokenRange) :
    ∀ f ∈ opts.fieldsOf block form next before (opts.rangeOf unicodeOffset range),
      f.1 ∈ opts.names := by
  have hrange : ∀ f ∈ rangeField (opts.rangeOf unicodeOffset range),
      f.1 ∈ if opts.tokenRanges then [bytes "TokenRange"] else [] := by
    intro f hf
    rw [name_of_mem_rangeField hf]
    unfold rangeOf at hf
    split
    · exact List.mem_singleton_self _
    · rename_i h
      rw [if_neg h] at hf
      cases hf
  intro f hf
  rw [names, List.mem_append]
  unfold fieldsOf at hf
  split at hf
  · rename_i h
    rw [if_pos h]
    rcases List.mem_append.mp hf with hspaces | hlast
    · exact .inl (List.mem_singleton.mpr (name_of_mem_spaceAfterField hspaces))
    · exact .inr (hrange f hlast)
  · rename_i h
    rw [if_neg h]
    simp only [tokenFields, List.mem_append] at hf
    rcases hf with ((hbefore | hin) | hafter) | hlast
    · simp [name_of_mem_spacesField hbefore]
    · simp [name_of_mem_spacesField hin]
    · rcases name_of_mem_spacesAfterFields hafter with hname | hname <;> simp [hname]
    · exact .inr (hrange f hlast)

/-- The fields of a token are separate. -/
theorem separate_fieldsOf (block : Bytes) (form : Piece) (next : Option Piece) (before : Bytes)
    (range : Option (ℕ × ℕ)) : Separate (opts.fieldsOf block form next before range) := by
  obtain ⟨fs, hsep, _, heq⟩ := opts.fieldsOf_eq_append block form next before range
  rw [heq]
  exact hsep.append (separate_rangeField range)

variable {opts}

/-- Setting the range of a token replaces its field. -/
private theorem setRange_ofFields {fs : List (Bytes × Bytes)} (h : Separate fs) (form : Bytes)
    (unicodeOffset : ℕ) (range : Option TokenRange) :
    opts.setRange ⟨form, ofFields fs⟩ unicodeOffset range =
      ⟨form, ofFields ((if opts.tokenRanges then dropField (bytes "TokenRange") fs else fs) ++
        rangeField (opts.rangeOf unicodeOffset range))⟩ := by
  unfold setRange rangeOf
  split
  · exact setTokenRange_ofFields h form _
  · rw [rangeField, List.append_nil]

/-- With normalized spaces a token gets the field for a missing space. -/
private theorem setSpaces_normalized (hopts : opts.normalizedSpaces = true)
    {fs : List (Bytes × Bytes)} (h : Separate fs) (block : Bytes) (piece : Piece)
    (next : Option Piece) (form before : Bytes) :
    opts.setSpaces ⟨form, ofFields fs⟩ block piece next before
        (opts.spacesAfter block piece next) =
      ⟨form, ofFields (dropField (bytes "SpaceAfter") fs ++ spaceAfterField (match next with
        | none => opts.spacesAfter block piece none != []
        | some next => piece.stop < next.start))⟩ := by
  unfold setSpaces
  rw [if_pos hopts, setSpaceAfter_ofFields h]
  cases next <;> rfl

/-- With original spaces a token gets the fields for its spaces. -/
private theorem setSpaces_original (hopts : opts.normalizedSpaces = false)
    {fs : List (Bytes × Bytes)} (h : Separate fs) (block : Bytes) (piece : Piece)
    (next : Option Piece) (before : Bytes) :
    opts.setSpaces ⟨normalizeForm (piece.text block), ofFields fs⟩ block piece next before
        (opts.spacesAfter block piece next) =
      ⟨normalizeForm (piece.text block), ofFields
        (dropField (bytes "SpacesAfter") (dropField (bytes "SpaceAfter")
          (dropField (bytes "SpacesInToken") (dropField (bytes "SpacesBefore") fs))) ++
        (spacesField (bytes "SpacesBefore") before ++
          (spacesField (bytes "SpacesInToken") (inToken block piece) ++
            spacesAfterFields (opts.spacesAfter block piece next))))⟩ := by
  have hfirst := (h.dropField (bytes "SpacesBefore")).append
    (separate_spacesField (show Plain (bytes "SpacesBefore") by decide) before)
  have hsecond := (hfirst.dropField (bytes "SpacesInToken")).append
    (separate_spacesField (show Plain (bytes "SpacesInToken") by decide) (inToken block piece))
  have hkeep : ∀ {name name' : Bytes}, name ≠ name' → ∀ spaces,
      dropField name' (spacesField name spaces) = spacesField name spaces :=
    fun hne spaces => dropField_of_ne fun f hf => by rwa [name_of_mem_spacesField hf]
  unfold setSpaces
  rw [if_neg (by simp [hopts]), withSpacesBefore_ofFields h]
  change Token.withSpacesAfter (Token.withSpacesInToken _ (inToken block piece)) _ = _
  rw [withSpacesInToken_ofFields hfirst, withSpacesAfter_ofFields hsecond]
  simp only [dropField_append,
    hkeep (show bytes "SpacesBefore" ≠ bytes "SpacesInToken" by decide),
    hkeep (show bytes "SpacesBefore" ≠ bytes "SpaceAfter" by decide),
    hkeep (show bytes "SpacesBefore" ≠ bytes "SpacesAfter" by decide),
    hkeep (show bytes "SpacesInToken" ≠ bytes "SpaceAfter" by decide),
    hkeep (show bytes "SpacesInToken" ≠ bytes "SpacesAfter" by decide), List.append_assoc]

/-- White space is stored exactly if the counters of the loops can go through it. -/
theorem returns_storeSpaces {misc : Bytes} {block : Bytes} {piece : Piece} {next : Option Piece}
    {before after : Bytes} {tok : Token} :
    (opts.storeSpaces ⟨normalizeForm (piece.text block), misc⟩ block piece next before
        after).Returns tok ↔
      (∀ spaces ∈ opts.stored block piece before after, spaces.length < unsignedValues) ∧
        tok = opts.setSpaces ⟨normalizeForm (piece.text block), misc⟩ block piece next before
          after := by
  have hform : ∀ tok : Token, (tok.withSpacesBefore before).form = tok.form := by
    intro tok
    unfold Token.withSpacesBefore
    split <;> rfl
  unfold storeSpaces setSpaces stored
  cases opts.normalizedSpaces with
  | true => simp [eq_comm]
  | false =>
    simp only [Bool.false_eq_true, if_false, Comp.returns_bind, Token.returns_setSpacesBefore,
      Token.returns_setSpacesInToken, Token.returns_setSpacesAfter]
    constructor
    · rintro ⟨_, ⟨hbefore, rfl⟩, _, ⟨hin, rfl⟩, hafter, rfl⟩
      rw [hform] at hin
      exact ⟨List.forall_mem_cons.mpr ⟨hbefore, List.forall_mem_cons.mpr
        ⟨hin, List.forall_mem_singleton.mpr hafter⟩⟩, by rw [hform]⟩
    · rintro ⟨hall, rfl⟩
      obtain ⟨hbefore, hrest⟩ := List.forall_mem_cons.mp hall
      obtain ⟨hin, hafter⟩ := List.forall_mem_cons.mp hrest
      exact ⟨_, ⟨hbefore, rfl⟩, _, ⟨by rw [hform]; exact hin, rfl⟩,
        hafter after List.mem_cons_self, rfl⟩

/-- What setting the range drops of old fields and of new ones. -/
private theorem drop_append {old new : List (Bytes × Bytes)}
    (hnew : ∀ f ∈ new, f.1 ≠ bytes "TokenRange")
    (hold : ∀ f ∈ old, f.1 ∈ if opts.tokenRanges then [bytes "TokenRange"] else []) :
    (if opts.tokenRanges then dropField (bytes "TokenRange") (old ++ new) else old ++ new) =
      new := by
  split
  · rename_i h
    rw [if_pos h] at hold
    have hnil : dropField (bytes "TokenRange") old = [] := by
      apply List.filter_eq_nil_iff.mpr
      intro f hf
      simp [List.mem_singleton.mp (hold f hf)]
    rw [dropField_append, hnil, List.nil_append, dropField_of_ne hnew]
  · rename_i h
    rw [if_neg h] at hold
    rw [List.eq_nil_iff_forall_not_mem.mpr fun f hf => List.not_mem_nil (hold f hf),
      List.nil_append]

/-- The token of a pass does not depend on the one before. -/
theorem setRange_setSpaces {misc : Bytes} (hown : opts.Own misc) (block : Bytes) (piece : Piece)
    (next : Option Piece) (before : Bytes) (unicodeOffset : ℕ) (range : Option TokenRange) :
    opts.setRange (opts.setSpaces ⟨normalizeForm (piece.text block), misc⟩ block piece next before
        (opts.spacesAfter block piece next)) unicodeOffset range =
      opts.tokenOf block piece next before (opts.rangeOf unicodeOffset range) := by
  obtain ⟨fs, hsep, hnames, rfl⟩ := hown
  rw [tokenOf]
  unfold fieldsOf
  unfold names at hnames
  cases hopts : opts.normalizedSpaces with
  | true =>
    rw [if_pos hopts] at hnames
    rw [setSpaces_normalized hopts hsep, setRange_ofFields
      ((hsep.dropField _).append (separate_spaceAfterField _)), if_pos rfl, drop_append]
    · intro f hf
      rw [name_of_mem_spaceAfterField hf]
      decide
    · intro f hf
      obtain ⟨hmem, hne⟩ := List.mem_filter.mp hf
      simpa [bne_iff_ne.mp hne] using hnames f hmem
  | false =>
    rw [if_neg (by simp [hopts])] at hnames
    have hnew : Separate (spacesField (bytes "SpacesBefore") before ++
        (spacesField (bytes "SpacesInToken") (inToken block piece) ++
          spacesAfterFields (opts.spacesAfter block piece next))) :=
      (separate_spacesField (by decide) _).append
        ((separate_spacesField (by decide) _).append (separate_spacesAfterFields _))
    rw [setSpaces_original hopts hsep, setRange_ofFields
      (((((hsep.dropField _).dropField _).dropField _).dropField _).append hnew),
      if_neg Bool.false_ne_true, drop_append, tokenFields]
    · simp only [List.append_assoc]
    · intro f hf
      simp only [List.mem_append] at hf
      rcases hf with hbefore | hin | hafter
      · rw [name_of_mem_spacesField hbefore]
        decide
      · rw [name_of_mem_spacesField hin]
        decide
      · rcases name_of_mem_spacesAfterFields hafter with hname | hname <;> rw [hname] <;> decide
    · intro f hf
      simp only [dropField, List.mem_filter, bne_iff_ne] at hf
      simpa [hf.2, hf.1.2, hf.1.1.2, hf.1.1.1.2] using hnames f hf.1.1.1.1

/-- One pass of the loop, with the token that it makes. -/
theorem addForm_eq {st : Progress} (hown : opts.Own st.tok.misc) (block : Bytes)
    (unicodeOffset : ℕ) (first : Bool) (form : Piece) (next : Option Piece)
    (range : Option TokenRange) :
    let before := if first then st.savedSpaces ++ slice block st.position form.start else []
    let after := opts.spacesAfter block form next
    let tok := opts.tokenOf block form next before (opts.rangeOf unicodeOffset range)
    opts.addForm block unicodeOffset first form next range st =
      { sentence := opts.appendTo st.sentence tok
        tok
        savedSpaces := []
        position := if next.isNone then form.stop + after.length else st.position
        preceedingNewlines := (st.preceedingNewlines + before.count lf) % unsignedValues
        followingNewlines :=
          if next.isNone then (st.followingNewlines + after.count lf) % unsignedValues
          else st.followingNewlines } := by
  intro before after tok
  have htok := setRange_setSpaces hown block form next before unicodeOffset range
  unfold addForm
  dsimp only
  rw [htok]

/-- Appending a token adds it as a surface token. -/
theorem appendTo_spec {s : Sentence} (h : Tokenized s) (tok : Token) :
    Tokenized (opts.appendTo s tok) ∧
      (opts.appendTo s tok).surface.map SurfaceToken.token =
        s.surface.map SurfaceToken.token ++ [tok] := by
  unfold appendTo
  split
  · rename_i splitter _
    obtain ⟨htokenized, first, last, hsurface⟩ := splitter.appendToken_spec h tok.form tok.misc
    exact ⟨htokenized, by rw [hsurface, List.map_append]; rfl⟩
  · obtain ⟨htokenized, hsurface⟩ :=
      h.addWord tok.form (fun word => { word with misc := tok.misc }) fun _ => rfl
    exact ⟨htokenized, by rw [hsurface, List.map_append]; rfl⟩

/-! ### The loop -/

variable (opts) in
/-- The tokens for some forms, with the white space before the first one. -/
def formTokens (block : Bytes) (unicodeOffset : ℕ) :
    Bytes → List Piece → List TokenRange → List Token
  | _, [], _ => []
  | before, form :: forms, ranges =>
    opts.tokenOf block form forms.head? before (opts.rangeOf unicodeOffset ranges.head?) ::
      formTokens block unicodeOffset [] forms ranges.tail

variable (opts) in
/-- The position after some forms. -/
def positionAfter (block : Bytes) (forms : List Piece) (position : ℕ) : ℕ :=
  match forms.getLast? with
  | none => position
  | some form => form.stop + (opts.spacesAfter block form none).length

/-- The loop adds the tokens of the forms. -/
theorem addForms_spec {block : Bytes} {unicodeOffset : ℕ} {first : Bool} {forms : List Piece}
    {ranges : List TokenRange} {st : Progress} (hforms : forms ≠ [])
    (hsentence : Tokenized st.sentence) (hown : opts.Own st.tok.misc) :
    let before := if first then
      st.savedSpaces ++ slice block st.position ((forms.head?.map Piece.start).getD 0) else []
    let st' := opts.addForms block unicodeOffset first forms ranges st
    Tokenized st'.sentence ∧
      st'.sentence.surface.map SurfaceToken.token = st.sentence.surface.map SurfaceToken.token ++
        opts.formTokens block unicodeOffset before forms ranges ∧
      opts.Own st'.tok.misc ∧ st'.savedSpaces = [] ∧
      st'.position = opts.positionAfter block forms st.position := by
  induction forms generalizing first ranges st with
  | nil => exact absurd rfl hforms
  | cons form forms ih =>
    intro before st'
    let tok := opts.tokenOf block form forms.head? before (opts.rangeOf unicodeOffset ranges.head?)
    let st₁ := opts.addForm block unicodeOffset first form forms.head? ranges.head? st
    have hpass := addForm_eq hown block unicodeOffset first form forms.head? ranges.head?
    have hsentence₁ : st₁.sentence = opts.appendTo st.sentence tok :=
      congrArg Progress.sentence hpass
    have htok₁ : st₁.tok = tok := congrArg Progress.tok hpass
    have hsaved₁ : st₁.savedSpaces = [] := congrArg Progress.savedSpaces hpass
    have hposition₁ : st₁.position = if forms.head?.isNone then
        form.stop + (opts.spacesAfter block form forms.head?).length else st.position :=
      congrArg Progress.position hpass
    obtain ⟨htokenized, hsurface⟩ := @appendTo_spec opts _ hsentence tok
    have htok : opts.Own tok.misc :=
      ⟨_, opts.separate_fieldsOf _ _ _ _ _, opts.names_fieldsOf _ _ _ _ _ _, rfl⟩
    rw [← hsentence₁] at htokenized hsurface
    rw [← htok₁] at htok
    cases forms with
    | nil => exact ⟨htokenized, hsurface, htok, hsaved₁, hposition₁⟩
    | cons next forms =>
      obtain ⟨hih, htokens, hown', hsaved, hposition⟩ :=
        @ih false ranges.tail st₁ (List.cons_ne_nil _ _) htokenized htok
      refine ⟨hih, ?_, hown', hsaved, ?_⟩
      · calc
          _ = st₁.sentence.surface.map SurfaceToken.token ++
              opts.formTokens block unicodeOffset [] (next :: forms) ranges.tail := htokens
          _ = _ := by rw [hsurface, List.append_assoc]; rfl
      · calc
          _ = opts.positionAfter block (next :: forms) st₁.position := hposition
          _ = _ := by rw [positionAfter, positionAfter, List.getLast?_cons_cons, hposition₁]; rfl

/-! ### The sentence -/

/-- The comments leave the nodes of a sentence. -/
theorem sameNodes_addComments (s : Sentence) (newDocument : Bool) (documentId : Bytes)
    (preceedingNewlines sentenceId : ℕ) :
    (addComments s newDocument documentId preceedingNewlines sentenceId).SameNodes s := by
  have hdoc : (if newDocument then s.setNewDoc true documentId else s).SameNodes s := by
    split
    · exact Sentence.sameNodes_setNewDoc s true documentId
    · exact ⟨rfl, rfl, rfl⟩
  unfold addComments
  dsimp only
  generalize (if newDocument then s.setNewDoc true documentId else s) = s' at hdoc ⊢
  have hpar : (if 2 ≤ preceedingNewlines then s'.setNewPar true else s').SameNodes s' := by
    split
    · exact Sentence.sameNodes_setNewPar s' true []
    · exact ⟨rfl, rfl, rfl⟩
  generalize (if 2 ≤ preceedingNewlines then s'.setNewPar true else s') = s'' at hpar ⊢
  have hid := Sentence.sameNodes_setSentId s'' (natToString sentenceId)
  exact (hid.trans hpar).trans hdoc

/-- The sentence that is made has the tokens of the forms, and the state goes on after them. -/
theorem makeSentence_spec {σ : Type} {w : State σ} {forms : List Piece} {ranges : List TokenRange}
    (hforms : forms ≠ []) (hown : opts.Own w.tok.misc) :
    let before :=
      w.savedSpaces ++ slice w.block w.position ((forms.head?.map Piece.start).getD 0)
    let made := opts.makeSentence w forms ranges
    made.1.surface.map SurfaceToken.token =
        opts.formTokens w.block w.unicodeOffset before forms ranges ∧
      opts.Own made.2.tok.misc ∧ made.2.savedSpaces = [] ∧
      made.2.position = opts.positionAfter w.block forms w.position := by
  obtain ⟨htokenized, htokens, hown', hsaved, hposition⟩ := @addForms_spec opts w.block
    w.unicodeOffset true forms ranges
    { sentence := Sentence.clear
      tok := w.tok
      savedSpaces := w.savedSpaces
      position := w.position
      preceedingNewlines := w.preceedingNewlines
      followingNewlines := 0 } hforms tokenized_clear hown
  refine ⟨?_, hown', hsaved, hposition⟩
  rw [makeSentence, (sameNodes_addComments _ _ _ _ _).surface]
  exact htokens

end Options

end UDPipe.Tokenizer
