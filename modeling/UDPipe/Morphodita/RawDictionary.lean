import UDPipe.Streams

/-!
# Reading a raw dictionary

A raw morphological dictionary has lines with a lemma, a tag and a form. The reader of
`raw_morpho_dictionary_reader.cpp` gives one lemma at a time, with the forms and tags of the lines
that stand together. It has always read the first line of the next lemma already.
-/

namespace UDPipe.Morphodita

/-- What `next_lemma` gives. -/
structure RawLemma where
  lem : Bytes
  taggedForms : List (Bytes × Bytes)
  deriving DecidableEq, Repr

/-- The columns of a line. -/
structure RawLine where
  lem : Bytes
  tag : Bytes
  form : Bytes
  deriving DecidableEq, Repr

/-- The split of a line, which fails without three columns. -/
def RawLine.parse (line : Bytes) : Option RawLine :=
  match split tab line with
  | [lem, tag, form] => some ⟨lem, tag, form⟩
  | _ => none

/-- The class `raw_morpho_dictionary_reader`. -/
structure RawMorphoDictionaryReader where
  is : IStream
  line : Bytes
  tokens : RawLine
  seenLemmas : List Bytes
  deriving DecidableEq, Repr

namespace RawMorphoDictionaryReader

/-- The reader before the first lemma. -/
def new (text : Bytes) : RawMorphoDictionaryReader := ⟨{ rest := text }, [], ⟨[], [], []⟩, []⟩

/-- The loop over the lines behind the first one of a lemma, with fuel. -/
def readForms (lem : Bytes) : ℕ → RawMorphoDictionaryReader → List (Bytes × Bytes) →
    Option (List (Bytes × Bytes) × RawMorphoDictionaryReader)
  | 0, _, _ => none
  | fuel + 1, reader, taggedForms =>
    let (line, is) := getline reader.is reader.line
    if is.failbit then some (taggedForms, { reader with is, line })
    else do
      let tokens ← RawLine.parse line
      let reader := { reader with is, line, tokens }
      if lem ≠ tokens.lem then some (taggedForms, reader)
      else readForms lem fuel reader (taggedForms ++ [(tokens.form, tokens.tag)])

/-- The first line of a lemma, if it was not read already. -/
def firstLine (reader : RawMorphoDictionaryReader) : Option (Bool × RawMorphoDictionaryReader) :=
  if reader.line = [] then
    let (line, is) := getline reader.is reader.line
    if is.failbit then some (false, { reader with is, line })
    else (RawLine.parse line).map fun tokens => (true, { reader with is, line, tokens })
  else some (true, reader)

/-- The method `next_lemma`. Each line that is read has a byte of its own, but for the one that
fails. -/
def nextLemma (reader : RawMorphoDictionaryReader) :
    Option (Option RawLemma × RawMorphoDictionaryReader) := do
  let (found, reader) ← reader.firstLine
  if found = false then return (none, reader)
  let lem := reader.tokens.lem
  if reader.seenLemmas.contains lem then none
  let reader := { reader with seenLemmas := lem :: reader.seenLemmas }
  let (taggedForms, reader) ← readForms lem (reader.is.rest.length + 1) reader
    [(reader.tokens.form, reader.tokens.tag)]
  return (some ⟨lem, taggedForms⟩, reader)

/-- All lemmas that are read, with fuel. -/
def lemmasFrom : ℕ → RawMorphoDictionaryReader → Option (List RawLemma)
  | 0, _ => none
  | fuel + 1, reader => do
    let (raw, reader) ← reader.nextLemma
    match raw with
    | none => some []
    | some raw =>
      let raws ← lemmasFrom fuel reader
      return raw :: raws

/-- The lemmas of a raw dictionary. -/
def lemmas (text : Bytes) : Option (List RawLemma) := lemmasFrom (text.length + 2) (new text)

end RawMorphoDictionaryReader

/-! ### The lines of the lemmas -/

/-- The lines of a lemma. -/
def RawLemma.lines (raw : RawLemma) : List RawLine :=
  raw.taggedForms.map fun f => ⟨raw.lem, f.2, f.1⟩

/-- The columns have no tabs. -/
structure RawLine.Tabless (line : RawLine) : Prop where
  lem : tab ∉ line.lem
  tag : tab ∉ line.tag
  form : tab ∉ line.form

/-- A line that is read has no tabs in its columns. -/
theorem RawLine.tabless_of_parse {line : Bytes} {tokens : RawLine}
    (h : RawLine.parse line = some tokens) : tokens.Tabless := by
  rw [parse] at h
  split at h
  · next lem tag form hsplit =>
    obtain rfl := Option.some.inj h
    have hpieces : ∀ piece ∈ [lem, tag, form], tab ∉ piece := by
      intro piece hpiece
      rw [← hsplit] at hpiece
      exact not_mem_of_mem_split hpiece
    exact ⟨hpieces _ (by simp), hpieces _ (by simp), hpieces _ (by simp)⟩
  · cases h

namespace RawMorphoDictionaryReader

/-- The lines that a stream has left. -/
def linesOf (is : IStream) : List Bytes :=
  if is.eofbit || is.failbit then [] else textLines is.rest

/-- What a call of `getline` does on a stream that did not fail. -/
theorem getline_spec {is : IStream} (hgood : is.failbit = false) (old : Bytes) :
    let (line, is') := getline is old
    if is'.failbit then linesOf is = [] ∧ linesOf is' = [] ∧ is'.eofbit = true ∧
      line = (if is.eofbit then old else [])
    else linesOf is = line :: linesOf is' ∧ is.eofbit = false ∧ (is'.eofbit = true → line ≠ []) := by
  cases heof : is.eofbit with
  | true => simp [getline, heof, linesOf]
  | false =>
    obtain ⟨rest, eofbit, failbit⟩ := is
    simp only at heof hgood
    subst heof hgood
    by_cases hlf : lf ∈ rest
    · obtain ⟨line, more, rfl, hline⟩ := List.eq_append_cons_of_mem hlf
      have hall : ∀ c ∈ line, (c != lf) = true := fun c hc => by
        simp only [bne_iff_ne, ne_eq]
        rintro rfl
        exact hline hc
      simp [getline, linesOf, List.takeWhile_append_of_pos hall,
        List.dropWhile_append_of_pos hall, textLines_append_lf hline]
    · have hall : ∀ c ∈ rest, (c != lf) = true := fun c hc => by
        simp only [bne_iff_ne, ne_eq]
        rintro rfl
        exact hlf hc
      have htake : rest.takeWhile (· != lf) = rest := List.takeWhile_eq_self_iff.mpr hall
      have hdrop : rest.dropWhile (· != lf) = [] := List.dropWhile_eq_nil_iff.mpr hall
      by_cases hnil : rest = []
      · simp [getline, linesOf, hnil, textLines]
      · simp [getline, linesOf, htake, hdrop, hnil, textLines_of_not_mem hlf hnil]

/-- The lines that are left for the lemmas: the one that was read already is the first of them. -/
def pending (reader : RawMorphoDictionaryReader) : List Bytes :=
  (if reader.line = [] then [] else [reader.line]) ++ linesOf reader.is

/-- The reader is in front of a lemma. -/
def Ready (reader : RawMorphoDictionaryReader) : Prop :=
  (reader.is.failbit = false ∧ (reader.line ≠ [] → RawLine.parse reader.line = some reader.tokens)) ∨
    (reader.line = [] ∧ linesOf reader.is = [])

/-- The reader has kept a line of a lemma that it has seen, since the last line of the text has no
terminator. -/
def Stuck (reader : RawMorphoDictionaryReader) : Prop :=
  reader.line ≠ [] ∧ reader.tokens.lem ∈ reader.seenLemmas

/-- A stuck reader reads nothing. -/
theorem Stuck.nextLemma_eq_none {reader : RawMorphoDictionaryReader} (h : reader.Stuck) :
    reader.nextLemma = none := by
  rw [nextLemma, firstLine, if_neg h.1]
  simp [h.2]

/-- The loop reads the lines of the lemma. -/
theorem readForms_spec {lem : Bytes} {fuel : ℕ} {reader reader' : RawMorphoDictionaryReader}
    {taggedForms taggedForms' : List (Bytes × Bytes)} (hgood : reader.is.failbit = false)
    (hline : reader.line ≠ []) (hlem : reader.tokens.lem = lem) (hseen : lem ∈ reader.seenLemmas)
    (h : readForms lem fuel reader taggedForms = some (taggedForms', reader')) :
    ∃ more, taggedForms' = taggedForms ++ more ∧ reader'.seenLemmas = reader.seenLemmas ∧
      (reader'.Stuck ∨ reader'.Ready ∧ (linesOf reader.is).map RawLine.parse =
        (RawLemma.lines ⟨lem, more⟩).map some ++ reader'.pending.map RawLine.parse) := by
  induction fuel generalizing reader taggedForms with
  | zero => cases h
  | succ fuel ih =>
    have hget := getline_spec hgood reader.line
    rw [readForms] at h
    obtain ⟨⟨line, is⟩, hpair⟩ : ∃ p, getline reader.is reader.line = p := ⟨_, rfl⟩
    rw [hpair] at h hget
    dsimp only at h hget
    split at h
    · next hfail =>
      -- the stream has no more lines
      obtain ⟨rfl, rfl⟩ := Prod.mk.injEq .. ▸ Option.some.inj h
      rw [if_pos hfail] at hget
      obtain ⟨hnone, hnone', heof, hkept⟩ := hget
      refine ⟨[], (List.append_nil _).symm, rfl, ?_⟩
      by_cases hend : reader.is.eofbit = true
      · rw [if_pos hend] at hkept
        exact .inl ⟨by rwa [hkept], hlem ▸ hseen⟩
      · rw [if_neg hend] at hkept
        refine .inr ⟨.inr ⟨hkept, hnone'⟩, ?_⟩
        simp [pending, hkept, hnone, hnone', RawLemma.lines]
    · next hfail =>
      rw [if_neg hfail] at hget
      obtain ⟨hlines, -, -⟩ := hget
      simp only [Option.bind_eq_bind, Option.bind_eq_some_iff] at h
      obtain ⟨tokens, htokens, h⟩ := h
      have hnonempty : line ≠ [] := by
        rintro rfl
        cases htokens
      split at h
      · next hother =>
        obtain ⟨rfl, rfl⟩ := Prod.mk.injEq .. ▸ Option.some.inj h
        refine ⟨[], (List.append_nil _).symm, rfl, .inr ⟨.inl ⟨?_, fun _ => htokens⟩, ?_⟩⟩
        · simpa using hfail
        · simp [pending, hnonempty, hlines, RawLemma.lines]
      · next hsame =>
        rw [not_not] at hsame
        obtain ⟨more, rfl, hseen', hrest⟩ := @ih ⟨is, line, tokens, reader.seenLemmas⟩ _
          (by simpa using hfail) hnonempty hsame.symm hseen h
        refine ⟨(tokens.form, tokens.tag) :: more, by simp, hseen', hrest.imp_right ?_⟩
        rintro ⟨hready, hmore⟩
        refine ⟨hready, ?_⟩
        obtain ⟨lem', tag, form⟩ := tokens
        obtain rfl : lem = lem' := hsame
        rw [hlines, List.map_cons, htokens, hmore]
        rfl

/-- The first line of a lemma is the first one that is left. -/
theorem firstLine_spec {reader first : RawMorphoDictionaryReader} (hready : reader.Ready)
    {found : Bool} (h : reader.firstLine = some (found, first)) :
    if found then first.is.failbit = false ∧ first.line ≠ [] ∧
        first.seenLemmas = reader.seenLemmas ∧ reader.pending.map RawLine.parse =
          some first.tokens :: (linesOf first.is).map RawLine.parse
    else reader.pending = [] := by
  rw [firstLine] at h
  split at h
  · next hnil =>
    obtain ⟨⟨line, is⟩, hpair⟩ : ∃ p, getline reader.is reader.line = p := ⟨_, rfl⟩
    rw [hpair] at h
    dsimp only at h
    by_cases hgood : reader.is.failbit = false
    · have hget := getline_spec hgood reader.line
      rw [hpair] at hget
      dsimp only at hget
      split at h
      · next hfail =>
        obtain ⟨rfl, rfl⟩ := Prod.mk.injEq .. ▸ Option.some.inj h
        rw [if_pos hfail] at hget
        simp [pending, hnil, hget.1]
      · next hfail =>
        rw [if_neg hfail] at hget
        obtain ⟨tokens, htokens, heq⟩ := Option.map_eq_some_iff.mp h
        obtain ⟨rfl, rfl⟩ := Prod.mk.injEq .. ▸ heq
        refine ⟨by simpa using hfail, ?_, rfl, ?_⟩
        · rintro (rfl : line = [])
          cases htokens
        · simp [pending, hnil, hget.1, htokens]
    · -- a stream that failed has no more lines
      have hfail : is.failbit = true := by
        rw [Bool.not_eq_false] at hgood
        rw [getline, hgood, Bool.or_true, if_pos rfl] at hpair
        rw [← (Prod.mk.inj hpair).2]
      rw [if_pos hfail] at h
      obtain ⟨rfl, rfl⟩ := Prod.mk.injEq .. ▸ Option.some.inj h
      rw [Bool.not_eq_false] at hgood
      simp [pending, hnil, linesOf, hgood]
  · next hnonempty =>
    obtain ⟨rfl, rfl⟩ := Prod.mk.injEq .. ▸ Option.some.inj h
    rcases hready with ⟨hgood, hline⟩ | ⟨hnil, -⟩
    · exact ⟨hgood, hnonempty, rfl, by simp [pending, hnonempty, hline hnonempty]⟩
    · exact absurd hnil hnonempty

/-- A lemma that is read was not seen before, and its lines are the first ones that are left. -/
theorem nextLemma_spec {reader reader' : RawMorphoDictionaryReader} (hready : reader.Ready)
    {raw : Option RawLemma} (h : reader.nextLemma = some (raw, reader')) :
    match raw with
    | none => reader.pending = []
    | some raw => raw.lem ∉ reader.seenLemmas ∧ raw.taggedForms ≠ [] ∧
        reader'.seenLemmas = raw.lem :: reader.seenLemmas ∧
        (reader'.Stuck ∨ reader'.Ready ∧ reader.pending.map RawLine.parse =
          raw.lines.map some ++ reader'.pending.map RawLine.parse) := by
  rw [nextLemma] at h
  simp only [Option.bind_eq_bind, Option.bind_eq_some_iff] at h
  obtain ⟨⟨found, first⟩, hfirst, h⟩ := h
  have hspec := firstLine_spec hready hfirst
  cases found with
  | false =>
    obtain ⟨rfl, rfl⟩ := Prod.mk.injEq .. ▸ Option.some.inj h
    exact hspec
  | true =>
    obtain ⟨hgood, hline, hseen, hpending⟩ := hspec
    simp only [Bool.true_eq_false, if_false] at h
    split at h
    · cases h
    · next hnew =>
      rw [List.contains_iff_mem] at hnew
      simp only [Option.bind_eq_some_iff] at h
      obtain ⟨⟨taggedForms, last⟩, hforms, h⟩ := h
      obtain ⟨rfl, rfl⟩ := Prod.mk.injEq .. ▸ Option.some.inj h
      obtain ⟨seen, hcons⟩ : ∃ seen, seen = first.tokens.lem :: first.seenLemmas := ⟨_, rfl⟩
      rw [← hcons] at hforms
      obtain ⟨more, rfl, hseen', hrest⟩ := @readForms_spec _ _ ⟨first.is, first.line, first.tokens,
        seen⟩ _ _ _ hgood hline rfl (hcons ▸ List.mem_cons_self) hforms
      refine ⟨hseen ▸ hnew, by simp, by rw [hseen', hcons, hseen], hrest.imp_right ?_⟩
      rintro ⟨hready', hmore⟩
      refine ⟨hready', ?_⟩
      rw [hpending, hmore]
      rfl

/-- The lemmas that are read are different, and their lines are the lines that are left. -/
theorem lemmasFrom_spec {fuel : ℕ} {reader : RawMorphoDictionaryReader} (hready : reader.Ready)
    {raws : List RawLemma} (h : lemmasFrom fuel reader = some raws) :
    reader.pending.map RawLine.parse = (raws.flatMap RawLemma.lines).map some ∧
      (raws.map RawLemma.lem).Nodup ∧ ∀ raw ∈ raws, raw.lem ∉ reader.seenLemmas ∧
        raw.taggedForms ≠ [] := by
  induction fuel generalizing reader raws with
  | zero => cases h
  | succ fuel ih =>
    rw [lemmasFrom] at h
    simp only [Option.bind_eq_bind, Option.bind_eq_some_iff] at h
    obtain ⟨⟨raw, reader'⟩, hnext, h⟩ := h
    have hspec := nextLemma_spec hready hnext
    cases raw with
    | none =>
      obtain rfl := Option.some.inj h
      simp only at hspec
      simp [hspec]
    | some raw =>
      simp only [Option.bind_eq_some_iff] at h
      obtain ⟨more, hmore, h⟩ := h
      obtain rfl := Option.some.inj h
      obtain ⟨hnew, hforms, hseen, hrest⟩ := hspec
      have hready' : reader'.Ready ∧ reader.pending.map RawLine.parse =
          raw.lines.map some ++ reader'.pending.map RawLine.parse := by
        refine hrest.resolve_left fun hstuck => ?_
        -- a lemma that was seen is not read again
        cases fuel with
        | zero => cases hmore
        | succ fuel =>
          rw [lemmasFrom, hstuck.nextLemma_eq_none] at hmore
          cases hmore
      obtain ⟨hlines, hnodup, hall⟩ := ih hready'.1 hmore
      refine ⟨?_, ?_, ?_⟩
      · rw [hready'.2, hlines, List.flatMap_cons, List.map_append]
      · rw [List.map_cons, List.nodup_cons]
        refine ⟨fun hmem => ?_, hnodup⟩
        obtain ⟨other, hother, heq⟩ := List.mem_map.mp hmem
        exact (hall other hother).1 (by rw [hseen, heq]; exact List.mem_cons_self)
      · refine List.forall_mem_cons.mpr ⟨⟨hnew, hforms⟩, fun other hother => ?_⟩
        obtain ⟨hunseen, hforms'⟩ := hall other hother
        exact ⟨fun hmem => hunseen (by rw [hseen]; exact List.mem_cons_of_mem _ hmem), hforms'⟩

end RawMorphoDictionaryReader

/-- The lines of a raw dictionary that have three columns. -/
def rawLines (text : Bytes) : List RawLine := (textLines text).filterMap RawLine.parse

/-- The lemmas of a raw dictionary are different, and their lines are its lines. -/
theorem lemmas_spec {text : Bytes} {raws : List RawLemma}
    (h : RawMorphoDictionaryReader.lemmas text = some raws) :
    rawLines text = raws.flatMap RawLemma.lines ∧ (raws.map RawLemma.lem).Nodup ∧
      (∀ raw ∈ raws, raw.taggedForms ≠ []) ∧ ∀ line ∈ rawLines text, line.Tabless := by
  obtain ⟨hlines, hnodup, hall⟩ := RawMorphoDictionaryReader.lemmasFrom_spec
    (.inl ⟨rfl, fun hne => absurd rfl hne⟩) h
  have hraw : rawLines text = raws.flatMap RawLemma.lines := by
    have hpending : (RawMorphoDictionaryReader.new text).pending = textLines text := rfl
    rw [hpending] at hlines
    have hmap := congrArg (List.filterMap id) hlines
    simpa [rawLines, List.filterMap_map, Function.comp_def] using hmap
  refine ⟨hraw, hnodup, fun raw hraw => (hall raw hraw).2, fun line hline => ?_⟩
  obtain ⟨_, -, hparse⟩ := List.mem_filterMap.mp hline
  exact RawLine.tabless_of_parse hparse

end UDPipe.Morphodita
