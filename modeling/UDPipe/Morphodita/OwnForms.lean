import UDPipe.Morphodita.DictionaryEncoding
import UDPipe.Morphodita.DictionaryEntries
import UDPipe.Morphodita.EnlargedMaps

/-!
# Lemmas that are their own forms

A list of different strings is a raw dictionary: each string is a lemma with one form, which is the
same string, and all have one tag. The dictionary has one class, whose only suffix is empty.
-/

namespace UDPipe.Morphodita

/-- The columns of a lemma that is its own form. -/
def ownLine (tag s : Bytes) : RawLine := ⟨s, tag, s⟩

/-- The text of such a line. -/
def ownText (tag s : Bytes) : Bytes := s ++ tab :: (tag ++ tab :: s)

/-- The raw dictionary of some strings. -/
def ownForms (tag : Bytes) (strings : List Bytes) : Bytes := joinLines (strings.map (ownText tag))

/-- Bytes that can stand in a column. -/
def ColumnText (s : Bytes) : Prop := tab ∉ s ∧ lf ∉ s

/-- The line of a string is read. -/
theorem parse_ownText {tag s : Bytes} (htag : ColumnText tag) (hs : ColumnText s) :
    RawLine.parse (ownText tag s) = some (ownLine tag s) := by
  have hjoin : [tab].intercalate [s, tag, s] = ownText tag s := by
    simp [List.intercalate, ownText]
  have hsplit := @split_intercalate tab [s, tag, s] (by simp [hs.1, htag.1])
    (by rw [hjoin, ownText]; simp)
  rw [RawLine.parse, ← hjoin, hsplit]
  rfl

/-- The line of a string is a line. -/
theorem lf_not_mem_ownText {tag s : Bytes} (htag : ColumnText tag) (hs : ColumnText s) :
    lf ∉ ownText tag s := by
  have hne : lf ≠ tab := by decide
  simp [ownText, hs.2, htag.2, hne]

namespace RawMorphoDictionaryReader

/-- A line with its terminator is read. -/
theorem getline_append_lf {line : Bytes} (h : lf ∉ line) (rest old : Bytes) :
    getline { rest := line ++ lf :: rest } old = (line, { rest }) := by
  have hall : ∀ c ∈ line, (c != lf) = true := fun c hc => by
    rw [bne_iff_ne]
    rintro rfl
    exact h hc
  simp [getline, List.takeWhile_append_of_pos hall, List.dropWhile_append_of_pos hall]

/-- Behind the last line no lemma is left. -/
theorem lemmasFrom_of_failbit {reader : RawMorphoDictionaryReader} (hline : reader.line = [])
    (hfail : reader.is.failbit = true) (fuel : ℕ) : lemmasFrom (fuel + 1) reader = some [] := by
  have hget : getline reader.is reader.line = ([], { reader.is with failbit := true }) := by
    rw [getline, hfail, Bool.or_true, if_pos rfl, hline]
  have hfirst : ∃ reader', reader.firstLine = some (false, reader') := by
    rw [firstLine, if_pos hline, hget]
    exact ⟨_, rfl⟩
  obtain ⟨reader', hfirst⟩ := hfirst
  rw [lemmasFrom, nextLemma, hfirst]
  rfl

/-- The reader behind the first line of a lemma. -/
def behindLine (tag s : Bytes) (more seenLemmas : List Bytes) : RawMorphoDictionaryReader :=
  ⟨{ rest := ownForms tag more }, ownText tag s, ownLine tag s, seenLemmas⟩

variable {tag : Bytes} (htag : ColumnText tag)
include htag

/-- The loop over the lines of a lemma stops at once: at the next lemma, or at the end. -/
theorem readForms_behindLine {s : Bytes} {more seenLemmas : List Bytes} (hmore : ∀ t ∈ more, ColumnText t)
    (hnew : s ∉ more) (fuel : ℕ) (taggedForms : List (Bytes × Bytes)) :
    ∃ reader, readForms s (fuel + 1) (behindLine tag s more seenLemmas) taggedForms =
        some (taggedForms, reader) ∧
      match more with
      | [] => reader.line = [] ∧ reader.is.failbit = true
      | t :: more => reader = behindLine tag t more seenLemmas := by
  cases more with
  | nil => exact ⟨_, rfl, rfl, rfl⟩
  | cons t more =>
    have ht := hmore t List.mem_cons_self
    have hget := getline_append_lf (lf_not_mem_ownText htag ht) (ownForms tag more) (ownText tag s)
    have hforms : ownForms tag (t :: more) = ownText tag t ++ lf :: ownForms tag more :=
      joinLines_cons _ _
    have hne : s ≠ t := fun heq => hnew (heq ▸ List.mem_cons_self)
    refine ⟨_, ?_, rfl⟩
    simp only [readForms, behindLine, hforms, hget, Bool.false_eq_true, if_false,
      parse_ownText htag ht, Option.bind_eq_bind, Option.bind_some, ownLine, hne, ne_eq,
      not_false_eq_true, if_true]

/-- A lemma whose line was read is returned, with that line. -/
theorem nextLemma_behindLine {s : Bytes} {more seenLemmas : List Bytes}
    (hmore : ∀ t ∈ more, ColumnText t) (hnew : s ∉ more) (hseen : s ∉ seenLemmas) :
    ∃ reader, (behindLine tag s more seenLemmas).nextLemma =
        some (some ⟨s, [(s, tag)]⟩, reader) ∧
      match more with
      | [] => reader.line = [] ∧ reader.is.failbit = true
      | t :: more => reader = behindLine tag t more (s :: seenLemmas) := by
  have hline : ownText tag s ≠ [] := by simp [ownText]
  obtain ⟨reader, hforms, hreader⟩ := @readForms_behindLine _ htag s more (s :: seenLemmas) hmore
    hnew (ownForms tag more).length [(s, tag)]
  refine ⟨reader, ?_, hreader⟩
  rw [behindLine] at hforms
  simp only [nextLemma, firstLine, behindLine, hline, if_false, Option.bind_eq_bind,
    Option.bind_some, Bool.true_eq_false, ownLine, List.contains_iff_mem, hseen] at hforms ⊢
  rw [hforms]
  rfl

/-- The lemmas behind a line that was read. -/
theorem lemmasFrom_behindLine {s : Bytes} {more seenLemmas : List Bytes} {fuel : ℕ}
    (hfuel : more.length + 2 ≤ fuel) (hmore : ∀ t ∈ more, ColumnText t)
    (hnodup : (s :: more).Nodup) (hseen : ∀ t ∈ s :: more, t ∉ seenLemmas) :
    lemmasFrom fuel (behindLine tag s more seenLemmas) =
      some ((s :: more).map fun t => ⟨t, [(t, tag)]⟩) := by
  induction more generalizing s seenLemmas fuel with
  | nil =>
    obtain ⟨fuel, rfl⟩ := Nat.exists_eq_add_of_le' hfuel
    obtain ⟨reader, hnext, hline, hfail⟩ := @nextLemma_behindLine _ htag s [] seenLemmas hmore
      List.not_mem_nil (hseen s List.mem_cons_self)
    have hrest := lemmasFrom_of_failbit hline hfail fuel
    rw [List.length_nil, Nat.zero_add, Nat.add_succ, lemmasFrom, hnext]
    simp only [Option.bind_eq_bind, Option.bind_some]
    rw [hrest]
    rfl
  | cons t more ih =>
    obtain ⟨fuel, rfl⟩ := Nat.exists_eq_add_of_le' hfuel
    obtain ⟨hs, hnodup⟩ := List.nodup_cons.mp hnodup
    obtain ⟨reader, hnext, rfl⟩ := @nextLemma_behindLine _ htag s (t :: more) seenLemmas hmore hs
      (hseen s List.mem_cons_self)
    have hrest := @ih t (s :: seenLemmas) (fuel + more.length + 2) (by omega)
      (fun u hu => hmore u (List.mem_cons_of_mem _ hu)) hnodup (by
        intro u hu hmem
        rcases List.mem_cons.mp hmem with rfl | hmem
        · exact hs hu
        · exact hseen u (List.mem_cons_of_mem _ hu) hmem)
    have hfuel' : fuel + ((t :: more).length + 2) = fuel + more.length + 2 + 1 := by
      rw [List.length_cons]
      omega
    rw [hfuel', lemmasFrom, hnext]
    simp only [Option.bind_eq_bind, Option.bind_some]
    rw [hrest]
    rfl

/-- The strings are the lemmas. -/
theorem lemmas_ownForms {strings : List Bytes} (hstrings : ∀ s ∈ strings, ColumnText s)
    (hnodup : strings.Nodup) :
    lemmas (ownForms tag strings) = some (strings.map fun s => ⟨s, [(s, tag)]⟩) := by
  cases strings with
  | nil => rfl
  | cons s more =>
    obtain ⟨hs, hmore⟩ := List.forall_mem_cons.mp hstrings
    have hforms : ownForms tag (s :: more) = ownText tag s ++ lf :: ownForms tag more :=
      joinLines_cons _ _
    have hget := getline_append_lf (lf_not_mem_ownText htag hs) (ownForms tag more) []
    -- the first call reads the line first
    have hfirst : (new (ownForms tag (s :: more))).firstLine =
        (behindLine tag s more []).firstLine := by
      have hline : ownText tag s ≠ [] := by simp [ownText]
      simp only [firstLine, new, behindLine, hforms, hget, hline, if_true, if_false,
        Bool.false_eq_true, parse_ownText htag hs, Option.map_some]
    have hnext : (new (ownForms tag (s :: more))).nextLemma =
        (behindLine tag s more []).nextLemma := by
      rw [nextLemma, hfirst]
      rfl
    have hlength := length_le_length_joinLines (more.map (ownText tag))
    rw [List.length_map, ← ownForms] at hlength
    have hall := @lemmasFrom_behindLine _ htag s more [] ((ownForms tag (s :: more)).length + 2)
      (by rw [hforms, List.length_append, List.length_cons]; omega) hmore hnodup (by simp)
    rw [lemmas, lemmasFrom, hnext]
    exact hall

end RawMorphoDictionaryReader

namespace Dictionary

/-! ### One class -/

/-- A string matches itself. -/
theorem matchLength_self (s : Bytes) : Derinet.matchLength s s = s.length := by
  induction s with
  | nil => rfl
  | cons c s ih => simp [Derinet.matchLength, ih]

/-- A form alone is a root with the empty suffix. -/
theorem nextClass_singleton (maxSuffixLen : ℤ) (f : TaggedForm) :
    nextClass maxSuffixLen [f] = some ⟨f.1, [([], f.2)], []⟩ := by
  obtain ⟨str, hstr, hbegins⟩ := @Trie.exists_candidate [Derinet.cString f.1] (by simp) maxSuffixLen
  rw [List.mem_singleton.mp hstr] at hbegins
  obtain ⟨pref, hpref⟩ : ∃ pref, pref = (([Derinet.cString f.1].foldl (fun t str => t.add str)
    Trie.empty).findCandidatePrefix maxSuffixLen [] 0 ([], 0)).1 := ⟨_, rfl⟩
  rw [← hpref] at hbegins
  have htake : f.1.take pref.length = pref :=
    (List.prefix_iff_eq_take.mp (hbegins.trans (List.takeWhile_prefix _))).symm
  have hclass : nextClass maxSuffixLen [f] = classOf pref [f] := by
    rw [hpref]
    rfl
  have hlength : pref.length + (f.1.length - pref.length) = f.1.length := by
    have hle := congrArg List.length htake
    rw [List.length_take] at hle
    omega
  rw [hclass, classOf]
  simp [htake, matchLength_self]
  omega

/-- The table of the only class. -/
def ownTable (tag : Bytes) : ClassTable :=
  ⟨[(tab :: tag, 0)], [([], [(0, [0])])], ⟨[tag], [(tag, 0)]⟩⟩

/-- A lemma with its only root. -/
def ownLemma (s : Bytes) : DictionaryLemma := ⟨s, [], [⟨s, 0⟩]⟩

/-- The class is added once. -/
theorem classId_own {tag : Bytes} {table : ClassTable}
    (h : table = .empty ∨ table = ownTable tag) : table.classId [([], tag)] = (0, ownTable tag) := by
  rcases h with rfl | rfl
  · rfl
  · simp [ClassTable.classId, classString, ownTable]

/-- A lemma with its own form adds itself to the dictionary. -/
theorem addLemma_own {tag : Bytes} (maxSuffixLen : ℤ) {dict : Dictionary}
    (h : dict.table = .empty ∨ dict.table = ownTable tag) (s : Bytes) :
    dict.addLemma genericLemmaAddinfo maxSuffixLen ⟨s, [(s, tag)]⟩ =
      some ⟨ownTable tag, dict.lemmasHist.add s, dict.formsHist.add s,
        dict.lemmas ++ [ownLemma s]⟩ := by
  have hunique : unique ([(s, tag)].insertionSort taggedFormLe) = [(s, tag)] := rfl
  simp only [addLemma, hunique, List.length_singleton, addForms, nextClass_singleton,
    classId_own h, genericLemmaAddinfo, List.take_length, Option.bind_eq_bind, Option.bind_some,
    List.nil_append]
  rfl

/-- The lengths of some strings. -/
def ownHist (strings : List Bytes) : Histogram := strings.foldl Histogram.add []

/-- The dictionary with the lemmas in the order of the strings. -/
def ownDictionary (tag : Bytes) (strings : List Bytes) : Dictionary :=
  ⟨if strings = [] then .empty else ownTable tag, ownHist strings, ownHist strings,
    strings.map ownLemma⟩

/-- The lemmas with their own forms make the dictionary. -/
theorem addLemmas_own (tag : Bytes) (maxSuffixLen : ℤ) (strings : List Bytes) :
    addLemmas genericLemmaAddinfo maxSuffixLen (strings.map fun s => ⟨s, [(s, tag)]⟩) =
      some (ownDictionary tag strings) := by
  induction strings using List.reverseRecOn with
  | nil => rfl
  | append_singleton strings s ih =>
    have htable : (ownDictionary tag strings).table = .empty ∨
        (ownDictionary tag strings).table = ownTable tag := by
      rw [ownDictionary]
      split
      · exact .inl rfl
      · exact .inr rfl
    have hadd := addLemma_own maxSuffixLen htable s
    rw [addLemmas] at ih ⊢
    rw [List.map_append, List.foldlM_append, ih, Option.bind_eq_bind, Option.bind_some,
      List.map_singleton, List.foldlM_cons, hadd]
    simp [ownDictionary, ownHist, List.foldl_append]

/-- The dictionary of some strings is read. -/
theorem load_ownForms {tag : Bytes} (htag : ColumnText tag) {strings : List Bytes}
    (hstrings : ∀ s ∈ strings, ColumnText s) (hnodup : strings.Nodup) (maxSuffixLen : ℤ) :
    load genericLemmaAddinfo (ownForms tag strings) maxSuffixLen =
      some { ownDictionary tag strings with
        lemmas := (strings.map ownLemma).insertionSort DictionaryLemma.le } := by
  rw [load, RawMorphoDictionaryReader.lemmas_ownForms htag hstrings hnodup, Option.bind_eq_bind,
    Option.bind_some, addLemmas_own]
  rfl

/-! ### Short strings are encoded -/

/-- The histogram of short strings is short. -/
theorem length_ownHist_le {strings : List Bytes} {bound : ℕ}
    (h : ∀ s ∈ strings, s.length < bound) : (ownHist strings).length ≤ bound := by
  induction strings using List.reverseRecOn with
  | nil => exact Nat.zero_le _
  | append_singleton strings s ih =>
    obtain ⟨hstrings, hs⟩ := List.forall_mem_append.mp h
    have hle := ih hstrings
    rw [ownHist] at hle ⊢
    rw [List.foldl_append, List.foldl_cons, List.foldl_nil, Histogram.length_add]
    exact max_le hle (hs s (List.mem_singleton_self s))

/-- There are not more strings of a length than strings. -/
theorem length_le_of_mem_ownHist {strings : List Bytes} :
    ∀ sameLength ∈ ownHist strings, sameLength.length ≤ strings.length := by
  induction strings using List.reverseRecOn with
  | nil => simp [ownHist]
  | append_singleton strings s ih =>
    intro sameLength hmem
    rw [ownHist, List.foldl_append, List.foldl_cons, List.foldl_nil, ← ownHist,
      Histogram.add] at hmem
    rw [List.length_append, List.length_singleton]
    have hold : ∀ l ∈ ownHist strings ++
        List.replicate (s.length + 1 - (ownHist strings).length) [], l.length ≤ strings.length := by
      refine List.forall_mem_append.mpr ⟨ih, fun l hl => ?_⟩
      rw [List.eq_of_mem_replicate hl]
      exact Nat.zero_le _
    obtain ⟨i, hi⟩ := List.mem_iff_getElem?.mp hmem
    rw [List.getElem?_modify] at hi
    obtain ⟨l, hl, rfl⟩ := Option.map_eq_some_iff.mp hi
    have hlength := hold l (List.mem_of_getElem? hl)
    split
    · rw [List.length_insert]
      split <;> omega
    · exact Nat.le_succ_of_le hlength

/-- The histogram of short strings is encoded. -/
theorem exists_encodeHistogram {strings : List Bytes} (hlength : ∀ s ∈ strings, s.length < 255)
    (hcount : strings.length < 2 ^ 32) :
    ∃ data, encodeHistogram (ownHist strings) = some data := by
  have hsize := @add_of_lt 1 _ (show (ownHist strings).length < 256 ^ 1 from
    Nat.lt_succ_of_le (length_ownHist_le hlength))
  obtain ⟨sizes, hsizes⟩ := @exists_mapM _ _ (fun l : List Bytes => add4B l.length)
    (ownHist strings) fun l hl => ⟨_, add_of_lt ((length_le_of_mem_ownHist l hl).trans_lt hcount)⟩
  simp only [encodeHistogram, add1B, hsize, hsizes, Option.bind_eq_bind, Option.bind_some]
  exact ⟨_, rfl⟩

/-- The dictionary of short strings is encoded, in any order of the lemmas. -/
theorem exists_encode_own {tag : Bytes} (htag : tag.length < 256) {strings : List Bytes}
    (hne : strings ≠ []) (hlength : ∀ s ∈ strings, s.length < 255)
    (hcount : strings.length < 2 ^ 32) {lemmas : List DictionaryLemma}
    (hlemmas : lemmas.Perm (strings.map ownLemma)) :
    ∃ data, encode { ownDictionary tag strings with lemmas } = some data := by
  obtain ⟨hist, hhist⟩ := exists_encodeHistogram hlength hcount
  have hnumber := @add_of_lt 4 _ (show lemmas.length < 256 ^ 4 by
    rw [hlemmas.length_eq, List.length_map]
    exact hcount)
  rw [← add4B] at hnumber
  obtain ⟨records, hrecords⟩ := @exists_encodeLemmas [] lemmas (by decide) (by
    intro info hinfo
    obtain ⟨s, hs, rfl⟩ := List.mem_map.mp (hlemmas.subset hinfo)
    have hs := hlength s hs
    refine ⟨hs.trans (by decide), ⟨by simp [ownLemma], by simp [ownLemma], ?_⟩, ?_⟩
    · simp [ownLemma]
    · simp only [ownLemma, List.forall_mem_singleton]
      exact hs.trans (by decide))
  obtain ⟨tags, htags⟩ : ∃ tags, encodeTags [tag] = some tags := by
    obtain ⟨cells, hcells⟩ := @exists_mapM _ _ encodeString [tag] (by
      simp only [List.forall_mem_singleton, encodeString, add1B, @add_of_lt 1 _ htag,
        Option.bind_eq_bind, Option.bind_some]
      exact ⟨_, rfl⟩)
    rw [encodeTags, hcells]
    exact ⟨_, rfl⟩
  obtain ⟨entries, hentries⟩ : ∃ entries : List (Bytes × Bytes),
      entries = [([], [1, 0, 0, 0, 0, 0, 1, 0, 0, 0])] := ⟨_, rfl⟩
  have hsuffixes : encodedSuffixes (ownTable tag).suffixes = some entries := by
    rw [hentries]
    change encodedSuffixes [([], [(0, [0])])] = _
    decide
  obtain ⟨saved, hsaved⟩ := PersistentUnorderedMap.exists_save entries id (5 * ·)
    (by rw [hentries]; decide) (by rw [hentries]; decide) (by rw [hentries]; decide)
    (by rw [hentries]; decide) fun size => le_rfl
  have htable : (ownDictionary tag strings).table = ownTable tag := if_neg hne
  simp only [encode, htable]
  simp only [ownDictionary, hhist, hnumber, hrecords, hsuffixes, hsaved, Option.bind_eq_bind,
    Option.bind_some, Option.pure_def]
  rw [ownTable, htags]
  exact ⟨_, rfl⟩

end Dictionary

end UDPipe.Morphodita
