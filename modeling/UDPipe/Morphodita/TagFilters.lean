import UDPipe.Morphodita.PrefixGuesser

/-!
# Tag wildcards

What a wildcard means is a list of elements, one for every place of a tag. The constructor of
`tag_filter` in `morpho/tag_filter.cpp` compiles a wildcard into filters that point into it,
and the loops of `matches` in `morpho/tag_filter.h` run over the filters and the tag.
-/

namespace UDPipe.Morphodita

/-! ### Elements of a wildcard -/

/-- What a wildcard has for a place of a tag. -/
inductive WildcardElement where
  | any
  | literal (c : Byte)
  | oneOf (chars : Bytes)
  | noneOf (chars : Bytes)
  deriving DecidableEq, Repr

namespace WildcardElement

/-- The characters that an element admits. -/
def admits : WildcardElement → Byte → Bool
  | any, _ => true
  | literal c, d => d == c
  | oneOf chars, d => chars.contains d
  | noneOf chars, d => !chars.contains d

/-- The characters in brackets, the first of which may be `]`, and what comes after them. -/
def bracket : Bytes → Bytes × Bytes
  | [] => ([], [])
  | first :: wildcard =>
    (first :: wildcard.takeWhile (· ≠ 93), (wildcard.dropWhile (· ≠ 93)).drop 1)

/-- What is behind a bracket is a part of the wildcard. -/
theorem length_bracket_le (wildcard : Bytes) : (bracket wildcard).2.length ≤ wildcard.length := by
  cases wildcard with
  | nil => rfl
  | cons first wildcard =>
    have hdrop := (List.dropWhile_suffix (· ≠ 93) (l := wildcard)).length_le
    simp only [bracket, List.length_drop, List.length_cons]
    omega

/-- The elements of a wildcard. -/
def elements : Bytes → List WildcardElement
  | [] => []
  | c :: wildcard =>
    if c = 63 then any :: elements wildcard
    else if c = 91 then
      if wildcard.head? = some 94 then
        noneOf (bracket (wildcard.drop 1)).1 :: elements (bracket (wildcard.drop 1)).2
      else oneOf (bracket wildcard).1 :: elements (bracket wildcard).2
    else literal c :: elements wildcard
termination_by wildcard => wildcard.length
decreasing_by
  · simp only [List.length_cons, Nat.lt_succ_self]
  · have hle := length_bracket_le (wildcard.drop 1)
    rw [List.length_drop] at hle
    rw [List.length_cons]
    omega
  · exact Nat.lt_succ_of_le (length_bracket_le wildcard)
  · simp only [List.length_cons, Nat.lt_succ_self]

end WildcardElement

open WildcardElement

namespace TagFilter

/-! ### The method `matches` -/

/-- The loop over the characters of a filter after the first one. -/
def matchedLoop (wildcard : Bytes) (f : CharFilter) (c : Byte) : ℕ → ℕ → Bool → Bool
  | 0, _, matched => matched
  | remaining + 1, i, matched =>
    if !matched ^^ f.negate then
      matchedLoop wildcard f c remaining (i + 1)
        ((wildcard.getD (f.charsOffset + i) 0 == c) ^^ f.negate)
    else matched

/-- Whether a filter matches a character. The first character of the filter is compared even if
it has none. -/
def charMatches (wildcard : Bytes) (f : CharFilter) (c : Byte) : Bool :=
  matchedLoop wildcard f c (f.charsLen - 1) 1 ((wildcard.getD f.charsOffset 0 == c) ^^ f.negate)

/-- The loop to the next filter position; `none` at the end of the tag. -/
def skip : ℕ → Bytes → Option Bytes
  | 0, tag => some tag
  | count + 1, tag => if tag.headD 0 = 0 then none else skip count (tag.drop 1)

/-- The loop over the filters, with the rest of the tag from `tagPos` on. -/
def matchesFrom (wildcard : Bytes) : List CharFilter → ℕ → Bytes → Bool
  | [], _, _ => true
  | f :: filters, tagPos, tag =>
    match skip (f.pos - tagPos) tag with
    | none => true
    | some tag =>
      if tag.headD 0 = 0 then true
      else if charMatches wildcard f (tag.headD 0) then
        matchesFrom wildcard filters (max tagPos f.pos) tag
      else false

/-- The method `matches`, with its loops. -/
def matchesLoops (filter : TagFilter) (tag : Bytes) : Bool :=
  if filter.filters = [] then true else matchesFrom filter.wildcard filter.filters 0 tag

/-! ### Filters and elements -/

/-- A filter points at the characters of an element. A filter without characters points at the
end of the wildcard. -/
structure Means (wildcard : Bytes) (f : CharFilter) (e : WildcardElement) : Prop where
  within : f.charsOffset + f.charsLen ≤ wildcard.length
  empty : f.charsLen = 0 → f.charsOffset = wildcard.length
  admits : ∀ c, (((wildcard.drop f.charsOffset).take f.charsLen).contains c ^^ f.negate) =
    e.admits c

/-- Filters stand for elements, the first of which is for the place `tagPos`. -/
inductive Compiles (wildcard : Bytes) : ℕ → List WildcardElement → List CharFilter → Prop
  | nil (tagPos : ℕ) : Compiles wildcard tagPos [] []
  | any {tagPos : ℕ} {elements : List WildcardElement} {filters : List CharFilter}
      (rest : Compiles wildcard (tagPos + 1) elements filters) :
      Compiles wildcard tagPos (.any :: elements) filters
  | filter {tagPos : ℕ} {e : WildcardElement} {elements : List WildcardElement} {f : CharFilter}
      {filters : List CharFilter} (pos : f.pos = tagPos) (means : Means wildcard f e)
      (rest : Compiles wildcard (tagPos + 1) elements filters) :
      Compiles wildcard tagPos (e :: elements) (f :: filters)

/-- Once the character is found, or while it is not, the negation does not matter. -/
theorem matchedLoop_eq {wildcard : Bytes} {f : CharFilter} (c : Byte) {remaining i : ℕ}
    (h : f.charsOffset + i + remaining ≤ wildcard.length) (found : Bool) :
    matchedLoop wildcard f c remaining i (found ^^ f.negate) =
      ((found || ((wildcard.drop (f.charsOffset + i)).take remaining).contains c) ^^ f.negate) := by
  induction remaining generalizing i found with
  | zero => simp [matchedLoop]
  | succ remaining ih =>
    rw [matchedLoop]
    cases found with
    | true =>
      have hstop : (!(true ^^ f.negate) ^^ f.negate) = false := by cases f.negate <;> rfl
      rw [hstop, if_neg Bool.false_ne_true, Bool.true_or]
    | false =>
      have hnext : (!(false ^^ f.negate) ^^ f.negate) = true := by cases f.negate <;> rfl
      have hlt : f.charsOffset + i < wildcard.length := by omega
      rw [hnext, if_pos rfl, ih (by omega), List.drop_eq_getElem_cons hlt, List.take_succ_cons,
        List.contains_cons, Bool.false_or, List.getD_eq_getElem?_getD,
        List.getElem?_eq_getElem hlt, Option.getD_some, Bool.beq_comm, Nat.add_assoc]

/-- A filter matches the characters that its element admits. -/
theorem charMatches_eq {wildcard : Bytes} {f : CharFilter} {e : WildcardElement}
    (h : Means wildcard f e) {c : Byte} (hc : c ≠ 0) : charMatches wildcard f c = e.admits c := by
  rw [← h.admits c, charMatches]
  rcases Nat.eq_zero_or_pos f.charsLen with hzero | hpos
  · -- the zero that ends the wildcard is compared
    have hend : wildcard.getD f.charsOffset 0 = 0 := by
      rw [h.empty hzero, List.getD_eq_getElem?_getD, List.getElem?_eq_none le_rfl]
      rfl
    have hne : ((0 : Byte) == c) = false := beq_eq_false_iff_ne.mpr hc.symm
    rw [hend, hzero, hne]
    rfl
  · obtain ⟨n, hn⟩ : ∃ n, f.charsLen = n + 1 := ⟨f.charsLen - 1, by omega⟩
    have hwithin := h.within
    have hlt : f.charsOffset < wildcard.length := by omega
    rw [matchedLoop_eq c (by omega), hn, List.drop_eq_getElem_cons hlt, List.take_succ_cons,
      List.contains_cons, List.getD_eq_getElem?_getD, List.getElem?_eq_getElem hlt,
      Option.getD_some, Bool.beq_comm, Nat.add_sub_cancel]

/-- The characters in brackets are as many as the constructor counts. -/
theorem bracket_eq (wildcard : Bytes) :
    bracket wildcard =
      (wildcard.take (charsLength wildcard), wildcard.drop (charsLength wildcard + 1)) := by
  cases wildcard with
  | nil => rfl
  | cons first wildcard =>
    have htake := List.prefix_iff_eq_take.mp (List.takeWhile_prefix (· ≠ 93) (l := wildcard))
    have hdrop := congrArg (List.drop (wildcard.takeWhile (· ≠ 93)).length)
      (List.takeWhile_append_dropWhile (p := (· ≠ 93)) (l := wildcard))
    rw [List.drop_left] at hdrop
    rw [bracket, charsLength, List.take_succ_cons, List.drop_succ_cons, ← htake, hdrop,
      List.drop_drop]

/-- The characters of an element are a part of the wildcard. -/
theorem charsLength_le (wildcard : Bytes) : charsLength wildcard ≤ wildcard.length := by
  cases wildcard with
  | nil => exact le_rfl
  | cons first wildcard =>
    rw [charsLength, List.length_cons]
    exact Nat.succ_le_succ (List.takeWhile_prefix _).length_le

/-- A filter for brackets, with what is compiled after them. -/
theorem Compiles.bracket {wildcard chars : Bytes} {tagPos charsStart : ℕ} {negate : Bool}
    {e : WildcardElement} (hle : charsStart ≤ wildcard.length)
    (hchars : wildcard.drop charsStart = chars)
    (he : ∀ c, ((WildcardElement.bracket chars).1.contains c ^^ negate) = e.admits c)
    (hrest : charsLength chars < chars.length → Compiles wildcard (tagPos + 1)
      (elements (chars.drop (charsLength chars + 1)))
      (charFilters (tagPos + 1) (charsStart + charsLength chars + 1)
        (chars.drop (charsLength chars + 1)))) :
    Compiles wildcard tagPos (e :: elements (WildcardElement.bracket chars).2)
      (⟨tagPos, negate, charsStart, charsLength chars⟩ ::
        if charsLength chars < chars.length then
          charFilters (tagPos + 1) (charsStart + charsLength chars + 1)
            (chars.drop (charsLength chars + 1))
        else []) := by
  have hlength : wildcard.length = charsStart + chars.length := by
    rw [← hchars, List.length_drop]
    omega
  have hcount := charsLength_le chars
  refine .filter rfl ⟨?_, ?_, ?_⟩ ?_
  · simp only
    omega
  · intro hzero
    cases chars with
    | nil => exact hlength.symm
    | cons first chars => cases hzero
  · intro c
    rw [← he c, bracket_eq, hchars]
  · rw [bracket_eq]
    split_ifs with hlt
    · exact hrest hlt
    · rw [List.drop_of_length_le (by omega), elements]
      exact .nil _

/-- The constructor compiles the elements of the wildcard. -/
theorem compiles_charFilters {wildcard filter : Bytes} {tagPos filterPos : ℕ}
    (hle : filterPos ≤ wildcard.length) (h : wildcard.drop filterPos = filter) :
    Compiles wildcard tagPos (elements filter) (charFilters tagPos filterPos filter) := by
  induction hn : filter.length using Nat.strongRecOn generalizing filter tagPos filterPos with
  | ind n ih =>
    cases filter with
    | nil =>
      rw [elements, charFilters]
      exact .nil tagPos
    | cons c filter =>
      have hlength : wildcard.length = filterPos + filter.length + 1 := by
        have hdrop := congrArg List.length h
        rw [List.length_drop, List.length_cons] at hdrop
        omega
      have hnext : wildcard.drop (filterPos + 1) = filter := by
        rw [← List.drop_drop, h, List.drop_one, List.tail_cons]
      rw [elements, charFilters]
      by_cases hany : c = 63
      · rw [if_pos hany, if_pos hany]
        exact .any (ih filter.length (by rw [← hn]; exact Nat.lt_succ_self _) (by omega) hnext rfl)
      rw [if_neg hany, if_neg hany]
      by_cases hbracket : c = 91
      · rw [if_pos hbracket, if_pos hbracket]
        have hbrackets (skipped : ℕ) (hskipped : skipped ≤ filter.length) (negate : Bool)
            (e : WildcardElement) (he : ∀ c,
              ((WildcardElement.bracket (filter.drop skipped)).1.contains c ^^ negate) =
                e.admits c) :=
          @Compiles.bracket wildcard (filter.drop skipped) tagPos (filterPos + 1 + skipped) negate e
            (by omega) (by rw [← List.drop_drop, hnext]) he fun hlt =>
              ih _ (by simp only [List.length_drop, List.length_cons] at hn ⊢; omega)
                (by rw [List.length_drop] at hlt; omega)
                (by rw [← List.drop_drop, ← List.drop_drop, ← List.drop_drop, hnext,
                  List.drop_drop (l := filter.drop skipped)]) rfl
        by_cases hnegate : filter.head? = some 94
        · have hone : 1 ≤ filter.length := by
            cases filter with
            | nil => cases hnegate
            | cons first filter => exact Nat.le_add_left 1 filter.length
          simp only [hnegate]
          exact hbrackets 1 hone true _ (fun c => by rw [Bool.xor_true]; rfl)
        · simp only [hnegate]
          exact hbrackets 0 (Nat.zero_le _) false _ (fun c => by rw [Bool.xor_false]; rfl)
      · rw [if_neg hbracket, if_neg hbracket]
        refine .filter rfl ⟨?_, ?_, ?_⟩
          (ih filter.length (by rw [← hn]; exact Nat.lt_succ_self _) (by omega) hnext rfl)
        · simp only
          omega
        · simp
        · intro d
          rw [h, List.take_succ_cons, List.take_zero, List.contains_cons]
          simp [WildcardElement.admits]

/-! ### Runs over a tag -/

/-- The elements for the places of a tag admit its characters. -/
def admitAll (elements : List WildcardElement) (tag : Bytes) : Bool :=
  (elements.zip tag).all fun p => p.1.admits p.2

/-- The first element admits the next character, and the others the rest. -/
theorem admitAll_cons_drop (e : WildcardElement) (elements : List WildcardElement) (tag : Bytes)
    (n : ℕ) : admitAll (e :: elements) (tag.drop n) =
      (tag[n]?.all e.admits && admitAll elements (tag.drop (n + 1))) := by
  rcases Nat.lt_or_ge n tag.length with hlt | hge
  · rw [List.drop_eq_getElem_cons hlt, List.getElem?_eq_getElem hlt]
    rfl
  · rw [List.drop_of_length_le hge, List.drop_of_length_le (by omega), List.getElem?_eq_none hge]
    simp [admitAll]

/-- Skipping characters stays inside the tag. -/
theorem skip_eq {tag : Bytes} (htag : 0 ∉ tag) (count : ℕ) :
    skip count tag = if count ≤ tag.length then some (tag.drop count) else none := by
  induction count generalizing tag with
  | zero => rfl
  | succ count ih =>
    cases tag with
    | nil => rfl
    | cons c tag =>
      rw [List.mem_cons, not_or] at htag
      rw [skip, List.headD_cons, if_neg (Ne.symm htag.1), List.drop_one, List.tail_cons, ih htag.2,
        List.length_cons, List.drop_succ_cons]
      simp only [Nat.succ_le_succ_iff]

/-- The loop over compiled filters, from a place on. -/
theorem matchesFrom_eq {wildcard : Bytes} {elements : List WildcardElement}
    {filters : List CharFilter} {place : ℕ} (h : Compiles wildcard place elements filters)
    {tagPos : ℕ} (hle : tagPos ≤ place) {tag : Bytes} (htag : 0 ∉ tag) :
    matchesFrom wildcard filters tagPos tag = admitAll elements (tag.drop (place - tagPos)) := by
  induction h generalizing tagPos tag with
  | nil => rfl
  | any rest ih =>
    have hany (c : Option Byte) : c.all WildcardElement.any.admits = true := by
      cases c <;> rfl
    rw [ih (by omega) htag, admitAll_cons_drop, Nat.sub_add_comm hle, hany, Bool.true_and]
  | @filter place e elements f filters pos means rest ih =>
    rw [matchesFrom, pos, skip_eq htag, admitAll_cons_drop]
    rcases Nat.lt_or_ge (place - tagPos) tag.length with hlt | hge
    · have hmem := List.getElem_mem hlt
      have hne : tag[place - tagPos] ≠ 0 := fun hzero => htag (hzero ▸ hmem)
      rw [if_pos hlt.le, List.drop_eq_getElem_cons hlt, List.getElem?_eq_getElem hlt]
      simp only [List.headD_cons, if_neg hne, Option.all_some, charMatches_eq means hne]
      cases e.admits tag[place - tagPos] with
      | false => rfl
      | true =>
        have hrest : 0 ∉ tag[place - tagPos] :: tag.drop (place - tagPos + 1) := by
          rw [← List.drop_eq_getElem_cons hlt]
          exact fun hzero => htag (List.mem_of_mem_drop hzero)
        rw [if_pos rfl, Nat.max_eq_right hle, ih (Nat.le_succ place) hrest,
          Nat.add_sub_cancel_left, List.drop_one, List.tail_cons, Bool.true_and]
    · have hnone : admitAll elements (tag.drop (place - tagPos + 1)) = true := by
        rw [List.drop_of_length_le (by omega)]
        simp [admitAll]
      rw [List.getElem?_eq_none hge, hnone, List.drop_of_length_le hge]
      split_ifs <;> rfl

/-- A filter is compiled from the wildcard up to its first zero. -/
theorem compiles_ofString (wildcard : Bytes) : Compiles (ofString wildcard).wildcard 0
    (elements (wildcard.takeWhile (· ≠ 0))) (ofString wildcard).filters :=
  compiles_charFilters (Nat.zero_le _) rfl

/-- The loops admit what the elements do. -/
theorem matchesLoops_eq_admitAll (wildcard : Bytes) {tag : Bytes} (htag : 0 ∉ tag) :
    (ofString wildcard).matchesLoops tag =
      admitAll (elements (wildcard.takeWhile (· ≠ 0))) tag := by
  have hrun := matchesFrom_eq (compiles_ofString wildcard) (Nat.le_refl 0) htag
  rw [matchesLoops]
  split_ifs with hempty
  · rw [hempty] at hrun
    exact hrun
  · exact hrun

/-- The filters looked up by their places match what the loop matches. -/
theorem matchesTag_eq_matchesLoops (wildcard : Bytes) {tag : Bytes} (htag : 0 ∉ tag) :
    (ofString wildcard).matchesTag tag = (ofString wildcard).matchesLoops tag := by
  have hcut : tag.takeWhile (· ≠ 0) = tag := by
    rw [List.takeWhile_eq_self_iff]
    intro c hc
    exact decide_eq_true fun hzero => htag (hzero ▸ hc)
  have hgo {elements : List WildcardElement} {filters : List CharFilter} {place : ℕ}
      (h : Compiles (ofString wildcard).wildcard place elements filters) :
      matchesTag.go (ofString wildcard) tag filters = admitAll elements (tag.drop place) := by
    induction h with
    | nil => rfl
    | any rest ih =>
      have hany (c : Option Byte) : c.all WildcardElement.any.admits = true := by
        cases c <;> rfl
      rw [ih, admitAll_cons_drop, hany, Bool.true_and]
    | @filter place e elements f filters pos means rest ih =>
      rw [matchesTag.go, pos, admitAll_cons_drop, ← ih]
      cases hplace : tag[place]? with
      | none =>
        have hnone : admitAll elements (tag.drop (place + 1)) = true := by
          rw [List.drop_of_length_le (by rw [List.getElem?_eq_none_iff] at hplace; omega)]
          simp [admitAll]
        rw [ih, hnone]
        rfl
      | some c =>
        rw [Option.all_some, ← means.admits c]
  rw [matchesTag, hcut, hgo (compiles_ofString wildcard), matchesLoops_eq_admitAll wildcard htag]
  rfl

/-- A compiled filter matches a tag when every character of the tag is admitted by the element
of the wildcard for its place, as far as both of them go. -/
theorem matchesLoops_iff (wildcard : Bytes) {tag : Bytes} (htag : 0 ∉ tag) :
    (ofString wildcard).matchesLoops tag = true ↔
      ∀ p ∈ (elements (wildcard.takeWhile (· ≠ 0))).zip tag, p.1.admits p.2 = true := by
  rw [matchesLoops_eq_admitAll wildcard htag]
  exact List.all_eq_true

/-- In `N[]a][^b` a closing bracket stands first, and a bracket is not closed. -/
theorem matchesLoops_unterminated :
    elements [78, 91, 93, 97, 93, 91, 94, 98] = [.literal 78, .oneOf [93, 97], .noneOf [98]] ∧
      (ofString [78, 91, 93, 97, 93, 91, 94, 98]).matchesLoops (bytes "N]c4") = true := by
  have helements : elements [78, 91, 93, 97, 93, 91, 94, 98] =
      [.literal 78, .oneOf [93, 97], .noneOf [98]] := by
    simp [elements, bracket]
  refine ⟨helements, (matchesLoops_iff _ (by decide)).mpr ?_⟩
  have hcut : ([78, 91, 93, 97, 93, 91, 94, 98] : Bytes).takeWhile (· ≠ 0) =
      [78, 91, 93, 97, 93, 91, 94, 98] := by decide
  rw [hcut, helements]
  decide

end TagFilter

end UDPipe.Morphodita
