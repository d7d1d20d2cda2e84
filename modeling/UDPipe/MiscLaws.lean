import UDPipe.Misc

/-!
# The MISC column as a store

For any MISC column, each setter of `sentence/token.cpp` is one or two assignments to
named fields. An assignment decides the field of its name, keeps all other fields in
their order and leaves at most one field of the name, so the getters see a store with
one cell for each name. A setter whose text, or a getter whose value, has 2^32 bytes or
more never returns, since the loops over them count with an `unsigned`.
-/

namespace UDPipe

/-- `numeric_limits<size_t>::max()`. -/
def sizeMax : ℕ := 18446744073709551615

namespace Misc

/-! ### Fields of any column -/

/-- The fields without those of a name; a lone empty piece is no field. -/
def otherFields (names : List Bytes) (misc : Bytes) : List Bytes :=
  let others := (misc.splitOn bar).filter fun field =>
    names.all fun name => (fieldValue name field).isNone
  if others = [[]] then [] else others

/-- The values of the fields with a name. -/
def valuesOf (name misc : Bytes) : List Bytes := (misc.splitOn bar).filterMap (fieldValue name)

/-- An empty field has no value. -/
theorem fieldValue_nil (name : Bytes) : fieldValue name [] = none := by
  rw [fieldValue, if_neg]
  rw [List.isPrefixOf_iff_prefix, List.prefix_nil]
  simp

/-- A field has the value of a name if it is the name, an equals sign and the value. -/
theorem fieldValue_eq_some {name field value : Bytes} :
    fieldValue name field = some value ↔ field = name ++ equals :: value := by
  unfold fieldValue
  constructor
  · intro h
    split at h
    · rename_i hprefix'
      obtain ⟨rest, rfl⟩ := List.isPrefixOf_iff_prefix.mp hprefix'
      obtain rfl := Option.some.inj h
      simp
    · cases h
  · rintro rfl
    have hmatch : (name ++ [equals]).isPrefixOf (name ++ equals :: value) = true :=
      List.isPrefixOf_iff_prefix.mpr ⟨value, by simp⟩
    rw [if_pos hmatch]
    simp

/-- A field has one name at most. -/
theorem name_unique {name name' field value value' : Bytes} (hname : equals ∉ name)
    (hname' : equals ∉ name') (h : fieldValue name field = some value)
    (h' : fieldValue name' field = some value') : name = name' := by
  have heq := (fieldValue_eq_some.mp h).symm.trans (fieldValue_eq_some.mp h')
  have htake : ∀ {l : Bytes} (r : Bytes), equals ∉ l →
      (l ++ equals :: r).takeWhile (· != equals) = l := by
    intro l r hl
    rw [List.takeWhile_append_of_pos, List.takeWhile_cons_of_neg (by simp), List.append_nil]
    intro c hc
    exact bne_iff_ne.mpr (ne_of_mem_of_not_mem hc hl)
  rw [← htake value hname, heq, htake value' hname']

/-- The pieces that are left when the fields of a name are removed. -/
theorem splitOn_removeMiscField (name misc : Bytes) :
    (removeMiscField name misc).splitOn bar =
      let others := (misc.splitOn bar).filter fun field => (fieldValue name field).isNone
      if others = [] then [[]] else others := by
  dsimp only
  split
  · rename_i hnone
    rw [removeMiscField, hnone]
    rfl
  · rename_i hsome
    apply List.splitOn_intercalate bar _ hsome
    intro field hfield
    exact not_mem_of_mem_splitOn (List.mem_of_mem_filter hfield)

/-- Only no pieces and the empty piece are joined to an empty text. -/
private theorem intercalate_eq_nil {pieces : List Bytes} (h : [bar].intercalate pieces = []) :
    pieces = [] ∨ pieces = [[]] := by
  match pieces with
  | [] => exact .inl rfl
  | [piece] =>
    rw [List.intercalate_singleton] at h
    exact .inr (by rw [h])
  | piece :: second :: rest =>
    rw [List.intercalate_cons_cons] at h
    simp at h

/-- The pieces after a field was set: the others, then the field. -/
theorem splitOn_startMiscField {name value : Bytes} (hname : Plain name) (hvalue : bar ∉ value)
    (misc : Bytes) :
    (startMiscField name misc ++ value).splitOn bar =
      otherFields [name] misc ++ [name ++ equals :: value] := by
  have hfield : bar ∉ name ++ equals :: value := by
    simp only [List.mem_append, List.mem_cons, hname.2, hvalue, or_false, false_or]
    decide
  obtain ⟨others, hothers⟩ : ∃ others, others = (misc.splitOn bar).filter fun field =>
      (fieldValue name field).isNone := ⟨_, rfl⟩
  have hsame : otherFields [name] misc = if others = [[]] then [] else others := by
    rw [otherFields, hothers]
    simp
  have hbars : ∀ piece ∈ others, bar ∉ piece := by
    intro piece hpiece
    rw [hothers] at hpiece
    exact not_mem_of_mem_splitOn (List.mem_of_mem_filter hpiece)
  have hremove : removeMiscField name misc = [bar].intercalate others := by
    rw [removeMiscField, hothers]
  rw [hsame, startMiscField, hremove]
  by_cases hempty : [bar].intercalate others = []
  · have hnone : (if others = [[]] then [] else others) = [] := by
      rcases intercalate_eq_nil hempty with h | h <;> simp [h]
    have htext : (if [bar].intercalate others = [] then [] else
        [bar].intercalate others ++ [bar]) ++ name ++ [equals] ++ value =
          [bar].intercalate [name ++ equals :: value] := by
      rw [if_pos hempty, List.intercalate_singleton]
      simp
    rw [hnone, htext]
    exact List.splitOn_intercalate bar (by simpa using hfield) (by simp)
  · have hne : others ≠ [] := by
      rintro h
      exact hempty (by rw [h]; rfl)
    have hnot : others ≠ [[]] := by
      intro h
      exact hempty (by rw [h]; rfl)
    have hjoin : ∀ pieces : List Bytes, pieces ≠ [] →
        [bar].intercalate (pieces ++ [name ++ equals :: value]) =
          [bar].intercalate pieces ++ bar :: (name ++ equals :: value) := by
      intro pieces hpieces
      induction pieces with
      | nil => exact absurd rfl hpieces
      | cons piece pieces ih =>
        cases pieces with
        | nil => simp [List.intercalate_cons_cons]
        | cons second pieces =>
          have ih' := ih (List.cons_ne_nil _ _)
          rw [List.cons_append] at ih'
          rw [List.cons_append, List.cons_append, List.intercalate_cons_cons, ih',
            List.intercalate_cons_cons]
          simp
    have htext : (if [bar].intercalate others = [] then [] else
        [bar].intercalate others ++ [bar]) ++ name ++ [equals] ++ value =
          [bar].intercalate (others ++ [name ++ equals :: value]) := by
      rw [if_neg hempty, hjoin others hne]
      simp
    rw [if_neg hnot, htext]
    apply List.splitOn_intercalate bar _ (by simp)
    intro piece hpiece
    rcases List.mem_append.mp hpiece with hpiece | hpiece
    · exact hbars piece hpiece
    · rw [List.mem_singleton.mp hpiece]
      exact hfield

/-- The first value is read. -/
theorem getMiscField_eq_head? (name misc : Bytes) :
    getMiscField name misc = (valuesOf name misc).head? := by
  rw [valuesOf, List.head?_filterMap, getMiscField]

/-- A lone empty piece has no name. -/
private theorem filterMap_otherFields (names : List Bytes) {f : Bytes → Option Bytes}
    (hf : f [] = none) (misc : Bytes) :
    (otherFields names misc).filterMap f =
      ((misc.splitOn bar).filter fun field =>
        names.all fun name => (fieldValue name field).isNone).filterMap f := by
  rw [otherFields]
  split
  · rename_i h
    rw [h, List.filterMap_cons_none hf]
  · rfl

/-- Leaving out the fields of a name does not matter for a map that ignores them. -/
private theorem filterMap_filter_of_none {name : Bytes} {f : Bytes → Option Bytes}
    (hf : ∀ field value, fieldValue name field = some value → f field = none)
    (pieces : List Bytes) :
    (pieces.filter fun field => (fieldValue name field).isNone).filterMap f =
      pieces.filterMap f := by
  induction pieces with
  | nil => rfl
  | cons piece pieces ih =>
    cases hvalue : fieldValue name piece with
    | none =>
      rw [List.filter_cons_of_pos (by rw [hvalue]; rfl), List.filterMap_cons,
        List.filterMap_cons, ih]
    | some value =>
      rw [List.filter_cons_of_neg (by rw [hvalue]; simp), ih,
        List.filterMap_cons_none (hf piece value hvalue)]

/-! ### Assignments -/

/-- Remove the field of a name, or give it a value. -/
def assign (misc : Bytes) (a : Bytes × Option Bytes) : Bytes :=
  match a.2 with
  | none => removeMiscField a.1 misc
  | some value => startMiscField a.1 misc ++ value

/-- The name and the value fit into a field. -/
def Fits (a : Bytes × Option Bytes) : Prop := Plain a.1 ∧ ∀ value ∈ a.2, bar ∉ value

/-- The fields without one name. -/
private theorem otherFields_singleton (name misc : Bytes) :
    otherFields [name] misc =
      let others := (misc.splitOn bar).filter fun field => (fieldValue name field).isNone
      if others = [[]] then [] else others := by
  rw [otherFields]
  simp

/-- An assignment decides the values of its name. -/
theorem valuesOf_assign_self {a : Bytes × Option Bytes} (ha : Fits a) (misc : Bytes) :
    valuesOf a.1 (assign misc a) = a.2.toList := by
  have hnone : ((misc.splitOn bar).filter fun field =>
      (fieldValue a.1 field).isNone).filterMap (fieldValue a.1) = [] := by
    rw [List.filterMap_eq_nil_iff]
    intro field hfield
    exact Option.isNone_iff_eq_none.mp (List.mem_filter.mp hfield).2
  obtain ⟨name, _ | value⟩ := a
  · rw [valuesOf, assign, splitOn_removeMiscField]
    dsimp only
    split
    · rw [List.filterMap_cons_none (fieldValue_nil name)]
      rfl
    · exact hnone
  · have hfilter := filterMap_otherFields [name] (fieldValue_nil name) misc
    simp only [List.all_cons, List.all_nil, Bool.and_true] at hfilter
    have hself : fieldValue name (name ++ equals :: value) = some value :=
      fieldValue_eq_some.mpr rfl
    rw [valuesOf, assign, splitOn_startMiscField ha.1 (ha.2 value rfl), List.filterMap_append,
      hfilter, hnone, List.filterMap_cons_some hself]
    rfl

/-- An assignment leaves the values of other names. -/
theorem valuesOf_assign_of_ne {a : Bytes × Option Bytes} (ha : Fits a) {name : Bytes}
    (hname : Plain name) (hne : name ≠ a.1) (misc : Bytes) :
    valuesOf name (assign misc a) = valuesOf name misc := by
  obtain ⟨name', a⟩ := a
  have hother : ∀ field value, fieldValue name' field = some value →
      fieldValue name field = none := by
    intro field value hvalue
    by_contra hsome
    obtain ⟨value', hvalue'⟩ := Option.ne_none_iff_exists'.mp hsome
    exact hne (name_unique hname.1 ha.1.1 hvalue' hvalue)
  have hfilter := filterMap_filter_of_none hother (misc.splitOn bar)
  cases a with
  | none =>
    rw [valuesOf, valuesOf, assign, splitOn_removeMiscField, ← hfilter]
    dsimp only
    split
    · rename_i h
      rw [h, List.filterMap_cons_none (fieldValue_nil name)]
    · rfl
  | some value =>
    have hset : fieldValue name (name' ++ equals :: value) = none :=
      hother _ value (fieldValue_eq_some.mpr rfl)
    have hfields := filterMap_otherFields [name'] (fieldValue_nil name) misc
    simp only [List.all_cons, List.all_nil, Bool.and_true] at hfields
    rw [valuesOf, valuesOf, assign, splitOn_startMiscField ha.1 (ha.2 value rfl),
      List.filterMap_append, hfields, hfilter, List.filterMap_cons_none hset, List.filterMap_nil,
      List.append_nil]

/-- An assignment keeps the fields of other names in their order. -/
theorem otherFields_assign {a : Bytes × Option Bytes} (ha : Fits a) {names : List Bytes}
    (hmem : a.1 ∈ names) (misc : Bytes) :
    otherFields names (assign misc a) = otherFields names misc := by
  obtain ⟨name, a⟩ := a
  obtain ⟨other, hother⟩ : ∃ other : Bytes → Bool, other = fun field =>
      names.all fun name => (fieldValue name field).isNone := ⟨_, rfl⟩
  have hnormal : ∀ misc, otherFields names misc =
      if (misc.splitOn bar).filter other = [[]] then [] else (misc.splitOn bar).filter other := by
    intro misc
    rw [hother, otherFields]
  have hsub : ∀ pieces : List Bytes,
      (pieces.filter fun field => (fieldValue name field).isNone).filter other =
        pieces.filter other := by
    intro pieces
    rw [List.filter_filter]
    apply List.filter_congr
    intro field _
    rw [Bool.and_eq_left_iff_imp, hother]
    intro hall
    exact List.all_eq_true.mp hall name hmem
  have hempty : ([[]] : List Bytes).filter other = [[]] := by
    rw [hother, List.filter_cons_of_pos, List.filter_nil]
    exact List.all_eq_true.mpr fun name _ => by rw [fieldValue_nil]; rfl
  have hsplit := hsub (misc.splitOn bar)
  rw [hnormal, hnormal, ← hsplit]
  cases a with
  | none =>
    rw [assign, splitOn_removeMiscField]
    dsimp only
    split
    · rename_i hnone
      rw [hnone, List.filter_nil]
      simp
    · rfl
  | some value =>
    have hset : ([name ++ equals :: value] : List Bytes).filter other = [] := by
      rw [hother, List.filter_cons_of_neg, List.filter_nil]
      intro hall
      have hnone := List.all_eq_true.mp hall name hmem
      rw [fieldValue_eq_some.mpr rfl] at hnone
      cases hnone
    rw [assign, splitOn_startMiscField ha.1 (ha.2 value rfl), List.filter_append, hset,
      List.append_nil, otherFields_singleton]
    dsimp only
    split
    · rename_i hlone
      rw [hlone, List.filter_nil]
      simp [hempty]
    · rfl

/-! ### Runs of assignments -/

/-- Assignments to other names keep the values of a name. -/
theorem valuesOf_foldl_of_notMem {as : List (Bytes × Option Bytes)} (has : ∀ a ∈ as, Fits a)
    {name : Bytes} (hname : Plain name) (hnot : name ∉ as.map Prod.fst) (misc : Bytes) :
    valuesOf name (as.foldl assign misc) = valuesOf name misc := by
  induction as generalizing misc with
  | nil => rfl
  | cons a as ih =>
    obtain ⟨ha, has⟩ := List.forall_mem_cons.mp has
    rw [List.map_cons, List.mem_cons, not_or] at hnot
    rw [List.foldl_cons, ih has hnot.2, valuesOf_assign_of_ne ha hname hnot.1]

/-- The assignment to a name decides its values. -/
theorem valuesOf_foldl_of_mem {as : List (Bytes × Option Bytes)} (has : ∀ a ∈ as, Fits a)
    (hnodup : (as.map Prod.fst).Nodup) {name : Bytes} {value : Option Bytes}
    (hmem : (name, value) ∈ as) (misc : Bytes) :
    valuesOf name (as.foldl assign misc) = value.toList := by
  induction as generalizing misc with
  | nil => cases hmem
  | cons a as ih =>
    obtain ⟨ha, hrest⟩ := List.forall_mem_cons.mp has
    rw [List.map_cons, List.nodup_cons] at hnodup
    rw [List.foldl_cons]
    rcases List.mem_cons.mp hmem with heq | hmem
    · subst heq
      rw [valuesOf_foldl_of_notMem hrest ha.1 hnodup.1]
      exact valuesOf_assign_self ha misc
    · exact ih hrest hnodup.2 hmem _

/-- Assignments keep the fields with other names. -/
theorem otherFields_foldl {as : List (Bytes × Option Bytes)} (has : ∀ a ∈ as, Fits a)
    {names : List Bytes} (hmem : ∀ a ∈ as, a.1 ∈ names) (misc : Bytes) :
    otherFields names (as.foldl assign misc) = otherFields names misc := by
  induction as generalizing misc with
  | nil => rfl
  | cons a as ih =>
    obtain ⟨ha, has⟩ := List.forall_mem_cons.mp has
    obtain ⟨hmem_a, hmem⟩ := List.forall_mem_cons.mp hmem
    rw [List.foldl_cons, ih has hmem, otherFields_assign ha hmem_a]

/-! ### Ranges -/

/-- A digit loop of `token::get_token_range`; it gives up when the value does not fit. -/
def rangeDigits (value : ℕ) : Bytes → Option (ℕ × Bytes)
  | [] => some (value, [])
  | c :: str =>
    if isDigit c then
      if value > (sizeMax - (c.toNat - 48)) / 10 then none
      else rangeDigits (10 * value + (c.toNat - 48)) str
    else some (value, c :: str)

/-- The digits of a text that is read whole are read before more text. -/
theorem rangeDigits_append {value value' : ℕ} {str rest : Bytes}
    (h : rangeDigits value str = some (value', [])) :
    rangeDigits value (str ++ rest) = rangeDigits value' rest := by
  induction str generalizing value with
  | nil =>
    obtain rfl : value = value' := (Prod.mk.inj (Option.some.inj h)).1
    rfl
  | cons c str ih =>
    rw [rangeDigits] at h
    rw [List.cons_append, rangeDigits]
    split at h
    · rename_i hdigit
      rw [if_pos hdigit]
      split at h
      · cases h
      · rename_i hfits
        rw [if_neg hfits, ih h]
    · cases h

/-- The digits are read as their numbers. -/
private theorem digitChar_facts : ∀ d : ℕ, d < 10 →
    isDigit d.digitChar.toUInt8 = true ∧ d.digitChar.toUInt8.toNat - 48 = d := by
  decide

/-- A printed `size_t` is read back. -/
theorem rangeDigits_natToString {n : ℕ} (hn : n ≤ sizeMax) :
    rangeDigits 0 (natToString n) = some (n, []) := by
  induction n using Nat.strongRecOn with
  | ind n ih =>
    have hlast : ∀ value d : ℕ, d < 10 → 10 * value + d ≤ sizeMax →
        rangeDigits value [d.digitChar.toUInt8] = some (10 * value + d, []) := by
      intro value d hd hle
      obtain ⟨hdigit, hvalue⟩ := digitChar_facts d hd
      rw [rangeDigits, if_pos hdigit, hvalue, if_neg, rangeDigits]
      unfold sizeMax at hle ⊢
      omega
    rcases Nat.lt_or_ge n 10 with hlt | hge
    · rw [natToString_of_lt_ten hlt, hlast 0 n hlt (by omega)]
      simp
    · rw [natToString_of_ten_le hge, rangeDigits_append (ih (n / 10) (by omega) (by omega)),
        hlast (n / 10) (n % 10) (by omega) (by omega)]
      congr 2
      omega

end Misc

namespace Token

open Misc

/-- `token::get_token_range`. -/
def getTokenRange (tok : Token) : Option (ℕ × ℕ) :=
  match getMiscField (bytes "TokenRange") tok.misc with
  | none => none
  | some value =>
    match rangeDigits 0 value with
    | none => none
    | some (_, []) => none
    | some (start, c :: rest) =>
      if c != 58 then none
      else match rangeDigits 0 rest with
        | none => none
        | some (stop, _) => some (start, stop)

/-- A setter with its arguments; the start of a range is not `npos`. -/
inductive Setter where
  | spaceAfter (after : Bool)
  | spacesBefore (spaces : Bytes)
  | spacesAfter (spaces : Bytes)
  | spacesInToken (spaces : Bytes)
  | tokenRange (start stop : ℕ) (hstart : start < sizeMax) (hstop : stop ≤ sizeMax)

namespace Setter

/-- Call the setter. -/
def perform (tok : Token) : Setter → Comp Token
  | spaceAfter after => pure (tok.setSpaceAfter after)
  | spacesBefore spaces => tok.setSpacesBefore spaces
  | spacesAfter spaces => tok.setSpacesAfter spaces
  | spacesInToken spaces => tok.setSpacesInToken spaces
  | tokenRange start stop _ _ => pure (tok.setTokenRange (some (start, stop)))

/-- Call one setter after another. -/
def run : List Setter → Token → Comp Token
  | [], tok => pure tok
  | setter :: sets, tok => do
    let tok ← perform tok setter
    run sets tok

/-- What a call leaves if it returns. -/
def left (tok : Token) : Setter → Token
  | spaceAfter after => tok.setSpaceAfter after
  | spacesBefore spaces => tok.withSpacesBefore spaces
  | spacesAfter spaces => tok.withSpacesAfter spaces
  | spacesInToken spaces => tok.withSpacesInToken spaces
  | tokenRange start stop _ _ => tok.setTokenRange (some (start, stop))

/-- The text that the setter escapes. -/
def spaces : Setter → Bytes
  | spacesBefore spaces | spacesAfter spaces | spacesInToken spaces => spaces
  | spaceAfter _ | tokenRange _ _ _ _ => []

/-- The escaped text is shorter than 2^32 bytes. -/
def Short (setter : Setter) : Prop := (escapedSpaces setter.spaces).length < unsignedValues

/-- What the setter does to MISC. -/
def assignments : Setter → List (Bytes × Option Bytes)
  | spaceAfter after =>
    [(bytes "SpaceAfter", if after then none else some (bytes "No"))]
  | spacesBefore spaces =>
    [(bytes "SpacesBefore", if spaces = [] then none else some (escapedSpaces spaces))]
  | spacesAfter spaces =>
    [(bytes "SpaceAfter", if spaces = [] then some (bytes "No") else none),
      (bytes "SpacesAfter",
        if spaces = [] ∨ spaces = [space] then none else some (escapedSpaces spaces))]
  | spacesInToken spaces =>
    [(bytes "SpacesInToken", if spaces = [] then none else some (escapedSpaces spaces))]
  | tokenRange start stop _ _ => [(bytes "TokenRange", some (rangeText start stop))]

/-- The names of the fields that the setter decides. -/
def names : Setter → List Bytes
  | spaceAfter _ => [bytes "SpaceAfter"]
  | spacesBefore _ => [bytes "SpacesBefore"]
  | spacesAfter _ => [bytes "SpaceAfter", bytes "SpacesAfter"]
  | spacesInToken _ => [bytes "SpacesInToken"]
  | tokenRange _ _ _ _ => [bytes "TokenRange"]

/-- The corresponding getter returns the value. -/
def Reads (tok : Token) : Setter → Prop
  | spaceAfter after => tok.getSpaceAfter = after
  | spacesBefore spaces => tok.getSpacesBefore.Returns spaces
  | spacesAfter spaces => tok.getSpacesAfter.Returns spaces ∧ tok.getSpaceAfter = (spaces != [])
  | spacesInToken spaces => tok.getSpacesInToken.Returns spaces
  | tokenRange start stop _ _ => tok.getTokenRange = some (start, stop)

/-- The laws of a call: the value is read back, the other getters do what they did
before, other fields stay in order, and no field is doubled. -/
structure Laws (setter : Setter) (tok tok' : Token) : Prop where
  form : tok'.form = tok.form
  reads : setter.Reads tok'
  spaceAfter : bytes "SpaceAfter" ∉ setter.names → tok'.getSpaceAfter = tok.getSpaceAfter
  spacesBefore : bytes "SpacesBefore" ∉ setter.names →
    tok'.getSpacesBefore = tok.getSpacesBefore
  spacesAfter : bytes "SpacesAfter" ∉ setter.names →
    bytes "SpaceAfter" ∉ setter.names ∨ valuesOf (bytes "SpacesAfter") tok.misc ≠ [] →
    tok'.getSpacesAfter = tok.getSpacesAfter
  derived : bytes "SpacesAfter" ∉ setter.names → valuesOf (bytes "SpacesAfter") tok.misc = [] →
    tok'.getSpacesAfter.Returns (if tok'.getSpaceAfter then [space] else [])
  spacesInToken : bytes "SpacesInToken" ∉ setter.names →
    tok'.getSpacesInToken = tok.getSpacesInToken
  tokenRange : bytes "TokenRange" ∉ setter.names → tok'.getTokenRange = tok.getTokenRange
  others : otherFields setter.names tok'.misc = otherFields setter.names tok.misc
  once : ∀ name ∈ setter.names, (valuesOf name tok'.misc).length ≤ 1

/-- Each of the calls returns and obeys the laws. -/
def Lawful (sets : List Setter) (tok : Token) : Prop :=
  ∀ before setter after, sets = before ++ setter :: after → ∃ tok₁ tok₂,
    (run before tok).Returns tok₁ ∧ (perform tok₁ setter).Returns tok₂ ∧ setter.Laws tok₁ tok₂

/-! ### Setters as assignments -/

/-- A call returns exactly if its counter can go through the text. -/
theorem returns_perform {setter : Setter} {tok tok' : Token} :
    (perform tok setter).Returns tok' ↔
      setter.spaces.length < unsignedValues ∧ tok' = setter.left tok := by
  have hpure : ∀ left : Token, (pure left : Comp Token).Returns tok' ↔
      ([] : Bytes).length < unsignedValues ∧ tok' = left := by
    intro left
    rw [Comp.returns_pure, eq_comm, iff_and_self]
    exact fun _ => unsignedValues_pos
  cases setter with
  | spaceAfter after => exact hpure _
  | spacesBefore spaces => exact returns_setSpacesBefore
  | spacesAfter spaces => exact returns_setSpacesAfter
  | spacesInToken spaces => exact returns_setSpacesInToken
  | tokenRange start stop _ _ => exact hpure _

/-- The text of a short call is short. -/
theorem Short.length_lt {setter : Setter} (h : setter.Short) :
    setter.spaces.length < unsignedValues :=
  Nat.lt_of_le_of_lt (length_le_length_escapedSpaces _) h

/-- Setters with short texts all return. -/
theorem returns_run {sets : List Setter} (h : ∀ setter ∈ sets, setter.Short) (tok : Token) :
    (run sets tok).Returns (sets.foldl left tok) := by
  induction sets generalizing tok with
  | nil => exact Comp.returns_pure.mpr rfl
  | cons setter sets ih =>
    obtain ⟨hshort, hrest⟩ := List.forall_mem_cons.mp h
    exact Comp.returns_bind.mpr ⟨_, returns_perform.mpr ⟨hshort.length_lt, rfl⟩, ih hrest _⟩

/-! ### Setters as assignments -/

/-- The names of the assignments are those of the call. -/
theorem map_fst_assignments (setter : Setter) :
    setter.assignments.map Prod.fst = setter.names := by
  cases setter <;> rfl

/-- A call assigns to a name only once. -/
theorem nodup_names (setter : Setter) : setter.names.Nodup := by
  cases setter with
  | spacesAfter spaces =>
    have hne : [bytes "SpaceAfter", bytes "SpacesAfter"].Nodup := by decide
    exact hne
  | _ => exact List.pairwise_singleton _ _

/-- The assigned values fit into fields. -/
theorem fits_assignments (setter : Setter) : ∀ a ∈ setter.assignments, Fits a := by
  have hspaces : ∀ spaces : Bytes, ∀ value ∈ some (escapedSpaces spaces), bar ∉ value := by
    rintro spaces value ⟨⟩
    exact bar_notMem_escapedSpaces spaces
  have hno : ∀ value ∈ some (bytes "No"), bar ∉ value := by
    rintro value ⟨⟩
    decide
  have hnone : ∀ value ∈ (none : Option Bytes), bar ∉ value := fun _ h => by cases h
  cases setter with
  | spaceAfter after =>
    refine List.forall_mem_singleton.mpr ⟨(by decide : Plain (bytes "SpaceAfter")), ?_⟩
    cases after
    · exact hno
    · exact hnone
  | spacesBefore spaces =>
    refine List.forall_mem_singleton.mpr ⟨(by decide : Plain (bytes "SpacesBefore")), ?_⟩
    dsimp only
    split
    · exact hnone
    · exact hspaces spaces
  | spacesAfter spaces =>
    refine List.forall_mem_cons.mpr ⟨⟨(by decide : Plain (bytes "SpaceAfter")), ?_⟩,
      List.forall_mem_singleton.mpr ⟨(by decide : Plain (bytes "SpacesAfter")), ?_⟩⟩
    · dsimp only
      split
      · exact hno
      · exact hnone
    · dsimp only
      split
      · exact hnone
      · exact hspaces spaces
  | spacesInToken spaces =>
    refine List.forall_mem_singleton.mpr ⟨(by decide : Plain (bytes "SpacesInToken")), ?_⟩
    dsimp only
    split
    · exact hnone
    · exact hspaces spaces
  | tokenRange start stop hstart hstop =>
    refine List.forall_mem_singleton.mpr ⟨(by decide : Plain (bytes "TokenRange")), ?_⟩
    rintro value ⟨⟩ hmem
    have hdigits : ∀ n, bar ∉ natToString n := fun n hn =>
      absurd (isDigit_of_mem_natToString hn) (by decide)
    simp only [rangeText, List.mem_append, hdigits, or_false, false_or] at hmem
    exact absurd hmem (by decide)

/-- A call that returns has performed the assignments. -/
theorem left_eq (setter : Setter) (tok : Token) :
    setter.left tok = { tok with misc := setter.assignments.foldl assign tok.misc } := by
  cases setter with
  | spaceAfter after => cases after <;> rfl
  | spacesBefore spaces =>
    by_cases h : spaces = []
    · simp [left, withSpacesBefore, removeField, assignments, assign, h]
    · simp [left, withSpacesBefore, setField, assignments, assign, h]
  | spacesAfter spaces =>
    by_cases hnone : spaces = []
    · simp [left, withSpacesAfter, setSpaceAfter, setField, removeField, assignments, assign,
        hnone]
    · by_cases hone : spaces = [space]
      · simp [left, withSpacesAfter, setSpaceAfter, removeField, assignments, assign, hone]
      · simp [left, withSpacesAfter, setSpaceAfter, setField, removeField, assignments, assign,
          hnone, hone]
  | spacesInToken spaces =>
    by_cases h : spaces = []
    · simp [left, withSpacesInToken, removeField, assignments, assign, h]
    · simp [left, withSpacesInToken, setField, assignments, assign, h]
  | tokenRange start stop hstart hstop => rfl

/-- An assigned value is read. -/
theorem getMiscField_left_of_mem {setter : Setter} {name : Bytes} {value : Option Bytes}
    (hmem : (name, value) ∈ setter.assignments) (tok : Token) :
    getMiscField name (setter.left tok).misc = value := by
  have hnodup : (setter.assignments.map Prod.fst).Nodup := by
    rw [map_fst_assignments]
    exact setter.nodup_names
  rw [left_eq, getMiscField_eq_head?,
    valuesOf_foldl_of_mem setter.fits_assignments hnodup hmem]
  cases value <;> simp

/-- Other values are read as before. -/
theorem getMiscField_left_of_notMem {setter : Setter} {name : Bytes} (hname : Plain name)
    (hnot : name ∉ setter.names) (tok : Token) :
    getMiscField name (setter.left tok).misc = getMiscField name tok.misc := by
  rw [← map_fst_assignments] at hnot
  rw [left_eq, getMiscField_eq_head?, getMiscField_eq_head?,
    valuesOf_foldl_of_notMem setter.fits_assignments hname hnot]

/-- A short text is read back. -/
theorem reads_left {setter : Setter} (hshort : setter.Short) (tok : Token) :
    setter.Reads (setter.left tok) := by
  have hread : ∀ name value, (name, value) ∈ setter.assignments →
      getMiscField name (setter.left tok).misc = value :=
    fun name value hmem => getMiscField_left_of_mem hmem tok
  cases setter with
  | spaceAfter after =>
    have hvalue := hread _ _ (List.mem_singleton.mpr rfl)
    rw [Reads, getSpaceAfter, hvalue]
    cases after <;> rfl
  | spacesBefore spaces =>
    have hlt : (escapedSpaces spaces).length < unsignedValues := hshort
    have hvalue := hread _ _ (List.mem_singleton.mpr rfl)
    rw [Reads, getSpacesBefore, returns_getEscapedField, escapedField, hvalue]
    by_cases h : spaces = []
    · simp [h]
    · simpa [h] using hlt
  | spacesAfter spaces =>
    have hlt : (escapedSpaces spaces).length < unsignedValues := hshort
    have hafter := hread _ _ (List.mem_cons_self ..)
    have hspaces := hread _ _ (List.mem_cons_of_mem _ (List.mem_singleton.mpr rfl))
    have hdecided : (left tok (spacesAfter spaces)).getSpaceAfter = (spaces != []) := by
      rw [getSpaceAfter, hafter]
      by_cases h : spaces = []
      · rw [if_pos h, h]
        decide
      · rw [if_neg h, bne_iff_ne.mpr h]
        decide
    refine ⟨?_, hdecided⟩
    rw [getSpacesAfter, returns_getEscapedField, escapedField, hspaces, hdecided]
    by_cases hnone : spaces = []
    · simp [hnone]
    · by_cases hone : spaces = [space]
      · simp [hone]
      · simpa [hnone, hone] using hlt
  | spacesInToken spaces =>
    have hlt : (escapedSpaces spaces).length < unsignedValues := hshort
    have hvalue := hread _ _ (List.mem_singleton.mpr rfl)
    rw [Reads, getSpacesInToken, returns_getEscapedField, escapedField, hvalue]
    by_cases h : spaces = []
    · simp [h]
    · simpa [h] using hlt
  | tokenRange start stop hstart hstop =>
    have hvalue := hread _ _ (List.mem_singleton.mpr rfl)
    have hstart' : rangeDigits 0 (rangeText start stop) = some (start, 58 :: natToString stop) := by
      rw [rangeText, List.append_assoc,
        rangeDigits_append (rangeDigits_natToString (Nat.le_of_lt hstart))]
      simp [rangeDigits, isDigit]
    rw [Reads, getTokenRange, hvalue]
    simp [hstart', rangeDigits_natToString hstop]

/-- A text that is read back is short. -/
theorem short_of_reads {setter : Setter} {tok : Token} (h : setter.Reads (setter.left tok)) :
    setter.Short := by
  have hread : ∀ name value, (name, value) ∈ setter.assignments →
      getMiscField name (setter.left tok).misc = value :=
    fun name value hmem => getMiscField_left_of_mem hmem tok
  have hnil : (escapedSpaces []).length < unsignedValues := unsignedValues_pos
  cases setter with
  | spaceAfter after => exact hnil
  | spacesBefore spaces =>
    have hvalue := hread _ _ (List.mem_singleton.mpr rfl)
    rw [Reads, getSpacesBefore, returns_getEscapedField, hvalue] at h
    by_cases hnone : spaces = []
    · exact hnone ▸ hnil
    · exact h.1 _ (if_neg hnone)
  | spacesAfter spaces =>
    have hspaces := hread _ _ (List.mem_cons_of_mem _ (List.mem_singleton.mpr rfl))
    have hfirst := h.1
    rw [getSpacesAfter, returns_getEscapedField, hspaces] at hfirst
    by_cases hshort : spaces = [] ∨ spaces = [space]
    · rcases hshort with rfl | rfl
      · exact hnil
      · exact (by decide : (escapedSpaces [space]).length < unsignedValues)
    · exact hfirst.1 _ (if_neg hshort)
  | spacesInToken spaces =>
    have hvalue := hread _ _ (List.mem_singleton.mpr rfl)
    rw [Reads, getSpacesInToken, returns_getEscapedField, hvalue] at h
    by_cases hnone : spaces = []
    · exact hnone ▸ hnil
    · exact h.1 _ (if_neg hnone)
  | tokenRange start stop _ _ => exact hnil

/-- Each call with a short text obeys the laws. -/
theorem laws_left {setter : Setter} (hshort : setter.Short) (tok : Token) :
    setter.Laws tok (setter.left tok) where
  form := by rw [left_eq]
  reads := reads_left hshort tok
  spaceAfter hnot := by
    rw [getSpaceAfter, getMiscField_left_of_notMem (by decide) hnot, getSpaceAfter]
  spacesBefore hnot := by
    rw [getSpacesBefore, getEscapedField, getMiscField_left_of_notMem (by decide) hnot]
    rfl
  spacesAfter hnot hkept := by
    rw [getSpacesAfter, getSpacesAfter, getEscapedField, getEscapedField,
      getMiscField_left_of_notMem (by decide) hnot]
    rcases hkept with hkept | hkept
    · rw [getSpaceAfter, getMiscField_left_of_notMem (by decide) hkept, ← getSpaceAfter]
    · obtain ⟨value, values, hvalues⟩ := List.exists_cons_of_ne_nil hkept
      rw [getMiscField_eq_head?, hvalues, List.head?_cons]
  derived hnot hnone := by
    rw [getSpacesAfter, getEscapedField, getMiscField_left_of_notMem (by decide) hnot,
      getMiscField_eq_head?, hnone, List.head?_nil]
    exact Comp.returns_pure.mpr rfl
  spacesInToken hnot := by
    rw [getSpacesInToken, getEscapedField, getMiscField_left_of_notMem (by decide) hnot]
    rfl
  tokenRange hnot := by
    rw [getTokenRange, getMiscField_left_of_notMem (by decide) hnot, getTokenRange]
  others := by
    have hnames : ∀ a ∈ setter.assignments, a.1 ∈ setter.names := by
      intro a ha
      rw [← map_fst_assignments]
      exact List.mem_map_of_mem ha
    rw [left_eq]
    exact otherFields_foldl setter.fits_assignments hnames tok.misc
  once := by
    intro name hname
    rw [← map_fst_assignments] at hname
    obtain ⟨⟨name, value⟩, hmem, rfl⟩ := List.mem_map.mp hname
    have hnodup : (setter.assignments.map Prod.fst).Nodup := by
      rw [map_fst_assignments]
      exact setter.nodup_names
    rw [left_eq, valuesOf_foldl_of_mem setter.fits_assignments hnodup hmem]
    cases value <;> simp

/-- Whatever MISC was at first, each call of a sequence returns and obeys the laws exactly
if all of the texts are short. -/
theorem lawful_iff (tok : Token) (sets : List Setter) :
    Lawful sets tok ↔ ∀ setter ∈ sets, setter.Short := by
  constructor
  · intro h setter hmem
    obtain ⟨before, after, hsets⟩ := List.append_of_mem hmem
    obtain ⟨tok₁, tok₂, _, hperform, hlaws⟩ := h before setter after hsets
    obtain ⟨_, rfl⟩ := returns_perform.mp hperform
    exact short_of_reads hlaws.reads
  · rintro h before setter after rfl
    obtain ⟨hbefore, hrest⟩ := List.forall_mem_append.mp h
    have hshort := (List.forall_mem_cons.mp hrest).1
    exact ⟨_, _, returns_run hbefore tok, returns_perform.mpr ⟨hshort.length_lt, rfl⟩,
      laws_left hshort _⟩

/-- A text of 2^32 letters is never stored. -/
theorem not_lawful_long :
    ¬ Lawful [spacesBefore (List.replicate unsignedValues 97)] {} := by
  intro h
  obtain ⟨_, _, _, hperform, _⟩ := h [] _ [] rfl
  have hlt := (returns_perform.mp hperform).1
  rw [spaces, List.length_replicate] at hlt
  exact absurd hlt (Nat.lt_irrefl _)

end Setter

end Token

end UDPipe
