import UDPipe.Library.Comp
import UDPipe.ParseInt
import UDPipe.Sentence

/-!
# The MISC column of a token

The functions of `sentence/token.cpp` that keep white space and ranges in the
fields of MISC. The fields are the pieces between bars; a field has a name if it
begins with that name and an equals sign. The loops that escape and unescape count
the bytes with an `unsigned`, so they end on texts of less than 2^32 bytes only; what
they write then is a function of its own. On a column that is built from named
fields, the functions are those of an association list, and escaped white space
is read back as it was.
-/

namespace UDPipe

/-- The sign between a name and its value. -/
abbrev equals : Byte := 61
/-- The mark of an escape. -/
abbrev backslash : Byte := 92

namespace Misc

/-- The value of a field if it has this name. -/
def fieldValue (name field : Bytes) : Option Bytes :=
  if (name ++ [equals]).isPrefixOf field then some (field.drop (name.length + 1)) else none

/-- `token::get_misc_field`. -/
def getMiscField (name misc : Bytes) : Option Bytes :=
  (misc.splitOn bar).findSome? (fieldValue name)

/-- `token::remove_misc_field`, which drops each field with a neighbouring bar. -/
def removeMiscField (name misc : Bytes) : Bytes :=
  [bar].intercalate ((misc.splitOn bar).filter fun field => (fieldValue name field).isNone)

/-- `token::start_misc_field`. -/
def startMiscField (name misc : Bytes) : Bytes :=
  let misc := removeMiscField name misc
  (if misc = [] then [] else misc ++ [bar]) ++ name ++ [equals]

/-- How `token::append_escaped_spaces` writes a byte. -/
def escape (c : Byte) : Bytes :=
  if c = space then bytes "\\s"
  else if c = bar then bytes "\\p"
  else if c = tab then bytes "\\t"
  else if c = cr then bytes "\\r"
  else if c = lf then bytes "\\n"
  else if c = backslash then bytes "\\\\"
  else [c]

/-- A pass of the loop in `append_escaped_spaces`; its counter is an `unsigned`. -/
def appendEscapedStep (spaces : Bytes) (s : ℕ × Bytes) : LoopStep (ℕ × Bytes) Bytes :=
  match spaces[s.1]? with
  | none => .done s.2
  | some c => .next ((s.1 + 1) % unsignedValues, s.2 ++ escape c)

/-- `token::append_escaped_spaces`. -/
def appendEscapedSpaces (spaces escaped : Bytes) : Comp Bytes :=
  Comp.loopOf (appendEscapedStep spaces) (0, escaped)

/-- What `append_escaped_spaces` appends when its loop ends. -/
def escapedSpaces (spaces : Bytes) : Bytes := spaces.flatMap escape

/-- What a backslash with this byte stands for. -/
def unescape (c : Byte) : Bytes :=
  if c = 115 then [space]
  else if c = 112 then [bar]
  else if c = 116 then [tab]
  else if c = 114 then [cr]
  else if c = 110 then [lf]
  else if c = backslash then [backslash]
  else [backslash, c]

/-- A pass of the loop in `unescape_spaces`; its counter is an `unsigned`. -/
def unescapeStep (escaped : Bytes) (s : ℕ × Bytes) : LoopStep (ℕ × Bytes) Bytes :=
  let second := (s.1 + 1) % unsignedValues
  match escaped[s.1]? with
  | none => .done s.2
  | some c =>
    if c ≠ backslash ∨ escaped.length ≤ second then .next (second, s.2 ++ [c])
    else .next ((second + 1) % unsignedValues, s.2 ++ unescape (escaped.getD second 0))

/-- `token::unescape_spaces`. -/
def unescapeSpaces (escaped : Bytes) : Comp Bytes := Comp.loopOf (unescapeStep escaped) (0, [])

/-- What `unescape_spaces` gives when its loop ends. -/
def unescapedSpaces : Bytes → Bytes
  | [] => []
  | [c] => [c]
  | c :: d :: rest =>
    if c = backslash then unescape d ++ unescapedSpaces rest else c :: unescapedSpaces (d :: rest)

end Misc

namespace Token

open Misc

/-- `token::get_space_after`. -/
def getSpaceAfter (tok : Token) : Bool := getMiscField (bytes "SpaceAfter") tok.misc != some (bytes "No")

/-- Give a field a value. -/
def setField (tok : Token) (name value : Bytes) : Token :=
  { tok with misc := startMiscField name tok.misc ++ value }

/-- Remove a field. -/
def removeField (tok : Token) (name : Bytes) : Token :=
  { tok with misc := removeMiscField name tok.misc }

/-- `token::set_space_after`. -/
def setSpaceAfter (tok : Token) (spaceAfter : Bool) : Token :=
  if spaceAfter then tok.removeField (bytes "SpaceAfter")
  else tok.setField (bytes "SpaceAfter") (bytes "No")

/-- Give a field the escaped text as its value. -/
def setEscapedField (tok : Token) (name spaces : Bytes) : Comp Token := do
  let misc ← appendEscapedSpaces spaces (startMiscField name tok.misc)
  pure { tok with misc }

/-- The unescaped value of a field. -/
def getEscapedField (tok : Token) (name : Bytes) (default : Bytes) : Comp Bytes :=
  match getMiscField name tok.misc with
  | some value => unescapeSpaces value
  | none => pure default

/-- `token::get_spaces_before`. -/
def getSpacesBefore (tok : Token) : Comp Bytes := tok.getEscapedField (bytes "SpacesBefore") []

/-- `token::set_spaces_before`. -/
def setSpacesBefore (tok : Token) (spaces : Bytes) : Comp Token :=
  if spaces = [] then pure (tok.removeField (bytes "SpacesBefore"))
  else tok.setEscapedField (bytes "SpacesBefore") spaces

/-- `token::get_spaces_after`. -/
def getSpacesAfter (tok : Token) : Comp Bytes :=
  tok.getEscapedField (bytes "SpacesAfter") (if tok.getSpaceAfter then [space] else [])

/-- `token::set_spaces_after`. -/
def setSpacesAfter (tok : Token) (spaces : Bytes) : Comp Token :=
  if spaces = [] then pure ((tok.setSpaceAfter false).removeField (bytes "SpacesAfter"))
  else if spaces = [space] then
    pure ((tok.setSpaceAfter true).removeField (bytes "SpacesAfter"))
  else (tok.setSpaceAfter true).setEscapedField (bytes "SpacesAfter") spaces

/-- `token::get_spaces_in_token`. -/
def getSpacesInToken (tok : Token) : Comp Bytes := tok.getEscapedField (bytes "SpacesInToken") []

/-- `token::set_spaces_in_token`. -/
def setSpacesInToken (tok : Token) (spaces : Bytes) : Comp Token :=
  if spaces = [] then pure (tok.removeField (bytes "SpacesInToken"))
  else tok.setEscapedField (bytes "SpacesInToken") spaces

/-! What the getters and setters give when their loops end. -/

/-- The text of a field, or a default. -/
def escapedField (tok : Token) (name : Bytes) (default : Bytes) : Bytes :=
  ((getMiscField name tok.misc).map unescapedSpaces).getD default

/-- What `get_spaces_before` gives. -/
def spacesBefore (tok : Token) : Bytes := tok.escapedField (bytes "SpacesBefore") []

/-- What `set_spaces_before` leaves. -/
def withSpacesBefore (tok : Token) (spaces : Bytes) : Token :=
  if spaces = [] then tok.removeField (bytes "SpacesBefore")
  else tok.setField (bytes "SpacesBefore") (escapedSpaces spaces)

/-- What `get_spaces_after` gives. -/
def spacesAfter (tok : Token) : Bytes :=
  tok.escapedField (bytes "SpacesAfter") (if tok.getSpaceAfter then [space] else [])

/-- What `set_spaces_after` leaves. -/
def withSpacesAfter (tok : Token) (spaces : Bytes) : Token :=
  if spaces = [] then (tok.setSpaceAfter false).removeField (bytes "SpacesAfter")
  else if spaces = [space] then (tok.setSpaceAfter true).removeField (bytes "SpacesAfter")
  else (tok.setSpaceAfter true).setField (bytes "SpacesAfter") (escapedSpaces spaces)

/-- What `get_spaces_in_token` gives. -/
def spacesInToken (tok : Token) : Bytes := tok.escapedField (bytes "SpacesInToken") []

/-- What `set_spaces_in_token` leaves. -/
def withSpacesInToken (tok : Token) (spaces : Bytes) : Token :=
  if spaces = [] then tok.removeField (bytes "SpacesInToken")
  else tok.setField (bytes "SpacesInToken") (escapedSpaces spaces)

/-- The value of a `TokenRange` field. -/
def rangeText (start stop : ℕ) : Bytes :=
  natToString start ++ [58] ++ natToString stop

/-- `token::set_token_range`; there is no range when `start` is `npos`. -/
def setTokenRange (tok : Token) (range : Option (ℕ × ℕ)) : Token :=
  match range with
  | none => tok.removeField (bytes "TokenRange")
  | some (start, stop) => tok.setField (bytes "TokenRange") (rangeText start stop)

end Token

namespace Misc

/-! ### Escaping -/

/-- A byte is read back from its escape. -/
private theorem unescapedSpaces_escape (c : Byte) (rest : Bytes) :
    unescapedSpaces (escape c ++ rest) = c :: unescapedSpaces rest := by
  unfold escape
  split_ifs with h₁ h₂ h₃ h₄ h₅ h₆
  · subst h₁; rfl
  · subst h₂; rfl
  · subst h₃; rfl
  · subst h₄; rfl
  · subst h₅; rfl
  · subst h₆; rfl
  · cases rest with
    | nil => rfl
    | cons d rest => simp [unescapedSpaces, h₆]

/-- Escaped white space is read back. -/
@[simp] theorem unescapedSpaces_escapedSpaces (spaces : Bytes) :
    unescapedSpaces (escapedSpaces spaces) = spaces := by
  induction spaces with
  | nil => rfl
  | cons c spaces ih =>
    rw [escapedSpaces, List.flatMap_cons, unescapedSpaces_escape]
    exact congrArg (c :: ·) ih

/-- Escaped white space has no bar, so it is within its field. -/
theorem bar_notMem_escapedSpaces (spaces : Bytes) : bar ∉ escapedSpaces spaces := by
  simp only [escapedSpaces, List.mem_flatMap, not_exists, not_and]
  intro c _
  unfold escape
  split_ifs with h₁ h₂ h₃ h₄ h₅ h₆
  · decide
  · decide
  · decide
  · decide
  · decide
  · decide
  · simpa using Ne.symm h₂

/-- Escaping a text does not make it shorter. -/
theorem length_le_length_escapedSpaces (spaces : Bytes) :
    spaces.length ≤ (escapedSpaces spaces).length := by
  have hbyte : ∀ c, 1 ≤ (escape c).length := by
    intro c
    unfold escape
    split_ifs <;> simp [bytes]
  induction spaces with
  | nil => exact Nat.le_refl 0
  | cons c spaces ih =>
    have := hbyte c
    rw [escapedSpaces, List.flatMap_cons, List.length_append, List.length_cons]
    change spaces.length ≤ (spaces.flatMap escape).length at ih
    omega

/-! ### The loops -/

/-- From a position on, the loop appends what is left to be escaped. -/
private theorem returns_appendEscaped_drop {spaces : Bytes} (h : spaces.length < unsignedValues)
    {i : ℕ} (hi : i ≤ spaces.length) (out : Bytes) :
    (Comp.loopOf (appendEscapedStep spaces) (i, out)).Returns
      (out ++ escapedSpaces (spaces.drop i)) := by
  induction hn : spaces.length - i generalizing i out with
  | zero =>
    obtain rfl : i = spaces.length := by omega
    rw [Comp.returns_loopOf, appendEscapedStep, List.getElem?_eq_none (Nat.le_refl _),
      List.drop_length]
    exact (List.append_nil out).symm
  | succ n ih =>
    have hlt : i < spaces.length := by omega
    have hrest := ih (show i + 1 ≤ spaces.length by omega) (out ++ escape spaces[i]) (by omega)
    rw [Comp.returns_loopOf, appendEscapedStep, List.getElem?_eq_getElem hlt,
      List.drop_eq_getElem_cons hlt, escapedSpaces, List.flatMap_cons, ← List.append_assoc]
    dsimp only
    rw [Nat.mod_eq_of_lt (by omega)]
    exact hrest

/-- `append_escaped_spaces` ends exactly on texts that its counter can go through. -/
theorem returns_appendEscapedSpaces {spaces escaped r : Bytes} :
    (appendEscapedSpaces spaces escaped).Returns r ↔
      spaces.length < unsignedValues ∧ r = escaped ++ escapedSpaces spaces := by
  by_cases h : spaces.length < unsignedValues
  · have hends := returns_appendEscaped_drop h (Nat.zero_le _) escaped
    rw [List.drop_zero] at hends
    constructor
    · exact fun hr => ⟨h, hr.unique hends⟩
    · rintro ⟨_, rfl⟩
      exact hends
  · refine iff_of_false (fun hr => ?_) fun hr => h hr.1
    -- the counter wraps before it comes to the end
    refine Comp.loop_diverges (fun s => s.1 < unsignedValues) (fun s hs => ?_)
      unsignedValues_pos hr.terminates
    have hlt : s.1 < spaces.length := by omega
    refine ⟨((s.1 + 1) % unsignedValues, s.2 ++ escape spaces[s.1]), Comp.returns_pure.mpr ?_,
      mod_unsignedValues_lt _⟩
    rw [appendEscapedStep, List.getElem?_eq_getElem hlt]

/-- From a position on, the loop appends what is left to be unescaped. -/
private theorem returns_unescape_drop {escaped : Bytes} (h : escaped.length < unsignedValues)
    {i : ℕ} (hi : i ≤ escaped.length) (out : Bytes) :
    (Comp.loopOf (unescapeStep escaped) (i, out)).Returns
      (out ++ unescapedSpaces (escaped.drop i)) := by
  induction hn : escaped.length - i using Nat.strongRecOn generalizing i out with
  | ind n ih =>
    by_cases hend : i = escaped.length
    · subst hend
      rw [Comp.returns_loopOf, unescapeStep, List.getElem?_eq_none (Nat.le_refl _),
        List.drop_length]
      exact (List.append_nil out).symm
    · have hlt : i < escaped.length := by omega
      have hsecond : (i + 1) % unsignedValues = i + 1 := Nat.mod_eq_of_lt (by omega)
      rw [Comp.returns_loopOf, unescapeStep, List.getElem?_eq_getElem hlt,
        List.drop_eq_getElem_cons hlt, hsecond]
      by_cases hlast : escaped.length ≤ i + 1
      · have hrest := ih _ (by omega) (show i + 1 ≤ escaped.length by omega)
          (out ++ [escaped[i]]) rfl
        rw [List.drop_eq_nil_of_le hlast, unescapedSpaces, List.append_nil] at hrest
        dsimp only
        rw [if_pos (.inr hlast), List.drop_eq_nil_of_le hlast]
        exact hrest
      · have hnext : i + 1 < escaped.length := by omega
        rw [List.drop_eq_getElem_cons hnext, unescapedSpaces]
        dsimp only
        by_cases hback : escaped[i] = backslash
        · have hrest := ih _ (by omega) (show i + 2 ≤ escaped.length by omega)
            (out ++ unescape escaped[i + 1]) rfl
          rw [if_neg (by simp [hback]; omega), if_pos hback,
            Nat.mod_eq_of_lt (show i + 1 + 1 < unsignedValues by omega), ← List.append_assoc,
            List.getD_eq_getElem?_getD, List.getElem?_eq_getElem hnext, Option.getD_some]
          exact hrest
        · have hrest := ih _ (by omega) (show i + 1 ≤ escaped.length by omega)
            (out ++ [escaped[i]]) rfl
          rw [List.drop_eq_getElem_cons hnext, List.append_assoc] at hrest
          rw [if_pos (.inl hback), if_neg hback]
          exact hrest

/-- `unescape_spaces` ends exactly on texts that its counter can go through. -/
theorem returns_unescapeSpaces {escaped r : Bytes} :
    (unescapeSpaces escaped).Returns r ↔
      escaped.length < unsignedValues ∧ r = unescapedSpaces escaped := by
  by_cases h : escaped.length < unsignedValues
  · have hends := returns_unescape_drop h (Nat.zero_le _) []
    rw [List.drop_zero, List.nil_append] at hends
    constructor
    · exact fun hr => ⟨h, hr.unique hends⟩
    · rintro ⟨_, rfl⟩
      exact hends
  · refine iff_of_false (fun hr => ?_) fun hr => h hr.1
    refine Comp.loop_diverges (fun s => s.1 < unsignedValues) (fun s hs => ?_)
      unsignedValues_pos hr.terminates
    have hlt : s.1 < escaped.length := by omega
    by_cases hplain : escaped[s.1] ≠ backslash ∨ escaped.length ≤ (s.1 + 1) % unsignedValues
    · refine ⟨((s.1 + 1) % unsignedValues, s.2 ++ [escaped[s.1]]), Comp.returns_pure.mpr ?_,
        mod_unsignedValues_lt _⟩
      rw [unescapeStep, List.getElem?_eq_getElem hlt]
      dsimp only
      rw [if_pos hplain]
    · refine ⟨(((s.1 + 1) % unsignedValues + 1) % unsignedValues,
        s.2 ++ unescape (escaped.getD ((s.1 + 1) % unsignedValues) 0)), Comp.returns_pure.mpr ?_,
        mod_unsignedValues_lt _⟩
      rw [unescapeStep, List.getElem?_eq_getElem hlt]
      dsimp only
      rw [if_neg hplain]

end Misc

namespace Token

open Misc

variable {tok : Token} {spaces r : Bytes} {tok' : Token}

/-- A field is set to the escaped text when the text is short enough for the loop. -/
private theorem returns_setEscapedField {name : Bytes} :
    (tok.setEscapedField name spaces).Returns tok' ↔
      spaces.length < unsignedValues ∧ tok' = tok.setField name (escapedSpaces spaces) := by
  simp only [setEscapedField, Comp.returns_bind, returns_appendEscapedSpaces, Comp.returns_pure]
  constructor
  · rintro ⟨_, ⟨hlt, rfl⟩, rfl⟩
    exact ⟨hlt, rfl⟩
  · rintro ⟨hlt, rfl⟩
    exact ⟨_, ⟨hlt, rfl⟩, rfl⟩

/-- A text of no byte or of one is always stored. -/
private theorem returns_pure_iff (hshort : spaces.length ≤ 1) {left : Token} :
    (pure left : Comp Token).Returns tok' ↔ spaces.length < unsignedValues ∧ tok' = left := by
  rw [Comp.returns_pure, eq_comm, iff_and_self]
  exact fun _ => Nat.lt_of_le_of_lt hshort (by decide)

/-- Texts that the counters can go through are stored. -/
theorem returns_setSpacesBefore : (tok.setSpacesBefore spaces).Returns tok' ↔
    spaces.length < unsignedValues ∧ tok' = tok.withSpacesBefore spaces := by
  unfold setSpacesBefore withSpacesBefore
  split
  · rename_i h
    exact returns_pure_iff (by simp [h])
  · exact returns_setEscapedField

/-- `set_spaces_in_token` returns for short texts only. -/
theorem returns_setSpacesInToken : (tok.setSpacesInToken spaces).Returns tok' ↔
    spaces.length < unsignedValues ∧ tok' = tok.withSpacesInToken spaces := by
  unfold setSpacesInToken withSpacesInToken
  split
  · rename_i h
    exact returns_pure_iff (by simp [h])
  · exact returns_setEscapedField

/-- `set_spaces_after` returns for short texts only. -/
theorem returns_setSpacesAfter : (tok.setSpacesAfter spaces).Returns tok' ↔
    spaces.length < unsignedValues ∧ tok' = tok.withSpacesAfter spaces := by
  unfold setSpacesAfter withSpacesAfter
  split
  · rename_i h
    exact returns_pure_iff (by simp [h])
  · split
    · rename_i h
      exact returns_pure_iff (by simp [h])
    · exact returns_setEscapedField

/-- Values that the counters can go through are read. -/
theorem returns_getEscapedField {name default : Bytes} :
    (tok.getEscapedField name default).Returns r ↔
      (∀ value ∈ getMiscField name tok.misc, value.length < unsignedValues) ∧
        r = tok.escapedField name default := by
  unfold getEscapedField escapedField
  cases getMiscField name tok.misc with
  | none => simp [eq_comm]
  | some value => simp [returns_unescapeSpaces]

/-- The getters return: the values of the fields are shorter than 2^32 bytes. -/
def Readable (tok : Token) : Prop :=
  (∀ value ∈ getMiscField (bytes "SpacesBefore") tok.misc, value.length < unsignedValues) ∧
  (∀ value ∈ getMiscField (bytes "SpacesInToken") tok.misc, value.length < unsignedValues) ∧
  ∀ value ∈ getMiscField (bytes "SpacesAfter") tok.misc, value.length < unsignedValues

end Token

namespace Misc

/-! ### Columns of named fields -/

/-- A field with its name. -/
def field (f : Bytes × Bytes) : Bytes := f.1 ++ equals :: f.2

/-- The column with these fields. -/
def ofFields (fs : List (Bytes × Bytes)) : Bytes := [bar].intercalate (fs.map field)

/-- Fields whose names and values do not run into each other. -/
def Separate (fs : List (Bytes × Bytes)) : Prop :=
  ∀ f ∈ fs, equals ∉ f.1 ∧ bar ∉ f.1 ∧ bar ∉ f.2

/-- The fields without those of one name. -/
def dropField (name : Bytes) (fs : List (Bytes × Bytes)) : List (Bytes × Bytes) :=
  fs.filter fun f => f.1 != name

/-- There is no field to drop. -/
@[simp] theorem dropField_nil (name : Bytes) : dropField name [] = [] := rfl

/-- Fields are dropped from both lists. -/
@[simp] theorem dropField_append (name : Bytes) (fs fs' : List (Bytes × Bytes)) :
    dropField name (fs ++ fs') = dropField name fs ++ dropField name fs' :=
  List.filter_append fs fs'

/-- Dropping a name leaves the fields separate. -/
theorem Separate.dropField {fs : List (Bytes × Bytes)} (h : Separate fs) (name : Bytes) :
    Separate (dropField name fs) := fun f hf => h f (List.mem_of_mem_filter hf)

/-- Separate fields together. -/
theorem Separate.append {fs fs' : List (Bytes × Bytes)} (h : Separate fs) (h' : Separate fs') :
    Separate (fs ++ fs') := List.forall_mem_append.mpr ⟨h, h'⟩

/-- The fields of a text that is made of separate ones are these. -/
theorem splitOn_ofFields {fs : List (Bytes × Bytes)} (h : Separate fs) (hne : fs ≠ []) :
    (ofFields fs).splitOn bar = fs.map field := by
  refine List.splitOn_intercalate bar (fun l hl => ?_) (by simpa using hne)
  obtain ⟨f, hf, rfl⟩ := List.mem_map.mp hl
  obtain ⟨_, hname, hvalue⟩ := h f hf
  simp [field, hname, hvalue, show bar ≠ equals by decide]

/-- A field has its own name and no other one. -/
theorem fieldValue_field {name : Bytes} {f : Bytes × Bytes} (hname : equals ∉ name)
    (hf : equals ∉ f.1) : fieldValue name (field f) = if f.1 = name then some f.2 else none := by
  by_cases heq : f.1 = name
  · subst heq
    have hprefix : (f.1 ++ [equals]).isPrefixOf (field f) = true := by
      rw [List.isPrefixOf_iff_prefix]
      exact ⟨f.2, by simp [field]⟩
    rw [fieldValue, if_pos hprefix, if_pos rfl]
    simp [field]
  · rw [fieldValue, if_neg heq, if_neg]
    rw [List.isPrefixOf_iff_prefix]
    rintro ⟨rest, hrest⟩
    have hsplit : f.1 ++ equals :: f.2 = name ++ equals :: rest := by
      simpa [field] using hrest.symm
    have htake : ∀ {l : Bytes} (r : Bytes), equals ∉ l →
        (l ++ equals :: r).takeWhile (· != equals) = l := by
      intro l r hl
      rw [List.takeWhile_append_of_pos, List.takeWhile_cons_of_neg (by simp), List.append_nil]
      intro c hc
      simpa using ne_of_mem_of_not_mem hc hl
    rw [← htake f.2 hf, hsplit, htake rest hname] at heq
    exact heq rfl

/-- A column of fields is read like an association list. -/
theorem getMiscField_ofFields {name : Bytes} {fs : List (Bytes × Bytes)} (h : Separate fs)
    (hname : equals ∉ name) : getMiscField name (ofFields fs) = fs.lookup name := by
  by_cases hne : fs = []
  · subst hne
    simp [getMiscField, ofFields, fieldValue]
  · rw [getMiscField, splitOn_ofFields h hne]
    clear hne
    induction fs with
    | nil => rfl
    | cons f fs ih =>
      obtain ⟨hf, hfs⟩ := List.forall_mem_cons.mp h
      rw [List.map_cons, List.findSome?_cons, fieldValue_field hname hf.1, List.lookup_cons, ih hfs]
      by_cases heq : f.1 = name
      · simp [heq]
      · simp [heq, beq_eq_false_iff_ne.mpr (Ne.symm heq)]

/-- Removing a field drops its name from the list. -/
theorem removeMiscField_ofFields {name : Bytes} {fs : List (Bytes × Bytes)} (h : Separate fs)
    (hname : equals ∉ name) :
    removeMiscField name (ofFields fs) = ofFields (dropField name fs) := by
  by_cases hne : fs = []
  · subst hne
    simp [removeMiscField, ofFields, fieldValue]
  · rw [removeMiscField, splitOn_ofFields h hne, ofFields, dropField, List.filter_map]
    congr 2
    refine List.filter_congr fun f hf => ?_
    rw [Function.comp_apply, fieldValue_field hname (h f hf).1]
    by_cases heq : f.1 = name <;> simp [heq]

/-- The first field, and a bar before other ones. -/
theorem ofFields_cons (f : Bytes × Bytes) (fs : List (Bytes × Bytes)) :
    ofFields (f :: fs) = field f ++ if fs = [] then [] else bar :: ofFields fs := by
  by_cases hne : fs = []
  · subst hne
    simp [ofFields]
  · rw [if_neg hne, ofFields, List.map_cons, List.intercalate_cons_of_ne_nil (by simpa using hne)]
    simp [ofFields]

/-- A last field, behind a bar. -/
theorem ofFields_append_singleton {fs : List (Bytes × Bytes)} (hne : fs ≠ []) (f : Bytes × Bytes) :
    ofFields (fs ++ [f]) = ofFields fs ++ bar :: field f := by
  induction fs with
  | nil => exact absurd rfl hne
  | cons g fs ih =>
    rw [List.cons_append, ofFields_cons, ofFields_cons, if_neg (by simp)]
    by_cases hfs : fs = []
    · subst hfs
      simp [ofFields]
    · rw [ih hfs, if_neg hfs]
      simp

/-- Only a list without fields makes an empty text. -/
@[simp] theorem ofFields_eq_nil {fs : List (Bytes × Bytes)} : ofFields fs = [] ↔ fs = [] := by
  cases fs with
  | nil => simp [ofFields]
  | cons f fs => simp [ofFields_cons, field]

/-- A field that is set comes last, in place of one with its name. -/
theorem startMiscField_ofFields {name : Bytes} {fs : List (Bytes × Bytes)} (h : Separate fs)
    (hname : equals ∉ name) (value : Bytes) :
    startMiscField name (ofFields fs) ++ value =
      ofFields (dropField name fs ++ [(name, value)]) := by
  rw [startMiscField, removeMiscField_ofFields h hname]
  generalize dropField name fs = rest
  by_cases hne : rest = []
  · subst hne
    simp [ofFields, field]
  · rw [ofFields_append_singleton hne, if_neg (by simpa using hne)]
    simp [field]

/-! ### White space of a token -/

/-- The names of the fields are literals without equals signs and bars. -/
def Plain (name : Bytes) : Prop := equals ∉ name ∧ bar ∉ name

instance (name : Bytes) : Decidable (Plain name) := inferInstanceAs (Decidable (_ ∧ _))

/-- The field for some white space; there is none for the empty one. -/
def spacesField (name spaces : Bytes) : List (Bytes × Bytes) :=
  if spaces = [] then [] else [(name, escapedSpaces spaces)]

/-- The fields that say whether white space follows. -/
def spaceAfterField (spaceAfter : Bool) : List (Bytes × Bytes) :=
  if spaceAfter then [] else [(bytes "SpaceAfter", bytes "No")]

/-- The fields for the white space that follows, which is one space by default. -/
def spacesAfterFields (spaces : Bytes) : List (Bytes × Bytes) :=
  spaceAfterField (spaces != []) ++
    if spaces = [space] then [] else spacesField (bytes "SpacesAfter") spaces

/-- The field for a range. -/
def rangeField (range : Option (ℕ × ℕ)) : List (Bytes × Bytes) :=
  match range with
  | none => []
  | some (start, stop) => [(bytes "TokenRange", Token.rangeText start stop)]

/-- The field for spaces is separate: its value is escaped. -/
theorem separate_spacesField {name : Bytes} (hname : Plain name) (spaces : Bytes) :
    Separate (spacesField name spaces) := by
  unfold spacesField
  split
  · exact List.forall_mem_nil _
  · exact List.forall_mem_singleton.mpr ⟨hname.1, hname.2, bar_notMem_escapedSpaces spaces⟩

/-- The field `SpaceAfter` is separate. -/
theorem separate_spaceAfterField (spaceAfter : Bool) : Separate (spaceAfterField spaceAfter) := by
  cases spaceAfter
  · exact List.forall_mem_singleton.mpr (by decide)
  · exact List.forall_mem_nil _

/-- The fields for the spaces after a token are separate. -/
theorem separate_spacesAfterFields (spaces : Bytes) : Separate (spacesAfterFields spaces) := by
  refine (separate_spaceAfterField _).append ?_
  split
  · exact List.forall_mem_nil _
  · exact separate_spacesField (by decide) spaces

/-- The text of a range determines the range. -/
theorem rangeText_injective {start stop start' stop' : ℕ}
    (h : Token.rangeText start stop = Token.rangeText start' stop') :
    start = start' ∧ stop = stop' := by
  have hdigits : ∀ n : ℕ, ∀ c ∈ natToString n, (c != 58) = true := by
    intro n c hc
    apply bne_iff_ne.mpr
    rintro rfl
    exact absurd (isDigit_of_mem_natToString hc) (by decide)
  have hfirst : ∀ m n : ℕ, (Token.rangeText m n).takeWhile (· != 58) = natToString m := by
    intro m n
    rw [Token.rangeText, List.append_assoc, List.takeWhile_append_of_pos (hdigits m)]
    simp
  have hstart : start = start' :=
    natToString_injective (by rw [← hfirst start stop, h, hfirst])
  subst hstart
  exact ⟨rfl, natToString_injective (List.append_cancel_left h)⟩

/-- The field for the range is separate. -/
theorem separate_rangeField (range : Option (ℕ × ℕ)) : Separate (rangeField range) := by
  match range with
  | none => exact List.forall_mem_nil _
  | some (start, stop) =>
    have hname : Plain (bytes "TokenRange") := by decide
    refine List.forall_mem_singleton.mpr ⟨hname.1, hname.2, fun hmem => ?_⟩
    have hdigits : ∀ n, bar ∉ natToString n := fun n hn =>
      absurd (isDigit_of_mem_natToString hn) (by decide)
    simp only [Token.rangeText, List.mem_append, hdigits, or_false, false_or] at hmem
    exact absurd hmem (by decide)

/-- The field for spaces has the given name. -/
theorem name_of_mem_spacesField {name spaces : Bytes} {f : Bytes × Bytes}
    (h : f ∈ spacesField name spaces) : f.1 = name := by
  unfold spacesField at h
  split at h
  · cases h
  · rw [List.mem_singleton.mp h]

/-- The field for a missing space has its name. -/
theorem name_of_mem_spaceAfterField {spaceAfter : Bool} {f : Bytes × Bytes}
    (h : f ∈ spaceAfterField spaceAfter) : f.1 = bytes "SpaceAfter" := by
  cases spaceAfter
  · rw [List.mem_singleton.mp h]
  · cases h

/-- The fields for the spaces after a token have one of two names. -/
theorem name_of_mem_spacesAfterFields {spaces : Bytes} {f : Bytes × Bytes}
    (h : f ∈ spacesAfterFields spaces) :
    f.1 = bytes "SpaceAfter" ∨ f.1 = bytes "SpacesAfter" := by
  rcases List.mem_append.mp h with hfirst | hrest
  · exact .inl (name_of_mem_spaceAfterField hfirst)
  · split at hrest
    · cases hrest
    · exact .inr (name_of_mem_spacesField hrest)

/-- The field for the range has its name. -/
theorem name_of_mem_rangeField {range : Option (ℕ × ℕ)} {f : Bytes × Bytes}
    (h : f ∈ rangeField range) : f.1 = bytes "TokenRange" := by
  match range with
  | none => cases h
  | some (start, stop) => rw [List.mem_singleton.mp h]

/-- Nothing is dropped from fields of other names. -/
theorem dropField_of_ne {name : Bytes} {fs : List (Bytes × Bytes)} (h : ∀ f ∈ fs, f.1 ≠ name) :
    dropField name fs = fs := List.filter_eq_self.mpr fun f hf => bne_iff_ne.mpr (h f hf)

section Setters

variable {fs : List (Bytes × Bytes)} (h : Separate fs) (form : Bytes)

include h

/-- Removing a field drops its name. -/
theorem removeField_ofFields {name : Bytes} (hname : Plain name) :
    (⟨form, ofFields fs⟩ : Token).removeField name = ⟨form, ofFields (dropField name fs)⟩ := by
  rw [Token.removeField, removeMiscField_ofFields h hname.1]

/-- Setting a field drops its name and puts the field behind the others. -/
theorem setField_ofFields {name : Bytes} (hname : Plain name) (value : Bytes) :
    (⟨form, ofFields fs⟩ : Token).setField name value =
      ⟨form, ofFields (dropField name fs ++ [(name, value)])⟩ := by
  rw [Token.setField, startMiscField_ofFields h hname.1]

/-- `set_spaces_before` on fields. -/
theorem withSpacesBefore_ofFields (spaces : Bytes) :
    (⟨form, ofFields fs⟩ : Token).withSpacesBefore spaces =
      ⟨form, ofFields (dropField (bytes "SpacesBefore") fs ++
        spacesField (bytes "SpacesBefore") spaces)⟩ := by
  unfold Token.withSpacesBefore spacesField
  split
  · rw [removeField_ofFields h form (by decide), List.append_nil]
  · rw [setField_ofFields h form (by decide)]

/-- `set_spaces_in_token` on fields. -/
theorem withSpacesInToken_ofFields (spaces : Bytes) :
    (⟨form, ofFields fs⟩ : Token).withSpacesInToken spaces =
      ⟨form, ofFields (dropField (bytes "SpacesInToken") fs ++
        spacesField (bytes "SpacesInToken") spaces)⟩ := by
  unfold Token.withSpacesInToken spacesField
  split
  · rw [removeField_ofFields h form (by decide), List.append_nil]
  · rw [setField_ofFields h form (by decide)]

/-- `set_space_after` on fields. -/
theorem setSpaceAfter_ofFields (spaceAfter : Bool) :
    (⟨form, ofFields fs⟩ : Token).setSpaceAfter spaceAfter =
      ⟨form, ofFields (dropField (bytes "SpaceAfter") fs ++ spaceAfterField spaceAfter)⟩ := by
  unfold Token.setSpaceAfter spaceAfterField
  cases spaceAfter
  · rw [if_neg Bool.false_ne_true, setField_ofFields h form (by decide),
      if_neg Bool.false_ne_true]
  · rw [if_pos rfl, removeField_ofFields h form (by decide), if_pos rfl, List.append_nil]

/-- `set_spaces_after` on fields, with `SpaceAfter` in place of one of its values. -/
theorem withSpacesAfter_ofFields (spaces : Bytes) :
    (⟨form, ofFields fs⟩ : Token).withSpacesAfter spaces =
      ⟨form, ofFields (dropField (bytes "SpacesAfter") (dropField (bytes "SpaceAfter") fs) ++
        spacesAfterFields spaces)⟩ := by
  have hsep : ∀ b, Separate (dropField (bytes "SpaceAfter") fs ++ spaceAfterField b) :=
    fun b => (h.dropField _).append (separate_spaceAfterField b)
  have hdrop : ∀ b, dropField (bytes "SpacesAfter") (spaceAfterField b) = spaceAfterField b := by
    decide
  unfold Token.withSpacesAfter spacesAfterFields
  rw [setSpaceAfter_ofFields h form, setSpaceAfter_ofFields h form]
  by_cases hnone : spaces = []
  · subst hnone
    rw [if_pos rfl, removeField_ofFields (hsep _) form (by decide), dropField_append, hdrop,
      if_neg (by decide), spacesField, if_pos rfl, List.append_nil]
    rfl
  · have hsome : (spaces != []) = true := by simpa using hnone
    rw [if_neg hnone, hsome]
    by_cases hone : spaces = [space]
    · rw [if_pos hone, if_pos hone, removeField_ofFields (hsep _) form (by decide),
        dropField_append, hdrop, List.append_nil]
    · rw [if_neg hone, if_neg hone, setField_ofFields (hsep _) form (by decide), dropField_append,
        hdrop, spacesField, if_neg hnone, List.append_assoc]

/-- `set_token_range` on fields. -/
theorem setTokenRange_ofFields (range : Option (ℕ × ℕ)) :
    (⟨form, ofFields fs⟩ : Token).setTokenRange range =
      ⟨form, ofFields (dropField (bytes "TokenRange") fs ++ rangeField range)⟩ := by
  match range with
  | none =>
    rw [rangeField, List.append_nil]
    exact removeField_ofFields h form (by decide)
  | some (start, stop) => exact setField_ofFields h form (by decide) _

end Setters

/-! ### Reading the fields back -/

/-- The fields of a token with white space before, within and after it. -/
def tokenFields (before inToken after : Bytes) (range : Option (ℕ × ℕ)) : List (Bytes × Bytes) :=
  spacesField (bytes "SpacesBefore") before ++ spacesField (bytes "SpacesInToken") inToken ++
    spacesAfterFields after ++ rangeField range

/-- The fields of a token of the tokenizer are separate. -/
theorem separate_tokenFields (before inToken after : Bytes) (range : Option (ℕ × ℕ)) :
    Separate (tokenFields before inToken after range) :=
  (((separate_spacesField (by decide) before).append
    (separate_spacesField (by decide) inToken)).append
    (separate_spacesAfterFields after)).append (separate_rangeField range)

/-- The value under the name of the field is the escaped text, if there is a field. -/
theorem lookup_spacesField (name : Bytes) (spaces : Bytes) :
    (spacesField name spaces).lookup name =
      if spaces = [] then none else some (escapedSpaces spaces) := by
  unfold spacesField
  split <;> simp

/-- The field for spaces has no other name. -/
theorem lookup_spacesField_of_ne {name name' : Bytes} (h : name' ≠ name) (spaces : Bytes) :
    (spacesField name spaces).lookup name' = none := by
  unfold spacesField
  split
  · rfl
  · rw [List.lookup_cons, beq_eq_false_iff_ne.mpr h]
    rfl

/-- The fields for the spaces after have no other names. -/
theorem lookup_spacesAfterFields_of_ne {name : Bytes} (h : name ≠ bytes "SpaceAfter")
    (h' : name ≠ bytes "SpacesAfter") (spaces : Bytes) :
    (spacesAfterFields spaces).lookup name = none := by
  have hfirst : ∀ b, (spaceAfterField b).lookup name = none := by
    intro b
    cases b
    · rw [spaceAfterField, if_neg Bool.false_ne_true, List.lookup_cons, beq_eq_false_iff_ne.mpr h]
      rfl
    · rfl
  rw [spacesAfterFields, List.lookup_append, hfirst, Option.none_or]
  split
  · rfl
  · exact lookup_spacesField_of_ne h' spaces

/-- The field for the range has no other name. -/
theorem lookup_rangeField_of_ne {name : Bytes} (h : name ≠ bytes "TokenRange")
    (range : Option (ℕ × ℕ)) : (rangeField range).lookup name = none := by
  match range with
  | none => rfl
  | some (start, stop) =>
    rw [rangeField, List.lookup_cons, beq_eq_false_iff_ne.mpr h]
    rfl

section Getters

variable (form before inToken after : Bytes) (range : Option (ℕ × ℕ))

/-- The getter finds the first field with the name. -/
theorem getMiscField_tokenFields {name : Bytes} (hname : equals ∉ name) :
    getMiscField name (ofFields (tokenFields before inToken after range)) =
      (tokenFields before inToken after range).lookup name :=
  getMiscField_ofFields (separate_tokenFields before inToken after range) hname

/-- The value that is stored for the spaces before. -/
theorem getSpacesBefore_field :
    getMiscField (bytes "SpacesBefore") (ofFields (tokenFields before inToken after range)) =
      if before = [] then none else some (escapedSpaces before) := by
  rw [getMiscField_tokenFields _ _ _ _ (by decide)]
  simp only [tokenFields, List.lookup_append, lookup_spacesField,
    lookup_spacesField_of_ne (show bytes "SpacesBefore" ≠ bytes "SpacesInToken" by decide),
    lookup_spacesAfterFields_of_ne (show bytes "SpacesBefore" ≠ bytes "SpaceAfter" by decide)
      (show bytes "SpacesBefore" ≠ bytes "SpacesAfter" by decide),
    lookup_rangeField_of_ne (show bytes "SpacesBefore" ≠ bytes "TokenRange" by decide),
    Option.or_none]

/-- The value that is stored for the spaces in the token. -/
theorem getSpacesInToken_field :
    getMiscField (bytes "SpacesInToken") (ofFields (tokenFields before inToken after range)) =
      if inToken = [] then none else some (escapedSpaces inToken) := by
  rw [getMiscField_tokenFields _ _ _ _ (by decide)]
  simp only [tokenFields, List.lookup_append, lookup_spacesField,
    lookup_spacesField_of_ne (show bytes "SpacesInToken" ≠ bytes "SpacesBefore" by decide),
    lookup_spacesAfterFields_of_ne (show bytes "SpacesInToken" ≠ bytes "SpaceAfter" by decide)
      (show bytes "SpacesInToken" ≠ bytes "SpacesAfter" by decide),
    lookup_rangeField_of_ne (show bytes "SpacesInToken" ≠ bytes "TokenRange" by decide),
    Option.or_none, Option.none_or]

/-- The value that is stored for the spaces after, if they are not a single space. -/
theorem getSpacesAfter_field :
    getMiscField (bytes "SpacesAfter") (ofFields (tokenFields before inToken after range)) =
      if after = [space] ∨ after = [] then none else some (escapedSpaces after) := by
  have hfirst : ∀ b, (spaceAfterField b).lookup (bytes "SpacesAfter") = none := by decide
  have hrest : (if after = [space] then [] else spacesField (bytes "SpacesAfter") after).lookup
      (bytes "SpacesAfter") =
        if after = [space] ∨ after = [] then none else some (escapedSpaces after) := by
    split
    · rename_i h
      rw [if_pos (.inl h)]
      rfl
    · rename_i h
      rw [lookup_spacesField]
      simp [h]
  rw [getMiscField_tokenFields _ _ _ _ (by decide)]
  simp only [tokenFields, List.lookup_append, spacesAfterFields, hfirst, hrest,
    lookup_spacesField_of_ne (show bytes "SpacesAfter" ≠ bytes "SpacesBefore" by decide),
    lookup_spacesField_of_ne (show bytes "SpacesAfter" ≠ bytes "SpacesInToken" by decide),
    lookup_rangeField_of_ne (show bytes "SpacesAfter" ≠ bytes "TokenRange" by decide),
    Option.or_none, Option.none_or]

/-- A token has a space after it if any spaces follow. -/
@[simp] theorem getSpaceAfter_tokenFields :
    Token.getSpaceAfter ⟨form, ofFields (tokenFields before inToken after range)⟩ =
      (after != []) := by
  have hfirst : ∀ b, (spaceAfterField b).lookup (bytes "SpaceAfter") =
      if b then none else some (bytes "No") := by decide
  have hrest : (if after = [space] then [] else spacesField (bytes "SpacesAfter") after).lookup
      (bytes "SpaceAfter") = none := by
    split
    · rfl
    · exact lookup_spacesField_of_ne (by decide) after
  rw [Token.getSpaceAfter, getMiscField_tokenFields _ _ _ _ (by decide)]
  simp only [tokenFields, List.lookup_append, spacesAfterFields, hfirst, hrest,
    lookup_spacesField_of_ne (show bytes "SpaceAfter" ≠ bytes "SpacesBefore" by decide),
    lookup_spacesField_of_ne (show bytes "SpaceAfter" ≠ bytes "SpacesInToken" by decide),
    lookup_rangeField_of_ne (show bytes "SpaceAfter" ≠ bytes "TokenRange" by decide),
    Option.or_none, Option.none_or]
  by_cases h : after = []
  · subst h
    rfl
  · have hsome : (after != []) = true := by simpa using h
    rw [hsome]
    rfl

/-- The spaces before are restored. -/
@[simp] theorem spacesBefore_tokenFields :
    Token.spacesBefore ⟨form, ofFields (tokenFields before inToken after range)⟩ = before := by
  rw [Token.spacesBefore, Token.escapedField, getSpacesBefore_field]
  by_cases h : before = [] <;> simp [h]

/-- The spaces in the token are restored. -/
@[simp] theorem spacesInToken_tokenFields :
    Token.spacesInToken ⟨form, ofFields (tokenFields before inToken after range)⟩ = inToken := by
  rw [Token.spacesInToken, Token.escapedField, getSpacesInToken_field]
  by_cases h : inToken = [] <;> simp [h]

/-- The spaces after are restored. -/
@[simp] theorem spacesAfter_tokenFields :
    Token.spacesAfter ⟨form, ofFields (tokenFields before inToken after range)⟩ = after := by
  rw [Token.spacesAfter, Token.escapedField, getSpacesAfter_field, getSpaceAfter_tokenFields]
  by_cases h : after = [] <;> by_cases h' : after = [space] <;> simp [h, h']

/-- The getters return on the fields of a token exactly if the escaped texts are shorter
than 2^32 bytes. -/
theorem readable_tokenFields :
    Token.Readable ⟨form, ofFields (tokenFields before inToken after range)⟩ ↔
      ∀ spaces ∈ [before, inToken, after], (escapedSpaces spaces).length < unsignedValues := by
  have hshort : ∀ (P : Prop) [Decidable P] (spaces : Bytes),
      (P → (escapedSpaces spaces).length < unsignedValues) →
      ((∀ value ∈ if P then none else some (escapedSpaces spaces),
        value.length < unsignedValues) ↔ (escapedSpaces spaces).length < unsignedValues) := by
    intro P _ spaces hP
    by_cases h : P
    · simp [h, hP h]
    · simp [h]
  have hnil : (escapedSpaces []).length < unsignedValues := unsignedValues_pos
  have hspace : (escapedSpaces [space]).length < unsignedValues := by decide
  have hafter : after = [space] ∨ after = [] →
      (escapedSpaces after).length < unsignedValues := by
    rintro (rfl | rfl)
    · exact hspace
    · exact hnil
  rw [Token.Readable, getSpacesBefore_field, getSpacesInToken_field, getSpacesAfter_field,
    hshort (before = []) before fun h => h.symm ▸ hnil,
    hshort (inToken = []) inToken fun h => h.symm ▸ hnil, hshort _ after hafter]
  simp

end Getters

/-- The range of a token is in its own field, after fields of other names. -/
theorem getMiscField_rangeField {fs : List (Bytes × Bytes)} (h : Separate fs)
    (hother : fs.lookup (bytes "TokenRange") = none) (start stop : ℕ) :
    getMiscField (bytes "TokenRange") (ofFields (fs ++ rangeField (some (start, stop)))) =
      some (Token.rangeText start stop) := by
  rw [getMiscField_ofFields (h.append (separate_rangeField _)) (by decide), List.lookup_append,
    hother, rangeField, List.lookup_cons, beq_self_eq_true, Option.none_or]

end Misc

end UDPipe
