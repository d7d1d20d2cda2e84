import UDPipe.Misc
import UDPipe.Library.Associations

/-!
# Named values

`named_values::parse` of `utils/named_values.h`, which reads the option strings. A data
value says how long it is, so the next start of the loop is computed from a number in
the text, and a negative one leads back.
-/

namespace UDPipe

/-- The separator of items. -/
abbrev semicolon : Byte := 59

namespace NamedValues

/-- The `map` that is filled. -/
abbrev Values := Bytes → Option Bytes

/-- The first position from `start` on whose byte is looked for; `none` is `npos`. -/
def findIf (p : Byte → Bool) (values : Bytes) (start : ℕ) : Option ℕ :=
  ((values.drop start).findIdx? p).map (start + ·)

/-- `values.find(c, start)`. -/
def find (values : Bytes) (c : Byte) (start : ℕ) : Option ℕ := findIf (· == c) values start

/-- `values.find_first_of("=;", start)`. -/
def nameEnd (values : Bytes) (start : ℕ) : Option ℕ :=
  findIf (fun c => c == equals || c == semicolon) values start

/-- The bytes from `start` to `stop`. -/
def slice (values : Bytes) (start stop : ℕ) : Bytes := (values.drop start).take (stop - start)

/-- `values.compare(start, 5, text) == 0` for a text of five bytes. -/
def matchesAt (values text : Bytes) (start : ℕ) : Bool :=
  start + 5 ≤ values.length && (values.drop start).take 5 == text

/-- `while (start < values.size() && values[start] == ';') start++`. -/
def skipSemicolons (values : Bytes) (start : ℕ) : ℕ :=
  start + ((values.drop start).takeWhile (· == semicolon)).length

/-- What the loop finds at a start: a name, its value if the item gives it one, and the
next start, which is `npos` (`none`) after a name that ends the string. -/
structure Item where
  name : Bytes
  value : Option Bytes
  next : Option ℕ
  deriving DecidableEq, Repr

/-- The length of a data value and where the value starts. -/
def dataSize (values name : Bytes) (sizeStart : ℕ) : Except Bytes (ℤ × ℕ) :=
  match find values colon sizeStart with
  | none => .error (bytes "Cannot parse named values, data size of value '" ++ name ++
      bytes "' not terminated!")
  | some sizeEnd =>
    match parseInt (slice values sizeStart sizeEnd) (bytes "data_size") with
    | .error error => .error error
    | .ok size => .ok (size, sizeEnd + 1)

/-- A data value. The sum `data_start + data_size` wraps when it is negative, and then
it is larger than the string. `assign` takes the rest of the string when the value would
end before it starts. -/
def dataItem (values name : Bytes) (sizeStart : ℕ) : Except Bytes Item :=
  match dataSize values name sizeStart with
  | .error error => .error error
  | .ok (size, dataStart) =>
    let dataEnd : ℤ := dataStart + size
    if dataEnd < 0 ∨ dataEnd > values.length then
      .error (bytes "Cannot parse named values, value '" ++ name ++
        bytes "' shorter than specified length!")
    else if dataEnd < values.length ∧ values[dataEnd.toNat]? ≠ some semicolon then
      .error (bytes "Cannot parse named values, value '" ++ name ++
        bytes "' not terminated by semicolon!")
    else
      .ok ⟨name, some (if size < 0 then values.drop dataStart
        else slice values dataStart dataEnd.toNat), some (dataEnd.toNat + 1)⟩

/-- One item; `files` gives the contents of the files that can be opened. -/
def item (files : Values) (values : Bytes) (start : ℕ) : Except Bytes Item :=
  match nameEnd values start with
  | none => .ok ⟨values.drop start, none, none⟩
  | some nameEnd =>
    let name := slice values start nameEnd
    if values[nameEnd]? = some semicolon then .ok ⟨name, none, some (nameEnd + 1)⟩
    else if matchesAt values (bytes "file:") (nameEnd + 1) then
      let fileName := nameEnd + 1 + 5
      let stop := (find values semicolon fileName).getD values.length
      let file := slice values fileName stop
      match files file with
      | none => .error (bytes "Cannot open file '" ++ file ++ bytes "'!")
      | some content => .ok ⟨name, some content, some (stop + 1)⟩
    else if matchesAt values (bytes "data:") (nameEnd + 1) then
      dataItem values name (nameEnd + 1 + 5)
    else
      let stop := (find values semicolon nameEnd).getD values.length
      .ok ⟨name, some (slice values (nameEnd + 1) stop), some (stop + 1)⟩

/-- `parsed_values[name]`, with the value of the item assigned to it. -/
def assign (parsed : Values) (item : Item) : Values :=
  Function.update parsed item.name (some (item.value.getD ((parsed item.name).getD [])))

/-- One pass of the loop. -/
def pass (files : Values) (values : Bytes) (s : ℕ × Values) :
    LoopStep (ℕ × Values) (Except Bytes Values) :=
  let start := skipSemicolons values s.1
  if start < values.length then
    match item files values start with
    | .error error => .done (.error error)
    | .ok item =>
      match item.next with
      | none => .done (.ok (assign s.2 item))
      | some next => .next (next, assign s.2 item)
  else .done (.ok s.2)

/-- `named_values::parse`. -/
def parse (files : Values) (values : Bytes) : Comp (Except Bytes Values) :=
  Comp.loop (fun s => pure (pass files values s)) (0, fun _ => none)

/-! ### Positions -/

/-- Skipping semicolons goes on. -/
theorem le_skipSemicolons (values : Bytes) (start : ℕ) : start ≤ skipSemicolons values start :=
  Nat.le_add_right _ _

/-! ### Round trip -/

/-- Distinct names, each with a value that a data item can hold. -/
structure Options where
  items : List (Bytes × Bytes)
  distinct : (items.map Prod.fst).Nodup
  name_ne_nil : ∀ o ∈ items, o.1 ≠ []
  name_plain : ∀ o ∈ items, equals ∉ o.1 ∧ semicolon ∉ o.1
  value_short : ∀ o ∈ items, (o.2.length : ℤ) ≤ intMax

/-- `name=data:length:value`. -/
def dataText (o : Bytes × Bytes) : Bytes :=
  o.1 ++ equals :: (bytes "data:" ++ (natToString o.2.length ++ colon :: o.2))

/-- The items joined with semicolons. -/
def Options.text (options : Options) : Bytes :=
  [semicolon].intercalate (options.items.map dataText)

/-- The values under their names. -/
def Options.toValues (options : Options) : Values := fun name => options.items.lookup name

/-- The search stops at the first byte that is looked for. -/
theorem findIf_of_drop {p : Byte → Bool} {values before rest : Bytes} {c : Byte} {start : ℕ}
    (h : values.drop start = before ++ c :: rest) (hbefore : ∀ d ∈ before, p d = false)
    (hc : p c = true) : findIf p values start = some (start + before.length) := by
  have hfind : (before ++ c :: rest).findIdx? p = some before.length := by
    rw [List.findIdx?_append, List.findIdx?_eq_none_iff.mpr hbefore, Option.none_or,
      List.findIdx?_cons, if_pos hc]
    simp
  rw [findIf, h, hfind, Option.map_some]

/-- The text at a position. -/
theorem slice_of_drop {values before rest : Bytes} {start : ℕ}
    (h : values.drop start = before ++ rest) :
    slice values start (start + before.length) = before := by
  rw [slice, h, Nat.add_sub_cancel_left, List.take_left]

/-- Behind the text is the rest. -/
theorem drop_of_drop {values before rest : Bytes} {start : ℕ}
    (h : values.drop start = before ++ rest) :
    values.drop (start + before.length) = rest := by
  rw [← List.drop_drop, h, List.drop_left]

/-- The rest ends where the string does. -/
theorem length_of_drop {values rest : Bytes} {start : ℕ} (hne : rest ≠ [])
    (h : values.drop start = rest) : values.length = start + rest.length := by
  have hlength := congrArg List.length h
  have hpos := List.length_pos_of_ne_nil hne
  rw [List.length_drop] at hlength
  omega

/-- The length and the value of a data item are read. -/
theorem dataItem_dataText {name value : Bytes} (hshort : (value.length : ℤ) ≤ intMax)
    {values after : Bytes} {sizeStart : ℕ}
    (h : values.drop sizeStart = natToString value.length ++ colon :: (value ++ after))
    (hafter : ∀ c ∈ after.head?, c = semicolon) :
    dataItem values name sizeStart = .ok ⟨name, some value,
      some (sizeStart + (natToString value.length).length + 1 + value.length + 1)⟩ := by
  obtain ⟨sizeEnd, hsizeEnd⟩ : ∃ sizeEnd, sizeEnd = sizeStart + (natToString value.length).length :=
    ⟨_, rfl⟩
  have hfind : find values colon sizeStart = some sizeEnd := by
    rw [hsizeEnd]
    apply findIf_of_drop h
    · intro c hc
      apply beq_eq_false_iff_ne.mpr
      rintro rfl
      exact absurd (isDigit_of_mem_natToString hc) (by decide)
    · rfl
  have hslice : slice values sizeStart sizeEnd = natToString value.length := by
    rw [hsizeEnd]
    exact slice_of_drop h
  have hsize : dataSize values name sizeStart = .ok ((value.length : ℤ), sizeEnd + 1) := by
    rw [dataSize, hfind]
    dsimp only
    rw [hslice, parseInt_natToString hshort]
  have hcolon : values.drop sizeEnd = [colon] ++ (value ++ after) := by
    rw [hsizeEnd]
    exact drop_of_drop h
  have hlength : values.length = sizeEnd + (1 + (value.length + after.length)) := by
    rw [length_of_drop (by simp) hcolon]
    simp only [List.length_append, List.length_singleton]
  have hvalue : values.drop (sizeEnd + 1) = value ++ after := drop_of_drop hcolon
  have hrest : values.drop (sizeEnd + 1 + value.length) = after := drop_of_drop hvalue
  have hstop : ((sizeEnd + 1 : ℕ) : ℤ) + (value.length : ℤ) =
      ((sizeEnd + 1 + value.length : ℕ) : ℤ) := by
    omega
  rw [dataItem, hsize]
  dsimp only
  rw [hstop, Int.toNat_natCast, if_neg (by omega), if_neg, if_neg (by omega), slice_of_drop hvalue,
    hsizeEnd]
  rintro ⟨hlt, hne⟩
  cases after with
  | nil =>
    rw [List.length_nil] at hlength
    omega
  | cons c rest =>
    obtain rfl := hafter c rfl
    apply hne
    rw [← List.head?_drop, hrest, List.head?_cons]

/-- A data item is read whole if the string ends after it or goes on with a semicolon. -/
theorem item_dataText {o : Bytes × Bytes} (hplain : equals ∉ o.1 ∧ semicolon ∉ o.1)
    (hshort : (o.2.length : ℤ) ≤ intMax) (files : Values) {values after : Bytes} {start : ℕ}
    (h : values.drop start = dataText o ++ after) (hafter : ∀ c ∈ after.head?, c = semicolon) :
    item files values start = .ok ⟨o.1, some o.2, some (start + (dataText o).length + 1)⟩ := by
  obtain ⟨name, value⟩ := o
  have hvalue : (value.length : ℤ) ≤ intMax := hshort
  obtain ⟨equalSign, hequalSign⟩ : ∃ equalSign, equalSign = start + name.length := ⟨_, rfl⟩
  have hname : values.drop start = name ++ equals ::
      (bytes "data:" ++ (natToString value.length ++ colon :: (value ++ after))) := by
    rw [h, dataText]
    simp
  have hend : nameEnd values start = some equalSign := by
    rw [hequalSign]
    apply findIf_of_drop hname
    · intro c hc
      have hne : c ≠ equals := ne_of_mem_of_not_mem hc hplain.1
      have hne' : c ≠ semicolon := ne_of_mem_of_not_mem hc hplain.2
      simp [hne, hne']
    · rfl
  have hslice : slice values start equalSign = name := by
    rw [hequalSign]
    exact slice_of_drop hname
  have hsign : values.drop equalSign = [equals] ++
      (bytes "data:" ++ (natToString value.length ++ colon :: (value ++ after))) := by
    rw [hequalSign]
    exact drop_of_drop hname
  have hequals : values[equalSign]? = some equals := by
    rw [← List.head?_drop, hsign]
    rfl
  have hdata : values.drop (equalSign + 1) =
      bytes "data:" ++ (natToString value.length ++ colon :: (value ++ after)) :=
    drop_of_drop hsign
  have htake : (values.drop (equalSign + 1)).take 5 = bytes "data:" := by
    rw [hdata]
    rfl
  have hlength : equalSign + 1 + 5 ≤ values.length := by
    have hfive : (bytes "data:").length = 5 := rfl
    rw [length_of_drop (by simp) hdata, List.length_append, hfive]
    omega
  have hsize : values.drop (equalSign + 1 + 5) =
      natToString value.length ++ colon :: (value ++ after) := drop_of_drop hdata
  have hfile : matchesAt values (bytes "file:") (equalSign + 1) = false := by
    rw [matchesAt, htake]
    exact Bool.and_eq_false_imp.mpr fun _ => rfl
  have hmatch : matchesAt values (bytes "data:") (equalSign + 1) = true := by
    rw [matchesAt, htake, beq_self_eq_true, Bool.and_true]
    exact decide_eq_true hlength
  have htext : (dataText (name, value)).length =
      name.length + 1 + 5 + (natToString value.length).length + 1 + value.length := by
    have hfive : (bytes "data:").length = 5 := rfl
    simp only [dataText, List.length_append, List.length_cons, hfive]
    omega
  rw [item, hend]
  dsimp only
  rw [hequals, if_neg (by decide), hfile, if_neg Bool.false_ne_true, hmatch, if_pos rfl, hslice,
    dataItem_dataText hvalue hsize hafter, htext, hequalSign]
  congr 3
  omega

/-- The values after the items were read. -/
theorem foldl_assign_dataText {items : List (Bytes × Bytes)} (hnodup : (items.map Prod.fst).Nodup)
    (parsed : Values) (name : Bytes) :
    items.foldl (fun (parsed : Values) o => Function.update parsed o.1 (some o.2)) parsed name =
      (items.lookup name).or (parsed name) := by
  induction items generalizing parsed with
  | nil => rfl
  | cons o items ih =>
    rw [List.map_cons, List.nodup_cons] at hnodup
    rw [List.foldl_cons, ih hnodup.2, List.lookup_cons]
    by_cases heq : name = o.1
    · subst heq
      have hnone : items.lookup o.1 = none := by
        apply Associations.lookup_eq_none
        intro e he hsame
        exact hnodup.1 (hsame ▸ List.mem_map_of_mem he)
      rw [hnone, Option.none_or, Function.update_self, beq_self_eq_true]
      rfl
    · rw [Function.update_of_ne heq, beq_eq_false_iff_ne.mpr heq]

/-- The loop reads joined items one by one. -/
theorem loop_dataText (files : Values) (values : Bytes) {items : List (Bytes × Bytes)}
    (hne : items ≠ []) (hname : ∀ o ∈ items, o.1 ≠ [])
    (hplain : ∀ o ∈ items, equals ∉ o.1 ∧ semicolon ∉ o.1)
    (hshort : ∀ o ∈ items, (o.2.length : ℤ) ≤ intMax) {start : ℕ} (parsed : Values)
    (h : values.drop start = [semicolon].intercalate (items.map dataText)) :
    (Comp.loop (fun s => (pure (pass files values s) : Comp _)) (start, parsed)).Returns
      (.ok (items.foldl (fun (parsed : Values) o => Function.update parsed o.1 (some o.2)) parsed)) := by
  induction items generalizing start parsed with
  | nil => exact absurd rfl hne
  | cons o items ih =>
    obtain ⟨hname_o, hname⟩ := List.forall_mem_cons.mp hname
    obtain ⟨hplain_o, hplain⟩ := List.forall_mem_cons.mp hplain
    obtain ⟨hshort_o, hshort⟩ := List.forall_mem_cons.mp hshort
    obtain ⟨c, name, hcons⟩ := List.exists_cons_of_ne_nil hname_o
    obtain ⟨after, hdrop, hafter, hrest⟩ : ∃ after, values.drop start = dataText o ++ after ∧
        (∀ c ∈ after.head?, c = semicolon) ∧ (items = [] ∧ after = [] ∨ items ≠ [] ∧
          after = [semicolon] ++ [semicolon].intercalate (items.map dataText)) := by
      cases items with
      | nil => exact ⟨[], by simpa using h, by simp, .inl ⟨rfl, rfl⟩⟩
      | cons second items =>
        refine ⟨[semicolon] ++ [semicolon].intercalate ((second :: items).map dataText), ?_,
          ?_, .inr ⟨List.cons_ne_nil _ _, rfl⟩⟩
        · rw [h, List.map_cons, List.map_cons, List.intercalate_cons_cons]
          simp
        · rintro c ⟨⟩
          rfl
    have hfirst : ∃ rest, values.drop start = c :: rest := by
      rw [hdrop, dataText, hcons]
      exact ⟨_, rfl⟩
    have hskip : skipSemicolons values start = start := by
      obtain ⟨rest, hfirst⟩ := hfirst
      have hc : c ≠ semicolon := by
        rintro rfl
        exact hplain_o.2 (hcons ▸ List.mem_cons_self ..)
      rw [skipSemicolons, hfirst, List.takeWhile_cons_of_neg (by simpa using hc)]
      rfl
    have hlt : start < values.length := by
      obtain ⟨rest, hfirst⟩ := hfirst
      rw [length_of_drop (List.cons_ne_nil _ _) hfirst, List.length_cons]
      omega
    have hpass : pass files values (start, parsed) = .next (start + (dataText o).length + 1,
        Function.update parsed o.1 (some o.2)) := by
      simp only [pass, hskip, if_pos hlt, item_dataText hplain_o hshort_o files hdrop hafter]
      rfl
    refine Comp.returns_loop.mpr (.inr ⟨_, Comp.returns_pure.mpr hpass, ?_⟩)
    have hafter := drop_of_drop hdrop
    rcases hrest with ⟨rfl, rfl⟩ | ⟨hitems, rfl⟩
    · have hend : values.length ≤ start + (dataText o).length := List.drop_eq_nil_iff.mp hafter
      have hskip := le_skipSemicolons values (start + (dataText o).length + 1)
      refine Comp.returns_loop.mpr (.inl (Comp.returns_pure.mpr ?_))
      rw [pass]
      dsimp only
      rw [if_neg (by omega)]
      rfl
    · exact ih hitems hname hplain hshort _ (drop_of_drop hafter)

/-- Joined items are parsed to exactly their values. -/
theorem parse_text (files : Values) (options : Options) :
    (parse files options.text).Returns (.ok options.toValues) := by
  by_cases hne : options.items = []
  · have htext : options.text = [] := by
      rw [Options.text, hne]
      rfl
    have hvalues : options.toValues = fun _ => none := by
      funext name
      rw [Options.toValues, hne]
      rfl
    rw [htext, hvalues]
    exact Comp.returns_loop.mpr (.inl (Comp.returns_pure.mpr rfl))
  · have hvalues : options.toValues = options.items.foldl
        (fun (parsed : Values) o => Function.update parsed o.1 (some o.2)) fun _ => none := by
      funext name
      rw [foldl_assign_dataText options.distinct, Option.or_none, Options.toValues]
    rw [hvalues]
    exact loop_dataText files _ hne options.name_ne_nil options.name_plain options.value_short _ rfl

end NamedValues

end UDPipe
