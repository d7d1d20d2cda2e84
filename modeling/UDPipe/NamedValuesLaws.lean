import UDPipe.NamedValues
import UDPipe.IntegerSyntax
import Mathlib.Data.List.Infix

/-!
# When the option strings are read to their end

The next start of the loop of `named_values::parse` is computed from the length of a data
value. A negative length that is accepted ends at a semicolon before the item, so the loop
goes back. A string whose items, read from left to right, have no such length is read to
its end.
-/

namespace UDPipe.NamedValues

/-! ### Text without semicolons -/

/-- There is no semicolon between these positions. -/
def Clear (values : Bytes) (start stop : ℕ) : Prop :=
  ∀ p, start ≤ p → p < stop → values[p]? ≠ some semicolon

/-- Two stretches without semicolons, one after the other. -/
theorem Clear.append {values : Bytes} {start middle stop : ℕ} (h : Clear values start middle)
    (h' : Clear values middle stop) : Clear values start stop := by
  intro p hstart hstop
  by_cases hp : p < middle
  · exact h p hstart hp
  · exact h' p (Nat.le_of_not_lt hp) hstop

/-- A single byte that is not a semicolon. -/
theorem clear_succ {values : Bytes} {start : ℕ} {c : Byte} (h : values[start]? = some c)
    (hc : c ≠ semicolon) : Clear values start (start + 1) := by
  intro p hstart hstop hp
  obtain rfl : p = start := by omega
  exact hc (Option.some.inj (h.symm.trans hp))

/-- A text without semicolons that stands in the string. -/
theorem clear_of_slice {values : Bytes} {start stop : ℕ}
    (h : semicolon ∉ slice values start stop) : Clear values start stop := by
  intro p hstart hstop hp
  apply h
  apply List.mem_of_getElem? (i := p - start)
  rw [slice, List.getElem?_take_of_lt (by omega), List.getElem?_drop, ← hp]
  congr 1
  omega

/-- What is found first. -/
theorem findIf_eq_some {p : Byte → Bool} {values : Bytes} {start i : ℕ}
    (h : findIf p values start = some i) : start ≤ i ∧ i < values.length ∧
      (∃ c, values[i]? = some c ∧ p c = true) ∧
      ∀ j c, start ≤ j → j < i → values[j]? = some c → p c = false := by
  obtain ⟨k, hk, rfl⟩ := Option.map_eq_some_iff.mp h
  obtain ⟨hlt, hp, hbefore⟩ := List.findIdx?_eq_some_iff_getElem.mp hk
  have hlength := hlt
  rw [List.length_drop] at hlength
  refine ⟨Nat.le_add_right _ _, by omega, ⟨_, ?_, hp⟩, ?_⟩
  · rw [← List.getElem?_drop, List.getElem?_eq_getElem hlt]
  · intro j c hstart hstop hj
    have hjk := hbefore (j - start) (by omega)
    rw [List.getElem_drop, Bool.not_eq_true] at hjk
    obtain ⟨hlt', rfl⟩ := List.getElem?_eq_some_iff.mp hj
    rw [← hjk]
    congr 2
    omega

/-- Nothing is found where nothing is. -/
theorem findIf_eq_none {p : Byte → Bool} {values : Bytes} {start : ℕ}
    (h : findIf p values start = none) {j : ℕ} {c : Byte} (hstart : start ≤ j)
    (hj : values[j]? = some c) : p c = false := by
  have hnone := List.findIdx?_eq_none_iff.mp (Option.map_eq_none_iff.mp h)
  apply hnone c
  apply List.mem_of_getElem? (i := j - start)
  rw [List.getElem?_drop, ← hj]
  congr 1
  omega

/-- A value that ends at a semicolon or with the string. -/
theorem stop_bounds {values : Bytes} {start : ℕ} (h : start ≤ values.length) :
    start ≤ (find values semicolon start).getD values.length ∧
      (find values semicolon start).getD values.length ≤ values.length ∧
      Clear values start ((find values semicolon start).getD values.length) := by
  cases hfind : find values semicolon start with
  | none =>
    refine ⟨h, Nat.le_refl _, ?_⟩
    intro p hp _ hsemicolon
    exact absurd (findIf_eq_none hfind hp hsemicolon) (by decide)
  | some stop =>
    obtain ⟨hle, hlt, -, hbefore⟩ := findIf_eq_some hfind
    refine ⟨hle, Nat.le_of_lt hlt, ?_⟩
    intro p hp hstop hsemicolon
    exact absurd (hbefore p semicolon hp hstop hsemicolon) (by decide)

/-- A name has no semicolon, and it ends at a sign or at a semicolon. -/
theorem nameEnd_eq_some {values : Bytes} {start stop : ℕ} (h : nameEnd values start = some stop) :
    start ≤ stop ∧ stop < values.length ∧
      (values[stop]? = some equals ∨ values[stop]? = some semicolon) ∧
      Clear values start stop := by
  obtain ⟨hle, hlt, ⟨c, hc, hsign⟩, hbefore⟩ := findIf_eq_some h
  refine ⟨hle, hlt, ?_, ?_⟩
  · simp only [Bool.or_eq_true, beq_iff_eq] at hsign
    rcases hsign with rfl | rfl
    · exact .inl hc
    · exact .inr hc
  · intro p hp hstop hsemicolon
    exact absurd (hbefore p semicolon hp hstop hsemicolon) (by decide)

/-- The kind of a value is written within the string. -/
theorem clear_of_matchesAt {values text : Bytes} {start : ℕ}
    (h : matchesAt values text start = true) (htext : semicolon ∉ text) :
    start + 5 ≤ values.length ∧ Clear values start (start + 5) := by
  obtain ⟨hle, heq⟩ := Bool.and_eq_true_iff.mp h
  refine ⟨of_decide_eq_true hle, clear_of_slice ?_⟩
  rwa [slice, Nat.add_sub_cancel_left, beq_iff_eq.mp heq]

/-! ### Data values -/

/-- The item at this start has a data value of this length, which begins there. -/
def DataAt (values : Bytes) (start : ℕ) (size : ℤ) (dataStart : ℕ) : Prop :=
  ∃ equalSign, nameEnd values start = some equalSign ∧ values[equalSign]? = some equals ∧
    matchesAt values (bytes "data:") (equalSign + 1) = true ∧
    dataSize values (slice values start equalSign) (equalSign + 1 + 5) = .ok (size, dataStart)

/-- The data value of the item at this start has a negative length, which leads back to
this semicolon. -/
def BackAt (values : Bytes) (start stop : ℕ) : Prop :=
  ∃ size dataStart, DataAt values start size dataStart ∧ size < 0 ∧
    (dataStart : ℤ) + size = stop ∧ values[stop]? = some semicolon

/-- The item at this start has no data value with a semicolon in it. -/
def PlainAt (values : Bytes) (start : ℕ) : Prop :=
  ∀ size dataStart, DataAt values start size dataStart → 0 ≤ size →
    semicolon ∉ slice values dataStart (dataStart + size.toNat)

/-- The length of a data value is a number before a colon. -/
theorem dataSize_eq_ok {values name : Bytes} {sizeStart dataStart : ℕ} {size : ℤ}
    (h : dataSize values name sizeStart = .ok (size, dataStart)) :
    sizeStart < dataStart ∧ dataStart ≤ values.length ∧ Clear values sizeStart dataStart := by
  unfold dataSize at h
  split at h
  · cases h
  · rename_i sizeEnd hend
    split at h
    · cases h
    · rename_i number hnumber
      obtain ⟨-, rfl⟩ := Prod.mk.inj (Except.ok.inj h)
      obtain ⟨hle, hlt, ⟨c, hc, hcolon⟩, -⟩ := findIf_eq_some hend
      refine ⟨by omega, hlt, @Clear.append _ _ sizeEnd _ (clear_of_slice ?_) ?_⟩
      · intro hmem
        have hnot := mem_of_parseInt hnumber hmem
        revert hnot
        decide
      · obtain rfl := beq_iff_eq.mp hcolon
        exact clear_succ hc (by decide)

/-- There is no semicolon before a data value. -/
theorem DataAt.clear {values : Bytes} {start dataStart : ℕ} {size : ℤ}
    (h : DataAt values start size dataStart) :
    start < dataStart ∧ dataStart ≤ values.length ∧ Clear values start dataStart := by
  obtain ⟨equalSign, hend, hequals, hdata, hsize⟩ := h
  obtain ⟨hle, -, -, hname⟩ := nameEnd_eq_some hend
  obtain ⟨-, hkind⟩ := clear_of_matchesAt hdata (by decide)
  obtain ⟨hlt, hlength, hnumber⟩ := dataSize_eq_ok hsize
  refine ⟨by omega, hlength, ?_⟩
  exact ((hname.append (clear_succ hequals (by decide))).append hkind).append hnumber

/-- A negative length leads back before its item. -/
theorem BackAt.lt {values : Bytes} {start stop : ℕ} (h : BackAt values start stop) :
    stop < start := by
  obtain ⟨size, dataStart, hdata, hneg, hstop, hsemicolon⟩ := h
  by_contra hnot
  exact hdata.clear.2.2 stop (Nat.le_of_not_lt hnot) (by omega) hsemicolon

/-- The loop goes back to the semicolon. -/
theorem BackAt.item {values : Bytes} {start stop : ℕ} (h : BackAt values start stop)
    (files : Values) : ∃ it, item files values start = .ok it ∧ it.next = some (stop + 1) := by
  obtain ⟨size, dataStart, ⟨equalSign, hend, hequals, hdata, hsize⟩, hneg, hstop, hsemicolon⟩ := h
  have hlt : stop < values.length := (List.getElem?_eq_some_iff.mp hsemicolon).1
  have hfile : matchesAt values (bytes "file:") (equalSign + 1) = false := by
    have hkind := beq_iff_eq.mp (Bool.and_eq_true_iff.mp hdata).2
    rw [matchesAt, hkind]
    exact Bool.and_eq_false_imp.mpr fun _ => rfl
  refine ⟨⟨slice values start equalSign, some (values.drop dataStart), some (stop + 1)⟩, ?_, rfl⟩
  rw [NamedValues.item, hend]
  dsimp only
  rw [hequals, if_neg (by decide), hfile, if_neg Bool.false_ne_true, hdata, if_pos rfl, dataItem,
    hsize]
  dsimp only
  rw [hstop, Int.toNat_natCast, hsemicolon, if_neg (by omega), if_neg (by simp), if_pos hneg]

/-- A data value that is read. -/
theorem dataItem_next {values name : Bytes} {sizeStart next : ℕ} {it : Item}
    (h : dataItem values name sizeStart = .ok it) (hnext : it.next = some next) :
    ∃ size dataStart stop, dataSize values name sizeStart = .ok (size, dataStart) ∧
      (dataStart : ℤ) + size = (stop : ℕ) ∧ next = stop + 1 ∧ stop ≤ values.length ∧
      (stop < values.length → values[stop]? = some semicolon) := by
  unfold dataItem at h
  split at h
  · cases h
  · rename_i size dataStart hsize
    dsimp only at h
    split at h
    · cases h
    · rename_i hlong
      split at h
      · cases h
      · rename_i hend
        obtain rfl := Except.ok.inj h
        obtain rfl := Option.some.inj hnext
        refine ⟨size, dataStart, (dataStart + size : ℤ).toNat, hsize, by omega, rfl, by omega, ?_⟩
        intro hlt
        by_contra hne
        exact hend ⟨by omega, hne⟩

/-- An item leads back to a semicolon, or it ends farther on at the first semicolon that is
not in a data value. -/
theorem item_next {files : Values} {values : Bytes} {start next : ℕ} {it : Item}
    (h : item files values start = .ok it) (hnext : it.next = some next) :
    start < values.length ∧ ∃ stop, next = stop + 1 ∧ (BackAt values start stop ∨
      start ≤ stop ∧ stop ≤ values.length ∧ (PlainAt values start → Clear values start stop)) := by
  unfold item at h
  split at h
  · obtain rfl := Except.ok.inj h
    cases hnext
  · rename_i equalSign hend
    obtain ⟨hstart, hlt, hsign, hname⟩ := nameEnd_eq_some hend
    refine ⟨by omega, ?_⟩
    dsimp only at h
    split at h
    · obtain rfl := Except.ok.inj h
      obtain rfl := Option.some.inj hnext
      exact ⟨equalSign, rfl, .inr ⟨hstart, Nat.le_of_lt hlt, fun _ => hname⟩⟩
    · rename_i hsemicolon
      have hequals : values[equalSign]? = some equals := hsign.resolve_right hsemicolon
      have hbefore : Clear values start (equalSign + 1) :=
        hname.append (clear_succ hequals (by decide))
      split at h
      · rename_i hfile
        obtain ⟨hbound, hkind⟩ := clear_of_matchesAt hfile (by decide)
        obtain ⟨hstop, hlength, hclear⟩ := stop_bounds hbound
        split at h
        · cases h
        · obtain rfl := Except.ok.inj h
          obtain rfl := Option.some.inj hnext
          exact ⟨_, rfl, .inr ⟨by omega, hlength, fun _ => (hbefore.append hkind).append hclear⟩⟩
      · split at h
        · rename_i hdata
          obtain ⟨size, dataStart, stop, hsize, hstop, rfl, hlength, hat⟩ := dataItem_next h hnext
          have hdataAt : DataAt values start size dataStart :=
            ⟨equalSign, hend, hequals, hdata, hsize⟩
          obtain ⟨hlt', hlength', hclear⟩ := hdataAt.clear
          refine ⟨stop, rfl, ?_⟩
          by_cases hneg : size < 0
          · exact .inl ⟨size, dataStart, hdataAt, hneg, hstop, hat (by omega)⟩
          · refine .inr ⟨by omega, hlength, fun hplain => hclear.append (clear_of_slice ?_)⟩
            have hsum : dataStart + size.toNat = stop := by omega
            exact hsum ▸ hplain size dataStart hdataAt (by omega)
        · obtain rfl := Except.ok.inj h
          obtain rfl := Option.some.inj hnext
          obtain ⟨hstop, hlength, hclear⟩ := stop_bounds (Nat.le_of_lt hlt)
          exact ⟨_, rfl, .inr ⟨by omega, hlength, fun _ => hname.append hclear⟩⟩

/-! ### Reading from left to right -/

/-- Where a reader that goes on from item to item comes to, who stops at an item that leads
back. -/
inductive ReadsTo (files : Values) (values : Bytes) : ℕ → Prop
  | start : ReadsTo files values 0
  | next {start next : ℕ} {it : Item} (reads : ReadsTo files values start)
      (forward : ∀ stop, ¬ BackAt values (skipSemicolons values start) stop)
      (read : item files values (skipSemicolons values start) = .ok it)
      (goes : it.next = some next) : ReadsTo files values next

/-- A pass of the loop that starts here goes on there. -/
def Leads (files : Values) (values : Bytes) (start next : ℕ) : Prop :=
  skipSemicolons values start < values.length ∧
    ∃ it, item files values (skipSemicolons values start) = .ok it ∧ it.next = some next

/-- The passes of the loop follow the starts. -/
theorem follows_pass (files : Values) (values : Bytes) :
    Comp.Follows (Leads files values) Prod.fst (pass files values) where
  sound := by
    intro s s' h
    unfold pass at h
    dsimp only at h
    split at h
    · rename_i hlt
      split at h
      · cases h
      · rename_i it hit
        split at h
        · cases h
        · rename_i next hnext
          obtain rfl := LoopStep.next.inj h
          exact ⟨hlt, it, hit, hnext⟩
    · cases h
  complete := by
    rintro s next ⟨hlt, it, hit, hnext⟩
    refine ⟨(next, assign s.2 it), ?_, rfl⟩
    simp only [pass, hlt, if_true, hit, hnext]

/-- No item that is come to leads back. -/
def ReadsForward (files : Values) (values : Bytes) : Prop :=
  ∀ start, ReadsTo files values start → ∀ stop, ¬ BackAt values (skipSemicolons values start) stop

/-- A string whose items lead on is read to its end. -/
theorem terminates_of_readsForward {files : Values} {values : Bytes}
    (h : ReadsForward files values) : (parse files values).Terminates := by
  refine Comp.loop_terminates (fun s => ReadsTo files values s.1)
    (fun s => values.length + 2 - s.1) ?_ .start
  rintro ⟨start, parsed⟩ hstart
  have hreturns : (pure (pass files values (start, parsed)) : Comp _).Returns
      (pass files values (start, parsed)) := Comp.returns_pure.mpr rfl
  cases hpass : pass files values (start, parsed) with
  | done result => exact .inl ⟨result, hpass ▸ hreturns⟩
  | next s =>
    refine .inr ⟨s, hpass ▸ hreturns, ?_⟩
    obtain ⟨-, it, hit, hnext⟩ := (follows_pass files values).sound _ _ hpass
    obtain ⟨hlt, stop, hstop, hback | ⟨hle, hlength, -⟩⟩ := item_next hit hnext
    · exact absurd hback (h start hstart stop)
    · have hskip := le_skipSemicolons values start
      refine ⟨.next hstart (h start hstart) hit hnext, ?_⟩
      dsimp only at *
      omega

/-- From a position among semicolons the loop goes on as from the first of them. -/
theorem skipSemicolons_between {values : Bytes} {start p : ℕ} (hle : start ≤ p)
    (hskip : p ≤ skipSemicolons values start) :
    skipSemicolons values p = skipSemicolons values start := by
  obtain ⟨k, rfl⟩ := Nat.exists_eq_add_of_le hle
  have htake : ∀ (text : Bytes) (k : ℕ), k ≤ (text.takeWhile (· == semicolon)).length →
      k + ((text.drop k).takeWhile (· == semicolon)).length =
        (text.takeWhile (· == semicolon)).length := by
    intro text
    induction text with
    | nil => simp
    | cons c text ih =>
      intro k hk
      cases k with
      | zero => simp
      | succ k =>
        by_cases hc : c = semicolon
        · rw [List.takeWhile_cons_of_pos (by simpa using hc), List.length_cons] at hk ⊢
          have hrest := ih k (by omega)
          rw [List.drop_succ_cons]
          omega
        · rw [List.takeWhile_cons_of_neg (by simpa using hc)] at hk
          cases hk
  unfold skipSemicolons at *
  have hlength := htake (values.drop start) k (by omega)
  rw [List.drop_drop] at hlength
  omega

/-- If no data value has a semicolon in it, then every semicolon before a place that is come
to ends an item or is skipped before one. -/
theorem exists_readsTo_of_semicolon {files : Values} {values : Bytes}
    (hplain : ∀ start, ReadsTo files values start → PlainAt values (skipSemicolons values start))
    {start : ℕ} (hstart : ReadsTo files values start) {p : ℕ} (hlt : p < start)
    (hp : values[p]? = some semicolon) :
    ∃ before, Relation.ReflTransGen (Leads files values) before start ∧ before ≤ p + 1 ∧
      p + 1 ≤ skipSemicolons values before := by
  induction hstart with
  | start => omega
  | next hreads hforward hit hnext ih =>
    rename_i start next it
    obtain ⟨hlength, stop, rfl, hback | ⟨hle, -, hclear⟩⟩ := item_next hit hnext
    · exact absurd hback (hforward stop)
    · have hleads : Leads files values start (stop + 1) := ⟨hlength, it, hit, hnext⟩
      have hclear := hclear (hplain start hreads)
      by_cases hbefore : p < start
      · obtain ⟨before, hreach, hbounds⟩ := ih hbefore
        exact ⟨before, hreach.tail hleads, hbounds⟩
      · by_cases hskipped : p < skipSemicolons values start
        · exact ⟨start, .single hleads, by omega, by omega⟩
        · have hlast : p = stop := by
            by_contra hne
            exact hclear p (by omega) (by omega) hp
          exact ⟨stop + 1, .refl, by omega, by have := le_skipSemicolons values (stop + 1); omega⟩

/-- The loop comes to where a reader from left to right does. -/
theorem ReadsTo.reached {files : Values} {values : Bytes} {start : ℕ}
    (h : ReadsTo files values start) : Relation.ReflTransGen (Leads files values) 0 start := by
  induction h with
  | start => exact .refl
  | next _ _ hit hnext ih => exact ih.tail ⟨(item_next hit hnext).1, _, hit, hnext⟩

/-- If no data value has a semicolon in it, then the loop ends on no other strings. -/
theorem readsForward_of_terminates {files : Values} {values : Bytes}
    (hplain : ∀ start, ReadsTo files values start → PlainAt values (skipSemicolons values start))
    (h : (parse files values).Terminates) : ReadsForward files values := by
  intro start hstart stop hback
  obtain ⟨it, hit, hnext⟩ := hback.item files
  have hleads : Leads files values start (stop + 1) := ⟨(item_next hit hnext).1, it, hit, hnext⟩
  have hsemicolon : values[stop]? = some semicolon := by
    obtain ⟨_, _, _, _, _, hsemicolon⟩ := hback
    exact hsemicolon
  have hlt := hback.lt
  -- the place that is gone back to leads where an earlier one led, and so to itself
  obtain ⟨before, hreach, hle, hskip⟩ : ∃ before,
      Relation.ReflTransGen (Leads files values) before start ∧ before ≤ stop + 1 ∧
        stop + 1 ≤ skipSemicolons values before := by
    by_cases hbefore : stop < start
    · exact exists_readsTo_of_semicolon hplain hstart hbefore hsemicolon
    · exact ⟨start, .refl, by omega, by omega⟩
  have hsame : ∀ k, Leads files values before k → Leads files values (stop + 1) k := by
    rintro k ⟨hk, hitem⟩
    rw [← skipSemicolons_between hle hskip] at hk hitem
    exact ⟨hk, hitem⟩
  have hcycle : Relation.TransGen (Leads files values) (stop + 1) (stop + 1) := by
    rcases hreach.cases_head with rfl | ⟨k, hfirst, hrest⟩
    · exact .single (hsame _ hleads)
    · exact Relation.TransGen.head' (hsame k hfirst) (hrest.tail hleads)
  exact Comp.loop_diverges_of_cycle (follows_pass files values) (hstart.reached.tail hleads)
    hcycle h

/-! ### Looping and the whole -/

/-- After a semicolon, an item whose length leads back to itself. -/
def loopingText : Bytes := bytes ";a=data:-12:"

/-- The loop does not end on every string. -/
theorem parse_not_terminates :
    ¬ ∀ values : Bytes, ¬ bytes "file:" <:+: values →
      ∀ files : Values, (parse files values).Terminates := by
  intro h
  have hpass : ∀ start parsed, start = 0 ∨ start = 1 → ∃ parsed',
      pass (fun _ => none) loopingText (start, parsed) = .next (1, parsed') := by
    intro start parsed hstart
    refine ⟨assign parsed ⟨bytes "a", some [], some 1⟩, ?_⟩
    have hskip : skipSemicolons loopingText start = 1 := by
      rcases hstart with rfl | rfl <;> decide
    have hitem : item (fun _ => none) loopingText 1 = .ok ⟨bytes "a", some [], some 1⟩ := by
      rfl
    simp only [pass, hskip, hitem]
    rfl
  refine Comp.loop_diverges (fun s => s.1 = 0 ∨ s.1 = 1) ?_ (.inl rfl)
    (h loopingText (by decide) fun _ => none)
  rintro ⟨start, parsed⟩ hstart
  obtain ⟨parsed', hnext⟩ := hpass start parsed hstart
  exact ⟨(1, parsed'), Comp.returns_pure.mpr hnext, .inr rfl⟩

/-- A string whose items, read from left to right, have no length that leads back is read to
its end, and so is no other string without semicolons in data values. Joined items are
parsed to exactly their values. -/
theorem terminates_and_roundTrip (files : Values) :
    (∀ values : Bytes, ReadsForward files values → (parse files values).Terminates) ∧
    (∀ values : Bytes,
      (∀ start, ReadsTo files values start → PlainAt values (skipSemicolons values start)) →
        ((parse files values).Terminates ↔ ReadsForward files values)) ∧
    ∀ options : Options, (parse files options.text).Returns (.ok options.toValues) :=
  ⟨fun _ => terminates_of_readsForward,
    fun _ hplain => ⟨readsForward_of_terminates hplain, terminates_of_readsForward⟩,
    parse_text files⟩

end UDPipe.NamedValues
