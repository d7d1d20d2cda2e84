import UDPipe.Morphodita.PrefixTries
import Mathlib.Data.List.Find

/-!
# What the prefix guesser looks up

Each try puts the initial part in front of what is left of the form, in a copy of the form
that earlier tries have written over. The strings that are looked up are the stripped forms
if and only if no such try shows a changed byte.
-/

namespace UDPipe.Morphodita

/-! ### Stripped forms -/

/-- The form without a segment. -/
def stripped (form : Bytes) (t : ℕ × ℕ) : Bytes := form.take t.1 ++ form.drop t.2

namespace MorphoPrefixGuesser

section Stripped

variable (guesser : MorphoPrefixGuesser) (dictionary : Bytes → List (Bytes × Bytes))
  (form : Bytes)

/-- The stripped forms are what is passed to the dictionary, and their analyses that match
are what is reported. -/
def AnalysesStripped : Prop :=
  ∀ lemmas, guesser.analyze dictionary form lemmas =
    some (lemmas ++ (guesser.tries form).flatMap fun t =>
        guesser.analysesOf dictionary form (stripped form t) t,
      (guesser.tries form).map (stripped form))

/-- The initial part of a try is copied over a position. -/
def copiedOver (p : ℕ) (t : ℕ × ℕ) : Bool := t.2 - t.1 ≤ p && p < t.2

/-- Behind the segment of a try, the last copy over each position left the byte of the form. -/
def Intact : Prop :=
  ∀ before t after, guesser.tries form = before ++ t :: after → t.1 ≠ 0 → ∀ p, t.2 ≤ p →
    ∀ t', before.reverse.find? (copiedOver p) = some t' →
      form[p - (t'.2 - t'.1)]? = form[p]?

end Stripped

variable {guesser : MorphoPrefixGuesser} {dictionary : Bytes → List (Bytes × Bytes)}
  {form : Bytes}

/-! ### The copy of the form -/

/-- The initial part of a try and where it is copied. -/
def block (form : Bytes) (t : ℕ × ℕ) : ℕ × Bytes := (t.2 - t.1, form.take t.1)

/-- The copy of the form after some tries. -/
def copyAfter (form : Bytes) (before : List (ℕ × ℕ)) : Bytes :=
  (before.map (block form)).foldl InPlace.write form

/-- The string of a try after some others. -/
def lookedUp (form : Bytes) (before : List (ℕ × ℕ)) (t : ℕ × ℕ) : Bytes :=
  if t.1 ≠ 0 then form.take t.1 ++ (copyAfter form before).drop t.2 else form.drop t.2

/-- The tries after some others, with their strings. -/
def visits (form : Bytes) : List (ℕ × ℕ) → List (ℕ × ℕ) → List (Bytes × (ℕ × ℕ))
  | _, [] => []
  | before, t :: ts => (lookedUp form before t, t) :: visits form (before ++ [t]) ts

/-- Segments within the form. -/
def Ranged (form : Bytes) (ts : List (ℕ × ℕ)) : Prop := ∀ t ∈ ts, t.1 < t.2 ∧ t.2 ≤ form.length

/-- The block of a try ends where the try does. -/
theorem block_spec {t : ℕ × ℕ} (hlt : t.1 < t.2) (hle : t.2 ≤ form.length) :
    (block form t).1 + (block form t).2.length = t.2 := by
  rw [block, List.length_take_of_le (by omega)]
  omega

/-- The blocks are inside the form. -/
theorem Ranged.blocks {before : List (ℕ × ℕ)} (h : Ranged form before) :
    ∀ b ∈ before.map (block form), b.1 + b.2.length ≤ form.length := by
  intro b hb
  obtain ⟨t, ht, rfl⟩ := List.mem_map.mp hb
  rw [block_spec (h t ht).1 (h t ht).2]
  exact (h t ht).2

/-- The work stands for the tries so far. -/
def CopyIs (form : Bytes) (before : List (ℕ × ℕ)) (work : PrefixWork) : Prop :=
  (if work.formTmp = [] then form else work.formTmp) = copyAfter form before

/-- A try looks up the string that its copy shows. -/
theorem tryStep_spec (dictionary : Bytes → List (Bytes × Bytes)) {before : List (ℕ × ℕ)}
    {work : PrefixWork} (hbefore : Ranged form before) (hcopy : CopyIs form before work)
    {t : ℕ × ℕ} (hlt : t.1 < t.2) (hle : t.2 ≤ form.length) :
    (tryStep guesser dictionary form work t).passed = work.passed ++ [lookedUp form before t] ∧
      (tryStep guesser dictionary form work t).lemmas =
        work.lemmas ++ guesser.analysesOf dictionary form (lookedUp form before t) t ∧
      CopyIs form (before ++ [t]) (tryStep guesser dictionary form work t) := by
  have hafter : copyAfter form (before ++ [t]) =
      InPlace.write (copyAfter form before) (t.2 - t.1, form.take t.1) := by
    rw [copyAfter, List.map_append, List.foldl_append]
    rfl
  have htake : (form.take t.1).length = t.1 := List.length_take_of_le (by omega)
  rw [CopyIs] at hcopy
  rw [CopyIs, tryStep, hafter, hcopy]
  by_cases hzero : t.1 = 0
  · have hsame : InPlace.write (copyAfter form before) (t.2 - t.1, form.take t.1) =
        copyAfter form before := by
      rw [InPlace.write, hzero]
      simp
    have hlooked : lookedUp form before t = form.drop (t.2 - t.1) := by
      rw [lookedUp, if_neg (not_not.mpr hzero), hzero, Nat.sub_zero]
    rw [hsame, hlooked]
    simp only [if_neg (not_not.mpr hzero)]
    exact ⟨trivial, trivial, hcopy⟩
  · have hlength : (copyAfter form before).length = form.length :=
      InPlace.length_foldl_write hbefore.blocks
    have hdrop : (InPlace.write (copyAfter form before) (t.2 - t.1, form.take t.1)).drop
        (t.2 - t.1) = lookedUp form before t := by
      have hfirst : ((copyAfter form before).take (t.2 - t.1)).length = t.2 - t.1 :=
        List.length_take_of_le (by omega)
      rw [InPlace.write, htake, Nat.sub_add_cancel hlt.le, List.append_assoc,
        List.drop_left' hfirst, lookedUp, if_pos hzero]
    have hne : InPlace.write (copyAfter form before) (t.2 - t.1, form.take t.1) ≠ [] := by
      intro hnil
      have hpos := congrArg List.length hnil
      rw [InPlace.length_write (by rw [htake, hlength]; omega), hlength, List.length_nil] at hpos
      omega
    simp only [if_pos hzero, hdrop, if_neg hne]
    exact ⟨trivial, trivial, trivial⟩

/-- The tries in their order. -/
theorem foldl_tryStep (dictionary : Bytes → List (Bytes × Bytes)) {before ts : List (ℕ × ℕ)}
    {work : PrefixWork} (hbefore : Ranged form before) (hts : Ranged form ts)
    (hcopy : CopyIs form before work) :
    (ts.foldl (tryStep guesser dictionary form) work).passed =
        work.passed ++ (visits form before ts).map Prod.fst ∧
      (ts.foldl (tryStep guesser dictionary form) work).lemmas =
        work.lemmas ++ (visits form before ts).flatMap fun visit =>
          guesser.analysesOf dictionary form visit.1 visit.2 := by
  induction ts generalizing before work with
  | nil => simp [visits]
  | cons t ts ih =>
    obtain ⟨ht, hrest⟩ := List.forall_mem_cons.mp hts
    obtain ⟨hpassed, hlemmas, hnext⟩ :=
      @tryStep_spec guesser form dictionary before work hbefore hcopy t ht.1 ht.2
    have hranged : Ranged form (before ++ [t]) :=
      List.forall_mem_append.mpr ⟨hbefore, List.forall_mem_singleton.mpr ht⟩
    obtain ⟨hpassed', hlemmas'⟩ := ih hranged hrest hnext
    rw [List.foldl_cons, hpassed', hlemmas', hpassed, hlemmas, visits]
    simp

/-- Every try is visited. -/
theorem map_snd_visits (form : Bytes) (before ts : List (ℕ × ℕ)) :
    (visits form before ts).map Prod.snd = ts := by
  induction ts generalizing before with
  | nil => rfl
  | cons t ts ih => rw [visits, List.map_cons, ih]

/-- The strings are the stripped forms if each of them is. -/
theorem visits_eq_iff {before ts : List (ℕ × ℕ)} :
    (visits form before ts).map Prod.fst = ts.map (stripped form) ↔
      ∀ earlier t later, ts = earlier ++ t :: later →
        lookedUp form (before ++ earlier) t = stripped form t := by
  induction ts generalizing before with
  | nil => simp [visits]
  | cons t ts ih =>
    rw [visits, List.map_cons, List.map_cons, List.cons.injEq, ih]
    constructor
    · rintro ⟨hthis, hrest⟩ earlier t' later heq
      cases earlier with
      | nil =>
        obtain ⟨rfl, -⟩ := List.cons.inj heq
        rw [List.append_nil]
        exact hthis
      | cons first earlier =>
        obtain ⟨rfl, htail⟩ := List.cons.inj heq
        have := hrest earlier t' later htail
        rwa [List.append_assoc, List.singleton_append] at this
    · intro h
      refine ⟨?_, fun earlier t' later heq => ?_⟩
      · have := h [] t ts rfl
        rwa [List.append_nil] at this
      · have := h (t :: earlier) t' later (by rw [heq, List.cons_append])
        rwa [List.append_assoc, List.singleton_append]

/-- What the copy has at a position behind the segment of a try. -/
theorem lookedUp_eq_iff {before : List (ℕ × ℕ)} (hbefore : Ranged form before) {t : ℕ × ℕ} :
    lookedUp form before t = stripped form t ↔ (t.1 ≠ 0 → ∀ p, t.2 ≤ p →
      ∀ t', before.reverse.find? (copiedOver p) = some t' →
        form[p - (t'.2 - t'.1)]? = form[p]?) := by
  rw [lookedUp, stripped]
  by_cases hzero : t.1 = 0
  · simp [hzero]
  rw [if_pos hzero, List.append_cancel_left_eq, forall_prop_of_true hzero]
  have hfind : ∀ p, (before.map (block form)).reverse.find? (InPlace.covers p) =
      (before.reverse.find? (copiedOver p)).map (block form) := by
    intro p
    rw [← List.map_reverse, List.find?_map]
    congr 1
    refine List.find?_congr fun t' ht' => ?_
    have hranged := hbefore t' (List.mem_reverse.mp ht')
    rw [Function.comp_apply, InPlace.covers, block_spec hranged.1 hranged.2]
    rfl
  have hbyte : ∀ p, (copyAfter form before)[p]? = form[p]? ↔
      ∀ t', before.reverse.find? (copiedOver p) = some t' →
        form[p - (t'.2 - t'.1)]? = form[p]? := by
    intro p
    rw [copyAfter, InPlace.getElem?_foldl_write hbefore.blocks, hfind]
    cases hlast : before.reverse.find? (copiedOver p) with
    | none => simp
    | some t' =>
      have hcovers := List.find?_some hlast
      rw [copiedOver, Bool.and_eq_true, decide_eq_true_eq, decide_eq_true_eq] at hcovers
      have hranged := hbefore t' (List.mem_reverse.mp (List.mem_of_find?_eq_some hlast))
      simp only [Option.map_some, Option.some.injEq, forall_eq', block]
      rw [List.getElem?_take_of_lt (by omega)]
  constructor
  · intro h p hp
    rw [← hbyte]
    have hget := congrArg (fun l : Bytes => l[p - t.2]?) h
    simpa only [List.getElem?_drop, Nat.add_sub_cancel' hp] using hget
  · intro h
    refine List.ext_getElem? fun i => ?_
    rw [List.getElem?_drop, List.getElem?_drop]
    exact (hbyte _).mpr (h _ (Nat.le_add_right _ _))

/-! ### The analyses -/

/-- The tries are inside the form. -/
theorem ranged_tries (guesser : MorphoPrefixGuesser) (form : Bytes) :
    Ranged form (guesser.tries form) := by
  intro t ht
  simp only [tries, List.mem_flatMap, List.mem_map, List.mem_filter, List.mem_range,
    decide_eq_true_eq] at ht
  obtain ⟨initial, -, middle, ⟨-, htried⟩, rfl⟩ := ht
  exact ⟨htried.1, htried.2.1.le⟩

/-- The analyses are those of the visited tries. -/
theorem analyze_eq (hinitial : PrefixClosed (maskAt guesser.prefixesInitial))
    (hmiddle : PrefixClosed (maskAt guesser.prefixesMiddle))
    (hfilters : guesser.tagFilters.length ≤ 31) (lemmas : List (Bytes × Bytes)) :
    guesser.analyze dictionary form lemmas =
      some (lemmas ++ (visits form [] (guesser.tries form)).flatMap fun visit =>
          guesser.analysesOf dictionary form visit.1 visit.2,
        (visits form [] (guesser.tries form)).map Prod.fst) := by
  rw [analyze]
  by_cases hnil : form = []
  · have htries : guesser.tries form = [] := by
      rw [hnil]
      rfl
    rw [if_pos hnil, htries]
    simp [visits]
  · have hloop := @initialLoop_spec guesser dictionary form hinitial hmiddle form.length 0 []
      { lemmas } (Nat.zero_add form.length) (.inl rfl)
    rw [← tries_eq] at hloop
    obtain ⟨hpassed, hlemmas⟩ := @foldl_tryStep guesser form dictionary [] (guesser.tries form)
      { lemmas } (List.forall_mem_nil _) (ranged_tries guesser form) (if_pos rfl)
    rw [if_neg hnil, if_pos (by omega), hloop, Option.bind_eq_bind, Option.bind_some, hpassed,
      hlemmas]
    rfl

/-- The guesser looks up the stripped forms and reports their analyses if and only if no copy
of an initial part has changed what a later try shows behind its segment. -/
theorem analysesStripped_iff (hinitial : PrefixClosed (maskAt guesser.prefixesInitial))
    (hmiddle : PrefixClosed (maskAt guesser.prefixesMiddle))
    (hfilters : guesser.tagFilters.length ≤ 31) :
    guesser.AnalysesStripped dictionary form ↔ guesser.Intact form := by
  have hranged := ranged_tries guesser form
  have hintact : guesser.Intact form ↔
      (visits form [] (guesser.tries form)).map Prod.fst =
        (guesser.tries form).map (stripped form) := by
    rw [visits_eq_iff]
    refine forall_congr' fun before => forall_congr' fun t => forall_congr' fun after =>
      imp_congr_right fun heq => ?_
    rw [List.nil_append, lookedUp_eq_iff]
    intro t' ht'
    exact hranged t' (heq ▸ List.mem_append_left _ ht')
  rw [hintact]
  constructor
  · intro h
    have hlookup := h []
    rw [analyze_eq hinitial hmiddle hfilters, Option.some.injEq, Prod.mk.injEq] at hlookup
    exact hlookup.2
  · intro h lemmas
    have hvisits : visits form [] (guesser.tries form) =
        (guesser.tries form).map fun t => (stripped form t, t) := by
      rw [List.zip_of_prod h (map_snd_visits form [] _)]
      refine (List.zip_of_prod ?_ ?_).symm
      · rw [List.map_map]
        rfl
      · rw [List.map_map]
        exact List.map_id _
    rw [analyze_eq hinitial hmiddle hfilters, h, hvisits, List.flatMap_map]

/-- Initial prefixes `a` and `ab`, and the middle prefixes `bcd` and `c`. -/
def overlappingTables : PrefixTables where
  filters := [bytes "?"]
  prefixesInitial := [(bytes "a", 1), (bytes "ab", 1)]
  prefixesMiddle := [(bytes "bcd", 1), (bytes "c", 1)]

/-- The guesser with these prefixes. -/
def overlappingGuesser : MorphoPrefixGuesser where
  tagFilters := overlappingTables.filters.map TagFilter.ofString
  prefixesInitial := masksMap overlappingTables.prefixesInitial
  prefixesMiddle := masksMap overlappingTables.prefixesMiddle

/-- The tables of the example are well formed. -/
theorem overlappingTables_wellFormed : overlappingTables.WellFormed where
  initial := ⟨by decide, by decide⟩
  middle := ⟨by decide, by decide⟩

/-- A guesser whose prefixes overlap. -/
theorem analysesStripped_iff_overlappingGuesser :
    overlappingGuesser.AnalysesStripped (fun str => [(str, bytes "N")]) (bytes "abcde") ↔
      overlappingGuesser.Intact (bytes "abcde") :=
  analysesStripped_iff overlappingTables_wellFormed.initial.prefixClosed_masksMap
    overlappingTables_wellFormed.middle.prefixClosed_masksMap (by decide)

/-- The copy of `a` is still there when `ab` is put in front of `de`. -/
theorem not_analysesStripped_overlappingGuesser :
    ¬ overlappingGuesser.AnalysesStripped (fun str => [(str, bytes "N")]) (bytes "abcde") := by
  intro h
  have hanalyze := h []
  have hpassed : overlappingGuesser.analyze (fun str => [(str, bytes "N")]) (bytes "abcde") [] =
      some ([(bytes "bcdae", bytes "N"), (bytes "cabae", bytes "N")],
        [bytes "ae", bytes "abae"]) := by
    have hfilters : overlappingTables.filters.map TagFilter.ofString = [⟨[63], []⟩] := by
      change [TagFilter.ofString [63]] = [⟨[63], []⟩]
      rw [TagFilter.ofString]
      simp [TagFilter.charFilters]
    rw [analyze, overlappingGuesser, overlappingTables_wellFormed.initial.maskAt_masksMap,
      overlappingTables_wellFormed.middle.maskAt_masksMap, hfilters]
    decide
  rw [hpassed, Option.some.injEq, Prod.mk.injEq] at hanalyze
  obtain ⟨t, ht, hstripped⟩ := List.mem_map.mp
    (hanalyze.2 ▸ (by decide : bytes "abae" ∈ [bytes "ae", bytes "abae"]))
  have hrange := ranged_tries overlappingGuesser (bytes "abcde") t ht
  have hlength : (bytes "abcde").length = 5 := rfl
  have hnone : ∀ a < 5, ∀ b < 6, stripped (bytes "abcde") (a, b) ≠ bytes "abae" := by decide
  exact hnone t.1 (by omega) t.2 (by omega) hstripped

end MorphoPrefixGuesser

end UDPipe.Morphodita
