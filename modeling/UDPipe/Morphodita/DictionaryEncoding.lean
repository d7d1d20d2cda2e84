import UDPipe.Morphodita.DerivatorRoundTrip
import UDPipe.Morphodita.MorphoDictionary

/-!
# The encoded lemmas are read again

Whatever the differences of the lemmas and of the roots are based on, if they are encoded then each
pass over the data is a pass over the lemmas.
-/

namespace UDPipe.Morphodita

open Derinet (encodeIf nextIf_encodeIf nextAdded_encodeIf)
open DerivatorDictionary (nextIf nextAdded)

/-! ### Roots -/

/-- A number that was encoded is read again. -/
theorem nextIf_of_encodeIf {val operations operation : ℕ} {condition : Bool} {data : Bytes}
    (hbit : operations / operation % 2 = 1 ↔ condition = true)
    (hzero : condition = false → val = 0) (h : encodeIf condition (add1B val) = some data)
    (rest : Bytes) : nextIf operations operation (data ++ rest) = some (val, rest) := by
  have hval : val < 256 ^ 1 := by
    cases condition with
    | false => exact (hzero rfl).trans_lt (by decide)
    | true => exact (add_eq_some.mp h).1
  obtain ⟨data', hdata', hread⟩ := nextIf_encodeIf val hbit hval hzero
  rw [h, Option.some.injEq] at hdata'
  exact hdata' ▸ hread rest

/-- A string that was encoded is read again. -/
theorem nextAdded_of_encodeIf {text : Bytes} {operations operation : ℕ} {condition : Bool}
    {data : Bytes} (hbit : operations / operation % 2 = 1 ↔ condition = true)
    (hnil : condition = false → text = [])
    (h : encodeIf condition ((add1B text.length).map (· ++ text)) = some data) (rest : Bytes) :
    nextAdded operations operation (data ++ rest) = some (text, rest) := by
  have hlength : text.length < 256 ^ 1 := by
    cases condition with
    | false =>
      rw [hnil rfl]
      decide
    | true =>
      obtain ⟨size, hsize, -⟩ := Option.map_eq_some_iff.mp h
      exact (add_eq_some.mp hsize).1
  obtain ⟨data', hdata', hread⟩ := nextAdded_encodeIf text hbit hlength hnil
  rw [h, Option.some.injEq] at hdata'
  exact hdata' ▸ hread rest

namespace Dictionary

open Derinet (bestCommon commonPrefix commonAt_bestCommon operations_spec removeStart removeEnd
  addStart addEnd)
open MorphoDictionary (nextRoot nextRoots nextRecord passFrom pass)

/-- A root is read again, behind the same one. -/
theorem nextRoot_of_encodeRoot {prev : Bytes} {info : LemmaFormInfo} {data : Bytes}
    (h : encodeRoot prev info = some data) (rest : Bytes) :
    nextRoot prev (data ++ rest) = some (info, rest) := by
  obtain ⟨form, clas⟩ := info
  obtain ⟨best, hbest⟩ : ∃ best, best = bestCommon prev form := ⟨_, rfl⟩
  have hcommon := commonAt_bestCommon prev form
  rw [← hbest] at hcommon
  have hleft := hcommon.left
  have hright := hcommon.right
  obtain ⟨hlt, -, hremoveStart, hremoveEnd, haddStart, haddEnd⟩ := operations_spec
    (decide (best.lemmaFrom > 0)) (decide (best.lemmaFrom + best.len < prev.length))
    (decide (best.parentFrom > 0)) (decide (best.parentFrom + best.len < form.length))
  obtain ⟨operations, hoperations⟩ : ∃ operations, operations =
      removeStart * (decide (best.lemmaFrom > 0)).toNat +
        removeEnd * (decide (best.lemmaFrom + best.len < prev.length)).toNat +
        addStart * (decide (best.parentFrom > 0)).toNat +
        addEnd * (decide (best.parentFrom + best.len < form.length)).toNat := ⟨_, rfl⟩
  rw [← hoperations] at hlt hremoveStart hremoveEnd haddStart haddEnd
  have htake : (form.take best.parentFrom).length = best.parentFrom :=
    List.length_take_of_le (by omega)
  have hdrop : (form.drop (best.parentFrom + best.len)).length =
      form.length - best.parentFrom - best.len := by
    rw [List.length_drop]
    omega
  rw [encodeRoot] at h
  simp only [← hbest, ← hoperations, Option.bind_eq_bind, Option.bind_eq_some_iff, add1B,
    add_of_lt (show operations < 256 ^ 1 from hlt), Option.some.injEq, exists_eq_left',
    Option.pure_def, add2B, add_eq_some] at h
  obtain ⟨removedStart, hremovedStart, removedEnd, hremovedEnd, addedStart, haddedStart, addedEnd,
    haddedEnd, _, ⟨hclas, rfl⟩, rfl⟩ := h
  have hreadRemovedStart := nextIf_of_encodeIf hremoveStart (by simp) hremovedStart
  have hreadRemovedEnd := nextIf_of_encodeIf hremoveEnd
    (by rw [decide_eq_false_iff_not]; omega) hremovedEnd
  have hreadAddedStart := @nextAdded_of_encodeIf (form.take best.parentFrom) _ _ _ _ haddStart
    (by simpa using .inl) (by rw [htake]; exact haddedStart)
  rw [← hdrop] at haddedEnd
  have hreadAddedEnd := nextAdded_of_encodeIf haddEnd
    (by rw [decide_eq_false_iff_not, List.drop_eq_nil_iff]; omega) haddedEnd
  have hkept : prev.length - best.lemmaFrom - (prev.length - best.lemmaFrom - best.len) =
      best.len := by omega
  have hrange : ¬ prev.length < best.lemmaFrom + (prev.length - best.lemmaFrom - best.len) := by
    omega
  simp only [nextRoot, next1B, List.append_assoc,
    next_append (show operations < 256 ^ 1 from hlt), Option.bind_eq_bind, Option.bind_some,
    hreadRemovedStart, hreadRemovedEnd, hreadAddedStart, hreadAddedEnd, hrange, if_false, hkept,
    next2B, next_append hclas]
  rw [← List.append_assoc, hcommon.replace]
  rfl

/-- The encoded roots of a lemma are read. -/
theorem nextRoots_of_encodeRoots {prev : Bytes} {infos : List LemmaFormInfo} {data : Bytes}
    (h : encodeRoots prev infos = some data) (rest : Bytes) :
    nextRoots infos.length prev (data ++ rest) = some (infos, rest) := by
  induction infos generalizing prev data with
  | nil =>
    obtain rfl := Option.some.inj h
    rfl
  | cons info infos ih =>
    simp only [encodeRoots, Option.bind_eq_bind, Option.bind_eq_some_iff, Option.pure_def,
      Option.some.injEq] at h
    obtain ⟨root, hroot, roots, hroots, rfl⟩ := h
    simp only [List.length_cons, nextRoots, List.append_assoc, nextRoot_of_encodeRoot hroot,
      Option.bind_eq_bind, Option.bind_some, ih hroots]
    rfl

/-! ### Lemmas -/

/-- A record is read again, behind the same lemma. -/
theorem nextRecord_of_encodeLemma {prev : Bytes} {info : DictionaryLemma} {data : Bytes}
    (h : encodeLemma prev info = some data) (rest : Bytes) :
    nextRecord prev (data ++ rest) = some (info, rest) := by
  obtain ⟨lem, addinfo, forms⟩ := info
  obtain ⟨cpl, hcpl⟩ : ∃ cpl, cpl = commonPrefix prev lem := ⟨_, rfl⟩
  obtain ⟨hprevLe, hlemLe, htake⟩ := Derinet.commonPrefix_spec prev lem
  rw [← hcpl] at hprevLe hlemLe htake
  simp only [encodeLemma, ← hcpl, add1B, Option.bind_eq_bind, Option.bind_eq_some_iff, add_eq_some,
    Option.pure_def, Option.some.injEq] at h
  obtain ⟨_, ⟨hremoved, rfl⟩, _, ⟨hadded, rfl⟩, _, ⟨haddinfo, rfl⟩, _, ⟨hforms, rfl⟩, roots, hroots,
    rfl⟩ := h
  rw [← List.length_drop] at hadded
  have hle : ¬ prev.length < prev.length - cpl := by omega
  have hback : prev.take (prev.length - (prev.length - cpl)) ++ lem.drop cpl = lem := by
    rw [Nat.sub_sub_self hprevLe, htake, List.take_append_drop]
  have hchars : toBytes 1 (lem.length - cpl) = toBytes 1 (lem.drop cpl).length := by
    rw [List.length_drop]
  simp only [nextRecord, next1B, List.append_assoc, next_append hremoved, hchars,
    next_append hadded, nextBytes_append, next_append haddinfo, next_append hforms, Option.bind_eq_bind,
    Option.bind_some, hle, if_false, hback, nextRoots_of_encodeRoots hroots]
  rfl

/-- A pass over the encoded lemmas is one over the lemmas. -/
theorem passFrom_of_encodeLemmas {prev : Bytes} {lemmas : List DictionaryLemma} {data : Bytes}
    (h : encodeLemmas prev lemmas = some data)
    (step : MorphoDictionary.Maps → DictionaryLemma → MorphoDictionary.Maps) (rest : Bytes)
    (maps : MorphoDictionary.Maps) :
    passFrom step lemmas.length prev (data ++ rest) maps = some (lemmas.foldl step maps, rest) := by
  induction lemmas generalizing prev data maps with
  | nil =>
    obtain rfl := Option.some.inj h
    rfl
  | cons info lemmas ih =>
    simp only [encodeLemmas, Option.bind_eq_bind, Option.bind_eq_some_iff, Option.pure_def,
      Option.some.injEq] at h
    obtain ⟨record, hrecord, records, hrecords, rfl⟩ := h
    rw [List.length_cons, passFrom, List.append_assoc, nextRecord_of_encodeLemma hrecord,
      Option.bind_eq_bind, Option.bind_some, List.foldl_cons]
    exact ih hrecords _

/-- A pass over encoded lemmas is a pass over the lemmas. -/
theorem pass_of_encodeLemmas {lemmas : List DictionaryLemma} {count records : Bytes}
    (hlength : lemmas.length < 2 ^ 31) (hcount : add4B lemmas.length = some count)
    (hrecords : encodeLemmas [] lemmas = some records)
    (step : MorphoDictionary.Maps → DictionaryLemma → MorphoDictionary.Maps) (rest : Bytes)
    (maps : MorphoDictionary.Maps) :
    pass step (count ++ (records ++ rest)) maps = some (lemmas.foldl step maps, rest) := by
  obtain ⟨hlt, rfl⟩ := add_eq_some.mp hcount
  rw [MorphoDictionary.pass, next4B, next_append hlt, Option.bind_eq_bind, Option.bind_some]
  simp only [hlength, if_true]
  exact passFrom_of_encodeLemmas hrecords step rest maps

/-- A pass reads no lemmas if their number is not an `int`. -/
theorem pass_of_many {lemmas : List DictionaryLemma} {count : Bytes}
    (hlength : ¬ lemmas.length < 2 ^ 31) (hcount : add4B lemmas.length = some count)
    (step : MorphoDictionary.Maps → DictionaryLemma → MorphoDictionary.Maps) (rest : Bytes)
    (maps : MorphoDictionary.Maps) : pass step (count ++ rest) maps = some (maps, rest) := by
  obtain ⟨hlt, rfl⟩ := add_eq_some.mp hcount
  rw [MorphoDictionary.pass, next4B, next_append hlt, Option.bind_eq_bind, Option.bind_some]
  simp only [hlength, if_false]
  rfl

/-! ### Sizes -/

/-- The numbers in the record of a lemma that was encoded. -/
structure RecordFits (info : DictionaryLemma) : Prop where
  addinfo : info.addinfo.length < 256
  count : info.forms.length < 256
  classes : ∀ root ∈ info.forms, root.clas < 2 ^ 16

/-- The classes of encoded roots fit in two bytes. -/
theorem classes_of_encodeRoots {prev : Bytes} {infos : List LemmaFormInfo} {data : Bytes}
    (h : encodeRoots prev infos = some data) : ∀ root ∈ infos, root.clas < 2 ^ 16 := by
  induction infos generalizing prev data with
  | nil => simp
  | cons info infos ih =>
    simp only [encodeRoots, encodeRoot, add2B, Option.bind_eq_bind, Option.bind_eq_some_iff,
      Option.pure_def, Option.some.injEq, add_eq_some] at h
    obtain ⟨_, ⟨_, _, _, _, _, _, _, _, _, _, _, ⟨hclas, rfl⟩, rfl⟩, roots, hroots, rfl⟩ := h
    exact List.forall_mem_cons.mpr ⟨hclas, ih hroots⟩

/-- Encoded lemmas fit their records. -/
theorem fits_of_encodeLemmas {prev : Bytes} {lemmas : List DictionaryLemma} {data : Bytes}
    (h : encodeLemmas prev lemmas = some data) : ∀ info ∈ lemmas, RecordFits info := by
  induction lemmas generalizing prev data with
  | nil => simp
  | cons info lemmas ih =>
    simp only [encodeLemmas, encodeLemma, add1B, Option.bind_eq_bind, Option.bind_eq_some_iff,
      Option.pure_def, Option.some.injEq, add_eq_some] at h
    obtain ⟨_, ⟨_, -, _, -, _, ⟨haddinfo, -⟩, _, ⟨hcount, -⟩, _, hroots, -⟩, _, hlemmas, -⟩ := h
    exact List.forall_mem_cons.mpr
      ⟨⟨haddinfo, hcount, classes_of_encodeRoots hroots⟩, ih hlemmas⟩

/-! ### What fits is encoded -/

/-- A part that can be encoded can be left out. -/
theorem exists_encodeIf {condition : Bool} {coded : Option Bytes}
    (h : ∃ data, coded = some data) : ∃ data, encodeIf condition coded = some data := by
  cases condition with
  | false => exact ⟨[], rfl⟩
  | true => exact h

/-- The difference of a root is encoded if the roots and the class are small. -/
theorem exists_encodeRoot {prev : Bytes} {info : LemmaFormInfo} (hprev : prev.length < 256)
    (hform : info.form.length < 256) (hclas : info.clas < 2 ^ 16) :
    ∃ data, encodeRoot prev info = some data := by
  obtain ⟨best, hbest⟩ : ∃ best, best = bestCommon prev info.form := ⟨_, rfl⟩
  have hcommon := commonAt_bestCommon prev info.form
  rw [← hbest] at hcommon
  have hleft := hcommon.left
  have hright := hcommon.right
  obtain ⟨hlt, -⟩ := operations_spec
    (decide (best.lemmaFrom > 0)) (decide (best.lemmaFrom + best.len < prev.length))
    (decide (best.parentFrom > 0)) (decide (best.parentFrom + best.len < info.form.length))
  have hsmall : ∀ val < 256, ∃ data, add1B val = some data := fun val hval => ⟨_, add_of_lt hval⟩
  have hadded : ∀ val < 256, ∀ text : Bytes, ∃ data, (add1B val).map (· ++ text) = some data := by
    intro val hval text
    obtain ⟨data, hdata⟩ := hsmall val hval
    exact ⟨data ++ text, by rw [hdata, Option.map_some]⟩
  obtain ⟨removedStart, hremovedStart⟩ := @exists_encodeIf (decide (best.lemmaFrom > 0)) _
    (hsmall best.lemmaFrom (by omega))
  obtain ⟨removedEnd, hremovedEnd⟩ := @exists_encodeIf
    (decide (best.lemmaFrom + best.len < prev.length)) _
      (hsmall (prev.length - best.lemmaFrom - best.len) (by omega))
  obtain ⟨addedStart, haddedStart⟩ := @exists_encodeIf (decide (best.parentFrom > 0)) _
    (hadded best.parentFrom (by omega) (info.form.take best.parentFrom))
  obtain ⟨addedEnd, haddedEnd⟩ := @exists_encodeIf
    (decide (best.parentFrom + best.len < info.form.length)) _
      (hadded (info.form.length - best.parentFrom - best.len) (by omega)
        (info.form.drop (best.parentFrom + best.len)))
  have hoperations := @add_of_lt 1 _ hlt
  have hclass := @add_of_lt 2 _ (show info.clas < 256 ^ 2 from hclas)
  rw [← add1B] at hoperations
  rw [← add2B] at hclass
  simp only [encodeRoot, ← hbest, hoperations, hremovedStart, hremovedEnd, haddedStart, haddedEnd,
    hclass, Option.bind_eq_bind, Option.bind_some, Option.pure_def]
  exact ⟨_, rfl⟩

/-- Short roots with small classes are encoded. -/
theorem exists_encodeRoots {prev : Bytes} {infos : List LemmaFormInfo} (hprev : prev.length < 256)
    (hinfos : ∀ info ∈ infos, info.form.length < 256 ∧ info.clas < 2 ^ 16) :
    ∃ data, encodeRoots prev infos = some data := by
  induction infos generalizing prev with
  | nil => exact ⟨[], rfl⟩
  | cons info infos ih =>
    obtain ⟨⟨hform, hclas⟩, hinfos⟩ := List.forall_mem_cons.mp hinfos
    obtain ⟨root, hroot⟩ := exists_encodeRoot hprev hform hclas
    obtain ⟨roots, hroots⟩ := ih hform hinfos
    rw [encodeRoots, hroot, Option.bind_eq_bind, Option.bind_some, hroots, Option.bind_some]
    exact ⟨_, rfl⟩

/-- Lemmas are encoded if they and their roots are short and their numbers fit. -/
theorem exists_encodeLemmas {prev : Bytes} {lemmas : List DictionaryLemma}
    (hprev : prev.length < 256) (hlemmas : ∀ info ∈ lemmas, info.lem.length < 256 ∧
      RecordFits info ∧ ∀ root ∈ info.forms, root.form.length < 256) :
    ∃ data, encodeLemmas prev lemmas = some data := by
  induction lemmas generalizing prev with
  | nil => exact ⟨[], rfl⟩
  | cons info lemmas ih =>
    obtain ⟨⟨hlem, hfits, hforms⟩, hlemmas⟩ := List.forall_mem_cons.mp hlemmas
    obtain ⟨records, hrecords⟩ := ih hlem hlemmas
    obtain ⟨roots, hroots⟩ := exists_encodeRoots hlem
      fun root hroot => ⟨hforms root hroot, hfits.classes root hroot⟩
    have hremoved := @add_of_lt 1 _
      (show prev.length - commonPrefix prev info.lem < 256 ^ 1 by omega)
    have hadded := @add_of_lt 1 _
      (show info.lem.length - commonPrefix prev info.lem < 256 ^ 1 by omega)
    have haddinfo := @add_of_lt 1 _ (show info.addinfo.length < 256 ^ 1 from hfits.addinfo)
    have hcount := @add_of_lt 1 _ (show info.forms.length < 256 ^ 1 from hfits.count)
    simp only [encodeLemmas, encodeLemma, add1B, hremoved, hadded, haddinfo, hcount, hroots,
      hrecords, Option.bind_eq_bind, Option.bind_some, Option.pure_def]
    exact ⟨_, rfl⟩

/-! ### Numbers of strings -/

/-- The tables for the lengths of a histogram. -/
def tablesOf (lengths : Histogram) : PersistentUnorderedMap :=
  ⟨(List.range lengths.length).map fun len => FnvHash.new (PersistentUnorderedMap.capacity
    (fun len => (lengths.map List.length).getD len 0) len)⟩

/-- An encoded histogram is short. -/
theorem length_of_encodeHistogram {lengths : Histogram} {data : Bytes}
    (h : encodeHistogram lengths = some data) : lengths.length < 256 := by
  simp only [encodeHistogram, add1B, Option.bind_eq_bind, Option.bind_eq_some_iff,
    add_eq_some] at h
  obtain ⟨_, ⟨hlength, -⟩, -⟩ := h
  exact hlength

/-- The tables are made for the numbers that were encoded. -/
theorem resizeAll_of_encodeHistogram {lengths : Histogram} {data : Bytes}
    (h : encodeHistogram lengths = some data) (rest : Bytes) :
    ∃ sizes, next1B (data ++ rest) = some (lengths.length, sizes) ∧
      DerivatorDictionary.resizeAll lengths.length sizes ⟨[]⟩ = some (tablesOf lengths, rest) := by
  simp only [encodeHistogram, add1B, add4B, Option.bind_eq_bind, Option.bind_eq_some_iff,
    add_eq_some, mapM_add_eq_some, Option.pure_def, Option.some.injEq] at h
  obtain ⟨_, ⟨hlength, rfl⟩, _, ⟨hsizes, rfl⟩, rfl⟩ := h
  obtain ⟨sizes, hmap⟩ : ∃ sizes, sizes = lengths.map List.length := ⟨_, rfl⟩
  have hwords : (lengths.map fun strings => toBytes 4 strings.length).flatten =
      addWords 4 sizes := by
    rw [hmap, addWords, List.flatMap_map, List.flatMap_def]
  have hall : ∀ size ∈ sizes, size < 256 ^ 4 := by
    intro size hsize
    rw [hmap] at hsize
    obtain ⟨strings, hstrings, rfl⟩ := List.mem_map.mp hsize
    exact hsizes strings hstrings
  have hlen : lengths.length = sizes.length := by rw [hmap, List.length_map]
  refine ⟨addWords 4 sizes ++ rest, ?_, ?_⟩
  · rw [hwords, List.append_assoc, next1B, next_append hlength]
  · rw [hlen, DerivatorDictionary.resizeAll_addWords hall, tablesOf, ← hmap, hlen]
    exact congrArg (fun m => some (m, rest)) (PersistentUnorderedMap.foldl_resize sizes id)

end Dictionary

end UDPipe.Morphodita
