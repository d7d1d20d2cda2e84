import UDPipe.Library.CommonSubstring
import UDPipe.Morphodita.Derivator

/-!
# The encoded derivations are read again

The encoder finds a cycle of the chosen parents if there is one. Without a cycle every lemma is
read as it was written, whatever the differences are based on, and each pass over the data is a
pass over the lemmas.
-/

namespace UDPipe.Morphodita

open PersistentUnorderedMap (countSizes countSizes_spec)
open Relation

namespace Derinet

/-! ### Cycles -/

/-- Some lemma is an ancestor of its own. -/
def Cyclic (d : Derinet) : Prop := ∃ lem, TransGen (fun a b => d.parentOf a = some b) lem lem

/-- A lemma is found in the map. -/
theorem find?_lemma {d : Derinet} {e : LemmaInfo} (he : e ∈ d.lemmas) :
    d.lemmas.find? (fun f => f.lemmaId = e.lemmaId) = some e := by
  cases hfind : d.lemmas.find? fun f => f.lemmaId = e.lemmaId with
  | none =>
    have hnone := List.find?_eq_none.mp hfind e he
    simp at hnone
  | some f =>
    have hf : f.lemmaId = e.lemmaId := by simpa using List.find?_some hfind
    rw [List.inj_on_of_nodup_map d.nodup (List.mem_of_find?_eq_some hfind) he hf]

/-- The parent of a lemma is the one of its entry. -/
theorem parentOf_eq_some {d : Derinet} {lem parent : Bytes} :
    d.parentOf lem = some parent ↔
      ∃ e ∈ d.lemmas, e.lemmaId = lem ∧ e.parent ≠ [] ∧ e.parent = parent := by
  simp only [parentOf, Option.bind_eq_some_iff, Option.ite_none_left_eq_some, Option.some.injEq]
  constructor
  · rintro ⟨e, he, hne, rfl⟩
    exact ⟨e, List.mem_of_find?_eq_some he, by simpa using List.find?_some he, hne, rfl⟩
  · rintro ⟨e, he, rfl, hne, rfl⟩
    exact ⟨e, find?_lemma he, hne, rfl⟩

/-- The search for cycles is right. -/
theorem exists_containsCycle (d : Derinet) :
    ∃ found, d.containsCycle = some found ∧ (found = true ↔ d.Cyclic) := by
  apply MarkedWalks.search_iff
  · intro a b hnext
    obtain ⟨e, he, -, hne, rfl⟩ := parentOf_eq_some.mp hnext
    exact d.parents e he hne
  · rw [List.length_map]
    exact Nat.lt_succ_self _

/-- Without a cycle no lemma is its own parent. -/
theorem parent_ne_of_not_cyclic {d : Derinet} (h : ¬ d.Cyclic) {e : LemmaInfo}
    (he : e ∈ d.lemmas) : e.lemmaId ≠ e.parent := by
  intro heq
  refine h ⟨e.lemmaId, .single (parentOf_eq_some.mpr ⟨e, he, rfl, ?_, heq.symm⟩)⟩
  rw [← heq]
  exact d.nonempty e he

/-! ### Common bytes -/

/-- A match is in both strings, and is the same there. -/
theorem matchLength_spec (lem parent : Bytes) :
    matchLength lem parent ≤ lem.length ∧ matchLength lem parent ≤ parent.length ∧
      lem.take (matchLength lem parent) = parent.take (matchLength lem parent) := by
  induction lem generalizing parent with
  | nil => exact ⟨le_rfl, Nat.zero_le _, rfl⟩
  | cons c lem ih =>
    cases parent with
    | nil => exact ⟨Nat.zero_le _, le_rfl, rfl⟩
    | cons d parent =>
      rw [matchLength]
      split_ifs with heq
      · obtain ⟨hlem, hparent, htake⟩ := ih parent
        refine ⟨Nat.succ_le_succ hlem, Nat.succ_le_succ hparent, ?_⟩
        rw [List.take_succ_cons, List.take_succ_cons, htake, heq]
      · exact ⟨Nat.zero_le _, Nat.zero_le _, rfl⟩

/-- From their positions on the strings have the match in common. -/
theorem commonAt_matchLength {lem parent : Bytes} {i j : ℕ} (hi : i < lem.length)
    (hj : j < parent.length) :
    CommonAt lem parent i j (matchLength (lem.drop i) (parent.drop j)) := by
  obtain ⟨hlem, hparent, htake⟩ := matchLength_spec (lem.drop i) (parent.drop j)
  rw [List.length_drop] at hlem hparent
  exact ⟨by omega, by omega, htake⟩

/-- What the loops find is common to the lemma and the parent. -/
theorem commonAt_bestCommon (lem parent : Bytes) :
    CommonAt lem parent (bestCommon lem parent).lemmaFrom (bestCommon lem parent).parentFrom
      (bestCommon lem parent).len := by
  let Common (best : BestCommon) := CommonAt lem parent best.lemmaFrom best.parentFrom best.len
  refine List.foldlRecOn (motive := Common) _ _
    (CommonAt.zero (Nat.zero_le _) (Nat.zero_le _)) ?_
  intro best hbest i hi
  refine List.foldlRecOn (motive := Common) _ _ hbest ?_
  intro best hbest j hj
  dsimp only
  split_ifs
  · exact commonAt_matchLength (List.mem_range.mp hi) (List.mem_range.mp hj)
  · exact hbest

/-- The common prefix begins both strings. -/
theorem commonPrefix_spec (prev lem : Bytes) :
    commonPrefix prev lem ≤ prev.length ∧ commonPrefix prev lem ≤ lem.length ∧
      prev.take (commonPrefix prev lem) = lem.take (commonPrefix prev lem) := by
  induction prev generalizing lem with
  | nil => exact ⟨le_rfl, Nat.zero_le _, rfl⟩
  | cons c prev ih =>
    cases lem with
    | nil => exact ⟨Nat.zero_le _, le_rfl, rfl⟩
    | cons d lem =>
      rw [commonPrefix]
      split_ifs with heq
      · obtain ⟨hprev, hlem, htake⟩ := ih lem
        refine ⟨Nat.succ_le_succ hprev, Nat.succ_le_succ hlem, ?_⟩
        rw [List.take_succ_cons, List.take_succ_cons, htake, heq.2]
      · exact ⟨Nat.zero_le _, Nat.zero_le _, rfl⟩

/-- A text without zeros is a C string. -/
theorem cString_eq {text : Bytes} (h : 0 ∉ text) : cString text = text := by
  rw [cString, List.takeWhile_eq_self_iff]
  intro c hc
  exact decide_eq_true fun hzero => h (hzero ▸ hc)

/-! ### Parents -/

open DerivatorDictionary

/-- The operations are told apart. -/
theorem operations_spec (a b c d : Bool) :
    let operations := removeStart * a.toNat + removeEnd * b.toNat + addStart * c.toNat +
      addEnd * d.toNat
    operations < 256 ∧ (operations = 0 ↔ a = false ∧ b = false ∧ c = false ∧ d = false) ∧
      (operations / removeStart % 2 = 1 ↔ a = true) ∧
      (operations / removeEnd % 2 = 1 ↔ b = true) ∧
      (operations / addStart % 2 = 1 ↔ c = true) ∧ (operations / addEnd % 2 = 1 ↔ d = true) := by
  cases a <;> cases b <;> cases c <;> cases d <;> decide

/-- A number that is zero without the operation is read again. -/
theorem nextIf_encodeIf (val : ℕ) {operations operation : ℕ} {condition : Bool}
    (hbit : operations / operation % 2 = 1 ↔ condition = true) (hval : val < 256 ^ 1)
    (hzero : condition = false → val = 0) :
    ∃ data, encodeIf condition (add1B val) = some data ∧
      ∀ rest, nextIf operations operation (data ++ rest) = some (val, rest) := by
  cases condition with
  | false =>
    refine ⟨[], rfl, fun rest => ?_⟩
    rw [nextIf, if_neg (fun h => Bool.false_ne_true (hbit.mp h)), hzero rfl]
    rfl
  | true =>
    refine ⟨toBytes 1 val, add_of_lt hval, fun rest => ?_⟩
    rw [nextIf, if_pos (hbit.mpr rfl)]
    exact next_append hval rest

/-- A string that is empty without the operation is read again. -/
theorem nextAdded_encodeIf (text : Bytes) {operations operation : ℕ} {condition : Bool}
    (hbit : operations / operation % 2 = 1 ↔ condition = true) (hlength : text.length < 256 ^ 1)
    (hnil : condition = false → text = []) :
    ∃ data, encodeIf condition ((add1B text.length).map (· ++ text)) = some data ∧
      ∀ rest, nextAdded operations operation (data ++ rest) = some (text, rest) := by
  cases condition with
  | false =>
    refine ⟨[], rfl, fun rest => ?_⟩
    rw [nextAdded, if_neg (fun h => Bool.false_ne_true (hbit.mp h)), hnil rfl]
    rfl
  | true =>
    refine ⟨toBytes 1 text.length ++ text, ?_, fun rest => ?_⟩
    · rw [encodeIf, if_pos rfl, add1B, add_of_lt hlength, Option.map_some]
    · rw [nextAdded, if_pos (hbit.mpr rfl), next1B, List.append_assoc, next_append hlength]
      exact nextBytes_append text rest

/-- A parent is read again. -/
theorem exists_encodeParent {lem parent : Bytes} (hlem : lem.length ≤ 254)
    (hparent : parent.length ≤ 254) (hne : lem ≠ parent) (hzero : 0 ∉ parent) :
    ∃ data, encodeParent lem parent = some data ∧
      ∀ rest, nextParent lem (data ++ rest) = some (parent, rest) := by
  by_cases hempty : parent = []
  · refine ⟨toBytes 1 0, ?_, fun rest => ?_⟩
    · rw [encodeParent, if_pos hempty]
      exact add_of_lt (by decide)
    · rw [nextParent, next1B, next_append (by decide), hempty]
      rfl
  obtain ⟨best, hbest⟩ : ∃ best, best = bestCommon lem parent := ⟨_, rfl⟩
  have hcommon := commonAt_bestCommon lem parent
  rw [← hbest] at hcommon
  have hleft := hcommon.left
  have hright := hcommon.right
  obtain ⟨hlt, hnone, hremoveStart, hremoveEnd, haddStart, haddEnd⟩ := operations_spec
    (decide (best.lemmaFrom > 0)) (decide (best.lemmaFrom + best.len < lem.length))
    (decide (best.parentFrom > 0)) (decide (best.parentFrom + best.len < parent.length))
  obtain ⟨operations, hoperations⟩ : ∃ operations, operations =
      removeStart * (decide (best.lemmaFrom > 0)).toNat +
        removeEnd * (decide (best.lemmaFrom + best.len < lem.length)).toNat +
        addStart * (decide (best.parentFrom > 0)).toNat +
        addEnd * (decide (best.parentFrom + best.len < parent.length)).toNat := ⟨_, rfl⟩
  rw [← hoperations] at hlt hnone hremoveStart hremoveEnd haddStart haddEnd
  have hlt : operations < 256 ^ 1 := hlt
  have hsome : operations ≠ 0 := by
    -- without an operation the lemma would be its own parent
    intro hall
    obtain ⟨hlemma, hlemmaEnd, hparentStart, hparentEnd⟩ := hnone.mp hall
    rw [decide_eq_false_iff_not] at hlemma hlemmaEnd hparentStart hparentEnd
    exact hne (hcommon.eq_of_whole (by omega) (by omega) (by omega) (by omega))
  have htake : (parent.take best.parentFrom).length = best.parentFrom :=
    List.length_take_of_le (by omega)
  have hdrop : (parent.drop (best.parentFrom + best.len)).length =
      parent.length - best.parentFrom - best.len := by
    rw [List.length_drop]
    omega
  have hcString : cString (parent.drop (best.parentFrom + best.len)) =
      parent.drop (best.parentFrom + best.len) :=
    cString_eq fun hmem => hzero (List.mem_of_mem_drop hmem)
  obtain ⟨removedStart, hremovedStart, hreadRemovedStart⟩ :=
    nextIf_encodeIf best.lemmaFrom hremoveStart (by omega) (by simp)
  obtain ⟨removedEnd, hremovedEnd, hreadRemovedEnd⟩ := nextIf_encodeIf
    (lem.length - best.lemmaFrom - best.len) hremoveEnd (by omega)
    (by rw [decide_eq_false_iff_not]; omega)
  obtain ⟨addedStart, haddedStart, hreadAddedStart⟩ :=
    nextAdded_encodeIf (parent.take best.parentFrom) haddStart (by omega) (by simpa using .inl)
  obtain ⟨addedEnd, haddedEnd, hreadAddedEnd⟩ := nextAdded_encodeIf
    (parent.drop (best.parentFrom + best.len)) haddEnd (by omega)
    (by rw [decide_eq_false_iff_not, List.drop_eq_nil_iff]; omega)
  rw [htake] at haddedStart
  rw [hdrop] at haddedEnd
  refine ⟨toBytes 1 operations ++ removedStart ++ removedEnd ++ addedStart ++ addedEnd, ?_, ?_⟩
  · rw [encodeParent, if_neg hempty]
    simp only [← hbest, ← hoperations, hcString, hremovedStart, hremovedEnd, haddedStart, haddedEnd]
    rw [add1B, add_of_lt hlt]
    rfl
  · intro rest
    have hkept : lem.length - best.lemmaFrom - (lem.length - best.lemmaFrom - best.len) =
        best.len := by omega
    have hrange : ¬ lem.length < best.lemmaFrom + (lem.length - best.lemmaFrom - best.len) := by
      omega
    simp only [nextParent, next1B, List.append_assoc, next_append hlt, Option.bind_eq_bind,
      Option.bind_some, hsome, if_false, hreadRemovedStart, hreadRemovedEnd, hreadAddedStart,
      hreadAddedEnd, hrange, hkept]
    rw [← List.append_assoc, hcommon.replace]
    rfl

/-! ### Records -/

/-- The sizes that the encoder writes and the loader reads again. -/
structure Sized (d : Derinet) : Prop where
  lemmas : ∀ e ∈ d.lemmas, e.lemmaId.length ≤ 254
  comments : ∀ e ∈ d.lemmas, e.comment.length ≤ 255
  children : ∀ e ∈ d.lemmas, d.children e.lemmaId < 2 ^ 16
  count : d.lemmas.length < 2 ^ 31

/-- What is read for a lemma. -/
def recordOf (d : Derinet) (e : LemmaInfo) : DerivatorRecord :=
  ⟨e.lemmaId, e.comment, d.children e.lemmaId, e.parent⟩

/-- What holds of every lemma and of no parent holds of every parent. -/
theorem forall_parent {d : Derinet} {P : Bytes → Prop} (hnil : P [])
    (h : ∀ e ∈ d.lemmas, P e.lemmaId) : ∀ e ∈ d.lemmas, P e.parent := by
  intro e he
  by_cases hempty : e.parent = []
  · rwa [hempty]
  · obtain ⟨p, hp, hparent⟩ := List.mem_map.mp (d.parents e he hempty)
    rw [← hparent]
    exact h p hp

/-- A record is read again, behind the same lemma. -/
theorem exists_encodeRecord {d : Derinet} (hsized : d.Sized) (hacyclic : ¬ d.Cyclic)
    {e : LemmaInfo} (he : e ∈ d.lemmas) {prev : Bytes} (hprev : prev.length ≤ 254) :
    ∃ data, d.encodeRecord prev e = some data ∧
      ∀ rest, nextRecord prev (data ++ rest) = some (d.recordOf e, rest) := by
  obtain ⟨cpl, hcpl⟩ : ∃ cpl, cpl = commonPrefix prev e.lemmaId := ⟨_, rfl⟩
  obtain ⟨hprevLe, hlemLe, htake⟩ := commonPrefix_spec prev e.lemmaId
  rw [← hcpl] at hprevLe hlemLe htake
  have hlem := hsized.lemmas e he
  have hcomment : e.comment.length < 256 ^ 1 := Nat.lt_succ_of_le (hsized.comments e he)
  have hchildren : d.children e.lemmaId < 256 ^ 2 := hsized.children e he
  have hremoved : prev.length - cpl < 256 ^ 1 := by omega
  have hadded : (e.lemmaId.drop cpl).length < 256 ^ 1 := by
    rw [List.length_drop]
    omega
  have hchars : cString (e.lemmaId.drop cpl) = e.lemmaId.drop cpl :=
    cString_eq fun hmem => d.zero_free e he (List.mem_of_mem_drop hmem)
  have hparentLength := @forall_parent d (·.length ≤ 254) (Nat.zero_le _) hsized.lemmas e he
  have hparentZero := @forall_parent d (0 ∉ ·) List.not_mem_nil d.zero_free e he
  obtain ⟨parent, hencode, hnext⟩ := exists_encodeParent hlem hparentLength
    (parent_ne_of_not_cyclic hacyclic he) hparentZero
  refine ⟨toBytes 1 (prev.length - cpl) ++ toBytes 1 (e.lemmaId.drop cpl).length ++
    e.lemmaId.drop cpl ++ toBytes 1 e.comment.length ++ e.comment ++
    toBytes 2 (d.children e.lemmaId) ++ parent, ?_, fun rest => ?_⟩
  · rw [List.length_drop] at hadded
    rw [encodeRecord, ← hcpl, hchars, List.length_drop]
    simp only [add1B, add2B, add_of_lt hremoved, add_of_lt hadded, add_of_lt hcomment,
      add_of_lt hchildren, hencode]
    rfl
  · have hle : ¬ prev.length < prev.length - cpl := by omega
    have hback : prev.take (prev.length - (prev.length - cpl)) ++ e.lemmaId.drop cpl =
        e.lemmaId := by
      rw [Nat.sub_sub_self hprevLe, htake, List.take_append_drop]
    simp only [nextRecord, next1B, next2B, List.append_assoc, next_append hremoved,
      next_append hadded, nextBytes_append, next_append hcomment, next_append hchildren,
      Option.bind_eq_bind, Option.bind_some, hle, if_false, hback, hnext]
    rfl

/-- A pass over encoded records is a pass over the lemmas. -/
theorem exists_encodeRecords {d : Derinet} (hsized : d.Sized) (hacyclic : ¬ d.Cyclic)
    {lemmas : List LemmaInfo} (hmem : ∀ e ∈ lemmas, e ∈ d.lemmas) {prev : Bytes}
    (hprev : prev.length ≤ 254) :
    ∃ data, d.encodeRecords prev lemmas = some data ∧ ∀ step rest derinet,
      passFrom step lemmas.length prev (data ++ rest) derinet =
        (lemmas.map d.recordOf).foldlM step derinet := by
  induction lemmas generalizing prev with
  | nil => exact ⟨[], rfl, fun step rest derinet => rfl⟩
  | cons e lemmas ih =>
    obtain ⟨he, hmem⟩ := List.forall_mem_cons.mp hmem
    obtain ⟨record, hrecord, hnext⟩ := exists_encodeRecord hsized hacyclic he hprev
    obtain ⟨records, hrecords, hpass⟩ := ih hmem (hsized.lemmas e he)
    refine ⟨record ++ records, ?_, fun step rest derinet => ?_⟩
    · rw [encodeRecords, hrecord, Option.bind_eq_bind, Option.bind_some, hrecords]
      rfl
    · rw [List.length_cons, passFrom, List.append_assoc, hnext, List.map_cons, List.foldlM_cons]
      apply congrArg (Option.bind (step derinet (d.recordOf e)))
      funext derinet
      exact hpass step rest derinet

/-- The lemmas of a length are at most all lemmas. -/
theorem le_of_mem_countSizes {d : Derinet} {size : ℕ}
    (h : size ∈ countSizes (d.lemmas.map LemmaInfo.lemmaId)) : size ≤ d.lemmas.length := by
  obtain ⟨len, hlen, rfl⟩ := List.getElem_of_mem h
  rw [← List.getD_eq_getElem _ 0 hlen, (countSizes_spec _).1,
    ← List.length_map (f := LemmaInfo.lemmaId)]
  exact List.countP_le_length

/-- The lengths of the lemmas fit in a byte. -/
theorem length_countSizes_lt {d : Derinet} (hsized : d.Sized) :
    (countSizes (d.lemmas.map LemmaInfo.lemmaId)).length < 256 := by
  obtain ⟨-, -, hlast⟩ := countSizes_spec (d.lemmas.map LemmaInfo.lemmaId)
  cases hlength : (countSizes (d.lemmas.map LemmaInfo.lemmaId)).length with
  | zero => exact Nat.succ_pos 255
  | succ len =>
    obtain ⟨key, hkey, hlen⟩ := hlast len hlength
    obtain ⟨e, he, rfl⟩ := List.mem_map.mp hkey
    have hle := hsized.lemmas e he
    omega

/-- The data that are encoded begin with the numbers of lemmas of each length, and each pass over
what is behind these is a pass over the lemmas. -/
theorem exists_encode {d : Derinet} (hsized : d.Sized) (hacyclic : ¬ d.Cyclic) :
    ∃ records, d.encode = some (toBytes 1 (countSizes (d.lemmas.map LemmaInfo.lemmaId)).length ++
        (addWords 4 (countSizes (d.lemmas.map LemmaInfo.lemmaId)) ++ records)) ∧
      ∀ step derinet, pass step records derinet =
        (d.lemmas.map d.recordOf).foldlM step derinet := by
  obtain ⟨found, hfound, hiff⟩ := d.exists_containsCycle
  have hnot : found = false := by
    rw [← Bool.not_eq_true, hiff]
    exact hacyclic
  obtain ⟨records, hrecords, hpass⟩ := @exists_encodeRecords d hsized hacyclic d.lemmas
    (fun e he => he) [] (Nat.zero_le 254)
  obtain ⟨sizes, hsizes⟩ : ∃ sizes, sizes = countSizes (d.lemmas.map LemmaInfo.lemmaId) := ⟨_, rfl⟩
  have hlength : sizes.length < 256 ^ 1 := hsizes ▸ length_countSizes_lt hsized
  have hcount : d.lemmas.length < 256 ^ 4 := hsized.count.trans (by decide)
  have hcounts : sizes.mapM (add 4) = some (sizes.map (toBytes 4)) := by
    refine (@mapM_add_eq_some ℕ 4 id sizes _).mpr ⟨fun size hsize => ?_, rfl⟩
    rw [hsizes] at hsize
    exact (le_of_mem_countSizes hsize).trans_lt hcount
  refine ⟨toBytes 4 d.lemmas.length ++ records, ?_, fun step derinet => ?_⟩
  · rw [encode, hfound, hnot]
    simp only [← hsizes, add1B, add4B, add_of_lt hlength, hcounts, add_of_lt hcount, hrecords]
    simp [addWords, List.flatMap_def]
  · rw [DerivatorDictionary.pass, next4B, next_append hcount, Option.bind_eq_bind, Option.bind_some]
    simp only [hsized.count, if_true]
    have hpass := hpass step [] derinet
    rwa [List.append_nil] at hpass

/-- With a cycle nothing is encoded. -/
theorem encode_eq_none {d : Derinet} (h : d.Cyclic) : d.encode = none := by
  obtain ⟨found, hfound, hiff⟩ := d.exists_containsCycle
  rw [encode, hfound, hiff.mpr h]
  rfl

end Derinet

end UDPipe.Morphodita
