import UDPipe.Morphodita.FeatureOptimizer
import Mathlib.Data.List.Forall2
import Mathlib.Data.List.Nodup

/-!
# New numbers of elementary features

The new numbers keep the unknown and the empty number, differ for different numbers, and
every number that occurs in a key with a weight keeps one.
-/

namespace UDPipe.Morphodita.FeatureOptimizer

/-- New numbers for numbers with these counts. -/
structure Renumbering (count ids : List ℕ) : Prop where
  length : ids.length = max count.length 2
  unknown : ids.getD elementaryFeatureUnknown 0 = elementaryFeatureUnknown
  empty : ids.getD elementaryFeatureEmpty 0 = elementaryFeatureEmpty
  kept : ∀ id, 2 ≤ id → count.getD id 0 ≠ 0 → ids.getD id 0 ≠ 0
  injective : ∀ id id', ids.getD id 0 ≠ 0 → ids.getD id 0 = ids.getD id' 0 → id = id'
  lt : ∀ id, ids.getD id 0 < ids.length

/-! ### Sorting -/

/-- Setting the elements at different places. -/
theorem foldl_set {places : List (ℕ × ℕ)} (hplaces : (places.map Prod.fst).Nodup) (ids : List ℕ) :
    (places.foldl (fun ids p => ids.set p.1 p.2) ids).length = ids.length ∧
      (∀ p ∈ places, p.1 < ids.length →
        (places.foldl (fun ids p => ids.set p.1 p.2) ids).getD p.1 0 = p.2) ∧
      ∀ k ∉ places.map Prod.fst,
        (places.foldl (fun ids p => ids.set p.1 p.2) ids).getD k 0 = ids.getD k 0 := by
  induction places generalizing ids with
  | nil => simp
  | cons p places ih =>
    rw [List.map_cons, List.nodup_cons] at hplaces
    obtain ⟨hlength, hmem, hother⟩ := ih hplaces.2 (ids.set p.1 p.2)
    rw [List.length_set] at hlength hmem
    refine ⟨hlength, fun q hq hlt => ?_, fun k hk => ?_⟩
    · rcases List.mem_cons.mp hq with rfl | hq
      · rw [List.foldl_cons, hother _ hplaces.1, List.getD_eq_getElem?_getD,
          List.getElem?_set_self hlt, Option.getD_some]
      · exact hmem q hq hlt
    · rw [List.map_cons, List.mem_cons, not_or] at hk
      rw [List.foldl_cons, hother k hk.2, List.getD_eq_getElem?_getD, List.getD_eq_getElem?_getD,
        List.getElem?_set_ne (Ne.symm hk.1)]

/-- The counts with their numbers, before sorting. -/
def countInfos (count : List ℕ) : List CountInfo :=
  let count := count ++ List.replicate (elementaryFeatureEmpty + 1 - count.length) 0
  let count := (count.set elementaryFeatureUnknown 0).set elementaryFeatureEmpty 1
  count.zipIdx.map fun (count, ori) => ⟨ori, count⟩

/-- The counts get places for the unknown and the empty number. -/
theorem exists_padded (count : List ℕ) : ∃ padded : List ℕ,
    padded = count ++ List.replicate (elementaryFeatureEmpty + 1 - count.length) 0 ∧
      padded.length = max count.length 2 ∧ ∀ id < count.length, padded[id]? = count[id]? := by
  refine ⟨_, rfl, ?_, fun id hid => List.getElem?_append_left hid⟩
  have hempty : elementaryFeatureEmpty + 1 = 2 := rfl
  rw [List.length_append, List.length_replicate, hempty]
  omega

/-- At least two numbers are counted. -/
theorem length_countInfos (count : List ℕ) : (countInfos count).length = max count.length 2 := by
  obtain ⟨padded, hpadded, hlength, -⟩ := exists_padded count
  rw [countInfos, ← hpadded]
  simpa using hlength

/-- The count of a number, with the first two in front. -/
theorem getElem?_countInfos (count : List ℕ) {id : ℕ} (hid : id < max count.length 2) :
    (countInfos count)[id]? =
      some ⟨id, if id = 0 then 0 else if id = 1 then 1 else count.getD id 0⟩ := by
  obtain ⟨padded, hpadded, hlength, hget⟩ := exists_padded count
  rw [← hlength] at hid
  rw [countInfos, ← hpadded]
  simp only [List.getElem?_map, List.getElem?_zipIdx, List.getElem?_set, Nat.zero_add]
  rcases id with _ | _ | id
  · simp [hid]
  · simp only [Nat.zero_add] at hid
    simp [hid]
  · have hin : id + 2 < count.length := by omega
    have hget' := hget (id + 2) hin
    simp [hget', hin]

/-- All numbers are listed once. -/
theorem map_ori_countInfos (count : List ℕ) :
    (countInfos count).map CountInfo.ori = List.range (max count.length 2) := by
  apply List.ext_getElem?
  intro id
  by_cases hid : id < max count.length 2
  · rw [List.getElem?_map, getElem?_countInfos count hid, List.getElem?_range hid]
    rfl
  · rw [List.getElem?_eq_none, List.getElem?_eq_none]
    · rw [List.length_range]
      omega
    · rw [List.length_map, length_countInfos]
      omega

/-- The sorted counts have the same elements, with the unknown and the empty number first. -/
theorem sortCounts_spec {sort : List CountInfo → List CountInfo} (hsort : ∀ l, (sort l).Perm l)
    (count : List ℕ) :
    (sortCounts sort count).Perm (countInfos count) ∧
      (sortCounts sort count)[0]? = some ⟨0, 0⟩ ∧ (sortCounts sort count)[1]? = some ⟨1, 1⟩ := by
  have hunfold : sortCounts sort count =
      (countInfos count).take 2 ++ sort ((countInfos count).drop 2) := rfl
  have hlength : 2 ≤ (countInfos count).length := by
    rw [length_countInfos]
    omega
  have htake : ∀ k < 2, (sortCounts sort count)[k]? = (countInfos count)[k]? := by
    intro k hk
    rw [hunfold, List.getElem?_append_left (by rw [List.length_take]; omega),
      List.getElem?_take_of_lt hk]
  refine ⟨?_, ?_, ?_⟩
  · rw [hunfold]
    have hparts := (hsort ((countInfos count).drop 2)).append_left ((countInfos count).take 2)
    rwa [List.take_append_drop] at hparts
  · rw [htake 0 (by decide), getElem?_countInfos count (by omega)]
    rfl
  · rw [htake 1 (by decide), getElem?_countInfos count (by omega)]
    rfl

/-- The number of an element is its place, unless its count is zero. -/
theorem idsMap_spec {infos : List CountInfo} (hori : (infos.map CountInfo.ori).Nodup)
    (hlt : ∀ info ∈ infos, info.ori < infos.length) :
    (idsMap infos).length = infos.length ∧ ∀ j info, infos[j]? = some info →
      (idsMap infos).getD info.ori 0 =
        if info.count ≠ 0 then j else elementaryFeatureUnknown := by
  obtain ⟨places, hplaces⟩ : ∃ places : List (ℕ × ℕ), places = infos.zipIdx.map fun p =>
      (p.1.ori, if p.1.count ≠ 0 then p.2 else elementaryFeatureUnknown) := ⟨_, rfl⟩
  have hfold : idsMap infos =
      places.foldl (fun ids p => ids.set p.1 p.2) (List.replicate infos.length 0) := by
    rw [hplaces, List.foldl_map]
    rfl
  have hnodup : (places.map Prod.fst).Nodup := by
    have hmap : places.map Prod.fst = infos.map CountInfo.ori := by
      rw [hplaces, List.map_map, ← List.zipIdx_map_fst 0 infos, List.map_map,
        List.zipIdx_map_fst]
      rfl
    rw [hmap]
    exact hori
  obtain ⟨hlength, hmem, -⟩ := foldl_set hnodup (List.replicate infos.length 0)
  rw [hfold]
  refine ⟨by rw [hlength, List.length_replicate], fun j info hj => ?_⟩
  refine hmem (info.ori, _) ?_ ?_
  · rw [hplaces]
    refine List.mem_map.mpr ⟨(info, j), ?_, rfl⟩
    exact List.mem_zipIdx_iff_getElem?.mpr hj
  · rw [List.length_replicate]
    exact hlt info (List.mem_of_getElem? hj)

/-- The sorted counts give new numbers. -/
theorem renumbering {sort : List CountInfo → List CountInfo} (hsort : ∀ l, (sort l).Perm l)
    (count : List ℕ) : Renumbering count (idsMap (sortCounts sort count)) := by
  obtain ⟨hperm, hfirst, hsecond⟩ := sortCounts_spec hsort count
  obtain ⟨infos, hinfos⟩ : ∃ infos, infos = sortCounts sort count := ⟨_, rfl⟩
  rw [← hinfos] at hperm hfirst hsecond ⊢
  have hori := hperm.map CountInfo.ori
  rw [map_ori_countInfos] at hori
  have hlength : infos.length = max count.length 2 := by
    rw [hperm.length_eq, length_countInfos]
  have hlt : ∀ info ∈ infos, info.ori < infos.length := by
    intro info hinfo
    rw [hlength]
    exact List.mem_range.mp (hori.subset (List.mem_map_of_mem hinfo))
  obtain ⟨hids, hplace⟩ := idsMap_spec (hori.nodup_iff.mpr List.nodup_range) hlt
  have hnumber : ∀ id < max count.length 2, ∃ (j : ℕ) (info : CountInfo),
      infos[j]? = some info ∧ info.ori = id ∧
        info = ⟨id, if id = 0 then 0 else if id = 1 then 1 else count.getD id 0⟩ := by
    intro id hid
    have hmem := hperm.symm.subset (List.mem_of_getElem? (getElem?_countInfos count hid))
    obtain ⟨j, hj⟩ := List.mem_iff_getElem?.mp hmem
    exact ⟨j, _, hj, rfl, rfl⟩
  have hout : ∀ id, ¬ id < max count.length 2 → (idsMap infos).getD id 0 = 0 := by
    intro id hid
    rw [List.getD_eq_default _ _ (by omega)]
  refine ⟨by rw [hids, hlength], ?_, ?_, fun id hid hcount => ?_, fun id id' hne heq => ?_,
    fun id => ?_⟩
  · exact (hplace 0 _ hfirst).trans (if_neg (by decide))
  · exact (hplace 1 _ hsecond).trans (if_pos (by decide))
  · have hin : id < max count.length 2 := by
      by_contra hge
      apply hcount
      rw [List.getD_eq_default _ _ (by omega)]
    obtain ⟨j, info, hj, rfl, hinfo⟩ := hnumber id hin
    have hcountj : info.count = count.getD info.ori 0 := by
      rw [hinfo]
      simp only
      rw [if_neg (by omega), if_neg (by omega)]
    rw [hplace j info hj, if_pos (hcountj ▸ hcount)]
    -- only the first place has the unknown number
    intro hj0
    rw [hj0, hfirst] at hj
    obtain rfl := Option.some.inj hj
    simp at hid
  · have hin : id < max count.length 2 := by
      by_contra hge
      exact hne (hout id hge)
    have hin' : id' < max count.length 2 := by
      by_contra hge
      rw [hout id' hge] at heq
      exact hne heq
    obtain ⟨j, info, hj, rfl, -⟩ := hnumber id hin
    obtain ⟨j', info', hj', rfl, -⟩ := hnumber id' hin'
    rw [hplace j info hj] at hne heq
    rw [hplace j' info' hj'] at heq
    have hcount : info.count ≠ 0 := by
      intro hzero
      simp [hzero] at hne
    have hcount' : info'.count ≠ 0 := by
      intro hzero
      rw [hzero] at heq
      simp [hcount] at heq
      simp [heq] at hne
    rw [if_pos hcount, if_pos hcount'] at heq
    subst heq
    rw [hj] at hj'
    rw [Option.some.inj hj']
  · by_cases hin : id < max count.length 2
    · obtain ⟨j, info, hj, rfl, -⟩ := hnumber id hin
      obtain ⟨hjlt, -⟩ := List.getElem?_eq_some_iff.mp hj
      have hpos : 0 < (idsMap infos).length := by omega
      rw [hplace j info hj]
      split
      · omega
      · exact hpos
    · rw [hout id hin, hids]
      omega

/-! ### Counting -/

/-- Count a number of one map. -/
def bump (count : List ℕ) (id : ℕ) : List ℕ :=
  (count ++ List.replicate (id + 1 - count.length) 0).modify id (· + 1)

/-- Counting makes room for the number. -/
theorem length_bump (count : List ℕ) (id : ℕ) :
    (bump count id).length = max count.length (id + 1) := by
  simp [bump]
  omega

/-- Counting makes no count smaller. -/
theorem getD_le_bump (count : List ℕ) (id k : ℕ) : count.getD k 0 ≤ (bump count id).getD k 0 := by
  rw [bump, List.getD_eq_getElem?_getD, List.getD_eq_getElem?_getD, List.getElem?_modify,
    List.getElem?_append]
  by_cases hk : k < count.length
  · rw [if_pos hk, List.getElem?_eq_getElem hk]
    simp only [Option.map_eq_map, Option.map_some, Option.getD_some]
    split <;> omega
  · rw [List.getElem?_eq_none (Nat.not_lt.mp hk)]
    exact Nat.zero_le _

/-- The counted number is counted. -/
theorem getD_bump_self (count : List ℕ) (id : ℕ) : (bump count id).getD id 0 ≠ 0 := by
  have hin : id < (count ++ List.replicate (id + 1 - count.length) 0).length := by
    simp
    omega
  rw [bump, List.getD_eq_getElem?_getD, List.getElem?_modify, List.getElem?_eq_getElem hin]
  simp

/-- Counting numbers below a bound counts each of them, and none above. -/
theorem foldl_bump (ids : List ℕ) (count : List ℕ) {bound : ℕ} (hcount : count.length ≤ bound)
    (hids : ∀ id ∈ ids, id < bound) :
    (ids.foldl bump count).length ≤ bound ∧
      (∀ k, count.getD k 0 ≤ (ids.foldl bump count).getD k 0) ∧
      ∀ id ∈ ids, (ids.foldl bump count).getD id 0 ≠ 0 := by
  induction ids generalizing count with
  | nil => exact ⟨hcount, fun _ => le_rfl, by simp⟩
  | cons id ids ih =>
    obtain ⟨hid, hids⟩ := List.forall_mem_cons.mp hids
    obtain ⟨hlength, hle, hmem⟩ := ih (bump count id) (by rw [length_bump]; omega) hids
    refine ⟨hlength, fun k => (getD_le_bump count id k).trans (hle k), fun id' hid' => ?_⟩
    rcases List.mem_cons.mp hid' with rfl | hid'
    · have hpos := getD_bump_self count id'
      have hle' := hle id'
      rw [List.foldl_cons]
      omega
    · exact hmem id' hid'

/-- The counts of a map count the numbers of this map. -/
theorem getElem?_foldl_countId (occurrences : List (ℤ × ℕ)) (counts : List (List ℕ)) (m : ℕ) :
    (occurrences.foldl countId counts)[m]? = counts[m]?.map fun count =>
      ((occurrences.filter fun o : ℤ × ℕ => o.1 = (m : ℤ)).map Prod.snd).foldl bump count := by
  induction occurrences generalizing counts with
  | nil => simp
  | cons o occurrences ih =>
    rw [List.foldl_cons, ih, countId]
    by_cases hneg : o.1 < 0
    · have hne : ¬ o.1 = m := by omega
      rw [if_pos hneg, List.filter_cons_of_neg (by simpa using hne)]
    · rw [if_neg hneg, List.getElem?_modify]
      by_cases hm : o.1 = m
      · have hnat : o.1.toNat = m := by omega
        rw [List.filter_cons_of_pos (by simpa using hm)]
        simp [hnat, Function.comp_def, bump]
      · have hnat : ¬ o.1.toNat = m := by omega
        rw [List.filter_cons_of_neg (by simpa using hm)]
        simp [hnat]

end UDPipe.Morphodita.FeatureOptimizer
