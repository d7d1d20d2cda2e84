import UDPipe.Morphodita.StatisticalGuesser
import Mathlib.Data.List.Infix

/-!
# The search for a rule

The labels that are found are the beginnings of the labels of the rules, so a search that
lets a label grow until it is not found misses no rule. The rule found is the most specific
one: no other one has a longer suffix, or the same suffix and a longer prefix.
-/

namespace UDPipe.Morphodita

/-- The beginnings of the labels are found, and an entry counts replacements if it is for a
label itself. -/
structure Finds (find : Bytes → Option Bytes) (labels : List Bytes) : Prop where
  isSome_iff : ∀ label, label ≠ [] → ((find label).isSome = true ↔ ∃ l ∈ labels, label <+: l)
  count_iff : ∀ label found, label ≠ [] → find label = some found →
    (unalignedLoad 1 (found.drop 2) ≠ 0 ↔ label ∈ labels)

namespace MorphoStatisticalGuesser

variable {find : Bytes → Option Bytes} {labels : List Bytes}

/-! ### The suffix -/

/-- The suffix is inside the form. -/
theorem suffixLen_le (form label : Bytes) : suffixLen find form label ≤ form.length := by
  induction form generalizing label with
  | nil => exact le_rfl
  | cons c form ih =>
    rw [suffixLen]
    split
    · exact Nat.succ_le_succ (ih _)
    · exact Nat.zero_le _

/-- No suffix that labels begin with is longer. -/
theorem le_suffixLen (h : Finds find labels) (form label : Bytes) {len : ℕ}
    (hlen : len ≤ form.length) {l : Bytes} (hl : l ∈ labels)
    (hbegins : label ++ form.take len <+: l) :
    len ≤ suffixLen find form label := by
  induction form generalizing label len with
  | nil => exact hlen.trans (Nat.zero_le _)
  | cons c form ih =>
    rcases len with _ | len
    · exact Nat.zero_le _
    rw [List.take_succ_cons, List.append_cons] at hbegins
    have hfound : (find (label ++ [c])).isSome = true :=
      (h.isSome_iff _ (by simp)).mpr ⟨l, hl, (List.prefix_append _ _).trans hbegins⟩
    rw [suffixLen, if_pos hfound]
    exact Nat.succ_le_succ (ih _ (Nat.le_of_succ_le_succ hlen) hbegins)

/-! ### The prefix -/

/-- The prefix of the given length makes a label, and no longer one does. -/
structure IsLongest (labels : List Bytes) (form label : Bytes) (len : ℕ) : Prop where
  le : len ≤ form.length
  mem : label ++ form.take len ∈ labels
  longest : ∀ k, len < k → k ≤ form.length → label ++ form.take k ∉ labels

/-- The result of the loop: the rule with the longest prefix, or the one before. -/
theorem longestPrefix_spec (h : Finds find labels) (form label : Bytes) (hlabel : label ≠ [])
    (prefixLen : ℕ) (rule : Option (Bytes × ℕ)) :
    (∃ len found, IsLongest labels form label len ∧ find (label ++ form.take len) = some found ∧
        longestPrefix find form label prefixLen rule = some (found.drop 2, prefixLen + len)) ∨
      (∀ len ≤ form.length, label ++ form.take len ∉ labels) ∧
        longestPrefix find form label prefixLen rule = rule := by
  induction form generalizing label prefixLen rule with
  | nil =>
    rw [longestPrefix]
    cases hfound : find label with
    | none =>
      refine .inr ⟨fun len _ hmem => ?_, rfl⟩
      rw [List.take_nil, List.append_nil] at hmem
      have hsome := (h.isSome_iff label hlabel).mpr ⟨label, hmem, List.prefix_rfl⟩
      simp [hfound] at hsome
    | some found =>
      by_cases hmem : label ∈ labels
      · simp only [if_pos ((h.count_iff label found hlabel hfound).mpr hmem)]
        exact .inl ⟨0, found, ⟨le_rfl, by simpa, fun k hk hle => absurd hk (by simpa using hle)⟩,
          by simpa, rfl⟩
      · simp only [if_neg (mt (h.count_iff label found hlabel hfound).mp hmem)]
        exact .inr ⟨fun len _ => by simpa, trivial⟩
  | cons c form ih =>
    have hgrow : ∀ len, label ++ (c :: form).take (len + 1) = label ++ [c] ++ form.take len :=
      fun len => List.append_cons ..
    rw [longestPrefix]
    cases hfound : find label with
    | none =>
      refine .inr ⟨fun len _ hmem => ?_, rfl⟩
      have hsome := (h.isSome_iff label hlabel).mpr ⟨_, hmem, List.prefix_append _ _⟩
      simp [hfound] at hsome
    | some found =>
      simp only
      rcases ih (label ++ [c]) (by simp) (prefixLen + 1)
          (if unalignedLoad 1 (found.drop 2) ≠ 0 then some (found.drop 2, prefixLen) else rule) with
        ⟨len, found', hlongest, hfound', heq⟩ | ⟨hnone, heq⟩
      · refine .inl ⟨len + 1, found', ⟨?_, ?_, ?_⟩, ?_, ?_⟩
        · exact Nat.succ_le_succ hlongest.le
        · rw [hgrow]
          exact hlongest.mem
        · rintro (_ | k) hk hle
          · omega
          · rw [hgrow]
            exact hlongest.longest k (by omega) (Nat.le_of_succ_le_succ hle)
        · rw [hgrow]
          exact hfound'
        · rw [heq, Nat.add_assoc, Nat.add_comm 1]
      · have hothers : ∀ k, 0 < k → k ≤ (c :: form).length →
            label ++ (c :: form).take k ∉ labels := by
          rintro (_ | k) hk hle
          · omega
          · rw [hgrow]
            exact hnone k (Nat.le_of_succ_le_succ hle)
        by_cases hmem : label ∈ labels
        · have hcount := (h.count_iff label found hlabel hfound).mpr hmem
          exact .inl ⟨0, found, ⟨Nat.zero_le _, by simpa, hothers⟩, by simpa,
            heq.trans (if_pos hcount)⟩
        · have hcount := mt (h.count_iff label found hlabel hfound).mp hmem
          refine .inr ⟨fun len hle => ?_, heq.trans (if_neg hcount)⟩
          rcases Nat.eq_zero_or_pos len with rfl | hpos
          · simpa
          · exact hothers len hpos hle

/-! ### The rule -/

/-- The label of the affixes of a form with the given lengths. -/
def affixLabel (form : Bytes) (suffixLen prefixLen : ℕ) : Bytes :=
  form.reverse.take suffixLen ++ space :: form.take prefixLen

/-- The longest prefix with a rule for the suffix is found, if there is one. -/
theorem ruleFor_spec (h : Finds find labels) (form : Bytes) {suffixLen : ℕ}
    (hle : suffixLen ≤ form.length) :
    (∃ len found, suffixLen + len ≤ form.length ∧ affixLabel form suffixLen len ∈ labels ∧
        (∀ k, len < k → suffixLen + k ≤ form.length → affixLabel form suffixLen k ∉ labels) ∧
        find (affixLabel form suffixLen len) = some found ∧
        ruleFor find form suffixLen = some (found.drop 2, affixLabel form suffixLen len)) ∨
      (∀ len, suffixLen + len ≤ form.length → affixLabel form suffixLen len ∉ labels) ∧
        ruleFor find form suffixLen = none := by
  have hlength : (form.take (form.length - suffixLen)).length = form.length - suffixLen :=
    List.length_take_of_le (Nat.sub_le _ _)
  have hlabel : ∀ len, suffixLen + len ≤ form.length →
      form.reverse.take suffixLen ++ [space] ++ (form.take (form.length - suffixLen)).take len =
        affixLabel form suffixLen len := by
    intro len hlen
    rw [List.take_take, min_eq_left (by omega), affixLabel, List.append_assoc]
    rfl
  rcases longestPrefix_spec h (form.take (form.length - suffixLen))
      (form.reverse.take suffixLen ++ [space]) (by simp) 0 none with
    ⟨len, found, hlongest, hfound, heq⟩ | ⟨hnone, heq⟩
  · have hlen := hlongest.le
    have hmem := hlongest.mem
    rw [hlength] at hlen
    rw [hlabel len (by omega)] at hmem hfound
    refine .inl ⟨len, found, by omega, hmem, fun k hk hk' => ?_, hfound, ?_⟩
    · have hnot := hlongest.longest k hk (by omega)
      rwa [hlabel k hk'] at hnot
    · simp only [ruleFor, heq, Option.map_some, Nat.zero_add]
      rw [hlabel len (by omega)]
  · refine .inr ⟨fun len hlen => ?_, ?_⟩
    · have hnot := hnone len (by omega)
      rwa [hlabel len hlen] at hnot
    · simp only [ruleFor, heq, Option.map_none]

/-- Affixes that make a label, such that no longer suffix and no longer prefix with the same
suffix do. -/
structure LongestAffixes (labels : List Bytes) (form : Bytes) (suffixLen prefixLen : ℕ) : Prop where
  le : suffixLen + prefixLen ≤ form.length
  mem : affixLabel form suffixLen prefixLen ∈ labels
  most : ∀ s p, s + p ≤ form.length → affixLabel form s p ∈ labels →
    s < suffixLen ∨ s = suffixLen ∧ p ≤ prefixLen

/-- The loop over the suffixes finds the most specific rule, if no longer suffix has one. -/
theorem findRule_spec (h : Finds find labels) (form : Bytes) {longest : ℕ}
    (hle : longest ≤ form.length)
    (hlonger : ∀ s p, longest < s → s + p ≤ form.length → affixLabel form s p ∉ labels) :
    (∃ s p found, LongestAffixes labels form s p ∧ find (affixLabel form s p) = some found ∧
        findRule find form longest = some (found.drop 2, affixLabel form s p)) ∨
      (∀ s p, s + p ≤ form.length → affixLabel form s p ∉ labels) ∧
        findRule find form longest = none := by
  induction longest with
  | zero =>
    rw [findRule]
    rcases ruleFor_spec h form hle with
      ⟨len, found, hlen, hmem, hlongest, hfound, heq⟩ | ⟨hnone, heq⟩
    · refine .inl ⟨0, len, found, ⟨hlen, hmem, fun s p hsp hlabel => ?_⟩, hfound, heq⟩
      rcases Nat.eq_zero_or_pos s with rfl | hpos
      · by_contra hnot
        exact hlongest p (by omega) hsp hlabel
      · exact absurd hlabel (hlonger s p hpos hsp)
    · refine .inr ⟨fun s p hsp => ?_, heq⟩
      rcases Nat.eq_zero_or_pos s with rfl | hpos
      · exact hnone p hsp
      · exact hlonger s p hpos hsp
  | succ longest ih =>
    rw [findRule]
    rcases ruleFor_spec h form hle with
      ⟨len, found, hlen, hmem, hlongest, hfound, heq⟩ | ⟨hnone, heq⟩
    · refine .inl ⟨longest + 1, len, found, ⟨hlen, hmem, fun s p hsp hlabel => ?_⟩, hfound, ?_⟩
      · rcases Nat.lt_trichotomy s (longest + 1) with hlt | rfl | hgt
        · exact .inl hlt
        · by_contra hnot
          exact hlongest p (by omega) hsp hlabel
        · exact absurd hlabel (hlonger s p hgt hsp)
      · rw [heq, Option.some_or]
    · rw [heq, Option.none_or]
      apply ih (Nat.le_of_succ_le hle)
      intro s p hs hsp
      rcases eq_or_lt_of_le (Nat.succ_le_of_lt hs) with rfl | hgt
      · exact hnone p hsp
      · exact hlonger s p hgt hsp

/-- The search finds the most specific rule. -/
theorem search_spec (h : Finds find labels) (form : Bytes) :
    (∃ s p found, LongestAffixes labels form s p ∧ find (affixLabel form s p) = some found ∧
        findRule find form (suffixLen find form.reverse []) =
          some (found.drop 2, affixLabel form s p)) ∨
      (∀ s p, s + p ≤ form.length → affixLabel form s p ∉ labels) ∧
        findRule find form (suffixLen find form.reverse []) = none := by
  have hle := @suffixLen_le find form.reverse []
  rw [List.length_reverse] at hle
  apply findRule_spec h form hle
  intro s p hs hsp hmem
  have hlen := @le_suffixLen _ _ h form.reverse [] s (by rw [List.length_reverse]; omega) _ hmem
    (List.prefix_append _ _)
  omega

end MorphoStatisticalGuesser

end UDPipe.Morphodita
