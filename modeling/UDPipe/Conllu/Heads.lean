import UDPipe.Conllu.Reader

/-!
# Linking heads

The final pass of the reader calls `set_head` for every word with a head. When
the words have no children yet, the pass succeeds exactly if no head is too
large, and it leaves at each word the increasing list of the words whose head
it is.
-/

namespace UDPipe.Conllu

/-- The words below index `k` (the root excepted) whose head is `j`, increasing. -/
def childrenBelow (words : List Word) (k : ℕ) (j : ℤ) : List ℤ :=
  ((List.range k).filter fun c => 0 < c && (words[c]?.map fun w => w.head) == some j).map
    fun c : ℕ => (c : ℤ)

/-- The words with the links of the words below index `k`. -/
def linkedBelow (words : List Word) (k : ℕ) : List Word :=
  words.mapIdx fun j w => { w with children := childrenBelow words k j }

/-- The words with all their links. -/
def linked (words : List Word) : List Word := linkedBelow words words.length

/-- Words as the line loop leaves them: numbered, and without children. -/
def Unlinked (words : List Word) : Prop :=
  ∀ (i : ℕ) (w : Word), words[i]? = some w → w.id = i ∧ w.children = []

/-- Linking keeps the number of words. -/
@[simp] theorem length_linkedBelow (words : List Word) (k : ℕ) :
    (linkedBelow words k).length = words.length := by
  simp [linkedBelow]

/-- A word gets its children, and nothing else of it changes. -/
theorem getElem?_linkedBelow (words : List Word) (k j : ℕ) :
    (linkedBelow words k)[j]? =
      words[j]?.map fun w => { w with children := childrenBelow words k j } := by
  simp [linkedBelow]

/-- A child that is listed is a word below the bound with that head. -/
theorem mem_childrenBelow {words : List Word} {k : ℕ} {j c : ℤ} :
    c ∈ childrenBelow words k j ↔
      ∃ i : ℕ, c = i ∧ 0 < i ∧ i < k ∧ ∃ w, words[i]? = some w ∧ w.head = j := by
  simp only [childrenBelow, List.mem_map, List.mem_filter, List.mem_range, Bool.and_eq_true,
    decide_eq_true_eq, beq_iff_eq, Option.map_eq_some_iff]
  constructor
  · rintro ⟨i, ⟨hk, hpos, w, hw, hhead⟩, rfl⟩
    exact ⟨i, rfl, hpos, hk, w, hw, hhead⟩
  · rintro ⟨i, rfl, hpos, hk, w, hw, hhead⟩
    exact ⟨i, ⟨hk, hpos, w, hw, hhead⟩, rfl⟩

/-- Children are listed in increasing order. -/
theorem pairwise_childrenBelow (words : List Word) (k : ℕ) (j : ℤ) :
    (childrenBelow words k j).Pairwise (· < ·) := by
  refine List.pairwise_map.mpr (List.Pairwise.filter _ ?_)
  exact List.pairwise_lt_range.imp fun h => by exact_mod_cast h

/-- Below the first word there are no children. -/
theorem childrenBelow_zero (words : List Word) (j : ℤ) : childrenBelow words 0 j = [] := rfl

/-- One more word adds itself to the children of its head. -/
theorem childrenBelow_succ {words : List Word} {k : ℕ} {w : Word} (hw : words[k]? = some w)
    (j : ℤ) : childrenBelow words (k + 1) j =
      if 0 < k ∧ w.head = j then childrenBelow words k j ++ [(k : ℤ)]
      else childrenBelow words k j := by
  by_cases h : 0 < k ∧ w.head = j
  · simp [childrenBelow, List.range_succ, hw, h]
  · rw [if_neg h]
    simp [childrenBelow, List.range_succ, hw, h]

/-- Unlinked words have the links of no words. -/
theorem linkedBelow_zero {words : List Word} (h : Unlinked words) :
    linkedBelow words 0 = words := by
  refine List.ext_getElem? fun j => ?_
  rw [getElem?_linkedBelow, childrenBelow_zero]
  cases hj : words[j]? with
  | none => rfl
  | some w =>
    obtain ⟨form, ⟨head, deprel, children⟩, id, l, upostag, xpostag, feats, deps⟩ := w
    have hchildren : children = [] := (h j _ hj).2
    simp [hchildren]

/-- One `set_head` of the pass links one more word. -/
theorem setHeadIn_linkedBelow {words : List Word} {k : ℕ} {w : Word} (hw : words[k]? = some w)
    (hpos : 0 < k) :
    setHeadIn (linkedBelow words k) k w.head w.deprel = linkedBelow words (k + 1) := by
  have hk : (linkedBelow words k)[((k : ℕ) : ℤ).toNat]? =
      some { w with children := childrenBelow words k k } := by
    simp [getElem?_linkedBelow, hw]
  refine List.ext_getElem? fun j => ?_
  rw [getElem?_setHeadIn (by omega) hk, getElem?_linkedBelow, getElem?_linkedBelow,
    Option.map_map]
  cases hj : words[j]? with
  | none => rfl
  | some v =>
    have hbelow : ∀ c ∈ childrenBelow words k j, c < (k : ℤ) := fun c hc => by
      obtain ⟨i, rfl, _, hi, _⟩ := mem_childrenBelow.mp hc
      omega
    have hkj : (k : ℤ) = (j : ℤ) → v = w := fun heq => by
      have : k = j := by omega
      subst this
      exact Option.some.inj (hj.symm.trans hw)
    simp only [Option.map_some, Function.comp_apply, childrenBelow_succ hw, Option.some.injEq,
      links, withLinks, linksAfter]
    by_cases hhead : w.head = (j : ℤ)
    · simp only [hhead, if_true, hpos, true_and, eraseChild_of_lt hbelow,
        insertChild_of_lt hbelow]
      by_cases heq : (k : ℤ) = (j : ℤ)
      · simp [hkj heq, heq, hhead]
      · simp [heq]
    · simp only [hhead, if_false, and_false]
      by_cases heq : (k : ℤ) = (j : ℤ)
      · simp [hkj heq, heq]
      · simp [heq]

/-- A word that is the root or has no head adds no link. -/
theorem linkedBelow_succ_of_no_head {words : List Word} {k : ℕ} {w : Word}
    (hw : words[k]? = some w) (h : ¬ (k ≠ 0 ∧ w.head ≥ 0)) :
    linkedBelow words (k + 1) = linkedBelow words k := by
  refine List.ext_getElem? fun j => ?_
  have hno : ¬ (0 < k ∧ w.head = (j : ℤ)) := by
    rintro ⟨hpos, hhead⟩
    exact h ⟨by omega, by omega⟩
  simp only [getElem?_linkedBelow, childrenBelow_succ hw, if_neg hno]

/-- The loop links the words from a number on if their heads are words. -/
private theorem linkHeads_range' {words : List Word} (h : Unlinked words) (m k : ℕ)
    (hk : k + m = words.length) (words' : List Word) :
    linkHeads (List.range' k m) (linkedBelow words k) = .ok words' ↔
      (∀ (i : ℕ) (w : Word), k ≤ i → 0 < i → words[i]? = some w → w.head < words.length) ∧
        words' = linked words := by
  induction m generalizing k with
  | zero =>
    have hlen : k = words.length := by omega
    subst hlen
    simp only [List.range'_zero, linkHeads, Except.ok.injEq, linked]
    constructor
    · rintro rfl
      refine ⟨fun i w hi _ hw => ?_, rfl⟩
      have := (List.getElem?_eq_some_iff.mp hw).1
      omega
    · exact fun ⟨_, heq⟩ => heq.symm
  | succ m ih =>
    have hlt : k < words.length := by omega
    obtain ⟨w, hw⟩ : ∃ w, words[k]? = some w := ⟨words[k], List.getElem?_eq_getElem hlt⟩
    have hid : w.id = (k : ℤ) := (h k w hw).1
    have hk' : (linkedBelow words k)[k]? =
        some { w with children := childrenBelow words k k } := by
      simp [getElem?_linkedBelow, hw]
    have hsplit : (∀ (i : ℕ) (v : Word), k ≤ i → 0 < i → words[i]? = some v →
          v.head < words.length) ↔
        (0 < k → w.head < words.length) ∧
          ∀ (i : ℕ) (v : Word), k + 1 ≤ i → 0 < i → words[i]? = some v →
            v.head < words.length := by
      constructor
      · exact fun hall => ⟨fun hpos => hall k w le_rfl hpos hw,
          fun i v hi => hall i v (by omega)⟩
      · rintro ⟨hfirst, hrest⟩ i v hi hpos hv
        by_cases heq : i = k
        · subst heq
          have : v = w := Option.some.inj (hv.symm.trans hw)
          exact this ▸ hfirst hpos
        · exact hrest i v (by omega) hpos hv
    rw [List.range'_succ, linkHeads, hk']
    dsimp only
    by_cases hlink : w.id ≠ 0 ∧ w.head ≥ 0
    · rw [if_pos hlink]
      have hpos : 0 < k := by omega
      by_cases hlarge : w.head ≥ (words.length : ℤ)
      · rw [if_pos (by simpa using hlarge)]
        simp only [reduceCtorEq, false_iff, not_and]
        intro hall
        exact absurd (hall k w le_rfl hpos hw) (by omega)
      · rw [if_neg (by simpa using hlarge), hid, setHeadIn_linkedBelow hw hpos,
          ih (k + 1) (by omega), hsplit]
        have : 0 < k → w.head < words.length := fun _ => by omega
        rw [and_iff_right this]
    · have hnone : ¬ (k ≠ 0 ∧ w.head ≥ 0) := by
        rintro ⟨hpos, hhead⟩
        exact hlink ⟨by omega, hhead⟩
      have : 0 < k → w.head < words.length := fun hpos => by omega
      rw [if_neg hlink, ← linkedBelow_succ_of_no_head hw hnone, ih (k + 1) (by omega), hsplit,
        and_iff_right this]

/-- The pass over unlinked words succeeds exactly when no head is too large, and
then it leaves the linked words. -/
theorem linkHeads_eq_ok_iff {words : List Word} (h : Unlinked words) (words' : List Word) :
    linkHeads (List.range words.length) words = .ok words' ↔
      (∀ (i : ℕ) (w : Word), 0 < i → words[i]? = some w → w.head < words.length) ∧
        words' = linked words := by
  have := linkHeads_range' h words.length 0 (by omega) words'
  rw [linkedBelow_zero h, ← List.range_eq_range'] at this
  simpa using this

end UDPipe.Conllu
