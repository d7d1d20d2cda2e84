import Mathlib.Data.List.Basic
import Mathlib.Data.Multiset.UnionInter
import Mathlib.Order.Lattice
import Mathlib.Order.Nat

/-!
# Joining sorted lists

A merge of two lists of items that are sorted by a key takes an item of each list whenever
their keys are equal, and so compares the items of one key place by place. It finds the
intersection of the lists as multisets if and only if no item is left out this way.
-/

namespace MergeJoin

/-! ### Lists place by place -/

section Agreed

variable {α : Type*} [DecidableEq α]

/-- The elements that both lists have at the same place. -/
def agreed : List α → List α → List α
  | x :: xs, y :: ys => if x = y then x :: agreed xs ys else agreed xs ys
  | _, _ => []

/-- What two lists agree on does not depend on their order. -/
theorem agreed_comm (xs ys : List α) : agreed xs ys = agreed ys xs := by
  induction xs generalizing ys with
  | nil => cases ys <;> rfl
  | cons x xs ih =>
    cases ys with
    | nil => rfl
    | cons y ys =>
      by_cases hxy : x = y
      · subst hxy
        rw [agreed, agreed, if_pos rfl, if_pos rfl, ih]
      · rw [agreed, agreed, if_neg hxy, if_neg (Ne.symm hxy), ih]

/-- An item is agreed on at most as often as it is there. -/
theorem count_agreed_le (a : α) (xs ys : List α) : (agreed xs ys).count a ≤ xs.count a := by
  induction xs generalizing ys with
  | nil => simp [agreed]
  | cons x xs ih =>
    cases ys with
    | nil => simp [agreed]
    | cons y ys =>
      have := ih ys
      rw [agreed]
      split_ifs <;> simp only [List.count_cons] <;> omega

/-- All occurrences in the first list are at places where the second list has the element. -/
theorem count_agreed_eq_iff (a : α) (xs ys : List α) :
    (agreed xs ys).count a = xs.count a ↔ ∀ i : ℕ, xs[i]? = some a → ys[i]? = some a := by
  induction xs generalizing ys with
  | nil => simp [agreed]
  | cons x xs ih =>
    cases ys with
    | nil =>
      simp only [agreed, List.count_nil, List.getElem?_nil, reduceCtorEq, imp_false]
      rw [eq_comm, List.count_eq_zero, List.mem_iff_getElem?, not_exists]
    | cons y ys =>
      have hle := count_agreed_le a xs ys
      have hplaces : (∀ i : ℕ, (x :: xs)[i]? = some a → (y :: ys)[i]? = some a) ↔
          (x = a → y = a) ∧ ∀ i : ℕ, xs[i]? = some a → ys[i]? = some a := by
        constructor
        · intro h
          refine ⟨fun hx => ?_, fun i hi => ?_⟩
          · simpa using h 0 (by simp [hx])
          · simpa using h (i + 1) (by simpa using hi)
        · rintro ⟨hfirst, hrest⟩ i hi
          cases i with
          | zero => simpa using hfirst (by simpa using hi)
          | succ i => simpa using hrest i (by simpa using hi)
      rw [hplaces, ← ih, agreed]
      by_cases hx : x = a <;> by_cases hxy : x = y <;>
        simp [List.count_cons, hx, hxy] <;> grind

/-- No occurrence that both lists can have at one place is lost. -/
theorem count_agreed_eq_min_iff (a : α) (xs ys : List α) :
    (agreed xs ys).count a = min (xs.count a) (ys.count a) ↔
      (∀ i : ℕ, xs[i]? = some a → ys[i]? = some a) ∨
        ∀ i : ℕ, ys[i]? = some a → xs[i]? = some a := by
  have hleft := count_agreed_le a xs ys
  have hright := count_agreed_le a ys xs
  rw [agreed_comm] at hright
  rw [← count_agreed_eq_iff, ← count_agreed_eq_iff, agreed_comm ys xs]
  omega

end Agreed

/-- A list that has no element more often than both others is as long as their intersection if
and only if it has every element that often. -/
theorem length_eq_card_inter_iff {α : Type*} [DecidableEq α] {zs xs ys : List α}
    (h : ∀ a, zs.count a ≤ min (xs.count a) (ys.count a)) :
    zs.length = Multiset.card ((xs : Multiset α) ∩ (ys : Multiset α)) ↔
      ∀ a, zs.count a = min (xs.count a) (ys.count a) := by
  have hle : (zs : Multiset α) ≤ (xs : Multiset α) ∩ (ys : Multiset α) := by
    rw [Multiset.le_iff_count]
    simpa using h
  constructor
  · intro hlength a
    have heq := Multiset.eq_of_le_of_card_le hle hlength.ge
    have := congrArg (Multiset.count a) heq
    simpa using this
  · intro hcount
    have heq : (zs : Multiset α) = (xs : Multiset α) ∩ (ys : Multiset α) := by
      ext a
      simpa using hcount a
    rw [← heq, Multiset.coe_card]

/-! ### Merging by keys -/

section WithKey

variable {κ α : Type*} [LinearOrder κ] (key : α → κ)

/-- The items with a key, in their order. -/
def withKey (k : κ) (items : List α) : List α := items.filter fun item => key item = k

/-- The items are sorted by their keys. -/
def Sorted (items : List α) : Prop := items.Pairwise fun item item' => key item ≤ key item'

/-- The first item has its key. -/
theorem withKey_cons_self (x : α) (xs : List α) :
    withKey key (key x) (x :: xs) = x :: withKey key (key x) xs := by
  simp [withKey]

/-- An item with another key is left out. -/
theorem withKey_cons_of_ne {k : κ} {x : α} (h : key x ≠ k) (xs : List α) :
    withKey key k (x :: xs) = withKey key k xs := by
  simp [withKey, h]

/-- The items with the key of an item are all of its copies. -/
theorem count_withKey [BEq α] [LawfulBEq α] (item : α) (items : List α) :
    (withKey key (key item) items).count item = items.count item :=
  List.count_filter (by simp)

/-- A key before all others is not in a sorted list. -/
theorem withKey_eq_nil {k : κ} {y : α} {ys : List α} (hsorted : Sorted key (y :: ys))
    (hlt : k < key y) : withKey key k (y :: ys) = [] := by
  refine List.filter_eq_nil_iff.mpr fun item hitem => ?_
  have hle : key y ≤ key item := by
    rcases List.mem_cons.mp hitem with rfl | hitem
    · exact le_rfl
    · exact (List.pairwise_cons.mp hsorted).1 item hitem
  simpa using (hlt.trans_le hle).ne'

/-- Among the items of its key, every item has all its places of one list in the other as well. -/
def SamePlaces (xs ys : List α) : Prop := ∀ item,
  (∀ i : ℕ, (withKey key (key item) xs)[i]? = some item →
    (withKey key (key item) ys)[i]? = some item) ∨
  ∀ i : ℕ, (withKey key (key item) ys)[i]? = some item →
    (withKey key (key item) xs)[i]? = some item

/-- An item of a list with different keys is the only one with its key. -/
theorem eq_zero_of_withKey {items : List α}
    (hitems : items.Pairwise fun item item' => key item < key item') {item : α} {i : ℕ}
    (hi : (withKey key (key item) items)[i]? = some item) : i = 0 := by
  have hordered : (withKey key (key item) items).Pairwise fun item item' => key item < key item' :=
    hitems.filter _
  obtain ⟨hlt, -⟩ := List.getElem?_eq_some_iff.mp hi
  by_contra hne
  have hless := List.pairwise_iff_getElem.mp hordered 0 i (by omega) hlt (by omega)
  have hkey : ∀ item' ∈ withKey key (key item) items, key item' = key item := by
    simp [withKey]
  rw [hkey _ (List.getElem_mem _), hkey _ (List.getElem_mem _)] at hless
  exact lt_irrefl _ hless

/-- Lists with different keys have at most one place for each item. -/
theorem samePlaces_of_strict {xs ys : List α}
    (hxs : xs.Pairwise fun item item' => key item < key item')
    (hys : ys.Pairwise fun item item' => key item < key item') : SamePlaces key xs ys := by
  intro item
  by_cases hplace : (withKey key (key item) ys)[0]? = some item
  · refine .inl fun i hi => ?_
    rw [eq_zero_of_withKey key hxs hi, hplace]
  · refine .inr fun i hi => absurd ?_ hplace
    rw [← eq_zero_of_withKey key hys hi, hi]

end WithKey

section Merge

variable {κ α : Type*} [LinearOrder κ] [DecidableEq α] (key : α → κ)

/-- The items that a merge by keys takes together and finds equal. -/
def joined : List α → List α → List α
  | [], _ => []
  | _, [] => []
  | x :: xs, y :: ys =>
    if key x < key y then joined xs (y :: ys)
    else if key y < key x then joined (x :: xs) ys
    else if x = y then x :: joined xs ys
    else joined xs ys
termination_by xs ys => xs.length + ys.length

/-- The merge compares the items of each key place by place. -/
theorem count_joined (item : α) {xs ys : List α} (hxs : Sorted key xs) (hys : Sorted key ys) :
    (joined key xs ys).count item =
      (agreed (withKey key (key item) xs) (withKey key (key item) ys)).count item := by
  induction xs, ys using joined.induct key with
  | case1 ys => simp [joined, withKey, agreed]
  | case2 xs hne => cases xs <;> simp [joined, withKey, agreed]
  | case3 x xs y ys hlt ih =>
    rw [joined, if_pos hlt, ih hxs.of_cons hys]
    by_cases hkey : key x = key item
    · rw [← hkey, withKey_eq_nil key hys hlt, agreed_comm, agreed_comm _ []]
      rfl
    · rw [withKey_cons_of_ne key hkey]
  | case4 x xs y ys hnot hlt ih =>
    rw [joined, if_neg hnot, if_pos hlt, ih hxs hys.of_cons]
    by_cases hkey : key y = key item
    · rw [← hkey, withKey_eq_nil key hxs hlt]
      rfl
    · rw [withKey_cons_of_ne key hkey]
  | case5 xs x ys hnot hnot' ih =>
    rw [joined, if_neg hnot, if_neg hnot', if_pos rfl, List.count_cons, ih hxs.of_cons hys.of_cons]
    by_cases hkey : key x = key item
    · rw [← hkey, withKey_cons_self, withKey_cons_self, agreed, if_pos rfl, List.count_cons]
    · have hne : x ≠ item := fun heq => hkey (congrArg key heq)
      rw [withKey_cons_of_ne key hkey, withKey_cons_of_ne key hkey]
      simp [hne]
  | case6 x xs y ys hnot hnot' hne ih =>
    have hkeys : key x = key y := le_antisymm (not_lt.mp hnot') (not_lt.mp hnot)
    rw [joined, if_neg hnot, if_neg hnot', if_neg hne, ih hxs.of_cons hys.of_cons]
    by_cases hkey : key x = key item
    · rw [← hkey, withKey_cons_self, hkeys, withKey_cons_self, agreed, if_neg hne]
    · rw [withKey_cons_of_ne key hkey, withKey_cons_of_ne key (hkeys ▸ hkey)]

/-- The merge finds the intersection if and only if the items have the same places. -/
theorem length_joined_iff {xs ys : List α} (hxs : Sorted key xs) (hys : Sorted key ys) :
    (joined key xs ys).length = Multiset.card ((xs : Multiset α) ∩ (ys : Multiset α)) ↔
      SamePlaces key xs ys := by
  rw [length_eq_card_inter_iff]
  · refine forall_congr' fun item => ?_
    rw [← count_agreed_eq_min_iff, count_joined key item hxs hys, count_withKey, count_withKey]
  · intro item
    have hleft := count_agreed_le item (withKey key (key item) xs) (withKey key (key item) ys)
    have hright := count_agreed_le item (withKey key (key item) ys) (withKey key (key item) xs)
    rw [agreed_comm] at hright
    rw [count_withKey] at hleft hright
    rw [count_joined key item hxs hys]
    exact le_min hleft hright

end Merge

end MergeJoin
