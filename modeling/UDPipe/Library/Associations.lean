import Mathlib.Data.List.Basic
import Mathlib.Data.List.Nodup

/-!
# Association lists with different keys

The value that a lookup finds is the one that stands with the key.
-/

namespace Associations

variable {α β : Type*} [BEq α]

/-- Appending does not hide what was there. -/
theorem lookup_append_of_some {map more : List (α × β)} {k : α} {v : β}
    (h : map.lookup k = some v) : (map ++ more).lookup k = some v := by
  rw [List.lookup_append, h, Option.some_or]

variable [LawfulBEq α]

/-- A lookup looks at the first pair first. -/
theorem lookup_cons [DecidableEq α] (e : α × β) (map : List (α × β)) (k : α) :
    (e :: map).lookup k = if k = e.1 then some e.2 else map.lookup k := by
  rw [List.lookup_cons]
  by_cases hk : k = e.1
  · simp [hk]
  · have hne : (k == e.1) = false := by simpa using hk
    rw [hne, if_neg hk]

/-- With different keys, the value that is found is the one that is there. -/
theorem lookup_eq_some_iff {map : List (α × β)} (hkeys : (map.map Prod.fst).Nodup) {k : α} {v : β} :
    map.lookup k = some v ↔ (k, v) ∈ map := by
  induction map with
  | nil => simp
  | cons e map ih =>
    rw [List.map_cons, List.nodup_cons] at hkeys
    rw [List.lookup_cons]
    by_cases hk : k = e.1
    · subst hk
      simp only [beq_self_eq_true, Option.some.injEq, List.mem_cons]
      constructor
      · rintro rfl
        exact .inl rfl
      · rintro (h | h)
        · exact (Prod.ext_iff.mp h).2.symm
        · exact absurd (List.mem_map_of_mem h) hkeys.1
    · have hne : (k == e.1) = false := by simpa using hk
      rw [hne, List.mem_cons]
      simp only [ih hkeys.2]
      constructor
      · exact .inr
      · rintro (h | h)
        · exact absurd (Prod.ext_iff.mp h).1 hk
        · exact h

/-- Changing the values does not change where a key is found. -/
theorem lookup_map_snd (g : α → β → β) (map : List (α × β)) (k : α) :
    (map.map fun e => (e.1, g e.1 e.2)).lookup k = (map.lookup k).map (g k) := by
  induction map with
  | nil => rfl
  | cons e map ih =>
    rw [List.map_cons, List.lookup_cons, List.lookup_cons, ih]
    cases hk : k == e.1 with
    | false => rfl
    | true =>
      obtain rfl := eq_of_beq hk
      rfl

/-- A key that is not there has no value. -/
theorem lookup_eq_none {map : List (α × β)} {k : α} (h : ∀ e ∈ map, e.1 ≠ k) :
    map.lookup k = none := by
  rw [List.lookup_eq_none_iff]
  intro e he
  have hne : k ≠ e.1 := fun heq => h e he heq.symm
  simpa using hne

omit [BEq α] [LawfulBEq α] in
/-- With different keys, one item has the key of an item. -/
theorem filter_eq_singleton [DecidableEq α] {key : β → α} {items : List β}
    (hkeys : (items.map key).Nodup) {b : β} (hb : b ∈ items) :
    items.filter (fun c => key c = key b) = [b] := by
  obtain ⟨before, after, rfl⟩ := List.append_of_mem hb
  rw [List.map_append, List.map_cons, List.nodup_append, List.nodup_cons] at hkeys
  obtain ⟨-, ⟨hafter, -⟩, hbefore⟩ := hkeys
  rw [List.filter_append, List.filter_cons_of_pos (by simp), List.filter_eq_nil_iff.mpr,
    List.filter_eq_nil_iff.mpr, List.nil_append]
  · intro c hc heq
    exact hafter (of_decide_eq_true heq ▸ List.mem_map_of_mem hc)
  · intro c hc heq
    exact hbefore _ (List.mem_map_of_mem hc) _ List.mem_cons_self (of_decide_eq_true heq)

/-- With different keys, at most one pair has a key. -/
theorem filter_eq_toList [DecidableEq α] {map : List (α × β)} (hkeys : (map.map Prod.fst).Nodup)
    (k : α) : map.filter (fun e => e.1 = k) = ((map.lookup k).map fun v => (k, v)).toList := by
  cases hlookup : map.lookup k with
  | some v => exact filter_eq_singleton hkeys ((lookup_eq_some_iff hkeys).mp hlookup)
  | none =>
    refine List.filter_eq_nil_iff.mpr fun e he heq => ?_
    obtain rfl := of_decide_eq_true heq
    rw [(lookup_eq_some_iff hkeys).mpr he] at hlookup
    cases hlookup

end Associations
