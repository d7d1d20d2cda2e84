import Mathlib.Data.List.Forall2
import Mathlib.Data.List.Nodup
import Mathlib.Data.List.Perm.Basic

/-!
# Nested loops

Loops that collect what they find: two of them may be exchanged, a loop that finds something in one
pass only is this pass, and a loop may leave out the passes that find nothing.
-/

namespace NestedLoops

variable {α β γ : Type*}

/-- Two loops may be exchanged. -/
theorem exchange_perm (outer : List α) (inner : List β) (f : α → β → List γ) :
    (outer.flatMap fun a => inner.flatMap fun b => f a b).Perm
      (inner.flatMap fun b => outer.flatMap fun a => f a b) := by
  induction outer with
  | nil => simp
  | cons a outer ih =>
    simp only [List.flatMap_cons]
    refine (ih.append_left _).trans ?_
    clear ih
    induction inner with
    | nil => simp
    | cons b inner ih =>
      simp only [List.flatMap_cons, List.append_assoc]
      refine List.Perm.append_left _ (.trans ?_ (ih.append_left _))
      rw [← List.append_assoc, ← List.append_assoc]
      exact List.perm_append_comm.append_right _

/-- A loop that finds something in one pass only. -/
theorem flatMap_eq_of_nodup {l : List α} (hnodup : l.Nodup) {a : α} (ha : a ∈ l)
    {f : α → List γ} (h : ∀ b ∈ l, b ≠ a → f b = []) : l.flatMap f = f a := by
  obtain ⟨before, after, rfl⟩ := List.append_of_mem ha
  obtain ⟨-, hcons, hdisjoint⟩ := List.nodup_append.mp hnodup
  have hbefore : before.flatMap f = [] := List.flatMap_eq_nil_iff.mpr fun b hb =>
    h b (List.mem_append_left _ hb) (hdisjoint b hb a List.mem_cons_self)
  have hafter : after.flatMap f = [] := List.flatMap_eq_nil_iff.mpr fun b hb =>
    h b (List.mem_append_right _ (List.mem_cons_of_mem _ hb)) fun heq =>
      (List.nodup_cons.mp hcons).1 (heq ▸ hb)
  rw [List.flatMap_append, List.flatMap_cons, hbefore, hafter, List.nil_append, List.append_nil]

/-- The passes that find nothing are left out. -/
theorem flatMap_filter_eq {p : α → Bool} {f : α → List γ} (l : List α)
    (h : ∀ a ∈ l, p a = false → f a = []) : (l.filter p).flatMap f = l.flatMap f := by
  induction l with
  | nil => rfl
  | cons a l ih =>
    obtain ⟨ha, h⟩ := List.forall_mem_cons.mp h
    rw [List.flatMap_cons, List.filter_cons, ← ih h]
    split
    · rw [List.flatMap_cons]
    · rename_i hp
      rw [ha (by simpa using hp), List.nil_append]

/-- A loop that stops where it would find nothing from then on. -/
theorem flatMap_takeWhile_eq {p : α → Bool} {f : α → List γ} {l : List α}
    (h : ∀ a ∈ l, p a = false → f a = []) (hstops : l.Pairwise fun a b => p b = true → p a = true) :
    (l.takeWhile p).flatMap f = l.flatMap f := by
  induction l with
  | nil => rfl
  | cons a l ih =>
    obtain ⟨ha, h⟩ := List.forall_mem_cons.mp h
    obtain ⟨hlater, hstops⟩ := List.pairwise_cons.mp hstops
    rw [List.takeWhile_cons]
    split
    · rw [List.flatMap_cons, List.flatMap_cons, ih h hstops]
    · next hp =>
      rw [List.flatMap_cons, ha (by simpa using hp), List.flatMap_nil, List.nil_append, eq_comm,
        List.flatMap_eq_nil_iff]
      exact fun b hb => h b hb (by simpa using fun hpb => hp (hlater b hb hpb))

/-- Two loops that find the same for each of the same items. -/
theorem flatMap_eq_of_common {δ : Type*} {R : α → δ → Prop} {S : β → δ → Prop} {l : List α}
    {l' : List β} {items : List δ} (hall : List.Forall₂ R l items) (hall' : List.Forall₂ S l' items)
    {f : α → List γ} {g : β → List γ} (h : ∀ a b d, R a d → S b d → f a = g b) :
    l.flatMap f = l'.flatMap g := by
  induction hall generalizing l' with
  | nil =>
    cases hall'
    rfl
  | cons hhead _ ih =>
    cases hall' with
    | cons hhead' hall' => rw [List.flatMap_cons, List.flatMap_cons, h _ _ _ hhead hhead', ih hall']

/-- What has a key is found with the key. -/
theorem flatMap_keys_perm [DecidableEq β] {keys : List β} (hnodup : keys.Nodup) (key : α → β)
    {l : List α} (h : ∀ a ∈ l, key a ∈ keys) :
    (keys.flatMap fun k => l.filter fun a => key a = k).Perm l := by
  have hfilter : ∀ k, l.filter (fun a => key a = k) =
      l.flatMap fun a => if key a = k then [a] else [] := by
    intro k
    rw [← flatMap_filter_eq l fun a _ hp => if_neg (of_decide_eq_false hp)]
    refine (List.flatMap_singleton' _).symm.trans (List.flatMap_congr fun a ha => ?_)
    rw [if_pos (of_decide_eq_true (List.mem_filter.mp ha).2)]
  simp only [hfilter]
  refine (exchange_perm keys l _).trans (.of_eq ?_)
  refine (List.flatMap_congr fun a ha => ?_).trans (List.flatMap_singleton' l)
  rw [flatMap_eq_of_nodup hnodup (h a ha) fun k _ hk => if_neg hk.symm, if_pos rfl]

end NestedLoops
