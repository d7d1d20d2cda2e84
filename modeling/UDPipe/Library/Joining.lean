import Mathlib.Tactic.Common
import Mathlib.Data.List.Sublists

/-!
# Joining a row of items

Between two rows of items stands a head. A neighbour of the head, from the left or from
the right, is joined to it: it becomes a child of the head, or the new head and the old one
its child. When all items are joined, one is left. A wrong arc is an error, and a budget of
errors may be spent. Items that are heads of no other item can be left out, and what is joined
with one more item at the end begins with the same step.
-/

namespace Joining

variable {α : Type*}

/-- The nearest item on the left or on the right is taken. -/
inductive Takes (item : α) : List α → List α → List α → List α → Prop
  | left (left right : List α) : Takes item (item :: left) right left right
  | right (left right : List α) : Takes item left (item :: right) left right

section Joins

variable (IsHead : α → α → Prop) [DecidableRel IsHead] (root : α)

/-- The error of an arc from `head` to `child`. -/
def error (head child : α) : ℕ := if IsHead head child then 0 else 1

/-- The items on the left and on the right (the nearest ones first) can be joined to a head
with a number of errors, and one item is left. The root never is a child. -/
inductive Joins : List α → α → List α → α → ℕ → Prop
  | nil (head : α) (errors : ℕ) : Joins [] head [] head errors
  | child {left right left' right' : List α} {head last item : α} {errors : ℕ}
    (htakes : Takes item left right left' right') (hitem : item ≠ root)
    (h : Joins left' head right' last errors) :
    Joins left head right last (errors + error IsHead head item)
  | head {left right left' right' : List α} {head last item : α} {errors : ℕ}
    (htakes : Takes item left right left' right') (hhead : head ≠ root)
    (h : Joins left' item right' last errors) :
    Joins left head right last (errors + error IsHead item head)

end Joins

namespace Takes

variable {item : α} {left right left' right' : List α}

/-- An item that is taken was one of the items. -/
theorem mem (h : Takes item left right left' right') : item ∈ left ∨ item ∈ right := by
  cases h with
  | left => exact .inl List.mem_cons_self
  | right => exact .inr List.mem_cons_self

/-- The others stay. -/
theorem mem_of_mem (h : Takes item left right left' right') {a : α}
    (ha : a ∈ left' ∨ a ∈ right') : a ∈ left ∨ a ∈ right := by
  cases h with
  | left => exact ha.imp_left (List.mem_cons_of_mem _)
  | right => exact ha.imp_right (List.mem_cons_of_mem _)

/-- More items further away do not matter. -/
theorem append (h : Takes item left right left' right') (left₂ right₂ : List α) :
    Takes item (left ++ left₂) (right ++ right₂) (left' ++ left₂) (right' ++ right₂) := by
  cases h with
  | left => exact .left _ _
  | right => exact .right _ _

/-- More items further on the right do not matter. -/
theorem append_right (h : Takes item left right left' right') (right₂ : List α) :
    Takes item left (right ++ right₂) left' (right' ++ right₂) := by
  simpa using h.append [] right₂

/-- An item that is kept is taken from those that are. -/
theorem filter (h : Takes item left right left' right') {keep : α → Prop} [DecidablePred keep]
    (hkeep : keep item) :
    Takes item left (right.filter keep) left' (right'.filter keep) := by
  cases h with
  | left => exact .left _ _
  | right =>
    rw [List.filter_cons_of_pos (by simpa using hkeep)]
    exact .right _ _

/-- An item is taken from the nearest items or from the others. -/
theorem of_append {left₁ left₂ right₁ right₂ : List α}
    (h : Takes item (left₁ ++ left₂) (right₁ ++ right₂) left' right') :
    (∃ left₁' right₁', Takes item left₁ right₁ left₁' right₁' ∧ left' = left₁' ++ left₂ ∧
        right' = right₁' ++ right₂) ∨
      ∃ left₂' right₂', Takes item left₂ right₂ left₂' right₂' ∧ left' = left₁ ++ left₂' ∧
        right' = right₁ ++ right₂' := by
  generalize hleft : left₁ ++ left₂ = left at h
  generalize hright : right₁ ++ right₂ = right at h
  cases h with
  | left left right =>
    rcases List.append_eq_cons_iff.mp hleft with ⟨rfl, rfl⟩ | ⟨left₁, rfl, rfl⟩
    · exact .inr ⟨_, right₂, .left _ _, rfl, hright.symm⟩
    · exact .inl ⟨left₁, right₁, .left _ _, rfl, hright.symm⟩
  | right left right =>
    rcases List.append_eq_cons_iff.mp hright with ⟨rfl, rfl⟩ | ⟨right₁, rfl, rfl⟩
    · exact .inr ⟨left₂, _, .right _ _, hleft.symm, rfl⟩
    · exact .inl ⟨left₁, right₁, .right _ _, hleft.symm, rfl⟩

/-- Items further away are there before the item is taken, too. -/
theorem exists_of_append {left₁ left₂ right₁ right₂ : List α}
    (h : Takes item left right (left₁ ++ left₂) (right₁ ++ right₂)) :
    ∃ left₁' right₁', Takes item left₁' right₁' left₁ right₁ ∧ left = left₁' ++ left₂ ∧
      right = right₁' ++ right₂ := by
  generalize hleft : left₁ ++ left₂ = left' at h
  generalize hright : right₁ ++ right₂ = right' at h
  cases h with
  | left =>
    subst hleft hright
    exact ⟨item :: left₁, right₁, .left _ _, rfl, rfl⟩
  | right =>
    subst hleft hright
    exact ⟨left₁, item :: right₁, .right _ _, rfl, rfl⟩

end Takes

variable {IsHead : α → α → Prop} [DecidableRel IsHead] {root : α}

/-- An arc is one error at most. -/
theorem error_le (head child : α) : error IsHead head child ≤ 1 := by
  unfold error
  split <;> omega

/-- A right arc is no error. -/
theorem error_of_isHead {head child : α} (h : IsHead head child) :
    error IsHead head child = 0 := if_pos h

/-- A wrong arc is an error. -/
theorem error_of_not {head child : α} (h : ¬ IsHead head child) :
    error IsHead head child = 1 := if_neg h

namespace Joins

variable {left right left' right' : List α} {head last item : α} {errors errors' : ℕ}

/-- The budget may be larger. -/
theorem mono (h : Joins IsHead root left head right last errors) (hle : errors ≤ errors') :
    Joins IsHead root left head right last errors' := by
  induction h generalizing errors' with
  | nil head errors => exact .nil head errors'
  | child htakes hitem _ ih =>
    obtain ⟨k, rfl⟩ := Nat.exists_eq_add_of_le hle
    rw [Nat.add_right_comm]
    exact .child htakes hitem (ih (by omega))
  | head htakes hhead _ ih =>
    obtain ⟨k, rfl⟩ := Nat.exists_eq_add_of_le hle
    rw [Nat.add_right_comm]
    exact .head htakes hhead (ih (by omega))

/-- An item becomes a child, within the budget. -/
theorem takes_child (h : Joins IsHead root left' head right' last errors)
    (htakes : Takes item left right left' right') (hitem : item ≠ root)
    (hle : errors + error IsHead head item ≤ errors') :
    Joins IsHead root left head right last errors' :=
  (Joins.child htakes hitem h).mono hle

/-- An item becomes the head, within the budget. -/
theorem takes_head (h : Joins IsHead root left' item right' last errors)
    (htakes : Takes item left right left' right') (hhead : head ≠ root)
    (hle : errors + error IsHead item head ≤ errors') :
    Joins IsHead root left head right last errors' :=
  (Joins.head htakes hhead h).mono hle

/-- The item that is left was one of them. -/
theorem last_mem (h : Joins IsHead root left head right last errors) :
    last = head ∨ last ∈ left ∨ last ∈ right := by
  induction h with
  | nil head errors => exact .inl rfl
  | child htakes _ _ ih => exact ih.imp_right htakes.mem_of_mem
  | head htakes _ _ ih =>
    rcases ih with rfl | hmem
    · exact .inr htakes.mem
    · exact .inr (htakes.mem_of_mem hmem)

/-- Joining some of the items and then the others. -/
theorem append {left₂ right₂ : List α} {last₂ : α}
    (h : Joins IsHead root left head right last errors)
    (h₂ : Joins IsHead root left₂ last right₂ last₂ errors') :
    Joins IsHead root (left ++ left₂) head (right ++ right₂) last₂ (errors + errors') := by
  induction h with
  | nil head errors => exact h₂.mono (by omega)
  | child htakes hitem _ ih =>
    exact (ih h₂).takes_child (htakes.append left₂ right₂) hitem (by omega)
  | head htakes hhead _ ih =>
    exact (ih h₂).takes_head (htakes.append left₂ right₂) hhead (by omega)

/-- Items on the right can all become children of the head. -/
theorem append_children (h : Joins IsHead root left head right last errors) {children : List α}
    (hchildren : ∀ a ∈ children, a ≠ root) :
    Joins IsHead root left head (children ++ right) last (errors + children.length) := by
  induction children with
  | nil => exact h
  | cons item children ih =>
    have := @error_le _ IsHead _ head item
    obtain ⟨hitem, hchildren⟩ := List.forall_mem_cons.mp hchildren
    exact (ih hchildren).takes_child (.right _ _) hitem (by simp only [List.length_cons]; omega)

/-- The first item on the right becomes a child. -/
theorem cons_child (h : Joins IsHead root left head right last errors) (hitem : item ≠ root) :
    Joins IsHead root left head (item :: right) last (errors + 1) :=
  h.takes_child (.right _ _) hitem (Nat.add_le_add_left (error_le head item) _)

/-- One more item on the right is one more error at most. -/
theorem insert_child {front back : List α}
    (h : Joins IsHead root left head (front ++ back) last errors) (hitem : item ≠ root) :
    Joins IsHead root left head (front ++ item :: back) last (errors + 1) := by
  generalize hright : front ++ back = right at h
  induction h generalizing front with
  | nil head errors =>
    obtain ⟨rfl, rfl⟩ := List.append_eq_nil_iff.mp hright
    exact (Joins.nil head errors).cons_child hitem
  | child htakes hitem' h ih =>
    have hwhole := Joins.child htakes hitem' h
    cases htakes with
    | left => exact (ih hright).takes_child (.left _ _) hitem' (by omega)
    | right =>
      rcases List.append_eq_cons_iff.mp hright with ⟨rfl, rfl⟩ | ⟨front, rfl, rfl⟩
      · exact hwhole.cons_child hitem
      · exact (ih rfl).takes_child (.right _ _) hitem' (by omega)
  | head htakes hhead h ih =>
    have hwhole := Joins.head htakes hhead h
    cases htakes with
    | left => exact (ih hright).takes_head (.left _ _) hhead (by omega)
    | right =>
      rcases List.append_eq_cons_iff.mp hright with ⟨rfl, rfl⟩ | ⟨front, rfl, rfl⟩
      · exact hwhole.cons_child hitem
      · exact (ih rfl).takes_head (.right _ _) hhead (by omega)

/-- A head without right arcs can be any other item. -/
theorem replace_head (h : Joins IsHead root left head right last errors) {head' : α}
    (hhead : head ≠ root) (hhead' : head' ≠ root)
    (happart : ∀ a, a ∈ left ∨ a ∈ right → ¬ IsHead head a ∧ ¬ IsHead a head) :
    ∃ last', Joins IsHead root left head' right last' errors ∧ (last = root → last' = root) := by
  induction h with
  | nil head errors => exact ⟨head', .nil head' errors, fun h => absurd h hhead⟩
  | @child _ _ _ _ head _ item _ htakes hitem _ ih =>
    obtain ⟨last', h', hroot⟩ := ih hhead fun a ha => happart a (htakes.mem_of_mem ha)
    have := @error_le _ IsHead _ head' item
    have := error_of_not (happart item htakes.mem).1
    exact ⟨last', h'.takes_child htakes hitem (by omega), hroot⟩
  | @head _ _ _ _ head last item _ htakes _ h _ =>
    have := @error_le _ IsHead _ item head'
    have := error_of_not (happart item htakes.mem).2
    exact ⟨last, h.takes_head htakes hhead' (by omega), id⟩

/-- Items on the right that are the head of no item that is kept can be left out. -/
theorem filter (h : Joins IsHead root left head right last errors) (keep : α → Prop)
    [DecidablePred keep] (hleft : ∀ a ∈ left, keep a)
    (hdrop : ∀ a, a = head ∨ a ∈ left ∨ a ∈ right → ¬ keep a → a ≠ root ∧
      ∀ b, b = head ∨ b ∈ left ∨ b ∈ right → keep b → ¬ IsHead a b) :
    (keep head → ∃ last', Joins IsHead root left head (right.filter keep) last' errors ∧
      (last = root → last' = root)) ∧
    (¬ keep head → ∀ other, keep other → other ≠ root → ∃ last',
      Joins IsHead root left other (right.filter keep) last' (errors + 1) ∧
        (last = root → last' = root)) := by
  induction h with
  | nil head errors =>
    refine ⟨fun _ => ⟨head, .nil .., id⟩, fun hnot other _ _ => ⟨other, .nil .., fun heq => ?_⟩⟩
    exact absurd heq (hdrop head (.inl rfl) hnot).1
  | @child _ _ _ _ head last item errors htakes hitem h ih =>
    obtain ⟨ihkeep, ihdrop⟩ := ih
      (fun a ha => by
        cases htakes with
        | left => exact hleft a (List.mem_cons_of_mem _ ha)
        | right => exact hleft a ha)
      (fun a ha hnot => by
        obtain ⟨hne, hhead⟩ := hdrop a (ha.imp_right htakes.mem_of_mem) hnot
        exact ⟨hne, fun b hb => hhead b (hb.imp_right htakes.mem_of_mem)⟩)
    have hone (other : α) := @error_le _ IsHead _ other item
    by_cases hkeep : keep item
    · have htakes' := htakes.filter hkeep
      refine ⟨fun hhead => ?_, fun hhead other hother hne => ?_⟩
      · obtain ⟨last', hjoins, hlast⟩ := ihkeep hhead
        exact ⟨last', .child htakes' hitem hjoins, hlast⟩
      · obtain ⟨last', hjoins, hlast⟩ := ihdrop hhead other hother hne
        have hwrong := (hdrop head (.inl rfl) hhead).2 item (.inr htakes.mem) hkeep
        rw [error_of_not hwrong]
        exact ⟨last', hjoins.takes_child htakes' hitem (by have := hone other; omega), hlast⟩
    · cases htakes with
      | left => exact absurd (hleft item List.mem_cons_self) hkeep
      | right =>
        rw [List.filter_cons_of_neg (by simpa using hkeep)]
        refine ⟨fun hhead => ?_, fun hhead other hother hne => ?_⟩
        · obtain ⟨last', hjoins, hlast⟩ := ihkeep hhead
          exact ⟨last', hjoins.mono (by omega), hlast⟩
        · obtain ⟨last', hjoins, hlast⟩ := ihdrop hhead other hother hne
          exact ⟨last', hjoins.mono (by omega), hlast⟩
  | @head _ _ _ _ head last item errors htakes hne h ih =>
    obtain ⟨ihkeep, ihdrop⟩ := ih
      (fun a ha => by
        cases htakes with
        | left => exact hleft a (List.mem_cons_of_mem _ ha)
        | right => exact hleft a ha)
      (fun a ha hnot => by
        have hall : ∀ b, b = item ∨ b ∈ _ ∨ b ∈ _ → b = head ∨ b ∈ _ ∨ b ∈ _ := fun b hb =>
          .inr (hb.elim (fun h => h ▸ htakes.mem) htakes.mem_of_mem)
        obtain ⟨hne, hhead⟩ := hdrop a (hall a ha) hnot
        exact ⟨hne, fun b hb => hhead b (hall b hb)⟩)
    have hone (other : α) := @error_le _ IsHead _ item other
    by_cases hkeep : keep item
    · have htakes' := htakes.filter hkeep
      obtain ⟨last', hjoins, hlast⟩ := ihkeep hkeep
      refine ⟨fun _ => ⟨last', .head htakes' hne hjoins, hlast⟩, fun _ other _ hother => ?_⟩
      exact ⟨last', hjoins.takes_head htakes' hother (by have := hone other; omega), hlast⟩
    · cases htakes with
      | left => exact absurd (hleft item List.mem_cons_self) hkeep
      | right =>
        rw [List.filter_cons_of_neg (by simpa using hkeep)]
        refine ⟨fun hhead => ?_, fun hhead other hother hother' => ?_⟩
        · obtain ⟨last', hjoins, hlast⟩ := ihdrop hkeep head hhead hne
          have hwrong := (hdrop item (.inr (.inr List.mem_cons_self)) hkeep).2 head (.inl rfl) hhead
          rw [error_of_not hwrong]
          exact ⟨last', hjoins, hlast⟩
        · obtain ⟨last', hjoins, hlast⟩ := ihdrop hkeep other hother hother'
          exact ⟨last', hjoins.mono (by omega), hlast⟩

end Joins

/-! ### First and last steps -/

section Begins

variable (IsHead : α → α → Prop) [DecidableRel IsHead] (root : α)

/-- What an item is joined with: a child or a new head. -/
inductive Arc (head item : α) : α → ℕ → Prop
  | child (hitem : item ≠ root) : Arc head item head (error IsHead head item)
  | head (hhead : head ≠ root) : Arc head item item (error IsHead item head)

/-- The first step: an item on the right, or an item on the left as a child or as the head. -/
inductive Move
  | shift
  | leftArc
  | rightArc
  deriving DecidableEq, Repr

/-- The items can be joined to a head with a number of errors, beginning with a step. -/
inductive Begins : Move → List α → α → List α → α → ℕ → Prop
  | shift {left right : List α} {head item next last : α} {errors arcErrors : ℕ}
    (harc : Arc IsHead root head item next arcErrors)
    (h : Joins IsHead root left next right last errors) :
    Begins .shift left head (item :: right) last (arcErrors + errors)
  | leftArc {left right : List α} {head item last : α} {errors : ℕ} (hitem : item ≠ root)
    (h : Joins IsHead root left head right last errors) :
    Begins .leftArc (item :: left) head right last (error IsHead head item + errors)
  | rightArc {left right : List α} {head item last : α} {errors : ℕ} (hhead : head ≠ root)
    (h : Joins IsHead root left item right last errors) :
    Begins .rightArc (item :: left) head right last (error IsHead item head + errors)

end Begins

namespace Joins

variable {left right : List α} {head item next last : α} {errors arcErrors : ℕ}

/-- An arc to the first item. -/
theorem arc {left' right' : List α} (h : Joins IsHead root left' next right' last errors)
    (htakes : Takes item left right left' right')
    (harc : Arc IsHead root head item next arcErrors) :
    Joins IsHead root left head right last (arcErrors + errors) := by
  rw [Nat.add_comm]
  cases harc with
  | child hitem => exact .child htakes hitem h
  | head hhead => exact .head htakes hhead h

/-- An arc to one more item at the end. -/
theorem append_arc (h : Joins IsHead root left head right last errors) {leftEnd rightEnd : List α}
    (htakes : Takes item leftEnd rightEnd [] []) (harc : Arc IsHead root last item next arcErrors) :
    Joins IsHead root (left ++ leftEnd) head (right ++ rightEnd) next (errors + arcErrors) :=
  h.append ((Joins.nil next 0).arc htakes harc)

/-- The last step. -/
theorem exists_last (h : Joins IsHead root left head right last errors)
    (hne : ¬ (left = [] ∧ right = [])) :
    ∃ left' right' leftEnd rightEnd item last' errors' arcErrors, left = left' ++ leftEnd ∧
      right = right' ++ rightEnd ∧ Takes item leftEnd rightEnd [] [] ∧
      Joins IsHead root left' head right' last' errors' ∧
      Arc IsHead root last' item last arcErrors ∧ errors' + arcErrors ≤ errors := by
  have hstep {left right left' right' : List α} {head item next last : α} {errors arcErrors : ℕ}
      (htakes : Takes item left right left' right')
      (harc : Arc IsHead root head item next arcErrors)
      (h : Joins IsHead root left' next right' last errors)
      (ih : ¬ (left' = [] ∧ right' = []) →
        ∃ left₂ right₂ leftEnd rightEnd item last' errors' arcErrors, left' = left₂ ++ leftEnd ∧
          right' = right₂ ++ rightEnd ∧ Takes item leftEnd rightEnd [] [] ∧
          Joins IsHead root left₂ next right₂ last' errors' ∧
          Arc IsHead root last' item last arcErrors ∧ errors' + arcErrors ≤ errors) :
      ∃ left₂ right₂ leftEnd rightEnd item last' errors' arcErrors', left = left₂ ++ leftEnd ∧
        right = right₂ ++ rightEnd ∧ Takes item leftEnd rightEnd [] [] ∧
        Joins IsHead root left₂ head right₂ last' errors' ∧
        Arc IsHead root last' item last arcErrors' ∧ errors' + arcErrors' ≤ errors + arcErrors := by
    by_cases hempty : left' = [] ∧ right' = []
    · obtain ⟨rfl, rfl⟩ := hempty
      obtain rfl : last = next := by simpa using h.last_mem
      exact ⟨[], [], left, right, item, head, 0, arcErrors, rfl, rfl, htakes, .nil .., harc,
        by omega⟩
    · obtain ⟨left₂, right₂, leftEnd, rightEnd, item', last', errors', arcErrors', rfl, rfl,
        htakes', hjoins, harc', hle⟩ := ih hempty
      rcases htakes.exists_of_append with ⟨left₃, right₃, hfirst, rfl, rfl⟩
      exact ⟨left₃, right₃, leftEnd, rightEnd, item', last', _, arcErrors', rfl, rfl, htakes',
        hjoins.arc hfirst harc, harc', by omega⟩
  induction h with
  | nil => exact absurd ⟨rfl, rfl⟩ hne
  | child htakes hitem h ih => exact hstep htakes (.child hitem) h ih
  | head htakes hhead h ih => exact hstep htakes (.head hhead) h ih

/-- All arcs may be wrong. -/
theorem le_length (h : Joins IsHead root left head right last errors) :
    Joins IsHead root left head right last (left.length + right.length) := by
  have hlength {left right left' right' : List α} {item : α}
      (htakes : Takes item left right left' right') :
      left'.length + right'.length + 1 = left.length + right.length := by
    cases htakes <;> simp only [List.length_cons] <;> omega
  induction h with
  | nil head => exact .nil head _
  | child htakes hitem _ ih =>
    exact ih.takes_child htakes hitem
      ((Nat.add_le_add_left (error_le _ _) _).trans (hlength htakes).le)
  | head htakes hhead _ ih =>
    exact ih.takes_head htakes hhead
      ((Nat.add_le_add_left (error_le _ _) _).trans (hlength htakes).le)

/-- A row with the root at its bottom can be joined. -/
theorem exists_of_bottom (hbottom : (head :: left).getLast? = some root)
    (hnodup : (head :: left).Nodup) (hright : ∀ a ∈ right, a ≠ root) :
    ∃ errors, Joins IsHead root left head right root errors := by
  suffices h : ∃ errors, Joins IsHead root left head [] root errors by
    obtain ⟨errors, h⟩ := h
    exact ⟨_, by simpa using h.append_children hright⟩
  induction left generalizing head with
  | nil =>
    obtain rfl : head = root := by simpa using hbottom
    exact ⟨0, .nil ..⟩
  | cons item left ih =>
    rw [List.getLast?_cons_cons] at hbottom
    obtain ⟨hnot, hnodup⟩ := List.nodup_cons.mp hnodup
    obtain ⟨errors, h⟩ := ih hbottom hnodup
    have hhead : head ≠ root := by
      rintro rfl
      exact hnot (List.mem_of_getLast? hbottom)
    exact ⟨_, .head (.left _ _) hhead h⟩

end Joins

namespace Begins

variable {move : Move} {left right : List α} {head item next last : α} {errors arcErrors : ℕ}

/-- Joining that begins with a step is joining. -/
theorem joins (h : Begins IsHead root move left head right last errors) :
    Joins IsHead root left head right last errors := by
  cases h with
  | shift harc h => exact h.arc (.right _ _) harc
  | leftArc hitem h => exact h.arc (.left _ _) (.child hitem)
  | rightArc hhead h => exact h.arc (.left _ _) (.head hhead)

/-- An arc to one more item at the end does not change the first step. -/
theorem append_arc (h : Begins IsHead root move left head right last errors)
    {leftEnd rightEnd : List α} (htakes : Takes item leftEnd rightEnd [] [])
    (harc : Arc IsHead root last item next arcErrors) :
    Begins IsHead root move (left ++ leftEnd) head (right ++ rightEnd) next
      (errors + arcErrors) := by
  cases h with
  | shift harc' h =>
    rw [Nat.add_assoc]
    exact .shift harc' (h.append_arc htakes harc)
  | leftArc hitem h =>
    rw [Nat.add_assoc]
    exact .leftArc hitem (h.append_arc htakes harc)
  | rightArc hhead h =>
    rw [Nat.add_assoc]
    exact .rightArc hhead (h.append_arc htakes harc)

end Begins

end Joining
