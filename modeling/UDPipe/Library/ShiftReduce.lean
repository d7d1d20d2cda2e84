import UDPipe.Library.Joining

/-!
# Shifts and arcs

A shift-reduce parser moves the items of a buffer to a stack, and joins the two topmost
items of the stack by an arc to the left or to the right. With the errors of its arcs
counted it does no better than joining the items of the stack with some items of the buffer one
after another, where only items that have their head in the buffer are left out.
-/

namespace Joining

variable {α : Type*}

section Reduces

variable (IsHead : α → α → Prop) [DecidableRel IsHead] (root : α)

/-- The stack and the buffer can be reduced to the root with a number of errors. -/
inductive Reduces : List α → List α → ℕ → Prop
  | done (errors : ℕ) : Reduces [root] [] errors
  | shift {stack buffer : List α} {item : α} {errors : ℕ}
    (h : Reduces (item :: stack) buffer errors) : Reduces stack (item :: buffer) errors
  | leftArc {stack buffer : List α} {head child : α} {errors : ℕ} (hchild : child ≠ root)
    (h : Reduces (head :: stack) buffer errors) :
    Reduces (head :: child :: stack) buffer (errors + error IsHead head child)
  | rightArc {stack buffer : List α} {head child : α} {errors : ℕ} (hchild : child ≠ root)
    (h : Reduces (head :: stack) buffer errors) :
    Reduces (child :: head :: stack) buffer (errors + error IsHead head child)

end Reduces

variable {IsHead : α → α → Prop} [DecidableRel IsHead] {root : α}

/-! ### Joining instead of reducing -/

/-- Joining can begin with the first item on the left; items whose head is among those on
the right may be lost. -/
theorem Joins.from_left {left right : List α} {first head last : α} {errors : ℕ}
    (h : Joins IsHead root (first :: left) head right last errors)
    (hroot : ∀ a, a = head ∨ a ∈ right → a ≠ root) :
    ∃ right', right'.Sublist (head :: right) ∧
      (∀ a ∈ head :: right, a ∉ right' → ∃ b ∈ head :: right, IsHead b a) ∧
      Joins IsHead root left first right' last errors := by
  generalize hall : first :: left = all at h
  induction h with
  | nil => cases hall
  | @child _ right₀ _ right₁ head last item errors htakes hitem h ih =>
    cases htakes with
    | left =>
      obtain ⟨rfl, rfl⟩ := List.cons.inj hall
      exact ⟨head :: right₀, .refl _, fun a ha hnot => absurd ha hnot, .head (.right _ _) hitem h⟩
    | right =>
      obtain ⟨right', hsub, hlost, hjoins⟩ :=
        ih (fun a ha => hroot a (ha.imp_right (List.mem_cons_of_mem _))) hall
      have hlost' : ∀ a ∈ head :: right₁, a ∉ right' →
          ∃ b ∈ head :: item :: right₁, IsHead b a := by
        intro a ha hnot
        obtain ⟨b, hb, hba⟩ := hlost a ha hnot
        exact ⟨b, by simp only [List.mem_cons] at hb ⊢; tauto, hba⟩
      by_cases hhead : IsHead head item
      · refine ⟨right', hsub.trans ((List.sublist_cons_self _ _).cons_cons head), ?_,
          hjoins.mono (Nat.le_add_right _ _)⟩
        intro a ha hnot
        rcases List.mem_cons.mp ha with rfl | ha
        · exact hlost' a List.mem_cons_self hnot
        · rcases List.mem_cons.mp ha with rfl | ha
          · exact ⟨head, List.mem_cons_self, hhead⟩
          · exact hlost' a (List.mem_cons_of_mem _ ha) hnot
      · -- the item is put in after the old head
        rw [error_of_not hhead]
        have hkeep : ∀ kept : List α, (∀ a, a ∈ kept ↔ a = item ∨ a ∈ right') →
            ∀ a ∈ head :: item :: right₁, a ∉ kept → ∃ b ∈ head :: item :: right₁, IsHead b a := by
          intro kept hkept a ha hnot
          rw [hkept, not_or] at hnot
          refine hlost' a ?_ hnot.2
          simp only [List.mem_cons] at ha ⊢
          tauto
        cases hsub with
        | cons _ hsub =>
          exact ⟨item :: right', (hsub.cons_cons item).cons head,
            hkeep _ fun a => List.mem_cons, hjoins.cons_child hitem⟩
        | @cons_cons right'' _ _ hsub =>
          refine ⟨head :: item :: right'', (hsub.cons_cons item).cons_cons head,
            hkeep _ fun a => ?_, ?_⟩
          · simp only [List.mem_cons]
            tauto
          · exact @Joins.insert_child _ _ _ _ _ _ _ _ _ [head] right'' hjoins hitem
  | @head _ right₀ _ right₁ head last item errors htakes hne h ih =>
    cases htakes with
    | left =>
      obtain ⟨rfl, rfl⟩ := List.cons.inj hall
      exact ⟨head :: right₀, .refl _, fun a ha hnot => absurd ha hnot,
        .child (.right _ _) hne h⟩
    | right =>
      obtain ⟨right', hsub, hlost, hjoins⟩ := ih (fun a ha => by
        rcases ha with rfl | ha
        · exact hroot a (.inr List.mem_cons_self)
        · exact hroot a (.inr (List.mem_cons_of_mem _ ha))) hall
      have hlost' : ∀ a ∈ item :: right₁, a ∉ right' →
          ∃ b ∈ head :: item :: right₁, IsHead b a := by
        intro a ha hnot
        obtain ⟨b, hb, hba⟩ := hlost a ha hnot
        exact ⟨b, List.mem_cons_of_mem _ hb, hba⟩
      by_cases hhead : IsHead item head
      · refine ⟨right', hsub.cons head, ?_, hjoins.mono (Nat.le_add_right _ _)⟩
        intro a ha hnot
        rcases List.mem_cons.mp ha with rfl | ha
        · exact ⟨item, by simp, hhead⟩
        · exact hlost' a ha hnot
      · rw [error_of_not hhead]
        refine ⟨head :: right', hsub.cons_cons head, ?_, hjoins.cons_child hne⟩
        intro a ha hnot
        rcases List.mem_cons.mp ha with rfl | ha
        · exact absurd List.mem_cons_self hnot
        · exact hlost' a ha fun hmem => hnot (List.mem_cons_of_mem _ hmem)

/-- What can be reduced can be joined with some items of the buffer, those with a head
outside of the buffer among them. -/
theorem Reduces.exists_joins {stack buffer : List α} {top : α} {errors : ℕ}
    (h : Reduces IsHead root (top :: stack) buffer errors) (hroot : ∀ a ∈ buffer, a ≠ root) :
    ∃ right, right.Sublist buffer ∧ (∀ a ∈ buffer, a ∉ right → ∃ b ∈ buffer, IsHead b a) ∧
      Joins IsHead root stack top right root errors := by
  generalize hall : top :: stack = all at h
  induction h generalizing top stack with
  | done errors =>
    obtain ⟨rfl, rfl⟩ := List.cons.inj hall
    exact ⟨[], .refl _, by simp, .nil ..⟩
  | @shift stack' buffer item errors h ih =>
    subst hall
    obtain ⟨hitem, hroot⟩ := List.forall_mem_cons.mp hroot
    obtain ⟨right, hsub, hlost, hjoins⟩ := ih hroot rfl
    obtain ⟨right', hsub', hlost', hjoins'⟩ := hjoins.from_left (by
      rintro a (rfl | ha)
      · exact hitem
      · exact hroot a (hsub.subset ha))
    refine ⟨right', hsub'.trans (hsub.cons_cons item), fun a ha hnot => ?_, hjoins'⟩
    by_cases hmem : a ∈ item :: right
    · obtain ⟨b, hb, hba⟩ := hlost' a hmem hnot
      exact ⟨b, (hsub.cons_cons item).subset hb, hba⟩
    · rw [List.mem_cons, not_or] at hmem
      obtain ⟨b, hb, hba⟩ := hlost a ((List.mem_cons.mp ha).resolve_left hmem.1) hmem.2
      exact ⟨b, List.mem_cons_of_mem _ hb, hba⟩
  | @leftArc stack' buffer head child errors hchild h ih =>
    obtain ⟨rfl, rfl⟩ := List.cons.inj hall
    obtain ⟨right, hsub, hlost, hjoins⟩ := ih hroot rfl
    exact ⟨right, hsub, hlost, .child (.left _ _) hchild hjoins⟩
  | @rightArc stack' buffer head child errors hchild h ih =>
    obtain ⟨rfl, rfl⟩ := List.cons.inj hall
    obtain ⟨right, hsub, hlost, hjoins⟩ := ih hroot rfl
    exact ⟨right, hsub, hlost, .head (.left _ _) hchild hjoins⟩

/-! ### Reducing as joined -/

/-- What can be joined can be reduced. -/
theorem Joins.reduces {left right : List α} {head last : α} {errors : ℕ}
    (h : Joins IsHead root left head right last errors) (hlast : last = root) :
    Reduces IsHead root (head :: left) right errors := by
  induction h with
  | nil head errors => exact hlast ▸ .done errors
  | child htakes hitem _ ih =>
    cases htakes with
    | left => exact .leftArc hitem (ih hlast)
    | right => exact .shift (.rightArc hitem (ih hlast))
  | head htakes hne _ ih =>
    cases htakes with
    | left => exact .rightArc hne (ih hlast)
    | right => exact .shift (.leftArc hne (ih hlast))

namespace Reduces

variable {stack front back : List α} {head child : α} {errors : ℕ}

/-- A child behind its head in the buffer is no error. -/
theorem insert_after (h : Reduces IsHead root stack (front ++ head :: back) errors)
    (hchild : child ≠ root) (hhead : IsHead head child) :
    Reduces IsHead root stack (front ++ head :: child :: back) errors := by
  generalize hbuffer : front ++ head :: back = buffer at h
  induction h generalizing front with
  | done => simp at hbuffer
  | @shift stack buffer item errors h ih =>
    rcases List.append_eq_cons_iff.mp hbuffer with ⟨rfl, heq⟩ | ⟨front, rfl, rfl⟩
    · obtain ⟨rfl, rfl⟩ := List.cons.inj heq
      have harc := h.rightArc hchild
      rw [error_of_isHead hhead] at harc
      exact .shift (.shift harc)
    · exact .shift (ih rfl)
  | leftArc hchild' _ ih => exact .leftArc hchild' (ih hbuffer)
  | rightArc hchild' _ ih => exact .rightArc hchild' (ih hbuffer)

/-- A child before its head in the buffer is no error. -/
theorem insert_before (h : Reduces IsHead root stack (front ++ head :: back) errors)
    (hchild : child ≠ root) (hhead : IsHead head child) :
    Reduces IsHead root stack (front ++ child :: head :: back) errors := by
  generalize hbuffer : front ++ head :: back = buffer at h
  induction h generalizing front with
  | done => simp at hbuffer
  | @shift stack buffer item errors h ih =>
    rcases List.append_eq_cons_iff.mp hbuffer with ⟨rfl, heq⟩ | ⟨front, rfl, rfl⟩
    · obtain ⟨rfl, rfl⟩ := List.cons.inj heq
      have harc := h.leftArc hchild
      rw [error_of_isHead hhead] at harc
      exact .shift (.shift harc)
    · exact .shift (ih rfl)
  | leftArc hchild' _ ih => exact .leftArc hchild' (ih hbuffer)
  | rightArc hchild' _ ih => exact .rightArc hchild' (ih hbuffer)

end Reduces

/-- The stack and the buffer can be reduced with a number of errors, beginning with a step. -/
inductive ReducesBy (IsHead : α → α → Prop) [DecidableRel IsHead] (root : α) :
    Move → List α → List α → ℕ → Prop
  | shift {stack buffer : List α} {item : α} {errors : ℕ}
    (h : Reduces IsHead root (item :: stack) buffer errors) :
    ReducesBy IsHead root .shift stack (item :: buffer) errors
  | leftArc {stack buffer : List α} {head child : α} {errors : ℕ} (hchild : child ≠ root)
    (h : Reduces IsHead root (head :: stack) buffer errors) :
    ReducesBy IsHead root .leftArc (head :: child :: stack) buffer
      (error IsHead head child + errors)
  | rightArc {stack buffer : List α} {head child : α} {errors : ℕ} (hchild : child ≠ root)
    (h : Reduces IsHead root (head :: stack) buffer errors) :
    ReducesBy IsHead root .rightArc (child :: head :: stack) buffer
      (error IsHead head child + errors)

namespace ReducesBy

variable {move : Move} {stack front back : List α} {head child : α} {errors : ℕ}

/-- A child behind its head in the buffer is no error. -/
theorem insert_after (h : ReducesBy IsHead root move stack (front ++ head :: back) errors)
    (hchild : child ≠ root) (hhead : IsHead head child) :
    ReducesBy IsHead root move stack (front ++ head :: child :: back) errors := by
  generalize hbuffer : front ++ head :: back = buffer at h
  cases h with
  | shift h =>
    rcases List.append_eq_cons_iff.mp hbuffer with ⟨rfl, heq⟩ | ⟨front, rfl, rfl⟩
    · obtain ⟨rfl, rfl⟩ := List.cons.inj heq
      have harc := h.rightArc hchild
      rw [error_of_isHead hhead] at harc
      exact .shift (.shift harc)
    · exact .shift (h.insert_after hchild hhead)
  | leftArc hchild' h =>
    subst hbuffer
    exact .leftArc hchild' (h.insert_after hchild hhead)
  | rightArc hchild' h =>
    subst hbuffer
    exact .rightArc hchild' (h.insert_after hchild hhead)

/-- A child before its head in the buffer is no error. -/
theorem insert_before (h : ReducesBy IsHead root move stack (front ++ head :: back) errors)
    (hchild : child ≠ root) (hhead : IsHead head child) :
    ReducesBy IsHead root move stack (front ++ child :: head :: back) errors := by
  generalize hbuffer : front ++ head :: back = buffer at h
  cases h with
  | shift h =>
    rcases List.append_eq_cons_iff.mp hbuffer with ⟨rfl, heq⟩ | ⟨front, rfl, rfl⟩
    · obtain ⟨rfl, rfl⟩ := List.cons.inj heq
      have harc := h.leftArc hchild
      rw [error_of_isHead hhead] at harc
      exact .shift (.shift harc)
    · exact .shift (h.insert_before hchild hhead)
  | leftArc hchild' h =>
    subst hbuffer
    exact .leftArc hchild' (h.insert_before hchild hhead)
  | rightArc hchild' h =>
    subst hbuffer
    exact .rightArc hchild' (h.insert_before hchild hhead)

/-- Reducing that begins with a step is reducing. -/
theorem reduces (h : ReducesBy IsHead root move stack front errors) :
    Reduces IsHead root stack front errors := by
  cases h with
  | shift h => exact .shift h
  | leftArc hchild h => exact Nat.add_comm _ _ ▸ .leftArc hchild h
  | rightArc hchild h => exact Nat.add_comm _ _ ▸ .rightArc hchild h

end ReducesBy

/-- Reducing is over, or it begins with a step. -/
theorem Reduces.cases {stack buffer : List α} {errors : ℕ}
    (h : Reduces IsHead root stack buffer errors) :
    stack = [root] ∧ buffer = [] ∨ ∃ move, ReducesBy IsHead root move stack buffer errors := by
  cases h with
  | done => exact .inl ⟨rfl, rfl⟩
  | shift h => exact .inr ⟨.shift, .shift h⟩
  | leftArc hchild h => exact .inr ⟨.leftArc, Nat.add_comm _ _ ▸ .leftArc hchild h⟩
  | rightArc hchild h => exact .inr ⟨.rightArc, Nat.add_comm _ _ ▸ .rightArc hchild h⟩

/-- Joining that begins with a step is reducing that begins with it. -/
theorem Begins.reducesBy {move : Move} {left right : List α} {head : α} {errors : ℕ}
    (h : Begins IsHead root move left head right root errors) :
    ReducesBy IsHead root move (head :: left) right errors := by
  cases h with
  | shift harc h =>
    have hreduces := h.reduces rfl
    rw [Nat.add_comm]
    cases harc with
    | child hitem => exact .shift (.rightArc hitem hreduces)
    | head hhead => exact .shift (.leftArc hhead hreduces)
  | leftArc hitem h => exact .leftArc hitem (h.reduces rfl)
  | rightArc hhead h => exact .rightArc hhead (h.reduces rfl)

/-- An item of the stack with items above it, none of which is its head or its child and
neither is an item of the buffer, costs an error. -/
theorem Reduces.pos_of_blocked {stack buffer : List α} {errors : ℕ}
    (h : Reduces IsHead root stack buffer errors) {above below : List α} {blocked : α}
    (hstack : stack = above ++ blocked :: below) (hne : above ≠ [])
    (happart : ∀ a, a ∈ above ∨ a ∈ buffer → ¬ IsHead a blocked ∧ ¬ IsHead blocked a) :
    0 < errors := by
  induction h generalizing above with
  | done errors =>
    obtain ⟨a, above, rfl⟩ := List.exists_cons_of_ne_nil hne
    simp at hstack
  | @shift stack buffer item errors h ih =>
    refine ih (show item :: stack = (item :: above) ++ blocked :: below by rw [hstack]; rfl)
      (List.cons_ne_nil item above) ?_
    intro a ha
    refine happart a ?_
    simp only [List.mem_cons] at ha ⊢
    tauto
  | @leftArc stack buffer head child errors hchild h ih =>
    obtain ⟨a, above, rfl⟩ := List.exists_cons_of_ne_nil hne
    obtain ⟨rfl, hstack'⟩ := List.cons.inj hstack
    obtain _ | ⟨b, above⟩ := above
    · obtain ⟨rfl, -⟩ := List.cons.inj hstack'
      rw [error_of_not (happart head (.inl List.mem_cons_self)).1]
      exact Nat.succ_pos _
    · obtain ⟨rfl, hstack''⟩ := List.cons.inj hstack'
      refine Nat.add_pos_left (ih (by rw [hstack'']; rfl) (List.cons_ne_nil head above)
        fun a ha => happart a ?_) _
      simp only [List.mem_cons] at ha ⊢
      tauto
  | @rightArc stack buffer head child errors hchild h ih =>
    obtain ⟨a, above, rfl⟩ := List.exists_cons_of_ne_nil hne
    obtain ⟨rfl, hstack'⟩ := List.cons.inj hstack
    obtain _ | ⟨b, above⟩ := above
    · obtain ⟨rfl, -⟩ := List.cons.inj hstack'
      rw [error_of_not (happart child (.inl List.mem_cons_self)).2]
      exact Nat.succ_pos _
    · obtain ⟨rfl, hstack''⟩ := List.cons.inj hstack'
      refine Nat.add_pos_left (ih (by rw [hstack'']; rfl) (List.cons_ne_nil head above)
        fun a ha => happart a ?_) _
      simp only [List.mem_cons] at ha ⊢
      tauto

end Joining
