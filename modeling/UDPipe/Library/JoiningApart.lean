import UDPipe.Library.Joining

/-!
# Joining items apart from one another

Items of two kinds without right arcs between them can be joined apart. So the items that are
nearest can be joined in another way that costs as much, and the head of one of them can be put in
behind the others: the errors stay the same, or an item with its head further on can be left out.
-/

namespace Joining

variable {α : Type*} {IsHead : α → α → Prop} [DecidableRel IsHead] {root : α}

/-! ### Items without common arcs -/

/-- There is no right arc between the items of one kind and those of another. -/
def Apart (IsHead : α → α → Prop) (A B : α → Prop) : Prop :=
  ∀ a b, A a → B b → ¬ IsHead a b ∧ ¬ IsHead b a

namespace Apart

variable {A B : α → Prop}

/-- An arc from one kind to the other is an error. -/
theorem error_eq (h : Apart IsHead A B) {a b : α} (ha : A a) (hb : B b) :
    error IsHead a b = 1 := error_of_not (h a b ha hb).1

/-- An arc from the other kind to the one is an error. -/
theorem error_eq' (h : Apart IsHead A B) {a b : α} (ha : A a) (hb : B b) :
    error IsHead b a = 1 := error_of_not (h a b ha hb).2

end Apart

namespace Joins

variable {left right : List α} {head last : α} {errors : ℕ} {A B : α → Prop}

/-- The nearest items, of one kind, and the others, of another kind, can be joined apart. -/
theorem split (h : Joins IsHead root left head right last errors) (happart : Apart IsHead A B)
    {leftA leftB rightA rightB : List α} (hleft : left = leftA ++ leftB)
    (hright : right = rightA ++ rightB)
    (hA : ∀ a, a ∈ leftA ∨ a ∈ rightA → A a) (hB : ∀ b, b ∈ leftB ∨ b ∈ rightB → B b)
    (hAroot : ∀ a, A a → a ≠ root) {headA headB : α} (hheadA : A headA)
    (hheadB : headB = root → head = root) (hhead : head = headA ∨ head = headB ∧ B headB) :
    ∃ lastA errorsA lastB errorsB, Joins IsHead root leftA headA rightA lastA errorsA ∧
      Joins IsHead root leftB headB rightB lastB errorsB ∧ errorsA + errorsB ≤ errors ∧
      (last = root → lastB = root) := by
  induction h generalizing leftA leftB rightA rightB headA headB with
  | nil head errors =>
    obtain ⟨rfl, rfl⟩ := List.append_eq_nil_iff.mp hleft.symm
    obtain ⟨rfl, rfl⟩ := List.append_eq_nil_iff.mp hright.symm
    refine ⟨headA, 0, headB, errors, .nil .., .nil .., by omega, ?_⟩
    rintro rfl
    rcases hhead with rfl | ⟨rfl, -⟩
    · exact absurd rfl (hAroot _ hheadA)
    · rfl
  | @child _ _ _ _ head last item errors htakes hitem h ih =>
    subst hleft hright
    rcases htakes.of_append with
      ⟨left', right', htakes', rfl, rfl⟩ | ⟨left', right', htakes', rfl, rfl⟩
    · obtain ⟨lastA, errorsA, lastB, errorsB, hjoinsA, hjoinsB, hle, hlast⟩ :=
        ih rfl rfl (fun a ha => hA a (htakes'.mem_of_mem ha)) hB hheadA hheadB hhead
      have herror : error IsHead headA item ≤ error IsHead head item := by
        rcases hhead with rfl | ⟨rfl, hheadB'⟩
        · exact le_rfl
        · exact (error_le _ _).trans (happart.error_eq' (hA item htakes'.mem) hheadB').ge
      exact ⟨lastA, _, lastB, errorsB, .child htakes' hitem hjoinsA, hjoinsB, by omega, hlast⟩
    · obtain ⟨lastA, errorsA, lastB, errorsB, hjoinsA, hjoinsB, hle, hlast⟩ :=
        ih rfl rfl hA (fun b hb => hB b (htakes'.mem_of_mem hb)) hheadA hheadB hhead
      have herror : error IsHead headB item ≤ error IsHead head item := by
        rcases hhead with rfl | ⟨rfl, -⟩
        · exact (error_le _ _).trans (happart.error_eq hheadA (hB item htakes'.mem)).ge
        · exact le_rfl
      exact ⟨lastA, errorsA, lastB, _, hjoinsA, .child htakes' hitem hjoinsB, by omega, hlast⟩
  | @head _ _ _ _ head last item errors htakes hne h ih =>
    subst hleft hright
    have hneB : headB ≠ root := fun h => hne (hheadB h)
    rcases htakes.of_append with
      ⟨left', right', htakes', rfl, rfl⟩ | ⟨left', right', htakes', rfl, rfl⟩
    · have hitemA := hA item htakes'.mem
      obtain ⟨lastA, errorsA, lastB, errorsB, hjoinsA, hjoinsB, hle, hlast⟩ :=
        ih rfl rfl (fun a ha => hA a (htakes'.mem_of_mem ha)) hB hitemA
          (fun h => absurd h hneB) (.inl rfl)
      have herror : error IsHead item headA ≤ error IsHead item head := by
        rcases hhead with rfl | ⟨rfl, hheadB'⟩
        · exact le_rfl
        · exact (error_le _ _).trans (happart.error_eq hitemA hheadB').ge
      exact ⟨lastA, _, lastB, errorsB, .head htakes' (hAroot _ hheadA) hjoinsA, hjoinsB, by omega,
        hlast⟩
    · have hitemB := hB item htakes'.mem
      obtain ⟨lastA, errorsA, lastB, errorsB, hjoinsA, hjoinsB, hle, hlast⟩ :=
        ih rfl rfl hA (fun b hb => hB b (htakes'.mem_of_mem hb)) hheadA
          (fun h => h) (.inr ⟨rfl, hitemB⟩)
      have herror : error IsHead item headB ≤ error IsHead item head := by
        rcases hhead with rfl | ⟨rfl, -⟩
        · exact (error_le _ _).trans (happart.error_eq' hheadA hitemB).ge
        · exact le_rfl
      exact ⟨lastA, errorsA, lastB, _, hjoinsA, .head htakes' hneB hjoinsB, by omega, hlast⟩

/-- What was joined apart is joined one after the other. -/
theorem append_apart {leftA leftB rightA rightB : List α} {lastA lastB : α} {errorsA errorsB : ℕ}
    (hjoinsA : Joins IsHead root leftA head rightA lastA errorsA)
    (hjoinsB : Joins IsHead root leftB head rightB lastB errorsB)
    (hroot : ∀ a, a = head ∨ a ∈ leftA ∨ a ∈ rightA → a ≠ root)
    (happart : ∀ b, b ∈ leftB ∨ b ∈ rightB → ¬ IsHead head b ∧ ¬ IsHead b head) :
    ∃ last, Joins IsHead root (leftA ++ leftB) head (rightA ++ rightB) last (errorsA + errorsB) ∧
      (lastB = root → last = root) := by
  obtain ⟨last, hjoins, hlast⟩ := hjoinsB.replace_head (hroot head (.inl rfl))
    (hroot lastA hjoinsA.last_mem) happart
  exact ⟨last, hjoinsA.append hjoins, hlast⟩

end Joins

/-! ### Items whose head comes later -/

/-- An item on the right whose head is further to the right can be left out. -/
def Drops (IsHead : α → α → Prop) [DecidableRel IsHead] (root : α) (left : List α) (head : α)
    (right : List α) (errors : ℕ) : Prop :=
  ∃ front item back last, right = front ++ item :: back ∧ (∃ a ∈ back, IsHead a item) ∧
    Joins IsHead root left head (front ++ back) last errors

namespace Drops

variable {left right left' right' : List α} {head item : α} {errors errors' : ℕ}

/-- Another item becomes a child before. -/
theorem takes_child (h : Drops IsHead root left' head right' errors)
    (htakes : Takes item left right left' right') (hitem : item ≠ root)
    (hle : errors + error IsHead head item ≤ errors') :
    Drops IsHead root left head right errors' := by
  obtain ⟨front, a, back, last, rfl, hhead, hjoins⟩ := h
  cases htakes with
  | left left => exact ⟨front, a, back, last, rfl, hhead, hjoins.takes_child (.left _ _) hitem hle⟩
  | right =>
    exact ⟨item :: front, a, back, last, rfl, hhead, hjoins.takes_child (.right _ _) hitem hle⟩

/-- Another item becomes the head before. -/
theorem takes_head (h : Drops IsHead root left' item right' errors)
    (htakes : Takes item left right left' right') (hne : head ≠ root)
    (hle : errors + error IsHead item head ≤ errors') :
    Drops IsHead root left head right errors' := by
  obtain ⟨front, a, back, last, rfl, hhead, hjoins⟩ := h
  cases htakes with
  | left left => exact ⟨front, a, back, last, rfl, hhead, hjoins.takes_head (.left _ _) hne hle⟩
  | right =>
    exact ⟨item :: front, a, back, last, rfl, hhead, hjoins.takes_head (.right _ _) hne hle⟩

end Drops

/-- The items on the left can be joined to the head, and `count` errors are left. -/
def Settles (IsHead : α → α → Prop) [DecidableRel IsHead] (root : α) (left : List α) (head : α)
    (count errors : ℕ) : Prop :=
  ∃ last used, Joins IsHead root left head [] last used ∧ used + count ≤ errors

namespace Settles

variable {left left' right right' : List α} {head item : α} {count errors errors' : ℕ}

/-- An item on the left becomes a child before. -/
theorem left_child (h : Settles IsHead root left head count errors) (hitem : item ≠ root)
    (hle : errors + error IsHead head item ≤ errors') :
    Settles IsHead root (item :: left) head count errors' := by
  obtain ⟨last, used, hjoins, hused⟩ := h
  exact ⟨last, _, .child (.left _ _) hitem hjoins, by omega⟩

/-- An item on the left becomes the head before. -/
theorem left_head (h : Settles IsHead root left item count errors) (hne : head ≠ root)
    (hle : errors + error IsHead item head ≤ errors') :
    Settles IsHead root (item :: left) head count errors' := by
  obtain ⟨last, used, hjoins, hused⟩ := h
  exact ⟨last, _, .head (.left _ _) hne hjoins, by omega⟩

/-- One more error is left of a larger budget. -/
theorem succ (h : Settles IsHead root left head count errors) (hle : errors + 1 ≤ errors') :
    Settles IsHead root left head (count + 1) errors' := by
  obtain ⟨last, used, hjoins, hused⟩ := h
  exact ⟨last, used, hjoins, by omega⟩

end Settles

namespace Joins

variable {left right : List α} {head last item : α} {errors : ℕ} {A B : α → Prop}

/-- When the items on the right have no arcs in common with those on the left and none to
later ones, all of them are errors, unless one of them gets its own head, which comes later. -/
theorem settle (h : Joins IsHead root left head right last errors) (happart : Apart IsHead A B)
    (hleft : ∀ b ∈ left, B b) (hright : ∀ a ∈ right, A a) :
    (B head → right.Pairwise (fun a b => ¬ IsHead a b) →
      Settles IsHead root left head right.length errors ∨
        Drops IsHead root left head right errors) ∧
    (A head → (head :: right).Pairwise (fun a b => ¬ IsHead a b) →
      (∀ other ≠ root, Settles IsHead root left other right.length errors) ∨
        Drops IsHead root left head right errors ∨
        ((∃ a ∈ right, IsHead a head) ∧ ∀ other ≠ root, ∃ last',
          Joins IsHead root left other right last' (errors + 1))) := by
  induction h with
  | nil head errors =>
    exact ⟨fun _ _ => .inl ⟨head, errors, .nil .., le_rfl⟩,
      fun _ _ => .inl fun other _ => ⟨other, errors, .nil .., le_rfl⟩⟩
  | @child _ _ _ right' head last item errors htakes hitem h ih =>
    cases htakes with
    | left =>
      obtain ⟨hitemB, hleft⟩ := List.forall_mem_cons.mp hleft
      obtain ⟨ihB, ihA⟩ := ih hleft hright
      refine ⟨fun hB hlater => ?_, fun hA hlater => ?_⟩
      · exact (ihB hB hlater).imp (·.left_child hitem le_rfl)
          (·.takes_child (.left _ _) hitem le_rfl)
      · rw [happart.error_eq hA hitemB]
        have hone (other : α) := @error_le _ IsHead _ other item
        rcases ihA hA hlater with hsettles | hdrops | ⟨hhead, hjoins⟩
        · exact .inl fun other hne =>
            (hsettles other hne).left_child hitem (by have := hone other; omega)
        · exact .inr (.inl (hdrops.takes_child (.left _ _) hitem (by have := hone head; omega)))
        · refine .inr (.inr ⟨hhead, fun other hne => ?_⟩)
          obtain ⟨last', hjoins⟩ := hjoins other hne
          exact ⟨last', hjoins.takes_child (.left _ _) hitem (by have := hone other; omega)⟩
    | right =>
      obtain ⟨hitemA, hright⟩ := List.forall_mem_cons.mp hright
      obtain ⟨ihB, ihA⟩ := ih hleft hright
      have hone (other : α) := @error_le _ IsHead _ other item
      refine ⟨fun hB hlater => ?_, fun hA hlater => ?_⟩
      · rw [happart.error_eq' hitemA hB]
        exact (ihB hB hlater.of_cons).imp (·.succ le_rfl)
          (·.takes_child (.right _ _) hitem (by have := hone head; omega))
      · obtain ⟨hhead, hlater⟩ := List.pairwise_cons.mp hlater
        have hlater' : (head :: right').Pairwise fun a b => ¬ IsHead a b :=
          List.pairwise_cons.mpr ⟨fun a ha => hhead a (List.mem_cons_of_mem _ ha), hlater.of_cons⟩
        rw [error_of_not (hhead item List.mem_cons_self)]
        rcases ihA hA hlater' with hsettles | hdrops | ⟨⟨a, ha, hahead⟩, hjoins⟩
        · exact .inl fun other hne => (hsettles other hne).succ le_rfl
        · exact .inr (.inl (hdrops.takes_child (.right _ _) hitem (by have := hone head; omega)))
        · refine .inr (.inr ⟨⟨a, List.mem_cons_of_mem _ ha, hahead⟩, fun other hne => ?_⟩)
          obtain ⟨last', hjoins⟩ := hjoins other hne
          exact ⟨last', hjoins.takes_child (.right _ _) hitem (by have := hone other; omega)⟩
  | @head left _ _ right' head last item errors htakes hne h ih =>
    cases htakes with
    | left =>
      obtain ⟨hitemB, hleft⟩ := List.forall_mem_cons.mp hleft
      obtain ⟨ihB, -⟩ := ih hleft hright
      refine ⟨fun hB hlater => ?_, fun hA hlater => ?_⟩
      · exact (ihB hitemB hlater).imp (·.left_head hne le_rfl) (·.takes_head (.left _ _) hne le_rfl)
      · rw [happart.error_eq' hA hitemB]
        have hone (other : α) := @error_le _ IsHead _ item other
        rcases ihB hitemB hlater.of_cons with hsettles | hdrops
        · exact .inl fun other hother => hsettles.left_head hother (by have := hone other; omega)
        · exact .inr (.inl (hdrops.takes_head (.left _ _) hne (by have := hone head; omega)))
    | right =>
      obtain ⟨hitemA, hright⟩ := List.forall_mem_cons.mp hright
      obtain ⟨-, ihA⟩ := ih hleft hright
      have hone (other : α) := @error_le _ IsHead _ item other
      -- the new head is left out if it gets its own head later
      have hcases (hlater : (item :: right').Pairwise fun a b => ¬ IsHead a b) :
          (∀ other ≠ root, Settles IsHead root left other (item :: right').length (errors + 1)) ∨
            Drops IsHead root left head (item :: right') (errors + 1) := by
        rcases ihA hitemA hlater with hsettles | hdrops | ⟨hhead, hjoins⟩
        · exact .inl fun other hother => (hsettles other hother).succ le_rfl
        · exact .inr (hdrops.takes_head (.right _ _) hne (by have := hone head; omega))
        · obtain ⟨last', hjoins⟩ := hjoins head hne
          exact .inr ⟨[], item, right', last', rfl, hhead, hjoins⟩
      refine ⟨fun hB hlater => ?_, fun hA hlater => ?_⟩
      · rw [happart.error_eq hitemA hB]
        exact (hcases hlater).imp_left fun hsettles => hsettles head hne
      · by_cases hhead : IsHead item head
        · refine .inr (.inr ⟨⟨item, List.mem_cons_self, hhead⟩, fun other hother => ?_⟩)
          exact ⟨last, h.takes_head (.right _ _) hother (by have := hone other; omega)⟩
        · rw [error_of_not hhead]
          exact (hcases hlater.of_cons).imp_right .inl

/-! ### Putting in the head of an item -/

section Insert

variable {x m : α} (hm : IsHead m x) (hmroot : m ≠ root) (hxroot : x ≠ root)
  (happart : Apart IsHead A B) (hother : ∀ a, A a ∨ B a → ¬ IsHead a x)
  (hAroot : ∀ a, A a → a ≠ root)

include hm hmroot hxroot happart hother hAroot

/-- The head of the present head can be put in last, unless another item can be left out. -/
theorem insert_of_head (h : Joins IsHead root left x right last errors)
    (hleft : ∀ b ∈ left, B b) (hright : ∀ a ∈ right, A a)
    (hlater : right.Pairwise fun a b => ¬ IsHead a b) :
    (∃ last', Joins IsHead root left x (right ++ [m]) last' errors) ∨
      Drops IsHead root left x right errors := by
  generalize hhead : x = head at h
  induction h with
  | nil head errors =>
    subst hhead
    exact .inl ⟨m, (Joins.nil m errors).takes_head (.right _ _) hxroot
      (by rw [error_of_isHead hm]; omega)⟩
  | @child _ _ _ _ head last item errors htakes hitem h ih =>
    have hih := ih (fun b hb => ?_) (fun a ha => ?_) ?_ hhead
    · refine hih.imp ?_ (·.takes_child htakes hitem le_rfl)
      rintro ⟨last', hjoins⟩
      exact ⟨last', hjoins.takes_child (htakes.append_right [m]) hitem le_rfl⟩
    all_goals cases htakes
    · exact hleft b (List.mem_cons_of_mem _ hb)
    · exact hleft b hb
    · exact hright a ha
    · exact hright a (List.mem_cons_of_mem _ ha)
    · exact hlater
    · exact hlater.of_cons
  | @head left₁ _ _ right' head last item errors htakes hne h ih =>
    subst hhead
    cases htakes with
    | left =>
      obtain ⟨hitemB, hleft⟩ := List.forall_mem_cons.mp hleft
      rw [error_of_not (hother item (.inr hitemB))]
      rcases (h.settle happart hleft hright).1 hitemB hlater with
        ⟨last', used, hjoins, hle⟩ | hdrops
      · have hone := @error_le _ IsHead _ item m
        have hput : Joins IsHead root (item :: _) x [m] last' (used + 1) :=
          (hjoins.head (.left _ _) hmroot).takes_head (.right _ []) hxroot
            (by rw [error_of_isHead hm]; omega)
        have hall := hput.append_children fun a ha => hAroot a (hright a ha)
        exact .inl ⟨last', hall.mono (by omega)⟩
      · exact .inr (hdrops.takes_head (.left _ _) hne
          (Nat.add_le_add_left (error_le item x) _))
    | right =>
      obtain ⟨hitemA, hright'⟩ := List.forall_mem_cons.mp hright
      rw [error_of_not (hother item (.inl hitemA))]
      rcases (h.settle happart hleft hright').2 hitemA hlater with
        hsettles | hdrops | ⟨hhead, hjoins⟩
      · obtain ⟨last', used, hjoins, hle⟩ := hsettles m hmroot
        have hput : Joins IsHead root _ x [m] last' used :=
          hjoins.takes_head (.right _ []) hxroot (by rw [error_of_isHead hm]; omega)
        have hall := hput.append_children fun a ha => hAroot a (hright a ha)
        exact .inl ⟨last', hall.mono (by simp only [List.length_cons]; omega)⟩
      · exact .inr (hdrops.takes_head (.right _ _) hne
          (Nat.add_le_add_left (error_le item x) _))
      · obtain ⟨last', hjoins⟩ := hjoins x hxroot
        exact .inr ⟨[], item, right', last', rfl, hhead, hjoins⟩

/-- The head of an item on the left can be put in last on the right, when only items
without arcs to those behind it are nearer, unless another item can be left out. -/
theorem insert_of_left {front : List α}
    (h : Joins IsHead root (front ++ x :: left) head right last errors) (hhead : A head)
    (hfront : ∀ a ∈ front, A a) (hleft : ∀ b ∈ left, B b) (hright : ∀ a ∈ right, A a)
    (hlater : right.Pairwise fun a b => ¬ IsHead a b) :
    (∃ last', Joins IsHead root (front ++ x :: left) head (right ++ [m]) last' errors) ∨
      Drops IsHead root (front ++ x :: left) head right errors := by
  generalize hall : front ++ x :: left = all at h
  induction h generalizing front with
  | nil => simp at hall
  | @child _ _ left₁ right' head last item errors htakes hitem h ih =>
    cases htakes with
    | left =>
      rcases List.append_eq_cons_iff.mp hall with ⟨rfl, hxleft⟩ | ⟨front, rfl, rfl⟩
      · obtain ⟨rfl, rfl⟩ := List.cons.inj hxleft
        have hheadroot := hAroot head hhead
        obtain ⟨lastA, errorsA, lastB, errorsB, hjoinsA, hjoinsB, hle, -⟩ :=
          h.split happart (List.nil_append _).symm (List.append_nil _).symm
            (by simpa using hright) (by simpa using hleft) hAroot hhead id (.inl rfl)
        have hlastA : lastA ≠ root := by
          rcases hjoinsA.last_mem with rfl | hmem | hmem
          · exact hheadroot
          · cases hmem
          · exact hAroot lastA (hright lastA hmem)
        obtain ⟨last', hput, -⟩ := hjoinsB.replace_head hheadroot hmroot
          fun b hb => happart head b hhead (hleft b (by simpa using hb))
        have hone := @error_le _ IsHead _ m lastA
        have hone' := error_of_not (hother head (.inl hhead))
        have hchild : Joins IsHead root (x :: _) m [] last' errorsB :=
          hput.takes_child (.left _ _) hxroot (by rw [error_of_isHead hm]; omega)
        have hput' := hjoinsA.append (hchild.head (.right _ []) hlastA)
        exact .inl ⟨last', hput'.mono (by omega)⟩
      · have hih := ih hhead (fun a ha => hfront a (List.mem_cons_of_mem _ ha)) hright hlater rfl
        refine hih.imp ?_ (·.takes_child (.left _ _) hitem le_rfl)
        rintro ⟨last', hjoins⟩
        exact ⟨last', hjoins.takes_child (.left _ _) hitem le_rfl⟩
    | right =>
      obtain ⟨hitemA, hright⟩ := List.forall_mem_cons.mp hright
      have hih := ih hhead hfront hright hlater.of_cons hall
      refine hih.imp ?_ (·.takes_child (.right _ _) hitem le_rfl)
      rintro ⟨last', hjoins⟩
      exact ⟨last', hjoins.takes_child (.right _ _) hitem le_rfl⟩
  | @head _ _ left₁ right' head last item errors htakes hne h ih =>
    cases htakes with
    | left =>
      rcases List.append_eq_cons_iff.mp hall with ⟨rfl, hxleft⟩ | ⟨front, rfl, rfl⟩
      · obtain ⟨rfl, rfl⟩ := List.cons.inj hxleft
        have hput := h.insert_of_head hm hmroot hxroot happart hother hAroot hleft hright hlater
        refine hput.imp ?_ (·.takes_head (.left _ _) hne le_rfl)
        rintro ⟨last', hjoins⟩
        exact ⟨last', hjoins.takes_head (.left _ _) hne le_rfl⟩
      · obtain ⟨hitemA, hfront⟩ := List.forall_mem_cons.mp hfront
        have hih := ih hitemA hfront hright hlater rfl
        refine hih.imp ?_ (·.takes_head (.left _ _) hne le_rfl)
        rintro ⟨last', hjoins⟩
        exact ⟨last', hjoins.takes_head (.left _ _) hne le_rfl⟩
    | right =>
      obtain ⟨hitemA, hright⟩ := List.forall_mem_cons.mp hright
      have hih := ih hitemA hfront hright hlater.of_cons hall
      refine hih.imp ?_ (·.takes_head (.right _ _) hne le_rfl)
      rintro ⟨last', hjoins⟩
      exact ⟨last', hjoins.takes_head (.right _ _) hne le_rfl⟩

end Insert

/-- The head of the last item on the right can be put in behind it. -/
theorem insert_of_last {c m : α} {front : List α} (hm : IsHead m c) (hmroot : m ≠ root)
    (hcroot : c ≠ root) (hother : ∀ a, A a → ¬ IsHead a c) (hAroot : ∀ a, A a → a ≠ root)
    (h : Joins IsHead root left head (front ++ [c]) last errors) (hhead : A head)
    (hleft : ∀ a ∈ left, A a) (hfront : ∀ a ∈ front, A a) :
    ∃ last', Joins IsHead root left head (front ++ [c, m]) last' errors := by
  generalize hright : front ++ [c] = right at h
  induction h generalizing front with
  | nil => simp at hright
  | @child left₁ _ left₂ right₂ head last item errors htakes hitem h ih =>
    cases htakes with
    | left =>
      obtain ⟨-, hleft⟩ := List.forall_mem_cons.mp hleft
      obtain ⟨last', hjoins⟩ := ih hhead hleft hfront hright
      exact ⟨last', hjoins.takes_child (.left _ _) hitem le_rfl⟩
    | right =>
      rcases List.append_eq_cons_iff.mp hright with ⟨rfl, hc⟩ | ⟨front, rfl, rfl⟩
      · -- `c` becomes the head at the end only
        obtain ⟨rfl, rfl⟩ := List.cons.inj hc
        have hlast : last ≠ root := by
          rcases h.last_mem with rfl | hmem | hmem
          · exact hAroot last hhead
          · exact hAroot last (hleft last hmem)
          · cases hmem
        have hone := @error_le _ IsHead _ c last
        have hnil : Joins IsHead root [] m [] m 0 := .nil m 0
        have hend := (hnil.head (.right _ []) hcroot).head (.right _ _) hlast
        have hput := h.append hend
        rw [List.append_nil, error_of_isHead hm] at hput
        exact ⟨m, hput.mono (by rw [error_of_not (hother head hhead)]; omega)⟩
      · obtain ⟨-, hfront⟩ := List.forall_mem_cons.mp hfront
        obtain ⟨last', hjoins⟩ := ih hhead hleft hfront rfl
        exact ⟨last', hjoins.takes_child (.right _ _) hitem le_rfl⟩
  | @head left₁ _ left₂ right₂ head last item errors htakes hne h ih =>
    cases htakes with
    | left =>
      obtain ⟨hitem, hleft⟩ := List.forall_mem_cons.mp hleft
      obtain ⟨last', hjoins⟩ := ih hitem hleft hfront hright
      exact ⟨last', hjoins.takes_head (.left _ _) hne le_rfl⟩
    | right =>
      rcases List.append_eq_cons_iff.mp hright with ⟨rfl, hc⟩ | ⟨front, rfl, rfl⟩
      · obtain ⟨rfl, rfl⟩ := List.cons.inj hc
        have hput := @insert_of_head _ _ _ _ _ _ _ _ (fun _ => False) A _ _ hm hmroot hcroot
          (fun _ _ h => h.elim) (fun a ha => hother a (ha.resolve_left id)) (fun _ h => h.elim) h
          hleft (by simp) .nil
        rcases hput with ⟨last', hjoins⟩ | ⟨_, _, _, _, hnil, -⟩
        · exact ⟨last', hjoins.takes_head (.right _ _) hne le_rfl⟩
        · simp at hnil
      · obtain ⟨hitem, hfront⟩ := List.forall_mem_cons.mp hfront
        obtain ⟨last', hjoins⟩ := ih hitem hleft hfront rfl
        exact ⟨last', hjoins.takes_head (.right _ _) hne le_rfl⟩

/-- The nearest items, when they have no arcs in common with the others, can be joined in another
way that is no worse. -/
theorem replace_near {leftA leftB rightA rightB : List α}
    (h : Joins IsHead root (leftA ++ leftB) head (rightA ++ rightB) root errors)
    (happart : Apart IsHead A B) (hhead : A head) (hA : ∀ a, a ∈ leftA ∨ a ∈ rightA → A a)
    (hB : ∀ b, b ∈ leftB ∨ b ∈ rightB → B b) (hAroot : ∀ a, A a → a ≠ root) :
    ∃ lastA errorsA, Joins IsHead root leftA head rightA lastA errorsA ∧
      ∀ rightA' lastA', (∀ a ∈ rightA', a ≠ root) →
        Joins IsHead root leftA head rightA' lastA' errorsA →
          Joins IsHead root (leftA ++ leftB) head (rightA' ++ rightB) root errors := by
  obtain ⟨lastA, errorsA, lastB, errorsB, hjoinsA, hjoinsB, hle, hlast⟩ :=
    h.split happart rfl rfl hA hB hAroot hhead id (.inl rfl)
  refine ⟨lastA, errorsA, hjoinsA, fun rightA' lastA' hright hjoinsA' => ?_⟩
  have hroot : ∀ a, a = head ∨ a ∈ leftA ∨ a ∈ rightA' → a ≠ root := by
    rintro a (rfl | ha | ha)
    · exact hAroot a hhead
    · exact hAroot a (hA a (.inl ha))
    · exact hright a ha
  obtain ⟨last, hjoins, hlast'⟩ :=
    hjoinsA'.append_apart hjoinsB hroot fun b hb => happart head b hhead (hB b hb)
  rw [hlast' (hlast rfl)] at hjoins
  exact hjoins.mono hle

end Joins

end Joining
