import UDPipe.Library.Projective
import Mathlib.Data.List.Nodup
import Mathlib.Data.List.Infix
import Mathlib.Data.List.TakeWhile
import Mathlib.Data.List.Flatten
import Mathlib.Data.List.Sort

/-!
# In-order traversal of a forest

The nodes are linearly ordered and every node has an increasing list of children.
The traversal visits the children below a node, the node, and then the children
above it. Numbered by their visits, the nodes always form a projective forest, and
where a part of the forest is projective already, the visits keep its order.
-/

namespace Forest

variable {α : Type*} [LinearOrder α]

/-- The nodes below `a` in the order of the traversal. The recursion stops when
the fuel is used up. -/
def inorder (children : α → List α) : ℕ → α → List α
  | 0, _ => []
  | fuel + 1, a =>
    ((children a).takeWhile (· < a)).flatMap (inorder children fuel) ++
      a :: ((children a).dropWhile (· < a)).flatMap (inorder children fuel)

/-- A node and then the nodes below it. -/
def preorder (children : α → List α) : ℕ → α → List α
  | 0, _ => []
  | fuel + 1, a => a :: (children a).flatMap (preorder children fuel)

/-- Both orders have the same nodes. -/
theorem preorder_perm_inorder (children : α → List α) (fuel : ℕ) (a : α) :
    (preorder children fuel a).Perm (inorder children fuel a) := by
  induction fuel generalizing a with
  | zero => exact .nil
  | succ fuel ih =>
    have hbelow := List.Perm.flatMap_left (children a) fun c _ => ih c
    rw [preorder, inorder]
    refine List.Perm.trans (hbelow.cons a) ?_
    conv_lhs => rw [← @List.takeWhile_append_dropWhile α (fun c => decide (c < a)) (children a),
      List.flatMap_append]
    exact List.perm_middle.symm

/-- The children lists belong to the parent links and increase. -/
structure IsChildren (parent : α → Option α) (children : α → List α) : Prop where
  mem_iff : ∀ a c, c ∈ children a ↔ parent c = some a
  increase : ∀ a, (children a).Pairwise (· < ·)

variable {parent : α → Option α} {children : α → List α}

/-- The nodes one step of the traversal visits: `v` is `a` itself or its child. -/
def branch (children : α → List α) (fuel : ℕ) (a v : α) : List α :=
  if v = a then [a] else inorder children fuel v

/-- A node and its children in their order. -/
def family (children : α → List α) (a : α) : List α :=
  (children a).takeWhile (· < a) ++ a :: (children a).dropWhile (· < a)

namespace IsChildren

/-- A family is a node and its children. -/
theorem mem_family (h : IsChildren parent children) {a v : α} :
    v ∈ family children a ↔ v = a ∨ parent v = some a := by
  have hsplit := @List.takeWhile_append_dropWhile α (fun c => decide (c < a)) (children a)
  rw [← h.mem_iff, family]
  conv_rhs => rw [← hsplit]
  simp only [List.mem_append, List.mem_cons]
  tauto

variable (h : IsChildren parent children) (hforest : IsForest parent)

include h hforest

/-- No node is a child of itself. -/
theorem ne_of_mem_children {a c : α} (hc : c ∈ children a) : c ≠ a := by
  rintro rfl
  exact hforest.ne_of_leadsTo_parent .refl ((h.mem_iff c c).mp hc)

/-- A family is in increasing order. -/
theorem family_increase (a : α) : (family children a).Pairwise (· < ·) := by
  have hincrease := h.increase a
  rw [← @List.takeWhile_append_dropWhile α (fun c => decide (c < a)) (children a)] at hincrease
  obtain ⟨hbefore, hafter, hcross⟩ := List.pairwise_append.mp hincrease
  have hgt : ∀ c ∈ (children a).dropWhile (· < a), a < c := by
    intro c hc
    match hd : (children a).dropWhile (· < a) with
    | [] => simp [hd] at hc
    | d :: ds =>
      have hda : ¬ d < a := by
        have := List.head_dropWhile_not (fun c => decide (c < a))
          (by simp [hd] : (children a).dropWhile (fun c => decide (c < a)) ≠ [])
        simpa [hd] using this
      have hmem : d ∈ children a := (List.dropWhile_suffix _).subset (hd ▸ List.mem_cons_self)
      have had : a < d := lt_of_le_of_ne (not_lt.mp hda) (h.ne_of_mem_children hforest hmem).symm
      rw [hd] at hc hafter
      rcases List.mem_cons.mp hc with rfl | hc
      · exact had
      · exact had.trans ((List.pairwise_cons.mp hafter).1 c hc)
  have hlt : ∀ c ∈ (children a).takeWhile (· < a), c < a := fun c hc => by
    simpa using List.mem_takeWhile_imp hc
  refine List.pairwise_append.mpr ⟨hbefore, List.pairwise_cons.mpr ⟨hgt, hafter⟩, ?_⟩
  intro c hc d hd
  rcases List.mem_cons.mp hd with rfl | hd
  · exact hlt c hc
  · exact hcross c hc d hd

/-- A step of the traversal goes through the family in its order. -/
theorem inorder_succ (fuel : ℕ) (a : α) :
    inorder children (fuel + 1) a = (family children a).flatMap (branch children fuel a) := by
  have hbranch : ∀ cs ⊆ children a, cs.flatMap (inorder children fuel) =
      cs.flatMap (branch children fuel a) := by
    intro cs hcs
    apply List.flatMap_congr
    intro c hc
    rw [branch, if_neg (h.ne_of_mem_children hforest (hcs hc))]
  rw [inorder, family, List.flatMap_append, List.flatMap_cons,
    hbranch _ (List.takeWhile_subset _), hbranch _ (List.dropWhile_subset _)]
  simp [branch]

/-- With enough fuel for the branch, it holds the nodes visited with `v`. -/
theorem mem_branch {fuel : ℕ} {a v b : α}
    (hmem : ∀ c, parent c = some a → (b ∈ inorder children fuel c ↔ LeadsTo parent b c))
    (hv : v = a ∨ parent v = some a) :
    b ∈ branch children fuel a v ↔ InBranch parent a v b := by
  rcases hv with rfl | hv
  · have hself : parent v ≠ some v := hforest.ne_of_leadsTo_parent .refl
    simp [branch, InBranch, hself]
  · have hne : v ≠ a := h.ne_of_mem_children hforest ((h.mem_iff a v).mpr hv)
    rw [branch, if_neg hne, hmem v hv]
    simp [InBranch, hne, hv]

/-- The traversal visits the descendants. -/
theorem mem_inorder {fuel : ℕ} {a b : α} (hwithin : Within parent fuel a) :
    b ∈ inorder children fuel a ↔ LeadsTo parent b a := by
  induction fuel generalizing a with
  | zero => exact hwithin.elim
  | succ fuel ih =>
    rw [h.inorder_succ hforest, List.mem_flatMap]
    have hbranch := fun v => @mem_branch α _ parent children h hforest fuel a v b
      (fun c hc => ih (hwithin c hc))
    constructor
    · rintro ⟨v, hv, hb⟩
      rcases (hbranch v (h.mem_family.mp hv)).mp hb with ⟨rfl, rfl⟩ | ⟨hva, hbv⟩
      · exact .refl
      · exact hbv.tail hva
    · intro hlead
      obtain ⟨v, hv, hb⟩ := LeadsTo.exists_branch hlead
      exact ⟨v, h.mem_family.mpr hv, (hbranch v hv).mpr hb⟩

/-- No node is visited twice. -/
theorem nodup_inorder {fuel : ℕ} {a : α} (hwithin : Within parent fuel a) :
    (inorder children fuel a).Nodup := by
  induction fuel generalizing a with
  | zero => exact hwithin.elim
  | succ fuel ih =>
    have hbranch := fun v b => @mem_branch α _ parent children h hforest fuel a v b
      (fun c hc => h.mem_inorder hforest (hwithin c hc))
    rw [h.inorder_succ hforest, List.nodup_flatMap]
    refine ⟨fun v hv => ?_, ?_⟩
    · rcases h.mem_family.mp hv with rfl | hva
      · simp [branch]
      · rw [branch, if_neg (h.ne_of_mem_children hforest ((h.mem_iff a v).mpr hva))]
        exact ih (hwithin v hva)
    · apply List.Pairwise.imp_of_mem _ (h.family_increase hforest a)
      intro u v hu hv hlt b hbu hbv
      have heq := hforest.branch_unique ((hbranch u b (h.mem_family.mp hu)).mp hbu)
        ((hbranch v b (h.mem_family.mp hv)).mp hbv)
      exact absurd hlt (heq ▸ lt_irrefl u)

/-- The traversal from a descendant is a part of the whole. -/
theorem exists_isInfix {fuel : ℕ} {a b : α} (hwithin : Within parent fuel a)
    (hlead : LeadsTo parent b a) :
    ∃ fuel', Within parent fuel' b ∧ inorder children fuel' b <:+: inorder children fuel a := by
  induction hlead using Relation.ReflTransGen.head_induction_on with
  | refl => exact ⟨fuel, hwithin, List.infix_rfl⟩
  | @head b c hbc _ ih =>
    obtain ⟨fuel', hwithin', hpiece⟩ := ih
    cases fuel' with
    | zero => exact hwithin'.elim
    | succ fuel' =>
      refine ⟨fuel', hwithin' b hbc, List.IsInfix.trans ?_ hpiece⟩
      have hpart := List.infix_flatMap_of_mem (h.mem_family.mpr (.inr hbc))
        (branch children fuel' c)
      rwa [branch, if_neg (h.ne_of_mem_children hforest ((h.mem_iff c b).mpr hbc)),
        ← h.inorder_succ hforest] at hpart

end IsChildren

/-! ### The order of the visits -/

/-- In a list without repetitions, what stands before has the smaller index. -/
private theorem idxOf_lt_of_sublist {l : List α} (hnodup : l.Nodup) {a b : α}
    (h : [a, b].Sublist l) : l.idxOf a < l.idxOf b := by
  obtain ⟨r, s, rfl, ha, hb⟩ := List.cons_sublist_iff.mp h
  have hb' : b ∉ r := List.disjoint_right.mp (List.disjoint_of_nodup_append hnodup)
    (List.singleton_sublist.mp hb)
  rw [List.idxOf_append_of_mem ha, List.idxOf_append_of_notMem hb']
  exact lt_of_lt_of_le (List.idxOf_lt_length_iff.mpr ha) (Nat.le_add_right _ _)

/-- In a list without repetitions, what stands between two elements of a piece is in the piece. -/
private theorem mem_of_idxOf_between {l m : List α} (hnodup : l.Nodup) (hpiece : m <:+: l)
    {a k b : α} (ha : a ∈ m) (hb : b ∈ m) (hak : l.idxOf a < l.idxOf k)
    (hkb : l.idxOf k < l.idxOf b) : k ∈ m := by
  obtain ⟨r, s, rfl⟩ := hpiece
  rw [List.append_assoc] at hnodup hak hkb
  have hdisjoint := List.disjoint_of_nodup_append hnodup
  have ha' : a ∉ r := List.disjoint_right.mp hdisjoint (List.mem_append_left _ ha)
  have hb' : b ∉ r := List.disjoint_right.mp hdisjoint (List.mem_append_left _ hb)
  rw [List.idxOf_append_of_notMem ha'] at hak
  rw [List.idxOf_append_of_notMem hb', List.idxOf_append_of_mem hb] at hkb
  have hk' : k ∉ r := by
    intro hk
    rw [List.idxOf_append_of_mem hk] at hak
    have := List.idxOf_lt_length_iff.mpr hk
    omega
  by_contra hk
  rw [List.idxOf_append_of_notMem hk', List.idxOf_append_of_notMem hk] at hkb
  have := List.idxOf_lt_length_iff.mpr hb
  omega

namespace IsChildren

variable (h : IsChildren parent children) (hforest : IsForest parent) {fuel : ℕ} {root : α}
  (hwithin : Within parent fuel root)

include h hforest hwithin

/-- Numbered by the visits, the forest is projective. -/
theorem projective_inorder (hroot : parent root = none) :
    Projective parent (fun a => (inorder children fuel root).idxOf a)
      {a | LeadsTo parent a root} := by
  intro c hc p k hcp hk hbetween
  have hnodup := h.nodup_inorder hforest hwithin
  rcases hc.cases_head with rfl | ⟨p', hcp', hp⟩
  · simp [hroot] at hcp
  · obtain rfl : p = p' := Option.some.inj (hcp.symm.trans hcp')
    obtain ⟨fuel', hwithin', hpiece⟩ := h.exists_isInfix hforest hwithin hp
    have hmem := fun b => @IsChildren.mem_inorder α _ parent children h hforest fuel' p b hwithin'
    rw [← hmem]
    have hc' := (hmem c).mpr (.single hcp)
    have hp' := (hmem p).mpr .refl
    rcases hbetween with ⟨h₁, h₂⟩ | ⟨h₁, h₂⟩
    · exact mem_of_idxOf_between hnodup hpiece hc' hp' h₁ h₂
    · exact mem_of_idxOf_between hnodup hpiece hp' hc' h₁ h₂

/-- The branches of a node are visited in their order. -/
theorem idxOf_lt_of_branch {w u v a b : α} (hw : LeadsTo parent w root)
    (hu : InBranch parent w u a) (hv : InBranch parent w v b) (hlt : u < v) :
    (inorder children fuel root).idxOf a < (inorder children fuel root).idxOf b := by
  obtain ⟨fuel', hwithin', hpiece⟩ := h.exists_isInfix hforest hwithin hw
  apply idxOf_lt_of_sublist (h.nodup_inorder hforest hwithin)
  refine List.Sublist.trans ?_ hpiece.sublist
  cases fuel' with
  | zero => exact hwithin'.elim
  | succ fuel' =>
    have hmember : ∀ {v b}, InBranch parent w v b →
        v ∈ family children w ∧ b ∈ branch children fuel' w v := by
      intro v b hv
      have hor : v = w ∨ parent v = some w := hv.imp And.left And.left
      exact ⟨h.mem_family.mpr hor,
        (h.mem_branch hforest (fun c hc => h.mem_inorder hforest (hwithin' c hc)) hor).mpr hv⟩
    have hpair : [u, v].Sublist (family children w) := by
      apply List.sublist_of_subperm_of_pairwise _ (by simpa using hlt)
        (h.family_increase hforest w)
      refine List.subperm_of_subset (by simpa using ne_of_lt hlt) ?_
      simpa using ⟨(hmember hu).1, (hmember hv).1⟩
    rw [h.inorder_succ hforest]
    refine List.Sublist.trans ?_ (hpair.flatMap (branch children fuel' w))
    simp only [List.flatMap_cons, List.flatMap_nil, List.append_nil]
    exact (List.singleton_sublist.mpr (hmember hu).2).append
      (List.singleton_sublist.mpr (hmember hv).2)

/-- Where a part of the forest is projective, the visits keep its order. -/
theorem idxOf_lt_of_projective {top : α} {part : Set α} (hup : UpClosed parent top part)
    (htop : LeadsTo parent top root) (hproj : Projective parent id part) {a b : α}
    (ha : a ∈ part) (hb : b ∈ part) (hlt : a < b) :
    (inorder children fuel root).idxOf a < (inorder children fuel root).idxOf b := by
  obtain ⟨w, u, v, hw, hu, hv, hne⟩ := hforest.exists_branching (ne_of_lt hlt)
    (hup.leadsTo_root hforest ha) (hup.leadsTo_root hforest hb)
  rcases lt_or_gt_of_ne hne with huv | hvu
  · exact h.idxOf_lt_of_branch hforest hwithin (hw.trans htop) hu hv huv
  -- the branches cannot cross: each keeps what lies between its nodes
  exfalso
  have hbetween : ∀ {x y k : α}, x ∈ part → k ∈ part → LeadsTo parent x y →
      LeadsTo parent y w → (x < k ∧ k < y ∨ y < k ∧ k < x) → LeadsTo parent k y := by
    intro x y k hx hk hxy hyw hk'
    have hy := hup.mem_of_leadsTo hforest hx hxy (hyw.trans hw)
    exact hup.leadsTo_of_between hforest hproj Function.injective_id.injOn hx hy hk hxy hk'
  rcases hu with ⟨rfl, rfl⟩ | ⟨huw, hau⟩ <;> rcases hv with ⟨rfl, rfl⟩ | ⟨hvw, hbv⟩
  · exact lt_irrefl _ hvu
  · exact hforest.ne_of_leadsTo_parent (hbetween hb ha hbv (.single hvw) (.inr ⟨hvu, hlt⟩)) hvw
  · exact hforest.ne_of_leadsTo_parent (hbetween ha hb hau (.single huw) (.inl ⟨hlt, hvu⟩)) huw
  · have hv : v ∈ part :=
      hup.mem_of_leadsTo hforest hb hbv (.head hvw hw)
    have hua : InBranch parent w u a := .inr ⟨huw, hau⟩
    rcases lt_trichotomy a v with hav | rfl | hva
    · exact hne (hforest.branch_unique (.inr ⟨huw, hbetween ha hv hau (.single huw)
        (.inl ⟨hav, hvu⟩)⟩) (.inr ⟨hvw, .refl⟩))
    · exact hne (hforest.branch_unique hua (.inr ⟨hvw, .refl⟩))
    · exact hne (hforest.branch_unique hua (.inr ⟨hvw, hbetween hb ha hbv (.single hvw)
        (.inr ⟨hva, hlt⟩)⟩))

end IsChildren

end Forest
