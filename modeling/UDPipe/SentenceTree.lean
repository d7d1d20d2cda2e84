import UDPipe.LinkRuns
import UDPipe.Library.Traversal

/-!
# The tree of a sentence

The heads of the words as parent links. When all words lead to the root, a walk
through the children lists comes to each word once.
-/

namespace UDPipe.Sentence

open Forest (LeadsTo IsForest IsChildren Within)

/-- The head of a word as its parent; the root has none. -/
def parent (s : Sentence) (i : ℤ) : Option ℤ :=
  if 1 ≤ i ∧ i < s.words.length then some (headAt s.words i.toNat) else none

/-- `words[i].children`. -/
def childrenOf (s : Sentence) (i : ℤ) : List ℤ :=
  if 0 ≤ i then childrenAt s.words i.toNat else []

/-- The heads form a tree with the root at zero. -/
structure IsTree (s : Sentence) : Prop where
  links : LinksAgree s.words
  rooted : 0 < s.words.length
  leadsTo_root : ∀ i : ℤ, 1 ≤ i → i < s.words.length → LeadsTo s.parent i 0

/-- The parent of a word is its head. -/
theorem parent_eq_some {s : Sentence} {i j : ℤ} :
    s.parent i = some j ↔ 1 ≤ i ∧ i < s.words.length ∧ headAt s.words i.toNat = j := by
  rw [parent]
  split
  · rename_i h
    simp [h]
  · rename_i h
    constructor
    · rintro ⟨⟩
    · rintro ⟨h₁, h₂, -⟩
      exact absurd ⟨h₁, h₂⟩ h

/-- The root has no parent. -/
@[simp] theorem parent_zero (s : Sentence) : s.parent 0 = none := if_neg (by omega)

namespace IsTree

variable {s : Sentence} (h : s.IsTree)

include h

/-- The words of a sentence with a tree are a forest. -/
theorem isForest : IsForest s.parent := by
  intro i
  by_cases hi : 1 ≤ i ∧ i < s.words.length
  · exact ⟨0, s.parent_zero, h.leadsTo_root i hi.1 hi.2⟩
  · exact ⟨i, if_neg hi, .refl⟩

/-- Heads are nodes of the tree. -/
theorem head_nonneg {i j : ℤ} (hparent : s.parent i = some j) : 0 ≤ j := by
  obtain ⟨hi, hlt, -⟩ := parent_eq_some.mp hparent
  rcases (h.leadsTo_root i hi hlt).cases_head with rfl | ⟨k, hk, hlead⟩
  · omega
  · obtain rfl : j = k := Option.some.inj (hparent.symm.trans hk)
    rcases hlead.cases_head with rfl | ⟨l, hl, -⟩
    · exact le_rfl
    · exact le_trans (by omega) (parent_eq_some.mp hl).1

/-- The words are the nodes that lead to the root. -/
theorem leadsTo_zero_iff {i : ℤ} : LeadsTo s.parent i 0 ↔ 0 ≤ i ∧ i < s.words.length := by
  have hrooted := h.rooted
  constructor
  · intro hlead
    rcases hlead.cases_head with rfl | ⟨j, hj, -⟩
    · omega
    · have := parent_eq_some.mp hj
      omega
  · rintro ⟨hi, hlt⟩
    rcases eq_or_lt_of_le hi with rfl | hpos
    · exact .refl
    · exact h.leadsTo_root i (by omega) hlt

/-- The children lists belong to the heads. -/
theorem isChildren : IsChildren s.parent s.childrenOf where
  mem_iff a c := by
    rcases lt_or_ge a 0 with hneg | ha
    · have hnone : s.parent c ≠ some a := fun hc => absurd (h.head_nonneg hc) (not_le.mpr hneg)
      simp [childrenOf, not_le.mpr hneg, hnone]
    · rw [childrenOf, if_pos ha, h.links.mem_children, parent_eq_some, Int.toNat_of_nonneg ha]
  increase a := by
    rw [childrenOf]
    split
    · exact h.links.increase _
    · exact .nil

/-- The tree is no deeper than it has nodes. -/
theorem within : Within s.parent (s.words.length + 1) 0 := by
  have hrooted := h.rooted
  refine Forest.within_of_range h.isForest (fun c p hcp => ?_) (Nat.le_succ _) le_rfl (by omega)
  have := parent_eq_some.mp hcp
  omega

/-- The walk comes to each node once. -/
theorem preorder_perm :
    (Forest.preorder s.childrenOf (s.words.length + 1) 0).Perm
      ((List.range s.words.length).map fun i : ℕ => (i : ℤ)) := by
  refine (Forest.preorder_perm_inorder _ _ _).trans ?_
  refine (List.perm_ext_iff_of_nodup (h.isChildren.nodup_inorder h.isForest h.within)
    (List.nodup_range.map Nat.cast_injective)).mpr fun i => ?_
  rw [h.isChildren.mem_inorder h.isForest h.within, h.leadsTo_zero_iff]
  simp only [List.mem_map, List.mem_range]
  constructor
  · rintro ⟨hi, hlt⟩
    exact ⟨i.toNat, by omega, by omega⟩
  · rintro ⟨j, hj, rfl⟩
    omega

end IsTree

end UDPipe.Sentence
