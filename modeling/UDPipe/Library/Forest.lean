import Mathlib.Logic.Relation
import Mathlib.Logic.Function.Basic
import Mathlib.Data.Finset.Card
import Mathlib.Data.Int.Interval

/-!
# Forests given by parent links

Every node has at most one parent. The links form a forest when every node leads
to a root, that is to a node without a parent; then no node is its own ancestor.
A root can be attached below any node that does not lead to it.
-/

namespace Forest

variable {α : Type*}

/-- Following parents from `a` leads to `b`. -/
abbrev LeadsTo (parent : α → Option α) : α → α → Prop :=
  Relation.ReflTransGen fun a b => parent a = some b

/-- Every node leads to a node without a parent. -/
def IsForest (parent : α → Option α) : Prop := ∀ a, ∃ r, parent r = none ∧ LeadsTo parent a r

variable {parent : α → Option α}

/-- Nothing but the root itself is reached from a root. -/
theorem LeadsTo.eq_of_root {r a : α} (hr : parent r = none) (h : LeadsTo parent r a) : a = r := by
  induction h with
  | refl => rfl
  | tail _ hstep ih =>
    subst ih
    simp [hr] at hstep

/-- No node of a forest is its own ancestor. -/
theorem IsForest.acyclic (h : IsForest parent) (a : α) :
    ¬ Relation.TransGen (fun a b => parent a = some b) a a := by
  obtain ⟨r, hr, hlead⟩ := h a
  induction hlead using Relation.ReflTransGen.head_induction_on with
  | refl =>
    intro hcycle
    obtain ⟨b, hb, _⟩ := Relation.TransGen.head'_iff.mp hcycle
    simp [hr] at hb
  | head hstep _ ih =>
    intro hcycle
    obtain ⟨b, hb, hback⟩ := Relation.TransGen.head'_iff.mp hcycle
    obtain rfl : b = _ := Option.some.inj (hb.symm.trans hstep)
    exact ih (Relation.TransGen.tail' hback hstep)

/-- Two ancestors of a node are ancestors of one another. -/
theorem LeadsTo.total {a b c : α} (hb : LeadsTo parent a b) (hc : LeadsTo parent a c) :
    LeadsTo parent b c ∨ LeadsTo parent c b :=
  Relation.ReflTransGen.total_of_right_unique
    (fun _ _ _ h h' => Option.some.inj (h.symm.trans h')) hb hc

/-- A node that leads to another one does so over its parent. -/
theorem LeadsTo.from_parent {a b c : α} (hlead : LeadsTo parent a b) (hne : a ≠ b)
    (hparent : parent a = some c) : LeadsTo parent c b := by
  rcases hlead.cases_head with heq | ⟨d, hd, hlead⟩
  · exact absurd heq hne
  · exact Option.some.inj (hparent.symm.trans hd) ▸ hlead

/-- A forest has no cycles. -/
theorem IsForest.ne_of_leadsTo_parent (h : IsForest parent) {a b : α} (hlead : LeadsTo parent b a) :
    parent a ≠ some b := fun hparent => h.acyclic a (Relation.TransGen.head' hparent hlead)

/-- Two nodes that lead to each other are the same. -/
theorem IsForest.antisymm (h : IsForest parent) {a b : α} (hab : LeadsTo parent a b)
    (hba : LeadsTo parent b a) : a = b := by
  rcases hab.cases_head with heq | ⟨c, hc, hcb⟩
  · exact heq
  · exact absurd hc (h.ne_of_leadsTo_parent (hcb.trans hba))

/-- A node leads to one root only. -/
theorem LeadsTo.root_unique {a r s : α} (hr : parent r = none) (hs : parent s = none)
    (har : LeadsTo parent a r) (has : LeadsTo parent a s) : r = s := by
  rcases har.total has with hrs | hsr
  · exact (hrs.eq_of_root hr).symm
  · exact hsr.eq_of_root hs

/-! ### Branches and generations -/

/-- `v` is a child of `a` that `b` leads to, or `a` itself in the place of `b`. -/
def InBranch (parent : α → Option α) (a v b : α) : Prop :=
  v = a ∧ b = a ∨ parent v = some a ∧ LeadsTo parent b v

/-- A node is in one branch only. -/
theorem IsForest.branch_unique (hforest : IsForest parent) {a u v b : α}
    (hu : InBranch parent a u b) (hv : InBranch parent a v b) : u = v := by
  rcases hu with ⟨rfl, rfl⟩ | ⟨hua, hbu⟩ <;> rcases hv with ⟨rfl, hb⟩ | ⟨hva, hbv⟩
  · rfl
  · exact absurd hva (hforest.ne_of_leadsTo_parent hbv)
  · subst hb
    exact absurd hua (hforest.ne_of_leadsTo_parent hbu)
  · rcases hbu.total hbv with huv | hvu
    · rcases huv.cases_head with heq | ⟨w, hw, hwv⟩
      · exact heq
      · obtain rfl : w = a := Option.some.inj (hw.symm.trans hua)
        exact absurd hva (hforest.ne_of_leadsTo_parent hwv)
    · rcases hvu.cases_head with heq | ⟨w, hw, hwu⟩
      · exact heq.symm
      · obtain rfl : w = a := Option.some.inj (hw.symm.trans hva)
        exact absurd hua (hforest.ne_of_leadsTo_parent hwu)

/-- Every descendant is in some branch. -/
theorem LeadsTo.exists_branch {a b : α} (h : LeadsTo parent b a) :
    ∃ v, (v = a ∨ parent v = some a) ∧ InBranch parent a v b := by
  rcases h.cases_tail with heq | ⟨v, hbv, hva⟩
  · exact ⟨a, .inl rfl, .inl ⟨rfl, heq.symm⟩⟩
  · exact ⟨v, .inr hva, .inr ⟨hva, hbv⟩⟩

/-- Two descendants of a node are in different branches somewhere below it. -/
theorem IsForest.exists_branching (hforest : IsForest parent) {a b c : α} (hne : a ≠ b)
    (ha : LeadsTo parent a c) (hb : LeadsTo parent b c) :
    ∃ w u v, LeadsTo parent w c ∧ InBranch parent w u a ∧ InBranch parent w v b ∧ u ≠ v := by
  induction ha with
  | refl =>
    obtain ⟨v, hv, hbv⟩ := hb.exists_branch
    refine ⟨a, a, v, .refl, .inl ⟨rfl, rfl⟩, hbv, ?_⟩
    rintro rfl
    rcases hbv with ⟨_, rfl⟩ | ⟨hself, _⟩
    · exact hne rfl
    · exact hforest.ne_of_leadsTo_parent .refl hself
  | @tail x y hax hxy ih =>
    by_cases hbx : LeadsTo parent b x
    · obtain ⟨w, u, v, hw, hu, hv, huv⟩ := ih hbx
      exact ⟨w, u, v, hw.tail hxy, hu, hv, huv⟩
    · -- the ways meet at `y` for the first time
      obtain ⟨v, _, hbv⟩ := hb.exists_branch
      refine ⟨y, x, v, .refl, .inr ⟨hxy, hax⟩, hbv, ?_⟩
      rintro rfl
      rcases hbv with ⟨rfl, _⟩ | ⟨_, hbx'⟩
      · exact hforest.ne_of_leadsTo_parent .refl hxy
      · exact hbx hbx'

/-- The descendants of `a` end in less than `fuel` generations. -/
def Within (parent : α → Option α) : ℕ → α → Prop
  | 0, _ => False
  | fuel + 1, a => ∀ c, parent c = some a → Within parent fuel c

/-- A finite forest has no more generations than nodes. -/
theorem within_of_card [DecidableRel fun b a => LeadsTo parent b a] (hforest : IsForest parent)
    (nodes : Finset α)
    (hnodes : ∀ c h, parent c = some h → c ∈ nodes) {fuel : ℕ} {a : α} (ha : a ∈ nodes)
    (hcard : (nodes.filter fun b => LeadsTo parent b a).card ≤ fuel) : Within parent fuel a := by
  induction fuel generalizing a with
  | zero =>
    have hmem : a ∈ nodes.filter fun b => LeadsTo parent b a := by
      simpa using ⟨ha, Relation.ReflTransGen.refl⟩
    exact absurd (Finset.card_pos.mpr ⟨a, hmem⟩) (by omega)
  | succ fuel ih =>
    intro c hc
    refine ih (hnodes c a hc) ?_
    have hlt : (nodes.filter fun b => LeadsTo parent b c).card <
        (nodes.filter fun b => LeadsTo parent b a).card := by
      apply Finset.card_lt_card
      refine Finset.ssubset_iff_subset_ne.mpr ⟨fun b hb => ?_, fun heq => ?_⟩
      · simp only [Finset.mem_filter] at hb ⊢
        exact ⟨hb.1, hb.2.tail hc⟩
      · have hmem : a ∈ nodes.filter fun b => LeadsTo parent b c := by
          rw [heq]
          simpa using ⟨ha, Relation.ReflTransGen.refl⟩
        exact hforest.ne_of_leadsTo_parent (Finset.mem_filter.mp hmem).2 hc
    omega

/-- The links between the numbers below a size form no more generations than there are
numbers. -/
theorem within_of_range {parent : ℤ → Option ℤ} (hforest : IsForest parent) {size : ℕ}
    (hrange : ∀ c h, parent c = some h → 0 ≤ c ∧ c < size) {fuel : ℕ} (hfuel : size ≤ fuel) {a : ℤ}
    (ha : 0 ≤ a) (hlt : a < size) : Within parent fuel a := by
  classical
  refine within_of_card hforest (Finset.Ico 0 (size : ℤ)) (fun c h hc => ?_) ?_ ?_
  · exact Finset.mem_Ico.mpr (hrange c h hc)
  · exact Finset.mem_Ico.mpr ⟨ha, hlt⟩
  · apply (Finset.card_filter_le _ _).trans
    rw [Int.card_Ico]
    omega

/-! ### Attaching a root -/

section Attach

variable [DecidableEq α] {c p : α}

/-- Attaching a root keeps every way to an ancestor. -/
theorem LeadsTo.attach (hc : parent c = none) {a b : α} (h : LeadsTo parent a b) :
    LeadsTo (Function.update parent c (some p)) a b := by
  refine Relation.ReflTransGen.mono (fun x y hxy => ?_) _ _ h
  have hne : x ≠ c := by
    rintro rfl
    simp [hc] at hxy
  simpa [hne] using hxy

/-- Where a root was attached below another, ways are old or go through the new arc. -/
theorem LeadsTo.of_attach (hp : parent p = none) {a b : α}
    (h : LeadsTo (Function.update parent c (some p)) a b) :
    LeadsTo parent a b ∨ b = p ∧ LeadsTo parent a c := by
  induction h using Relation.ReflTransGen.head_induction_on with
  | refl => exact .inl .refl
  | @head a d had _ ih =>
    by_cases hac : a = c
    · subst hac
      obtain rfl : p = d := by simpa using had
      rcases ih with hlead | ⟨rfl, _⟩
      · exact .inr ⟨hlead.eq_of_root hp, .refl⟩
      · exact .inr ⟨rfl, .refl⟩
    · rw [Function.update_of_ne hac] at had
      exact ih.imp (.head had) fun h => ⟨h.1, .head had h.2⟩

/-- Attaching a root below a node that does not lead to it keeps the forest. -/
theorem IsForest.attach (h : IsForest parent) (hc : parent c = none)
    (hp : ¬ LeadsTo parent p c) : IsForest (Function.update parent c (some p)) := by
  have hother : ∀ a r, parent r = none → r ≠ c → LeadsTo parent a r →
      ∃ r, Function.update parent c (some p) r = none ∧
        LeadsTo (Function.update parent c (some p)) a r := by
    intro a r hr hne hlead
    exact ⟨r, by simpa [hne] using hr, hlead.attach hc⟩
  intro a
  obtain ⟨r, hr, hlead⟩ := h a
  by_cases hrc : r = c
  · -- the way from `a` to its old root goes on below `p`
    subst hrc
    obtain ⟨q, hq, hlead'⟩ := h p
    have hqr : q ≠ r := by
      rintro rfl
      exact hp hlead'
    obtain ⟨s, hs, hps⟩ := hother p q hq hqr hlead'
    refine ⟨s, hs, (hlead.attach hc).trans (Relation.ReflTransGen.head ?_ hps)⟩
    simp
  · exact hother a r hr hrc hlead

end Attach

end Forest
