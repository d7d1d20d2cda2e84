import UDPipe.Library.Forest
import Mathlib.Data.Set.Function
import Mathlib.Data.Set.Finite.Basic
import Mathlib.Order.WellFounded
import Mathlib.Order.Basic

/-!
# Projective forests

The nodes are in a linear order, given by a key. A forest is projective when the
nodes between a node and its parent are descendants of that parent. The main fact
is that a list of nodes which keeps up with its parents and is sorted by the key
has a leaf next to its parent, so the list can be reduced to its root by joining
neighbours.
-/

namespace Forest

variable {α β : Type*} [LinearOrder β]

/-- The key of `k` is strictly between those of `a` and `b`. -/
def Between (key : α → β) (a k b : α) : Prop :=
  key a < key k ∧ key k < key b ∨ key b < key k ∧ key k < key a

/-- Between a node and its parent there are descendants of the parent only. -/
def Projective (parent : α → Option α) (key : α → β) (nodes : Set α) : Prop :=
  ∀ c ∈ nodes, ∀ h k, parent c = some h → k ∈ nodes → Between key c k h → LeadsTo parent k h

variable {parent : α → Option α} {key : α → β} {nodes : Set α}

/-- Of the members of a list that have a property, one is not above another one. -/
theorem IsForest.exists_lowest_mem (hforest : IsForest parent) {l : List α} (P : α → Prop)
    (h : ∃ a ∈ l, P a) :
    ∃ a ∈ l, P a ∧ ∀ b ∈ l, Relation.TransGen (fun a b => parent a = some b) b a → ¬ P b := by
  let below : {a // a ∈ l} → {a // a ∈ l} → Prop := fun q p =>
    Relation.TransGen (fun a b => parent a = some b) q.1 p.1
  have hfinite : Finite {a // a ∈ l} := List.finite_toSet l
  have htrans : IsTrans _ below := ⟨fun _ _ _ hab hbc => hab.trans hbc⟩
  have hirrefl : Std.Irrefl below := ⟨fun a => hforest.acyclic a.1⟩
  have hwf : WellFounded below := Finite.wellFounded_of_trans_of_irrefl below
  obtain ⟨a, ha, hPa⟩ := h
  obtain ⟨p, hp, hmin⟩ := hwf.has_min {p | P p.1} ⟨⟨a, ha⟩, hPa⟩
  exact ⟨p.1, p.2, hp, fun b hb hbelow hPb => hmin ⟨b, hb⟩ hPb hbelow⟩

/-! ### Sets with their parents -/

/-- The set has the parents of its members, up to its root. -/
structure UpClosed (parent : α → Option α) (root : α) (nodes : Set α) : Prop where
  root_mem : root ∈ nodes
  parent_mem : ∀ a ∈ nodes, a ≠ root → ∃ b ∈ nodes, parent a = some b

namespace UpClosed

variable {root : α}

/-- Every member leads to the root. -/
theorem leadsTo_root (h : UpClosed parent root nodes) (hforest : IsForest parent) {a : α}
    (ha : a ∈ nodes) : LeadsTo parent a root := by
  obtain ⟨s, hs, hlead⟩ := hforest a
  induction hlead using Relation.ReflTransGen.head_induction_on with
  | refl =>
    by_cases heq : s = root
    · exact heq ▸ .refl
    · obtain ⟨b, _, hb⟩ := h.parent_mem s ha heq
      simp [hs] at hb
  | @head a c hac _ ih =>
    by_cases heq : a = root
    · exact heq ▸ .refl
    · obtain ⟨b, hb, hab⟩ := h.parent_mem a ha heq
      obtain rfl : b = c := Option.some.inj (hab.symm.trans hac)
      exact .head hac (ih hb)

/-- The ancestors of a member below the root are members. -/
theorem mem_of_leadsTo (h : UpClosed parent root nodes) (hforest : IsForest parent) {a b : α}
    (ha : a ∈ nodes) (hab : LeadsTo parent a b) (hb : LeadsTo parent b root) : b ∈ nodes := by
  induction hab using Relation.ReflTransGen.head_induction_on with
  | refl => exact ha
  | @head a c hac hcb ih =>
    have hne : a ≠ root := by
      rintro rfl
      exact hforest.ne_of_leadsTo_parent (hcb.trans hb) hac
    obtain ⟨d, hd, had⟩ := h.parent_mem a ha hne
    obtain rfl : d = c := Option.some.inj (had.symm.trans hac)
    exact ih hd

/-- Between a member and any of its ancestors there are descendants of that ancestor. -/
theorem leadsTo_of_between (h : UpClosed parent root nodes) (hforest : IsForest parent)
    (hproj : Projective parent key nodes) (hinj : Set.InjOn key nodes) {a b k : α}
    (ha : a ∈ nodes) (hb : b ∈ nodes) (hk : k ∈ nodes) (hlead : LeadsTo parent a b)
    (hbetween : Between key a k b) : LeadsTo parent k b := by
  induction hlead using Relation.ReflTransGen.head_induction_on with
  | refl => rcases hbetween with ⟨h₁, h₂⟩ | ⟨h₁, h₂⟩ <;> exact absurd h₁ (not_lt_of_gt h₂)
  | @head a c hac hcb ih =>
    have hc : c ∈ nodes :=
      h.mem_of_leadsTo hforest ha (.single hac) (hcb.trans (h.leadsTo_root hforest hb))
    by_cases heq : k = c
    · exact heq ▸ hcb
    · have hne : key k ≠ key c := fun h => heq (hinj hk hc h)
      rcases lt_or_gt_of_ne hne with hlt | hlt
      · rcases hbetween with ⟨h₁, h₂⟩ | ⟨h₁, h₂⟩
        · exact (hproj a ha c k hac hk (.inl ⟨h₁, hlt⟩)).trans hcb
        · exact ih hc (.inr ⟨h₁, hlt⟩)
      · rcases hbetween with ⟨h₁, h₂⟩ | ⟨h₁, h₂⟩
        · exact ih hc (.inl ⟨hlt, h₂⟩)
        · exact (hproj a ha c k hac hk (.inr ⟨hlt, h₂⟩)).trans hcb

/-! ### A leaf next to its parent -/

variable {l : List α}

/-- Some member has children in the list, but no member below it has. -/
theorem exists_lowest (h : UpClosed parent root {a | a ∈ l}) (hforest : IsForest parent)
    (hother : ∃ a ∈ l, a ≠ root) :
    ∃ p ∈ l, (∃ c ∈ l, parent c = some p) ∧
      ∀ q ∈ l, Relation.TransGen (fun a b => parent a = some b) q p →
        ∀ c ∈ l, parent c ≠ some q := by
  obtain ⟨a, ha, hne⟩ := hother
  obtain ⟨b, hb, hab⟩ := h.parent_mem a ha hne
  obtain ⟨p, hp, hchild, hmin⟩ :=
    hforest.exists_lowest_mem (fun p => ∃ c ∈ l, parent c = some p) ⟨b, hb, a, ha, hab⟩
  exact ⟨p, hp, hchild, fun q hq hbelow c hc hcq => hmin q hq hbelow ⟨c, hc, hcq⟩⟩

/-- A member that leads to a lowest parent is a leaf below it. -/
private theorem leaf_of_leadsTo (h : UpClosed parent root {a | a ∈ l})
    (hforest : IsForest parent) {p b : α} (hp : p ∈ l)
    (hlowest : ∀ q ∈ l, Relation.TransGen (fun a b => parent a = some b) q p →
      ∀ c ∈ l, parent c ≠ some q)
    (hb : b ∈ l) (hne : b ≠ p) (hlead : LeadsTo parent b p) :
    b ≠ root ∧ parent b = some p ∧ ∀ c ∈ l, parent c ≠ some b := by
  have hroot : b ≠ root := by
    rintro rfl
    exact hne (hforest.antisymm hlead (h.leadsTo_root hforest hp))
  obtain ⟨q, hq, hbq⟩ := h.parent_mem b hb hroot
  rcases hlead.cases_head with heq | ⟨q', hbq', hlead'⟩
  · exact absurd heq hne
  obtain rfl : q = q' := Option.some.inj (hbq.symm.trans hbq')
  have hqp : q = p := by
    rcases hlead'.cases_head with heq | ⟨q'', hqq'', hlead''⟩
    · exact heq
    · exact absurd hbq (hlowest q hq (.head' hqq'' hlead'') b hb)
  subst hqp
  exact ⟨hroot, hbq, hlowest b hb (.single hbq)⟩

/-- Of two or more sorted nodes with their parents, two neighbours are a leaf and
its parent. -/
theorem exists_adjacent (h : UpClosed parent root {a | a ∈ l}) (hforest : IsForest parent)
    (hproj : Projective parent key {a | a ∈ l}) (hsorted : l.Pairwise fun a b => key b < key a)
    (hlength : 2 ≤ l.length) :
    ∃ pre a b post, l = pre ++ a :: b :: post ∧
      ((a ≠ root ∧ parent a = some b ∧ ∀ c ∈ l, parent c ≠ some a) ∨
        (b ≠ root ∧ parent b = some a ∧ ∀ c ∈ l, parent c ≠ some b)) := by
  have hother : ∃ a ∈ l, a ≠ root := by
    match l, hlength, hsorted with
    | a :: b :: _, _, hsorted =>
      have hlt : key b < key a := (List.pairwise_cons.mp hsorted).1 b List.mem_cons_self
      by_cases ha : a = root
      · refine ⟨b, by simp, ?_⟩
        rintro rfl
        exact absurd (ha ▸ hlt) (lt_irrefl _)
      · exact ⟨a, by simp, ha⟩
  obtain ⟨p, hp, ⟨c, hc, hcp⟩, hlowest⟩ := h.exists_lowest hforest hother
  obtain ⟨pre, post, rfl⟩ := List.append_of_mem hp
  obtain ⟨hpre, hpost, hcross⟩ := List.pairwise_append.mp hsorted
  have hcne : c ≠ p := by
    rintro rfl
    exact hforest.ne_of_leadsTo_parent .refl hcp
  rcases List.mem_append.mp hc with hc' | hc'
  · -- the child is above its parent, so is the neighbour
    obtain ⟨pre', a, rfl⟩ :=
      (List.eq_nil_or_concat' pre).resolve_left (List.ne_nil_of_mem hc')
    have hap : key p < key a := hcross a (by simp) p (by simp)
    have hlead : LeadsTo parent a p := by
      rcases List.mem_append.mp hc' with hc'' | hc''
      · have hca : key a < key c := (List.pairwise_append.mp hpre).2.2 c hc'' a (by simp)
        exact hproj c hc p a hcp (by simp) (.inr ⟨hap, hca⟩)
      · obtain rfl := List.mem_singleton.mp hc''
        exact .single hcp
    have hne : a ≠ p := by
      rintro rfl
      exact lt_irrefl _ hap
    exact ⟨pre', a, p, post, by simp,
      .inl (h.leaf_of_leadsTo hforest hp hlowest (by simp) hne hlead)⟩
  · -- the child is below its parent, so is the neighbour
    have hc'' := (List.mem_cons.mp hc').resolve_left hcne
    obtain ⟨b, post', rfl⟩ := List.exists_cons_of_ne_nil (List.ne_nil_of_mem hc'')
    have hbp : key b < key p := (List.pairwise_cons.mp hpost).1 b (by simp)
    have hlead : LeadsTo parent b p := by
      rcases List.mem_cons.mp hc'' with rfl | hc'''
      · exact .single hcp
      · have hcb : key c < key b :=
          (List.pairwise_cons.mp (List.pairwise_cons.mp hpost).2).1 c hc'''
        exact hproj c hc p b hcp (by simp) (.inl ⟨hcb, hbp⟩)
    have hne : b ≠ p := by
      rintro rfl
      exact lt_irrefl _ hbp
    exact ⟨pre, p, b, post', rfl,
      .inr (h.leaf_of_leadsTo hforest hp hlowest (by simp) hne hlead)⟩

end UpClosed

end Forest
