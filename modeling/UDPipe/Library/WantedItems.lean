import UDPipe.Library.JoiningApart
import UDPipe.Library.ShiftReduce
import UDPipe.Library.Projective
import Mathlib.Data.List.Sort
import Mathlib.Data.List.TakeDrop

/-!
# Rows of a projective forest

The items of a stack and a buffer stand in a row, in the order of a projective forest, and the
buffer has everything behind its start. An item of the buffer is wanted when its head is not
in the buffer, or when it is the head of an item of the stack or of a wanted item. The others can
be put below their heads before they are needed, so reducing the stack and the buffer costs as
many errors as joining the stack with the wanted items one after another.
-/

namespace Joining

open Forest (LeadsTo IsForest Projective UpClosed Between)

variable {α : Type*}

/-- The arcs of a forest. -/
def HeadIn (parent : α → Option α) (head child : α) : Prop := parent child = some head

instance [DecidableEq α] (parent : α → Option α) : DecidableRel (HeadIn parent) :=
  fun head child => inferInstanceAs (Decidable (parent child = some head))

/-- The items of the buffer that the stack has to be joined with. -/
inductive Wanted (parent : α → Option α) (stack buffer : List α) : α → Prop
  | outside {a : α} (ha : a ∈ buffer) (hhead : ∀ b ∈ buffer, parent a ≠ some b) :
    Wanted parent stack buffer a
  | ofStack {a c : α} (ha : a ∈ buffer) (hc : c ∈ stack) (hhead : parent c = some a) :
    Wanted parent stack buffer a
  | ofWanted {a c : α} (ha : a ∈ buffer) (hc : Wanted parent stack buffer c)
    (hhead : parent c = some a) : Wanted parent stack buffer a

/-- Wanted items are in the buffer. -/
theorem Wanted.mem_buffer {parent : α → Option α} {stack buffer : List α} {a : α}
    (h : Wanted parent stack buffer a) : a ∈ buffer := by
  cases h <;> assumption

/-- A wanted item with its head in the buffer has a descendant on the stack. -/
theorem Wanted.exists_leadsTo {parent : α → Option α} {stack buffer : List α} {a b : α}
    (h : Wanted parent stack buffer a) (hb : b ∈ buffer) (hparent : parent a = some b) :
    ∃ e ∈ stack, LeadsTo parent e a := by
  induction h generalizing b with
  | outside _ hhead => exact absurd hparent (hhead b hb)
  | ofStack _ hc hhead => exact ⟨_, hc, .single hhead⟩
  | ofWanted ha _ hhead ih =>
    obtain ⟨e, he, hlead⟩ := ih ha hhead
    exact ⟨e, he, hlead.tail hhead⟩

/-- What is below a node has no arcs in common with what is not. -/
theorem apart_below (parent : α → Option α) (m : α) :
    Apart (HeadIn parent) (fun a => LeadsTo parent a m ∧ a ≠ m) fun b => ¬ LeadsTo parent b m := by
  rintro a b ⟨ha, hne⟩ hb
  refine ⟨fun hhead => hb (.head hhead ha), fun hhead => hb ?_⟩
  exact LeadsTo.from_parent ha hne hhead

variable [LinearOrder α]

/-- A stack and a buffer in the order of a projective forest. -/
structure Row (parent : α → Option α) (root : α) (nodes : Set α) (stack buffer : List α) :
    Prop where
  forest : IsForest parent
  upClosed : UpClosed parent root nodes
  projective : Projective parent id nodes
  stack_mem : ∀ a ∈ stack, a ∈ nodes
  buffer_mem : ∀ a ∈ buffer, a ∈ nodes
  stack_decreases : stack.Pairwise (· > ·)
  buffer_increases : buffer.Pairwise (· < ·)
  /-- Everything that is not in the buffer is before it. -/
  before : ∀ a ∈ nodes, a ∉ buffer → ∀ b ∈ buffer, a < b
  stack_not_buffer : ∀ a ∈ stack, a ∉ buffer
  root_not_buffer : root ∉ buffer

namespace Row

variable {parent : α → Option α} {root : α} {nodes : Set α} {stack buffer : List α}
  (row : Row parent root nodes stack buffer)

include row

/-- Between a node and an ancestor there are descendants of the ancestor. -/
theorem leadsTo_of_between {a b k : α} (ha : a ∈ nodes) (hb : b ∈ nodes) (hk : k ∈ nodes)
    (hlead : LeadsTo parent a b) (hbetween : a < k ∧ k < b ∨ b < k ∧ k < a) :
    LeadsTo parent k b :=
  row.upClosed.leadsTo_of_between row.forest row.projective Function.injective_id.injOn ha hb hk
    hlead hbetween

/-- The stack is before the buffer. -/
theorem stack_lt {a b : α} (ha : a ∈ stack) (hb : b ∈ buffer) : a < b :=
  row.before a (row.stack_mem a ha) (row.stack_not_buffer a ha) b hb

/-- Buffer items are not the root. -/
theorem ne_root {a : α} (ha : a ∈ buffer) : a ≠ root := fun h => row.root_not_buffer (h ▸ ha)

/-- As long as there is a buffer, some item is wanted. -/
theorem exists_wanted (hne : buffer ≠ []) : ∃ a, Wanted parent stack buffer a := by
  obtain ⟨b, hb⟩ := List.exists_mem_of_ne_nil buffer hne
  have hlead := row.upClosed.leadsTo_root row.forest (row.buffer_mem b hb)
  have hroot := row.root_not_buffer
  induction hlead using Relation.ReflTransGen.head_induction_on with
  | refl => exact absurd hb hroot
  | @head b c hbc _ ih =>
    by_cases hc : c ∈ buffer
    · exact ih hc
    · exact ⟨b, .outside hb fun a ha hba => hc (Option.some.inj (hbc.symm.trans hba) ▸ ha)⟩

/-- What is in the buffer before a wanted item is a descendant of it, or of its head that is not
in the buffer. -/
theorem leadsTo_of_lt {a z : α} (hz : Wanted parent stack buffer z) (ha : a ∈ buffer)
    (hlt : a < z) :
    LeadsTo parent a z ∨ ∃ y, y ∉ buffer ∧ parent z = some y ∧ LeadsTo parent a y := by
  have hznodes := row.buffer_mem z hz.mem_buffer
  have hanodes := row.buffer_mem a ha
  obtain ⟨y, hy, hparent⟩ := row.upClosed.parent_mem z hznodes (row.ne_root hz.mem_buffer)
  by_cases hbuffer : y ∈ buffer
  · obtain ⟨e, he, hlead⟩ := hz.exists_leadsTo hbuffer hparent
    exact .inl (row.leadsTo_of_between (row.stack_mem e he) hznodes hanodes hlead
      (.inl ⟨row.stack_lt he ha, hlt⟩))
  · exact .inr ⟨y, hbuffer, hparent, row.leadsTo_of_between hznodes hy hanodes (.single hparent)
      (.inr ⟨row.before y hy hbuffer a ha, hlt⟩)⟩

/-- A wanted item is not a descendant of an earlier item of the buffer. -/
theorem not_leadsTo_of_lt {a z : α} (hz : Wanted parent stack buffer z) (ha : a ∈ buffer)
    (hlt : a < z) : ¬ LeadsTo parent z a := by
  intro hlead
  rcases row.leadsTo_of_lt hz ha hlt with haz | ⟨y, hy, hparent, hay⟩
  · exact hlt.ne (row.forest.antisymm haz hlead)
  · have hya := LeadsTo.from_parent hlead hlt.ne' hparent
    exact hy (row.forest.antisymm hay hya ▸ ha)

/-- A wanted item behind an item with its head in the buffer is no other descendant of the
head. -/
theorem not_leadsTo_head {a b z : α} (hz : Wanted parent stack buffer z) (ha : a ∈ buffer)
    (hb : b ∈ buffer) (hlt : a < z) (hparent : parent a = some b) (hne : z ≠ b) :
    ¬ LeadsTo parent z b := by
  intro hlead
  rcases row.leadsTo_of_lt hz ha hlt with haz | ⟨y, hy, hzy, hay⟩
  · exact hne (row.forest.antisymm hlead (LeadsTo.from_parent haz hlt.ne hparent))
  · have hby := LeadsTo.from_parent hay (fun h => hy (h ▸ ha)) hparent
    exact hy (row.forest.antisymm hby (LeadsTo.from_parent hlead hne hzy) ▸ hb)

end Row

/-! ### The items below a wanted item -/

/-- A list with the members of a kind first is split behind them. -/
theorem exists_split {P : α → Prop} {l : List α} (hsorted : l.Pairwise (· > ·))
    (hP : ∀ a ∈ l, ∀ b ∈ l, b < a → P b → P a) :
    ∃ l₁ l₂, l = l₁ ++ l₂ ∧ (∀ a ∈ l₁, P a) ∧ ∀ b ∈ l₂, ¬ P b := by
  induction l with
  | nil => exact ⟨[], [], rfl, by simp, by simp⟩
  | cons x l ih =>
    obtain ⟨hx, hsorted⟩ := List.pairwise_cons.mp hsorted
    by_cases hPx : P x
    · obtain ⟨l₁, l₂, rfl, h₁, h₂⟩ := ih hsorted fun a ha b hb =>
        hP a (List.mem_cons_of_mem _ ha) b (List.mem_cons_of_mem _ hb)
      exact ⟨x :: l₁, l₂, rfl, by simpa using ⟨hPx, h₁⟩, h₂⟩
    · refine ⟨[], x :: l, rfl, by simp, fun b hb hPb => hPx ?_⟩
      rcases List.mem_cons.mp hb with rfl | hb'
      · exact hPb
      · exact hP x List.mem_cons_self b hb (hx b hb') hPb

omit [LinearOrder α] in
/-- Filtering when an item is left out. -/
theorem filter_around {l front back : List α} {m : α} {p : α → Bool} (hl : l = front ++ m :: back)
    (hp : p m = false) : l.filter p = front.filter p ++ back.filter p := by
  rw [hl, List.filter_append, List.filter_cons_of_neg (by simp [hp])]

namespace Row

variable {parent : α → Option α} {root : α} {nodes : Set α} {stack buffer : List α}
  (row : Row parent root nodes stack buffer) {top : α} {left wanted : List α}
  (hstack : stack = top :: left) (hsub : wanted.Sublist buffer)
  (hwanted : ∀ a, a ∈ wanted ↔ Wanted parent stack buffer a)

include row hstack hsub hwanted

omit hstack hsub hwanted in
/-- The root is not below an item. -/
theorem ne_root_of_below {m : α} (hm : m ∈ nodes) (a : α) (ha : LeadsTo parent a m ∧ a ≠ m) :
    a ≠ root := by
  rintro rfl
  exact ha.2 (row.forest.antisymm ha.1 (row.upClosed.leadsTo_root row.forest hm))

/-- The items below a wanted item can be joined in another way. -/
theorem replace_below {front back : List α} {m b : α} {errors : ℕ} {p : α → Bool}
    (hm : wanted = front ++ m :: back) (hb : b ∈ buffer) (hparent : parent m = some b)
    (h : Joins (HeadIn parent) root left top (front.filter p ++ back.filter p) root errors) :
    ∃ leftA leftB lastA errorsA, left = leftA ++ leftB ∧
      (∀ a ∈ leftA, LeadsTo parent a m ∧ a ≠ m) ∧ (∀ a ∈ leftB, ¬ LeadsTo parent a m) ∧
      (LeadsTo parent top m ∧ top ≠ m) ∧ (∀ a ∈ front, LeadsTo parent a m ∧ a ≠ m) ∧
      Joins (HeadIn parent) root leftA top (front.filter p) lastA errorsA ∧
      ∀ rightA last, (∀ a ∈ rightA, a ≠ root) →
        Joins (HeadIn parent) root leftA top rightA last errorsA →
          Joins (HeadIn parent) root left top (rightA ++ back.filter p) root errors := by
  subst hstack hm
  have hmwanted := (hwanted m).mp (by simp)
  have hmbuffer := hmwanted.mem_buffer
  have hmnodes := row.buffer_mem m hmbuffer
  obtain ⟨e, he, hem⟩ := hmwanted.exists_leadsTo hb hparent
  have henodes := row.stack_mem e he
  obtain ⟨htop, hsorted⟩ := List.pairwise_cons.mp row.stack_decreases
  obtain ⟨-, hback, hfront⟩ := List.pairwise_append.mp (row.buffer_increases.sublist hsub)
  -- everything between the descendant on the stack and `m` is below `m`
  have hbelow : ∀ a ∈ nodes, e < a → a < m → LeadsTo parent a m := fun a ha hea ham =>
    row.leadsTo_of_between henodes hmnodes ha hem (.inl ⟨hea, ham⟩)
  have hstackne : ∀ a ∈ top :: left, a ≠ m := fun a ha => (row.stack_lt ha hmbuffer).ne
  have htopm : LeadsTo parent top m := by
    rcases List.mem_cons.mp he with rfl | he'
    · exact hem
    · exact hbelow top (row.stack_mem top (by simp)) (htop e he')
        (row.stack_lt List.mem_cons_self hmbuffer)
  obtain ⟨leftA, leftB, hleft, hA, hB⟩ := @exists_split _ _ (fun a => LeadsTo parent a m) left
    hsorted fun a ha b hb hlt hbm => row.leadsTo_of_between (row.stack_mem b (by simp [hb])) hmnodes
      (row.stack_mem a (by simp [ha])) hbm
      (.inl ⟨hlt, row.stack_lt (List.mem_cons_of_mem _ ha) hmbuffer⟩)
  have hA' : ∀ a ∈ leftA, LeadsTo parent a m ∧ a ≠ m := fun a ha =>
    ⟨hA a ha, hstackne a (List.mem_cons_of_mem _ (hleft ▸ List.mem_append_left _ ha))⟩
  have hfront' : ∀ a ∈ front, LeadsTo parent a m ∧ a ≠ m := by
    intro a ha
    have hbuffer := hsub.subset (List.mem_append_left _ ha)
    have ham := hfront a ha m List.mem_cons_self
    exact ⟨hbelow a (row.buffer_mem a hbuffer) (row.stack_lt he hbuffer) ham, ham.ne⟩
  have hback' : ∀ a ∈ back, ¬ LeadsTo parent a m := by
    intro a ha
    refine row.not_leadsTo_of_lt ((hwanted a).mp (by simp [ha])) hmbuffer ?_
    exact (List.pairwise_cons.mp hback).1 a ha
  obtain ⟨lastA, errorsA, hjoins, hreplace⟩ := (hleft ▸ h).replace_near
    (apart_below parent m) ⟨htopm, hstackne top List.mem_cons_self⟩
    (fun a ha => ha.elim (hA' a) fun ha => hfront' a (List.mem_filter.mp ha).1)
    (fun a ha => ha.elim (hB a) fun ha => hback' a (List.mem_filter.mp ha).1)
    (row.ne_root_of_below hmnodes)
  exact ⟨leftA, leftB, lastA, errorsA, hleft, hA', hB, ⟨htopm, hstackne top List.mem_cons_self⟩,
    hfront', hjoins, fun rightA last hright hjoins' => hleft ▸ hreplace rightA last hright hjoins'⟩

omit hstack in
/-- In a sorted row, filtering an item out removes it. -/
theorem filter_ne {front back : List α} {m : α} (hm : wanted = front ++ m :: back)
    {p : α → Bool} {U V : List α} {z : α} (hz : front.filter p = U ++ z :: V) (hp : p m = false) :
    wanted.filter (fun a => p a && a != z) = U ++ V ++ back.filter p := by
  subst hm
  have hsorted := row.buffer_increases.sublist hsub
  obtain ⟨hfront, hback, hcross⟩ := List.pairwise_append.mp hsorted
  have hzfront : z ∈ front := (List.mem_filter.mp (hz ▸ by simp : z ∈ front.filter p)).1
  obtain ⟨-, hV, hU⟩ := List.pairwise_append.mp (hz ▸ hfront.filter p)
  have hfilter (l : List α) : l.filter (fun a => p a && a != z) =
      (l.filter p).filter fun a => a != z := by
    rw [List.filter_filter]
    simp only [Bool.and_comm]
  have hne (l : List α) (h : ∀ a ∈ l, a ≠ z) : l.filter (fun a => a != z) = l :=
    List.filter_eq_self.mpr fun a ha => by simpa using h a ha
  rw [List.filter_append, List.filter_cons_of_neg (by simp [hp]), hfilter, hfilter, hz,
    List.filter_append, List.filter_cons_of_neg (by simp), hne U, hne V, hne (back.filter p)]
  · intro a ha
    exact (hcross z hzfront a (List.mem_cons_of_mem _ (List.mem_filter.mp ha).1)).ne'
  · exact fun a ha => ((List.pairwise_cons.mp hV).1 a ha).ne'
  · exact fun a ha => (hU a ha z List.mem_cons_self).ne

omit hstack in
/-- A wanted child of a wanted item is in front of it. -/
theorem mem_front {front back : List α} {m c : α} (hm : wanted = front ++ m :: back)
    (hc : Wanted parent stack buffer c) (hcm : parent c = some m) : c ∈ front := by
  have hsorted := row.buffer_increases.sublist hsub
  have hmbuffer := hsub.subset (by simp [hm] : m ∈ wanted)
  have hmem := (hwanted c).mpr hc
  rw [hm] at hmem hsorted
  rcases List.mem_append.mp hmem with hfront | hmem
  · exact hfront
  rcases List.mem_cons.mp hmem with rfl | hback
  · exact absurd hcm (row.forest.ne_of_leadsTo_parent .refl)
  · have hlt : m < c := (List.pairwise_cons.mp (List.pairwise_append.mp hsorted).2.1).1 c hback
    exact absurd (.single hcm) (row.not_leadsTo_of_lt hc hmbuffer hlt)

/-- A wanted item with its head in the buffer can be put in when a wanted child of it is there. -/
theorem insert_of_wanted {front back : List α} {m b c : α} {errors : ℕ} {p : α → Bool}
    (hm : wanted = front ++ m :: back) (hb : b ∈ buffer) (hparent : parent m = some b)
    (hp : p m = false) (hc : Wanted parent stack buffer c) (hcm : parent c = some m)
    (hpc : p c = true)
    (h : Joins (HeadIn parent) root left top (wanted.filter p) root errors) :
    Joins (HeadIn parent) root left top (front.filter p ++ m :: back.filter p) root errors := by
  obtain ⟨leftA, leftB, lastA, errorsA, hleft, hA, hB, htop, hfront, hjoins, hreplace⟩ :=
    row.replace_below hstack hsub hwanted hm hb hparent (filter_around hm hp ▸ h)
  have hmwanted := (hwanted m).mp (by simp [hm])
  have hmbuffer := hmwanted.mem_buffer
  have hmnodes := row.buffer_mem m hmbuffer
  have hmroot := row.ne_root hmbuffer
  have hsorted := row.buffer_increases.sublist hsub
  rw [hm] at hsorted
  have hfrontsorted := (List.pairwise_append.mp hsorted).1
  -- the child is the last item before `m`
  obtain ⟨before, after, rfl⟩ := List.append_of_mem (row.mem_front hsub hwanted hm hc hcm)
  obtain rfl : after = [] := by
    refine List.eq_nil_iff_forall_not_mem.mpr fun z hz => ?_
    have hzfront : z ∈ before ++ c :: after := by simp [hz]
    have hzwanted := (hwanted z).mp (by rw [hm]; exact List.mem_append_left _ hzfront)
    have hlt : c < z := (List.pairwise_cons.mp (List.pairwise_append.mp hfrontsorted).2.1).1 z hz
    exact row.not_leadsTo_head hzwanted hc.mem_buffer hmbuffer hlt hcm (hfront z hzfront).2
      (hfront z hzfront).1
  have hfiltered : (before ++ [c]).filter p = before.filter p ++ [c] := by
    rw [List.filter_append, List.filter_cons_of_pos hpc, List.filter_nil]
  rw [hfiltered] at hjoins ⊢
  have hcm' : HeadIn parent m c := hcm
  obtain ⟨last', hput⟩ := hjoins.insert_of_last hcm' hmroot (row.ne_root hc.mem_buffer)
    (fun a ha hhead => ha.2 (Option.some.inj (hhead.symm.trans hcm))) (row.ne_root_of_below hmnodes)
    htop hA
    fun a ha => hfront a (List.mem_append_left _ (List.mem_filter.mp ha).1)
  have hwhole := hreplace _ last' (fun a ha => ?_) hput
  · simpa using hwhole
  · rcases List.mem_append.mp ha with ha | ha
    · have hmem := List.mem_append_left [c] (List.mem_filter.mp ha).1
      exact row.ne_root_of_below hmnodes a (hfront a hmem)
    · simp only [List.mem_cons, List.not_mem_nil, or_false] at ha
      rcases ha with rfl | rfl
      · exact row.ne_root hc.mem_buffer
      · exact hmroot

omit hstack hsub hwanted in
/-- What is below an item has no arcs from one side of a child on the stack to the other one. -/
theorem apart_beside {m x : α} (hm : m ∈ buffer) (hx : x ∈ stack) (hxm : parent x = some m) :
    Apart (HeadIn parent) (fun a => a ∈ nodes ∧ x < a ∧ LeadsTo parent a m ∧ a ≠ m)
      fun a => a ∈ nodes ∧ a < x ∧ LeadsTo parent a m := by
  have hxnodes := row.stack_mem x hx
  rintro a c ⟨ha, hxa, ham, hne⟩ ⟨hc, hcx, hcm⟩
  constructor
  · intro hhead
    have hlead := row.leadsTo_of_between hc ha hxnodes (.single hhead) (.inl ⟨hcx, hxa⟩)
    exact hne (row.forest.antisymm ham (LeadsTo.from_parent hlead hxa.ne hxm))
  · intro hhead
    have hlead := row.leadsTo_of_between ha hc hxnodes (.single hhead) (.inr ⟨hcx, hxa⟩)
    have heq := row.forest.antisymm hcm (LeadsTo.from_parent hlead hcx.ne' hxm)
    exact (row.stack_lt hx hm).asymm (heq ▸ hcx)

/-- An item that has a child on the stack can be put in behind the items below it, or one of these
can be left out. -/
theorem insert_below {front leftA leftB : List α} {m x lastA : α} {errorsA : ℕ} {p : α → Bool}
    (hleft : left = leftA ++ leftB) (hm : m ∈ buffer) (hx : x ∈ stack) (hxm : parent x = some m)
    (hA : ∀ a ∈ leftA, LeadsTo parent a m ∧ a ≠ m) (hB : ∀ a ∈ leftB, ¬ LeadsTo parent a m)
    (htop : LeadsTo parent top m ∧ top ≠ m) (hfrontsub : front.Sublist wanted)
    (hfront : ∀ a ∈ front, LeadsTo parent a m ∧ a ≠ m)
    (hjoins : Joins (HeadIn parent) root leftA top (front.filter p) lastA errorsA) :
    (∃ last', Joins (HeadIn parent) root leftA top (front.filter p ++ [m]) last' errorsA) ∨
      Drops (HeadIn parent) root leftA top (front.filter p) errorsA := by
  have hmnodes := row.buffer_mem m hm
  have hmroot := row.ne_root hm
  have hxm' : HeadIn parent m x := hxm
  have hxroot : x ≠ root := by
    rintro rfl
    exact row.forest.ne_of_leadsTo_parent (row.upClosed.leadsTo_root row.forest hmnodes) hxm
  have honly : ∀ a, a ≠ m → ¬ HeadIn parent a x := fun a ha hhead =>
    ha (Option.some.inj (hhead.symm.trans hxm))
  have hother : ∀ a, (a ∈ nodes ∧ x < a ∧ LeadsTo parent a m ∧ a ≠ m) ∨
      (a ∈ nodes ∧ a < x ∧ LeadsTo parent a m) → ¬ HeadIn parent a x := by
    rintro a (ha | ha)
    · exact honly a ha.2.2.2
    · exact honly a (ha.2.1.trans (row.stack_lt hx hm)).ne
  have hroot : ∀ a, (a ∈ nodes ∧ x < a ∧ LeadsTo parent a m ∧ a ≠ m) → a ≠ root := fun a ha =>
    row.ne_root_of_below hmnodes a ha.2.2
  have hright : ∀ a ∈ front.filter p, a ∈ nodes ∧ x < a ∧ LeadsTo parent a m ∧ a ≠ m := by
    intro a ha
    have hmem := (List.mem_filter.mp ha).1
    have hbuffer := hsub.subset (hfrontsub.subset hmem)
    exact ⟨row.buffer_mem a hbuffer, row.stack_lt hx hbuffer, hfront a hmem⟩
  have hlater : (front.filter p).Pairwise fun a b => ¬ HeadIn parent a b := by
    have hsorted := row.buffer_increases.sublist (hfrontsub.trans hsub)
    refine (hsorted.filter p).imp_of_mem fun {a c} ha hc hlt hhead => ?_
    have hcwanted := (hwanted c).mp (hfrontsub.subset (List.mem_filter.mp hc).1)
    exact row.not_leadsTo_of_lt hcwanted
      (hsub.subset (hfrontsub.subset (List.mem_filter.mp ha).1)) hlt (.single hhead)
  have happart := row.apart_beside hm hx hxm
  subst hstack hleft
  obtain ⟨htopgt, hsortedleft⟩ := List.pairwise_cons.mp row.stack_decreases
  have hleftnodes : ∀ a ∈ leftA, a ∈ nodes := fun a ha => row.stack_mem a (by simp [ha])
  rcases List.mem_cons.mp hx with rfl | hx'
  · exact hjoins.insert_of_head hxm' hmroot hxroot happart hother hroot
      (fun a ha => ⟨hleftnodes a ha, htopgt a (by simp [ha]), (hA a ha).1⟩) hright hlater
  · have hxA : x ∈ leftA := by
      rcases List.mem_append.mp hx' with hx' | hx'
      · exact hx'
      · exact absurd (.single hxm) (hB x hx')
    obtain ⟨above, below, rfl⟩ := List.append_of_mem hxA
    obtain ⟨-, hbelowx, habove⟩ :=
      List.pairwise_append.mp (List.pairwise_append.mp hsortedleft).1
    refine hjoins.insert_of_left hxm' hmroot hxroot happart hother hroot
      ⟨row.stack_mem top (by simp), htopgt x hx', htop⟩ (fun a ha => ?_) (fun a ha => ?_)
      hright hlater
    · exact ⟨hleftnodes a (by simp [ha]), habove a ha x (by simp), hA a (by simp [ha])⟩
    · exact ⟨hleftnodes a (by simp [ha]), (List.pairwise_cons.mp hbelowx).1 a ha,
        (hA a (by simp [ha])).1⟩

/-- A wanted item with its head in the buffer can be put in when a child of it is on the stack,
or another such item can be left out before it. -/
theorem insert_or_drop {front back : List α} {m b x : α} {errors : ℕ} {p : α → Bool}
    (hm : wanted = front ++ m :: back) (hb : b ∈ buffer) (hparent : parent m = some b)
    (hp : p m = false) (hx : x ∈ stack) (hxm : parent x = some m)
    (h : Joins (HeadIn parent) root left top (wanted.filter p) root errors) :
    Joins (HeadIn parent) root left top (front.filter p ++ m :: back.filter p) root errors ∨
      ∃ z ∈ front, p z = true ∧ (∃ a ∈ buffer, parent z = some a) ∧
        Joins (HeadIn parent) root left top (wanted.filter fun a => p a && a != z) root errors := by
  obtain ⟨leftA, leftB, lastA, errorsA, hleft, hA, hB, htop, hfront, hjoins, hreplace⟩ :=
    row.replace_below hstack hsub hwanted hm hb hparent (filter_around hm hp ▸ h)
  have hmbuffer := ((hwanted m).mp (by simp [hm])).mem_buffer
  have hfrontsub : front.Sublist wanted := hm ▸ List.sublist_append_left front _
  have hroot : ∀ a ∈ front.filter p, a ≠ root := fun a ha =>
    row.ne_root_of_below (row.buffer_mem m hmbuffer) a (hfront a (List.mem_filter.mp ha).1)
  rcases row.insert_below hstack hsub hwanted hleft hmbuffer hx hxm hA hB htop hfrontsub hfront
    hjoins with ⟨last', hput⟩ | ⟨U, z, V, last', hz, ⟨a, ha, hhead⟩, hput⟩
  · refine .inl ?_
    have hwhole := hreplace _ last' (fun a ha => ?_) hput
    · simpa using hwhole
    · rcases List.mem_append.mp ha with ha | ha
      · exact hroot a ha
      · exact List.mem_singleton.mp ha ▸ row.ne_root hmbuffer
  · have hzmem : z ∈ front.filter p := by simp [hz]
    obtain ⟨hzfront, hpz⟩ := List.mem_filter.mp hzmem
    have hafront : a ∈ front := (List.mem_filter.mp (hz ▸ by simp [ha] : a ∈ front.filter p)).1
    refine .inr ⟨z, hzfront, hpz, ⟨a, hsub.subset (hfrontsub.subset hafront), hhead⟩, ?_⟩
    rw [row.filter_ne hsub hwanted hm hz hp]
    refine hreplace (U ++ V) last' (fun c hc => hroot c ?_) hput
    rw [hz]
    rcases List.mem_append.mp hc with hc | hc <;> simp [hc]

omit hstack hwanted in
/-- Filtering with one more item puts it in. -/
theorem filter_or {front back : List α} {m : α} (hm : wanted = front ++ m :: back) (p : α → Bool) :
    wanted.filter (fun a => p a || a == m) = front.filter p ++ m :: back.filter p := by
  subst hm
  obtain ⟨-, hback, hcross⟩ := List.pairwise_append.mp (row.buffer_increases.sublist hsub)
  have hsame (l : List α) (h : ∀ a ∈ l, a ≠ m) : l.filter (fun a => p a || a == m) = l.filter p :=
    List.filter_congr fun a ha => by simp [h a ha]
  rw [List.filter_append, List.filter_cons_of_pos (by simp), hsame front, hsame back]
  · exact fun a ha => ((List.pairwise_cons.mp hback).1 a ha).ne'
  · exact fun a ha => (hcross a ha m List.mem_cons_self).ne

/-- Joining with some of the wanted items, those with their head outside of the buffer among
them, is no better than joining with one more. -/
theorem exists_insert {front back : List α} {m : α} {errors : ℕ} {p : α → Bool}
    (hm : wanted = front ++ m :: back)
    (houtside : ∀ a ∈ wanted, (∀ b ∈ buffer, parent a ≠ some b) → p a = true)
    (h : Joins (HeadIn parent) root left top (wanted.filter p) root errors) :
    ∃ p' : α → Bool, (∀ a, p a = true → p' a = true) ∧ p' m = true ∧
      Joins (HeadIn parent) root left top (wanted.filter p') root errors := by
  -- by the place of the item, and then by the number of items that are there
  induction hn : front.length using Nat.strong_induction_on generalizing front back m p with
  | _ n ih =>
  subst hn
  induction hk : (wanted.filter p).length using Nat.strong_induction_on generalizing p with
  | _ k ihp =>
  by_cases hp : p m = true
  · exact ⟨p, fun _ => id, hp, h⟩
  rw [Bool.not_eq_true] at hp
  have hmem : m ∈ wanted := by simp [hm]
  obtain ⟨b, hb, hparent⟩ : ∃ b ∈ buffer, parent m = some b := by
    by_contra hnone
    push Not at hnone
    exact absurd (houtside m hmem hnone) (by simp [hp])
  have hmwanted := (hwanted m).mp hmem
  have hput {q : α → Bool} (h : Joins (HeadIn parent) root left top
      (front.filter q ++ m :: back.filter q) root errors) (hle : ∀ a, p a = true → q a = true) :
      ∃ p' : α → Bool, (∀ a, p a = true → p' a = true) ∧ p' m = true ∧
        Joins (HeadIn parent) root left top (wanted.filter p') root errors := by
    refine ⟨fun a => q a || a == m, fun a ha => by simp [hle a ha], by simp, ?_⟩
    rw [row.filter_or hsub hm]
    exact h
  by_cases hchild : ∃ c, Wanted parent stack buffer c ∧ parent c = some m
  · -- the wanted child comes first
    obtain ⟨c, hc, hcm⟩ := hchild
    obtain ⟨front₁, front₂, rfl⟩ := List.append_of_mem (row.mem_front hsub hwanted hm hc hcm)
    obtain ⟨q, hle, hqc, hq⟩ := ih front₁.length
      (by simp only [List.length_append, List.length_cons]; omega)
      (hm.trans (List.append_assoc front₁ (c :: front₂) (m :: back))) houtside h rfl
    by_cases hqm : q m = true
    · exact ⟨q, hle, hqm, hq⟩
    · exact hput (row.insert_of_wanted hstack hsub hwanted hm hb hparent
        (Bool.not_eq_true _ ▸ hqm) hc hcm hqc hq) hle
  · cases hmwanted with
    | outside _ hhead => exact absurd hparent (hhead b hb)
    | ofWanted _ hc hcm => exact absurd ⟨_, hc, hcm⟩ hchild
    | ofStack _ hx hxm =>
      rcases row.insert_or_drop hstack hsub hwanted hm hb hparent hp hx hxm h with
        h | ⟨z, hz, hpz, ⟨a, ha, hza⟩, hdrop⟩
      · exact hput h fun _ => id
      · -- `z` is left out, `m` is put in, and then `z` again
        have hzmem : z ∈ wanted := by simp [hm, hz]
        have hlt : (wanted.filter fun a => p a && a != z).length < k := by
          rw [← hk, funext fun a => Bool.and_comm (p a) (a != z), ← List.filter_filter,
            List.length_filter_lt_length_iff_exists]
          exact ⟨z, List.mem_filter.mpr ⟨hzmem, hpz⟩, by simp⟩
        have houtside' : ∀ c ∈ wanted, (∀ b ∈ buffer, parent c ≠ some b) →
            (p c && c != z) = true := by
          intro c hc hnone
          have hne : c ≠ z := by
            rintro rfl
            exact hnone a ha hza
          simpa [hne] using houtside c hc hnone
        obtain ⟨q, hleq, hqm, hq⟩ := ihp _ hlt houtside' hdrop rfl
        obtain ⟨front₁, front₂, rfl⟩ := List.append_of_mem hz
        obtain ⟨r, hler, hrz, hr⟩ := ih front₁.length
          (by simp only [List.length_append, List.length_cons]; omega)
          (hm.trans (List.append_assoc front₁ (z :: front₂) (m :: back)))
          (fun c hc hnone => hleq c (houtside' c hc hnone)) hq rfl
        refine ⟨r, fun c hc => ?_, hler m hqm, hr⟩
        by_cases hcz : c = z
        · exact hcz ▸ hrz
        · exact hler c (hleq c (by simp [hc, hcz]))

/-- Joining with some of the wanted items is no better than joining with all of them. -/
theorem joins_wanted_of_filter {errors : ℕ} {p : α → Bool}
    (houtside : ∀ a ∈ wanted, (∀ b ∈ buffer, parent a ≠ some b) → p a = true)
    (h : Joins (HeadIn parent) root left top (wanted.filter p) root errors) :
    Joins (HeadIn parent) root left top wanted root errors := by
  have hsome : ∀ l : List α, (∀ a ∈ l, a ∈ wanted) →
      ∃ q : α → Bool, (∀ a, p a = true → q a = true) ∧ (∀ a ∈ l, q a = true) ∧
        Joins (HeadIn parent) root left top (wanted.filter q) root errors := by
    intro l hl
    induction l with
    | nil => exact ⟨p, fun _ => id, by simp, h⟩
    | cons m l ih =>
      obtain ⟨hm, hl⟩ := List.forall_mem_cons.mp hl
      obtain ⟨q, hle, hq, hjoins⟩ := ih hl
      obtain ⟨front, back, hsplit⟩ := List.append_of_mem hm
      obtain ⟨r, hler, hrm, hjoins'⟩ := row.exists_insert hstack hsub hwanted hsplit
        (fun a ha hnone => hle a (houtside a ha hnone)) hjoins
      exact ⟨r, fun a ha => hler a (hle a ha),
        List.forall_mem_cons.mpr ⟨hrm, fun a ha => hler a (hq a ha)⟩, hjoins'⟩
  obtain ⟨q, -, hq, hjoins⟩ := hsome wanted fun _ => id
  rwa [List.filter_eq_self.mpr hq] at hjoins

/-- What the stack and the buffer can be reduced with can be had by joining the stack with the
wanted items. -/
theorem joins_wanted_of_reduces {errors : ℕ}
    (h : Reduces (HeadIn parent) root stack buffer errors) :
    Joins (HeadIn parent) root left top wanted root errors := by
  classical
  obtain ⟨right, hright, hlost, hjoins⟩ :=
    Reduces.exists_joins (hstack ▸ h) fun a ha => row.ne_root ha
  have hkeep : ∀ a ∈ stack, a ∈ stack ∨ Wanted parent stack buffer a := fun a ha => .inl ha
  obtain ⟨last, hjoins, hlast⟩ := (hjoins.filter (fun a => a ∈ stack ∨ Wanted parent stack buffer a)
    (fun a ha => hkeep a (by simp [hstack, ha])) (by
      intro a ha hnot
      have habuffer : a ∈ buffer := by
        rcases ha with rfl | ha | ha
        · exact absurd (hkeep a (by simp [hstack])) hnot
        · exact absurd (hkeep a (by simp [hstack, ha])) hnot
        · exact hright.subset ha
      rw [not_or] at hnot
      refine ⟨row.ne_root habuffer, fun b _ hb hhead => hnot.2 ?_⟩
      rcases hb with hb | hb
      · exact .ofStack habuffer hb hhead
      · exact .ofWanted habuffer hb hhead)).1 (hkeep top (by simp [hstack]))
  obtain rfl := hlast rfl
  -- what is kept are those of the wanted items that are joined
  have hsame : right.filter (fun a => decide (a ∈ stack ∨ Wanted parent stack buffer a)) =
      wanted.filter fun a => decide (a ∈ right) := by
    have hsorted := row.buffer_increases
    refine List.Pairwise.eq_of_mem_iff ((hsorted.sublist hright).filter _)
      ((hsorted.sublist hsub).filter _) fun a => ?_
    simp only [List.mem_filter, decide_eq_true_eq, hwanted]
    constructor
    · rintro ⟨ha, hmem | hmem⟩
      · exact absurd (hright.subset ha) (row.stack_not_buffer a hmem)
      · exact ⟨hmem, ha⟩
    · exact fun ⟨hmem, ha⟩ => ⟨ha, .inr hmem⟩
  refine row.joins_wanted_of_filter hstack hsub hwanted (fun a ha hnone => ?_) (hsame ▸ hjoins)
  rw [decide_eq_true_eq]
  by_contra hnot
  obtain ⟨b, hb, hhead⟩ := hlost a (hsub.subset ha) hnot
  exact hnone b hb hhead

omit hstack hsub hwanted in
/-- A row of items of the buffer with the heads of those that are not wanted has such an item
next to its head, and it is the head of no such item itself. -/
theorem exists_adjacent {l : List α} (hl : l.Sublist buffer)
    (hclosed : ∀ a ∈ l, ¬ Wanted parent stack buffer a → ∃ b ∈ l, parent a = some b)
    (hother : ∃ a ∈ l, ¬ Wanted parent stack buffer a) :
    ∃ front a b back, (l = front ++ a :: b :: back ∨ l = front ++ b :: a :: back) ∧
      ¬ Wanted parent stack buffer a ∧ parent a = some b ∧
      ∀ c ∈ l, ¬ Wanted parent stack buffer c → parent c ≠ some a := by
  obtain ⟨a, ha, hnot⟩ := hother
  obtain ⟨b, hb, hab⟩ := hclosed a ha hnot
  obtain ⟨u, hu, ⟨c, hc, hcnot, hcu⟩, hlowest⟩ := row.forest.exists_lowest_mem
    (fun u => ∃ c ∈ l, ¬ Wanted parent stack buffer c ∧ parent c = some u) ⟨b, hb, a, ha, hnot, hab⟩
  have hubuffer := hl.subset hu
  have hcbuffer := hl.subset hc
  have hleadsTo : ∀ z ∈ l, Between id c z u → LeadsTo parent z u := fun z hz hbetween =>
    row.leadsTo_of_between (row.buffer_mem c hcbuffer) (row.buffer_mem u hubuffer)
      (row.buffer_mem z (hl.subset hz)) (.single hcu) hbetween
  have hnotwanted : ∀ z ∈ l, Between id c z u → ¬ Wanted parent stack buffer z := by
    rintro z hz hbetween hwant
    rcases hbetween with hlt | hlt
    · exact row.not_leadsTo_head hwant hcbuffer hubuffer hlt.1 hcu hlt.2.ne
        (hleadsTo z hz (.inl hlt))
    · exact row.not_leadsTo_of_lt hwant hubuffer hlt.1 (hleadsTo z hz (.inr hlt))
  -- the items between the two are children of `u`, as none below `u` has a child
  have hneighbour : ∀ z ∈ l, z = c ∨ Between id c z u → ¬ Wanted parent stack buffer z ∧
      parent z = some u ∧ ∀ c ∈ l, ¬ Wanted parent stack buffer c → parent c ≠ some z := by
    have hbelow : ∀ z ∈ l, LeadsTo parent z u → z ≠ u → ∀ c ∈ l,
        ¬ Wanted parent stack buffer c → parent c ≠ some z := fun z hz hlead hne c hc hcnot hcz =>
      hlowest z hz ((Relation.reflTransGen_iff_eq_or_transGen.mp hlead).resolve_left (Ne.symm hne))
        ⟨c, hc, hcnot, hcz⟩
    rintro z hz (rfl | hbetween)
    · exact ⟨hcnot, hcu, hbelow z hz (.single hcu) fun h =>
        row.forest.ne_of_leadsTo_parent .refl (h ▸ hcu)⟩
    · have hlead := hleadsTo z hz hbetween
      have hne : z ≠ u := by
        rintro rfl
        rcases hbetween with hlt | hlt
        · exact hlt.2.ne rfl
        · exact hlt.1.ne rfl
      have hznot := hnotwanted z hz hbetween
      obtain ⟨w, hw, hzw⟩ := hclosed z hz hznot
      refine ⟨hznot, ?_, hbelow z hz hlead hne⟩
      by_contra hwu
      exact hbelow w hw (LeadsTo.from_parent hlead hne hzw) (fun h => hwu (h ▸ hzw)) z hz hznot hzw
  obtain ⟨pre, post, rfl⟩ := List.append_of_mem hu
  obtain ⟨hpre, hpost, hcross⟩ := List.pairwise_append.mp (row.buffer_increases.sublist hl)
  rcases List.mem_append.mp hc with hc' | hc'
  · obtain ⟨pre', z, rfl⟩ := (List.eq_nil_or_concat' pre).resolve_left (List.ne_nil_of_mem hc')
    have hzu : z < u := hcross z (by simp) u (by simp)
    have hcz : z = c ∨ c < z := by
      rcases List.mem_append.mp hc' with hc' | hc'
      · exact .inr ((List.pairwise_append.mp hpre).2.2 c hc' z (by simp))
      · exact .inl (List.mem_singleton.mp hc').symm
    obtain ⟨hznot, hzparent, hleaf⟩ := hneighbour z (by simp) (hcz.imp_right fun h => .inl ⟨h, hzu⟩)
    exact ⟨pre', z, u, post, .inl (by simp), hznot, hzparent, hleaf⟩
  · have hcne : c ≠ u := fun h => row.forest.ne_of_leadsTo_parent .refl (h ▸ hcu)
    have hc'' := (List.mem_cons.mp hc').resolve_left hcne
    obtain ⟨z, post', rfl⟩ := List.exists_cons_of_ne_nil (List.ne_nil_of_mem hc'')
    obtain ⟨hu', hpost⟩ := List.pairwise_cons.mp hpost
    have huz : u < z := hu' z (by simp)
    have hzc : z = c ∨ z < c := by
      rcases List.mem_cons.mp hc'' with rfl | hc''
      · exact .inl rfl
      · exact .inr ((List.pairwise_cons.mp hpost).1 c hc'')
    obtain ⟨hznot, hzparent, hleaf⟩ := hneighbour z (by simp) (hzc.imp_right fun h => .inr ⟨huz, h⟩)
    exact ⟨pre, z, u, post', .inr rfl, hznot, hzparent, hleaf⟩

omit hstack in
/-- What holds of the wanted items holds of the buffer when an item can be put in next to its
head. -/
theorem of_wanted (P : List α → Prop)
    (hbefore : ∀ front a b back, a ≠ root → HeadIn parent b a → P (front ++ b :: back) →
      P (front ++ a :: b :: back))
    (hafter : ∀ front a b back, a ≠ root → HeadIn parent b a → P (front ++ b :: back) →
      P (front ++ b :: a :: back))
    (h : P wanted) : P buffer := by
  have hrow : ∀ l : List α, l.Sublist buffer → (∀ a, Wanted parent stack buffer a → a ∈ l) →
      (∀ a ∈ l, ¬ Wanted parent stack buffer a → ∃ b ∈ l, parent a = some b) → P l := by
    intro l hl hall hclosed
    induction hn : l.length using Nat.strong_induction_on generalizing l with
    | _ n ih =>
    subst hn
    by_cases hother : ∃ a ∈ l, ¬ Wanted parent stack buffer a
    · obtain ⟨front, a, b, back, hsplit, hnot, hab, hleaf⟩ :=
        row.exists_adjacent hl hclosed hother
      have hmem : ∀ c, c ∈ l ↔ c = a ∨ c ∈ front ++ b :: back := by
        intro c
        rcases hsplit with rfl | rfl <;> simp only [List.mem_append, List.mem_cons] <;> tauto
      have hroot := row.ne_root (hl.subset ((hmem a).mpr (.inl rfl)))
      have hshort : (front ++ b :: back).Sublist l := by
        rcases hsplit with rfl | rfl
        · exact (List.sublist_cons_self a _).append_left front
        · exact ((List.sublist_cons_self a back).cons_cons b).append_left front
      have hP : P (front ++ b :: back) := by
        refine ih _ ?_ _ (hshort.trans hl) (fun c hc => ?_) (fun c hc hcnot => ?_) rfl
        · rcases hsplit with rfl | rfl <;> simp
        · refine ((hmem c).mp (hall c hc)).resolve_left ?_
          rintro rfl
          exact hnot hc
        · have hcl := (hmem c).mpr (.inr hc)
          obtain ⟨d, hd, hcd⟩ := hclosed c hcl hcnot
          refine ⟨d, ((hmem d).mp hd).resolve_left ?_, hcd⟩
          rintro rfl
          exact hleaf c hcl hcnot hcd
      rcases hsplit with rfl | rfl
      · exact hbefore front a b back hroot hab hP
      · exact hafter front a b back hroot hab hP
    · push Not at hother
      have hsame : l = wanted := by
        have hsorted := row.buffer_increases
        refine List.Pairwise.eq_of_mem_iff (hsorted.sublist hl) (hsorted.sublist hsub) fun a => ?_
        rw [hwanted]
        exact ⟨hother a, hall a⟩
      exact hsame ▸ h
  refine hrow buffer (.refl _) (fun a ha => ha.mem_buffer) fun a ha hnot => ?_
  by_contra hnone
  push Not at hnone
  exact hnot (.outside ha hnone)

/-- Reducing the stack and the buffer costs as many errors as joining the stack with the wanted
items. -/
theorem reduces_iff {errors : ℕ} : Reduces (HeadIn parent) root stack buffer errors ↔
    Joins (HeadIn parent) root left top wanted root errors := by
  refine ⟨row.joins_wanted_of_reduces hstack hsub hwanted, fun h => ?_⟩
  refine row.of_wanted hsub hwanted (fun l => Reduces (HeadIn parent) root stack l errors)
    (fun _ _ _ _ hroot hhead h => h.insert_before hroot hhead)
    (fun _ _ _ _ hroot hhead h => h.insert_after hroot hhead) ?_
  rw [hstack]
  exact h.reduces rfl

/-- A step that joining with the wanted items can begin with can be the next one. -/
theorem reducesBy_of_begins {move : Move} {errors : ℕ}
    (h : Begins (HeadIn parent) root move left top wanted root errors) :
    ReducesBy (HeadIn parent) root move stack buffer errors := by
  refine row.of_wanted hsub hwanted (fun l => ReducesBy (HeadIn parent) root move stack l errors)
    (fun _ _ _ _ hroot hhead h => h.insert_before hroot hhead)
    (fun _ _ _ _ hroot hhead h => h.insert_after hroot hhead) ?_
  rw [hstack]
  exact h.reducesBy

end Row

end Joining
