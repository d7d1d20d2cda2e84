import Mathlib.Tactic.Common
import Mathlib.Logic.Relation
import Mathlib.Order.Basic

/-!
# Computations that may run forever

A loop whose body does not always make progress has no total function as its
meaning. Here a computation is a family of attempts indexed by the fuel they
may spend; more fuel never changes an answer. The families form a monad with a
loop operator, so nested loops compose, and every attempt can be evaluated.
What a loop returns is described by its unfolding, by an induction over its
passes, by a decreasing measure, and by an invariant that keeps it running. Two
computations are compared by a relation between what they return.
-/

/-- A computation: `run fuel` is its answer if `fuel` suffices, and more fuel
keeps the answer. -/
structure Comp (α : Type) where
  /-- The attempt with the given fuel; `none` means that it ran out. -/
  run : ℕ → Option α
  /-- One more unit of fuel keeps an answer. -/
  mono : ∀ {fuel a}, run fuel = some a → run (fuel + 1) = some a

/-- What one pass through a loop body decides: go on or leave the loop. -/
inductive LoopStep (σ α : Type) where
  | next (s : σ)
  | done (a : α)
  deriving DecidableEq, Repr

namespace Comp

variable {α β σ τ : Type}

/-- The computation ends with this answer. -/
def Returns (c : Comp α) (a : α) : Prop := ∃ fuel, c.run fuel = some a

/-- The computation ends. -/
def Terminates (c : Comp α) : Prop := ∃ a, c.Returns a

/-- An answer is kept by any larger amount of fuel. -/
theorem run_le {c : Comp α} {a : α} {m n : ℕ} (hmn : m ≤ n) (h : c.run m = some a) :
    c.run n = some a := by
  induction hmn with
  | refl => exact h
  | step _ ih => exact c.mono ih

/-- A computation has at most one answer. -/
theorem Returns.unique {c : Comp α} {a b : α} (ha : c.Returns a) (hb : c.Returns b) : a = b := by
  obtain ⟨m, hm⟩ := ha
  obtain ⟨n, hn⟩ := hb
  have hm' := run_le (Nat.le_max_left m n) hm
  have hn' := run_le (Nat.le_max_right m n) hn
  exact Option.some.inj (hm'.symm.trans hn')

/-- What returns terminates. -/
theorem Returns.terminates {c : Comp α} {a : α} (h : c.Returns a) : c.Terminates := ⟨a, h⟩

/-- An answer that passes a test is found by running the computation. -/
theorem exists_returns_of_run {c : Comp α} {test : α → Bool} (fuel : ℕ)
    (h : ((c.run fuel).any test) = true) : ∃ a, c.Returns a ∧ test a = true := by
  obtain ⟨a, ha, htest⟩ := (Option.any_eq_true _ _).mp h
  exact ⟨a, ⟨fuel, ha⟩, htest⟩

/-- Two answers that pass a test are found by running both computations. -/
theorem exists_returns_of_runs {c : Comp α} {d : Comp β} {test : α → β → Bool} (fuel : ℕ)
    (h : ((c.run fuel).any fun a => (d.run fuel).any (test a)) = true) :
    ∃ a b, c.Returns a ∧ d.Returns b ∧ test a b = true := by
  obtain ⟨a, ha, htest⟩ := exists_returns_of_run fuel h
  obtain ⟨b, hb, htest⟩ := exists_returns_of_run fuel htest
  exact ⟨a, b, ha, hb, htest⟩

/-- The computation that answers at once. -/
protected def pure (a : α) : Comp α := ⟨fun _ => some a, id⟩

/-- Run one computation, then the one its answer selects. -/
protected def bind (c : Comp α) (f : α → Comp β) : Comp β where
  run fuel := (c.run fuel).bind fun a => (f a).run fuel
  mono {fuel b} h := by
    obtain ⟨a, ha, hb⟩ := Option.bind_eq_some_iff.mp h
    exact Option.bind_eq_some_iff.mpr ⟨a, c.mono ha, (f a).mono hb⟩

instance : Monad Comp where
  pure := Comp.pure
  bind := Comp.bind

/-- A pure value is what is returned. -/
@[simp] theorem returns_pure {a b : α} : (pure a : Comp α).Returns b ↔ a = b :=
  ⟨fun ⟨_, h⟩ => Option.some.inj h, fun h => ⟨0, congrArg some h⟩⟩

/-- A sequence returns what its second part returns for the value of the first. -/
@[simp] theorem returns_bind {c : Comp α} {f : α → Comp β} {b : β} :
    (c >>= f).Returns b ↔ ∃ a, c.Returns a ∧ (f a).Returns b := by
  constructor
  · rintro ⟨fuel, h⟩
    obtain ⟨a, ha, hb⟩ := Option.bind_eq_some_iff.mp h
    exact ⟨a, ⟨fuel, ha⟩, ⟨fuel, hb⟩⟩
  · rintro ⟨a, ⟨m, hm⟩, ⟨n, hn⟩⟩
    refine ⟨max m n, Option.bind_eq_some_iff.mpr ⟨a, ?_, ?_⟩⟩
    · exact run_le (Nat.le_max_left m n) hm
    · exact run_le (Nat.le_max_right m n) hn

/-- At most `passes` passes through a loop body, each with the given fuel. -/
def iterate (body : σ → Comp (LoopStep σ α)) (fuel : ℕ) : ℕ → σ → Option α
  | 0, _ => none
  | passes + 1, s =>
    match (body s).run fuel with
    | none => none
    | some (.done a) => some a
    | some (.next s') => iterate body fuel passes s'

/-- A loop that has ended stays ended with more fuel for each pass and more passes. -/
theorem iterate_le {body : σ → Comp (LoopStep σ α)} {fuel fuel' passes passes' : ℕ} {s : σ} {a : α}
    (hfuel : fuel ≤ fuel') (hpasses : passes ≤ passes')
    (h : iterate body fuel passes s = some a) : iterate body fuel' passes' s = some a := by
  induction passes generalizing s passes' with
  | zero => simp [iterate] at h
  | succ passes ih =>
    obtain ⟨passes', rfl⟩ : ∃ k, passes' = k + 1 := ⟨passes' - 1, by omega⟩
    rw [iterate] at h ⊢
    cases hbody : (body s).run fuel with
    | none => simp [hbody] at h
    | some step =>
      rw [hbody] at h
      rw [run_le hfuel hbody]
      cases step with
      | done b => exact h
      | next s' => exact ih (by omega) h

/-- Repeat a body from a start state until it leaves the loop. -/
def loop (body : σ → Comp (LoopStep σ α)) (s : σ) : Comp α where
  run fuel := iterate body fuel fuel s
  mono := iterate_le (Nat.le_succ _) (Nat.le_succ _)

/-- The loop returns what its passes give. -/
private theorem iterate_returns {body : σ → Comp (LoopStep σ α)} (fuel passes : ℕ) {s : σ} {a : α}
    (h : iterate body fuel passes s = some a) : (loop body s).Returns a :=
  ⟨max fuel passes, iterate_le (Nat.le_max_left _ _) (Nat.le_max_right _ _) h⟩

/-- A loop ends by leaving in its first pass, or by going on and ending later. -/
theorem returns_loop {body : σ → Comp (LoopStep σ α)} {s : σ} {a : α} :
    (loop body s).Returns a ↔ (body s).Returns (.done a) ∨
      ∃ s', (body s).Returns (.next s') ∧ (loop body s').Returns a := by
  constructor
  · rintro ⟨fuel, h⟩
    cases fuel with
    | zero => simp [loop, iterate] at h
    | succ fuel =>
      simp only [loop, iterate] at h
      cases hbody : (body s).run (fuel + 1) with
      | none => simp [hbody] at h
      | some step =>
        rw [hbody] at h
        cases step with
        | done b => exact Or.inl ⟨fuel + 1, by rw [hbody, Option.some.inj h]⟩
        | next s' => exact Or.inr ⟨s', ⟨fuel + 1, hbody⟩, iterate_returns _ _ h⟩
  · rintro (⟨fuel, h⟩ | ⟨s', ⟨fuel, h⟩, ⟨rest, hrest⟩⟩)
    · exact iterate_returns fuel 1 (by simp [iterate, h])
    · have hstep := run_le (Nat.le_max_left fuel rest) h
      have hmore := run_le (Nat.le_max_right fuel rest) hrest
      refine iterate_returns (max fuel rest) (max fuel rest + 1) ?_
      simp only [iterate, hstep]
      exact hmore

/-- Induction over the passes of a loop that ends. -/
theorem loop_induction {body : σ → Comp (LoopStep σ α)} {a : α} {motive : σ → Prop}
    (done : ∀ s, (body s).Returns (.done a) → motive s)
    (next : ∀ s s', (body s).Returns (.next s') → (loop body s').Returns a → motive s' → motive s)
    {s : σ} (h : (loop body s).Returns a) : motive s := by
  have key : ∀ fuel passes s, iterate body fuel passes s = some a → motive s := by
    intro fuel passes
    induction passes with
    | zero => simp [iterate]
    | succ passes ih =>
      intro s hs
      rw [iterate] at hs
      cases hbody : (body s).run fuel with
      | none => simp [hbody] at hs
      | some step =>
        rw [hbody] at hs
        cases step with
        | done b => exact done s ⟨fuel, by rw [hbody, Option.some.inj hs]⟩
        | next s' => exact next s s' ⟨fuel, hbody⟩ (iterate_returns _ _ hs) (ih s' hs)
  obtain ⟨fuel, hfuel⟩ := h
  exact key fuel fuel s hfuel

/-- What an invariant of the passes says when the loop leaves holds of its answer. -/
theorem loop_invariant {body : σ → Comp (LoopStep σ α)} (Inv : σ → Prop) (Post : α → Prop)
    (hnext : ∀ s s', Inv s → (body s).Returns (.next s') → Inv s')
    (hdone : ∀ s a, Inv s → (body s).Returns (.done a) → Post a)
    {s : σ} {a : α} (hs : Inv s) (h : (loop body s).Returns a) : Post a := by
  refine loop_induction (motive := fun s => Inv s → Post a) ?_ ?_ h hs
  · exact fun s hbody hinv => hdone s a hinv hbody
  · exact fun s s' hbody _ ih hinv => ih (hnext s s' hinv hbody)

/-- A loop ends if every pass of it ends and each one that goes on decreases a measure. -/
theorem loop_terminates {body : σ → Comp (LoopStep σ α)} (Inv : σ → Prop) (measure : σ → ℕ)
    (hbody : ∀ s, Inv s → (∃ a, (body s).Returns (.done a)) ∨
      ∃ s', (body s).Returns (.next s') ∧ Inv s' ∧ measure s' < measure s)
    {s : σ} (hs : Inv s) : (loop body s).Terminates := by
  induction hn : measure s using Nat.strongRecOn generalizing s with
  | ind n ih =>
    rcases hbody s hs with ⟨a, ha⟩ | ⟨s', hnext, hs', hlt⟩
    · exact ⟨a, returns_loop.mpr (Or.inl ha)⟩
    · obtain ⟨a, ha⟩ := ih (measure s') (hn ▸ hlt) hs' rfl
      exact ⟨a, returns_loop.mpr (Or.inr ⟨s', hnext, ha⟩)⟩

/-- A loop ends as wanted if each pass either does or decreases a measure of the invariant. -/
theorem loop_total {body : σ → Comp (LoopStep σ α)} (Inv : σ → Prop) (Post : α → Prop)
    (measure : σ → ℕ)
    (hbody : ∀ s, Inv s → (∃ a, (body s).Returns (.done a) ∧ Post a) ∨
      ∃ s', (body s).Returns (.next s') ∧ Inv s' ∧ measure s' < measure s)
    {s : σ} (hs : Inv s) : ∃ a, (loop body s).Returns a ∧ Post a := by
  induction hn : measure s using Nat.strongRecOn generalizing s with
  | ind n ih =>
    rcases hbody s hs with ⟨a, ha, hpost⟩ | ⟨s', hnext, hs', hlt⟩
    · exact ⟨a, returns_loop.mpr (Or.inl ha), hpost⟩
    · obtain ⟨a, ha, hpost⟩ := ih (measure s') (hn ▸ hlt) hs' rfl
      exact ⟨a, returns_loop.mpr (Or.inr ⟨s', hnext, ha⟩), hpost⟩

/-- A loop runs forever from a set of states that every pass goes on in. -/
theorem loop_diverges {body : σ → Comp (LoopStep σ α)} (Inv : σ → Prop)
    (hbody : ∀ s, Inv s → ∃ s', (body s).Returns (.next s') ∧ Inv s') {s : σ} (hs : Inv s) :
    ¬ (loop body s).Terminates := by
  rintro ⟨a, h⟩
  refine loop_induction (motive := fun s => ¬ Inv s) ?_ ?_ h hs
  · intro s hdone hinv
    obtain ⟨s', hnext, _⟩ := hbody s hinv
    cases hdone.unique hnext
  · intro s s' hnext _ ih hinv
    obtain ⟨t, ht, hinv'⟩ := hbody s hinv
    have hst : s' = t := LoopStep.next.inj (hnext.unique ht)
    exact ih (hst ▸ hinv')

/-- The states that the passes of a loop come to. -/
def Passes (body : σ → Comp (LoopStep σ α)) : σ → σ → Prop :=
  Relation.ReflTransGen fun s s' => (body s).Returns (.next s')

/-- A loop that ends returns the same from every state that its passes come to. -/
theorem Passes.returns {body : σ → Comp (LoopStep σ α)} {s t : σ} (h : Passes body s t) {a : α}
    (hs : (loop body s).Returns a) : (loop body t).Returns a := by
  induction h with
  | refl => exact hs
  | tail _ hnext ih =>
    rcases returns_loop.mp ih with hdone | ⟨s', hnext', ha⟩
    · cases hdone.unique hnext
    · obtain rfl := LoopStep.next.inj (hnext'.unique hnext)
      exact ha

/-- The rest of a loop that terminates does. -/
theorem Passes.terminates {body : σ → Comp (LoopStep σ α)} {s t : σ} (h : Passes body s t)
    (hs : (loop body s).Terminates) : (loop body t).Terminates := by
  obtain ⟨a, ha⟩ := hs
  exact ⟨a, h.returns ha⟩

/-- A loop whose passes decrease a measure except in stuck states, which they keep,
ends if and only if no pass comes to a stuck state. -/
theorem loop_terminates_iff {body : σ → Comp (LoopStep σ α)} (Stuck : σ → Prop) (measure : σ → ℕ)
    (hstuck : ∀ s, Stuck s → (body s).Returns (.next s))
    (hbody : ∀ s, ¬ Stuck s → (∃ a, (body s).Returns (.done a)) ∨
      ∃ s', (body s).Returns (.next s') ∧ measure s' < measure s) {s : σ} :
    (loop body s).Terminates ↔ ∀ t, Passes body s t → ¬ Stuck t := by
  constructor
  · intro hs t ht hstuckt
    refine loop_diverges (· = t) (fun u hu => ⟨t, ?_, rfl⟩) rfl (ht.terminates hs)
    exact hu ▸ hstuck t hstuckt
  · intro h
    refine loop_terminates (Passes body s) measure (fun t ht => ?_) .refl
    rcases hbody t (h t ht) with hdone | ⟨t', hnext, hlt⟩
    · exact Or.inl hdone
    · exact Or.inr ⟨t', hnext, ht.tail hnext, hlt⟩

/-- A loop over a body without inner loops, described by its step function. -/
def loopOf (step : σ → LoopStep σ α) : σ → Comp α := loop fun s => pure (step s)

/-- A loop returns the value of its last step, or what the loop returns after the first. -/
theorem returns_loopOf {step : σ → LoopStep σ α} {s : σ} {a : α} :
    (loopOf step s).Returns a ↔ match step s with
      | .done b => b = a
      | .next s' => (loopOf step s').Returns a := by
  rw [loopOf, returns_loop]
  cases step s with
  | done b => simp
  | next s' => simp

/-- An invariant of the steps, from which the last step gives the postcondition, holds of the
value. -/
theorem loopOf_invariant {step : σ → LoopStep σ α} (Inv : σ → Prop) (Post : α → Prop)
    (hnext : ∀ s s', Inv s → step s = .next s' → Inv s')
    (hdone : ∀ s a, Inv s → step s = .done a → Post a)
    {s : σ} {a : α} (hs : Inv s) (h : (loopOf step s).Returns a) : Post a :=
  loop_invariant Inv Post (fun s s' hinv hstep => hnext s s' hinv (returns_pure.mp hstep))
    (fun s a hinv hstep => hdone s a hinv (returns_pure.mp hstep)) hs h

/-- A loop whose steps make a measure smaller terminates. -/
theorem loopOf_terminates {step : σ → LoopStep σ α} (Inv : σ → Prop) (measure : σ → ℕ)
    (hstep : ∀ s s', Inv s → step s = .next s' → Inv s' ∧ measure s' < measure s)
    {s : σ} (hs : Inv s) : (loopOf step s).Terminates := by
  refine loop_terminates Inv measure (fun s hinv => ?_) hs
  cases hcase : step s with
  | done a => exact Or.inl ⟨a, returns_pure.mpr rfl⟩
  | next s' => exact Or.inr ⟨s', returns_pure.mpr rfl, hstep s s' hinv hcase⟩

/-- A loop whose steps make a measure smaller returns a value with the postcondition. -/
theorem loopOf_total {step : σ → LoopStep σ α} (Inv : σ → Prop) (Post : α → Prop)
    (measure : σ → ℕ)
    (hstep : ∀ s, Inv s → (∃ a, step s = .done a ∧ Post a) ∨
      ∃ s', step s = .next s' ∧ Inv s' ∧ measure s' < measure s)
    {s : σ} (hs : Inv s) : ∃ a, (loopOf step s).Returns a ∧ Post a := by
  refine loop_total Inv Post measure (fun s hinv => ?_) hs
  rcases hstep s hinv with ⟨a, ha, hpost⟩ | ⟨s', hnext, hinv', hlt⟩
  · exact Or.inl ⟨a, returns_pure.mpr ha, hpost⟩
  · exact Or.inr ⟨s', returns_pure.mpr hnext, hinv', hlt⟩

/-- A loop over a step function runs forever at a state that is its own successor. -/
theorem loopOf_diverges {step : σ → LoopStep σ α} {s : σ} (h : step s = .next s) :
    ¬ (loopOf step s).Terminates := by
  refine loop_diverges (· = s) ?_ rfl
  rintro s rfl
  exact ⟨s, returns_pure.mpr h, rfl⟩

/-! ### Two computations -/

/-- Whatever the first computation returns, the second one returns something related. -/
def Matches (R : α → β → Prop) (c : Comp α) (d : Comp β) : Prop :=
  ∀ a, c.Returns a → ∃ b, d.Returns b ∧ R a b

/-- Related values match. -/
theorem matches_pure {R : α → β → Prop} {a : α} {b : β} (h : R a b) :
    Matches R (pure a) (pure b) := by
  intro a' ha'
  obtain rfl := returns_pure.mp ha'
  exact ⟨b, returns_pure.mpr rfl, h⟩

/-- Sequences match when their parts do. -/
theorem Matches.bind {R : α → β → Prop} {S : σ → τ → Prop} {c : Comp α} {d : Comp β}
    {f : α → Comp σ} {g : β → Comp τ} (h : Matches R c d)
    (hrest : ∀ a b, R a b → Matches S (f a) (g b)) : Matches S (c >>= f) (d >>= g) := by
  intro s hs
  obtain ⟨a, ha, hfa⟩ := returns_bind.mp hs
  obtain ⟨b, hb, hab⟩ := h a ha
  obtain ⟨t, ht, hst⟩ := hrest a b hab s hfa
  exact ⟨t, returns_bind.mpr ⟨b, hb, ht⟩, hst⟩

/-- Two passes that both go on to related states, or both leave with related answers. -/
def SameStep (I : σ → τ → Prop) (S : α → β → Prop) : LoopStep σ α → LoopStep τ β → Prop
  | .next s, .next t => I s t
  | .done a, .done b => S a b
  | _, _ => False

/-- Loops match each other if their passes do. -/
theorem matches_loop {I : σ → τ → Prop} {S : α → β → Prop} {body : σ → Comp (LoopStep σ α)}
    {body' : τ → Comp (LoopStep τ β)}
    (hbody : ∀ s t, I s t → Matches (SameStep I S) (body s) (body' t)) {s : σ} {t : τ}
    (h : I s t) : Matches S (loop body s) (loop body' t) := by
  intro a ha
  refine loop_induction (motive := fun s => ∀ t, I s t → ∃ b, (loop body' t).Returns b ∧ S a b)
    ?_ ?_ ha t h
  · intro s hdone t hst
    obtain ⟨step, hstep, hsame⟩ := hbody s t hst _ hdone
    cases step with
    | next t' => exact hsame.elim
    | done b => exact ⟨b, returns_loop.mpr (Or.inl hstep), hsame⟩
  · intro s s' hnext _ ih t hst
    obtain ⟨step, hstep, hsame⟩ := hbody s t hst _ hnext
    cases step with
    | done b => exact hsame.elim
    | next t' =>
      obtain ⟨b, hb, hab⟩ := ih t' hsame
      exact ⟨b, returns_loop.mpr (Or.inr ⟨t', hstep, hb⟩), hab⟩

/-- Loops match when their steps do. -/
theorem matches_loopOf {I : σ → τ → Prop} {S : α → β → Prop} {step : σ → LoopStep σ α}
    {step' : τ → LoopStep τ β} (hstep : ∀ s t, I s t → SameStep I S (step s) (step' t)) {s : σ}
    {t : τ} (h : I s t) : Matches S (loopOf step s) (loopOf step' t) :=
  matches_loop (fun s t hst => matches_pure (hstep s t hst)) h

/-! ### Loops that come back

A pass may go on from one state to another by looking at a part of the state only, its
position. -/

section Positions

open Relation

variable {κ : Type}

/-- Each pass goes on to the positions that the relation allows, and so only ends
where there is none. -/
structure Follows (next : κ → κ → Prop) (position : σ → κ) (body : σ → LoopStep σ α) : Prop where
  sound : ∀ s s', body s = .next s' → next (position s) (position s')
  complete : ∀ s k, next (position s) k → ∃ s', body s = .next s' ∧ position s' = k

variable {next : κ → κ → Prop} {position : σ → κ} {body : σ → LoopStep σ α}

/-- A loop that reaches a position which leads back to itself runs forever. -/
theorem loop_diverges_of_cycle (h : Follows next position body) {s : σ} {j : κ}
    (hreach : ReflTransGen next (position s) j) (hcycle : TransGen next j j) :
    ¬ (loop (fun s => (pure (body s) : Comp _)) s).Terminates := by
  apply loop_diverges fun t => ReflTransGen next (position t) j
  · intro t ht
    obtain ⟨k, hnext, hk⟩ : ∃ k, next (position t) k ∧ ReflTransGen next k j := by
      rcases ht.cases_head with heq | ⟨k, hnext, hk⟩
      · rw [heq]
        obtain ⟨k, hnext, hk⟩ := TransGen.head'_iff.mp hcycle
        exact ⟨k, hnext, hk⟩
      · exact ⟨k, hnext, hk⟩
    obtain ⟨t', hbody, ht'⟩ := h.complete t k hnext
    refine ⟨t', returns_pure.mpr hbody, ?_⟩
    rw [ht']
    exact hk
  · exact hreach

end Positions

end Comp
