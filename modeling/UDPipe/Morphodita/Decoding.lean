import UDPipe.Library.Trellis
import UDPipe.Morphodita.Viterbi
import Mathlib.Data.List.Forall2
import Mathlib.Data.List.Perm.Subperm
import Mathlib.Data.List.Lex
import Mathlib.Data.List.Sections
import Mathlib.Algebra.BigOperators.Group.List.Lemmas

/-!
# The decoder is exact

A node stands for the sequence of tags that its predecessors give. The sequences of one
position are found in lexicographic order, latest tag first, so the sequences with the
same last tags follow one another, and comparing the window with the one before is enough
to find out that they share a node.
-/

namespace UDPipe.Morphodita.Viterbi

/-! ### Windows -/

/-- How many elements two lists start with in common. -/
def agreement : List ℤ → List ℤ → ℕ
  | a :: s, b :: t => if a = b then agreement s t + 1 else 0
  | _, _ => 0

/-- Histories agree on a number of tags if they begin with the same ones. -/
theorem le_agreement_iff {k : ℕ} {s t : List ℤ} :
    k ≤ agreement s t ↔ k ≤ s.length ∧ k ≤ t.length ∧ s.take k = t.take k := by
  induction s generalizing k t with
  | nil => cases t <;> simp +contextual [agreement]
  | cons a s ih =>
    cases t with
    | nil => simp +contextual [agreement]
    | cons b t =>
      cases k with
      | zero => simp
      | succ k =>
        by_cases hab : a = b
        · simp [agreement, hab, ih]
        · simp [agreement, hab]

/-- The window over a sequence with the latest tag first. -/
def pad (size : ℕ) (h : List ℤ) : List ℤ :=
  h.take size ++ List.replicate (size - (h.take size).length) (-1)

/-- A padded history has the size of the window. -/
@[simp] theorem length_pad (size : ℕ) (h : List ℤ) : (pad size h).length = size := by
  simp only [pad, List.length_append, List.length_take, List.length_replicate]
  omega

/-- The predecessors of node `p` give the sequence `h`. -/
inductive Chain (nodes : List Node) : ℤ → List ℤ → Prop
  | start {p : ℤ} (hp : p < 0) : Chain nodes p []
  | node {p : ℤ} {ν : Node} {h : List ℤ} (hp : 0 ≤ p) (hν : nodes[p.toNat]? = some ν)
    (hprev : Chain nodes ν.prev h) : Chain nodes p (ν.tag :: h)

/-- New nodes do not change the old sequences. -/
theorem Chain.append {nodes : List Node} {p : ℤ} {h : List ℤ} (hchain : Chain nodes p h)
    (more : List Node) : Chain (nodes ++ more) p h := by
  induction hchain with
  | start hp => exact .start hp
  | @node p ν h hp hν _ ih =>
    apply Chain.node hp _ ih
    obtain ⟨hlt, -⟩ := List.getElem?_eq_some_iff.mp hν
    rw [List.getElem?_append_left hlt, hν]

/-- The score of a node. -/
theorem scoreAt_natCast (nodes : List Node) (k : ℕ) :
    scoreAt nodes k = (nodes[k]?.map Node.score).getD 0 := by
  simp [scoreAt]

/-- New nodes do not change the scores of the others. -/
theorem scoreAt_append {nodes : List Node} {p : ℤ} {h : List ℤ} (hchain : Chain nodes p h)
    (more : List Node) : scoreAt (nodes ++ more) p = scoreAt nodes p := by
  cases hchain with
  | start hp => simp [scoreAt, not_le_of_gt hp]
  | node hp hν _ =>
    obtain ⟨hlt, -⟩ := List.getElem?_eq_some_iff.mp hν
    rw [scoreAt, List.getElem?_append_left hlt, scoreAt]

/-- The loop writes the sequence over the window and counts the agreement with it. -/
theorem fillWindow_eq {nodes : List Node} (count : ℕ) {p : ℤ} {h : List ℤ}
    (hchain : Chain nodes p h) (pre old : List ℤ) {sameTags : ℕ} (hsame : sameTags ≤ pre.length)
    (hcount : count ≤ old.length) :
    fillWindow nodes count p pre.length (pre ++ old) sameTags =
      (pre ++ (h.take count ++ old.drop (h.take count).length),
        if sameTags = pre.length then pre.length + agreement (h.take count) old else sameTags) := by
  induction count generalizing p h pre old sameTags with
  | zero => simp +contextual [fillWindow, agreement]
  | succ count ih =>
    cases hchain with
    | start hp => simp +contextual [fillWindow, agreement, not_le_of_gt hp]
    | @node _ ν h hp hν hprev =>
      match old, hcount with
      | o :: old, hcount =>
        have hget : (pre ++ o :: old).getD pre.length 0 = o := by simp [List.getD_eq_getElem?_getD]
        have hset : (pre ++ o :: old).set pre.length ν.tag = (pre ++ [ν.tag]) ++ old := by simp
        have hlength : pre.length + 1 = (pre ++ [ν.tag]).length := by simp
        rw [fillWindow, if_pos hp, hν]
        simp only [hget, hset]
        rw [hlength, ih hprev (pre ++ [ν.tag]) old (by split <;> simp <;> omega)
          (by simpa using hcount)]
        refine Prod.ext_iff.mpr ⟨by simp, ?_⟩
        simp only [List.length_append, List.length_cons, List.length_nil, List.take_succ_cons,
          agreement]
        by_cases hs : sameTags = pre.length
        · by_cases ho : o = ν.tag
          · simp [hs, ho]
            omega
          · simp [hs, ho, Ne.symm ho]
        · have : sameTags ≠ pre.length + 1 := by omega
          simp [hs, this]

/-! ### One position -/

variable (d : Viterbi)

/-- The tags by which the sequences of a position are told apart. -/
def key (h : List ℤ) : List ℤ := h.take (d.decodingOrder - 1)

/-- What the last tag of a sequence adds to its score. -/
def gain : List ℤ → ℤ
  | [] => 0
  | t :: h => d.score h.length (pad d.windowSize (t :: h)) 0

/-- The state that decides about the scores to come. -/
def state (h : List ℤ) : ℕ × List ℤ := (h.length, d.key h)

/-- The conditions on the decoder: the window has the order of the decoding, and the
scores depend on the position and the window only. -/
structure IsExact : Prop where
  order : 2 ≤ d.decodingOrder
  window : d.windowSize = d.decodingOrder
  score : ∀ i window s s', d.score i window s = d.score i window s'

variable {d}

/-- The state decides: the window has the new tag and the key. -/
theorem IsExact.decides (hd : d.IsExact) : Trellis.Decides d.state d.gain where
  state_cons t g h heq := by
    have horder := hd.order
    simp only [state, key, Prod.mk.injEq] at heq ⊢
    obtain ⟨k, hk⟩ : ∃ k, d.decodingOrder - 1 = k + 1 := ⟨d.decodingOrder - 2, by omega⟩
    refine ⟨by simp [heq.1], ?_⟩
    have htake := congrArg (List.take k) heq.2
    rw [hk, List.take_take, List.take_take, min_eq_left (by omega)] at htake
    rw [hk, List.take_succ_cons, List.take_succ_cons, htake]
  gain_cons t g h heq := by
    have horder := hd.order
    simp only [state, key, Prod.mk.injEq] at heq
    obtain ⟨k, hk⟩ : ∃ k, d.decodingOrder = k + 1 := ⟨d.decodingOrder - 1, by omega⟩
    have htake : (t :: g).take d.windowSize = (t :: h).take d.windowSize := by
      have heq' := heq.2
      rw [hk, Nat.add_sub_cancel] at heq'
      rw [hd.window, hk, List.take_succ_cons, List.take_succ_cons, heq']
    simp only [gain, pad, htake, heq.1]

/-- The loop fills the window with the sequence, and counts the agreement with the window
before. -/
theorem fillWindow_cons {nodes : List Node} {window : List ℤ} {windowSize : ℕ} {tag prev : ℤ}
    {h : List ℤ} (hchain : Chain nodes prev h) (hwindow : window.length = windowSize)
    (hpos : 1 ≤ windowSize) :
    fillWindow nodes (windowSize - 1) prev 1 (window.set 0 tag)
        (if window.getD 0 0 = tag then 1 else 0) =
      ((tag :: h).take windowSize ++ window.drop ((tag :: h).take windowSize).length,
        agreement ((tag :: h).take windowSize) window) := by
  obtain ⟨k, rfl⟩ : ∃ k, windowSize = k + 1 := ⟨windowSize - 1, by omega⟩
  obtain ⟨o, old, rfl⟩ : ∃ o old, window = o :: old := List.exists_cons_of_length_eq_add_one hwindow
  have hold : old.length = k := by simpa using hwindow
  have hsame : (if o = tag then 1 else 0) ≤ [tag].length := by
    split <;> simp
  have hfill := fillWindow_eq k hchain [tag] old hsame hold.ge
  have hagree : (if (if o = tag then 1 else 0) = [tag].length then
      [tag].length + agreement (h.take k) old else if o = tag then 1 else 0) =
        agreement ((tag :: h).take (k + 1)) (o :: old) := by
    by_cases ho : o = tag
    · simp [ho, agreement, Nat.add_comm]
    · simp [ho, Ne.symm ho, agreement]
  rw [hagree] at hfill
  have hset : (o :: old).set 0 tag = [tag] ++ old := rfl
  have hget : (o :: old).getD 0 0 = o := rfl
  have hlength : ([tag] : List ℤ).length = 1 := rfl
  rw [hlength] at hfill
  rw [hset, hget, Nat.add_sub_cancel, hfill]
  simp [List.take_succ_cons]

/-- A step of the loop, with the window as a whole. -/
theorem visit_eq {nodes : List Node} {window : List ℤ} {i : ℕ} {single : Bool} {tag prev : ℤ}
    {h : List ℤ} (hchain : Chain nodes prev h) (hwindow : window.length = d.windowSize)
    (hpos : 1 ≤ d.windowSize) :
    visit d i single tag (nodes, window) prev =
      let entries := (tag :: h).take d.windowSize
      let window' := entries ++ window.drop entries.length
      let score := (if single then 0 else d.score i window' (agreement entries window)) +
        scoreAt nodes prev
      if d.decodingOrder - 1 ≤ agreement entries window then
        if score ≤ scoreAt nodes (nodes.length - 1) then (nodes, window')
        else (nodes.dropLast ++ [⟨tag, prev, score⟩], window')
      else (nodes ++ [⟨tag, prev, score⟩], window') := by
  simp only [visit, fillWindow_cons hchain hwindow hpos, ge_iff_le]

/-! ### The sequences of a position -/

/-- Beginnings of lists of one length are in their order. -/
theorem take_le_take {s t : List ℤ} (hlt : s < t) (hlength : s.length = t.length) (k : ℕ) :
    s.take k = t.take k ∨ s.take k < t.take k := by
  induction s generalizing t k with
  | nil =>
    cases t with
    | nil => exact .inl rfl
    | cons b t => simp at hlength
  | cons a s ih =>
    cases t with
    | nil => simp at hlength
    | cons b t =>
      cases k with
      | zero => exact .inl rfl
      | succ k =>
        simp only [List.take_succ_cons]
        rcases List.cons_lt_cons_iff.mp hlt with hab | ⟨rfl, hst⟩
        · exact .inr (List.cons_lt_cons_iff.mpr (.inl hab))
        · rcases ih hst (by simpa using hlength) k with heq | hlt'
          · exact .inl (by rw [heq])
          · exact .inr (List.cons_lt_cons_iff.mpr (.inr ⟨rfl, hlt'⟩))

/-- The last node is for the last history. -/
private theorem forall₂_concat {R : Node → List ℤ → Prop} {new : List Node}
    {kept : List (List ℤ)} {h : List ℤ} (hall : List.Forall₂ R new (kept ++ [h])) :
    ∃ new' ν, new = new' ++ [ν] ∧ List.Forall₂ R new' kept ∧ R ν h := by
  induction kept generalizing new with
  | nil =>
    obtain ⟨ν, new', hν, hnil, rfl⟩ := List.forall₂_cons_right_iff.mp hall
    obtain rfl := List.forall₂_nil_right_iff.mp hnil
    exact ⟨[], ν, rfl, .nil, hν⟩
  | cons g kept ih =>
    obtain ⟨μ, rest, hμ, hrest, rfl⟩ := List.forall₂_cons_right_iff.mp hall
    obtain ⟨new', ν, rfl, hnew', hν⟩ := ih hrest
    exact ⟨μ :: new', ν, rfl, .cons hμ hnew', hν⟩

/-- The windows agree in the key exactly when the keys are the same. -/
theorem le_agreement_pad_iff {order windowSize : ℕ} (hwindow : order - 1 ≤ windowSize)
    {g h : List ℤ} (hlength : g.length = h.length) (hlt : g.take order < h.take order) :
    order - 1 ≤ agreement (h.take windowSize) (pad windowSize g) ↔
      g.take (order - 1) = h.take (order - 1) := by
  have hkey : ∀ l : List ℤ, (l.take windowSize).take (order - 1) = l.take (order - 1) := by
    intro l
    rw [List.take_take, min_eq_left hwindow]
  have hpad : order - 1 ≤ (g.take windowSize).length →
      (pad windowSize g).take (order - 1) = g.take (order - 1) := by
    intro hle
    rw [pad, List.take_append_of_le_length hle, hkey]
  have hlengths : (g.take windowSize).length = (h.take windowSize).length := by
    simp [hlength]
  rw [le_agreement_iff, hkey]
  constructor
  · rintro ⟨hle, -, heq⟩
    rw [hpad (hlengths ▸ hle)] at heq
    exact heq.symm
  · intro heq
    have hle : order - 1 ≤ (h.take windowSize).length := by
      by_contra hshort
      -- sequences that are shorter than the key are the same
      rw [List.length_take] at hshort
      have hh : h.length ≤ order - 1 := by omega
      rw [List.take_of_length_le hh, List.take_of_length_le (hlength ▸ hh)] at heq
      rw [heq] at hlt
      exact lt_irrefl _ hlt
    refine ⟨hle, ?_, ?_⟩
    · rw [length_pad]
      exact hwindow
    · rw [hpad (hlengths ▸ hle), heq]

/-- The loop over a position after the sequences `seen`: the nodes that come after `done` stand
for the sequences `kept`, which have different keys, and the window has the last sequence. -/
structure Enumerates (order windowSize : ℕ) (R : Node → List ℤ → Prop) (done : List Node)
    (seen : List (List ℤ)) (nodes : List Node) (window : List ℤ) (kept : List (List ℤ)) : Prop where
  nodes_eq : ∃ new, nodes = done ++ new ∧ List.Forall₂ R new kept
  subset : ∀ h ∈ kept, h ∈ seen
  increase : (kept.map (List.take (order - 1))).Pairwise (· < ·)
  first : seen = [] → window = List.replicate windowSize (-1) ∧ kept = []
  last : ∀ g ∈ seen.getLast?, window = pad windowSize g ∧
    ∃ h ∈ kept.getLast?, h.take (order - 1) = g.take (order - 1)

namespace Enumerates

variable {order windowSize : ℕ} {R : Node → List ℤ → Prop} {done nodes : List Node}
  {seen kept : List (List ℤ)} {window : List ℤ}

/-- At first there are no new nodes. -/
theorem start (order windowSize : ℕ) (R : Node → List ℤ → Prop) (done : List Node) :
    Enumerates order windowSize R done [] done (List.replicate windowSize (-1)) [] :=
  ⟨⟨[], by simp, .nil⟩, by simp, .nil, fun _ => ⟨rfl, rfl⟩, by simp⟩

/-- The loop has the window of the sequence it has just visited. -/
theorem window_eq (hp : Enumerates order windowSize R done seen nodes window kept) {i : ℕ}
    (hlength : ∀ g ∈ seen, g.length = i) {h : List ℤ} (hh : h.length = i) :
    window.length = windowSize ∧
      h.take windowSize ++ window.drop (h.take windowSize).length = pad windowSize h := by
  cases hseen : seen.getLast? with
  | none =>
    obtain ⟨rfl, -⟩ := hp.first (List.getLast?_eq_none_iff.mp hseen)
    simp [pad]
  | some g =>
    obtain ⟨rfl, -⟩ := hp.last g hseen
    have hg := hlength g (List.mem_of_getLast? hseen)
    refine ⟨length_pad _ _, ?_⟩
    have htake : (h.take windowSize).length = (g.take windowSize).length := by
      simp [hh, hg]
    rw [pad, htake, List.drop_left, pad, htake]

variable (horder : 2 ≤ order) (hwindow : order - 1 ≤ windowSize)
  (hp : Enumerates order windowSize R done seen nodes window kept) {tag : ℤ} (htag : 0 ≤ tag)
  {g : List ℤ} (hlength : ∀ f ∈ seen, f.length = (tag :: g).length)
  (hsorted : ∀ f ∈ seen, f.take order < (tag :: g).take order)

include horder hwindow hp htag hlength hsorted

/-- Where enough tags are unchanged, the last sequence that is kept has the key of the new one. -/
theorem exists_last (hagree : order - 1 ≤ agreement ((tag :: g).take windowSize) window) :
    ∃ before k, kept = before ++ [k] ∧ k.take (order - 1) = (tag :: g).take (order - 1) := by
  cases hseen : seen.getLast? with
  | none =>
    obtain ⟨rfl, -⟩ := hp.first (List.getLast?_eq_none_iff.mp hseen)
    obtain ⟨k, hk⟩ : ∃ k, windowSize = k + 1 := ⟨windowSize - 1, by omega⟩
    have hne : tag ≠ -1 := by omega
    simp only [hk, List.take_succ_cons, List.replicate_succ, agreement, if_neg hne] at hagree
    omega
  | some f =>
    obtain ⟨rfl, k, hk, hkey⟩ := hp.last f hseen
    have hf := List.mem_of_getLast? hseen
    have hkey' := (le_agreement_pad_iff hwindow (hlength f hf) (hsorted f hf)).mp hagree
    obtain ⟨before, rfl⟩ := List.getLast?_eq_some_iff.mp hk
    exact ⟨before, k, rfl, hkey.trans hkey'⟩

omit horder hwindow htag hlength hsorted in
/-- The node of the last sequence stays for the new one, which has the same key. -/
theorem keep {before : List (List ℤ)} {k : List ℤ} (hkept : kept = before ++ [k])
    (hkey : k.take (order - 1) = (tag :: g).take (order - 1)) :
    Enumerates order windowSize R done (seen ++ [tag :: g]) nodes (pad windowSize (tag :: g))
      kept := by
  subst hkept
  refine ⟨hp.nodes_eq, fun f hf => List.mem_append_left _ (hp.subset f hf), hp.increase, by simp,
    fun f hf => ?_⟩
  rw [List.getLast?_concat] at hf
  obtain rfl := (Option.some.inj hf).symm
  exact ⟨rfl, k, by simp, hkey⟩

omit horder hwindow htag hlength hsorted in
/-- The node of the last sequence makes room for that of the new one. -/
theorem replace {before : List (List ℤ)} {k : List ℤ} (hkept : kept = before ++ [k])
    (hkey : k.take (order - 1) = (tag :: g).take (order - 1)) {ν : Node} (hν : R ν (tag :: g)) :
    Enumerates order windowSize R done (seen ++ [tag :: g]) (nodes.dropLast ++ [ν])
      (pad windowSize (tag :: g)) (before ++ [tag :: g]) := by
  subst hkept
  obtain ⟨new, rfl, hnew⟩ := hp.nodes_eq
  obtain ⟨new', μ, rfl, hnew', -⟩ := forall₂_concat hnew
  refine ⟨⟨new' ++ [ν], ?_, List.rel_append hnew' (.cons hν .nil)⟩, fun f hf => ?_, ?_, by simp,
    fun f hf => ?_⟩
  · rw [← List.append_assoc, List.dropLast_concat, List.append_assoc]
  · rcases List.mem_append.mp hf with hf | hf
    · exact List.mem_append_left _ (hp.subset f (List.mem_append_left _ hf))
    · exact List.mem_append_right _ hf
  · have hincrease := hp.increase
    simp only [List.map_append, List.map_cons, List.map_nil, hkey] at hincrease ⊢
    exact hincrease
  · rw [List.getLast?_concat] at hf
    obtain rfl := (Option.some.inj hf).symm
    exact ⟨rfl, tag :: g, by simp, rfl⟩

omit horder htag in
/-- Otherwise the new sequence has a new key, and gets a node of its own. -/
theorem add (hagree : ¬ order - 1 ≤ agreement ((tag :: g).take windowSize) window) {ν : Node}
    (hν : R ν (tag :: g)) :
    Enumerates order windowSize R done (seen ++ [tag :: g]) (nodes ++ [ν])
      (pad windowSize (tag :: g)) (kept ++ [tag :: g]) := by
  obtain ⟨new, rfl, hnew⟩ := hp.nodes_eq
  refine ⟨⟨new ++ [ν], by simp, List.rel_append hnew (.cons hν .nil)⟩, fun f hf => ?_, ?_, by simp,
    fun f hf => ?_⟩
  · rcases List.mem_append.mp hf with hf | hf
    · exact List.mem_append_left _ (hp.subset f hf)
    · exact List.mem_append_right _ hf
  · -- the new key comes after all the others
    rw [List.map_append, List.pairwise_append]
    refine ⟨hp.increase, by simp, ?_⟩
    rintro _ hx _ hy
    obtain ⟨f, hf, rfl⟩ := List.mem_map.mp hx
    obtain rfl : _ = (tag :: g).take (order - 1) := by simpa using hy
    cases hseen : seen.getLast? with
    | none =>
      obtain ⟨-, rfl⟩ := hp.first (List.getLast?_eq_none_iff.mp hseen)
      cases hf
    | some e =>
      obtain ⟨rfl, k, hk, hkey⟩ := hp.last e hseen
      have he := List.mem_of_getLast? hseen
      have hne : e.take (order - 1) ≠ (tag :: g).take (order - 1) := fun heq =>
        hagree ((le_agreement_pad_iff hwindow (hlength e he) (hsorted e he)).mpr heq)
      have hlt : e.take (order - 1) < (tag :: g).take (order - 1) := by
        have htake := take_le_take (hsorted e he) (by simp [hlength e he]) (order - 1)
        rw [List.take_take, List.take_take, min_eq_left (Nat.sub_le _ _)] at htake
        exact htake.resolve_left hne
      obtain ⟨before, rfl⟩ := List.getLast?_eq_some_iff.mp hk
      rcases List.mem_append.mp hf with hf | hf
      · have hincrease := hp.increase
        rw [List.map_append, List.pairwise_append] at hincrease
        exact (hincrease.2.2 _ (List.mem_map_of_mem hf) (k.take (order - 1)) (by simp)).trans
          (hkey ▸ hlt)
      · obtain rfl := List.mem_singleton.mp hf
        rwa [hkey]
  · rw [List.getLast?_concat] at hf
    obtain rfl := (Option.some.inj hf).symm
    exact ⟨rfl, tag :: g, by simp, rfl⟩

end Enumerates

/-! ### The steps of a position -/

/-- The steps of a position: for every tag the nodes before, with their sequences. -/
def stepsOf (size : ℕ) (prevs : List ℤ) (kept : List (List ℤ)) : List (ℤ × ℤ × List ℤ) :=
  (List.range size).flatMap fun tag : ℕ => (prevs.zip kept).map fun e => ((tag : ℤ), e.1, e.2)

/-- The two loops of a position go through its steps. -/
theorem foldl_stepsOf {σ : Type*} (f : ℤ → σ → ℤ → σ) (size : ℕ) {prevs : List ℤ}
    {kept : List (List ℤ)} (hlen : prevs.length = kept.length) (state : σ) :
    (List.range size).foldl (fun state (tag : ℕ) => prevs.foldl (f tag) state) state =
      (stepsOf size prevs kept).foldl (fun state c => f c.1 state c.2.1) state := by
  have hprevs : prevs = (prevs.zip kept).map Prod.fst := (List.map_fst_zip hlen.le).symm
  rw [stepsOf, List.foldl_flatMap]
  simp only [List.foldl_map]
  congr 1
  funext state tag
  conv_lhs => rw [hprevs, List.foldl_map]

/-- The sequences that the steps visit. -/
theorem sequences_stepsOf (size : ℕ) {prevs : List ℤ} {kept : List (List ℤ)}
    (hlen : prevs.length = kept.length) :
    ((stepsOf size prevs kept).map fun c => c.1 :: c.2.2) =
      (List.range size).flatMap fun tag : ℕ => kept.map fun g => (tag : ℤ) :: g := by
  simp only [stepsOf, List.map_flatMap, List.map_map]
  apply List.flatMap_congr
  intro tag _
  conv_rhs => rw [← List.map_snd_zip hlen.ge, List.map_map]
  rfl

/-- The sequences of a position are the kept ones with a tag more. -/
theorem mem_sequences {size : ℕ} {kept : List (List ℤ)} {l : List ℤ} :
    (l ∈ (List.range size).flatMap fun tag : ℕ => kept.map fun g => (tag : ℤ) :: g) ↔
      ∃ a ∈ {t : ℤ | 0 ≤ t ∧ t < size}, ∃ g ∈ {g | g ∈ kept}, l = a :: g := by
  simp only [List.mem_flatMap, List.mem_range, List.mem_map, Set.mem_ofPred_eq]
  constructor
  · rintro ⟨tag, htag, g, hg, rfl⟩
    exact ⟨tag, ⟨by omega, by omega⟩, g, hg, rfl⟩
  · rintro ⟨a, ⟨hnonneg, hlt⟩, g, hg, rfl⟩
    exact ⟨a.toNat, by omega, g, hg, by rw [Int.toNat_of_nonneg hnonneg]⟩

/-- The steps visit the sequences in lexicographic order. -/
theorem sorted_stepsOf {order : ℕ} (horder : 2 ≤ order) (size : ℕ) {prevs : List ℤ}
    {kept : List (List ℤ)} (hlen : prevs.length = kept.length)
    (hincrease : (kept.map (List.take (order - 1))).Pairwise (· < ·)) :
    ((stepsOf size prevs kept).map fun c => c.1 :: c.2.2).Pairwise fun g h : List ℤ =>
      g.take order < h.take order := by
  obtain ⟨k, rfl⟩ : ∃ k, order = k + 1 := ⟨order - 1, by omega⟩
  rw [List.pairwise_map, Nat.add_sub_cancel] at hincrease
  rw [sequences_stepsOf size hlen, List.pairwise_flatMap]
  refine ⟨fun tag _ => ?_, ?_⟩
  · rw [List.pairwise_map]
    apply hincrease.imp
    intro g g' hlt
    simpa [List.cons_lt_cons_iff] using hlt
  · apply List.pairwise_lt_range.imp
    intro tag tag' hlt g hg g' hg'
    obtain ⟨f, _, rfl⟩ := List.mem_map.mp hg
    obtain ⟨f', _, rfl⟩ := List.mem_map.mp hg'
    rw [List.take_succ_cons, List.take_succ_cons, List.cons_lt_cons_iff]
    exact .inl (by exact_mod_cast hlt)

/-- A node of the position after `done`, with its sequence. The scores may all be off by
the same amount. -/
def Stands (d : Viterbi) (done : List Node) (off : ℤ) (ν : Node) (h : List ℤ) : Prop :=
  ∃ g, h = ν.tag :: g ∧ Chain done ν.prev g ∧ ν.score + off = Trellis.total d.gain h

/-- The loop over a position keeps a best sequence for each key. -/
structure Progress (d : Viterbi) (done : List Node) (off : ℤ) (seen : List (List ℤ))
    (nodes : List Node) (window : List ℤ) (kept : List (List ℤ)) : Prop extends
    Enumerates d.decodingOrder d.windowSize (Stands d done off) done seen nodes window kept where
  covers : ∀ g ∈ seen, ∃ h ∈ kept, d.key h = d.key g ∧
    Trellis.total d.gain g ≤ Trellis.total d.gain h

/-- A step of the loop keeps the best sequence for each key. -/
theorem Progress.step (hd : d.IsExact) {done nodes : List Node} {off : ℤ}
    {seen kept : List (List ℤ)} {window : List ℤ}
    (hp : Progress d done off seen nodes window kept) {i : ℕ} {single : Bool} {tag prev : ℤ}
    {h : List ℤ} (htag : 0 ≤ tag) (hchain : Chain done prev h) (hi : h.length = i)
    (hlength : ∀ g ∈ seen, g.length = i + 1)
    (hscore : (if single then 0 else d.score i (pad d.windowSize (tag :: h)) 0) +
      scoreAt done prev + off = Trellis.total d.gain (tag :: h))
    (hsorted : ∀ g ∈ seen, g.take d.decodingOrder < (tag :: h).take d.decodingOrder) :
    ∃ kept', Progress d done off (seen ++ [tag :: h])
      (visit d i single tag (nodes, window) prev).1
      (visit d i single tag (nodes, window) prev).2 kept' := by
  have horder := hd.order
  have hwindow : d.decodingOrder - 1 ≤ d.windowSize := by
    have := hd.window
    omega
  have hlength' : ∀ g ∈ seen, g.length = (tag :: h).length := fun g hg => by
    simp [hlength g hg, hi]
  have henum := hp.toEnumerates
  obtain ⟨new, rfl, hnew⟩ := hp.nodes_eq
  obtain ⟨hsize, hpad⟩ := henum.window_eq hlength (h := tag :: h) (by simp [hi])
  have hvisit := @visit_eq d (done ++ new) window i single tag prev h (hchain.append new) hsize
    (by omega)
  simp only [hpad, scoreAt_append hchain] at hvisit
  rw [hd.score i _ _ 0] at hvisit
  obtain ⟨score, hscore'⟩ : ∃ score, score = (if single then 0 else
      d.score i (pad d.windowSize (tag :: h)) 0) + scoreAt done prev := ⟨_, rfl⟩
  rw [← hscore'] at hvisit hscore
  rw [hvisit]
  have hstands : Stands d done off ⟨tag, prev, score⟩ (tag :: h) := ⟨h, rfl, hchain, hscore⟩
  split
  · -- the key is that of the step before
    rename_i hagree
    obtain ⟨before, k, hkept, hkey⟩ :=
      henum.exists_last horder hwindow htag hlength' hsorted hagree
    rw [hkept] at hnew
    obtain ⟨new', ν, rfl, hnew', -, -, -, hνscore⟩ := forall₂_concat hnew
    have hlastscore : scoreAt (done ++ (new' ++ [ν])) ((done ++ (new' ++ [ν])).length - 1) =
        ν.score := by
      have hlen : ((done ++ (new' ++ [ν])).length : ℤ) - 1 = ((done ++ new').length : ℕ) := by
        simp
        omega
      rw [hlen, ← List.append_assoc, scoreAt_natCast, List.getElem?_concat_length]
      rfl
    rw [hlastscore]
    split
    · refine ⟨kept, henum.keep hkept hkey, fun g hg => ?_⟩
      rcases List.mem_append.mp hg with hg | hg
      · exact hp.covers g hg
      · obtain rfl := List.mem_singleton.mp hg
        exact ⟨k, by simp [hkept], hkey, by omega⟩
    · refine ⟨before ++ [tag :: h], henum.replace hkept hkey hstands, fun g hg => ?_⟩
      rcases List.mem_append.mp hg with hg | hg
      · obtain ⟨f, hf, hfkey, htotal⟩ := hp.covers g hg
        rw [hkept] at hf
        rcases List.mem_append.mp hf with hf | hf
        · exact ⟨f, List.mem_append_left _ hf, hfkey, htotal⟩
        · obtain rfl := List.mem_singleton.mp hf
          exact ⟨tag :: h, by simp, hkey.symm.trans hfkey, by omega⟩
      · obtain rfl := List.mem_singleton.mp hg
        exact ⟨tag :: h, by simp, rfl, le_rfl⟩
  · rename_i hagree
    refine ⟨kept ++ [tag :: h], henum.add hwindow hlength' hsorted hagree hstands, fun g hg => ?_⟩
    rcases List.mem_append.mp hg with hg | hg
    · obtain ⟨f, hf, hfkey, htotal⟩ := hp.covers g hg
      exact ⟨f, List.mem_append_left _ hf, hfkey, htotal⟩
    · obtain rfl := List.mem_singleton.mp hg
      exact ⟨tag :: h, by simp, rfl, le_rfl⟩

/-- The loop over all steps of a position. A step is a tag, a node and its sequence. -/
theorem Progress.loop (hd : d.IsExact) {done : List Node} {off : ℤ} {i : ℕ} {single : Bool}
    (steps : List (ℤ × ℤ × List ℤ))
    (hsteps : ∀ c ∈ steps, 0 ≤ c.1 ∧ Chain done c.2.1 c.2.2 ∧ c.2.2.length = i ∧
      (if single then 0 else d.score i (pad d.windowSize (c.1 :: c.2.2)) 0) +
        scoreAt done c.2.1 + off = Trellis.total d.gain (c.1 :: c.2.2))
    {state : List Node × List ℤ} {seen kept : List (List ℤ)}
    (hp : Progress d done off seen state.1 state.2 kept) (hlength : ∀ g ∈ seen, g.length = i + 1)
    (hsorted : (seen ++ steps.map fun c => c.1 :: c.2.2).Pairwise fun g h =>
      g.take d.decodingOrder < h.take d.decodingOrder) :
    ∃ kept', Progress d done off (seen ++ steps.map fun c => c.1 :: c.2.2)
      (steps.foldl (fun state c => visit d i single c.1 state c.2.1) state).1
      (steps.foldl (fun state c => visit d i single c.1 state c.2.1) state).2 kept' := by
  induction steps generalizing state seen kept with
  | nil => exact ⟨kept, by simpa using hp⟩
  | cons c steps ih =>
    obtain ⟨htag, hchain, hi, hscore⟩ := hsteps c List.mem_cons_self
    have hlt : ∀ g ∈ seen, g.take d.decodingOrder < (c.1 :: c.2.2).take d.decodingOrder :=
      fun g hg => (List.pairwise_append.mp hsorted).2.2 g hg _ (by simp)
    obtain ⟨kept', hp'⟩ := hp.step hd htag hchain hi hlength hscore hlt
    rw [List.map_cons, List.append_cons] at hsorted ⊢
    apply ih (fun c hc => hsteps c (List.mem_cons_of_mem _ hc)) hp' _ hsorted
    intro g hg
    rcases List.mem_append.mp hg with hg | hg
    · exact hlength g hg
    · obtain rfl := List.mem_singleton.mp hg
      simp [hi]

/-! ### All positions -/

/-- The sequence has a tag of each position, for sizes with the latest first. -/
def Fits (sizes : List ℕ) (h : List ℤ) : Prop :=
  List.Forall₂ (fun t (m : ℕ) => 0 ≤ t ∧ t < (m : ℤ)) h sizes

/-- The nodes of the last position, as the loop over the previous nodes has them. -/
def previous (nodes : List Node) (nodesPrev : ℤ) : List ℤ :=
  (List.range (nodes.length - nodesPrev).toNat).map fun k : ℕ => nodesPrev + k

/-- The nodes of a position stand for sequences with different keys that cover all
sequences. -/
structure Layer (d : Viterbi) (sizes : List ℕ) (nodes : List Node) (nodesPrev : ℤ)
    (kept : List (List ℤ)) (off : ℤ) : Prop where
  nodesPrev_lt : nodesPrev < nodes.length
  entries : List.Forall₂ (fun p h => Chain nodes p h ∧
    scoreAt nodes p + off = Trellis.total d.gain h) (previous nodes nodesPrev) kept
  fits : ∀ h ∈ kept, Fits sizes h
  covers : Trellis.Covers d.state d.gain {h | h ∈ kept} {h | Fits sizes h}
  increase : (kept.map d.key).Pairwise (· < ·)

/-- Before the first position there is the empty sequence. -/
theorem layer_init : Layer d [] [] (-1) [[]] 0 where
  nodesPrev_lt := by simp
  entries := .cons ⟨.start (by simp), rfl⟩ .nil
  fits h hh := by
    obtain rfl := List.mem_singleton.mp hh
    exact .nil
  covers h hh := ⟨[], by simp, (List.forall₂_nil_right_iff.mp hh) ▸ .refl _⟩
  increase := List.pairwise_singleton _ _

/-- The nodes that a position adds. -/
theorem Enumerates.entries {order windowSize : ℕ} {R : Node → List ℤ → Prop}
    {done nodes : List Node} {seen kept : List (List ℤ)} {window : List ℤ}
    (hp : Enumerates order windowSize R done seen nodes window kept) :
    nodes.length = done.length + kept.length ∧ (∃ new, nodes = done ++ new) ∧
      List.Forall₂ (fun p h => 0 ≤ p ∧ ∃ ν, nodes[p.toNat]? = some ν ∧ R ν h)
        (previous nodes done.length) kept := by
  obtain ⟨new, rfl, hnew⟩ := hp.nodes_eq
  have hlength := hnew.length_eq
  refine ⟨by simp [hlength], ⟨new, rfl⟩, ?_⟩
  have hprevious : previous (done ++ new) done.length =
      (List.range new.length).map fun k : ℕ => ((done.length + k : ℕ) : ℤ) := by
    simp [previous]
  rw [hprevious, List.forall₂_iff_get]
  refine ⟨by simp [hlength], fun k hk hk' => ?_⟩
  have hν := (List.forall₂_iff_get.mp hnew).2 k (by simpa using hk) hk'
  have hget : (done ++ new)[done.length + k]? = some (new.get ⟨k, by simpa using hk⟩) := by
    rw [List.getElem?_append_right (Nat.le_add_right _ _), Nat.add_sub_cancel_left]
    simp
  have hp : (List.map (fun k : ℕ => ((done.length + k : ℕ) : ℤ)) (List.range new.length)).get
      ⟨k, hk⟩ = ((done.length + k : ℕ) : ℤ) := by simp
  rw [hp]
  exact ⟨by omega, _, by rw [Int.toNat_natCast, hget], hν⟩

/-- The new nodes have their sequences and scores. -/
theorem Progress.entries {done : List Node} {off : ℤ} {seen kept : List (List ℤ)}
    {nodes : List Node} {window : List ℤ} (hp : Progress d done off seen nodes window kept) :
    nodes.length = done.length + kept.length ∧
      List.Forall₂ (fun p h => Chain nodes p h ∧
        scoreAt nodes p + off = Trellis.total d.gain h) (previous nodes done.length) kept := by
  obtain ⟨hlength, ⟨new, rfl⟩, hentries⟩ := hp.toEnumerates.entries
  refine ⟨hlength, hentries.imp ?_⟩
  rintro p _ ⟨hpos, ν, hν, g, rfl, hchain, hscore⟩
  refine ⟨.node hpos hν (hchain.append new), ?_⟩
  rw [scoreAt, if_pos hpos, hν]
  exact hscore

/-- The state of the loops after a position of the given size. -/
def position (d : Viterbi) (size i : ℕ) (nodes : List Node) (nodesPrev : ℤ) :
    List Node × List ℤ :=
  (List.range size).foldl
    (fun state (tag : ℕ) => (previous nodes nodesPrev).foldl
      (visit d i (nodesPrev + 1 = nodes.length && size = 1) tag) state)
    (nodes, List.replicate d.windowSize (-1))

/-- The layers from a position on. -/
theorem layers_cons (size : ℕ) (rest : List ℕ) (i : ℕ) (nodes : List Node) (nodesPrev : ℤ) :
    layers d (size :: rest) i nodes nodesPrev =
      layers d rest (i + 1) (position d size i nodes nodesPrev).1 nodes.length := rfl

/-- A position extends the sequences by its tags and keeps the best one for each key. -/
theorem Layer.next (hd : d.IsExact) {sizes : List ℕ} {nodes : List Node} {nodesPrev : ℤ}
    {kept : List (List ℤ)} {off : ℤ} (h : Layer d sizes nodes nodesPrev kept off) {size : ℕ}
    (hsize : size ≠ 0) :
    ∃ kept' off', Layer d (size :: sizes) (position d size sizes.length nodes nodesPrev).1
        nodes.length kept' off' ∧
      (position d size sizes.length nodes nodesPrev).1.length = nodes.length + kept'.length := by
  obtain ⟨hlen, hentry⟩ := List.forall₂_iff_zip.mp h.entries
  obtain ⟨single, hsingle⟩ : ∃ single,
      single = (decide (nodesPrev + 1 = nodes.length) && decide (size = 1)) := ⟨_, rfl⟩
  obtain ⟨steps, hsteps_eq⟩ : ∃ steps, steps = stepsOf size (previous nodes nodesPrev) kept :=
    ⟨_, rfl⟩
  have hposition : position d size sizes.length nodes nodesPrev =
      steps.foldl (fun state c => visit d sizes.length single c.1 state c.2.1)
        (nodes, List.replicate d.windowSize (-1)) := by
    rw [position, ← hsingle, hsteps_eq]
    exact foldl_stepsOf (visit d sizes.length single) size hlen _
  have hsequences : (steps.map fun c => c.1 :: c.2.2) =
      (List.range size).flatMap fun tag : ℕ => kept.map fun g => (tag : ℤ) :: g := by
    rw [hsteps_eq]
    exact sequences_stepsOf size hlen
  have hfits : ∀ g ∈ kept, g.length = sizes.length := fun g hg => (h.fits g hg).length_eq
  -- where the scores are skipped, there is only one step
  obtain ⟨off', hoff⟩ : ∃ off', ∀ c ∈ steps, (if single then 0 else
      d.score sizes.length (pad d.windowSize (c.1 :: c.2.2)) 0) + off' =
        d.score sizes.length (pad d.windowSize (c.1 :: c.2.2)) 0 + off := by
    cases hs : single with
    | false => exact ⟨off, fun c _ => by simp⟩
    | true =>
      rw [hs] at hsingle
      obtain ⟨hone, rfl⟩ : nodesPrev + 1 = nodes.length ∧ size = 1 := by simpa using hsingle.symm
      obtain ⟨g, hg⟩ : ∃ g, kept = [g] := by
        apply List.length_eq_one_iff.mp
        rw [← hlen]
        simp only [previous, List.length_map, List.length_range]
        omega
      refine ⟨d.score sizes.length (pad d.windowSize (0 :: g)) 0 + off, fun c hc => ?_⟩
      have hc' : c.1 :: c.2.2 ∈ steps.map fun c => c.1 :: c.2.2 := List.mem_map_of_mem hc
      rw [hsequences, hg] at hc'
      have hc'' : c.1 :: c.2.2 = 0 :: g := by simpa using hc'
      rw [hc'']
      simp
  have hsteps : ∀ c ∈ steps, 0 ≤ c.1 ∧ Chain nodes c.2.1 c.2.2 ∧ c.2.2.length = sizes.length ∧
      (if single then 0 else d.score sizes.length (pad d.windowSize (c.1 :: c.2.2)) 0) +
        scoreAt nodes c.2.1 + off' = Trellis.total d.gain (c.1 :: c.2.2) := by
    intro c hc
    have hoff' := hoff c hc
    rw [hsteps_eq] at hc
    obtain ⟨tag, _, hc'⟩ := List.mem_flatMap.mp hc
    obtain ⟨⟨p, g⟩, he, rfl⟩ := List.mem_map.mp hc'
    obtain ⟨hchain, hscore⟩ := hentry he
    have hlength := hfits g (List.of_mem_zip he).2
    refine ⟨by simp, hchain, hlength, ?_⟩
    simp only [Trellis.total, gain, hlength]
    simp only at hoff'
    omega
  have hsorted : ([] ++ steps.map fun c : ℤ × ℤ × List ℤ => c.1 :: c.2.2).Pairwise
      fun g h : List ℤ => g.take d.decodingOrder < h.take d.decodingOrder := by
    rw [hsteps_eq]
    exact sorted_stepsOf hd.order size hlen h.increase
  have hstart : Progress d nodes off' [] nodes (List.replicate d.windowSize (-1)) [] :=
    ⟨.start _ _ _ _, by simp⟩
  obtain ⟨kept', hp⟩ := @Progress.loop d hd nodes off' sizes.length single steps hsteps
    (nodes, List.replicate d.windowSize (-1)) [] [] hstart (by simp) hsorted
  rw [← hposition, List.nil_append, hsequences] at hp
  have hseen := fun l : List ℤ => @mem_sequences size kept l
  have hfit : ∀ g ∈ kept', Fits (size :: sizes) g := by
    intro g hg
    obtain ⟨a, ha, f, hf, rfl⟩ := (hseen g).mp (hp.subset g hg)
    exact .cons ha (h.fits f hf)
  have hcovers : Trellis.Covers d.state d.gain {g | g ∈ kept'} {g | Fits (size :: sizes) g} := by
    have hloop : Trellis.Covers d.state d.gain {g | g ∈ kept'}
        {l | ∃ a ∈ {t : ℤ | 0 ≤ t ∧ t < size}, ∃ g ∈ {g | g ∈ kept}, l = a :: g} := by
      intro l hl
      obtain ⟨g, hg, hkey, htotal⟩ := hp.covers l ((hseen l).mpr hl)
      obtain ⟨a, ha, f, hf, rfl⟩ := hl
      refine ⟨g, hg, ?_, htotal⟩
      simp only [state, hkey, (hfit g hg).length_eq, List.length_cons, hfits f hf]
    have hall : {l | ∃ a ∈ {t : ℤ | 0 ≤ t ∧ t < size}, ∃ g ∈ {g | Fits sizes g}, l = a :: g} =
        {g | Fits (size :: sizes) g} := by
      ext l
      constructor
      · rintro ⟨a, ha, g, hg, rfl⟩
        exact .cons ha hg
      · intro hl
        obtain ⟨a, g, ha, hg, rfl⟩ := List.forall₂_cons_right_iff.mp hl
        exact ⟨a, ha, g, hg, rfl⟩
    rw [← hall]
    exact hloop.trans (h.covers.cons hd.decides _)
  obtain ⟨hcount, hentries⟩ := hp.entries
  have hkept : kept' ≠ [] := by
    rintro rfl
    have hpos := h.nodesPrev_lt
    obtain ⟨g, hg⟩ : ∃ g, g ∈ kept := by
      apply List.exists_mem_of_length_pos
      rw [← hlen]
      simp only [previous, List.length_map, List.length_range]
      omega
    obtain ⟨f, hf, -⟩ := hp.covers (((0 : ℕ) : ℤ) :: g) ((hseen _).mpr
      ⟨0, ⟨le_refl _, by omega⟩, g, hg, rfl⟩)
    cases hf
  have hpos := List.length_pos_of_ne_nil hkept
  exact ⟨kept', off', ⟨by omega, hentries, hfit, hcovers, hp.increase⟩, hcount⟩

/-! ### The number of nodes -/

/-- There are as many sections as the lengths give together. -/
theorem length_sections {α : Type*} (L : List (List α)) :
    L.sections.length = (L.map List.length).prod := by
  induction L with
  | nil => simp
  | cons l L ih => simp [List.sections, List.length_flatMap, ih, Nat.mul_comm]

/-- Choices from lists without duplicates are all different. -/
theorem nodup_sections {α : Type*} {L : List (List α)} (hL : ∀ l ∈ L, l.Nodup) :
    L.sections.Nodup := by
  induction L with
  | nil => exact List.nodup_singleton _
  | cons l L ih =>
    obtain ⟨hl, hL⟩ := List.forall_mem_cons.mp hL
    rw [List.sections, List.nodup_flatMap]
    refine ⟨fun s _ => hl.map fun a b hab => (List.cons.inj hab).1, ?_⟩
    apply (ih hL).imp
    rintro s t hne _ hs ht
    obtain ⟨a, -, rfl⟩ := List.mem_map.mp hs
    obtain ⟨b, -, heq⟩ := List.mem_map.mp ht
    exact hne (List.cons.inj heq).2.symm

/-- The sequences of tags for some positions, one list for the tags of each. -/
def keysOf (sizes : List ℕ) : List (List ℤ) :=
  (sizes.map fun m => (List.range m).map fun t : ℕ => (t : ℤ)).sections

/-- The keys are the tags that fit the candidates. -/
theorem mem_keysOf {sizes : List ℕ} {k : List ℤ} : k ∈ keysOf sizes ↔ Fits sizes k := by
  rw [keysOf, List.mem_sections, List.forall₂_map_right_iff, Fits]
  have htag : ∀ (t : ℤ) (m : ℕ),
      t ∈ (List.range m).map (fun t : ℕ => (t : ℤ)) ↔ 0 ≤ t ∧ t < (m : ℤ) := by
    intro t m
    constructor
    · intro ht
      obtain ⟨n, hn, rfl⟩ := List.mem_map.mp ht
      rw [List.mem_range] at hn
      exact ⟨by omega, by omega⟩
    · rintro ⟨hnonneg, hlt⟩
      exact List.mem_map.mpr ⟨t.toNat, List.mem_range.mpr (by omega), Int.toNat_of_nonneg hnonneg⟩
  exact ⟨fun h => h.imp fun t m => (htag t m).mp, fun h => h.imp fun t m => (htag t m).mpr⟩

/-- There are as many keys as the candidates give together. -/
theorem length_keysOf (sizes : List ℕ) : (keysOf sizes).length = sizes.prod := by
  simp [keysOf, length_sections, Function.comp_def]

/-- The keys are different. -/
theorem nodup_keysOf (sizes : List ℕ) : (keysOf sizes).Nodup := by
  apply nodup_sections
  intro l hl
  obtain ⟨m, -, rfl⟩ := List.mem_map.mp hl
  exact List.nodup_range.map fun a b hab => by exact_mod_cast hab

/-- There are only as many sequences with different keys as there are keys. -/
theorem length_le_of_increase {order : ℕ} {sizes : List ℕ} {kept : List (List ℤ)}
    (hfits : ∀ h ∈ kept, Fits sizes h)
    (hincrease : (kept.map (List.take (order - 1))).Pairwise (· < ·)) :
    kept.length ≤ (sizes.take (order - 1)).prod := by
  have hnodup : (kept.map (List.take (order - 1))).Nodup := hincrease.imp fun hlt => ne_of_lt hlt
  have hsubset : kept.map (List.take (order - 1)) ⊆ keysOf (sizes.take (order - 1)) := by
    intro k hk
    obtain ⟨g, hg, rfl⟩ := List.mem_map.mp hk
    exact mem_keysOf.mpr (List.forall₂_take (order - 1) (hfits g hg))
  rw [← length_keysOf, ← List.length_map]
  exact (hnodup.subperm hsubset).length_le

/-- Every position has a tag. -/
theorem exists_fits {sizes : List ℕ} (hsizes : ∀ m ∈ sizes, m ≠ 0) : ∃ h, Fits sizes h := by
  refine ⟨sizes.map fun _ => 0, List.forall₂_map_left_iff.mpr (List.forall₂_same.mpr ?_)⟩
  intro m hm
  have := hsizes m hm
  exact ⟨le_rfl, by omega⟩

/-- A layer has a sequence for every key. -/
theorem Layer.length_kept {sizes : List ℕ} (hsizes : ∀ m ∈ sizes, m ≠ 0) {nodes : List Node}
    {nodesPrev : ℤ} {kept : List (List ℤ)} {off : ℤ} (h : Layer d sizes nodes nodesPrev kept off) :
    kept.length = (sizes.take (d.decodingOrder - 1)).prod := by
  have hsubset : keysOf (sizes.take (d.decodingOrder - 1)) ⊆ kept.map d.key := by
    intro k hk
    have hkfits := mem_keysOf.mp hk
    obtain ⟨rest, hrest⟩ := @exists_fits (sizes.drop (d.decodingOrder - 1))
      fun m hm => hsizes m (List.mem_of_mem_drop hm)
    have hall : Fits (sizes.take (d.decodingOrder - 1) ++ sizes.drop (d.decodingOrder - 1))
        (k ++ rest) := List.rel_append hkfits hrest
    rw [List.take_append_drop] at hall
    obtain ⟨g, hg, hstate, -⟩ := h.covers _ hall
    refine List.mem_map.mpr ⟨g, hg, (Prod.ext_iff.mp hstate).2.trans ?_⟩
    -- a key that is shorter than it could be is the whole sequence
    have hlength := hkfits.length_eq
    have hrestLength := hrest.length_eq
    rw [List.length_take] at hlength
    rw [List.length_drop] at hrestLength
    change d.key (k ++ rest) = k
    by_cases hle : d.decodingOrder - 1 ≤ sizes.length
    · rw [key, List.take_left' (by omega)]
    · obtain rfl := List.length_eq_zero_iff.mp (show rest.length = 0 by omega)
      rw [key, List.append_nil, List.take_of_length_le (by omega)]
  have hle := ((nodup_keysOf _).subperm hsubset).length_le
  rw [length_keysOf, List.length_map] at hle
  exact le_antisymm (length_le_of_increase h.fits h.increase) hle

/-- Nodes are counted unless a word has no analyses. -/
theorem exists_countNodes (order : ℕ) (all : List ℕ) {sizes : List ℕ}
    (hsizes : ∀ m ∈ sizes, m ≠ 0) (i states nodes : ℕ) :
    ∃ total, countNodes order all sizes i states nodes = some total := by
  induction sizes generalizing i states nodes with
  | nil => exact ⟨nodes, rfl⟩
  | cons size sizes ih =>
    obtain ⟨hsize, hsizes⟩ := List.forall_mem_cons.mp hsizes
    rw [countNodes, if_neg hsize]
    exact ih hsizes _ _ _

/-- The number of states in the count of nodes is the number of keys while it is no more than
an `unsigned` can count. -/
theorem countNodes_cons {order : ℕ} (horder : 2 ≤ order) {sizes : List ℕ}
    (hsizes : ∀ m ∈ sizes, m ≠ 0) {size : ℕ} (hsize : size ≠ 0) (rest : List ℕ) {nodes : ℕ}
    (hfits : nodes + ((size :: sizes).take (order - 1)).prod < unsignedValues) :
    countNodes order (sizes.reverse ++ size :: rest) (size :: rest) sizes.length
        (sizes.take (order - 1)).prod nodes =
      countNodes order ((size :: sizes).reverse ++ rest) rest (size :: sizes).length
        ((size :: sizes).take (order - 1)).prod
        (nodes + ((size :: sizes).take (order - 1)).prod) := by
  obtain ⟨k, rfl⟩ : ∃ k, order = k + 2 := ⟨order - 2, by omega⟩
  have hk : k + 2 - 1 = k + 1 := rfl
  have hstates : (if sizes.length + 1 ≥ k + 2 then
      (sizes.take (k + 1)).prod / (sizes.reverse ++ size :: rest).getD (sizes.length + 1 - (k + 2)) 0
      else (sizes.take (k + 1)).prod) = (sizes.take k).prod := by
    split
    · have hlt : k < sizes.length := by omega
      have hget : (sizes.reverse ++ size :: rest).getD (sizes.length + 1 - (k + 2)) 0 = sizes[k] := by
        have hindex : sizes.length - 1 - (sizes.length + 1 - (k + 2)) = k := by omega
        rw [List.getD_eq_getElem?_getD, List.getElem?_append_left (by simp; omega),
          List.getElem?_reverse (by omega), hindex, List.getElem?_eq_getElem hlt, Option.getD_some]
      rw [hget, List.take_succ_eq_append_getElem hlt, List.prod_append, List.prod_singleton]
      exact Nat.mul_div_cancel _ (Nat.pos_of_ne_zero (hsizes _ (List.getElem_mem hlt)))
    · rw [List.take_of_length_le (by omega), List.take_of_length_le (by omega)]
  rw [hk, List.take_succ_cons, List.prod_cons] at hfits
  have hmod : (sizes.take k).prod * size % unsignedValues = size * (sizes.take k).prod := by
    rw [Nat.mul_comm, Nat.mod_eq_of_lt (by omega)]
  rw [countNodes, if_neg hsize]
  simp only [hk, hstates, hmod, Nat.mod_eq_of_lt hfits, List.take_succ_cons, List.prod_cons,
    List.reverse_cons, List.append_assoc, List.cons_append, List.nil_append, List.length_cons]

/-- The nodes that are counted are those that are needed, if an `unsigned` can count them. -/
theorem countNodes_eq {order : ℕ} (horder : 2 ≤ order) {rest : List ℕ}
    (hrest : ∀ m ∈ rest, m ≠ 0) {sizes : List ℕ} (hsizes : ∀ m ∈ sizes, m ≠ 0) {nodes : ℕ}
    (hfits : nodes + nodesAfter order sizes rest < unsignedValues) :
    countNodes order (sizes.reverse ++ rest) rest sizes.length (sizes.take (order - 1)).prod nodes =
      some (nodes + nodesAfter order sizes rest) := by
  induction rest generalizing sizes nodes with
  | nil => rfl
  | cons size rest ih =>
    obtain ⟨hsize, hrest⟩ := List.forall_mem_cons.mp hrest
    rw [nodesAfter, ← Nat.add_assoc] at hfits
    rw [countNodes_cons horder hsizes hsize rest (by omega), nodesAfter, ← Nat.add_assoc]
    exact ih hrest (List.forall_mem_cons.mpr ⟨hsize, hsizes⟩) hfits

/-- The loops over all positions. -/
theorem Layer.run (hd : d.IsExact) (rest : List ℕ) (hrest : ∀ m ∈ rest, m ≠ 0) {sizes : List ℕ}
    (hsizes : ∀ m ∈ sizes, m ≠ 0) {nodes : List Node} {nodesPrev : ℤ} {kept : List (List ℤ)}
    {off : ℤ} (h : Layer d sizes nodes nodesPrev kept off) :
    ∃ kept' off',
      Layer d (rest.reverse ++ sizes) (layers d rest sizes.length nodes nodesPrev).1
        (layers d rest sizes.length nodes nodesPrev).2 kept' off' ∧
      (layers d rest sizes.length nodes nodesPrev).1.length =
        nodes.length + nodesAfter d.decodingOrder sizes rest := by
  induction rest generalizing sizes nodes nodesPrev kept off with
  | nil => exact ⟨kept, off, h, rfl⟩
  | cons size rest ih =>
    obtain ⟨hsize, hrest⟩ := List.forall_mem_cons.mp hrest
    obtain ⟨kept', off', hnext, hlength⟩ := h.next hd hsize
    have hsizes' : ∀ m ∈ size :: sizes, m ≠ 0 := List.forall_mem_cons.mpr ⟨hsize, hsizes⟩
    have hrun := ih hrest hsizes' hnext
    rw [hlength, hnext.length_kept hsizes'] at hrun
    rw [layers_cons, List.reverse_cons, List.append_assoc, nodesAfter, ← Nat.add_assoc]
    exact hrun

/-! ### The best sequence -/

/-- The best element is one of the list, and none is better. -/
theorem foldl_best {α : Type*} (f : α → ℤ) (l : List α) (best : α) :
    l.foldl (fun best node => if f node > f best then node else best) best ∈ best :: l ∧
      ∀ x ∈ best :: l,
        f x ≤ f (l.foldl (fun best node => if f node > f best then node else best) best) := by
  induction l generalizing best with
  | nil => simp
  | cons a l ih =>
    rw [List.foldl_cons]
    obtain ⟨hmem, hle⟩ := ih (if f a > f best then a else best)
    have hbest := hle _ List.mem_cons_self
    constructor
    · rcases List.mem_cons.mp hmem with heq | hmem
      · rw [heq]
        split <;> simp
      · exact List.mem_cons_of_mem _ (List.mem_cons_of_mem _ hmem)
    · intro x hx
      rcases List.mem_cons.mp hx with rfl | hx
      · apply le_trans _ hbest
        split <;> omega
      · rcases List.mem_cons.mp hx with rfl | hx
        · apply le_trans _ hbest
          split <;> omega
        · exact hle x (List.mem_cons_of_mem _ hx)

/-- The best node of the last position. -/
theorem bestNode_spec {nodes : List Node} {nodesPrev : ℤ} (hlt : nodesPrev < nodes.length) :
    bestNode nodes nodesPrev ∈ previous nodes nodesPrev ∧
      ∀ p ∈ previous nodes nodesPrev, scoreAt nodes p ≤ scoreAt nodes (bestNode nodes nodesPrev) := by
  have hprevious : previous nodes nodesPrev = nodesPrev ::
      (List.range (nodes.length - (nodesPrev + 1)).toNat).map fun k : ℕ => nodesPrev + 1 + k := by
    obtain ⟨n, hn⟩ : ∃ n : ℕ, (nodes.length - nodesPrev).toNat = n + 1 :=
      ⟨(nodes.length - (nodesPrev + 1)).toNat, by omega⟩
    have hn' : (nodes.length - (nodesPrev + 1)).toNat = n := by omega
    rw [previous, hn, hn', List.range_succ_eq_map]
    simp [Function.comp_def, Int.add_assoc, Int.add_comm 1]
  rw [hprevious]
  exact foldl_best (scoreAt nodes) _ nodesPrev

/-- Reading the tags gives the sequence of the node, and leaves later tags as they are. -/
theorem readTags_eq {nodes : List Node} {i : ℕ} {best : ℤ} {h tags : List ℤ}
    (hchain : Chain nodes best h) (hi : h.length = i) (htags : i ≤ tags.length) :
    readTags nodes i best tags = h.reverse ++ tags.drop i := by
  induction i generalizing best h tags with
  | zero =>
    obtain rfl := List.length_eq_zero_iff.mp hi
    rfl
  | succ i ih =>
    cases hchain with
    | start hp => cases hi
    | @node _ ν h hp hν hprev =>
      have hlength : h.length = i := by simpa using hi
      rw [readTags, hν]
      simp only
      rw [ih hprev hlength (by simp; omega), List.reverse_cons, List.append_assoc]
      congr 1
      rw [List.drop_eq_getElem_cons (by simp; omega), List.drop_set_of_lt (Nat.lt_succ_self i)]
      simp

/-- The window at the last position. -/
theorem windowAt_reverse (size : ℕ) (t : ℤ) (h : List ℤ) :
    windowAt size (t :: h).reverse h.length = pad size (t :: h) := by
  apply List.ext_getElem (by simp [windowAt])
  intro k hk hk'
  have hksize : k < size := by simpa [windowAt] using hk
  simp only [windowAt, List.getElem_map, List.getElem_range, pad]
  by_cases hkh : k ≤ h.length
  · rw [if_pos hkh, List.getElem_append_left (by simp; omega), List.getElem_take,
      List.getD_eq_getElem?_getD, List.getElem?_reverse (by rw [List.length_cons]; omega)]
    have hindex : (t :: h).length - 1 - (h.length - k) = k := by
      rw [List.length_cons]
      omega
    rw [hindex, List.getElem?_eq_getElem (by simp; omega)]
    rfl
  · rw [if_neg hkh, List.getElem_append_right (by simp; omega)]
    simp

/-- The windows before are those of the shorter sequence. -/
theorem windowAt_concat (size : ℕ) (t : ℤ) (tags : List ℤ) {i : ℕ} (hi : i < tags.length) :
    windowAt size (tags ++ [t]) i = windowAt size tags i := by
  apply List.map_congr_left
  intro k _
  split
  · rw [List.getD_eq_getElem?_getD, List.getD_eq_getElem?_getD,
      List.getElem?_append_left (by omega)]
  · rfl

/-- The total of a tagging is the one of its history. -/
theorem total_reverse (h : List ℤ) : d.total h.reverse = Trellis.total d.gain h := by
  induction h with
  | nil => rfl
  | cons t h ih =>
    have hwindow := windowAt_reverse d.windowSize t h
    rw [List.reverse_cons] at hwindow
    rw [Trellis.total, ← ih, List.reverse_cons, total, total, List.length_append,
      List.length_singleton, List.length_reverse, List.range_succ, List.map_append,
      List.sum_append]
    congr 1
    · congr 1
      apply List.map_congr_left
      intro i hi
      rw [windowAt_concat _ _ _ (by simpa using hi)]
    · rw [List.map_singleton, List.sum_singleton, hwindow, gain]

/-- Choices are the sequences that fit, with the first tag first. -/
theorem isChoice_iff {α : Type} (analyses : List (List α)) (h : List ℤ) :
    IsChoice analyses h.reverse ↔ Fits (analyses.map List.length).reverse h := by
  rw [IsChoice, Fits, ← List.forall₂_reverse_iff, List.reverse_reverse, ← List.map_reverse,
    List.forall₂_map_right_iff]
  exact ⟨fun hall => hall.flip, fun hall => hall.flip⟩

/-- The nodes of all positions, and how many there are. -/
theorem length_layers (hd : d.IsExact) {sizes : List ℕ} (hsizes : ∀ m ∈ sizes, m ≠ 0) :
    (layers d sizes 0 [] (-1)).1.length = nodesNeeded d.decodingOrder sizes := by
  obtain ⟨-, -, -, hlength⟩ := layer_init.run hd sizes hsizes (by simp)
  rw [nodesNeeded, ← Nat.zero_add (nodesAfter _ _ _)]
  exact hlength

/-- There is a result only if an `int` can count the nodes. -/
theorem needed_lt_of_tag {α : Type} (hd : d.IsExact) {reserved : ℕ} {analyses : List (List α)}
    (hne : ∀ a ∈ analyses, a ≠ []) {tags result : List ℤ}
    (htag : d.tag reserved analyses tags = some result) :
    nodesNeeded d.decodingOrder (analyses.map List.length) < 2 ^ 31 := by
  have hsizes : ∀ m ∈ analyses.map List.length, m ≠ 0 := by
    intro m hm
    obtain ⟨a, ha, rfl⟩ := List.mem_map.mp hm
    exact fun h => hne a ha (List.length_eq_zero_iff.mp h)
  by_cases hnil : analyses = []
  · subst hnil
    exact Nat.two_pow_pos 31
  · obtain ⟨allocated, hcount⟩ := exists_countNodes d.decodingOrder (analyses.map List.length)
      hsizes 0 1 0
    rw [tag, if_neg (by simpa using hnil)] at htag
    simp only [hcount] at htag
    obtain ⟨⟨-, hroom⟩, -⟩ := Option.ite_none_right_eq_some.mp htag
    rwa [length_layers hd hsizes] at hroom

/-- The decoder finds the best tags exactly if an `int` can count the nodes. -/
theorem tagsBest_iff {α : Type} (hd : d.IsExact) (reserved : ℕ) (analyses : List (List α))
    (hne : ∀ a ∈ analyses, a ≠ []) (tags : List ℤ) (htags : analyses.length ≤ tags.length) :
    d.TagsBest reserved analyses tags ↔
      nodesNeeded d.decodingOrder (analyses.map List.length) < 2 ^ 31 := by
  refine ⟨fun ⟨_, htag, _⟩ => needed_lt_of_tag hd hne htag, fun hfits => ?_⟩
  have hsizes : ∀ m ∈ analyses.map List.length, m ≠ 0 := by
    intro m hm
    obtain ⟨a, ha, rfl⟩ := List.mem_map.mp hm
    exact fun h => hne a ha (List.length_eq_zero_iff.mp h)
  obtain ⟨kept, off, hlayer, -⟩ := layer_init.run hd (analyses.map List.length) hsizes (by simp)
  have hused := length_layers hd hsizes
  have hcount := @countNodes_eq d.decodingOrder hd.order _ hsizes [] (by simp) 0
    (by simp only [nodesNeeded, unsignedValues] at hfits ⊢; omega)
  simp only [List.append_nil, List.length_nil, List.reverse_nil, List.nil_append, List.take_nil,
    List.prod_nil, Nat.zero_add] at hlayer hcount
  obtain ⟨hmem, hbest⟩ := bestNode_spec hlayer.nodesPrev_lt
  obtain ⟨nodes, nodesPrev, hlayers⟩ : ∃ nodes nodesPrev,
      layers d (analyses.map List.length) 0 [] (-1) = (nodes, nodesPrev) := ⟨_, _, rfl⟩
  rw [hlayers] at hlayer hused hmem hbest
  dsimp only at hlayer hused hmem hbest
  obtain ⟨hlen, hentry⟩ := List.forall₂_iff_get.mp hlayer.entries
  obtain ⟨k, hk, hbestNode⟩ := List.getElem_of_mem hmem
  obtain ⟨hchain, hscore⟩ := hentry k hk (hlen ▸ hk)
  obtain ⟨h, hh⟩ : ∃ h, h = kept.get ⟨k, hlen ▸ hk⟩ := ⟨_, rfl⟩
  rw [List.get_eq_getElem, hbestNode, ← hh] at hchain hscore
  have hkept : h ∈ kept := hh ▸ List.get_mem _ _
  have hfitsWords := hlayer.fits h hkept
  have hlength : h.length = analyses.length := by simpa using hfitsWords.length_eq
  have hmax : ∀ g ∈ {g | g ∈ kept}, Trellis.total d.gain g ≤ Trellis.total d.gain h := by
    intro g hg
    obtain ⟨j, hj, rfl⟩ := List.getElem_of_mem hg
    obtain ⟨-, hscore'⟩ := hentry j (hlen ▸ hj) hj
    have hle := hbest _ (List.getElem_mem (hlen ▸ hj))
    simp only [List.get_eq_getElem] at hscore'
    omega
  refine ⟨h.reverse, ?_, (isChoice_iff analyses h).mpr hfitsWords, fun other hother => ?_, _,
    hcount, ?_⟩
  · by_cases hnil : analyses = []
    · subst hnil
      obtain rfl := List.length_eq_zero_iff.mp hlength
      simp [tag]
    · have hroom : HasRoom reserved (nodesAfter d.decodingOrder [] (analyses.map List.length))
          nodes.length := ⟨hused.trans_le (le_max_right _ _), hused ▸ hfits⟩
      rw [tag, if_neg (by simpa using hnil)]
      simp only [hcount, hlayers, if_pos hroom]
      exact congrArg some (readTags_eq hchain hlength htags)
  · rw [total_reverse, ← List.reverse_reverse other, total_reverse]
    apply hlayer.covers.le_of_best hmax
    rw [← List.reverse_reverse other] at hother
    exact (isChoice_iff analyses _).mp hother
  · rw [hlayers]
    exact hused.le

/-- A decoder that scores a pair of equal tags. -/
def pairs : Viterbi where
  score i window _ := window.getD 0 0 + if 0 < i ∧ window.getD 0 0 = window.getD 1 0 then 3 else 0
  decodingOrder := 2
  windowSize := 2

/-- Two words with two analyses each: the higher tags win. -/
theorem tagsBest_pairs : pairs.TagsBest 0 [['a', 'b'], ['a', 'b']] [7, 7, 7] :=
  (tagsBest_iff ⟨by decide, rfl, fun _ _ _ _ => rfl⟩ 0 [['a', 'b'], ['a', 'b']] (by decide)
    [7, 7, 7] (by decide)).mpr (by decide)

/-- Two words with 65536 analyses each have 2^32 pairs of tags, and these are counted as 0. -/
theorem not_tagsBest_wide : ¬ ∀ d : Viterbi, d.IsExact → ∀ analyses : List (List Unit),
    (∀ a ∈ analyses, a ≠ []) → ∀ tags, analyses.length ≤ tags.length →
      d.TagsBest 0 analyses tags := by
  intro hall
  have hexact : IsExact ⟨fun _ _ _ => 0, 3, 3⟩ := ⟨by decide, rfl, fun _ _ _ _ => rfl⟩
  obtain ⟨word, hword⟩ : ∃ word : List Unit, word.length = 65536 :=
    ⟨List.replicate 65536 (), List.length_replicate⟩
  have hwords : ∀ a ∈ [word, word], a ≠ [] := by
    intro a ha
    obtain rfl : a = word := by simpa using ha
    exact List.ne_nil_of_length_pos (by omega)
  obtain ⟨_, htag, -⟩ := hall _ hexact _ hwords [0, 0] le_rfl
  have hneeded := needed_lt_of_tag hexact hwords htag
  simp only [List.map_cons, List.map_nil, hword] at hneeded
  exact absurd hneeded (by decide)

end UDPipe.Morphodita.Viterbi
