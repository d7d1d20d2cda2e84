import UDPipe.Morphodita.FeatureTemplates
import UDPipe.Morphodita.Viterbi

/-!
# The scores that the decoder asks for

The decoder calls `score` for one sequence of tags after another, and tells it how many
of the last tags are the same as in the call before. Every answer is the sum over all
feature sequences, although only those are computed that depend on the changed tags.
-/

namespace UDPipe.Morphodita

/-- The sum of the weights of all sequences, computed anew. -/
def FeatureSequences.recompute (f : FeatureSequences) (values : FeatureValues ℕ)
    (call : ScoreCall ℕ) : ℤ :=
  let valueOf := elementValue elementaryFeatureEmpty elementaryFeatureUnknown values
    call.formIndex call.tagsWindow call.dynamic
  ((f.sequences.zip f.scores).map fun (sequence, score) =>
    keyScore score (sequence.elements.map valueOf)).sum

namespace Viterbi

/-- The struct `viterbi::node` with its dynamic features. -/
structure DynamicNode extends Node where
  dynamic : List ℕ
  deriving DecidableEq, Repr

end Viterbi

/-- The class `viterbi` over feature sequences. The dynamic features of a tag come from
those of the node before, if there is one. -/
structure Decoder where
  features : FeatureSequences
  dynamicFeatures : ℕ → ℤ → Option (List ℕ) → List ℕ
  decodingOrder : ℕ
  windowSize : ℕ

namespace Decoder

open Viterbi (DynamicNode)

/-- The variables of the loops of `tag`, and the calls of `score` with their results, the
latest first. -/
structure State where
  nodes : List DynamicNode
  window : List ℤ
  cache : FeatureCache
  calls : List (ScoreCall ℕ × ℤ)

/-- One step of the loop over the tags and the previous nodes. -/
def visit (d : Decoder) (i : ℕ) (single : Bool) (tag : ℤ) (state : State) (prev : ℤ) : State :=
  let plain := state.nodes.map DynamicNode.toNode
  let sameTags := if state.window.getD 0 0 = tag then 1 else 0
  let (window, sameTags) :=
    Viterbi.fillWindow plain (d.windowSize - 1) prev 1 (state.window.set 0 tag) sameTags
  let dynamic := d.dynamicFeatures i tag
    (if prev ≥ 0 then state.nodes[prev.toNat]?.map DynamicNode.dynamic else none)
  let call : ScoreCall ℕ := ⟨i, window, sameTags, dynamic⟩
  let (cache, added, calls) :=
    if single then (state.cache, 0, state.calls)
    else
      let (cache, result) := d.features.score state.cache call
      (cache, result, (call, result) :: state.calls)
  let score := added + Viterbi.scoreAt plain prev
  let node : DynamicNode := ⟨⟨tag, prev, score⟩, dynamic⟩
  let nodes :=
    if sameTags ≥ d.decodingOrder - 1 then
      if score ≤ Viterbi.scoreAt plain (plain.length - 1) then state.nodes
      else state.nodes.dropLast ++ [node]
    else state.nodes ++ [node]
  ⟨nodes, window, cache, calls⟩

/-- The loop over the positions: the state at the end, and the index of the first node of
the last position. -/
def layers (d : Decoder) : List ℕ → ℕ → State → ℤ → State × ℤ
  | [], _, state, nodesPrev => (state, nodesPrev)
  | size :: rest, i, state, nodesPrev =>
    let nodesNow : ℤ := state.nodes.length
    let single := nodesPrev + 1 = nodesNow && size = 1
    let prevs := (List.range (nodesNow - nodesPrev).toNat).map fun k : ℕ => nodesPrev + k
    let state := (List.range size).foldl
      (fun state (tag : ℕ) => prevs.foldl (d.visit i single tag) state)
      { state with window := List.replicate d.windowSize (-1) }
    layers d rest (i + 1) state nodesNow

/-- `viterbi::tag` for a sentence with computed features, with a cache that has a number of
nodes from other sentences: the tags, and the calls of `score` with their results. The nodes
are allocated before the loops, for which `decodingOrder - 1 ≤ windowSize` is needed. There are
no tags when a node is written behind them or has a number that is not an `int`. -/
def tag {α : Type} (d : Decoder) (values : FeatureValues ℕ) (reserved : ℕ)
    (analyses : List (List α)) (tags : List ℤ) : Option (List ℤ) × List (ScoreCall ℕ × ℤ) :=
  let sizes := analyses.map List.length
  if analyses.isEmpty then (some tags, [])
  else
    match Viterbi.countNodes d.decodingOrder sizes sizes 0 1 0 with
    | none => (some tags, [])
    | some allocated =>
      let (state, nodesPrev) :=
        d.layers sizes 0 ⟨[], [], d.features.initializeSentence values, []⟩ (-1)
      let plain := state.nodes.map DynamicNode.toNode
      (if Viterbi.HasRoom reserved allocated plain.length then
          some (Viterbi.readTags plain analyses.length (Viterbi.bestNode plain nodesPrev) tags)
        else none, state.calls)

end Decoder

/-! ### One call -/

/-- The loop brings the scores of all sequences up to date when those that it leaves alone
are up to date. -/
theorem scoreLoop_upToDate {valueOf : SequenceElement → ℕ} {tagsUnchanged : ℤ}
    {parts : List (FeatureSequence × (Bytes → ℤ))} {caches : List CacheElement}
    (hsorted : parts.Pairwise fun a b => b.1.dependantRange ≤ a.1.dependantRange)
    (h : List.Forall₂ (fun p cache => cache.Holds p.2 ∧ (p.1.dependantRange ≤ tagsUnchanged →
      cache.score = keyScore p.2 (p.1.elements.map valueOf))) parts caches)
    (result : ℤ) :
    let r := scoreLoop valueOf tagsUnchanged parts caches result
    List.Forall₂ (fun p cache => cache.Holds p.2 ∧
        cache.score = keyScore p.2 (p.1.elements.map valueOf)) parts r.1 ∧
      r.2 = result - (caches.map CacheElement.score).sum + (r.1.map CacheElement.score).sum := by
  induction parts generalizing caches result with
  | nil =>
    cases h
    exact ⟨.nil, by simp [scoreLoop]⟩
  | cons p parts ih =>
    obtain ⟨sequence, score⟩ := p
    cases h with
    | @cons _ cache _ caches hfirst hrest =>
    obtain ⟨hle, hsorted⟩ := List.pairwise_cons.mp hsorted
    rw [scoreLoop]
    by_cases hstop : tagsUnchanged ≥ sequence.dependantRange
    · simp only [if_pos hstop]
      refine ⟨.cons ⟨hfirst.1, hfirst.2 hstop⟩ ?_, by omega⟩
      -- the sequences after this one do not reach farther back
      rw [List.forall₂_iff_get] at hrest ⊢
      refine ⟨hrest.1, fun k hk hk' => ?_⟩
      obtain ⟨hholds, hkept⟩ := hrest.2 k hk hk'
      exact ⟨hholds, hkept ((hle _ (List.get_mem _ _)).trans hstop)⟩
    · simp only [if_neg hstop]
      have hupdate := CacheElement.update_score hfirst.1 (sequence.elements.map valueOf)
      obtain ⟨hcaches, hresult⟩ := ih hsorted hrest (result - cache.score +
        (cache.update score (makeKey (sequence.elements.map valueOf) [])).score)
      refine ⟨.cons hupdate hcaches, ?_⟩
      rw [hresult]
      simp only [List.map_cons, List.sum_cons]
      omega

namespace FeatureSequences

variable (f : FeatureSequences) (values : FeatureValues ℕ)

/-- The values of the elements in a call. -/
def valuesIn (call : ScoreCall ℕ) : SequenceElement → ℕ :=
  elementValue elementaryFeatureEmpty elementaryFeatureUnknown values call.formIndex
    call.tagsWindow call.dynamic

/-- The cache of a sentence: its scores belong to its keys, and the total is their sum. -/
structure IsCache (c : FeatureCache) : Prop where
  values_eq : c.values = values
  holds : List.Forall₂ (fun p cache => cache.Holds p.2) (f.sequences.zip f.scores) c.caches
  score_eq : c.score = (c.caches.map CacheElement.score).sum

/-- The cache after a call: the scores are those of the call. -/
structure IsCacheOf (call : ScoreCall ℕ) (c : FeatureCache) : Prop extends f.IsCache values c where
  upToDate : List.Forall₂
    (fun p cache => cache.score = keyScore p.2 (p.1.elements.map (valuesIn values call)))
    (f.sequences.zip f.scores) c.caches

variable {f values}

/-- A valid cache has the score that is computed anew. -/
theorem IsCacheOf.score_eq_recompute {call : ScoreCall ℕ} {c : FeatureCache}
    (h : f.IsCacheOf values call c) : c.score = f.recompute values call := by
  have hscores : c.caches.map CacheElement.score = (f.sequences.zip f.scores).map fun p =>
      keyScore p.2 (p.1.elements.map (valuesIn values call)) := by
    have hforall := h.upToDate
    generalize f.sequences.zip f.scores = parts at hforall
    generalize c.caches = caches at hforall
    induction hforall with
    | nil => rfl
    | cons hscore _ ih => rw [List.map_cons, List.map_cons, hscore, ih]
  rw [h.score_eq, hscores]
  rfl

/-- A new cache holds no scores. -/
theorem isCache_initializeSentence (f : FeatureSequences) (values : FeatureValues ℕ)
    (hlength : f.scores.length = f.sequences.length) :
    f.IsCache values (f.initializeSentence values) := by
  refine ⟨rfl, ?_, ?_⟩
  · rw [List.forall₂_iff_get]
    refine ⟨by simp [initializeSentence, hlength], fun k _ _ => ?_⟩
    simp [initializeSentence, CacheElement.Holds]
  · simp [initializeSentence]

/-- Windows that start with the same tags give the elements of a sequence the same values,
unless it reaches farther back. -/
theorem valuesIn_eq {windowSize : ℕ} {s : FeatureSequence} (hs : s.Ranged windowSize)
    {call call' : ScoreCall ℕ} (hindex : call'.formIndex = call.formIndex) {same : ℕ}
    (hsame : same ≤ windowSize)
    (hwindow : ∀ k < same, call'.tagsWindow[k]? = call.tagsWindow[k]?)
    (hrange : s.dependantRange ≤ same) :
    s.elements.map (valuesIn values call') = s.elements.map (valuesIn values call) := by
  refine List.map_congr_left fun e he => ?_
  unfold valuesIn elementValue
  cases htype : e.type with
  | perForm => simp only [hindex]
  | perTag =>
    have hle := hs.perTag e he htype
    have hpos := hs.pos
    have htag := hwindow (-e.sequenceIndex).toNat (by omega)
    simp only [hindex, List.getD_eq_getElem?_getD, htag]
  | dynamic =>
    have := hs.dynamic e he htype
    omega

/-- Before a call the scores of the sequences that the call leaves alone are those of the
call. -/
def Ready (f : FeatureSequences) (values : FeatureValues ℕ) (c : FeatureCache)
    (call : ScoreCall ℕ) : Prop :=
  List.Forall₂ (fun p cache => p.1.dependantRange ≤ call.tagsUnchanged →
    cache.score = keyScore p.2 (p.1.elements.map (valuesIn values call)))
    (f.sequences.zip f.scores) c.caches

/-- A call on a ready cache gives the sum of all weights. -/
theorem IsCache.score
    (hsorted : f.sequences.Pairwise fun a b => b.dependantRange ≤ a.dependantRange)
    {c : FeatureCache} (h : f.IsCache values c) {call : ScoreCall ℕ}
    (hready : f.Ready values c call) :
    f.IsCacheOf values call (f.score c call).1 ∧
      (f.score c call).2 = f.recompute values call := by
  have hsorted' : (f.sequences.zip f.scores).Pairwise fun a b =>
      b.1.dependantRange ≤ a.1.dependantRange := by
    rw [List.pairwise_iff_getElem] at hsorted ⊢
    intro i j hi hj hij
    rw [List.length_zip] at hi hj
    simp only [List.getElem_zip]
    exact hsorted i j (by omega) (by omega) hij
  have hparts : List.Forall₂ (fun p cache => cache.Holds p.2 ∧
      (p.1.dependantRange ≤ call.tagsUnchanged →
        cache.score = keyScore p.2 (p.1.elements.map (valuesIn values call))))
      (f.sequences.zip f.scores) c.caches := by
    have hholds := h.holds
    rw [Ready, List.forall₂_iff_get] at hready
    rw [List.forall₂_iff_get] at hholds ⊢
    exact ⟨hholds.1, fun k hk hk' => ⟨hholds.2 k hk hk', hready.2 k hk hk'⟩⟩
  obtain ⟨hcaches, hresult⟩ := scoreLoop_upToDate hsorted' hparts c.score
  have heq : f.score c call =
      ({ values := values
         caches := (scoreLoop (valuesIn values call) call.tagsUnchanged
           (f.sequences.zip f.scores) c.caches c.score).1
         score := (scoreLoop (valuesIn values call) call.tagsUnchanged
           (f.sequences.zip f.scores) c.caches c.score).2 },
        (scoreLoop (valuesIn values call) call.tagsUnchanged
          (f.sequences.zip f.scores) c.caches c.score).2) := by
    rw [FeatureSequences.score, h.values_eq]
    rfl
  have hof : f.IsCacheOf values call (f.score c call).1 := by
    rw [heq]
    refine ⟨⟨rfl, hcaches.imp fun _ _ h => h.1, ?_⟩, hcaches.imp fun _ _ h => h.2⟩
    have hbefore := h.score_eq
    dsimp only at hresult ⊢
    omega
  refine ⟨hof, ?_⟩
  rw [← hof.score_eq_recompute, heq]

end FeatureSequences

/-! ### The calls of the decoder -/

/-- The loop that fills the window counts only tags that stay the same. -/
theorem fillWindow_same (nodes : List Viterbi.Node) (count : ℕ) {p : ℤ} {n : ℕ}
    {window old : List ℤ} {sameTags : ℕ} (hle : sameTags ≤ n)
    (hsame : ∀ k < sameTags, window[k]? = old[k]?) (hrest : ∀ k, n ≤ k → window[k]? = old[k]?) :
    let r := Viterbi.fillWindow nodes count p n window sameTags
    r.2 ≤ n + count ∧ r.1.length = window.length ∧ (∀ k < n, r.1[k]? = window[k]?) ∧
      ∀ k < r.2, r.1[k]? = old[k]? := by
  induction count generalizing p n window sameTags with
  | zero => exact ⟨hle, rfl, fun _ _ => rfl, hsame⟩
  | succ count ih =>
    have hstop : sameTags ≤ n + (count + 1) ∧ window.length = window.length ∧
        (∀ k < n, window[k]? = window[k]?) ∧ ∀ k < sameTags, window[k]? = old[k]? :=
      ⟨by omega, rfl, fun _ _ => rfl, hsame⟩
    rw [Viterbi.fillWindow]
    split
    swap
    · exact hstop
    split
    swap
    · exact hstop
    rename_i node _
    have hset : ∀ k, k ≠ n → (window.set n node.tag)[k]? = window[k]? := fun k hk =>
      List.getElem?_set_ne (Ne.symm hk)
    have hafter : ∀ k, n + 1 ≤ k → (window.set n node.tag)[k]? = old[k]? := fun k hk => by
      rw [hset k (by omega), hrest k (by omega)]
    have hbefore : ∀ k < sameTags, (window.set n node.tag)[k]? = old[k]? := fun k hk => by
      rw [hset k (by omega), hsame k hk]
    obtain ⟨same', hsame', hle', hcount⟩ : ∃ same', same' = (if sameTags = n ∧
        window.getD n 0 = node.tag then sameTags + 1 else sameTags) ∧ same' ≤ n + 1 ∧
          ∀ k < same', (window.set n node.tag)[k]? = old[k]? := by
      refine ⟨_, rfl, by split <;> omega, fun k hk => ?_⟩
      split at hk
      · rename_i htag
        obtain ⟨rfl, htag⟩ := htag
        rcases Nat.lt_succ_iff_lt_or_eq.mp hk with hk | rfl
        · exact hbefore k hk
        · rw [← hrest k le_rfl, List.getElem?_set_self']
          rw [List.getD_eq_getElem?_getD] at htag
          cases hget : window[k]? with
          | none => rfl
          | some t =>
            rw [hget] at htag
            simpa using htag.symm
      · exact hbefore k hk
    rw [← hsame']
    obtain ⟨hbound, hlength, hkept, hold⟩ := ih hle' hcount hafter
    dsimp only
    refine ⟨by omega, hlength.trans (by simp), fun k hk => ?_, hold⟩
    rw [hkept k (by omega), hset k (by omega)]

/-- The window of a step: it starts with the new tag, and as many tags as are counted are
those of the window before. -/
theorem fillWindow_next (nodes : List Viterbi.Node) {windowSize : ℕ} (hwindow : 1 ≤ windowSize)
    {old : List ℤ} (hlength : old.length = windowSize) (tag prev : ℤ) :
    let r := Viterbi.fillWindow nodes (windowSize - 1) prev 1 (old.set 0 tag)
      (if old.getD 0 0 = tag then 1 else 0)
    r.2 ≤ windowSize ∧ r.1.length = windowSize ∧ r.1[0]? = some tag ∧
      ∀ k < r.2, r.1[k]? = old[k]? := by
  have hle : (if old.getD 0 0 = tag then 1 else 0) ≤ 1 := by split <;> omega
  have hsame : ∀ k < (if old.getD 0 0 = tag then 1 else 0), (old.set 0 tag)[k]? = old[k]? := by
    intro k hk
    split at hk
    · rename_i htag
      obtain rfl : k = 0 := by omega
      rw [List.getD_eq_getElem?_getD, List.getElem?_eq_getElem (by omega)] at htag
      simp only [Option.getD_some] at htag
      rw [← htag, List.set_getElem_self]
    · omega
  have hrest : ∀ k, 1 ≤ k → (old.set 0 tag)[k]? = old[k]? := fun k hk =>
    List.getElem?_set_ne (by omega)
  obtain ⟨hbound, hlength', hkept, hold⟩ :=
    @fillWindow_same nodes (windowSize - 1) prev 1 _ old _ hle hsame hrest
  dsimp only
  refine ⟨by omega, by rw [hlength', List.length_set, hlength], ?_, hold⟩
  have hhead : (old.set 0 tag)[0]? = some tag := List.getElem?_set_self (by omega)
  exact (hkept 0 one_pos).trans hhead

namespace Decoder

variable {d : Decoder} {values : FeatureValues ℕ}

/-- What holds between the steps of position `i`. When the decoder calls `score` there, the
window has the tags of the last call, whose scores are in the cache, or no tags yet. -/
structure Keeps (d : Decoder) (values : FeatureValues ℕ) (i : ℕ) (single : Bool) (state : State) :
    Prop where
  cache : d.features.IsCache values state.cache
  length : state.window.length = d.windowSize
  last : single = false → (∀ tag ∈ state.window[0]?, tag < 0) ∨
    ∃ call, call.formIndex = i ∧ call.tagsWindow = state.window ∧
      d.features.IsCacheOf values call state.cache
  calls : ∀ call ∈ state.calls, call.2 = d.features.recompute values call.1

section Visit

variable (hranged : ∀ s ∈ d.features.sequences, s.Ranged d.windowSize)
  (hsorted : d.features.sequences.Pairwise fun a b => b.dependantRange ≤ a.dependantRange)
  (hwindow : 1 ≤ d.windowSize)

include hranged

/-- The scores that a call leaves alone are those of the call before at the position. -/
theorem Keeps.ready {i : ℕ} {state : State} (h : d.Keeps values i false state)
    {call : ScoreCall ℕ} (hindex : call.formIndex = i) {same : ℕ} (hsize : same ≤ d.windowSize)
    (hcount : call.tagsUnchanged = same) {tag : ℕ} (hfirst : call.tagsWindow[0]? = some (tag : ℤ))
    (hsame : ∀ k < same, call.tagsWindow[k]? = state.window[k]?) :
    d.features.Ready values state.cache call := by
  have hholds := h.cache.holds
  rcases h.last rfl with hnone | ⟨last, hlast, hlastwindow, hof⟩
  · -- no tags are the same yet
    have hzero : same = 0 := by
      by_contra hne
      have htag := hnone tag (by rw [← hsame 0 (by omega), hfirst]; rfl)
      omega
    rw [FeatureSequences.Ready]
    rw [List.forall₂_iff_get] at hholds ⊢
    refine ⟨hholds.1, fun k hk hk' hrange => ?_⟩
    have hpos := (hranged _ (List.of_mem_zip (List.get_mem _ ⟨k, hk⟩)).1).pos
    omega
  · have hdate := hof.upToDate
    rw [FeatureSequences.Ready]
    rw [List.forall₂_iff_get] at hdate ⊢
    refine ⟨hdate.1, fun k hk hk' hrange => ?_⟩
    have hmem := (List.of_mem_zip (List.get_mem _ ⟨k, hk⟩)).1
    rw [hdate.2 k hk hk', FeatureSequences.valuesIn_eq (hranged _ hmem) (hindex.trans hlast.symm)
      hsize (by rwa [hlastwindow]) (hcount ▸ hrange)]

include hsorted hwindow

/-- One step keeps the invariant. -/
theorem Keeps.visit {i : ℕ} {single : Bool} {state : State} (h : d.Keeps values i single state)
    (tag : ℕ) (prev : ℤ) : d.Keeps values i single (d.visit i single tag state prev) := by
  obtain ⟨hsize, hlength, hfirst, hsame⟩ := fillWindow_next
    (state.nodes.map Viterbi.DynamicNode.toNode) hwindow h.length tag prev
  rcases hfill : Viterbi.fillWindow (state.nodes.map Viterbi.DynamicNode.toNode)
    (d.windowSize - 1) prev 1 (state.window.set 0 tag)
    (if state.window.getD 0 0 = tag then 1 else 0) with ⟨window, same⟩
  rw [hfill] at hsize hlength hfirst hsame
  simp only [Decoder.visit, hfill]
  cases single with
  | true => exact ⟨h.cache, hlength, fun hs => absurd hs (by decide), h.calls⟩
  | false =>
    have hready : d.features.Ready values state.cache ⟨i, window, same, d.dynamicFeatures i tag
        (if prev ≥ 0 then state.nodes[prev.toNat]?.map Viterbi.DynamicNode.dynamic else none)⟩ :=
      h.ready hranged rfl hsize rfl hfirst hsame
    obtain ⟨hof, hresult⟩ := h.cache.score hsorted hready
    exact ⟨hof.toIsCache, hlength, fun _ => .inr ⟨_, rfl, rfl, hof⟩,
      List.forall_mem_cons.mpr ⟨hresult, h.calls⟩⟩

/-- All steps of a position keep the invariant. -/
theorem Keeps.steps {i : ℕ} {single : Bool} {state : State} (h : d.Keeps values i single state)
    (tags : List ℕ) (prevs : List ℤ) : d.Keeps values i single
      (tags.foldl (fun state (tag : ℕ) => prevs.foldl (d.visit i single tag) state) state) := by
  induction tags generalizing state with
  | nil => exact h
  | cons tag tags ih =>
    rw [List.foldl_cons]
    apply ih
    clear ih
    induction prevs generalizing state with
    | nil => exact h
    | cons prev prevs ih =>
      rw [List.foldl_cons]
      exact ih (h.visit hranged hsorted hwindow tag prev)

/-- The calls of all positions give sums of all weights. -/
theorem layers_calls (sizes : List ℕ) (i : ℕ) {state : State} (nodesPrev : ℤ)
    (hcache : d.features.IsCache values state.cache)
    (hcalls : ∀ call ∈ state.calls, call.2 = d.features.recompute values call.1) :
    ∀ call ∈ (d.layers sizes i state nodesPrev).1.calls,
      call.2 = d.features.recompute values call.1 := by
  induction sizes generalizing i state nodesPrev with
  | nil => exact hcalls
  | cons size sizes ih =>
    have hstart : d.Keeps values i (nodesPrev + 1 = (state.nodes.length : ℤ) && size = 1)
        { state with window := List.replicate d.windowSize (-1) } := by
      refine ⟨hcache, List.length_replicate, fun _ => .inl fun tag htag => ?_, hcalls⟩
      have := List.eq_of_mem_replicate (List.mem_of_getElem? htag)
      omega
    have hend := hstart.steps hranged hsorted hwindow (List.range size)
      ((List.range (state.nodes.length - nodesPrev).toNat).map fun k : ℕ => nodesPrev + k)
    rw [layers]
    exact ih (i + 1) _ hend.cache hend.calls

end Visit

/-- With parsed templates, every call of `score` that the decoder makes in a sentence gives
the sum of the weights of all feature sequences. -/
theorem tag_calls {α : Type} {descriptions : List NamedFeatureDescription} {text : Bytes}
    (d : Decoder) (hparse : parse descriptions d.windowSize text = .ok d.features.sequences)
    (hscores : d.features.scores.length = d.features.sequences.length)
    (hwindow : 1 ≤ d.windowSize) (values : FeatureValues ℕ) (reserved : ℕ)
    (analyses : List (List α)) (tags : List ℤ) :
    ∀ call ∈ (d.tag values reserved analyses tags).2, call.2 = d.features.recompute values call.1 := by
  obtain ⟨hranged, hsorted⟩ := ranged_of_parse hparse
  simp only [Decoder.tag]
  split
  · simp
  split
  · simp
  · exact layers_calls hranged hsorted hwindow _ 0 (-1)
      (FeatureSequences.isCache_initializeSentence d.features values hscores) (by simp)

/-- A decoder with the features of a tag and the tag before, and of the form. -/
def sample : Decoder where
  features :=
    { sequences :=
        [⟨[⟨.perTag, 0, 0⟩, ⟨.perTag, 0, -1⟩], 2⟩, ⟨[⟨.perForm, 0, 0⟩, ⟨.perTag, 0, 0⟩], 1⟩]
      scores := [fun key => if key = [2, 3] then 5 else 1, fun key => key.length] }
  dynamicFeatures _ _ _ := []
  decodingOrder := 2
  windowSize := 2

/-- The values of two words with two tags each. -/
def sampleValues : FeatureValues ℕ := ⟨[[2], [4]], [[[2], [3]], [[2], [3]]]⟩

/-- Two words with two tags each. -/
theorem tag_calls_sample :
    (sample.tag sampleValues 0 [[(), ()], [(), ()]] [0, 0]).2.length = 6 ∧
      ∀ call ∈ (sample.tag sampleValues 0 [[(), ()], [(), ()]] [0, 0]).2,
        call.2 = sample.features.recompute sampleValues call.1 := by
  let descriptions : List NamedFeatureDescription :=
    [⟨⟨.perForm, 0, 0⟩, bytes "Form", .anyOffset⟩, ⟨⟨.perTag, 0, 1⟩, bytes "Tag", .anyOffset⟩]
  have hlines : (textLines (bytes "Form 0,Tag 0\nTag 0,Tag -1\n")).mapM
      (parseSequence descriptions 2) = .ok [⟨[⟨.perForm, 0, 0⟩, ⟨.perTag, 0, 0⟩], 1⟩,
        ⟨[⟨.perTag, 0, 0⟩, ⟨.perTag, 0, -1⟩], 2⟩] := by
    decide
  have hparse : parse descriptions 2 (bytes "Form 0,Tag 0\nTag 0,Tag -1\n") =
      .ok sample.features.sequences := by
    have hnames : firstRepeated descriptions [] = none := by decide
    simp [parse, hnames, hlines, Except.map, sample, List.mergeSort]
  exact ⟨by decide, tag_calls sample hparse rfl (by decide) _ _ _ _⟩

end Decoder

end UDPipe.Morphodita
