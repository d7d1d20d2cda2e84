import UDPipe.Morphodita.Decoding
import UDPipe.Morphodita.DecoderScores
import UDPipe.Morphodita.GenericAnalysis

/-!
# The tagger

`perceptron_tagger` of `tagger/perceptron_tagger.h` analyzes all forms and lets the decoder choose
one analysis for each of them. Whatever the features are, every node of the decoder has a tag of its
position and a predecessor in the position before, so the tags that are read off the nodes number
analyses of the forms.
-/

namespace UDPipe.Morphodita

open Viterbi

/-! ### The decoder chooses analyses -/

namespace Decoder

/-- A node of the position after `done`, with its sequence. -/
def Continues (done : List Node) (ν : Node) (h : List ℤ) : Prop :=
  ∃ g, h = ν.tag :: g ∧ Chain done ν.prev g

/-- What a step does when the predecessor has a sequence: a new node is added, or if enough tags
are unchanged, the last one stays or makes room for the new one. -/
theorem visit_nodes (d : Decoder) (i : ℕ) (single : Bool) {tag prev : ℤ} {h : List ℤ}
    {state : State} (hchain : Chain (state.nodes.map DynamicNode.toNode) prev h)
    (hwindow : state.window.length = d.windowSize) (hpos : 1 ≤ d.windowSize) :
    (d.visit i single tag state prev).window = (tag :: h).take d.windowSize ++
        state.window.drop ((tag :: h).take d.windowSize).length ∧
      ∃ node : DynamicNode, node.tag = tag ∧ node.prev = prev ∧
        if d.decodingOrder - 1 ≤ agreement ((tag :: h).take d.windowSize) state.window then
          (d.visit i single tag state prev).nodes = state.nodes ∨
            (d.visit i single tag state prev).nodes = state.nodes.dropLast ++ [node]
        else (d.visit i single tag state prev).nodes = state.nodes ++ [node] := by
  simp only [Decoder.visit, Viterbi.fillWindow_cons hchain hwindow hpos, ge_iff_le]
  refine ⟨trivial, ?_⟩
  generalize d.dynamicFeatures i tag
    (if prev ≥ 0 then state.nodes[prev.toNat]?.map DynamicNode.dynamic else none) = dynamic
  by_cases hagree : d.decodingOrder - 1 ≤ agreement ((tag :: h).take d.windowSize) state.window
  · cases single with
    | true =>
      simp only [if_pos hagree, if_true]
      split
      · exact ⟨⟨⟨tag, prev, 0⟩, []⟩, rfl, rfl, .inl rfl⟩
      · exact ⟨_, rfl, rfl, .inr rfl⟩
    | false =>
      simp only [if_pos hagree, Bool.false_eq_true, if_false]
      split
      · exact ⟨⟨⟨tag, prev, 0⟩, []⟩, rfl, rfl, .inl rfl⟩
      · exact ⟨_, rfl, rfl, .inr rfl⟩
  · simp only [if_neg hagree]
    exact ⟨_, rfl, rfl, rfl⟩

/-- The loop over a position with the nodes of a state. -/
abbrev Extends (d : Decoder) (done : List Node) (seen : List (List ℤ)) (state : State)
    (kept : List (List ℤ)) : Prop :=
  Enumerates d.decodingOrder d.windowSize (Continues done) done seen
    (state.nodes.map DynamicNode.toNode) state.window kept

/-- What a decoder needs so that sequences with one node can be told from the window. -/
structure Orders (d : Decoder) : Prop where
  order : 2 ≤ d.decodingOrder
  window : d.decodingOrder - 1 ≤ d.windowSize

variable {d : Decoder}

/-- A step keeps a sequence for each node, and no two with the same key. -/
theorem Extends.visit (hd : d.Orders) {done : List Node} {seen kept : List (List ℤ)} {state : State}
    (hp : d.Extends done seen state kept) {i : ℕ} {tag prev : ℤ} {h : List ℤ} (htag : 0 ≤ tag)
    (hchain : Chain done prev h) (hi : h.length = i) (hlength : ∀ g ∈ seen, g.length = i + 1)
    (hsorted : ∀ g ∈ seen, g.take d.decodingOrder < (tag :: h).take d.decodingOrder)
    (single : Bool) :
    ∃ kept', d.Extends done (seen ++ [tag :: h]) (d.visit i single tag state prev) kept' := by
  obtain ⟨horder, hwindow⟩ := hd
  have hlength' : ∀ g ∈ seen, g.length = (tag :: h).length := fun g hg => by
    simp [hlength g hg, hi]
  obtain ⟨hsize, hpad⟩ := hp.window_eq hlength (h := tag :: h) (by simp [hi])
  obtain ⟨new, hnodes, -⟩ := hp.nodes_eq
  have hchain' : Chain (state.nodes.map DynamicNode.toNode) prev h := hnodes ▸ hchain.append new
  obtain ⟨hwindow', node, htag', hprev', hvisit⟩ :=
    @visit_nodes d i single tag prev h state hchain' hsize (by omega)
  have hcontinues : Continues done node.toNode (tag :: h) :=
    ⟨h, by rw [htag'], by rw [hprev']; exact hchain⟩
  rw [hpad] at hwindow'
  unfold Extends
  rw [hwindow']
  split at hvisit
  · rename_i hagree
    obtain ⟨before, k, hkept, hkey⟩ := hp.exists_last horder hwindow htag hlength' hsorted hagree
    rcases hvisit with heq | heq
    · rw [heq]
      exact ⟨kept, hp.keep hkept hkey⟩
    · rw [heq, List.map_append, List.map_dropLast]
      exact ⟨before ++ [tag :: h], hp.replace hkept hkey hcontinues⟩
  · rename_i hagree
    rw [hvisit, List.map_append]
    exact ⟨kept ++ [tag :: h], hp.add hwindow hlength' hsorted hagree hcontinues⟩

/-- All steps of a position. -/
theorem Extends.steps (hd : d.Orders) {done : List Node} {i : ℕ} (single : Bool)
    (steps : List (ℤ × ℤ × List ℤ))
    (hsteps : ∀ c ∈ steps, 0 ≤ c.1 ∧ Chain done c.2.1 c.2.2 ∧ c.2.2.length = i)
    {state : State} {seen kept : List (List ℤ)} (hp : d.Extends done seen state kept)
    (hlength : ∀ g ∈ seen, g.length = i + 1)
    (hsorted : (seen ++ steps.map fun c => c.1 :: c.2.2).Pairwise fun g h =>
      g.take d.decodingOrder < h.take d.decodingOrder) :
    ∃ kept', d.Extends done (seen ++ steps.map fun c => c.1 :: c.2.2)
      (steps.foldl (fun state c => d.visit i single c.1 state c.2.1) state) kept' := by
  induction steps generalizing state seen kept with
  | nil => exact ⟨kept, by simpa using hp⟩
  | cons c steps ih =>
    obtain ⟨⟨htag, hchain, hi⟩, hsteps⟩ := List.forall_mem_cons.mp hsteps
    have hlt : ∀ g ∈ seen, g.take d.decodingOrder < (c.1 :: c.2.2).take d.decodingOrder :=
      fun g hg => (List.pairwise_append.mp hsorted).2.2 g hg _ (by simp)
    obtain ⟨kept', hp'⟩ := hp.visit hd htag hchain hi hlength hlt single
    rw [List.map_cons, List.append_cons] at hsorted ⊢
    apply ih hsteps hp' _ hsorted
    intro g hg
    rcases List.mem_append.mp hg with hg | hg
    · exact hlength g hg
    · obtain rfl := List.mem_singleton.mp hg
      simp [hi]

/-- The nodes of the last position have sequences of tags that fit the sizes so far, with
different keys. -/
structure Reached (d : Decoder) (sizes : List ℕ) (state : State) (nodesPrev : ℤ)
    (kept : List (List ℤ)) : Prop where
  nodesPrev_lt : nodesPrev < state.nodes.length
  chains : List.Forall₂ (Chain (state.nodes.map DynamicNode.toNode))
    (previous (state.nodes.map DynamicNode.toNode) nodesPrev) kept
  fits : ∀ h ∈ kept, Fits sizes h
  increase : (kept.map (List.take (d.decodingOrder - 1))).Pairwise (· < ·)

/-- Before the first position there is the empty sequence. -/
theorem reached_start (d : Decoder) (cache : FeatureCache) :
    d.Reached [] ⟨[], [], cache, []⟩ (-1) [[]] where
  nodesPrev_lt := by simp
  chains := .cons (.start (by simp)) .nil
  fits h hh := by
    obtain rfl := List.mem_singleton.mp hh
    exact .nil
  increase := List.pairwise_singleton _ _

/-- The state after a position of the given size. -/
def position (d : Decoder) (size i : ℕ) (state : State) (nodesPrev : ℤ) : State :=
  (List.range size).foldl
    (fun state' (tag : ℕ) => (previous (state.nodes.map DynamicNode.toNode) nodesPrev).foldl
      (d.visit i (nodesPrev + 1 = (state.nodes.length : ℤ) && size = 1) tag) state')
    { state with window := List.replicate d.windowSize (-1) }

/-- The layers from a position on. -/
theorem layers_cons (d : Decoder) (size : ℕ) (rest : List ℕ) (i : ℕ) (state : State)
    (nodesPrev : ℤ) : d.layers (size :: rest) i state nodesPrev =
      d.layers rest (i + 1) (d.position size i state nodesPrev) state.nodes.length := by
  rw [layers, position, previous, List.length_map]

/-- A position extends the sequences by its tags, and adds a node for each one that is kept. -/
theorem Reached.next (hd : d.Orders) {sizes : List ℕ} {state : State} {nodesPrev : ℤ}
    {kept : List (List ℤ)} (h : d.Reached sizes state nodesPrev kept) {size : ℕ}
    (hsize : size ≠ 0) :
    ∃ kept', d.Reached (size :: sizes) (d.position size sizes.length state nodesPrev)
        state.nodes.length kept' ∧
      (d.position size sizes.length state nodesPrev).nodes.length =
        state.nodes.length + kept'.length := by
  generalize hplain : state.nodes.map DynamicNode.toNode = plain
  have hplainLength : plain.length = state.nodes.length := hplain ▸ List.length_map _
  have hchains := h.chains
  rw [hplain] at hchains
  obtain ⟨hlen, hchain⟩ := List.forall₂_iff_zip.mp hchains
  obtain ⟨single, hsingle⟩ : ∃ single,
      single = (decide (nodesPrev + 1 = (state.nodes.length : ℤ)) && decide (size = 1)) := ⟨_, rfl⟩
  have hposition : d.position size sizes.length state nodesPrev =
      (stepsOf size (previous plain nodesPrev) kept).foldl
        (fun state c => d.visit sizes.length single c.1 state c.2.1)
        { state with window := List.replicate d.windowSize (-1) } := by
    rw [position, hplain, ← hsingle]
    exact foldl_stepsOf (d.visit sizes.length single) size hlen _
  have hfits : ∀ g ∈ kept, g.length = sizes.length := fun g hg => (h.fits g hg).length_eq
  have hsteps : ∀ c ∈ stepsOf size (previous plain nodesPrev) kept,
      0 ≤ c.1 ∧ Chain plain c.2.1 c.2.2 ∧ c.2.2.length = sizes.length := by
    intro c hc
    obtain ⟨tag, -, hc⟩ := List.mem_flatMap.mp hc
    obtain ⟨⟨p, g⟩, he, rfl⟩ := List.mem_map.mp hc
    exact ⟨by simp, hchain he, hfits g (List.of_mem_zip he).2⟩
  have hstart : d.Extends plain [] { state with window := List.replicate d.windowSize (-1) } [] := by
    unfold Extends
    rw [hplain]
    exact .start _ _ _ _
  have hsequences := sequences_stepsOf size hlen
  obtain ⟨kept', hp⟩ := hstart.steps hd single _ hsteps (by simp)
    (sorted_stepsOf hd.order size hlen h.increase)
  rw [← hposition, List.nil_append, hsequences] at hp
  obtain ⟨hcount, ⟨new, hnodes⟩, hentries⟩ := hp.entries
  rw [List.length_map, hplainLength] at hcount
  have hfit : ∀ g ∈ kept', Fits (size :: sizes) g := by
    intro g hg
    obtain ⟨a, ha, f, hf, rfl⟩ := mem_sequences.mp (hp.subset g hg)
    exact .cons ha (h.fits f hf)
  have hkept : kept' ≠ [] := by
    rintro rfl
    obtain ⟨g, hg⟩ : ∃ g, g ∈ kept := by
      apply List.exists_mem_of_length_pos
      have hpos := h.nodesPrev_lt
      rw [← hlen, previous, List.length_map, List.length_range]
      omega
    have hseen : ((0 : ℕ) : ℤ) :: g ∈ (List.range size).flatMap fun tag : ℕ =>
        kept.map fun g => (tag : ℤ) :: g :=
      mem_sequences.mpr ⟨0, ⟨le_rfl, by omega⟩, g, hg, rfl⟩
    obtain ⟨l, hl⟩ := List.getLast?_isSome.mpr (List.ne_nil_of_mem hseen) |> Option.isSome_iff_exists.mp
    obtain ⟨-, k, hk, -⟩ := hp.last l hl
    cases hk
  have hpos := List.length_pos_of_ne_nil hkept
  refine ⟨kept', ⟨by omega, ?_, hfit, hp.increase⟩, hcount⟩
  rw [← hplainLength]
  refine hentries.imp ?_
  rintro p _ ⟨hpos, ν, hν, g, rfl, hprev⟩
  exact .node hpos hν (hnodes ▸ hprev.append new)

/-- The positions one after another need no more nodes than there are keys. -/
theorem Reached.layers (hd : d.Orders) {rest : List ℕ} (hrest : ∀ m ∈ rest, m ≠ 0)
    {sizes : List ℕ} {state : State} {nodesPrev : ℤ} {kept : List (List ℤ)}
    (h : d.Reached sizes state nodesPrev kept) :
    ∃ kept', d.Reached (rest.reverse ++ sizes) (d.layers rest sizes.length state nodesPrev).1
        (d.layers rest sizes.length state nodesPrev).2 kept' ∧
      (d.layers rest sizes.length state nodesPrev).1.nodes.length ≤
        state.nodes.length + nodesAfter d.decodingOrder sizes rest := by
  induction rest generalizing sizes state nodesPrev kept with
  | nil => exact ⟨kept, h, Nat.le_add_right _ _⟩
  | cons size rest ih =>
    obtain ⟨hsize, hrest⟩ := List.forall_mem_cons.mp hrest
    obtain ⟨kept', hnext, hcount⟩ := h.next hd hsize
    have hkept := length_le_of_increase hnext.fits hnext.increase
    obtain ⟨kept'', hend, hle⟩ := ih hrest hnext
    rw [layers_cons, List.reverse_cons, List.append_assoc, nodesAfter]
    rw [hcount] at hle
    exact ⟨kept'', hend, hle.trans (by omega)⟩

/-- The tags number analyses of the words, and the tags after the words stay as they are, if an
`int` can count the nodes. -/
theorem tag_isChoice (hd : d.Orders) {α : Type} (values : FeatureValues ℕ) (reserved : ℕ)
    {analyses : List (List α)} (hanalyses : ∀ a ∈ analyses, a ≠ [])
    (hnodes : nodesNeeded d.decodingOrder (analyses.map List.length) < 2 ^ 31)
    {tags : List ℤ} (htags : analyses.length ≤ tags.length) :
    ∃ chosen, (d.tag values reserved analyses tags).1 =
      some (chosen ++ tags.drop analyses.length) ∧ IsChoice analyses chosen := by
  have hsizes : ∀ m ∈ analyses.map List.length, m ≠ 0 := by
    intro m hm
    obtain ⟨a, ha, rfl⟩ := List.mem_map.mp hm
    exact fun h => hanalyses a ha (List.length_eq_zero_iff.mp h)
  by_cases hnil : analyses = []
  · subst hnil
    exact ⟨[], rfl, .nil⟩
  have hcount := @countNodes_eq d.decodingOrder hd.order _ hsizes [] (by simp) 0
    (by simp only [nodesNeeded, unsignedValues] at hnodes ⊢; omega)
  obtain ⟨kept, hreached, hused⟩ :=
    (d.reached_start (d.features.initializeSentence values)).layers hd hsizes
  simp only [List.append_nil, List.length_nil, List.reverse_nil, List.nil_append, List.take_nil,
    List.prod_nil, Nat.zero_add] at hreached hcount hused
  obtain ⟨state, nodesPrev, hlayers⟩ : ∃ state nodesPrev, d.layers (analyses.map List.length) 0
      ⟨[], [], d.features.initializeSentence values, []⟩ (-1) = (state, nodesPrev) := ⟨_, _, rfl⟩
  rw [hlayers] at hreached hused
  have hlt : nodesPrev < ((state.nodes.map DynamicNode.toNode).length : ℤ) := by
    rw [List.length_map]
    exact hreached.nodesPrev_lt
  obtain ⟨hlen, hchains⟩ := List.forall₂_iff_get.mp hreached.chains
  obtain ⟨k, hk, hbest⟩ := List.getElem_of_mem (Viterbi.bestNode_spec hlt).1
  have hchain := hchains k hk (hlen ▸ hk)
  rw [List.get_eq_getElem, hbest] at hchain
  have hfits := hreached.fits _ (List.get_mem kept ⟨k, hlen ▸ hk⟩)
  generalize kept.get ⟨k, hlen ▸ hk⟩ = h at hchain hfits
  have hlength : h.length = analyses.length := by simpa using hfits.length_eq
  refine ⟨h.reverse, ?_, (Viterbi.isChoice_iff analyses h).mpr hfits⟩
  have hroom : HasRoom reserved (nodesAfter d.decodingOrder [] (analyses.map List.length))
      (state.nodes.map DynamicNode.toNode).length := by
    rw [List.length_map]
    exact ⟨hused.trans (le_max_right _ _), hused.trans_lt hnodes⟩
  rw [Decoder.tag, if_neg (by simpa using hnil)]
  simp only [hcount, hlayers, if_pos hroom]
  exact congrArg some (Viterbi.readTags_eq hchain hlength htags)

end Decoder

/-! ### The tagger -/

/-- The class `morpho`: the analyses of a form, for whether the guesser may be used, and the length
of the form without its data. -/
structure Morpho where
  analyze : Bytes → Bool → GenericMorpho.AnalyzedBy × List TaggedLemma
  rawFormLen : Bytes → ℕ

/-- A generic morphology. -/
def GenericMorpho.toMorpho (classes : SymbolClasses) (tables : CasingTables)
    (self : GenericMorpho) : Morpho where
  analyze form guesser :=
    let (analyzedBy, lemmas) := self.analyze classes tables form guesser
    (analyzedBy, lemmas.map fun l => ⟨l.1, l.2⟩)
  rawFormLen := List.length

/-- The class `perceptron_tagger`. The decoder and the values of the features depend on the
sentence. -/
structure PerceptronTagger where
  dict : Option Morpho
  useGuesser : Bool
  decoder : List Bytes → List (List TaggedLemma) → Decoder
  values : List Bytes → List (List TaggedLemma) → FeatureValues ℕ

namespace PerceptronTagger

/-- The forms without what follows the raw forms. -/
def rawForms (dict : Morpho) (forms : List Bytes) : List Bytes :=
  forms.map fun form => form.take (dict.rawFormLen form)

/-- The analyses of the forms. -/
def analyses (tagger : PerceptronTagger) (dict : Morpho) (guesser : Option Bool)
    (forms : List Bytes) : List (List TaggedLemma) :=
  forms.map fun form => (dict.analyze form (guesser.getD tagger.useGuesser)).2

/-- The method `tag`, with the number of nodes and the tags that the cache has from other
sentences and with a mode for the guesser unless that of the tagger is used. There are no
tags when the decoder has none. -/
def tag (tagger : PerceptronTagger) (reserved : ℕ) (cached : List ℤ) (guesser : Option Bool)
    (forms : List Bytes) : Option (List TaggedLemma) :=
  match tagger.dict with
  | none => some []
  | some dict =>
    let rawForms := rawForms dict forms
    let analyses := tagger.analyses dict guesser forms
    let tags :=
      if cached.length < forms.length then
        cached ++ List.replicate (forms.length * 2 - cached.length) 0
      else cached
    let decoder := tagger.decoder rawForms analyses
    (decoder.tag (tagger.values rawForms analyses) reserved analyses tags).1.map fun tags =>
      (analyses.zip tags).map fun c => c.1.getD c.2.toNat ⟨[], []⟩

/-- The decoders have an order, and a window for it. -/
def Decodes (tagger : PerceptronTagger) : Prop :=
  ∀ forms analyses, (tagger.decoder forms analyses).Orders

/-- An `int` can count the nodes that the decoder needs for the forms. -/
def CountsNodes (tagger : PerceptronTagger) (guesser : Option Bool) (forms : List Bytes) : Prop :=
  ∀ dict ∈ tagger.dict,
    nodesNeeded (tagger.decoder (rawForms dict forms)
        (tagger.analyses dict guesser forms)).decodingOrder
      ((tagger.analyses dict guesser forms).map List.length) < 2 ^ 31

/-- Every form gets one of its analyses, whatever the features and the weights are and whatever the
cache has from other sentences. -/
theorem tag_mem_analyses {tagger : PerceptronTagger} (h : tagger.Decodes) {dict : Morpho}
    (hdict : tagger.dict = some dict) (hne : ∀ form guesser, (dict.analyze form guesser).2 ≠ [])
    (reserved : ℕ) (cached : List ℤ) (guesser : Option Bool) {forms : List Bytes}
    (hnodes : tagger.CountsNodes guesser forms) :
    ∃ tagged, tagger.tag reserved cached guesser forms = some tagged ∧
      List.Forall₂ (fun form tagged => tagged ∈
        (dict.analyze form (guesser.getD tagger.useGuesser)).2) forms tagged := by
  have hcount := hnodes dict hdict
  generalize hanalyses : tagger.analyses dict guesser forms = analyses at hcount
  have hlength : analyses.length = forms.length := hanalyses ▸ List.length_map _
  obtain ⟨tags, htags, heq⟩ : ∃ tags : List ℤ, analyses.length ≤ tags.length ∧
      tagger.tag reserved cached guesser forms =
        ((tagger.decoder (rawForms dict forms) analyses).tag
          (tagger.values (rawForms dict forms) analyses) reserved analyses tags).1.map fun tags =>
            (analyses.zip tags).map fun c => c.1.getD c.2.toNat ⟨[], []⟩ := by
    refine ⟨if cached.length < forms.length then
      cached ++ List.replicate (forms.length * 2 - cached.length) 0 else cached, ?_, ?_⟩
    · rw [hlength]
      split
      · rw [List.length_append, List.length_replicate]
        omega
      · omega
    · simp only [tag, hdict, hanalyses]
  have hsome : ∀ a ∈ analyses, a ≠ [] := by
    intro a ha
    rw [← hanalyses] at ha
    obtain ⟨form, -, rfl⟩ := List.mem_map.mp ha
    exact hne form _
  obtain ⟨chosen, hchosen, hchoice⟩ := Decoder.tag_isChoice (h (rawForms dict forms) analyses)
    (tagger.values (rawForms dict forms) analyses) reserved hsome hcount htags
  refine ⟨(analyses.zip chosen).map fun c => c.1.getD c.2.toNat ⟨[], []⟩, ?_, ?_⟩
  · rw [heq, hchosen, Option.map_some, ← List.append_nil analyses,
      List.zip_append hchoice.length_eq, List.zip_nil_left, List.append_nil, List.append_nil]
  rw [List.forall₂_map_right_iff]
  subst hanalyses
  clear hlength htags heq hchosen hsome hcount hnodes
  rw [PerceptronTagger.analyses] at hchoice ⊢
  generalize guesser.getD tagger.useGuesser = mode at hchoice ⊢
  induction forms generalizing chosen with
  | nil =>
    cases hchoice
    exact .nil
  | cons form forms ih =>
    obtain ⟨c, chosen, ⟨hnonneg, hlt⟩, hrest, rfl⟩ := List.forall₂_cons_left_iff.mp hchoice
    refine .cons ?_ (ih chosen hrest)
    have hindex : c.toNat < (dict.analyze form mode).2.length := (Int.toNat_lt hnonneg).mpr hlt
    rw [List.getD_eq_getElem?_getD, List.getElem?_eq_getElem hindex]
    exact List.getElem_mem hindex

end PerceptronTagger

/-- A generic morphology has an analysis of every form. -/
theorem GenericMorpho.analyze_ne_nil (classes : SymbolClasses) (tables : CasingTables)
    (self : GenericMorpho) (form : Bytes) (guesser : Bool) :
    (self.analyze classes tables form guesser).2 ≠ [] := by
  rw [analyze]
  split
  · exact List.cons_ne_nil _ _
  generalize generateCasingVariants tables form = both
  obtain ⟨formUclc, formLc⟩ := both
  dsimp only
  generalize self.dictionary.analyze genericLemmaAddinfo form ++
      (if formUclc ≠ [] then self.dictionary.analyze genericLemmaAddinfo formUclc else []) ++
      (if formLc ≠ [] then self.dictionary.analyze genericLemmaAddinfo formLc else []) = found
  by_cases hne : found = []
  · rw [if_neg (not_not.mpr hne)]
    cases specialForm classes form with
    | some special => exact List.cons_ne_nil _ _
    | none =>
      have hor : ∀ guessed : List (Bytes × Bytes),
          (if guessed ≠ [] then (AnalyzedBy.guesser, guessed)
            else (.nothing, [(form, self.tags.unknown)])).2 ≠ [] := by
        intro guessed
        split
        · next hguessed => exact hguessed
        · exact List.cons_ne_nil _ _
      exact hor _
  · rwa [if_pos hne]

open GenericMorpho

/-- Tables without uppercase letters. -/
def CasingTables.lower : CasingTables := ⟨fun _ => false, id⟩

/-- The tagger with the data of a morphology, and a decoder whose scores look at two tags. -/
def PerceptronTagger.sample (classes : SymbolClasses) (data : Bytes) : PerceptronTagger where
  dict := (GenericMorpho.load data).map (toMorpho classes CasingTables.lower)
  useGuesser := true
  decoder _ _ := Decoder.sample
  values _ _ := Decoder.sampleValues

/-- Each of the two forms has one analysis. -/
theorem length_analyze_twoForms {morpho : GenericMorpho} {tags : GenericTags}
    {description : Option GuesserDescription}
    (h : morpho.LoadedFrom twoForms twoFormsText tags description) (classes : SymbolClasses)
    (guesser : Bool) {form : Bytes} (hform : form = [97] ∨ form = [97, 98]) :
    (morpho.analyze classes CasingTables.lower form guesser).2.length = 1 := by
  have hlines : ((variants CasingTables.lower form).flatMap
      (linesOf twoForms twoFormsText)).length = 1 := by
    rcases hform with rfl | rfl <;> decide
  have hsome : (variants CasingTables.lower form).flatMap (linesOf twoForms twoFormsText) ≠ [] :=
    List.ne_nil_of_length_pos (by omega)
  have hanalyzed := h.analyzedAs classes CasingTables.lower form guesser
  generalize morpho.analyze classes CasingTables.lower form guesser = result at hanalyzed
  cases hanalyzed with
  | dictionary _ hfound _ => exact hfound.length_eq.trans hlines
  | special _ hnone _ => exact absurd hnone hsome
  | guessed _ hnone _ _ _ _ => exact absurd hnone hsome
  | unknown hunknown =>
    rcases hunknown with hnil | ⟨hnone, -⟩
    · rcases hform with rfl | rfl <;> cases hnil
    · exact absurd hnone hsome

end UDPipe.Morphodita
