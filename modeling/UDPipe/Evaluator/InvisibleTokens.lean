import UDPipe.Evaluator.AlignmentRuns
import Mathlib.Data.List.Find
import Mathlib.Data.List.Pairwise

/-!
# Multiword tokens without characters

A multiword token whose form has only spaces covers no characters, so it is no range that
takes words. The alignment goes on past it if a multiword token of the other side goes around
it, or if no word of the other side is left that it would have to wait for. Otherwise the
words on both sides of its place wait for one another, and the loop runs forever.
-/

namespace UDPipe.Evaluator

/-! ### The order of words -/

/-- A word comes after another one: it begins where the other one has ended, or both belong to
one multiword token. -/
def Follows (a b : WordData) : Prop :=
  a.stop ≤ b.start ∨
    a.isMultiword = true ∧ b.isMultiword = true ∧ a.start = b.start ∧ a.stop = b.stop

namespace EvaluationData

variable {tables : Unicode} {data : EvaluationData}

/-- The words are in the order of their characters. -/
def Ordered (data : EvaluationData) : Prop := data.words.Pairwise Follows

/-- A surface token that is a word comes after all words. -/
theorem Ordered.addWord (hnumbered : data.Numbered) (h : data.Ordered) (w : Word) :
    (data.addWord tables w).Ordered := by
  refine List.pairwise_append.mpr ⟨h, List.pairwise_singleton _ _, fun a ha b hb => .inl ?_⟩
  obtain rfl := List.mem_singleton.mp hb
  exact (hnumbered.ranges a ha).2

/-- The words of a multiword token come after all words. -/
theorem Ordered.addMultiword (hnumbered : data.Numbered) (h : data.Ordered) (form : Bytes)
    (covered : List Word) : (data.addMultiword tables form covered).Ordered := by
  suffices hboth : (data.addMultiword tables form covered).Ordered ∧
      ∀ a ∈ (data.addMultiword tables form covered).words, a.stop ≤ data.chars.length ∨
        a.isMultiword = true ∧ a.start = data.chars.length ∧
          a.stop = (data.addForm form).chars.length from hboth.1
  refine foldl_pushWord_induction (motive := fun data' => data'.Ordered ∧
    ∀ a ∈ data'.words, a.stop ≤ data.chars.length ∨ a.isMultiword = true ∧
      a.start = data.chars.length ∧ a.stop = (data.addForm form).chars.length)
    covered (fun data' w hchars hdata' => ?_) ⟨h, fun a ha => .inl (hnumbered.ranges a ha).2⟩
  obtain ⟨hordered, hstops⟩ := hdata'
  refine ⟨List.pairwise_append.mpr ⟨hordered, List.pairwise_singleton _ _, fun a ha b hb => ?_⟩,
    List.forall_mem_append.mpr ⟨hstops, List.forall_mem_singleton.mpr (.inr ⟨rfl, rfl, ?_⟩)⟩⟩
  · obtain rfl := List.mem_singleton.mp hb
    rcases hstops a ha with hle | ⟨hmultiword, hstart, hstop⟩
    · exact .inl hle
    · refine .inr ⟨hmultiword, rfl, hstart, hstop.trans ?_⟩
      rw [WordData.make, hchars]
  · rw [WordData.make, hchars]

/-- The words of sentences are in order. -/
theorem ordered_ofSentences (tables : Unicode) (sentences : List Sentence) :
    (ofSentences tables sentences).Ordered := by
  have hboth : (ofSentences tables sentences).Numbered ∧ (ofSentences tables sentences).Ordered :=
    ofSentences_induction (motive := fun data => data.Numbered ∧ data.Ordered)
      ⟨numbered_empty, .nil⟩ (fun _ _ h => ⟨⟨h.1.ids, h.1.ranges⟩, h.2⟩)
      (fun _ w h => ⟨h.1.addWord w, h.2.addWord h.1 w⟩)
      (fun _ _ _ token _ covered h =>
        ⟨h.1.addMultiword token.form covered, h.2.addMultiword h.1 token.form covered⟩)
  exact hboth.2

/-- Of two words one comes after the other one. -/
theorem Ordered.follows (h : data.Ordered) {a b : WordData} (ha : a ∈ data.words)
    (hb : b ∈ data.words) (hne : a ≠ b) : Follows a b ∨ Follows b a := by
  have hsymm : Std.Symm fun a b => Follows a b ∨ Follows b a := ⟨fun _ _ => Or.symm⟩
  have hpairs : data.words.Pairwise fun a b => Follows a b ∨ Follows b a := h.imp fun hab => .inl hab
  exact hpairs.forall ha hb hne

/-- Every word outside multiword tokens covers a character. -/
def PlainVisible (data : EvaluationData) : Prop :=
  ∀ word ∈ data.words, word.isMultiword = false → word.start < word.stop

end EvaluationData

/-! ### The condition -/

/-- The word is one of a multiword token without characters. -/
def WordData.IsInvisible (word : WordData) : Prop :=
  word.isMultiword = true ∧ word.start = word.stop

/-- A multiword token goes around a place between two characters. -/
def Covered (words : List WordData) (place : ℕ) : Prop :=
  ∃ word ∈ words, word.isMultiword = true ∧ word.start < place ∧ place < word.stop

/-- A word after a place that is in a multiword token or has characters. -/
def WordData.isAfter (place : ℕ) (word : WordData) : Bool :=
  place ≤ word.start && (word.isMultiword || place < word.stop)

/-- What stands against the multiword tokens without characters. One of the system needs a
multiword token around its place, or the end of the gold words. One of the gold data needs a
multiword token around its place, or one as the next system word, or the end of these. -/
structure PassesInvisible (system gold : EvaluationData) : Prop where
  ofSystem : ∀ s ∈ system.words, s.IsInvisible →
    Covered gold.words s.start ∨ gold.words.find? (·.isAfter s.start) = none
  ofGold : ∀ g ∈ gold.words, g.IsInvisible →
    Covered system.words g.start ∨
      (system.words.find? (·.isAfter g.start)).all WordData.isMultiword = true

instance (word : WordData) : Decidable word.IsInvisible := inferInstanceAs (Decidable (_ ∧ _))

instance (words : List WordData) (place : ℕ) : Decidable (Covered words place) :=
  inferInstanceAs (Decidable (∃ word ∈ words, _))

instance (system gold : EvaluationData) : Decidable (PassesInvisible system gold) :=
  decidable_of_iff
    ((∀ s ∈ system.words, s.IsInvisible →
        Covered gold.words s.start ∨ gold.words.find? (·.isAfter s.start) = none) ∧
      ∀ g ∈ gold.words, g.IsInvisible → Covered system.words g.start ∨
        (system.words.find? (·.isAfter g.start)).all WordData.isMultiword = true)
    ⟨fun h => ⟨h.1, h.2⟩, fun h => ⟨h.ofSystem, h.ofGold⟩⟩

/-! ### A pass -/

/-- What a pass does to the lists of words. Words outside a region are not in multiword tokens. -/
inductive AlignState.Takes (st st' : AlignState) : Prop
  | both {s g : WordData} (hs : st.system = s :: st'.system) (hg : st.gold = g :: st'.gold)
      (hspan : SameSpan s g) (hplain : s.isMultiword = false) (hplain' : g.isMultiword = false)
  | system {s g : WordData} (hs : st.system = s :: st'.system) (hsame : st'.gold = st.gold)
      (hg : g ∈ st.gold.head?) (hle : s.start ≤ g.start) (hplain : s.isMultiword = false)
      (hbefore : g.isMultiword = true → s.start < g.start)
  | gold {s g : WordData} (hg : st.gold = g :: st'.gold) (hsame : st'.system = st.system)
      (hs : s ∈ st.system.head?) (hlt : g.start < s.start) (hplain : g.isMultiword = false)
  | region {s g : WordData} {system gold : List WordData} {r : Region}
      (hs : st.system = s :: system) (hg : st.gold = g :: gold)
      (hmultiword : noMultiword s g = false)
      (hr : (Comp.loopOf Region.step (.start s g system gold)).Returns r)
      (hsystem : st'.system = r.system) (hgold : st'.gold = r.gold)

/-- Every pass that goes on is one of these. -/
theorem AlignState.takes_of_next {st st' : AlignState} (h : st.step.Returns (.next st')) :
    st.Takes st' := by
  obtain ⟨system, gold, matched⟩ := st
  cases system with
  | nil => cases Comp.returns_pure.mp h
  | cons s system =>
    cases gold with
    | nil => cases Comp.returns_pure.mp h
    | cons g gold =>
      cases hmultiword : noMultiword s g with
      | true =>
        simp only [AlignState.step, hmultiword, if_true] at h
        simp only [noMultiword, Bool.and_eq_true, Bool.or_eq_true, decide_eq_true_eq,
          Bool.not_eq_true'] at hmultiword
        obtain ⟨hsystem, hgold⟩ := hmultiword
        split_ifs at h with hspan hle
        · obtain rfl := LoopStep.next.inj (Comp.returns_pure.mp h)
          have hstart := hspan.1
          exact .both rfl rfl hspan (hsystem.resolve_left (by omega)) (hgold.resolve_left (by omega))
        · obtain rfl := LoopStep.next.inj (Comp.returns_pure.mp h)
          exact .system rfl rfl rfl hle (hsystem.resolve_left (by omega)) fun hmultiword =>
            hgold.resolve_right (by simp [hmultiword])
        · obtain rfl := LoopStep.next.inj (Comp.returns_pure.mp h)
          exact .gold rfl rfl rfl (by omega) (hgold.resolve_left (by omega))
      | false =>
        simp only [AlignState.step, hmultiword, Bool.false_eq_true, if_false] at h
        obtain ⟨r, hr, hrest⟩ := Comp.returns_bind.mp h
        obtain ⟨matched', -, hnext⟩ := Comp.returns_bind.mp hrest
        obtain rfl := LoopStep.next.inj (Comp.returns_pure.mp hnext)
        exact .region rfl rfl hmultiword hr rfl rfl

/-- A pass ends the loop only if no word is left on one side. -/
theorem AlignState.nil_of_done {st : AlignState} {matched : List PairSystemGold}
    (h : st.step.Returns (.done matched)) : st.system = [] ∨ st.gold = [] := by
  obtain ⟨system, gold, pairs⟩ := st
  cases system with
  | nil => exact .inl rfl
  | cons s system =>
    cases gold with
    | nil => exact .inr rfl
    | cons g gold =>
      cases hmultiword : noMultiword s g with
      | true =>
        simp only [AlignState.step, hmultiword, if_true] at h
        split_ifs at h <;> cases Comp.returns_pure.mp h
      | false =>
        simp only [AlignState.step, hmultiword, Bool.false_eq_true, if_false] at h
        obtain ⟨_, -, hrest⟩ := Comp.returns_bind.mp h
        obtain ⟨_, -, hdone⟩ := Comp.returns_bind.mp hrest
        cases Comp.returns_pure.mp hdone

/-! ### Where the loop goes on -/

/-- One pass of the loop over a region with words on both sides. -/
theorem Region.step_cons {t : Region} {s g : WordData} {system gold : List WordData}
    (hs : t.system = s :: system) (hg : t.gold = g :: gold) :
    t.step = if (s.inRange t.rangeEnd || g.inRange t.rangeEnd) = true then
      (if s.start ≤ g.start then .next (t.takeSystem s system) else .next (t.takeGold g gold))
      else .done t := by
  rw [Region.step, hs, hg]
  rfl

/-- The range of a region has the multiword tokens that it takes, and the next words are not in
it when the loop over the region ends. -/
theorem Region.ends {r r' : Region} (hr : (Comp.loopOf Region.step r).Returns r')
    (h : ∀ w ∈ r.systemWords ++ r.goldWords, w.isMultiword = true → w.stop ≤ r.rangeEnd) :
    (∀ w ∈ r'.systemWords ++ r'.goldWords, w.isMultiword = true → w.stop ≤ r'.rangeEnd) ∧
      ¬ r'.Continues := by
  have hextend : ∀ (t : Region) (w : WordData), t.rangeEnd ≤ w.extend t.rangeEnd ∧
      (w.isMultiword = true → w.stop ≤ w.extend t.rangeEnd) := by
    intro t w
    unfold WordData.extend
    split
    · exact ⟨le_max_left _ _, fun _ => le_max_right _ _⟩
    · exact ⟨le_rfl, fun hmultiword => absurd hmultiword ‹_›⟩
  refine Comp.loopOf_invariant
    (fun t => ∀ w ∈ t.systemWords ++ t.goldWords, w.isMultiword = true → w.stop ≤ t.rangeEnd)
    (fun t => (∀ w ∈ t.systemWords ++ t.goldWords, w.isMultiword = true → w.stop ≤ t.rangeEnd) ∧
      ¬ t.Continues) (fun t t' ht hnext => ?_) (fun t t' ht hdone => ?_) h hr
  · rcases t.step_cases with ⟨hdone, _⟩ | ⟨_, ⟨s, system, _, htake⟩ | ⟨g, gold, _, htake⟩⟩
    · cases hdone.symm.trans hnext
    · obtain rfl := LoopStep.next.inj (htake.symm.trans hnext)
      intro w hw hmultiword
      obtain ⟨hle, hstop⟩ := hextend t s
      simp only [takeSystem, List.mem_append, List.mem_singleton] at hw ⊢
      rcases hw with (hw | rfl) | hw
      · exact (ht w (List.mem_append_left _ hw) hmultiword).trans hle
      · exact hstop hmultiword
      · exact (ht w (List.mem_append_right _ hw) hmultiword).trans hle
    · obtain rfl := LoopStep.next.inj (htake.symm.trans hnext)
      intro w hw hmultiword
      obtain ⟨hle, hstop⟩ := hextend t g
      simp only [takeGold, List.mem_append, List.mem_singleton] at hw ⊢
      rcases hw with hw | hw | rfl
      · exact (ht w (List.mem_append_left _ hw) hmultiword).trans hle
      · exact (ht w (List.mem_append_right _ hw) hmultiword).trans hle
      · exact hstop hmultiword
  · rcases t.step_cases with ⟨hdone', hnot⟩ | ⟨_, ⟨_, _, _, hnext⟩ | ⟨_, _, _, hnext⟩⟩
    · obtain rfl := LoopStep.done.inj (hdone'.symm.trans hdone)
      exact ⟨ht, hnot⟩
    · cases hnext.symm.trans hdone
    · cases hnext.symm.trans hdone

/-- Behind a word that is not in the range, multiword tokens begin where the range has ended. -/
theorem le_start_of_not_inRange {words : List WordData} (hordered : words.Pairwise Follows)
    (hranges : ∀ w ∈ words, w.start ≤ w.stop) {rangeEnd : ℕ}
    (hhead : ¬ (words.head?.any (·.inRange rangeEnd)) = true) :
    ∀ w ∈ words, w.isMultiword = true → rangeEnd ≤ w.start := by
  cases words with
  | nil => exact fun w hw => absurd hw List.not_mem_nil
  | cons first words =>
    have hfirst : ¬ first.inRange rangeEnd = true := hhead
    have hrange := hranges first List.mem_cons_self
    intro w hw hmultiword
    rcases List.mem_cons.mp hw with rfl | hw
    · simpa [WordData.inRange, hmultiword] using hfirst
    · have hfollows := (List.pairwise_cons.mp hordered).1 w hw
      cases hplain : first.isMultiword with
      | true =>
        simp only [WordData.inRange, hplain, if_true, decide_eq_true_eq] at hfirst
        rcases hfollows with hle | ⟨-, -, hstart, -⟩ <;> omega
      | false =>
        simp only [WordData.inRange, hplain, Bool.false_eq_true, if_false, decide_eq_true_eq]
          at hfirst
        rcases hfollows with hle | ⟨htrue, -⟩
        · omega
        · exact absurd htrue (by simp [hplain])

/-- Words that begin before another one come before it. -/
theorem mem_of_start_lt {before after : List WordData} {word w : WordData}
    (hordered : (before ++ word :: after).Pairwise Follows) (hrange : word.start ≤ word.stop)
    (hw : w ∈ before ++ word :: after) (hlt : w.start < word.start) : w ∈ before := by
  rcases List.mem_append.mp hw with hw | hw
  · exact hw
  · rcases List.mem_cons.mp hw with rfl | hw
    · exact absurd hlt (lt_irrefl _)
    · have hordered' := (List.pairwise_append.mp hordered).2.1
      rcases (List.pairwise_cons.mp hordered').1 w hw with hle | ⟨-, -, hsame, -⟩ <;> omega

/-- The multiword tokens that have been taken end before those that are left begin. -/
structure Separated (system gold : EvaluationData) (st : AlignState) : Prop where
  taken : ∃ takenS takenG, system.words = takenS ++ st.system ∧ gold.words = takenG ++ st.gold ∧
    ∀ w ∈ takenS ++ takenG, w.isMultiword = true →
      ∀ rest ∈ st.system ++ st.gold, rest.isMultiword = true → w.stop ≤ rest.start

section Passes

variable {system gold : EvaluationData} (hsystem : system.Numbered) (hgold : gold.Numbered)
  (horderedS : system.Ordered) (horderedG : gold.Ordered)
include hsystem hgold horderedS horderedG

/-- A pass keeps multiword tokens apart. -/
theorem Separated.takes {st st' : AlignState} (h : Separated system gold st) (ht : st.Takes st') :
    Separated system gold st' := by
  obtain ⟨takenS, takenG, hwordsS, hwordsG, hapart⟩ := h.taken
  -- what is taken besides goes to the words that were left
  have hmore : ∀ newS newG : List WordData, st.system = newS ++ st'.system →
      st.gold = newG ++ st'.gold →
      (∀ w ∈ newS ++ newG, w.isMultiword = true → ∀ rest ∈ st'.system ++ st'.gold,
        rest.isMultiword = true → w.stop ≤ rest.start) → Separated system gold st' := by
    intro newS newG hnewS hnewG hnew
    refine ⟨takenS ++ newS, takenG ++ newG, by rw [hwordsS, hnewS, List.append_assoc],
      by rw [hwordsG, hnewG, List.append_assoc], fun w hw hmultiword rest hrest => ?_⟩
    have hrest' : rest ∈ st.system ++ st.gold := by
      rw [hnewS, hnewG]
      rcases List.mem_append.mp hrest with hrest | hrest <;> simp [hrest]
    have hw' : w ∈ takenS ++ takenG ∨ w ∈ newS ++ newG := by
      simp only [List.mem_append] at hw ⊢
      tauto
    rcases hw' with hw | hw
    · exact hapart w hw hmultiword rest hrest'
    · exact hnew w hw hmultiword rest hrest
  cases ht with
  | @both s g hs hg _ hplain hplain' =>
    refine hmore [s] [g] hs hg fun w hw hmultiword => ?_
    obtain rfl | rfl : w = s ∨ w = g := by simpa using hw
    · simp [hplain] at hmultiword
    · simp [hplain'] at hmultiword
  | @system s g hs hsame _ _ hplain _ =>
    refine hmore [s] [] hs (by rw [hsame, List.nil_append]) fun w hw hmultiword => ?_
    obtain rfl : w = s := by simpa using hw
    simp [hplain] at hmultiword
  | @gold s g hg hsame _ _ hplain =>
    refine hmore [] [g] (by rw [hsame, List.nil_append]) hg fun w hw hmultiword => ?_
    obtain rfl : w = g := by simpa using hw
    simp [hplain] at hmultiword
  | @region s g system' gold' r hs hg _ hr hrestS hrestG =>
    obtain ⟨r', hr', newS, newG, hnewS, hnewG, hsplitS, hsplitG⟩ :=
      (Region.start s g system' gold').collects
    obtain rfl := hr.unique hr'
    obtain ⟨hends, hnot⟩ := Region.ends hr (by simp [Region.start])
    rw [Region.Continues, not_or] at hnot
    have hS : st.system = r.systemWords ++ st'.system := by
      rw [hs, hrestS, hnewS]
      exact hsplitS
    have hG : st.gold = r.goldWords ++ st'.gold := by
      rw [hg, hrestG, hnewG]
      exact hsplitG
    refine hmore _ _ hS hG fun w hw hmultiword rest hrest hmultiword' => ?_
    refine (hends w hw hmultiword).trans ?_
    rcases List.mem_append.mp hrest with hrest | hrest
    · have hsuffix : st'.system <:+ system.words := ⟨takenS ++ r.systemWords, by
        rw [hwordsS, hS, List.append_assoc]⟩
      refine le_start_of_not_inRange (horderedS.sublist hsuffix.sublist)
        (fun w hw => (hsystem.ranges w (hsuffix.subset hw)).1) ?_ rest hrest hmultiword'
      rw [hrestS]
      exact hnot.1
    · have hsuffix : st'.gold <:+ gold.words := ⟨takenG ++ r.goldWords, by
        rw [hwordsG, hG, List.append_assoc]⟩
      refine le_start_of_not_inRange (horderedG.sublist hsuffix.sublist)
        (fun w hw => (hgold.ranges w (hsuffix.subset hw)).1) ?_ rest hrest hmultiword'
      rw [hrestG]
      exact hnot.2

/-- All passes keep multiword tokens apart. -/
theorem separated_of_visits {st : AlignState} (h : Visits system gold st) :
    Separated system gold st := by
  induction h with
  | refl => exact ⟨[], [], rfl, rfl, by simp⟩
  | tail _ hnext ih =>
    exact ih.takes hsystem hgold horderedS horderedG (AlignState.takes_of_next hnext)

/-- Under the condition no pass is stuck. -/
theorem neverStuck_of_passesInvisible (h : PassesInvisible system gold) :
    NeverStuck system gold := by
  rintro st hst ⟨s, system', g, gold', hs, hg, hstuck⟩
  obtain ⟨takenS, takenG, hwordsS, hwordsG, hapart⟩ :=
    (separated_of_visits hsystem hgold horderedS horderedG hst).taken
  rw [hs] at hwordsS
  rw [hg] at hwordsG
  have hmemS : s ∈ system.words := hwordsS ▸ List.mem_append_right _ List.mem_cons_self
  have hmemG : g ∈ gold.words := hwordsG ▸ List.mem_append_right _ List.mem_cons_self
  have hrestS : s ∈ st.system ++ st.gold := List.mem_append_left _ (hs ▸ List.mem_cons_self)
  have hrestG : g ∈ st.system ++ st.gold := List.mem_append_right _ (hg ▸ List.mem_cons_self)
  have hrangeS := (hsystem.ranges s hmemS).1
  have horderedS' : (takenS ++ s :: system').Pairwise Follows := hwordsS ▸ horderedS
  have horderedG' : (takenG ++ g :: gold').Pairwise Follows := hwordsG ▸ horderedG
  rcases (stuck_iff hrangeS).mp hstuck with ⟨hmultiword, hempty, hle, hafter⟩ |
    ⟨hplain, hmultiword, hempty, hle, hlt⟩
  · rcases h.ofSystem s hmemS ⟨hmultiword, hempty⟩ with ⟨w, hw, hwmulti, hlow, hhigh⟩ | hnone
    · -- the multiword token around the place has been taken
      rw [hwordsG] at hw
      have htaken : w ∈ takenG :=
        mem_of_start_lt horderedG' (hgold.ranges g hmemG).1 hw (hlow.trans_le hle)
      have := hapart w (List.mem_append_right _ htaken) hwmulti s hrestS hmultiword
      omega
    · have hnot := List.find?_eq_none.mp hnone g hmemG
      rcases hafter with hg | hlt <;> simp_all [WordData.isAfter]
  · have hrangeG := (hgold.ranges g hmemG).1
    rcases h.ofGold g hmemG ⟨hmultiword, le_antisymm hrangeG hempty⟩ with
      ⟨w, hw, hwmulti, hlow, hhigh⟩ | hnext
    · rw [hwordsS] at hw
      have htaken : w ∈ takenS := mem_of_start_lt horderedS' hrangeS hw (hlow.trans_le hle)
      have := hapart w (List.mem_append_left _ htaken) hwmulti g hrestG hmultiword
      omega
    · -- the next system word is before this one, and has no characters either
      have hafter : s.isAfter g.start = true := by
        simp only [WordData.isAfter, Bool.and_eq_true, Bool.or_eq_true, decide_eq_true_eq]
        omega
      rw [Option.all_eq_true, hwordsS, List.find?_append, List.find?_cons_of_pos hafter] at hnext
      cases hfirst : takenS.find? (·.isAfter g.start) with
      | none =>
        rw [hfirst] at hnext
        exact absurd (hnext s rfl) (by simp [hplain])
      | some w =>
        rw [hfirst] at hnext
        have hwmulti := hnext w rfl
        have htaken := List.mem_of_find?_eq_some hfirst
        have hwafter := List.find?_some hfirst
        have hwords : w ∈ system.words := hwordsS ▸ List.mem_append_left _ htaken
        have hend := hapart w (List.mem_append_left _ htaken) hwmulti g hrestG hmultiword
        have hrangeW := (hsystem.ranges w hwords).1
        simp only [WordData.isAfter, Bool.and_eq_true, decide_eq_true_eq] at hwafter
        have hplace : w.start = g.start := by omega
        rcases h.ofSystem w hwords ⟨hwmulti, by omega⟩ with ⟨v, hv, hvmulti, hlow, hhigh⟩ | hnone
        · have hvg : v ≠ g := by
            rintro rfl
            omega
          rcases horderedG.follows hv hmemG hvg with hfollows | hfollows <;>
            rcases hfollows with hle | ⟨-, -, hsame, -⟩ <;> omega
        · have hnot := List.find?_eq_none.mp hnone g hmemG
          simp [WordData.isAfter, hplace, hmultiword] at hnot

end Passes

/-! ### Where the loop stays -/

/-- Two words at a place that wait for one another: they are the first ones from it on, no
multiword token that begins before it goes on behind it, and neither word is in a range that
ends there. -/
structure Blocks (place : ℕ) (system gold : EvaluationData) (s g : WordData) : Prop where
  first : system.words.find? (place ≤ ·.start) = some s
  firstGold : gold.words.find? (place ≤ ·.start) = some g
  ends : ∀ w ∈ system.words ++ gold.words, w.isMultiword = true → w.start < place → w.stop ≤ place
  stuck : Stuck s g
  atPlace : s.isMultiword = true → s.stop ≤ place
  outside : place < s.stop ∨ s.isMultiword = true
  outsideGold : place < g.stop ∨ g.isMultiword = true

/-- Only words that begin before a place have been taken. -/
structure Behind (place : ℕ) (system gold : List WordData) (rest restGold : List WordData) :
    Prop where
  taken : ∃ takenS, system = takenS ++ rest ∧ ∀ w ∈ takenS, w.start < place
  takenGold : ∃ takenG, gold = takenG ++ restGold ∧ ∀ w ∈ takenG, w.start < place

/-- The first word from a place on is the first one that is left, if that is not before it. -/
theorem eq_of_behind {place : ℕ} {words taken rest : List WordData} {first w : WordData}
    (hwords : words = taken ++ w :: rest) (htaken : ∀ v ∈ taken, v.start < place)
    (hfirst : words.find? (place ≤ ·.start) = some first) (hle : place ≤ w.start) : w = first := by
  have hnone : taken.find? (place ≤ ·.start) = none :=
    List.find?_eq_none.mpr fun v hv => by simpa using htaken v hv
  have hsome : (w :: rest).find? (place ≤ ·.start) = some w :=
    List.find?_cons_of_pos (by simpa using hle)
  rw [hwords, List.find?_append, hnone, hsome] at hfirst
  exact Option.some.inj hfirst

/-- Some word is left as long as the first one from the place on is not taken. -/
theorem ne_nil_of_behind {place : ℕ} {words taken rest : List WordData} {first : WordData}
    (hwords : words = taken ++ rest) (htaken : ∀ v ∈ taken, v.start < place)
    (hfirst : words.find? (place ≤ ·.start) = some first) : rest ≠ [] := by
  rintro rfl
  have hnone : taken.find? (place ≤ ·.start) = none :=
    List.find?_eq_none.mpr fun v hv => by simpa using htaken v hv
  rw [hwords, List.append_nil, hnone] at hfirst
  cases hfirst

/-- Take a word before the place. -/
theorem Behind.cons {place : ℕ} {words taken rest : List WordData} {w : WordData}
    (hwords : words = taken ++ w :: rest) (htaken : ∀ v ∈ taken, v.start < place)
    (hlt : w.start < place) : ∃ taken', words = taken' ++ rest ∧ ∀ v ∈ taken', v.start < place :=
  ⟨taken ++ [w], by rw [hwords, List.append_assoc]; rfl,
    List.forall_mem_append.mpr ⟨htaken, List.forall_mem_singleton.mpr hlt⟩⟩

namespace Blocks

variable {place : ℕ} {system gold : EvaluationData} {s g : WordData}
  (h : Blocks place system gold s g)
include h

/-- Neither word is in a range that ends at the place. -/
theorem not_inRange {rangeEnd : ℕ} (hle : rangeEnd ≤ place) :
    s.inRange rangeEnd = false ∧ g.inRange rangeEnd = false := by
  have hs : place ≤ s.start := by simpa using List.find?_some h.first
  have hg : place ≤ g.start := by simpa using List.find?_some h.firstGold
  have houtside := h.outside
  have houtsideGold := h.outsideGold
  unfold WordData.inRange
  constructor
  · split
    · simpa using hle.trans hs
    · next hplain => simpa using hle.trans_lt (houtside.resolve_right hplain)
  · split
    · simpa using hle.trans hg
    · next hplain => simpa using hle.trans_lt (houtsideGold.resolve_right hplain)

/-- A region whose range ends at the place takes only words before it. -/
theorem region {r r' : Region} (hr : (Comp.loopOf Region.step r).Returns r')
    (hbehind : Behind place system.words gold.words r.system r.gold) (hend : r.rangeEnd ≤ place) :
    Behind place system.words gold.words r'.system r'.gold := by
  have hextend : ∀ (t : Region) (w : WordData), t.rangeEnd ≤ place → w.start < place →
      w ∈ system.words ++ gold.words → w.extend t.rangeEnd ≤ place := by
    intro t w hle hlt hw
    unfold WordData.extend
    split
    · next hmultiword => exact max_le hle (h.ends w hw hmultiword hlt)
    · exact hle
  refine (Comp.loopOf_invariant
    (fun t => Behind place system.words gold.words t.system t.gold ∧ t.rangeEnd ≤ place)
    (fun t => Behind place system.words gold.words t.system t.gold ∧ t.rangeEnd ≤ place)
    (fun t t' ht hnext => ?_) (fun t t' ht hdone => ?_) ⟨hbehind, hend⟩ hr).1
  · obtain ⟨⟨⟨takenS, hwordsS, htakenS⟩, takenG, hwordsG, htakenG⟩, hle⟩ := ht
    obtain ⟨hnotS, hnotG⟩ := h.not_inRange hle
    obtain ⟨w, restS, hrestS⟩ := List.exists_cons_of_ne_nil
      (ne_nil_of_behind hwordsS htakenS h.first)
    obtain ⟨v, restG, hrestG⟩ := List.exists_cons_of_ne_nil
      (ne_nil_of_behind hwordsG htakenG h.firstGold)
    rw [hrestS] at hwordsS
    rw [hrestG] at hwordsG
    have hmemS : w ∈ system.words ++ gold.words := by simp [hwordsS]
    have hmemG : v ∈ system.words ++ gold.words := by simp [hwordsG]
    -- the word that is taken is before the place, as one of the two words is in the range
    rw [Region.step_cons hrestS hrestG] at hnext
    have hbefore : (w.inRange t.rangeEnd || v.inRange t.rangeEnd) = true →
        w.start < place ∨ v.start < place := by
      intro hcontinues
      by_contra hnone
      rw [not_or, not_lt, not_lt] at hnone
      obtain rfl := eq_of_behind hwordsS htakenS h.first hnone.1
      obtain rfl := eq_of_behind hwordsG htakenG h.firstGold hnone.2
      simp [hnotS, hnotG] at hcontinues
    split_ifs at hnext with hcontinues
    · obtain rfl := LoopStep.next.inj hnext
      have hlt : w.start < place := by
        have := hbefore hcontinues
        omega
      exact ⟨⟨Behind.cons hwordsS htakenS hlt, takenG, hwordsG.trans (by rw [← hrestG]; rfl),
        htakenG⟩, hextend t w hle hlt hmemS⟩
    · obtain rfl := LoopStep.next.inj hnext
      have hlt : v.start < place := by
        have := hbefore hcontinues
        omega
      exact ⟨⟨⟨takenS, hwordsS.trans (by rw [← hrestS]; rfl), htakenS⟩,
        Behind.cons hwordsG htakenG hlt⟩, hextend t v hle hlt hmemG⟩
  · rcases t.step_cases with ⟨hdone', _⟩ | ⟨_, ⟨_, _, _, hnext⟩ | ⟨_, _, _, hnext⟩⟩
    · obtain rfl := LoopStep.done.inj (hdone'.symm.trans hdone)
      exact ht
    · cases hnext.symm.trans hdone
    · cases hnext.symm.trans hdone

/-- A pass takes only words before the place. -/
theorem takes {st st' : AlignState}
    (hbehind : Behind place system.words gold.words st.system st.gold) (ht : st.Takes st') :
    Behind place system.words gold.words st'.system st'.gold := by
  obtain ⟨⟨takenS, hwordsS, htakenS⟩, takenG, hwordsG, htakenG⟩ := hbehind
  have hfirst : place ≤ s.start := by simpa using List.find?_some h.first
  have hfirstGold : place ≤ g.start := by simpa using List.find?_some h.firstGold
  cases ht with
  | @both w v hs hg hspan hplain hplain' =>
    rw [hs] at hwordsS
    rw [hg] at hwordsG
    have hlt : w.start < place := by
      by_contra hge
      obtain rfl := eq_of_behind hwordsS htakenS h.first (not_lt.mp hge)
      obtain rfl := eq_of_behind hwordsG htakenG h.firstGold (hspan.1 ▸ not_lt.mp hge)
      have hnoMultiword := h.stuck.1
      simp [noMultiword, hplain, hplain'] at hnoMultiword
    exact ⟨Behind.cons hwordsS htakenS hlt, Behind.cons hwordsG htakenG (hspan.1 ▸ hlt)⟩
  | @system w v hs hsame hv hle hplain hbefore =>
    rw [hs] at hwordsS
    obtain ⟨restG, hg⟩ := List.head?_eq_some_iff.mp hv
    rw [hg] at hwordsG
    have hlt : w.start < place := by
      by_contra hge
      obtain rfl := eq_of_behind hwordsS htakenS h.first (not_lt.mp hge)
      obtain rfl := eq_of_behind hwordsG htakenG h.firstGold (hfirst.trans hle)
      have hnoMultiword := h.stuck.1
      cases hmultiword : v.isMultiword with
      | true =>
        have hlt := hbefore hmultiword
        simp [noMultiword, hplain, hlt] at hnoMultiword
      | false => simp [noMultiword, hplain, hmultiword] at hnoMultiword
    exact ⟨Behind.cons hwordsS htakenS hlt, takenG, by rw [hsame, hg, hwordsG], htakenG⟩
  | @gold w v hg hsame hw hlt hplain =>
    rw [hg] at hwordsG
    obtain ⟨restS, hs⟩ := List.head?_eq_some_iff.mp hw
    rw [hs] at hwordsS
    have hlt' : v.start < place := by
      by_contra hge
      obtain rfl := eq_of_behind hwordsG htakenG h.firstGold (not_lt.mp hge)
      obtain rfl := eq_of_behind hwordsS htakenS h.first (by omega)
      have hnoMultiword := h.stuck.1
      simp [noMultiword, hplain, hlt] at hnoMultiword
    exact ⟨⟨takenS, by rw [hsame, hs, hwordsS], htakenS⟩, Behind.cons hwordsG htakenG hlt'⟩
  | @region w v system' gold' r hs hg hmultiword hr hrestS hrestG =>
    rw [hs] at hwordsS
    rw [hg] at hwordsG
    rw [hrestS, hrestG]
    have hbehind : Behind place system.words gold.words (Region.start w v system' gold').system
        (Region.start w v system' gold').gold :=
      ⟨⟨takenS, hwordsS, htakenS⟩, takenG, hwordsG, htakenG⟩
    have hmemS : w ∈ system.words ++ gold.words := by simp [hwordsS]
    have hmemG : v ∈ system.words ++ gold.words := by simp [hwordsG]
    by_cases hboth : w = s ∧ v = g
    · -- the region of the two words takes nothing
      obtain ⟨rfl, rfl⟩ := hboth
      obtain ⟨r', hr', hsplitS, hsplitG, hnothing⟩ := Region.start_returns system' gold' hmultiword
      obtain rfl := hr.unique hr'
      obtain ⟨hnilS, hnilG⟩ := hnothing.mpr h.stuck
      rw [hnilS, List.nil_append] at hsplitS
      rw [hnilG, List.nil_append] at hsplitG
      exact ⟨⟨takenS, hsplitS ▸ hwordsS, htakenS⟩, takenG, hsplitG ▸ hwordsG, htakenG⟩
    · refine h.region hr hbehind ?_
      change (if w.isMultiword then w.stop else v.stop) ≤ place
      split
      · next hmulti =>
        by_cases hlt : w.start < place
        · exact h.ends w hmemS hmulti hlt
        · obtain rfl := eq_of_behind hwordsS htakenS h.first (not_lt.mp hlt)
          exact h.atPlace hmulti
      · next hplain =>
        simp only [noMultiword, hplain, Bool.not_false, Bool.or_true, Bool.true_and,
          Bool.or_eq_false_iff, decide_eq_false_iff_not, Bool.not_eq_false', not_lt] at hmultiword
        by_cases hlt : v.start < place
        · exact h.ends v hmemG hmultiword.2 hlt
        · obtain rfl := eq_of_behind hwordsG htakenG h.firstGold (not_lt.mp hlt)
          obtain rfl := eq_of_behind hwordsS htakenS h.first (by omega)
          exact absurd ⟨rfl, rfl⟩ hboth

/-- The alignment never ends. -/
theorem not_terminates : ¬ (bestAlignment system gold).Terminates := by
  rintro ⟨alignment, halignment⟩
  obtain ⟨matched, hmatched, _⟩ := Comp.returns_bind.mp halignment
  refine Comp.loop_invariant
    (fun st : AlignState => Behind place system.words gold.words st.system st.gold) (fun _ => False)
    (fun st st' hst hnext => h.takes hst (AlignState.takes_of_next hnext)) (fun st _ hst hdone => ?_)
    ⟨⟨[], rfl, by simp⟩, [], rfl, by simp⟩ hmatched
  obtain ⟨⟨takenS, hwordsS, htakenS⟩, takenG, hwordsG, htakenG⟩ := hst
  rcases AlignState.nil_of_done hdone with hnil | hnil
  · exact ne_nil_of_behind hwordsS htakenS h.first hnil
  · exact ne_nil_of_behind hwordsG htakenG h.firstGold hnil

end Blocks

/-- The first word from the place of an invisible token on is one of an invisible token there,
if all other words have characters. -/
theorem EvaluationData.Ordered.first_isInvisible {data : EvaluationData} (h : data.Ordered)
    (hnumbered : data.Numbered) (hplain : data.PlainVisible) {word first : WordData}
    (hword : word ∈ data.words) (hinvisible : word.IsInvisible)
    (hfirst : data.words.find? (word.start ≤ ·.start) = some first) :
    first.IsInvisible ∧ first.start = word.start := by
  obtain ⟨hmultiword, hempty⟩ := hinvisible
  obtain ⟨hle, before, after, hwords, hbefore⟩ := List.find?_eq_some_iff_append.mp hfirst
  have hle : word.start ≤ first.start := by simpa using hle
  rw [hwords] at hword
  have hmem : first ∈ data.words := hwords ▸ List.mem_append_right _ List.mem_cons_self
  have hrange := (hnumbered.ranges first hmem).1
  rcases List.mem_append.mp hword with hword | hword
  · simpa using hbefore word hword
  rcases List.mem_cons.mp hword with rfl | hword
  · exact ⟨⟨hmultiword, hempty⟩, rfl⟩
  have hordered : (first :: after).Pairwise Follows :=
    (List.pairwise_append.mp (hwords ▸ h : (before ++ first :: after).Pairwise Follows)).2.1
  have hstop : first.stop ≤ word.start := by
    rcases (List.pairwise_cons.mp hordered).1 word hword with hle' | ⟨-, -, -, hstop⟩ <;> omega
  refine ⟨⟨?_, by omega⟩, by omega⟩
  by_contra hnot
  have hlt := hplain first hmem (by simpa using hnot)
  omega

/-- A multiword token that begins before a word's place ends there or goes around it. -/
theorem stop_le_of_not_covered {words : List WordData} {place : ℕ} (h : ¬ Covered words place)
    {w : WordData} (hw : w ∈ words) (hmultiword : w.isMultiword = true) (hlt : w.start < place) :
    w.stop ≤ place := by
  by_contra hgt
  exact h ⟨w, hw, hmultiword, hlt, not_le.mp hgt⟩

/-- No token goes around the place of a word of the same data. -/
theorem EvaluationData.Ordered.not_covered {data : EvaluationData} (h : data.Ordered)
    (hnumbered : data.Numbered) {word : WordData} (hword : word ∈ data.words) :
    ¬ Covered data.words word.start := by
  rintro ⟨w, hw, -, hlow, hhigh⟩
  have hne : w ≠ word := by
    rintro rfl
    exact lt_irrefl _ hlow
  have hrange := (hnumbered.ranges word hword).1
  rcases h.follows hw hword hne with hfollows | hfollows <;>
    rcases hfollows with hle | ⟨-, -, hsame, -⟩ <;> omega

section Ends

variable {system gold : EvaluationData} (hsystem : system.Numbered) (hgold : gold.Numbered)
  (horderedS : system.Ordered) (horderedG : gold.Ordered) (hplainS : system.PlainVisible)
  (hplainG : gold.PlainVisible) (hends : (bestAlignment system gold).Terminates)
include hsystem hgold horderedS horderedG hplainS hplainG hends

/-- If all other words have characters, the alignment ends only under the condition. -/
theorem passesInvisible_of_terminates : PassesInvisible system gold where
  ofSystem s hs hinvisible := by
    by_contra hnot
    rw [not_or] at hnot
    obtain ⟨hcovered, hsome⟩ := hnot
    obtain ⟨v, hv⟩ := Option.ne_none_iff_exists'.mp hsome
    have hvafter := List.find?_some hv
    simp only [WordData.isAfter, Bool.and_eq_true] at hvafter
    obtain ⟨first, hfirst⟩ := Option.isSome_iff_exists.mp
      (List.find?_isSome.mpr ⟨s, hs, by simp⟩ : (system.words.find? (s.start ≤ ·.start)).isSome)
    obtain ⟨g, hg⟩ := Option.isSome_iff_exists.mp
      (List.find?_isSome.mpr ⟨v, List.mem_of_find?_eq_some hv, hvafter.1⟩ :
        (gold.words.find? (s.start ≤ ·.start)).isSome)
    obtain ⟨⟨hmultiword, hempty⟩, hplace⟩ :=
      horderedS.first_isInvisible hsystem hplainS hs hinvisible hfirst
    have hle : s.start ≤ g.start := by simpa using List.find?_some hg
    have hafter : g.isMultiword = true ∨ s.start < g.stop := by
      cases hplain : g.isMultiword with
      | true => exact .inl rfl
      | false => exact .inr (hle.trans_lt (hplainG g (List.mem_of_find?_eq_some hg) hplain))
    have hstuck : Stuck first g := (stuck_iff hempty.le).mpr
      (.inl ⟨hmultiword, hempty, by omega, hafter.imp_right fun hlt => by omega⟩)
    have hblocks : Blocks s.start system gold first g := by
      refine ⟨hfirst, hg, List.forall_mem_append.mpr ⟨fun w => ?_, fun w => ?_⟩, hstuck,
        fun _ => by omega, .inr hmultiword, hafter.symm⟩
      · exact stop_le_of_not_covered (horderedS.not_covered hsystem hs)
      · exact stop_le_of_not_covered hcovered
    exact hblocks.not_terminates hends
  ofGold g hg hinvisible := by
    by_contra hnot
    simp only [not_or, Option.all_eq_true, not_forall] at hnot
    obtain ⟨hcovered, s, hs, hmulti⟩ := hnot
    have hplain : s.isMultiword = false := by simpa using hmulti
    -- behind the place every word has characters or is in a multiword token
    have hsame : system.words.find? (·.isAfter g.start) = system.words.find? (g.start ≤ ·.start) := by
      refine List.find?_congr fun w hw => ?_
      cases hw' : w.isMultiword with
      | true => simp [WordData.isAfter, hw']
      | false =>
        have hlt := hplainS w hw hw'
        simp only [WordData.isAfter, hw', Bool.false_or, ← Bool.decide_and, decide_eq_decide]
        omega
    rw [hsame] at hs
    have hle : g.start ≤ s.start := by simpa using List.find?_some hs
    have hlt := hplainS s (List.mem_of_find?_eq_some hs) hplain
    obtain ⟨first, hfirst⟩ := Option.isSome_iff_exists.mp
      (List.find?_isSome.mpr ⟨g, hg, by simp⟩ : (gold.words.find? (g.start ≤ ·.start)).isSome)
    obtain ⟨⟨hmultiword, hempty⟩, hplace⟩ :=
      horderedG.first_isInvisible hgold hplainG hg hinvisible hfirst
    have hstuck : Stuck s first := (stuck_iff hlt.le).mpr
      (.inr ⟨hplain, hmultiword, by omega, by omega, by omega⟩)
    have hblocks : Blocks g.start system gold s first := by
      refine ⟨hs, hfirst, List.forall_mem_append.mpr ⟨fun w => ?_, fun w => ?_⟩, hstuck,
        fun hmulti' => absurd hmulti' hmulti, .inl (by omega), .inr hmultiword⟩
      · exact stop_le_of_not_covered hcovered
      · exact stop_le_of_not_covered (horderedG.not_covered hgold hg)
    exact hblocks.not_terminates hends

end Ends

/-! ### Data of sentences -/

/-- The first pass can be stuck. -/
theorem not_terminates_of_first {system gold : EvaluationData}
    (h : (system.words.head?.any fun s =>
      gold.words.head?.any fun g => decide (Stuck s g)) = true) :
    ¬ (bestAlignment system gold).Terminates := by
  intro hterminates
  obtain ⟨s, hs, h⟩ := (Option.any_eq_true _ _).mp h
  obtain ⟨g, hg, hstuck⟩ := (Option.any_eq_true _ _).mp h
  obtain ⟨system', hsystem⟩ := List.head?_eq_some_iff.mp hs
  obtain ⟨gold', hgold⟩ := List.head?_eq_some_iff.mp hg
  exact neverStuck_of_terminates hterminates _ .refl
    ⟨s, system', g, gold', hsystem, hgold, of_decide_eq_true hstuck⟩

end UDPipe.Evaluator
