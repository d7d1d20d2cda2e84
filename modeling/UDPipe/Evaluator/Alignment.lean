import UDPipe.Evaluator.EvaluationData
import UDPipe.Library.Comp

/-!
# Alignment of words

`word_alignment::best_alignment` of `model/evaluator.cpp` goes through the words
of the system and of the gold data at once. Words are matched by their ranges of
characters; the words around a multiword token are collected into a region and
matched by a longest common subsequence of their forms. The indices `si` and `gi`
of the source are the lists of the words that are left.
-/

namespace UDPipe.Evaluator

/-- `word_alignment::pair_system_gold`. -/
structure PairSystemGold where
  system : Word
  gold : Word
  deriving DecidableEq, Repr

/-- The class `word_alignment`. -/
structure WordAlignment where
  matched : List PairSystemGold
  totalSystem : ℕ
  totalGold : ℕ
  deriving DecidableEq, Repr

/-- Whether two words cover the same characters. -/
def SameSpan (s g : WordData) : Prop := s.start = g.start ∧ s.stop = g.stop

instance (s g : WordData) : Decidable (SameSpan s g) := inferInstanceAs (Decidable (_ ∧ _))

/-- The test for no multiword token. -/
def noMultiword (s g : WordData) : Bool :=
  (g.start < s.start || !s.isMultiword) && (s.start < g.start || !g.isMultiword)

/-! ### The words of a multiword region -/

/-- Whether a word is in the multiword range. -/
def WordData.inRange (rangeEnd : ℕ) (word : WordData) : Bool :=
  if word.isMultiword then word.start < rangeEnd else word.stop ≤ rangeEnd

/-- The end of the range extended by a word. -/
def WordData.extend (rangeEnd : ℕ) (word : WordData) : ℕ :=
  if word.isMultiword then max rangeEnd word.stop else rangeEnd

/-- The words collected for a region, the words that are left, and `multiword_range_end`. -/
structure Region where
  systemWords : List WordData := []
  goldWords : List WordData := []
  system : List WordData
  gold : List WordData
  rangeEnd : ℕ
  deriving DecidableEq, Repr

namespace Region

/-- Collect the next system word. -/
def takeSystem (r : Region) (s : WordData) (system : List WordData) : Region :=
  { r with systemWords := r.systemWords ++ [s], system, rangeEnd := s.extend r.rangeEnd }

/-- Collect the next gold word. -/
def takeGold (r : Region) (g : WordData) (gold : List WordData) : Region :=
  { r with goldWords := r.goldWords ++ [g], gold, rangeEnd := g.extend r.rangeEnd }

/-- One pass of the loop that finds all words in the multiword range. -/
def step (r : Region) : LoopStep Region Region :=
  if (r.system.head?.any (·.inRange r.rangeEnd)) || (r.gold.head?.any (·.inRange r.rangeEnd)) then
    match r.system, r.gold with
    | s :: system, [] => .next (r.takeSystem s system)
    | s :: system, g :: gold =>
      if s.start ≤ g.start then .next (r.takeSystem s system) else .next (r.takeGold g gold)
    | [], g :: gold => .next (r.takeGold g gold)
    | [], [] => .done r
  else .done r

/-- The region that begins with the words `s` and `g`. -/
def start (s g : WordData) (system gold : List WordData) : Region where
  system := s :: system
  gold := g :: gold
  rangeEnd := if s.isMultiword then s.stop else g.stop

end Region

/-! ### The longest common subsequence -/

/-- The row `lcs[s]` of the table, from the row below it. -/
def lcsRow (s : WordData) : List WordData → List ℕ → List ℕ
  | [], _ => []
  | g :: gold, below =>
    let row := lcsRow s gold below.tail
    let best := max (below.headD 0) (row.headD 0)
    (if s.w.form = g.w.form then max best (1 + below.tail.headD 0) else best) :: row

/-- The table `lcs`, one row for each system word. -/
def lcsTable (system gold : List WordData) : List (List ℕ) :=
  system.foldr (fun s table => lcsRow s gold (table.headD []) :: table) []

/-- The words of a region that are left, their part of the table, and the matched pairs. -/
structure LcsState where
  system : List WordData
  gold : List WordData
  lcs : List (List ℕ)
  matched : List PairSystemGold := []
  deriving DecidableEq, Repr

/-- One pass of the loop that matches words along the table. -/
def LcsState.step (st : LcsState) : LoopStep LcsState (List PairSystemGold) :=
  match st.system, st.gold with
  | s :: system, g :: gold =>
    if s.w.form = g.w.form then
      .next ⟨system, gold, st.lcs.tail.map List.tail, st.matched ++ [⟨s.w, g.w⟩]⟩
    else if (st.lcs.headD []).headD 0 = (st.lcs.tail.headD []).headD 0 then
      .next { st with system, lcs := st.lcs.tail }
    else .next { st with gold, lcs := st.lcs.map List.tail }
  | _, _ => .done st.matched

/-! ### The loop over all words -/

/-- The words that are left, and the pairs matched so far. -/
structure AlignState where
  system : List WordData
  gold : List WordData
  matched : List PairSystemGold := []
  deriving DecidableEq, Repr

/-- One pass of the loop. -/
def AlignState.step (st : AlignState) : Comp (LoopStep AlignState (List PairSystemGold)) :=
  match st.system, st.gold with
  | s :: system, g :: gold =>
    if noMultiword s g then
      -- No multiword, align using start and end indices
      if SameSpan s g then pure (.next ⟨system, gold, st.matched ++ [⟨s.w, g.w⟩]⟩)
      else if s.start ≤ g.start then pure (.next { st with system })
      else pure (.next { st with gold })
    else do
      let region ← Comp.loopOf Region.step (.start s g system gold)
      let matched ← Comp.loopOf LcsState.step
        { system := region.systemWords
          gold := region.goldWords
          lcs := lcsTable region.systemWords region.goldWords
          matched := st.matched }
      pure (.next ⟨region.system, region.gold, matched⟩)
  | _, _ => pure (.done st.matched)

/-- The HEAD pointers of the system words, reindexed to use the gold indices. -/
def reindexHeads (totalSystem : ℕ) (matched : List PairSystemGold) : List PairSystemGold :=
  let goldAligned := matched.foldl (fun goldAligned m =>
    goldAligned.set (m.system.id - 1).toNat m.gold.id) (List.replicate totalSystem (-1))
  matched.map fun m =>
    if 0 < m.system.head then
      { m with system := { m.system with head := goldAligned.getD (m.system.head - 1).toNat (-1) } }
    else m

/-- `word_alignment::best_alignment`. -/
def bestAlignment (system gold : EvaluationData) : Comp WordAlignment := do
  let matched ← Comp.loop AlignState.step { system := system.words, gold := gold.words }
  pure ⟨reindexHeads system.words.length matched, system.words.length, gold.words.length⟩

end UDPipe.Evaluator
