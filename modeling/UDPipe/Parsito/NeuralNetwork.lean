import UDPipe.Library.Accumulate
import UDPipe.BinaryCoder
import Mathlib.Algebra.Ring.Int.Defs
import Mathlib.Algebra.BigOperators.Ring.List
import Mathlib.Data.List.ReduceOption
import Mathlib.Data.List.TakeWhile

/-!
# The neural network with its cache

`neural_network::propagate` of `parsito/network/neural_network.cpp` and the cache of products
that `generate_embeddings_cache` makes for it. Weights are elements of a semiring, and the
activation function and the normalization of the outcomes are parameters. A division by
zero, a failed assertion and the use of a null pointer have no result.
-/

namespace UDPipe.Parsito

/-- The numbers of the class `embedding`: for every word, as many weights as the dimension
says. They are read from a buffer whose size is an unsigned number. -/
structure EmbeddingWeights (R : Type) where
  dimension : ℕ
  words : ℕ
  weights : List R
  size : weights.length = dimension * words
  counted : weights.length < unsignedValues

/-- The method `weight`, with the product of unsigned numbers; `none` is a null pointer. -/
def EmbeddingWeights.weight {R : Type} (e : EmbeddingWeights R) (id : ℤ) : Option (List R) :=
  let offset := id.toNat * e.dimension % unsignedValues
  if id < 0 ∨ offset ≥ e.weights.length then none else some (e.weights.drop offset)

/-- The weights that the loops read from the pointer, as many as the dimension says. -/
def EmbeddingWeights.read {R : Type} (e : EmbeddingWeights R) (id : ℤ) : Option (List R) :=
  let embedding := (e.weight id).getD []
  if embedding.length < e.dimension then none else some embedding

/-- The class `neural_network`. A loaded matrix has rows of one length, with unsigned numbers of
rows and columns, and the rows of the second layer are those of the hidden layer and the bias. -/
structure NeuralNetwork (R : Type) where
  hiddenLayerActivation : R → R
  weights0 : List (List R)
  weights1 : List (List R)
  rows0 : ∀ row ∈ weights0, row.length = (weights0.headD []).length
  rows1 : ∀ row ∈ weights1, row.length = (weights1.headD []).length
  layers : weights1.length = (weights0.headD []).length + 1
  counted : weights0.length < unsignedValues ∧ (weights0.headD []).length < unsignedValues

/-- `embeddings_cache`: by embedding, word, and node position with hidden unit. -/
abbrev EmbeddingsCache (R : Type) := List (List (List R))

namespace NeuralNetwork

variable {R : Type} [Semiring R]

/-- The entry of a matrix. -/
def entry (m : List (List R)) (row column : ℕ) : R := (m.getD row []).getD column 0

/-- The number of columns of the first layer. -/
def hiddenLayerSize (net : NeuralNetwork R) : ℕ := (net.weights0.headD []).length

/-- The number of columns of the second layer. -/
def outcomesSize (net : NeuralNetwork R) : ℕ := (net.weights1.headD []).length

/-- The products of the weights of a word with the rows of the first layer from `index` on,
each with the cell that it is added to. -/
def products (net : NeuralNetwork R) (embedding : List R) (dimension index cell : ℕ) :
    List (ℕ × R) :=
  (List.range dimension).flatMap fun j => (List.range net.hiddenLayerSize).map fun k =>
    (cell + k, embedding.getD j 0 * entry net.weights0 (index + j) k)

/-! ### Propagation -/

/-- What a word adds to the hidden layer, from the cache or computed directly. -/
def wordUpdates (net : NeuralNetwork R) (cache : Option (EmbeddingsCache R)) (sequence index i : ℕ)
    (e : EmbeddingWeights R) (id : ℤ) : Option (List (ℕ × R)) :=
  if id < 0 then some []
  else
    match cache.bind fun cache => cache[i]?.bind fun words => words[id.toNat]? with
    | some precomputed => some ((List.range net.hiddenLayerSize).map fun j =>
        (j, precomputed.getD (sequence * net.hiddenLayerSize % unsignedValues + j) 0))
    | none => (e.read id).map fun embedding => net.products embedding e.dimension index 0

/-- The pass of the inner loop for an embedding. The state is the hidden layer and the index. -/
def embeddingStep (net : NeuralNetwork R) (cache : Option (EmbeddingsCache R)) (sequence : ℕ)
    (ids : Option (List ℤ)) (state : List R × ℕ) (e : EmbeddingWeights R × ℕ) :
    Option (List R × ℕ) := do
  let updates ←
    match ids with
    | none => some []
    | some ids => net.wordUpdates cache sequence state.2 e.2 e.1 (ids.getD e.2 0)
  return (addAll state.1 updates, (state.2 + e.1.dimension) % unsignedValues)

/-- The pass of the outer loop for a node position. -/
def sequenceStep (net : NeuralNetwork R) (cache : Option (EmbeddingsCache R))
    (embeddings : List (EmbeddingWeights R)) (state : List R × ℕ)
    (sequence : Option (List ℤ) × ℕ) : Option (List R × ℕ) :=
  embeddings.zipIdx.foldlM (net.embeddingStep cache sequence.2 sequence.1) state

/-- What is done with the sums of the hidden layer: bias, activation, and the second layer. -/
def outcomesOf (net : NeuralNetwork R) (softmax : List R → List R) (hiddenLayer : List R)
    (index : ℕ) : List R × List R :=
  let hiddenLayer := addAll hiddenLayer ((List.range net.hiddenLayerSize).map fun i =>
    (i, entry net.weights0 index i))
  let hiddenLayer := hiddenLayer.map net.hiddenLayerActivation
  let outcomes := addAll (List.replicate net.outcomesSize 0)
    ((List.range net.hiddenLayerSize).flatMap fun i => (List.range net.outcomesSize).map fun j =>
      (j, hiddenLayer.getD i 0 * entry net.weights1 i j))
  let outcomes := addAll outcomes ((List.range net.outcomesSize).map fun i =>
    (i, entry net.weights1 net.hiddenLayerSize i))
  (hiddenLayer, softmax outcomes)

/-- The method `propagate`: the hidden layer and the outcomes. Without `softmax` the last
parameter is the identity. -/
def propagate (net : NeuralNetwork R) (embeddings : List (EmbeddingWeights R))
    (embeddingIdsSequences : List (Option (List ℤ))) (cache : Option (EmbeddingsCache R))
    (softmax : List R → List R) : Option (List R × List R) := do
  if net.weights0 = [] ∨ net.weights1 = [] ∨
      ∃ ids ∈ embeddingIdsSequences.reduceOption, ids.length ≠ embeddings.length then none
  let (hiddenLayer, index) ← embeddingIdsSequences.zipIdx.foldlM
    (net.sequenceStep cache embeddings) (List.replicate net.hiddenLayerSize 0, 0)
  return net.outcomesOf softmax hiddenLayer index

/-! ### The cache -/

/-- An `unsigned` as an `int`. -/
def toInt (n : ℕ) : ℤ := if n < 2 ^ 31 then n else n - 2 ^ 32

/-- The loop that counts the words of an embedding, at most `maxWords` of them. -/
def countWords (e : EmbeddingWeights R) (maxWords : ℕ) : ℕ :=
  ((List.range maxWords).takeWhile fun words => (e.weight (toInt words)).isSome).length

/-- The products for a word at all node positions. The size of the vector and the places of
the products in it are unsigned numbers; a product beyond the vector has no result. -/
def cachedWord (net : NeuralNetwork R) (e : EmbeddingWeights R) (sequences embeddingsDim
    weightIndex word : ℕ) : Option (List R) := do
  let embedding ← e.read (toInt word)
  let size := sequences * net.hiddenLayerSize % unsignedValues
  let updates := (List.range sequences).flatMap fun sequence =>
    net.products embedding e.dimension ((weightIndex + sequence * embeddingsDim) % unsignedValues)
      (sequence * net.hiddenLayerSize)
  let updates := updates.map fun update => (update.1 % unsignedValues, update.2)
  if ∀ update ∈ updates, update.1 < size then some (addAll (List.replicate size 0) updates)
  else none

/-- The loop over the embeddings. -/
def cachedWords (net : NeuralNetwork R) (sequences embeddingsDim maxWords : ℕ) :
    List (EmbeddingWeights R) → ℕ → Option (EmbeddingsCache R)
  | [], _ => some []
  | e :: embeddings, weightIndex => do
    let words ← (List.range (countWords e maxWords)).mapM fun word =>
      net.cachedWord e sequences embeddingsDim weightIndex word
    let others ← cachedWords net sequences embeddingsDim maxWords embeddings
      ((weightIndex + e.dimension) % unsignedValues)
    return words :: others

/-- The sum of the dimensions. -/
def totalDimension : List (EmbeddingWeights R) → ℕ
  | [] => 0
  | e :: embeddings => e.dimension + totalDimension embeddings

/-- The sum of the dimensions as an unsigned number. -/
def embeddingsDim (embeddings : List (EmbeddingWeights R)) : ℕ :=
  totalDimension embeddings % unsignedValues

/-- The method `generate_embeddings_cache`, with its division and its assertion. -/
def generateEmbeddingsCache (net : NeuralNetwork R) (embeddings : List (EmbeddingWeights R))
    (maxWords : ℕ) : Option (EmbeddingsCache R) :=
  let dim := embeddingsDim embeddings
  let sequences := net.weights0.length / dim
  if dim = 0 ∨ (sequences * dim + 1) % unsignedValues ≠ net.weights0.length then none
  else net.cachedWords sequences dim maxWords embeddings 0

/-! ### What is added -/

variable {net : NeuralNetwork R} {embeddings : List (EmbeddingWeights R)}

/-- What the weights of a word add to a hidden unit. -/
def dot (net : NeuralNetwork R) (embedding : List R) (dimension index k : ℕ) : R :=
  ((List.range dimension).map fun j => embedding.getD j 0 * entry net.weights0 (index + j) k).sum

/-- A cell of the hidden layer gets the product of the embedding with its column. -/
theorem amountAt_products (embedding : List R) (dimension index cell : ℕ) {k : ℕ}
    (hk : k < net.hiddenLayerSize) :
    amountAt (net.products embedding dimension index cell) (cell + k) =
      net.dot embedding dimension index k := by
  rw [products, amountAt_flatMap, dot]
  congr 1
  apply List.map_congr_left
  intro j _
  exact amountAt_block cell net.hiddenLayerSize
    (fun k => embedding.getD j 0 * entry net.weights0 (index + j) k) hk

/-- Blocks of one size have no cells in common. -/
theorem block_eq {size a b k l : ℕ} (hk : k < size) (hl : l < size)
    (h : a * size + k = b * size + l) : a = b := by
  have hdiv := congrArg (· / size) h
  simpa [Nat.mul_add_div (by omega : 0 < size), Nat.mul_comm _ size, Nat.div_eq_of_lt hk,
    Nat.div_eq_of_lt hl] using hdiv

/-- The places of products at a node position are those of its block. -/
theorem mem_products {embedding : List R} {dimension index cell : ℕ} {update : ℕ × R}
    (h : update ∈ net.products embedding dimension index cell) :
    ∃ k < net.hiddenLayerSize, update.1 = cell + k := by
  obtain ⟨j, -, h⟩ := List.mem_flatMap.mp h
  obtain ⟨k, hk, rfl⟩ := List.mem_map.mp h
  exact ⟨k, List.mem_range.mp hk, rfl⟩

/-- A place of a block is within the blocks. -/
theorem block_lt {size sequence sequences k : ℕ} (hsequence : sequence < sequences)
    (hk : k < size) : sequence * size + k < sequences * size :=
  calc sequence * size + k < sequence * size + size := Nat.add_lt_add_left hk _
    _ = (sequence + 1) * size := (Nat.succ_mul _ _).symm
    _ ≤ sequences * size := Nat.mul_le_mul_right _ hsequence

/-- The cache has the sums that the weights of a word add at the node positions, where the
loop over the node positions looks for them. -/
def Holds (net : NeuralNetwork R) (e : EmbeddingWeights R) (positions dim weightIndex : ℕ)
    (embedding precomputed : List R) : Prop :=
  ∀ sequence < positions, ∀ k < net.hiddenLayerSize,
    precomputed.getD (sequence * net.hiddenLayerSize % unsignedValues + k) 0 =
      net.dot embedding e.dimension ((weightIndex + sequence * dim) % unsignedValues) k

/-- If the vector has a place for every product, then it holds what the word adds. -/
theorem exists_cachedWord {e : EmbeddingWeights R} {positions : ℕ} (dim weightIndex : ℕ) {word : ℕ}
    {embedding : List R} (hread : e.read (toInt word) = some embedding)
    (hfew : positions * net.hiddenLayerSize < unsignedValues) :
    ∃ precomputed, net.cachedWord e positions dim weightIndex word = some precomputed ∧
      net.Holds e positions dim weightIndex embedding precomputed := by
  obtain ⟨updates, hupdates⟩ : ∃ updates, updates = (List.range positions).flatMap fun sequence =>
    net.products embedding e.dimension ((weightIndex + sequence * dim) % unsignedValues)
      (sequence * net.hiddenLayerSize) := ⟨_, rfl⟩
  have hwithin : ∀ update ∈ updates, update.1 < positions * net.hiddenLayerSize := by
    intro update hupdate
    rw [hupdates] at hupdate
    obtain ⟨sequence, hsequence, hupdate⟩ := List.mem_flatMap.mp hupdate
    obtain ⟨k, hk, heq⟩ := mem_products hupdate
    rw [heq]
    exact block_lt (List.mem_range.mp hsequence) hk
  have hmap : updates.map (fun update => (update.1 % unsignedValues, update.2)) = updates := by
    conv_rhs => rw [← List.map_id updates]
    apply List.map_congr_left
    intro update hupdate
    rw [Nat.mod_eq_of_lt ((hwithin update hupdate).trans hfew)]
    rfl
  refine ⟨addAll (List.replicate (positions * net.hiddenLayerSize) 0) updates, ?_, ?_⟩
  · simp only [cachedWord, hread, Option.bind_eq_bind, Option.bind_some, ← hupdates, hmap,
      Nat.mod_eq_of_lt hfew]
    exact if_pos hwithin
  · intro sequence hsequence k hk
    have hplace := block_lt hsequence hk
    rw [Nat.mod_eq_of_lt (by omega), List.getD_eq_getElem?_getD, getElem?_addAll,
      List.getElem?_replicate, if_pos hplace, hupdates, amountAt_flatMap_range hsequence,
      amountAt_products _ _ _ _ hk]
    · simp
    · intro other _ hne update hupdate heq
      obtain ⟨l, hl, hplace⟩ := mem_products hupdate
      exact hne (block_eq hl hk (hplace.symm.trans heq))

/-- With more products than unsigned numbers, one of them is beyond the vector. -/
theorem cachedWord_eq_none {e : EmbeddingWeights R} {positions : ℕ} (dim weightIndex word : ℕ)
    (hdimension : 0 < e.dimension)
    (hmany : unsignedValues ≤ positions * net.hiddenLayerSize) :
    net.cachedWord e positions dim weightIndex word = none := by
  cases hread : e.read (toInt word) with
  | none => simp [cachedWord, hread]
  | some embedding =>
    simp only [cachedWord, hread, Option.bind_eq_bind, Option.bind_some]
    apply if_neg
    intro hall
    -- the last of the unsigned numbers is a place of some node position
    obtain ⟨last, hlast⟩ : ∃ last, last = unsignedValues - 1 := ⟨_, rfl⟩
    have hpos := unsignedValues_pos
    have hhidden : 0 < net.hiddenLayerSize := by
      by_contra hzero
      rw [Nat.eq_zero_of_not_pos hzero, Nat.mul_zero] at hmany
      omega
    have hsequence : last / net.hiddenLayerSize < positions := by
      rw [Nat.div_lt_iff_lt_mul hhidden]
      omega
    have hk : last % net.hiddenLayerSize < net.hiddenLayerSize := Nat.mod_lt _ hhidden
    have hplace : last / net.hiddenLayerSize * net.hiddenLayerSize + last % net.hiddenLayerSize =
        last := Nat.div_add_mod' last net.hiddenLayerSize
    have hlt := hall (last % unsignedValues, embedding.getD 0 0 * entry net.weights0
        ((weightIndex + last / net.hiddenLayerSize * dim) % unsignedValues + 0)
        (last % net.hiddenLayerSize)) (by
      refine List.mem_map.mpr ⟨(last, _), ?_, rfl⟩
      refine List.mem_flatMap.mpr ⟨_, List.mem_range.mpr hsequence, ?_⟩
      refine List.mem_flatMap.mpr ⟨0, List.mem_range.mpr hdimension, ?_⟩
      exact List.mem_map.mpr ⟨_, List.mem_range.mpr hk, by rw [hplace]⟩)
    have hsize := mod_unsignedValues_lt (positions * net.hiddenLayerSize)
    rw [Nat.mod_eq_of_lt (by omega : last < unsignedValues)] at hlt
    omega

omit [Semiring R] in
/-- The dimensions of the embeddings up to one and of that one. -/
theorem totalDimension_concat (embeddings : List (EmbeddingWeights R)) (e : EmbeddingWeights R) :
    totalDimension (embeddings ++ [e]) = totalDimension embeddings + e.dimension := by
  induction embeddings with
  | nil => exact Nat.add_comm e.dimension 0
  | cons first embeddings ih =>
    rw [List.cons_append, totalDimension, totalDimension, ih, Nat.add_assoc]

omit [Semiring R] in
/-- A word of the embedding has its weights. -/
theorem exists_read {e : EmbeddingWeights R} {id : ℤ} (hid : 0 ≤ id) (h : id < e.words) :
    ∃ embedding, e.read id = some embedding := by
  refine ⟨(e.weight id).getD [], if_neg (Nat.not_lt.mpr ?_)⟩
  rcases Nat.eq_zero_or_pos e.dimension with hzero | hpos
  · omega
  have hend : id.toNat * e.dimension + e.dimension ≤ e.weights.length :=
    calc id.toNat * e.dimension + e.dimension = (id.toNat + 1) * e.dimension :=
          (Nat.succ_mul _ _).symm
      _ ≤ e.words * e.dimension := Nat.mul_le_mul_right _ (by omega)
      _ = e.weights.length := by rw [e.size, Nat.mul_comm]
  have hoffset : id.toNat * e.dimension % unsignedValues = id.toNat * e.dimension :=
    Nat.mod_eq_of_lt (by have := e.counted; omega)
  rw [EmbeddingWeights.weight, hoffset, if_neg (by omega), Option.getD_some, List.length_drop]
  omega

omit [Semiring R] in
/-- The words that are counted are words of an embedding with weights, numbered by nonnegative
numbers. -/
theorem lt_words_of_lt_countWords {e : EmbeddingWeights R} {maxWords word : ℕ}
    (h : word < countWords e maxWords) :
    toInt word = word ∧ word < e.words ∧ e.weights ≠ [] := by
  have hall : ∀ k ≤ word, (e.weight (toInt k)).isSome = true := by
    intro k hk
    have hlt : k < countWords e maxWords := lt_of_le_of_lt hk h
    have hmem := List.getElem_mem hlt
    have hget : ((List.range maxWords).takeWhile fun words =>
        (e.weight (toInt words)).isSome)[k] = k := by
      rw [(List.takeWhile_prefix _).getElem hlt, List.getElem_range]
    rw [hget] at hmem
    exact @List.mem_takeWhile_imp _ (fun words => (e.weight (toInt words)).isSome) _ _ hmem
  have hsmall : ∀ k ≤ word, k < 2 ^ 31 := by
    intro k hk
    by_contra hge
    have hsome := hall (2 ^ 31) (by omega)
    rw [EmbeddingWeights.weight, if_pos (.inl (by decide))] at hsome
    cases hsome
  have hint : ∀ k ≤ word, toInt k = k := fun k hk => if_pos (hsmall k hk)
  refine ⟨hint word le_rfl, ?_, ?_⟩
  · by_contra hge
    have hsome := hall e.words (Nat.le_of_not_lt hge)
    rw [hint e.words (Nat.le_of_not_lt hge), EmbeddingWeights.weight, if_pos] at hsome
    · cases hsome
    · right
      rw [Int.toNat_natCast, Nat.mul_comm, ← e.size, Nat.mod_eq_of_lt e.counted]
  · intro hnil
    have hsome := hall word le_rfl
    rw [EmbeddingWeights.weight, hnil, if_pos (.inr (Nat.zero_le _))] at hsome
    cases hsome

omit [Semiring R] in
/-- An embedding with weights has a first word. -/
theorem countWords_one {e : EmbeddingWeights R} (h : e.weights ≠ []) :
    0 < e.dimension ∧ countWords e 1 = 1 := by
  have hpos : 0 < e.weights.length := List.length_pos_of_ne_nil h
  refine ⟨?_, ?_⟩
  · by_contra hzero
    rw [e.size, Nat.eq_zero_of_not_pos hzero, Nat.zero_mul] at hpos
    omega
  · have hfirst : (e.weight (toInt 0)).isSome = true := by
      rw [EmbeddingWeights.weight, if_neg]
      · rfl
      · rintro (hneg | hge)
        · exact absurd hneg (by decide)
        · have hzero : (toInt 0).toNat * e.dimension % unsignedValues = 0 := by simp [toInt]
          rw [hzero] at hge
          omega
    have htake : (List.range 1).takeWhile (fun words => (e.weight (toInt words)).isSome) = [0] :=
      List.takeWhile_cons_of_pos hfirst
    rw [countWords, htake]
    rfl

/-- The rows are counted modulo the unsigned numbers. -/
theorem Holds.congr {e : EmbeddingWeights R} {positions dim weightIndex weightIndex' : ℕ}
    {embedding precomputed : List R}
    (h : net.Holds e positions dim weightIndex embedding precomputed)
    (hsame : weightIndex % unsignedValues = weightIndex' % unsignedValues) :
    net.Holds e positions dim weightIndex' embedding precomputed := by
  intro sequence hsequence k hk
  rw [h sequence hsequence k hk, Nat.add_mod weightIndex, hsame, ← Nat.add_mod]

/-- If no vector of products is too long, then the words of every embedding stand in the cache
at its place, with the sum of the dimensions before it. -/
theorem exists_cachedWords {positions : ℕ} (dim maxWords : ℕ)
    (embeddings : List (EmbeddingWeights R)) (weightIndex : ℕ)
    (hfew : (∃ e ∈ embeddings, e.weights ≠ []) →
      positions * net.hiddenLayerSize < unsignedValues) :
    ∃ cache, net.cachedWords positions dim maxWords embeddings weightIndex = some cache ∧
      ∀ i e, embeddings[i]? = some e → ∃ words, cache[i]? = some words ∧
        ∀ (word : ℕ) precomputed, words[word]? = some precomputed →
          ∃ embedding, e.read word = some embedding ∧ net.Holds e positions dim
            (weightIndex + totalDimension (embeddings.take i)) embedding precomputed := by
  induction embeddings generalizing weightIndex with
  | nil => exact ⟨[], rfl, by simp⟩
  | cons e embeddings ih =>
    have hword : ∀ word < countWords e maxWords, ∃ embedding precomputed,
        e.read word = some embedding ∧
          net.cachedWord e positions dim weightIndex word = some precomputed ∧
            net.Holds e positions dim weightIndex embedding precomputed := by
      intro word hword
      obtain ⟨hint, hlt, hne⟩ := lt_words_of_lt_countWords hword
      obtain ⟨embedding, hread⟩ := exists_read (Int.natCast_nonneg word) (Int.ofNat_lt.mpr hlt)
      obtain ⟨precomputed, hcached⟩ := exists_cachedWord dim weightIndex
        (hint.symm ▸ hread) (hfew ⟨e, List.mem_cons_self, hne⟩)
      exact ⟨embedding, precomputed, hread, hcached⟩
    obtain ⟨words, hwords⟩ : ∃ words, (List.range (countWords e maxWords)).mapM
        (net.cachedWord e positions dim weightIndex) = some words := by
      refine exists_mapM fun word hmem => ?_
      obtain ⟨_, precomputed, -, hsome, -⟩ := hword word (List.mem_range.mp hmem)
      exact ⟨precomputed, hsome⟩
    obtain ⟨others, hothers, hcells⟩ := ih ((weightIndex + e.dimension) % unsignedValues)
      fun ⟨e', he', hne⟩ => hfew ⟨e', List.mem_cons_of_mem e he', hne⟩
    refine ⟨words :: others, ?_, ?_⟩
    · rw [cachedWords, hwords, Option.bind_eq_bind, Option.bind_some, hothers]
      rfl
    · intro i e' he'
      cases i with
      | zero =>
        obtain rfl := Option.some.inj he'
        obtain ⟨hlength, hall⟩ := List.forall₂_iff_get.mp (mapM_eq_some_iff.mp hwords)
        refine ⟨words, rfl, ?_⟩
        intro word precomputed hprecomputed
        obtain ⟨hlt, rfl⟩ := List.getElem?_eq_some_iff.mp hprecomputed
        have hlt' : word < (List.range (countWords e maxWords)).length := hlength ▸ hlt
        have hsome := hall word hlt' hlt
        rw [List.get_eq_getElem, List.get_eq_getElem, List.getElem_range] at hsome
        rw [List.length_range] at hlt'
        obtain ⟨embedding, precomputed, hread, hsome', hholds⟩ := hword word hlt'
        obtain rfl := Option.some.inj (hsome'.symm.trans hsome)
        exact ⟨embedding, hread, hholds⟩
      | succ i =>
        obtain ⟨words', hget, hcell⟩ := hcells i e' he'
        refine ⟨words', hget, fun word precomputed hprecomputed => ?_⟩
        obtain ⟨embedding, hread, hholds⟩ := hcell word precomputed hprecomputed
        refine ⟨embedding, hread, hholds.congr ?_⟩
        rw [List.take_succ_cons, totalDimension, Nat.mod_add_mod, Nat.add_assoc]

/-- An embedding with weights has no products in the cache if their vector is too long. -/
theorem cachedWords_eq_none {positions : ℕ} (dim : ℕ) {embeddings : List (EmbeddingWeights R)}
    (weightIndex : ℕ) {e : EmbeddingWeights R} (he : e ∈ embeddings) (hne : e.weights ≠ [])
    (hmany : unsignedValues ≤ positions * net.hiddenLayerSize) :
    net.cachedWords positions dim 1 embeddings weightIndex = none := by
  induction embeddings generalizing weightIndex with
  | nil => cases he
  | cons first embeddings ih =>
    rw [cachedWords]
    rcases List.mem_cons.mp he with rfl | he
    · obtain ⟨hdimension, hcount⟩ := countWords_one hne
      rw [hcount, List.range_one, List.mapM_cons,
        cachedWord_eq_none dim weightIndex 0 hdimension hmany]
      rfl
    · simp [ih ((weightIndex + first.dimension) % unsignedValues) he]

/-! ### The passes with and without the cache -/

/-- The hidden layer has its size, and the index is that of an embedding at a node position. -/
structure At (net : NeuralNetwork R) (embeddings : List (EmbeddingWeights R))
    (sequence i : ℕ) (state : List R × ℕ) : Prop where
  length : state.1.length = net.hiddenLayerSize
  index : state.2 = (sequence * totalDimension embeddings + totalDimension (embeddings.take i)) %
    unsignedValues

/-- The node ids of a position are words of the embeddings, or negative. -/
def IdsWithin (embeddings : List (EmbeddingWeights R)) (ids : List ℤ) : Prop :=
  List.Forall₂ (fun (id : ℤ) (e : EmbeddingWeights R) => id < e.words) ids embeddings

/-- What the cache is for the embeddings: for each of them what some of its words add. -/
def IsCache (net : NeuralNetwork R) (embeddings : List (EmbeddingWeights R)) (positions : ℕ)
    (cache : EmbeddingsCache R) : Prop :=
  ∀ i e, embeddings[i]? = some e → ∃ words, cache[i]? = some words ∧
    ∀ (word : ℕ) precomputed, words[word]? = some precomputed →
      ∃ embedding, e.read word = some embedding ∧
        net.Holds e positions (embeddingsDim embeddings) (totalDimension (embeddings.take i))
          embedding precomputed

/-- A pass for an embedding does the same with the cache. -/
theorem embeddingStep_cache {positions : ℕ} {cache : EmbeddingsCache R}
    (hcache : net.IsCache embeddings positions cache)
    {sequence i : ℕ} (hsequence : sequence < positions) {e : EmbeddingWeights R}
    (he : embeddings[i]? = some e) {state : List R × ℕ}
    (hstate : At net embeddings sequence i state) (ids : Option (List ℤ)) :
    net.embeddingStep (some cache) sequence ids state (e, i) =
      net.embeddingStep none sequence ids state (e, i) := by
  cases ids with
  | none => rfl
  | some ids =>
    obtain ⟨id, hid⟩ : ∃ id, id = ids.getD i 0 := ⟨_, rfl⟩
    simp only [embeddingStep, wordUpdates, ← hid, Option.bind_some, Option.bind_none]
    by_cases hneg : id < 0
    · rw [if_pos hneg, if_pos hneg]
    obtain ⟨words, hwords, hcell⟩ := hcache i e he
    rw [if_neg hneg, if_neg hneg, hwords, Option.bind_some]
    cases hprecomputed : words[id.toNat]? with
    | none => rfl
    | some precomputed =>
      -- the word is cached, and its weights are there
      obtain ⟨embedding, hread, hholds⟩ := hcell id.toNat precomputed hprecomputed
      rw [Int.toNat_of_nonneg (Int.not_lt.mp hneg)] at hread
      rw [hread]
      simp only [Option.map_some, Option.bind_eq_bind, Option.bind_some]
      congr 2
      refine addAll_congr fun k hk => ?_
      rw [hstate.length] at hk
      have hblock := amountAt_block 0 net.hiddenLayerSize (fun k =>
        precomputed.getD (sequence * net.hiddenLayerSize % unsignedValues + k) 0) hk
      have hproducts := @amountAt_products R _ net embedding e.dimension state.2 0 k hk
      have hindex : state.2 = (totalDimension (embeddings.take i) +
          sequence * embeddingsDim embeddings) % unsignedValues := by
        rw [hstate.index, embeddingsDim, Nat.add_comm, Nat.add_mod, ← Nat.mul_mod_mod sequence,
          ← Nat.add_mod]
      simp only [Nat.zero_add] at hblock hproducts
      rw [hblock, hproducts, hholds sequence hsequence k hk, hindex]

/-- After what is added for an embedding, the state is that of the next one. -/
theorem At.next {sequence i : ℕ} {e : EmbeddingWeights R} (he : embeddings[i]? = some e)
    {state : List R × ℕ} (hstate : At net embeddings sequence i state) (updates : List (ℕ × R)) :
    At net embeddings sequence (i + 1)
      (addAll state.1 updates, (state.2 + e.dimension) % unsignedValues) := by
  have htake : embeddings.take (i + 1) = embeddings.take i ++ [e] := by
    rw [List.take_add_one, he]
    rfl
  refine ⟨by simpa using hstate.length, ?_⟩
  rw [htake, totalDimension_concat, ← Nat.add_assoc]
  dsimp only
  rw [hstate.index, Nat.mod_add_mod]

/-- With an id of its words, the pass for an embedding has a result. -/
theorem exists_embeddingStep {sequence i : ℕ} {e : EmbeddingWeights R} {ids : Option (List ℤ)}
    (hids : ∀ l ∈ ids, l.getD i 0 < e.words) (state : List R × ℕ) :
    ∃ updates, net.embeddingStep none sequence ids state (e, i) =
      some (addAll state.1 updates, (state.2 + e.dimension) % unsignedValues) := by
  cases ids with
  | none => exact ⟨[], rfl⟩
  | some l =>
    have hlt : l.getD i 0 < e.words := hids l (Option.mem_some_self l)
    simp only [embeddingStep, wordUpdates, Option.bind_none]
    by_cases hneg : l.getD i 0 < 0
    · exact ⟨[], by rw [if_pos hneg]; rfl⟩
    · obtain ⟨embedding, hread⟩ := exists_read (Int.not_lt.mp hneg) hlt
      rw [if_neg hneg, hread]
      exact ⟨_, rfl⟩

omit [Semiring R] in
/-- The ids are those of words. -/
theorem IdsWithin.getD_lt {ids : List ℤ} (h : IdsWithin embeddings ids) {i : ℕ}
    {e : EmbeddingWeights R} (he : embeddings[i]? = some e) : ids.getD i 0 < e.words := by
  obtain ⟨hi, rfl⟩ := List.getElem?_eq_some_iff.mp he
  have hi' : i < ids.length := h.length_eq ▸ hi
  rw [List.getD_eq_getElem?_getD, List.getElem?_eq_getElem hi', Option.getD_some]
  exact h.get hi' hi

/-- The loop over the embeddings has the same result with the cache and without. -/
theorem exists_foldlM_embeddingStep {positions : ℕ} {cache : EmbeddingsCache R}
    (hcache : net.IsCache embeddings positions cache)
    {sequence : ℕ} (hsequence : sequence < positions) {ids : Option (List ℤ)}
    (hids : ∀ l ∈ ids, IdsWithin embeddings l) {rest : List (EmbeddingWeights R)} {i : ℕ}
    (hrest : embeddings.drop i = rest) {state : List R × ℕ}
    (hstate : At net embeddings sequence i state) :
    ∃ state', (rest.zipIdx i).foldlM (net.embeddingStep none sequence ids) state = some state' ∧
      (rest.zipIdx i).foldlM (net.embeddingStep (some cache) sequence ids) state = some state' ∧
      At net embeddings sequence (i + rest.length) state' := by
  induction rest generalizing i state with
  | nil => exact ⟨state, rfl, rfl, hstate⟩
  | cons e rest ih =>
    have he : embeddings[i]? = some e := by
      rw [← List.head?_drop, hrest, List.head?_cons]
    have hdrop : embeddings.drop (i + 1) = rest := by
      rw [← List.tail_drop, hrest, List.tail_cons]
    have hid : ∀ l ∈ ids, l.getD i 0 < e.words := fun l hl => (hids l hl).getD_lt he
    obtain ⟨updates, hstep⟩ := @exists_embeddingStep R _ net sequence i e ids hid state
    obtain ⟨state', hnone, hsome, hstate'⟩ := ih hdrop (hstate.next he updates)
    have hstep' := (embeddingStep_cache hcache hsequence he hstate ids).trans hstep
    refine ⟨state', ?_, ?_, ?_⟩
    · rw [List.zipIdx_cons, List.foldlM_cons, hstep]
      exact hnone
    · rw [List.zipIdx_cons, List.foldlM_cons, hstep']
      exact hsome
    · rw [List.length_cons, Nat.add_comm rest.length, ← Nat.add_assoc]
      exact hstate'

omit [Semiring R] in
/-- The end of a node position is the start of the next one. -/
theorem At.nextSequence {sequence : ℕ} {state : List R × ℕ}
    (hstate : At net embeddings sequence embeddings.length state) :
    At net embeddings (sequence + 1) 0 state := by
  refine ⟨hstate.length, ?_⟩
  rw [hstate.index, List.take_length, List.take_zero, Nat.succ_mul]
  rfl

/-- The loop over the node positions has the same result with the cache and without. -/
theorem exists_foldlM_sequenceStep {positions : ℕ} {cache : EmbeddingsCache R}
    (hcache : net.IsCache embeddings positions cache)
    {sequences : List (Option (List ℤ))} {sequence : ℕ}
    (hsequence : sequence + sequences.length ≤ positions)
    (hids : ∀ ids ∈ sequences.reduceOption, IdsWithin embeddings ids) {state : List R × ℕ}
    (hstate : At net embeddings sequence 0 state) :
    ∃ state', (sequences.zipIdx sequence).foldlM (net.sequenceStep none embeddings) state =
        some state' ∧
      (sequences.zipIdx sequence).foldlM (net.sequenceStep (some cache) embeddings) state =
        some state' := by
  induction sequences generalizing sequence state with
  | nil => exact ⟨state, rfl, rfl⟩
  | cons ids sequences ih =>
    rw [List.length_cons] at hsequence
    have hfirst : ∀ l ∈ ids, IdsWithin embeddings l := by
      rintro l rfl
      apply hids
      simp [List.reduceOption_mem_iff]
    have hothers : ∀ l ∈ sequences.reduceOption, IdsWithin embeddings l := by
      intro l hl
      apply hids
      rw [List.reduceOption_mem_iff] at hl ⊢
      exact List.mem_cons_of_mem ids hl
    obtain ⟨next, hnone, hsome, hnext⟩ :=
      exists_foldlM_embeddingStep hcache (by omega) hfirst (List.drop_zero (l := embeddings)) hstate
    rw [Nat.zero_add] at hnext
    obtain ⟨state', hnone', hsome'⟩ := ih (by omega) hothers hnext.nextSequence
    refine ⟨state', ?_, ?_⟩
    · rw [List.zipIdx_cons, List.foldlM_cons, sequenceStep, hnone]
      exact hnone'
    · rw [List.zipIdx_cons, List.foldlM_cons, sequenceStep, hsome]
      exact hsome'

/-! ### Outputs with the cache -/

/-- The number of node positions is found from the rows of the first layer when there are at
least two dimensions: the row of the bias is then less than a position. -/
theorem generateEmbeddingsCache_eq {positions : ℕ}
    (hrows : net.weights0.length = positions * totalDimension embeddings + 1)
    (hdim : 2 ≤ embeddingsDim embeddings) (maxWords : ℕ) :
    net.generateEmbeddingsCache embeddings maxWords =
      net.cachedWords positions (embeddingsDim embeddings) maxWords embeddings 0 := by
  have hcounted := net.counted.1
  have hsum : positions * embeddingsDim embeddings = positions * totalDimension embeddings := by
    rcases Nat.eq_zero_or_pos positions with rfl | hpos
    · rw [Nat.zero_mul, Nat.zero_mul]
    · have hle := Nat.le_mul_of_pos_left (totalDimension embeddings) hpos
      rw [embeddingsDim, Nat.mod_eq_of_lt (by omega)]
  have hpositions : net.weights0.length / embeddingsDim embeddings = positions := by
    rw [hrows, ← hsum, Nat.mul_comm, Nat.mul_add_div (by omega), Nat.div_eq_of_lt hdim,
      Nat.add_zero]
  simp only [generateEmbeddingsCache, hpositions]
  apply if_neg
  rw [hsum, ← hrows, Nat.mod_eq_of_lt hcounted]
  omega

/-- With fewer dimensions there is a division by zero, or the row of the bias is counted as a
position and the assertion fails. -/
theorem generateEmbeddingsCache_eq_none (hdim : embeddingsDim embeddings < 2) (maxWords : ℕ) :
    net.generateEmbeddingsCache embeddings maxWords = none := by
  have hcounted := net.counted.1
  simp only [generateEmbeddingsCache]
  apply if_pos
  rcases (by omega : embeddingsDim embeddings = 0 ∨ embeddingsDim embeddings = 1) with hzero | hone
  · exact .inl hzero
  · right
    rw [hone, Nat.div_one, Nat.mul_one]
    rcases (by omega : net.weights0.length + 1 = unsignedValues ∨
        net.weights0.length + 1 < unsignedValues) with hlast | hless
    · rw [hlast, Nat.mod_self]
      have hlarge : 1 < unsignedValues := by decide
      omega
    · rw [Nat.mod_eq_of_lt hless]
      omega

/-- The outputs with the cache of these embeddings are those without, for node ids that are
within the embeddings, negative or missing. -/
def CacheAgrees (net : NeuralNetwork R) (embeddings : List (EmbeddingWeights R))
    (positions : ℕ) : Prop :=
  ∀ maxWords, ∃ cache, net.generateEmbeddingsCache embeddings maxWords = some cache ∧
    ∀ embeddingIdsSequences : List (Option (List ℤ)), embeddingIdsSequences.length = positions →
      (∀ ids ∈ embeddingIdsSequences.reduceOption, IdsWithin embeddings ids) →
        ∀ softmax, ∃ outputs,
          net.propagate embeddings embeddingIdsSequences none softmax = some outputs ∧
          net.propagate embeddings embeddingIdsSequences (some cache) softmax = some outputs

/-- The unsigned numbers of the cache suffice: two dimensions are left of their sum, and a word
with weights has a place for each hidden unit at each node position. -/
def CacheFits (net : NeuralNetwork R) (embeddings : List (EmbeddingWeights R))
    (positions : ℕ) : Prop :=
  2 ≤ embeddingsDim embeddings ∧
    ((∃ e ∈ embeddings, e.weights ≠ []) → positions * net.hiddenLayerSize < unsignedValues)

/-- With the cache the network has the outputs that it has without, exactly when the sum of the
dimensions is at least two as an unsigned number and the sums of a word can be counted. -/
theorem cacheAgrees_iff {positions : ℕ}
    (hrows : net.weights0.length = positions * totalDimension embeddings + 1) :
    CacheAgrees net embeddings positions ↔ CacheFits net embeddings positions := by
  constructor
  · intro h
    have hdim : 2 ≤ embeddingsDim embeddings := by
      obtain ⟨cache, hcache, -⟩ := h 0
      by_contra hdim
      rw [generateEmbeddingsCache_eq_none (Nat.not_le.mp hdim)] at hcache
      cases hcache
    refine ⟨hdim, ?_⟩
    rintro ⟨e, he, hne⟩
    obtain ⟨cache, hcache, -⟩ := h 1
    by_contra hmany
    rw [generateEmbeddingsCache_eq hrows hdim,
      cachedWords_eq_none _ 0 he hne (Nat.le_of_not_lt hmany)] at hcache
    cases hcache
  · rintro ⟨hdim, hfew⟩ maxWords
    obtain ⟨cache, hsome, hcells⟩ :=
      exists_cachedWords (embeddingsDim embeddings) maxWords embeddings 0 hfew
    have hcache : net.IsCache embeddings positions cache := by
      intro i e he
      obtain ⟨words, hwords, hcell⟩ := hcells i e he
      simp only [Nat.zero_add] at hcell
      exact ⟨words, hwords, hcell⟩
    refine ⟨cache, (generateEmbeddingsCache_eq hrows hdim maxWords).trans hsome, ?_⟩
    intro sequences hpositions hids softmax
    have hstart : At net embeddings 0 0 (List.replicate net.hiddenLayerSize 0, 0) :=
      ⟨List.length_replicate, by simp [totalDimension]⟩
    have hlength : 0 + sequences.length ≤ positions := by omega
    obtain ⟨state, hnone, hsome⟩ := exists_foldlM_sequenceStep hcache hlength hids hstart
    have hchecks : ¬ (net.weights0 = [] ∨ net.weights1 = [] ∨
        ∃ ids ∈ sequences.reduceOption, ids.length ≠ embeddings.length) := by
      rintro (hempty | hempty | ⟨ids, hmem, hne⟩)
      · rw [hempty] at hrows
        cases hrows
      · have hlayers := net.layers
        rw [hempty] at hlayers
        cases hlayers
      · exact hne (hids ids hmem).length_eq
    refine ⟨net.outcomesOf softmax state.1 state.2, ?_, ?_⟩
    · rw [propagate, if_neg hchecks]
      simp only [hnone]
      rfl
    · rw [propagate, if_neg hchecks]
      simp only [hsome]
      rfl

/-- A node position with an embedding of two dimensions. -/
theorem cacheAgrees_two : ∃ (net : NeuralNetwork ℤ) (embeddings : List (EmbeddingWeights ℤ)),
    net.weights0 = [[2], [3], [5]] ∧ embeddings.map EmbeddingWeights.weights = [[7, 1]] ∧
      CacheAgrees net embeddings 1 := by
  let net : NeuralNetwork ℤ :=
    ⟨fun weight => weight * weight * weight, [[2], [3], [5]], [[1], [1]], by decide, by decide, rfl,
      by decide⟩
  have hsize : 1 * net.hiddenLayerSize < unsignedValues := by decide
  exact ⟨net, [⟨2, 1, [7, 1], rfl, by decide⟩], rfl, rfl,
    (@cacheAgrees_iff ℤ _ net [⟨2, 1, [7, 1], rfl, by decide⟩] 1 rfl).mpr
      ⟨by decide, fun _ => hsize⟩⟩

/-- A node position with an embedding of one dimension: the assertion fails. -/
theorem not_cacheAgrees_one : ∃ (net : NeuralNetwork ℤ) (embeddings : List (EmbeddingWeights ℤ)),
    net.weights0.length = 1 * totalDimension embeddings + 1 ∧ ¬ CacheAgrees net embeddings 1 := by
  let net : NeuralNetwork ℤ :=
    ⟨fun weight => weight * weight * weight, [[2], [5]], [[1], [1]], by decide, by decide, rfl,
      by decide⟩
  refine ⟨net, [⟨1, 1, [7], rfl, by decide⟩], rfl, ?_⟩
  intro h
  obtain ⟨cache, hcache, -⟩ := h 0
  rw [generateEmbeddingsCache_eq_none (by decide)] at hcache
  cases hcache

end NeuralNetwork

end UDPipe.Parsito
