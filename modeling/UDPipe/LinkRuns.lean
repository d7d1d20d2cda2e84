import UDPipe.Parsito.Tree
import UDPipe.Sentence

/-!
# Links over runs of operations

Both `sentence` and `parsito::tree` add nodes, set heads, unlink all nodes and start
over. Each operation keeps the links consistent: the children of a node are the
nodes whose head it is, in increasing order. So they are consistent after any run.
-/

namespace UDPipe

section Nodes

variable {ν : Type} [HasLinks ν]

/-- `nodes[i].head`, negative where there is no node. -/
def headAt (nodes : List ν) (i : ℕ) : ℤ := (nodes[i]?.map fun v => (links v).head).getD (-1)

/-- `nodes[i].children`. -/
def childrenAt (nodes : List ν) (i : ℕ) : List ℤ :=
  (nodes[i]?.map fun v => (links v).children).getD []

/-- `unlink_all_words` and `unlink_all_nodes`. -/
def unlinkAll (nodes : List ν) : List ν := nodes.map fun v => withLinks v {}

/-- The children of each node are the nodes below it, in increasing order. -/
structure LinksAgree (nodes : List ν) : Prop where
  increase : ∀ i, (childrenAt nodes i).Pairwise (· < ·)
  mem_children : ∀ i c, c ∈ childrenAt nodes i ↔
    1 ≤ c ∧ c < nodes.length ∧ headAt nodes c.toNat = i
  head_lt : ∀ i, headAt nodes i < nodes.length

/-- Nodes without links agree. -/
theorem linksAgree_of_none {nodes : List ν} (h : ∀ v ∈ nodes, links v = {}) :
    LinksAgree nodes := by
  have hnone : ∀ i, headAt nodes i = -1 ∧ childrenAt nodes i = [] := by
    intro i
    unfold headAt childrenAt
    cases hv : nodes[i]? with
    | none => exact ⟨rfl, rfl⟩
    | some v =>
      rw [Option.map_some, Option.map_some, h v (List.mem_of_getElem? hv)]
      exact ⟨rfl, rfl⟩
  refine ⟨fun i => ?_, fun i c => ?_, fun i => ?_⟩
  · rw [(hnone i).2]
    exact List.Pairwise.nil
  · rw [(hnone i).2, (hnone c.toNat).1]
    simp only [List.not_mem_nil, false_iff]
    omega
  · rw [(hnone i).1]
    omega

/-- Without links, heads and children agree. -/
theorem linksAgree_unlinkAll (nodes : List ν) : LinksAgree (unlinkAll nodes) := by
  apply linksAgree_of_none
  intro v hv
  obtain ⟨w, _, rfl⟩ := List.mem_map.mp hv
  exact HasLinks.links_withLinks w {}

/-- A new node has no links yet. -/
theorem LinksAgree.append {nodes : List ν} (h : LinksAgree nodes) {v : ν} (hv : links v = {}) :
    LinksAgree (nodes ++ [v]) := by
  have hlength : (nodes ++ [v]).length = nodes.length + 1 := by
    rw [List.length_append, List.length_singleton]
  have hsame : ∀ i, headAt (nodes ++ [v]) i = headAt nodes i ∧
      childrenAt (nodes ++ [v]) i = childrenAt nodes i := by
    intro i
    unfold headAt childrenAt
    rcases Nat.lt_trichotomy i nodes.length with hlt | rfl | hgt
    · rw [List.getElem?_append_left hlt]
      exact ⟨rfl, rfl⟩
    · rw [List.getElem?_concat_length, List.getElem?_eq_none le_rfl, Option.map_some,
        Option.map_some, hv]
      exact ⟨rfl, rfl⟩
    · rw [List.getElem?_eq_none (by omega), List.getElem?_eq_none (by omega)]
      exact ⟨rfl, rfl⟩
  refine ⟨fun i => ?_, fun i c => ?_, fun i => ?_⟩
  · rw [(hsame i).2]
    exact h.increase i
  · rw [(hsame i).2, (hsame c.toNat).1, h.mem_children, hlength]
    constructor
    · rintro ⟨hc, hlt, hhead⟩
      exact ⟨hc, by omega, hhead⟩
    · rintro ⟨hc, hlt, hhead⟩
      refine ⟨hc, ?_, hhead⟩
      by_contra hout
      -- the new node itself has no head
      have hnone : headAt nodes c.toNat = -1 := by
        rw [headAt, List.getElem?_eq_none (by omega)]
        rfl
      omega
  · have := h.head_lt i
    rw [(hsame i).1, hlength]
    omega

/-! ### Setting a head -/

/-- What one `set_head` changes. -/
theorem at_setHeadIn (nodes : List ν) {id : ℕ} (hid : id < nodes.length) (head : ℤ)
    (deprel : Bytes) (j : ℕ) :
    headAt (setHeadIn nodes id head deprel) j = (if id = j then head else headAt nodes j) ∧
      childrenAt (setHeadIn nodes id head deprel) j =
        (if j < nodes.length then
          (linksAfter (headAt nodes id) id head deprel j
            ⟨headAt nodes j, [], childrenAt nodes j⟩).children
        else []) := by
  have hv : nodes[(id : ℤ).toNat]? = some nodes[id] := List.getElem?_eq_getElem hid
  have hchange : (setHeadIn nodes id head deprel)[j]? = nodes[j]?.map fun w =>
      withLinks w (linksAfter (links nodes[id]).head id head deprel j (links w)) :=
    getElem?_setHeadIn (Int.natCast_nonneg id) hv j
  have hold : headAt nodes id = (links nodes[id]).head := by
    rw [headAt, List.getElem?_eq_getElem hid]
    rfl
  rw [headAt, childrenAt, hchange, hold]
  rcases lt_or_ge j nodes.length with hj | hj
  · have hw := List.getElem?_eq_getElem hj
    have hcast : ((id : ℤ) = (j : ℤ)) ↔ id = j := Int.natCast_inj
    simp only [headAt, childrenAt, hw, Option.map_some, Option.getD_some,
      HasLinks.links_withLinks, linksAfter, hj, if_true, hcast, and_self]
  · have hne : id ≠ j := by omega
    have hlt : ¬ j < nodes.length := by omega
    simp only [headAt, List.getElem?_eq_none hj, hne, hlt, if_false]
    exact ⟨rfl, rfl⟩

/-- Setting the head of a node to another node, or to none, keeps the links consistent. -/
theorem LinksAgree.setHeadIn {nodes : List ν} (h : LinksAgree nodes) {id : ℕ} (hpos : 1 ≤ id)
    (hid : id < nodes.length) {head : ℤ} (hhead : head < nodes.length) (deprel : Bytes) :
    LinksAgree (setHeadIn nodes id head deprel) := by
  have hat := at_setHeadIn nodes hid head deprel
  have hlength := length_setHeadIn nodes id head deprel
  refine ⟨fun i => ?_, fun i c => ?_, fun i => ?_⟩
  · rw [(hat i).2]
    split
    · have herase : (eraseChild id (childrenAt nodes i)).Pairwise (· < ·) := by
        rw [eraseChild_eq_filter (h.increase i)]
        exact (h.increase i).filter _
      unfold linksAfter
      dsimp only
      split <;> split
      · exact pairwise_insertChild herase
      · exact pairwise_insertChild (h.increase i)
      · exact herase
      · exact h.increase i
    · exact List.Pairwise.nil
  · have hmem := h.mem_children i c
    have hself := h.mem_children i id
    rw [(hat i).2, (hat c.toNat).1, hlength]
    by_cases hi : i < nodes.length
    · rw [if_pos hi]
      unfold linksAfter
      dsimp only
      have herase : c ∈ eraseChild id (childrenAt nodes i) ↔
          c ∈ childrenAt nodes i ∧ c ≠ id := by
        rw [eraseChild_eq_filter (h.increase i), List.mem_filter, bne_iff_ne]
      by_cases hc : c = id
      · subst hc
        have hself' : (id : ℤ) ∈ childrenAt nodes i ↔ headAt nodes id = i := by
          rw [hself, Int.toNat_natCast]
          exact ⟨fun hh => hh.2.2, fun hh => ⟨by omega, by omega, hh⟩⟩
        rw [Int.toNat_natCast, if_pos rfl]
        by_cases hnew : head = i
        · rw [if_pos hnew, mem_insertChild]
          exact ⟨fun _ => ⟨by omega, by omega, hnew⟩, fun _ => .inl rfl⟩
        · rw [if_neg hnew]
          by_cases hold : headAt nodes id = i
          · rw [if_pos hold, herase]
            exact ⟨fun hh => absurd rfl hh.2, fun hh => absurd hh.2.2 hnew⟩
          · rw [if_neg hold, hself']
            exact ⟨fun hh => absurd hh hold, fun hh => absurd hh.2.2 hnew⟩
      · have hother : c ∈ (if headAt nodes id = i then eraseChild id (childrenAt nodes i)
            else childrenAt nodes i) ↔ c ∈ childrenAt nodes i := by
          split
          · rw [herase, and_iff_left hc]
          · exact Iff.rfl
        have hchildren : c ∈ (if head = i then
              insertChild id (if headAt nodes id = i then eraseChild id (childrenAt nodes i)
                else childrenAt nodes i)
            else if headAt nodes id = i then eraseChild id (childrenAt nodes i)
              else childrenAt nodes i) ↔ c ∈ childrenAt nodes i := by
          split
          · rw [mem_insertChild, hother, or_iff_right hc]
          · exact hother
        rw [hchildren, hmem]
        constructor
        · rintro ⟨hc', hlt, hhead'⟩
          exact ⟨hc', hlt, by rw [if_neg (by omega)]; exact hhead'⟩
        · rintro ⟨hc', hlt, hhead'⟩
          rw [if_neg (by omega)] at hhead'
          exact ⟨hc', hlt, hhead'⟩
    · rw [if_neg hi]
      simp only [List.not_mem_nil, false_iff]
      rintro ⟨_, _, hc⟩
      split at hc
      · omega
      · have := h.head_lt c.toNat
        omega
  · rw [(hat i).1, hlength]
    split
    · exact hhead
    · exact h.head_lt i

/-- One `set_head` changes the head of no other node, and the children of no node but
the old head and the new one. -/
theorem frame_setHeadIn (nodes : List ν) {id : ℕ} (hid : id < nodes.length) (head : ℤ)
    (deprel : Bytes) :
    (∀ j, j ≠ id → headAt (setHeadIn nodes id head deprel) j = headAt nodes j) ∧
      ∀ j : ℕ, headAt nodes id ≠ j → head ≠ j →
        childrenAt (setHeadIn nodes id head deprel) j = childrenAt nodes j := by
  have hat := at_setHeadIn nodes hid head deprel
  refine ⟨fun j hj => ?_, fun j hold hnew => ?_⟩
  · rw [(hat j).1, if_neg (Ne.symm hj)]
  · rw [(hat j).2]
    split
    · simp only [linksAfter, hold, hnew, if_false]
    · rename_i hj
      rw [childrenAt, List.getElem?_eq_none (by omega)]
      rfl

end Nodes

/-! ### Runs -/

/-- An operation on the links of a sentence or a tree. -/
inductive LinkOperation where
  | add (form : Bytes)
  | setHead (id : ℕ) (head : ℤ) (deprel : Bytes)
  | unlinkAll
  | clear
  deriving DecidableEq, Repr

/-- The head of a word, not of the root, is set to an existing node or to none. -/
def LinkOperation.Allowed (size : ℕ) : LinkOperation → Prop
  | .setHead id head _ => 1 ≤ id ∧ id < size ∧ head < size
  | _ => True

instance (size : ℕ) : (operation : LinkOperation) → Decidable (operation.Allowed size)
  | .setHead id head _ => inferInstanceAs (Decidable (1 ≤ id ∧ id < size ∧ head < size))
  | .add _ | .unlinkAll | .clear => inferInstanceAs (Decidable True)

/-- `sentence::unlink_all_words`. -/
def Sentence.unlinkAllWords (s : Sentence) : Sentence := { s with words := unlinkAll s.words }

/-- An operation on a sentence. -/
def Sentence.perform (s : Sentence) : LinkOperation → Sentence
  | .add form => s.addWord form
  | .setHead id head deprel => s.setHead id head deprel
  | .unlinkAll => s.unlinkAllWords
  | .clear => Sentence.clear

/-- An operation on a tree. -/
def Parsito.Tree.perform (t : Parsito.Tree) : LinkOperation → Parsito.Tree
  | .add form => t.addNode form
  | .setHead id head deprel => t.setHead id head deprel
  | .unlinkAll => t.unlinkAllNodes
  | .clear => Parsito.Tree.clear

/-- The sentences that allowed operations lead to. -/
inductive Sentence.Reached : Sentence → Prop
  | fresh : Reached Sentence.clear
  | perform {s : Sentence} {operation : LinkOperation} (hreached : Reached s)
    (hallowed : operation.Allowed s.words.length) : Reached (s.perform operation)

/-- The trees that allowed operations lead to. -/
inductive Parsito.Tree.Reached : Parsito.Tree → Prop
  | fresh : Reached Parsito.Tree.clear
  | perform {t : Parsito.Tree} {operation : LinkOperation} (hreached : Reached t)
    (hallowed : operation.Allowed t.nodes.length) : Reached (t.perform operation)

/-- The links of an empty sentence agree. -/
private theorem linksAgree_clear : LinksAgree Sentence.clear.words := by
  apply linksAgree_of_none
  intro v hv
  rw [List.mem_singleton.mp hv]
  rfl

/-- The links of an empty tree agree. -/
private theorem linksAgree_clear_tree : LinksAgree Parsito.Tree.clear.nodes := by
  apply linksAgree_of_none
  intro v hv
  rw [List.mem_singleton.mp hv]
  rfl

/-- Every operation keeps the links of a sentence consistent. -/
theorem Sentence.Reached.linksAgree {s : Sentence} (h : s.Reached) : LinksAgree s.words := by
  induction h with
  | fresh => exact linksAgree_clear
  | @perform s operation _ hallowed ih =>
    cases operation with
    | add form => exact ih.append rfl
    | setHead id head deprel => exact ih.setHeadIn hallowed.1 hallowed.2.1 hallowed.2.2 deprel
    | unlinkAll => exact linksAgree_unlinkAll s.words
    | clear => exact linksAgree_clear

/-- Every operation keeps the links of a tree consistent. -/
theorem Parsito.Tree.Reached.linksAgree {t : Parsito.Tree} (h : t.Reached) :
    LinksAgree t.nodes := by
  induction h with
  | fresh => exact linksAgree_clear_tree
  | @perform t operation _ hallowed ih =>
    cases operation with
    | add form => exact ih.append rfl
    | setHead id head deprel => exact ih.setHeadIn hallowed.1 hallowed.2.1 hallowed.2.2 deprel
    | unlinkAll => exact linksAgree_unlinkAll t.nodes
    | clear => exact linksAgree_clear_tree

/-- The links of sentences and of trees are consistent after every run, and setting one
head changes no other head and only the children of the two heads. -/
theorem links_consistent :
    (∀ s : Sentence, s.Reached → LinksAgree s.words ∧
      ∀ (id : ℕ) (head : ℤ) (deprel : Bytes),
        LinkOperation.Allowed s.words.length (.setHead id head deprel) →
        (∀ j, j ≠ id → headAt (s.setHead id head deprel).words j = headAt s.words j) ∧
          ∀ j : ℕ, headAt s.words id ≠ j → head ≠ j →
            childrenAt (s.setHead id head deprel).words j = childrenAt s.words j) ∧
    ∀ t : Parsito.Tree, t.Reached → LinksAgree t.nodes ∧
      ∀ (id : ℕ) (head : ℤ) (deprel : Bytes),
        LinkOperation.Allowed t.nodes.length (.setHead id head deprel) →
        (∀ j, j ≠ id → headAt (t.setHead id head deprel).nodes j = headAt t.nodes j) ∧
          ∀ j : ℕ, headAt t.nodes id ≠ j → head ≠ j →
            childrenAt (t.setHead id head deprel).nodes j = childrenAt t.nodes j :=
  ⟨fun s hs => ⟨hs.linksAgree, fun _ head deprel hallowed =>
      frame_setHeadIn s.words hallowed.2.1 head deprel⟩,
    fun t ht => ⟨ht.linksAgree, fun _ head deprel hallowed =>
      frame_setHeadIn t.nodes hallowed.2.1 head deprel⟩⟩

/-- A sentence of two words, the first of them below the second. -/
def twoLinkedWords : Sentence :=
  ((Sentence.clear.addWord (bytes "a")).addWord (bytes "b")).setHead 1 2 (bytes "det")

/-- Two linked words, one of which is moved to the root. -/
theorem links_consistent_twoLinkedWords :
    LinksAgree twoLinkedWords.words ∧ childrenAt twoLinkedWords.words 2 = [1] ∧
      childrenAt (twoLinkedWords.setHead 1 0 (bytes "root")).words 1 = [] := by
  have hreached : twoLinkedWords.Reached :=
    @Sentence.Reached.perform _ (.setHead 1 2 (bytes "det"))
      (@Sentence.Reached.perform _ (.add (bytes "b"))
        (@Sentence.Reached.perform _ (.add (bytes "a")) .fresh trivial) trivial) (by decide)
  obtain ⟨hagree, hframe⟩ := links_consistent.1 twoLinkedWords hreached
  have hother := (hframe 1 0 (bytes "root") (by decide)).2 1 (by decide) (by decide)
  exact ⟨hagree, by decide, hother.trans (by decide)⟩

end UDPipe
