import UDPipe.Parsito.Link2Oracle
import UDPipe.ParseInt

/-!
# Transitions worth trying

For the structured training an oracle lists the transitions to try in a
configuration, whether or not the run is still on its way to the gold tree. The
lists are read off the gold labels, the numbering of the nodes and the sizes of the
stack and the buffer. All of what they contain is applicable, and they are never
empty before the end, since the word with the root label stays until it is the last
one.
-/

namespace UDPipe.Parsito

open ProjectiveOracle (nested goldTree_nested)

/-! ### The lists -/

/-- The number of the root label, or the number of labels when it is not there. -/
def rootLabelNumber (labels : List Bytes) : ℕ := labels.findIdx (· == rootLabel)

/-- Whether an arc with label `i` may be listed; `above` is the size of the stack that
it needs with a single root. -/
def mayList (labels : List Bytes) (conf : Configuration) (direction above i : ℕ) : Bool :=
  !conf.singleRoot ||
    i == rootLabelNumber labels && conf.stack.length == 2 && conf.buffer.isEmpty &&
      direction == 1 ||
    i != rootLabelNumber labels && conf.stack.length > above

/-- The arcs to a child: those with its gold label. -/
def arcsTo (labels : List Bytes) (gold : Tree) (conf : Configuration) (child : ℤ)
    (direction above : ℕ) (number : ℕ → ℕ) : List ℕ :=
  ((List.range labels.length).filter fun i =>
    gold.deprelOf child == labels.getD i [] && mayList labels conf direction above i).map
      fun i => number i + direction

/-- The shift, when there is something to shift. -/
def shiftIfAny (conf : Configuration) : List ℕ := if conf.buffer.isEmpty then [] else [0]

/-- `tree_oracle_static::interesting_transitions` of the projective system. -/
def ProjectiveOracle.interestingTransitions (labels : List Bytes) (gold : Tree)
    (conf : Configuration) : List ℕ :=
  shiftIfAny conf ++
    match conf.stack with
    | top :: second :: _ =>
      arcsTo labels gold conf second 0 2 (1 + 2 * ·) ++ arcsTo labels gold conf top 1 2 (1 + 2 * ·)
    | _ => []

/-- `tree_oracle_static::interesting_transitions` of the system with swaps. -/
def SwapOracle.TreeOracle.interestingTransitions (oracle : TreeOracle) (conf : Configuration) :
    List ℕ :=
  shiftIfAny conf ++
    match conf.stack with
    | last :: prev :: _ =>
      (if oracle.swaps last prev conf.buffer then [1] else []) ++
        (arcsTo oracle.labels oracle.gold conf prev 0 2 (2 + 2 * ·) ++
          arcsTo oracle.labels oracle.gold conf last 1 2 (2 + 2 * ·))
    | _ => []

/-- `tree_oracle_static::interesting_transitions` of the link2 system: the arcs over a
node are listed only when they are gold. -/
def Link2Oracle.interestingTransitions (labels : List Bytes) (gold : Tree)
    (conf : Configuration) : List ℕ :=
  shiftIfAny conf ++ directions.zipIdx.flatMap fun (ends, direction) =>
    match conf.stack[ends.1]?, conf.stack[ends.2]? with
    | some parent, some child =>
      if 2 ≤ direction ∧ gold.headOf child ≠ parent then []
      else arcsTo labels gold conf child direction (if direction < 2 then 2 else 3) (1 + 4 * ·)
    | _, _ => []

/-! ### The checks of the trainer -/

/-- The labels of the training trees, in the order they come up. -/
def labelsOf (train : List Tree) : List Bytes :=
  (train.flatMap fun t => (t.nodes.filter (·.id != 0)).map (·.deprel)).foldl
    (fun labels deprel => if labels.contains deprel then labels else labels ++ [deprel]) []

/-- The check that the words of one tree have heads and labels, with the message of the
failure. -/
def linkFailureOf (t : Tree) : Option Bytes :=
  (t.nodes.filter (·.id != 0)).findSome? fun node =>
    let name := bytes "The node '" ++ node.form ++ bytes "' with id " ++ intToString node.id
    if node.head < 0 then some (name ++ bytes " has no head set!")
    else if node.deprel = [] then some (name ++ bytes " has no deprel set!")
    else none

/-- The checks of the training trees in `parser_nn_trainer::train`. -/
def trainFailure (single : Bool) (train : List Tree) : Option Bytes :=
  (train.findSome? linkFailureOf).or
    (if single then singleRootFailure train (labelsOf train) else none)

/-! ### Runs that perform listed transitions -/

/-- The configurations of the runs that perform some listed transition in every step. -/
inductive Explores (system : TransitionSystem) (interesting : Configuration → List ℕ)
    (start : Configuration) : Configuration → Prop
  | start : Explores system interesting start start
  | next {conf conf' : Configuration} {transition : ℕ} {child : ℤ}
    (hexplores : Explores system interesting start conf) (hfinal : conf.final = false)
    (hmem : transition ∈ interesting conf)
    (hperform : system.perform conf transition = some (conf', child)) :
    Explores system interesting start conf'

/-- In the runs from `start`, the lists have applicable transitions only, and at least
one before the end. -/
structure ListsApplicable (system : TransitionSystem) (interesting : Configuration → List ℕ)
    (start : Configuration) : Prop where
  ne_nil : ∀ conf, Explores system interesting start conf → conf.final = false →
    interesting conf ≠ []
  applicable : ∀ conf, Explores system interesting start conf →
    ∀ transition ∈ interesting conf, system.applicable conf transition = true

/-- A gold tree as it is built from nodes and arcs: it is numbered by positions, and the
root has no label. -/
structure TrainingTree (n : ℕ) (gold : Tree) : Prop extends IsTree n gold where
  numbered : ∀ i : ℕ, ∀ node ∈ gold.nodes[i]?, node.id = i
  deprelOf_root : gold.deprelOf 0 = []

/-- What may be listed, as rules. With a single root an arc either does not have the root
label and leaves enough nodes on the stack, or it is the last one. -/
inductive Candidate (labels : List Bytes) (gold : Tree) (order : ℤ → ℤ) (conf : Configuration) :
    Transition → Prop
  | shift (hbuffer : conf.buffer ≠ []) : Candidate labels gold order conf .shift
  | swap {top second : ℤ} {rest : List ℤ} (hstack : conf.stack = top :: second :: rest)
    (horder : order top < order second) : Candidate labels gold order conf .swap
  | leftArc {parent child : ℤ} {rest : List ℤ} (hstack : conf.stack = parent :: child :: rest)
    (hlabel : gold.deprelOf child ∈ labels)
    (hsingle : conf.singleRoot = true → gold.deprelOf child ≠ rootLabel ∧ rest ≠ []) :
    Candidate labels gold order conf (.leftArc (gold.deprelOf child))
  | rightArc {child parent : ℤ} {rest : List ℤ} (hstack : conf.stack = child :: parent :: rest)
    (hlabel : gold.deprelOf child ∈ labels)
    (hsingle : conf.singleRoot = true →
      gold.deprelOf child = rootLabel ∧ rest = [] ∧ conf.buffer = [] ∨
        gold.deprelOf child ≠ rootLabel ∧ rest ≠ []) :
    Candidate labels gold order conf (.rightArc (gold.deprelOf child))
  | leftArc2 {parent ignore child : ℤ} {rest : List ℤ}
    (hstack : conf.stack = parent :: ignore :: child :: rest)
    (hlabel : gold.deprelOf child ∈ labels)
    (hsingle : conf.singleRoot = true → gold.deprelOf child ≠ rootLabel ∧ rest ≠ []) :
    Candidate labels gold order conf (.leftArc2 (gold.deprelOf child))
  | rightArc2 {child toBuffer parent : ℤ} {rest : List ℤ}
    (hstack : conf.stack = child :: toBuffer :: parent :: rest)
    (hlabel : gold.deprelOf child ∈ labels)
    (hsingle : conf.singleRoot = true → gold.deprelOf child ≠ rootLabel ∧ rest ≠ []) :
    Candidate labels gold order conf (.rightArc2 (gold.deprelOf child))

/-- What holds in every configuration of such a run. -/
structure Explored (n : ℕ) (gold : Tree) (order : ℤ → ℤ) (conf : Configuration) : Prop where
  consistent : conf.Consistent n
  /-- Nodes that are not in the order of the sentence are in the order of the oracle. -/
  inverted : conf.inOrder.Pairwise fun a b => b < a → order a < order b
  /-- With a single root, the word with the root label is attached last. -/
  root_last : conf.singleRoot = true →
    conf.final = true ∨ ∃ r ∈ conf.pending, 1 ≤ r ∧ gold.deprelOf r = rootLabel

section Candidate

variable {n : ℕ} {labels : List Bytes} {gold : Tree} {order : ℤ → ℤ} {conf : Configuration}
  (hroot : gold.deprelOf 0 ∉ labels) (hleast : ∀ i : ℤ, 1 ≤ i → i ≤ n → order 0 < order i)
  (h : Explored n gold order conf)

include hroot hleast h

/-- What may be listed is applicable. -/
theorem Candidate.applicable {tr : Transition} (hcandidate : Candidate labels gold order conf tr) :
    tr.applicable conf = true := by
  have hword : ∀ child : ℤ, gold.deprelOf child ∈ labels → child ≠ 0 := by
    rintro child hlabel rfl
    exact hroot hlabel
  obtain ⟨t, stack, buffer, single⟩ := conf
  cases hcandidate with
  | shift hbuffer => simpa [Transition.applicable] using hbuffer
  | @swap top second rest hstack horder =>
    cases hstack
    have htop := (h.consistent.mem_pending top).mp (by simp [Configuration.pending])
    exact swap_applicable h.inverted hleast rfl htop.1 htop.2.1 horder
  | @leftArc parent child rest hstack hlabel hsingle =>
    cases hstack
    have hlabel' : (single && gold.deprelOf child == rootLabel) = false := by
      cases single with
      | false => rfl
      | true => simpa using (hsingle rfl).1
    simp [Transition.applicable, hlabel', hword child hlabel]
  | @rightArc child parent rest hstack hlabel hsingle =>
    cases hstack
    cases single with
    | false => simp [Transition.applicable]
    | true =>
      rcases hsingle rfl with ⟨hlabel', rfl, rfl⟩ | ⟨hlabel', hrest⟩
      · simp [Transition.applicable, hlabel']
      · simp [Transition.applicable, hlabel', List.length_pos_iff.mpr hrest]
  | @leftArc2 parent ignore child rest hstack hlabel hsingle =>
    cases hstack
    have hlabel' : (single && gold.deprelOf child == rootLabel) = false := by
      cases single with
      | false => rfl
      | true => simpa using (hsingle rfl).1
    simp [Transition.applicable, hlabel', hword child hlabel]
  | @rightArc2 child toBuffer parent rest hstack hlabel hsingle =>
    cases hstack
    cases single with
    | false => simp [Transition.applicable]
    | true =>
      obtain ⟨hlabel', hrest⟩ := hsingle rfl
      have hlength := List.length_pos_iff.mpr hrest
      simp [Transition.applicable, hlabel']
      omega

omit hroot hleast in
/-- The word with the root label stays when another word is attached. -/
private theorem root_last_of_ne (hfinal : conf.final = false) {conf' : Configuration}
    (hsingle' : conf'.singleRoot = conf.singleRoot) {child : ℤ}
    (hlabel : conf.singleRoot = true → gold.deprelOf child ≠ rootLabel)
    (hkept : ∀ i ∈ conf.pending, i ≠ child → i ∈ conf'.pending) :
    conf'.singleRoot = true →
      conf'.final = true ∨ ∃ r ∈ conf'.pending, 1 ≤ r ∧ gold.deprelOf r = rootLabel := by
  intro hsingle
  rw [hsingle'] at hsingle
  rcases h.root_last hsingle with hlast | ⟨r, hr, hpos, hroot⟩
  · simp [hlast] at hfinal
  · refine .inr ⟨r, hkept r hr ?_, hpos, hroot⟩
    rintro rfl
    exact hlabel hsingle hroot

omit h hroot hleast in
/-- The other children stay when one is taken. -/
theorem mem_of_perm_cons {l l' : List ℤ} {child : ℤ} (hperm : l.Perm (child :: l')) :
    ∀ i ∈ l, i ≠ child → i ∈ l' :=
  fun _ hi hne => (List.mem_cons.mp (hperm.mem_iff.mp hi)).resolve_left hne

/-- Performing a listed transition keeps the invariant. -/
theorem Candidate.explored {tr : Transition} (hcandidate : Candidate labels gold order conf tr)
    {conf' : Configuration} {child : ℤ} (hperform : tr.perform conf = some (conf', child)) :
    Explored n gold order conf' := by
  have hstep := step_of_perform (hcandidate.applicable hroot hleast h) hperform
  have hconsistent := h.consistent.step hstep
  have hfinal := (hstep.effect h.consistent.bottom h.consistent.nodup).2.2.1
  have hkept := @root_last_of_ne n gold order conf h hfinal conf'
  have hinverted := h.inverted
  obtain ⟨t, stack, buffer, single⟩ := conf
  simp only [Configuration.pending, Configuration.inOrder] at hkept hinverted
  cases hcandidate with
  | shift hbuffer =>
    cases buffer with
    | nil => cases hperform
    | cons front buffer =>
      obtain ⟨rfl, -⟩ := Prod.ext_iff.mp (Option.some.inj hperform)
      refine ⟨hconsistent, by simpa [Configuration.inOrder] using hinverted, fun hsingle => ?_⟩
      rcases h.root_last hsingle with hlast | ⟨r, hr, hword⟩
      · simp [hlast] at hfinal
      · exact .inr ⟨r, List.perm_middle.mem_iff.mp hr, hword⟩
  | @swap top second rest hstack horder =>
    cases hstack
    obtain ⟨rfl, -⟩ := Prod.ext_iff.mp (Option.some.inj hperform)
    refine ⟨hconsistent, ?_, fun hsingle => ?_⟩
    · simp only [Configuration.inOrder, List.reverse_cons, List.append_assoc, List.cons_append,
        List.nil_append] at hinverted ⊢
      exact Plan.pairwise_exchange (fun _ => horder) hinverted
    · rcases h.root_last hsingle with hlast | ⟨r, hr, hword⟩
      · simp [hlast] at hfinal
      · have hperm : (top :: second :: rest ++ buffer).Perm (top :: rest ++ second :: buffer) :=
          List.Perm.cons top List.perm_middle.symm
        exact .inr ⟨r, hperm.mem_iff.mp hr, hword⟩
  | @leftArc parent child rest hstack hlabel hsingle =>
    cases hstack
    obtain ⟨rfl, -⟩ := Prod.ext_iff.mp (Option.some.inj hperform)
    refine ⟨hconsistent, hinverted.sublist ?_, hkept rfl (fun hs => (hsingle hs).1) ?_⟩
    · exact List.Sublist.append_right
        (((List.sublist_cons_self child rest).cons_cons parent).reverse) buffer
    · apply mem_of_perm_cons
      exact List.Perm.swap child parent (rest ++ buffer)
  | @rightArc child parent rest hstack hlabel hsingle =>
    cases hstack
    obtain ⟨rfl, -⟩ := Prod.ext_iff.mp (Option.some.inj hperform)
    refine ⟨hconsistent, hinverted.sublist ?_, fun hs => ?_⟩
    · exact List.Sublist.append_right ((List.sublist_cons_self child _).reverse) buffer
    rcases hsingle hs with ⟨-, rfl, rfl⟩ | ⟨hlabel', -⟩
    · exact .inl (by simp [Configuration.final])
    · refine hkept rfl (fun _ => hlabel') ?_ hs
      apply mem_of_perm_cons
      exact List.Perm.refl _
  | @leftArc2 parent ignore child rest hstack hlabel hsingle =>
    cases hstack
    obtain ⟨rfl, -⟩ := Prod.ext_iff.mp (Option.some.inj hperform)
    refine ⟨hconsistent, hinverted.sublist ?_, hkept rfl (fun hs => (hsingle hs).1) ?_⟩
    · exact List.Sublist.append_right
        ((((List.sublist_cons_self child rest).cons_cons ignore).cons_cons parent).reverse) buffer
    · apply mem_of_perm_cons
      exact @List.perm_middle _ child [parent, ignore] (rest ++ buffer)
  | @rightArc2 child toBuffer parent rest hstack hlabel hsingle =>
    cases hstack
    obtain ⟨rfl, -⟩ := Prod.ext_iff.mp (Option.some.inj hperform)
    refine ⟨hconsistent, hinverted.sublist ?_, hkept rfl (fun hs => (hsingle hs).1) ?_⟩
    · simp [Configuration.inOrder]
    · apply mem_of_perm_cons
      exact List.Perm.cons child List.perm_middle.symm

end Candidate

/-- The invariant holds at the start. -/
theorem explored_init {n : ℕ} {gold : Tree} (tree : IsTree n gold) (order : ℤ → ℤ) {single : Bool}
    (hrooted : single = true → SingleRooted n gold) :
    Explored n gold order (Configuration.init single gold) := by
  have hconsistent := Configuration.consistent_init single tree.size
  refine ⟨hconsistent, ?_, fun hsingle => ?_⟩
  · exact (increase_init tree single).imp fun hlt hgt => absurd hlt (not_lt_of_gt hgt)
  · obtain ⟨r, hr, hn, honly⟩ := hrooted hsingle
    have hfree : (Configuration.init single gold).t.headOf r = -1 := by
      simp [Configuration.init, Tree.headOf]
    have hpending := (hconsistent.mem_pending r).mpr ⟨by omega, hn, hfree⟩
    exact .inr ⟨r, hpending, hr, (honly r hr hn).2.mpr rfl⟩

/-! ### The lists as rules -/

section Lists

variable {n : ℕ} {labels : List Bytes} {gold : Tree} {order : ℤ → ℤ} {conf : Configuration}

/-- Among distinct labels, the root label is known by its number. -/
theorem eq_rootLabelNumber_iff (hnodup : labels.Nodup) {i : ℕ} {label : Bytes}
    (hi : labels[i]? = some label) : i = rootLabelNumber labels ↔ label = rootLabel := by
  obtain ⟨hlt, rfl⟩ := List.getElem?_eq_some_iff.mp hi
  constructor
  · intro heq
    have hfind : labels.findIdx (· == rootLabel) < labels.length := by
      rwa [← rootLabelNumber, ← heq]
    have hroot := @List.findIdx_getElem _ (· == rootLabel) labels hfind
    simp only [heq, rootLabelNumber]
    exact eq_of_beq hroot
  · intro hlabel
    have hfind : labels.findIdx (· == rootLabel) < labels.length :=
      List.findIdx_lt_length_of_exists ⟨_, List.getElem_mem hlt, by simpa using hlabel⟩
    have hroot := eq_of_beq (@List.findIdx_getElem _ (· == rootLabel) labels hfind)
    exact (hnodup.getElem_inj_iff).mp (hlabel.trans hroot.symm)

/-- Whether an arc may be listed depends on its label only. -/
theorem mayList_iff (hnodup : labels.Nodup) {i : ℕ} {label : Bytes}
    (hi : labels[i]? = some label) (direction above : ℕ) :
    mayList labels conf direction above i = true ↔ (conf.singleRoot = true →
      label = rootLabel ∧ conf.stack.length = 2 ∧ conf.buffer = [] ∧ direction = 1 ∨
        label ≠ rootLabel ∧ above < conf.stack.length) := by
  have hnumber := eq_rootLabelNumber_iff hnodup hi
  simp only [mayList, ← hnumber, Bool.or_eq_true, Bool.and_eq_true, Bool.not_eq_true',
    beq_iff_eq, bne_iff_ne, List.isEmpty_iff, decide_eq_true_eq, ne_eq, gt_iff_lt]
  cases conf.singleRoot <;> simp [and_assoc]

/-- The arcs to a child are those with its gold label that may be listed. -/
theorem mem_arcsTo {child : ℤ} {direction above : ℕ} {number : ℕ → ℕ} {transition : ℕ} :
    transition ∈ arcsTo labels gold conf child direction above number ↔
      ∃ i, labels[i]? = some (gold.deprelOf child) ∧
        mayList labels conf direction above i = true ∧ transition = number i + direction := by
  simp only [arcsTo, List.mem_map, List.mem_filter, List.mem_range, Bool.and_eq_true, beq_iff_eq]
  constructor
  · rintro ⟨i, ⟨hlt, hlabel, hmay⟩, rfl⟩
    exact ⟨i, by simp [hlabel, List.getD_eq_getElem?_getD, hlt], hmay, rfl⟩
  · rintro ⟨i, hi, hmay, rfl⟩
    obtain ⟨hlt, -⟩ := List.getElem?_eq_some_iff.mp hi
    exact ⟨i, ⟨hlt, by simp [List.getD_eq_getElem?_getD, hi], hmay⟩, rfl⟩

/-- With an empty buffer there is an arc between the two topmost nodes. -/
theorem exists_mem_arcsTo (hnodup : labels.Nodup) (h : Explored n gold order conf)
    (hlabelled : ∀ i : ℤ, 1 ≤ i → i ≤ n → gold.deprelOf i ∈ labels)
    (hrooted : conf.singleRoot = true → SingleRooted n gold) {top second : ℤ} {rest : List ℤ}
    (hstack : conf.stack = top :: second :: rest) (hbuffer : conf.buffer = []) (number : ℕ → ℕ) :
    ∃ transition, transition ∈ arcsTo labels gold conf second 0 2 number ∨
      transition ∈ arcsTo labels gold conf top 1 2 number := by
  have hbottom := h.consistent.bottom
  have hdistinct := h.consistent.nodup
  have hpending : conf.pending = top :: second :: rest := by
    simp [Configuration.pending, hstack, hbuffer]
  rw [hstack] at hbottom
  rw [hpending] at hdistinct
  have hrange : ∀ i ∈ top :: second :: rest, 0 ≤ i ∧ i ≤ n := by
    intro i hi
    have hi' := (h.consistent.mem_pending i).mp (hpending ▸ hi)
    exact ⟨hi'.1, hi'.2.1⟩
  have hword : ∀ i ∈ top :: second :: rest, i ≠ 0 →
      1 ≤ i ∧ i ≤ n ∧ ∃ k : ℕ, labels[k]? = some (gold.deprelOf i) := by
    intro i hi hne
    have hi' := hrange i hi
    exact ⟨by omega, hi'.2, List.mem_iff_getElem?.mp (hlabelled i (by omega) hi'.2)⟩
  have htop : top ≠ 0 := by
    have hdistinct' : (top :: second :: rest ++ []).Nodup := by simpa using hdistinct
    exact ne_zero_of_above hbottom (List.cons_ne_nil _ _) hdistinct'
  obtain ⟨htop₁, htopn, k, hk⟩ := hword top (by simp) htop
  -- an arc to the right unless only the other label is allowed
  by_cases hmay : mayList labels conf 1 2 k = true
  · exact ⟨_, .inr (mem_arcsTo.mpr ⟨k, hk, hmay, rfl⟩)⟩
  rw [mayList_iff hnodup hk, Classical.not_imp, not_or, hstack] at hmay
  obtain ⟨hsingle, hlast, hother⟩ := hmay
  obtain ⟨r, hr, hrn, honly⟩ := hrooted hsingle
  have hrest : rest ≠ [] := by
    rintro rfl
    obtain rfl : second = 0 := by simpa using hbottom
    have htoproot : gold.deprelOf top = rootLabel := by
      rcases h.root_last hsingle with hfinal | ⟨i, hi, hpos, hroot⟩
      · simp [Configuration.final, hstack] at hfinal
      · rw [hpending] at hi
        simp only [List.mem_cons, List.not_mem_nil, or_false] at hi
        rcases hi with rfl | rfl
        · exact hroot
        · omega
    simp [htoproot, hbuffer] at hlast
  have hlength := List.length_pos_iff.mpr hrest
  have htoproot : gold.deprelOf top = rootLabel := by
    by_contra hne
    exact hother ⟨hne, by simp only [List.length_cons]; omega⟩
  have hsecond : second ≠ 0 := by
    have hbottom' : (second :: rest).getLast? = some 0 := by simpa using hbottom
    have hdistinct' : (second :: rest ++ []).Nodup := by simpa using hdistinct.of_cons
    exact ne_zero_of_above hbottom' hrest hdistinct'
  obtain ⟨hsecond₁, hsecondn, k', hk'⟩ := hword second (by simp) hsecond
  have hsecondroot : gold.deprelOf second ≠ rootLabel := by
    intro heq
    obtain rfl := (honly second hsecond₁ hsecondn).2.mp heq
    obtain rfl := (honly top htop₁ htopn).2.mp htoproot
    exact (List.nodup_cons.mp hdistinct).1 List.mem_cons_self
  refine ⟨_, .inl (mem_arcsTo.mpr ⟨k', hk', (mayList_iff hnodup hk' 0 2).mpr ?_, rfl⟩)⟩
  refine fun _ => .inr ⟨hsecondroot, ?_⟩
  simp only [hstack, List.length_cons]
  omega

/-- The listed arcs between the two topmost nodes are candidates. -/
theorem candidate_of_mem_arcsTo (hnodup : labels.Nodup) {top second : ℤ} {rest : List ℤ}
    (hstack : conf.stack = top :: second :: rest) {number : ℕ → ℕ} {transition : ℕ}
    (hmem : transition ∈ arcsTo labels gold conf second 0 2 number ∨
      transition ∈ arcsTo labels gold conf top 1 2 number) :
    ∃ (i : ℕ) (tr : Transition), Candidate labels gold order conf tr ∧
      (transition = number i ∧ labels[i]?.map Transition.leftArc = some tr ∨
        transition = number i + 1 ∧ labels[i]?.map Transition.rightArc = some tr) := by
  rcases hmem with hmem | hmem
  · obtain ⟨i, hi, hmay, rfl⟩ := mem_arcsTo.mp hmem
    rw [mayList_iff hnodup hi, hstack] at hmay
    refine ⟨i, _, .leftArc hstack (List.mem_of_getElem? hi) fun hsingle => ?_, .inl ⟨rfl, ?_⟩⟩
    · rcases hmay hsingle with h | ⟨hlabel, hlength⟩
      · simp at h
      · exact ⟨hlabel, List.ne_nil_of_length_pos (by simpa using hlength)⟩
    · rw [hi, Option.map_some]
  · obtain ⟨i, hi, hmay, rfl⟩ := mem_arcsTo.mp hmem
    rw [mayList_iff hnodup hi, hstack] at hmay
    refine ⟨i, _, .rightArc hstack (List.mem_of_getElem? hi) fun hsingle => ?_, .inr ⟨rfl, ?_⟩⟩
    · rcases hmay hsingle with ⟨hlabel, hlength, hbuffer, -⟩ | ⟨hlabel, hlength⟩
      · exact .inl ⟨hlabel, by simpa using hlength, hbuffer⟩
      · exact .inr ⟨hlabel, List.ne_nil_of_length_pos (by simpa using hlength)⟩
    · rw [hi, Option.map_some]

/-- A listed shift is a candidate. -/
theorem candidate_of_mem_shiftIfAny {transition : ℕ} (hmem : transition ∈ shiftIfAny conf) :
    transition = 0 ∧ Candidate labels gold order conf .shift := by
  unfold shiftIfAny at hmem
  split at hmem
  · cases hmem
  · rename_i hbuffer
    exact ⟨List.mem_singleton.mp hmem, .shift (by simpa using hbuffer)⟩

/-- What the projective oracle lists are candidates. -/
theorem ProjectiveOracle.candidate_of_mem (hnodup : labels.Nodup) {transition : ℕ}
    (hmem : transition ∈ interestingTransitions labels gold conf) :
    ∃ tr, (TransitionSystem.projective labels)[transition]? = some tr ∧
      Candidate labels gold order conf tr := by
  rcases List.mem_append.mp hmem with hshift | harcs
  · obtain ⟨rfl, hcandidate⟩ := candidate_of_mem_shiftIfAny hshift
    exact ⟨_, rfl, hcandidate⟩
  · split at harcs
    · rename_i top second rest hstack
      obtain ⟨i, tr, hcandidate, ⟨rfl, htr⟩ | ⟨rfl, htr⟩⟩ :=
        candidate_of_mem_arcsTo hnodup hstack (List.mem_append.mp harcs)
      · exact ⟨tr, (getElem?_projective labels i).1.trans htr, hcandidate⟩
      · exact ⟨tr, by rw [← htr, ← (getElem?_projective labels i).2]; congr 1; omega, hcandidate⟩
    · cases harcs

/-- What a swap oracle lists are candidates, for the order that it holds. -/
theorem SwapOracle.TreeOracle.candidate_of_mem {oracle : TreeOracle} (hnodup : oracle.labels.Nodup)
    (horder : ∀ i ∈ conf.stack, oracle.projectiveOrder.getD i.toNat 0 = order i) {transition : ℕ}
    (hmem : transition ∈ oracle.interestingTransitions conf) :
    ∃ tr, (TransitionSystem.swap oracle.labels)[transition]? = some tr ∧
      Candidate oracle.labels oracle.gold order conf tr := by
  rcases List.mem_append.mp hmem with hshift | hmem
  · obtain ⟨rfl, hcandidate⟩ := candidate_of_mem_shiftIfAny hshift
    exact ⟨_, rfl, hcandidate⟩
  · split at hmem
    · rename_i last prev rest hstack
      rcases List.mem_append.mp hmem with hswap | harcs
      · split at hswap
        · rename_i hswaps
          obtain rfl := List.mem_singleton.mp hswap
          simp only [TreeOracle.swaps, Bool.and_eq_true, decide_eq_true_eq] at hswaps
          rw [horder last (by simp [hstack]), horder prev (by simp [hstack])] at hswaps
          exact ⟨_, rfl, .swap hstack hswaps.1.2⟩
        · cases hswap
      · obtain ⟨i, tr, hcandidate, ⟨rfl, htr⟩ | ⟨rfl, htr⟩⟩ :=
          candidate_of_mem_arcsTo hnodup hstack (List.mem_append.mp harcs)
        · exact ⟨tr, (getElem?_swap oracle.labels i).1.trans htr, hcandidate⟩
        · exact ⟨tr, by rw [← htr, ← (getElem?_swap oracle.labels i).2]; congr 1; omega, hcandidate⟩
    · cases hmem

/-- What the link2 oracle lists are candidates. -/
theorem Link2Oracle.candidate_of_mem (hnodup : labels.Nodup) {transition : ℕ}
    (hmem : transition ∈ interestingTransitions labels gold conf) :
    ∃ tr, (TransitionSystem.link2 labels)[transition]? = some tr ∧
      Candidate labels gold order conf tr := by
  rcases List.mem_append.mp hmem with hshift | harcs
  · obtain ⟨rfl, hcandidate⟩ := candidate_of_mem_shiftIfAny hshift
    exact ⟨_, rfl, hcandidate⟩
  have hnumber := getElem?_link2 labels
  simp only [directions, List.zipIdx_cons, List.zipIdx_nil, List.flatMap_cons, List.flatMap_nil,
    List.append_nil, List.mem_append, Nat.zero_add, Nat.reduceAdd] at harcs
  rcases hstack : conf.stack with _ | ⟨top, _ | ⟨second, rest⟩⟩
  · simp [hstack] at harcs
  · simp [hstack] at harcs
  · rw [hstack, ← or_assoc] at harcs
    rcases harcs with hmem | hmem | hmem
    · obtain ⟨i, tr, hcandidate, ⟨rfl, htr⟩ | ⟨rfl, htr⟩⟩ :=
        candidate_of_mem_arcsTo hnodup hstack (by simpa using hmem)
      · exact ⟨tr, (hnumber i).1.trans htr, hcandidate⟩
      · exact ⟨tr, (hnumber i).2.1.trans htr, hcandidate⟩
    · rcases rest with _ | ⟨child, rest⟩
      · simp at hmem
      simp only [List.getElem?_cons_zero, List.getElem?_cons_succ, le_refl, true_and, ne_eq,
        lt_irrefl, if_false, ite_not] at hmem
      split at hmem
      · obtain ⟨i, hi, hmay, rfl⟩ := mem_arcsTo.mp hmem
        rw [mayList_iff hnodup hi, hstack] at hmay
        refine ⟨_, by rw [(hnumber i).2.2.1, hi]; rfl,
          .leftArc2 hstack (List.mem_of_getElem? hi) fun hsingle => ?_⟩
        rcases hmay hsingle with h | ⟨hlabel, hlength⟩
        · simp at h
        · exact ⟨hlabel, List.ne_nil_of_length_pos (by simpa using hlength)⟩
      · cases hmem
    · rcases rest with _ | ⟨parent, rest⟩
      · simp at hmem
      simp only [List.getElem?_cons_zero, List.getElem?_cons_succ, Nat.reduceLeDiff, true_and,
        ne_eq, Nat.reduceLT, if_false, ite_not] at hmem
      split at hmem
      · obtain ⟨i, hi, hmay, rfl⟩ := mem_arcsTo.mp hmem
        rw [mayList_iff hnodup hi, hstack] at hmay
        refine ⟨_, by rw [(hnumber i).2.2.2, hi]; rfl,
          .rightArc2 hstack (List.mem_of_getElem? hi) fun hsingle => ?_⟩
        rcases hmay hsingle with h | ⟨hlabel, hlength⟩
        · simp at h
        · exact ⟨hlabel, List.ne_nil_of_length_pos (by simpa using hlength)⟩
      · cases hmem

/-- A list with the shift and with the arcs between the two topmost nodes is not empty
before the end. -/
theorem ne_nil_of_arcs (hnodup : labels.Nodup) (h : Explored n gold order conf)
    (hlabelled : ∀ i : ℤ, 1 ≤ i → i ≤ n → gold.deprelOf i ∈ labels)
    (hrooted : conf.singleRoot = true → SingleRooted n gold) (hfinal : conf.final = false)
    {transitions : List ℕ} (number : ℕ → ℕ)
    (hshift : ∀ transition ∈ shiftIfAny conf, transition ∈ transitions)
    (harcs : ∀ top second rest, conf.stack = top :: second :: rest → ∀ transition,
      transition ∈ arcsTo labels gold conf second 0 2 number ∨
        transition ∈ arcsTo labels gold conf top 1 2 number → transition ∈ transitions) :
    transitions ≠ [] := by
  by_cases hbuffer : conf.buffer = []
  · match hstack : conf.stack with
    | [] => simp [Configuration.final, hbuffer, hstack] at hfinal
    | [a] => simp [Configuration.final, hbuffer, hstack] at hfinal
    | top :: second :: rest =>
      obtain ⟨transition, hmem⟩ :=
        exists_mem_arcsTo hnodup h hlabelled hrooted hstack hbuffer number
      exact List.ne_nil_of_mem (harcs top second rest hstack transition hmem)
  · exact List.ne_nil_of_mem (hshift 0 (by simp [shiftIfAny, hbuffer]))

end Lists

/-- Lists of candidates that are not empty before the end are what the training needs. -/
theorem listsApplicable {n : ℕ} {labels : List Bytes} {gold : Tree} (order : ℤ → ℤ)
    (tree : IsTree n gold) (hroot : gold.deprelOf 0 ∉ labels)
    (hleast : ∀ i : ℤ, 1 ≤ i → i ≤ n → order 0 < order i) {single : Bool}
    (hrooted : single = true → SingleRooted n gold) {system : TransitionSystem}
    {interesting : Configuration → List ℕ}
    (hcandidate : ∀ conf, Explored n gold order conf → ∀ transition ∈ interesting conf,
      ∃ tr, system[transition]? = some tr ∧ Candidate labels gold order conf tr)
    (hne : ∀ conf, Explored n gold order conf → conf.singleRoot = single →
      conf.final = false → interesting conf ≠ []) :
    ListsApplicable system interesting (Configuration.init single gold) := by
  have hexplored : ∀ conf, Explores system interesting (Configuration.init single gold) conf →
      Explored n gold order conf ∧ conf.singleRoot = single := by
    intro conf hexplores
    induction hexplores with
    | start => exact ⟨explored_init tree order hrooted, rfl⟩
    | @next conf conf' transition child _ _ hmem hperform ih =>
      obtain ⟨h, hsingle⟩ := ih
      obtain ⟨tr, htr, hcandidate⟩ := hcandidate conf h transition hmem
      have hperform' : tr.perform conf = some (conf', child) := by
        simpa [TransitionSystem.perform, htr] using hperform
      have hstep := step_of_perform (hcandidate.applicable hroot hleast h) hperform'
      exact ⟨hcandidate.explored hroot hleast h hperform',
        (hstep.effect h.consistent.bottom h.consistent.nodup).1.trans hsingle⟩
  refine ⟨fun conf hexplores hfinal => ?_, fun conf hexplores transition hmem => ?_⟩
  · obtain ⟨h, hsingle⟩ := hexplored conf hexplores
    exact hne conf h hsingle hfinal
  · obtain ⟨h, -⟩ := hexplored conf hexplores
    obtain ⟨tr, htr, hcandidate⟩ := hcandidate conf h transition hmem
    simpa [TransitionSystem.applicable, htr] using hcandidate.applicable hroot hleast h

/-! ### Trees that the trainer accepts -/

/-- Labels are collected without repetitions. -/
private theorem labels_foldl (deprels : List Bytes) {labels : List Bytes} (hnodup : labels.Nodup) :
    (deprels.foldl (fun labels deprel => if labels.contains deprel then labels else labels ++ [deprel])
      labels).Nodup ∧
    ∀ label, label ∈ deprels.foldl
      (fun labels deprel => if labels.contains deprel then labels else labels ++ [deprel]) labels ↔
        label ∈ labels ∨ label ∈ deprels := by
  induction deprels generalizing labels with
  | nil => exact ⟨hnodup, by simp⟩
  | cons deprel deprels ih =>
    rw [List.foldl_cons]
    split
    · rename_i hmem
      rw [List.contains_iff_mem] at hmem
      refine ⟨(ih hnodup).1, fun label => ?_⟩
      rw [(ih hnodup).2, List.mem_cons]
      constructor
      · tauto
      · rintro (h | rfl | h)
        · exact .inl h
        · exact .inl hmem
        · exact .inr h
    · rename_i hnot
      rw [List.contains_iff_mem] at hnot
      have hnodup' : (labels ++ [deprel]).Nodup := by
        simpa [List.nodup_append] using ⟨hnodup, fun a ha heq => hnot (heq ▸ ha)⟩
      refine ⟨(ih hnodup').1, fun label => ?_⟩
      rw [(ih hnodup').2, List.mem_append, List.mem_singleton, List.mem_cons, or_assoc]

/-- The labels of the training data are different. -/
theorem nodup_labelsOf (train : List Tree) : (labelsOf train).Nodup :=
  (labels_foldl _ List.nodup_nil).1

/-- The labels are those of the words of the training data. -/
theorem mem_labelsOf {train : List Tree} {label : Bytes} : label ∈ labelsOf train ↔
    ∃ t ∈ train, ∃ node ∈ t.nodes, node.id ≠ 0 ∧ node.deprel = label := by
  rw [labelsOf, (labels_foldl _ List.nodup_nil).2]
  simp [and_assoc]

/-- No label is empty. -/
theorem nil_notMem_labelsOf {single : Bool} {train : List Tree}
    (hchecks : trainFailure single train = none) : [] ∉ labelsOf train := by
  rw [mem_labelsOf]
  rintro ⟨t, ht, node, hnode, hid, hdeprel⟩
  rw [trainFailure, Option.or_eq_none_iff, List.findSome?_eq_none_iff] at hchecks
  have hlink := hchecks.1 t ht
  rw [linkFailureOf, List.findSome?_eq_none_iff] at hlink
  have hlink' := hlink node (List.mem_filter.mpr ⟨hnode, by simpa using hid⟩)
  simp only [hdeprel, if_true] at hlink'
  split at hlink' <;> cases hlink'

/-- The trees that the trainer accepts have known labels. -/
theorem TrainingTree.goldTree {n : ℕ} {gold : Tree} (h : TrainingTree n gold) {train : List Tree}
    (hmem : gold ∈ train) : GoldTree n (labelsOf train) gold where
  toIsTree := h.toIsTree
  numbered := h.numbered
  labelled i hi hn := by
    have hsize := h.size
    obtain ⟨node, hnode, hid, -, hdeprel⟩ := Tree.exists_node h.numbered (by omega : 0 ≤ i)
      (by omega)
    exact mem_labelsOf.mpr ⟨gold, hmem, node, hnode, by omega, hdeprel⟩

/-- In every run that performs listed transitions, what the static oracles list is
applicable, and not empty before the end. -/
theorem interestingTransitions_applicable {n : ℕ} {gold : Tree} {train : List Tree} (single : Bool)
    (h : TrainingTree n gold) (hmem : gold ∈ train) (hchecks : trainFailure single train = none) :
    ListsApplicable (.projective (labelsOf train))
        (ProjectiveOracle.interestingTransitions (labelsOf train) gold)
        (Configuration.init single gold) ∧
      (∀ lazy start, ListsApplicable (.swap (labelsOf train))
        (SwapOracle.createTreeOracle (labelsOf train) lazy start gold).interestingTransitions
        (Configuration.init single gold)) ∧
      ListsApplicable (.link2 (labelsOf train))
        (Link2Oracle.interestingTransitions (labelsOf train) gold)
        (Configuration.init single gold) := by
  have tree := h.toIsTree
  have hgold := h.goldTree hmem
  have hnodup := nodup_labelsOf train
  have hroot : gold.deprelOf 0 ∉ labelsOf train :=
    h.deprelOf_root ▸ nil_notMem_labelsOf hchecks
  have hrooted : single = true → SingleRooted n gold := by
    rintro rfl
    rw [trainFailure, Option.or_eq_none_iff] at hchecks
    exact hgold.singleRooted hmem (by simpa using hchecks.2)
  refine ⟨?_, fun lazy start => ?_, ?_⟩
  · refine listsApplicable id tree hroot (fun i hi _ => hi) hrooted
      (fun conf hconf transition => ProjectiveOracle.candidate_of_mem hnodup)
      fun conf hconf hs hf => ?_
    refine ne_nil_of_arcs hnodup hconf hgold.labelled (fun h => hrooted (hs ▸ h)) hf (1 + 2 * ·)
      (fun _ => List.mem_append_left _) fun top second rest hstack transition harc => ?_
    refine List.mem_append_right _ ?_
    rw [hstack]
    exact List.mem_append.mpr harc
  · obtain ⟨-, horder⟩ := @SwapOracle.createTreeOracle_order n (labelsOf train) lazy start gold tree
    refine listsApplicable (SwapOracle.orderOf gold start) tree hroot
      (fun i hi hn => SwapOracle.order_root_least tree start hi hn) hrooted
      (fun conf hconf transition => SwapOracle.TreeOracle.candidate_of_mem hnodup fun i hi => ?_)
      fun conf hconf hs hf => ?_
    · have hi' := (hconf.consistent.mem_pending i).mp (List.mem_append_left _ hi)
      exact horder i hi'.1 hi'.2.1
    · refine ne_nil_of_arcs hnodup hconf hgold.labelled (fun h => hrooted (hs ▸ h)) hf (2 + 2 * ·)
        (fun _ => List.mem_append_left _) fun top second rest hstack transition harc => ?_
      refine List.mem_append_right _ ?_
      rw [hstack]
      exact List.mem_append_right _ (List.mem_append.mpr harc)
  · refine listsApplicable id tree hroot (fun i hi _ => hi) hrooted
      (fun conf hconf transition => Link2Oracle.candidate_of_mem hnodup)
      fun conf hconf hs hf => ?_
    refine ne_nil_of_arcs hnodup hconf hgold.labelled (fun h => hrooted (hs ▸ h)) hf (1 + 4 * ·)
      (fun _ => List.mem_append_left _) fun top second rest hstack transition harc => ?_
    refine List.mem_append_right _ ?_
    simp only [Link2Oracle.directions, List.zipIdx_cons, List.zipIdx_nil, List.flatMap_cons,
      hstack, List.mem_append]
    rcases harc with harc | harc
    · exact .inl (by simpa using harc)
    · exact .inr (.inl (by simpa using harc))

/-- A tree with nested arcs. -/
theorem interestingTransitions_applicable_nested :
    ListsApplicable (.projective (labelsOf [nested]))
        (ProjectiveOracle.interestingTransitions (labelsOf [nested]) nested)
        (Configuration.init true nested) ∧
      (∀ lazy start, ListsApplicable (.swap (labelsOf [nested]))
        (SwapOracle.createTreeOracle (labelsOf [nested]) lazy start nested).interestingTransitions
        (Configuration.init true nested)) ∧
      ListsApplicable (.link2 (labelsOf [nested]))
        (Link2Oracle.interestingTransitions (labelsOf [nested]) nested)
        (Configuration.init true nested) :=
  interestingTransitions_applicable true
    ⟨goldTree_nested.toIsTree, goldTree_nested.numbered, by decide⟩ (by simp) (by decide)

end UDPipe.Parsito
