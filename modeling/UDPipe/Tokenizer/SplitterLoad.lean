import UDPipe.BinaryCoder
import UDPipe.Tokenizer.Splitter

/-!
# Loading a multiword splitter

`multiword_splitter::load` of `tokenizer/multiword_splitter.cpp`. The rules are stored under
their reversed keys, the suffix rules together with all beginnings of their keys, so that a
search that extends a suffix byte by byte comes to every rule. The decompression of the
stream is a parameter.
-/

namespace UDPipe

namespace MultiwordSplitter

/-- A rule as it is saved: its key and its words. -/
abbrev SavedRule := Bytes × List Bytes

/-! ### Reading rules -/

/-- The method `next_str` of the decoder. -/
def nextStr (data : Bytes) : Option (Bytes × Bytes) := do
  let (len, data) ← next1B data
  let (len, data) ← if len = 255 then next4B data else some (len, data)
  nextBytes len data

/-- Several strings. -/
def nextStrs : ℕ → Bytes → Option (List Bytes × Bytes)
  | 0, data => some ([], data)
  | count + 1, data => do
    let (str, data) ← nextStr data
    let (strs, data) ← nextStrs count data
    some (str :: strs, data)

/-- A key with its words. -/
def nextRule (data : Bytes) : Option (SavedRule × Bytes) := do
  let (key, data) ← nextStr data
  let (count, data) ← next1B data
  let (words, data) ← nextStrs count data
  some ((key, words), data)

/-! ### The tables -/

/-- An `unordered_map` from reversed keys to words. -/
abbrev RuleTable := Bytes → Option (List Bytes)

/-- Append words to the value of a key, which is made if it is not there. -/
def appendWords (key : Bytes) (words : List Bytes) (table : RuleTable) : RuleTable :=
  fun k => if k = key then some ((table key).getD [] ++ words) else table k

/-- A table in which no rule is without words. -/
structure FullRules where
  table : RuleTable := fun _ => none
  nonempty : ∀ key, table key ≠ some [] := by simp

/-- Add a full rule; it is refused if it has no words. -/
def FullRules.add (key : Bytes) (words : List Bytes) (rules : FullRules) : Option FullRules :=
  if h : (rules.table key).getD [] ++ words = [] then none
  else some
    { table := appendWords key words rules.table
      nonempty := fun k hk => by
        unfold appendWords at hk
        split at hk
        · exact h (Option.some.inj hk)
        · exact rules.nonempty k hk }

/-- Make an empty value for the beginnings of a key, from `size` bytes down. -/
def addPrefixes (key : Bytes) : ℕ → RuleTable → RuleTable
  | 0, table => table
  | size + 1, table => addPrefixes key size (appendWords (key.take (size + 1)) [] table)

/-- Add a suffix rule, also with the beginnings of its key. -/
def addSuffix (key : Bytes) (words : List Bytes) (table : RuleTable) : Option RuleTable :=
  let table := appendWords key words table
  if table key = some [] then none else some (addPrefixes key (key.length - 1) table)

/-- The loop over the full rules. -/
def loadFull : ℕ → FullRules → Bytes → Option (FullRules × Bytes)
  | 0, rules, data => some (rules, data)
  | count + 1, rules, data => do
    let ((key, words), data) ← nextRule data
    let rules ← rules.add key.reverse words
    loadFull count rules data

/-- The loop over the suffix rules. -/
def loadSuffix : ℕ → RuleTable → Bytes → Option (RuleTable × Bytes)
  | 0, table, data => some (table, data)
  | count + 1, table, data => do
    let ((key, words), data) ← nextRule data
    let table ← addSuffix key.reverse words table
    loadSuffix count table data

/-- The suffix rules, which there are from version 2 on. -/
def loadSuffixRules (version : ℕ) (data : Bytes) : Option (RuleTable × Bytes) :=
  if 2 ≤ version then do
    let (count, data) ← next4B data
    loadSuffix count (fun _ => none) data
  else some (fun _ => none, data)

/-- `VERSION_LATEST`. -/
def versionLatest : ℕ := 2

/-- `multiword_splitter::load`. -/
def load (tables : Unicode) (decompress : Bytes → Option Bytes) :
    Bytes → Option MultiwordSplitter
  | [] => none
  | first :: stream =>
    let version := first.toNat
    if 1 ≤ version ∧ version ≤ versionLatest then do
      let data ← decompress stream
      let (count, data) ← next4B data
      let (full, data) ← loadFull count {} data
      let (suffix, data) ← loadSuffixRules version data
      if data = [] then some ⟨version, full.table, suffix, tables, full.nonempty⟩ else none
    else none

/-! ### What a file holds -/

/-- The rules at the beginning of the data. -/
def nextRules : ℕ → Bytes → Option (List SavedRule × Bytes)
  | 0, data => some ([], data)
  | count + 1, data => do
    let (rule, data) ← nextRule data
    let (rules, data) ← nextRules count data
    some (rule :: rules, data)

/-- A list of rules with its length. -/
def nextList (data : Bytes) : Option (List SavedRule × Bytes) := do
  let (count, data) ← next4B data
  nextRules count data

/-- A saved splitter of a version, with its full rules and its suffix rules. -/
structure Saved (decompress : Bytes → Option Bytes) (stream : Bytes) (version : ℕ)
    (full suffix : List SavedRule) : Prop where
  holds : ∃ first packed data rest, stream = first :: packed ∧ first.toNat = version ∧
    decompress packed = some data ∧ nextList data = some (full, rest) ∧
    if 2 ≤ version then nextList rest = some (suffix, []) else suffix = [] ∧ rest = []
  full_keys : (full.map Prod.fst).Nodup
  suffix_keys : (suffix.map Prod.fst).Nodup

/-! ### Full rules -/

/-- A table has exactly these rules. -/
def Represents (table : RuleTable) (rules : List SavedRule) : Prop :=
  ∀ key words, table key.reverse = some words ↔ (key, words) ∈ rules

/-- Words of another key are not changed. -/
theorem appendWords_of_ne {key k : Bytes} (h : k ≠ key) (words : List Bytes) (table : RuleTable) :
    appendWords key words table k = table k := if_neg h

/-- Words are added behind those of the key. -/
theorem appendWords_self (key : Bytes) (words : List Bytes) (table : RuleTable) :
    appendWords key words table key = some ((table key).getD [] ++ words) := if_pos rfl

/-- Different keys are different from behind. -/
theorem reverse_ne_reverse {key key' : Bytes} (h : key ≠ key') : key.reverse ≠ key'.reverse :=
  fun heq => h (List.reverse_injective heq)

/-- A rule that is loaded is represented. -/
theorem Represents.append {table : RuleTable} {rules : List SavedRule}
    (h : Represents table rules) {key : Bytes} (hkey : key ∉ rules.map Prod.fst)
    (words : List Bytes) :
    Represents (appendWords key.reverse words table) (rules ++ [(key, words)]) := by
  have hnone : table key.reverse = none := by
    refine Option.eq_none_iff_forall_ne_some.mpr fun found hfound => hkey ?_
    exact List.mem_map_of_mem ((h key found).mp hfound)
  intro key' words'
  rw [List.mem_append, List.mem_singleton, Prod.mk.injEq]
  by_cases heq : key' = key
  · subst heq
    rw [appendWords_self, hnone, Option.getD_none, List.nil_append, Option.some.injEq]
    constructor
    · rintro rfl
      exact .inr ⟨rfl, rfl⟩
    · rintro (hold | ⟨-, rfl⟩)
      · exact absurd (List.mem_map_of_mem hold) hkey
      · rfl
  · rw [appendWords_of_ne (reverse_ne_reverse heq), h]
    exact ⟨.inl, fun hor => hor.resolve_right fun hnew => heq hnew.1⟩

/-- A loop that adds the rules of the data one by one keeps what every addition of a rule with
a new key keeps. -/
theorem loadRules_spec {State : Type} {load : ℕ → State → Bytes → Option (State × Bytes)}
    {add : Bytes → List Bytes → State → Option State} {Has : State → List SavedRule → Prop}
    (hzero : ∀ state data, load 0 state data = some (state, data))
    (hsucc : ∀ count state data, load (count + 1) state data = (do
      let ((key, words), data) ← nextRule data
      let state ← add key words state
      load count state data))
    (hadd : ∀ {state state' done key words}, Has state done → key ∉ done.map Prod.fst →
      add key words state = some state' → Has state' (done ++ [(key, words)]))
    {count : ℕ} {rules done : List SavedRule} {state state' : State} {data rest rest' : Bytes}
    (hread : nextRules count data = some (rules, rest))
    (hload : load count state data = some (state', rest')) (hdone : Has state done)
    (hkeys : ((done ++ rules).map Prod.fst).Nodup) : rest' = rest ∧ Has state' (done ++ rules) := by
  induction count generalizing rules state data done with
  | zero =>
    rw [hzero] at hload
    obtain ⟨rfl, rfl⟩ := Prod.mk.inj (Option.some.inj hread)
    obtain ⟨rfl, rfl⟩ := Prod.mk.inj (Option.some.inj hload)
    rw [List.append_nil]
    exact ⟨rfl, hdone⟩
  | succ count ih =>
    rw [hsucc] at hload
    simp only [nextRules, Option.bind_eq_bind, Option.bind_eq_some_iff, Option.some.injEq,
      Prod.mk.injEq, Prod.exists] at hread hload
    obtain ⟨key, words, data', hrule, rules', rest'', hrules, rfl, rfl⟩ := hread
    obtain ⟨key', words', data'', hrule', state'', hnext, hrest⟩ := hload
    obtain ⟨⟨rfl, rfl⟩, rfl⟩ := by simpa using hrule.symm.trans hrule'
    have happend : done ++ (key, words) :: rules' = done ++ [(key, words)] ++ rules' := by simp
    rw [happend] at hkeys ⊢
    have hnew : key ∉ done.map Prod.fst := by
      intro hmem
      rw [List.append_assoc, List.map_append, List.nodup_append] at hkeys
      exact hkeys.2.2 key hmem key (by simp) rfl
    exact ih hrules hrest (hadd hdone hnew hnext) hkeys

/-- Loading the full rules represents them. -/
theorem loadFull_spec {count : ℕ} {rules : List SavedRule} {loaded loaded' : FullRules}
    {data rest rest' : Bytes} {done : List SavedRule}
    (hread : nextRules count data = some (rules, rest))
    (hload : loadFull count loaded data = some (loaded', rest'))
    (hdone : Represents loaded.table done) (hkeys : ((done ++ rules).map Prod.fst).Nodup) :
    rest' = rest ∧ Represents loaded'.table (done ++ rules) := by
  refine @loadRules_spec _ loadFull (fun key words => FullRules.add key.reverse words)
    (fun loaded => Represents loaded.table) (fun _ _ => rfl) (fun _ _ _ => rfl) ?_ _ _ _ _ _ _ _ _
    hread hload hdone hkeys
  intro state state' done key words hstate hnew hadd
  rw [FullRules.add] at hadd
  split at hadd
  · cases hadd
  · obtain rfl := Option.some.inj hadd
    exact hstate.append hnew words

/-! ### Suffix rules -/

/-- A table has these rules, and with every key all of its beginnings. -/
structure SuffixRepresents (table : RuleTable) (rules : List SavedRule) : Prop where
  rules_iff : ∀ key words, words ≠ [] → (table key.reverse = some words ↔ (key, words) ∈ rules)
  words_ne_nil : ∀ rule ∈ rules, rule.2 ≠ []
  closed : ∀ key size, 0 < size → table key ≠ none → table (key.take size) ≠ none

/-- A prefix of the key is in the table without words, unless it was there. -/
theorem addPrefixes_eq (key : Bytes) (size : ℕ) (table : RuleTable) (k : Bytes) :
    (∃ words, table k = some words ∧ addPrefixes key size table k = some words) ∨
      table k = none ∧ ((∃ n, 0 < n ∧ n ≤ size ∧ k = key.take n) ∧
        addPrefixes key size table k = some [] ∨
        (¬ ∃ n, 0 < n ∧ n ≤ size ∧ k = key.take n) ∧ addPrefixes key size table k = none) := by
  induction size generalizing table with
  | zero =>
    cases h : table k with
    | none =>
      refine .inr ⟨rfl, .inr ⟨?_, h⟩⟩
      rintro ⟨n, hpos, hle, -⟩
      omega
    | some words => exact .inl ⟨words, rfl, h⟩
  | succ size ih =>
    rw [addPrefixes]
    by_cases hk : k = key.take (size + 1)
    · have hself : appendWords (key.take (size + 1)) [] table k = some ((table k).getD []) := by
        rw [hk, appendWords_self, List.append_nil]
      rcases ih (appendWords (key.take (size + 1)) [] table) with ⟨words, hwords, hadd⟩ | ⟨hnone, -⟩
      · rw [hself] at hwords
        obtain rfl := Option.some.inj hwords
        cases h : table k with
        | none =>
          refine .inr ⟨rfl, .inl ⟨⟨size + 1, Nat.succ_pos size, le_rfl, hk⟩, ?_⟩⟩
          rw [hadd, h, Option.getD_none]
        | some words =>
          refine .inl ⟨words, rfl, ?_⟩
          rw [hadd, h, Option.getD_some]
      · rw [hself] at hnone
        cases hnone
    · have hother : appendWords (key.take (size + 1)) [] table k = table k :=
        appendWords_of_ne hk [] table
      have hbound : (∃ n, 0 < n ∧ n ≤ size + 1 ∧ k = key.take n) ↔
          ∃ n, 0 < n ∧ n ≤ size ∧ k = key.take n := by
        constructor
        · rintro ⟨n, hpos, hle, heq⟩
          refine ⟨n, hpos, Nat.le_of_lt_succ (lt_of_le_of_ne hle ?_), heq⟩
          rintro rfl
          exact hk heq
        · rintro ⟨n, hpos, hle, heq⟩
          exact ⟨n, hpos, hle.trans (Nat.le_succ size), heq⟩
      rw [hbound, ← hother]
      exact ih _

/-- Which keys there are after a suffix rule was added. -/
theorem addSuffix_ne_none_iff {key : Bytes} {words : List Bytes} {table table' : RuleTable}
    (h : addSuffix key words table = some table') (k : Bytes) :
    table' k ≠ none ↔ table k ≠ none ∨ k = key ∨ ∃ n, 0 < n ∧ k = key.take n := by
  unfold addSuffix at h
  dsimp only at h
  split at h
  · cases h
  · obtain rfl := Option.some.inj h
    have happend : appendWords key words table k ≠ none ↔ table k ≠ none ∨ k = key := by
      by_cases hk : k = key
      · simp [appendWords, hk]
      · simp [appendWords, hk]
    rcases addPrefixes_eq key (key.length - 1) (appendWords key words table) k with
      ⟨found, hfound, hadd⟩ | ⟨hnone, ⟨hinner, hadd⟩ | ⟨hinner, hadd⟩⟩
    · have hthere : appendWords key words table k ≠ none := by simp [hfound]
      rw [hadd, ← or_assoc, ← happend]
      simp [hthere]
    · obtain ⟨n, hpos, -, heq⟩ := hinner
      rw [hadd]
      exact ⟨fun _ => .inr (.inr ⟨n, hpos, heq⟩), fun _ => by simp⟩
    · rw [hadd, ← or_assoc, ← happend]
      constructor
      · exact fun hne => absurd rfl hne
      · rintro (hthere | ⟨n, hpos, heq⟩)
        · exact absurd hnone hthere
        · exfalso
          by_cases hle : n ≤ key.length - 1
          · exact hinner ⟨n, hpos, hle, heq⟩
          · rw [List.take_of_length_le (by omega)] at heq
            exact absurd hnone (happend.mpr (.inr heq))

/-- The words of the other keys stay, and the words of the key are added. -/
theorem addSuffix_eq_some {key : Bytes} {words : List Bytes} {table table' : RuleTable}
    (h : addSuffix key words table = some table') {k : Bytes} {found : List Bytes}
    (hne : found ≠ []) : table' k = some found ↔ appendWords key words table k = some found := by
  unfold addSuffix at h
  dsimp only at h
  split at h
  · cases h
  · obtain rfl := Option.some.inj h
    rcases addPrefixes_eq key (key.length - 1) (appendWords key words table) k with
      ⟨found', hfound, hadd⟩ | ⟨hnone, ⟨-, hadd⟩ | ⟨-, hadd⟩⟩
    · rw [hfound, hadd]
    · rw [hnone, hadd]
      constructor
      · intro heq
        exact absurd (Option.some.inj heq).symm hne
      · intro heq
        cases heq
    · rw [hnone, hadd]

/-- A suffix rule that is loaded is represented. -/
theorem SuffixRepresents.append {table table' : RuleTable} {rules : List SavedRule}
    (h : SuffixRepresents table rules) {key : Bytes} (hkey : key ∉ rules.map Prod.fst)
    {words : List Bytes} (hadd : addSuffix key.reverse words table = some table') :
    SuffixRepresents table' (rules ++ [(key, words)]) := by
  have hold : (table key.reverse).getD [] = [] := by
    cases hfound : table key.reverse with
    | none => rfl
    | some found =>
      by_contra hne
      exact hkey (List.mem_map_of_mem ((h.rules_iff key found hne).mp hfound))
  have hself : appendWords key.reverse words table key.reverse = some words := by
    rw [appendWords_self, hold, List.nil_append]
  have hwords : words ≠ [] := by
    rintro rfl
    unfold addSuffix at hadd
    rw [if_pos hself] at hadd
    cases hadd
  refine ⟨fun key' words' hne => ?_, fun rule hrule => ?_, fun k size hpos hthere => ?_⟩
  · rw [addSuffix_eq_some hadd hne, List.mem_append, List.mem_singleton, Prod.mk.injEq]
    by_cases heq : key' = key
    · subst heq
      rw [hself, Option.some.injEq]
      constructor
      · rintro rfl
        exact .inr ⟨rfl, rfl⟩
      · rintro (hmem | ⟨-, rfl⟩)
        · exact absurd (List.mem_map_of_mem hmem) hkey
        · rfl
    · rw [appendWords_of_ne (reverse_ne_reverse heq), h.rules_iff key' words' hne]
      exact ⟨.inl, fun hor => hor.resolve_right fun hnew => heq hnew.1⟩
  · rcases List.mem_append.mp hrule with hmem | hmem
    · exact h.words_ne_nil rule hmem
    · obtain rfl := List.mem_singleton.mp hmem
      exact hwords
  · rw [addSuffix_ne_none_iff hadd] at hthere ⊢
    rcases hthere with hthere | rfl | ⟨n, hn, rfl⟩
    · exact .inl (h.closed k size hpos hthere)
    · exact .inr (.inr ⟨size, hpos, rfl⟩)
    · rw [List.take_take]
      exact .inr (.inr ⟨min size n, lt_min hpos hn, rfl⟩)

/-- Loading the suffix rules represents them. -/
theorem loadSuffix_spec {count : ℕ} {rules : List SavedRule} {table table' : RuleTable}
    {data rest rest' : Bytes} {done : List SavedRule}
    (hread : nextRules count data = some (rules, rest))
    (hload : loadSuffix count table data = some (table', rest'))
    (hdone : SuffixRepresents table done) (hkeys : ((done ++ rules).map Prod.fst).Nodup) :
    rest' = rest ∧ SuffixRepresents table' (done ++ rules) :=
  @loadRules_spec _ loadSuffix (fun key words => addSuffix key.reverse words) SuffixRepresents
    (fun _ _ => rfl) (fun _ _ _ => rfl) (fun hstate hnew hadd => hstate.append hnew hadd)
    _ _ _ _ _ _ _ _ hread hload hdone hkeys

/-! ### The loaded splitter -/

/-- The empty table represents no rules. -/
theorem represents_nil : Represents (fun _ => none) [] := by
  intro key words
  simp

/-- The empty table represents no suffix rules. -/
theorem suffixRepresents_nil : SuffixRepresents (fun _ => none) [] :=
  ⟨fun key words _ => by simp, List.forall_mem_nil _, fun _ _ _ hthere => hthere⟩

/-- What the splitter of a saved file has. -/
structure LoadedFrom (splitter : MultiwordSplitter) (tables : Unicode) (version : ℕ)
    (full suffix : List SavedRule) : Prop where
  tables_eq : splitter.tables = tables
  version_eq : splitter.version = version
  full : Represents splitter.fullRules full
  suffix : SuffixRepresents splitter.suffixRules suffix

/-- A splitter has the rules of the file it is loaded from. -/
theorem loadedFrom_of_saved {tables : Unicode} {decompress : Bytes → Option Bytes}
    {stream : Bytes} {version : ℕ} {full suffix : List SavedRule} {splitter : MultiwordSplitter}
    (hsaved : Saved decompress stream version full suffix)
    (hload : load tables decompress stream = some splitter) :
    LoadedFrom splitter tables version full suffix := by
  obtain ⟨⟨first, packed, data, rest, rfl, rfl, hunpacked, hfull, hsuffix⟩, hkeys, hkeys'⟩ := hsaved
  unfold load at hload
  dsimp only at hload
  split at hload
  · simp only [hunpacked, Option.bind_eq_bind, Option.bind_some, Option.bind_eq_some_iff,
      Prod.exists, nextList] at hload hfull
    obtain ⟨count, data', hcount, loaded, data'', hloaded, table, data''', htable, hend⟩ := hload
    obtain ⟨count', data4, hcount', hrules⟩ := hfull
    obtain ⟨rfl, rfl⟩ := by simpa using hcount.symm.trans hcount'
    obtain ⟨rfl, hrepresents⟩ := loadFull_spec hrules hloaded represents_nil (by simpa using hkeys)
    split at hend
    · rename_i hnil
      obtain rfl := Option.some.inj hend
      refine ⟨rfl, rfl, by simpa using hrepresents, ?_⟩
      unfold loadSuffixRules at htable
      split at htable
      · rename_i hversion
        rw [if_pos hversion] at hsuffix
        simp only [Option.bind_eq_bind, Option.bind_eq_some_iff, Prod.exists, nextList]
          at htable hsuffix
        obtain ⟨count'', data5, hcount'', hsuffixes⟩ := htable
        obtain ⟨count3, data6, hcount3, hrules'⟩ := hsuffix
        obtain ⟨rfl, rfl⟩ := by simpa using hcount''.symm.trans hcount3
        obtain ⟨-, hrepresents'⟩ := loadSuffix_spec hrules' hsuffixes suffixRepresents_nil
          (by simpa using hkeys')
        simpa using hrepresents'
      · rename_i hversion
        rw [if_neg hversion] at hsuffix
        obtain ⟨rfl, rfl⟩ := Prod.mk.inj (Option.some.inj htable)
        rw [hsuffix.1]
        exact suffixRepresents_nil
    · cases hend
  · cases hload

end MultiwordSplitter

end UDPipe
