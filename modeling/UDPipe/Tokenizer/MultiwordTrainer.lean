import UDPipe.Tokenizer.SplitterRules
import UDPipe.LineFormats.Readers
import Mathlib.Data.Nat.Find

/-!
# Training of the multiword splitter

`multiword_splitter_trainer::train` of `tokenizer/multiword_splitter_trainer.cpp` up to the
encoding. Every multiword token of the data is a full rule; from a full rule, suffix rules
are derived by cutting the same number of bytes off the form and off its first word. The bytes
are never compared, so what is cut off the word can differ from what is cut off the form.
-/

namespace UDPipe.MultiwordTrainer

open Utf8
open MultiwordSplitter (lowercaseTables)

/-- The struct `rule_info`. -/
structure RuleInfo where
  words : List Bytes := []
  count : ℕ := 0
  deriving DecidableEq, Repr

/-- A `map<string, rule_info>`, in the order of its keys. -/
abbrev RuleMap := List (Bytes × RuleInfo)

/-- Count a rule; the first words that are seen stay. -/
def RuleInfo.add (words : List Bytes) (info : RuleInfo) : RuleInfo :=
  let kept := if info.words = [] then words else info.words
  ⟨kept, (info.count + if words = kept then 1 else 0) % unsignedValues⟩

/-- A rule, unless its count is zero. -/
def counted (key : Bytes) (info : RuleInfo) : RuleMap :=
  if info.count = 0 then [] else [(key, info)]

/-- Add a rule to a map. -/
def addRule (key : Bytes) (words : List Bytes) : RuleMap → RuleMap
  | [] => counted key (RuleInfo.add words {})
  | (key', info) :: rules =>
    if key = key' then counted key (info.add words) ++ rules
    else if key < key' then counted key (RuleInfo.add words {}) ++ (key', info) :: rules
    else (key', info) :: addRule key words rules

/-- Lower the count of a rule, and remove the rule if it is not larger. -/
def discount (amount : ℕ) (key : Bytes) (rules : RuleMap) : RuleMap :=
  rules.filterMap fun rule =>
    if rule.1 = key then
      if rule.2.count ≤ amount then none
      else some (rule.1, { rule.2 with count := rule.2.count - amount })
    else some rule

section Train

variable (tables : Unicode)

/-- A form in lowercase. -/
def lowercased (form : Bytes) : Bytes := mapToZero tables.lowercase form

/-- The words of a multiword token in lowercase. -/
def wordsOf (s : Sentence) (token : MultiwordToken) : List Bytes :=
  ((s.words.take (token.idLast + 1).toNat).drop token.idFirst.toNat).map fun word =>
    lowercased tables word.form

/-- The full rules of all multiword tokens. -/
def fullRules (data : List Sentence) : RuleMap :=
  data.foldl (fun rules s => s.multiwordTokens.foldl (fun rules token =>
    addRule (lowercased tables token.form) (wordsOf tables s token) rules) rules) []

/-- The words from word `i` on that no multiword token covers. -/
def singleWords : List Word → ℕ → ℤ → List MultiwordToken → List Word
  | [], _, _, _ => []
  | word :: words, i, covered, tokens =>
    if i ≤ covered then singleWords words (i + 1) covered tokens
    else
      match tokens with
      | [] => word :: singleWords words (i + 1) covered []
      | token :: rest =>
        if token.idFirst = i then singleWords words (i + 1) token.idLast rest
        else word :: singleWords words (i + 1) covered (token :: rest)

/-- The lowercase forms of the words outside of multiword tokens. -/
def singleForms (data : List Sentence) : List Bytes :=
  data.flatMap fun s =>
    (singleWords (s.words.drop 1) 1 0 s.multiwordTokens).map fun word => lowercased tables word.form

/-- The full rules without the ones that trigger too negatively. -/
def keptFullRules (data : List Sentence) : RuleMap :=
  (singleForms tables data).foldl (fun rules form => discount 1 form rules) (fullRules tables data)

end Train

/-! ### Suffix rules -/

/-- A suffix rule with the number of bytes that are cut off. -/
structure DerivedRule where
  cut : ℕ
  suffix : Bytes
  words : List Bytes
  deriving DecidableEq, Repr

/-- No character of the form is cut here; the end of the form counts as one. -/
def isBoundary (form : Bytes) (cut : ℕ) : Bool :=
  match form[cut]? with
  | none => true
  | some c => c < 0x80 || 0xC0 ≤ c

/-- The words without a beginning of the first one. -/
def cutFirst (cut : ℕ) : List Bytes → List Bytes
  | [] => []
  | first :: rest => first.drop cut :: rest

/-- The loop that counts the bytes which both of the strings have. -/
def prefixMatch : Bytes → Bytes → ℕ
  | _ :: form, _ :: word => prefixMatch form word + 1
  | _, _ => 0

/-- The loop over the cuts, from the largest one down. -/
def deriveFrom (form : Bytes) (words : List Bytes) : ℕ → List DerivedRule
  | 0 => []
  | cut + 1 =>
    if isBoundary form (cut + 1) then
      ⟨cut + 1, form.drop (cut + 1), cutFirst (cut + 1) words⟩ :: deriveFrom form words cut
    else deriveFrom form words cut

/-- The suffix rules that are derived from a full rule. -/
def derivedRules (form : Bytes) (words : List Bytes) : List DerivedRule :=
  deriveFrom form words (prefixMatch form (words.headD []))

/-- The suffix rules of all full rules. -/
def suffixRules (full : RuleMap) : RuleMap :=
  full.foldl (fun rules rule => (derivedRules rule.1 rule.2.words).foldl (fun rules derived =>
    addRule derived.suffix derived.words rules) rules) []

/-- The suffixes that are looked up for a word, from the longest one on. -/
def properSuffixes : Bytes → List Bytes
  | [] => []
  | [_] => []
  | _ :: c :: form => (c :: form) :: properSuffixes (c :: form)

/-- The suffix rules without the ones that trigger too negatively. -/
def keptSuffixRules (tables : Unicode) (data : List Sentence) : RuleMap :=
  ((singleForms tables data).flatMap properSuffixes).foldl (fun rules suffix =>
    discount 10 suffix rules) (suffixRules (keptFullRules tables data))

/-! ### Every suffix rule is derived -/

/-- A counted rule is the one of its key. -/
theorem mem_counted {key : Bytes} {info : RuleInfo} {rule : Bytes × RuleInfo}
    (h : rule ∈ counted key info) : rule = (key, info) := by
  unfold counted at h
  split at h
  · cases h
  · exact List.mem_singleton.mp h

/-- Adding keeps the words or takes the new ones. -/
theorem RuleInfo.words_add (words : List Bytes) (info : RuleInfo) :
    (info.add words).words = words ∨ (info.add words).words = info.words := by
  unfold RuleInfo.add
  dsimp only
  split
  · exact .inl rfl
  · exact .inr rfl

/-- A rule of the map was there with the same words, or it is the one that is added. -/
theorem mem_addRule {key : Bytes} {words : List Bytes} {rules : RuleMap} {rule : Bytes × RuleInfo}
    (h : rule ∈ addRule key words rules) :
    (rule.1 = key ∧ rule.2.words = words) ∨
      ∃ rule' ∈ rules, rule'.1 = rule.1 ∧ rule'.2.words = rule.2.words := by
  have hadded : rule ∈ counted key (RuleInfo.add words {}) → rule.1 = key ∧ rule.2.words = words := by
    intro hmem
    obtain rfl := mem_counted hmem
    refine ⟨rfl, ?_⟩
    have hnew : (RuleInfo.add words {}).words = if ([] : List Bytes) = [] then words else [] := rfl
    exact hnew.trans (if_pos rfl)
  induction rules with
  | nil => exact .inl (hadded h)
  | cons head rules ih =>
    obtain ⟨key', info⟩ := head
    rw [addRule] at h
    split_ifs at h with heq hlt
    · rcases List.mem_append.mp h with hmem | hmem
      · obtain rfl := mem_counted hmem
        rcases info.words_add words with hnew | hold
        · exact .inl ⟨rfl, hnew⟩
        · exact .inr ⟨(key', info), List.mem_cons_self, heq.symm, hold.symm⟩
      · exact .inr ⟨rule, List.mem_cons_of_mem _ hmem, rfl, rfl⟩
    · rcases List.mem_append.mp h with hmem | hmem
      · exact .inl (hadded hmem)
      · exact .inr ⟨rule, hmem, rfl, rfl⟩
    · rcases List.mem_cons.mp h with rfl | hmem
      · exact .inr ⟨_, List.mem_cons_self, rfl, rfl⟩
      · rcases ih hmem with hnew | ⟨rule', hrule', hsame⟩
        · exact .inl hnew
        · exact .inr ⟨rule', List.mem_cons_of_mem _ hrule', hsame⟩

/-- Discounted rules have their keys and words. -/
theorem mem_discount {amount : ℕ} {key : Bytes} {rules : RuleMap} {rule : Bytes × RuleInfo}
    (h : rule ∈ discount amount key rules) :
    ∃ rule' ∈ rules, rule'.1 = rule.1 ∧ rule'.2.words = rule.2.words := by
  obtain ⟨rule', hrule', hsome⟩ := List.mem_filterMap.mp h
  refine ⟨rule', hrule', ?_⟩
  split_ifs at hsome
  · obtain rfl := Option.some.inj hsome
    exact ⟨rfl, rfl⟩
  · obtain rfl := Option.some.inj hsome
    exact ⟨rfl, rfl⟩

/-- What holds of the keys and the words of all rules is kept by discounts. -/
theorem foldl_discount {P : Bytes → List Bytes → Prop} {amount : ℕ} {keys : List Bytes}
    {rules : RuleMap} (h : ∀ rule ∈ rules, P rule.1 rule.2.words) :
    ∀ rule ∈ keys.foldl (fun rules key => discount amount key rules) rules,
      P rule.1 rule.2.words := by
  induction keys generalizing rules with
  | nil => exact h
  | cons key keys ih =>
    refine ih fun rule hrule => ?_
    obtain ⟨rule', hrule', hkey, hwords⟩ := mem_discount hrule
    rw [← hkey, ← hwords]
    exact h rule' hrule'

/-- Every suffix rule is derived from a full rule. -/
theorem exists_of_mem_suffixRules {full : RuleMap} :
    ∀ rule ∈ suffixRules full, ∃ rule' ∈ full, ∃ derived ∈ derivedRules rule'.1 rule'.2.words,
      derived.suffix = rule.1 ∧ derived.words = rule.2.words := by
  let Known (rule : Bytes × RuleInfo) : Prop :=
    ∃ rule' ∈ full, ∃ derived ∈ derivedRules rule'.1 rule'.2.words,
      derived.suffix = rule.1 ∧ derived.words = rule.2.words
  have hderived : ∀ rule' ∈ full, ∀ (some : List DerivedRule) (rules : RuleMap),
      (∀ derived ∈ some, derived ∈ derivedRules rule'.1 rule'.2.words) →
      (∀ rule ∈ rules, Known rule) →
      ∀ rule ∈ some.foldl (fun rules derived => addRule derived.suffix derived.words rules) rules,
        Known rule := by
    intro rule' hrule' some
    induction some with
    | nil => exact fun rules _ hrules => hrules
    | cons derived some ih =>
      intro rules hsome hrules
      obtain ⟨hthis, hothers⟩ := List.forall_mem_cons.mp hsome
      refine ih _ hothers fun rule hrule => ?_
      rcases mem_addRule hrule with ⟨hkey, hwords⟩ | ⟨rule'', hrule'', hkey, hwords⟩
      · exact ⟨rule', hrule', derived, hthis, hkey.symm, hwords.symm⟩
      · obtain ⟨source, hsource, derived', hderived', hkey', hwords'⟩ := hrules rule'' hrule''
        exact ⟨source, hsource, derived', hderived', hkey'.trans hkey, hwords'.trans hwords⟩
  have hall : ∀ (some rules : RuleMap), (∀ rule' ∈ some, rule' ∈ full) →
      (∀ rule ∈ rules, Known rule) →
      ∀ rule ∈ some.foldl (fun rules rule => (derivedRules rule.1 rule.2.words).foldl
        (fun rules derived => addRule derived.suffix derived.words rules) rules) rules,
        Known rule := by
    intro some
    induction some with
    | nil => exact fun rules _ hrules => hrules
    | cons rule' some ih =>
      intro rules hsome hrules
      obtain ⟨hthis, hothers⟩ := List.forall_mem_cons.mp hsome
      exact ih _ hothers (hderived rule' hthis _ rules (fun _ hmem => hmem) hrules)
  exact hall full [] (fun _ hmem => hmem) (List.forall_mem_nil _)

/-- Also the suffix rules that are kept are derived from full rules. -/
theorem exists_of_mem_keptSuffixRules (tables : Unicode) (data : List Sentence) :
    ∀ rule ∈ keptSuffixRules tables data, ∃ rule' ∈ keptFullRules tables data,
      ∃ derived ∈ derivedRules rule'.1 rule'.2.words,
        derived.suffix = rule.1 ∧ derived.words = rule.2.words :=
  @foldl_discount (fun key words => ∃ rule' ∈ keptFullRules tables data,
    ∃ derived ∈ derivedRules rule'.1 rule'.2.words,
      derived.suffix = key ∧ derived.words = words) _ _ _ exists_of_mem_suffixRules

/-! ### What a suffix rule gives -/

/-- Put the leading part of a token before the first word. -/
def prepend (leading : Bytes) : List Bytes → List Bytes
  | [] => []
  | first :: rest => (leading ++ first) :: rest

/-- A derived rule gives the full rule again for the leading part that was cut off, which is
the beginning of the form and of the first word. -/
structure DerivedRule.Reproduces (rule : DerivedRule) (form : Bytes) (words : List Bytes) :
    Prop where
  whole : form.take rule.cut ++ rule.suffix = form
  restored : prepend (form.take rule.cut) rule.words = words
  common : form.take rule.cut <+: words.headD []

/-- The end of the last character that ends within the form and within the word. -/
def longestCut (form word : Bytes) : ℕ :=
  Nat.findGreatest (fun cut => isBoundary form cut = true) (min form.length word.length)

/-- The first word begins as the form does, up to the longest cut. -/
def BeginsAlike (form : Bytes) (words : List Bytes) : Prop :=
  form.take (longestCut form (words.headD [])) <+: words.headD []

instance (form : Bytes) (words : List Bytes) : Decidable (BeginsAlike form words) :=
  inferInstanceAs (Decidable (_ <+: _))

/-- Every suffix rule that is derived from a kept full rule reproduces it. -/
def SuffixRulesReproduce (tables : Unicode) (data : List Sentence) : Prop :=
  ∀ rule ∈ keptFullRules tables data, ∀ derived ∈ derivedRules rule.1 rule.2.words,
    derived.Reproduces rule.1 rule.2.words

/-- The prefix that matches is the whole of the shorter text. -/
theorem prefixMatch_eq (form word : Bytes) : prefixMatch form word = min form.length word.length := by
  induction form generalizing word with
  | nil => simp [prefixMatch]
  | cons c form ih =>
    cases word with
    | nil => simp [prefixMatch]
    | cons d word => rw [prefixMatch, ih, List.length_cons, List.length_cons, Nat.succ_min_succ]

/-- A derived rule cuts the form at a boundary of a character. -/
theorem mem_deriveFrom {form : Bytes} {words : List Bytes} {bound : ℕ} {rule : DerivedRule} :
    rule ∈ deriveFrom form words bound ↔ (0 < rule.cut ∧ rule.cut ≤ bound ∧
      isBoundary form rule.cut = true) ∧
      rule = ⟨rule.cut, form.drop rule.cut, cutFirst rule.cut words⟩ := by
  induction bound with
  | zero =>
    rw [deriveFrom]
    constructor
    · intro h
      cases h
    · rintro ⟨⟨hpos, hle, _⟩, _⟩
      omega
  | succ cut ih =>
    rw [deriveFrom]
    have hbelow : rule ∈ deriveFrom form words cut → (0 < rule.cut ∧ rule.cut ≤ cut + 1 ∧
        isBoundary form rule.cut = true) ∧
        rule = ⟨rule.cut, form.drop rule.cut, cutFirst rule.cut words⟩ := by
      intro h
      obtain ⟨⟨hpos, hle, hboundary⟩, heq⟩ := ih.mp h
      exact ⟨⟨hpos, hle.trans (Nat.le_succ cut), hboundary⟩, heq⟩
    split
    · rename_i hboundary
      rw [List.mem_cons]
      constructor
      · rintro (rfl | h)
        · exact ⟨⟨Nat.succ_pos cut, le_rfl, hboundary⟩, rfl⟩
        · exact hbelow h
      · rintro ⟨⟨hpos, hle, hcut⟩, heq⟩
        rcases Nat.lt_or_eq_of_le hle with hlt | htop
        · exact .inr (ih.mpr ⟨⟨hpos, Nat.le_of_lt_succ hlt, hcut⟩, heq⟩)
        · rw [htop] at heq
          exact .inl heq
    · rename_i hboundary
      refine ⟨hbelow, ?_⟩
      rintro ⟨⟨hpos, hle, hcut⟩, heq⟩
      refine ih.mpr ⟨⟨hpos, Nat.le_of_lt_succ (lt_of_le_of_ne hle fun htop => ?_), hcut⟩, heq⟩
      rw [htop] at hcut
      exact hboundary hcut

/-- A derived rule reproduces the full rule if the bytes that are cut off are the same. -/
theorem reproduces_iff {form : Bytes} {words : List Bytes} {rule : DerivedRule}
    (h : rule ∈ derivedRules form words) :
    rule.Reproduces form words ↔ form.take rule.cut <+: words.headD [] := by
  rw [derivedRules, prefixMatch_eq, mem_deriveFrom] at h
  obtain ⟨⟨hpos, hle, -⟩, heq⟩ := h
  rw [heq]
  constructor
  · exact fun hreproduces => hreproduces.common
  · intro hcommon
    refine ⟨List.take_append_drop _ _, ?_, hcommon⟩
    cases words with
    | nil => rfl
    | cons first rest =>
      have htake : form.take rule.cut = first.take rule.cut := by
        have hlength : (form.take rule.cut).length = rule.cut := by
          rw [List.length_take]
          omega
        have hword := List.prefix_iff_eq_take.mp hcommon
        rwa [hlength] at hword
      dsimp only [cutFirst, prepend]
      rw [htake, List.take_append_drop]

/-- The longest cut decides for all cuts. -/
theorem forall_reproduces_iff (form : Bytes) (words : List Bytes) :
    (∀ rule ∈ derivedRules form words, rule.Reproduces form words) ↔ BeginsAlike form words := by
  have hcuts : ∀ rule ∈ derivedRules form words,
      rule.cut ≤ longestCut form (words.headD []) := by
    intro rule hrule
    rw [derivedRules, prefixMatch_eq, mem_deriveFrom] at hrule
    exact Nat.le_findGreatest hrule.1.2.1 hrule.1.2.2
  constructor
  · intro hall
    by_cases hzero : longestCut form (words.headD []) = 0
    · rw [BeginsAlike, hzero, List.take_zero]
      exact List.nil_prefix
    · have hboundary : isBoundary form (longestCut form (words.headD [])) = true :=
        Nat.findGreatest_of_ne_zero rfl hzero
      let cut := longestCut form (words.headD [])
      have hmem : ⟨cut, form.drop cut, cutFirst cut words⟩ ∈ derivedRules form words := by
        rw [derivedRules, prefixMatch_eq]
        exact mem_deriveFrom.mpr ⟨⟨Nat.pos_of_ne_zero hzero, Nat.findGreatest_le _,
          hboundary⟩, rfl⟩
      exact (hall _ hmem).common
  · intro hbegins rule hrule
    refine (reproduces_iff hrule).mpr (List.IsPrefix.trans ?_ hbegins)
    exact List.take_prefix_take_left (hcuts rule hrule)

/-- Then every suffix rule that is kept gives some full rule again, for the leading part of the form
that was cut off. -/
theorem SuffixRulesReproduce.keptSuffixRules {tables : Unicode} {data : List Sentence}
    (h : SuffixRulesReproduce tables data) :
    ∀ rule ∈ keptSuffixRules tables data, ∃ full ∈ keptFullRules tables data, ∃ leading,
      leading ++ rule.1 = full.1 ∧ prepend leading rule.2.words = full.2.words := by
  intro rule hrule
  obtain ⟨full, hfull, derived, hderived, hsuffix, hwords⟩ :=
    exists_of_mem_keptSuffixRules tables data rule hrule
  have hreproduces := h full hfull derived hderived
  exact ⟨full, hfull, full.1.take derived.cut, hsuffix ▸ hreproduces.whole,
    hwords ▸ hreproduces.restored⟩

/-- The suffix rules reproduce the full rules they come from if and only if the first word of
every kept full rule begins as its form does, up to the longest cut. -/
theorem suffixRulesReproduce_iff (tables : Unicode) (data : List Sentence) :
    SuffixRulesReproduce tables data ↔
      ∀ rule ∈ keptFullRules tables data, BeginsAlike rule.1 rule.2.words :=
  forall₂_congr fun rule _ => forall_reproduces_iff rule.1 rule.2.words

/-- A German contraction, with the words in and dem. -/
def contraction : Sentence where
  words := [Sentence.rootWord, { id := 1, form := bytes "in" }, { id := 2, form := bytes "dem" }]
  multiwordTokens := [{ form := bytes "im", idFirst := 1, idLast := 2 }]

/-- The contraction of a preposition and an article. -/
theorem not_suffixRulesReproduce_contraction :
    ¬ SuffixRulesReproduce lowercaseTables [contraction] := by
  intro h
  have hkept : (bytes "im", ⟨[bytes "in", bytes "dem"], 1⟩) ∈
      keptFullRules lowercaseTables [contraction] := by decide
  have hderived : ⟨2, [], [[], bytes "dem"]⟩ ∈
      derivedRules (bytes "im") [bytes "in", bytes "dem"] := by decide
  exact absurd (h _ hkept _ hderived).restored (by decide)

end UDPipe.MultiwordTrainer
