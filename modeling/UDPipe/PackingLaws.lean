import Mathlib.Data.List.Chain
import UDPipe.Packing

/-!
# Unpacking packed tags and lemmas

The separator of a combined tag is not in its parts, so the tag is cut where it was
joined. The spaces of a lemma come back if the lemma has no U+00A0 of its own, and the
replacement of a flat lemma comes back as it has no tilde. A lemma that is not flat is
packed as it is, also when it looks like a replacement for the form of its word; then the
replacement is all that is left of it.
-/

namespace UDPipe.Tagging

open Morphodita (TaggedLemma)

/-! ### Cutting at a separator -/

/-- The text is cut at its first separator. -/
@[simp] theorem cut_append_cons {separator : Byte} {text : Bytes} (h : separator ∉ text)
    (rest : Bytes) : cut separator (text ++ separator :: rest) = (text, rest) := by
  have hall : ∀ c ∈ text, (c != separator) = true := by
    intro c hc
    exact bne_iff_ne.mpr fun heq => h (heq ▸ hc)
  simp [cut, List.takeWhile_append_of_pos hall, List.dropWhile_append_of_pos hall]

/-- A separator at the beginning leaves an empty first part. -/
@[simp] theorem cut_cons_self (separator : Byte) (rest : Bytes) :
    cut separator (separator :: rest) = ([], rest) :=
  cut_append_cons List.not_mem_nil rest

/-- Without a separator nothing is cut off. -/
@[simp] theorem cut_of_not_mem {separator : Byte} {text : Bytes} (h : separator ∉ text) :
    cut separator text = (text, []) := by
  have hall : ∀ c ∈ text, (c != separator) = true := by
    intro c hc
    exact bne_iff_ne.mpr fun heq => h (heq ▸ hc)
  have htake : text.takeWhile (· != separator) = text := List.takeWhile_eq_self_iff.mpr hall
  have hdrop : text.dropWhile (· != separator) = [] := List.dropWhile_eq_nil_iff.mpr hall
  simp [cut, htake, hdrop]

/-! ### Tags -/

/-- The separator does not occur in the tags. -/
theorem tagSeparator_eq_some {w : Word} {separator : Byte} (h : tagSeparator w = some separator) :
    separator ∉ w.upostag ∧ separator ∉ w.xpostag := by
  have hfound := List.find?_some h
  simpa using hfound

/-- Tags that can be combined have a separator. -/
theorem tagSeparator_of_canCombineTag {w : Word} (h : canCombineTag w = .ok ()) :
    ∃ separator, tagSeparator w = some separator := by
  cases hseparator : tagSeparator w with
  | none => simp [canCombineTag, hseparator] at h
  | some separator => exact ⟨separator, rfl⟩

/-- A tag that could be combined is taken apart into what it was combined of. -/
theorem fillWordAnalysis_combineTag {w : Word} (h : canCombineTag w = .ok ()) (version : ℕ)
    (packed : Bytes) (upostag : Bool) (useLemma : ℤ) (xpostag feats : Bool) (target : Word) :
    let filled := fillWordAnalysis version ⟨packed, combineTag w xpostag feats⟩ false upostag
      useLemma xpostag feats target
    (upostag = true → filled.upostag = w.upostag) ∧ (xpostag = true → filled.xpostag = w.xpostag) ∧
      (feats = true → filled.feats = w.feats) := by
  obtain ⟨separator, hseparator⟩ := tagSeparator_of_canCombineTag h
  obtain ⟨hupostag, hxpostag⟩ := tagSeparator_eq_some hseparator
  have hcombined : combineTag w xpostag feats = separator :: (w.upostag ++
      if xpostag || feats then
        separator :: ((if xpostag then w.xpostag else []) ++
          if feats then separator :: w.feats else [])
      else []) := by
    simp [combineTag, hseparator]
  rw [hcombined]
  cases xpostag <;> cases feats <;>
    simp +contextual [fillWordAnalysis, hupostag, hxpostag]

/-! ### Spaces of a lemma -/

/-- No two bytes that follow each other are those of U+00A0. -/
def NoBreakSpaceFree (text : Bytes) : Prop :=
  text.IsChain fun c d => ¬(c = 0xC2 ∧ d = 0xA0)

/-- A character that begins no no-break space stays. -/
theorem restoreNoBreakSpaces_cons {c : Byte} {text : Bytes}
    (h : c = 0xC2 → text.head? ≠ some 0xA0) :
    restoreNoBreakSpaces (c :: text) = c :: restoreNoBreakSpaces text := by
  cases text with
  | nil => rfl
  | cons d text =>
    have hpair : ¬(c = 0xC2 ∧ d = 0xA0) := fun ⟨hc, hd⟩ => h hc (by rw [hd]; rfl)
    rw [restoreNoBreakSpaces, if_neg hpair]

/-- An empty lemma is normalized to an empty one. -/
@[simp] theorem normalizeLemma_latest_nil : normalizeLemma versionLatest [] = [] := rfl

/-- A space of a lemma is written as a no-break space. -/
theorem normalizeLemma_latest_cons (c : Byte) (text : Bytes) :
    normalizeLemma versionLatest (c :: text) =
      (if c = space then [0xC2, 0xA0] else [c]) ++ normalizeLemma versionLatest text := by
  have hencode : Utf8.encode 0xA0 = [0xC2, 0xA0] := by decide
  simp [normalizeLemma, versionLatest, hencode]

/-- Lemmas are normalized character by character. -/
@[simp] theorem normalizeLemma_latest_append (text rest : Bytes) :
    normalizeLemma versionLatest (text ++ rest) =
      normalizeLemma versionLatest text ++ normalizeLemma versionLatest rest := by
  simp [normalizeLemma, versionLatest]

/-- Normalizing neither adds nor removes a tilde. -/
@[simp] theorem tilde_mem_normalizeLemma_latest {text : Bytes} :
    tilde ∈ normalizeLemma versionLatest text ↔ tilde ∈ text := by
  induction text with
  | nil => simp
  | cons c text ih =>
    rw [normalizeLemma_latest_cons, List.mem_append, ih, List.mem_cons]
    refine or_congr_left ?_
    by_cases hc : c = space
    · rw [if_pos hc, hc]
      decide
    · simp [hc]

/-- Spaces come back in a text that has no U+00A0. -/
theorem restoreSpaces_normalizeLemma {text : Bytes} (h : NoBreakSpaceFree text) :
    restoreSpaces versionLatest (normalizeLemma versionLatest text) = text := by
  have hlatest : ∀ text, restoreSpaces versionLatest text = restoreNoBreakSpaces text :=
    fun _ => rfl
  rw [hlatest]
  induction text with
  | nil => rfl
  | cons c text ih =>
    rw [normalizeLemma_latest_cons]
    by_cases hc : c = space
    · rw [if_pos hc, hc, List.cons_append, List.singleton_append, restoreNoBreakSpaces,
        if_pos ⟨rfl, rfl⟩, ih h.tail]
    · rw [if_neg hc, List.singleton_append, restoreNoBreakSpaces_cons, ih h.tail]
      rintro rfl hhead
      cases text with
      | nil => simp at hhead
      | cons d text =>
        have hpair := (List.isChain_cons_cons.mp h).1
        rw [normalizeLemma_latest_cons] at hhead
        by_cases hd : d = space
        · simp [hd] at hhead
        · exact hpair ⟨rfl, by simpa [hd] using hhead⟩

/-! ### Texts without U+00A0 -/

/-- The text of these characters is valid UTF-8, none of them being U+00A0. -/
def EncodedWithoutNoBreakSpace (text : Bytes) : Prop :=
  ∃ codes : List ℕ, text = codes.flatMap Utf8.encode ∧ ∀ code ∈ codes, code.isValidChar ∧
    code ≠ 0xA0

/-- A small number is another byte than one of another value. -/
private theorem ofNat_ne {n : ℕ} {c : Byte} (hn : n < 256) (h : n ≠ c.toNat) :
    UInt8.ofNat n ≠ c := by
  rintro rfl
  rw [UInt8.toNat_ofNat', Nat.mod_eq_of_lt hn] at h
  exact h rfl

/-- A continuation byte does not begin a no-break space. -/
private theorem continuation_ne (n : ℕ) : UInt8.ofNat (0x80 + n % 64) ≠ 0xC2 := by
  refine ofNat_ne (by omega) ?_
  show 0x80 + n % 64 ≠ 0xC2
  omega

/-- A larger leading byte does not begin a no-break space. -/
private theorem leading_ne {n : ℕ} (hlower : 0xC2 < n) (hupper : n < 256) :
    UInt8.ofNat n ≠ 0xC2 :=
  ofNat_ne hupper (Nat.ne_of_gt hlower)

/-- The bytes of a character other than U+00A0 do not contain those of U+00A0, and its last
byte does not begin a character of two bytes. -/
private theorem encode_noBreakSpaceFree {code : ℕ} (hvalid : code.isValidChar)
    (hcode : code ≠ 0xA0) :
    NoBreakSpaceFree (Utf8.encode code) ∧ ∀ c ∈ (Utf8.encode code).getLast?, c ≠ 0xC2 := by
  have hlt : code < 0x110000 := by
    rcases hvalid with hvalid | hvalid <;> omega
  have hlast := continuation_ne code
  unfold Utf8.encode NoBreakSpaceFree
  split_ifs with h₁ h₂ h₃ h₄
  · refine ⟨List.isChain_singleton _, ?_⟩
    rintro c ⟨⟩
    refine ofNat_ne (by omega) ?_
    show code ≠ 0xC2
    omega
  · refine ⟨List.isChain_pair.mpr fun ⟨hfirst, hsecond⟩ => ?_, by rintro c ⟨⟩; exact hlast⟩
    by_cases hlead : code / 64 = 2
    · refine ofNat_ne (c := 0xA0) (n := 0x80 + code % 64) (by omega) ?_ hsecond
      show 0x80 + code % 64 ≠ 0xA0
      omega
    · refine ofNat_ne (c := 0xC2) (n := 0xC0 + code / 64) (by omega) ?_ hfirst
      show 0xC0 + code / 64 ≠ 0xC2
      omega
  · have hfirst := leading_ne (show 0xC2 < 0xE0 + code / 4096 by omega) (by omega)
    have hsecond := continuation_ne (code / 64)
    refine ⟨?_, by rintro c ⟨⟩; exact hlast⟩
    simp only [List.isChain_cons_cons, List.isChain_singleton, and_true]
    exact ⟨fun h => hfirst h.1, fun h => hsecond h.1⟩
  · have hfirst := leading_ne (show 0xC2 < 0xF0 + code / 262144 by omega) (by omega)
    have hsecond := continuation_ne (code / 4096)
    have hthird := continuation_ne (code / 64)
    refine ⟨?_, by rintro c ⟨⟩; exact hlast⟩
    simp only [List.isChain_cons_cons, List.isChain_singleton, and_true]
    exact ⟨fun h => hfirst h.1, fun h => hsecond h.1, fun h => hthird h.1⟩
  · omega

/-- An encoded text without no-break spaces has none between its characters either. -/
theorem EncodedWithoutNoBreakSpace.noBreakSpaceFree {text : Bytes}
    (h : EncodedWithoutNoBreakSpace text) : NoBreakSpaceFree text := by
  obtain ⟨codes, rfl, hcodes⟩ := h
  induction codes with
  | nil => exact List.isChain_nil
  | cons code codes ih =>
    obtain ⟨⟨hvalid, hcode⟩, hcodes⟩ := List.forall_mem_cons.mp hcodes
    obtain ⟨hfree, hlast⟩ := encode_noBreakSpaceFree hvalid hcode
    rw [List.flatMap_cons]
    exact List.isChain_append.mpr ⟨hfree, ih hcodes, fun c hc _ _ hpair => hlast c hc hpair.1⟩

/-! ### Lemmas -/

/-- The lemma reads as a replacement for the form. -/
def LooksEscaped (text form : Bytes) : Prop :=
  ∃ replacement rest, tilde ∉ replacement ∧ text = tilde :: (replacement ++ tilde :: rest) ∧
    normalizeLemma versionLatest rest = normalizeForm versionLatest form

/-- An escaped lemma is unescaped if the form follows it. -/
theorem unescapeLemma_escaped {replacement : Bytes} (h : tilde ∉ replacement) (version : ℕ)
    (form rest : Bytes) :
    unescapeLemma version form (tilde :: (replacement ++ tilde :: rest)) =
      if rest = normalizeForm version form then replacement
      else tilde :: (replacement ++ tilde :: rest) := by
  simp [unescapeLemma, h]

/-- A text that is not a tilde, a replacement and another tilde is left as it is. -/
theorem unescapeLemma_of_not_escaped {text : Bytes}
    (h : ∀ rest, text = tilde :: rest → tilde ∉ rest) (version : ℕ) (form : Bytes) :
    unescapeLemma version form text = text := by
  cases text with
  | nil => rfl
  | cons c rest =>
    have hnot : ¬(c = tilde ∧ tilde ∈ rest ∧ (cut tilde rest).2 = normalizeForm version form) := by
      rintro ⟨rfl, hmem, _⟩
      exact h rest rfl hmem
    rw [unescapeLemma, if_neg hnot]

/-- A tilde at the beginning of a lemma stays. -/
theorem normalizeLemma_latest_tilde_cons (text : Bytes) :
    normalizeLemma versionLatest (tilde :: text) =
      tilde :: normalizeLemma versionLatest text :=
  normalizeLemma_latest_cons tilde text

/-- A normalized lemma with a tilde at the beginning comes from one with it. -/
theorem normalizeLemma_latest_eq_tilde_cons {text rest : Bytes}
    (h : normalizeLemma versionLatest text = tilde :: rest) :
    ∃ text', text = tilde :: text' ∧ rest = normalizeLemma versionLatest text' := by
  cases text with
  | nil => simp at h
  | cons c text =>
    rw [normalizeLemma_latest_cons] at h
    by_cases hc : c = space
    · rw [if_pos hc] at h
      exact absurd (List.cons.inj h).1 (by decide)
    · rw [if_neg hc, List.singleton_append, List.cons.injEq] at h
      exact ⟨text, by rw [h.1], h.2.symm⟩

/-- A lemma that is written relatively to the form comes back. -/
theorem restoreSpaces_unescapeLemma_flat {text : Bytes} (hfree : NoBreakSpaceFree text)
    (htilde : tilde ∉ text) (form : Bytes) :
    restoreSpaces versionLatest (unescapeLemma versionLatest form
      (tilde :: (normalizeLemma versionLatest text ++
        tilde :: normalizeForm versionLatest form))) = text := by
  rw [unescapeLemma_escaped (by simpa using htilde), if_pos rfl,
    restoreSpaces_normalizeLemma hfree]

/-- A lemma that is written as it is comes back unless it reads as a replacement. -/
theorem restoreSpaces_unescapeLemma_iff {text : Bytes} (hfree : NoBreakSpaceFree text)
    (form : Bytes) :
    restoreSpaces versionLatest
      (unescapeLemma versionLatest form (normalizeLemma versionLatest text)) = text ↔
        ¬LooksEscaped text form := by
  by_cases hshape : ∃ rest, text = tilde :: rest ∧ tilde ∈ rest
  · obtain ⟨_, rfl, hmem⟩ := hshape
    obtain ⟨replacement, rest, rfl, hreplacement⟩ := List.eq_append_cons_of_mem hmem
    have hnormal : normalizeLemma versionLatest (tilde :: (replacement ++ tilde :: rest)) =
        tilde :: (normalizeLemma versionLatest replacement ++
          tilde :: normalizeLemma versionLatest rest) := by
      simp only [normalizeLemma_latest_tilde_cons, normalizeLemma_latest_append]
    have hnormalReplacement : tilde ∉ normalizeLemma versionLatest replacement := by
      simpa using hreplacement
    rw [hnormal, unescapeLemma_escaped hnormalReplacement]
    by_cases hform : normalizeLemma versionLatest rest = normalizeForm versionLatest form
    · have hpart : NoBreakSpaceFree replacement := hfree.infix ⟨[tilde], tilde :: rest, by simp⟩
      rw [if_pos hform, restoreSpaces_normalizeLemma hpart]
      refine iff_of_false (fun heq => ?_)
        (not_not.mpr ⟨replacement, rest, hreplacement, rfl, hform⟩)
      -- The replacement is shorter than the lemma.
      have hlength := congrArg List.length heq
      simp only [List.length_cons, List.length_append] at hlength
      omega
    · rw [if_neg hform, ← hnormal, restoreSpaces_normalizeLemma hfree]
      refine iff_of_true rfl ?_
      rintro ⟨replacement', rest', hreplacement', heq, hform'⟩
      have hcut := congrArg (cut tilde) (List.cons.inj heq).2
      rw [cut_append_cons hreplacement, cut_append_cons hreplacement'] at hcut
      exact hform ((Prod.mk.inj hcut).2 ▸ hform')
  · have hplain : ∀ rest, normalizeLemma versionLatest text = tilde :: rest → tilde ∉ rest := by
      intro rest hrest hmem
      obtain ⟨text', htext, rfl⟩ := normalizeLemma_latest_eq_tilde_cons hrest
      exact hshape ⟨text', htext, tilde_mem_normalizeLemma_latest.mp hmem⟩
    rw [unescapeLemma_of_not_escaped hplain, restoreSpaces_normalizeLemma hfree]
    refine iff_of_true rfl ?_
    rintro ⟨replacement, rest, _, htext, _⟩
    exact hshape ⟨_, htext, by simp⟩

/-- The lemmas that encoding 2 writes relatively to the form. -/
def WrittenRelatively (w : Word) (flatLemmas : List Bytes) : Prop :=
  w.lemma = [] ∨ w.lemma = bytes "_" ∨ w.lemma ∈ flatLemmas ∨
    normalizeLemma versionLatest w.lemma ∈ flatLemmas

/-- A lemma that is written relatively is escaped before the form. -/
theorem combineLemma_two_of_relative {w : Word} {flatLemmas : List Bytes}
    (h : WrittenRelatively w flatLemmas) :
    combineLemma w 2 flatLemmas = tilde :: (normalizeLemma versionLatest w.lemma ++
      tilde :: normalizeForm versionLatest w.form) := by
  have hempty : bytes "~~" = [tilde, tilde] := by decide
  have hunderscore : bytes "~_~" = tilde :: (bytes "_" ++ [tilde]) := by decide
  have hnormal : normalizeLemma versionLatest (bytes "_") = bytes "_" := by decide
  unfold combineLemma
  by_cases h₁ : w.lemma = []
  · simp [h₁, hempty]
  · by_cases h₂ : w.lemma = bytes "_"
    · simp [h₂, hunderscore, hnormal]
    · have hflat : w.lemma ∈ flatLemmas ∨ normalizeLemma versionLatest w.lemma ∈ flatLemmas :=
        (h.resolve_left h₁).resolve_left h₂
      simp [h₁, h₂, hflat]

/-- Another lemma is written as it is. -/
theorem combineLemma_two_of_not_relative {w : Word} {flatLemmas : List Bytes}
    (h : ¬WrittenRelatively w flatLemmas) :
    combineLemma w 2 flatLemmas = normalizeLemma versionLatest w.lemma := by
  simp only [WrittenRelatively, not_or] at h
  obtain ⟨h₁, h₂, h₃, h₄⟩ := h
  simp [combineLemma, h₁, h₂, h₃, h₄]

/-- What encoding 2 writes relatively to the form has no tilde. -/
theorem WrittenRelatively.tilde_not_mem {w : Word} {flatLemmas : List Bytes}
    (h : WrittenRelatively w flatLemmas) (hflat : ∀ text ∈ flatLemmas, tilde ∉ text) :
    tilde ∉ w.lemma := by
  rcases h with h | h | h | h
  · simp [h]
  · rw [h]
    decide
  · exact hflat _ h
  · simpa using hflat _ h

/-- With relative lemmas, a lemma is filled in again exactly if it does not look escaped. -/
theorem filledLemma_two_iff {w target : Word} {flatLemmas : List Bytes} (tag : Bytes)
    (hfree : NoBreakSpaceFree w.lemma) (hform : target.form = w.form)
    (hflat : ∀ text ∈ flatLemmas, tilde ∉ text) :
    filledLemma versionLatest ⟨combineLemma w 2 flatLemmas, tag⟩ 2 target = w.lemma ↔
      ¬LooksEscaped w.lemma w.form := by
  have hfilled : filledLemma versionLatest ⟨combineLemma w 2 flatLemmas, tag⟩ 2 target =
      restoreSpaces versionLatest
        (unescapeLemma versionLatest w.form (combineLemma w 2 flatLemmas)) := by
    rw [← hform]
    rfl
  rw [hfilled]
  by_cases hrelative : WrittenRelatively w flatLemmas
  · have htilde := hrelative.tilde_not_mem hflat
    rw [combineLemma_two_of_relative hrelative, restoreSpaces_unescapeLemma_flat hfree htilde]
    refine iff_of_true rfl ?_
    rintro ⟨replacement, rest, _, htext, _⟩
    exact htilde (htext ▸ List.mem_cons_self)
  · rw [combineLemma_two_of_not_relative hrelative]
    exact restoreSpaces_unescapeLemma_iff hfree w.form

/-- With dropped lemmas, a lemma is filled in again exactly if its normal form is dropped for the
form only. -/
theorem filledLemma_one_iff {w : Word} {flatLemmas : List Bytes} (tag : Bytes) (target : Word)
    (hfree : NoBreakSpaceFree w.lemma) (hflat : w.lemma ∉ flatLemmas) :
    filledLemma versionLatest ⟨combineLemma w 1 flatLemmas, tag⟩ 1 target = w.lemma ↔
      (normalizeLemma versionLatest w.lemma ∈ flatLemmas →
        restoreSpaces versionLatest (normalizeForm versionLatest w.form) = w.lemma) := by
  by_cases hnormal : normalizeLemma versionLatest w.lemma ∈ flatLemmas
  · simp [filledLemma, combineLemma, hflat, hnormal]
  · simp [filledLemma, combineLemma, hflat, hnormal, restoreSpaces_normalizeLemma hfree]

/-! ### The round trip -/

/-- Unpacking what a word was packed to gives back its tags and its lemma. -/
def Unpacks (w target : Word) (useLemma : ℤ) (xpostag feats : Bool)
    (flatLemmas : List Bytes) : Prop :=
  let analysis : TaggedLemma :=
    ⟨combineLemma w useLemma flatLemmas, combineTag w xpostag feats⟩
  let filled := fillWordAnalysis versionLatest analysis false true useLemma xpostag feats target
  filled.upostag = w.upostag ∧ (xpostag = true → filled.xpostag = w.xpostag) ∧
    (feats = true → filled.feats = w.feats) ∧ filled.lemma = w.lemma

/-- Packing and unpacking gives a word back if and only if its lemma does not read as a
replacement for its form; when lemmas are packed as they are, the lemma written with U+00A0
must not be a flat lemma, unless it is the form anyway. -/
theorem unpacks_iff {w target : Word} {useLemma : ℤ} {flatLemmas : List Bytes}
    (hcombine : canCombineTag w = .ok ()) (hlemma : EncodedWithoutNoBreakSpace w.lemma)
    (hform : target.form = w.form)
    (hencoding : useLemma = 2 ∧ (∀ text ∈ flatLemmas, tilde ∉ text) ∨
      useLemma = 1 ∧ w.lemma ∉ flatLemmas) (xpostag feats : Bool) :
    Unpacks w target useLemma xpostag feats flatLemmas ↔
      (useLemma = 2 → ¬LooksEscaped w.lemma w.form) ∧
      (useLemma = 1 → normalizeLemma versionLatest w.lemma ∈ flatLemmas →
        restoreSpaces versionLatest (normalizeForm versionLatest w.form) = w.lemma) := by
  have hfree := hlemma.noBreakSpaceFree
  obtain ⟨hupostag, hxpostag, hfeats⟩ := fillWordAnalysis_combineTag hcombine versionLatest
    (combineLemma w useLemma flatLemmas) true useLemma xpostag feats target
  have hfilled : Unpacks w target useLemma xpostag feats flatLemmas ↔
      filledLemma versionLatest
        ⟨combineLemma w useLemma flatLemmas, combineTag w xpostag feats⟩ useLemma target =
          w.lemma :=
    ⟨fun h => h.2.2.2, fun h => ⟨hupostag rfl, hxpostag, hfeats, h⟩⟩
  rw [hfilled]
  rcases hencoding with ⟨rfl, hflat⟩ | ⟨rfl, hflat⟩
  · simpa using filledLemma_two_iff _ hfree hform hflat
  · simpa using filledLemma_one_iff _ target hfree hflat

/-- A word whose lemma is written as it is. -/
theorem unpacks_iff_flat :
    Unpacks { form := bytes "dvou", «lemma» := bytes "x y", upostag := bytes "NUM~" }
      { form := bytes "dvou" } 2 true true [bytes "x y"] := by
  have hlemma : EncodedWithoutNoBreakSpace (bytes "x y") :=
    ⟨[120, 32, 121], by decide, by simp [Nat.isValidChar]⟩
  refine (unpacks_iff (by decide) hlemma rfl (.inl ⟨rfl, by decide⟩) true true).mpr
    ⟨fun _ => ?_, by decide⟩
  rintro ⟨replacement, rest, _, htext, _⟩
  have hhead := congrArg List.head? htext
  rw [List.head?_cons] at hhead
  revert hhead
  decide

/-- The lemma `~x~y` of the form `y` is packed as it is, and unpacked to `x`. -/
theorem not_unpacks_tilde :
    ¬∀ (w target : Word) (useLemma : ℤ) (flatLemmas : List Bytes) (xpostag feats : Bool),
      canCombineTag w = .ok () → EncodedWithoutNoBreakSpace w.lemma → target.form = w.form →
      (useLemma = 2 ∧ (∀ text ∈ flatLemmas, tilde ∉ text) ∨
        useLemma = 1 ∧ w.lemma ∉ flatLemmas) →
      Unpacks w target useLemma xpostag feats flatLemmas := by
  intro h
  have hlemma : EncodedWithoutNoBreakSpace (bytes "~x~y") :=
    ⟨[126, 120, 126, 121], by decide, by simp [Nat.isValidChar]⟩
  have htrip := h { form := bytes "y", «lemma» := bytes "~x~y" } { form := bytes "y" } 2 []
    false false (by decide) hlemma rfl (.inl ⟨rfl, by simp⟩)
  revert htrip
  unfold Unpacks
  decide

end UDPipe.Tagging
