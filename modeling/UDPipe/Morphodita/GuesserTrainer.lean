import UDPipe.Library.CommonSubstring
import UDPipe.Morphodita.Guessing
import UDPipe.Tokenizer.Utf8

/-!
# Instances of the guesser trainer

`morpho_statistical_guesser_trainer::instance` of
`morpho/morpho_statistical_guesser_trainer.cpp` makes the rule of a form and its lemma from
a longest match of both, which it finds by shifting one against the other. The last shift is
left out, and of a run of equal bytes only its beginnings are matches, so the match found is
not always a longest one.
-/

namespace UDPipe.Morphodita.GuesserTrainer

/-- The longest match so far: its length, and where it begins in the form and in the lemma. -/
structure Best where
  length : ℕ
  form : ℕ
  «lemma» : ℕ
  deriving DecidableEq, Repr

/-- The inner loop, over what is left of the form and of the lemma. -/
def slide (form : Bytes) : Bytes → Bytes → ℕ → ℕ → ℕ → Best → Best
  | c :: cs, d :: ds, formOffset, lemmaOffset, length, best =>
    if c = d then
      let length := length + 1
      let best :=
        if length > best.length ∧
            Utf8.valid ((form.drop (formOffset + 1 - length)).take length) then
          ⟨length, formOffset + 1 - length, lemmaOffset + 1 - length⟩
        else best
      slide form cs ds (formOffset + 1) (lemmaOffset + 1) length best
    else slide form cs ds (formOffset + 1) (lemmaOffset + 1) 0 best
  | _, _, _, _, _, best => best

/-- The pass of the outer loop for an offset. -/
def shift (form lem : Bytes) (best : Best) (offset : ℤ) : Best :=
  let formOffset := (max 0 offset).toNat
  let lemmaOffset := (max 0 (-offset)).toNat
  slide form (form.drop formOffset) (lem.drop lemmaOffset) formOffset lemmaOffset 0 best

/-- The outer loop: its offsets end two before the size of the form. -/
def findBest (form lem : Bytes) : Best :=
  ((List.range (form.length + lem.length - 2)).map
    fun (k : ℕ) => (k : ℤ) - (lem.length - 1)).foldl (shift form lem) ⟨0, 0, 0⟩

/-- What is deleted from the form and what is added for the lemma. -/
def ruleOf (form lem tag : Bytes) (best : Best) : Replacement Bytes where
  prefDel := form.take best.form
  prefAdd := lem.take best.lemma
  suffDel := form.drop (best.form + best.length)
  suffAdd := lem.drop (best.lemma + best.length)
  tags := [tag]

/-- A rule as the trainer writes it. -/
def ruleText (rule : Replacement Bytes) : Bytes :=
  rule.prefDel ++ [space] ++ rule.prefAdd ++ [space] ++ rule.suffDel ++ [space] ++ rule.suffAdd

/-- The struct `instance`. -/
structure Instance where
  form : Bytes
  «lemma» : Bytes
  tag : Bytes
  lemmaRule : Bytes
  formPrefix : Bytes
  deriving DecidableEq, Repr

/-- The constructor of an instance. -/
def Instance.new (form lem tag : Bytes) : Instance :=
  let best := findBest form lem
  { form, «lemma» := lem, tag
    formPrefix := form.take (if best.lemma = 0 then best.form else 0)
    lemmaRule := ruleText (ruleOf form lem tag best) }

variable {form lem : Bytes}

/-! ### What the loops find -/

/-- A match: equal bytes that are valid on their own. -/
def IsMatch (form lem : Bytes) (i j n : ℕ) : Prop :=
  CommonAt form lem i j n ∧ Utf8.valid ((form.drop i).take n) = true

/-- The last byte of the form stands against the first one of the lemma. -/
def LastShift (form : Bytes) (i j : ℕ) : Prop := i + 1 = form.length + j

/-- The match is at least as long as the matches that begin with a run and have been tried. -/
structure Best.Covers (best : Best) (form lem : Bytes) (tried : ℕ → ℕ → ℕ → Prop) : Prop where
  isMatch : IsMatch form lem best.form best.lemma best.length
  startsRun : StartsRun form lem best.form best.lemma
  notLast : best.length ≠ 0 → ¬ LastShift form best.form best.lemma
  most : ∀ i j n, tried i j n → IsMatch form lem i j n → StartsRun form lem i j → n ≤ best.length

/-- What covers all pairs covers fewer ones. -/
theorem Best.Covers.mono {best : Best} {tried tried' : ℕ → ℕ → ℕ → Prop}
    (h : best.Covers form lem tried)
    (hle : ∀ i j n, 0 < n → tried' i j n → IsMatch form lem i j n → StartsRun form lem i j →
      tried i j n) : best.Covers form lem tried' where
  isMatch := h.isMatch
  startsRun := h.startsRun
  notLast := h.notLast
  most i j n htried hmatch hstart := by
    rcases Nat.eq_zero_or_pos n with rfl | hn
    · exact Nat.zero_le _
    · exact h.most i j n (hle i j n hn htried hmatch hstart) hmatch hstart

/-- A longer match covers what a shorter one does. -/
theorem Best.Covers.replace {best : Best} {tried : ℕ → ℕ → ℕ → Prop}
    (h : best.Covers form lem tried) {i j n : ℕ} (hmatch : IsMatch form lem i j n)
    (hstart : StartsRun form lem i j) (hshift : ¬ LastShift form i j) (hlonger : best.length < n) :
    (⟨n, i, j⟩ : Best).Covers form lem tried where
  isMatch := hmatch
  startsRun := hstart
  notLast _ := hshift
  most i' j' n' htried hmatch' hstart' :=
    (h.most i' j' n' htried hmatch' hstart').trans (Nat.le_of_lt hlonger)

/-- One step along a diagonal tries the matches that end there. -/
theorem Best.Covers.advance {best : Best} {tried : ℕ → ℕ → ℕ → Prop} {formOffset lemmaOffset : ℕ}
    (h : best.Covers form lem fun i j n =>
      tried i j n ∨ (i + lemmaOffset = j + formOffset ∧ i + n ≤ formOffset))
    (hnew : ∀ i j n, 0 < n → i + lemmaOffset = j + formOffset → i + n = formOffset + 1 →
      IsMatch form lem i j n → StartsRun form lem i j → n ≤ best.length) :
    best.Covers form lem fun i j n =>
      tried i j n ∨ (i + (lemmaOffset + 1) = j + (formOffset + 1) ∧ i + n ≤ formOffset + 1) where
  isMatch := h.isMatch
  startsRun := h.startsRun
  notLast := h.notLast
  most i j n htried hmatch hstart := by
    rcases Nat.eq_zero_or_pos n with rfl | hn
    · exact Nat.zero_le _
    rcases htried with htried | ⟨hij, hend⟩
    · exact h.most i j n (.inl htried) hmatch hstart
    · rcases Nat.le_add_one_iff.mp hend with hend | hend
      · exact h.most i j n (.inr ⟨by omega, hend⟩) hmatch hstart
      · exact hnew i j n hn (by omega) hend hmatch hstart

/-- A state of the inner loop: what is left of the form and of the lemma, and the run that the
loop is in. -/
structure Sliding (form lem cs ds : Bytes) (formOffset lemmaOffset length : ℕ) : Prop where
  form_left : cs = form.drop formOffset
  lemma_left : ds = lem.drop lemmaOffset
  form_le : length ≤ formOffset
  lemma_le : length ≤ lemmaOffset
  run : CommonAt form lem (formOffset - length) (lemmaOffset - length) length
  startsRun : StartsRun form lem (formOffset - length) (lemmaOffset - length)
  notLast : ¬ LastShift form formOffset lemmaOffset

section Sliding

variable {c d : Byte} {cs ds : Bytes} {formOffset lemmaOffset length : ℕ}

/-- The slices begin with the bytes at their offsets. -/
theorem Sliding.bytes (h : Sliding form lem (c :: cs) (d :: ds) formOffset lemmaOffset length) :
    form[formOffset]? = some c ∧ lem[lemmaOffset]? = some d := by
  rw [← List.head?_drop, ← List.head?_drop, ← h.form_left, ← h.lemma_left]
  exact ⟨rfl, rfl⟩

/-- The slices end where the strings do. -/
theorem Sliding.left (h : Sliding form lem (c :: cs) (d :: ds) formOffset lemmaOffset length) :
    cs = form.drop (formOffset + 1) ∧ ds = lem.drop (lemmaOffset + 1) := by
  rw [← List.tail_drop, ← List.tail_drop, ← h.form_left, ← h.lemma_left]
  exact ⟨rfl, rfl⟩

/-- The next pair is not in the last shift. -/
theorem Sliding.notLast_succ
    (h : Sliding form lem (c :: cs) (d :: ds) formOffset lemmaOffset length) :
    ¬ LastShift form (formOffset + 1) (lemmaOffset + 1) := by
  have hshift := h.notLast
  unfold LastShift at hshift ⊢
  omega

/-- The run of equal bytes with one more. -/
theorem Sliding.run_succ
    (h : Sliding form lem (c :: cs) (c :: ds) formOffset lemmaOffset length) :
    CommonAt form lem (formOffset - length) (lemmaOffset - length) (length + 1) := by
  obtain ⟨hc, hd⟩ := h.bytes
  apply h.run.succ
  · rwa [Nat.sub_add_cancel h.form_le]
  · rwa [Nat.sub_add_cancel h.lemma_le]

/-- Equal bytes go on with the run. -/
theorem Sliding.same (h : Sliding form lem (c :: cs) (c :: ds) formOffset lemmaOffset length) :
    Sliding form lem cs ds (formOffset + 1) (lemmaOffset + 1) (length + 1) where
  form_left := h.left.1
  lemma_left := h.left.2
  form_le := Nat.succ_le_succ h.form_le
  lemma_le := Nat.succ_le_succ h.lemma_le
  run := by
    rw [Nat.add_sub_add_right, Nat.add_sub_add_right]
    exact h.run_succ
  startsRun := by
    rw [Nat.add_sub_add_right, Nat.add_sub_add_right]
    exact h.startsRun
  notLast := h.notLast_succ

/-- Behind different bytes a run may begin. -/
theorem Sliding.different (h : Sliding form lem (c :: cs) (d :: ds) formOffset lemmaOffset length)
    (hne : c ≠ d) : Sliding form lem cs ds (formOffset + 1) (lemmaOffset + 1) 0 where
  form_left := h.left.1
  lemma_left := h.left.2
  form_le := Nat.zero_le _
  lemma_le := Nat.zero_le _
  run := by
    obtain ⟨hc, hd⟩ := h.bytes
    exact CommonAt.zero (List.getElem?_eq_some_iff.mp hc).1 (List.getElem?_eq_some_iff.mp hd).1
  startsRun := by
    obtain ⟨hc, hd⟩ := h.bytes
    exact .inr (.inr (by simpa [hc, hd] using hne))
  notLast := h.notLast_succ

/-- A match that ends with the run begins where the run begins. -/
theorem Sliding.eq_of_end (h : Sliding form lem (c :: cs) (c :: ds) formOffset lemmaOffset length)
    {i j n : ℕ} (hn : 0 < n) (hdiagonal : i + lemmaOffset = j + formOffset)
    (hend : i + n = formOffset + 1) (hmatch : IsMatch form lem i j n)
    (hstart : StartsRun form lem i j) : i = formOffset - length ∧ n = length + 1 := by
  have hform := h.form_le
  have hlemma := h.lemma_le
  have hi := hmatch.1.start_eq h.run_succ hstart h.startsRun (by omega) (by omega) hn
    (Nat.succ_pos _)
  omega

/-- No match ends with different bytes. -/
theorem Sliding.not_end (h : Sliding form lem (c :: cs) (d :: ds) formOffset lemmaOffset length)
    (hne : c ≠ d) {i j n : ℕ} (hn : 0 < n) (hdiagonal : i + lemmaOffset = j + formOffset)
    (hend : i + n = formOffset + 1) (hmatch : IsMatch form lem i j n) : False := by
  obtain ⟨hc, hd⟩ := h.bytes
  have hi : i + (n - 1) = formOffset := by omega
  have hj : j + (n - 1) = lemmaOffset := by omega
  have hget := hmatch.1.getElem?_eq (Nat.sub_lt hn Nat.one_pos)
  rw [hi, hj, hc, hd] at hget
  exact hne (Option.some.inj hget)

end Sliding

/-- The loop tries the rest of a diagonal. -/
theorem slide_covers {cs ds : Bytes} {formOffset lemmaOffset length : ℕ} {best : Best}
    {tried : ℕ → ℕ → ℕ → Prop} (hslide : Sliding form lem cs ds formOffset lemmaOffset length)
    (h : best.Covers form lem fun i j n =>
      tried i j n ∨ (i + lemmaOffset = j + formOffset ∧ i + n ≤ formOffset)) :
    (slide form cs ds formOffset lemmaOffset length best).Covers form lem fun i j n =>
      tried i j n ∨ i + lemmaOffset = j + formOffset := by
  induction cs generalizing ds formOffset lemmaOffset length best with
  | nil =>
    have hend : form.length ≤ formOffset := List.drop_eq_nil_iff.mp hslide.form_left.symm
    rw [slide]
    · refine h.mono fun i j n _ htried hmatch _ => htried.imp_right fun hdiagonal => ⟨hdiagonal, ?_⟩
      exact hmatch.1.left.trans hend
    · rintro _ _ _ _ ⟨⟩
  | cons c cs ih =>
    cases ds with
    | nil =>
      have hend : lem.length ≤ lemmaOffset := List.drop_eq_nil_iff.mp hslide.lemma_left.symm
      rw [slide]
      · refine h.mono fun i j n _ htried hmatch _ =>
          htried.imp_right fun hdiagonal => ⟨hdiagonal, ?_⟩
        have hright := hmatch.1.right
        omega
      · rintro _ _ _ _ _ ⟨⟩
    | cons d ds =>
      have hdiagonal : ∀ i j, i + lemmaOffset = j + formOffset →
          i + (lemmaOffset + 1) = j + (formOffset + 1) := fun i j => by omega
      rw [slide]
      by_cases heq : c = d
      · subst heq
        rw [if_pos rfl]
        simp only [Nat.add_sub_add_right]
        split_ifs with hlonger
        · obtain ⟨hlonger, hvalid⟩ := hlonger
          have hshift : ¬ LastShift form (formOffset - length) (lemmaOffset - length) := by
            have hform := hslide.form_le
            have hlemma := hslide.lemma_le
            have hlast := hslide.notLast
            unfold LastShift at hlast ⊢
            omega
          have hbest := h.replace ⟨hslide.run_succ, hvalid⟩ hslide.startsRun hshift hlonger
          have hnext := hbest.advance fun i j n hn hij hend hmatch hstarts =>
            (hslide.eq_of_end hn hij hend hmatch hstarts).2.le
          exact (ih hslide.same hnext).mono fun i j n _ htried _ _ =>
            htried.imp_right (hdiagonal i j)
        · have hnext := h.advance fun i j n hn hij hend hmatch hstarts => by
            obtain ⟨rfl, rfl⟩ := hslide.eq_of_end hn hij hend hmatch hstarts
            by_contra hlt
            exact hlonger ⟨not_le.mp hlt, hmatch.2⟩
          exact (ih hslide.same hnext).mono fun i j n _ htried _ _ =>
            htried.imp_right (hdiagonal i j)
      · have hnext := h.advance fun i j n hn hij hend hmatch _ =>
          (hslide.not_end heq hn hij hend hmatch).elim
        rw [if_neg heq]
        exact (ih (hslide.different heq) hnext).mono fun i j n _ htried _ _ =>
          htried.imp_right (hdiagonal i j)

/-- A pass of the outer loop tries a diagonal. -/
theorem shift_covers {best : Best} {tried : ℕ → ℕ → ℕ → Prop} (h : best.Covers form lem tried)
    {offset : ℤ} (hlow : -(lem.length : ℤ) ≤ offset) (hhigh : offset + 1 < form.length) :
    (shift form lem best offset).Covers form lem fun i j n => tried i j n ∨ (i : ℤ) - j = offset := by
  obtain ⟨formOffset, hform⟩ : ∃ k, k = (max 0 offset).toNat := ⟨_, rfl⟩
  obtain ⟨lemmaOffset, hlemma⟩ : ∃ k, k = (max 0 (-offset)).toNat := ⟨_, rfl⟩
  have hdiagonal : ∀ i j : ℕ, (i : ℤ) - j = offset ↔ i + lemmaOffset = j + formOffset :=
    fun i j => by omega
  have hshift : ¬ LastShift form formOffset lemmaOffset := by
    unfold LastShift
    omega
  have hstart : StartsRun form lem formOffset lemmaOffset := by
    rcases le_total 0 offset with hpos | hneg
    · exact .inr (.inl (by omega))
    · exact .inl (by omega)
  rw [shift, ← hform, ← hlemma]
  simp only [hdiagonal]
  refine slide_covers ⟨rfl, rfl, Nat.zero_le _, Nat.zero_le _,
    CommonAt.zero (by omega) (by omega), hstart, hshift⟩ (h.mono ?_)
  rintro i j n hn (htried | ⟨hij, hend⟩) hmatch hstarts
  · exact htried
  · omega

/-- The outer loop tries the diagonals of its offsets. -/
theorem foldl_shift_covers {offsets : List ℤ}
    (hoffsets : ∀ offset ∈ offsets, -(lem.length : ℤ) ≤ offset ∧ offset + 1 < form.length)
    {best : Best} {tried : ℕ → ℕ → ℕ → Prop} (h : best.Covers form lem tried) :
    (offsets.foldl (shift form lem) best).Covers form lem fun i j n =>
      tried i j n ∨ (i : ℤ) - j ∈ offsets := by
  induction offsets generalizing best tried with
  | nil => exact h.mono fun i j n _ htried _ _ => htried.resolve_right (by simp)
  | cons offset offsets ih =>
    obtain ⟨⟨hlow, hhigh⟩, hoffsets⟩ := List.forall_mem_cons.mp hoffsets
    refine (ih hoffsets (shift_covers h hlow hhigh)).mono fun i j n _ htried _ _ => ?_
    simpa [or_assoc] using htried

/-- The match found is one of the longest that begin with a run and are not at the last shift. -/
theorem findBest_covers (form lem : Bytes) :
    (findBest form lem).Covers form lem fun i j _ => ¬ LastShift form i j := by
  have hstart : (⟨0, 0, 0⟩ : Best).Covers form lem fun _ _ _ => False :=
    ⟨⟨CommonAt.zero (Nat.zero_le _) (Nat.zero_le _), by simp [Utf8.valid]⟩, .inl rfl,
      fun h => absurd rfl h, fun _ _ _ h => h.elim⟩
  have hoffsets : ∀ offset ∈ (List.range (form.length + lem.length - 2)).map
      (fun (k : ℕ) => (k : ℤ) - (lem.length - 1)),
        -(lem.length : ℤ) ≤ offset ∧ offset + 1 < form.length := by
    intro offset hoffset
    obtain ⟨k, hk, rfl⟩ := List.mem_map.mp hoffset
    have hlt := List.mem_range.mp hk
    omega
  refine (foldl_shift_covers hoffsets hstart).mono fun i j n hn hshift hmatch _ => .inr ?_
  have hleft := hmatch.1.left
  have hright := hmatch.1.right
  unfold LastShift at hshift
  exact List.mem_map.mpr ⟨i + lem.length - 1 - j, List.mem_range.mpr (by omega), by omega⟩

/-! ### When it is a longest match -/

/-- No valid common substring is longer. -/
def Longest (form lem : Bytes) (n : ℕ) : Prop :=
  ∀ s, s <:+: form → s <:+: lem → Utf8.valid s = true → s.length ≤ n

/-- The rule is based on a longest common substring that is valid, and it makes the lemma of the
form. -/
structure ReproducesLemma (form lem tag : Bytes) : Prop where
  isMatch : IsMatch form lem (findBest form lem).form (Best.lemma (findBest form lem))
    (findBest form lem).length
  longest : Longest form lem (findBest form lem).length
  fits : (ruleOf form lem tag (findBest form lem)).Fits form
  lemmaOf : (ruleOf form lem tag (findBest form lem)).lemmaOf form = lem

/-- A longest valid common substring stands at the start of a run and not at the last shift,
or there is none. -/
def LongestIsTried (form lem : Bytes) : Prop :=
  Longest form lem 0 ∨
    ∃ i j n, IsMatch form lem i j n ∧ Longest form lem n ∧ StartsRun form lem i j ∧
      ¬ LastShift form i j

/-- Whatever the match is, its rule makes the lemma. -/
theorem ruleOf_lemmaOf {best : Best}
    (h : CommonAt form lem best.form best.lemma best.length) (tag : Bytes) :
    (ruleOf form lem tag best).lemmaOf form = lem := by
  have hleft := h.left
  have hpref : (form.take best.form).length = best.form := by
    rw [List.length_take]
    omega
  have hinner : form.length - best.form - (form.drop (best.form + best.length)).length =
      best.length := by
    rw [List.length_drop]
    omega
  rw [Replacement.lemmaOf, ruleOf, hpref, hinner]
  exact h.replace

/-- The rule for a match fits the form. -/
theorem ruleOf_fits {best : Best} (h : CommonAt form lem best.form best.lemma best.length)
    (hlem : lem ≠ []) (tag : Bytes) : (ruleOf form lem tag best).Fits form where
  apart := by
    have hleft := h.left
    simp only [ruleOf, List.length_take, List.length_drop]
    omega
  starts := List.take_prefix _ _
  ends := List.drop_suffix _ _
  nonempty := by rwa [ruleOf_lemmaOf h]

/-- The rule of a form and a lemma is based on a longest match if and only if one of the longest
matches is tried. -/
theorem reproducesLemma_iff (form : Bytes) {lem : Bytes} (hlem : lem ≠ []) (tag : Bytes) :
    ReproducesLemma form lem tag ↔ LongestIsTried form lem := by
  have hcovers := findBest_covers form lem
  have hrule : Longest form lem (findBest form lem).length → ReproducesLemma form lem tag :=
    fun hlongest => ⟨hcovers.isMatch, hlongest, ruleOf_fits hcovers.isMatch.1 hlem tag,
      ruleOf_lemmaOf hcovers.isMatch.1 tag⟩
  constructor
  · intro h
    rcases Nat.eq_zero_or_pos (findBest form lem).length with hzero | hpos
    · have hlongest := h.longest
      rw [hzero] at hlongest
      exact .inl hlongest
    · exact .inr ⟨_, _, _, hcovers.isMatch, h.longest, hcovers.startsRun,
        hcovers.notLast hpos.ne'⟩
  · rintro (hnone | ⟨i, j, n, hmatch, hlongest, hstart, hshift⟩)
    · exact hrule fun s hform hlemma hvalid => (hnone s hform hlemma hvalid).trans (Nat.zero_le _)
    · have hle := hcovers.most i j n hshift hmatch hstart
      exact hrule fun s hform hlemma hvalid => (hlongest s hform hlemma hvalid).trans hle

/-- The lemma `lem` of the form `elem` is a match that the shifts come to. -/
theorem reproducesLemma_iff_elem : bytes "lem" ≠ [] ∧
    (ReproducesLemma (bytes "elem") (bytes "lem") (bytes "N") ↔
      LongestIsTried (bytes "elem") (bytes "lem")) :=
  ⟨by decide, reproducesLemma_iff (bytes "elem") (by decide) (bytes "N")⟩

/-- The form `ba` and the lemma `a` have a match at the last shift only. -/
theorem not_reproducesLemma_lastShift :
    Utf8.valid (bytes "ba") = true ∧ Utf8.valid (bytes "a") = true ∧ bytes "ba" ≠ [] ∧
      bytes "a" ≠ [] ∧ ¬ ReproducesLemma (bytes "ba") (bytes "a") (bytes "N") := by
  refine ⟨by decide, by decide, by decide, by decide, fun h => ?_⟩
  have hlength : (findBest (bytes "ba") (bytes "a")).length = 0 := by decide
  have hlongest := h.longest
  rw [hlength] at hlongest
  exact absurd (hlongest (bytes "a") ⟨bytes "b", [], by decide⟩ ⟨[], [], by decide⟩ (by decide))
    (by decide)

/-- The last byte of two characters is the same and stands before a common letter, which is
then not found. -/
example : findBest [0xC3, 0xA9, 97] [0xC4, 0xA9, 97] = ⟨0, 0, 0⟩ := by decide

/-! ### The rule as a text -/

/-- The encoder reads the rule of an instance back, unless there are spaces in the form or in
the lemma. -/
theorem parseReplacements_lemmaRule {tag : Bytes} (hform : space ∉ form) (hlem : space ∉ lem)
    (htag : space ∉ tag) (hne : tag ≠ []) :
    parseReplacements [(Instance.new form lem tag).lemmaRule, tag] =
      some [ruleOf form lem tag (findBest form lem)] := by
  obtain ⟨rule, hrule⟩ : ∃ rule, rule = ruleOf form lem tag (findBest form lem) := ⟨_, rfl⟩
  have htext : (Instance.new form lem tag).lemmaRule =
      [space].intercalate [rule.prefDel, rule.prefAdd, rule.suffDel, rule.suffAdd] := by
    rw [hrule]
    simp [Instance.new, ruleText, List.intercalate]
  have hparts : ∀ p ∈ [rule.prefDel, rule.prefAdd, rule.suffDel, rule.suffAdd], space ∉ p := by
    rw [hrule]
    simp only [ruleOf, List.mem_cons, List.not_mem_nil, or_false, forall_eq_or_imp, forall_eq]
    exact ⟨fun h => hform (List.mem_of_mem_take h), fun h => hlem (List.mem_of_mem_take h),
      fun h => hform (List.mem_of_mem_drop h), fun h => hlem (List.mem_of_mem_drop h)⟩
  have hsplit := split_intercalate hparts (by simp [List.intercalate])
  have htags : split space tag = [tag] := by
    have hsingle := @split_intercalate space [tag] (by simpa using htag)
    simpa [List.intercalate, hne] using hsingle
  rw [parseReplacements, htext, hsplit, htags]
  simp [parseReplacements, hrule, ruleOf]

end UDPipe.Morphodita.GuesserTrainer
