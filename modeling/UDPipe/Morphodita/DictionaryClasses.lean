import UDPipe.Morphodita.DerivatorEncoding
import UDPipe.Morphodita.Dictionary
import Mathlib.Data.List.Dedup

/-!
# The classes of the dictionary

Cutting the forms of a lemma into classes loses none of them, whatever prefix the trie proposes:
the forms of a class stand between two forms with a common root, so they all have it.
-/

namespace UDPipe.Morphodita

/-! ### Paths of the trie -/

namespace Trie

/-- The paths that lead down from the root. -/
inductive IsPath : Trie → Bytes → Prop
  | nil (t : Trie) : IsPath t []
  | cons {t child : Trie} {c : Byte} {path : Bytes} (hchild : (c, child) ∈ t.children)
      (hpath : IsPath child path) : IsPath t (c :: path)

/-- The rest is added to a child of the trie, or to an empty one. -/
theorem mem_addChild {addRest : Trie → Trie} {c : Byte} {children : List (Byte × Trie)}
    {child : Byte × Trie} (h : child ∈ (addChild addRest c children).1) :
    child ∈ children ∨ ∃ old, (old = empty ∨ (c, old) ∈ children) ∧ child = (c, addRest old) := by
  induction children with
  | nil => exact .inr ⟨empty, .inl rfl, List.mem_singleton.mp h⟩
  | cons first children ih =>
    rw [addChild] at h
    split at h
    · next heq =>
      rcases List.mem_cons.mp h with rfl | h
      · exact .inr ⟨first.2, .inr (heq ▸ List.mem_cons_self), rfl⟩
      · exact .inl (List.mem_cons_of_mem _ h)
    · rcases List.mem_cons.mp h with rfl | h
      · exact .inl List.mem_cons_self
      · rcases ih h with h | ⟨old, hold, heq⟩
        · exact .inl (List.mem_cons_of_mem _ h)
        · exact .inr ⟨old, hold.imp_right (List.mem_cons_of_mem _), heq⟩

/-- A path of the trie begins the string that was added, or was there before. -/
theorem isPath_add {str path : Bytes} {t : Trie} (h : IsPath (add str t) path) :
    IsPath t path ∨ path <+: str := by
  induction str generalizing t path with
  | nil => exact .inl h
  | cons c str ih =>
    cases h with
    | nil => exact .inl (.nil t)
    | cons hchild hpath =>
      rcases mem_addChild hchild with hchild | ⟨old, hold, heq⟩
      · exact .inl (.cons hchild hpath)
      · obtain ⟨rfl, rfl⟩ := Prod.mk.injEq .. ▸ heq
        rcases ih hpath with hpath | hbegins
        · rcases hold with rfl | hold
          · cases hpath with
            | nil => exact .inr (List.cons_prefix_cons.mpr ⟨rfl, List.nil_prefix⟩)
            | cons hchild _ => cases hchild
          · exact .inl (.cons hold hpath)
        · exact .inr (List.cons_prefix_cons.mpr ⟨rfl, hbegins⟩)

/-- A path of the trie begins one of the strings that were added. -/
theorem isPath_foldl {strs : List Bytes} {t : Trie} {path : Bytes}
    (h : IsPath (strs.foldl (fun t str => t.add str) t) path) :
    IsPath t path ∨ ∃ str ∈ strs, path <+: str := by
  induction strs generalizing t with
  | nil => exact .inl h
  | cons str strs ih =>
    rcases ih h with h | ⟨other, hother, hbegins⟩
    · exact (isPath_add h).imp_right fun hbegins => ⟨str, List.mem_cons_self, hbegins⟩
    · exact .inr ⟨other, List.mem_cons_of_mem _ hother, hbegins⟩

mutual

/-- The candidate is a path behind `current`, if it is a new one. -/
theorem findCandidatePrefix_spec (maxSuffixLen : ℤ) (current : Bytes) (length : ℕ) (t : Trie)
    (best : Bytes × ℕ) :
    (findCandidatePrefix maxSuffixLen current length t best).1 = best.1 ∨
      ∃ path, IsPath t path ∧
        (findCandidatePrefix maxSuffixLen current length t best).1 = current ++ path := by
  match t with
  | node children depth =>
    rw [findCandidatePrefix]
    rcases findCandidatePrefixes_spec maxSuffixLen current
      (if children.length = 1 then length + 1 else 1) children
      (if (depth : ℤ) < maxSuffixLen ∧ length > best.2 then (current, length) else best) with
      heq | ⟨c, child, path, hchild, hpath, heq⟩
    · rw [heq]
      split
      · exact .inr ⟨[], .nil _, (List.append_nil current).symm⟩
      · exact .inl rfl
    · exact .inr ⟨c :: path, .cons hchild hpath, heq⟩

/-- A candidate is the best one before or a path through a child. -/
theorem findCandidatePrefixes_spec (maxSuffixLen : ℤ) (current : Bytes) (length : ℕ)
    (children : List (Byte × Trie)) (best : Bytes × ℕ) :
    (findCandidatePrefixes maxSuffixLen current length children best).1 = best.1 ∨
      ∃ c child path, (c, child) ∈ children ∧ IsPath child path ∧
        (findCandidatePrefixes maxSuffixLen current length children best).1 =
          current ++ c :: path := by
  match children with
  | [] => exact .inl rfl
  | (c, child) :: children =>
    rw [findCandidatePrefixes]
    rcases findCandidatePrefixes_spec maxSuffixLen current length children
      (findCandidatePrefix maxSuffixLen (current ++ [c]) length child best) with
      heq | ⟨d, other, path, hother, hpath, heq⟩
    · rw [heq]
      rcases findCandidatePrefix_spec maxSuffixLen (current ++ [c]) length child best with
        heq | ⟨path, hpath, heq⟩
      · exact .inl heq
      · exact .inr ⟨c, child, path, List.mem_cons_self, hpath, by simpa using heq⟩
    · exact .inr ⟨d, other, path, List.mem_cons_of_mem _ hother, hpath, heq⟩

end

/-- The prefix that is found begins one of the strings. -/
theorem exists_candidate {strs : List Bytes} (hne : strs ≠ []) (maxSuffixLen : ℤ) :
    ∃ str ∈ strs, ((strs.foldl (fun t str => t.add str) empty).findCandidatePrefix maxSuffixLen [] 0
      ([], 0)).1 <+: str := by
  obtain ⟨first, more, rfl⟩ := List.exists_cons_of_ne_nil hne
  rcases findCandidatePrefix_spec maxSuffixLen [] 0
    ((first :: more).foldl (fun t str => t.add str) empty) ([], 0) with heq | ⟨path, hpath, heq⟩
  · exact ⟨first, List.mem_cons_self, heq ▸ List.nil_prefix⟩
  · rw [heq, List.nil_append]
    rcases isPath_foldl hpath with hempty | ⟨str, hstr, hbegins⟩
    · cases hempty with
      | nil => exact ⟨first, List.mem_cons_self, List.nil_prefix⟩
      | cons hchild _ => cases hchild
    · exact ⟨str, hstr, hbegins⟩

end Trie

/-! ### Forms of a class -/

/-- Strings in their order begin in their order. -/
theorem take_le_take {s t : Bytes} (h : s ≤ t) (n : ℕ) : s.take n ≤ t.take n := by
  induction n generalizing s t with
  | zero => exact List.le_refl _
  | succ n ih =>
    cases s with
    | nil => exact List.nil_le _
    | cons c s =>
      cases t with
      | nil => exact absurd h (by simp)
      | cons d t =>
        rw [List.take_succ_cons, List.take_succ_cons]
        rcases List.cons_le_cons_iff.mp h with hlt | ⟨rfl, hle⟩
        · exact List.cons_le_cons_iff.mpr (.inl hlt)
        · exact List.cons_le_cons_iff.mpr (.inr ⟨rfl, ih hle⟩)

/-- What stands between two strings has their common beginning. -/
theorem take_eq_of_between {s t u : Bytes} {n : ℕ} (hst : s ≤ t) (htu : t ≤ u)
    (h : s.take n = u.take n) : t.take n = s.take n :=
  List.le_antisymm (h ▸ take_le_take htu n) (take_le_take hst n)

/-- Ordered forms have ordered suffixes. -/
theorem fst_le_of_taggedFormLe {a b : TaggedForm} (h : taggedFormLe a b) : a.1 ≤ b.1 := by
  rcases h with hlt | ⟨heq, -⟩
  · exact List.le_of_lt hlt
  · exact heq ▸ List.le_refl _

/-- The forms of a sorted list have what the first and the last one have in common. -/
theorem take_eq_of_sorted {forms : List TaggedForm} (hsorted : forms.Pairwise taggedFormLe)
    {start last : TaggedForm} (hstart : forms.head? = some start)
    (hlast : forms.getLast? = some last) {n : ℕ} (h : start.1.take n = last.1.take n) :
    ∀ f ∈ forms, f.1.take n = start.1.take n := by
  intro f hf
  refine take_eq_of_between ?_ ?_ h
  · obtain ⟨more, rfl⟩ := List.head?_eq_some_iff.mp hstart
    rcases List.mem_cons.mp hf with rfl | hf
    · exact List.le_refl _
    · exact fst_le_of_taggedFormLe (List.rel_of_pairwise_cons hsorted hf)
  · obtain ⟨before, rfl⟩ := List.getLast?_eq_some_iff.mp hlast
    rcases List.mem_append.mp hf with hf | hf
    · exact fst_le_of_taggedFormLe
        ((List.pairwise_append.mp hsorted).2.2 f hf last List.mem_cons_self)
    · exact List.mem_singleton.mp hf ▸ List.le_refl _

/-- The forms of a class: its suffixes behind its root. -/
def withRoot (root : Bytes) (members : List TaggedForm) : List TaggedForm :=
  members.map fun m => (root ++ m.1, m.2)

/-- A class has some of the forms, all with its root, and the others are left. -/
structure Cuts (next : NextClass) (forms : List TaggedForm) : Prop where
  members : next.members ≠ []
  perm : forms.Perm (withRoot next.root next.members ++ next.rest)
  rest : next.rest.Sublist forms

/-- Behind the dropped elements is one that is not dropped. -/
theorem dropWhile_eq_cons {α : Type} {p : α → Bool} {l more : List α} {a : α}
    (h : l.dropWhile p = a :: more) : p a = false := by
  induction l with
  | nil => cases h
  | cons b l ih =>
    rw [List.dropWhile_cons] at h
    split at h
    · exact ih h
    · next hb =>
      obtain ⟨rfl, -⟩ := List.cons.inj h
      simpa using hb

/-- With a prefix of one of the forms, a class is cut off. -/
theorem cuts_classOf {pref : Bytes} {forms : List TaggedForm}
    (hsorted : forms.Pairwise taggedFormLe) (hpref : ∃ f ∈ forms, pref <+: f.1) :
    ∃ next, classOf pref forms = some next ∧ Cuts next forms := by
  obtain ⟨outside, houtside⟩ : ∃ p : TaggedForm → Bool,
      p = fun f : TaggedForm => decide (f.1.take pref.length ≠ pref) := ⟨_, rfl⟩
  obtain ⟨inside, hinside⟩ : ∃ p : TaggedForm → Bool,
      p = fun f : TaggedForm => decide (f.1.take pref.length = pref) := ⟨_, rfl⟩
  have hsplit := forms.takeWhile_append_dropWhile (p := outside)
  rw [classOf, ← houtside, ← hinside]
  cases hrest : forms.dropWhile outside with
  | nil =>
    obtain ⟨f, hf, hbegins⟩ := hpref
    have hall := List.dropWhile_eq_nil_iff.mp hrest f hf
    rw [houtside] at hall
    simp [← List.prefix_iff_eq_take.mp hbegins] at hall
  | cons start more =>
    have hstart : inside start = true := by
      have hnot := dropWhile_eq_cons hrest
      rw [houtside] at hnot
      rw [hinside]
      simpa using hnot
    obtain ⟨inClass, hinClass⟩ : ∃ l, l = (start :: more).takeWhile inside := ⟨_, rfl⟩
    have hcons : inClass = start :: more.takeWhile inside := by
      rw [hinClass, List.takeWhile_cons_of_pos hstart]
    have hpieces := (start :: more).takeWhile_append_dropWhile (p := inside)
    rw [← hinClass] at hpieces
    rw [hrest, ← hpieces] at hsplit
    have hclassSorted : inClass.Pairwise taggedFormLe := by
      refine hsorted.sublist ?_
      rw [← hsplit]
      exact (List.sublist_append_left _ _).trans (List.sublist_append_right _ _)
    have hmemInside : ∀ f ∈ inClass, f.1.take pref.length = pref := by
      intro f hf
      have hf := List.mem_takeWhile_imp (hinClass ▸ hf)
      rw [hinside] at hf
      simpa using hf
    obtain ⟨last, hlast⟩ : ∃ last, last = inClass.getLastD start := ⟨_, rfl⟩
    have hlast? : inClass.getLast? = some last := by
      rw [hlast, List.getLastD_eq_getLast?, List.getLast?_eq_some_getLast (by simp [hcons]),
        Option.getD_some]
    obtain ⟨n, hn⟩ : ∃ n, n = pref.length +
        Derinet.matchLength (start.1.drop pref.length) (last.1.drop pref.length) := ⟨_, rfl⟩
    have hcommon : start.1.take n = last.1.take n := by
      obtain ⟨-, -, htake⟩ := Derinet.matchLength_spec (start.1.drop pref.length)
        (last.1.drop pref.length)
      rw [hn, List.take_add, List.take_add, htake, hmemInside start (by simp [hcons]),
        hmemInside last (List.mem_of_getLast? hlast?)]
    have hroot := take_eq_of_sorted hclassSorted (by rw [hcons, List.head?_cons]) hlast? hcommon
    have hmembers : withRoot (start.1.take n) (inClass.map fun f => (f.1.drop n, f.2)) =
        inClass := by
      rw [withRoot, List.map_map]
      refine (List.map_congr_left fun f hf => ?_).trans (List.map_id inClass)
      rw [Function.comp_apply, ← hroot f hf, List.take_append_drop]
      rfl
    simp only [← hinClass, ← hlast, ← hn]
    refine ⟨_, rfl, by simp [hcons], ?_, ?_⟩
    · dsimp only
      rw [hmembers]
      conv_lhs => rw [← hsplit]
      rw [← List.append_assoc, ← List.append_assoc]
      exact List.perm_append_comm.append_right _
    · dsimp only
      conv_rhs => rw [← hsplit]
      exact (List.Sublist.refl _).append (List.sublist_append_right _ _)

/-- A pass of the loop cuts a class off: the prefix that the trie proposes is found. -/
theorem cuts_nextClass (maxSuffixLen : ℤ) {forms : List TaggedForm} (hne : forms ≠ [])
    (hsorted : forms.Pairwise taggedFormLe) :
    ∃ next, nextClass maxSuffixLen forms = some next ∧ Cuts next forms := by
  obtain ⟨str, hstr, hbegins⟩ := @Trie.exists_candidate (forms.map fun f => Derinet.cString f.1)
    (by simpa using hne) maxSuffixLen
  obtain ⟨f, hf, rfl⟩ := List.mem_map.mp hstr
  rw [List.foldl_map] at hbegins
  exact cuts_classOf hsorted ⟨f, hf, hbegins.trans (List.takeWhile_prefix _)⟩

/-! ### Different forms in their order -/

/-- The order of the forms is antisymmetric. -/
theorem taggedFormLe_antisymm {a b : TaggedForm} (hab : taggedFormLe a b)
    (hba : taggedFormLe b a) : a = b := by
  have hfst := List.le_antisymm (fst_le_of_taggedFormLe hab) (fst_le_of_taggedFormLe hba)
  rcases hab with hlt | ⟨-, hab⟩
  · exact absurd (hfst ▸ hlt) (List.lt_irrefl _)
  · rcases hba with hlt | ⟨-, hba⟩
    · exact absurd (hfst ▸ hlt) (List.lt_irrefl _)
    · exact Prod.ext hfst (List.le_antisymm hab hba)

instance : Std.Total taggedFormLe where
  total a b := by
    by_cases hab : a.1 < b.1
    · exact .inl (.inl hab)
    by_cases hba : b.1 < a.1
    · exact .inr (.inl hba)
    have heq := List.le_antisymm (List.not_lt.mp hba) (List.not_lt.mp hab)
    exact (List.le_total a.2 b.2).imp (fun h => .inr ⟨heq, h⟩) (fun h => .inr ⟨heq.symm, h⟩)

instance : IsTrans TaggedForm taggedFormLe where
  trans a b c := by
    rintro (hab | ⟨hab, hab'⟩) (hbc | ⟨hbc, hbc'⟩)
    · exact .inl (List.lt_trans hab hbc)
    · exact .inl (hbc ▸ hab)
    · exact .inl (hab ▸ hbc)
    · exact .inr ⟨hab.trans hbc, List.le_trans hab' hbc'⟩

/-- Leaving out repetitions keeps the forms. -/
theorem mem_unique {f : TaggedForm} {forms : List TaggedForm} : f ∈ unique forms ↔ f ∈ forms := by
  fun_induction unique forms with
  | case1 b forms ih => simp [ih]
  | case2 a b forms hne ih => rw [List.mem_cons, ih, ← List.mem_cons]
  | case3 forms hshort => rfl

/-- Without repetitions ordered forms are different. -/
theorem pairwise_unique {forms : List TaggedForm} (h : forms.Pairwise taggedFormLe) :
    (unique forms).Pairwise fun a b => taggedFormLe a b ∧ a ≠ b := by
  fun_induction unique forms with
  | case1 b forms ih => exact ih h.of_cons
  | case2 a b forms hne ih =>
    refine List.pairwise_cons.mpr ⟨fun c hc => ?_, ih h.of_cons⟩
    rw [mem_unique] at hc
    refine ⟨List.rel_of_pairwise_cons h hc, ?_⟩
    rintro rfl
    -- a later form that is equal would be less than the one between
    have hab := List.rel_of_pairwise_cons h List.mem_cons_self
    rcases List.mem_cons.mp hc with heq | hc
    · exact hne heq
    · exact hne (taggedFormLe_antisymm hab (List.rel_of_pairwise_cons h.of_cons hc))
  | case3 forms hshort =>
    rcases forms with _ | ⟨a, _ | ⟨b, forms⟩⟩
    · exact .nil
    · exact List.pairwise_singleton _ a
    · exact (hshort a b forms rfl).elim

/-- The forms of a lemma, sorted and different. -/
theorem unique_sorted (forms : List TaggedForm) :
    (unique (forms.insertionSort taggedFormLe)).Pairwise taggedFormLe ∧
      (unique (forms.insertionSort taggedFormLe)).Perm forms.dedup := by
  have hpairwise := pairwise_unique (List.pairwise_insertionSort taggedFormLe forms)
  refine ⟨hpairwise.imp And.left, ?_⟩
  refine (List.perm_ext_iff_of_nodup (hpairwise.imp And.right) (List.nodup_dedup forms)).mpr ?_
  intro f
  rw [mem_unique, List.mem_dedup, List.mem_insertionSort]

end UDPipe.Morphodita
