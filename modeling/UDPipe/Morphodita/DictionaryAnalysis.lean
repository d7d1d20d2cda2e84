import UDPipe.Library.NestedLoops
import UDPipe.Morphodita.DictionaryLoading

/-!
# Analyzing with a dictionary that was loaded

Every way to cut a form into a root and a suffix is tried. The lemmas of the root whose class has
the suffix are those that have the form, so what is found are the lines of the raw dictionary.
-/

namespace UDPipe.Morphodita

open PersistentUnorderedMap (built Represents iter_reads iter_eq_nil mem_group group)
open FnvHash (Reads Measures)

/-! ### Records with one key -/

/-- The records with a key are read in the order of its entries. -/
theorem PersistentUnorderedMap.filter_iter_reads {tables : ℕ} {elems : ℕ → ℕ}
    {entries : List (Bytes × Bytes)} (hne : ∀ e ∈ entries, e.2 ≠ [])
    (htables : ∀ e ∈ entries, e.1.length < tables) {entrySize : Bytes → ℕ}
    (hsize : Measures entrySize entries) (str : Bytes) :
    List.Forall₂ Reads (((built tables elems entries).iter str entrySize).filter fun r => r.1 = str)
      (entries.filter fun e => e.1 = str) := by
  rcases Nat.lt_or_ge str.length tables with hlt | hge
  · have hreads := @iter_reads tables elems entries hne str hlt entrySize
      fun e he => hsize e (mem_group.mp he).1
    have hgroup : (group elems entries str).filter (fun e => e.1 = str) =
        entries.filter fun e => e.1 = str := by
      rw [group, ofLength, List.filter_filter, List.filter_filter]
      apply List.filter_congr
      intro e _
      by_cases heq : e.1 = str <;> simp [heq]
    rw [← hgroup]
    refine List.rel_filter ?_ hreads
    rintro r e ⟨hkey, -⟩
    simp only [hkey]
  · rw [iter_eq_nil hge, List.filter_nil, List.filter_eq_nil_iff.mpr]
    · exact .nil
    · intro e he heq
      have hlt := htables e he
      rw [of_decide_eq_true heq] at hlt
      omega

/-! ### Suffixes of a form -/

namespace MorphoDictionary

/-- The end of a form with a length. -/
def endOf (form : Bytes) (n : ℕ) : Bytes := form.drop (form.length - n)

/-- The loop finds the entries of the ends up to the first one that is missing. -/
theorem findSuffixes_spec (suffixes : PersistentUnorderedMap) (form : Bytes) {count start : ℕ}
    (h : start + count ≤ form.length + 1) :
    ∃ k ≤ count, List.Forall₂ (fun n (s : Bytes × ℕ) => s.2 = n ∧
        suffixes.entryAt (endOf form n) suffixEntrySize = some s.1) (List.range' start k)
          ((findSuffixes suffixes form count start).zipIdx start) ∧
      (k < count → suffixes.entryAt (endOf form (start + k)) suffixEntrySize = none) := by
  induction count generalizing start with
  | zero => exact ⟨0, le_rfl, .nil, fun hlt => absurd hlt (lt_irrefl _)⟩
  | succ count ih =>
    rw [findSuffixes]
    split
    · next hlt =>
      cases hentry : suffixes.entryAt (form.drop (form.length - start)) suffixEntrySize with
      | some data =>
        obtain ⟨k, hk, hall, hend⟩ := @ih (start + 1) (by omega)
        refine ⟨k + 1, Nat.succ_le_succ hk, .cons ⟨rfl, hentry⟩ hall, fun hlt => ?_⟩
        have hnone := hend (Nat.lt_of_succ_lt_succ hlt)
        rwa [Nat.add_assoc, Nat.add_comm 1 k] at hnone
      | none => exact ⟨0, Nat.zero_le _, .nil, fun _ => hentry⟩
    · next hge =>
      refine ⟨0, Nat.zero_le _, .nil, fun _ => ?_⟩
      have hlength : (endOf form (start + 0)).length = start := by
        rw [endOf, List.length_drop]
        omega
      rw [PersistentUnorderedMap.entryAt, hlength, List.getElem?_eq_none (Nat.not_lt.mp hge)]

end MorphoDictionary

namespace Dictionary

open MorphoDictionary

variable {dict : Dictionary} {classList : List (List TaggedForm)} {morpho : MorphoDictionary}
  {entries lemmaEntries rootEntries : List (Bytes × Bytes)}

section Suffixes

variable (h : dict.LoadedAs classList morpho entries lemmaEntries rootEntries)
  (hfew : dict.table.FewTags)
include h hfew

/-- A suffix is found with its classes. -/
theorem LoadedAs.entryAt_mem {str : Bytes} (hstr : str ∈ entries.map Prod.fst) :
    ∃ (suffix : SuffixClasses) (more : Bytes), suffix.Fits ∧ suffix.total < 2 ^ 16 ∧
      EntryFor dict.table.table.tags classList str suffix ∧
      morpho.suffixes.entryAt str suffixEntrySize = some (suffix.data ++ more) := by
  obtain ⟨entry, hentry, rfl⟩ := List.mem_map.mp hstr
  obtain ⟨suffix, hfits, hdata, hentryFor, htotal⟩ := h.encodes.entry entry hentry
  obtain ⟨more, hat⟩ := h.suffixes.at_mem _ (h.encodes.measures hfew) entry hentry
  exact ⟨suffix, more, hfits, htotal hfew, hentryFor, hdata ▸ hat⟩

/-- No entry is found for a suffix that is not there. -/
theorem LoadedAs.entryAt_not_mem {str : Bytes} (hstr : str ∉ entries.map Prod.fst) :
    morpho.suffixes.entryAt str suffixEntrySize = none :=
  h.suffixes.at_not_mem _ (h.encodes.measures hfew) str
    fun _ he heq => hstr (heq ▸ List.mem_map_of_mem he)

/-- The ends of a form that are suffixes are found, if some class has the empty suffix. -/
theorem LoadedAs.findSuffixes_eq (form : Bytes) :
    ∃ k ≤ form.length + 1, List.Forall₂ (fun n (s : Bytes × ℕ) => s.2 = n ∧
        morpho.suffixes.entryAt (endOf form n) suffixEntrySize = some s.1) (List.range k)
          (findSuffixes morpho.suffixes form (form.length + 1) 0).zipIdx ∧
      if [] ∈ dict.table.suffixes.map Prod.fst
      then ∀ n, k ≤ n → n ≤ form.length → endOf form n ∉ entries.map Prod.fst
      else k = 0 := by
  obtain ⟨k, hk, hall, hend⟩ := @findSuffixes_spec morpho.suffixes form (form.length + 1) 0
    (Nat.zero_add _).le
  rw [← List.range_eq_range'] at hall
  refine ⟨k, hk, hall, ?_⟩
  have hmissing : ∀ n, k ≤ n → n ≤ form.length → n ≠ 0 → k ≠ 0 →
      endOf form n ∉ entries.map Prod.fst := by
    intro n hkn hn hn0 hk0 hmem
    have hnone := hend (by omega)
    have hlength : (endOf form k).length = k := by
      rw [endOf, List.length_drop]
      omega
    have hends : endOf form k <:+ endOf form n := by
      have hdrop : endOf form k = (endOf form n).drop (n - k) := by
        rw [endOf, endOf, List.drop_drop]
        congr 1
        omega
      exact hdrop ▸ List.drop_suffix _ _
    have hkey := h.encodes.closed _ hmem (endOf form k) (by
      rintro hnil
      rw [hnil, List.length_nil] at hlength
      omega) hends
    obtain ⟨suffix, more, -, -, -, hat⟩ := h.entryAt_mem hfew hkey
    rw [Nat.zero_add, hat] at hnone
    cases hnone
  have hnil : endOf form 0 = [] := by
    rw [endOf, Nat.sub_zero, List.drop_length]
  split
  · next hmem =>
    rw [← h.encodes.nil_mem, ← hnil] at hmem
    obtain ⟨suffix, more, -, -, -, hat⟩ := h.entryAt_mem hfew hmem
    have hk0 : k ≠ 0 := by
      rintro rfl
      rw [hend (Nat.succ_pos _)] at hat
      cases hat
    exact fun n hkn hn => hmissing n hkn hn (by omega) hk0
  · next hmem =>
    rw [← h.encodes.nil_mem, ← hnil] at hmem
    have hnone := h.entryAt_not_mem hfew hmem
    by_contra hk0
    obtain ⟨k, rfl⟩ := Nat.exists_eq_succ_of_ne_zero hk0
    rw [List.range_succ_eq_map] at hall
    obtain ⟨s, l, ⟨-, hat⟩, -, -⟩ := List.forall₂_cons_left_iff.mp hall
    rw [hnone] at hat
    cases hat

end Suffixes

/-! ### Roots with a suffix -/

/-- The analyses of a lemma for one of its roots and a suffix. -/
def suffixAnalyses (addinfo : LemmaAddinfo) (classList : List (List TaggedForm)) (suffix : Bytes)
    (root : DictionaryLemma × LemmaFormInfo) : List (Bytes × Bytes) :=
  (tagsOf suffix (membersOf classList root.2.clas)).map fun tag => (lemmaText addinfo root.1, tag)

/-- The lemma of a root is read with its data. -/
theorem lemmaAt_eq (addinfo : LemmaAddinfo) {lemmas : PersistentUnorderedMap}
    {info : DictionaryLemma} {place : ℕ} (hplace : LemmaAt lemmas info place)
    (hfits : info.addinfo.length < 256) :
    lemmaAt addinfo lemmas place info.lem.length = lemmaText addinfo info := by
  obtain ⟨more, hdrop⟩ := hplace.drop
  have hlen : unalignedLoad 1 (toBytes 1 info.addinfo.length ++ (info.addinfo ++ more)) =
      info.addinfo.length := unalignedLoad_append hfits _
  simp only [lemmaAt, hdrop, List.drop_left, List.take_left, hlen, lemmaText,
    List.length_eq_zero_iff]
  rw [← List.drop_drop, List.drop_left, List.drop_left' (length_toBytes 1 _), List.take_left]

/-- What is found in the entry of a root. -/
theorem LoadedAs.analyzeRoot_eq (h : dict.LoadedAs classList morpho entries lemmaEntries rootEntries)
    (addinfo : LemmaAddinfo) {str : Bytes} {suffix : SuffixClasses} (hfits : suffix.Fits)
    (htotal : suffix.total < 2 ^ 16) (hentry : EntryFor dict.table.table.tags classList str suffix)
    (more : Bytes) {root : DictionaryLemma × LemmaFormInfo} (hroot : root ∈ rootsOf dict.lemmas)
    {place : ℕ} (hplace : LemmaAt morpho.lemmas root.1 place) {record : Bytes × Bytes}
    (hrecord : FnvHash.Reads record (rootEntry place root.1.lem.length root.2)) :
    morpho.analyzeRoot addinfo root.2.form (suffix.data ++ more) record =
      suffixAnalyses addinfo classList str root := by
  obtain ⟨hkey, rest, hdata⟩ := hrecord
  obtain ⟨info, hinfo, hmem⟩ := List.mem_flatMap.mp hroot
  obtain ⟨form, hform, rfl⟩ := List.mem_map.mp hmem
  have hclas := (h.fits info hinfo).classes form hform
  have hdata' : record.2 = toBytes 2 form.clas ++ (toBytes 4 place ++
      (toBytes 1 info.lem.length ++ rest)) := by
    rw [hdata, rootEntry, List.append_assoc, List.append_assoc]
  have hplaceData : record.2.drop 2 = toBytes 4 place ++ (toBytes 1 info.lem.length ++ rest) := by
    rw [hdata', List.drop_left' (length_toBytes 2 _)]
  have hlenData : record.2.drop 6 = toBytes 1 info.lem.length ++ rest := by
    have hdrop := congrArg (List.drop 4) hplaceData
    rwa [List.drop_drop, List.drop_left' (length_toBytes 4 _)] at hdrop
  have hloadClas : unalignedLoad 2 record.2 = form.clas := hdata' ▸ unalignedLoad_append hclas _
  have hloadPlace : unalignedLoad 4 (record.2.drop 2) = place :=
    hplaceData ▸ unalignedLoad_append hplace.lt _
  have hloadLen : unalignedLoad 1 (record.2.drop 6) = info.lem.length :=
    hlenData ▸ unalignedLoad_append (h.lemmaLengths info hinfo) _
  have htags := SuffixClasses.tags_analyzed hfits htotal more form.clas
  have hkey' : form.form = record.1 := hkey.symm
  simp only [analyzeRoot, hloadClas, hloadPlace, hloadLen, if_pos hkey',
    lemmaAt_eq addinfo hplace (h.fits info hinfo).addinfo, h.tags]
  rw [suffixAnalyses, ← hentry.names, ← htags, List.map_map]
  cases analyzedRange (suffix.data ++ more) form.clas <;> rfl

/-- What is found for a root and a suffix. -/
theorem LoadedAs.flatMap_analyzeRoot
    (h : dict.LoadedAs classList morpho entries lemmaEntries rootEntries) (addinfo : LemmaAddinfo)
    {str : Bytes} {suffix : SuffixClasses} (hfits : suffix.Fits)
    (htotal : suffix.total < 2 ^ 16) (hentry : EntryFor dict.table.table.tags classList str suffix)
    (more root : Bytes) :
    (morpho.roots.iter root fun _ => 7).flatMap
        (morpho.analyzeRoot addinfo root (suffix.data ++ more)) =
      ((rootsOf dict.lemmas).filter fun r => r.2.form = root).flatMap
        (suffixAnalyses addinfo classList str) := by
  obtain ⟨tables, elems, hbuilt, htables⟩ := h.linked.root_built
  dsimp only at hbuilt
  have hlengths : ∀ e ∈ rootEntries, e.2.length = 7 := by
    intro e he
    obtain ⟨root, -, place, rfl, -⟩ := exists_of_forall₂ h.linked.roots_filled he
    exact length_rootEntry _ _ _
  have hreads := @PersistentUnorderedMap.filter_iter_reads tables elems rootEntries
    (fun e he => List.ne_nil_of_length_eq_add_one (hlengths e he)) htables (fun _ => 7)
    (fun e he more => (hlengths e he).symm) root
  rw [← hbuilt] at hreads
  rw [← NestedLoops.flatMap_filter_eq (p := fun r : Bytes × Bytes => decide (r.1 = root))]
  · have hfilled := @List.rel_filter _ _ _ (fun r : DictionaryLemma × LemmaFormInfo =>
      decide (r.2.form = root)) (fun e : Bytes × Bytes => decide (e.1 = root)) (by
        rintro r e ⟨place, rfl, -⟩
        rfl) _ _ h.linked.roots_filled
    have hroots := (List.forall₂_and_left _ _).mpr ⟨fun r hr => List.mem_filter.mp hr, hfilled⟩
    refine NestedLoops.flatMap_eq_of_common hreads hroots ?_
    rintro record r e hrecord ⟨⟨hr, hroot⟩, place, rfl, hplace⟩
    rw [← of_decide_eq_true hroot]
    exact h.analyzeRoot_eq addinfo hfits htotal hentry more hr hplace hrecord
  · intro r _ hne
    rw [analyzeRoot, if_neg fun heq => of_decide_eq_false hne heq.symm]

/-! ### All ways to cut a form -/

/-- The analyses of a form for the ends with a length. -/
def cutAnalyses (addinfo : LemmaAddinfo) (classList : List (List TaggedForm))
    (lemmas : List DictionaryLemma) (form : Bytes) (n : ℕ) : List (Bytes × Bytes) :=
  ((rootsOf lemmas).filter fun r => r.2.form = form.take (form.length - n)).flatMap
    (suffixAnalyses addinfo classList (endOf form n))

/-- What is found for an end with its entry. -/
def endAnalyses (morpho : MorphoDictionary) (addinfo : LemmaAddinfo) (form : Bytes)
    (s : Bytes × ℕ) : List (Bytes × Bytes) :=
  if unalignedLoad 2 s.1 = 0 then []
  else (morpho.roots.iter (form.take (form.length - s.2)) fun _ => 7).flatMap
    (morpho.analyzeRoot addinfo (form.take (form.length - s.2)) s.1)

/-- The loop stops at roots that are longer than all others. -/
theorem analyze_eq (morpho : MorphoDictionary) (addinfo : LemmaAddinfo) (form : Bytes) :
    morpho.analyze addinfo form =
      (findSuffixes morpho.suffixes form (form.length + 1) 0).zipIdx.reverse.flatMap
        (endAnalyses morpho addinfo form) := by
  obtain ⟨suff, hsuff⟩ : ∃ suff, suff = findSuffixes morpho.suffixes form (form.length + 1) 0 :=
    ⟨_, rfl⟩
  rw [analyze, ← hsuff]
  refine NestedLoops.flatMap_takeWhile_eq (fun s _ hs => ?_) ?_
  · have hge : morpho.roots.hashes.length ≤ form.length - s.2 :=
      Nat.not_lt.mp (of_decide_eq_false hs)
    have hiter : (morpho.roots.iter (form.take (form.length - s.2)) fun _ => 7) = [] := by
      rw [PersistentUnorderedMap.iter, List.length_take_of_le (Nat.sub_le _ _),
        List.getElem?_eq_none hge]
    dsimp only
    rw [hiter, List.flatMap_nil, ite_self]
  · have hsorted : (suff.zipIdx.map Prod.snd).Pairwise (· < ·) := by
      rw [List.zipIdx_map_snd]
      exact List.pairwise_lt_range'
    rw [List.pairwise_reverse]
    refine (List.pairwise_map.mp hsorted).imp fun hlt hfits => ?_
    rw [decide_eq_true_iff] at hfits ⊢
    omega

/-- An end that is found has its analyses. -/
theorem LoadedAs.endAnalyses_eq
    (h : dict.LoadedAs classList morpho entries lemmaEntries rootEntries)
    (hfew : dict.table.FewTags) (addinfo : LemmaAddinfo) (form : Bytes) {s : Bytes × ℕ}
    (hat : morpho.suffixes.entryAt (endOf form s.2) suffixEntrySize = some s.1) :
    endAnalyses morpho addinfo form s =
      cutAnalyses addinfo classList dict.lemmas form s.2 := by
  have hmem : endOf form s.2 ∈ entries.map Prod.fst := by
    by_contra hnot
    rw [h.entryAt_not_mem hfew hnot] at hat
    cases hat
  obtain ⟨suffix, more, hfits, htotal, hentry, hdata⟩ := h.entryAt_mem hfew hmem
  rw [hat, Option.some.injEq] at hdata
  have hfound := h.flatMap_analyzeRoot addinfo hfits htotal hentry more
    (form.take (form.length - s.2))
  rw [endAnalyses, cutAnalyses, ← hfound, hdata, SuffixClasses.unalignedLoad_data hfits]
  split
  · next hzero =>
    rw [hfound, eq_comm, List.flatMap_eq_nil_iff]
    intro r _
    rw [suffixAnalyses, ← hentry.names, SuffixClasses.tagsOfClass,
      List.eq_nil_of_length_eq_zero hzero]
    rfl
  · rfl

/-- A form is analyzed for all its ends, if some class has the empty suffix. -/
theorem LoadedAs.analyze_perm (h : dict.LoadedAs classList morpho entries lemmaEntries rootEntries)
    (hfew : dict.table.FewTags) (addinfo : LemmaAddinfo) (form : Bytes) :
    (morpho.analyze addinfo form).Perm
      (if [] ∈ dict.table.suffixes.map Prod.fst
        then (List.range (form.length + 1)).flatMap
          (cutAnalyses addinfo classList dict.lemmas form)
        else []) := by
  obtain ⟨k, hk, hall, hend⟩ := h.findSuffixes_eq hfew form
  have hperm : (morpho.analyze addinfo form).Perm
      ((List.range k).flatMap (cutAnalyses addinfo classList dict.lemmas form)) := by
    rw [analyze_eq]
    refine ((List.reverse_perm _).flatMap_right _).trans (.of_eq ?_)
    refine NestedLoops.flatMap_eq_of_common hall.flip (List.forall₂_same.mpr fun n _ => rfl) ?_
    rintro s m _ ⟨rfl, hat⟩ rfl
    exact h.endAnalyses_eq hfew addinfo form hat
  refine hperm.trans (.of_eq ?_)
  split at hend
  · next hnil =>
    obtain ⟨j, hj⟩ := Nat.exists_eq_add_of_le hk
    have hrest : (List.range' k j).flatMap (cutAnalyses addinfo classList dict.lemmas form) = [] := by
      refine List.flatMap_eq_nil_iff.mpr fun n hn => ?_
      obtain ⟨hkn, hn⟩ := List.mem_range'_1.mp hn
      rw [cutAnalyses, List.flatMap_eq_nil_iff]
      intro r _
      rw [suffixAnalyses, h.encodes.missing _ (hend n hkn (by omega))]
      rfl
    rw [if_pos hnil, hj, List.range_eq_range' (n := k + j), ← List.range'_append_1,
      List.flatMap_append, Nat.zero_add, hrest, List.append_nil, List.range_eq_range']
  · next hnil => rw [if_neg hnil, hend, List.range_zero, List.flatMap_nil]

/-- The forms of a root that are a form. -/
theorem filter_withRoot (root : Bytes) (members : List TaggedForm) (form : Bytes) :
    (withRoot root members).filter (fun f => f.1 = form) =
      if root = form.take root.length
        then withRoot root (members.filter fun m => m.1 = form.drop root.length) else [] := by
  rw [withRoot, List.filter_map]
  split
  · next hroot =>
    rw [withRoot]
    congr 1
    apply List.filter_congr
    intro m _
    simp only [Function.comp_apply, decide_eq_decide]
    constructor
    · rintro rfl
      rw [List.drop_left]
    · intro hm
      conv_lhs => rw [hroot]
      rw [hm, List.take_append_drop]
  · next hroot =>
    rw [List.map_eq_nil_iff, List.filter_eq_nil_iff]
    intro m _ heq
    obtain rfl := of_decide_eq_true heq
    exact hroot (List.take_left).symm

/-- A root has a form for one of its ends. -/
theorem flatMap_ends (addinfo : LemmaAddinfo) (classList : List (List TaggedForm)) (form : Bytes)
    (r : DictionaryLemma × LemmaFormInfo) :
    ((List.range (form.length + 1)).flatMap fun n =>
        if r.2.form = form.take (form.length - n)
          then suffixAnalyses addinfo classList (endOf form n) r else []) =
      ((withRoot r.2.form (membersOf classList r.2.clas)).filter fun f => f.1 = form).map
        fun f => (lemmaText addinfo r.1, f.2) := by
  rw [filter_withRoot]
  split
  · next hroot =>
    have hle : r.2.form.length ≤ form.length := by
      have hlength := congrArg List.length hroot
      rw [List.length_take] at hlength
      omega
    have hback : form.length - (form.length - r.2.form.length) = r.2.form.length :=
      Nat.sub_sub_self hle
    rw [NestedLoops.flatMap_eq_of_nodup List.nodup_range
      (List.mem_range.mpr (Nat.lt_succ_of_le (Nat.sub_le form.length r.2.form.length)))]
    · rw [hback, if_pos hroot, suffixAnalyses, endOf, hback, withRoot, tagsOf, List.map_map,
        List.map_map]
      rfl
    · intro n hn hne
      refine if_neg fun heq => hne ?_
      have hlength := congrArg List.length heq
      rw [List.length_take] at hlength
      have hlt := List.mem_range.mp hn
      omega
  · next hroot =>
    rw [List.map_nil, List.flatMap_eq_nil_iff]
    refine fun n _ => if_neg fun heq => hroot (List.prefix_iff_eq_take.mp ?_)
    rw [heq]
    exact List.take_prefix _ _

/-- All ways to cut a form give the analyses with the form. -/
theorem cutAnalyses_perm (addinfo : LemmaAddinfo) (classList : List (List TaggedForm))
    (lemmas : List DictionaryLemma) (form : Bytes) :
    ((List.range (form.length + 1)).flatMap (cutAnalyses addinfo classList lemmas form)).Perm
      (((analyses addinfo classList lemmas).filter fun a => a.2.1 = form).map
        fun a => (a.1, a.2.2)) := by
  have hcut : ∀ n, cutAnalyses addinfo classList lemmas form n = (rootsOf lemmas).flatMap fun r =>
      if r.2.form = form.take (form.length - n)
        then suffixAnalyses addinfo classList (endOf form n) r else [] := by
    intro n
    rw [cutAnalyses, ← NestedLoops.flatMap_filter_eq (rootsOf lemmas)
      fun r _ hr => if_neg (of_decide_eq_false hr)]
    refine List.flatMap_congr fun r hr => ?_
    rw [if_pos (of_decide_eq_true (List.mem_filter.mp hr).2)]
  rw [List.flatMap_congr fun n _ => hcut n]
  refine (NestedLoops.exchange_perm _ _ _).trans (.of_eq ?_)
  rw [List.flatMap_congr fun r _ => flatMap_ends addinfo classList form r]
  rw [rootsOf, List.flatMap_assoc, analyses, List.filter_flatMap, List.map_flatMap]
  refine List.flatMap_congr fun info _ => ?_
  simp only [formsOf, List.filter_flatMap, List.map_flatMap, List.flatMap_map, List.filter_map,
    List.map_map]
  rfl

/-! ### Lines of the raw dictionary -/

/-- The text of a lemma after its data were cut off. -/
def restored (addinfo : LemmaAddinfo) (lem : Bytes) : Bytes :=
  lem.take (addinfo.parse lem).1 ++
    if (addinfo.parse lem).2 = [] then [] else addinfo.format (addinfo.parse lem).2

/-- A generic lemma is restored as it is. -/
theorem restored_generic (lem : Bytes) : restored genericLemmaAddinfo lem = lem := by
  simp [restored, genericLemmaAddinfo]

/-- The different lines are those of the lemmas with their different forms. -/
theorem dedup_rawLines {text : Bytes} {raws : List RawLemma}
    (hraws : RawMorphoDictionaryReader.lemmas text = some raws) :
    (rawLines text).dedup.Perm
      (raws.flatMap fun raw => raw.taggedForms.dedup.map fun f => ⟨raw.lem, f.2, f.1⟩) := by
  obtain ⟨hlines, hnodup, -, -⟩ := lemmas_spec hraws
  refine (List.perm_ext_iff_of_nodup (List.nodup_dedup _) ?_).mpr fun line => ?_
  · rw [List.nodup_flatMap]
    refine ⟨fun raw _ => (List.nodup_dedup _).map fun f f' heq => ?_, ?_⟩
    · obtain ⟨-, htag, hform⟩ := RawLine.mk.injEq .. ▸ heq
      exact Prod.ext hform htag
    · refine (List.pairwise_map.mp hnodup).imp fun hne => ?_
      intro line hline hline'
      obtain ⟨f, -, rfl⟩ := List.mem_map.mp hline
      obtain ⟨f', -, heq⟩ := List.mem_map.mp hline'
      exact hne (RawLine.mk.injEq .. ▸ heq).1.symm
  · rw [List.mem_dedup, hlines, List.mem_flatMap, List.mem_flatMap]
    simp only [RawLemma.lines, List.mem_map, List.mem_dedup]

/-- The analyses are the different lines. -/
theorem LoadedFrom.analyses_perm {addinfo : LemmaAddinfo} {dict : Dictionary}
    {classList : List (List TaggedForm)} {text : Bytes} {raws : List RawLemma}
    (hraws : RawMorphoDictionaryReader.lemmas text = some raws)
    (h : dict.LoadedFrom addinfo classList raws) :
    (analyses addinfo classList dict.lemmas).Perm
      ((rawLines text).dedup.map fun line => (restored addinfo line.lem, line.form, line.tag)) := by
  obtain ⟨lemmas, hperm, hread⟩ := h.lemmas
  have hlemmas : (analyses addinfo classList lemmas).Perm (raws.flatMap fun raw =>
      raw.taggedForms.dedup.map fun f => (restored addinfo raw.lem, f)) := by
    clear hperm hraws h
    induction hread with
    | nil => exact .nil
    | @cons raw info raws lemmas hread _ ih =>
      rw [analyses, List.flatMap_cons, List.flatMap_cons]
      refine List.Perm.append ?_ ih
      have htext : lemmaText addinfo info = restored addinfo raw.lem := by
        rw [lemmaText, restored, hread.lem, hread.addinfo]
      rw [htext]
      exact (hread.forms.map _).symm
  refine ((hperm.flatMap_right _).trans hlemmas).trans ?_
  refine .trans (.of_eq ?_) ((dedup_rawLines hraws).map _).symm
  rw [List.map_flatMap]
  simp only [List.map_map]
  rfl

/-- What is analyzed are the different lines with the form, unless no class has the empty suffix. -/
theorem LoadedAs.analyze_lines
    (h : dict.LoadedAs classList morpho entries lemmaEntries rootEntries)
    (hfew : dict.table.FewTags) {addinfo : LemmaAddinfo} {text : Bytes} {raws : List RawLemma}
    (hraws : RawMorphoDictionaryReader.lemmas text = some raws)
    (hfrom : dict.LoadedFrom addinfo classList raws) (form : Bytes) :
    (morpho.analyze addinfo form).Perm
      (if [] ∈ dict.table.suffixes.map Prod.fst
        then ((rawLines text).dedup.filter fun line => line.form = form).map
          fun line => (restored addinfo line.lem, line.tag)
        else []) := by
  refine (h.analyze_perm hfew addinfo form).trans ?_
  split
  · refine (cutAnalyses_perm addinfo classList dict.lemmas form).trans ?_
    refine (((hfrom.analyses_perm hraws).filter _).map _).trans (.of_eq ?_)
    rw [List.filter_map, List.map_map]
    rfl
  · exact .nil

end Dictionary

/-- A lemma with two forms. -/
def twoFormsText : Bytes := bytes "a\tT\ta\na\tU\tab\n"

/-- The dictionary of a lemma with two forms. -/
def twoForms : Dictionary where
  table := ⟨[([9, 85], 0), ([9, 84], 1)], [([], [(0, [0]), (1, [1])])],
    ⟨[[85], [84]], [([85], 0), ([84], 1)]⟩⟩
  lemmasHist := [[], [[97]]]
  formsHist := [[], [[97]], [[97, 98]]]
  lemmas := [⟨[97], [], [⟨[97], 1⟩, ⟨[97, 98], 0⟩]⟩]

/-- The lemma with two forms is read. -/
theorem load_twoForms :
    Dictionary.load genericLemmaAddinfo twoFormsText 8 = some twoForms := by
  have hraws : RawMorphoDictionaryReader.lemmas twoFormsText =
      some [⟨[97], [([97], [84]), ([97, 98], [85])]⟩] := by decide
  have hadd : Dictionary.addLemmas genericLemmaAddinfo 8
      [⟨[97], [([97], [84]), ([97, 98], [85])]⟩] = some twoForms := by decide +kernel
  rw [Dictionary.load, hraws, Option.bind_eq_bind, Option.bind_some, hadd]
  rfl

/-- The lemma with two forms is encoded. -/
theorem encode_twoForms : ∃ data, encodeDictionary genericLemmaAddinfo twoFormsText 8 =
    some data := by
  obtain ⟨entries, hentries⟩ : ∃ entries : List (Bytes × Bytes), entries =
      [([], [2, 0, 0, 0, 1, 0, 0, 0, 1, 0, 2, 0, 0, 0, 1, 0])] := ⟨_, rfl⟩
  have hsuffixes : Dictionary.encodedSuffixes twoForms.table.suffixes = some entries := by
    rw [hentries]
    decide
  obtain ⟨saved, hsaved⟩ := PersistentUnorderedMap.exists_save entries id (5 * ·)
    (by rw [hentries]; decide) (by rw [hentries]; decide) (by rw [hentries]; decide)
    (by rw [hentries]; decide) fun size => le_rfl
  have hlemmas : Dictionary.encodeHistogram twoForms.lemmasHist =
      some [2, 0, 0, 0, 0, 1, 0, 0, 0] := by decide
  have hforms : Dictionary.encodeHistogram twoForms.formsHist =
      some [3, 0, 0, 0, 0, 1, 0, 0, 0, 1, 0, 0, 0] := by decide
  have hrecords : Dictionary.encodeLemmas [] twoForms.lemmas =
      some [0, 1, 97, 0, 2, 0, 1, 0, 8, 1, 98, 0, 0] := by decide
  have hcount : add4B twoForms.lemmas.length = some [1, 0, 0, 0] := by decide
  have htags : encodeTags twoForms.table.table.tags = some [2, 0, 1, 85, 1, 84] := by decide
  simp only [encodeDictionary, load_twoForms, Dictionary.encode, hlemmas, hforms, hcount,
    hrecords, htags, hsuffixes, hsaved, Option.bind_eq_bind, Option.bind_some, Option.pure_def]
  exact ⟨_, rfl⟩

/-- The tables of the lemma with two forms can be addressed. -/
theorem addressable_twoForms :
    MorphoDictionary.Addressable twoForms.lemmas :=
  .of_total (by decide) (by decide) (by decide)

/-- The suffixes of the lemma with two forms have few tags. -/
theorem fewTags_twoForms : twoForms.table.FewTags := by
  rw [ClassTable.FewTags]
  decide

end UDPipe.Morphodita
