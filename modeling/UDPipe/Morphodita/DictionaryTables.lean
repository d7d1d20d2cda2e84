import UDPipe.Morphodita.DictionaryEncoding
import UDPipe.Morphodita.DictionaryLemmas
import UDPipe.Morphodita.RecordPlaces

/-!
# The maps of the lemmas and of the roots

The entries that the second pass writes point at each other: the entry of a root has the place of
its lemma, and the entry of a lemma has the places of its roots.
-/

namespace UDPipe.Morphodita

namespace MorphoDictionary

open PersistentUnorderedMap (added counted ofLength summed_foldl_add_iff filledWith fillOffset built
  totalSize)

/-- The entry of a root, for the place of its lemma. -/
def rootEntry (lemmaOffset lemmaLen : ℕ) (root : LemmaFormInfo) : Bytes × Bytes :=
  (root.form, toBytes 2 root.clas ++ (toBytes 4 lemmaOffset ++ toBytes 1 lemmaLen))

/-- What the entry of a lemma has for a root and its place. -/
def rootPointer (root : LemmaFormInfo × ℕ) : Bytes :=
  toBytes 4 root.2 ++ (toBytes 1 root.1.form.length ++ toBytes 2 root.1.clas)

/-- The entry of a lemma, for the places of its roots. -/
def lemmaEntry (info : DictionaryLemma) (roots : List (LemmaFormInfo × ℕ)) : Bytes × Bytes :=
  (info.lem, toBytes 1 info.addinfo.length ++ (info.addinfo ++
    (toBytes 1 info.forms.length ++ roots.flatMap rootPointer)))

/-- An entry of a root has seven bytes. -/
@[simp] theorem length_rootEntry (lemmaOffset lemmaLen : ℕ) (root : LemmaFormInfo) :
    (rootEntry lemmaOffset lemmaLen root).2.length = 7 := by
  simp [rootEntry]

/-- A pointer to a root has seven bytes. -/
@[simp] theorem length_flatMap_rootPointer (roots : List (LemmaFormInfo × ℕ)) :
    (roots.flatMap rootPointer).length = roots.length * 7 := by
  induction roots with
  | nil => rfl
  | cons root roots ih =>
    rw [List.flatMap_cons, List.length_append, ih, rootPointer, List.length_cons]
    simp only [List.length_append, length_toBytes]
    omega

/-- An entry of a lemma has the size that was counted. -/
theorem length_lemmaEntry {info : DictionaryLemma} {places : List (LemmaFormInfo × ℕ)}
    (hplaces : places.map Prod.fst = info.forms) :
    (lemmaEntry info places).2.length = lemmaSize info := by
  have hlength := congrArg List.length hplaces
  rw [List.length_map] at hlength
  simp only [lemmaEntry, lemmaSize, List.length_append, length_toBytes,
    length_flatMap_rootPointer, hlength]
  omega

/-- A record was filled in at a place. -/
def FilledAt (m : PersistentUnorderedMap) (entries : List (Bytes × Bytes)) (e : Bytes × Bytes)
    (place : ℕ) : Prop :=
  ∃ before after, entries = before ++ e :: after ∧ place = fillOffset (m.filledWith before) e.1

/-- More entries do not move one. -/
theorem FilledAt.append {m : PersistentUnorderedMap} {entries : List (Bytes × Bytes)}
    {e : Bytes × Bytes} {place : ℕ} (h : FilledAt m entries e place) (more : List (Bytes × Bytes)) :
    FilledAt m (entries ++ more) e place := by
  obtain ⟨before, after, rfl, hplace⟩ := h
  exact ⟨before, after ++ more, by simp, hplace⟩

/-- A filled entry is one of the entries. -/
theorem FilledAt.mem {m : PersistentUnorderedMap} {entries : List (Bytes × Bytes)}
    {e : Bytes × Bytes} {place : ℕ} (h : FilledAt m entries e place) : e ∈ entries := by
  obtain ⟨before, after, rfl, -⟩ := h
  simp

/-- The last entry is filled where the filling has come to. -/
theorem filledAt_last (m : PersistentUnorderedMap) (entries : List (Bytes × Bytes))
    (e : Bytes × Bytes) :
    FilledAt m (entries ++ [e]) e (fillOffset (m.filledWith entries) e.1) :=
  ⟨entries, [], rfl, rfl⟩

/-! ### The second pass -/

/-- The loop over the roots of a lemma writes their entries. -/
theorem foldl_fillRoot (m : PersistentUnorderedMap) (lemmaOffset lemmaLen : ℕ)
    (forms : List LemmaFormInfo) (entries : List (Bytes × Bytes)) (data : Bytes) :
    ∃ roots : List (LemmaFormInfo × ℕ), roots.map Prod.fst = forms ∧
      forms.foldl (fillRoot lemmaOffset lemmaLen) (m.filledWith entries, data) =
        (m.filledWith (entries ++ forms.map (rootEntry lemmaOffset lemmaLen)),
          data ++ roots.flatMap rootPointer) ∧
      ∀ root ∈ roots, FilledAt m (entries ++ forms.map (rootEntry lemmaOffset lemmaLen))
        (rootEntry lemmaOffset lemmaLen root.1) root.2 := by
  induction forms generalizing entries data with
  | nil => exact ⟨[], rfl, by simp, by simp⟩
  | cons form forms ih =>
    obtain ⟨roots, rfl, hfold, hfilled⟩ := ih (entries ++ [rootEntry lemmaOffset lemmaLen form])
      (data ++ rootPointer (form, fillOffset (m.filledWith entries) form.form))
    rw [List.append_assoc, List.singleton_append] at hfold hfilled
    refine ⟨(form, fillOffset (m.filledWith entries) form.form) :: roots, rfl, ?_, ?_⟩
    · rw [List.foldl_cons, List.map_cons, List.flatMap_cons, ← List.append_assoc data, ← hfold]
      congr 1
      rw [PersistentUnorderedMap.filledWith_append]
      rfl
    · refine List.forall_mem_cons.mpr ⟨?_, hfilled⟩
      have hlast := (filledAt_last m entries (rootEntry lemmaOffset lemmaLen form)).append
        ((roots.map Prod.fst).map (rootEntry lemmaOffset lemmaLen))
      rwa [List.append_assoc, List.singleton_append] at hlast

/-- The lemmas with their roots. -/
def rootsOf (lemmas : List DictionaryLemma) : List (DictionaryLemma × LemmaFormInfo) :=
  lemmas.flatMap fun info => info.forms.map fun root => (info, root)

/-- The entry of a lemma points at its roots. -/
def LemmaFilled (roots : PersistentUnorderedMap) (rootEntries : List (Bytes × Bytes))
    (info : DictionaryLemma) (e : Bytes × Bytes) : Prop :=
  ∃ places : List (LemmaFormInfo × ℕ), places.map Prod.fst = info.forms ∧ e = lemmaEntry info places ∧
    ∀ root ∈ places, ∃ lemmaOffset, FilledAt roots rootEntries
      (rootEntry lemmaOffset info.lem.length root.1) root.2

/-- The entry of a root points at its lemma. -/
def RootFilled (lemmas : PersistentUnorderedMap) (lemmaEntries : List (Bytes × Bytes))
    (root : DictionaryLemma × LemmaFormInfo) (e : Bytes × Bytes) : Prop :=
  ∃ lemmaOffset places, e = rootEntry lemmaOffset root.1.lem.length root.2 ∧
    FilledAt lemmas lemmaEntries (lemmaEntry root.1 places) lemmaOffset

/-- Filling all records fills both maps with their entries. -/
theorem foldl_fillRecord (maps : Maps) (lemmas : List DictionaryLemma) :
    ∃ lemmaEntries rootEntries, lemmas.foldl fillRecord maps =
        (maps.1.filledWith lemmaEntries, maps.2.filledWith rootEntries) ∧
      List.Forall₂ (LemmaFilled maps.2 rootEntries) lemmas lemmaEntries ∧
      List.Forall₂ (RootFilled maps.1 lemmaEntries) (rootsOf lemmas) rootEntries := by
  induction lemmas using List.reverseRecOn with
  | nil => exact ⟨[], [], rfl, .nil, .nil⟩
  | append_singleton lemmas info ih =>
    obtain ⟨lemmaEntries, rootEntries, hfold, hlemmas, hroots⟩ := ih
    obtain ⟨lemmaOffset, hoffset⟩ : ∃ offset,
        offset = fillOffset (maps.1.filledWith lemmaEntries) info.lem := ⟨_, rfl⟩
    obtain ⟨places, hplaces, hfoldRoots, hfilled⟩ := foldl_fillRoot maps.2 lemmaOffset
      info.lem.length info.forms rootEntries []
    refine ⟨lemmaEntries ++ [lemmaEntry info places],
      rootEntries ++ info.forms.map (rootEntry lemmaOffset info.lem.length), ?_, ?_, ?_⟩
    · rw [List.foldl_append, hfold, PersistentUnorderedMap.filledWith_append]
      simp only [List.foldl_cons, List.foldl_nil, fillRecord, ← hoffset, hfoldRoots]
      rfl
    · refine List.rel_append (hlemmas.imp ?_) (.cons ⟨places, hplaces, rfl, ?_⟩ .nil)
      · rintro info' e ⟨places', hplaces', rfl, hroot⟩
        refine ⟨places', hplaces', rfl, fun root hmem => ?_⟩
        obtain ⟨offset, hat⟩ := hroot root hmem
        exact ⟨offset, hat.append _⟩
      · exact fun root hmem => ⟨lemmaOffset, hfilled root hmem⟩
    · rw [rootsOf, List.flatMap_append, List.flatMap_singleton]
      refine List.rel_append (hroots.imp ?_) ?_
      · rintro root e ⟨offset, places', rfl, hat⟩
        exact ⟨offset, places', rfl, hat.append _⟩
      · rw [List.forall₂_map_left_iff, List.forall₂_map_right_iff, List.forall₂_same]
        intro root _
        refine ⟨lemmaOffset, places, rfl, ?_⟩
        rw [hoffset]
        exact filledAt_last maps.1 lemmaEntries (lemmaEntry info places)

/-! ### Both passes -/

/-- Where the lemma of a root is. -/
structure LemmaAt (lemmas : PersistentUnorderedMap) (info : DictionaryLemma) (place : ℕ) : Prop where
  lt : place < 256 ^ 4
  drop : ∃ more, (lemmas.dataStart info.lem.length).drop place =
    info.lem ++ (toBytes 1 info.addinfo.length ++ (info.addinfo ++ more))

/-- Where a root of a lemma is. -/
structure RootAt (roots : PersistentUnorderedMap) (root : Bytes) (place : ℕ) : Prop where
  lt : place < 256 ^ 4
  drop : ∃ more, (roots.dataStart root.length).drop place = root ++ more

/-- The lemmas can be counted, and so can the bytes of the records of the lemmas of one length and
of the roots of one length. -/
structure Addressable (lemmas : List DictionaryLemma) : Prop where
  count : lemmas.length < 2 ^ 31
  lemmaSizes : ∀ len, ((lemmas.filter fun info => info.lem.length = len).map fun info =>
    info.lem.length + lemmaSize info).sum < 2 ^ 31
  rootSizes : ∀ len, (((rootsOf lemmas).filter fun root => root.2.form.length = len).map
    fun root => root.2.form.length + 7).sum < 2 ^ 31

/-- In a small dictionary all records can be counted. -/
theorem Addressable.of_total {lemmas : List DictionaryLemma} (hcount : lemmas.length < 2 ^ 31)
    (hlemmas : (lemmas.map fun info => info.lem.length + lemmaSize info).sum < 2 ^ 31)
    (hroots : ((rootsOf lemmas).map fun root => root.2.form.length + 7).sum < 2 ^ 31) :
    Addressable lemmas where
  count := hcount
  lemmaSizes _ := lt_of_le_of_lt
    ((List.filter_sublist.map _).sum_le_sum fun _ _ => Nat.zero_le _) hlemmas
  rootSizes _ := lt_of_le_of_lt
    ((List.filter_sublist.map _).sum_le_sum fun _ _ => Nat.zero_le _) hroots

/-- The two maps of a dictionary that was loaded, with their entries. -/
structure Linked (lemmas : List DictionaryLemma) (maps : Maps)
    (lemmaEntries rootEntries : List (Bytes × Bytes)) : Prop where
  lemma_built : ∃ tables elems, maps.1 = built tables elems lemmaEntries ∧
    ∀ e ∈ lemmaEntries, e.1.length < tables
  root_built : ∃ tables elems, maps.2 = built tables elems rootEntries ∧
    ∀ e ∈ rootEntries, e.1.length < tables
  lemmas_filled : List.Forall₂ (fun info e => ∃ places : List (LemmaFormInfo × ℕ),
    places.map Prod.fst = info.forms ∧ e = lemmaEntry info places ∧
      ∀ root ∈ places, RootAt maps.2 root.1.form root.2) lemmas lemmaEntries
  roots_filled : List.Forall₂ (fun root e => ∃ lemmaOffset,
    e = rootEntry lemmaOffset root.1.lem.length root.2 ∧ LemmaAt maps.1 root.1 lemmaOffset)
      (rootsOf lemmas) rootEntries

/-- Counting all records counts the entries of both maps. -/
theorem foldl_addRecord (lemmas : List DictionaryLemma) (maps : Maps) :
    lemmas.foldl addRecord maps =
      (lemmas.foldl (fun m info => m.add info.lem (lemmaSize info)) maps.1,
        (rootsOf lemmas).foldl (fun m root => m.add root.2.form 7) maps.2) := by
  induction lemmas generalizing maps with
  | nil => rfl
  | cons info lemmas ih =>
    have hcons : rootsOf (info :: lemmas) =
        (info.forms.map fun root => (info, root)) ++ rootsOf lemmas := List.flatMap_cons ..
    rw [List.foldl_cons, ih, hcons, List.foldl_append, List.foldl_map]
    rfl

/-- The map after the first pass, for the lengths that it counts. -/
theorem counted_eq {α : Type} {items : List α} {key : α → Bytes} {size : α → ℕ}
    {entries : List (Bytes × Bytes)} (hist : Histogram)
    (h : List.Forall₂ (fun a e => e.1 = key a ∧ e.2.length = size a) items entries) :
    items.foldl (fun m a => m.add (key a) (size a)) (Dictionary.tablesOf hist) =
      counted hist.length (fun len => (hist.map List.length).getD len 0) entries := by
  rw [counted, Dictionary.tablesOf]
  generalize (⟨_⟩ : PersistentUnorderedMap) = m
  induction h generalizing m with
  | nil => rfl
  | cons he _ ih => rw [List.foldl_cons, List.foldl_cons, he.1, he.2, ih]

/-- The size of the records of one length. -/
theorem totalSize_ofLength_eq {α : Type} {items : List α} {key : α → Bytes} {size : α → ℕ}
    {entries : List (Bytes × Bytes)}
    (h : List.Forall₂ (fun a e => e.1 = key a ∧ e.2.length = size a) items entries) :
    ∀ len, totalSize (ofLength entries len) =
      ((items.filter fun a => (key a).length = len).map fun a => (key a).length + size a).sum := by
  intro len
  rw [totalSize, ofLength]
  induction h with
  | nil => rfl
  | @cons a e _ _ he _ ih =>
    rw [List.filter_cons, List.filter_cons, he.1]
    split
    · rw [List.map_cons, List.map_cons, List.sum_cons, List.sum_cons, ih, he.1, he.2]
    · exact ih

/-- The record stays where it was filled in. -/
theorem FilledAt.drop {tables : ℕ} {elems : ℕ → ℕ} {entries : List (Bytes × Bytes)}
    {e : Bytes × Bytes} {place : ℕ} (h : FilledAt (added tables elems entries) entries e place)
    (hkey : e.1.length < tables) (hentry : e.2 ≠ [])
    (hsize : ∀ len, totalSize (ofLength entries len) < 2 ^ 31) :
    place < 256 ^ 4 ∧
      ∃ more, ((built tables elems entries).dataStart e.1.length).drop place = e.1 ++ (e.2 ++ more) := by
  obtain ⟨before, after, hentries, rfl⟩ := h
  have hdrop := @PersistentUnorderedMap.drop_fillOffset tables elems before after e.1 e.2 hkey
  have hlt := @PersistentUnorderedMap.fillOffset_lt tables elems before after e.1 e.2 hkey hentry
  rw [← hentries] at hdrop hlt
  exact ⟨hlt.trans ((hsize _).trans (by decide)), hdrop⟩

/-- The sizes of the tables that were counted can be summed if those of the records can. -/
theorem summed_foldl_iff {α : Type} {items : List α} {key : α → Bytes} (size : α → ℕ)
    {hist : Histogram} (hcovers : ∀ a ∈ items, hist.Covers (key a)) :
    (items.foldl (fun m a => m.add (key a) (size a)) (Dictionary.tablesOf hist)).Summed ↔
      ∀ len, ((items.filter fun a => (key a).length = len).map fun a =>
        (key a).length + size a).sum < 2 ^ 31 := by
  obtain ⟨entries, hentries⟩ : ∃ entries : List (Bytes × Bytes),
      entries = items.map fun a => (key a, List.replicate (size a) 0) := ⟨_, rfl⟩
  have hmatch : List.Forall₂ (fun a e => e.1 = key a ∧ e.2.length = size a) items entries := by
    rw [hentries, List.forall₂_map_right_iff, List.forall₂_same]
    exact fun a _ => ⟨rfl, List.length_replicate⟩
  have hsizes := totalSize_ofLength_eq hmatch
  rw [counted_eq hist hmatch, counted, summed_foldl_add_iff]
  constructor
  · intro hsummed len
    rcases Nat.lt_or_ge len hist.length with hlt | hge
    · exact hsizes len ▸ hsummed len hlt
    · rw [List.filter_eq_nil_iff.mpr, List.map_nil]
      · exact Nat.two_pow_pos 31
      · intro a ha heq
        have hlt : (key a).length < hist.length := hcovers a ha
        rw [of_decide_eq_true heq] at hlt
        omega
  · exact fun hall len _ => hsizes len ▸ hall len

/-- The tables that the first pass counted can be summed if the sizes of their records can. -/
theorem summed_addRecord_iff {dict : Dictionary} (hcovers : ∀ info ∈ dict.lemmas,
    dict.lemmasHist.Covers info.lem) (hcoversRoots : ∀ info ∈ dict.lemmas, ∀ root ∈ info.forms,
      dict.formsHist.Covers root.form) :
    let added := dict.lemmas.foldl addRecord
      (Dictionary.tablesOf dict.lemmasHist, Dictionary.tablesOf dict.formsHist)
    (added.1.Summed ∧ added.2.Summed) ↔
      (∀ len, ((dict.lemmas.filter fun info => info.lem.length = len).map fun info =>
        info.lem.length + lemmaSize info).sum < 2 ^ 31) ∧
      ∀ len, (((rootsOf dict.lemmas).filter fun root => root.2.form.length = len).map
        fun root => root.2.form.length + 7).sum < 2 ^ 31 := by
  dsimp only
  rw [foldl_addRecord]
  dsimp only
  rw [summed_foldl_iff lemmaSize hcovers, summed_foldl_iff (fun _ => 7)]
  · intro root hroot
    obtain ⟨info, hinfo, hroot⟩ := List.mem_flatMap.mp hroot
    obtain ⟨form, hform, rfl⟩ := List.mem_map.mp hroot
    exact hcoversRoots info hinfo form hform

/-- The passes make maps whose entries point at each other. -/
theorem exists_linked {dict : Dictionary} (hcovers : ∀ info ∈ dict.lemmas,
    dict.lemmasHist.Covers info.lem) (hcoversRoots : ∀ info ∈ dict.lemmas, ∀ root ∈ info.forms,
      dict.formsHist.Covers root.form) (hsize : Addressable dict.lemmas) :
    let added := dict.lemmas.foldl addRecord
      (Dictionary.tablesOf dict.lemmasHist, Dictionary.tablesOf dict.formsHist)
    let filled := dict.lemmas.foldl fillRecord (added.1.doneAdding, added.2.doneAdding)
    ∃ lemmaEntries rootEntries, Linked dict.lemmas (filled.1.doneFilling, filled.2.doneFilling)
      lemmaEntries rootEntries := by
  dsimp only
  rw [foldl_addRecord]
  obtain ⟨maps, hmaps⟩ : ∃ maps : Maps, maps =
      ((dict.lemmas.foldl (fun m info => m.add info.lem (lemmaSize info))
        (Dictionary.tablesOf dict.lemmasHist)).doneAdding,
      ((rootsOf dict.lemmas).foldl (fun m root => m.add root.2.form 7)
        (Dictionary.tablesOf dict.formsHist)).doneAdding) := ⟨_, rfl⟩
  obtain ⟨lemmaEntries, rootEntries, hfold, hlemmas, hroots⟩ := foldl_fillRecord maps dict.lemmas
  rw [← hmaps, hfold]
  -- the lengths of the entries are those that the first pass counted
  have hlemmaSizes : List.Forall₂ (fun info e => e.1 = info.lem ∧ e.2.length = lemmaSize info)
      dict.lemmas lemmaEntries := by
    refine hlemmas.imp ?_
    rintro info e ⟨places, hplaces, rfl, -⟩
    exact ⟨rfl, length_lemmaEntry hplaces⟩
  have hrootSizes : List.Forall₂ (fun root e => e.1 = root.2.form ∧ e.2.length = 7)
      (rootsOf dict.lemmas) rootEntries := by
    refine hroots.imp ?_
    rintro root e ⟨offset, places, rfl, -⟩
    exact ⟨rfl, length_rootEntry _ _ _⟩
  have hlemmaCounted := counted_eq dict.lemmasHist hlemmaSizes
  have hrootCounted := @counted_eq _ _ _ (fun _ => 7) _ dict.formsHist hrootSizes
  rw [hlemmaCounted, hrootCounted] at hmaps
  obtain ⟨lemmaElems, hlemmaElems⟩ : ∃ elems : ℕ → ℕ,
      elems = fun len => (dict.lemmasHist.map List.length).getD len 0 := ⟨_, rfl⟩
  obtain ⟨rootElems, hrootElems⟩ : ∃ elems : ℕ → ℕ,
      elems = fun len => (dict.formsHist.map List.length).getD len 0 := ⟨_, rfl⟩
  rw [← hlemmaElems, ← hrootElems] at hmaps
  rw [← added, ← added] at hmaps
  subst hmaps
  have hlemmaBuilt := PersistentUnorderedMap.doneFilling_filledWith dict.lemmasHist.length
    lemmaElems lemmaEntries
  have hrootBuilt := PersistentUnorderedMap.doneFilling_filledWith dict.formsHist.length
    rootElems rootEntries
  have hlemmaTotal : ∀ len, totalSize (ofLength lemmaEntries len) < 2 ^ 31 := fun len =>
    (totalSize_ofLength_eq hlemmaSizes len).trans_lt (hsize.lemmaSizes len)
  have hrootTotal : ∀ len, totalSize (ofLength rootEntries len) < 2 ^ 31 := fun len =>
    (@totalSize_ofLength_eq _ _ _ (fun _ => 7) _ hrootSizes len).trans_lt (hsize.rootSizes len)
  have hlemmaKeys : ∀ e ∈ lemmaEntries, e.1.length < dict.lemmasHist.length := by
    intro e he
    obtain ⟨info, hinfo, hkey, -⟩ := exists_of_forall₂ hlemmaSizes he
    rw [hkey]
    exact hcovers info hinfo
  have hrootKeys : ∀ e ∈ rootEntries, e.1.length < dict.formsHist.length := by
    intro e he
    obtain ⟨root, hroot, hkey, -⟩ := exists_of_forall₂ hrootSizes he
    obtain ⟨info, hinfo, hroot⟩ := List.mem_flatMap.mp hroot
    obtain ⟨form, hform, rfl⟩ := List.mem_map.mp hroot
    rw [hkey]
    exact hcoversRoots info hinfo form hform
  dsimp only
  rw [hlemmaBuilt, hrootBuilt]
  refine ⟨lemmaEntries, rootEntries, ⟨_, _, rfl, hlemmaKeys⟩, ⟨_, _, rfl, hrootKeys⟩,
    hlemmas.imp ?_, hroots.imp ?_⟩
  · rintro info e ⟨places, hplaces, rfl, hfilled⟩
    refine ⟨places, hplaces, rfl, fun root hroot => ?_⟩
    obtain ⟨offset, hat⟩ := hfilled root hroot
    obtain ⟨hlt, more, hdrop⟩ := hat.drop (hrootKeys _ hat.mem)
      (List.ne_nil_of_length_eq_add_one (length_rootEntry _ _ _)) hrootTotal
    exact ⟨hlt, _, hdrop⟩
  · rintro root e ⟨offset, places, rfl, hat⟩
    refine ⟨offset, rfl, ?_⟩
    obtain ⟨hlt, more, hdrop⟩ := hat.drop (hlemmaKeys _ hat.mem) (by simp [lemmaEntry, toBytes])
      hlemmaTotal
    refine ⟨hlt, toBytes 1 root.1.forms.length ++ places.flatMap rootPointer ++ more, ?_⟩
    simp only [lemmaEntry, List.append_assoc] at hdrop ⊢
    exact hdrop

end MorphoDictionary

end UDPipe.Morphodita
