import UDPipe.Morphodita.DictionaryClasses
import UDPipe.Morphodita.GuesserEncoding

/-!
# The suffixes of the classes

While the dictionary is read, every suffix has the classes with that suffix, in the order of their
ids, each with the tags that stand with the suffix in the class.
-/

namespace UDPipe.Morphodita

/-! ### The string of a class -/

/-- The members behind the first one are joined by tabs. -/
theorem foldl_classString (members : List TaggedForm) {clas : Bytes} (hne : clas ≠ []) :
    members.foldl (fun clas m => (if clas = [] then clas else clas ++ [tab]) ++ m.1 ++ [tab] ++ m.2)
      clas = clas ++ members.flatMap fun m => tab :: (m.1 ++ tab :: m.2) := by
  induction members generalizing clas with
  | nil => simp
  | cons m members ih =>
    rw [List.foldl_cons, if_neg hne, ih (by simp)]
    simp

/-- The columns of the members are joined by tabs. -/
theorem intercalate_members (m : TaggedForm) (members : List TaggedForm) :
    [tab].intercalate ((m :: members).flatMap fun m => [m.1, m.2]) =
      m.1 ++ tab :: (m.2 ++ members.flatMap fun m => tab :: (m.1 ++ tab :: m.2)) := by
  induction members generalizing m with
  | nil => simp
  | cons m' members ih =>
    have hnext := ih m'
    simp only [List.flatMap_cons, List.cons_append, List.nil_append,
      List.intercalate_cons_cons] at hnext ⊢
    rw [hnext]
    simp

/-- The suffixes and tags have no tabs. -/
def Tabless (members : List TaggedForm) : Prop := ∀ m ∈ members, tab ∉ m.1 ∧ tab ∉ m.2

/-- The string of a class tells its suffixes and their tags. -/
theorem split_classString {members : List TaggedForm} (hne : members ≠ []) (h : Tabless members) :
    split tab (classString members) = members.flatMap fun m => [m.1, m.2] := by
  obtain ⟨m, more, rfl⟩ := List.exists_cons_of_ne_nil hne
  have hstring : classString (m :: more) =
      [tab].intercalate ((m :: more).flatMap fun m => [m.1, m.2]) := by
    rw [classString, List.foldl_cons, if_pos rfl, foldl_classString more (by simp),
      intercalate_members]
    simp
  rw [hstring]
  apply split_intercalate
  · intro piece hpiece
    obtain ⟨m, hm, hpiece⟩ := List.mem_flatMap.mp hpiece
    simp only [List.mem_cons, List.not_mem_nil, or_false] at hpiece
    rcases hpiece with rfl | rfl
    · exact (h m hm).1
    · exact (h m hm).2
  · rw [intercalate_members]
    simp

/-- The columns decide the members. -/
theorem flatMap_pair_injective {members members' : List TaggedForm}
    (h : (members.flatMap fun m => [m.1, m.2]) = members'.flatMap fun m => [m.1, m.2]) :
    members = members' := by
  induction members generalizing members' with
  | nil =>
    cases members' with
    | nil => rfl
    | cons m' members' => simp at h
  | cons m members ih =>
    cases members' with
    | nil => simp at h
    | cons m' members' =>
      simp only [List.flatMap_cons, List.cons_append, List.nil_append, List.cons.injEq] at h
      rw [ih h.2.2, Prod.ext h.1 h.2.1]

/-- Different classes have different strings. -/
theorem classString_injective {members members' : List TaggedForm} (hne : members ≠ [])
    (hne' : members' ≠ []) (h : Tabless members) (h' : Tabless members')
    (heq : classString members = classString members') : members = members' := by
  apply flatMap_pair_injective
  rw [← split_classString hne h, ← split_classString hne' h', heq]

/-! ### Classes of a suffix -/

/-- The tags of a suffix in a class. -/
def tagsOf (suffix : Bytes) (members : List TaggedForm) : List Bytes :=
  (members.filter fun m => m.1 = suffix).map Prod.snd

/-- The members of a class are different, so the tags of a suffix are. -/
theorem nodup_tagsOf {members : List TaggedForm} (h : members.Nodup) (suffix : Bytes) :
    (tagsOf suffix members).Nodup := by
  refine (h.filter _).map_on fun m hm m' hm' htag => ?_
  rw [List.mem_filter, decide_eq_true_iff] at hm hm'
  exact Prod.ext (hm.2.trans hm'.2.symm) htag

/-- The classes of a suffix, with their tags. -/
def classesOf (classList : List (List TaggedForm)) (suffix : Bytes) : List (ℕ × List Bytes) :=
  classList.zipIdx.filterMap fun clas =>
    if tagsOf suffix clas.1 = [] then none else some (clas.2, tagsOf suffix clas.1)

/-- A new class is the last one of its suffixes. -/
theorem classesOf_append (classList : List (List TaggedForm)) (members : List TaggedForm)
    (suffix : Bytes) : classesOf (classList ++ [members]) suffix = classesOf classList suffix ++
      if tagsOf suffix members = [] then [] else [(classList.length, tagsOf suffix members)] := by
  rw [classesOf, List.zipIdx_append, List.filterMap_append]
  congr 1
  simp only [List.zipIdx_singleton, Nat.zero_add, List.filterMap_cons, List.filterMap_nil]
  split_ifs <;> rfl

/-- The classes of a suffix are those with tags for it. -/
theorem mem_classesOf {classList : List (List TaggedForm)} {suffix : Bytes} {id : ℕ}
    {tags : List Bytes} : (id, tags) ∈ classesOf classList suffix ↔
      tags ≠ [] ∧ ∃ members, classList[id]? = some members ∧ tags = tagsOf suffix members := by
  simp only [classesOf, List.mem_filterMap, Prod.exists, List.mk_mem_zipIdx_iff_getElem?,
    Option.ite_none_left_eq_some, Option.some.injEq, Prod.mk.injEq]
  constructor
  · rintro ⟨members, _, hget, hne, rfl, rfl⟩
    exact ⟨hne, members, hget, rfl⟩
  · rintro ⟨hne, members, hget, rfl⟩
    exact ⟨members, id, hget, hne, rfl, rfl⟩

/-- The classes of a suffix are in order. -/
theorem pairwise_classesOf (classList : List (List TaggedForm)) (suffix : Bytes) :
    (classesOf classList suffix).Pairwise fun a b => a.1 < b.1 := by
  induction classList using List.reverseRecOn with
  | nil => exact .nil
  | append_singleton classList members ih =>
    rw [classesOf_append, List.pairwise_append]
    refine ⟨ih, by split_ifs <;> simp, fun a ha b hb => ?_⟩
    obtain ⟨-, other, hget, -⟩ := mem_classesOf.mp ha
    have hlt := (List.getElem?_eq_some_iff.mp hget).1
    split_ifs at hb with hnil
    · cases hb
    · rwa [List.mem_singleton.mp hb]

/-- Every entry is one of an item. -/
theorem exists_of_forall₂ {α β : Type} {R : α → β → Prop} {items : List α} {entries : List β}
    (h : List.Forall₂ R items entries) {e : β} (he : e ∈ entries) : ∃ a ∈ items, R a e := by
  induction h with
  | nil => cases he
  | cons hhead _ ih =>
    rcases List.mem_cons.mp he with rfl | he
    · exact ⟨_, List.mem_cons_self, hhead⟩
    · obtain ⟨a, ha, hr⟩ := ih he
      exact ⟨a, List.mem_cons_of_mem _ ha, hr⟩

/-- A class with the places of its tags. -/
def ClassNamed (tags : List Bytes) (clas : ℕ × List ℕ) (named : ℕ × List Bytes) : Prop :=
  clas.1 = named.1 ∧ Names tags clas.2 named.2

/-- More tags do not change the names of a class. -/
theorem ClassNamed.mono {tags more : List Bytes} {clas : ℕ × List ℕ} {named : ℕ × List Bytes}
    (h : ClassNamed tags clas named) (hbegins : tags <+: more) : ClassNamed more clas named :=
  ⟨h.1, h.2.mono hbegins⟩

/-- A tag is added to the class with the greatest id, or to a new one. -/
theorem forall₂_addTag {tags : List Bytes} {id tag : ℕ} {name : Bytes} {names : List Bytes}
    (htag : tags[tag]? = some name) {classes : List (ℕ × List ℕ)} {old : List (ℕ × List Bytes)}
    (hold : ∀ named ∈ old, named.1 < id) (h : List.Forall₂ (ClassNamed tags) classes
      (old ++ if names = [] then [] else [(id, names)])) :
    List.Forall₂ (ClassNamed tags) (addTag id tag classes) (old ++ [(id, names ++ [name])]) := by
  induction old generalizing classes with
  | nil =>
    split_ifs at h with hnames
    · subst hnames
      cases h
      exact .cons ⟨rfl, .cons htag .nil⟩ .nil
    · cases h with
      | cons hclas hrest =>
        cases hrest
        obtain ⟨hid, hnamed⟩ := hclas
        rw [addTag, if_neg (by rw [hid]; exact lt_irrefl _), if_pos hid]
        exact .cons ⟨hid, List.rel_append hnamed (.cons htag .nil)⟩ .nil
  | cons named old ih =>
    obtain ⟨hlt, hold⟩ := List.forall_mem_cons.mp hold
    cases h with
    | cons hclas hrest =>
      rw [addTag, if_pos (hclas.1 ▸ hlt)]
      exact .cons hclas (ih hold hrest)

/-- A suffix is added with its tag, the others stay. -/
theorem lookup_addSuffix (suffix : Bytes) (clas tag : ℕ)
    (suffixes : List (Bytes × List (ℕ × List ℕ))) (key : Bytes) :
    (addSuffix suffix clas tag suffixes).lookup key =
      if key = suffix then some (addTag clas tag ((suffixes.lookup suffix).getD []))
      else suffixes.lookup key := by
  induction suffixes with
  | nil =>
    rw [addSuffix, Associations.lookup_cons]
    rfl
  | cons e suffixes ih =>
    rw [addSuffix]
    by_cases he : e.1 = suffix
    · subst he
      rw [if_pos rfl]
      simp only [Associations.lookup_cons, if_true, Option.getD_some]
      by_cases hkey : key = e.1
      · rw [if_pos hkey, if_pos hkey]
      · rw [if_neg hkey, if_neg hkey, if_neg hkey]
    · rw [if_neg he]
      simp only [Associations.lookup_cons, ih, if_neg (Ne.symm he)]
      by_cases hkey : key = e.1
      · rw [if_pos hkey, if_neg (hkey ▸ he), if_pos hkey]
      · rw [if_neg hkey, if_neg hkey]

/-- Only the added suffix may be new. -/
theorem map_fst_addSuffix (suffix : Bytes) (clas tag : ℕ)
    (suffixes : List (Bytes × List (ℕ × List ℕ))) :
    (addSuffix suffix clas tag suffixes).map Prod.fst =
      if suffix ∈ suffixes.map Prod.fst then suffixes.map Prod.fst
      else suffixes.map Prod.fst ++ [suffix] := by
  induction suffixes with
  | nil => simp [addSuffix]
  | cons e suffixes ih =>
    rw [addSuffix]
    by_cases he : e.1 = suffix
    · simp [he]
    · rw [if_neg he, List.map_cons, List.map_cons, ih]
      by_cases hmem : suffix ∈ suffixes.map Prod.fst
      · rw [if_pos hmem, if_pos (List.mem_cons_of_mem _ hmem)]
      · have hnot : suffix ∉ e.1 :: suffixes.map Prod.fst := by
          rw [List.mem_cons, not_or]
          exact ⟨Ne.symm he, hmem⟩
        rw [if_neg hmem, if_neg hnot, List.cons_append]

/-- A suffix to which a tag is added has a class. -/
theorem addTag_ne_nil (clas tag : ℕ) (classes : List (ℕ × List ℕ)) :
    addTag clas tag classes ≠ [] := by
  cases classes with
  | nil => exact List.cons_ne_nil _ _
  | cons e classes =>
    rw [addTag]
    split_ifs <;> exact List.cons_ne_nil _ _

/-- All suffixes have classes. -/
theorem nonempty_addSuffix {suffixes : List (Bytes × List (ℕ × List ℕ))}
    (h : ∀ e ∈ suffixes, e.2 ≠ []) (suffix : Bytes) (clas tag : ℕ) :
    ∀ e ∈ addSuffix suffix clas tag suffixes, e.2 ≠ [] := by
  induction suffixes with
  | nil =>
    rw [addSuffix, List.forall_mem_singleton]
    exact addTag_ne_nil _ _ _
  | cons e suffixes ih =>
    obtain ⟨he, h⟩ := List.forall_mem_cons.mp h
    rw [addSuffix]
    split_ifs
    · exact List.forall_mem_cons.mpr ⟨addTag_ne_nil _ _ _, h⟩
    · exact List.forall_mem_cons.mpr ⟨he, ih h⟩

namespace ClassTable

/-- Every suffix has its classes. -/
structure HasSuffixes (table : ClassTable) (classList : List (List TaggedForm)) : Prop where
  valid : table.table.Valid
  keys : (table.suffixes.map Prod.fst).Nodup
  nonempty : ∀ e ∈ table.suffixes, e.2 ≠ []
  classes : ∀ suffix, List.Forall₂ (ClassNamed table.table.tags)
    ((table.suffixes.lookup suffix).getD []) (classesOf classList suffix)

/-- The members of a class are added one after the other. -/
theorem HasSuffixes.addMembers {table : ClassTable} {classList : List (List TaggedForm)}
    {done : List TaggedForm} (h : table.HasSuffixes (classList ++ [done]))
    (members : List TaggedForm) :
    (ClassTable.addMembers classList.length members table).HasSuffixes
        (classList ++ [done ++ members]) ∧
      table.table.tags <+: (ClassTable.addMembers classList.length members table).table.tags ∧
      (ClassTable.addMembers classList.length members table).classes = table.classes := by
  induction members generalizing table done with
  | nil =>
    rw [List.append_nil]
    exact ⟨h, List.prefix_rfl, rfl⟩
  | cons m members ih =>
    obtain ⟨hvalid, hkept, hplace⟩ := h.valid.place m.2
    obtain ⟨tag, tags, heq⟩ : ∃ tag tags, table.table.place m.2 = (tag, tags) := ⟨_, _, rfl⟩
    rw [heq] at hvalid hkept hplace
    have hstep : HasSuffixes ⟨table.classes, addSuffix m.1 classList.length tag table.suffixes, tags⟩
        (classList ++ [done ++ [m]]) := by
      refine ⟨hvalid, ?_, nonempty_addSuffix h.nonempty _ _ _, fun suffix => ?_⟩
      · rw [map_fst_addSuffix]
        split_ifs with hmem
        · exact h.keys
        · refine List.nodup_append.mpr ⟨h.keys, List.nodup_singleton _, ?_⟩
          rintro key hkey other hother rfl
          exact hmem (List.mem_singleton.mp hother ▸ hkey)
      · have hold := (h.classes suffix).imp fun clas named hclas => hclas.mono hkept
        have htags : tagsOf suffix (done ++ [m]) =
            tagsOf suffix done ++ if m.1 = suffix then [m.2] else [] := by
          rw [tagsOf, List.filter_append, List.map_append]
          congr 1
          split_ifs with hm
          · rw [List.filter_cons_of_pos (by simpa using hm)]
            rfl
          · rw [List.filter_cons_of_neg (by simpa using hm)]
            rfl
        rw [classesOf_append] at hold ⊢
        rw [htags]
        simp only [lookup_addSuffix]
        by_cases hsuffix : suffix = m.1
        · subst hsuffix
          rw [if_pos rfl, if_pos rfl, if_neg (by simp), Option.getD_some]
          refine forall₂_addTag hplace (fun named hnamed => ?_) hold
          obtain ⟨-, other, hget, -⟩ := mem_classesOf.mp hnamed
          exact (List.getElem?_eq_some_iff.mp hget).1
        · rw [if_neg hsuffix, if_neg (Ne.symm hsuffix), List.append_nil]
          exact hold
    obtain ⟨hall, htags, hclasses⟩ := ih hstep
    rw [List.append_assoc, List.singleton_append] at hall
    rw [ClassTable.addMembers, heq]
    exact ⟨hall, hkept.trans htags, hclasses⟩

/-- The table after some classes. -/
structure Describes (table : ClassTable) (classList : List (List TaggedForm)) : Prop extends
    table.HasSuffixes classList where
  strings : table.classes = (classList.map classString).zipIdx
  members : ∀ members ∈ classList, members ≠ [] ∧ members.Nodup ∧ Tabless members

/-- The empty table describes no classes. -/
theorem describes_empty : empty.Describes [] where
  valid := TagTable.valid_empty
  keys := List.nodup_nil
  nonempty _ he := absurd he List.not_mem_nil
  classes _ := .nil
  strings := rfl
  members _ hmem := absurd hmem List.not_mem_nil

/-- A number that is found is the one of the element. -/
theorem lookup_zipIdx {α : Type} [BEq α] [LawfulBEq α] {l : List α} {a : α} {id : ℕ}
    (h : l.zipIdx.lookup a = some id) : l[id]? = some a := by
  obtain ⟨before, after, hsplit, -⟩ := List.lookup_eq_some_iff.mp h
  have hmem : (a, id) ∈ l.zipIdx := by
    rw [hsplit]
    simp
  exact List.mk_mem_zipIdx_iff_getElem?.mp hmem

/-- A known class keeps its number. -/
theorem classId_of_some {table : ClassTable} {members : List TaggedForm} {id : ℕ}
    (h : table.classes.lookup (classString members) = some id) :
    table.classId members = (id, table) := by
  simp only [classId, h]

/-- A new class gets the next number. -/
theorem classId_of_none {table : ClassTable} {members : List TaggedForm}
    (h : table.classes.lookup (classString members) = none) :
    table.classId members = (table.classes.length, addMembers table.classes.length members
      { table with classes := table.classes ++ [(classString members, table.classes.length)] }) := by
  simp only [classId, h]

/-- A class has an id for which the table has its suffixes. -/
theorem Describes.classId {table : ClassTable} {classList : List (List TaggedForm)}
    (h : table.Describes classList) {members : List TaggedForm} (hne : members ≠ [])
    (hnodup : members.Nodup) (htabless : Tabless members) :
    ∃ classList', classList <+: classList' ∧ (table.classId members).2.Describes classList' ∧
      classList'[(table.classId members).1]? = some members ∧
      table.table.tags <+: (table.classId members).2.table.tags := by
  cases hlookup : table.classes.lookup (classString members) with
  | some id =>
    rw [classId_of_some hlookup]
    refine ⟨classList, List.prefix_rfl, h, ?_, List.prefix_rfl⟩
    rw [h.strings] at hlookup
    have hget := lookup_zipIdx hlookup
    rw [List.getElem?_map, Option.map_eq_some_iff] at hget
    obtain ⟨other, hother, hstring⟩ := hget
    obtain ⟨hne', -, htabless'⟩ := h.members other (List.mem_of_getElem? hother)
    rw [hother, classString_injective hne' hne htabless' htabless hstring]
  | none =>
    rw [classId_of_none hlookup]
    have hstart : HasSuffixes { table with classes := table.classes ++
        [(classString members, table.classes.length)] } (classList ++ [[]]) := by
      refine ⟨h.valid, h.keys, h.nonempty, fun suffix => ?_⟩
      rw [classesOf_append]
      simpa [tagsOf] using h.classes suffix
    obtain ⟨hkeep, htags, hclasses⟩ := hstart.addMembers members
    have hlength : table.classes.length = classList.length := by
      rw [h.strings, List.length_zipIdx, List.length_map]
    rw [← hlength, List.nil_append] at hkeep
    rw [← hlength] at htags hclasses
    refine ⟨classList ++ [members], List.prefix_append _ _, ⟨hkeep, ?_, ?_⟩, ?_, htags⟩
    · rw [hclasses, h.strings, List.map_append, List.zipIdx_append]
      simp
    · intro other hother
      rcases List.mem_append.mp hother with hother | hother
      · exact h.members other hother
      · rw [List.mem_singleton.mp hother]
        exact ⟨hne, hnodup, htabless⟩
    · rw [hlength, List.getElem?_concat_length]

end ClassTable

end UDPipe.Morphodita
