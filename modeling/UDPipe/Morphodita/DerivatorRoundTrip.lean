import UDPipe.Morphodita.DerivatorLinks

/-!
# The derivations that were encoded are loaded

The first two passes lay out the entries without links, and the third links them. A parent and
the children of a lemma are then found behind their offsets, with their comments.
-/

namespace UDPipe.Morphodita

open PersistentUnorderedMap (countSizes resize foldl_resize passes_eq_built summed_foldl_add_iff)

namespace DerivatorDictionary

/-! ### Loading -/

/-- The tables get their sizes. -/
theorem resizeAll_addWords {sizes : List ℕ} (h : ∀ size ∈ sizes, size < 256 ^ 4) (rest : Bytes)
    (derinet : PersistentUnorderedMap) :
    resizeAll sizes.length (addWords 4 sizes ++ rest) derinet =
      some (sizes.foldl resize derinet, rest) := by
  induction sizes generalizing derinet with
  | nil => rfl
  | cons size sizes ih =>
    obtain ⟨hsize, hsizes⟩ := List.forall_mem_cons.mp h
    rw [List.length_cons, resizeAll, addWords, List.flatMap_cons, List.append_assoc, next4B,
      next_append hsize, List.foldl_cons]
    exact ih hsizes (derinet.resize size)

/-- A loop of steps that all succeed. -/
theorem foldlM_some {α β : Type} (f : β → α → β) (l : List α) (b : β) :
    l.foldlM (fun b a => some (f b a)) b = some (l.foldl f b) :=
  List.foldlM_pure

end DerivatorDictionary

namespace Derinet

open DerivatorDictionary

variable {d : Derinet}

/-- The first pass. -/
theorem foldl_addRecord (d : Derinet) (place : Bytes → ℕ) (derinet : PersistentUnorderedMap) :
    (d.lemmas.map d.recordOf).foldl addRecord derinet =
      (entries d.keys (d.entryAfter place [])).foldl
        (fun m e => PersistentUnorderedMap.add m e.1 e.2.length) derinet := by
  rw [entries, keys, List.map_map, List.foldl_map, List.foldl_map]
  apply List.foldl_ext
  intro m e he
  rw [addRecord, recordOf, Function.comp_apply, length_entryAfter (List.nil_sublist _),
    commentOf_eq he]

/-- The second pass. -/
theorem foldl_fillRecord (d : Derinet) (place : Bytes → ℕ) (derinet : PersistentUnorderedMap) :
    (d.lemmas.map d.recordOf).foldl fillRecord derinet =
      (entries d.keys (d.entryAfter place [])).foldl
        (fun m e => PersistentUnorderedMap.fill m e.1 e.2) derinet := by
  rw [entries, keys, List.map_map, List.foldl_map, List.foldl_map]
  apply List.foldl_ext
  intro m e he
  have hentry : d.entryAfter place [] e.lemmaId =
      ⟨e.comment, 0, List.replicate (d.children e.lemmaId) 0⟩ := by
    rw [entryAfter, commentOf_eq he, List.filter_nil, List.map_nil, CountedSlots.filled_nil]
    rfl
  rw [fillRecord, recordOf, Function.comp_apply, hentry, DerivatorEntry.bytes,
    List.length_replicate]
  simp only [List.append_assoc]

/-- What was encoded is loaded. -/
theorem exists_loadData (hfits : d.Fits) (hacyclic : ¬ d.Cyclic) :
    ∃ data, d.encode = some data ∧
      loadData data = some (mapOf d.keys (d.entryAfter d.offset d.lemmas)) := by
  obtain ⟨records, hencode, hpass⟩ := exists_encode hfits.toSized hacyclic
  refine ⟨_, hencode, ?_⟩
  have hlength : (countSizes (d.lemmas.map LemmaInfo.lemmaId)).length < 256 ^ 1 :=
    length_countSizes_lt hfits.toSized
  have hsizes : ∀ size ∈ countSizes (d.lemmas.map LemmaInfo.lemmaId), size < 256 ^ 4 :=
    fun size hsize => (le_of_mem_countSizes hsize).trans_lt (hfits.count.trans (by decide))
  have hresize : (countSizes d.keys).foldl resize ⟨[]⟩ =
      ⟨(List.range (countSizes d.keys).length).map fun len =>
        FnvHash.new (PersistentUnorderedMap.capacity (elemsOf d.keys) len)⟩ :=
    foldl_resize (countSizes d.keys) id
  have hbuilt := passes_eq_built (countSizes d.keys).length (elemsOf d.keys)
    (entries d.keys (d.entryAfter d.offset []))
  have hunlinked : d.entryAfter d.offset [] = d.entryAfter (fun _ => 0) [] := by
    funext lem
    simp [entryAfter]
  have hsummed := (summed_foldl_add_iff (countSizes d.keys).length (elemsOf d.keys) _).mpr
    fun len _ => hfits.tables len
  rw [← hunlinked] at hsummed
  rw [← hresize] at hbuilt hsummed
  rw [loadData, next1B, next_append hlength]
  simp only [Option.bind_eq_bind, Option.bind_some, resizeAll_addWords hsizes, hpass, foldlM_some]
  rw [foldl_addRecord d d.offset, foldl_fillRecord d d.offset]
  refine (if_neg (not_not.mpr hsummed)).trans ?_
  refine (congrArg (List.foldlM linkRecord · (d.lemmas.map d.recordOf)) hbuilt).trans ?_
  exact foldlM_linkRecord hfits (List.nil_append d.lemmas).symm

/-! ### Lookups -/

/-- The dictionary that was loaded. -/
def loaded (d : Derinet) : PersistentUnorderedMap :=
  mapOf d.keys (d.entryAfter d.offset d.lemmas)

/-- The lemmas whose chosen parent is the given one. -/
def childrenOf (d : Derinet) (parent : Bytes) : List LemmaInfo :=
  d.lemmas.filter fun e => d.parentOf e.lemmaId = some parent

/-- The loaded entries are in their places. -/
theorem placed_loaded (hfits : d.Fits) :
    Placed d.keys d.offset (d.entryAfter d.offset d.lemmas) :=
  placed_entryAfter hfits (List.Sublist.refl d.lemmas)

/-- The loaded entry of a lemma is found. -/
theorem entryAt_loaded (hfits : d.Fits) {lem : Bytes} (hlem : lem ∈ d.keys) :
    ∃ rest, d.loaded.entryAt lem entrySize =
      some ((d.entryAfter d.offset d.lemmas lem).bytes ++ rest) :=
  (placed_loaded hfits).entryAt d.nodup hlem

/-- Nothing is found for another lemma. -/
theorem entryAt_loaded_eq_none (hfits : d.Fits) {lem : Bytes} (hlem : lem ∉ d.keys) :
    d.loaded.entryAt lem entrySize = none :=
  (placed_loaded hfits).entryAt_eq_none hlem

/-- A lemma with a parent and the parent are keys. -/
theorem parent_mem_keys {lem parent : Bytes} (h : d.parentOf lem = some parent) :
    lem ∈ d.keys ∧ parent ∈ d.keys := by
  obtain ⟨e, he, rfl, hne, rfl⟩ := parentOf_eq_some.mp h
  exact ⟨List.mem_map_of_mem he, d.parents e he hne⟩

/-- In the end, the entry of a lemma has the address of its parent. -/
theorem entryAfter_parent (d : Derinet) (place : Bytes → ℕ) (lem : Bytes) :
    (d.entryAfter place d.lemmas lem).parent =
      ((d.parentOf lem).map (address place)).getD 0 := by
  rw [entryAfter]
  cases hfind : d.lemmas.find? fun e => e.lemmaId = lem ∧ e.parent ≠ [] with
  | none =>
    have hnone : d.parentOf lem = none := by
      rw [Option.eq_none_iff_forall_ne_some]
      intro parent hparent
      obtain ⟨e, he, hlem, hne, -⟩ := parentOf_eq_some.mp hparent
      exact List.find?_eq_none.mp hfind e he (decide_eq_true ⟨hlem, hne⟩)
    rw [hnone]
    rfl
  | some e =>
    have hprop := List.find?_some hfind
    rw [decide_eq_true_eq] at hprop
    have hparent : d.parentOf lem = some e.parent :=
      parentOf_eq_some.mpr ⟨e, List.mem_of_find?_eq_some hfind, hprop.1, hprop.2, rfl⟩
    rw [hparent]
    rfl

/-- In the end, the entry of a lemma has the addresses of its children. -/
theorem entryAfter_children (d : Derinet) (place : Bytes → ℕ) {lem : Bytes} (hlem : lem ≠ []) :
    (d.entryAfter place d.lemmas lem).children =
      (d.childrenOf lem).map fun e => address place e.lemmaId := by
  have hfilter : (d.lemmas.filter fun e => e.parent = lem) = d.childrenOf lem := by
    apply List.filter_congr
    intro e he
    rw [decide_eq_decide, parentOf_eq_some]
    constructor
    · rintro rfl
      exact ⟨e, he, rfl, hlem, rfl⟩
    · rintro ⟨f, hf, heq, -, rfl⟩
      rw [List.inj_on_of_nodup_map d.nodup hf he heq]
  rw [entryAfter, CountedSlots.filled_of_length, hfilter]
  rw [List.length_map, children, List.countP_eq_length_filter]

/-- The address of a lemma is not the one of no lemma. -/
theorem address_ne_zero {place : Bytes → ℕ} {e : LemmaInfo} (he : e ∈ d.lemmas) :
    address place e.lemmaId ≠ 0 := by
  have hpos := List.length_pos_of_ne_nil (d.nonempty e he)
  rw [address]
  omega

/-- The lemma at an address is loaded with its comment. -/
theorem derivatedLemma_loaded (hfits : d.Fits) (dictionary : Option (Bytes → ℕ)) {e : LemmaInfo}
    (he : e ∈ d.lemmas) (haddress : Addressable d.offset e.lemmaId) :
    derivatedLemma ⟨dictionary, d.loaded⟩ (address d.offset e.lemmaId) =
      e.lemmaId ++ e.comment := by
  rw [loaded, (placed_loaded hfits).derivatedLemma d.nodup (List.mem_map_of_mem he) haddress,
    entryAfter, commentOf_eq he]

/-- The method `parent` finds the chosen parent with its comment. -/
theorem parent_loaded (hfits : d.Fits) (dictionary : Option (Bytes → ℕ)) (lem text : Bytes) :
    DerivatorDictionary.parent ⟨dictionary, d.loaded⟩ lem = some text ↔
      ∃ p ∈ d.lemmas, d.parentOf (lemmaIdOf dictionary lem) = some p.lemmaId ∧
        text = p.lemmaId ++ p.comment := by
  have hplaced := placed_loaded hfits
  rw [DerivatorDictionary.parent]
  by_cases hkey : lemmaIdOf dictionary lem ∈ d.keys
  · obtain ⟨rest, hentry⟩ := entryAt_loaded hfits hkey
    have hentryFits := hplaced.fits _ hkey
    rw [hentry, Option.bind_eq_bind, Option.bind_some]
    simp only [DerivatorEntry.load_comment hentryFits, DerivatorEntry.load_parent hentryFits,
      entryAfter_parent]
    cases hparent : d.parentOf (lemmaIdOf dictionary lem) with
    | none => simp
    | some parent =>
      obtain ⟨e, he, -, hne, rfl⟩ := parentOf_eq_some.mp hparent
      obtain ⟨p, hp, hlem⟩ := List.mem_map.mp (d.parents e he hne)
      have haddress := (addressable hfits he hne).2
      rw [← hlem] at haddress ⊢
      rw [Option.map_some, Option.getD_some, if_neg (address_ne_zero hp),
        derivatedLemma_loaded hfits dictionary hp haddress, Option.some.injEq]
      constructor
      · rintro rfl
        exact ⟨p, hp, rfl, rfl⟩
      · rintro ⟨p', hp', heq, rfl⟩
        rw [List.inj_on_of_nodup_map d.nodup hp' hp (Option.some.inj heq).symm]
  · rw [entryAt_loaded_eq_none hfits hkey]
    constructor
    · rintro ⟨⟩
    · rintro ⟨p, -, hparent, -⟩
      exact absurd (parent_mem_keys hparent).1 hkey

/-- The method `children` finds the lemmas with the given parent and their comments. -/
theorem children_loaded (hfits : d.Fits) (dictionary : Option (Bytes → ℕ)) (lem : Bytes) :
    DerivatorDictionary.children ⟨dictionary, d.loaded⟩ lem =
      if d.childrenOf (lemmaIdOf dictionary lem) = [] then none
      else some ((d.childrenOf (lemmaIdOf dictionary lem)).map fun e =>
        e.lemmaId ++ e.comment) := by
  have hplaced := placed_loaded hfits
  rw [DerivatorDictionary.children]
  by_cases hkey : lemmaIdOf dictionary lem ∈ d.keys
  · obtain ⟨rest, hentry⟩ := entryAt_loaded hfits hkey
    have hentryFits := hplaced.fits _ hkey
    have hne : lemmaIdOf dictionary lem ≠ [] := by
      obtain ⟨e, he, heq⟩ := List.mem_map.mp hkey
      exact heq ▸ d.nonempty e he
    rw [hentry, Option.bind_eq_bind, Option.bind_some]
    simp only [DerivatorEntry.load_comment hentryFits, DerivatorEntry.load_length hentryFits,
      DerivatorEntry.words_children hentryFits]
    rw [entryAfter_children d d.offset hne, List.length_map, List.map_map]
    simp only [List.length_eq_zero_iff]
    congr 2
    apply List.map_congr_left
    intro e he
    obtain ⟨hmem, hparent⟩ := List.mem_filter.mp he
    obtain ⟨f, hf, heq, hne', -⟩ := parentOf_eq_some.mp (of_decide_eq_true hparent)
    rw [List.inj_on_of_nodup_map d.nodup hf hmem heq] at hne'
    exact derivatedLemma_loaded hfits dictionary hmem (addressable hfits hmem hne').1
  · have hnone : d.childrenOf (lemmaIdOf dictionary lem) = [] := by
      rw [childrenOf, List.filter_eq_nil_iff]
      intro e _ hparent
      exact hkey (parent_mem_keys (of_decide_eq_true hparent)).2
    rw [entryAt_loaded_eq_none hfits hkey, if_pos hnone]
    rfl

/-- The encoder fails exactly on a cycle. Otherwise what it gives to the compressor is loaded, and
the parents and the children of all lemmas are those that were chosen. -/
theorem encode_load (hfits : d.Fits) :
    (d.encode = none ↔ d.Cyclic) ∧ ∀ data, d.encode = some data →
      ∀ decompress dictionary stream, decompress stream = some data →
        ∃ dict, DerivatorDictionary.load decompress dictionary stream = some dict ∧
          (∀ lem text, dict.parent lem = some text ↔ ∃ p ∈ d.lemmas,
            d.parentOf (lemmaIdOf dictionary lem) = some p.lemmaId ∧
              text = p.lemmaId ++ p.comment) ∧
          ∀ lem, dict.children lem =
            if d.childrenOf (lemmaIdOf dictionary lem) = [] then none
            else some ((d.childrenOf (lemmaIdOf dictionary lem)).map fun e =>
              e.lemmaId ++ e.comment) := by
  by_cases hcyclic : d.Cyclic
  · refine ⟨⟨fun _ => hcyclic, fun _ => encode_eq_none hcyclic⟩, fun data hencode => ?_⟩
    rw [encode_eq_none hcyclic] at hencode
    cases hencode
  · obtain ⟨data, hencode, hload⟩ := exists_loadData hfits hcyclic
    rw [hencode]
    refine ⟨⟨fun hnone => absurd hnone (Option.some_ne_none data), fun h => absurd h hcyclic⟩, ?_⟩
    rintro _ ⟨⟩ decompress dictionary stream hstream
    refine ⟨⟨dictionary, d.loaded⟩, ?_, parent_loaded hfits dictionary,
      children_loaded hfits dictionary⟩
    rw [load, hstream, Option.bind_eq_bind, Option.bind_some, hload]
    rfl

/-- A lemma with two children. -/
def siblings : Derinet where
  lemmas := [⟨[97, 98, 99], [95, 49], []⟩, ⟨[97, 98, 100], [], [97, 98, 99]⟩,
    ⟨[98, 99, 97, 97], [95, 50], [97, 98, 99]⟩]
  nodup := by decide
  nonempty := by decide
  zero_free := by decide
  parents := by decide

/-- The lemmas of two siblings fit. -/
theorem siblings_fits : siblings.Fits :=
  .of_totalSize ⟨by decide, by decide, by decide, by decide⟩ (by decide)

/-- Two siblings and their parent. -/
theorem encode_load_siblings : ∃ data, siblings.encode = some data ∧
    ∃ dict, DerivatorDictionary.load some none data = some dict ∧
      dict.parent [98, 99, 97, 97] = some [97, 98, 99, 95, 49] ∧
      dict.children [97, 98, 99] = some [[97, 98, 100], [98, 99, 97, 97, 95, 50]] := by
  obtain ⟨-, hload⟩ := encode_load siblings_fits
  have hencode : siblings.encode.isSome = true := by decide
  obtain ⟨data, hdata⟩ := Option.isSome_iff_exists.mp hencode
  obtain ⟨dict, hdict, hparent, hchildren⟩ := hload data hdata some none data rfl
  refine ⟨data, hdata, dict, hdict, ?_, ?_⟩
  · apply (hparent _ _).mpr
    exact ⟨⟨[97, 98, 99], [95, 49], []⟩, by decide, by decide, rfl⟩
  · rw [hchildren, if_neg (by decide)]
    decide

end Derinet

end UDPipe.Morphodita
