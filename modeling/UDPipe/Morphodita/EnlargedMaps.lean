import UDPipe.Library.Associations
import UDPipe.Morphodita.PersistentLookup

/-!
# Maps with the prefixes of their keys

A map is enlarged by the proper prefixes of its keys, with default entries, and what is
saved of a map is enough to load it again.
-/

namespace UDPipe.Morphodita

namespace PersistentUnorderedMap

open FnvHash

/-! ### Adding keys -/

section Touch

variable {Entry : Type} {default : Entry}

/-- Keys were added to a map, with default entries. -/
structure Touched (default : Entry) (keys : List Bytes) (map touched : List (Bytes × Entry)) :
    Prop where
  nodup : (touched.map Prod.fst).Nodup
  mem_of_mem : ∀ e ∈ map, e ∈ touched
  mem_of_key : ∀ key ∈ keys, ∃ e ∈ touched, e.1 = key
  of_mem : ∀ e ∈ touched, e ∈ map ∨ e.2 = default ∧ e.1 ∈ keys ∧ ∀ f ∈ map, f.1 ≠ e.1

/-- At the beginning nothing is touched. -/
theorem touched_nil {map : List (Bytes × Entry)} (hkeys : (map.map Prod.fst).Nodup) :
    Touched default [] map map where
  nodup := hkeys
  mem_of_mem _ he := he
  mem_of_key _ hkey := absurd hkey List.not_mem_nil
  of_mem _ he := .inl he

/-- One more key. -/
theorem Touched.touch {keys : List Bytes} {map touched : List (Bytes × Entry)}
    (h : Touched default keys map touched) (key : Bytes) :
    Touched default (keys ++ [key]) map (touch default touched key) := by
  rw [PersistentUnorderedMap.touch]
  have hold : ∀ e ∈ touched, e ∈ map ∨
      e.2 = default ∧ e.1 ∈ keys ++ [key] ∧ ∀ f ∈ map, f.1 ≠ e.1 := by
    intro e he
    rcases h.of_mem e he with hmem | ⟨hdefault, hkey, hnew⟩
    · exact .inl hmem
    · exact .inr ⟨hdefault, List.mem_append_left _ hkey, hnew⟩
  cases hfound : touched.lookup key with
  | some entry =>
    have hmem := (Associations.lookup_eq_some_iff h.nodup).mp hfound
    rw [if_pos Option.isSome_some]
    refine ⟨h.nodup, h.mem_of_mem, fun other hother => ?_, hold⟩
    rcases List.mem_append.mp hother with hother | hother
    · exact h.mem_of_key other hother
    · exact ⟨_, hmem, (List.mem_singleton.mp hother).symm⟩
  | none =>
    have hnew : ∀ e ∈ touched, e.1 ≠ key := by
      intro e he heq
      have hlookup := (Associations.lookup_eq_some_iff h.nodup).mpr (he : (e.1, e.2) ∈ touched)
      rw [heq, hfound] at hlookup
      cases hlookup
    rw [if_neg (by simp)]
    refine ⟨?_, fun e he => List.mem_append_left _ (h.mem_of_mem e he), fun other hother => ?_,
      fun e he => ?_⟩
    · rw [List.map_append, List.nodup_append]
      refine ⟨h.nodup, List.nodup_singleton _, fun k hk k' hk' => ?_⟩
      obtain ⟨e, he, rfl⟩ := List.mem_map.mp hk
      rw [List.map_singleton, List.mem_singleton] at hk'
      rw [hk']
      exact hnew e he
    · rcases List.mem_append.mp hother with hother | hother
      · obtain ⟨e, he, heq⟩ := h.mem_of_key other hother
        exact ⟨e, List.mem_append_left _ he, heq⟩
      · exact ⟨(key, default), by simp, (List.mem_singleton.mp hother).symm⟩
    · rcases List.mem_append.mp he with he | he
      · exact hold e he
      · obtain rfl := List.mem_singleton.mp he
        exact .inr ⟨rfl, by simp, fun f hf => hnew f (h.mem_of_mem f hf)⟩

/-- More keys are touched one after the other. -/
theorem Touched.foldl {keys : List Bytes} {map touched : List (Bytes × Entry)}
    (h : Touched default keys map touched) (more : List Bytes) :
    Touched default (keys ++ more) map
      (more.foldl (PersistentUnorderedMap.touch default) touched) := by
  induction more generalizing keys touched with
  | nil => rwa [List.append_nil]
  | cons key more ih =>
    have hnext := ih (h.touch key)
    rwa [List.append_assoc] at hnext

/-- The proper prefixes of a key, without the empty one. -/
def properPrefixes (key : Bytes) : List Bytes :=
  (List.range' 1 (key.length - 1)).reverse.map key.take

/-- The proper prefixes of a key. -/
theorem mem_properPrefixes {key label : Bytes} :
    label ∈ properPrefixes key ↔ label ≠ [] ∧ label ≠ key ∧ label <+: key := by
  simp only [properPrefixes, List.mem_map, List.mem_reverse, List.mem_range'_1]
  constructor
  · rintro ⟨n, ⟨hpos, hlt⟩, rfl⟩
    have hlength : (key.take n).length = n := List.length_take_of_le (by omega)
    refine ⟨fun hnil => ?_, fun heq => ?_, List.take_prefix _ _⟩
    · rw [hnil, List.length_nil] at hlength
      omega
    · rw [heq] at hlength
      omega
  · rintro ⟨hne, hproper, hbegins⟩
    have hpos := List.length_pos_iff.mpr hne
    have hle := hbegins.length_le
    have hlt : label.length ≠ key.length := fun heq => hproper (hbegins.eq_of_length heq)
    exact ⟨label.length, ⟨by omega, by omega⟩, (List.prefix_iff_eq_take.mp hbegins).symm⟩

/-- The prefixes are added. -/
theorem touched_enlarged {map : List (Bytes × Entry)} (hkeys : (map.map Prod.fst).Nodup) :
    Touched default (map.flatMap fun e => properPrefixes e.1) map
      (enlarged default map true false) := by
  have hall := (@touched_nil _ default _ hkeys).foldl (map.flatMap fun e => properPrefixes e.1)
  rw [List.nil_append, List.foldl_flatMap] at hall
  exact hall

end Touch

/-! ### Saving -/

/-- A map that is saved is stored. -/
theorem stored_of_save {mask : ℕ} {items : List (Bytes × Bytes)} {saved : Bytes}
    (hsave : (filled mask items).save = some saved) : Stored (filled mask items) := by
  simp only [FnvHash.save, add4B, Option.bind_eq_bind, Option.bind_eq_some_iff,
    add_eq_some] at hsave
  obtain ⟨_, ⟨hhash, -⟩, _, ⟨hdata, -⟩, -⟩ := hsave
  refine ⟨by rw [length_filled_hash]; rfl, hhash, fun n hn => ?_, hdata⟩
  exact (filled_offset_le _ _ n hn).trans_lt hdata

/-- If a constructed map is saved, then what is loaded answers as its entries say. -/
theorem represents_of_save {Entry : Type} {map : List (Bytes × Entry)} {loadFactor : ℕ → ℕ}
    {entryEncode : Entry → Bytes} (hkeys : (map.map Prod.fst).Nodup)
    (hne : ∀ e ∈ map, entryEncode e.2 ≠ []) {saved : Bytes}
    (hsave : (ofUnordered map loadFactor entryEncode).save = some saved) (rest : Bytes) :
    ∃ loaded, load (saved ++ rest) = some (loaded, rest) ∧
      loaded.Represents (map.map fun e => (e.1, entryEncode e.2)) := by
  have hrepresents := represents_ofUnordered loadFactor hkeys hne
  obtain ⟨m, hm⟩ : ∃ m, m = ofUnordered map loadFactor entryEncode := ⟨_, rfl⟩
  rw [← hm] at hsave hrepresents
  have hparts := hsave
  simp only [save, add1B, Option.bind_eq_bind, Option.bind_eq_some_iff, add_eq_some] at hparts
  obtain ⟨_, ⟨hlength, -⟩, tables, htables, -⟩ := hparts
  have hstored : ∀ h ∈ m.hashes, Stored h := by
    intro h hh
    obtain ⟨table, -, htable⟩ := exists_of_mapM htables h hh
    rw [hm, ofUnordered, construct_eq, built] at hh
    obtain ⟨len, -, rfl⟩ := List.mem_map.mp hh
    exact stored_of_save htable
  obtain ⟨saved', hsaved', hload⟩ := load_save hlength hstored
  rw [hsave, Option.some.injEq] at hsaved'
  rw [hsaved']
  exact ⟨m, hload rest, hrepresents⟩

/-- A map with short keys and little data is saved. -/
theorem exists_save {Entry : Type} (map : List (Bytes × Entry)) (entryEncode : Entry → Bytes)
    (loadFactor : ℕ → ℕ) (hkeys : (map.map Prod.fst).Nodup)
    (hlength : ∀ e ∈ map, e.1.length ≤ 254) (hne : ∀ e ∈ map, entryEncode e.2 ≠ [])
    (hsize : totalSize (map.map fun e => (e.1, entryEncode e.2)) < 2 ^ 31)
    (hload : ∀ size, loadFactor size ≤ 5 * size) :
    ∃ saved, (ofUnordered map loadFactor entryEncode).save = some saved := by
  have hperm := List.mergeSort_perm map fun a b => decide (a.1 ≤ b.1)
  have hsize' := hsize
  rw [totalSize, ← ((hperm.map fun e => (e.1, entryEncode e.2)).map
    fun e => e.1.length + e.2.length).sum_eq] at hsize'
  obtain ⟨hbound, hstored⟩ := construct_stored _ entryEncode loadFactor
    ((hperm.map Prod.fst).nodup_iff.mpr hkeys) (fun e he => hlength e (hperm.subset he))
    (fun e he => hne e (hperm.subset he)) hsize' hload
  obtain ⟨saved, hsaved, -⟩ := load_save hbound hstored
  exact ⟨saved, hsaved⟩

end PersistentUnorderedMap

end UDPipe.Morphodita
