import UDPipe.Morphodita.PrefixGuesser
import UDPipe.Morphodita.Guessing

/-!
# The tables of the prefix guesser

The encoder adds the prefixes of the keys to both tables, without a mask. What is loaded
again finds the masks of these tables, which have the prefixes of their keys.
-/

namespace UDPipe.Morphodita

open PersistentUnorderedMap

/-- With a prefix, all its prefixes that are not empty are found. -/
def PrefixClosed (find : Bytes → Option ℕ) : Prop :=
  ∀ text more, text ≠ [] → (find (text ++ more)).isSome = true → (find text).isSome = true

/-- The masks of a table have 32 bits, and its keys differ. -/
structure IsMaskTable (map : List (Bytes × ℕ)) : Prop where
  nodup : (map.map Prod.fst).Nodup
  lt : ∀ e ∈ map, e.2 < 2 ^ 32

namespace IsMaskTable

variable {map : List (Bytes × ℕ)}

/-- The empty table is a table of masks. -/
theorem nil : IsMaskTable [] := ⟨.nil, List.forall_mem_nil _⟩

/-- An enlarged table is a table of masks. -/
theorem enlarged (h : IsMaskTable map) :
    IsMaskTable (PersistentUnorderedMap.enlarged 0 map true false) := by
  have htouched := @touched_enlarged _ (0 : ℕ) _ h.nodup
  refine ⟨htouched.nodup, fun e he => ?_⟩
  rcases htouched.of_mem e he with hold | ⟨hzero, -⟩
  · exact h.lt e hold
  · rw [hzero]
    decide

/-- A map answers as the table says. -/
theorem maskAt_eq (h : IsMaskTable map) {m : PersistentUnorderedMap}
    (hm : m.Represents (map.map fun e => (e.1, toBytes 4 e.2))) :
    maskAt m = fun str => map.lookup str := by
  have hsize : ∀ e ∈ map.map fun e => (e.1, toBytes 4 e.2), e.2.length = 4 := by
    intro e he
    obtain ⟨f, -, rfl⟩ := List.mem_map.mp he
    exact length_toBytes 4 _
  funext str
  rw [maskAt]
  cases hlookup : map.lookup str with
  | some mask =>
    have hmem := (Associations.lookup_eq_some_iff h.nodup).mp hlookup
    obtain ⟨more, hmore⟩ := hm.typed_mem 4 hsize _ (List.mem_map_of_mem hmem)
    rw [hmore, Option.map_some, unalignedLoad_append (h.lt _ hmem)]
  | none =>
    rw [hm.typed_not_mem 4 hsize str, Option.map_none]
    intro e he heq
    obtain ⟨f, hf, rfl⟩ := List.mem_map.mp he
    have hfound := (Associations.lookup_eq_some_iff h.nodup).mpr (hf : (f.1, f.2) ∈ map)
    rw [show f.1 = str from heq, hlookup] at hfound
    cases hfound

/-- The prefixes of the keys are found. -/
theorem prefixClosed (h : IsMaskTable map) :
    PrefixClosed fun str => (PersistentUnorderedMap.enlarged 0 map true false).lookup str := by
  have htouched := @touched_enlarged _ (0 : ℕ) _ h.nodup
  have hfound : ∀ e ∈ PersistentUnorderedMap.enlarged 0 map true false,
      ((PersistentUnorderedMap.enlarged 0 map true false).lookup e.1).isSome = true := by
    intro e he
    rw [(Associations.lookup_eq_some_iff htouched.nodup).mpr (he : (e.1, e.2) ∈ _),
      Option.isSome_some]
  intro text more hne hsome
  obtain ⟨mask, hmask⟩ := Option.isSome_iff_exists.mp hsome
  have hmem := (Associations.lookup_eq_some_iff htouched.nodup).mp hmask
  -- the text begins a key of the map
  obtain ⟨f, hf, hbegins⟩ : ∃ f ∈ map, text <+: f.1 := by
    rcases htouched.of_mem _ hmem with hold | ⟨-, hproper, -⟩
    · exact ⟨_, hold, List.prefix_append _ _⟩
    · obtain ⟨f, hf, hkey⟩ := List.mem_flatMap.mp hproper
      exact ⟨f, hf, (List.prefix_append _ _).trans (mem_properPrefixes.mp hkey).2.2⟩
  by_cases heq : text = f.1
  · rw [heq]
    exact hfound f (htouched.mem_of_mem f hf)
  · obtain ⟨e, he, rfl⟩ := htouched.mem_of_key text
      (List.mem_flatMap.mpr ⟨f, hf, mem_properPrefixes.mpr ⟨hne, heq, hbegins⟩⟩)
    exact hfound e he

/-- Only the added key may be new. -/
theorem map_fst_addMask (map : List (Bytes × ℕ)) (key : Bytes) (filter : ℕ) :
    (PrefixTables.addMask map key filter).map Prod.fst =
      if key ∈ map.map Prod.fst then map.map Prod.fst else map.map Prod.fst ++ [key] := by
  induction map with
  | nil => rfl
  | cons e map ih =>
    rw [PrefixTables.addMask]
    by_cases heq : e.1 = key
    · simp [heq]
    · have hne : key ≠ e.1 := fun h => heq h.symm
      rw [if_neg heq, List.map_cons, ih, List.map_cons]
      by_cases hmem : key ∈ map.map Prod.fst
      · rw [if_pos hmem, if_pos (List.mem_cons_of_mem _ hmem)]
      · rw [if_neg hmem, if_neg (by simpa [hne] using hmem), List.cons_append]

/-- Bits are added to the mask of a key. -/
theorem addMask (h : IsMaskTable map) (key : Bytes) {filter : ℕ} (hfilter : filter < 2 ^ 32) :
    IsMaskTable (PrefixTables.addMask map key filter) := by
  constructor
  · rw [map_fst_addMask]
    split
    · exact h.nodup
    · rename_i hnew
      exact List.nodup_append.mpr ⟨h.nodup, List.nodup_singleton _, fun k hk k' hk' heq =>
        hnew (List.mem_singleton.mp hk' ▸ heq ▸ hk)⟩
  · have hlt := h.lt
    clear h
    induction map with
    | nil => exact List.forall_mem_singleton.mpr hfilter
    | cons e map ih =>
      obtain ⟨he, hmap⟩ := List.forall_mem_cons.mp hlt
      rw [PrefixTables.addMask]
      split
      · exact List.forall_mem_cons.mpr ⟨Nat.or_lt_two_pow he hfilter, hmap⟩
      · exact List.forall_mem_cons.mpr ⟨he, ih hmap⟩

/-- What a saved table answers. -/
theorem maskAt_masksMap (h : IsMaskTable map) :
    maskAt (masksMap map) =
      fun str => (PersistentUnorderedMap.enlarged 0 map true false).lookup str := by
  refine h.enlarged.maskAt_eq (represents_ofUnordered _ h.enlarged.nodup fun e _ hnil => ?_)
  have hlength := length_toBytes 4 e.2
  rw [hnil] at hlength
  cases hlength

/-- A table of masks has the prefixes of its keys. -/
theorem prefixClosed_masksMap (h : IsMaskTable map) : PrefixClosed (maskAt (masksMap map)) := by
  rw [h.maskAt_masksMap]
  exact h.prefixClosed

end IsMaskTable

/-! ### Reading and loading -/

namespace PrefixTables

/-- Both tables of the encoder. -/
structure WellFormed (tables : PrefixTables) : Prop where
  initial : IsMaskTable tables.prefixesInitial
  middle : IsMaskTable tables.prefixesMiddle

/-- A line that is read keeps the tables well formed. -/
theorem WellFormed.readLine {tables : PrefixTables} (h : tables.WellFormed) {initial : Bool}
    {line : Bytes} {state : PrefixTables × Bool}
    (hread : tables.readLine initial line = some state) : state.1.WellFormed := by
  rw [PrefixTables.readLine] at hread
  dsimp only at hread
  generalize (if tables.filters.contains ((split tab line).getD 1 []) = true then tables.filters
    else tables.filters ++ [(split tab line).getD 1 []]) = filters at hread
  by_cases hempty : line = [] ∧ initial = true
  · rw [if_pos hempty] at hread
    obtain rfl := Option.some.inj hread
    exact h
  rw [if_neg hempty] at hread
  by_cases hsize : (split tab line).length ≠ 2
  · rw [if_pos hsize] at hread
    cases hread
  rw [if_neg hsize] at hread
  by_cases hbit : filters.idxOf ((split tab line).getD 1 []) < 32
  · have hpow := Nat.pow_lt_pow_right (by decide : 1 < 2) hbit
    rw [if_pos hbit] at hread
    cases initial with
    | true =>
      obtain rfl := Option.some.inj hread
      exact ⟨h.initial.addMask _ hpow, h.middle⟩
    | false =>
      obtain rfl := Option.some.inj hread
      exact ⟨h.initial, h.middle.addMask _ hpow⟩
  · rw [if_neg hbit] at hread
    cases hread

/-- The lines that are read keep the tables well formed. -/
theorem WellFormed.readLines {lines : List Bytes} {state : PrefixTables × Bool}
    (h : state.1.WellFormed) {tables : PrefixTables}
    (hread : PrefixTables.readLines lines state = some tables) : tables.WellFormed := by
  induction lines generalizing state with
  | nil =>
    obtain rfl := Option.some.inj hread
    exact h
  | cons line lines ih =>
    rw [PrefixTables.readLines, Option.bind_eq_bind, Option.bind_eq_some_iff] at hread
    obtain ⟨next, hnext, hrest⟩ := hread
    exact ih (h.readLine hnext) hrest

end PrefixTables

/-- What is loaded has the filters and the tables that the encoder read, and with a prefix it
finds the prefixes of it. -/
theorem load_prefixTables {text data : Bytes} (hencode : encodePrefixGuesser text = some data)
    (rest : Bytes) : ∃ tables guesser,
      PrefixTables.readLines (textLines text) ({}, true) = some tables ∧ tables.WellFormed ∧
      MorphoPrefixGuesser.load (data ++ rest) = some (guesser, rest) ∧
      guesser.tagFilters = tables.filters.map TagFilter.ofString ∧
      (maskAt guesser.prefixesInitial =
        fun str => (enlarged 0 tables.prefixesInitial true false).lookup str) ∧
      (maskAt guesser.prefixesMiddle =
        fun str => (enlarged 0 tables.prefixesMiddle true false).lookup str) ∧
      PrefixClosed (maskAt guesser.prefixesInitial) ∧
      PrefixClosed (maskAt guesser.prefixesMiddle) := by
  simp only [encodePrefixGuesser, add1B, Option.bind_eq_bind, Option.bind_eq_some_iff, add_eq_some,
    Option.pure_def, Option.some.injEq] at hencode
  obtain ⟨tables, htables, _, ⟨hsize, rfl⟩, cells, hcells, initial, hinitial, middle, hmiddle,
    rfl⟩ := hencode
  have hwell := PrefixTables.WellFormed.readLines ⟨IsMaskTable.nil, IsMaskTable.nil⟩ htables
  have hne : ∀ e : Bytes × ℕ, toBytes 4 e.2 ≠ [] := by
    intro e hnil
    have hlength := length_toBytes 4 e.2
    rw [hnil] at hlength
    cases hlength
  obtain ⟨loadedInitial, hloadInitial, hrepresentsInitial⟩ := represents_of_save
    hwell.initial.enlarged.nodup (fun e _ => hne e) hinitial (middle ++ rest)
  obtain ⟨loadedMiddle, hloadMiddle, hrepresentsMiddle⟩ := represents_of_save
    hwell.middle.enlarged.nodup (fun e _ => hne e) hmiddle rest
  have hfindInitial := hwell.initial.enlarged.maskAt_eq hrepresentsInitial
  have hfindMiddle := hwell.middle.enlarged.maskAt_eq hrepresentsMiddle
  refine ⟨tables, ⟨tables.filters.map TagFilter.ofString, loadedInitial, loadedMiddle⟩, htables,
    hwell, ?_, rfl, hfindInitial, hfindMiddle, hfindInitial ▸ hwell.initial.prefixClosed,
    hfindMiddle ▸ hwell.middle.prefixClosed⟩
  simp only [MorphoPrefixGuesser.load, List.append_assoc, next1B, @next_append 1 _ hsize,
    loadTags_append hcells, hloadInitial, hloadMiddle, Option.bind_eq_bind, Option.bind_some]
  rfl

end UDPipe.Morphodita
