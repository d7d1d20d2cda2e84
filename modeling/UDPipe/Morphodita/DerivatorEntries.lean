import UDPipe.Library.CountedSlots
import UDPipe.Morphodita.DerivatorEncoding

/-!
# The entries of the derivation dictionary

An entry is a comment, a packed parent and slots for packed children. What the dictionary loads
from its entries and stores into them is said here in terms of these parts.
-/

namespace UDPipe.Morphodita

/-- The parts of an entry. -/
@[ext]
structure DerivatorEntry where
  comment : Bytes
  parent : ℕ
  children : List ℕ
  deriving DecidableEq, Repr

namespace DerivatorEntry

/-- The bytes of an entry: the comment, the parent and the children. -/
def bytes (b : DerivatorEntry) : Bytes :=
  toBytes 1 b.comment.length ++ (b.comment ++
    (toBytes 4 b.parent ++ (toBytes 2 b.children.length ++ addWords 4 b.children)))

/-- The parts fit into their fields. -/
structure Fits (b : DerivatorEntry) : Prop where
  comment : b.comment.length < 256 ^ 1
  parent : b.parent < 256 ^ 4
  length : b.children.length < 256 ^ 2
  children : ∀ child ∈ b.children, child < 256 ^ 4

/-- The size of an entry. -/
theorem length_bytes (b : DerivatorEntry) :
    b.bytes.length = 1 + b.comment.length + 4 + 2 + 4 * b.children.length := by
  simp only [bytes, List.length_append, length_toBytes, length_addWords]
  omega

/-- An entry has bytes. -/
theorem bytes_ne_nil (b : DerivatorEntry) : b.bytes ≠ [] := by
  apply List.ne_nil_of_length_pos
  rw [length_bytes]
  omega

/-! ### Loads -/

variable {b : DerivatorEntry}

/-- The parent is behind the comment. -/
theorem drop_comment (b : DerivatorEntry) (rest : Bytes) :
    (b.bytes ++ rest).drop (1 + b.comment.length) =
      toBytes 4 b.parent ++ (toBytes 2 b.children.length ++ (addWords 4 b.children ++ rest)) := by
  simp only [bytes, List.append_assoc]
  rw [← List.drop_drop, List.drop_left' (length_toBytes 1 _), List.drop_left]

/-- The number of children is behind the parent. -/
theorem drop_parent (b : DerivatorEntry) (rest : Bytes) :
    (b.bytes ++ rest).drop (1 + b.comment.length + 4) =
      toBytes 2 b.children.length ++ (addWords 4 b.children ++ rest) := by
  rw [← List.drop_drop, drop_comment, List.drop_left' (length_toBytes 4 _)]

/-- The children are behind their number. -/
theorem drop_length (b : DerivatorEntry) (rest : Bytes) :
    (b.bytes ++ rest).drop (1 + b.comment.length + 4 + 2) = addWords 4 b.children ++ rest := by
  rw [← List.drop_drop, drop_parent, List.drop_left' (length_toBytes 2 _)]

/-- The length of the comment is loaded. -/
theorem load_comment (h : b.Fits) (rest : Bytes) :
    unalignedLoad 1 (b.bytes ++ rest) = b.comment.length := by
  simp only [bytes, List.append_assoc]
  exact unalignedLoad_append h.comment _

/-- The comment is read. -/
theorem take_comment (b : DerivatorEntry) (rest : Bytes) :
    ((b.bytes ++ rest).drop 1).take b.comment.length = b.comment := by
  simp only [bytes, List.append_assoc]
  rw [List.drop_left' (length_toBytes 1 _), List.take_left]

/-- The parent is loaded. -/
theorem load_parent (h : b.Fits) (rest : Bytes) :
    unalignedLoad 4 ((b.bytes ++ rest).drop (1 + b.comment.length)) = b.parent := by
  rw [drop_comment]
  exact unalignedLoad_append h.parent _

/-- The number of children is loaded. -/
theorem load_length (h : b.Fits) (rest : Bytes) :
    unalignedLoad 2 ((b.bytes ++ rest).drop (1 + b.comment.length + 4)) = b.children.length := by
  rw [drop_parent]
  exact unalignedLoad_append h.length _

/-- The children are read. -/
theorem words_children (h : b.Fits) (rest : Bytes) :
    words 4 b.children.length ((b.bytes ++ rest).drop (1 + b.comment.length + 4 + 2)) =
      b.children := by
  rw [drop_length]
  exact words_addWords h.children rest

/-- A child is loaded. -/
theorem load_child (h : b.Fits) (rest : Bytes) {i : ℕ} (hi : i < b.children.length) :
    unalignedLoad 4 ((b.bytes ++ rest).drop (1 + b.comment.length + 4 + 2 + 4 * i)) =
      b.children.getD i 0 := by
  have hget := words_getElem 4 ((b.bytes ++ rest).drop (1 + b.comment.length + 4 + 2)) hi
  rw [words_children h, List.drop_drop] at hget
  rw [List.getD_eq_getElem?_getD, hget, Option.getD_some]

/-- The size of an entry is read from it. -/
theorem entrySize_bytes (h : b.Fits) (rest : Bytes) :
    DerivatorDictionary.entrySize (b.bytes ++ rest) = b.bytes.length := by
  rw [DerivatorDictionary.entrySize]
  simp only [load_comment h, load_length h, length_bytes]

/-! ### Stores -/

/-- Writing the parent changes the parent of the entry. -/
theorem write_parent (b : DerivatorEntry) (parent : ℕ) :
    Buckets.write b.bytes (1 + b.comment.length) (toBytes 4 parent) =
      { b with parent := parent }.bytes := by
  have hwrite := Buckets.write_append (toBytes 1 b.comment.length ++ b.comment)
    (toBytes 4 b.parent) (toBytes 2 b.children.length ++ addWords 4 b.children)
    (toBytes 4 parent) (by simp)
  rw [List.length_append, length_toBytes] at hwrite
  simpa only [bytes, List.append_assoc] using hwrite

/-- Writing a child changes the child of the entry. -/
theorem write_child (b : DerivatorEntry) {i : ℕ} (hi : i < b.children.length) (child : ℕ) :
    Buckets.write b.bytes (1 + b.comment.length + 4 + 2 + 4 * i) (toBytes 4 child) =
      { b with children := b.children.set i child }.bytes := by
  obtain ⟨before, old, after, hchildren, rfl⟩ : ∃ before old after,
      b.children = before ++ old :: after ∧ before.length = i :=
    ⟨b.children.take i, b.children[i], b.children.drop (i + 1), by simp,
      List.length_take_of_le hi.le⟩
  have hwords (c : ℕ) : addWords 4 (before ++ c :: after) =
      addWords 4 before ++ (toBytes 4 c ++ addWords 4 after) := by
    simp only [addWords, List.flatMap_append, List.flatMap_cons]
  have hset : b.children.set before.length child = before ++ child :: after := by
    rw [hchildren, List.set_append_right _ _ (Nat.le_refl _), Nat.sub_self]
    rfl
  have hlength : b.children.length = (before ++ child :: after).length := by
    rw [hchildren, List.length_append, List.length_append]
    rfl
  have hwrite := Buckets.write_append (toBytes 1 b.comment.length ++ (b.comment ++
    (toBytes 4 b.parent ++ (toBytes 2 (before ++ child :: after).length ++ addWords 4 before))))
    (toBytes 4 old) (addWords 4 after) (toBytes 4 child) (by simp)
  have hpos : (toBytes 1 b.comment.length ++ (b.comment ++ (toBytes 4 b.parent ++
      (toBytes 2 (before ++ child :: after).length ++ addWords 4 before)))).length =
        1 + b.comment.length + 4 + 2 + 4 * before.length := by
    simp only [List.length_append, length_toBytes, length_addWords]
    omega
  rw [hpos] at hwrite
  rw [bytes, bytes, hset, hlength, hchildren, hwords, hwords]
  simpa only [List.append_assoc] using hwrite

end DerivatorEntry

namespace DerivatorDictionary

open PersistentUnorderedMap

/-! ### A dictionary of entries -/

/-- The keys with their entries. -/
def entries (keys : List Bytes) (body : Bytes → DerivatorEntry) : List (Bytes × Bytes) :=
  keys.map fun key => (key, (body key).bytes)

/-- The number of keys of a length. -/
def elemsOf (keys : List Bytes) (len : ℕ) : ℕ := (countSizes keys).getD len 0

/-- The dictionary with some entries. -/
def mapOf (keys : List Bytes) (body : Bytes → DerivatorEntry) : PersistentUnorderedMap :=
  built (countSizes keys).length (elemsOf keys) (entries keys body)

/-- The entries fit, and their records have some places. -/
structure Placed (keys : List Bytes) (place : Bytes → ℕ) (body : Bytes → DerivatorEntry) :
    Prop where
  fits : ∀ key ∈ keys, (body key).Fits
  placed : ∀ key ∈ keys, recordOffset (elemsOf keys) (entries keys body) key = place key

variable {keys : List Bytes} {place : Bytes → ℕ} {body body' : Bytes → DerivatorEntry} {key : Bytes}

/-- The keys of the entries. -/
theorem map_fst_entries (keys : List Bytes) (body : Bytes → DerivatorEntry) :
    (entries keys body).map Prod.fst = keys := by
  rw [entries, List.map_map]
  exact List.map_id keys

/-- A key has its entry. -/
theorem mem_entries (hkey : key ∈ keys) : (key, (body key).bytes) ∈ entries keys body :=
  List.mem_map_of_mem hkey

/-- Entries are the same if their bodies are. -/
theorem entries_congr (h : ∀ key ∈ keys, body key = body' key) :
    entries keys body = entries keys body' :=
  List.map_congr_left fun key hkey => by rw [h key hkey]

/-- There is a table for the length of a key. -/
theorem length_lt_tables (hkey : key ∈ keys) : key.length < (countSizes keys).length :=
  (countSizes_spec keys).2.1 key hkey

/-- The lengths of the entries determine the places. -/
theorem recordOffset_congr
    (h : ∀ key ∈ keys, (body key).bytes.length = (body' key).bytes.length) (key : Bytes) :
    recordOffset (elemsOf keys) (entries keys body) key =
      recordOffset (elemsOf keys) (entries keys body') key := by
  obtain ⟨g, hg⟩ : ∃ g : Bytes × Bytes → Bytes × Bytes, g = fun e => (e.1, (body e.1).bytes) :=
    ⟨_, rfl⟩
  have hgkey (e : Bytes × Bytes) : (g e).1 = e.1 := by rw [hg]
  have hentries : entries keys body = (entries keys body').map g := by
    rw [hg, entries, entries, List.map_map]
    rfl
  have hordered : ordered (elemsOf keys) (entries keys body) key.length =
      (ordered (elemsOf keys) (entries keys body') key.length).map g := by
    rw [ordered, ordered, hentries, ofLength_map hgkey]
    exact FnvHash.order_map fun e _ => hgkey e
  have hoffset := @Layout.offset_map_congr _ _ _
    (ordered (elemsOf keys) (entries keys body') key.length) g id (fun e _ => hgkey e) ?_ key
  · rw [List.map_id] at hoffset
    rw [recordOffset, recordOffset, hordered, hoffset]
  · intro e he
    have hmem := (mem_ofLength.mp ((ordered_perm _ _ _).mem_iff.mp he)).1
    obtain ⟨key, hkey, rfl⟩ := List.mem_map.mp hmem
    rw [hg]
    exact h key hkey

/-- An entry is replaced by another one of its length. -/
theorem Placed.update (h : Placed keys place body) {b : DerivatorEntry} (hb : b.Fits)
    (hlength : b.bytes.length = (body key).bytes.length) :
    Placed keys place (Function.update body key b) where
  fits key' hkey' := by
    rw [Function.update_apply]
    split
    · exact hb
    · exact h.fits key' hkey'
  placed key' hkey' := by
    rw [← h.placed key' hkey']
    apply recordOffset_congr
    intro key'' _
    rw [Function.update_apply]
    split
    · next heq => rw [heq, hlength]
    · rfl

/-- The sizes of the entries are read from them. -/
theorem Placed.measures (h : Placed keys place body) :
    FnvHash.Measures entrySize (entries keys body) := by
  intro e he more
  obtain ⟨key, hkey, rfl⟩ := List.mem_map.mp he
  exact DerivatorEntry.entrySize_bytes (h.fits key hkey) more

/-- Entries are not empty. -/
theorem entries_ne_nil (keys : List Bytes) (body : Bytes → DerivatorEntry) :
    ∀ e ∈ entries keys body, e.2 ≠ [] := by
  intro e he
  obtain ⟨key, -, rfl⟩ := List.mem_map.mp he
  exact (body key).bytes_ne_nil

/-- The entries have different keys. -/
theorem entries_nodup (hkeys : keys.Nodup) (body : Bytes → DerivatorEntry) :
    ((entries keys body).map Prod.fst).Nodup := by
  rwa [map_fst_entries]

/-- The position of an entry is the place of its key. -/
theorem Placed.position (h : Placed keys place body) (hkeys : keys.Nodup) (hkey : key ∈ keys) :
    (mapOf keys body).position key entrySize = some (place key + key.length) := by
  rw [← h.placed key hkey]
  exact position_built _ (entries_nodup hkeys body) (entries_ne_nil keys body) h.measures
    (mem_entries hkey) (length_lt_tables hkey)

/-- The entry of a key is found. -/
theorem Placed.entryAt (h : Placed keys place body) (hkeys : keys.Nodup) (hkey : key ∈ keys) :
    ∃ rest, (mapOf keys body).entryAt key entrySize = some ((body key).bytes ++ rest) :=
  entryAt_mem (entries_nodup hkeys body) (entries_ne_nil keys body) h.measures (mem_entries hkey)
    (length_lt_tables hkey)

/-- No entry of another key is found. -/
theorem Placed.entryAt_eq_none (h : Placed keys place body) (hkey : key ∉ keys) :
    (mapOf keys body).entryAt key entrySize = none := by
  apply entryAt_not_mem (entries_ne_nil keys body) h.measures
  rintro e he rfl
  apply hkey
  rw [← map_fst_entries keys body]
  exact List.mem_map_of_mem he

/-- At its place is the key, with its entry. -/
theorem Placed.dataStart (h : Placed keys place body) (hkeys : keys.Nodup) (hkey : key ∈ keys) :
    ∃ rest, ((mapOf keys body).dataStart key.length).drop (place key) =
      key ++ ((body key).bytes ++ rest) := by
  rw [← h.placed key hkey]
  exact drop_recordOffset _ (entries_nodup hkeys body) (mem_entries hkey) (length_lt_tables hkey)

/-- Loading at a place loads from the entry. -/
theorem Placed.loadAt (h : Placed keys place body) (hkeys : keys.Nodup) (hkey : key ∈ keys)
    (size pos : ℕ) : ∃ rest,
      (mapOf keys body).loadAt size key.length (place key + key.length + pos) =
        unalignedLoad size (((body key).bytes ++ rest).drop pos) := by
  rw [← h.placed key hkey]
  exact loadAt_built _ (entries_nodup hkeys body) (mem_entries hkey) (length_lt_tables hkey) size
    pos

/-! The fields of the entry of a key. -/

/-- The length of a comment is loaded from the map. -/
theorem Placed.loadAt_comment (h : Placed keys place body) (hkeys : keys.Nodup)
    (hkey : key ∈ keys) : (mapOf keys body).loadAt 1 key.length (place key + key.length) =
      (body key).comment.length := by
  obtain ⟨rest, hload⟩ := h.loadAt hkeys hkey 1 0
  rw [Nat.add_zero] at hload
  rw [hload]
  exact DerivatorEntry.load_comment (h.fits key hkey) rest

/-- A number of children is loaded from the map. -/
theorem Placed.loadAt_length (h : Placed keys place body) (hkeys : keys.Nodup)
    (hkey : key ∈ keys) : (mapOf keys body).loadAt 2 key.length
      (place key + key.length + 1 + (body key).comment.length + 4) =
        (body key).children.length := by
  obtain ⟨rest, hload⟩ := h.loadAt hkeys hkey 2 (1 + (body key).comment.length + 4)
  rw [DerivatorEntry.load_length (h.fits key hkey)] at hload
  rw [← hload]
  congr 1
  omega

/-- A child is loaded from the map. -/
theorem Placed.loadAt_child (h : Placed keys place body) (hkeys : keys.Nodup)
    (hkey : key ∈ keys) {i : ℕ} (hi : i < (body key).children.length) :
    (mapOf keys body).loadAt 4 key.length
      (place key + key.length + 1 + (body key).comment.length + 4 + 2 + 4 * i) =
        (body key).children.getD i 0 := by
  obtain ⟨rest, hload⟩ := h.loadAt hkeys hkey 4 (1 + (body key).comment.length + 4 + 2 + 4 * i)
  rw [DerivatorEntry.load_child (h.fits key hkey) rest hi] at hload
  rw [← hload]
  congr 1
  omega

/-- A store replaces the entry of a key. -/
theorem Placed.storeAt (h : Placed keys place body) (hkeys : keys.Nodup) (hkey : key ∈ keys)
    {pos : ℕ} {cells : Bytes} {b : DerivatorEntry} (hpos : pos + cells.length ≤
      (body key).bytes.length) (hwrite : Buckets.write (body key).bytes pos cells = b.bytes) :
    (mapOf keys body).storeAt key.length (place key + key.length + pos) cells =
      mapOf keys (Function.update body key b) := by
  rw [← h.placed key hkey, mapOf, storeAt_built _ (entries_nodup hkeys body) (mem_entries hkey) _
    hpos, mapOf, entries, entries, List.map_map]
  congr 1
  apply List.map_congr_left
  intro key' _
  rw [Function.comp_apply, Layout.overwrite]
  split
  · next heq =>
    obtain rfl : key' = key := heq
    rw [hwrite, Function.update_self]
  · next hne => rw [Function.update_of_ne hne]

/-- Storing a parent changes the entry of the lemma. -/
theorem Placed.storeAt_parent (h : Placed keys place body) (hkeys : keys.Nodup) (hkey : key ∈ keys)
    (parent : ℕ) : (mapOf keys body).storeAt key.length
      (place key + key.length + 1 + (body key).comment.length) (toBytes 4 parent) =
        mapOf keys (Function.update body key { body key with parent := parent }) := by
  rw [Nat.add_assoc (place key + key.length)]
  apply h.storeAt hkeys hkey _ (DerivatorEntry.write_parent (body key) parent)
  rw [length_toBytes, DerivatorEntry.length_bytes]
  omega

/-- Storing a child changes the entry of the parent. -/
theorem Placed.storeAt_child (h : Placed keys place body) (hkeys : keys.Nodup) (hkey : key ∈ keys)
    {i : ℕ} (hi : i < (body key).children.length) (child : ℕ) :
    (mapOf keys body).storeAt key.length
      (place key + key.length + 1 + (body key).comment.length + 4 + 2 + 4 * i) (toBytes 4 child) =
        mapOf keys (Function.update body key
          { body key with children := (body key).children.set i child }) := by
  have hpos : place key + key.length + 1 + (body key).comment.length + 4 + 2 + 4 * i =
      place key + key.length + (1 + (body key).comment.length + 4 + 2 + 4 * i) := by omega
  rw [hpos]
  apply h.storeAt hkeys hkey _ (DerivatorEntry.write_child (body key) hi child)
  rw [length_toBytes, DerivatorEntry.length_bytes]
  omega

end DerivatorDictionary

end UDPipe.Morphodita
