import UDPipe.Morphodita.DerivatorEntries

/-!
# The links of the derivation dictionary

The third pass sets the parent of a lemma and adds the lemma to the children of its parent. After
the pass over some lemmas, every entry has the parents and children from these lemmas. The whole
pass gives the dictionary from which parents and children are read.
-/

namespace UDPipe.Morphodita

namespace DerivatorDictionary

variable {keys : List Bytes} {place : Bytes → ℕ} {body : Bytes → DerivatorEntry}

/-! ### One link -/

/-- An offset with a length. -/
def address (place : Bytes → ℕ) (key : Bytes) : ℕ := place key * 2 ^ 8 + key.length

/-- The offset and the length fit. -/
def Addressable (place : Bytes → ℕ) (key : Bytes) : Prop := key.length < 2 ^ 8 ∧ place key < 2 ^ 24

/-- An address fits in its field. -/
theorem Addressable.lt {key : Bytes} (h : Addressable place key) :
    address place key < 256 ^ 4 := by
  obtain ⟨hlength, hplace⟩ := h
  rw [address]
  omega

/-- The lemma behind an offset, with its comment. -/
theorem Placed.derivatedLemma (h : Placed keys place body) (hkeys : keys.Nodup) {key : Bytes}
    (hkey : key ∈ keys) (haddress : Addressable place key) (dictionary : Option (Bytes → ℕ)) :
    DerivatorDictionary.derivatedLemma ⟨dictionary, mapOf keys body⟩ (address place key) =
      key ++ (body key).comment := by
  obtain ⟨rest, hdata⟩ := h.dataStart hkeys hkey
  have hlt := haddress.1
  have hlen : address place key % 2 ^ 8 = key.length := by
    rw [address]
    omega
  have hoffset : address place key / 2 ^ 8 = place key := by
    rw [address]
    omega
  rw [DerivatorDictionary.derivatedLemma]
  simp only [hlen, hoffset, hdata, ← List.drop_drop, List.take_left, List.drop_left,
    DerivatorEntry.load_comment (h.fits key hkey), DerivatorEntry.take_comment]

/-- The entries with the parent of a record. -/
def withParent (place : Bytes → ℕ) (body : Bytes → DerivatorEntry) (r : DerivatorRecord) :
    Bytes → DerivatorEntry :=
  Function.update body r.lemmaId { body r.lemmaId with parent := address place r.parent }

/-- The entries with the lemma of a record among the children of its parent. -/
def withChild (place : Bytes → ℕ) (body : Bytes → DerivatorEntry) (r : DerivatorRecord) :
    Bytes → DerivatorEntry :=
  Function.update body r.parent { body r.parent with
    children := CountedSlots.push (body r.parent).children (address place r.lemmaId) }

/-- Setting a parent keeps the entries in their places. -/
theorem Placed.withParent (h : Placed keys place body) {r : DerivatorRecord}
    (hlem : r.lemmaId ∈ keys) (haddress : Addressable place r.parent) :
    Placed keys place (withParent place body r) := by
  obtain ⟨hcomment, -, hlength, hchildren⟩ := h.fits r.lemmaId hlem
  refine Placed.update h ⟨hcomment, haddress.lt, hlength, hchildren⟩ ?_
  rw [DerivatorEntry.length_bytes, DerivatorEntry.length_bytes]

/-- Setting a parent keeps the comments. -/
theorem withParent_comment (place : Bytes → ℕ) (body : Bytes → DerivatorEntry)
    (r : DerivatorRecord) (key : Bytes) :
    (withParent place body r key).comment = (body key).comment := by
  rw [withParent, Function.update_apply]
  split
  · next heq => rw [heq]
  · rfl

/-- Setting a parent keeps the children. -/
theorem withParent_children (place : Bytes → ℕ) (body : Bytes → DerivatorEntry)
    (r : DerivatorRecord) (key : Bytes) :
    (withParent place body r key).children = (body key).children := by
  rw [withParent, Function.update_apply]
  split
  · next heq => rw [heq]
  · rfl

/-- Setting a child keeps the entries in their places. -/
theorem Placed.setChild (h : Placed keys place body) {key : Bytes} (hkey : key ∈ keys) {child : ℕ}
    (hchild : child < 256 ^ 4) (i : ℕ) :
    Placed keys place (Function.update body key
      { body key with children := (body key).children.set i child }) := by
  obtain ⟨hcomment, hparent, hlength, hchildren⟩ := h.fits key hkey
  refine Placed.update h ⟨hcomment, hparent, ?_, ?_⟩ ?_
  · rwa [List.length_set]
  · intro c hc
    rcases List.mem_or_eq_of_mem_set hc with hc | rfl
    · exact hchildren c hc
    · exact hchild
  · rw [DerivatorEntry.length_bytes, DerivatorEntry.length_bytes, List.length_set]

/-- A child is added if a slot is left. -/
theorem Placed.addChild (h : Placed keys place body) (hkeys : keys.Nodup) {key : Bytes}
    (hkey : key ∈ keys) {child : ℕ} (hchild : child < 256 ^ 4)
    (hslot : (body key).children.getD ((body key).children.length - 1) 0 <
      (body key).children.length) :
    DerivatorDictionary.addChild (mapOf keys body) key.length (place key + key.length) child =
      some (mapOf keys (Function.update body key { body key with
        children := CountedSlots.push (body key).children child })) := by
  obtain ⟨len, hlen⟩ : ∃ len, len = (body key).children.length := ⟨_, rfl⟩
  obtain ⟨count, hcount⟩ : ∃ count, count = (body key).children.getD (len - 1) 0 := ⟨_, rfl⟩
  rw [← hlen, ← hcount] at hslot
  have hload := h.loadAt_child hkeys hkey (show len - 1 < _ by omega)
  have hstore := h.storeAt_child hkeys hkey (show count < _ by omega) child
  obtain ⟨b, hb⟩ : ∃ b, b = { body key with children := (body key).children.set count child } :=
    ⟨_, rfl⟩
  have hset : b.children.length = len := by rw [hb, List.length_set, hlen]
  have hpush : CountedSlots.push (body key).children child =
      if count + 1 < len then b.children.set (len - 1) (b.children.getD (len - 1) 0 + 1)
      else b.children := by
    rw [hb, CountedSlots.push]
    simp only [List.length_set, ← hlen, ← hcount]
  have h' := h.setChild hkey hchild count
  rw [← hb] at hstore h'
  have hlast : len - 1 < (Function.update body key b key).children.length := by
    rw [Function.update_self]
    omega
  have hload' := h'.loadAt_child hkeys hkey hlast
  have hstore' := h'.storeAt_child hkeys hkey hlast (b.children.getD (len - 1) 0 + 1)
  have hcomment : b.comment = (body key).comment := by rw [hb]
  rw [Function.update_self, hcomment] at hload' hstore'
  rw [DerivatorDictionary.addChild]
  simp only [h.loadAt_comment hkeys hkey, h.loadAt_length hkeys hkey, ← hlen, hload, ← hcount,
    hstore, hload', hstore', hpush, Function.update_idem]
  rw [if_neg (by omega)]
  split_ifs
  · rw [hb]
  · rw [hb]

/-- The third pass links a lemma with its parent if a slot is left. -/
theorem Placed.linkRecord (h : Placed keys place body) (hkeys : keys.Nodup) {r : DerivatorRecord}
    (hlem : r.lemmaId ∈ keys) (hparent : r.parent ∈ keys) (hne : r.parent ≠ [])
    (hlemAddress : Addressable place r.lemmaId) (hparentAddress : Addressable place r.parent)
    (hslot : (body r.parent).children.getD ((body r.parent).children.length - 1) 0 <
      (body r.parent).children.length) :
    DerivatorDictionary.linkRecord (mapOf keys body) r =
      some (mapOf keys (withChild place (DerivatorDictionary.withParent place body r) r)) := by
  have h' := h.withParent hlem hparentAddress
  rw [← withParent_children place body r] at hslot
  have hadd := h'.addChild hkeys hparent hlemAddress.lt hslot
  have hstore := h.storeAt_parent hkeys hlem (address place r.parent)
  rw [DerivatorDictionary.linkRecord, if_neg hne]
  simp only [h.position hkeys hlem, h.position hkeys hparent, Option.bind_eq_bind, Option.bind_some,
    Nat.add_sub_cancel, h.loadAt_comment hkeys hlem]
  rw [Addressable] at hlemAddress hparentAddress
  rw [address] at hstore
  rw [if_neg (not_not_intro hparentAddress), if_neg (not_not_intro hlemAddress), hstore]
  exact hadd

/-! What a link changes. -/

/-- The lemma of the record gets the parent. -/
theorem withParent_parent (place : Bytes → ℕ) (body : Bytes → DerivatorEntry)
    (r : DerivatorRecord) (key : Bytes) : (withParent place body r key).parent =
      if key = r.lemmaId then address place r.parent else (body key).parent := by
  rw [withParent, Function.update_apply]
  split <;> rfl

/-- Adding a child keeps the comments. -/
theorem withChild_comment (place : Bytes → ℕ) (body : Bytes → DerivatorEntry)
    (r : DerivatorRecord) (key : Bytes) :
    (withChild place body r key).comment = (body key).comment := by
  rw [withChild, Function.update_apply]
  split
  · next heq => rw [heq]
  · rfl

/-- Adding a child keeps the parents. -/
theorem withChild_parent (place : Bytes → ℕ) (body : Bytes → DerivatorEntry)
    (r : DerivatorRecord) (key : Bytes) :
    (withChild place body r key).parent = (body key).parent := by
  rw [withChild, Function.update_apply]
  split
  · next heq => rw [heq]
  · rfl

/-- The parent of the record gets the child. -/
theorem withChild_children (place : Bytes → ℕ) (body : Bytes → DerivatorEntry)
    (r : DerivatorRecord) (key : Bytes) : (withChild place body r key).children =
      if key = r.parent then CountedSlots.push (body key).children (address place r.lemmaId)
      else (body key).children := by
  rw [withChild, Function.update_apply]
  split
  · next heq => rw [heq]
  · rfl

end DerivatorDictionary

/-! ### All links -/

namespace Derinet

open DerivatorDictionary
open PersistentUnorderedMap (recordOffset recordOffset_le totalSize ofLength totalSize_ofLength_le)

/-- The lemmas of the map. -/
def keys (d : Derinet) : List Bytes := d.lemmas.map LemmaInfo.lemmaId

/-- The comment of a lemma. -/
def commentOf (d : Derinet) (lem : Bytes) : Bytes :=
  ((d.lemmas.find? fun e => e.lemmaId = lem).map LemmaInfo.comment).getD []

/-- The entry of a lemma when some lemmas have been linked. -/
def entryAfter (d : Derinet) (place : Bytes → ℕ) (done : List LemmaInfo) (lem : Bytes) :
    DerivatorEntry where
  comment := d.commentOf lem
  parent := ((done.find? fun e => e.lemmaId = lem ∧ e.parent ≠ []).map fun e =>
    address place e.parent).getD 0
  children := CountedSlots.filled (d.children lem)
    ((done.filter fun e => e.parent = lem).map fun e => address place e.lemmaId)

/-- Where the record of a lemma begins in the data of its table. -/
def offset (d : Derinet) : Bytes → ℕ :=
  recordOffset (elemsOf d.keys) (entries d.keys (d.entryAfter (fun _ => 0) []))

/-- The sizes fit into their fields and those of the tables into `int`, and the offsets that are
stored fit into 24 bits. -/
structure Fits (d : Derinet) : Prop extends d.Sized where
  tables : ∀ len, totalSize (ofLength (entries d.keys (d.entryAfter (fun _ => 0) [])) len) < 2 ^ 31
  offsets : ∀ e ∈ d.lemmas, e.parent ≠ [] →
    d.offset e.lemmaId < 2 ^ 24 ∧ d.offset e.parent < 2 ^ 24

/-- In a small dictionary all offsets fit. -/
theorem Fits.of_totalSize {d : Derinet} (h : d.Sized) (hsize : totalSize
    (entries d.keys (d.entryAfter (fun _ => 0) [])) < 2 ^ 24) : d.Fits where
  toSized := h
  tables len := (totalSize_ofLength_le _ len).trans_lt (hsize.trans (by decide))
  offsets e he hne := by
    have hoffset {lem : Bytes} (hlem : lem ∈ d.keys) : d.offset lem < 2 ^ 24 :=
      (recordOffset_le _ (entries_nodup d.nodup _) (mem_entries hlem)).trans_lt hsize
    exact ⟨hoffset (List.mem_map_of_mem he), hoffset (d.parents e he hne)⟩

variable {d : Derinet} {done rest : List LemmaInfo} {e : LemmaInfo}

/-- The comment of a lemma is the one of its entry. -/
theorem commentOf_eq (he : e ∈ d.lemmas) : d.commentOf e.lemmaId = e.comment := by
  rw [commentOf, find?_lemma he]
  rfl

/-- There are no more children than counted. -/
theorem length_le_children (h : done.Sublist d.lemmas) (place : Bytes → ℕ) (lem : Bytes) :
    ((done.filter fun e => e.parent = lem).map fun e => address place e.lemmaId).length ≤
      d.children lem := by
  rw [List.length_map, ← List.countP_eq_length_filter]
  exact h.countP_le

/-- The size of an entry stays the same while it is filled. -/
theorem length_entryAfter (h : done.Sublist d.lemmas) (place : Bytes → ℕ) (lem : Bytes) :
    (d.entryAfter place done lem).bytes.length =
      1 + (d.commentOf lem).length + 4 + 2 + 4 * d.children lem := by
  rw [DerivatorEntry.length_bytes, entryAfter,
    CountedSlots.length_filled (length_le_children h place lem)]

/-- As long as a child is missing, there is a slot for it. -/
theorem length_lt_children (h : d.lemmas = done ++ e :: rest) (place : Bytes → ℕ) :
    ((done.filter fun f => f.parent = e.parent).map fun f => address place f.lemmaId).length <
      d.children e.parent := by
  rw [List.length_map, ← List.countP_eq_length_filter, children, h, List.countP_append,
    List.countP_cons_of_pos (by simp)]
  omega

/-- The lemmas of a record with a parent have addresses. -/
theorem addressable (hfits : d.Fits) (he : e ∈ d.lemmas) (hne : e.parent ≠ []) :
    Addressable d.offset e.lemmaId ∧ Addressable d.offset e.parent := by
  obtain ⟨hoffset, hparent⟩ := hfits.offsets e he hne
  have hlength := @forall_parent d (·.length ≤ 254) (Nat.zero_le _) hfits.lemmas e he
  have hlem := hfits.lemmas e he
  exact ⟨⟨by omega, hoffset⟩, ⟨by omega, hparent⟩⟩

/-- Links do not move the records. -/
theorem placed_entryAfter (hfits : d.Fits) (h : done.Sublist d.lemmas) :
    Placed d.keys d.offset (d.entryAfter d.offset done) where
  fits key hkey := by
    obtain ⟨e, he, rfl⟩ := List.mem_map.mp hkey
    have hchildren : d.children e.lemmaId < 256 ^ 2 := hfits.children e he
    constructor
    · rw [entryAfter, commentOf_eq he]
      exact Nat.lt_succ_of_le (hfits.comments e he)
    · rw [entryAfter]
      cases hfind : done.find? fun f => f.lemmaId = e.lemmaId ∧ f.parent ≠ [] with
      | none => exact Nat.pow_pos (by decide)
      | some f =>
        have hf := List.find?_some hfind
        rw [decide_eq_true_eq] at hf
        have hmem := h.subset (List.mem_of_find?_eq_some hfind)
        exact (addressable hfits hmem hf.2).2.lt
    · rw [entryAfter, CountedSlots.length_filled (length_le_children h d.offset e.lemmaId)]
      exact hchildren
    · apply CountedSlots.lt_of_mem_filled
      · intro child hchild
        obtain ⟨f, hf, rfl⟩ := List.mem_map.mp hchild
        obtain ⟨hmem, hparent⟩ := List.mem_filter.mp hf
        rw [decide_eq_true_eq] at hparent
        exact (addressable hfits (h.subset hmem) (hparent ▸ d.nonempty e he)).1.lt
      · exact hchildren.trans (by decide)
  placed key _ := by
    rw [offset]
    apply recordOffset_congr
    intro key _
    rw [length_entryAfter h, length_entryAfter (List.nil_sublist _)]

/-- A lemma without a parent changes no entry. -/
theorem entryAfter_root (hempty : e.parent = []) {lem : Bytes} (hlem : lem ≠ [])
    (place : Bytes → ℕ) : d.entryAfter place (done ++ [e]) lem = d.entryAfter place done lem := by
  have hne : e.parent ≠ lem := hempty ▸ hlem.symm
  have hfind : [e].find? (fun f => f.lemmaId = lem ∧ f.parent ≠ []) = none := by simp [hempty]
  have hfilter : [e].filter (fun f => f.parent = lem) = [] := by simp [hne]
  rw [entryAfter, entryAfter, List.find?_append, List.filter_append, hfind, hfilter,
    Option.or_none, List.append_nil]

/-- A lemma with a parent changes its entry and the entry of its parent. -/
theorem entryAfter_link (h : d.lemmas = done ++ e :: rest) (hne : e.parent ≠ [])
    (place : Bytes → ℕ) (lem : Bytes) : d.entryAfter place (done ++ [e]) lem =
      withChild place (withParent place (d.entryAfter place done) (d.recordOf e)) (d.recordOf e)
        lem := by
  have hdone : ∀ f ∈ done, f.lemmaId ≠ e.lemmaId := by
    have hnodup := d.nodup
    rw [h, List.map_append, List.map_cons, List.nodup_append] at hnodup
    exact fun f hf => hnodup.2.2 f.lemmaId (List.mem_map_of_mem hf) e.lemmaId List.mem_cons_self
  apply DerivatorEntry.ext
  · rw [withChild_comment, withParent_comment]
    rfl
  · rw [withChild_parent, withParent_parent, recordOf]
    split
    · next heq =>
      have hfind : done.find? (fun f => f.lemmaId = lem ∧ f.parent ≠ []) = none := by
        rw [List.find?_eq_none]
        intro f hf
        simp [heq, hdone f hf]
      rw [entryAfter, List.find?_append, hfind]
      simp [heq, hne]
    · next hlem =>
      have hfind : [e].find? (fun f => f.lemmaId = lem ∧ f.parent ≠ []) = none := by
        simp [Ne.symm hlem]
      rw [entryAfter, entryAfter, List.find?_append, hfind, Option.or_none]
  · rw [withChild_children, withParent_children, recordOf]
    split
    · next heq =>
      have hlt := length_lt_children h place
      have hfilter : [e].filter (fun f => f.parent = lem) = [e] := by simp [heq]
      rw [entryAfter, entryAfter, List.filter_append, hfilter, List.map_append, heq,
        CountedSlots.push_filled hlt]
      rfl
    · next hlem =>
      have hfilter : [e].filter (fun f => f.parent = lem) = [] := by simp [Ne.symm hlem]
      rw [entryAfter, entryAfter, List.filter_append, hfilter, List.append_nil]

/-- The third pass links one more lemma. -/
theorem linkRecord_entryAfter (hfits : d.Fits) (h : d.lemmas = done ++ e :: rest) :
    linkRecord (mapOf d.keys (d.entryAfter d.offset done)) (d.recordOf e) =
      some (mapOf d.keys (d.entryAfter d.offset (done ++ [e]))) := by
  have he : e ∈ d.lemmas := h ▸ List.mem_append_right _ List.mem_cons_self
  have hsublist : done.Sublist d.lemmas := h ▸ List.sublist_append_left done _
  by_cases hempty : e.parent = []
  · rw [linkRecord, recordOf, if_pos hempty, mapOf, mapOf]
    congr 2
    apply entries_congr
    intro key hkey
    obtain ⟨f, hf, rfl⟩ := List.mem_map.mp hkey
    rw [entryAfter_root hempty (d.nonempty f hf)]
  · have hplaced := placed_entryAfter hfits hsublist
    obtain ⟨hlem, hparent⟩ := addressable hfits he hempty
    have hslots : (d.entryAfter d.offset done e.parent).children.length = d.children e.parent :=
      CountedSlots.length_filled (length_le_children hsublist d.offset e.parent)
    have hlt := length_lt_children h d.offset
    have hlink := hplaced.linkRecord d.nodup (r := d.recordOf e) (List.mem_map_of_mem he)
      (d.parents e he hempty) hempty hlem hparent (by
        rw [recordOf, hslots, entryAfter, CountedSlots.getD_filled hlt]
        exact hlt)
    rw [hlink, mapOf, mapOf]
    congr 2
    exact entries_congr fun key _ => (entryAfter_link h hempty d.offset key).symm

/-- The third pass over the remaining lemmas. -/
theorem foldlM_linkRecord (hfits : d.Fits) (h : d.lemmas = done ++ rest) :
    (rest.map d.recordOf).foldlM linkRecord (mapOf d.keys (d.entryAfter d.offset done)) =
      some (mapOf d.keys (d.entryAfter d.offset d.lemmas)) := by
  induction rest generalizing done with
  | nil =>
    rw [h, List.append_nil]
    rfl
  | cons e rest ih =>
    rw [List.map_cons, List.foldlM_cons, linkRecord_entryAfter hfits h]
    apply ih
    rw [h, List.append_assoc]
    rfl

end Derinet

end UDPipe.Morphodita
