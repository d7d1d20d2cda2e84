import UDPipe.Sentence

/-!
# Comments of a sentence

The functions of `sentence/sentence.cpp` that read and change comments. A
comment matches a name if the name follows its `#` and blanks, whatever comes
after the name. Positions in a comment and the number of comments are kept in an
`unsigned`.
-/

namespace UDPipe.Sentence

/-- The characters skipped around the name and the value of a comment. -/
def isBlank (c : Byte) : Bool := c == space || c == tab

/-- Where the blanks from a position on end. Behind byte 2^32 - 1 the counter comes back
to the beginning of the comment, where its `#` is no blank. -/
def skipBlanks (comment : Bytes) (j : ℕ) : ℕ :=
  let stop := j + ((comment.drop j).takeWhile isBlank).length
  if stop < unsignedValues then stop else 0

/-- The position after the name of a comment that starts with this name. -/
def commentAfter (name comment : Bytes) : Option ℕ :=
  if comment.head? = some hash then
    let j := skipBlanks comment 1
    if name.isPrefixOf (comment.drop j) then some ((j + name.length) % unsignedValues) else none
  else none

/-- The value of a comment whose name ends at this position. -/
def commentValue (comment : Bytes) (j : ℕ) : Bytes :=
  let j := skipBlanks comment j
  if comment[j]? = some 61 then comment.drop (skipBlanks comment ((j + 1) % unsignedValues))
  else []

/-- `sentence::get_comment`: the value of the first comment with this name. -/
def getComment (s : Sentence) (name : Bytes) : Option Bytes :=
  s.comments.findSome? fun comment => (commentAfter name comment).map (commentValue comment)

/-- `sentence::remove_comment`, which looks at as many comments as its counter can say. -/
def removeComment (s : Sentence) (name : Bytes) : Sentence :=
  let count := s.comments.length % unsignedValues
  { s with
    comments := ((s.comments.take count).filter fun comment => (commentAfter name comment).isNone) ++
      s.comments.drop count }

/-- `sentence::set_comment`. -/
def setComment (s : Sentence) (name : Bytes) (value : Bytes := []) : Sentence :=
  let s := s.removeComment name
  let comment := bytes "# " ++ name
  let comment :=
    if value = [] then comment
    else comment ++ bytes " = " ++ value.map fun c => if isLineEnd c then space else c
  { s with comments := s.comments ++ [comment] }

/-- `sentence::get_new_doc` without its output argument. -/
def getNewDoc (s : Sentence) : Bool :=
  (s.getComment (bytes "newdoc id")).isSome || (s.getComment (bytes "newdoc")).isSome

/-- `sentence::set_new_doc`. -/
def setNewDoc (s : Sentence) (newDoc : Bool) (id : Bytes := []) : Sentence :=
  let s := (s.removeComment (bytes "newdoc")).removeComment (bytes "newdoc id")
  if newDoc && id != [] then s.setComment (bytes "newdoc id") id
  else if newDoc then s.setComment (bytes "newdoc")
  else s

/-- `sentence::get_new_par` without its output argument. -/
def getNewPar (s : Sentence) : Bool :=
  (s.getComment (bytes "newpar id")).isSome || (s.getComment (bytes "newpar")).isSome

/-- `sentence::set_new_par`. -/
def setNewPar (s : Sentence) (newPar : Bool) (id : Bytes := []) : Sentence :=
  let s := (s.removeComment (bytes "newpar")).removeComment (bytes "newpar id")
  if newPar && id != [] then s.setComment (bytes "newpar id") id
  else if newPar then s.setComment (bytes "newpar")
  else s

/-- `sentence::set_sent_id`. -/
def setSentId (s : Sentence) (id : Bytes) : Sentence :=
  let s := s.removeComment (bytes "sent_id")
  if id = [] then s else s.setComment (bytes "sent_id") id

/-- `sentence::set_text`. -/
def setText (s : Sentence) (text : Bytes) : Sentence :=
  let s := s.removeComment (bytes "text")
  if text = [] then s else s.setComment (bytes "text") text

/-! ### Comments change comments only -/

/-- Two sentences that differ in their comments at most. -/
def SameNodes (s s' : Sentence) : Prop :=
  s.words = s'.words ∧ s.multiwordTokens = s'.multiwordTokens ∧ s.emptyNodes = s'.emptyNodes

/-- The nodes stay the same over two steps. -/
theorem SameNodes.trans {s s' s'' : Sentence} (h : SameNodes s s') (h' : SameNodes s' s'') :
    SameNodes s s'' := ⟨h.1.trans h'.1, h.2.1.trans h'.2.1, h.2.2.trans h'.2.2⟩

/-- Sameness of the nodes is symmetric. -/
theorem SameNodes.symm {s s' : Sentence} (h : SameNodes s s') : SameNodes s' s :=
  ⟨h.1.symm, h.2.1.symm, h.2.2.symm⟩

/-- Removing comments keeps the nodes. -/
theorem sameNodes_removeComment (s : Sentence) (name : Bytes) :
    SameNodes (s.removeComment name) s := ⟨rfl, rfl, rfl⟩

/-- Writing a comment keeps the nodes. -/
theorem sameNodes_setComment (s : Sentence) (name value : Bytes) :
    SameNodes (s.setComment name value) s :=
  have hadded : SameNodes (s.setComment name value) (s.removeComment name) := ⟨rfl, rfl, rfl⟩
  hadded.trans (s.sameNodes_removeComment name)

/-- Two names are removed, and then a comment may be added. -/
private theorem sameNodes_setMark (s : Sentence) (name name' : Bytes) (mark : Bool) (id : Bytes) :
    SameNodes (if mark && id != [] then ((s.removeComment name).removeComment name').setComment
        name' id
      else if mark then ((s.removeComment name).removeComment name').setComment name
      else (s.removeComment name).removeComment name') s := by
  have hremoved : SameNodes ((s.removeComment name).removeComment name') s :=
    (sameNodes_removeComment _ name').trans (s.sameNodes_removeComment name)
  split
  · exact (sameNodes_setComment _ _ _).trans hremoved
  · split
    · exact (sameNodes_setComment _ _ _).trans hremoved
    · exact hremoved

/-- `set_new_doc` keeps the nodes. -/
theorem sameNodes_setNewDoc (s : Sentence) (newDoc : Bool) (id : Bytes) :
    SameNodes (s.setNewDoc newDoc id) s :=
  s.sameNodes_setMark (bytes "newdoc") (bytes "newdoc id") newDoc id

/-- `set_new_par` keeps the nodes. -/
theorem sameNodes_setNewPar (s : Sentence) (newPar : Bool) (id : Bytes) :
    SameNodes (s.setNewPar newPar id) s :=
  s.sameNodes_setMark (bytes "newpar") (bytes "newpar id") newPar id

/-- `set_sent_id` keeps the nodes. -/
theorem sameNodes_setSentId (s : Sentence) (id : Bytes) : SameNodes (s.setSentId id) s := by
  have hremoved := s.sameNodes_removeComment (bytes "sent_id")
  unfold setSentId
  dsimp only
  split
  · exact hremoved
  · exact (sameNodes_setComment _ _ _).trans hremoved

/-! ### Comments that begin a paragraph -/

/-- A comment has a name if the name stands behind its `#` and the blanks. -/
theorem isSome_commentAfter {name comment : Bytes} : (commentAfter name comment).isSome = true ↔
    comment.head? = some hash ∧ name <+: comment.drop (skipBlanks comment 1) := by
  unfold commentAfter
  split
  · rename_i hhash
    dsimp only
    split
    · rename_i hname
      simp [hhash, List.isPrefixOf_iff_prefix.mp hname]
    · rename_i hname
      simp [hhash, mt List.isPrefixOf_iff_prefix.mpr hname]
  · rename_i hhash
    simp [hhash]

/-- A value is read if some comment starts with the name. -/
theorem isSome_getComment (s : Sentence) (name : Bytes) :
    (s.getComment name).isSome =
      s.comments.any fun comment => (commentAfter name comment).isSome := by
  simp only [getComment, List.isSome_findSome?, Option.isSome_map]

/-- A sentence begins a paragraph if some comment does. -/
theorem getNewPar_eq_any (s : Sentence) :
    s.getNewPar = s.comments.any fun comment => (commentAfter (bytes "newpar") comment).isSome := by
  have hid : ∀ comment, (commentAfter (bytes "newpar id") comment).isSome = true →
      (commentAfter (bytes "newpar") comment).isSome = true := by
    intro comment h
    obtain ⟨hhash, hprefix⟩ := isSome_commentAfter.mp h
    have hname : bytes "newpar" <+: bytes "newpar id" := ⟨bytes " id", by decide⟩
    exact isSome_commentAfter.mpr ⟨hhash, hname.trans hprefix⟩
  rw [getNewPar, isSome_getComment, isSome_getComment, Bool.eq_iff_iff, Bool.or_eq_true,
    or_iff_right_iff_imp, List.any_eq_true, List.any_eq_true]
  rintro ⟨comment, hmem, h⟩
  exact ⟨comment, hmem, hid comment h⟩

/-- A comment that begins a paragraph is no sentence id. -/
private theorem isNone_commentAfter_sentId {comment : Bytes}
    (h : (commentAfter (bytes "newpar") comment).isSome = true) :
    (commentAfter (bytes "sent_id") comment).isNone = true := by
  obtain ⟨_, after, hafter⟩ := isSome_commentAfter.mp h
  rw [← Option.not_isSome, Bool.not_eq_true', ← Bool.not_eq_true, isSome_commentAfter]
  rintro ⟨_, after', hafter'⟩
  have hhead : some (110 : Byte) = some 115 :=
    congrArg List.head? (hafter.trans hafter'.symm)
  exact absurd hhead (by decide)

/-- Removing a comment leaves the comments that do not start with the name. -/
theorem mem_removeComment {s : Sentence} {name comment : Bytes} (hmem : comment ∈ s.comments)
    (hnone : (commentAfter name comment).isNone = true) :
    comment ∈ (s.removeComment name).comments := by
  rw [← List.take_append_drop (s.comments.length % unsignedValues) s.comments,
    List.mem_append] at hmem
  rcases hmem with hfirst | hrest
  · exact List.mem_append_left _ (List.mem_filter.mpr ⟨hfirst, hnone⟩)
  · exact List.mem_append_right _ hrest

/-- No comment comes from removing one. -/
theorem mem_of_mem_removeComment {s : Sentence} {name comment : Bytes}
    (hmem : comment ∈ (s.removeComment name).comments) : comment ∈ s.comments := by
  rcases List.mem_append.mp hmem with hfirst | hrest
  · exact List.mem_of_mem_take (List.mem_filter.mp hfirst).1
  · exact List.mem_of_mem_drop hrest

/-- Where no comment starts with the name, nothing is removed. -/
theorem removeComment_eq_self {s : Sentence} {name : Bytes}
    (hnone : ∀ comment ∈ s.comments, commentAfter name comment = none) :
    s.removeComment name = s := by
  have hkeep : ((s.comments.take (s.comments.length % unsignedValues)).filter fun comment =>
      (commentAfter name comment).isNone) = s.comments.take (s.comments.length % unsignedValues) := by
    rw [List.filter_eq_self]
    intro comment hmem
    rw [hnone comment (List.mem_of_mem_take hmem)]
    rfl
  rw [removeComment, hkeep, List.take_append_drop]

/-- Removing the identifier of the sentence keeps the mark of a paragraph. -/
private theorem getNewPar_removeComment (s : Sentence) :
    (s.removeComment (bytes "sent_id")).getNewPar = s.getNewPar := by
  rw [getNewPar_eq_any, getNewPar_eq_any, Bool.eq_iff_iff, List.any_eq_true, List.any_eq_true]
  constructor
  · rintro ⟨comment, hmem, h⟩
    exact ⟨comment, mem_of_mem_removeComment hmem, h⟩
  · rintro ⟨comment, hmem, h⟩
    exact ⟨comment, mem_removeComment hmem (isNone_commentAfter_sentId h), h⟩

/-- Adding a comment that begins no paragraph does not begin one. -/
theorem getNewPar_append {s s' : Sentence} {comment : Bytes}
    (hs : s'.comments = s.comments ++ [comment])
    (hcomment : commentAfter (bytes "newpar") comment = none) : s'.getNewPar = s.getNewPar := by
  rw [getNewPar_eq_any, getNewPar_eq_any, hs, List.any_append, List.any_cons, hcomment]
  simp

/-- The id of a sentence does not change whether it begins a paragraph. -/
theorem getNewPar_setSentId (s : Sentence) (id : Bytes) :
    (s.setSentId id).getNewPar = s.getNewPar := by
  have hadded : ∀ (s : Sentence) (comment : Bytes), commentAfter (bytes "newpar") comment = none →
      ({ s with comments := s.comments ++ [comment] } : Sentence).getNewPar = s.getNewPar :=
    fun s comment => getNewPar_append rfl
  unfold setSentId setComment
  dsimp only
  split
  · exact getNewPar_removeComment s
  · rw [hadded _ _ rfl, getNewPar_removeComment, getNewPar_removeComment]

end UDPipe.Sentence
