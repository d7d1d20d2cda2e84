import UDPipe.Comments
import UDPipe.Misc
import Mathlib.Data.List.DropRight

/-!
# Keys of comments

The key of a comment is what stands between its `#` and its equals sign, without the
blanks around it. The functions of a sentence look for a name with which a comment
begins, so they treat a comment whose key goes on after the name like one that has
the key. Where there is no such comment, they read and change exactly the comments
of their key, as far as their counters reach.
-/

namespace UDPipe.Sentence

/-- The key of a comment. -/
def keyOf (comment : Bytes) : Option Bytes :=
  match comment with
  | [] => none
  | c :: rest =>
    if c == hash then
      some (((rest.dropWhile isBlank).takeWhile (· != equals)).rdropWhile isBlank)
    else none

/-- The value of a comment. -/
def valueOf (comment : Bytes) : Bytes := ((comment.dropWhile (· != equals)).drop 1).dropWhile isBlank

/-- The value is where the counter finds it: there is no equals sign, or it is beyond the
counter and the value is empty, or the value begins before byte 2^32. -/
def ValueInReach (comment : Bytes) : Prop :=
  let sign := (comment.takeWhile (· != equals)).length
  sign = comment.length ∨ unsignedValues ≤ sign ∧ valueOf comment = [] ∨
    sign + 1 + ((comment.drop (sign + 1)).takeWhile isBlank).length < unsignedValues

instance (comment : Bytes) : Decidable (ValueInReach comment) :=
  inferInstanceAs (Decidable (_ ∨ _ ∧ _ ∨ _))

/-- A short name without an equals sign and without blanks around it. -/
structure IsName (name : Bytes) : Prop where
  equals_notMem : equals ∉ name
  head_not : ∀ c ∈ name.head?, isBlank c = false ∧ c ≠ hash
  last_not : ∀ c ∈ name.getLast?, isBlank c = false
  ne_nil : name ≠ []
  short : name.length < 100

/-- A name without an equals sign that neither begins nor ends with a blank. -/
theorem isName_of_ends {name : Bytes} (hequals : equals ∉ name)
    (hhead : name.head?.map (fun c => !isBlank c && c != hash) = some true)
    (hlast : name.getLast?.map isBlank = some false) (hshort : name.length < 100) :
    IsName name where
  equals_notMem := hequals
  head_not c hc := by
    rw [Option.mem_def.mp hc, Option.map_some] at hhead
    simpa using hhead
  last_not c hc := by
    rw [Option.mem_def.mp hc, Option.map_some] at hlast
    exact Option.some.inj hlast
  ne_nil := by
    rintro rfl
    cases hhead
  short := hshort

/-! ### Positions in a comment -/

/-- The counter skips the blanks between two parts of a comment. -/
theorem skipBlanks_append {before blanks behind : Bytes} (hblanks : ∀ c ∈ blanks, isBlank c = true)
    (hbehind : ∀ c ∈ behind.head?, isBlank c = false) :
    skipBlanks (before ++ blanks ++ behind) before.length =
      if (before ++ blanks).length < unsignedValues then (before ++ blanks).length else 0 := by
  have htake : (blanks ++ behind).takeWhile isBlank = blanks := by
    rw [List.takeWhile_append_of_pos hblanks]
    cases behind with
    | nil => simp
    | cons c behind =>
      have hc : isBlank c = false := hbehind c (Option.mem_some.mpr rfl)
      rw [List.takeWhile_cons_of_neg (by simp [hc]), List.append_nil]
  rw [skipBlanks, List.append_assoc, List.drop_left, htake, List.length_append]

/-- At the `#` of a comment there is nothing to skip. -/
theorem skipBlanks_zero (rest : Bytes) : skipBlanks (hash :: rest) 0 = 0 := by
  have hskip := @skipBlanks_append [] [] (hash :: rest) (List.forall_mem_nil _) (by
    intro c hc
    obtain rfl := Option.mem_some.mp hc
    decide)
  rw [List.nil_append, List.nil_append, List.length_nil] at hskip
  rw [hskip, if_pos unsignedValues_pos]

/-- A name ends the blanks before it. -/
private theorem takeWhile_isBlank {name spaces rest : Bytes} (hname : IsName name)
    (hspaces : ∀ c ∈ spaces, isBlank c = true) :
    (spaces ++ (name ++ rest)).takeWhile isBlank = spaces := by
  obtain ⟨c, tail, hcons⟩ := List.exists_cons_of_ne_nil hname.ne_nil
  have hc := (hname.head_not c (by rw [hcons]; exact Option.mem_some.mpr rfl)).1
  rw [List.takeWhile_append_of_pos hspaces, hcons, List.cons_append,
    List.takeWhile_cons_of_neg (by simp [hc]), List.append_nil]

/-- The first name of a comment: behind the blanks, if the counter comes there. -/
theorem isSome_commentAfter_iff {name comment : Bytes} (hname : IsName name) :
    (commentAfter name comment).isSome = true ↔ ∃ spaces after,
      comment = hash :: (spaces ++ (name ++ after)) ∧ (∀ c ∈ spaces, isBlank c = true) ∧
        1 + spaces.length < unsignedValues := by
  have hhead : ∀ after, ∀ c ∈ (name ++ after).head?, isBlank c = false ∧ c ≠ hash := by
    intro after c hc
    rw [List.head?_append_of_ne_nil _ hname.ne_nil] at hc
    exact hname.head_not c hc
  have hskip : ∀ {spaces after}, (∀ c ∈ spaces, isBlank c = true) →
      skipBlanks (hash :: (spaces ++ (name ++ after))) 1 =
        if 1 + spaces.length < unsignedValues then 1 + spaces.length else 0 := by
    intro spaces after hspaces
    have := @skipBlanks_append [hash] spaces (name ++ after) hspaces
      fun c hc => (hhead after c hc).1
    rwa [List.length_append, List.append_assoc] at this
  rw [isSome_commentAfter]
  constructor
  · rintro ⟨hhash, after, hafter⟩
    obtain ⟨rest, rfl⟩ := List.head?_eq_some_iff.mp hhash
    have hstop : ∀ c ∈ (rest.dropWhile isBlank).head?, isBlank c = false := by
      intro c hc
      have := List.head?_dropWhile_not isBlank rest
      rw [Option.mem_def.mp hc] at this
      simpa using this
    have hrest := @skipBlanks_append [hash] (rest.takeWhile isBlank) (rest.dropWhile isBlank)
      (fun c hc => List.mem_takeWhile_imp hc) hstop
    rw [List.append_assoc, List.takeWhile_append_dropWhile] at hrest
    rw [show hash :: rest = [hash] ++ rest from rfl] at hafter
    change name ++ after = ([hash] ++ rest).drop (skipBlanks ([hash] ++ rest) [hash].length) at hafter
    rw [hrest] at hafter
    split at hafter
    · rename_i hlt
      rw [List.length_append] at hafter hlt
      have hdrop : ([hash] ++ rest).drop ([hash].length + (rest.takeWhile isBlank).length) =
          rest.dropWhile isBlank := by
        rw [← List.drop_drop, List.drop_left]
        have hleading := List.prefix_iff_eq_append.mp (@List.takeWhile_prefix _ rest isBlank)
        exact List.append_cancel_left
          (hleading.trans (@List.takeWhile_append_dropWhile _ isBlank rest).symm)
      rw [hdrop] at hafter
      exact ⟨rest.takeWhile isBlank, after,
        by rw [hafter, List.takeWhile_append_dropWhile], fun c hc => List.mem_takeWhile_imp hc, hlt⟩
    · -- the counter came back to the `#`, with which no name begins
      have hfirst := congrArg List.head? hafter
      exact absurd rfl (hhead after hash (by rw [hfirst]; exact Option.mem_some.mpr rfl)).2
  · rintro ⟨spaces, after, rfl, hspaces, hlt⟩
    refine ⟨rfl, after, ?_⟩
    rw [hskip hspaces, if_pos hlt, Nat.add_comm, List.drop_succ_cons, List.drop_left]

/-- The position after the name. -/
theorem commentAfter_eq {name spaces after : Bytes} (hname : IsName name)
    (hspaces : ∀ c ∈ spaces, isBlank c = true) (hlt : 1 + spaces.length < unsignedValues) :
    commentAfter name (hash :: (spaces ++ (name ++ after))) =
      some ((1 + spaces.length + name.length) % unsignedValues) := by
  have hskip := @skipBlanks_append [hash] spaces (name ++ after) hspaces fun c hc => by
    rw [List.head?_append_of_ne_nil _ hname.ne_nil] at hc
    exact (hname.head_not c hc).1
  rw [List.length_append, List.append_assoc] at hskip
  have hj : skipBlanks (hash :: (spaces ++ (name ++ after))) 1 = 1 + spaces.length :=
    hskip.trans (if_pos hlt)
  have hprefix : name.isPrefixOf ((hash :: (spaces ++ (name ++ after))).drop (1 + spaces.length)) =
      true := by
    rw [Nat.add_comm, List.drop_succ_cons, List.drop_left]
    exact List.isPrefixOf_iff_prefix.mpr (List.prefix_append name after)
  rw [commentAfter]
  dsimp only
  rw [hj, if_pos List.head?_cons, if_pos hprefix]

/-- The blanks at the end are behind the name. -/
private theorem rdropWhile_append {name l : Bytes}
    (hlast : ∀ c ∈ name.getLast?, isBlank c = false) :
    (name ++ l).rdropWhile isBlank = name ++ l.rdropWhile isBlank := by
  have hname : name.reverse.dropWhile isBlank = name.reverse := by
    cases hrev : name.reverse with
    | nil => rfl
    | cons c rest =>
      have hc : isBlank c = false :=
        hlast c (by rw [← List.head?_reverse, hrev]; exact Option.mem_some.mpr rfl)
      rw [List.dropWhile_cons, hc]
      rfl
  rw [List.rdropWhile, List.rdropWhile, List.reverse_append, List.dropWhile_append]
  split
  · rename_i hempty
    rw [List.isEmpty_iff.mp hempty, hname, List.reverse_reverse]
    simp
  · rw [List.reverse_append, List.reverse_reverse]

/-- The name stands before the first equals sign. -/
private theorem takeWhile_name {name l : Bytes} (hname : equals ∉ name) :
    (name ++ l).takeWhile (· != equals) = name ++ l.takeWhile (· != equals) := by
  rw [List.takeWhile_append_of_pos]
  intro c hc
  simpa using fun heq : c = equals => hname (heq ▸ hc)

/-- The key of a comment that begins with a name begins with the name. -/
theorem keyOf_of_after {name comment : Bytes} (hname : IsName name)
    (h : (commentAfter name comment).isSome = true) :
    ∃ more, keyOf comment = some (name ++ more) := by
  obtain ⟨spaces, after, rfl, hspaces, _⟩ := (isSome_commentAfter_iff hname).mp h
  have hskip : (spaces ++ (name ++ after)).dropWhile isBlank = name ++ after := by
    rw [List.dropWhile_append_of_pos hspaces]
    cases name with
    | nil => exact absurd rfl hname.ne_nil
    | cons c name =>
      have hc := (hname.head_not c (Option.mem_some.mpr rfl)).1
      rw [List.cons_append, List.dropWhile_cons_of_neg (by simp [hc])]
  rw [keyOf, hskip, takeWhile_name hname.equals_notMem, rdropWhile_append hname.last_not]
  exact ⟨_, rfl⟩

/-- The parts of a comment with a key: blanks, the key, blanks, and the equals sign with what
follows, if there is one. -/
theorem parts_of_keyOf {name comment : Bytes} (h : keyOf comment = some name) :
    ∃ spaces blanks behind, comment = hash :: (spaces ++ (name ++ (blanks ++ behind))) ∧
      (∀ c ∈ spaces, isBlank c = true) ∧ (∀ c ∈ blanks, isBlank c = true) ∧
      (∀ c ∈ behind.head?, c = equals) := by
  cases comment with
  | nil => cases h
  | cons c rest =>
    rw [keyOf] at h
    split at h
    · rename_i hc
      obtain rfl := eq_of_beq hc
      have htake := @List.rdropWhile_append_rtakeWhile _ isBlank
        ((rest.dropWhile isBlank).takeWhile (· != equals))
      rw [Option.some.inj h] at htake
      refine ⟨rest.takeWhile isBlank,
        ((rest.dropWhile isBlank).takeWhile (· != equals)).rtakeWhile isBlank,
        (rest.dropWhile isBlank).dropWhile (· != equals), ?_,
        fun c hc => List.mem_takeWhile_imp hc, fun c hc => List.mem_rtakeWhile_imp hc, ?_⟩
      · rw [← List.append_assoc name, htake, List.takeWhile_append_dropWhile,
          List.takeWhile_append_dropWhile]
      · intro c hc
        have := List.head?_dropWhile_not (fun c : Byte => c != equals) (rest.dropWhile isBlank)
        rw [Option.mem_def.mp hc] at this
        simpa using this
    · cases h

section Value

variable {name spaces blanks behind : Bytes} (hname : IsName name)
  (hspaces : ∀ c ∈ spaces, isBlank c = true) (hblanks : ∀ c ∈ blanks, isBlank c = true)
  (hbehind : ∀ c ∈ behind.head?, c = equals)

include hname hspaces hblanks hbehind

/-- The equals sign comes after the blanks behind the key. -/
private theorem sign_of_parts :
    (hash :: (spaces ++ (name ++ (blanks ++ behind)))).takeWhile (· != equals) =
        hash :: (spaces ++ (name ++ blanks)) ∧
      valueOf (hash :: (spaces ++ (name ++ (blanks ++ behind)))) =
        (behind.drop 1).dropWhile isBlank := by
  have hne : ∀ c ∈ hash :: (spaces ++ (name ++ blanks)), (c != equals) = true := by
    have hnoBlank : ∀ c : Byte, isBlank c = true → (c != equals) = true := by
      intro c hc
      rw [bne_iff_ne]
      rintro rfl
      exact absurd hc (by decide)
    refine List.forall_mem_cons.mpr ⟨by decide, List.forall_mem_append.mpr
      ⟨fun c hc => hnoBlank c (hspaces c hc), List.forall_mem_append.mpr
        ⟨fun c hc => ?_, fun c hc => hnoBlank c (hblanks c hc)⟩⟩⟩
    exact bne_iff_ne.mpr (ne_of_mem_of_not_mem hc hname.equals_notMem)
  have hsplit : hash :: (spaces ++ (name ++ (blanks ++ behind))) =
      (hash :: (spaces ++ (name ++ blanks))) ++ behind := by
    simp
  have hstop : behind.takeWhile (· != equals) = [] ∧ behind.dropWhile (· != equals) = behind := by
    cases behind with
    | nil => exact ⟨rfl, rfl⟩
    | cons c behind =>
      obtain rfl := hbehind c (Option.mem_some.mpr rfl)
      exact ⟨List.takeWhile_cons_of_neg (by simp), List.dropWhile_cons_of_neg (by simp)⟩
  rw [valueOf, hsplit, List.takeWhile_append_of_pos hne, List.dropWhile_append_of_pos hne,
    hstop.1, hstop.2, List.append_nil]
  exact ⟨rfl, rfl⟩

/-- Behind the name, the counter comes to the equals sign, or back to the `#`, or it stops at
the name. -/
private theorem skipBlanks_after (hlt : 1 + spaces.length < unsignedValues) :
    let comment := hash :: (spaces ++ (name ++ (blanks ++ behind)))
    let sign := (hash :: (spaces ++ (name ++ blanks))).length
    let stop := skipBlanks comment ((1 + spaces.length + name.length) % unsignedValues)
    if sign < unsignedValues then stop = sign else comment[stop]? ≠ some equals := by
  intro comment sign stop
  have hstop : ∀ c ∈ behind.head?, isBlank c = false := by
    intro c hc
    rw [hbehind c hc]
    decide
  have hsign : sign = 1 + spaces.length + name.length + blanks.length := by
    simp only [sign, List.length_cons, List.length_append]
    omega
  have hhash : comment[0]? ≠ some equals := by
    simp only [comment, List.getElem?_cons_zero]
    decide
  by_cases hfits : 1 + spaces.length + name.length < unsignedValues
  · have hskip := @skipBlanks_append (hash :: (spaces ++ name)) blanks behind hblanks hstop
    have hcomment : hash :: (spaces ++ name) ++ blanks ++ behind = comment := by simp [comment]
    have hlength : (hash :: (spaces ++ name)).length = 1 + spaces.length + name.length := by
      simp only [List.length_cons, List.length_append]
      omega
    have hlength' : (hash :: (spaces ++ name) ++ blanks).length = sign := by
      rw [List.length_append, hlength, hsign]
    rw [hcomment, hlength, hlength'] at hskip
    have hmod : stop = if sign < unsignedValues then sign else 0 := by
      simp only [stop, Nat.mod_eq_of_lt hfits, hskip]
    split
    · rename_i h
      rw [hmod, if_pos h]
    · rename_i h
      rw [hmod, if_neg h]
      exact hhash
  · -- the counter came back within the name: it is at the `#` or among the blanks before the name
    have hshort := hname.short
    have hlarge : 100 < unsignedValues := by decide
    have hbig : ¬ sign < unsignedValues := by omega
    rw [if_neg hbig]
    obtain ⟨j, hj⟩ : ∃ j, 1 + spaces.length + name.length = unsignedValues + j :=
      ⟨_, (Nat.add_sub_of_le (by omega)).symm⟩
    have hmod : (1 + spaces.length + name.length) % unsignedValues = j := by
      rw [hj, Nat.add_mod_left, Nat.mod_eq_of_lt (by omega)]
    have hstopDef : stop = skipBlanks comment j := by
      simp only [stop, hmod]
    cases j with
    | zero =>
      rw [hstopDef, skipBlanks_zero]
      exact hhash
    | succ j =>
      have hhead : ∀ c ∈ (name ++ (blanks ++ behind)).head?, isBlank c = false := by
        intro c hc
        rw [List.head?_append_of_ne_nil _ hname.ne_nil] at hc
        exact (hname.head_not c hc).1
      have hskip := @skipBlanks_append (hash :: spaces.take j) (spaces.drop j)
        (name ++ (blanks ++ behind)) (fun c hc => hspaces c (List.mem_of_mem_drop hc)) hhead
      have hcomment : hash :: spaces.take j ++ spaces.drop j ++ (name ++ (blanks ++ behind)) =
          comment := by
        rw [List.cons_append, List.take_append_drop, List.cons_append]
      have hlength : (hash :: spaces.take j).length = j + 1 := by
        rw [List.length_cons, List.length_take, Nat.min_eq_left (by omega)]
      have hlength' : (hash :: spaces.take j ++ spaces.drop j).length = spaces.length + 1 := by
        rw [List.cons_append, List.take_append_drop, List.length_cons]
      rw [hcomment, hlength, hlength', if_pos (by omega)] at hskip
      rw [hstopDef, hskip]
      obtain ⟨c, rest, hcons⟩ := List.exists_cons_of_ne_nil hname.ne_nil
      have hc : comment[spaces.length + 1]? = some c := by
        simp [comment, hcons]
      rw [hc]
      rintro heq
      exact hname.equals_notMem (by rw [hcons, Option.some.inj heq]; exact List.mem_cons_self)

/-- The value that is read behind a key is that of the comment exactly if it is in reach. -/
theorem commentValue_iff (hlt : 1 + spaces.length < unsignedValues) :
    let comment := hash :: (spaces ++ (name ++ (blanks ++ behind)))
    commentValue comment ((1 + spaces.length + name.length) % unsignedValues) = valueOf comment ↔
      ValueInReach comment := by
  intro comment
  obtain ⟨htake, hvalue⟩ := sign_of_parts hname hspaces hblanks hbehind
  have hstop := skipBlanks_after hname hspaces hblanks hbehind hlt
  have hcomment : comment = (hash :: (spaces ++ (name ++ blanks))) ++ behind := by simp [comment]
  have hlength : comment.length = (hash :: (spaces ++ (name ++ blanks))).length + behind.length := by
    rw [hcomment, List.length_append]
  change valueOf comment = _ at hvalue
  unfold ValueInReach commentValue
  dsimp only at hstop ⊢
  rw [htake]
  generalize hsign : (hash :: (spaces ++ (name ++ blanks))).length = sign at *
  have hdrop : comment.drop sign = behind := by
    rw [hcomment]
    exact List.drop_left' hsign
  have hat : comment[sign]? = behind.head? := by
    rw [← hdrop, List.head?_drop]
  split at hstop
  · rename_i hfits
    rw [hstop, hat]
    cases hcases : behind with
    | nil =>
      rw [hcases] at hvalue hlength
      rw [hvalue, if_neg (by simp)]
      exact iff_of_true rfl (.inl (by simpa using hlength.symm))
    | cons c value =>
      obtain rfl : c = equals := hbehind c (by rw [hcases]; exact Option.mem_some.mpr rfl)
      rw [hcases] at hvalue hlength hdrop
      have hnext : comment.drop (sign + 1) = value := by
        rw [← List.drop_drop, hdrop]
        rfl
      have hnot : ¬ sign = comment.length := by
        rw [hlength, List.length_cons]
        omega
      have hwhole : comment ≠ valueOf comment := by
        intro heq
        have hle := congrArg List.length heq
        have := (List.dropWhile_suffix isBlank (l := value)).length_le
        rw [hvalue, List.drop_succ_cons, List.drop_zero, hlength, List.length_cons] at hle
        omega
      have hsame : sign + 1 + (value.takeWhile isBlank).length < unsignedValues →
          comment.drop (sign + 1 + (value.takeWhile isBlank).length) = valueOf comment := by
        intro _
        have hleading := List.prefix_iff_eq_append.mp (@List.takeWhile_prefix _ value isBlank)
        rw [hvalue, List.drop_succ_cons, List.drop_zero, ← List.drop_drop, hnext]
        exact List.append_cancel_left
          (hleading.trans (@List.takeWhile_append_dropWhile _ isBlank value).symm)
      rw [List.head?_cons, if_pos rfl, hnext, or_iff_right hnot,
        or_iff_right fun h => absurd h.1 (by omega)]
      by_cases hone : sign + 1 < unsignedValues
      · rw [Nat.mod_eq_of_lt hone, skipBlanks, hnext]
        split
        · rename_i h
          exact iff_of_true (hsame h) h
        · rename_i h
          exact iff_of_false hwhole h
      · rw [show sign + 1 = unsignedValues by omega, Nat.mod_self, skipBlanks_zero]
        exact iff_of_false hwhole (by omega)
  · rename_i hfar
    rw [if_neg hstop]
    constructor
    · exact fun h => .inr (.inl ⟨by omega, h.symm⟩)
    · rintro (hend | ⟨_, h⟩ | hnear)
      · have hnil : behind = [] := List.length_eq_zero_iff.mp (by omega)
        rw [hvalue, hnil]
        rfl
      · exact h.symm
      · omega

end Value

/-! ### The functions of each key -/

/-- The comments a sentence has functions for. -/
inductive CommentKey where
  | newDoc
  | newPar
  | sentId
  | text
  deriving DecidableEq, Repr

/-- `get_new_doc` and `get_new_par` with their output argument. -/
def getMark (s : Sentence) (name : Bytes) : Option Bytes :=
  (s.getComment (name ++ bytes " id")).or (s.getComment name)

namespace CommentKey

/-- The names of a key, in the order they are looked for. -/
def names : CommentKey → List Bytes
  | newDoc => [bytes "newdoc id", bytes "newdoc"]
  | newPar => [bytes "newpar id", bytes "newpar"]
  | sentId => [bytes "sent_id"]
  | text => [bytes "text"]

/-- The getter of a key. -/
def get (s : Sentence) : CommentKey → Option Bytes
  | newDoc => s.getMark (bytes "newdoc")
  | newPar => s.getMark (bytes "newpar")
  | sentId => s.getComment (bytes "sent_id")
  | text => s.getComment (bytes "text")

/-- The setter of a key, with a value. -/
def set (s : Sentence) (value : Bytes) : CommentKey → Sentence
  | newDoc => s.setNewDoc true value
  | newPar => s.setNewPar true value
  | sentId => s.setSentId value
  | text => s.setText value

/-- The setter of a key that removes. -/
def remove (s : Sentence) : CommentKey → Sentence
  | newDoc => s.setNewDoc false
  | newPar => s.setNewPar false
  | sentId => s.setSentId []
  | text => s.setText []

/-- The setter of a key without a value, where there is one. -/
def mark (s : Sentence) : CommentKey → Option Sentence
  | newDoc => some (s.setNewDoc true)
  | newPar => some (s.setNewPar true)
  | sentId => none
  | text => none

/-- The comment has the key. -/
def Has (key : CommentKey) (comment : Bytes) : Prop := ∃ name ∈ key.names, keyOf comment = some name

instance (key : CommentKey) (comment : Bytes) : Decidable (key.Has comment) :=
  inferInstanceAs (Decidable (∃ name ∈ key.names, keyOf comment = some name))

/-- The comments with other keys. -/
def others (s : Sentence) (key : CommentKey) : List Bytes :=
  s.comments.filter fun comment => ¬ key.Has comment

/-- The value of the first comment that has a name of the key. -/
def valueIn (s : Sentence) (key : CommentKey) : Option Bytes :=
  key.names.findSome? fun name =>
    (s.comments.find? fun comment => keyOf comment == some name).map valueOf

/-- The functions of the key read and change exactly the comments that have it. -/
structure Laws (s : Sentence) (key : CommentKey) : Prop where
  reads : key.get s = key.valueIn s
  sets : ∀ value : Bytes, value ≠ [] → (∀ c ∈ value, isLineEnd c = false) →
    (∀ c ∈ value.head?, isBlank c = false) →
    key.get (key.set s value) = some value ∧
      ∃ comment, key.Has comment ∧ (key.set s value).comments = key.others s ++ [comment]
  marks : ∀ marked ∈ key.mark s, key.get marked = some [] ∧
    ∃ comment, key.Has comment ∧ marked.comments = key.others s ++ [comment]
  removes : key.get (key.remove s) = none ∧ (key.remove s).comments = key.others s

/-- The shorter name of a key, with which all of its names begin. -/
def base : CommentKey → Bytes
  | newDoc => bytes "newdoc"
  | newPar => bytes "newpar"
  | sentId => bytes "sent_id"
  | text => bytes "text"

/-- The comment that is read for a key, if keys decide. -/
def first (s : Sentence) (key : CommentKey) : Option Bytes :=
  key.names.findSome? fun name => s.comments.find? fun comment => keyOf comment == some name

/-- The comments that begin with a name of the key, as far as the counter reaches, are those
that have the key; none of these is beyond the comments that are counted; and the value of the
first one is in reach. -/
structure Separate (s : Sentence) (key : CommentKey) : Prop where
  begins : ∀ comment ∈ s.comments, (commentAfter key.base comment).isSome ↔ key.Has comment
  counted : ∀ comment ∈ s.comments.drop (s.comments.length % unsignedValues), ¬ key.Has comment
  value : ∀ comment ∈ key.first s, ValueInReach comment

/-- The names of a key are names. -/
theorem isName_of_mem {key : CommentKey} : ∀ name ∈ key.names, IsName name := by
  cases key with
  | newDoc =>
    exact List.forall_mem_cons.mpr
      ⟨isName_of_ends (by decide) (by decide) (by decide) (by decide),
        List.forall_mem_singleton.mpr
          (isName_of_ends (by decide) (by decide) (by decide) (by decide))⟩
  | newPar =>
    exact List.forall_mem_cons.mpr
      ⟨isName_of_ends (by decide) (by decide) (by decide) (by decide),
        List.forall_mem_singleton.mpr
          (isName_of_ends (by decide) (by decide) (by decide) (by decide))⟩
  | sentId =>
    exact List.forall_mem_singleton.mpr
      (isName_of_ends (by decide) (by decide) (by decide) (by decide))
  | text =>
    exact List.forall_mem_singleton.mpr
      (isName_of_ends (by decide) (by decide) (by decide) (by decide))

/-- The shortest name is one of the names. -/
theorem base_mem (key : CommentKey) : key.base ∈ key.names := by
  cases key <;> decide

/-- All names begin with the shortest one. -/
theorem base_prefix (key : CommentKey) : ∀ name ∈ key.names, key.base <+: name := by
  have hself : ∀ name : Bytes, ∀ n ∈ [name], name <+: n :=
    fun name => List.forall_mem_singleton.mpr (List.prefix_refl name)
  cases key with
  | newDoc => exact List.forall_mem_cons.mpr ⟨⟨bytes " id", by decide⟩, hself _⟩
  | newPar => exact List.forall_mem_cons.mpr ⟨⟨bytes " id", by decide⟩, hself _⟩
  | sentId => exact hself _
  | text => exact hself _

/-- A comment that begins with a name of the key begins with the shorter one. -/
theorem isSome_base {key : CommentKey} {name comment : Bytes} (hname : name ∈ key.names)
    (h : (commentAfter name comment).isSome = true) :
    (commentAfter key.base comment).isSome = true := by
  obtain ⟨hhash, hprefix⟩ := isSome_commentAfter.mp h
  exact isSome_commentAfter.mpr ⟨hhash, (key.base_prefix name hname).trans hprefix⟩

/-! ### Reading -/

/-- Finding the first value is finding the first element that has one. -/
private theorem map_findSome?_eq {α β γ : Type} {f : α → Option β} {g : β → γ} {p : α → Bool}
    {h : α → γ} {l : List α} (hp : ∀ a ∈ l, p a = (f a).isSome)
    (hg : ∀ a ∈ l, ∀ b, f a = some b → g b = h a) :
    (l.findSome? f).map g = (l.find? p).map h := by
  induction l with
  | nil => rfl
  | cons a l ih =>
    have hpa := hp a List.mem_cons_self
    rw [List.findSome?_cons, List.find?_cons, hpa]
    cases hfa : f a with
    | none =>
      exact ih (fun b hb => hp b (List.mem_cons_of_mem a hb))
        (fun b hb => hg b (List.mem_cons_of_mem a hb))
    | some b => exact congrArg some (hg a List.mem_cons_self b hfa)

/-- What the code reads from a comment with this name. -/
def readValue (name comment : Bytes) : Bytes :=
  ((commentAfter name comment).map (commentValue comment)).getD []

/-- Where only comments with the key begin with its name, the first of them is read. -/
theorem getComment_eq {s : Sentence} {name : Bytes}
    (hall : ∀ comment ∈ s.comments, (commentAfter name comment).isSome ↔
      keyOf comment = some name) :
    s.getComment name =
      (s.comments.find? fun comment => keyOf comment == some name).map (readValue name) := by
  have hfind := @map_findSome?_eq _ _ _
    (fun comment => (commentAfter name comment).map (commentValue comment)) id
    (fun comment => keyOf comment == some name) (readValue name) s.comments
  rw [Option.map_id] at hfind
  apply hfind
  · intro comment hmem
    rw [Bool.eq_iff_iff, beq_iff_eq, Option.isSome_map]
    exact (hall comment hmem).symm
  · intro comment _ value hvalue
    rw [readValue, hvalue]
    rfl

/-- A comment with a key that is found is read right exactly if its value is in reach. -/
theorem readValue_iff {name comment : Bytes} (hname : IsName name)
    (hkey : keyOf comment = some name) (hsome : (commentAfter name comment).isSome = true) :
    readValue name comment = valueOf comment ↔ ValueInReach comment := by
  obtain ⟨spaces, blanks, behind, rfl, hspaces, hblanks, hbehind⟩ := parts_of_keyOf hkey
  obtain ⟨spaces', after, heq, hspaces', hlt⟩ := (isSome_commentAfter_iff hname).mp hsome
  have hsame : spaces = spaces' := by
    rw [← takeWhile_isBlank hname hspaces, (List.cons.inj heq).2,
      takeWhile_isBlank hname hspaces']
  subst hsame
  rw [readValue, commentAfter_eq hname hspaces hlt, Option.map_some, Option.getD_some]
  exact commentValue_iff hname hspaces hblanks hbehind hlt

/-- A comment with a longer name of the key is found under it if it is under the shorter one. -/
private theorem isSome_of_base {key : CommentKey} {name comment : Bytes} (hname : name ∈ key.names)
    (hkey : keyOf comment = some name) (hbase : (commentAfter key.base comment).isSome = true) :
    (commentAfter name comment).isSome = true := by
  obtain ⟨spaces, after, rfl, hspaces, hlt⟩ :=
    (isSome_commentAfter_iff (isName_of_mem _ key.base_mem)).mp hbase
  obtain ⟨spaces', blanks, behind, heq, hspaces', _⟩ := parts_of_keyOf hkey
  have hsame : spaces = spaces' := by
    rw [← takeWhile_isBlank (isName_of_mem _ key.base_mem) hspaces, (List.cons.inj heq).2,
      takeWhile_isBlank (isName_of_mem _ hname) hspaces']
  rw [heq]
  exact (isSome_commentAfter_iff (isName_of_mem _ hname)).mpr
    ⟨spaces', _, rfl, hspaces', hsame ▸ hlt⟩

section Reading

variable {s : Sentence} {key : CommentKey}
  (hbegins : ∀ comment ∈ s.comments, (commentAfter key.base comment).isSome ↔ key.Has comment)

include hbegins

/-- The comments that are looked for under a name are those with this key. -/
private theorem getComment_of_begins {name : Bytes} (hname : name ∈ key.names)
    (honly : ∀ comment ∈ s.comments, (commentAfter name comment).isSome → ∀ other ∈ key.names,
      keyOf comment = some other → other = name) :
    s.getComment name =
      (s.comments.find? fun comment => keyOf comment == some name).map (readValue name) := by
  refine getComment_eq fun comment hmem => ⟨fun hsome => ?_, fun hkey => ?_⟩
  · obtain ⟨other, hother, hkey⟩ := (hbegins comment hmem).mp (isSome_base hname hsome)
    rw [← honly comment hmem hsome other hother hkey]
    exact hkey
  · exact isSome_of_base hname hkey ((hbegins comment hmem).mpr ⟨name, hname, hkey⟩)

/-- A mark is read from a comment with an id if there is one, else from one without. -/
private theorem getMark_of_begins {name : Bytes}
    (hnames : key.names = [name ++ bytes " id", name]) :
    s.getMark name = key.names.findSome? fun name =>
      (s.comments.find? fun comment => keyOf comment == some name).map (readValue name) := by
  have hmem : ∀ n, n ∈ key.names ↔ n = name ++ bytes " id" ∨ n = name := by
    intro n
    rw [hnames, List.mem_cons, List.mem_singleton]
  have hlong : name ++ bytes " id" ∈ key.names := (hmem _).mpr (.inl rfl)
  have hfirst := getComment_of_begins hbegins hlong fun comment _ hsome other hother hkey => by
    -- a key that begins with the longer name is not the shorter one
    refine ((hmem other).mp hother).resolve_right fun heq => ?_
    obtain ⟨more, hmore⟩ := keyOf_of_after (isName_of_mem _ hlong) hsome
    have hlength := congrArg (Option.map List.length) (hmore.symm.trans hkey)
    simp only [heq, Option.map_some, List.length_append, Option.some.injEq] at hlength
    have : (bytes " id").length = 3 := by decide
    omega
  rw [getMark, hfirst, hnames, List.findSome?_cons, List.findSome?_cons, List.findSome?_nil]
  cases hfind : s.comments.find? fun comment => keyOf comment == some (name ++ bytes " id") with
  | some comment => rfl
  | none =>
    have hsecond := getComment_of_begins hbegins ((hmem name).mpr (.inr rfl))
      fun comment hcomment _ other hother hkey => by
        refine ((hmem other).mp hother).resolve_left fun heq => ?_
        have hnone := List.find?_eq_none.mp hfind comment hcomment
        exact hnone (by rw [hkey, heq]; exact beq_self_eq_true _)
    rw [hsecond]
    cases (s.comments.find? fun comment => keyOf comment == some name) <;> rfl

/-- Where the names decide the keys, a comment of the key is read under its name. -/
private theorem get_of_begins :
    key.get s = key.names.findSome? fun name =>
      (s.comments.find? fun comment => keyOf comment == some name).map (readValue name) := by
  have hplain : ∀ name, key.names = [name] → s.getComment name = key.names.findSome? fun name =>
      (s.comments.find? fun comment => keyOf comment == some name).map (readValue name) := by
    intro name hnames
    have hname : name ∈ key.names := by
      rw [hnames]
      exact List.mem_singleton_self name
    have hget := getComment_of_begins hbegins hname
      fun _ _ _ other hother _ => List.mem_singleton.mp (hnames ▸ hother)
    rw [hget, hnames, List.findSome?_cons, List.findSome?_nil]
    cases (s.comments.find? fun comment => keyOf comment == some name) <;> rfl
  cases key with
  | newDoc => exact getMark_of_begins hbegins rfl
  | newPar => exact getMark_of_begins hbegins rfl
  | sentId => exact hplain (bytes "sent_id") rfl
  | text => exact hplain (bytes "text") rfl

/-- Where the names decide the keys, the value is read exactly if it is in reach. -/
theorem get_eq_valueIn_iff : key.get s = key.valueIn s ↔ ∀ comment ∈ key.first s,
    ValueInReach comment := by
  have key' : ∀ names : List Bytes, (∀ name ∈ names, name ∈ key.names) →
      ((names.findSome? fun name =>
          (s.comments.find? fun comment => keyOf comment == some name).map (readValue name)) =
        (names.findSome? fun name =>
          (s.comments.find? fun comment => keyOf comment == some name).map valueOf) ↔
        ∀ comment ∈ names.findSome? fun name =>
          s.comments.find? fun comment => keyOf comment == some name, ValueInReach comment) := by
    intro names hnames
    induction names with
    | nil => simp
    | cons name names ih =>
      obtain ⟨hname, hrest⟩ := List.forall_mem_cons.mp hnames
      rw [List.findSome?_cons, List.findSome?_cons, List.findSome?_cons]
      cases hfind : s.comments.find? fun comment => keyOf comment == some name with
      | none => exact ih hrest
      | some comment =>
        have hkey : keyOf comment = some name := by
          have hfound := List.find?_some hfind
          simpa using hfound
        have hsome := isSome_of_base hname hkey
          ((hbegins comment (List.mem_of_find?_eq_some hfind)).mpr ⟨name, hname, hkey⟩)
        have hread := readValue_iff (isName_of_mem _ hname) hkey hsome
        simpa using hread
  rw [get_of_begins hbegins]
  exact key' key.names fun _ h => h

end Reading

/-! ### Writing -/

/-- The comment that `set_comment` writes. -/
def written (name value : Bytes) : Bytes :=
  bytes "# " ++ name ++ if value = [] then [] else bytes " = " ++ value

/-- The name of a comment that is written is found. -/
theorem commentAfter_written {name : Bytes} (hname : IsName name) (value : Bytes) :
    commentAfter name (written name value) = some (2 + name.length) := by
  have hblank : ∀ c ∈ [space], isBlank c = true := List.forall_mem_singleton.mpr rfl
  have hshort := hname.short
  have hlarge : 200 < unsignedValues := by decide
  have hafter := @commentAfter_eq name [space] (if value = [] then [] else bytes " = " ++ value)
    hname hblank (by rw [List.length_singleton]; omega)
  rw [List.length_singleton, Nat.mod_eq_of_lt (by omega)] at hafter
  exact hafter

/-- A value behind an equals sign with spaces around it is read. -/
private theorem commentValue_append {start value : Bytes} (hstart : start.length + 3 < unsignedValues)
    (hblank : ∀ c ∈ value.head?, isBlank c = false) :
    commentValue (start ++ space :: equals :: space :: value) start.length = value := by
  have hspace : ∀ c ∈ [space], isBlank c = true := List.forall_mem_singleton.mpr rfl
  have hsign : ∀ c ∈ (equals :: space :: value).head?, isBlank c = false := by
    intro c hc
    obtain rfl := Option.mem_some.mp hc
    decide
  obtain ⟨comment, hcomment⟩ : ∃ comment, comment = start ++ space :: equals :: space :: value :=
    ⟨_, rfl⟩
  have hfirst : skipBlanks comment start.length = start.length + 1 := by
    have hskip := @skipBlanks_append start [space] (equals :: space :: value) hspace hsign
    have hparts : start ++ [space] ++ equals :: space :: value = comment := by simp [hcomment]
    rw [hparts, List.length_append, List.length_singleton, if_pos (by omega)] at hskip
    exact hskip
  have hsecond : skipBlanks comment (start.length + 2) = start.length + 3 := by
    have hskip := @skipBlanks_append (start ++ [space, equals]) [space] value hspace hblank
    have hparts : start ++ [space, equals] ++ [space] ++ value = comment := by simp [hcomment]
    rw [hparts] at hskip
    simp only [List.length_append, List.length_cons, List.length_nil] at hskip
    rw [if_pos (by omega)] at hskip
    exact hskip
  have hat : comment[start.length + 1]? = some 61 := by
    rw [hcomment, List.getElem?_append_right (Nat.le_add_right _ _), Nat.add_sub_cancel_left]
    rfl
  have hdrop : comment.drop (start.length + 3) = value := by
    rw [hcomment, ← List.drop_drop, List.drop_left]
    rfl
  rw [← hcomment, commentValue, hfirst]
  simp only [hat, if_true]
  rw [Nat.mod_eq_of_lt (by omega), hsecond, hdrop]

/-- Without an equals sign there is no value. -/
private theorem commentValue_self {start : Bytes} (hstart : start.length < unsignedValues) :
    commentValue start start.length = [] := by
  have hskip := @skipBlanks_append start [] [] (List.forall_mem_nil _) (by simp)
  rw [List.append_nil, List.append_nil, if_pos hstart] at hskip
  have hnone : start[start.length]? = none := List.getElem?_eq_none (Nat.le_refl _)
  rw [commentValue, hskip]
  simp only [hnone]
  exact if_neg (by simp)

/-- The value of a comment that is written is read. -/
theorem commentValue_written {name value : Bytes} (hname : IsName name)
    (hblank : ∀ c ∈ value.head?, isBlank c = false) :
    commentValue (written name value) (2 + name.length) = value := by
  have hshort := hname.short
  have hlarge : 200 < unsignedValues := by decide
  have hlength : (bytes "# " ++ name).length = 2 + name.length := by
    rw [List.length_append]
    rfl
  unfold written
  rw [← hlength]
  by_cases hvalue : value = []
  · rw [if_pos hvalue, List.append_nil, commentValue_self (by omega), hvalue]
  · rw [if_neg hvalue]
    exact commentValue_append (by omega) hblank

/-- The comment that is written has the key. -/
theorem keyOf_written {name : Bytes} (hname : IsName name) (value : Bytes) :
    keyOf (written name value) = some name := by
  have hskip : ((space :: name) ++ if value = [] then [] else bytes " = " ++ value).dropWhile
      isBlank = name ++ if value = [] then [] else bytes " = " ++ value := by
    obtain ⟨c, tail, hcons⟩ := List.exists_cons_of_ne_nil hname.ne_nil
    have hc := (hname.head_not c (by rw [hcons]; exact Option.mem_some.mpr rfl)).1
    have hspace : isBlank space = true := by decide
    rw [hcons, List.cons_append, List.dropWhile_cons_of_pos hspace, List.cons_append,
      List.dropWhile_cons_of_neg (by simp [hc])]
  have hend : ((if value = [] then [] else bytes " = " ++ value).takeWhile
      (· != equals)).rdropWhile isBlank = [] := by
    by_cases hvalue : value = []
    · rw [if_pos hvalue]
      rfl
    · have htake : (bytes " = " ++ value).takeWhile (· != equals) = [space] := by
        change ((space :: equals :: space :: value).takeWhile (· != equals)) = [space]
        rw [List.takeWhile_cons_of_pos (by decide), List.takeWhile_cons_of_neg (by decide)]
      rw [if_neg hvalue, htake]
      decide
  have hcomment : written name value =
      hash :: ((space :: name) ++ if value = [] then [] else bytes " = " ++ value) := rfl
  rw [hcomment, keyOf, hskip, takeWhile_name hname.equals_notMem,
    rdropWhile_append hname.last_not, hend, List.append_nil]
  rfl

/-- When no comment begins with the name, `set_comment` only adds one. -/
theorem comments_setComment {s : Sentence} {name value : Bytes}
    (hnone : ∀ comment ∈ s.comments, commentAfter name comment = none)
    (hends : ∀ c ∈ value, isLineEnd c = false) :
    (s.setComment name value).comments = s.comments ++ [written name value] := by
  have hvalue : (value.map fun c => if isLineEnd c then space else c) = value := by
    conv_rhs => rw [← List.map_id value]
    apply List.map_congr_left
    intro c hc
    rw [hends c hc]
    rfl
  simp only [setComment, removeComment_eq_self hnone, hvalue, written]
  by_cases hempty : value = [] <;> simp [hempty]

/-- After a comment was added, its name is read from it. -/
theorem getComment_append {s : Sentence} {comments : List Bytes} {name comment : Bytes}
    (hs : s.comments = comments ++ [comment])
    (hnone : ∀ comment ∈ comments, commentAfter name comment = none) :
    s.getComment name = (commentAfter name comment).map (commentValue comment) := by
  have hfind : (comments.findSome? fun comment =>
      (commentAfter name comment).map (commentValue comment)) = none :=
    List.findSome?_eq_none_iff.mpr fun comment hmem => by rw [hnone comment hmem]; rfl
  rw [getComment, hs, List.findSome?_append, hfind, Option.none_or, List.findSome?_cons,
    List.findSome?_nil]
  cases commentAfter name comment <;> rfl

/-- Removing a longer name after the shorter one finds nothing more. -/
private theorem removeComment_removeComment (s : Sentence) {name name' : Bytes}
    (hnames : name <+: name') :
    (s.removeComment name).removeComment name' = s.removeComment name := by
  obtain ⟨kept, hkept⟩ : ∃ kept, kept = (s.comments.take
      (s.comments.length % unsignedValues)).filter fun comment =>
        (commentAfter name comment).isNone := ⟨_, rfl⟩
  obtain ⟨rest, hrest⟩ : ∃ rest, rest = s.comments.drop (s.comments.length % unsignedValues) :=
    ⟨_, rfl⟩
  have hcomments : (s.removeComment name).comments = kept ++ rest := by
    rw [hkept, hrest]
    rfl
  -- the comments beyond the counter are a multiple of its values, so it stops at them again
  have hcount : (kept ++ rest).length % unsignedValues = kept.length := by
    have hle : kept.length ≤ s.comments.length % unsignedValues := by
      rw [hkept]
      exact (List.length_filter_le _ _).trans (List.length_take_le _ _)
    have hlt := mod_unsignedValues_lt s.comments.length
    have hdiv := Nat.mod_add_div s.comments.length unsignedValues
    have hlength : rest.length = unsignedValues * (s.comments.length / unsignedValues) := by
      rw [hrest, List.length_drop]
      omega
    rw [List.length_append, hlength, Nat.add_mul_mod_self_left, Nat.mod_eq_of_lt (by omega)]
  have hagain : (kept.filter fun comment => (commentAfter name' comment).isNone) = kept := by
    rw [List.filter_eq_self]
    intro comment hmem
    rw [hkept] at hmem
    have hnone := (List.mem_filter.mp hmem).2
    rw [← Option.not_isSome, Bool.not_eq_true', ← Bool.not_eq_true] at hnone ⊢
    intro hsome
    obtain ⟨hhash, hstart⟩ := isSome_commentAfter.mp hsome
    exact hnone (isSome_commentAfter.mpr ⟨hhash, hnames.trans hstart⟩)
  rw [removeComment, hcomments, hcount, List.take_left, List.drop_left, hagain, ← hcomments]

/-- Removing removes the shorter name. -/
theorem remove_eq (s : Sentence) (key : CommentKey) : key.remove s = s.removeComment key.base := by
  cases key with
  | newDoc => exact removeComment_removeComment s ⟨bytes " id", by decide⟩
  | newPar => exact removeComment_removeComment s ⟨bytes " id", by decide⟩
  | sentId | text => rfl

/-- The name a value is written with. -/
def valueName : CommentKey → Bytes
  | newDoc => bytes "newdoc id"
  | newPar => bytes "newpar id"
  | sentId => bytes "sent_id"
  | text => bytes "text"

/-- The name that is written with a value is one of the names. -/
theorem valueName_mem (key : CommentKey) : key.valueName ∈ key.names := by
  cases key <;> decide

/-- Setting a value writes it after removing. -/
theorem set_eq (s : Sentence) (key : CommentKey) {value : Bytes} (hvalue : value ≠ []) :
    key.set s value = (key.remove s).setComment key.valueName value := by
  cases key <;>
    simp [set, remove, valueName, setNewDoc, setNewPar, setSentId, setText, hvalue]

/-- A mark without a value is written after removing, under the shorter name. -/
theorem mark_eq {s marked : Sentence} {key : CommentKey} (h : marked ∈ key.mark s) :
    ∃ name ∈ key.names, marked = (key.remove s).setComment name ∧
      (∀ n ∈ key.names, n ≠ name → commentAfter n (written name []) = none) ∧
      ∀ s' : Sentence, (∀ n ∈ key.names, n ≠ name → s'.getComment n = none) →
        key.get s' = s'.getComment name := by
  cases key with
  | newDoc =>
    obtain rfl := Option.mem_some.mp h
    refine ⟨bytes "newdoc", by decide, rfl, by decide, fun s' hother => ?_⟩
    have hid := hother (bytes "newdoc id") (by decide) (by decide)
    exact (congrArg (·.or (s'.getComment (bytes "newdoc"))) hid).trans (Option.none_or ..)
  | newPar =>
    obtain rfl := Option.mem_some.mp h
    refine ⟨bytes "newpar", by decide, rfl, by decide, fun s' hother => ?_⟩
    have hid := hother (bytes "newpar id") (by decide) (by decide)
    exact (congrArg (·.or (s'.getComment (bytes "newpar"))) hid).trans (Option.none_or ..)
  | sentId | text => cases h

/-- A value under its own name is found first. -/
theorem get_of_value {s : Sentence} {key : CommentKey} {value : Bytes}
    (h : s.getComment key.valueName = some value) : key.get s = some value := by
  cases key with
  | newDoc => exact (congrArg (·.or (s.getComment (bytes "newdoc"))) h).trans (Option.some_or ..)
  | newPar => exact (congrArg (·.or (s.getComment (bytes "newpar"))) h).trans (Option.some_or ..)
  | sentId | text => exact h

/-- Nothing is read exactly if no comment begins with the shorter name. -/
theorem get_eq_none_iff {s : Sentence} {key : CommentKey} :
    key.get s = none ↔ ∀ comment ∈ s.comments, commentAfter key.base comment = none := by
  have hget : ∀ name, s.getComment name = none ↔
      ∀ comment ∈ s.comments, commentAfter name comment = none := by
    intro name
    rw [getComment, List.findSome?_eq_none_iff]
    exact forall₂_congr fun comment _ => Option.map_eq_none_iff
  have hmark : ∀ name, name = key.base → name ++ bytes " id" ∈ key.names →
      (s.getMark name = none ↔ ∀ comment ∈ s.comments, commentAfter key.base comment = none) := by
    rintro name rfl hlong
    rw [getMark, Option.or_eq_none_iff, hget, hget, and_iff_right_iff_imp]
    intro hnone comment hmem
    rw [← Option.not_isSome_iff_eq_none]
    intro hsome
    have hbase := isSome_base hlong hsome
    rw [hnone comment hmem] at hbase
    cases hbase
  cases key with
  | newDoc => exact hmark (bytes "newdoc") rfl (by decide)
  | newPar => exact hmark (bytes "newpar") rfl (by decide)
  | sentId => exact hget (bytes "sent_id")
  | text => exact hget (bytes "text")

/-- The comments of other keys are left exactly if names decide keys and the comments of the
key are all counted. -/
theorem removes_iff {s : Sentence} {key : CommentKey} :
    key.get (key.remove s) = none ∧ (key.remove s).comments = key.others s ↔
      (∀ comment ∈ s.comments, (commentAfter key.base comment).isSome ↔ key.Has comment) ∧
        ∀ comment ∈ s.comments.drop (s.comments.length % unsignedValues), ¬ key.Has comment := by
  rw [get_eq_none_iff, remove_eq]
  constructor
  · rintro ⟨hnone, hcomments⟩
    have hnot : ∀ comment ∈ (s.removeComment key.base).comments, ¬ key.Has comment := by
      intro comment hmem
      rw [hcomments] at hmem
      simpa using (List.mem_filter.mp hmem).2
    refine ⟨fun comment hmem => ⟨fun hsome => ?_, fun hhas => ?_⟩, fun comment hmem =>
      hnot comment (List.mem_append_right _ hmem)⟩
    · by_contra hother
      have hleft : comment ∈ (s.removeComment key.base).comments := by
        rw [hcomments]
        exact List.mem_filter.mpr ⟨hmem, by simpa using hother⟩
      rw [hnone comment hleft] at hsome
      cases hsome
    · by_contra hsome
      exact hnot comment (mem_removeComment hmem (by simpa using hsome)) hhas
  · rintro ⟨hbegins, hcounted⟩
    have hcomments : (s.removeComment key.base).comments = key.others s := by
      have hfirst : ((s.comments.take (s.comments.length % unsignedValues)).filter fun comment =>
          (commentAfter key.base comment).isNone) =
            (s.comments.take (s.comments.length % unsignedValues)).filter fun comment =>
              ¬ key.Has comment := by
        apply List.filter_congr
        intro comment hmem
        rw [Bool.eq_iff_iff, decide_eq_true_iff, ← hbegins comment (List.mem_of_mem_take hmem)]
        simp
      have hrest : ((s.comments.drop (s.comments.length % unsignedValues)).filter fun comment =>
          ¬ key.Has comment) = s.comments.drop (s.comments.length % unsignedValues) :=
        List.filter_eq_self.mpr fun comment hmem => by simpa using hcounted comment hmem
      rw [others, removeComment]
      conv_rhs => rw [← List.take_append_drop (s.comments.length % unsignedValues) s.comments,
        List.filter_append, hrest]
      exact congrArg (· ++ _) hfirst
    refine ⟨fun comment hmem => ?_, hcomments⟩
    rw [hcomments] at hmem
    obtain ⟨hmem, hnot⟩ := List.mem_filter.mp hmem
    rw [← Option.not_isSome_iff_eq_none]
    exact fun hsome => (of_decide_eq_true hnot) ((hbegins comment hmem).mp hsome)

/-- A comment written after removing is the last one, has the key and is read back. -/
private theorem write_spec {s : Sentence} {key : CommentKey} (h : key.Separate s)
    {name value : Bytes} (hname : name ∈ key.names) (hends : ∀ c ∈ value, isLineEnd c = false)
    (hblank : ∀ c ∈ value.head?, isBlank c = false) :
    ((key.remove s).setComment name value).comments = key.others s ++ [written name value] ∧
      key.Has (written name value) ∧
      (∀ n ∈ key.names, ∀ comment ∈ key.others s, commentAfter n comment = none) ∧
      ((key.remove s).setComment name value).getComment name = some value := by
  obtain ⟨hget, hremoved⟩ := removes_iff.mpr ⟨h.begins, h.counted⟩
  have hnone : ∀ n ∈ key.names, ∀ comment ∈ key.others s, commentAfter n comment = none := by
    intro n hn comment hmem
    rw [← hremoved] at hmem
    rw [← Option.not_isSome_iff_eq_none]
    intro hsome
    have hbase := isSome_base hn hsome
    rw [get_eq_none_iff.mp hget comment hmem] at hbase
    cases hbase
  have hcomments : ((key.remove s).setComment name value).comments =
      key.others s ++ [written name value] := by
    rw [comments_setComment (by rw [hremoved]; exact hnone name hname) hends, hremoved]
  have hplain := isName_of_mem name hname
  refine ⟨hcomments, ⟨name, hname, keyOf_written hplain value⟩, hnone, ?_⟩
  rw [getComment_append hcomments (hnone name hname), commentAfter_written hplain,
    Option.map_some, commentValue_written hplain hblank]

/-- The functions of a key read and change exactly its comments if and only if the comments
that begin with a name of the key are those that have it, within what the counters reach. -/
theorem laws_iff (s : Sentence) (key : CommentKey) : key.Laws s ↔ key.Separate s := by
  constructor
  · intro h
    obtain ⟨hbegins, hcounted⟩ := removes_iff.mp h.removes
    exact ⟨hbegins, hcounted, (get_eq_valueIn_iff hbegins).mp h.reads⟩
  · intro h
    refine ⟨(get_eq_valueIn_iff h.begins).mpr h.value, fun value hvalue hends hblank => ?_,
      fun marked hmarked => ?_, removes_iff.mpr ⟨h.begins, h.counted⟩⟩
    · obtain ⟨hcomments, hhas, _, hget⟩ := write_spec h key.valueName_mem hends hblank
      rw [set_eq s key hvalue]
      exact ⟨get_of_value hget, _, hhas, hcomments⟩
    · obtain ⟨name, hname, rfl, hother, hread⟩ := mark_eq hmarked
      obtain ⟨hcomments, hhas, hnone, hget⟩ :=
        @write_spec s key h name [] hname (by simp) (by simp)
      refine ⟨?_, _, hhas, hcomments⟩
      rw [hread, hget]
      intro n hn hne
      rw [getComment_append hcomments (hnone n hn), hother n hn hne, Option.map_none]

/-- A comment with the text in English is lost when the text is removed. -/
theorem not_laws_englishText :
    ¬ CommentKey.text.Laws { words := [rootWord], comments := [bytes "# text_en = Hi"] } :=
  fun h => absurd h.removes.2 (by decide)

end CommentKey

end UDPipe.Sentence
