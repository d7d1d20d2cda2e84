import UDPipe.LineFormats.Blocks

/-!
# Reading back horizontal and vertical output

The classes `output_format_horizontal` and `output_format_vertical` of
`sentence/output_format.cpp`. Both write the lines of a sentence after an empty line if
a paragraph begins. The readers meet the same events in both outputs: a line end that
counts for the empty line, the sentence, and a line end after it.
-/

namespace UDPipe.LineFormats

open Sentence (isBlank)

/-- The members of both writers. -/
structure Writer where
  paragraphs : Bool
  empty : Bool := true
  deriving DecidableEq, Repr

/-- A document or a paragraph begins. -/
def begins (s : Sentence) : Bool := s.getNewDoc || s.getNewPar

/-- The forms of the words without the root. -/
def wordForms (s : Sentence) : List Bytes := (s.words.drop 1).map (·.form)

/-- The condition under which both writers write an empty line first. -/
def Writer.separates (w : Writer) (s : Sentence) : Bool := w.paragraphs && !w.empty && begins s

/-- `write_sentence`, which differs in the lines of the words. -/
def Writer.writeSentence (wordLines : List Bytes → Bytes) (w : Writer) (s : Sentence) :
    Bytes × Writer :=
  ((if w.separates s then [lf] else []) ++ wordLines (wordForms s) ++ [lf],
    { w with empty := false })

namespace Horizontal

/-- The spaces of a form become no-break spaces. -/
def encodeForm (form : Bytes) : Bytes :=
  form.flatMap fun c => if c = space then [0xC2, 0xA0] else [c]

/-- The words on one line. -/
def wordLines (forms : List Bytes) : Bytes := [space].intercalate (forms.map encodeForm)

/-- `output_format_horizontal::write_sentence`. -/
def writeSentence : Writer → Sentence → Bytes × Writer := Writer.writeSentence wordLines

end Horizontal

namespace Vertical

/-- Each word on its line. -/
def wordLines (forms : List Bytes) : Bytes := joinLines forms

/-- `output_format_vertical::write_sentence`. -/
def writeSentence : Writer → Sentence → Bytes × Writer := Writer.writeSentence wordLines

end Vertical

/-- The writer of a format. -/
def Format.writeSentence : Format → Writer → Sentence → Bytes × Writer
  | horizontal => Horizontal.writeSentence
  | vertical => Vertical.writeSentence

/-- Write some sentences. -/
def Format.write (format : Format) : Writer → List Sentence → Bytes
  | _, [] => []
  | w, s :: sentences =>
    (format.writeSentence w s).1 ++ format.write (format.writeSentence w s).2 sentences

/-- A sentence that a format can hold: it has words, their forms are not empty and have
no tab and no line end, and no no-break space in the horizontal format. -/
structure Format.Holds (format : Format) (s : Sentence) : Prop where
  wordForms_ne_nil : wordForms s ≠ []
  form_ne_nil : ∀ form ∈ wordForms s, form ≠ []
  form_plain : ∀ form ∈ wordForms s, ∀ c ∈ form, c ≠ tab ∧ c ≠ cr ∧ c ≠ lf
  form_nbsp : format = .horizontal → ∀ form ∈ wordForms s, ¬ [0xC2, 0xA0] <:+: form

/-- The sentences that were read are those that were written. -/
structure ReadsBack (written read : List Sentence) : Prop where
  forms : read.map wordForms = written.map wordForms
  first : ∀ s ∈ read.head?, s.getNewDoc = true ∧ s.getNewPar = true
  later : List.Forall₂ (fun s r => r.getNewDoc = false ∧ r.getNewPar = (s.getNewDoc || s.getNewPar))
    written.tail read.tail

/-! ### Events of the output -/

/-- The events of one sentence. -/
def writtenEvents (separated : Bool) (forms : List Bytes) : List Event :=
  (if separated then [.newline] else []) ++ [.sentence forms, .newline]

/-- The events of the output. -/
def Writer.events : Writer → List Sentence → List Event
  | _, [] => []
  | w, s :: sentences =>
    writtenEvents (w.separates s) (wordForms s) ++ Writer.events { w with empty := false } sentences

namespace Horizontal

/-- An encoded form is clean. -/
theorem clean_encodeForm {form : Bytes} (h : Clean form) : Clean (encodeForm form) := by
  intro c hc
  obtain ⟨d, hd, hc⟩ := List.mem_flatMap.mp hc
  split at hc
  · simp only [List.mem_cons, List.not_mem_nil, or_false] at hc
    rcases hc with rfl | rfl <;> decide
  · rw [List.mem_singleton.mp hc]
    exact h d hd

/-- An encoded form has no blank. -/
theorem not_isBlank_encodeForm {form : Bytes} (h : tab ∉ form) :
    ∀ c ∈ encodeForm form, isBlank c = false := by
  intro c hc
  obtain ⟨d, hd, hc⟩ := List.mem_flatMap.mp hc
  split at hc
  · simp only [List.mem_cons, List.not_mem_nil, or_false] at hc
    rcases hc with rfl | rfl <;> decide
  · rename_i hspace
    have htab : d ≠ tab := ne_of_mem_of_not_mem hd h
    rw [List.mem_singleton.mp hc]
    simp [isBlank, hspace, htab]

/-- The loop undoes the encoding, after bytes that it has kept. -/
private theorem foldl_nbspStep_encodeForm {kept form : Bytes}
    (h : ¬ [0xC2, 0xA0] <:+: kept ++ form) :
    (encodeForm form).foldl nbspStep kept = kept ++ form := by
  induction form generalizing kept with
  | nil => simp [encodeForm]
  | cons c form ih =>
    have hrest : ¬ [0xC2, 0xA0] <:+: (kept ++ [c]) ++ form := by
      simpa using h
    have hencode : encodeForm (c :: form) =
        (if c = space then [0xC2, 0xA0] else [c]) ++ encodeForm form := rfl
    rw [hencode, List.foldl_append]
    by_cases hspace : c = space
    · have hpair : [0xC2, 0xA0].foldl nbspStep kept = kept ++ [space] := by
        simp [nbspStep]
      rw [if_pos hspace, hpair, ← hspace, ih hrest]
      simp
    · have hkeep : nbspStep kept c = kept ++ [c] := by
        rw [nbspStep, if_neg]
        rintro ⟨hlast, rfl⟩
        obtain ⟨before, rfl⟩ := List.getLast?_eq_some_iff.mp hlast
        exact h ⟨before, form, by simp⟩
      rw [if_neg hspace, List.foldl_cons, List.foldl_nil, hkeep, ih hrest]
      simp

/-- A form without no-break spaces is read as it was. -/
theorem replaceNbsp_encodeForm {form : Bytes} (h : ¬ [0xC2, 0xA0] <:+: form) :
    replaceNbsp (encodeForm form) = form := by
  rw [replaceNbsp]
  split
  · exact foldl_nbspStep_encodeForm h
  · rename_i hnone
    have hspace : ∀ c ∈ form, c ≠ space := by
      rintro c hc rfl
      obtain ⟨before, after, rfl⟩ := List.append_of_mem hc
      exact hnone ⟨encodeForm before, encodeForm after, by simp [encodeForm]⟩
    have hsame : ∀ c ∈ form, (if c = space then [0xC2, 0xA0] else [c]) = [c] := fun c hc =>
      if_neg (hspace c hc)
    rw [encodeForm, List.flatMap_congr hsame, List.flatMap_singleton']

/-- The first form, and a space before the others. -/
theorem wordLines_cons (form : Bytes) (forms : List Bytes) :
    wordLines (form :: forms) =
      encodeForm form ++ if forms = [] then [] else space :: wordLines forms := by
  cases forms with
  | nil => simp [wordLines]
  | cons second forms => simp [wordLines, List.intercalate_cons_cons]

/-- The line of some words gives their forms. -/
theorem lineForms_wordLines {forms : List Bytes} (hne : ∀ form ∈ forms, form ≠ [])
    (htab : ∀ form ∈ forms, tab ∉ form) (hnbsp : ∀ form ∈ forms, ¬ [0xC2, 0xA0] <:+: form) :
    lineForms (wordLines forms) = forms := by
  induction forms with
  | nil => exact lineForms_nil
  | cons form forms ih =>
    obtain ⟨hne_form, hne⟩ := List.forall_mem_cons.mp hne
    obtain ⟨htab_form, htab⟩ := List.forall_mem_cons.mp htab
    obtain ⟨hnbsp_form, hnbsp⟩ := List.forall_mem_cons.mp hnbsp
    have hencode : encodeForm form ≠ [] := by
      obtain ⟨c, rest, rfl⟩ := List.exists_cons_of_ne_nil hne_form
      simp only [encodeForm, List.flatMap_cons, ne_eq, List.append_eq_nil_iff, not_and]
      intro hnil
      split at hnil <;> cases hnil
    rw [wordLines_cons, lineForms_append (not_isBlank_encodeForm htab_form) hencode,
      replaceNbsp_encodeForm hnbsp_form]
    · split
      · rename_i hnil
        rw [hnil, lineForms_nil]
      · rw [lineForms_blank rfl, ih hne htab hnbsp]
    · split
      · exact fun _ h => by cases h
      · rintro c ⟨⟩
        rfl

/-- The forms of a sentence make a clean line. -/
theorem clean_wordLines {forms : List Bytes} (h : ∀ form ∈ forms, Clean form) :
    Clean (wordLines forms) := by
  induction forms with
  | nil => exact fun _ hc => by cases hc
  | cons form forms ih =>
    obtain ⟨hform, hforms⟩ := List.forall_mem_cons.mp h
    rw [wordLines_cons]
    refine List.forall_mem_append.mpr ⟨clean_encodeForm hform, ?_⟩
    split
    · exact fun _ hc => by cases hc
    · exact List.forall_mem_cons.mpr ⟨rfl, ih hforms⟩

end Horizontal

namespace Vertical

/-- A form in a line of its own. -/
theorem lineForms_form {form : Bytes} (hne : form ≠ []) (htab : tab ∉ form) :
    lineForms form = [form] := by
  have hall : ∀ c ∈ form, (c != tab) = true := fun c hc =>
    bne_iff_ne.mpr (ne_of_mem_of_not_mem hc htab)
  have hdrop : dropTabs form = form := by
    obtain ⟨c, rest, rfl⟩ := List.exists_cons_of_ne_nil hne
    have hc := hall c (List.mem_cons_self ..)
    exact List.dropWhile_cons_of_neg (by simpa using hc)
  rw [lineForms, ← dropTabs, hdrop, List.takeWhile_eq_self_iff.mpr hall, if_neg hne]

/-- The lines of some words give one sentence. -/
theorem events_forms {forms : List Bytes} (hne : ∀ form ∈ forms, form ≠ [])
    (htab : ∀ form ∈ forms, tab ∉ form) (before : List Bytes) :
    events [] before (forms ++ [[]]) = sentenceOf (before ++ forms) ++ [.newline] := by
  induction forms generalizing before with
  | nil => simp [events, lineForms_nil, sentenceOf]
  | cons form forms ih =>
    obtain ⟨hne_form, hne⟩ := List.forall_mem_cons.mp hne
    obtain ⟨htab_form, htab⟩ := List.forall_mem_cons.mp htab
    rw [List.cons_append, events, lineForms_form hne_form htab_form,
      if_neg (List.cons_ne_nil _ _), ih hne htab, List.append_assoc]
    rfl

end Vertical

/-! ### Lines of the output -/

/-- The lines of a sentence in a format. -/
def Format.sentenceLines : Format → List Bytes → List Bytes
  | horizontal, forms => [Horizontal.wordLines forms]
  | vertical, forms => forms ++ [[]]

/-- The lines that are written. -/
def Format.lines (format : Format) : Writer → List Sentence → List Bytes
  | _, [] => []
  | w, s :: sentences =>
    (if w.separates s then [[]] else []) ++ format.sentenceLines (wordForms s) ++
      format.lines { w with empty := false } sentences

/-- What is written are the lines. -/
theorem write_eq_joinLines (format : Format) (w : Writer) (sentences : List Sentence) :
    format.write w sentences = joinLines (format.lines w sentences) := by
  induction sentences generalizing w with
  | nil => rfl
  | cons s sentences ih =>
    have hwriter : (format.writeSentence w s).2 = { w with empty := false } := by
      cases format <;> rfl
    have hsentence : (format.writeSentence w s).1 = joinLines
        ((if w.separates s then [[]] else []) ++ format.sentenceLines (wordForms s)) := by
      cases format with
      | horizontal =>
        rw [Format.writeSentence, Horizontal.writeSentence, Writer.writeSentence]
        split <;> simp [Format.sentenceLines]
      | vertical =>
        rw [Format.writeSentence, Vertical.writeSentence, Writer.writeSentence]
        split <;> simp [Format.sentenceLines, Vertical.wordLines]
    rw [Format.write, Format.lines, joinLines_append, hsentence, hwriter, ih]

/-- The forms of a sentence of the format are clean. -/
theorem Format.Holds.clean {format : Format} {s : Sentence} (h : format.Holds s) :
    ∀ form ∈ wordForms s, Clean form := by
  intro form hform c hc
  obtain ⟨_, hcr, hlf⟩ := h.form_plain form hform c hc
  simp [isLineEnd, hcr, hlf]

/-- The forms of a sentence of the format have no tab. -/
theorem Format.Holds.tab_notMem {format : Format} {s : Sentence} (h : format.Holds s) :
    ∀ form ∈ wordForms s, tab ∉ form := fun form hform hmem =>
  (h.form_plain form hform tab hmem).1 rfl

/-- All lines are clean. -/
theorem clean_lines {format : Format} {sentences : List Sentence}
    (h : ∀ s ∈ sentences, format.Holds s) (w : Writer) :
    ∀ line ∈ format.lines w sentences, Clean line := by
  have hblank : Clean [] := fun _ hc => by cases hc
  induction sentences generalizing w with
  | nil => exact fun _ hline => by cases hline
  | cons s sentences ih =>
    obtain ⟨hs, hsentences⟩ := List.forall_mem_cons.mp h
    have hwords : ∀ line ∈ format.sentenceLines (wordForms s), Clean line := by
      cases format with
      | horizontal =>
        exact List.forall_mem_singleton.mpr (Horizontal.clean_wordLines hs.clean)
      | vertical =>
        exact List.forall_mem_append.mpr ⟨hs.clean, List.forall_mem_singleton.mpr hblank⟩
    refine List.forall_mem_append.mpr ⟨List.forall_mem_append.mpr ⟨?_, hwords⟩, ih hsentences _⟩
    split
    · exact List.forall_mem_singleton.mpr hblank
    · exact fun _ hline => by cases hline

/-- The events of the horizontal lines are those of the writer. -/
theorem horizontal_events {sentences : List Sentence}
    (h : ∀ s ∈ sentences, Format.horizontal.Holds s) (w : Writer) :
    Horizontal.events (Format.horizontal.lines w sentences) [] = w.events sentences := by
  induction sentences generalizing w with
  | nil => rfl
  | cons s sentences ih =>
    obtain ⟨hs, hsentences⟩ := List.forall_mem_cons.mp h
    have hforms := Horizontal.lineForms_wordLines hs.form_ne_nil hs.tab_notMem (hs.form_nbsp rfl)
    have hne := hs.wordForms_ne_nil
    have ih := ih hsentences { w with empty := false }
    rw [Writer.events, ← ih]
    rw [Format.lines, Format.sentenceLines, writtenEvents]
    split <;> simp [Horizontal.events, hforms, sentenceOf, hne]

/-- The events of the vertical lines are those of the writer. -/
theorem vertical_events {sentences : List Sentence}
    (h : ∀ s ∈ sentences, Format.vertical.Holds s) (w : Writer) :
    Vertical.events [] [] (Format.vertical.lines w sentences) = w.events sentences := by
  induction sentences generalizing w with
  | nil => rfl
  | cons s sentences ih =>
    obtain ⟨hs, hsentences⟩ := List.forall_mem_cons.mp h
    have hforms := Vertical.events_forms hs.form_ne_nil hs.tab_notMem []
    have hsentence : sentenceOf (wordForms s) = [.sentence (wordForms s)] :=
      if_neg hs.wordForms_ne_nil
    rw [List.nil_append, hsentence] at hforms
    have hsplit : Format.vertical.lines w (s :: sentences) =
        ((if w.separates s then [[]] else []) ++ wordForms s) ++
          [] :: Format.vertical.lines { w with empty := false } sentences := by
      simp [Format.lines, Format.sentenceLines]
    rw [hsplit, Vertical.events_append_blank, ih hsentences, Writer.events, writtenEvents]
    congr 1
    split
    · rw [List.append_assoc, List.singleton_append, Vertical.events, Vertical.lineForms_nil,
        if_pos rfl, hforms]
      rfl
    · exact hforms

/-! ### Marks of the sentences that are read -/

/-- The comments of a sentence that is marked without a document id. -/
theorem comments_mark {m : Marks} (hid : m.documentId = []) {s : Sentence}
    (hs : s.comments = []) : ∃ sentId, (m.mark s).comments =
      (if m.newDocument then [bytes "# newdoc"] else []) ++
        (if m.preceedingNewlines ≥ 2 then [bytes "# newpar"] else []) ++
          [bytes "# sent_id = " ++ sentId] := by
  refine ⟨(natToString m.sentenceId).map fun c => if isLineEnd c then space else c, ?_⟩
  have hdoc : ∀ s : Sentence, s.comments = [] →
      (s.setNewDoc true []).comments = [bytes "# newdoc"] := by
    intro s hs
    simp only [Sentence.setNewDoc, Sentence.removeComment, Sentence.setComment, hs]
    rfl
  have hpar : ∀ s : Sentence, s.comments = [] ∨ s.comments = [bytes "# newdoc"] →
      (s.setNewPar true).comments = s.comments ++ [bytes "# newpar"] := by
    rintro s (hs | hs)
    · simp only [Sentence.setNewPar, Sentence.removeComment, Sentence.setComment, hs]
      rfl
    · simp only [Sentence.setNewPar, Sentence.removeComment, Sentence.setComment, hs]
      rfl
  have hsentId : ∀ s : Sentence, (∀ comment ∈ s.comments,
        Sentence.commentAfter (bytes "sent_id") comment = none) →
      (s.setSentId (natToString m.sentenceId)).comments = s.comments ++ [bytes "# sent_id = " ++
        (natToString m.sentenceId).map fun c => if isLineEnd c then space else c] := by
    intro s hs
    have hcomment := Sentence.removeComment_eq_self hs
    simp only [Sentence.setSentId, natToString_ne_nil, if_false, Sentence.setComment, hcomment]
    rfl
  obtain ⟨s₁, hs₁⟩ : ∃ s₁, s₁ = if m.newDocument then s.setNewDoc true m.documentId else s :=
    ⟨_, rfl⟩
  have hcomments₁ : s₁.comments = if m.newDocument then [bytes "# newdoc"] else [] := by
    rw [hs₁, hid]
    split
    · exact hdoc s hs
    · exact hs
  have hcases₁ : s₁.comments = [] ∨ s₁.comments = [bytes "# newdoc"] := by
    rw [hcomments₁]
    split
    · exact .inr rfl
    · exact .inl rfl
  obtain ⟨s₂, hs₂⟩ : ∃ s₂, s₂ = if m.preceedingNewlines ≥ 2 then s₁.setNewPar true else s₁ :=
    ⟨_, rfl⟩
  have hcomments₂ : s₂.comments =
      s₁.comments ++ if m.preceedingNewlines ≥ 2 then [bytes "# newpar"] else [] := by
    rw [hs₂]
    split
    · exact hpar s₁ hcases₁
    · exact (List.append_nil _).symm
  have hother : ∀ comment ∈ s₂.comments,
      Sentence.commentAfter (bytes "sent_id") comment = none := by
    have hmarks : ∀ comment ∈ [bytes "# newdoc", bytes "# newpar"],
        Sentence.commentAfter (bytes "sent_id") comment = none := by
      decide
    intro comment hcomment
    apply hmarks
    rw [hcomments₂, hcomments₁] at hcomment
    split at hcomment <;> split at hcomment <;> simp_all
  have hmark : m.mark s = s₂.setSentId (natToString m.sentenceId) := by
    rw [Marks.mark, hs₂, hs₁]
  rw [hmark, hsentId s₂ hother, hcomments₂, hcomments₁]

/-- The marks that are read from a sentence. -/
theorem getMarks_mark {m : Marks} (hid : m.documentId = []) {s : Sentence}
    (hs : s.comments = []) : (m.mark s).getNewDoc = m.newDocument ∧
      (m.mark s).getNewPar = decide (m.preceedingNewlines ≥ 2) := by
  obtain ⟨sentId, hcomments⟩ := comments_mark hid hs
  have hsentId : ∀ name ∈ [bytes "newdoc id", bytes "newdoc", bytes "newpar id", bytes "newpar"],
      Sentence.commentAfter name (bytes "# sent_id = " ++ sentId) = none := by
    intro name hname
    simp only [List.mem_cons, List.not_mem_nil, or_false] at hname
    rcases hname with rfl | rfl | rfl | rfl <;> rfl
  have hdoc := hsentId (bytes "newdoc") (by simp)
  have hdocId := hsentId (bytes "newdoc id") (by simp)
  have hpar := hsentId (bytes "newpar") (by simp)
  have hparId := hsentId (bytes "newpar id") (by simp)
  rw [Sentence.getNewDoc, Sentence.getNewPar]
  simp only [Sentence.isSome_getComment, hcomments, List.any_append, List.any_cons, List.any_nil, hdoc,
    hdocId, hpar, hparId]
  cases m.newDocument <;> by_cases hnewlines : m.preceedingNewlines ≥ 2 <;>
    simp only [hnewlines, if_true, if_false, Bool.false_eq_true] <;> decide

/-- Adding forms keeps the comments. -/
theorem comments_addForms (s : Sentence) (forms : List Bytes) :
    (addForms s forms).comments = s.comments := by
  induction forms generalizing s with
  | nil => rfl
  | cons form forms ih => exact ih (s.addWord form)

/-- Marking a sentence keeps its forms. -/
theorem wordForms_mark (m : Marks) (s : Sentence) : wordForms (m.mark s) = wordForms s := by
  have hwords : (m.mark s).words = s.words := by
    rw [Marks.mark, (Sentence.sameNodes_setSentId _ _).1]
    split
    · rw [(Sentence.sameNodes_setNewPar _ _ _).1]
      split
      · exact (Sentence.sameNodes_setNewDoc _ _ _).1
      · rfl
    · split
      · exact (Sentence.sameNodes_setNewDoc _ _ _).1
      · rfl
  rw [wordForms, wordForms, hwords]

/-- The forms that are added are those of the words. -/
theorem wordForms_addForms (forms : List Bytes) : wordForms (addForms .clear forms) = forms := by
  rw [wordForms, List.map_drop, map_form_addForms]
  rfl

/-- The sentences of the output after the first one. -/
theorem emit_events {m : Marks} (hid : m.documentId = []) (hdoc : m.newDocument = false)
    (hnewlines : m.preceedingNewlines = 1) {w : Writer} (hparagraphs : w.paragraphs = true)
    (hempty : w.empty = false) (sentences : List Sentence) :
    (m.emit (w.events sentences)).1.map wordForms = sentences.map wordForms ∧
      List.Forall₂ (fun s r => r.getNewDoc = false ∧ r.getNewPar = (s.getNewDoc || s.getNewPar))
        sentences (m.emit (w.events sentences)).1 := by
  induction sentences generalizing m with
  | nil => exact ⟨rfl, .nil⟩
  | cons s sentences ih =>
    obtain ⟨m', hm', hnewlines', hemit⟩ : ∃ m' : Marks,
        (m'.documentId = [] ∧ m'.newDocument = false) ∧
        decide (m'.preceedingNewlines ≥ 2) = begins s ∧
        (m.emit (w.events (s :: sentences))).1 = m'.mark (addForms .clear (wordForms s)) ::
          (m'.next.addNewline.emit (w.events sentences)).1 := by
      have hwriter : ({ w with empty := false } : Writer) = w := by rw [← hempty]
      have hseparates : w.separates s = begins s := by
        rw [Writer.separates, hparagraphs, hempty]
        rfl
      cases hbegins : begins s with
      | false =>
        refine ⟨m, ⟨hid, hdoc⟩, by rw [hnewlines]; rfl, ?_⟩
        rw [Writer.events, hwriter, hseparates, hbegins]
        rfl
      | true =>
        refine ⟨m.addNewline, ⟨hid, hdoc⟩, by rw [Marks.addNewline, hnewlines]; rfl, ?_⟩
        rw [Writer.events, hwriter, hseparates, hbegins]
        rfl
    obtain ⟨hforms, hlater⟩ := @ih m'.next.addNewline hm'.1 rfl rfl
    obtain ⟨hgetDoc, hgetPar⟩ := getMarks_mark hm'.1 (comments_addForms .clear (wordForms s))
    rw [hemit]
    refine ⟨?_, .cons ⟨?_, ?_⟩ hlater⟩
    · rw [List.map_cons, List.map_cons, hforms, wordForms_mark, wordForms_addForms]
    · rw [hgetDoc, hm'.2]
    · rw [hgetPar, hnewlines']
      rfl

/-- Output is read back: the same forms, and a new paragraph where one began. -/
theorem readsAll_write {format : Format} {sentences : List Sentence}
    (h : ∀ s ∈ sentences, format.Holds s) : ∃ read state',
    format.reader.ReadsAll
        (format.reader.setText (format.write { paragraphs := true } sentences) {}) read [] state' ∧
      ReadsBack sentences read := by
  obtain ⟨w, hw⟩ : ∃ w : Writer, w = { paragraphs := true } := ⟨_, rfl⟩
  obtain ⟨m, hm⟩ : ∃ m : Marks, m = {} := ⟨_, rfl⟩
  have hread : ∃ state', format.reader.ReadsAll
      (format.reader.setText (format.write w sentences) {}) (m.emit (w.events sentences)).1 []
        state' := by
    have hclean := clean_lines h w
    rw [write_eq_joinLines, ← List.append_nil (joinLines _), hm]
    cases format with
    | horizontal =>
      rw [← horizontal_events h w]
      exact ⟨_, Horizontal.readsAll_events hclean (fun _ hc => by cases hc) {}⟩
    | vertical =>
      rw [← vertical_events h w]
      exact ⟨_, Vertical.readsAll_events hclean (fun _ hc => by cases hc) {}⟩
  obtain ⟨state', hread⟩ := hread
  rw [← hw]
  refine ⟨_, state', hread, ?_⟩
  cases sentences with
  | nil =>
    refine ⟨rfl, ?_, List.Forall₂.nil⟩
    rintro r ⟨⟩
  | cons s sentences =>
    have hemit : (m.emit (w.events (s :: sentences))).1 =
        m.mark (addForms .clear (wordForms s)) ::
          (m.next.addNewline.emit (Writer.events { w with empty := false } sentences)).1 := by
      rw [hw]
      rfl
    obtain ⟨hforms, hlater⟩ := @emit_events m.next.addNewline (by rw [hm]; rfl) rfl rfl
      { w with empty := false } (by rw [hw]) rfl sentences
    have hid : m.documentId = [] := by rw [hm]
    obtain ⟨hgetDoc, hgetPar⟩ := getMarks_mark hid (comments_addForms .clear (wordForms s))
    rw [hemit]
    refine ⟨?_, ?_, hlater⟩
    · rw [List.map_cons, List.map_cons, hforms, wordForms_mark, wordForms_addForms]
    · rintro r ⟨⟩
      rw [hgetDoc, hgetPar, hm]
      exact ⟨rfl, rfl⟩

/-- Two sentences, the second one with a space in a form and a new paragraph. -/
theorem readsAll_write_twoSentences : ∃ read state',
    Format.horizontal.reader.ReadsAll (Format.horizontal.reader.setText
        (Format.horizontal.write { paragraphs := true }
          [addForms .clear [[97]], (addForms .clear [[98, space, 99]]).setNewPar true]) {})
        read [] state' ∧
      ReadsBack [addForms .clear [[97]], (addForms .clear [[98, space, 99]]).setNewPar true]
        read :=
  readsAll_write (by
    have hholds : ∀ (s : Sentence) (form : Bytes), wordForms s = [form] → form ≠ [] →
        (form.all fun c => c != tab && (c != cr && c != lf)) = true →
        ¬ [0xC2, 0xA0] <:+: form → Format.horizontal.Holds s := by
      intro s form hforms hne hall hnbsp
      have hplain : ∀ c ∈ form, c ≠ tab ∧ c ≠ cr ∧ c ≠ lf := by
        simpa using List.all_eq_true.mp hall
      refine ⟨?_, ?_, ?_, fun _ => ?_⟩ <;> rw [hforms]
      · exact List.cons_ne_nil _ _
      · exact List.forall_mem_singleton.mpr hne
      · exact List.forall_mem_singleton.mpr hplain
      · exact List.forall_mem_singleton.mpr hnbsp
    refine List.forall_mem_cons.mpr ⟨?_, List.forall_mem_singleton.mpr ?_⟩
    · exact hholds _ [97] rfl (by decide) (by decide) (by decide)
    · exact hholds _ [98, space, 99] rfl (by decide) (by decide) (by decide))

end UDPipe.LineFormats
