import UDPipe.MiscLaws
import UDPipe.Library.Json

/-!
# The EPE writer

The class `output_format_epe` of `sentence/output_format.cpp`, with its `json_builder`, which
prints a JSON text piece by piece and keeps track of open brackets and of commas. Every
sentence is one line. Control characters that have no escape of their own lose their
backslash, so strings with them come back changed.
-/

namespace UDPipe.Epe

/-! ### The builder -/

/-- The class `json_builder`; the last byte of its stack is the first one here. -/
structure JsonBuilder where
  json : Bytes := []
  stack : Bytes := []
  commaNeeded : Bool := false
  deriving DecidableEq, Repr

namespace JsonBuilder

/-- `comma`. -/
def comma (b : JsonBuilder) : JsonBuilder :=
  { b with json := if b.commaNeeded then b.json ++ bytes ", " else b.json, commaNeeded := false }

/-- The bytes that `string` writes for a byte. -/
def writeChar (c : Byte) : Bytes :=
  if c = 34 then bytes "\\\""
  else if c = 92 then bytes "\\\\"
  else if c = 8 then bytes "\\b"
  else if c = 12 then bytes "\\f"
  else if c = 10 then bytes "\\n"
  else if c = 13 then bytes "\\r"
  else if c = 9 then bytes "\\t"
  else if c < 32 then
    bytes "u00" ++ [UInt8.ofNat (48 + c.toNat / 16),
      (bytes "0123456789ABCDEF").getD (c.toNat % 16) 0]
  else [c]

/-- `string`. -/
def string (str : Bytes) (b : JsonBuilder) : JsonBuilder :=
  { b with json := b.json ++ 34 :: (str.flatMap writeChar ++ [34]) }

/-- The digits of a number from the last one on. -/
def lowDigits (value : ℕ) : Bytes :=
  UInt8.ofNat (48 + value % 10) :: if h : value / 10 = 0 then [] else lowDigits (value / 10)
termination_by value
decreasing_by omega

/-- `number`. -/
def number (value : ℕ) (b : JsonBuilder) : JsonBuilder :=
  { b with json := b.json ++ (lowDigits value).reverse }

/-- The method `object`. -/
def object (b : JsonBuilder) : JsonBuilder :=
  { b.comma with json := b.comma.json ++ [123], stack := 125 :: b.stack }

/-- The method `array`. -/
def array (b : JsonBuilder) : JsonBuilder :=
  { b.comma with json := b.comma.json ++ [91], stack := 93 :: b.stack }

/-- The method `close`. -/
def close (b : JsonBuilder) : JsonBuilder :=
  match b.stack with
  | [] => { b with commaNeeded := true }
  | c :: stack => { json := b.json ++ [c], stack, commaNeeded := true }

/-- The method `key`. -/
def key (name : Bytes) (b : JsonBuilder) : JsonBuilder :=
  { b.comma.string name with json := (b.comma.string name).json ++ [58] }

/-- The method `value` of a string. -/
def value (str : Bytes) (b : JsonBuilder) : JsonBuilder :=
  { b.comma.string str with commaNeeded := true }

/-- `value` of a number. -/
def valueNumber (n : ℕ) (b : JsonBuilder) : JsonBuilder :=
  { b.comma.number n with commaNeeded := true }

/-- `value_true`. -/
def valueTrue (b : JsonBuilder) : JsonBuilder :=
  { b.comma with json := b.comma.json ++ bytes "true", commaNeeded := true }

end JsonBuilder

/-! ### The writer -/

/-- The name and the value of a feature, if the value is not empty. -/
def featureOf (feat : Bytes) : Option (Bytes × Bytes) :=
  let name := feat.takeWhile fun c => c != 61
  if name.length + 1 < feat.length then some (name, feat.drop (name.length + 1)) else none

/-- The pass of the loop for a feature. -/
def writeFeature (b : JsonBuilder) (feat : Bytes) : JsonBuilder :=
  match featureOf feat with
  | some (name, value) => (b.key name).value value
  | none => b

/-- The relation to the head of a child. -/
def deprelOf (s : Sentence) (child : ℤ) : Bytes :=
  ((s.words[child.toNat]?).map fun word => word.deprel).getD []

/-- The pass of the loop for a child. -/
def writeChild (s : Sentence) (b : JsonBuilder) (child : ℤ) : JsonBuilder :=
  ((((b.object.key (bytes "label")).value (deprelOf s child)).key
    (bytes "target")).valueNumber child.toNat).close

/-- The beginning of a word: its id, its form, its range and whether it is a root. -/
def writeHead (i : ℕ) (word : Word) (b : JsonBuilder) : JsonBuilder :=
  let b := ((b.key (bytes "id")).valueNumber i).key (bytes "form") |>.value word.form
  let b :=
    match word.getTokenRange with
    | some (start, stop) =>
      ((b.key (bytes "start")).valueNumber start).key (bytes "end") |>.valueNumber stop
    | none => b
  if word.head = 0 then (b.key (bytes "top")).valueTrue else b

/-- The properties of a word. -/
def writeProperties (word : Word) (b : JsonBuilder) : JsonBuilder :=
  let b := (b.key (bytes "properties")).object
  let b := (b.key (bytes "lemma")).value word.lemma
  let b := (b.key (bytes "upos")).value word.upostag
  let b := (b.key (bytes "xpos")).value word.xpostag
  ((split bar word.feats).foldl writeFeature b).close

/-- The edges to the children of a word. -/
def writeEdges (s : Sentence) (word : Word) (b : JsonBuilder) : JsonBuilder :=
  if word.children = [] then b
  else (word.children.foldl (writeChild s) (b.key (bytes "edges")).array).close

/-- The pass of the loop for a word. -/
def writeWord (s : Sentence) (b : JsonBuilder) (entry : Word × ℕ) : JsonBuilder :=
  (writeEdges s entry.1 (writeProperties entry.1 (writeHead entry.2 entry.1 b.object))).close

/-- The words of a sentence with their indices. -/
def indexedWords (s : Sentence) : List (Word × ℕ) := (s.words.drop 1).zipIdx 1

/-- `write_sentence`, after the given number of sentences; the builder is cleared at its end,
so it begins as a new one. -/
def writeSentence (sentences : ℕ) (s : Sentence) : Bytes × ℕ :=
  let b := ((({} : JsonBuilder).object.key (bytes "id")).valueNumber (sentences + 1)).key
    (bytes "nodes") |>.array
  let b := ((indexedWords s).foldl (writeWord s) b).close.close
  (b.json ++ [lf], sentences + 1)

/-! ### The value of a sentence -/

/-- The nonempty features of a word. -/
def features (feats : Bytes) : List (Bytes × Bytes) := (split bar feats).filterMap featureOf

/-- The members of a word before its properties, with a function applied to its strings. -/
def headMembers (f : Bytes → Bytes) (i : ℕ) (word : Word) : List (Bytes × Json.Value) :=
  [(bytes "id", .number i), (bytes "form", .string (f word.form))] ++
  (match word.getTokenRange with
    | some (start, stop) => [(bytes "start", .number start), (bytes "end", .number stop)]
    | none => []) ++
  if word.head = 0 then [(bytes "top", .bool true)] else []

/-- The members of the properties of a word. -/
def propertyMembers (f : Bytes → Bytes) (word : Word) : List (Bytes × Json.Value) :=
  [(bytes "lemma", .string (f word.lemma)), (bytes "upos", .string (f word.upostag)),
    (bytes "xpos", .string (f word.xpostag))] ++
  (features word.feats).map fun feature => (f feature.1, .string (f feature.2))

/-- The value of the edge to a child. -/
def edgeValue (f : Bytes → Bytes) (s : Sentence) (child : ℤ) : Json.Value :=
  .object [(bytes "label", .string (f (deprelOf s child))),
    (bytes "target", .number child.toNat)]

/-- The member with the edges of a word, if it has children. -/
def edgeMembers (f : Bytes → Bytes) (s : Sentence) (word : Word) : List (Bytes × Json.Value) :=
  if word.children = [] then []
  else [(bytes "edges", .array (word.children.map (edgeValue f s)))]

/-- The value of a word. -/
def wordValue (f : Bytes → Bytes) (s : Sentence) (entry : Word × ℕ) : Json.Value :=
  .object <| headMembers f entry.2 entry.1 ++
    (bytes "properties", .object (propertyMembers f entry.1)) :: edgeMembers f s entry.1

/-- The value of a sentence, with a function applied to its strings: one node for each word,
with its properties and the edges to its children. -/
def sentenceValue (f : Bytes → Bytes) (id : ℕ) (s : Sentence) : Json.Value :=
  .object [(bytes "id", .number id),
    (bytes "nodes", .array ((indexedWords s).map (wordValue f s)))]

/-- The strings of a word that are written. -/
def wordTexts (s : Sentence) (word : Word) : List Bytes :=
  [word.form, word.lemma, word.upostag, word.xpostag] ++
    ((features word.feats).flatMap fun feature => [feature.1, feature.2]) ++
    word.children.map (deprelOf s)

/-- The strings of a sentence that are written. -/
def writtenTexts (s : Sentence) : List Bytes := (s.words.drop 1).flatMap (wordTexts s)

/-- The line of a sentence is one JSON value, which decodes to the value of the sentence. -/
def DecodesBack (sentences : ℕ) (s : Sentence) : Prop :=
  ∃ line, (writeSentence sentences s).1 = line ++ [lf] ∧ lf ∉ line ∧
    Json.decode line = some (sentenceValue id (sentences + 1) s)

/-- A control character without an escape of its own. -/
def isBareControl (c : Byte) : Bool :=
  c < 32 && c != 8 && c != 12 && c != 10 && c != 13 && c != 9

/-! ### What the builder prints -/

/-- What a byte becomes when it is written and read again. -/
def readBackChar (c : Byte) : Bytes :=
  if isBareControl c then
    bytes "u00" ++ [UInt8.ofNat (48 + c.toNat / 16),
      (bytes "0123456789ABCDEF").getD (c.toNat % 16) 0]
  else [c]

/-- What a string becomes when it is written and read again. -/
def readBack (str : Bytes) : Bytes := str.flatMap readBackChar

/-- The digits after the missing backslash need no escapes. -/
theorem escape_control : ∀ n : ℕ, n < 32 →
    (bytes "u00" ++ [UInt8.ofNat (48 + n / 16),
      (bytes "0123456789ABCDEF").getD (n % 16) 0]).flatMap Json.escape =
    bytes "u00" ++ [UInt8.ofNat (48 + n / 16), (bytes "0123456789ABCDEF").getD (n % 16) 0] := by
  decide

/-- A character is written as the escaped text that is read back. -/
theorem writeChar_eq (c : Byte) :
    JsonBuilder.writeChar c = (readBackChar c).flatMap Json.escape := by
  have hcontrol : isBareControl c = true ↔
      c < 32 ∧ c ≠ 8 ∧ c ≠ 12 ∧ c ≠ 10 ∧ c ≠ 13 ∧ c ≠ 9 := by
    simp only [isBareControl, Bool.and_eq_true, bne_iff_ne, decide_eq_true_eq, and_assoc]
  by_cases h : isBareControl c = true
  · obtain ⟨hlt, h₈, h₁₂, h₁₀, h₁₃, h₉⟩ := hcontrol.mp h
    have h₃₄ : c ≠ 34 := by
      rintro rfl
      exact absurd hlt (by decide)
    have h₉₂ : c ≠ 92 := by
      rintro rfl
      exact absurd hlt (by decide)
    rw [readBackChar, if_pos h, escape_control _ (UInt8.lt_iff_toNat_lt.mp hlt),
      JsonBuilder.writeChar, if_neg h₃₄, if_neg h₉₂, if_neg h₈, if_neg h₁₂, if_neg h₁₀, if_neg h₁₃,
      if_neg h₉, if_pos hlt]
  · rw [readBackChar, if_neg h, List.flatMap_singleton]
    unfold JsonBuilder.writeChar Json.escape
    refine ite_congr rfl (fun _ => rfl) fun _ => ?_
    refine ite_congr rfl (fun _ => rfl) fun _ => ?_
    refine ite_congr rfl (fun _ => rfl) fun h₈ => ?_
    refine ite_congr rfl (fun _ => rfl) fun h₁₂ => ?_
    refine ite_congr rfl (fun _ => rfl) fun h₁₀ => ?_
    refine ite_congr rfl (fun _ => rfl) fun h₁₃ => ?_
    refine ite_congr rfl (fun _ => rfl) fun h₉ => ?_
    have hlt : ¬ c < 32 := fun hlt => h (hcontrol.mpr ⟨hlt, h₈, h₁₂, h₁₀, h₁₃, h₉⟩)
    rw [if_neg hlt, if_neg hlt]

/-- The digits of a number, from the last one on. -/
theorem lowDigits_eq (value : ℕ) : (JsonBuilder.lowDigits value).reverse =
    Json.printNumber value := by
  have hdigits : ∀ value : ℕ, value ≠ 0 →
      JsonBuilder.lowDigits value = (Nat.digits 10 value).map Json.digit := by
    intro value
    induction value using JsonBuilder.lowDigits.induct with
    | case1 value ih =>
      intro hne
      rw [JsonBuilder.lowDigits, Nat.digits_def' (by decide) (Nat.pos_of_ne_zero hne)]
      by_cases hlast : value / 10 = 0
      · rw [dif_pos hlast, hlast, Nat.digits_zero]
        rfl
      · rw [dif_neg hlast, ih hlast hlast]
        rfl
  by_cases hzero : value = 0
  · subst hzero
    rw [JsonBuilder.lowDigits, dif_pos rfl]
    rfl
  · rw [hdigits value hzero, Json.printNumber, if_neg hzero, List.map_reverse]

namespace JsonBuilder

/-- What is written before the next part. -/
def separator (b : JsonBuilder) : Bytes := if b.commaNeeded then bytes ", " else []

/-- The builder after one more item. -/
def addItem (v : Json.Value) (b : JsonBuilder) : JsonBuilder :=
  { b with json := b.json ++ b.separator ++ Json.print v, commaNeeded := true }

/-- The builder after one more member. -/
def addMember (b : JsonBuilder) (member : Bytes × Json.Value) : JsonBuilder :=
  { b with
    json := b.json ++ b.separator ++ Json.printString member.1 ++ 58 :: Json.print member.2
    commaNeeded := true }

/-- The comma before an item. -/
theorem comma_eq (b : JsonBuilder) :
    b.comma = { b with json := b.json ++ b.separator, commaNeeded := false } := by
  unfold comma separator
  cases b.commaNeeded <;> simp

/-- A string is written with a comma before it, if needed. -/
theorem string_eq (str : Bytes) (b : JsonBuilder) :
    b.string str = { b with json := b.json ++ Json.printString (readBack str) } := by
  have htext : str.flatMap writeChar = (readBack str).flatMap Json.escape := by
    rw [readBack, List.flatMap_assoc]
    exact List.flatMap_congr fun c _ => writeChar_eq c
  rw [string, htext]
  rfl

/-- A string value is an item. -/
theorem value_eq (str : Bytes) (b : JsonBuilder) :
    b.value str = b.addItem (.string (readBack str)) := by
  rw [value, string_eq, comma_eq, addItem, Json.print]

/-- A number is an item. -/
theorem valueNumber_eq (n : ℕ) (b : JsonBuilder) : b.valueNumber n = b.addItem (.number n) := by
  rw [valueNumber, number, comma_eq, lowDigits_eq, addItem, Json.print]

/-- `true` is an item. -/
theorem valueTrue_eq (b : JsonBuilder) : b.valueTrue = b.addItem (.bool true) := by
  rw [valueTrue, comma_eq, addItem, Json.print]
  rfl

/-- A key and the value after it are a member. -/
theorem addItem_key (name : Bytes) (v : Json.Value) (b : JsonBuilder) :
    (b.key name).addItem v = b.addMember (readBack name, v) := by
  rw [key, string_eq, comma_eq, addItem, addMember]
  simp [separator]

/-- The bytes of the comma. -/
theorem comma_text : bytes ", " = [44, 32] := rfl

/-- After the first item the others follow. -/
theorem foldl_addItem {b : JsonBuilder} (h : b.commaNeeded = true) (items : List Json.Value) :
    items.foldl (fun b v => b.addItem v) b = { b with json := b.json ++ Json.printItems items } := by
  induction items generalizing b with
  | nil => simp [Json.printItems]
  | cons v items ih =>
    rw [List.foldl_cons, ih rfl, addItem, Json.printItems, separator, if_pos h, comma_text]
    simp [h]

/-- Members are written behind each other, each with a comma. -/
theorem foldl_addMember {b : JsonBuilder} (h : b.commaNeeded = true)
    (members : List (Bytes × Json.Value)) :
    members.foldl addMember b = { b with json := b.json ++ Json.printMembers members } := by
  induction members generalizing b with
  | nil => simp [Json.printMembers]
  | cons member members ih =>
    obtain ⟨name, v⟩ := member
    rw [List.foldl_cons, ih rfl, addMember, Json.printMembers, separator, if_pos h, comma_text]
    simp [h]

/-- An array that is opened, filled and closed is an item. -/
theorem close_array (b : JsonBuilder) (items : List Json.Value) :
    (items.foldl (fun b v => b.addItem v) b.array).close = b.addItem (.array items) := by
  rw [array, comma_eq]
  cases items with
  | nil =>
    rw [List.foldl_nil, close, addItem, Json.print]
    simp
  | cons v items =>
    rw [List.foldl_cons, foldl_addItem rfl, addItem, close, addItem, Json.print]
    simp [separator]

/-- An object that is opened, filled and closed is an item. -/
theorem close_object (b : JsonBuilder) (members : List (Bytes × Json.Value)) :
    (members.foldl addMember b.object).close = b.addItem (.object members) := by
  rw [object, comma_eq]
  cases members with
  | nil =>
    rw [List.foldl_nil, close, addItem, Json.print]
    simp
  | cons member members =>
    obtain ⟨name, v⟩ := member
    rw [List.foldl_cons, foldl_addMember rfl, addMember, close, addItem, Json.print]
    simp [separator]

end JsonBuilder

/-! ### What the writer prints -/

/-- Features are written as members. -/
theorem foldl_writeFeature (feats : List Bytes) (b : JsonBuilder) :
    feats.foldl writeFeature b =
      ((feats.filterMap featureOf).map fun feature =>
        (readBack feature.1, Json.Value.string (readBack feature.2))).foldl
        JsonBuilder.addMember b := by
  induction feats generalizing b with
  | nil => rfl
  | cons feat feats ih =>
    rw [List.foldl_cons, ih, writeFeature, List.filterMap_cons]
    cases featureOf feat with
    | none => rfl
    | some feature =>
      dsimp only
      rw [JsonBuilder.value_eq, JsonBuilder.addItem_key]
      rfl

/-- An edge to a child is written as an object. -/
theorem writeChild_eq (s : Sentence) (b : JsonBuilder) (child : ℤ) :
    writeChild s b child = b.addItem (edgeValue readBack s child) := by
  rw [writeChild, JsonBuilder.value_eq, JsonBuilder.addItem_key, JsonBuilder.valueNumber_eq,
    JsonBuilder.addItem_key]
  exact b.close_object [_, _]

/-- A loop that writes an item in every pass. -/
theorem foldl_items {α : Type} {write : JsonBuilder → α → JsonBuilder} {item : α → Json.Value}
    (h : ∀ b a, write b a = b.addItem (item a)) (l : List α) (b : JsonBuilder) :
    l.foldl write b = (l.map item).foldl (fun b v => b.addItem v) b := by
  induction l generalizing b with
  | nil => rfl
  | cons a l ih => rw [List.foldl_cons, ih, h, List.map_cons, List.foldl_cons]

/-- The edges of a word are written as a member. -/
theorem writeEdges_eq (s : Sentence) (word : Word) (b : JsonBuilder) :
    writeEdges s word b = (edgeMembers readBack s word).foldl JsonBuilder.addMember b := by
  rw [writeEdges, edgeMembers]
  split
  · rfl
  · rw [foldl_items (writeChild_eq s), JsonBuilder.close_array, JsonBuilder.addItem_key]
    rfl

/-- The properties of a word are written as a member. -/
theorem writeProperties_eq (word : Word) (b : JsonBuilder) :
    writeProperties word b =
      b.addMember (bytes "properties", .object (propertyMembers readBack word)) := by
  have hclose := (b.key (bytes "properties")).close_object (propertyMembers readBack word)
  rw [JsonBuilder.addItem_key, propertyMembers, List.foldl_append] at hclose
  rw [writeProperties, foldl_writeFeature]
  simp only [JsonBuilder.value_eq, JsonBuilder.addItem_key]
  exact hclose

/-- The beginning of a word is written as members. -/
theorem writeHead_eq (i : ℕ) (word : Word) (b : JsonBuilder) :
    writeHead i word b = (headMembers readBack i word).foldl JsonBuilder.addMember b := by
  rw [writeHead, headMembers, List.foldl_append, List.foldl_append]
  simp only [JsonBuilder.value_eq, JsonBuilder.valueNumber_eq, JsonBuilder.valueTrue_eq,
    JsonBuilder.addItem_key]
  cases word.getTokenRange <;> split <;> rfl

/-- A word is written as an object. -/
theorem writeWord_eq (s : Sentence) (b : JsonBuilder) (entry : Word × ℕ) :
    writeWord s b entry = b.addItem (wordValue readBack s entry) := by
  rw [writeWord, writeEdges_eq, writeProperties_eq, writeHead_eq, wordValue,
    ← JsonBuilder.close_object, List.foldl_append, List.foldl_cons]

/-- A sentence is written as the printed value of the sentence, with the strings as they are
read back. -/
theorem writeSentence_eq (sentences : ℕ) (s : Sentence) :
    (writeSentence sentences s).1 =
      Json.print (sentenceValue readBack (sentences + 1) s) ++ [lf] := by
  have hclose := ({} : JsonBuilder).close_object
    [(bytes "id", .number (sentences + 1)),
      (bytes "nodes", .array ((indexedWords s).map (wordValue readBack s)))]
  rw [writeSentence]
  dsimp only
  rw [JsonBuilder.valueNumber_eq, JsonBuilder.addItem_key, foldl_items (writeWord_eq s),
    JsonBuilder.close_array, JsonBuilder.addItem_key]
  exact congrArg (fun b : JsonBuilder => b.json ++ [lf]) hclose

/-! ### When the strings come back -/

/-- A character is read back as itself unless it is a control character without an escape. -/
theorem readBackChar_eq_iff {c : Byte} : readBackChar c = [c] ↔ isBareControl c = false := by
  unfold readBackChar
  constructor
  · intro h
    by_contra hcontrol
    rw [Bool.not_eq_false] at hcontrol
    rw [if_pos hcontrol] at h
    cases (List.cons.inj h).2
  · intro h
    rw [h]
    rfl

/-- A character is read back as at least one. -/
theorem one_le_length_readBackChar (c : Byte) : 1 ≤ (readBackChar c).length := by
  unfold readBackChar
  split
  · rw [List.length_append]
    exact Nat.le_add_left 1 _
  · exact le_rfl

/-- A text is read back at least as long as it was. -/
theorem length_le_readBack (str : Bytes) : str.length ≤ (readBack str).length := by
  induction str with
  | nil => exact le_rfl
  | cons c str ih =>
    have hc := one_le_length_readBackChar c
    have hcons : readBack (c :: str) = readBackChar c ++ readBack str := List.flatMap_cons
    rw [hcons, List.length_append, List.length_cons]
    omega

/-- A string comes back if it has no bare control character. -/
theorem readBack_eq_iff {str : Bytes} :
    readBack str = str ↔ ∀ c ∈ str, isBareControl c = false := by
  induction str with
  | nil => exact ⟨fun _ => List.forall_mem_nil _, fun _ => rfl⟩
  | cons c str ih =>
    have hcons : readBack (c :: str) = readBackChar c ++ readBack str := List.flatMap_cons
    have hlong := length_le_readBack str
    have hchar := one_le_length_readBackChar c
    rw [List.forall_mem_cons, hcons]
    constructor
    · intro h
      have hsum := congrArg List.length h
      rw [List.length_append, List.length_cons] at hsum
      obtain ⟨hc, hstr⟩ := List.append_inj (show readBackChar c ++ readBack str = [c] ++ str from h)
        (by rw [List.length_singleton]; omega)
      exact ⟨readBackChar_eq_iff.mp hc, ih.mp hstr⟩
    · rintro ⟨hc, hstr⟩
      rw [readBackChar_eq_iff.mpr hc, ih.mpr hstr]
      rfl

/-- The value of a word depends on its strings, and on all of them. -/
theorem wordValue_eq_iff {f g : Bytes → Bytes} (s : Sentence) (word : Word) (i : ℕ) :
    wordValue f s (word, i) = wordValue g s (word, i) ↔
      ∀ text ∈ wordTexts s word, f text = g text := by
  have hedges : edgeMembers f s word = edgeMembers g s word ↔
      ∀ child ∈ word.children, f (deprelOf s child) = g (deprelOf s child) := by
    unfold edgeMembers
    split
    · rename_i hnil
      simp [hnil]
    · simp [edgeValue, List.map_inj_left]
  have hproperties : propertyMembers f word = propertyMembers g word ↔
      f word.lemma = g word.lemma ∧ f word.upostag = g word.upostag ∧
        f word.xpostag = g word.xpostag ∧
        ∀ feature ∈ features word.feats, f feature.1 = g feature.1 ∧ f feature.2 = g feature.2 := by
    simp [propertyMembers, List.map_inj_left]
  have hhead : ∀ rest rest' : List (Bytes × Json.Value),
      headMembers f i word ++ rest = headMembers g i word ++ rest' ↔
        f word.form = g word.form ∧ rest = rest' := by
    intro rest rest'
    simp [headMembers, List.append_assoc]
  rw [wordValue, wordValue, Json.Value.object.injEq, hhead, List.cons.injEq, Prod.mk.injEq,
    Json.Value.object.injEq, hproperties, hedges]
  simp only [wordTexts, List.mem_append, List.mem_cons, List.not_mem_nil, or_false,
    List.mem_flatMap, List.mem_map, true_and]
  constructor
  · rintro ⟨hform, ⟨hlemma, hupos, hxpos, hfeatures⟩, hchildren⟩ text
      (((rfl | rfl | rfl | rfl) | ⟨feature, hfeature, rfl | rfl⟩) | ⟨child, hchild, rfl⟩)
    · exact hform
    · exact hlemma
    · exact hupos
    · exact hxpos
    · exact (hfeatures feature hfeature).1
    · exact (hfeatures feature hfeature).2
    · exact hchildren child hchild
  · intro h
    refine ⟨h _ (.inl (.inl (.inl rfl))), ⟨h _ (.inl (.inl (.inr (.inl rfl)))),
      h _ (.inl (.inl (.inr (.inr (.inl rfl))))), h _ (.inl (.inl (.inr (.inr (.inr rfl))))),
      fun feature hfeature => ⟨?_, ?_⟩⟩, fun child hchild => ?_⟩
    · exact h _ (.inl (.inr ⟨feature, hfeature, .inl rfl⟩))
    · exact h _ (.inl (.inr ⟨feature, hfeature, .inr rfl⟩))
    · exact h _ (.inr ⟨child, hchild, rfl⟩)

/-- The values of a sentence agree exactly if all its texts do. -/
theorem sentenceValue_eq_iff {f g : Bytes → Bytes} (id : ℕ) (s : Sentence) :
    sentenceValue f id s = sentenceValue g id s ↔ ∀ text ∈ writtenTexts s, f text = g text := by
  have hwords : ∀ {P : Word → Prop},
      (∀ entry ∈ indexedWords s, P entry.1) ↔ ∀ word ∈ s.words.drop 1, P word := by
    intro P
    have hfst : (indexedWords s).map Prod.fst = s.words.drop 1 := List.zipIdx_map_fst 1 _
    rw [← hfst, List.forall_mem_map]
  have hvalues : sentenceValue f id s = sentenceValue g id s ↔
      ∀ entry ∈ indexedWords s, wordValue f s entry = wordValue g s entry := by
    simp [sentenceValue, List.map_inj_left]
  have hentries : (∀ entry ∈ indexedWords s, wordValue f s entry = wordValue g s entry) ↔
      ∀ entry ∈ indexedWords s, ∀ text ∈ wordTexts s entry.1, f text = g text :=
    forall₂_congr fun entry _ => wordValue_eq_iff s entry.1 entry.2
  rw [hvalues, hentries, @hwords fun word => ∀ text ∈ wordTexts s word, f text = g text,
    writtenTexts]
  simp only [List.mem_flatMap]
  constructor
  · rintro h text ⟨word, hword, htext⟩
    exact h word hword text htext
  · intro h word hword text htext
    exact h text ⟨word, hword, htext⟩

/-- The line of a sentence decodes to the sentence if and only if no string that is written
has a control character without an escape of its own. -/
theorem decodesBack_iff (sentences : ℕ) (s : Sentence) :
    DecodesBack sentences s ↔
      ∀ text ∈ writtenTexts s, ∀ c ∈ text, isBareControl c = false := by
  have hdecode := Json.decode_print (sentenceValue readBack (sentences + 1) s)
  have hiff : sentenceValue readBack (sentences + 1) s = sentenceValue id (sentences + 1) s ↔
      ∀ text ∈ writtenTexts s, ∀ c ∈ text, isBareControl c = false :=
    (sentenceValue_eq_iff _ s).trans (forall₂_congr fun text _ => readBack_eq_iff)
  rw [← hiff, DecodesBack]
  constructor
  · rintro ⟨line, hline, -, hvalue⟩
    rw [writeSentence_eq] at hline
    obtain rfl := List.append_cancel_right hline
    exact Option.some.inj (hdecode.symm.trans hvalue)
  · intro hsame
    refine ⟨_, writeSentence_eq sentences s, fun hmem => ?_, hdecode.trans (congrArg some hsame)⟩
    exact absurd (Json.printable_print _ lf hmem) (by decide)

/-- A sentence with a word that is an escape character. -/
def escapeWord : Sentence where
  words := [Sentence.rootWord, { id := 1, form := [27] }]

/-- A sentence with an escape character in a form. -/
theorem not_decodesBack_escapeWord : ¬ DecodesBack 0 escapeWord := by
  rintro ⟨line, hline, -, hvalue⟩
  rw [writeSentence_eq] at hline
  obtain rfl := List.append_cancel_right hline
  have hsame := Option.some.inj ((Json.decode_print _).symm.trans hvalue)
  have htext := (sentenceValue_eq_iff 1 escapeWord).mp hsame [27] (by decide)
  exact absurd htext (by decide)

end UDPipe.Epe
