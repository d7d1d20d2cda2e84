import UDPipe.SentenceTree
import UDPipe.IntegerSyntax
import UDPipe.BinaryCoder
import UDPipe.Library.Xml

/-!
# The Matxin writer

The class `output_format_matxin` of `sentence/output_format.cpp`, with `xml_encoded` of
`utils/xml_encoded.h`. The start tag of the document is written with its first sentence and the
end tag when it is finished, so a document without sentences has no start tag.
-/

namespace UDPipe.Matxin

open Xml (Element IsElement IsContent IsAttributes IsValue IsDocument)
open Forest (Within)

/-! ### The writer -/

/-- The reference to a character that is not written as it is. -/
def reference (encodeQuot : Bool) (c : Byte) : Option Bytes :=
  if c = 60 then some (bytes "&lt;")
  else if c = 62 then some (bytes "&gt;")
  else if c = 38 then some (bytes "&amp;")
  else if encodeQuot && c = 34 then some (bytes "&quot;")
  else none

/-- `xml_encoded`, with the characters that are still to be printed. -/
def xmlEncodedFrom (encodeQuot : Bool) (toPrint : Bytes) : Bytes → Bytes
  | [] => toPrint
  | c :: str =>
    match reference encodeQuot c with
    | some entity => toPrint ++ entity ++ xmlEncodedFrom encodeQuot [] str
    | none => xmlEncodedFrom encodeQuot (toPrint ++ [c]) str

/-- `xml_encoded`. -/
def xmlEncoded (str : Bytes) (encodeQuot : Bool) : Bytes := xmlEncodedFrom encodeQuot [] str

/-- The tag of a node up to its end. -/
def nodeTag (node : ℤ) (word : Word) : Bytes :=
  bytes "<NODE ord=\"" ++ intToString node ++ bytes "\" alloc=\"" ++ intToString 0 ++
    bytes "\" form=\"" ++ xmlEncoded word.form true ++
    bytes "\" lem=\"" ++ xmlEncoded word.lemma true ++
    bytes "\" mi=\"" ++ xmlEncoded word.feats true ++
    bytes "\" si=\"" ++ xmlEncoded word.deprel true ++ [34]

/-- `write_node`. There is no result where the recursion does not end within the fuel. -/
def writeNode (s : Sentence) : ℕ → Bytes → ℤ → Option Bytes
  | 0, _, _ => none
  | fuel + 1, pad, node => do
    let pad := pad ++ [space]
    let word ← s.words[node.toNat]?
    if word.children = [] then
      some (pad ++ nodeTag node word ++ bytes "/>\n")
    else
      let nodes ← word.children.mapM (writeNode s fuel pad)
      some (pad ++ nodeTag node word ++ bytes ">\n" ++ nodes.flatten ++ pad ++ bytes "</NODE>\n")

/-- `write_sentence`, after the given number of sentences. -/
def writeSentence (sentences : ℤ) (s : Sentence) : Option (Bytes × ℤ) := do
  let start := if sentences = 0 then bytes "<corpus>" else []
  let sentences ← asInt (sentences + 1)
  let root ← s.words[0]?
  let nodes ← root.children.mapM (writeNode s s.words.length [])
  some (start ++ bytes "\n<SENTENCE ord=\"" ++ intToString sentences ++ bytes "\" alloc=\"" ++
    intToString 0 ++ bytes "\">\n" ++ nodes.flatten ++ bytes "</SENTENCE>\n", sentences)

/-- `finish_document`, with the number of sentences after it. -/
def finishDocument : Bytes × ℤ := (bytes "</corpus>\n", 0)

/-- The sentences of a document after some others, and its end. -/
def writeFrom (sentences : ℤ) : List Sentence → Option Bytes
  | [] => some finishDocument.1
  | s :: rest => do
    let (text, sentences) ← writeSentence sentences s
    let texts ← writeFrom sentences rest
    some (text ++ texts)

/-- A document. -/
def writeDocument (sentences : List Sentence) : Option Bytes := writeFrom 0 sentences

/-! ### What is read from a document -/

/-- What an element and its attributes say, with the number of the node it is in. -/
structure Reading where
  name : Bytes
  inside : Bytes
  ord : Option Bytes
  form : Option Bytes
  lem : Option Bytes
  mi : Option Bytes
  si : Option Bytes
  deriving DecidableEq

mutual

/-- The readings of an element and all elements in it. -/
def readings (inside : Bytes) : Element → List Reading
  | .mk name attributes children =>
    { name, inside
      ord := attributes.lookup (bytes "ord")
      form := attributes.lookup (bytes "form")
      lem := attributes.lookup (bytes "lem")
      mi := attributes.lookup (bytes "mi")
      si := attributes.lookup (bytes "si") } ::
      allReadings ((attributes.lookup (bytes "ord")).getD []) children

/-- The readings of elements one after the other. -/
def allReadings (inside : Bytes) : List Element → List Reading
  | [] => []
  | e :: elements => readings inside e ++ allReadings inside elements

end

/-- What a node says about a word. -/
def wordReading (s : Sentence) (i : ℤ) : Reading where
  name := bytes "NODE"
  inside := intToString (headAt s.words i.toNat)
  ord := some (intToString i)
  form := s.words[i.toNat]?.map fun word => word.form
  lem := s.words[i.toNat]?.map fun word => word.lemma
  mi := s.words[i.toNat]?.map fun word => word.feats
  si := s.words[i.toNat]?.map fun word => word.deprel

/-- The element of a sentence: its words are the nodes in it, each in the node of its head. -/
inductive IsSentence (s : Sentence) : Element → Prop
  | mk {attributes : List (Bytes × Bytes)} {elements : List Element} :
      (allReadings (intToString 0) elements).Perm
        ((List.range' 1 (s.words.length - 1)).map fun i : ℕ => wordReading s i) →
      IsSentence s (.mk (bytes "SENTENCE") attributes elements)

/-- The text of the sentences is a document of their elements. -/
def IsMatxin (sentences : List Sentence) : Prop :=
  ∃ text attributes elements, writeDocument sentences = some text ∧
    IsDocument (.mk (bytes "corpus") attributes elements) text ∧
    List.Forall₂ IsSentence sentences elements

/-! ### Attributes -/

/-- Encoding replaces the characters that have a reference. -/
private theorem xmlEncodedFrom_eq (encodeQuot : Bool) (toPrint str : Bytes) :
    xmlEncodedFrom encodeQuot toPrint str =
      toPrint ++ str.flatMap fun c => (reference encodeQuot c).getD [c] := by
  induction str generalizing toPrint with
  | nil => simp [xmlEncodedFrom]
  | cons c str ih =>
    rw [xmlEncodedFrom, List.flatMap_cons]
    cases reference encodeQuot c with
    | none => simp [ih]
    | some entity => simp [ih]

/-- Every character is encoded for itself. -/
theorem xmlEncoded_eq (str : Bytes) (encodeQuot : Bool) :
    xmlEncoded str encodeQuot = str.flatMap fun c => (reference encodeQuot c).getD [c] :=
  xmlEncodedFrom_eq encodeQuot [] str

/-- Other characters have no reference. -/
theorem reference_eq_none {c : Byte} (h₁ : c ≠ 60) (h₂ : c ≠ 62) (h₃ : c ≠ 38) (h₄ : c ≠ 34) :
    reference true c = none := by
  simp [reference, h₁, h₂, h₃, h₄]

/-- Encoded values decode to themselves. -/
theorem isValue_xmlEncoded {text : Bytes} (h : Xml.IsLine text) :
    IsValue 34 text (xmlEncoded text true) := by
  obtain ⟨codes, hcodes, rfl⟩ := h
  rw [xmlEncoded_eq]
  induction codes with
  | nil => exact .nil
  | cons code codes ih =>
    obtain ⟨⟨hchar, htab, hlf, hcr⟩, hrest⟩ := List.forall_mem_cons.mp hcodes
    rw [List.flatMap_cons, List.flatMap_append]
    have hreference : ∀ (c : Byte) (entity : Bytes), (entity, c) ∈ Xml.entities →
        Xml.utf8 code = [c] → reference true c = some entity →
        IsValue 34 (Xml.utf8 code ++ codes.flatMap Xml.utf8)
          ((Xml.utf8 code).flatMap (fun c => (reference true c).getD [c]) ++
            (codes.flatMap Xml.utf8).flatMap fun c => (reference true c).getD [c]) := by
      intro c entity hentity hutf8 heq
      rw [hutf8, List.flatMap_singleton, heq]
      exact .reference hentity (ih hrest)
    by_cases h₁ : code = 60
    · subst h₁
      exact hreference 60 (bytes "&lt;") (by decide) rfl rfl
    by_cases h₂ : code = 62
    · subst h₂
      exact hreference 62 (bytes "&gt;") (by decide) rfl rfl
    by_cases h₃ : code = 38
    · subst h₃
      exact hreference 38 (bytes "&amp;") (by decide) rfl rfl
    by_cases h₄ : code = 34
    · subst h₄
      exact hreference 34 (bytes "&quot;") (by decide) rfl rfl
    have hsame : ((Xml.utf8 code).flatMap fun c => (reference true c).getD [c]) =
        Xml.utf8 code := by
      conv_rhs => rw [← List.flatMap_singleton' (Xml.utf8 code)]
      refine List.flatMap_congr fun c hc => ?_
      have hne : c.toNat ≠ 60 ∧ c.toNat ≠ 62 ∧ c.toNat ≠ 38 ∧ c.toNat ≠ 34 := by
        by_cases hascii : code < 0x80
        · rw [Xml.utf8, if_pos hascii, List.mem_singleton] at hc
          subst hc
          rw [UInt8.toNat_ofNat']
          omega
        · have := Xml.le_of_mem_utf8 hchar (by omega) hc
          omega
      rw [reference_eq_none (fun h => hne.1 (congrArg UInt8.toNat h))
        (fun h => hne.2.1 (congrArg UInt8.toNat h)) (fun h => hne.2.2.1 (congrArg UInt8.toNat h))
        (fun h => hne.2.2.2 (congrArg UInt8.toNat h)), Option.getD_none]
    rw [hsame]
    exact .char hchar h₁ h₃ (by simpa using h₄) htab hlf hcr (ih hrest)

/-- The attributes of a tag as they are written. -/
def attributesText (attributes : List (Bytes × Bytes)) : Bytes :=
  attributes.flatMap fun pair =>
    space :: (pair.1 ++ 61 :: 34 :: (xmlEncoded pair.2 true ++ [34]))

/-- Attributes with values on one line are attributes. -/
theorem isAttributes_attributesText {attributes : List (Bytes × Bytes)}
    (hname : ∀ name ∈ attributes.map Prod.fst, Xml.isName name = true)
    (hvalue : ∀ pair ∈ attributes, Xml.IsLine pair.2) :
    IsAttributes attributes (attributesText attributes) := by
  induction attributes with
  | nil => exact .nil
  | cons pair attributes ih =>
    obtain ⟨hname, hnames⟩ := List.forall_mem_cons.mp hname
    obtain ⟨hvalue, hvalues⟩ := List.forall_mem_cons.mp hvalue
    have hcons := IsAttributes.cons (List.cons_ne_nil space []) rfl hname (.inl rfl)
      (isValue_xmlEncoded hvalue) (ih hnames hvalues)
    have htext : attributesText (pair :: attributes) = [space] ++ pair.1 ++
        61 :: 34 :: (xmlEncoded pair.2 true ++ 34 :: attributesText attributes) := by
      simp [attributesText]
    rwa [htext]

/-- Numbers are written as they are. -/
theorem xmlEncoded_natToString (n : ℕ) : xmlEncoded (natToString n) true = natToString n := by
  rw [xmlEncoded_eq]
  conv_rhs => rw [← List.flatMap_singleton' (natToString n)]
  refine List.flatMap_congr fun c hc => ?_
  have hdigit := isDigit_of_mem_natToString hc
  rw [reference_eq_none, Option.getD_none] <;> rintro rfl <;> exact absurd hdigit (by decide)

/-- Numbers are on one line. -/
theorem isLine_natToString (n : ℕ) : Xml.IsLine (natToString n) := by
  refine Xml.isLine_of_ascii (List.all_eq_true.mpr fun c hc => ?_)
  have hdigit := isDigit_of_mem_natToString hc
  simp only [isDigit, Bool.and_eq_true, decide_eq_true_eq] at hdigit ⊢
  exact ⟨UInt8.le_trans (by decide) hdigit.1, UInt8.lt_of_le_of_lt hdigit.2 (by decide)⟩

/-! ### The element of a sentence -/

/-- The attributes of a node. -/
def nodeAttributes (node : ℤ) (word : Word) : List (Bytes × Bytes) :=
  [(bytes "ord", intToString node), (bytes "alloc", intToString 0), (bytes "form", word.form),
    (bytes "lem", word.lemma), (bytes "mi", word.feats), (bytes "si", word.deprel)]

/-- The element of a node, down to the depth of the fuel. -/
def nodeElement (s : Sentence) : ℕ → ℤ → Element
  | 0, _ => .mk [] [] []
  | fuel + 1, node =>
    .mk (bytes "NODE") (nodeAttributes node (s.words[node.toNat]?.getD {}))
      ((s.childrenOf node).map (nodeElement s fuel))

/-- The attributes of a sentence after so many others. -/
def sentenceAttributes (sentences : ℕ) : List (Bytes × Bytes) :=
  [(bytes "ord", natToString (sentences + 1)), (bytes "alloc", intToString 0)]

/-- The element of a sentence after so many others. -/
def sentenceElement (sentences : ℕ) (s : Sentence) : Element :=
  .mk (bytes "SENTENCE") (sentenceAttributes sentences)
    ((s.childrenOf 0).map (nodeElement s s.words.length))

/-- The texts of a word that are written are lines. -/
structure HasLines (word : Word) : Prop where
  form : Xml.IsLine word.form
  «lemma» : Xml.IsLine word.lemma
  feats : Xml.IsLine word.feats
  deprel : Xml.IsLine word.deprel

/-- The values of the attributes of a node. -/
theorem lookup_nodeAttributes (node : ℤ) (word : Word) :
    (nodeAttributes node word).lookup (bytes "ord") = some (intToString node) ∧
      (nodeAttributes node word).lookup (bytes "form") = some word.form ∧
      (nodeAttributes node word).lookup (bytes "lem") = some word.lemma ∧
      (nodeAttributes node word).lookup (bytes "mi") = some word.feats ∧
      (nodeAttributes node word).lookup (bytes "si") = some word.deprel :=
  ⟨rfl, rfl, rfl, rfl, rfl⟩

/-- The tag of a node has its name and its attributes. -/
theorem nodeTag_eq (node : ℕ) (word : Word) :
    nodeTag node word =
      60 :: (bytes "NODE" ++ attributesText (nodeAttributes node word)) := by
  have hzero : xmlEncoded (intToString 0) true = intToString 0 := xmlEncoded_natToString 0
  have h₁ : bytes "<NODE ord=\"" = 60 :: (bytes "NODE" ++ space :: (bytes "ord" ++ [61, 34])) := by
    decide
  have h₂ : bytes "\" alloc=\"" = 34 :: space :: (bytes "alloc" ++ [61, 34]) := by decide
  have h₃ : bytes "\" form=\"" = 34 :: space :: (bytes "form" ++ [61, 34]) := by decide
  have h₄ : bytes "\" lem=\"" = 34 :: space :: (bytes "lem" ++ [61, 34]) := by decide
  have h₅ : bytes "\" mi=\"" = 34 :: space :: (bytes "mi" ++ [61, 34]) := by decide
  have h₆ : bytes "\" si=\"" = 34 :: space :: (bytes "si" ++ [61, 34]) := by decide
  simp only [nodeTag, h₁, h₂, h₃, h₄, h₅, h₆, nodeAttributes, attributesText, List.flatMap_cons,
    List.flatMap_nil, hzero, intToString_natCast, xmlEncoded_natToString, List.cons_append,
    List.nil_append, List.append_nil, List.append_assoc]

/-- The attributes of a node are attributes, if its texts are on one line. -/
theorem isAttributes_node (node : ℕ) {word : Word} (h : HasLines word) :
    IsAttributes (nodeAttributes node word) (attributesText (nodeAttributes node word)) := by
  refine isAttributes_attributesText ?_ (fun pair hpair => ?_)
  · simp only [nodeAttributes, List.map_cons, List.map_nil]
    decide
  · simp only [nodeAttributes, List.mem_cons, List.not_mem_nil, or_false] at hpair
    rcases hpair with rfl | rfl | rfl | rfl | rfl | rfl
    · exact isLine_natToString node
    · exact isLine_natToString 0
    · exact h.form
    · exact h.lemma
    · exact h.feats
    · exact h.deprel

/-- Elements on lines of their own are content. -/
theorem isContent_mapM {f : ℤ → Option Bytes} {g : ℤ → Element} {before : Bytes}
    (hbefore : before.all Xml.isBlank = true) {nodes : List ℤ}
    (h : ∀ node ∈ nodes, ∃ text, f node = some (before ++ text ++ [lf]) ∧ IsElement (g node) text) :
    ∃ texts, nodes.mapM f = some texts ∧
      IsContent IsElement (nodes.map g) texts.flatten := by
  induction nodes with
  | nil => exact ⟨[], rfl, .nil⟩
  | cons node nodes ih =>
    obtain ⟨⟨text, htext, helement⟩, hnodes⟩ := List.forall_mem_cons.mp h
    obtain ⟨texts, htexts, hcontent⟩ := ih hnodes
    refine ⟨(before ++ text ++ [lf]) :: texts, ?_, ?_⟩
    · rw [mapM_eq_some_iff] at htexts ⊢
      exact .cons htext htexts
    · exact (Xml.isContent_element helement hbefore rfl).append hcontent

/-- What elements say, where it is known for each of them. -/
theorem allReadings_map {inside : Bytes} {g : ℤ → Element} {h : ℤ → List Reading} {nodes : List ℤ}
    (hnodes : ∀ node ∈ nodes, readings inside (g node) = h node) :
    allReadings inside (nodes.map g) = nodes.flatMap h := by
  induction nodes with
  | nil => simp [allReadings]
  | cons node nodes ih =>
    obtain ⟨hnode, hnodes⟩ := List.forall_mem_cons.mp hnodes
    rw [List.map_cons, allReadings, hnode, ih hnodes, List.flatMap_cons]

section Tree

variable {s : Sentence} (tree : s.IsTree)

include tree

/-- The children of a node are nodes, further from the root. -/
theorem child_spec {fuel : ℕ} {node child : ℤ} (hwithin : Within s.parent (fuel + 1) node)
    (hchild : child ∈ s.childrenOf node) :
    s.parent child = some node ∧ 1 ≤ child ∧ child < s.words.length ∧
      Within s.parent fuel child := by
  have hparent := (tree.isChildren.mem_iff node child).mp hchild
  have hrange := Sentence.parent_eq_some.mp hparent
  exact ⟨hparent, hrange.1, hrange.2.1, hwithin child hparent⟩

/-- A node is written as its element. -/
theorem writeNode_spec (hlines : ∀ word ∈ s.words.drop 1, HasLines word) {fuel : ℕ} {pad : Bytes}
    (hpad : pad.all Xml.isBlank = true) {node : ℤ} (hnode : 1 ≤ node)
    (hlt : node < s.words.length) (hwithin : Within s.parent fuel node) :
    ∃ text, writeNode s fuel pad node = some (pad ++ [space] ++ text ++ [lf]) ∧
      IsElement (nodeElement s fuel node) text := by
  induction fuel generalizing pad node with
  | zero => exact hwithin.elim
  | succ fuel ih =>
    obtain ⟨i, rfl⟩ := Int.eq_ofNat_of_zero_le (by omega : 0 ≤ node)
    have hi : i < s.words.length := by omega
    have hword : s.words[(i : ℤ).toNat]? = some s.words[i] := List.getElem?_eq_getElem hi
    have hline : HasLines s.words[i] := by
      refine hlines _ (List.mem_iff_getElem.mpr ⟨i - 1, by rw [List.length_drop]; omega, ?_⟩)
      rw [List.getElem_drop]
      congr 1
      omega
    have hchildren : s.childrenOf i = s.words[i].children := by
      rw [Sentence.childrenOf, if_pos (by omega), childrenAt, hword]
      rfl
    have hblank : ∀ {pad : Bytes}, pad.all Xml.isBlank = true →
        (pad ++ [space]).all Xml.isBlank = true := by
      intro pad hpad
      rw [List.all_append, hpad]
      rfl
    have hpad' := hblank hpad
    have hattributes := isAttributes_node i hline
    have helement : nodeElement s (fuel + 1) i = .mk (bytes "NODE") (nodeAttributes i s.words[i])
        (s.words[i].children.map (nodeElement s fuel)) := by
      rw [nodeElement, hchildren, hword, Option.getD_some]
    rw [helement]
    have hname : Xml.isName (bytes "NODE") = true := by decide
    have hnames : ((nodeAttributes i s.words[i]).map Prod.fst).Nodup := by
      simp only [nodeAttributes, List.map_cons, List.map_nil]
      decide
    by_cases hnil : s.words[i].children = []
    · refine ⟨60 :: (bytes "NODE" ++ attributesText (nodeAttributes i s.words[i]) ++ [] ++
        [47, 62]), ?_, ?_⟩
      · have hend : bytes "/>\n" = [47, 62] ++ [lf] := by decide
        simp only [writeNode, hword, Option.bind_eq_bind, Option.bind_some, if_pos hnil,
          nodeTag_eq, hend, List.append_nil, List.append_assoc, List.cons_append]
      · rw [hnil]
        exact .empty hname hnames hattributes rfl
    · have hbelow : ∀ child ∈ s.childrenOf i, ∃ text, writeNode s fuel (pad ++ [space]) child =
          some (pad ++ [space] ++ [space] ++ text ++ [lf]) ∧
            IsElement (nodeElement s fuel child) text := by
        intro child hchild
        obtain ⟨-, h₁, h₂, h₃⟩ := child_spec tree hwithin hchild
        exact ih hpad' h₁ h₂ h₃
      obtain ⟨texts, htexts, hcontent⟩ := isContent_mapM (hblank hpad') hbelow
      rw [hchildren] at htexts hcontent
      have hbody := ((Xml.isContent_blanks (P := IsElement)
        (show [lf].all Xml.isBlank = true from rfl)).append hcontent).append
          (Xml.isContent_blanks hpad')
      rw [List.nil_append, List.append_nil] at hbody
      refine ⟨60 :: (bytes "NODE" ++ attributesText (nodeAttributes i s.words[i]) ++ [] ++
        62 :: ([lf] ++ texts.flatten ++ (pad ++ [space]) ++
          60 :: 47 :: (bytes "NODE" ++ [] ++ [62]))), ?_, ?_⟩
      · have hopen : bytes ">\n" = 62 :: [lf] := by decide
        have hclose : bytes "</NODE>\n" = 60 :: 47 :: (bytes "NODE" ++ [62, lf]) := by decide
        simp only [writeNode, hword, Option.bind_eq_bind, Option.bind_some, if_neg hnil,
          nodeTag_eq, htexts, hopen, hclose, List.nil_append, List.append_assoc,
          List.cons_append]
      · exact .full hname hnames hattributes rfl rfl hbody

/-- What the element of a node says, in the order of the words below it. -/
theorem readings_nodeElement {fuel : ℕ} {node head : ℤ} (hparent : s.parent node = some head)
    (hwithin : Within s.parent fuel node) :
    readings (intToString head) (nodeElement s fuel node) =
      (Forest.preorder s.childrenOf fuel node).map (wordReading s) := by
  induction fuel generalizing node head with
  | zero => exact hwithin.elim
  | succ fuel ih =>
    obtain ⟨hpos, hlt, hhead⟩ := Sentence.parent_eq_some.mp hparent
    have hword : s.words[node.toNat]? = some s.words[node.toNat] := List.getElem?_eq_getElem _
    have hbelow := allReadings_map (g := nodeElement s fuel)
      (h := fun child => (Forest.preorder s.childrenOf fuel child).map (wordReading s))
      fun child hchild =>
        ih (child_spec tree hwithin hchild).1 (child_spec tree hwithin hchild).2.2.2
    obtain ⟨hord, hform, hlem, hmi, hsi⟩ := lookup_nodeAttributes node s.words[node.toNat]
    rw [Forest.preorder, List.map_cons, List.map_flatMap, ← hbelow, nodeElement, readings, hword,
      Option.getD_some, hord, hform, hlem, hmi, hsi, wordReading, hword, hhead]
    rfl

/-- The words are the nodes of the element of a sentence. -/
theorem isSentence_sentenceElement (sentences : ℕ) :
    IsSentence s (sentenceElement sentences s) := by
  refine .mk ?_
  have hbelow := allReadings_map (g := nodeElement s s.words.length)
    (h := fun child => (Forest.preorder s.childrenOf s.words.length child).map (wordReading s))
    fun child hchild => readings_nodeElement tree (child_spec tree tree.within hchild).1
      (child_spec tree tree.within hchild).2.2.2
  have hperm := tree.preorder_perm
  obtain ⟨n, hn⟩ := Nat.exists_eq_succ_of_ne_zero tree.rooted.ne'
  have hwords : ((List.range' 1 (s.words.length - 1)).map fun i : ℕ => wordReading s i) =
      ((List.range' 1 (s.words.length - 1)).map fun i : ℕ => (i : ℤ)).map (wordReading s) := by
    rw [List.map_map]
    rfl
  rw [hbelow, ← List.map_flatMap, hwords]
  refine List.Perm.map _ (List.Perm.cons_inv (a := 0) ?_)
  rw [Forest.preorder] at hperm
  refine hperm.trans (List.Perm.of_eq ?_)
  rw [hn, List.range_eq_range', List.range'_succ, List.map_cons]
  rfl

/-- A sentence is written as its element on lines of its own. -/
theorem writeSentence_spec (hlines : ∀ word ∈ s.words.drop 1, HasLines word) {sentences : ℕ}
    (hfits : sentences + 1 ≤ 2147483647) :
    ∃ text, writeSentence sentences s =
        some ((if sentences = 0 then bytes "<corpus>" else []) ++ [lf] ++ text ++ [lf],
          ((sentences + 1 : ℕ) : ℤ)) ∧
      IsElement (sentenceElement sentences s) text := by
  have hasInt : asInt ((sentences : ℤ) + 1) = some ((sentences + 1 : ℕ) : ℤ) := by
    rw [asInt, if_pos]
    · rfl
    · simp only [intMin, intMax]
      omega
  obtain ⟨root, hroot⟩ : ∃ root, s.words[0]? = some root :=
    ⟨_, List.getElem?_eq_getElem tree.rooted⟩
  have hchildren : s.childrenOf 0 = root.children := by
    rw [Sentence.childrenOf, if_pos le_rfl, childrenAt, Int.toNat_zero, hroot]
    rfl
  have hbelow : ∀ child ∈ s.childrenOf 0, ∃ text, writeNode s s.words.length [] child =
      some ([space] ++ text ++ [lf]) ∧ IsElement (nodeElement s s.words.length child) text := by
    intro child hchild
    obtain ⟨-, h₁, h₂, h₃⟩ := child_spec tree tree.within hchild
    exact writeNode_spec tree hlines rfl h₁ h₂ h₃
  obtain ⟨texts, htexts, hcontent⟩ := isContent_mapM rfl hbelow
  have hbody := (Xml.isContent_blanks (P := IsElement) (show [lf].all Xml.isBlank = true from
    rfl)).append hcontent
  have hattributes : IsAttributes (sentenceAttributes sentences)
      (attributesText (sentenceAttributes sentences)) := by
    refine isAttributes_attributesText ?_ (fun pair hpair => ?_)
    · simp only [sentenceAttributes, List.map_cons, List.map_nil]
      decide
    · simp only [sentenceAttributes, List.mem_cons, List.not_mem_nil, or_false] at hpair
      rcases hpair with rfl | rfl
      · exact isLine_natToString _
      · exact isLine_natToString 0
  have hnames : ((sentenceAttributes sentences).map Prod.fst).Nodup := by
    simp only [sentenceAttributes, List.map_cons, List.map_nil]
    decide
  refine ⟨60 :: (bytes "SENTENCE" ++ attributesText (sentenceAttributes sentences) ++ [] ++
    62 :: ([lf] ++ texts.flatten ++ 60 :: 47 :: (bytes "SENTENCE" ++ [] ++ [62]))), ?_,
    .full (by decide) hnames hattributes rfl rfl hbody⟩
  have hzero : xmlEncoded (intToString 0) true = intToString 0 := xmlEncoded_natToString 0
  have h₁ : bytes "\n<SENTENCE ord=\"" =
      lf :: 60 :: (bytes "SENTENCE" ++ space :: (bytes "ord" ++ [61, 34])) := by decide
  have h₂ : bytes "\" alloc=\"" = 34 :: space :: (bytes "alloc" ++ [61, 34]) := by decide
  have h₃ : bytes "\">\n" = 34 :: 62 :: [lf] := by decide
  have h₄ : bytes "</SENTENCE>\n" = 60 :: 47 :: (bytes "SENTENCE" ++ 62 :: [lf]) := by decide
  rw [hchildren] at htexts
  simp only [writeSentence, hasInt, hroot, htexts, Option.bind_eq_bind, Option.bind_some,
    Nat.cast_eq_zero, h₁, h₂, h₃, h₄, sentenceAttributes, attributesText, List.flatMap_cons,
    List.flatMap_nil, hzero, intToString_natCast, xmlEncoded_natToString, List.cons_append,
    List.nil_append, List.append_nil, List.append_assoc]

end Tree

/-! ### Documents -/

/-- The sentences after some others are written as their elements. -/
theorem writeFrom_spec {sentences : List Sentence} (htree : ∀ s ∈ sentences, s.IsTree)
    (hlines : ∀ s ∈ sentences, ∀ word ∈ s.words.drop 1, HasLines word) {count : ℕ}
    (hfits : count + sentences.length ≤ 2147483647) :
    ∃ body elements, writeFrom count sentences =
        some ((if count = 0 ∧ sentences ≠ [] then bytes "<corpus>" else []) ++ body ++
          bytes "</corpus>\n") ∧
      IsContent IsElement elements body ∧ List.Forall₂ IsSentence sentences elements := by
  induction sentences generalizing count with
  | nil => exact ⟨[], [], by simp [writeFrom, finishDocument], .nil, .nil⟩
  | cons s sentences ih =>
    obtain ⟨tree, htree⟩ := List.forall_mem_cons.mp htree
    obtain ⟨hline, hlines⟩ := List.forall_mem_cons.mp hlines
    rw [List.length_cons] at hfits
    obtain ⟨text, htext, helement⟩ := writeSentence_spec tree hline
      (by omega : count + 1 ≤ 2147483647)
    obtain ⟨body, elements, hbody, hcontent, hsentences⟩ := ih htree hlines
      (by omega : count + 1 + sentences.length ≤ 2147483647)
    rw [if_neg (fun h => Nat.succ_ne_zero count h.1), List.nil_append] at hbody
    refine ⟨[lf] ++ text ++ [lf] ++ body, _, ?_,
      (Xml.isContent_element helement rfl rfl).append hcontent,
      .cons (isSentence_sentenceElement tree count) hsentences⟩
    rw [writeFrom, htext, Option.bind_eq_bind, Option.bind_some]
    change (writeFrom ((count + 1 : ℕ) : ℤ) sentences).bind _ = _
    rw [hbody]
    simp

/-- All sentences are counted. -/
theorem le_of_writeFrom {sentences : List Sentence} {count : ℤ} {text : Bytes}
    (h : writeFrom count sentences = some text) (hcount : count ≤ 2147483647) :
    count + sentences.length ≤ 2147483647 := by
  induction sentences generalizing count text with
  | nil => simpa using hcount
  | cons s sentences ih =>
    simp only [writeFrom, writeSentence, asInt, Option.bind_eq_bind, Option.bind_eq_some_iff] at h
    obtain ⟨⟨start, next⟩, ⟨count', hcount', _, _, _, _, hstart⟩, texts, htexts, -⟩ := h
    obtain rfl : count' = next := congrArg Prod.snd (Option.some.inj hstart)
    split at hcount'
    · rename_i hint
      obtain rfl := Option.some.inj hcount'
      have := ih htexts hint.2
      rw [List.length_cons]
      omega
    · cases hcount'

/-- The text of the sentences is a well formed document with their elements if and only if
there is a sentence and they can be counted. -/
theorem isMatxin_iff {sentences : List Sentence} (htree : ∀ s ∈ sentences, s.IsTree)
    (hlines : ∀ s ∈ sentences, ∀ word ∈ s.words.drop 1, HasLines word) :
    IsMatxin sentences ↔ sentences ≠ [] ∧ sentences.length ≤ 2147483647 := by
  constructor
  · rintro ⟨text, attributes, elements, htext, hdocument, -⟩
    refine ⟨?_, by simpa using le_of_writeFrom htext (by decide)⟩
    rintro rfl
    obtain rfl := Option.some.inj htext
    exact Xml.not_isDocument_endTag _ _ hdocument
  · rintro ⟨hne, hfits⟩
    obtain ⟨body, elements, htext, hcontent, hsentences⟩ := writeFrom_spec htree hlines
      (by omega : 0 + sentences.length ≤ 2147483647)
    rw [if_pos ⟨rfl, hne⟩] at htext
    have helement : IsElement (.mk (bytes "corpus") [] elements) _ :=
      .full (by decide) .nil .nil (show [].all Xml.isBlank = true from rfl)
        (show [].all Xml.isBlank = true from rfl) hcontent
    refine ⟨_, [], elements, htext, ⟨[], _, [lf], ?_, .nil, helement, .blank rfl .nil⟩, hsentences⟩
    have h₁ : bytes "<corpus>" = 60 :: (bytes "corpus" ++ [62]) := by decide
    have h₂ : bytes "</corpus>\n" = 60 :: 47 :: (bytes "corpus" ++ [62, lf]) := by decide
    simp [h₁, h₂]

/-- A sentence of two words, the first of them below the second. -/
def markedWords : Sentence :=
  (((Sentence.clear.addWord (bytes "<a>")).addWord (bytes "\"b\"")).setHead 1 2
    (bytes "det")).setHead 2 0 (bytes "root")

/-- Two sentences with markup characters. -/
theorem isMatxin_iff_markedWords : IsMatxin [markedWords, markedWords] := by
  have hreached : markedWords.Reached :=
    @Sentence.Reached.perform _ (.setHead 2 0 (bytes "root"))
      (@Sentence.Reached.perform _ (.setHead 1 2 (bytes "det"))
        (@Sentence.Reached.perform _ (.add (bytes "\"b\""))
          (@Sentence.Reached.perform _ (.add (bytes "<a>")) .fresh trivial) trivial) (by decide))
      (by decide)
  have htwo : Forest.LeadsTo markedWords.parent 2 0 := .single (by decide)
  have htree : markedWords.IsTree := by
    refine ⟨hreached.linksAgree, by decide, fun i hpos hlt => ?_⟩
    have hlt : i < 3 := hlt
    obtain rfl | rfl : i = 1 ∨ i = 2 := by omega
    · exact .head (by decide) htwo
    · exact htwo
  have hlines : ∀ word ∈ markedWords.words.drop 1, HasLines word := by
    intro word hword
    have hascii : ∀ word ∈ markedWords.words.drop 1,
        ∀ text ∈ [word.form, word.lemma, word.feats, word.deprel],
          text.all (fun c => 32 ≤ c && c < 0x80) = true := by
      decide
    have hline := fun text htext => Xml.isLine_of_ascii (hascii word hword text htext)
    exact ⟨hline _ (by simp), hline _ (by simp), hline _ (by simp), hline _ (by simp)⟩
  exact (isMatxin_iff (by simpa using htree) (by simpa using hlines)).mpr ⟨by simp, by decide⟩

/-- A document without sentences. -/
theorem not_isMatxin_nil : ¬ IsMatxin [] := by
  rintro ⟨text, attributes, elements, htext, hdocument, -⟩
  obtain rfl := Option.some.inj htext
  exact Xml.not_isDocument_endTag _ _ hdocument

end UDPipe.Matxin
