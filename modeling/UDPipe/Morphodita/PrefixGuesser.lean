import UDPipe.Morphodita.StatisticalGuesser

/-!
# The prefix guesser

Tables of initial and of middle prefixes, with masks of the tag filters they go with. The
guesser keeps an initial part of the form, removes middle prefixes behind it and looks the
rest up in the dictionary. The strings with an initial part are put together in one copy of
the form, which is never restored.
-/

namespace UDPipe.Morphodita

/-! ### Tag filters -/

/-- The class `tag_filter::char_filter`: its characters are a part of the wildcard. -/
structure CharFilter where
  pos : ℕ
  negate : Bool
  charsOffset : ℕ
  charsLen : ℕ
  deriving DecidableEq, Repr

/-- The class `tag_filter`. -/
structure TagFilter where
  wildcard : Bytes
  filters : List CharFilter
  deriving DecidableEq, Repr

namespace TagFilter

/-- The characters in brackets: the first one, and those up to a closing bracket. -/
def charsLength : Bytes → ℕ
  | [] => 0
  | _ :: filter => (filter.takeWhile (· ≠ 93)).length + 1

/-- The loop of the constructor over the filter from `filterPos` on. -/
def charFilters (tagPos filterPos : ℕ) : Bytes → List CharFilter
  | [] => []
  | c :: filter =>
    if c = 63 then charFilters (tagPos + 1) (filterPos + 1) filter
    else if c = 91 then
      let negate := filter.head? = some 94
      let skipped := if negate then 1 else 0
      let chars := filter.drop skipped
      let charsStart := filterPos + 1 + skipped
      let charsLen := charsLength chars
      ⟨tagPos, negate, charsStart, charsLen⟩ ::
        if h : charsLen < chars.length then
          charFilters (tagPos + 1) (charsStart + charsLen + 1) (chars.drop (charsLen + 1))
        else []
    else ⟨tagPos, false, filterPos, 1⟩ :: charFilters (tagPos + 1) (filterPos + 1) filter
termination_by filter => filter.length
decreasing_by
  all_goals simp only [List.length_cons, List.length_drop]
  all_goals omega

/-- The constructor; a C string ends at a null character. -/
def ofString (filter : Bytes) : TagFilter :=
  let wildcard := filter.takeWhile (· ≠ 0)
  ⟨wildcard, charFilters 0 0 wildcard⟩

/-- The method `matches`: a tag that ends before the place of a filter is accepted. -/
def matchesTag (filter : TagFilter) (tag : Bytes) : Bool :=
  let tag := tag.takeWhile (· ≠ 0)
  let rec go : List CharFilter → Bool
    | [] => true
    | f :: filters =>
      match tag[f.pos]? with
      | none => true
      | some c =>
        let chars := (filter.wildcard.drop f.charsOffset).take f.charsLen
        (chars.contains c ^^ f.negate) && go filters
  go filter.filters

end TagFilter

/-! ### Encoder -/

/-- What the encoder has read: the filters and the masks of the prefixes. -/
structure PrefixTables where
  filters : List Bytes := []
  prefixesInitial : List (Bytes × ℕ) := []
  prefixesMiddle : List (Bytes × ℕ) := []
  deriving DecidableEq, Repr

namespace PrefixTables

/-- The bits are added to the mask of a key. -/
def addMask (map : List (Bytes × ℕ)) (key : Bytes) (filter : ℕ) : List (Bytes × ℕ) :=
  match map with
  | [] => [(key, filter)]
  | e :: map => if e.1 = key then (e.1, e.2 ||| filter) :: map else e :: addMask map key filter

/-- The pass of the loop for a line. An empty line ends the initial prefixes, and there is no
bit for a thirty-third filter. -/
def readLine (tables : PrefixTables) (initial : Bool) (line : Bytes) :
    Option (PrefixTables × Bool) :=
  if line = [] ∧ initial = true then some (tables, false)
  else
    let tokens := split tab line
    if tokens.length ≠ 2 then none
    else
      let key := tokens.getD 0 []
      let filter := tokens.getD 1 []
      let filters :=
        if tables.filters.contains filter then tables.filters else tables.filters ++ [filter]
      let bit := filters.idxOf filter
      if bit < 32 then
        if initial then
          some ({ tables with
            filters, prefixesInitial := addMask tables.prefixesInitial key (2 ^ bit) }, initial)
        else
          some ({ tables with
            filters, prefixesMiddle := addMask tables.prefixesMiddle key (2 ^ bit) }, initial)
      else none

/-- The loop over the lines. -/
def readLines : List Bytes → PrefixTables × Bool → Option PrefixTables
  | [], state => some state.1
  | line :: lines, (tables, initial) => do
    let state ← readLine tables initial line
    readLines lines state

end PrefixTables

/-- A map of masks with the prefixes of its keys. -/
def masksMap (map : List (Bytes × ℕ)) : PersistentUnorderedMap :=
  PersistentUnorderedMap.ofUnordered (PersistentUnorderedMap.enlarged 0 map true false) (5 * ·)
    (toBytes 4)

/-- The method `morpho_prefix_guesser_encoder::encode`. -/
def encodePrefixGuesser (text : Bytes) : Option Bytes := do
  let tables ← PrefixTables.readLines (textLines text) ({}, true)
  let size ← add1B tables.filters.length
  let filters ← tables.filters.mapM encodeString
  let prefixesInitial ← (masksMap tables.prefixesInitial).save
  let prefixesMiddle ← (masksMap tables.prefixesMiddle).save
  return size ++ filters.flatten ++ prefixesInitial ++ prefixesMiddle

/-! ### Guesser -/

/-- The class `morpho_prefix_guesser`. -/
structure MorphoPrefixGuesser where
  tagFilters : List TagFilter
  prefixesInitial : PersistentUnorderedMap
  prefixesMiddle : PersistentUnorderedMap
  deriving DecidableEq, Repr

/-- The mask of a prefix that is found. -/
def maskAt (m : PersistentUnorderedMap) (str : Bytes) : Option ℕ :=
  (m.atTyped str 4).map (unalignedLoad 4)

/-- The copy of the form and the lemmas, with the strings that were passed to the dictionary. -/
structure PrefixWork where
  formTmp : Bytes := []
  passed : List Bytes := []
  lemmas : List (Bytes × Bytes)
  deriving DecidableEq, Repr

namespace MorphoPrefixGuesser

/-- The method `load`. -/
def load (data : Bytes) : Option (MorphoPrefixGuesser × Bytes) := do
  let (size, data) ← next1B data
  let (tagFilters, data) ← loadTags size data
  let (prefixesInitial, data) ← PersistentUnorderedMap.load data
  let (prefixesMiddle, data) ← PersistentUnorderedMap.load data
  return (⟨tagFilters.map TagFilter.ofString, prefixesInitial, prefixesMiddle⟩, data)

/-- `resize`. -/
def resize (masks : List ℕ) (size : ℕ) : List ℕ :=
  masks.take size ++ List.replicate (size - masks.length) 0

/-- The loop over the ends of the middle prefixes that begin at `middle`, from `i` on. -/
def extendMasks (find : Bytes → Option ℕ) (form : Bytes) (middle : ℕ) :
    ℕ → ℕ → List ℕ → List ℕ
  | 0, _, masks => masks
  | count + 1, i, masks =>
    match find ((form.drop middle).take (i - middle)) with
    | none => masks
    | some mask =>
      let masks :=
        if mask ≠ 0 then
          let masks := if i + 1 > masks.length then resize masks (i + 1) else masks
          masks.set i (masks.getD i 0 ||| (masks.getD middle 0 &&& mask))
        else masks
      extendMasks find form middle count (i + 1) masks

/-- The loop over the filters: one of the mask matches the tag. -/
def keeps (tagFilters : List TagFilter) (mask : ℕ) (tag : Bytes) : Bool :=
  tagFilters.zipIdx.any fun (tagFilter, filter) => mask.testBit filter && tagFilter.matchesTag tag

/-- The pass of the loop over the new lemmas, with the number of lemmas that are kept. -/
def filterLemma (tagFilters : List TagFilter) (mask : ℕ) (segment : Bytes)
    (state : List (Bytes × Bytes) × ℕ) (i : ℕ) : List (Bytes × Bytes) × ℕ :=
  match state.1[i]? with
  | some found =>
    if keeps tagFilters mask found.2 then
      if i = state.2 then
        (state.1.modify state.2 fun found => (segment ++ found.1, found.2), state.2 + 1)
      else (state.1.set state.2 (segment ++ found.1, found.2), state.2 + 1)
    else state
  | none => state

/-- The lookup of the form without the segment from `initial` to `middle`. The dictionary
appends its analyses to the lemmas. -/
def tryForm (tagFilters : List TagFilter) (dictionary : Bytes → List (Bytes × Bytes))
    (form : Bytes) (initial middle mask : ℕ) (work : PrefixWork) : PrefixWork :=
  let formTmp :=
    if initial ≠ 0 then
      let formTmp := if work.formTmp = [] then form else work.formTmp
      formTmp.take (middle - initial) ++ form.take initial ++ formTmp.drop middle
    else work.formTmp
  let str := ((if initial ≠ 0 then formTmp else form).drop (middle - initial)).take
    (form.length - middle + initial)
  let lemmas := work.lemmas ++ dictionary str
  let (lemmas, newSize) :=
    (List.range' work.lemmas.length (lemmas.length - work.lemmas.length)).foldl
      (filterLemma tagFilters mask ((form.drop initial).take (middle - initial)))
      (lemmas, work.lemmas.length)
  { formTmp, passed := work.passed ++ [str]
    lemmas := if newSize < lemmas.length then lemmas.take newSize else lemmas }

/-- The loop over the ends of the middle prefixes. There is no result where it does not end
within the fuel. -/
def middleLoop (tagFilters : List TagFilter) (prefixesMiddle : Bytes → Option ℕ)
    (dictionary : Bytes → List (Bytes × Bytes)) (form : Bytes) (initial : ℕ) :
    ℕ → ℕ → List ℕ → PrefixWork → Option (List ℕ × PrefixWork)
  | 0, _, _, _ => none
  | fuel + 1, middle, middleMasks, work =>
    if middle < middleMasks.length then
      if middleMasks.getD middle 0 = 0 then
        middleLoop tagFilters prefixesMiddle dictionary form initial fuel (middle + 1) middleMasks
          work
      else
        let middleMasks := extendMasks prefixesMiddle form middle (form.length - (middle + 1))
          (middle + 1) middleMasks
        let work :=
          if middle > initial ∧ middle < form.length then
            tryForm tagFilters dictionary form initial middle (middleMasks.getD middle 0) work
          else work
        middleLoop tagFilters prefixesMiddle dictionary form initial fuel (middle + 1) middleMasks
          work
    else some (middleMasks, work)

/-- The mask of an initial part: all filters for the empty one. -/
def initialMask (tagFilters : List TagFilter) (prefixesInitial : Bytes → Option ℕ) (form : Bytes)
    (initial : ℕ) : Option ℕ :=
  if initial = 0 then some (2 ^ tagFilters.length - 1) else prefixesInitial (form.take initial)

/-- The loop over the initial parts, for so many of them. -/
def initialLoop (tagFilters : List TagFilter) (prefixesInitial prefixesMiddle : Bytes → Option ℕ)
    (dictionary : Bytes → List (Bytes × Bytes)) (form : Bytes) :
    ℕ → ℕ → List ℕ → PrefixWork → Option PrefixWork
  | 0, _, _, work => some work
  | count + 1, initial, middleMasks, work =>
    match initialMask tagFilters prefixesInitial form initial with
    | none => some work
    | some mask =>
      if mask = 0 then
        initialLoop tagFilters prefixesInitial prefixesMiddle dictionary form count (initial + 1)
          middleMasks work
      else do
        let (middleMasks, work) ← middleLoop tagFilters prefixesMiddle dictionary form initial
          (form.length + 1) initial (resize middleMasks initial ++ [mask]) work
        initialLoop tagFilters prefixesInitial prefixesMiddle dictionary form count (initial + 1)
          middleMasks work

/-- The method `analyze`, with the strings that were passed to the dictionary. For more than
31 filters the shift in the mask of all filters has no defined value. -/
def analyze (guesser : MorphoPrefixGuesser) (dictionary : Bytes → List (Bytes × Bytes))
    (form : Bytes) (lemmas : List (Bytes × Bytes)) :
    Option (List (Bytes × Bytes) × List Bytes) :=
  if form = [] then some (lemmas, [])
  else if guesser.tagFilters.length < 32 then do
    let work ← initialLoop guesser.tagFilters (maskAt guesser.prefixesInitial)
      (maskAt guesser.prefixesMiddle) dictionary form form.length 0 [] { lemmas }
    return (work.lemmas, work.passed)
  else none

end MorphoPrefixGuesser

end UDPipe.Morphodita
