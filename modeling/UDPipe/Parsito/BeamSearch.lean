import UDPipe.Library.Heap
import UDPipe.Parsito.Extractors

/-!
# Beam search of the neural parser

The beam search of `parsito/parser/parser_nn.cpp`. All configurations of the beam
point to one tree, so each of them saves its heads and relations, and the tree is
refreshed from them before a configuration is used. The ids of the embeddings are
cached for the tree as it was when they were looked up last. Two beams take turns:
one is read while the other one is filled.
-/

namespace UDPipe.Parsito

/-- `embedding::lookup_word`. -/
abbrev Embedding := Bytes → ℤ

/-- The class `parser_nn`. What the network makes of the ids it reads is a parameter. -/
structure ParserNN (κ : Type) where
  singleRoot : Bool
  system : TransitionSystem
  nodes : NodeExtractor
  values : List ValueExtractor
  embeddings : List Embedding
  /-- The outcomes for the ids of the extracted nodes. -/
  network : List (Option (List ℤ)) → List κ
  log : κ → κ

/-- `embeddings_values` and `embeddings` of a node, at one index. -/
structure CachedEmbedding where
  value : Bytes
  id : ℤ
  deriving DecidableEq, Repr

/-- `beam_size_configuration`. The tree of its configuration is the one all share. -/
structure BeamSizeConfiguration (κ : Type) where
  stack : List ℤ
  buffer : List ℤ
  heads : List ℤ
  deprels : List Bytes
  cost : κ

/-- `beam_size_alternative`: the position of the configuration, and the transition,
if one is to be performed. -/
structure BeamSizeAlternative (κ : Type) where
  bsConf : ℕ
  transition : Option ℕ
  cost : κ

/-- What `parser_nn::workspace` holds during a beam search, and the tree. -/
structure Workspace (κ : Type) where
  tree : Tree
  embeddings : List (List CachedEmbedding)
  extractedNodes : List ℤ
  extractedEmbeddings : List (Option (List ℤ))
  outcomes : List κ
  bsConfs : ℕ → List (BeamSizeConfiguration κ)
  bsConfsSize : ℕ → ℕ
  bsAlternatives : List (BeamSizeAlternative κ)

namespace Tree

/-- One step of the loop of `refresh_tree`. -/
def refreshNode (heads : List ℤ) (deprels : List Bytes) (nodes : List Node) (i : ℕ) :
    List Node :=
  let head := heads.getD i 0
  let linked := modifyLinks nodes i fun l => { l with head, deprel := deprels.getD i [] }
  if head ≥ 0 then
    modifyLinks linked head fun l => { l with children := l.children ++ [(i : ℤ)] }
  else linked

/-- `refresh_tree`. -/
def refresh (t : Tree) (heads : List ℤ) (deprels : List Bytes) : Tree where
  nodes := (List.range t.nodes.length).foldl (refreshNode heads deprels)
    (t.nodes.map fun v => { v with children := [] })

end Tree

variable {κ : Type}

namespace BeamSizeConfiguration

/-- What the constructor makes; the source leaves the cost open. -/
def fresh (cost : κ) : BeamSizeConfiguration κ where
  stack := []
  buffer := []
  heads := []
  deprels := []
  cost := cost

/-- `save_tree`. -/
def saveTree (bsConf : BeamSizeConfiguration κ) (t : Tree) : BeamSizeConfiguration κ :=
  { bsConf with
    heads := t.nodes.map (·.head) ++ bsConf.heads.drop t.nodes.length
    deprels := t.nodes.map (·.deprel) ++ bsConf.deprels.drop t.nodes.length }

/-- The tree as `refresh_tree` leaves it. -/
def refreshTree (bsConf : BeamSizeConfiguration κ) (t : Tree) : Tree :=
  t.refresh bsConf.heads bsConf.deprels

end BeamSizeConfiguration

namespace ParserNN

variable (parser : ParserNN κ)

/-- The configuration of an element of the beam, with the shared tree. -/
def conf (bsConf : BeamSizeConfiguration κ) (t : Tree) : Configuration where
  t := t
  stack := bsConf.stack
  buffer := bsConf.buffer
  singleRoot := parser.singleRoot

/-! ### Embeddings -/

/-- The extractors with their embeddings. -/
def lookups : List (ValueExtractor × Embedding) := parser.values.zip parser.embeddings

/-- The value of a node and its id. -/
def lookup (n : Node) (l : ValueExtractor × Embedding) : CachedEmbedding where
  value := l.1.extract n
  id := l.2 (l.1.extract n)

/-- Compute the embeddings of a node. -/
def computeEmbeddings (n : Node) (row : List CachedEmbedding) : List CachedEmbedding :=
  parser.lookups.map (lookup n) ++ row.drop parser.lookups.length

/-- Update those embeddings of a node whose values have changed. -/
def updateEmbeddings (n : Node) :
    List (ValueExtractor × Embedding) → List CachedEmbedding → List CachedEmbedding
  | l :: ls, cached :: row =>
    (if l.1.extract n ≠ cached.value then lookup n l else cached) :: updateEmbeddings n ls row
  | _, row => row

/-- `network.propagate`, which reads one id for each embedding. -/
def propagate (sequences : List (Option (List ℤ))) : List κ :=
  parser.network (sequences.map (Option.map (List.take parser.lookups.length)))

/-! ### The search -/

/-- Resize a beam. -/
def resizeBeam (beamSize : ℕ) (cost : κ) (confs : List (BeamSizeConfiguration κ)) :
    List (BeamSizeConfiguration κ) :=
  (confs ++ List.replicate (beamSize - confs.length)
    (BeamSizeConfiguration.fresh cost)).take beamSize

variable [LinearOrder κ] [Add κ] [Mul κ] [Div κ] [NatCast κ]

/-- Before the loop: the first beam has the initial configuration. -/
def beamStart (beamSize : ℕ) (w : Workspace κ) (t : Tree) : Workspace κ :=
  let initial := Configuration.init parser.singleRoot t
  let confs := resizeBeam beamSize ((0 : ℕ) : κ) (w.bsConfs 0)
  let first := confs.modify 0 fun bsConf =>
    let started : BeamSizeConfiguration κ :=
      { bsConf with stack := initial.stack, buffer := initial.buffer, cost := ((0 : ℕ) : κ) }
    started.saveTree initial.t
  { w with
    tree := initial.t
    embeddings :=
      (initial.t.nodes.zipIdx.map fun v => parser.computeEmbeddings v.1 (w.embeddings.getD v.2 []))
        ++ w.embeddings.drop initial.t.nodes.length
    bsConfs := fun i => if i = 0 then first else resizeBeam beamSize ((0 : ℕ) : κ) (w.bsConfs i)
    bsConfsSize := fun i => if i = 0 then 1 else 0 }

/-- Compute the outcomes for a configuration. -/
def classify (w : Workspace κ) (bsConf : BeamSizeConfiguration κ) : Workspace κ :=
  let t := bsConf.refreshTree w.tree
  let embeddings := List.zipWith (fun n row => updateEmbeddings n parser.lookups row)
    t.nodes w.embeddings ++ w.embeddings.drop t.nodes.length
  let extractedNodes := parser.nodes.extract (parser.conf bsConf t)
  let extractedEmbeddings := extractedNodes.map fun i =>
    if i ≥ 0 then some ((embeddings.getD i.toNat []).map (·.id)) else none
  { w with
    tree := t
    embeddings
    extractedNodes
    extractedEmbeddings
    outcomes := parser.propagate extractedEmbeddings }

/-- `operator<` of the alternatives puts the least cost in front. -/
abbrev HeapOperations (κ : Type) [LinearOrder κ] :=
  Heap.Operations fun a : BeamSizeAlternative κ => a.cost

variable (ops : HeapOperations κ) (beamSize iteration : ℕ)

/-- Store an alternative, unless the beam is full of better ones. -/
def store (w : Workspace κ) (alternative : BeamSizeAlternative κ) : Workspace κ :=
  { w with bsAlternatives := Heap.offer ops beamSize w.bsAlternatives alternative }

/-- The cost after a transition: the mean of the logarithms so far. -/
def costAfter (cost outcome : κ) : κ :=
  (cost * (iteration : κ) + parser.log outcome) / ((iteration + 1 : ℕ) : κ)

/-- Store the alternatives of the configuration at a position of the beam. -/
def storeAlternatives (w : Workspace κ) (c : ℕ) : Workspace κ :=
  match (w.bsConfs (iteration % 2))[c]? with
  | none => w
  | some bsConf =>
    if (parser.conf bsConf w.tree).final then
      store ops beamSize w { bsConf := c, transition := none, cost := bsConf.cost }
    else
      let w := parser.classify w bsConf
      w.outcomes.zipIdx.foldl (fun w outcome =>
        if parser.system.applicable (parser.conf bsConf w.tree) outcome.2 then
          store ops beamSize w
            { bsConf := c
              transition := some outcome.2
              cost := parser.costAfter iteration bsConf.cost outcome.1 }
        else w) w

/-- The loop over the first configurations of the beam. -/
def storeFirst (count : ℕ) (w : Workspace κ) : Workspace κ :=
  (List.range count).foldl (parser.storeAlternatives ops beamSize iteration)
    { w with bsAlternatives := [] }

/-- All configurations of the beam are final. -/
def allFinal (w : Workspace κ) : Bool :=
  ((w.bsConfs (iteration % 2)).take (w.bsConfsSize (iteration % 2))).all fun bsConf =>
    (parser.conf bsConf w.tree).final

/-- Put a configuration behind those of the next beam. -/
def addConf (w : Workspace κ) (bsConf : BeamSizeConfiguration κ) : Workspace κ :=
  let next := (iteration + 1) % 2
  { w with
    bsConfs := Function.update w.bsConfs next
      ((w.bsConfs next).set (w.bsConfsSize next) bsConf)
    bsConfsSize := Function.update w.bsConfsSize next (w.bsConfsSize next + 1) }

/-- Copy the configuration of an alternative to the next beam, and perform its
transition there. -/
def performAlternative (w : Workspace κ) (alternative : BeamSizeAlternative κ) :
    Option (Workspace κ) :=
  (w.bsConfs (iteration % 2))[alternative.bsConf]?.bind fun bsConf =>
    let bsConfNew := { bsConf with cost := alternative.cost }
    match alternative.transition with
    | none => some (addConf iteration w bsConfNew)
    | some transition =>
      let t := bsConfNew.refreshTree w.tree
      (parser.system.perform (parser.conf bsConfNew t) transition).map fun result =>
        let performed : BeamSizeConfiguration κ :=
          { bsConfNew with stack := result.1.stack, buffer := result.1.buffer }
        addConf iteration { w with tree := result.1.t } (performed.saveTree result.1.t)

/-- The body of the loop. -/
def beamIteration (w : Workspace κ) : Option (Workspace κ) :=
  let w := parser.storeFirst ops beamSize iteration (w.bsConfsSize (iteration % 2)) w
  w.bsAlternatives.foldlM (parser.performAlternative iteration)
    { w with bsConfsSize := Function.update w.bsConfsSize ((iteration + 1) % 2) 0 }

/-- The loop, which ends after the first beam whose configurations are all final. -/
def beamLoop (fuel iteration : ℕ) (w : Workspace κ) : Option (ℕ × Workspace κ) :=
  match fuel with
  | 0 => none
  | fuel + 1 =>
    (parser.beamIteration ops beamSize iteration w).bind fun next =>
      if parser.allFinal iteration w then some (iteration + 1, next)
      else beamLoop fuel (iteration + 1) next

/-- The configuration of the highest cost. -/
def best (bsConfs : List (BeamSizeConfiguration κ)) (size : ℕ) : ℕ :=
  (List.range' 1 (size - 1)).foldl (fun best i =>
    match bsConfs[i]?, bsConfs[best]? with
    | some bsConf, some bestConf => if bsConf.cost > bestConf.cost then i else best
    | _, _ => best) 0

/-- `parser_nn::parse_beam_search`: the tree, and its cost. -/
def parseBeamSearch (fuel : ℕ) (w : Workspace κ) (t : Tree) : Option (Tree × κ) :=
  (parser.beamLoop ops beamSize fuel 0 (parser.beamStart beamSize w t)).bind fun result =>
    let bsConfs := result.2.bsConfs (result.1 % 2)
    bsConfs[best bsConfs (result.2.bsConfsSize (result.1 % 2))]?.map fun bsConf =>
      (bsConf.refreshTree result.2.tree,
        bsConf.cost * ((t.nodes.length - 1 : ℕ) : κ))

end ParserNN

end UDPipe.Parsito
