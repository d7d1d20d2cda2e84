import UDPipe.Bytes
import Mathlib.Data.List.Basic
import Mathlib.Logic.Relation
import Mathlib.Logic.Function.Iterate

/-!
# The resource loader

`threadsafe_resource_loader` of `utils/threadsafe_resource_loader.h` keeps at most
`concurrent_limit` resources loaded for any number of clients. A critical section is one
step here. A client that waits on the condition variable goes on only when the guard that
it checks again lets it, and while a resource loads the lock is free, so that other
clients take their steps. The notifications only wake waiting clients; any order of
steps is considered, so they are not modelled. The counters are `unsigned`, so the use
count of a resource is that of its loads only while there are fewer than 2^32 of them.
-/

namespace UDPipe.ResourceLoader

/-- The operator `++` on an `unsigned`. -/
def increment (n : ℕ) : ℕ := (n + 1) % unsignedValues

/-- The operator `--` on an `unsigned`. -/
def decrement (n : ℕ) : ℕ := if n = 0 then unsignedValues - 1 else n - 1

/-- Below its limit the counter counts. -/
theorem increment_of_lt {n : ℕ} (h : n + 1 < unsignedValues) : increment n = n + 1 :=
  Nat.mod_eq_of_lt h

/-- A counter that is not zero counts back. -/
theorem decrement_of_ne {n : ℕ} (h : n ≠ 0) : decrement n = n - 1 := if_neg h

/-- The enumeration `resource_state`. -/
inductive ResourceState
  | notLoaded | loading | loaded
  deriving DecidableEq, Repr

/-- The struct `resource_info`. The resource is given by its number. -/
structure ResourceInfo where
  usedCount : ℕ := 0
  state : ResourceState := .notLoaded
  deriving DecidableEq, Repr

/-- The class `threadsafe_resource_loader`; the queue begins with its front. -/
structure Loader where
  concurrentLimit : ℕ
  resources : List ResourceInfo := []
  loadedResources : List ℕ := []
  usedResources : ℕ := 0
  queuedResources : List ℕ := []
  deriving DecidableEq, Repr

/-- A call of a method of a resource. -/
inductive Call
  | load (id : ℕ)
  | release (id : ℕ)
  deriving DecidableEq, Repr

/-- What a client is doing: nothing, waiting in the queue to load a resource, loading it
without the lock, or waiting until another client has loaded it. -/
inductive Activity
  | idle
  | queued (id : ℕ)
  | loading (id : ℕ)
  | waiting (id : ℕ)
  deriving DecidableEq, Repr

/-- A client with the resources that it has loaded and not released, once for each load. -/
structure Client where
  activity : Activity := .idle
  holds : List ℕ := []
  deriving DecidableEq, Repr

namespace Loader

/-- `resources[id]`. -/
def info (l : Loader) (id : ℕ) : ResourceInfo := l.resources.getD id {}

/-- Change `resources[id]`. -/
def modify (l : Loader) (id : ℕ) (f : ResourceInfo → ResourceInfo) : Loader :=
  { l with resources := l.resources.modify id f }

/-- The method `add`. -/
def add (l : Loader) : Loader := { l with resources := l.resources ++ [{}] }

/-- Erase a resource from `loaded_resources` wherever it is. -/
def dropLoaded (l : Loader) (id : ℕ) : Loader :=
  { l with loadedResources := l.loadedResources.filter (· ≠ id) }

/-- Move a resource to the end of `loaded_resources`. -/
def touch (l : Loader) (id : ℕ) : Loader :=
  { l with loadedResources := l.loadedResources.filter (· ≠ id) ++ [id] }

/-- The guard of the wait for a slot. -/
def mayProceed (l : Loader) (id : ℕ) : Bool :=
  l.usedResources < l.concurrentLimit && l.queuedResources.head? == some id

/-- The first resource of `loaded_resources` that is not used. -/
def oldestUnused (l : Loader) : Option ℕ :=
  l.loadedResources.find? fun id => (l.info id).usedCount == 0

/-- Release the oldest unused resource. -/
def evict (l : Loader) : Loader × List Call :=
  match l.oldestUnused with
  | none => (l, [])
  | some id =>
    ({ l.modify id ({ · with state := .notLoaded }) with
        loadedResources := l.loadedResources.erase id }, [.release id])

/-- Take a slot for the front of the queue, up to the call that loads the resource. -/
def takeSlot (l : Loader) (id : ℕ) : Loader × List Call :=
  let l := { l with queuedResources := l.queuedResources.tail }
  let (l, calls) := if l.loadedResources.length = l.concurrentLimit then l.evict else (l, [])
  ({ l with
      loadedResources := l.loadedResources ++ [id]
      usedResources := increment l.usedResources }, calls ++ [.load id])

/-- The client in the queue goes on if the guard lets it. -/
def proceed (l : Loader) (id : ℕ) : Option (Loader × List Call) :=
  if l.mayProceed id then some (l.takeSlot id) else none

/-- Put a resource to be loaded into the queue. -/
def enqueue (l : Loader) (id : ℕ) : Loader :=
  { l.modify id ({ · with usedCount := 1, state := .loading }) with
    queuedResources := l.queuedResources ++ [id] }

/-- Use a resource, which is loaded already, for the first time. -/
def useAgain (l : Loader) (id : ℕ) : Loader :=
  { (l.modify id ({ · with usedCount := 1 })).touch id with
    usedResources := increment l.usedResources }

/-- The end of the wait until another client has loaded the resource: it is given out,
or its load has failed. -/
def afterWait (l : Loader) (id : ℕ) : Loader :=
  match (l.info id).state with
  | .loaded => l.touch id
  | _ => l.modify id fun r => { r with usedCount := decrement r.usedCount }

/-- The critical section after the load of a resource. -/
def finishLoad (l : Loader) (id : ℕ) (loaded : Bool) : Loader :=
  if loaded then l.modify id ({ · with state := .loaded })
  else
    { (l.modify id fun r =>
        { usedCount := decrement r.usedCount, state := .notLoaded }).dropLoaded id with
      usedResources := decrement l.usedResources }

/-- The method `release`. -/
def release (l : Loader) (id : ℕ) : Loader :=
  if id < l.resources.length then
    if (l.info id).usedCount = 0 then l
    else
      let l := l.modify id fun r => { r with usedCount := decrement r.usedCount }
      if (l.info id).usedCount = 0 then { l with usedResources := decrement l.usedResources } else l
  else l

end Loader

/-! ### The steps of a client -/

/-- What a client can do when it gets the lock. -/
inductive Action
  | load (id : ℕ)
  | proceed
  | finish (loaded : Bool)
  | wake
  | release (id : ℕ)
  deriving DecidableEq, Repr

/-- The loader and the client after a step, and the calls of resources in it. -/
structure Outcome where
  loader : Loader
  client : Client
  calls : List Call := []
  deriving DecidableEq, Repr

namespace Client

/-- The client has got a resource. -/
def hold (c : Client) (id : ℕ) : Client := { activity := .idle, holds := id :: c.holds }

/-- The client gives a resource back, or has not got it. -/
def rest (c : Client) : Client := { c with activity := .idle }

/-- The end of a wait for another client, with the resource or without. -/
def endWait (l : Loader) (c : Client) (id : ℕ) : Outcome :=
  ⟨l.afterWait id, if (l.info id).state = .loaded then c.hold id else c.rest, []⟩

/-- The method `load` up to where it returns, gives up the lock to load, or waits. -/
def load (l : Loader) (c : Client) (id : ℕ) : Outcome :=
  if id < l.resources.length then
    if (l.info id).usedCount = 0 then
      if (l.info id).state = .loaded then ⟨l.useAgain id, c.hold id, []⟩
      else
        let l := l.enqueue id
        match l.proceed id with
        | some (l, calls) => ⟨l, { c with activity := .loading id }, calls⟩
        | none => ⟨l, { c with activity := .queued id }, []⟩
    else
      let l := l.modify id fun r => { r with usedCount := increment r.usedCount }
      if (l.info id).state = .loading then ⟨l, { c with activity := .waiting id }, []⟩
      else c.endWait l id
  else ⟨l, c, []⟩

/-- One step of a client, if it can take it. -/
def step (l : Loader) (c : Client) (action : Action) : Option Outcome :=
  match c.activity, action with
  | .idle, .load id => some (c.load l id)
  | .queued id, .proceed =>
    (l.proceed id).map fun result => ⟨result.1, { c with activity := .loading id }, result.2⟩
  | .loading id, .finish loaded =>
    some ⟨l.finishLoad id loaded, if loaded then c.hold id else c.rest, []⟩
  | .waiting id, .wake => if (l.info id).state = .loading then none else some (c.endWait l id)
  | .idle, .release id =>
    if id ∈ c.holds then some ⟨l.release id, { c with holds := c.holds.erase id }, []⟩ else none
  | _, _ => none

end Client

/-- The loader with all its clients. -/
structure System where
  loader : Loader
  clients : List Client
  deriving DecidableEq, Repr

namespace System

/-- A number of resources have been added, and no client has done anything yet. -/
def init (limit : UInt32) (resources clients : ℕ) : System where
  loader := Loader.add^[resources] { concurrentLimit := limit.toNat }
  clients := List.replicate clients {}

/-- One step of client `i`. -/
def step (s : System) (i : ℕ) (action : Action) : Option (System × List Call) :=
  s.clients[i]?.bind fun c => (c.step s.loader action).map fun o =>
    (⟨o.loader, s.clients.set i o.client⟩, o.calls)

/-- Given steps one after another. -/
def run : List (ℕ × Action) → System → Option System
  | [], s => some s
  | (i, action) :: rest, s => (s.step i action).bind fun result => run rest result.1

/-- The states that any interleaving of the clients leads to. -/
def Reachable (start s : System) : Prop :=
  Relation.ReflTransGen (fun s s' => ∃ i action calls, s.step i action = some (s', calls)) start s

/-- What steps lead to is reachable. -/
theorem reachable_of_run {steps : List (ℕ × Action)} {start s : System}
    (h : start.run steps = some s) : Reachable start s := by
  induction steps generalizing start with
  | nil =>
    obtain rfl := Option.some.inj h
    exact .refl
  | cons step rest ih =>
    obtain ⟨⟨next, calls⟩, hnext, hrest⟩ := Option.bind_eq_some_iff.mp h
    exact .head ⟨step.1, step.2, calls, hnext⟩ (ih hrest)

end System

end UDPipe.ResourceLoader
