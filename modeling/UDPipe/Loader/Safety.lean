import UDPipe.Loader.ResourceLoader
import Mathlib.Tactic.Common
import Mathlib.Algebra.Ring.Nat
import Mathlib.Algebra.Order.BigOperators.Group.List
import Mathlib.Algebra.Order.Ring.Nat
import Mathlib.Data.List.Nodup
import Mathlib.Data.List.Find

/-!
# Safety of the resource loader

The state of a resource says which clients there are: one that loads it or waits in the
queue to load it, any number that wait for it, and any number that hold it. The counts of
the loader agree with the counts of the clients, and every step keeps that. From the
counts follow the bounds of the loader, and that nothing happens to a resource that is
held.
-/

namespace UDPipe.ResourceLoader

/-! ### Counting clients -/

namespace Client

/-- Whether the client waits in the queue with a resource, as a number. -/
@[simp] def queuedTimes (id : ℕ) (c : Client) : ℕ := if c.activity = .queued id then 1 else 0

/-- Whether the client loads a resource. -/
@[simp] def loadingTimes (id : ℕ) (c : Client) : ℕ := if c.activity = .loading id then 1 else 0

/-- Whether the client waits for a resource that another client loads. -/
@[simp] def waitingTimes (id : ℕ) (c : Client) : ℕ := if c.activity = .waiting id then 1 else 0

/-- How many times the client holds a resource. -/
@[simp] def heldTimes (id : ℕ) (c : Client) : ℕ := c.holds.count id

end Client

/-- The sum of a number over all clients. -/
def total (f : Client → ℕ) (clients : List Client) : ℕ := (clients.map f).sum

/-- One client changes its own summand only. -/
theorem total_set (f : Client → ℕ) {clients : List Client} {i : ℕ} {c : Client}
    (hc : clients[i]? = some c) (c' : Client) :
    total f (clients.set i c') + f c = total f clients + f c' := by
  unfold total
  induction clients generalizing i with
  | nil => simp at hc
  | cons first rest ih =>
    cases i with
    | zero =>
      obtain rfl := Option.some.inj hc
      simp only [List.set_cons_zero, List.map_cons, List.sum_cons]
      omega
    | succ i =>
      have := ih hc
      simp only [List.set_cons_succ, List.map_cons, List.sum_cons]
      omega

/-- A client has no more than all clients together. -/
theorem le_total (f : Client → ℕ) {clients : List Client} {c : Client} (hc : c ∈ clients) :
    f c ≤ total f clients :=
  List.single_le_sum (by simp) _ (List.mem_map_of_mem hc)

/-- How many times clients have asked for a resource and not given it back. -/
def outstanding (id : ℕ) (clients : List Client) : ℕ :=
  total (Client.queuedTimes id) clients + total (Client.loadingTimes id) clients +
    total (Client.waitingTimes id) clients + total (Client.heldTimes id) clients

/-- The use count of a resource can count the loads after the action. -/
def Action.Fits (clients : List Client) : Action → Prop
  | .load id => outstanding id clients + 1 < unsignedValues
  | _ => True

instance (clients : List Client) : DecidablePred (Action.Fits clients)
  | .load id => inferInstanceAs (Decidable (outstanding id clients + 1 < unsignedValues))
  | .proceed | .finish _ | .wake | .release _ => .isTrue trivial

/-! ### The loader and its clients -/

/-- What the loader knows of a resource, by how many clients are queued with it, load it,
wait for it and hold it. -/
structure Entry (r : ResourceInfo) (inQueue inLoaded queued loading waiting held : ℕ) : Prop where
  usedCount : r.usedCount = queued + loading + waiting + held
  queue : inQueue = queued
  isLoading : queued + loading = if r.state = .loading then 1 else 0
  isLoaded : inLoaded = loading + if r.state = .loaded then 1 else 0
  isHeld : 0 < held → r.state = .loaded

/-- The entry of a resource for given clients. -/
def Loader.Knows (l : Loader) (clients : List Client) (id : ℕ) : Prop :=
  Entry (l.info id) (l.queuedResources.count id) (l.loadedResources.count id)
    (total (Client.queuedTimes id) clients) (total (Client.loadingTimes id) clients)
    (total (Client.waitingTimes id) clients) (total (Client.heldTimes id) clients)

/-- How many resources of the list are used. -/
def Loader.usedIn (l : Loader) (loaded : List ℕ) : ℕ := loaded.countP fun id => 0 < (l.info id).usedCount

/-- The loader agrees with its clients, and keeps to its limit. -/
structure Loader.Agrees (l : Loader) (clients : List Client) : Prop where
  entries : ∀ id, l.Knows clients id
  length_le : l.loadedResources.length ≤ l.concurrentLimit
  used : l.usedResources = l.usedIn l.loadedResources

namespace Loader

/-- The modified resource. -/
@[simp] theorem info_modify_self {l : Loader} {id : ℕ} (hid : id < l.resources.length)
    (f : ResourceInfo → ResourceInfo) : (l.modify id f).info id = f (l.info id) := by
  simp [info, modify, hid]

/-- The other resources stay. -/
@[simp] theorem info_modify_of_ne (l : Loader) {id j : ℕ} (hne : j ≠ id)
    (f : ResourceInfo → ResourceInfo) : (l.modify id f).info j = l.info j := by
  simp [info, modify, Ne.symm hne]

end Loader

namespace Client

/-- Two clients count the same for a resource. -/
structure SameFor (id : ℕ) (c c' : Client) : Prop where
  queued : c.queuedTimes id = c'.queuedTimes id
  loading : c.loadingTimes id = c'.loadingTimes id
  waiting : c.waitingTimes id = c'.waitingTimes id
  held : c.heldTimes id = c'.heldTimes id

end Client

/-- A step of one client changes an entry by what this client counts for. -/
theorem Loader.Knows.change {l l' : Loader} {clients : List Client} {i id : ℕ} {c c' : Client}
    (h : l.Knows clients id) (hc : clients[i]? = some c)
    (hentry : ∀ {queued loading waiting held : ℕ},
      Entry (l.info id) (l.queuedResources.count id) (l.loadedResources.count id)
        (queued + c.queuedTimes id) (loading + c.loadingTimes id) (waiting + c.waitingTimes id)
        (held + c.heldTimes id) →
      Entry (l'.info id) (l'.queuedResources.count id) (l'.loadedResources.count id)
        (queued + c'.queuedTimes id) (loading + c'.loadingTimes id) (waiting + c'.waitingTimes id)
        (held + c'.heldTimes id)) : l'.Knows (clients.set i c') id := by
  have hmem := List.mem_of_getElem? hc
  have hrest : ∀ f : Client → ℕ, ∃ rest, total f clients = rest + f c ∧
      total f (clients.set i c') = rest + f c' := by
    intro f
    have hle := le_total f hmem
    have hset := total_set f hc c'
    exact ⟨total f clients - f c, by omega, by omega⟩
  obtain ⟨queued, hqueued, hqueued'⟩ := hrest (Client.queuedTimes id)
  obtain ⟨loading, hloading, hloading'⟩ := hrest (Client.loadingTimes id)
  obtain ⟨waiting, hwaiting, hwaiting'⟩ := hrest (Client.waitingTimes id)
  obtain ⟨held, hheld, hheld'⟩ := hrest (Client.heldTimes id)
  unfold Loader.Knows at h ⊢
  rw [hqueued, hloading, hwaiting, hheld] at h
  rw [hqueued', hloading', hwaiting', hheld']
  exact hentry h

namespace Loader

variable {l l' : Loader} {clients : List Client} {i id : ℕ} {c c' : Client}

/-- The loader is the same for another resource. -/
structure SameFor (id : ℕ) (l l' : Loader) : Prop where
  info : l.info id = l'.info id
  queue : l.queuedResources.count id = l'.queuedResources.count id
  loaded : l.loadedResources.count id = l'.loadedResources.count id

/-- A step that is about one resource changes the entry of this resource only. -/
theorem Agrees.knows_set (h : l.Agrees clients) (id : ℕ) (hc : clients[i]? = some c)
    (hloader : ∀ j ≠ id, l'.SameFor j l) (hclient : ∀ j ≠ id, c'.SameFor j c)
    (hentry : ∀ {queued loading waiting held : ℕ},
      Entry (l.info id) (l.queuedResources.count id) (l.loadedResources.count id)
        (queued + c.queuedTimes id) (loading + c.loadingTimes id) (waiting + c.waitingTimes id)
        (held + c.heldTimes id) →
      Entry (l'.info id) (l'.queuedResources.count id) (l'.loadedResources.count id)
        (queued + c'.queuedTimes id) (loading + c'.loadingTimes id) (waiting + c'.waitingTimes id)
        (held + c'.heldTimes id)) (j : ℕ) : l'.Knows (clients.set i c') j := by
  refine (h.entries j).change hc fun hknows => ?_
  rcases eq_or_ne j id with rfl | hne
  · exact hentry hknows
  · obtain ⟨hinfo, hqueue, hloaded⟩ := hloader j hne
    obtain ⟨hqueued, hloading, hwaiting, hheld⟩ := hclient j hne
    rw [hinfo, hqueue, hloaded, hqueued, hloading, hwaiting, hheld]
    exact hknows

/-- A resource is at most once in the list of loaded resources. -/
theorem Agrees.nodup (h : l.Agrees clients) : l.loadedResources.Nodup := by
  refine List.nodup_iff_count_le_one.mpr fun id => ?_
  obtain ⟨-, -, hloading, hloaded, -⟩ := h.entries id
  rw [hloaded]
  split at hloading <;> split <;> first | omega | simp_all

/-- A resource in the state LOADED is in the list. -/
theorem Agrees.mem_of_loaded (h : l.Agrees clients) (hstate : (l.info id).state = .loaded) :
    id ∈ l.loadedResources := by
  have hcount := (h.entries id).isLoaded
  rw [hstate, if_pos rfl] at hcount
  exact List.count_pos_iff.mp (by omega)

/-- A resource that is neither used nor loaded is not in the list. -/
theorem Agrees.not_mem_of_not_loaded (h : l.Agrees clients) (hused : (l.info id).usedCount = 0)
    (hstate : (l.info id).state ≠ .loaded) : id ∉ l.loadedResources := by
  obtain ⟨hu, hq, hl, hd, hh⟩ := h.entries id
  rw [if_neg hstate] at hd
  exact List.count_eq_zero.mp (by omega)

/-- Dropping a resource from the list erases it once. -/
theorem Agrees.dropLoaded_eq (h : l.Agrees clients) (id : ℕ) :
    (l.dropLoaded id).loadedResources = l.loadedResources.erase id := by
  rw [h.nodup.erase_eq_filter]
  exact List.filter_congr fun j _ => by simp [bne, beq_eq_decide]

/-- Moving a resource of the list to its end is a permutation. -/
theorem Agrees.touch_perm (h : l.Agrees clients) (hid : id ∈ l.loadedResources) :
    (l.touch id).loadedResources.Perm l.loadedResources := by
  have htouch : (l.touch id).loadedResources = l.loadedResources.erase id ++ [id] :=
    congrArg (· ++ [id]) (h.dropLoaded_eq id)
  rw [htouch]
  exact (List.perm_append_singleton _ _).trans (List.perm_cons_erase hid).symm

/-- Only the resources in the list matter. -/
theorem usedIn_congr {loaded : List ℕ} (hinfo : ∀ j ∈ loaded,
    (0 < (l'.info j).usedCount ↔ 0 < (l.info j).usedCount)) :
    l'.usedIn loaded = l.usedIn loaded :=
  List.countP_congr fun j hj => by simpa using hinfo j hj

/-- The number of used resources without one of them. -/
theorem usedIn_erase {loaded : List ℕ} (hid : id ∈ loaded) :
    l.usedIn loaded = l.usedIn (loaded.erase id) + if 0 < (l.info id).usedCount then 1 else 0 := by
  rw [usedIn, (List.perm_cons_erase hid).countP_eq, List.countP_cons]
  simp [usedIn]

/-- Only resources that exist are used. -/
theorem lt_of_used (hused : (l.info id).usedCount ≠ 0) : id < l.resources.length := by
  by_contra hge
  simp [info, List.getElem?_eq_none (not_lt.mp hge)] at hused

/-! ### The critical sections -/

/-- Changing one resource leaves the others. -/
theorem sameFor_modify (l : Loader) {j : ℕ} (hne : j ≠ id) (f : ResourceInfo → ResourceInfo) :
    (l.modify id f).SameFor j l := ⟨info_modify_of_ne l hne f, rfl, rfl⟩

/-- Moving a resource to the end leaves the others. -/
theorem sameFor_touch (l : Loader) {j : ℕ} (hne : j ≠ id) : (l.touch id).SameFor j l := by
  refine ⟨rfl, rfl, ?_⟩
  simp [touch, List.count_filter, hne, Ne.symm hne]

/-- Being the same for a resource is transitive. -/
theorem SameFor.trans {l₁ l₂ l₃ : Loader} (h₁ : l₁.SameFor id l₂) (h₂ : l₂.SameFor id l₃) :
    l₁.SameFor id l₃ :=
  ⟨h₁.info.trans h₂.info, h₁.queue.trans h₂.queue, h₁.loaded.trans h₂.loaded⟩

/-- A loaded resource that was not used is used again. -/
theorem Agrees.useAgain (h : l.Agrees clients) (hlimit : l.concurrentLimit < unsignedValues)
    (hc : clients[i]? = some c) (hidle : c.activity = .idle) (hid : id < l.resources.length)
    (hused : (l.info id).usedCount = 0) (hstate : (l.info id).state = .loaded) :
    (l.useAgain id).Agrees (clients.set i (c.hold id)) := by
  have hmem := h.mem_of_loaded hstate
  have hperm := h.touch_perm hmem
  have hself : (l.useAgain id).info id = { l.info id with usedCount := 1 } :=
    info_modify_self hid _
  have hcount : (l.useAgain id).loadedResources.count id = l.loadedResources.count id :=
    hperm.count_eq id
  refine ⟨h.knows_set id hc (fun j hne => ?_) (fun j hne => ?_) fun hentry => ?_,
    hperm.length_eq.trans_le h.length_le, ?_⟩
  · have htouch : ((l.modify id ({ · with usedCount := 1 })).touch id).SameFor j l :=
      (sameFor_touch _ hne).trans (sameFor_modify l hne _)
    exact ⟨htouch.info, htouch.queue, htouch.loaded⟩
  · constructor <;> simp [Client.hold, hidle, Ne.symm hne]
  · obtain ⟨hu, hq, hl, hd, hh⟩ := hentry
    rw [hself, hcount]
    simp only [Client.queuedTimes, Client.loadingTimes, Client.waitingTimes, Client.heldTimes,
      Client.hold, hidle, reduceCtorEq, if_false, hused, hstate,
      if_true] at hu hq hl hd hh ⊢
    refine ⟨?_, hq, hl, hd, fun _ => rfl⟩
    simp only [List.count_cons_self]
    omega
  · have hrest : (l.useAgain id).usedIn (l.loadedResources.erase id) =
        l.usedIn (l.loadedResources.erase id) := by
      refine usedIn_congr fun j hj => ?_
      have hne : j ≠ id := fun heq => h.nodup.not_mem_erase (heq ▸ hj)
      rw [show (l.useAgain id).info j = l.info j from info_modify_of_ne l hne _]
    have hbefore := usedIn_erase (l := l) hmem
    have hafter := usedIn_erase (l := l.useAgain id) hmem
    have hused' := h.used
    simp only [hself, hused, hrest, Nat.lt_irrefl, if_false, Nat.zero_lt_one, if_true]
      at hbefore hafter
    have hsame : (l.useAgain id).usedIn (l.useAgain id).loadedResources =
        (l.useAgain id).usedIn l.loadedResources := hperm.countP_eq _
    -- another slot is free, so the counter of the slots does not wrap
    have hroom : l.usedResources + 1 ≤ l.concurrentLimit := by
      have hle := List.countP_le_length (p := fun j => decide (0 < (l.info j).usedCount))
        (l := l.loadedResources.erase id)
      have hlength := List.length_erase_of_mem hmem
      have hpos := List.length_pos_of_mem hmem
      have hbound := h.length_le
      simp only [usedIn] at hbefore hused'
      omega
    have hcounter : (l.useAgain id).usedResources = l.usedResources + 1 :=
      increment_of_lt (by omega)
    rw [hsame, hafter, hcounter]
    omega

/-- A resource that is not loaded is put into the queue. -/
theorem Agrees.enqueue (h : l.Agrees clients) (hc : clients[i]? = some c)
    (hidle : c.activity = .idle) (hid : id < l.resources.length)
    (hused : (l.info id).usedCount = 0) (hstate : (l.info id).state ≠ .loaded) :
    (l.enqueue id).Agrees (clients.set i { c with activity := .queued id }) := by
  have hself : (l.enqueue id).info id = ⟨1, .loading⟩ := info_modify_self hid _
  have hcount : (l.enqueue id).queuedResources.count id = l.queuedResources.count id + 1 := by
    simp [Loader.enqueue]
  have hnot := h.not_mem_of_not_loaded hused hstate
  refine ⟨h.knows_set id hc (fun j hne => ?_) (fun j hne => ?_) fun hentry => ?_, h.length_le, ?_⟩
  · refine ⟨info_modify_of_ne l hne _, ?_, rfl⟩
    simp [Loader.enqueue, List.count_cons_of_ne (Ne.symm hne)]
  · constructor <;> simp [hidle, Ne.symm hne]
  · obtain ⟨hu, hq, hl, hd, hh⟩ := hentry
    have hloading : (l.info id).state ≠ .loading := by
      intro heq
      rw [if_pos heq] at hl
      omega
    rw [hself, hcount]
    simp only [Client.queuedTimes, Client.loadingTimes, Client.waitingTimes, Client.heldTimes,
      hidle, reduceCtorEq, if_false, if_true, hused, if_neg hstate, if_neg hloading]
      at hu hq hl hd hh ⊢
    exact ⟨by dsimp only; omega, by omega, by rw [if_pos rfl]; omega, by rw [← hd]; rfl,
      fun hpos => by omega⟩
  · refine h.used.trans (usedIn_congr fun j hj => ?_).symm
    have hne : j ≠ id := fun heq => hnot (heq ▸ hj)
    rw [show (l.enqueue id).info j = l.info j from info_modify_of_ne l hne _]

/-- A client begins to wait for a resource that is used. -/
theorem Agrees.startWait (h : l.Agrees clients) (hc : clients[i]? = some c)
    (hidle : c.activity = .idle) (hused : (l.info id).usedCount ≠ 0)
    (hfits : (l.info id).usedCount + 1 < unsignedValues) :
    (l.modify id fun r => { r with usedCount := increment r.usedCount }).Agrees
      (clients.set i { c with activity := .waiting id }) := by
  have hid := lt_of_used hused
  refine ⟨h.knows_set id hc (fun j hne => sameFor_modify l hne _) (fun j hne => ?_)
    fun hentry => ?_, h.length_le, ?_⟩
  · constructor <;> simp [hidle, Ne.symm hne]
  · obtain ⟨hu, hq, hl, hd, hh⟩ := hentry
    rw [info_modify_self hid]
    simp only [Client.queuedTimes, Client.loadingTimes, Client.waitingTimes, Client.heldTimes,
      hidle, reduceCtorEq, if_false, if_true] at hu hq hl hd hh ⊢
    refine ⟨(increment_of_lt hfits).trans ?_, hq, hl, hd, hh⟩
    omega
  · refine h.used.trans (usedIn_congr fun j _ => ?_).symm
    rcases eq_or_ne j id with rfl | hne
    · rw [info_modify_self hid]
      dsimp only
      rw [increment_of_lt hfits]
      omega
    · rw [info_modify_of_ne l hne]

/-- A client that waits gets the resource, or learns that it has not been loaded. -/
theorem Agrees.afterWait (h : l.Agrees clients) (hc : clients[i]? = some c)
    (hwaiting : c.activity = .waiting id) (hstate : (l.info id).state ≠ .loading) :
    (l.afterWait id).Agrees
      (clients.set i (if (l.info id).state = .loaded then c.hold id else c.rest)) := by
  have hused : (l.info id).usedCount ≠ 0 := by
    have hu := (h.entries id).usedCount
    have hle := le_total (Client.waitingTimes id) (List.mem_of_getElem? hc)
    rw [Client.waitingTimes, if_pos hwaiting] at hle
    omega
  by_cases hloaded : (l.info id).state = .loaded
  · have hmem := h.mem_of_loaded hloaded
    have hperm := h.touch_perm hmem
    rw [if_pos hloaded, show l.afterWait id = l.touch id by simp [Loader.afterWait, hloaded]]
    refine ⟨h.knows_set id hc (fun j hne => sameFor_touch l hne) (fun j hne => ?_)
      fun hentry => ?_, hperm.length_eq.trans_le h.length_le,
      h.used.trans (hperm.countP_eq _).symm⟩
    · constructor <;> simp [Client.hold, hwaiting, Ne.symm hne]
    · obtain ⟨hu, hq, hl, hd, hh⟩ := hentry
      rw [hperm.count_eq id, show (l.touch id).info id = l.info id from rfl]
      simp only [Client.queuedTimes, Client.loadingTimes, Client.waitingTimes, Client.heldTimes,
        Client.hold, hwaiting, reduceCtorEq, if_false, if_true, List.count_cons_self]
        at hu hq hl hd hh ⊢
      exact ⟨by omega, hq, hl, hd, fun _ => hloaded⟩
  · have hid := lt_of_used hused
    have hafter : l.afterWait id =
        l.modify id fun r => { r with usedCount := decrement r.usedCount } := by
      unfold Loader.afterWait
      split
      · exact absurd ‹_› hloaded
      · rfl
    have hnot : id ∉ l.loadedResources := by
      obtain ⟨hu, hq, hl, hd, hh⟩ := h.entries id
      rw [if_neg hloaded] at hd
      rw [if_neg hstate] at hl
      exact List.count_eq_zero.mp (by omega)
    rw [if_neg hloaded, hafter]
    refine ⟨h.knows_set id hc (fun j hne => sameFor_modify l hne _) (fun j hne => ?_)
      fun hentry => ?_, h.length_le, ?_⟩
    · constructor <;> simp [Client.rest, hwaiting, Ne.symm hne]
    · obtain ⟨hu, hq, hl, hd, hh⟩ := hentry
      rw [info_modify_self hid]
      simp only [Client.queuedTimes, Client.loadingTimes, Client.waitingTimes, Client.heldTimes,
        Client.rest, hwaiting, reduceCtorEq, if_false, if_true] at hu hq hl hd hh ⊢
      refine ⟨(decrement_of_ne hused).trans ?_, hq, hl, hd, hh⟩
      omega
    · refine h.used.trans (usedIn_congr fun j hj => ?_).symm
      have hne : j ≠ id := fun heq => hnot (heq ▸ hj)
      rw [info_modify_of_ne l hne]

/-- The client that loads a resource is the only one, and the resource is in the list. -/
theorem Agrees.of_loading (h : l.Agrees clients) (hc : clients[i]? = some c)
    (hloading : c.activity = .loading id) :
    (l.info id).usedCount ≠ 0 ∧ (l.info id).state = .loading ∧ id ∈ l.loadedResources := by
  obtain ⟨hu, hq, hl, hd, hh⟩ := h.entries id
  have hle := le_total (Client.loadingTimes id) (List.mem_of_getElem? hc)
  rw [Client.loadingTimes, if_pos hloading] at hle
  refine ⟨by omega, ?_, List.count_pos_iff.mp (by omega)⟩
  by_contra hne
  rw [if_neg hne] at hl
  omega

/-- A resource has been loaded. -/
theorem Agrees.finish_true (h : l.Agrees clients) (hc : clients[i]? = some c)
    (hloading : c.activity = .loading id) :
    (l.finishLoad id true).Agrees (clients.set i (c.hold id)) := by
  obtain ⟨hused, hstate, hmem⟩ := h.of_loading hc hloading
  have hid := lt_of_used hused
  have hfinish : l.finishLoad id true = l.modify id ({ · with state := .loaded }) := if_pos rfl
  rw [hfinish]
  refine ⟨h.knows_set id hc (fun j hne => sameFor_modify l hne _) (fun j hne => ?_)
    fun hentry => ?_, h.length_le, ?_⟩
  · constructor <;> simp [Client.hold, hloading, Ne.symm hne]
  · obtain ⟨hu, hq, hl, hd, hh⟩ := hentry
    rw [info_modify_self hid]
    simp only [Client.queuedTimes, Client.loadingTimes, Client.waitingTimes, Client.heldTimes,
      Client.hold, hloading, hstate, reduceCtorEq, if_false, if_true, List.count_cons_self]
      at hu hq hl hd hh ⊢
    exact ⟨by dsimp only; omega, hq, by rw [if_neg (by simp)]; omega, hd, fun _ => rfl⟩
  · refine h.used.trans (usedIn_congr fun j _ => ?_).symm
    rcases eq_or_ne j id with rfl | hne
    · rw [info_modify_self hid]
    · rw [info_modify_of_ne l hne]

/-- A resource could not be loaded. -/
theorem Agrees.finish_false (h : l.Agrees clients) (hc : clients[i]? = some c)
    (hloading : c.activity = .loading id) :
    (l.finishLoad id false).Agrees (clients.set i c.rest) := by
  obtain ⟨hused, hstate, hmem⟩ := h.of_loading hc hloading
  have hid := lt_of_used hused
  have hself : (l.finishLoad id false).info id = ⟨(l.info id).usedCount - 1, .notLoaded⟩ := by
    rw [← decrement_of_ne hused]
    exact info_modify_self hid _
  have hother : ∀ j ≠ id, (l.finishLoad id false).info j = l.info j := fun j hne =>
    info_modify_of_ne l hne _
  have hlist : (l.finishLoad id false).loadedResources = l.loadedResources.erase id :=
    h.dropLoaded_eq id
  refine ⟨h.knows_set id hc (fun j hne => ?_) (fun j hne => ?_) fun hentry => ?_, ?_, ?_⟩
  · refine ⟨hother j hne, rfl, ?_⟩
    rw [hlist, List.count_erase_of_ne hne]
  · constructor <;> simp [Client.rest, hloading, Ne.symm hne]
  · obtain ⟨hu, hq, hl, hd, hh⟩ := hentry
    rw [hself, hlist, List.count_erase_self]
    simp only [Client.queuedTimes, Client.loadingTimes, Client.waitingTimes, Client.heldTimes,
      Client.rest, hloading, hstate, reduceCtorEq, if_false, if_true] at hu hq hl hd hh ⊢
    have hheld := mt hh (by simp)
    exact ⟨by dsimp only; omega, hq, by rw [if_neg (by simp)]; omega,
      by rw [if_neg (by simp)]; omega, fun hpos => absurd hpos hheld⟩
  · rw [hlist]
    exact (List.erase_sublist.length_le).trans h.length_le
  · have hrest : (l.finishLoad id false).usedIn (l.loadedResources.erase id) =
        l.usedIn (l.loadedResources.erase id) := by
      refine usedIn_congr fun j hj => ?_
      have hne : j ≠ id := fun heq => h.nodup.not_mem_erase (heq ▸ hj)
      rw [hother j hne]
    have hbefore := usedIn_erase (l := l) hmem
    rw [if_pos (by omega)] at hbefore
    have hused' := h.used
    have hcounter : (l.finishLoad id false).usedResources = l.usedResources - 1 :=
      decrement_of_ne (by omega)
    rw [hlist, hrest, hcounter]
    omega

/-- A resource is given back. -/
theorem Agrees.release (h : l.Agrees clients) (hc : clients[i]? = some c)
    (hidle : c.activity = .idle) (hholds : id ∈ c.holds) :
    (l.release id).Agrees (clients.set i { c with holds := c.holds.erase id }) := by
  have hheld : 0 < c.holds.count id := List.count_pos_iff.mpr hholds
  have hstate : (l.info id).state = .loaded := by
    have hle := le_total (Client.heldTimes id) (List.mem_of_getElem? hc)
    exact (h.entries id).isHeld (by rw [Client.heldTimes] at hle; omega)
  have hused : (l.info id).usedCount ≠ 0 := by
    have hle := le_total (Client.heldTimes id) (List.mem_of_getElem? hc)
    have hu := (h.entries id).usedCount
    rw [Client.heldTimes] at hle
    omega
  have hid := lt_of_used hused
  have hmem := h.mem_of_loaded hstate
  have hself : (l.modify id fun r => { r with usedCount := decrement r.usedCount }).info id =
      { l.info id with usedCount := (l.info id).usedCount - 1 } := by
    rw [← decrement_of_ne hused]
    exact info_modify_self hid _
  have hpositive : l.usedResources ≠ 0 := by
    rw [h.used, usedIn_erase hmem, if_pos (by omega)]
    omega
  have hinfo : ∀ j, (l.release id).info j =
      (l.modify id fun r => { r with usedCount := decrement r.usedCount }).info j := by
    intro j
    simp only [Loader.release, if_pos hid, if_neg hused]
    split <;> rfl
  have hqueue : (l.release id).queuedResources = l.queuedResources := by
    simp only [Loader.release, if_pos hid, if_neg hused]
    split <;> rfl
  have hlist : (l.release id).loadedResources = l.loadedResources := by
    simp only [Loader.release, if_pos hid, if_neg hused]
    split <;> rfl
  have hlimit : (l.release id).concurrentLimit = l.concurrentLimit := by
    simp only [Loader.release, if_pos hid, if_neg hused]
    split <;> rfl
  have hcount : (l.release id).usedResources =
      if (l.info id).usedCount - 1 = 0 then l.usedResources - 1 else l.usedResources := by
    simp only [Loader.release, if_pos hid, if_neg hused, hself]
    split
    · exact decrement_of_ne hpositive
    · rfl
  refine ⟨h.knows_set id hc (fun j hne => ?_) (fun j hne => ?_) fun hentry => ?_, ?_, ?_⟩
  · refine ⟨?_, by rw [hqueue], by rw [hlist]⟩
    rw [hinfo, info_modify_of_ne l hne]
  · constructor <;> simp [List.count_erase_of_ne hne]
  · obtain ⟨hu, hq, hl, hd, hh⟩ := hentry
    rw [hinfo, hself, hqueue, hlist]
    simp only [Client.queuedTimes, Client.loadingTimes, Client.waitingTimes, Client.heldTimes,
      hidle, reduceCtorEq, if_false, List.count_erase_self] at hu hq hl hd hh ⊢
    exact ⟨by dsimp only; omega, hq, hl, hd, fun _ => hstate⟩
  · rw [hlist, hlimit]
    exact h.length_le
  · have hrest : (l.release id).usedIn (l.loadedResources.erase id) =
        l.usedIn (l.loadedResources.erase id) := by
      refine usedIn_congr fun j hj => ?_
      have hne : j ≠ id := fun heq => h.nodup.not_mem_erase (heq ▸ hj)
      rw [hinfo, info_modify_of_ne l hne]
    have hbefore := usedIn_erase (l := l) hmem
    have hafter := usedIn_erase (l := l.release id) hmem
    have hused' := h.used
    rw [hinfo, hself, hrest] at hafter
    rw [if_pos (by omega)] at hbefore
    rw [hlist, hafter, hcount]
    dsimp only
    split <;> split <;> omega

/-! ### Taking a slot -/

/-- An evicted resource is in the list, and no client uses it. -/
theorem of_oldestUnused (hold : l.oldestUnused = some id) :
    id ∈ l.loadedResources ∧ (l.info id).usedCount = 0 :=
  ⟨List.mem_of_find?_eq_some hold, by simpa using List.find?_some hold⟩

/-- Whenever fewer resources are used than are loaded, one can be evicted. -/
theorem Agrees.exists_oldestUnused (h : l.Agrees clients)
    (hlt : l.usedResources < l.loadedResources.length) : ∃ id, l.oldestUnused = some id := by
  by_contra hnone
  have hall : l.oldestUnused = none := by
    rw [Option.eq_none_iff_forall_ne_some]
    exact fun id heq => hnone ⟨id, heq⟩
  have hused : l.usedIn l.loadedResources = l.loadedResources.length := by
    refine List.countP_eq_length.mpr fun id hid => ?_
    have := List.find?_eq_none.mp hall id hid
    simp only [beq_iff_eq] at this
    simpa using Nat.pos_of_ne_zero this
  have := h.used
  omega

/-- An unused resource is evicted. -/
theorem Agrees.evict (h : l.Agrees clients) (hold : l.oldestUnused = some id) :
    l.evict.1.Agrees clients ∧ l.evict.2 = [.release id] ∧
      l.evict.1.loadedResources.length + 1 = l.loadedResources.length := by
  obtain ⟨hmem, hused⟩ := of_oldestUnused hold
  have hid : id < l.resources.length := by
    obtain ⟨hu, hq, hl, hd, hh⟩ := h.entries id
    have hcount := List.count_pos_iff.mpr hmem
    by_contra hge
    have hstate : (l.info id).state = .notLoaded := by
      simp [info, List.getElem?_eq_none (not_lt.mp hge)]
    rw [hstate, if_neg (by simp)] at hd
    omega
  have hevict : l.evict = ({ l.modify id ({ · with state := .notLoaded }) with
      loadedResources := l.loadedResources.erase id }, [.release id]) := by
    simp only [Loader.evict, hold]
  have hlength := List.length_erase_of_mem hmem
  have hpos := List.length_pos_of_mem hmem
  rw [hevict]
  generalize hl' : ({ l.modify id ({ · with state := .notLoaded }) with
      loadedResources := l.loadedResources.erase id } : Loader) = l'
  have hlist : l'.loadedResources = l.loadedResources.erase id := by rw [← hl']
  have hqueue : l'.queuedResources = l.queuedResources := by rw [← hl']; rfl
  have hcount : l'.usedResources = l.usedResources := by rw [← hl']; rfl
  have hlimit : l'.concurrentLimit = l.concurrentLimit := by rw [← hl']; rfl
  have hother : ∀ j ≠ id, l'.info j = l.info j := fun j hne => by
    rw [← hl']
    exact info_modify_of_ne l hne _
  have hunused : (l'.info id).usedCount = 0 ∧ (l'.info id).state = .notLoaded := by
    have hself := info_modify_self hid ({ · with state := .notLoaded })
    rw [← hl']
    exact ⟨(congrArg ResourceInfo.usedCount hself).trans hused, congrArg ResourceInfo.state hself⟩
  refine ⟨⟨fun j => ?_, ?_, ?_⟩, rfl, by rw [hlist]; omega⟩
  · obtain ⟨hu, hq, hl, hd, hh⟩ := h.entries j
    rcases eq_or_ne j id with rfl | hne
    · unfold Knows
      rw [hqueue, hlist, List.count_erase_self]
      have hcount := List.count_pos_iff.mpr hmem
      have hloading : (l.info j).state ≠ .loading := by
        intro heq
        rw [if_pos heq] at hl
        omega
      rw [if_neg hloading] at hl
      refine ⟨hunused.1.trans (by omega), hq, ?_, ?_, fun hpos => by omega⟩
      · rw [hunused.2, if_neg (by simp)]
        omega
      · rw [hunused.2, if_neg (by simp)]
        split at hd <;> omega
    · unfold Knows
      rw [hother j hne, hqueue, hlist, List.count_erase_of_ne hne]
      exact h.entries j
  · rw [hlist, hlimit]
    have := h.length_le
    omega
  · have hbefore := usedIn_erase (l := l) hmem
    rw [hused, if_neg (Nat.lt_irrefl 0)] at hbefore
    rw [hcount, hlist, h.used, hbefore]
    refine (usedIn_congr fun j hj => ?_).symm
    have hne : j ≠ id := fun heq => h.nodup.not_mem_erase (heq ▸ hj)
    rw [hother j hne]

/-- The queue does not matter for the eviction. -/
theorem evict_queue (l : Loader) (queue : List ℕ) :
    { l with queuedResources := queue }.evict =
      ({ l.evict.1 with queuedResources := queue }, l.evict.2) := by
  have hold : { l with queuedResources := queue }.oldestUnused = l.oldestUnused := rfl
  unfold Loader.evict
  rw [hold]
  cases l.oldestUnused <;> rfl

/-- Before a slot is taken, there is room for it: an unused resource is evicted if need be. -/
theorem Agrees.makeRoom (h : l.Agrees clients) (hlimit : l.concurrentLimit < unsignedValues)
    (id : ℕ) (hlt : l.usedResources < l.concurrentLimit) :
    ∃ m : Loader, m.Agrees clients ∧ m.loadedResources.length < m.concurrentLimit ∧
      m.queuedResources = l.queuedResources ∧ ∃ evicted : Option ℕ,
        (l.takeSlot id) = ({ m with
          queuedResources := l.queuedResources.tail
          loadedResources := m.loadedResources ++ [id]
          usedResources := m.usedResources + 1 },
          evicted.toList.map Call.release ++ [.load id]) ∧
        (l.loadedResources.length = l.concurrentLimit ↔ evicted ≠ none) ∧
        ∀ j ∈ evicted, l.oldestUnused = some j := by
  have hcounter : increment l.usedResources = l.usedResources + 1 := increment_of_lt (by omega)
  by_cases hfull : l.loadedResources.length = l.concurrentLimit
  · obtain ⟨old, hold⟩ := h.exists_oldestUnused (by omega)
    obtain ⟨hagrees, hcalls, hlength⟩ := h.evict hold
    have hkeep : l.evict.1.concurrentLimit = l.concurrentLimit ∧
        l.evict.1.queuedResources = l.queuedResources ∧
        l.evict.1.usedResources = l.usedResources := by
      simp [Loader.evict, hold, modify]
    refine ⟨l.evict.1, hagrees, by omega, hkeep.2.1, some old, ?_, by simp [hfull], ?_⟩
    · simp only [takeSlot, if_pos hfull, evict_queue, hcalls, hkeep.2.2, hcounter]
      rfl
    · exact fun j hj => hold.trans (Option.mem_def.mp hj)
  · refine ⟨l, h, lt_of_le_of_ne h.length_le hfull, rfl, none, ?_, by simp [hfull],
      by simp⟩
    simp only [takeSlot, if_neg hfull, hcounter]
    rfl

/-- The client at the front of the queue takes a slot. -/
theorem Agrees.takeSlot (h : l.Agrees clients) (hlimit : l.concurrentLimit < unsignedValues)
    (hc : clients[i]? = some c) (hqueued : c.activity = .queued id) (hproceed : l.mayProceed id = true) :
    (l.takeSlot id).1.Agrees (clients.set i { c with activity := .loading id }) ∧
      ∃ evicted : Option ℕ, (l.takeSlot id).2 = evicted.toList.map Call.release ++ [.load id] ∧
        (l.loadedResources.length = l.concurrentLimit ↔ evicted ≠ none) ∧
        ∀ j ∈ evicted, l.oldestUnused = some j := by
  simp only [mayProceed, Bool.and_eq_true, decide_eq_true_eq, beq_iff_eq] at hproceed
  obtain ⟨hlt, hhead⟩ := hproceed
  obtain ⟨m, hm, hroom, hqueue, evicted, htake, hevicted⟩ := h.makeRoom hlimit id hlt
  obtain ⟨queue, hqueue'⟩ := List.head?_eq_some_iff.mp hhead
  have hused : 0 < (m.info id).usedCount := by
    have hu := (hm.entries id).usedCount
    have hle := le_total (Client.queuedTimes id) (List.mem_of_getElem? hc)
    rw [Client.queuedTimes, if_pos hqueued] at hle
    omega
  rw [htake]
  generalize hl' : ({ m with
      queuedResources := l.queuedResources.tail
      loadedResources := m.loadedResources ++ [id]
      usedResources := m.usedResources + 1 } : Loader) = l'
  have hinfo : ∀ j, l'.info j = m.info j := fun j => by rw [← hl']; rfl
  have hlist : l'.loadedResources = m.loadedResources ++ [id] := by rw [← hl']
  have hrest : id :: l'.queuedResources = m.queuedResources := by simp [← hl', hqueue, hqueue']
  refine ⟨⟨hm.knows_set id hc (fun j hne => ⟨hinfo j, ?_, ?_⟩) (fun j hne => ?_)
    fun hentry => ?_, ?_, ?_⟩, evicted, rfl, hevicted⟩
  · rw [← hrest, List.count_cons_of_ne (Ne.symm hne)]
  · simp [hlist, Ne.symm hne]
  · constructor <;> simp [hqueued, Ne.symm hne]
  · obtain ⟨hu, hq, hl, hd, hh⟩ := hentry
    rw [hinfo, hlist]
    simp only [← hrest, Client.queuedTimes, Client.loadingTimes, Client.waitingTimes,
      Client.heldTimes, hqueued, reduceCtorEq, if_false, if_true, List.count_cons_self,
      List.count_append, List.count_nil] at hu hq hl hd hh ⊢
    exact ⟨by omega, by omega, by omega, by omega, hh⟩
  · rw [hlist, List.length_append, List.length_singleton, ← hl']
    exact hroom
  · have hcount := hm.used
    simp only [usedIn, hinfo, hlist, List.countP_append, List.countP_cons, List.countP_nil, hused]
      at hcount ⊢
    rw [← hcount, ← hl']
    rfl

/-- The calls of a step: none, or the load of a resource that is not loaded, after the
oldest unused resource has been released if all slots are taken. -/
inductive Calls (l : Loader) : List Call → Prop
  | none : l.Calls []
  | load (id : ℕ) (evicted : Option ℕ) (hstate : (l.info id).state ≠ .loaded)
    (hfull : l.loadedResources.length = l.concurrentLimit ↔ evicted ≠ none)
    (hevicted : ∀ j ∈ evicted, l.oldestUnused = some j) :
    l.Calls (evicted.toList.map Call.release ++ [.load id])

/-- A client proceeds by taking a slot, if it may. -/
theorem proceed_eq_some {result : Loader × List Call} :
    l.proceed id = some result ↔ l.mayProceed id = true ∧ l.takeSlot id = result := by
  simp [proceed]

/-- A resource that is put into the queue is not the one to be evicted. -/
theorem Agrees.oldestUnused_enqueue (h : l.Agrees clients) (hused : (l.info id).usedCount = 0)
    (hstate : (l.info id).state ≠ .loaded) : (l.enqueue id).oldestUnused = l.oldestUnused := by
  refine List.find?_congr fun j hj => ?_
  have hne : j ≠ id := fun heq => h.not_mem_of_not_loaded hused hstate (heq ▸ hj)
  rw [show (l.enqueue id).info j = l.info j from info_modify_of_ne l hne _]

/-- The loads that are outstanding are the use count. -/
theorem Agrees.usedCount_eq (h : l.Agrees clients) (id : ℕ) :
    (l.info id).usedCount = outstanding id clients :=
  (h.entries id).usedCount

/-- The method `load` up to where the client gives up the lock. The agreement is kept while
the use count fits. -/
theorem Agrees.load (h : l.Agrees clients) (hlimit : l.concurrentLimit < unsignedValues)
    (hc : clients[i]? = some c) (hidle : c.activity = .idle) (id : ℕ) :
    ((Action.load id).Fits clients →
      (c.load l id).loader.Agrees (clients.set i (c.load l id).client)) ∧
      l.Calls (c.load l id).calls := by
  have hget : ∀ c' : Client, (clients.set i c')[i]? = some c' := fun c' => by
    have hlt := (List.getElem?_eq_some_iff.mp hc).1
    simp [hlt]
  unfold Client.load
  by_cases hid : id < l.resources.length
  · rw [if_pos hid]
    by_cases hused : (l.info id).usedCount = 0
    · rw [if_pos hused]
      by_cases hstate : (l.info id).state = .loaded
      · rw [if_pos hstate]
        exact ⟨fun _ => h.useAgain hlimit hc hidle hid hused hstate, .none⟩
      · rw [if_neg hstate]
        have henqueue := h.enqueue hc hidle hid hused hstate
        dsimp only
        split
        · rename_i l' calls hproceed
          obtain ⟨hmay, htake⟩ := proceed_eq_some.mp hproceed
          obtain ⟨hslot, evicted, hcalls, hfull, hevicted⟩ :=
            henqueue.takeSlot hlimit (hget _) rfl hmay
          rw [htake, List.set_set] at hslot
          rw [htake] at hcalls
          dsimp only at hcalls ⊢
          rw [hcalls]
          refine ⟨fun _ => hslot, .load id evicted hstate hfull fun j hj => ?_⟩
          rw [← hevicted j hj]
          exact (h.oldestUnused_enqueue hused hstate).symm
        · exact ⟨fun _ => henqueue, .none⟩
    · rw [if_neg hused]
      have hwait := fun hfits : (Action.load id).Fits clients =>
        h.startWait hc hidle hused (h.usedCount_eq id ▸ hfits)
      dsimp only
      split
      · exact ⟨hwait, .none⟩
      · rename_i hstate
        refine ⟨fun hfits => ?_, .none⟩
        have hafter := (hwait hfits).afterWait (hget _) rfl hstate
        rw [List.set_set] at hafter
        exact hafter
  · rw [if_neg hid]
    obtain ⟨hlt, rfl⟩ := List.getElem?_eq_some_iff.mp hc
    rw [List.set_getElem_self]
    exact ⟨fun _ => h, .none⟩

/-- Every step of a client keeps the agreement while the use count fits. -/
theorem Agrees.step (h : l.Agrees clients) (hlimit : l.concurrentLimit < unsignedValues)
    (hc : clients[i]? = some c) {action : Action} {o : Outcome}
    (hstep : c.step l action = some o) :
    (action.Fits clients → o.loader.Agrees (clients.set i o.client)) ∧ l.Calls o.calls := by
  cases hactivity : c.activity with
  | idle =>
    cases action with
    | load id =>
      obtain rfl : c.load l id = o := by simpa [Client.step, hactivity] using hstep
      exact h.load hlimit hc hactivity id
    | release id =>
      simp only [Client.step, hactivity, Option.ite_none_right_eq_some, Option.some.injEq] at hstep
      obtain ⟨hholds, rfl⟩ := hstep
      have hrelease := h.release hc hactivity hholds
      rw [hactivity] at hrelease
      exact ⟨fun _ => hrelease, .none⟩
    | proceed | finish _ | wake => simp [Client.step, hactivity] at hstep
  | queued id =>
    cases action with
    | proceed =>
      simp only [Client.step, hactivity, Option.map_eq_some_iff] at hstep
      obtain ⟨⟨l', calls⟩, hproceed, rfl⟩ := hstep
      obtain ⟨hmay, htake⟩ := proceed_eq_some.mp hproceed
      obtain ⟨hslot, evicted, hcalls, hfull, hevicted⟩ := h.takeSlot hlimit hc hactivity hmay
      rw [htake] at hslot hcalls
      dsimp only at hcalls ⊢
      rw [hcalls]
      refine ⟨fun _ => hslot, .load id evicted (fun heq => ?_) hfull hevicted⟩
      have hloading := (h.entries id).isLoading
      have hle := le_total (Client.queuedTimes id) (List.mem_of_getElem? hc)
      rw [Client.queuedTimes, if_pos hactivity] at hle
      rw [heq, if_neg (by simp)] at hloading
      omega
    | load _ | finish _ | wake | release _ => simp [Client.step, hactivity] at hstep
  | loading id =>
    cases action with
    | finish loaded =>
      obtain rfl := Option.some.inj (by simpa [Client.step, hactivity] using hstep)
      cases loaded with
      | true => exact ⟨fun _ => h.finish_true hc hactivity, .none⟩
      | false => exact ⟨fun _ => h.finish_false hc hactivity, .none⟩
    | load _ | proceed | wake | release _ => simp [Client.step, hactivity] at hstep
  | waiting id =>
    cases action with
    | wake =>
      simp only [Client.step, hactivity, Option.ite_none_left_eq_some, Option.some.injEq] at hstep
      obtain ⟨hstate, rfl⟩ := hstep
      exact ⟨fun _ => h.afterWait hc hactivity hstate, .none⟩
    | load _ | proceed | finish _ | release _ => simp [Client.step, hactivity] at hstep

end Loader

/-! ### The limit -/

namespace Loader

/-- Taking a slot keeps the limit. -/
theorem limit_takeSlot (l : Loader) (id : ℕ) :
    (l.takeSlot id).1.concurrentLimit = l.concurrentLimit := by
  simp only [takeSlot]
  split
  · rw [evict_queue]
    unfold evict
    split <;> rfl
  · rfl

/-- Waiting keeps the limit. -/
theorem limit_afterWait (l : Loader) (id : ℕ) :
    (l.afterWait id).concurrentLimit = l.concurrentLimit := by
  unfold afterWait
  split <;> rfl

/-- The end of a load keeps the limit. -/
theorem limit_finishLoad (l : Loader) (id : ℕ) (loaded : Bool) :
    (l.finishLoad id loaded).concurrentLimit = l.concurrentLimit := by
  unfold finishLoad
  split <;> rfl

/-- A release keeps the limit. -/
theorem limit_release (l : Loader) (id : ℕ) :
    (l.release id).concurrentLimit = l.concurrentLimit := by
  simp only [Loader.release]
  split
  · split
    · rfl
    · split <;> rfl
  · rfl

end Loader

/-- A load keeps the limit. -/
theorem Client.limit_load (l : Loader) (c : Client) (id : ℕ) :
    (c.load l id).loader.concurrentLimit = l.concurrentLimit := by
  unfold Client.load
  split
  · split
    · split
      · rfl
      · dsimp only
        split
        · rename_i hproceed
          obtain ⟨-, htake⟩ := Loader.proceed_eq_some.mp hproceed
          have hlimit := Loader.limit_takeSlot (l.enqueue id) id
          rw [htake] at hlimit
          exact hlimit
        · rfl
    · dsimp only
      split
      · rfl
      · exact Loader.limit_afterWait _ id
  · rfl

/-- No step changes the limit. -/
theorem Client.limit_step {l : Loader} {c : Client} {action : Action} {o : Outcome}
    (hstep : c.step l action = some o) : o.loader.concurrentLimit = l.concurrentLimit := by
  unfold Client.step at hstep
  split at hstep
  · obtain rfl := Option.some.inj hstep
    exact Client.limit_load l c _
  · obtain ⟨result, hproceed, rfl⟩ := Option.map_eq_some_iff.mp hstep
    obtain ⟨-, rfl⟩ := Loader.proceed_eq_some.mp hproceed
    exact Loader.limit_takeSlot l _
  · obtain rfl := Option.some.inj hstep
    exact Loader.limit_finishLoad l _ _
  · obtain ⟨-, rfl⟩ := Option.ite_none_left_eq_some.mp hstep |>.imp_right Option.some.inj
    exact Loader.limit_afterWait l _
  · obtain ⟨-, rfl⟩ := Option.ite_none_right_eq_some.mp hstep |>.imp_right Option.some.inj
    exact Loader.limit_release l _
  · cases hstep

/-! ### All runs -/

namespace System

/-- The state of the loader that is kept by all steps. -/
def Kept (limit : UInt32) (s : System) : Prop :=
  s.loader.concurrentLimit = limit.toNat ∧ s.loader.Agrees s.clients

/-- A step that fits keeps the state of the loader; any step calls what it may. -/
theorem Kept.step {limit : UInt32} {s s' : System} (h : s.Kept limit) {i : ℕ} {action : Action}
    {calls : List Call} (hstep : s.step i action = some (s', calls)) :
    (action.Fits s.clients → s'.Kept limit) ∧ s.loader.Calls calls := by
  obtain ⟨c, hc, hmap⟩ := Option.bind_eq_some_iff.mp hstep
  obtain ⟨o, ho, heq⟩ := Option.map_eq_some_iff.mp hmap
  obtain ⟨rfl, rfl⟩ := Prod.ext_iff.mp heq
  have hlimit : s.loader.concurrentLimit < unsignedValues := h.1 ▸ limit.toNat_lt
  obtain ⟨hagrees, hcalls⟩ := h.2.step hlimit hc ho
  exact ⟨fun hfits => ⟨(Client.limit_step ho).trans h.1, hagrees hfits⟩, hcalls⟩

/-- The loader with all its resources added. -/
theorem init_loader (limit : UInt32) (resources clients : ℕ) :
    (init limit resources clients).loader =
      { concurrentLimit := limit.toNat, resources := List.replicate resources {} } := by
  unfold init
  dsimp only
  induction resources with
  | zero => rfl
  | succ resources ih =>
    rw [Function.iterate_succ_apply', ih, Loader.add, List.replicate_succ']

/-- Before the first step nothing is used. -/
theorem kept_init (limit : UInt32) (resources clients : ℕ) :
    (init limit resources clients).Kept limit := by
  have hzero : ∀ f : Client → ℕ, f {} = 0 → total f (init limit resources clients).clients = 0 := by
    intro f hf
    simp [total, init, hf]
  unfold Kept
  rw [init_loader]
  refine ⟨rfl, fun id => ?_, Nat.zero_le _, rfl⟩
  have hinfo : ({ concurrentLimit := limit.toNat, resources := List.replicate resources {} } :
      Loader).info id = {} := by
    simp only [Loader.info, List.getD_eq_getElem?_getD, List.getElem?_replicate]
    split <;> rfl
  unfold Loader.Knows
  rw [hinfo, hzero _ rfl, hzero _ rfl, hzero _ rfl, hzero _ rfl]
  exact ⟨rfl, rfl, rfl, rfl, fun h => absurd h (Nat.lt_irrefl 0)⟩

/-- The states that any interleaving of the clients leads to in which every load fits. -/
def ReachableWithin (start s : System) : Prop :=
  Relation.ReflTransGen (fun s s' => ∃ i action calls,
    s.step i action = some (s', calls) ∧ action.Fits s.clients) start s

/-- A run of steps that fit keeps the state of the loader. -/
theorem Kept.reachable {limit : UInt32} {start s : System} (hstart : start.Kept limit)
    (h : ReachableWithin start s) : s.Kept limit := by
  induction h with
  | refl => exact hstart
  | tail _ hstep ih =>
    obtain ⟨i, action, calls, hstep, hfits⟩ := hstep
    exact (ih.step hstep).1 hfits

/-- What every state satisfies: the bounds of the loader, and that a resource that a client
holds is loaded, and no step loads or releases it. -/
structure Safe (limit : ℕ) (s : System) : Prop where
  nodup : s.loader.loadedResources.Nodup
  length_le : s.loader.loadedResources.length ≤ limit
  used : s.loader.usedResources =
    s.loader.loadedResources.countP fun id => 0 < (s.loader.info id).usedCount
  evicts : ∀ {i action s' calls id}, s.step i action = some (s', calls) → .load id ∈ calls →
    s.loader.loadedResources.length = limit →
      ∃ old ∈ s.loader.loadedResources, (s.loader.info old).usedCount = 0 ∧
        calls = [.release old, .load id]
  held : ∀ c ∈ s.clients, ∀ id ∈ c.holds, (s.loader.info id).state = .loaded ∧
    ∀ {i action s' calls}, s.step i action = some (s', calls) →
      .load id ∉ calls ∧ .release id ∉ calls

/-- A state that the steps keep is safe. -/
theorem Kept.safe {limit : UInt32} {s : System} (h : s.Kept limit) : s.Safe limit.toNat where
  nodup := h.2.nodup
  length_le := h.2.length_le.trans_eq h.1
  used := h.2.used
  evicts {i action s' calls id} hstep hmem hfull := by
    cases (h.step hstep).2 with
    | none => cases hmem
    | load id' evicted hstate hfull' hevicted =>
      obtain ⟨old, rfl⟩ := Option.ne_none_iff_exists'.mp (hfull'.mp (hfull.trans h.1.symm))
      obtain ⟨hold, hunused⟩ := Loader.of_oldestUnused (hevicted old rfl)
      obtain rfl : id = id' := by simpa using hmem
      exact ⟨old, hold, hunused, rfl⟩
  held c hc id hid := by
    obtain ⟨hu, hq, hl, hd, hh⟩ := h.2.entries id
    have hle := le_total (Client.heldTimes id) hc
    have hpos : 0 < Client.heldTimes id c := List.count_pos_iff.mpr hid
    have hstate := hh (by omega)
    refine ⟨hstate, fun {i action s' calls} hstep => ?_⟩
    cases (h.step hstep).2 with
    | none => simp
    | load id' evicted hstate' hfull hevicted =>
      constructor
      · intro hmem
        obtain rfl : id = id' := by simpa using hmem
        exact hstate' hstate
      · intro hmem
        have hold := (Loader.of_oldestUnused (hevicted id (by simpa using hmem))).2
        omega

/-- Whatever the clients do in any order, the loader is safe while each resource has fewer
outstanding loads than the use count can count. -/
theorem safe_of_reachable {limit : UInt32} {resources clients : ℕ} {s : System}
    (h : ReachableWithin (init limit resources clients) s) : s.Safe limit.toNat :=
  ((kept_init limit resources clients).reachable h).safe

/-- What a step that fits leads to is reached so. -/
theorem ReachableWithin.step {start s s' : System} (h : ReachableWithin start s) (i : ℕ)
    (action : Action) (hstep : (s.step i action).map Prod.fst = some s')
    (hfits : action.Fits s.clients) : ReachableWithin start s' := by
  obtain ⟨⟨next, calls⟩, hnext, rfl⟩ := Option.map_eq_some_iff.mp hstep
  exact h.tail ⟨i, action, calls, hnext, hfits⟩

/-- The second client has made the only slot free and waits for its resource to load. -/
def evicting : System where
  loader :=
    { concurrentLimit := 1
      resources := [{}, ⟨1, .loading⟩]
      loadedResources := [1]
      usedResources := 1 }
  clients := [{}, { activity := .loading 1 }]

/-- A state that is reached over an eviction. -/
theorem safe_of_reachable_evicting : evicting.Safe 1 := by
  have hloading : ReachableWithin (init 1 2 2) _ :=
    ReachableWithin.step .refl 0 (.load 0) rfl (by decide)
  have hqueued := hloading.step 1 (.load 1) rfl (by decide)
  have hloaded := hqueued.step 0 (.finish true) rfl (by decide)
  have hreleased := hloaded.step 0 (.release 0) rfl (by decide)
  exact @safe_of_reachable 1 2 2 evicting (hreleased.step 1 .proceed rfl (by decide))

/-- One client has loaded the only resource a number of times. -/
def holding (times : ℕ) : System where
  loader :=
    { concurrentLimit := 1
      resources := [⟨times % unsignedValues, .loaded⟩]
      loadedResources := [0]
      usedResources := 1 }
  clients := [{ holds := List.replicate times 0 }]

/-- One more load only counts up while the use count is not 0. -/
theorem step_holding {times : ℕ} (hused : times % unsignedValues ≠ 0) :
    (holding times).step 0 (.load 0) = some (holding (times + 1), []) := by
  have hcounter : increment (times % unsignedValues) = (times + 1) % unsignedValues :=
    Nat.mod_add_mod times unsignedValues 1
  simp [step, holding, Client.step, Client.load, Loader.info, Loader.modify, Client.endWait,
    Loader.afterWait, Loader.touch, Client.hold, hused, hcounter, List.replicate_succ]

/-- Any number of loads up to 2^32 is reached. -/
theorem reachable_holding {times : ℕ} (hle : times + 1 ≤ unsignedValues) :
    Reachable (init 1 1 1) (holding (times + 1)) := by
  induction times with
  | zero => exact @reachable_of_run [(0, .load 0), (0, .finish true)] _ _ rfl
  | succ times ih =>
    have hused : (times + 1) % unsignedValues ≠ 0 := by
      rw [Nat.mod_eq_of_lt (by omega)]
      omega
    exact (ih (by omega)).tail ⟨0, .load 0, [], step_holding hused⟩

/-- After 2^32 loads by one client the use count of the resource is 0 although it is held. -/
theorem not_safe_holding : ¬ ∀ s, Reachable (init 1 1 1) s → s.Safe 1 := by
  intro hsafe
  have hreach : Reachable (init 1 1 1) (holding unsignedValues) :=
    @reachable_holding (unsignedValues - 1) (Nat.sub_add_cancel unsignedValues_pos).le
  have hused := (hsafe _ hreach).used
  have hcount : (holding unsignedValues).loader.loadedResources.countP
      (fun id => 0 < ((holding unsignedValues).loader.info id).usedCount) = 0 := by
    simp [holding, Loader.info]
  exact absurd (hused.trans hcount) one_ne_zero

end System

end UDPipe.ResourceLoader
