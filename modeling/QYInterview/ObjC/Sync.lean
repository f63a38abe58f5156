import QYInterview.Lib.Interleaving

/-!
# ObjC.Sync — `@synchronized`

`objc_sync_enter` and `objc_sync_exit` find the mutex of an object in a list of blocks (`SyncData`), which
are never freed and are used again for other objects when no thread uses them.  A thread remembers the
blocks it uses, with how often it has entered, in its own caches; the first one in the fast cache where the
platform has direct thread keys (`direct`).

Threads take turns.  The search of the list under its spin lock is one turn, as is every access to a mutex,
and the part of `id2data` about the caches, which touches the shared state in one decrement at most.  Blocks
are numbered as they are allocated; what is here is one of the parallel lists.  The counters wrap round as
their types do.
-/

namespace QYInterview.ObjC.Sync

open Interleaving

variable {ω : Type}

/-! ## The data -/

/-- `int32_t` arithmetic, which wraps round in an atomic operation. -/
def int32 (n : ℤ) : ℤ := n.bmod (2 ^ 32)

/-- `SyncData`; `threadCount` is an `int32_t`, and `locked` says whether a thread owns the mutex. -/
structure SyncData (ω : Type) where
  object : ω
  threadCount : ℤ
  locked : Bool

/-- `SyncCacheItem` -/
structure SyncCacheItem where
  data : ℕ
  lockCount : ℕ
  deriving DecidableEq, Repr

inductive Call (ω : Type)
  | enter (object : ω)
  | tryEnter (object : ω)
  | exit (object : ω)
  deriving DecidableEq, Repr

def Call.object : Call ω → ω
  | .enter o | .tryEnter o | .exit o => o

/-- Where a thread is; `returned` has the result of its last call. -/
inductive Position (ω : Type)
  | returned (success : Bool)
  | searching (call : Call ω)
  | locking (object : ω) (data : ℕ)
  | trying (object : ω) (data : ℕ)
  | unlocking (object : ω) (data : ℕ)
  | fatal
  deriving DecidableEq, Repr

/-- A thread; `owned` has a block as often as the thread has locked its mutex. -/
structure Thread (ω : Type) where
  fast : Option SyncCacheItem
  cache : List SyncCacheItem
  owned : Multiset ℕ
  position : Position ω
  deriving DecidableEq

structure World (ω : Type) where
  allocated : ℕ
  data : ℕ → SyncData ω

/-- The place of an item in the caches of a thread. -/
inductive Slot
  | fast
  | cached (i : ℕ)
  deriving DecidableEq, Repr

/-- `lockCount` in the fast cache is a `uintptr_t`, in the list cache an `unsigned int`. -/
def Slot.lockCount (slot : Slot) (n : ℕ) : ℕ :=
  match slot with
  | .fast => n % 2 ^ 64
  | .cached _ => n % 2 ^ 32

/-! ## The code -/

section Code

variable [DecidableEq ω]

/-- `nextData`, from the block allocated last. -/
def World.chain (g : World ω) : List ℕ := (List.range g.allocated).reverse

def World.set (g : World ω) (d : ℕ) (b : SyncData ω) : World ω :=
  { g with data := Function.update g.data d b }

/-- A match in the list cache. -/
def findCached (g : World ω) (t : Thread ω) (object : ω) : Option (Slot × SyncCacheItem) :=
  (t.cache.findIdx? fun it => (g.data it.data).object = object).bind fun i => t.cache[i]?.map fun it =>
    (.cached i, it)

/-- A match in the caches, the fast one first. -/
def find (g : World ω) (t : Thread ω) (object : ω) : Option (Slot × SyncCacheItem) :=
  match t.fast with
  | some it => if (g.data it.data).object = object then some (.fast, it) else findCached g t object
  | none => findCached g t object

def Thread.put (t : Thread ω) (slot : Slot) (it : SyncCacheItem) : Thread ω :=
  match slot with
  | .fast => { t with fast := some it }
  | .cached i => { t with cache := t.cache.set i it }

/-- An array without its `i`-th entry, whose place the last one takes. -/
def swapRemove {α : Type} (l : List α) (i : ℕ) : List α :=
  (l.getLast?.elim l fun last => l.set i last).dropLast

/-- An item goes; in the list cache the last one takes its place. -/
def Thread.drop (t : Thread ω) (slot : Slot) : Thread ω :=
  match slot with
  | .fast => { t with fast := none }
  | .cached i => { t with cache := swapRemove t.cache i }

def Thread.moveTo (t : Thread ω) (position : Position ω) : Thread ω := { t with position := position }

/-- A block that is new to the thread: in the fast cache where there is one and it is free. -/
def Thread.save (direct : Bool) (t : Thread ω) (d : ℕ) : Thread ω :=
  if direct && t.fast.isNone then { t with fast := some ⟨d, 1⟩ } else { t with cache := t.cache ++ [⟨d, 1⟩] }

/-- `OSAtomicIncrement32Barrier(&result->threadCount)` -/
def World.increment (g : World ω) (d : ℕ) : World ω :=
  g.set d { g.data d with threadCount := int32 ((g.data d).threadCount + 1) }

/-- `OSAtomicDecrement32Barrier(&result->threadCount)` -/
def World.decrement (g : World ω) (d : ℕ) : World ω :=
  g.set d { g.data d with threadCount := int32 ((g.data d).threadCount - 1) }

/-- A block for an object without one: the first unused one, or a new one, with its mutex. -/
def World.assign (g : World ω) (object : ω) : World ω × ℕ :=
  match g.chain.find? fun d => (g.data d).threadCount = 0 with
  | some d => (g.set d { g.data d with object := object, threadCount := 1 }, d)
  | none => ({ g.set g.allocated ⟨object, 1, false⟩ with allocated := g.allocated + 1 }, g.allocated)

/-- The first part of `id2data`, in the caches. -/
def id2dataCached (g : World ω) (t : Thread ω) (call : Call ω) : World ω × Thread ω :=
  match find g t call.object with
  | none => (g, t.moveTo (.searching call))
  | some (slot, it) =>
    if (g.data it.data).threadCount ≤ 0 ∨ it.lockCount = 0 then (g, t.moveTo .fatal)
    else match call with
      | .enter o => (g, (t.put slot ⟨it.data, slot.lockCount (it.lockCount + 1)⟩).moveTo (.locking o it.data))
      | .tryEnter o => (g, (t.put slot ⟨it.data, slot.lockCount (it.lockCount + 1)⟩).moveTo
          (.trying o it.data))
      | .exit o =>
        if it.lockCount - 1 = 0 then (g.decrement it.data, (t.drop slot).moveTo (.unlocking o it.data))
        else (g, (t.put slot ⟨it.data, it.lockCount - 1⟩).moveTo (.unlocking o it.data))

/-- The part of `id2data` in the list, and the caches after it. -/
def id2dataList (direct : Bool) (g : World ω) (t : Thread ω) (call : Call ω) : World ω × Thread ω :=
  match g.chain.find? fun d => (g.data d).object = call.object with
  | some d =>
    match call with
    | .enter o => (g.increment d, (t.save direct d).moveTo (.locking o d))
    | .tryEnter o => (g.increment d, (t.save direct d).moveTo (.trying o d))
    -- the thread has not entered, and is counted all the same
    | .exit _ => (g.increment d, t.moveTo (.returned false))
  | none =>
    match call with
    | .enter o => ((g.assign o).1, (t.save direct (g.assign o).2).moveTo (.locking o (g.assign o).2))
    | .tryEnter o => ((g.assign o).1, (t.save direct (g.assign o).2).moveTo (.trying o (g.assign o).2))
    | .exit _ => (g, t.moveTo (.returned false))

/-- The mutex is locked by the thread, which may have it already. -/
def lock (g : World ω) (t : Thread ω) (d : ℕ) : World ω × Thread ω :=
  (g.set d { g.data d with locked := true }, { t with owned := d ::ₘ t.owned, position := .returned true })

/-- `tryUnlock` -/
def tryUnlock (g : World ω) (t : Thread ω) (d : ℕ) : World ω × Thread ω :=
  if t.owned.count d = 0 then (g, t.moveTo (.returned false))
  else (if t.owned.count d = 1 then g.set d { g.data d with locked := false } else g,
    { t with owned := t.owned.erase d, position := .returned true })

/-- A turn; a thread between two calls makes the call of the choice. -/
def next (direct : Bool) (call : Call ω) (g : World ω) (t : Thread ω) : Option (World ω × Thread ω) :=
  match t.position with
  | .returned _ => some (id2dataCached g t call)
  | .searching call => some (id2dataList direct g t call)
  | .locking _ d => if t.owned.count d = 0 ∧ (g.data d).locked then none else some (lock g t d)
  | .trying _ d =>
    if t.owned.count d = 0 ∧ (g.data d).locked then
      some (g, t.moveTo (.returned false)) else some (lock g t d)
  | .unlocking _ d => some (tryUnlock g t d)
  | .fatal => none

/-- A thread before its first call. -/
def Thread.initial : Thread ω := ⟨none, [], 0, .returned true⟩

/-- No block; those that will be allocated are unused. -/
def World.initial (object : ω) : World ω := ⟨0, fun _ => ⟨object, 0, false⟩⟩

def entry (t : Thread ω) : Bool := decide (t = Thread.initial)

end Code

end QYInterview.ObjC.Sync
