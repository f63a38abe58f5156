import QYInterview.Lib.Interleaving
import QYInterview.ObjC.DependentRequests

/-!
# GCD.Semaphore — `dispatch_semaphore_t` under every interleaving

The semaphore half of `semaphore.c` of libdispatch.  A call of `dispatch_semaphore_wait` or
`dispatch_semaphore_signal` is a process; a turn of it is one atomic access to `dsema_value` or one
operation of the kernel's semaphore, with the tests up to the next access.  The kernel's semaphore is its
count: a wait in the kernel goes on when it is positive, and whether a wait with a finite timeout gives up
is a choice.

`dsema_value` is the number of free permits, or minus the number of calls that wait in the slow path and
have not been signalled; each signalled one has a wake-up of its own, in the kernel or under way to it
(`Inv.wakeUps`).  So a run is one of a counting semaphore, the abstract `Sync.semaphore` of the blocks with
dependent requests.
-/

namespace QYInterview.GCD

open Interleaving ObjC.DependentRequests

/-- `dispatch_time_t`: `DISPATCH_TIME_NOW`, `DISPATCH_TIME_FOREVER` or any other time. -/
inductive Timeout
  | now
  | forever
  | later
  deriving DecidableEq, Repr

/-- What a call has done to the semaphore: `effects` lists it and is read by no code. -/
inductive Effect
  | signal
  | wait
  deriving DecidableEq, Repr

/-- `dispatch_semaphore_s`; `dsemaSema` is the count of the kernel's semaphore. -/
structure DispatchSemaphore where
  dsemaValue : ℤ
  dsemaOrig : ℤ
  dsemaSema : ℕ
  effects : List Effect
  deriving DecidableEq, Repr

/-- Where a call is.  `retry orig` is the loop of the undo with the value it compares with. -/
inductive SemaphoreCall
  | wait (timeout : Timeout)
  | waitSlow (timeout : Timeout)
  | undo
  | retry (orig : ℤ)
  | drain
  | waited (timedOut : Bool)
  | signal
  | signalSlow
  | signalled (rc : ℕ)
  | crashed
  deriving DecidableEq, Repr

namespace Semaphore

/-! ## The code -/

/-- `long` arithmetic of 64 bits, which wraps round in an atomic operation. -/
def long (v : ℤ) : ℤ := v.bmod (2 ^ 64)

def longMin : ℤ := -2 ^ 63

/-- `none` is `DISPATCH_BAD_INPUT`. -/
def dispatchSemaphoreCreate (value : ℤ) : Option DispatchSemaphore :=
  if value < 0 then none else some ⟨value, value, 0, []⟩

/-- Whether `_dispatch_semaphore_dispose` crashes: "Semaphore object deallocated while in use". -/
def dispatchSemaphoreDispose (dsema : DispatchSemaphore) : Bool := dsema.dsemaValue < dsema.dsemaOrig

/-- `dispatch_semaphore_signal`, up to the slow path. -/
def dispatchSemaphoreSignal (dsema : DispatchSemaphore) : DispatchSemaphore × SemaphoreCall :=
  let value := long (dsema.dsemaValue + 1)
  ({ dsema with dsemaValue := value, effects := dsema.effects ++ [.signal] },
    if value > 0 then .signalled 0 else if value = longMin then .crashed else .signalSlow)

/-- `_dispatch_sema4_signal` in `_dispatch_semaphore_signal_slow` -/
def dispatchSemaphoreSignalSlow (dsema : DispatchSemaphore) : DispatchSemaphore × SemaphoreCall :=
  ({ dsema with dsemaSema := dsema.dsemaSema + 1 }, .signalled 1)

/-- `dispatch_semaphore_wait`, up to the slow path. -/
def dispatchSemaphoreWait (timeout : Timeout) (dsema : DispatchSemaphore) :
    DispatchSemaphore × SemaphoreCall :=
  let value := long (dsema.dsemaValue - 1)
  if value ≥ 0 then ({ dsema with dsemaValue := value, effects := dsema.effects ++ [.wait] }, .waited false)
  else ({ dsema with dsemaValue := value }, .waitSlow timeout)

/-- `_dispatch_sema4_wait`, which blocks while the kernel's count is zero. -/
def sema4Wait (dsema : DispatchSemaphore) : Option (DispatchSemaphore × SemaphoreCall) :=
  match dsema.dsemaSema with
  | 0 => none
  | k + 1 => some ({ dsema with dsemaSema := k, effects := dsema.effects ++ [.wait] }, .waited false)

/-- One turn of a call.  `expired` says that `_dispatch_sema4_timedwait` gives up. -/
def next (expired : Bool) (dsema : DispatchSemaphore) :
    SemaphoreCall → Option (DispatchSemaphore × SemaphoreCall)
  | .wait timeout => some (dispatchSemaphoreWait timeout dsema)
  | .waitSlow .later => if expired then some (dsema, .undo) else sema4Wait dsema
  | .waitSlow .now => some (dsema, .undo)
  | .waitSlow .forever => some (dsema, .drain)
  | .undo => some (dsema, .retry dsema.dsemaValue)
  | .retry orig =>
    if orig < 0 then
      if dsema.dsemaValue = orig then some ({ dsema with dsemaValue := orig + 1 }, .waited true)
      else some (dsema, .retry dsema.dsemaValue)
    else some (dsema, .drain)
  | .drain => sema4Wait dsema
  | .signal => some (dispatchSemaphoreSignal dsema)
  | .signalSlow => some (dispatchSemaphoreSignalSlow dsema)
  | .waited _ | .signalled _ | .crashed => none

/-- The calls a client makes. -/
def entry : SemaphoreCall → Bool
  | .wait _ | .signal => true
  | _ => false

/-! ## The turns -/

/-- What a turn can do. -/
inductive Turn (dsema : DispatchSemaphore) : SemaphoreCall → DispatchSemaphore → SemaphoreCall → Prop
  | fast (timeout : Timeout) (h : 0 ≤ long (dsema.dsemaValue - 1)) : Turn dsema (.wait timeout)
      { dsema with dsemaValue := long (dsema.dsemaValue - 1), effects := dsema.effects ++ [.wait] }
        (.waited false)
  | slow (timeout : Timeout) (h : long (dsema.dsemaValue - 1) < 0) : Turn dsema (.wait timeout)
      { dsema with dsemaValue := long (dsema.dsemaValue - 1) } (.waitSlow timeout)
  | giveUp (timeout : Timeout) (h : timeout ≠ .forever) : Turn dsema (.waitSlow timeout) dsema .undo
  | forever : Turn dsema (.waitSlow .forever) dsema .drain
  | woken (s : SemaphoreCall) (k : ℕ) (hs : s = .waitSlow .later ∨ s = .drain) (h : dsema.dsemaSema = k + 1) :
      Turn dsema s { dsema with dsemaSema := k, effects := dsema.effects ++ [.wait] } (.waited false)
  | load : Turn dsema .undo dsema (.retry dsema.dsemaValue)
  | undone (h : dsema.dsemaValue < 0) : Turn dsema (.retry dsema.dsemaValue)
      { dsema with dsemaValue := dsema.dsemaValue + 1 } (.waited true)
  | again (orig : ℤ) (h : dsema.dsemaValue ≠ orig) : Turn dsema (.retry orig) dsema (.retry dsema.dsemaValue)
  | late (orig : ℤ) (h : 0 ≤ orig) : Turn dsema (.retry orig) dsema .drain
  | signal (s : SemaphoreCall) (hs : s = .crashed ∧ long (dsema.dsemaValue + 1) = longMin ∨
      s = .signalled 0 ∧ 0 < long (dsema.dsemaValue + 1) ∨
      s = .signalSlow ∧ long (dsema.dsemaValue + 1) ≤ 0) : Turn dsema .signal
      { dsema with dsemaValue := long (dsema.dsemaValue + 1), effects := dsema.effects ++ [.signal] } s
  | wake : Turn dsema .signalSlow { dsema with dsemaSema := dsema.dsemaSema + 1 } (.signalled 1)

variable {dsema dsema' : DispatchSemaphore} {s s' : SemaphoreCall} {expired : Bool} {v : ℤ}
  {p p' : Pool DispatchSemaphore SemaphoreCall}

theorem turn_sema4Wait (hs : s = .waitSlow .later ∨ s = .drain) (h : sema4Wait dsema = some (dsema', s')) :
    Turn dsema s dsema' s' := by
  rw [sema4Wait] at h
  split at h
  · cases h
  · cases h
    exact .woken s _ hs ‹_›

theorem turn_of_next (h : next expired dsema s = some (dsema', s')) : Turn dsema s dsema' s' := by
  cases s with
  | wait timeout =>
    simp only [next, dispatchSemaphoreWait] at h
    split_ifs at h with hv
    · cases h
      exact .fast timeout hv
    · cases h
      exact .slow timeout (by omega)
  | waitSlow timeout =>
    cases timeout with
    | now =>
      cases h
      exact .giveUp .now (by decide)
    | forever =>
      cases h
      exact .forever
    | later =>
      simp only [next] at h
      split_ifs at h
      · cases h
        exact .giveUp .later (by decide)
      · exact turn_sema4Wait (Or.inl rfl) h
  | undo =>
    cases h
    exact .load
  | retry orig =>
    simp only [next] at h
    split_ifs at h with hneg heq
    · cases h
      subst heq
      exact .undone hneg
    · cases h
      exact .again orig heq
    · cases h
      exact .late orig (by omega)
  | drain => exact turn_sema4Wait (Or.inr rfl) h
  | waited timedOut => cases h
  | signal =>
    simp only [next, dispatchSemaphoreSignal] at h
    split_ifs at h with hpos hmin
    · cases h
      exact .signal _ (Or.inr (Or.inl ⟨rfl, hpos⟩))
    · cases h
      exact .signal _ (Or.inl ⟨rfl, hmin⟩)
    · cases h
      exact .signal _ (Or.inr (Or.inr ⟨rfl, by omega⟩))
  | signalSlow =>
    cases h
    exact .wake
  | signalled rc => cases h
  | crashed => cases h

theorem Turn.orig (h : Turn dsema s dsema' s') : dsema'.dsemaOrig = dsema.dsemaOrig := by
  cases h <;> rfl

/-! ## The invariant -/

/-- The calls in the slow path of a wait, which have taken one from `dsema_value`. -/
def slow : SemaphoreCall → ℕ
  | .waitSlow _ | .undo | .retry _ | .drain => 1
  | _ => 0

/-- The waits that returned 0. -/
def succeeded : SemaphoreCall → ℕ
  | .waited false => 1
  | _ => 0

/-- The signals that have added one to `dsema_value`. -/
def raised : SemaphoreCall → ℕ
  | .signalSlow | .signalled _ | .crashed => 1
  | _ => 0

/-- The signals about to wake a call in the kernel. -/
def waking : SemaphoreCall → ℕ
  | .signalSlow => 1
  | _ => 0

/-- A step of the counting semaphore. -/
def counting (sync : Sync) : Effect → Option Sync
  | .signal => some sync.leave
  | .wait => sync.wait

/-- The permits: those in `dsema_value` and those of the calls that are still to be woken. -/
def available (p : Pool DispatchSemaphore SemaphoreCall) : ℕ :=
  (p.shared.dsemaValue + (total slow p.procs : ℕ)).toNat

/-- The calls so far are too few for `dsema_value` to wrap round. -/
def Fits (p : Pool DispatchSemaphore SemaphoreCall) : Prop := p.shared.dsemaOrig + p.procs.length < 2 ^ 63

structure Inv (p : Pool DispatchSemaphore SemaphoreCall) : Prop where
  orig : 0 ≤ p.shared.dsemaOrig
  value : p.shared.dsemaValue + (total slow p.procs + total succeeded p.procs : ℕ) =
    p.shared.dsemaOrig + (total raised p.procs : ℕ)
  wakeUps : (total slow p.procs : ℕ) =
    max 0 (-p.shared.dsemaValue) + (p.shared.dsemaSema + total waking p.procs : ℕ)
  effects : Runs.run counting p.shared.effects (.semaphore p.shared.dsemaOrig.toNat) =
    some (.semaphore (available p))
  waits : p.shared.effects.count .wait = total succeeded p.procs
  signals : p.shared.effects.count .signal = total raised p.procs
  crashed : .crashed ∉ p.procs

theorem long_eq {v : ℤ} (hlo : -2 ^ 63 ≤ v) (hhi : v < 2 ^ 63) : long v = v :=
  Int.bmod_eq_of_le (by omega) (by omega)

theorem inv_create (h : dispatchSemaphoreCreate v = some dsema) : Inv ⟨dsema, []⟩ := by
  rw [dispatchSemaphoreCreate] at h
  split_ifs at h with hv
  cases h
  refine ⟨by simpa using hv, ?_, ?_, ?_, rfl, rfl, List.not_mem_nil⟩
  · simp
  · simp; omega
  · simp [available, Runs.run]

/-- A call that starts has done nothing yet. -/
theorem entry_zero (hs : entry s = true) :
    slow s = 0 ∧ succeeded s = 0 ∧ raised s = 0 ∧ waking s = 0 ∧ s ≠ .crashed := by
  cases s <;> simp [entry, slow, succeeded, raised, waking] at hs ⊢

theorem Inv.start (h : Inv p) (hs : entry s = true) : Inv ⟨p.shared, p.procs ++ [s]⟩ := by
  obtain ⟨h1, h2, h3, h4, h5⟩ := entry_zero hs
  obtain ⟨horig, hvalue, hwakeUps, heffects, hwaits, hsignals, hcrashed⟩ := h
  refine ⟨horig, ?_, ?_, ?_, ?_, ?_, ?_⟩
  · simpa only [total_concat, h1, h2, h3, Nat.add_zero] using hvalue
  · simpa only [total_concat, h1, h4, Nat.add_zero] using hwakeUps
  · simpa only [available, total_concat, h1, Nat.add_zero] using heffects
  · simpa only [total_concat, h2, Nat.add_zero] using hwaits
  · simpa only [total_concat, h3, Nat.add_zero] using hsignals
  · simpa only [List.mem_append, List.mem_singleton, not_or] using ⟨hcrashed, Ne.symm h5⟩

/-- The history after a turn, for each of the three effects it can have. -/
theorem Inv.noEffect (h : Inv p) (horig : p'.shared.dsemaOrig = p.shared.dsemaOrig)
    (heq : p'.shared.effects = p.shared.effects) (hav : available p' = available p) :
    Runs.run counting p'.shared.effects (.semaphore p'.shared.dsemaOrig.toNat) =
      some (.semaphore (available p')) := by
  rw [horig, heq, hav]
  exact h.effects

theorem Inv.signalEffect (h : Inv p) (horig : p'.shared.dsemaOrig = p.shared.dsemaOrig)
    (heq : p'.shared.effects = p.shared.effects ++ [.signal]) (hav : available p' = available p + 1) :
    Runs.run counting p'.shared.effects (.semaphore p'.shared.dsemaOrig.toNat) =
      some (.semaphore (available p')) := by
  rw [horig, heq, hav, Runs.run_concat h.effects]
  rfl

theorem Inv.waitEffect (h : Inv p) (horig : p'.shared.dsemaOrig = p.shared.dsemaOrig)
    (heq : p'.shared.effects = p.shared.effects ++ [.wait]) (hav : available p = available p' + 1) :
    Runs.run counting p'.shared.effects (.semaphore p'.shared.dsemaOrig.toNat) =
      some (.semaphore (available p')) := by
  have hrun := h.effects
  rw [hav] at hrun
  rw [horig, heq, Runs.run_concat hrun]
  rfl

theorem not_crashed_turn {front back : List SemaphoreCall} (h : .crashed ∉ front ++ s :: back)
    (hs : s' ≠ .crashed) :
    .crashed ∉ front ++ s' :: back := by
  simp only [List.mem_append, List.mem_cons, not_or] at h ⊢
  exact ⟨h.1, Ne.symm hs, h.2.2⟩

/-- Within the slow path of a wait nothing is taken or given back. -/
theorem Inv.moved {front back : List SemaphoreCall} (h : Inv ⟨dsema, front ++ s :: back⟩) (hs : slow s = 1)
    (hs' : slow s' = 1) : Inv ⟨dsema, front ++ s' :: back⟩ := by
  have key : ∀ t, slow t = 1 → succeeded t = 0 ∧ raised t = 0 ∧ waking t = 0 ∧ t ≠ .crashed := by
    intro t ht
    cases t <;> simp [slow, succeeded, raised, waking] at ht ⊢
  obtain ⟨h1, h2, h3, -⟩ := key s hs
  obtain ⟨h1', h2', h3', h4'⟩ := key s' hs'
  refine ⟨h.orig, ?_, ?_, h.noEffect rfl rfl ?_, ?_, ?_, not_crashed_turn h.crashed h4'⟩
  · simpa only [total_split, hs, hs', h1, h1', h2, h2'] using h.value
  · simpa only [total_split, hs, hs', h3, h3'] using h.wakeUps
  · simp only [available, total_split, hs, hs']
  · simpa only [total_split, h1, h1'] using h.waits
  · simpa only [total_split, h2, h2'] using h.signals

theorem count_append_wait (effects : List Effect) :
    (effects ++ [Effect.wait]).count Effect.wait = effects.count Effect.wait + 1 ∧
      (effects ++ [Effect.wait]).count Effect.signal = effects.count Effect.signal := by
  simp

theorem count_append_signal (effects : List Effect) :
    (effects ++ [Effect.signal]).count Effect.wait = effects.count Effect.wait ∧
      (effects ++ [Effect.signal]).count Effect.signal = effects.count Effect.signal + 1 := by
  simp

theorem Inv.turn {front back : List SemaphoreCall} (h : Inv ⟨dsema, front ++ s :: back⟩)
    (hfits : Fits ⟨dsema, front ++ s :: back⟩) (ht : Turn dsema s dsema' s') :
    Inv ⟨dsema', front ++ s' :: back⟩ := by
  -- the other calls have raised and taken at most one each
  have hraised : total raised front + total raised back ≤ front.length + back.length := by
    rw [← total_append, ← List.length_append]
    exact total_le_length fun s => by cases s <;> simp [raised]
  have htaken : total slow front + total slow back + (total succeeded front + total succeeded back) ≤
      front.length + back.length := by
    rw [← total_append, ← total_append, ← total_add, ← List.length_append]
    exact total_le_length fun s => by
      rcases s with _ | _ | _ | _ | _ | (_ | _) | _ | _ | _ | _ <;> simp [slow, succeeded]
  have hcrashed := h.crashed
  have horig : 0 ≤ dsema.dsemaOrig := h.orig
  have hvalue := h.value
  have hwakeUps := h.wakeUps
  have hwaits := h.waits
  have hsignals := h.signals
  simp only [Fits, List.length_append, List.length_cons] at hfits
  simp only [total_split] at hvalue hwakeUps hwaits hsignals
  have hlong (hs : entry s = true) : long (dsema.dsemaValue - 1) = dsema.dsemaValue - 1 ∧
      long (dsema.dsemaValue + 1) = dsema.dsemaValue + 1 ∧ dsema.dsemaValue + 1 ≠ longMin := by
    obtain ⟨h1, h2, h3, h4, -⟩ := entry_zero hs
    refine ⟨long_eq (by omega) (by omega), long_eq (by omega) (by omega), ?_⟩
    rw [longMin]
    omega
  cases ht with
  | giveUp timeout ht => exact h.moved rfl rfl
  | forever => exact h.moved rfl rfl
  | load => exact h.moved rfl rfl
  | again orig hne => exact h.moved rfl rfl
  | late orig hle => exact h.moved rfl rfl
  | fast timeout hv =>
    rw [(hlong rfl).1] at hv ⊢
    simp only [slow, succeeded, raised, waking] at hvalue hwakeUps hwaits hsignals
    refine ⟨horig, ?_, ?_, h.waitEffect rfl rfl ?_, ?_, ?_, not_crashed_turn hcrashed (by simp)⟩ <;>
    · simp only [available, total_split, slow, succeeded, raised, waking, count_append_wait]
      omega
  | slow timeout hv =>
    rw [(hlong rfl).1] at hv ⊢
    simp only [slow, succeeded, raised, waking] at hvalue hwakeUps hwaits hsignals
    refine ⟨horig, ?_, ?_, h.noEffect rfl rfl ?_, ?_, ?_, not_crashed_turn hcrashed (by simp)⟩ <;>
    · simp only [available, total_split, slow, succeeded, raised, waking]
      omega
  | woken _ k hs hk =>
    rcases hs with rfl | rfl <;>
    · simp only [slow, succeeded, raised, waking] at hvalue hwakeUps hwaits hsignals
      refine ⟨horig, ?_, ?_, h.waitEffect rfl rfl ?_, ?_, ?_, not_crashed_turn hcrashed (by simp)⟩ <;>
      · simp only [available, total_split, slow, succeeded, raised, waking, count_append_wait]
        omega
  | undone hneg =>
    simp only [slow, succeeded, raised, waking] at hvalue hwakeUps hwaits hsignals
    refine ⟨horig, ?_, ?_, h.noEffect rfl rfl ?_, ?_, ?_, not_crashed_turn hcrashed (by simp)⟩ <;>
    · simp only [available, total_split, slow, succeeded, raised, waking]
      omega
  | signal _ hs =>
    obtain ⟨-, hl, hmin⟩ := hlong rfl
    rw [hl] at hs ⊢
    simp only [slow, succeeded, raised, waking] at hvalue hwakeUps hwaits hsignals
    rcases hs with ⟨rfl, hm⟩ | ⟨rfl, hpos⟩ | ⟨rfl, hneg⟩
    · exact absurd hm hmin
    all_goals
      refine ⟨horig, ?_, ?_, h.signalEffect rfl rfl ?_, ?_, ?_, not_crashed_turn hcrashed (by simp)⟩ <;>
      · simp only [available, total_split, slow, succeeded, raised, waking, count_append_signal]
        omega
  | wake =>
    simp only [slow, succeeded, raised, waking] at hvalue hwakeUps hwaits hsignals
    refine ⟨horig, ?_, ?_, h.noEffect rfl rfl (by simp only [available, total_split, slow]), ?_, ?_,
      not_crashed_turn hcrashed (by simp)⟩ <;>
    · simp only [total_split, slow, succeeded, raised, waking]
      omega

/-! ## The runs -/

theorem inv_of_reachable (hcreate : dispatchSemaphoreCreate v = some dsema) (h : Reachable entry next dsema p)
    (hfits : Fits p) : Inv p := by
  refine always (P := fun p => Fits p → Inv p) (fun _ => inv_create hcreate) ?_ ?_ h hfits
  · intro p s hp hs hfits
    refine (hp ?_).start hs
    simp only [Fits, List.length_append, List.length_singleton] at hfits ⊢
    omega
  · intro dsema front s back expired dsema' s' hp hnext hfits
    have ht := turn_of_next hnext
    have hfits' : Fits ⟨dsema, front ++ s :: back⟩ := by
      simpa only [Fits, ht.orig, List.length_append, List.length_cons] using hfits
    exact (hp hfits').turn hfits' ht

theorem orig_of_reachable (hcreate : dispatchSemaphoreCreate v = some dsema)
    (h : Reachable entry next dsema p) :
    p.shared.dsemaOrig = v := by
  refine always (P := fun p => p.shared.dsemaOrig = v) ?_ ?_ ?_ h
  · rw [dispatchSemaphoreCreate] at hcreate
    split_ifs at hcreate
    cases hcreate
    rfl
  · exact fun _ _ hp _ => hp
  · intro dsema front s back expired dsema' s' hp hnext
    exact (turn_of_next hnext).orig.trans hp

/-- **The semaphore counts.**  However the calls are interleaved, the successful waits and the signals, in the
order in which they take effect, are a run of the counting semaphore from the value at the creation. -/
theorem counting_of_reachable (hcreate : dispatchSemaphoreCreate v = some dsema)
    (h : Reachable entry next dsema p) (hfits : Fits p) :
    Runs.run counting p.shared.effects (.semaphore v.toNat) = some (.semaphore (available p)) ∧
      p.shared.effects.count .wait = total succeeded p.procs ∧
      p.shared.effects.count .signal = total raised p.procs ∧
      (available p + total succeeded p.procs : ℕ) = v + (total raised p.procs : ℕ) := by
  have hinv := inv_of_reachable hcreate h hfits
  have horig := orig_of_reachable hcreate h
  have hvalue := hinv.value
  have hwakeUps := hinv.wakeUps
  refine ⟨horig ▸ hinv.effects, hinv.waits, hinv.signals, ?_⟩
  rw [available]
  omega

theorem counting_of_reachable_pair :
    Runs.run counting [.signal, .wait, .wait] (.semaphore 1) = some (.semaphore 0) :=
  (counting_of_reachable (v := 1) (p := ⟨⟨0, 1, 0, [.signal, .wait, .wait]⟩,
    [.waited false, .waited false, .signalled 0]⟩) rfl
    ⟨[.start (.wait .now), .start (.wait .forever), .start .signal, .turn 2 false, .turn 0 false,
      .turn 1 false], by decide⟩ (by unfold Fits; decide)).1

/-- **No signal is lost.**  When no call can go on, each has returned or waits in the kernel, and if one waits
there, the successful waits have used up the first value and all signals. -/
theorem available_of_stuck (hcreate : dispatchSemaphoreCreate v = some dsema)
    (h : Reachable entry next dsema p) (hfits : Fits p) (hstuck : Stuck next p) :
    (∀ s ∈ p.procs, s = .drain ∨ (∃ timedOut, s = .waited timedOut) ∨ ∃ rc, s = .signalled rc) ∧
      (.drain ∈ p.procs → available p = 0 ∧
        (total succeeded p.procs : ℕ) = v + (total raised p.procs : ℕ)) := by
  have hinv := inv_of_reachable hcreate h hfits
  have horig := orig_of_reachable hcreate h
  have hvalue := hinv.value
  have hwakeUps := hinv.wakeUps
  have hends : ∀ s ∈ p.procs, s = .drain ∨ (∃ timedOut, s = .waited timedOut) ∨ ∃ rc, s = .signalled rc := by
    intro s hs
    have hno := hstuck s hs true
    cases s with
    | wait timeout => cases hno
    | waitSlow timeout => cases timeout <;> cases hno
    | undo => cases hno
    | retry orig =>
      simp only [next] at hno
      split_ifs at hno
    | drain => exact Or.inl rfl
    | waited timedOut => exact Or.inr (Or.inl ⟨timedOut, rfl⟩)
    | signal => cases hno
    | signalSlow => cases hno
    | signalled rc => exact Or.inr (Or.inr ⟨rc, rfl⟩)
    | crashed => exact absurd hs hinv.crashed
  refine ⟨hends, fun hdrain => ?_⟩
  have hsema : p.shared.dsemaSema = 0 := by
    have hno := hstuck _ hdrain true
    simp only [next, sema4Wait] at hno
    split at hno
    · assumption
    · cases hno
  have hwaking : total waking p.procs = 0 := by
    refine total_eq_zero.mpr fun s hs => ?_
    rcases hends s hs with rfl | ⟨timedOut, rfl⟩ | ⟨rc, rfl⟩ <;> rfl
  have hslow : 0 < total slow p.procs := by
    refine Nat.pos_of_ne_zero fun h0 => ?_
    have := total_eq_zero.mp h0 _ hdrain
    simp [slow] at this
  rw [available]
  omega

theorem available_of_stuck_blocked : (total succeeded [.drain] : ℕ) = (0 : ℤ) + (total raised [.drain] : ℕ) :=
  ((available_of_stuck (v := 0) (p := ⟨⟨-1, 0, 0, []⟩, [.drain]⟩) rfl
    ⟨[.start (.wait .forever), .turn 0 false, .turn 0 false], by decide⟩ (by unfold Fits; decide)
    (by simp [Stuck, next, sema4Wait])).2 List.mem_cons_self).2

/-- The semaphore may be disposed of when there were as many signals as waits that did not time out. -/
theorem dispose_iff (hcreate : dispatchSemaphoreCreate v = some dsema) (h : Reachable entry next dsema p)
    (hfits : Fits p) : dispatchSemaphoreDispose p.shared = true ↔
      total raised p.procs < total slow p.procs + total succeeded p.procs := by
  have hvalue := (inv_of_reachable hcreate h hfits).value
  rw [dispatchSemaphoreDispose, decide_eq_true_iff]
  omega

/-! ## The end of a run -/

/-- The changes of `dsema_value` that a call may still make. -/
def pending : SemaphoreCall → ℕ
  | .wait _ => 2
  | .waitSlow .now | .waitSlow .later | .undo | .retry _ | .signal => 1
  | _ => 0

/-- The turns of a call before such a change, while `dsema_value` stays as it is. -/
def ahead (value : ℤ) : SemaphoreCall → ℕ
  | .waitSlow .forever => 2
  | .waitSlow _ => 4
  | .undo => 3
  | .retry orig => if orig = value then 1 else 2
  | .drain | .signalSlow => 1
  | _ => 0

/-- A change costs each call at most the turns of its own that it had done since the last one. -/
def turnsLeft (p : Pool DispatchSemaphore SemaphoreCall) : ℕ :=
  total pending p.procs * (4 * p.procs.length + 1) + total (ahead p.shared.dsemaValue) p.procs

theorem ahead_le (value : ℤ) (s : SemaphoreCall) : ahead value s ≤ 4 := by
  rcases s with _ | (_ | _ | _) | _ | _ | _ | _ | _ | _ | _ | _ <;> simp only [ahead] <;>
    first | omega | (split_ifs <;> omega)

theorem Turn.progress (h : Turn dsema s dsema' s') : pending s' < pending s ∨
    dsema'.dsemaValue = dsema.dsemaValue ∧ pending s' = pending s ∧
      ahead dsema.dsemaValue s' < ahead dsema.dsemaValue s := by
  cases h with
  | fast timeout hv => exact Or.inl (by simp [pending])
  | slow timeout hv => cases timeout <;> exact Or.inl (by simp [pending])
  | giveUp timeout ht =>
    cases timeout with
    | forever => exact absurd rfl ht
    | now => exact Or.inr ⟨rfl, rfl, by simp [ahead]⟩
    | later => exact Or.inr ⟨rfl, rfl, by simp [ahead]⟩
  | forever => exact Or.inr ⟨rfl, rfl, by simp [ahead]⟩
  | woken _ k hs hk =>
    rcases hs with rfl | rfl
    · exact Or.inl (by simp [pending])
    · exact Or.inr ⟨rfl, rfl, by simp [ahead]⟩
  | load => exact Or.inr ⟨rfl, rfl, by simp [ahead]⟩
  | undone hneg => exact Or.inl (by simp [pending])
  | again orig hne => exact Or.inr ⟨rfl, rfl, by simp [ahead, Ne.symm hne]⟩
  | late orig hle => exact Or.inl (by simp [pending])
  | signal _ hs => rcases hs with ⟨rfl, -⟩ | ⟨rfl, -⟩ | ⟨rfl, -⟩ <;> exact Or.inl (by simp [pending])
  | wake => exact Or.inr ⟨rfl, rfl, by simp [ahead]⟩

theorem lowers_turnsLeft : Lowers next turnsLeft := by
  intro dsema front s back expired dsema' s' hnext
  have hlen : (front ++ s' :: back).length = (front ++ s :: back).length := by simp
  have hafter := total_le (front ++ s' :: back) (ahead_le dsema'.dsemaValue)
  rw [hlen] at hafter
  simp only [turnsLeft, hlen]
  generalize (front ++ s :: back).length = n at hafter ⊢
  rcases (turn_of_next hnext).progress with hlt | ⟨hvalue, heq, hlt⟩
  · have hmul := Nat.mul_le_mul_right (4 * n + 1) (show total pending (front ++ s' :: back) + 1 ≤
      total pending (front ++ s :: back) by simp only [total_split]; omega)
    rw [Nat.succ_mul] at hmul
    omega
  · rw [hvalue]
    simp only [total_split, heq]
    omega

/-- **The calls come to an end.**  However the turns of `n` calls are ordered, no call goes on for ever in
the loop of its undo. -/
theorem length_turns_le {acts : List (Action SemaphoreCall Bool)}
    (hturns : ∀ act ∈ acts, ∃ i c, act = Action.turn i c)
    (hrun : Runs.run (step entry next) acts p = some p') :
    acts.length ≤ 2 * p.procs.length * (4 * p.procs.length + 1) + 4 * p.procs.length := by
  have hrun := length_run_le lowers_turnsLeft hturns hrun
  have hpending := total_le (f := pending) (n := 2) p.procs fun s => by
    rcases s with _ | (_ | _ | _) | _ | _ | _ | _ | _ | _ | _ | _ <;> simp [pending]
  have hahead := total_le p.procs (ahead_le p.shared.dsemaValue)
  have hmul := Nat.mul_le_mul_right (4 * p.procs.length + 1) hpending
  have hleft : turnsLeft p ≤ 2 * p.procs.length * (4 * p.procs.length + 1) + 4 * p.procs.length := by
    rw [turnsLeft]
    omega
  omega

/-- The undo of a timed-out wait goes round its loop, as another wait has lowered the value in between. -/
theorem length_turns_le_undo : ∃ acts : List (Action SemaphoreCall Bool),
    Runs.run (step entry next) acts ⟨⟨0, 0, 0, []⟩, [.wait .now, .wait .forever, .signal]⟩ =
      some ⟨⟨0, 0, 0, [.signal, .wait]⟩, [.waited true, .waited false, .signalled 1]⟩ ∧
    acts.length ≤ 2 * 3 * (4 * 3 + 1) + 4 * 3 := by
  have hrun : Runs.run (step entry next) [.turn 0 false, .turn 0 false, .turn 0 false, .turn 1 false,
    .turn 0 false, .turn 0 false, .turn 2 false, .turn 2 false, .turn 1 false, .turn 1 false]
      ⟨⟨0, 0, 0, []⟩, [.wait .now, .wait .forever, .signal]⟩ =
      some ⟨⟨0, 0, 0, [.signal, .wait]⟩, [.waited true, .waited false, .signalled 1]⟩ := by decide
  refine ⟨_, hrun, length_turns_le (fun act hact => ?_) hrun⟩
  simp only [List.mem_cons, List.not_mem_nil, or_false] at hact
  rcases hact with rfl | rfl | rfl | rfl | rfl | rfl | rfl | rfl | rfl | rfl <;> exact ⟨_, _, rfl⟩

end Semaphore

end QYInterview.GCD
