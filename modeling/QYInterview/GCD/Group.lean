import QYInterview.GCD.GroupState
import QYInterview.GCD.Semaphore

/-!
# GCD.Group — `dispatch_group_t` under every interleaving

The group half of `semaphore.c` of libdispatch.  A call is a process and a turn of it one atomic access to
`dg_state`, to the list of notifications or to the kernel; a call in `_dispatch_wait_on_address` is asleep
and goes on when `_dispatch_wake_by_address` has been called since, or when its time is over.

The thread that clears `HAS_NOTIFS`, or finds the group empty after it was the first to register a
notification, owns the list of notifications (`Inv.owner`).  A group that is empty with a flag set still has
a leave in its loop, which will see the flag (`Inv.flags`).
-/

namespace QYInterview.GCD

open Interleaving GroupState

universe u

/-- `dispatch_group_s`.  `submitted` are the notifications handed to `_dispatch_continuation_async`, and
`wakes` counts the calls of `_dispatch_wake_by_address`; `registered`, all notifications so far, and
`emptied`, how often a leave was the last one, are read by no code. -/
structure DispatchGroup (β : Type u) where
  dgState : BitVec 64
  dgNotify : List β
  submitted : List β
  wakes : ℕ
  registered : List β
  emptied : ℕ
  deriving DecidableEq, Repr

/-- Where a call is.  The compare-and-swaps carry the state they compare with, the calls from `wake` on the
state they wake for and `needs_release`, and a sleeping call how often the kernel had
woken the address before. -/
inductive GroupCall (β : Type u)
  | enter
  | leave
  | leaveCas (oldState : BitVec 64)
  | wake (dgState : BitVec 64) (needsRelease : Bool)
  | submit (dgState : BitVec 64) (needsRelease : Bool) (dcs : List β)
  | wakeAddress (dgState : BitVec 64) (needsRelease : Bool)
  | wait (timeout : Timeout)
  | waitCas (oldState : BitVec 64) (timeout : Timeout)
  | waitSlow (gen : BitVec 32) (timeout : Timeout)
  | asleep (gen : BitVec 32) (timeout : Timeout) (ticket : ℕ)
  | reload (gen : BitVec 32) (timeout : Timeout) (rc : Bool)
  | notify (dsn : β)
  | notifyLoad
  | notifyCas (oldState : BitVec 64)
  | entered
  | left
  | waited (timedOut : Bool)
  | notified
  | crashed
  deriving DecidableEq, Repr

namespace Group

variable {β : Type u}

/-! ## The code -/

/-- `_dispatch_group_create_with_count` -/
def dispatchGroupCreateWithCount (n : ℕ) : DispatchGroup β := ⟨withCount n, [], [], 0, [], 0⟩

/-- Whether `_dispatch_group_dispose` crashes: "Group object deallocated while in use". -/
def dispatchGroupDispose (dg : DispatchGroup β) : Bool := dg.dgState.setWidth 32 ≠ 0

/-- `dispatch_group_enter`; it crashes on "Too many nested calls". -/
def dispatchGroupEnter (dg : DispatchGroup β) : DispatchGroup β × GroupCall β :=
  let oldBits := dg.dgState.setWidth 32
  let oldValue := oldBits &&& valueMask.setWidth 32
  ({ dg with dgState := subBits dg.dgState },
    if oldValue = valueInterval.setWidth 32 then .crashed else .entered)

/-- The loop of `dispatch_group_leave`, up to its compare-and-swap. -/
def leaveLoop (oldState : BitVec 64) : GroupCall β :=
  if oldState = cleared oldState then .wake oldState true else .leaveCas oldState

/-- `dispatch_group_leave`, up to its loop; it crashes on an "Unbalanced call". -/
def dispatchGroupLeave (dg : DispatchGroup β) : DispatchGroup β × GroupCall β :=
  let oldState := dg.dgState
  let oldValue := (oldState &&& valueMask).setWidth 32
  let dg := { dg with dgState := oldState + valueInterval }
  if oldValue = valueMask.setWidth 32 then
    ({ dg with emptied := dg.emptied + 1 }, leaveLoop (oldState + valueInterval))
  else (dg, if oldValue = 0 then .crashed else .left)

/-- The notifications in `_dispatch_group_wake`; the snapshot is waited for while the list is still empty. -/
def dispatchGroupWake (dgState : BitVec 64) (needsRelease : Bool) (dg : DispatchGroup β) :
    Option (DispatchGroup β × GroupCall β) :=
  if dgState &&& hasNotifs = 0 then some (dg, .wakeAddress dgState needsRelease)
  else if dg.dgNotify = [] then none
  else some ({ dg with dgNotify := [] }, .submit dgState needsRelease dg.dgNotify)

/-- The waiters in `_dispatch_group_wake`. -/
def wakeByAddress (dgState : BitVec 64) (needsRelease : Bool) (dg : DispatchGroup β) :
    DispatchGroup β × GroupCall β :=
  ({ dg with wakes := if dgState &&& hasWaiters = 0 then dg.wakes else dg.wakes + 1 },
    if needsRelease then .left else .notified)

/-- The loop of `dispatch_group_wait`, up to its compare-and-swap. -/
def waitLoop (oldState : BitVec 64) (timeout : Timeout) : GroupCall β :=
  if oldState &&& valueMask = 0 then .waited false
  else if timeout = .now then .waited true
  else if oldState &&& hasWaiters = 0 then .waitCas oldState timeout
  else .waitSlow (dgStateGen (oldState ||| hasWaiters)) timeout

/-- `_dispatch_wait_on_address`, which sleeps while the generation is the given one. -/
def waitOnAddress (gen : BitVec 32) (timeout : Timeout) (dg : DispatchGroup β) : GroupCall β :=
  if dgStateGen dg.dgState = gen then .asleep gen timeout dg.wakes else .reload gen timeout false

/-- The loop of `_dispatch_group_wait_slow` behind `_dispatch_wait_on_address`. -/
def dispatchGroupWaitSlow (gen : BitVec 32) (timeout : Timeout) (rc : Bool) (dg : DispatchGroup β) :
    GroupCall β :=
  if gen ≠ dgStateGen dg.dgState then .waited false
  else if rc then .waited true
  else .waitSlow gen timeout

/-- `_dispatch_group_notify`, up to its loop. -/
def dispatchGroupNotify (dsn : β) (dg : DispatchGroup β) : DispatchGroup β × GroupCall β :=
  ({ dg with dgNotify := dg.dgNotify ++ [dsn], registered := dg.registered ++ [dsn] },
    if dg.dgNotify = [] then .notifyLoad else .notified)

/-- The loop of `_dispatch_group_notify`, up to its compare-and-swap. -/
def notifyLoop (oldState : BitVec 64) : GroupCall β :=
  if oldState.setWidth 32 = 0 then .wake (oldState ||| hasNotifs) false else .notifyCas oldState

/-- One turn of a call.  The choice says that a weak compare-and-swap fails, or that the time of a sleeping
call is over. -/
def next (choice : Bool) (dg : DispatchGroup β) : GroupCall β → Option (DispatchGroup β × GroupCall β)
  | .enter => some (dispatchGroupEnter dg)
  | .leave => some (dispatchGroupLeave dg)
  | .leaveCas oldState =>
    if dg.dgState = oldState then some ({ dg with dgState := cleared oldState }, .wake oldState true)
    else some (dg, leaveLoop dg.dgState)
  | .wake dgState needsRelease => dispatchGroupWake dgState needsRelease dg
  | .submit dgState needsRelease [] => some (dg, .wakeAddress dgState needsRelease)
  | .submit dgState needsRelease (dc :: dcs) =>
    some ({ dg with submitted := dg.submitted ++ [dc] }, .submit dgState needsRelease dcs)
  | .wakeAddress dgState needsRelease => some (wakeByAddress dgState needsRelease dg)
  | .wait timeout => some (dg, waitLoop dg.dgState timeout)
  | .waitCas oldState timeout =>
    if dg.dgState = oldState ∧ choice = false then
      some ({ dg with dgState := oldState ||| hasWaiters },
        .waitSlow (dgStateGen (oldState ||| hasWaiters)) timeout)
    else some (dg, waitLoop dg.dgState timeout)
  | .waitSlow gen timeout => some (dg, waitOnAddress gen timeout dg)
  | .asleep gen timeout ticket =>
    if choice = true ∧ timeout ≠ .forever then some (dg, .reload gen timeout true)
    else if ticket < dg.wakes then some (dg, .reload gen timeout false)
    else none
  | .reload gen timeout rc => some (dg, dispatchGroupWaitSlow gen timeout rc dg)
  | .notify dsn => some (dispatchGroupNotify dsn dg)
  | .notifyLoad => some (dg, notifyLoop dg.dgState)
  | .notifyCas oldState =>
    if dg.dgState = oldState ∧ choice = false then
      some ({ dg with dgState := oldState ||| hasNotifs }, .notified)
    else some (dg, notifyLoop dg.dgState)
  | .entered | .left | .waited _ | .notified | .crashed => none

/-- The calls a client makes. -/
def entry : GroupCall β → Bool
  | .enter | .leave | .wait _ | .notify _ => true
  | _ => false

/-! ## The turns -/

/-- How often the group is entered. -/
abbrev value (dg : DispatchGroup β) : ℕ := dgStateValue dg.dgState

/-- What a turn can do. -/
inductive Turn (dg : DispatchGroup β) : GroupCall β → DispatchGroup β → GroupCall β → Prop
  | crash (s : GroupCall β) (dg' : DispatchGroup β) : Turn dg s dg' .crashed
  | enter (h : value dg < 2 ^ 30 - 1) : Turn dg .enter { dg with dgState := subBits dg.dgState } .entered
  | leave (h : 1 < value dg) : Turn dg .leave { dg with dgState := dg.dgState + valueInterval } .left
  | last (h : value dg = 1) : Turn dg .leave
      { dg with dgState := dg.dgState + valueInterval, emptied := dg.emptied + 1 }
      (leaveLoop (dg.dgState + valueInterval))
  | clear : Turn dg (.leaveCas dg.dgState) { dg with dgState := cleared dg.dgState } (.wake dg.dgState true)
  | leaveAgain (oldState : BitVec 64) : Turn dg (.leaveCas oldState) dg (leaveLoop dg.dgState)
  | capture (w : BitVec 64) (r : Bool) (hw : notifs w = true) (hq : dg.dgNotify ≠ []) :
      Turn dg (.wake w r) { dg with dgNotify := [] } (.submit w r dg.dgNotify)
  | noNotifs (w : BitVec 64) (r : Bool) (hw : notifs w = false) : Turn dg (.wake w r) dg (.wakeAddress w r)
  | submit (w : BitVec 64) (r : Bool) (dc : β) (dcs : List β) :
      Turn dg (.submit w r (dc :: dcs)) { dg with submitted := dg.submitted ++ [dc] } (.submit w r dcs)
  | submitted (w : BitVec 64) (r : Bool) : Turn dg (.submit w r []) dg (.wakeAddress w r)
  | wakeAddress (w : BitVec 64) (r : Bool) : Turn dg (.wakeAddress w r)
      { dg with wakes := dg.wakes + (waiters w).toNat } (if r then .left else .notified)
  | wait (timeout : Timeout) : Turn dg (.wait timeout) dg (waitLoop dg.dgState timeout)
  | waitSet (timeout : Timeout) : Turn dg (.waitCas dg.dgState timeout)
      { dg with dgState := dg.dgState ||| hasWaiters }
        (.waitSlow (dgStateGen (dg.dgState ||| hasWaiters)) timeout)
  | waitAgain (oldState : BitVec 64) (timeout : Timeout) :
      Turn dg (.waitCas oldState timeout) dg (waitLoop dg.dgState timeout)
  | waitSlow (gen : BitVec 32) (timeout : Timeout) : Turn dg (.waitSlow gen timeout) dg
      (waitOnAddress gen timeout dg)
  | roused (gen : BitVec 32) (timeout : Timeout) (ticket : ℕ) (rc : Bool) :
      Turn dg (.asleep gen timeout ticket) dg (.reload gen timeout rc)
  | reload (gen : BitVec 32) (timeout : Timeout) (rc : Bool) :
      Turn dg (.reload gen timeout rc) dg (dispatchGroupWaitSlow gen timeout rc dg)
  | first (dsn : β) (h : dg.dgNotify = []) : Turn dg (.notify dsn)
      { dg with dgNotify := [dsn], registered := dg.registered ++ [dsn] } .notifyLoad
  | append (dsn : β) (h : dg.dgNotify ≠ []) : Turn dg (.notify dsn)
      { dg with dgNotify := dg.dgNotify ++ [dsn], registered := dg.registered ++ [dsn] } .notified
  | notifyLoad : Turn dg .notifyLoad dg (notifyLoop dg.dgState)
  | notifySet : Turn dg (.notifyCas dg.dgState) { dg with dgState := dg.dgState ||| hasNotifs } .notified
  | notifyAgain (oldState : BitVec 64) : Turn dg (.notifyCas oldState) dg (notifyLoop dg.dgState)

variable {dg dg' : DispatchGroup β} {s s' : GroupCall β} {choice : Bool}
  {p p' : Pool (DispatchGroup β) (GroupCall β)}

theorem turn_of_next (h : next choice dg s = some (dg', s')) : Turn dg s dg' s' := by
  cases s with
  | enter =>
    simp only [next, dispatchGroupEnter] at h
    split_ifs at h with hmax
    · cases h
      exact .crash _ _
    · cases h
      have hlt := dgStateValue_lt dg.dgState
      rw [isMax_iff] at hmax
      exact .enter (show dgStateValue dg.dgState < _ by omega)
  | leave =>
    simp only [next, dispatchGroupLeave] at h
    split_ifs at h with hone hzero
    · cases h
      exact .last ((isOne_iff _).mp hone)
    · cases h
      exact .crash _ _
    · cases h
      rw [isOne_iff] at hone
      rw [isZero_iff] at hzero
      exact .leave (show 1 < dgStateValue dg.dgState by omega)
  | leaveCas oldState =>
    simp only [next] at h
    split_ifs at h with heq
    · cases h
      subst heq
      exact .clear
    · cases h
      exact .leaveAgain oldState
  | wake w r =>
    simp only [next, dispatchGroupWake] at h
    split_ifs at h with hw hq
    · cases h
      exact .noNotifs w r ((and_hasNotifs w).mp hw)
    · cases h
      exact .capture w r (by simpa using mt (and_hasNotifs w).mpr hw) hq
  | submit w r dcs =>
    cases dcs with
    | nil =>
      cases h
      exact .submitted w r
    | cons dc dcs =>
      cases h
      exact .submit w r dc dcs
  | wakeAddress w r =>
    have hwakes : (if w &&& hasWaiters = 0 then dg.wakes else dg.wakes + 1) =
        dg.wakes + (waiters w).toNat := by
      cases hw : waiters w with
      | false => rw [if_pos ((and_hasWaiters w).mpr hw)]; rfl
      | true => rw [if_neg (mt (and_hasWaiters w).mp (by simp [hw]))]; rfl
    simp only [next, wakeByAddress, hwakes] at h
    cases h
    exact .wakeAddress w r
  | wait timeout =>
    cases h
    exact .wait timeout
  | waitCas oldState timeout =>
    simp only [next] at h
    split_ifs at h with heq
    · cases h
      obtain ⟨rfl, -⟩ := heq
      exact .waitSet timeout
    · cases h
      exact .waitAgain oldState timeout
  | waitSlow gen timeout =>
    cases h
    exact .waitSlow gen timeout
  | asleep gen timeout ticket =>
    simp only [next] at h
    split_ifs at h
    · cases h
      exact .roused gen timeout ticket true
    · cases h
      exact .roused gen timeout ticket false
  | reload gen timeout rc =>
    cases h
    exact .reload gen timeout rc
  | notify dsn =>
    simp only [next, dispatchGroupNotify] at h
    split_ifs at h with hq
    · cases h
      rw [hq]
      exact .first dsn hq
    · cases h
      exact .append dsn hq
  | notifyLoad =>
    cases h
    exact .notifyLoad
  | notifyCas oldState =>
    simp only [next] at h
    split_ifs at h with heq
    · cases h
      obtain ⟨rfl, -⟩ := heq
      exact .notifySet
    · cases h
      exact .notifyAgain oldState
  | entered => cases h
  | left => cases h
  | waited timedOut => cases h
  | notified => cases h
  | crashed => cases h

/-! ## What one turn preserves -/

/-- The calls of `dispatch_group_enter` that have taken effect. -/
def enters : GroupCall β → ℕ
  | .entered => 1
  | _ => 0

/-- The calls of `dispatch_group_leave` that have taken effect. -/
def leaves : GroupCall β → ℕ
  | .leaveCas _ | .left => 1
  | .wake _ r | .submit _ r _ | .wakeAddress _ r => r.toNat
  | _ => 0

/-- The calls that will take the list of notifications or set `HAS_NOTIFS` for it. -/
def owns : GroupCall β → ℕ
  | .notifyLoad | .notifyCas _ => 1
  | .wake w _ => (notifs w).toNat
  | _ => 0

/-- The leaves in their loop, which look at the flags once more. -/
def leaving : GroupCall β → ℕ
  | .leaveCas _ => 1
  | _ => 0

/-- The calls that will wake the waiters. -/
def rousing : GroupCall β → ℕ
  | .wake w _ | .submit w _ _ | .wakeAddress w _ => (waiters w).toNat
  | _ => 0

/-- The notifications that a call has taken from the list and not submitted yet. -/
def inFlight : GroupCall β → Multiset β
  | .submit _ _ dcs => dcs
  | _ => 0

/-- The notification of a call that has not put it into the list yet. -/
def unregistered : GroupCall β → Multiset β
  | .notify dsn => {dsn}
  | _ => 0

/-- What a call in a compare-and-swap has seen. -/
def Loaded : GroupCall β → Prop
  | .waitCas oldState _ => dgStateValue oldState ≠ 0
  | .notifyCas oldState => oldState.setWidth 32 ≠ 0
  | _ => True

variable (w : BitVec 64) (gen : BitVec 32) (timeout : Timeout) (rc r : Bool)

theorem leaveLoop_cases :
    leaveLoop w = (.leaveCas w : GroupCall β) ∧ (notifs w = true ∨ dgStateValue w = 0 ∧ waiters w = true) ∨
    leaveLoop w = (.wake w true : GroupCall β) ∧ notifs w = false ∧
    (dgStateValue w = 0 → waiters w = false) := by
  rw [leaveLoop]
  split_ifs with h
  · exact Or.inr ⟨rfl, (eq_cleared w).mp h⟩
  · rw [eq_cleared] at h
    refine Or.inl ⟨rfl, ?_⟩
    cases hn : notifs w with
    | true => exact Or.inl rfl
    | false =>
      simp only [hn, true_and, Classical.not_imp, Bool.not_eq_false] at h
      exact Or.inr h

theorem waitLoop_cases : (∃ timedOut, waitLoop w timeout = (.waited timedOut : GroupCall β)) ∨
    dgStateValue w ≠ 0 ∧ (waitLoop w timeout = (.waitCas w timeout : GroupCall β) ∨
      waiters w = true ∧ waitLoop w timeout =
        (.waitSlow (dgStateGen (w ||| hasWaiters)) timeout : GroupCall β)) := by
  rw [waitLoop]
  split_ifs with hv ht hw
  · exact Or.inl ⟨false, rfl⟩
  · exact Or.inl ⟨true, rfl⟩
  · exact Or.inr ⟨mt (and_valueMask_eq_zero w).mpr hv, Or.inl rfl⟩
  · exact Or.inr ⟨mt (and_valueMask_eq_zero w).mpr hv,
      Or.inr ⟨by simpa using mt (and_hasWaiters w).mpr hw, rfl⟩⟩

theorem notifyLoop_cases : notifyLoop w = (.notifyCas w : GroupCall β) ∧ w.setWidth 32 ≠ 0 ∨
    notifyLoop w = (.wake (w ||| hasNotifs) false : GroupCall β) ∧ w.setWidth 32 = 0 := by
  rw [notifyLoop]
  split_ifs with h
  · exact Or.inr ⟨rfl, h⟩
  · exact Or.inl ⟨rfl, h⟩

theorem waitOnAddress_cases (dg : DispatchGroup β) :
    waitOnAddress gen timeout dg = .asleep gen timeout dg.wakes ∧ dgStateGen dg.dgState = gen ∨
    waitOnAddress gen timeout dg = .reload gen timeout false := by
  rw [waitOnAddress]
  split_ifs with h
  · exact Or.inl ⟨rfl, h⟩
  · exact Or.inr rfl

theorem dispatchGroupWaitSlow_cases (dg : DispatchGroup β) :
    (∃ timedOut, dispatchGroupWaitSlow gen timeout rc dg = .waited timedOut) ∨
    dispatchGroupWaitSlow gen timeout rc dg = .waitSlow gen timeout := by
  rw [dispatchGroupWaitSlow]
  split_ifs
  · exact Or.inl ⟨false, rfl⟩
  · exact Or.inl ⟨true, rfl⟩
  · exact Or.inr rfl

/-- A call that has no part in what the others wait for. -/
structure Idle (s : GroupCall β) : Prop where
  leaves : leaves s = 0
  enters : enters s = 0
  owns : owns s = 0
  leaving : leaving s = 0
  rousing : rousing s = 0
  inFlight : inFlight s = 0

theorem idle_waitLoop : Idle (waitLoop w timeout : GroupCall β) := by
  rcases waitLoop_cases w timeout with ⟨timedOut, h⟩ | ⟨-, h | ⟨-, h⟩⟩ <;> rw [h] <;>
    exact ⟨rfl, rfl, rfl, rfl, rfl, rfl⟩

theorem idle_waitOnAddress : Idle (waitOnAddress gen timeout dg) := by
  rcases waitOnAddress_cases gen timeout dg with ⟨h, -⟩ | h <;> rw [h] <;>
    exact ⟨rfl, rfl, rfl, rfl, rfl, rfl⟩

theorem idle_dispatchGroupWaitSlow : Idle (dispatchGroupWaitSlow gen timeout rc dg) := by
  rcases dispatchGroupWaitSlow_cases gen timeout rc dg with ⟨timedOut, h⟩ | h <;> rw [h] <;>
    exact ⟨rfl, rfl, rfl, rfl, rfl, rfl⟩

theorem leaves_leaveLoop : leaves (leaveLoop w : GroupCall β) = 1 ∧ enters (leaveLoop w : GroupCall β) = 0 ∧
    owns (leaveLoop w : GroupCall β) = 0 ∧ inFlight (leaveLoop w : GroupCall β) = 0 := by
  rcases leaveLoop_cases w with ⟨h, -⟩ | ⟨h, hn, -⟩ <;> rw [h]
  · exact ⟨rfl, rfl, rfl, rfl⟩
  · exact ⟨rfl, rfl, congrArg Bool.toNat hn, rfl⟩

/-- A leave that sees a flag goes on in its loop or to the waiters. -/
theorem leaving_leaveLoop :
    (dgStateValue w = 0 → notifs w = true ∨ waiters w = true → leaving (leaveLoop w : GroupCall β) = 1) ∧
    (waiters w = true → leaving (leaveLoop w : GroupCall β) = 1 ∨
      rousing (leaveLoop w : GroupCall β) = 1) := by
  rcases leaveLoop_cases w with ⟨h, -⟩ | ⟨h, hn, hw⟩ <;> rw [h]
  · exact ⟨fun _ _ => rfl, fun _ => Or.inl rfl⟩
  · refine ⟨fun hv hf => ?_, fun hw' => Or.inr (congrArg Bool.toNat hw')⟩
    rw [hn, hw hv] at hf
    simp at hf

theorem owns_notifyLoop : owns (notifyLoop w : GroupCall β) = 1 ∧ leaves (notifyLoop w : GroupCall β) = 0 ∧
    enters (notifyLoop w : GroupCall β) = 0 ∧ leaving (notifyLoop w : GroupCall β) = 0 ∧
    inFlight (notifyLoop w : GroupCall β) = 0 := by
  rcases notifyLoop_cases w with ⟨h, -⟩ | ⟨h, -⟩ <;> rw [h]
  · exact ⟨rfl, rfl, rfl, rfl, rfl⟩
  · exact ⟨congrArg Bool.toNat (setNotifs w).2.1, rfl, rfl, rfl, rfl⟩

theorem idle_done : enters (if r then .left else .notified : GroupCall β) = 0 ∧
    leaves (if r then .left else .notified : GroupCall β) = r.toNat ∧
    owns (if r then .left else .notified : GroupCall β) = 0 ∧
    leaving (if r then .left else .notified : GroupCall β) = 0 ∧
    rousing (if r then .left else .notified : GroupCall β) = 0 ∧
    inFlight (if r then .left else .notified : GroupCall β) = 0 := by
  cases r <;> exact ⟨rfl, rfl, rfl, rfl, rfl, rfl⟩

variable {w gen timeout rc r}

theorem value_cleared : dgStateValue (cleared w) = dgStateValue w := (fields_of_upper (upper_cleared w)).2

theorem value_setWaiters : dgStateValue (w ||| hasWaiters) = dgStateValue w :=
  (fields_of_upper (setWaiters w).1).2

theorem value_setNotifs : dgStateValue (w ||| hasNotifs) = dgStateValue w :=
  (fields_of_upper (setNotifs w).1).2

/-- The value counts the enters and leaves. -/
theorem Turn.ledger (h : Turn dg s dg' s') (hs : s' ≠ .crashed) :
    value dg' + leaves s' + enters s = value dg + leaves s + enters s' := by
  cases h with
  | crash => exact absurd rfl hs
  | enter hv => rw [value, (subBits_of_lt _ hv).1]; rfl
  | leave hv =>
    have hv' : 1 < dgStateValue dg.dgState := hv
    simp only [leaves, enters, value, (add_of_lt _ hv).1]
    omega
  | last hv =>
    obtain ⟨h1, h2, -⟩ := leaves_leaveLoop (β := β) (dg.dgState + valueInterval)
    rw [value, (add_of_one _ hv).1, h1, h2, hv]
    rfl
  | clear => rw [value, value_cleared]; rfl
  | leaveAgain oldState =>
    obtain ⟨h1, h2, -⟩ := leaves_leaveLoop (β := β) dg.dgState
    rw [h1, h2]
    rfl
  | wakeAddress w r =>
    obtain ⟨h1, h2, -⟩ := idle_done (β := β) r
    rw [h1, h2]
    rfl
  | wait timeout => rw [(idle_waitLoop _ _).leaves, (idle_waitLoop _ _).enters]; rfl
  | waitSet timeout => rw [value, value_setWaiters]; rfl
  | waitAgain oldState timeout => rw [(idle_waitLoop _ _).leaves, (idle_waitLoop _ _).enters]; rfl
  | waitSlow gen timeout => rw [(idle_waitOnAddress _ _).leaves, (idle_waitOnAddress _ _).enters]; rfl
  | reload gen timeout rc =>
    rw [(idle_dispatchGroupWaitSlow _ _ _).leaves, (idle_dispatchGroupWaitSlow _ _ _).enters]
    rfl
  | notifyLoad =>
    obtain ⟨-, h1, h2, -⟩ := owns_notifyLoop (β := β) dg.dgState
    rw [h1, h2]
    rfl
  | notifySet => rw [value, value_setNotifs]; rfl
  | notifyAgain oldState =>
    obtain ⟨-, h1, h2, -⟩ := owns_notifyLoop (β := β) dg.dgState
    rw [h1, h2]
    rfl
  | _ => rfl

/-- 1 while the list of notifications has one. -/
def filled : List β → ℕ
  | [] => 0
  | _ :: _ => 1

theorem filled_of_ne {l : List β} (h : l ≠ []) : filled l = 1 := by
  cases l with
  | nil => exact absurd rfl h
  | cons b l => rfl

theorem filled_le (l : List β) : filled l ≤ 1 := by
  cases l <;> simp [filled]

/-- The list changes its owner, or is taken and has none. -/
theorem Turn.owner (h : Turn dg s dg' s') (hs : s' ≠ .crashed)
    (hone : owns s + (notifs dg.dgState).toNat ≤ filled dg.dgNotify) :
    owns s' + (notifs dg'.dgState).toNat + filled dg.dgNotify =
      owns s + (notifs dg.dgState).toNat + filled dg'.dgNotify := by
  cases h with
  | crash => exact absurd rfl hs
  | enter hv => rw [(subBits_of_lt _ hv).2.2.1]; rfl
  | leave hv => rw [(add_valueInterval _).2.1]; rfl
  | last hv => rw [(add_valueInterval _).2.1, (leaves_leaveLoop _).2.2.1]; rfl
  | clear =>
    simp only [owns, notifs_cleared, Bool.toNat_false]
    omega
  | leaveAgain oldState => rw [(leaves_leaveLoop _).2.2.1]; rfl
  | capture w r hw hq =>
    rw [filled_of_ne hq]
    simp only [owns, filled, hw, Bool.toNat_true]
    omega
  | noNotifs w r hw =>
    simp only [owns, hw, Bool.toNat_false]
  | submit w r dc dcs => rfl
  | submitted w r => rfl
  | wakeAddress w r => rw [(idle_done r).2.2.1]; rfl
  | wait timeout => rw [(idle_waitLoop _ _).owns]; rfl
  | waitSet timeout => rw [(setWaiters _).2.1]; rfl
  | waitAgain oldState timeout => rw [(idle_waitLoop _ _).owns]; rfl
  | waitSlow gen timeout => rw [(idle_waitOnAddress _ _).owns]; rfl
  | roused gen timeout ticket rc => rfl
  | reload gen timeout rc => rw [(idle_dispatchGroupWaitSlow _ _ _).owns]; rfl
  | first dsn hq =>
    simp only [owns, filled, hq]
    omega
  | append dsn hq =>
    simp only [owns, filled_of_ne hq, filled_of_ne (List.append_ne_nil_of_left_ne_nil hq [dsn])]
  | notifyLoad => rw [(owns_notifyLoop _).1]; rfl
  | notifySet =>
    have hle := filled_le dg.dgNotify
    simp only [owns, (setNotifs _).2.1, Bool.toNat_true] at hone ⊢
    omega
  | notifyAgain oldState => rw [(owns_notifyLoop _).1]; rfl

/-- A flag of an empty group has a leave that will see it. -/
theorem Turn.flags (h : Turn dg s dg' s') (hs : s' ≠ .crashed) (hloaded : Loaded s) (hv : value dg' = 0)
    (hf : notifs dg'.dgState = true ∨ waiters dg'.dgState = true) : leaving s' = 1 ∨
      leaving s = 0 ∧ value dg = 0 ∧ (notifs dg.dgState = true ∨ waiters dg.dgState = true) := by
  cases h with
  | crash => exact absurd rfl hs
  | enter hlt =>
    rw [value, (subBits_of_lt _ hlt).1] at hv
    exact absurd hv (Nat.succ_ne_zero _)
  | leave hlt =>
    have hlt' : 1 < dgStateValue dg.dgState := hlt
    simp only [value, (add_of_lt _ hlt).1] at hv
    omega
  | last hone => exact Or.inl ((leaving_leaveLoop _).1 hv hf)
  | clear =>
    rw [value, value_cleared] at hv
    rw [notifs_cleared, waiters_cleared, hv] at hf
    simp at hf
  | leaveAgain oldState => exact Or.inl ((leaving_leaveLoop _).1 hv hf)
  | waitSet timeout =>
    rw [value, value_setWaiters] at hv
    exact absurd hv hloaded
  | notifySet =>
    rw [value, value_setNotifs] at hv
    refine Or.inr ⟨rfl, hv, ?_⟩
    by_contra hno
    rw [not_or, Bool.not_eq_true, Bool.not_eq_true] at hno
    exact hloaded ((setWidth_eq_zero _).mpr ⟨hv, hno⟩)
  | _ => exact Or.inr ⟨rfl, hv, hf⟩

/-- A notification goes from the list over a call to the queues. -/
theorem Turn.blocks (h : Turn dg s dg' s') (hs : s' ≠ .crashed) (others : Multiset β)
    (hb : (dg.registered : Multiset β) = dg.submitted + (others + inFlight s) + dg.dgNotify) :
    (dg'.registered : Multiset β) = dg'.submitted + (others + inFlight s') + dg'.dgNotify := by
  cases h with
  | crash => exact absurd rfl hs
  | last hv => rw [(leaves_leaveLoop _).2.2.2]; exact hb
  | leaveAgain oldState => rw [(leaves_leaveLoop _).2.2.2]; exact hb
  | capture w r hw hq =>
    simp only [inFlight, add_zero] at hb ⊢
    rw [hb, Multiset.coe_nil, add_zero, add_assoc]
  | submit w r dc dcs =>
    simp only [inFlight, ← List.singleton_append (l := dcs), ← Multiset.coe_add] at hb ⊢
    rw [hb]
    abel
  | wakeAddress w r => rw [(idle_done r).2.2.2.2.2]; exact hb
  | wait timeout => rw [(idle_waitLoop _ _).inFlight]; exact hb
  | waitAgain oldState timeout => rw [(idle_waitLoop _ _).inFlight]; exact hb
  | waitSlow gen timeout => rw [(idle_waitOnAddress _ _).inFlight]; exact hb
  | reload gen timeout rc => rw [(idle_dispatchGroupWaitSlow _ _ _).inFlight]; exact hb
  | first dsn hq =>
    simp only [inFlight, hq, Multiset.coe_nil, add_zero, ← Multiset.coe_add] at hb ⊢
    rw [hb]
  | append dsn hq =>
    simp only [inFlight, add_zero, ← Multiset.coe_add] at hb ⊢
    rw [hb, add_assoc]
  | notifyLoad => rw [(owns_notifyLoop _).2.2.2.2]; exact hb
  | notifyAgain oldState => rw [(owns_notifyLoop _).2.2.2.2]; exact hb
  | _ => exact hb

theorem unregistered_waitLoop : unregistered (waitLoop w timeout : GroupCall β) = 0 := by
  rcases waitLoop_cases (β := β) w timeout with ⟨timedOut, h⟩ | ⟨-, h | ⟨-, h⟩⟩ <;> rw [h] <;> rfl

theorem unregistered_leaveLoop : unregistered (leaveLoop w : GroupCall β) = 0 := by
  rcases leaveLoop_cases (β := β) w with ⟨h, -⟩ | ⟨h, -⟩ <;> rw [h] <;> rfl

theorem unregistered_notifyLoop : unregistered (notifyLoop w : GroupCall β) = 0 := by
  rcases notifyLoop_cases (β := β) w with ⟨h, -⟩ | ⟨h, -⟩ <;> rw [h] <;> rfl

/-- A call registers its notification in its first turn. -/
theorem Turn.registers (h : Turn dg s dg' s') (hs : s' ≠ .crashed) :
    (dg'.registered : Multiset β) + unregistered s' = dg.registered + unregistered s := by
  cases h with
  | crash => exact absurd rfl hs
  | last hv => rw [unregistered_leaveLoop]; rfl
  | leaveAgain oldState => rw [unregistered_leaveLoop]; rfl
  | wakeAddress w r => cases r <;> rfl
  | wait timeout => rw [unregistered_waitLoop]; rfl
  | waitAgain oldState timeout => rw [unregistered_waitLoop]; rfl
  | waitSlow gen timeout => rcases waitOnAddress_cases gen timeout dg with ⟨h, -⟩ | h <;> rw [h] <;> rfl
  | reload gen timeout rc =>
    rcases dispatchGroupWaitSlow_cases gen timeout rc dg with ⟨timedOut, h⟩ | h <;> rw [h] <;> rfl
  | first dsn hq => rw [← Multiset.coe_add, add_assoc]; rfl
  | append dsn hq => rw [← Multiset.coe_add, add_assoc]; rfl
  | notifyLoad => rw [unregistered_notifyLoop]; rfl
  | notifyAgain oldState => rw [unregistered_notifyLoop]; rfl
  | _ => rfl

/-- The counting of an enter and of a leave does not touch the flags. -/
theorem Turn.flags_eq (h : Turn dg s dg' s') (hs : s' ≠ .crashed) (hcounts : s = .enter ∨ s = .leave) :
    notifs dg'.dgState = notifs dg.dgState ∧ waiters dg'.dgState = waiters dg.dgState := by
  rcases hcounts with rfl | rfl
  · cases h with
    | crash => exact absurd rfl hs
    | enter hv => exact (subBits_of_lt _ hv).2.2
  · cases h with
    | crash => exact absurd rfl hs
    | leave hv => exact (add_valueInterval _).2
    | last hv => exact (add_valueInterval _).2

theorem loaded_leaveLoop : Loaded (leaveLoop w : GroupCall β) := by
  rcases leaveLoop_cases (β := β) w with ⟨h, -⟩ | ⟨h, -⟩ <;> rw [h] <;> trivial

theorem loaded_waitLoop : Loaded (waitLoop w timeout : GroupCall β) := by
  rcases waitLoop_cases (β := β) w timeout with ⟨timedOut, h⟩ | ⟨hv, h | ⟨-, h⟩⟩ <;> rw [h]
  · trivial
  · exact hv
  · trivial

theorem loaded_notifyLoop : Loaded (notifyLoop w : GroupCall β) := by
  rcases notifyLoop_cases (β := β) w with ⟨h, hv⟩ | ⟨h, -⟩ <;> rw [h]
  · exact hv
  · trivial

theorem Turn.loaded (h : Turn dg s dg' s') : Loaded s' := by
  cases h with
  | last hv => exact loaded_leaveLoop
  | leaveAgain oldState => exact loaded_leaveLoop
  | wakeAddress w r => cases r <;> trivial
  | wait timeout => exact loaded_waitLoop
  | waitAgain oldState timeout => exact loaded_waitLoop
  | waitSlow gen timeout => rcases waitOnAddress_cases gen timeout dg with ⟨h, -⟩ | h <;> rw [h] <;> trivial
  | reload gen timeout rc =>
    rcases dispatchGroupWaitSlow_cases gen timeout rc dg with ⟨timedOut, h⟩ | h <;> rw [h] <;> trivial
  | notifyLoad => exact loaded_notifyLoop
  | notifyAgain oldState => exact loaded_notifyLoop
  | _ => trivial

/-! ## The invariant -/

structure Inv (n : ℕ) (p : Pool (DispatchGroup β) (GroupCall β)) : Prop where
  ledger : value p.shared + total leaves p.procs = n + total enters p.procs
  owner : total owns p.procs + (notifs p.shared.dgState).toNat = filled p.shared.dgNotify
  flags : value p.shared = 0 → notifs p.shared.dgState = true ∨ waiters p.shared.dgState = true →
    0 < total leaving p.procs
  blocks : (p.shared.registered : Multiset β) =
    p.shared.submitted + total inFlight p.procs + p.shared.dgNotify
  loaded : ∀ s ∈ p.procs, Loaded s

variable {n : ℕ} {front back : List (GroupCall β)}

theorem inv_create (hn : n < 2 ^ 30) :
    Inv n (⟨dispatchGroupCreateWithCount n, []⟩ : Pool _ (GroupCall β)) := by
  obtain ⟨hv, -, hnotifs, hwaiters⟩ := withCount_of_lt hn
  refine ⟨congrArg (· + 0) hv, ?_, fun _ hf => ?_, rfl, fun s hs => absurd hs List.not_mem_nil⟩
  · exact congrArg (0 + Bool.toNat ·) hnotifs
  · rcases hf with hf | hf
    · exact absurd (hnotifs.symm.trans hf) (by decide)
    · exact absurd (hwaiters.symm.trans hf) (by decide)

/-- A call that starts has done nothing yet. -/
theorem idle_entry (hs : entry s = true) : Idle s ∧ Loaded s := by
  cases s with
  | enter => exact ⟨⟨rfl, rfl, rfl, rfl, rfl, rfl⟩, trivial⟩
  | leave => exact ⟨⟨rfl, rfl, rfl, rfl, rfl, rfl⟩, trivial⟩
  | wait timeout => exact ⟨⟨rfl, rfl, rfl, rfl, rfl, rfl⟩, trivial⟩
  | notify dsn => exact ⟨⟨rfl, rfl, rfl, rfl, rfl, rfl⟩, trivial⟩
  | _ => cases hs

theorem Inv.start (h : Inv n p) (hs : entry s = true) : Inv n ⟨p.shared, p.procs ++ [s]⟩ := by
  obtain ⟨hidle, hloaded⟩ := idle_entry hs
  refine ⟨?_, ?_, ?_, ?_, ?_⟩
  · simpa only [total_concat, hidle.leaves, hidle.enters, add_zero] using h.ledger
  · simpa only [total_concat, hidle.owns, add_zero] using h.owner
  · simpa only [total_concat, hidle.leaving, add_zero] using h.flags
  · simpa only [total_concat, hidle.inFlight, add_zero] using h.blocks
  · intro t ht
    rcases List.mem_append.mp ht with ht | ht
    · exact h.loaded t ht
    · exact List.mem_singleton.mp ht ▸ hloaded

theorem Inv.turn (h : Inv n ⟨dg, front ++ s :: back⟩) (ht : Turn dg s dg' s') (hs : s' ≠ .crashed) :
    Inv n ⟨dg', front ++ s' :: back⟩ := by
  have hledger := h.ledger
  have howner := h.owner
  have hflags := h.flags
  have hblocks := h.blocks
  simp only [total_split] at hledger howner hflags hblocks
  refine ⟨?_, ?_, fun hv hf => ?_, ?_, ?_⟩
  · have hturn := ht.ledger hs
    simp only [total_split]
    omega
  · have hturn := ht.owner hs (by omega)
    simp only [total_split]
    omega
  · simp only [total_split]
    rcases ht.flags hs (h.loaded s (List.mem_append_right _ List.mem_cons_self)) hv hf with hl | ⟨hl, hv, hf⟩
    · omega
    · have := hflags hv hf
      omega
  · simp only [total_split]
    exact ht.blocks hs _ hblocks
  · exact forall_turn (I := fun _ t => Loaded t) dg dg' h.loaded (fun _ => ht.loaded) fun t ht => ht

/-! ## The waiters -/

/-- Some call will wake the waiters, or see their flag. -/
def Roused (p : Pool (DispatchGroup β) (GroupCall β)) : Prop :=
  0 < total rousing p.procs ∨ waiters p.shared.dgState = true ∧ 0 < total leaving p.procs

/-- A waiting call has taken the generation when the group was not empty,
and its flag is set while that is so. -/
def Snapshot (dg : DispatchGroup β) : GroupCall β → Prop
  | .waitSlow gen _ | .asleep gen _ _ | .reload gen _ _ =>
    gen.toNat ≤ dg.emptied ∧ (dgStateGen dg.dgState = gen → value dg ≠ 0 ∧ waiters dg.dgState = true)
  | _ => True

/-- The generations have not come round, `dg_gen` is the number of the last one, and a call that sleeps
through it, while it has not been woken, will be. -/
structure Waits (p : Pool (DispatchGroup β) (GroupCall β)) : Prop where
  gen : (dgStateGen p.shared.dgState).toNat = p.shared.emptied
  snapshot : ∀ s ∈ p.procs, Snapshot p.shared s
  asleep : ∀ gen timeout ticket, .asleep gen timeout ticket ∈ p.procs → ticket ≤ p.shared.wakes ∧
    (ticket = p.shared.wakes → dgStateGen p.shared.dgState = gen ∨ Roused p)

/-- Only the last leave changes the generation. -/
theorem Turn.generation (h : Turn dg s dg' s') (hs : s' ≠ .crashed) :
    dg'.emptied = dg.emptied ∧ dgStateGen dg'.dgState = dgStateGen dg.dgState ∨
      dg'.emptied = dg.emptied + 1 ∧ dgStateGen dg'.dgState = dgStateGen dg.dgState + 1 ∧
        waiters dg'.dgState = waiters dg.dgState ∧ dg'.wakes = dg.wakes ∧
        (waiters dg.dgState = true → leaving s' = 1) ∧ value dg' = 0 := by
  cases h with
  | crash => exact absurd rfl hs
  | enter hv => exact Or.inl ⟨rfl, (subBits_of_lt _ hv).2.1⟩
  | leave hv => exact Or.inl ⟨rfl, (add_of_lt _ hv).2⟩
  | last hv =>
    obtain ⟨-, hn, hw⟩ := add_valueInterval dg.dgState
    obtain ⟨hzero, hgen⟩ := add_of_one _ hv
    exact Or.inr ⟨rfl, hgen, hw, rfl, fun h => (leaving_leaveLoop _).1 hzero (Or.inr (hw.trans h)), hzero⟩
  | clear => exact Or.inl ⟨rfl, (fields_of_upper (upper_cleared _)).1⟩
  | waitSet timeout => exact Or.inl ⟨rfl, (fields_of_upper (setWaiters _).1).1⟩
  | notifySet => exact Or.inl ⟨rfl, (fields_of_upper (setNotifs _).1).1⟩
  | _ => exact Or.inl ⟨rfl, rfl⟩

/-- While the generation stays, a group with waiters does not become empty and keeps their flag. -/
theorem Turn.keeps (h : Turn dg s dg' s') (hs : s' ≠ .crashed)
    (hgen : dgStateGen dg'.dgState = dgStateGen dg.dgState) (hv : value dg ≠ 0)
    (hw : waiters dg.dgState = true) : value dg' ≠ 0 ∧ waiters dg'.dgState = true := by
  cases h with
  | crash => exact absurd rfl hs
  | enter hlt =>
    obtain ⟨h1, -, -, h2⟩ := subBits_of_lt _ hlt
    rw [value, h1, h2]
    exact ⟨Nat.succ_ne_zero _, hw⟩
  | leave hlt =>
    have hlt' : 1 < dgStateValue dg.dgState := hlt
    rw [value, (add_of_lt _ hlt).1, (add_valueInterval _).2.2]
    exact ⟨by omega, hw⟩
  | last hone =>
    rw [(add_of_one _ hone).2] at hgen
    simp at hgen
  | clear =>
    rw [value, value_cleared, waiters_cleared, decide_eq_true hv, Bool.true_and]
    exact ⟨hv, hw⟩
  | waitSet timeout =>
    rw [value, value_setWaiters]
    exact ⟨hv, (setWaiters _).2.2⟩
  | notifySet =>
    rw [value, value_setNotifs, (setNotifs _).2.2]
    exact ⟨hv, hw⟩
  | _ => exact ⟨hv, hw⟩

/-- Who is to wake the waiters does so, or leaves it to the next. -/
theorem Turn.rouses (h : Turn dg s dg' s') (hs : s' ≠ .crashed) (hwakes : dg'.wakes = dg.wakes) :
    rousing s ≤ rousing s' ∧ (waiters dg.dgState = true → rousing s' = 1 ∨
      waiters dg'.dgState = true ∧ (leaving s = 1 → leaving s' = 1)) := by
  cases h with
  | crash => exact absurd rfl hs
  | enter hv =>
    rw [(subBits_of_lt _ hv).2.2.2]
    exact ⟨Nat.le_refl _, fun hw => Or.inr ⟨hw, fun h => absurd h (Nat.zero_ne_one)⟩⟩
  | leave hv =>
    rw [(add_valueInterval _).2.2]
    exact ⟨Nat.le_refl _, fun hw => Or.inr ⟨hw, fun h => absurd h (Nat.zero_ne_one)⟩⟩
  | last hv =>
    rw [(add_valueInterval _).2.2]
    exact ⟨Nat.zero_le _, fun hw => Or.inr ⟨hw, fun h => absurd h (Nat.zero_ne_one)⟩⟩
  | clear => exact ⟨Nat.zero_le _, fun hw => Or.inl (congrArg Bool.toNat hw)⟩
  | leaveAgain oldState =>
    refine ⟨Nat.zero_le _, fun hw => ?_⟩
    rcases (leaving_leaveLoop _).2 hw with h | h
    · exact Or.inr ⟨hw, fun _ => h⟩
    · exact Or.inl h
  | wakeAddress w r =>
    have hw : (waiters w).toNat = 0 := by simpa using hwakes
    exact ⟨by rw [rousing, hw]; exact Nat.zero_le _,
      fun hw => Or.inr ⟨hw, fun h => absurd h (Nat.zero_ne_one)⟩⟩
  | waitSet timeout =>
    exact ⟨Nat.le_refl _, fun _ => Or.inr ⟨(setWaiters _).2.2, fun h => absurd h (Nat.zero_ne_one)⟩⟩
  | notifySet =>
    rw [(setNotifs _).2.2]
    exact ⟨Nat.le_refl _, fun hw => Or.inr ⟨hw, fun h => absurd h (Nat.zero_ne_one)⟩⟩
  | noNotifs w r hw => exact ⟨Nat.le_refl _, fun hw => Or.inr ⟨hw, fun h => absurd h (Nat.zero_ne_one)⟩⟩
  | capture w r hw hq => exact ⟨Nat.le_refl _, fun hw => Or.inr ⟨hw, fun h => absurd h (Nat.zero_ne_one)⟩⟩
  | submit w r dc dcs => exact ⟨Nat.le_refl _, fun hw => Or.inr ⟨hw, fun h => absurd h (Nat.zero_ne_one)⟩⟩
  | submitted w r => exact ⟨Nat.le_refl _, fun hw => Or.inr ⟨hw, fun h => absurd h (Nat.zero_ne_one)⟩⟩
  | _ => exact ⟨Nat.zero_le _, fun hw => Or.inr ⟨hw, fun h => absurd h (Nat.zero_ne_one)⟩⟩

theorem Roused.turn (h : Roused ⟨dg, front ++ s :: back⟩) (ht : Turn dg s dg' s') (hs : s' ≠ .crashed)
    (hwakes : dg'.wakes = dg.wakes) : Roused ⟨dg', front ++ s' :: back⟩ := by
  obtain ⟨hrousing, hwaiters⟩ := ht.rouses hs hwakes
  simp only [Roused, total_split] at h ⊢
  rcases h with h | ⟨hw, h⟩
  · exact Or.inl (by omega)
  · rcases hwaiters hw with h1 | ⟨hw', hl⟩
    · exact Or.inl (by omega)
    · refine Or.inr ⟨hw', ?_⟩
      by_cases h1 : leaving s = 1
      · have := hl h1
        omega
      · have : leaving s ≤ 1 := by cases s <;> simp [leaving]
        omega

/-- A snapshot survives the turns of the others. -/
theorem Snapshot.turn {t t' : GroupCall β} (h : Snapshot dg s)
    (hgen' : (dgStateGen dg'.dgState).toNat = dg'.emptied) (ht : Turn dg t dg' t') (hs : t' ≠ .crashed) :
    Snapshot dg' s := by
  have key : ∀ gen : BitVec 32, gen.toNat ≤ dg.emptied ∧
      (dgStateGen dg.dgState = gen → value dg ≠ 0 ∧ waiters dg.dgState = true) → gen.toNat ≤ dg'.emptied ∧
      (dgStateGen dg'.dgState = gen → value dg' ≠ 0 ∧ waiters dg'.dgState = true) := by
    rintro gen ⟨hle, hkeep⟩
    rcases ht.generation hs with ⟨he, hg⟩ | ⟨he, -⟩
    · refine ⟨he ▸ hle, fun h => ?_⟩
      obtain ⟨hv, hw⟩ := hkeep (hg.symm.trans h)
      exact ht.keeps hs hg hv hw
    · refine ⟨by omega, fun h => ?_⟩
      rw [h] at hgen'
      omega
  cases s with
  | waitSlow gen timeout => exact key gen h
  | asleep gen timeout ticket => exact key gen h
  | reload gen timeout rc => exact key gen h
  | _ => trivial

theorem snapshot_waitLoop (hgen : (dgStateGen dg.dgState).toNat = dg.emptied) :
    Snapshot dg (waitLoop dg.dgState timeout) := by
  rcases waitLoop_cases (β := β) dg.dgState timeout with ⟨timedOut, h⟩ | ⟨hv, h | ⟨hw, h⟩⟩ <;> rw [h]
  · trivial
  · trivial
  · rw [Snapshot, (fields_of_upper (setWaiters _).1).1]
    exact ⟨hgen.le, fun _ => ⟨hv, hw⟩⟩

/-- A call that begins to wait takes its snapshot. -/
theorem Turn.snapshot (h : Turn dg s dg' s') (hs : Snapshot dg s) (hloaded : Loaded s)
    (hgen : (dgStateGen dg.dgState).toNat = dg.emptied) : Snapshot dg' s' := by
  cases h with
  | last hv =>
    rcases leaveLoop_cases (β := β) (dg.dgState + valueInterval) with ⟨h, -⟩ | ⟨h, -⟩ <;> rw [h] <;> trivial
  | leaveAgain oldState =>
    rcases leaveLoop_cases (β := β) dg.dgState with ⟨h, -⟩ | ⟨h, -⟩ <;> rw [h] <;> trivial
  | wakeAddress w r => cases r <;> trivial
  | wait timeout => exact snapshot_waitLoop hgen
  | waitAgain oldState timeout => exact snapshot_waitLoop hgen
  | waitSet timeout =>
    have hg := (fields_of_upper (setWaiters dg.dgState).1).1
    refine ⟨?_, fun _ => ⟨?_, (setWaiters _).2.2⟩⟩
    · rw [hg]
      exact hgen.le
    · rw [value, value_setWaiters]
      exact hloaded
  | waitSlow gen timeout =>
    rcases waitOnAddress_cases gen timeout dg with ⟨h, -⟩ | h <;> rw [h] <;> exact hs
  | roused gen timeout ticket rc => exact hs
  | reload gen timeout rc =>
    rcases dispatchGroupWaitSlow_cases gen timeout rc dg with ⟨timedOut, h⟩ | h <;> rw [h]
    · trivial
    · exact hs
  | notifyLoad => rcases notifyLoop_cases (β := β) dg.dgState with ⟨h, -⟩ | ⟨h, -⟩ <;> rw [h] <;> trivial
  | notifyAgain oldState =>
    rcases notifyLoop_cases (β := β) dg.dgState with ⟨h, -⟩ | ⟨h, -⟩ <;> rw [h] <;> trivial
  | _ => trivial

theorem Turn.wakes_le (h : Turn dg s dg' s') (hs : s' ≠ .crashed) : dg.wakes ≤ dg'.wakes := by
  cases h with
  | crash => exact absurd rfl hs
  | wakeAddress w r => exact Nat.le_add_right _ _
  | _ => exact Nat.le_refl _

/-- A call falls asleep in the generation that it waits for the end of. -/
theorem Turn.fallsAsleep {ticket : ℕ} (h : Turn dg s dg' (.asleep gen timeout ticket)) :
    ticket = dg'.wakes ∧ dgStateGen dg'.dgState = gen := by
  generalize hs' : GroupCall.asleep gen timeout ticket = s' at h
  cases h with
  | last hv =>
    rcases leaveLoop_cases (β := β) (dg.dgState + valueInterval) with ⟨h, -⟩ | ⟨h, -⟩ <;> rw [h] at hs' <;>
      cases hs'
  | leaveAgain oldState =>
    rcases leaveLoop_cases (β := β) dg.dgState with ⟨h, -⟩ | ⟨h, -⟩ <;> rw [h] at hs' <;> cases hs'
  | wakeAddress w r => cases r <;> cases hs'
  | wait timeout =>
    rcases waitLoop_cases (β := β) dg.dgState timeout with ⟨timedOut, h⟩ | ⟨-, h | ⟨-, h⟩⟩ <;>
      rw [h] at hs' <;> cases hs'
  | waitAgain oldState timeout =>
    rcases waitLoop_cases (β := β) dg.dgState timeout with ⟨timedOut, h⟩ | ⟨-, h | ⟨-, h⟩⟩ <;>
      rw [h] at hs' <;> cases hs'
  | waitSlow gen timeout =>
    rcases waitOnAddress_cases gen timeout dg with ⟨h, hg⟩ | h <;> rw [h] at hs' <;> cases hs'
    exact ⟨rfl, hg⟩
  | reload gen timeout rc =>
    rcases dispatchGroupWaitSlow_cases gen timeout rc dg with ⟨timedOut, h⟩ | h <;> rw [h] at hs' <;>
      cases hs'
  | notifyLoad =>
    rcases notifyLoop_cases (β := β) dg.dgState with ⟨h, -⟩ | ⟨h, -⟩ <;> rw [h] at hs' <;> cases hs'
  | notifyAgain oldState =>
    rcases notifyLoop_cases (β := β) dg.dgState with ⟨h, -⟩ | ⟨h, -⟩ <;> rw [h] at hs' <;> cases hs'
  | _ => cases hs'

theorem Waits.turn (h : Waits ⟨dg, front ++ s :: back⟩) (hloaded : Loaded s) (ht : Turn dg s dg' s')
    (hs : s' ≠ .crashed) (hfits : dg'.emptied < 2 ^ 32) : Waits ⟨dg', front ++ s' :: back⟩ := by
  have hgen : (dgStateGen dg.dgState).toNat = dg.emptied := h.gen
  have hgen' : (dgStateGen dg'.dgState).toNat = dg'.emptied := by
    rcases ht.generation hs with ⟨he, hg⟩ | ⟨he, hg, -⟩
    · rw [hg, he, hgen]
    · rw [hg, BitVec.toNat_add, hgen, he]
      exact Nat.mod_eq_of_lt (he ▸ hfits)
  refine ⟨hgen', forall_turn dg dg' h.snapshot (fun h => ht.snapshot h hloaded hgen) fun t h =>
    h.turn hgen' ht hs, ?_⟩
  intro gen timeout ticket hmem
  have hother : .asleep gen timeout ticket ∈ front ++ s :: back → ticket ≤ dg'.wakes ∧
      (ticket = dg'.wakes → dgStateGen dg'.dgState = gen ∨ Roused ⟨dg', front ++ s' :: back⟩) := by
    intro hmem
    have hsnap := h.snapshot _ hmem
    obtain ⟨hle, hwoken⟩ := h.asleep gen timeout ticket hmem
    have hwakes := ht.wakes_le hs
    refine ⟨hle.trans hwakes, fun heq => ?_⟩
    have hsame : dg'.wakes = dg.wakes := Nat.le_antisymm (heq ▸ hle) hwakes
    rcases hwoken (heq.trans hsame) with hg | hr
    · rcases ht.generation hs with ⟨-, hg'⟩ | ⟨-, -, hw, -, hl, -⟩
      · exact Or.inl (hg'.trans hg)
      · have hset := (hsnap.2 hg).2
        refine Or.inr (Or.inr ⟨hw.trans hset, ?_⟩)
        simp only [total_split, hl hset]
        exact Nat.succ_pos _
    · exact Or.inr (hr.turn ht hs hsame)
  rcases List.mem_append.mp hmem with hmem | hmem
  · exact hother (List.mem_append_left _ hmem)
  · rcases List.mem_cons.mp hmem with rfl | hmem
    · obtain ⟨h1, h2⟩ := ht.fallsAsleep
      exact ⟨h1.le, fun _ => Or.inl h2⟩
    · exact hother (List.mem_append_right _ (List.mem_cons_of_mem _ hmem))

theorem Waits.start (h : Waits p) (hs : entry s = true) : Waits ⟨p.shared, p.procs ++ [s]⟩ := by
  have hnew : Snapshot p.shared s ∧ ∀ gen timeout ticket, s ≠ .asleep gen timeout ticket := by
    cases s <;> simp [entry, Snapshot] at hs ⊢
  refine ⟨h.gen, fun t ht => ?_, fun gen timeout ticket hmem => ?_⟩
  · rcases List.mem_append.mp ht with ht | ht
    · exact h.snapshot t ht
    · exact List.mem_singleton.mp ht ▸ hnew.1
  · rcases List.mem_append.mp hmem with hmem | hmem
    · obtain ⟨hle, hwoken⟩ := h.asleep gen timeout ticket hmem
      refine ⟨hle, fun heq => (hwoken heq).imp_right fun hr => ?_⟩
      simp only [Roused, total_concat] at hr ⊢
      rcases hr with hr | ⟨hw, hr⟩
      · exact Or.inl (by omega)
      · exact Or.inr ⟨hw, by omega⟩
    · exact absurd (List.mem_singleton.mp hmem).symm (hnew.2 gen timeout ticket)

end Group

end QYInterview.GCD
