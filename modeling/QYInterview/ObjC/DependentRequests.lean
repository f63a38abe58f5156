import QYInterview.Lib.Runs

/-!
# ObjC.DependentRequests — requests that go on from each other's result

`testGCDGroupDependency` and `testGCDSemaphoreDependency` of `NSOperationController.m`.  Each call starts a
block on a worker that issues four requests one after another; a request is given `self.identifier`, and its
callback on the main queue stores the result there and lets the worker go on.  The group and the semaphore
order the steps of one block, while `identifier` is shared by all blocks of the controller.

A worker runs from one read of `identifier` to the next wait in a step of its own, and a callback is one step:
the main queue is serial, and what it does after the write is seen by its own worker only.  `issued` and
`delivered` record the values of a block's requests and callbacks and are read by no code.
-/

namespace QYInterview.ObjC.DependentRequests

open Runs

/-- `dispatchGroup`, with the number of blocks in it, or `semaphore`, with its value. -/
inductive Sync
  | group (count : ℕ)
  | semaphore (value : ℕ)
  deriving DecidableEq, Repr

/-- Where a worker's block goes on: before its `k`-th request, from 0 on, in the wait behind it, before the
notification or at its end. -/
inductive Position
  | load (k : ℕ)
  | wait (k : ℕ)
  | notify
  | done
  deriving DecidableEq, Repr

/-- A worker's block, with the argument of its request under way. -/
structure Job where
  sync : Sync
  position : Position
  request : Option ℤ
  issued : List ℤ
  delivered : List ℤ
  deriving DecidableEq, Repr

structure Controller where
  identifier : ℤ
  jobs : List Job
  deriving DecidableEq, Repr

/-! ## The code -/

namespace Sync

/-- `dispatch_group_enter`; the block with the semaphore has no such call. -/
def enter : Sync → Sync
  | group count => group (count + 1)
  | semaphore value => semaphore value

/-- `dispatch_group_leave`, `dispatch_semaphore_signal` -/
def leave : Sync → Sync
  | group count => group (count - 1)
  | semaphore value => semaphore (value + 1)

/-- `dispatch_group_wait`, `dispatch_semaphore_wait`; `none` while it blocks. -/
def wait : Sync → Option Sync
  | group 0 => some (group 0)
  | group (_ + 1) => none
  | semaphore 0 => none
  | semaphore (value + 1) => some (semaphore value)

end Sync

/-- `_identifier = 1` -/
def viewDidLoad : Controller := ⟨1, []⟩

def Controller.start (c : Controller) (sync : Sync) : Controller :=
  { c with jobs := c.jobs ++ [⟨sync, .load 0, none, [], []⟩] }

/-- The four requests of a block. -/
def requests : ℕ := 4

/-- The next step of the worker's `job`, while `identifier` has the given value. -/
def Job.work (job : Job) (identifier : ℤ) : Option Job :=
  match job.position with
  | .load k => some { job with
      sync := job.sync.enter, position := .wait k, request := some identifier, issued :=
        job.issued ++ [identifier] }
  | .wait k => job.sync.wait.map fun sync => { job with
      sync := sync, position := if k + 1 < requests then .load (k + 1) else .notify }
  | .notify => some { job with position := .done }
  | .done => none

/-- `block(num + 1)`: what the callback stores, and the job after it. -/
def Job.callBack (job : Job) : Option (ℤ × Job) :=
  job.request.map fun num => (num + 1, { job with
    sync := job.sync.leave, request := none, delivered := job.delivered ++ [num + 1] })

/-- The user starts a block, the worker of the `r`-th block goes on, or the callback of its request runs. -/
inductive Action
  | testGCDGroupDependency
  | testGCDSemaphoreDependency
  | worker (r : ℕ)
  | callBack (r : ℕ)
  deriving DecidableEq, Repr

/-- `none` when the worker waits or is done, or there is no request under way. -/
def step (c : Controller) : Action → Option Controller
  | .testGCDGroupDependency => some (c.start (.group 0))
  | .testGCDSemaphoreDependency => some (c.start (.semaphore 0))
  | .worker r => do
    let job ← c.jobs[r]?
    let job ← job.work c.identifier
    return { c with jobs := c.jobs.set r job }
  | .callBack r => do
    let job ← c.jobs[r]?
    let (string, job) ← job.callBack
    return { c with identifier := string, jobs := c.jobs.set r job }

/-! ## One block -/

/-- Every request after the first has the value that the callback of the one before delivered. -/
def Job.Chained (job : Job) : Prop := ∀ k v, job.issued[k + 1]? = some v → job.delivered[k]? = some v

/-- The value the next request of a block is to go on from: that of its last callback,
before the next request. -/
def Job.due (job : Job) : Option ℤ :=
  if job.request = none ∧ job.issued.length < requests then job.delivered.getLast? else none

namespace Sync

/-- Before a request, during it, and between its callback and the end of the wait. -/
def Idle : Sync → Prop
  | group count => count = 0
  | semaphore value => value = 0

def Busy : Sync → Prop
  | group count => count = 1
  | semaphore value => value = 0

def Open : Sync → Prop
  | group count => count = 0
  | semaphore value => value = 1

variable {sync : Sync}

theorem Idle.enter (h : sync.Idle) : sync.enter.Busy := by
  cases sync with
  | group count => exact congrArg (· + 1) h
  | semaphore value => exact h

theorem Busy.leave (h : sync.Busy) : sync.leave.Open := by
  cases sync with
  | group count => exact congrArg (· - 1) h
  | semaphore value => exact congrArg (· + 1) h

theorem Open.wait (h : sync.Open) : ∃ sync', sync.wait = some sync' ∧ sync'.Idle := by
  cases sync with
  | group count =>
    obtain rfl : count = 0 := h
    exact ⟨group 0, rfl, rfl⟩
  | semaphore value =>
    obtain rfl : value = 1 := h
    exact ⟨semaphore 0, rfl, rfl⟩

theorem Busy.wait (h : sync.Busy) : sync.wait = none := by
  cases sync with
  | group count =>
    obtain rfl : count = 1 := h
    rfl
  | semaphore value =>
    obtain rfl : value = 0 := h
    rfl

end Sync

/-- The states a block goes through. -/
inductive Stage (job : Job) : Prop
  | ready (k : ℕ) (hk : k < requests) (position : job.position = .load k) (sync : job.sync.Idle)
    (request : job.request = none) (issued : job.issued.length = k) (delivered : job.delivered.length = k)
  | flying (k : ℕ) (num : ℤ) (hk : k < requests) (position : job.position = .wait k) (sync : job.sync.Busy)
    (request : job.request = some num) (issued : job.issued.length = k + 1)
      (delivered : job.delivered.length = k)
  | back (k : ℕ) (hk : k < requests) (position : job.position = .wait k) (sync : job.sync.Open)
    (request : job.request = none) (issued : job.issued.length = k + 1)
      (delivered : job.delivered.length = k + 1)
  | ended (position : job.position = .notify ∨ job.position = .done) (request : job.request = none)
    (issued : job.issued.length = requests) (delivered : job.delivered.length = requests)

section Job

variable {job job' : Job} {identifier string v : ℤ}

/-- A step of the worker issues a request with the value of `identifier` or leaves
the requests as they are. -/
theorem Stage.work (h : Stage job) (hwork : job.work identifier = some job') :
    Stage job' ∧ job'.delivered = job.delivered ∧
      (job'.issued = job.issued ∧ job'.request = job.request ∨
        job.request = none ∧ job'.issued = job.issued ++ [identifier] ∧ job'.request = some identifier ∧
          job.delivered.length = job.issued.length ∧ job.issued.length < requests) := by
  cases h with
  | ready k hk position sync request issued delivered =>
    rw [Job.work, position] at hwork
    obtain rfl := Option.some.inj hwork
    refine ⟨.flying k identifier hk rfl sync.enter rfl ?_ delivered, rfl, Or.inr ⟨request, rfl, rfl, ?_, ?_⟩⟩
    · rw [List.length_append, issued, List.length_singleton]
    · rw [delivered, issued]
    · rwa [issued]
  | flying k num hk position sync request issued delivered =>
    rw [Job.work, position] at hwork
    simp only [sync.wait, Option.map_none] at hwork
    cases hwork
  | back k hk position sync request issued delivered =>
    obtain ⟨sync', hwait, hidle⟩ := sync.wait
    rw [Job.work, position] at hwork
    simp only [hwait, Option.map_some] at hwork
    obtain rfl := Option.some.inj hwork
    refine ⟨?_, rfl, Or.inl ⟨rfl, rfl⟩⟩
    by_cases hlast : k + 1 < requests
    · exact .ready (k + 1) hlast (if_pos hlast) hidle request issued delivered
    · have hk' : k + 1 = requests := by omega
      exact .ended (Or.inl (if_neg hlast)) request (issued.trans hk') (delivered.trans hk')
  | ended position request issued delivered =>
    rcases position with position | position
    · rw [Job.work, position] at hwork
      obtain rfl := Option.some.inj hwork
      exact ⟨.ended (Or.inr rfl) request issued delivered, rfl, Or.inl ⟨rfl, rfl⟩⟩
    · rw [Job.work, position] at hwork
      cases hwork

theorem Stage.callBack (h : Stage job) (hcall : job.callBack = some (string, job')) :
    Stage job' ∧ job'.issued = job.issued ∧ job'.delivered = job.delivered ++ [string] := by
  obtain ⟨num, hnum, hpair⟩ := Option.map_eq_some_iff.mp hcall
  obtain ⟨rfl, rfl⟩ := Prod.mk.inj hpair
  refine ⟨?_, rfl, rfl⟩
  cases h with
  | ready k hk position sync request => rw [request] at hnum; cases hnum
  | flying k num' hk position sync request issued delivered =>
    refine .back k hk position sync.leave rfl issued ?_
    rw [List.length_append, delivered, List.length_singleton]
  | back k hk position sync request => rw [request] at hnum; cases hnum
  | ended position request => rw [request] at hnum; cases hnum

/-- A block that goes on from the value it is due keeps its requests chained and is due nothing new. -/
theorem Job.Chained.work (h : job.Chained) (hstage : Stage job)
    (hdue : ∀ v, job.due = some v → identifier = v) (hwork : job.work identifier = some job') :
    job'.Chained ∧ ∀ v, job'.due = some v → identifier = v := by
  obtain ⟨-, hdelivered, ⟨hissued, hrequest⟩ | ⟨hnone, hissued, hrequest, hlen, hlt⟩⟩ := hstage.work hwork
  · unfold Job.Chained Job.due
    rw [hissued, hrequest, hdelivered]
    exact ⟨h, hdue⟩
  · refine ⟨fun k v hv => ?_, fun v hv => ?_⟩
    · rw [hissued, List.getElem?_append] at hv
      rw [hdelivered]
      split_ifs at hv with hk
      · exact h k v hv
      · have hk' : k + 1 = job.issued.length := by
          have := (List.getElem?_eq_some_iff.mp hv).1
          rw [List.length_singleton] at this
          omega
        rw [hk', Nat.sub_self] at hv
        obtain rfl := Option.some.inj hv
        have hlast : job.due = job.delivered[k]? := by
          rw [Job.due, if_pos ⟨hnone, hlt⟩, List.getLast?_eq_getElem?, hlen, ← hk', Nat.add_sub_cancel]
        obtain ⟨d, hd⟩ : ∃ d, job.delivered[k]? = some d := ⟨_, List.getElem?_eq_getElem (by omega)⟩
        rw [hd, hdue d (hlast.trans hd)]
    · rw [Job.due, hrequest] at hv
      simp at hv

/-- A callback leaves its block chained and due what it delivered. -/
theorem Job.Chained.callBack (h : job.Chained) (hstage : Stage job)
    (hcall : job.callBack = some (string, job')) :
    job'.Chained ∧ ∀ v, job'.due = some v → string = v := by
  obtain ⟨-, hissued, hdelivered⟩ := hstage.callBack hcall
  refine ⟨fun k v hv => ?_, fun v hv => ?_⟩
  · rw [hissued] at hv
    have hk := h k v hv
    rw [hdelivered, List.getElem?_append_left (List.getElem?_eq_some_iff.mp hk).1]
    exact hk
  · unfold Job.due at hv
    split_ifs at hv with hcond
    rw [hdelivered, List.getLast?_append] at hv
    simpa using hv

/-- A block that is due a value has the last callback's in the place its next request is compared with. -/
theorem Stage.getElem?_of_due (h : Stage job) (hdue : job.due = some v) :
    ∃ k, k + 1 = job.issued.length ∧ job.delivered[k]? = some v := by
  unfold Job.due at hdue
  split_ifs at hdue with hcond
  have hlen : job.delivered.length = job.issued.length := by
    cases h with
    | ready k _ _ _ _ issued delivered => rw [issued, delivered]
    | flying k num _ _ _ request => rw [request] at hcond; cases hcond.1
    | back k _ _ _ _ issued delivered => rw [issued, delivered]
    | ended _ _ issued delivered => rw [issued, delivered]
  rw [List.getLast?_eq_getElem?] at hdue
  have hlt := (List.getElem?_eq_some_iff.mp hdue).1
  exact ⟨job.delivered.length - 1, by omega, hdue⟩

/-- A block that issues a request with another value than it is due is not chained. -/
theorem Stage.not_chained (h : Stage job) (hdue : job.due = some v)
    (hissued : job'.issued = job.issued ++ [string]) (hdelivered : job'.delivered = job.delivered)
    (hne : string ≠ v) : ¬ job'.Chained := by
  obtain ⟨k, hk, hv⟩ := h.getElem?_of_due hdue
  intro hchained
  have hnext := hchained k string (by rw [hissued, hk, List.getElem?_concat_length])
  rw [hdelivered, hv] at hnext
  exact hne (Option.some.inj hnext).symm

end Job

/-! ## The controller -/

/-- The blocks of a controller go through the stages. -/
def Staged (c : Controller) : Prop := ∀ (r : ℕ) (job : Job), c.jobs[r]? = some job → Stage job

/-- In every block every request after the first goes on from its own predecessor's result. -/
def Chained (c : Controller) : Prop := ∀ (r : ℕ) (job : Job), c.jobs[r]? = some job → job.Chained

/-- A block that is due a value would read it now. -/
def Current (c : Controller) : Prop :=
  ∀ (r : ℕ) (job : Job), c.jobs[r]? = some job → ∀ v, job.due = some v → c.identifier = v

/-- A callback comes when every other block that is between a callback and its next request was delivered the
same value. -/
def Undisturbed (c : Controller) (act : Action) : Prop :=
  ∀ r job string job', act = .callBack r → c.jobs[r]? = some job → job.callBack = some (string, job') →
    ∀ (q : ℕ) (other : Job), q ≠ r → c.jobs[q]? = some other → ∀ v, other.due = some v → string = v

section Step

variable {c c' : Controller} {act : Action}

/-- What a step can do. -/
theorem step_cases (h : step c act = some c') :
    (∃ sync, sync.Idle ∧ (act = .testGCDGroupDependency ∨ act = .testGCDSemaphoreDependency) ∧
      c' = c.start sync) ∨
    (∃ r job job', act = .worker r ∧ c.jobs[r]? = some job ∧ job.work c.identifier = some job' ∧
      c' = { c with jobs := c.jobs.set r job' }) ∨
    ∃ r job string job', act = .callBack r ∧ c.jobs[r]? = some job ∧ job.callBack = some (string, job') ∧
      c' = { c with identifier := string, jobs := c.jobs.set r job' } := by
  cases act with
  | testGCDGroupDependency => exact Or.inl ⟨.group 0, rfl, Or.inl rfl, (Option.some.inj h).symm⟩
  | testGCDSemaphoreDependency => exact Or.inl ⟨.semaphore 0, rfl, Or.inr rfl, (Option.some.inj h).symm⟩
  | worker r =>
    obtain ⟨job, hjob, h⟩ := Option.bind_eq_some_iff.mp h
    obtain ⟨job', hwork, h⟩ := Option.bind_eq_some_iff.mp h
    exact Or.inr (Or.inl ⟨r, job, job', rfl, hjob, hwork, (Option.some.inj h).symm⟩)
  | callBack r =>
    obtain ⟨job, hjob, h⟩ := Option.bind_eq_some_iff.mp h
    obtain ⟨⟨string, job'⟩, hcall, h⟩ := Option.bind_eq_some_iff.mp h
    exact Or.inr (Or.inr ⟨r, job, string, job', rfl, hjob, hcall, (Option.some.inj h).symm⟩)

/-- A property of all blocks, after one of them has changed. -/
theorem forall_set {P : Job → Prop} {jobs : List Job} {r : ℕ} {job' : Job} (hr : P job')
    (hother : ∀ (q : ℕ) (other : Job), q ≠ r → jobs[q]? = some other → P other) (q : ℕ) (other : Job)
    (h : (jobs.set r job')[q]? = some other) : P other := by
  by_cases hq : q = r
  · subst hq
    obtain ⟨_, heq⟩ := List.getElem?_eq_some_iff.mp h
    rw [List.getElem_set_self] at heq
    exact heq ▸ hr
  · rw [List.getElem?_set_ne (Ne.symm hq)] at h
    exact hother q other hq h

/-- A property of all blocks, after one more has started. -/
theorem forall_start {P : Job → Prop} {sync : Sync} (hnew : P ⟨sync, .load 0, none, [], []⟩)
    (hold : ∀ (q : ℕ) (other : Job), c.jobs[q]? = some other → P other) (q : ℕ) (other : Job)
    (h : (c.start sync).jobs[q]? = some other) : P other := by
  rcases List.mem_append.mp (List.mem_of_getElem? h) with hmem | hmem
  · obtain ⟨r, hr⟩ := List.mem_iff_getElem?.mp hmem
    exact hold r other hr
  · exact List.mem_singleton.mp hmem ▸ hnew

theorem Staged.step (h : Staged c) (hstep : step c act = some c') : Staged c' := by
  rcases step_cases hstep with ⟨sync, hidle, -, rfl⟩ | ⟨r, job, job', rfl, hjob, hwork, rfl⟩ |
    ⟨r, job, string, job', rfl, hjob, hcall, rfl⟩
  · exact forall_start (.ready 0 (by decide) rfl hidle rfl rfl rfl) h
  · exact forall_set ((h r job hjob).work hwork).1 fun q other _ => h q other
  · exact forall_set ((h r job hjob).callBack hcall).1 fun q other _ => h q other

/-- An undisturbed step keeps the requests chained and `identifier` current. -/
theorem Chained.step (h : Chained c) (hcur : Current c) (hstage : Staged c) (hquiet : Undisturbed c act)
    (hstep : step c act = some c') : Chained c' ∧ Current c' := by
  rcases step_cases hstep with ⟨sync, hidle, -, rfl⟩ | ⟨r, job, job', rfl, hjob, hwork, rfl⟩ |
    ⟨r, job, string, job', rfl, hjob, hcall, rfl⟩
  · refine ⟨forall_start (fun k v hv => ?_) h, forall_start (fun v hv => ?_) hcur⟩
    · simp at hv
    · simp [Job.due] at hv
  · obtain ⟨hchained, hdue⟩ := (h r job hjob).work (hstage r job hjob) (hcur r job hjob) hwork
    exact ⟨forall_set hchained fun q other _ => h q other, forall_set hdue fun q other _ => hcur q other⟩
  · obtain ⟨hchained, hdue⟩ := (h r job hjob).callBack (hstage r job hjob) hcall
    exact ⟨forall_set hchained fun q other _ => h q other,
      forall_set hdue fun q other hq hother => hquiet r job string job' rfl hjob hcall q other hq hother⟩

theorem step_worker {q : ℕ} {job job' : Job} (hjob : c.jobs[q]? = some job)
    (hwork : job.work c.identifier = some job') :
    step c (.worker q) = some { c with jobs := c.jobs.set q job' } ∧ (c.jobs.set q job')[q]? = some job' := by
  refine ⟨?_, List.getElem?_set_self (List.getElem?_eq_some_iff.mp hjob).1⟩
  simp only [step, hjob, hwork, Option.bind_eq_bind, Option.bind_some]
  rfl

/-- A block that is due a value goes on within two steps, with what `identifier` is by then. -/
theorem exists_issue (hstage : Staged c) {q : ℕ} {job : Job} (hjob : c.jobs[q]? = some job) {v : ℤ}
    (hdue : job.due = some v) : ∃ more c' job', run step more c = some c' ∧ c'.jobs[q]? = some job' ∧
      job'.issued = job.issued ++ [c.identifier] ∧ job'.delivered = job.delivered := by
  unfold Job.due at hdue
  split_ifs at hdue with hcond
  cases hstage q job hjob with
  | ready k hk position sync request issued delivered =>
    obtain ⟨hstep, hget⟩ := step_worker hjob (by rw [Job.work, position])
    exact ⟨[.worker q], _, _, (run_singleton c).trans hstep, hget, rfl, rfl⟩
  | flying k num hk position sync request issued delivered =>
    rw [request] at hcond
    cases hcond.1
  | back k hk position sync request issued delivered =>
    obtain ⟨sync', hwait, hidle⟩ := sync.wait
    have hlast : k + 1 < requests := issued ▸ hcond.2
    set job₁ : Job := { job with sync := sync', position := .load (k + 1) }
    have hwork : job.work c.identifier = some job₁ := by
      rw [Job.work, position]
      simp only [hwait, Option.map_some, if_pos hlast]
      rfl
    obtain ⟨hstep, hget⟩ := step_worker hjob hwork
    set c₁ : Controller := { c with jobs := c.jobs.set q job₁ }
    have hwork' : job₁.work c₁.identifier = some { job₁ with
        sync := sync'.enter, position := .wait (k + 1), request := some c.identifier,
        issued := job.issued ++ [c.identifier] } := rfl
    obtain ⟨hstep', hget'⟩ := step_worker (c := c₁) hget hwork'
    have hrun : run step ([.worker q] ++ [.worker q]) c = step c₁ (.worker q) :=
      run_concat ((run_singleton c).trans hstep)
    exact ⟨[.worker q, .worker q], _, _, hrun.trans hstep', hget', rfl, rfl⟩
  | ended position request issued delivered =>
    rw [issued] at hcond
    exact absurd hcond.2 (lt_irrefl _)

end Step

/-! ## Runs -/

section Run

variable {acts : List Action} {c c' : Controller} {act : Action}

theorem forall_viewDidLoad {P : Job → Prop} (r : ℕ) (job : Job) (h : viewDidLoad.jobs[r]? = some job) :
    P job := by
  cases h

theorem staged_of_run (hrun : run step acts viewDidLoad = some c) : Staged c :=
  (always_of_step (P := Staged) (G := fun _ _ => True) forall_viewDidLoad
    (fun _ _ _ h _ hstep => h.step hstep) fun _ _ _ _ _ _ => trivial).last hrun

/-- An undisturbed run keeps the requests chained. -/
theorem run_chained (h : EveryStep step Undisturbed acts viewDidLoad) :
    Always step Chained acts viewDidLoad := by
  have hall : Always step (fun c => Staged c ∧ Chained c ∧ Current c) acts viewDidLoad :=
    always_of_step ⟨forall_viewDidLoad, forall_viewDidLoad, forall_viewDidLoad⟩
      (fun _ _ _ hc hquiet hstep => ⟨hc.1.step hstep, hc.2.1.step hc.2.2 hc.1 hquiet hstep⟩) h
  exact hall.mono fun c hc => hc.2.1

/-- After a disturbing callback the disturbed block issues a request with the other block's value. -/
theorem exists_unchained (hstage : Staged c) (hstep : step c act = some c') (hact : ¬ Undisturbed c act) :
    ∃ more c'', run step more c' = some c'' ∧ ¬ Chained c'' := by
  simp only [Undisturbed, not_forall] at hact
  obtain ⟨r, job, string, job', rfl, hjob, hcall, q, other, hq, hother, v, hdue, hne⟩ := hact
  have hc' : c' = { c with identifier := string, jobs := c.jobs.set r job' } := by
    simp only [step, hjob, hcall, Option.bind_eq_bind, Option.bind_some] at hstep
    exact (Option.some.inj hstep).symm
  have hother' : c'.jobs[q]? = some other := by
    rw [hc']
    exact (List.getElem?_set_ne (Ne.symm hq)).trans hother
  obtain ⟨more, c'', job'', hrun, hget, hissued, hdelivered⟩ := exists_issue (hstage.step hstep) hother' hdue
  rw [hc'] at hissued
  exact ⟨more, c'', hrun, fun hc =>
    (hstage q other hother).not_chained hdue hissued hdelivered hne (hc q job'' hget)⟩

/-- A block that has issued its last request and got the result. -/
def Job.Ended (job : Job) : Prop := job.request = none ∧ job.issued.length = requests

/-- All blocks have ended. -/
def AllEnded (c : Controller) : Prop := ∀ (r : ℕ) (job : Job), c.jobs[r]? = some job → job.Ended

/-- Of two blocks one has ended. -/
def OneOpen (c : Controller) : Prop :=
  ∀ (q r : ℕ) (other job : Job), q ≠ r → c.jobs[q]? = some other → c.jobs[r]? = some job →
    other.Ended ∨ job.Ended

/-- A block is started when all others have ended. -/
def Sequential (c : Controller) (act : Action) : Prop :=
  act = .testGCDGroupDependency ∨ act = .testGCDSemaphoreDependency → AllEnded c

theorem AllEnded.start (h : AllEnded c) (sync : Sync) : OneOpen (c.start sync) := by
  intro q r other job hne hother hjob
  have hold : ∀ (i : ℕ) (job : Job), i ≠ c.jobs.length → (c.start sync).jobs[i]? = some job → job.Ended := by
    intro i job hi hjob
    have hlen : i < c.jobs.length + 1 := by
      simpa [Controller.start] using (List.getElem?_eq_some_iff.mp hjob).1
    exact h i job ((List.getElem?_append_left (by omega)).symm.trans hjob)
  by_cases hq : q = c.jobs.length
  · exact Or.inr (hold r job (by omega) hjob)
  · exact Or.inl (hold q other hq hother)

theorem OneOpen.set {r : ℕ} {job job' : Job} (h : OneOpen c) (hjob : c.jobs[r]? = some job)
    (hended : job.Ended → job'.Ended) (identifier : ℤ) : OneOpen ⟨identifier, c.jobs.set r job'⟩ := by
  have hback : ∀ (q : ℕ) (other' : Job), (c.jobs.set r job')[q]? = some other' →
      ∃ other, c.jobs[q]? = some other ∧ (other.Ended → other'.Ended) := by
    intro q other' hq
    by_cases hqr : q = r
    · subst hqr
      rw [List.getElem?_set_self (List.getElem?_eq_some_iff.mp hjob).1] at hq
      exact ⟨job, hjob, fun he => Option.some.inj hq ▸ hended he⟩
    · rw [List.getElem?_set_ne (Ne.symm hqr)] at hq
      exact ⟨other', hq, id⟩
  intro q₁ q₂ job₁ job₂ hne h₁ h₂
  obtain ⟨old₁, hold₁, himp₁⟩ := hback q₁ job₁ h₁
  obtain ⟨old₂, hold₂, himp₂⟩ := hback q₂ job₂ h₂
  exact (h q₁ q₂ old₁ old₂ hne hold₁ hold₂).imp himp₁ himp₂

theorem OneOpen.step (h : OneOpen c) (hstage : Staged c) (hseq : Sequential c act)
    (hstep : step c act = some c') :
    OneOpen c' := by
  rcases step_cases hstep with ⟨sync, -, hact, rfl⟩ | ⟨r, job, job', rfl, hjob, hwork, rfl⟩ |
    ⟨r, job, string, job', rfl, hjob, hcall, rfl⟩
  · exact (hseq hact).start sync
  · refine h.set hjob (fun hended => ?_) c.identifier
    obtain ⟨-, -, ⟨hissued, hrequest⟩ | ⟨-, -, -, -, hlt⟩⟩ := (hstage r job hjob).work hwork
    · exact ⟨hrequest.trans hended.1, hissued ▸ hended.2⟩
    · exact absurd hended.2 hlt.ne
  · refine h.set hjob (fun hended => ?_) string
    obtain ⟨num, hnum, -⟩ := Option.map_eq_some_iff.mp hcall
    exact absurd (hended.1.symm.trans hnum) (by simp)

/-- An open block that is alone is not disturbed, nor does it disturb. -/
theorem OneOpen.undisturbed (h : OneOpen c) (act : Action) : Undisturbed c act := by
  rintro r job string job' rfl hjob hcall q other hq hother v hdue
  rcases h q r other job hq hother hjob with hended | hended
  · rw [Job.due, if_neg fun hcond => hcond.2.ne hended.2] at hdue
    cases hdue
  · obtain ⟨num, hnum, -⟩ := Option.map_eq_some_iff.mp hcall
    exact absurd (hended.1.symm.trans hnum) (by simp)

/-- When blocks are started one after another, none is disturbed. -/
theorem everyStep_undisturbed (h : EveryStep step Sequential acts viewDidLoad) :
    EveryStep step Undisturbed acts viewDidLoad := by
  have hall : Always step (fun c => Staged c ∧ OneOpen c) acts viewDidLoad :=
    always_of_step ⟨forall_viewDidLoad, fun q r other job _ hother _ => by cases hother⟩
      (fun _ _ _ hc hseq hstep => ⟨hc.1.step hstep, hc.2.step hc.1 hseq hstep⟩) h
  exact fun front act back c heq hrun => (hall front (act :: back) c heq hrun).2.undisturbed act

/-- Blocks started one after another keep their requests chained. -/
theorem chained_of_sequential (h : EveryStep step Sequential acts viewDidLoad) :
    Always step Chained acts viewDidLoad :=
  run_chained (everyStep_undisturbed h)

/-- In a run whose callbacks disturb no other block, every request after the first of a block goes on from
its own predecessor's result; and every other callback of any run can be followed by
a request that does not. -/
theorem chained_spec (acts : List Action) :
    (EveryStep step Undisturbed acts viewDidLoad → Always step Chained acts viewDidLoad) ∧
      ∀ c act c', run step acts viewDidLoad = some c → step c act = some c' → ¬ Undisturbed c act →
        ∃ more c'', run step more c' = some c'' ∧ ¬ Chained c'' :=
  ⟨run_chained, fun _ _ _ hrun hstep hact => exists_unchained (staged_of_run hrun) hstep hact⟩

theorem undisturbed_callBack {r : ℕ} (h : ∀ q < c.jobs.length, q ≠ r → ∀ v ∈ c.jobs[q]?.bind Job.due,
    (c.jobs[r]?.bind Job.callBack).map Prod.fst = some v) : Undisturbed c (.callBack r) := by
  intro r' job string job' hact hjob hcall q other hq hother v hdue
  obtain rfl : r = r' := Action.callBack.inj hact
  have hv := h q (List.getElem?_eq_some_iff.mp hother).1 hq v (by rw [hother]; exact hdue)
  rw [hjob, Option.bind_some, hcall, Option.map_some] at hv
  exact Option.some.inj hv

/-- Two blocks at the same time: the second callback comes when the first block is due what that callback
delivers too, and both go on with it. -/
theorem chained_spec_two :
    Always step Chained [.testGCDGroupDependency, .testGCDSemaphoreDependency, .worker 0,
    .worker 1, .callBack 0, .callBack 1, .worker 0, .worker 0, .worker 1, .worker 1] viewDidLoad := by
  refine (chained_spec _).1 ?_
  have hquiet : ∀ c act, (∀ r, act ≠ .callBack r) → Undisturbed c act :=
    fun _ _ hact r _ _ _ heq => absurd heq (hact r)
  have h0 : EveryStep step Undisturbed [] viewDidLoad := fun front act back c heq => by simp at heq
  have h1 := (everyStep_concat rfl).mpr ⟨h0, hquiet _ .testGCDGroupDependency (by simp)⟩
  have h2 := (everyStep_concat rfl).mpr ⟨h1, hquiet _ .testGCDSemaphoreDependency (by simp)⟩
  have h3 := (everyStep_concat rfl).mpr ⟨h2, hquiet _ (.worker 0) (by simp)⟩
  have h4 := (everyStep_concat rfl).mpr ⟨h3, hquiet _ (.worker 1) (by simp)⟩
  have h5 := (everyStep_concat rfl).mpr ⟨h4, undisturbed_callBack (r := 0) (by decide)⟩
  have h6 := (everyStep_concat rfl).mpr ⟨h5, undisturbed_callBack (r := 1) (by decide)⟩
  have h7 := (everyStep_concat rfl).mpr ⟨h6, hquiet _ (.worker 0) (by simp)⟩
  have h8 := (everyStep_concat rfl).mpr ⟨h7, hquiet _ (.worker 0) (by simp)⟩
  have h9 := (everyStep_concat rfl).mpr ⟨h8, hquiet _ (.worker 1) (by simp)⟩
  exact (everyStep_concat rfl).mpr ⟨h9, hquiet _ (.worker 1) (by simp)⟩

/-- Two blocks at the same time: the first one is delivered 3, and its third request is issued with the 2
that the other one was delivered after that. -/
theorem not_chained_two :
    ∃ c, run step [.testGCDGroupDependency, .testGCDSemaphoreDependency, .worker 0, .worker 1,
      .callBack 0, .worker 0, .worker 0, .callBack 0, .callBack 1, .worker 0, .worker 0] viewDidLoad =
        some c ∧
    (c.jobs.map Job.issued, c.jobs.map Job.delivered) = ([[1, 2, 2], [1]], [[2, 3], [2]]) ∧ ¬ Chained c := by
  refine ⟨_, rfl, rfl, ?_⟩
  intro h
  have hnext := h 0 _ rfl 1 2 rfl
  revert hnext
  decide

end Run

end QYInterview.ObjC.DependentRequests
