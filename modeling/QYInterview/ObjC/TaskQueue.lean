import QYInterview.Lib.DropOldest
import QYInterview.Lib.Runs

/-!
# ObjC.TaskQueue — the run-loop task queue of the large-image demo

`addTask:` and `TaskCallBack` of its `ViewController.m`.  A task is the object that `addTask:` puts into the
queue, with the number of tasks added before it, so that a block added twice is two tasks.  What a block does
when it runs is a parameter: it changes the `world` and makes some calls of `addTask:`.  `history` records
what happens to the tasks and is read by no code.

A callback runs the first task while it is still in the queue and then removes the task at index 0.  This is
the task it has run as long as the queue has room for what the task adds (`HasRoom`); otherwise it is another
one, which is never run.
-/

namespace QYInterview.ObjC.TaskQueue

open DropOldest Runs

/-- A block in the queue. -/
structure Task (β : Type) where
  serial : ℕ
  block : β
  deriving DecidableEq, Repr

/-- The tasks added, run by a callback, dropped by `addTask:` and removed by a callback, each in order. -/
structure History (β : Type) where
  added : List (Task β)
  executed : List (Task β)
  evicted : List (Task β)
  removed : List (Task β)
  deriving DecidableEq, Repr

structure ViewController (β ω : Type) where
  tasks : List (Task β)
  maxQueueLength : ℕ
  world : ω
  history : History β
  deriving DecidableEq, Repr

variable {β ω : Type}

/-! ## The code -/

/-- `removeObjectAtIndex:`, with the object; raises when there is none. -/
def removeObjectAtIndex {α : Type} (xs : List α) (i : ℕ) : Option (α × List α) :=
  match xs[i]? with
  | some a => some (a, xs.eraseIdx i)
  | none => none

/-- The view controller before anything is added. -/
def viewDidLoad (maxQueueLength : ℕ) (world : ω) : ViewController β ω :=
  ⟨[], maxQueueLength, world, ⟨[], [], [], []⟩⟩

/-- The task for a block that is added now. -/
def ViewController.newTask (vc : ViewController β ω) (block : β) : Task β := ⟨vc.history.added.length, block⟩

/-- `addTask:` -/
def addTask (vc : ViewController β ω) (block : β) : Option (ViewController β ω) := do
  let task := vc.newTask block
  let vc := { vc with tasks := vc.tasks ++ [task], history.added := vc.history.added ++ [task] }
  if vc.tasks.length > vc.maxQueueLength then
    let (oldest, tasks) ← removeObjectAtIndex vc.tasks 0
    return { vc with tasks := tasks, history.evicted := vc.history.evicted ++ [oldest] }
  else return vc

/-- `task()`: the block changes the world and calls `addTask:` for some blocks. -/
def perform (body : β → ω → ω × List β) (vc : ViewController β ω) (task : Task β) :
    Option (ViewController β ω) :=
  let (world, blocks) := body task.block vc.world
  blocks.foldlM addTask { vc with world := world, history.executed := vc.history.executed ++ [task] }

/-- `TaskCallBack` -/
def taskCallBack (body : β → ω → ω × List β) (vc : ViewController β ω) : Option (ViewController β ω) :=
  match vc.tasks.head? with
  | none => some vc
  | some task => do
    let vc ← perform body vc task
    let (first, tasks) ← removeObjectAtIndex vc.tasks 0
    return { vc with tasks := tasks, history.removed := vc.history.removed ++ [first] }

/-- A call of `addTask:` from outside, or a callback of the observer. -/
inductive Action (β : Type)
  | addTask (block : β)
  | callBack
  deriving DecidableEq, Repr

def step (body : β → ω → ω × List β) (vc : ViewController β ω) : Action β → Option (ViewController β ω)
  | .addTask block => addTask vc block
  | .callBack => taskCallBack body vc

/-! ## What the operations do -/

namespace ViewController

/-- After `addTask:`. -/
def pushed (vc : ViewController β ω) (block : β) : ViewController β ω :=
  { vc with
    tasks := push vc.maxQueueLength vc.tasks (vc.newTask block)
    history.added := vc.history.added ++ [vc.newTask block]
    history.evicted := vc.history.evicted ++ dropped vc.maxQueueLength vc.tasks (vc.newTask block) }

/-- After running `task`, with the world it leaves, and before it is removed. -/
def ran (vc : ViewController β ω) (task : Task β) (world : ω) : ViewController β ω :=
  { vc with world := world, history.executed := vc.history.executed ++ [task] }

/-- After removing the first task, with `tasks` behind it. -/
def unqueued (vc : ViewController β ω) (first : Task β) (tasks : List (Task β)) : ViewController β ω :=
  { vc with tasks := tasks, history.removed := vc.history.removed ++ [first] }

end ViewController

/-- The tasks for blocks that are added one after another. -/
def newTasks (n : ℕ) : List β → List (Task β)
  | [] => []
  | b :: bs => ⟨n, b⟩ :: newTasks (n + 1) bs

variable {vc vc' : ViewController β ω} {task first : Task β} {tasks : List (Task β)}

theorem removeObjectAtIndex_cons {α : Type} (x : α) (xs : List α) :
    removeObjectAtIndex (x :: xs) 0 = some (x, xs) := rfl

theorem addTask_eq (vc : ViewController β ω) (block : β) : addTask vc block = some (vc.pushed block) := by
  obtain ⟨oldest, rest, hq⟩ := List.exists_cons_of_ne_nil
    (List.append_ne_nil_of_right_ne_nil vc.tasks (List.cons_ne_nil (vc.newTask block) []))
  unfold addTask ViewController.pushed push dropped
  by_cases hfull : vc.maxQueueLength < (vc.tasks ++ [vc.newTask block]).length
  · simp only [gt_iff_lt, if_pos hfull]
    rw [hq, removeObjectAtIndex_cons]
    rfl
  · simp only [gt_iff_lt, if_neg hfull, List.append_nil]
    rfl

theorem addTasks_eq (blocks : List β) (vc : ViewController β ω) :
    blocks.foldlM addTask vc = some (blocks.foldl ViewController.pushed vc) := by
  induction blocks generalizing vc with
  | nil => rfl
  | cons b blocks ih =>
    rw [List.foldlM_cons, addTask_eq, List.foldl_cons, ← ih]
    rfl

/-- What all the calls of `addTask:` leave of the queue. -/
theorem tasks_addTasks (blocks : List β) (vc : ViewController β ω) :
    (blocks.foldl ViewController.pushed vc).tasks =
      pushAll vc.maxQueueLength vc.tasks (newTasks vc.history.added.length blocks) := by
  induction blocks generalizing vc with
  | nil => rfl
  | cons b blocks ih =>
    rw [List.foldl_cons, ih]
    simp [ViewController.pushed, newTasks, pushAll, ViewController.newTask]

theorem history_addTasks (blocks : List β) (vc : ViewController β ω) :
    (blocks.foldl ViewController.pushed vc).history.executed = vc.history.executed ∧
      (blocks.foldl ViewController.pushed vc).history.removed = vc.history.removed := by
  induction blocks generalizing vc with
  | nil => exact ⟨rfl, rfl⟩
  | cons b blocks ih => exact ih (vc.pushed b)

theorem max_addTasks (blocks : List β) (vc : ViewController β ω) :
    (blocks.foldl ViewController.pushed vc).maxQueueLength = vc.maxQueueLength := by
  induction blocks generalizing vc with
  | nil => rfl
  | cons b blocks ih => exact ih (vc.pushed b)

/-- Adding tasks has nothing to do with what runs. -/
theorem addTasks_ran (blocks : List β) (vc : ViewController β ω) (task : Task β) (world : ω) :
    blocks.foldl ViewController.pushed (vc.ran task world) =
      (blocks.foldl ViewController.pushed vc).ran task world := by
  induction blocks generalizing vc with
  | nil => rfl
  | cons b blocks ih => rw [List.foldl_cons, List.foldl_cons, ← ih]; rfl

theorem perform_eq (body : β → ω → ω × List β) (vc : ViewController β ω) (task : Task β) :
    perform body vc task = some (((body task.block vc.world).2.foldl ViewController.pushed vc).ran task
      (body task.block vc.world).1) := by
  rw [← addTasks_ran, ← addTasks_eq]
  rfl

/-- A callback on a queue with a first task. -/
theorem taskCallBack_eq (body : β → ω → ω × List β) {vc : ViewController β ω} {task first : Task β}
    {behind tasks : List (Task β)} (htasks : vc.tasks = task :: behind)
    (hadded : ((body task.block vc.world).2.foldl ViewController.pushed vc).tasks = first :: tasks) :
    taskCallBack body vc = some ((((body task.block vc.world).2.foldl ViewController.pushed vc).ran task
      (body task.block vc.world).1).unqueued first tasks) := by
  have hran : ∀ (vc : ViewController β ω) (task : Task β) (world : ω), (vc.ran task world).tasks = vc.tasks :=
    fun _ _ _ => rfl
  unfold taskCallBack
  rw [htasks, List.head?_cons]
  dsimp only
  rw [perform_eq]
  simp only [Option.bind_eq_bind, Option.bind_some, hran, hadded, removeObjectAtIndex_cons]
  rfl

theorem taskCallBack_nil (body : β → ω → ω × List β) {vc : ViewController β ω} (htasks : vc.tasks = []) :
    taskCallBack body vc = some vc := by
  unfold taskCallBack
  rw [htasks]
  rfl

/-! ## The queue in any run -/

section Queued

/-- The queue is within its bound and holds the latest tasks, numbered in the order they were added. -/
structure Queued (vc : ViewController β ω) : Prop where
  count : vc.tasks.length ≤ vc.maxQueueLength
  suffix : vc.tasks <:+ vc.history.added
  serials : vc.history.added.map Task.serial = List.range vc.history.added.length

theorem queued_viewDidLoad (maxQueueLength : ℕ) (world : ω) :
    Queued (viewDidLoad maxQueueLength world : ViewController β ω) :=
  ⟨Nat.zero_le _, List.suffix_rfl, rfl⟩

variable {vc : ViewController β ω} {task first : Task β} {behind tasks : List (Task β)}

theorem Queued.nodup (h : Queued vc) : vc.history.added.Nodup :=
  List.Nodup.of_map Task.serial (h.serials ▸ List.nodup_range)

theorem Queued.serial_lt (h : Queued vc) (htask : task ∈ vc.history.added) :
    task.serial < vc.history.added.length := by
  have hmem := List.mem_map_of_mem (f := Task.serial) htask
  rwa [h.serials, List.mem_range] at hmem

theorem Queued.pushed (h : Queued vc) (block : β) : Queued (vc.pushed block) where
  count := length_push_le h.count _
  suffix := by
    obtain ⟨front, hfront⟩ := h.suffix
    have hall : vc.tasks ++ [vc.newTask block] <:+ vc.history.added ++ [vc.newTask block] :=
      ⟨front, by rw [← List.append_assoc, hfront]⟩
    exact (push_suffix _ _ _).trans hall
  serials := by
    simp [ViewController.pushed, ViewController.newTask, h.serials, List.range_succ]

theorem Queued.addTasks (h : Queued vc) (blocks : List β) :
    Queued (blocks.foldl ViewController.pushed vc) := by
  induction blocks generalizing vc with
  | nil => exact h
  | cons b blocks ih => exact ih (h.pushed b)

/-- Removing the first task, whichever it is. -/
theorem Queued.complete (h : Queued vc) (htasks : vc.tasks = first :: tasks) (task : Task β) (world : ω) :
    Queued ((vc.ran task world).unqueued first tasks) := by
  obtain ⟨hcount, hsuffix, hserials⟩ := h
  rw [htasks] at hcount hsuffix
  exact ⟨(Nat.le_succ _).trans hcount, (List.suffix_cons first tasks).trans hsuffix, hserials⟩

end Queued

/-! ## What becomes of the tasks -/

section Accounted

/-- The callbacks removed the tasks they ran, these and then the queue are in the order of adding, and every
task that was added was run once, or was dropped, or is in the queue. -/
structure Accounted (vc : ViewController β ω) : Prop where
  removed : vc.history.removed = vc.history.executed
  order : (vc.history.executed ++ vc.tasks).Sublist vc.history.added
  fates : (vc.history.executed ++ vc.history.evicted ++ vc.tasks).Perm vc.history.added
  nodup : (vc.history.executed ++ vc.history.evicted ++ vc.tasks).Nodup

theorem accounted_viewDidLoad (maxQueueLength : ℕ) (world : ω) :
    Accounted (viewDidLoad maxQueueLength world : ViewController β ω) :=
  ⟨rfl, List.Sublist.refl _, List.Perm.refl _, List.nodup_nil⟩

variable {vc : ViewController β ω} {task : Task β} {tasks : List (Task β)}

theorem Accounted.pushed (h : Accounted vc) (hq : Queued vc) (block : β) : Accounted (vc.pushed block) := by
  have hsplit := dropped_append_push vc.maxQueueLength vc.tasks (vc.newTask block)
  have hfates : ((vc.pushed block).history.executed ++ (vc.pushed block).history.evicted ++
      (vc.pushed block).tasks).Perm (vc.pushed block).history.added := by
    have hall : (vc.history.executed ++ (vc.history.evicted ++ dropped vc.maxQueueLength vc.tasks
        (vc.newTask block)) ++ push vc.maxQueueLength vc.tasks (vc.newTask block)) =
        vc.history.executed ++ vc.history.evicted ++ vc.tasks ++ [vc.newTask block] := by
      simp only [List.append_assoc, hsplit]
    exact (List.Perm.of_eq hall).trans (h.fates.append_right _)
  have horder : (vc.history.executed ++ (vc.tasks ++ [vc.newTask block])).Sublist
      (vc.history.added ++ [vc.newTask block]) := by
    rw [← List.append_assoc]
    exact h.order.append (List.Sublist.refl _)
  exact ⟨h.removed, ((push_suffix _ _ _).sublist.append_left _).trans horder, hfates,
    hfates.nodup_iff.mpr (hq.pushed block).nodup⟩

theorem Accounted.addTasks (h : Accounted vc) (hq : Queued vc) (blocks : List β) :
    Accounted (blocks.foldl ViewController.pushed vc) := by
  induction blocks generalizing vc with
  | nil => exact h
  | cons b blocks ih => exact ih (h.pushed hq b) (hq.pushed b)

/-- The task that has run is the one removed. -/
theorem Accounted.complete (h : Accounted vc) (htasks : vc.tasks = task :: tasks) (world : ω) :
    Accounted ((vc.ran task world).unqueued task tasks) := by
  obtain ⟨hremoved, horder, hfates, hnodup⟩ := h
  rw [htasks] at horder hfates hnodup
  have hmid : (vc.history.executed ++ [task] ++ vc.history.evicted ++ tasks).Perm
      (vc.history.executed ++ vc.history.evicted ++ task :: tasks) := by
    rw [List.append_assoc, ← List.append_cons, List.append_assoc]
    exact List.perm_middle.symm.append_left _
  rw [List.append_cons] at horder
  exact ⟨congrArg (· ++ [task]) hremoved, horder, hmid.trans hfates, hmid.nodup_iff.mpr hnodup⟩

end Accounted

/-! ## Callbacks -/

section CallBack

variable {body : β → ω → ω × List β} {vc : ViewController β ω} {task : Task β} {behind : List (Task β)}

/-- The queue has room for the tasks that its first task adds while it runs. -/
def HasRoom (body : β → ω → ω × List β) (vc : ViewController β ω) : Prop :=
  ∀ task, vc.tasks.head? = some task →
    vc.tasks.length + (body task.block vc.world).2.length ≤ vc.maxQueueLength

theorem length_newTasks (n : ℕ) (blocks : List β) : (newTasks n blocks).length = blocks.length := by
  induction blocks generalizing n with
  | nil => rfl
  | cons b blocks ih => rw [newTasks, List.length_cons, List.length_cons, ih]

theorem le_serial_of_mem {n : ℕ} {blocks : List β} (h : task ∈ newTasks n blocks) : n ≤ task.serial := by
  induction blocks generalizing n with
  | nil => cases h
  | cons b blocks ih =>
    rcases List.mem_cons.mp h with rfl | h
    · exact le_rfl
    · exact (Nat.le_succ n).trans (ih h)

/-- After the calls of `addTask:` the task that runs is the first one still exactly when there was room. -/
theorem Queued.exists_first (h : Queued vc) (htasks : vc.tasks = task :: behind) (blocks : List β) :
    ∃ first tasks, (blocks.foldl ViewController.pushed vc).tasks = first :: tasks ∧
      (first = task ↔ vc.tasks.length + blocks.length ≤ vc.maxQueueLength) := by
  obtain ⟨hcount, hsuffix, -⟩ := id h
  rw [tasks_addTasks, htasks, ← length_newTasks vc.history.added.length blocks]
  rw [htasks] at hcount hsuffix
  rcases Nat.lt_or_ge vc.maxQueueLength
    ((task :: behind).length + (newTasks vc.history.added.length blocks).length) with hno | hroom
  · obtain ⟨first, tasks, hqueue, hfirst⟩ := pushAll_of_no_room hcount hno
    refine ⟨first, tasks, hqueue, fun heq => ?_, fun hle => absurd hle (not_le.mpr hno)⟩
    -- another task than those behind it and than the new ones
    rw [heq] at hfirst
    rcases List.mem_append.mp hfirst with hmem | hmem
    · exact absurd hmem (List.nodup_cons.mp (hsuffix.sublist.nodup h.nodup)).1
    · have hlt := h.serial_lt (hsuffix.mem List.mem_cons_self)
      have hle := le_serial_of_mem hmem
      omega
  · exact ⟨task, _, pushAll_of_room hroom, fun _ => hroom, fun _ => rfl⟩

/-- A callback: nothing on an empty queue, and otherwise the first task runs and the task that is then the
first one is removed. -/
theorem Queued.exists_taskCallBack (h : Queued vc) (body : β → ω → ω × List β) :
    ∃ vc', taskCallBack body vc = some vc' ∧ Queued vc' ∧ vc'.maxQueueLength = vc.maxQueueLength ∧
      (HasRoom body vc → Accounted vc → Accounted vc') ∧
      (¬ HasRoom body vc → Accounted vc → ¬ Accounted vc') := by
  cases htasks : vc.tasks with
  | nil =>
    refine ⟨vc, taskCallBack_nil body htasks, h, rfl, fun _ ha => ha, fun hroom => absurd ?_ hroom⟩
    intro task hhead
    rw [htasks] at hhead
    cases hhead
  | cons task behind =>
    obtain ⟨first, tasks, hadded, hfirst⟩ := h.exists_first htasks (body task.block vc.world).2
    have hroom : HasRoom body vc ↔ first = task := by
      rw [hfirst]
      refine ⟨fun hr => hr task (by rw [htasks]; rfl), ?_⟩
      intro hle task' hhead
      rw [htasks] at hhead
      obtain rfl := Option.some.inj hhead
      exact hle
    refine ⟨_, taskCallBack_eq body htasks hadded, (h.addTasks _).complete hadded task _,
      max_addTasks _ vc, fun hr ha => ?_, fun hr ha ha' => hr (hroom.mpr ?_)⟩
    · obtain rfl := hroom.mp hr
      exact (ha.addTasks h _).complete hadded _
    · obtain ⟨hexecuted, hremoved⟩ := history_addTasks (body task.block vc.world).2 vc
      have hlists : vc.history.removed ++ [first] = vc.history.executed ++ [task] := by
        rw [← hexecuted, ← hremoved]
        exact ha'.removed
      rw [ha.removed] at hlists
      exact List.singleton_inj.mp (List.append_cancel_left hlists)

/-- No step raises, and the queue keeps its form. -/
theorem Queued.exists_step (h : Queued vc) (body : β → ω → ω × List β) (act : Action β) :
    ∃ vc', step body vc act = some vc' ∧ Queued vc' ∧ vc'.maxQueueLength = vc.maxQueueLength ∧
      ((act = .callBack → HasRoom body vc) → Accounted vc → Accounted vc') ∧
      (¬ (act = .callBack → HasRoom body vc) → Accounted vc → ¬ Accounted vc') := by
  cases act with
  | addTask block =>
    refine ⟨_, addTask_eq vc block, h.pushed block, rfl, fun _ ha => ha.pushed h block, ?_⟩
    intro hroom
    exact absurd (fun hact => by cases hact) hroom
  | callBack =>
    obtain ⟨vc', hstep, hq, hmax, hkeep, hbreak⟩ := h.exists_taskCallBack body
    exact ⟨vc', hstep, hq, hmax, fun hroom => hkeep (hroom rfl),
      fun hroom => hbreak fun hr => hroom fun _ => hr⟩

end CallBack

/-! ## Runs -/

section Run

variable (body : β → ω → ω × List β) (maxQueueLength : ℕ) (world : ω) (acts : List (Action β))

/-- No run from the empty queue raises. -/
theorem run_queued : (∃ vc, run (step body) acts (viewDidLoad maxQueueLength world) = some vc) ∧
    Always (step body) (fun vc => Queued vc ∧ vc.maxQueueLength = maxQueueLength) acts
      (viewDidLoad maxQueueLength world) := by
  refine always_of_everyStep (G := fun _ _ => True) ⟨queued_viewDidLoad _ _, rfl⟩ (fun vc act hvc _ => ?_)
    fun _ _ _ _ _ _ => trivial
  obtain ⟨vc', hstep, hq, hmax, -⟩ := hvc.1.exists_step body act
  exact ⟨vc', hstep, hq, hmax.trans hvc.2⟩

variable {body maxQueueLength world acts}

theorem accounted_of_room (h : EveryStep (step body) (fun vc act => act = .callBack → HasRoom body vc) acts
    (viewDidLoad maxQueueLength world)) :
    Always (step body) Accounted acts (viewDidLoad maxQueueLength world) := by
  refine ((always_of_everyStep (P := fun vc => Queued vc ∧ Accounted vc) ⟨queued_viewDidLoad _ _,
    accounted_viewDidLoad _ _⟩ (fun vc act hvc hroom => ?_) h).2).mono fun _ hvc => hvc.2
  obtain ⟨vc', hstep, hq, -, hkeep, -⟩ := hvc.1.exists_step body act
  exact ⟨vc', hstep, hq, hkeep hroom hvc.2⟩

theorem room_of_accounted (h : Always (step body) Accounted acts (viewDidLoad maxQueueLength world)) :
    EveryStep (step body) (fun vc act => act = .callBack → HasRoom body vc) acts
      (viewDidLoad maxQueueLength world) := by
  have hqueued := (run_queued body maxQueueLength world acts).2
  refine everyStep_of_always (P := fun vc => Queued vc ∧ Accounted vc) (fun vc act hvc hroom => ?_)
    ((hqueued.mono fun _ hq => hq.1).and h)
  obtain ⟨vc', hstep, -, -, -, hbreak⟩ := hvc.1.exists_step body act
  exact ⟨vc', hstep, fun hvc' => hbreak hroom hvc.2 hvc'.2⟩

/-- Blocks that call `addTask:` while they run: in every state of a run the tasks are accounted for exactly
when every callback of the run has room. -/
theorem accounted_iff (body : β → ω → ω × List β) (maxQueueLength : ℕ) (world : ω) (acts : List (Action β)) :
    (∃ vc, run (step body) acts (viewDidLoad maxQueueLength world) = some vc) ∧
      (Always (step body) Accounted acts (viewDidLoad maxQueueLength world) ↔
        EveryStep (step body) (fun vc act => act = .callBack → HasRoom body vc) acts
          (viewDidLoad maxQueueLength world)) :=
  ⟨(run_queued body maxQueueLength world acts).1, room_of_accounted, accounted_of_room⟩

/-- A full queue whose first block adds one more: that task is run and dropped, and the callback removes the
second task, which is never run. -/
theorem not_accounted_full : ∃ vc,
    run (step fun (again : Bool) (_ : Unit) => ((), if again then [false] else []))
      (List.replicate 28 (.addTask true) ++ [.callBack]) (viewDidLoad 28 ()) = some vc ∧
      vc.history.executed = [⟨0, true⟩] ∧ vc.history.evicted = [⟨0, true⟩] ∧
      vc.history.removed = [⟨1, true⟩] ∧ ¬ Accounted vc := by
  refine ⟨_, rfl, rfl, rfl, rfl, ?_⟩
  intro h
  have hremoved := h.removed
  revert hremoved
  decide

end Run

/-! ## Blocks that do not touch the queue -/

section Quiet

/-- Blocks that only change the world. -/
def quiet (effect : β → ω → ω) : β → ω → ω × List β := fun block world => (effect block world, [])

variable {effect : β → ω → ω} {vc vc' : ViewController β ω} {act : Action β}

theorem Queued.hasRoom_quiet (h : Queued vc) : HasRoom (quiet effect) vc := fun _ _ => h.count

/-- What a step drops: the oldest task, in an `addTask:` that finds the queue full. -/
theorem Queued.evicted_step (h : Queued vc) (hstep : step (quiet effect) vc act = some vc') :
    vc'.history.evicted = vc.history.evicted ∨ ∃ block oldest, act = .addTask block ∧
      vc.tasks.length = vc.maxQueueLength ∧ (vc.tasks ++ [vc.newTask block]).head? = some oldest ∧
      vc'.history.evicted = vc.history.evicted ++ [oldest] := by
  cases act with
  | addTask block =>
    obtain rfl := Option.some.inj ((addTask_eq vc block).symm.trans hstep)
    rcases dropped_cases h.count (vc.newTask block) with hnone | ⟨hfull, oldest, hhead, hone⟩
    · exact Or.inl (by rw [ViewController.pushed, hnone, List.append_nil])
    · exact Or.inr ⟨block, oldest, rfl, hfull, hhead, congrArg (vc.history.evicted ++ ·) hone⟩
  | callBack =>
    refine Or.inl ?_
    cases htasks : vc.tasks with
    | nil => rw [← Option.some.inj ((taskCallBack_nil _ htasks).symm.trans hstep)]
    | cons task behind =>
      have hcall := taskCallBack_eq (quiet effect) htasks htasks
      rw [← Option.some.inj (hcall.symm.trans hstep)]
      rfl

/-- The blocks that an action adds. -/
def Action.blocks : Action β → List β
  | .addTask block => [block]
  | .callBack => []

/-- The tasks that an action runs: a callback the first one in the queue. -/
def Action.runs (tasks : List (Task β)) : Action β → List (Task β)
  | .addTask _ => []
  | .callBack => tasks.head?.toList

/-- What tasks make of the world, one after the other. -/
def runTasks (effect : β → ω → ω) (world : ω) (tasks : List (Task β)) : ω :=
  tasks.foldl (fun world task => effect task.block world) world

/-- What a step adds and runs. -/
theorem history_step (hstep : step (quiet effect) vc act = some vc') :
    vc'.history.added.map Task.block = vc.history.added.map Task.block ++ act.blocks ∧
      vc'.history.executed = vc.history.executed ++ act.runs vc.tasks ∧
      vc'.world = runTasks effect vc.world (act.runs vc.tasks) := by
  cases act with
  | addTask block =>
    obtain rfl := Option.some.inj ((addTask_eq vc block).symm.trans hstep)
    refine ⟨?_, ?_, rfl⟩
    · simp [ViewController.pushed, ViewController.newTask, Action.blocks]
    · exact (List.append_nil _).symm
  | callBack =>
    cases htasks : vc.tasks with
    | nil =>
      obtain rfl := Option.some.inj ((taskCallBack_nil _ htasks).symm.trans hstep)
      exact ⟨(List.append_nil _).symm, (List.append_nil _).symm, rfl⟩
    | cons task behind =>
      have hcall := taskCallBack_eq (quiet effect) htasks htasks
      obtain rfl := Option.some.inj (hcall.symm.trans hstep)
      exact ⟨(List.append_nil _).symm, rfl, rfl⟩

/-- The tasks added in a run are those of its calls of `addTask:`,
and the tasks run have made the world what it is. -/
theorem history_run {acts : List (Action β)} (hrun : run (step (quiet effect)) acts vc = some vc') :
    vc'.history.added.map Task.block = vc.history.added.map Task.block ++ acts.flatMap Action.blocks ∧
      ∃ tasks, vc'.history.executed = vc.history.executed ++ tasks ∧
        vc'.world = runTasks effect vc.world tasks := by
  induction acts generalizing vc with
  | nil =>
    obtain rfl := Option.some.inj hrun
    exact ⟨(List.append_nil _).symm, [], (List.append_nil _).symm, rfl⟩
  | cons act acts ih =>
    obtain ⟨vc₁, hstep, hrest⟩ := Option.bind_eq_some_iff.mp hrun
    obtain ⟨hadded, hexecuted, hworld⟩ := history_step hstep
    obtain ⟨hadded', tasks, hexecuted', hworld'⟩ := ih hrest
    refine ⟨?_, act.runs vc.tasks ++ tasks, ?_, ?_⟩
    · rw [hadded', hadded, List.append_assoc, List.flatMap_cons]
    · rw [hexecuted', hexecuted, List.append_assoc]
    · rw [hworld', hworld, runTasks, runTasks, runTasks, List.foldl_append]

/-- In every run the tasks added are those of the calls of `addTask:`, the queue holds at most
`maxQueueLength` tasks, the latest ones, the tasks run, which are the first ones at the callbacks, have
changed the world and are in the order they were added in, each once, and all others were dropped, each as
the oldest one by an `addTask:` that found the queue full. -/
theorem run_quiet_spec (effect : β → ω → ω) (maxQueueLength : ℕ) (world : ω) (acts : List (Action β)) :
    ∃ vc, run (step (quiet effect)) acts (viewDidLoad maxQueueLength world) = some vc ∧
      vc.history.added.map Task.block = acts.flatMap Action.blocks ∧
      vc.world = runTasks effect world vc.history.executed ∧
      vc.tasks.length ≤ maxQueueLength ∧ vc.tasks <:+ vc.history.added ∧
      vc.history.executed.Sublist vc.history.added ∧ vc.history.executed.Nodup ∧
      (vc.history.executed ++ vc.history.evicted ++ vc.tasks).Perm vc.history.added ∧
      (vc.history.executed ++ vc.history.evicted ++ vc.tasks).Nodup ∧
      ∀ act vc', step (quiet effect) vc act = some vc' →
        vc'.history.executed = vc.history.executed ++ act.runs vc.tasks ∧
        (vc'.history.evicted = vc.history.evicted ∨ ∃ block oldest, act = .addTask block ∧
          vc.tasks.length = maxQueueLength ∧ (vc.tasks ++ [vc.newTask block]).head? = some oldest ∧
          vc'.history.evicted = vc.history.evicted ++ [oldest]) := by
  obtain ⟨⟨vc, hrun⟩, hqueued⟩ := run_queued (quiet effect) maxQueueLength world acts
  obtain ⟨hq, hmax⟩ := hqueued.last hrun
  have hroom : EveryStep (step (quiet effect))
      (fun vc act => act = .callBack → HasRoom (quiet effect) vc) acts
      (viewDidLoad maxQueueLength world) := by
    intro front act back vc₁ heq hrun₁ _
    exact (hqueued front (act :: back) vc₁ heq hrun₁).1.hasRoom_quiet
  have ha : Accounted vc := (accounted_of_room hroom).last hrun
  have hexecuted : vc.history.executed.Sublist vc.history.added :=
    (List.sublist_append_left _ _).trans ha.order
  obtain ⟨hadded, tasks, htasks, hworld⟩ := history_run hrun
  have hrunTasks : vc.world = runTasks effect world vc.history.executed := by
    rw [show vc.history.executed = tasks from htasks]
    exact hworld
  refine ⟨vc, hrun, hadded, hrunTasks, hmax ▸ hq.count, hq.suffix, hexecuted,
    hexecuted.nodup hq.nodup, ha.fates, ha.nodup, ?_⟩
  intro act vc' hstep
  have hevicted := hq.evicted_step hstep
  rw [hmax] at hevicted
  exact ⟨(history_step hstep).2.1, hevicted⟩

end Quiet

end QYInterview.ObjC.TaskQueue
