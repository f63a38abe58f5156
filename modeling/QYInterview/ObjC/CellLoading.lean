import QYInterview.ObjC.TaskQueue
import Mathlib.Data.List.Count

/-!
# ObjC.CellLoading — images of reused cells, loaded later

`tableView:cellForRowAtIndexPath:` of the large-image demo removes one subview for each of the tags 1 to 4
from the cell it is given, adds a label with tag 1 and puts three tasks for the images, with the tags 2, 3
and 4, into the queue.  The tasks hold on to the cell, so tasks from before and after a reuse may both run
for it.  A view is kept with its tag and what it shows; which reusable cell the table view hands out is part
of the action.
-/

namespace QYInterview.ObjC.CellLoading

open TaskQueue Runs

/-- What a subview shows: a label its text, an image view its file. -/
inductive Content
  | label (text : String)
  | image (name : String)
  deriving DecidableEq, Repr

structure Subview where
  tag : ℕ
  content : Content
  deriving DecidableEq, Repr

/-- The subviews of every cell's `contentView`. -/
abbrev World (κ : Type) := κ → List Subview

/-- The tasks of `cellForRowAtIndexPath:`, with the cell they hold on to. -/
inductive Block (κ : Type)
  | addImage1 (cell : κ)
  | addImage2 (cell : κ)
  | addImage3 (cell : κ)
  deriving DecidableEq, Repr

/-! ## The code -/

/-- `viewWithTag:` among the subviews, which have none of their own. -/
def viewWithTag (views : List Subview) (tag : ℕ) : Option Subview := views.find? (·.tag = tag)

/-- `[[cell.contentView viewWithTag:i] removeFromSuperview]` -/
def removeWithTag (views : List Subview) (i : ℕ) : List Subview := views.eraseP (·.tag = i)

/-- `for (NSInteger i = 1; i < 5; i++)` -/
def cleaned (views : List Subview) : List Subview := [1, 2, 3, 4].foldl removeWithTag views

variable {κ : Type} [DecidableEq κ]

/-- `[cell.contentView addSubview:view]` -/
def addSubview (cell : κ) (view : Subview) (world : World κ) : World κ :=
  Function.update world cell (world cell ++ [view])

def addLabel (cell : κ) (row : ℕ) : World κ → World κ :=
  addSubview cell ⟨1, .label ("我是一个小label - " ++ toString row)⟩

/-- `addImage1:`, `addImage2:` and `addImage3:`, up to the place of the view. -/
def addImage (tag : ℕ) (cell : κ) : World κ → World κ := addSubview cell ⟨tag, .image "image1.jpeg"⟩

def addImage1 (cell : κ) : World κ → World κ := addImage 2 cell
def addImage2 (cell : κ) : World κ → World κ := addImage 3 cell
def addImage3 (cell : κ) : World κ → World κ := addImage 4 cell

/-- What a task does. -/
def effect : Block κ → World κ → World κ
  | .addImage1 cell => addImage1 cell
  | .addImage2 cell => addImage2 cell
  | .addImage3 cell => addImage3 cell

abbrev Controller (κ : Type) := ViewController (Block κ) (World κ)

/-- `tableView:cellForRowAtIndexPath:`, for the dequeued `cell`. -/
def cellForRow (vc : Controller κ) (cell : κ) (row : ℕ) : Option (Controller κ) := do
  let vc := { vc with world := Function.update vc.world cell (cleaned (vc.world cell)) }
  let vc := { vc with world := addLabel cell row vc.world }
  let vc ← addTask vc (.addImage1 cell)
  let vc ← addTask vc (.addImage2 cell)
  addTask vc (.addImage3 cell)

/-- The table view asks for a row, or the observer calls back. -/
inductive Action (κ : Type)
  | cellForRow (cell : κ) (row : ℕ)
  | callBack
  deriving DecidableEq, Repr

def step (vc : Controller κ) : Action κ → Option (Controller κ)
  | .cellForRow cell row => cellForRow vc cell row
  | .callBack => taskCallBack (quiet effect) vc

/-! ## Counting views -/

namespace Block

def cell : Block κ → κ
  | addImage1 cell => cell
  | addImage2 cell => cell
  | addImage3 cell => cell

def tag : Block κ → ℕ
  | addImage1 _ => 2
  | addImage2 _ => 3
  | addImage3 _ => 4

end Block

theorem effect_eq (b : Block κ) : effect b = addImage b.tag b.cell := by
  cases b <;> rfl

/-- How many subviews have a tag. -/
def count (views : List Subview) (tag : ℕ) : ℕ := views.countP (·.tag = tag)

theorem count_cons (v : Subview) (views : List Subview) (tag : ℕ) :
    count (v :: views) tag = count views tag + if v.tag = tag then 1 else 0 := by
  simp [count, List.countP_cons]

theorem removeWithTag_cons (v : Subview) (views : List Subview) (i : ℕ) :
    removeWithTag (v :: views) i = if v.tag = i then views else v :: removeWithTag views i := by
  simp [removeWithTag, List.eraseP_cons]

theorem count_removeWithTag (views : List Subview) (i tag : ℕ) :
    count (removeWithTag views i) tag = if tag = i then count views tag - 1 else count views tag := by
  induction views with
  | nil => simp [count, removeWithTag]
  | cons v views ih =>
    rw [removeWithTag_cons, count_cons]
    by_cases hv : v.tag = i
    · rw [if_pos hv, hv]
      by_cases ht : tag = i
      · simp [ht]
      · simp [ht, Ne.symm ht]
    · rw [if_neg hv, count_cons, ih]
      by_cases ht : tag = i
      · simp [ht, hv]
      · simp [ht]

/-- The loop takes away one view of each tag. -/
theorem count_cleaned (views : List Subview) {tag : ℕ} (htag : tag ∈ [1, 2, 3, 4]) :
    count (cleaned views) tag = count views tag - 1 := by
  simp only [cleaned, List.foldl_cons, List.foldl_nil, count_removeWithTag]
  simp only [List.mem_cons, List.not_mem_nil, or_false] at htag
  rcases htag with rfl | rfl | rfl | rfl <;> simp

theorem count_addSubview (cell c : κ) (view : Subview) (world : World κ) (tag : ℕ) :
    count (addSubview cell view world c) tag =
      count (world c) tag + if c = cell ∧ view.tag = tag then 1 else 0 := by
  unfold count addSubview
  by_cases hc : c = cell
  · subst hc
    rw [Function.update_self, List.countP_append, List.countP_singleton]
    simp
  · rw [Function.update_of_ne hc]
    simp [hc]

theorem viewWithTag_eq_none {views : List Subview} {tag : ℕ} :
    viewWithTag views tag = none ↔ count views tag = 0 := by
  unfold viewWithTag count
  rw [List.find?_eq_none, List.countP_eq_zero]

/-! ## What a call of `cellForRowAtIndexPath:` and a callback do -/

/-- The cell given out again: cleaned, and with its label. -/
def reused (vc : Controller κ) (cell : κ) (row : ℕ) : Controller κ :=
  { vc with world := addLabel cell row (Function.update vc.world cell (cleaned (vc.world cell))) }

/-- The tasks for a cell, in the order they are added in. -/
def images (cell : κ) : List (Block κ) := [.addImage1 cell, .addImage2 cell, .addImage3 cell]

theorem cellForRow_eq (vc : Controller κ) (cell : κ) (row : ℕ) :
    cellForRow vc cell row = some ((images cell).foldl ViewController.pushed (reused vc cell row)) := by
  rw [← addTasks_eq]
  simp [cellForRow, reused, images]

theorem callBack_eq {vc : Controller κ} {task : TaskQueue.Task (Block κ)}
    {behind : List (TaskQueue.Task (Block κ))}
    (htasks : vc.tasks = task :: behind) :
    taskCallBack (quiet effect) vc = some
      ((vc.ran task (addImage task.block.tag task.block.cell vc.world)).unqueued task behind) := by
  rw [← effect_eq]
  exact taskCallBack_eq (quiet effect) htasks htasks

omit [DecidableEq κ] in
/-- Adding tasks shows nothing. -/
theorem world_addTasks (blocks : List (Block κ)) (vc : Controller κ) :
    (blocks.foldl ViewController.pushed vc).world = vc.world := by
  induction blocks generalizing vc with
  | nil => rfl
  | cons b blocks ih => exact ih (vc.pushed b)

theorem count_reused (vc : Controller κ) (cell c : κ) (row : ℕ) {tag : ℕ} (htag : tag ∈ [1, 2, 3, 4]) :
    count ((reused vc cell row).world c) tag =
      if c = cell then count (vc.world c) tag - 1 + if 1 = tag then 1 else 0 else count (vc.world c) tag := by
  unfold reused addLabel
  rw [count_addSubview]
  by_cases hc : c = cell
  · subst hc
    rw [Function.update_self, count_cleaned _ htag]
    simp
  · rw [Function.update_of_ne hc]
    simp [hc]

section Block

omit [DecidableEq κ]

variable {b b' : Block κ} {cell : κ}

theorem Block.tag_mem (b : Block κ) : b.tag ∈ [1, 2, 3, 4] := by
  cases b <;> simp [Block.tag]

/-- The label has a tag of its own. -/
theorem Block.one_ne_tag (b : Block κ) : 1 ≠ b.tag := by
  cases b <;> simp [Block.tag]

theorem Block.eq_of_tag (hcell : b.cell = b'.cell) (htag : b.tag = b'.tag) : b = b' := by
  cases b <;> cases b' <;> simp_all [Block.cell, Block.tag]

theorem cell_of_mem_images (h : b ∈ images cell) : b.cell = cell := by
  simp only [images, List.mem_cons, List.not_mem_nil, or_false] at h
  rcases h with rfl | rfl | rfl <;> rfl

end Block

/-! ## One view for each tag -/

/-- Every cell has at most one view with each of the tags, and the loop leaves none. -/
structure Tidy (world : World κ) : Prop where
  count_le : ∀ cell, ∀ tag ∈ [1, 2, 3, 4], count (world cell) tag ≤ 1
  cleaned : ∀ cell, ∀ tag ∈ [1, 2, 3, 4], viewWithTag (cleaned (world cell)) tag = none

/-- The cell of the first task has no view yet with the tag of the one that the task adds. -/
def Fresh (vc : Controller κ) : Prop :=
  ∀ task, vc.tasks.head? = some task → viewWithTag (vc.world task.block.cell) task.block.tag = none

/-- No task in the queue is for the cell. -/
def Unused (vc : Controller κ) (cell : κ) : Prop := ∀ task ∈ vc.tasks, task.block.cell ≠ cell

variable {vc : Controller κ} {world : World κ}

omit [DecidableEq κ] in
theorem tidy_of_count_le (h : ∀ cell, ∀ tag ∈ [1, 2, 3, 4], count (world cell) tag ≤ 1) : Tidy world where
  count_le := h
  cleaned cell tag htag := by
    rw [viewWithTag_eq_none, count_cleaned _ htag]
    exact Nat.sub_eq_zero_of_le (h cell tag htag)

omit [DecidableEq κ] in
theorem tidy_empty : Tidy (fun _ => [] : World κ) := tidy_of_count_le fun _ _ _ => Nat.zero_le 1

theorem Tidy.reused (h : Tidy vc.world) (cell : κ) (row : ℕ) : Tidy (reused vc cell row).world := by
  apply tidy_of_count_le
  intro c tag htag
  have hle := h.count_le c tag htag
  rw [count_reused vc cell c row htag]
  split_ifs <;> omega

theorem Tidy.addImage {b : Block κ} (h : Tidy world) (hfresh : viewWithTag (world b.cell) b.tag = none) :
    Tidy (addImage b.tag b.cell world) := by
  apply tidy_of_count_le
  intro c tag htag
  have hle := h.count_le c tag htag
  unfold CellLoading.addImage
  rw [count_addSubview]
  split_ifs with hview
  · obtain ⟨rfl, rfl⟩ := hview
    rw [viewWithTag_eq_none.mp hfresh]
  · exact hle

theorem not_tidy_addImage {b : Block κ} (hview : viewWithTag (world b.cell) b.tag ≠ none) :
    ¬ Tidy (addImage b.tag b.cell world) := by
  intro h
  have hle := h.count_le b.cell b.tag b.tag_mem
  have hpos : count (world b.cell) b.tag ≠ 0 := fun h0 => hview (viewWithTag_eq_none.mpr h0)
  unfold CellLoading.addImage at hle
  rw [count_addSubview, if_pos ⟨rfl, rfl⟩] at hle
  omega

/-- A step shows a second view with some tag exactly when it is a callback whose task is not fresh. -/
theorem exists_step (vc : Controller κ) (act : Action κ) : ∃ vc', step vc act = some vc' ∧
    ((act = .callBack → Fresh vc) → Tidy vc.world → Tidy vc'.world) ∧
    (¬ (act = .callBack → Fresh vc) → ¬ Tidy vc'.world) := by
  cases act with
  | cellForRow cell row =>
    refine ⟨_, cellForRow_eq vc cell row, fun _ h => ?_,
      fun hfresh => absurd (fun hact => by cases hact) hfresh⟩
    rw [world_addTasks]
    exact h.reused cell row
  | callBack =>
    cases htasks : vc.tasks with
    | nil =>
      have hfresh : Fresh vc := fun task hhead => by rw [htasks] at hhead; cases hhead
      exact ⟨vc, taskCallBack_nil (quiet effect) htasks, fun _ h => h,
        fun hnot => absurd (fun _ => hfresh) hnot⟩
    | cons task behind =>
      refine ⟨_, callBack_eq htasks, fun hfresh h => ?_, fun hfresh => not_tidy_addImage fun hview => ?_⟩
      · exact h.addImage (hfresh rfl task (by rw [htasks]; rfl))
      · apply hfresh
        intro _ task' hhead
        rw [htasks] at hhead
        obtain rfl := Option.some.inj hhead
        exact hview

/-! ## Cells that are reused only after their tasks have left the queue -/

/-- The tasks in the queue add different views, none of which is there. -/
structure Ready (vc : Controller κ) : Prop where
  distinct : (vc.tasks.map Task.block).Nodup
  absent : ∀ task ∈ vc.tasks, count (vc.world task.block.cell) task.block.tag = 0

omit [DecidableEq κ] in
theorem Ready.fresh (h : Ready vc) : Fresh vc := by
  intro task hhead
  exact viewWithTag_eq_none.mpr (h.absent task (List.mem_of_mem_head? hhead))

omit [DecidableEq κ] in
theorem Ready.pushed {b : Block κ} (h : Ready vc) (hnew : b ∉ vc.tasks.map Task.block)
    (hb : count (vc.world b.cell) b.tag = 0) : Ready (vc.pushed b) := by
  have hsuffix : (vc.pushed b).tasks <:+ vc.tasks ++ [vc.newTask b] := DropOldest.push_suffix _ _ _
  constructor
  · refine (hsuffix.sublist.map Task.block).nodup ?_
    rw [List.map_append, List.map_singleton, ← List.concat_eq_append]
    exact h.distinct.concat hnew
  · intro task htask
    rcases List.mem_append.mp (hsuffix.mem htask) with hold | hold
    · exact h.absent task hold
    · obtain rfl := List.mem_singleton.mp hold
      exact hb

omit [DecidableEq κ] in
theorem Ready.addTasks {blocks : List (Block κ)} (h : Ready vc)
    (hnew : ∀ b ∈ blocks, b ∉ vc.tasks.map Task.block ∧ count (vc.world b.cell) b.tag = 0)
    (hblocks : blocks.Nodup) : Ready (blocks.foldl ViewController.pushed vc) := by
  induction blocks generalizing vc with
  | nil => exact h
  | cons b blocks ih =>
    obtain ⟨hb, hblocks⟩ := List.nodup_cons.mp hblocks
    obtain ⟨hnewb, hcount⟩ := hnew b List.mem_cons_self
    refine ih (h.pushed hnewb hcount) (fun b' hb' => ⟨fun hmem => ?_, ?_⟩) hblocks
    · obtain ⟨task, htask, rfl⟩ := List.mem_map.mp hmem
      rcases List.mem_append.mp ((DropOldest.push_suffix _ _ _).mem htask) with hold | hold
      · exact (hnew _ (List.mem_cons_of_mem b hb')).1 (List.mem_map_of_mem hold)
      · obtain rfl := List.mem_singleton.mp hold
        exact hb hb'
    · exact (hnew b' (List.mem_cons_of_mem b hb')).2

theorem Ready.cellForRow {cell : κ} (h : Ready vc) (ht : Tidy vc.world) (hunused : Unused vc cell) (row : ℕ) :
    Ready ((images cell).foldl ViewController.pushed (reused vc cell row)) := by
  have hreused : Ready (CellLoading.reused vc cell row) := by
    refine ⟨h.distinct, ?_⟩
    intro task htask
    rw [count_reused _ _ _ _ task.block.tag_mem, if_neg (hunused task htask)]
    exact h.absent task htask
  refine hreused.addTasks (fun b hb => ⟨fun hmem => ?_, ?_⟩) ?_
  · obtain ⟨task, htask, rfl⟩ := List.mem_map.mp hmem
    exact hunused task htask (cell_of_mem_images hb)
  · rw [count_reused _ _ _ _ b.tag_mem, if_pos (cell_of_mem_images hb), if_neg b.one_ne_tag, Nat.add_zero]
    exact Nat.sub_eq_zero_of_le (ht.count_le b.cell b.tag b.tag_mem)
  · simp [images]

theorem Ready.callBack {task : TaskQueue.Task (Block κ)}
    {behind : List (TaskQueue.Task (Block κ))} (h : Ready vc)
    (htasks : vc.tasks = task :: behind) :
    Ready ((vc.ran task (addImage task.block.tag task.block.cell vc.world)).unqueued task behind) := by
  obtain ⟨hdistinct, habsent⟩ := h
  rw [htasks] at hdistinct habsent
  obtain ⟨hne, hdistinct⟩ := List.nodup_cons.mp hdistinct
  refine ⟨hdistinct, ?_⟩
  intro other hother
  have hcount := habsent other (List.mem_cons_of_mem task hother)
  show count (CellLoading.addImage _ _ vc.world _) _ = 0
  unfold CellLoading.addImage
  rw [count_addSubview, hcount, if_neg]
  rintro ⟨hcell, htag⟩
  exact hne (List.mem_map.mpr ⟨other, hother, Block.eq_of_tag hcell htag.symm⟩)

theorem Ready.exists_step (h : Ready vc) (ht : Tidy vc.world) (act : Action κ)
    (hact : ∀ cell row, act = .cellForRow cell row → Unused vc cell) :
    ∃ vc', step vc act = some vc' ∧ Ready vc' ∧ Tidy vc'.world := by
  obtain ⟨vc', hstep, hkeep, -⟩ := CellLoading.exists_step vc act
  refine ⟨vc', hstep, ?_, hkeep (fun _ => h.fresh) ht⟩
  cases act with
  | cellForRow cell row =>
    obtain rfl := Option.some.inj ((cellForRow_eq vc cell row).symm.trans hstep)
    exact h.cellForRow ht (hact cell row rfl) row
  | callBack =>
    cases htasks : vc.tasks with
    | nil =>
      obtain rfl := Option.some.inj ((taskCallBack_nil (quiet effect) htasks).symm.trans hstep)
      exact h
    | cons task behind =>
      obtain rfl := Option.some.inj ((callBack_eq htasks).symm.trans hstep)
      exact h.callBack htasks

/-! ## Runs -/

section Run

/-- The table before its first row: no cell has a view. -/
def initial (maxQueueLength : ℕ) : Controller κ := viewDidLoad maxQueueLength fun _ => []

variable {maxQueueLength : ℕ} {acts : List (Action κ)}

omit [DecidableEq κ] in
theorem ready_initial : Ready (initial maxQueueLength : Controller κ) where
  distinct := List.nodup_nil
  absent _ htask := absurd htask List.not_mem_nil

theorem run_tidy
    (h : EveryStep step (fun vc act => act = .callBack → Fresh vc) acts (initial maxQueueLength)) :
    Always step (fun vc : Controller κ => Tidy vc.world) acts (initial maxQueueLength) := by
  refine (always_of_everyStep (P := fun vc : Controller κ => Tidy vc.world) tidy_empty
    (fun vc act ht hact => ?_) h).2
  obtain ⟨vc', hstep, hkeep, -⟩ := exists_step vc act
  exact ⟨vc', hstep, hkeep hact ht⟩

theorem fresh_of_tidy (h : Always step (fun vc : Controller κ => Tidy vc.world) acts
    (initial maxQueueLength)) :
    EveryStep step (fun vc act => act = .callBack → Fresh vc) acts (initial maxQueueLength) := by
  refine everyStep_of_always (fun vc act _ hact => ?_) h
  obtain ⟨vc', hstep, -, hbreak⟩ := exists_step vc act
  exact ⟨vc', hstep, hbreak hact⟩

theorem run_ready
    (h : EveryStep step (fun vc act => ∀ cell row, act = .cellForRow cell row → Unused vc cell) acts
      (initial maxQueueLength)) :
    Always step (fun vc : Controller κ => Ready vc ∧ Tidy vc.world) acts (initial maxQueueLength) := by
  refine (always_of_everyStep (P := fun vc : Controller κ => Ready vc ∧ Tidy vc.world)
    ⟨ready_initial, tidy_empty⟩ (fun vc act hvc hact => ?_) h).2
  exact hvc.1.exists_step hvc.2 act hact

/-- In every state of a run the cells are tidy exactly when no callback of the run adds a view with a tag that
the cell has already; in particular when a cell is given out again only after its
tasks have left the queue. -/
theorem tidy_iff (maxQueueLength : ℕ) (acts : List (Action κ)) :
    (∃ vc, run step acts (initial maxQueueLength : Controller κ) = some vc) ∧
      (Always step (fun vc : Controller κ => Tidy vc.world) acts (initial maxQueueLength) ↔
        EveryStep step (fun vc act => act = .callBack → Fresh vc) acts (initial maxQueueLength)) ∧
      (EveryStep step (fun vc act => ∀ cell row, act = .cellForRow cell row → Unused vc cell) acts
          (initial maxQueueLength) →
        EveryStep step (fun vc act => act = .callBack → Fresh vc) acts (initial maxQueueLength)) := by
  refine ⟨?_, ⟨fresh_of_tidy, run_tidy⟩, fun h => fresh_of_tidy ((run_ready h).mono fun _ hvc => hvc.2)⟩
  refine (always_of_everyStep (P := fun _ : Controller κ => True) (G := fun _ _ => True) trivial
    (fun vc act _ _ => ?_) fun _ _ _ _ _ _ => trivial).1
  obtain ⟨vc', hstep, -⟩ := exists_step vc act
  exact ⟨vc', hstep, trivial⟩

/-- A cell given out twice before its tasks have run gets its first image twice, and the loop leaves one. -/
theorem not_tidy_reuse : ∃ vc : Controller Unit,
    run step [.cellForRow () 0, .cellForRow () 7, .callBack, .callBack, .callBack, .callBack]
      (initial 28) = some vc ∧
      count (vc.world ()) 2 = 2 ∧ viewWithTag (cleaned (vc.world ())) 2 = some ⟨2, .image "image1.jpeg"⟩ ∧
      ¬ Tidy vc.world := by
  refine ⟨_, rfl, by decide, by decide, ?_⟩
  intro h
  have hle := h.count_le () 2 (by decide)
  revert hle
  decide

end Run

end QYInterview.ObjC.CellLoading
