import QYInterview.Relink

/-!
# ReverseList — six routines that reverse a list in place

`Interview/ReverseListController.swift` (Algorithm app), `双指针/ReverseListController.swift` and
`ReverseSingListController.swift` (QYInterview).  `SingListNode` has the fields of `ListNode`, so one
heap serves for both.  `Heap.relink pre ns` is what all of them do to the list `ns`: every node is
linked to the one before it, the first one to `pre`.  The loops do so from the front
(`loopReturns_relink`); the recursions `reverseList1` and `reList` write the links on the way back
from the end, which the commutation lemmas of `relink` turn into the same heap.
-/

namespace QYInterview.ReverseList

open RunLogic Linked

variable {α : Type} [DecidableEq α]

/-! ## The Algorithm app -/

namespace Algorithm

/-- `while cur != nil`, over `pre`, `cur`. -/
def reverseListTurn : Option α × Option α × Heap α →
    Prog (Turn (Option α × Option α × Heap α) (Option α × Heap α))
  | (pre, cur, h) =>
    if cur ≠ none then
      let next := h.next? cur
      let h := h.setNext cur pre
      pure (.next (cur, next, h))
    else pure (.exit (pre, h))

def reverseList (h : Heap α) (head : Option α) : Prog (Option α × Heap α) :=
  loop reverseListTurn (none, head, h)

def reverseList1Body (reverseList1 : Heap α × Option α → Prog (Option α × Heap α)) :
    Heap α × Option α → Prog (Option α × Heap α)
  | (h, head) =>
    if head = none then pure (none, h)
    else if h.next? head = none then pure (head, h)
    else do
      let (newHead, h) ← reverseList1 (h, h.next? head)
      -- `head?.next?.next = head`
      let h := h.setNext (h.next? head) head
      let h := h.setNext head none
      pure (newHead, h)

def reverseList1 (h : Heap α) (head : Option α) : Prog (Option α × Heap α) :=
  fix reverseList1Body (h, head)

end Algorithm

/-! ## QYInterview -/

namespace QY

/-- `while cur != nil`, over `pre`, `cur`, `temp`. -/
def reverseListTurn : Option α × Option α × Option α × Heap α →
    Prog (Turn (Option α × Option α × Option α × Heap α) (Option α × Heap α))
  | (pre, cur, _, h) =>
    if cur ≠ none then
      let temp := h.next? cur
      let h := h.setNext cur pre
      pure (.next (cur, temp, temp, h))
    else pure (.exit (pre, h))

def reverseList (h : Heap α) (head : Option α) : Prog (Option α × Heap α) :=
  if head = none ∨ h.next? head = none then pure (head, h)
  else loop reverseListTurn (none, head, none, h)

def reverseBody (reverse : Heap α × Option α × Option α → Prog (Option α × Heap α)) :
    Heap α × Option α × Option α → Prog (Option α × Heap α)
  | (h, pre, cur) =>
    if cur = none then pure (pre, h)
    else
      let temp := h.next? cur
      let h := h.setNext cur pre
      reverse (h, cur, temp)

def reverse (h : Heap α) (pre cur : Option α) : Prog (Option α × Heap α) :=
  fix reverseBody (h, pre, cur)

def reverseList2 (h : Heap α) (head : Option α) : Prog (Option α × Heap α) := reverse h none head

end QY

/-! ## ReverseSingListController -/

namespace Sing

/-- `while head != nil`, over `pre`, `cur`, `head`. -/
def reverseListTurn : Option α × Option α × Option α × Heap α →
    Prog (Turn (Option α × Option α × Option α × Heap α) (Option α × Heap α))
  | (pre, _, head, h) =>
    if head ≠ none then
      let cur := head
      let head := h.next? head
      let h := h.setNext cur pre
      pure (.next (cur, cur, head, h))
    else pure (.exit (pre, h))

def reverseList (h : Heap α) (head : Option α) : Prog (Option α × Heap α) :=
  if head = none then pure (none, h)
  else loop reverseListTurn (none, none, head, h)

def reListBody (reList : Heap α × Option α × Option α → Prog (Option α × Heap α)) :
    Heap α × Option α × Option α → Prog (Option α × Heap α)
  | (h, pre, none) => pure (pre, h)
  | (h, pre, some _cur) => do
    let (res, h) ← reList (h, some _cur, h.next _cur)
    let h := h.setNext (some _cur) pre
    pure (res, h)

def reList (h : Heap α) (pre cur : Option α) : Prog (Option α × Heap α) :=
  fix reListBody (h, pre, cur)

def recursiveReverseList (h : Heap α) (head : Option α) : Prog (Option α × Heap α) :=
  reList h none head

end Sing

/-! ## The loops -/

section Loops

/-- What the three loops share: seen through `view` as `pre`, `cur` and the heap, a turn at a node
links it to `pre` and goes on to its old link, and a turn at nil leaves with `pre`. -/
structure ReversingTurn {σ : Type} (turn : σ → Prog (Turn σ (Option α × Heap α)))
    (view : σ → Option α × Option α × Heap α) : Prop where
  exit : ∀ s pre h, view s = (pre, none, h) → turn s = pure (.exit (pre, h))
  next : ∀ s pre a h, view s = (pre, some a, h) →
    ∃ s', turn s = pure (.next s') ∧ view s' = (some a, h.next a, h.setNext (some a) pre)

/-- A reversing loop relinks the list it starts at. -/
theorem loopReturns_relink {σ : Type} {turn : σ → Prog (Turn σ (Option α × Heap α))}
    {view : σ → Option α × Option α × Heap α} (ht : ReversingTurn turn view) :
    ∀ (ns : List α) (s : σ) (pre cur : Option α) (h : Heap α), view s = (pre, cur, h) →
      h.IsList cur ns → ns.Nodup → LoopReturns turn s (Heap.lastOr pre ns, h.relink pre ns)
  | [], s, pre, cur, h, hs, hr, _ => by
    have hr : cur = none := hr
    subst hr
    refine loopReturns_exit ?_
    rw [ht.exit s pre h hs]
    exact returns_pure _
  | a :: ns, s, pre, cur, h, hs, hr, hns => by
    obtain ⟨rfl, hr'⟩ := hr
    obtain ⟨ha, hns'⟩ := List.nodup_cons.mp hns
    obtain ⟨s', hturn, hs'⟩ := ht.next s pre a h hs
    refine loopReturns_next (show Returns _ (Turn.next s') by rw [hturn]; exact returns_pure _) ?_
    exact loopReturns_relink ht ns s' _ _ _ hs' ((h.isList_setNext ha).mpr hr') hns'

theorem algorithm_reversingTurn :
    ReversingTurn (Algorithm.reverseListTurn (α := α)) (fun s => s) where
  exit := by rintro _ pre h rfl; rfl
  next := by rintro _ pre a h rfl; exact ⟨_, rfl, rfl⟩

theorem qy_reversingTurn :
    ReversingTurn (QY.reverseListTurn (α := α)) (fun s => (s.1, s.2.1, s.2.2.2)) where
  exit := by rintro ⟨_, _, _, _⟩ pre h hs; cases hs; rfl
  next := by rintro ⟨_, _, _, _⟩ pre a h hs; cases hs; exact ⟨_, rfl, rfl⟩

theorem sing_reversingTurn :
    ReversingTurn (Sing.reverseListTurn (α := α)) (fun s => (s.1, s.2.2.1, s.2.2.2)) where
  exit := by rintro ⟨_, _, _, _⟩ pre h hs; cases hs; rfl
  next := by rintro ⟨_, _, _, _⟩ pre a h hs; cases hs; exact ⟨_, rfl, rfl⟩

variable {h : Heap α} {head : Option α} {ns : List α} (hr : h.IsList head ns)
include hr

theorem algorithm_reverseList :
    Returns (Algorithm.reverseList h head) (Heap.lastOr none ns, h.relink none ns) :=
  (loopReturns_relink algorithm_reversingTurn ns _ none head h rfl hr (chain_nodup hr)).returns

/-- A list of at most one node is its own reversal. -/
theorem relink_short (hshort : head = none ∨ h.next? head = none) :
    Heap.lastOr none ns = head ∧ h.relink none ns = h := by
  cases ns with
  | nil => exact ⟨(show head = none from hr).symm, rfl⟩
  | cons a ns =>
    obtain ⟨rfl, hr'⟩ := hr
    have ha : h.next a = none := hshort.resolve_left (by simp)
    cases ns with
    | nil => exact ⟨rfl, h.relink_singleton ha⟩
    | cons b ns => rw [hr'.1] at ha; cases ha

theorem qy_reverseList :
    Returns (QY.reverseList h head) (Heap.lastOr none ns, h.relink none ns) := by
  unfold QY.reverseList
  by_cases hshort : head = none ∨ h.next? head = none
  · rw [if_pos hshort, (relink_short hr hshort).1, (relink_short hr hshort).2]
    exact returns_pure _
  · rw [if_neg hshort]
    exact (loopReturns_relink qy_reversingTurn ns _ none head h rfl hr (chain_nodup hr)).returns

theorem sing_reverseList :
    Returns (Sing.reverseList h head) (Heap.lastOr none ns, h.relink none ns) := by
  unfold Sing.reverseList
  by_cases hnil : head = none
  · have hshort := relink_short hr (Or.inl hnil)
    rw [if_pos hnil, hshort.1, hshort.2, hnil]
    exact returns_pure _
  · rw [if_neg hnil]
    exact (loopReturns_relink sing_reversingTurn ns _ none head h rfl hr (chain_nodup hr)).returns

end Loops

/-! ## The recursions -/

section Recursions

theorem fixReturns_reverse : ∀ (ns : List α) (h : Heap α) (pre cur : Option α), h.IsList cur ns →
    ns.Nodup → FixReturns QY.reverseBody (h, pre, cur) (Heap.lastOr pre ns, h.relink pre ns)
  | [], h, pre, cur, hr, _ => by
    have hr : cur = none := hr
    subst hr
    exact fixReturns_call (returns_pure _).settles
  | a :: ns, h, pre, cur, hr, hns => by
    obtain ⟨rfl, hr'⟩ := hr
    obtain ⟨ha, hns'⟩ := List.nodup_cons.mp hns
    exact fixReturns_call
      (fixReturns_reverse ns _ (some a) (h.next a) ((h.isList_setNext ha).mpr hr') hns')

/-- `reList` reverses the rest of the list first, with the links of the nodes before it unchanged. -/
theorem fixReturns_reList : ∀ (ns : List α) (h : Heap α) (pre cur : Option α), h.IsList cur ns →
    ns.Nodup → FixReturns Sing.reListBody (h, pre, cur) (Heap.lastOr pre ns, h.relink pre ns)
  | [], h, pre, cur, hr, _ => by
    have hr : cur = none := hr
    subst hr
    exact fixReturns_call (returns_pure _).settles
  | a :: ns, h, pre, cur, hr, hns => by
    obtain ⟨rfl, hr'⟩ := hr
    obtain ⟨ha, hns'⟩ := List.nodup_cons.mp hns
    have ih := fixReturns_reList ns h (some a) (h.next a) hr' hns'
    rw [Heap.relink, h.relink_setNext ha]
    exact fixReturns_call (settles_bind ih (returns_pure _).settles)

/-- `reverseList1` on `a :: ns` reverses `ns` to a list ending at the node after `a`, then hangs `a`
behind that node. -/
theorem fixReturns_reverseList1 : ∀ (ns : List α) (h : Heap α) (head : Option α),
    h.IsList head ns → ns.Nodup →
    FixReturns Algorithm.reverseList1Body (h, head) (Heap.lastOr none ns, h.relink none ns)
  | [], h, head, hr, _ => by
    have hr : head = none := hr
    subst hr
    exact fixReturns_call (returns_pure _).settles
  | [a], h, head, hr, _ => by
    obtain ⟨rfl, ha⟩ := hr
    have ha : h.next a = none := ha
    have hbody : ∀ k, Algorithm.reverseList1Body (fixN Algorithm.reverseList1Body k) (h, some a) =
        pure (some a, h) := fun k => by simp [Algorithm.reverseList1Body, ha]
    rw [h.relink_singleton ha]
    refine fixReturns_call ?_
    simp only [hbody]
    exact (returns_pure _).settles
  | a :: b :: ns, h, head, hr, hns => by
    obtain ⟨rfl, hb, hr'⟩ := hr
    obtain ⟨ha, hns'⟩ := List.nodup_cons.mp hns
    have ih := fixReturns_reverseList1 (b :: ns) h (some b) ⟨rfl, hr'⟩ hns'
    have hkeep : (h.relink none (b :: ns)).next a = some b := by
      rw [h.relink_next_of_not_mem ha, hb]
    have hbody : ∀ k, Algorithm.reverseList1Body (fixN Algorithm.reverseList1Body k) (h, some a) =
        fixN Algorithm.reverseList1Body k (h, some b) >>= fun (r : Option α × Heap α) =>
          pure (r.1, (r.2.setNext (r.2.next a) (some a)).setNext (some a) none) := fun k => by
      simp [Algorithm.reverseList1Body, hb]
    refine fixReturns_call ?_
    simp only [hbody]
    refine settles_bind ih ?_
    -- the two links written after the call
    simp only [hkeep, h.relink_hang hns none]
    exact (returns_pure _).settles

end Recursions

/-! ## The six routines together -/

inductive Routine
  | algorithmReverseList
  | algorithmReverseList1
  | qyReverseList
  | qyReverseList2
  | singReverseList
  | singRecursiveReverseList
  deriving DecidableEq, Repr

/-- The routine, on a heap and a head. -/
def Routine.run : Routine → Heap α → Option α → Prog (Option α × Heap α)
  | .algorithmReverseList => Algorithm.reverseList
  | .algorithmReverseList1 => Algorithm.reverseList1
  | .qyReverseList => QY.reverseList
  | .qyReverseList2 => QY.reverseList2
  | .singReverseList => Sing.reverseList
  | .singRecursiveReverseList => Sing.recursiveReverseList

/-- Every routine relinks its list. -/
theorem returns_run (f : Routine) {h : Heap α} {head : Option α} {ns : List α}
    (hr : h.IsList head ns) : Returns (f.run h head) (Heap.lastOr none ns, h.relink none ns) := by
  have hns := chain_nodup hr
  cases f with
  | algorithmReverseList => exact algorithm_reverseList hr
  | algorithmReverseList1 => exact (fixReturns_reverseList1 ns h head hr hns).returns
  | qyReverseList => exact qy_reverseList hr
  | qyReverseList2 => exact (fixReturns_reverse ns h none head hr hns).returns
  | singReverseList => exact sing_reverseList hr
  | singRecursiveReverseList => exact (fixReturns_reList ns h none head hr hns).returns

/-- **The six routines** on a list `ns`: all return the same head and heap, in which the list from the
head is `ns` backwards, the values and all links outside `ns` are as before, and from which each of
them gives back the old head and the old heap. -/
theorem reversals_spec (h : Heap α) (head : Option α) (ns : List α) (hr : h.IsList head ns) :
    ∃ head' h', (∀ f : Routine, Returns (f.run h head) (head', h')) ∧
      h'.IsList head' ns.reverse ∧ h'.val = h.val ∧ (∀ a, a ∉ ns → h'.next a = h.next a) ∧
      ∀ g : Routine, Returns (g.run h' head') (head, h) := by
  have hr' := h.isList_relink hr
  obtain ⟨hheap, hhead⟩ := h.relink_reverse hr
  refine ⟨Heap.lastOr none ns, h.relink none ns, fun f => returns_run f hr, hr', h.relink_val _ _,
    fun a ha => h.relink_next_of_not_mem ha none, fun g => ?_⟩
  have hback := returns_run g hr'
  rwa [hheap, hhead] at hback

/-- Three linked nodes and a fourth one outside the list that points into it. -/
theorem reversals_spec_three :
    ∃ head' h', (∀ f : Routine, Returns
        (f.run ⟨fun _ => 7, ![some 1, some 2, none, some 0]⟩ (some (0 : Fin 4))) (head', h')) ∧
      h'.IsList head' [2, 1, 0] ∧ h'.val = (fun _ => 7) ∧
      (∀ a, a ∉ [(0 : Fin 4), 1, 2] → h'.next a = ![some 1, some 2, none, some 0] a) ∧
      ∀ g : Routine, Returns (g.run h' head')
        (some 0, ⟨fun _ => 7, ![some 1, some 2, none, some 0]⟩) :=
  reversals_spec ⟨fun _ => 7, ![some 1, some 2, none, some 0]⟩ (some 0) [0, 1, 2]
    ⟨rfl, rfl, rfl, rfl⟩

end QYInterview.ReverseList
