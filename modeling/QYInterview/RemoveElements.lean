import QYInterview.ListNode

/-!
# RemoveElements — nodes with a given value taken out of a list

`RemoveElementsController.swift` takes out all of them, from a node in front of the list and without a case
for the head; `DeleteNodeController.swift` (Algorithm app) takes out the first one, with such a case.  Both
go on from the same form of the list: the nodes they keep, up to the one they stand at, and the rest.
-/

namespace QYInterview.RemoveElements

open RunLogic Linked

variable {α : Type} [DecidableEq α]

/-! ## The code -/

/-- `while let curNext = currentNode.next` -/
def removeElementsTurn (val : ℤ) : α × Heap α → Prog (Turn (α × Heap α) (Heap α))
  | (currentNode, h) =>
    match h.next currentNode with
    | some curNext =>
      if h.val curNext = val then
        pure (.next (currentNode, h.setNext (some currentNode) (h.next curNext)))
      else pure (.next (curNext, h))
    | none => pure (.exit h)

/-- The new head and the heap; `dummyNode` is the new node. -/
def removeElements (h : Heap α) (dummyNode : α) (head : Option α) (val : ℤ) : Prog (Option α × Heap α) := do
  let h := h.alloc dummyNode 0 none
  let h := h.setNext (some dummyNode) head
  let h ← loop (removeElementsTurn val) (dummyNode, h)
  return (h.next dummyNode, h)

/-- `while cur?.next != nil` -/
def deleteNodeTurn (head : Option α) (val : ℤ) :
    Option α × Heap α → Prog (Turn (Option α × Heap α) (Option α × Heap α))
  | (cur, h) =>
    if (h.next? cur).isSome then
      if h.val? (h.next? cur) = some val then
        pure (.exit (head, h.setNext cur (h.next? (h.next? cur))))
      else pure (.next (h.next? cur, h))
    else pure (.exit (head, h))

def deleteNode (h : Heap α) (head : Option α) (val : ℤ) : Prog (Option α × Heap α) :=
  if head = none then pure (none, h)
  else if h.val? head = some val then pure (h.next? head, h)
  else loop (deleteNodeTurn head val) (head, h)

/-! ## What is left of the list -/

section Loops

variable {h : Heap α} {r head : Option α} {val : ℤ} {v : α → ℤ}

variable (val) in
/-- The nodes up to `cur` stay, and those with the value go from the rest. -/
theorem loopReturns_removeElements : ∀ (rest front : List α) (cur : α) (h : Heap α), h.val = v →
    h.IsList r (front ++ cur :: rest) → ∃ h', LoopReturns (removeElementsTurn val) (cur, h) h' ∧
      h'.IsList r (front ++ cur :: rest.filter (v · ≠ val)) ∧ h'.val = v
  | [], front, cur, h, hv, hl => by
    refine ⟨h, loopReturns_exit ?_, hl, hv⟩
    rw [removeElementsTurn, chain_next hl]
    exact returns_pure _
  | a :: rest, front, cur, h, hv, hl => by
    have hnext : h.next cur = some a := chain_next hl
    by_cases ha : v a = val
    · have hl' : (h.setNext (some cur) (h.next a)).IsList r (front ++ cur :: rest) := chain_unlink hl
      obtain ⟨h', hret, hlist, hval⟩ := loopReturns_removeElements rest front cur
        (h.setNext (some cur) (h.next a)) ((h.setNext_val _ _).trans hv) hl'
      refine ⟨h', loopReturns_next ?_ hret, ?_, hval⟩
      · rw [removeElementsTurn, hnext]
        simp only [hv, if_pos ha]
        exact returns_pure _
      · rwa [List.filter_cons_of_neg (by simpa using ha)]
    · rw [List.append_cons] at hl
      obtain ⟨h', hret, hlist, hval⟩ := loopReturns_removeElements rest (front ++ [cur]) a h hv hl
      refine ⟨h', loopReturns_next ?_ hret, ?_, hval⟩
      · rw [removeElementsTurn, hnext]
        simp only [hv, if_neg ha]
        exact returns_pure _
      · rw [List.filter_cons_of_pos (by simpa using ha), List.append_cons]
        exact hlist

variable (head val) in
/-- The first one with the value goes from the rest. -/
theorem loopReturns_deleteNode : ∀ (rest front : List α) (cur : α), h.IsList r (front ++ cur :: rest) →
    ∃ h', LoopReturns (deleteNodeTurn head val) (some cur, h) (head, h') ∧
      h'.IsList r (front ++ cur :: rest.eraseP (h.val · = val)) ∧ h'.val = h.val
  | [], front, cur, hl => by
    have hnext : h.next cur = none := chain_next hl
    refine ⟨h, loopReturns_exit ?_, hl, rfl⟩
    simp only [deleteNodeTurn, Heap.next?_some, hnext]
    exact returns_pure _
  | a :: rest, front, cur, hl => by
    have hnext : h.next cur = some a := chain_next hl
    by_cases ha : h.val a = val
    · refine ⟨h.setNext (some cur) (h.next a), loopReturns_exit ?_, ?_, h.setNext_val _ _⟩
      · simp only [deleteNodeTurn, Heap.next?_some, hnext, Heap.val?, Option.map_some, ha]
        exact returns_pure _
      · rw [List.eraseP_cons_of_pos (by simpa using ha)]
        exact chain_unlink hl
    · rw [List.append_cons] at hl
      obtain ⟨h', hret, hlist, hval⟩ := loopReturns_deleteNode rest (front ++ [cur]) a hl
      refine ⟨h', loopReturns_next ?_ hret, ?_, hval⟩
      · simp only [deleteNodeTurn, Heap.next?_some, hnext, Heap.val?, Option.map_some, Option.some.injEq,
          if_neg ha]
        exact returns_pure _
      · rw [List.eraseP_cons_of_neg (by simpa using ha), List.append_cons]
        exact hlist

/-- The nodes with another value, in their order. -/
theorem returns_removeElements {ns : List α} (hl : h.IsList head ns) {dummyNode : α} (hfresh : dummyNode ∉ ns)
    (val : ℤ) : ∃ head' h', Returns (removeElements h dummyNode head val) (head', h') ∧
      h'.IsList head' (ns.filter (h.val · ≠ val)) ∧ ∀ a, a ≠ dummyNode → h'.val a = h.val a := by
  set h₁ := (h.alloc dummyNode 0 none).setNext (some dummyNode) head with hh₁
  have hvals : ∀ a, a ≠ dummyNode → h₁.val a = h.val a := fun a ha => h.alloc_val_of_ne ha 0 none
  have hl₁ : h₁.IsList (some dummyNode) (dummyNode :: ns) := by
    refine ⟨rfl, ?_⟩
    rw [hh₁, Heap.setNext_self]
    refine (path_congr fun a ha => ?_).mpr hl
    have hne : a ≠ dummyNode := by
      rintro rfl
      exact hfresh ha
    rw [Heap.setNext_of_ne _ hne, Heap.alloc_next_of_ne _ hne]
  obtain ⟨h', hret, hlist, hval⟩ := loopReturns_removeElements val ns [] dummyNode h₁ rfl hl₁
  have hfilter : ns.filter (h₁.val · ≠ val) = ns.filter (h.val · ≠ val) :=
    List.filter_congr fun a ha => by rw [hvals a (by rintro rfl; exact hfresh ha)]
  rw [hfilter] at hlist
  exact ⟨h'.next dummyNode, h', returns_bind hret.returns (returns_pure _), hlist.2,
    fun a ha => by rw [hval, hvals a ha]⟩

/-- The nodes without the first one with the value. -/
theorem returns_deleteNode {ns : List α} (hl : h.IsList head ns) (val : ℤ) :
    ∃ head' h', Returns (deleteNode h head val) (head', h') ∧
      h'.IsList head' (ns.eraseP (h.val · = val)) ∧ h'.val = h.val := by
  cases ns with
  | nil =>
    obtain rfl : head = none := hl
    exact ⟨none, h, returns_pure _, rfl, rfl⟩
  | cons a ns =>
    obtain ⟨rfl, hl'⟩ := hl
    rw [deleteNode, if_neg (Option.some_ne_none a), Heap.val?, Option.map_some]
    by_cases ha : h.val a = val
    · rw [if_pos (congrArg some ha), List.eraseP_cons_of_pos (by simpa using ha)]
      exact ⟨h.next a, h, returns_pure _, hl', rfl⟩
    · rw [if_neg fun heq => ha (Option.some.inj heq), List.eraseP_cons_of_neg (by simpa using ha)]
      obtain ⟨h', hret, hlist, hval⟩ := loopReturns_deleteNode (some a) val ns [] a ⟨rfl, hl'⟩
      exact ⟨some a, h', hret.returns, hlist, hval⟩

end Loops

omit [DecidableEq α] in
/-- A value that occurs at most once goes in both ways with the same node. -/
theorem filter_eq_eraseP {p : α → Bool} {ns : List α} (h : ns.countP p ≤ 1) :
    ns.filter (fun a => !p a) = ns.eraseP p := by
  induction ns with
  | nil => rfl
  | cons a ns ih =>
    by_cases ha : p a = true
    · rw [List.countP_cons_of_pos ha] at h
      rw [List.filter_cons_of_neg (by simp [ha]), List.eraseP_cons_of_pos ha]
      apply List.filter_eq_self.mpr
      intro b hb
      have hnone := List.countP_eq_zero.mp (show ns.countP p = 0 by omega) b hb
      simpa using hnone
    · rw [List.countP_cons_of_neg ha] at h
      rw [List.filter_cons_of_pos (by simp [ha]), List.eraseP_cons_of_neg ha, ih h]

/-- `removeElements` leaves the nodes with another value, `deleteNode` all but the first one with the value,
in their order and with their values, and both leave the same list when there is at most one. -/
theorem removeElements_spec (h : Heap α) (head : Option α) (ns : List α) (dummyNode : α) (val : ℤ)
    (hl : h.IsList head ns) (hfresh : dummyNode ∉ ns) :
    ∃ head₁ h₁ head₂ h₂, Returns (removeElements h dummyNode head val) (head₁, h₁) ∧
      Returns (deleteNode h head val) (head₂, h₂) ∧
      h₁.IsList head₁ (ns.filter (h.val · ≠ val)) ∧ h₂.IsList head₂ (ns.eraseP (h.val · = val)) ∧
      (∀ a, a ≠ dummyNode → h₁.val a = h.val a) ∧ h₂.val = h.val ∧
      (ns.countP (h.val · = val) ≤ 1 → head₁ = head₂ ∧ ∀ L, h₁.IsList head₁ L ↔ h₂.IsList head₂ L) := by
  obtain ⟨head₁, h₁, hret₁, hl₁, hval₁⟩ := returns_removeElements hl hfresh val
  obtain ⟨head₂, h₂, hret₂, hl₂, hval₂⟩ := returns_deleteNode hl val
  refine ⟨head₁, h₁, head₂, h₂, hret₁, hret₂, hl₁, hl₂, hval₁, hval₂, ?_⟩
  intro hone
  have hsame : ns.filter (h.val · ≠ val) = ns.eraseP (h.val · = val) := by
    rw [← filter_eq_eraseP hone]
    exact List.filter_congr fun a _ => by simp
  rw [hsame] at hl₁
  refine ⟨(head_eq hl₁).trans (head_eq hl₂).symm, fun L => ⟨fun hL => ?_, fun hL => ?_⟩⟩
  · exact chain_unique hL hl₁ ▸ hl₂
  · exact chain_unique hL hl₂ ▸ hl₁

/-- Three nodes with the value 7, the first one linked to the second and third, and a fourth object. -/
theorem removeElements_spec_three :
    (⟨fun _ => 7, ![some 1, some 2, none, none]⟩ : Heap (Fin 4)).IsList (some 0) [0, 1, 2] ∧
    ∃ head₁ h₁ head₂ h₂,
      Returns (removeElements ⟨fun _ => 7, ![some 1, some 2, none, none]⟩ 3 (some (0 : Fin 4)) 7)
        (head₁, h₁) ∧
      Returns (deleteNode ⟨fun _ => 7, ![some 1, some 2, none, none]⟩ (some (0 : Fin 4)) 7) (head₂, h₂) ∧
      h₁.IsList head₁ [] ∧ h₂.IsList head₂ [1, 2] := by
  have hl : (⟨fun _ => 7, ![some 1, some 2, none, none]⟩ : Heap (Fin 4)).IsList (some 0) [0, 1, 2] :=
    ⟨rfl, rfl, rfl, rfl⟩
  obtain ⟨head₁, h₁, head₂, h₂, hret₁, hret₂, hl₁, hl₂, -⟩ :=
    removeElements_spec _ (some 0) [0, 1, 2] 3 7 hl (by decide)
  exact ⟨hl, head₁, h₁, head₂, h₂, hret₁, hret₂, hl₁, hl₂⟩

end QYInterview.RemoveElements
