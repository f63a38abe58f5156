import QYInterview.ListNode
import QYInterview.Lib.Pairing

/-!
# SwapPairs — neighbouring nodes exchanged

`SwapPairsController.swift`.  A turn of the loop stands at the last node of the part that is done, or at the
new node in front of the list, and writes three links: the two nodes behind it change places.
-/

namespace QYInterview.SwapPairs

open RunLogic Linked Pairing

variable {α : Type} [DecidableEq α]

/-! ## The code -/

/-- `while current?.next != nil && current?.next?.next != nil` -/
def swapPairsTurn : Option α × Heap α → Prog (Turn (Option α × Heap α) (Heap α))
  | (current, h) =>
    if h.next? current ≠ none ∧ h.next? (h.next? current) ≠ none then
      let temp1 := h.next? current
      let temp2 := h.next? (h.next? (h.next? current))
      let h := h.setNext current (h.next? (h.next? current))
      -- `current?.next?.next = temp1`, then `current?.next?.next?.next = temp2`
      let h := h.setNext (h.next? current) temp1
      let h := h.setNext (h.next? (h.next? current)) temp2
      pure (.next (h.next? (h.next? current), h))
    else pure (.exit h)

/-- The new head and the heap; `dummyHead` is the new node. -/
def swapPairs (h : Heap α) (dummyHead : α) (head : Option α) : Prog (Option α × Heap α) :=
  if head = none ∨ h.next? head = none then pure (head, h)
  else do
    let h := h.alloc dummyHead (-1) head
    let h ← loop swapPairsTurn (some dummyHead, h)
    return (h.next dummyHead, h)

/-! ## A turn -/

section Turn

variable {h : Heap α} {r : Option α} {front rest : List α} {cur x y a : α}

/-- The three links of a turn. -/
def swapNext (h : Heap α) (cur x y : α) : Heap α :=
  ((h.setNext (some cur) (some y)).setNext (some y) (some x)).setNext (some x) (h.next y)

theorem swapNext_val (h : Heap α) (cur x y : α) : (swapNext h cur x y).val = h.val := by
  simp [swapNext]

theorem swapNext_next_of_ne (hcur : a ≠ cur) (hx : a ≠ x) (hy : a ≠ y) :
    (swapNext h cur x y).next a = h.next a := by
  rw [swapNext, Heap.setNext_of_ne _ hx, Heap.setNext_of_ne _ hy, Heap.setNext_of_ne _ hcur]

section Links

variable (hcx : cur ≠ x) (hcy : cur ≠ y) (hxy : x ≠ y)

include hcx hcy hxy

theorem swapNext_next : (swapNext h cur x y).next cur = some y ∧ (swapNext h cur x y).next y = some x ∧
    (swapNext h cur x y).next x = h.next y := by
  refine ⟨?_, ?_, Heap.setNext_self _ _ _⟩
  · rw [swapNext, Heap.setNext_of_ne _ hcx, Heap.setNext_of_ne _ hcy, Heap.setNext_self]
  · rw [swapNext, Heap.setNext_of_ne _ hxy.symm, Heap.setNext_self]

theorem swapPairsTurn_swap (hx : h.next cur = some x) (hy : h.next x = some y) :
    swapPairsTurn (some cur, h) = pure (.next (some x, swapNext h cur x y)) := by
  obtain ⟨h1, h2, -⟩ := swapNext_next (h := h) hcx hcy hxy
  have hlink : ((h.setNext (some cur) (some y)).setNext (some y) (some x)).next cur = some y := by
    rw [Heap.setNext_of_ne _ hcy, Heap.setNext_self]
  have hswap : ((h.setNext (some cur) (some y)).setNext (some y) (some x)).setNext (some x) (h.next y) =
    swapNext h cur x y :=
    rfl
  simp only [swapPairsTurn, Heap.next?_some, hx, hy, Heap.setNext_self, hlink, hswap, h1, h2]
  rw [if_pos (by simp)]

end Links

theorem isList_swapNext (hl : h.IsList r (front ++ cur :: x :: y :: rest)) :
    (swapNext h cur x y).IsList r (front ++ cur :: y :: x :: rest) := by
  obtain ⟨-, hnodup, hdisj⟩ := List.nodup_append.mp (chain_nodup hl)
  obtain ⟨hcur, hnodup⟩ := List.nodup_cons.mp hnodup
  obtain ⟨hx, hnodup⟩ := List.nodup_cons.mp hnodup
  obtain ⟨hy, -⟩ := List.nodup_cons.mp hnodup
  simp only [List.mem_cons, not_or] at hcur hx
  obtain ⟨h1, h2, h3⟩ := swapNext_next (h := h) hcur.1 hcur.2.1 hx.1
  obtain ⟨c, hfront, rfl, -, -, hrest⟩ := path_append.mp hl
  refine path_append.mpr ⟨some cur, ?_, rfl, h1, h2, ?_⟩
  · refine (path_congr fun q hq => swapNext_next_of_ne ?_ ?_ ?_).mpr hfront
    · exact hdisj q hq cur (by simp)
    · exact hdisj q hq x (by simp)
    · exact hdisj q hq y (by simp)
  · rw [h3]
    refine (path_congr fun q hq => swapNext_next_of_ne ?_ ?_ ?_).mpr hrest
    · rintro rfl
      exact hcur.2.2 hq
    · rintro rfl
      exact hx.2 hq
    · rintro rfl
      exact hy hq

end Turn

/-! ## The list -/

section List

variable {h : Heap α} {r head : Option α} {ns : List α} {dummyHead : α}

/-- Behind `cur` the rest of the list is exchanged in pairs. -/
theorem exists_swapPairs : ∀ (rest front : List α) (cur : α) (h : Heap α), h.IsList r (front ++ cur :: rest) →
    ∃ h', LoopReturns swapPairsTurn (some cur, h) h' ∧ h'.IsList r (front ++ cur :: exchange rest) ∧
      h'.val = h.val ∧
      ∀ a, a ∉ front ++ cur :: rest → h'.next a = h.next a
  | [], front, cur, h, hl => by
    have hnext : h.next cur = none := chain_next hl
    refine ⟨h, loopReturns_exit ?_, hl, rfl, fun _ _ => rfl⟩
    simp only [swapPairsTurn, Heap.next?_some, hnext]
    rw [if_neg (by simp)]
    exact returns_pure _
  | [x], front, cur, h, hl => by
    have hcur : h.next cur = some x := chain_next hl
    rw [List.append_cons] at hl
    have hx : h.next x = none := chain_next hl
    rw [← List.append_cons] at hl
    refine ⟨h, loopReturns_exit ?_, hl, rfl, fun _ _ => rfl⟩
    simp only [swapPairsTurn, Heap.next?_some, hcur, hx]
    rw [if_neg (by simp)]
    exact returns_pure _
  | x :: y :: rest, front, cur, h, hl => by
    have hcur : h.next cur = some x := chain_next hl
    have hl₁ := hl
    rw [List.append_cons] at hl₁
    have hx : h.next x = some y := chain_next hl₁
    obtain ⟨hne, hnodup⟩ := List.nodup_cons.mp (List.nodup_append.mp (chain_nodup hl)).2.1
    have hxy := (List.nodup_cons.mp hnodup).1
    simp only [List.mem_cons, not_or] at hne hxy
    have hl' := isList_swapNext hl
    rw [List.append_cons, List.append_cons] at hl'
    obtain ⟨h', hloop, hlist, hval, hout⟩ := exists_swapPairs rest (front ++ [cur] ++ [y]) x _ hl'
    rw [← List.append_cons, ← List.append_cons] at hlist
    refine ⟨h', loopReturns_next ?_ hloop, hlist, hval.trans (swapNext_val h cur x y), fun a ha => ?_⟩
    · rw [swapPairsTurn_swap hne.1 hne.2.1 hxy.1 hcur hx]
      exact returns_pure _
    · simp only [List.mem_append, List.mem_cons, not_or] at ha
      rw [hout a (by simp [ha]), swapNext_next_of_ne ha.2.1 ha.2.2.1 ha.2.2.2.1]

theorem returns_swapPairs (hl : h.IsList head ns) (hfresh : dummyHead ∉ ns) :
    ∃ head' h', Returns (swapPairs h dummyHead head) (head', h') ∧ h'.IsList head' (exchange ns) ∧
      (∀ a, a ≠ dummyHead → h'.val a = h.val a) ∧ ∀ a, a ∉ ns → a ≠ dummyHead → h'.next a = h.next a := by
  by_cases hshort : head = none ∨ h.next? head = none
  · have hsame : exchange ns = ns := by
      cases ns with
      | nil => rfl
      | cons x ns =>
        obtain ⟨rfl, hrest⟩ := hl
        have hnil : h.next x = none := hshort.resolve_left (by simp)
        rw [hnil] at hrest
        cases ns with
        | nil => rfl
        | cons y ns => exact absurd hrest.1 (by simp)
    refine ⟨head, h, ?_, hsame.symm ▸ hl, fun _ _ => rfl, fun _ _ _ => rfl⟩
    rw [swapPairs, if_pos hshort]
    exact returns_pure _
  · have hl₁ := h.isList_alloc hfresh hl (-1)
    obtain ⟨h', hloop, hlist, hval, hout⟩ :=
      exists_swapPairs ns [] dummyHead (h.alloc dummyHead (-1) head) hl₁
    refine ⟨h'.next dummyHead, h', ?_, hlist.2, fun a ha => ?_, fun a ha hne => ?_⟩
    · rw [swapPairs, if_neg hshort]
      exact returns_bind hloop.returns (returns_pure _)
    · rw [hval, h.alloc_val_of_ne ha]
    · rw [hout a (by simp [ha, hne]), h.alloc_next_of_ne hne]

end List

/-- The nodes at the positions `2 * i` and `2 * i + 1` change places, a last one without a partner stays, no
value changes, and a second call gives the old list back. -/
theorem swapPairs_spec (h : Heap α) (head : Option α) (ns : List α) (dummy₁ dummy₂ : α)
    (hl : h.IsList head ns) (hfresh₁ : dummy₁ ∉ ns) (hfresh₂ : dummy₂ ∉ ns) :
    ∃ head' h' ns' h'', Returns (swapPairs h dummy₁ head) (head', h') ∧ h'.IsList head' ns' ∧ ns'.Perm ns ∧
      (∀ i, 2 * i + 1 < ns.length → ns'[2 * i]? = ns[2 * i + 1]? ∧ ns'[2 * i + 1]? = ns[2 * i]?) ∧
      (∀ i, 2 * i + 1 = ns.length → ns'[2 * i]? = ns[2 * i]?) ∧
      (∀ a, a ≠ dummy₁ → h'.val a = h.val a) ∧ (∀ a, a ∉ ns → a ≠ dummy₁ → h'.next a = h.next a) ∧
      Returns (swapPairs h' dummy₂ head') (head, h'') ∧ h''.IsList head ns ∧
      (∀ a, a ≠ dummy₁ → a ≠ dummy₂ → h''.val a = h.val a) ∧
      ∀ a, a ≠ dummy₁ → a ≠ dummy₂ → h''.next a = h.next a := by
  obtain ⟨head', h', hret, hl', hval, hout⟩ := returns_swapPairs hl hfresh₁
  have hperm := exchange_perm ns
  obtain ⟨head₂, h'', hret₂, hl₂, hval₂, hout₂⟩ :=
    returns_swapPairs hl' (fun hmem => hfresh₂ (hperm.mem_iff.mp hmem))
  rw [exchange_exchange] at hl₂
  obtain rfl : head₂ = head := (head_eq hl₂).trans (head_eq hl).symm
  refine ⟨head', h', exchange ns, h'', hret, hl', hperm, getElem?_exchange ns, getElem?_exchange_last ns,
    hval, hout, hret₂, hl₂, fun a h1 h2 => (hval₂ a h2).trans (hval a h1), fun a h1 h2 => ?_⟩
  by_cases ha : a ∈ ns
  · obtain ⟨front, back, rfl⟩ := List.append_of_mem ha
    rw [chain_next hl₂, chain_next hl]
  · rw [hout₂ a (fun hmem => ha (hperm.mem_iff.mp hmem)) h2, hout a ha h1]

/-- Three linked nodes and two objects outside the list. -/
theorem swapPairs_spec_three : ∃ head' h' ns' h'',
    Returns (swapPairs ⟨fun _ => 7, ![some 1, some 2, none, none, some 0]⟩ 3 (some (0 : Fin 5))) (head', h') ∧
    h'.IsList head' ns' ∧ ns'.Perm [0, 1, 2] ∧
    (∀ i, 2 * i + 1 < [(0 : Fin 5), 1, 2].length →
      ns'[2 * i]? = [(0 : Fin 5), 1, 2][2 * i + 1]? ∧ ns'[2 * i + 1]? = [(0 : Fin 5), 1, 2][2 * i]?) ∧
    (∀ i, 2 * i + 1 = [(0 : Fin 5), 1, 2].length → ns'[2 * i]? = [(0 : Fin 5), 1, 2][2 * i]?) ∧
    (∀ a, a ≠ 3 → h'.val a = 7) ∧
    (∀ a, a ∉ [(0 : Fin 5), 1, 2] → a ≠ 3 → h'.next a = ![some 1, some 2, none, none, some 0] a) ∧
    Returns (swapPairs h' 4 head') (some 0, h'') ∧ h''.IsList (some 0) [0, 1, 2] ∧
    (∀ a, a ≠ 3 → a ≠ 4 → h''.val a = 7) ∧
    ∀ a, a ≠ 3 → a ≠ 4 → h''.next a = ![some 1, some 2, none, none, some 0] a :=
  swapPairs_spec ⟨fun _ => 7, ![some 1, some 2, none, none, some 0]⟩ (some 0)
    [0, 1, 2] 3 4 ⟨rfl, rfl, rfl, rfl⟩
    (by decide) (by decide)

end QYInterview.SwapPairs
