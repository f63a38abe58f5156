import QYInterview.ListNode

/-!
# Relink — turning the links of a list round

`h.relink pre ns` is the heap in which every node of `ns` is linked to the one before it and the first
one to `pre`.  It is the purpose of every reversal routine: from the last node of `ns` the links go
through `ns` backwards (`path_relink`), no other link and no value is touched, and relinking the
reversed list gives the old heap back (`relink_reverse`).  A later link of a node outside `ns`
commutes with it, which is what the recursive routines need.
-/

namespace QYInterview.Heap

open Linked

variable {α : Type} [DecidableEq α]

/-- Every node of `ns` linked to the node before it, the first one to `pre`. -/
def relink (h : Heap α) (pre : Option α) : List α → Heap α
  | [] => h
  | a :: ns => (h.setNext (some a) pre).relink (some a) ns

/-- The reference to the last node of `ns`, or `pre` if there is none. -/
def lastOr (pre : Option α) : List α → Option α
  | [] => pre
  | a :: ns => lastOr (some a) ns

variable (h : Heap α) {pre s : Option α} {a : α} {ns : List α}

omit [DecidableEq α] in
theorem lastOr_eq_head?_reverse (pre : Option α) (ns : List α) :
    lastOr pre ns = ns.reverse.head?.or pre := by
  induction ns generalizing pre with
  | nil => rfl
  | cons a ns ih =>
    rw [lastOr, ih, List.reverse_cons]
    cases ns.reverse <;> rfl

omit [DecidableEq α] in
theorem lastOr_none (ns : List α) : lastOr none ns = ns.reverse.head? := by
  rw [lastOr_eq_head?_reverse, Option.or_none]

@[simp] theorem relink_val (pre : Option α) (ns : List α) : (h.relink pre ns).val = h.val := by
  induction ns generalizing h pre with
  | nil => rfl
  | cons a ns ih => rw [relink, ih, setNext_val]

theorem relink_next_of_not_mem (ha : a ∉ ns) (pre : Option α) :
    (h.relink pre ns).next a = h.next a := by
  induction ns generalizing h pre with
  | nil => rfl
  | cons b ns ih =>
    rw [List.mem_cons, not_or] at ha
    rw [relink, ih _ ha.2, h.setNext_of_ne ha.1]

/-- A link of a node outside `ns` may be written before or after. -/
theorem relink_setNext (ha : a ∉ ns) (pre s : Option α) :
    (h.setNext (some a) s).relink pre ns = (h.relink pre ns).setNext (some a) s := by
  induction ns generalizing h pre with
  | nil => rfl
  | cons b ns ih =>
    rw [List.mem_cons, not_or] at ha
    rw [relink, relink, h.setNext_comm ha.1, ih _ ha.2]

theorem relink_singleton (ha : h.next a = none) : h.relink none [a] = h := by
  show h.setNext (some a) none = h
  rw [← ha, h.setNext_same]

/-- The first node hung behind the second one, once the list from there is relinked. -/
theorem relink_hang {b : α} (hns : (a :: b :: ns).Nodup) (pre : Option α) :
    ((h.relink pre (b :: ns)).setNext (some b) (some a)).setNext (some a) pre =
      h.relink pre (a :: b :: ns) := by
  obtain ⟨ha, hns'⟩ := List.nodup_cons.mp hns
  obtain ⟨hb, -⟩ := List.nodup_cons.mp hns'
  have hab : a ≠ b := fun he => ha (he ▸ List.mem_cons_self)
  calc ((h.relink pre (b :: ns)).setNext (some b) (some a)).setNext (some a) pre
      = (((h.setNext (some b) pre).setNext (some b) (some a)).relink (some b) ns).setNext
          (some a) pre := by rw [relink, ← relink_setNext _ hb]
    _ = ((h.setNext (some b) (some a)).setNext (some a) pre).relink (some b) ns := by
      rw [setNext_setNext, relink_setNext _ fun h' => ha (List.mem_cons_of_mem _ h')]
    _ = h.relink pre (a :: b :: ns) := by
      rw [h.setNext_comm hab.symm]; rfl

/-- From the last node the links go backwards through `ns` to `pre`. -/
theorem path_relink (hns : ns.Nodup) (pre : Option α) :
    Path (h.relink pre ns).next (lastOr pre ns) ns.reverse pre := by
  induction ns generalizing h pre with
  | nil => rfl
  | cons a ns ih =>
    obtain ⟨ha, hns'⟩ := List.nodup_cons.mp hns
    rw [relink, lastOr, List.reverse_cons, path_append]
    refine ⟨some a, ih _ hns' (some a), rfl, ?_⟩
    show (Heap.relink _ _ _).next a = pre
    rw [relink_next_of_not_mem _ ha, setNext_self]

/-- Two heaps agree when their values do, and so do the links of the nodes of two equal paths and of
all other nodes. -/
theorem eq_of_path {h h' : Heap α} {r b : Option α} (hval : h.val = h'.val)
    (hp : Path h.next r ns b) (hp' : Path h'.next r ns b)
    (hout : ∀ a, a ∉ ns → h.next a = h'.next a) : h = h' := by
  refine Heap.ext hval (funext ?_)
  intro a
  by_cases ha : a ∈ ns
  · obtain ⟨l₁, l₂, rfl⟩ := List.append_of_mem ha
    obtain ⟨c, -, rfl, h2⟩ := path_append.mp hp
    obtain ⟨c', -, hc', h2'⟩ := path_append.mp hp'
    cases l₂ with
    | nil => exact h2.trans h2'.symm
    | cons x l₂ => exact h2.1.trans h2'.1.symm
  · exact hout a ha

/-- The reversed list has the same nodes, backwards. -/
theorem isList_relink {r : Option α} (hr : h.IsList r ns) :
    (h.relink none ns).IsList (lastOr none ns) ns.reverse :=
  h.path_relink (chain_nodup hr) none

/-- Relinking twice gives the old list and the old heap back. -/
theorem relink_reverse {r : Option α} (hr : h.IsList r ns) :
    (h.relink none ns).relink none ns.reverse = h ∧ lastOr none ns.reverse = r := by
  have hback := (h.relink none ns).isList_relink (h.isList_relink hr)
  rw [List.reverse_reverse] at hback
  have hlast : lastOr none ns.reverse = r := by
    rw [lastOr_none, List.reverse_reverse, ← head_eq hr]
  rw [hlast] at hback
  refine ⟨eq_of_path (by simp) hback hr fun a ha => ?_, hlast⟩
  rw [relink_next_of_not_mem _ (by simpa using ha), relink_next_of_not_mem _ ha]

end QYInterview.Heap
