import QYInterview.Lib.RunLogic
import QYInterview.Lib.Linked

/-!
# ListNode — the heap of list nodes (`ListNodeHelper.swift`)

`α` is the type of the `ListNode` objects: a reference is an `Option α`, so it is nil or names an
object, and `==` (which the source defines as `===`) is equality of references.  A method that takes
a list takes the heap and gives it back with its result.
-/

namespace QYInterview

open RunLogic Linked

/-- The two fields of every `ListNode` object. -/
structure Heap (α : Type) where
  val : α → ℤ
  next : α → Option α

namespace Heap

variable {α : Type}

/-- `r?.next` -/
def next? (h : Heap α) (r : Option α) : Option α := move h.next r

/-- `r?.val` -/
def val? (h : Heap α) (r : Option α) : Option ℤ := r.map h.val

/-- `r?.next = s`; nothing happens when `r` is nil. -/
def setNext [DecidableEq α] (h : Heap α) (r s : Option α) : Heap α :=
  match r with
  | none => h
  | some a => { h with next := Function.update h.next a s }

/-- `a.val = v` -/
def setVal [DecidableEq α] (h : Heap α) (a : α) (v : ℤ) : Heap α :=
  { h with val := Function.update h.val a v }

/-- `ListNode(val, next)`, for the new object `a`. -/
def alloc [DecidableEq α] (h : Heap α) (a : α) (val : ℤ) (next : Option α) : Heap α :=
  ⟨Function.update h.val a val, Function.update h.next a next⟩

@[simp] theorem next?_none (h : Heap α) : h.next? none = none := rfl

@[simp] theorem next?_some (h : Heap α) (a : α) : h.next? (some a) = h.next a := rfl

theorem next?_walk (h : Heap α) (r : Option α) (n : ℕ) :
    h.next? (walk h.next r n) = walk h.next r (n + 1) := (walk_succ r n).symm

/-- The list from `r` consists of the nodes `ns` and ends in nil. -/
abbrev IsList (h : Heap α) (r : Option α) (ns : List α) : Prop := Chain h.next r ns

@[ext] theorem ext {h h' : Heap α} (hval : h.val = h'.val) (hnext : h.next = h'.next) : h = h' := by
  cases h
  cases h'
  simp_all

section SetNext

variable [DecidableEq α] (h : Heap α)

@[simp] theorem setNext_val (r s : Option α) : (h.setNext r s).val = h.val := by
  cases r <;> rfl

@[simp] theorem setNext_self (a : α) (s : Option α) : (h.setNext (some a) s).next a = s :=
  Function.update_self _ _ _

theorem setNext_of_ne {a b : α} (hne : b ≠ a) (s : Option α) :
    (h.setNext (some a) s).next b = h.next b :=
  Function.update_of_ne hne _ _

theorem setNext_comm {a b : α} (hne : a ≠ b) (s t : Option α) :
    (h.setNext (some a) s).setNext (some b) t = (h.setNext (some b) t).setNext (some a) s :=
  ext rfl (Function.update_comm hne _ _ _)

theorem setNext_setNext (a : α) (s t : Option α) :
    (h.setNext (some a) s).setNext (some a) t = h.setNext (some a) t :=
  ext rfl (Function.update_idem _ _ _)

theorem setNext_same (a : α) : h.setNext (some a) (h.next a) = h :=
  ext rfl (Function.update_eq_self _ _)

@[simp] theorem alloc_next_self (a : α) (v : ℤ) (r : Option α) : (h.alloc a v r).next a = r :=
  Function.update_self _ _ _

theorem alloc_val_of_ne {a b : α} (hne : b ≠ a) (v : ℤ) (r : Option α) :
    (h.alloc a v r).val b = h.val b :=
  Function.update_of_ne hne _ _

theorem alloc_next_of_ne {a b : α} (hne : b ≠ a) (v : ℤ) (r : Option α) :
    (h.alloc a v r).next b = h.next b :=
  Function.update_of_ne hne _ _

/-- A new node in front of a list. -/
theorem isList_alloc {r : Option α} {a : α} {ns : List α} (ha : a ∉ ns) (hr : h.IsList r ns) (v : ℤ) :
    (h.alloc a v r).IsList (some a) (a :: ns) := by
  refine ⟨rfl, ?_⟩
  rw [alloc_next_self]
  exact (path_congr fun q hq => h.alloc_next_of_ne (by rintro rfl; exact ha hq) v r).mpr hr

/-- Writing the link of a node outside a list leaves the list as it is. -/
theorem isList_setNext {r s : Option α} {a : α} {ns : List α} (ha : a ∉ ns) :
    (h.setNext (some a) s).IsList r ns ↔ h.IsList r ns :=
  path_congr fun _ hq => h.setNext_of_ne (by rintro rfl; exact ha hq) s

end SetNext

/-! ### `ListNode.length` -/

/-- `while head != nil { count += 1; head = head?.next }` -/
def lengthTurn (h : Heap α) : Option α × ℤ → Prog (Turn (Option α × ℤ) ℤ)
  | (head, count) =>
    if head.isSome then pure (.next (h.next? head, count + 1))
    else pure (.exit count)

/-- `ListNode.length` of the node `self`. -/
def length (h : Heap α) (self : α) : Prog ℤ := loop h.lengthTurn (some self, 0)

theorem loopReturns_length (h : Heap α) : ∀ (ns : List α) (r : Option α) (count : ℤ),
    h.IsList r ns → LoopReturns h.lengthTurn (r, count) (count + ns.length)
  | [], r, count, hr => by
    have hr : r = none := hr
    subst hr
    simpa using loopReturns_exit (returns_pure _)
  | a :: ns, r, count, hr => by
    obtain ⟨rfl, hr'⟩ := hr
    have ih := loopReturns_length h ns (h.next a) (count + 1) hr'
    rw [show count + ((a :: ns).length : ℤ) = count + 1 + ns.length by simp; ring]
    exact loopReturns_next (returns_pure _) ih

/-- `length` counts the nodes. -/
theorem returns_length (h : Heap α) {a : α} {ns : List α} (hr : h.IsList (some a) ns) :
    Returns (h.length a) (ns.length : ℤ) := by
  have := (loopReturns_length h ns (some a) 0 hr).returns
  rwa [zero_add] at this

end Heap

end QYInterview
