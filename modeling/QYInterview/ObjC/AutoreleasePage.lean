import Mathlib.Data.Multiset.Replicate
import Mathlib.Algebra.Order.Group.Multiset
import Mathlib.Algebra.BigOperators.Group.Multiset.Basic

/-!
# ObjC.AutoreleasePage — the entries of an autorelease pool

The pool of a thread is a stack of slots: an object with the number of times it is to be released, or
`POOL_BOUNDARY`. `add` puts an object on a page of the stack; it may raise the count of one of the four
hottest entries instead of using a slot.  `pools` reads the stack as the pools that are open, each with the
objects it holds, and `boundaries` as the heights at which they begin.  Whatever way `add` takes, the object
joins the innermost pool and nothing else changes (`pools_add`, `boundaries_add`).
-/

namespace QYInterview.ObjC.AutoreleasePool

universe u

/-- `AutoreleasePoolEntry::maxCount` -/
def maxCount : ℕ := 65535

/-- `AutoreleasePoolEntry`: an object with the number of releases beyond the first one. -/
structure AutoreleasePoolEntry (ω : Type u) where
  ptr : ω
  count : ℕ
  count_le : count ≤ maxCount
  deriving DecidableEq, Repr

/-- What a slot of a page holds; `POOL_BOUNDARY` is `none`. -/
abbrev Slot (ω : Type u) := Option (AutoreleasePoolEntry ω)

/-- The environment variables that decide how entries are coalesced. -/
structure Coalescing where
  disableAutoreleaseCoalescing : Bool
  disableAutoreleaseCoalescingLRU : Bool
  deriving DecidableEq, Repr

variable {ω : Type u}

/-- `entry->count++`, which has to fit its 16 bits. -/
def AutoreleasePoolEntry.raise (entry : AutoreleasePoolEntry ω) (h : entry.count < maxCount) :
    AutoreleasePoolEntry ω :=
  ⟨entry.ptr, entry.count + 1, h⟩

/-- An entry for one release. -/
def AutoreleasePoolEntry.single (obj : ω) : AutoreleasePoolEntry ω := ⟨obj, 0, Nat.zero_le _⟩

/-! ## The code

The slots of a page are listed from the hottest one to `begin()`. -/

section Code

variable [DecidableEq ω] (mode : Coalescing)

/-- The entry for `obj` among the `n` hottest ones, raised, and the others as `memmove` leaves them.  The
search stops at a boundary, and the first slot of the page is not tried. -/
def lookBack (obj : ω) : ℕ → List (Slot ω) → Option (AutoreleasePoolEntry ω × List (Slot ω))
  | n + 1, some entry :: below :: rest =>
    if h : entry.ptr = obj ∧ entry.count < maxCount then some (entry.raise h.2, below :: rest)
    else (lookBack obj n (below :: rest)).map fun (found, others) => (found, some entry :: others)
  | _, _ => none

/-- The hottest entry, raised if it is for `obj`. -/
def raiseTop (obj : ω) : List (Slot ω) → Option (List (Slot ω))
  | some entry :: rest =>
    if h : entry.ptr = obj ∧ entry.count < maxCount then some (some (entry.raise h.2) :: rest) else none
  | _ => none

/-- `add` -/
def add (obj : Option ω) (slots : List (Slot ω)) : List (Slot ω) :=
  match obj with
  | none => none :: slots
  | some obj =>
    let raised :=
      if !mode.disableAutoreleaseCoalescing || !mode.disableAutoreleaseCoalescingLRU then
        if !mode.disableAutoreleaseCoalescingLRU then
          (lookBack obj 4 slots).map fun (found, others) => some found :: others
        else raiseTop obj slots
      else none
    raised.getD (some (.single obj) :: slots)

end Code

/-! ## The pools of a stack -/

/-- What an entry stands for. -/
def AutoreleasePoolEntry.objects (entry : AutoreleasePoolEntry ω) : Multiset ω :=
  Multiset.replicate (entry.count + 1) entry.ptr

@[simp] theorem objects_raise (entry : AutoreleasePoolEntry ω) (h : entry.count < maxCount) :
    (entry.raise h).objects = entry.ptr ::ₘ entry.objects := Multiset.replicate_succ _ _

@[simp] theorem objects_single (obj : ω) : (AutoreleasePoolEntry.single obj).objects = {obj} :=
  Multiset.replicate_one _

/-- All the objects of a stack. -/
def contents : List (Slot ω) → Multiset ω
  | [] => 0
  | none :: s => contents s
  | some entry :: s => entry.objects + contents s

/-- The objects of every pool, the innermost one first.  The last is for the objects that are in no pool. -/
def pools : List (Slot ω) → List (Multiset ω)
  | [] => [0]
  | none :: s => 0 :: pools s
  | some entry :: s => (pools s).modifyHead (entry.objects + ·)

/-- The heights of the boundaries, the innermost one first. -/
def boundaries : List (Slot ω) → List ℕ
  | [] => []
  | none :: s => s.length :: boundaries s
  | some _ :: s => boundaries s

theorem contents_append (s t : List (Slot ω)) : contents (s ++ t) = contents s + contents t := by
  induction s with
  | nil => exact (zero_add _).symm
  | cons x s ih =>
    cases x with
    | none => exact ih
    | some entry =>
      show entry.objects + contents (s ++ t) = entry.objects + contents s + contents t
      rw [ih, add_assoc]

theorem pools_ne_nil (s : List (Slot ω)) : pools s ≠ [] := by
  induction s with
  | nil => simp [pools]
  | cons x s ih =>
    cases x with
    | none => simp [pools]
    | some entry => simpa [pools] using ih

theorem length_pools (s : List (Slot ω)) : (pools s).length = (boundaries s).length + 1 := by
  induction s with
  | nil => rfl
  | cons x s ih =>
    cases x with
    | none => simp [pools, boundaries, ih]
    | some entry => simp [pools, boundaries, ih]

theorem sum_pools (s : List (Slot ω)) : (pools s).sum = contents s := by
  induction s with
  | nil => simp [pools, contents]
  | cons x s ih =>
    cases x with
    | none => simp [pools, contents, ih]
    | some entry =>
      obtain ⟨p, ps, hp⟩ := List.exists_cons_of_ne_nil (pools_ne_nil s)
      rw [hp, List.sum_cons] at ih
      simp [pools, contents, hp, ← ih, add_assoc]

/-- A boundary separates the pools above it from those below. -/
theorem pools_append (s t : List (Slot ω)) : pools (s ++ none :: t) = pools s ++ pools t := by
  induction s with
  | nil => rfl
  | cons x s ih =>
    cases x with
    | none => simp [pools, ih]
    | some entry =>
      obtain ⟨p, ps, hp⟩ := List.exists_cons_of_ne_nil (pools_ne_nil s)
      simp [pools, ih, hp]

theorem lt_of_mem_boundaries {s : List (Slot ω)} {h : ℕ} (hh : h ∈ boundaries s) : h < s.length := by
  induction s with
  | nil => simp [boundaries] at hh
  | cons x s ih =>
    cases x with
    | none =>
      rcases List.mem_cons.mp hh with rfl | hh
      · simp
      · exact (ih hh).trans (by simp)
    | some entry => exact (ih hh).trans (by simp)

/-- Where a pool begins, and what is above and below. -/
theorem exists_of_boundaries {s : List (Slot ω)} {k h : ℕ} (hk : (boundaries s)[k]? = some h) :
    ∃ a b, s = a ++ none :: b ∧ b.length = h ∧ (boundaries a).length = k ∧
      boundaries b = (boundaries s).drop (k + 1) := by
  induction s generalizing k with
  | nil => simp [boundaries] at hk
  | cons x s ih =>
    cases x with
    | none =>
      cases k with
      | zero =>
        refine ⟨[], s, rfl, ?_, rfl, rfl⟩
        simpa [boundaries] using hk
      | succ k =>
        obtain ⟨a, b, hs, hb, ha, hdrop⟩ := ih (k := k) (by simpa [boundaries] using hk)
        refine ⟨none :: a, b, by rw [hs]; rfl, hb, ?_, ?_⟩
        · simp [boundaries, ha]
        · simpa [boundaries] using hdrop
    | some entry =>
      obtain ⟨a, b, hs, hb, ha, hdrop⟩ := ih (k := k) hk
      exact ⟨some entry :: a, b, by rw [hs]; rfl, hb, ha, hdrop⟩

/-! ## One more object -/

/-- The stack after an object is added: a new entry, or one above the last boundary
that is raised and moved up. -/
inductive Added (obj : ω) : List (Slot ω) → List (Slot ω) → Prop
  | entry (s : List (Slot ω)) : Added obj s (some (.single obj) :: s)
  | raised {x : List (Slot ω)} (s : List (Slot ω)) {entry : AutoreleasePoolEntry ω} (hx : none ∉ x)
      (hptr : entry.ptr = obj) (hcount : entry.count < maxCount) :
      Added obj (x ++ some entry :: s) (some (entry.raise hcount) :: x ++ s)

variable {obj : ω} {s t : List (Slot ω)}

theorem Added.append (h : Added obj s t) (b : List (Slot ω)) : Added obj (s ++ b) (t ++ b) := by
  cases h with
  | entry => exact Added.entry _
  | raised s hx hptr hcount =>
    rw [List.append_assoc, List.append_assoc]
    exact Added.raised _ hx hptr hcount

theorem length_le_of_added (h : Added obj s t) : s.length ≤ t.length ∧ t.length ≤ s.length + 1 := by
  cases h with
  | entry => simp
  | raised s hx hptr hcount =>
    simp only [List.length_append, List.length_cons]
    omega

theorem contents_of_added (h : Added obj s t) : contents t = obj ::ₘ contents s := by
  cases h with
  | entry => simp [contents]
  | raised s hx hptr hcount =>
    rw [List.cons_append, contents_append]
    simp only [contents, objects_raise, hptr, contents_append, Multiset.cons_add]
    rw [← add_assoc, ← add_assoc, add_comm (contents _)]

theorem pools_append_of_notMem {x : List (Slot ω)} (s : List (Slot ω)) (hx : none ∉ x) :
    pools (x ++ s) = (pools s).modifyHead (contents x + ·) := by
  induction x with
  | nil =>
    obtain ⟨p, ps, hp⟩ := List.exists_cons_of_ne_nil (pools_ne_nil s)
    simp [contents, hp]
  | cons y x ih =>
    cases y with
    | none => simp at hx
    | some entry =>
      have hx' : none ∉ x := fun hmem => hx (List.mem_cons_of_mem _ hmem)
      simp [pools, contents, ih hx', Function.comp_def, add_assoc]

theorem boundaries_append_of_notMem {x : List (Slot ω)} (s : List (Slot ω)) (hx : none ∉ x) :
    boundaries (x ++ s) = boundaries s := by
  induction x with
  | nil => rfl
  | cons y x ih =>
    cases y with
    | none => simp at hx
    | some entry => exact ih fun hmem => hx (List.mem_cons_of_mem _ hmem)

/-- The object joins the innermost pool. -/
theorem pools_of_added (h : Added obj s t) : pools t = (pools s).modifyHead (obj ::ₘ ·) := by
  cases h with
  | entry => simp [pools]
  | @raised x s entry hx hptr hcount =>
    have hx' : none ∉ some (entry.raise hcount) :: x := by simpa using hx
    have hx'' : none ∉ x ++ [some entry] := by simpa using hx
    rw [pools_append_of_notMem s hx', List.append_cons, pools_append_of_notMem s hx'']
    simp only [List.modifyHead_modifyHead, contents_append, contents, objects_raise, hptr, add_zero,
      Function.comp_def, Multiset.cons_add, add_comm (contents x)]

theorem boundaries_of_added (h : Added obj s t) : boundaries t = boundaries s := by
  cases h with
  | entry => rfl
  | @raised x s entry hx hptr hcount =>
    have hx' : none ∉ some (entry.raise hcount) :: x := by simpa using hx
    have hx'' : none ∉ x ++ [some entry] := by simpa using hx
    rw [boundaries_append_of_notMem s hx', List.append_cons, boundaries_append_of_notMem s hx'']

/-- The stack after `add` of an object or of a boundary. -/
def Pushed (slot : Option ω) (s t : List (Slot ω)) : Prop :=
  match slot with
  | none => t = none :: s
  | some obj => Added obj s t

theorem Pushed.append {slot : Option ω} (h : Pushed slot s t) (b : List (Slot ω)) :
    Pushed slot (s ++ b) (t ++ b) := by
  cases slot with
  | none =>
    obtain rfl : t = none :: s := h
    rfl
  | some obj => exact Added.append h b

/-- What is at the bottom of a stack stays when objects are added above: there is nothing,
or a boundary is above. -/
def Sealed (a b : List (Slot ω)) : Prop := b = [] ∨ ∃ a', a = a' ++ [none]

theorem Sealed.added {a b : List (Slot ω)} (hseal : Sealed a b) (h : Added obj (a ++ b) t) :
    ∃ a', t = a' ++ b ∧ Sealed a' b ∧ contents a' = obj ::ₘ contents a := by
  rcases hseal with rfl | ⟨a, rfl⟩
  · rw [List.append_nil] at h
    exact ⟨t, (List.append_nil t).symm, Or.inl rfl, contents_of_added h⟩
  · generalize hs : a ++ [none] ++ b = s at h
    cases h with
    | entry =>
      exact ⟨some (.single obj) :: (a ++ [none]), by rw [← hs]; rfl, Or.inr ⟨some (.single obj) :: a, rfl⟩,
        contents_of_added (Added.entry _)⟩
    | @raised x s entry hx hptr hcount =>
      -- the boundary is not among the entries that move, so the one that is raised lies above it
      obtain ⟨y, ha, hs'⟩ : ∃ y, a = x ++ some entry :: y ∧ s = y ++ [none] ++ b := by
        rw [List.append_assoc, List.append_eq_append_iff] at hs
        rcases hs with ⟨z, hxz, hz⟩ | ⟨z, hxz, hz⟩
        · cases z with
          | nil => simp at hz
          | cons u z =>
            obtain rfl : u = none := by simpa using congrArg List.head? hz.symm
            exact absurd (by rw [hxz]; simp) hx
        · cases z with
          | nil => simp at hz
          | cons u z =>
            rw [List.cons_append, List.cons.injEq] at hz
            obtain ⟨rfl, rfl⟩ := hz
            exact ⟨z, hxz, (List.append_assoc z [none] b).symm⟩
      subst ha hs'
      have hadd : Added obj (x ++ some entry :: (y ++ [none]))
        (some (entry.raise hcount) :: x ++ (y ++ [none])) :=
        Added.raised _ hx hptr hcount
      refine ⟨some (entry.raise hcount) :: x ++ (y ++ [none]), by simp,
        Or.inr ⟨some (entry.raise hcount) :: x ++ y, ?_⟩,
        ?_⟩
      · simp
      · rw [contents_of_added hadd]
        simp

section Add

variable [DecidableEq ω]

theorem lookBack_eq_some {n : ℕ} {slots others : List (Slot ω)} {found : AutoreleasePoolEntry ω}
    (h : lookBack obj n slots = some (found, others)) :
    ∃ (x s : List (Slot ω)) (entry : AutoreleasePoolEntry ω) (hcount : entry.count < maxCount),
      slots = x ++ some entry :: s ∧ none ∉ x ∧ entry.ptr = obj ∧ found = entry.raise hcount ∧
      others = x ++ s := by
  induction n, slots using lookBack.induct obj generalizing others found with
  | case1 n entry below rest hentry =>
    rw [lookBack, dif_pos hentry] at h
    obtain ⟨rfl, rfl⟩ := Prod.mk.inj (Option.some.inj h)
    exact ⟨[], below :: rest, entry, hentry.2, rfl, by simp, hentry.1, rfl, rfl⟩
  | case2 n entry below rest hentry ih =>
    rw [lookBack, dif_neg hentry, Option.map_eq_some_iff] at h
    obtain ⟨⟨found', others'⟩, hfound, hpair⟩ := h
    obtain ⟨rfl, rfl⟩ := Prod.mk.inj hpair
    obtain ⟨x, s, e, hcount, hslots, hx, hptr, hf, hothers⟩ := ih hfound
    refine ⟨some entry :: x, s, e, hcount, ?_, ?_, hptr, hf, ?_⟩
    · rw [hslots]
      rfl
    · simpa using hx
    · rw [hothers]
      rfl
  | case3 n slots hno =>
    rw [lookBack] at h
    · cases h
    · exact hno

theorem raiseTop_eq_some {slots slots' : List (Slot ω)} (h : raiseTop obj slots = some slots') :
    Added obj slots slots' := by
  unfold raiseTop at h
  split at h
  · split at h
    · rename_i entry rest hentry
      obtain rfl := Option.some.inj h
      exact Added.raised (x := []) rest (by simp) hentry.1 hentry.2
    · cases h
  · cases h

theorem added_add (mode : Coalescing) (obj : ω) (slots : List (Slot ω)) :
    Added obj slots (add mode (some obj) slots) := by
  have hall : ∀ raised : Option (List (Slot ω)), (∀ slots', raised = some slots' → Added obj slots slots') →
      Added obj slots (raised.getD (some (.single obj) :: slots)) := by
    intro raised hraised
    cases raised with
    | none => exact Added.entry slots
    | some slots' => exact hraised slots' rfl
  refine hall _ ?_
  intro slots' h
  split at h
  · split at h
    · rw [Option.map_eq_some_iff] at h
      obtain ⟨⟨found, others⟩, hfound, rfl⟩ := h
      obtain ⟨x, s, entry, hcount, rfl, hx, hptr, rfl, rfl⟩ := lookBack_eq_some hfound
      exact Added.raised s hx hptr hcount
    · exact raiseTop_eq_some h
  · cases h

example : add ⟨false, false⟩ (some 1) [some (.single 2), some (.single 1), none] =
    [some ⟨1, 1, by decide⟩, some (.single 2), none] := by decide

theorem pushed_add (mode : Coalescing) (slot : Option ω) (slots : List (Slot ω)) :
    Pushed slot slots (add mode slot slots) := by
  cases slot with
  | none => rfl
  | some obj => exact added_add mode obj slots

theorem length_add_le (mode : Coalescing) (obj : Option ω) (slots : List (Slot ω)) :
    slots.length ≤ (add mode obj slots).length ∧ (add mode obj slots).length ≤ slots.length + 1 := by
  cases obj with
  | none => simp [add]
  | some obj => exact length_le_of_added (added_add mode obj slots)

end Add

end QYInterview.ObjC.AutoreleasePool
