import QYInterview.ListNode
import QYInterview.Lib.Orbit

/-!
# DetectCycle — the entry of a cycle (`双指针/DetectCycleController.swift`)

`slow` and `fast` after `k` turns are the walks of length `k` and `2 * k`.  In a finite heap the walk
from `head` has the shape of a rho (`Orbit.Rho`): reaching nil is the case where nil itself is the
cycle.  The walks meet at the first `k ≥ 1` past the tail that is a multiple of the period
(`Rho.meet_iff`), and the second loop then stops exactly at the end of the tail (`Rho.restart_iff`).
-/

namespace QYInterview.DetectCycle

open RunLogic Linked Orbit

section Model

variable {α : Type} [DecidableEq α]

/-- `while list1 != list2`: both one node further. -/
def meetTurn (h : Heap α) :
    Option α × Option α → Prog (Turn (Option α × Option α) (Option α))
  | (list1, list2) =>
    if list1 ≠ list2 then pure (.next (h.next? list1, h.next? list2))
    else pure (.exit list2)

/-- `while fast != nil && fast?.next != nil` -/
def detectCycleTurn (h : Heap α) (head : Option α) :
    Option α × Option α → Prog (Turn (Option α × Option α) (Option α × Heap α))
  | (slow, fast) =>
    if fast ≠ none ∧ h.next? fast ≠ none then do
      let slow := h.next? slow
      let fast := h.next? (h.next? fast)
      if slow = fast then do
        let list2 ← loop (meetTurn h) (slow, head)
        pure (.exit (list2, h))
      else pure (.next (slow, fast))
    else pure (.exit (none, h))

def detectCycle (h : Heap α) (head : Option α) : Prog (Option α × Heap α) :=
  loop (detectCycleTurn h head) (head, head)

end Model

/-! ## The entry of the cycle -/

section Spec

variable {α : Type}

/-- `e` is the first node that the walk from `head` visits a second time: its second visit, at `j`,
comes before any other node's. -/
def IsEntry (h : Heap α) (head : Option α) (e : α) : Prop :=
  ∃ i j, i < j ∧ walk h.next head i = some e ∧ walk h.next head j = some e ∧
    ∀ i' j', i' < j' → j' < j → walk h.next head i' = walk h.next head j' →
      walk h.next head j' = none

/-- The walk from `head` is a rho with tail `t` and period `p`. -/
abbrev WalkRho (h : Heap α) (head : Option α) (t p : ℕ) : Prop := Rho (move h.next) head t p

variable {h : Heap α} {head : Option α} {t p : ℕ} (hr : WalkRho h head t p)
include hr

/-- The walk reaches nil iff it is at nil once the tail is over. -/
theorem reaches_nil_iff : (∃ n, walk h.next head n = none) ↔ walk h.next head t = none := by
  refine ⟨fun ⟨n, hn⟩ => ?_, fun ht => ⟨t, ht⟩⟩
  have h1 := walk_none_of_le hn (Nat.le_add_left n t)
  have h2 := hr.add_mul_period (n := t) le_rfl n
  have h3 := walk_none_of_le h1 (show t + n ≤ t + n * p from
    Nat.add_le_add_left (Nat.le_mul_of_pos_right n hr.pos) t)
  exact h2.symm.trans h3

/-- The entry is the node at the end of the tail. -/
theorem isEntry_iff {e : α} : IsEntry h head e ↔ walk h.next head t = some e := by
  constructor
  · rintro ⟨i, j, hij, hi, hj, hmin⟩
    obtain ⟨hti, hdvd⟩ := (hr.eq_iff hij).mp (hi.trans hj.symm)
    have hle := Nat.le_of_dvd (by omega) hdvd
    rcases Nat.lt_or_ge (t + p) j with hlt | hge
    · -- an earlier second visit of the walk would have to be at nil, which the walk never leaves
      have hcl : walk h.next head t = walk h.next head (t + p) := hr.closes.symm
      have hnil := hmin t (t + p) (by have := hr.pos; omega) hlt hcl
      rw [walk_none_of_le hnil (by omega)] at hj
      cases hj
    · have hit : i = t := by omega
      rwa [hit] at hi
  · intro ht
    refine ⟨t, t + p, by have := hr.pos; omega, ht, hr.closes.trans ht, fun i j hij hj heq => ?_⟩
    exact absurd heq (hr.fresh i j hij hj)

end Spec

/-! ## The run -/

section Run

variable {α : Type} [DecidableEq α] {h : Heap α} {head : Option α} {t p : ℕ}
  (hr : WalkRho h head t p)

/-- The variables `slow` and `fast` after `k` turns. -/
def walkers (h : Heap α) (head : Option α) (k : ℕ) : Option α × Option α :=
  (walk h.next head k, walk h.next head (2 * k))

/-- A turn where `fast` can make two moves. -/
theorem detectCycleTurn_walkers {k : ℕ} (hf : walk h.next head (2 * k + 1) ≠ none) :
    detectCycleTurn h head (walkers h head k) =
      if walk h.next head (k + 1) = walk h.next head (2 * (k + 1)) then do
        let list2 ← loop (meetTurn h) (walk h.next head (k + 1), head)
        pure (.exit (list2, h))
      else pure (.next (walkers h head (k + 1))) := by
  have hf' : walk h.next head (2 * k) ≠ none := fun hn => hf (walk_none_of_le hn (by omega))
  have hcond : walk h.next head (2 * k) ≠ none ∧ h.next? (walk h.next head (2 * k)) ≠ none :=
    ⟨hf', by rw [Heap.next?_walk]; exact hf⟩
  unfold detectCycleTurn walkers
  simp only
  rw [if_pos hcond]
  simp only [Heap.next?_walk]
  rfl

theorem detectCycleTurn_nil {k : ℕ} (hf : walk h.next head (2 * k + 1) = none) :
    detectCycleTurn h head (walkers h head k) = pure (.exit (none, h)) := by
  unfold detectCycleTurn walkers
  simp only
  rw [if_neg]
  rintro ⟨-, hn⟩
  exact hn (by rw [Heap.next?_walk]; exact hf)

include hr

/-- The second loop, from a meeting point, stops at the end of the tail. -/
theorem returns_meet {k : ℕ} (hk : 0 < k) (hpk : p ∣ k) :
    Returns (loop (meetTurn h) (walk h.next head k, head)) (walk h.next head t) := by
  have hst : ∀ m, walk h.next head (k + m) = walk h.next head m ↔ t ≤ m := hr.restart_iff hk hpk
  refine returns_loop_trace (fun m => (walk h.next head (k + m), walk h.next head m)) t
    (fun m hm => ?_) ?_
  · have hne : walk h.next head (k + m) ≠ walk h.next head m := fun heq => by
      have := (hst m).mp heq
      omega
    simp only [meetTurn, if_pos hne, Heap.next?_walk]
    exact returns_pure _
  · have heq := (hst t).mpr le_rfl
    simp only [meetTurn, heq, ne_eq, not_true_eq_false, if_false]
    exact returns_pure _

/-- A walk that never reaches nil: the first meeting, then the end of the tail. -/
theorem returns_cycle (hnil : walk h.next head t ≠ none) :
    Returns (detectCycle h head) (walk h.next head t, h) := by
  have hall : ∀ n, walk h.next head n ≠ none := fun n hn =>
    hnil ((reaches_nil_iff hr).mp ⟨n, hn⟩)
  have hmeet : ∀ k, walk h.next head (k + 1) = walk h.next head (2 * (k + 1)) ↔
      t ≤ k + 1 ∧ p ∣ k + 1 := fun k => hr.meet_iff (Nat.succ_pos k)
  have hp := hr.pos
  have hex : ∃ k, t ≤ k + 1 ∧ p ∣ k + 1 :=
    ⟨p * (t + 1) - 1, by
      rw [Nat.sub_add_cancel (Nat.mul_pos hp (Nat.succ_pos t))]
      exact ⟨(Nat.le_succ t).trans (Nat.le_mul_of_pos_left _ hp), p.dvd_mul_right _⟩⟩
  refine returns_loop_trace (walkers h head) (Nat.find hex) (fun k hk => ?_) ?_
  · rw [detectCycleTurn_walkers (hall _), if_neg]
    · exact returns_pure _
    · rw [hmeet]
      exact Nat.find_min hex hk
  · have hK := Nat.find_spec hex
    rw [detectCycleTurn_walkers (hall _), if_pos ((hmeet _).mpr hK)]
    exact returns_bind (returns_meet hr (Nat.succ_pos _) hK.2) (returns_pure _)

/-- A walk that reaches nil after `t` nodes: `fast` gets there before the two meet. -/
theorem returns_nil (hnil : walk h.next head t = none) :
    Returns (detectCycle h head) (none, h) := by
  have hex : ∃ k, walk h.next head (2 * k + 1) = none := ⟨t, walk_none_of_le hnil (by omega)⟩
  refine returns_loop_trace (walkers h head) (Nat.find hex) (fun k hk => ?_) ?_
  · have hf := Nat.find_min hex hk
    rw [detectCycleTurn_walkers hf, if_neg]
    · exact returns_pure _
    · intro heq
      have htk := ((hr.eq_iff (show k + 1 < 2 * (k + 1) by omega)).mp heq).1
      exact hf (walk_none_of_le hnil (by omega))
  · rw [detectCycleTurn_nil (Nat.find_spec hex)]
    exact returns_pure _

end Run

/-- **`detectCycle`** on every finite heap: it returns, leaves the heap as it was, gives nil exactly
when the walk from `head` reaches nil, and otherwise the one entry of the cycle. -/
theorem detectCycle_spec {α : Type} [DecidableEq α] [Fintype α] (h : Heap α) (head : Option α) :
    ∃ r, Returns (detectCycle h head) (r, h) ∧
      (r = none ↔ ∃ n, walk h.next head n = none) ∧
      (r ≠ none → ∃ e, r = some e ∧ IsEntry h head e) ∧
      (∀ e, IsEntry h head e → r = some e) := by
  obtain ⟨t, p, hr⟩ := exists_rho (move h.next) head
  have hr : WalkRho h head t p := hr
  have hret : Returns (detectCycle h head) (walk h.next head t, h) := by
    by_cases hnil : walk h.next head t = none
    · rw [hnil]
      exact returns_nil hr hnil
    · exact returns_cycle hr hnil
  refine ⟨walk h.next head t, hret, (reaches_nil_iff hr).symm, fun hne => ?_,
    fun e he => (isEntry_iff hr).mp he⟩
  obtain ⟨e, he⟩ := Option.ne_none_iff_exists'.mp hne
  exact ⟨e, he, (isEntry_iff hr).mpr he⟩

end QYInterview.DetectCycle
