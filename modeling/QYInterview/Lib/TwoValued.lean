import Mathlib.Tactic
import Mathlib.Algebra.Order.BigOperators.Group.List

/-!
# TwoValued — sums of lists with two values

Only the number of elements with the second value matters for the sum: of `n` elements, `total a c n i` is
the sum with `i` times `c` and else `a` (`exists_sum_iff`).  For `a < c` the totals increase with `i`, so
they differ.
-/

namespace TwoValued

universe u

variable {M : Type u} [AddCommMonoid M] {a c x : M} {n i j : ℕ} {l : List M}

/-- The sum of `n` elements, `i` of them `c` and the others `a`. -/
def total (a c : M) (n i : ℕ) : M := (n - i) • a + i • c

theorem total_zero (a c : M) (n : ℕ) : total a c n 0 = n • a := by
  rw [total, Nat.sub_zero, zero_nsmul, add_zero]

theorem total_last (a c : M) (n : ℕ) : total a c n n = n • c := by
  rw [total, Nat.sub_self, zero_nsmul, zero_add]

theorem total_self (hi : i ≤ n) : total a a n i = n • a := by
  rw [total, ← add_nsmul, Nat.sub_add_cancel hi]

/-- One more element with the first value. -/
theorem add_total_first (hi : i ≤ n) : a + total a c n i = total a c (n + 1) i := by
  rw [total, total, Nat.sub_add_comm hi, succ_nsmul', add_assoc]

/-- One more element with the second value. -/
theorem add_total_second : c + total a c n i = total a c (n + 1) (i + 1) := by
  rw [total, total, Nat.add_sub_add_right, succ_nsmul', add_left_comm]

theorem exists_total (hl : ∀ b ∈ l, b = a ∨ b = c) : ∃ i ≤ l.length, l.sum = total a c l.length i := by
  induction l with
  | nil => exact ⟨0, le_rfl, by simp [total]⟩
  | cons b l ih =>
    obtain ⟨hb, hl⟩ := List.forall_mem_cons.mp hl
    obtain ⟨i, hi, hsum⟩ := ih hl
    rw [List.sum_cons, hsum, List.length_cons]
    rcases hb with rfl | rfl
    · exact ⟨i, Nat.le_succ_of_le hi, add_total_first hi⟩
    · exact ⟨i + 1, Nat.succ_le_succ hi, add_total_second⟩

theorem exists_list (hi : i ≤ n) :
    ∃ l : List M, l.length = n ∧ (∀ b ∈ l, b = a ∨ b = c) ∧ l.sum = total a c n i := by
  refine ⟨List.replicate (n - i) a ++ List.replicate i c, ?_, ?_, ?_⟩
  · rw [List.length_append, List.length_replicate, List.length_replicate, Nat.sub_add_cancel hi]
  · intro b hb
    rcases List.mem_append.mp hb with hb | hb
    · exact Or.inl (List.eq_of_mem_replicate hb)
    · exact Or.inr (List.eq_of_mem_replicate hb)
  · rw [List.sum_append, List.sum_replicate, List.sum_replicate, total]

/-- The sums of all lists of `n` elements with the two values. -/
theorem exists_sum_iff : (∃ l : List M, l.length = n ∧ (∀ b ∈ l, b = a ∨ b = c) ∧ l.sum = x) ↔
    ∃ i ≤ n, total a c n i = x := by
  constructor
  · rintro ⟨l, rfl, hl, rfl⟩
    obtain ⟨i, hi, hsum⟩ := exists_total hl
    exact ⟨i, hi, hsum.symm⟩
  · rintro ⟨i, hi, rfl⟩
    exact exists_list hi

section Ordered

/-- Two neighbouring totals differ in one element. -/
theorem total_eq_of_lt (a c : M) (hi : i < n) : total a c n i = (n - (i + 1)) • a + (a + i • c) := by
  rw [total, show n - i = n - (i + 1) + 1 by omega, succ_nsmul, add_assoc]

theorem total_succ (a c : M) (n i : ℕ) : total a c n (i + 1) = (n - (i + 1)) • a + (c + i • c) := by
  rw [total, succ_nsmul']

variable [PartialOrder M] [IsOrderedCancelAddMonoid M]

theorem total_le (h : a ≤ c) (hij : i ≤ j) (hj : j ≤ n) : total a c n i ≤ total a c n j := by
  induction j, hij using Nat.le_induction with
  | base => exact le_rfl
  | succ j hij ih =>
    calc total a c n i ≤ total a c n j := ih (Nat.le_of_succ_le hj)
      _ = (n - (j + 1)) • a + (a + j • c) := total_eq_of_lt a c hj
      _ ≤ (n - (j + 1)) • a + (c + j • c) := by gcongr
      _ = total a c n (j + 1) := (total_succ a c n j).symm

theorem total_lt (h : a < c) (hij : i < j) (hj : j ≤ n) : total a c n i < total a c n j :=
  calc total a c n i = (n - (i + 1)) • a + (a + i • c) := total_eq_of_lt a c (hij.trans_le hj)
    _ < (n - (i + 1)) • a + (c + i • c) := by gcongr
    _ = total a c n (i + 1) := (total_succ a c n i).symm
    _ ≤ total a c n j := total_le h.le hij hj

end Ordered

end TwoValued
