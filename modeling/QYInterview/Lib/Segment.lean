import Mathlib.Tactic
import Mathlib.Algebra.BigOperators.Group.List.Basic
import Mathlib.Order.Bounds.Basic
import Mathlib.Order.Bounds.Image

/-!
# Segment — greatest sum of a contiguous part of a list

`segSum xs i j` is the sum of the elements at the positions `i ≤ k < j`.  `sums xs` are the sums of the
non-empty contiguous parts.  By their end: `endSums xs j` are the sums of those that end just before
position `j`, `sumsUpTo xs j` of those that end no later; one more element is added to every part ending
there or starts a new one (`endSums_succ`), so the greatest of these sums can be carried along
(`greatest_endSums_succ`).  By their start: `startSums xs i j` and `sumsFrom xs n`.

`reaching xs t` are the lengths of the contiguous parts with a sum of at least `t`.  Where no element is
negative a longer part has no smaller sum (`segSum_mono`), so a window that falls short holds no part that
reaches `t`.
-/

namespace Segment

universe u

variable {α : Type u} [AddCommGroup α]

/-- The sum of the elements at the positions `i ≤ k < j`. -/
def segSum (xs : List α) (i j : ℕ) : α := (xs.take j).sum - (xs.take i).sum

/-- The sums of the non-empty contiguous parts. -/
def sums (xs : List α) : Set α := {s | ∃ l : List α, l ≠ [] ∧ l.IsInfix xs ∧ l.sum = s}

/-- The sums of the non-empty parts that end before position `j`. -/
def endSums (xs : List α) (j : ℕ) : Set α := {s | ∃ i, i < j ∧ segSum xs i j = s}

/-- The sums of the non-empty parts that end at position `j` or earlier. -/
def sumsUpTo (xs : List α) (j : ℕ) : Set α := {s | ∃ i k, i < k ∧ k ≤ j ∧ segSum xs i k = s}

/-- The sums of the non-empty parts that start at position `i` and end before position `j`. -/
def startSums (xs : List α) (i j : ℕ) : Set α := {s | ∃ k, i < k ∧ k ≤ j ∧ segSum xs i k = s}

/-- The sums of the non-empty parts that start before position `n`. -/
def sumsFrom (xs : List α) (n : ℕ) : Set α :=
  {s | ∃ i k, i < n ∧ i < k ∧ k ≤ xs.length ∧ segSum xs i k = s}

variable {xs : List α} {a : α} {i j : ℕ}

@[simp] theorem segSum_self (xs : List α) (i : ℕ) : segSum xs i i = 0 := sub_self _

theorem sum_take_succ (h : xs[j]? = some a) : (xs.take (j + 1)).sum = (xs.take j).sum + a := by
  obtain ⟨hj, rfl⟩ := List.getElem?_eq_some_iff.mp h
  rw [List.take_succ_eq_append_getElem hj, List.sum_append, List.sum_singleton]

theorem segSum_succ (h : xs[j]? = some a) (i : ℕ) : segSum xs i (j + 1) = segSum xs i j + a := by
  rw [segSum, segSum, sum_take_succ h, sub_add_eq_add_sub]

theorem sums_eq (xs : List α) : sums xs = sumsUpTo xs xs.length := by
  ext s
  constructor
  · rintro ⟨l, hl, ⟨p, q, rfl⟩, rfl⟩
    have hpos := List.length_pos_iff.mpr hl
    refine ⟨p.length, (p ++ l).length, by simp [hpos], by simp, ?_⟩
    rw [segSum, List.take_left, List.append_assoc, List.take_left, List.sum_append, add_sub_cancel_left]
  · rintro ⟨i, k, hik, hk, rfl⟩
    refine ⟨(xs.take k).drop i, ?_,
      ((List.drop_suffix i _).isInfix).trans (List.take_prefix k xs).isInfix, ?_⟩
    · intro hnil
      have := congrArg List.length hnil
      rw [List.length_drop, List.length_take, List.length_nil] at this
      omega
    · have hsplit := congrArg List.sum (List.take_append_drop i (xs.take k))
      rw [List.sum_append, List.take_take, min_eq_left hik.le] at hsplit
      rw [segSum, ← hsplit, add_sub_cancel_left]

/-- A part that ends with one more element is the element alone or longer by it. -/
theorem endSums_succ (h : xs[j]? = some a) :
    endSums xs (j + 1) = (fun s => s + a) '' insert 0 (endSums xs j) := by
  ext s
  constructor
  · rintro ⟨i, hi, rfl⟩
    refine ⟨segSum xs i j, ?_, (segSum_succ h i).symm⟩
    rcases Nat.lt_or_eq_of_le (Nat.lt_succ_iff.mp hi) with hlt | rfl
    · exact Or.inr ⟨i, hlt, rfl⟩
    · exact Or.inl (segSum_self xs i)
  · rintro ⟨_, rfl | ⟨i, hi, rfl⟩, rfl⟩
    · refine ⟨j, Nat.lt_succ_self j, ?_⟩
      rw [segSum_succ h, segSum_self]
    · exact ⟨i, Nat.lt_succ_of_lt hi, segSum_succ h i⟩

@[simp] theorem endSums_zero (xs : List α) : endSums xs 0 = ∅ := by
  ext s
  simp [endSums]

@[simp] theorem sumsUpTo_zero (xs : List α) : sumsUpTo xs 0 = ∅ := by
  ext s
  constructor
  · rintro ⟨i, k, hik, hk, -⟩
    omega
  · exact False.elim

theorem sumsUpTo_succ (xs : List α) (j : ℕ) :
    sumsUpTo xs (j + 1) = sumsUpTo xs j ∪ endSums xs (j + 1) := by
  ext s
  constructor
  · rintro ⟨i, k, hik, hk, rfl⟩
    rcases Nat.lt_or_eq_of_le hk with hlt | rfl
    · exact Or.inl ⟨i, k, hik, Nat.lt_succ_iff.mp hlt, rfl⟩
    · exact Or.inr ⟨i, hik, rfl⟩
  · rintro (⟨i, k, hik, hk, rfl⟩ | ⟨i, hi, rfl⟩)
    · exact ⟨i, k, hik, Nat.le_succ_of_le hk, rfl⟩
    · exact ⟨i, j + 1, hi, le_rfl, rfl⟩

theorem startSums_self (xs : List α) (i : ℕ) : startSums xs i i = ∅ := by
  ext s
  constructor
  · rintro ⟨k, hik, hk, -⟩
    omega
  · exact False.elim

theorem startSums_succ (hij : i ≤ j) :
    startSums xs i (j + 1) = insert (segSum xs i (j + 1)) (startSums xs i j) := by
  ext s
  constructor
  · rintro ⟨k, hik, hk, rfl⟩
    rcases Nat.lt_or_eq_of_le hk with hlt | rfl
    · exact Or.inr ⟨k, hik, Nat.lt_succ_iff.mp hlt, rfl⟩
    · exact Or.inl rfl
  · rintro (rfl | ⟨k, hik, hk, rfl⟩)
    · exact ⟨j + 1, Nat.lt_succ_of_le hij, le_rfl, rfl⟩
    · exact ⟨k, hik, Nat.le_succ_of_le hk, rfl⟩

@[simp] theorem sumsFrom_zero (xs : List α) : sumsFrom xs 0 = ∅ := by
  ext s
  simp [sumsFrom]

theorem sumsFrom_succ (xs : List α) (n : ℕ) :
    sumsFrom xs (n + 1) = sumsFrom xs n ∪ startSums xs n xs.length := by
  ext s
  constructor
  · rintro ⟨i, k, hi, hik, hk, rfl⟩
    rcases Nat.lt_or_eq_of_le (Nat.lt_succ_iff.mp hi) with hlt | rfl
    · exact Or.inl ⟨i, k, hlt, hik, hk, rfl⟩
    · exact Or.inr ⟨k, hik, hk, rfl⟩
  · rintro (⟨i, k, hi, hik, hk, rfl⟩ | ⟨k, hik, hk, rfl⟩)
    · exact ⟨i, k, Nat.lt_succ_of_lt hi, hik, hk, rfl⟩
    · exact ⟨n, k, Nat.lt_succ_self n, hik, hk, rfl⟩

theorem sums_eq_sumsFrom (xs : List α) : sums xs = sumsFrom xs xs.length := by
  rw [sums_eq]
  ext s
  constructor
  · rintro ⟨i, k, hik, hk, rfl⟩
    exact ⟨i, k, by omega, hik, hk, rfl⟩
  · rintro ⟨i, k, -, hik, hk, rfl⟩
    exact ⟨i, k, hik, hk, rfl⟩

theorem segSum_mem_sums (hij : i < j) (hj : j ≤ xs.length) : segSum xs i j ∈ sums xs := by
  rw [sums_eq]
  exact ⟨i, j, hij, hj, rfl⟩

theorem endSums_subset (hj : j ≤ xs.length) : endSums xs j ⊆ sums xs := by
  rintro s ⟨i, hi, rfl⟩
  exact segSum_mem_sums hi hj

section Greatest

variable [LinearOrder α] [IsOrderedAddMonoid α] {c m : α}

/-- With `c` the greatest of `0` and the sums that end before the next element `a`, the greatest sum that
ends with it is `c + a`. -/
theorem greatest_endSums_succ (h : xs[j]? = some a) (hc : IsGreatest (insert 0 (endSums xs j)) c) :
    IsGreatest (endSums xs (j + 1)) (c + a) := by
  rw [endSums_succ h]
  have hmono : Monotone fun s : α => s + a := fun _ _ hst => add_le_add_left hst a
  exact hmono.map_isGreatest hc

theorem greatest_endSums_one (h : xs[0]? = some a) : IsGreatest (endSums xs 1) a := by
  have hzero : IsGreatest (insert 0 (endSums xs 0)) 0 := by simp
  have hend := greatest_endSums_succ h hzero
  rwa [zero_add, zero_add] at hend

omit [AddCommGroup α] [IsOrderedAddMonoid α] in
/-- A bound `b` from below does not count once there is a sum. -/
theorem greatest_of_insert {S : Set α} {b : α} (hS : S.Nonempty) (hb : ∀ s ∈ S, b ≤ s)
    (hm : IsGreatest (insert b S) m) : IsGreatest S m := by
  have hup : ∀ s ∈ S, s ≤ m := fun s hs => hm.2 (Or.inr hs)
  refine ⟨?_, hup⟩
  rcases hm.1 with rfl | hmem
  · obtain ⟨s, hs⟩ := hS
    rwa [le_antisymm (hb s hs) (hup s hs)]
  · exact hmem

end Greatest

/-! ## Parts that reach a sum -/

section Reaching

variable [LinearOrder α] {t : α} {n i' j' : ℕ}

/-- The lengths of the non-empty contiguous parts whose sum is at least `t`. -/
def reaching (xs : List α) (t : α) : Set ℕ :=
  {n | ∃ l : List α, l ≠ [] ∧ l.IsInfix xs ∧ t ≤ l.sum ∧ l.length = n}

theorem mem_reaching : n ∈ reaching xs t ↔ ∃ i j, i < j ∧ j ≤ xs.length ∧ t ≤ segSum xs i j ∧ j - i = n := by
  constructor
  · rintro ⟨l, hl, ⟨p, q, rfl⟩, ht, rfl⟩
    have hpos := List.length_pos_iff.mpr hl
    refine ⟨p.length, (p ++ l).length, by simp [hpos], by simp, ?_, by simp⟩
    rwa [segSum, List.take_left, List.append_assoc, List.take_left, List.sum_append, add_sub_cancel_left]
  · rintro ⟨i, j, hij, hj, ht, rfl⟩
    have hlen : ((xs.take j).drop i).length = j - i := by
      rw [List.length_drop, List.length_take_of_le hj]
    refine ⟨(xs.take j).drop i, List.ne_nil_of_length_pos (by omega),
      ((List.drop_suffix i _).isInfix).trans (List.take_prefix j xs).isInfix, ?_, hlen⟩
    have hsplit := congrArg List.sum (List.take_append_drop i (xs.take j))
    rw [List.sum_append, List.take_take, min_eq_left hij.le] at hsplit
    rwa [segSum, ← hsplit, add_sub_cancel_left] at ht

variable [IsOrderedAddMonoid α] (hxs : ∀ x ∈ xs, 0 ≤ x)
include hxs

theorem sum_take_mono (hij : i ≤ j) : (xs.take i).sum ≤ (xs.take j).sum := by
  have hsplit := congrArg List.sum (List.take_append_drop i (xs.take j))
  rw [List.sum_append, List.take_take, min_eq_left hij] at hsplit
  rw [← hsplit]
  refine le_add_of_nonneg_right (List.sum_nonneg ?_)
  intro x hx
  exact hxs x (List.mem_of_mem_take (List.mem_of_mem_drop hx))

/-- A part of a part has no greater sum. -/
theorem segSum_mono (hi : i ≤ i') (hj : j' ≤ j) : segSum xs i' j' ≤ segSum xs i j :=
  sub_le_sub (sum_take_mono hxs hj) (sum_take_mono hxs hi)

end Reaching

end Segment
