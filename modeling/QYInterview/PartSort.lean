import QYInterview.Lib.Inversions
import QYInterview.Lib.Sorted
import QYInterview.Swift

/-!
# PartSort — the shortest part to sort

`PartSortController.swift`.  One loop reads the array from both ends: `right` is the last position so far
with a greater value in front of it, `left` the last one from behind with a smaller value behind it; these
are the ends of the inversions of the array.
-/

namespace QYInterview.PartSort

open RunLogic Swift Inversions

/-! ## The code -/

/-- `for i in 1..<array.count`, over `max`, `right`, `min` and `left`. -/
def scanBody (array : List ℤ) : ℤ × ℤ × ℤ × ℤ → ℤ → Prog (ℤ × ℤ × ℤ × ℤ)
  | (max, right, min, left), i => do
    let maxCur ← get array i
    let (max, right) := if maxCur ≥ max then (maxCur, right) else (max, i)
    let minCur ← get array (array.length - i - 1)
    let (min, left) := if minCur ≤ min then (minCur, left) else (min, array.length - i - 1)
    return (max, right, min, left)

def subSort (array : List ℤ) : Prog (List ℤ) :=
  if array.length ≤ 1 then pure [-1, -1]
  else do
    let max ← get array 0
    let min ← get array (array.length - 1)
    let (_, right, _, left) ← forRange 1 array.length (scanBody array) (max, -1, min, -1)
    return [left, right]

/-! ## Positions found -/

/-- `r` is the position of `S` that all others come before, or -1. -/
def Found (before : ℕ → ℕ → Prop) (S : ℕ → Prop) (r : ℤ) : Prop :=
  (r = -1 ∧ ∀ j, ¬ S j) ∨ ∃ k : ℕ, r = k ∧ S k ∧ ∀ j, S j → before j k

section Found

variable {before : ℕ → ℕ → Prop} {S S' : ℕ → Prop} {r : ℤ} {k : ℕ}

theorem Found.keep (h : Found before S r) (hS : ∀ j, S' j ↔ S j) : Found before S' r := by
  rcases h with ⟨hr, hno⟩ | ⟨k, hr, hk, hlast⟩
  · exact Or.inl ⟨hr, fun j hj => hno j ((hS j).mp hj)⟩
  · exact Or.inr ⟨k, hr, (hS k).mpr hk, fun j hj => hlast j ((hS j).mp hj)⟩

theorem found_of_mem (hk : S k) (hlast : ∀ j, S j → before j k) : Found before S k :=
  Or.inr ⟨k, rfl, hk, hlast⟩

theorem found_none (h : ∀ j, ¬ S j) : Found before S (-1) := Or.inl ⟨rfl, h⟩

end Found

/-! ## The scan -/

section Scan

variable {array : List ℤ} {i : ℕ} {max right min left : ℤ}

/-- From the left: the greatest of the first `i` values and the last late position among them. -/
structure FromLeft (array : List ℤ) (i : ℕ) (max right : ℤ) : Prop where
  mem : max ∈ array.take i
  le : ∀ x ∈ array.take i, x ≤ max
  found : Found (· ≤ ·) (fun j => j < i ∧ Late array j) right

/-- From the right: the least of the values from `i` on and the first early position among them. -/
structure FromRight (array : List ℤ) (i : ℕ) (min left : ℤ) : Prop where
  mem : min ∈ array.drop i
  le : ∀ x ∈ array.drop i, min ≤ x
  found : Found (· ≥ ·) (fun j => i ≤ j ∧ Early array j) left

theorem FromLeft.step (h : FromLeft array i max right) {maxCur : ℤ} (hi : array[i]? = some maxCur) :
    FromLeft array (i + 1) (if maxCur ≥ max then (maxCur, right) else (max, (i : ℤ))).1
      (if maxCur ≥ max then (maxCur, right) else (max, (i : ℤ))).2 := by
  have htake : array.take (i + 1) = array.take i ++ [maxCur] := by
    rw [List.take_add_one, hi]
    rfl
  have hlate := late_iff hi h.mem h.le
  by_cases hge : maxCur ≥ max
  · simp only [if_pos hge]
    refine ⟨by simp [htake], ?_, h.found.keep ?_⟩
    · rw [htake]
      exact List.forall_mem_append.mpr ⟨fun x hx => (h.le x hx).trans hge,
        List.forall_mem_singleton.mpr le_rfl⟩
    · intro j
      constructor
      · rintro ⟨hj, hl⟩
        rcases Nat.lt_or_eq_of_le (Nat.lt_succ_iff.mp hj) with hj | rfl
        · exact ⟨hj, hl⟩
        · exact absurd (hlate.mp hl) (not_lt.mpr hge)
      · rintro ⟨hj, hl⟩
        exact ⟨by omega, hl⟩
  · simp only [if_neg hge]
    refine ⟨by simp [htake, h.mem], ?_, found_of_mem ⟨by omega, hlate.mpr (not_le.mp hge)⟩ ?_⟩
    · rw [htake]
      exact List.forall_mem_append.mpr ⟨h.le, List.forall_mem_singleton.mpr (not_le.mp hge).le⟩
    · rintro j ⟨hj, -⟩
      omega

theorem FromRight.step (h : FromRight array (i + 1) min left) {minCur : ℤ} (hi : array[i]? = some minCur) :
    FromRight array i (if minCur ≤ min then (minCur, left) else (min, (i : ℤ))).1
      (if minCur ≤ min then (minCur, left) else (min, (i : ℤ))).2 := by
  have hdrop : array.drop i = minCur :: array.drop (i + 1) := by
    obtain ⟨hlt, rfl⟩ := List.getElem?_eq_some_iff.mp hi
    exact List.drop_eq_getElem_cons hlt
  have hearly := early_iff hi h.mem h.le
  by_cases hle : minCur ≤ min
  · simp only [if_pos hle]
    refine ⟨by simp [hdrop], ?_, h.found.keep ?_⟩
    · rw [hdrop]
      exact List.forall_mem_cons.mpr ⟨le_rfl, fun x hx => hle.trans (h.le x hx)⟩
    · intro j
      constructor
      · rintro ⟨hj, he⟩
        rcases Nat.lt_or_eq_of_le hj with hj | rfl
        · exact ⟨hj, he⟩
        · exact absurd (hearly.mp he) (not_lt.mpr hle)
      · rintro ⟨hj, he⟩
        exact ⟨by omega, he⟩
  · simp only [if_neg hle]
    refine ⟨by simp [hdrop, h.mem], ?_, found_of_mem ⟨le_rfl, hearly.mpr (not_le.mp hle)⟩ ?_⟩
    · rw [hdrop]
      exact List.forall_mem_cons.mpr ⟨(not_le.mp hle).le, h.le⟩
    · rintro j ⟨hj, -⟩
      exact hj

theorem fromLeft_one (hi : array[0]? = some max) : FromLeft array 1 max (-1) := by
  have htake : array.take 1 = [max] := by simp [List.take_one, List.head?_eq_getElem?, hi]
  refine ⟨by simp [htake], ?_, found_none ?_⟩
  · intro x hx
    rw [htake, List.mem_singleton] at hx
    exact hx.le
  · rintro j ⟨hj, i, hij⟩
    have := hij.1
    omega

theorem fromRight_last (hi : array[array.length - 1]? = some min) :
    FromRight array (array.length - 1) min (-1) := by
  have hdrop : array.drop (array.length - 1) = [min] := by
    obtain ⟨hlt, rfl⟩ := List.getElem?_eq_some_iff.mp hi
    rw [List.drop_eq_getElem_cons hlt, List.drop_eq_nil_of_le (by omega)]
  refine ⟨by simp [hdrop], ?_, found_none ?_⟩
  · intro x hx
    rw [hdrop, List.mem_singleton] at hx
    exact hx.ge
  · rintro j ⟨hj, i, hij⟩
    have := hij.1
    have := hij.lt_length
    omega

/-- What the scan has found after `i` positions from either end. -/
def Scanned (array : List ℤ) (i : ℕ) : ℤ × ℤ × ℤ × ℤ → Prop
  | (max, right, min, left) => FromLeft array i max right ∧ FromRight array (array.length - i) min left

theorem Scanned.step {s : ℤ × ℤ × ℤ × ℤ} (hs : Scanned array i s) (hi : i < array.length) :
    Halts (scanBody array s i) (Scanned array (i + 1)) := by
  obtain ⟨max, right, min, left⟩ := s
  have hmax : array[i]? = some array[i] := List.getElem?_eq_getElem hi
  have hmin : array[array.length - (i + 1)]? = some array[array.length - (i + 1)] :=
    List.getElem?_eq_getElem (by omega)
  have hidx : (array.length : ℤ) - i - 1 = ((array.length - (i + 1) : ℕ) : ℤ) := by omega
  have hright : FromRight array (array.length - (i + 1) + 1) min left := by
    rw [show array.length - (i + 1) + 1 = array.length - i by omega]
    exact hs.2
  simp only [scanBody, get_eq hmax, hidx, get_eq hmin, pure_bind]
  exact halts_pure ⟨hs.1.step hmax, hright.step hmin⟩

/-- `right` is the last late position of the array and `left` the first early one. -/
theorem halts_subSort (h : 1 < array.length) :
    Halts (subSort array) fun r => ∃ left right, r = [left, right] ∧
    Found (· ≤ ·) (Late array) right ∧ Found (· ≥ ·) (Early array) left := by
  have hfirst : array[0]? = some array[0] := List.getElem?_eq_getElem (by omega)
  have hlast : array[array.length - 1]? = some array[array.length - 1] := List.getElem?_eq_getElem (by omega)
  have hgetfirst : get array 0 = pure array[0] := get_eq hfirst
  have hgetlast : get array ((array.length : ℤ) - 1) = pure array[array.length - 1] := by
    rw [show (array.length : ℤ) - 1 = ((array.length - 1 : ℕ) : ℤ) by omega, get_eq hlast]
  have hloop : Halts (forRange (1 : ℕ) array.length (scanBody array)
    (array[0], -1, array[array.length - 1], -1))
      (Scanned array array.length) :=
    halts_forRange h.le (Scanned array) (fun i s _ hi hs => hs.step hi)
      ⟨fromLeft_one hfirst, fromRight_last hlast⟩
  unfold subSort
  rw [if_neg (by omega), hgetfirst, pure_bind, hgetlast, pure_bind]
  refine halts_bind (hloop.mono ?_)
  rintro ⟨max, right, min, left⟩ ⟨hl, hr⟩
  refine halts_pure ⟨left, right, rfl, hl.found.keep ?_, hr.found.keep ?_⟩
  · intro j
    constructor
    · rintro ⟨i, hi⟩
      exact ⟨hi.lt_length, i, hi⟩
    · exact And.right
  · intro j
    rw [Nat.sub_self]
    exact ⟨fun hj => ⟨Nat.zero_le j, hj⟩, And.right⟩

end Scan

/-- The result is `[-1, -1]` for a sorted array, and else the least index interval that has to be sorted. -/
theorem subSort_spec (array : List ℤ) : ∃ r, Returns (subSort array) r ∧
    (r = [-1, -1] ↔ array.Pairwise (· ≤ ·)) ∧
    (¬ array.Pairwise (· ≤ ·) → ∃ m n : ℕ, r = [(m : ℤ), (n : ℤ)] ∧ m < n ∧ n < array.length ∧
      (sortWindow array m n).Pairwise (· ≤ ·) ∧
      ∀ m' n', m' ≤ n' → n' < array.length → (sortWindow array m' n').Pairwise (· ≤ ·) →
        m' ≤ m ∧ n ≤ n') := by
  by_cases hshort : array.length ≤ 1
  · have hsorted := Sorted.pairwise_of_length_le_one hshort
    refine ⟨[-1, -1], ?_, iff_of_true rfl hsorted, fun h => absurd hsorted h⟩
    unfold subSort
    rw [if_pos hshort]
    exact returns_pure _
  · obtain ⟨r, hret, left, right, rfl, hright, hleft⟩ := halts_subSort (not_le.mp hshort)
    rcases hright with ⟨rfl, hnone⟩ | ⟨n, rfl, hn, hlast⟩
    · have hno : ∀ i j, ¬ Inverted array i j := fun i j hij => hnone j ⟨i, hij⟩
      have hsorted := pairwise_iff_not_inverted.mpr hno
      rcases hleft with ⟨rfl, -⟩ | ⟨m, -, ⟨j, hm⟩, -⟩
      · exact ⟨_, hret, iff_of_true rfl hsorted, fun h => absurd hsorted h⟩
      · exact absurd hm (hno m j)
    · obtain ⟨i, hi⟩ := hn
      have hunsorted : ¬ array.Pairwise (· ≤ ·) := fun h => pairwise_iff_not_inverted.mp h i n hi
      rcases hleft with ⟨-, hnone⟩ | ⟨m, rfl, hm, hfirst⟩
      · exact absurd ⟨n, hi⟩ (hnone i)
      · refine ⟨_, hret, iff_of_false ?_ hunsorted,
          fun _ => ⟨m, n, rfl, least_window hm hfirst ⟨i, hi⟩ hlast⟩⟩
        intro h
        have := (List.cons.inj h).1
        omega

end QYInterview.PartSort
