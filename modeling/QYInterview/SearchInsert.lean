import QYInterview.Lib.Bisect
import QYInterview.Swift

/-!
# SearchInsert — the index of a value or its place in a sorted array (`Binary search.playground`)

The loop stops at a hit.  Else `left...right` closes between the smaller and the greater elements, and
`left` is behind the smaller ones.
-/

namespace QYInterview.SearchInsert

open RunLogic Swift Bisect

/-- `while left <= right` -/
def searchInsertTurn (nums : List ℤ) (target : ℤ) : ℤ × ℤ → Prog (Turn (ℤ × ℤ) ℤ)
  | (left, right) =>
    if left ≤ right then do
      let mid := (left + right).tdiv 2
      let value ← get nums mid
      if target < value then return .next (left, mid - 1)
      else if target > value then return .next (mid + 1, right)
      else return .exit mid
    else return .exit left

def searchInsert (nums : List ℤ) (target : ℤ) : Prog ℤ :=
  if nums.length < 1 then pure 0
  else loop (searchInsertTurn nums target) (0, nums.length - 1)

section Search

variable {nums : List ℤ} {target left right : ℤ}

/-- The middle of a window that is not closed. -/
theorem exists_middle (h : Between nums target left (right + 1)) (hle : left ≤ right) :
    ∃ (mid : ℕ) (value : ℤ), (left + right).tdiv 2 = mid ∧ left ≤ mid ∧ (mid : ℤ) ≤ right ∧
      nums[mid]? = some value := by
  have h0 := h.nonneg
  have hlen := h.le_length
  rw [Int.tdiv_eq_ediv_of_nonneg (by omega)]
  have hm : ((left + right) / 2).toNat < nums.length := by omega
  exact ⟨((left + right) / 2).toNat, nums[((left + right) / 2).toNat], by omega, by omega, by omega,
    List.getElem?_eq_getElem hm⟩

theorem halts_searchInsertTurn (hs : nums.Pairwise (· ≤ ·)) (h : Between nums target left (right + 1)) :
    Halts (searchInsertTurn nums target (left, right)) (Turn.Good
      (fun s => Between nums target s.1 (s.2 + 1) ∧ (s.2 + 1 - s.1).toNat < (right + 1 - left).toNat)
      fun r => ∃ k : ℕ, r = k ∧ Cut nums target k) := by
  unfold searchInsertTurn
  by_cases hle : left ≤ right
  · obtain ⟨mid, value, hmid, hlo, hup, hv⟩ := exists_middle h hle
    simp only [if_pos hle, hmid, get_eq hv, pure_bind]
    rcases lt_trichotomy target value with hlt | rfl | hgt
    · rw [if_pos hlt]
      refine halts_pure ⟨?_, by dsimp only; omega⟩
      rw [sub_add_cancel]
      exact h.below hs hv hlt hlo
    · rw [if_neg (lt_irrefl _), if_neg (lt_irrefl _)]
      exact halts_pure ⟨mid, rfl, cut_of_hit hs hv⟩
    · rw [if_neg hgt.not_gt, if_pos hgt]
      exact halts_pure ⟨h.above hs hv hgt (by omega), by dsimp only; omega⟩
  · simp only [if_neg hle]
    exact halts_pure (h.cut (by omega))

theorem halts_searchInsert (hs : nums.Pairwise (· ≤ ·)) :
    Halts (searchInsert nums target) fun r => ∃ k : ℕ, r = k ∧ Cut nums target k := by
  unfold searchInsert
  by_cases hshort : nums.length < 1
  · rw [if_pos hshort]
    exact halts_pure ((between_start nums target).cut (by omega))
  · rw [if_neg hshort]
    refine halts_loop (fun s : ℤ × ℤ => Between nums target s.1 (s.2 + 1)) (fun s => (s.2 + 1 - s.1).toNat) _
      (fun s h => halts_searchInsertTurn hs h) _ ?_
    rw [sub_add_cancel]
    exact between_start nums target

end Search

/-- The result cuts the array at `target` and is the index of `target` if it occurs; in a strictly
increasing array it is the number of smaller elements. -/
theorem searchInsert_spec (nums : List ℤ) (target : ℤ) (hs : nums.Pairwise (· ≤ ·)) :
    ∃ r : ℕ, Returns (searchInsert nums target) r ∧ r ≤ nums.length ∧
      (∀ i v, nums[i]? = some v → (i < r → v ≤ target) ∧ (r ≤ i → target ≤ v)) ∧
      (target ∈ nums → nums[r]? = some target) ∧
      (nums.Pairwise (· < ·) → r = nums.countP (· < target)) := by
  obtain ⟨_, hret, r, rfl, h⟩ : Halts (searchInsert nums target) fun r => ∃ k : ℕ, r = k ∧
    Cut nums target k :=
    halts_searchInsert hs
  exact ⟨r, hret, h.le_length, fun i v hv => ⟨h.before i v hv, h.behind i v hv⟩, h.hit, h.eq_countP⟩

theorem searchInsert_spec_three : ∃ r : ℕ, Returns (searchInsert [1, 3, 5] 4) r ∧ r ≤ 3 ∧
    (∀ i v, [(1 : ℤ), 3, 5][i]? = some v → (i < r → v ≤ 4) ∧ (r ≤ i → 4 ≤ v)) ∧
    ((4 : ℤ) ∈ [(1 : ℤ), 3, 5] → [(1 : ℤ), 3, 5][r]? = some 4) ∧
    ([(1 : ℤ), 3, 5].Pairwise (· < ·) → r = [(1 : ℤ), 3, 5].countP (· < 4)) :=
  searchInsert_spec [1, 3, 5] 4 (by decide)

end QYInterview.SearchInsert
