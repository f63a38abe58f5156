import QYInterview.Swift
import QYInterview.Lib.Bisect

/-!
# BinarySearch — seven binary searches

`Search/BinarySearchController.swift` and `Sum/TwoSumController2.swift` (Algorithm app),
`数组/BinarySearchController.swift` (QYInterview), `Binary search.playground`.  Each loop bisects in the
sense of `Bisect.BisectTurn`: the closed ones (`left...right`) through the window
`left ≤ i < right + 1`, the half-open ones as they are.  The array is only read, so an element that
a turn reads more than once is read once here.
-/

namespace QYInterview.BinarySearch

open RunLogic Swift Bisect

/-! ## Model -/

namespace Algorithm

/-- `while low <= high` -/
def binarySearchTurn (nums : List ℤ) (target : ℤ) : ℤ × ℤ → Prog (Turn (ℤ × ℤ) ℤ)
  | (low, high) =>
    if low ≤ high then do
      let mid := low + (high - low).tdiv 2
      let midValue ← get nums mid
      if midValue > target then pure (.next (low, mid - 1))
      else if midValue < target then pure (.next (mid + 1, high))
      else pure (.exit mid)
    else pure (.exit (-1))

/-- Closed interval. -/
def binarySearch (nums : List ℤ) (target : ℤ) : Prog ℤ :=
  if nums.isEmpty then pure (-1)
  else loop (binarySearchTurn nums target) (0, (nums.length : ℤ) - 1)

/-- `while left < right` -/
def binarySearch1Turn (nums : List ℤ) (target : ℤ) : ℤ × ℤ → Prog (Turn (ℤ × ℤ) ℤ)
  | (left, right) =>
    if left < right then do
      let middle := left + (right - left).tdiv 2
      let value ← get nums middle
      if target < value then pure (.next (left, middle))
      else if target > value then pure (.next (middle + 1, right))
      else pure (.exit middle)
    else pure (.exit (-1))

/-- Half-open interval. -/
def binarySearch1 (nums : List ℤ) (target : ℤ) : Prog ℤ :=
  if nums.isEmpty then pure (-1)
  else loop (binarySearch1Turn nums target) (0, (nums.length : ℤ))

/-- `TwoSumController2`, `while left <= right` -/
def windowSearchTurn (numbers : List ℤ) (target : ℤ) : ℤ × ℤ → Prog (Turn (ℤ × ℤ) ℤ)
  | (left, right) =>
    if left ≤ right then do
      let mid := left + (right - left).tdiv 2
      let value ← get numbers mid
      if value = target then pure (.exit mid)
      else if value > target then pure (.next (left, mid - 1))
      else pure (.next (mid + 1, right))
    else pure (.exit (-1))

/-- `TwoSumController2.binarySearch`, over `left...right`. -/
def windowSearch (numbers : List ℤ) (left right target : ℤ) : Prog ℤ :=
  loop (windowSearchTurn numbers target) (left, right)

end Algorithm

namespace QY

def undefinedIndex : ℤ := -1

/-- `while left <= right` -/
def binarySearchTurn (nums : List ℤ) (target : ℤ) : ℤ × ℤ → Prog (Turn (ℤ × ℤ) ℤ)
  | (left, right) =>
    if left ≤ right then do
      let middle := left + (right - left).tdiv 2
      let value ← get nums middle
      if target < value then pure (.next (left, middle - 1))
      else if target > value then pure (.next (middle + 1, right))
      else pure (.exit middle)
    else pure (.exit undefinedIndex)

/-- Closed interval. -/
def binarySearch (nums : List ℤ) (target : ℤ) : Prog ℤ :=
  loop (binarySearchTurn nums target) (0, (nums.length : ℤ) - 1)

/-- `while left < right`, with a shift for the half. -/
def binarySearch2Turn (nums : List ℤ) (target : ℤ) : ℤ × ℤ → Prog (Turn (ℤ × ℤ) ℤ)
  | (left, right) =>
    if left < right then do
      let middle := left + ((right - left) >>> (1 : ℕ))
      let value ← get nums middle
      if target < value then pure (.next (left, middle))
      else if target > value then pure (.next (middle + 1, right))
      else pure (.exit middle)
    else pure (.exit (-1))

/-- Half-open interval. -/
def binarySearch2 (nums : List ℤ) (target : ℤ) : Prog ℤ :=
  loop (binarySearch2Turn nums target) (0, (nums.length : ℤ))

/-- `while left < right`, the other comparison first. -/
def binarySearch3Turn (nums : List ℤ) (target : ℤ) : ℤ × ℤ → Prog (Turn (ℤ × ℤ) ℤ)
  | (left, right) =>
    if left < right then do
      let middle := left + (right - left).tdiv 2
      let value ← get nums middle
      if target > value then pure (.next (middle + 1, right))
      else if target < value then pure (.next (left, middle))
      else pure (.exit middle)
    else pure (.exit (-1))

/-- Half-open interval. -/
def binarySearch3 (nums : List ℤ) (target : ℤ) : Prog ℤ :=
  loop (binarySearch3Turn nums target) (0, (nums.length : ℤ))

end QY

namespace Playground

/-- `while lowerBound < upperBound` -/
def binarySearchTurn (nums : List ℤ) (target : ℤ) : ℤ × ℤ → Prog (Turn (ℤ × ℤ) ℤ)
  | (lowerBound, upperBound) =>
    if lowerBound < upperBound then do
      let midIndex := lowerBound + (upperBound - lowerBound).tdiv 2
      let midValue ← get nums midIndex
      if midValue = target then pure (.exit midIndex)
      else if midValue < target then pure (.next (midIndex + 1, upperBound))
      else pure (.next (lowerBound, midIndex))
    else pure (.exit (-1))

def binarySearch (nums : List ℤ) (target : ℤ) : Prog ℤ :=
  loop (binarySearchTurn nums target) (0, (nums.length : ℤ))

end Playground

/-! ## Every loop bisects -/

section Turns

variable (nums : List ℤ) (target : ℤ)

/-- The window of a closed interval. -/
def closed (s : ℤ × ℤ) : ℤ × ℤ := (s.1, s.2 + 1)

/-- The middle of a window, as a position of the list. -/
theorem exists_mid {left right up : ℤ} (h0 : 0 ≤ left) (hle : left ≤ right) (hlt : left < up)
    (hright : right ≤ up) (hup : up ≤ nums.length) :
    ∃ (mid : ℕ) (v : ℤ), left + (right - left).tdiv 2 = mid ∧ left ≤ mid ∧ (mid : ℤ) < up ∧
      nums[mid]? = some v := by
  rw [Int.tdiv_eq_ediv_of_nonneg (by omega)]
  have hm : (left + (right - left) / 2).toNat < nums.length := by omega
  exact ⟨(left + (right - left) / 2).toNat, nums[(left + (right - left) / 2).toNat], by omega,
    by omega, by omega, List.getElem?_eq_getElem hm⟩

variable {nums target} {turn : ℤ × ℤ → Prog (Turn (ℤ × ℤ) ℤ)}

/-- A turn over a closed interval that compares the middle with the target bisects. -/
theorem bisectTurn_closed
    (hexit : ∀ left right : ℤ, right < left → turn (left, right) = pure (.exit (-1)))
    (hprobe : ∀ (left right : ℤ) (mid : ℕ) (v : ℤ), left ≤ right → left + (right - left).tdiv 2 = mid →
      nums[mid]? = some v → turn (left, right) = pure
        (if v < target then .next ((mid : ℤ) + 1, right)
          else if target < v then .next (left, (mid : ℤ) - 1) else .exit (mid : ℤ))) :
    BisectTurn nums target turn closed where
  exit := by
    rintro ⟨left, right⟩ h
    exact hexit left right (by simp only [closed] at h; omega)
  probe := by
    rintro ⟨left, right⟩ h0 hlen hlt
    simp only [closed] at h0 hlen hlt ⊢
    obtain ⟨mid, v, hmid, hlo, hup, hv⟩ :=
      exists_mid nums h0 (show left ≤ right by omega) hlt (by omega) hlen
    have hturn := hprobe left right mid v (by omega) hmid hv
    refine ⟨mid, v, hlo, hup, hv, fun he => ?_, fun hl => ?_, fun hg => ?_⟩
    · rw [hturn, he, if_neg (lt_irrefl _), if_neg (lt_irrefl _)]
    · exact ⟨_, by rw [hturn, if_pos hl], rfl⟩
    · exact ⟨_, by rw [hturn, if_neg hg.not_gt, if_pos hg], by simp⟩

/-- The same over a half-open interval. -/
theorem bisectTurn_halfOpen
    (hexit : ∀ left right : ℤ, right ≤ left → turn (left, right) = pure (.exit (-1)))
    (hprobe : ∀ (left right : ℤ) (mid : ℕ) (v : ℤ), left < right → left + (right - left).tdiv 2 = mid →
      nums[mid]? = some v → turn (left, right) = pure
        (if v < target then .next ((mid : ℤ) + 1, right)
          else if target < v then .next (left, (mid : ℤ)) else .exit (mid : ℤ))) :
    BisectTurn nums target turn id where
  exit := by
    rintro ⟨left, right⟩ h
    exact hexit left right h
  probe := by
    rintro ⟨left, right⟩ h0 hlen hlt
    simp only [id] at h0 hlen hlt ⊢
    obtain ⟨mid, v, hmid, hlo, hup, hv⟩ :=
      exists_mid nums h0 (show left ≤ right from hlt.le) hlt le_rfl hlen
    have hturn := hprobe left right mid v hlt hmid hv
    refine ⟨mid, v, hlo, hup, hv, fun he => ?_, fun hl => ?_, fun hg => ?_⟩
    · rw [hturn, he, if_neg (lt_irrefl _), if_neg (lt_irrefl _)]
    · exact ⟨_, by rw [hturn, if_pos hl], rfl⟩
    · exact ⟨_, by rw [hturn, if_neg hg.not_gt, if_pos hg], rfl⟩

variable (nums target)

theorem algorithm_binarySearchTurn :
    BisectTurn nums target (Algorithm.binarySearchTurn nums target) closed := by
  refine bisectTurn_closed (fun left right h => if_neg (by omega)) ?_
  intro left right mid v hle hmid hv
  simp only [Algorithm.binarySearchTurn, if_pos hle, hmid, get_eq hv, pure_bind]
  split_ifs <;> first | rfl | omega

theorem algorithm_binarySearch1Turn :
    BisectTurn nums target (Algorithm.binarySearch1Turn nums target) id := by
  refine bisectTurn_halfOpen (fun left right h => if_neg (by omega)) ?_
  intro left right mid v hlt hmid hv
  simp only [Algorithm.binarySearch1Turn, if_pos hlt, hmid, get_eq hv, pure_bind]
  split_ifs <;> first | rfl | omega

theorem algorithm_windowSearchTurn :
    BisectTurn nums target (Algorithm.windowSearchTurn nums target) closed := by
  refine bisectTurn_closed (fun left right h => if_neg (by omega)) ?_
  intro left right mid v hle hmid hv
  simp only [Algorithm.windowSearchTurn, if_pos hle, hmid, get_eq hv, pure_bind]
  split_ifs <;> first | rfl | omega

theorem qy_binarySearchTurn :
    BisectTurn nums target (QY.binarySearchTurn nums target) closed := by
  refine bisectTurn_closed (fun left right h => if_neg (by omega)) ?_
  intro left right mid v hle hmid hv
  simp only [QY.binarySearchTurn, if_pos hle, hmid, get_eq hv, pure_bind]
  split_ifs <;> first | rfl | omega

/-- The shift of a non-negative length is its half. -/
theorem shiftRight_one {a : ℤ} (ha : 0 ≤ a) : a >>> (1 : ℕ) = a.tdiv 2 := by
  rw [Int.shiftRight_eq_div_pow, Int.tdiv_eq_ediv_of_nonneg ha]
  rfl

theorem qy_binarySearch2Turn :
    BisectTurn nums target (QY.binarySearch2Turn nums target) id := by
  refine bisectTurn_halfOpen (fun left right h => if_neg (by omega)) ?_
  intro left right mid v hlt hmid hv
  have hshift := shiftRight_one (show 0 ≤ right - left by omega)
  simp only [QY.binarySearch2Turn, if_pos hlt, hshift, hmid, get_eq hv, pure_bind]
  split_ifs <;> first | rfl | omega

theorem qy_binarySearch3Turn :
    BisectTurn nums target (QY.binarySearch3Turn nums target) id := by
  refine bisectTurn_halfOpen (fun left right h => if_neg (by omega)) ?_
  intro left right mid v hlt hmid hv
  simp only [QY.binarySearch3Turn, if_pos hlt, hmid, get_eq hv, pure_bind]
  split_ifs <;> rfl

theorem playground_binarySearchTurn :
    BisectTurn nums target (Playground.binarySearchTurn nums target) id := by
  refine bisectTurn_halfOpen (fun left right h => if_neg (by omega)) ?_
  intro left right mid v hlt hmid hv
  simp only [Playground.binarySearchTurn, if_pos hlt, hmid, get_eq hv, pure_bind]
  split_ifs <;> first | rfl | omega

end Turns

/-! ## The searches -/

/-- The searches over the whole array. -/
inductive WholeSearch
  | algorithmBinarySearch
  | algorithmBinarySearch1
  | qyBinarySearch
  | qyBinarySearch2
  | qyBinarySearch3
  | playgroundBinarySearch
  deriving DecidableEq, Repr

def WholeSearch.run : WholeSearch → List ℤ → ℤ → Prog ℤ
  | .algorithmBinarySearch => Algorithm.binarySearch
  | .algorithmBinarySearch1 => Algorithm.binarySearch1
  | .qyBinarySearch => QY.binarySearch
  | .qyBinarySearch2 => QY.binarySearch2
  | .qyBinarySearch3 => QY.binarySearch3
  | .playgroundBinarySearch => Playground.binarySearch

section Searches

variable {nums : List ℤ} (target : ℤ) (hs : nums.Pairwise (· ≤ ·))
include hs

theorem halts_windowSearch {left right : ℤ} (h0 : 0 ≤ left) (hr : right < nums.length) :
    Halts (Algorithm.windowSearch nums left right target) (Finds nums target left (right + 1)) :=
  halts_bisect hs (algorithm_windowSearchTurn nums target) (left, right) h0
    (by simp only [closed]; omega)

/-- A closed loop over the whole array. -/
theorem halts_wholeClosed {turn : ℤ × ℤ → Prog (Turn (ℤ × ℤ) ℤ)}
    (ht : BisectTurn nums target turn closed) :
    Halts (loop turn (0, (nums.length : ℤ) - 1)) (Finds nums target 0 nums.length) := by
  have := halts_bisect hs ht (0, (nums.length : ℤ) - 1) le_rfl (by simp [closed])
  rwa [show (closed (0, (nums.length : ℤ) - 1)) = (0, (nums.length : ℤ)) by simp [closed]] at this

/-- A half-open loop over the whole array. -/
theorem halts_wholeHalfOpen {turn : ℤ × ℤ → Prog (Turn (ℤ × ℤ) ℤ)}
    (ht : BisectTurn nums target turn id) :
    Halts (loop turn (0, (nums.length : ℤ))) (Finds nums target 0 nums.length) :=
  halts_bisect hs ht (0, (nums.length : ℤ)) le_rfl le_rfl

omit hs in
/-- Nothing is found in the empty array. -/
theorem finds_empty (he : nums.isEmpty) : Finds nums target 0 nums.length (-1) := by
  rw [List.isEmpty_iff] at he
  subst he
  exact ⟨fun _ => rfl, fun ⟨i, hi⟩ => absurd hi.2.2 (by simp)⟩

theorem halts_run (f : WholeSearch) :
    Halts (f.run nums target) (Finds nums target 0 nums.length) := by
  cases f with
  | algorithmBinarySearch =>
    show Halts (Algorithm.binarySearch nums target) _
    unfold Algorithm.binarySearch
    by_cases he : nums.isEmpty
    · rw [if_pos he]
      exact halts_pure (finds_empty target he)
    · rw [if_neg he]
      exact halts_wholeClosed target hs (algorithm_binarySearchTurn nums target)
  | algorithmBinarySearch1 =>
    show Halts (Algorithm.binarySearch1 nums target) _
    unfold Algorithm.binarySearch1
    by_cases he : nums.isEmpty
    · rw [if_pos he]
      exact halts_pure (finds_empty target he)
    · rw [if_neg he]
      exact halts_wholeHalfOpen target hs (algorithm_binarySearch1Turn nums target)
  | qyBinarySearch => exact halts_wholeClosed target hs (qy_binarySearchTurn nums target)
  | qyBinarySearch2 => exact halts_wholeHalfOpen target hs (qy_binarySearch2Turn nums target)
  | qyBinarySearch3 => exact halts_wholeHalfOpen target hs (qy_binarySearch3Turn nums target)
  | playgroundBinarySearch =>
    exact halts_wholeHalfOpen target hs (playground_binarySearchTurn nums target)

end Searches

/-- **The seven searches** on a non-decreasing array: every whole-array search, and the window search
over every window of valid indices, returns `-1` when the target is not in the range searched and an
index of the range holding it otherwise; on a strictly increasing array the whole-array searches
return one and the same index. -/
theorem binarySearch_spec (nums : List ℤ) (target : ℤ) (hs : nums.Pairwise (· ≤ ·)) :
    (∀ f : WholeSearch, ∃ r, Returns (f.run nums target) r ∧ Finds nums target 0 nums.length r) ∧
    (∀ left right : ℤ, 0 ≤ left → right < nums.length →
      ∃ r, Returns (Algorithm.windowSearch nums left right target) r ∧
        Finds nums target left (right + 1) r) ∧
    (nums.Pairwise (· < ·) → ∃ r, ∀ f : WholeSearch, Returns (f.run nums target) r) := by
  refine ⟨fun f => halts_run target hs f, fun left right h0 hr => halts_windowSearch target hs h0 hr,
    fun hlt => ?_⟩
  obtain ⟨r, -, hfinds⟩ := halts_run target hs .qyBinarySearch
  refine ⟨r, ?_⟩
  intro f
  obtain ⟨r', hr', hfinds'⟩ := halts_run target hs f
  rwa [hfinds.unique hlt hfinds']

theorem binarySearch_spec_five :
    (∀ f : WholeSearch, ∃ r, Returns (f.run [1, 3, 4, 5, 7] 3) r ∧ Finds [(1 : ℤ), 3, 4, 5, 7] 3 0 5 r) ∧
    (∀ left right : ℤ, 0 ≤ left → right < 5 →
      ∃ r, Returns (Algorithm.windowSearch [1, 3, 4, 5, 7] left right 3) r ∧
        Finds [(1 : ℤ), 3, 4, 5, 7] 3 left (right + 1) r) ∧
    ([(1 : ℤ), 3, 4, 5, 7].Pairwise (· < ·) →
      ∃ r, ∀ f : WholeSearch, Returns (f.run [1, 3, 4, 5, 7] 3) r) :=
  binarySearch_spec [1, 3, 4, 5, 7] 3 (by decide)

end QYInterview.BinarySearch
