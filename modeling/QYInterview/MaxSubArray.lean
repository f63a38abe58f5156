import QYInterview.Swift
import QYInterview.Lib.Segment

/-!
# MaxSubArray — the greatest sum of a contiguous part (`Sum/MaxSubArrayController.swift`)

All three versions run on the same three facts of `Segment`: `maxSubArray` goes through the sums by their
first position, `maxSubArray1` and `maxSubArray2` by their last one.  The greedy version keeps `0` or the
greatest sum that ends before the next element, the dynamic one writes the greatest sum that ends at a
position into the array.
-/

namespace QYInterview.MaxSubArray

open RunLogic Swift Segment

/-! ## The code -/

/-- The inner loop of `maxSubArray`, over `sum`, `cur`. -/
def maxSubArrayInner (nums : List ℤ) : ℤ × ℤ → ℤ → Prog (ℤ × ℤ)
  | (sum, cur), j => do
    let cur ← int (cur + (← get nums j))
    let sum := if sum > cur then sum else cur
    return (sum, cur)

/-- The outer loop of `maxSubArray`, over `sum`, `cur`. -/
def maxSubArrayOuter (nums : List ℤ) : ℤ × ℤ → ℤ → Prog (ℤ × ℤ)
  | (sum, _), i =>
    let cur := 0
    forRange i nums.length (maxSubArrayInner nums) (sum, cur)

/-- All pairs. -/
def maxSubArray (nums : List ℤ) : Prog ℤ :=
  if nums.length = 1 then get nums 0
  else do
    let (sum, _) ← forRange 0 nums.length (maxSubArrayOuter nums) (intMin, 0)
    return sum

/-- The loop of `maxSubArray1`, over `cur`, `max`. -/
def maxSubArray1Body (nums : List ℤ) : ℤ × ℤ → ℤ → Prog (ℤ × ℤ)
  | (cur, max), i => do
    let cur ← int (cur + (← get nums i))
    let max := if max > cur then max else cur
    let cur := if cur < 0 then 0 else cur
    return (cur, max)

/-- Greedy. -/
def maxSubArray1 (nums : List ℤ) : Prog ℤ := do
  let (_, max) ← forRange 0 nums.length (maxSubArray1Body nums) (0, intMin)
  return max

/-- The loop of `maxSubArray2`, over `nums`. -/
def maxSubArray2Body (nums : List ℤ) (i : ℤ) : Prog (List ℤ) := do
  if (← get nums (i - 1)) > 0 then
    set nums i (← int ((← get nums i) + (← get nums (i - 1))))
  else return nums

/-- Dynamic programming in the array itself. -/
def maxSubArray2 (nums : List ℤ) : Prog ℤ := do
  let nums ← forRange 1 nums.length maxSubArray2Body nums
  return nums.max?.getD 0

/-! ## The greatest sum so far -/

section Greatest

variable {nums : List ℤ} {a b c m : ℤ} {S T : Set ℤ}

/-- `max = max > cur ? max : cur` -/
theorem greatest_larger (hm : IsGreatest S m) (hc : IsGreatest T c) :
    IsGreatest (S ∪ T) (if m > c then m else c) := by
  have heq : (if m > c then m else c) = max m c := by split_ifs <;> omega
  rw [heq]
  exact hm.union hc

/-- `cur = cur < 0 ? 0 : cur` -/
theorem greatest_reset (hc : IsGreatest S c) : IsGreatest (insert 0 S) (if c < 0 then 0 else c) := by
  have heq : (if c < 0 then 0 else c) = max 0 c := by split_ifs <;> omega
  rw [heq]
  exact hc.insert 0

/-- The value the search starts with is forgotten. -/
theorem greatest_of_intMin (hne : nums ≠ []) (h : ∀ s ∈ sums nums, IsInt s)
    (hm : IsGreatest (insert intMin (sums nums)) m) : IsGreatest (sums nums) m :=
  greatest_of_insert ⟨_, segSum_mem_sums (List.length_pos_iff.mpr hne) le_rfl⟩
    (fun s hs => (h s hs).1) hm

end Greatest

/-! ## The three versions -/

section Versions

variable {nums : List ℤ} (h : ∀ s ∈ sums nums, IsInt s)
include h

/-- The inner loop goes through the sums that start at `i`. -/
theorem halts_maxSubArrayOuter {i : ℕ} (hi : i < nums.length) {S : Set ℤ} {s : ℤ × ℤ}
    (hs : IsGreatest S s.1) :
    Halts (maxSubArrayOuter nums s i) fun s' => IsGreatest (S ∪ startSums nums i nums.length) s'.1 := by
  have hloop : Halts (forRange i nums.length (maxSubArrayInner nums) (s.1, 0)) fun s' =>
      IsGreatest (S ∪ startSums nums i nums.length) s'.1 ∧ s'.2 = segSum nums i nums.length := by
    refine halts_forRange hi.le (fun j (s' : ℤ × ℤ) => IsGreatest (S ∪ startSums nums i j) s'.1 ∧
      s'.2 = segSum nums i j) (fun j s' hij hj hI => ?_) ?_
    · obtain ⟨sum, cur⟩ := s'
      obtain ⟨hsum, rfl⟩ := hI
      have ha := List.getElem?_eq_getElem hj
      have hcur := segSum_succ ha i
      have hint : IsInt (segSum nums i (j + 1)) := h _ (segSum_mem_sums (by omega) (by omega))
      unfold maxSubArrayInner
      simp only [get_eq ha, pure_bind, ← hcur, int_eq hint]
      refine halts_pure ⟨?_, rfl⟩
      rw [startSums_succ hij, Set.insert_eq, Set.union_comm {_}, ← Set.union_assoc]
      exact greatest_larger hsum isGreatest_singleton
    · rw [startSums_self, Set.union_empty, segSum_self]
      exact ⟨hs, rfl⟩
  exact hloop.mono fun s' hs' => hs'.1

theorem halts_maxSubArray (hne : nums ≠ []) : Halts (maxSubArray nums) (IsGreatest (sums nums)) := by
  unfold maxSubArray
  by_cases h1 : (nums.length : ℤ) = 1
  · rw [if_pos (by exact_mod_cast h1)]
    obtain ⟨a, rfl⟩ := List.length_eq_one_iff.mp (show nums.length = 1 by omega)
    refine halts_pure ?_
    rw [sums_eq]
    show IsGreatest (sumsUpTo [a] (0 + 1)) a
    rw [sumsUpTo_succ, sumsUpTo_zero, Set.empty_union]
    exact greatest_endSums_one rfl
  · rw [if_neg (by exact_mod_cast h1)]
    have hloop : Halts (forRange 0 nums.length (maxSubArrayOuter nums) (intMin, 0)) fun s =>
        IsGreatest (insert intMin (sumsFrom nums nums.length)) s.1 := by
      refine halts_forRange (Nat.zero_le _)
        (fun n (s : ℤ × ℤ) => IsGreatest (insert intMin (sumsFrom nums n)) s.1) (fun i s _ hi hI => ?_) ?_
      · rw [sumsFrom_succ, ← Set.insert_union]
        exact halts_maxSubArrayOuter h hi hI
      · simp
    refine halts_bind (hloop.mono fun s hs => halts_pure (greatest_of_intMin hne h ?_))
    rwa [sums_eq_sumsFrom]

theorem halts_maxSubArray1 (hne : nums ≠ []) :
    Halts (maxSubArray1 nums) (IsGreatest (sums nums)) := by
  have hloop : Halts (forRange 0 nums.length (maxSubArray1Body nums) (0, intMin)) fun s =>
      IsGreatest (insert 0 (endSums nums nums.length)) s.1 ∧
        IsGreatest (insert intMin (sumsUpTo nums nums.length)) s.2 := by
    refine halts_forRange (Nat.zero_le _) (fun n (s : ℤ × ℤ) =>
      IsGreatest (insert 0 (endSums nums n)) s.1 ∧
        IsGreatest (insert intMin (sumsUpTo nums n)) s.2) (fun i s _ hi hI => ?_) ?_
    · obtain ⟨cur, max⟩ := s
      obtain ⟨hcur, hmax⟩ := hI
      have ha := List.getElem?_eq_getElem hi
      have hend := greatest_endSums_succ ha hcur
      unfold maxSubArray1Body
      simp only [get_eq ha, pure_bind, int_eq (h _ (endSums_subset hi hend.1))]
      refine halts_pure ⟨greatest_reset hend, ?_⟩
      rw [sumsUpTo_succ, ← Set.insert_union]
      exact greatest_larger hmax hend
    · simp
  refine halts_bind (hloop.mono fun s hs => halts_pure (greatest_of_intMin hne h ?_))
  rw [sums_eq]
  exact hs.2

/-- The array before turn `n`: the greatest sums that end at the positions before `n`, and behind them the
elements as they were. -/
structure Ends (nums : List ℤ) (n : ℕ) (dp : List ℤ) : Prop where
  length_eq : dp.length = nums.length
  before : ∀ k, k < n → ∃ e, dp[k]? = some e ∧ IsGreatest (endSums nums (k + 1)) e
  behind : ∀ k, n ≤ k → dp[k]? = nums[k]?

omit h in
theorem Ends.write {i : ℕ} {dp : List ℤ} {e : ℤ} (hI : Ends nums (i + 1) dp) (hi : i + 1 < nums.length)
    (he : IsGreatest (endSums nums (i + 2)) e) : Ends nums (i + 2) (dp.set (i + 1) e) := by
  refine ⟨by rw [List.length_set]; exact hI.length_eq, fun k hk => ?_, fun k hk => ?_⟩
  · rcases Nat.lt_or_eq_of_le (Nat.lt_succ_iff.mp hk) with hlt | rfl
    · rw [List.getElem?_set_ne (by omega)]
      exact hI.before k hlt
    · rw [List.getElem?_set_self (by rw [hI.length_eq]; exact hi)]
      exact ⟨_, rfl, he⟩
  · rw [List.getElem?_set_ne (by omega)]
    exact hI.behind k (by omega)

omit h in
/-- An element that is the greatest sum itself stays. -/
theorem Ends.keep {i : ℕ} {dp : List ℤ} {e : ℤ} (hI : Ends nums (i + 1) dp) (hi : nums[i + 1]? = some e)
    (he : IsGreatest (endSums nums (i + 2)) e) : Ends nums (i + 2) dp := by
  obtain ⟨hlt, -⟩ := List.getElem?_eq_some_iff.mp hi
  obtain ⟨_, hdp⟩ := List.getElem?_eq_some_iff.mp ((hI.behind (i + 1) le_rfl).trans hi)
  have hwrite := hI.write hlt he
  rwa [← hdp, List.set_getElem_self] at hwrite

omit h in
/-- In the end the greatest entry is the greatest sum. -/
theorem Ends.exists_max {dp : List ℤ} (hdp : Ends nums nums.length dp) (hne : nums ≠ []) :
    ∃ m, dp.max? = some m ∧ IsGreatest (sums nums) m := by
  obtain ⟨m, hm⟩ : ∃ m, dp.max? = some m := by
    refine Option.isSome_iff_exists.mp (List.isSome_max?_of_ne_nil fun hnil => ?_)
    have hlen := hdp.length_eq
    rw [hnil] at hlen
    exact hne (List.length_eq_zero_iff.mp hlen.symm)
  obtain ⟨hmem, hup⟩ := List.max?_eq_some_iff.mp hm
  refine ⟨m, hm, ?_⟩
  rw [sums_eq]
  constructor
  · obtain ⟨k, hk⟩ := List.mem_iff_getElem?.mp hmem
    have hkn : k < nums.length := hdp.length_eq ▸ (List.getElem?_eq_some_iff.mp hk).1
    obtain ⟨e, he, hend⟩ := hdp.before k hkn
    obtain rfl := Option.some.inj (he.symm.trans hk)
    obtain ⟨i, hi, hsum⟩ := hend.1
    exact ⟨i, k + 1, hi, hkn, hsum⟩
  · rintro s ⟨i, k, hik, hk, rfl⟩
    obtain ⟨k, rfl⟩ := Nat.exists_eq_add_of_le' (show 1 ≤ k by omega)
    obtain ⟨e, he, hend⟩ := hdp.before k hk
    exact (hend.2 ⟨i, hik, rfl⟩).trans (hup e (List.mem_of_getElem? he))

theorem halts_maxSubArray2Body {i : ℕ} (hi : i + 1 < nums.length) {dp : List ℤ}
    (hI : Ends nums (i + 1) dp) : Halts (maxSubArray2Body dp ((i + 1 : ℕ) : ℤ)) (Ends nums (i + 2)) := by
  obtain ⟨e, he, hend⟩ := hI.before i (Nat.lt_succ_self i)
  have ha := List.getElem?_eq_getElem hi
  have ha' : dp[i + 1]? = some nums[i + 1] := (hI.behind (i + 1) le_rfl).trans ha
  have hi' : ((i + 1 : ℕ) : ℤ) - 1 = (i : ℤ) := by push_cast; ring
  have hnext := greatest_endSums_succ ha (greatest_reset hend)
  unfold maxSubArray2Body
  rw [hi', get_eq he, pure_bind]
  by_cases hpos : e > 0
  · rw [if_neg (not_lt.mpr hpos.le), add_comm e] at hnext
    simp only [if_pos hpos, get_eq ha', pure_bind, int_eq (h _ (endSums_subset hi hnext.1))]
    rw [set_eq (by rw [hI.length_eq]; exact hi)]
    exact halts_pure (hI.write hi hnext)
  · rw [if_neg hpos]
    have hzero : (if e < 0 then 0 else e) = 0 := by split_ifs <;> omega
    rw [hzero, zero_add] at hnext
    exact halts_pure (hI.keep ha hnext)

theorem halts_maxSubArray2 (hne : nums ≠ []) : Halts (maxSubArray2 nums) (IsGreatest (sums nums)) := by
  have hpos : 0 < nums.length := List.length_pos_iff.mpr hne
  have hloop : Halts (forRange 1 nums.length maxSubArray2Body nums) (Ends nums nums.length) := by
    refine halts_forRange hpos (Ends nums) (fun i dp h1 hi hI => ?_) ⟨rfl, fun k hk => ?_, fun _ _ => rfl⟩
    · obtain ⟨i, rfl⟩ := Nat.exists_eq_add_of_le' h1
      exact halts_maxSubArray2Body h hi hI
    · obtain rfl : k = 0 := by omega
      have ha := List.getElem?_eq_getElem hpos
      exact ⟨nums[0], ha, greatest_endSums_one ha⟩
  refine halts_bind (hloop.mono ?_)
  intro dp hdp
  obtain ⟨m, hm, hgreatest⟩ := hdp.exists_max hne
  rw [hm]
  exact halts_pure hgreatest

end Versions

/-- **The three versions** return the same number, the greatest sum of a non-empty contiguous part. -/
theorem maxSubArray_spec (nums : List ℤ) (hne : nums ≠ []) (h : ∀ s ∈ sums nums, IsInt s) :
    ∃ m, Returns (maxSubArray nums) m ∧ Returns (maxSubArray1 nums) m ∧ Returns (maxSubArray2 nums) m ∧
      (∃ l, l ≠ [] ∧ l.IsInfix nums ∧ l.sum = m) ∧ ∀ l, l ≠ [] → l.IsInfix nums → l.sum ≤ m := by
  obtain ⟨m, hm, hgr⟩ := halts_maxSubArray h hne
  obtain ⟨m₁, hm₁, hgr₁⟩ := halts_maxSubArray1 h hne
  obtain ⟨m₂, hm₂, hgr₂⟩ := halts_maxSubArray2 h hne
  rw [hgr₁.unique hgr] at hm₁
  rw [hgr₂.unique hgr] at hm₂
  exact ⟨m, hm, hm₁, hm₂, hgr.1, fun l hl hinf => hgr.2 ⟨l, hl, hinf, rfl⟩⟩

/-- The example of the controller. -/
theorem maxSubArray_spec_nine :
    ∃ m, Returns (maxSubArray [-2, 1, -3, 4, -1, 2, 1, -5, 4]) m ∧
      Returns (maxSubArray1 [-2, 1, -3, 4, -1, 2, 1, -5, 4]) m ∧
      Returns (maxSubArray2 [-2, 1, -3, 4, -1, 2, 1, -5, 4]) m ∧ 6 ≤ m := by
  have hint : ∀ s ∈ sums [(-2 : ℤ), 1, -3, 4, -1, 2, 1, -5, 4], IsInt s := by
    rw [sums_eq]
    rintro s ⟨i, k, hik, hk, rfl⟩
    have hall : ∀ k ≤ 9, ∀ i < k, IsInt (segSum [(-2 : ℤ), 1, -3, 4, -1, 2, 1, -5, 4] i k) := by decide
    exact hall k hk i hik
  obtain ⟨m, h0, h1, h2, -, hmax⟩ := maxSubArray_spec _ (by decide) hint
  exact ⟨m, h0, h1, h2, hmax [4, -1, 2, 1] (by decide) ⟨[-2, 1, -3], [-5, 4], rfl⟩⟩

end QYInterview.MaxSubArray
