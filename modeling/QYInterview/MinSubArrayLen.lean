import QYInterview.Lib.Segment
import QYInterview.Swift

/-!
# MinSubArrayLen — the shortest part with a sum of at least `target` (`MinSubArrayLenController.swift`)

When a start is given up, the shortest part from it that reaches `target` has been counted: all shorter ones
fell short while it was the start of the window, and so did all parts of that window.
-/

namespace QYInterview.MinSubArrayLen

open RunLogic Swift Segment

/-! ## The code -/

/-- `while sum >= target`, over `result`, `sum`, `starIndex`. -/
def shrinkTurn (target : ℤ) (nums : List ℤ) (endIndex : ℤ) : ℤ × ℤ × ℤ → Prog (Turn (ℤ × ℤ × ℤ) (ℤ × ℤ × ℤ))
  | (result, sum, starIndex) =>
    if sum ≥ target then do
      let result := min result (endIndex - starIndex + 1)
      let sum ← int (sum - (← get nums starIndex))
      return .next (result, sum, starIndex + 1)
    else return .exit (result, sum, starIndex)

/-- `for endIndex in 0..<nums.count` -/
def endBody (target : ℤ) (nums : List ℤ) : ℤ × ℤ × ℤ → ℤ → Prog (ℤ × ℤ × ℤ)
  | (result, sum, starIndex), endIndex => do
    let sum ← int (sum + (← get nums endIndex))
    loop (shrinkTurn target nums endIndex) (result, sum, starIndex)

def minSubArrayLen (target : ℤ) (nums : List ℤ) : Prog ℤ := do
  let (result, _, _) ← forRange 0 nums.length (endBody target nums) (intMax, 0, 0)
  return if result = intMax then 0 else result

/-! ## The window -/

section Window

variable {target : ℤ} {nums : List ℤ} {result : ℤ} {a j : ℕ}

/-- The parts that start before `a` are counted; `result` is the length of a part that ends before `j` or
`Int.max`, and no part from `a` on that ends before `k` reaches `target`. -/
structure Counted (target : ℤ) (nums : List ℤ) (result : ℤ) (a k j : ℕ) : Prop where
  start_le : a ≤ j
  bound : ∀ i m, i < a → i < m → m ≤ nums.length → target ≤ segSum nums i m → result ≤ (m : ℤ) - i
  attained : result = intMax ∨ ∃ i m, i < m ∧ m ≤ j ∧ target ≤ segSum nums i m ∧ result = (m : ℤ) - i
  short : ∀ i m, a ≤ i → m ≤ k → segSum nums i m < target

/-- The variables when the window is `a ≤ i < j` and no part up to `k` is to be counted any more. -/
def Window (target : ℤ) (nums : List ℤ) (k j : ℕ) : ℤ × ℤ × ℤ → Prop
  | (result, sum, starIndex) => ∃ a : ℕ, starIndex = a ∧ sum = segSum nums a j ∧
      Counted target nums result a k j

/-- The start of a window that reaches `target` is given up. -/
theorem Counted.shrink (h : Counted target nums result a j (j + 1)) (ht : 0 < target)
    (hreach : target ≤ segSum nums a (j + 1)) :
    a ≤ j ∧ Counted target nums (min result ((j : ℤ) - a + 1)) (a + 1) j (j + 1) := by
  have haj : a ≤ j := by
    by_contra hlt
    obtain rfl : a = j + 1 := Nat.le_antisymm h.start_le (by omega)
    rw [segSum_self] at hreach
    omega
  refine ⟨haj, by omega, ?_, ?_, ?_⟩
  · intro i m hi him hm hs
    rcases Nat.lt_or_eq_of_le (Nat.lt_succ_iff.mp hi) with hia | rfl
    · exact (min_le_left _ _).trans (h.bound i m hia him hm hs)
    · have hjm : j < m := by
        by_contra hle
        exact absurd (h.short i m le_rfl (not_lt.mp hle)) (not_lt.mpr hs)
      exact (min_le_right _ _).trans (by omega)
  · rcases min_choice result ((j : ℤ) - a + 1) with hmin | hmin
    · rw [hmin]
      exact h.attained
    · rw [hmin]
      exact Or.inr ⟨a, j + 1, by omega, le_rfl, hreach, by omega⟩
  · intro i m hi hm
    exact h.short i m (by omega) hm

variable (hint : ∀ s ∈ sums nums, IsInt s) (ht : 0 < target) (hpos : ∀ x ∈ nums, 0 < x)

include hint in
/-- Every sum of a window is in range. -/
theorem isInt_segSum (haj : a ≤ j) (hj : j ≤ nums.length) : IsInt (segSum nums a j) := by
  rcases Nat.lt_or_eq_of_le haj with hlt | rfl
  · exact hint _ (segSum_mem_sums hlt hj)
  · rw [segSum_self]
    decide

include hint ht

theorem halts_shrinkTurn (hj : j < nums.length) {s : ℤ × ℤ × ℤ} (hs : Window target nums j (j + 1) s) :
    Halts (shrinkTurn target nums j s) (Turn.Good
      (fun s' => Window target nums j (j + 1) s' ∧ (j + 1 - s'.2.2).toNat < (j + 1 - s.2.2).toNat)
      fun s' => Window target nums j (j + 1) s' ∧ s'.2.1 < target) := by
  obtain ⟨result, sum, starIndex⟩ := s
  obtain ⟨a, rfl, rfl, hc⟩ := hs
  by_cases hreach : segSum nums a (j + 1) ≥ target
  · obtain ⟨haj, hc'⟩ := hc.shrink ht hreach
    have hget := List.getElem?_eq_getElem (show a < nums.length by omega)
    have hsum : segSum nums a (j + 1) - nums[a] = segSum nums (a + 1) (j + 1) := by
      rw [segSum, segSum, sum_take_succ hget, sub_sub]
    simp only [shrinkTurn, if_pos hreach, get_eq hget, pure_bind, hsum,
      int_eq (isInt_segSum hint (show a + 1 ≤ j + 1 by omega) hj)]
    exact halts_pure ⟨⟨a + 1, by push_cast; rfl, rfl, hc'⟩, by dsimp only; omega⟩
  · simp only [shrinkTurn, if_neg hreach]
    exact halts_pure ⟨⟨a, rfl, rfl, hc⟩, not_le.mp hreach⟩

include hpos

theorem halts_endBody (hj : j < nums.length) {s : ℤ × ℤ × ℤ} (hs : Window target nums j j s) :
    Halts (endBody target nums s j) (Window target nums (j + 1) (j + 1)) := by
  obtain ⟨result, sum, starIndex⟩ := s
  obtain ⟨a, rfl, rfl, hc⟩ := hs
  have hget := List.getElem?_eq_getElem hj
  simp only [endBody, get_eq hget, pure_bind, ← segSum_succ hget a,
    int_eq (isInt_segSum hint (show a ≤ j + 1 from Nat.le_succ_of_le hc.start_le) hj)]
  have hstart : Window target nums j (j + 1) (result, segSum nums a (j + 1), (a : ℤ)) := by
    refine ⟨a, rfl, rfl, Nat.le_succ_of_le hc.start_le, hc.bound, hc.attained.imp_right ?_, hc.short⟩
    rintro ⟨i, m, him, hm, h⟩
    exact ⟨i, m, him, Nat.le_succ_of_le hm, h⟩
  refine (halts_loop _ _ _ (fun s hs => halts_shrinkTurn hint ht hj hs) _ hstart).mono ?_
  rintro ⟨result', sum', starIndex'⟩ ⟨⟨a', rfl, rfl, hc'⟩, hlt⟩
  refine ⟨a', rfl, rfl, hc'.start_le, hc'.bound, hc'.attained, ?_⟩
  intro i m hi hm
  exact (segSum_mono (fun x hx => (hpos x hx).le) hi hm).trans_lt hlt

theorem halts_window : Halts (forRange 0 nums.length (endBody target nums) (intMax, 0, 0))
    (Window target nums nums.length nums.length) := by
  refine halts_forRange (Nat.zero_le nums.length) (fun j => Window target nums j j)
    (fun j s _ hj hs => halts_endBody hint ht hpos hj hs)
      ⟨0, rfl, (segSum_self nums 0).symm, le_rfl, ?_, Or.inl rfl, ?_⟩
  · intro i m hi
    exact absurd hi (Nat.not_lt_zero i)
  · intro i m _ hm
    obtain rfl := Nat.le_zero.mp hm
    have hle := segSum_mono (fun x hx => (hpos x hx).le) (Nat.zero_le i) (le_refl 0)
    rw [segSum_self] at hle
    exact hle.trans_lt ht

end Window

/-- The length of a shortest part that reaches `target`,
or 0 when there is none.  No array has `Int.max` elements. -/
theorem minSubArrayLen_spec (target : ℤ) (nums : List ℤ) (hpos : ∀ x ∈ nums, 0 < x)
    (hint : ∀ s ∈ sums nums, IsInt s) (ht : 0 < target) (hcount : (nums.length : ℤ) < intMax) :
    ∃ r : ℕ, Returns (minSubArrayLen target nums) r ∧
      ((reaching nums target).Nonempty → IsLeast (reaching nums target) r) ∧
        (r = 0 ↔ reaching nums target = ∅) := by
  obtain ⟨⟨result, sum, starIndex⟩, hret, a, -, -, hc⟩ := halts_window hint ht hpos
  have hleast : ∀ n ∈ reaching nums target, result ≤ n := by
    intro n hn
    obtain ⟨i, m, him, hm, hreach, rfl⟩ := mem_reaching.mp hn
    rcases lt_or_ge i a with hia | hia
    · have := hc.bound i m hia him hm hreach
      omega
    · exact absurd (hc.short i m hia hm) (not_lt.mpr hreach)
  rcases hc.attained with hmax | ⟨i, m, him, hm, hreach, hresult⟩
  · have hnone : reaching nums target = ∅ := by
      apply Set.eq_empty_of_forall_notMem
      intro n hn
      have hle := hleast n hn
      obtain ⟨i, m, -, hm, -, rfl⟩ := mem_reaching.mp hn
      omega
    refine ⟨0, returns_bind hret ?_, fun h => absurd hnone h.ne_empty, iff_of_true rfl hnone⟩
    simp only [if_pos hmax]
    exact returns_pure _
  · have hmem : m - i ∈ reaching nums target := mem_reaching.mpr ⟨i, m, him, hm, hreach, rfl⟩
    have hr : result = ((m - i : ℕ) : ℤ) := by omega
    refine ⟨m - i, returns_bind hret ?_, fun _ => ⟨hmem, fun n hn => ?_⟩, iff_of_false (by omega) ?_⟩
    · simp only [if_neg (show ¬ result = intMax by omega)]
      exact hr ▸ returns_pure _
    · have := hleast n hn
      omega
    · exact fun hnone => Set.notMem_empty _ (hnone ▸ hmem)

/-- The example of the controller. -/
theorem minSubArrayLen_spec_seven :
    ∃ r : ℕ, Returns (minSubArrayLen 7 [2, 3, 1, 1, 2, 4, 3]) r ∧ r ≤ 2 ∧ r ≠ 0 := by
  have hint : ∀ s ∈ sums [(2 : ℤ), 3, 1, 1, 2, 4, 3], IsInt s := by
    rw [sums_eq]
    rintro s ⟨i, k, hik, hk, rfl⟩
    have hall : ∀ k ≤ 7, ∀ i < k, IsInt (segSum [(2 : ℤ), 3, 1, 1, 2, 4, 3] i k) := by decide
    exact hall k hk i hik
  have hmem : 2 ∈ reaching [(2 : ℤ), 3, 1, 1, 2, 4, 3] 7 :=
    ⟨[4, 3], by decide, ⟨[2, 3, 1, 1, 2], [], rfl⟩, by decide, rfl⟩
  obtain ⟨r, hret, hleast, hzero⟩ :=
    minSubArrayLen_spec 7 [2, 3, 1, 1, 2, 4, 3] (by decide) hint (by decide) (by decide)
  exact ⟨r, hret, (hleast ⟨2, hmem⟩).2 hmem, fun h => Set.notMem_empty 2 (hzero.mp h ▸ hmem)⟩

end QYInterview.MinSubArrayLen
