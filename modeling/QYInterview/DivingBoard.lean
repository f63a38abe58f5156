import QYInterview.Lib.TwoValued
import QYInterview.Swift

/-!
# DivingBoard — all lengths of `k` boards of two lengths (`DivingBoardController.swift`)

Entry `index` of the result is the total with `index` long boards.  In range are all products and sums when
those for short boards only and for long boards only are, as the others lie between them.
-/

namespace QYInterview.DivingBoard

open RunLogic Swift TwoValued

/-! ## The code -/

/-- `for index in 0..<k+1`, over `nums`, `shorterNum`. -/
def boardBody (shorter longer : ℤ) : List ℤ × ℤ → ℤ → Prog (List ℤ × ℤ)
  | (nums, shorterNum), index => do
    let length ← int ((← int (shorter * shorterNum)) + (← int (longer * index)))
    let shorterNum ← int (shorterNum - 1)
    return (nums ++ [length], shorterNum)

def divingBoard (shorter longer k : ℤ) : Prog (List ℤ) :=
  if k ≤ 0 then pure []
  else if shorter = longer then do return [← int (k * shorter)]
  else do
    let (nums, _) ← forRange 0 (← int (k + 1)) (boardBody shorter longer) ([], k)
    return nums

/-! ## The loop -/

section Loop

variable {shorter longer : ℤ} {n i : ℕ}

theorem total_eq (shorter longer : ℤ) (n i : ℕ) (hi : i ≤ n) :
    total shorter longer n i = shorter * (n - i) + longer * i := by
  rw [total, nsmul_eq_mul, nsmul_eq_mul, Nat.cast_sub hi, mul_comm shorter, mul_comm longer]

/-- Fewer boards of one length. -/
theorem isInt_mul {a : ℤ} (h : IsInt (n * a)) (hi : i ≤ n) : IsInt (a * i) := by
  have hin : (i : ℤ) ≤ n := by exact_mod_cast hi
  have h0 : (0 : ℤ) ≤ i := Int.natCast_nonneg i
  unfold IsInt at h ⊢
  rcases le_total 0 a with ha | ha
  · constructor <;> nlinarith
  · constructor <;> nlinarith

variable (hle : shorter ≤ longer) (hshort : IsInt (n * shorter)) (hlong : IsInt (n * longer))
    (hcount : IsInt (n + 1))
include hle hshort hlong

theorem isInt_total (hi : i ≤ n) : IsInt (total shorter longer n i) := by
  have hlow := total_le hle (Nat.zero_le i) hi
  have hhigh := total_le hle hi le_rfl
  rw [total_zero, nsmul_eq_mul] at hlow
  rw [total_last, nsmul_eq_mul] at hhigh
  exact ⟨hshort.1.trans hlow, hhigh.trans_lt hlong.2⟩

include hcount

/-- A turn adds the next total. -/
theorem boardBody_eq (nums : List ℤ) (hi : i ≤ n) : boardBody shorter longer (nums, (n : ℤ) - i) i =
    pure (nums ++ [total shorter longer n i], (n : ℤ) - (i + 1 : ℕ)) := by
  have hshorts : int (shorter * ((n : ℤ) - i)) = pure (shorter * ((n : ℤ) - i)) := by
    rw [← Nat.cast_sub hi]
    exact int_eq (isInt_mul hshort (Nat.sub_le n i))
  have hlongs : int (longer * i) = pure (longer * (i : ℤ)) := int_eq (isInt_mul hlong hi)
  have hnext : int ((n : ℤ) - i - 1) = pure ((n : ℤ) - (i + 1 : ℕ)) := by
    rw [show (n : ℤ) - i - 1 = n - (i + 1 : ℕ) by push_cast; ring]
    apply int_eq
    unfold IsInt at hcount ⊢
    omega
  have htotal := isInt_total hle hshort hlong hi
  rw [total_eq shorter longer n i hi] at htotal ⊢
  simp only [boardBody, hshorts, hlongs, pure_bind, int_eq htotal, hnext]

theorem halts_boards : Halts (forRange (0 : ℕ) (n + 1 : ℕ) (boardBody shorter longer) ([], (n : ℤ))) fun v =>
    v = ((List.range (n + 1)).map (total shorter longer n), (n : ℤ) - (n + 1 : ℕ)) := by
  refine halts_forRange (Nat.zero_le (n + 1))
    (fun i v => v = ((List.range i).map (total shorter longer n), (n : ℤ) - i)) ?_ (by simp)
  rintro i _ _ hi rfl
  rw [boardBody_eq hle hshort hlong hcount _ (Nat.lt_succ_iff.mp hi)]
  exact halts_pure (by rw [List.range_succ, List.map_append, List.map_singleton])

end Loop

/-- The totals in increasing order, for products and sums in range. -/
theorem divingBoard_spec (shorter longer k : ℤ) (hle : shorter ≤ longer) (hk : 1 ≤ k)
    (hshort : IsInt (k * shorter)) (hlong : IsInt (k * longer))
    (hcount : shorter < longer → IsInt (k + 1)) :
    ∃ nums, Returns (divingBoard shorter longer k) nums ∧ nums.Pairwise (· < ·) ∧
      ∀ x, x ∈ nums ↔ ∃ boards : List ℤ, boards.length = k ∧ (∀ b ∈ boards, b = shorter ∨ b = longer) ∧
        boards.sum = x := by
  obtain ⟨n, rfl⟩ := Int.eq_ofNat_of_zero_le (show 0 ≤ k by omega)
  have hboards : ∀ x, (∃ boards : List ℤ, (boards.length : ℤ) = n ∧ (∀ b ∈ boards, b = shorter ∨ b = longer) ∧
      boards.sum = x) ↔ ∃ i ≤ n, total shorter longer n i = x := by
    intro x
    simp only [Nat.cast_inj]
    exact exists_sum_iff
  simp only [hboards]
  unfold divingBoard
  rw [if_neg (by omega)]
  rcases eq_or_lt_of_le hle with rfl | hlt
  · rw [if_pos rfl, int_eq hshort]
    refine ⟨[n * shorter], returns_pure _, List.pairwise_singleton _ _, ?_⟩
    intro x
    rw [List.mem_singleton, eq_comm]
    constructor
    · rintro rfl
      exact ⟨0, Nat.zero_le n, by rw [total_zero, nsmul_eq_mul]⟩
    · rintro ⟨i, hi, rfl⟩
      rw [total_self hi, nsmul_eq_mul]
  · obtain ⟨_, hret, rfl⟩ := halts_boards hle hshort hlong (hcount hlt)
    rw [if_neg hlt.ne, int_eq (hcount hlt), pure_bind]
    refine ⟨_, returns_bind hret (returns_pure _), ?_, ?_⟩
    · rw [List.pairwise_map]
      refine (List.pairwise_lt_range).imp_of_mem ?_
      intro i j _ hj hij
      exact total_lt hlt hij (Nat.lt_succ_iff.mp (List.mem_range.mp hj))
    · intro x
      simp only [List.mem_map, List.mem_range, Nat.lt_succ_iff]

/-- Three boards of length 1 or 2. -/
theorem divingBoard_spec_three : ∃ nums, Returns (divingBoard 1 2 3) nums ∧ nums.Pairwise (· < ·) ∧
    ∀ x, x ∈ nums ↔ ∃ boards : List ℤ, boards.length = (3 : ℤ) ∧ (∀ b ∈ boards, b = 1 ∨ b = 2) ∧
      boards.sum = x :=
  divingBoard_spec 1 2 3 (by decide) (by decide) (by decide) (by decide) fun _ => by decide

end QYInterview.DivingBoard
