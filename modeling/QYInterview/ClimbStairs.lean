import QYInterview.Swift
import Mathlib.Data.Nat.Fib.Basic
import Mathlib.Data.Set.Card

/-!
# ClimbStairs — ways to climb stairs, and Fibonacci numbers

`ClimbStairsController.swift` keeps the last two values of a recurrence, `FibController.swift` fills a table
from its third entry on.  Additions of the values are taken without a bound.  The ways are counted by their
first step (`ways`), which gives the same recurrence once more.
-/

namespace QYInterview.ClimbStairs

open RunLogic Swift

/-! ## The code -/

/-- The variables of the loop. -/
structure Rolling where
  one : ℤ
  two : ℤ
  result : ℤ
  deriving DecidableEq, Repr

/-- `for _ in 0..<n` -/
def climbBody (v : Rolling) (_ : ℤ) : Prog Rolling :=
  let result := v.one + v.two
  pure ⟨v.two, result, result⟩

def climbStairs (n : ℤ) : Prog ℤ :=
  if n = 0 then pure 0
  else if n = 1 then pure 1
  else do return (← forRange 0 n climbBody ⟨0, 1, 0⟩).result

/-- `for i in 2..<n` -/
def fibBody (arr : List ℤ) (i : ℤ) : Prog (List ℤ) := do
  set arr i ((← get arr (i - 1)) + (← get arr (i - 2)))

def fib (n : ℤ) : Prog ℤ :=
  if n < 2 then pure n
  else do
    let arr ← forRange 2 n fibBody (List.replicate n.toNat 1)
    get arr (n - 1)

/-! ## The ways up -/

/-- The steps of a way up `n` stairs. -/
def Climb (n : ℕ) (steps : List ℕ) : Prop := (∀ x ∈ steps, x = 1 ∨ x = 2) ∧ steps.sum = n

/-- All of them, by the first step. -/
def ways : ℕ → List (List ℕ)
  | 0 => [[]]
  | 1 => [[1]]
  | n + 2 => (ways (n + 1)).map (1 :: ·) ++ (ways n).map (2 :: ·)

theorem climb_nil {n : ℕ} : Climb n [] ↔ n = 0 := by
  simp [Climb, eq_comm]

theorem climb_cons {n x : ℕ} {steps : List ℕ} :
    Climb n (x :: steps) ↔ (x = 1 ∨ x = 2) ∧ x ≤ n ∧ Climb (n - x) steps := by
  simp only [Climb, List.forall_mem_cons, List.sum_cons]
  constructor
  · rintro ⟨⟨hx, hsteps⟩, hsum⟩
    exact ⟨hx, by omega, hsteps, by omega⟩
  · rintro ⟨hx, hle, hsteps, hsum⟩
    exact ⟨⟨hx, hsteps⟩, by omega⟩

theorem climb_zero {steps : List ℕ} : Climb 0 steps ↔ steps = [] := by
  cases steps with
  | nil => simp [climb_nil]
  | cons x steps =>
    rw [climb_cons]
    constructor
    · rintro ⟨hx, hle, -⟩
      omega
    · rintro ⟨⟩

theorem mem_ways (n : ℕ) (steps : List ℕ) : steps ∈ ways n ↔ Climb n steps := by
  induction n using ways.induct generalizing steps with
  | case1 => rw [ways, List.mem_singleton, climb_zero]
  | case2 =>
    rw [ways, List.mem_singleton]
    cases steps with
    | nil => simp [climb_nil]
    | cons x steps =>
      rw [climb_cons, List.cons.injEq]
      constructor
      · rintro ⟨rfl, rfl⟩
        exact ⟨Or.inl rfl, le_rfl, climb_zero.mpr rfl⟩
      · rintro ⟨hx, hle, hsteps⟩
        obtain rfl : x = 1 := by omega
        exact ⟨rfl, climb_zero.mp hsteps⟩
  | case3 n ih1 ih0 =>
    rw [ways, List.mem_append, List.mem_map, List.mem_map]
    cases steps with
    | nil => simp [climb_nil]
    | cons x steps =>
      simp only [List.cons.injEq, climb_cons]
      constructor
      · rintro (⟨w, hw, rfl, rfl⟩ | ⟨w, hw, rfl, rfl⟩)
        · exact ⟨Or.inl rfl, by omega, (ih1 _).mp hw⟩
        · exact ⟨Or.inr rfl, by omega, (ih0 _).mp hw⟩
      · rintro ⟨rfl | rfl, hle, hsteps⟩
        · exact Or.inl ⟨steps, (ih1 _).mpr hsteps, rfl, rfl⟩
        · exact Or.inr ⟨steps, (ih0 _).mpr hsteps, rfl, rfl⟩

theorem nodup_ways (n : ℕ) : (ways n).Nodup := by
  induction n using ways.induct with
  | case1 => exact List.nodup_singleton _
  | case2 => exact List.nodup_singleton _
  | case3 n ih1 ih0 =>
    rw [ways]
    refine List.Nodup.append (ih1.map List.cons_injective) (ih0.map List.cons_injective) ?_
    intro w h1 h2
    obtain ⟨w₁, -, rfl⟩ := List.mem_map.mp h1
    obtain ⟨w₂, -, heq⟩ := List.mem_map.mp h2
    cases heq

theorem length_ways (n : ℕ) : (ways n).length = Nat.fib (n + 1) := by
  induction n using ways.induct with
  | case1 => rfl
  | case2 => rfl
  | case3 n ih1 ih0 =>
    rw [ways, List.length_append, List.length_map, List.length_map, ih1, ih0, Nat.fib_add_two (n := n + 1),
      Nat.add_comm]

theorem encard_climb (n : ℕ) : {steps | Climb n steps}.encard = Nat.fib (n + 1) := by
  have hset : {steps | Climb n steps} = ((ways n).toFinset : Set (List ℕ)) := by
    ext steps
    simp [mem_ways]
  rw [hset, Set.encard_coe_eq_coe_finsetCard, List.toFinset_card_of_nodup (nodup_ways n), length_ways]

/-! ## The loops -/

/-- Before turn `i` the loop holds two Fibonacci numbers in a row,
from its first turn on the second one twice. -/
structure Rolled (i : ℕ) (v : Rolling) : Prop where
  one : v.one = Nat.fib i
  two : v.two = Nat.fib (i + 1)
  result : i ≠ 0 → v.result = v.two

theorem halts_climbBody {i : ℕ} {v : Rolling} (h : Rolled i v) (k : ℤ) :
    Halts (climbBody v k) (Rolled (i + 1)) := by
  refine halts_pure ⟨h.two, ?_, fun _ => rfl⟩
  show v.one + v.two = _
  rw [h.one, h.two, Nat.fib_add_two (n := i), Nat.cast_add]

theorem returns_climbStairs {n : ℕ} (hn : 1 ≤ n) : Returns (climbStairs n) (Nat.fib (n + 1)) := by
  by_cases h1 : n = 1
  · subst h1
    exact returns_pure _
  · rw [climbStairs, if_neg (by omega), if_neg (by omega)]
    have hloop : Halts (forRange (0 : ℕ) n climbBody ⟨0, 1, 0⟩) (Rolled n) :=
      halts_forRange (Nat.zero_le n) Rolled (fun i v _ _ hv => halts_climbBody hv i)
        ⟨rfl, rfl, fun h => absurd rfl h⟩
    obtain ⟨v, hret, hv⟩ := hloop
    rw [← hv.two, ← hv.result (by omega)]
    exact returns_bind hret (returns_pure _)

/-- Before turn `i` the table holds the Fibonacci numbers shifted by one, as far as it is filled. -/
def Table (n i : ℕ) (arr : List ℤ) : Prop :=
  arr.length = n ∧ ∀ k, k < i → k < n → arr[k]? = some (Nat.fib (k + 1) : ℤ)

theorem halts_fibBody {n i : ℕ} {arr : List ℤ} (h2 : 2 ≤ i) (hi : i < n) (h : Table n i arr) :
    Halts (fibBody arr i) (Table n (i + 1)) := by
  obtain ⟨hlen, hvals⟩ := h
  have h1 : get arr ((i : ℤ) - 1) = pure (Nat.fib i : ℤ) := by
    rw [show (i : ℤ) - 1 = (i - 1 : ℕ) by omega]
    exact get_eq (by rw [hvals (i - 1) (by omega) (by omega), Nat.sub_add_cancel (by omega)])
  have h0 : get arr ((i : ℤ) - 2) = pure (Nat.fib (i - 1) : ℤ) := by
    rw [show (i : ℤ) - 2 = (i - 2 : ℕ) by omega]
    exact get_eq (by rw [hvals (i - 2) (by omega) (by omega), show i - 2 + 1 = i - 1 by omega])
  rw [fibBody, h1, pure_bind, h0, pure_bind, set_eq (by omega)]
  refine halts_pure ⟨by rw [List.length_set, hlen], ?_⟩
  intro k hk hkn
  rcases Nat.lt_or_eq_of_le (Nat.lt_succ_iff.mp hk) with hlt | rfl
  · rw [List.getElem?_set_ne (by omega)]
    exact hvals k hlt hkn
  · rw [List.getElem?_set_self (by omega)]
    have hfib := Nat.fib_add_two (n := k - 1)
    rw [show k - 1 + 2 = k + 1 by omega, show k - 1 + 1 = k by omega] at hfib
    rw [hfib]
    push_cast
    rw [add_comm]

theorem returns_fib (n : ℕ) : Returns (fib n) (Nat.fib n) := by
  by_cases hn : n < 2
  · rw [fib, if_pos (by omega)]
    interval_cases n <;> exact returns_pure _
  · rw [fib, if_neg (by omega)]
    have hloop : Halts (forRange (2 : ℕ) n fibBody (List.replicate n 1)) (Table n n) :=
      halts_forRange (by omega) (Table n) (fun i arr h2 hi harr => halts_fibBody h2 hi harr)
        ⟨List.length_replicate, fun k hk hkn => by
          rw [List.getElem?_replicate, if_pos hkn]
          interval_cases k <;> rfl⟩
    obtain ⟨arr, hret, -, hvals⟩ := hloop
    refine returns_bind hret ?_
    rw [show (n : ℤ) - 1 = (n - 1 : ℕ) by omega, get_eq (hvals (n - 1) (by omega) (by omega)),
      Nat.sub_add_cancel (by omega)]
    exact returns_pure _

/-- For `n ≥ 1` the number of ways up `n` stairs is what `climbStairs` returns and what `fib` returns for
`n + 1`; `fib` returns the Fibonacci numbers. -/
theorem climbStairs_spec (n : ℕ) (hn : 1 ≤ n) :
    ∃ r : ℕ, Returns (climbStairs n) r ∧ Returns (fib (n + 1)) r ∧ {steps | Climb n steps}.encard = r ∧
      Returns (fib 0) 0 ∧ Returns (fib 1) 1 ∧
      ∀ m : ℕ, 2 ≤ m → ∃ a b, Returns (fib (m - 1)) a ∧ Returns (fib (m - 2)) b ∧
        Returns (fib m) (a + b) := by
  refine ⟨Nat.fib (n + 1), returns_climbStairs hn, returns_fib (n + 1), encard_climb n, returns_fib 0,
    returns_fib 1, fun m hm => ⟨Nat.fib (m - 1), Nat.fib (m - 2), ?_, ?_, ?_⟩⟩
  · rw [show (m : ℤ) - 1 = (m - 1 : ℕ) by omega]
    exact returns_fib _
  · rw [show (m : ℤ) - 2 = (m - 2 : ℕ) by omega]
    exact returns_fib _
  · have hfib := Nat.fib_add_two (n := m - 2)
    rw [show m - 2 + 2 = m by omega, show m - 2 + 1 = m - 1 by omega, add_comm] at hfib
    rw [← Nat.cast_add, ← hfib]
    exact returns_fib m

theorem climbStairs_spec_five : ∃ r : ℕ, Returns (climbStairs 5) r ∧ Returns (fib 6) r ∧
    {steps | Climb 5 steps}.encard = r := by
  obtain ⟨r, h1, h2, h3, -⟩ := climbStairs_spec 5 (by decide)
  exact ⟨r, h1, h2, h3⟩

end QYInterview.ClimbStairs
