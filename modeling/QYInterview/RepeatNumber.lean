import QYInterview.Lib.Sorted
import QYInterview.Swift
import Mathlib.Data.Finset.Card

/-!
# RepeatNumber — a repeated number among `0..<n`

`FindRepeatNumberController.swift` puts the number at position `i` at its own position, by swaps, until `i`
holds `i` or the place is taken by an equal number; every swap puts one number more in its place
(`misplaced_lt`). `FindDuplicateStringsController.swift` compares every pair of positions.
-/

namespace QYInterview.RepeatNumber

open RunLogic Swift Sorted

/-! ## The code -/

namespace FindRepeatNumber

/-- `while i != nums[i]`; a `return` from the function leaves it with `.exit`. -/
def placeTurn (i : ℤ) (nums : List ℤ) : Prog (Turn (List ℤ) (Turn (List ℤ) ℤ)) := do
  if i ≠ (← get nums i) then
    if (← get nums i) = (← get nums (← get nums i)) then
      return .exit (.exit (← get nums i))
    else
      return .next (← swap nums i (← get nums i))
  else return .exit (.next nums)

def findRepeatNumber (nums : List ℤ) : Prog ℤ := do
  let t ← forRangeUntil 0 nums.length (fun nums i => loop (placeTurn i) nums) nums
  return t.getD (-1)

end FindRepeatNumber

namespace FindDuplicateStrings

/-- `for j in (i+1) ..< nums.count` -/
def pairBody (nums : List ℤ) (i : ℤ) (_ : Unit) (j : ℤ) : Prog (Turn Unit ℤ) := do
  if (← get nums i) = (← get nums j) then return .exit (← get nums i) else return .next ()

def findRepeatNumber (nums : List ℤ) : Prog ℤ := do
  let t ← forRangeUntil 0 nums.length (fun _ i => forRangeUntil (i + 1) nums.length (pairBody nums i) ()) ()
  return t.getD (-1)

end FindDuplicateStrings

/-! ## Repeated numbers -/

section Repeated

variable {nums : List ℤ} {v : ℤ}

/-- `v` stands at two positions. -/
def Repeated (nums : List ℤ) (v : ℤ) : Prop := ∃ i j : ℕ, i < j ∧ nums[i]? = some v ∧ nums[j]? = some v

theorem repeated_of_ne {i j : ℕ} (hne : i ≠ j) (hi : nums[i]? = some v) (hj : nums[j]? = some v) :
    Repeated nums v := by
  rcases Nat.lt_or_gt_of_ne hne with hlt | hlt
  · exact ⟨i, j, hlt, hi, hj⟩
  · exact ⟨j, i, hlt, hj, hi⟩

theorem repeated_iff : Repeated nums v ↔ 2 ≤ nums.count v := by
  rw [← List.replicate_sublist_iff]
  exact pair_sublist_iff.symm

theorem nodup_iff_not_repeated : nums.Nodup ↔ ∀ v, ¬ Repeated nums v := by
  rw [List.nodup_iff_count_le_one]
  constructor
  · intro h v hv
    have := h v
    have := repeated_iff.mp hv
    omega
  · intro h v
    by_contra hv
    exact h v (repeated_iff.mpr (by omega))

/-- The numbers `0..<n`. -/
def upTo (n : ℕ) : List ℤ := (List.range n).map fun k : ℕ => (k : ℤ)

theorem nodup_upTo (n : ℕ) : (upTo n).Nodup := List.nodup_range.map Nat.cast_injective

/-- All values lie in `0..<nums.count`. -/
def InRange (nums : List ℤ) : Prop := ∀ v ∈ nums, 0 ≤ v ∧ v < nums.length

theorem InRange.perm {nums' : List ℤ} (h : InRange nums) (hp : nums'.Perm nums) : InRange nums' := by
  intro v hv
  rw [hp.length_eq]
  exact h v (hp.mem_iff.mp hv)

end Repeated

/-! ## Putting a number in its place -/

section Place

open FindRepeatNumber

variable {nums nums' : List ℤ} {i m : ℕ} {a : ℤ}

/-- The positions that do not hold their own number. -/
def misplaced (nums : List ℤ) : Finset ℕ := (Finset.range nums.length).filter fun j => nums[j]? ≠ some (j : ℤ)

/-- The swap that puts the number at `i` in its place `m`. -/
theorem misplaced_lt (hi : nums[i]? = some (m : ℤ)) (hm : nums[m]? = some a) (hne : (m : ℤ) ≠ a) :
    (misplaced ((nums.set i a).set m m)).card < (misplaced nums).card := by
  have him : i ≠ m := by
    rintro rfl
    exact hne (Option.some.inj (hi.symm.trans hm))
  have hil := (List.getElem?_eq_some_iff.mp hi).1
  have hml := (List.getElem?_eq_some_iff.mp hm).1
  apply Finset.card_lt_card
  rw [Finset.ssubset_iff_of_subset]
  · refine ⟨m, ?_, ?_⟩
    · simp only [misplaced, Finset.mem_filter, Finset.mem_range]
      refine ⟨hml, ?_⟩
      rw [hm]
      exact fun h => hne (Option.some.inj h).symm
    · simp only [misplaced, Finset.mem_filter, Finset.mem_range, List.length_set, not_and, not_not]
      intro _
      rw [List.getElem?_set_self (by rwa [List.length_set])]
  · intro j hj
    simp only [misplaced, Finset.mem_filter, Finset.mem_range, List.length_set] at hj ⊢
    refine ⟨hj.1, ?_⟩
    by_cases hjm : j = m
    · subst hjm
      exact absurd (List.getElem?_set_self (by rwa [List.length_set])) hj.2
    · by_cases hji : j = i
      · subst hji
        rw [hi]
        intro h
        exact him (Nat.cast_injective (Option.some.inj h)).symm
      · rw [List.getElem?_set_ne (Ne.symm hjm), List.getElem?_set_ne (Ne.symm hji)] at hj
        exact hj.2

/-- The array between two turns of the loop over `i`. -/
structure Placed (input : List ℤ) (i : ℕ) (nums : List ℤ) : Prop where
  perm : nums.Perm input
  placed : ∀ j < i, nums[j]? = some (j : ℤ)

variable {input : List ℤ}

/-- The swap leaves the numbers that are in place where they are. -/
theorem Placed.swap (h : Placed input i nums) (hi : nums[i]? = some (m : ℤ)) (hm : nums[m]? = some a)
    (hne : (m : ℤ) ≠ a) :
    Placed input i ((nums.set i a).set m m) where
  perm := (set_set_perm hi hm).trans h.perm
  placed j hj := by
    have hjm : j ≠ m := by
      rintro rfl
      exact hne (Option.some.inj ((h.placed j hj).symm.trans hm))
    rw [List.getElem?_set_ne (Ne.symm hjm), List.getElem?_set_ne (by omega)]
    exact h.placed j hj

/-- At position `i` the array already in place below, the loop places `i` or finds a repeated number. -/
theorem halts_place (hrange : InRange input) (hi : i < input.length) (h : Placed input i nums) :
    Halts (loop (placeTurn i) nums) (Turn.Good (Placed input (i + 1)) (Repeated input)) := by
  refine halts_loop (Placed input i) (fun nums => (misplaced nums).card) _ (fun nums h => ?_) nums h
  have hil : i < nums.length := h.perm.length_eq ▸ hi
  obtain ⟨hv0, hvn⟩ := hrange.perm h.perm nums[i] (List.getElem_mem hil)
  obtain ⟨m, hm⟩ := Int.eq_ofNat_of_zero_le hv0
  have hgeti : nums[i]? = some (m : ℤ) := by rw [List.getElem?_eq_getElem hil, hm]
  have hml : m < nums.length := by omega
  have hgetm : nums[m]? = some nums[m] := List.getElem?_eq_getElem hml
  simp only [placeTurn, get_eq hgeti, get_eq hgetm, pure_bind]
  by_cases him : i = m
  · rw [if_neg (by simp [him])]
    refine halts_pure ⟨h.perm, ?_⟩
    intro j hj
    rcases Nat.lt_or_eq_of_le (Nat.lt_succ_iff.mp hj) with hj | rfl
    · exact h.placed j hj
    · rw [hgeti, him]
  · rw [if_pos (by simpa using him)]
    by_cases heq : (m : ℤ) = nums[m]
    · rw [if_pos heq]
      refine halts_pure (repeated_iff.mpr ?_)
      rw [← h.perm.count_eq]
      exact repeated_iff.mp (repeated_of_ne him hgeti (heq ▸ hgetm))
    · rw [if_neg heq, swap_eq hgeti hgetm, pure_bind]
      exact halts_pure ⟨h.swap hgeti hgetm heq, misplaced_lt hgeti hgetm heq⟩

theorem Placed.eq_upTo (h : Placed input input.length nums) : nums = upTo input.length := by
  apply List.ext_getElem?
  intro j
  by_cases hj : j < input.length
  · rw [h.placed j hj, upTo, List.getElem?_map, List.getElem?_range hj, Option.map_some]
  · rw [List.getElem?_eq_none (by rw [h.perm.length_eq]; omega),
      List.getElem?_eq_none (by simp [upTo]; omega)]

/-- -1 for a permutation of `0..<n`, and else a repeated number. -/
theorem halts_findRepeatNumber (h : InRange input) : Halts (findRepeatNumber input) fun r =>
    (r = -1 ∧ input.Perm (upTo input.length)) ∨ (0 ≤ r ∧ Repeated input r) := by
  have hloop : Halts (forRangeUntil (0 : ℕ) input.length (fun nums i => loop (placeTurn i) nums) input)
      (Turn.Good (Placed input input.length) (Repeated input)) :=
    halts_forRangeUntil (Nat.zero_le _) (Placed input) _ (fun i nums _ hi hs => halts_place h hi hs)
      ⟨List.Perm.refl _, fun j hj => absurd hj (Nat.not_lt_zero j)⟩
  refine halts_bind (hloop.mono fun t ht => halts_pure ?_)
  cases t with
  | next nums =>
    refine Or.inl ⟨rfl, ?_⟩
    rw [← ht.eq_upTo]
    exact ht.perm.symm
  | exit r =>
    refine Or.inr ⟨?_, ht⟩
    obtain ⟨i, -, -, hi, -⟩ := ht
    exact (h r (List.mem_of_getElem? hi)).1

end Place

/-! ## Comparing all pairs -/

section Pairs

open FindDuplicateStrings

variable {nums : List ℤ} {i j : ℕ}

theorem halts_pairBody (hi : i < nums.length) (hj : j < nums.length) : Halts (pairBody nums i () j)
    (Turn.Good (fun _ => nums[i]? ≠ nums[j]?) fun r => nums[i]? = nums[j]? ∧ nums[i]? = some r) := by
  have hx := List.getElem?_eq_getElem hi
  have hy := List.getElem?_eq_getElem hj
  simp only [pairBody, get_eq hx, get_eq hy, pure_bind]
  by_cases heq : nums[i] = nums[j]
  · rw [if_pos heq]
    exact halts_pure ⟨by rw [hx, hy, heq], hx⟩
  · rw [if_neg heq]
    refine halts_pure ?_
    show nums[i]? ≠ nums[j]?
    rw [hx, hy]
    exact fun h => heq (Option.some.inj h)

/-- The number at position `i` stands further behind too. -/
def Again (nums : List ℤ) (i : ℕ) : Prop := ∃ j, i < j ∧ j < nums.length ∧ nums[i]? = nums[j]?

theorem halts_pairs (hi : i < nums.length) :
    Halts (forRangeUntil ((i + 1 : ℕ) : ℤ) nums.length (pairBody nums i) ())
    (Turn.Good (fun _ => ¬ Again nums i) fun r => Again nums i ∧ Repeated nums r) := by
  refine (halts_search hi (fun j => nums[i]? = nums[j]?) (fun _ r => nums[i]? = some r)
    (fun j _ hj => halts_pairBody hi hj)).mono fun t ht => ?_
  cases t with
  | next _ =>
    rintro ⟨j, hij, hj, heq⟩
    exact ht j hij hj heq
  | exit r =>
    obtain ⟨j, hij, hj, heq, hr, -⟩ := ht
    exact ⟨⟨j, hij, hj, heq⟩, i, j, hij, hr, heq ▸ hr⟩

/-- -1 when no number is repeated, and else a repeated number. -/
theorem halts_compareAll (nums : List ℤ) : Halts (findRepeatNumber nums) fun r =>
    (r = -1 ∧ ∀ v, ¬ Repeated nums v) ∨ Repeated nums r := by
  refine halts_bind ((halts_search (Nat.zero_le _) (Again nums) (fun _ r => Repeated nums r)
    (fun i _ hi => halts_pairs hi)).mono fun t ht => halts_pure ?_)
  cases t with
  | next _ =>
    refine Or.inl ⟨rfl, ?_⟩
    rintro v ⟨i, j, hij, hi, hj⟩
    have hjl := (List.getElem?_eq_some_iff.mp hj).1
    exact ht i (Nat.zero_le i) (hij.trans hjl) ⟨j, hij, hjl, hi.trans hj.symm⟩
  | exit r =>
    obtain ⟨i, -, -, -, hr, -⟩ := ht
    exact Or.inr hr

end Pairs

/-- With all values in `0..<n` a repeated number is returned if there is one, and -1 exactly for a
permutation of `0..<n`, by both functions. -/
theorem findRepeatNumber_spec {nums : List ℤ} (h : ∀ v ∈ nums, 0 ≤ v ∧ v < nums.length) :
    ∃ r r', Returns (FindRepeatNumber.findRepeatNumber nums) r ∧
      Returns (FindDuplicateStrings.findRepeatNumber nums) r' ∧
      ((∃ v, 2 ≤ nums.count v) → 2 ≤ nums.count r) ∧ (r = -1 ↔ nums.Perm (upTo nums.length)) ∧
        (r = -1 ↔ r' = -1) := by
  obtain ⟨r, hret, hr⟩ := halts_findRepeatNumber h
  obtain ⟨r', hret', hr'⟩ := halts_compareAll nums
  refine ⟨r, r', hret, hret', ?_⟩
  rcases hr with ⟨rfl, hperm⟩ | ⟨hr0, hrep⟩
  · have hnone := nodup_iff_not_repeated.mp (hperm.nodup_iff.mpr (nodup_upTo nums.length))
    refine ⟨?_, iff_of_true rfl hperm, iff_of_true rfl ?_⟩
    · rintro ⟨v, hv⟩
      exact absurd (repeated_iff.mpr hv) (hnone v)
    · rcases hr' with ⟨rfl, -⟩ | hrep
      · rfl
      · exact absurd hrep (hnone r')
  · refine ⟨fun _ => repeated_iff.mp hrep, iff_of_false (by omega) fun hperm => ?_,
      iff_of_false (by omega) ?_⟩
    · exact nodup_iff_not_repeated.mp (hperm.nodup_iff.mpr (nodup_upTo nums.length)) r hrep
    · rcases hr' with ⟨-, hnone⟩ | ⟨i, -, -, hi, -⟩
      · exact absurd hrep (hnone r)
      · have := (h r' (List.mem_of_getElem? hi)).1
        omega

theorem findRepeatNumber_spec_three : (∀ v ∈ ([1, 0, 1] : List ℤ), 0 ≤ v ∧ v < ([1, 0, 1] : List ℤ).length) ∧
    ∃ r r', Returns (FindRepeatNumber.findRepeatNumber [1, 0, 1]) r ∧
      Returns (FindDuplicateStrings.findRepeatNumber [1, 0, 1]) r' ∧
      ((∃ v, 2 ≤ ([1, 0, 1] : List ℤ).count v) → 2 ≤ ([1, 0, 1] : List ℤ).count r) ∧
      (r = -1 ↔ ([1, 0, 1] : List ℤ).Perm (upTo ([1, 0, 1] : List ℤ).length)) ∧ (r = -1 ↔ r' = -1) :=
  ⟨by decide, findRepeatNumber_spec (by decide)⟩

end QYInterview.RepeatNumber
