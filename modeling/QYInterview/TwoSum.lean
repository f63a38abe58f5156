import QYInterview.BinarySearch
import QYInterview.Lib.PairScan

/-!
# TwoSum — two positions with a given sum

`Sum/TwoSumController1.swift` for any array and `Sum/TwoSumController2.swift` for a sorted one, with
positions counted from 1.  The brute force is the same in both.  The dictionary of `twoSum1` holds the last
position of every value (`fillDict_eq_some`); that of `twoSum2` is the same dictionary of the elements gone
through so far.
-/

namespace QYInterview.TwoSum

open RunLogic Swift Bisect PairScan Sorted

/-! ## The code -/

/-- The inner loop of the brute force. -/
def bruteForceInner (offset : ℤ) (nums : List ℤ) (target i : ℤ) (_ : Unit) (j : ℤ) :
    Prog (Turn Unit (List ℤ)) := do
  if (← int ((← get nums i) + (← get nums j))) = target then return .exit [i + offset, j + offset]
  else return .next ()

/-- The first two positions, each plus `offset`. -/
def bruteForce (offset : ℤ) (nums : List ℤ) (target : ℤ) : Prog (List ℤ) := do
  let t ← forRangeUntil 0 nums.length
    (fun _ i => forRangeUntil (i + 1) nums.length (bruteForceInner offset nums target i) ()) ()
  return t.getD []

namespace Controller1

def twoSum (nums : List ℤ) (target : ℤ) : Prog (List ℤ) := bruteForce 0 nums target

/-- `dict[num] = index` for every element. -/
def fillDict (nums : List ℤ) : ℤ → Option ℤ :=
  nums.zipIdx.foldl (fun dict p => Function.update dict p.1 (some (p.2 : ℤ))) fun _ => none

/-- The second loop of `twoSum1`. -/
def twoSum1Body (nums : List ℤ) (target : ℤ) (dict : ℤ → Option ℤ) (_ : Unit) (index : ℤ) :
    Prog (Turn Unit (List ℤ)) := do
  let num ← get nums index
  match dict (← int (target - num)) with
  | some j => if index ≠ j then return .exit [index, j] else return .next ()
  | none => return .next ()

/-- The dictionary first. -/
def twoSum1 (nums : List ℤ) (target : ℤ) : Prog (List ℤ) := do
  let t ← forRangeUntil 0 nums.length (twoSum1Body nums target (fillDict nums)) ()
  return t.getD []

/-- The loop of `twoSum2`, over `map`. -/
def twoSum2Body (nums : List ℤ) (target : ℤ) (map : ℤ → Option ℤ) (i : ℤ) :
    Prog (Turn (ℤ → Option ℤ) (List ℤ)) := do
  let another ← int (target - (← get nums i))
  match map another with
  | some j => return .exit [i, j]
  | none => return .next (Function.update map (← get nums i) (some i))

/-- The dictionary on the way. -/
def twoSum2 (nums : List ℤ) (target : ℤ) : Prog (List ℤ) := do
  if nums.length > 1 then
    let t ← forRangeUntil 0 nums.length (twoSum2Body nums target) fun _ => none
    return t.getD []
  else return []

end Controller1

namespace Controller2

def twoSum (numbers : List ℤ) (target : ℤ) : Prog (List ℤ) := bruteForce 1 numbers target

/-- The loop of `twoSum1`. -/
def twoSum1Body (numbers : List ℤ) (target : ℤ) (_ : Unit) (i : ℤ) : Prog (Turn Unit (List ℤ)) := do
  let first ← get numbers i
  let index ← BinarySearch.Algorithm.windowSearch numbers (i + 1) (numbers.length - 1)
    (← int (target - first))
  if index ≠ -1 then return .exit [i + 1, index + 1] else return .next ()

/-- A binary search for the second number. -/
def twoSum1 (numbers : List ℤ) (target : ℤ) : Prog (List ℤ) := do
  let t ← forRangeUntil 0 numbers.length (twoSum1Body numbers target) ()
  return t.getD []

/-- `while left < right` -/
def twoSum2Turn (numbers : List ℤ) (target : ℤ) : ℤ × ℤ → Prog (Turn (ℤ × ℤ) (List ℤ))
  | (left, right) =>
    if left < right then do
      let sum ← int ((← get numbers left) + (← get numbers right))
      if sum = target then return .exit [left + 1, right + 1]
      else if sum < target then return .next (left + 1, right)
      else return .next (left, right - 1)
    else return .exit [-1, -1]

/-- Two pointers. -/
def twoSum2 (numbers : List ℤ) (target : ℤ) : Prog (List ℤ) :=
  loop (twoSum2Turn numbers target) (0, (numbers.length : ℤ) - 1)

end Controller2

/-! ## What they look for -/

/-- The positions `i < j` hold two numbers with sum `target`. -/
def IsPair (nums : List ℤ) (target : ℤ) (i j : ℕ) : Prop :=
  i < j ∧ ∃ x y, nums[i]? = some x ∧ nums[j]? = some y ∧ x + y = target

/-- Position `i` is the first one of a pair. -/
def StartsPair (nums : List ℤ) (target : ℤ) (i : ℕ) : Prop := ∃ j, IsPair nums target i j

/-- The array holds the two positions of a pair, each plus `offset`. -/
def Answer (offset : ℤ) (nums : List ℤ) (target : ℤ) (r : List ℤ) : Prop :=
  ∃ i j : ℕ, r = [(i : ℤ) + offset, (j : ℤ) + offset] ∧ IsPair nums target i j

/-- Two distinct positions whose numbers have sum `target`. -/
def Positions (nums : List ℤ) (target : ℤ) (r : List ℤ) : Prop :=
  ∃ i j : ℕ, r = [(i : ℤ), (j : ℤ)] ∧ i ≠ j ∧ ∃ x y, nums[i]? = some x ∧ nums[j]? = some y ∧ x + y = target

/-- At most one pair. -/
def OnlyPair (nums : List ℤ) (target : ℤ) : Prop :=
  ∀ i j i' j', IsPair nums target i j → IsPair nums target i' j' → i = i' ∧ j = j'

/-- The sums and differences the code computes are `Int`s. -/
structure NoOverflow (nums : List ℤ) (target : ℤ) : Prop where
  sum : ∀ (i j : ℕ) (x y : ℤ), i < j → nums[i]? = some x → nums[j]? = some y → IsInt (x + y)
  diff : ∀ x ∈ nums, IsInt (target - x)

/-- A search from the front: `[]` without a pair, and otherwise the first position that starts one, with the
second position of one of its pairs, both moved by `offset`. -/
def FirstPair (offset : ℤ) (nums : List ℤ) (target : ℤ) (r : List ℤ) : Prop :=
  (r = [] ∧ ∀ i, ¬ StartsPair nums target i) ∨
    ∃ i j : ℕ, r = [(i : ℤ) + offset, (j : ℤ) + offset] ∧ IsPair nums target i j ∧
      ∀ i', StartsPair nums target i' → i ≤ i'

section Search

variable {nums : List ℤ} {target offset : ℤ}

theorem noOverflow_of_mem (hsum : ∀ x ∈ nums, ∀ y ∈ nums, IsInt (x + y))
    (hdiff : ∀ x ∈ nums, IsInt (target - x)) : NoOverflow nums target :=
  ⟨fun _ _ x y _ hx hy => hsum x (List.mem_of_getElem? hx) y (List.mem_of_getElem? hy), hdiff⟩

theorem IsPair.lt_length {i j : ℕ} (h : IsPair nums target i j) : j < nums.length := by
  obtain ⟨-, -, y, -, hy, -⟩ := h
  exact (List.getElem?_eq_some_iff.mp hy).1

/-- A loop whose body returns exactly where a pair starts. -/
theorem firstPair_of_search {body : Unit → ℤ → Prog (Turn Unit (List ℤ))}
    (hbody : ∀ i : ℕ, i < nums.length → Halts (body () (i : ℤ)) (Turn.Good
      (fun _ => ¬ StartsPair nums target i)
      fun r => StartsPair nums target i ∧ ∃ j : ℕ, r = [(i : ℤ) + offset, (j : ℤ) + offset] ∧
        IsPair nums target i j)) :
    Halts (do return (← forRangeUntil 0 nums.length body ()).getD []) (FirstPair offset nums target) := by
  refine halts_bind ((halts_search (Nat.zero_le _) (StartsPair nums target)
    (fun i r => ∃ j : ℕ, r = [(i : ℤ) + offset, (j : ℤ) + offset] ∧ IsPair nums target i j)
    (fun i _ hi => hbody i hi)).mono fun t ht => halts_pure ?_)
  cases t with
  | next _ =>
    refine Or.inl ⟨rfl, fun i hi => ht i (Nat.zero_le i) ?_ hi⟩
    obtain ⟨j, hij⟩ := hi
    exact hij.1.trans hij.lt_length
  | exit r =>
    obtain ⟨i, -, -, -, ⟨j, rfl, hij⟩, hfirst⟩ := ht
    exact Or.inr ⟨i, j, rfl, hij, fun i' hi' => not_lt.mp fun hlt => hfirst i' (Nat.zero_le _) hlt hi'⟩

theorem FirstPair.eq_nil {r : List ℤ} (h : FirstPair offset nums target r)
    (hno : ∀ i, ¬ StartsPair nums target i) : r = [] := by
  rcases h with ⟨rfl, -⟩ | ⟨i, j, -, hij, -⟩
  · rfl
  · exact absurd ⟨j, hij⟩ (hno i)

theorem FirstPair.answer {r : List ℤ} (h : FirstPair offset nums target r)
    (hsome : ∃ i, StartsPair nums target i) : Answer offset nums target r := by
  rcases h with ⟨-, hno⟩ | ⟨i, j, rfl, hij, -⟩
  · exact absurd hsome (not_exists.mpr hno)
  · exact ⟨i, j, rfl, hij⟩

/-- `[]` without a pair, and otherwise its positions in some order. -/
theorem FirstPair.positions {r : List ℤ} (h : FirstPair 0 nums target r) :
    (r = [] ↔ ¬ ∃ i j, IsPair nums target i j) ∧ (r ≠ [] → Positions nums target r) := by
  rcases h with ⟨rfl, hno⟩ | ⟨i, j, rfl, hij, -⟩
  · exact ⟨⟨fun _ => not_exists.mpr hno, fun _ => rfl⟩, fun hne => absurd rfl hne⟩
  · refine ⟨⟨fun he => absurd he (List.cons_ne_nil _ _), fun hno => absurd ⟨i, j, hij⟩ hno⟩, ?_⟩
    intro _
    exact ⟨i, j, by simp, hij.1.ne, hij.2⟩

theorem FirstPair.head?_eq {r r' : List ℤ} (h : FirstPair offset nums target r)
    (h' : FirstPair offset nums target r') : r.head? = r'.head? := by
  rcases h with ⟨rfl, hno⟩ | ⟨i, j, rfl, hij, hmin⟩
  · rw [h'.eq_nil hno]
  · rcases h' with ⟨rfl, hno⟩ | ⟨i', j', rfl, hij', hmin'⟩
    · exact absurd ⟨j, hij⟩ (hno i)
    · obtain rfl := Nat.le_antisymm (hmin i' ⟨j', hij'⟩) (hmin' i ⟨j, hij⟩)
      rfl

theorem OnlyPair.eq {r r' : List ℤ} (hone : OnlyPair nums target) (h : Answer offset nums target r)
    (h' : Answer offset nums target r') : r = r' := by
  obtain ⟨i, j, rfl, hij⟩ := h
  obtain ⟨i', j', rfl, hij'⟩ := h'
  obtain ⟨rfl, rfl⟩ := hone i j i' j' hij hij'
  rfl

theorem halts_bruteForceInner (h : NoOverflow nums target) {i j : ℕ} (hij : i < j) (hj : j < nums.length) :
    Halts (bruteForceInner offset nums target i () j) (Turn.Good (fun _ => ¬ IsPair nums target i j)
      fun r => IsPair nums target i j ∧ r = [(i : ℤ) + offset, (j : ℤ) + offset]) := by
  have hx := List.getElem?_eq_getElem (hij.trans hj)
  have hy := List.getElem?_eq_getElem hj
  simp only [bruteForceInner, get_eq hx, get_eq hy, pure_bind, int_eq (h.sum i j _ _ hij hx hy)]
  by_cases hsum : nums[i] + nums[j] = target
  · rw [if_pos hsum]
    exact halts_pure ⟨⟨hij, _, _, hx, hy, hsum⟩, rfl⟩
  · rw [if_neg hsum]
    refine halts_pure ?_
    rintro ⟨-, x, y, hx', hy', hxy⟩
    obtain rfl := Option.some.inj (hx.symm.trans hx')
    obtain rfl := Option.some.inj (hy.symm.trans hy')
    exact hsum hxy

theorem halts_bruteForce (h : NoOverflow nums target) :
    Halts (bruteForce offset nums target) (FirstPair offset nums target) := by
  apply firstPair_of_search
  intro i hi
  refine (halts_search (show i + 1 ≤ nums.length from hi) (IsPair nums target i)
    (fun j r => r = [(i : ℤ) + offset, (j : ℤ) + offset])
    (fun j hij hj => halts_bruteForceInner h hij hj)).mono fun t ht => ?_
  cases t with
  | next _ => exact fun ⟨j, hij⟩ => ht j hij.1 hij.lt_length hij
  | exit r =>
    obtain ⟨j, -, -, hij, rfl, -⟩ := ht
    exact ⟨⟨j, hij⟩, j, rfl, hij⟩

end Search

/-! ## A sorted array -/

namespace Controller2

section Sorted

variable {numbers : List ℤ} {target : ℤ}

theorem halts_twoSum1Body (hs : numbers.Pairwise (· ≤ ·)) (h : NoOverflow numbers target) {i : ℕ}
    (hi : i < numbers.length) :
    Halts (twoSum1Body numbers target () i) (Turn.Good (fun _ => ¬ StartsPair numbers target i)
      fun r => StartsPair numbers target i ∧ ∃ j : ℕ, r = [(i : ℤ) + 1, (j : ℤ) + 1] ∧
        IsPair numbers target i j) := by
  have hx := List.getElem?_eq_getElem hi
  simp only [twoSum1Body, get_eq hx, pure_bind, int_eq (h.diff _ (List.getElem_mem hi))]
  have hsearch : Halts (BinarySearch.Algorithm.windowSearch numbers (i + 1) (numbers.length - 1)
      (target - numbers[i]))
      (Finds numbers (target - numbers[i]) (i + 1) ((numbers.length : ℤ) - 1 + 1)) :=
    BinarySearch.halts_windowSearch _ hs (by omega) (by omega)
  refine halts_bind (hsearch.mono ?_)
  intro index hindex
  -- a hit of the search in the window behind `i` is the second position of a pair
  have hhit : ∀ j, HitAt numbers (target - numbers[i]) (i + 1) (numbers.length - 1 + 1) j ↔
      IsPair numbers target i j := by
    intro j
    constructor
    · rintro ⟨hlo, -, hj⟩
      exact ⟨by omega, _, _, hx, hj, by omega⟩
    · intro hij
      have hlt := hij.lt_length
      obtain ⟨hlo, x, y, hx', hj, hsum⟩ := hij
      obtain rfl := Option.some.inj (hx.symm.trans hx')
      exact ⟨by omega, by omega, by rw [hj]; congr 1; omega⟩
  by_cases hstart : StartsPair numbers target i
  · obtain ⟨j, hj⟩ := hstart
    obtain ⟨k, rfl, hk⟩ := hindex.2 ⟨j, (hhit j).mpr hj⟩
    rw [if_pos (by omega)]
    exact halts_pure ⟨⟨j, hj⟩, k, rfl, (hhit k).mp hk⟩
  · rw [hindex.1 fun ⟨j, hj⟩ => hstart ⟨j, (hhit j).mp hj⟩, if_neg (by decide)]
    exact halts_pure hstart

theorem halts_twoSum1 (hs : numbers.Pairwise (· ≤ ·)) (h : NoOverflow numbers target) :
    Halts (twoSum1 numbers target) (FirstPair 1 numbers target) :=
  firstPair_of_search fun _ hi => halts_twoSum1Body hs h hi

/-- Some pair, or `[-1, -1]` without one. -/
def SomePair (numbers : List ℤ) (target : ℤ) (r : List ℤ) : Prop :=
  (r = [-1, -1] ∧ ∀ i, ¬ StartsPair numbers target i) ∨ Answer 1 numbers target r

theorem pairs_eq_empty_iff :
    pairs numbers target 0 (numbers.length - 1) = ∅ ↔ ∀ i, ¬ StartsPair numbers target i := by
  constructor
  · rintro he i ⟨j, hij⟩
    have hlt := hij.lt_length
    obtain ⟨hlo, x, y, hx, hy, hsum⟩ := hij
    exact Set.eq_empty_iff_forall_notMem.mp he (x, y) ⟨i, j, by omega, hlo, by omega, hx, hy, hsum⟩
  · intro hno
    apply Set.eq_empty_of_forall_notMem
    intro v hv
    obtain ⟨p, q, -, hpq, -, hp, hq, hsum⟩ := hv
    exact hno p ⟨q, hpq, _, _, hp, hq, hsum⟩

/-- The window keeps every pair until the two pointers stand at one. -/
theorem halts_twoSum2 (hs : numbers.Pairwise (· ≤ ·)) (h : NoOverflow numbers target) :
    Halts (twoSum2 numbers target) (SomePair numbers target) := by
  refine halts_loop
    (fun s : ℤ × ℤ => 0 ≤ s.1 ∧ s.2 < numbers.length ∧
      pairs numbers target s.1 s.2 = pairs numbers target 0 (numbers.length - 1))
    (fun s => (s.2 - s.1).toNat) _ ?_ _ ⟨le_rfl, by omega, rfl⟩
  rintro ⟨left, right⟩ ⟨h0, hlen, heq⟩
  dsimp only at h0 hlen heq
  simp only [twoSum2Turn]
  by_cases hlt : left < right
  · obtain ⟨l, rfl⟩ := Int.eq_ofNat_of_zero_le h0
    obtain ⟨r, rfl⟩ := Int.eq_ofNat_of_zero_le (h0.trans hlt.le)
    have hx := List.getElem?_eq_getElem (show l < numbers.length by omega)
    have hy := List.getElem?_eq_getElem (show r < numbers.length by omega)
    have hlr : l < r := by omega
    rw [if_pos hlt, get_eq hx, pure_bind, get_eq hy, pure_bind, int_eq (h.sum l r _ _ hlr hx hy), pure_bind]
    rcases lt_trichotomy (numbers[l] + numbers[r]) target with hsum | hsum | hsum
    · rw [if_neg hsum.ne, if_pos hsum]
      exact halts_pure ⟨⟨by omega, hlen, by rw [← heq, pairs_low hs hx hy hsum]⟩, by dsimp only; omega⟩
    · rw [if_pos hsum]
      exact halts_pure (Or.inr ⟨l, r, rfl, hlr, _, _, hx, hy, hsum⟩)
    · rw [if_neg hsum.ne', if_neg hsum.not_gt]
      exact halts_pure ⟨⟨h0, by dsimp only; omega, by rw [← heq, pairs_high hs hx hy hsum]⟩,
        by dsimp only; omega⟩
  · rw [if_neg hlt]
    refine halts_pure (Or.inl ⟨rfl, pairs_eq_empty_iff.mp ?_⟩)
    rw [← heq, pairs_of_le (not_lt.mp hlt)]

theorem SomePair.answer {r : List ℤ} (h : SomePair numbers target r)
    (hsome : ∃ i, StartsPair numbers target i) : Answer 1 numbers target r :=
  h.resolve_left fun hno => not_exists.mpr hno.2 hsome

theorem SomePair.eq_neg {r : List ℤ} (h : SomePair numbers target r)
    (hno : ∀ i, ¬ StartsPair numbers target i) : r = [-1, -1] := by
  rcases h with ⟨rfl, -⟩ | ⟨i, j, -, hij⟩
  · rfl
  · exact absurd ⟨j, hij⟩ (hno i)

end Sorted

/-- On a sorted array the three ways return positions counted from 1 of a pair when there is one, the same
ones when there is only one pair, and `[]`, `[]` and `[-1, -1]` without a pair. -/
theorem twoSum_sorted_spec (numbers : List ℤ) (target : ℤ) (hs : numbers.Pairwise (· ≤ ·))
    (h : NoOverflow numbers target) :
    ∃ r r₁ r₂, Returns (twoSum numbers target) r ∧ Returns (twoSum1 numbers target) r₁ ∧
      Returns (twoSum2 numbers target) r₂ ∧
      ((∃ i j, IsPair numbers target i j) →
        Answer 1 numbers target r ∧ Answer 1 numbers target r₁ ∧ Answer 1 numbers target r₂ ∧
        (OnlyPair numbers target → r₁ = r ∧ r₂ = r)) ∧
      ((¬ ∃ i j, IsPair numbers target i j) → r = [] ∧ r₁ = [] ∧ r₂ = [-1, -1]) := by
  obtain ⟨r, hr, hfirst⟩ : Halts (twoSum numbers target) (FirstPair 1 numbers target) := halts_bruteForce h
  obtain ⟨r₁, hr₁, hfirst₁⟩ := halts_twoSum1 hs h
  obtain ⟨r₂, hr₂, hsome₂⟩ := halts_twoSum2 hs h
  refine ⟨r, r₁, r₂, hr, hr₁, hr₂, fun hpair => ?_, fun hno => ?_⟩
  · have ha := hfirst.answer hpair
    have ha₁ := hfirst₁.answer hpair
    have ha₂ := hsome₂.answer hpair
    exact ⟨ha, ha₁, ha₂, fun hone => ⟨hone.eq ha₁ ha, hone.eq ha₂ ha⟩⟩
  · have hno' : ∀ i, ¬ StartsPair numbers target i := not_exists.mp hno
    exact ⟨hfirst.eq_nil hno', hfirst₁.eq_nil hno', hsome₂.eq_neg hno'⟩

/-- Copies of one number: `2 + 2`, at positions 2 and 3. -/
theorem twoSum_sorted_spec_four :
    ([1, 2, 2, 4] : List ℤ).Pairwise (· ≤ ·) ∧ NoOverflow [1, 2, 2, 4] 4 ∧
    ∃ r r₁ r₂, Returns (twoSum [1, 2, 2, 4] 4) r ∧ Returns (twoSum1 [1, 2, 2, 4] 4) r₁ ∧
      Returns (twoSum2 [1, 2, 2, 4] 4) r₂ ∧
      ((∃ i j, IsPair [1, 2, 2, 4] 4 i j) →
        Answer 1 [1, 2, 2, 4] 4 r ∧ Answer 1 [1, 2, 2, 4] 4 r₁ ∧ Answer 1 [1, 2, 2, 4] 4 r₂ ∧
        (OnlyPair [1, 2, 2, 4] 4 → r₁ = r ∧ r₂ = r)) ∧
      ((¬ ∃ i j, IsPair [1, 2, 2, 4] 4 i j) → r = [] ∧ r₁ = [] ∧ r₂ = [-1, -1]) :=
  have hs : ([1, 2, 2, 4] : List ℤ).Pairwise (· ≤ ·) := by decide
  have h : NoOverflow [1, 2, 2, 4] 4 := noOverflow_of_mem (by decide) (by decide)
  ⟨hs, h, twoSum_sorted_spec [1, 2, 2, 4] 4 hs h⟩

end Controller2

/-! ## Any array -/

namespace Controller1

section Dict

variable {nums : List ℤ} {target v x : ℤ} {k : ℕ}

/-- `k` is the last position of `v`. -/
def LastAt (nums : List ℤ) (v : ℤ) (k : ℕ) : Prop :=
  nums[k]? = some v ∧ ∀ k', nums[k']? = some v → k' ≤ k

theorem fillDict_concat (nums : List ℤ) (x : ℤ) :
    fillDict (nums ++ [x]) = Function.update (fillDict nums) x (some (nums.length : ℤ)) := by
  unfold fillDict
  rw [List.zipIdx_append, List.foldl_append, Nat.zero_add]
  rfl

theorem LastAt.lt_length (h : LastAt nums v k) : k < nums.length :=
  (List.getElem?_eq_some_iff.mp h.1).1

theorem lastAt_concat_self (nums : List ℤ) (x : ℤ) : LastAt (nums ++ [x]) x nums.length := by
  refine ⟨List.getElem?_concat_length, fun k' hk' => ?_⟩
  have hlt := (List.getElem?_eq_some_iff.mp hk').1
  rw [List.length_append, List.length_singleton] at hlt
  omega

theorem LastAt.concat (h : LastAt nums v k) (hv : v ≠ x) : LastAt (nums ++ [x]) v k := by
  refine ⟨by rw [List.getElem?_append_left h.lt_length]; exact h.1, fun k' hk' => ?_⟩
  rcases Nat.lt_or_ge k' nums.length with hlt | hge
  · rw [List.getElem?_append_left hlt] at hk'
    exact h.2 k' hk'
  · rw [List.getElem?_append_right hge] at hk'
    exact absurd (List.mem_singleton.mp (List.mem_of_getElem? hk')) hv

/-- The dictionary has the last position of every value. -/
theorem fillDict_eq (nums : List ℤ) (v : ℤ) :
    (fillDict nums v = none ∧ v ∉ nums) ∨ ∃ k : ℕ, fillDict nums v = some (k : ℤ) ∧ LastAt nums v k := by
  induction nums using List.reverseRecOn with
  | nil => exact Or.inl ⟨rfl, List.not_mem_nil⟩
  | append_singleton nums x ih =>
    rw [fillDict_concat]
    by_cases hv : v = x
    · subst hv
      exact Or.inr ⟨nums.length, Function.update_self .., lastAt_concat_self nums v⟩
    · rw [Function.update_of_ne hv]
      rcases ih with ⟨hnone, hmem⟩ | ⟨k, hsome, hk⟩
      · exact Or.inl ⟨hnone, by simp [hmem, hv]⟩
      · exact Or.inr ⟨k, hsome, hk.concat hv⟩

theorem fillDict_take {i : ℕ} (hi : i < nums.length) :
    fillDict (nums.take (i + 1)) = Function.update (fillDict (nums.take i)) nums[i] (some (i : ℤ)) := by
  rw [List.take_succ_eq_append_getElem hi, fillDict_concat, List.length_take_of_le hi.le]

/-- The last position of the complement of the number at `i` is another one. -/
def LastPartner (nums : List ℤ) (target : ℤ) (i k : ℕ) : Prop :=
  ∃ x, nums[i]? = some x ∧ LastAt nums (target - x) k ∧ k ≠ i

theorem exists_lastPartner {i : ℕ} (h : StartsPair nums target i) : ∃ k, LastPartner nums target i k := by
  obtain ⟨j, hij, x, y, hx, hy, hsum⟩ := h
  obtain rfl : y = target - x := by omega
  rcases fillDict_eq nums (target - x) with ⟨-, hmem⟩ | ⟨k, -, hk⟩
  · exact absurd (List.mem_of_getElem? hy) hmem
  · have hjk := hk.2 j hy
    exact ⟨k, x, hx, hk, by omega⟩

/-- A last partner in front of `i` is itself one with a last partner. -/
theorem LastPartner.isPair {i : ℕ} (h : LastPartner nums target i k)
    (hfirst : ∀ i' < i, ¬ ∃ k', LastPartner nums target i' k') : IsPair nums target i k := by
  obtain ⟨x, hx, hk, hne⟩ := h
  have hki : ¬ k < i := by
    intro hlt
    exact hfirst k hlt (exists_lastPartner ⟨i, hlt, _, x, hk.1, hx, by omega⟩)
  exact ⟨by omega, x, _, hx, hk.1, by omega⟩

end Dict

section Loops

variable {nums : List ℤ} {target : ℤ}

theorem halts_twoSum1Body (h : NoOverflow nums target) {i : ℕ} (hi : i < nums.length) :
    Halts (twoSum1Body nums target (fillDict nums) () i)
      (Turn.Good (fun _ => ¬ ∃ k, LastPartner nums target i k)
        fun r => (∃ k, LastPartner nums target i k) ∧
          ∃ k : ℕ, r = [(i : ℤ), (k : ℤ)] ∧ LastPartner nums target i k) := by
  have hx := List.getElem?_eq_getElem hi
  simp only [twoSum1Body, get_eq hx, pure_bind, int_eq (h.diff _ (List.getElem_mem hi))]
  rcases fillDict_eq nums (target - nums[i]) with ⟨hnone, hmem⟩ | ⟨k, hsome, hk⟩
  · rw [hnone]
    refine halts_pure ?_
    rintro ⟨k, x, hx', hk, -⟩
    obtain rfl := Option.some.inj (hx.symm.trans hx')
    exact hmem (List.mem_of_getElem? hk.1)
  · rw [hsome]
    dsimp only
    by_cases hik : i = k
    · rw [if_neg (by omega)]
      refine halts_pure ?_
      rintro ⟨k', x, hx', hk', hne⟩
      obtain rfl := Option.some.inj (hx.symm.trans hx')
      exact hne ((hik ▸ Nat.le_antisymm (hk.2 k' hk'.1) (hk'.2 k hk.1)))
    · rw [if_pos (by omega)]
      have hpartner : LastPartner nums target i k := ⟨_, hx, hk, Ne.symm hik⟩
      exact halts_pure ⟨⟨k, hpartner⟩, k, rfl, hpartner⟩

/-- The first element with a last partner is the first one of a pair. -/
theorem halts_twoSum1 (h : NoOverflow nums target) :
    Halts (twoSum1 nums target) (FirstPair 0 nums target) := by
  refine halts_bind ((halts_search (Nat.zero_le _) (fun i => ∃ k, LastPartner nums target i k)
    (fun i r => ∃ k : ℕ, r = [(i : ℤ), (k : ℤ)] ∧ LastPartner nums target i k)
    (fun i _ hi => halts_twoSum1Body h hi)).mono fun t ht => halts_pure ?_)
  cases t with
  | next _ =>
    refine Or.inl ⟨rfl, fun i hi => ht i (Nat.zero_le i) ?_ (exists_lastPartner hi)⟩
    obtain ⟨j, hij⟩ := hi
    exact hij.1.trans hij.lt_length
  | exit r =>
    obtain ⟨i, -, -, -, ⟨k, rfl, hk⟩, hfirst⟩ := ht
    have hpair := hk.isPair fun i' hi' => hfirst i' (Nat.zero_le _) hi'
    refine Or.inr ⟨i, k, by simp [Turn.getD], hpair, fun i' hi' => not_lt.mp ?_⟩
    intro hlt
    exact hfirst i' (Nat.zero_le _) hlt (exists_lastPartner hi')

/-- Some pair, the second position first. -/
def SwappedPair (nums : List ℤ) (target : ℤ) (r : List ℤ) : Prop :=
  (r = [] ∧ ∀ i, ¬ StartsPair nums target i) ∨ ∃ i j : ℕ, r = [(j : ℤ), (i : ℤ)] ∧ IsPair nums target i j

/-- The dictionary is that of the elements gone through, and no pair ends among them. -/
theorem halts_twoSum2Body (h : NoOverflow nums target) {i : ℕ} (hi : i < nums.length)
    (hno : ∀ j < i, ∀ i', ¬ IsPair nums target i' j) :
    Halts (twoSum2Body nums target (fillDict (nums.take i)) i) (Turn.Good
      (fun map => map = fillDict (nums.take (i + 1)) ∧ ∀ j < i + 1, ∀ i', ¬ IsPair nums target i' j)
      (SwappedPair nums target)) := by
  have hx := List.getElem?_eq_getElem hi
  simp only [twoSum2Body, get_eq hx, pure_bind, int_eq (h.diff _ (List.getElem_mem hi))]
  rcases fillDict_eq (nums.take i) (target - nums[i]) with ⟨hnone, hmem⟩ | ⟨k, hsome, hk⟩
  · rw [hnone]
    refine halts_pure ⟨(fillDict_take hi).symm, ?_⟩
    intro j hj i' hij
    rcases Nat.lt_or_eq_of_le (Nat.lt_succ_iff.mp hj) with hlt | rfl
    · exact hno j hlt i' hij
    · obtain ⟨hlt, x, y, hx', hy, hsum⟩ := hij
      obtain rfl := Option.some.inj (hx.symm.trans hy)
      refine hmem (List.mem_of_getElem? (i := i') ?_)
      rw [List.getElem?_take_of_lt hlt, hx']
      exact congrArg some (by omega)
  · have hlt := hk.lt_length
    rw [List.length_take_of_le hi.le] at hlt
    have hnk := hk.1
    rw [List.getElem?_take_of_lt hlt] at hnk
    rw [hsome]
    exact halts_pure (Or.inr ⟨k, i, rfl, hlt, _, _, hnk, hx, by omega⟩)

theorem halts_twoSum2 (h : NoOverflow nums target) :
    Halts (twoSum2 nums target) (SwappedPair nums target) := by
  unfold twoSum2
  by_cases hlen : nums.length > 1
  · rw [if_pos hlen]
    refine halts_bind ((halts_forRangeUntil (Nat.zero_le _)
      (fun i map => map = fillDict (nums.take i) ∧ ∀ j < i, ∀ i', ¬ IsPair nums target i' j)
      (SwappedPair nums target) (fun i map _ hi hI => ?_)
      ⟨rfl, fun j hj => absurd hj (Nat.not_lt_zero j)⟩).mono fun t ht => halts_pure ?_)
    · rw [hI.1]
      exact halts_twoSum2Body h hi hI.2
    · cases t with
      | next _ => exact Or.inl ⟨rfl, fun i ⟨j, hij⟩ => ht.2 j hij.lt_length i hij⟩
      | exit r => exact ht
  · rw [if_neg hlen]
    refine halts_pure (Or.inl ⟨rfl, ?_⟩)
    rintro i ⟨j, hij⟩
    have hj := hij.lt_length
    have hi := hij.1
    omega

theorem SwappedPair.positions {r : List ℤ} (h : SwappedPair nums target r) :
    (r = [] ↔ ¬ ∃ i j, IsPair nums target i j) ∧ (r ≠ [] → Positions nums target r) := by
  rcases h with ⟨rfl, hno⟩ | ⟨i, j, rfl, hij⟩
  · exact ⟨⟨fun _ => not_exists.mpr hno, fun _ => rfl⟩, fun hne => absurd rfl hne⟩
  · refine ⟨⟨fun he => absurd he (List.cons_ne_nil _ _), fun hno => absurd ⟨i, j, hij⟩ hno⟩, ?_⟩
    intro _
    obtain ⟨hlt, x, y, hx, hy, hsum⟩ := hij
    exact ⟨j, i, rfl, hlt.ne', y, x, hy, hx, by omega⟩

theorem SwappedPair.perm {r r' : List ℤ} (h : SwappedPair nums target r) (h' : FirstPair 0 nums target r')
    (hone : OnlyPair nums target) : r.Perm r' := by
  rcases h with ⟨rfl, hno⟩ | ⟨i, j, rfl, hij⟩
  · rw [h'.eq_nil hno]
  · rcases h' with ⟨rfl, hno⟩ | ⟨i', j', rfl, hij', -⟩
    · exact absurd ⟨j, hij⟩ (hno i)
    · obtain ⟨rfl, rfl⟩ := hone i j i' j' hij hij'
      rw [add_zero, add_zero]
      exact List.Perm.swap _ _ _

end Loops

/-- The three ways return `[]` exactly without a pair, and otherwise two distinct positions of one; the
dictionary filled first starts at the same position as the brute force, and with only one pair the three
return it, up to the order. -/
theorem twoSum_spec (nums : List ℤ) (target : ℤ) (h : NoOverflow nums target) :
    ∃ r r₁ r₂, Returns (twoSum nums target) r ∧ Returns (twoSum1 nums target) r₁ ∧
      Returns (twoSum2 nums target) r₂ ∧
      (∀ q ∈ [r, r₁, r₂], (q = [] ↔ ¬ ∃ i j, IsPair nums target i j) ∧
        (q ≠ [] → Positions nums target q)) ∧
      r₁.head? = r.head? ∧ (OnlyPair nums target → r₁.Perm r ∧ r₂.Perm r) := by
  obtain ⟨r, hr, hfirst⟩ : Halts (twoSum nums target) (FirstPair 0 nums target) := halts_bruteForce h
  obtain ⟨r₁, hr₁, hfirst₁⟩ := halts_twoSum1 h
  obtain ⟨r₂, hr₂, hswapped⟩ := halts_twoSum2 h
  refine ⟨r, r₁, r₂, hr, hr₁, hr₂, fun q hq => ?_, hfirst₁.head?_eq hfirst, fun hone => ⟨?_, ?_⟩⟩
  · simp only [List.mem_cons, List.not_mem_nil, or_false] at hq
    rcases hq with rfl | rfl | rfl
    · exact hfirst.positions
    · exact hfirst₁.positions
    · exact hswapped.positions
  · exact (hswapped.perm hfirst₁ hone).symm.trans (hswapped.perm hfirst hone)
  · exact hswapped.perm hfirst hone

/-- Three copies of one number, the target twice as large. -/
theorem twoSum_spec_three :
    NoOverflow [3, 1, 3, 3] 6 ∧
    ∃ r r₁ r₂, Returns (twoSum [3, 1, 3, 3] 6) r ∧ Returns (twoSum1 [3, 1, 3, 3] 6) r₁ ∧
      Returns (twoSum2 [3, 1, 3, 3] 6) r₂ ∧
      (∀ q ∈ [r, r₁, r₂], (q = [] ↔ ¬ ∃ i j, IsPair [3, 1, 3, 3] 6 i j) ∧
        (q ≠ [] → Positions [3, 1, 3, 3] 6 q)) ∧
      r₁.head? = r.head? ∧ (OnlyPair [3, 1, 3, 3] 6 → r₁.Perm r ∧ r₂.Perm r) :=
  have h : NoOverflow [3, 1, 3, 3] 6 := noOverflow_of_mem (by decide) (by decide)
  ⟨h, twoSum_spec [3, 1, 3, 3] 6 h⟩

end Controller1

end QYInterview.TwoSum
