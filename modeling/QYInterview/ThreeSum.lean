import QYInterview.Lib.PairScan
import QYInterview.Swift

/-!
# ThreeSum — three elements with sum zero

`ThreeSumController` of the Algorithm app: `threeSum` tries all positions and collects in a `Set`,
`threeSum1` sorts and scans the rest of the array with two pointers for every element, and `threeSum2`
skips equal elements instead of using a `Set`.  All three list the `zeroTriples` of the array once each
(`threeSum_spec`).
-/

namespace QYInterview.ThreeSum

open RunLogic Swift PairScan Sorted Collect

/-! ## The code -/

/-- The body of the three loops. -/
def tryTriple (nums : List ℤ) (i j k : ℤ) (sumSet : Finset (List ℤ)) : Prog (Finset (List ℤ)) := do
  let sum ← int ((← get nums i) + (← get nums j))
  let sum ← int (sum + (← get nums k))
  if sum = 0 then
    let temp := [← get nums i, ← get nums j, ← get nums k]
    return insert (sorted temp) sumSet
  else return sumSet

/-- All positions `i < j < k`. -/
def threeSum (order : SetOrder (List ℤ)) (nums : List ℤ) : Prog (List (List ℤ)) :=
  if nums.length > 2 then do
    let sumSet ← forRange 0 nums.length (fun sumSet i =>
      forRange (i + 1) nums.length (fun sumSet j =>
        forRange (j + 1) nums.length (fun sumSet k => tryTriple nums i j k sumSet) sumSet) sumSet) ∅
    return order.elements sumSet
  else return []

/-- `while left < right` -/
def threeSum1Turn (nums : List ℤ) (target : ℤ) :
    ℤ × ℤ × Finset (List ℤ) → Prog (Turn (ℤ × ℤ × Finset (List ℤ)) (Finset (List ℤ)))
  | (left, right, sumSet) =>
    if left < right then do
      let temp ← int ((← get nums left) + (← get nums right))
      if temp = target then
        let triple := [← int (-target), ← get nums left, ← get nums right]
        return .next (left + 1, right - 1, insert triple sumSet)
      else if temp < target then return .next (left + 1, right, sumSet)
      else return .next (left, right - 1, sumSet)
    else return .exit sumSet

/-- The body of `for i in 0..<nums.count`. -/
def threeSum1From (nums : List ℤ) (sumSet : Finset (List ℤ)) (i : ℤ) : Prog (Finset (List ℤ)) := do
  let target ← int (-(← get nums i))
  loop (threeSum1Turn nums target) (i + 1, (nums.length : ℤ) - 1, sumSet)

/-- Two pointers and a `Set`. -/
def threeSum1 (order : SetOrder (List ℤ)) (nums : List ℤ) : Prog (List (List ℤ)) := do
  let nums := sorted nums
  let sumSet ← forRange 0 nums.length (threeSum1From nums) ∅
  return order.elements sumSet

/-- `while left < right && nums[left] == nums[(left + 1)]` -/
def skipLeftTurn (nums : List ℤ) (right left : ℤ) : Prog (Turn ℤ ℤ) :=
  if left < right then do
    if (← get nums left) = (← get nums (left + 1)) then return .next (left + 1) else return .exit left
  else return .exit left

/-- `while left < right && nums[right] == nums[(right - 1)]` -/
def skipRightTurn (nums : List ℤ) (left right : ℤ) : Prog (Turn ℤ ℤ) :=
  if left < right then do
    if (← get nums right) = (← get nums (right - 1)) then return .next (right - 1) else return .exit right
  else return .exit right

/-- `while left < right` -/
def threeSum2Turn (nums : List ℤ) (target : ℤ) :
    ℤ × ℤ × List (List ℤ) → Prog (Turn (ℤ × ℤ × List (List ℤ)) (List (List ℤ)))
  | (left, right, sumSet) =>
    if left < right then do
      let temp ← int ((← get nums left) + (← get nums right))
      if temp = target then
        let triple := [← int (-target), ← get nums left, ← get nums right]
        let left ← loop (skipLeftTurn nums right) left
        let right ← loop (skipRightTurn nums left) right
        return .next (left + 1, right - 1, sumSet ++ [triple])
      else if temp < target then return .next (left + 1, right, sumSet)
      else return .next (left, right - 1, sumSet)
    else return .exit sumSet

/-- `i > 0 && nums[i] == nums[i - 1]` -/
def isRepeated (nums : List ℤ) (i : ℤ) : Prog Bool :=
  if i > 0 then do return (← get nums i) == (← get nums (i - 1)) else return false

/-- The body of `for i in 0..<nums.count`. -/
def threeSum2From (nums : List ℤ) (sumSet : List (List ℤ)) (i : ℤ) : Prog (List (List ℤ)) := do
  if ← isRepeated nums i then return sumSet
  else
    let target ← int (-(← get nums i))
    loop (threeSum2Turn nums target) (i + 1, (nums.length : ℤ) - 1, sumSet)

/-- Two pointers, skipping equal elements. -/
def threeSum2 (nums : List ℤ) : Prog (List (List ℤ)) := do
  let nums := sorted nums
  forRange 0 nums.length (threeSum2From nums) []

/-! ## What they compute -/

/-- The values at three positions of `nums`, in the order of `t`. -/
def Occurs (nums t : List ℤ) : Prop :=
  ∃ i j k : ℕ, ∃ x y z, i < j ∧ j < k ∧ nums[i]? = some x ∧ nums[j]? = some y ∧ nums[k]? = some z ∧
    [x, y, z].Perm t

/-- The triples `a ≤ b ≤ c` with sum zero at three positions of `nums`. -/
def zeroTriples (nums : List ℤ) : Set (List ℤ) :=
  {t | ∃ a b c, t = [a, b, c] ∧ a ≤ b ∧ b ≤ c ∧ a + b + c = 0 ∧ Occurs nums [a, b, c]}

/-- `r` lists the zero triples of `nums`, each once. -/
def Lists (nums : List ℤ) (r : List (List ℤ)) : Prop := r.Nodup ∧ ∀ t, t ∈ r ↔ t ∈ zeroTriples nums

/-- No sum of two or three elements and no negation leaves the `Int` range. -/
structure InRange (nums : List ℤ) : Prop where
  element : ∀ a ∈ nums, IsInt a
  negation : ∀ a ∈ nums, IsInt (-a)
  pair : ∀ (i j : ℕ) (a b : ℤ), i < j → nums[i]? = some a → nums[j]? = some b → IsInt (a + b)
  triple : ∀ (i j k : ℕ) (a b c : ℤ), i < j → j < k → nums[i]? = some a → nums[j]? = some b →
    nums[k]? = some c → IsInt (a + b + c)

/-- Small elements never lead out of range. -/
theorem inRange_of_le {nums : List ℤ} (h : ∀ a ∈ nums, -2 ^ 61 ≤ a ∧ a ≤ 2 ^ 61) : InRange nums := by
  have hget : ∀ {i : ℕ} {a : ℤ}, nums[i]? = some a → -2 ^ 61 ≤ a ∧ a ≤ 2 ^ 61 :=
    fun ha => h _ (List.mem_of_getElem? ha)
  constructor
  · intro a ha
    have := h a ha
    unfold IsInt
    omega
  · intro a ha
    have := h a ha
    unfold IsInt
    omega
  · intro i j a b _ ha hb
    have h1 := hget ha
    have h2 := hget hb
    unfold IsInt
    omega
  · intro i j k a b c _ _ ha hb hc
    have h1 := hget ha
    have h2 := hget hb
    have h3 := hget hc
    unfold IsInt
    omega

section Triples

variable {nums ys t : List ℤ} {a b c : ℤ}

theorem occurs_iff_subperm (ht : t.length = 3) : Occurs nums t ↔ t.Subperm nums := by
  constructor
  · rintro ⟨i, j, k, x, y, z, hij, hjk, hi, hj, hk, hp⟩
    exact ⟨_, hp, triple_sublist_iff.mpr ⟨i, j, k, hij, hjk, hi, hj, hk⟩⟩
  · rintro ⟨l, hp, hl⟩
    have hlen : l.length = 3 := hp.length_eq.trans ht
    obtain ⟨x, y, z, rfl⟩ := List.length_eq_three.mp hlen
    obtain ⟨i, j, k, hij, hjk, hi, hj, hk⟩ := triple_sublist_iff.mp hl
    exact ⟨i, j, k, x, y, z, hij, hjk, hi, hj, hk, hp⟩

/-- In a sorted array a triple `a ≤ b ≤ c` occurs in its own order. -/
theorem occurs_sorted (hs : ys.Pairwise (· ≤ ·)) (hp : ys.Perm nums) (hab : a ≤ b) (hbc : b ≤ c) :
    Occurs nums [a, b, c] ↔
      ∃ i j k : ℕ, i < j ∧ j < k ∧ ys[i]? = some a ∧ ys[j]? = some b ∧ ys[k]? = some c := by
  rw [occurs_iff_subperm rfl, ← hp.subperm_left, ← triple_sublist_iff]
  constructor
  · intro h
    refine List.sublist_of_subperm_of_pairwise h ?_ hs
    simp [hab, hbc, hab.trans hbc]
  · exact fun h => h.subperm

end Triples

/-! ## All positions -/

section Brute

variable {nums : List ℤ}

/-- The sorted values at positions `i`, `j` and `k`, when their sum is zero. -/
def ZeroAt (nums : List ℤ) (i j k : ℕ) (t : List ℤ) : Prop :=
  ∃ x y z, nums[i]? = some x ∧ nums[j]? = some y ∧ nums[k]? = some z ∧ x + y + z = 0 ∧
    t = sorted [x, y, z]

theorem mem_zeroTriples_iff_zeroAt (t : List ℤ) :
    t ∈ zeroTriples nums ↔ ∃ i j k : ℕ, i < j ∧ j < k ∧ ZeroAt nums i j k t := by
  constructor
  · rintro ⟨a, b, c, rfl, hab, hbc, hsum, i, j, k, x, y, z, hij, hjk, hi, hj, hk, hp⟩
    have hsorted : [a, b, c] = sorted [x, y, z] := by
      have habc : [a, b, c].Pairwise (· ≤ ·) := by simp [hab, hbc, hab.trans hbc]
      exact (hp.symm.trans (sorted_perm _).symm).eq_of_pairwise' habc (pairwise_sorted _)
    have hs : x + y + z = a + b + c := by
      have := hp.sum_eq
      simp only [List.sum_cons, List.sum_nil] at this
      omega
    exact ⟨i, j, k, hij, hjk, x, y, z, hi, hj, hk, hs.trans hsum, hsorted⟩
  · rintro ⟨i, j, k, hij, hjk, x, y, z, hi, hj, hk, hsum, rfl⟩
    have hp := sorted_perm [x, y, z]
    have hs := pairwise_sorted [x, y, z]
    obtain ⟨a, b, c, habc⟩ := List.length_eq_three.mp hp.length_eq
    rw [habc] at hp hs ⊢
    have hsum' := hp.sum_eq
    simp only [List.sum_cons, List.sum_nil, List.pairwise_cons, List.mem_cons, List.not_mem_nil, or_false,
      forall_eq_or_imp, forall_eq] at hsum' hs
    exact ⟨a, b, c, rfl, hs.1.1, hs.2.1, by omega, i, j, k, x, y, z, hij, hjk, hi, hj, hk, hp.symm⟩

theorem exists_get {i : ℕ} (hi : i < nums.length) : ∃ x, nums[i]? = some x :=
  ⟨_, List.getElem?_eq_getElem hi⟩

theorem halts_tryTriple (h : InRange nums) {i j k : ℕ} (hij : i < j) (hjk : j < k) (hk : k < nums.length)
    (s : Finset (List ℤ)) :
    Halts (tryTriple nums i j k s) fun s' => ∀ t, t ∈ s' ↔ t ∈ s ∨ ZeroAt nums i j k t := by
  obtain ⟨x, hx⟩ := exists_get (show i < nums.length by omega)
  obtain ⟨y, hy⟩ := exists_get (show j < nums.length by omega)
  obtain ⟨z, hz⟩ := exists_get hk
  have hzero : ∀ t, ZeroAt nums i j k t ↔ x + y + z = 0 ∧ t = sorted [x, y, z] := by
    intro t
    constructor
    · rintro ⟨x', y', z', hx', hy', hz', hrest⟩
      obtain rfl := Option.some.inj (hx.symm.trans hx')
      obtain rfl := Option.some.inj (hy.symm.trans hy')
      obtain rfl := Option.some.inj (hz.symm.trans hz')
      exact hrest
    · exact fun hrest => ⟨x, y, z, hx, hy, hz, hrest⟩
  simp only [tryTriple, get_eq hx, get_eq hy, get_eq hz, pure_bind, int_eq (h.pair i j x y hij hx hy),
    int_eq (h.triple i j k x y z hij hjk hx hy hz)]
  by_cases hsum : x + y + z = 0
  · rw [if_pos hsum]
    apply halts_pure
    intro t
    rw [Finset.mem_insert, hzero t, or_comm, and_iff_right hsum]
  · rw [if_neg hsum]
    apply halts_pure
    intro t
    rw [hzero t, or_iff_left fun hz => hsum hz.1]

/-- What the loop over `k` adds to the set. -/
theorem halts_thirdLoop (h : InRange nums) {i j : ℕ} (hij : i < j) (hj : j < nums.length)
    (s : Finset (List ℤ)) :
    Halts (forRange (j + 1) nums.length (fun s k => tryTriple nums i j k s) s) fun s' =>
      ∀ t, t ∈ s' ↔ t ∈ s ∨ ∃ k, j + 1 ≤ k ∧ k < nums.length ∧ ZeroAt nums i j k t :=
  halts_forRange_collect (show j + 1 ≤ nums.length by omega) (fun s t => t ∈ s)
    (fun k => ZeroAt nums i j k) (fun _ s hlo hhi => halts_tryTriple h hij (by omega) hhi s) s

/-- What the loop over `j` adds to the set. -/
theorem halts_secondLoop (h : InRange nums) {i : ℕ} (hi : i < nums.length) (s : Finset (List ℤ)) :
    Halts (forRange (i + 1) nums.length (fun s j =>
      forRange (j + 1) nums.length (fun s k => tryTriple nums i j k s) s) s) fun s' =>
      ∀ t, t ∈ s' ↔ t ∈ s ∨ ∃ j, i + 1 ≤ j ∧ j < nums.length ∧
        ∃ k, j + 1 ≤ k ∧ k < nums.length ∧ ZeroAt nums i j k t :=
  halts_forRange_collect (show i + 1 ≤ nums.length by omega) (fun s t => t ∈ s)
    (fun j t => ∃ k, j + 1 ≤ k ∧ k < nums.length ∧ ZeroAt nums i j k t)
    (fun _ s hlo hhi => halts_thirdLoop h (by omega) hhi s) s

theorem zeroTriples_of_short (hlen : ¬ nums.length > 2) (t : List ℤ) : t ∉ zeroTriples nums := by
  rintro ⟨a, b, c, -, -, -, -, i, j, k, x, y, z, hij, hjk, -, -, hk, -⟩
  have := (List.getElem?_eq_some_iff.mp hk).1
  omega

theorem halts_threeSum (order : SetOrder (List ℤ)) (h : InRange nums) :
    Halts (threeSum order nums) (Lists nums) := by
  unfold threeSum
  by_cases hlen : nums.length > 2
  · rw [if_pos hlen]
    refine halts_bind ((halts_forRange_collect (Nat.zero_le _) (fun s t => t ∈ s)
      (fun i t => ∃ j, i + 1 ≤ j ∧ j < nums.length ∧
        ∃ k, j + 1 ≤ k ∧ k < nums.length ∧ ZeroAt nums i j k t)
      (fun _ s _ hi => halts_secondLoop h hi s) ∅).mono fun s hs =>
        halts_pure ⟨order.nodup_elements s, fun t => ?_⟩)
    rw [order.mem_elements, hs t, mem_zeroTriples_iff_zeroAt]
    constructor
    · rintro (h0 | ⟨i, -, -, j, hij, -, k, hjk, -, hzero⟩)
      · exact absurd h0 (Finset.notMem_empty t)
      · exact ⟨i, j, k, hij, hjk, hzero⟩
    · rintro ⟨i, j, k, hij, hjk, hzero⟩
      have hk : k < nums.length := by
        obtain ⟨x, y, z, -, -, hz, -⟩ := hzero
        exact (List.getElem?_eq_some_iff.mp hz).1
      exact Or.inr ⟨i, by omega, by omega, j, hij, by omega, k, hjk, hk, hzero⟩
  · rw [if_neg hlen]
    exact halts_pure ⟨List.nodup_nil, fun t => iff_of_false List.not_mem_nil (zeroTriples_of_short hlen t)⟩

end Brute

/-! ## Two pointers -/

section Scan

variable {nums ys : List ℤ}

/-- The triples a scan from position `i` of the sorted array finds. -/
def From (ys : List ℤ) (i : ℕ) (t : List ℤ) : Prop :=
  ∃ a v, ys[i]? = some a ∧ v ∈ pairs ys (-a) ((i : ℤ) + 1) ((ys.length : ℤ) - 1) ∧ t = [a, v.1, v.2]

theorem from_iff {i : ℕ} {a : ℤ} (ha : ys[i]? = some a) (t : List ℤ) :
    From ys i t ↔ ∃ v ∈ pairs ys (-a) ((i : ℤ) + 1) ((ys.length : ℤ) - 1), t = [a, v.1, v.2] := by
  constructor
  · rintro ⟨a', v, ha', hv, ht⟩
    obtain rfl := Option.some.inj (ha.symm.trans ha')
    exact ⟨v, hv, ht⟩
  · rintro ⟨v, hv, ht⟩
    exact ⟨a, v, ha, hv, ht⟩

theorem mem_zeroTriples_iff_from (hs : ys.Pairwise (· ≤ ·)) (hp : ys.Perm nums) (t : List ℤ) :
    t ∈ zeroTriples nums ↔ ∃ i, i < ys.length ∧ From ys i t := by
  constructor
  · rintro ⟨a, b, c, rfl, hab, hbc, hsum, hocc⟩
    obtain ⟨i, j, k, hij, hjk, hi, hj, hk⟩ := (occurs_sorted hs hp hab hbc).mp hocc
    have hkl := (List.getElem?_eq_some_iff.mp hk).1
    exact ⟨i, by omega, a, (b, c), hi, ⟨j, k, by omega, hjk, by omega, hj, hk, by dsimp only; omega⟩, rfl⟩
  · rintro ⟨i, -, a, ⟨b, c⟩, hi, ⟨j, k, hij, hjk, -, hj, hk, hsum⟩, rfl⟩
    dsimp only at hj hk hsum
    have hab : a ≤ b := le_of_sorted hs (by omega) hi hj
    have hbc : b ≤ c := le_of_sorted hs hjk.le hj hk
    exact ⟨a, b, c, rfl, hab, hbc, by omega,
      (occurs_sorted hs hp hab hbc).mpr ⟨i, j, k, by omega, hjk, hi, hj, hk⟩⟩

/-- Two elements of the sorted array are two elements of the array. -/
theorem InRange.pair_of_perm (h : InRange nums) (hp : ys.Perm nums) {p q : ℕ} {b c : ℤ} (hpq : p < q)
    (hb : ys[p]? = some b) (hc : ys[q]? = some c) : IsInt (b + c) := by
  have hsub : [b, c].Subperm nums := hp.subperm_left.mp (pair_sublist_iff.mpr ⟨p, q, hpq, hb, hc⟩).subperm
  obtain ⟨l, hl, hsub⟩ := hsub
  obtain ⟨x, y, rfl⟩ := List.length_eq_two.mp hl.length_eq
  obtain ⟨i, j, hij, hi, hj⟩ := pair_sublist_iff.mp hsub
  have hsum := hl.sum_eq
  simp only [List.sum_cons, List.sum_nil] at hsum
  rw [show b + c = x + y by omega]
  exact h.pair i j x y hij hi hj

theorem InRange.element_of_perm (h : InRange nums) (hp : ys.Perm nums) {i : ℕ} {a : ℤ}
    (ha : ys[i]? = some a) : IsInt a ∧ IsInt (-a) := by
  have hmem : a ∈ nums := hp.subset (List.mem_of_getElem? ha)
  exact ⟨h.element a hmem, h.negation a hmem⟩

/-- `threeSum1` collects the triples of the pairs it meets in a set. -/
theorem threeSum1_scanner (h : InRange nums) (hp : ys.Perm nums) {a : ℤ} (ha : IsInt a)
    (sumSet : Finset (List ℤ)) :
    Scanner ys (-a) (threeSum1Turn ys (-a)) (fun s => s.1) (fun s => s.2.1)
      (fun F s => ∀ t, t ∈ s.2.2 ↔ t ∈ sumSet ∨ ∃ v ∈ F, t = [a, v.1, v.2])
      (fun F res => ∀ t, t ∈ res ↔ t ∈ sumSet ∨ ∃ v ∈ F, t = [a, v.1, v.2]) where
  exit := by
    rintro F ⟨left, right, s⟩ hJ hle
    simp only [threeSum1Turn, if_neg (not_lt.mpr hle)]
    exact halts_pure hJ
  step := by
    rintro F ⟨left, right, s⟩ l r b c hJ rfl rfl hlr hb hc
    have hint : int (- -a) = pure a := by rw [neg_neg, int_eq ha]
    simp only [threeSum1Turn, if_pos (show (l : ℤ) < r by omega), get_eq hb, get_eq hc, pure_bind,
      int_eq (h.pair_of_perm hp hlr hb hc), hint]
    rcases lt_trichotomy (b + c) (-a) with hlt | heq | hgt
    · rw [if_neg hlt.ne, if_pos hlt]
      exact halts_pure (Or.inl ⟨hlt, rfl, rfl, hJ⟩)
    · rw [if_pos heq]
      refine halts_pure (Or.inr (Or.inr ⟨heq, l, r, le_rfl, le_rfl, hb, hc, rfl, rfl, ?_⟩))
      intro t
      simp only [Finset.mem_insert, hJ t, Set.mem_insert_iff, or_and_right, exists_or, exists_eq_left]
      exact or_left_comm
    · rw [if_neg hgt.ne', if_neg hgt.not_gt]
      exact halts_pure (Or.inr (Or.inl ⟨hgt, rfl, rfl, hJ⟩))

/-- Scanning from `i` adds the triples that start there to the set. -/
theorem halts_threeSum1From (h : InRange nums) (hp : ys.Perm nums) (hs : ys.Pairwise (· ≤ ·)) {i : ℕ}
    (hi : i < ys.length) (sumSet : Finset (List ℤ)) :
    Halts (threeSum1From ys sumSet i) fun s' => ∀ t, t ∈ s' ↔ t ∈ sumSet ∨ From ys i t := by
  obtain ⟨a, ha⟩ := exists_get hi
  obtain ⟨hint, hneg⟩ := h.element_of_perm hp ha
  simp only [threeSum1From, get_eq ha, pure_bind, int_eq hneg]
  refine ((threeSum1_scanner h hp hint sumSet).halts hs (show (0 : ℤ) ≤ i + 1 by omega)
    (show (ys.length : ℤ) - 1 < ys.length by omega) (fun t => ?_)).mono fun s' hs' t => ?_
  · simp
  · rw [hs' t, from_iff ha]

theorem halts_threeSum1 (order : SetOrder (List ℤ)) (h : InRange nums) :
    Halts (threeSum1 order nums) (Lists nums) := by
  have hp := sorted_perm nums
  have hs := pairwise_sorted nums
  refine halts_bind ((halts_forRange_collect (Nat.zero_le _) (fun s t => t ∈ s) (From (sorted nums))
    (fun i s _ hi => halts_threeSum1From h hp hs hi s) ∅).mono fun s hmem => ?_)
  refine halts_pure ⟨order.nodup_elements s, ?_⟩
  intro t
  rw [order.mem_elements, hmem t, mem_zeroTriples_iff_from hs hp]
  simp

/-! ## Skipping equal elements -/

/-- The left pointer stops at a last copy of its value, or at the right one. -/
theorem halts_skipLeft {l r : ℕ} {b : ℤ} (hlr : l ≤ r) (hr : r < ys.length) (hb : ys[l]? = some b) :
    Halts (loop (skipLeftTurn ys r) (l : ℤ)) fun left => ∃ l' : ℕ, left = l' ∧ l ≤ l' ∧ l' ≤ r ∧
      ys[l']? = some b ∧ (l' < r → ys[l' + 1]? ≠ some b) := by
  refine halts_loop (fun left : ℤ => ∃ l' : ℕ, left = l' ∧ l ≤ l' ∧ l' ≤ r ∧ ys[l']? = some b)
    (fun left => ((r : ℤ) - left).toNat) _ (fun left hI => ?_) _ ⟨l, rfl, le_rfl, hlr, hb⟩
  obtain ⟨l', rfl, hll, hlr', hb'⟩ := hI
  rcases Nat.lt_or_eq_of_le hlr' with hlt | rfl
  · obtain ⟨b', hnext⟩ := exists_get (show l' + 1 < ys.length by omega)
    have hget : get ys ((l' : ℤ) + 1) = pure b' := get_eq hnext
    simp only [skipLeftTurn, if_pos (show (l' : ℤ) < r by omega), get_eq hb', hget, pure_bind]
    by_cases heq : b = b'
    · rw [if_pos heq]
      exact halts_pure ⟨⟨l' + 1, rfl, by omega, by omega, by rw [hnext, heq]⟩, by omega⟩
    · rw [if_neg heq]
      refine halts_pure ⟨l', rfl, hll, hlr', hb', fun _ h => heq ?_⟩
      exact (Option.some.inj (hnext.symm.trans h)).symm
  · simp only [skipLeftTurn, lt_irrefl, if_false]
    exact halts_pure ⟨l', rfl, hll, le_rfl, hb', fun h => absurd h (lt_irrefl _)⟩

/-- The right pointer stops at a first copy of its value, or at the left one. -/
theorem halts_skipRight {l r : ℕ} {c : ℤ} (hlr : l ≤ r) (hr : r < ys.length) (hc : ys[r]? = some c) :
    Halts (loop (skipRightTurn ys l) (r : ℤ)) fun right => ∃ r' : ℕ, right = r' ∧ l ≤ r' ∧ r' ≤ r ∧
      ys[r']? = some c ∧ (l < r' → ys[r' - 1]? ≠ some c) := by
  refine halts_loop (fun right : ℤ => ∃ r' : ℕ, right = r' ∧ l ≤ r' ∧ r' ≤ r ∧ ys[r']? = some c)
    (fun right => (right - (l : ℤ)).toNat) _ (fun right hI => ?_) _ ⟨r, rfl, hlr, le_rfl, hc⟩
  obtain ⟨r', rfl, hlr', hrr, hc'⟩ := hI
  rcases Nat.lt_or_eq_of_le hlr' with hlt | rfl
  · obtain ⟨m, rfl⟩ := Nat.exists_eq_add_of_le' (show 1 ≤ r' by omega)
    obtain ⟨c', hprev⟩ := exists_get (show m < ys.length by omega)
    have hget : get ys (((m + 1 : ℕ) : ℤ) - 1) = pure c' := by
      rw [show ((m + 1 : ℕ) : ℤ) - 1 = m by push_cast; ring]
      exact get_eq hprev
    simp only [skipRightTurn, if_pos (show (l : ℤ) < (m + 1 : ℕ) by omega), get_eq hc', hget, pure_bind]
    by_cases heq : c = c'
    · rw [if_pos heq]
      exact halts_pure ⟨⟨m, by push_cast; ring, by omega, by omega, by rw [hprev, heq]⟩, by omega⟩
    · rw [if_neg heq]
      refine halts_pure ⟨m + 1, rfl, hlr', hrr, hc', fun _ h => heq ?_⟩
      exact (Option.some.inj (hprev.symm.trans h)).symm
  · simp only [skipRightTurn, lt_irrefl, if_false]
    exact halts_pure ⟨l, rfl, le_rfl, hrr, hc', fun h => absurd h (lt_irrefl _)⟩

/-- What `threeSum2` has appended for the pairs `F`: each triple once, and every value of the left pointer
so far is below the one it is at. -/
structure Appended (ys : List ℤ) (a : ℤ) (sumSet : List (List ℤ)) (F : Set (ℤ × ℤ)) (res : List (List ℤ))
    (left right : ℤ) : Prop where
  eq : ∃ new, res = sumSet ++ new ∧ new.Nodup ∧ ∀ t, t ∈ new ↔ ∃ v ∈ F, t = [a, v.1, v.2]
  below : ∀ (l : ℕ) (b : ℤ), left ≤ l → (l : ℤ) ≤ right → ys[l]? = some b → ∀ v ∈ F, v.1 < b

/-- The triple of a pair. -/
theorem injective_triple (a : ℤ) : Function.Injective fun v : ℤ × ℤ => [a, v.1, v.2] := by
  rintro ⟨b, c⟩ ⟨b', c'⟩ h
  simpa using h

theorem appended_iff {a : ℤ} {sumSet res : List (List ℤ)} {F : Set (ℤ × ℤ)} {left right : ℤ} :
    Appended ys a sumSet F res left right ↔
      Gathered ys (fun v => [a, v.1, v.2]) sumSet F res left right := by
  have himage : ∀ t, t ∈ (fun v : ℤ × ℤ => [a, v.1, v.2]) '' F ↔ ∃ v ∈ F, t = [a, v.1, v.2] :=
    fun t => exists_congr fun v => and_congr_right' eq_comm
  constructor
  · rintro ⟨⟨new, heq, hnd, hmem⟩, hbelow⟩
    exact ⟨⟨new, heq, hnd, fun t => (hmem t).trans (himage t).symm⟩, hbelow⟩
  · rintro ⟨⟨new, heq, hnd, hmem⟩, hbelow⟩
    exact ⟨⟨new, heq, hnd, fun t => (hmem t).trans (himage t)⟩, hbelow⟩

/-- `threeSum2` appends the triples of the pairs it meets, each once. -/
theorem threeSum2_scanner (h : InRange nums) (hp : ys.Perm nums) (hs : ys.Pairwise (· ≤ ·)) {a : ℤ}
    (ha : IsInt a) (sumSet : List (List ℤ)) :
    Scanner ys (-a) (threeSum2Turn ys (-a)) (fun s => s.1) (fun s => s.2.1)
      (fun F s => Appended ys a sumSet F s.2.2 s.1 s.2.1)
      (fun F res => ∃ new, res = sumSet ++ new ∧ new.Nodup ∧ ∀ t, t ∈ new ↔ ∃ v ∈ F, t = [a, v.1, v.2]) where
  exit := by
    rintro F ⟨left, right, s⟩ hJ hle
    simp only [threeSum2Turn, if_neg (not_lt.mpr hle)]
    exact halts_pure hJ.eq
  step := by
    rintro F ⟨left, right, s⟩ l r b c hJ rfl rfl hlr hb hc
    have hint : int (- -a) = pure a := by rw [neg_neg, int_eq ha]
    have hr := (List.getElem?_eq_some_iff.mp hc).1
    simp only [threeSum2Turn, if_pos (show (l : ℤ) < r by omega), get_eq hb, get_eq hc, pure_bind,
      int_eq (h.pair_of_perm hp hlr hb hc), hint]
    rcases lt_trichotomy (b + c) (-a) with hlt | heq | hgt
    · rw [if_neg hlt.ne, if_pos hlt]
      exact halts_pure (Or.inl ⟨hlt, rfl, rfl,
        appended_iff.mpr ((appended_iff.mp hJ).shrink (by dsimp only; omega) le_rfl)⟩)
    · rw [if_pos heq]
      refine halts_bind ((halts_skipLeft hlr.le hr hb).mono ?_)
      intro left hleft
      obtain ⟨l', rfl, hll, hlr', hb', hnext⟩ := hleft
      refine halts_bind ((halts_skipRight hlr' hr hc).mono ?_)
      intro right hright
      obtain ⟨r', rfl, hlr'', hrr, hc', -⟩ := hright
      exact halts_pure (Or.inr (Or.inr ⟨heq, l', r', hll, hrr, hb', hc', rfl, rfl,
        appended_iff.mpr ((appended_iff.mp hJ).insert hs (injective_triple a) hlr hb hrr hb' hnext)⟩))
    · rw [if_neg hgt.ne', if_neg hgt.not_gt]
      exact halts_pure (Or.inr (Or.inl ⟨hgt, rfl, rfl,
        appended_iff.mpr ((appended_iff.mp hJ).shrink le_rfl (by dsimp only; omega))⟩))

/-- The element at `i` is the same as the one before it. -/
def Repeated (ys : List ℤ) (i : ℕ) : Prop := ∃ m, i = m + 1 ∧ ys[m]? = ys[i]?

theorem exists_isRepeated {i : ℕ} (hi : i < ys.length) :
    ∃ rep, isRepeated ys i = pure rep ∧ (rep = true ↔ Repeated ys i) := by
  cases i with
  | zero =>
    refine ⟨false, if_neg (by simp), iff_of_false Bool.false_ne_true ?_⟩
    rintro ⟨m, hm, -⟩
    exact absurd hm (Nat.succ_ne_zero m).symm
  | succ m =>
    obtain ⟨same, hsame, hiff⟩ := exists_eq_before hi
    refine ⟨same, (if_pos (by omega)).trans hsame, hiff.trans ⟨fun heq => ⟨m, rfl, heq⟩, ?_⟩⟩
    rintro ⟨m', hm', heq⟩
    obtain rfl := Nat.succ.inj hm'
    exact heq

/-- Scanning from `i` appends the triples that start there, unless the element is a repeated one. -/
theorem halts_threeSum2From (h : InRange nums) (hp : ys.Perm nums) (hs : ys.Pairwise (· ≤ ·)) {i : ℕ}
    (hi : i < ys.length) (sumSet : List (List ℤ)) :
    Halts (threeSum2From ys sumSet i) fun s' => Repeated ys i ∧ s' = sumSet ∨
      ¬ Repeated ys i ∧ ∃ new, s' = sumSet ++ new ∧ new.Nodup ∧ ∀ t, t ∈ new ↔ From ys i t := by
  obtain ⟨a, ha⟩ := exists_get hi
  obtain ⟨hint, hneg⟩ := h.element_of_perm hp ha
  obtain ⟨rep, hrep, hiff⟩ := exists_isRepeated hi
  simp only [threeSum2From, hrep, get_eq ha, pure_bind, int_eq hneg]
  cases rep with
  | true => exact halts_pure (Or.inl ⟨hiff.mp rfl, rfl⟩)
  | false =>
    have hnot : ¬ Repeated ys i := fun hr => Bool.false_ne_true (hiff.mpr hr)
    refine ((threeSum2_scanner h hp hs hint sumSet).halts hs (show (0 : ℤ) ≤ i + 1 by omega)
      (show (ys.length : ℤ) - 1 < ys.length by omega) ?_).mono fun s' hs' => ?_
    · exact appended_iff.mpr (gathered_empty ys _ sumSet _ _)
    · obtain ⟨new, heq, hnd, hmem⟩ := hs'
      exact Or.inr ⟨hnot, new, heq, hnd, fun t => (hmem t).trans (from_iff ha t).symm⟩

/-- A triple starts at one value, and a triple that starts at a repeated element starts at the one before it
as well. -/
theorem starts_from : Starts ys 0 fun i => {t | From ys i t} where
  value := by
    rintro i j t ⟨a, v, ha, -, ht⟩ ⟨a', v', ha', -, ht'⟩
    obtain rfl : a = a' := (List.cons.inj (ht.symm.trans ht')).1
    exact ha.trans ha'.symm
  before := by
    rintro m t - heq ⟨a, v, ha, ⟨p, q, hlo, hrest⟩, ht⟩
    exact ⟨a, v, heq.trans ha, ⟨p, q, by push_cast at hlo; omega, hrest⟩, ht⟩

/-- The triples that start below position `i`, each once. -/
def Collected (ys : List ℤ) (i : ℕ) (s : List (List ℤ)) : Prop :=
  s.Nodup ∧ ∀ t, t ∈ s ↔ ∃ j, j < i ∧ From ys j t

theorem collected_iff {i : ℕ} {s : List (List ℤ)} :
    Collected ys i s ↔ Adds [] (startsIn (fun i => {t | From ys i t}) 0 i) s := by
  rw [adds_nil_iff]
  refine and_congr_right' (forall_congr' fun t => iff_congr Iff.rfl (exists_congr ?_))
  intro j
  exact (and_iff_right (Nat.zero_le j)).symm

theorem halts_collected (h : InRange nums) (hp : ys.Perm nums) (hs : ys.Pairwise (· ≤ ·)) {i : ℕ}
    (hi : i < ys.length) {s : List (List ℤ)} (hI : Collected ys i s) :
    Halts (threeSum2From ys s i) (Collected ys (i + 1)) := by
  have hrep : Collect.Repeated ys 0 i ↔ Repeated ys i :=
    exists_congr fun m => and_iff_right (Nat.zero_le m)
  refine (halts_threeSum2From h hp hs hi s).mono ?_
  intro s' hs'
  rw [collected_iff] at hI ⊢
  rcases hs' with ⟨hr, rfl⟩ | ⟨hnot, hnew⟩
  · exact starts_from.pass (hrep.mpr hr) hI
  · exact starts_from.add hs (Nat.zero_le i) (fun hr => hnot (hrep.mp hr)) hI hnew

theorem halts_threeSum2 (h : InRange nums) : Halts (threeSum2 nums) (Lists nums) := by
  have hp := sorted_perm nums
  have hs := pairwise_sorted nums
  refine (halts_forRange (Nat.zero_le _) (Collected (sorted nums))
    (fun i s _ hi hI => halts_collected h hp hs hi hI)
    ⟨List.nodup_nil, fun t => by simp⟩).mono fun s hs' => ⟨hs'.1, fun t => ?_⟩
  rw [hs'.2 t, mem_zeroTriples_iff_from hs hp]

end Scan

/-- The three versions return, and each lists the triples `a ≤ b ≤ c` with sum zero that occur at three
positions of the array, each triple once. -/
theorem threeSum_spec (order : SetOrder (List ℤ)) (nums : List ℤ) (h : InRange nums) :
    Halts (threeSum order nums) (Lists nums) ∧ Halts (threeSum1 order nums) (Lists nums) ∧
      Halts (threeSum2 nums) (Lists nums) :=
  ⟨halts_threeSum order h, halts_threeSum1 order h, halts_threeSum2 h⟩

/-- The example of the controller. -/
theorem threeSum_spec_six :
    Halts (threeSum2 [-1, 0, 1, 2, -1, -4]) fun r => r.Nodup ∧ [-1, -1, 2] ∈ r ∧ [-1, 0, 1] ∈ r := by
  have hrange : InRange [-1, 0, 1, 2, -1, -4] := inRange_of_le (by decide)
  obtain ⟨-, -, h⟩ := threeSum_spec ⟨Finset.toList, Finset.nodup_toList, fun _ _ => Finset.mem_toList⟩
    [-1, 0, 1, 2, -1, -4] hrange
  refine h.mono fun r hr => ⟨hr.1, ?_, ?_⟩
  · exact (hr.2 _).mpr ⟨-1, -1, 2, rfl, by decide, by decide, by decide, 0, 3, 4, -1, 2, -1, by decide,
      by decide, rfl, rfl, rfl, by decide⟩
  · exact (hr.2 _).mpr ⟨-1, 0, 1, rfl, by decide, by decide, by decide, 0, 1, 2, -1, 0, 1, by decide,
      by decide, rfl, rfl, rfl, List.Perm.refl _⟩

end QYInterview.ThreeSum
