import Mathlib.Tactic
import Mathlib.Data.List.Count

/-!
# Gapped — lists in steps of a gap

`cls g i a` is the class of `a` that starts at `i` and goes on in steps of `g`: its `k`-th element is
`a[i + g * k]` (`getElem?_cls`).  The first `g` classes are all of the list (`perm_of_cls`), and the list is
sorted in steps of `g` (`GapSorted`) when each of them is sorted.  Sorting the classes of one gap keeps the
list sorted in the steps of any other (`ClassSorted.gapSorted`): one class, moved on by the other gap, lies in
another class and is not below the first place by place, and sorting keeps two lists in that relation
(`sorted_dominates`), since it keeps the number of elements up to a bound.
-/

namespace Gapped

universe u

variable {α : Type u}

/-! ## Classes -/

/-- The first element and every `g`-th one after it, for `0 < g`. -/
def every (g : ℕ) : List α → List α
  | [] => []
  | x :: xs => x :: every g (xs.drop (g - 1))
termination_by xs => xs.length
decreasing_by
  rw [List.length_drop, List.length_cons]
  omega

/-- The elements from `i` on in steps of `g`. -/
def cls (g i : ℕ) (a : List α) : List α := every g (a.drop i)

variable {g h i j k m : ℕ} {a b : List α} {x y v : α}

theorem getElem?_every (hg : 0 < g) (k : ℕ) (a : List α) : (every g a)[k]? = a[g * k]? := by
  induction k generalizing a with
  | zero =>
    cases a with
    | nil => rw [every]; rfl
    | cons x xs => rw [every]; rfl
  | succ k ih =>
    cases a with
    | nil => rw [every]; rfl
    | cons x xs =>
      rw [every, List.getElem?_cons_succ, ih, List.getElem?_drop, show g * (k + 1) = g - 1 + g * k + 1 by
        rw [Nat.mul_succ]; omega, List.getElem?_cons_succ]

theorem getElem?_cls (hg : 0 < g) (i k : ℕ) (a : List α) : (cls g i a)[k]? = a[i + g * k]? := by
  rw [cls, getElem?_every hg, List.getElem?_drop]

/-- A position is in the class of its remainder. -/
theorem getElem?_eq_cls (hg : 0 < g) (p : ℕ) (a : List α) : a[p]? = (cls g (p % g) a)[p / g]? := by
  rw [getElem?_cls hg, Nat.mod_add_div]

theorem cls_set_self (hg : 0 < g) (i k : ℕ) (a : List α) (v : α) :
    cls g i (a.set (i + g * k) v) = (cls g i a).set k v := by
  apply List.ext_getElem?
  intro t
  rw [getElem?_cls hg]
  by_cases ht : k = t
  · subst ht
    rw [List.getElem?_set_self', List.getElem?_set_self', getElem?_cls hg]
  · rw [List.getElem?_set_ne ht, List.getElem?_set_ne fun heq => ht (Nat.eq_of_mul_eq_mul_left hg (by omega)),
      getElem?_cls hg]

theorem cls_set_of_ne (hi : i < g) (hj : j < g) (hne : j ≠ i) (k : ℕ) (a : List α) (v : α) :
    cls g j (a.set (i + g * k) v) = cls g j a := by
  have hg : 0 < g := by omega
  apply List.ext_getElem?
  intro t
  rw [getElem?_cls hg, getElem?_cls hg, List.getElem?_set_ne]
  intro heq
  have hmod := congrArg (· % g) heq
  simp only [Nat.add_mul_mod_self_left, Nat.mod_eq_of_lt hi, Nat.mod_eq_of_lt hj] at hmod
  exact hne hmod.symm

theorem cls_cons_zero (g : ℕ) (y : α) (a : List α) : cls (g + 1) 0 (y :: a) = y :: cls (g + 1) g a := by
  rw [cls, List.drop_zero, every]
  rfl

theorem cls_cons_succ (g i : ℕ) (y : α) (a : List α) : cls g (i + 1) (y :: a) = cls g i a := rfl

/-- An element occurs in the first `g` classes together as often as in the list. -/
theorem count_eq_sum [DecidableEq α] (hg : 0 < g) (x : α) (a : List α) :
    a.count x = ∑ i ∈ Finset.range g, (cls g i a).count x := by
  obtain ⟨g, rfl⟩ := Nat.exists_eq_add_of_le' hg
  induction a with
  | nil => simp [cls, every]
  | cons y a ih =>
    simp only [Finset.sum_range_succ', cls_cons_succ, cls_cons_zero, List.count_cons]
    rw [ih, Finset.sum_range_succ, add_assoc]

/-- Lists whose classes have the same elements have the same elements. -/
theorem perm_of_cls [DecidableEq α] (hg : 0 < g) (h : ∀ i < g, (cls g i b).Perm (cls g i a)) : b.Perm a := by
  apply List.perm_iff_count.mpr
  intro x
  rw [count_eq_sum hg, count_eq_sum hg]
  exact Finset.sum_congr rfl fun i hi => (h i (Finset.mem_range.mp hi)).count_eq x

/-! ## Sorting keeps a list below another -/

section Sorted

variable [LinearOrder α] {R R' S S' : List α}

/-- Place by place `R` has an element not above that of `S`. -/
def Dominates (S R : List α) : Prop := ∀ (t : ℕ) (y : α), S[t]? = some y → ∃ x, R[t]? = some x ∧ x ≤ y

/-- Up to any bound the lower list has at least as many elements. -/
theorem Dominates.countP_le (h : Dominates S R) (v : α) : S.countP (· ≤ v) ≤ R.countP (· ≤ v) := by
  induction S generalizing R with
  | nil => simp
  | cons y S ih =>
    obtain ⟨x, hx, hxy⟩ := h 0 y rfl
    cases R with
    | nil => cases hx
    | cons z R =>
      obtain rfl := Option.some.inj hx
      have htail : S.countP (· ≤ v) ≤ R.countP (· ≤ v) := ih fun t w hw => h (t + 1) w hw
      rw [List.countP_cons, List.countP_cons]
      refine Nat.add_le_add htail ?_
      by_cases hy : y ≤ v
      · simp [hy, hxy.trans hy]
      · simp [hy]

/-- In a sorted list the elements up to a bound are the first ones. -/
theorem le_iff_lt_countP (hS : S.Pairwise (· ≤ ·)) (hy : S[k]? = some y) : y ≤ v ↔ k < S.countP (· ≤ v) := by
  induction S generalizing k with
  | nil => cases hy
  | cons z S ih =>
    obtain ⟨hz, hS⟩ := List.pairwise_cons.mp hS
    have hzy : z ≤ y := by
      cases k with
      | zero => exact (Option.some.inj hy).le
      | succ k => exact hz y (List.mem_of_getElem? hy)
    by_cases hzv : z ≤ v
    · rw [List.countP_cons_of_pos (by simpa using hzv)]
      cases k with
      | zero =>
        obtain rfl := Option.some.inj hy
        exact iff_of_true hzv (Nat.succ_pos _)
      | succ k => rw [ih hS hy, Nat.succ_lt_succ_iff]
    · have hnone : S.countP (· ≤ v) = 0 := List.countP_eq_zero.mpr fun w hw => by
        simpa using (not_le.mp hzv).trans_le (hz w hw)
      rw [List.countP_cons_of_neg (by simpa using hzv), hnone]
      exact iff_of_false (fun h => hzv (hzy.trans h)) (Nat.not_lt_zero k)

/-- If `S` from place `m` on is above `R`, so it is when both are sorted. -/
theorem sorted_dominates (h : Dominates (S.drop m) R) (hR : R'.Perm R) (hS : S'.Perm S)
    (hRs : R'.Pairwise (· ≤ ·)) (hSs : S'.Pairwise (· ≤ ·)) : Dominates (S'.drop m) R' := by
  rintro k y hy
  rw [List.getElem?_drop] at hy
  have hcount : S'.countP (· ≤ y) ≤ m + R'.countP (· ≤ y) := by
    rw [hS.countP_eq, hR.countP_eq]
    nth_rewrite 1 [← List.take_append_drop m S]
    rw [List.countP_append]
    exact Nat.add_le_add (List.countP_le_length.trans (List.length_take_le m S)) (h.countP_le y)
  have hk : k < R'.countP (· ≤ y) := by
    have := (le_iff_lt_countP hSs hy).mp le_rfl
    omega
  have hlt : k < R'.length := hk.trans_le List.countP_le_length
  exact ⟨R'[k], List.getElem?_eq_getElem hlt, (le_iff_lt_countP hRs (List.getElem?_eq_getElem hlt)).mpr hk⟩

/-- The list is sorted in steps of `h`. -/
def GapSorted (h : ℕ) (a : List α) : Prop := ∀ (i : ℕ) (x y : α), a[i]? = some x → a[i + h]? = some y → x ≤ y

/-- `b` is `a` with its classes sorted. -/
structure ClassSorted (g : ℕ) (a b : List α) : Prop where
  perm : ∀ i < g, (cls g i b).Perm (cls g i a)
  sorted : ∀ i < g, (cls g i b).Pairwise (· ≤ ·)

theorem ClassSorted.gapSorted_self (hab : ClassSorted g a b) (hg : 0 < g) : GapSorted g b := by
  intro p x y hx hy
  rw [getElem?_eq_cls hg, Nat.add_div_right p hg, Nat.add_mod_right] at hy
  rw [getElem?_eq_cls hg] at hx
  obtain ⟨hp, rfl⟩ := List.getElem?_eq_some_iff.mp hx
  obtain ⟨hp', rfl⟩ := List.getElem?_eq_some_iff.mp hy
  exact List.pairwise_iff_getElem.mp (hab.sorted (p % g) (Nat.mod_lt p hg)) _ _ hp hp' (Nat.lt_succ_self _)

/-- Sorting in steps of one gap keeps a list sorted in steps of another. -/
theorem ClassSorted.gapSorted (hab : ClassSorted g a b) (hg : 0 < g) (ha : GapSorted h a) :
    GapSorted h b := by
  intro p x y hx hy
  set i := p % g with hi
  set j := (i + h) % g with hj
  set m := (i + h) / g with hm
  have hjm : j + g * m = i + h := Nat.mod_add_div _ _
  have hp : i + g * (p / g) = p := Nat.mod_add_div _ _
  have hdom : Dominates ((cls g j a).drop m) (cls g i a) := by
    intro t z hz
    rw [List.getElem?_drop, getElem?_cls hg, Nat.mul_add, ← Nat.add_assoc, hjm] at hz
    have hlt : i + g * t < a.length := by
      have := (List.getElem?_eq_some_iff.mp hz).1
      omega
    refine ⟨a[i + g * t], by rw [getElem?_cls hg, List.getElem?_eq_getElem hlt], ?_⟩
    exact ha (i + g * t) _ z (List.getElem?_eq_getElem hlt) (by rw [← hz]; congr 1; omega)
  have hdom' := sorted_dominates hdom (hab.perm i (Nat.mod_lt p hg)) (hab.perm j (Nat.mod_lt _ hg))
    (hab.sorted i (Nat.mod_lt p hg)) (hab.sorted j (Nat.mod_lt _ hg))
  obtain ⟨x', hx', hle⟩ := hdom' (p / g) y (by
    rw [List.getElem?_drop, getElem?_cls hg, Nat.mul_add, ← Nat.add_assoc, hjm, ← hy]
    congr 1
    omega)
  rw [getElem?_cls hg, hp, hx] at hx'
  exact Option.some.inj hx' ▸ hle

/-- A list sorted in steps of one is sorted. -/
theorem GapSorted.pairwise (h : GapSorted 1 a) : a.Pairwise (· ≤ ·) := by
  rw [← List.isChain_iff_pairwise, List.isChain_iff_getElem]
  intro i hi
  exact h i _ _ (List.getElem?_eq_getElem (by omega)) (List.getElem?_eq_getElem hi)

end Sorted

end Gapped
