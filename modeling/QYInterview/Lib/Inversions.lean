import Mathlib.Tactic
import Mathlib.Data.List.Sort

/-!
# Inversions — what must be sorted to sort a list

`Inverted xs i j` says that position `i` is in front of `j` and holds a greater value.  Sorting the window
from `m` to `n` of a list sorts the whole list exactly when every inversion lies in the window
(`pairwise_sortWindow_iff`), so the least window runs from the first position of an inversion to the last
one (`least_window`).
-/

namespace Inversions

universe u

variable {α : Type u} [LinearOrder α] {xs : List α} {i j m n : ℕ}

/-- The positions `i < j` are out of order. -/
def Inverted (xs : List α) (i j : ℕ) : Prop := i < j ∧ ∃ a b, xs[i]? = some a ∧ xs[j]? = some b ∧ b < a

/-- Some position behind `i` holds a smaller value. -/
def Early (xs : List α) (i : ℕ) : Prop := ∃ j, Inverted xs i j

/-- Some position in front of `j` holds a greater value. -/
def Late (xs : List α) (j : ℕ) : Prop := ∃ i, Inverted xs i j

theorem Inverted.lt_length (h : Inverted xs i j) : j < xs.length := by
  obtain ⟨-, a, b, -, hj, -⟩ := h
  exact (List.getElem?_eq_some_iff.mp hj).1

/-- No inversion starts in the front part. -/
theorem forall_length_le_iff (front back : List α) :
    (∀ i j, Inverted (front ++ back) i j → front.length ≤ i) ↔
      front.Pairwise (· ≤ ·) ∧ ∀ a ∈ front, ∀ b ∈ back, a ≤ b := by
  constructor
  · intro h
    have key : ∀ {i j : ℕ} {a b : α}, i < j → front[i]? = some a → (front ++ back)[j]? = some b → a ≤ b := by
      intro i j a b hij hi hj
      by_contra hab
      have hlt := (List.getElem?_eq_some_iff.mp hi).1
      have hle := h i j ⟨hij, a, b, by rw [List.getElem?_append_left hlt, hi], hj, not_le.mp hab⟩
      omega
    constructor
    · rw [List.pairwise_iff_getElem]
      intro i j hi hj hij
      exact key hij (List.getElem?_eq_getElem hi)
        (by rw [List.getElem?_append_left hj, List.getElem?_eq_getElem hj])
    · intro a ha b hb
      obtain ⟨i, hi⟩ := List.mem_iff_getElem?.mp ha
      obtain ⟨k, hk⟩ := List.mem_iff_getElem?.mp hb
      have hlt := (List.getElem?_eq_some_iff.mp hi).1
      refine key (show i < front.length + k by omega) hi ?_
      rw [List.getElem?_append_right (by omega), Nat.add_sub_cancel_left, hk]
  · rintro ⟨hfront, hcross⟩ i j ⟨hij, a, b, hi, hj, hba⟩
    by_contra hlt
    rw [List.getElem?_append_left (by omega)] at hi
    refine absurd hba (not_lt.mpr ?_)
    by_cases hjf : j < front.length
    · rw [List.getElem?_append_left hjf] at hj
      obtain ⟨hil, rfl⟩ := List.getElem?_eq_some_iff.mp hi
      obtain ⟨hjl, rfl⟩ := List.getElem?_eq_some_iff.mp hj
      exact List.pairwise_iff_getElem.mp hfront i j hil hjl hij
    · rw [List.getElem?_append_right (by omega)] at hj
      exact hcross a (List.mem_of_getElem? hi) b (List.mem_of_getElem? hj)

/-- No inversion ends in the back part. -/
theorem forall_lt_length_iff (front back : List α) :
    (∀ i j, Inverted (front ++ back) i j → j < front.length) ↔
      back.Pairwise (· ≤ ·) ∧ ∀ a ∈ front, ∀ b ∈ back, a ≤ b := by
  constructor
  · intro h
    have key : ∀ {i k : ℕ} {a b : α}, i < front.length + k → (front ++ back)[i]? = some a →
        back[k]? = some b → a ≤ b := by
      intro i k a b hik hi hk
      by_contra hab
      have hlt := h i (front.length + k) ⟨hik, a, b, hi,
        by rw [List.getElem?_append_right (by omega), Nat.add_sub_cancel_left, hk], not_le.mp hab⟩
      omega
    constructor
    · rw [List.pairwise_iff_getElem]
      intro i j hi hj hij
      refine key (show front.length + i < front.length + j by omega) ?_ (List.getElem?_eq_getElem hj)
      rw [List.getElem?_append_right (by omega), Nat.add_sub_cancel_left, List.getElem?_eq_getElem hi]
    · intro a ha b hb
      obtain ⟨i, hi⟩ := List.mem_iff_getElem?.mp ha
      obtain ⟨k, hk⟩ := List.mem_iff_getElem?.mp hb
      have hlt := (List.getElem?_eq_some_iff.mp hi).1
      exact key (show i < front.length + k by omega) (by rw [List.getElem?_append_left hlt, hi]) hk
  · rintro ⟨hback, hcross⟩ i j ⟨hij, a, b, hi, hj, hba⟩
    by_contra hlt
    rw [List.getElem?_append_right (by omega)] at hj
    refine absurd hba (not_lt.mpr ?_)
    by_cases hif : i < front.length
    · rw [List.getElem?_append_left hif] at hi
      exact hcross a (List.mem_of_getElem? hi) b (List.mem_of_getElem? hj)
    · rw [List.getElem?_append_right (by omega)] at hi
      obtain ⟨hil, rfl⟩ := List.getElem?_eq_some_iff.mp hi
      obtain ⟨hjl, rfl⟩ := List.getElem?_eq_some_iff.mp hj
      exact List.pairwise_iff_getElem.mp hback _ _ hil hjl (by omega)

/-- Against the greatest value in front of it a position shows whether it is late. -/
theorem late_iff {a b : α} (hi : xs[i]? = some a) (hb : b ∈ xs.take i) (hle : ∀ x ∈ xs.take i, x ≤ b) :
    Late xs i ↔ a < b := by
  constructor
  · rintro ⟨k, hki, c, d, hk, hi', hdc⟩
    obtain rfl : a = d := Option.some.inj (hi.symm.trans hi')
    refine hdc.trans_le (hle c (List.mem_of_getElem? (i := k) ?_))
    rw [List.getElem?_take_of_lt hki, hk]
  · intro hab
    obtain ⟨k, hk⟩ := List.mem_iff_getElem?.mp hb
    have hlt := (List.getElem?_eq_some_iff.mp hk).1
    rw [List.length_take] at hlt
    have hki : k < i := by omega
    rw [List.getElem?_take_of_lt hki] at hk
    exact ⟨k, hki, b, a, hk, hi, hab⟩

/-- Against the least value behind it a position shows whether it is early. -/
theorem early_iff {a b : α} (hi : xs[i]? = some a) (hb : b ∈ xs.drop (i + 1))
    (hle : ∀ x ∈ xs.drop (i + 1), b ≤ x) :
    Early xs i ↔ b < a := by
  constructor
  · rintro ⟨k, hik, c, d, hi', hk, hdc⟩
    obtain rfl : a = c := Option.some.inj (hi.symm.trans hi')
    refine lt_of_le_of_lt (hle d (List.mem_of_getElem? (i := k - (i + 1)) ?_)) hdc
    rw [List.getElem?_drop, Nat.add_sub_cancel' hik, hk]
  · intro hba
    obtain ⟨k, hk⟩ := List.mem_iff_getElem?.mp hb
    rw [List.getElem?_drop] at hk
    exact ⟨i + 1 + k, by omega, a, b, hi, hk, hba⟩

theorem pairwise_iff_not_inverted : xs.Pairwise (· ≤ ·) ↔ ∀ i j, ¬ Inverted xs i j := by
  have h := forall_length_le_iff xs []
  rw [List.append_nil] at h
  constructor
  · intro hxs i j hij
    have hle := h.mpr ⟨hxs, by simp⟩ i j hij
    have := hij.lt_length
    have := hij.1
    omega
  · intro hno
    exact (h.mp fun i j hij => absurd hij (hno i j)).1

/-! ## Sorting a window -/

/-- The list with the positions `m` to `n` sorted. -/
def sortWindow (xs : List α) (m n : ℕ) : List α :=
  xs.take m ++ (((xs.take (n + 1)).drop m).mergeSort (· ≤ ·) ++ xs.drop (n + 1))

/-- Sorting the middle part sorts the whole list when every inversion lies in that part. -/
theorem pairwise_sortMiddle_iff (front middle back : List α) :
    (front ++ (middle.mergeSort (· ≤ ·) ++ back)).Pairwise (· ≤ ·) ↔
      ∀ i j, Inverted (front ++ (middle ++ back)) i j →
        front.length ≤ i ∧ j < front.length + middle.length := by
  have hlow := forall_length_le_iff front (middle ++ back)
  have hhigh := forall_lt_length_iff (front ++ middle) back
  rw [List.append_assoc, List.length_append] at hhigh
  have hsort : (middle.mergeSort (· ≤ ·)).Pairwise (· ≤ ·) := List.pairwise_mergeSort' _ middle
  have hsplit :
      (∀ i j, Inverted (front ++ (middle ++ back)) i j →
        front.length ≤ i ∧ j < front.length + middle.length) ↔
      (∀ i j, Inverted (front ++ (middle ++ back)) i j → front.length ≤ i) ∧
        ∀ i j, Inverted (front ++ (middle ++ back)) i j → j < front.length + middle.length := by
    constructor
    · intro h
      exact ⟨fun i j hij => (h i j hij).1, fun i j hij => (h i j hij).2⟩
    · intro h i j hij
      exact ⟨h.1 i j hij, h.2 i j hij⟩
  rw [hsplit, hlow, hhigh]
  simp only [List.pairwise_append, List.mem_append, List.mem_mergeSort]
  constructor
  · rintro ⟨hf, ⟨-, hb, hmb⟩, hfmb⟩
    refine ⟨⟨hf, hfmb⟩, hb, ?_⟩
    rintro a (ha | ha) b hb'
    · exact hfmb a ha b (Or.inr hb')
    · exact hmb a ha b hb'
  · rintro ⟨⟨hf, hfmb⟩, hb, hcross⟩
    exact ⟨hf, ⟨hsort, hb, fun a ha b hb' => hcross a (Or.inr ha) b hb'⟩, hfmb⟩

theorem pairwise_sortWindow_iff (hmn : m ≤ n) (hn : n < xs.length) :
    (sortWindow xs m n).Pairwise (· ≤ ·) ↔ ∀ i j, Inverted xs i j → m ≤ i ∧ j ≤ n := by
  have hxs : xs.take m ++ ((xs.take (n + 1)).drop m ++ xs.drop (n + 1)) = xs := by
    have htake : (xs.take (n + 1)).take m = xs.take m := by rw [List.take_take, Nat.min_eq_left (by omega)]
    rw [← List.append_assoc, ← htake, List.take_append_drop, List.take_append_drop]
  have h := pairwise_sortMiddle_iff (xs.take m) ((xs.take (n + 1)).drop m) (xs.drop (n + 1))
  rw [hxs, List.length_drop, List.length_take, List.length_take,
    Nat.min_eq_left (show m ≤ xs.length by omega),
    Nat.min_eq_left (show n + 1 ≤ xs.length by omega), Nat.add_sub_cancel' (show m ≤ n + 1 by omega)] at h
  rw [sortWindow, h]
  simp only [Nat.lt_succ_iff]

/-- From the first position of an inversion to the last one is the least window. -/
theorem least_window (hm : Early xs m) (hfirst : ∀ i, Early xs i → m ≤ i) (hn : Late xs n)
    (hlast : ∀ j, Late xs j → j ≤ n) :
    m < n ∧ n < xs.length ∧ (sortWindow xs m n).Pairwise (· ≤ ·) ∧
      ∀ m' n', m' ≤ n' → n' < xs.length → (sortWindow xs m' n').Pairwise (· ≤ ·) → m' ≤ m ∧ n ≤ n' := by
  obtain ⟨j, hj⟩ := hm
  obtain ⟨i, hi⟩ := hn
  have hmn : m < n := hj.1.trans_le (hlast j ⟨m, hj⟩)
  refine ⟨hmn, hi.lt_length, ?_, ?_⟩
  · rw [pairwise_sortWindow_iff hmn.le hi.lt_length]
    intro i' j' h
    exact ⟨hfirst i' ⟨j', h⟩, hlast j' ⟨i', h⟩⟩
  · intro m' n' hmn' hn' hsorted
    have h := (pairwise_sortWindow_iff hmn' hn').mp hsorted
    exact ⟨(h m j hj).1, (h i n hi).2⟩

end Inversions
