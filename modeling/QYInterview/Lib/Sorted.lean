import Mathlib.Tactic
import Mathlib.Data.List.DropRight
import Mathlib.Data.List.Sort

/-!
# Sorted — positions in a list

Values, parts and positions of sorted lists, the place of an element in one, and sublists as values at
increasing positions.
-/

namespace Sorted

universe u

/-- In a sorted list an earlier position holds a value that is not greater. -/
theorem le_of_sorted {α : Type u} [LinearOrder α] {xs : List α} (hs : xs.Pairwise (· ≤ ·)) {i j : ℕ}
    {a b : α} (hij : i ≤ j) (hi : xs[i]? = some a) (hj : xs[j]? = some b) : a ≤ b := by
  obtain ⟨hil, rfl⟩ := List.getElem?_eq_some_iff.mp hi
  obtain ⟨hjl, rfl⟩ := List.getElem?_eq_some_iff.mp hj
  rcases Nat.lt_or_eq_of_le hij with hlt | rfl
  · exact List.pairwise_iff_getElem.mp hs i j hil hjl hlt
  · exact le_rfl

/-- In a sorted list all that lies between two equal values is equal to them. -/
theorem eq_between {α : Type u} [LinearOrder α] {xs : List α} (hs : xs.Pairwise (· ≤ ·)) {i m j : ℕ}
    (him : i ≤ m) (hmj : m ≤ j) (h : xs[i]? = xs[j]?) : xs[m]? = xs[j]? := by
  cases hj : xs[j]? with
  | none =>
    rw [hj, List.getElem?_eq_none_iff] at h
    exact List.getElem?_eq_none (h.trans him)
  | some a =>
    have hm := List.getElem?_eq_getElem (hmj.trans_lt (List.getElem?_eq_some_iff.mp hj).1)
    rw [hm, le_antisymm (le_of_sorted hs hmj hm hj) (le_of_sorted hs him (h.trans hj) hm)]

/-- A scan from the right ends at an element without the property. -/
theorem not_of_rdropWhile_eq {α : Type u} {p : α → Bool} {xs front : List α} {y : α}
    (h : xs.rdropWhile p = front ++ [y]) : ¬p y := by
  have hlast := List.rdropWhile_last_not p xs (by rw [h]; exact List.concat_ne_nil y front)
  simpa only [h, List.getLast_append_singleton] using hlast

section Parts

variable {α : Type u} [LinearOrder α] {low high front : List α} {x y pivot : α}

/-- Sorted parts on both sides of an element. -/
theorem pairwise_append_pivot (hl : low.Pairwise (· ≤ ·)) (hh : high.Pairwise (· ≤ ·))
    (hlow : ∀ x ∈ low, x ≤ pivot) (hhigh : ∀ x ∈ high, pivot ≤ x) :
    (low ++ pivot :: high).Pairwise (· ≤ ·) := by
  refine List.pairwise_append.mpr ⟨hl, List.pairwise_cons.mpr ⟨hhigh, hh⟩, ?_⟩
  intro x hx y hy
  rcases List.mem_cons.mp hy with rfl | hy
  · exact hlow x hx
  · exact (hlow x hx).trans (hhigh y hy)

theorem pairwise_of_length_le_one (h : low.length ≤ 1) : low.Pairwise (· ≤ ·) := by
  match low, h with
  | [], _ => exact List.Pairwise.nil
  | [x], _ => exact List.pairwise_singleton _ x

/-- The last element of a sorted list is the greatest. -/
theorem le_last (h : (front ++ [y]).Pairwise (· ≤ ·)) (hx : x ∈ front ++ [y]) : x ≤ y := by
  rcases List.mem_append.mp hx with hx | hx
  · exact (List.pairwise_append.mp h).2.2 x hx y (List.mem_singleton_self y)
  · exact (List.mem_singleton.mp hx).le

theorem lt_of_mem_rtakeWhile {xs : List α} (hy : y ∈ xs.rtakeWhile (x < ·)) : x < y := by
  simpa using List.mem_rtakeWhile_imp hy

theorem le_of_rdropWhile_eq {xs : List α} (h : xs.rdropWhile (x < ·) = front ++ [y]) : y ≤ x := by
  simpa using not_of_rdropWhile_eq h

/-- An element put in front of the greater ones at the end of a list. -/
theorem perm_insert (x : α) (xs : List α) :
    (xs.rdropWhile (x < ·) ++ x :: xs.rtakeWhile (x < ·)).Perm (xs ++ [x]) := by
  refine List.perm_middle.trans ?_
  rw [List.rdropWhile_append_rtakeWhile]
  exact (List.perm_append_singleton x xs).symm

/-- In a sorted list this is its place. -/
theorem pairwise_insert {xs : List α} (x : α) (hs : xs.Pairwise (· ≤ ·)) :
    (xs.rdropWhile (x < ·) ++ x :: xs.rtakeWhile (x < ·)).Pairwise (· ≤ ·) := by
  have hsplit : xs.rdropWhile (x < ·) ++ xs.rtakeWhile (x < ·) = xs := List.rdropWhile_append_rtakeWhile
  obtain ⟨hstay, hpassed, -⟩ := List.pairwise_append.mp (hsplit.symm ▸ hs)
  refine pairwise_append_pivot hstay hpassed (fun y hy => ?_) fun y hy => ?_
  · obtain ⟨front, z, hz⟩ :=
      (List.eq_nil_or_concat' (xs.rdropWhile (x < ·))).resolve_left (List.ne_nil_of_mem hy)
    rw [hz] at hstay hy
    exact (le_last hstay hy).trans (le_of_rdropWhile_eq hz)
  · exact (lt_of_mem_rtakeWhile hy).le

end Parts

section Positions

variable {α : Type u} {xs l : List α} {x y z : α}

/-- A sublist takes its head at some position and the rest behind it. -/
theorem cons_sublist_iff : (x :: l).Sublist xs ↔ ∃ i, xs[i]? = some x ∧ l.Sublist (xs.drop (i + 1)) := by
  induction xs with
  | nil => simp
  | cons a xs ih =>
    constructor
    · intro h
      cases h with
      | cons _ h =>
        obtain ⟨i, hi, hl⟩ := ih.mp h
        exact ⟨i + 1, hi, hl⟩
      | cons_cons _ h => exact ⟨0, rfl, h⟩
    · rintro ⟨i, hi, hl⟩
      cases i with
      | zero =>
        obtain rfl : a = x := Option.some.inj hi
        exact hl.cons_cons a
      | succ i => exact (ih.mpr ⟨i, hi, hl⟩).cons a

theorem pair_sublist_iff : [x, y].Sublist xs ↔ ∃ i j : ℕ, i < j ∧ xs[i]? = some x ∧ xs[j]? = some y := by
  rw [cons_sublist_iff]
  constructor
  · rintro ⟨i, hi, h⟩
    obtain ⟨j, hj, -⟩ := cons_sublist_iff.mp h
    rw [List.getElem?_drop] at hj
    exact ⟨i, i + 1 + j, by omega, hi, hj⟩
  · rintro ⟨i, j, hij, hi, hj⟩
    refine ⟨i, hi, cons_sublist_iff.mpr ⟨j - (i + 1), ?_, List.nil_sublist _⟩⟩
    rw [List.getElem?_drop, show i + 1 + (j - (i + 1)) = j by omega, hj]

theorem triple_sublist_iff : [x, y, z].Sublist xs ↔
    ∃ i j k : ℕ, i < j ∧ j < k ∧ xs[i]? = some x ∧ xs[j]? = some y ∧ xs[k]? = some z := by
  rw [cons_sublist_iff]
  constructor
  · rintro ⟨i, hi, h⟩
    obtain ⟨j, k, hjk, hj, hk⟩ := pair_sublist_iff.mp h
    rw [List.getElem?_drop] at hj hk
    exact ⟨i, i + 1 + j, i + 1 + k, by omega, by omega, hi, hj, hk⟩
  · rintro ⟨i, j, k, hij, hjk, hi, hj, hk⟩
    refine ⟨i, hi, pair_sublist_iff.mpr ⟨j - (i + 1), k - (i + 1), by omega, ?_, ?_⟩⟩
    · rw [List.getElem?_drop, show i + 1 + (j - (i + 1)) = j by omega, hj]
    · rw [List.getElem?_drop, show i + 1 + (k - (i + 1)) = k by omega, hk]

theorem quadruple_sublist_iff {w : α} : [w, x, y, z].Sublist xs ↔
    ∃ i j k m : ℕ, i < j ∧ j < k ∧ k < m ∧ xs[i]? = some w ∧ xs[j]? = some x ∧ xs[k]? = some y ∧
      xs[m]? = some z := by
  rw [cons_sublist_iff]
  constructor
  · rintro ⟨i, hi, h⟩
    obtain ⟨j, k, m, hjk, hkm, hj, hk, hm⟩ := triple_sublist_iff.mp h
    rw [List.getElem?_drop] at hj hk hm
    exact ⟨i, i + 1 + j, i + 1 + k, i + 1 + m, by omega, by omega, by omega, hi, hj, hk, hm⟩
  · rintro ⟨i, j, k, m, hij, hjk, hkm, hi, hj, hk, hm⟩
    refine ⟨i, hi, triple_sublist_iff.mpr
      ⟨j - (i + 1), k - (i + 1), m - (i + 1), by omega, by omega, ?_, ?_, ?_⟩⟩
    · rw [List.getElem?_drop, show i + 1 + (j - (i + 1)) = j by omega, hj]
    · rw [List.getElem?_drop, show i + 1 + (k - (i + 1)) = k by omega, hk]
    · rw [List.getElem?_drop, show i + 1 + (m - (i + 1)) = m by omega, hm]

end Positions

end Sorted
