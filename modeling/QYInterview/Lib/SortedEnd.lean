import Mathlib.Tactic
import Mathlib.Data.List.Sort

/-!
# SortedEnd — a list that is in order from one end on

What a sort in place keeps that brings one element after another to its final place: `FrontSorted front
back` when it starts with the least one, `BackSorted front back` when it starts with the greatest one.  The
other part may be permuted in any way; its least, or greatest, element is the next one.
-/

namespace SortedEnd

universe u

variable {α : Type u} [LinearOrder α] {front front' back back' : List α} {m : α}

/-- The front is sorted and no element of the back is below one of it. -/
structure FrontSorted (front back : List α) : Prop where
  sorted : front.Pairwise (· ≤ ·)
  le : ∀ x ∈ front, ∀ y ∈ back, x ≤ y

/-- The back is sorted and no element of the front is above one of it. -/
structure BackSorted (front back : List α) : Prop where
  sorted : back.Pairwise (· ≤ ·)
  le : ∀ x ∈ front, ∀ y ∈ back, x ≤ y

theorem frontSorted_nil (back : List α) : FrontSorted [] back := ⟨List.Pairwise.nil, by simp⟩

theorem backSorted_nil (front : List α) : BackSorted front [] := ⟨List.Pairwise.nil, by simp⟩

/-- The least element of the back is the next one of the front. -/
theorem FrontSorted.concat (h : FrontSorted front back) (hp : (m :: back').Perm back)
    (hm : ∀ y ∈ back', m ≤ y) :
    FrontSorted (front ++ [m]) back' := by
  have hmem : m ∈ back := hp.subset List.mem_cons_self
  refine ⟨List.pairwise_append.mpr ⟨h.sorted, List.pairwise_singleton _ m, ?_⟩, ?_⟩
  · intro x hx y hy
    rw [List.mem_singleton.mp hy]
    exact h.le x hx m hmem
  · refine List.forall_mem_append.mpr ⟨?_, List.forall_mem_singleton.mpr hm⟩
    intro x hx y hy
    exact h.le x hx y (hp.subset (List.mem_cons_of_mem m hy))

/-- The greatest element of the front is the one before the back. -/
theorem BackSorted.cons (h : BackSorted front back) (hp : (front' ++ [m]).Perm front)
    (hm : ∀ x ∈ front', x ≤ m) :
    BackSorted front' (m :: back) := by
  have hmem : m ∈ front := hp.subset (List.mem_append_right front' (List.mem_singleton_self m))
  refine ⟨List.pairwise_cons.mpr ⟨h.le m hmem, h.sorted⟩, ?_⟩
  intro x hx
  refine List.forall_mem_cons.mpr ⟨hm x hx, ?_⟩
  exact h.le x (hp.subset (List.mem_append_left [m] hx))

/-- Nothing is left to do when the other part is in order by itself. -/
theorem BackSorted.pairwise (h : BackSorted front back) (hf : front.Pairwise (· ≤ ·)) :
    (front ++ back).Pairwise (· ≤ ·) := List.pairwise_append.mpr ⟨hf, h.sorted, h.le⟩

end SortedEnd
