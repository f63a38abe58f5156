import QYInterview.Lib.Sorted
import QYInterview.Lib.SortedEnd
import QYInterview.Swift

/-!
# SelectSort — the least element to the front (`SelectSortController.swift`)

The least element so far of the inner loop is in the variable `min`, not in the array: slot `i` keeps a
stale copy until the loop is over, and with `min` in its place the array is a permutation of the input.
-/

namespace QYInterview.SelectSort

open RunLogic Swift SortedEnd

/-! ## The code -/

/-- `if min > sortArray[j]`, over `sortArray`, `min`. -/
def exchangeBody : List ℤ × ℤ → ℤ → Prog (List ℤ × ℤ)
  | (sortArray, min), j => do
    if min > (← get sortArray j) then
      let temp ← get sortArray j
      let sortArray ← set sortArray j min
      return (sortArray, temp)
    else return (sortArray, min)

/-- A turn of the outer loop, with the inner one up to `count`. -/
def selectBody (count : ℤ) (sortArray : List ℤ) (i : ℤ) : Prog (List ℤ) := do
  let min ← get sortArray i
  let (sortArray, min) ← forRange (i + 1) count exchangeBody (sortArray, min)
  set sortArray i min

/-- The array in the end; the inner loop goes up to `array.count`. -/
def selectSort (array : List ℤ) : Prog (List ℤ) :=
  if array.length < 1 then pure array
  else forRange 0 array.length (selectBody array.length) array

/-- The array in the end; the inner loop goes up to `sortArray.count`. -/
def selectSort1 (array : List ℤ) : Prog (List ℤ) :=
  if array.length < 1 then pure array
  else forRange 0 array.length (fun sortArray index => selectBody sortArray.length sortArray index) array

/-! ## A turn -/

section Select

variable {front back array sortArray : List ℤ} {i j : ℕ} {min : ℤ}

/-- Before turn `j` of the inner loop: with `min` for the stale `x` the elements are those of the back, and
`min` is the least one up to position `j`. -/
def Selected (front back : List ℤ) (j : ℕ) : List ℤ × ℤ → Prop
  | (sortArray, min) => ∃ x seen rest, sortArray = front ++ x :: (seen ++ rest) ∧
      j = front.length + 1 + seen.length ∧ (min :: (seen ++ rest)).Perm back ∧ ∀ y ∈ seen, min ≤ y

theorem Selected.step (h : Selected front back j (sortArray, min)) (hj : j < sortArray.length) :
    ∃ s, exchangeBody (sortArray, min) j = pure s ∧ Selected front back (j + 1) s := by
  obtain ⟨x, seen, rest, rfl, rfl, hperm, hmin⟩ := h
  rw [List.length_append, List.length_cons, List.length_append] at hj
  obtain ⟨y, rest, rfl⟩ := List.exists_cons_of_length_pos (show 0 < rest.length by omega)
  have hsplit : ∀ z, front ++ x :: (seen ++ z :: rest) = (front ++ x :: seen) ++ z :: rest := fun z => by
    rw [List.append_assoc, List.cons_append]
  have hidx : ((front.length + 1 + seen.length : ℕ) : ℤ) = (front ++ x :: seen).length := by
    rw [List.length_append, List.length_cons]
    omega
  have hget : get (front ++ x :: (seen ++ y :: rest)) (front.length + 1 + seen.length : ℕ) = pure y := by
    rw [hsplit]
    exact get_append hidx y rest
  by_cases hlt : min > y
  · refine ⟨(front ++ x :: (seen ++ min :: rest), y), ?_, x, seen ++ [min], rest, ?_, ?_, ?_, ?_⟩
    · simp only [exchangeBody, hget, pure_bind, if_pos hlt]
      rw [hsplit, set_append hidx, ← hsplit, pure_bind]
    · rw [← List.append_cons]
    · rw [List.length_append, List.length_singleton, Nat.add_assoc]
    · rw [← List.append_cons]
      -- `min` and the element at `j` have changed places
      have hfirst : (y :: (seen ++ min :: rest)).Perm (y :: min :: (seen ++ rest)) := List.perm_middle.cons y
      have hsecond : (min :: (seen ++ y :: rest)).Perm (min :: y :: (seen ++ rest)) :=
        List.perm_middle.cons min
      exact hfirst.trans ((List.Perm.swap min y _).trans (hsecond.symm.trans hperm))
    · exact List.forall_mem_append.mpr ⟨fun z hz => (le_of_lt hlt).trans (hmin z hz),
        List.forall_mem_singleton.mpr (le_of_lt hlt)⟩
  · refine ⟨(front ++ x :: (seen ++ y :: rest), min), ?_, x, seen ++ [y], rest, ?_, ?_, ?_, ?_⟩
    · simp only [exchangeBody, hget, pure_bind, if_neg hlt]
    · rw [← List.append_cons]
    · rw [List.length_append, List.length_singleton, Nat.add_assoc]
    · rwa [← List.append_cons]
    · exact List.forall_mem_append.mpr ⟨hmin, List.forall_mem_singleton.mpr (not_lt.mp hlt)⟩

/-- After `i` turns of the outer loop. -/
structure Placed (array : List ℤ) (i : ℕ) (sortArray front back : List ℤ) : Prop where
  split : sortArray = front ++ back
  perm : sortArray.Perm array
  length : front.length = i
  frontSorted : FrontSorted front back

theorem placed_start (array : List ℤ) : Placed array 0 array [] array :=
  ⟨rfl, List.Perm.refl _, rfl, frontSorted_nil array⟩

theorem Placed.halts_selectBody (h : Placed array i sortArray front back) (hi : i < array.length) :
    Halts (selectBody array.length sortArray i) fun sortArray' =>
      ∃ front' back', Placed array (i + 1) sortArray' front' back' := by
  obtain ⟨rfl, hperm, rfl, hsorted⟩ := h
  have hcount := hperm.length_eq
  rw [List.length_append] at hcount
  obtain ⟨x, rest, rfl⟩ := List.exists_cons_of_length_pos (show 0 < back.length by omega)
  have hloop : Halts (forRange (front.length + 1 : ℕ) array.length exchangeBody (front ++ x :: rest, x))
      (fun s => Selected front (x :: rest) array.length s ∧ s.1.length = array.length) := by
    refine halts_forRange (by omega)
      (fun j s => Selected front (x :: rest) j s ∧ s.1.length = array.length) ?_
      ⟨⟨x, [], rest, rfl, rfl, List.Perm.refl _, by simp⟩, hperm.length_eq⟩
    rintro j ⟨sortArray, min⟩ _ hj ⟨hI, hsame⟩
    obtain ⟨s', hbody, hI'⟩ := hI.step (hsame ▸ hj)
    rw [hbody]
    refine halts_pure ⟨hI', ?_⟩
    obtain ⟨_, _, _, heq, -, hp, -⟩ := hI'
    have hlen := hp.length_eq
    rw [heq, ← hperm.length_eq]
    simp only [List.length_append, List.length_cons] at hlen ⊢
    omega
  rw [selectBody, get_append rfl, pure_bind,
    show (front.length : ℤ) + 1 = ((front.length + 1 : ℕ) : ℤ) from rfl]
  refine halts_bind (hloop.mono ?_)
  rintro ⟨sortArray, min⟩ ⟨⟨y, seen, rest', rfl, hj, hp, hmin⟩, hlen⟩
  have hlen' := hp.length_eq
  simp only [List.length_append, List.length_cons] at hlen hlen'
  obtain rfl : rest' = [] := List.eq_nil_of_length_eq_zero (by omega)
  rw [List.append_nil] at hp ⊢
  have hset : set (front ++ y :: seen) front.length min = pure (front ++ min :: seen) :=
    set_append rfl y min seen
  simp only [hset]
  refine halts_pure ⟨front ++ [min], seen, List.append_cons .., ?_, ?_, hsorted.concat hp hmin⟩
  · exact (hp.append_left front).trans hperm
  · rw [List.length_append, List.length_singleton]

end Select

/-! ## All turns -/

/-- A sort whose turns do what `selectBody` does. -/
theorem halts_select {array : List ℤ} {body : List ℤ → ℤ → Prog (List ℤ)}
    (hbody : ∀ sortArray i, sortArray.length = array.length →
      body sortArray i = selectBody array.length sortArray i) :
    Halts (forRange 0 array.length body array) fun r => r.Perm array ∧ r.Pairwise (· ≤ ·) := by
  have hloop := halts_forRange (Nat.zero_le array.length)
    (fun i sortArray => ∃ front back, Placed array i sortArray front back)
    (fun i sortArray _ hi ⟨front, back, hI⟩ =>
      (hbody sortArray i hI.perm.length_eq).symm ▸ hI.halts_selectBody hi)
    (s := array) ⟨[], array, placed_start array⟩
  refine hloop.mono fun r ⟨front, back, h⟩ => ⟨h.perm, ?_⟩
  have hlen := h.perm.length_eq
  rw [h.split, List.length_append, h.length] at hlen
  obtain rfl : back = [] := List.eq_nil_of_length_eq_zero (by omega)
  rw [h.split, List.append_nil]
  exact h.frontSorted.sorted

/-- Both versions end with a sorted permutation of the array. -/
theorem selectSort_spec (array : List ℤ) :
    (∃ r, Returns (selectSort array) r ∧ r.Perm array ∧ r.Pairwise (· ≤ ·)) ∧
      ∃ r, Returns (selectSort1 array) r ∧ r.Perm array ∧ r.Pairwise (· ≤ ·) := by
  unfold selectSort selectSort1
  by_cases hshort : array.length < 1
  · have hsame : Returns (pure array : Prog (List ℤ)) array := returns_pure array
    have hsorted : array.Pairwise (· ≤ ·) := Sorted.pairwise_of_length_le_one hshort.le
    rw [if_pos hshort, if_pos hshort]
    exact ⟨⟨array, hsame, List.Perm.refl _, hsorted⟩, array, hsame, List.Perm.refl _, hsorted⟩
  · rw [if_neg hshort, if_neg hshort]
    exact ⟨halts_select fun _ _ _ => rfl, halts_select fun _ _ hlen => by rw [hlen]⟩

end QYInterview.SelectSort
