import QYInterview.Lib.SortedEnd
import QYInterview.Swift

/-!
# BubbleSort — exchanges of neighbours (`BubbleSortController.swift`)

A pass takes the greatest element of the part in front of the sorted back to the end of this part.
`bubbleOptimizerSort` leaves the outer loop after a pass without an exchange: then that part is sorted too.
-/

namespace QYInterview.BubbleSort

open RunLogic Swift SortedEnd

/-! ## The code -/

/-- `let temp = perArray[j+1]`, and the two elements change places. -/
def swapNext (perArray : List ℤ) (j : ℤ) : Prog (List ℤ) := do
  let temp ← get perArray (j + 1)
  let perArray ← set perArray (j + 1) (← get perArray j)
  set perArray j temp

/-- The inner loop of `bubbleSort`. -/
def bubbleBody (perArray : List ℤ) (j : ℤ) : Prog (List ℤ) := do
  if (← get perArray j) > (← get perArray (j + 1)) then swapNext perArray j
  else return perArray

/-- The outer loop of `bubbleSort`. -/
def bubblePass (array perArray : List ℤ) (i : ℤ) : Prog (List ℤ) :=
  forRange 0 (array.length - 1 - i) bubbleBody perArray

/-- The array in the end. -/
def bubbleSort (array : List ℤ) : Prog (List ℤ) :=
  if array.isEmpty then pure array
  else forRange 0 array.length (bubblePass array) array

/-- The inner loop of `bubbleOptimizerSort`, over `perArray`, `flag`. -/
def optimizerBody : List ℤ × Bool → ℤ → Prog (List ℤ × Bool)
  | (perArray, flag), j => do
    if (← get perArray j) > (← get perArray (j + 1)) then
      return (← swapNext perArray j, true)
    else return (perArray, flag)

/-- The outer loop of `bubbleOptimizerSort`, with its `break`. -/
def optimizerPass (array perArray : List ℤ) (i : ℤ) : Prog (Turn (List ℤ) (List ℤ)) := do
  let (perArray, flag) ← forRange 0 (array.length - 1 - i) optimizerBody (perArray, false)
  if !flag then return .exit perArray else return .next perArray

/-- The array in the end. -/
def bubbleOptimizerSort (array : List ℤ) : Prog (List ℤ) :=
  if array.isEmpty then pure array
  else do
    match ← forRangeUntil 0 array.length (optimizerPass array) array with
    | .next perArray => return perArray
    | .exit perArray => return perArray

/-! ## A pass -/

section Pass

theorem get_next (P : List ℤ) (a q : ℤ) (rest : List ℤ) :
    get (P ++ a :: q :: rest) ((P.length : ℤ) + 1) = pure q := by
  rw [List.append_cons]
  exact get_append (cast_length_concat P a).symm q rest

theorem swapNext_append (P : List ℤ) (m q : ℤ) (rest : List ℤ) :
    swapNext (P ++ m :: q :: rest) P.length = pure (P ++ q :: m :: rest) := by
  have hset : set (P ++ m :: q :: rest) ((P.length : ℤ) + 1) m = pure (P ++ m :: m :: rest) := by
    rw [List.append_cons, set_append (cast_length_concat P m).symm, ← List.append_cons]
  rw [swapNext, get_next, pure_bind, get_append rfl, pure_bind, hset, pure_bind]
  exact set_append rfl m q _

variable {front back array perArray : List ℤ} {i j : ℕ} {flag : Bool}

/-- After `j` turns the greatest of the first `j + 1` elements is the last of them, and without an exchange
they were in order. -/
def Bubbled (front back : List ℤ) (j : ℕ) (perArray : List ℤ) (flag : Bool) : Prop :=
  ∃ P m Q, perArray = P ++ m :: (Q ++ back) ∧ P.length = j ∧ (P ++ m :: Q).Perm front ∧ (∀ x ∈ P, x ≤ m) ∧
    (flag = false → (P ++ [m]).Pairwise (· ≤ ·))

theorem bubbled_start (hne : front ≠ []) : Bubbled front back 0 (front ++ back) false := by
  obtain ⟨m, Q, rfl⟩ := List.exists_cons_of_ne_nil hne
  exact ⟨[], m, Q, rfl, rfl, List.Perm.refl _, by simp, fun _ => List.pairwise_singleton _ m⟩

/-- Both versions do the same turn. -/
theorem Bubbled.step (h : Bubbled front back j perArray flag) (hj : j + 1 < front.length) :
    ∃ perArray' flag', bubbleBody perArray j = pure perArray' ∧
      optimizerBody (perArray, flag) j = pure (perArray', flag') ∧
      Bubbled front back (j + 1) perArray' flag' := by
  obtain ⟨P, m, Q, rfl, rfl, hperm, hmax, hflag⟩ := h
  have hlen := hperm.length_eq
  rw [List.length_append, List.length_cons] at hlen
  obtain ⟨q, Q, rfl⟩ := List.exists_cons_of_length_pos (show 0 < Q.length by omega)
  have hm : get (P ++ m :: (q :: Q ++ back)) P.length = pure m := get_append rfl m _
  have hq : get (P ++ m :: (q :: Q ++ back)) ((P.length : ℤ) + 1) = pure q := get_next P m q (Q ++ back)
  have hswap : swapNext (P ++ m :: (q :: Q ++ back)) P.length = pure (P ++ q :: m :: (Q ++ back)) :=
    swapNext_append P m q (Q ++ back)
  by_cases hlt : m > q
  · refine ⟨P ++ q :: m :: (Q ++ back), true, ?_, ?_, P ++ [q], m, Q, List.append_cons .., ?_, ?_,
      ?_, by simp⟩
    · simp only [bubbleBody, hm, hq, pure_bind, if_pos hlt, hswap]
    · simp only [optimizerBody, hm, hq, pure_bind, if_pos hlt, hswap]
    · rw [List.length_append, List.length_singleton]
    · rw [← List.append_cons]
      exact ((List.Perm.swap m q Q).append_left P).trans hperm
    · exact List.forall_mem_append.mpr ⟨hmax, List.forall_mem_singleton.mpr (le_of_lt hlt)⟩
  · have hle : m ≤ q := not_lt.mp hlt
    have hbelow : ∀ x ∈ P ++ [m], x ≤ q :=
      List.forall_mem_append.mpr ⟨fun x hx => (hmax x hx).trans hle, List.forall_mem_singleton.mpr hle⟩
    refine ⟨P ++ m :: (q :: Q ++ back), flag, ?_, ?_, P ++ [m], q, Q, List.append_cons .., ?_, ?_, hbelow, ?_⟩
    · simp only [bubbleBody, hm, hq, pure_bind, if_neg hlt]
    · simp only [optimizerBody, hm, hq, pure_bind, if_neg hlt]
    · rw [List.length_append, List.length_singleton]
    · rwa [← List.append_cons]
    · intro hf
      exact List.pairwise_append.mpr ⟨hflag hf, List.pairwise_singleton _ q, fun x hx y hy =>
        List.mem_singleton.mp hy ▸ hbelow x hx⟩

/-- After `i` passes. -/
structure Passed (array : List ℤ) (i : ℕ) (front back : List ℤ) : Prop where
  perm : (front ++ back).Perm array
  length : back.length = i
  backSorted : BackSorted front back

theorem Passed.length_front (h : Passed array i front back) (hi : i < array.length) :
    ((array.length : ℤ) - 1 - i) = ((front.length - 1 : ℕ) : ℤ) ∧ front ≠ [] := by
  have hlen := h.perm.length_eq
  have hback := h.length
  rw [List.length_append] at hlen
  exact ⟨by omega, List.ne_nil_of_length_pos (by omega)⟩

/-- A whole pass; without an exchange the array is sorted. -/
theorem Passed.bubbled (h : Passed array i front back) (hne : front ≠ [])
    (hb : Bubbled front back (front.length - 1) perArray flag) :
    (∃ front' back', perArray = front' ++ back' ∧ Passed array (i + 1) front' back') ∧
      (flag = false → perArray.Pairwise (· ≤ ·)) := by
  obtain ⟨P, m, Q, rfl, hP, hperm, hmax, hflag⟩ := hb
  have hpos := List.length_pos_iff.mpr hne
  have hlen := hperm.length_eq
  rw [List.length_append, List.length_cons] at hlen
  obtain rfl : Q = [] := List.eq_nil_of_length_eq_zero (by omega)
  have hback : BackSorted P (m :: back) := h.backSorted.cons hperm hmax
  refine ⟨⟨P, m :: back, rfl, ?_, ?_, hback⟩, ?_⟩
  · rw [List.append_cons]
    exact (hperm.append_right back).trans h.perm
  · rw [List.length_cons, h.length]
  · intro hf
    exact hback.pairwise (List.pairwise_append.mp (hflag hf)).1

theorem Passed.halts_bubblePass (h : Passed array i front back) (hi : i < array.length) :
    Halts (bubblePass array (front ++ back) i) fun perArray =>
      ∃ front' back', perArray = front' ++ back' ∧ Passed array (i + 1) front' back' := by
  obtain ⟨hcount, hne⟩ := h.length_front hi
  have hloop : Halts (forRange (0 : ℕ) (front.length - 1 : ℕ) bubbleBody (front ++ back)) fun perArray =>
      ∃ flag, Bubbled front back (front.length - 1) perArray flag := by
    refine halts_forRange (Nat.zero_le _) (fun j perArray => ∃ flag, Bubbled front back j perArray flag) ?_
      ⟨false, bubbled_start hne⟩
    rintro j perArray _ hj ⟨flag, hI⟩
    obtain ⟨perArray', flag', hbody, -, hI'⟩ := hI.step (show j + 1 < front.length by omega)
    rw [hbody]
    exact halts_pure ⟨flag', hI'⟩
  rw [bubblePass, hcount]
  exact hloop.mono fun perArray ⟨flag, hb⟩ => (h.bubbled hne hb).1

theorem Passed.halts_optimizerPass (h : Passed array i front back) (hi : i < array.length) :
    Halts (optimizerPass array (front ++ back) i) (Turn.Good
      (fun perArray => ∃ front' back', perArray = front' ++ back' ∧ Passed array (i + 1) front' back')
      fun perArray => perArray.Perm array ∧ perArray.Pairwise (· ≤ ·)) := by
  obtain ⟨hcount, hne⟩ := h.length_front hi
  have hloop : Halts (forRange (0 : ℕ) (front.length - 1 : ℕ) optimizerBody (front ++ back, false))
    fun s : List ℤ × Bool =>
      Bubbled front back (front.length - 1) s.1 s.2 := by
    refine halts_forRange (Nat.zero_le _) (fun j (s : List ℤ × Bool) => Bubbled front back j s.1 s.2) ?_
      (bubbled_start hne)
    intro j s _ hj hI
    obtain ⟨perArray', flag', -, hbody, hI'⟩ := hI.step (show j + 1 < front.length by omega)
    rw [hbody]
    exact halts_pure hI'
  rw [optimizerPass, hcount]
  refine halts_bind (hloop.mono ?_)
  rintro ⟨perArray, flag⟩ hb
  obtain ⟨⟨front', back', rfl, hpassed⟩, hsorted⟩ := h.bubbled hne hb
  cases flag with
  | false => exact halts_pure ⟨hpassed.perm, hsorted rfl⟩
  | true => exact halts_pure ⟨front', back', rfl, hpassed⟩

end Pass

/-! ## All passes -/

section Whole

variable {array : List ℤ}

theorem passed_start (array : List ℤ) : Passed array 0 array [] :=
  ⟨by rw [List.append_nil], rfl, backSorted_nil array⟩

theorem Passed.sorted {front back : List ℤ} (h : Passed array array.length front back) :
    (front ++ back).Pairwise (· ≤ ·) := by
  have hlen := h.perm.length_eq
  rw [List.length_append, h.length] at hlen
  obtain rfl : front = [] := List.eq_nil_of_length_eq_zero (by omega)
  exact h.backSorted.sorted

theorem halts_bubbleSort (array : List ℤ) :
    Halts (bubbleSort array) fun r => r.Perm array ∧ r.Pairwise (· ≤ ·) := by
  unfold bubbleSort
  by_cases hempty : array.isEmpty
  · rw [if_pos hempty]
    obtain rfl := List.isEmpty_iff.mp hempty
    exact halts_pure ⟨List.Perm.refl _, List.Pairwise.nil⟩
  · rw [if_neg hempty]
    have hloop := halts_forRange (Nat.zero_le array.length)
      (fun i perArray => ∃ front back, perArray = front ++ back ∧ Passed array i front back)
      (fun i perArray _ hi ⟨front, back, heq, hI⟩ => heq ▸ hI.halts_bubblePass hi)
      (s := array) ⟨array, [], (List.append_nil array).symm, passed_start array⟩
    exact hloop.mono fun r ⟨front, back, heq, h⟩ => heq ▸ ⟨h.perm, h.sorted⟩

theorem halts_bubbleOptimizerSort (array : List ℤ) :
    Halts (bubbleOptimizerSort array) fun r => r.Perm array ∧ r.Pairwise (· ≤ ·) := by
  unfold bubbleOptimizerSort
  by_cases hempty : array.isEmpty
  · rw [if_pos hempty]
    obtain rfl := List.isEmpty_iff.mp hempty
    exact halts_pure ⟨List.Perm.refl _, List.Pairwise.nil⟩
  · rw [if_neg hempty]
    have hloop := halts_forRangeUntil (Nat.zero_le array.length)
      (fun i perArray => ∃ front back, perArray = front ++ back ∧ Passed array i front back) _
      (fun i perArray _ hi ⟨front, back, heq, hI⟩ => heq ▸ hI.halts_optimizerPass hi)
      (s := array) ⟨array, [], (List.append_nil array).symm, passed_start array⟩
    refine halts_bind (hloop.mono ?_)
    intro t ht
    cases t with
    | next perArray =>
      obtain ⟨front, back, rfl, h⟩ := ht
      exact halts_pure ⟨h.perm, h.sorted⟩
    | exit perArray => exact halts_pure ht

end Whole

/-- Both versions end with the sorted array. -/
theorem bubbleSort_spec (array : List ℤ) : ∃ array', Returns (bubbleSort array) array' ∧
    Returns (bubbleOptimizerSort array) array' ∧ array'.Perm array ∧ array'.Pairwise (· ≤ ·) := by
  obtain ⟨array', hret, hperm, hsorted⟩ := halts_bubbleSort array
  obtain ⟨array'', hret', hperm', hsorted'⟩ := halts_bubbleOptimizerSort array
  obtain rfl := (hperm.trans hperm'.symm).eq_of_pairwise' hsorted hsorted'
  exact ⟨array', hret, hret', hperm, hsorted⟩

end QYInterview.BubbleSort
