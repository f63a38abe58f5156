import QYInterview.Lib.Sorted
import QYInterview.Swift

/-!
# InsertSort — an element sinks to its place (`InsertSortController.swift`)

The inner loop exchanges the element with the one in front of it as long as that one is greater.  While it
sinks, the array in front of position `i` is in order but for it.
-/

namespace QYInterview.InsertSort

open RunLogic Swift Sorted

/-! ## The code -/

/-- `while j > 0 && array[j] < array[j - 1]`, over `array`, `j`. -/
def sinkTurn : List ℤ × ℤ → Prog (Turn (List ℤ × ℤ) (List ℤ × ℤ))
  | (array, j) =>
    if j > 0 then do
      if (← get array j) < (← get array (j - 1)) then
        let temp ← get array j
        let array ← set array j (← get array (j - 1))
        let array ← set array (j - 1) temp
        return .next (array, j - 1)
      else return .exit (array, j)
    else return .exit (array, j)

/-- `for i in 1..<array.count` -/
def insertBody (array : List ℤ) (i : ℤ) : Prog (List ℤ) := do
  let (array, _) ← loop sinkTurn (array, i)
  return array

def insertSort (array : List ℤ) : Prog (List ℤ) :=
  if array.length < 1 then pure array
  else forRange 1 array.length insertBody array

/-! ## The inner loop -/

section Sink

/-- `x` passes the greater elements in front of it, and stops at the front of the array or behind the first
one that is not greater. -/
theorem loopReturns_sink (x : ℤ) (P : List ℤ) :
    ∀ Q : List ℤ, LoopReturns sinkTurn (P ++ x :: Q, (P.length : ℤ))
    (P.rdropWhile (x < ·) ++ x :: (P.rtakeWhile (x < ·) ++ Q), ((P.rdropWhile (x < ·)).length : ℤ)) := by
  induction P using List.reverseRecOn with
  | nil =>
    intro Q
    refine loopReturns_exit ?_
    rw [sinkTurn, if_neg (by simp)]
    exact returns_pure _
  | append_singleton P y ih =>
    intro Q
    have hpos : ((P ++ [y]).length : ℤ) > 0 := by simp
    have hbefore : ((P ++ [y]).length : ℤ) - 1 = P.length := by
      rw [cast_length_concat]
      omega
    have hx : get (P ++ [y] ++ x :: Q) (P ++ [y]).length = pure x := get_append rfl x Q
    have hy : ∀ c, get (P ++ [y] ++ c :: Q) P.length = pure y := fun c => get_left rfl y c Q
    by_cases hlt : x < y
    · have hturn : sinkTurn (P ++ [y] ++ x :: Q, ((P ++ [y]).length : ℤ)) =
          pure (.next (P ++ x :: y :: Q, (P.length : ℤ))) := by
        simp only [sinkTurn, hbefore, hx, hy, pure_bind]
        rw [if_pos hpos, if_pos hlt, set_append rfl, pure_bind, ← List.append_cons, set_append rfl]
        rfl
      rw [List.rdropWhile_concat_pos _ _ y (decide_eq_true hlt),
        List.rtakeWhile_concat_pos _ _ y (decide_eq_true hlt),
        List.append_assoc (P.rtakeWhile _), List.singleton_append]
      exact loopReturns_next (hturn ▸ returns_pure _) (ih (y :: Q))
    · rw [List.rdropWhile_concat_neg _ _ y (by simpa using hlt),
        List.rtakeWhile_concat_neg _ _ y (by simpa using hlt)]
      refine loopReturns_exit ?_
      simp only [sinkTurn, hbefore, hx, hy, pure_bind]
      rw [if_pos hpos, if_neg hlt]
      exact returns_pure _

end Sink

/-! ## The sort -/

/-- The element behind a sorted front is inserted into it. -/
theorem halts_insertBody {front back : List ℤ} {x : ℤ} (hsorted : front.Pairwise (· ≤ ·)) :
    Halts (insertBody (front ++ x :: back) front.length) fun array' =>
      ∃ front', array' = front' ++ back ∧ front'.Perm (front ++ [x]) ∧ front'.Pairwise (· ≤ ·) := by
  refine ⟨_, returns_bind (loopReturns_sink x front back).returns (returns_pure _), _, ?_,
    perm_insert x front, pairwise_insert x hsorted⟩
  rw [List.append_assoc, List.cons_append]

/-- Before turn `i` the first `i` elements are sorted. -/
def Inserted (array : List ℤ) (i : ℕ) (r : List ℤ) : Prop :=
  r.Perm array ∧ ∃ front back, r = front ++ back ∧ front.length = i ∧ front.Pairwise (· ≤ ·)

theorem Inserted.step {array r : List ℤ} {i : ℕ} (h : Inserted array i r) (hi : i < array.length) :
    Halts (insertBody r i) (Inserted array (i + 1)) := by
  obtain ⟨hperm, front, back, rfl, rfl, hsorted⟩ := h
  have hlen := hperm.length_eq
  rw [List.length_append] at hlen
  obtain ⟨x, back, rfl⟩ := List.exists_cons_of_length_pos (show 0 < back.length by omega)
  refine (halts_insertBody hsorted).mono ?_
  rintro _ ⟨front', rfl, hp, hs⟩
  refine ⟨?_, front', back, rfl, ?_, hs⟩
  · rw [List.append_cons] at hperm
    exact (hp.append_right back).trans hperm
  · rw [hp.length_eq, List.length_append, List.length_singleton]

theorem halts_insertSort (array : List ℤ) :
    Halts (insertSort array) fun r => r.Perm array ∧ r.Pairwise (· ≤ ·) := by
  unfold insertSort
  by_cases hshort : array.length < 1
  · rw [if_pos hshort]
    exact halts_pure ⟨List.Perm.refl _, pairwise_of_length_le_one hshort.le⟩
  · rw [if_neg hshort]
    have hstart : Inserted array 1 array := by
      refine ⟨List.Perm.refl _, array.take 1, array.drop 1, (List.take_append_drop 1 array).symm, ?_, ?_⟩
      · exact List.length_take_of_le (by omega)
      · exact pairwise_of_length_le_one (List.length_take_le 1 array)
    have hloop : Halts (forRange (1 : ℕ) array.length insertBody array) (Inserted array array.length) :=
      halts_forRange (by omega) (Inserted array) (fun i r _ hi hI => hI.step hi) hstart
    refine hloop.mono ?_
    rintro _ ⟨hperm, front, back, rfl, hlen, hsorted⟩
    have hall := hperm.length_eq
    rw [List.length_append, hlen] at hall
    obtain rfl : back = [] := List.eq_nil_of_length_eq_zero (by omega)
    exact ⟨hperm, (List.append_nil front).symm ▸ hsorted⟩

/-- The result is a sorted permutation of the array.  In any array the inner loop takes an element `x`
behind all elements of the front but for the greater ones at its end. -/
theorem insertSort_spec (array : List ℤ) :
    (∃ r, Returns (insertSort array) r ∧ r.Perm array ∧ r.Pairwise (· ≤ ·)) ∧
    ∀ (front : List ℤ) (x : ℤ) (back : List ℤ), ∃ stay passed, front = stay ++ passed ∧
      (∀ q ∈ passed, x < q) ∧
      (stay = [] ∨ ∃ y, stay.getLast? = some y ∧ y ≤ x) ∧
      Returns (loop sinkTurn (front ++ x :: back, (front.length : ℤ)))
        (stay ++ x :: (passed ++ back), (stay.length : ℤ)) := by
  refine ⟨halts_insertSort array, ?_⟩
  intro front x back
  refine ⟨front.rdropWhile (x < ·), front.rtakeWhile (x < ·), List.rdropWhile_append_rtakeWhile.symm,
    fun q hq => lt_of_mem_rtakeWhile hq, ?_, (loopReturns_sink x front back).returns⟩
  rcases List.eq_nil_or_concat' (front.rdropWhile (x < ·)) with hnil | ⟨stay, y, hstay⟩
  · exact Or.inl hnil
  · exact Or.inr ⟨y, by rw [hstay, List.getLast?_concat], le_of_rdropWhile_eq hstay⟩

end QYInterview.InsertSort
