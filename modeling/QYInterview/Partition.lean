import QYInterview.QuickSort

/-!
# Partition — `partition` of `QuickSortController.swift` by itself

What a call leaves in the array, and that it comes at no element outside `array[start...end]`: `partitionBy`
is the same code over given accesses (`partition_eq`), and it is the same program when all accesses to other
elements are stopped.
-/

namespace QYInterview.QuickSort

open RunLogic Swift

/-! ## The code over given accesses -/

section Code

variable (A : Access ℤ)

/-- `while array[right] >= pivot && left < right` -/
def rightTurnBy (array : List ℤ) (pivot left : ℤ) (right : ℤ) : Prog (Turn ℤ ℤ) := do
  if (← A.get array right) ≥ pivot ∧ left < right then
    return .next (right - 1)
  else return .exit right

/-- `while array[left] <= pivot && left < right` -/
def leftTurnBy (array : List ℤ) (pivot right : ℤ) (left : ℤ) : Prog (Turn ℤ ℤ) := do
  if (← A.get array left) ≤ pivot ∧ left < right then
    return .next (left + 1)
  else return .exit left

/-- `while left != right` -/
def partitionTurnBy (pivot : ℤ) : List ℤ × ℤ × ℤ → Prog (Turn (List ℤ × ℤ × ℤ) (List ℤ × ℤ))
  | (array, left, right) =>
    if left ≠ right then do
      let right ← loop (rightTurnBy A array pivot left) right
      let left ← loop (leftTurnBy A array pivot right) left
      if left < right then
        let array ← A.swap array left right
        return .next (array, left, right)
      else return .next (array, left, right)
    else pure (.exit (array, left))

def partitionBy (array : List ℤ) (start end' : ℤ) : Prog (List ℤ × ℤ) := do
  let pivot ← A.get array start
  let (array, left) ← loop (partitionTurnBy A pivot) (array, start, end')
  return (← A.swap array left start, left)

end Code

theorem partition_eq : partition = partitionBy .all := rfl

/-! ## The elements it comes at -/

section Within

variable {array : List ℤ} {start end' pivot left right i j : ℤ}

theorem within_get (hi : start ≤ i ∧ i ≤ end') :
    (Access.within start end').get array i = Access.all.get array i := if_pos hi

theorem within_swap (hi : start ≤ i ∧ i ≤ end') (hj : start ≤ j ∧ j ≤ end') :
    (Access.within start end').swap array i j = Access.all.swap array i j := if_pos ⟨hi, hj⟩

/-- A scan stays between the indices. -/
theorem yields_rightTurn (hi : left ≤ i ∧ i ≤ right) : Yields (rightTurnBy .all array pivot left i)
    (Turn.Good (fun r => left ≤ r ∧ r ≤ right) fun r => left ≤ r ∧ r ≤ right) := by
  refine yields_bind (yields_true _) ?_
  intro x _
  by_cases h : x ≥ pivot ∧ left < i
  · rw [if_pos h]
    exact yields_pure ⟨by omega, by omega⟩
  · rw [if_neg h]
    exact yields_pure hi

theorem yields_leftTurn (hi : left ≤ i ∧ i ≤ right) : Yields (leftTurnBy .all array pivot right i)
    (Turn.Good (fun l => left ≤ l ∧ l ≤ right) fun l => left ≤ l ∧ l ≤ right) := by
  refine yields_bind (yields_true _) ?_
  intro x _
  by_cases h : x ≤ pivot ∧ i < right
  · rw [if_pos h]
    exact yields_pure ⟨by omega, by omega⟩
  · rw [if_neg h]
    exact yields_pure hi

theorem yields_right (hlr : left ≤ right) : Yields (loop (rightTurnBy .all array pivot left) right) fun r =>
    left ≤ r ∧ r ≤ right := yields_loop _ _ (fun _ hi => yields_rightTurn hi) ⟨hlr, le_rfl⟩

theorem yields_left (hlr : left ≤ right) : Yields (loop (leftTurnBy .all array pivot right) left) fun l =>
    left ≤ l ∧ l ≤ right := yields_loop _ _ (fun _ hi => yields_leftTurn hi) ⟨le_rfl, hlr⟩

theorem right_within (hs : start ≤ left) (hlr : left ≤ right) (he : right ≤ end') :
    loop (rightTurnBy (.within start end') array pivot left) right =
      loop (rightTurnBy .all array pivot left) right := by
  refine loop_congr (fun i => left ≤ i ∧ i ≤ right) (fun _ hi => yields_rightTurn hi) ?_ ⟨hlr, le_rfl⟩
  intro i hi
  rw [rightTurnBy, within_get ⟨hs.trans hi.1, hi.2.trans he⟩]
  rfl

theorem left_within (hs : start ≤ left) (hlr : left ≤ right) (he : right ≤ end') :
    loop (leftTurnBy (.within start end') array pivot right) left =
      loop (leftTurnBy .all array pivot right) left := by
  refine loop_congr (fun i => left ≤ i ∧ i ≤ right) (fun _ hi => yields_leftTurn hi) ?_ ⟨le_rfl, hlr⟩
  intro i hi
  rw [leftTurnBy, within_get ⟨hs.trans hi.1, hi.2.trans he⟩]
  rfl

/-- Between the ends of the segment, in order. -/
def Ordered (start end' : ℤ) (s : List ℤ × ℤ × ℤ) : Prop := start ≤ s.2.1 ∧ s.2.1 ≤ s.2.2 ∧ s.2.2 ≤ end'

theorem yields_partitionTurn {s : List ℤ × ℤ × ℤ} (h : Ordered start end' s) :
    Yields (partitionTurnBy .all pivot s)
    (Turn.Good (Ordered start end') fun r => start ≤ r.2 ∧ r.2 ≤ end') := by
  obtain ⟨array, left, right⟩ := s
  obtain ⟨hs, hlr, he⟩ := h
  rw [partitionTurnBy]
  by_cases hne : left ≠ right
  · rw [if_pos hne]
    refine yields_bind (yields_right hlr) ?_
    intro r hr
    refine yields_bind (yields_left hr.1) ?_
    intro l hl
    have hnext : ∀ array', Ordered start end' (array', l, r) := fun _ => ⟨hs.trans hl.1, hl.2, hr.2.trans he⟩
    by_cases hlt : l < r
    · rw [if_pos hlt]
      exact yields_bind (yields_true _) fun array' _ => yields_pure (hnext array')
    · rw [if_neg hlt]
      exact yields_pure (hnext array)
  · rw [if_neg hne]
    exact yields_pure ⟨hs, hlr.trans he⟩

theorem partitionTurn_within {s : List ℤ × ℤ × ℤ} (h : Ordered start end' s) :
    partitionTurnBy (.within start end') pivot s = partitionTurnBy .all pivot s := by
  obtain ⟨array, left, right⟩ := s
  obtain ⟨hs, hlr, he⟩ := h
  rw [partitionTurnBy, partitionTurnBy]
  by_cases hne : left ≠ right
  · rw [if_pos hne, if_pos hne, right_within hs hlr he]
    apply (yields_right hlr).bind_congr
    intro r hr
    rw [left_within hs hr.1 (hr.2.trans he)]
    apply (yields_left hr.1).bind_congr
    intro l hl
    rw [within_swap ⟨hs.trans hl.1, hl.2.trans (hr.2.trans he)⟩ ⟨hs.trans hr.1, hr.2.trans he⟩]
  · rw [if_neg hne, if_neg hne]

/-- With all other accesses stopped it is the same program. -/
theorem partition_within (array : List ℤ) (h : start ≤ end') :
    partitionBy (.within start end') array start end' = partition array start end' := by
  have hstart : Ordered start end' (array, start, end') := ⟨le_rfl, h, le_rfl⟩
  rw [partition_eq, partitionBy, partitionBy, within_get ⟨le_rfl, h⟩]
  apply (yields_true _).bind_congr
  intro pivot _
  rw [loop_congr (Ordered start end') (fun _ => yields_partitionTurn) (fun _ => partitionTurn_within) hstart]
  apply (yields_loop _ _ (fun _ => yields_partitionTurn) hstart).bind_congr
  rintro ⟨array', left⟩ hleft
  dsimp only
  rw [within_swap hleft ⟨le_rfl, h⟩]

end Within

/-! ## What it leaves -/

section Parts

variable {front low high back : List ℤ} {pivot v : ℤ} {i : ℕ}

theorem mem_low (hi : front.length ≤ i) (hip : i < front.length + low.length)
    (hv : (front ++ (low ++ pivot :: high) ++ back)[i]? = some v) : v ∈ low := by
  rw [List.append_assoc, List.getElem?_append_right hi, List.append_assoc,
    List.getElem?_append_left (by omega)] at hv
  exact List.mem_of_getElem? hv

theorem mem_high (hip : front.length + low.length < i) (hi : i ≤ front.length + low.length + high.length)
    (hv : (front ++ (low ++ pivot :: high) ++ back)[i]? = some v) : v ∈ high := by
  obtain ⟨d, rfl⟩ := Nat.exists_eq_add_of_lt hip
  have hsplit : front ++ (low ++ pivot :: high) ++ back = front ++ low ++ [pivot] ++ (high ++ back) := by simp
  have hlen : (front ++ low ++ [pivot]).length = front.length + low.length + 1 := by simp [add_assoc]
  rw [hsplit, List.getElem?_append_right (by omega), List.getElem?_append_left (by omega)] at hv
  exact List.mem_of_getElem? hv

theorem getElem?_pivot (front low : List ℤ) (pivot : ℤ) (high back : List ℤ) :
    (front ++ (low ++ pivot :: high) ++ back)[front.length + low.length]? = some pivot := by
  have hsplit : front ++ (low ++ pivot :: high) ++ back = front ++ low ++ pivot :: (high ++ back) := by simp
  rw [hsplit, ← List.length_append, List.getElem?_append_right le_rfl, Nat.sub_self, List.getElem?_cons_zero]

end Parts

/-- The first element of the segment at its place between those not above it and those not below it, from
accesses to the segment only; nothing else changes. -/
theorem partition_spec (array : List ℤ) (start end' : ℤ) (h0 : 0 ≤ start) (hlt : start < end')
    (hend : end' < array.length) :
    ∃ (array' : List ℤ) (p : ℕ) (pivot : ℤ), Returns (partition array start end') (array', (p : ℤ)) ∧
      partitionBy (.within start end') array start end' = partition array start end' ∧
      start ≤ p ∧ p ≤ end' ∧ array[start.toNat]? = some pivot ∧ array'[p]? = some pivot ∧
      (∀ (i : ℕ) v, array'[i]? = some v →
        (start ≤ i → i < p → v ≤ pivot) ∧ (p < i → i ≤ end' → pivot ≤ v)) ∧
      (slice array' start end').Perm (slice array start end') ∧ array'.length = array.length ∧
      ∀ k : ℕ, k < start ∨ end' < k → array'[k]? = array[k]? := by
  have hwithin := partition_within array hlt.le
  obtain ⟨front, seg, back, rfl, rfl, rfl⟩ := exists_slice h0 hlt hend
  obtain ⟨pivot, rest, rfl⟩ := List.exists_cons_of_length_pos (show 0 < seg.length by omega)
  obtain ⟨low, high, hperm, hlow, hhigh, hret⟩ := returns_partition front back rest pivot
  have hlen : (low ++ pivot :: high).length = (pivot :: rest).length := hperm.length_eq
  have hcount : low.length + high.length = rest.length := by
    simp only [List.length_append, List.length_cons] at hlen
    omega
  have hlast : (front.length : ℤ) + (pivot :: rest).length - 1 = front.length + rest.length := by
    rw [List.length_cons]
    omega
  rw [← hlast] at hret
  refine ⟨_, front.length + low.length, pivot, by exact_mod_cast hret, hwithin, by omega, by omega, ?_, ?_,
    ?_, ?_, ?_, ?_⟩
  · rw [Int.toNat_natCast]
    exact getElem?_pivot front [] pivot rest back
  · exact getElem?_pivot front low pivot high back
  · intro i v hv
    constructor
    · intro hi hip
      exact hlow v (mem_low (by omega) hip hv)
    · intro hip hi
      exact hhigh v (mem_high hip (by omega) hv)
  · rw [slice_append rfl rfl, slice_append rfl (by rw [hlen])]
    exact hperm
  · rw [List.length_append, List.length_append, hlen, List.length_append, List.length_append]
  · intro k hk
    exact getElem?_outside hlen (by omega)

/-- All elements of the segment equal. -/
theorem partition_spec_equal : ∃ (array' : List ℤ) (p : ℕ) (pivot : ℤ),
    Returns (partition [9, 2, 2, 2] 1 3) (array', (p : ℤ)) ∧
      partitionBy (.within 1 3) [9, 2, 2, 2] 1 3 = partition [9, 2, 2, 2] 1 3 ∧
      (1 : ℤ) ≤ p ∧ (p : ℤ) ≤ 3 ∧ [(9 : ℤ), 2, 2, 2][1]? = some pivot ∧ array'[p]? = some pivot ∧
      (∀ (i : ℕ) v, array'[i]? = some v →
        ((1 : ℤ) ≤ i → i < p → v ≤ pivot) ∧ (p < i → (i : ℤ) ≤ 3 → pivot ≤ v)) ∧
      (slice array' 1 3).Perm [2, 2, 2] ∧ array'.length = 4 ∧
      ∀ k : ℕ, (k : ℤ) < 1 ∨ 3 < (k : ℤ) → array'[k]? = [(9 : ℤ), 2, 2, 2][k]? :=
  partition_spec [9, 2, 2, 2] 1 3 (by decide) (by decide) (by decide)

end QYInterview.QuickSort
