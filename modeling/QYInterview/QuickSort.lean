import QYInterview.Lib.Sorted
import QYInterview.Swift

/-!
# QuickSort — partition with two indices, and the sort by recursion

`QuickSortController.swift`.  The array is taken apart at the segment the code works on: the elements met from
the left, not above the pivot and headed by it, the window in between, and those met from the right, not below
it.  One pass of the outer loop moves both indices into the window and swaps what stopped them, and the window
gets shorter as the element under the left index is not above the pivot.
-/

namespace QYInterview.QuickSort

open RunLogic Swift Sorted

/-! ## The code -/

/-- `while array[right] >= pivot && left < right` -/
def rightTurn (array : List ℤ) (pivot left : ℤ) (right : ℤ) : Prog (Turn ℤ ℤ) := do
  if (← get array right) ≥ pivot ∧ left < right then
    return .next (right - 1)
  else return .exit right

/-- `while array[left] <= pivot && left < right` -/
def leftTurn (array : List ℤ) (pivot right : ℤ) (left : ℤ) : Prog (Turn ℤ ℤ) := do
  if (← get array left) ≤ pivot ∧ left < right then
    return .next (left + 1)
  else return .exit left

/-- `while left != right` -/
def partitionTurn (pivot : ℤ) : List ℤ × ℤ × ℤ → Prog (Turn (List ℤ × ℤ × ℤ) (List ℤ × ℤ))
  | (array, left, right) =>
    if left ≠ right then do
      let right ← loop (rightTurn array pivot left) right
      let left ← loop (leftTurn array pivot right) left
      if left < right then
        let array ← swap array left right
        return .next (array, left, right)
      else return .next (array, left, right)
    else pure (.exit (array, left))

/-- The array, and the index returned. -/
def partition (array : List ℤ) (start end' : ℤ) : Prog (List ℤ × ℤ) := do
  let pivot ← get array start
  let (array, left) ← loop (partitionTurn pivot) (array, start, end')
  return (← swap array left start, left)

def quickSortBody (quickSort : List ℤ × ℤ × ℤ → Prog (List ℤ)) : List ℤ × ℤ × ℤ → Prog (List ℤ)
  | (array, start, end') =>
    if start ≥ end' then pure array
    else do
      let (array, index) ← partition array start end'
      let array ← quickSort (array, start, index - 1)
      quickSort (array, index + 1, end')

def quickSort (array : List ℤ) (start end' : ℤ) : Prog (List ℤ) := fix quickSortBody (array, start, end')

/-! ## The two indices -/

/-- The two ends of a list exchanged. -/
theorem perm_exchange (a b : ℤ) (mid : List ℤ) : (b :: mid ++ [a]).Perm (a :: mid ++ [b]) := by
  apply List.perm_iff_count.mpr
  intro x
  simp only [List.count_append, List.count_cons, List.count_nil]
  omega

section Indices

variable {pivot : ℤ}

/-- The right index passes over the elements not below the pivot, at most to the left one. -/
theorem loopReturns_right (pivot : ℤ) (pre : List ℤ) (cur : ℤ) (xs : List ℤ) : ∀ post : List ℤ,
    LoopReturns (rightTurn (pre ++ cur :: xs ++ post) pivot pre.length) (pre.length + xs.length : ℤ)
      (pre.length + (xs.rdropWhile (pivot ≤ ·)).length : ℤ) := by
  induction xs using List.reverseRecOn with
  | nil =>
    intro post
    have hget : get (pre ++ [cur] ++ post) (pre.length + ([] : List ℤ).length : ℤ) = pure cur := by
      rw [List.append_assoc, List.singleton_append]
      exact get_append (by simp) cur post
    refine loopReturns_exit ?_
    rw [rightTurn, hget, pure_bind, if_neg (by simp)]
    exact returns_pure _
  | append_singleton xs y ih =>
    intro post
    have harray : pre ++ cur :: (xs ++ [y]) ++ post = pre ++ cur :: xs ++ y :: post := by simp
    have hlen : (pre.length : ℤ) + (xs ++ [y]).length = pre.length + xs.length + 1 := by
      rw [cast_length_concat, add_assoc]
    have hget : get (pre ++ cur :: xs ++ y :: post) (pre.length + xs.length + 1 : ℤ) = pure y :=
      get_append (by rw [List.length_append, List.length_cons]; omega) y post
    rw [harray, hlen]
    by_cases hy : pivot ≤ y
    · rw [List.rdropWhile_concat_pos _ _ y (decide_eq_true hy)]
      refine loopReturns_next ?_ (ih (y :: post))
      rw [rightTurn, hget, pure_bind, if_pos ⟨hy, by omega⟩, add_sub_cancel_right]
      exact returns_pure _
    · rw [List.rdropWhile_concat_neg _ _ y (by simpa using hy), hlen]
      refine loopReturns_exit ?_
      rw [rightTurn, hget, pure_bind, if_neg fun h => hy h.1]
      exact returns_pure _

/-- The left index passes over the elements not above the pivot, at most to the right one. -/
theorem loopReturns_left (pivot last : ℤ) (post : List ℤ) (right : ℤ) : ∀ xs pre : List ℤ,
    right = pre.length + xs.length →
    LoopReturns (leftTurn (pre ++ xs ++ last :: post) pivot right) (pre.length : ℤ)
      (pre.length + (xs.takeWhile (· ≤ pivot)).length : ℤ)
  | [], pre, hright => by
    refine loopReturns_exit ?_
    rw [leftTurn, get_append (by simp), pure_bind, if_neg (by rw [hright]; simp), List.takeWhile_nil,
      List.length_nil, Nat.cast_zero, add_zero]
    exact returns_pure _
  | x :: xs, pre, hright => by
    have hget : get (pre ++ (x :: xs) ++ last :: post) (pre.length : ℤ) = pure x := by
      rw [List.append_assoc]
      exact get_append rfl x _
    by_cases hx : x ≤ pivot
    · have hpre : ((pre ++ [x]).length : ℤ) = pre.length + 1 := cast_length_concat pre x
      rw [List.length_cons] at hright
      have hloop := loopReturns_left pivot last post right xs (pre ++ [x]) (by rw [hpre, hright]; omega)
      rw [← List.append_cons, hpre, add_assoc, add_comm (1 : ℤ)] at hloop
      rw [List.takeWhile_cons_of_pos (by simpa using hx)]
      refine loopReturns_next ?_ hloop
      rw [leftTurn, hget, pure_bind, if_pos ⟨hx, by omega⟩]
      exact returns_pure _
    · rw [List.takeWhile_cons_of_neg (by simpa using hx)]
      refine loopReturns_exit ?_
      rw [leftTurn, hget, pure_bind, if_neg fun h => hx h.1, List.length_nil, Nat.cast_zero, add_zero]
      exact returns_pure _

/-- A pass of the outer loop after which the indices have met. -/
theorem returns_meet {array : List ℤ} {left right met : ℤ} (hne : left ≠ right)
    (hright : LoopReturns (rightTurn array pivot left) right met)
    (hleft : LoopReturns (leftTurn array pivot met) left met) :
    Returns (partitionTurn pivot (array, left, right)) (.next (array, met, met)) := by
  simp only [partitionTurn, if_pos hne]
  refine returns_bind hright.returns (returns_bind hleft.returns ?_)
  rw [if_neg (lt_irrefl met)]
  exact returns_pure _

/-- A pass of the outer loop that ends with a swap. -/
theorem returns_swap {array array' : List ℤ} {left right left' right' : ℤ} (hne : left ≠ right)
    (hright : LoopReturns (rightTurn array pivot left) right right')
    (hleft : LoopReturns (leftTurn array pivot right') left left') (hlt : left' < right')
    (hswap : swap array left' right' = pure array') :
    Returns (partitionTurn pivot (array, left, right)) (.next (array', left', right')) := by
  simp only [partitionTurn, if_pos hne]
  refine returns_bind hright.returns (returns_bind hleft.returns ?_)
  rw [if_pos hlt, hswap]
  exact returns_pure _

/-- The elements where the two indices stop change places. -/
theorem swap_stopped (pre : List ℤ) (cur : ℤ) (ls : List ℤ) (z : ℤ) (rest : List ℤ) (y : ℤ) (post : List ℤ) :
    swap (pre ++ (cur :: (ls ++ z :: rest)) ++ y :: post) (pre.length + (cur :: ls).length)
        (pre.length + (cur :: (ls ++ z :: rest)).length) =
      pure (pre ++ (cur :: ls) ++ y :: rest ++ z :: post) := by
  have hi : (pre.length : ℤ) + (cur :: ls).length = (pre ++ cur :: ls).length := by
    rw [List.length_append, Nat.cast_add]
  have hj : (pre.length : ℤ) + (cur :: (ls ++ z :: rest)).length =
      (pre ++ cur :: ls).length + 1 + rest.length := by
    simp only [List.length_append, List.length_cons]
    omega
  rw [show pre ++ cur :: (ls ++ z :: rest) = pre ++ cur :: ls ++ z :: rest by simp]
  exact (swap_append hi hj z y post).1

/-- The right index has stopped at `y`, and the left one moves on from `cur` over
elements not above the pivot. -/
theorem returns_stopped {cur y right : ℤ} (pre ms post : List ℤ) (hcur : cur ≤ pivot) (hy : y < pivot)
    (hne : (pre.length : ℤ) ≠ right)
    (hright : LoopReturns (rightTurn (pre ++ (cur :: ms) ++ y :: post) pivot pre.length)
      right (pre.length + (cur :: ms).length)) :
    ∃ ls mid', (ls ++ mid').Perm (ms ++ [y]) ∧ (∀ x ∈ ls, x ≤ pivot) ∧ ls ≠ [] ∧
      Returns (partitionTurn pivot (pre ++ (cur :: ms) ++ y :: post, pre.length, right))
        (.next (pre ++ cur :: ls ++ mid' ++ post, pre.length + ls.length,
          pre.length + ls.length + mid'.length)) := by
  have hleft := loopReturns_left pivot y post (pre.length + (cur :: ms).length) (cur :: ms) pre rfl
  rw [List.takeWhile_cons_of_pos (by simpa using hcur)] at hleft
  have hlow : ∀ x ∈ ms.takeWhile (· ≤ pivot) ++ [y], x ≤ pivot := by
    refine List.forall_mem_append.mpr ⟨fun x hx => ?_, List.forall_mem_singleton.mpr hy.le⟩
    simpa using List.mem_takeWhile_imp hx
  have hsplit : ms.takeWhile (· ≤ pivot) ++ ms.dropWhile (· ≤ pivot) = ms := List.takeWhile_append_dropWhile
  generalize ms.takeWhile (· ≤ pivot) = ls at hleft hlow hsplit
  generalize ms.dropWhile (· ≤ pivot) = rest at hsplit
  subst hsplit
  cases rest with
  | nil =>
    -- no element in between stops the left index
    rw [List.append_nil] at hright hleft ⊢
    refine ⟨ls ++ [y], [], by simp, hlow, List.concat_ne_nil y ls, ?_⟩
    convert returns_meet hne hright hleft using 3
    · simp
    · simp
  | cons z rest =>
    -- the two elements that stop the indices change places
    have hlt : ((pre.length : ℤ) + (cur :: ls).length) < pre.length + (cur :: (ls ++ z :: rest)).length := by
      simp only [List.length_append, List.length_cons]
      omega
    refine ⟨ls ++ [y], rest ++ [z], ?_, hlow, List.concat_ne_nil y ls, ?_⟩
    · simpa using (perm_exchange z y rest).append_left ls
    · convert returns_swap hne hright hleft hlt (swap_stopped pre cur ls z rest y post) using 3
      · simp
      · simp [add_assoc]
        omega

/-- One pass of the outer loop: elements of the window join those on either side, and it gets shorter. -/
theorem returns_partitionTurn {cur : ℤ} {mid : List ℤ} (pre post : List ℤ) (hcur : cur ≤ pivot)
    (hmid : mid ≠ []) :
    ∃ ls mid' ds, (ls ++ mid' ++ ds).Perm mid ∧ (∀ x ∈ ls, x ≤ pivot) ∧ (∀ x ∈ ds, pivot ≤ x) ∧
      mid'.length < mid.length ∧
      Returns (partitionTurn pivot (pre ++ cur :: mid ++ post, pre.length, pre.length + mid.length))
        (.next (pre ++ cur :: ls ++ mid' ++ ds ++ post, pre.length + ls.length,
          pre.length + ls.length + mid'.length)) := by
  have hmidpos := List.length_pos_of_ne_nil hmid
  have hne : (pre.length : ℤ) ≠ pre.length + mid.length := by omega
  have hright := loopReturns_right pivot pre cur mid post
  have hsplit : mid.rdropWhile (pivot ≤ ·) ++ mid.rtakeWhile (pivot ≤ ·) = mid :=
    List.rdropWhile_append_rtakeWhile
  have hds : ∀ x ∈ mid.rtakeWhile (pivot ≤ ·), pivot ≤ x :=
    fun x hx => by simpa using List.mem_rtakeWhile_imp hx
  generalize hms : mid.rdropWhile (pivot ≤ ·) = ms at hright hsplit
  generalize mid.rtakeWhile (pivot ≤ ·) = ds at hds hsplit
  subst hsplit
  rcases List.eq_nil_or_concat' ms with rfl | ⟨ms, y, rfl⟩
  · -- the right index comes to the left one
    have harray : pre ++ cur :: ([] ++ ds) ++ post = pre ++ [] ++ cur :: (ds ++ post) := by simp
    have hleft := loopReturns_left pivot cur (ds ++ post) (pre.length + ([] : List ℤ).length) [] pre rfl
    rw [← harray] at hleft
    refine ⟨[], [], ds, List.Perm.refl _, by simp, hds, hmidpos, ?_⟩
    simpa using returns_meet hne hright hleft
  · have hy : y < pivot := by simpa using not_of_rdropWhile_eq hms
    have harray : pre ++ cur :: (ms ++ [y] ++ ds) ++ post = pre ++ (cur :: ms) ++ y :: (ds ++ post) := by simp
    have hlen : (ms ++ [y]).length = (cur :: ms).length := by
      rw [List.length_append, List.length_singleton, List.length_cons]
    rw [hlen, harray] at hright
    obtain ⟨ls, mid', hperm, hlow, hls, hret⟩ := returns_stopped pre ms (ds ++ post) hcur hy hne hright
    refine ⟨ls, mid', ds, hperm.append_right ds, hlow, hds, ?_, ?_⟩
    · have hsum := hperm.length_eq
      have hpos := List.length_pos_of_ne_nil hls
      rw [List.length_append] at hsum ⊢
      omega
    · rw [harray, List.append_assoc _ ds]
      exact hret

end Indices

/-! ## The partition -/

section Partition

variable {front back seg block mid highs : List ℤ} {pivot : ℤ} {s : List ℤ × ℤ × ℤ}

/-- The segment `seg` between `front` and `back`, in another order: the block up to the left index, headed
by the pivot, the window `mid` up to the right index, and the elements behind it. -/
structure Window (front back seg : List ℤ) (pivot : ℤ) (block mid highs : List ℤ) (s : List ℤ × ℤ × ℤ) :
    Prop where
  array : s.1 = front ++ block ++ mid ++ highs ++ back
  left : s.2.1 = front.length + block.length - 1
  right : s.2.2 = s.2.1 + mid.length
  head : block.head? = some pivot
  perm : (block ++ mid ++ highs).Perm seg
  low : ∀ x ∈ block, x ≤ pivot
  high : ∀ x ∈ highs, pivot ≤ x

/-- One pass of the outer loop, as long as the indices differ. -/
theorem Window.turn (h : Window front back seg pivot block mid highs s) (hmid : mid ≠ []) :
    ∃ s' block' mid' highs', Returns (partitionTurn pivot s) (.next s') ∧
      Window front back seg pivot block' mid' highs' s' ∧ mid'.length < mid.length := by
  obtain ⟨array, left, right⟩ := s
  obtain ⟨init, cur, rfl⟩ : ∃ init cur, block = init ++ [cur] :=
    (List.eq_nil_or_concat' block).resolve_left fun hnil => by
      have hhead := h.head
      rw [hnil] at hhead
      cases hhead
  obtain ⟨ls, mid', ds, hperm, hls, hds, hlt, hret⟩ := returns_partitionTurn (front ++ init) (highs ++ back)
    (h.low cur (by simp)) hmid
  have hleft : left = ((front ++ init).length : ℤ) := by
    rw [show left = _ from h.left, List.length_append, List.length_append, List.length_singleton]
    omega
  have harray : array = front ++ init ++ cur :: mid ++ (highs ++ back) := by
    rw [show array = _ from h.array]
    simp
  have hright : right = left + mid.length := h.right
  rw [← harray, ← hleft, ← hright] at hret
  refine ⟨_, init ++ [cur] ++ ls, mid', ds ++ highs, hret, ?_, hlt⟩
  exact {
    array := by simp
    left := by
      rw [hleft]
      simp only [List.length_append, List.length_singleton]
      omega
    right := rfl
    head := by
      rw [List.head?_append, h.head]
      rfl
    perm := by
      have hsame := ((hperm.append_left (init ++ [cur])).append_right highs).trans h.perm
      simpa only [List.append_assoc] using hsame
    low := fun x hx => (List.mem_append.mp hx).elim (h.low x) (hls x)
    high := fun x hx => (List.mem_append.mp hx).elim (hds x) (h.high x) }

/-- The outer loop empties the window. -/
theorem halts_partitionLoop (h : Window front back seg pivot block mid highs s) :
    Halts (loop (partitionTurn pivot) s) fun r => ∃ block' highs',
      Window front back seg pivot block' [] highs' (r.1, r.2, r.2) := by
  refine halts_loop (fun s => ∃ block mid highs, Window front back seg pivot block mid highs s)
    (fun s => (s.2.2 - s.2.1).toNat) _ (fun s hs => ?_) s ⟨block, mid, highs, h⟩
  obtain ⟨block, mid, highs, hs⟩ := hs
  by_cases hmid : mid = []
  · subst hmid
    have hright : s.2.2 = s.2.1 := by
      rw [hs.right]
      simp
    obtain ⟨array, left, right⟩ := s
    obtain rfl : right = left := hright
    simp only [partitionTurn, ne_eq, not_true, if_false]
    exact halts_pure ⟨block, highs, hs⟩
  · obtain ⟨s', block', mid', highs', hret, hs', hlt⟩ := hs.turn hmid
    refine ⟨_, hret, ⟨block', mid', highs', hs'⟩, ?_⟩
    rw [hs'.right, hs.right]
    omega

/-- The swap at the end takes the pivot from the head of its block to the end of it. -/
theorem exists_swap_pivot (front : List ℤ) (pivot : ℤ) (block back : List ℤ) :
    ∃ low, (low ++ [pivot]).Perm (pivot :: block) ∧ low.length = block.length ∧
      swap (front ++ pivot :: block ++ back) (front.length + block.length) front.length =
        pure (front ++ low ++ pivot :: back) := by
  rcases List.eq_nil_or_concat' block with rfl | ⟨low, c, rfl⟩
  · refine ⟨[], List.Perm.refl _, rfl, ?_⟩
    rw [List.append_assoc]
    simpa using swap_self (i := front.length) rfl pivot back
  · refine ⟨c :: low, perm_exchange pivot c low, by simp, ?_⟩
    rw [show front ++ pivot :: (low ++ [c]) ++ back = front ++ pivot :: low ++ c :: back by simp,
      (swap_append rfl (by simp only [List.length_append, List.length_singleton]; omega) pivot c back).2,
      List.append_assoc front]

/-- The first element of a segment comes between those not above it and those not below it;
nothing else changes. -/
theorem returns_partition (front back rest : List ℤ) (pivot : ℤ) :
    ∃ low high, (low ++ pivot :: high).Perm (pivot :: rest) ∧ (∀ x ∈ low, x ≤ pivot) ∧
      (∀ x ∈ high, pivot ≤ x) ∧
      Returns (partition (front ++ pivot :: rest ++ back) front.length (front.length + rest.length))
        (front ++ (low ++ pivot :: high) ++ back, front.length + low.length) := by
  have hget : get (front ++ pivot :: rest ++ back) (front.length : ℤ) = pure pivot := by
    rw [List.append_assoc]
    exact get_append rfl pivot _
  have hstart : Window front back (pivot :: rest) pivot [pivot] rest []
      (front ++ pivot :: rest ++ back, front.length, front.length + rest.length) :=
    ⟨by simp, by simp, rfl, rfl, by simp, by simp, by simp⟩
  obtain ⟨⟨array, left⟩, hloop, block, highs, h⟩ := halts_partitionLoop hstart
  obtain ⟨block, rfl⟩ : ∃ bs, block = pivot :: bs := List.head?_eq_some_iff.mp h.head
  obtain ⟨low, hperm, hlen, hswap⟩ := exists_swap_pivot front pivot block (highs ++ back)
  have harray : array = front ++ pivot :: block ++ (highs ++ back) := by
    rw [show array = _ from h.array]
    simp
  have hleft : left = front.length + block.length := by
    rw [show left = _ from h.left, List.length_cons]
    omega
  refine ⟨low, highs, ?_, fun x hx => h.low x (hperm.subset (List.mem_append_left _ hx)), h.high, ?_⟩
  · have hall := h.perm
    rw [List.append_nil] at hall
    have hmoved := (hperm.append_right highs).trans hall
    rwa [List.append_assoc, List.singleton_append] at hmoved
  · rw [partition, hget, pure_bind]
    refine returns_bind hloop ?_
    simp only [harray, hleft, hswap, pure_bind]
    rw [hlen, List.append_assoc, List.append_assoc, List.append_assoc, List.cons_append]
    exact returns_pure _

end Partition

/-! ## The sort -/

section Calls

variable {array array₁ array₂ array₃ : List ℤ} {start end' index : ℤ}

theorem fixReturns_short (h : end' ≤ start) : FixReturns quickSortBody (array, start, end') array := by
  refine fixReturns_call ?_
  simp only [quickSortBody, if_pos h]
  exact (returns_pure _).settles

theorem fixReturns_parts (h : start < end') (hpart : Returns (partition array start end') (array₁, index))
    (hlow : FixReturns quickSortBody (array₁, start, index - 1) array₂)
    (hhigh : FixReturns quickSortBody (array₂, index + 1, end') array₃) :
    FixReturns quickSortBody (array, start, end') array₃ := by
  refine fixReturns_call ?_
  simp only [quickSortBody, if_neg (not_le.mpr h)]
  exact settles_bind hpart.settles (settles_bind hlow hhigh)

end Calls

/-- A segment is sorted in its place, by induction on its length:
the parts on both sides of the pivot are shorter. -/
theorem fixReturns_quickSort (n : ℕ) : ∀ front seg back : List ℤ, seg.length = n → ∃ seg', seg'.Perm seg ∧
    seg'.Pairwise (· ≤ ·) ∧ FixReturns quickSortBody
      (front ++ seg ++ back, (front.length : ℤ), (front.length : ℤ) + seg.length - 1)
        (front ++ seg' ++ back) := by
  induction n using Nat.strong_induction_on with
  | _ n ih =>
    rintro front seg back rfl
    by_cases hshort : seg.length ≤ 1
    · exact ⟨seg, List.Perm.refl _, pairwise_of_length_le_one hshort, fixReturns_short (by omega)⟩
    · obtain ⟨pivot, rest, rfl⟩ := List.exists_cons_of_length_pos (show 0 < seg.length by omega)
      obtain ⟨low, high, hperm, hlow, hhigh, hpart⟩ := returns_partition front back rest pivot
      have hlen : low.length + high.length = rest.length := by
        have := hperm.length_eq
        simp only [List.length_append, List.length_cons] at this
        omega
      rw [List.length_cons] at ih hshort
      obtain ⟨low', hlow', hlows, hretl⟩ := ih low.length (by omega) front low (pivot :: high ++ back) rfl
      obtain ⟨high', hhigh', hhighs, hreth⟩ :=
        ih high.length (by omega) (front ++ low' ++ [pivot]) high back rfl
      refine ⟨low' ++ pivot :: high', (hlow'.append (hhigh'.cons pivot)).trans hperm,
        pairwise_append_pivot hlows hhighs (fun x hx => hlow x (hlow'.mem_iff.mp hx))
          fun x hx => hhigh x (hhigh'.mem_iff.mp hx), ?_⟩
      have hend : (front.length : ℤ) + (pivot :: rest).length - 1 = front.length + rest.length := by
        rw [List.length_cons]
        omega
      have hstart : ((front ++ low' ++ [pivot]).length : ℤ) = front.length + low.length + 1 := by
        rw [List.length_append, List.length_append, List.length_singleton, hlow'.length_eq]
        omega
      have hend' : (front.length : ℤ) + low.length + 1 + high.length - 1 = front.length + rest.length := by
        omega
      rw [hstart, hend'] at hreth
      rw [hend]
      refine fixReturns_parts (by omega) hpart (by simpa using hretl) ?_
      simpa using hreth

/-- `array[start...end]` -/
def slice (array : List ℤ) (start end' : ℤ) : List ℤ := (array.take (end' + 1).toNat).drop start.toNat

theorem length_slice_le {array : List ℤ} {start end' : ℤ} (h : end' ≤ start) :
    (slice array start end').length ≤ 1 := by
  rw [slice, List.length_drop, List.length_take]
  omega

theorem slice_append {front seg back : List ℤ} {start end' : ℤ} (hs : start = front.length)
    (he : end' = front.length + seg.length - 1) : slice (front ++ seg ++ back) start end' = seg := by
  have hend : (end' + 1).toNat = (front ++ seg).length := by
    rw [he, List.length_append]
    omega
  rw [slice, hend, List.take_left, hs, Int.toNat_natCast, List.drop_left]

/-- An array is what is in front of a slice of it, the slice and what is behind it. -/
theorem exists_slice {array : List ℤ} {start end' : ℤ} (h0 : 0 ≤ start) (h : start < end')
    (hend : end' < array.length) :
    ∃ front seg back, array = front ++ seg ++ back ∧
      start = front.length ∧ end' = front.length + seg.length - 1 := by
  have htake : array.take start.toNat = (array.take (end' + 1).toNat).take start.toNat := by
    rw [List.take_take, min_eq_left (by omega)]
  refine ⟨array.take start.toNat, slice array start end', array.drop (end' + 1).toNat, ?_, ?_, ?_⟩
  · rw [slice, htake, List.take_append_drop, List.take_append_drop]
  · rw [List.length_take]
    omega
  · rw [slice, List.length_drop, List.length_take, List.length_take]
    omega

/-- Another segment of the same length in its place. -/
theorem getElem?_outside {front seg seg' back : List ℤ} {k : ℕ} (hlen : seg'.length = seg.length)
    (hk : k < front.length ∨ front.length + seg.length ≤ k) :
    (front ++ seg' ++ back)[k]? = (front ++ seg ++ back)[k]? := by
  rcases hk with hk | hk
  · rw [List.append_assoc, List.append_assoc, List.getElem?_append_left hk, List.getElem?_append_left hk]
  · have hseg : (front ++ seg).length ≤ k := by rwa [List.length_append]
    have hseg' : (front ++ seg').length ≤ k := by rwa [List.length_append, hlen]
    rw [List.getElem?_append_right hseg', List.getElem?_append_right hseg, List.length_append,
      List.length_append, hlen]

/-- The segment is sorted in its place and nothing else changes; from the first to the last index,
the array is. -/
theorem quickSort_spec (array : List ℤ) (start end' : ℤ)
    (h : start ≥ end' ∨ 0 ≤ start ∧ start < end' ∧ end' < array.length) :
    (∃ array', Returns (quickSort array start end') array' ∧ array'.length = array.length ∧
      (slice array' start end').Perm (slice array start end') ∧ (slice array' start end').Pairwise (· ≤ ·) ∧
      ∀ k : ℕ, k < start ∨ end' < k → array'[k]? = array[k]?) ∧
    ∃ array', Returns (quickSort array 0 (array.length - 1)) array' ∧ array'.Perm array ∧
      array'.Pairwise (· ≤ ·) := by
  constructor
  · rcases h with h | ⟨h0, hlt, hend⟩
    · exact ⟨array, (fixReturns_short h).returns, rfl, List.Perm.refl _,
        pairwise_of_length_le_one (length_slice_le h),
        fun _ _ => rfl⟩
    · obtain ⟨front, seg, back, rfl, hs, he⟩ := exists_slice h0 hlt hend
      obtain ⟨seg', hperm, hsorted, hret⟩ := fixReturns_quickSort _ front seg back rfl
      have hlen := hperm.length_eq
      rw [← he, ← hs] at hret
      rw [slice_append hs he]
      refine ⟨front ++ seg' ++ back, hret.returns, ?_, ?_⟩
      · simp only [List.length_append, hlen]
      · rw [slice_append hs (by rw [hlen, he])]
        refine ⟨hperm, hsorted, ?_⟩
        intro k hk
        exact getElem?_outside hlen (by omega)
  · obtain ⟨array', hperm, hsorted, hret⟩ := fixReturns_quickSort _ [] array [] rfl
    refine ⟨array', ?_, hperm, hsorted⟩
    rw [quickSort]
    simpa using hret.returns

theorem quickSort_spec_four : (∃ array', Returns (quickSort [9, 2, 2, 1] 1 3) array' ∧ array'.length = 4 ∧
    (slice array' 1 3).Perm [2, 2, 1] ∧ (slice array' 1 3).Pairwise (· ≤ ·) ∧
    ∀ k : ℕ, (k : ℤ) < 1 ∨ (3 : ℤ) < k → array'[k]? = [9, 2, 2, 1][k]?) ∧
    ∃ array', Returns (quickSort [9, 2, 2, 1] 0 3) array' ∧ array'.Perm [9, 2, 2, 1] ∧
      array'.Pairwise (· ≤ ·) :=
  quickSort_spec [9, 2, 2, 1] 1 3 (Or.inr (by decide))

end QYInterview.QuickSort
