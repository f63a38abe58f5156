import QYInterview.Lib.Sorted
import QYInterview.Swift

/-!
# MergeArrays — merging into the first array from the back

`MergesTwoOrderedArraysController.swift`.  Before a turn the first array is an unread part, a gap as long as
the unread part of the second array, and what was written: `cur` is the last position of the gap, so no
unread element is overwritten.
-/

namespace QYInterview.MergeArrays

open RunLogic Swift Sorted

/-! ## The code -/

/-- `l1 >= 0 && nums1[l1] > nums2[l2]` -/
def takesFirst (nums1 nums2 : List ℤ) (l1 l2 : ℤ) : Prog Bool :=
  if l1 ≥ 0 then do return decide ((← get nums1 l1) > (← get nums2 l2)) else return false

/-- `while l2 >= 0`, over `nums1`, `l1`, `l2` and `cur`. -/
def mergeTurn (nums2 : List ℤ) : List ℤ × ℤ × ℤ × ℤ → Prog (Turn (List ℤ × ℤ × ℤ × ℤ) (List ℤ))
  | (nums1, l1, l2, cur) =>
    if l2 ≥ 0 then do
      if ← takesFirst nums1 nums2 l1 l2 then
        let nums1 ← set nums1 cur (← get nums1 l1)
        return .next (nums1, l1 - 1, l2, cur - 1)
      else
        let nums1 ← set nums1 cur (← get nums2 l2)
        return .next (nums1, l1, l2 - 1, cur - 1)
    else return .exit nums1

/-- The array left in `nums1`. -/
def merge (nums1 : List ℤ) (m : ℤ) (nums2 : List ℤ) (n : ℤ) : Prog (List ℤ) :=
  loop (mergeTurn nums2) (nums1, m - 1, n - 1, m + n - 1)

/-! ## The loop -/

section Loop

variable {first second gap written rest : List ℤ} {x y g : ℤ}

/-- The variables with unread parts `first` and `second`. -/
def state (first second gap written : List ℤ) : List ℤ × ℤ × ℤ × ℤ :=
  (first ++ gap ++ written, (first.length : ℤ) - 1, (second.length : ℤ) - 1,
    (first.length : ℤ) + second.length - 1)

/-- The last element of the first array is greater. -/
theorem mergeTurn_first (hxy : y < x) (hgap : gap.length = second.length) :
    mergeTurn (second ++ [y] ++ rest) (state (first ++ [x]) (second ++ [y]) (gap ++ [g]) written) =
      pure (.next (state first (second ++ [y]) (x :: gap) (x :: written))) := by
  have hnums : first ++ [x] ++ (gap ++ [g]) ++ written = first ++ x :: gap ++ g :: written := by simp
  have hsecond : second ++ [y] ++ rest = second ++ y :: rest := by simp
  have hl1 : ((first ++ [x]).length : ℤ) - 1 = first.length := by simp
  have hl2 : ((second ++ [y]).length : ℤ) - 1 = second.length := by simp
  have hcur : ((first ++ [x]).length : ℤ) + (second ++ [y]).length - 1 = (first ++ x :: gap).length := by
    simp only [List.length_append, List.length_cons, List.length_nil]
    omega
  have hx : get (first ++ x :: gap ++ g :: written) (first.length : ℤ) = pure x := by
    rw [List.append_assoc, List.cons_append, get_append rfl]
  have htakes : takesFirst (first ++ x :: gap ++ g :: written)
      (second ++ y :: rest) first.length second.length = pure true := by
    rw [takesFirst, if_pos (by omega), hx, pure_bind, get_append rfl, pure_bind, decide_eq_true hxy]
  simp only [state, mergeTurn, hnums, hsecond, hl1, hl2, hcur, htakes, hx, set_append rfl, pure_bind]
  rw [if_pos (by omega), if_pos trivial,
    show ((first ++ x :: gap).length : ℤ) - 1 = first.length + (second ++ [y]).length - 1 by simp [hgap]]

/-- The last element of the second array is not less, or the first array is used up. -/
theorem mergeTurn_second (hle : ∀ x, first.getLast? = some x → x ≤ y) (hgap : gap.length = second.length) :
    mergeTurn (second ++ [y] ++ rest) (state first (second ++ [y]) (gap ++ [g]) written) =
      pure (.next (state first second gap (y :: written))) := by
  have hnums : first ++ (gap ++ [g]) ++ written = first ++ gap ++ g :: written := by simp
  have hsecond : second ++ [y] ++ rest = second ++ y :: rest := by simp
  have hl2 : ((second ++ [y]).length : ℤ) - 1 = second.length := by simp
  have hcur : (first.length : ℤ) + (second ++ [y]).length - 1 = (first ++ gap).length := by
    simp only [List.length_append, List.length_cons, List.length_nil]
    omega
  have htakes : takesFirst (first ++ gap ++ g :: written) (second ++ y :: rest)
    ((first.length : ℤ) - 1) second.length =
      pure false := by
    rcases List.eq_nil_or_concat' first with rfl | ⟨init, x, rfl⟩
    · rw [takesFirst, if_neg (by simp)]
    · have hx : get (init ++ [x] ++ gap ++ g :: written) (((init ++ [x]).length : ℤ) - 1) = pure x := by
        rw [List.append_assoc, List.append_assoc, List.singleton_append]
        exact get_append (by simp) x _
      rw [takesFirst, if_pos (by simp), hx, pure_bind, get_append rfl, pure_bind,
        decide_eq_false (not_lt.mpr (hle x List.getLast?_concat))]
  simp only [state, mergeTurn, hnums, hsecond, hl2, hcur, htakes, get_append rfl, set_append rfl, pure_bind]
  rw [if_pos (by omega), if_neg Bool.false_ne_true,
    show ((first ++ gap).length : ℤ) - 1 = first.length + second.length - 1 by
    simp [hgap]]

/-- From `s` the loop puts the elements `unread` in order in front of `written`. -/
def Merges (nums2 unread written : List ℤ) (s : List ℤ × ℤ × ℤ × ℤ) : Prop :=
  ∃ merged : List ℤ, merged.Perm unread ∧ merged.Pairwise (· ≤ ·) ∧
    LoopReturns (mergeTurn nums2) s (merged ++ written)

/-- A turn writes a greatest element of those unread. -/
theorem Merges.next {nums2 unread unread' : List ℤ} {s s' : List ℤ × ℤ × ℤ × ℤ}
    (h : Merges nums2 unread' (x :: written) s') (hturn : mergeTurn nums2 s = pure (.next s'))
    (hle : ∀ z ∈ unread', z ≤ x) (hperm : (unread' ++ [x]).Perm unread) : Merges nums2 unread written s := by
  obtain ⟨merged, hmerged, hsorted, hloop⟩ := h
  refine ⟨merged ++ [x], (hmerged.append_right [x]).trans hperm, ?_, ?_⟩
  · refine pairwise_append_pivot hsorted List.Pairwise.nil (fun z hz => ?_) (by simp)
    exact hle z (hmerged.mem_iff.mp hz)
  · rw [List.append_assoc merged, List.singleton_append]
    exact loopReturns_next (hturn ▸ returns_pure _) hloop

/-- The greater one of the two last elements. -/
theorem le_of_last_lt (hf : (first ++ [x]).Pairwise (· ≤ ·)) (hs : (second ++ [y]).Pairwise (· ≤ ·))
    (hxy : y < x) :
    ∀ z ∈ first ++ (second ++ [y]), z ≤ x := by
  intro z hz
  rcases List.mem_append.mp hz with hz | hz
  · exact le_last hf (List.mem_append_left _ hz)
  · exact (le_last hs hz).trans hxy.le

theorem le_of_last_le (hf : first.Pairwise (· ≤ ·)) (hs : (second ++ [y]).Pairwise (· ≤ ·))
    (hlast : ∀ x, first.getLast? = some x → x ≤ y) : ∀ z ∈ first ++ second, z ≤ y := by
  intro z hz
  rcases List.mem_append.mp hz with hz | hz
  · obtain ⟨init, x, rfl⟩ := (List.eq_nil_or_concat' first).resolve_left (List.ne_nil_of_mem hz)
    exact (le_last hf hz).trans (hlast x List.getLast?_concat)
  · exact le_last hs (List.mem_append_left _ hz)

/-- The unread parts are merged in front of what was written. -/
theorem merges_state (k : ℕ) : ∀ (first second gap written rest : List ℤ), first.length + second.length = k →
    gap.length = second.length → first.Pairwise (· ≤ ·) → second.Pairwise (· ≤ ·) →
    Merges (second ++ rest) (first ++ second) written (state first second gap written) := by
  induction k using Nat.strong_induction_on with
  | _ k ih =>
    intro first second gap written rest hk hgap hf hs
    rcases List.eq_nil_or_concat' second with rfl | ⟨second, y, rfl⟩
    · obtain rfl := List.length_eq_zero_iff.mp hgap
      refine ⟨first, by simp, hf, loopReturns_exit ?_⟩
      rw [state, mergeTurn, if_neg (by simp), List.append_nil]
      exact returns_pure _
    · obtain ⟨gap, g, rfl⟩ := (List.eq_nil_or_concat' gap).resolve_left (by rintro rfl; simp at hgap)
      rw [List.length_append, List.length_append, List.length_singleton, List.length_singleton,
        Nat.add_right_cancel_iff] at hgap
      rw [List.length_append, List.length_singleton] at hk
      by_cases hlast : ∃ x, first.getLast? = some x ∧ y < x
      · obtain ⟨x, hx, hxy⟩ := hlast
        obtain ⟨first, rfl⟩ := List.getLast?_eq_some_iff.mp hx
        rw [List.length_append, List.length_singleton] at hk
        have hmove : (first ++ (second ++ [y]) ++ [x]).Perm (first ++ [x] ++ (second ++ [y])) := by
          rw [List.append_assoc, List.append_assoc first [x]]
          exact List.perm_append_comm.append_left first
        have hmerges := ih (first.length + (second ++ [y]).length) (by simp; omega) first (second ++ [y])
          (x :: gap) (x :: written) rest rfl (by simp [hgap]) (List.pairwise_append.mp hf).1 hs
        exact hmerges.next (mergeTurn_first hxy hgap) (le_of_last_lt hf hs hxy) hmove
      · have hlast : ∀ x, first.getLast? = some x → x ≤ y :=
          fun x hx => not_lt.mp fun hxy => hlast ⟨x, hx, hxy⟩
        have hmerges :=
          ih (first.length + second.length) (by omega) first second gap (y :: written) (y :: rest) rfl hgap hf
          (List.pairwise_append.mp hs).1
        rw [List.append_cons second] at hmerges
        refine hmerges.next (mergeTurn_second hlast hgap) (le_of_last_le hf hs hlast) ?_
        rw [List.append_assoc]

end Loop

/-- The first `m` and the first `n` elements are merged into the first `m + n` places, and the rest stays. -/
theorem merge_spec (m n : ℕ) (nums1 nums2 : List ℤ) (h1 : m + n ≤ nums1.length) (h2 : n ≤ nums2.length)
    (hs1 : (nums1.take m).Pairwise (· ≤ ·)) (hs2 : (nums2.take n).Pairwise (· ≤ ·)) :
    ∃ nums1', Returns (merge nums1 m nums2 n) nums1' ∧ (nums1'.take (m + n)).Pairwise (· ≤ ·) ∧
      (nums1'.take (m + n)).Perm (nums1.take m ++ nums2.take n) ∧
      nums1'.drop (m + n) = nums1.drop (m + n) := by
  have hfirst : (nums1.take m).length = m := List.length_take_of_le (by omega)
  have hsecond : (nums2.take n).length = n := List.length_take_of_le h2
  have hgap : ((nums1.drop m).take n).length = n := List.length_take_of_le (by rw [List.length_drop]; omega)
  have hnums : nums1.take m ++ (nums1.drop m).take n ++ nums1.drop (m + n) = nums1 := by
    rw [List.append_assoc, ← List.drop_drop, List.take_append_drop, List.take_append_drop]
  obtain ⟨merged, hperm, hsorted, hloop⟩ :=
    merges_state (m + n) (nums1.take m) (nums2.take n) ((nums1.drop m).take n)
    (nums1.drop (m + n)) (nums2.drop n) (by rw [hfirst, hsecond]) (hgap.trans hsecond.symm) hs1 hs2
  rw [List.take_append_drop, state, hnums, hfirst, hsecond] at hloop
  have hlen : merged.length = m + n := by rw [hperm.length_eq, List.length_append, hfirst, hsecond]
  refine ⟨merged ++ nums1.drop (m + n), hloop.returns, ?_, ?_, ?_⟩
  · rwa [List.take_left' hlen]
  · rwa [List.take_left' hlen]
  · rw [List.drop_left' hlen]

theorem merge_spec_three : ∃ nums1', Returns (merge [1, 5, 0, 9] (2 : ℕ) [3, 4] (1 : ℕ)) nums1' ∧
    (nums1'.take (2 + 1)).Pairwise (· ≤ ·) ∧
    (nums1'.take (2 + 1)).Perm (([1, 5, 0, 9] : List ℤ).take 2 ++ [3, 4].take 1) ∧
    nums1'.drop (2 + 1) = ([1, 5, 0, 9] : List ℤ).drop (2 + 1) :=
  merge_spec 2 1 [1, 5, 0, 9] [3, 4] (by decide) (by decide) (by decide) (by decide)

end QYInterview.MergeArrays
