import QYInterview.Lib.Sorted
import QYInterview.Swift

/-!
# SortedSquares — the squares of a sorted array in order

`数组/SortedSquaresArrayController.swift` and `SortedSquares.swift` of the playground fill an array from the
back with the larger one of the squares at two pointers; the playground also sorts the squares.  In a sorted
window no square exceeds those of both ends (`sq_le_of_ends`), so what is written next is not above what was
written before.  `written` records the slots of the writes and is read by no code.
-/

namespace QYInterview.SortedSquares

open RunLogic Swift Sorted

/-! ## The code -/

/-- The variables of the loop, and the slots written so far. -/
structure Filling where
  k : ℤ
  left : ℤ
  right : ℤ
  result : List ℤ
  written : List ℤ
  deriving DecidableEq, Repr

/-- `nums[i] * nums[i]` -/
def square (nums : List ℤ) (i : ℤ) : Prog ℤ := do
  int ((← get nums i) * (← get nums i))

/-- `for _ in 0..<nums.count` -/
def fillBody (nums : List ℤ) (v : Filling) (_ : ℤ) : Prog Filling := do
  if (← square nums v.left) < (← square nums v.right) then
    let result ← set v.result v.k (← square nums v.right)
    return ⟨v.k - 1, v.left, v.right - 1, result, v.written ++ [v.k]⟩
  else
    let result ← set v.result v.k (← square nums v.left)
    return ⟨v.k - 1, v.left + 1, v.right, result, v.written ++ [v.k]⟩

/-- The loop, from an array of `-1`. -/
def fill (nums : List ℤ) : Prog Filling :=
  forRange 0 nums.length (fillBody nums)
    ⟨nums.length - 1, 0, nums.length - 1, List.replicate nums.length (-1), []⟩

namespace QY

def sortedSquares (nums : List ℤ) : Prog (List ℤ) := do
  return (← fill nums).result

end QY

namespace Playground

def sortedSquares (nums : List ℤ) : Prog (List ℤ) := do
  return (← fill nums).result

/-- All squares, sorted. -/
def sortedSquares1 (nums : List ℤ) : Prog (List ℤ) := do
  let newNums ← nums.mapM fun num => int (num * num)
  return sorted newNums

end Playground

/-! ## The loop -/

/-- The square of an element between two others is not above both of their squares. -/
theorem sq_le_of_ends {x y z : ℤ} (hxz : x ≤ z) (hzy : z ≤ y) : z * z ≤ x * x ∨ z * z ≤ y * y := by
  rcases le_total 0 z with hz | hz
  · exact Or.inr (mul_le_mul hzy hzy hz (hz.trans hzy))
  · refine Or.inl ?_
    have hneg := mul_le_mul (neg_le_neg hxz) (neg_le_neg hxz) (neg_nonneg.mpr hz)
      (neg_nonneg.mpr (hxz.trans hz))
    rwa [neg_mul_neg, neg_mul_neg] at hneg

/-- The slots from the last one down to `m`. -/
def slots (n m : ℕ) : List ℤ := ((List.range' m (n - m)).reverse).map fun k : ℕ => (k : ℤ)

theorem slots_succ {n m : ℕ} (h : m < n) : slots n (m + 1) ++ [(m : ℤ)] = slots n m := by
  rw [slots, slots, show n - m = (n - (m + 1)) + 1 by omega, List.range'_succ, List.reverse_cons,
    List.map_append]
  rfl

/-- The window `mid` is still to come; the squares outside it are written, in order and not below those of
the window. -/
structure Filled (nums front mid back : List ℤ) (v : Filling) : Prop where
  split : nums = front ++ mid ++ back
  left : v.left = front.length
  right : v.right = (front.length : ℤ) + mid.length - 1
  k : v.k = (mid.length : ℤ) - 1
  result : ∃ done, v.result = List.replicate mid.length (-1) ++ done ∧ done.Pairwise (· ≤ ·) ∧
    done.Perm ((front ++ back).map fun a => a * a) ∧ ∀ z ∈ mid, ∀ d ∈ done, z * z ≤ d
  written : v.written = slots nums.length mid.length

section Loop

variable {nums front mid back : List ℤ} {v : Filling}

theorem square_eq {i : ℕ} {a : ℤ} (ha : nums[i]? = some a) (h : IsInt (a * a)) :
    square nums i = pure (a * a) := by
  simp only [square, get_eq ha, pure_bind, int_eq h]

/-- The element `z` leaves the window and its square, the largest one left, goes in front of the others. -/
theorem Filled.write (hv : Filled nums front mid back v) (front' mid' back' : List ℤ) {z : ℤ}
    (hsplit : nums = front' ++ mid' ++ back') (hlen : mid.length = mid'.length + 1)
    (hperm : (front' ++ back').Perm (z :: (front ++ back))) (hz : z ∈ mid)
    (hmax : ∀ w ∈ mid', w ∈ mid ∧ w * w ≤ z * z) :
    ∃ result, set v.result v.k (z * z) = pure result ∧
      Filled nums front' mid' back' ⟨v.k - 1, front'.length, front'.length + mid'.length - 1, result,
        v.written ++ [v.k]⟩ := by
  obtain ⟨done, hresult, hsorted, hdone, hle⟩ := hv.result
  have hk : v.k = mid'.length := by
    rw [hv.k, hlen]
    omega
  have hlt : mid'.length < nums.length := by
    rw [hv.split, List.length_append, List.length_append]
    omega
  refine ⟨List.replicate mid'.length (-1) ++ z * z :: done, ?_, hsplit, rfl, rfl, ?_, ?_, ?_⟩
  · rw [hresult, hlen, List.replicate_succ', List.append_assoc]
    exact set_append (by rw [List.length_replicate, hk]) (-1) (z * z) done
  · rw [hk]
  · refine ⟨z * z :: done, rfl, List.pairwise_cons.mpr ⟨fun d hd => hle z hz d hd, hsorted⟩, ?_, ?_⟩
    · exact (hdone.cons (z * z)).trans (hperm.map fun a => a * a).symm
    · rintro w hw d hd
      rcases List.mem_cons.mp hd with rfl | hd
      · exact (hmax w hw).2
      · exact hle w (hmax w hw).1 d hd
  · show v.written ++ [v.k] = slots nums.length mid'.length
    rw [hv.written, hlen, hk, slots_succ hlt]

/-- The two ends of a window that is not empty. -/
structure WindowEnds (nums front mid : List ℤ) (x y : ℤ) (left right : List ℤ) : Prop where
  cons : mid = x :: right
  concat : mid = left ++ [y]
  first : nums[front.length]? = some x
  last : nums[front.length + left.length]? = some y
  between : ∀ w ∈ mid, x ≤ w ∧ w ≤ y

theorem Filled.exists_ends (hv : Filled nums front mid back v) (hsorted : nums.Pairwise (· ≤ ·))
    (hmid : mid ≠ []) :
    ∃ x y left right, WindowEnds nums front mid x y left right := by
  obtain ⟨x, right, hcons⟩ := List.exists_cons_of_ne_nil hmid
  obtain ⟨left, y, hconcat⟩ := (List.eq_nil_or_concat' mid).resolve_left hmid
  have hsub : mid.Pairwise (· ≤ ·) := by
    rw [hv.split] at hsorted
    exact (List.pairwise_append.mp (List.pairwise_append.mp hsorted).1).2.1
  refine ⟨x, y, left, right, hcons, hconcat, ?_, ?_, fun w hw => ⟨?_, ?_⟩⟩
  · rw [hv.split, hcons, List.append_assoc, List.getElem?_append_right le_rfl, Nat.sub_self]
    rfl
  · rw [hv.split, hconcat, List.append_assoc, List.append_assoc, List.getElem?_append_right (by omega),
      Nat.add_sub_cancel_left, List.getElem?_append_right le_rfl, Nat.sub_self]
    rfl
  · rw [hcons] at hsub hw
    rcases List.mem_cons.mp hw with rfl | hw
    · exact le_rfl
    · exact (List.pairwise_cons.mp hsub).1 w hw
  · rw [hconcat] at hsub hw
    exact le_last hsub hw

section Turn

variable {x y : ℤ} {left right : List ℤ}

theorem WindowEnds.length_left (he : WindowEnds nums front mid x y left right) :
    mid.length = left.length + 1 := by
  rw [he.concat, List.length_append, List.length_singleton]

theorem WindowEnds.length_right (he : WindowEnds nums front mid x y left right) :
    mid.length = right.length + 1 := by
  rw [he.cons, List.length_cons]

/-- The element at the right end is taken off. -/
theorem Filled.writeRight (hv : Filled nums front mid back v) (he : WindowEnds nums front mid x y left right)
    (hlt : x * x < y * y) : ∃ result, set v.result v.k (y * y) = pure result ∧
      Filled nums front left (y :: back) ⟨v.k - 1, v.left, v.right - 1, result, v.written ++ [v.k]⟩ := by
  have hmax : ∀ w ∈ left, w ∈ mid ∧ w * w ≤ y * y := by
    intro w hw
    have hw' : w ∈ mid := he.concat ▸ List.mem_append_left _ hw
    obtain ⟨hxw, hwy⟩ := he.between w hw'
    exact ⟨hw', (sq_le_of_ends hxw hwy).elim (fun h => h.trans hlt.le) id⟩
  obtain ⟨result, hset, hv'⟩ := hv.write front left (y :: back) (by rw [hv.split, he.concat]; simp)
    he.length_left List.perm_middle (by rw [he.concat]; simp) hmax
  refine ⟨result, hset, ?_⟩
  have hright : v.right - 1 = front.length + left.length - 1 := by
    rw [hv.right, he.length_left]
    omega
  rwa [hv.left, hright]

/-- The element at the left end is taken off. -/
theorem Filled.writeLeft (hv : Filled nums front mid back v) (he : WindowEnds nums front mid x y left right)
    (hle : y * y ≤ x * x) : ∃ result, set v.result v.k (x * x) = pure result ∧
      Filled nums (front ++ [x]) right back ⟨v.k - 1, v.left + 1, v.right, result, v.written ++ [v.k]⟩ := by
  have hmax : ∀ w ∈ right, w ∈ mid ∧ w * w ≤ x * x := by
    intro w hw
    have hw' : w ∈ mid := he.cons ▸ List.mem_cons_of_mem x hw
    obtain ⟨hxw, hwy⟩ := he.between w hw'
    exact ⟨hw', (sq_le_of_ends hxw hwy).elim id fun h => h.trans hle⟩
  obtain ⟨result, hset, hv'⟩ := hv.write (front ++ [x]) right back (by rw [hv.split, he.cons]; simp)
    he.length_right (by rw [List.append_assoc]; exact List.perm_middle) (by rw [he.cons]; simp) hmax
  refine ⟨result, hset, ?_⟩
  have hleft : v.left + 1 = ((front ++ [x]).length : ℤ) := by
    rw [hv.left, List.length_append, List.length_singleton]
    rfl
  have hright : v.right = ((front ++ [x]).length : ℤ) + right.length - 1 := by
    rw [hv.right, he.length_right, List.length_append, List.length_singleton]
    omega
  rwa [hleft, hright]

end Turn

/-- One turn takes an element off the window. -/
theorem halts_fillBody (hsorted : nums.Pairwise (· ≤ ·)) (hint : ∀ a ∈ nums, IsInt (a * a)) {m : ℕ}
    (hv : Filled nums front mid back v) (hm : mid.length = m + 1) (i : ℤ) :
    Halts (fillBody nums v i) fun v' => ∃ front' mid' back', mid'.length = m ∧
      Filled nums front' mid' back' v' := by
  obtain ⟨x, y, left, right, he⟩ := hv.exists_ends hsorted (List.ne_nil_of_length_eq_add_one hm)
  have hleft := he.length_left
  have hsqx : square nums v.left = pure (x * x) := by
    rw [hv.left]
    exact square_eq he.first (hint x (List.mem_of_getElem? he.first))
  have hsqy : square nums v.right = pure (y * y) := by
    rw [hv.right, hleft,
      show (front.length : ℤ) + (left.length + 1 : ℕ) - 1 = (front.length + left.length : ℕ) by omega]
    exact square_eq he.last (hint y (List.mem_of_getElem? he.last))
  simp only [fillBody, hsqx, hsqy, pure_bind]
  by_cases hlt : x * x < y * y
  · rw [if_pos hlt]
    obtain ⟨result, hset, hv'⟩ := hv.writeRight he hlt
    rw [hset, pure_bind]
    exact halts_pure ⟨front, left, y :: back, by omega, hv'⟩
  · rw [if_neg hlt]
    obtain ⟨result, hset, hv'⟩ := hv.writeLeft he (not_lt.mp hlt)
    have hright := he.length_right
    rw [hset, pure_bind]
    exact halts_pure ⟨front ++ [x], right, back, by omega, hv'⟩

/-- The whole loop: the result is the sorted squares, and the writes go through the slots downwards. -/
theorem halts_fill (hsorted : nums.Pairwise (· ≤ ·)) (hint : ∀ a ∈ nums, IsInt (a * a)) :
    Halts (fill nums) fun v => v.result.Pairwise (· ≤ ·) ∧ v.result.Perm (nums.map fun a => a * a) ∧
      v.written = slots nums.length 0 := by
  have hrun : Halts (fill nums) fun v => ∃ front mid back, mid.length = nums.length - nums.length ∧
      Filled nums front mid back v := by
    refine halts_forRange (Nat.zero_le _) (fun i v => ∃ front mid back, mid.length = nums.length - i ∧
      Filled nums front mid back v) (fun i v _ hi hI => ?_) ⟨[], nums, [], by simp, ?_⟩
    · obtain ⟨front, mid, back, hlen, hv⟩ := hI
      exact halts_fillBody hsorted hint hv (by omega) i
    · refine ⟨by simp, rfl, by simp, rfl, ⟨[], by simp, List.Pairwise.nil, by simp, by simp⟩, ?_⟩
      rw [slots, Nat.sub_self]
      rfl
  apply hrun.mono
  rintro v ⟨front, mid, back, hlen, hv⟩
  rw [Nat.sub_self, List.length_eq_zero_iff] at hlen
  subst hlen
  obtain ⟨done, hresult, hdone, hperm, -⟩ := hv.result
  have hsplit : nums = front ++ back := by simpa using hv.split
  rw [List.length_nil, List.replicate_zero, List.nil_append] at hresult
  rw [hresult, hsplit]
  exact ⟨hdone, hperm, by rw [hv.written, ← hsplit]; rfl⟩

theorem mapM_square : ∀ {l : List ℤ}, (∀ a ∈ l, IsInt (a * a)) →
    l.mapM (fun num => int (num * num)) = (pure (l.map fun a => a * a) : Prog (List ℤ))
  | [], _ => rfl
  | a :: l, h => by
    rw [List.mapM_cons, int_eq (h a List.mem_cons_self), pure_bind,
      mapM_square fun b hb => h b (List.mem_cons_of_mem a hb)]
    rfl

end Loop

/-- The slots written are those of the array, each one once. -/
theorem slots_perm (n : ℕ) : (slots n 0).Perm ((List.range n).map fun k : ℕ => (k : ℤ)) := by
  rw [slots, List.range_eq_range']
  exact (List.reverse_perm _).map _

/-- On a sorted array whose squares are in range, the two loops and the sort give the same array: the squares
in order.  The loop writes each slot once. -/
theorem sortedSquares_spec (nums : List ℤ) (hsorted : nums.Pairwise (· ≤ ·))
    (hint : ∀ a ∈ nums, IsInt (a * a)) :
    ∃ r, Returns (QY.sortedSquares nums) r ∧ Returns (Playground.sortedSquares nums) r ∧
      Returns (Playground.sortedSquares1 nums) r ∧ r.Pairwise (· ≤ ·) ∧ r.Perm (nums.map fun a => a * a) ∧
      ∃ v, Returns (fill nums) v ∧ v.result = r ∧
        v.written.Perm ((List.range nums.length).map fun k : ℕ => (k : ℤ)) := by
  obtain ⟨v, hret, hpair, hperm, hwritten⟩ := halts_fill hsorted hint
  have hresult : Returns (QY.sortedSquares nums) v.result := returns_bind hret (returns_pure _)
  have hsame : sorted (nums.map fun a => a * a) = v.result :=
    ((sorted_perm _).trans hperm.symm).eq_of_pairwise' (pairwise_sorted _) hpair
  refine ⟨v.result, hresult, hresult, ?_, hpair, hperm, v, hret, rfl, hwritten ▸ slots_perm _⟩
  rw [Playground.sortedSquares1, mapM_square hint, pure_bind, hsame]
  exact returns_pure _

theorem sortedSquares_spec_five : ∃ r, Returns (QY.sortedSquares [-4, -1, 0, 1, 10]) r ∧
    Returns (Playground.sortedSquares1 [-4, -1, 0, 1, 10]) r ∧ r.Pairwise (· ≤ ·) ∧
    r.Perm [16, 1, 0, 1, 100] := by
  obtain ⟨r, hr, -, hr', hpair, hperm, -⟩ := sortedSquares_spec [-4, -1, 0, 1, 10] (by decide) (by decide)
  exact ⟨r, hr, hr', hpair, hperm⟩

end QYInterview.SortedSquares
