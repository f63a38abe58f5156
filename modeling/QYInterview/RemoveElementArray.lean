import QYInterview.Swift

/-!
# RemoveElementArray — a value taken out of an array in place (`RemoveElementArrayController.swift`)

The slow index writes behind the elements kept so far and never gets in front of the fast one, so from the
slow index on the array is as it was.
-/

namespace QYInterview.RemoveElementArray

open RunLogic Swift

/-! ## The code -/

/-- `for fastIndex in 0..<nums.count`, over `nums`, `slowIndex`. -/
def removeBody (val : ℤ) : List ℤ × ℤ → ℤ → Prog (List ℤ × ℤ)
  | (nums, slowIndex), fastIndex => do
    if val ≠ (← get nums fastIndex) then
      if slowIndex ≠ fastIndex then
        let nums ← set nums slowIndex (← get nums fastIndex)
        return (nums, slowIndex + 1)
      else return (nums, slowIndex + 1)
    else return (nums, slowIndex)

/-- The array, and the index returned. -/
def removeElement (nums : List ℤ) (val : ℤ) : Prog (List ℤ × ℤ) :=
  forRange 0 nums.length (removeBody val) (nums, 0)

/-! ## What is kept -/

section Kept

variable {val : ℤ} {nums : List ℤ} {j : ℕ}

/-- The elements kept of the first `j`. -/
def kept (val : ℤ) (nums : List ℤ) (j : ℕ) : List ℤ := (nums.take j).filter (· ≠ val)

/-- After `j` turns: the kept elements, and from the slow index on the old array. -/
def Compacted (val : ℤ) (nums : List ℤ) (j : ℕ) (s : List ℤ × ℤ) : Prop :=
  s = (kept val nums j ++ nums.drop (kept val nums j).length, ((kept val nums j).length : ℤ))

theorem length_kept_le (val : ℤ) (nums : List ℤ) (j : ℕ) : (kept val nums j).length ≤ j :=
  (List.length_filter_le _ _).trans (List.length_take_le j nums)

theorem kept_succ (val : ℤ) {x : ℤ} (hx : nums[j]? = some x) :
    kept val nums (j + 1) = if x ≠ val then kept val nums j ++ [x] else kept val nums j := by
  rw [kept, kept, List.take_add_one, hx, Option.toList_some, List.filter_append, List.filter_singleton]
  by_cases h : x = val
  · simp [h]
  · simp [h]

/-- No turn has written where the fast index reads. -/
theorem get_compacted {x : ℤ} (hx : nums[j]? = some x) :
    get (kept val nums j ++ nums.drop (kept val nums j).length) j = pure x := by
  have hle := length_kept_le val nums j
  apply get_eq
  rw [List.getElem?_append_right hle, List.getElem?_drop, Nat.add_sub_cancel' hle, hx]

/-- The write at the slow index. -/
theorem set_compacted {x : ℤ} (hj : j < nums.length) :
    set (kept val nums j ++ nums.drop (kept val nums j).length) (kept val nums j).length x =
      pure (kept val nums j ++ [x] ++ nums.drop (kept val nums j ++ [x]).length) := by
  have hlt : (kept val nums j).length < nums.length := (length_kept_le val nums j).trans_lt hj
  rw [List.drop_eq_getElem_cons hlt, set_append rfl, List.length_append, List.length_singleton,
    ← List.append_cons]

/-- Without a write, when the slow index is at the fast one. -/
theorem compacted_same {x : ℤ} (hx : nums[j]? = some x) (hsame : (kept val nums j).length = j) :
    kept val nums j ++ nums.drop (kept val nums j).length =
      kept val nums j ++ [x] ++ nums.drop (kept val nums j ++ [x]).length := by
  obtain ⟨hj, rfl⟩ := List.getElem?_eq_some_iff.mp hx
  rw [List.length_append, List.length_singleton, hsame, List.drop_eq_getElem_cons hj, List.append_cons]

theorem Compacted.step {s : List ℤ × ℤ} (h : Compacted val nums j s) (hj : j < nums.length) :
    Halts (removeBody val s j) (Compacted val nums (j + 1)) := by
  subst h
  have hx := List.getElem?_eq_getElem hj
  have hkept := kept_succ val hx
  simp only [removeBody, get_compacted hx, pure_bind]
  by_cases hval : nums[j] = val
  · rw [if_neg (not_not.mpr hval.symm)]
    rw [if_neg (not_not.mpr hval)] at hkept
    refine halts_pure ?_
    unfold Compacted
    rw [hkept]
  · rw [if_pos (Ne.symm hval)]
    rw [if_pos hval] at hkept
    have hnext : Compacted val nums (j + 1)
      (kept val nums j ++ [nums[j]] ++ nums.drop (kept val nums j ++ [nums[j]]).length,
        ((kept val nums j).length : ℤ) + 1) := by
      rw [Compacted, hkept, cast_length_concat]
    by_cases hsame : (kept val nums j).length = j
    · rw [if_neg (by rw [hsame]; simp), compacted_same hx hsame]
      exact halts_pure hnext
    · rw [if_pos (by exact_mod_cast hsame), set_compacted hj, pure_bind]
      exact halts_pure hnext

end Kept

/-- The kept elements, in order, and behind them the old array. -/
theorem removeElement_spec (nums : List ℤ) (val : ℤ) : ∃ (k : ℕ) (nums' : List ℤ),
    Returns (removeElement nums val) (nums', (k : ℤ)) ∧ nums'.length = nums.length ∧ k ≤ nums.length ∧
      nums'.take k = nums.filter (· ≠ val) ∧ ∀ i, k ≤ i → nums'[i]? = nums[i]? := by
  have hloop : Halts (removeElement nums val) (Compacted val nums nums.length) :=
    halts_forRange (Nat.zero_le _) (Compacted val nums) (fun j s _ hj h => h.step hj)
      (by simp [Compacted, kept])
  obtain ⟨_, hret, rfl⟩ := hloop
  have hall : kept val nums nums.length = nums.filter (· ≠ val) := by rw [kept, List.take_length]
  have hle := length_kept_le val nums nums.length
  refine ⟨_, _, hret, ?_, hle, ?_, ?_⟩
  · rw [List.length_append, List.length_drop, Nat.add_sub_cancel' hle]
  · rw [List.take_left, hall]
  · intro i hi
    rw [List.getElem?_append_right hi, List.getElem?_drop, Nat.add_sub_cancel' hi]

end QYInterview.RemoveElementArray
