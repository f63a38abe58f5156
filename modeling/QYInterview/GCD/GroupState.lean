import Mathlib.Tactic

/-!
# GCD.GroupState — the state word of a dispatch group

`dg_state` of `semaphore_internal.h` packs a generation (bits 32–63), minus the number of times the group was
entered (bits 2–31) and two flags.  `dispatch_group_enter` counts downward on the low 32 bits alone, while
`dispatch_group_leave` counts upward on all 64, so that the carry of the last leave moves the generation on.
 The lemmas say what each operation of `semaphore.c` does to the four fields.
-/

namespace QYInterview.GCD.GroupState

/-! ## The code -/

/-- `DISPATCH_GROUP_VALUE_MASK`, which is `DISPATCH_GROUP_VALUE_1` too. -/
def valueMask : BitVec 64 := 0x00000000fffffffc

/-- `DISPATCH_GROUP_VALUE_INTERVAL`, which is `DISPATCH_GROUP_VALUE_MAX` too. -/
def valueInterval : BitVec 64 := 0x0000000000000004

def hasNotifs : BitVec 64 := 0x0000000000000002

def hasWaiters : BitVec 64 := 0x0000000000000001

/-- `_dg_state_value`: the number of times the group was entered. -/
def dgStateValue (dgState : BitVec 64) : ℕ :=
  ((-(dgState.setWidth 32 &&& valueMask.setWidth 32)) >>> 2).toNat

/-- `_dg_state_gen` -/
def dgStateGen (dgState : BitVec 64) : BitVec 32 := (dgState >>> 32).setWidth 32

/-- The word after `os_atomic_sub_orig2o(dg, dg_bits, DISPATCH_GROUP_VALUE_INTERVAL)`. -/
def subBits (dgState : BitVec 64) : BitVec 64 :=
  dgState.extractLsb' 32 32 ++ (dgState.setWidth 32 - valueInterval.setWidth 32)

/-- The first word of a group that has been entered `n` times. -/
def withCount (n : ℕ) : BitVec 64 := 0#32 ++ (-(BitVec.ofNat 32 n) * valueInterval.setWidth 32)

/-- What the loop of `dispatch_group_leave` makes of the word. -/
def cleared (dgState : BitVec 64) : BitVec 64 :=
  if dgState &&& valueMask = 0 then dgState &&& ~~~hasWaiters &&& ~~~hasNotifs else dgState &&& ~~~hasNotifs

/-! ## The fields -/

/-- Generation and value. -/
def upper (w : BitVec 64) : ℕ := w.toNat / 4

def notifs (w : BitVec 64) : Bool := w.getLsbD 1

def waiters (w : BitVec 64) : Bool := w.getLsbD 0

variable (w m : BitVec 64)

theorem notifs_eq : notifs w = decide (w.toNat / 2 % 2 = 1) := by
  rw [notifs, BitVec.getLsbD, Nat.testBit_eq_decide_div_mod_eq, pow_one]

theorem waiters_eq : waiters w = decide (w.toNat % 2 = 1) := by
  rw [waiters, BitVec.getLsbD, Nat.testBit_eq_decide_div_mod_eq, pow_zero, Nat.div_one]

/-- The four fields are the word. -/
theorem eq_of_fields {w w' : BitVec 64} (hu : upper w' = upper w) (hn : notifs w' = notifs w)
    (hw : waiters w' = waiters w) : w' = w := by
  rw [notifs_eq, notifs_eq, decide_eq_decide] at hn
  rw [waiters_eq, waiters_eq, decide_eq_decide] at hw
  rw [upper, upper] at hu
  exact BitVec.eq_of_toNat_eq (by omega)

theorem flags_of_mod {w w' : BitVec 64} (h : w'.toNat % 4 = w.toNat % 4) :
    notifs w' = notifs w ∧ waiters w' = waiters w := by
  rw [notifs_eq, notifs_eq, waiters_eq, waiters_eq, decide_eq_decide, decide_eq_decide]
  omega

theorem upper_lt : upper w < 2 ^ 62 := by
  have := w.isLt
  rw [upper]
  omega

theorem and_valueMask : (w &&& valueMask).toNat = upper w % 2 ^ 30 * 4 := by
  have hdiv : (w.toNat &&& valueMask.toNat) / 2 ^ 2 = upper w % 2 ^ 30 := by
    rw [Nat.and_div_two_pow]
    exact Nat.and_two_pow_sub_one_eq_mod _ 30
  have hmod : (w.toNat &&& valueMask.toNat) % 2 ^ 2 = 0 := by
    rw [Nat.and_mod_two_pow]
    exact Nat.and_zero _
  rw [BitVec.toNat_and]
  omega

theorem dgStateGen_eq : (dgStateGen w).toNat = upper w / 2 ^ 30 := by
  have := w.isLt
  rw [dgStateGen, BitVec.toNat_setWidth, BitVec.toNat_ushiftRight, Nat.shiftRight_eq_div_pow, upper]
  omega

theorem dgStateValue_eq : dgStateValue w = (2 ^ 30 - upper w % 2 ^ 30) % 2 ^ 30 := by
  have hmask : w.setWidth 32 &&& valueMask.setWidth 32 = (w &&& valueMask).setWidth 32 :=
    BitVec.setWidth_and.symm
  have hand := and_valueMask w
  rw [dgStateValue, hmask, BitVec.toNat_ushiftRight, BitVec.toNat_neg, BitVec.toNat_setWidth, hand,
    Nat.shiftRight_eq_div_pow]
  omega

theorem and_valueMask_eq_zero : w &&& valueMask = 0 ↔ dgStateValue w = 0 := by
  rw [← BitVec.toNat_inj, and_valueMask, dgStateValue_eq]
  show _ = 0 ↔ _
  omega

theorem setWidth_and_valueMask : ((w &&& valueMask).setWidth 32).toNat = upper w % 2 ^ 30 * 4 := by
  have hand := and_valueMask w
  rw [BitVec.toNat_setWidth, hand]
  omega

/-- The values that the calls test for. -/
theorem isMax_iff :
    w.setWidth 32 &&& valueMask.setWidth 32 = valueInterval.setWidth 32 ↔ dgStateValue w = 2 ^ 30 - 1 := by
  rw [← BitVec.setWidth_and, ← BitVec.toNat_inj, setWidth_and_valueMask, dgStateValue_eq]
  show _ = 4 ↔ _
  omega

theorem isOne_iff : (w &&& valueMask).setWidth 32 = valueMask.setWidth 32 ↔ dgStateValue w = 1 := by
  rw [← BitVec.toNat_inj, setWidth_and_valueMask, dgStateValue_eq]
  show _ = 4294967292 ↔ _
  omega

theorem isZero_iff : (w &&& valueMask).setWidth 32 = 0 ↔ dgStateValue w = 0 := by
  rw [← BitVec.toNat_inj, setWidth_and_valueMask, dgStateValue_eq]
  show _ = 0 ↔ _
  omega

theorem dgStateValue_lt : dgStateValue w < 2 ^ 30 := by
  rw [dgStateValue_eq]
  exact Nat.mod_lt _ (by omega)

/-- Two words with the same generation and value agree outside the flags. -/
theorem fields_of_upper {w w' : BitVec 64} (h : upper w' = upper w) :
    dgStateGen w' = dgStateGen w ∧ dgStateValue w' = dgStateValue w := by
  refine ⟨BitVec.eq_of_toNat_eq ?_, ?_⟩
  · rw [dgStateGen_eq, dgStateGen_eq, h]
  · rw [dgStateValue_eq, dgStateValue_eq, h]

variable {m}

/-- Setting a flag. -/
theorem upper_or (hm : m.toNat < 4) : upper (w ||| m) = upper w := by
  have := Nat.or_div_two_pow (a := w.toNat) (b := m.toNat) (n := 2)
  rw [upper, BitVec.toNat_or, upper, show (4 : ℕ) = 2 ^ 2 from rfl, this, Nat.div_eq_of_lt hm, Nat.or_zero]

/-- Clearing a flag. -/
theorem upper_and_not (hm : m.toNat < 4) : upper (w &&& ~~~m) = upper w := by
  have hdiv := Nat.and_div_two_pow (a := w.toNat) (b := (~~~m).toNat) (n := 2)
  have hnot : (~~~m).toNat / 2 ^ 2 = 2 ^ 62 - 1 := by
    rw [BitVec.toNat_not]
    omega
  have := w.isLt
  rw [upper, BitVec.toNat_and, upper, show (4 : ℕ) = 2 ^ 2 from rfl, hdiv, hnot,
    Nat.and_two_pow_sub_one_eq_mod]
  omega

theorem setWaiters : upper (w ||| hasWaiters) = upper w ∧ notifs (w ||| hasWaiters) = notifs w ∧
    waiters (w ||| hasWaiters) = true := by
  refine ⟨upper_or w (by decide), ?_, ?_⟩
  · simp [notifs, hasWaiters]
  · simp [waiters, hasWaiters]

theorem setNotifs : upper (w ||| hasNotifs) = upper w ∧ notifs (w ||| hasNotifs) = true ∧
    waiters (w ||| hasNotifs) = waiters w := by
  refine ⟨upper_or w (by decide), ?_, ?_⟩
  · simp [notifs, hasNotifs]
  · simp [waiters, hasNotifs]

theorem and_hasWaiters : w &&& hasWaiters = 0 ↔ waiters w = false := by
  rw [show hasWaiters = BitVec.twoPow 64 0 from rfl, BitVec.and_twoPow, waiters]
  cases w.getLsbD 0 <;> decide

theorem and_hasNotifs : w &&& hasNotifs = 0 ↔ notifs w = false := by
  rw [show hasNotifs = BitVec.twoPow 64 1 from rfl, BitVec.and_twoPow, notifs]
  cases w.getLsbD 1 <;> decide

/-- `(uint32_t)dg_state == 0`: the group is empty and has neither notifications nor waiters. -/
theorem setWidth_eq_zero : w.setWidth 32 = 0 ↔ dgStateValue w = 0 ∧ notifs w = false ∧ waiters w = false := by
  rw [← BitVec.toNat_inj, BitVec.toNat_setWidth, dgStateValue_eq, notifs_eq, waiters_eq,
    decide_eq_false_iff_not, decide_eq_false_iff_not, upper]
  show _ = 0 ↔ _
  omega

/-- The loop of a leave clears the notifications, and the waiters when the group is still empty. -/
theorem upper_cleared : upper (cleared w) = upper w := by
  rw [cleared]
  split_ifs
  · rw [upper_and_not _ (by decide), upper_and_not _ (by decide)]
  · exact upper_and_not _ (by decide)

theorem notifs_cleared : notifs (cleared w) = false := by
  rw [cleared]
  split_ifs <;> simp [notifs, hasNotifs, hasWaiters]

theorem waiters_cleared : waiters (cleared w) = (decide (dgStateValue w ≠ 0) && waiters w) := by
  rw [cleared]
  split_ifs with h
  · simp [waiters, hasNotifs, hasWaiters, (and_valueMask_eq_zero w).mp h]
  · simp [waiters, hasNotifs, mt (and_valueMask_eq_zero w).mpr h]

/-- The word is left as it is when there is nothing to clear. -/
theorem eq_cleared : w = cleared w ↔ notifs w = false ∧ (dgStateValue w = 0 → waiters w = false) := by
  have hn := notifs_cleared w
  have hw := waiters_cleared w
  constructor
  · intro h
    rw [← h] at hn hw
    refine ⟨hn, fun hv => ?_⟩
    rw [hw, hv]
    rfl
  · rintro ⟨hn', hw'⟩
    refine eq_of_fields (upper_cleared w).symm (hn'.trans hn.symm) ?_
    rw [hw]
    by_cases hv : dgStateValue w = 0
    · rw [hw' hv, Bool.and_false]
    · rw [decide_eq_true hv, Bool.true_and]

/-- A leave counts one up, which may carry into the generation. -/
theorem add_valueInterval : upper (w + valueInterval) = (upper w + 1) % 2 ^ 62 ∧
    notifs (w + valueInterval) = notifs w ∧ waiters (w + valueInterval) = waiters w := by
  have hadd : (w + valueInterval).toNat = (w.toNat + 4) % 2 ^ 64 := BitVec.toNat_add _ _
  refine ⟨?_, flags_of_mod (by omega)⟩
  rw [upper, hadd, upper]
  omega

/-- A leave that is not the last one. -/
theorem add_of_lt (h : 1 < dgStateValue w) : dgStateValue (w + valueInterval) = dgStateValue w - 1 ∧
    dgStateGen (w + valueInterval) = dgStateGen w := by
  have hu := (add_valueInterval w).1
  have := upper_lt w
  rw [← BitVec.toNat_inj, dgStateGen_eq, dgStateGen_eq]
  rw [dgStateValue_eq] at h
  rw [dgStateValue_eq, dgStateValue_eq, hu]
  omega

/-- The last leave moves the generation on. -/
theorem add_of_one (h : dgStateValue w = 1) : dgStateValue (w + valueInterval) = 0 ∧
    dgStateGen (w + valueInterval) = dgStateGen w + 1 := by
  have hu := (add_valueInterval w).1
  have := upper_lt w
  rw [← BitVec.toNat_inj, BitVec.toNat_add, dgStateGen_eq, dgStateGen_eq]
  rw [dgStateValue_eq] at h
  rw [dgStateValue_eq, hu]
  show _ ∧ _ = (_ + 1) % 2 ^ 32
  omega

theorem toNat_append {hi lo : BitVec 32} : (hi ++ lo).toNat = hi.toNat * 2 ^ 32 + lo.toNat := by
  rw [BitVec.toNat_append, ← Nat.shiftLeft_add_eq_or_of_lt lo.isLt, Nat.shiftLeft_eq]

/-- An enter leaves the generation as it is. -/
theorem subBits_of_lt (h : dgStateValue w < 2 ^ 30 - 1) : dgStateValue (subBits w) = dgStateValue w + 1 ∧
    dgStateGen (subBits w) = dgStateGen w ∧ notifs (subBits w) = notifs w ∧
    waiters (subBits w) = waiters w := by
  have hsub : (subBits w).toNat = w.toNat / 2 ^ 32 * 2 ^ 32 + (2 ^ 32 - 4 + w.toNat % 2 ^ 32) % 2 ^ 32 := by
    have := w.isLt
    rw [subBits, toNat_append, BitVec.extractLsb'_toNat, BitVec.toNat_sub, BitVec.toNat_setWidth,
      Nat.shiftRight_eq_div_pow, Nat.mod_eq_of_lt (by omega)]
    rfl
  rw [dgStateValue_eq] at h
  rw [← BitVec.toNat_inj, dgStateGen_eq, dgStateGen_eq, dgStateValue_eq, dgStateValue_eq]
  refine ⟨?_, ?_, flags_of_mod (by omega)⟩
  all_goals
    simp only [upper] at h ⊢
    rw [hsub]
    omega

theorem withCount_of_lt {n : ℕ} (h : n < 2 ^ 30) :
    dgStateValue (withCount n) = n ∧ dgStateGen (withCount n) = 0 ∧
    notifs (withCount n) = false ∧ waiters (withCount n) = false := by
  have hcount : (withCount n).toNat = (2 ^ 32 - n) % 2 ^ 32 * 4 % 2 ^ 32 := by
    have hn : (BitVec.ofNat 32 n).toNat = n := by rw [BitVec.toNat_ofNat, Nat.mod_eq_of_lt (by omega)]
    rw [withCount, toNat_append, BitVec.toNat_mul, BitVec.toNat_neg, hn]
    exact Nat.zero_add _
  rw [← BitVec.toNat_inj, dgStateGen_eq, dgStateValue_eq, notifs_eq, waiters_eq, upper, hcount,
    decide_eq_false_iff_not, decide_eq_false_iff_not]
  show _ ∧ _ = 0 ∧ _
  omega

end QYInterview.GCD.GroupState
