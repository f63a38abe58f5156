import QYInterview.ThreeSum

/-!
# FourSum — four elements with a given sum

`FourSumController` of the Algorithm app: `fourSum` sorts, fixes two elements and scans the rest of the array
with two pointers, skipping equal elements at every level.  The scan starts from `nums[i] - nums[j]`, not
from the sum of the two, so it lists the quadruples with `a - b + c + d = target` (`fourSumQuads`), and the
sums it takes may leave the `Int` range where those of four elements do not.  `fourSum_spec` says when it
lists the quadruples it should all the same.
-/

namespace QYInterview.FourSum

open RunLogic Swift PairScan Sorted Collect
open ThreeSum (exists_get skipLeftTurn skipRightTurn halts_skipLeft halts_skipRight)

/-! ## The code -/

/-- `while left < right` -/
def fourSumTurn (nums : List ℤ) (target i j partSum : ℤ) :
    ℤ × ℤ × List (List ℤ) → Prog (Turn (ℤ × ℤ × List (List ℤ)) (List (List ℤ)))
  | (left, right, array) =>
    if left < right then do
      let sum ← int (partSum + (← get nums left))
      let sum ← int (sum + (← get nums right))
      if sum = target then
        let quad := [← get nums i, ← get nums j, ← get nums left, ← get nums right]
        let left ← loop (skipLeftTurn nums right) left
        let right ← loop (skipRightTurn nums left) right
        return .next (left + 1, right - 1, array ++ [quad])
      else if sum < target then return .next (left + 1, right, array)
      else return .next (left, right - 1, array)
    else return .exit array

/-- `p > lo && nums[p] == nums[p - 1]` -/
def isRepeated (nums : List ℤ) (lo p : ℤ) : Prog Bool :=
  if p > lo then do return (← get nums p) == (← get nums (p - 1)) else return false

/-- The body of `for j in (i+1)..<nums.count - 2`. -/
def secondFrom (nums : List ℤ) (target i : ℤ) (array : List (List ℤ)) (j : ℤ) : Prog (List (List ℤ)) := do
  if ← isRepeated nums (i + 1) j then return array
  else
    let partSum ← int ((← get nums i) - (← get nums j))
    loop (fourSumTurn nums target i j partSum) (j + 1, (nums.length : ℤ) - 1, array)

/-- The body of `for i in 0..<nums.count - 3`. -/
def firstFrom (nums : List ℤ) (target : ℤ) (array : List (List ℤ)) (i : ℤ) : Prog (List (List ℤ)) := do
  if ← isRepeated nums 0 i then return array
  else forRange (i + 1) ((nums.length : ℤ) - 2) (secondFrom nums target i) array

def fourSum (nums : List ℤ) (target : ℤ) : Prog (List (List ℤ)) :=
  if nums = [] ∨ nums.length < 4 then return []
  else do
    let nums := sorted nums
    forRange 0 ((nums.length : ℤ) - 3) (firstFrom nums target) []

/-! ## What it should list and what it lists -/

/-- The quadruples `a ≤ b ≤ c ≤ d` with sum `target` at four positions of `nums`. -/
def quads (nums : List ℤ) (target : ℤ) : Set (List ℤ) :=
  {t | ∃ a b c d, t = [a, b, c, d] ∧ a ≤ b ∧ b ≤ c ∧ c ≤ d ∧ [a, b, c, d].Subperm nums ∧
    a + b + c + d = target}

/-- The same with the second element subtracted. -/
def fourSumQuads (nums : List ℤ) (target : ℤ) : Set (List ℤ) :=
  {t | ∃ a b c d, t = [a, b, c, d] ∧ a ≤ b ∧ b ≤ c ∧ c ≤ d ∧ [a, b, c, d].Subperm nums ∧
    a - b + c + d = target}

/-- `r` lists the members of `S`, each once. -/
def Lists (S : Set (List ℤ)) (r : List (List ℤ)) : Prop := r.Nodup ∧ ∀ t, t ∈ r ↔ t ∈ S

/-- The elements are of type `Int`, and no sum of four of them leaves its range. -/
structure InRange (nums : List ℤ) : Prop where
  element : ∀ a ∈ nums, IsInt a
  sum : ∀ a b c d, [a, b, c, d].Subperm nums → IsInt (a + b + c + d)

/-- The scan for the elements at `i` and `j` of the sorted array stays in the `Int` range. -/
def InRangeAt (ys : List ℤ) (target : ℤ) (i j : ℕ) : Prop :=
  ∀ a b, ys[i]? = some a → ys[j]? = some b →
    IsInt (a - b) ∧ SumsOk ys (target - (a - b)) (j + 1) fun s => IsInt (a - b + s)

/-- All the scans stay in the `Int` range. -/
def ScansInRange (ys : List ℤ) (target : ℤ) : Prop :=
  ∀ i j, i + 3 < ys.length → ¬ Repeated ys 0 i → i < j → j + 2 < ys.length → ¬ Repeated ys (i + 1) j →
    InRangeAt ys target i j

/-- In all quadruples with sum `target`, with or without the second element subtracted,
that element is `0`. -/
def SecondZero (nums : List ℤ) (target : ℤ) : Prop :=
  ∀ a b c d, a ≤ b → b ≤ c → c ≤ d → [a, b, c, d].Subperm nums →
    a + b + c + d = target ∨ a - b + c + d = target → b = 0

/-! ## The scan for two fixed elements -/

section Scan

variable {nums ys : List ℤ} {target : ℤ} {i j l r : ℕ} {a b c d : ℤ}

/-- Elements at four positions of the sorted array are elements at four positions of the array. -/
theorem subperm_of_getElem? (hp : ys.Perm nums) (hij : i < j) (hjl : j < l) (hlr : l < r)
    (ha : ys[i]? = some a) (hb : ys[j]? = some b) (hc : ys[l]? = some c) (hd : ys[r]? = some d) :
    [a, b, c, d].Subperm nums :=
  hp.subperm_left.mp (quadruple_sublist_iff.mpr ⟨i, j, l, r, hij, hjl, hlr, ha, hb, hc, hd⟩).subperm

/-- The sum of a scan never leaves the range downwards, and only at its last step upwards. -/
theorem InRange.scan (h : InRange nums) (hp : ys.Perm nums) (hs : ys.Pairwise (· ≤ ·)) (hij : i < j)
    (hjl : j < l) (hlr : l < r) (ha : ys[i]? = some a) (hb : ys[j]? = some b) (hc : ys[l]? = some c)
    (hd : ys[r]? = some d) :
    IsInt (a - b + c) ∧ -2 ^ 63 ≤ a - b + (c + d) := by
  have hsum := h.sum a b c d (subperm_of_getElem? hp hij hjl hlr ha hb hc hd)
  have hia := h.element a (hp.subset (List.mem_of_getElem? ha))
  have hic := h.element c (hp.subset (List.mem_of_getElem? hc))
  have hab : a ≤ b := le_of_sorted hs hij.le ha hb
  have hbc : b ≤ c := le_of_sorted hs hjl.le hb hc
  have hcd : c ≤ d := le_of_sorted hs hlr.le hc hd
  unfold IsInt at *
  constructor
  · omega
  · rcases le_or_gt b 0 with hneg | hpos
    · omega
    · omega

theorem okUpTo (h : InRange nums) (ht : IsInt target) (hp : ys.Perm nums) (hs : ys.Pairwise (· ≤ ·))
    (hij : i < j) (ha : ys[i]? = some a) (hb : ys[j]? = some b) :
    OkUpTo ys (target - (a - b)) (j + 1) fun s => IsInt (a - b + s) := by
  intro l r c d hjl hlr hc hd hle
  have hlow := (h.scan hp hs hij hjl hlr ha hb hc hd).2
  have htop := ht.2
  exact ⟨hlow, by omega⟩

theorem injective_quad (a b : ℤ) : Function.Injective fun v : ℤ × ℤ => [a, b, v.1, v.2] := by
  rintro ⟨c, d⟩ ⟨c', d'⟩ h
  simpa using h

/-- The scan appends the quadruples of the pairs it meets, each once, and takes the sums of two pointers
that go past copies. -/
theorem fourSum_mayStop (h : InRange nums) (ht : IsInt target) (hp : ys.Perm nums) (hs : ys.Pairwise (· ≤ ·))
    (hij : i < j) (ha : ys[i]? = some a) (hb : ys[j]? = some b) (array : List (List ℤ)) :
    MayStop ys (target - (a - b)) (fourSumTurn ys target i j (a - b)) (fun s => s.1) (fun s => s.2.1)
      (fun F s => ((j + 1 : ℕ) : ℤ) ≤ s.1 ∧
        Reach ys (target - (a - b)) (j + 1) (fun s => IsInt (a - b + s)) s.1 s.2.1 ∧
        Gathered ys (fun v => [a, b, v.1, v.2]) array F s.2.2 s.1 s.2.1)
      (fun F res => SumsOk ys (target - (a - b)) (j + 1) (fun s => IsInt (a - b + s)) ∧
        Adds array ((fun v => [a, b, v.1, v.2]) '' F) res)
      (¬ SumsOk ys (target - (a - b)) (j + 1) fun s => IsInt (a - b + s)) where
  exit := by
    rintro F ⟨left, right, s⟩ ⟨-, hreach, hgath⟩ hle
    simp only [fourSumTurn, if_neg (not_lt.mpr hle)]
    exact Halts.ends (halts_pure ⟨hreach.sumsOk (okUpTo h ht hp hs hij ha hb) hle, hgath.adds⟩)
  step := by
    rintro F ⟨left, right, s⟩ l r c d ⟨hlo, hreach, hgath⟩ rfl rfl hlr hc hd
    have hjl : j + 1 ≤ l := Int.ofNat_le.mp hlo
    have hok := okUpTo h ht hp hs hij ha hb
    have hr := (List.getElem?_eq_some_iff.mp hd).1
    simp only [fourSumTurn, if_pos (show (l : ℤ) < r by omega), get_eq ha, get_eq hb, get_eq hc, get_eq hd,
      pure_bind, int_eq (h.scan hp hs hij hjl hlr ha hb hc hd).1]
    by_cases hint : IsInt (a - b + (c + d))
    · rw [add_assoc (a - b), int_eq hint, pure_bind]
      rcases lt_trichotomy (a - b + (c + d)) target with hlt | heq | hgt
      · rw [if_neg hlt.ne, if_pos hlt]
        exact Halts.ends (halts_pure (Or.inl ⟨by omega, rfl, rfl, by dsimp only; omega,
          hreach.low hs hok hlr hc hd (by omega), hgath.shrink (by dsimp only; omega) le_rfl⟩))
      · rw [if_pos heq]
        refine Halts.ends (halts_bind ((halts_skipLeft hlr.le hr hc).mono ?_))
        intro left hleft
        obtain ⟨l', rfl, hll, hlr', hc', hnext⟩ := hleft
        refine halts_bind ((halts_skipRight hlr' hr hd).mono ?_)
        intro right hright
        obtain ⟨r', rfl, hlr'', hrr, hd', hprev⟩ := hright
        exact halts_pure (Or.inr
          (Or.inr ⟨by omega, l', r', hll, hrr, hc', hd', rfl, rfl, by dsimp only; omega,
          hreach.hit hs hok hjl hc hd (by omega) hc' hrr hd' hprev,
          hgath.insert hs (injective_quad a b) hlr hc hrr hc' hnext⟩))
      · rw [if_neg hgt.ne', if_neg hgt.not_gt]
        exact Halts.ends (halts_pure (Or.inr (Or.inl ⟨by omega, rfl, rfl, hlo,
          hreach.high hok hjl hc hd (by omega) hint, hgath.shrink le_rfl (by dsimp only; omega)⟩)))
    · rw [add_assoc (a - b), int_eq_trap hint]
      exact ends_trap_bind _ (hreach.not_sumsOk hjl hlr hc hd hint)

end Scan

/-! ## The loops over the fixed elements -/

section Loops

variable {nums ys : List ℤ} {target : ℤ} {i j : ℕ}

theorem exists_isRepeated (lo : ℕ) {p : ℕ} (hp : p < ys.length) :
    ∃ rep, isRepeated ys lo p = pure rep ∧ (rep = true ↔ Repeated ys lo p) := by
  by_cases hlt : lo < p
  · obtain ⟨m, rfl⟩ := Nat.exists_eq_add_of_le' (show 1 ≤ p by omega)
    obtain ⟨same, hsame, hiff⟩ := exists_eq_before hp
    refine ⟨same, (if_pos (by omega)).trans hsame, ?_⟩
    rw [hiff, repeated_succ_iff, and_iff_right (by omega)]
  · refine ⟨false, if_neg (by omega), iff_of_false Bool.false_ne_true ?_⟩
    rintro ⟨m, hlo, rfl, -⟩
    omega

/-- A loop that passes over repeated elements and appends what starts at the others appends all that starts
anywhere, each once. -/
theorem ends_skipping {lo hi : ℕ} {From : ℕ → Set (List ℤ)} {Fine : ℕ → Prop}
    {body : List (List ℤ) → ℤ → Prog (List (List ℤ))} (hle : lo ≤ hi) (hlen : hi ≤ ys.length)
    (hs : ys.Pairwise (· ≤ ·)) (hfrom : Starts ys lo From)
    (hbody : ∀ p s, lo ≤ p → p < hi →
      Ends (body s (p : ℤ)) (fun s' => Fine p ∧ Adds s (From p) s') (¬ Fine p)) (array : List (List ℤ)) :
    Ends (forRange lo hi (fun s p => do if ← isRepeated ys lo p then return s else body s p) array)
      (fun s => (∀ p, lo ≤ p → p < hi → ¬ Repeated ys lo p → Fine p) ∧ Adds array (startsIn From lo hi) s)
      (¬ ∀ p, lo ≤ p → p < hi → ¬ Repeated ys lo p → Fine p) := by
  refine ends_forRange hle (fun n s => (∀ p, lo ≤ p → p < n → ¬ Repeated ys lo p → Fine p) ∧
    Adds array (startsIn From lo n) s) _ (fun n s hlo hhi hI => ?_) ⟨fun p h1 h2 => absurd h2 (by omega), ?_⟩
  · obtain ⟨hfine, hadds⟩ := hI
    obtain ⟨rep, hrep, hiff⟩ := exists_isRepeated lo (show n < ys.length by omega)
    simp only [hrep, pure_bind]
    cases rep with
    | true =>
      have hrepeated := hiff.mp rfl
      exact Halts.ends (halts_pure
        ⟨(forall_new_succ hlo).mpr ⟨hfine, absurd hrepeated⟩, hfrom.pass hrepeated hadds⟩)
    | false =>
      have hnot : ¬ Repeated ys lo n := fun hr => Bool.false_ne_true (hiff.mpr hr)
      refine (hbody n s hlo hhi).mono (fun s' hs' => ?_) fun hbad hall => hbad (hall n hlo hhi hnot)
      exact ⟨(forall_new_succ hlo).mpr ⟨hfine, fun _ => hs'.1⟩, hfrom.add hs hlo hnot hadds hs'.2⟩
  · exact (adds_empty array).congr fun t => iff_of_false (Set.notMem_empty t) (startsIn_self t)

/-- The quadruples a scan for the elements at `i` and `j` finds. -/
def secondStarts (ys : List ℤ) (target : ℤ) (i j : ℕ) : Set (List ℤ) :=
  {t | ∃ a b v, ys[i]? = some a ∧ ys[j]? = some b ∧
    v ∈ pairs ys (target - (a - b)) ((j : ℤ) + 1) ((ys.length : ℤ) - 1) ∧ t = [a, b, v.1, v.2]}

theorem starts_second (i : ℕ) : Starts ys (i + 1) (secondStarts ys target i) where
  value := by
    rintro p q t ⟨a, b, v, -, hb, -, ht⟩ ⟨a', b', v', -, hb', -, ht'⟩
    obtain rfl : b = b' := (List.cons.inj (List.cons.inj (ht.symm.trans ht')).2).1
    exact hb.trans hb'.symm
  before := by
    rintro m t - heq ⟨a, b, v, ha, hb, ⟨p, q, hlo, hrest⟩, ht⟩
    exact ⟨a, b, v, ha, heq.trans hb, ⟨p, q, by push_cast at hlo; omega, hrest⟩, ht⟩

/-- The quadruples the loop over `j` finds for the element at `i`. -/
def firstStarts (ys : List ℤ) (target : ℤ) (i : ℕ) : Set (List ℤ) :=
  startsIn (secondStarts ys target i) (i + 1) (ys.length - 2)

theorem starts_first : Starts ys 0 (firstStarts ys target) where
  value := by
    rintro p q t ⟨j, -, -, a, b, v, ha, -, -, ht⟩ ⟨j', -, -, a', b', v', ha', -, -, ht'⟩
    obtain rfl : a = a' := (List.cons.inj (ht.symm.trans ht')).1
    exact ha.trans ha'.symm
  before := by
    rintro m t - heq ⟨j, hlo, hhi, a, b, v, ha, hrest⟩
    exact ⟨j, by omega, hhi, a, b, v, heq.trans ha, hrest⟩

variable (h : InRange nums) (ht : IsInt target) (hp : ys.Perm nums) (hs : ys.Pairwise (· ≤ ·))

include h ht hp hs

/-- The scan for the elements at `i` and `j`. -/
theorem ends_second (hij : i < j) (hj : j < ys.length) (array : List (List ℤ)) :
    Ends (do
        let partSum ← int ((← get ys (i : ℤ)) - (← get ys (j : ℤ)))
        loop (fourSumTurn ys target i j partSum) ((j : ℤ) + 1, (ys.length : ℤ) - 1, array))
      (fun s => InRangeAt ys target i j ∧ Adds array (secondStarts ys target i j) s)
      (¬ InRangeAt ys target i j) := by
  obtain ⟨a, ha⟩ := exists_get (show i < ys.length by omega)
  obtain ⟨b, hb⟩ := exists_get hj
  have hat : InRangeAt ys target i j ↔
      IsInt (a - b) ∧ SumsOk ys (target - (a - b)) (j + 1) fun s => IsInt (a - b + s) := by
    refine ⟨fun hall => hall a b ha hb, ?_⟩
    intro hab a' b' ha' hb'
    obtain rfl := Option.some.inj (ha.symm.trans ha')
    obtain rfl := Option.some.inj (hb.symm.trans hb')
    exact hab
  simp only [get_eq ha, get_eq hb, pure_bind]
  by_cases hint : IsInt (a - b)
  · rw [int_eq hint, pure_bind]
    refine ((fourSum_mayStop h ht hp hs hij ha hb array).ends hs (show (0 : ℤ) ≤ j + 1 by omega)
      (show (ys.length : ℤ) - 1 < ys.length by omega)
      ⟨le_rfl, reach_start, gathered_empty ys _ array _ _⟩).mono (fun s hs' => ?_) fun hbad hall => ?_
    · refine ⟨hat.mpr ⟨hint, hs'.1⟩, hs'.2.congr ?_⟩
      intro t
      constructor
      · rintro ⟨v, hv, rfl⟩
        exact ⟨a, b, v, ha, hb, hv, rfl⟩
      · rintro ⟨a', b', v, ha', hb', hv, rfl⟩
        obtain rfl := Option.some.inj (ha.symm.trans ha')
        obtain rfl := Option.some.inj (hb.symm.trans hb')
        exact ⟨v, hv, rfl⟩
    · exact hbad (hat.mp hall).2
  · rw [int_eq_trap hint]
    exact ends_trap_bind _ fun hall => hint (hat.mp hall).1

/-- The loop over `j`. -/
theorem ends_first (hi : i + 3 < ys.length) (array : List (List ℤ)) :
    Ends (forRange ((i : ℤ) + 1) ((ys.length : ℤ) - 2) (secondFrom ys target i) array)
      (fun s => (∀ j, i + 1 ≤ j → j < ys.length - 2 → ¬ Repeated ys (i + 1) j → InRangeAt ys target i j) ∧
        Adds array (firstStarts ys target i) s)
      (¬ ∀ j, i + 1 ≤ j → j < ys.length - 2 → ¬ Repeated ys (i + 1) j → InRangeAt ys target i j) := by
  rw [show (ys.length : ℤ) - 2 = ((ys.length - 2 : ℕ) : ℤ) by omega]
  exact ends_skipping (by omega) (by omega) hs (starts_second i)
    (fun j s hij hj => ends_second h ht hp hs hij (by omega) s) array

omit h ht hp hs in
theorem pairwise_quad {a b c d : ℤ} (hab : a ≤ b) (hbc : b ≤ c) (hcd : c ≤ d) :
    [a, b, c, d].Pairwise (· ≤ ·) := by
  simp [hab, hbc, hcd, hab.trans hbc, hbc.trans hcd, hab.trans (hbc.trans hcd)]

omit h ht in
/-- The quadruples the loops find. -/
theorem mem_starts_iff (t : List ℤ) :
    t ∈ startsIn (firstStarts ys target) 0 (ys.length - 3) ↔ t ∈ fourSumQuads nums target := by
  constructor
  · rintro ⟨i, -, -, j, hij, -, a, b, ⟨c, d⟩, ha, hb, ⟨l, r, hjl, hlr, -, hc, hd, hsum⟩, rfl⟩
    dsimp only at hc hd hsum
    exact ⟨a, b, c, d, rfl, le_of_sorted hs (by omega) ha hb, le_of_sorted hs (by omega) hb hc,
      le_of_sorted hs hlr.le hc hd,
      subperm_of_getElem? hp (by omega) (by omega) hlr ha hb hc hd, by omega⟩
  · rintro ⟨a, b, c, d, rfl, hab, hbc, hcd, hsub, hsum⟩
    obtain ⟨i, j, l, r, hij, hjl, hlr, ha, hb, hc, hd⟩ := quadruple_sublist_iff.mp
      (List.sublist_of_subperm_of_pairwise (hp.subperm_left.mpr hsub) (pairwise_quad hab hbc hcd) hs)
    have hr := (List.getElem?_eq_some_iff.mp hd).1
    exact ⟨i, Nat.zero_le i, by omega, j, hij, by omega, a, b, (c, d), ha, hb,
      ⟨l, r, by omega, hlr, by omega, hc, hd, by dsimp only; omega⟩, rfl⟩

end Loops

/-- `fourSum` lists the quadruples with the second element subtracted, each once,
unless a sum leaves the range. -/
theorem ends_fourSum {nums : List ℤ} {target : ℤ} (h : InRange nums) (ht : IsInt target) :
    Ends (fourSum nums target)
      (fun r => ScansInRange (sorted nums) target ∧ Lists (fourSumQuads nums target) r)
      (¬ ScansInRange (sorted nums) target) := by
  have hp := sorted_perm nums
  have hs := pairwise_sorted nums
  have hlen := hp.length_eq
  unfold fourSum
  by_cases hshort : nums = [] ∨ nums.length < 4
  · rw [if_pos hshort]
    have hlt : nums.length < 4 := by
      rcases hshort with rfl | hlt
      · exact Nat.zero_lt_succ 3
      · exact hlt
    refine Halts.ends (halts_pure ⟨fun i j hi => absurd hi (by omega), List.nodup_nil, ?_⟩)
    intro t
    refine iff_of_false List.not_mem_nil ?_
    rintro ⟨a, b, c, d, -, -, -, -, hsub, -⟩
    exact absurd hsub.length_le (not_le.mpr hlt)
  · rw [if_neg hshort]
    show Ends (forRange 0 (((sorted nums).length : ℤ) - 3) (firstFrom (sorted nums) target) []) _ _
    have hscans : ScansInRange (sorted nums) target ↔ ∀ i, 0 ≤ i → i < (sorted nums).length - 3 →
        ¬ Repeated (sorted nums) 0 i → ∀ j, i + 1 ≤ j → j < (sorted nums).length - 2 →
          ¬ Repeated (sorted nums) (i + 1) j → InRangeAt (sorted nums) target i j :=
      ⟨fun hall i _ hi hri j hij hj hrj => hall i j (by omega) hri hij (by omega) hrj,
        fun hall i j hi hri hij hj hrj => hall i (Nat.zero_le i) (by omega) hri j hij (by omega) hrj⟩
    rw [hscans, show ((sorted nums).length : ℤ) - 3 = (((sorted nums).length - 3 : ℕ) : ℤ) by omega]
    refine (ends_skipping (Nat.zero_le _) (Nat.sub_le _ 3) hs starts_first
      (fun i s _ hi => ends_first h ht hp hs (by omega) s) []).mono (fun r hr => ⟨hr.1, ?_⟩) id
    exact adds_nil_iff.mp (hr.2.congr (mem_starts_iff hp hs))

/-- A run that lists the quadruples it should stays in the range, and lists those it lists. -/
theorem quads_eq_of_halts {nums : List ℤ} {target : ℤ} (h : InRange nums) (ht : IsInt target)
    (hlists : Halts (fourSum nums target) (Lists (quads nums target))) :
    ScansInRange (sorted nums) target ∧ ∀ t, t ∈ quads nums target ↔ t ∈ fourSumQuads nums target := by
  obtain ⟨r, hr, hmem⟩ := hlists
  rcases ends_fourSum h ht with ⟨r', hr', hscans, hmem'⟩ | ⟨htraps, -⟩
  · obtain rfl := hr.unique hr'
    exact ⟨hscans, fun t => (hmem.2 t).symm.trans (hmem'.2 t)⟩
  · exact absurd hr htraps.not_returns

theorem secondZero_iff {nums : List ℤ} {target : ℤ} :
    SecondZero nums target ↔ ∀ t, t ∈ quads nums target ↔ t ∈ fourSumQuads nums target := by
  constructor
  · intro hzero t
    constructor
    · rintro ⟨a, b, c, d, rfl, hab, hbc, hcd, hsub, hsum⟩
      have hb := hzero a b c d hab hbc hcd hsub (Or.inl hsum)
      exact ⟨a, b, c, d, rfl, hab, hbc, hcd, hsub, by omega⟩
    · rintro ⟨a, b, c, d, rfl, hab, hbc, hcd, hsub, hsum⟩
      have hb := hzero a b c d hab hbc hcd hsub (Or.inr hsum)
      exact ⟨a, b, c, d, rfl, hab, hbc, hcd, hsub, by omega⟩
  · intro heq a b c d hab hbc hcd hsub hsum
    have hboth : a + b + c + d = target ∧ a - b + c + d = target := by
      rcases hsum with hsum | hsum
      · obtain ⟨a', b', c', d', heq', -, -, -, -, hsum'⟩ :=
          (heq [a, b, c, d]).mp ⟨a, b, c, d, rfl, hab, hbc, hcd, hsub, hsum⟩
        cases heq'
        exact ⟨hsum, hsum'⟩
      · obtain ⟨a', b', c', d', heq', -, -, -, -, hsum'⟩ :=
          (heq [a, b, c, d]).mpr ⟨a, b, c, d, rfl, hab, hbc, hcd, hsub, hsum⟩
        cases heq'
        exact ⟨hsum', hsum⟩
    omega

/-- `fourSum` lists the quadruples `a ≤ b ≤ c ≤ d` with sum `target` at four positions of the array, each
once, just when the sums it takes stay in the `Int` range and its second element does not matter. -/
theorem fourSum_spec (nums : List ℤ) (target : ℤ) (h : InRange nums) (ht : IsInt target) :
    Halts (fourSum nums target) (Lists (quads nums target)) ↔
      ScansInRange (sorted nums) target ∧ SecondZero nums target := by
  rw [secondZero_iff]
  constructor
  · exact quads_eq_of_halts h ht
  · rintro ⟨hscans, heq⟩
    rcases ends_fourSum h ht with hhalts | ⟨-, hbad⟩
    · exact hhalts.mono fun r hr => ⟨hr.2.1, fun t => (hr.2.2 t).trans (heq t).symm⟩
    · exact absurd hscans hbad

/-- Small elements never lead out of range. -/
theorem inRange_of_le {nums : List ℤ} (hsmall : ∀ a ∈ nums, -2 ^ 60 ≤ a ∧ a ≤ 2 ^ 60) : InRange nums := by
  constructor
  · intro a ha
    have := hsmall a ha
    unfold IsInt
    omega
  · intro a b c d hsub
    have h1 := hsmall a (hsub.subset (by simp))
    have h2 := hsmall b (hsub.subset (by simp))
    have h3 := hsmall c (hsub.subset (by simp))
    have h4 := hsmall d (hsub.subset (by simp))
    unfold IsInt
    omega

theorem scansInRange_of_le {ys : List ℤ} {target : ℤ} (hsmall : ∀ a ∈ ys, -2 ^ 60 ≤ a ∧ a ≤ 2 ^ 60) :
    ScansInRange ys target := by
  intro i j _ _ _ _ _ a b ha hb
  have h1 := hsmall a (List.mem_of_getElem? ha)
  have h2 := hsmall b (List.mem_of_getElem? hb)
  refine ⟨by unfold IsInt; omega, ?_⟩
  intro l r _ _ c d hc hd _
  have h3 := hsmall c (List.mem_of_getElem? hc)
  have h4 := hsmall d (List.mem_of_getElem? hd)
  show IsInt (a - b + (c + d))
  unfold IsInt
  omega

/-- A pair of opposite elements around two zeros. -/
theorem fourSum_spec_four : Halts (fourSum [1, 0, -1, 0] 0) (Lists (quads [1, 0, -1, 0] 0)) := by
  have hsmall : ∀ a ∈ ([1, 0, -1, 0] : List ℤ), -2 ^ 60 ≤ a ∧ a ≤ 2 ^ 60 := by decide
  refine (fourSum_spec [1, 0, -1, 0] 0 (inRange_of_le hsmall) (by decide)).mpr
    ⟨scansInRange_of_le fun a ha => hsmall a ((sorted_perm _).subset ha), ?_⟩
  intro a b c d hab hbc hcd hsub _
  have hp : [a, b, c, d].Perm [-1, 0, 0, 1] :=
    (hsub.perm_of_length_le (by simp)).trans (by decide)
  have heq := hp.eq_of_pairwise' (pairwise_quad hab hbc hcd)
    (pairwise_quad (by decide) (by decide) (by decide))
  exact (List.cons.inj (List.cons.inj heq).2).1

/-- The example of the source: of its three quadruples the first is not listed. -/
theorem not_fourSum_six :
    InRange [1, 0, -1, 0, -2, 2] ∧ IsInt 0 ∧
      ¬ Halts (fourSum [1, 0, -1, 0, -2, 2] 0) (Lists (quads [1, 0, -1, 0, -2, 2] 0)) := by
  have hrange : InRange [1, 0, -1, 0, -2, 2] := inRange_of_le (by decide)
  refine ⟨hrange, by decide, ?_⟩
  intro hlists
  have hsub : [-2, -1, 1, 2].Subperm [1, 0, -1, 0, -2, 2] := by decide
  obtain ⟨a, b, c, d, heq, -, -, -, -, hsum⟩ :=
    ((quads_eq_of_halts hrange (by decide) hlists).2 [-2, -1, 1, 2]).mp
    ⟨-2, -1, 1, 2, rfl, by decide, by decide, by decide, hsub, by decide⟩
  cases heq
  exact absurd hsum (by decide)

end QYInterview.FourSum
