import QYInterview.Swift

/-!
# FirstBadVersion — the first bad version (`Binary search.playground`)

The search keeps `left` not bad and `right` bad or behind the last version.  The middle is `(left + right) /
2`, and the sum leaves the range of `Int` when `n` is large and `left` comes near it: as long as no bad
version was met, `left` is `reached n j` after `j` queries, and `Fits` says that no sum on this way is too
large.
-/

namespace QYInterview.FirstBadVersion

open RunLogic Swift

/-! ## The code -/

def isBadVersion (firstBad version : ℤ) : Bool := if version ≥ firstBad then true else false

/-- `while left < right - 1`, over `left`, `right`; the versions queried are read by no code. -/
def firstBadVersionTurn (firstBad : ℤ) : ℤ × ℤ × List ℤ → Prog (Turn (ℤ × ℤ × List ℤ) (ℤ × List ℤ))
  | (left, right, queries) => do
    if left < (← int (right - 1)) then
      let mid := (← int (left + right)).tdiv 2
      if isBadVersion firstBad mid then return .next (left, mid, queries ++ [mid])
      else return .next (mid, right, queries ++ [mid])
    else return .exit (right, queries)

/-- The result, and the versions that were queried. -/
def firstBadVersion (firstBad n : ℤ) : Prog (ℤ × List ℤ) := do
  let right ← int (n + 1)
  loop (firstBadVersionTurn firstBad) (0, right, [])

/-! ## The way of `left` -/

/-- `left` after `j` queries without a bad version. -/
def reached (n : ℤ) (j : ℕ) : ℤ := n - n / 2 ^ j

/-- No version `n - n / 2 ^ j` in front of the first bad one and of `n` is too large
to be added to `n + 1`. -/
def Fits (firstBad n : ℤ) : Prop :=
  ∀ j : ℕ, n - n / 2 ^ j < n → n - n / 2 ^ j < firstBad → IsInt (n - n / 2 ^ j + (n + 1))

/-- First bad version found, with queries for existing versions only. -/
def Works (firstBad n : ℤ) : Prop :=
  ∃ queries, Returns (firstBadVersion firstBad n) (min firstBad (n + 1), queries) ∧
    ∀ v ∈ queries, 1 ≤ v ∧ v ≤ n

section Reached

variable {firstBad n : ℤ} {i j : ℕ}

theorem reached_zero (n : ℤ) : reached n 0 = 0 := by
  rw [reached, pow_zero, Int.ediv_one, sub_self]

theorem reached_nonneg (hn : 0 ≤ n) (j : ℕ) : 0 ≤ reached n j := by
  have := Int.ediv_le_self (2 ^ j) hn
  unfold reached
  omega

theorem reached_le (hn : 0 ≤ n) (j : ℕ) : reached n j ≤ n := by
  have := Int.ediv_nonneg hn (show (0 : ℤ) ≤ 2 ^ j by positivity)
  unfold reached
  omega

/-- The middle between `left` and `n + 1`. -/
theorem reached_succ (hn : 0 ≤ n) (j : ℕ) : reached n (j + 1) = (reached n j + (n + 1)).tdiv 2 := by
  have h0 := reached_nonneg hn j
  rw [Int.tdiv_eq_ediv_of_nonneg (by omega)]
  unfold reached
  rw [pow_succ, ← Int.ediv_ediv_of_nonneg (show (0 : ℤ) ≤ 2 ^ j by positivity)]
  omega

theorem reached_mono (hn : 0 ≤ n) (hij : i ≤ j) : reached n i ≤ reached n j := by
  apply monotone_nat_of_le_succ _ hij
  intro k
  have h0 := reached_nonneg hn k
  have hle := reached_le hn k
  rw [reached_succ hn, Int.tdiv_eq_ediv_of_nonneg (by omega)]
  omega

/-- Below half the range nothing can go wrong. -/
theorem fits_of_lt (hn : 0 ≤ n) (hlt : n < 2 ^ 62) : Fits firstBad n := by
  intro j hj _
  have h0 := reached_nonneg hn j
  unfold reached at h0
  unfold IsInt
  omega

end Reached

/-! ## The search -/

section Search

variable {firstBad n left right : ℤ} {queries : List ℤ} {j : ℕ}

/-- No bad version met yet: `left` is on its way, and all sums were in range. -/
def OnWay (firstBad n left right : ℤ) (j : ℕ) : Prop :=
  right = n + 1 ∧ left = reached n j ∧ ∀ i < j, reached n i < n → reached n i < firstBad →
    IsInt (reached n i + (n + 1))

/-- A bad version was met: the sums to come are smaller than the last one. -/
def Turned (firstBad n right : ℤ) : Prop :=
  firstBad ≤ right ∧ right ≤ n ∧ 2 * right < 2 ^ 63 ∧ Fits firstBad n

/-- The first bad version is above `left` and not above `right`. -/
structure Bracket (firstBad n left right : ℤ) (queries : List ℤ) : Prop where
  nonneg : 0 ≤ left
  lt : left < right
  le : right ≤ n + 1
  not_bad : left < firstBad
  queried : ∀ v ∈ queries, 1 ≤ v ∧ v ≤ n
  phase : (∃ j, OnWay firstBad n left right j) ∨ Turned firstBad n right

theorem Bracket.queried_middle (h : Bracket firstBad n left right queries) (hlt : left < right - 1) :
    ∀ v ∈ queries ++ [(left + right).tdiv 2], 1 ≤ v ∧ v ≤ n := by
  have h0 := h.nonneg
  have hle := h.le
  have hmid : (left + right).tdiv 2 = (left + right) / 2 := Int.tdiv_eq_ediv_of_nonneg (by omega)
  exact List.forall_mem_append.mpr ⟨h.queried, List.forall_mem_singleton.mpr (by omega)⟩

/-- A sum in range leads on to the lower half when the middle is bad. -/
theorem Bracket.bad (h : Bracket firstBad n left right queries) (hlt : left < right - 1)
    (hint : IsInt (left + right)) (hbad : firstBad ≤ (left + right).tdiv 2) :
    Bracket firstBad n left ((left + right).tdiv 2) (queries ++ [(left + right).tdiv 2]) := by
  have h0 := h.nonneg
  have hle := h.le
  have hmid : (left + right).tdiv 2 = (left + right) / 2 := Int.tdiv_eq_ediv_of_nonneg (by omega)
  refine ⟨h0, by omega, by omega, h.not_bad, h.queried_middle hlt, Or.inr ⟨hbad, by omega, ?_, ?_⟩⟩
  · have := hint.2
    omega
  · rcases h.phase with ⟨j, rfl, rfl, hway⟩ | hturned
    · intro i hi hb
      rcases Nat.lt_trichotomy i j with hij | rfl | hij
      · exact hway i hij hi hb
      · exact hint
      · -- the middle is bad, so nothing from it on counts
        rw [← reached_succ (by omega)] at hbad
        have hmono := reached_mono (show 0 ≤ n by omega) (show j + 1 ≤ i from hij)
        exact absurd (hbad.trans hmono) (not_le.mpr hb)
    · exact hturned.2.2.2

/-- Else it leads on to the upper half. -/
theorem Bracket.good (h : Bracket firstBad n left right queries) (hlt : left < right - 1)
    (hint : IsInt (left + right)) (hgood : (left + right).tdiv 2 < firstBad) :
    Bracket firstBad n ((left + right).tdiv 2) right (queries ++ [(left + right).tdiv 2]) := by
  have h0 := h.nonneg
  have hle := h.le
  have hmid : (left + right).tdiv 2 = (left + right) / 2 := Int.tdiv_eq_ediv_of_nonneg (by omega)
  refine ⟨by omega, by omega, hle, hgood, h.queried_middle hlt, ?_⟩
  rcases h.phase with ⟨j, rfl, rfl, hway⟩ | hturned
  · refine Or.inl ⟨j + 1, rfl, (reached_succ (by omega) j).symm, ?_⟩
    intro i hi
    rcases Nat.lt_or_eq_of_le (Nat.lt_succ_iff.mp hi) with hij | rfl
    · exact hway i hij
    · exact fun _ _ => hint
  · exact Or.inr hturned

/-- A sum out of range breaks the condition. -/
theorem Bracket.isInt (h : Bracket firstBad n left right queries) (hlt : left < right - 1)
    (hfits : Fits firstBad n) :
    IsInt (left + right) := by
  have h0 := h.nonneg
  rcases h.phase with ⟨j, rfl, rfl, -⟩ | hturned
  · exact hfits j (by unfold reached at hlt; omega) h.not_bad
  · have := hturned.2.2.1
    unfold IsInt
    omega

/-- A closed bracket gives the result, and no sum is left to be formed. -/
theorem Bracket.exit (h : Bracket firstBad n left right queries) (hge : ¬ left < right - 1) :
    right = min firstBad (n + 1) ∧ Fits firstBad n := by
  have h0 := h.nonneg
  have hlt := h.lt
  have hbad := h.not_bad
  have hn : 0 ≤ n := by
    have := h.le
    omega
  rcases h.phase with ⟨j, rfl, rfl, hway⟩ | hturned
  · refine ⟨by omega, ?_⟩
    intro i hi hb
    rcases lt_or_ge i j with hij | hij
    · exact hway i hij hi hb
    · have hmono := reached_mono hn hij
      have hlast : n ≤ reached n j := by omega
      exact absurd (hlast.trans hmono) (not_le.mpr hi)
  · have := hturned.1
    have := hturned.2.1
    exact ⟨by omega, hturned.2.2.2⟩

theorem ends_firstBadVersionTurn (h : Bracket firstBad n left right queries) (hn : n < 2 ^ 63 - 1) :
    Ends (firstBadVersionTurn firstBad (left, right, queries)) (Turn.Good
      (fun s => Bracket firstBad n s.1 s.2.1 s.2.2 ∧ (s.2.1 - s.1).toNat < (right - left).toNat)
      fun r => r.1 = min firstBad (n + 1) ∧ (∀ v ∈ r.2, 1 ≤ v ∧ v ≤ n) ∧ Fits firstBad n)
        (¬ Fits firstBad n) := by
  have h0 := h.nonneg
  have hle := h.le
  have hone : int (right - 1) = pure (right - 1) := int_eq (by have := h.lt; unfold IsInt; omega)
  simp only [firstBadVersionTurn, hone, pure_bind]
  by_cases hlt : left < right - 1
  · rw [if_pos hlt]
    by_cases hint : IsInt (left + right)
    · have hmid : (left + right).tdiv 2 = (left + right) / 2 := Int.tdiv_eq_ediv_of_nonneg (by omega)
      rw [int_eq hint, pure_bind]
      cases hq : isBadVersion firstBad ((left + right).tdiv 2) with
      | true =>
        have hbad : firstBad ≤ (left + right).tdiv 2 := by simpa [isBadVersion] using hq
        exact (halts_pure ⟨h.bad hlt hint hbad, by dsimp only; omega⟩).ends
      | false =>
        have hgood : (left + right).tdiv 2 < firstBad := by simpa [isBadVersion] using hq
        exact (halts_pure ⟨h.good hlt hint hgood, by dsimp only; omega⟩).ends
    · rw [int_eq_trap hint]
      exact ends_trap_bind _ fun hfits => hint (h.isInt hlt hfits)
  · rw [if_neg hlt]
    exact (halts_pure ⟨(h.exit hlt).1, h.queried, (h.exit hlt).2⟩).ends

theorem ends_firstBadVersion (hn : 0 ≤ n) (hn' : n < 2 ^ 63 - 1) (hb : 1 ≤ firstBad) :
    Ends (firstBadVersion firstBad n)
      (fun r => r.1 = min firstBad (n + 1) ∧ (∀ v ∈ r.2, 1 ≤ v ∧ v ≤ n) ∧ Fits firstBad n)
        (¬ Fits firstBad n) := by
  rw [firstBadVersion, int_eq (by unfold IsInt; omega), pure_bind]
  refine ends_loop (fun s : ℤ × ℤ × List ℤ => Bracket firstBad n s.1 s.2.1 s.2.2)
    (fun s => (s.2.1 - s.1).toNat) _ _
    (fun s h => ends_firstBadVersionTurn h hn') _ ?_
  refine ⟨le_rfl, by dsimp only; omega, le_rfl, by dsimp only; omega, by simp,
    Or.inl ⟨0, rfl, (reached_zero n).symm, ?_⟩⟩
  exact fun i hi => absurd hi (Nat.not_lt_zero i)

theorem traps_firstBadVersion (hn : 0 ≤ n) (hn' : n < 2 ^ 63 - 1) (hb : 1 ≤ firstBad)
    (hfits : ¬ Fits firstBad n) :
    Traps (firstBadVersion firstBad n) := by
  rcases ends_firstBadVersion hn hn' hb with ⟨r, -, -, -, h⟩ | ⟨htraps, -⟩
  · exact absurd h hfits
  · exact htraps

end Search

/-- The search finds the first bad version with queries for `1...n` only exactly when all sums on its way
fit; else it is stopped. -/
theorem firstBadVersion_spec (firstBad n : ℤ) (hn : 0 ≤ n) (hn' : n < 2 ^ 63 - 1) (hb : 1 ≤ firstBad) :
    (Works firstBad n ↔ Fits firstBad n) ∧ (¬ Fits firstBad n → Traps (firstBadVersion firstBad n)) := by
  refine ⟨⟨?_, ?_⟩, traps_firstBadVersion hn hn' hb⟩
  · rintro ⟨queries, hret, -⟩
    by_contra hfits
    exact (traps_firstBadVersion hn hn' hb hfits).not_returns hret
  · intro hfits
    obtain ⟨⟨r, queries⟩, hret, rfl, hqueries, -⟩ :=
      (ends_firstBadVersion hn hn' hb).resolve_right fun h => h.2 hfits
    exact ⟨queries, hret, hqueries⟩

/-- Sixteen versions, as in the playground. -/
theorem firstBadVersion_spec_sixteen : Works 9 16 :=
  (firstBadVersion_spec 9 16 (by decide) (by decide) (by decide)).1.mpr (fits_of_lt (by decide) (by decide))

/-- The sum of the second turn is out of range. -/
theorem firstBadVersion_overflow :
    Traps (firstBadVersion (2 ^ 63 - 2) (2 ^ 63 - 2)) ∧ ¬ Works (2 ^ 63 - 2) (2 ^ 63 - 2) := by
  have hfits : ¬ Fits (2 ^ 63 - 2) (2 ^ 63 - 2) := fun h => by
    have hsum := h 1 (by decide) (by decide)
    exact absurd hsum (by decide)
  have htraps : Traps (firstBadVersion (2 ^ 63 - 2) (2 ^ 63 - 2)) :=
    traps_firstBadVersion (by decide) (by decide) (by decide) hfits
  exact ⟨htraps, fun ⟨_, hret, _⟩ => htraps.not_returns hret⟩

end QYInterview.FirstBadVersion
