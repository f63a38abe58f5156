import Mathlib.Tactic
import Mathlib.Data.Finset.Card

/-!
# Spiral — the clockwise numbering of a square

The cells of an `n × n` square are numbered from 1, ring by ring from the outside: ring `s` begins behind the
`base n s` cells of the rings around it and has four sides of `n - 1 - 2 * s` cells.  `number_top` to
`number_left` give the numbers along the four sides, and every number from 1 to `n * n` is that of one cell
(`existsUnique_number`).
-/

namespace Spiral

/-- The ring of a cell, from the outside. -/
def ring (n r c : ℕ) : ℕ := min (min r c) (min (n - 1 - r) (n - 1 - c))

/-- The number of cells in the rings around ring `s`. -/
def base (n s : ℕ) : ℕ := 4 * s * (n - s)

/-- The number of the cell in row `r` and column `c`. -/
def number (n r c : ℕ) : ℕ :=
  let s := ring n r c
  let m := n - 1 - 2 * s
  if r = s then base n s + (c - s) + 1
  else if c = n - 1 - s then base n s + m + (r - s) + 1
  else if r = n - 1 - s then base n s + 2 * m + (n - 1 - s - c) + 1
  else base n s + 3 * m + (n - 1 - s - r) + 1

section Base

variable {n s s' : ℕ}

@[simp] theorem base_zero (n : ℕ) : base n 0 = 0 := by simp [base]

theorem base_succ (h : 2 * s + 1 ≤ n) : base n (s + 1) = base n s + 4 * (n - 1 - 2 * s) := by
  obtain ⟨m, rfl⟩ := Nat.exists_eq_add_of_le h
  unfold base
  rw [show 2 * s + 1 + m - (s + 1) = s + m by omega, show 2 * s + 1 + m - s = s + 1 + m by omega,
    show 2 * s + 1 + m - 1 - 2 * s = m by omega]
  ring_nf

theorem base_mono (hle : s ≤ s') (h : 2 * s' ≤ n) : base n s ≤ base n s' := by
  induction s', hle using Nat.le_induction with
  | base => exact le_rfl
  | succ s' _ ih =>
    rw [base_succ (by omega)]
    exact (ih (by omega)).trans (Nat.le_add_right _ _)

/-- All rings but a centre cell. -/
theorem base_half (n : ℕ) : base n (n / 2) + n % 2 = n * n := by
  rcases Nat.even_or_odd' n with ⟨h, rfl | rfl⟩
  · rw [Nat.mul_div_cancel_left h two_pos, Nat.mul_mod_right]
    unfold base
    rw [show 2 * h - h = h by omega]
    ring
  · rw [show (2 * h + 1) / 2 = h by omega, show (2 * h + 1) % 2 = 1 by omega]
    unfold base
    rw [show 2 * h + 1 - h = h + 1 by omega]
    ring

end Base

/-! ## The four sides of a ring -/

section Sides

variable {n s r c : ℕ}

theorem number_top (h1 : s ≤ c) (h2 : c ≤ n - 1 - s) : number n s c = base n s + (c - s) + 1 := by
  have hring : ring n s c = s := by
    unfold ring
    omega
  simp only [number, hring]
  rw [if_pos trivial]

theorem number_right (hs : 2 * s + 1 ≤ n) (h1 : s ≤ r) (h2 : r ≤ n - 1 - s) :
    number n r (n - 1 - s) = base n s + (n - 1 - 2 * s) + (r - s) + 1 := by
  have hring : ring n r (n - 1 - s) = s := by
    unfold ring
    omega
  simp only [number, hring]
  split_ifs <;> omega

theorem number_bottom (hs : 2 * s + 1 ≤ n) (h1 : s ≤ c) (h2 : c ≤ n - 1 - s) :
    number n (n - 1 - s) c = base n s + 2 * (n - 1 - 2 * s) + (n - 1 - s - c) + 1 := by
  have hring : ring n (n - 1 - s) c = s := by
    unfold ring
    omega
  simp only [number, hring]
  split_ifs <;> omega

theorem number_left (hs : 2 * s + 1 ≤ n) (h1 : s < r) (h2 : r ≤ n - 1 - s) :
    number n r s = base n s + 3 * (n - 1 - 2 * s) + (n - 1 - s - r) + 1 := by
  have hring : ring n r s = s := by
    unfold ring
    omega
  simp only [number, hring]
  split_ifs <;> omega

end Sides

/-! ## Every number once -/

section Numbering

variable {n r c r' c' : ℕ}

theorem ring_le (hr : r < n) (hc : c < n) : 2 * ring n r c + 1 ≤ n := by
  unfold ring
  omega

/-- The cell `t` steps behind the corner of ring `s`, whose sides have `m` cells. -/
def OnRing (n s m t r c : ℕ) : Prop :=
  (t ≤ m ∧ r = s ∧ c = s + t) ∨ (m < t ∧ t ≤ 2 * m ∧ c = n - 1 - s ∧ r = s + (t - m)) ∨
    (2 * m < t ∧ t ≤ 3 * m ∧ r = n - 1 - s ∧ c = n - 1 - s - (t - 2 * m)) ∨
    (3 * m < t ∧ t < 4 * m ∧ c = s ∧ r = n - 1 - s - (t - 3 * m))

theorem OnRing.unique {s m t : ℕ} (h : OnRing n s m t r c) (h' : OnRing n s m t r' c') : r = r' ∧ c = c' := by
  rcases h with h | h | h | h <;> rcases h' with h' | h' | h' | h' <;> omega

theorem exists_onRing (hr : r < n) (hc : c < n) : ∃ t, number n r c = base n (ring n r c) + t + 1 ∧
    OnRing n (ring n r c) (n - 1 - 2 * ring n r c) t r c := by
  have hs : ring n r c ≤ r ∧ ring n r c ≤ c ∧ ring n r c ≤ n - 1 - r ∧ ring n r c ≤ n - 1 - c := by
    unfold ring
    omega
  have hside : r = ring n r c ∨ c = n - 1 - ring n r c ∨ r = n - 1 - ring n r c ∨ c = ring n r c := by
    unfold ring
    omega
  unfold number
  generalize ring n r c = s at hs hside ⊢
  dsimp only
  split_ifs with h1 h2 h3
  · exact ⟨c - s, rfl, Or.inl (by omega)⟩
  · exact ⟨n - 1 - 2 * s + (r - s), by omega, Or.inr (Or.inl (by omega))⟩
  · exact ⟨2 * (n - 1 - 2 * s) + (n - 1 - s - c), by omega, Or.inr (Or.inr (Or.inl (by omega)))⟩
  · exact ⟨3 * (n - 1 - 2 * s) + (n - 1 - s - r), by omega, Or.inr (Or.inr (Or.inr (by omega)))⟩

/-- The numbers of a ring that is not a single cell. -/
theorem number_bounds (hr : r < n) (hc : c < n) : base n (ring n r c) < number n r c ∧
    (2 * ring n r c + 1 < n → number n r c ≤ base n (ring n r c + 1)) := by
  obtain ⟨t, hnum, hring⟩ := exists_onRing hr hc
  refine ⟨by omega, ?_⟩
  intro hm
  rw [hnum, base_succ hm.le]
  unfold OnRing at hring
  omega

/-- The centre cell of an odd square has the last number. -/
theorem number_centre {s : ℕ} (h : n = 2 * s + 1) : number n s s = n * n := by
  rw [number_top le_rfl (by omega), Nat.sub_self, Nat.add_zero, ← base_half n, show n / 2 = s by omega,
    show n % 2 = 1 by omega]

theorem number_mem (hr : r < n) (hc : c < n) : 1 ≤ number n r c ∧ number n r c ≤ n * n := by
  obtain ⟨hlow, hhigh⟩ := number_bounds hr hc
  refine ⟨by omega, ?_⟩
  by_cases hm : 2 * ring n r c + 1 < n
  · have hhalf := base_half n
    have hle : base n (ring n r c + 1) ≤ base n (n / 2) := base_mono (by omega) (by omega)
    have := hhigh hm
    omega
  · have hs := ring_le hr hc
    have hrow : r = ring n r c := by
      unfold ring at hm hs ⊢
      omega
    have hcol : c = r := by
      unfold ring at hm hs
      omega
    rw [hcol, number_centre]
    rw [hcol] at hm hs hrow
    omega

/-- A cell of an inner ring has a greater number. -/
theorem number_lt_of_ring_lt (hr : r < n) (hc : c < n) (hr' : r' < n) (hc' : c' < n)
    (h : ring n r c < ring n r' c') :
    number n r c < number n r' c' := by
  have hs' := ring_le hr' hc'
  calc number n r c ≤ base n (ring n r c + 1) := (number_bounds hr hc).2 (by omega)
    _ ≤ base n (ring n r' c') := base_mono h (by omega)
    _ < number n r' c' := (number_bounds hr' hc').1

theorem number_inj (hr : r < n) (hc : c < n) (hr' : r' < n) (hc' : c' < n)
    (h : number n r c = number n r' c') :
    r = r' ∧ c = c' := by
  have hring : ring n r c = ring n r' c' := by
    rcases Nat.lt_trichotomy (ring n r c) (ring n r' c') with hlt | heq | hlt
    · exact absurd h (number_lt_of_ring_lt hr hc hr' hc' hlt).ne
    · exact heq
    · exact absurd h (number_lt_of_ring_lt hr' hc' hr hc hlt).ne'
  obtain ⟨t, hnum, ht⟩ := exists_onRing hr hc
  obtain ⟨t', hnum', ht'⟩ := exists_onRing hr' hc'
  rw [← hring] at hnum' ht'
  obtain rfl : t = t' := by omega
  exact ht.unique ht'

/-- Every number is that of exactly one cell. -/
theorem existsUnique_number {k : ℕ} (h1 : 1 ≤ k) (hk : k ≤ n * n) :
    ∃! p : ℕ × ℕ, (p.1 < n ∧ p.2 < n) ∧ number n p.1 p.2 = k := by
  have hinj : Set.InjOn (fun p : ℕ × ℕ => number n p.1 p.2)
      (Finset.range n ×ˢ Finset.range n : Finset (ℕ × ℕ)) := by
    rintro ⟨r, c⟩ hp ⟨r', c'⟩ hp' heq
    simp only [Finset.coe_product, Finset.coe_range, Set.mem_prod, Set.mem_Iio] at hp hp'
    obtain ⟨rfl, rfl⟩ := number_inj hp.1 hp.2 hp'.1 hp'.2 heq
    rfl
  have himage : (Finset.range n ×ˢ Finset.range n).image (fun p : ℕ × ℕ => number n p.1 p.2) =
      Finset.Icc 1 (n * n) := by
    apply Finset.eq_of_subset_of_card_le
    · intro k hk
      obtain ⟨⟨r, c⟩, hp, rfl⟩ := Finset.mem_image.mp hk
      rw [Finset.mem_product, Finset.mem_range, Finset.mem_range] at hp
      exact Finset.mem_Icc.mpr (number_mem hp.1 hp.2)
    · rw [Finset.card_image_of_injOn hinj, Finset.card_product, Finset.card_range, Nat.card_Icc,
        Nat.add_sub_cancel]
  have hmem : k ∈ Finset.Icc 1 (n * n) := Finset.mem_Icc.mpr ⟨h1, hk⟩
  rw [← himage] at hmem
  obtain ⟨⟨r, c⟩, hp, rfl⟩ := Finset.mem_image.mp hmem
  rw [Finset.mem_product, Finset.mem_range, Finset.mem_range] at hp
  refine ⟨(r, c), ⟨hp, rfl⟩, ?_⟩
  rintro ⟨r', c'⟩ ⟨hp', heq⟩
  obtain ⟨rfl, rfl⟩ := number_inj hp'.1 hp'.2 hp.1 hp.2 heq
  rfl

end Numbering

end Spiral
