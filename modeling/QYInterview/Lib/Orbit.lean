import Mathlib.Tactic
import Mathlib.Data.Fintype.EquivFin
import Mathlib.Logic.Function.Iterate

/-!
# Orbit — the rho shape of an orbit in a finite type

`Rho f x t p`: the orbit `x, f x, f (f x), …` has a tail of `t` values followed by a cycle of `p`
values, all `t + p` of them distinct.  Every orbit in a finite type has this shape (`exists_rho`).
`Rho.eq_iff` decides when two positions hold the same value; `Rho.meet_iff` and `Rho.restart_iff` are
its two cases used by a search with one and two moves a turn.
-/

namespace Orbit

universe u

variable {β : Type u} {f : β → β} {x : β} {t p : ℕ}

/-- A tail of `t` values, then a cycle of `p` values. -/
structure Rho (f : β → β) (x : β) (t p : ℕ) : Prop where
  pos : 0 < p
  closes : f^[t + p] x = f^[t] x
  fresh : ∀ i j, i < j → j < t + p → f^[i] x ≠ f^[j] x

/-- The first position whose value was seen before closes the rho. -/
theorem exists_rho [Finite β] (f : β → β) (x : β) : ∃ t p, Rho f x t p := by
  classical
  have hex : ∃ j, ∃ i < j, f^[i] x = f^[j] x := by
    obtain ⟨i, j, hne, heq⟩ := Finite.exists_ne_map_eq_of_infinite fun n : ℕ => f^[n] x
    rcases Nat.lt_or_gt_of_ne hne with h | h
    · exact ⟨j, i, h, heq⟩
    · exact ⟨i, j, h, heq.symm⟩
  obtain ⟨i, hij, heq⟩ := Nat.find_spec hex
  refine ⟨i, Nat.find hex - i, by omega, ?_, fun a b hab hb h => ?_⟩
  · rw [show i + (Nat.find hex - i) = Nat.find hex by omega, heq]
  · exact Nat.find_min hex (by omega) ⟨a, hab, h⟩

namespace Rho

variable (h : Rho f x t p)
include h

theorem add_period {n : ℕ} (hn : t ≤ n) : f^[n + p] x = f^[n] x := by
  obtain ⟨d, rfl⟩ := Nat.exists_eq_add_of_le' hn
  rw [show d + t + p = d + (t + p) by omega, Function.iterate_add_apply, h.closes,
    ← Function.iterate_add_apply]

theorem add_mul_period {n : ℕ} (hn : t ≤ n) (k : ℕ) : f^[n + k * p] x = f^[n] x := by
  induction k with
  | zero => simp
  | succ k ih =>
    rw [show n + (k + 1) * p = n + k * p + p by ring, h.add_period (by omega), ih]

/-- The position below `t + p` that holds the same value as `n`. -/
theorem reduce (n : ℕ) : t ≤ n → f^[n] x = f^[t + (n - t) % p] x := by
  intro hn
  have hdiv := Nat.mod_add_div (n - t) p
  have hsplit : n = t + (n - t) % p + (n - t) / p * p := by
    rw [Nat.mul_comm]; omega
  conv_lhs => rw [hsplit]
  exact h.add_mul_period (by omega) _

/-- Two positions hold the same value iff both are on the cycle, a multiple of `p` apart. -/
theorem eq_iff {i j : ℕ} (hij : i < j) : f^[i] x = f^[j] x ↔ t ≤ i ∧ p ∣ j - i := by
  have hp := h.pos
  constructor
  · intro heq
    have hj : t ≤ j := by
      by_contra hj
      exact h.fresh i j hij (by omega) heq
    have hjr := Nat.mod_lt (j - t) hp
    rw [h.reduce j hj] at heq
    have hi : t ≤ i := by
      by_contra hi
      exact h.fresh i (t + (j - t) % p) (by omega) (by omega) heq
    have hir := Nat.mod_lt (i - t) hp
    rw [h.reduce i hi] at heq
    have hmod : (i - t) % p = (j - t) % p := by
      rcases Nat.lt_trichotomy ((i - t) % p) ((j - t) % p) with hlt | he | hgt
      · exact absurd heq (h.fresh _ _ (by omega) (by omega))
      · exact he
      · exact absurd heq.symm (h.fresh _ _ (by omega) (by omega))
    have hdvd := (Nat.modEq_iff_dvd' (show i - t ≤ j - t by omega)).mp hmod
    rw [show j - t - (i - t) = j - i by omega] at hdvd
    exact ⟨hi, hdvd⟩
  · rintro ⟨hi, k, hk⟩
    rw [show j = i + k * p by rw [Nat.mul_comm]; omega, h.add_mul_period hi]

/-- One and two moves a turn meet after `k` turns iff `k` is past the tail and a multiple of `p`. -/
theorem meet_iff {k : ℕ} (hk : 0 < k) : f^[k] x = f^[2 * k] x ↔ t ≤ k ∧ p ∣ k := by
  rw [h.eq_iff (show k < 2 * k by omega), show 2 * k - k = k by omega]

/-- From a meeting point and from the start, one move a turn each: they meet at the tail's end. -/
theorem restart_iff {k : ℕ} (hk : 0 < k) (hp : p ∣ k) (m : ℕ) :
    f^[k + m] x = f^[m] x ↔ t ≤ m := by
  rw [eq_comm, h.eq_iff (show m < k + m by omega), show k + m - m = k by omega]
  exact and_iff_left hp

end Rho

end Orbit
