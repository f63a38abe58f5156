import Mathlib.Tactic

/-!
# Powers — words that are repetitions of a shorter one

`power t k` is `t` repeated `k` times.  Two words that commute are powers of a common one (`exists_root`), by
induction on their lengths: the shorter one is a prefix of the longer one and commutes with what is left of
it. A word that occurs in its own square away from both ends is thus a proper power, and the other way round
(`inside_square_iff`).
-/

namespace Powers

universe u

variable {α : Type u} {s t u v w : List α}

/-- `t` repeated `k` times. -/
def power (t : List α) (k : ℕ) : List α := (List.replicate k t).flatten

@[simp] theorem power_zero (t : List α) : power t 0 = [] := rfl

theorem power_succ (t : List α) (k : ℕ) : power t (k + 1) = t ++ power t k := rfl

@[simp] theorem power_one (t : List α) : power t 1 = t := List.append_nil t

theorem power_add (t : List α) (i j : ℕ) : power t (i + j) = power t i ++ power t j := by
  unfold power
  rw [← List.flatten_append, List.replicate_append_replicate]

theorem power_ne_nil (ht : t ≠ []) {k : ℕ} (hk : k ≠ 0) : power t k ≠ [] := by
  obtain ⟨k, rfl⟩ := Nat.exists_eq_succ_of_ne_zero hk
  exact List.append_ne_nil_of_left_ne_nil ht _

/-- A word that commutes with a longer one is a prefix of it and commutes with the rest. -/
theorem comm_prefix (h : u ++ v = v ++ u) (hle : u.length ≤ v.length) :
    ∃ w, v = u ++ w ∧ u ++ w = w ++ u := by
  obtain ⟨w, rfl⟩ : u <+: v :=
    List.prefix_of_prefix_length_le (List.prefix_append u v) (h ▸ List.prefix_append v u) hle
  exact ⟨w, rfl, List.append_cancel_left (h.trans (List.append_assoc u w u))⟩

/-- **Commuting words** are powers of a common one. -/
theorem exists_root (h : u ++ v = v ++ u) : ∃ t i j, u = power t i ∧ v = power t j := by
  have key : ∀ n (u v : List α), u.length + v.length < n → u ++ v = v ++ u →
      ∃ t i j, u = power t i ∧ v = power t j := by
    intro n
    induction n with
    | zero => intro u v hlt _; omega
    | succ n ih =>
      intro u v hlt h
      by_cases hu : u = []
      · exact ⟨v, 0, 1, hu, (power_one v).symm⟩
      by_cases hv : v = []
      · exact ⟨u, 1, 0, (power_one u).symm, hv⟩
      have hupos := List.length_pos_of_ne_nil hu
      have hvpos := List.length_pos_of_ne_nil hv
      rcases le_total u.length v.length with hle | hle
      · obtain ⟨w, rfl, hw⟩ := comm_prefix h hle
        rw [List.length_append] at hlt
        obtain ⟨t, i, j, hi, hj⟩ := ih u w (by omega) hw
        exact ⟨t, i, i + j, hi, by rw [power_add, ← hi, ← hj]⟩
      · obtain ⟨w, rfl, hw⟩ := comm_prefix h.symm hle
        rw [List.length_append] at hlt
        obtain ⟨t, i, j, hi, hj⟩ := ih v w (by omega) hw
        exact ⟨t, i + j, i, by rw [power_add, ← hi, ← hj], hi⟩
  exact key _ u v (Nat.lt_succ_self _) h

/-- A word that occurs in its square is cut by the place of the occurrence into two that commute. -/
theorem comm_of_inside (h : s ++ s = u ++ s ++ w) (hlen : u.length ≤ s.length) :
    s = u ++ w ∧ u ++ w = w ++ u := by
  obtain ⟨v, rfl⟩ : u <+: s := by
    refine List.prefix_of_prefix_length_le ?_ (List.prefix_append s s) hlen
    rw [h, List.append_assoc]
    exact List.prefix_append u _
  simp only [List.append_assoc] at h
  have h' : v ++ u ++ v = u ++ v ++ w := by
    simpa only [List.append_assoc] using List.append_cancel_left h
  obtain ⟨hcomm, rfl⟩ := List.append_inj h' (by rw [List.length_append, List.length_append, Nat.add_comm])
  exact ⟨rfl, hcomm.symm⟩

/-- A word occurs in its square away from both ends if and only if it is a proper power. -/
theorem inside_square_iff :
    (∃ u w, u ≠ [] ∧ w ≠ [] ∧ s ++ s = u ++ s ++ w) ↔ ∃ t k, t ≠ [] ∧ 2 ≤ k ∧ s = power t k := by
  constructor
  · rintro ⟨u, w, hu, hw, h⟩
    have hlen : u.length ≤ s.length := by
      have := congrArg List.length h
      simp only [List.length_append] at this
      omega
    obtain ⟨rfl, hcomm⟩ := comm_of_inside h hlen
    obtain ⟨t, i, j, rfl, rfl⟩ := exists_root hcomm
    have hi : i ≠ 0 := by
      rintro rfl
      exact hu rfl
    have hj : j ≠ 0 := by
      rintro rfl
      exact hw rfl
    refine ⟨t, i + j, ?_, by omega, (power_add t i j).symm⟩
    rintro rfl
    exact hu (by simp [power])
  · rintro ⟨t, k, ht, hk, rfl⟩
    refine ⟨t, power t (k - 1), ht, power_ne_nil ht (by omega), ?_⟩
    rw [← power_add, ← power_succ, ← power_add]
    congr 1
    omega

end Powers
