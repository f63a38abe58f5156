import QYInterview.Lib.Powers
import QYInterview.Swift

/-!
# RepeatedSubstring — strings that repeat a shorter one

`RepeatedSubstringPatternController.swift` looks for `s` in `s + s` without its first and last character.  The
characters are letters, which do not join with their neighbours, so `+` appends them and `contains` finds them
in a row.
-/

namespace QYInterview.RepeatedSubstring

open RunLogic Swift Powers

/-! ## The code -/

/-- `result[lo..<hi]`, for indices by their distance from the start; traps outside the string. -/
def substring (s : Str) (lo hi : ℤ) : Prog Str :=
  if 0 ≤ lo ∧ lo ≤ hi ∧ hi ≤ s.length then pure ((s.take hi.toNat).drop lo.toNat) else trap

def contains (s other : Str) : Bool := decide (other <:+: s)

def repeatedSubstringPattern (s : Str) : Prog Bool :=
  if s.length ≤ 1 then pure false
  else do
    let result := s ++ s
    let result ← substring result 1 (result.length - 1)
    return contains result s

/-! ## What is left of the two strings -/

/-- The characters between the first and the last one. -/
theorem substring_inner (x y : Character) (inner : Str) :
    substring (x :: inner ++ [y]) 1 ((x :: inner ++ [y]).length - 1) = pure inner := by
  have hlen : ((x :: inner ++ [y]).length : ℤ) - 1 = ((x :: inner).length : ℕ) := by
    rw [List.length_append, List.length_singleton]
    omega
  rw [substring, hlen, if_pos ⟨by omega, by rw [List.length_cons]; omega, by rw [List.length_append]; omega⟩,
    Int.toNat_natCast, List.take_left]
  rfl

theorem infix_inner_iff {s t inner : Str} {x y : Character} (ht : t = x :: inner ++ [y]) :
    s <:+: inner ↔ ∃ u w, u ≠ [] ∧ w ≠ [] ∧ t = u ++ s ++ w := by
  subst ht
  constructor
  · rintro ⟨p, q, rfl⟩
    exact ⟨x :: p, q ++ [y], List.cons_ne_nil _ _, by simp, by simp⟩
  · rintro ⟨u, w, hu, hw, h⟩
    obtain ⟨x', p, rfl⟩ := List.exists_cons_of_ne_nil hu
    obtain ⟨q, y', rfl⟩ := (List.eq_nil_or_concat' w).resolve_left hw
    rw [List.cons_append, List.cons_append, List.cons_append, ← List.append_assoc] at h
    exact ⟨p, q, (List.append_inj' (List.cons.inj h).2 rfl).1.symm⟩

/-- Exactly the strings that are another one repeated twice or more. -/
theorem repeatedSubstringPattern_spec (s : Str) :
    ∃ b, Returns (repeatedSubstringPattern s) b ∧ (b = true ↔ ∃ t k, t ≠ [] ∧ 2 ≤ k ∧ s = power t k) := by
  by_cases hs : s.length ≤ 1
  · refine ⟨false, ?_, iff_of_false Bool.false_ne_true ?_⟩
    · rw [repeatedSubstringPattern, if_pos hs]
      exact returns_pure _
    · rintro ⟨t, k, ht, hk, rfl⟩
      obtain ⟨k, rfl⟩ := Nat.exists_eq_add_of_le' hk
      have htpos := List.length_pos_of_ne_nil ht
      rw [power_succ, power_succ, List.length_append, List.length_append] at hs
      omega
  · obtain ⟨x, rest, hrest⟩ :=
      List.exists_cons_of_ne_nil (show s ≠ [] by rintro rfl; exact hs (Nat.zero_le 1))
    obtain ⟨front, y, hfront⟩ :=
      (List.eq_nil_or_concat' s).resolve_left (by rintro rfl; exact hs (Nat.zero_le 1))
    have hsquare : s ++ s = x :: (rest ++ front) ++ [y] := by
      rw [List.cons_append, List.append_assoc, ← hfront, hrest, List.cons_append]
    refine ⟨contains (rest ++ front) s, ?_, ?_⟩
    · simp only [repeatedSubstringPattern, if_neg hs, hsquare, substring_inner, pure_bind]
      exact returns_pure _
    · rw [contains, decide_eq_true_eq, infix_inner_iff hsquare, inside_square_iff]

end QYInterview.RepeatedSubstring
