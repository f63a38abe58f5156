import Mathlib.Tactic

/-!
# DropOldest — a queue of bounded length that drops its oldest entry

`push cap q x` puts `x` at the end of `q` and drops the first entry when there are then more than `cap`.
What is dropped and what stays is what was there (`dropped_append_push`), so after any number of pushes the
queue holds the last `cap` entries (`pushAll_eq`).
-/

namespace DropOldest

universe u

variable {α : Type u} {cap : ℕ} {q : List α} {x : α}

/-- `x` at the end; the oldest entry goes when the queue gets too long. -/
def push (cap : ℕ) (q : List α) (x : α) : List α :=
  if cap < (q ++ [x]).length then (q ++ [x]).tail else q ++ [x]

/-- What a push drops. -/
def dropped (cap : ℕ) (q : List α) (x : α) : List α :=
  if cap < (q ++ [x]).length then (q ++ [x]).take 1 else []

/-- One push after another. -/
def pushAll (cap : ℕ) (q xs : List α) : List α := xs.foldl (push cap) q

theorem dropped_append_push (cap : ℕ) (q : List α) (x : α) : dropped cap q x ++ push cap q x = q ++ [x] := by
  unfold dropped push
  split_ifs
  · rw [← List.drop_one, List.take_append_drop]
  · rfl

theorem push_suffix (cap : ℕ) (q : List α) (x : α) : push cap q x <:+ q ++ [x] :=
  ⟨dropped cap q x, dropped_append_push cap q x⟩

theorem length_push_le (h : q.length ≤ cap) (x : α) : (push cap q x).length ≤ cap := by
  unfold push
  split_ifs with hlt
  · rw [List.length_tail, List.length_append, List.length_singleton, Nat.add_sub_cancel]
    exact h
  · exact not_lt.mp hlt

/-- Only a full queue drops, and then its first entry. -/
theorem dropped_cases (h : q.length ≤ cap) (x : α) :
    dropped cap q x = [] ∨ q.length = cap ∧ ∃ oldest, (q ++ [x]).head? = some oldest ∧
      dropped cap q x = [oldest] := by
  unfold dropped
  split_ifs with hlt
  · rw [List.length_append, List.length_singleton] at hlt
    obtain ⟨oldest, rest, hq⟩ := List.exists_cons_of_ne_nil (List.append_ne_nil_of_right_ne_nil q
      (List.cons_ne_nil x []))
    rw [hq]
    exact Or.inr ⟨by omega, oldest, rfl, rfl⟩
  · exact Or.inl rfl

/-- After any number of pushes the last `cap` entries are left. -/
theorem pushAll_eq (h : q.length ≤ cap) (xs : List α) :
    pushAll cap q xs = (q ++ xs).drop (q.length + xs.length - cap) := by
  induction xs generalizing q with
  | nil => rw [List.length_nil, Nat.add_zero, Nat.sub_eq_zero_of_le h, List.drop_zero, List.append_nil]; rfl
  | cons x xs ih =>
    have hstep : pushAll cap q (x :: xs) = pushAll cap (push cap q x) xs := rfl
    rw [hstep, ih (length_push_le h x), List.append_cons]
    unfold push
    split_ifs with hlt
    · rw [List.length_append, List.length_singleton] at hlt
      have hne : q ++ [x] ≠ [] := List.append_ne_nil_of_right_ne_nil q (List.cons_ne_nil x [])
      rw [List.length_tail, ← List.tail_append_of_ne_nil hne, ← List.drop_one, List.drop_drop]
      congr 1
      simp
      omega
    · congr 1
      simp
      omega

theorem pushAll_of_room (h : q.length + xs.length ≤ cap) : pushAll cap q xs = q ++ xs := by
  rw [pushAll_eq (by omega), Nat.sub_eq_zero_of_le h, List.drop_zero]

/-- Without room for all of them the first entry is gone. -/
theorem pushAll_of_no_room {xs : List α} (h : (x :: q).length ≤ cap)
    (hno : cap < (x :: q).length + xs.length) :
    ∃ y r, pushAll cap (x :: q) xs = y :: r ∧ y ∈ q ++ xs := by
  have hlen : (pushAll cap (x :: q) xs).length = cap := by
    rw [pushAll_eq h, List.length_drop, List.length_append]
    omega
  rw [List.length_cons] at h hno
  obtain ⟨y, r, hy⟩ := List.exists_cons_of_ne_nil (List.ne_nil_of_length_pos (show 0 < _ by rw [hlen]; omega))
  refine ⟨y, r, hy, ?_⟩
  rw [pushAll_eq (by simpa using h), List.length_cons, List.cons_append,
    show q.length + 1 + xs.length - cap = (q.length + xs.length - cap) + 1 by omega,
      List.drop_succ_cons] at hy
  exact List.mem_of_mem_drop (hy ▸ List.mem_cons_self)

end DropOldest
