import Mathlib.Tactic

/-!
# RunLength — lists as runs of equal elements

`runs s` are the maximal runs of equal elements of `s`, each with its length; `runsFrom c n s` is the same
with `n` copies of `c` already read.  `expanded` turns runs back into the list (`expanded_runs`).
-/

namespace RunLength

universe u

variable {α : Type u}

/-- The list of the given runs. -/
def expanded (ps : List (α × ℕ)) : List α := ps.flatMap fun p => List.replicate p.2 p.1

@[simp] theorem expanded_nil : expanded ([] : List (α × ℕ)) = [] := rfl

@[simp] theorem expanded_cons (p : α × ℕ) (ps : List (α × ℕ)) :
    expanded (p :: ps) = List.replicate p.2 p.1 ++ expanded ps := rfl

variable [DecidableEq α]

/-- The runs of `n` copies of `c` and then `s`. -/
def runsFrom (c : α) (n : ℕ) : List α → List (α × ℕ)
  | [] => [(c, n)]
  | x :: s => if x = c then runsFrom c (n + 1) s else (c, n) :: runsFrom x 1 s

/-- The maximal runs. -/
def runs : List α → List (α × ℕ)
  | [] => []
  | c :: s => runsFrom c 1 s

theorem runsFrom_cons_self (c : α) (n : ℕ) (s : List α) :
    runsFrom c n (c :: s) = runsFrom c (n + 1) s := if_pos rfl

theorem runsFrom_cons_of_ne {c x : α} (h : x ≠ c) (n : ℕ) (s : List α) :
    runsFrom c n (x :: s) = (c, n) :: runsFrom x 1 s := if_neg h

theorem runsFrom_ne_nil (c : α) (n : ℕ) (s : List α) : runsFrom c n s ≠ [] := by
  induction s generalizing c n with
  | nil => exact List.cons_ne_nil _ _
  | cons x s ih =>
    rw [runsFrom]
    split_ifs with h
    · exact ih c (n + 1)
    · exact List.cons_ne_nil _ _

theorem expanded_runsFrom (c : α) (n : ℕ) (s : List α) :
    expanded (runsFrom c n s) = List.replicate n c ++ s := by
  induction s generalizing c n with
  | nil => rfl
  | cons x s ih =>
    by_cases h : x = c
    · rw [h, runsFrom_cons_self, ih, List.replicate_succ', ← List.append_cons]
    · rw [runsFrom_cons_of_ne h, expanded_cons, ih]
      rfl

/-- The runs give the list back. -/
theorem expanded_runs (s : List α) : expanded (runs s) = s := by
  cases s with
  | nil => rfl
  | cons c s => exact expanded_runsFrom c 1 s

/-- The elements of the runs are elements of the list. -/
theorem mem_runsFrom {c : α} {n : ℕ} {s : List α} {p : α × ℕ} (h : p ∈ runsFrom c n s) :
    p.1 = c ∨ p.1 ∈ s := by
  induction s generalizing c n with
  | nil =>
    rw [List.mem_singleton.mp h]
    exact Or.inl rfl
  | cons x s ih =>
    rw [runsFrom] at h
    split_ifs at h with hx
    · exact (ih h).imp_right (List.mem_cons_of_mem x)
    · rcases List.mem_cons.mp h with rfl | h
      · exact Or.inl rfl
      · rcases ih h with hp | hp
        · exact Or.inr (hp ▸ List.mem_cons_self)
        · exact Or.inr (List.mem_cons_of_mem x hp)

theorem mem_runs {s : List α} {p : α × ℕ} (h : p ∈ runs s) : p.1 ∈ s := by
  cases s with
  | nil => cases h
  | cons c s => exact List.mem_cons.mpr (mem_runsFrom h)

end RunLength
