import Mathlib.Tactic

/-!
# Pairing — one pass over neighbours

`pairUp op` replaces the first two entries of a list by their combination, then the next two, and so on; a
last entry without a neighbour stays.  A pass halves the length, rounding up (`length_pairUp`), and keeps
what the operation keeps.  `exchange` puts the same neighbours the other way round.
-/

namespace Pairing

universe u

variable {α : Type u} {P : α → Prop}

/-- One pass over the list. -/
def pairUp (op : α → α → α) : List α → List α
  | x :: y :: l => op x y :: pairUp op l
  | l => l

@[simp] theorem pairUp_nil (op : α → α → α) : pairUp op [] = [] := rfl

@[simp] theorem pairUp_singleton (op : α → α → α) (x : α) : pairUp op [x] = [x] := rfl

@[simp] theorem pairUp_cons_cons (op : α → α → α) (x y : α) (l : List α) :
    pairUp op (x :: y :: l) = op x y :: pairUp op l := rfl

theorem length_pairUp (op : α → α → α) : ∀ l : List α, (pairUp op l).length = (l.length + 1) / 2
  | [] => by rw [pairUp_nil, List.length_nil]
  | [x] => by rw [pairUp_singleton, List.length_singleton]
  | x :: y :: l => by
    have ih := length_pairUp op l
    simp only [pairUp_cons_cons, List.length_cons]
    omega

theorem forall_pairUp {op : α → α → α} (hop : ∀ x y, P x → P y → P (op x y)) :
    ∀ l : List α, (∀ x ∈ l, P x) → ∀ x ∈ pairUp op l, P x
  | [], h => h
  | [_], h => h
  | x :: y :: l, h => by
    have hl := forall_pairUp hop l fun z hz => h z (List.mem_cons_of_mem x (List.mem_cons_of_mem y hz))
    intro z hz
    rcases List.mem_cons.mp hz with rfl | hz
    · exact hop x y (h x List.mem_cons_self) (h y (List.mem_cons_of_mem x List.mem_cons_self))
    · exact hl z hz

/-- Where the operation permutes the two lists it combines, a pass permutes the concatenation. -/
theorem flatten_pairUp_perm {op : List α → List α → List α} (hop : ∀ xs ys, (op xs ys).Perm (xs ++ ys)) :
    ∀ l : List (List α), (pairUp op l).flatten.Perm l.flatten
  | [] => List.Perm.refl _
  | [_] => List.Perm.refl _
  | xs :: ys :: l => by
    have ih := flatten_pairUp_perm hop l
    rw [pairUp_cons_cons, List.flatten_cons, List.flatten_cons, List.flatten_cons, ← List.append_assoc]
    exact (hop xs ys).append ih

/-! ## Neighbours the other way round -/

/-- The first two entries exchanged, then the next two, and so on. -/
def exchange : List α → List α
  | x :: y :: l => y :: x :: exchange l
  | l => l

@[simp] theorem exchange_nil : exchange ([] : List α) = [] := rfl

@[simp] theorem exchange_singleton (x : α) : exchange [x] = [x] := rfl

@[simp] theorem exchange_cons_cons (x y : α) (l : List α) : exchange (x :: y :: l) = y :: x :: exchange l :=
  rfl

theorem exchange_perm : ∀ l : List α, (exchange l).Perm l
  | [] => List.Perm.refl _
  | [_] => List.Perm.refl _
  | x :: y :: l => by
    rw [exchange_cons_cons]
    exact (((exchange_perm l).cons x).cons y).trans (List.Perm.swap x y l)

theorem exchange_exchange : ∀ l : List α, exchange (exchange l) = l
  | [] => rfl
  | [_] => rfl
  | x :: y :: l => by rw [exchange_cons_cons, exchange_cons_cons, exchange_exchange l]

/-- Two neighbours change places. -/
theorem getElem?_exchange : ∀ (l : List α) (i : ℕ), 2 * i + 1 < l.length →
    (exchange l)[2 * i]? = l[2 * i + 1]? ∧ (exchange l)[2 * i + 1]? = l[2 * i]?
  | [], i, h => by simp at h
  | [x], i, h => by simp at h
  | x :: y :: l, i, h => by
    cases i with
    | zero => exact ⟨rfl, rfl⟩
    | succ i =>
      rw [List.length_cons, List.length_cons] at h
      rw [show 2 * (i + 1) = 2 * i + 1 + 1 by omega, exchange_cons_cons]
      simp only [List.getElem?_cons_succ]
      exact getElem?_exchange l i (by omega)

/-- A last entry without a neighbour stays. -/
theorem getElem?_exchange_last :
    ∀ (l : List α) (i : ℕ), 2 * i + 1 = l.length → (exchange l)[2 * i]? = l[2 * i]?
  | [], i, h => by simp at h
  | [x], i, h => rfl
  | x :: y :: l, i, h => by
    cases i with
    | zero => simp at h
    | succ i =>
      rw [List.length_cons, List.length_cons] at h
      rw [show 2 * (i + 1) = 2 * i + 1 + 1 by omega, exchange_cons_cons]
      simp only [List.getElem?_cons_succ]
      exact getElem?_exchange_last l i (by omega)

end Pairing
