import Mathlib.Tactic
import Mathlib.Data.List.Basic

/-!
# PreOrder — binary trees in pre-order with end marks

`ser e t` lists the labels of `t` in pre-order with the mark `e` for every missing subtree.
`Reads e s p t` says that `t` is what a reader of the stream `s` finds from position `p` on: its labels
are not `e` and the stream holds `ser e t` there (`reads_iff`).  A stream holds at most one tree at a
position (`Reads.unique`), so the serialisations are a prefix code.
-/

namespace PreOrder

universe u

variable {α : Type u}

inductive BinTree (α : Type u)
  | nil
  | node (value : α) (left right : BinTree α)
  deriving DecidableEq, Repr

/-- Labels in pre-order, `e` for a missing subtree. -/
def ser (e : α) : BinTree α → List α
  | .nil => [e]
  | .node v l r => v :: (ser e l ++ ser e r)

/-- No label is the mark. -/
def Labelled (e : α) : BinTree α → Prop
  | .nil => True
  | .node v l r => v ≠ e ∧ Labelled e l ∧ Labelled e r

/-- The `n` values of the stream from position `p` on. -/
def slice (s : ℕ → α) (p n : ℕ) : List α := (List.range' p n).map s

/-- Position `p` of the stream holds the tree. -/
def Reads (e : α) (s : ℕ → α) : ℕ → BinTree α → Prop
  | p, .nil => s p = e
  | p, .node v l r =>
    s p = v ∧ v ≠ e ∧ Reads e s (p + 1) l ∧ Reads e s (p + 1 + (ser e l).length) r

variable {e : α} {s : ℕ → α}

@[simp] theorem length_slice (p n : ℕ) : (slice s p n).length = n := by simp [slice]

theorem slice_succ (p n : ℕ) : slice s p (n + 1) = s p :: slice s (p + 1) n := by
  rw [slice, List.range'_succ, List.map_cons]; rfl

theorem slice_add (p m n : ℕ) : slice s p (m + n) = slice s p m ++ slice s (p + m) n := by
  rw [slice, slice, slice, ← List.map_append, List.range'_append_1]

theorem reads_iff {t : BinTree α} {p : ℕ} :
    Reads e s p t ↔ Labelled e t ∧ ser e t = slice s p (ser e t).length := by
  induction t generalizing p with
  | nil => simp [Reads, Labelled, ser, slice, eq_comm]
  | node v l r ihl ihr =>
    rw [Reads, Labelled, ihl, ihr]
    have hlen : (ser e (.node v l r)).length = (ser e l).length + (ser e r).length + 1 := by
      simp [ser]
    rw [hlen, slice_succ, slice_add, ser, List.cons.injEq]
    constructor
    · rintro ⟨hv, hne, ⟨hl, hsl⟩, hr, hsr⟩
      exact ⟨⟨hne, hl, hr⟩, hv.symm, by rw [← hsl, ← hsr]⟩
    · rintro ⟨⟨hne, hl, hr⟩, hv, happ⟩
      obtain ⟨hsl, hsr⟩ := List.append_inj happ (by simp)
      exact ⟨hv.symm, hne, ⟨hl, hsl⟩, hr, hsr⟩

/-- A stream holds at most one tree at a position. -/
theorem Reads.unique {t t' : BinTree α} {p : ℕ} (h : Reads e s p t) (h' : Reads e s p t') : t = t' := by
  induction t generalizing p t' with
  | nil =>
    cases t' with
    | nil => rfl
    | node v l r => exact absurd (h'.1.symm.trans h) h'.2.1
  | node v l r ihl ihr =>
    cases t' with
    | nil => exact absurd (h.1.symm.trans h') h.2.1
    | node v' l' r' =>
      obtain ⟨hv, -, hl, hr⟩ := h
      obtain ⟨hv', -, hl', hr'⟩ := h'
      obtain rfl := ihl hl hl'
      obtain rfl := ihr hr hr'
      rw [← hv, ← hv']

/-- A list continued by marks for ever. -/
def stream (e : α) (items : List α) (i : ℕ) : α := items.getD i e

/-- A serialisation, with anything after it, is read back. -/
theorem reads_stream {t : BinTree α} (ht : Labelled e t) (rest : List α) :
    Reads e (stream e (ser e t ++ rest)) 0 t := by
  refine reads_iff.mpr ⟨ht, List.ext_getElem (by simp) ?_⟩
  intro i hi _
  simp [slice, stream, List.getElem?_append_left hi, List.getElem?_eq_getElem hi]

end PreOrder
