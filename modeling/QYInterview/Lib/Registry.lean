import Mathlib.Tactic
import Mathlib.Data.List.Basic
import Mathlib.Logic.Function.Basic

/-!
# Registry — who is registered for which topic of which subject

A registry keeps the registrations of every subject in the order of arrival; the same observer may be
there several times, and `remove` takes the first match only.  An implementation that keeps its
registrations as objects removes by identity; on distinct addresses the two agree
(`map_filter_address_ne`).
-/

namespace Registry

universe u v w x y

structure Registration (ω : Type u) (τ : Type v) (β : Type w) where
  observer : ω
  topic : τ
  callBack : β
  deriving DecidableEq, Repr

/-- The registrations of every subject. -/
abbrev Table (σ : Type x) (ω : Type u) (τ : Type v) (β : Type w) := σ → List (Registration ω τ β)

section Operations

variable {σ : Type x} {ω : Type u} {τ : Type v} {β : Type w}

def empty : Table σ ω τ β := fun _ => []

/-- The registrations an event on topic `t` of `s` reaches. -/
def notified [DecidableEq τ] (R : Table σ ω τ β) (s : σ) (t : τ) : List (Registration ω τ β) :=
  (R s).filter fun r => r.topic = t

variable [DecidableEq σ]

def add (R : Table σ ω τ β) (s : σ) (r : Registration ω τ β) : Table σ ω τ β :=
  Function.update R s (R s ++ [r])

/-- The first registration of `o` for `t` goes. -/
def remove [DecidableEq ω] [DecidableEq τ] (R : Table σ ω τ β) (s : σ) (o : ω) (t : τ) :
    Table σ ω τ β :=
  Function.update R s ((R s).eraseP fun r => r.observer = o ∧ r.topic = t)

variable {R : Table σ ω τ β} {s s' : σ}

theorem add_self (r : Registration ω τ β) : add R s r s = R s ++ [r] := Function.update_self _ _ _

theorem add_of_ne (h : s' ≠ s) (r : Registration ω τ β) : add R s r s' = R s' :=
  Function.update_of_ne h _ _

variable [DecidableEq ω] [DecidableEq τ]

theorem remove_self (o : ω) (t : τ) :
    remove R s o t s = (R s).eraseP fun r => r.observer = o ∧ r.topic = t := Function.update_self _ _ _

theorem remove_of_ne (h : s' ≠ s) (o : ω) (t : τ) : remove R s o t s' = R s' :=
  Function.update_of_ne h _ _

end Operations

/-! ## Removal by identity -/

section Address

variable {ε : Type y} {address : ε → ℕ} {p : ε → Bool} {x : ε}

/-- With distinct addresses, filtering out the address of the first match erases the first match. -/
theorem filter_address_ne {l : List ε} (hl : (l.map address).Nodup) (hx : l.find? p = some x) :
    (l.filter fun y => address y ≠ address x) = l.eraseP p := by
  induction l with
  | nil => cases hx
  | cons y l ih =>
    rw [List.map_cons, List.nodup_cons] at hl
    cases hp : p y with
    | true =>
      rw [List.find?_cons_of_pos hp] at hx
      obtain rfl := Option.some.inj hx
      have hrest : (l.filter fun z => address z ≠ address y) = l := by
        apply List.filter_eq_self.mpr
        intro z hz
        have hne : address z ≠ address y := fun h => hl.1 (h ▸ List.mem_map_of_mem hz)
        exact decide_eq_true hne
      rw [List.eraseP_cons_of_pos hp, List.filter_cons_of_neg (by simp), hrest]
    | false =>
      have hp' : ¬ p y = true := by rw [hp]; exact Bool.false_ne_true
      rw [List.find?_cons_of_neg hp'] at hx
      have hne : address y ≠ address x := fun h =>
        hl.1 (h ▸ List.mem_map_of_mem (List.mem_of_find?_eq_some hx))
      rw [List.eraseP_cons_of_neg hp', List.filter_cons, if_pos (decide_eq_true hne), ih hl.2 hx]

/-- The same seen through a view `f` that the match is decided on. -/
theorem map_filter_address_ne {γ : Type*} {f : ε → γ} {q : γ → Bool} {l : List ε}
    (hl : (l.map address).Nodup) (hx : (l.find? fun y => q (f y)) = some x) :
    (l.filter fun y => address y ≠ address x).map f = (l.map f).eraseP q := by
  rw [filter_address_ne hl hx, List.eraseP_map]
  rfl

/-- Without a match nothing goes. -/
theorem map_eraseP_of_find?_eq_none {γ : Type*} {f : ε → γ} {q : γ → Bool} {l : List ε}
    (hx : (l.find? fun y => q (f y)) = none) : (l.map f).eraseP q = l.map f := by
  apply List.eraseP_of_forall_not
  intro b hb
  obtain ⟨y, hy, rfl⟩ := List.mem_map.mp hb
  exact List.find?_eq_none.mp hx y hy

end Address

end Registry
