import Mathlib.Tactic
import Mathlib.Data.List.Basic

/-!
# RunLogic — total correctness of fuelled code

`Prog α` is a piece of code that may loop: from an amount of fuel it gives a result, or a `Fault`
saying that the runtime stopped it (`trap`) or that the fuel ran out (`fuel`).  `Returns p a` says
that every large enough amount of fuel gives `a`, so it is termination without a trap, and the
result is unique (`Returns.unique`); `Traps p` says that the runtime stops it, `Diverges p` that it goes on
for ever.  `Halts p Q` is the total-correctness statement: `p` returns some `a` with `Q a`; `Ends p Q T`
also lets the runtime stop it, where `T` holds.  Rules for sequencing, for `loop` (by a measure, by an
explicit trace, turn by turn, and for a loop without an end), for `forEach` and for `forUntil`, a `for`
whose body may leave it.  `Reaches` are the variables before the turns of a loop.  `Yields p Q` says nothing
of termination: a result, if there is one, satisfies `Q`; with it two programs are the same when they only
differ where an invariant excludes it.
-/

namespace RunLogic

universe u v w

/-- Why a run has no result. -/
inductive Fault
  | trap
  | fuel
  deriving DecidableEq, Repr

/-- A piece of code: from an amount of fuel to a result or a fault. -/
def Prog (α : Type u) : Type u := ℕ → Except Fault α

instance : Monad Prog where
  pure a := fun _ => .ok a
  bind p f := fun n => match p n with
    | .ok a => f a n
    | .error e => .error e

theorem bind_apply {α β : Type u} (p : Prog α) (f : α → Prog β) (n : ℕ) :
    (p >>= f) n = match p n with
      | .ok a => f a n
      | .error e => .error e := rfl

instance : LawfulMonad Prog := LawfulMonad.mk' Prog
  (fun p => by
    funext n
    show (p >>= fun a => pure (id a)) n = p n
    rw [bind_apply]
    cases p n <;> rfl)
  (fun _ _ => rfl)
  (fun p f g => by
    funext n
    simp only [bind_apply]
    cases p n <;> rfl)

/-- The runtime stops the code. -/
def trap {α : Type u} : Prog α := fun _ => .error .trap

section Basic

variable {α : Type u} {β : Type u} {p : Prog α} {f : α → Prog β} {a : α} {b : β}

/-- With enough fuel `p` gives `a`. -/
def Returns (p : Prog α) (a : α) : Prop := ∃ N, ∀ n, N ≤ n → p n = .ok a

/-- `p` returns a result satisfying `Q`. -/
def Halts (p : Prog α) (Q : α → Prop) : Prop := ∃ a, Returns p a ∧ Q a

theorem returns_pure (a : α) : Returns (pure a : Prog α) a := ⟨0, fun _ _ => rfl⟩

theorem Returns.unique {a' : α} (h : Returns p a) (h' : Returns p a') : a = a' := by
  obtain ⟨N, hN⟩ := h
  obtain ⟨M, hM⟩ := h'
  have e := (hN (max N M) (le_max_left _ _)).symm.trans (hM (max N M) (le_max_right _ _))
  exact Except.ok.inj e

theorem returns_bind (h : Returns p a) (h' : Returns (f a) b) : Returns (p >>= f) b := by
  obtain ⟨N, hN⟩ := h
  obtain ⟨M, hM⟩ := h'
  refine ⟨max N M, ?_⟩
  intro n hn
  rw [bind_apply, hN n ((le_max_left _ _).trans hn)]
  exact hM n ((le_max_right _ _).trans hn)

theorem Returns.halts {Q : α → Prop} (h : Returns p a) (hQ : Q a) : Halts p Q := ⟨a, h, hQ⟩

theorem Halts.mono {Q Q' : α → Prop} (h : Halts p Q) (hQ : ∀ a, Q a → Q' a) : Halts p Q' := by
  obtain ⟨a, h1, h2⟩ := h
  exact ⟨a, h1, hQ a h2⟩

theorem halts_pure {Q : α → Prop} (hQ : Q a) : Halts (pure a : Prog α) Q := ⟨a, returns_pure a, hQ⟩

theorem halts_bind {Q : β → Prop} (h : Halts p (fun a => Halts (f a) Q)) : Halts (p >>= f) Q := by
  obtain ⟨a, h1, b, h2, hQ⟩ := h
  exact ⟨b, returns_bind h1 h2, hQ⟩

end Basic

/-! ## Code that is stopped -/

section Traps

variable {α β : Type u} {p : Prog α} {f : α → Prog β} {a : α}

/-- With enough fuel the runtime stops `p`. -/
def Traps (p : Prog α) : Prop := ∃ N, ∀ n, N ≤ n → p n = .error .trap

theorem traps_trap : Traps (trap : Prog α) := ⟨0, fun _ _ => rfl⟩

theorem traps_bind (h : Returns p a) (h' : Traps (f a)) : Traps (p >>= f) := by
  obtain ⟨N, hN⟩ := h
  obtain ⟨M, hM⟩ := h'
  refine ⟨max N M, ?_⟩
  intro n hn
  rw [bind_apply, hN n ((le_max_left _ _).trans hn)]
  exact hM n ((le_max_right _ _).trans hn)

theorem Traps.not_returns (h : Traps p) : ¬ Returns p a := by
  rintro ⟨M, hM⟩
  obtain ⟨N, hN⟩ := h
  have e := (hN (max N M) (le_max_left _ _)).symm.trans (hM (max N M) (le_max_right _ _))
  cases e

theorem Traps.bind (h : Traps p) (f : α → Prog β) : Traps (p >>= f) := by
  obtain ⟨N, hN⟩ := h
  refine ⟨N, ?_⟩
  intro n hn
  rw [bind_apply, hN n hn]

end Traps

/-! ## Code that goes on for ever -/

section Diverges

variable {α β : Type u} {p : Prog α} {a : α}

/-- No amount of fuel is enough. -/
def Diverges (p : Prog α) : Prop := ∀ n, p n = .error .fuel

theorem Diverges.not_returns (h : Diverges p) : ¬ Returns p a := by
  rintro ⟨N, hN⟩
  have e := (h N).symm.trans (hN N le_rfl)
  cases e

theorem Diverges.bind (h : Diverges p) (f : α → Prog β) : Diverges (p >>= f) := by
  intro n
  rw [bind_apply, h n]

end Diverges

/-! ## Code that returns or is stopped -/

section Ends

variable {α β : Type u} {p : Prog α} {f : α → Prog β} {a : α} {T T' : Prop}

/-- `p` returns a result satisfying `Q`, or the runtime stops it and `T` holds. -/
def Ends (p : Prog α) (Q : α → Prop) (T : Prop) : Prop := Halts p Q ∨ Traps p ∧ T

theorem Halts.ends {Q : α → Prop} (h : Halts p Q) : Ends p Q T := Or.inl h

theorem ends_false {Q : α → Prop} : Ends p Q False ↔ Halts p Q :=
  ⟨fun h => h.resolve_right And.right, Halts.ends⟩

theorem ends_trap_bind {Q : β → Prop} (f : α → Prog β) (h : T) : Ends (trap >>= f) Q T :=
  Or.inr ⟨traps_trap.bind f, h⟩

theorem Ends.mono {Q Q' : α → Prop} (h : Ends p Q T) (hQ : ∀ a, Q a → Q' a) (hT : T → T') : Ends p Q' T' := by
  rcases h with h | ⟨h, ht⟩
  · exact Or.inl (h.mono hQ)
  · exact Or.inr ⟨h, hT ht⟩

theorem ends_bind {Q : β → Prop} (h : Ends p (fun a => Ends (f a) Q T) T) : Ends (p >>= f) Q T := by
  rcases h with ⟨a, ha, ⟨b, hb, hQ⟩ | ⟨htrap, ht⟩⟩ | ⟨htrap, ht⟩
  · exact Or.inl ⟨b, returns_bind ha hb, hQ⟩
  · exact Or.inr ⟨traps_bind ha htrap, ht⟩
  · exact Or.inr ⟨htrap.bind f, ht⟩

end Ends

/-! ## Properties of all results -/

section Yields

variable {α β : Type u} {p : Prog α} {f g : α → Prog β} {Q Q' : α → Prop} {R : β → Prop} {a : α}

/-- A result of `p`, if it has one, satisfies `Q`. -/
def Yields (p : Prog α) (Q : α → Prop) : Prop := ∀ n a, p n = .ok a → Q a

theorem yields_pure (hQ : Q a) : Yields (pure a) Q := by
  intro n b hb
  exact Except.ok.inj hb ▸ hQ

theorem yields_trap : Yields (trap : Prog α) Q := by
  intro n a h
  cases h

theorem Yields.mono (h : Yields p Q) (hQ : ∀ a, Q a → Q' a) : Yields p Q' := fun n a ha => hQ a (h n a ha)

theorem yields_true (p : Prog α) : Yields p fun _ => True := fun _ _ _ => trivial

theorem yields_bind (h : Yields p Q) (hf : ∀ a, Q a → Yields (f a) R) : Yields (p >>= f) R := by
  intro n b hb
  rw [bind_apply] at hb
  cases hp : p n with
  | error e =>
    rw [hp] at hb
    cases hb
  | ok a =>
    rw [hp] at hb
    exact hf a (h n a hp) n b hb

/-- What follows only matters for the results there are. -/
theorem Yields.bind_congr (h : Yields p Q) (hf : ∀ a, Q a → f a = g a) : p >>= f = p >>= g := by
  funext n
  rw [bind_apply, bind_apply]
  cases hp : p n with
  | error e => rfl
  | ok a => exact congrFun (hf a (h n a hp)) n

end Yields

/-! ## Code indexed by a depth

A loop cut off after `k` turns, or a recursion after `k` calls, is a family of programs; it settles on
a result when every large enough `k`, with enough fuel for the rest, gives it. -/

section Settles

variable {α β : Type u} {P : ℕ → Prog α} {F : ℕ → α → Prog β} {a : α} {b : β}

/-- With enough depth and enough fuel the family gives `a`. -/
def Settles (P : ℕ → Prog α) (a : α) : Prop := ∃ N, ∀ k n, N ≤ k → N ≤ n → P k n = .ok a

theorem Returns.settles {p : Prog α} (h : Returns p a) : Settles (fun _ => p) a := by
  obtain ⟨N, hN⟩ := h
  exact ⟨N, fun _ n _ hn => hN n hn⟩

theorem settles_bind (h : Settles P a) (h' : Settles (fun k => F k a) b) :
    Settles (fun k => P k >>= F k) b := by
  obtain ⟨N, hN⟩ := h
  obtain ⟨M, hM⟩ := h'
  refine ⟨max N M, ?_⟩
  intro k n hk hn
  show (P k >>= F k) n = _
  rw [bind_apply, hN k n ((le_max_left _ _).trans hk) ((le_max_left _ _).trans hn)]
  exact hM k n ((le_max_right _ _).trans hk) ((le_max_right _ _).trans hn)

theorem settles_succ (h : Settles (fun k => P (k + 1)) a) : Settles P a := by
  obtain ⟨N, hN⟩ := h
  refine ⟨N + 1, ?_⟩
  intro k n hk hn
  obtain ⟨j, rfl⟩ := Nat.exists_eq_add_of_le' (show 1 ≤ k by omega)
  exact hN j n (by omega) (by omega)

/-- With enough depth and enough fuel the runtime stops the family. -/
def Stops (P : ℕ → Prog α) : Prop := ∃ N, ∀ k n, N ≤ k → N ≤ n → P k n = .error .trap

theorem stops_succ (h : Stops (fun k => P (k + 1))) : Stops P := by
  obtain ⟨N, hN⟩ := h
  refine ⟨N + 1, ?_⟩
  intro k n hk hn
  obtain ⟨j, rfl⟩ := Nat.exists_eq_add_of_le' (show 1 ≤ k by omega)
  exact hN j n (by omega) (by omega)

end Settles

/-! ## Loops -/

/-- What one turn of a loop decides: go round again with new variables, or leave with a result. -/
inductive Turn (σ : Type u) (ρ : Type v)
  | next (s : σ)
  | exit (r : ρ)
  deriving DecidableEq, Repr

namespace Turn

/-- `I` holds of the variables the loop goes on with, `Q` of the result it leaves with. -/
def Good {σ : Type u} {ρ : Type v} (I : σ → Prop) (Q : ρ → Prop) : Turn σ ρ → Prop
  | .next s => I s
  | .exit r => Q r

/-- The result, or `d` when the loop went to its end. -/
def getD {σ : Type u} {ρ : Type v} (d : ρ) : Turn σ ρ → ρ
  | .next _ => d
  | .exit r => r

end Turn

section Loop

variable {σ ρ : Type u} {turn : σ → Prog (Turn σ ρ)} {s s' : σ} {r : ρ}

/-- At most `k` turns from `s`. -/
def loopN (turn : σ → Prog (Turn σ ρ)) : ℕ → σ → Prog ρ
  | 0, _ => fun _ => .error .fuel
  | k + 1, s => do
    match ← turn s with
    | .next s' => loopN turn k s'
    | .exit r => pure r

/-- Turns from `s` until one leaves. -/
def loop (turn : σ → Prog (Turn σ ρ)) (s : σ) : Prog ρ := fun n => loopN turn n s n

/-- The loop returns, with the number of turns and the fuel of a turn apart. -/
abbrev LoopReturns (turn : σ → Prog (Turn σ ρ)) (s : σ) (r : ρ) : Prop :=
  Settles (fun k => loopN turn k s) r

theorem loopN_succ (turn : σ → Prog (Turn σ ρ)) (k n : ℕ) (s : σ) :
    loopN turn (k + 1) s n = match turn s n with
      | .ok (.next s') => loopN turn k s' n
      | .ok (.exit r) => .ok r
      | .error e => .error e := by
  rw [loopN, bind_apply]
  cases turn s n with
  | error e => rfl
  | ok t => cases t <;> rfl

theorem LoopReturns.returns (h : LoopReturns turn s r) : Returns (loop turn s) r := by
  obtain ⟨N, hN⟩ := h
  exact ⟨N, fun n hn => hN n n hn hn⟩

theorem loopReturns_exit (h : Returns (turn s) (.exit r)) : LoopReturns turn s r := by
  obtain ⟨N, hN⟩ := h
  refine settles_succ ⟨N, ?_⟩
  intro k n _ hn
  show loopN turn (k + 1) s n = _
  rw [loopN_succ, hN n hn]

theorem loopReturns_next (h : Returns (turn s) (.next s')) (h' : LoopReturns turn s' r) :
    LoopReturns turn s r := by
  obtain ⟨N, hN⟩ := h
  obtain ⟨M, hM⟩ := h'
  refine settles_succ ⟨max N M, ?_⟩
  intro k n hk hn
  show loopN turn (k + 1) s n = _
  rw [loopN_succ, hN n ((le_max_left _ _).trans hn)]
  exact hM k n ((le_max_right _ _).trans hk) ((le_max_right _ _).trans hn)

/-- The runtime stops the loop, with the number of turns and the fuel of a turn apart. -/
abbrev LoopStops (turn : σ → Prog (Turn σ ρ)) (s : σ) : Prop := Stops fun k => loopN turn k s

theorem LoopStops.traps (h : LoopStops turn s) : Traps (loop turn s) := by
  obtain ⟨N, hN⟩ := h
  exact ⟨N, fun n hn => hN n n hn hn⟩

theorem loopStops_trap (h : Traps (turn s)) : LoopStops turn s := by
  obtain ⟨N, hN⟩ := h
  refine stops_succ ⟨N, ?_⟩
  intro k n _ hn
  show loopN turn (k + 1) s n = _
  rw [loopN_succ, hN n hn]

theorem loopStops_next (h : Returns (turn s) (.next s')) (h' : LoopStops turn s') : LoopStops turn s := by
  obtain ⟨N, hN⟩ := h
  obtain ⟨M, hM⟩ := h'
  refine stops_succ ⟨max N M, ?_⟩
  intro k n hk hn
  show loopN turn (k + 1) s n = _
  rw [loopN_succ, hN n ((le_max_left _ _).trans hn)]
  exact hM k n ((le_max_right _ _).trans hk) ((le_max_right _ _).trans hn)

/-- **Loop rule** for code that may be stopped.  An invariant `I`, a measure `μ` that every further turn
lowers, `Q` of every result the loop can leave with, and `T` where a turn is stopped. -/
theorem ends_loop (I : σ → Prop) (μ : σ → ℕ) (Q : ρ → Prop) (T : Prop)
    (hturn : ∀ s, I s → Ends (turn s) (Turn.Good (fun s' => I s' ∧ μ s' < μ s) Q) T) :
    ∀ s, I s → Ends (loop turn s) Q T := by
  have key : ∀ N s, μ s < N → I s → (∃ r, LoopReturns turn s r ∧ Q r) ∨ LoopStops turn s ∧ T := by
    intro N
    induction N with
    | zero => intro s hμ _; omega
    | succ N ih =>
      intro s hμ hs
      rcases hturn s hs with ⟨t, ht, hgood⟩ | ⟨htrap, hT⟩
      · cases t with
        | exit r => exact Or.inl ⟨r, loopReturns_exit ht, hgood⟩
        | next s' =>
          rcases ih s' (by have := hgood.2; omega) hgood.1 with ⟨r, hr, hQ⟩ | ⟨hstop, hT⟩
          · exact Or.inl ⟨r, loopReturns_next ht hr, hQ⟩
          · exact Or.inr ⟨loopStops_next ht hstop, hT⟩
      · exact Or.inr ⟨loopStops_trap htrap, hT⟩
  intro s hs
  rcases key (μ s + 1) s (by omega) hs with ⟨r, hr, hQ⟩ | ⟨hstop, hT⟩
  · exact Or.inl ⟨r, hr.returns, hQ⟩
  · exact Or.inr ⟨hstop.traps, hT⟩

/-- **Loop rule.**  An invariant `I`, a measure `μ` that every further turn lowers, and `Q` of every
result the loop can leave with. -/
theorem halts_loop (I : σ → Prop) (μ : σ → ℕ) (Q : ρ → Prop)
    (hturn : ∀ s, I s → Halts (turn s) (Turn.Good (fun s' => I s' ∧ μ s' < μ s) Q)) :
    ∀ s, I s → Halts (loop turn s) Q :=
  fun s hs => ends_false.mp (ends_loop I μ Q False (fun s hs => (hturn s hs).ends) s hs)

/-- **Trace rule.**  The variables before each turn are given: turn `t < m` goes from `st t` to
`st (t + 1)` and turn `m` leaves. -/
theorem returns_loop_trace (st : ℕ → σ) (m : ℕ)
    (hnext : ∀ t < m, Returns (turn (st t)) (.next (st (t + 1))))
    (hexit : Returns (turn (st m)) (.exit r)) : Returns (loop turn (st 0)) r := by
  have key : ∀ j ≤ m, LoopReturns turn (st (m - j)) r := by
    intro j
    induction j with
    | zero => intro _; exact loopReturns_exit hexit
    | succ j ih =>
      intro hj
      have hn := hnext (m - (j + 1)) (by omega)
      rw [show m - (j + 1) + 1 = m - j by omega] at hn
      exact loopReturns_next hn (ih (by omega))
  have h0 := key m le_rfl
  rw [Nat.sub_self] at h0
  exact h0.returns

/-- The variables before the turns of the loop from `s`. -/
inductive Reaches (turn : σ → Prog (Turn σ ρ)) (s : σ) : σ → Prop
  | start : Reaches turn s s
  | next {s' s'' : σ} (h : Reaches turn s s') (hturn : Returns (turn s') (.next s'')) : Reaches turn s s''

/-- The invariant of a loop holds before every turn. -/
theorem Reaches.invariant {I : σ → Prop} {μ : σ → ℕ} {Q : ρ → Prop} (hreach : Reaches turn s s')
    (hturn : ∀ s, I s → Halts (turn s) (Turn.Good (fun s' => I s' ∧ μ s' < μ s) Q)) (hs : I s) : I s' := by
  induction hreach with
  | start => exact hs
  | @next s₁ s₂ _ hnext ih =>
    obtain ⟨t, ht, hgood⟩ := hturn s₁ ih
    obtain rfl := ht.unique hnext
    exact hgood.1

/-- An invariant of the turns, and `Q` of every result the loop leaves with. -/
theorem yields_loop (I : σ → Prop) (Q : ρ → Prop) (hturn : ∀ s, I s → Yields (turn s) (Turn.Good I Q))
    (hs : I s) :
    Yields (loop turn s) Q := by
  have key : ∀ k n s r, I s → loopN turn k s n = .ok r → Q r := by
    intro k n
    induction k with
    | zero => intro s r _ h; cases h
    | succ k ih =>
      intro s r hs h
      rw [loopN_succ] at h
      cases ht : turn s n with
      | error e =>
        rw [ht] at h
        cases h
      | ok t =>
        rw [ht] at h
        have hgood := hturn s hs n t ht
        cases t with
        | next s' => exact ih s' r hgood h
        | exit r' => exact Except.ok.inj h ▸ hgood
  exact fun n r h => key n n s r hs h

/-- Two loops whose turns are the same where an invariant holds. -/
theorem loop_congr {turn' : σ → Prog (Turn σ ρ)} {Q : ρ → Prop} (I : σ → Prop)
    (hturn : ∀ s, I s → Yields (turn s) (Turn.Good I Q)) (heq : ∀ s, I s → turn' s = turn s) (hs : I s) :
    loop turn' s = loop turn s := by
  have key : ∀ k n s, I s → loopN turn' k s n = loopN turn k s n := by
    intro k n
    induction k with
    | zero => intro s _; rfl
    | succ k ih =>
      intro s hs
      rw [loopN_succ, loopN_succ, heq s hs]
      cases ht : turn s n with
      | error e => rfl
      | ok t =>
        cases t with
        | next s' => exact ih s' (hturn s hs n _ ht)
        | exit r => rfl
  funext n
  exact key n n s hs

/-- **Endless loop.**  An invariant that every turn keeps, where a turn never leaves and is never stopped. -/
theorem diverges_loop (I : σ → Prop)
    (hturn : ∀ s n, I s → turn s n = .error .fuel ∨ ∃ s', turn s n = .ok (.next s') ∧ I s') (hs : I s) :
    Diverges (loop turn s) := by
  have key : ∀ k n s, I s → loopN turn k s n = .error .fuel := by
    intro k n
    induction k with
    | zero => intro s _; rfl
    | succ k ih =>
      intro s hs
      rw [loopN_succ]
      rcases hturn s n hs with h | ⟨s', h, hs'⟩
      · rw [h]
      · rw [h]
        exact ih s' hs'
  exact fun n => key n n s hs

end Loop

/-! ## Recursion -/

section Fix

variable {α β : Type u} {body : (α → Prog β) → α → Prog β} {a : α} {b : β}

/-- A recursive function cut off at call depth `k`. -/
def fixN (body : (α → Prog β) → α → Prog β) : ℕ → α → Prog β
  | 0, _ => fun _ => .error .fuel
  | k + 1, a => body (fixN body k) a

/-- The recursive function with the given body. -/
def fix (body : (α → Prog β) → α → Prog β) (a : α) : Prog β := fun n => fixN body n a n

/-- The call returns, with its depth and the rest of the fuel apart. -/
abbrev FixReturns (body : (α → Prog β) → α → Prog β) (a : α) (b : β) : Prop :=
  Settles (fun k => fixN body k a) b

theorem FixReturns.returns (h : FixReturns body a b) : Returns (fix body a) b := by
  obtain ⟨N, hN⟩ := h
  exact ⟨N, fun n hn => hN n n hn hn⟩

/-- **Call rule.**  The body settles with its recursive calls cut off one call earlier. -/
theorem fixReturns_call (h : Settles (fun k => body (fixN body k) a) b) : FixReturns body a b :=
  settles_succ h

end Fix

section ForEach

variable {ι σ : Type u}

/-- `for i in l`, over the variables `s`. -/
def forEach (l : List ι) (body : σ → ι → Prog σ) (s : σ) : Prog σ := l.foldlM body s

/-- **`for` rule** for code that may be stopped: an invariant indexed by the part of the list already gone
through, and `T` where a turn is stopped. -/
theorem ends_forEach {l : List ι} {body : σ → ι → Prog σ} (I : List ι → σ → Prop) (T : Prop)
    (hbody : ∀ pre i post s, l = pre ++ i :: post → I pre s →
      Ends (body s i) (I (pre ++ [i])) T) {s : σ} (h0 : I [] s) :
    Ends (forEach l body s) (I l) T := by
  have key : ∀ post pre s, l = pre ++ post → I pre s → Ends (post.foldlM body s) (I l) T := by
    intro post
    induction post with
    | nil =>
      intro pre s hl hs
      rw [List.append_nil] at hl
      exact (halts_pure (hl ▸ hs)).ends
    | cons i post ih =>
      intro pre s hl hs
      rw [List.foldlM_cons]
      refine ends_bind ((hbody pre i post s hl hs).mono (fun s' hs' => ?_) id)
      exact ih (pre ++ [i]) s' (by rw [hl]; simp) hs'
  exact key l [] s rfl h0

/-- **`for` rule.**  An invariant indexed by the part of the list already gone through. -/
theorem halts_forEach {l : List ι} {body : σ → ι → Prog σ} (I : List ι → σ → Prop)
    (hbody : ∀ pre i post s, l = pre ++ i :: post → I pre s →
      Halts (body s i) (I (pre ++ [i]))) {s : σ} (h0 : I [] s) :
    Halts (forEach l body s) (I l) :=
  ends_false.mp (ends_forEach I False (fun pre i post s hl hs => (hbody pre i post s hl hs).ends) h0)

end ForEach

section ForUntil

variable {ι σ ρ : Type u}

/-- `for i in l`, over the variables `s`, with a body that may leave it with a result. -/
def forUntil (body : σ → ι → Prog (Turn σ ρ)) : List ι → σ → Prog (Turn σ ρ)
  | [], s => pure (.next s)
  | i :: l, s => do
    match ← body s i with
    | .next s' => forUntil body l s'
    | .exit r => pure (.exit r)

/-- **`for` rule** with an exit: `Q` holds of every result the loop can be left with. -/
theorem halts_forUntil {l : List ι} {body : σ → ι → Prog (Turn σ ρ)} (I : List ι → σ → Prop)
    (Q : ρ → Prop) (hbody : ∀ pre i post s, l = pre ++ i :: post → I pre s →
      Halts (body s i) (Turn.Good (I (pre ++ [i])) Q)) {s : σ} (h0 : I [] s) :
    Halts (forUntil body l s) (Turn.Good (I l) Q) := by
  have key : ∀ post pre s, l = pre ++ post → I pre s → Halts (forUntil body post s) (Turn.Good (I l) Q) := by
    intro post
    induction post with
    | nil =>
      intro pre s hl hs
      rw [List.append_nil] at hl
      exact halts_pure (show I l s from hl ▸ hs)
    | cons i post ih =>
      intro pre s hl hs
      rw [forUntil]
      refine halts_bind ((hbody pre i post s hl hs).mono ?_)
      intro t ht
      cases t with
      | next s' => exact ih (pre ++ [i]) s' (by rw [hl]; simp) ht
      | exit r => exact halts_pure ht
  exact key l [] s rfl h0

end ForUntil

end RunLogic
