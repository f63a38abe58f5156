import QYInterview.Lib.Runs

/-!
# Interleaving — processes that take turns on a shared state

A `Pool` is a shared state and the local states of the processes started so far.  `next` is what one process
does in one turn, which is one atomic access to the shared state; the choice says how an outcome falls that
the process does not decide itself.  A run starts processes and gives turns in any order.

An invariant is shown for a process between any others (`always`): `total` adds up what each process
contributes, `forall_turn` is the rule for what holds of each process and that the turns of the others do
not destroy.  A measure that every turn lowers bounds the runs without new processes (`length_run_le`).
-/

namespace Interleaving

open Runs

universe u v w

variable {γ : Type u} {σ : Type v} {χ : Type w}

structure Pool (γ : Type u) (σ : Type v) where
  shared : γ
  procs : List σ
  deriving DecidableEq, Repr

/-- A process starts, or the `i`-th one has a turn. -/
inductive Action (σ : Type v) (χ : Type w)
  | start (s : σ)
  | turn (i : ℕ) (choice : χ)
  deriving DecidableEq, Repr

/-- `none` when the process is not one to start with, or cannot go on. -/
def step (entry : σ → Bool) (next : χ → γ → σ → Option (γ × σ)) (p : Pool γ σ) :
    Action σ χ → Option (Pool γ σ)
  | .start s => if entry s then some ⟨p.shared, p.procs ++ [s]⟩ else none
  | .turn i choice => p.procs[i]?.bind fun s => (next choice p.shared s).map fun r => ⟨r.1, p.procs.set i r.2⟩

/-- What the processes contribute together. -/
def total {M : Type*} [AddCommMonoid M] (f : σ → M) (procs : List σ) : M := (procs.map f).sum

variable {entry : σ → Bool} {next : χ → γ → σ → Option (γ × σ)} {p p' : Pool γ σ} {g₀ g g' : γ} {s s' : σ}
  {front back : List σ} {choice : χ} {acts : List (Action σ χ)}

def Reachable (entry : σ → Bool) (next : χ → γ → σ → Option (γ × σ)) (g₀ : γ) (p : Pool γ σ) : Prop :=
  ∃ acts, run (step entry next) acts ⟨g₀, []⟩ = some p

/-- No process can go on, however the choices fall. -/
def Stuck (next : χ → γ → σ → Option (γ × σ)) (p : Pool γ σ) : Prop :=
  ∀ s ∈ p.procs, ∀ c, next c p.shared s = none

/-! ## Steps -/

theorem step_start (h : step entry next p (.start s) = some p') :
    entry s = true ∧ p' = ⟨p.shared, p.procs ++ [s]⟩ := by
  rw [step] at h
  split_ifs at h with he
  exact ⟨he, (Option.some.inj h).symm⟩

theorem set_split (h : p.procs[i]? = some s) : ∃ front back, p.procs = front ++ s :: back ∧
    ∀ s', p.procs.set i s' = front ++ s' :: back := by
  obtain ⟨hi, hs⟩ := List.getElem?_eq_some_iff.mp h
  refine ⟨p.procs.take i, p.procs.drop (i + 1), ?_,
    fun s' => List.set_eq_take_append_cons_drop.trans (if_pos hi)⟩
  rw [← hs, List.getElem_cons_drop, List.take_append_drop]

/-- The process that has the turn stands between the others, which keep their states. -/
theorem step_turn {i : ℕ} (h : step entry next p (.turn i choice) = some p') : ∃ front s back g' s',
    p = ⟨p.shared, front ++ s :: back⟩ ∧ next choice p.shared s = some (g', s') ∧
    p' = ⟨g', front ++ s' :: back⟩ ∧
      p.procs[i]? = some s := by
  obtain ⟨s, hs, h⟩ := Option.bind_eq_some_iff.mp h
  obtain ⟨⟨g', s'⟩, hnext, rfl⟩ := Option.map_eq_some_iff.mp h
  obtain ⟨front, back, hsplit, hset⟩ := set_split hs
  refine ⟨front, s, back, g', s', ?_, hnext, ?_, hs⟩
  · rw [← hsplit]
  · rw [← hset]

/-- A step leaves a process as it is, or is a turn of it. -/
theorem step_getElem? {act : Action σ χ} {i : ℕ} (h : step entry next p act = some p')
    (hs : p.procs[i]? = some s) :
    p'.procs[i]? = some s ∨ ∃ c s', next c p.shared s = some (p'.shared, s') ∧ p'.procs[i]? = some s' := by
  have hi := (List.getElem?_eq_some_iff.mp hs).1
  cases act with
  | start t =>
    obtain ⟨-, rfl⟩ := step_start h
    exact Or.inl ((List.getElem?_append_left hi).trans hs)
  | turn j c =>
    obtain ⟨t, ht, h⟩ := Option.bind_eq_some_iff.mp h
    obtain ⟨⟨g', t'⟩, hnext, rfl⟩ := Option.map_eq_some_iff.mp h
    by_cases hij : j = i
    · subst hij
      obtain rfl := Option.some.inj (ht.symm.trans hs)
      exact Or.inr ⟨c, t', hnext, List.getElem?_set_self hi⟩
    · exact Or.inl ((List.getElem?_set_ne hij).trans hs)

/-- **Invariants** of the runs in which `G` holds before every step. -/
theorem always_guarded {P G : Pool γ σ → Prop} (h0 : P ⟨g₀, []⟩)
    (hstart : ∀ p s, P p → entry s = true → P ⟨p.shared, p.procs ++ [s]⟩)
    (hturn : ∀ g front s back choice g' s', P ⟨g, front ++ s :: back⟩ → G ⟨g, front ++ s :: back⟩ →
      next choice g s = some (g', s') → P ⟨g', front ++ s' :: back⟩)
    (h : EveryStep (step entry next) (fun p _ => G p) acts ⟨g₀, []⟩) :
    Always (step entry next) P acts ⟨g₀, []⟩ := by
  refine always_of_step h0 (fun p act p' hp hG hstep => ?_) h
  cases act with
  | start s =>
    obtain ⟨he, rfl⟩ := step_start hstep
    exact hstart p s hp he
  | turn i choice =>
    obtain ⟨front, s, back, g', s', hpool, hnext, rfl, -⟩ := step_turn hstep
    exact hturn p.shared front s back choice g' s' (hpool ▸ hp) (hpool ▸ hG) hnext

/-- **Invariants.**  What holds of the empty pool, when a process starts and after a turn of any process. -/
theorem always {P : Pool γ σ → Prop} (h0 : P ⟨g₀, []⟩)
    (hstart : ∀ p s, P p → entry s = true → P ⟨p.shared, p.procs ++ [s]⟩)
    (hturn : ∀ g front s back choice g' s', P ⟨g, front ++ s :: back⟩ → next choice g s = some (g', s') →
      P ⟨g', front ++ s' :: back⟩) (h : Reachable entry next g₀ p) : P p := by
  obtain ⟨acts, hrun⟩ := h
  refine (always_guarded (G := fun _ => True) h0 hstart ?_ fun _ _ _ _ _ _ => trivial).last hrun
  exact fun g front s back choice g' s' hp _ hnext => hturn g front s back choice g' s' hp hnext

theorem Reachable.step {act : Action σ χ} (h : Reachable entry next g₀ p)
    (hstep : step entry next p act = some p') : Reachable entry next g₀ p' := by
  obtain ⟨acts, hrun⟩ := h
  exact ⟨acts ++ [act], (run_concat hrun).trans hstep⟩

/-! ## Totals -/

section Total

variable {M : Type*} [AddCommMonoid M] (f : σ → M)

@[simp] theorem total_nil : total f [] = 0 := rfl

@[simp] theorem total_concat : total f (front ++ [s]) = total f front + f s := by
  rw [total, List.map_append, List.sum_append]
  exact congrArg (_ + ·) (List.sum_singleton)

@[simp] theorem total_split : total f (front ++ s :: back) = total f front + total f back + f s := by
  rw [total, List.map_append, List.sum_append, List.map_cons, List.sum_cons, add_comm (f s), ← add_assoc]
  rfl

theorem total_of_forall (h : ∀ s ∈ front, f s = 0) : total f front = 0 :=
  List.sum_eq_zero (List.forall_mem_map.mpr h)

theorem total_append : total f (front ++ back) = total f front + total f back := by
  rw [total, List.map_append, List.sum_append]
  rfl

theorem total_add (f' : σ → M) : total (fun s => f s + f' s) front = total f front + total f' front := by
  induction front with
  | nil => exact (add_zero 0).symm
  | cons s front ih => simp only [total, List.map_cons, List.sum_cons] at ih ⊢; rw [ih, add_add_add_comm]

end Total

theorem total_le {f : σ → ℕ} {n : ℕ} (front : List σ) (h : ∀ s, f s ≤ n) :
    total f front ≤ n * front.length := by
  induction front with
  | nil => exact Nat.zero_le _
  | cons s front ih =>
    have hs := h s
    simp only [total, List.map_cons, List.sum_cons, List.length_cons] at ih ⊢
    rw [Nat.mul_succ]
    omega

theorem total_le_length {f : σ → ℕ} (h : ∀ s, f s ≤ 1) : total f front ≤ front.length :=
  (total_le front h).trans (Nat.one_mul _).le

/-- Where no process contributes, the total is 0. -/
theorem total_eq_zero {f : σ → ℕ} : total f front = 0 ↔ ∀ s ∈ front, f s = 0 := by
  rw [total, List.sum_eq_zero_iff_forall_eq_nat]
  exact List.forall_mem_map

/-- What holds of each process: after its own turn, and when the turns of the others keep it. -/
theorem forall_turn {I : γ → σ → Prop} (g g' : γ) (h : ∀ t ∈ front ++ s :: back, I g t)
    (hown : I g s → I g' s') (hother : ∀ t, I g t → I g' t) : ∀ t ∈ front ++ s' :: back, I g' t := by
  intro t ht
  rcases List.mem_append.mp ht with ht | ht
  · exact hother t (h t (List.mem_append_left _ ht))
  · rcases List.mem_cons.mp ht with rfl | ht
    · exact hown (h s (List.mem_append_right _ List.mem_cons_self))
    · exact hother t (h t (List.mem_append_right _ (List.mem_cons_of_mem _ ht)))

/-! ## The end of a run -/

section Measure

variable {m : Pool γ σ → ℕ}

/-- Every turn lowers the measure. -/
def Lowers (next : χ → γ → σ → Option (γ × σ)) (m : Pool γ σ → ℕ) : Prop :=
  ∀ g front s back choice g' s', next choice g s = some (g', s') →
    m ⟨g', front ++ s' :: back⟩ < m ⟨g, front ++ s :: back⟩

/-- A run in which no process starts has at most as many steps as the measure allows. -/
theorem length_run_le (hm : Lowers next m) (hturns : ∀ act ∈ acts, ∃ i c, act = Action.turn i c)
    (hrun : run (step entry next) acts p = some p') : acts.length + m p' ≤ m p := by
  induction acts generalizing p with
  | nil =>
    obtain rfl := Option.some.inj hrun
    exact (Nat.zero_add _).le
  | cons act acts ih =>
    obtain ⟨q, hq, hrun⟩ := Option.bind_eq_some_iff.mp hrun
    obtain ⟨i, c, rfl⟩ := hturns _ List.mem_cons_self
    obtain ⟨front, s, back, g', s', hpool, hnext, rfl, -⟩ := step_turn hq
    have hlow := hm p.shared front s back c g' s' hnext
    have hrest := ih (fun act hact => hturns act (List.mem_cons_of_mem _ hact)) hrun
    rw [hpool, List.length_cons]
    omega

end Measure

end Interleaving
