import Mathlib.Tactic

/-!
# Runs — a state and a list of actions

`run step acts s` takes the actions one after another; a step may fail.  `Always P` says that `P` holds of
every state a run reaches, `EveryStep G` that `G` holds before each of its steps, with the action.  The two
`concat` lemmas take a run apart at its last action, and `always_of_everyStep` is the induction over a run: a
property that holds at the start and that guarded steps preserve always holds, and no step fails.  Where a
step may be impossible in a state, `always_of_step` asks for the steps taken only.
-/

namespace Runs

universe u v

variable {σ : Type u} {α : Type v} {step : σ → α → Option σ} {acts : List α} {act : α} {s s' s₀ : σ}
  {P : σ → Prop} {G : σ → α → Prop}

/-- The state after the actions, or `none` when a step fails. -/
def run (step : σ → α → Option σ) : List α → σ → Option σ
  | [], s => some s
  | a :: acts, s => (step s a).bind (run step acts)

/-- `P` holds of every state the run reaches. -/
def Always (step : σ → α → Option σ) (P : σ → Prop) (acts : List α) (s₀ : σ) : Prop :=
  ∀ front back s, acts = front ++ back → run step front s₀ = some s → P s

/-- `G` holds before every step of the run. -/
def EveryStep (step : σ → α → Option σ) (G : σ → α → Prop) (acts : List α) (s₀ : σ) : Prop :=
  ∀ front act back s, acts = front ++ act :: back → run step front s₀ = some s → G s act

theorem run_append (front back : List α) (s : σ) :
    run step (front ++ back) s = (run step front s).bind (run step back) := by
  induction front generalizing s with
  | nil => rfl
  | cons a front ih =>
    show (step s a).bind (run step (front ++ back)) = _
    rw [funext ih]
    exact (Option.bind_assoc _ _ _).symm

theorem run_singleton (s : σ) : run step [act] s = step s act := Option.bind_fun_some _

theorem run_concat (h : run step acts s₀ = some s) : run step (acts ++ [act]) s₀ = step s act := by
  rw [run_append, h, Option.bind_some, run_singleton]

theorem always_nil : Always step P [] s₀ ↔ P s₀ := by
  constructor
  · exact fun h => h [] [] s₀ rfl rfl
  · intro h front back s heq hrun
    obtain ⟨rfl, -⟩ := List.append_eq_nil_iff.mp heq.symm
    exact Option.some.inj hrun ▸ h

theorem always_concat (hrun : run step acts s₀ = some s) (hstep : step s act = some s') :
    Always step P (acts ++ [act]) s₀ ↔ Always step P acts s₀ ∧ P s' := by
  constructor
  · refine fun h => ⟨fun front back s₁ heq => ?_, ?_⟩
    · exact h front (back ++ [act]) s₁ (by rw [heq, List.append_assoc])
    · exact h (acts ++ [act]) [] s' (List.append_nil _).symm ((run_concat hrun).trans hstep)
  · rintro ⟨h, hlast⟩ front back s₁ heq hrun₁
    rcases List.eq_nil_or_concat' back with rfl | ⟨back, act', rfl⟩
    · rw [List.append_nil] at heq
      rw [← heq, run_concat hrun, hstep] at hrun₁
      exact Option.some.inj hrun₁ ▸ hlast
    · rw [← List.append_assoc] at heq
      exact h front back s₁ (List.append_inj' heq rfl).1 hrun₁

theorem everyStep_concat (hrun : run step acts s₀ = some s) :
    EveryStep step G (acts ++ [act]) s₀ ↔ EveryStep step G acts s₀ ∧ G s act := by
  constructor
  · refine fun h => ⟨fun front act' back s₁ heq => ?_, h acts act [] s rfl hrun⟩
    exact h front act' (back ++ [act]) s₁ (by rw [heq, List.append_assoc, List.cons_append])
  · rintro ⟨h, hlast⟩ front act' back s₁ heq hrun₁
    rcases List.eq_nil_or_concat' back with rfl | ⟨back, act'', rfl⟩
    · obtain ⟨rfl, hact⟩ := List.append_inj' heq rfl
      obtain rfl := Option.some.inj (hrun.symm.trans hrun₁)
      exact (List.cons.inj hact).1 ▸ hlast
    · rw [← List.cons_append, ← List.append_assoc] at heq
      exact h front act' back s₁ (List.append_inj' heq rfl).1 hrun₁

/-- **Run rule.**  Steps that `G` allows preserve `P`. -/
theorem always_of_everyStep (h0 : P s₀)
    (hstep : ∀ s act, P s → G s act → ∃ s', step s act = some s' ∧ P s') (h : EveryStep step G acts s₀) :
    (∃ s, run step acts s₀ = some s) ∧ Always step P acts s₀ := by
  induction acts using List.reverseRecOn with
  | nil => exact ⟨⟨s₀, rfl⟩, always_nil.mpr h0⟩
  | append_singleton acts act ih =>
    have hfront : EveryStep step G acts s₀ := fun front act' back s heq =>
      h front act' (back ++ [act]) s (by rw [heq, List.append_assoc, List.cons_append])
    obtain ⟨⟨s, hrun⟩, halways⟩ := ih hfront
    obtain ⟨s', hs', hP⟩ := hstep s act (halways acts [] s (List.append_nil _).symm hrun)
      ((everyStep_concat hrun).mp h).2
    exact ⟨⟨s', (run_concat hrun).trans hs'⟩, (always_concat hrun hs').mpr ⟨halways, hP⟩⟩

/-- **Run rule** for steps that may be impossible: those that `G` allows and that are taken preserve `P`. -/
theorem always_of_step (h0 : P s₀) (hstep : ∀ s act s', P s → G s act → step s act = some s' → P s')
    (h : EveryStep step G acts s₀) : Always step P acts s₀ := by
  have key : ∀ front back s, acts = front ++ back → run step front s₀ = some s → P s := by
    intro front
    induction front using List.reverseRecOn with
    | nil =>
      intro back s _ hrun
      exact Option.some.inj hrun ▸ h0
    | append_singleton front act ih =>
      intro back s' heq hrun
      rw [List.append_assoc, List.singleton_append] at heq
      rw [run_append] at hrun
      obtain ⟨s, hfront, hlast⟩ := Option.bind_eq_some_iff.mp hrun
      rw [run_singleton] at hlast
      exact hstep s act s' (ih (act :: back) s heq hfront) (h front act back s heq hfront) hlast
  exact key

theorem Always.last {P : σ → Prop} (h : Always step P acts s₀) (hrun : run step acts s₀ = some s) : P s :=
  h acts [] s (List.append_nil _).symm hrun

theorem Always.and {P Q : σ → Prop} (h : Always step P acts s₀) (h' : Always step Q acts s₀) :
    Always step (fun s => P s ∧ Q s) acts s₀ :=
  fun front back s heq hrun => ⟨h front back s heq hrun, h' front back s heq hrun⟩

theorem Always.mono {P Q : σ → Prop} (h : Always step P acts s₀) (hPQ : ∀ s, P s → Q s) :
    Always step Q acts s₀ :=
  fun front back s heq hrun => hPQ s (h front back s heq hrun)

/-- A run whose states all have `P` took only steps that `G` allows, when any other step leaves `P`. -/
theorem everyStep_of_always (hstep : ∀ s act, P s → ¬ G s act → ∃ s', step s act = some s' ∧ ¬ P s')
    (h : Always step P acts s₀) : EveryStep step G acts s₀ := by
  intro front act back s heq hrun
  have hP : P s := h front (act :: back) s heq hrun
  by_contra hG
  obtain ⟨s', hs', hP'⟩ := hstep s act hP hG
  exact hP' (h (front ++ [act]) back s' (by rw [heq, List.append_assoc, List.singleton_append])
    ((run_concat hrun).trans hs'))

end Runs
