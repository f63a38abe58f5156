import QYInterview.Lib.Ancestry
import QYInterview.Swift

/-!
# NearlyFather — the nearest common superclass

`NearlyFatherController.swift` collects the superclasses of two classes and looks for the first one of the
first class among those of the second, by a loop over them or in an `NSSet`.
-/

namespace QYInterview.NearlyFather

open RunLogic Dispatch

variable {κ : Type}

/-! ## The code -/

/-- `while aClass != nil` -/
def superClassesTurn (H : Hierarchy κ) : Option κ × List κ → Prog (Turn (Option κ × List κ) (List κ))
  | (some aClass, result) => pure (.next (H.super aClass, result ++ [aClass]))
  | (none, result) => pure (.exit result)

def superClasses (H : Hierarchy κ) (aClass : κ) : Prog (List κ) := loop (superClassesTurn H) (some aClass, [])

variable [DecidableEq κ]

/-- `for bItem in bResult` -/
def compareItems (bResult : List κ) (aItem : κ) : Prog (Turn PUnit (Option κ)) :=
  forUntil (fun s bItem => if aItem = bItem then pure (.exit (some aItem)) else pure (.next s)) bResult ⟨⟩

def comparison (H : Hierarchy κ) (aClass bClass : κ) : Prog (Option κ) := do
  let aResult ← superClasses H aClass
  let bResult ← superClasses H bClass
  let t ← forUntil (fun _ aItem => compareItems bResult aItem) aResult PUnit.unit
  return t.getD none

/-- `NSSet(array: bResult)` -/
def optimizeComparison (H : Hierarchy κ) (aClass bClass : κ) : Prog (Option κ) := do
  let aResult ← superClasses H aClass
  let bResult ← superClasses H bClass
  let bSet := bResult.toFinset
  let t ← forUntil (fun s aItem => if aItem ∈ bSet then pure (.exit (some aItem)) else pure (.next s)) aResult
    PUnit.unit
  return t.getD none

/-! ## What they return -/

section Proofs

variable {H : Hierarchy κ}

omit [DecidableEq κ] in
theorem returns_superClasses (c : κ) : Returns (superClasses H c) (H.line c) := by
  have key : ∀ result, LoopReturns (superClassesTurn H) (some c, result) (result ++ H.line c) := by
    induction c using H.super_induction with
    | htop c hs =>
      intro result
      refine loopReturns_next (returns_pure _) (loopReturns_exit ?_)
      rw [hs, Hierarchy.line_of_top hs]
      exact returns_pure _
    | hsuper c d hs ih =>
      intro result
      refine loopReturns_next (returns_pure _) ?_
      rw [hs, Hierarchy.line_of_super hs, List.append_cons result c (H.line d)]
      exact ih (result ++ [c])
  exact (key []).returns

/-- What a `for` that returns the first item with a property gives. -/
def found (p : κ → Bool) (l : List κ) : Turn PUnit (Option κ) :=
  match l.find? p with
  | some c => .exit (some c)
  | none => .next ⟨⟩

omit [DecidableEq κ] in
theorem forUntil_found {p : κ → Bool} {body : PUnit → κ → Prog (Turn PUnit (Option κ))}
    (hbody : ∀ c, body ⟨⟩ c = pure (if p c then .exit (some c) else .next ⟨⟩)) (l : List κ) :
    forUntil body l ⟨⟩ = pure (found p l) := by
  induction l with
  | nil => rfl
  | cons c l ih =>
    rw [forUntil, hbody, pure_bind]
    by_cases hc : p c = true
    · rw [if_pos hc, found, List.find?_cons_of_pos hc]
    · rw [if_neg hc, found, List.find?_cons_of_neg hc]
      exact ih

omit [DecidableEq κ] in
theorem found_getD (p : κ → Bool) (l : List κ) : (found p l).getD none = l.find? p := by
  unfold found
  cases l.find? p <;> rfl

theorem compareItems_eq (bResult : List κ) (c : κ) :
    compareItems bResult c = pure (if c ∈ bResult then .exit (some c) else .next ⟨⟩) := by
  unfold compareItems
  induction bResult with
  | nil => rfl
  | cons b bResult ih =>
    rw [forUntil]
    by_cases hc : c = b
    · rw [if_pos hc, pure_bind, if_pos (List.mem_cons.mpr (Or.inl hc))]
    · rw [if_neg hc, pure_bind]
      simp only [List.mem_cons, hc, false_or]
      exact ih

theorem returns_comparison (a b : κ) :
    Returns (comparison H a b) ((H.line a).find? fun c => decide (c ∈ H.line b)) := by
  refine returns_bind (returns_superClasses a) (returns_bind (returns_superClasses b) ?_)
  rw [forUntil_found (p := fun c => decide (c ∈ H.line b))
    (fun c => by simp only [compareItems_eq, decide_eq_true_eq]),
    pure_bind, found_getD]
  exact returns_pure _

theorem returns_optimizeComparison (a b : κ) :
    Returns (optimizeComparison H a b) ((H.line a).find? fun c => decide (c ∈ H.line b)) := by
  refine returns_bind (returns_superClasses a) (returns_bind (returns_superClasses b) ?_)
  dsimp only
  rw [forUntil_found (p := fun c => decide (c ∈ H.line b)) (fun c => by
      simp only [List.mem_toFinset, decide_eq_true_eq]
      split_ifs <;> rfl), pure_bind, found_getD]
  exact returns_pure _

theorem find_eq_some_iff {a b c : κ} :
    ((H.line a).find? fun d => decide (d ∈ H.line b)) = some c ↔ H.Nearest a b c := by
  have hp : ∀ d, decide (d ∈ H.line b) = true ↔ H.Above d b := fun d => by
    rw [decide_eq_true_eq, Hierarchy.mem_line]
  refine ⟨fun h => Hierarchy.nearest_of_find hp h, ?_⟩
  intro h
  cases hf : (H.line a).find? fun d => decide (d ∈ H.line b) with
  | some d => rw [(Hierarchy.nearest_of_find hp hf).unique h]
  | none =>
    rw [List.find?_eq_none] at hf
    exact absurd ((hp c).mpr h.right) (hf c (Hierarchy.mem_line.mpr h.left))

theorem find_eq_none_iff {a b : κ} :
    ((H.line a).find? fun d => decide (d ∈ H.line b)) = none ↔ H.root a ≠ H.root b := by
  rw [List.find?_eq_none, Ne, ← Hierarchy.exists_above_iff, not_exists]
  apply forall_congr'
  intro d
  rw [decide_eq_true_eq, Hierarchy.mem_line, Hierarchy.mem_line, not_and]

end Proofs

/-- Both functions, in either order of the classes, return the nearest common ancestor, and `nil` exactly
when the roots differ. -/
theorem comparison_spec (H : Hierarchy κ) (aClass bClass : κ) :
    ∃ r, Returns (comparison H aClass bClass) r ∧ Returns (optimizeComparison H aClass bClass) r ∧
      Returns (comparison H bClass aClass) r ∧ Returns (optimizeComparison H bClass aClass) r ∧
      (∀ c, r = some c ↔ H.Nearest aClass bClass c) ∧ (r = none ↔ H.root aClass ≠ H.root bClass) := by
  have hsymm : ((H.line bClass).find? fun d => decide (d ∈ H.line aClass)) =
      (H.line aClass).find? fun d => decide (d ∈ H.line bClass) :=
    Option.ext fun c => by
      rw [find_eq_some_iff, find_eq_some_iff]
      exact ⟨Hierarchy.Nearest.symm, Hierarchy.Nearest.symm⟩
  refine ⟨_, returns_comparison aClass bClass, returns_optimizeComparison aClass bClass, ?_, ?_,
    fun c => find_eq_some_iff, find_eq_none_iff⟩
  · rw [← hsymm]
    exact returns_comparison bClass aClass
  · rw [← hsymm]
    exact returns_optimizeComparison bClass aClass

end QYInterview.NearlyFather
