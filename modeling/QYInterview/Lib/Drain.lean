import Mathlib.Logic.Hydra
import QYInterview.Lib.RunLogic

/-!
# Drain — loops that take something off and may put smaller things back

A loop that empties a stack ends also when the work on one item puts new ones on it, as long as these are
smaller in a well-founded relation, however many they are.  `halts_loop_wf` is the rule for a loop with a
well-founded measure, `Cut r` the order of its stages, and `cut_replicate` and `cut_drop` its steps: some
copies of one item give way to smaller ones, or the stack gets shorter with the same items on it.
-/

namespace Drain

open RunLogic Relation

universe u v

variable {σ ρ : Type u} {α : Type v}

/-- **Well-founded loops.** -/
theorem halts_loop_wf {turn : σ → Prog (Turn σ ρ)} {R : σ → σ → Prop} (hR : WellFounded R) (I : σ → Prop)
    (Q : ρ → Prop) (hturn : ∀ s, I s → Halts (turn s) (Turn.Good (fun s' => I s' ∧ R s' s) Q)) {s : σ}
    (hs : I s) :
    Halts (loop turn s) Q := by
  suffices h : ∃ r, LoopReturns turn s r ∧ Q r by
    obtain ⟨r, hr, hQ⟩ := h
    exact hr.returns.halts hQ
  induction s using hR.induction with
  | _ s ih =>
    obtain ⟨t, ht, hgood⟩ := hturn s hs
    cases t with
    | exit r => exact ⟨r, loopReturns_exit ht, hgood⟩
    | next s' =>
      obtain ⟨r, hr, hQ⟩ := ih s' hgood.2 hgood.1
      exact ⟨r, loopReturns_next ht hr, hQ⟩

/-- The items left with the height of the stack: items give way to smaller ones, or the stack gets shorter. -/
def Cut (r : α → α → Prop) : Multiset α × ℕ → Multiset α × ℕ → Prop :=
  Prod.Lex (TransGen (CutExpand r)) (· < ·)

variable {r : α → α → Prop}

theorem wellFounded_cut (hr : WellFounded r) : WellFounded (Cut r) := by
  have := hr.irrefl
  exact WellFounded.prod_lex hr.cutExpand.transGen (measure id).wf

/-- One item gives way to smaller ones. -/
theorem cutExpand_single {a : α} {s t : Multiset α} (ht : ∀ b ∈ t, r b a) :
    CutExpand r (s + t) (s + {a}) := by
  rw [cutExpand_add_left]
  exact cutExpand_singleton ht

/-- `n + 1` copies of an item give way to smaller items. -/
theorem cut_replicate {a : α} {s t : Multiset α} {n k l : ℕ} (ht : ∀ b ∈ t, r b a) :
    Cut r (s + t, k) (s + Multiset.replicate (n + 1) a, l) := by
  refine Prod.Lex.left _ _ ?_
  induction n with
  | zero =>
    rw [Multiset.replicate_one]
    exact TransGen.single (cutExpand_single ht)
  | succ n ih =>
    refine ih.tail ?_
    have h : s + Multiset.replicate (n + 2) a = s + Multiset.replicate (n + 1) a + {a} := by
      rw [Multiset.replicate_succ a (n + 1), ← Multiset.singleton_add,
        add_comm {a} (Multiset.replicate (n + 1) a),
        ← add_assoc]
    have hone := cutExpand_single (r := r) (a := a) (s := s + Multiset.replicate (n + 1) a) (t := 0) (by simp)
    rwa [h, ← add_zero (s + Multiset.replicate (n + 1) a), add_assoc _ 0, zero_add]

/-- The items stay and the stack gets shorter. -/
theorem cut_drop {s : Multiset α} {k l : ℕ} (h : k < l) : Cut r (s, k) (s, l) := Prod.Lex.right _ h

end Drain
