import QYInterview.Lib.Sorted
import Mathlib.Data.Set.Insert

/-!
# Collect — listing the members of a set, each once

`Adds base S s`: the list `s` is `base` followed by the members of `S`, each once.  A loop over the
positions of a sorted list that passes over a value it has just seen lists what starts at any of the
positions, each member once, when what starts at a position depends on the value only (`Starts`).
-/

namespace Collect

open Sorted

universe u v

/-- The list `s` is `base` followed by the members of `S`, each once. -/
def Adds {τ : Type u} (base : List τ) (S : Set τ) (s : List τ) : Prop :=
  ∃ new, s = base ++ new ∧ new.Nodup ∧ ∀ t, t ∈ new ↔ t ∈ S

section Adds

variable {τ : Type u} {base s s' : List τ} {S S' : Set τ} {a : τ}

theorem adds_empty (base : List τ) : Adds base ∅ base :=
  ⟨[], (List.append_nil base).symm, List.nodup_nil, fun t => by simp⟩

theorem adds_nil_iff : Adds [] S s ↔ s.Nodup ∧ ∀ t, t ∈ s ↔ t ∈ S := by
  constructor
  · rintro ⟨new, rfl, hnd, hmem⟩
    exact ⟨hnd, hmem⟩
  · rintro ⟨hnd, hmem⟩
    exact ⟨s, rfl, hnd, hmem⟩

theorem Adds.congr (h : Adds base S s) (hS : ∀ t, t ∈ S ↔ t ∈ S') : Adds base S' s := by
  obtain ⟨new, heq, hnd, hmem⟩ := h
  exact ⟨new, heq, hnd, fun t => (hmem t).trans (hS t)⟩

/-- Two sets with no common member, one after the other. -/
theorem Adds.union (h : Adds base S s) (h' : Adds s S' s') (hdisj : ∀ t ∈ S, t ∉ S') :
    Adds base (S ∪ S') s' := by
  obtain ⟨new, rfl, hnd, hmem⟩ := h
  obtain ⟨new', rfl, hnd', hmem'⟩ := h'
  refine ⟨new ++ new', List.append_assoc base new new', ?_, fun t => ?_⟩
  · refine List.nodup_append.mpr ⟨hnd, hnd', ?_⟩
    rintro t ht _ ht' rfl
    exact hdisj t ((hmem t).mp ht) ((hmem' t).mp ht')
  · rw [List.mem_append, hmem t, hmem' t]
    exact Iff.rfl

/-- One more member at the end. -/
theorem Adds.insert (h : Adds base S s) (ha : a ∉ S) : Adds base (insert a S) (s ++ [a]) := by
  have hone : Adds s {a} (s ++ [a]) := ⟨[a], rfl, List.nodup_singleton a, fun t => by simp⟩
  refine (h.union hone fun t ht hta => ha ?_).congr fun t => ?_
  · rwa [← Set.mem_singleton_iff.mp hta]
  · rw [Set.mem_union, Set.mem_insert_iff, Set.mem_singleton_iff, or_comm]

end Adds

/-! ## Passing over repeated values -/

section Starts

variable {α : Type u} {τ : Type v} {xs : List α} {lo m n p q : ℕ} {From : ℕ → Set τ} {base s s' : List τ}

/-- The value at `p` is the same as the one before it, which is at `lo` or behind. -/
def Repeated (xs : List α) (lo p : ℕ) : Prop := ∃ m, lo ≤ m ∧ p = m + 1 ∧ xs[m]? = xs[p]?

theorem repeated_succ_iff : Repeated xs lo (m + 1) ↔ lo ≤ m ∧ xs[m]? = xs[m + 1]? := by
  constructor
  · rintro ⟨m', hlo, hm', heq⟩
    obtain rfl := Nat.succ.inj hm'
    exact ⟨hlo, heq⟩
  · rintro ⟨hlo, heq⟩
    exact ⟨m, hlo, rfl, heq⟩

/-- Of the new values below `n + 1`, the last one may stand at `n`. -/
theorem forall_new_succ {P : ℕ → Prop} (hlo : lo ≤ n) :
    (∀ p, lo ≤ p → p < n + 1 → ¬ Repeated xs lo p → P p) ↔
      (∀ p, lo ≤ p → p < n → ¬ Repeated xs lo p → P p) ∧ (¬ Repeated xs lo n → P n) := by
  constructor
  · exact fun h => ⟨fun p h1 h2 => h p h1 (Nat.lt_succ_of_lt h2), h n hlo (Nat.lt_succ_self n)⟩
  · rintro ⟨hold, hlast⟩ p h1 h2 hp
    rcases Nat.lt_or_eq_of_le (Nat.lt_succ_iff.mp h2) with hlt | rfl
    · exact hold p h1 hlt hp
    · exact hlast hp

/-- `From p` is what starts at position `p` of the list, a member with a given value only, and what starts at
a repeated value starts at the one before it as well. -/
structure Starts (xs : List α) (lo : ℕ) (From : ℕ → Set τ) : Prop where
  value : ∀ p q t, t ∈ From p → t ∈ From q → xs[p]? = xs[q]?
  before : ∀ m t, lo ≤ m → xs[m]? = xs[m + 1]? → t ∈ From (m + 1) → t ∈ From m

/-- What starts at the positions from `lo` and below `n`. -/
def startsIn (From : ℕ → Set τ) (lo n : ℕ) : Set τ := {t | ∃ p, lo ≤ p ∧ p < n ∧ t ∈ From p}

theorem startsIn_self (t : τ) : t ∉ startsIn From lo lo := by
  rintro ⟨p, h1, h2, -⟩
  omega

theorem mem_startsIn_succ (hn : lo ≤ n) (t : τ) :
    t ∈ startsIn From lo (n + 1) ↔ t ∈ startsIn From lo n ∪ From n := by
  constructor
  · rintro ⟨p, h1, h2, ht⟩
    rcases Nat.lt_or_eq_of_le (Nat.lt_succ_iff.mp h2) with h | rfl
    · exact Or.inl ⟨p, h1, h, ht⟩
    · exact Or.inr ht
  · rintro (⟨p, h1, h2, ht⟩ | ht)
    · exact ⟨p, h1, Nat.lt_succ_of_lt h2, ht⟩
    · exact ⟨n, hn, Nat.lt_succ_self n, ht⟩

/-- Nothing new starts at a repeated value. -/
theorem Starts.pass (h : Starts xs lo From) (hn : Repeated xs lo n) (hs : Adds base (startsIn From lo n) s) :
    Adds base (startsIn From lo (n + 1)) s := by
  obtain ⟨m, hlo, rfl, heq⟩ := hn
  refine hs.congr fun t => ((mem_startsIn_succ (by omega) t).trans ⟨?_, Or.inl⟩).symm
  rintro (ht | ht)
  · exact ht
  · exact ⟨m, hlo, Nat.lt_succ_self m, h.before m t hlo heq ht⟩

/-- All that starts at a new value is new. -/
theorem Starts.add [LinearOrder α] (h : Starts xs lo From) (hxs : xs.Pairwise (· ≤ ·)) (hlo : lo ≤ n)
    (hn : ¬ Repeated xs lo n) (hs : Adds base (startsIn From lo n) s) (hs' : Adds s (From n) s') :
    Adds base (startsIn From lo (n + 1)) s' := by
  refine (hs.union hs' ?_).congr fun t => (mem_startsIn_succ hlo t).symm
  rintro t ⟨p, h1, h2, htp⟩ htn
  obtain ⟨m, rfl⟩ := Nat.exists_eq_add_of_le' (show 1 ≤ n by omega)
  exact hn ⟨m, by omega, rfl, eq_between hxs (by omega) (Nat.le_succ m) (h.value p (m + 1) t htp htn)⟩

end Starts

end Collect
