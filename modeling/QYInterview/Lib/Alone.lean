import Mathlib.Tactic
import Mathlib.Data.List.Dedup

/-!
# Alone — the elements whose neighbours have other keys

`alone f v l` are the elements of `l` whose key differs from the keys of both neighbours, the runs of length
one of `l.map f`; `v` is the key in front of the list, if there is one.  A run of equal keys can be dropped
as a whole (`alone_dropWhile`).  In an ascending list these are the elements whose key occurs once
(`mem_alone_sorted`).
-/

namespace Alone

universe u v

variable {α : Type u} {β : Type v}

def alone [DecidableEq β] (f : α → β) : Option β → List α → List α
  | _, [] => []
  | v, a :: l =>
    if v ≠ some (f a) ∧ l.head?.map f ≠ some (f a) then
      a :: alone f (some (f a)) l else alone f (some (f a)) l

/-- The key before an element with `front` before it. -/
def keyBefore (f : α → β) (v : Option β) (front : List α) : Option β := (front.getLast?.map f).or v

section Runs

variable [DecidableEq β] {f : α → β} {v : Option β} {a b : α} {front back l : List α}

theorem alone_cons_self : alone f (some (f a)) (a :: l) = alone f (some (f a)) l := by
  rw [alone, if_neg fun h => h.1 rfl]

theorem alone_cons_eq (h : f b = f a) : alone f v (a :: b :: l) = alone f (some (f a)) (b :: l) := by
  rw [alone, if_neg fun hne => hne.2 (congrArg some h)]

theorem alone_cons_ne (hv : v ≠ some (f a)) (h : f b ≠ f a) :
    alone f v (a :: b :: l) = a :: alone f (some (f a)) (b :: l) := by
  rw [alone, if_pos ⟨hv, fun heq => h (Option.some.inj heq)⟩]

theorem alone_singleton (hv : v ≠ some (f a)) : alone f v [a] = [a] := by
  rw [alone, if_pos ⟨hv, by simp⟩, alone]

theorem alone_sublist (f : α → β) (v : Option β) (l : List α) : (alone f v l).Sublist l := by
  induction l generalizing v with
  | nil => exact List.Sublist.slnil
  | cons a l ih =>
    rw [alone]
    split_ifs
    · exact (ih _).cons_cons a
    · exact (ih _).cons a

/-- The rest of a run goes. -/
theorem alone_dropWhile (f : α → β) (x : β) (l : List α) :
    alone f (some x) (l.dropWhile fun a => f a = x) = alone f (some x) l := by
  induction l with
  | nil => rfl
  | cons a l ih =>
    by_cases ha : f a = x
    · rw [List.dropWhile_cons_of_pos (by simpa using ha), ih, ← ha, alone_cons_self]
    · rw [List.dropWhile_cons_of_neg (by simpa using ha)]

/-- What is left behind a run begins with another key. -/
theorem ne_of_head?_dropWhile {x : β} (h : (l.dropWhile fun a => f a = x).head? = some a) : f a ≠ x := by
  have hnot := List.head?_dropWhile_not (fun a => decide (f a = x)) l
  rw [h] at hnot
  simpa using hnot

omit [DecidableEq β] in
theorem keyBefore_cons (front : List α) : keyBefore f v (a :: front) = keyBefore f (some (f a)) front := by
  cases front with
  | nil => rfl
  | cons b front => simp [keyBefore, List.getLast?_cons]

/-- An element stays if both neighbours have other keys. -/
theorem mem_alone (hnd : (front ++ a :: back).Nodup) :
    a ∈ alone f v (front ++ a :: back) ↔ keyBefore f v front ≠ some (f a) ∧
      back.head?.map f ≠ some (f a) := by
  induction front generalizing v with
  | nil =>
    have ha : a ∉ alone f (some (f a)) back := fun h =>
      (List.nodup_cons.mp hnd).1 ((alone_sublist f _ back).mem h)
    show a ∈ alone f v (a :: back) ↔ v ≠ some (f a) ∧ _
    rw [alone]
    split_ifs with h
    · exact iff_of_true List.mem_cons_self h
    · exact iff_of_false ha h
  | cons b front ih =>
    obtain ⟨hb, hnd⟩ := List.nodup_cons.mp hnd
    have hne : a ≠ b := by
      rintro rfl
      exact hb (by simp)
    rw [keyBefore_cons, ← ih hnd, List.cons_append, alone]
    split_ifs
    · rw [List.mem_cons, or_iff_right hne]
    · rfl

end Runs

/-! ## Ascending keys -/

section Sorted

variable [LinearOrder β] {f : α → β} {a : α} {l : List α}

/-- In an ascending list a key that is not the next one does not come again. -/
theorem not_mem_of_head? {x : β} (hs : (l.map f).Pairwise (· ≤ ·)) (hle : ∀ y ∈ l.map f, x ≤ y)
    (hhead : l.head?.map f ≠ some x) : x ∉ l.map f := by
  cases l with
  | nil => simp
  | cons b l =>
    have hb : x < f b := lt_of_le_of_ne (hle _ List.mem_cons_self) fun h => hhead (congrArg some h.symm)
    intro hx
    rcases List.mem_cons.mp hx with heq | hx
    · exact hb.ne heq
    · exact (hb.trans_le (List.rel_of_pairwise_cons hs hx)).false

/-- A key that occurs once behind `a` is not in front of it. -/
theorem once_behind {v : Option β} {y : β} (hle : ∀ z ∈ l.map f, f a ≤ z) (hv : ∀ x ∈ v, x ≤ f a)
    (hy : y ≠ f a) :
    (some (f a) ≠ some y ∧ (l.map f).count y = 1) ↔ v ≠ some y ∧ ((a :: l).map f).count y = 1 := by
  rw [List.map_cons, List.count_cons_of_ne hy.symm, and_congr_left_iff]
  intro hcount
  have hmem : y ∈ l.map f := List.count_pos_iff.mp (by omega)
  refine iff_of_true (fun h => hy (Option.some.inj h).symm) ?_
  intro h
  exact hy (le_antisymm (hv y h) (hle y hmem))

/-- The keys that occur once, except the one in front. -/
theorem mem_alone_sorted {v : Option β} (hs : (l.map f).Pairwise (· ≤ ·))
    (hv : ∀ x ∈ v, ∀ y ∈ l.map f, x ≤ y) (y : β) :
    y ∈ (alone f v l).map f ↔ v ≠ some y ∧ (l.map f).count y = 1 := by
  induction l generalizing v with
  | nil => simp [alone]
  | cons a l ih =>
    obtain ⟨hle, hs⟩ := List.pairwise_cons.mp hs
    have hva : ∀ x ∈ v, x ≤ f a := fun x hx => hv x hx (f a) List.mem_cons_self
    have ih : y ∈ (alone f (some (f a)) l).map f ↔ some (f a) ≠ some y ∧ (l.map f).count y = 1 :=
      ih hs fun x hx => Option.some.inj hx ▸ hle
    rw [alone]
    split_ifs with h
    · rw [List.map_cons, List.mem_cons]
      by_cases hy : y = f a
      · have hnot := List.count_eq_zero_of_not_mem (not_mem_of_head? hs hle h.2)
        rw [hy, List.map_cons, List.count_cons_self, hnot]
        exact iff_of_true (Or.inl rfl) ⟨h.1, rfl⟩
      · rw [or_iff_right hy, ih, once_behind hle hva hy]
    · by_cases hy : y = f a
      · refine iff_of_false (fun hmem => (ih.mp hmem).1 (congrArg some hy.symm)) ?_
        rintro ⟨hv', hcount⟩
        rw [hy] at hv' hcount
        have hhead : l.head?.map f = some (f a) := by
          by_contra hne
          exact h ⟨hv', hne⟩
        obtain ⟨b, hb, hba⟩ := Option.map_eq_some_iff.mp hhead
        have hmem : f a ∈ l.map f := hba ▸ List.mem_map_of_mem (List.mem_of_head? hb)
        rw [List.map_cons, List.count_cons_self] at hcount
        have hpos := List.count_pos_iff.mpr hmem
        omega
      · rw [ih, once_behind hle hva hy]

theorem nodup_alone_sorted (hs : (l.map f).Pairwise (· ≤ ·)) : ((alone f none l).map f).Nodup := by
  rw [List.nodup_iff_count_le_one]
  intro y
  by_cases hy : y ∈ (alone f none l).map f
  · have honce := ((mem_alone_sorted hs (by simp) y).mp hy).2
    exact honce ▸ ((alone_sublist f none l).map f).count_le y
  · rw [List.count_eq_zero_of_not_mem hy]
    exact Nat.zero_le 1

end Sorted

end Alone
