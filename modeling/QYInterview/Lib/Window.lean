import Mathlib.Tactic
import Mathlib.Data.List.Nodup

/-!
# Window — longest parts with a property

`LongestSuffix P pre w`: among the suffixes of `pre` that have the property, `w` is the longest.
`Leftmost P xs front sub back`: `sub` has the property, no part of `xs` with the property is longer, and
none of its length starts further left.  When one more element is read, a part of the list with the property
is one of the list before or a suffix (`part_concat`), so the longest suffix decides whether the best part
stays (`Leftmost.keep`) or is replaced (`Leftmost.replace`).  For lists without repetition the longest
suffix is cut behind the earlier occurrence.
-/

namespace Window

universe u

variable {α : Type u} {P : List α → Prop} {pre xs w sub front back : List α} {a : α}

/-- The longest suffix with the property. -/
structure LongestSuffix (P : List α → Prop) (pre w : List α) : Prop where
  suffix : w <:+ pre
  prop : P w
  longest : ∀ w', w' <:+ pre → P w' → w'.length ≤ w.length

/-- `sub` is the leftmost of the longest parts of `xs` with the property. -/
structure Leftmost (P : List α → Prop) (xs front sub back : List α) : Prop where
  split : xs = front ++ sub ++ back
  prop : P sub
  longest : ∀ A B C, xs = A ++ B ++ C → P B → B.length ≤ sub.length
  leftmost : ∀ A B C, xs = A ++ B ++ C → P B → B.length = sub.length → front.length ≤ A.length

/-- A part of a list with one more element is a part of the list or a suffix. -/
theorem part_concat {A B C : List α} (h : pre ++ [a] = A ++ B ++ C) :
    (∃ C', pre = A ++ B ++ C') ∨ (B <:+ pre ++ [a] ∧ A.length + B.length = pre.length + 1) := by
  rcases List.eq_nil_or_concat' C with rfl | ⟨C', c, rfl⟩
  · right
    rw [List.append_nil] at h
    refine ⟨⟨A, h.symm⟩, ?_⟩
    rw [← List.length_append, ← h, List.length_append, List.length_singleton]
  · left
    rw [← List.append_assoc] at h
    exact ⟨C', (List.append_inj' h rfl).1⟩

/-- The best part stays while the longest suffix is not longer. -/
theorem Leftmost.keep (h : Leftmost P pre front sub back) (hw : LongestSuffix P (pre ++ [a]) w)
    (hle : w.length ≤ sub.length) :
    Leftmost P (pre ++ [a]) front sub (back ++ [a]) where
  split := by rw [h.split, List.append_assoc]
  prop := h.prop
  longest A B C heq hB := by
    rcases part_concat heq with ⟨C', hpre⟩ | ⟨hsuffix, -⟩
    · exact h.longest A B C' hpre hB
    · exact (hw.longest B hsuffix hB).trans hle
  leftmost A B C heq hB hlen := by
    rcases part_concat heq with ⟨C', hpre⟩ | ⟨-, hlength⟩
    · exact h.leftmost A B C' hpre hB hlen
    · have hpre := congrArg List.length h.split
      rw [List.length_append, List.length_append] at hpre
      omega

/-- A longer suffix is the best part. -/
theorem Leftmost.replace (h : Leftmost P pre front sub back) (hw : LongestSuffix P (pre ++ [a]) w)
    (hlt : sub.length < w.length) : ∃ front', Leftmost P (pre ++ [a]) front' w [] := by
  obtain ⟨front', hfront⟩ := hw.suffix
  refine ⟨front', by rw [List.append_nil, hfront], hw.prop, fun A B C heq hB => ?_,
    fun A B C heq hB hlen => ?_⟩
  · rcases part_concat heq with ⟨C', hpre⟩ | ⟨hsuffix, -⟩
    · exact (h.longest A B C' hpre hB).trans hlt.le
    · exact hw.longest B hsuffix hB
  · rcases part_concat heq with ⟨C', hpre⟩ | ⟨-, hlength⟩
    · have hle := h.longest A B C' hpre hB
      omega
    · have hfull := congrArg List.length hfront
      rw [List.length_append, List.length_append, List.length_singleton] at hfull
      omega

theorem leftmost_nil (h : P []) : Leftmost P [] [] [] [] where
  split := rfl
  prop := h
  longest A B C heq _ := by simp [(List.append_eq_nil_iff.mp (List.append_eq_nil_iff.mp heq.symm).1).2]
  leftmost _ _ _ _ _ _ := Nat.zero_le _

/-! ## Lists without repetition -/

theorem longestSuffix_nil : LongestSuffix List.Nodup ([] : List α) [] where
  suffix := List.suffix_rfl
  prop := List.nodup_nil
  longest w' hw' _ := by rw [List.suffix_nil.mp hw']

/-- A suffix without repetition of the longer list, without its last element. -/
theorem suffix_of_concat (hw : LongestSuffix List.Nodup pre w) {w' : List α}
    (hsuffix : w' ++ [a] <:+ pre ++ [a]) (hnodup : (w' ++ [a]).Nodup) : w' <:+ w ∧ a ∉ w' := by
  have hw' : w' <:+ pre := List.suffix_append_self_iff.mp hsuffix
  obtain ⟨hn, -, hdisj⟩ := List.nodup_append.mp hnodup
  refine ⟨List.suffix_of_suffix_length_le hw' hw.suffix (hw.longest w' hw' hn), ?_⟩
  intro ha
  exact hdisj a ha a (List.mem_singleton_self a) rfl

/-- A new element is taken into the window. -/
theorem LongestSuffix.concat (hw : LongestSuffix List.Nodup pre w) (ha : a ∉ w) :
    LongestSuffix List.Nodup (pre ++ [a]) (w ++ [a]) where
  suffix := List.suffix_append_self_iff.mpr hw.suffix
  prop := by
    have hperm := List.perm_append_singleton a w
    exact hperm.nodup_iff.mpr (List.nodup_cons.mpr ⟨ha, hw.prop⟩)
  longest w' hsuffix hnodup := by
    rcases List.suffix_concat_iff.mp hsuffix with rfl | ⟨w', rfl, -⟩
    · exact Nat.zero_le _
    · have hle := (suffix_of_concat hw hsuffix hnodup).1.length_le
      simpa using hle

/-- Behind an element that is in the window already, the window starts behind its first occurrence. -/
theorem LongestSuffix.cut {old new : List α} (hw : LongestSuffix List.Nodup pre (old ++ a :: new)) :
    LongestSuffix List.Nodup (pre ++ [a]) (new ++ [a]) := by
  have hnew : (a :: new).Nodup := (List.nodup_append.mp hw.prop).2.1
  obtain ⟨ha, hn⟩ := List.nodup_cons.mp hnew
  have hsuffix : new <:+ pre := ((List.suffix_cons a new).trans (List.suffix_append old _)).trans hw.suffix
  refine ⟨List.suffix_append_self_iff.mpr hsuffix, ?_, fun w' hw' hnodup => ?_⟩
  · exact (List.perm_append_singleton a new).nodup_iff.mpr hnew
  · rcases List.suffix_concat_iff.mp hw' with rfl | ⟨w', rfl, -⟩
    · exact Nat.zero_le _
    · obtain ⟨hle, hnot⟩ := suffix_of_concat hw hw' hnodup
      rcases List.suffix_or_suffix_of_suffix hle (List.suffix_append old (a :: new)) with h | h
      · rcases List.suffix_cons_iff.mp h with rfl | h
        · exact absurd List.mem_cons_self hnot
        · simpa using h.length_le
      · exact absurd (h.subset List.mem_cons_self) hnot

end Window
