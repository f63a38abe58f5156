import QYInterview.Lib.Dispatch
import Mathlib.Logic.Relation

/-!
# Ancestry — nearest common ancestors in a hierarchy

`Above a c`: `a` is `c` or one of its ancestors, which is to say that it is on the line of `c` (`mem_line`).
The classes above a given one stand in a row, so the first class of one line that is on another is below
every other common one (`nearest_of_find`), from whichever line one starts (`Nearest.unique`); there is one
if and only if the roots are the same (`exists_above_iff`).
-/

namespace Dispatch

universe u

variable {κ : Type u}

namespace Hierarchy

/-- `a` is `c` or an ancestor of it. -/
def Above (H : Hierarchy κ) (a c : κ) : Prop := Relation.ReflTransGen (fun d e => H.super d = some e) c a

/-- The class above `a` and `b` that every class above both of them is above. -/
structure Nearest (H : Hierarchy κ) (a b c : κ) : Prop where
  left : H.Above c a
  right : H.Above c b
  nearest : ∀ d, H.Above d a → H.Above d b → H.Above d c

variable {H : Hierarchy κ} {a b c d : κ}

theorem mem_line_self (c : κ) : c ∈ H.line c := by
  obtain ⟨l, hl⟩ := H.line_eq_cons c
  rw [hl]
  exact List.mem_cons_self

theorem mem_line : a ∈ H.line c ↔ H.Above a c := by
  induction c using H.super_induction with
  | htop c hs =>
    rw [line_of_top hs, List.mem_singleton]
    constructor
    · rintro rfl
      exact Relation.ReflTransGen.refl
    · intro h
      cases Relation.ReflTransGen.cases_head h with
      | inl heq => exact heq.symm
      | inr hstep =>
        obtain ⟨e, he, -⟩ := hstep
        rw [hs] at he
        cases he
  | hsuper c d hs ih =>
    rw [line_of_super hs, List.mem_cons, ih]
    constructor
    · rintro (rfl | h)
      · exact Relation.ReflTransGen.refl
      · exact Relation.ReflTransGen.head hs h
    · intro h
      cases Relation.ReflTransGen.cases_head h with
      | inl heq => exact Or.inl heq.symm
      | inr hstep =>
        obtain ⟨e, he, h'⟩ := hstep
        rw [hs] at he
        exact Or.inr (Option.some.inj he ▸ h')

/-- Above a class stand only itself and classes of smaller depth. -/
theorem depth_lt_of_above (h : H.Above a c) : a = c ∨ H.depth a < H.depth c := by
  induction h with
  | refl => exact Or.inl rfl
  | tail _ hs ih =>
    have hlt := H.depth_super _ _ hs
    rcases ih with rfl | ih
    · exact Or.inr hlt
    · exact Or.inr (hlt.trans ih)

theorem above_antisymm (h : H.Above a c) (h' : H.Above c a) : a = c := by
  rcases depth_lt_of_above h with heq | hlt
  · exact heq
  · rcases depth_lt_of_above h' with heq | hlt'
    · exact heq.symm
    · exact absurd hlt (not_lt.mpr hlt'.le)

theorem Nearest.symm (h : H.Nearest a b c) : H.Nearest b a c :=
  ⟨h.right, h.left, fun d hb ha => h.nearest d ha hb⟩

theorem Nearest.unique (h : H.Nearest a b c) (h' : H.Nearest a b d) : c = d :=
  above_antisymm (h'.nearest c h.left h.right) (h.nearest d h'.left h'.right)

/-- The first class on a line with a property has all others above it. -/
theorem above_of_find {p : κ → Bool} (h : (H.line a).find? p = some c) (hd : H.Above d a) (hp : p d = true) :
    H.Above d c := by
  rw [← mem_line] at hd ⊢
  induction a using H.super_induction with
  | htop a hs =>
    rw [line_of_top hs] at h hd
    obtain rfl := List.mem_singleton.mp hd
    obtain rfl := List.mem_singleton.mp (List.mem_of_find?_eq_some h)
    exact mem_line_self _
  | hsuper a e hs ih =>
    by_cases ha : p a = true
    · obtain ⟨l, hl⟩ := H.line_eq_cons a
      rw [hl, List.find?_cons_of_pos ha] at h
      exact Option.some.inj h ▸ hd
    · rw [line_of_super hs] at h hd
      rw [List.find?_cons_of_neg ha] at h
      refine ih h ((List.mem_cons.mp hd).resolve_left ?_)
      rintro rfl
      exact ha hp

/-- The first class on the line of `a` that is above `b` is the nearest one above both. -/
theorem nearest_of_find {p : κ → Bool} (hp : ∀ d, p d = true ↔ H.Above d b)
    (h : (H.line a).find? p = some c) : H.Nearest a b c where
  left := mem_line.mp (List.mem_of_find?_eq_some h)
  right := (hp c).mp (List.find?_some h)
  nearest d ha hb := above_of_find h ha ((hp d).mpr hb)

/-! ## Roots -/

/-- The last class on the line of `c`. -/
def root (H : Hierarchy κ) (c : κ) : κ := (H.line c).getLast (by
  obtain ⟨l, hl⟩ := H.line_eq_cons c
  rw [hl]
  exact List.cons_ne_nil _ _)

theorem root_of_top (h : H.super c = none) : H.root c = c := by
  simp only [root, line_of_top h, List.getLast_singleton]

theorem root_of_super (h : H.super c = some d) : H.root c = H.root d := by
  obtain ⟨l, hl⟩ := H.line_eq_cons d
  simp only [root, line_of_super h, hl, List.getLast_cons_cons]

/-- The root stands above the class and nothing stands above the root. -/
theorem above_root (c : κ) : H.Above (H.root c) c ∧ H.super (H.root c) = none := by
  induction c using H.super_induction with
  | htop c hs =>
    rw [root_of_top hs]
    exact ⟨Relation.ReflTransGen.refl, hs⟩
  | hsuper c d hs ih =>
    rw [root_of_super hs]
    exact ⟨Relation.ReflTransGen.head hs ih.1, ih.2⟩

theorem root_eq_of_above (h : H.Above a c) : H.root c = H.root a := by
  induction h with
  | refl => rfl
  | tail _ hs ih => rw [ih, root_of_super hs]

/-- Two classes have something above both of them if and only if their roots are the same. -/
theorem exists_above_iff : (∃ d, H.Above d a ∧ H.Above d b) ↔ H.root a = H.root b := by
  constructor
  · rintro ⟨d, ha, hb⟩
    rw [root_eq_of_above ha, root_eq_of_above hb]
  · intro h
    exact ⟨H.root a, (above_root a).1, h ▸ (above_root b).1⟩

end Hierarchy

end Dispatch
