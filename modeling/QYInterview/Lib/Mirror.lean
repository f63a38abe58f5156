import Mathlib.Tactic
import Mathlib.Data.List.Forall2

/-!
# Mirror — some elements of a list in reverse order, the others in place

`Mirrored p xs ys`: the places of the elements with `p` are the same in both lists, all other elements are
the same, and those with `p` are in `ys` in the reverse of their order in `xs`.  There is one such `ys`
(`Mirrored.unique`), and the relation is symmetric.  A list is mirrored from its ends: `Ends` are the two
outer parts, `Ends.swap` exchanges the next two elements with `p`, found at two places (`exists_pieces`),
and `Ends.close` is for the rest with at most one of them.
-/

namespace Mirror

universe u

variable {α : Type u} {p : α → Prop} [DecidablePred p]

/-- The same element, or two with `p`. -/
def Same (p : α → Prop) (x y : α) : Prop := x = y ∨ p x ∧ p y

structure Mirrored (p : α → Prop) [DecidablePred p] (xs ys : List α) : Prop where
  places : List.Forall₂ (Same p) xs ys
  order : ys.filter p = (xs.filter p).reverse

section Same

variable {x y z : α} {xs ys zs : List α}

omit [DecidablePred p] in
theorem Same.symm (h : Same p x y) : Same p y x := h.imp Eq.symm And.symm

omit [DecidablePred p] in
theorem Same.iff (h : Same p x y) : p x ↔ p y := by
  rcases h with rfl | ⟨hx, hy⟩
  · rfl
  · exact iff_of_true hx hy

omit [DecidablePred p] in
theorem same_refl (xs : List α) : List.Forall₂ (Same p) xs xs := List.forall₂_same.mpr fun _ _ => Or.inl rfl

omit [DecidablePred p] in
theorem places_getElem? (h : List.Forall₂ (Same p) xs ys) {i : ℕ} (hx : xs[i]? = some x) (hp : ¬ p x) :
    ys[i]? = some x := by
  induction h generalizing i with
  | nil => cases hx
  | cons hxy _ ih =>
    cases i with
    | zero =>
      obtain rfl := Option.some.inj hx
      rw [List.getElem?_cons_zero, hxy.resolve_right fun h => hp h.1]
    | succ i => exact ih hx

/-- The elements with `p` and their places determine the list. -/
theorem places_unique (h : List.Forall₂ (Same p) xs ys) (h' : List.Forall₂ (Same p) xs zs)
    (horder : ys.filter p = zs.filter p) : ys = zs := by
  induction h generalizing zs with
  | nil => cases h'; rfl
  | @cons x y xs ys hxy _ ih =>
    cases h' with
    | @cons _ z _ zs hxz htail =>
      by_cases hp : p x
      · rw [List.filter_cons_of_pos (by simpa using hxy.iff.mp hp),
          List.filter_cons_of_pos (by simpa using hxz.iff.mp hp)]
          at horder
        obtain ⟨rfl, hrest⟩ := List.cons.inj horder
        rw [ih htail hrest]
      · rw [List.filter_cons_of_neg (by simpa using mt hxy.iff.mpr hp),
          List.filter_cons_of_neg (by simpa using mt hxz.iff.mpr hp)] at horder
        obtain rfl := hxy.resolve_right fun h => hp h.1
        obtain rfl := hxz.resolve_right fun h => hp h.1
        rw [ih htail horder]

theorem Mirrored.symm (h : Mirrored p xs ys) : Mirrored p ys xs where
  places := h.places.flip.imp fun _ _ hxy => Same.symm hxy
  order := by rw [h.order, List.reverse_reverse]

theorem Mirrored.unique (h : Mirrored p xs ys) (h' : Mirrored p xs zs) : ys = zs :=
  places_unique h.places h'.places (h.order.trans h'.order.symm)

end Same

/-! ## Two places of a list -/

section Pieces

variable {mid : List α} {a b : ℕ} {v w : α}

omit [DecidablePred p] in
/-- Two positions take a list apart; what lies outside them is found at the other positions. -/
theorem exists_pieces (hab : a < b) (hv : mid[a]? = some v) (hw : mid[b]? = some w) :
    ∃ A M B, mid = A ++ v :: M ++ w :: B ∧ A.length = a ∧ a + 1 + M.length = b ∧
      (∀ x ∈ A, ∃ i < a, mid[i]? = some x) ∧ ∀ x ∈ B, ∃ i, b < i ∧ mid[i]? = some x := by
  obtain ⟨ha, rfl⟩ := List.getElem?_eq_some_iff.mp hv
  obtain ⟨hb, rfl⟩ := List.getElem?_eq_some_iff.mp hw
  have hlen : ((mid.take b).drop (a + 1)).length = b - (a + 1) := by
    rw [List.length_drop, List.length_take_of_le hb.le]
  refine ⟨mid.take a, (mid.take b).drop (a + 1), mid.drop (b + 1), ?_,
    List.length_take_of_le ha.le, by omega, ?_, ?_⟩
  · have hfront : mid.take a ++ mid[a] :: (mid.take b).drop (a + 1) = mid.take b := by
      have hcons := List.drop_eq_getElem_cons
        (show a < (mid.take b).length by rw [List.length_take_of_le hb.le]; exact hab)
      rw [List.getElem_take] at hcons
      have htake : mid.take a = (mid.take b).take a := by rw [List.take_take, min_eq_left hab.le]
      rw [← hcons, htake, List.take_append_drop]
    rw [hfront, ← List.drop_eq_getElem_cons hb, List.take_append_drop]
  · intro x hx
    obtain ⟨i, hi⟩ := List.getElem?_of_mem hx
    have hia := (List.getElem?_eq_some_iff.mp hi).1
    rw [List.length_take_of_le ha.le] at hia
    rw [List.getElem?_take_of_lt hia] at hi
    exact ⟨i, hia, hi⟩
  · intro x hx
    obtain ⟨i, hi⟩ := List.getElem?_of_mem hx
    rw [List.getElem?_drop] at hi
    exact ⟨b + 1 + i, by omega, hi⟩

end Pieces

/-! ## From the ends -/

section Ends

variable {front front' back back' mid xs : List α} {v w : α}

/-- Outer parts of a list, as they were and as they are now. -/
structure Ends (p : α → Prop) [DecidablePred p] (front front' back back' : List α) : Prop where
  places_front : List.Forall₂ (Same p) front front'
  places_back : List.Forall₂ (Same p) back back'
  front_order : front'.filter p = (back.filter p).reverse
  back_order : back'.filter p = (front.filter p).reverse

theorem ends_nil : Ends p ([] : List α) [] [] [] := ⟨List.Forall₂.nil, List.Forall₂.nil, rfl, rfl⟩

/-- The next two elements with `p` change places. -/
theorem Ends.swap (h : Ends p front front' back back') {A B : List α} (hA : ∀ x ∈ A, ¬ p x)
    (hB : ∀ x ∈ B, ¬ p x) (hv : p v) (hw : p w) :
    Ends p (front ++ (A ++ [v])) (front' ++ (A ++ [w])) (w :: B ++ back) (v :: B ++ back') := by
  have hAnil : A.filter p = [] := List.filter_eq_nil_iff.mpr (by simpa using hA)
  have hBnil : B.filter p = [] := List.filter_eq_nil_iff.mpr (by simpa using hB)
  have hfilter : ∀ x, p x → (A ++ [x]).filter p = [x] ∧ (x :: B).filter p = [x] := fun x hx => by
    constructor
    · rw [List.filter_append, hAnil]
      simp [hx]
    · rw [List.filter_cons_of_pos (by simpa using hx), hBnil]
  have hvw : Same p v w := Or.inr ⟨hv, hw⟩
  refine ⟨?_, ?_, ?_, ?_⟩
  · exact List.rel_append h.places_front (List.rel_append (same_refl A)
      (List.Forall₂.cons hvw List.Forall₂.nil))
  · exact List.rel_append (List.Forall₂.cons hvw.symm (same_refl B)) h.places_back
  · rw [List.filter_append front', List.filter_append (w :: B), (hfilter w hw).1, (hfilter w hw).2,
      h.front_order, List.reverse_append, List.reverse_singleton]
  · rw [List.filter_append (v :: B), List.filter_append front, (hfilter v hv).1, (hfilter v hv).2,
      h.back_order, List.reverse_append, List.reverse_singleton]

omit [DecidablePred p] in
/-- At most one element with `p`. -/
theorem reverse_eq_self (hp : ∀ x ∈ mid, p x) (hmid : mid.Pairwise fun x y => ¬ (p x ∧ p y)) :
    mid.reverse = mid := by
  match mid, hp, hmid with
  | [], _, _ => rfl
  | [x], _, _ => rfl
  | x :: y :: rest, hp, hmid =>
    exact absurd ⟨hp x (by simp), hp y (by simp)⟩ (List.rel_of_pairwise_cons hmid List.mem_cons_self)

/-- Two elements with `p` are not left in between. -/
theorem Ends.close (h : Ends p front front' back back') (hmid : mid.Pairwise fun x y => ¬ (p x ∧ p y)) :
    Mirrored p (front ++ mid ++ back) (front' ++ mid ++ back') where
  places := List.rel_append (List.rel_append h.places_front (same_refl mid)) h.places_back
  order := by
    have hsub : (mid.filter p).Sublist mid := List.filter_sublist
    have hone : (mid.filter p).reverse = mid.filter p :=
      reverse_eq_self (fun x hx => by simpa using (List.mem_filter.mp hx).2) (hmid.sublist hsub)
    rw [List.filter_append, List.filter_append, List.filter_append, List.filter_append, h.front_order,
      h.back_order, List.reverse_append, List.reverse_append, hone, List.append_assoc]

end Ends

end Mirror
