import QYInterview.Lib.Gapped
import QYInterview.Lib.Sorted
import QYInterview.Swift

/-!
# ShellSort — insertion sort in steps of falling gaps

`ShellSortController.swift`.  A turn of the loop over `i` works on the class of the positions `i + gap * k`
only and sorts it by insertion: while the hole moves down, the class is the part in front of it, the hole
and the part behind it.  `passes` records the array after each pass and is read by no code.
-/

namespace QYInterview.ShellSort

open RunLogic Swift Gapped Sorted

/-! ## The code -/

/-- The array after the pass with a gap. -/
structure Pass where
  gap : ℤ
  array : List ℤ
  deriving DecidableEq, Repr

/-- `while k >= 0 && array[k] > temp` -/
def shiftTurn (temp gap : ℤ) : List ℤ × ℤ → Prog (Turn (List ℤ × ℤ) (List ℤ × ℤ))
  | (array, k) =>
    if k ≥ 0 then do
      if (← get array k) > temp then
        let array ← set array (k + gap) (← get array k)
        return .next (array, k - gap)
      else return .exit (array, k)
    else pure (.exit (array, k))

/-- `if array[j] < array[j - gap]` -/
def insertAt (gap : ℤ) (array : List ℤ) (j : ℤ) : Prog (List ℤ) := do
  if (← get array j) < (← get array (j - gap)) then
    let temp ← get array j
    let (array, k) ← loop (shiftTurn temp gap) (array, j - gap)
    set array (k + gap) temp
  else return array

/-- `while j < array.count` -/
def insertTurn (gap : ℤ) : List ℤ × ℤ → Prog (Turn (List ℤ × ℤ) (List ℤ))
  | (array, j) =>
    if j < array.length then do
      let array ← insertAt gap array j
      return .next (array, j + gap)
    else pure (.exit array)

/-- `for i in 0..<gap` -/
def passBody (gap : ℤ) (array : List ℤ) (i : ℤ) : Prog (List ℤ) := loop (insertTurn gap) (array, i + gap)

/-- `while gap > 0` -/
def gapTurn : List ℤ × ℤ × List Pass → Prog (Turn (List ℤ × ℤ × List Pass) (List ℤ × List Pass))
  | (array, gap, passes) =>
    if gap > 0 then do
      let array ← forRange 0 gap (passBody gap) array
      return .next (array, gap / 2, passes ++ [⟨gap, array⟩])
    else pure (.exit (array, passes))

/-- The array at the end, and after each pass. -/
def passes (array : List ℤ) : Prog (List ℤ × List Pass) := loop gapTurn (array, (array.length : ℤ) / 2, [])

def shellSort (array : List ℤ) : Prog (List ℤ) := do
  return (← passes array).1

/-! ## Insertion into a class -/

section Class

variable {g i : ℕ} {array array' : List ℤ}

/-- `array'` differs from `array` in the class of `i` only. -/
structure Only (g i : ℕ) (array array' : List ℤ) : Prop where
  length : array'.length = array.length
  other : ∀ j < g, j ≠ i → cls g j array' = cls g j array

theorem Only.refl (g i : ℕ) (array : List ℤ) : Only g i array array := ⟨rfl, fun _ _ _ => rfl⟩

theorem Only.trans {array'' : List ℤ} (h : Only g i array array') (h' : Only g i array' array'') :
    Only g i array array'' :=
  ⟨h'.length.trans h.length, fun j hj hne => (h'.other j hj hne).trans (h.other j hj hne)⟩

/-- Where an element of the class stands in the array. -/
theorem getElem?_of_cls (hg : 0 < g) {P Q : List ℤ} {x : ℤ} (hcls : cls g i array = P ++ x :: Q) :
    array[i + g * P.length]? = some x := by
  rw [← getElem?_cls hg, hcls, List.getElem?_append_right le_rfl, Nat.sub_self]
  rfl

theorem get_cls (hg : 0 < g) {P Q : List ℤ} {x p : ℤ} (hcls : cls g i array = P ++ x :: Q)
    (hp : p = i + g * P.length) :
    get array p = pure x := by
  rw [hp, ← Nat.cast_mul, ← Nat.cast_add]
  exact get_eq (getElem?_of_cls hg hcls)

theorem exists_set_cls (hi : i < g) {P Q : List ℤ} {x p : ℤ} (hcls : cls g i array = P ++ x :: Q)
    (hp : p = i + g * P.length) (v : ℤ) :
    ∃ array', set array p v = pure array' ∧ cls g i array' = P ++ v :: Q ∧ Only g i array array' := by
  have hg : 0 < g := by omega
  have hlt := (List.getElem?_eq_some_iff.mp (getElem?_of_cls hg hcls)).1
  refine ⟨array.set (i + g * P.length) v, ?_, ?_, List.length_set,
    fun j hj hne => cls_set_of_ne hi hj hne _ _ _⟩
  · rw [hp, ← Nat.cast_mul, ← Nat.cast_add, set_eq hlt]
  · rw [cls_set_self hg, hcls, List.set_append_right _ _ le_rfl, Nat.sub_self]
    rfl

/-- One step down the class. -/
theorem position_concat (i g : ℕ) (P : List ℤ) (y : ℤ) :
    (i : ℤ) + g * (P ++ [y]).length - g = i + g * P.length := by
  rw [cast_length_concat, mul_add, mul_one]
  omega

/-- The hole, whatever it holds, moves down over the elements above `temp`. -/
theorem loopReturns_shift (hi : i < g) (temp : ℤ) (P : List ℤ) : ∀ (x : ℤ) (Q array : List ℤ),
    cls g i array = P ++ x :: Q → ∃ x' array',
      cls g i array' = P.rdropWhile (temp < ·) ++ x' :: (P.rtakeWhile (temp < ·) ++ Q) ∧
      Only g i array array' ∧
      LoopReturns (shiftTurn temp g) (array, (i : ℤ) + g * P.length - g)
        (array', (i : ℤ) + g * (P.rdropWhile (temp < ·)).length - g) := by
  have hg : 0 < g := by omega
  induction P using List.reverseRecOn with
  | nil =>
    intro x Q array hcls
    refine ⟨x, array, hcls, Only.refl g i array, loopReturns_exit ?_⟩
    simp only [shiftTurn]
    rw [if_neg (by rw [List.length_nil, Nat.cast_zero, mul_zero]; omega)]
    exact returns_pure _
  | append_singleton P y ih =>
    intro x Q array hcls
    have hk := position_concat i g P y
    have hget : get array ((i : ℤ) + g * P.length) = pure y :=
      get_cls hg
        (show cls g i array = P ++ y :: (x :: Q) by
          rw [hcls, List.append_assoc, List.singleton_append]) rfl
    by_cases hy : y > temp
    · rw [List.rdropWhile_concat_pos _ _ y (decide_eq_true hy),
        List.rtakeWhile_concat_pos _ _ y (decide_eq_true hy), hk]
      obtain ⟨array₁, hset, hcls₁, honly₁⟩ := exists_set_cls hi hcls
        (show (i : ℤ) + g * P.length + g = i + g * (P ++ [y]).length by omega) y
      rw [List.append_assoc, List.singleton_append] at hcls₁
      obtain ⟨x', array', hcls', honly', hloop⟩ := ih y (y :: Q) array₁ hcls₁
      refine ⟨x', array', ?_, honly₁.trans honly', loopReturns_next ?_ hloop⟩
      · rw [hcls', List.append_assoc (P.rtakeWhile _), List.singleton_append]
      · simp only [shiftTurn, hget, pure_bind, hset]
        rw [if_pos (by positivity), if_pos hy]
        exact returns_pure _
    · rw [List.rdropWhile_concat_neg _ _ y (by simpa using hy),
        List.rtakeWhile_concat_neg _ _ y (by simpa using hy), hk]
      refine ⟨x, array, hcls, Only.refl g i array, loopReturns_exit ?_⟩
      simp only [shiftTurn, hget, pure_bind]
      rw [if_pos (by positivity), if_neg hy]
      exact returns_pure _

/-- The element behind a sorted part of the class is inserted into it. -/
theorem exists_insertAt (hi : i < g) {S U : List ℤ} {temp : ℤ} (hS : S ≠ []) (hsorted : S.Pairwise (· ≤ ·))
    (hcls : cls g i array = S ++ temp :: U) :
    ∃ S' array', S'.Perm (S ++ [temp]) ∧ S'.Pairwise (· ≤ ·) ∧ cls g i array' = S' ++ U ∧
      Only g i array array' ∧
      Returns (insertAt g array (i + g * S.length)) array' := by
  have hg : 0 < g := by omega
  obtain ⟨S₀, s, rfl⟩ := (List.eq_nil_or_concat' S).resolve_left hS
  have hgets : get array ((i : ℤ) + g * (S₀ ++ [s]).length - g) = pure s :=
    get_cls hg
      (show cls g i array = S₀ ++ s :: (temp :: U) by
        rw [hcls, List.append_assoc, List.singleton_append])
      (position_concat i g S₀ s)
  have hget : get array ((i : ℤ) + g * (S₀ ++ [s]).length) = pure temp := get_cls hg hcls rfl
  by_cases hlt : temp < s
  · obtain ⟨x, array₁, hcls₁, honly₁, hloop⟩ := loopReturns_shift hi temp _ temp U array hcls
    obtain ⟨array₂, hset, hcls₂, honly₂⟩ := exists_set_cls hi hcls₁ (sub_add_cancel _ _) temp
    refine ⟨_, array₂, perm_insert temp (S₀ ++ [s]), pairwise_insert temp hsorted, ?_,
      honly₁.trans honly₂, ?_⟩
    · rw [hcls₂, List.append_assoc, List.cons_append]
    · simp only [insertAt, hget, hgets, pure_bind]
      rw [if_pos hlt]
      refine returns_bind hloop.returns ?_
      rw [hset]
      exact returns_pure _
  · refine ⟨S₀ ++ [s] ++ [temp], array, List.Perm.refl _, ?_, by rw [hcls]; simp,
      Only.refl g i array, ?_⟩
    · exact pairwise_append_pivot hsorted List.Pairwise.nil
        (fun x hx => (le_last hsorted hx).trans (not_lt.mp hlt)) (by simp)
    · simp only [insertAt, hget, hgets, pure_bind]
      rw [if_neg hlt]
      exact returns_pure _

/-- The loop over `j` sorts the class, from a sorted first part of it. -/
theorem loopReturns_insert (hi : i < g) : ∀ (U S array : List ℤ), S ≠ [] → S.Pairwise (· ≤ ·) →
    cls g i array = S ++ U → ∃ array', (cls g i array').Perm (S ++ U) ∧ (cls g i array').Pairwise (· ≤ ·) ∧
      Only g i array array' ∧ LoopReturns (insertTurn g) (array, (i : ℤ) + g * S.length) array'
  | [], S, array, hS, hsorted, hcls => by
    have hg : 0 < g := by omega
    rw [List.append_nil] at hcls ⊢
    refine ⟨array, hcls ▸ List.Perm.refl _, hcls ▸ hsorted, Only.refl g i array, loopReturns_exit ?_⟩
    have hend : array.length ≤ i + g * S.length := by
      rw [← List.getElem?_eq_none_iff, ← getElem?_cls hg, hcls, List.getElem?_eq_none_iff]
    simp only [insertTurn]
    rw [if_neg (by rw [← Nat.cast_mul, ← Nat.cast_add]; omega)]
    exact returns_pure _
  | u :: U, S, array, hS, hsorted, hcls => by
    have hg : 0 < g := by omega
    have hlt := (List.getElem?_eq_some_iff.mp (getElem?_of_cls hg hcls)).1
    obtain ⟨S', array₁, hperm, hsorted', hcls₁, honly₁, hret⟩ := exists_insertAt hi hS hsorted hcls
    have hlen : S'.length = S.length + 1 := by
      rw [hperm.length_eq, List.length_append, List.length_singleton]
    obtain ⟨array', hperm', hs', honly', hloop⟩ := loopReturns_insert hi U S' array₁
      (by rintro rfl; simp at hlen) hsorted' hcls₁
    refine ⟨array', hperm'.trans ?_, hs', honly₁.trans honly', loopReturns_next ?_ hloop⟩
    · rw [List.append_cons]
      exact hperm.append_right U
    · simp only [insertTurn]
      rw [if_pos (by rw [← Nat.cast_mul, ← Nat.cast_add]; omega)]
      refine returns_bind hret ?_
      rw [hlen, Nat.cast_add, Nat.cast_one, mul_add, mul_one, ← add_assoc]
      exact returns_pure _

/-- A turn of the loop over `i` sorts one class. -/
theorem exists_passBody (hi : i < g) (hlt : i < array.length) :
    ∃ array', (cls g i array').Perm (cls g i array) ∧ (cls g i array').Pairwise (· ≤ ·) ∧
      Only g i array array' ∧
      Returns (passBody g array i) array' := by
  have hg : 0 < g := by omega
  have hget : (cls g i array)[0]? = some array[i] := by
    rw [getElem?_cls hg, Nat.mul_zero, Nat.add_zero, List.getElem?_eq_getElem hlt]
  obtain ⟨u, U, hcls⟩ := List.exists_cons_of_length_pos (List.getElem?_eq_some_iff.mp hget).1
  obtain ⟨array', hperm, hsorted, honly, hloop⟩ := loopReturns_insert hi U [u] array (List.cons_ne_nil _ _)
    (List.pairwise_singleton _ _) hcls
  rw [List.singleton_append, ← hcls] at hperm
  refine ⟨array', hperm, hsorted, honly, ?_⟩
  rw [List.length_singleton, Nat.cast_one, mul_one] at hloop
  exact hloop.returns

end Class

/-! ## A pass -/

theorem halts_pass {g : ℕ} {array : List ℤ} (hle : g ≤ array.length) :
    Halts (forRange 0 g (passBody g) array) fun array' => array'.length = array.length ∧
      ClassSorted g array array' := by
  have hloop : Halts (forRange (0 : ℕ) g (passBody g) array) fun array' => array'.length = array.length ∧
      ∀ j < g, (cls g j array').Perm (cls g j array) ∧ (j < g → (cls g j array').Pairwise (· ≤ ·)) := by
    refine halts_forRange (Nat.zero_le g) (fun n array' => array'.length = array.length ∧
      ∀ j < g, (cls g j array').Perm (cls g j array) ∧ (j < n → (cls g j array').Pairwise (· ≤ ·)))
      (fun i array₁ _ hi hI => ?_) ⟨rfl, fun j _ => ⟨List.Perm.refl _, fun h => absurd h (Nat.not_lt_zero j)⟩⟩
    obtain ⟨array', hperm, hsorted, honly, hret⟩ := exists_passBody hi (show i < array₁.length by omega)
    refine ⟨array', hret, honly.length.trans hI.1, ?_⟩
    intro j hj
    by_cases hji : j = i
    · subst hji
      exact ⟨hperm.trans (hI.2 j hj).1, fun _ => hsorted⟩
    · rw [honly.other j hj hji]
      exact ⟨(hI.2 j hj).1, fun hlt => (hI.2 j hj).2 (by omega)⟩
  exact hloop.mono fun array' h => ⟨h.1, fun j hj => (h.2 j hj).1, fun j hj => (h.2 j hj).2 hj⟩

/-! ## All passes -/

/-- The gaps from `g` on, by halving. -/
def gaps (g : ℕ) : List ℕ := if g = 0 then [] else g :: gaps (g / 2)
termination_by g
decreasing_by omega

theorem one_mem_gaps {g : ℕ} (hg : 0 < g) : 1 ∈ gaps g := by
  induction g using Nat.strong_induction_on with
  | _ g ih =>
    rw [gaps, if_neg (by omega)]
    by_cases h1 : g = 1
    · rw [h1]
      exact List.mem_cons_self
    · exact List.mem_cons_of_mem g (ih (g / 2) (by omega) (by omega))

/-- Every pass leaves a permutation of the input that is sorted in steps of its gap and of all before it. -/
def Recorded (input : List ℤ) (ps : List Pass) : Prop :=
  ∀ front p back, ps = front ++ p :: back → p.array.Perm input ∧
    ∀ q ∈ front ++ [p], GapSorted q.gap.toNat p.array

/-- The passes so far: what they leave, and the gaps they used and those to come. -/
structure Passed (input : List ℤ) (g : ℕ) (array : List ℤ) (ps : List Pass) : Prop where
  bound : g ≤ input.length
  perm : array.Perm input
  sorted : ∀ p ∈ ps, GapSorted p.gap.toNat array
  recorded : Recorded input ps
  gaps : ps.map Pass.gap ++ (gaps g).map (fun h : ℕ => (h : ℤ)) =
    (ShellSort.gaps (input.length / 2)).map fun h : ℕ => (h : ℤ)

section Passes

variable {input array array' : List ℤ} {ps : List Pass} {g : ℕ}

theorem Passed.pass (h : Passed input g array ps) (hg : 0 < g) (hsorted : ClassSorted g array array') :
    Passed input (g / 2) array' (ps ++ [⟨g, array'⟩]) := by
  have hperm : array'.Perm input := (perm_of_cls hg hsorted.perm).trans h.perm
  have hall : ∀ q ∈ ps ++ [⟨(g : ℤ), array'⟩], GapSorted q.gap.toNat array' := by
    intro q hq
    rcases List.mem_append.mp hq with hq | hq
    · exact hsorted.gapSorted hg (h.sorted q hq)
    · obtain rfl := List.mem_singleton.mp hq
      exact hsorted.gapSorted_self hg
  refine ⟨(Nat.div_le_self g 2).trans h.bound, hperm, hall, fun front p back heq => ?_, ?_⟩
  · rcases List.eq_nil_or_concat' back with rfl | ⟨back, q, rfl⟩
    · obtain ⟨rfl, hp⟩ := List.append_inj' heq rfl
      obtain rfl := (List.cons.inj hp).1
      exact ⟨hperm, hall⟩
    · rw [← List.cons_append, ← List.append_assoc] at heq
      exact h.recorded front p back (List.append_inj' heq rfl).1
  · rw [← h.gaps, gaps.eq_1 g, if_neg (by omega)]
    simp

theorem Passed.pairwise (h : Passed input 0 array ps) : array.Pairwise (· ≤ ·) := by
  by_cases hshort : input.length ≤ 1
  · exact pairwise_of_length_le_one (h.perm.length_eq ▸ hshort)
  · have hgaps := h.gaps
    rw [gaps.eq_1 0, if_pos rfl, List.map_nil, List.append_nil] at hgaps
    have hone : (1 : ℤ) ∈ ps.map Pass.gap := by
      rw [hgaps]
      exact List.mem_map.mpr ⟨1, one_mem_gaps (by omega), rfl⟩
    obtain ⟨p, hp, hp1⟩ := List.mem_map.mp hone
    have hsorted := h.sorted p hp
    rw [hp1] at hsorted
    exact hsorted.pairwise

theorem passed_start (input : List ℤ) : Passed input (input.length / 2) input [] where
  bound := Nat.div_le_self _ _
  perm := List.Perm.refl _
  sorted p hp := absurd hp List.not_mem_nil
  recorded front p back heq := by simp at heq
  gaps := rfl

theorem halts_passes (array : List ℤ) : Halts (passes array) fun r => Passed array 0 r.1 r.2 := by
  refine halts_loop (fun s => ∃ g : ℕ, s.2.1 = (g : ℤ) ∧ Passed array g s.1 s.2.2) (fun s => s.2.1.toNat) _
    (fun s hs => ?_) _ ⟨array.length / 2, (Int.natCast_div _ _).symm, passed_start array⟩
  obtain ⟨array₁, gap, ps⟩ := s
  obtain ⟨g, hgap, hs⟩ := hs
  obtain rfl : gap = g := hgap
  by_cases hg : g = 0
  · subst hg
    simp only [gapTurn]
    rw [if_neg (by simp)]
    exact halts_pure hs
  · simp only [gapTurn]
    rw [if_pos (by omega)]
    obtain ⟨array', hret, -, hsorted⟩ := halts_pass (hs.perm.length_eq ▸ hs.bound)
    refine ⟨_, returns_bind hret (returns_pure _),
      ⟨g / 2, (Int.natCast_div _ _).symm, hs.pass (Nat.pos_of_ne_zero hg) hsorted⟩, ?_⟩
    show ((g : ℤ) / 2).toNat < (g : ℤ).toNat
    omega

end Passes

/-- After each pass, and so at the end, the array is a permutation of the input and sorted in steps of the
gaps used so far, which are the halves of the count down to 1: at the end it is sorted. -/
theorem shellSort_spec (array : List ℤ) :
    ∃ array' ps, Returns (passes array) (array', ps) ∧ Returns (shellSort array) array' ∧
      ps.map Pass.gap = (gaps (array.length / 2)).map (fun h : ℕ => (h : ℤ)) ∧ Recorded array ps ∧
      array'.Perm array ∧ array'.Pairwise (· ≤ ·) := by
  obtain ⟨⟨array', ps⟩, hret, h⟩ := halts_passes array
  have hgaps := h.gaps
  rw [gaps.eq_1 0, if_pos rfl, List.map_nil, List.append_nil] at hgaps
  exact ⟨array', ps, hret, returns_bind hret (returns_pure _), hgaps, h.recorded, h.perm, h.pairwise⟩

end QYInterview.ShellSort
