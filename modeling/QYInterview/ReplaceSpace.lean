import QYInterview.Swift
import QYInterview.Lib.Words

/-!
# ReplaceSpace — `%20` for every space

`String/ReplaceSpaceController.swift` (Algorithm app).  `replaceSpace` joins the components of the
string and returns `replaced s` (`returns_replaceSpace`).  `replaceSpace1` grows the array of characters
and fills it from the back; at a space it lowers the read index `j` by two more, where the write index
`i` is meant.  So it comes to `visited` only, the characters of the reversed string without the two
behind every space it meets, and the result is right all the same only when what it stores in their place
happens to be the same (`Works`).  That is so for the strings of `Aligned`, with no space or a single one
behind `…%2xy%2xy`, and for no others (`works_iff_aligned`) except perhaps where `%2` stands in the right
place before several spaces (`Echoes`).
-/

namespace QYInterview.ReplaceSpace

open RunLogic Swift

def space : Character := chr ' '
def percent : Character := chr '%'
def two : Character := chr '2'
def zero : Character := chr '0'

namespace Algorithm

/-- `for i in 0..<aa.count`, over `new`. -/
def replaceSpaceBody (aa : List Str) (new : Str) (i : ℤ) : Prog Str := do
  let item ← get aa i
  if i = aa.length - 1 then pure (new ++ item)
  else pure (new ++ (item ++ [percent, two, zero]))

def replaceSpace (s : Str) : Prog Str :=
  if s = [] then pure s
  else
    let aa := components s space
    forRange 0 aa.length (replaceSpaceBody aa) []

/-- `for item in chars`, which goes over the array as it was before the loop. -/
def growBody (chars : Str) (item : Character) : Prog Str :=
  if item = space then pure (chars ++ [space] ++ [space]) else pure chars

/-- `while i >= 0 && j >= 0`, over `i`, `j`, `chars`. -/
def replaceSpace1Turn : ℤ × ℤ × Str → Prog (Turn (ℤ × ℤ × Str) Str)
  | (i, j, chars) =>
    if 0 ≤ i ∧ 0 ≤ j then do
      let c ← get chars j
      if c ≠ space then
        let chars ← set chars i (← get chars j)
        pure (.next (i - 1, j - 1, chars))
      else
        let chars ← set chars i zero
        let chars ← set chars (i - 1) two
        let chars ← set chars (i - 2) percent
        let j := j - 2
        pure (.next (i - 1, j - 1, chars))
    else pure (.exit chars)

def replaceSpace1 (s : Str) : Prog Str := do
  let preCount : ℤ := s.length
  let chars ← forEach s growBody s
  let i : ℤ := chars.length - 1
  let j := preCount - 1
  loop replaceSpace1Turn (i, j, chars)

end Algorithm

/-! ## The specification -/

/-- What a character becomes. -/
def encode (c : Character) : Str := if c = space then [percent, two, zero] else [c]

/-- The string with `%20` for every space. -/
def replaced (s : Str) : Str := s.flatMap encode

theorem encode_of_ne {c : Character} (h : c ≠ space) : encode c = [c] := if_neg h

theorem replaced_cons (c : Character) (s : Str) : replaced (c :: s) = encode c ++ replaced s := rfl

theorem replaced_append (s t : Str) : replaced (s ++ t) = replaced s ++ replaced t :=
  List.flatMap_append

theorem replaced_of_not_mem : ∀ {s : Str}, space ∉ s → replaced s = s
  | [], _ => rfl
  | c :: s, h => by
    rw [replaced_cons, encode_of_ne (List.ne_of_not_mem_cons h).symm,
      replaced_of_not_mem (List.not_mem_of_not_mem_cons h)]
    rfl

theorem length_replaced : ∀ s : Str, (replaced s).length = s.length + 2 * s.count space
  | [] => rfl
  | c :: s => by
    rw [replaced_cons, List.length_append, length_replaced s, List.length_cons]
    by_cases h : c = space
    · rw [h, List.count_cons_self]
      show 3 + _ = _
      omega
    · rw [encode_of_ne h, List.count_cons_of_ne h]
      show 1 + _ = _
      omega

/-! ## `replaceSpace` -/

section Join

theorem intercalate_components : ∀ s : Str,
    [percent, two, zero].intercalate (components s space) = replaced s
  | [] => rfl
  | c :: s => by
    obtain ⟨l, ls, hl⟩ := List.exists_cons_of_ne_nil (List.splitOn_ne_nil space s)
    have ih : [percent, two, zero].intercalate (l :: ls) = replaced s := by
      rw [← hl]
      exact intercalate_components s
    rw [components, List.splitOn_cons_eq_if_modifyHead, hl, replaced_cons, ← ih]
    by_cases h : c = space
    · subst h
      rw [if_pos (beq_self_eq_true _), List.intercalate_cons_cons]
      rfl
    · rw [if_neg (by simpa using h), encode_of_ne h]
      cases ls with
      | nil => rfl
      | cons l' ls => exact List.intercalate_cons_cons_left

/-- The text so far and the components to come join to the result. -/
theorem halts_replaceSpaceBody {s new : Str} {aa : List Str} {i : ℕ} (hi : i < aa.length)
    (hI : new ++ [percent, two, zero].intercalate (aa.drop i) = replaced s) :
    Halts (Algorithm.replaceSpaceBody aa new i) fun new' =>
      new' ++ [percent, two, zero].intercalate (aa.drop (i + 1)) = replaced s := by
  unfold Algorithm.replaceSpaceBody
  rw [get_eq (List.getElem?_eq_getElem hi), pure_bind]
  rw [List.drop_eq_getElem_cons hi] at hI
  by_cases hlast : (i : ℤ) = aa.length - 1
  · rw [if_pos hlast]
    rw [List.drop_of_length_le (by omega), List.intercalate_singleton] at hI
    refine halts_pure ?_
    rw [List.drop_of_length_le (by omega), List.intercalate_nil, List.append_nil, hI]
  · rw [if_neg hlast]
    have hne : aa.drop (i + 1) ≠ [] := fun h => by
      have := List.drop_eq_nil_iff.mp h
      omega
    rw [List.intercalate_cons_of_ne_nil hne] at hI
    refine halts_pure ?_
    simpa only [List.append_assoc] using hI

theorem returns_replaceSpace (s : Str) : Returns (Algorithm.replaceSpace s) (replaced s) := by
  unfold Algorithm.replaceSpace
  by_cases hs : s = []
  · rw [if_pos hs, hs]
    exact returns_pure _
  · rw [if_neg hs]
    obtain ⟨r, hr, hI⟩ := halts_forRange (Nat.zero_le (components s space).length)
      (fun i new => new ++ [percent, two, zero].intercalate ((components s space).drop i) = replaced s)
      (fun _ _ _ hi hI => halts_replaceSpaceBody hi hI) (s := []) (intercalate_components s)
    rw [List.drop_length, List.intercalate_nil, List.append_nil] at hI
    rwa [hI] at hr

end Join

/-! ## The run of `replaceSpace1` -/

/-- The characters of the reversed string that the loop comes to: after a space the next two are passed
over. -/
def visited : Str → Str
  | [] => []
  | c :: r => c :: if c = space then visited (r.drop 2) else visited r
termination_by r => r.length
decreasing_by all_goals simp; try omega

/-- The effect of the visited characters on the reversed array, from the write index on. -/
def written : Str → Str → Str
  | [], A => A
  | c :: V, A => if c = space then zero :: written V (two :: percent :: A.drop 3)
    else c :: written V A.tail

section Loop

theorem growBody_eq (s pre : Str) (c : Character) :
    Algorithm.growBody (s ++ List.replicate (2 * pre.count space) space) c =
      pure (s ++ List.replicate (2 * (pre ++ [c]).count space) space) := by
  unfold Algorithm.growBody
  rw [List.count_append]
  by_cases hc : c = space
  · rw [if_pos hc, hc, List.count_singleton_self, Nat.mul_add, List.replicate_add, List.append_assoc,
      List.append_assoc]
    rfl
  · rw [if_neg hc, List.count_singleton, if_neg (by simpa using hc), Nat.add_zero]

theorem returns_grow (s : Str) :
    Returns (forEach s Algorithm.growBody s) (s ++ List.replicate (2 * s.count space) space) := by
  have h : Halts (forEach s Algorithm.growBody s)
      (fun chars => chars = s ++ List.replicate (2 * s.count space) space) := by
    refine halts_forEach (fun pre chars => chars = s ++ List.replicate (2 * pre.count space) space)
      (fun pre c post chars _ hI => ?_) (List.append_nil s).symm
    rw [hI, growBody_eq]
    exact halts_pure rfl
  obtain ⟨chars, hchars, rfl⟩ := h
  exact hchars

/-- The loop invariant: the reversed string `r` is still unread at the end of the reversed array `A`, `j` is
its last index, and as long as it has a space there is room for the two more characters. -/
structure Unread (r A : Str) (j : ℤ) : Prop where
  suffix : r <:+ A
  index : j = r.length - 1 ∨ r = [] ∧ j < 0
  room : space ∈ r → r.length + 2 ≤ A.length

section Unread

variable {c x y z : Character} {r A B : Str} {j : ℤ}

theorem Unread.index_nil (h : Unread [] A j) : j < 0 := by
  rcases h.index with hj | ⟨-, hj⟩
  · rw [hj]
    decide
  · exact hj

theorem Unread.index_cons (h : Unread (c :: r) A j) : j = r.length := by
  rcases h.index with hj | ⟨hnil, -⟩
  · rw [hj, List.length_cons]
    omega
  · cases hnil

theorem Unread.get_index (h : Unread (c :: r) A j) : get (B ++ A).reverse j = pure c := by
  obtain ⟨X, hX⟩ := h.suffix
  rw [h.index_cons, ← hX, ← List.append_assoc, get_reverse]

theorem Unread.next_other (h : Unread (c :: r) (x :: A) j) : Unread r A (j - 1) where
  suffix := List.suffix_of_suffix_length_le ((List.suffix_cons c r).trans h.suffix)
    (List.suffix_cons x A) (Nat.le_of_succ_le_succ h.suffix.length_le)
  index := Or.inl (by rw [h.index_cons])
  room := fun hr => Nat.le_of_succ_le_succ (h.room (List.mem_cons_of_mem c hr))

theorem Unread.next_space (h : Unread (space :: r) (x :: y :: z :: A) j) :
    Unread (r.drop 2) (two :: percent :: A) (j - 2 - 1) := by
  have hlen : r.length ≤ A.length := by
    have := h.room List.mem_cons_self
    simp only [List.length_cons] at this
    omega
  have hA : A <:+ x :: y :: z :: A := ⟨[x, y, z], rfl⟩
  have hr : r <:+ A := List.suffix_of_suffix_length_le ((List.suffix_cons _ r).trans h.suffix) hA hlen
  refine ⟨((List.drop_suffix 2 r).trans hr).trans ⟨[two, percent], rfl⟩, ?_, fun _ => ?_⟩
  · rw [h.index_cons, List.length_drop]
    rcases Nat.lt_or_ge r.length 2 with hlt | hge
    · exact Or.inr ⟨List.drop_of_length_le (by omega), by omega⟩
    · exact Or.inl (by omega)
  · rw [List.length_drop, List.length_cons, List.length_cons]
    omega

/-- A turn at a character that is no space. -/
theorem turn_other (h : Unread (c :: r) (x :: A) j) (hc : c ≠ space) :
    Algorithm.replaceSpace1Turn ((A.length : ℤ), j, (B ++ x :: A).reverse) =
      pure (.next ((A.length : ℤ) - 1, j - 1, (B ++ c :: A).reverse)) := by
  have hj := h.index_cons
  unfold Algorithm.replaceSpace1Turn
  dsimp only
  rw [if_pos ⟨Int.natCast_nonneg _, by omega⟩, h.get_index, pure_bind, if_pos hc, pure_bind, set_reverse,
    pure_bind]

/-- A turn at a space: three characters are written, and the read index goes down by three. -/
theorem turn_space (h : Unread (space :: r) (x :: y :: z :: A) j) :
    Algorithm.replaceSpace1Turn (((y :: z :: A).length : ℤ), j, (B ++ x :: y :: z :: A).reverse) =
      pure (.next (((y :: z :: A).length : ℤ) - 1, j - 2 - 1,
        (B ++ zero :: two :: percent :: A).reverse)) := by
  have hj := h.index_cons
  have h0 := set_reverse B (y :: z :: A) x zero
  have h1 : set (B ++ zero :: y :: z :: A).reverse ((z :: A).length : ℤ) two =
      pure (B ++ zero :: two :: z :: A).reverse := by
    simpa using set_reverse (B ++ [zero]) (z :: A) y two
  have h2 : set (B ++ zero :: two :: z :: A).reverse (A.length : ℤ) percent =
      pure (B ++ zero :: two :: percent :: A).reverse := by
    simpa using set_reverse (B ++ [zero, two]) A z percent
  have hi1 : ((y :: z :: A).length : ℤ) - 1 = ((z :: A).length : ℤ) := by simp
  have hi2 : ((y :: z :: A).length : ℤ) - 2 = (A.length : ℤ) := by simp; omega
  unfold Algorithm.replaceSpace1Turn
  dsimp only
  rw [if_pos ⟨Int.natCast_nonneg _, by omega⟩, h.get_index, pure_bind, if_neg (not_not.mpr rfl), h0,
    pure_bind, hi1, h1, pure_bind, hi2, h2, pure_bind]

end Unread

/-- The loop writes what the visited characters of the unread string call for. -/
theorem loopReturns_written (r : Str) : ∀ (A B : Str) (j : ℤ), Unread r A j →
    LoopReturns Algorithm.replaceSpace1Turn ((A.length : ℤ) - 1, j, (B ++ A).reverse)
      (B ++ written (visited r) A).reverse := by
  induction r using visited.induct with
  | case1 =>
    intro A B j h
    have hneg := h.index_nil
    refine loopReturns_exit ?_
    rw [visited, written, Algorithm.replaceSpace1Turn, if_neg (by omega)]
    exact returns_pure _
  | case2 c r ih1 ih2 =>
    intro A B j h
    rw [visited, written]
    by_cases hc : c = space
    · subst hc
      have hlen : 3 ≤ A.length := by
        have := h.room List.mem_cons_self
        rw [List.length_cons] at this
        omega
      obtain ⟨x, y, z, A, rfl⟩ : ∃ x y z A', A = x :: y :: z :: A' := by
        match A, hlen with
        | x :: y :: z :: A, _ => exact ⟨x, y, z, A, rfl⟩
      have hi : ((x :: y :: z :: A).length : ℤ) - 1 = ((y :: z :: A).length : ℤ) := by simp
      rw [if_pos rfl, if_pos rfl, hi]
      refine loopReturns_next (by rw [turn_space h]; exact returns_pure _) ?_
      simpa using ih1 (two :: percent :: A) (B ++ [zero]) _ h.next_space
    · obtain ⟨x, A, rfl⟩ := List.exists_cons_of_length_pos
        (Nat.lt_of_lt_of_le (Nat.succ_pos _) h.suffix.length_le)
      have hi : ((x :: A).length : ℤ) - 1 = (A.length : ℤ) := by simp
      rw [if_neg hc, if_neg hc, hi]
      refine loopReturns_next (by rw [turn_other h hc]; exact returns_pure _) ?_
      simpa using ih2 A (B ++ [c]) _ h.next_other

theorem returns_replaceSpace1 (s : Str) : Returns (Algorithm.replaceSpace1 s)
    (written (visited s.reverse) (List.replicate (2 * s.count space) space ++ s.reverse)).reverse := by
  refine returns_bind (returns_grow s) ?_
  set A := List.replicate (2 * s.count space) space ++ s.reverse with hA
  have hchars : s ++ List.replicate (2 * s.count space) space = ([] ++ A).reverse := by simp [hA]
  have hlen : A.length = 2 * s.count space + s.length := by simp [hA]
  have hunread : Unread s.reverse A (s.length - 1) := by
    refine ⟨List.suffix_append _ _, Or.inl (by rw [List.length_reverse]), ?_⟩
    intro h
    have hpos : 0 < s.count space := List.count_pos_iff.mpr (List.mem_reverse.mp h)
    rw [hlen, List.length_reverse]
    omega
  rw [hchars]
  simpa using (loopReturns_written s.reverse A [] _ hunread).returns

end Loop

/-! ## When the result is right -/

/-- What a visited character shows up as. -/
def shown (c : Character) : Character := if c = space then zero else c

/-- What the visited characters leave of the last `2` and `%`, or of `p` when there is no space. -/
def pending : Str → Str → Str
  | [], p => p
  | c :: V, p => pending V (if c = space then [two, percent] else p.tail)

section Written

theorem le_pending : ∀ V p : Str, p.length ≤ 2 → p.length ≤ V.length + (pending V p).length
  | [], p, _ => by rw [pending]; simp
  | c :: V, p, hp => by
    rw [pending, List.length_cons]
    by_cases h : c = space
    · have ih : 2 ≤ V.length + (pending V [two, percent]).length := le_pending V [two, percent] le_rfl
      rw [if_pos h]
      omega
    · have ih := le_pending V p.tail (by rw [List.length_tail]; omega)
      rw [List.length_tail] at ih
      rw [if_neg h]
      omega

/-- The written array: the visited characters, what is pending, and the rest as it was. -/
theorem written_eq : ∀ V p D : Str, p.length ≤ 2 → written V (p ++ D) =
    V.map shown ++ (pending V p ++ D.drop (V.length + (pending V p).length - p.length))
  | [], p, D, _ => by simp [written, pending]
  | c :: V, p, D, hp => by
    rw [written, pending, List.map_cons, shown, List.cons_append, List.length_cons]
    by_cases h : c = space
    · have hle : 2 ≤ V.length + (pending V [two, percent]).length := le_pending V [two, percent] le_rfl
      have hdrop : (p ++ D).drop 3 = D.drop (3 - p.length) := by
        rw [List.drop_append, List.drop_of_length_le (by omega), List.nil_append]
      have ih : written V (two :: percent :: (p ++ D).drop 3) = _ :=
        written_eq V [two, percent] ((p ++ D).drop 3) le_rfl
      rw [if_pos h, if_pos h, if_pos h, ih, hdrop, List.drop_drop]
      congr 4
      show 3 - p.length + (V.length + (pending V [two, percent]).length - 2) = _
      omega
    · rw [if_neg h, if_neg h, if_neg h]
      cases p with
      | nil =>
        have ih : written V D.tail = _ := written_eq V [] D.tail (Nat.zero_le 2)
        rw [List.nil_append, ih, List.tail_nil, ← List.drop_one, List.drop_drop]
        congr 4
        show 1 + (V.length + (pending V []).length - 0) = _ - 0
        omega
      | cons x p =>
        have ih := written_eq V p D (Nat.le_of_succ_le hp)
        rw [List.cons_append, List.tail_cons, ih, List.tail_cons]
        congr 4
        show _ = V.length + 1 + (pending V p).length - (p.length + 1)
        omega

end Written

section Works

theorem length_visited_le (r : Str) : (visited r).length ≤ r.length := by
  induction r using visited.induct with
  | case1 => rw [visited]
  | case2 c r ih1 ih2 =>
    rw [visited, List.length_cons, List.length_cons]
    rw [List.length_drop] at ih1
    split_ifs <;> omega

theorem visited_append : ∀ {b : Str} (r : Str), space ∉ b → visited (b ++ r) = b ++ visited r
  | [], _, _ => rfl
  | c :: b, r, h => by
    rw [List.cons_append, visited, if_neg (List.ne_of_not_mem_cons h).symm,
      visited_append r (List.not_mem_of_not_mem_cons h), List.cons_append]

theorem visited_of_not_mem {r : Str} (h : space ∉ r) : visited r = r := by
  have := visited_append [] h
  rwa [visited, List.append_nil] at this

theorem pending_of_not_mem : ∀ {V : Str} (p : Str), space ∉ V → pending V p = p.drop V.length
  | [], _, _ => rfl
  | c :: V, p, h => by
    rw [pending, if_neg (List.ne_of_not_mem_cons h).symm,
      pending_of_not_mem _ (List.not_mem_of_not_mem_cons h), List.drop_tail, List.length_cons]

theorem pending_append : ∀ (V W p : Str), pending (V ++ W) p = pending W (pending V p)
  | [], _, _ => rfl
  | _ :: V, W, _ => pending_append V W _

/-- What is still pending at the end of the reversed string comes from a space with only a short part `t`
behind it. -/
theorem pending_room (r : Str) : ∀ p : Str, pending (visited r) p = [] ∨
    pending (visited r) p = p.drop r.length ∨ ∃ pre t, r = pre ++ space :: t ∧
      t.length + (pending (visited r) p).length + (visited r).length ≤ r.length + 2 := by
  induction r using visited.induct with
  | case1 => exact fun p => Or.inr (Or.inl (by rw [visited]; rfl))
  | case2 c r ih1 ih2 =>
    intro p
    rw [visited, pending, List.length_cons, List.length_cons]
    by_cases hc : c = space
    · subst hc
      rw [if_pos rfl, if_pos rfl]
      rcases ih1 [two, percent] with h | h | ⟨pre, t, h, hle⟩
      · exact Or.inl h
      · by_cases h4 : 4 ≤ r.length
        · left
          rw [h, List.drop_of_length_le]
          rw [List.length_drop]
          show 2 ≤ _
          omega
        · refine Or.inr (Or.inr ⟨[], r, rfl, ?_⟩)
          have hv := length_visited_le (r.drop 2)
          rw [h, List.length_drop, List.length_drop]
          rw [List.length_drop] at hv
          show r.length + (2 - (r.length - 2)) + _ ≤ _
          omega
      · refine Or.inr (Or.inr ⟨space :: r.take 2 ++ pre, t, ?_, ?_⟩)
        · rw [List.append_assoc, ← h, List.cons_append, List.take_append_drop]
        · rw [List.length_drop] at hle
          omega
    · rw [if_neg hc, if_neg hc]
      rcases ih2 p.tail with h | h | ⟨pre, t, h, hle⟩
      · exact Or.inl h
      · exact Or.inr (Or.inl (by rw [h, List.drop_tail]))
      · exact Or.inr (Or.inr ⟨c :: pre, t, by rw [h]; rfl, by omega⟩)

/-- What the loop stores is what belongs there: the visited characters are those of the result, and, with more
than one space, the part of the array that is not written lies before the first one. -/
def Works (s : Str) : Prop :=
  (visited s.reverse).map shown <+: (replaced s).reverse ∧
    (s.count space ≤ 1 ∨ (replaced s).length ≤ (visited s.reverse).length + s.idxOf space)

theorem append_eq_iff {a b t : Str} : a ++ b = t ↔ a <+: t ∧ b = t.drop a.length := by
  constructor
  · rintro rfl
    exact ⟨List.prefix_append _ _, (List.drop_left).symm⟩
  · rintro ⟨⟨c, rfl⟩, rfl⟩
    rw [List.drop_left]

/-- Two arrays that differ in one place agree from `m` on, up to pending characters in front of it, only
if that place lies before `m`. -/
theorem rest_iff {w X Y F : Str} {x y : Character} {m : ℕ} (hne : x ≠ y) (hlen : X.length = Y.length)
    (hw : w = [] ∨ m + w.length ≤ X.length) :
    w ++ (Y ++ y :: F).drop (m + w.length) = (X ++ x :: F).drop m ↔ X.length < m := by
  constructor
  · intro h
    by_contra hm
    have hle : m + w.length ≤ X.length := hw.elim (fun h0 => by rw [h0]; simp; omega) fun h1 => h1
    rw [List.drop_append_of_le_length (by omega), List.drop_append_of_le_length (by omega),
      ← List.append_assoc] at h
    have hsplit := List.append_inj_right h (by
      rw [List.length_append, List.length_drop, List.length_drop]
      omega)
    exact hne (List.cons.inj hsplit).1.symm
  · intro hm
    have hnil : w = [] := hw.resolve_right (by omega)
    have hdrop : ∀ (Z : Str) (z : Character), Z.length = X.length →
        (Z ++ z :: F).drop m = F.drop (m - X.length - 1) := fun Z z hZ => by
      rw [List.drop_append, List.drop_of_length_le (by omega), List.nil_append, hZ,
        show m - X.length = (m - X.length - 1) + 1 by omega, List.drop_succ_cons, Nat.add_sub_cancel]
    rw [hnil, List.nil_append, List.length_nil, Nat.add_zero, hdrop Y y hlen.symm, hdrop X x rfl]

/-- The last part of a string split at its first space is no longer than that of any other split. -/
theorem length_le_of_split {pre t b u : Str} (h : b ++ space :: u = pre ++ space :: t) (hu : space ∉ u) :
    u.length ≤ t.length := by
  by_contra hlt
  have hsuf : space :: t <:+ u := List.suffix_of_suffix_length_le (List.suffix_append pre _)
    (h ▸ (List.suffix_cons space u).trans (List.suffix_append b _)) (by rw [List.length_cons]; omega)
  exact hu (hsuf.subset List.mem_cons_self)

theorem reverse_split (u v : Str) :
    (u ++ space :: v).reverse = v.reverse ++ space :: u.reverse := by simp

theorem visited_split (u : Str) {v : Str} (hv : space ∉ v) :
    visited (u ++ space :: v).reverse = v.reverse ++ space :: visited (u.reverse.drop 2) := by
  rw [reverse_split, visited_append _ (mt List.mem_reverse.mp hv), visited, if_pos rfl]

theorem count_split (u v : Str) :
    (u ++ space :: v).count space = u.count space + v.count space + 1 := by
  rw [List.count_append, List.count_cons_self, Nat.add_assoc]

theorem idxOf_split {u v : Str} (hu : space ∉ u) : (u ++ space :: v).idxOf space = u.length := by
  rw [List.idxOf_append_of_notMem hu, List.idxOf_cons_self, Nat.add_zero]

theorem reverse_replaced_split (u v : Str) : (replaced (u ++ space :: v)).reverse =
    ((replaced v).reverse ++ [zero, two]) ++ percent :: (replaced u).reverse := by
  rw [replaced_append, replaced_cons]
  simp [encode]

/-- With one space, the rest of the array is right. -/
theorem rest_single {u v q : Str} (hu : space ∉ u) (hv : space ∉ v)
    (hq : q = pending (visited (u ++ space :: v).reverse) []) :
    q ++ (space :: space :: (u ++ space :: v).reverse).drop
        ((visited (u ++ space :: v).reverse).length + q.length) =
      (replaced (u ++ space :: v)).reverse.drop (visited (u ++ space :: v).reverse).length := by
  have hdrop : space ∉ u.reverse.drop 2 := fun h => hu (List.mem_reverse.mp (List.mem_of_mem_drop h))
  have hvis : visited (u ++ space :: v).reverse = v.reverse ++ space :: u.reverse.drop 2 := by
    rw [visited_split u hv, visited_of_not_mem hdrop]
  have hq' : q = [two, percent].drop (u.length - 2) := by
    rw [hq, hvis, pending_append, pending, if_pos rfl, pending_of_not_mem _ hdrop, List.length_drop,
      List.length_reverse]
  have hlen : (visited (u ++ space :: v).reverse).length = v.length + 1 + (u.length - 2) := by
    rw [hvis, List.length_append, List.length_cons, List.length_drop, List.length_reverse,
      List.length_reverse]
    omega
  have hqlen : q.length = 2 - (u.length - 2) := by
    rw [hq', List.length_drop]
    rfl
  have hold : space :: space :: (v.reverse ++ space :: u.reverse) =
      (space :: space :: (v.reverse ++ [space])) ++ u.reverse := by simp
  have hnew : v.reverse ++ [zero, two] ++ percent :: u.reverse =
      (v.reverse ++ [zero]) ++ ([two, percent] ++ u.reverse) := by simp
  have hread : v.length + 1 + (u.length - 2) + q.length =
      (space :: space :: (v.reverse ++ [space])).length + (u.length - 2 - 2) := by
    rw [hqlen]
    simp only [List.length_cons, List.length_append, List.length_reverse, List.length_nil]
    omega
  have hwrite : v.length + 1 + (u.length - 2) = (v.reverse ++ [zero]).length + (u.length - 2) := by simp
  calc q ++ (space :: space :: (u ++ space :: v).reverse).drop
        ((visited (u ++ space :: v).reverse).length + q.length)
      = q ++ u.reverse.drop (u.length - 2 - 2) := by
        rw [hlen, hread, reverse_split, hold, List.drop_length_add_append]
    _ = ([two, percent] ++ u.reverse).drop (u.length - 2) := by rw [List.drop_append, hq']; rfl
    _ = _ := by
        rw [hlen, hwrite, reverse_replaced_split, replaced_of_not_mem hu, replaced_of_not_mem hv, hnew,
          List.drop_length_add_append]

/-- With more spaces, the rest of the array is right if it lies before the first one. -/
theorem rest_several {u v q A : Str} {m : ℕ} (hu : space ∉ u) (hv : space ∈ v)
    (hq : q = pending (visited (u ++ space :: v).reverse) [])
    (hm : m = (visited (u ++ space :: v).reverse).length)
    (hA : A = List.replicate (2 * (v.count space + 1)) space ++ (u ++ space :: v).reverse) :
    q ++ A.drop (m + q.length) = (replaced (u ++ space :: v)).reverse.drop m ↔
      (replaced (u ++ space :: v)).length ≤ m + u.length := by
  have hcount : 0 < v.count space := List.count_pos_iff.mpr hv
  have hX : ((replaced v).reverse ++ [zero, two]).length = v.length + 2 * v.count space + 2 := by
    rw [List.length_append, List.length_reverse, length_replaced]
    rfl
  have hY : (List.replicate (2 * (v.count space + 1)) space ++ v.reverse).length =
      v.length + 2 * v.count space + 2 := by
    rw [List.length_append, List.length_replicate, List.length_reverse]
    omega
  have hN : (replaced (u ++ space :: v)).length = u.length + (v.length + 2 * v.count space + 2) + 1 := by
    rw [← List.length_reverse, reverse_replaced_split, replaced_of_not_mem hu, List.length_append,
      List.length_cons, hX, List.length_reverse]
    omega
  have hroom : q = [] ∨ m + q.length ≤ ((replaced v).reverse ++ [zero, two]).length := by
    rcases pending_room (u ++ space :: v).reverse [] with h | h | ⟨pre, t, hsplit, hle⟩
    · exact Or.inl (hq.trans h)
    · exact Or.inl (hq.trans (h.trans List.drop_nil))
    · right
      rw [reverse_split] at hsplit
      have ht := length_le_of_split hsplit (mt List.mem_reverse.mp hu)
      rw [← hq, ← hm, List.length_reverse, List.length_append, List.length_cons] at hle
      rw [List.length_reverse] at ht
      rw [hX]
      omega
  have hne : percent ≠ space := by decide
  rw [reverse_split, ← List.append_assoc] at hA
  rw [hA, reverse_replaced_split, replaced_of_not_mem hu, rest_iff hne (hX.trans hY.symm) hroom, hX, hN]
  omega

theorem written_eq_iff (s : Str) :
    written (visited s.reverse) (List.replicate (2 * s.count space) space ++ s.reverse) =
      (replaced s).reverse ↔ Works s := by
  have hwritten := written_eq (visited s.reverse) []
    (List.replicate (2 * s.count space) space ++ s.reverse) (Nat.zero_le 2)
  rw [List.nil_append, List.length_nil, Nat.sub_zero] at hwritten
  rw [hwritten, append_eq_iff, Works, List.length_map]
  apply and_congr_right
  intro _
  by_cases hmem : space ∈ s
  · obtain ⟨u, v, rfl, hu⟩ := List.eq_append_cons_of_mem hmem
    have hcount : (u ++ space :: v).count space = v.count space + 1 := by
      rw [count_split, List.count_eq_zero_of_not_mem hu, Nat.zero_add]
    by_cases hv : space ∈ v
    · have h2 : 0 < v.count space := List.count_pos_iff.mpr hv
      rw [hcount, rest_several hu hv rfl rfl rfl, idxOf_split hu]
      exact ⟨Or.inr, fun h => h.resolve_left (by omega)⟩
    · have h1 : (u ++ space :: v).count space = 1 := by
        rw [hcount, List.count_eq_zero_of_not_mem hv]
      have hrest := rest_single hu hv rfl
      rw [h1]
      exact iff_of_true hrest (Or.inl le_rfl)
  · have h0 : s.count space = 0 := List.count_eq_zero_of_not_mem hmem
    have hvis : visited s.reverse = s.reverse :=
      visited_of_not_mem (mt List.mem_reverse.mp hmem)
    refine iff_of_true ?_ (Or.inl (by omega))
    rw [hvis, pending_of_not_mem [] (mt List.mem_reverse.mp hmem), h0, replaced_of_not_mem hmem]
    simp

theorem map_shown_of_not_mem : ∀ {b : Str}, space ∉ b → b.map shown = b
  | [], _ => rfl
  | c :: b, h => by
    rw [List.map_cons, map_shown_of_not_mem (List.not_mem_of_not_mem_cons h), shown,
      if_neg (List.ne_of_not_mem_cons h).symm]

theorem map_shown_visited_split (u : Str) {v : Str} (hv : space ∉ v) :
    (visited (u ++ space :: v).reverse).map shown =
      v.reverse ++ zero :: (visited (u.reverse.drop 2)).map shown := by
  rw [visited_split u hv, List.map_append, List.map_cons,
    map_shown_of_not_mem (mt List.mem_reverse.mp hv)]
  rfl

/-- With a single space, what is stored behind it is to be what belongs there. -/
theorem works_single {u v : Str} (hu : space ∉ u) (hv : space ∉ v) :
    Works (u ++ space :: v) ↔ u.reverse.drop 2 <+: two :: percent :: u.reverse := by
  have hdrop : space ∉ u.reverse.drop 2 := fun h => hu (List.mem_reverse.mp (List.mem_of_mem_drop h))
  have hcount : (u ++ space :: v).count space ≤ 1 := by
    rw [count_split, List.count_eq_zero_of_not_mem hu, List.count_eq_zero_of_not_mem hv]
  have hnew : v.reverse ++ [zero, two] ++ percent :: u.reverse =
      v.reverse ++ zero :: two :: percent :: u.reverse := by simp
  rw [Works, and_iff_left (Or.inl hcount), map_shown_visited_split u hv, visited_of_not_mem hdrop,
    map_shown_of_not_mem hdrop, reverse_replaced_split, replaced_of_not_mem hu, replaced_of_not_mem hv, hnew,
    List.prefix_append_right_inj, List.cons_prefix_cons, and_iff_right rfl]

/-- The two characters in front of the last space are passed over, and the two before them are to be those
that belong there. -/
theorem eq_of_works {u v : Str} {c d x y : Character} (hv : space ∉ v)
    (h : Works (u ++ [c, d, x, y] ++ space :: v)) : c = percent ∧ d = two := by
  have hdrop : (u ++ [c, d, x, y]).reverse.drop 2 = d :: c :: u.reverse := by simp
  have hshown : ∀ {e e' : Character}, shown e = e' → e' ≠ zero → e ≠ space ∧ e = e' := by
    intro e e' he hne
    by_cases hspace : e = space
    · rw [shown, if_pos hspace] at he
      exact absurd he.symm hne
    · rw [shown, if_neg hspace] at he
      exact ⟨hspace, he⟩
  obtain ⟨hpre, -⟩ := h
  rw [map_shown_visited_split _ hv, hdrop, visited, List.map_cons, reverse_replaced_split,
    replaced_of_not_mem hv, List.append_assoc, List.prefix_append_right_inj] at hpre
  obtain ⟨-, hpre⟩ := List.cons_prefix_cons.mp hpre
  obtain ⟨hd, hpre⟩ := List.cons_prefix_cons.mp hpre
  obtain ⟨hspace, rfl⟩ := hshown hd (by decide)
  rw [if_neg hspace, visited, List.map_cons] at hpre
  obtain ⟨hc, -⟩ := List.cons_prefix_cons.mp hpre
  exact ⟨(hshown hc (by decide)).2, rfl⟩

theorem works_of_not_mem {s : Str} (h : space ∉ s) : Works s := by
  have h' : space ∉ s.reverse := mt List.mem_reverse.mp h
  refine ⟨?_, Or.inl (by rw [List.count_eq_zero_of_not_mem h]; omega)⟩
  rw [visited_of_not_mem h', map_shown_of_not_mem h', replaced_of_not_mem h]

end Works

/-! ## The strings that come out right -/

section Aligned

/-- The text ends as `…%2xy%2xy` does, for two characters `x` and `y`.  All texts of
at most two characters do. -/
def Repeats (u : Str) : Prop := ∃ x y k, u <:+ (List.replicate k [percent, two, x, y]).flatten

/-- No space, or a single one behind such a text. -/
def Aligned (s : Str) : Prop := space ∉ s ∨ ∃ u v, s = u ++ space :: v ∧ space ∉ u ∧ space ∉ v ∧ Repeats u

/-- Several spaces, the last one behind `%2xy` and the first one far enough from the beginning. -/
def Echoes (s : Str) : Prop :=
  2 ≤ s.count space ∧ 2 * s.count space + 2 ≤ s.idxOf space ∧
    ∃ u v x y, s = u ++ [percent, two, x, y] ++ space :: v ∧ space ∉ v

/-- A text that goes on with itself behind `p` is a piece of `p` over and over. -/
theorem prefix_append_self {p w : Str} (hp : p ≠ []) :
    w <+: p ++ w ↔ ∃ k, w <+: (List.replicate k p).flatten := by
  constructor
  · intro h
    have hall : ∀ k, w <+: (List.replicate k p).flatten ++ w := by
      intro k
      induction k with
      | zero => exact List.prefix_rfl
      | succ k ih =>
        rw [List.replicate_succ, List.flatten_cons, List.append_assoc]
        exact h.trans ((List.prefix_append_right_inj p).mpr ih)
    have hlen : w.length ≤ ((List.replicate w.length p).flatten).length := by
      rw [List.length_flatten, List.map_replicate, List.sum_replicate, smul_eq_mul]
      exact Nat.le_mul_of_pos_right _ (List.length_pos_iff.mpr hp)
    exact ⟨w.length, List.prefix_of_prefix_length_le (hall _) (List.prefix_append _ _) hlen⟩
  · rintro ⟨k, h⟩
    have hnext : p ++ w <+: (List.replicate (k + 1) p).flatten := (List.prefix_append_right_inj p).mpr h
    have hlast : (List.replicate (k + 1) p).flatten = (List.replicate k p).flatten ++ p := by
      rw [List.replicate_succ', List.flatten_append, List.flatten_singleton]
    refine List.prefix_of_prefix_length_le (h.trans ?_) hnext (by simp)
    rw [hlast]
    exact List.prefix_append _ _

theorem repeats_iff (u : Str) : Repeats u ↔ u.reverse.drop 2 <+: two :: percent :: u.reverse := by
  have hreverse : ∀ x y k, (u <:+ (List.replicate k [percent, two, x, y]).flatten ↔
      u.reverse <+: (List.replicate k [y, x, two, percent]).flatten) := by
    intro x y k
    rw [← List.reverse_prefix, List.reverse_flatten, List.map_replicate, List.reverse_replicate]
    rfl
  simp only [Repeats, hreverse]
  match u.reverse with
  | [] => exact iff_of_true ⟨two, two, 0, List.nil_prefix⟩ List.nil_prefix
  | [y] => exact iff_of_true ⟨two, y, 1, ⟨[two, two, percent], rfl⟩⟩ List.nil_prefix
  | y :: x :: w =>
    have hcons : w <+: two :: percent :: y :: x :: w ↔
        y :: x :: w <+: [y, x, two, percent] ++ (y :: x :: w) := by
      simp [List.cons_prefix_cons]
    show _ ↔ w <+: two :: percent :: y :: x :: w
    rw [hcons, prefix_append_self (List.cons_ne_nil _ _)]
    refine ⟨?_, fun ⟨k, h⟩ => ⟨x, y, k, h⟩⟩
    rintro ⟨x', y', k, h⟩
    cases k with
    | zero => exact absurd (List.prefix_nil.mp h) (List.cons_ne_nil _ _)
    | succ k =>
      have hpair := h
      rw [List.replicate_succ, List.flatten_cons, List.cons_append, List.cons_prefix_cons, List.cons_append,
        List.cons_prefix_cons] at hpair
      obtain ⟨rfl, rfl, -⟩ := hpair
      exact ⟨k + 1, h⟩

theorem works_of_aligned {s : Str} (h : Aligned s) : Works s := by
  rcases h with h | ⟨u, v, rfl, hu, hv, hrepeats⟩
  · exact works_of_not_mem h
  · exact (works_single hu hv).mpr ((repeats_iff u).mp hrepeats)

/-- With several spaces the characters that are passed over are too many for a string
that begins with a space soon. -/
theorem idxOf_le_of_works {u v : Str} (hu : space ∈ u) (hv : space ∉ v) (h : Works (u ++ space :: v)) :
    2 * (u ++ space :: v).count space + 2 ≤ (u ++ space :: v).idxOf space := by
  have hcount : (u ++ space :: v).count space = u.count space + 1 := by
    rw [count_split, List.count_eq_zero_of_not_mem hv, Nat.add_zero]
  have hpos : 0 < u.count space := List.count_pos_iff.mpr hu
  have hidx : (u ++ space :: v).idxOf space < u.length := by
    rw [List.idxOf_append, if_pos hu]
    exact List.idxOf_lt_length_of_mem hu
  have hroom := h.2.resolve_left (by omega)
  have hvisited := length_visited_le (u.reverse.drop 2)
  rw [length_replaced, visited_split u hv] at hroom
  simp only [List.length_append, List.length_cons, List.length_reverse, List.length_drop] at hroom hvisited
  omega

theorem works_iff_aligned {s : Str} (h : ¬ Echoes s) : Works s ↔ Aligned s := by
  refine ⟨fun hw => ?_, works_of_aligned⟩
  by_cases hmem : space ∈ s
  · obtain ⟨u, v, rfl, hv⟩ := Words.exists_last_sep hmem
    by_cases hu : space ∈ u
    · have hidx := idxOf_le_of_works hu hv hw
      have hcount : 2 ≤ (u ++ space :: v).count space := by
        have hpos : 0 < u.count space := List.count_pos_iff.mpr hu
        rw [count_split]
        omega
      have hlen : 4 ≤ u.length := by
        have hlt := List.idxOf_lt_length_of_mem hu
        rw [List.idxOf_append, if_pos hu] at hidx
        omega
      obtain ⟨c, d, x, y, htail⟩ : ∃ c d x y, u.drop (u.length - 4) = [c, d, x, y] := by
        have hfour : (u.drop (u.length - 4)).length = 4 := by rw [List.length_drop]; omega
        match u.drop (u.length - 4), hfour with
        | [c, d, x, y], _ => exact ⟨c, d, x, y, rfl⟩
      have hsplit : u = u.take (u.length - 4) ++ [c, d, x, y] := by rw [← htail, List.take_append_drop]
      have hw' := hw
      rw [hsplit] at hw'
      obtain ⟨rfl, rfl⟩ := eq_of_works hv hw'
      exact absurd ⟨hcount, hidx, _, v, x, y, congrArg (· ++ space :: v) hsplit, hv⟩ h
    · exact Or.inr ⟨u, v, rfl, hu, hv, (repeats_iff u).mpr ((works_single hu hv).mp hw)⟩
  · exact Or.inl hmem

end Aligned

/-! ## The two versions together -/

/-- `replaceSpace` returns the replaced string; `replaceSpace1` returns too, and the replaced string for
every aligned string, and for no other one but perhaps some of those that echo. -/
theorem replaceSpace1_spec (s : Str) : Returns (Algorithm.replaceSpace s) (replaced s) ∧
    (∃ r, Returns (Algorithm.replaceSpace1 s) r) ∧
    (Aligned s → Returns (Algorithm.replaceSpace1 s) (replaced s)) ∧
    (¬ Echoes s → (Returns (Algorithm.replaceSpace1 s) (replaced s) ↔ Aligned s)) := by
  have hr := returns_replaceSpace1 s
  have hworks : Returns (Algorithm.replaceSpace1 s) (replaced s) ↔ Works s := by
    rw [← written_eq_iff s]
    constructor
    · intro h
      exact List.reverse_eq_iff.mp (hr.unique h)
    · intro h
      rwa [h, List.reverse_reverse] at hr
  refine ⟨returns_replaceSpace s, ⟨_, hr⟩, ?_, ?_⟩
  · intro h
    exact hworks.mpr (works_of_aligned h)
  · intro h
    exact hworks.trans (works_iff_aligned h)

/-- The text of a literal. -/
def text (cs : List Char) : Str := cs.map chr

/-- `%20%2byx %2b0 ` comes out right: what is stored at the second space is what has
been passed over at the first. -/
example : Works (text ['%', '2', '0', '%', '2', 'b', 'y', 'x', ' ', '%', '2', 'b', '0', ' ']) := by
  have hvis : visited (text ['%', '2', '0', '%', '2', 'b', 'y', 'x', ' ', '%', '2', 'b', '0', ' ']).reverse =
      text [' ', '2', '%', ' ', 'b', '2', '%', '0', '2', '%'] := by
    simp [text, visited, space, chr]
  rw [Works, hvis]
  decide

/-- `abc d`: the `a` that the read index comes to after the space is written where the `2` belongs. -/
theorem replaceSpace1_spec_abc_d :
    Returns (Algorithm.replaceSpace (text ['a', 'b', 'c', ' ', 'd']))
        (text ['a', 'b', 'c', '%', '2', '0', 'd']) ∧
      Returns (Algorithm.replaceSpace1 (text ['a', 'b', 'c', ' ', 'd']))
        (text ['a', 'b', 'c', '%', 'a', '0', 'd']) ∧
      text ['a', 'b', 'c', '%', 'a', '0', 'd'] ≠ text ['a', 'b', 'c', '%', '2', '0', 'd'] := by
  refine ⟨returns_replaceSpace (text ['a', 'b', 'c', ' ', 'd']), ?_, by decide⟩
  have h := returns_replaceSpace1 (text ['a', 'b', 'c', ' ', 'd'])
  have hvis : visited (text ['a', 'b', 'c', ' ', 'd']).reverse = text ['d', ' ', 'a'] := by
    simp [text, visited, space, chr]
  rw [hvis] at h
  exact h

end QYInterview.ReplaceSpace
