import QYInterview.ReplaceSpace

/-!
# ReplaceSpaceInPlace — `%20` for every space, in the array of the string

`双指针/ReplaceSpaceController.swift` (QYInterview).  Between the characters not yet read and those already
written lies a gap of two places for every space still to be read: writing never reaches an unread
character, and when the gap is closed no space is left.
-/

namespace QYInterview.ReplaceSpace.QY

open RunLogic Swift

/-! ## The code -/

/-- `for i in strArray`, over `count`. -/
def countBody (count : ℤ) (i : Character) : Prog ℤ := if i = space then pure (count + 1) else pure count

/-- `for _ in 0..<(count * 2)`, over `strArray`. -/
def appendBody (strArray : Str) (_ : ℤ) : Prog Str := pure (strArray ++ [space])

/-- `while left < right`, over `strArray`, `left`, `right`. -/
def replaceSpaceTurn : Str × ℤ × ℤ → Prog (Turn (Str × ℤ × ℤ) Str)
  | (strArray, left, right) =>
    if left < right then do
      if (← get strArray left) = space then
        let strArray ← set strArray right zero
        let strArray ← set strArray (right - 1) two
        let strArray ← set strArray (right - 2) percent
        return .next (strArray, left - 1, right - 3)
      else
        let strArray ← set strArray right (← get strArray left)
        return .next (strArray, left - 1, right - 1)
    else return .exit strArray

/-- The variables before the last loop. -/
def grown (s : Str) : Prog (Str × ℤ × ℤ) := do
  let count ← forEach s countBody 0
  let left : ℤ := s.length - 1
  let right := s.length + count * 2 - 1
  let strArray ← forRange 0 (count * 2) appendBody s
  return (strArray, left, right)

def replaceSpace (s : Str) : Prog Str := do
  let v ← grown s
  loop replaceSpaceTurn v

/-! ## The gap -/

section Gap

variable {s front back gap : Str} {strArray : Str} {left right : ℤ}

/-- `front` is still to be read, `back` is replaced, and the gap between them has two
places for every space to come. -/
structure Gapped (s front back gap strArray : Str) (left right : ℤ) : Prop where
  split : s = front ++ back
  array : strArray = front ++ gap ++ replaced back
  left_eq : left = front.length - 1
  right_eq : right = left + gap.length
  room : gap.length = 2 * front.count space

/-- Some characters are still to be read. -/
def Reading (s : Str) : Str × ℤ × ℤ → Prop
  | (strArray, left, right) => ∃ front back gap, Gapped s front back gap strArray left right

theorem halts_grown (s : Str) : Halts (grown s) (Reading s) := by
  have hcount : Halts (forEach s countBody 0) fun count => count = s.count space := by
    refine halts_forEach (fun pre count => count = ((pre.count space : ℕ) : ℤ)) ?_ rfl
    intro pre c _ count _ hI
    unfold countBody
    by_cases hc : c = space
    · rw [if_pos hc, hI, hc]
      exact halts_pure (by rw [List.count_append, List.count_singleton_self, Nat.cast_add, Nat.cast_one])
    · rw [if_neg hc, hI]
      exact halts_pure (by rw [List.count_append, List.count_singleton, if_neg (by simpa using hc),
        Nat.add_zero])
  have happend : Halts (forRange (0 : ℕ) (s.count space * 2 : ℕ) appendBody s) fun strArray =>
      strArray = s ++ List.replicate (s.count space * 2) space := by
    refine halts_forRange (Nat.zero_le _) (fun i strArray => strArray = s ++ List.replicate i space)
      (fun i strArray _ _ hI => halts_pure ?_) (List.append_nil s).symm
    rw [hI, List.append_assoc, ← List.replicate_succ']
  unfold grown
  refine halts_bind (hcount.mono ?_)
  rintro _ rfl
  refine halts_bind (happend.mono ?_)
  rintro _ rfl
  refine halts_pure ⟨s, [], List.replicate (s.count space * 2) space, (List.append_nil s).symm, ?_,
    rfl, ?_, ?_⟩
  · exact (List.append_nil _).symm
  · rw [List.length_replicate, Nat.cast_mul]
    ring
  · rw [List.length_replicate, Nat.mul_comm]

/-- A character that is no space moves to the end of the gap. -/
theorem Gapped.other {c : Character} (h : Gapped s (front ++ [c]) back gap strArray left right)
    (hc : c ≠ space) (hlt : left < right) : ∃ gap' strArray', replaceSpaceTurn (strArray, left, right) =
      pure (.next (strArray', left - 1, right - 1)) ∧
      Gapped s front (c :: back) gap' strArray' (left - 1) (right - 1) := by
  obtain ⟨rfl, rfl, hleft, hright, hroom⟩ := h
  have hl : left = front.length := by
    rw [hleft, cast_length_concat, add_sub_cancel_right]
  rw [List.count_append, List.count_singleton, if_neg (by simpa using hc), Nat.add_zero] at hroom
  obtain ⟨gap, x, rfl⟩ := (List.eq_nil_or_concat' gap).resolve_left (by rintro rfl; simp at hright; omega)
  have hget : get (front ++ [c] ++ (gap ++ [x]) ++ replaced back) left = pure c := by
    rw [List.append_assoc, ← List.append_cons]
    exact get_append hl c _
  have hset : set (front ++ [c] ++ (gap ++ [x]) ++ replaced back) right c =
      pure (front ++ (c :: gap) ++ replaced (c :: back)) := by
    have hr : right = (front ++ c :: gap).length := by
      rw [hright, hl]
      simp
    rw [replaced_cons, encode_of_ne hc]
    simpa using set_append hr x c (replaced back)
  refine ⟨c :: gap, _, ?_, by simp, rfl, by rw [hl], ?_, ?_⟩
  · simp only [replaceSpaceTurn, hget, pure_bind, if_pos hlt, if_neg hc, hset]
  · rw [hright]
    simp
    omega
  · rw [← hroom]
    simp

/-- The three writes of a turn. -/
theorem set_three {β : Type} {i : ℤ} (hi : i - 2 = front.length) (x y z a b c : Character) (back : Str)
    (f : Str → Prog β) :
    (do f (← set (← set (← set (front ++ x :: y :: z :: back) i c) (i - 1) b) (i - 2) a)) =
      f (front ++ a :: b :: c :: back) := by
  have hi₁ : i - 1 = (front ++ [x]).length := by
    rw [cast_length_concat, ← hi]
    omega
  have hi₂ : i = (front ++ [x, y]).length := by
    rw [List.append_cons, cast_length_concat, ← hi₁]
    omega
  have hlast : set (front ++ x :: y :: z :: back) i c = pure (front ++ x :: y :: c :: back) := by
    simpa using set_append hi₂ z c back
  have hmiddle : set (front ++ x :: y :: c :: back) (i - 1) b = pure (front ++ x :: b :: c :: back) := by
    simpa using set_append hi₁ y b (c :: back)
  rw [hlast, pure_bind, hmiddle, pure_bind, set_append hi, pure_bind]

/-- A space gives way to three characters at the end of the gap. -/
theorem Gapped.blank (h : Gapped s (front ++ [space]) back gap strArray left right) :
    ∃ gap' strArray', replaceSpaceTurn (strArray, left, right) =
      pure (.next (strArray', left - 1, right - 3)) ∧
      Gapped s front (space :: back) gap' strArray' (left - 1) (right - 3) := by
  obtain ⟨rfl, rfl, hleft, hright, hroom⟩ := h
  have hl : left = front.length := by
    rw [hleft, cast_length_concat, add_sub_cancel_right]
  rw [List.count_append, List.count_singleton_self, Nat.mul_add] at hroom
  obtain ⟨gap, z, rfl⟩ := (List.eq_nil_or_concat' gap).resolve_left (by rintro rfl; simp at hroom)
  obtain ⟨gap, y, rfl⟩ := (List.eq_nil_or_concat' gap).resolve_left (by rintro rfl; simp at hroom)
  obtain ⟨gap', x, hgap⟩ := (List.eq_nil_or_concat' (space :: gap)).resolve_left (List.cons_ne_nil _ _)
  have hlen : gap.length = gap'.length := by simpa using congrArg List.length hgap
  have harray : front ++ [space] ++ (gap ++ [y] ++ [z]) ++ replaced back =
      front ++ gap' ++ x :: y :: z :: replaced back := by
    rw [List.append_assoc gap, ← List.append_assoc, List.append_assoc front, List.singleton_append, hgap]
    simp
  have hget : get (front ++ [space] ++ (gap ++ [y] ++ [z]) ++ replaced back) left = pure space := by
    rw [List.append_assoc, ← List.append_cons]
    exact get_append hl space _
  have hr : right - 2 = (front ++ gap').length := by
    rw [hright, hl]
    simp
    omega
  have hlt : left < right := by
    rw [hright]
    simp
    omega
  refine ⟨gap', front ++ gap' ++ percent :: two :: zero :: replaced back, ?_, by simp, ?_, by rw [hl], ?_, ?_⟩
  · simp only [replaceSpaceTurn, hget, pure_bind, if_pos hlt]
    rw [if_pos trivial, harray, set_three hr]
  · rw [replaced_cons, encode, if_pos rfl]
    simp
  · rw [hright]
    simp
    omega
  · simp only [List.length_append, List.length_singleton] at hroom
    omega

/-- When the indices meet, there is no space in front of them. -/
theorem Gapped.closed (h : Gapped s front back gap strArray left right) (hge : ¬ left < right) :
    strArray = replaced s := by
  have hright := h.right_eq
  have hroom := h.room
  have hnil : gap = [] := List.eq_nil_of_length_eq_zero (by omega)
  have hnone : front.count space = 0 := by
    rw [hnil, List.length_nil] at hroom
    omega
  rw [h.array, h.split, hnil, List.append_nil, replaced_append,
    replaced_of_not_mem (List.count_eq_zero.mp hnone)]

/-- A turn keeps the gap, and the loop ends with all characters replaced. -/
theorem Reading.turn {v : Str × ℤ × ℤ} (h : Reading s v) : Halts (replaceSpaceTurn v)
    (Turn.Good (fun v' => Reading s v' ∧ (v'.2.1 + 1).toNat < (v.2.1 + 1).toNat)
      fun r => r = replaced s) := by
  obtain ⟨strArray, left, right⟩ := v
  obtain ⟨front, back, gap, h⟩ := h
  have hleft := h.left_eq
  have hright := h.right_eq
  by_cases hlt : left < right
  · have hfront : front ≠ [] := by
      rintro rfl
      have hroom := h.room
      rw [List.count_nil] at hroom
      omega
    obtain ⟨front, c, rfl⟩ := (List.eq_nil_or_concat' front).resolve_left hfront
    rw [cast_length_concat] at hleft
    by_cases hc : c = space
    · obtain ⟨gap', strArray', hturn, h'⟩ := (hc ▸ h).blank
      rw [hturn]
      exact halts_pure ⟨⟨front, space :: back, gap', h'⟩, by dsimp only; omega⟩
    · obtain ⟨gap', strArray', hturn, h'⟩ := h.other hc hlt
      rw [hturn]
      exact halts_pure ⟨⟨front, c :: back, gap', h'⟩, by dsimp only; omega⟩
  · rw [replaceSpaceTurn, if_neg hlt]
    exact halts_pure (h.closed hlt)

end Gap

/-- The result has `%20` for every space and all other characters in their order.  Before every turn the gap
is two places for every space up to `left`, those characters are as they were,
and when the indices meet the array is the result. -/
theorem replaceSpace_spec (s : Str) : Returns (replaceSpace s) (replaced s) ∧
    ∃ v, Returns (grown s) v ∧ ∀ strArray left right, Reaches replaceSpaceTurn v (strArray, left, right) →
      ∃ front back, s = front ++ back ∧ left = front.length - 1 ∧ right - left = 2 * (front.count space : ℕ) ∧
        front <+: strArray ∧ (right ≤ left → strArray = replaced s) := by
  obtain ⟨v, hgrown, hstart⟩ := halts_grown s
  obtain ⟨r, hloop, rfl⟩ := halts_loop (Reading s) _ _ (fun _ h => h.turn) v hstart
  refine ⟨returns_bind hgrown hloop, v, hgrown, ?_⟩
  intro strArray left right hreach
  obtain ⟨front, back, gap, h⟩ := hreach.invariant (fun _ h => Reading.turn h) hstart
  have hright := h.right_eq
  have hroom := h.room
  refine ⟨front, back, h.split, h.left_eq, by omega, ?_, fun hle => h.closed (not_lt.mpr hle)⟩
  rw [h.array, List.append_assoc]
  exact List.prefix_append front _

end QYInterview.ReplaceSpace.QY
