import QYInterview.Lib.Window
import QYInterview.Swift

/-!
# LongestSubstring — the longest substring without a repeated character

`LengthOfLongestSubstringController.swift`.  After every character `charArray` is the longest suffix without
repetition of what was read, and `subString` the leftmost longest substring without repetition.
-/

namespace QYInterview.LongestSubstring

open RunLogic Swift Window

/-! ## The code -/

/-- The variables of the loop. -/
structure Scan where
  charArray : Str
  subString : Str
  maxLength : ℤ
  deriving DecidableEq, Repr

/-- `if charArray.contains(char)` -/
def removeRepeated (charArray : Str) (char : Character) : Prog Str :=
  if char ∈ charArray then do
    let oldIndex ← unwrap (firstIndex charArray char)
    removeFirst charArray (oldIndex + 1)
  else pure charArray

/-- `if maxLength < charArray.count` -/
def record (s : Scan) : Scan :=
  if s.maxLength < s.charArray.length then
    { s with
      maxLength := s.charArray.length
      subString := s.charArray.foldl (fun subString char => subString ++ [char]) [] }
  else s

/-- `for char in s` -/
def scanBody (s : Scan) (char : Character) : Prog Scan := do
  let charArray ← removeRepeated s.charArray char
  return record { s with charArray := charArray ++ [char] }

def lengthOfLongestSubstring (s : Str) : Prog (Str × ℤ) := do
  let v ← forEach s scanBody ⟨[], [], 0⟩
  return (v.subString, v.maxLength)

/-! ## The window -/

section Window

variable {pre w : Str} {char : Character} {s : Scan}

/-- The window is cut behind an earlier occurrence of the character. -/
theorem exists_removeRepeated (hw : LongestSuffix List.Nodup pre w) (char : Character) :
    ∃ w', removeRepeated w char = pure w' ∧ LongestSuffix List.Nodup (pre ++ [char]) (w' ++ [char]) := by
  by_cases hmem : char ∈ w
  · obtain ⟨old, new, rfl, hold⟩ := List.eq_append_cons_of_mem hmem
    refine ⟨new, ?_, hw.cut⟩
    rw [removeRepeated, if_pos hmem, firstIndex_append hold, unwrap, pure_bind, List.append_cons]
    exact removeFirst_append (by simp) new
  · refine ⟨w, ?_, hw.concat hmem⟩
    rw [removeRepeated, if_neg hmem]

theorem foldl_append_singleton (chars : Str) :
    chars.foldl (fun subString char => subString ++ [char]) [] = chars := by
  induction chars using List.reverseRecOn with
  | nil => rfl
  | append_singleton chars char ih => rw [List.foldl_append, List.foldl_cons, List.foldl_nil, ih]

/-- What the loop has read is `pre`. -/
structure Scanned (pre : Str) (s : Scan) : Prop where
  window : LongestSuffix List.Nodup pre s.charArray
  best : ∃ front back, Leftmost List.Nodup pre front s.subString back
  maxLength : s.maxLength = s.subString.length

theorem Scanned.step (h : Scanned pre s) (char : Character) :
    Halts (scanBody s char) (Scanned (pre ++ [char])) := by
  obtain ⟨front, back, hbest⟩ := h.best
  obtain ⟨w, hremove, hw⟩ := exists_removeRepeated h.window char
  simp only [scanBody, hremove, pure_bind]
  refine halts_pure ?_
  unfold record
  by_cases hlt : s.maxLength < (w ++ [char]).length
  · rw [if_pos hlt]
    simp only [foldl_append_singleton]
    obtain ⟨front', hnew⟩ := hbest.replace hw (by rw [h.maxLength] at hlt; omega)
    exact ⟨hw, ⟨front', [], hnew⟩, rfl⟩
  · rw [if_neg hlt]
    refine ⟨hw, ⟨front, back ++ [char], hbest.keep hw ?_⟩, h.maxLength⟩
    rw [h.maxLength] at hlt
    omega

end Window

/-- The leftmost longest substring without a repeated character, and its length. -/
theorem lengthOfLongestSubstring_spec (s : Str) : ∃ sub len, Returns (lengthOfLongestSubstring s) (sub, len) ∧
    len = sub.length ∧ sub.Nodup ∧ ∃ front back, s = front ++ sub ++ back ∧
      (∀ A B C, s = A ++ B ++ C → B.Nodup → B.length ≤ sub.length) ∧
      ∀ A B C, s = A ++ B ++ C → B.Nodup → B.length = sub.length → front.length ≤ A.length := by
  have hloop : Halts (forEach s scanBody ⟨[], [], 0⟩) (Scanned s) :=
    halts_forEach Scanned (fun pre char _ v _ hv => hv.step char)
      ⟨longestSuffix_nil, ⟨[], [], leftmost_nil List.nodup_nil⟩, rfl⟩
  obtain ⟨v, hret, hv⟩ := hloop
  obtain ⟨front, back, hbest⟩ := hv.best
  exact ⟨v.subString, v.maxLength, returns_bind hret (returns_pure _), hv.maxLength, hbest.prop, front,
    back, hbest.split, hbest.longest, hbest.leftmost⟩

end QYInterview.LongestSubstring
