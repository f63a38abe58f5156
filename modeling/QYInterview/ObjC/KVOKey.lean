import Mathlib.Tactic
import Mathlib.Data.List.Basic

/-!
# ObjC.KVOKey — setter names and keys

`setterForGetter` and `getterForSetter` over strings of UTF-16 units.  Both change the case of the first
unit only, through Foundation's `uppercaseString` and `lowercaseString` (`CaseMap`).  Going to the setter
and back gives the key again exactly when its first unit survives the two changes (`FoldsBack`); among the
ASCII characters these are all but the capital letters.
-/

namespace QYInterview.ObjC

/-- `NSString`: its UTF-16 units. -/
abbrev NSString := List UInt16

/-- A literal of characters in the basic plane. -/
def units (cs : List Char) : NSString := cs.map fun c => UInt16.ofNat c.toNat

/-- `uppercaseString` and `lowercaseString` of a one-unit string, documented on ASCII. -/
structure CaseMap where
  uppercase : UInt16 → NSString
  lowercase : UInt16 → NSString
  uppercase_ne_nil : ∀ c, uppercase c ≠ []
  uppercase_ascii : ∀ c, c < 128 → uppercase c = [if 97 ≤ c ∧ c ≤ 122 then c - 32 else c]
  lowercase_ascii : ∀ c, c < 128 → lowercase c = [if 65 ≤ c ∧ c ≤ 90 then c + 32 else c]

/-- The case changes of ASCII alone. -/
def CaseMap.ascii : CaseMap where
  uppercase := fun c => [if 97 ≤ c ∧ c ≤ 122 then c - 32 else c]
  lowercase := fun c => [if 65 ≤ c ∧ c ≤ 90 then c + 32 else c]
  uppercase_ne_nil := fun _ => List.cons_ne_nil _ _
  uppercase_ascii := fun _ _ => rfl
  lowercase_ascii := fun _ _ => rfl

/-- An exception: its name, the format of its reason and the string put into it beside the receiver. -/
structure NSException where
  name : String
  reason : String
  argument : NSString
  deriving DecidableEq, Repr

section Names

variable (C : CaseMap)

/-- `[NSString stringWithFormat:@"set%@%@:", firstLetter, remainingLetters]`; `none` is `nil`. -/
def setterForGetter : NSString → Option NSString
  | [] => none
  | c :: remainingLetters =>
    some (units ['s', 'e', 't'] ++ (C.uppercase c ++ remainingLetters) ++ units [':'])

/-- The name between `set` and the colon with its first letter lower-cased; `none` is `nil`.  Between the
two parts of `set:` there is no first letter, and taking it raises. -/
def getterForSetter (setter : NSString) : Except NSException (Option NSString) :=
  if setter.length ≤ 0 ∨ ¬ units ['s', 'e', 't'] <+: setter ∨ ¬ units [':'] <:+ setter then .ok none
  else
    match (setter.drop 3).take (setter.length - 4) with
    | [] => .error ⟨"NSRangeException", "substringToIndex:", setter⟩
    | c :: key => .ok (some (C.lowercase c ++ key))

/-- Lower-casing the first unit of what upper-casing `c` gives leads back to `c`. -/
def CaseMap.FoldsBack (c : UInt16) : Prop :=
  match C.uppercase c with
  | [] => False
  | u :: us => C.lowercase u ++ us = [c]

instance : DecidablePred C.FoldsBack := fun c => by
  unfold CaseMap.FoldsBack
  cases C.uppercase c <;> infer_instance

end Names

section RoundTrip

variable {C : CaseMap}

theorem getterForSetter_eq (u : UInt16) (key : NSString) :
    getterForSetter C (units ['s', 'e', 't'] ++ (u :: key) ++ units [':']) =
      .ok (some (C.lowercase u ++ key)) := by
  have hlen : (units ['s', 'e', 't'] ++ (u :: key) ++ units [':']).length - 4 = (u :: key).length := by
    simp [units]
  have hmid : (units ['s', 'e', 't'] ++ (u :: key) ++ units [':']).drop 3 = (u :: key) ++ units [':'] := rfl
  unfold getterForSetter
  rw [if_neg, hlen, hmid, List.take_left]
  rintro (h | h | h)
  · simp [units] at h
  · exact h ((List.prefix_append _ _).trans (List.prefix_append _ _))
  · exact h (List.suffix_append _ _)

/-- A capital letter becomes a small one; every other ASCII character comes back. -/
theorem foldsBack_ascii {c : UInt16} (hc : c < 128) : C.FoldsBack c ↔ ¬ (65 ≤ c ∧ c ≤ 90) := by
  unfold CaseMap.FoldsBack
  rw [C.uppercase_ascii c hc]
  show C.lowercase _ ++ [] = [c] ↔ _
  rw [List.append_nil]
  by_cases hsmall : 97 ≤ c ∧ c ≤ 122
  · have hcap : c - 32 < 128 ∧ 65 ≤ c - 32 ∧ c - 32 ≤ 90 := by grind
    have hnot : ¬ (65 ≤ c ∧ c ≤ 90) := by grind
    rw [if_pos hsmall, C.lowercase_ascii _ hcap.1, if_pos hcap.2, UInt16.sub_add_cancel]
    exact iff_of_true rfl hnot
  · rw [if_neg hsmall, C.lowercase_ascii c hc]
    by_cases hcap : 65 ≤ c ∧ c ≤ 90
    · have hne : c + 32 ≠ c := by simp
      rw [if_pos hcap]
      exact iff_of_false (fun h => hne (List.head_eq_of_cons_eq h)) (not_not_intro hcap)
    · rw [if_neg hcap]
      exact iff_of_true rfl hcap

/-- To the setter and back: the key changes in its first unit only. -/
theorem exists_setter_roundTrip (c : UInt16) (rest : NSString) :
    ∃ s, setterForGetter C (c :: rest) = some s ∧
      (getterForSetter C s = .ok (some (c :: rest)) ↔ C.FoldsBack c) := by
  unfold CaseMap.FoldsBack
  cases hu : C.uppercase c with
  | nil => exact absurd hu (C.uppercase_ne_nil c)
  | cons u us =>
    refine ⟨_, by rw [setterForGetter, hu], ?_⟩
    rw [List.cons_append, getterForSetter_eq]
    constructor
    · intro h
      have h := Option.some.inj (Except.ok.inj h)
      rw [← List.append_assoc] at h
      exact List.append_cancel_right (h.trans (List.singleton_append.symm))
    · intro h
      rw [← List.append_assoc, h]
      rfl

end RoundTrip

end QYInterview.ObjC
