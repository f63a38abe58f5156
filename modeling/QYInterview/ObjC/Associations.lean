import Mathlib.Data.List.AList
import QYInterview.Lib.Interleaving

/-!
# ObjC.Associations — associated objects

`objc-references.mm` keeps the associations of all objects in one table of tables.  A call of
`objc_setAssociatedObject`, `objc_getAssociatedObject` or `objc_removeAssociatedObjects`, and the part of
`objc_destructInstance` about associations, has the lock of the table for one turn; it retains and releases
outside it. Calls of several threads, and those that a release or a `-copy` makes, take turns in any order.

A policy is the number the code tests the bits of.  The object a `-copy` returns is the choice of the turn.
-/

namespace QYInterview.ObjC.Associations

open Interleaving

variable {ω κ ι : Type}

/-! ## The data -/

/-- `ObjcAssociation` -/
structure ObjcAssociation (ι : Type) where
  policy : ℕ
  value : Option ι
  deriving DecidableEq, Repr

/-- `ObjcAssociation()`, which is also what a move leaves. -/
def ObjcAssociation.empty : ObjcAssociation ι := ⟨0, none⟩

/-- The reference to an object, none to nil. -/
def reference : Option ι → Multiset ι
  | none => 0
  | some v => {v}

/-- `OBJC_ASSOCIATION_SETTER_RETAIN` and `OBJC_ASSOCIATION_SETTER_COPY` share the bit
that `releaseHeldValue` tests. -/
def ObjcAssociation.held (a : ObjcAssociation ι) : Multiset ι := if a.policy &&& 1 ≠ 0 then
    reference a.value else 0

/-- `retainReturnedValue`: what is retained. -/
def ObjcAssociation.retainReturned (a : ObjcAssociation ι) : Multiset ι :=
  if a.policy &&& 256 ≠ 0 then reference a.value else 0

/-- `autoreleaseReturnedValue`: what is autoreleased. -/
def ObjcAssociation.autoreleaseReturned (a : ObjcAssociation ι) : Multiset ι :=
  if a.policy &&& 512 ≠ 0 then reference a.value else 0

/-- `acquireValue`, with what it has retained; `copied` is what `-copy` returns,
which it retains for its caller. -/
def ObjcAssociation.acquireValue (copied : Option ι) (a : ObjcAssociation ι) :
    ObjcAssociation ι × Multiset ι :=
  match a.value with
  | none => (a, 0)
  | some v =>
    if a.policy &&& 0xFF = 1 then (a, {v})
    else if a.policy &&& 0xFF = 3 then (⟨a.policy, copied⟩, reference copied)
    else (a, 0)

/-- `OBJC_ASSOCIATION_SYSTEM_OBJECT` -/
def ObjcAssociation.isSystem (a : ObjcAssociation ι) : Bool := a.policy &&& 65536 != 0

abbrev ObjectAssociationMap (κ ι : Type) := AList fun _ : κ => ObjcAssociation ι

abbrev AssociationsHashMap (ω κ ι : Type) := AList fun _ : ω => ObjectAssociationMap κ ι

/-- The table, the flag in the isa of every object, and what was retained, released and autoreleased so far,
which no code reads. -/
structure World (ω κ ι : Type) where
  associations : AssociationsHashMap ω κ ι
  hasAssociatedObjects : ω → Bool
  retained : Multiset ι
  released : Multiset ι
  autoreleased : Multiset ι

/-- A call between two of its turns. -/
inductive AssocCall (ω κ ι : Type)
  | get (object : Option ω) (key : κ)
  | found (association : ObjcAssociation ι)
  | set (object : Option ω) (key : κ) (value : Option ι) (policy : ℕ)
  -- in front of the lock, with a value and without
  | establishing (object : ω) (key : κ) (association : ObjcAssociation ι)
  | erasing (object : ω) (key : κ) (association : ObjcAssociation ι)
  | stored (object : ω) (isFirstAssociation : Bool) (association : ObjcAssociation ι)
  | releasing (association : ObjcAssociation ι)
  | removeAssociatedObjects (object : ω)
  | destructInstance (object : ω)
  | remove (object : ω) (deallocating : Bool)
  | draining (deallocating : Bool) (refs laterRefs : List (ObjcAssociation ι))
  | drainingLater (laterRefs : List (ObjcAssociation ι))
  | returned (value : Option ι)
  | crashed

/-! ## The code -/

section Code

variable [DecidableEq ω] [DecidableEq κ]

/-- The value is there: the association is established or replaced;
the old one is what the call holds afterwards. -/
def establish (m : AssociationsHashMap ω κ ι) (object : ω) (key : κ) (association : ObjcAssociation ι) :
    AssociationsHashMap ω κ ι × Bool × ObjcAssociation ι :=
  let refs := (m.lookup object).getD ∅
  (m.insert object (refs.insert key association), (m.lookup object).isNone, (refs.lookup key).getD .empty)

/-- The associations of an object, whose table goes with the last one. -/
def keep (m : AssociationsHashMap ω κ ι) (object : ω) (refs : ObjectAssociationMap κ ι) :
    AssociationsHashMap ω κ ι :=
  if refs.entries.isEmpty then m.erase object else m.insert object refs

/-- The value is nil: the association goes. -/
def eraseKey (m : AssociationsHashMap ω κ ι) (object : ω) (key : κ) (association : ObjcAssociation ι) :
    AssociationsHashMap ω κ ι × ObjcAssociation ι :=
  match m.lookup object with
  | none => (m, association)
  | some refs =>
    match refs.lookup key with
    | none => (m, association)
    | some old => (keep m object (refs.erase key), old)

/-- The associations that `objc_removeAssociatedObjects` puts back. -/
def systemRefs (refs : ObjectAssociationMap κ ι) : ObjectAssociationMap κ ι :=
  ⟨refs.entries.filter fun ref => ref.2.isSystem, refs.nodupKeys.sublist List.filter_sublist⟩

/-- The part of `_object_remove_assocations` under the lock. -/
def takeRefs (m : AssociationsHashMap ω κ ι) (object : ω) (deallocating : Bool) :
    AssociationsHashMap ω κ ι × List (ObjcAssociation ι) :=
  match m.lookup object with
  | none => (m, [])
  | some refs =>
    (keep m object (if deallocating then ∅ else systemRefs refs), refs.entries.map fun ref => ref.2)

/-- `releaseHeldValue` -/
def World.release (g : World ω κ ι) (a : ObjcAssociation ι) : World ω κ ι :=
  { g with released := g.released + a.held }

/-- `setHasAssociatedObjects` -/
def World.setHasAssociatedObjects (g : World ω κ ι) (object : ω) : World ω κ ι :=
  { g with hasAssociatedObjects := Function.update g.hasAssociatedObjects object true }

/-- `_object_set_associative_reference` up to the lock;
`forbids` is `forbidsAssociatedObjects` of the class. -/
def enterSet (forbids : ω → Bool) (copied : Option ι) (g : World ω κ ι) (object : Option ω) (key : κ)
    (value : Option ι) (policy : ℕ) : World ω κ ι × AssocCall ω κ ι :=
  match object with
  | none => if value.isNone then (g, .returned none) else (g, .crashed)
  | some object =>
    if forbids object then (g, .crashed)
    else
      let acquired := (ObjcAssociation.mk policy value).acquireValue copied
      ({ g with retained := g.retained + acquired.2 },
        if value.isSome then .establishing object key acquired.1 else .erasing object key acquired.1)

/-- A turn. -/
def next (forbids : ω → Bool) (copied : Option ι) (g : World ω κ ι) :
    AssocCall ω κ ι → Option (World ω κ ι × AssocCall ω κ ι)
  | .get object key =>
    let association :=
      ((object.bind fun o => g.associations.lookup o).bind fun refs => refs.lookup key).getD .empty
    some ({ g with retained := g.retained + association.retainReturned }, .found association)
  | .found association =>
    some ({ g with autoreleased := g.autoreleased + association.autoreleaseReturned },
      .returned association.value)
  | .set object key value policy => some (enterSet forbids copied g object key value policy)
  | .establishing object key association =>
    let (associations, isFirstAssociation, old) := establish g.associations object key association
    some ({ g with associations := associations }, .stored object isFirstAssociation old)
  | .erasing object key association =>
    let (associations, old) := eraseKey g.associations object key association
    some ({ g with associations := associations }, .stored object false old)
  | .stored object isFirstAssociation old =>
    some (if isFirstAssociation then g.setHasAssociatedObjects object else g, .releasing old)
  | .releasing old => some (g.release old, .returned none)
  | .removeAssociatedObjects object =>
    some (g, if g.hasAssociatedObjects object then .remove object false else .returned none)
  | .destructInstance object =>
    some (g, if g.hasAssociatedObjects object then .remove object true else .returned none)
  | .remove object deallocating =>
    let (associations, refs) := takeRefs g.associations object deallocating
    some ({ g with associations := associations }, .draining deallocating refs [])
  | .draining deallocating (a :: refs) laterRefs =>
    -- without `deallocating` the system's associations are still in the table
    if a.isSystem then
      some (g, .draining deallocating refs (if deallocating then laterRefs ++ [a] else laterRefs))
    else some (g.release a, .draining deallocating refs laterRefs)
  | .draining _ [] laterRefs => some (g, .drainingLater laterRefs)
  | .drainingLater (a :: laterRefs) => some (g.release a, .drainingLater laterRefs)
  | .drainingLater [] => some (g, .returned none)
  | .returned _ | .crashed => none

/-- Before the first association. -/
def World.initial : World ω κ ι := ⟨∅, fun _ => false, 0, 0, 0⟩

/-- The calls that start. -/
def entry : AssocCall ω κ ι → Bool
  | .get _ _ | .set _ _ _ _ | .removeAssociatedObjects _ | .destructInstance _ => true
  | _ => false

end Code

/-! ## One turn -/

section Turn

variable [DecidableEq ω] [DecidableEq κ]

/-- What one turn can do. -/
inductive Turn (g : World ω κ ι) : AssocCall ω κ ι → World ω κ ι → AssocCall ω κ ι → Prop
  | get (object : Option ω) (key : κ) (a : ObjcAssociation ι)
      (ha : a = ((object.bind fun o => g.associations.lookup o).bind fun refs =>
        refs.lookup key).getD .empty) :
      Turn g (.get object key) { g with retained := g.retained + a.retainReturned } (.found a)
  | found (a : ObjcAssociation ι) :
      Turn g (.found a) { g with autoreleased := g.autoreleased + a.autoreleaseReturned } (.returned a.value)
  | refuse (object : Option ω) (key : κ) (value : Option ι) (policy : ℕ) (s' : AssocCall ω κ ι)
      (hs : s' = .returned none ∨ s' = .crashed) : Turn g (.set object key value policy) g s'
  | acquire (o : ω) (key : κ) (v : ι) (policy : ℕ) (copied : Option ι) :
      Turn g (.set (some o) key (some v) policy)
        { g with retained := g.retained + (ObjcAssociation.acquireValue copied ⟨policy, some v⟩).2 }
        (.establishing o key (ObjcAssociation.acquireValue copied ⟨policy, some v⟩).1)
  | acquireNil (o : ω) (key : κ) (policy : ℕ) : Turn g (.set (some o) key none policy) g
      (.erasing o key ⟨policy, none⟩)
  | establish (object : ω) (key : κ) (a : ObjcAssociation ι) :
      Turn g (.establishing object key a) { g with associations := (establish g.associations object key a).1 }
        (.stored object (establish g.associations object key a).2.1
          (establish g.associations object key a).2.2)
  | erase (object : ω) (key : κ) (a : ObjcAssociation ι) :
      Turn g (.erasing object key a) { g with associations := (eraseKey g.associations object key a).1 }
        (.stored object false (eraseKey g.associations object key a).2)
  | setFlag (object : ω) (old : ObjcAssociation ι) :
      Turn g (.stored object true old) (g.setHasAssociatedObjects object) (.releasing old)
  | keepFlag (object : ω) (old : ObjcAssociation ι) : Turn g (.stored object false old) g (.releasing old)
  | release (old : ObjcAssociation ι) : Turn g (.releasing old) (g.release old) (.returned none)
  | removeAssociatedObjects (object : ω) (s' : AssocCall ω κ ι)
      (hs : s' = if g.hasAssociatedObjects object then .remove object false else .returned none) :
      Turn g (.removeAssociatedObjects object) g s'
  | destructInstance (object : ω) (s' : AssocCall ω κ ι)
      (hs : s' = if g.hasAssociatedObjects object then .remove object true else .returned none) :
      Turn g (.destructInstance object) g s'
  | take (object : ω) (deallocating : Bool) :
      Turn g (.remove object deallocating) { g
        with associations := (takeRefs g.associations object deallocating).1 }
        (.draining deallocating (takeRefs g.associations object deallocating).2 [])
  | putOff (deallocating : Bool) (a : ObjcAssociation ι) (refs laterRefs : List (ObjcAssociation ι))
      (ha : a.isSystem = true) : Turn g (.draining deallocating (a :: refs) laterRefs) g
        (.draining deallocating refs (if deallocating then laterRefs ++ [a] else laterRefs))
  | drain (deallocating : Bool) (a : ObjcAssociation ι) (refs laterRefs : List (ObjcAssociation ι))
      (ha : a.isSystem = false) : Turn g (.draining deallocating (a :: refs) laterRefs) (g.release a)
        (.draining deallocating refs laterRefs)
  | drained (deallocating : Bool) (laterRefs : List (ObjcAssociation ι)) :
      Turn g (.draining deallocating [] laterRefs) g (.drainingLater laterRefs)
  | later (a : ObjcAssociation ι) (laterRefs : List (ObjcAssociation ι)) :
      Turn g (.drainingLater (a :: laterRefs)) (g.release a) (.drainingLater laterRefs)
  | done : Turn g (.drainingLater []) g (.returned none)

theorem turn_of_enterSet (forbids : ω → Bool) (copied : Option ι) (g : World ω κ ι)
    (object : Option ω) (key : κ) (value : Option ι) (policy : ℕ) : Turn g (.set object key value policy)
      (enterSet forbids copied g object key value policy).1
        (enterSet forbids copied g object key value policy).2 := by
  unfold enterSet
  cases object with
  | none =>
    by_cases hvalue : value.isNone = true
    · rw [if_pos hvalue]
      exact .refuse none key value policy _ (Or.inl rfl)
    · rw [if_neg hvalue]
      exact .refuse none key value policy _ (Or.inr rfl)
  | some o =>
    by_cases hforbids : forbids o = true
    · simp only [if_pos hforbids]
      exact .refuse (some o) key value policy _ (Or.inr rfl)
    · simp only [if_neg hforbids]
      cases value with
      | none =>
        have hsame : ({ g with
            retained := g.retained + (ObjcAssociation.acquireValue copied ⟨policy, none⟩).2 } :
            World ω κ ι) = g :=
          congrArg (fun r => ({ g with retained := r } : World ω κ ι)) (add_zero g.retained)
        rw [hsame]
        exact .acquireNil o key policy
      | some v => exact .acquire o key v policy copied

theorem turn_of_next {forbids : ω → Bool} {copied : Option ι} {g g' : World ω κ ι} {s s' : AssocCall ω κ ι}
    (h : next forbids copied g s = some (g', s')) : Turn g s g' s' := by
  cases s with
  | get object key =>
    cases h
    exact .get object key _ rfl
  | found a =>
    cases h
    exact .found a
  | set object key value policy =>
    obtain ⟨rfl, rfl⟩ := Prod.mk.inj (Option.some.inj h)
    exact turn_of_enterSet forbids copied g object key value policy
  | establishing object key a =>
    cases h
    exact .establish object key a
  | erasing object key a =>
    cases h
    exact .erase object key a
  | stored object isFirst old =>
    cases h
    cases isFirst with
    | true => exact .setFlag object old
    | false => exact .keepFlag object old
  | releasing old =>
    cases h
    exact .release old
  | removeAssociatedObjects object =>
    cases h
    exact .removeAssociatedObjects object _ rfl
  | destructInstance object =>
    cases h
    exact .destructInstance object _ rfl
  | remove object deallocating =>
    cases h
    exact .take object deallocating
  | draining deallocating refs laterRefs =>
    cases refs with
    | nil =>
      cases h
      exact .drained deallocating laterRefs
    | cons a refs =>
      simp only [next] at h
      by_cases ha : a.isSystem = true
      · rw [if_pos ha] at h
        cases h
        exact .putOff deallocating a refs laterRefs ha
      · rw [if_neg ha] at h
        cases h
        exact .drain deallocating a refs laterRefs (Bool.eq_false_of_not_eq_true ha)
  | drainingLater laterRefs =>
    cases laterRefs with
    | nil =>
      cases h
      exact .done
    | cons a laterRefs =>
      cases h
      exact .later a laterRefs
  | returned value => cases h
  | crashed => cases h

end Turn

end QYInterview.ObjC.Associations
