import QYInterview.ObjC.WeakTable

/-!
# ObjC.WeakVariables — weak variables over whole runs

`objc_initWeak`, `objc_storeWeak`, `objc_destroyWeak`, `objc_copyWeak`, `objc_moveWeak` and the end of an
object in `clearDeallocating`, on the side tables of `WeakTable`.  The abstract model is `WeakSpec`:
variables that hold an object or nil, and set themselves to nil when the object goes.  In every run that
uses the variables as the compiler does, the runtime does what the model does (`halts_step_of_reachable`),
and a variable never holds an object that is gone (`location_of_reachable`).
-/

namespace QYInterview.ObjC

open RunLogic OpenTable Weak

/-! ## The abstract model -/

/-- Where an object is in its life. -/
inductive Life
  | free
  | live
  | deallocating
  deriving DecidableEq, Repr

/-- The weak variables with what they hold, and the objects.  An address that is not
a weak variable has `none`. -/
structure WeakSpec (ο ρ : Type) where
  vars : ρ → Option (Option ο)
  life : ο → Life

/-- What the compiler and the runtime do with objects and weak variables;
`write` is to memory that is no variable. -/
inductive WeakAction (ο ρ : Type)
  | alloc (o : ο)
  | beginDealloc (o : ο)
  | dealloc (o : ο)
  | initWeak (location : ρ) (value : Option ο)
  | initWeakOrNil (location : ρ) (value : Option ο)
  | storeWeak (location : ρ) (value : Option ο)
  | storeWeakOrNil (location : ρ) (value : Option ο)
  | destroyWeak (location : ρ)
  | loadWeak (location : ρ)
  | copyWeak (dst src : ρ)
  | moveWeak (dst src : ρ)
  | write (location : ρ) (value : Option ο)
  deriving DecidableEq, Repr

namespace WeakSpec

variable {ο ρ : Type} [DecidableEq ο] [DecidableEq ρ] (env : Addresses ο ρ) (s : WeakSpec ο ρ)

/-- The object may be retained. -/
def Usable (o : ο) : Prop := env.isTaggedPointer o = true ∨ s.life o = .live

/-- The object is there. -/
def Known (o : ο) : Prop := env.isTaggedPointer o = true ∨ s.life o ≠ .free

omit [DecidableEq ο] [DecidableEq ρ] in
/-- What a variable gets: nil instead of an object that is deallocating. -/
def stored (value : Option ο) : Option ο :=
  value.filter fun o => env.isTaggedPointer o || s.life o == .live

/-- What a caller has to see to. -/
def Valid : WeakAction ο ρ → Prop
  | .alloc o => env.isTaggedPointer o = false ∧ s.life o = .free
  | .beginDealloc o => s.life o = .live
  | .dealloc o => s.life o = .deallocating
  | .initWeak location value => s.vars location = none ∧ ∀ o ∈ value, s.Usable env o
  | .initWeakOrNil location value => s.vars location = none ∧ ∀ o ∈ value, s.Known env o
  | .storeWeak location value => (s.vars location).isSome = true ∧ ∀ o ∈ value, s.Usable env o
  | .storeWeakOrNil location value => (s.vars location).isSome = true ∧ ∀ o ∈ value, s.Known env o
  | .destroyWeak location => (s.vars location).isSome = true
  | .loadWeak location => (s.vars location).isSome = true
  | .copyWeak dst src => s.vars dst = none ∧ (s.vars src).isSome = true
  | .moveWeak dst src => s.vars dst = none ∧ (s.vars src).isSome = true
  | .write location _ => s.vars location = none

/-- A variable set to a value. -/
def set (location : ρ) (value : Option (Option ο)) : WeakSpec ο ρ :=
  { s with vars := Function.update s.vars location value }

/-- What an action does to the variables and objects, and what it returns. -/
def step : WeakAction ο ρ → WeakSpec ο ρ × Option ο
  | .alloc o => ({ s with life := Function.update s.life o .live }, none)
  | .beginDealloc o => ({ s with life := Function.update s.life o .deallocating }, none)
  | .dealloc o =>
    ({ vars := fun location => if s.vars location = some (some o) then some none else s.vars location
       life := Function.update s.life o .free }, none)
  | .initWeak location value => (s.set location (some (s.stored env value)), s.stored env value)
  | .initWeakOrNil location value => (s.set location (some (s.stored env value)), s.stored env value)
  | .storeWeak location value => (s.set location (some (s.stored env value)), s.stored env value)
  | .storeWeakOrNil location value => (s.set location (some (s.stored env value)), s.stored env value)
  | .destroyWeak location => (s.set location none, none)
  | .loadWeak location => (s, s.stored env (s.vars location).join)
  | .copyWeak dst src => (s.set dst (some (s.stored env (s.vars src).join)), none)
  | .moveWeak dst src => ((s.set dst (some (s.vars src).join)).set src (some none), none)
  | .write _ _ => (s, none)

end WeakSpec

/-! ## The code -/

/-- The side tables, the memory of variables, and two bits of every object; with the number of calls of
`objc_weak_error`. -/
structure WeakWorld (ο ρ : Type) where
  weakTable : ℕ → WeakTable ο ρ
  location : ρ → Option ο
  isDeallocating : ο → Bool
  weaklyReferenced : ο → Bool
  weakErrors : ℕ

namespace WeakWorld

variable {ο ρ : Type} [DecidableEq ο] [DecidableEq ρ] (env : Addresses ο ρ) (w : WeakWorld ο ρ)

/-- `weak_unregister_no_lock` on the side table of the object. -/
def unregister (object : Option ο) (location : ρ) : Prog (WeakWorld ο ρ) :=
  match object with
  | none => pure w
  | some o => do
    let (table, error) ← weakUnregister env (w.weakTable (env.sideTable o)) (some o) location
    pure
      { w with
        weakTable := Function.update w.weakTable (env.sideTable o) table
        weakErrors := if error then w.weakErrors + 1 else w.weakErrors }

/-- `weak_register_no_lock` on the side table of the object. -/
def register (object : Option ο) (location : ρ) (options : DeallocatingOptions) :
    Prog (WeakWorld ο ρ × Option ο) :=
  match object with
  | none => pure (w, none)
  | some o => do
    let (table, object) ← weakRegister env (w.weakTable (env.sideTable o))
      (some o) location options w.isDeallocating
    pure ({ w with weakTable := Function.update w.weakTable (env.sideTable o) table }, object)

/-- `setWeaklyReferenced_nolock`, not for tagged pointers or nil. -/
def setWeaklyReferenced (object : Option ο) : WeakWorld ο ρ :=
  match object with
  | none => w
  | some o =>
    if env.isTaggedPointer o then
      w else { w with weaklyReferenced := Function.update w.weaklyReferenced o true }

/-- `*location = value` -/
def write (location : ρ) (value : Option ο) : WeakWorld ο ρ :=
  { w with location := Function.update w.location location value }

/-- `storeWeak` -/
def storeWeakCore (haveOld haveNew crashIfDeallocating : Bool) (location : ρ) (newObj : Option ο) :
    Prog (WeakWorld ο ρ × Option ο) := do
  let w ← if haveOld then w.unregister env (w.location location) location else pure w
  if haveNew then do
    let (w, newObj) ← w.register env newObj location
      (if crashIfDeallocating then .crashIfDeallocating else .returnNilIfDeallocating)
    pure ((w.setWeaklyReferenced env newObj).write location newObj, newObj)
  else pure (w, newObj)

/-- `objc_storeWeak` -/
def storeWeak (location : ρ) (newObj : Option ο) : Prog (WeakWorld ο ρ × Option ο) :=
  w.storeWeakCore env true true true location newObj

/-- `objc_storeWeakOrNil` -/
def storeWeakOrNil (location : ρ) (newObj : Option ο) : Prog (WeakWorld ο ρ × Option ο) :=
  w.storeWeakCore env true true false location newObj

/-- `objc_initWeak` -/
def initWeak (location : ρ) (newObj : Option ο) : Prog (WeakWorld ο ρ × Option ο) :=
  match newObj with
  | none => pure (w.write location none, none)
  | some _ => w.storeWeakCore env false true true location newObj

/-- `objc_initWeakOrNil` -/
def initWeakOrNil (location : ρ) (newObj : Option ο) : Prog (WeakWorld ο ρ × Option ο) :=
  match newObj with
  | none => pure (w.write location none, none)
  | some _ => w.storeWeakCore env false true false location newObj

/-- `objc_destroyWeak` -/
def destroyWeak (location : ρ) : Prog (WeakWorld ο ρ × Option ο) :=
  w.storeWeakCore env true false false location none

omit [DecidableEq ο] [DecidableEq ρ] in
/-- `objc_loadWeakRetained`: `rootTryRetain` fails for an object that is deallocating. -/
def loadWeakRetained (location : ρ) : Option ο :=
  match w.location location with
  | none => none
  | some o => if env.isTaggedPointer o then some o else if w.isDeallocating o then none else some o

/-- `objc_copyWeak` -/
def copyWeak (dst src : ρ) : Prog (WeakWorld ο ρ) := do
  let obj := w.loadWeakRetained env src
  let (w, _) ← w.initWeak env dst obj
  pure w

/-- `objc_moveWeak` -/
def moveWeak (dst src : ρ) : Prog (WeakWorld ο ρ) :=
  match w.location src with
  | none => pure (w.write dst none)
  | some obj => do
    let w ← w.unregister env (some obj) src
    let (w, _) ← w.register env (some obj) dst .dontCheckDeallocating
    pure ((w.write dst (some obj)).write src none)

/-- `clearDeallocating` of an object with a non-pointer isa; its memory is then free. -/
def clearDeallocating (o : ο) : Prog (WeakWorld ο ρ) :=
  if w.weaklyReferenced o then do
    let (table, location, errors) ← weakClear env (w.weakTable (env.sideTable o)) o w.location w.weakErrors
    pure
      { w with
        weakTable := Function.update w.weakTable (env.sideTable o) table
        location := location
        weakErrors := errors }
  else pure w

/-- One action. -/
def step : WeakAction ο ρ → Prog (WeakWorld ο ρ × Option ο)
  | .alloc o =>
    pure ({ w with
      isDeallocating := Function.update w.isDeallocating o false
      weaklyReferenced := Function.update w.weaklyReferenced o false }, none)
  | .beginDealloc o => pure ({ w with isDeallocating := Function.update w.isDeallocating o true }, none)
  | .dealloc o => do
    let w ← w.clearDeallocating env o
    pure (w, none)
  | .initWeak location value => w.initWeak env location value
  | .initWeakOrNil location value => w.initWeakOrNil env location value
  | .storeWeak location value => w.storeWeak env location value
  | .storeWeakOrNil location value => w.storeWeakOrNil env location value
  | .destroyWeak location => w.destroyWeak env location
  | .loadWeak location => pure (w, w.loadWeakRetained env location)
  | .copyWeak dst src => do
    let w ← w.copyWeak env dst src
    pure (w, none)
  | .moveWeak dst src => do
    let w ← w.moveWeak env dst src
    pure (w, none)
  | .write location value => pure (w.write location value, none)

/-! ## The runtime does what the model says -/

section Refinement

variable {env w} {s : WeakSpec ο ρ} {location dst src : ρ} {o : ο} {value : Option ο}

/-- What the side tables, the memory and the bits of the objects are, where the model is in a state. -/
structure Tracks (env : Addresses ο ρ) (w : WeakWorld ο ρ) (s : WeakSpec ο ρ) : Prop where
  tables : ∀ i, TableOk env (w.weakTable i)
  registered : ∀ i o location, Registered (w.weakTable i) o location ↔
    env.sideTable o = i ∧ env.isTaggedPointer o = false ∧ s.vars location = some (some o)
  memory : ∀ location value, s.vars location = some value → w.location location = value
  deallocating : ∀ o, s.life o ≠ .free → (w.isDeallocating o = true ↔ s.life o = .deallocating)
  held : ∀ location o, s.vars location = some (some o) → env.isTaggedPointer o = false →
    s.life o ≠ .free ∧ w.weaklyReferenced o = true
  untagged : ∀ o, s.life o ≠ .free → env.isTaggedPointer o = false
  errors : w.weakErrors = 0

omit [DecidableEq ο] [DecidableEq ρ] in
/-- The variables in the tables, given those of one changed table. -/
theorem Tracks.update_table {table : WeakTable ο ρ} {s' : WeakSpec ο ρ} (h : Tracks env w s)
    (hok : TableOk env table)
    (htable : ∀ o' location, Registered table o' location ↔ env.sideTable o' = env.sideTable o ∧
      env.isTaggedPointer o' = false ∧ s'.vars location = some (some o'))
    (hother : ∀ o' location, env.sideTable o' ≠ env.sideTable o →
      (s'.vars location = some (some o') ↔ s.vars location = some (some o'))) :
    (∀ i, TableOk env (Function.update w.weakTable (env.sideTable o) table i)) ∧
      ∀ i o' location, Registered (Function.update w.weakTable (env.sideTable o) table i) o' location ↔
        env.sideTable o' = i ∧ env.isTaggedPointer o' = false ∧ s'.vars location = some (some o') := by
  refine ⟨fun i => ?_, fun i o' location => ?_⟩
  · rw [Function.update_apply]
    split_ifs
    · exact hok
    · exact h.tables i
  · rw [Function.update_apply]
    split_ifs with hi
    · rw [hi]
      exact htable o' location
    · rw [h.registered]
      constructor
      · rintro ⟨rfl, htagged, hvar⟩
        exact ⟨rfl, htagged, (hother o' location hi).mpr hvar⟩
      · rintro ⟨rfl, htagged, hvar⟩
        exact ⟨rfl, htagged, (hother o' location hi).mp hvar⟩

omit [DecidableEq ο] in
theorem set_vars {v : Option (Option ο)} {l : ρ} :
    (s.set location v).vars l = if l = location then v else s.vars l := Function.update_apply _ _ _ _

/-- A variable whose registration is undone is no variable any more; its memory stays. -/
theorem Tracks.halts_unregister (h : Tracks env w s) (hvar : s.vars location = some value) :
    Halts (w.unregister env value location) fun w' => Tracks env w' (s.set location none) ∧
      w'.location = w.location ∧ w'.isDeallocating = w.isDeallocating ∧
      w'.weaklyReferenced = w.weaklyReferenced := by
  -- it is enough to give the tables
  have key : ∀ w' : WeakWorld ο ρ, w'.location = w.location → w'.isDeallocating = w.isDeallocating →
      w'.weaklyReferenced = w.weaklyReferenced → w'.weakErrors = 0 → (∀ i, TableOk env (w'.weakTable i)) →
      (∀ i o l, Registered (w'.weakTable i) o l ↔
        env.sideTable o = i ∧ env.isTaggedPointer o = false ∧ (s.set location none).vars l = some (some o)) →
      Tracks env w' (s.set location none) ∧ w'.location = w.location ∧ w'.isDeallocating = w.isDeallocating ∧
        w'.weaklyReferenced = w.weaklyReferenced := by
    intro w' hloc hdead hweak herr htables hreg
    refine ⟨⟨htables, hreg, fun l v hl => ?_, ?_, fun l o' hl => ?_, h.untagged, herr⟩, hloc, hdead, hweak⟩
    · rw [set_vars] at hl
      split_ifs at hl
      rw [hloc]
      exact h.memory l v hl
    · rw [hdead]
      exact h.deallocating
    · rw [set_vars] at hl
      split_ifs at hl
      rw [hweak]
      exact h.held l o' hl
  -- the variable held no object that has a table
  have hsame : (∀ o, value = some o → env.isTaggedPointer o = true) → ∀ i o l,
      Registered (w.weakTable i) o l ↔
        env.sideTable o = i ∧ env.isTaggedPointer o = false ∧
          (s.set location none).vars l = some (some o) := by
    intro hvalue i o l
    rw [h.registered, set_vars]
    split_ifs with hl
    · subst hl
      rw [hvar]
      refine ⟨fun ⟨_, htagged, heq⟩ => ?_, fun ⟨_, _, heq⟩ => (by cases heq)⟩
      rw [hvalue o (Option.some.inj heq)] at htagged
      cases htagged
    · rfl
  cases value with
  | none => exact halts_pure (key w rfl rfl rfl h.errors h.tables (hsame fun o ho => by cases ho))
  | some o =>
    cases htagged : env.isTaggedPointer o with
    | true =>
      have hnone : ∀ e, (w.weakTable (env.sideTable o)).Has e → e.referent ≠ o := by
        rintro e he rfl
        rw [(h.tables _).untagged e he] at htagged
        cases htagged
      refine halts_bind ((returns_weakUnregister_of_not (h.tables _) hnone).halts (halts_pure ?_))
      rw [Function.update_eq_self]
      refine key _ rfl rfl rfl h.errors h.tables (hsame fun o' ho' => ?_)
      rw [← Option.some.inj ho']
      exact htagged
    | false =>
      have hreg : Registered (w.weakTable (env.sideTable o)) o location :=
        (h.registered _ _ _).mpr ⟨rfl, htagged, hvar⟩
      refine halts_bind ((halts_weakUnregister (h.tables _) hreg).mono ?_)
      rintro ⟨table, error⟩ ⟨hok, rfl, htable⟩
      refine halts_pure ?_
      have hregs : ∀ o' l, Registered table o' l ↔ env.sideTable o' = env.sideTable o ∧
          env.isTaggedPointer o' = false ∧ (s.set location none).vars l = some (some o') := by
        intro o' l
        rw [htable, h.registered, set_vars]
        split_ifs with hl
        · subst hl
          rw [hvar]
          refine ⟨fun ⟨⟨_, _, heq⟩, hnot⟩ => ?_, fun ⟨_, _, heq⟩ => (by cases heq)⟩
          exact absurd ⟨(Option.some.inj (Option.some.inj heq)).symm, rfl⟩ hnot
        · exact ⟨fun hr => hr.1, fun hr => ⟨hr, fun hnot => hl hnot.2⟩⟩
      have hother : ∀ o' l, env.sideTable o' ≠ env.sideTable o →
          ((s.set location none).vars l = some (some o') ↔ s.vars l = some (some o')) := by
        intro o' l ho
        rw [set_vars]
        split_ifs with hl
        · subst hl
          rw [hvar]
          refine ⟨fun heq => (by cases heq), fun heq => ?_⟩
          exact absurd (congrArg env.sideTable (Option.some.inj (Option.some.inj heq)).symm) ho
        · rfl
      obtain ⟨htables, htables'⟩ := h.update_table hok hregs hother
      exact key _ rfl rfl rfl h.errors htables htables'

/-- An object that is not refused is registered for a new variable. -/
theorem Tracks.halts_register {options : DeallocatingOptions} (h : Tracks env w s)
    (hvar : s.vars location = none) (hknown : ∀ o ∈ value, s.Known env o)
    (hcrash : options = .crashIfDeallocating → ∀ o ∈ value, s.Usable env o) :
    Halts (w.register env value location options) fun p =>
      p.2 = (if options = .dontCheckDeallocating then value else s.stored env value) ∧
        ∃ tables, p.1 = { w with weakTable := tables } ∧ (∀ i, TableOk env (tables i)) ∧
          ∀ i o l, Registered (tables i) o l ↔ env.sideTable o = i ∧ env.isTaggedPointer o = false ∧
            (s.set location (some p.2)).vars l = some (some o) := by
  -- nil and what is refused or tagged is not in a table
  have hsame : ∀ v, (∀ o, v = some o → env.isTaggedPointer o = true) → ∀ i o l,
      Registered (w.weakTable i) o l ↔ env.sideTable o = i ∧ env.isTaggedPointer o = false ∧
        (s.set location (some v)).vars l = some (some o) := by
    intro v hv i o l
    rw [h.registered, set_vars]
    split_ifs with hl
    · subst hl
      rw [hvar]
      refine ⟨fun ⟨_, _, heq⟩ => (by cases heq), fun ⟨_, htagged, heq⟩ => ?_⟩
      rw [hv o (Option.some.inj heq)] at htagged
      cases htagged
    · rfl
  cases value with
  | none =>
    exact halts_pure ⟨by split_ifs <;> rfl, w.weakTable, rfl, h.tables, hsame none fun o ho => by cases ho⟩
  | some o =>
    cases htagged : env.isTaggedPointer o with
    | true =>
      have hvalue : (if options = .dontCheckDeallocating then some o else s.stored env (some o)) =
          some o := by
        simp [WeakSpec.stored, Option.filter, htagged]
      have hregister : Returns (weakRegister env (w.weakTable (env.sideTable o)) (some o) location options
          w.isDeallocating) (w.weakTable (env.sideTable o), some o) := by
        rw [weakRegister, if_pos htagged]
        exact returns_pure _
      refine halts_bind (hregister.halts (halts_pure ⟨hvalue.symm, w.weakTable, ?_, h.tables, ?_⟩))
      · rw [Function.update_eq_self]
      · exact hsame (some o) fun o' ho' => by rw [← Option.some.inj ho']; exact htagged
    | false =>
      have hlife : s.life o ≠ .free := by
        rcases hknown o rfl with htag | hlife
        · rw [htagged] at htag
          cases htag
        · exact hlife
      have hstored : s.stored env (some o) = if s.life o = .live then some o else none := by
        simp [WeakSpec.stored, Option.filter, htagged]
      rw [hstored]
      by_cases hrefused : options ≠ .dontCheckDeallocating ∧ w.isDeallocating o = true
      · -- a deallocating object is refused
        have hdead : s.life o = .deallocating := (h.deallocating o hlife).mp hrefused.2
        have hnotCrash : options ≠ .crashIfDeallocating := by
          intro heq
          rcases hcrash heq o rfl with htag | hlive
          · rw [htagged] at htag
            cases htag
          · rw [hdead] at hlive
            cases hlive
        have hregister : Returns (weakRegister env (w.weakTable (env.sideTable o)) (some o) location options
            w.isDeallocating) (w.weakTable (env.sideTable o), none) := by
          simp only [weakRegister, htagged, Bool.false_eq_true, if_false]
          rw [if_pos hrefused, if_neg hnotCrash]
          exact returns_pure _
        refine halts_bind (hregister.halts (halts_pure ⟨?_, w.weakTable, ?_, h.tables, ?_⟩))
        · rw [if_neg hrefused.1, hdead]
          rfl
        · rw [Function.update_eq_self]
        · exact hsame none fun o' ho' => (by cases ho')
      · have hfree : ¬ Registered (w.weakTable (env.sideTable o)) o location := by
          rw [h.registered, hvar]
          exact fun hr => (by cases hr.2.2)
        have hallowed : options ≠ .dontCheckDeallocating → w.isDeallocating o = false := by
          intro hcheck
          by_contra hdead
          exact hrefused ⟨hcheck, by simpa using hdead⟩
        have hlive : options ≠ .dontCheckDeallocating → s.life o = .live := by
          intro hcheck
          have hnot : s.life o ≠ .deallocating := fun hdead => by
            rw [← h.deallocating o hlife, hallowed hcheck] at hdead
            cases hdead
          cases hl : s.life o with
          | free => exact absurd hl hlife
          | live => rfl
          | deallocating => exact absurd hl hnot
        refine halts_bind ((halts_weakRegister (h.tables _) htagged hallowed hfree).mono ?_)
        rintro ⟨table, _⟩ ⟨hok, rfl, htable⟩
        have hregs : ∀ o' l, Registered table o' l ↔ env.sideTable o' = env.sideTable o ∧
            env.isTaggedPointer o' = false ∧ (s.set location (some (some o))).vars l = some (some o') := by
          intro o' l
          rw [htable, h.registered, set_vars]
          split_ifs with hl
          · subst hl
            rw [hvar]
            constructor
            · rintro (⟨rfl, -⟩ | ⟨-, -, heq⟩)
              · exact ⟨rfl, htagged, rfl⟩
              · cases heq
            · rintro ⟨-, -, heq⟩
              exact Or.inl ⟨(Option.some.inj (Option.some.inj heq)).symm, rfl⟩
          · constructor
            · rintro (⟨-, hll⟩ | hr)
              · exact absurd hll hl
              · exact hr
            · exact Or.inr
        have hother : ∀ o' l, env.sideTable o' ≠ env.sideTable o →
            ((s.set location (some (some o))).vars l = some (some o') ↔ s.vars l = some (some o')) := by
          intro o' l ho
          rw [set_vars]
          split_ifs with hl
          · subst hl
            rw [hvar]
            refine ⟨fun heq => ?_, fun heq => (by cases heq)⟩
            exact absurd (congrArg env.sideTable (Option.some.inj (Option.some.inj heq)).symm) ho
          · rfl
        obtain ⟨htables, htables'⟩ := h.update_table hok hregs hother
        refine halts_pure ⟨?_, _, rfl, htables, htables'⟩
        split_ifs with hcheck hl
        · rfl
        · rfl
        · exact absurd (hlive hcheck) hl

omit [DecidableEq ο] in
theorem set_set {v v' : Option (Option ο)} : (s.set location v).set location v' = s.set location v' := by
  simp only [WeakSpec.set, Function.update_idem]

omit [DecidableEq ο] in
/-- A variable that is registered for what it gets. -/
theorem Tracks.assigned {tables : ℕ → WeakTable ο ρ} {referenced : ο → Bool} (h : Tracks env w s)
    (htables : ∀ i, TableOk env (tables i))
    (hregs : ∀ i o l, Registered (tables i) o l ↔ env.sideTable o = i ∧ env.isTaggedPointer o = false ∧
      (s.set location (some value)).vars l = some (some o))
    (hvalue : ∀ o, value = some o → env.isTaggedPointer o = false → s.life o ≠ .free ∧ referenced o = true)
    (hreferenced : ∀ o, w.weaklyReferenced o = true → referenced o = true) :
    Tracks env
      { w with
        weakTable := tables
        location := Function.update w.location location value
        weaklyReferenced := referenced } (s.set location (some value)) := by
  refine ⟨htables, hregs, fun l v hl => ?_, h.deallocating, fun l o hl htagged => ?_, h.untagged, h.errors⟩
  · show Function.update w.location location value l = v
    rw [set_vars] at hl
    rw [Function.update_apply]
    split_ifs at hl ⊢
    · exact Option.some.inj hl
    · exact h.memory l v hl
  · rw [set_vars] at hl
    split_ifs at hl
    · exact hvalue o (Option.some.inj hl) htagged
    · obtain ⟨hlife, href⟩ := h.held l o hl htagged
      exact ⟨hlife, hreferenced o href⟩

/-- The second part of `storeWeak`, for a location that is no variable. -/
theorem Tracks.halts_storeNew {options : DeallocatingOptions} (h : Tracks env w s)
    (hvar : s.vars location = none) (hcheck : options ≠ .dontCheckDeallocating)
    (hknown : ∀ o ∈ value, s.Known env o)
    (hcrash : options = .crashIfDeallocating → ∀ o ∈ value, s.Usable env o) :
    Halts (do
      let (w, newObj) ← w.register env value location options
      pure ((w.setWeaklyReferenced env newObj).write location newObj, newObj)) fun p =>
        Tracks env p.1 (s.set location (some (s.stored env value))) ∧ p.2 = s.stored env value := by
  refine halts_bind ((h.halts_register hvar hknown hcrash).mono ?_)
  rintro ⟨_, newObj⟩ ⟨hnew, tables, rfl, htables, hregs⟩
  rw [if_neg hcheck] at hnew
  change newObj = s.stored env value at hnew
  refine halts_pure ⟨?_, hnew⟩
  rw [← hnew]
  have hlife : ∀ o, newObj = some o → env.isTaggedPointer o = false → s.life o ≠ .free := by
    intro o ho htagged
    rw [hnew, WeakSpec.stored] at ho
    obtain ⟨hmem, hlive⟩ := Option.filter_eq_some_iff.mp ho
    rcases hknown o hmem with htag | hlife
    · rw [htagged] at htag
      cases htag
    · exact hlife
  cases newObj with
  | none => exact h.assigned htables hregs (fun o ho => by cases ho) fun _ href => href
  | some o =>
    rw [WeakWorld.setWeaklyReferenced]
    split_ifs with htag
    · refine h.assigned htables hregs (fun o' ho' htagged => ?_) fun _ href => href
      rw [← Option.some.inj ho', htag] at htagged
      cases htagged
    · refine h.assigned htables hregs (fun o' ho' htagged => ⟨hlife o' ho' htagged, ?_⟩) fun o' href => ?_
      · rw [← Option.some.inj ho']
        exact Function.update_self _ _ _
      · show Function.update w.weaklyReferenced o true o' = true
        rw [Function.update_apply, href, ite_self]

/-- **Storing.**  An assignment to a variable, or the initialization of one. -/
theorem Tracks.halts_storeWeakCore {crash : Bool} {haveOld : Bool} (h : Tracks env w s)
    (hold : haveOld = (s.vars location).isSome) (hknown : ∀ o ∈ value, s.Known env o)
    (hcrash : crash = true → ∀ o ∈ value, s.Usable env o) :
    Halts (w.storeWeakCore env haveOld true crash location value) fun p =>
      Tracks env p.1 (s.set location (some (s.stored env value))) ∧ p.2 = s.stored env value := by
  have hcheck : (if crash then .crashIfDeallocating else .returnNilIfDeallocating : DeallocatingOptions) ≠
      .dontCheckDeallocating := by cases crash <;> decide
  have hcrash' : (if crash then .crashIfDeallocating else .returnNilIfDeallocating : DeallocatingOptions) =
      .crashIfDeallocating → ∀ o ∈ value, s.Usable env o := by
    cases crash with
    | false => exact fun heq => by cases heq
    | true => exact fun _ => hcrash rfl
  rw [storeWeakCore]
  cases hvar : s.vars location with
  | none =>
    rw [hvar] at hold
    subst hold
    exact halts_bind (halts_pure (h.halts_storeNew hvar hcheck hknown hcrash'))
  | some old =>
    rw [hvar] at hold
    subst hold
    rw [h.memory location old hvar]
    refine halts_bind ((h.halts_unregister hvar).mono ?_)
    rintro w' ⟨h', -⟩
    have hvar' : (s.set location none).vars location = none := Function.update_self _ _ _
    refine (h'.halts_storeNew hvar' hcheck hknown hcrash').mono ?_
    rintro p ⟨hp, hanswer⟩
    rw [set_set] at hp
    exact ⟨hp, hanswer⟩

omit [DecidableEq ο] in
/-- Nothing but nil is written to a new variable that is nil. -/
theorem Tracks.write_none (h : Tracks env w s) (hvar : s.vars location = none) :
    Tracks env (w.write location none) (s.set location (some none)) := by
  refine h.assigned h.tables (fun i o l => ?_) (fun o ho => by cases ho) fun _ href => href
  rw [h.registered, set_vars]
  split_ifs with hl
  · subst hl
    rw [hvar]
    simp
  · rfl

theorem Tracks.halts_initWeak (h : Tracks env w s) (hvar : s.vars location = none)
    (husable : ∀ o ∈ value, s.Usable env o) (hknown : ∀ o ∈ value, s.Known env o) :
    Halts (w.initWeak env location value) fun p =>
      Tracks env p.1 (s.set location (some (s.stored env value))) ∧ p.2 = s.stored env value := by
  cases value with
  | none => exact halts_pure ⟨h.write_none hvar, rfl⟩
  | some o => exact h.halts_storeWeakCore (by rw [hvar]) hknown fun _ => husable

theorem Tracks.halts_initWeakOrNil (h : Tracks env w s) (hvar : s.vars location = none)
    (hknown : ∀ o ∈ value, s.Known env o) :
    Halts (w.initWeakOrNil env location value) fun p =>
      Tracks env p.1 (s.set location (some (s.stored env value))) ∧ p.2 = s.stored env value := by
  cases value with
  | none => exact halts_pure ⟨h.write_none hvar, rfl⟩
  | some o =>
    have hcrash : false = true → ∀ o' ∈ some o, s.Usable env o' := fun heq => by cases heq
    exact h.halts_storeWeakCore (by rw [hvar]) hknown hcrash

theorem Tracks.halts_destroyWeak (h : Tracks env w s) (hvar : (s.vars location).isSome = true) :
    Halts (w.destroyWeak env location) fun p => Tracks env p.1 (s.set location none) ∧ p.2 = none := by
  obtain ⟨old, hold⟩ := Option.isSome_iff_exists.mp hvar
  rw [destroyWeak, storeWeakCore, h.memory location old hold]
  refine halts_bind ((h.halts_unregister hold).mono ?_)
  rintro w' ⟨h', -⟩
  exact halts_pure ⟨h', rfl⟩

omit [DecidableEq ο] [DecidableEq ρ] in
/-- What is loaded is not gone. -/
theorem Tracks.loadWeakRetained_eq (h : Tracks env w s) (hvar : s.vars location = some value) :
    w.loadWeakRetained env location = s.stored env value := by
  rw [loadWeakRetained, h.memory location value hvar]
  cases value with
  | none => rfl
  | some o =>
    simp only [WeakSpec.stored, Option.filter]
    by_cases htagged : env.isTaggedPointer o = true
    · simp [htagged]
    · obtain ⟨hlife, -⟩ := h.held location o hvar (Bool.eq_false_of_not_eq_true htagged)
      have hdead := h.deallocating o hlife
      have hlive : s.life o = .live ↔ ¬ s.life o = .deallocating := by
        generalize s.life o = life at hlife
        cases life with
        | free => exact absurd rfl hlife
        | live => decide
        | deallocating => decide
      simp only [htagged, hdead, Bool.false_or, beq_iff_eq, hlive]
      by_cases hl : s.life o = .deallocating <;> simp [hl]

/-- **Moving.**  The source is nil, and the destination what the source was,
even if the object is deallocating. -/
theorem Tracks.halts_moveWeak (h : Tracks env w s) (hdst : s.vars dst = none)
    (hsrc : s.vars src = some value) :
    Halts (w.moveWeak env dst src) fun w' =>
      Tracks env w' ((s.set dst (some value)).set src (some none)) := by
  have hne : src ≠ dst := by
    rintro rfl
    rw [hdst] at hsrc
    cases hsrc
  rw [moveWeak, h.memory src value hsrc]
  cases value with
  | none =>
    have hset : (s.set dst (some none)).set src (some none) = s.set dst (some none) := by
      have hself : (s.set dst (some none)).vars src = some none := by rw [set_vars, if_neg hne, hsrc]
      have hvars := Function.update_eq_self src (s.set dst (some none)).vars
      rw [hself] at hvars
      rw [WeakSpec.set, hvars]
    rw [hset]
    exact halts_pure (h.write_none hdst)
  | some o =>
    refine halts_bind ((h.halts_unregister hsrc).mono ?_)
    rintro w₁ ⟨h₁, -, -, href₁⟩
    have hdst₁ : (s.set src none).vars dst = none := by rw [set_vars, if_neg hne.symm, hdst]
    have hknown : ∀ o' ∈ some o, s.Known env o' := by
      intro o' ho'
      obtain rfl := Option.some.inj ho'
      by_cases htagged : env.isTaggedPointer o = true
      · exact Or.inl htagged
      · exact Or.inr (h.held src o hsrc (Bool.eq_false_of_not_eq_true htagged)).1
    have hcrash : DeallocatingOptions.dontCheckDeallocating = .crashIfDeallocating →
        ∀ o' ∈ some o, (s.set src none).Usable env o' := fun heq => by cases heq
    refine halts_bind ((h₁.halts_register hdst₁ hknown hcrash).mono ?_)
    rintro ⟨_, answer⟩ ⟨hanswer, tables, rfl, htables, hregs⟩
    obtain rfl : answer = some o := hanswer
    have hvalue : ∀ o', some o = some o' → env.isTaggedPointer o' = false →
        (s.set src none).life o' ≠ .free ∧ w₁.weaklyReferenced o' = true := by
      intro o' ho' htagged
      rw [href₁, ← Option.some.inj ho']
      exact h.held src o hsrc (Option.some.inj ho' ▸ htagged)
    have h₂ := h₁.assigned htables hregs hvalue fun _ href => href
    have hsrc₂ : ((s.set src none).set dst (some (some o))).vars src = none := by
      rw [set_vars, if_neg hne, set_vars, if_pos rfl]
    have h₃ := h₂.write_none hsrc₂
    have hset : ((s.set src none).set dst (some (some o))).set src (some none) =
        (s.set dst (some (some o))).set src (some none) := by
      simp only [WeakSpec.set]
      rw [Function.update_comm hne, Function.update_idem]
    rw [hset] at h₃
    exact halts_pure h₃

/-- **The end of an object.**  Every variable that held it is nil then. -/
theorem Tracks.halts_clearDeallocating (h : Tracks env w s) (hlife : s.life o = .deallocating) :
    Halts (w.clearDeallocating env o) fun w' => Tracks env w' (s.step env (.dealloc o)).1 := by
  have htagged : env.isTaggedPointer o = false := h.untagged o (by rw [hlife]; decide)
  have hvars : ∀ l v, (s.step env (.dealloc o)).1.vars l = some v →
      (s.vars l = some (some o) ∧ v = none) ∨ (s.vars l ≠ some (some o) ∧ s.vars l = some v) := by
    intro l v hl
    change (if s.vars l = some (some o) then some none else s.vars l) = some v at hl
    split_ifs at hl with hheld
    · exact Or.inl ⟨hheld, (Option.some.inj hl).symm⟩
    · exact Or.inr ⟨hheld, hl⟩
  have hiff : ∀ l o', (s.step env (.dealloc o)).1.vars l = some (some o') ↔
      o' ≠ o ∧ s.vars l = some (some o') := by
    intro l o'
    constructor
    · intro hl
      rcases hvars l _ hl with ⟨-, hv⟩ | ⟨hne, hv⟩
      · cases hv
      · exact ⟨fun heq => hne (heq ▸ hv), hv⟩
    · rintro ⟨hne, hl⟩
      show (if s.vars l = some (some o) then some none else s.vars l) = _
      rw [if_neg, hl]
      rw [hl]
      exact fun heq => hne (Option.some.inj (Option.some.inj heq))
  have hfree : ∀ o', (s.step env (.dealloc o)).1.life o' = if o' = o then .free else s.life o' :=
    fun o' => Function.update_apply _ _ _ _
  -- it is enough to give the tables and the memory
  have key : ∀ w' : WeakWorld ο ρ, w'.isDeallocating = w.isDeallocating →
      w'.weaklyReferenced = w.weaklyReferenced → w'.weakErrors = 0 → (∀ i, TableOk env (w'.weakTable i)) →
      (∀ i o' l, Registered (w'.weakTable i) o' l ↔ Registered (w.weakTable i) o' l ∧ o' ≠ o) →
      (∀ l, (s.vars l = some (some o) → w'.location l = none) ∧
        (s.vars l ≠ some (some o) → w'.location l = w.location l)) →
      Tracks env w' (s.step env (.dealloc o)).1 := by
    intro w' hdead hweak herr htables hreg hloc
    refine ⟨htables, fun i o' l => ?_, fun l v hl => ?_, fun o' ho' => ?_, fun l o' hl htag => ?_,
      fun o' ho' => ?_, herr⟩
    · rw [hreg, h.registered, hiff]
      tauto
    · rcases hvars l v hl with ⟨hheld, rfl⟩ | ⟨hne, hv⟩
      · exact (hloc l).1 hheld
      · rw [(hloc l).2 hne]
        exact h.memory l v hv
    · rw [hfree] at ho' ⊢
      rw [hdead]
      split_ifs at ho' ⊢
      · exact absurd rfl ho'
      · exact h.deallocating o' ho'
    · obtain ⟨hne, hv⟩ := (hiff l o').mp hl
      obtain ⟨hlife', href⟩ := h.held l o' hv htag
      rw [hfree, if_neg hne, hweak]
      exact ⟨hlife', href⟩
    · rw [hfree] at ho'
      split_ifs at ho'
      · exact absurd rfl ho'
      · exact h.untagged o' ho'
  rw [clearDeallocating]
  split_ifs with href
  · have hreg : ∀ l, Registered (w.weakTable (env.sideTable o)) o l ↔ s.vars l = some (some o) := by
      intro l
      rw [h.registered]
      exact ⟨fun hr => hr.2.2, fun hr => ⟨rfl, htagged, hr⟩⟩
    refine halts_bind ((halts_weakClear (h.tables _) fun l hl => h.memory l _ ((hreg l).mp hl)).mono ?_)
    rintro ⟨table, location, errors⟩ ⟨hok, rfl, htable, hloc⟩
    refine halts_pure (key _ rfl rfl h.errors (fun i => ?_) (fun i o' l => ?_) fun l => ?_)
    · show TableOk env (Function.update w.weakTable (env.sideTable o) table i)
      rw [Function.update_apply]
      split_ifs
      · exact hok
      · exact h.tables i
    · show Registered (Function.update w.weakTable (env.sideTable o) table i) o' l ↔ _
      rw [Function.update_apply]
      split_ifs with hi
      · rw [hi]
        exact htable o' l
      · refine ⟨fun hr => ⟨hr, ?_⟩, fun hr => hr.1⟩
        rintro rfl
        exact hi ((h.registered i o' l).mp hr).1.symm
    · have hl := hloc l
      rw [hreg] at hl
      exact hl
  · have hno : ∀ l, s.vars l ≠ some (some o) := fun l hl => href (h.held l o hl htagged).2
    refine halts_pure (key w rfl rfl h.errors h.tables (fun i o' l => ⟨fun hr => ⟨hr, ?_⟩, fun hr => hr.1⟩)
      fun l => ⟨fun hl => absurd hl (hno l), fun _ => rfl⟩)
    rintro rfl
    exact hno l ((h.registered i o' l).mp hr).2.2

omit [DecidableEq ρ] in
theorem Tracks.alloc (h : Tracks env w s) (htagged : env.isTaggedPointer o = false)
    (hlife : s.life o = .free) :
    Tracks env
      { w with
        isDeallocating := Function.update w.isDeallocating o false
        weaklyReferenced := Function.update w.weaklyReferenced o false }
      { s with life := Function.update s.life o .live } := by
  refine ⟨h.tables, h.registered, h.memory, fun o' ho' => ?_, fun l o' hl htag => ?_,
    fun o' ho' => ?_, h.errors⟩
  · show Function.update w.isDeallocating o false o' = true ↔
      Function.update s.life o .live o' = .deallocating
    by_cases hoo : o' = o
    · simp [hoo]
    · change Function.update s.life o .live o' ≠ .free at ho'
      rw [Function.update_of_ne hoo] at ho'
      rw [Function.update_of_ne hoo, Function.update_of_ne hoo]
      exact h.deallocating o' ho'
  · obtain ⟨hlife', href⟩ := h.held l o' hl htag
    have hoo : o' ≠ o := by
      rintro rfl
      exact hlife' hlife
    refine ⟨?_, ?_⟩
    · exact (Function.update_of_ne hoo _ _).trans_ne hlife'
    · exact (Function.update_of_ne hoo _ _).trans href
  · by_cases hoo : o' = o
    · rw [hoo]
      exact htagged
    · change Function.update s.life o .live o' ≠ .free at ho'
      rw [Function.update_of_ne hoo] at ho'
      exact h.untagged o' ho'

omit [DecidableEq ρ] in
theorem Tracks.beginDealloc (h : Tracks env w s) (hlife : s.life o = .live) :
    Tracks env { w with isDeallocating := Function.update w.isDeallocating o true }
      { s with life := Function.update s.life o .deallocating } := by
  have hnotFree : ∀ o', Function.update s.life o .deallocating o' ≠ .free ↔ s.life o' ≠ .free := by
    intro o'
    rw [Function.update_apply]
    split_ifs with hoo
    · rw [hoo, hlife]
      decide
    · rfl
  refine ⟨h.tables, h.registered, h.memory, fun o' ho' => ?_, fun l o' hl htag => ?_,
    fun o' ho' => ?_, h.errors⟩
  · show Function.update w.isDeallocating o true o' = true ↔
      Function.update s.life o .deallocating o' = .deallocating
    by_cases hoo : o' = o
    · simp [hoo]
    · rw [Function.update_of_ne hoo, Function.update_of_ne hoo]
      exact h.deallocating o' ((hnotFree o').mp ho')
  · obtain ⟨hlife', href⟩ := h.held l o' hl htag
    exact ⟨(hnotFree o').mpr hlife', href⟩
  · exact h.untagged o' ((hnotFree o').mp ho')

end Refinement

/-! ## Runs -/

section Runs

variable {env w} {s : WeakSpec ο ρ} {location : ρ} {o : ο} {act : WeakAction ο ρ} {answer : Option ο}

omit [DecidableEq ο] [DecidableEq ρ] in
theorem known_of_usable {value : Option ο} (h : ∀ o ∈ value, s.Usable env o) : ∀ o ∈ value, s.Known env o :=
  fun o ho => (h o ho).imp_right fun hlive => by rw [hlive]; decide

/-- One action of the runtime is one action of the model. -/
theorem Tracks.halts_step (h : Tracks env w s) (hvalid : s.Valid env act) :
    Halts (w.step env act) fun p => Tracks env p.1 (s.step env act).1 ∧ p.2 = (s.step env act).2 := by
  cases act with
  | alloc o => exact halts_pure ⟨h.alloc hvalid.1 hvalid.2, rfl⟩
  | beginDealloc o => exact halts_pure ⟨h.beginDealloc hvalid, rfl⟩
  | dealloc o => exact halts_bind ((h.halts_clearDeallocating hvalid).mono fun _ h' => halts_pure ⟨h', rfl⟩)
  | initWeak location value => exact h.halts_initWeak hvalid.1 hvalid.2 (known_of_usable hvalid.2)
  | initWeakOrNil location value => exact h.halts_initWeakOrNil hvalid.1 hvalid.2
  | storeWeak location value =>
    exact h.halts_storeWeakCore hvalid.1.symm (known_of_usable hvalid.2) fun _ => hvalid.2
  | storeWeakOrNil location value =>
    have hcrash : false = true → ∀ o ∈ value, s.Usable env o := fun heq => by cases heq
    exact h.halts_storeWeakCore hvalid.1.symm hvalid.2 hcrash
  | destroyWeak location => exact h.halts_destroyWeak hvalid
  | loadWeak location =>
    obtain ⟨value, hvar⟩ := Option.isSome_iff_exists.mp hvalid
    refine halts_pure ⟨h, ?_⟩
    show w.loadWeakRetained env location = s.stored env (s.vars location).join
    rw [h.loadWeakRetained_eq hvar, hvar, Option.join_some]
  | copyWeak dst src =>
    obtain ⟨value, hvar⟩ := Option.isSome_iff_exists.mp hvalid.2
    have husable : ∀ o ∈ s.stored env value, s.Usable env o := by
      intro o ho
      obtain ⟨-, hlive⟩ := Option.filter_eq_some_iff.mp ho
      simpa [WeakSpec.Usable] using hlive
    have htwice : s.stored env (s.stored env value) = s.stored env value := by
      rw [WeakSpec.stored, WeakSpec.stored, Option.filter_filter]
      simp
    rw [step, copyWeak, h.loadWeakRetained_eq hvar]
    refine halts_bind (halts_bind ((h.halts_initWeak hvalid.1 husable (known_of_usable husable)).mono ?_))
    rintro p ⟨hp, -⟩
    rw [htwice] at hp
    refine halts_pure (halts_pure ⟨?_, rfl⟩)
    rw [WeakSpec.step, hvar, Option.join_some]
    exact hp
  | moveWeak dst src =>
    obtain ⟨value, hvar⟩ := Option.isSome_iff_exists.mp hvalid.2
    refine halts_bind ((h.halts_moveWeak hvalid.1 hvar).mono fun w' h' => halts_pure ⟨?_, rfl⟩)
    rw [WeakSpec.step, hvar, Option.join_some]
    exact h'
  | write location value =>
    refine halts_pure ⟨⟨h.tables, h.registered, fun l v hl => ?_, h.deallocating, h.held, h.untagged,
      h.errors⟩, rfl⟩
    have hll : l ≠ location := by
      rintro rfl
      have hnone : s.vars l = none := hvalid
      exact absurd (hnone.symm.trans hl) (by simp)
    exact (Function.update_of_ne hll _ _).trans (h.memory l v hl)

/-- No object, no variable and empty side tables; the memory is arbitrary. -/
def initial (memory : ρ → Option ο) : WeakWorld ο ρ where
  weakTable := fun _ => ⟨[], 0, 0, 0⟩
  location := memory
  isDeallocating := fun _ => false
  weaklyReferenced := fun _ => false
  weakErrors := 0

/-- The states of the runtime and of the model after actions that callers see to be valid, in any order. -/
inductive Reachable (env : Addresses ο ρ) (memory : ρ → Option ο) : WeakWorld ο ρ → WeakSpec ο ρ → Prop
  | initial : Reachable env memory (initial memory) ⟨fun _ => none, fun _ => .free⟩
  | call {w w' : WeakWorld ο ρ} {s : WeakSpec ο ρ} {act : WeakAction ο ρ} {answer : Option ο}
      (h : Reachable env memory w s) (hvalid : s.Valid env act)
        (hreturns : Returns (w.step env act) (w', answer)) :
      Reachable env memory w' (s.step env act).1

omit [DecidableEq ο] [DecidableEq ρ] in
theorem tracks_initial (memory : ρ → Option ο) :
    Tracks env (initial memory) (⟨fun _ => none, fun _ => .free⟩ : WeakSpec ο ρ) where
  tables _ := tableOk_empty
  registered i o l := ⟨fun hr => absurd hr not_registered_empty, fun hr => by cases hr.2.2⟩
  memory l v hl := by cases hl
  deallocating o ho := absurd rfl ho
  held l o hl := by cases hl
  untagged o ho := absurd rfl ho
  errors := rfl

theorem Reachable.tracks {memory : ρ → Option ο} (h : Reachable env memory w s) : Tracks env w s := by
  induction h with
  | initial => exact tracks_initial memory
  | call _ hvalid hreturns ih =>
    obtain ⟨p, hp, htracks, -⟩ := ih.halts_step hvalid
    obtain rfl := hp.unique hreturns
    exact htracks

/-- A valid action can be made. -/
theorem Reachable.exists_call {memory : ρ → Option ο} (h : Reachable env memory w s) (act : WeakAction ο ρ)
    (hvalid : s.Valid env act) : ∃ w', Reachable env memory w' (s.step env act).1 := by
  obtain ⟨p, hp, -⟩ := h.tracks.halts_step hvalid
  exact ⟨p.1, h.call hvalid hp⟩

/-- **Weak variables.**  In every run, the next action returns what the model returns, and neither
`bad_weak_table` nor `objc_weak_error` is ever called. -/
theorem halts_action_of_reachable {memory : ρ → Option ο} (h : Reachable env memory w s)
    (hvalid : s.Valid env act) :
    Halts (w.step env act) fun p => p.2 = (s.step env act).2 ∧ p.1.weakErrors = 0 :=
  (h.tracks.halts_step hvalid).mono fun _ hp => ⟨hp.2, hp.1.errors⟩

/-- **No dangling references.**  In every run, a weak variable is in memory what it is in the model, nil
from the moment its object has gone, and never an object that is not there. -/
theorem location_of_reachable {memory : ρ → Option ο} {value : Option ο} (h : Reachable env memory w s)
    (hvar : s.vars location = some value) : w.location location = value ∧ ∀ o ∈ value, s.Known env o := by
  refine ⟨h.tracks.memory location value hvar, fun o ho => ?_⟩
  obtain rfl : value = some o := ho
  by_cases htagged : env.isTaggedPointer o = true
  · exact Or.inl htagged
  · exact Or.inr (h.tracks.held location o hvar (Bool.eq_false_of_not_eq_true htagged)).1

/-- **Sizes.**  In every run, a side table has no slots yet, or a power of two of them, at most three
quarters taken, and from 1024 on more than a sixteenth. -/
theorem tableSize_of_reachable {memory : ρ → Option ο} (h : Reachable env memory w s) (i : ℕ) :
    (w.weakTable i).slots = [] ∨ ∃ k, 6 ≤ k ∧ (w.weakTable i).slots.length = 2 ^ k ∧
      (w.weakTable i).slots.countP Option.isSome ≤ 2 ^ k * 3 / 4 ∧
      (10 ≤ k → 2 ^ k / 16 < (w.weakTable i).slots.countP Option.isSome) := by
  rcases (h.tracks.tables i).sized with hempty | hsized
  · exact Or.inl (by rw [hempty])
  · obtain ⟨k, -, hk⟩ := hsized.table.size
    have hleast := hsized.least
    have hroom := hsized.table.room
    have hdense := hsized.dense
    rw [hk] at hleast hroom hdense
    refine Or.inr ⟨k, ?_, by rw [hsized.table.length, hk], ?_, fun hk10 => ?_⟩
    · by_contra hlt
      have : 2 ^ k ≤ 2 ^ 5 := Nat.pow_le_pow_right (by omega) (by omega)
      omega
    · rw [hsized.table.count]
      exact hroom
    · rw [hsized.table.count]
      exact hdense (Nat.pow_le_pow_right (show 0 < 2 by omega) hk10)

/-! ### One object with all hashes equal -/

/-- Addresses that all collide. -/
def collidingAddresses : Addresses ℕ ℕ := ⟨fun _ => 0, fun _ => 0, fun _ => 0, fun _ => false⟩

/-- The model after an object has got a weak variable. -/
def oneVariable : WeakSpec ℕ ℕ :=
  (((⟨fun _ => none, fun _ => .free⟩ : WeakSpec ℕ ℕ).step collidingAddresses (.alloc 1)).1.step
    collidingAddresses
    (.initWeak 10 (some 1))).1

theorem exists_oneVariable : ∃ w, Reachable collidingAddresses (fun _ => some 9) w oneVariable := by
  have h₀ : Reachable collidingAddresses (fun _ : ℕ => some 9) _ _ := .initial
  obtain ⟨w, h⟩ := h₀.exists_call (.alloc 1) ⟨rfl, rfl⟩
  exact h.exists_call (.initWeak 10 (some 1)) ⟨rfl, fun o ho => Or.inr (by cases ho; decide)⟩

theorem halts_action_of_reachable_store : ∃ w, Reachable collidingAddresses (fun _ => some 9) w oneVariable ∧
    Halts (WeakWorld.step collidingAddresses w (.storeWeak 10 (some 1))) fun p => p.2 = some 1 ∧
      p.1.weakErrors = 0 := by
  obtain ⟨w, h⟩ := exists_oneVariable
  refine ⟨w, h, halts_action_of_reachable h ⟨rfl, fun o ho => Or.inr ?_⟩⟩
  cases ho
  decide

theorem location_of_reachable_dealloc : ∃ w s, Reachable collidingAddresses (fun _ => some 9) w s ∧
    s.life 1 = .free ∧ w.location 10 = none := by
  obtain ⟨w, h⟩ := exists_oneVariable
  obtain ⟨w', h'⟩ := h.exists_call (.beginDealloc 1) (by rw [WeakSpec.Valid]; decide)
  obtain ⟨w'', h''⟩ := h'.exists_call (.dealloc 1) (by rw [WeakSpec.Valid]; decide)
  have hnil : w''.location 10 = none ∧ _ := location_of_reachable h'' (by decide)
  exact ⟨w'', _, h'', by decide, hnil.1⟩

theorem tableSize_of_reachable_one : ∃ w, Reachable collidingAddresses (fun _ => some 9) w oneVariable ∧
    ((w.weakTable 0).slots = [] ∨ ∃ k, 6 ≤ k ∧ (w.weakTable 0).slots.length = 2 ^ k ∧
      (w.weakTable 0).slots.countP Option.isSome ≤ 2 ^ k * 3 / 4 ∧
      (10 ≤ k → 2 ^ k / 16 < (w.weakTable 0).slots.countP Option.isSome)) := by
  obtain ⟨w, h⟩ := exists_oneVariable
  exact ⟨w, h, tableSize_of_reachable h 0⟩

end Runs

end WeakWorld

end QYInterview.ObjC
