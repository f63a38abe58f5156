import QYInterview.ObjC.KVOInv

/-!
# ObjC.KVOSpec — setter messages and runs of the category

A setter message to an observed object goes through `kvo_setter` to the program's own setter and tells the
registrations of its key, provided that `valueForKey:` answers; to any other object it goes to the program's
setter directly.  A setter may send setter messages itself: `Finishes` says that it comes to an end in the
program without observers, and then it does so with them (`exists_bodyReturns`).  Over a run of actions the
registrations are those of a plain registry (`KVO.run_spec`).
-/

namespace QYInterview.ObjC.KVO

open RunLogic Dispatch Registry

variable {Obj Val Store U B : Type}

/-! ## Setters that come to an end -/

/-- Where a setter of the program comes to by itself, with the classes of `w₀`: to a store,
or to an exception. -/
inductive Finishes (P : Program Obj Val Store U) (w₀ : World Obj Store U B) :
    Body Obj Val Store → Option Store → Prop
  | done (st : Store) : Finishes P w₀ (.done st) (some st)
  | unrecognized {st : Store} {o : Obj} {s : NSString} {v : Val} {rest : Store → Body Obj Val Store}
      (h : w₀.runtime.lookupImp (w₀.isa o) s = none) : Finishes P w₀ (.send st o s v rest) none
  | ignored {st : Store} {o : Obj} {s : NSString} {v : Val} {rest : Store → Body Obj Val Store}
      {r : Option Store}
      (h : w₀.runtime.lookupImp (w₀.isa o) s = some .objectClass) (hrest : Finishes P w₀ (rest st) r) :
      Finishes P w₀ (.send st o s v rest) r
  | sent {st st' : Store} {o : Obj} {s : NSString} {v : Val} {rest : Store → Body Obj Val Store}
      {r : Option Store} {u : U} (h : w₀.runtime.lookupImp (w₀.isa o) s = some (.user u))
      (hbody : Finishes P w₀ (P.setter u o v st) (some st')) (hrest : Finishes P w₀ (rest st') r) :
      Finishes P w₀ (.send st o s v rest) r
  | failed {st : Store} {o : Obj} {s : NSString} {v : Val} {rest : Store → Body Obj Val Store} {u : U}
      (h : w₀.runtime.lookupImp (w₀.isa o) s = some (.user u))
      (hbody : Finishes P w₀ (P.setter u o v st) none) : Finishes P w₀ (.send st o s v rest) none

/-- All setters of the program come to an end. -/
def Terminating (P : Program Obj Val Store U) (w₀ : World Obj Store U B) : Prop :=
  ∀ u o v st, ∃ r, Finishes P w₀ (P.setter u o v st) r

/-- The program's setter of an object, without what is around it. -/
def runSetter (C : CaseMap) (P : Program Obj Val Store U) (w : World Obj Store U B) (u : U) (o : Obj)
    (v : Val) :
    Prog (World Obj Store U B × Outcome Obj Val U B) :=
  runBody (msgSend C P) w (P.setter u o v w.store)

/-- A setter has run and, unless it ended with an exception, the blocks have been dispatched after it. -/
def Outcome.around (out : Outcome Obj Val U B) (run : SetterRun Obj Val U)
    (blocks : List (Dispatched Obj Val B)) :
    Outcome Obj Val U B :=
  ⟨out.exception, run :: out.ran, out.dispatched ++ if out.exception = none then blocks else []⟩

theorem Outcome.around_nil (out : Outcome Obj Val U B) (run : SetterRun Obj Val U) :
    out.around run [] = { out with ran := run :: out.ran } := by
  unfold around
  split_ifs <;> rw [List.append_nil]

/-! ## Dispatch -/

section Send

variable {C : CaseMap} {P : Program Obj Val Store U} {w₀ w : World Obj Store U B} {o : Obj} {k s : NSString}
  {v : Val} {c : NSString} {r r₁ : World Obj Store U B × Outcome Obj Val U B}

/-- At most the store changes. -/
def StoreOnly (w w' : World Obj Store U B) : Prop := ∃ st, w' = { w with store := st }

/-- A dispatch that does not call on returns what its body is. -/
theorem fixReturns_of_body (h : ∀ call, msgSendBody C P call ⟨w, o, s, v, c⟩ = pure r) :
    FixReturns (msgSendBody C P) ⟨w, o, s, v, c⟩ r := by
  refine fixReturns_call ?_
  simp only [h]
  exact (returns_pure r).settles

/-- Only the method found depends on the class where the lookup starts. -/
theorem fixReturns_congr {c' : NSString} (h : w.runtime.lookupImp c s = w.runtime.lookupImp c' s)
    (hr : FixReturns (msgSendBody C P) ⟨w, o, s, v, c'⟩ r) :
    FixReturns (msgSendBody C P) ⟨w, o, s, v, c⟩ r := by
  have heq : ∀ k, fixN (msgSendBody C P) k ⟨w, o, s, v, c⟩ = fixN (msgSendBody C P) k ⟨w, o, s, v, c'⟩ := by
    intro k
    cases k with
    | zero => rfl
    | succ k =>
      show msgSendBody C P _ _ = msgSendBody C P _ _
      simp only [msgSendBody, h]
  rw [FixReturns, funext heq]
  exact hr

/-- A setter goes on from some point to its end, with its messages cut off at a depth and in full. -/
structure BodyReturns (C : CaseMap) (P : Program Obj Val Store U) (w : World Obj Store U B)
    (body : Body Obj Val Store) (r : World Obj Store U B × Outcome Obj Val U B) : Prop where
  settles : Settles
    (fun k => runBody (fun w o s v => fixN (msgSendBody C P) k ⟨w, o, s, v, w.isa o⟩) w body) r
  returns : Returns (runBody (msgSend C P) w body) r

theorem bodyReturns_done (w : World Obj Store U B) (st : Store) :
    BodyReturns C P w (.done st) ({ w with store := st }, .done [] []) :=
  ⟨(returns_pure _).settles, returns_pure _⟩

/-- An exception in a message ends the setter that sends it. -/
theorem bodyReturns_raise {st : Store} {rest : Store → Body Obj Val Store} {w₁ : World Obj Store U B}
    {out : Outcome Obj Val U B} {e : NSException}
    (hsend : FixReturns (msgSendBody C P) ⟨{ w with store := st }, o, s, v, w.isa o⟩ (w₁, out))
    (hout : out.exception = some e) : BodyReturns C P w (.send st o s v rest) (w₁, out) := by
  refine ⟨settles_bind hsend ?_, returns_bind hsend.returns ?_⟩
  · simp only [hout]
    exact (returns_pure _).settles
  · simp only [hout]
    exact returns_pure _

theorem bodyReturns_send {st : Store} {rest : Store → Body Obj Val Store} {w₁ : World Obj Store U B}
    {out : Outcome Obj Val U B}
    (hsend : FixReturns (msgSendBody C P) ⟨{ w with store := st }, o, s, v, w.isa o⟩ (w₁, out))
    (hout : out.exception = none) (hrest : BodyReturns C P w₁ (rest w₁.store) r) :
    BodyReturns C P w (.send st o s v rest)
      (r.1, ⟨r.2.exception, out.ran ++ r.2.ran, out.dispatched ++ r.2.dispatched⟩) := by
  refine ⟨settles_bind hsend ?_, returns_bind hsend.returns ?_⟩
  · simp only [hout]
    exact settles_bind hrest.settles (returns_pure _).settles
  · simp only [hout]
    exact returns_bind hrest.returns (returns_pure _)

/-- A setter that sends a message ends with its exception, or as it goes on behind it. -/
theorem exists_bodyReturns_send {st : Store} {rest : Store → Body Obj Val Store} {w₁ : World Obj Store U B}
    {out : Outcome Obj Val U B} {end₀ : Option Store}
    (hsend : FixReturns (msgSendBody C P) ⟨{ w with store := st }, o, s, v, w.isa o⟩ (w₁, out))
    (hst : StoreOnly w w₁)
    (hrest : out.exception = none → ∃ r, BodyReturns C P w₁ (rest w₁.store) r ∧ StoreOnly w r.1 ∧
      (r.2.exception = none → end₀ = some r.1.store)) :
    ∃ r, BodyReturns C P w (.send st o s v rest) r ∧ StoreOnly w r.1 ∧
      (r.2.exception = none → end₀ = some r.1.store) := by
  cases hout : out.exception with
  | none =>
    obtain ⟨r', hr', hst', hend⟩ := hrest hout
    exact ⟨_, bodyReturns_send hsend hout hr', hst', hend⟩
  | some e =>
    refine ⟨_, bodyReturns_raise hsend hout, hst, fun hnone => ?_⟩
    rw [hout] at hnone
    cases hnone

/-- A message the object does not understand. -/
theorem fixReturns_unrecognized (h : w.runtime.lookupImp c s = none) :
    FixReturns (msgSendBody C P) ⟨w, o, s, v, c⟩
      (w, .raised ⟨"NSInvalidArgumentException", "unrecognized selector sent to instance", s⟩) :=
  fixReturns_of_body fun call => by simp only [msgSendBody, h]

/-- `class` changes nothing. -/
theorem fixReturns_class (h : w.runtime.lookupImp c s = some .objectClass ∨
    w.runtime.lookupImp c s = some .kvoClass) :
    FixReturns (msgSendBody C P) ⟨w, o, s, v, c⟩ (w, .done [] []) := by
  rcases h with h | h <;> exact fixReturns_of_body fun call => by simp only [msgSendBody, h]

/-- A setter of the program runs. -/
theorem fixReturns_user {u : U} (h : w.runtime.lookupImp c s = some (.user u))
    (hr : BodyReturns C P w (P.setter u o v w.store) r) :
    FixReturns (msgSendBody C P) ⟨w, o, s, v, c⟩ (r.1, { r.2 with ran := ⟨u, o, v⟩ :: r.2.ran }) := by
  refine fixReturns_call ?_
  simp only [msgSendBody, h]
  exact settles_bind hr.settles (returns_pure _).settles

/-- `kvo_setter` raises when `valueForKey:` does. -/
theorem fixReturns_unreadable (h : w.runtime.lookupImp c s = some .kvoSetter)
    (hget : getterForSetter C s = .ok (some k)) (hold : P.valueForKey w.store o k = none) :
    FixReturns (msgSendBody C P) ⟨w, o, s, v, c⟩
      (w, .raised ⟨"NSUnknownKeyException", "valueForUndefinedKey:", k⟩) :=
  fixReturns_of_body fun call => by simp only [msgSendBody, h, kvoSetter, hget, hold]

/-- `kvo_setter` reads the old value, goes to the superclass and tells the observers of the key. -/
theorem fixReturns_kvoSetter {old : Val} (h : w.runtime.lookupImp c s = some .kvoSetter)
    (hget : getterForSetter C s = .ok (some k)) (hold : P.valueForKey w.store o k = some old)
    {superClass : NSString} (hsuper : w.runtime.classes.super (w.isa o) = some superClass)
    (hsend : FixReturns (msgSendBody C P) ⟨w, o, s, v, superClass⟩ r) :
    FixReturns (msgSendBody C P) ⟨w, o, s, v, c⟩ (r.1, { r.2 with
      dispatched := r.2.dispatched ++ if r.2.exception = none then
      r.1.dispatchBlocks o k old v else [] }) := by
  refine fixReturns_call ?_
  simp only [msgSendBody, h, kvoSetter, hget, hold, hsuper]
  refine settles_bind hsend ?_
  obtain ⟨w', out⟩ := r
  cases hout : out.exception with
  | none =>
    simp only [if_pos]
    exact (returns_pure _).settles
  | some e =>
    simp only [reduceCtorEq, if_neg, not_false_eq_true, List.append_nil]
    exact hout ▸ (returns_pure (w', out)).settles

variable (h₀ : Plain w₀) (h : Inv C w₀ w)

include h₀ h

/-- The program's classes never lead to `kvo_setter`. -/
theorem lookupImp_ne_kvoSetter (o : Obj) (s : NSString) :
    w.runtime.lookupImp (w₀.isa o) s ≠ some .kvoSetter := by
  intro himp
  rw [h.runtime.lookupImp_eq (h₀.isa_known o)] at himp
  rcases h₀.lookupImp (h₀.isa_known o) himp with h1 | ⟨u, h1⟩ <;> cases h1

/-- An object finds `kvo_setter`, or what its class found, or `kvo_class` in place of `class`. -/
theorem lookupImp_cases (o : Obj) (s : NSString) :
    w.runtime.lookupImp (w.isa o) s = w.runtime.lookupImp (w₀.isa o) s ∨
      w.runtime.classes.super (w.isa o) = some (w₀.isa o) ∧
      (w.runtime.lookupImp (w.isa o) s = some .kvoSetter ∨
        s = classSelector ∧ w.runtime.lookupImp (w.isa o) s = some .kvoClass) := by
  rcases h.isa o with hisa | ⟨hisa, hk⟩
  · exact Or.inl (by rw [hisa])
  · have hcls := h.kvoClass h₀ hk
    have hlookup : w.runtime.lookup (w.isa o) s =
        (w.runtime.table (kvoName (w₀.isa o)) s).or (w.runtime.lookup (w₀.isa o) s) := by
      rw [hisa, h.runtime.lookup_kvoName (h₀.isa_known o) hcls, h.runtime.lookup_eq (h₀.isa_known o)]
    cases hown : w.runtime.table (kvoName (w₀.isa o)) s with
    | none =>
      rw [hown, Option.none_or] at hlookup
      exact Or.inl (by rw [Runtime.lookupImp, hlookup, Runtime.lookupImp])
    | some e =>
      rw [hown, Option.some_or] at hlookup
      refine Or.inr ⟨by rw [hisa]; exact hcls.super, ?_⟩
      rw [Runtime.lookupImp, hlookup, Option.map_some]
      by_cases hs : s = classSelector
      · obtain ⟨t, ht⟩ := hcls.class_imp
        rw [hs, ht] at hown
        exact Or.inr ⟨hs, by rw [← Option.some.inj hown]⟩
      · exact Or.inl (congrArg some (hcls.setter_imp s e hs hown))

/-- A message ends when it does without the KVO class, and changes at most the store; without an exception
it leaves the same world. -/
theorem exists_message (hsuper : FixReturns (msgSendBody C P) ⟨w, o, s, v, w₀.isa o⟩ r₁)
    (hr₁ : StoreOnly w r₁.1) :
    ∃ r, FixReturns (msgSendBody C P) ⟨w, o, s, v, w.isa o⟩ r ∧ StoreOnly w r.1 ∧
      (r.2.exception = none → r₁.2.exception = none ∧ r.1 = r₁.1) := by
  have hraises : ∀ e, FixReturns (msgSendBody C P) ⟨w, o, s, v, w.isa o⟩ (w, .raised e) →
      ∃ r, FixReturns (msgSendBody C P) ⟨w, o, s, v, w.isa o⟩ r ∧ StoreOnly w r.1 ∧
        (r.2.exception = none → r₁.2.exception = none ∧ r.1 = r₁.1) :=
    fun e he => ⟨_, he, ⟨w.store, rfl⟩, fun hnone => by cases hnone⟩
  rcases lookupImp_cases h₀ h o s with himp | ⟨hcls, himp | ⟨rfl, himp⟩⟩
  · exact ⟨r₁, fixReturns_congr himp hsuper, hr₁, fun hnone => ⟨hnone, rfl⟩⟩
  · cases hget : getterForSetter C s with
    | error e =>
      exact hraises e (fixReturns_of_body fun call => by simp only [msgSendBody, himp, kvoSetter, hget])
    | ok getterName =>
      cases getterName with
      | none =>
        exact hraises _ (fixReturns_of_body fun call => by
          simp only [msgSendBody, himp, kvoSetter, hget]; rfl)
      | some k =>
        cases hold : P.valueForKey w.store o k with
        | none => exact hraises _ (fixReturns_unreadable himp hget hold)
        | some old =>
          exact ⟨_, fixReturns_kvoSetter himp hget hold hcls hsuper, hr₁, fun hnone => ⟨hnone, rfl⟩⟩
  · -- `class` changes nothing in either class
    have hobject : w.runtime.lookupImp (w₀.isa o) classSelector = some .objectClass := by
      rw [h.runtime.lookupImp_eq (h₀.isa_known o), h₀.class_imp _ (h₀.isa_known o)]
    obtain rfl := hsuper.returns.unique (fixReturns_class (Or.inl hobject)).returns
    exact ⟨(w, .done [] []), fixReturns_class (Or.inr himp), hr₁, fun _ => ⟨rfl, rfl⟩⟩

/-- **A setter that comes to an end by itself does so with observers,** changes at most the store, and
leaves the same one unless an exception ends it. -/
theorem exists_bodyReturns {body : Body Obj Val Store} {end₀ : Option Store}
    (hfin : Finishes P w₀ body end₀) :
    ∃ r, BodyReturns C P w body r ∧ StoreOnly w r.1 ∧ (r.2.exception = none → end₀ = some r.1.store) := by
  induction hfin generalizing w with
  | done st => exact ⟨_, bodyReturns_done w st, ⟨st, rfl⟩, fun _ => rfl⟩
  | @unrecognized st o s v rest himp =>
    have h' := h.withStore st
    rw [← h'.runtime.lookupImp_eq (h₀.isa_known o)] at himp
    obtain ⟨⟨w₁, out⟩, hsend, hst, hkeep⟩ := exists_message (v := v) h₀ h'
      (fixReturns_unrecognized (C := C) (P := P) himp) ⟨st, rfl⟩
    exact exists_bodyReturns_send hsend hst fun hout => absurd (hkeep hout).1 (by simp [Outcome.raised])
  | @ignored st o s v rest r himp _ ih =>
    have h' := h.withStore st
    rw [← h'.runtime.lookupImp_eq (h₀.isa_known o)] at himp
    obtain ⟨⟨w₁, out⟩, hsend, ⟨st₁, rfl⟩, hkeep⟩ := exists_message (v := v) h₀ h'
      (fixReturns_class (C := C) (P := P) (Or.inl himp)) ⟨st, rfl⟩
    refine exists_bodyReturns_send hsend ⟨st₁, rfl⟩ fun hout => ?_
    have hstore : st₁ = st := congrArg World.store (hkeep hout).2
    subst hstore
    exact ih (h.withStore st₁)
  | @sent st st' o s v rest r u himp _ _ ihbody ihrest =>
    have h' := h.withStore st
    rw [← h'.runtime.lookupImp_eq (h₀.isa_known o)] at himp
    obtain ⟨rb, hbody, hstb, hendb⟩ := ihbody h'
    obtain ⟨⟨w₁, out⟩, hsend, ⟨st₁, rfl⟩, hkeep⟩ :=
      exists_message (C := C) h₀ h' (fixReturns_user himp hbody) hstb
    refine exists_bodyReturns_send hsend ⟨st₁, rfl⟩ fun hout => ?_
    obtain ⟨hnone, hsame⟩ := hkeep hout
    have hstore : st' = st₁ := (Option.some.inj (hendb hnone)).trans (congrArg World.store hsame).symm
    subst hstore
    exact ihrest (h.withStore st')
  | @failed st o s v rest u himp _ ihbody =>
    have h' := h.withStore st
    rw [← h'.runtime.lookupImp_eq (h₀.isa_known o)] at himp
    obtain ⟨rb, hbody, hstb, hendb⟩ := ihbody h'
    obtain ⟨⟨w₁, out⟩, hsend, hst, hkeep⟩ :=
      exists_message (C := C) h₀ h' (fixReturns_user himp hbody) hstb
    refine exists_bodyReturns_send hsend hst fun hout => ?_
    have hsome := hendb (hkeep hout).1
    cases hsome

/-- Any message ends, and changes at most the store. -/
theorem exists_msgSend (hP : Terminating P w₀) (o : Obj) (s : NSString) (v : Val) :
    ∃ r, Returns (msgSend C P w o s v) r ∧ StoreOnly w r.1 := by
  have hends : ∀ r₁, FixReturns (msgSendBody C P) ⟨w, o, s, v, w₀.isa o⟩ r₁ → StoreOnly w r₁.1 →
      ∃ r, Returns (msgSend C P w o s v) r ∧ StoreOnly w r.1 := by
    intro r₁ hr₁ hst
    obtain ⟨r, hr, hst', -⟩ := exists_message h₀ h hr₁ hst
    exact ⟨r, hr.returns, hst'⟩
  cases himp : w.runtime.lookupImp (w₀.isa o) s with
  | none => exact hends _ (fixReturns_unrecognized himp) ⟨w.store, rfl⟩
  | some imp =>
    cases imp with
    | user u =>
      obtain ⟨end₀, hfin⟩ := hP u o v w.store
      obtain ⟨r₁, hr₁, hst, -⟩ := exists_bodyReturns h₀ h hfin
      exact hends _ (fixReturns_user himp hr₁) hst
    | kvoSetter => exact absurd himp (lookupImp_ne_kvoSetter h₀ h o s)
    | objectClass => exact hends _ (fixReturns_class (Or.inl himp)) ⟨w.store, rfl⟩
    | kvoClass => exact hends _ (fixReturns_class (Or.inr himp)) ⟨w.store, rfl⟩

omit h₀ h in
/-- The dispatched blocks in terms of the registrations. -/
theorem dispatchBlocks_eq (w : World Obj Store U B) (o : Obj) (k : NSString) (old v : Val) :
    w.dispatchBlocks o k old v =
      (notified w.registry o k).map fun r => ⟨r.callBack, o, k, old, v⟩ := by
  rw [World.dispatchBlocks, notified, World.registry_apply, List.filter_map, List.map_map]
  rfl

omit h₀ in
/-- An object that is not observed for a key has no registration for it. -/
theorem dispatchBlocks_of_not_observed (hno : ¬ Observed C w₀ w o k) (old v : Val) :
    w.dispatchBlocks o k old v = [] := by
  rw [World.dispatchBlocks, List.map_eq_nil_iff, List.filter_eq_nil_iff]
  intro i hi heq
  rw [← of_decide_eq_true heq] at hno
  exact hno (h.covered o i hi).2

omit h₀ h in
/-- An observed object finds `kvo_setter` in its own class. -/
theorem lookupImp_of_observed (hs : setterForGetter C k = some s) (hobs : Observed C w₀ w o k) :
    w.runtime.lookupImp (w.isa o) s = some .kvoSetter := by
  obtain ⟨hisa, -, s', t, hs', ht⟩ := hobs
  obtain rfl := Option.some.inj (hs.symm.trans hs')
  rw [hisa, Runtime.lookupImp, Runtime.lookup_of_own ht]
  rfl

/-- Any other object finds what its class found. -/
theorem lookupImp_of_not_observed (hs : setterForGetter C k = some s) (hno : ¬ Observed C w₀ w o k) :
    w.runtime.lookupImp (w.isa o) s = w.runtime.lookupImp (w₀.isa o) s := by
  rcases h.isa o with hisa | ⟨hisa, hk⟩
  · rw [hisa]
  · have hcls := h.kvoClass h₀ hk
    cases hown : w.runtime.table (kvoName (w₀.isa o)) s with
    | some e =>
      have himp := hcls.setter_imp s e (setter_ne_class hs) hown
      exact absurd ⟨hisa, hk, s, e.types, hs, by rw [hown, ← himp]⟩ hno
    | none =>
      rw [hisa, Runtime.lookupImp, h.runtime.lookup_kvoName (h₀.isa_known o) hcls, hown, Option.none_or,
        ← h.runtime.lookup_eq (h₀.isa_known o), Runtime.lookupImp]

section Setter

variable (hs : setterForGetter C k = some s) {u : U} (hu : w₀.runtime.lookupImp (w₀.isa o) s = some (.user u))
  (hr : BodyReturns C P w (P.setter u o v w.store) r)

include hs hu hr

/-- On an object that is not observed for the key the program's setter runs, and that is all. -/
theorem returns_plainSetter (hno : ¬ Observed C w₀ w o k) :
    Returns (msgSend C P w o s v) (r.1, r.2.around ⟨u, o, v⟩ []) := by
  rw [← h.runtime.lookupImp_eq (h₀.isa_known o), ← lookupImp_of_not_observed h₀ h hs hno] at hu
  rw [Outcome.around_nil]
  exact (fixReturns_user hu hr).returns

/-- The setter message of a key that can be read runs the program's setter and tells
the registrations of the key. -/
theorem returns_setter (hkey : LowerFirst k) (hst : StoreOnly w r.1) {old : Val}
    (hold : P.valueForKey w.store o k = some old) :
    Returns (msgSend C P w o s v) (r.1, r.2.around ⟨u, o, v⟩ (w.dispatchBlocks o k old v)) := by
  by_cases hobs : Observed C w₀ w o k
  · obtain ⟨s', hs', hget⟩ := hkey.exists_setter C
    obtain rfl := Option.some.inj (hs.symm.trans hs')
    have hsuper : w.runtime.classes.super (w.isa o) = some (w₀.isa o) := by
      rw [hobs.1]
      exact (h.kvoClass h₀ hobs.2.1).super
    rw [← h.runtime.lookupImp_eq (h₀.isa_known o)] at hu
    have hsend := fixReturns_kvoSetter (lookupImp_of_observed hs hobs) hget hold hsuper
      (fixReturns_user hu hr)
    have hblocks : r.1.dispatchBlocks o k old v = w.dispatchBlocks o k old v := by
      obtain ⟨st, hst⟩ := hst
      rw [hst]
      rfl
    rw [hblocks] at hsend
    exact hsend.returns
  · rw [dispatchBlocks_of_not_observed h hobs]
    exact returns_plainSetter h₀ h hs hu hr hobs

end Setter

omit h₀ h in
/-- On an object observed for a key that cannot be read the message raises,
and the program's setter does not run. -/
theorem returns_unreadable (hkey : LowerFirst k) (hs : setterForGetter C k = some s)
    (hobs : Observed C w₀ w o k) (hold : P.valueForKey w.store o k = none) :
    Returns (msgSend C P w o s v) (w, .raised ⟨"NSUnknownKeyException", "valueForUndefinedKey:", k⟩) := by
  obtain ⟨s', hs', hget⟩ := hkey.exists_setter C
  obtain rfl := Option.some.inj (hs.symm.trans hs')
  exact (fixReturns_unreadable (lookupImp_of_observed hs hobs) hget hold).returns

end Send

/-! ## Runs -/

/-- The keys observers are added for start with a small letter. -/
def Action.LowerFirst : Action Obj Val B → Prop
  | .addObserver _ _ key _ => KVO.LowerFirst key
  | _ => True

/-- What an action does to a plain registry that accepts the keys with a setter. -/
def register [DecidableEq Obj] (C : CaseMap) (w₀ : World Obj Store U B) (R : Table Obj Obj NSString B) :
    Action Obj Val B → Table Obj Obj NSString B
  | .addObserver self observer key callBack =>
    if HasSetter C w₀ self key then Registry.add R self ⟨observer, key, callBack⟩ else R
  | .removeObserver self observer key => Registry.remove R self observer key
  | .set _ _ _ => R

/-- The registrations after a run: added by an accepted `addObserver` and not yet removed. -/
def registrations [DecidableEq Obj] (C : CaseMap) (w₀ : World Obj Store U B)
    (acts : List (Action Obj Val B)) : Table Obj Obj NSString B :=
  acts.foldl (register C w₀) Registry.empty

section Run

variable [DecidableEq Obj] {C : CaseMap} {P : Program Obj Val Store U} {w₀ w : World Obj Store U B}

/-- One action keeps the invariant and does to the registrations what it does to the registry. -/
theorem halts_step (h₀ : Plain w₀) (hP : Terminating P w₀) (h : Inv C w₀ w) {a : Action Obj Val B}
    (ha : a.LowerFirst) :
    Halts (step C P w a) fun r => Inv C w₀ r.1 ∧ r.1.registry = register C w₀ w.registry a := by
  cases a with
  | addObserver o observer key callBack =>
    rw [step, register]
    by_cases hset : HasSetter C w₀ o key
    · obtain ⟨rt, isa, hadd, hinv, hobs⟩ := exists_qyAddObserver h₀ h hset observer callBack
      rw [hadd, if_pos hset]
      exact halts_pure ⟨hinv.addInfo ha hobs observer callBack, registry_addInfo observer callBack⟩
    · rw [qyAddObserver_raises h₀ h hset observer callBack, if_neg hset]
      exact halts_pure ⟨h, rfl⟩
  | removeObserver o observer key =>
    exact halts_pure ⟨h.qyRemoveObserver o observer key, h.registry_qyRemoveObserver o observer key⟩
  | set o s v =>
    obtain ⟨r, hr, st, hst⟩ := exists_msgSend h₀ h hP o s v
    refine hr.halts ?_
    rw [hst]
    exact ⟨h.withStore st, rfl⟩

theorem halts_run (h₀ : Plain w₀) (hP : Terminating P w₀) (acts : List (Action Obj Val B))
    (hacts : ∀ a ∈ acts, a.LowerFirst) :
    Halts (run C P w₀ acts) fun w => Inv C w₀ w ∧ w.registry = registrations C w₀ acts := by
  have hempty : w₀.registry = registrations C w₀ ([] : List (Action Obj Val B)) := by
    funext o
    rw [World.registry_apply, World.infos, h₀.no_observers o]
    rfl
  refine halts_forEach (fun pre w => Inv C w₀ w ∧ w.registry = registrations C w₀ pre) ?_
    ⟨Inv.init h₀, hempty⟩
  rintro pre a post w hl ⟨hinv, hreg⟩
  have ha : a.LowerFirst := hacts a (by rw [hl]; simp)
  refine halts_bind ((halts_step h₀ hP hinv ha).mono fun r hr => halts_pure ⟨hr.1, ?_⟩)
  rw [hr.2, hreg, registrations, registrations, List.foldl_append]
  rfl

/-- In every world a run reaches: each object is an instance of its class or of the one KVO class directly
below it, and `class` still reports its class.  A setter message runs the program's setter once and, unless
that ends with an exception, dispatches one block for each registration of its key on the object, provided
that `valueForKey:` answers; where it does not the message raises before the setter on an object that is
observed for the key, and only runs the setter on any other.  An observer for a key without a setter is
refused with an exception, and nothing changes. -/
theorem run_spec (C : CaseMap) (P : Program Obj Val Store U) (w₀ : World Obj Store U B) (h₀ : Plain w₀)
    (hP : Terminating P w₀) (acts : List (Action Obj Val B)) (hacts : ∀ a ∈ acts, a.LowerFirst) :
    Halts (run C P w₀ acts) fun w =>
      (∀ o, ¬ kQYKVOClassPrefix <+: w₀.isa o ∧ (w.isa o = w₀.isa o ∨ w.isa o = kvoName (w₀.isa o) ∧
        w.runtime.classes.super (w.isa o) = some (w₀.isa o))) ∧
      (∀ c, w.runtime.classes.known c = true → kQYKVOClassPrefix <+: c → ∃ c₀, c = kvoName c₀ ∧
        w.runtime.classes.super c = some c₀ ∧ w₀.runtime.classes.known c₀ = true ∧
        ¬ kQYKVOClassPrefix <+: c₀) ∧
      (∀ o, w.sendClass o = pure (w₀.isa o)) ∧
      (∀ o k, KVO.LowerFirst k → HasSetter C w₀ o k → ∃ s u, setterForGetter C k = some s ∧
        w₀.runtime.lookupImp (w₀.isa o) s = some (.user u) ∧ ∀ store v,
          Halts (runSetter C P { w with store := store } u o v) fun r => StoreOnly w r.1 ∧
            (∀ old, P.valueForKey store o k = some old →
              Returns (msgSend C P { w with store := store } o s v) (r.1, r.2.around ⟨u, o, v⟩
                ((notified (registrations C w₀ acts) o k).map fun reg => ⟨reg.callBack, o, k, old, v⟩))) ∧
            (P.valueForKey store o k = none →
              (¬ Observed C w₀ w o k →
                Returns (msgSend C P { w with store := store } o s v) (r.1, r.2.around ⟨u, o, v⟩ [])) ∧
              (Observed C w₀ w o k →
                Returns (msgSend C P { w with store := store } o s v)
                  ({ w with store := store },
                    .raised ⟨"NSUnknownKeyException", "valueForUndefinedKey:", k⟩)))) ∧
      ∀ o observer k callBack, ¬ HasSetter C w₀ o k →
        (qyAddObserver C w o observer k callBack : Prog (_ × Outcome Obj Val U B)) =
          pure (w, .raised (noSetterForKey k)) := by
  refine (halts_run h₀ hP acts hacts).mono ?_
  intro w hw
  obtain ⟨h, hreg⟩ := hw
  refine ⟨fun o => ⟨h₀.no_prefix _ (h₀.isa_known o), ?_⟩, fun c hc hpre => ?_, sendClass_eq h₀ h,
    fun o k hkey hset => ?_, fun o observer k callBack hno => qyAddObserver_raises h₀ h hno observer callBack⟩
  · rcases h.isa o with hisa | ⟨hisa, hk⟩
    · exact Or.inl hisa
    · exact Or.inr ⟨hisa, by rw [hisa]; exact (h.kvoClass h₀ hk).super⟩
  · rcases h.runtime.made c hc with h1 | ⟨c₀, h1, hname, hcls⟩
    · exact absurd hpre (h₀.no_prefix c h1)
    · exact ⟨c₀, hname, by rw [hname]; exact hcls.super, h1, h₀.no_prefix c₀ h1⟩
  · obtain ⟨s, u, hs, hu⟩ := h₀.exists_setter hset
    refine ⟨s, u, hs, hu, fun store v => ?_⟩
    have h' := h.withStore store
    obtain ⟨end₀, hfin⟩ := hP u o v store
    obtain ⟨r, hr, ⟨st, hst⟩, -⟩ := exists_bodyReturns h₀ h' hfin
    refine hr.returns.halts ⟨⟨st, hst⟩, fun old hold => ?_, fun hnone => ⟨fun hno => ?_, fun hobs => ?_⟩⟩
    · have hret := returns_setter h₀ h' hs hu hr hkey ⟨st, hst⟩ hold
      rw [dispatchBlocks_eq] at hret
      rw [← hreg]
      exact hret
    · exact returns_plainSetter h₀ h' hs hu hr hno
    · exact returns_unreadable (w := { w with store := store }) hkey hs hobs hnone

end Run

/-! ## One class with one setter -/

section Example

def nsObject : NSString := units ['N', 'S', 'O', 'b', 'j', 'e', 'c', 't']

def kvoPersion : NSString := units ['K', 'V', 'O', 'P', 'e', 'r', 's', 'i', 'o', 'n']

/-- `KVOPersion` below `NSObject`, with the setter of one property. -/
def persionRuntime (setter : NSString) : Runtime NSString NSString (Imp Unit) where
  classes :=
    { known := fun c => decide (c = nsObject ∨ c = kvoPersion)
      super := fun c => if c = kvoPersion then some nsObject else none
      depth := fun c => if c = kvoPersion then 1 else 0
      known_super := by
        intro c d h
        by_cases hc : c = kvoPersion
        · rw [if_pos hc] at h
          obtain rfl := Option.some.inj h
          exact ⟨decide_eq_true (Or.inr hc), rfl⟩
        · rw [if_neg hc] at h
          cases h
      depth_super := by
        intro c d h
        by_cases hc : c = kvoPersion
        · rw [if_pos hc] at h
          obtain rfl := Option.some.inj h
          rw [if_pos hc]
          decide
        · rw [if_neg hc] at h
          cases h }
  table := fun c s =>
    if c = nsObject ∧ s = classSelector then some ⟨.objectClass, "#16@0:8"⟩
    else if c = kvoPersion ∧ s = setter then some ⟨.user (), "v24@0:8@16"⟩
    else none

/-- Every object is a `KVOPersion`; the store holds the value of the property of each. -/
def persionWorld (setter : NSString) : World ℕ (ℕ → ℕ) Unit ℕ where
  runtime := persionRuntime setter
  isa := fun _ => kvoPersion
  observers := fun _ => none
  nextAddress := 0
  store := fun _ => 0

def nameKey : NSString := units ['n', 'a', 'm', 'e']

def setName : NSString := units ['s', 'e', 't', 'N', 'a', 'm', 'e', ':']

/-- The setter of object 0 passes the value on to the name of object 1; only `name` can be read. -/
def persionProgram : Program ℕ ℕ (ℕ → ℕ) Unit where
  setter := fun _ o v store =>
    if o = 0 then .send (Function.update store o v) 1 setName v .done else .done (Function.update store o v)
  valueForKey := fun store o key => if key = nameKey then some (store o) else none

theorem persionRuntime_table (setter c s : NSString) : (persionRuntime setter).table c s =
    if c = nsObject ∧ s = classSelector then some ⟨.objectClass, "#16@0:8"⟩
    else if c = kvoPersion ∧ s = setter then some ⟨.user (), "v24@0:8@16"⟩
    else none := rfl

theorem plain_persionWorld {setter : NSString} (h : setter ≠ classSelector) :
    Plain (persionWorld setter) := by
  have hknown : ∀ c, (persionWorld setter).runtime.classes.known c = true → c = nsObject ∨ c = kvoPersion :=
    fun c hc => of_decide_eq_true hc
  refine ⟨fun _ => rfl, fun c hc => ?_, fun c hc => ?_, fun c s e _ hs he => ?_, fun _ => rfl⟩
  · rcases hknown c hc with rfl | rfl <;> decide
  · have hobject : (persionRuntime setter).lookup nsObject classSelector =
        some ⟨.objectClass, "#16@0:8"⟩ := Runtime.lookup_of_own rfl
    rcases hknown c hc with rfl | rfl
    · exact congrArg (Option.map Entry.imp) hobject
    · have hnone : (persionRuntime setter).table kvoPersion classSelector = none := by
        rw [persionRuntime_table, if_neg (by decide), if_neg fun hp => h hp.2.symm]
      have hup : (persionRuntime setter).lookup kvoPersion classSelector =
          some ⟨.objectClass, "#16@0:8"⟩ := by
        rw [Runtime.lookup, find_of_super (d := nsObject) rfl, hnone, Option.none_or]
        exact hobject
      exact congrArg (Option.map Entry.imp) hup
  · change (persionRuntime setter).table c s = some e at he
    rw [persionRuntime_table, if_neg fun hp => hs hp.2] at he
    split_ifs at he
    exact ⟨(), by rw [← Option.some.inj he]⟩

theorem persionProgram_setter_ne {o : ℕ} (ho : o ≠ 0) (v : ℕ) (store : ℕ → ℕ) :
    persionProgram.setter () o v store = .done (Function.update store o v) := if_neg ho

theorem terminating_persionProgram {setter : NSString} (h : setter ≠ classSelector) :
    Terminating persionProgram (persionWorld setter) := by
  intro u o v store
  by_cases ho : o = 0
  · have hsetter : persionProgram.setter u o v store =
      .send (Function.update store o v) 1 setName v .done := if_pos ho
    rw [hsetter]
    have h₀ := plain_persionWorld h
    cases himp : (persionWorld setter).runtime.lookupImp kvoPersion setName with
    | none => exact ⟨none, .unrecognized himp⟩
    | some imp =>
      rcases h₀.lookupImp (h₀.isa_known 1) himp with rfl | ⟨u', rfl⟩
      · exact ⟨_, .ignored himp (.done _)⟩
      · exact ⟨_, .sent himp (by rw [persionProgram_setter_ne one_ne_zero]; exact .done _) (.done _)⟩
  · rw [persionProgram_setter_ne ho]
    exact ⟨_, .done _⟩

/-- Observers of the names of objects 0 and 1, one of them removed again: a set of the first name tells the
observer of the second name and then the one left of its own. -/
theorem run_spec_name :
    Halts (run .ascii persionProgram (persionWorld setName)
      [.addObserver 0 1 nameKey 10, .addObserver 0 2 nameKey 20, .addObserver 1 2 nameKey 30,
        .removeObserver 0 1 nameKey]) fun w =>
      w.sendClass 0 = pure kvoPersion ∧
      Returns (msgSend .ascii persionProgram w 0 setName 7)
        ({ w with store := Function.update (Function.update w.store 0 7) 1 7 },
          .done [⟨(), 0, 7⟩, ⟨(), 1, 7⟩] [⟨30, 1, nameKey, w.store 1, 7⟩,
            ⟨20, 0, nameKey, w.store 0, 7⟩]) := by
  refine (run_spec .ascii persionProgram (persionWorld setName) (plain_persionWorld (by decide))
    (terminating_persionProgram (by decide)) [.addObserver 0 1 nameKey 10, .addObserver 0 2 nameKey 20,
      .addObserver 1 2 nameKey 30, .removeObserver 0 1 nameKey] ?_).mono fun w hw => ?_
  · have hkey : LowerFirst nameKey := by decide
    intro a ha
    simp only [List.mem_cons, List.not_mem_nil, or_false] at ha
    rcases ha with rfl | rfl | rfl | rfl
    · exact hkey
    · exact hkey
    · exact hkey
    · trivial
  · obtain ⟨-, -, hclass, hset, -⟩ := hw
    refine ⟨hclass 0, ?_⟩
    obtain ⟨s, u, hs, -, hsend⟩ := hset 0 nameKey (by decide) (by decide)
    obtain ⟨s', u', hs', -, hsend'⟩ := hset 1 nameKey (by decide) (by decide)
    obtain rfl : s = setName := Option.some.inj (hs.symm.trans (by decide))
    obtain rfl : s' = setName := Option.some.inj (hs'.symm.trans (by decide))
    obtain ⟨r, hr, -, hmsg, -⟩ := hsend w.store 7
    obtain ⟨r', hr', -, hmsg', -⟩ := hsend' (Function.update w.store 0 7) 7
    obtain rfl := hr'.unique (returns_pure _)
    have hinner := hmsg' (w.store 1) rfl
    obtain rfl := hr.unique (returns_bind hinner (returns_pure _))
    exact hmsg (w.store 0) rfl

def ageKey : NSString := units ['a', 'g', 'e']

def setAge : NSString := units ['s', 'e', 't', 'A', 'g', 'e', ':']

/-- A class with the setter `setAge:` and nothing `valueForKey:` could read: the observer is registered, and
the next set raises before the setter runs. -/
theorem run_spec_unreadable :
    Halts (run .ascii persionProgram (persionWorld setAge) [.addObserver 2 1 ageKey 10]) fun w =>
      notified w.registry 2 ageKey = [⟨1, ageKey, 10⟩] ∧
      Returns (msgSend .ascii persionProgram w 2 setAge 7)
        (w, .raised ⟨"NSUnknownKeyException", "valueForUndefinedKey:", ageKey⟩) := by
  have hacts : ∀ a ∈ [(.addObserver 2 1 ageKey 10 : Action ℕ ℕ ℕ)], a.LowerFirst := by
    intro a ha
    rw [List.mem_singleton.mp ha]
    exact (by decide : LowerFirst ageKey)
  refine (halts_run (plain_persionWorld (by decide)) (terminating_persionProgram (by decide)) _ hacts).mono ?_
  rintro w ⟨h, hreg⟩
  have hone : w.registry 2 = [⟨1, ageKey, 10⟩] := by
    rw [hreg]
    decide
  obtain ⟨i, hi, hi'⟩ := List.mem_map.mp (hone ▸ List.mem_singleton_self _ : _ ∈ w.registry 2)
  have hobs := (h.covered 2 i hi).2
  rw [show i.key = ageKey from congrArg Registration.topic hi'] at hobs
  refine ⟨?_, returns_unreadable (by decide) (by decide) hobs rfl⟩
  rw [notified, hone]
  decide

end Example

/-! ## Keys and their setters -/

/-- Deriving the setter of a key and mapping it back gives the key exactly when its first unit survives the
two changes of case; a key that starts with an ASCII character does so unless that is a capital letter. -/
theorem key_roundTrip (C : CaseMap) (c : UInt16) (rest : NSString) :
    ∃ s, setterForGetter C (c :: rest) = some s ∧
      (getterForSetter C s = .ok (some (c :: rest)) ↔ C.FoldsBack c) ∧
      (c < 128 → (getterForSetter C s = .ok (some (c :: rest)) ↔ ¬ (65 ≤ c ∧ c ≤ 90))) := by
  obtain ⟨s, hs, hback⟩ := exists_setter_roundTrip (C := C) c rest
  exact ⟨s, hs, hback, fun hc => hback.trans (foldsBack_ascii hc)⟩

/-- A class with a property `URL`: the key is accepted, and its setter `setURL:` maps back to `uRL`. -/
theorem key_roundTrip_URL :
    (∃ w, (qyAddObserver .ascii (persionWorld (units ['s', 'e', 't', 'U', 'R', 'L', ':'])) 0 1
        (units ['U', 'R', 'L']) 10 : Prog (_ × Outcome ℕ ℕ Unit ℕ)) = pure (w, .done [] [])) ∧
      setterForGetter .ascii (units ['U', 'R', 'L']) = some (units ['s', 'e', 't', 'U', 'R', 'L', ':']) ∧
      getterForSetter .ascii (units ['s', 'e', 't', 'U', 'R', 'L', ':']) =
        .ok (some (units ['u', 'R', 'L'])) ∧
      units ['u', 'R', 'L'] ≠ units ['U', 'R', 'L'] := by
  have h₀ : Plain (persionWorld (units ['s', 'e', 't', 'U', 'R', 'L', ':'])) := plain_persionWorld (by decide)
  obtain ⟨rt, isa, hadd, -⟩ := exists_qyAddObserver (C := .ascii) h₀ (Inv.init h₀) (o := 0)
    (k := units ['U', 'R', 'L']) (by decide) 1 10
  exact ⟨⟨_, hadd⟩, by decide, by decide, by decide⟩

end QYInterview.ObjC.KVO
