import QYInterview.Lib.Registry
import QYInterview.ObjC.KVOClass

/-!
# ObjC.KVOInv — the invariant of the category

The KVO class of a class and its setters are shared by all instances, the registrations belong to one
object.  `Inv` links the classes to the `isa` of the objects and to their infos: an object with an info for
a key is an instance of the KVO class of its class, and that class overrides the setter.  Adding and
removing observers keep it, and do to the registrations what a plain registry does.
-/

namespace QYInterview.ObjC.KVO

open RunLogic Dispatch Registry

variable {Obj Val Store U B : Type}

/-- Keys that start with a small ASCII letter. -/
def LowerFirst : NSString → Prop
  | [] => False
  | c :: _ => 97 ≤ c ∧ c ≤ 122

instance : DecidablePred LowerFirst
  | [] => isFalse id
  | c :: _ => inferInstanceAs (Decidable (97 ≤ c ∧ c ≤ 122))

/-- A key that starts with a small letter comes back from its setter. -/
theorem LowerFirst.exists_setter (C : CaseMap) {k : NSString} (hk : LowerFirst k) :
    ∃ s, setterForGetter C k = some s ∧ getterForSetter C s = .ok (some k) := by
  cases k with
  | nil => exact hk.elim
  | cons c rest =>
    obtain ⟨s, hs, hback⟩ := exists_setter_roundTrip (C := C) c rest
    refine ⟨s, hs, hback.mpr ?_⟩
    have h1 : 97 ≤ c := hk.1
    have h2 : c ≤ 122 := hk.2
    exact (foldsBack_ascii (by grind)).mpr (by grind)

theorem setter_ne_class {C : CaseMap} {k s : NSString} (h : setterForGetter C k = some s) :
    s ≠ classSelector := by
  cases k with
  | nil => cases h
  | cons c rest =>
    rintro rfl
    have := Option.some.inj h
    simp [units, classSelector] at this

/-! ## The initial world -/

/-- Before the first registration: every `isa` is a class, no class carries the prefix, `class` is
`NSObject`'s everywhere and every other method is the program's own. -/
structure Plain (w : World Obj Store U B) : Prop where
  isa_known : ∀ o, w.runtime.classes.known (w.isa o) = true
  no_prefix : ∀ c, w.runtime.classes.known c = true → ¬ kQYKVOClassPrefix <+: c
  class_imp : ∀ c, w.runtime.classes.known c = true → w.runtime.lookupImp c classSelector = some .objectClass
  user_imp : ∀ c s e, w.runtime.classes.known c = true → s ≠ classSelector → w.runtime.table c s = some e →
    ∃ u, e.imp = .user u
  no_observers : ∀ o, w.observers o = none

/-- The class of `o` had the setter of `k` to begin with. -/
def HasSetter (C : CaseMap) (w₀ : World Obj Store U B) (o : Obj) (k : NSString) : Prop :=
  ∃ s, setterForGetter C k = some s ∧ (w₀.runtime.lookup (w₀.isa o) s).isSome

instance (C : CaseMap) (w₀ : World Obj Store U B) (o : Obj) (k : NSString) :
    Decidable (HasSetter C w₀ o k) :=
  match h : setterForGetter C k with
  | none => isFalse fun ⟨s, hs, _⟩ => by rw [h] at hs; cases hs
  | some s =>
    decidable_of_iff ((w₀.runtime.lookup (w₀.isa o) s).isSome = true)
      ⟨fun hl => ⟨s, h, hl⟩, fun ⟨s', hs', hl⟩ => by rw [h] at hs'; cases hs'; exact hl⟩

theorem Plain.lookupImp {w₀ : World Obj Store U B} (h₀ : Plain w₀) {c s : NSString}
    (hc : w₀.runtime.classes.known c = true) {i : Imp U} (hi : w₀.runtime.lookupImp c s = some i) :
    i = .objectClass ∨ ∃ u, i = .user u := by
  by_cases hs : s = classSelector
  · rw [hs, h₀.class_imp c hc] at hi
    exact Or.inl (Option.some.inj hi).symm
  · obtain ⟨e, he, rfl⟩ := Option.map_eq_some_iff.mp hi
    obtain ⟨d, hd, hde⟩ := exists_owner he
    exact Or.inr (h₀.user_imp d s e (Hierarchy.known_of_mem_line hc (mem_line_of_owner hd)) hs hde)

theorem Plain.exists_setter {w₀ : World Obj Store U B} (h₀ : Plain w₀) {C : CaseMap} {o : Obj}
    {k : NSString} (h : HasSetter C w₀ o k) :
    ∃ s u, setterForGetter C k = some s ∧ w₀.runtime.lookupImp (w₀.isa o) s = some (.user u) := by
  obtain ⟨s, hs, hl⟩ := h
  obtain ⟨e, he⟩ := Option.isSome_iff_exists.mp hl
  obtain ⟨d, hd, hde⟩ := exists_owner he
  have hknown := Hierarchy.known_of_mem_line (h₀.isa_known o) (mem_line_of_owner hd)
  obtain ⟨u, hu⟩ := h₀.user_imp d s e hknown (setter_ne_class hs) hde
  exact ⟨s, u, hs, by rw [Runtime.lookupImp, he, Option.map_some, hu]⟩

/-! ## The invariant -/

/-- What an info registers. -/
def QYKVOInfo.registration (i : QYKVOInfo Obj B) : Registration Obj NSString B :=
  ⟨i.observer, i.key, i.block⟩

/-- The registrations of a world. -/
def World.registry (w : World Obj Store U B) : Table Obj Obj NSString B :=
  fun o => (w.infos o).map QYKVOInfo.registration

theorem World.registry_apply (w : World Obj Store U B) (o : Obj) :
    w.registry o = (w.infos o).map QYKVOInfo.registration := rfl

/-- `o` is an instance of a KVO class that overrides the setter of `k`. -/
def Observed (C : CaseMap) (w₀ w : World Obj Store U B) (o : Obj) (k : NSString) : Prop :=
  w.isa o = kvoName (w₀.isa o) ∧ w.runtime.classes.known (kvoName (w₀.isa o)) = true ∧
    ∃ s t, setterForGetter C k = some s ∧
      w.runtime.table (kvoName (w₀.isa o)) s = some ⟨.kvoSetter, t⟩

structure Inv (C : CaseMap) (w₀ w : World Obj Store U B) : Prop where
  runtime : RuntimeInv w₀.runtime w.runtime
  isa : ∀ o, w.isa o = w₀.isa o ∨
    w.isa o = kvoName (w₀.isa o) ∧ w.runtime.classes.known (kvoName (w₀.isa o)) = true
  covered : ∀ o, ∀ i ∈ w.infos o, LowerFirst i.key ∧ Observed C w₀ w o i.key
  addresses : ∀ o, ((w.infos o).map QYKVOInfo.address).Nodup ∧ ∀ i ∈ w.infos o, i.address < w.nextAddress

section Steps

variable {C : CaseMap} {w₀ w : World Obj Store U B} {o : Obj} {k s : NSString}

theorem Inv.init (h₀ : Plain w₀) : Inv C w₀ w₀ := by
  have hnil : ∀ o, w₀.infos o = [] := fun o => by rw [World.infos, h₀.no_observers o, Option.getD_none]
  refine ⟨RuntimeInv.refl, fun o => Or.inl rfl, fun o i hi => ?_, fun o => ?_⟩
  · rw [hnil o] at hi
    cases hi
  · rw [hnil o]
    exact ⟨List.nodup_nil, fun i hi => by cases hi⟩

theorem Inv.kvoClass (h₀ : Plain w₀) (h : Inv C w₀ w)
    (hk : w.runtime.classes.known (kvoName (w₀.isa o)) = true) : KVOClass w.runtime (w₀.isa o) :=
  h.runtime.kvoClass h₀.no_prefix hk

/-- Classes may get more methods. -/
theorem Inv.grow (h : Inv C w₀ w) {rt : Runtime NSString NSString (Imp U)}
    (hrt : RuntimeInv w₀.runtime rt) (hg : Grows w.runtime rt) : Inv C w₀ { w with runtime := rt } where
  runtime := hrt
  isa := fun o => (h.isa o).imp_right fun ⟨h1, h2⟩ => ⟨h1, hg.known _ h2⟩
  covered := fun o i hi => by
    obtain ⟨hkey, hisa, hk, s, t, hs, ht⟩ := h.covered o i hi
    exact ⟨hkey, hisa, hg.known _ hk, s, t, hs, hg.table _ _ _ hk ht⟩
  addresses := h.addresses

/-- The program's setters only act on the store. -/
theorem Inv.withStore (h : Inv C w₀ w) (store : Store) : Inv C w₀ { w with store := store } :=
  ⟨h.runtime, h.isa, h.covered, h.addresses⟩

/-- `[o class]` reports the class `o` had to begin with. -/
theorem sendClass_eq (h₀ : Plain w₀) (h : Inv C w₀ w) (o : Obj) : w.sendClass o = pure (w₀.isa o) := by
  have hc := h₀.isa_known o
  unfold World.sendClass
  rcases h.isa o with hisa | ⟨hisa, hk⟩
  · rw [hisa, h.runtime.lookupImp_eq hc, h₀.class_imp _ hc]
  · have hcls := h.kvoClass h₀ hk
    obtain ⟨t, ht⟩ := hcls.class_imp
    have himp : w.runtime.lookupImp (w.isa o) classSelector = some .kvoClass := by
      rw [hisa, Runtime.lookupImp, Runtime.lookup_of_own ht]
      rfl
    rw [himp]
    show w.kvoClass o = _
    rw [World.kvoClass, hisa, hcls.super]

/-- The KVO class of the class of `o` exists afterwards. -/
theorem exists_makeKVOClass (h₀ : Plain w₀) (h : Inv C w₀ w) (hisa : w.isa o = w₀.isa o) :
    ∃ rt, w.makeKVOClass o (w₀.isa o) = pure (kvoName (w₀.isa o), { w with runtime := rt }) ∧
      Inv C w₀ { w with runtime := rt } ∧ rt.classes.known (kvoName (w₀.isa o)) = true := by
  have hc := h₀.isa_known o
  have hname : kQYKVOClassPrefix ++ w₀.isa o = kvoName (w₀.isa o) := rfl
  simp only [World.makeKVOClass, hname, hisa]
  cases hkn : w.runtime.classes.known (kvoName (w₀.isa o)) with
  | true => exact ⟨w.runtime, if_pos rfl, h, hkn⟩
  | false =>
    have hclass := h₀.class_imp _ hc
    rw [← h.runtime.lookupImp_eq hc] at hclass
    obtain ⟨e, he, -⟩ := Option.map_eq_some_iff.mp hclass
    obtain ⟨d, hget, -, hd⟩ := Runtime.getInstanceMethod_of_lookup he
    have htypes : (w.runtime.classGetInstanceMethod (w₀.isa o) classSelector).bind
        w.runtime.methodGetTypeEncoding = some e.types := by
      rw [hget, Option.bind_some, Runtime.methodGetTypeEncoding, Runtime.entry, hd, Option.map_some]
    obtain ⟨rt, halloc, hrt, hg, hk⟩ := h.runtime.allocate hc hkn e.types
    refine ⟨_, ?_, h.grow hrt hg, hk⟩
    rw [if_neg Bool.false_ne_true, halloc, htypes]

variable [DecidableEq Obj]

/-- An object may become an instance of the KVO class of its class. -/
theorem Inv.setClass (h : Inv C w₀ w) (hk : w.runtime.classes.known (kvoName (w₀.isa o)) = true) :
    Inv C w₀ (w.objectSetClass o (kvoName (w₀.isa o))) := by
  have hself : (w.objectSetClass o (kvoName (w₀.isa o))).isa o = kvoName (w₀.isa o) :=
    Function.update_self _ _ _
  have hother : ∀ o', o' ≠ o → (w.objectSetClass o (kvoName (w₀.isa o))).isa o' = w.isa o' :=
    fun o' ho => Function.update_of_ne ho _ _
  refine ⟨h.runtime, fun o' => ?_, fun o' i hi => ?_, h.addresses⟩
  · by_cases ho : o' = o
    · subst ho
      exact Or.inr ⟨hself, hk⟩
    · rw [hother o' ho]
      exact h.isa o'
  · obtain ⟨hkey, hisa, hcov⟩ := h.covered o' i hi
    refine ⟨hkey, ?_, hcov⟩
    by_cases ho : o' = o
    · rw [ho, hself]
    · rw [hother o' ho, hisa]

/-- The object is an instance of the KVO class of its class afterwards; of the rest of the world only the
runtime changes. -/
theorem exists_becomeObserved (h₀ : Plain w₀) (h : Inv C w₀ w) (o : Obj) :
    ∃ rt isa, w.becomeObserved o = pure { w with runtime := rt, isa := isa } ∧
      Inv C w₀ { w with runtime := rt, isa := isa } ∧ isa o = kvoName (w₀.isa o) ∧
      rt.classes.known (kvoName (w₀.isa o)) = true := by
  unfold World.becomeObserved
  rcases h.isa o with hisa | ⟨hisa, hk⟩
  · obtain ⟨rt, hmake, hinv, hk⟩ := exists_makeKVOClass h₀ h hisa
    refine ⟨rt, _, ?_, hinv.setClass hk, Function.update_self _ _ _, hk⟩
    rw [hisa, if_neg (h₀.no_prefix _ (h₀.isa_known o)), hmake]
    rfl
  · rw [if_pos (by rw [hisa]; exact prefix_kvoName _)]
    exact ⟨w.runtime, w.isa, rfl, h, hisa, hk⟩

omit [DecidableEq Obj] in
/-- The KVO class overrides the setter afterwards. -/
theorem exists_overrideSetter (h₀ : Plain w₀) (h : Inv C w₀ w) (hisa : w.isa o = kvoName (w₀.isa o))
    (hk : w.runtime.classes.known (kvoName (w₀.isa o)) = true) (hs : s ≠ classSelector)
    {m : Method NSString NSString} {types : String} (hm : w.runtime.methodGetTypeEncoding m = some types) :
    ∃ rt, w.overrideSetter o s m = pure { w with runtime := rt } ∧
      Inv C w₀ { w with runtime := rt } ∧ rt.classes.known (kvoName (w₀.isa o)) = true ∧
      ∃ t, rt.table (kvoName (w₀.isa o)) s = some ⟨.kvoSetter, t⟩ := by
  have hcls := h.kvoClass h₀ hk
  unfold World.overrideSetter World.hasSelector
  rw [hisa, hm]
  cases hown : w.runtime.table (kvoName (w₀.isa o)) s with
  | some e =>
    have himp := hcls.setter_imp s e hs hown
    exact ⟨w.runtime, rfl, h, hk, e.types, by rw [hown, ← himp]⟩
  | none =>
    obtain ⟨hrt, hg⟩ := h.runtime.addSetter h₀.no_prefix hs hown types
    refine ⟨_, rfl, h.grow hrt hg, hg.known _ hk, types, ?_⟩
    rw [Runtime.classAddMethod, hown]
    exact Runtime.put_table_self

/-- One more info for an observed key. -/
theorem Inv.addInfo (h : Inv C w₀ w) (hkey : LowerFirst k) (hobs : Observed C w₀ w o k) (observer : Obj)
    (callBack : B) : Inv C w₀ (w.addInfo o observer k callBack) := by
  have hnew : ∀ i ∈ (w.addInfo o observer k callBack).infos o, i ∈ w.infos o ∨
      i = ⟨w.nextAddress, observer, k, callBack⟩ := fun i hi => by
    rw [World.addInfo_infos, Function.update_self, List.mem_append, List.mem_singleton] at hi
    exact hi
  have hother : ∀ o', o' ≠ o → (w.addInfo o observer k callBack).infos o' = w.infos o' := fun o' ho => by
    rw [World.addInfo_infos, Function.update_of_ne ho]
  refine ⟨h.runtime, h.isa, fun o' i hi => ?_, fun o' => ?_⟩
  · by_cases ho : o' = o
    · subst ho
      rcases hnew i hi with hi | rfl
      · exact h.covered o' i hi
      · exact ⟨hkey, hobs⟩
    · rw [hother o' ho] at hi
      exact h.covered o' i hi
  · obtain ⟨hnd, hlt⟩ := h.addresses o'
    by_cases ho : o' = o
    · subst ho
      constructor
      · have hfresh : w.nextAddress ∉ (w.infos o').map QYKVOInfo.address := fun hm => by
          obtain ⟨i, hi, heq⟩ := List.mem_map.mp hm
          exact absurd (hlt i hi) (by omega)
        rw [World.addInfo_infos, Function.update_self, List.map_append]
        refine List.nodup_append.mpr ⟨hnd, List.nodup_singleton _, ?_⟩
        intro a ha b hb hab
        obtain rfl : b = w.nextAddress := List.mem_singleton.mp hb
        exact hfresh (hab ▸ ha)
      · intro i hi
        rcases hnew i hi with hi | rfl
        · exact Nat.lt_succ_of_lt (hlt i hi)
        · exact Nat.lt_succ_self _
    · rw [hother o' ho]
      exact ⟨hnd, fun i hi => Nat.lt_succ_of_lt (hlt i hi)⟩

theorem registry_addInfo (observer : Obj) (callBack : B) :
    (w.addInfo o observer k callBack).registry = Registry.add w.registry o ⟨observer, k, callBack⟩ := by
  funext o'
  rw [World.registry_apply, World.addInfo_infos]
  by_cases ho : o' = o
  · rw [ho, Function.update_self, Registry.add_self, List.map_append]
    rfl
  · rw [Function.update_of_ne ho, Registry.add_of_ne ho, World.registry_apply]

/-! ## The operations -/

/-- Without a setter in the class `o` had to begin with, adding an observer raises and changes nothing. -/
theorem qyAddObserver_raises (h₀ : Plain w₀) (h : Inv C w₀ w) (hno : ¬ HasSetter C w₀ o k) (observer : Obj)
    (callBack : B) :
    (qyAddObserver C w o observer k callBack : Prog (_ × Outcome Obj Val U B)) =
      pure (w, .raised (noSetterForKey k)) := by
  unfold qyAddObserver
  rw [sendClass_eq h₀ h, pure_bind]
  cases hs : setterForGetter C k with
  | none => rfl
  | some s =>
    have hnone : w.runtime.lookup (w₀.isa o) s = none := by
      rw [h.runtime.lookup_eq (h₀.isa_known o)]
      exact Option.not_isSome_iff_eq_none.mp fun hl => hno ⟨s, hs, hl⟩
    simp only [Runtime.getInstanceMethod_eq_none hnone]

/-- With one, the object becomes observed for the key and the info is added. -/
theorem exists_qyAddObserver (h₀ : Plain w₀) (h : Inv C w₀ w) (hset : HasSetter C w₀ o k) (observer : Obj)
    (callBack : B) :
    ∃ rt isa, (qyAddObserver C w o observer k callBack : Prog (_ × Outcome Obj Val U B)) =
        pure ({ w with runtime := rt, isa := isa }.addInfo o observer k callBack, .done [] []) ∧
      Inv C w₀ { w with runtime := rt, isa := isa } ∧
      Observed C w₀ { w with runtime := rt, isa := isa } o k := by
  obtain ⟨s, hs, hl⟩ := hset
  have hc := h₀.isa_known o
  obtain ⟨e, he⟩ := Option.isSome_iff_exists.mp hl
  rw [← h.runtime.lookup_eq hc] at he
  obtain ⟨d, hget, hline, hd⟩ := Runtime.getInstanceMethod_of_lookup he
  have hdk : w₀.runtime.classes.known d = true := by
    rw [h.runtime.line_eq hc] at hline
    exact Hierarchy.known_of_mem_line hc hline
  obtain ⟨rt₁, isa, hbecome, h1, hisa, hk₁⟩ := exists_becomeObserved h₀ h o
  -- the setter found before is still the one of the program's class
  have hm : rt₁.methodGetTypeEncoding ⟨d, s⟩ = some e.types := by
    rw [h.runtime.table d hdk] at hd
    rw [Runtime.methodGetTypeEncoding, Runtime.entry, h1.runtime.table d hdk, hd, Option.map_some]
  obtain ⟨rt₂, hover, h2, hk₂, t, ht⟩ := exists_overrideSetter h₀ h1 hisa hk₁ (setter_ne_class hs) hm
  refine ⟨rt₂, isa, ?_, h2, hisa, hk₂, s, t, hs, ht⟩
  unfold qyAddObserver
  rw [sendClass_eq h₀ h, pure_bind, hs]
  simp only [hget, hbecome, hover, pure_bind]

/-- What removing does: nothing without a match, and otherwise the first match goes. -/
theorem qyRemoveObserver_cases (w : World Obj Store U B) (o observer : Obj) (key : NSString) :
    ((w.infos o).find? (fun info => info.observer = observer ∧ info.key = key) = none ∧
        qyRemoveObserver w o observer key = w) ∨
      ∃ info, (w.infos o).find? (fun info => info.observer = observer ∧ info.key = key) = some info ∧
        qyRemoveObserver w o observer key =
          w.setInfos o ((w.infos o).filter fun i => i.address ≠ info.address) := by
  unfold qyRemoveObserver World.infos
  cases w.observers o with
  | none => exact Or.inl ⟨rfl, rfl⟩
  | some infos =>
    rw [Option.getD_some]
    cases hfind : infos.find? (fun info => info.observer = observer ∧ info.key = key) with
    | none => exact Or.inl ⟨rfl, by simp only [hfind]⟩
    | some info => exact Or.inr ⟨info, rfl, by simp only [hfind]⟩

/-- An object may lose infos. -/
theorem Inv.setInfos (h : Inv C w₀ w) {l : List (QYKVOInfo Obj B)} (hl : l.Sublist (w.infos o)) :
    Inv C w₀ (w.setInfos o l) := by
  have hsub : ∀ o', ((w.setInfos o l).infos o').Sublist (w.infos o') := fun o' => by
    rw [World.setInfos_infos]
    by_cases ho : o' = o
    · rw [ho, Function.update_self]
      exact hl
    · rw [Function.update_of_ne ho]
  refine ⟨h.runtime, h.isa, fun o' i hi => h.covered o' i ((hsub o').subset hi), ?_⟩
  intro o'
  obtain ⟨hnd, hlt⟩ := h.addresses o'
  exact ⟨hnd.sublist ((hsub o').map _), fun i hi => hlt i ((hsub o').subset hi)⟩

/-- Removing keeps the invariant. -/
theorem Inv.qyRemoveObserver (h : Inv C w₀ w) (o observer : Obj) (key : NSString) :
    Inv C w₀ (qyRemoveObserver w o observer key) := by
  rcases qyRemoveObserver_cases w o observer key with ⟨-, heq⟩ | ⟨info, -, heq⟩
  · rw [heq]
    exact h
  · rw [heq]
    exact h.setInfos List.filter_sublist

/-- Removing takes from the registrations what the registry's `remove` takes. -/
theorem Inv.registry_qyRemoveObserver (h : Inv C w₀ w) (o observer : Obj) (key : NSString) :
    (KVO.qyRemoveObserver w o observer key).registry = Registry.remove w.registry o observer key := by
  funext o'
  rcases qyRemoveObserver_cases w o observer key with ⟨hfind, heq⟩ | ⟨info, hfind, heq⟩
  · rw [heq]
    by_cases ho : o' = o
    · rw [ho, Registry.remove_self, World.registry_apply]
      exact (map_eraseP_of_find?_eq_none hfind).symm
    · rw [Registry.remove_of_ne ho]
  · rw [heq, World.registry_apply, World.setInfos_infos]
    by_cases ho : o' = o
    · rw [ho, Function.update_self, Registry.remove_self, World.registry_apply]
      exact map_filter_address_ne (h.addresses o).1 hfind
    · rw [Function.update_of_ne ho, Registry.remove_of_ne ho, World.registry_apply]

end Steps

end QYInterview.ObjC.KVO
