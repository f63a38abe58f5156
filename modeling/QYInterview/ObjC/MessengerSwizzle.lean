import QYInterview.ObjC.MessengerRuns
import QYInterview.ObjC.Swizzle

/-!
# ObjC.MessengerSwizzle — method swizzling under the caches

`qyAction1BetterMethodSwizzling` once more, now as the calls that it makes into the runtime with method
lists and caches.  Whatever was sent and cached before, it does to the method tables what `Swizzle` says
(`Inv.halts_swizzling`), and the messages sent afterwards find the exchanged implementations
(`halts_messages_swizzled`).
-/

namespace QYInterview.ObjC

open RunLogic Dispatch

namespace Objc

variable {κ ς ι : Type} [DecidableEq κ] [LinearOrder ς] [DecidableEq ι] (env : Env κ ς ι)
    {st st' st₀ : Objc κ ς ι}
  {cls : κ} {sel oriSEL swizzledSEL : ς}

/-! ## The code -/

omit [DecidableEq κ] [LinearOrder ς] [DecidableEq ι] in
/-- `method_getImplementation` -/
def methodGetImplementation (st : Objc κ ς ι) (m : MethodT ς) : Prog ι :=
  match st.entryOf m with
  | some e => pure e.imp
  | none => trap

omit [DecidableEq κ] [LinearOrder ς] [DecidableEq ι] in
/-- `method_getTypeEncoding` -/
def methodGetTypeEncoding (st : Objc κ ς ι) (m : MethodT ς) : Prog String :=
  match st.entryOf m with
  | some e => pure e.types
  | none => trap

/-- `qy_action1BetterMethodSwizzlingWithClass:oriSEL:swizzledSEL:` -/
def qyAction1BetterMethodSwizzling (st : Objc κ ς ι) (cls : κ) (oriSEL swizzledSEL : ς) :
    Prog (Objc κ ς ι) := do
  match ← st.classGetInstanceMethod env cls oriSEL with
  | (_, none) => trap
  | (st, some oriMethod) =>
    match ← st.classGetInstanceMethod env cls swizzledSEL with
    | (_, none) => trap
    | (st, some swizzledMethod) =>
      let imp ← st.methodGetImplementation swizzledMethod
      let types ← st.methodGetTypeEncoding oriMethod
      let (st, success) ← st.classAddMethod env cls oriSEL imp types
      if success then do
        let imp ← st.methodGetImplementation oriMethod
        let types ← st.methodGetTypeEncoding oriMethod
        let (st, _) ← st.addMethod env cls swizzledSEL imp types true
        pure st
      else st.methodExchangeImplementations env oriMethod swizzledMethod

/-! ## Its calls -/

section Calls

variable {env} {e o : Entry ι} {m : MethodT ς} {imp : ι}

omit [DecidableEq κ] [LinearOrder ς] [DecidableEq ι] in
theorem returns_methodGetImplementation (h : st.entryOf m = some e) :
    Returns (st.methodGetImplementation m) e.imp := by
  rw [methodGetImplementation, h]
  exact returns_pure _

omit [DecidableEq κ] [LinearOrder ς] [DecidableEq ι] in
theorem returns_methodGetTypeEncoding (h : st.entryOf m = some e) :
    Returns (st.methodGetTypeEncoding m) e.types := by
  rw [methodGetTypeEncoding, h]
  exact returns_pure _

/-- A message that the tables answer gets that answer. -/
theorem Inv.halts_objcMsgSend_of_found (h : st.Inv env) (hcls : st.classes.known cls = true)
    (himp : st.toRuntime.lookupImp cls sel = some imp) :
    Halts (st.objcMsgSend env sel cls) fun r => r.2 = some imp := by
  refine (h.halts_objcMsgSend hcls).mono ?_
  rintro r ⟨-, -, hruntime, hanswer, -⟩
  rw [looked, if_pos (Or.inr (by rw [himp]; rfl))] at hruntime
  rw [hanswer, hruntime, himp]

/-- A selector that is found gives the method, and changes caches only. -/
theorem Inv.halts_getInstanceMethod_of_found (h : st.Inv env) (hcls : st.classes.known cls = true)
    (hlookup : st.toRuntime.lookup cls sel = some e) :
    Halts (st.classGetInstanceMethod env cls sel) fun r => r.1.Inv env ∧ Same st r.1 ∧
      ∃ d m, r.2 = some m ∧ owner st.classes st.table sel cls = some d ∧
        firstMethod (st.methods d).lists sel = some m ∧ st.entryOf m = some e := by
  refine (h.halts_classGetInstanceMethod hcls).mono ?_
  rintro ⟨st', r⟩ ⟨hinv, -, -, hr, hsame⟩
  have hsame : Same st st' := hsame (by rw [Runtime.lookupImp, hlookup]; rfl)
  obtain ⟨d, m, howner, -, hm, he⟩ := exists_of_lookup hlookup
  refine ⟨hinv, hsame, d, m, ?_, howner, hm, he⟩
  have hget : st.toRuntime.classGetInstanceMethod cls sel = some ⟨d, sel⟩ := by
    rw [Runtime.classGetInstanceMethod,
      show owner st.toRuntime.classes st.toRuntime.table sel cls = some d from howner]
    rfl
  dsimp only at hr
  rw [hr, hsame.toRuntime, hget, Option.bind_some, hsame.methods, hm]

/-- The class has the method already: nothing is added. -/
theorem Inv.returns_classAddMethod_of_own (h : st.Inv env) (hcls : st.classes.known cls = true)
    (htable : st.table cls sel = some e) (types : String) :
    Returns (st.classAddMethod env cls sel imp types) (st, false) := by
  obtain ⟨m, hm, he⟩ := Option.bind_eq_some_iff.mp htable
  have hknown : Returns (st.checkIsKnownClass cls) () := by
    rw [checkIsKnownClass, if_pos hcls]
    exact returns_pure _
  have hsearch := returns_getMethodNoSuper sel (h.lists.sorted cls)
  rw [hm] at hsearch
  have hadd : Returns (st.addMethod env cls sel imp types false) (st, some e.imp) := by
    refine returns_bind hknown (returns_bind hsearch ?_)
    simp only [if_true, he]
    exact returns_pure _
  exact returns_bind hadd (returns_pure _)

/-- **Swizzling.**  With caches the tool does to the tables what it does without. -/
theorem Inv.halts_swizzling (h : st.Inv env) (hcls : st.classes.known cls = true)
    (hori : st.toRuntime.lookup cls oriSEL = some o) (hswz : st.toRuntime.table cls swizzledSEL = some e) :
    Halts (st.qyAction1BetterMethodSwizzling env cls oriSEL swizzledSEL) fun st' => st'.Inv env ∧
      Frame st st' ∧
      ObjC.qyAction1BetterMethodSwizzling st.toRuntime cls oriSEL swizzledSEL = some st'.toRuntime := by
  refine halts_bind ((h.halts_getInstanceMethod_of_found hcls hori).mono ?_)
  rintro ⟨st₁, _⟩ ⟨h₁, hsame₁, d, oriMethod, rfl, howner, hm₁, ho⟩
  have hcls₁ : st₁.classes.known cls = true := by rw [hsame₁.classes]; exact hcls
  have hruntime₁ : st₁.toRuntime = st.toRuntime := hsame₁.toRuntime
  refine halts_bind ((h₁.halts_getInstanceMethod_of_found hcls₁
    (Runtime.lookup_of_own (by rw [hruntime₁]; exact hswz))).mono ?_)
  rintro ⟨st₂, _⟩ ⟨h₂, hsame₂, d', swizzledMethod, rfl, howner', hm₂, he⟩
  -- the swizzled method is one of the class itself
  have hsame := hsame₁.trans hsame₂
  have hruntime : st₂.toRuntime = st.toRuntime := hsame.toRuntime
  have hcls₂ : st₂.classes.known cls = true := by rw [hsame.classes]; exact hcls
  obtain rfl : cls = d' := by
    have hown : (st₁.table cls swizzledSEL).isSome = true := by
      rw [← hruntime₁] at hswz
      exact Option.isSome_of_eq_some hswz
    exact Option.some.inj ((owner_of_own hown).symm.trans howner')
  have ho₂ : st₂.entryOf oriMethod = some o := by rw [entryOf, hsame.cells]; exact ho
  have he₂ : st₂.entryOf swizzledMethod = some e := by rw [entryOf, hsame₂.cells]; exact he
  refine halts_bind ((returns_methodGetImplementation he₂).halts
    (halts_bind ((returns_methodGetTypeEncoding ho₂).halts ?_)))
  cases hown : st.toRuntime.table cls oriSEL with
  | some o' =>
    -- the class has both methods: nothing is added, they are exchanged
    obtain rfl : o' = o := Option.some.inj ((Runtime.lookup_of_own hown).symm.trans hori)
    have hown₂ : st₂.table cls oriSEL = some o' := by rw [← hruntime] at hown; exact hown
    refine halts_bind ((h₂.returns_classAddMethod_of_own hcls₂ hown₂ o'.types).halts ?_)
    obtain rfl : cls = d := by
      have hsome : (st.table cls oriSEL).isSome = true := Option.isSome_of_eq_some hown
      exact Option.some.inj ((owner_of_own hsome).symm.trans howner)
    have hv₁ : firstMethod (st₂.methods cls).lists oriSEL = some oriMethod := by rw [hsame.methods]; exact hm₁
    have hv₂ : firstMethod (st₂.methods cls).lists swizzledSEL = some swizzledMethod := by
      rw [hsame₂.methods]
      exact hm₂
    obtain ⟨hhas₁, hname₁⟩ := hasMethod_of_first hv₁
    obtain ⟨hhas₂, hname₂⟩ := hasMethod_of_first hv₂
    dsimp only
    rw [if_neg Bool.false_ne_true]
    refine (h₂.halts_methodExchangeImplementations hhas₁ hhas₂ ho₂ he₂).mono ?_
    rintro st₃ ⟨h₃, hframe₃, -, hruntime₃⟩
    refine ⟨h₃, hsame.toFrame.trans hframe₃, ?_⟩
    rw [Swizzle.swizzling_own hown hswz, hruntime₃, setImplementation, setImplementation,
      if_pos (visible_of_first hv₁), if_pos (visible_of_first hv₂), hname₁, hname₂, hruntime]
    simp only [Runtime.methodExchangeImplementations, Runtime.methodGetImplementation, Runtime.entry,
      hown, hswz, Option.map_some, Option.bind_eq_bind, Option.bind_some, Option.pure_def]
  | none =>
    rw [Swizzle.swizzling_inherited hown hori hswz]
    have hne : swizzledSEL ≠ oriSEL := by
      rintro rfl
      rw [hown] at hswz
      cases hswz
    refine halts_bind (halts_bind ((h₂.halts_addMethod hcls₂ oriSEL e.imp o.types false).mono ?_))
    rintro ⟨st₃, old⟩ ⟨h₃, hframe₃, hruntime₃, hold, hkeep⟩
    have hcls₃ : st₃.classes.known cls = true := by rw [hframe₃.classes]; exact hcls₂
    have ho₃ : st₃.entryOf oriMethod = some o := hkeep rfl oriMethod o ho₂
    have hput : st₃.toRuntime = st.toRuntime.put cls oriSEL ⟨e.imp, o.types⟩ := by
      rw [hruntime₃, hruntime, if_neg Bool.false_ne_true, Runtime.classAddMethod, hown]
    obtain rfl : old = none := hold.trans (by rw [hruntime, hown]; rfl)
    refine halts_pure ?_
    dsimp only [Option.isNone_none]
    rw [if_pos rfl]
    refine halts_bind ((returns_methodGetImplementation ho₃).halts
      (halts_bind ((returns_methodGetTypeEncoding ho₃).halts ?_)))
    refine halts_bind ((h₃.halts_addMethod hcls₃ swizzledSEL o.imp o.types true).mono ?_)
    rintro ⟨st₄, old₄⟩ ⟨h₄, hframe₄, hruntime₄, -, -⟩
    refine halts_pure ⟨h₄, (hsame.toFrame.trans hframe₃).trans hframe₄, congrArg some ?_⟩
    have hswz₃ : st₃.toRuntime.table cls swizzledSEL = some e := by
      rw [hput, Runtime.put_table_of_sel_ne hne]
      exact hswz
    rw [hruntime₄, if_pos rfl, Runtime.classReplaceMethod, hswz₃, hput]

/-- **Messages after swizzling.**  In every state that the process can be in, the two selectors answer with
each other's implementation afterwards, and classes that do not inherit from the class answer as before. -/
theorem halts_messages_swizzled (h₀ : st₀.Loaded) (h : Reachable env st₀ st)
    (hcls : st.classes.known cls = true) (hori : (st.toRuntime.lookup cls oriSEL).isSome = true)
    (hswz : (st.toRuntime.table cls swizzledSEL).isSome = true) :
    Halts (st.qyAction1BetterMethodSwizzling env cls oriSEL swizzledSEL) fun st' =>
      (Halts (st'.objcMsgSend env oriSEL cls) fun r => r.2 = st.toRuntime.lookupImp cls swizzledSEL) ∧
      (Halts (st'.objcMsgSend env swizzledSEL cls) fun r => r.2 = st.toRuntime.lookupImp cls oriSEL) ∧
      ∀ d sel, st.classes.known d = true → cls ∉ st.classes.line d →
        (st.toRuntime.lookup d sel).isSome = true →
        Halts (st'.objcMsgSend env sel d) fun r => r.2 = st.toRuntime.lookupImp d sel := by
  obtain ⟨e, he⟩ := Option.isSome_iff_exists.mp hswz
  obtain ⟨o, ho⟩ := Option.isSome_iff_exists.mp hori
  refine ((h.inv h₀).halts_swizzling hcls ho he).mono ?_
  rintro st' ⟨hinv, hframe, hrun⟩
  obtain ⟨rt', hrun', hswapped⟩ := Swizzle.exists_swapped ho he
  obtain rfl := Option.some.inj (hrun.symm.trans hrun')
  have hcls' : st'.classes.known cls = true := by rw [hframe.classes]; exact hcls
  have hori' : st.toRuntime.lookupImp cls oriSEL = some o.imp := by rw [Runtime.lookupImp, ho]; rfl
  have hswz' : st.toRuntime.lookupImp cls swizzledSEL = some e.imp := by
    rw [Runtime.lookupImp, Runtime.lookup_of_own he]
    rfl
  refine ⟨?_, ?_, fun d sel hd hline hfound => ?_⟩
  · rw [hswz']
    exact hinv.halts_objcMsgSend_of_found hcls'
      (by rw [Runtime.lookupImp, Runtime.lookup_of_own hswapped.ori]; rfl)
  · rw [hori']
    exact hinv.halts_objcMsgSend_of_found hcls'
      (by rw [Runtime.lookupImp, Runtime.lookup_of_own hswapped.swizzled]; rfl)
  · obtain ⟨f, hf⟩ := Option.isSome_iff_exists.mp hfound
    have hlookup : st'.toRuntime.lookup d sel = some f := (hswapped.lookup_eq hline sel).trans hf
    have hold : st.toRuntime.lookupImp d sel = some f.imp := by rw [Runtime.lookupImp, hf]; rfl
    rw [hold]
    exact hinv.halts_objcMsgSend_of_found (by rw [hframe.classes]; exact hd)
      (by rw [Runtime.lookupImp, hlookup]; rfl)

end Calls

/-! ### A class with both methods -/

/-- The root class with two instance methods, which are exchanged. -/
def swizzleObjc : Objc Bool ℕ ℕ :=
  { rootObjc with
    methods := fun c => if c then .list none else .list (some ⟨true, true, false, [⟨5, 0⟩, ⟨6, 1⟩]⟩)
    cells := [⟨7, "v16@0:8"⟩, ⟨8, "v16@0:8"⟩] }

theorem loaded_swizzleObjc : swizzleObjc.Loaded where
  lists := by
    refine ⟨?_, ?_, ?_⟩
    · intro cls mlist h
      cases cls <;> simp_all [swizzleObjc, ListArray.lists, MethodList.Sorted]
    · intro cls mlist h m hm
      cases cls <;> simp_all [swizzleObjc, ListArray.lists]
      rcases hm with rfl | rfl <;> simp
    · intro cls mlist h m hm cls' mlist' h' m' hm' _
      cases cls <;> cases cls' <;> simp_all [swizzleObjc, ListArray.lists]
      rcases hm with rfl | rfl <;> rcases hm' with rfl | rfl <;> simp_all
  classes := by
    have hframe : Frame rootObjc swizzleObjc := ⟨rfl, rfl, rfl, rfl, fun _ h => h⟩
    exact hframe.wfClasses loaded_rootObjc.classes
  caches := fun _ => rfl

theorem halts_messages_swizzled_swizzleObjc :
    Halts (swizzleObjc.qyAction1BetterMethodSwizzling rootEnv false 5 6) fun st' =>
    Halts (st'.objcMsgSend rootEnv 5 false) fun r => r.2 = some 8 := by
  refine (halts_messages_swizzled loaded_swizzleObjc .loaded rfl (by decide) (by decide)).mono ?_
  rintro st' ⟨h, -⟩
  exact h.mono fun r hr => hr.trans (by decide)

end Objc

end QYInterview.ObjC
