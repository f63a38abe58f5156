import QYInterview.ObjC.MessengerEdits

/-!
# ObjC.MessengerRuns — every message gets what the method tables say

Resolution of messages that are not found, `class_getInstanceMethod`, and whole runs of a process from when
its images are loaded: messages, lookups, added, replaced, exchanged and attached methods and new classes,
in any order.  A step never ends in one of the runtime's fatal errors, a message is answered by what the
tables of `Runtime` say at that moment, whatever was cached before, and every change does to those tables
what `Runtime` says (`halts_step_of_reachable`).
-/

namespace QYInterview.ObjC

open RunLogic Dispatch Cache

namespace Objc

variable {κ ς ι : Type} [DecidableEq κ] [LinearOrder ς] [DecidableEq ι] (env : Env κ ς ι)
    {st st' st₀ : Objc κ ς ι}
  {cls : κ} {sel : ς}

/-! ## What a resolver does to the tables -/

/-- The methods added one after another, unless the class has one already. -/
def addAll (rt : Runtime κ ς ι) (cls : κ) (ms : List (ς × ι × String)) : Runtime κ ς ι :=
  ms.foldl (fun rt m => (rt.classAddMethod cls m.1 m.2.1 m.2.2).2) rt

/-- The receiver's implementation of the resolver, if it has one, adds its methods. -/
def resolved (rt : Runtime κ ς ι) (resolveSel : ς) (receiver cls : κ) (sel : ς) : Runtime κ ς ι :=
  match rt.lookupImp receiver resolveSel with
  | some imp => addAll rt cls (env.resolver imp cls sel)
  | none => rt

/-- A class is asked for an instance method; a metaclass for a class method, and if there is still none for an
instance method. -/
def resolvedMethod (isMeta : κ → Bool) (isa : κ → κ) (rt : Runtime κ ς ι) (sel : ς) (cls : κ) :
    Runtime κ ς ι :=
  if isMeta cls = false then resolved env rt env.resolveInstanceSel (isa cls) cls sel
  else
    let rt := resolved env rt env.resolveClassSel cls cls sel
    match rt.lookupImp cls sel with
    | some _ => rt
    | none => resolved env rt env.resolveInstanceSel (isa cls) cls sel

/-- A lookup that may get to the resolver does, if the method is not cached and not found. -/
def looked (st : Objc κ ς ι) (sel : ς) (cls : κ) (cached : Bool) : Runtime κ ς ι :=
  if cached = true ∨ (st.toRuntime.lookupImp cls sel).isSome = true then st.toRuntime
  else resolvedMethod env st.isMeta st.isa st.toRuntime sel cls

/-! ## The code -/

/-- One turn of the loop of `getMethod_nolock`. -/
def getMethodTurn (st : Objc κ ς ι) (sel : ς) : Option κ → Prog (Turn (Option κ) (Option (MethodT ς)))
  | none => pure (.exit none)
  | some cls => do
    match ← getMethodNoSuper (st.methods cls) sel with
    | some m => pure (.exit (some m))
    | none => pure (.next (st.classes.super cls))

/-- `getMethod_nolock` -/
def getMethod (st : Objc κ ς ι) (cls : κ) (sel : ς) : Prog (Option (MethodT ς)) :=
  loop (getMethodTurn st sel) (some cls)

/-- `class_getInstanceMethod` -/
def classGetInstanceMethod (st : Objc κ ς ι) (cls : κ) (sel : ς) :
    Prog (Objc κ ς ι × Option (MethodT ς)) := do
  let (st, _) ← st.lookUpImpOrForward env (fun st behavior => st.resolveMethod env sel cls behavior) sel cls
    ⟨false, true, false, false⟩
  let m ← st.getMethod cls sel
  pure (st, m)

/-- The calls into the runtime. -/
inductive Action (κ ς ι : Type)
  | objcMsgSend (cls : κ) (sel : ς)
  | classGetInstanceMethod (cls : κ) (sel : ς)
  | classAddMethod (cls : κ) (name : ς) (imp : ι) (types : String)
  | classReplaceMethod (cls : κ) (name : ς) (imp : ι) (types : String)
  | methodSetImplementation (m : MethodT ς) (imp : ι)
  | methodExchangeImplementations (m₁ m₂ : MethodT ς)
  | attachCategories (cls : κ) (cats : List (Option (MethodList ς))) (extra : List (Entry ι))
  | objcAllocateClassPair (superclass name metacls : κ)

/-- What a call returns. -/
inductive Answer (ς ι : Type)
  | imp (imp : Option ι)
  | method (m : Option (MethodT ς))
  | bool (b : Bool)
  | void

/-- One call. -/
def step (st : Objc κ ς ι) : Action κ ς ι → Prog (Objc κ ς ι × Answer ς ι)
  | .objcMsgSend cls sel => do
    let (st, imp) ← st.objcMsgSend env sel cls
    pure (st, .imp imp)
  | .classGetInstanceMethod cls sel => do
    let (st, m) ← st.classGetInstanceMethod env cls sel
    pure (st, .method m)
  | .classAddMethod cls name imp types => do
    let (st, added) ← st.classAddMethod env cls name imp types
    pure (st, .bool added)
  | .classReplaceMethod cls name imp types => do
    let (st, old) ← st.addMethod env cls name imp types true
    pure (st, .imp old)
  | .methodSetImplementation m imp => do
    let (st, old) ← st.methodSetImplementation env none m imp
    pure (st, .imp (some old))
  | .methodExchangeImplementations m₁ m₂ => do
    let st ← st.methodExchangeImplementations env m₁ m₂
    pure (st, .void)
  | .attachCategories cls cats extra => do
    let st ← st.attachCategories cls cats extra
    pure (st, .void)
  | .objcAllocateClassPair superclass name metacls =>
    match st.objcAllocateClassPair superclass name metacls with
    | some st => pure (st, .bool true)
    | none => pure (st, .bool false)

/-! ## Resolving -/

section Resolve

variable {env} {resolveSel : ς} {receiver : κ} {imp : ι}

theorem Inv.halts_runResolver (h : st.Inv env) (hreceiver : st.classes.known receiver = true)
    (hcls : st.classes.known cls = true) (himp : st.toRuntime.lookupImp receiver resolveSel = some imp) :
    Halts (st.runResolver env resolveSel receiver cls sel) fun st' => st'.Inv env ∧ Frame st st' ∧
      st'.toRuntime = addAll st.toRuntime cls (env.resolver imp cls sel) := by
  rw [runResolver]
  refine halts_bind (h.halts_msgLookup hreceiver (fun st' hinv hsame _ _ => ?_) fun _ hnone => ?_)
  · simp only [himp]
    refine halts_forEach (fun done s => s.Inv env ∧ Frame st s ∧ s.toRuntime = addAll st.toRuntime cls done)
      ?_ ⟨hinv, hsame.toFrame, hsame.toRuntime⟩
    rintro done m _ s - ⟨hs, hframe, hruntime⟩
    refine halts_bind (halts_bind ((hs.halts_addMethod (by rw [hframe.classes]; exact hcls) m.1 m.2.1 m.2.2
      false).mono ?_))
    rintro r ⟨hr, hframe', hruntime', -, -⟩
    refine halts_pure (halts_pure ⟨hr, hframe.trans hframe', ?_⟩)
    rw [hruntime', hruntime, addAll, addAll, List.foldl_append]
    rfl
  · rw [himp] at hnone
    cases hnone

theorem Inv.halts_resolveWith (h : st.Inv env) (hreceiver : st.classes.known receiver = true)
    (hcls : st.classes.known cls = true) :
    Halts (st.resolveWith env resolveSel receiver cls sel) fun st' => st'.Inv env ∧ Frame st st' ∧
      st'.toRuntime = resolved env st.toRuntime resolveSel receiver cls sel := by
  rw [resolveWith]
  refine halts_bind ((h.halts_lookUpNoResolver hreceiver rfl).mono ?_)
  rintro ⟨st₁, r⟩ ⟨hinv, hsame, hr, -⟩
  change r = answer true _ at hr
  cases hlookup : st.toRuntime.lookupImp receiver resolveSel with
  | none =>
    rw [hlookup] at hr
    subst hr
    refine halts_pure ⟨hinv, hsame.toFrame, ?_⟩
    rw [resolved, hlookup, hsame.toRuntime]
  | some imp =>
    rw [hlookup] at hr
    subst hr
    have hclasses : st₁.classes = st.classes := hsame.classes
    have hruntime : st₁.toRuntime = st.toRuntime := hsame.toRuntime
    refine halts_bind ((hinv.halts_runResolver (hclasses ▸ hreceiver) (hclasses ▸ hcls)
      (by rw [hruntime]; exact hlookup)).mono ?_)
    rintro st₂ ⟨hinv₂, hframe₂, hruntime₂⟩
    have hknown : st₂.classes.known cls = true := by rw [hframe₂.classes, hclasses]; exact hcls
    refine halts_bind ((hinv₂.halts_lookUpNoResolver hknown rfl).mono ?_)
    rintro ⟨st₃, r₃⟩ ⟨hinv₃, hsame₃, -⟩
    refine halts_pure ⟨hinv₃, (hsame.toFrame.trans hframe₂).trans hsame₃.toFrame, ?_⟩
    rw [hsame₃.toRuntime, hruntime₂, hruntime, resolved, hlookup]

theorem Inv.halts_resolveMethod (h : st.Inv env) (hcls : st.classes.known cls = true) {behavior : Behavior}
    (hres : behavior.lookupResolver = false) :
    Halts (st.resolveMethod env sel cls behavior) fun r => r.1.Inv env ∧ Frame st r.1 ∧
      r.1.toRuntime = resolvedMethod env st.isMeta st.isa st.toRuntime sel cls ∧
      r.2 = answer behavior.lookupNil (r.1.toRuntime.lookupImp cls sel) ∧
      (st.isInitialized cls = true → behavior.lookupNocache = false → r.1.Cached cls sel) := by
  have hlast : ∀ st', st'.Inv env → Frame st st' →
      st'.toRuntime = resolvedMethod env st.isMeta st.isa st.toRuntime sel cls →
      Halts (st'.lookUpImpTryCache env noResolver sel cls behavior) fun r => r.1.Inv env ∧ Frame st r.1 ∧
        r.1.toRuntime = resolvedMethod env st.isMeta st.isa st.toRuntime sel cls ∧
        r.2 = answer behavior.lookupNil (r.1.toRuntime.lookupImp cls sel) ∧
        (st.isInitialized cls = true → behavior.lookupNocache = false → r.1.Cached cls sel) := by
    intro st' hinv hframe hruntime
    refine (hinv.halts_lookUpNoResolver (by rw [hframe.classes]; exact hcls) hres).mono ?_
    rintro r ⟨hr, hsame, hanswer, hcached⟩
    exact ⟨hr, hframe.trans hsame.toFrame, hsame.toRuntime.trans hruntime, by rw [hanswer, hsame.toRuntime],
      fun hinit => hcached (hframe.initialized cls hinit)⟩
  rw [resolveMethod]
  by_cases hmeta : st.isMeta cls = false
  · rw [if_pos hmeta]
    refine halts_bind ((h.halts_resolveWith (h.classes.isa cls hcls) hcls).mono ?_)
    rintro st' ⟨hinv, hframe, hruntime⟩
    exact hlast st' hinv hframe (by rw [hruntime, resolvedMethod, if_pos hmeta])
  · rw [if_neg hmeta]
    refine halts_bind ((h.halts_resolveWith hcls hcls).mono ?_)
    rintro st₁ ⟨hinv₁, hframe₁, hruntime₁⟩
    have hcls₁ : st₁.classes.known cls = true := by rw [hframe₁.classes]; exact hcls
    refine halts_bind ((hinv₁.halts_lookUpNoResolver hcls₁ rfl).mono ?_)
    rintro ⟨st₂, r₂⟩ ⟨hinv₂, hsame₂, hr₂, -⟩
    change r₂ = answer true _ at hr₂
    have hruntime₂ : st₂.toRuntime = resolved env st.toRuntime env.resolveClassSel cls cls sel :=
      hsame₂.toRuntime.trans hruntime₁
    have hframe₂ : Frame st st₂ := hframe₁.trans hsame₂.toFrame
    cases hlookup : st₁.toRuntime.lookupImp cls sel with
    | some imp =>
      rw [hlookup] at hr₂
      subst hr₂
      refine halts_bind (halts_pure (hlast st₂ hinv₂ hframe₂ ?_))
      rw [hruntime₂, resolvedMethod, if_neg hmeta, ← hruntime₁]
      simp only [hlookup]
    | none =>
      rw [hlookup] at hr₂
      subst hr₂
      have hisa : st₂.classes.known (st₂.isa cls) = true := by
        rw [hframe₂.classes, hframe₂.isa]
        exact h.classes.isa cls hcls
      refine halts_bind ((hinv₂.halts_resolveWith hisa (by rw [hframe₂.classes]; exact hcls)).mono ?_)
      rintro st₃ ⟨hinv₃, hframe₃, hruntime₃⟩
      refine hlast st₃ hinv₃ (hframe₂.trans hframe₃) ?_
      rw [hruntime₃, hruntime₂, hframe₂.isa, resolvedMethod, if_neg hmeta, ← hruntime₁]
      simp only [hlookup]

/-- **Messages.**  A message gets what the tables say when it is answered, and an initialized class has it
cached then. -/
theorem Inv.halts_objcMsgSend (h : st.Inv env) (hcls : st.classes.known cls = true) :
    Halts (st.objcMsgSend env sel cls) fun r => r.1.Inv env ∧ Frame st r.1 ∧
      r.1.toRuntime = looked env st sel cls ((st.cache cls).find sel).isSome ∧
      r.2 = r.1.toRuntime.lookupImp cls sel ∧
      (st.isInitialized cls = true → r.1.Cached cls sel) := by
  refine h.halts_msgLookup hcls (fun st' hinv hsame hcached hknown => ?_)
    fun hfind hnone st' b hinv hsame hnil hres hcache => ?_
  · refine ⟨hinv, hsame.toFrame, ?_, by rw [hsame.toRuntime], hcached⟩
    rw [looked, if_pos hknown, hsame.toRuntime]
  · refine (hinv.halts_resolveMethod (by rw [hsame.classes]; exact hcls) hres).mono ?_
    rintro r ⟨hr, hframe, hruntime, hanswer, hcached⟩
    rw [hnil, answer_false] at hanswer
    refine ⟨_, hanswer, hr, hsame.toFrame.trans hframe, ?_, rfl, fun hinit => ?_⟩
    · rw [hruntime, hsame.isMeta, hsame.isa, hsame.toRuntime, looked, if_neg (by simp [hfind, hnone])]
    · exact hcached (hsame.initialized cls hinit) (hcache hinit)

/-- A message that is cached is answered from the cache, and changes nothing. -/
theorem Inv.returns_objcMsgSend_of_cached (h : st.Inv env) (hcached : st.Cached cls sel) :
    Returns (st.objcMsgSend env sel cls) (st, st.toRuntime.lookupImp cls sel) := by
  have hget : Returns _ ((st.cache cls).find sel) := (h.caches cls).returns_cacheGetImp
  rw [hcached] at hget
  exact returns_bind hget (returns_pure _)

omit [DecidableEq κ] [DecidableEq ι] in
/-- The method of the nearest class that has one. -/
theorem Inv.returns_getMethod (h : st.Inv env) : Returns (st.getMethod cls sel)
    ((st.toRuntime.classGetInstanceMethod cls sel).bind fun m =>
      firstMethod (st.methods m.cls).lists sel) := by
  have hown : ∀ cls m, firstMethod (st.methods cls).lists sel = some m →
      (st.toRuntime.classGetInstanceMethod cls sel).bind (fun m => firstMethod (st.methods m.cls).lists sel) =
        some m := by
    intro cls m hm
    obtain ⟨e, -, htable⟩ := h.lists.exists_entry hm
    rw [Runtime.getInstanceMethod_of_own (show st.toRuntime.table cls sel = some e from htable),
      Option.bind_some]
    exact hm
  have hline : ∀ cls, firstMethod (st.methods cls).lists sel = none → owner st.classes st.table sel cls =
      match st.classes.super cls with
      | some d => owner st.classes st.table sel d
      | none => none := by
    intro cls hm
    have hisSome := h.lists.table_isSome cls sel
    rw [hm] at hisSome
    cases hs : st.classes.super cls with
    | none =>
      rw [owner, Hierarchy.line_of_top hs, List.find?_cons_of_neg (by rw [hisSome]; exact Bool.false_ne_true)]
      rfl
    | some d =>
      rw [owner, Hierarchy.line_of_super hs,
        List.find?_cons_of_neg (by rw [hisSome]; exact Bool.false_ne_true)]
      rfl
  have hturn : ∀ cls, Returns (getMethodTurn st sel (some cls))
    (match firstMethod (st.methods cls).lists sel with
      | some m => .exit (some m)
      | none => .next (st.classes.super cls)) := by
    intro cls
    refine returns_bind (returns_getMethodNoSuper sel (h.lists.sorted cls)) ?_
    cases firstMethod (st.methods cls).lists sel with
    | some m => exact returns_pure _
    | none => exact returns_pure _
  have key : ∀ cls, LoopReturns (getMethodTurn st sel) (some cls)
      ((st.toRuntime.classGetInstanceMethod cls sel).bind fun m =>
        firstMethod (st.methods m.cls).lists sel) := by
    intro cls
    induction cls using st.classes.super_induction with
    | htop cls hs =>
      have hreturns := hturn cls
      cases hm : firstMethod (st.methods cls).lists sel with
      | some m =>
        rw [hm] at hreturns
        rw [hown cls m hm]
        exact loopReturns_exit hreturns
      | none =>
        rw [hm, hs] at hreturns
        have howner := hline cls hm
        rw [hs] at howner
        rw [Runtime.classGetInstanceMethod,
          show owner st.toRuntime.classes st.toRuntime.table sel cls = none from howner]
        exact loopReturns_next hreturns (loopReturns_exit (returns_pure _))
    | hsuper cls d hs ih =>
      have hreturns := hturn cls
      cases hm : firstMethod (st.methods cls).lists sel with
      | some m =>
        rw [hm] at hreturns
        rw [hown cls m hm]
        exact loopReturns_exit hreturns
      | none =>
        rw [hm, hs] at hreturns
        have howner := hline cls hm
        rw [hs] at howner
        rw [Runtime.classGetInstanceMethod, show owner st.toRuntime.classes st.toRuntime.table sel cls =
          owner st.toRuntime.classes st.toRuntime.table sel d from howner]
        exact loopReturns_next hreturns ih
  exact (key cls).returns

/-- **Methods.**  `class_getInstanceMethod` returns the method that a message to an instance would reach. -/
theorem Inv.halts_classGetInstanceMethod (h : st.Inv env) (hcls : st.classes.known cls = true) :
    Halts (st.classGetInstanceMethod env cls sel) fun r => r.1.Inv env ∧ Frame st r.1 ∧
      r.1.toRuntime = looked env st sel cls false ∧
      (r.2 = (r.1.toRuntime.classGetInstanceMethod cls sel).bind fun m =>
        firstMethod (r.1.methods m.cls).lists sel) ∧
      ((st.toRuntime.lookupImp cls sel).isSome = true → Same st r.1) := by
  have hlook : Halts (st.lookUpImpOrForward env
      (fun st behavior => st.resolveMethod env sel cls behavior) sel cls ⟨false, true, false, false⟩)
      fun r => r.1.Inv env ∧ Frame st r.1 ∧
        r.1.toRuntime = looked env st sel cls false ∧
        ((st.toRuntime.lookupImp cls sel).isSome = true → Same st r.1) := by
    refine h.halts_lookUp hcls (fun st' hinv hsame _ hsome => ⟨hinv, hsame.toFrame, ?_, fun _ => hsame⟩)
      fun hnone _ st' b hinv hsame _ hres _ => ?_
    · rw [looked, if_pos (Or.inr (hsome rfl)), hsame.toRuntime]
    · refine (hinv.halts_resolveMethod (by rw [hsame.classes]; exact hcls) hres).mono ?_
      rintro r ⟨hr, hframe, hruntime, -⟩
      refine ⟨hr, hsame.toFrame.trans hframe, ?_, fun hsome => by rw [hnone] at hsome; cases hsome⟩
      rw [hruntime, hsame.isMeta, hsame.isa, hsame.toRuntime, looked, if_neg (by simp [hnone])]
  refine halts_bind (hlook.mono ?_)
  rintro ⟨st', r⟩ ⟨hinv, hframe, hlooked, hsame⟩
  exact halts_bind (hinv.returns_getMethod.halts (halts_pure ⟨hinv, hframe, hlooked, rfl, hsame⟩))

end Resolve

/-! ## Runs -/

/-- A call that the process can make: of classes it knows, with methods it has. -/
def Valid (st : Objc κ ς ι) : Action κ ς ι → Prop
  | .objcMsgSend cls _ => st.classes.known cls = true
  | .classGetInstanceMethod cls _ => st.classes.known cls = true
  | .classAddMethod cls _ _ _ => st.classes.known cls = true
  | .classReplaceMethod cls _ _ _ => st.classes.known cls = true
  | .methodSetImplementation m _ => ∃ d, st.HasMethod d m
  | .methodExchangeImplementations m₁ m₂ => (∃ d, st.HasMethod d m₁) ∧ ∃ d, st.HasMethod d m₂
  | .attachCategories _ cats extra => st.CategoriesOk cats extra
  | .objcAllocateClassPair _ _ _ => True

/-- What a call does to the tables and what it returns, when it is made in `st` and leaves `st'`. -/
def Effect (st : Objc κ ς ι) (st' : Objc κ ς ι) (answer : Answer ς ι) : Action κ ς ι → Prop
  | .objcMsgSend cls sel => st'.toRuntime = looked env st sel cls ((st.cache cls).find sel).isSome ∧
      answer = .imp (st'.toRuntime.lookupImp cls sel)
  | .classGetInstanceMethod cls sel => st'.toRuntime = looked env st sel cls false ∧
      answer = .method ((st'.toRuntime.classGetInstanceMethod cls sel).bind fun m =>
        firstMethod (st'.methods m.cls).lists sel)
  | .classAddMethod cls name imp types =>
      st'.toRuntime = (st.toRuntime.classAddMethod cls name imp types).2 ∧
        answer = .bool (st.toRuntime.classAddMethod cls name imp types).1
  | .classReplaceMethod cls name imp types =>
      st'.toRuntime = st.toRuntime.classReplaceMethod cls name imp types ∧
        answer = .imp ((st.toRuntime.table cls name).map Entry.imp)
  | .methodSetImplementation m imp => ∃ d, st.HasMethod d m ∧
      st'.toRuntime = st.setImplementation st.toRuntime d m imp ∧ answer = .imp ((st.entryOf m).map Entry.imp)
  | .methodExchangeImplementations m₁ m₂ => ∃ d₁ d₂ e₁ e₂, st.HasMethod d₁ m₁ ∧ st.HasMethod d₂ m₂ ∧
      st.entryOf m₁ = some e₁ ∧ st.entryOf m₂ = some e₂ ∧
      st'.toRuntime = st.setImplementation (st.setImplementation st.toRuntime d₁ m₁ e₂.imp) d₂ m₂ e₁.imp
  | .attachCategories cls cats extra => st'.toRuntime = attachTable st.toRuntime cls fun sel =>
      (firstMethod cats.reduceOption.reverse sel).bind fun m => (st.cells ++ extra)[m.cell]?
  | .objcAllocateClassPair superclass name metacls =>
      match (st.toRuntime.objcAllocateClassPair superclass name).bind
        (·.objcAllocateClassPair (st.isa superclass) metacls) with
      | some rt => st'.toRuntime = rt ∧ answer = .bool true
      | none => st' = st ∧ answer = .bool false

/-- The images are loaded and nothing has been cached yet. -/
structure Loaded (st : Objc κ ς ι) : Prop where
  lists : st.WfLists
  classes : st.WfClasses
  caches : ∀ cls, st.cache cls = initializeToEmpty

/-- The states of the process after calls that it could make, in any order. -/
inductive Reachable (st₀ : Objc κ ς ι) : Objc κ ς ι → Prop
  | loaded : Reachable st₀ st₀
  | call {st st' : Objc κ ς ι} {act : Action κ ς ι} {answer : Answer ς ι} (h : Reachable st₀ st)
      (hvalid : st.Valid act) (hreturns : Returns (step env st act) (st', answer)) :
      Reachable st₀ st'

section Runs

variable {env} {act : Action κ ς ι} {answer : Answer ς ι}

omit [DecidableEq κ] [DecidableEq ι] in
theorem Loaded.inv (h : st.Loaded) : st.Inv env where
  lists := h.lists
  classes := h.classes
  caches cls := h.caches cls ▸ isMemo_initializeToEmpty
  coherent := by
    intro cls _ sel imp himp
    rw [h.caches cls] at himp
    cases himp

/-- A call keeps the invariant, and does what it says. -/
theorem Inv.halts_step (h : st.Inv env) (hvalid : st.Valid act) :
    Halts (step env st act) fun r => r.1.Inv env ∧ Effect env st r.1 r.2 act := by
  cases act with
  | objcMsgSend cls sel =>
    refine halts_bind ((h.halts_objcMsgSend hvalid).mono ?_)
    rintro r ⟨hinv, -, hlooked, hanswer, -⟩
    exact halts_pure ⟨hinv, hlooked, congrArg Answer.imp hanswer⟩
  | classGetInstanceMethod cls sel =>
    refine halts_bind ((h.halts_classGetInstanceMethod hvalid).mono ?_)
    rintro r ⟨hinv, -, hlooked, hanswer, -⟩
    exact halts_pure ⟨hinv, hlooked, congrArg Answer.method hanswer⟩
  | classAddMethod cls name imp types =>
    refine halts_bind (halts_bind ((h.halts_addMethod hvalid name imp types false).mono ?_))
    rintro r ⟨hinv, -, hruntime, hold, -⟩
    refine halts_pure (halts_pure ⟨hinv, hruntime, congrArg Answer.bool ?_⟩)
    show r.2.isNone = _
    rw [hold, Runtime.classAddMethod]
    cases st.toRuntime.table cls name <;> rfl
  | classReplaceMethod cls name imp types =>
    refine halts_bind ((h.halts_addMethod hvalid name imp types true).mono ?_)
    rintro r ⟨hinv, -, hruntime, hold, -⟩
    exact halts_pure ⟨hinv, hruntime, congrArg Answer.imp hold⟩
  | methodSetImplementation m imp =>
    obtain ⟨d, hm⟩ := hvalid
    obtain ⟨e, he⟩ := h.lists.exists_entryOf hm
    refine halts_bind ((h.halts_methodSetImplementation hm he none (by simp) imp).mono ?_)
    rintro r ⟨hinv, -, -, hruntime, hold⟩
    exact halts_pure ⟨hinv, d, hm, hruntime, by rw [he, hold]; rfl⟩
  | methodExchangeImplementations m₁ m₂ =>
    obtain ⟨⟨d₁, hm₁⟩, d₂, hm₂⟩ := hvalid
    obtain ⟨e₁, he₁⟩ := h.lists.exists_entryOf hm₁
    obtain ⟨e₂, he₂⟩ := h.lists.exists_entryOf hm₂
    refine halts_bind ((h.halts_methodExchangeImplementations hm₁ hm₂ he₁ he₂).mono ?_)
    rintro st' ⟨hinv, -, -, hruntime⟩
    exact halts_pure ⟨hinv, d₁, d₂, e₁, e₂, hm₁, hm₂, he₁, he₂, hruntime⟩
  | attachCategories cls cats extra =>
    refine halts_bind ((h.halts_attachCategories hvalid).mono ?_)
    rintro st' ⟨hinv, -, hruntime⟩
    exact halts_pure ⟨hinv, hruntime⟩
  | objcAllocateClassPair superclass name metacls =>
    rw [step]
    cases hst : st.objcAllocateClassPair superclass name metacls with
    | some st' =>
      obtain ⟨hinv, -, hruntime⟩ := h.objcAllocateClassPair hst
      refine halts_pure ⟨hinv, ?_⟩
      rw [Effect, hruntime]
      exact ⟨rfl, rfl⟩
    | none =>
      refine halts_pure ⟨h, ?_⟩
      rw [Effect, allocate_eq_none hst]
      exact ⟨rfl, rfl⟩

theorem Reachable.inv (h₀ : st₀.Loaded) (h : Reachable env st₀ st) : st.Inv env := by
  induction h with
  | loaded => exact h₀.inv
  | call _ hvalid hreturns ih =>
    obtain ⟨r, hr, hinv, -⟩ := ih.halts_step hvalid
    obtain rfl := hr.unique hreturns
    exact hinv

/-- **Coherence.**  After any calls in any order, a further call returns, a message is answered by what the
method tables say at that moment, and every change does to the tables what the
runtime's documentation says. -/
theorem halts_step_of_reachable (h₀ : st₀.Loaded) (h : Reachable env st₀ st) (hvalid : st.Valid act) :
    Halts (step env st act) fun r => Effect env st r.1 r.2 act :=
  ((h.inv h₀).halts_step hvalid).mono fun _ hr => hr.2

/-! ### A root class -/

/-- `NSObject` is `false`, its metaclass `true`; it is initialized and has `+resolveInstanceMethod:`,
selector 0. -/
def rootObjc : Objc Bool ℕ ℕ where
  classes :=
    { known := fun _ => true
      super := fun c => if c then some false else none
      depth := fun c => if c then 1 else 0
      known_super := fun _ _ _ => ⟨rfl, rfl⟩
      depth_super := by intro c d h; cases c <;> cases h; decide }
  realized := [false, true]
  isa := fun _ => true
  isMeta := fun c => c
  initialized := fun c => c
  methods := fun c => if c then .list (some ⟨true, true, false, [⟨0, 0⟩]⟩) else .list none
  cells := [⟨7, "B24@0:8:16"⟩]
  cache := fun _ => initializeToEmpty

/-- Its `+resolveInstanceMethod:` adds a method for every selector that it is asked for. -/
def rootEnv : Env Bool ℕ ℕ where
  arch := .x86_64
  value := fun sel => sel
  resolveInstanceSel := 0
  resolveClassSel := 1
  resolver := fun _ _ sel => [(sel, 8, "v16@0:8")]

theorem loaded_rootObjc : rootObjc.Loaded where
  lists := by
    refine ⟨?_, ?_, ?_⟩
    · intro cls mlist h
      cases cls <;> simp_all [rootObjc, ListArray.lists, MethodList.Sorted]
    · intro cls mlist h m hm
      cases cls <;> simp_all [rootObjc, ListArray.lists]
    · intro cls mlist h m hm cls' mlist' h' m' hm' _
      cases cls <;> cases cls' <;> simp_all [rootObjc, ListArray.lists]
  classes := by
    refine ⟨?_, ?_, ?_, ?_⟩
    · intro cls
      cases cls <;> simp [rootObjc]
    · decide
    · exact fun _ _ => rfl
    · intro cls _
      cases cls <;> decide
  caches := fun _ => rfl

/-- A message that the resolver answers. -/
theorem halts_step_of_reachable_rootObjc : Halts (step rootEnv rootObjc (.objcMsgSend false 5)) fun r =>
    Effect rootEnv rootObjc r.1 r.2 (.objcMsgSend false 5) :=
  halts_step_of_reachable loaded_rootObjc .loaded rfl

/-- **Caching.**  A message to an initialized class is cached, good or bad: sent again, it gets the same
answer and nothing is changed, so no resolver is asked a second time. -/
theorem halts_objcMsgSend_twice (h₀ : st₀.Loaded) (h : Reachable env st₀ st)
    (hcls : st.classes.known cls = true) (hinit : st.isInitialized cls = true) :
    Halts (st.objcMsgSend env sel cls) fun r => Returns (r.1.objcMsgSend env sel cls) r := by
  refine ((h.inv h₀).halts_objcMsgSend hcls).mono ?_
  rintro ⟨st', imp⟩ ⟨hinv, -, -, hanswer, hcached⟩
  obtain rfl : imp = st'.toRuntime.lookupImp cls sel := hanswer
  exact hinv.returns_objcMsgSend_of_cached (hcached hinit)

theorem halts_objcMsgSend_twice_rootObjc :
    Halts (rootObjc.objcMsgSend rootEnv 5 false) fun r => Returns (r.1.objcMsgSend rootEnv 5 false) r :=
  halts_objcMsgSend_twice loaded_rootObjc .loaded rfl rfl

end Runs

end Objc

end QYInterview.ObjC
