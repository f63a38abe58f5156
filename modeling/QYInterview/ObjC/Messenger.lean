import QYInterview.ObjC.CacheMemo
import QYInterview.ObjC.MethodLists

/-!
# ObjC.Messenger — message lookup with caches

`objc_msgSend` and `lookUpImpOrForward` of `objc-runtime-new.mm`: every class has its method lists and a
cache of its own, which a lookup reads, also those of the superclasses, and fills.  What is not found goes
to the dynamic method resolvers once, and is then cached as `_objc_msgForward_impcache`.  Nothing is cached
for a class that is not initialized.

The caches are `Coherent`: what a cache of a class has for a selector is what the method lists of the class
and its superclasses say.  Lookups keep them so and answer what the lists say (`halts_lookUpNoResolver`,
`halts_msgSend`).
-/

namespace QYInterview.ObjC

open RunLogic Dispatch Cache

/-- What the process fixes: the architecture, the hashed addresses of selectors, the selectors of the
resolvers, and the methods that the implementation of a resolver adds to a class when
it is asked for a selector. -/
structure Env (κ ς ι : Type) where
  arch : Arch
  value : ς → ℕ
  resolveInstanceSel : ς
  resolveClassSel : ς
  resolver : ι → κ → ς → List (ς × ι × String)

/-- The classes, metaclasses among them, with their methods and caches.  `initialized` is kept in the
metaclass, `cells` are the encodings and implementations of the methods.  A cache holds `none` for
`_objc_msgForward_impcache`. -/
structure Objc (κ ς ι : Type) where
  classes : Hierarchy κ
  realized : List κ
  isa : κ → κ
  isMeta : κ → Bool
  initialized : κ → Bool
  methods : κ → ListArray (MethodList ς)
  cells : List (Entry ι)
  cache : κ → Cache ς (Option ι)

/-- The `LOOKUP_` flags. -/
structure Behavior where
  lookupInitialize : Bool
  lookupResolver : Bool
  lookupNil : Bool
  lookupNocache : Bool
  deriving DecidableEq, Repr

namespace Objc

variable {κ ς ι : Type} [DecidableEq κ] [LinearOrder ς] (env : Env κ ς ι) (st : Objc κ ς ι)

/-! ## The code -/

omit [DecidableEq κ] [LinearOrder ς] in
/-- `getMeta` -/
def getMeta (cls : κ) : κ := if st.isMeta cls then cls else st.isa cls

omit [DecidableEq κ] [LinearOrder ς] in
/-- `isInitialized` -/
def isInitialized (cls : κ) : Bool := st.initialized (st.getMeta cls)

omit [DecidableEq κ] [LinearOrder ς] in
/-- `checkIsKnownClass` -/
def checkIsKnownClass (cls : κ) : Prog Unit := if st.classes.known cls then pure () else trap

/-- `realizeAndInitializeIfNeeded_locked`: a class is initialized after its superclasses.  The bodies of
`+initialize` are not in the model. -/
def realizeAndInitializeIfNeeded (cls : κ) (lookupInitialize : Bool) : Objc κ ς ι :=
  if lookupInitialize = true ∧ st.isInitialized cls = false then
    { st with initialized := fun d => st.initialized d || decide (d ∈ st.classes.line (st.getMeta cls)) }
  else st

omit [DecidableEq κ] [LinearOrder ς] in
/-- `unreasonableClassCount` -/
def unreasonableClassCount : ℕ := ((st.realized.filter fun c => !st.isMeta c).length + 1) * 16

omit [DecidableEq κ] [LinearOrder ς] in
/-- `meth->imp`, and its type encoding. -/
def entryOf (m : MethodT ς) : Option (Entry ι) := st.cells[m.cell]?

/-- One turn of the loop of `lookUpImpOrForward` over the superclasses;
leaves with `none` for `forward_imp`. -/
def searchTurn (sel : ς) : κ × ℕ → Prog (Turn (κ × ℕ) (Option ι))
  | (curClass, attempts) => do
    match ← getMethodNoSuper (st.methods curClass) sel with
    | some meth =>
      match st.entryOf meth with
      | some e => pure (.exit (some e.imp))
      | none => trap
    | none =>
      match st.classes.super curClass with
      | none => pure (.exit none)
      | some curClass =>
        if attempts - 1 = 0 then trap
        else do
          match ← cacheGetImp env.arch env.value (st.cache curClass) sel with
          | some imp => pure (.exit imp)
          | none => pure (.next (curClass, attempts - 1))

/-- `log_and_fill_cache` -/
def logAndFillCache (cls : κ) (imp : Option ι) (sel : ς) : Prog (Objc κ ς ι) := do
  let cache ← Cache.insert env.arch env.value (st.isInitialized cls) (st.cache cls) sel imp
  pure { st with cache := Function.update st.cache cls cache }

/-- The result of a lookup that found `imp`: nil instead of `forward_imp` with `LOOKUP_NIL`. -/
def answer (lookupNil : Bool) (imp : Option ι) : Option (Option ι) := if lookupNil ∧ imp.isNone then
    none else some imp

/-- `lookUpImpOrForward`; `resolveMethod` is what the call of `resolveMethod_locked` does.  The result is
`none` for nil and `some none` for `forward_imp`. -/
def lookUpImpOrForward (resolveMethod : Objc κ ς ι → Behavior → Prog (Objc κ ς ι × Option (Option ι)))
    (sel : ς) (cls : κ) (behavior : Behavior) : Prog (Objc κ ς ι × Option (Option ι)) := do
  let behavior := if st.isInitialized cls then behavior else { behavior with lookupNocache := true }
  st.checkIsKnownClass cls
  let st := st.realizeAndInitializeIfNeeded cls behavior.lookupInitialize
  let imp ← loop (searchTurn env st sel) (cls, st.unreasonableClassCount)
  if imp.isNone ∧ behavior.lookupResolver then resolveMethod st { behavior with lookupResolver := false }
  else
    let st ← if behavior.lookupNocache then pure st else st.logAndFillCache env cls imp sel
    pure (st, answer behavior.lookupNil imp)

/-- `_lookUpImpTryCache` -/
def lookUpImpTryCache (resolveMethod : Objc κ ς ι → Behavior → Prog (Objc κ ς ι × Option (Option ι)))
    (sel : ς) (cls : κ) (behavior : Behavior) : Prog (Objc κ ς ι × Option (Option ι)) := do
  if st.isInitialized cls = false then st.lookUpImpOrForward env resolveMethod sel cls behavior
  else
    match ← cacheGetImp env.arch env.value (st.cache cls) sel with
    | some imp => pure (st, answer behavior.lookupNil imp)
    | none => st.lookUpImpOrForward env resolveMethod sel cls behavior

/-- A lookup that was not asked to resolve, or whose method was just found, does not get to the resolver. -/
def noResolver : Objc κ ς ι → Behavior → Prog (Objc κ ς ι × Option (Option ι)) := fun _ _ => trap

/-- The lookup of `objc_msgSend`: the cache, then `lookUpImpOrForward`. -/
def msgLookup (resolveMethod : Objc κ ς ι → Behavior → Prog (Objc κ ς ι × Option (Option ι))) (sel : ς)
    (cls : κ) :
    Prog (Objc κ ς ι × Option ι) := do
  match ← cacheGetImp env.arch env.value (st.cache cls) sel with
  | some imp => pure (st, imp)
  | none =>
    match ← st.lookUpImpOrForward env resolveMethod sel cls ⟨true, true, false, false⟩ with
    | (st, some imp) => pure (st, imp)
    | (_, none) => trap

/-! ### Flushing -/

/-- `shouldFlush` -/
def shouldFlush [DecidableEq ι] (sel : ς) (imp : ι) (c : κ) : Prog Bool := do
  let cached ← cacheGetImp env.arch env.value (st.cache c) sel
  pure (cached == some (some imp))

/-- `flushCaches`: the class and its subclasses, or all classes. -/
def flushCaches (cls : Option κ) (predicate : Objc κ ς ι → κ → Prog Bool) : Prog (Objc κ ς ι) :=
  forEach st.realized (fun st c => do
    if ∀ d ∈ cls, d ∈ st.classes.line c then
      let flush ← predicate st c
      pure (if flush then { st with cache := Function.update st.cache c (st.cache c).eraseNolock } else st)
    else pure st) st

/-! ### Adding methods -/

/-- `addMethods_finish`: the new list is sorted and attached, the caches below the class are flushed. -/
def addMethodsFinish (cls : κ) (newlist : List (MethodT ς)) : Prog (Objc κ ς ι) :=
  let newlist := if newlist.length > 1 then newlist.mergeSort (·.name ≤ ·.name) else newlist
  let lists := (st.methods cls).attachLists (prepareMethodLists [⟨true, true, false, newlist⟩])
  { st with methods := Function.update st.methods cls lists }.flushCaches (some cls) fun _ _ => pure true

/-- `_method_setImplementation` -/
def methodSetImplementation [DecidableEq ι] (cls : Option κ) (m : MethodT ς) (imp : ι) :
    Prog (Objc κ ς ι × ι) := do
  match st.entryOf m with
  | none => trap
  | some old =>
    let st ← { st with cells := st.cells.set m.cell ⟨imp, old.types⟩ }.flushCaches cls
      fun st c => st.shouldFlush env m.name old.imp c
    pure (st, old.imp)

/-- `addMethod`; the result is nil when the method is new. -/
def addMethod [DecidableEq ι] (cls : κ) (name : ς) (imp : ι) (types : String) (replace : Bool) :
    Prog (Objc κ ς ι × Option ι) := do
  st.checkIsKnownClass cls
  match ← getMethodNoSuper (st.methods cls) name with
  | some m =>
    if replace = false then
      match st.entryOf m with
      | some e => pure (st, some e.imp)
      | none => trap
    else
      let (st, old) ← st.methodSetImplementation env (some cls) m imp
      pure (st, some old)
  | none =>
    let st ← { st with cells := st.cells ++ [Entry.mk imp types] }.addMethodsFinish cls
      [MethodT.mk name st.cells.length]
    pure (st, none)

/-- `class_addMethod` -/
def classAddMethod [DecidableEq ι] (cls : κ) (name : ς) (imp : ι) (types : String) :
    Prog (Objc κ ς ι × Bool) := do
  let (st, old) ← st.addMethod env cls name imp types false
  pure (st, old.isNone)

/-! ### Resolving -/

/-- The message to a resolver that was found: its implementation adds methods to the class. -/
def runResolver [DecidableEq ι] (resolveSel : ς) (receiver cls : κ) (sel : ς) : Prog (Objc κ ς ι) := do
  match ← st.msgLookup env noResolver resolveSel receiver with
  | (st, some imp) =>
    forEach (env.resolver imp cls sel) (fun st m => do
      let (st, _) ← st.classAddMethod env cls m.1 m.2.1 m.2.2
      pure st) st
  | (_, none) => trap

/-- `resolveInstanceMethod` and `resolveClassMethod`: if the resolver is implemented it is called, and the
result is cached, good or bad. -/
def resolveWith [DecidableEq ι] (resolveSel : ς) (receiver cls : κ) (sel : ς) : Prog (Objc κ ς ι) := do
  match ← st.lookUpImpTryCache env noResolver resolveSel receiver ⟨false, false, true, false⟩ with
  | (st, none) => pure st
  | (st, some _) =>
    let st ← st.runResolver env resolveSel receiver cls sel
    let (st, _) ← st.lookUpImpTryCache env noResolver sel cls ⟨false, false, true, false⟩
    pure st

/-- `resolveInstanceMethod` -/
def resolveInstanceMethod [DecidableEq ι] (sel : ς) (cls : κ) : Prog (Objc κ ς ι) :=
  st.resolveWith env env.resolveInstanceSel (st.isa cls) cls sel

/-- `resolveClassMethod` -/
def resolveClassMethod [DecidableEq ι] (sel : ς) (cls : κ) : Prog (Objc κ ς ι) :=
  st.resolveWith env env.resolveClassSel cls cls sel

/-- `resolveMethod_locked` -/
def resolveMethod [DecidableEq ι] (sel : ς) (cls : κ) (behavior : Behavior) :
    Prog (Objc κ ς ι × Option (Option ι)) := do
  let st ← if st.isMeta cls = false then st.resolveInstanceMethod env sel cls
    else do
      let st ← st.resolveClassMethod env sel cls
      match ← st.lookUpImpTryCache env noResolver sel cls ⟨false, false, true, false⟩ with
      | (st, none) => st.resolveInstanceMethod env sel cls
      | (st, some _) => pure st
  st.lookUpImpTryCache env noResolver sel cls behavior

/-- `objc_msgSend` to an object of the class: the implementation it jumps to, `none` to forward. -/
def objcMsgSend [DecidableEq ι] (sel : ς) (cls : κ) : Prog (Objc κ ς ι × Option ι) :=
  st.msgLookup env (fun st behavior => st.resolveMethod env sel cls behavior) sel cls

/-! ## Coherence -/

omit [DecidableEq κ] in
/-- The method of a selector that the class itself has. -/
def table (cls : κ) (sel : ς) : Option (Entry ι) := (firstMethod (st.methods cls).lists sel).bind st.entryOf

omit [DecidableEq κ] in
/-- The classes and method tables that the method lists stand for. -/
def toRuntime : Runtime κ ς ι := ⟨st.classes, st.table⟩

/-- The caches say what the method lists say. -/
def Coherent : Prop :=
  ∀ cls, st.classes.known cls = true → ∀ sel imp, (st.cache cls).find sel = some imp →
    imp = st.toRuntime.lookupImp cls sel

omit [DecidableEq κ] in
/-- What holds of the method lists: they are sorted, their cells exist, and no two methods of different
classes or selectors share a cell. -/
structure WfLists : Prop where
  sorted : ∀ cls, ∀ mlist ∈ (st.methods cls).lists, mlist.Sorted
  cells : ∀ cls, ∀ mlist ∈ (st.methods cls).lists, ∀ m ∈ mlist.methods, m.cell < st.cells.length
  owner : ∀ cls, ∀ mlist ∈ (st.methods cls).lists, ∀ m ∈ mlist.methods,
    ∀ cls', ∀ mlist' ∈ (st.methods cls').lists, ∀ m' ∈ mlist'.methods, m.cell = m'.cell →
      cls = cls' ∧ m.name = m'.name

omit [DecidableEq κ] [LinearOrder ς] in
/-- What holds of the classes: the realized ones are those known,
and no chain of superclasses is unreasonable. -/
structure WfClasses : Prop where
  realized : ∀ cls, cls ∈ st.realized ↔ st.classes.known cls = true
  nodup : st.realized.Nodup
  isa : ∀ cls, st.classes.known cls = true → st.classes.known (st.isa cls) = true
  reasonable : ∀ cls, st.classes.known cls = true → (st.classes.line cls).length < st.unreasonableClassCount

/-- The states of the process. -/
structure Inv : Prop where
  lists : st.WfLists
  classes : st.WfClasses
  caches : ∀ cls, (st.cache cls).IsMemo env.arch env.value
  coherent : st.Coherent

variable {env st} {st' : Objc κ ς ι} {cls : κ} {sel : ς} {imp : Option ι} {behavior : Behavior}

omit [DecidableEq κ] in
/-- A selector that the class has is found in its lists, with its entry. -/
theorem WfLists.exists_entry {m : MethodT ς} (h : st.WfLists)
    (hm : firstMethod (st.methods cls).lists sel = some m) :
    ∃ e, st.entryOf m = some e ∧ st.table cls sel = some e := by
  obtain ⟨mlist, hmlist, hfind⟩ := List.exists_of_findSome?_eq_some hm
  have hlt := h.cells cls mlist hmlist m (List.mem_of_find?_eq_some hfind)
  refine ⟨st.cells[m.cell], List.getElem?_eq_getElem hlt, ?_⟩
  rw [table, hm, Option.bind_some, entryOf, List.getElem?_eq_getElem hlt]

omit [DecidableEq κ] in
/-- The search of a class that has the selector. -/
theorem lookupImp_of_own {e : Entry ι} (h : st.table cls sel = some e) :
    st.toRuntime.lookupImp cls sel = some e.imp := by
  rw [Runtime.lookupImp, Runtime.lookup_of_own (show st.toRuntime.table cls sel = some e from h),
    Option.map_some]

omit [DecidableEq κ] in
/-- The search of a class that does not have the selector goes on at the superclass. -/
theorem lookupImp_of_super {d : κ} (h : st.table cls sel = none) (hsuper : st.classes.super cls = some d) :
    st.toRuntime.lookupImp cls sel = st.toRuntime.lookupImp d sel := by
  have hfind : find st.classes st.table sel cls = (st.table cls sel).or (find st.classes st.table sel d) :=
    find_of_super hsuper
  rw [h, Option.none_or] at hfind
  exact congrArg (Option.map Entry.imp) hfind

omit [DecidableEq κ] in
theorem lookupImp_of_top (h : st.table cls sel = none) (hsuper : st.classes.super cls = none) :
    st.toRuntime.lookupImp cls sel = none := by
  have hfind : find st.classes st.table sel cls = none := by
    rw [Dispatch.find, Hierarchy.line_of_top hsuper, List.findSome?_singleton, h]
  exact congrArg (Option.map Entry.imp) hfind

omit [DecidableEq κ] in
/-- **Search.**  The loop over the superclasses, helped by their caches, finds what the method lists say. -/
theorem Inv.returns_searchLoop (h : st.Inv env) (hcls : st.classes.known cls = true) :
    Returns (loop (searchTurn env st sel) (cls, st.unreasonableClassCount))
      (st.toRuntime.lookupImp cls sel) := by
  have hown : ∀ cls attempts m, firstMethod (st.methods cls).lists sel = some m →
      LoopReturns (searchTurn env st sel) (cls, attempts) (st.toRuntime.lookupImp cls sel) := by
    intro cls attempts m hm
    obtain ⟨e, he, htable⟩ := h.lists.exists_entry hm
    have hreturns := returns_getMethodNoSuper sel (h.lists.sorted cls)
    rw [hm] at hreturns
    refine loopReturns_exit (returns_bind hreturns ?_)
    simp only [he]
    rw [lookupImp_of_own htable]
    exact returns_pure _
  have hnone : ∀ cls, firstMethod (st.methods cls).lists sel = none →
      Returns (getMethodNoSuper (st.methods cls) sel) none ∧ st.table cls sel = none := by
    intro cls hm
    have hreturns := returns_getMethodNoSuper sel (h.lists.sorted cls)
    rw [hm] at hreturns
    exact ⟨hreturns, by rw [table, hm, Option.bind_none]⟩
  have key : ∀ cls, st.classes.known cls = true → ∀ attempts, (st.classes.line cls).length ≤ attempts →
      LoopReturns (searchTurn env st sel) (cls, attempts) (st.toRuntime.lookupImp cls sel) := by
    intro cls
    induction cls using st.classes.super_induction with
    | htop cls hs =>
      intro _ attempts _
      cases hm : firstMethod (st.methods cls).lists sel with
      | some m => exact hown cls attempts m hm
      | none =>
        obtain ⟨hreturns, htable⟩ := hnone cls hm
        refine loopReturns_exit (returns_bind hreturns ?_)
        simp only [hs]
        rw [lookupImp_of_top htable hs]
        exact returns_pure _
    | hsuper cls d hs ih =>
      intro hcls attempts hattempts
      cases hm : firstMethod (st.methods cls).lists sel with
      | some m => exact hown cls attempts m hm
      | none =>
        obtain ⟨hreturns, htable⟩ := hnone cls hm
        rw [lookupImp_of_super htable hs]
        have hd := (st.classes.known_super cls d hs).2
        obtain ⟨l, hl⟩ := st.classes.line_eq_cons d
        have hline : 1 ≤ (st.classes.line d).length := by rw [hl, List.length_cons]; omega
        rw [Hierarchy.line_of_super hs, List.length_cons] at hattempts
        have hcache : Returns _ ((st.cache d).find sel) := (h.caches d).returns_cacheGetImp
        cases hfind : (st.cache d).find sel with
        | some imp =>
          rw [hfind] at hcache
          rw [← h.coherent d hd sel imp hfind]
          refine loopReturns_exit (returns_bind hreturns ?_)
          simp only [hs]
          rw [if_neg (by omega)]
          exact returns_bind hcache (returns_pure _)
        | none =>
          rw [hfind] at hcache
          refine loopReturns_next (returns_bind hreturns ?_) (ih hd (attempts - 1) (by omega))
          simp only [hs]
          rw [if_neg (by omega)]
          exact returns_bind hcache (returns_pure _)
  exact (key cls hcls _ (h.classes.reasonable cls hcls).le).returns

/-! ## Lookups -/

omit [DecidableEq κ] [LinearOrder ς] in
/-- The two states have the same classes, and what was initialized is. -/
structure Frame (st st' : Objc κ ς ι) : Prop where
  classes : st'.classes = st.classes
  realized : st'.realized = st.realized
  isa : st'.isa = st.isa
  isMeta : st'.isMeta = st.isMeta
  initialized : ∀ cls, st.isInitialized cls = true → st'.isInitialized cls = true

omit [DecidableEq κ] [LinearOrder ς] in
theorem Frame.refl (st : Objc κ ς ι) : Frame st st := ⟨rfl, rfl, rfl, rfl, fun _ h => h⟩

omit [DecidableEq κ] [LinearOrder ς] in
theorem Frame.trans {st'' : Objc κ ς ι} (h : Frame st st') (h' : Frame st' st'') : Frame st st'' :=
  ⟨h'.classes.trans h.classes, h'.realized.trans h.realized, h'.isa.trans h.isa, h'.isMeta.trans h.isMeta,
    fun cls hcls => h'.initialized cls (h.initialized cls hcls)⟩

omit [DecidableEq κ] [LinearOrder ς] in
theorem Frame.wfClasses (h : Frame st st') (hst : st.WfClasses) : st'.WfClasses := by
  obtain ⟨h1, h2, h3, h4⟩ := hst
  refine ⟨?_, ?_, ?_, ?_⟩
  · rw [h.realized, h.classes]; exact h1
  · rw [h.realized]; exact h2
  · rw [h.isa, h.classes]; exact h3
  · rw [unreasonableClassCount, h.realized, h.isMeta, h.classes]; exact h4

omit [DecidableEq κ] [LinearOrder ς] in
/-- The two states also have the same methods: they differ in their caches and in what is initialized. -/
structure Same (st st' : Objc κ ς ι) : Prop extends Frame st st' where
  methods : st'.methods = st.methods
  cells : st'.cells = st.cells

omit [DecidableEq κ] [LinearOrder ς] in
theorem Same.refl (st : Objc κ ς ι) : Same st st := ⟨Frame.refl st, rfl, rfl⟩

omit [DecidableEq κ] [LinearOrder ς] in
theorem Same.trans {st'' : Objc κ ς ι} (h : Same st st') (h' : Same st' st'') : Same st st'' :=
  ⟨h.toFrame.trans h'.toFrame, h'.methods.trans h.methods, h'.cells.trans h.cells⟩

omit [DecidableEq κ] in
theorem Same.toRuntime (h : Same st st') : st'.toRuntime = st.toRuntime := by
  have htable : st'.table = st.table := by
    funext cls sel
    rw [table, table, h.methods]
    congr 1
    funext m
    rw [entryOf, entryOf, h.cells]
  rw [Objc.toRuntime, Objc.toRuntime, h.classes, htable]

omit [DecidableEq κ] in
/-- Caches that only have what the old ones had, or what the lists say. -/
theorem Same.inv (h : Same st st') (hinv : st.Inv env)
    (hcaches : ∀ cls, (st'.cache cls).IsMemo env.arch env.value)
    (hfind : ∀ cls sel imp, (st'.cache cls).find sel = some imp →
      (st.cache cls).find sel = some imp ∨ imp = st.toRuntime.lookupImp cls sel) : st'.Inv env where
  lists := by
    obtain ⟨h1, h2, h3⟩ := hinv.lists
    refine ⟨?_, ?_, ?_⟩
    · rw [h.methods]; exact h1
    · rw [h.methods, h.cells]; exact h2
    · rw [h.methods]; exact h3
  classes := h.toFrame.wfClasses hinv.classes
  caches := hcaches
  coherent := by
    intro cls hcls sel imp himp
    rw [h.toRuntime]
    rw [h.classes] at hcls
    rcases hfind cls sel imp himp with hold | heq
    · exact hinv.coherent cls hcls sel imp hold
    · exact heq

omit [LinearOrder ς] in
theorem same_realizeAndInitialize (st : Objc κ ς ι) (cls : κ) (b : Bool) :
    Same st (st.realizeAndInitializeIfNeeded cls b) ∧
    (st.realizeAndInitializeIfNeeded cls b).cache = st.cache := by
  rw [realizeAndInitializeIfNeeded]
  split_ifs
  · refine ⟨⟨⟨rfl, rfl, rfl, rfl, fun c hc => ?_⟩, rfl, rfl⟩, rfl⟩
    exact (Bool.or_eq_true _ _).mpr (Or.inl hc)
  · exact ⟨Same.refl st, rfl⟩

theorem Inv.initialized (h : st.Inv env) (cls : κ) (b : Bool) :
    (st.realizeAndInitializeIfNeeded cls b).Inv env := by
  obtain ⟨hsame, hcache⟩ := same_realizeAndInitialize st cls b
  exact hsame.inv h (hcache ▸ h.caches) fun cls sel imp himp => Or.inl (by rwa [hcache] at himp)

/-- The selector is cached for the class, with what the lists say. -/
def Cached (st : Objc κ ς ι) (cls : κ) (sel : ς) : Prop :=
  (st.cache cls).find sel = some (st.toRuntime.lookupImp cls sel)

/-- What the lists say may be cached, and is if the class is initialized. -/
theorem Inv.halts_logAndFillCache (h : st.Inv env) (hcls : st.classes.known cls = true)
    (himp : imp = st.toRuntime.lookupImp cls sel) :
    Halts (st.logAndFillCache env cls imp sel) fun st' => st'.Inv env ∧ Same st st' ∧
      (st.isInitialized cls = true → st'.Cached cls sel) := by
  refine halts_bind (((h.caches cls).halts_insert (st.isInitialized cls) sel imp).mono ?_)
  rintro cache ⟨hmemo, hfind, hin⟩
  refine halts_pure ?_
  have hsame : Same st { st with cache := Function.update st.cache cls cache } :=
    ⟨⟨rfl, rfl, rfl, rfl, fun _ h => h⟩, rfl, rfl⟩
  have hinv : Inv env { st with cache := Function.update st.cache cls cache } := by
    refine hsame.inv h (fun c => ?_) fun c s v hv => ?_
    · show (Function.update st.cache cls cache c).IsMemo env.arch env.value
      rw [Function.update_apply]
      split_ifs
      · exact hmemo
      · exact h.caches c
    · change (Function.update st.cache cls cache c).find s = some v at hv
      rw [Function.update_apply] at hv
      split_ifs at hv with hc
      · subst hc
        rcases hfind s v hv with hold | ⟨rfl, rfl⟩
        · exact Or.inl hold
        · exact Or.inr himp
      · exact Or.inl hv
  refine ⟨hinv, hsame, fun hinit => ?_⟩
  obtain ⟨v, hv⟩ := hin hinit
  have hv' : (Function.update st.cache cls cache cls).find sel = some v := by
    rw [Function.update_self]; exact hv
  rw [Cached, ← hinv.coherent cls hcls sel v hv']
  exact hv'

theorem answer_false (imp : Option ι) : answer false imp = some imp := if_neg fun h => Bool.false_ne_true h.1

section Lookup

variable {resolveMethod : Objc κ ς ι → Behavior → Prog (Objc κ ς ι × Option (Option ι))}

/-- **Lookup.**  It ends with what the lists say, or in the resolver when they say nothing. -/
theorem Inv.halts_lookUp {Q : Objc κ ς ι × Option (Option ι) → Prop} (h : st.Inv env)
    (hcls : st.classes.known cls = true)
    (hfound : ∀ st', st'.Inv env → Same st st' →
      (st.isInitialized cls = true → behavior.lookupNocache = false → st'.Cached cls sel) →
      (behavior.lookupResolver = true → (st.toRuntime.lookupImp cls sel).isSome = true) →
      Q (st', answer behavior.lookupNil (st.toRuntime.lookupImp cls sel)))
    (hresolve : st.toRuntime.lookupImp cls sel = none → behavior.lookupResolver = true →
      ∀ st' b, st'.Inv env → Same st st' → b.lookupNil = behavior.lookupNil → b.lookupResolver = false →
      (st.isInitialized cls = true → b.lookupNocache = behavior.lookupNocache) →
        Halts (resolveMethod st' b) Q) :
    Halts (st.lookUpImpOrForward env resolveMethod sel cls behavior) Q := by
  rw [lookUpImpOrForward]
  generalize hb : (if st.isInitialized cls then behavior else { behavior with lookupNocache := true }) = b
  have hnil : b.lookupNil = behavior.lookupNil := by rw [← hb]; split_ifs <;> rfl
  have hres : b.lookupResolver = behavior.lookupResolver := by rw [← hb]; split_ifs <;> rfl
  have hcache : st.isInitialized cls = true → b.lookupNocache = behavior.lookupNocache := by
    intro hinit
    rw [← hb, if_pos hinit]
  have hknown : Returns (st.checkIsKnownClass cls) () := by
    rw [checkIsKnownClass, if_pos hcls]
    exact returns_pure _
  refine halts_bind (hknown.halts ?_)
  obtain ⟨hsame, -⟩ := same_realizeAndInitialize st cls b.lookupInitialize
  have hinv := h.initialized cls b.lookupInitialize
  have hcls' : (st.realizeAndInitializeIfNeeded cls b.lookupInitialize).classes.known cls = true := by
    rw [hsame.classes]
    exact hcls
  have hsearch : Returns (loop (searchTurn env _ sel) _) _ := hinv.returns_searchLoop hcls'
  rw [hsame.toRuntime] at hsearch
  refine halts_bind (hsearch.halts ?_)
  have hsome : ¬ ((st.toRuntime.lookupImp cls sel).isNone = true ∧ b.lookupResolver = true) →
      behavior.lookupResolver = true → (st.toRuntime.lookupImp cls sel).isSome = true := by
    intro hnot hresolver
    rw [← Option.not_isNone, Bool.not_eq_true']
    rw [hres] at hnot
    exact Bool.eq_false_iff.mpr fun hnone => hnot ⟨hnone, hresolver⟩
  split_ifs with hresolver hnocache
  · rw [hres] at hresolver
    exact hresolve (Option.isNone_iff_eq_none.mp hresolver.1) hresolver.2 _ _ hinv hsame hnil rfl hcache
  · refine halts_bind (halts_pure (halts_pure ?_))
    rw [hnil]
    refine hfound _ hinv hsame (fun hinit hno => ?_) (hsome hresolver)
    rw [hcache hinit, hno] at hnocache
    cases hnocache
  · refine halts_bind ((hinv.halts_logAndFillCache hcls' (by rw [hsame.toRuntime])).mono ?_)
    rintro st' ⟨hinv', hsame', hcached⟩
    refine halts_pure ?_
    rw [hnil]
    exact hfound _ hinv' (hsame.trans hsame') (fun hinit _ => hcached (hsame.initialized cls hinit))
      (hsome hresolver)

theorem Inv.halts_lookUpTryCache {Q : Objc κ ς ι × Option (Option ι) → Prop} (h : st.Inv env)
    (hcls : st.classes.known cls = true)
    (hfound : ∀ st', st'.Inv env → Same st st' →
      (st.isInitialized cls = true → behavior.lookupNocache = false → st'.Cached cls sel) →
      Q (st', answer behavior.lookupNil (st.toRuntime.lookupImp cls sel)))
    (hresolve : st.toRuntime.lookupImp cls sel = none → behavior.lookupResolver = true →
      ∀ st' b, st'.Inv env → Same st st' → b.lookupNil = behavior.lookupNil → b.lookupResolver = false →
      (st.isInitialized cls = true → b.lookupNocache = behavior.lookupNocache) →
        Halts (resolveMethod st' b) Q) :
    Halts (st.lookUpImpTryCache env resolveMethod sel cls behavior) Q := by
  rw [lookUpImpTryCache]
  split_ifs
  · exact h.halts_lookUp hcls (fun st' hinv hsame hcached _ => hfound st' hinv hsame hcached) hresolve
  · refine halts_bind ((h.caches cls).returns_cacheGetImp.halts ?_)
    cases hfind : (st.cache cls).find sel with
    | some imp =>
      refine halts_pure ?_
      rw [h.coherent cls hcls sel imp hfind]
      refine hfound st h (Same.refl st) fun _ _ => ?_
      rw [Cached, ← h.coherent cls hcls sel imp hfind]
      exact hfind
    | none =>
      exact h.halts_lookUp hcls (fun st' hinv hsame hcached _ => hfound st' hinv hsame hcached) hresolve

/-- A lookup that does not get to the resolver answers what the lists say, and changes caches only. -/
theorem Inv.halts_lookUpNoResolver (h : st.Inv env) (hcls : st.classes.known cls = true)
    (hres : behavior.lookupResolver = false) :
    Halts (st.lookUpImpTryCache env noResolver sel cls behavior) fun r => r.1.Inv env ∧ Same st r.1 ∧
      r.2 = answer behavior.lookupNil (st.toRuntime.lookupImp cls sel) ∧
      (st.isInitialized cls = true → behavior.lookupNocache = false → r.1.Cached cls sel) :=
  h.halts_lookUpTryCache hcls (fun _ hinv hsame hcached => ⟨hinv, hsame, rfl, hcached⟩) fun _ hres' =>
    absurd hres' (by rw [hres]; exact Bool.false_ne_true)

/-- A message ends with what the lists say, or in the resolver when they say nothing. -/
theorem Inv.halts_msgLookup {Q : Objc κ ς ι × Option ι → Prop} (h : st.Inv env)
    (hcls : st.classes.known cls = true)
    (hfound : ∀ st', st'.Inv env → Same st st' → (st.isInitialized cls = true → st'.Cached cls sel) →
      ((st.cache cls).find sel).isSome = true ∨ (st.toRuntime.lookupImp cls sel).isSome = true →
      Q (st', st.toRuntime.lookupImp cls sel))
    (hresolve : (st.cache cls).find sel = none → st.toRuntime.lookupImp cls sel = none →
      ∀ st' b, st'.Inv env → Same st st' → b.lookupNil = false → b.lookupResolver = false →
        (st.isInitialized cls = true → b.lookupNocache = false) →
      Halts (resolveMethod st' b) fun r => ∃ imp, r.2 = some imp ∧ Q (r.1, imp)) :
    Halts (st.msgLookup env resolveMethod sel cls) Q := by
  rw [msgLookup]
  refine halts_bind ((h.caches cls).returns_cacheGetImp.halts ?_)
  cases hfind : (st.cache cls).find sel with
  | some imp =>
    refine halts_pure ?_
    rw [h.coherent cls hcls sel imp hfind]
    refine hfound st h (Same.refl st) (fun _ => ?_) (Or.inl (by rw [hfind]; rfl))
    rw [Cached, ← h.coherent cls hcls sel imp hfind]
    exact hfind
  | none =>
    refine halts_bind (Halts.mono (Q := fun r => ∃ imp, r.2 = some imp ∧ Q (r.1, imp)) ?_ ?_)
    · exact h.halts_lookUp hcls
        (fun st' hinv hsame hcached hsome => ⟨_, answer_false _,
          hfound st' hinv hsame (fun hinit => hcached hinit rfl) (Or.inr (hsome rfl))⟩)
        fun hnone _ st' b hinv hsame hnil hres hcache =>
          hresolve hfind hnone st' b hinv hsame hnil hres hcache
    · rintro ⟨st', r⟩ ⟨imp, himp, hQ⟩
      obtain rfl : r = some imp := himp
      exact halts_pure hQ

end Lookup

end Objc

end QYInterview.ObjC
