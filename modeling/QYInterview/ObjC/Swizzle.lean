import QYInterview.ObjC.Runtime

/-!
# ObjC.Swizzle — `RuntimeTool`'s method swizzling

`qyAction1BetterMethodSwizzling` first tries to add the swizzled implementation under the original
selector.  When that succeeds the original method was inherited, and the class itself takes over both
selectors; when it fails the class has both methods and they are exchanged.  Either way only the tables
of the class change, and only under the two selectors.
-/

namespace QYInterview.ObjC

open Dispatch

variable {κ ς ι : Type} [DecidableEq κ] [DecidableEq ς]

/-- `qy_action1BetterMethodSwizzlingWithClass:oriSEL:swizzledSEL:`, on a class; `none` where the tool
would pass a null `Method` on. -/
def qyAction1BetterMethodSwizzling (rt : Runtime κ ς ι) (cls : κ) (oriSEL swizzledSEL : ς) :
    Option (Runtime κ ς ι) := do
  let oriMethod ← rt.classGetInstanceMethod cls oriSEL
  let swizzledMethod ← rt.classGetInstanceMethod cls swizzledSEL
  let (success, rt') := rt.classAddMethod cls oriSEL (← rt.methodGetImplementation swizzledMethod)
    (← rt.methodGetTypeEncoding oriMethod)
  if success then
    return rt'.classReplaceMethod cls swizzledSEL (← rt'.methodGetImplementation oriMethod)
      (← rt'.methodGetTypeEncoding oriMethod)
  else
    rt'.methodExchangeImplementations oriMethod swizzledMethod

namespace Swizzle

variable {rt rt' : Runtime κ ς ι} {cls : κ} {oriSEL swizzledSEL : ς} {e o : Entry ι}

/-! ## The two branches -/

/-- The class implements both selectors: their implementations are exchanged in its own table. -/
theorem swizzling_own (hori : rt.table cls oriSEL = some o) (hswz : rt.table cls swizzledSEL = some e) :
    qyAction1BetterMethodSwizzling rt cls oriSEL swizzledSEL =
      rt.methodExchangeImplementations ⟨cls, oriSEL⟩ ⟨cls, swizzledSEL⟩ := by
  have hadd : ∀ imp types, rt.classAddMethod cls oriSEL imp types = (false, rt) := by
    intro imp types
    rw [Runtime.classAddMethod, hori]
  simp only [qyAction1BetterMethodSwizzling, Runtime.getInstanceMethod_of_own hori,
    Runtime.getInstanceMethod_of_own hswz, Runtime.methodGetImplementation, Runtime.methodGetTypeEncoding,
    Runtime.entry, hori, hswz, hadd, Option.bind_eq_bind, Option.bind_some, Option.map_some,
    Bool.false_eq_true, if_false]

/-- The original method is inherited: the class gets it under the swizzled selector, and an override with
the swizzled implementation. -/
theorem swizzling_inherited (hnone : rt.table cls oriSEL = none) (hori : rt.lookup cls oriSEL = some o)
    (hswz : rt.table cls swizzledSEL = some e) :
    qyAction1BetterMethodSwizzling rt cls oriSEL swizzledSEL =
      some ((rt.put cls oriSEL ⟨e.imp, o.types⟩).put cls swizzledSEL ⟨o.imp, e.types⟩) := by
  obtain ⟨d, hget, -, hd⟩ := Runtime.getInstanceMethod_of_lookup hori
  have hdc : d ≠ cls := by
    rintro rfl
    rw [hnone] at hd
    cases hd
  have hne : swizzledSEL ≠ oriSEL := by
    rintro rfl
    rw [hnone] at hswz
    cases hswz
  have hadd : rt.classAddMethod cls oriSEL e.imp o.types =
      (true, rt.put cls oriSEL ⟨e.imp, o.types⟩) := by
    rw [Runtime.classAddMethod, hnone]
  -- the reference into the ancestor's table still reads the original method
  have hd' : (rt.put cls oriSEL ⟨e.imp, o.types⟩).table d oriSEL = some o := by
    rw [Runtime.put_table_of_cls_ne hdc, hd]
  have hswz' : (rt.put cls oriSEL ⟨e.imp, o.types⟩).table cls swizzledSEL = some e := by
    rw [Runtime.put_table_of_sel_ne hne, hswz]
  simp only [qyAction1BetterMethodSwizzling, hget, Runtime.getInstanceMethod_of_own hswz,
    Runtime.methodGetImplementation, Runtime.methodGetTypeEncoding, Runtime.entry, hd, hswz, hadd, hd',
    Option.bind_eq_bind, Option.bind_some, Option.map_some, if_true, Option.pure_def,
    Runtime.classReplaceMethod, hswz']

/-! ## One application -/

/-- What one application does: in the table of the class the two selectors get each other's old
implementation, with the encodings they had, and nothing else changes. -/
structure Swapped (rt rt' : Runtime κ ς ι) (cls : κ) (oriSEL swizzledSEL : ς) (o e : Entry ι) : Prop where
  classes : rt'.classes = rt.classes
  others : ∀ d, d ≠ cls → rt'.table d = rt.table d
  ori : rt'.table cls oriSEL = some ⟨e.imp, o.types⟩
  swizzled : rt'.table cls swizzledSEL = some ⟨o.imp, e.types⟩
  rest : ∀ q, q ≠ oriSEL → q ≠ swizzledSEL → rt'.table cls q = rt.table cls q

theorem exists_swapped_own (hori : rt.table cls oriSEL = some o)
    (hswz : rt.table cls swizzledSEL = some e) :
    ∃ rt', qyAction1BetterMethodSwizzling rt cls oriSEL swizzledSEL = some rt' ∧
      Swapped rt rt' cls oriSEL swizzledSEL o e := by
  obtain ⟨rt', hrun, h1, h2, h3, h4, h5⟩ := Runtime.exchange_table hori hswz
  exact ⟨rt', (swizzling_own hori hswz).trans hrun, h1, h2, h3, h4, h5⟩

theorem exists_swapped (hori : rt.lookup cls oriSEL = some o) (hswz : rt.table cls swizzledSEL = some e) :
    ∃ rt', qyAction1BetterMethodSwizzling rt cls oriSEL swizzledSEL = some rt' ∧
      Swapped rt rt' cls oriSEL swizzledSEL o e := by
  cases hown : rt.table cls oriSEL with
  | some o' =>
    obtain rfl := Option.some.inj ((Runtime.lookup_of_own hown).symm.trans hori)
    exact exists_swapped_own hown hswz
  | none =>
    have hne : swizzledSEL ≠ oriSEL := by
      rintro rfl
      rw [hown] at hswz
      cases hswz
    refine ⟨_, swizzling_inherited hown hori hswz, rfl, ?_, ?_, ?_, ?_⟩
    · exact fun d hd => by rw [Runtime.put_table_of_cls_ne hd, Runtime.put_table_of_cls_ne hd]
    · rw [Runtime.put_table_of_sel_ne (Ne.symm hne), Runtime.put_table_self]
    · exact Runtime.put_table_self
    · exact fun q hq hq' => by rw [Runtime.put_table_of_sel_ne hq', Runtime.put_table_of_sel_ne hq]

omit [DecidableEq κ] [DecidableEq ς] in
/-- Classes that do not have the class on their line look everything up as before. -/
theorem Swapped.lookup_eq (h : Swapped rt rt' cls oriSEL swizzledSEL o e) {d : κ}
    (hd : cls ∉ rt.classes.line d) (q : ς) : rt'.lookup d q = rt.lookup d q := by
  rw [Runtime.lookup, h.classes]
  exact find_congr fun a ha => congrFun (h.others a fun hac => hd (hac ▸ ha)) q

/-- Applied to what it left, the tool restores every lookup: the class keeps an own copy of an inherited
original, which lookup cannot tell from the ancestor's. -/
theorem Swapped.restore {rt'' : Runtime κ ς ι} (hori : rt.lookup cls oriSEL = some o)
    (hswz : rt.table cls swizzledSEL = some e) (h : Swapped rt rt' cls oriSEL swizzledSEL o e)
    (h' : Swapped rt' rt'' cls oriSEL swizzledSEL ⟨e.imp, o.types⟩ ⟨o.imp, e.types⟩) (d : κ) (q : ς) :
    rt''.lookup d q = rt.lookup d q := by
  rw [Runtime.lookup, h'.classes, h.classes]
  refine find_eq_of_eq_at (a := cls) (fun a ha => by rw [h'.others a ha, h.others a ha]) ?_ d
  have hfind : find rt.classes rt.table oriSEL cls = some o := hori
  by_cases hq : q = oriSEL
  · subst hq
    rw [hfind]
    exact find_of_own h'.ori
  · by_cases hq' : q = swizzledSEL
    · subst hq'
      rw [find_of_own hswz]
      exact find_of_own h'.swizzled
    · -- any other selector: the tables of all classes agree on it
      apply find_congr
      intro a _
      by_cases ha : a = cls
      · rw [ha, h'.rest q hq hq', h.rest q hq hq']
      · rw [h'.others a ha, h.others a ha]

/-! ## The tool -/

/-- On a class that implements `swizzledSEL` itself and resolves `oriSEL`, the tool exchanges what the two
selectors run, no class without `cls` on its line sees a difference, and a second application undoes the
first for every class and selector. -/
theorem swizzling_spec (rt : Runtime κ ς ι) (cls : κ) (oriSEL swizzledSEL : ς)
    (hswz : (rt.table cls swizzledSEL).isSome) (hori : (rt.lookup cls oriSEL).isSome) :
    ∃ rt₁ rt₂, qyAction1BetterMethodSwizzling rt cls oriSEL swizzledSEL = some rt₁ ∧
      qyAction1BetterMethodSwizzling rt₁ cls oriSEL swizzledSEL = some rt₂ ∧
      rt₁.lookupImp cls oriSEL = rt.lookupImp cls swizzledSEL ∧
      rt₁.lookupImp cls swizzledSEL = rt.lookupImp cls oriSEL ∧
      rt₁.classes = rt.classes ∧
      (∀ d, cls ∉ rt.classes.line d → ∀ q, rt₁.lookup d q = rt.lookup d q) ∧
      rt₂.classes = rt.classes ∧ ∀ d q, rt₂.lookup d q = rt.lookup d q := by
  obtain ⟨e, he⟩ := Option.isSome_iff_exists.mp hswz
  obtain ⟨o, ho⟩ := Option.isSome_iff_exists.mp hori
  obtain ⟨rt₁, hrun, h⟩ := exists_swapped ho he
  obtain ⟨rt₂, hrun', h'⟩ := exists_swapped_own h.ori h.swizzled
  refine ⟨rt₁, rt₂, hrun, hrun', ?_, ?_, h.classes, fun d hd => h.lookup_eq hd,
    h'.classes.trans h.classes, h.restore ho he h'⟩
  · rw [Runtime.lookupImp, Runtime.lookup_of_own h.ori, Runtime.lookupImp, Runtime.lookup_of_own he]
    rfl
  · rw [Runtime.lookupImp, Runtime.lookup_of_own h.swizzled, Runtime.lookupImp, ho]
    rfl

/-! ## `RuntimeStudent (QY)` -/

/-- The classes of the example. -/
inductive StudentClass
  | RuntimePersion
  | RuntimeStudent
  deriving DecidableEq, Repr

/-- `RuntimeStudent` inherits `personInstanceMethod`; its category implements `qy_studentInstanceMethod`. -/
def studentRuntime : Runtime StudentClass String String where
  classes :=
    { known := fun _ => true
      super := fun c => match c with
        | .RuntimePersion => none
        | .RuntimeStudent => some .RuntimePersion
      depth := fun c => match c with
        | .RuntimePersion => 0
        | .RuntimeStudent => 1
      known_super := fun _ _ _ => ⟨rfl, rfl⟩
      depth_super := by intro c d h; cases c <;> cases h; decide }
  table := fun c q => match c with
    | .RuntimePersion =>
      if q = "personInstanceMethod" then some ⟨"-[RuntimePersion personInstanceMethod]", "v16@0:8"⟩ else none
    | .RuntimeStudent =>
      if q = "qy_studentInstanceMethod" then
        some ⟨"-[RuntimeStudent(QY) qy_studentInstanceMethod]", "v16@0:8"⟩
      else none

/-- The `load` of `RuntimeStudent (QY)`: the superclass keeps its method. -/
theorem swizzling_spec_load :
    ∃ rt₁, qyAction1BetterMethodSwizzling studentRuntime .RuntimeStudent "personInstanceMethod"
        "qy_studentInstanceMethod" = some rt₁ ∧
      rt₁.lookupImp .RuntimeStudent "personInstanceMethod" =
        some "-[RuntimeStudent(QY) qy_studentInstanceMethod]" ∧
      rt₁.lookupImp .RuntimeStudent "qy_studentInstanceMethod" =
        some "-[RuntimePersion personInstanceMethod]" ∧
      rt₁.lookup .RuntimePersion "personInstanceMethod" =
        some ⟨"-[RuntimePersion personInstanceMethod]", "v16@0:8"⟩ := by
  obtain ⟨rt₁, _, hrun, -, hori, hswz, -, hframe, -⟩ := swizzling_spec studentRuntime .RuntimeStudent
    "personInstanceMethod" "qy_studentInstanceMethod" (by decide) (by decide)
  refine ⟨rt₁, hrun, hori.trans (by decide), hswz.trans (by decide), ?_⟩
  exact (hframe .RuntimePersion (by decide) _).trans (by decide)

end Swizzle

end QYInterview.ObjC
