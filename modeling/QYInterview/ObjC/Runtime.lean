import QYInterview.Lib.Dispatch

/-!
# ObjC.Runtime — classes, method tables and `Method` references

The part of the Objective-C runtime the controllers call, as documented.  A class holds its own methods,
each an implementation and a type encoding; message lookup (`lookup`) goes up the superclasses.  A
`Method` is a reference to a method in the table of the class that holds it, so it may belong to an
ancestor of the class it was asked for, and reading it later reads the table as it is then.
-/

namespace QYInterview.ObjC

open Dispatch

/-- What a method table holds under a selector. -/
structure Entry (ι : Type) where
  imp : ι
  types : String
  deriving DecidableEq, Repr

/-- The registered classes with their method tables. -/
structure Runtime (κ ς ι : Type) where
  classes : Hierarchy κ
  table : κ → ς → Option (Entry ι)

/-- `Method` -/
structure Method (κ ς : Type) where
  cls : κ
  name : ς
  deriving DecidableEq, Repr

namespace Runtime

variable {κ ς ι : Type} (rt : Runtime κ ς ι)

/-- What a message `sel` to an instance of `cls` finds. -/
def lookup (cls : κ) (sel : ς) : Option (Entry ι) := find rt.classes rt.table sel cls

/-- The implementation a message `sel` to an instance of `cls` runs. -/
def lookupImp (cls : κ) (sel : ς) : Option ι := (rt.lookup cls sel).map Entry.imp

/-- `class_getInstanceMethod` -/
def classGetInstanceMethod (cls : κ) (name : ς) : Option (Method κ ς) :=
  (owner rt.classes rt.table name cls).map fun d => ⟨d, name⟩

/-- The method a reference stands for. -/
def entry (m : Method κ ς) : Option (Entry ι) := rt.table m.cls m.name

/-- `method_getImplementation` -/
def methodGetImplementation (m : Method κ ς) : Option ι := (rt.entry m).map Entry.imp

/-- `method_getTypeEncoding` -/
def methodGetTypeEncoding (m : Method κ ς) : Option String := (rt.entry m).map Entry.types

variable [DecidableEq κ] [DecidableEq ς]

/-- The table of `cls` with `e` under `name`. -/
def put (cls : κ) (name : ς) (e : Entry ι) : Runtime κ ς ι where
  classes := rt.classes
  table := Function.update rt.table cls (Function.update (rt.table cls) name (some e))

/-- `class_addMethod`: adds an override of an inherited method, never replaces one of the class itself. -/
def classAddMethod (cls : κ) (name : ς) (imp : ι) (types : String) : Bool × Runtime κ ς ι :=
  match rt.table cls name with
  | some _ => (false, rt)
  | none => (true, rt.put cls name ⟨imp, types⟩)

/-- `class_replaceMethod`: an existing method of the class keeps its type encoding. -/
def classReplaceMethod (cls : κ) (name : ς) (imp : ι) (types : String) : Runtime κ ς ι :=
  match rt.table cls name with
  | some e => rt.put cls name ⟨imp, e.types⟩
  | none => rt.put cls name ⟨imp, types⟩

/-- `method_setImplementation` -/
def methodSetImplementation (m : Method κ ς) (imp : ι) : Runtime κ ς ι :=
  match rt.entry m with
  | some e => rt.put m.cls m.name ⟨imp, e.types⟩
  | none => rt

/-- `method_exchangeImplementations` -/
def methodExchangeImplementations (m₁ m₂ : Method κ ς) : Option (Runtime κ ς ι) := do
  let imp₁ ← rt.methodGetImplementation m₁
  let imp₂ ← rt.methodGetImplementation m₂
  return (rt.methodSetImplementation m₁ imp₂).methodSetImplementation m₂ imp₁

/-- `objc_allocateClassPair` and `objc_registerClassPair`: a class without methods; `none` when the name
is taken. -/
def objcAllocateClassPair (superclass name : κ) : Option (Runtime κ ς ι) :=
  if h : rt.classes.known name = false ∧ rt.classes.known superclass = true then
    some
      { classes := rt.classes.extend name superclass h.1 h.2
        table := Function.update rt.table name fun _ => none }
  else none

/-! ## Tables after an operation -/

section Lemmas

variable {rt} {cls d : κ} {name sel : ς} {e : Entry ι}

theorem put_table : (rt.put cls name e).table =
    Function.update rt.table cls (Function.update (rt.table cls) name (some e)) := rfl

theorem put_table_self : (rt.put cls name e).table cls name = some e := by
  rw [put_table, Function.update_self, Function.update_self]

theorem put_table_of_sel_ne (h : sel ≠ name) : (rt.put cls name e).table d sel = rt.table d sel := by
  rw [put_table]
  by_cases hd : d = cls
  · rw [hd, Function.update_self, Function.update_of_ne h]
  · rw [Function.update_of_ne hd]

theorem put_table_of_cls_ne (h : d ≠ cls) : (rt.put cls name e).table d = rt.table d :=
  Function.update_of_ne h _ _

omit [DecidableEq κ] [DecidableEq ς] in
theorem lookup_of_own (h : rt.table cls name = some e) : rt.lookup cls name = some e := find_of_own h

omit [DecidableEq κ] [DecidableEq ς] in
theorem getInstanceMethod_of_own (h : rt.table cls name = some e) :
    rt.classGetInstanceMethod cls name = some ⟨cls, name⟩ := by
  rw [classGetInstanceMethod, owner_of_own (Option.isSome_of_eq_some h), Option.map_some]

omit [DecidableEq κ] [DecidableEq ς] in
/-- A resolved selector gives a reference to the method that lookup finds. -/
theorem getInstanceMethod_of_lookup (h : rt.lookup cls name = some e) :
    ∃ d, rt.classGetInstanceMethod cls name = some ⟨d, name⟩ ∧ d ∈ rt.classes.line cls ∧
      rt.table d name = some e := by
  obtain ⟨d, hd, he⟩ := exists_owner h
  exact ⟨d, by rw [classGetInstanceMethod, hd, Option.map_some], mem_line_of_owner hd, he⟩

omit [DecidableEq κ] [DecidableEq ς] in
theorem getInstanceMethod_eq_none (h : rt.lookup cls name = none) :
    rt.classGetInstanceMethod cls name = none := by
  rw [classGetInstanceMethod, owner_eq_none h, Option.map_none]

theorem setImplementation_eq (h : rt.table cls name = some e) (imp : ι) :
    rt.methodSetImplementation ⟨cls, name⟩ imp = rt.put cls name ⟨imp, e.types⟩ := by
  rw [methodSetImplementation, entry]
  simp only [h]

/-- Two methods of one class exchange their implementations and keep their encodings; exchanging a method
with itself changes nothing. -/
theorem exchange_table {e' : Entry ι} (h : rt.table cls name = some e) (h' : rt.table cls sel = some e') :
    ∃ rt', rt.methodExchangeImplementations ⟨cls, name⟩ ⟨cls, sel⟩ = some rt' ∧
      rt'.classes = rt.classes ∧ (∀ d, d ≠ cls → rt'.table d = rt.table d) ∧
      rt'.table cls name = some ⟨e'.imp, e.types⟩ ∧ rt'.table cls sel = some ⟨e.imp, e'.types⟩ ∧
      ∀ q, q ≠ name → q ≠ sel → rt'.table cls q = rt.table cls q := by
  have hset := setImplementation_eq h e'.imp
  by_cases hns : sel = name
  · subst hns
    obtain rfl := Option.some.inj (h.symm.trans h')
    have hself : (rt.put cls sel ⟨e.imp, e.types⟩).table cls sel = some ⟨e.imp, e.types⟩ := put_table_self
    have hset' := setImplementation_eq hself e.imp
    refine ⟨(rt.put cls sel ⟨e.imp, e.types⟩).put cls sel ⟨e.imp, e.types⟩, ?_, rfl, ?_, ?_, ?_, ?_⟩
    · simp only [methodExchangeImplementations, methodGetImplementation, entry, h, Option.map_some, hset,
        hset', Option.bind_eq_bind, Option.bind_some, Option.pure_def]
    · exact fun d hd => by rw [put_table_of_cls_ne hd, put_table_of_cls_ne hd]
    · exact put_table_self
    · exact put_table_self
    · exact fun q hq _ => by rw [put_table_of_sel_ne hq, put_table_of_sel_ne hq]
  · have hsel : (rt.put cls name ⟨e'.imp, e.types⟩).table cls sel = some e' := by
      rw [put_table_of_sel_ne hns, h']
    have hset' := setImplementation_eq hsel e.imp
    refine ⟨(rt.put cls name ⟨e'.imp, e.types⟩).put cls sel ⟨e.imp, e'.types⟩, ?_, rfl, ?_, ?_, ?_, ?_⟩
    · simp only [methodExchangeImplementations, methodGetImplementation, entry, h, h', Option.map_some,
        hset, hset', Option.bind_eq_bind, Option.bind_some, Option.pure_def]
    · exact fun d hd => by rw [put_table_of_cls_ne hd, put_table_of_cls_ne hd]
    · rw [put_table_of_sel_ne (Ne.symm hns), put_table_self]
    · exact put_table_self
    · exact fun q hq hq' => by rw [put_table_of_sel_ne hq', put_table_of_sel_ne hq]

omit [DecidableEq ς] in
/-- A new class has no methods and is directly below its superclass; the others stay. -/
theorem exists_allocate {superclass : κ} (hcls : rt.classes.known cls = false)
    (hsuper : rt.classes.known superclass = true) :
    ∃ rt', rt.objcAllocateClassPair superclass cls = some rt' ∧ rt'.classes.known cls = true ∧
      rt'.classes.super cls = some superclass ∧ (∀ q, rt'.table cls q = none) ∧
      ∀ d, d ≠ cls → rt'.classes.known d = rt.classes.known d ∧
        rt'.classes.super d = rt.classes.super d ∧ rt'.table d = rt.table d := by
  refine ⟨_, dif_pos ⟨hcls, hsuper⟩, extend_known_self hcls hsuper, extend_super_self hcls hsuper,
    fun q => ?_, fun d hd => ?_⟩
  · show Function.update rt.table cls (fun _ => none) cls q = none
    rw [Function.update_self]
  · exact ⟨extend_known_of_ne hcls hsuper hd, extend_super_of_ne hcls hsuper hd,
      Function.update_of_ne hd _ _⟩

end Lemmas

end Runtime

end QYInterview.ObjC
