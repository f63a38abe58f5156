import QYInterview.Lib.RunLogic
import QYInterview.ObjC.Runtime
import QYInterview.ObjC.KVOKey

/-!
# ObjC.KVO — the category `NSObject (KVOBlock)`

The state is the runtime, the `isa` of every object, the observers associated with it, and the store the
program's own setters act on.  `Program` is the code outside the category: what a setter of the program
does, which may send setter messages in turn, and what `valueForKey:` reads (`none` where it raises).  The
values are objects, as the argument of `kvo_setter` is.  An exception ends an operation with the state reached
so far, and is not caught.
-/

namespace QYInterview.ObjC.KVO

open RunLogic

/-- `kQYKVOClassPrefix` -/
def kQYKVOClassPrefix : NSString :=
  units ['Q', 'Y', 'K', 'V', 'O', 'C', 'l', 'a', 's', 's', 'P', 'r', 'e', 'f', 'i', 'x', '_']

/-- `@selector(class)` -/
def classSelector : NSString := units ['c', 'l', 'a', 's', 's']

/-- Implementations: the program's own, `-[NSObject class]`, and the two functions of the category. -/
inductive Imp (U : Type)
  | user (u : U)
  | objectClass
  | kvoClass
  | kvoSetter
  deriving DecidableEq, Repr

/-- A setter of the program from some point on: it ends with the store it leaves, or sends a setter message
and goes on with the store there is then. -/
inductive Body (Obj Val Store : Type)
  | done (store : Store)
  | send (store : Store) (self : Obj) (_cmd : NSString) (newValue : Val) (rest : Store → Body Obj Val Store)

/-- The code the category calls into. -/
structure Program (Obj Val Store U : Type) where
  setter : U → Obj → Val → Store → Body Obj Val Store
  valueForKey : Store → Obj → NSString → Option Val

/-- `QYKVOInfo`, with its address. -/
structure QYKVOInfo (Obj B : Type) where
  address : ℕ
  observer : Obj
  key : NSString
  block : B
  deriving DecidableEq, Repr

structure World (Obj Store U B : Type) where
  runtime : Runtime NSString NSString (Imp U)
  isa : Obj → NSString
  observers : Obj → Option (List (QYKVOInfo Obj B))
  nextAddress : ℕ
  store : Store

/-- A run of one of the program's setters. -/
structure SetterRun (Obj Val U : Type) where
  setter : U
  object : Obj
  newValue : Val
  deriving DecidableEq, Repr

/-- A block given to `dispatch_async`, with the arguments it will be called with. -/
structure Dispatched (Obj Val B : Type) where
  block : B
  observedObject : Obj
  observedKey : NSString
  oldValue : Val
  newValue : Val
  deriving DecidableEq, Repr

/-- How an operation ends: with which exception, if any, and after which of the program's setters have run
and which blocks have been dispatched, both in order. -/
structure Outcome (Obj Val U B : Type) where
  exception : Option NSException
  ran : List (SetterRun Obj Val U)
  dispatched : List (Dispatched Obj Val B)
  deriving DecidableEq, Repr

variable {Obj Val Store U B : Type}

namespace Outcome

/-- An exception at once. -/
def raised (e : NSException) : Outcome Obj Val U B := ⟨some e, [], []⟩

/-- No exception. -/
def done (ran : List (SetterRun Obj Val U)) (dispatched : List (Dispatched Obj Val B)) :
    Outcome Obj Val U B :=
  ⟨none, ran, dispatched⟩

end Outcome

namespace World

variable (w : World Obj Store U B)

/-- The infos associated with an object. -/
def infos (self : Obj) : List (QYKVOInfo Obj B) := (w.observers self).getD []

/-- `kvo_class` -/
def kvoClass (self : Obj) : Prog NSString :=
  match w.runtime.classes.super (w.isa self) with
  | some c => pure c
  | none => trap

/-- `[self class]`; an override of `class` by the program is not followed. -/
def sendClass (self : Obj) : Prog NSString :=
  match w.runtime.lookupImp (w.isa self) classSelector with
  | some .objectClass => pure (w.isa self)
  | some .kvoClass => w.kvoClass self
  | _ => trap

/-- `hasSelector:` -/
def hasSelector (self : Obj) (selector : NSString) : Bool :=
  (w.runtime.table (w.isa self) selector).isSome

/-- `makeKVOClassWithOriginalClassName:` -/
def makeKVOClass (self : Obj) (originalClazzName : NSString) : Prog (NSString × World Obj Store U B) :=
  let kvoClazzName := kQYKVOClassPrefix ++ originalClazzName
  if w.runtime.classes.known kvoClazzName then pure (kvoClazzName, w)
  else
    let originalClas := w.isa self
    match w.runtime.objcAllocateClassPair originalClas kvoClazzName,
      (w.runtime.classGetInstanceMethod originalClas classSelector).bind w.runtime.methodGetTypeEncoding with
    | some rt, some types =>
      pure (kvoClazzName,
        { w with runtime := (rt.classAddMethod kvoClazzName classSelector .kvoClass types).2 })
    | _, _ => trap

/-- The blocks `kvo_setter` dispatches: one for every observer of the key, in the order of the array. -/
def dispatchBlocks {Val : Type} (self : Obj) (getterName : NSString) (oldValue newValue : Val) :
    List (Dispatched Obj Val B) :=
  ((w.infos self).filter fun each => each.key = getterName).map
    fun each => ⟨each.block, self, getterName, oldValue, newValue⟩

variable [DecidableEq Obj]

/-- `object_setClass` -/
def objectSetClass (self : Obj) (cls : NSString) : World Obj Store U B :=
  { w with isa := Function.update w.isa self cls }

/-- The object gets a KVO class unless it has one. -/
def becomeObserved (self : Obj) : Prog (World Obj Store U B) :=
  if kQYKVOClassPrefix <+: w.isa self then pure w
  else do
    let (clas, w') ← w.makeKVOClass self (w.isa self)
    return w'.objectSetClass self clas

omit [DecidableEq Obj] in
/-- The class of the object gets `kvo_setter` unless it has the setter itself. -/
def overrideSetter (self : Obj) (setterSelector : NSString) (setterMethod : Method NSString NSString) :
    Prog (World Obj Store U B) :=
  if w.hasSelector self setterSelector then pure w
  else
    match w.runtime.methodGetTypeEncoding setterMethod with
    | some types =>
      pure { w with runtime := (w.runtime.classAddMethod (w.isa self) setterSelector .kvoSetter types).2 }
    | none => trap

/-- The object's array of observers becomes `l`. -/
def setInfos (self : Obj) (l : List (QYKVOInfo Obj B)) : World Obj Store U B :=
  { w with observers := Function.update w.observers self (some l) }

/-- A new info at the end of the observers. -/
def addInfo (self observer : Obj) (key : NSString) (callBack : B) : World Obj Store U B :=
  { w.setInfos self (w.infos self ++ [⟨w.nextAddress, observer, key, callBack⟩]) with
    nextAddress := w.nextAddress + 1 }

theorem setInfos_infos (self : Obj) (l : List (QYKVOInfo Obj B)) :
    (w.setInfos self l).infos = Function.update w.infos self l := by
  funext o
  show (Function.update w.observers self (some l) o).getD [] = _
  by_cases ho : o = self
  · rw [ho, Function.update_self, Function.update_self, Option.getD_some]
  · rw [Function.update_of_ne ho, Function.update_of_ne ho]
    rfl

theorem addInfo_infos (self observer : Obj) (key : NSString) (callBack : B) :
    (w.addInfo self observer key callBack).infos =
      Function.update w.infos self (w.infos self ++ [⟨w.nextAddress, observer, key, callBack⟩]) :=
  w.setInfos_infos self _

end World

section Operations

variable [DecidableEq Obj] (C : CaseMap) (P : Program Obj Val Store U) (w : World Obj Store U B)

/-- What `qy_addObserver:forKey:callBack:` raises for a key without a setter. -/
def noSetterForKey (key : NSString) : NSException :=
  ⟨"NSInvalidArgumentException", "Object %@ does not have a setter for key %@", key⟩

/-- `qy_addObserver:forKey:callBack:` -/
def qyAddObserver (self observer : Obj) (key : NSString) (callBack : B) :
    Prog (World Obj Store U B × Outcome Obj Val U B) := do
  let cls ← w.sendClass self
  match setterForGetter C key with
  | none => return (w, .raised (noSetterForKey key))
  | some setterSelector =>
    match w.runtime.classGetInstanceMethod cls setterSelector with
    | none => return (w, .raised (noSetterForKey key))
    | some setterMethod =>
      let w₁ ← w.becomeObserved self
      let w₂ ← w₁.overrideSetter self setterSelector setterMethod
      return (w₂.addInfo self observer key callBack, .done [] [])

/-- `qy_removeObserver:forKey:`; without a match `removeObject:` gets `nil` and removes nothing. -/
def qyRemoveObserver (self observer : Obj) (key : NSString) : World Obj Store U B :=
  match w.observers self with
  | none => w
  | some observers =>
    match observers.find? fun info => info.observer = observer ∧ info.key = key with
    | none => w
    | some infoToRemove =>
      w.setInfos self (observers.filter fun info => info.address ≠ infoToRemove.address)

omit [DecidableEq Obj] in
/-- `kvo_setter`; `sendSuper` is `objc_msgSendSuper` with the same selector and value. -/
def kvoSetter (self : Obj) (_cmd : NSString) (newValue : Val)
    (sendSuper : NSString → Prog (World Obj Store U B × Outcome Obj Val U B)) :
    Prog (World Obj Store U B × Outcome Obj Val U B) :=
  match getterForSetter C _cmd with
  | .error e => pure (w, .raised e)
  | .ok none =>
    pure (w, .raised ⟨"NSInvalidArgumentException", "Object %@ does not have setter %@", _cmd⟩)
  | .ok (some getterName) =>
    match P.valueForKey w.store self getterName with
    | none => pure (w, .raised ⟨"NSUnknownKeyException", "valueForUndefinedKey:", getterName⟩)
    | some oldValue =>
      match w.runtime.classes.super (w.isa self) with
      | none => trap
      | some superClass => do
        let (w', out) ← sendSuper superClass
        match out.exception with
        | some _ => return (w', out)
        | none =>
          let blocks := w'.dispatchBlocks self getterName oldValue newValue
          return (w', { out with dispatched := out.dispatched ++ blocks })

end Operations

section Messages

variable (C : CaseMap) (P : Program Obj Val Store U)

/-- A setter of the program goes on in a world. -/
def runBody (send : World Obj Store U B → Obj → NSString → Val →
    Prog (World Obj Store U B × Outcome Obj Val U B)) :
    World Obj Store U B → Body Obj Val Store → Prog (World Obj Store U B × Outcome Obj Val U B)
  | w, .done store => pure ({ w with store := store }, .done [] [])
  | w, .send store self _cmd newValue rest => do
    let (w₁, out) ← send { w with store := store } self _cmd newValue
    match out.exception with
    | some _ => return (w₁, out)
    | none =>
      let (w₂, out') ← runBody send w₁ (rest w₁.store)
      return (w₂, ⟨out'.exception, out.ran ++ out'.ran, out.dispatched ++ out'.dispatched⟩)

/-- A setter message, with the class where its lookup starts. -/
structure Message (Obj Val Store U B : Type) where
  world : World Obj Store U B
  self : Obj
  _cmd : NSString
  newValue : Val
  cls : NSString

/-- One dispatch of a setter message. -/
def msgSendBody (call : Message Obj Val Store U B → Prog (World Obj Store U B × Outcome Obj Val U B)) :
    Message Obj Val Store U B → Prog (World Obj Store U B × Outcome Obj Val U B)
  | ⟨w, self, _cmd, newValue, cls⟩ =>
    match w.runtime.lookupImp cls _cmd with
    | none => pure (w, .raised ⟨"NSInvalidArgumentException", "unrecognized selector sent to instance", _cmd⟩)
    | some (.user u) => do
      let send := fun (w : World Obj Store U B) self _cmd newValue =>
        call ⟨w, self, _cmd, newValue, w.isa self⟩
      let (w', out) ← runBody send w (P.setter u self newValue w.store)
      return (w', { out with ran := ⟨u, self, newValue⟩ :: out.ran })
    | some .kvoSetter => kvoSetter C P w self _cmd newValue fun cls => call ⟨w, self, _cmd, newValue, cls⟩
    | some _ => pure (w, .done [] [])

/-- A setter message to an object. -/
def msgSend (w : World Obj Store U B) (self : Obj) (_cmd : NSString) (newValue : Val) :
    Prog (World Obj Store U B × Outcome Obj Val U B) :=
  fix (msgSendBody C P) ⟨w, self, _cmd, newValue, w.isa self⟩

end Messages

/-! ## Runs -/

/-- What the rest of the program asks for. -/
inductive Action (Obj Val B : Type)
  | addObserver (self observer : Obj) (key : NSString) (callBack : B)
  | removeObserver (self observer : Obj) (key : NSString)
  | set (self : Obj) (_cmd : NSString) (newValue : Val)
  deriving DecidableEq, Repr

variable [DecidableEq Obj] (C : CaseMap) (P : Program Obj Val Store U)

def step (w : World Obj Store U B) : Action Obj Val B → Prog (World Obj Store U B × Outcome Obj Val U B)
  | .addObserver self observer key callBack => qyAddObserver C w self observer key callBack
  | .removeObserver self observer key => pure (qyRemoveObserver w self observer key, .done [] [])
  | .set self _cmd newValue => msgSend C P w self _cmd newValue

/-- The actions one after the other, whatever each of them ends with. -/
def run (w : World Obj Store U B) (acts : List (Action Obj Val B)) : Prog (World Obj Store U B) :=
  forEach acts (fun w a => do return (← step C P w a).1) w

end QYInterview.ObjC.KVO
