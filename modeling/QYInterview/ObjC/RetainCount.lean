import QYInterview.Lib.Interleaving

/-!
# ObjC.RetainCount — retain counts in the isa and in the side table

`rootRetain`, `rootTryRetain` and `rootRelease` of an object with a non-pointer isa, and
`objc_loadWeakRetained` around the second.  The count is in the bits `extra_rc` of the isa; when they are
full, half of it moves to the side table, and it comes back when they are used up.  A call is a process; a
turn of it is one atomic access to the isa, or one operation on the side table, whose lock some calls take. 
`StoreExclusive` may fail for no reason.
-/

namespace QYInterview.ObjC.RetainCount

open Interleaving

/-- The bits of `isa_t` that count. -/
structure Isa where
  extraRc : ℕ
  hasSidetableRc : Bool
  deriving DecidableEq, Repr

/-- What a call has done to the count. -/
inductive Effect
  | retained
  | notRetained
  | released
  | deallocated
  | notReleased
  deriving DecidableEq, Repr

/-- An object: `refcnts` is its entry in the side table and `locked` is the lock of the side table;
`effects` lists what the calls did, and no code reads it. -/
structure Object where
  isa : Isa
  refcnts : Option ℕ
  locked : Bool
  effects : List Effect
  deriving DecidableEq, Repr

/-- `RRVariant`, with `sideTableLocked`. -/
inductive Variant
  | fast
  | full
  | fullLocked
  deriving DecidableEq, Repr

/-- Where a call is.  `returned` has the effect of the call: a retain returns the object, a try only if it
was retained; a release that was the last one calls `dealloc`. -/
inductive RefCall
  | loadWeak
  | loadRetain (tryRetain : Bool) (variant : Variant)
  | retaining (tryRetain : Bool) (variant : Variant) (oldisa : Isa)
  | transcribe
  | loadRelease (variant : Variant)
  | releasing (variant : Variant) (oldisa : Isa)
  | borrowed (oldisa : Isa) (remaining : ℕ)
  | borrowedAgain (oldisa : Isa) (remaining : ℕ)
  | putBack
  | clear (effect : Effect)
  | unlock (effect : Effect)
  | returned (effect : Effect)
  | unlockTwice
  | crashed
  deriving DecidableEq, Repr

/-! ## The code

`RC_HALF` is a parameter; `extra_rc` overflows at twice its value. -/

section Code

/-- `isDeallocating` -/
def Isa.isDeallocating (isa : Isa) : Bool := isa.extraRc == 0 && !isa.hasSidetableRc

/-- `initIsa` -/
def initObject : Object := ⟨⟨1, false⟩, none, false, []⟩

/-- `sidetable_addExtraRC_nolock` -/
def addExtraRC (deltaRc : ℕ) (refcnts : Option ℕ) : Option ℕ :=
  let oldRefcnt := refcnts.getD 0
  if 2 ^ 63 ≤ oldRefcnt then some oldRefcnt
  else if 2 ^ 64 ≤ oldRefcnt + deltaRc * 4 then some (2 ^ 63 + oldRefcnt % 4)
  else some (oldRefcnt + deltaRc * 4)

/-- `sidetable_subExtraRC_nolock`: the entry, and what was borrowed with what remains. -/
def subExtraRC (deltaRc : ℕ) (refcnts : Option ℕ) : Option ℕ × ℕ × ℕ :=
  match refcnts with
  | none | some 0 => (refcnts, 0, 0)
  | some oldRefcnt =>
    let newRefcnt := (oldRefcnt + 2 ^ 64 - deltaRc * 4) % 2 ^ 64
    (some newRefcnt, deltaRc, newRefcnt / 4)

/-- A call takes effect. -/
def Object.note (g : Object) (effect : Effect) : Object := { g with effects := g.effects ++ [effect] }

/-- `sidetable_lock`, which waits while another call has the lock. -/
def sidetableLock (g : Object) (s : RefCall) : Option (Object × RefCall) :=
  if g.locked then none else some ({ g with locked := true }, s)

/-- `StoreExclusive`: `ok` when the isa is still `oldisa` and the store does not fail for no reason. -/
def storeExclusive (spurious : Bool) (g : Object) (oldisa newisa : Isa) (ok : Object → Object × RefCall)
    (failed : RefCall) : Option (Object × RefCall) :=
  if !spurious && g.isa == oldisa then some (ok { g with isa := newisa }) else some (g, failed)

/-- Whether the call has the lock at the end of `rootRetain`, of its own or from `objc_loadWeakRetained`. -/
def finish (hasLock : Bool) (effect : Effect) : RefCall := if hasLock then
    .unlock effect else .returned effect

/-- The effect of a release that leaves this isa: the last one calls `dealloc`. -/
def releaseEffect (newisa : Isa) : Effect := if newisa.isDeallocating then .deallocated else .released

variable (rcHalf : ℕ)

/-- The store of `rootRetain` that leaves half of the count in the isa,
to move the other half to the side table. -/
def storeHalf (spurious : Bool) (g : Object) (tryRetain : Bool) (oldisa : Isa) : Option (Object × RefCall) :=
  storeExclusive spurious g oldisa ⟨rcHalf, true⟩ (fun g => (g.note .retained, .transcribe))
    (.retaining tryRetain .fullLocked g.isa)

/-- The loop of `rootRetain`. -/
def rootRetain (spurious : Bool) (g : Object) (tryRetain : Bool) (variant : Variant) (oldisa : Isa) :
    Option (Object × RefCall) :=
  if oldisa.isDeallocating then
    -- unlocks the side table also where the lock is the one of `objc_loadWeakRetained`
    if tryRetain && variant == .fullLocked then
      some ({ g with locked := false }.note .notRetained, .unlockTwice)
    else some (g.note .notRetained, finish (tryRetain || variant == .fullLocked) .notRetained)
  else if oldisa.extraRc + 1 < 2 * rcHalf then
    storeExclusive spurious g oldisa { oldisa with extraRc := oldisa.extraRc + 1 }
      (fun g => (g.note .retained, finish (tryRetain || variant == .fullLocked) .retained))
      (.retaining tryRetain variant g.isa)
  else match variant with
    | .fast => some (g, .loadRetain tryRetain .full)
    | .full =>
      if tryRetain then storeHalf rcHalf spurious g tryRetain oldisa
      else sidetableLock g (.retaining false .fullLocked oldisa)
    | .fullLocked => storeHalf rcHalf spurious g tryRetain oldisa

/-- The loop of `rootRelease`, up to the borrowing from the side table. -/
def rootRelease (spurious : Bool) (g : Object) (variant : Variant) (oldisa : Isa) :
    Option (Object × RefCall) :=
  if oldisa.isDeallocating then some (g.note .notReleased, finish (variant == .fullLocked) .notReleased)
  else if 0 < oldisa.extraRc then
    let newisa : Isa := { oldisa with extraRc := oldisa.extraRc - 1 }
    let effect := releaseEffect newisa
    storeExclusive spurious g oldisa newisa (fun g => (g.note effect, finish (variant == .fullLocked) effect))
      (.releasing variant g.isa)
  else match variant with
    | .fast => some (g, .loadRelease .full)
    | .full => sidetableLock g (.loadRelease .fullLocked)
    | .fullLocked =>
      let (refcnts, borrowed, remaining) := subExtraRC rcHalf g.refcnts
      if 0 < borrowed then some ({ g with refcnts := refcnts }, .borrowed oldisa remaining)
      else some ({ g with refcnts := refcnts }.note .deallocated, .unlock .deallocated)

/-- What follows a store that took over what was borrowed. -/
def afterBorrow (remaining : ℕ) (effect : Effect) : RefCall := if remaining = 0 then
    .clear effect else .unlock effect

/-- One turn of a call. -/
def next (spurious : Bool) (g : Object) : RefCall → Option (Object × RefCall)
  | .loadWeak => sidetableLock g (.loadRetain true .fast)
  | .loadRetain tryRetain variant => some (g, .retaining tryRetain variant g.isa)
  | .retaining tryRetain variant oldisa => rootRetain rcHalf spurious g tryRetain variant oldisa
  | .transcribe => some ({ g with refcnts := addExtraRC rcHalf g.refcnts }, .unlock .retained)
  | .loadRelease variant => some (g, .releasing variant g.isa)
  | .releasing variant oldisa => rootRelease rcHalf spurious g variant oldisa
  | .borrowed oldisa remaining =>
    storeExclusive spurious g oldisa ⟨rcHalf - 1, remaining != 0⟩
      (fun g => (g.note .released, afterBorrow remaining .released)) (.borrowedAgain g.isa remaining)
  | .borrowedAgain oldisa remaining =>
    if oldisa.extraRc + (rcHalf - 1) < 2 * rcHalf then
      let newisa : Isa := ⟨oldisa.extraRc + (rcHalf - 1), remaining != 0⟩
      let effect := releaseEffect newisa
      storeExclusive spurious g oldisa newisa (fun g =>
        (g.note effect, afterBorrow remaining effect)) .putBack
    else some (g, .putBack)
  | .putBack => some ({ g with refcnts := addExtraRC rcHalf g.refcnts }, .loadRelease .fullLocked)
  | .clear effect => some ({ g with refcnts := none }, .unlock effect)
  | .unlock effect => some ({ g with locked := false }, .returned effect)
  | .unlockTwice => some (g, .crashed)
  | .returned _ | .crashed => none

/-- The calls a client makes: `retain`, `release` and `objc_loadWeakRetained`. -/
def entry : RefCall → Bool
  | .loadRetain false .fast | .loadRelease .fast | .loadWeak => true
  | _ => false

end Code

/-! ## The turns -/

/-- The call has the lock of the side table. -/
def hasLock : RefCall → Bool
  | .loadRetain tryRetain variant | .retaining tryRetain variant _ => tryRetain || variant == .fullLocked
  | .loadRelease variant | .releasing variant _ => variant == .fullLocked
  | .transcribe | .borrowed _ _ | .borrowedAgain _ _ | .putBack | .clear _ | .unlock _ => true
  | _ => false

/-- The isa that a call has read. -/
def oldisa : RefCall → Option Isa
  | .retaining _ _ old | .releasing _ old => some old
  | _ => none

/-- What a turn can do. -/
inductive Turn (rcHalf : ℕ) (g : Object) : RefCall → Object → RefCall → Prop
  | loadRetain (t : Bool) (v : Variant) : Turn rcHalf g (.loadRetain t v) g (.retaining t v g.isa)
  | loadRelease (v : Variant) : Turn rcHalf g (.loadRelease v) g (.releasing v g.isa)
  | retryRetain (t : Bool) (v v' : Variant) (old : Isa)
      (hv : v' = v ∨ v' = .fullLocked ∧ t = true) : Turn rcHalf g (.retaining t v old) g
        (.retaining t v' g.isa)
  | retryRelease (v : Variant) (old : Isa) : Turn rcHalf g (.releasing v old) g (.releasing v g.isa)
  | overflow (t : Bool) (old : Isa) : Turn rcHalf g (.retaining t .fast old) g (.loadRetain t .full)
  | underflow (old : Isa) : Turn rcHalf g (.releasing .fast old) g (.loadRelease .full)
  | lockWeak (h : g.locked = false) :
      Turn rcHalf g .loadWeak { g with locked := true } (.loadRetain true .fast)
  | lockRetain (old : Isa) (h : g.locked = false) :
      Turn rcHalf g (.retaining false .full old) { g with locked := true } (.retaining false .fullLocked old)
  | lockRelease (old : Isa) (h : g.locked = false) :
      Turn rcHalf g (.releasing .full old) { g with locked := true } (.loadRelease .fullLocked)
  | dead (s : RefCall) (old : Isa) (e : Effect) (hold : old.isDeallocating = true)
      (hs : oldisa s = some old) (he : e = .notRetained ∨ e = .notReleased) :
      Turn rcHalf g s (g.note e) (finish (hasLock s) e)
  | twice (old : Isa) (hold : old.isDeallocating = true) : Turn rcHalf g (.retaining true .fullLocked old)
      ({ g with locked := false }.note .notRetained) .unlockTwice
  | crash : Turn rcHalf g .unlockTwice g .crashed
  | retain (t : Bool) (v : Variant) (hlive : g.isa.isDeallocating = false)
      (hroom : g.isa.extraRc + 1 < 2 * rcHalf) :
      Turn rcHalf g (.retaining t v g.isa)
        ({ g with isa := { g.isa with extraRc := g.isa.extraRc + 1 } }.note .retained)
        (finish (hasLock (.retaining t v g.isa)) .retained)
  | split (t : Bool) (v : Variant) (hv : hasLock (.retaining t v g.isa) = true)
      (hfull : 2 * rcHalf ≤ g.isa.extraRc + 1) :
      Turn rcHalf g (.retaining t v g.isa) ({ g with isa := ⟨rcHalf, true⟩ }.note .retained) .transcribe
  | transcribe : Turn rcHalf g .transcribe { g with refcnts := addExtraRC rcHalf g.refcnts }
      (.unlock .retained)
  | release (v : Variant) (hpos : 0 < g.isa.extraRc) : Turn rcHalf g (.releasing v g.isa)
      ({ g with isa := { g.isa with extraRc := g.isa.extraRc - 1 } }.note
        (releaseEffect { g.isa with extraRc := g.isa.extraRc - 1 }))
      (finish (hasLock (.releasing v g.isa)) (releaseEffect { g.isa with extraRc := g.isa.extraRc - 1 }))
  | borrow (old : Isa) (refcnts : Option ℕ) (borrowed remaining : ℕ) (hold : old.isDeallocating = false)
      (hzero : old.extraRc = 0) (hsub : subExtraRC rcHalf g.refcnts = (refcnts, borrowed, remaining))
      (hpos : 0 < borrowed) :
      Turn rcHalf g (.releasing .fullLocked old) { g with refcnts := refcnts } (.borrowed old remaining)
  | fallThrough (old : Isa) (refcnts : Option ℕ) (remaining : ℕ) (hold : old.isDeallocating = false)
      (hzero : old.extraRc = 0) (hsub : subExtraRC rcHalf g.refcnts = (refcnts, 0, remaining)) :
      Turn rcHalf g (.releasing .fullLocked old) ({ g with refcnts := refcnts }.note .deallocated)
        (.unlock .deallocated)
  | take (remaining : ℕ) : Turn rcHalf g (.borrowed g.isa remaining)
      ({ g with isa := ⟨rcHalf - 1, remaining != 0⟩ }.note .released) (afterBorrow remaining .released)
  | again (old : Isa) (remaining : ℕ) : Turn rcHalf g (.borrowed old remaining) g
      (.borrowedAgain g.isa remaining)
  | takeAgain (remaining : ℕ) (hroom : g.isa.extraRc + (rcHalf - 1) < 2 * rcHalf) :
      Turn rcHalf g (.borrowedAgain g.isa remaining)
        ({ g with isa := ⟨g.isa.extraRc + (rcHalf - 1), remaining != 0⟩ }.note
          (releaseEffect ⟨g.isa.extraRc + (rcHalf - 1), remaining != 0⟩))
        (afterBorrow remaining (releaseEffect ⟨g.isa.extraRc + (rcHalf - 1), remaining != 0⟩))
  | giveUp (old : Isa) (remaining : ℕ) : Turn rcHalf g (.borrowedAgain old remaining) g .putBack
  | putBack : Turn rcHalf g .putBack { g with refcnts := addExtraRC rcHalf g.refcnts }
      (.loadRelease .fullLocked)
  | clear (e : Effect) : Turn rcHalf g (.clear e) { g with refcnts := none } (.unlock e)
  | unlock (e : Effect) : Turn rcHalf g (.unlock e) { g with locked := false } (.returned e)

variable {rcHalf : ℕ} {g g' : Object} {s s' : RefCall} {spurious : Bool}

theorem sidetableLock_eq_some {r : RefCall} (h : sidetableLock g r = some (g', s')) :
    g.locked = false ∧ g' = { g with locked := true } ∧ s' = r := by
  rw [sidetableLock] at h
  split_ifs at h with hl
  cases h
  exact ⟨by simpa using hl, rfl, rfl⟩

theorem storeExclusive_eq_some {old new : Isa} {ok : Object → Object × RefCall} {failed : RefCall}
    (h : storeExclusive spurious g old new ok failed = some (g', s')) :
    g.isa = old ∧ ok { g with isa := new } = (g', s') ∨ g' = g ∧ s' = failed := by
  rw [storeExclusive] at h
  split_ifs at h with hok
  · simp only [Bool.and_eq_true, beq_iff_eq] at hok
    exact Or.inl ⟨hok.2, Option.some.inj h⟩
  · cases h
    exact Or.inr ⟨rfl, rfl⟩

theorem turn_rootRetain {t : Bool} {v : Variant} {old : Isa}
    (h : rootRetain rcHalf spurious g t v old = some (g', s')) :
    Turn rcHalf g (.retaining t v old) g' s' := by
  unfold rootRetain at h
  by_cases hold : old.isDeallocating = true
  · rw [if_pos hold] at h
    split_ifs at h with htwice
    · cases h
      simp only [Bool.and_eq_true, beq_iff_eq] at htwice
      obtain ⟨rfl, rfl⟩ := htwice
      exact .twice old hold
    · cases h
      exact .dead _ old _ hold rfl (Or.inl rfl)
  rw [if_neg hold] at h
  by_cases hroom : old.extraRc + 1 < 2 * rcHalf
  · rw [if_pos hroom] at h
    rcases storeExclusive_eq_some h with ⟨rfl, hok⟩ | ⟨rfl, rfl⟩
    · cases hok
      exact .retain t v (by simpa using hold) hroom
    · exact .retryRetain t v v old (Or.inl rfl)
  · rw [if_neg hroom] at h
    have hsplit : ∀ v, hasLock (.retaining t v old) = true → (v = .full → t = true) → v ≠ .fast →
        storeHalf rcHalf spurious g t old = some (g', s') → Turn rcHalf g (.retaining t v old) g' s' := by
      intro v hlock ht hfast h
      rcases storeExclusive_eq_some h with ⟨rfl, hok⟩ | ⟨rfl, rfl⟩
      · cases hok
        exact .split t v hlock (by omega)
      · refine .retryRetain t v .fullLocked old ?_
        cases v with
        | fast => exact absurd rfl hfast
        | full => exact Or.inr ⟨rfl, ht rfl⟩
        | fullLocked => exact Or.inl rfl
    cases v with
    | fast =>
      cases h
      exact .overflow t old
    | full =>
      dsimp only at h
      split_ifs at h with ht
      · subst ht
        exact hsplit .full rfl (fun _ => rfl) (by simp) h
      · obtain ⟨hfree, rfl, rfl⟩ := sidetableLock_eq_some h
        obtain rfl : t = false := by simpa using ht
        exact .lockRetain old hfree
    | fullLocked => exact hsplit .fullLocked (by cases t <;> rfl) (by simp) (by simp) h

theorem turn_rootRelease {v : Variant} {old : Isa} (h : rootRelease rcHalf spurious g v old = some (g', s')) :
    Turn rcHalf g (.releasing v old) g' s' := by
  unfold rootRelease at h
  by_cases hold : old.isDeallocating = true
  · rw [if_pos hold] at h
    cases h
    exact .dead _ old _ hold rfl (Or.inr rfl)
  rw [if_neg hold] at h
  by_cases hpos : 0 < old.extraRc
  · rw [if_pos hpos] at h
    rcases storeExclusive_eq_some h with ⟨rfl, hok⟩ | ⟨rfl, rfl⟩
    · cases hok
      exact .release v hpos
    · exact .retryRelease v old
  · rw [if_neg hpos] at h
    cases v with
    | fast =>
      cases h
      exact .underflow old
    | full =>
      obtain ⟨hfree, rfl, rfl⟩ := sidetableLock_eq_some h
      exact .lockRelease old hfree
    | fullLocked =>
      dsimp only at h
      split_ifs at h with hb
      · cases h
        exact .borrow old _ _ _ (by simpa using hold) (by omega) rfl hb
      · cases h
        refine .fallThrough old _ _ (by simpa using hold) (by omega) (Prod.ext rfl (Prod.ext ?_ rfl))
        simpa using hb

theorem turn_of_next (h : next rcHalf spurious g s = some (g', s')) : Turn rcHalf g s g' s' := by
  cases s with
  | loadWeak =>
    obtain ⟨hfree, rfl, rfl⟩ := sidetableLock_eq_some h
    exact .lockWeak hfree
  | loadRetain t v =>
    cases h
    exact .loadRetain t v
  | retaining t v old => exact turn_rootRetain h
  | transcribe =>
    cases h
    exact .transcribe
  | loadRelease v =>
    cases h
    exact .loadRelease v
  | releasing v old => exact turn_rootRelease h
  | borrowed old remaining =>
    simp only [next] at h
    rcases storeExclusive_eq_some h with ⟨rfl, hok⟩ | ⟨rfl, rfl⟩
    · cases hok
      exact .take remaining
    · exact .again old remaining
  | borrowedAgain old remaining =>
    simp only [next] at h
    split_ifs at h with hroom
    · rcases storeExclusive_eq_some h with ⟨rfl, hok⟩ | ⟨rfl, rfl⟩
      · cases hok
        exact .takeAgain remaining hroom
      · exact .giveUp old remaining
    · cases h
      exact .giveUp old remaining
  | putBack =>
    cases h
    exact .putBack
  | clear e =>
    cases h
    exact .clear e
  | unlock e =>
    cases h
    exact .unlock e
  | unlockTwice =>
    cases h
    exact .crash
  | returned e => cases h
  | crashed => cases h

end QYInterview.ObjC.RetainCount
