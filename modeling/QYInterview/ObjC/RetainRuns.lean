import QYInterview.ObjC.RetainCount

/-!
# ObjC.RetainRuns — the retain count under every interleaving

The count of an object is what its isa holds, what its entry in the side table holds, and what a call with
the lock is moving between them.  In every run of retains, releases and loads of weak variables it is the
count of a plain counter (`counter_of_reachable`), and `dealloc` is called once, by the release that brings
it to zero (`deallocated_of_reachable`). The branch of `rootRelease` for an empty side table is never taken;
the lock is free when all calls have returned, and a dead object has left no entry in the side table
(`returned_of_stuck`).
-/

namespace QYInterview.ObjC.RetainCount

open Interleaving

/-! ## The abstract model -/

/-- A counter that stays at zero once it is there. -/
def counter : ℕ → Effect → Option ℕ
  | n + 1, .retained => some (n + 2)
  | 0, .notRetained => some 0
  | n + 2, .released => some (n + 1)
  | 1, .deallocated => some 0
  | 0, .notReleased => some 0
  | _, _ => none

/-! ## The invariant -/

/-- One for a call that has the lock. -/
def holds (s : RefCall) : ℕ := (hasLock s).toNat

/-- What a call is moving between the isa and the side table. -/
def moving (rcHalf : ℕ) : RefCall → ℕ
  | .transcribe | .borrowed _ _ | .borrowedAgain _ _ | .putBack => rcHalf
  | _ => 0

/-- What a call has done. -/
def outcome : RefCall → Multiset Effect
  | .transcribe => {.retained}
  | .clear e | .unlock e | .returned e => {e}
  | .unlockTwice | .crashed => {.notRetained}
  | _ => 0

/-- What the side table holds. -/
def sidetableCount (g : Object) : ℕ := g.refcnts.getD 0 / 4

/-- The retain count. -/
def count (rcHalf : ℕ) (p : Pool Object RefCall) : ℕ :=
  p.shared.isa.extraRc + sidetableCount p.shared + total (moving rcHalf) p.procs

/-- The calls that have the entry of the side table at zero without having removed it. -/
def zeroed : RefCall → Bool
  | .borrowed _ remaining | .borrowedAgain _ remaining => remaining == 0
  | .putBack | .clear _ => true
  | _ => false

/-- What is left in the side table, as far as a call knows. -/
def remaining : RefCall → Option ℕ
  | .borrowed _ remaining | .borrowedAgain _ remaining => some remaining
  | _ => none

/-- The shared state, where the calls have `H` times the lock, are moving `M` and have done `O`. -/
structure Shared (rcHalf : ℕ) (g : Object) (H M : ℕ) (O : Multiset Effect) : Prop where
  lock : H = g.locked.toNat
  refcnts : ∃ k, g.refcnts.getD 0 = 4 * (rcHalf * k)
  flag : g.isa.hasSidetableRc = decide (0 < sidetableCount g + M)
  room : g.isa.extraRc < 2 * rcHalf
  effects : Runs.run counter g.effects 1 = some (g.isa.extraRc + sidetableCount g + M)
  outcomes : (g.effects : Multiset Effect) = O
  entry : g.locked = false → g.refcnts ≠ some 0

/-- What a call knows of the shared state. -/
structure Knows (g : Object) (s : RefCall) : Prop where
  dead : ∀ old ∈ oldisa s, old.isDeallocating = true → g.isa.isDeallocating = true
  flag : ∀ old, s = .releasing .fullLocked old → old.hasSidetableRc = g.isa.hasSidetableRc
  empty : ∀ old n, s = .borrowed old n → old.extraRc = 0
  remaining : ∀ n ∈ remaining s, g.refcnts = some (4 * n)
  clear : ∀ e, s = .clear e → sidetableCount g = 0
  zero : hasLock s = true → g.refcnts = some 0 → zeroed s = true

structure Inv (rcHalf : ℕ) (p : Pool Object RefCall) : Prop where
  shared : Shared rcHalf p.shared (total holds p.procs) (total (moving rcHalf) p.procs)
    (total outcome p.procs)
  knows : ∀ s ∈ p.procs, Knows p.shared s

/-- The calls so far are too few for the side table to overflow. -/
def Fits (p : Pool Object RefCall) : Prop := 4 * (1 + p.procs.length) < 2 ^ 63

variable {rcHalf H M : ℕ} {g g' : Object} {s s' : RefCall} {O : Multiset Effect} {p : Pool Object RefCall}

@[simp] theorem hasLock_finish (b : Bool) (e : Effect) : hasLock (finish b e) = b := by cases b <;> rfl

@[simp] theorem hasLock_afterBorrow (n : ℕ) (e : Effect) : hasLock (afterBorrow n e) = true := by
  unfold afterBorrow
  split <;> rfl

@[simp] theorem moving_finish (b : Bool) (e : Effect) : moving rcHalf (finish b e) = 0 := by cases b <;> rfl

@[simp] theorem moving_afterBorrow (n : ℕ) (e : Effect) : moving rcHalf (afterBorrow n e) = 0 := by
  unfold afterBorrow
  split <;> rfl

@[simp] theorem outcome_finish (b : Bool) (e : Effect) : outcome (finish b e) = {e} := by cases b <;> rfl

@[simp] theorem outcome_afterBorrow (n : ℕ) (e : Effect) : outcome (afterBorrow n e) = {e} := by
  unfold afterBorrow
  split <;> rfl

theorem isDeallocating_iff {isa : Isa} :
    isa.isDeallocating = true ↔ isa.extraRc = 0 ∧ isa.hasSidetableRc = false := by
  simp [Isa.isDeallocating]

theorem bne_zero_eq (n : ℕ) : (n != 0) = decide (0 < n + (0 + 0)) := by
  cases n with
  | zero => rfl
  | succ n => simp

theorem moving_le (rcHalf : ℕ) (s : RefCall) : moving rcHalf s ≤ rcHalf * holds s := by
  cases s <;> simp [moving, holds, hasLock]

/-- Only calls with the lock move something. -/
theorem total_moving (rcHalf : ℕ) (procs : List RefCall) (h : total holds procs = 0) :
    total (moving rcHalf) procs = 0 := by
  rw [total_eq_zero] at h ⊢
  intro s hs
  have hle := moving_le rcHalf s
  rw [h s hs] at hle
  omega

/-! ## The counter -/

theorem run_counter_le {effects : List Effect} {n m : ℕ} (h : Runs.run counter effects n = some m) :
    m ≤ n + effects.length := by
  induction effects generalizing n with
  | nil =>
    obtain rfl := Option.some.inj h
    simp
  | cons e effects ih =>
    obtain ⟨k, hk, hrest⟩ := Option.bind_eq_some_iff.mp h
    have hstep : k ≤ n + 1 := by
      unfold counter at hk
      split at hk <;> cases hk <;> omega
    have hle := ih hrest
    rw [List.length_cons]
    omega

theorem counter_retained {n : ℕ} (h : 0 < n) : counter n .retained = some (n + 1) := by
  obtain ⟨k, rfl⟩ := Nat.exists_eq_add_of_le' h
  rfl

theorem counter_released {n : ℕ} (h : 2 ≤ n) : counter n .released = some (n - 1) := by
  obtain ⟨k, rfl⟩ := Nat.exists_eq_add_of_le' h
  rfl

theorem counter_dead {e : Effect} (he : e = .notRetained ∨ e = .notReleased) : counter 0 e = some 0 := by
  rcases he with rfl | rfl <;> rfl

/-- A release of a counter that goes to the isa. -/
theorem counter_releaseEffect {isa : Isa} {n : ℕ} (hpos : 0 < n) (hdead : isa.isDeallocating = true ↔ n = 1) :
    counter n (releaseEffect isa) = some (n - 1) := by
  unfold releaseEffect
  split
  · obtain rfl := hdead.mp ‹_›
    rfl
  · have hne : n ≠ 1 := fun h => absurd (hdead.mpr h) ‹_›
    exact counter_released (by omega)

/-! ## The side table -/

theorem addExtraRC_eq {d n : ℕ} {refcnts : Option ℕ} (h : refcnts.getD 0 = 4 * n)
    (hlt : 4 * (n + d) < 2 ^ 63) :
    addExtraRC d refcnts = some (4 * (n + d)) := by
  unfold addExtraRC
  dsimp only
  rw [h, if_neg (by omega), if_neg (by omega)]
  congr 1
  omega

theorem subExtraRC_eq {d n : ℕ} {refcnts : Option ℕ} (h : refcnts.getD 0 = 4 * n) (hpos : 0 < n) (hd : d ≤ n)
    (hlt : 4 * n < 2 ^ 63) : subExtraRC d refcnts = (some (4 * (n - d)), d, n - d) := by
  cases refcnts with
  | none =>
    rw [Option.getD_none] at h
    omega
  | some v =>
    obtain rfl : v = 4 * n := h
    obtain ⟨m, hm⟩ : ∃ m, 4 * n = m + 1 := ⟨4 * n - 1, by omega⟩
    have hnew : (m + 1 + 2 ^ 64 - d * 4) % 2 ^ 64 = 4 * (n - d) := by omega
    rw [hm, subExtraRC]
    · rw [hnew, Nat.mul_div_cancel_left _ (by omega)]
    · simp

/-! ## One turn -/

theorem Shared.count_eq_zero (h : Shared rcHalf g H M O) (hdead : g.isa.isDeallocating = true) :
    g.isa.extraRc = 0 ∧ sidetableCount g = 0 ∧ M = 0 := by
  obtain ⟨hzero, hflag⟩ := isDeallocating_iff.mp hdead
  have hnone := h.flag
  rw [hflag] at hnone
  have hle : ¬ 0 < sidetableCount g + M := by simpa using hnone.symm
  omega

theorem Shared.count_pos (h : Shared rcHalf g H M O) (hlive : g.isa.isDeallocating = false) :
    0 < g.isa.extraRc + sidetableCount g + M := by
  by_contra hzero
  have hflag := h.flag
  rw [decide_eq_false (by omega)] at hflag
  rw [isDeallocating_iff.mpr ⟨by omega, hflag⟩] at hlive
  cases hlive

theorem Shared.lock_taken (h : Shared rcHalf g H M O) (hfree : g.locked = false) :
    Shared rcHalf { g with locked := true } (H + 1) M O := by
  have hlock := h.lock
  rw [hfree] at hlock
  exact ⟨congrArg (· + 1) hlock, h.refcnts, h.flag, h.room, h.effects, h.outcomes, fun hl => by cases hl⟩

theorem Shared.lock_free (h : Shared rcHalf g (H + 1) M O) (hentry : g.refcnts ≠ some 0) :
    Shared rcHalf { g with locked := false } H M O := by
  have hlock := h.lock
  have hle := Bool.toNat_le g.locked
  refine ⟨?_, h.refcnts, h.flag, h.room, h.effects, h.outcomes, fun _ => hentry⟩
  show H = 0
  omega

/-- A call that has an effect on the isa and the count. -/
theorem Shared.store {M' : ℕ} {isa : Isa} {e : Effect} (h : Shared rcHalf g H M O)
    (hflag : isa.hasSidetableRc = decide (0 < sidetableCount g + M')) (hroom : isa.extraRc < 2 * rcHalf)
    (hcounter : counter (g.isa.extraRc + sidetableCount g + M) e =
      some (isa.extraRc + sidetableCount g + M')) :
    Shared rcHalf ({ g with isa := isa }.note e) H M' (O + {e}) := by
  refine ⟨h.lock, h.refcnts, hflag, hroom, ?_, ?_, h.entry⟩
  · exact (Runs.run_concat h.effects).trans hcounter
  · rw [← h.outcomes]
    exact (Multiset.coe_add _ _).symm

/-- A move between a call and the side table. -/
theorem Shared.move {M' n : ℕ} {refcnts : Option ℕ} (h : Shared rcHalf g H M O)
    (hrefcnts : refcnts.getD 0 = 4 * n) (hdvd : rcHalf ∣ n) (hcount : n + M' = sidetableCount g + M)
    (hentry : g.locked = true) :
    Shared rcHalf { g with refcnts := refcnts } H M' O := by
  have hside : sidetableCount { g with refcnts := refcnts } = n := by
    unfold sidetableCount
    rw [hrefcnts]
    omega
  obtain ⟨k, rfl⟩ := hdvd
  refine ⟨h.lock, ⟨k, hrefcnts⟩, ?_, h.room, ?_, h.outcomes, fun hl => ?_⟩
  · rw [hside, hcount]
    exact h.flag
  · rw [hside, add_assoc, hcount, ← add_assoc]
    exact h.effects
  · exact absurd (hentry.symm.trans hl) (by simp)

theorem Shared.note_dead {e : Effect} (h : Shared rcHalf g H M O) (hdead : g.isa.isDeallocating = true)
    (he : e = .notRetained ∨ e = .notReleased) : Shared rcHalf (g.note e) H M (O + {e}) := by
  obtain ⟨h1, h2, h3⟩ := h.count_eq_zero hdead
  refine h.store (show g.isa.hasSidetableRc = _ from h.flag) h.room ?_
  rw [h1, h2, h3]
  exact counter_dead he

theorem Shared.sidetable (h : Shared rcHalf g H M O) :
    ∃ k, g.refcnts.getD 0 = 4 * (rcHalf * k) ∧ sidetableCount g = rcHalf * k := by
  obtain ⟨k, hk⟩ := h.refcnts
  refine ⟨k, hk, ?_⟩
  unfold sidetableCount
  rw [hk]
  omega

/-- A call that has the lock is the only one to move something. -/
theorem Shared.alone (hHM : H = 0 → M = 0) (h : Shared rcHalf g (H + holds s) (M + moving rcHalf s) O)
    (hs : hasLock s = true) : g.locked = true ∧ M = 0 := by
  have hlock := h.lock
  have hle := Bool.toNat_le g.locked
  rw [holds, hs, Bool.toNat_true] at hlock
  refine ⟨?_, hHM (by omega)⟩
  rw [← Bool.toNat_eq_one]
  omega

/-- `sidetable_addExtraRC_nolock` takes what a call is moving. -/
theorem Shared.add (hfits : 4 * (g.isa.extraRc + sidetableCount g + (M + rcHalf)) < 2 ^ 63)
    (h : Shared rcHalf g H (M + rcHalf) O) (hlocked : g.locked = true) :
    Shared rcHalf { g with refcnts := addExtraRC rcHalf g.refcnts } H M O := by
  obtain ⟨k, hrefcnts, hside⟩ := h.sidetable
  have hadd := addExtraRC_eq (d := rcHalf) hrefcnts (by omega)
  refine h.move (n := rcHalf * k + rcHalf) (by rw [hadd]; rfl) (Dvd.intro (k + 1) (by ring)) ?_ hlocked
  omega

theorem sidetableCount_of_remaining {n : ℕ} (hk : Knows g s) (hn : n ∈ remaining s) :
    sidetableCount g = n := by
  unfold sidetableCount
  rw [hk.remaining n hn, Option.getD_some, Nat.mul_div_cancel_left _ (by omega)]

/-- A call that has read the isa has done nothing yet. -/
theorem reads_nothing (rcHalf : ℕ) {old : Isa} (h : oldisa s = some old) :
    moving rcHalf s = 0 ∧ outcome s = 0 ∧ zeroed s = false := by
  cases s with
  | retaining t v old => exact ⟨rfl, rfl, rfl⟩
  | releasing v old => exact ⟨rfl, rfl, rfl⟩
  | _ => cases h

/-- Where the isa has nothing left and the call has the lock, the side table has something. -/
theorem Shared.borrow {old : Isa} {N : ℕ} (hM : M = 0)
    (hfits : 4 * (g.isa.extraRc + sidetableCount g + N) < 2 ^ 63) (hk : Knows g (.releasing .fullLocked old))
    (h : Shared rcHalf g H (M + moving rcHalf (.releasing .fullLocked old)) O)
    (hold : old.isDeallocating = false) (hzero : old.extraRc = 0) :
    ∃ k, sidetableCount g = rcHalf * (k + 1) ∧
      subExtraRC rcHalf g.refcnts = (some (4 * (rcHalf * k)), rcHalf, rcHalf * k) := by
  subst hM
  have hflag : old.hasSidetableRc = true := by
    by_contra hno
    rw [isDeallocating_iff.mpr ⟨hzero, by simpa using hno⟩] at hold
    cases hold
  rw [hk.flag old rfl, h.flag, decide_eq_true_iff] at hflag
  obtain ⟨k, hrefcnts, hside⟩ := h.sidetable
  have hpos : 0 < rcHalf * k := by
    rw [← hside]
    exact hflag
  obtain ⟨k, rfl⟩ := Nat.exists_eq_succ_of_ne_zero (Nat.pos_of_mul_pos_left hpos).ne'
  refine ⟨k, hside, ?_⟩
  have hsub := subExtraRC_eq (d := rcHalf) hrefcnts hpos
    (Nat.le_mul_of_pos_right _ (Nat.succ_pos k)) (by omega)
  rw [hsub, Nat.mul_succ, Nat.add_sub_cancel]

/-- **One turn**, between calls that have `H` times the lock, are moving `M` and have done `O`. -/
theorem Turn.shared (hhalf : 2 ≤ rcHalf) (hHM : H = 0 → M = 0)
    (hfits : 4 * (g.isa.extraRc + sidetableCount g + (M + moving rcHalf s)) < 2 ^ 63) (hk : Knows g s)
    (h : Shared rcHalf g (H + holds s) (M + moving rcHalf s) (O + outcome s)) (ht : Turn rcHalf g s g' s') :
    Shared rcHalf g' (H + holds s') (M + moving rcHalf s') (O + outcome s') := by
  have hother : hasLock s = true → g.locked = true ∧ M = 0 := h.alone hHM
  cases ht with
  | loadRetain t v => exact h
  | loadRelease v => exact h
  | retryRetain t v v' old hv =>
    rcases hv with rfl | ⟨rfl, rfl⟩
    · exact h
    · exact h
  | retryRelease v old => exact h
  | overflow t old => exact h
  | underflow old => exact h
  | lockWeak hfree => exact h.lock_taken hfree
  | lockRetain old hfree => exact h.lock_taken hfree
  | lockRelease old hfree => exact h.lock_taken hfree
  | dead _ old e hold hs he =>
    obtain ⟨hmov, hout, -⟩ := reads_nothing rcHalf hs
    rw [hmov, hout, add_zero, add_zero] at h
    rw [holds, hasLock_finish, moving_finish, outcome_finish, add_zero]
    exact h.note_dead (hk.dead old hs hold) he
  | twice old hold =>
    rw [show outcome (.retaining true .fullLocked old) = 0 from rfl, add_zero] at h
    have hfree : Shared rcHalf { g with locked := false } H (M + 0) O :=
      h.lock_free fun hzero => by simpa [zeroed] using hk.zero rfl hzero
    exact hfree.note_dead (hk.dead old rfl hold) (Or.inl rfl)
  | crash => exact h
  | retain t v hlive hroom =>
    rw [show outcome (.retaining t v g.isa) = 0 from rfl, add_zero] at h
    have hpos := h.count_pos hlive
    rw [holds, hasLock_finish, moving_finish, outcome_finish]
    refine Shared.store h h.flag hroom ?_
    rw [counter_retained hpos]
    congr 1
    show _ = g.isa.extraRc + 1 + sidetableCount g + (M + 0)
    show g.isa.extraRc + sidetableCount g + (M + 0) + 1 = _
    omega
  | split t v hv hfull =>
    rw [show outcome (.retaining t v g.isa) = 0 from rfl, add_zero, holds, hv] at h
    have hroom := h.room
    refine Shared.store h ?_ (by show rcHalf < 2 * rcHalf; omega) ?_
    · exact (decide_eq_true (by show 0 < sidetableCount g + (M + rcHalf); omega)).symm
    · rw [counter_retained (by omega)]
      congr 1
      show g.isa.extraRc + sidetableCount g + (M + 0) + 1 = rcHalf + sidetableCount g + (M + rcHalf)
      omega
  | transcribe => exact Shared.add hfits h (hother rfl).1
  | release v hpos =>
    rw [show outcome (.releasing v g.isa) = 0 from rfl, add_zero] at h
    rw [holds, hasLock_finish, moving_finish, outcome_finish]
    have hflag := h.flag
    have hroom := h.room
    refine Shared.store h h.flag (by show g.isa.extraRc - 1 < 2 * rcHalf; omega) ?_
    rw [counter_releaseEffect (by omega)]
    · congr 1
      show g.isa.extraRc + sidetableCount g + (M + 0) - 1 = g.isa.extraRc - 1 + sidetableCount g + (M + 0)
      omega
    · rw [isDeallocating_iff]
      show g.isa.extraRc - 1 = 0 ∧ g.isa.hasSidetableRc = false ↔
        g.isa.extraRc + sidetableCount g + (M + 0) = 1
      rw [hflag, decide_eq_false_iff_not]
      show g.isa.extraRc - 1 = 0 ∧ ¬ 0 < sidetableCount g + (M + 0) ↔ _
      omega
  | borrow old refcnts borrowed remaining hold hzero hsub hpos =>
    obtain ⟨k, hside, hsub'⟩ := h.borrow (hother rfl).2 hfits hk hold hzero
    rw [hsub, Prod.mk.injEq, Prod.mk.injEq] at hsub'
    obtain ⟨rfl, rfl, rfl⟩ := hsub'
    refine Shared.move h (n := borrowed * k) rfl (Dvd.intro k rfl) ?_ (hother rfl).1
    show borrowed * k + (M + borrowed) = sidetableCount g + (M + 0)
    rw [hside]
    ring
  | fallThrough old refcnts remaining hold hzero hsub =>
    obtain ⟨k, hside, hsub'⟩ := h.borrow (hother rfl).2 hfits hk hold hzero
    rw [hsub, Prod.mk.injEq, Prod.mk.injEq] at hsub'
    omega
  | take remaining =>
    obtain ⟨hlocked, rfl⟩ := hother rfl
    have hzero := hk.empty g.isa remaining rfl
    have hside : sidetableCount g = remaining := sidetableCount_of_remaining hk rfl
    rw [show outcome (.borrowed g.isa remaining) = 0 from rfl, add_zero] at h
    rw [moving_afterBorrow, outcome_afterBorrow, holds, hasLock_afterBorrow]
    refine Shared.store h ?_ (by show rcHalf - 1 < 2 * rcHalf; omega) ?_
    · rw [hside]
      exact bne_zero_eq remaining
    · rw [counter_released]
      · congr 1
        show g.isa.extraRc + sidetableCount g + (0 + rcHalf) - 1 = rcHalf - 1 + sidetableCount g + (0 + 0)
        omega
      · show 2 ≤ g.isa.extraRc + sidetableCount g + (0 + rcHalf)
        omega
  | again old remaining => exact h
  | takeAgain remaining hroom =>
    obtain ⟨hlocked, rfl⟩ := hother rfl
    have hside : sidetableCount g = remaining := sidetableCount_of_remaining hk rfl
    rw [show outcome (.borrowedAgain g.isa remaining) = 0 from rfl, add_zero] at h
    rw [moving_afterBorrow, outcome_afterBorrow, holds, hasLock_afterBorrow]
    refine Shared.store h ?_ hroom ?_
    · rw [hside]
      exact bne_zero_eq remaining
    · have hcount : g.isa.extraRc + sidetableCount g + (0 + moving rcHalf (.borrowedAgain g.isa remaining)) =
          g.isa.extraRc + (rcHalf - 1) + sidetableCount g + (0 + 0) + 1 := by
        show g.isa.extraRc + sidetableCount g + (0 + rcHalf) = _
        omega
      rw [hcount, counter_releaseEffect (by omega)]
      · rfl
      · rw [isDeallocating_iff]
        refine ⟨fun hdead => ?_, fun hone => ?_⟩
        · have hextra : g.isa.extraRc + (rcHalf - 1) = 0 := hdead.1
          omega
        · omega
  | giveUp old remaining => exact h
  | putBack => exact Shared.add hfits h (hother rfl).1
  | clear e =>
    have hzero : sidetableCount g = 0 := hk.clear e rfl
    refine Shared.move h (n := 0) rfl (dvd_zero _) ?_ (hother rfl).1
    show 0 + (M + 0) = sidetableCount g + (M + 0)
    omega
  | unlock e => exact h.lock_free fun hzero => by simpa [zeroed] using hk.zero rfl hzero

/-! ## What the calls know -/

theorem addExtraRC_ne_zero {d : ℕ} (hd : 0 < d) (refcnts : Option ℕ) : addExtraRC d refcnts ≠ some 0 := by
  unfold addExtraRC
  dsimp only
  split_ifs <;> simp only [ne_eq, Option.some.injEq] <;> omega

/-- A dead object stays dead. -/
theorem Turn.stays_dead (hhalf : 2 ≤ rcHalf) {N : ℕ} (h : Shared rcHalf g H (N + moving rcHalf s) O)
    (ht : Turn rcHalf g s g' s') (hdead : g.isa.isDeallocating = true) : g'.isa.isDeallocating = true := by
  obtain ⟨hzero, -, hM⟩ := h.count_eq_zero hdead
  cases ht with
  | retain t v hlive hroom =>
    rw [hdead] at hlive
    cases hlive
  | split t v hv hfull => omega
  | release v hpos => omega
  | take remaining =>
    simp only [moving] at hM
    omega
  | takeAgain remaining hroom =>
    simp only [moving] at hM
    omega
  | _ => exact hdead

/-- A call without the lock leaves the side table alone while another one has it. -/
theorem Turn.frame (ht : Turn rcHalf g s g' s') (hs : hasLock s = false) :
    g'.refcnts = g.refcnts ∧ g'.isa.hasSidetableRc = g.isa.hasSidetableRc := by
  cases ht with
  | split t v hv hfull => exact absurd (hs.symm.trans hv) (by simp)
  | transcribe => cases hs
  | borrow => cases hs
  | fallThrough => cases hs
  | take => cases hs
  | takeAgain => cases hs
  | putBack => cases hs
  | clear => cases hs
  | _ => exact ⟨rfl, rfl⟩

theorem hasLock_of_remaining {n : ℕ} (h : n ∈ remaining s) : hasLock s = true := by
  cases s with
  | borrowed old n => rfl
  | borrowedAgain old n => rfl
  | _ => cases h

theorem Knows.other {t : RefCall} (h : Knows g t)
    (hdead : g.isa.isDeallocating = true → g'.isa.isDeallocating = true)
    (hframe : hasLock t = true → g'.refcnts = g.refcnts ∧ g'.isa.hasSidetableRc = g.isa.hasSidetableRc) :
    Knows g' t := by
  refine ⟨fun old hold hd => hdead (h.dead old hold hd), ?_, h.empty, ?_, ?_, ?_⟩
  · rintro old rfl
    rw [(hframe rfl).2]
    exact h.flag old rfl
  · intro n hn
    rw [(hframe (hasLock_of_remaining hn)).1]
    exact h.remaining n hn
  · rintro e rfl
    unfold sidetableCount
    rw [(hframe rfl).1]
    exact h.clear e rfl
  · intro hlock
    rw [(hframe hlock).1]
    exact h.zero hlock

/-- The calls that neither hold a copy of the isa nor know the entry of the side table. -/
def plain : RefCall → Bool
  | .retaining _ _ _ | .releasing _ _ | .borrowed _ _ | .borrowedAgain _ _ | .clear _ => false
  | _ => true

theorem knows_plain (hs : plain s = true) (hzero : hasLock s = true → g.refcnts = some 0 → zeroed s = true) :
    Knows g s := by
  refine ⟨?_, ?_, ?_, ?_, ?_, hzero⟩
  · intro old hold
    cases s with
    | retaining t v old => cases hs
    | releasing v old => cases hs
    | _ => cases hold
  · rintro old rfl
    cases hs
  · rintro old n rfl
    cases hs
  · intro n hn
    cases s with
    | borrowed old n => cases hs
    | borrowedAgain old n => cases hs
    | _ => cases hn
  · rintro e rfl
    cases hs

/-- A call that is not in the side table. -/
theorem knows_unlocked (hs : plain s = true) (hlock : hasLock s = false) : Knows g s :=
  knows_plain hs fun hl => absurd (hlock.symm.trans hl) (by simp)

/-- A call that may be in the side table, whose entry is not zero. -/
theorem knows_entry (hs : plain s = true) (hzero : hasLock s = true → g.refcnts ≠ some 0) : Knows g s :=
  knows_plain hs fun hl h0 => absurd h0 (hzero hl)

theorem knows_retaining {t : Bool} {v : Variant} {old : Isa}
    (hdead : old.isDeallocating = true → g.isa.isDeallocating = true)
    (hzero : hasLock (.retaining t v old) = true → g.refcnts ≠ some 0) : Knows g (.retaining t v old) := by
  refine ⟨?_, ?_, ?_, ?_, ?_, fun hl h0 => absurd h0 (hzero hl)⟩
  · intro old' hold
    obtain rfl := Option.some.inj hold
    exact hdead
  · intro old' h
    cases h
  · intro old' n h
    cases h
  · intro n h
    cases h
  · intro e h
    cases h

theorem knows_releasing {v : Variant} {old : Isa}
    (hdead : old.isDeallocating = true → g.isa.isDeallocating = true)
    (hflag : old.hasSidetableRc = g.isa.hasSidetableRc)
    (hzero : hasLock (.releasing v old) = true → g.refcnts ≠ some 0) : Knows g (.releasing v old) := by
  refine ⟨?_, ?_, ?_, ?_, ?_, fun hl h0 => absurd h0 (hzero hl)⟩
  · intro old' hold
    obtain rfl := Option.some.inj hold
    exact hdead
  · intro old' h
    obtain ⟨-, rfl⟩ := RefCall.releasing.inj h
    exact hflag
  · intro old' n h
    cases h
  · intro n h
    cases h
  · intro e h
    cases h

theorem knows_finish {b : Bool} {e : Effect} (hzero : b = true → g.refcnts ≠ some 0) :
    Knows g (finish b e) := by
  cases b with
  | false => exact knows_unlocked rfl rfl
  | true => exact knows_entry rfl fun _ => hzero rfl

theorem knows_clear {e : Effect} (hcount : sidetableCount g = 0) : Knows g (.clear e) := by
  refine ⟨?_, ?_, ?_, ?_, fun _ _ => hcount, fun _ _ => rfl⟩
  · intro old h
    cases h
  · intro old h
    cases h
  · intro old n h
    cases h
  · intro n h
    cases h

theorem beq_zero_of_entry {n : ℕ} (hrem : g.refcnts = some (4 * n)) (h0 : g.refcnts = some 0) :
    (n == 0) = true := by
  rw [hrem, Option.some.injEq] at h0
  exact beq_iff_eq.mpr (by omega)

theorem knows_borrowed {old : Isa} {n : ℕ} (hempty : old.extraRc = 0) (hrem : g.refcnts = some (4 * n)) :
    Knows g (.borrowed old n) := by
  refine ⟨?_, ?_, ?_, ?_, ?_, fun _ h0 => beq_zero_of_entry hrem h0⟩
  · intro old' h
    cases h
  · intro old' h
    cases h
  · intro old' n' h
    obtain ⟨rfl, -⟩ := RefCall.borrowed.inj h
    exact hempty
  · intro n' h
    obtain rfl := Option.some.inj h
    exact hrem
  · intro e h
    cases h

theorem knows_borrowedAgain {old : Isa} {n : ℕ} (hrem : g.refcnts = some (4 * n)) :
    Knows g (.borrowedAgain old n) := by
  refine ⟨?_, ?_, ?_, ?_, ?_, fun _ h0 => beq_zero_of_entry hrem h0⟩
  · intro old' h
    cases h
  · intro old' h
    cases h
  · intro old' n' h
    cases h
  · intro n' h
    obtain rfl := Option.some.inj h
    exact hrem
  · intro e h
    cases h

theorem knows_afterBorrow {n : ℕ} {e : Effect} (hrem : g.refcnts = some (4 * n)) :
    Knows g (afterBorrow n e) := by
  unfold afterBorrow
  by_cases hn : n = 0
  · subst hn
    refine knows_clear ?_
    unfold sidetableCount
    rw [hrem]
    rfl
  · rw [if_neg hn]
    refine knows_entry rfl fun _ h0 => ?_
    rw [hrem, Option.some.injEq] at h0
    omega

/-- What a call knows after its turn. -/
theorem Turn.knows (hhalf : 2 ≤ rcHalf) (hHM : H = 0 → M = 0)
    (hfits : 4 * (g.isa.extraRc + sidetableCount g + (M + moving rcHalf s)) < 2 ^ 63) (hk : Knows g s)
    (h : Shared rcHalf g (H + holds s) (M + moving rcHalf s) O) (ht : Turn rcHalf g s g' s') :
    Knows g' s' := by
  have hkeep : zeroed s = false → hasLock s = true → g.refcnts ≠ some 0 := by
    intro hz hl h0
    rw [hk.zero hl h0] at hz
    cases hz
  have hother : hasLock s = true → M = 0 := fun hs => (h.alone hHM hs).2
  cases ht with
  | loadRetain t v => exact knows_retaining id (hkeep rfl)
  | loadRelease v => exact knows_releasing id rfl (hkeep rfl)
  | retryRetain t v v' old hv =>
    rcases hv with rfl | ⟨rfl, rfl⟩
    · exact knows_retaining id (hkeep rfl)
    · exact knows_retaining id fun _ => hkeep rfl rfl
  | retryRelease v old => exact knows_releasing id rfl (hkeep rfl)
  | overflow t old => exact knows_entry rfl (hkeep rfl)
  | underflow old => exact knows_entry rfl (hkeep rfl)
  | lockWeak hfree => exact knows_entry rfl fun _ => h.entry hfree
  | lockRetain old hfree => exact knows_retaining (hk.dead old rfl) fun _ => h.entry hfree
  | lockRelease old hfree => exact knows_entry rfl fun _ => h.entry hfree
  | dead _ old e hold hs he => exact knows_finish (hkeep (reads_nothing rcHalf hs).2.2)
  | twice old hold => exact knows_unlocked rfl rfl
  | crash => exact knows_unlocked rfl rfl
  | retain t v hlive hroom => exact knows_finish (hkeep rfl)
  | split t v hv hfull => exact knows_entry rfl fun _ => hkeep rfl hv
  | transcribe => exact knows_entry rfl fun _ => addExtraRC_ne_zero (by omega) _
  | release v hpos => exact knows_finish (hkeep rfl)
  | borrow old refcnts borrowed remaining hold hzero hsub hpos =>
    obtain ⟨k, -, hsub'⟩ := h.borrow (hother rfl) hfits hk hold hzero
    rw [hsub, Prod.mk.injEq, Prod.mk.injEq] at hsub'
    obtain ⟨rfl, rfl, rfl⟩ := hsub'
    exact knows_borrowed hzero rfl
  | fallThrough old refcnts remaining hold hzero hsub =>
    obtain ⟨k, -, hsub'⟩ := h.borrow (hother rfl) hfits hk hold hzero
    rw [hsub, Prod.mk.injEq, Prod.mk.injEq] at hsub'
    omega
  | take remaining => exact knows_afterBorrow (hk.remaining remaining rfl)
  | again old remaining =>
    exact knows_borrowedAgain (hk.remaining remaining rfl)
  | takeAgain remaining hroom => exact knows_afterBorrow (hk.remaining remaining rfl)
  | giveUp old remaining => exact knows_plain rfl fun _ _ => rfl
  | putBack => exact knows_entry rfl fun _ => addExtraRC_ne_zero (by omega) _
  | clear e => exact knows_entry rfl fun _ h0 => by cases h0
  | unlock e => exact knows_unlocked rfl rfl

/-! ## Runs -/

theorem card_outcome_le (procs : List RefCall) : Multiset.card (total outcome procs) ≤ procs.length := by
  induction procs with
  | nil => simp
  | cons s procs ih =>
    have hs : Multiset.card (outcome s) ≤ 1 := by
      cases s <;> simp [outcome]
    have hsum : total outcome (s :: procs) = outcome s + total outcome procs := rfl
    rw [hsum, Multiset.card_add, List.length_cons]
    omega

theorem Inv.count_le (h : Inv rcHalf p) : count rcHalf p ≤ 1 + p.procs.length := by
  have hrun := run_counter_le h.shared.effects
  have hcard := card_outcome_le p.procs
  rw [← h.shared.outcomes, Multiset.coe_card] at hcard
  exact hrun.trans (by omega)

theorem Inv.turn {front back : List RefCall} (hhalf : 2 ≤ rcHalf) (h : Inv rcHalf ⟨g, front ++ s :: back⟩)
    (hfits : Fits ⟨g, front ++ s :: back⟩) (ht : Turn rcHalf g s g' s') :
    Inv rcHalf ⟨g', front ++ s' :: back⟩ := by
  have hle := h.count_le
  have hshared := h.shared
  simp only [count, total_split] at hle
  simp only [total_split] at hshared
  have hcount : 4 * (g.isa.extraRc + sidetableCount g +
      (total (moving rcHalf) front + total (moving rcHalf) back + moving rcHalf s)) < 2 ^ 63 := by
    unfold Fits at hfits
    dsimp only at hfits hle
    omega
  have hHM : total holds front + total holds back = 0 →
      total (moving rcHalf) front + total (moving rcHalf) back = 0 := by
    intro hzero
    have hfront := total_moving rcHalf front (by omega)
    have hback := total_moving rcHalf back (by omega)
    omega
  have hk : Knows g s := h.knows s (by simp)
  refine ⟨?_, ?_⟩
  · simp only [total_split]
    exact ht.shared hhalf hHM hcount hk hshared
  · have hothers : ∀ t ∈ front ++ back, Knows g' t := by
      intro t htmem
      refine (h.knows t (by
        rcases List.mem_append.mp htmem with hmem | hmem
        · simp [hmem]
        · simp [hmem])).other (ht.stays_dead hhalf hshared) fun hlock => ht.frame ?_
      -- the lock is free for one call only
      by_contra hs
      have hlock' := hshared.lock
      have hle' := Bool.toNat_le g.locked
      rw [holds, Bool.eq_true_of_not_eq_false hs, Bool.toNat_true] at hlock'
      have hzero : total holds (front ++ back) = 0 := by
        rw [total_append]
        omega
      have ht0 := total_eq_zero.mp hzero t htmem
      rw [holds, hlock] at ht0
      cases ht0
    intro t htmem
    rcases List.mem_append.mp htmem with hmem | hmem
    · exact hothers t (List.mem_append_left _ hmem)
    · rcases List.mem_cons.mp hmem with rfl | hmem
      · exact ht.knows hhalf hHM hcount hk hshared
      · exact hothers t (List.mem_append_right _ hmem)

theorem inv_init : Inv rcHalf ⟨initObject, []⟩ ↔ 0 < rcHalf := by
  constructor
  · intro h
    have hroom : 1 < 2 * rcHalf := h.shared.room
    omega
  · intro hpos
    refine ⟨⟨rfl, ⟨0, rfl⟩, rfl, ?_, rfl, rfl, fun _ h => by cases h⟩, fun s hs => by cases hs⟩
    show 1 < 2 * rcHalf
    omega

/-- A call that starts has done nothing and knows nothing. -/
theorem entry_plain (rcHalf : ℕ) (g : Object) (h : entry s = true) :
    holds s = 0 ∧ moving rcHalf s = 0 ∧ outcome s = 0 ∧ Knows g s := by
  cases s with
  | loadWeak => exact ⟨rfl, rfl, rfl, knows_unlocked rfl rfl⟩
  | loadRetain t v =>
    cases t with
    | true => cases h
    | false =>
      cases v with
      | fast => exact ⟨rfl, rfl, rfl, knows_unlocked rfl rfl⟩
      | _ => cases h
  | loadRelease v =>
    cases v with
    | fast => exact ⟨rfl, rfl, rfl, knows_unlocked rfl rfl⟩
    | _ => cases h
  | _ => cases h

theorem Inv.start (h : Inv rcHalf p) (hs : entry s = true) : Inv rcHalf ⟨p.shared, p.procs ++ [s]⟩ := by
  obtain ⟨h1, h2, h3, hk⟩ := entry_plain rcHalf p.shared hs
  refine ⟨?_, ?_⟩
  · simp only [total_concat, h1, h2, h3, add_zero]
    exact h.shared
  · intro t ht
    rcases List.mem_append.mp ht with ht | ht
    · exact h.knows t ht
    · obtain rfl := List.mem_singleton.mp ht
      exact hk

theorem inv_of_reachable (hhalf : 2 ≤ rcHalf) (h : Reachable entry (next rcHalf) initObject p)
    (hfits : Fits p) :
    Inv rcHalf p := by
  refine Interleaving.always (P := fun p => Fits p → Inv rcHalf p) ?_ ?_ ?_ h hfits
  · exact fun _ => inv_init.mpr (by omega)
  · intro p s hp hs hfits
    refine (hp ?_).start hs
    unfold Fits at hfits ⊢
    rw [List.length_append] at hfits
    omega
  · intro g front s back spurious g' s' hp hnext hfits
    have hfits' : Fits ⟨g, front ++ s :: back⟩ := by
      simpa only [Fits, List.length_append, List.length_cons] using hfits
    exact (hp hfits').turn hhalf hfits' (turn_of_next hnext)

/-- A counter at zero stays there, and the calls that follow do nothing. -/
theorem run_counter_zero {effects : List Effect} {m : ℕ} (h : Runs.run counter effects 0 = some m) :
    m = 0 ∧ ∀ e ∈ effects, e = .notRetained ∨ e = .notReleased := by
  induction effects with
  | nil => exact ⟨(Option.some.inj h).symm, by simp⟩
  | cons e effects ih =>
    obtain ⟨k, hk, hrest⟩ := Option.bind_eq_some_iff.mp h
    have hzero : k = 0 ∧ (e = .notRetained ∨ e = .notReleased) := by
      cases e with
      | notRetained => exact ⟨(Option.some.inj hk).symm, Or.inl rfl⟩
      | notReleased => exact ⟨(Option.some.inj hk).symm, Or.inr rfl⟩
      | _ => cases hk
    obtain ⟨rfl, he⟩ := hzero
    obtain ⟨hm, hall⟩ := ih hrest
    refine ⟨hm, fun e' he' => ?_⟩
    rcases List.mem_cons.mp he' with rfl | he'
    · exact he
    · exact hall e' he'

theorem counter_deallocated {n k : ℕ} (h : counter n .deallocated = some k) : k = 0 := by
  cases n with
  | zero => cases h
  | succ n =>
    cases n with
    | zero => exact (Option.some.inj h).symm
    | succ n => cases h

theorem eq_deallocated {n : ℕ} {e : Effect} (hn : 0 < n) (h : counter n e = some 0) : e = .deallocated := by
  cases n with
  | zero => omega
  | succ n =>
    cases e with
    | deallocated => rfl
    | retained => cases h
    | released =>
      cases n with
      | zero => cases h
      | succ n => cases h
    | _ => cases h

/-- The counter comes to zero by one effect. -/
theorem count_deallocated {effects : List Effect} {n m : ℕ} (hn : 0 < n)
    (h : Runs.run counter effects n = some m) :
    effects.count .deallocated = if m = 0 then 1 else 0 := by
  induction effects generalizing n with
  | nil =>
    obtain rfl := Option.some.inj h
    rw [if_neg hn.ne']
    rfl
  | cons e effects ih =>
    obtain ⟨k, hk, hrest⟩ := Option.bind_eq_some_iff.mp h
    by_cases hlast : k = 0
    · subst hlast
      obtain ⟨rfl, hall⟩ := run_counter_zero hrest
      have hnone : effects.count .deallocated = 0 := by
        rw [List.count_eq_zero]
        intro hmem
        rcases hall _ hmem with hcase | hcase
        · cases hcase
        · cases hcase
      rw [eq_deallocated hn hk, List.count_cons_self, hnone, if_pos rfl]
    · have he : e ≠ .deallocated := by
        rintro rfl
        exact hlast (counter_deallocated hk)
      rw [List.count_cons_of_ne he]
      exact ih (by omega) hrest

/-! ## Results -/

/-- **The split count is a counter,** and each call has the answer that the counter gives. -/
theorem counter_of_reachable (hhalf : 2 ≤ rcHalf) (h : Reachable entry (next rcHalf) initObject p)
    (hfits : Fits p) :
    Runs.run counter p.shared.effects 1 = some (count rcHalf p) ∧
      (p.shared.effects : Multiset Effect) = total outcome p.procs ∧
      (p.shared.isa.isDeallocating = true ↔ count rcHalf p = 0) := by
  have hinv := inv_of_reachable hhalf h hfits
  refine ⟨hinv.shared.effects, hinv.shared.outcomes, ⟨fun hdead => ?_, fun hzero => ?_⟩⟩
  · obtain ⟨h1, h2, h3⟩ := hinv.shared.count_eq_zero hdead
    rw [count, h1, h2, h3]
  · by_contra hlive
    have hpos := hinv.shared.count_pos (by simpa using hlive)
    rw [count] at hzero
    omega

/-- A retain that finds the isa full, and moves half of the count to the side table. -/
theorem counter_of_reachable_full : ∃ p, Reachable entry (next 2) initObject p ∧ p.shared.refcnts = some 8 ∧
    Runs.run counter p.shared.effects 1 = some (count 2 p) ∧
      (p.shared.effects : Multiset Effect) = total outcome p.procs ∧
      (p.shared.isa.isDeallocating = true ↔ count 2 p = 0) := by
  have hreach : Reachable entry (next 2) initObject
    ⟨⟨⟨2, true⟩, some 8, false, [.retained, .retained, .retained]⟩,
      [.returned .retained, .returned .retained, .returned .retained]⟩ :=
    ⟨[.start (.loadRetain false .fast), .turn 0 false, .turn 0 false, .start (.loadRetain false .fast),
      .turn 1 false, .turn 1 false, .start (.loadRetain false .fast), .turn 2 false, .turn 2 false,
      .turn 2 false, .turn 2 false, .turn 2 false, .turn 2 false, .turn 2 false], rfl⟩
  exact ⟨_, hreach, rfl, counter_of_reachable le_rfl hreach (by unfold Fits; decide)⟩

/-- **One release calls `dealloc`,** the one that brings the count to zero; afterwards no retain and no
release takes effect. -/
theorem deallocated_of_reachable (hhalf : 2 ≤ rcHalf) (h : Reachable entry (next rcHalf) initObject p)
    (hfits : Fits p) :
    Multiset.count .deallocated (total outcome p.procs) = (if count rcHalf p = 0 then 1 else 0) ∧
      ∀ front back, p.shared.effects = front ++ .deallocated :: back →
        ∀ e ∈ back, e = .notRetained ∨ e = .notReleased := by
  have hinv := inv_of_reachable hhalf h hfits
  have hrun := hinv.shared.effects
  refine ⟨?_, ?_⟩
  · rw [← hinv.shared.outcomes, Multiset.coe_count]
    exact count_deallocated one_pos hrun
  · intro front back heffects
    rw [heffects, Runs.run_append] at hrun
    obtain ⟨n, -, hrest⟩ := Option.bind_eq_some_iff.mp hrun
    obtain ⟨k, hk, hback⟩ := Option.bind_eq_some_iff.mp hrest
    obtain rfl := counter_deallocated hk
    exact (run_counter_zero hback).2

theorem deallocated_of_reachable_last : ∃ p, Reachable entry (next 2) initObject p ∧
    p.procs = [.returned .deallocated, .returned .notRetained] ∧
    Multiset.count .deallocated (total outcome p.procs) = (if count 2 p = 0 then 1 else 0) ∧
      ∀ front back, p.shared.effects = front ++ .deallocated :: back →
        ∀ e ∈ back, e = .notRetained ∨ e = .notReleased := by
  have hreach : Reachable entry (next 2) initObject ⟨⟨⟨0, false⟩, none, false, [.deallocated, .notRetained]⟩,
      [.returned .deallocated, .returned .notRetained]⟩ :=
    ⟨[.start (.loadRelease .fast), .start (.loadRetain false .fast), .turn 0 false, .turn 0 false,
      .turn 1 false, .turn 1 false], rfl⟩
  exact ⟨_, hreach, rfl, deallocated_of_reachable le_rfl hreach (by unfold Fits; decide)⟩

/-- A call that waits for the lock, or has come to its end. -/
theorem waits_of_stuck (hstuck : ∀ c, next rcHalf c g s = none) :
    g.locked = true ∧ hasLock s = false ∨ (∃ e, s = .returned e) ∨ s = .crashed := by
  have hgo := hstuck false
  have hlock : ∀ r, sidetableLock g r = none → g.locked = true := by
    intro r hr
    unfold sidetableLock at hr
    split_ifs at hr with hl
    exact hl
  have hstore : ∀ old new ok failed, storeExclusive false g old new ok failed = none → False := by
    intro old new ok failed hr
    unfold storeExclusive at hr
    split_ifs at hr
  cases s with
  | loadWeak => exact Or.inl ⟨hlock _ hgo, rfl⟩
  | retaining t v old =>
    refine Or.inl ?_
    simp only [next, rootRetain] at hgo
    by_cases hold : old.isDeallocating = true
    · rw [if_pos hold] at hgo
      split at hgo <;> cases hgo
    · rw [if_neg hold] at hgo
      by_cases hroom : old.extraRc + 1 < 2 * rcHalf
      · rw [if_pos hroom] at hgo
        exact (hstore _ _ _ _ hgo).elim
      · rw [if_neg hroom] at hgo
        cases v with
        | fast => cases hgo
        | full =>
          cases t with
          | true =>
            dsimp only at hgo
            rw [if_pos rfl, storeHalf] at hgo
            exact (hstore _ _ _ _ hgo).elim
          | false => exact ⟨hlock _ hgo, rfl⟩
        | fullLocked => exact (hstore _ _ _ _ hgo).elim
  | releasing v old =>
    refine Or.inl ?_
    simp only [next, rootRelease] at hgo
    by_cases hold : old.isDeallocating = true
    · rw [if_pos hold] at hgo
      cases hgo
    · rw [if_neg hold] at hgo
      by_cases hpos : 0 < old.extraRc
      · rw [if_pos hpos] at hgo
        exact (hstore _ _ _ _ hgo).elim
      · rw [if_neg hpos] at hgo
        cases v with
        | fast => cases hgo
        | full => exact ⟨hlock _ hgo, rfl⟩
        | fullLocked =>
          dsimp only at hgo
          split at hgo <;> cases hgo
  | borrowed old n =>
    simp only [next] at hgo
    exact (hstore _ _ _ _ hgo).elim
  | borrowedAgain old n =>
    simp only [next] at hgo
    split at hgo
    · exact (hstore _ _ _ _ hgo).elim
    · cases hgo
  | returned e => exact Or.inr (Or.inl ⟨e, rfl⟩)
  | crashed => exact Or.inr (Or.inr rfl)
  | _ => cases hgo

/-- **When no call can go on,** each has returned or was stopped for unlocking twice, the lock is free, all
of the count is in the isa and the side table, and an object whose count is zero has no entry there. -/
theorem returned_of_stuck (hhalf : 2 ≤ rcHalf) (h : Reachable entry (next rcHalf) initObject p)
    (hfits : Fits p) (hstuck : Stuck (next rcHalf) p) :
    (∀ s ∈ p.procs, (∃ e, s = .returned e) ∨ s = .crashed) ∧ p.shared.locked = false ∧
      count rcHalf p = p.shared.isa.extraRc + sidetableCount p.shared ∧
      (count rcHalf p = 0 → p.shared.refcnts = none) := by
  have hinv := inv_of_reachable hhalf h hfits
  have hfree : total holds p.procs = 0 := by
    rw [total_eq_zero]
    intro s hs
    rcases waits_of_stuck (hstuck s hs) with ⟨-, hno⟩ | ⟨e, rfl⟩ | rfl
    · rw [holds, hno]
      rfl
    · rfl
    · rfl
  have hlocked : p.shared.locked = false := by
    have hlock := hinv.shared.lock
    rw [hfree] at hlock
    simpa using hlock.symm
  have hmoving := total_moving rcHalf p.procs hfree
  have hcount : count rcHalf p = p.shared.isa.extraRc + sidetableCount p.shared := by
    rw [count, hmoving, add_zero]
  refine ⟨fun s hs => ?_, hlocked, hcount, fun hzero => ?_⟩
  · rcases waits_of_stuck (hstuck s hs) with ⟨hl, -⟩ | hend
    · exact absurd (hlocked.symm.trans hl) (by simp)
    · exact hend
  · obtain ⟨k, hk, hside⟩ := hinv.shared.sidetable
    cases hrefcnts : p.shared.refcnts with
    | none => rfl
    | some v =>
      rw [hrefcnts, Option.getD_some] at hk
      have hentry := hinv.shared.entry hlocked
      rw [hrefcnts] at hentry
      exact absurd (congrArg some (show v = 0 by omega)) hentry

theorem returned_of_stuck_release :
    ∃ p, Reachable entry (next 2) initObject p ∧ p.procs = [.returned .deallocated] ∧
    (∀ s ∈ p.procs, (∃ e, s = .returned e) ∨ s = .crashed) ∧ p.shared.locked = false ∧
      count 2 p = p.shared.isa.extraRc + sidetableCount p.shared ∧
      (count 2 p = 0 → p.shared.refcnts = none) := by
  have hreach : Reachable entry (next 2) initObject ⟨⟨⟨0, false⟩, none, false, [.deallocated]⟩,
      [.returned .deallocated]⟩ :=
    ⟨[.start (.loadRelease .fast), .turn 0 false, .turn 0 false], rfl⟩
  refine ⟨_, hreach, rfl, returned_of_stuck le_rfl hreach (by unfold Fits; decide) ?_⟩
  intro s hs c
  obtain rfl := List.mem_singleton.mp hs
  rfl

/-! ## The lock that is released twice

A try that found the isa full and then, after a failed store, the object dead unlocks the side table itself,
and `objc_loadWeakRetained` does so again. -/

example : ∃ p, Runs.run (step entry (next 2)) [.start (.loadRetain false .fast), .turn 0 false, .turn 0 false,
      .start (.loadRetain false .fast), .turn 1 false, .turn 1 false, .start .loadWeak, .turn 2 false,
      .turn 2 false, .turn 2 false, .turn 2 false, .start (.loadRelease .fast), .turn 3 false,
      .turn 3 false, .start (.loadRelease .fast), .turn 4 false, .turn 4 false,
      .start (.loadRelease .fast), .turn 5 false, .turn 5 false, .turn 2 false, .turn 2 false,
      .turn 2 false] ⟨initObject, []⟩ = some p ∧ .crashed ∈ p.procs :=
  ⟨_, rfl, by decide⟩

/-- The calls that do not come from `objc_loadWeakRetained`. -/
def noTry : RefCall → Bool
  | .loadWeak | .loadRetain true _ | .retaining true _ _ | .unlockTwice | .crashed => false
  | _ => true

theorem noTry_finish (b : Bool) (e : Effect) : noTry (finish b e) = true := by cases b <;> rfl

theorem noTry_afterBorrow (n : ℕ) (e : Effect) : noTry (afterBorrow n e) = true := by
  unfold afterBorrow
  split <;> rfl

theorem Turn.noTry (ht : Turn rcHalf g s g' s') (hs : noTry s = true) : noTry s' = true := by
  cases ht with
  | loadRetain t v => cases t with
    | false => rfl
    | true => cases hs
  | retryRetain t v v' old hv => cases t with
    | false => rfl
    | true => cases hs
  | overflow t old => cases t with
    | false => rfl
    | true => cases hs
  | lockWeak => cases hs
  | dead => exact noTry_finish _ _
  | twice => cases hs
  | crash => cases hs
  | retain => exact noTry_finish _ _
  | release => exact noTry_finish _ _
  | take => exact noTry_afterBorrow _ _
  | takeAgain => exact noTry_afterBorrow _ _
  | _ => rfl

/-- Retains and releases alone never release the lock twice. -/
theorem not_crashed_of_reachable (h : Reachable (fun s => entry s && noTry s) (next rcHalf) initObject p) :
    .crashed ∉ p.procs := by
  have hall : ∀ s ∈ p.procs, noTry s = true := by
    refine Interleaving.always (P := fun p => ∀ s ∈ p.procs, noTry s = true) ?_ ?_ ?_ h
    · exact fun s hs => by cases hs
    · intro p s hp hs t ht
      rcases List.mem_append.mp ht with ht | ht
      · exact hp t ht
      · obtain rfl := List.mem_singleton.mp ht
        simp only [Bool.and_eq_true] at hs
        exact hs.2
    · intro g front s back spurious g' s' hp hnext
      exact forall_turn (I := fun _ s => noTry s = true) g g' hp (fun hs => (turn_of_next hnext).noTry hs)
        fun _ ht => ht
  intro hmem
  cases hall _ hmem

end QYInterview.ObjC.RetainCount
