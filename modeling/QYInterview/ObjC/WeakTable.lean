import QYInterview.Lib.OpenTable

/-!
# ObjC.WeakTable — the table of weak references

`objc-weak.mm`: a side table has, for every object that weak variables refer to, an entry with the addresses
of these variables, four of them inline and more in a hash table of their own.  Both tables grow at three
quarters, the table of objects also shrinks when it is nearly empty, and both are searched with a bound on
the displacement.

No operation comes to `bad_weak_table`, whatever the hashes of the addresses are, and every operation
changes the set of registered pairs of an object and a variable as its name says (`halts_weakRegister`,
`halts_weakUnregister`, `halts_weakClear`).
-/

namespace QYInterview.ObjC

open RunLogic OpenTable

/-- What addresses are: their hashes, the side table of an object, and tagged pointers. -/
structure Addresses (ο ρ : Type) where
  hashPointer : ο → ℕ
  wHashPointer : ρ → ℕ
  sideTable : ο → ℕ
  isTaggedPointer : ο → Bool

/-- `WEAK_INLINE_COUNT` -/
def weakInlineCount : ℕ := 4

/-- The referrers of a `weak_entry_t`: inline, or out of line in a hash table. -/
inductive Referrers (ρ : Type)
  | inlineReferrers (referrers : List (Option ρ))
  | outOfLine (referrers : Slots ρ)
  deriving DecidableEq, Repr

namespace Referrers

variable {ρ : Type}

/-- The referrers of an entry in the order of their slots. -/
def slots : Referrers ρ → List (Option ρ)
  | .inlineReferrers refs => refs
  | .outOfLine refs => refs.slots

/-- The test of `weak_unregister_no_lock`.  Out of line, the first word is that of the pointer to the
referrers, which is not nil: such an entry stays, even without referrers. -/
def isEmpty : Referrers ρ → Bool
  | .inlineReferrers refs => refs.all Option.isNone
  | .outOfLine _ => false

/-- The variable is among the referrers. -/
def Has (entry : Referrers ρ) (r : ρ) : Prop := some r ∈ entry.slots

end Referrers

/-- `weak_entry_t` -/
structure WeakEntry (ο ρ : Type) where
  referent : ο
  referrers : Referrers ρ
  deriving DecidableEq, Repr

/-- `weak_table_t`; no slots while `weak_entries` is NULL. -/
abbrev WeakTable (ο ρ : Type) : Type := Slots (WeakEntry ο ρ)

/-- `WeakRegisterDeallocatingOptions` -/
inductive DeallocatingOptions
  | returnNilIfDeallocating
  | crashIfDeallocating
  | dontCheckDeallocating
  deriving DecidableEq, Repr

namespace Weak

variable {ο ρ : Type} [DecidableEq ο] [DecidableEq ρ] (env : Addresses ο ρ)

/-! ## The code -/

/-- The second part of `append_referrer`, out of line; `grow` is what the call of
`grow_refs_and_insert` does. -/
def appendOutOfLine (grow : Slots ρ → ρ → Prog (Slots ρ)) (entry : Slots ρ) (newReferrer : ρ) :
    Prog (Slots ρ) :=
  if entry.count ≥ entry.size * 3 / 4 then grow entry newReferrer
  else OpenTable.insert (env.wHashPointer newReferrer) entry newReferrer

/-- `grow_refs_and_insert`; its own calls of `append_referrer` find a table with room. -/
def growRefsAndInsert (entry : Slots ρ) (newReferrer : ρ) : Prog (Slots ρ) := do
  let newSize := if entry.size ≠ 0 then entry.size * 2 else 8
  let grown ← refill (appendOutOfLine env fun _ _ => trap) entry.slots (fresh newSize)
  appendOutOfLine env (fun _ _ => trap) grown newReferrer

/-- `append_referrer` -/
def appendReferrer (entry : Referrers ρ) (newReferrer : ρ) : Prog (Referrers ρ) :=
  match entry with
  | .inlineReferrers refs =>
    match refs.findIdx? Option.isNone with
    | some i => pure (.inlineReferrers (refs.set i (some newReferrer)))
    | none => do
      let entry ← appendOutOfLine env (growRefsAndInsert env)
        ⟨refs, weakInlineCount, weakInlineCount - 1, 0⟩ newReferrer
      pure (.outOfLine entry)
  | .outOfLine entry => do
    let entry ← appendOutOfLine env (growRefsAndInsert env) entry newReferrer
    pure (.outOfLine entry)

/-- `remove_referrer`, and whether it has called `objc_weak_error`. -/
def removeReferrer (entry : Referrers ρ) (oldReferrer : ρ) : Prog (Referrers ρ × Bool) :=
  match entry with
  | .inlineReferrers refs =>
    match refs.findIdx? (· == some oldReferrer) with
    | some i => pure (.inlineReferrers (refs.set i none), false)
    | none => pure (entry, true)
  | .outOfLine refs => do
    match ← seek (env.wHashPointer oldReferrer) (· == oldReferrer) refs with
    | some i => pure (.outOfLine (free refs i), false)
    | none => pure (entry, true)

/-- `weak_entry_insert` -/
def weakEntryInsert (weakTable : WeakTable ο ρ) (newEntry : WeakEntry ο ρ) : Prog (WeakTable ο ρ) :=
  OpenTable.insert (env.hashPointer newEntry.referent) weakTable newEntry

/-- `weak_resize` -/
def weakResize (weakTable : WeakTable ο ρ) (newSize : ℕ) : Prog (WeakTable ο ρ) :=
  refill (weakEntryInsert env) weakTable.slots (fresh newSize)

/-- `weak_grow_maybe` -/
def weakGrowMaybe (weakTable : WeakTable ο ρ) : Prog (WeakTable ο ρ) :=
  if weakTable.count ≥ weakTable.size * 3 / 4 then
    weakResize env weakTable (if weakTable.size ≠ 0 then weakTable.size * 2 else 64)
  else pure weakTable

/-- `weak_compact_maybe` -/
def weakCompactMaybe (weakTable : WeakTable ο ρ) : Prog (WeakTable ο ρ) :=
  if weakTable.size ≥ 1024 ∧ weakTable.size / 16 ≥ weakTable.count then
    weakResize env weakTable (weakTable.size / 8)
  else pure weakTable

/-- `weak_entry_remove` -/
def weakEntryRemove (weakTable : WeakTable ο ρ) (entry : ℕ) : Prog (WeakTable ο ρ) :=
  weakCompactMaybe env (free weakTable entry)

/-- `weak_entry_for_referent`: the slot of the entry. -/
def weakEntryForReferent (weakTable : WeakTable ο ρ) (referent : ο) : Prog (Option ℕ) :=
  if weakTable.slots.isEmpty then pure none
  else seek (env.hashPointer referent) (·.referent == referent) weakTable

/-- `weak_unregister_no_lock`, and whether `objc_weak_error` was called. -/
def weakUnregister (weakTable : WeakTable ο ρ) (referent : Option ο) (referrer : ρ) :
    Prog (WeakTable ο ρ × Bool) := do
  match referent with
  | none => pure (weakTable, false)
  | some referent =>
    match ← weakEntryForReferent env weakTable referent with
    | none => pure (weakTable, false)
    | some i =>
      match weakTable.slots[i]?.join with
      | none => trap
      | some entry =>
        let (referrers, error) ← removeReferrer env entry.referrers referrer
        let weakTable := { weakTable with slots := weakTable.slots.set i (some ⟨entry.referent, referrers⟩) }
        if referrers.isEmpty then do
          let weakTable ← weakEntryRemove env weakTable i
          pure (weakTable, error)
        else pure (weakTable, error)

/-- `weak_register_no_lock`: the object, or nil where the reference is refused. -/
def weakRegister (weakTable : WeakTable ο ρ) (referent : Option ο) (referrer : ρ)
    (options : DeallocatingOptions) (deallocating : ο → Bool) : Prog (WeakTable ο ρ × Option ο) := do
  match referent with
  | none => pure (weakTable, none)
  | some object =>
    if env.isTaggedPointer object then pure (weakTable, referent)
    else if options ≠ .dontCheckDeallocating ∧ deallocating object = true then
      if options = .crashIfDeallocating then trap else pure (weakTable, none)
    else
      match ← weakEntryForReferent env weakTable object with
      | some i =>
        match weakTable.slots[i]?.join with
        | none => trap
        | some entry =>
          let referrers ← appendReferrer env entry.referrers referrer
          pure ({ weakTable with slots := weakTable.slots.set i (some ⟨entry.referent, referrers⟩) },
            referent)
      | none =>
        let weakTable ← weakGrowMaybe env weakTable
        let weakTable ← weakEntryInsert env weakTable
          (WeakEntry.mk object (.inlineReferrers [some referrer, none, none, none]))
        pure (weakTable, referent)

/-- The loop of `weak_clear_no_lock`: a variable that holds the object is set to nil, and one that holds
another object is an error; with the number of errors. -/
def zeroReferrers (referent : ο) (location : ρ → Option ο) (errors : ℕ) :
    List (Option ρ) → (ρ → Option ο) × ℕ
  | [] => (location, errors)
  | none :: refs => zeroReferrers referent location errors refs
  | some referrer :: refs =>
    if location referrer = some referent then
      zeroReferrers referent (Function.update location referrer none) errors refs
    else if (location referrer).isSome then zeroReferrers referent location (errors + 1) refs
    else zeroReferrers referent location errors refs

/-- `weak_clear_no_lock`, with the memory of the variables and the number of calls of `objc_weak_error`. -/
def weakClear (weakTable : WeakTable ο ρ) (referent : ο) (location : ρ → Option ο) (errors : ℕ) :
    Prog (WeakTable ο ρ × (ρ → Option ο) × ℕ) := do
  match ← weakEntryForReferent env weakTable referent with
  | none => pure (weakTable, location, errors)
  | some i =>
    match weakTable.slots[i]?.join with
    | none => trap
    | some entry =>
      let cleared := zeroReferrers referent location errors entry.referrers.slots
      let weakTable ← weakEntryRemove env weakTable i
      pure (weakTable, cleared)

/-! ## Referrers -/

section Referrers

variable {env} {entry : Referrers ρ} {refs : Slots ρ} {r : ρ} {k : ℕ}

/-- No variable is in two slots. -/
def Distinct (slots : List (Option ρ)) : Prop :=
  ∀ (i j : ℕ) r, slots[i]? = some (some r) → slots[j]? = some (some r) → i = j

/-- The referrers that the code makes. -/
def ReferrersOk (env : Addresses ο ρ) : Referrers ρ → Prop
  | .inlineReferrers refs => refs.length = weakInlineCount ∧ Distinct refs
  | .outOfLine refs => Table id env.wHashPointer refs

omit [DecidableEq ο] [DecidableEq ρ] in
theorem appendOutOfLine_of_room {grow : Slots ρ → ρ → Prog (Slots ρ)} (h : Table id env.wHashPointer refs)
    (hroom : refs.count < (refs.mask + 1) * 3 / 4) :
    appendOutOfLine env grow refs r = OpenTable.insert (env.wHashPointer r) refs r :=
  if_neg (by rw [h.size_eq]; omega)

omit [DecidableEq ο] [DecidableEq ρ] in
/-- A grown table has all referrers and the new one. -/
theorem halts_growRefsAndInsert (hk : 2 ≤ k) (hsize : (if refs.size ≠ 0 then refs.size * 2 else 8) = 2 ^ k)
    (hdistinct : Distinct refs.slots) (hroom : refs.slots.countP Option.isSome < 2 ^ k * 3 / 4)
    (habsent : some r ∉ refs.slots) :
    Halts (growRefsAndInsert env refs r) fun refs' => Table id env.wHashPointer refs' ∧
      ∀ r', refs'.Has r' ↔ r' = r ∨ some r' ∈ refs.slots := by
  rw [growRefsAndInsert, hsize]
  have hfresh : Table id env.wHashPointer (fresh (2 ^ k) : Slots ρ) := table_fresh hk rfl
  have hmask : (fresh (2 ^ k) : Slots ρ).mask + 1 = 2 ^ k := Nat.sub_add_cancel Nat.one_le_two_pow
  refine halts_bind ((hfresh.halts_refill (fun i j a b hi hj hab => ?_) (not_has_fresh _) rfl
    (by rw [hmask]; omega) fun t' a ht' hm hcount =>
      appendOutOfLine_of_room ht' (by rw [hm]; exact hcount)).mono ?_)
  · obtain rfl : a = b := hab
    exact hdistinct i j a hi hj
  · rintro grown ⟨hgrown, hm, hcount, hhas⟩
    have hroom' : grown.count < (grown.mask + 1) * 3 / 4 := by rw [hcount, hm, hmask]; exact hroom
    rw [appendOutOfLine_of_room hgrown hroom']
    refine (hgrown.halts_insert hroom' fun b hb hbr => ?_).mono ?_
    · obtain rfl : b = r := hbr
      exact habsent ((hhas b).mp hb)
    · rintro refs' ⟨hrefs', -, -, hhas'⟩
      exact ⟨hrefs', fun r' => by rw [hhas', hhas]⟩

omit [DecidableEq ο] [DecidableEq ρ] in
/-- A new referrer is added, inline or out of line. -/
theorem halts_appendReferrer (h : ReferrersOk env entry) (habsent : ¬ entry.Has r) :
    Halts (appendReferrer env entry r) fun entry' => ReferrersOk env entry' ∧
      ∀ r', entry'.Has r' ↔ r' = r ∨ entry.Has r' := by
  cases entry with
  | inlineReferrers refs =>
    obtain ⟨hlength, hdistinct⟩ := h
    rw [appendReferrer]
    cases hfind : refs.findIdx? Option.isNone with
    | some i =>
      obtain ⟨hi, hnone, -⟩ := List.findIdx?_eq_some_iff_getElem.mp hfind
      have hold : refs[i] = none := Option.isNone_iff_eq_none.mp hnone
      refine halts_pure ⟨⟨by rw [List.length_set]; exact hlength, ?_⟩, fun r' => ?_⟩
      · intro j j' r' hj hj'
        rw [List.getElem?_set] at hj hj'
        split_ifs at hj hj' with hij hij' hij'
        · omega
        · obtain rfl := Option.some.inj (Option.some.inj hj)
          exact absurd (List.mem_of_getElem? hj') habsent
        · obtain rfl := Option.some.inj (Option.some.inj hj')
          exact absurd (List.mem_of_getElem? hj) habsent
        · exact hdistinct j j' r' hj hj'
      · show some r' ∈ refs.set i (some r) ↔ r' = r ∨ some r' ∈ refs
        rw [List.mem_iff_getElem?, List.mem_iff_getElem?]
        constructor
        · rintro ⟨j, hj⟩
          rw [List.getElem?_set] at hj
          split_ifs at hj
          · exact Or.inl (Option.some.inj (Option.some.inj hj)).symm
          · exact Or.inr ⟨j, hj⟩
        · rintro (rfl | ⟨j, hj⟩)
          · exact ⟨i, List.getElem?_set_self hi⟩
          · refine ⟨j, (List.getElem?_set_ne ?_).trans hj⟩
            rintro rfl
            rw [List.getElem?_eq_getElem hi, hold] at hj
            cases hj
    | none =>
      -- the table made of the inline referrers is full, and is grown at once
      have hgrow : appendOutOfLine env (growRefsAndInsert env)
        ⟨refs, weakInlineCount, weakInlineCount - 1, 0⟩ r =
          growRefsAndInsert env ⟨refs, weakInlineCount, weakInlineCount - 1, 0⟩ r :=
        if_pos (by simp [Slots.size, weakInlineCount])
      have hcount : refs.countP Option.isSome ≤ 4 := List.countP_le_length.trans hlength.le
      have hsize : (if (⟨refs, weakInlineCount, weakInlineCount - 1, 0⟩ : Slots ρ).size ≠ 0 then
          (⟨refs, weakInlineCount, weakInlineCount - 1, 0⟩ : Slots ρ).size * 2 else 8) = 2 ^ 3 := by
        simp [Slots.size, weakInlineCount]
      refine halts_bind ?_
      rw [hgrow]
      refine (halts_growRefsAndInsert (by omega) hsize hdistinct (by dsimp only; omega) habsent).mono ?_
      rintro refs' ⟨hrefs', hhas⟩
      exact halts_pure ⟨hrefs', hhas⟩
  | outOfLine refs =>
    have h : Table id env.wHashPointer refs := h
    refine halts_bind (Halts.mono (Q := fun refs' => Table id env.wHashPointer refs' ∧
      ∀ r', refs'.Has r' ↔ r' = r ∨ refs.Has r') ?_ fun refs' h' => halts_pure h')
    rw [appendOutOfLine, h.size_eq]
    split_ifs with hfull
    · obtain ⟨k, hk, hmask⟩ := h.size
      refine halts_growRefsAndInsert (show 2 ≤ k + 1 by omega) ?_ (fun i j a hi hj =>
        h.slot_unique hi hj rfl) ?_ habsent
      · rw [h.size_eq, if_pos (by omega), hmask, pow_succ]
      · have := h.room
        rw [h.count, pow_succ]
        omega
    · refine (h.halts_insert (by omega) fun b hb hbr => ?_).mono ?_
      · obtain rfl : b = r := hbr
        exact habsent hb
      · rintro refs' ⟨hrefs', -, -, hhas⟩
        exact ⟨hrefs', hhas⟩

omit [DecidableEq ο] in
/-- A referrer is removed, without an error. -/
theorem halts_removeReferrer (h : ReferrersOk env entry) (hr : entry.Has r) :
    Halts (removeReferrer env entry r) fun p => p.2 = false ∧ ReferrersOk env p.1 ∧
      ∀ r', p.1.Has r' ↔ entry.Has r' ∧ r' ≠ r := by
  cases entry with
  | inlineReferrers refs =>
    obtain ⟨hlength, hdistinct⟩ := h
    rw [removeReferrer]
    cases hfind : refs.findIdx? (· == some r) with
    | none =>
      have := List.findIdx?_eq_none_iff.mp hfind _ hr
      rw [beq_self_eq_true] at this
      cases this
    | some i =>
      obtain ⟨hi, hbeq, -⟩ := List.findIdx?_eq_some_iff_getElem.mp hfind
      have hold : refs[i]? = some (some r) := by rw [List.getElem?_eq_getElem hi, eq_of_beq hbeq]
      refine halts_pure ⟨rfl, ⟨by rw [List.length_set]; exact hlength, ?_⟩, fun r' => ?_⟩
      · intro j j' r' hj hj'
        rw [List.getElem?_set] at hj hj'
        split_ifs at hj hj'
        · cases hj
        · cases hj
        · cases hj'
        · exact hdistinct j j' r' hj hj'
      · show some r' ∈ refs.set i none ↔ some r' ∈ refs ∧ r' ≠ r
        rw [List.mem_iff_getElem?, List.mem_iff_getElem?]
        constructor
        · rintro ⟨j, hj⟩
          rw [List.getElem?_set] at hj
          split_ifs at hj with hij
          · cases hj
          · exact ⟨⟨j, hj⟩, by rintro rfl; exact hij (hdistinct i j r' hold hj)⟩
        · rintro ⟨⟨j, hj⟩, hne⟩
          refine ⟨j, (List.getElem?_set_ne ?_).trans hj⟩
          rintro rfl
          exact hne (Option.some.inj (Option.some.inj (hj.symm.trans hold)))
  | outOfLine refs =>
    have h : Table id env.wHashPointer refs := h
    refine halts_bind ((h.halts_seek (k := r) (fun a => beq_iff_eq)).mono ?_)
    rintro _ (⟨i, a, rfl, hi, hka⟩ | ⟨rfl, hnone⟩)
    · obtain rfl : a = r := hka
      obtain ⟨hfree, -, hhas⟩ := h.free hi
      exact halts_pure ⟨rfl, hfree, hhas⟩
    · exact absurd rfl (hnone r hr)

omit [DecidableEq ο] [DecidableEq ρ] in
theorem isEmpty_eq_false (h : entry.Has r) : entry.isEmpty = false := by
  cases entry with
  | inlineReferrers refs =>
    rw [Referrers.isEmpty, List.all_eq_false]
    exact ⟨some r, h, by simp⟩
  | outOfLine refs => rfl

end Referrers

/-! ## Entries -/

section Entries

variable {env} {t : WeakTable ο ρ} {e : WeakEntry ο ρ} {o : ο} {r : ρ} {i k n : ℕ}

/-- A table with slots: at least 64 of them, and from 1024 on more than a sixteenth is taken. -/
structure Sized (env : Addresses ο ρ) (t : WeakTable ο ρ) : Prop where
  table : Table WeakEntry.referent env.hashPointer t
  least : 64 ≤ t.mask + 1
  dense : 1024 ≤ t.mask + 1 → (t.mask + 1) / 16 < t.count

/-- The tables that the code makes. -/
structure TableOk (env : Addresses ο ρ) (t : WeakTable ο ρ) : Prop where
  sized : t = ⟨[], 0, 0, 0⟩ ∨ Sized env t
  entries : ∀ e, t.Has e → ReferrersOk env e.referrers
  untagged : ∀ e, t.Has e → env.isTaggedPointer e.referent = false

/-- The variable is registered for the object. -/
def Registered (t : WeakTable ο ρ) (o : ο) (r : ρ) : Prop := ∃ e, t.Has e ∧ e.referent = o ∧ e.referrers.Has r

omit [DecidableEq ο] [DecidableEq ρ] in
theorem not_has_empty : ¬ Slots.Has (⟨[], 0, 0, 0⟩ : WeakTable ο ρ) e := List.not_mem_nil

omit [DecidableEq ο] [DecidableEq ρ] in
theorem tableOk_empty : TableOk env (⟨[], 0, 0, 0⟩ : WeakTable ο ρ) := 
  ⟨Or.inl rfl, fun _ h => absurd h not_has_empty, fun _ h => absurd h not_has_empty⟩

omit [DecidableEq ο] [DecidableEq ρ] in
theorem not_registered_empty : ¬ Registered (⟨[], 0, 0, 0⟩ : WeakTable ο ρ) o r :=
  fun ⟨_, h, _⟩ => not_has_empty h

omit [DecidableEq ο] [DecidableEq ρ] in
theorem TableOk.eq_of_referent (h : TableOk env t) {e' : WeakEntry ο ρ} (he : t.Has e) (he' : t.Has e')
    (hreferent : e.referent = e'.referent) : e = e' := by
  rcases h.sized with rfl | hsized
  · exact absurd he not_has_empty
  · exact hsized.table.eq_of_key he he' hreferent

omit [DecidableEq ο] [DecidableEq ρ] in
theorem Sized.size_eq (h : Sized env t) : t.size = t.mask + 1 := h.table.size_eq

omit [DecidableEq ο] [DecidableEq ρ] in
theorem halts_weakResize (hk : 2 ≤ k) (hn : n = 2 ^ k) (hroom : t.slots.countP Option.isSome ≤ n * 3 / 4)
    (hunique : ∀ (i j : ℕ) a b, t.slots[i]? = some (some a) → t.slots[j]? = some (some b) →
      a.referent = b.referent → i = j) :
    Halts (weakResize env t n) fun t' => Table WeakEntry.referent env.hashPointer t' ∧ t'.mask + 1 = n ∧
      t'.count = t.slots.countP Option.isSome ∧ ∀ e, t'.Has e ↔ t.Has e := by
  have hmask : (fresh n : WeakTable ο ρ).mask + 1 = n := by
    rw [hn]
    exact Nat.sub_add_cancel Nat.one_le_two_pow
  refine ((table_fresh hk hn).halts_refill hunique (not_has_fresh _) rfl (by rw [hmask]; exact hroom)
    fun _ _ _ _ _ => rfl).mono ?_
  rintro t' ⟨ht', hm, hcount, hhas⟩
  exact ⟨ht', by rw [hm, hmask], hcount, hhas⟩

omit [DecidableEq ο] [DecidableEq ρ] in
/-- Growing makes room for one entry. -/
theorem halts_weakGrowMaybe (h : TableOk env t) : Halts (weakGrowMaybe env t) fun t' => Sized env t' ∧
    t'.count < (t'.mask + 1) * 3 / 4 ∧ ∀ e, t'.Has e ↔ t.Has e := by
  rw [weakGrowMaybe]
  rcases h.sized with rfl | hsized
  · rw [if_pos (by simp [Slots.size])]
    refine (halts_weakResize (show 2 ≤ 6 by omega) (by simp [Slots.size]) (Nat.zero_le _) fun i j a b hi =>
      ?_).mono ?_
    · cases hi
    · rintro t' ⟨ht', hmask, hcount, hhas⟩
      have hzero : t'.count = 0 := hcount
      change t'.mask + 1 = 64 at hmask
      exact ⟨⟨ht', by omega, by omega⟩, by omega, hhas⟩
  · have hsize := hsized.size_eq
    have hleast := hsized.least
    rw [hsize]
    split_ifs with hfull hpos
    · obtain ⟨k, hk, hmask⟩ := hsized.table.size
      have hroom := hsized.table.room
      refine (halts_weakResize (show 2 ≤ k + 1 by omega) (by rw [hmask, pow_succ])
        (by rw [hsized.table.count]; omega) fun i j a b hi hj => hsized.table.slot_unique hi hj).mono ?_
      rintro t' ⟨ht', hmask', hcount, hhas⟩
      rw [hsized.table.count] at hcount
      exact ⟨⟨ht', by omega, by omega⟩, by omega, hhas⟩
    · omega
    · exact halts_pure ⟨hsized, by omega, fun _ => Iff.rfl⟩

omit [DecidableEq ο] [DecidableEq ρ] in
/-- An entry is removed, and the table may shrink. -/
theorem halts_weakEntryRemove (h : Sized env t) (hi : t.slots[i]? = some (some e)) :
    Halts (weakEntryRemove env t i) fun t' => Sized env t' ∧
      ∀ e', t'.Has e' ↔ t.Has e' ∧ e'.referent ≠ e.referent := by
  obtain ⟨hfree, hpos, hhas⟩ := h.table.free hi
  have hmask : (free t i).mask = t.mask := rfl
  have hcount : (free t i).count = t.count - 1 := rfl
  have hsize := hfree.size_eq
  have hleast := h.least
  have hdense := h.dense
  rw [weakEntryRemove, weakCompactMaybe, hsize]
  split_ifs with hsparse
  · obtain ⟨k, hk, hpow⟩ := hfree.size
    have hk10 : 10 ≤ k := by
      by_contra hlt
      have : 2 ^ k ≤ 2 ^ 9 := Nat.pow_le_pow_right (by omega) (by omega)
      omega
    have height : 2 ^ k / 8 = 2 ^ (k - 3) := by
      rw [show (8 : ℕ) = 2 ^ 3 from rfl, Nat.pow_div (by omega) (by omega)]
    refine (halts_weakResize (show 2 ≤ k - 3 by omega) (by rw [hpow, height]) (by rw [hfree.count]; omega)
      fun i j a b hi hj => hfree.slot_unique hi hj).mono ?_
    rintro t' ⟨ht', hmask', hcount', hhas'⟩
    rw [hfree.count] at hcount'
    exact ⟨⟨ht', by omega, by omega⟩, fun e' => by rw [hhas', hhas]⟩
  · refine halts_pure ⟨⟨hfree, by omega, fun hbig => ?_⟩, hhas⟩
    omega

omit [DecidableEq ρ] in
/-- The slot of the entry of an object. -/
theorem halts_weakEntryForReferent (h : TableOk env t) (o : ο) : Halts (weakEntryForReferent env t o) fun p =>
    (∃ i e, p = some i ∧ t.slots[i]? = some (some e) ∧ e.referent = o ∧ Sized env t) ∨
      p = none ∧ ∀ e, t.Has e → e.referent ≠ o := by
  rw [weakEntryForReferent]
  rcases h.sized with rfl | hsized
  · exact halts_pure (Or.inr ⟨rfl, fun _ he => absurd he not_has_empty⟩)
  · have hne : t.slots.isEmpty = false := by
      rw [List.isEmpty_eq_false_iff_exists_mem]
      have hlength := hsized.table.length
      exact List.exists_mem_of_length_pos (by omega)
    rw [if_neg (by rw [hne]; exact Bool.false_ne_true)]
    refine (hsized.table.halts_seek (k := o) fun a => beq_iff_eq).mono ?_
    rintro p (⟨i, e, hp, hi, he⟩ | hnone)
    · exact Or.inl ⟨i, e, hp, hi, he, hsized⟩
    · exact Or.inr hnone

omit [DecidableEq ο] [DecidableEq ρ] in
/-- An entry may get other referrers. -/
theorem TableOk.setReferrers {referrers : Referrers ρ} (h : TableOk env t) (hsized : Sized env t)
    (hi : t.slots[i]? = some (some e)) (hreferrers : ReferrersOk env referrers) :
    TableOk env { t with slots := t.slots.set i (some ⟨e.referent, referrers⟩) } ∧
      Sized env { t with slots := t.slots.set i (some ⟨e.referent, referrers⟩) } ∧
      ∀ o r, Registered { t with slots := t.slots.set i (some ⟨e.referent, referrers⟩) } o r ↔
        o = e.referent ∧ referrers.Has r ∨ o ≠ e.referent ∧ Registered t o r := by
  obtain ⟨htable, hhas⟩ := hsized.table.update (b := ⟨e.referent, referrers⟩) hi rfl
  have hsized' : Sized env { t with slots := t.slots.set i (some ⟨e.referent, referrers⟩) } :=
    ⟨htable, hsized.least, hsized.dense⟩
  refine ⟨⟨Or.inr hsized', fun e' he' => ?_, fun e' he' => ?_⟩, hsized', fun o r => ?_⟩
  · rcases (hhas e').mp he' with rfl | ⟨hold, -⟩
    · exact hreferrers
    · exact h.entries e' hold
  · rcases (hhas e').mp he' with rfl | ⟨hold, -⟩
    · exact h.untagged e (Slots.has_iff.mpr ⟨i, hi⟩)
    · exact h.untagged e' hold
  · constructor
    · rintro ⟨e', he', rfl, hr⟩
      rcases (hhas e').mp he' with rfl | ⟨hold, hne⟩
      · exact Or.inl ⟨rfl, hr⟩
      · exact Or.inr ⟨hne, e', hold, rfl, hr⟩
    · rintro (⟨rfl, hr⟩ | ⟨hne, e', he', rfl, hr⟩)
      · exact ⟨_, (hhas _).mpr (Or.inl rfl), rfl, hr⟩
      · exact ⟨e', (hhas e').mpr (Or.inr ⟨he', hne⟩), rfl, hr⟩

omit [DecidableEq ο] [DecidableEq ρ] in
/-- The variables of the entry of an object are those registered for it. -/
theorem TableOk.registered_iff (h : TableOk env t) (hi : t.slots[i]? = some (some e)) :
    Registered t e.referent r ↔ e.referrers.Has r := by
  have he : t.Has e := Slots.has_iff.mpr ⟨i, hi⟩
  constructor
  · rintro ⟨e', he', hreferent, hr⟩
    exact h.eq_of_referent he' he hreferent ▸ hr
  · exact fun hr => ⟨e, he, rfl, hr⟩

omit [DecidableEq ο] [DecidableEq ρ] in
theorem TableOk.removed {t' : WeakTable ο ρ} (h : TableOk env t) (hsized : Sized env t')
    (hhas : ∀ e', t'.Has e' ↔ t.Has e' ∧ e'.referent ≠ o) : TableOk env t' :=
  ⟨Or.inr hsized, fun e' he' => h.entries e' ((hhas e').mp he').1,
    fun e' he' => h.untagged e' ((hhas e').mp he').1⟩

omit [DecidableEq ο] [DecidableEq ρ] in
/-- Tables with the same entries, except those of one object. -/
theorem registered_of_removed {t' : WeakTable ο ρ}
    (hhas : ∀ e', t'.Has e' ↔ t.Has e' ∧ e'.referent ≠ o) {o' : ο} :
    Registered t' o' r ↔ Registered t o' r ∧ o' ≠ o := by
  constructor
  · rintro ⟨e, he, rfl, hr⟩
    exact ⟨⟨e, ((hhas e).mp he).1, rfl, hr⟩, ((hhas e).mp he).2⟩
  · rintro ⟨⟨e, he, rfl, hr⟩, hne⟩
    exact ⟨e, (hhas e).mpr ⟨he, hne⟩, rfl, hr⟩

omit [DecidableEq ο] [DecidableEq ρ] in
theorem referrersOk_single : ReferrersOk env (.inlineReferrers [some r, none, none, none]) := by
  have hzero : ∀ (i : ℕ) r', [some r, none, none, none][i]? = some (some r') → i = 0 := by
    intro i r' hi
    rcases i with _ | _ | _ | _ | i <;> simp at hi ⊢
  exact ⟨rfl, fun i j r' hi hj => (hzero i r' hi).trans (hzero j r' hj).symm⟩

/-! ## Registering -/

/-- **Unregistering.**  The pair is gone, and only it; without an error if it was registered. -/
theorem halts_weakUnregister (h : TableOk env t) (hr : Registered t o r) :
    Halts (weakUnregister env t (some o) r) fun p => TableOk env p.1 ∧ p.2 = false ∧
      ∀ o' r', Registered p.1 o' r' ↔ Registered t o' r' ∧ ¬ (o' = o ∧ r' = r) := by
  obtain ⟨e₀, he₀, rfl, hr₀⟩ := hr
  rw [weakUnregister]
  refine halts_bind ((halts_weakEntryForReferent h e₀.referent).mono ?_)
  rintro _ (⟨i, e, rfl, hi, hreferent, hsized⟩ | ⟨rfl, hnone⟩)
  · obtain rfl : e = e₀ := h.eq_of_referent (Slots.has_iff.mpr ⟨i, hi⟩) he₀ hreferent
    have hjoin : t.slots[i]?.join = some e := by rw [hi]; rfl
    simp only [hjoin]
    refine halts_bind ((halts_removeReferrer (h.entries e he₀) hr₀).mono ?_)
    rintro ⟨referrers, error⟩ ⟨rfl, hok, hhas⟩
    obtain ⟨htable, hsized', hreg⟩ := h.setReferrers hsized hi hok
    have hresult : ∀ o' r', o' = e.referent ∧ referrers.Has r' ∨ o' ≠ e.referent ∧ Registered t o' r' ↔
        Registered t o' r' ∧ ¬ (o' = e.referent ∧ r' = r) := by
      intro o' r'
      by_cases ho : o' = e.referent
      · subst ho
        rw [h.registered_iff hi, hhas]
        tauto
      · tauto
    dsimp only
    split_ifs with hempty
    · have hi' : (t.slots.set i (some ⟨e.referent, referrers⟩))[i]? = some (some ⟨e.referent, referrers⟩) :=
        List.getElem?_set_self (List.getElem?_eq_some_iff.mp hi).1
      refine halts_bind ((halts_weakEntryRemove hsized' hi').mono ?_)
      rintro t' ⟨ht', hhas'⟩
      refine halts_pure ⟨htable.removed ht' hhas', rfl, fun o' r' => ?_⟩
      rw [registered_of_removed hhas', hreg, ← hresult]
      have hnone : ¬ referrers.Has r' := fun hr' => by
        rw [isEmpty_eq_false hr'] at hempty
        cases hempty
      constructor
      · exact fun h => h.1
      · rintro (⟨-, hr'⟩ | h)
        · exact absurd hr' hnone
        · exact ⟨Or.inr h, h.1⟩
    · exact halts_pure ⟨htable, rfl, fun o' r' => (hreg o' r').trans (hresult o' r')⟩
  · exact absurd rfl (hnone e₀ he₀)

/-- An object without an entry is not looked at further. -/
theorem returns_weakUnregister_of_not (h : TableOk env t) (ho : ∀ e, t.Has e → e.referent ≠ o) :
    Returns (weakUnregister env t (some o) r) (t, false) := by
  obtain ⟨p, hp, hcases⟩ := halts_weakEntryForReferent h o
  rcases hcases with ⟨i, e, rfl, hi, rfl, -⟩ | ⟨rfl, -⟩
  · exact absurd rfl (ho e (Slots.has_iff.mpr ⟨i, hi⟩))
  · exact returns_bind hp (returns_pure _)

/-- **Registering.**  An object that is not refused is registered for the variable,
and nothing else changes. -/
theorem halts_weakRegister {options : DeallocatingOptions} {deallocating : ο → Bool} (h : TableOk env t)
    (htagged : env.isTaggedPointer o = false)
    (hallowed : options ≠ .dontCheckDeallocating → deallocating o = false) (hr : ¬ Registered t o r) :
    Halts (weakRegister env t (some o) r options deallocating) fun p => TableOk env p.1 ∧ p.2 = some o ∧
      ∀ o' r', Registered p.1 o' r' ↔ o' = o ∧ r' = r ∨ Registered t o' r' := by
  simp only [weakRegister, htagged, Bool.false_eq_true, if_false]
  rw [if_neg fun hdead => by rw [hallowed hdead.1] at hdead; exact Bool.false_ne_true hdead.2]
  refine halts_bind ((halts_weakEntryForReferent h o).mono ?_)
  rintro _ (⟨i, e, rfl, hi, rfl, hsized⟩ | ⟨rfl, hnone⟩)
  · have he : t.Has e := Slots.has_iff.mpr ⟨i, hi⟩
    have hjoin : t.slots[i]?.join = some e := by rw [hi]; rfl
    simp only [hjoin]
    rw [h.registered_iff hi] at hr
    refine halts_bind ((halts_appendReferrer (h.entries e he) hr).mono ?_)
    rintro referrers ⟨hok, hhas⟩
    obtain ⟨htable, -, hreg⟩ := h.setReferrers hsized hi hok
    refine halts_pure ⟨htable, rfl, fun o' r' => ?_⟩
    rw [hreg]
    by_cases ho : o' = e.referent
    · subst ho
      rw [h.registered_iff hi, hhas]
      tauto
    · tauto
  · refine halts_bind ((halts_weakGrowMaybe h).mono ?_)
    rintro t₁ ⟨hsized₁, hroom, hhas₁⟩
    refine halts_bind ((hsized₁.table.halts_insert hroom fun e' he' => hnone e' ((hhas₁ e').mp he')).mono ?_)
    rintro t₂ ⟨htable₂, hmask, hcount, hhas₂⟩
    have hleast := hsized₁.least
    have hdense := hsized₁.dense
    have hdense₂ : 1024 ≤ t₂.mask + 1 → (t₂.mask + 1) / 16 < t₂.count := by
      rw [hmask, hcount]
      omega
    refine halts_pure ⟨⟨Or.inr ⟨htable₂, hmask ▸ hleast, hdense₂⟩, fun e' he' => ?_, fun e' he' => ?_⟩, rfl,
      fun o' r' => ?_⟩
    · rcases (hhas₂ e').mp he' with rfl | hold
      · exact referrersOk_single
      · exact h.entries e' ((hhas₁ e').mp hold)
    · rcases (hhas₂ e').mp he' with rfl | hold
      · exact htagged
      · exact h.untagged e' ((hhas₁ e').mp hold)
    · constructor
      · rintro ⟨e', he', rfl, hr'⟩
        rcases (hhas₂ e').mp he' with rfl | hold
        · exact Or.inl ⟨rfl, by simpa [Referrers.Has, Referrers.slots] using hr'⟩
        · exact Or.inr ⟨e', (hhas₁ e').mp hold, rfl, hr'⟩
      · rintro (⟨rfl, rfl⟩ | ⟨e', he', rfl, hr'⟩)
        · exact ⟨_, (hhas₂ _).mpr (Or.inl rfl), rfl, List.mem_cons_self⟩
        · exact ⟨e', (hhas₂ e').mpr (Or.inr ((hhas₁ e').mpr he')), rfl, hr'⟩

/-- Variables that hold the object, or nil already, are set to nil, without an error. -/
theorem zeroReferrers_eq (errors : ℕ) : ∀ (refs : List (Option ρ)) (location : ρ → Option ο),
    (∀ r, some r ∈ refs → location r = some o ∨ location r = none) →
    zeroReferrers o location errors refs = (fun r => if some r ∈ refs then none else location r, errors) := by
  intro refs
  induction refs with
  | nil => exact fun location _ => by simp [zeroReferrers]
  | cons slot refs ih =>
    intro location hloc
    cases slot with
    | none =>
      rw [zeroReferrers, ih location fun r hr => hloc r (List.mem_cons_of_mem _ hr)]
      simp
    | some s =>
      rw [zeroReferrers]
      have hrest : ∀ location' : ρ → Option ο, (∀ r, location' r = if r = s then none else location r) →
          zeroReferrers o location' errors refs =
            (fun r => if some r ∈ some s :: refs then none else location r, errors) := by
        intro location' hloc'
        rw [ih location' fun r hr => ?_]
        · congr 1
          funext r
          rw [hloc']
          by_cases hrs : r = s <;> simp [hrs]
        · rw [hloc']
          split_ifs
          · exact Or.inr rfl
          · exact hloc r (List.mem_cons_of_mem _ hr)
      split_ifs with hheld hother
      · exact hrest _ fun r => Function.update_apply _ _ _ _
      · rcases hloc s List.mem_cons_self with h | h
        · exact absurd h hheld
        · rw [h] at hother
          cases hother
      · refine hrest _ fun r => ?_
        split_ifs with hrs
        · rw [hrs]
          exact Option.not_isSome_iff_eq_none.mp hother
        · rfl

/-- **Clearing.**  The variables of the object are nil, and none is registered for it any more. -/
theorem halts_weakClear (h : TableOk env t) {location : ρ → Option ο} {errors : ℕ}
    (hloc : ∀ r, Registered t o r → location r = some o) :
    Halts (weakClear env t o location errors) fun p => TableOk env p.1 ∧ p.2.2 = errors ∧
      (∀ o' r, Registered p.1 o' r ↔ Registered t o' r ∧ o' ≠ o) ∧
      ∀ r, (Registered t o r → p.2.1 r = none) ∧ (¬ Registered t o r → p.2.1 r = location r) := by
  rw [weakClear]
  refine halts_bind ((halts_weakEntryForReferent h o).mono ?_)
  rintro _ (⟨i, e, rfl, hi, rfl, hsized⟩ | ⟨rfl, hnone⟩)
  · have hjoin : t.slots[i]?.join = some e := by rw [hi]; rfl
    simp only [hjoin]
    rw [zeroReferrers_eq errors e.referrers.slots location fun r hr =>
      Or.inl (hloc r ((h.registered_iff hi).mpr hr))]
    refine halts_bind ((halts_weakEntryRemove hsized hi).mono ?_)
    rintro t' ⟨ht', hhas⟩
    refine halts_pure ⟨h.removed ht' hhas, rfl, fun o' r => registered_of_removed hhas, fun r => ?_⟩
    rw [h.registered_iff hi]
    exact ⟨fun hr => if_pos hr, fun hr => if_neg hr⟩
  · have hno : ∀ r, ¬ Registered t o r := fun r ⟨e, he, hreferent, _⟩ => hnone e he hreferent
    refine halts_pure ⟨h, rfl, fun o' r => ⟨fun hr => ⟨hr, ?_⟩, fun hr => hr.1⟩,
      fun r => ⟨fun hr => absurd hr (hno r), fun _ => rfl⟩⟩
    rintro rfl
    exact hno r hr

end Entries

end Weak

end QYInterview.ObjC
