import QYInterview.Lib.Probe
import QYInterview.Lib.RunLogic

/-!
# OpenTable — hash tables that remember their greatest displacement

An open-addressed table with linear probing that keeps, beside the number of taken slots, how far any entry
has ever been put from the slot it hashes to.  A search gives up after that many probes, so slots can be
freed one by one. `insert` and `seek` trap where a scan comes round to its beginning; in a `Table`, which is
at most three quarters full, no scan does (`halts_insert`, `halts_seek`), and both do to the set of entries
what their names say.
-/

namespace OpenTable

open RunLogic Probe

/-- The slots, a power of two of them or none at all, with the number of taken ones. -/
structure Slots (α : Type) where
  slots : List (Option α)
  count : ℕ
  mask : ℕ
  maxDisplacement : ℕ
  deriving DecidableEq, Repr

variable {α κ : Type}

/-! ## Operations -/

/-- A table of `n` free slots. -/
def fresh (n : ℕ) : Slots α := ⟨List.replicate n none, 0, n - 1, 0⟩

/-- The number of slots. -/
def Slots.size (t : Slots α) : ℕ := if t.mask ≠ 0 then t.mask + 1 else 0

/-- One turn of the scan for a free slot: the slot and its displacement. -/
def placeTurn (t : Slots α) (begin : ℕ) : ℕ × ℕ → Prog (Turn (ℕ × ℕ) (ℕ × ℕ))
  | (index, displacement) =>
    match t.slots[index]? with
    | none => trap
    | some none => pure (.exit (index, displacement))
    | some (some _) =>
      if (index + 1) &&& t.mask = begin then trap
      else pure (.next ((index + 1) &&& t.mask, displacement + 1))

/-- Puts an entry with the given hash into the first free slot. -/
def insert (hash : ℕ) (t : Slots α) (a : α) : Prog (Slots α) := do
  let begin := hash &&& t.mask
  let (index, displacement) ← loop (placeTurn t begin) (begin, 0)
  pure ⟨t.slots.set index (some a), t.count + 1, t.mask,
    if displacement > t.maxDisplacement then displacement else t.maxDisplacement⟩

/-- One turn of the scan for an entry. -/
def seekTurn (t : Slots α) (hit : α → Bool) (begin : ℕ) : ℕ × ℕ → Prog (Turn (ℕ × ℕ) (Option ℕ))
  | (index, displacement) =>
    match t.slots[index]? with
    | none => trap
    | some slot =>
      if slot.any hit then pure (.exit (some index))
      else if (index + 1) &&& t.mask = begin then trap
      else if displacement + 1 > t.maxDisplacement then pure (.exit none)
      else pure (.next ((index + 1) &&& t.mask, displacement + 1))

/-- The slot of the entry with the given hash, if there is one. -/
def seek (hash : ℕ) (hit : α → Bool) (t : Slots α) : Prog (Option ℕ) :=
  let begin := hash &&& t.mask
  loop (seekTurn t hit begin) (begin, 0)

/-- Frees a slot. -/
def free (t : Slots α) (i : ℕ) : Slots α := { t with slots := t.slots.set i none, count := t.count - 1 }

/-- Puts every entry of some old slots into the table. -/
def refill (insert : Slots α → α → Prog (Slots α)) (old : List (Option α)) (t : Slots α) : Prog (Slots α) :=
  forEach old (fun t slot =>
    match slot with
    | some a => insert t a
    | none => pure t) t

/-! ## Tables -/

/-- The entry is in the table. -/
def Slots.Has (t : Slots α) (a : α) : Prop := some a ∈ t.slots

/-- The key of the entry in a slot. -/
def keyAt (key : α → κ) (slots : List (Option α)) (i : ℕ) : Option κ := slots[i]?.join.map key

variable {key : α → κ} {hash : κ → ℕ} {t : Slots α} {a b : α} {k : κ} {i d : ℕ}

/-- Tables at most three quarters full, without two entries for a key, where no entry is further from its
hash than `maxDisplacement`. -/
structure Table (key : α → κ) (hash : κ → ℕ) (t : Slots α) : Prop where
  size : ∃ k, 2 ≤ k ∧ t.mask + 1 = 2 ^ k
  length : t.slots.length = t.mask + 1
  count : t.slots.countP Option.isSome = t.count
  room : t.count ≤ (t.mask + 1) * 3 / 4
  bound : t.maxDisplacement < (t.mask + 1) * 3 / 4
  unique : Unique (t.mask + 1) (keyAt key t.slots)
  displaced : Displaced (fun i => (i + 1) &&& t.mask) (t.mask + 1)
    (fun k => hash k &&& t.mask) t.maxDisplacement
    (keyAt key t.slots)

theorem Slots.has_iff : t.Has a ↔ ∃ i : ℕ, t.slots[i]? = some (some a) := List.mem_iff_getElem?

theorem keyAt_eq_some {slots : List (Option α)} :
    keyAt key slots i = some k ↔ ∃ a, slots[i]? = some (some a) ∧ key a = k := by
  rw [keyAt, Option.map_eq_some_iff]
  simp only [Option.join_eq_some_iff]

theorem keyAt_set {slots : List (Option α)} {slot : Option α} {j : ℕ} (hi : i < slots.length) :
    keyAt key (slots.set i slot) j = if i = j then slot.map key else keyAt key slots j := by
  rw [keyAt, keyAt, List.getElem?_set, if_pos hi]
  split_ifs
  · rfl
  · rfl

namespace Table

variable (h : Table key hash t)

include h

theorem round : Round (fun i => (i + 1) &&& t.mask) (t.mask + 1) := by
  obtain ⟨k, -, hk⟩ := h.size
  rw [hk, show t.mask = 2 ^ k - 1 by omega]
  exact round_up k

theorem mask_pos : 3 ≤ t.mask := by
  obtain ⟨k, hlo, hk⟩ := h.size
  have : 2 ^ 2 ≤ 2 ^ k := Nat.pow_le_pow_right (by omega) hlo
  omega

theorem size_eq : t.size = t.mask + 1 := if_pos (by have := h.mask_pos; omega)

omit h in
theorem start_lt (hash : κ → ℕ) (t : Slots α) (k : κ) : hash k &&& t.mask < t.mask + 1 :=
  Nat.lt_succ_of_le Nat.and_le_right

/-- Two entries with one key are the same. -/
theorem eq_of_key (ha : t.Has a) (hb : t.Has b) (hk : key a = key b) : a = b := by
  obtain ⟨i, hi⟩ := Slots.has_iff.mp ha
  obtain ⟨j, hj⟩ := Slots.has_iff.mp hb
  have hilt := (List.getElem?_eq_some_iff.mp hi).1
  have hjlt := (List.getElem?_eq_some_iff.mp hj).1
  obtain rfl := h.unique i (h.length ▸ hilt) j (h.length ▸ hjlt) (key b) (keyAt_eq_some.mpr ⟨a, hi, hk⟩)
    (keyAt_eq_some.mpr ⟨b, hj, rfl⟩)
  exact Option.some.inj (Option.some.inj (hi.symm.trans hj))

theorem slot_unique {j : ℕ} (hi : t.slots[i]? = some (some a)) (hj : t.slots[j]? = some (some b))
    (hk : key a = key b) :
    i = j :=
  h.unique i (h.length ▸ (List.getElem?_eq_some_iff.mp hi).1) j
    (h.length ▸ (List.getElem?_eq_some_iff.mp hj).1) (key b)
    (keyAt_eq_some.mpr ⟨a, hi, hk⟩) (keyAt_eq_some.mpr ⟨b, hj, rfl⟩)

theorem exists_slot {i : Nat} (hi : i < t.mask + 1) : ∃ slot, t.slots[i]? = some slot :=
  ⟨_, List.getElem?_eq_getElem (h.length ▸ hi)⟩

/-- **Search.**  It ends at the slot of the key, or knows that there is none, before it comes round. -/
theorem halts_seek {hit : α → Bool} (hhit : ∀ a, hit a = true ↔ key a = k) :
    Halts (seek (hash k) hit t) fun r =>
      (∃ i a, r = some i ∧ t.slots[i]? = some (some a) ∧ key a = k) ∨
        r = none ∧ ∀ a, t.Has a → key a ≠ k := by
  have hs := start_lt hash t k
  have hmax := h.bound
  have hmask := h.mask_pos
  -- the number of probes made so far, none of which was at the key
  refine halts_loop (fun s => ∃ d ≤ t.maxDisplacement,
    s = ((fun i => (i + 1) &&& t.mask)^[d] (hash k &&& t.mask), d) ∧
      ∀ e < d, keyAt key t.slots ((fun i => (i + 1) &&& t.mask)^[e] (hash k &&& t.mask)) ≠ some k)
    (fun s => t.maxDisplacement + 1 - s.2) _ ?_ _ ⟨0, Nat.zero_le _, rfl,
      fun e he => absurd he (Nat.not_lt_zero e)⟩
  rintro _ ⟨d, hd, rfl, hprobed⟩
  have hlt := h.round.iterate_lt hs d
  have hnext := h.round.next_eq_start_iff hs (show d < t.mask + 1 by omega)
  have hsucc := Function.iterate_succ_apply' (fun i => (i + 1) &&& t.mask) d (hash k &&& t.mask)
  generalize hindex : (fun i => (i + 1) &&& t.mask)^[d] (hash k &&& t.mask) = index at hlt hnext hsucc
  obtain ⟨slot, hslot⟩ := h.exists_slot hlt
  simp only [seekTurn, hslot]
  by_cases hany : slot.any hit = true
  · rw [if_pos hany]
    obtain ⟨a, ha, hk⟩ := (Option.any_eq_true _ _).mp hany
    exact halts_pure (Or.inl ⟨index, a, rfl, by rw [hslot, ha], (hhit a).mp hk⟩)
  · rw [if_neg hany, if_neg (by rw [hnext]; omega)]
    have hmiss : keyAt key t.slots index ≠ some k := by
      intro hk
      obtain ⟨a, ha, hka⟩ := keyAt_eq_some.mp hk
      rw [hslot] at ha
      exact hany (by rw [Option.some.inj ha, Option.any_some]; exact (hhit a).mpr hka)
    have hprobed' : ∀ e ≤ d, keyAt key t.slots ((fun i => (i + 1) &&& t.mask)^[e] (hash k &&& t.mask)) ≠
        some k := by
      intro e he
      rcases Nat.lt_or_eq_of_le he with he | rfl
      · exact hprobed e he
      · rwa [hindex]
    split_ifs with hlast
    · refine halts_pure (Or.inr ⟨rfl, fun a ha hka => ?_⟩)
      obtain ⟨j, hj⟩ := Slots.has_iff.mp ha
      exact h.displaced.absent (fun e he => hprobed' e (by omega)) j
        (h.length ▸ (List.getElem?_eq_some_iff.mp hj).1) (keyAt_eq_some.mpr ⟨a, hj, hka⟩)
    · exact halts_pure ⟨⟨d + 1, by omega, by rw [hsucc], fun e he => hprobed' e (by omega)⟩, by
        show t.maxDisplacement + 1 - (d + 1) < t.maxDisplacement + 1 - d
        omega⟩

/-- **Insertion.**  A new entry is put into a free slot before the scan comes round. -/
theorem halts_insert (hroom : t.count < (t.mask + 1) * 3 / 4) (habsent : ∀ b, t.Has b → key b ≠ key a) :
    Halts (insert (hash (key a)) t a) fun t' => Table key hash t' ∧ t'.mask = t.mask ∧
      t'.count = t.count + 1 ∧
      ∀ b, t'.Has b ↔ b = a ∨ t.Has b := by
  have hs := start_lt hash t (key a)
  have hround := h.round
  obtain ⟨j, hj, hfree⟩ := exists_free (l := t.slots) (p := Option.isSome) (by rw [h.count, h.length]; omega)
  have hjlt : j < t.mask + 1 := h.length ▸ hj
  obtain ⟨d, hd, hstop, hfull⟩ := hround.exists_first (fun i => t.slots[i]? = some none) hs hjlt
    (by rw [List.getElem?_eq_getElem hj]; simpa using hfree)
  have htaken : ∀ e < d, ∃ b, t.slots[(fun i => (i + 1) &&& t.mask)^[e] (hash (key a) &&& t.mask)]? =
      some (some b) := by
    intro e he
    have hlt := hround.iterate_lt hs e
    obtain ⟨slot, hslot⟩ := h.exists_slot hlt
    cases slot with
    | none => exact absurd hslot (hfull e he)
    | some b => exact ⟨b, hslot⟩
  have hplace : Returns (loop (placeTurn t (hash (key a) &&& t.mask)) (hash (key a) &&& t.mask, 0))
      ((fun i => (i + 1) &&& t.mask)^[d] (hash (key a) &&& t.mask), d) := by
    refine returns_loop_trace (fun e => ((fun i => (i + 1) &&& t.mask)^[e] (hash (key a) &&& t.mask), e)) d
      (fun e he => ?_) ?_
    · obtain ⟨b, hb⟩ := htaken e he
      have hnext := hround.next_eq_start_iff hs (show e < t.mask + 1 by omega)
      simp only [placeTurn, hb]
      rw [if_neg (by rw [hnext]; omega), Function.iterate_succ_apply']
      exact returns_pure _
    · simp only [placeTurn, hstop]
      exact returns_pure _
  refine halts_bind (hplace.halts (halts_pure ?_))
  -- the displacement is at most the number of taken slots
  have hdisp : d ≤ t.count := by
    rw [← h.count]
    refine displacement_le_count (h.length ▸ hround) (h.length ▸ hs) (by rw [h.length]; omega) fun e he => ?_
    obtain ⟨b, hb⟩ := htaken e he
    rw [hb]
    rfl
  generalize hindex : (fun i => (i + 1) &&& t.mask)^[d] (hash (key a) &&& t.mask) = index at hstop
  have hlt : index < t.slots.length := (List.getElem?_eq_some_iff.mp hstop).1
  have hold : t.slots[index] = none := (List.getElem?_eq_some_iff.mp hstop).2
  have hself : keyAt key (t.slots.set index (some a)) index = some (key a) := by
    rw [keyAt_set hlt, if_pos rfl, Option.map_some]
  have hother : ∀ i, i ≠ index → keyAt key (t.slots.set index (some a)) i = keyAt key t.slots i := by
    intro i hi
    rw [keyAt_set hlt, if_neg (Ne.symm hi)]
  have hmax : (if d > t.maxDisplacement then d else t.maxDisplacement) = max t.maxDisplacement d := by
    split_ifs <;> omega
  refine ⟨⟨h.size, ?_, ?_, ?_, ?_, ?_, ?_⟩, rfl, rfl, fun b => ?_⟩
  · rw [List.length_set]
    exact h.length
  · rw [List.countP_set hlt, h.count, hold]
    rfl
  · show t.count + 1 ≤ (t.mask + 1) * 3 / 4
    omega
  · show (if d > t.maxDisplacement then d else t.maxDisplacement) < (t.mask + 1) * 3 / 4
    have := h.bound
    rw [hmax]
    omega
  · refine h.unique.insert hself hother fun i hi hk => ?_
    obtain ⟨b, hb, hkb⟩ := keyAt_eq_some.mp hk
    exact habsent b (Slots.has_iff.mpr ⟨i, hb⟩) hkb
  · subst hindex
    refine h.displaced.insert hself hother ?_ ?_
    · show t.maxDisplacement ≤ (if d > t.maxDisplacement then d else t.maxDisplacement)
      rw [hmax]
      exact le_max_left _ _
    · show d ≤ (if d > t.maxDisplacement then d else t.maxDisplacement)
      rw [hmax]
      exact le_max_right _ _
  · rw [Slots.has_iff, Slots.has_iff]
    constructor
    · rintro ⟨i, hi⟩
      change (t.slots.set index (some a))[i]? = _ at hi
      rw [List.getElem?_set] at hi
      split_ifs at hi with hii
      · exact Or.inl (Option.some.inj (Option.some.inj hi)).symm
      · exact Or.inr ⟨i, hi⟩
    · rintro (rfl | ⟨i, hi⟩)
      · exact ⟨index, List.getElem?_set_self hlt⟩
      · refine ⟨i, ?_⟩
        have hne : index ≠ i := by
          rintro rfl
          rw [hstop] at hi
          cases hi
        exact (List.getElem?_set_ne hne).trans hi

/-- **Freeing.**  The entry of the slot is gone, and only it. -/
theorem free (hi : t.slots[i]? = some (some a)) :
    Table key hash (free t i) ∧ 0 < t.count ∧ ∀ b, (OpenTable.free t i).Has b ↔ t.Has b ∧ key b ≠ key a := by
  have hlt : i < t.slots.length := (List.getElem?_eq_some_iff.mp hi).1
  have hold : t.slots[i] = some a := (List.getElem?_eq_some_iff.mp hi).2
  have hpos : 0 < t.count := by
    rw [← h.count]
    exact List.countP_pos_iff.mpr ⟨some a, List.mem_of_getElem? hi, rfl⟩
  have hfree : ∀ j k, keyAt key (t.slots.set i none) j = some k → keyAt key t.slots j = some k := by
    intro j k hk
    rw [keyAt_set hlt] at hk
    split_ifs at hk
    · cases hk
    · exact hk
  refine ⟨⟨h.size, ?_, ?_, ?_, h.bound, h.unique.free hfree, h.displaced.free hfree⟩, hpos, fun b => ?_⟩
  · show (t.slots.set i none).length = t.mask + 1
    rw [List.length_set]
    exact h.length
  · show (t.slots.set i none).countP Option.isSome = t.count - 1
    rw [List.countP_set hlt, h.count, hold]
    rfl
  · show t.count - 1 ≤ (t.mask + 1) * 3 / 4
    have := h.room
    omega
  · rw [Slots.has_iff, Slots.has_iff]
    constructor
    · rintro ⟨j, hj⟩
      change (t.slots.set i none)[j]? = _ at hj
      rw [List.getElem?_set] at hj
      split_ifs at hj with hij
      · cases hj
      · exact ⟨⟨j, hj⟩, fun hk => hij (h.slot_unique hi hj hk.symm)⟩
    · rintro ⟨⟨j, hj⟩, hk⟩
      refine ⟨j, (List.getElem?_set_ne ?_).trans hj⟩
      rintro rfl
      exact hk (congrArg key (Option.some.inj (Option.some.inj (hj.symm.trans hi))))

/-- An entry may be changed where it is, if it keeps its key. -/
theorem update (hi : t.slots[i]? = some (some a)) (hk : key b = key a) :
    Table key hash { t with slots := t.slots.set i (some b) } ∧
      ∀ c, Slots.Has { t with slots := t.slots.set i (some b) } c ↔ c = b ∨ t.Has c ∧ key c ≠ key a := by
  have hlt : i < t.slots.length := (List.getElem?_eq_some_iff.mp hi).1
  have hold : t.slots[i] = some a := (List.getElem?_eq_some_iff.mp hi).2
  have hsame : keyAt key (t.slots.set i (some b)) = keyAt key t.slots := by
    funext j
    rw [keyAt_set hlt]
    split_ifs with hij
    · rw [Option.map_some, hk, ← hij]
      exact (keyAt_eq_some.mpr ⟨a, hi, rfl⟩).symm
    · rfl
  refine ⟨⟨h.size, ?_, ?_, h.room, h.bound, hsame ▸ h.unique, hsame ▸ h.displaced⟩, fun c => ?_⟩
  · show (t.slots.set i (some b)).length = t.mask + 1
    rw [List.length_set]
    exact h.length
  · show (t.slots.set i (some b)).countP Option.isSome = t.count
    have hpos : 0 < t.count := by
      rw [← h.count]
      exact List.countP_pos_iff.mpr ⟨some a, List.mem_of_getElem? hi, rfl⟩
    rw [List.countP_set hlt, h.count, hold, Option.isSome_some, Option.isSome_some, if_pos rfl]
    omega
  · rw [Slots.has_iff, Slots.has_iff]
    constructor
    · rintro ⟨j, hj⟩
      change (t.slots.set i (some b))[j]? = _ at hj
      rw [List.getElem?_set] at hj
      split_ifs at hj with hij
      · exact Or.inl (Option.some.inj (Option.some.inj hj)).symm
      · exact Or.inr ⟨⟨j, hj⟩, fun hk => hij (h.slot_unique hi hj hk.symm)⟩
    · rintro (rfl | ⟨⟨j, hj⟩, hk⟩)
      · exact ⟨i, List.getElem?_set_self hlt⟩
      · refine ⟨j, (List.getElem?_set_ne ?_).trans hj⟩
        rintro rfl
        exact hk (congrArg key (Option.some.inj (Option.some.inj (hj.symm.trans hi))))

end Table

/-! ## New tables -/

theorem not_has_fresh (n : ℕ) (a : α) : ¬ (fresh n).Has a := by
  intro ha
  have := List.eq_of_mem_replicate (show some a ∈ List.replicate n none from ha)
  cases this

theorem table_fresh {n k : ℕ} (hk : 2 ≤ k) (hn : n = 2 ^ k) : Table key hash (fresh n) := by
  have hpow : 2 ^ 2 ≤ 2 ^ k := Nat.pow_le_pow_right (by omega) hk
  have hkey : ∀ i, keyAt key (List.replicate n none : List (Option α)) i = none := by
    intro i
    rw [keyAt, List.getElem?_replicate]
    split_ifs <;> rfl
  refine ⟨⟨k, hk, ?_⟩, ?_, ?_, Nat.zero_le _, ?_, ?_, ?_⟩
  · show n - 1 + 1 = _
    omega
  · show (List.replicate n none).length = n - 1 + 1
    rw [List.length_replicate]
    omega
  · show (List.replicate n none).countP Option.isSome = 0
    simp
  · show 0 < (n - 1 + 1) * 3 / 4
    omega
  · intro i _ j _ k' hk'
    exact absurd hk' (by rw [show (fresh n : Slots α).slots = List.replicate n none from rfl, hkey]; simp)
  · intro j _ k' hk'
    exact absurd hk' (by rw [show (fresh n : Slots α).slots = List.replicate n none from rfl, hkey]; simp)

/-- **Rehashing.**  A table that has room for some old entries, and has none yet, gets them. -/
theorem Table.halts_refill {old : List (Option α)} {insert : Slots α → α → Prog (Slots α)}
    (h : Table key hash t)
    (hunique : ∀ (i j : ℕ) a b, old[i]? = some (some a) → old[j]? = some (some b) → key a = key b → i = j)
    (hempty : ∀ a, ¬ t.Has a) (hcount : t.count = 0) (hroom : old.countP Option.isSome ≤ (t.mask + 1) * 3 / 4)
    (hinsert : ∀ t' a, Table key hash t' → t'.mask = t.mask → t'.count < (t.mask + 1) * 3 / 4 →
      insert t' a = OpenTable.insert (hash (key a)) t' a) :
    Halts (refill insert old t) fun t' => Table key hash t' ∧ t'.mask = t.mask ∧
      t'.count = old.countP Option.isSome ∧ ∀ a, t'.Has a ↔ some a ∈ old := by
  refine halts_forEach (fun done t' => Table key hash t' ∧ t'.mask = t.mask ∧
    t'.count = done.countP Option.isSome ∧ ∀ a, t'.Has a ↔ some a ∈ done) ?_ ⟨h, rfl, hcount, fun a => ?_⟩
  · rintro done slot rest t' hsplit ⟨ht', hmask, hcount', hhas⟩
    cases slot with
    | none =>
      refine halts_pure ⟨ht', hmask, ?_, fun a => ?_⟩
      · rw [List.countP_append, hcount']
        rfl
      · rw [hhas, List.mem_append]
        simp
    | some a =>
      have hcountP : t'.count + 1 ≤ (t.mask + 1) * 3 / 4 := by
        refine le_trans ?_ hroom
        rw [hsplit, List.countP_append, List.countP_cons_of_pos rfl, hcount']
        omega
      have hslot : old[done.length]? = some (some a) := by
        rw [hsplit, List.getElem?_append_right le_rfl, Nat.sub_self]
        rfl
      have habsent : ∀ b, t'.Has b → key b ≠ key a := by
        intro b hb hk
        obtain ⟨j, hj⟩ := List.mem_iff_getElem?.mp ((hhas b).mp hb)
        have hjlt := (List.getElem?_eq_some_iff.mp hj).1
        have hj' : old[j]? = some (some b) := by
          rw [hsplit, List.getElem?_append_left hjlt]
          exact hj
        have := hunique j done.length b a hj' hslot hk
        omega
      show Halts (insert t' a) _
      rw [hinsert t' a ht' hmask (by omega)]
      refine (ht'.halts_insert (by rw [hmask]; omega) habsent).mono ?_
      rintro t'' ⟨ht'', hmask'', hcount'', hhas''⟩
      refine ⟨ht'', hmask''.trans hmask, ?_, fun b => ?_⟩
      · rw [List.countP_append, hcount'', hcount']
        rfl
      · rw [hhas'', hhas, List.mem_append, List.mem_singleton, Option.some.injEq, or_comm]
  · exact ⟨fun ha => absurd ha (hempty a), fun ha => absurd ha List.not_mem_nil⟩

end OpenTable
