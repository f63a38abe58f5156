import Mathlib.Tactic
import Mathlib.Data.Nat.Bitwise

/-!
# Probe — the slots of an open-addressed hash table

A probe sequence starts at the slot a key hashes to and goes on with `next`; `Round next n` says that it goes
round all `n` slots (`round_up` for `(i + 1) & mask`, `round_down` for a scan that decrements).  A table is
given by the key each slot holds and by the slots that are taken, and keeps one of two invariants.  `Chained`:
all slots a key was probed at before its own are taken, so a search may stop at the first free slot, but a
slot is never freed alone.  `Displaced`: no key is further than `max` probes from its hash, so a search
stops after `max` probes, and a slot may be freed.
-/

namespace Probe

variable {κ : Type} {next : ℕ → ℕ} {n s d e i j : ℕ}

/-- From any slot below `n` the sequence reaches every other in less than `n` probes. -/
structure Round (next : ℕ → ℕ) (n : ℕ) : Prop where
  lt : ∀ i < n, next i < n
  reach : ∀ i < n, ∀ j < n, ∃ d < n, next^[d] i = j

namespace Round

variable (h : Round next n)

include h

theorem iterate_lt (hs : s < n) (d : ℕ) : next^[d] s < n := by
  induction d with
  | zero => exact hs
  | succ d ih =>
    rw [Function.iterate_succ_apply']
    exact h.lt _ ih

/-- The first `n` probes are at different slots. -/
theorem eq_of_iterate_eq (hs : s < n) (hd : d < n) (he : e < n) (heq : next^[d] s = next^[e] s) : d = e := by
  let f : Fin n → Fin n := fun d => ⟨next^[d.val] s, h.iterate_lt hs d⟩
  have hsurj : Function.Surjective f := by
    intro j
    obtain ⟨d, hd, hj⟩ := h.reach s hs j j.isLt
    exact ⟨⟨d, hd⟩, Fin.ext hj⟩
  have hinj : f ⟨d, hd⟩ = f ⟨e, he⟩ := Fin.ext heq
  exact congrArg Fin.val (Finite.injective_iff_surjective.mpr hsurj hinj)

theorem ne_start (hs : s < n) (hpos : 0 < d) (hd : d < n) : next^[d] s ≠ s := by
  intro heq
  have := h.eq_of_iterate_eq hs hd (by omega : 0 < n) heq
  omega

/-- After `n` probes the sequence is where it began. -/
theorem period (hs : s < n) : next^[n] s = s := by
  obtain ⟨d, hd, heq⟩ := h.reach (next s) (h.lt s hs) s hs
  rw [← Function.iterate_succ_apply] at heq
  rcases Nat.lt_or_ge (d + 1) n with hlt | hge
  · exact absurd heq (h.ne_start hs (by omega) hlt)
  · rw [show n = d + 1 by omega]
    exact heq

/-- The probe before the last slot is not at the start again, and the last one is. -/
theorem next_eq_start_iff (hs : s < n) (hd : d < n) : next (next^[d] s) = s ↔ d + 1 = n := by
  rw [← Function.iterate_succ_apply' next]
  constructor
  · intro heq
    by_contra hne
    exact h.ne_start hs (by omega) (by omega) heq
  · rintro rfl
    exact h.period hs

/-- A slot where the scan stops is found, and it is the first of the sequence. -/
theorem exists_first (stop : ℕ → Prop) (hs : s < n) (hj : j < n) (hstop : stop j) :
    ∃ d < n, stop (next^[d] s) ∧ ∀ e < d, ¬ stop (next^[e] s) := by
  classical
  obtain ⟨d, hd, rfl⟩ := h.reach s hs j hj
  have hex : ∃ d, stop (next^[d] s) := ⟨d, hstop⟩
  exact ⟨Nat.find hex, (Nat.find_min' hex hstop).trans_lt hd, Nat.find_spec hex,
    fun e he => Nat.find_min hex he⟩

end Round

/-! ## Two sequences -/

/-- `i + d` on a table whose size is a power of two. -/
theorem iterate_up (k d : ℕ) (hi : i < 2 ^ k) :
    (fun i => (i + 1) &&& (2 ^ k - 1))^[d] i = (i + d) % 2 ^ k := by
  induction d with
  | zero => exact (Nat.mod_eq_of_lt hi).symm
  | succ d ih =>
    rw [Function.iterate_succ_apply', ih, Nat.and_two_pow_sub_one_eq_mod, Nat.mod_add_mod, Nat.add_assoc]

theorem round_up (k : ℕ) : Round (fun i => (i + 1) &&& (2 ^ k - 1)) (2 ^ k) where
  lt := by
    intro i _
    rw [Nat.and_two_pow_sub_one_eq_mod]
    exact Nat.mod_lt _ (by positivity)
  reach := by
    intro i hi j hj
    refine ⟨(j + (2 ^ k - i)) % 2 ^ k, Nat.mod_lt _ (by omega), ?_⟩
    rw [iterate_up k _ hi, Nat.add_mod_mod, show i + (j + (2 ^ k - i)) = j + 2 ^ k by omega,
      Nat.add_mod_right]
    exact Nat.mod_eq_of_lt hj

/-- The first probes of a scan that decrements, before it wraps. -/
theorem iterate_down (m : ℕ) : ∀ d ≤ i, (fun i => if i ≠ 0 then i - 1 else m)^[d] i = i - d := by
  intro d
  induction d with
  | zero => intro _; rfl
  | succ d ih =>
    intro hd
    rw [Function.iterate_succ_apply', ih (by omega), if_pos (by omega)]
    omega

/-- The probes of a scan that decrements, after it has wrapped. -/
theorem iterate_down_wrap (m d : ℕ) (hd : d ≤ m) :
    (fun i => if i ≠ 0 then i - 1 else m)^[i + 1 + d] i = m - d := by
  rw [Nat.add_comm, Function.iterate_add_apply, Function.iterate_succ_apply', iterate_down m i le_rfl,
    Nat.sub_self]
  exact iterate_down m d hd

theorem round_down (m : ℕ) : Round (fun i => if i ≠ 0 then i - 1 else m) (m + 1) where
  lt := by
    intro i hi
    split_ifs <;> omega
  reach := by
    intro i hi j hj
    rcases Nat.lt_or_ge i j with hij | hij
    · refine ⟨i + 1 + (m - j), by omega, ?_⟩
      rw [iterate_down_wrap m _ (by omega)]
      omega
    · refine ⟨i - j, by omega, ?_⟩
      rw [iterate_down m _ (by omega)]
      omega

/-! ## Tables that are searched up to a free slot -/

section Chained

variable {hash : κ → ℕ} {keyAt keyAt' : ℕ → Option κ} {taken taken' : ℕ → Prop} {k : κ}

/-- Every slot probed for a key before the slot that holds it is taken. -/
def Chained (next : ℕ → ℕ) (n : ℕ) (hash : κ → ℕ) (keyAt : ℕ → Option κ) (taken : ℕ → Prop) : Prop :=
  ∀ j < n, ∀ k, keyAt j = some k → ∃ d < n, next^[d] (hash k) = j ∧ ∀ e < d, taken (next^[e] (hash k))

/-- No key is in two slots. -/
def Unique (n : ℕ) (keyAt : ℕ → Option κ) : Prop :=
  ∀ i < n, ∀ j < n, ∀ k, keyAt i = some k → keyAt j = some k → i = j

/-- A key that is not in the slots probed up to a free one is nowhere. -/
theorem Chained.absent (h : Chained next n hash keyAt taken) (hfree : ¬ taken (next^[d] (hash k)))
    (hprobed : ∀ e ≤ d, keyAt (next^[e] (hash k)) ≠ some k) : ∀ j < n, keyAt j ≠ some k := by
  intro j hj hk
  obtain ⟨e, he, rfl, htaken⟩ := h j hj k hk
  rcases Nat.lt_or_ge d e with hde | hde
  · exact hfree (htaken d hde)
  · exact hprobed e hde hk

/-- The key goes to the first free slot of its sequence. -/
theorem Chained.insert (h : Chained next n hash keyAt taken) (hd : d < n)
    (hfull : ∀ e < d, taken (next^[e] (hash k))) (hself : keyAt' (next^[d] (hash k)) = some k)
    (hother : ∀ i, i ≠ next^[d] (hash k) → keyAt' i = keyAt i) (htaken : ∀ i, taken i → taken' i) :
    Chained next n hash keyAt' taken' := by
  intro j hj k' hk'
  by_cases hjd : j = next^[d] (hash k)
  · subst hjd
    obtain rfl := Option.some.inj (hself.symm.trans hk')
    exact ⟨d, hd, rfl, fun e he => htaken _ (hfull e he)⟩
  · rw [hother j hjd] at hk'
    obtain ⟨e, he, heq, hchain⟩ := h j hj k' hk'
    exact ⟨e, he, heq, fun e' he' => htaken _ (hchain e' he')⟩

theorem Unique.insert (h : Unique n keyAt) (hself : keyAt' j = some k)
    (hother : ∀ i, i ≠ j → keyAt' i = keyAt i) (habsent : ∀ i < n, keyAt i ≠ some k) : Unique n keyAt' := by
  intro i hi i' hi' k' hk hk'
  by_cases hij : i = j <;> by_cases hij' : i' = j
  · rw [hij, hij']
  · obtain rfl := Option.some.inj (hself.symm.trans (hij ▸ hk))
    exact absurd ((hother i' hij').symm.trans hk') (habsent i' hi')
  · obtain rfl := Option.some.inj (hself.symm.trans (hij' ▸ hk'))
    exact absurd ((hother i hij).symm.trans hk) (habsent i hi)
  · exact h i hi i' hi' k' ((hother i hij).symm.trans hk) ((hother i' hij').symm.trans hk')

theorem Unique.free (h : Unique n keyAt) (hfree : ∀ i k, keyAt' i = some k → keyAt i = some k) :
    Unique n keyAt' :=
  fun i hi j hj k hk hk' => h i hi j hj k (hfree i k hk) (hfree j k hk')

end Chained

/-! ## Tables that are searched for a number of probes -/

section Displaced

variable {hash : κ → ℕ} {keyAt keyAt' : ℕ → Option κ} {k : κ} {m m' : ℕ}

/-- Every key is at most `m` probes from its hash. -/
def Displaced (next : ℕ → ℕ) (n : ℕ) (hash : κ → ℕ) (m : ℕ) (keyAt : ℕ → Option κ) : Prop :=
  ∀ j < n, ∀ k, keyAt j = some k → ∃ d ≤ m, next^[d] (hash k) = j

/-- A key that is not in the first `m` slots probed is nowhere. -/
theorem Displaced.absent (h : Displaced next n hash m keyAt)
    (hprobed : ∀ e ≤ m, keyAt (next^[e] (hash k)) ≠ some k) : ∀ j < n, keyAt j ≠ some k := by
  intro j hj hk
  obtain ⟨d, hd, rfl⟩ := h j hj k hk
  exact hprobed d hd hk

theorem Displaced.insert (h : Displaced next n hash m keyAt) (hself : keyAt' (next^[d] (hash k)) = some k)
    (hother : ∀ i, i ≠ next^[d] (hash k) → keyAt' i = keyAt i) (hm : m ≤ m') (hd : d ≤ m') :
    Displaced next n hash m' keyAt' := by
  intro j hj k' hk'
  by_cases hjd : j = next^[d] (hash k)
  · subst hjd
    obtain rfl := Option.some.inj (hself.symm.trans hk')
    exact ⟨d, hd, rfl⟩
  · rw [hother j hjd] at hk'
    obtain ⟨e, he, heq⟩ := h j hj k' hk'
    exact ⟨e, he.trans hm, heq⟩

theorem Displaced.free (h : Displaced next n hash m keyAt)
    (hfree : ∀ i k, keyAt' i = some k → keyAt i = some k) :
    Displaced next n hash m keyAt' :=
  fun j hj k hk => h j hj k (hfree j k hk)

end Displaced

/-! ## Free slots -/

section Count

variable {α : Type} {l : List α} {p : α → Bool}

/-- A table with fewer taken slots than slots has a free one. -/
theorem exists_free (h : l.countP p < l.length) : ∃ i, ∃ hi : i < l.length, p l[i] = false := by
  by_contra hall
  push Not at hall
  refine h.ne (List.countP_eq_length.mpr fun a ha => ?_)
  obtain ⟨i, hi, rfl⟩ := List.mem_iff_getElem.mp ha
  simpa using hall i hi

theorem countP_eq_card (l : List α) (p : α → Bool) :
    l.countP p = ((Finset.range l.length).filter fun i => (l[i]?).any p = true).card := by
  induction l using List.reverseRecOn with
  | nil => rfl
  | append_singleton l a ih =>
    have hfront : ((Finset.range l.length).filter fun i => ((l ++ [a])[i]?).any p = true) =
        (Finset.range l.length).filter fun i => (l[i]?).any p = true := by
      refine Finset.filter_congr fun i hi => ?_
      rw [List.getElem?_append_left (Finset.mem_range.mp hi)]
    rw [List.countP_append, List.length_append, List.length_singleton, Finset.range_add_one,
      Finset.filter_insert, hfront, ih, List.countP_singleton, List.getElem?_concat_length, Option.any_some]
    split_ifs
    · rw [Finset.card_insert_of_notMem (by simp)]
    · rfl

/-- The slots probed before the first free one are different and taken, so there are at most as many as are
taken. -/
theorem displacement_le_count (h : Round next l.length) (hs : s < l.length) (hd : d ≤ l.length)
    (hfull : ∀ e < d, (l[next^[e] s]?).any p = true) : d ≤ l.countP p := by
  have hinj : Set.InjOn (fun e => next^[e] s) (Finset.range d) := by
    intro e he e' he' heq
    have he := Finset.mem_range.mp he
    have he' := Finset.mem_range.mp he'
    exact h.eq_of_iterate_eq hs (by omega) (by omega) heq
  calc d = (Finset.range d).card := (Finset.card_range d).symm
    _ = ((Finset.range d).image fun e => next^[e] s).card := (Finset.card_image_of_injOn hinj).symm
    _ ≤ ((Finset.range l.length).filter fun i => (l[i]?).any p = true).card := by
        refine Finset.card_le_card fun i hi => ?_
        obtain ⟨e, he, rfl⟩ := Finset.mem_image.mp hi
        exact Finset.mem_filter.mpr ⟨Finset.mem_range.mpr (h.iterate_lt hs e),
          hfull e (Finset.mem_range.mp he)⟩
    _ = l.countP p := (countP_eq_card l p).symm

end Count

end Probe
