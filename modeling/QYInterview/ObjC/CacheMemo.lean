import QYInterview.ObjC.MethodCache

/-!
# ObjC.CacheMemo — a method cache is a memo table

What the lookup in the assembly finds in the buckets, and what is left of the buckets when one no longer
looks at them: a `Memo`, the entries cached since the table was last replaced or erased.  A cache refines
its memo in every run (`halts_runCache`): the two give the same answers, and no insertion reports a
corrupted cache.
-/

namespace QYInterview.ObjC

open RunLogic Probe

namespace Cache

variable {ς ι : Type} (arch : Arch) (value : ς → ℕ) [DecidableEq ς]

/-! ## Reading -/

section Read

variable {arch value} {b : List (Bucket ς ι)} {c : Cache ς ι} {sel : ς} {imp : ι} {i : ℕ} {first : ℕ}

/-- What a scan of `sel` that probed `p` slots so far may end with. -/
def ScanOk (c : Cache ς ι) (sel : ς) (wrap : Prop) : Scan ι → Prop
  | .hit imp => c.find sel = some imp
  | .miss => c.find sel = none
  | .wrap => wrap

/-- The slots of the first `d` probes hold other selectors. -/
def Probed (next : ℕ → ℕ) (b : List (Bucket ς ι)) (sel : ς) (start d : ℕ) : Prop :=
  ∀ e < d, keyAt b (next^[e] start) ≠ some sel

omit [DecidableEq ς] in
theorem Probed.succ {next : ℕ → ℕ} {start d : ℕ} (h : Probed next b sel start d)
    (hd : keyAt b (next^[d] start) ≠ some sel) : Probed next b sel start (d + 1) := by
  intro e he
  rcases Nat.lt_succ_iff_lt_or_eq.mp he with he | rfl
  · exact h e he
  · exact hd

omit [DecidableEq ς] in
theorem Probed.mono {next : ℕ → ℕ} {start d d' : ℕ} (h : Probed next b sel start d) (hd : d' ≤ d) :
    Probed next b sel start d' := fun e he => h e (he.trans_le hd)

theorem find_eq_of_filled {occupied mask : ℕ} (hb : c.buckets = some b) (h : Table arch value mask occupied b)
    (hi : b[i]? = some (.filled sel imp)) : c.find sel = some imp := by
  rw [find, hb, Option.bind_some, h.findSome hi]

variable (hb : c.buckets = some b) (h : Table arch value c.mask c.occupied b)

include hb h

/-- A zeroed bucket ends the search of a selector that is not cached. -/
theorem find_eq_none_of_zero {d : ℕ}
    (hprobed : Probed (arch.cacheNext c.mask) b sel (cacheHash value sel c.mask) d)
    (hi : (arch.cacheNext c.mask)^[d] (cacheHash value sel c.mask) = i) (hzero : b[i]? = some .zero) :
    c.find sel = none := by
  have hfree : ¬ takenAt b i := by simp [takenAt, hzero, Bucket.taken]
  have hkey : keyAt b i ≠ some sel := by simp [keyAt, hzero, Bucket.sel]
  rw [find, hb, Option.bind_some]
  refine findSome_eq_none (h.length ▸ h.chained.absent (hi ▸ hfree) fun e he => ?_)
  exact hprobed.succ (hi ▸ hkey) e (Nat.lt_succ_of_le he)

/-- A selector that was probed for in every bucket is not cached. -/
theorem find_eq_none_of_probed
    (hprobed : Probed (arch.cacheNext c.mask) b sel (cacheHash value sel c.mask) (c.mask + 1)) :
    c.find sel = none := by
  rw [find, hb, Option.bind_some]
  refine findSome_eq_none fun j hj => ?_
  obtain ⟨d, hd, rfl⟩ := (round_cacheNext h.size).reach _ (cacheHash_lt value sel c.mask) j (h.length ▸ hj)
  exact hprobed d hd

end Read

section Read

variable {value} {b : List (Bucket ς ι)} {c : Cache ς ι} {sel : ς} {d₀ i₀ : ℕ} (hb : c.buckets = some b)

include hb

/-- A scan of x86_64 from `i₀`, the probe number `d₀`, goes through the buckets up to the last. -/
theorem halts_scanUp (h : Table .x86_64 value c.mask c.occupied b) (hle : i₀ ≤ c.mask)
    (hprobed : Probed (Arch.x86_64.cacheNext c.mask) b sel (cacheHash value sel c.mask) d₀)
    (hi₀ : (Arch.x86_64.cacheNext c.mask)^[d₀] (cacheHash value sel c.mask) = i₀) :
    Halts (loop (scanUp c sel) i₀) (ScanOk c sel
      (Probed (Arch.x86_64.cacheNext c.mask) b sel (cacheHash value sel c.mask)
        (d₀ + (c.mask - i₀) + 1))) := by
  refine halts_loop (fun i => i ≤ c.mask ∧
    ∃ d, (Arch.x86_64.cacheNext c.mask)^[d] (cacheHash value sel c.mask) = i ∧
    d + (c.mask - i) = d₀ + (c.mask - i₀) ∧
    Probed (Arch.x86_64.cacheNext c.mask) b sel (cacheHash value sel c.mask) d) (c.mask - ·) _ ?_ i₀
    ⟨hle, d₀, hi₀, rfl, hprobed⟩
  rintro i ⟨hi, d, hd, hsum, hprobed⟩
  have hlt : i < b.length := by rw [h.length]; omega
  rw [scanUp, bucketAt, hb]
  simp only [List.getElem?_eq_getElem hlt]
  have hbi := List.getElem?_eq_getElem hlt
  cases hbk : b[i] with
  | zero => exact halts_pure (find_eq_none_of_zero hb h hprobed hd (hbk ▸ hbi))
  | endMarker =>
    obtain ⟨-, rfl⟩ := (h.marker i).mp (hbk ▸ hbi)
    refine halts_pure ?_
    have hkey : keyAt b ((Arch.x86_64.cacheNext c.mask)^[d] (cacheHash value sel c.mask)) ≠ some sel := by
      simp [hd, keyAt, hbi, hbk, Bucket.sel]
    exact (hprobed.succ hkey).mono (by omega)
  | filled s imp =>
    by_cases hs : s = sel
    · subst hs
      simp only [if_true]
      exact halts_pure (find_eq_of_filled hb h (hbk ▸ hbi))
    · simp only [if_neg hs]
      have hne : i ≠ c.mask := by
        rintro rfl
        have := (h.marker c.mask).mpr ⟨rfl, rfl⟩
        rw [hbi, hbk] at this
        cases this
      have hkey : keyAt b ((Arch.x86_64.cacheNext c.mask)^[d] (cacheHash value sel c.mask)) ≠ some sel := by
        simp [hd, keyAt, hbi, hbk, Bucket.sel, hs]
      refine halts_pure ⟨⟨by omega, d + 1, ?_, by omega, hprobed.succ hkey⟩, by omega⟩
      obtain ⟨k, -, -, hk⟩ := h.size
      rw [Function.iterate_succ_apply', hd, Arch.cacheNext, show c.mask = 2 ^ k - 1 by omega,
        Nat.and_two_pow_sub_one_eq_mod]
      exact Nat.mod_eq_of_lt (by omega)

/-- A scan of arm64 from `i₀`, the probe number `d₀`, goes through the buckets down to `lo`. -/
theorem halts_scanDown (h : Table .arm64 value c.mask c.occupied b) (hle : i₀ ≤ c.mask)
    {last : Option ℕ} (lo : ℕ) (hlo : ∀ i, ¬ (i ≠ 0 ∧ ∀ first ∈ last, first < i - 1) → i ≤ lo)
    (hprobed : Probed (Arch.arm64.cacheNext c.mask) b sel (cacheHash value sel c.mask) d₀)
    (hi₀ : (Arch.arm64.cacheNext c.mask)^[d₀] (cacheHash value sel c.mask) = i₀) :
    Halts (loop (scanDown c sel last) i₀) (ScanOk c sel
      (Probed (Arch.arm64.cacheNext c.mask) b sel (cacheHash value sel c.mask) (d₀ + (i₀ - lo) + 1))) := by
  refine halts_loop (fun i => i ≤ i₀ ∧
    ∃ d, (Arch.arm64.cacheNext c.mask)^[d] (cacheHash value sel c.mask) = i ∧
    d + i = d₀ + i₀ ∧
    Probed (Arch.arm64.cacheNext c.mask) b sel (cacheHash value sel c.mask) d) id _ ?_ i₀
    ⟨le_rfl, d₀, hi₀, rfl, hprobed⟩
  rintro i ⟨hi, d, hd, hsum, hprobed⟩
  have hlt : i < b.length := by rw [h.length]; omega
  have hbi := List.getElem?_eq_getElem hlt
  have hmore : keyAt b i ≠ some sel →
      Halts (if i ≠ 0 ∧ ∀ first ∈ last, first < i - 1 then pure (.next (i - 1)) else pure (.exit .wrap))
        (Turn.Good (fun i' => (i' ≤ i₀ ∧
            ∃ d, (Arch.arm64.cacheNext c.mask)^[d] (cacheHash value sel c.mask) = i' ∧
              d + i' = d₀ + i₀ ∧
              Probed (Arch.arm64.cacheNext c.mask) b sel (cacheHash value sel c.mask) d) ∧ id i' < id i)
          (ScanOk c sel (Probed (Arch.arm64.cacheNext c.mask) b sel (cacheHash value sel c.mask)
            (d₀ + (i₀ - lo) + 1)))) := by
    intro hkey
    have hprobed' := hprobed.succ (hd.symm ▸ hkey)
    split_ifs with hcond
    · refine halts_pure ⟨⟨by omega, d + 1, ?_, by omega, hprobed'⟩, by simp only [id]; omega⟩
      rw [Function.iterate_succ_apply', hd, Arch.cacheNext, if_pos hcond.1]
    · have := hlo i hcond
      exact halts_pure (hprobed'.mono (by omega))
  rw [scanDown, bucketAt, hb]
  simp only [hbi]
  cases hbk : b[i] with
  | zero => exact halts_pure (find_eq_none_of_zero hb h hprobed hd (hbk ▸ hbi))
  | endMarker => exact hmore (by simp [keyAt, hbi, hbk, Bucket.sel])
  | filled s imp =>
    by_cases hs : s = sel
    · subst hs
      simp only [Bucket.impFor, if_true]
      exact halts_pure (find_eq_of_filled hb h (hbk ▸ hbi))
    · simp only [Bucket.impFor, if_neg hs]
      exact hmore (by simp [keyAt, hbi, hbk, Bucket.sel, hs])

end Read

section GetImp

variable {arch value} {c : Cache ς ι} {sel : ς}

/-- The lookup in the assembly returns what is cached, whether or not the scan wraps,
also for a full table. -/
theorem returns_cacheGetImp (h : Wf arch value c) : Returns (cacheGetImp arch value c sel) (c.find sel) := by
  suffices Halts (cacheGetImp arch value c sel) (· = c.find sel) by
    obtain ⟨r, hr, rfl⟩ := this
    exact hr
  refine halts_bind (Halts.mono (Q := fun scan =>
    Halts (scanAgain arch c sel (cacheHash value sel c.mask) scan)
      (ScanOk c sel (c.find sel = none))) ?_ fun _ hscan => halts_bind (hscan.mono fun scan hscan => ?_))
  swap
  · cases scan with
    | hit imp => exact halts_pure hscan.symm
    | miss => exact halts_pure hscan.symm
    | wrap => exact halts_pure hscan.symm
  cases hb : c.buckets with
  | none =>
    have hnone : ScanOk c sel (c.find sel = none) .miss := by
      show c.find sel = none
      rw [find, hb, Option.bind_none]
    cases arch with
    | x86_64 =>
      have hmiss : Returns (loop (scanUp c sel) (cacheHash value sel c.mask)) .miss :=
        (loopReturns_exit (by rw [scanUp, bucketAt, hb]; exact returns_pure _)).returns
      exact hmiss.halts (halts_pure hnone)
    | arm64 =>
      have hmiss : Returns (loop (scanDown c sel none) (cacheHash value sel c.mask)) .miss :=
        (loopReturns_exit (by rw [scanDown, bucketAt, hb]; exact returns_pure _)).returns
      exact hmiss.halts (halts_pure hnone)
  | some b =>
    have htable := (h.table b hb).2
    have hhash := Nat.le_of_lt_succ (cacheHash_lt value sel c.mask)
    have hstart : Probed (arch.cacheNext c.mask) b sel (cacheHash value sel c.mask) 0 :=
      fun e he => absurd he (Nat.not_lt_zero e)
    have hall : ∀ d, c.mask + 1 ≤ d → ∀ scan,
        ScanOk c sel (Probed (arch.cacheNext c.mask) b sel (cacheHash value sel c.mask) d) scan →
        ScanOk c sel (c.find sel = none) scan := by
      intro d hd scan hscan
      cases scan with
      | hit imp => exact hscan
      | miss => exact hscan
      | wrap => exact find_eq_none_of_probed hb htable (hscan.mono hd)
    cases arch with
    | x86_64 =>
      refine (halts_scanUp hb htable hhash hstart rfl).mono fun scan hscan => ?_
      cases scan with
      | hit imp => exact halts_pure hscan
      | miss => exact halts_pure hscan
      | wrap =>
        obtain ⟨k, -, -, hk⟩ := htable.size
        have hzero := iterate_up k (0 + (c.mask - cacheHash value sel c.mask) + 1)
          (show cacheHash value sel c.mask < 2 ^ k by omega)
        rw [show 2 ^ k - 1 = c.mask by omega, show cacheHash value sel c.mask +
          (0 + (c.mask - cacheHash value sel c.mask) + 1) = 2 ^ k by omega, Nat.mod_self] at hzero
        exact (halts_scanUp hb htable (Nat.zero_le _) hscan hzero).mono (hall _ (by omega))
    | arm64 =>
      refine (halts_scanDown hb htable hhash 0 ?_ hstart rfl).mono fun scan hscan => ?_
      · intro i hi
        by_contra hne
        exact hi ⟨by omega, by simp⟩
      cases scan with
      | hit imp => exact halts_pure hscan
      | miss => exact halts_pure hscan
      | wrap =>
        have hmask : (Arch.arm64.cacheNext c.mask)^[0 + (cacheHash value sel c.mask - 0) + 1]
            (cacheHash value sel c.mask) = c.mask := by
          rw [Nat.zero_add, Nat.sub_zero]
          exact iterate_down_wrap c.mask 0 (Nat.zero_le _)
        refine (halts_scanDown hb htable le_rfl (cacheHash value sel c.mask + 1) ?_ hscan hmask).mono
          (hall _ (by omega))
        intro i hi
        by_contra hne
        refine hi ⟨by omega, ?_⟩
        rintro _ ⟨rfl⟩
        omega

end GetImp

end Cache

/-! ## The cache as a memo table -/

/-- What a cache holds: the entries since it was last replaced or erased, the last one first. -/
structure Memo (ς ι : Type) where
  capacity : ℕ
  entries : List (ς × ι)
  deriving DecidableEq, Repr

namespace Memo

open Cache

variable {ς ι : Type} (arch : Arch) (m : Memo ς ι)

/-- A memo that has room for one more entry: the same, or a larger one that has forgotten the entries. -/
def makeRoom : Memo ς ι :=
  if m.capacity = 0 then ⟨arch.initCacheSize, []⟩
  else if hasRoom arch (m.entries.length + 1) m.capacity then m
  else ⟨grownCapacity arch m.capacity, []⟩

variable [DecidableEq ς]

/-- The first entry of a selector stays. -/
def remember (sel : ς) (imp : ι) : Memo ς ι :=
  match m.entries.lookup sel with
  | some _ => m
  | none => { m with entries := (sel, imp) :: m.entries }

def insert (isInitialized : Bool) (sel : ς) (imp : ι) : Memo ς ι :=
  if isInitialized = false then m else (m.makeRoom arch).remember sel imp

omit [DecidableEq ς] in
def erase : Memo ς ι := { m with entries := [] }

end Memo

namespace Cache

variable {ς ι : Type} {arch : Arch} {value : ς → ℕ} [DecidableEq ς] {c : Cache ς ι} {m : Memo ς ι}
    {sel : ς} {imp : ι}

/-- A well-formed cache with the capacity and the entries of the memo. -/
structure Refines (arch : Arch) (value : ς → ℕ) (c : Cache ς ι) (m : Memo ς ι) : Prop where
  wf : Wf arch value c
  capacity : c.capacity = m.capacity
  occupied : c.occupied = m.entries.length
  find : ∀ sel, c.find sel = m.entries.lookup sel

omit [DecidableEq ς] in
theorem wf_initializeToEmpty : Wf arch value (initializeToEmpty : Cache ς ι) :=
  ⟨fun _ => ⟨rfl, Or.inl rfl⟩, fun _ h => (nomatch h)⟩

theorem refines_initializeToEmpty : Refines arch value (initializeToEmpty : Cache ς ι) ⟨0, []⟩ :=
  ⟨wf_initializeToEmpty, rfl, rfl, fun _ => rfl⟩

section Size

variable {cap k mask : ℕ}

theorem hasRoom_one (h : ∃ k, arch.initCacheSizeLog2 ≤ k ∧ k ≤ 16 ∧ cap = 2 ^ k) : hasRoom arch 1 cap := by
  obtain ⟨k, hlo, -, rfl⟩ := h
  have hpow := Nat.pow_le_pow_right (n := 2) (by omega) hlo
  left
  cases arch with
  | x86_64 =>
    simp only [Arch.initCacheSizeLog2, Arch.cacheEndMarker, Arch.cacheFillRatio] at *
    omega
  | arm64 =>
    simp only [Arch.initCacheSizeLog2, Arch.cacheEndMarker, Arch.cacheFillRatio] at *
    omega

omit [DecidableEq ς] in
theorem capacity_of_size (h : ∃ k, arch.initCacheSizeLog2 ≤ k ∧ k ≤ 16 ∧ c.mask + 1 = 2 ^ k) :
    c.capacity = c.mask + 1 := by
  obtain ⟨k, hlo, -, hk⟩ := h
  have hpow := Nat.pow_le_pow_right (n := 2) (by omega) hlo
  have hmask : c.mask ≠ 0 := by
    rintro h
    cases arch <;> simp only [Arch.initCacheSizeLog2] at hpow <;> omega
  rw [capacity, if_pos hmask]

theorem initCacheSize_size : ∃ k, arch.initCacheSizeLog2 ≤ k ∧ k ≤ 16 ∧ arch.initCacheSize = 2 ^ k :=
  ⟨_, le_rfl, by cases arch <;> decide, rfl⟩

/-- The capacity doubles, and stays when it is the maximum. -/
theorem grownCapacity_size (h : ∃ k, arch.initCacheSizeLog2 ≤ k ∧ k ≤ 16 ∧ cap = 2 ^ k) :
    ∃ k, arch.initCacheSizeLog2 ≤ k ∧ k ≤ 16 ∧ grownCapacity arch cap = 2 ^ k ∧ cap ≤ 2 ^ k := by
  obtain ⟨k, hlo, hhi, rfl⟩ := h
  have hne : 2 ^ k ≠ 0 := by positivity
  simp only [grownCapacity, if_pos hne, maxCacheSize]
  split_ifs with hmax
  · exact ⟨16, by omega, le_rfl, rfl, Nat.pow_le_pow_right (by omega) hhi⟩
  · rw [← pow_succ] at hmax ⊢
    refine ⟨k + 1, by omega, ?_, rfl, Nat.pow_le_pow_right (by omega) (by omega)⟩
    exact (Nat.pow_le_pow_iff_right (by omega)).mp (not_lt.mp hmax)

end Size

omit [DecidableEq ς] in
theorem Wf.size (h : Wf arch value c) :
    c.mask = 0 ∨ ∃ k, arch.initCacheSizeLog2 ≤ k ∧ k ≤ 16 ∧ c.mask + 1 = 2 ^ k := by
  cases hb : c.buckets with
  | none => exact (h.empty hb).2
  | some b => exact Or.inr (h.table b hb).2.size

/-- Room for one more entry in a cache and in its memo. -/
structure Ready (arch : Arch) (value : ς → ℕ) (c : Cache ς ι) (capacity : ℕ) (m : Memo ς ι) : Prop where
  table : ∃ b, c.buckets = some b ∧ Table arch value c.mask c.occupied b
  room : hasRoom arch (c.occupied + 1) (c.mask + 1)
  mask : capacity = c.mask + 1
  capacity : capacity = m.capacity
  occupied : c.occupied = m.entries.length
  find : ∀ sel, c.find sel = m.entries.lookup sel

theorem ready_reallocate {cap : ℕ} (h : ∃ k, arch.initCacheSizeLog2 ≤ k ∧ k ≤ 16 ∧ cap = 2 ^ k) :
    Ready arch value (reallocate arch cap : Cache ς ι) cap ⟨cap, []⟩ := by
  have hpos : cap = cap - 1 + 1 := by
    obtain ⟨k, -, -, rfl⟩ := h
    have : 0 < 2 ^ k := by positivity
    omega
  refine ⟨⟨_, rfl, ?_⟩, ?_, hpos, rfl, rfl, fun sel => ?_⟩
  · rw [hpos] at h
    have htable : Table arch value (cap - 1) 0 (allocateBuckets arch (cap - 1 + 1) : List (Bucket ς ι)) :=
      table_allocateBuckets h
    rw [← hpos] at htable
    exact htable
  · show hasRoom arch 1 (cap - 1 + 1)
    rw [← hpos]
    exact hasRoom_one h
  · rw [find, reallocate, Option.bind_some, findSome_eq_none fun j _ => by simp [keyAt_allocateBuckets]]
    rfl

theorem Refines.makeRoom (h : Refines arch value c m) :
    Ready arch value (makeRoom arch c).1 (makeRoom arch c).2 (m.makeRoom arch) := by
  cases hb : c.buckets with
  | none =>
    obtain ⟨hocc, hsize⟩ := h.wf.empty hb
    have hempty : c.isConstantEmptyCache = true := by simp [isConstantEmptyCache, hocc, hb]
    have hentries : m.entries = [] := List.eq_nil_of_length_eq_zero (h.occupied ▸ hocc)
    simp only [Cache.makeRoom, if_pos hempty, Memo.makeRoom, ← h.capacity, hentries, List.length_nil]
    rcases hsize with hmask | hsize
    · have hcap : c.capacity = 0 := by simp [Cache.capacity, hmask]
      rw [if_pos hcap, if_pos hcap]
      exact ready_reallocate initCacheSize_size
    · have hcap := capacity_of_size hsize
      rw [← hcap] at hsize
      rw [if_neg (by omega), if_neg (by omega), if_pos (hasRoom_one hsize)]
      have hm : m = ⟨c.capacity, []⟩ := by rw [h.capacity, ← hentries]
      rw [hm]
      exact ready_reallocate hsize
  | some b =>
    obtain ⟨hpos, htable⟩ := h.wf.table b hb
    have hempty : ¬ c.isConstantEmptyCache = true := by simp [isConstantEmptyCache, hb]
    have hcap := capacity_of_size htable.size
    simp only [Cache.makeRoom, if_neg hempty, Memo.makeRoom, ← h.capacity, ← h.occupied]
    rw [if_neg (show c.capacity ≠ 0 by omega)]
    split_ifs with hroom
    · exact ⟨⟨b, hb, htable⟩, hcap ▸ hroom, hcap, h.capacity, h.occupied, h.find⟩
    · obtain ⟨k, hlo, hhi, heq, -⟩ := grownCapacity_size (hcap ▸ htable.size)
      exact ready_reallocate ⟨k, hlo, hhi, heq⟩

/-! ## Runs -/

theorem halts_insert (isInitialized : Bool) (h : Refines arch value c m) :
    Halts (insert arch value isInitialized c sel imp)
      (Refines arch value · (m.insert arch isInitialized sel imp)) := by
  rw [insert, Memo.insert]
  cases isInitialized with
  | false => exact halts_pure h
  | true =>
    have hready := h.makeRoom
    obtain ⟨⟨b, hb, htable⟩, hroom, hmask, hcap, hocc, hfind⟩ := hready
    simp only [Bool.true_eq_false, if_false]
    rw [hmask, Nat.add_sub_cancel]
    refine (halts_insertLoop hb htable hroom).mono fun c' hc' => ?_
    have hcapacity := capacity_of_size htable.size
    rw [Memo.remember, ← hfind]
    rcases hc' with ⟨⟨imp', hfound⟩, rfl⟩ | ⟨hnone, hmask', hocc', ⟨b', hb', htable'⟩, hself, hother⟩
    · rw [hfound]
      refine ⟨⟨fun h => by simp [hb] at h, fun b' hb' => ?_⟩, hcapacity.trans (hmask.symm.trans hcap),
        hocc, hfind⟩
      obtain rfl := Option.some.inj (hb.symm.trans hb')
      refine ⟨Nat.pos_of_ne_zero fun hzero => ?_, htable⟩
      rw [hfind, List.eq_nil_of_length_eq_zero (hocc.symm.trans hzero)] at hfound
      cases hfound
    · rw [hnone]
      refine ⟨⟨fun h => by simp [hb'] at h, fun b'' hb'' => ?_⟩, ?_, ?_, fun s => ?_⟩
      · obtain rfl := Option.some.inj (hb'.symm.trans hb'')
        exact ⟨by omega, htable'⟩
      · rw [capacity_of_size htable'.size, hmask', ← hmask, hcap]
      · rw [hocc', hocc]
        rfl
      · rw [List.lookup_cons]
        by_cases hs : s = sel
        · simp [hs, hself]
        · rw [hother s hs, hfind, beq_false_of_ne hs]

theorem Refines.erase (h : Refines arch value c m) : Refines arch value c.eraseNolock m.erase := by
  rw [eraseNolock, Memo.erase]
  split_ifs with hpos
  · refine ⟨⟨fun _ => ⟨rfl, ?_⟩, fun _ hb => (nomatch hb)⟩, ?_, rfl, fun _ => rfl⟩
    · rcases h.wf.size with hmask | hsize
      · simp [Cache.capacity, hmask]
      · rw [capacity_of_size hsize, Nat.add_sub_cancel]
        exact Or.inr hsize
    · show Cache.capacity ⟨none, c.capacity - 1, 0⟩ = m.capacity
      rw [← h.capacity, Cache.capacity]
      simp only [Cache.capacity]
      split_ifs <;> omega
  · have hentries : m.entries = [] := List.eq_nil_of_length_eq_zero (by rw [← h.occupied]; omega)
    rw [← hentries]
    exact h

/-- The cache is that of some history. -/
def IsMemo (arch : Arch) (value : ς → ℕ) (c : Cache ς ι) : Prop := ∃ m, Refines arch value c m

theorem isMemo_initializeToEmpty : IsMemo arch value (initializeToEmpty : Cache ς ι) :=
  ⟨_, refines_initializeToEmpty⟩

theorem IsMemo.returns_cacheGetImp (h : IsMemo arch value c) :
    Returns (cacheGetImp arch value c sel) (c.find sel) := by
  obtain ⟨m, h⟩ := h
  exact Cache.returns_cacheGetImp h.wf

theorem IsMemo.erase (h : IsMemo arch value c) : IsMemo arch value c.eraseNolock := by
  obtain ⟨m, h⟩ := h
  exact ⟨_, h.erase⟩

theorem IsMemo.find_erase (h : IsMemo arch value c) : c.eraseNolock.find sel = none := by
  obtain ⟨m, h⟩ := h
  rw [h.erase.find]
  rfl

theorem lookup_insert {isInitialized : Bool} {s : ς} {imp' : ι}
    (h : (m.insert arch isInitialized sel imp).entries.lookup s = some imp') :
    m.entries.lookup s = some imp' ∨ s = sel ∧ imp' = imp := by
  have hroom : (m.makeRoom arch).entries.lookup s = some imp' → m.entries.lookup s = some imp' := by
    rw [Memo.makeRoom]
    split_ifs
    · exact fun h => (nomatch h)
    · exact id
    · exact fun h => (nomatch h)
  rw [Memo.insert] at h
  split_ifs at h
  · exact Or.inl h
  · rw [Memo.remember] at h
    split at h
    · exact Or.inl (hroom h)
    · rw [List.lookup_cons] at h
      by_cases hs : s = sel
      · subst hs
        rw [beq_self_eq_true] at h
        exact Or.inr ⟨rfl, (Option.some.inj h).symm⟩
      · rw [beq_false_of_ne hs] at h
        exact Or.inl (hroom h)

theorem exists_lookup_insert (m : Memo ς ι) (arch : Arch) (sel : ς) (imp : ι) :
    ∃ imp', (m.insert arch true sel imp).entries.lookup sel = some imp' := by
  rw [Memo.insert, if_neg (by decide), Memo.remember]
  split
  · exact ⟨_, ‹_›⟩
  · exact ⟨imp, by rw [List.lookup_cons, beq_self_eq_true]⟩

/-- An insertion caches nothing but its own entry; if the class is initialized its selector is then cached. -/
theorem IsMemo.halts_insert (isInitialized : Bool) (sel : ς) (imp : ι) (h : IsMemo arch value c) :
    Halts (insert arch value isInitialized c sel imp) fun c' => IsMemo arch value c' ∧
      (∀ s imp', c'.find s = some imp' → c.find s = some imp' ∨ s = sel ∧ imp' = imp) ∧
      (isInitialized = true → ∃ imp', c'.find sel = some imp') := by
  obtain ⟨m, h⟩ := h
  refine (Cache.halts_insert isInitialized h).mono fun c' hc' => ⟨⟨_, hc'⟩, fun s imp' hfind => ?_, ?_⟩
  · rw [hc'.find] at hfind
    rw [h.find]
    exact lookup_insert hfind
  · rintro rfl
    rw [hc'.find]
    exact exists_lookup_insert m arch sel imp

/-- The operations on a cache under the runtime lock, and the lookup in the assembly. -/
inductive CacheOp (ς ι : Type)
  | insert (isInitialized : Bool) (sel : ς) (imp : ι)
  | eraseNolock
  | cacheGetImp (sel : ς)
  deriving DecidableEq, Repr

/-- An operation, and the answer where it gives one. -/
def stepCache (arch : Arch) (value : ς → ℕ) (c : Cache ς ι) : CacheOp ς ι → Prog (Cache ς ι × List (Option ι))
  | .insert isInitialized sel imp => do
    let c ← insert arch value isInitialized c sel imp
    pure (c, [])
  | .eraseNolock => pure (c.eraseNolock, [])
  | .cacheGetImp sel => do
    let imp ← cacheGetImp arch value c sel
    pure (c, [imp])

/-- The operations one after another, with the answers in order. -/
def runCache (arch : Arch) (value : ς → ℕ) (ops : List (CacheOp ς ι)) (c : Cache ς ι) :
    Prog (Cache ς ι × List (Option ι)) :=
  forEach ops (fun s op => do
    let (c, answers) ← stepCache arch value s.1 op
    pure (c, s.2 ++ answers)) (c, [])

end Cache

namespace Memo

open Cache

variable {ς ι : Type} (arch : Arch) [DecidableEq ς]

def step (m : Memo ς ι) : CacheOp ς ι → Memo ς ι × List (Option ι)
  | .insert isInitialized sel imp => (m.insert arch isInitialized sel imp, [])
  | .eraseNolock => (m.erase, [])
  | .cacheGetImp sel => (m, [m.entries.lookup sel])

def run (ops : List (CacheOp ς ι)) (m : Memo ς ι) : Memo ς ι × List (Option ι) :=
  ops.foldl (fun s op => ((s.1.step arch op).1, s.2 ++ (s.1.step arch op).2)) (m, [])

end Memo

namespace Cache

variable {ς ι : Type} {arch : Arch} {value : ς → ℕ} [DecidableEq ς] {c : Cache ς ι} {m : Memo ς ι}

theorem halts_stepCache (h : Refines arch value c m) (op : CacheOp ς ι) :
    Halts (stepCache arch value c op) fun r => Refines arch value r.1 (m.step arch op).1 ∧
      r.2 = (m.step arch op).2 := by
  cases op with
  | insert isInitialized sel imp =>
    exact halts_bind ((halts_insert isInitialized h).mono fun c' hc' => halts_pure ⟨hc', rfl⟩)
  | eraseNolock => exact halts_pure ⟨h.erase, rfl⟩
  | cacheGetImp sel =>
    refine halts_bind ((returns_cacheGetImp h.wf).halts (halts_pure ⟨h, ?_⟩))
    rw [h.find sel]
    rfl

theorem Refines.run (h : Refines arch value c m) (ops : List (CacheOp ς ι)) :
    Halts (runCache arch value ops c) fun r =>
      Refines arch value r.1 (m.run arch ops).1 ∧ r.2 = (m.run arch ops).2 := by
  refine halts_forEach
    (fun done (s : Cache ς ι × List (Option ι)) => Refines arch value s.1 (m.run arch done).1 ∧
      s.2 = (m.run arch done).2)
    ?_ ⟨h, rfl⟩
  rintro done op _ s - ⟨hrefines, hanswers⟩
  refine halts_bind ((halts_stepCache hrefines op).mono ?_)
  rintro r ⟨hr, hr'⟩
  rw [Memo.run, List.foldl_append]
  refine halts_pure ⟨hr, ?_⟩
  show s.2 ++ r.2 = _
  rw [hanswers, hr']
  rfl

/-- **Memo table.**  In every run, from an empty cache, no insertion finds the buckets full or reports
corruption, and every lookup answers what the memo does. -/
theorem halts_runCache (ops : List (CacheOp ς ι)) :
    Halts (runCache arch value ops initializeToEmpty) fun r =>
      Refines arch value r.1 (Memo.run arch ops ⟨0, []⟩).1 ∧ r.2 = (Memo.run arch ops ⟨0, []⟩).2 :=
  refines_initializeToEmpty.run ops

/-! ## Capacities -/

theorem Refines.sized (h : Refines arch value c m) :
    m.capacity = 0 ∨ ∃ k, arch.initCacheSizeLog2 ≤ k ∧ k ≤ 16 ∧ m.capacity = 2 ^ k := by
  rw [← h.capacity]
  rcases h.wf.size with hmask | hsize
  · exact Or.inl (by simp [Cache.capacity, hmask])
  · rw [capacity_of_size hsize]
    exact Or.inr hsize

theorem Refines.capacity_le_step (h : Refines arch value c m) (op : CacheOp ς ι) :
    m.capacity ≤ (m.step arch op).1.capacity := by
  cases op with
  | insert isInitialized sel imp =>
    show _ ≤ (m.insert arch isInitialized sel imp).capacity
    have hremember : ((m.makeRoom arch).remember sel imp).capacity = (m.makeRoom arch).capacity := by
      rw [Memo.remember]
      split <;> rfl
    rw [Memo.insert]
    split_ifs
    · exact le_rfl
    · rw [hremember, Memo.makeRoom]
      split_ifs with hzero hroom
      · omega
      · exact le_rfl
      · obtain ⟨k, -, -, heq, hle⟩ := grownCapacity_size (h.sized.resolve_left hzero)
        show m.capacity ≤ grownCapacity arch m.capacity
        rw [heq]
        exact hle
  | eraseNolock => exact le_rfl
  | cacheGetImp sel => exact le_rfl

/-- **Capacities.**  A capacity is 0 or a power of two up to the maximum, and no later operation shrinks it:
not an erasure, nor an insertion that forgets the entries. -/
theorem capacity_runCache (front back : List (CacheOp ς ι)) :
    Halts (runCache arch value front initializeToEmpty) fun r =>
      Halts (runCache arch value back r.1) fun r' =>
      r.1.capacity ≤ r'.1.capacity ∧
        (r'.1.capacity = 0 ∨
          ∃ k, arch.initCacheSizeLog2 ≤ k ∧ 2 ^ k ≤ maxCacheSize ∧ r'.1.capacity = 2 ^ k) := by
  refine (halts_runCache front).mono ?_
  rintro r ⟨hr, -⟩
  refine (halts_forEach
    (fun _ (s : Cache ς ι × List (Option ι)) => r.1.capacity ≤ s.1.capacity ∧ ∃ m, Refines arch value s.1 m)
    ?_ (s := (r.1, [])) ⟨le_rfl, _, hr⟩).mono ?_
  · rintro done op _ s - ⟨hle, m, hrefines⟩
    refine halts_bind ((halts_stepCache hrefines op).mono ?_)
    rintro r' ⟨hr', -⟩
    refine halts_pure ⟨hle.trans ?_, _, hr'⟩
    rw [hrefines.capacity, hr'.capacity]
    exact hrefines.capacity_le_step op
  · rintro r' ⟨hle, m, hrefines⟩
    refine ⟨hle, ?_⟩
    rw [hrefines.capacity]
    rcases hrefines.sized with hzero | ⟨k, hlo, hhi, heq⟩
    · exact Or.inl hzero
    · exact Or.inr ⟨k, hlo, Nat.pow_le_pow_right (by omega) hhi, heq⟩

end Cache

end QYInterview.ObjC
