import QYInterview.Lib.RunLogic
import QYInterview.Lib.Probe

/-!
# ObjC.MethodCache — the method cache of a class

`cache_t` of `objc-cache.mm`, with the scan that `cache_getImp` does in the messengers' assembly.  The buckets
are an open-addressed table from selectors to implementations, of a capacity that is a power of two.  They are
probed upwards on x86_64, where the last bucket is an end marker, and downwards on arm64, where a small table
may be filled altogether.  A table that would get too full is replaced by a new one, of twice the capacity
until the maximum is reached, and what it held is forgotten.  An insertion never comes round to where it began
(`halts_insertLoop`).
-/

namespace QYInterview.ObjC

open RunLogic Probe

/-- The architectures, by the macros of `objc-cache.mm`: `__x86_64__`, and `__arm64__ && __LP64__`. -/
inductive Arch
  | x86_64
  | arm64
  deriving DecidableEq, Repr

namespace Arch

/-- `CACHE_END_MARKER` -/
def cacheEndMarker : Arch → ℕ
  | x86_64 => 1
  | arm64 => 0

/-- `cache_fill_ratio` -/
def cacheFillRatio (arch : Arch) (capacity : ℕ) : ℕ :=
  match arch with
  | x86_64 => capacity * 3 / 4
  | arm64 => capacity * 7 / 8

/-- `CACHE_ALLOW_FULL_UTILIZATION` -/
def cacheAllowFullUtilization : Arch → Bool
  | x86_64 => false
  | arm64 => true

/-- `INIT_CACHE_SIZE_LOG2` -/
def initCacheSizeLog2 : Arch → ℕ
  | x86_64 => 2
  | arm64 => 1

/-- `INIT_CACHE_SIZE` -/
def initCacheSize (arch : Arch) : ℕ := 2 ^ arch.initCacheSizeLog2

/-- `cache_next` -/
def cacheNext (arch : Arch) (mask i : ℕ) : ℕ :=
  match arch with
  | x86_64 => (i + 1) &&& mask
  | arm64 => if i ≠ 0 then i - 1 else mask

end Arch

/-- `MAX_CACHE_SIZE` -/
def maxCacheSize : ℕ := 2 ^ 16

/-- `FULL_UTILIZATION_CACHE_SIZE` -/
def fullUtilizationCacheSize : ℕ := 2 ^ 3

/-- `bucket_t`: zeroed, with selector 1 in the last bucket of x86_64, or filled. -/
inductive Bucket (ς ι : Type)
  | zero
  | endMarker
  | filled (sel : ς) (imp : ι)
  deriving DecidableEq, Repr

/-- The selector of a filled bucket. -/
def Bucket.sel {ς ι : Type} : Bucket ς ι → Option ς
  | filled sel _ => some sel
  | _ => none

/-- The implementation of a bucket filled for `sel`. -/
def Bucket.impFor {ς ι : Type} [DecidableEq ς] (sel : ς) : Bucket ς ι → Option ι
  | filled s imp => if s = sel then some imp else none
  | _ => none

theorem Bucket.impFor_eq_some {ς ι : Type} [DecidableEq ς] {sel : ς} {imp : ι} {bk : Bucket ς ι} :
    bk.impFor sel = some imp ↔ bk = .filled sel imp := by
  cases bk with
  | zero => simp [Bucket.impFor]
  | endMarker => simp [Bucket.impFor]
  | filled s imp' =>
    by_cases h : s = sel
    · simp [Bucket.impFor, h]
    · simp [Bucket.impFor, h]

/-- The bucket's `sel()` is not 0. -/
def Bucket.taken {ς ι : Type} : Bucket ς ι → Bool
  | zero => false
  | _ => true

/-- `cache_t`.  The buckets are `none` for the shared read-only empty buckets. -/
structure Cache (ς ι : Type) where
  buckets : Option (List (Bucket ς ι))
  mask : ℕ
  occupied : ℕ
  deriving DecidableEq, Repr

namespace Cache

variable {ς ι : Type} (arch : Arch) (value : ς → ℕ)

/-! ## The code -/

/-- `initializeToEmpty` -/
def initializeToEmpty : Cache ς ι := ⟨none, 0, 0⟩

/-- `capacity` -/
def capacity (c : Cache ς ι) : ℕ := if c.mask ≠ 0 then c.mask + 1 else 0

/-- `isConstantEmptyCache` -/
def isConstantEmptyCache (c : Cache ς ι) : Bool := c.occupied == 0 && c.buckets.isNone

/-- `cache_hash`: `value` is the selector's address, folded where preoptimized caches are used. -/
def cacheHash (sel : ς) (mask : ℕ) : ℕ := value sel &&& mask

/-- `allocateBuckets` -/
def allocateBuckets (newCapacity : ℕ) : List (Bucket ς ι) :=
  match arch with
  | .x86_64 => (List.replicate newCapacity .zero).set (newCapacity - 1) .endMarker
  | .arm64 => List.replicate newCapacity .zero

/-- `reallocate`: the old contents are not propagated. -/
def reallocate (newCapacity : ℕ) : Cache ς ι := ⟨some (allocateBuckets arch newCapacity), newCapacity - 1, 0⟩

/-- The bucket at an index; the shared empty buckets are zeroed memory. -/
def bucketAt (c : Cache ς ι) (i : ℕ) : Option (Bucket ς ι) :=
  match c.buckets with
  | none => some .zero
  | some b => b[i]?

/-- The fill ratio, or full utilization of a small table. -/
def hasRoom (newOccupied capacity : ℕ) : Prop :=
  newOccupied + arch.cacheEndMarker ≤ arch.cacheFillRatio capacity ∨
    arch.cacheAllowFullUtilization = true ∧ capacity ≤ fullUtilizationCacheSize ∧
      newOccupied + arch.cacheEndMarker ≤ capacity

instance (newOccupied capacity : ℕ) : Decidable (hasRoom arch newOccupied capacity) := by
  unfold hasRoom
  infer_instance

/-- The capacity of the table that replaces one without room. -/
def grownCapacity (capacity : ℕ) : ℕ :=
  let capacity := if capacity ≠ 0 then capacity * 2 else arch.initCacheSize
  if capacity > maxCacheSize then maxCacheSize else capacity

/-- The first part of `insert`: the cache that one more entry goes to, with its capacity. -/
def makeRoom (c : Cache ς ι) : Cache ς ι × ℕ :=
  let newOccupied := c.occupied + 1
  if c.isConstantEmptyCache then
    let capacity := if c.capacity = 0 then arch.initCacheSize else c.capacity
    (reallocate arch capacity, capacity)
  else if hasRoom arch newOccupied c.capacity then (c, c.capacity)
  else (reallocate arch (grownCapacity arch c.capacity), grownCapacity arch c.capacity)

variable [DecidableEq ς]

/-- One turn of the scan of `insert`; the call of `bad_cache` is a trap. -/
def insertTurn (c : Cache ς ι) (m begin : ℕ) (sel : ς) (imp : ι) (i : ℕ) : Prog (Turn ℕ (Cache ς ι)) :=
  match c.buckets.bind (·[i]?) with
  | none => trap
  | some .zero =>
    pure (.exit { c with
      buckets := c.buckets.map (·.set i (.filled sel imp))
      occupied := c.occupied + 1 })
  | some b =>
    if b.sel = some sel then pure (.exit c)
    else if arch.cacheNext m i ≠ begin then pure (.next (arch.cacheNext m i))
    else trap

/-- `insert` -/
def insert (isInitialized : Bool) (c : Cache ς ι) (sel : ς) (imp : ι) : Prog (Cache ς ι) :=
  if isInitialized = false then pure c
  else
    let (c, capacity) := makeRoom arch c
    let m := capacity - 1
    let begin := cacheHash value sel m
    loop (insertTurn arch c m begin sel imp) begin

omit [DecidableEq ς] in
/-- `eraseNolock` -/
def eraseNolock (c : Cache ς ι) : Cache ς ι := if 0 < c.occupied then ⟨none, c.capacity - 1, 0⟩ else c

/-- How a scan of `CacheLookup` ends: `CacheHit`, the miss label, or at the end of the buckets. -/
inductive Scan (ι : Type)
  | hit (imp : ι)
  | miss
  | wrap
  deriving DecidableEq, Repr

/-- A scan of x86_64: upwards to the end marker. -/
def scanUp (c : Cache ς ι) (sel : ς) (i : ℕ) : Prog (Turn ℕ (Scan ι)) :=
  match c.bucketAt i with
  | none => trap
  | some .zero => pure (.exit .miss)
  | some .endMarker => pure (.exit .wrap)
  | some (.filled s imp) => if s = sel then pure (.exit (.hit imp)) else pure (.next (i + 1))

/-- A scan of arm64: downwards as long as the next bucket is in the table,
and above `last` where it is given. -/
def scanDown (c : Cache ς ι) (sel : ς) (last : Option ℕ) (i : ℕ) : Prog (Turn ℕ (Scan ι)) :=
  match c.bucketAt i with
  | none => trap
  | some .zero => pure (.exit .miss)
  | some b =>
    match b.impFor sel with
    | some imp => pure (.exit (.hit imp))
    | none => if i ≠ 0 ∧ ∀ first ∈ last, first < i - 1 then pure (.next (i - 1)) else pure (.exit .wrap)

/-- The scan of `CacheLookup` from the first probe. -/
def scanFirst (c : Cache ς ι) (sel : ς) (first : ℕ) : Prog (Scan ι) :=
  match arch with
  | .x86_64 => loop (scanUp c sel) first
  | .arm64 => loop (scanDown c sel none) first

/-- The scan of `CacheLookup` after a wrap, from the other end of the buckets. -/
def scanAgain (c : Cache ς ι) (sel : ς) (first : ℕ) : Scan ι → Prog (Scan ι)
  | .wrap =>
    match arch with
    | .x86_64 => loop (scanUp c sel) 0
    | .arm64 => loop (scanDown c sel (some first)) c.mask
  | scan => pure scan

/-- `cache_getImp`, that is `CacheLookup GETIMP`: a second wrap is a miss. -/
def cacheGetImp (c : Cache ς ι) (sel : ς) : Prog (Option ι) := do
  let first := cacheHash value sel c.mask
  let scan ← scanFirst arch c sel first
  let scan ← scanAgain arch c sel first scan
  match scan with
  | .hit imp => pure (some imp)
  | _ => pure none

/-! ## Tables -/

/-- The selector a bucket of the table holds. -/
def keyAt (b : List (Bucket ς ι)) (i : ℕ) : Option ς := b[i]?.bind Bucket.sel

/-- The bucket is not zeroed. -/
def takenAt (b : List (Bucket ς ι)) (i : ℕ) : Prop := b[i]?.any Bucket.taken = true

/-- Buckets that a cache with `occupied` entries may have. -/
structure Table (mask occupied : ℕ) (b : List (Bucket ς ι)) : Prop where
  size : ∃ k, arch.initCacheSizeLog2 ≤ k ∧ k ≤ 16 ∧ mask + 1 = 2 ^ k
  length : b.length = mask + 1
  marker : ∀ i, b[i]? = some .endMarker ↔ arch = .x86_64 ∧ i = mask
  count : b.countP Bucket.taken = occupied + arch.cacheEndMarker
  room : hasRoom arch occupied (mask + 1)
  unique : Unique (mask + 1) (keyAt b)
  chained : Chained (arch.cacheNext mask) (mask + 1) (cacheHash value · mask) (keyAt b) (takenAt b)

/-- The caches that the code makes. -/
structure Wf (c : Cache ς ι) : Prop where
  empty : c.buckets = none → c.occupied = 0 ∧ (c.mask = 0 ∨
    ∃ k, arch.initCacheSizeLog2 ≤ k ∧ k ≤ 16 ∧ c.mask + 1 = 2 ^ k)
  table : ∀ b, c.buckets = some b → 0 < c.occupied ∧ Table arch value c.mask c.occupied b

/-- The implementation cached for a selector. -/
def find (c : Cache ς ι) (sel : ς) : Option ι := c.buckets.bind (·.findSome? (·.impFor sel))

section Table

variable {arch value} {mask occupied : ℕ} {b : List (Bucket ς ι)} {c : Cache ς ι} {sel s : ς} {imp : ι}
    {i j d : ℕ}

omit [DecidableEq ς] in
theorem cacheHash_lt (value : ς → ℕ) (sel : ς) (mask : ℕ) : cacheHash value sel mask < mask + 1 :=
  Nat.lt_succ_of_le Nat.and_le_right

theorem round_cacheNext (h : ∃ k, arch.initCacheSizeLog2 ≤ k ∧ k ≤ 16 ∧ mask + 1 = 2 ^ k) :
    Round (arch.cacheNext mask) (mask + 1) := by
  obtain ⟨k, -, -, hk⟩ := h
  cases arch with
  | x86_64 =>
    rw [show mask = 2 ^ k - 1 by omega, Nat.sub_add_cancel Nat.one_le_two_pow]
    exact round_up k
  | arm64 => exact round_down mask

omit [DecidableEq ς] in
theorem keyAt_eq_some : keyAt b i = some sel ↔ ∃ imp, b[i]? = some (.filled sel imp) := by
  rw [keyAt, Option.bind_eq_some_iff]
  constructor
  · rintro ⟨bk, hbk, hsel⟩
    cases bk with
    | zero => cases hsel
    | endMarker => cases hsel
    | filled s imp =>
      obtain rfl := Option.some.inj hsel
      exact ⟨imp, hbk⟩
  · rintro ⟨imp, h⟩
    exact ⟨_, h, rfl⟩

/-- The entry of a selector, given its bucket. -/
theorem Table.findSome (h : Table arch value mask occupied b) (hi : b[i]? = some (.filled sel imp)) :
    b.findSome? (·.impFor sel) = some imp := by
  cases hf : b.findSome? (·.impFor sel) with
  | none =>
    rw [List.findSome?_eq_none_iff] at hf
    have hnone := hf _ (List.mem_of_getElem? hi)
    rw [Bucket.impFor_eq_some.mpr rfl] at hnone
    cases hnone
  | some imp' =>
    obtain ⟨bk, hbk, himp⟩ := List.exists_of_findSome?_eq_some hf
    obtain rfl := Bucket.impFor_eq_some.mp himp
    obtain ⟨j, hj⟩ := List.mem_iff_getElem?.mp hbk
    have hilt := (List.getElem?_eq_some_iff.mp hi).1
    have hjlt := (List.getElem?_eq_some_iff.mp hj).1
    obtain rfl := h.unique i (h.length ▸ hilt) j (h.length ▸ hjlt) sel (keyAt_eq_some.mpr ⟨_, hi⟩)
      (keyAt_eq_some.mpr ⟨_, hj⟩)
    rw [hi] at hj
    cases hj
    rfl

theorem Table.findSome_iff (h : Table arch value mask occupied b) :
    b.findSome? (·.impFor sel) = some imp ↔ ∃ i : ℕ, b[i]? = some (.filled sel imp) := by
  constructor
  · intro hf
    obtain ⟨bk, hbk, himp⟩ := List.exists_of_findSome?_eq_some hf
    obtain rfl := Bucket.impFor_eq_some.mp himp
    exact List.mem_iff_getElem?.mp hbk
  · rintro ⟨i, hi⟩
    exact h.findSome hi

theorem findSome_eq_none (h : ∀ j < b.length, keyAt b j ≠ some sel) : b.findSome? (·.impFor sel) = none := by
  refine List.findSome?_eq_none_iff.mpr fun bk hbk => ?_
  by_contra hne
  obtain ⟨imp, himp⟩ := Option.ne_none_iff_exists'.mp hne
  obtain rfl := Bucket.impFor_eq_some.mp himp
  obtain ⟨j, hj⟩ := List.mem_iff_getElem?.mp hbk
  exact h j (List.getElem?_eq_some_iff.mp hj).1 (keyAt_eq_some.mpr ⟨imp, hj⟩)

theorem hasRoom_le (h : hasRoom arch occupied (mask + 1)) : occupied + arch.cacheEndMarker ≤ mask + 1 := by
  rcases h with h | ⟨-, -, h⟩
  · cases arch with
    | x86_64 =>
      simp only [Arch.cacheFillRatio] at h
      omega
    | arm64 =>
      simp only [Arch.cacheFillRatio] at h
      omega
  · exact h

omit [DecidableEq ς] in
/-- A table that has room for one more has a zeroed bucket. -/
theorem Table.exists_zero (h : Table arch value mask occupied b)
    (hroom : hasRoom arch (occupied + 1) (mask + 1)) :
    ∃ j < mask + 1, ¬ takenAt b j := by
  have hle := hasRoom_le hroom
  obtain ⟨j, hj, hzero⟩ := exists_free (l := b) (p := Bucket.taken) (by rw [h.count, h.length]; omega)
  refine ⟨j, h.length ▸ hj, ?_⟩
  rw [takenAt, List.getElem?_eq_getElem hj, Option.any_some, hzero]
  exact Bool.false_ne_true

/-! ## Insertion -/

omit [DecidableEq ς] in
theorem allocateBuckets_getElem? {cap : ℕ} (hi : i < cap) :
    (allocateBuckets arch cap : List (Bucket ς ι))[i]? =
    some (if arch = .x86_64 ∧ i = cap - 1 then .endMarker else .zero) := by
  cases arch with
  | x86_64 =>
    rw [allocateBuckets, List.getElem?_set]
    by_cases h : i = cap - 1
    · simp [h, show cap - 1 < cap by omega]
    · simp [h, Ne.symm h, hi]
  | arm64 => simp [allocateBuckets, hi]

omit [DecidableEq ς] in
theorem length_allocateBuckets (cap : ℕ) : (allocateBuckets arch cap : List (Bucket ς ι)).length = cap := by
  cases arch <;> simp [allocateBuckets]

omit [DecidableEq ς] in
theorem keyAt_allocateBuckets (cap i : ℕ) :
    keyAt (allocateBuckets arch cap : List (Bucket ς ι)) i = none := by
  rcases Nat.lt_or_ge i cap with hi | hi
  · rw [keyAt, allocateBuckets_getElem? hi]
    split_ifs <;> rfl
  · rw [keyAt, List.getElem?_eq_none (by rw [length_allocateBuckets]; exact hi)]
    rfl

omit [DecidableEq ς] in
/-- New buckets are a table without entries. -/
theorem table_allocateBuckets (h : ∃ k, arch.initCacheSizeLog2 ≤ k ∧ k ≤ 16 ∧ mask + 1 = 2 ^ k) :
    Table arch value mask 0 (allocateBuckets arch (mask + 1) : List (Bucket ς ι)) where
  size := h
  length := length_allocateBuckets _
  marker := by
    intro i
    rcases Nat.lt_or_ge i (mask + 1) with hi | hi
    · rw [allocateBuckets_getElem? hi, Nat.add_sub_cancel]
      split_ifs with hm <;> simp [hm]
    · rw [List.getElem?_eq_none (by rw [length_allocateBuckets]; exact hi)]
      constructor
      · exact fun h => nomatch h
      · omega
  count := by
    cases arch with
    | x86_64 => simp [allocateBuckets, List.countP_set, Bucket.taken, Arch.cacheEndMarker]
    | arm64 => simp [allocateBuckets, Bucket.taken, Arch.cacheEndMarker]
  room := by
    obtain ⟨k, hlo, -, hk⟩ := h
    left
    cases arch with
    | x86_64 =>
      have : 2 ^ 2 ≤ 2 ^ k := Nat.pow_le_pow_right (by omega) hlo
      simp only [Arch.cacheEndMarker, Arch.cacheFillRatio]
      omega
    | arm64 => exact Nat.zero_le _
  unique := by
    intro i _ j _ k hk
    rw [keyAt_allocateBuckets] at hk
    cases hk
  chained := by
    intro j _ k hk
    rw [keyAt_allocateBuckets] at hk
    cases hk

omit [DecidableEq ς] in
theorem keyAt_set (hi : i < b.length) : keyAt (b.set i (.filled sel imp)) j = if i = j then
    some sel else keyAt b j := by
  rw [keyAt, keyAt, List.getElem?_set, if_pos hi]
  split_ifs
  · rfl
  · rfl

omit [DecidableEq ς] in
/-- The table with an entry for a new selector in the first zeroed bucket of its sequence. -/
theorem Table.insert (h : Table arch value mask occupied b) (hroom : hasRoom arch (occupied + 1) (mask + 1))
    (hd : d < mask + 1) (hi : (arch.cacheNext mask)^[d] (cacheHash value sel mask) = i)
    (hfull : ∀ e < d, takenAt b ((arch.cacheNext mask)^[e] (cacheHash value sel mask)))
    (hzero : b[i]? = some .zero) (habsent : ∀ j < mask + 1, keyAt b j ≠ some sel) :
    Table arch value mask (occupied + 1) (b.set i (.filled sel imp)) := by
  have hilt : i < b.length := (List.getElem?_eq_some_iff.mp hzero).1
  have hself : keyAt (b.set i (.filled sel imp)) i = some sel := by rw [keyAt_set hilt, if_pos rfl]
  have hother : ∀ j, j ≠ i → keyAt (b.set i (.filled sel imp)) j = keyAt b j := by
    intro j hj
    rw [keyAt_set hilt, if_neg (Ne.symm hj)]
  have htaken : ∀ j, takenAt b j → takenAt (b.set i (.filled sel imp)) j := by
    intro j hj
    rw [takenAt, List.getElem?_set]
    split_ifs
    · rfl
    · exact hj
  refine ⟨h.size, ?_, ?_, ?_, hroom, h.unique.insert hself hother habsent, ?_⟩
  · rw [List.length_set]
    exact h.length
  · intro j
    rw [List.getElem?_set]
    by_cases hij : i = j
    · rw [if_pos hij, if_pos hilt]
      refine ⟨fun hm => (nomatch hm), fun hm => ?_⟩
      have hend := (h.marker j).mpr hm
      rw [← hij, hzero] at hend
      cases hend
    · rw [if_neg hij]
      exact h.marker j
  · have hbi : b[i] = .zero := (List.getElem?_eq_some_iff.mp hzero).2
    rw [List.countP_set hilt, h.count, hbi]
    simp only [Bucket.taken, if_true, Bool.false_eq_true, if_false]
    omega
  · subst hi
    exact h.chained.insert hd hfull hself hother htaken

theorem insertTurn_zero {m begin : ℕ} (hb : c.buckets = some b) (hi : b[i]? = some .zero) :
    insertTurn arch c m begin sel imp i =
      pure (.exit ⟨some (b.set i (.filled sel imp)), c.mask, c.occupied + 1⟩) := by
  rw [insertTurn, hb, Option.bind_some, hi, Option.map_some]

theorem insertTurn_present {m begin : ℕ} (hb : c.buckets = some b) (hi : keyAt b i = some sel) :
    insertTurn arch c m begin sel imp i = pure (.exit c) := by
  obtain ⟨imp', hi⟩ := keyAt_eq_some.mp hi
  rw [insertTurn, hb, Option.bind_some, hi]
  exact if_pos rfl

theorem insertTurn_next {m begin : ℕ} (hb : c.buckets = some b) (htaken : takenAt b i)
    (hi : keyAt b i ≠ some sel) (hne : arch.cacheNext m i ≠ begin) :
    insertTurn arch c m begin sel imp i = pure (.next (arch.cacheNext m i)) := by
  rw [insertTurn, hb, Option.bind_some]
  rw [keyAt] at hi
  rw [takenAt] at htaken
  cases hbi : b[i]? with
  | none =>
    rw [hbi] at htaken
    cases htaken
  | some bk =>
    rw [hbi, Option.bind_some] at hi
    cases bk with
    | zero =>
      rw [hbi] at htaken
      cases htaken
    | endMarker => simp [Bucket.sel, hne]
    | filled s imp' => simp only [if_neg hi, if_pos hne]

/-- The scan of `insert` finds the selector, or puts it into the first zeroed bucket; it never comes round. -/
theorem halts_insertLoop (hb : c.buckets = some b) (h : Table arch value c.mask c.occupied b)
    (hroom : hasRoom arch (c.occupied + 1) (c.mask + 1)) :
    Halts (loop (insertTurn arch c c.mask (cacheHash value sel c.mask) sel imp) (cacheHash value sel c.mask))
      fun c' => (∃ imp', c.find sel = some imp') ∧ c' = c ∨
        c.find sel = none ∧ c'.mask = c.mask ∧ c'.occupied = c.occupied + 1 ∧
          (∃ b', c'.buckets = some b' ∧ Table arch value c'.mask c'.occupied b') ∧
          c'.find sel = some imp ∧ ∀ s, s ≠ sel → c'.find s = c.find s := by
  have hround := round_cacheNext h.size
  have hs := cacheHash_lt value sel c.mask
  obtain ⟨j, hj, hzero⟩ := h.exists_zero hroom
  obtain ⟨d, hd, hstop, hfirst⟩ :=
    hround.exists_first (fun i => ¬ takenAt b i ∨ keyAt b i = some sel) hs hj (Or.inl hzero)
  have hprobed : ∀ e < d, takenAt b ((arch.cacheNext c.mask)^[e] (cacheHash value sel c.mask)) ∧
      keyAt b ((arch.cacheNext c.mask)^[e] (cacheHash value sel c.mask)) ≠ some sel := fun e he => by
    simpa only [not_or, not_not] using hfirst e he
  have hnext : ∀ e < d, Returns
      (insertTurn arch c c.mask (cacheHash value sel c.mask) sel imp
        ((arch.cacheNext c.mask)^[e] (cacheHash value sel c.mask)))
      (.next ((arch.cacheNext c.mask)^[e + 1] (cacheHash value sel c.mask))) := by
    intro e he
    rw [insertTurn_next hb (hprobed e he).1 (hprobed e he).2, Function.iterate_succ_apply']
    · exact returns_pure _
    · rw [Ne, hround.next_eq_start_iff hs (by omega)]
      omega
  have hexit : ∀ {c'}, insertTurn arch c c.mask (cacheHash value sel c.mask) sel imp
      ((arch.cacheNext c.mask)^[d] (cacheHash value sel c.mask)) = pure (.exit c') →
      Returns (loop (insertTurn arch c c.mask (cacheHash value sel c.mask) sel imp)
        (cacheHash value sel c.mask)) c' :=
    fun heq => returns_loop_trace (fun e => (arch.cacheNext c.mask)^[e] (cacheHash value sel c.mask)) d hnext
      (heq ▸ returns_pure _)
  generalize hi : (arch.cacheNext c.mask)^[d] (cacheHash value sel c.mask) = i at hstop hexit
  by_cases hkey : keyAt b i = some sel
  · obtain ⟨imp', himp⟩ := keyAt_eq_some.mp hkey
    refine ⟨c, hexit (insertTurn_present hb hkey), Or.inl ⟨⟨imp', ?_⟩, rfl⟩⟩
    rw [find, hb, Option.bind_some, h.findSome himp]
  · have hfree : ¬ takenAt b i := hstop.resolve_right hkey
    have hilt : i < b.length := by
      rw [h.length, ← hi]
      exact hround.iterate_lt hs d
    have hbi : b[i]? = some .zero := by
      rw [List.getElem?_eq_getElem hilt]
      rw [takenAt, List.getElem?_eq_getElem hilt, Option.any_some] at hfree
      cases hz : b[i] with
      | zero => rfl
      | endMarker => simp [hz, Bucket.taken] at hfree
      | filled s imp' => simp [hz, Bucket.taken] at hfree
    have habsent : ∀ j < c.mask + 1, keyAt b j ≠ some sel := by
      refine h.chained.absent (d := d) (hi ▸ hfree) fun e he => ?_
      rcases Nat.lt_or_eq_of_le he with he | rfl
      · exact (hprobed e he).2
      · exact hi ▸ hkey
    have htable : Table arch value c.mask (c.occupied + 1) (b.set i (.filled sel imp)) :=
      h.insert hroom hd hi (fun e he => (hprobed e he).1) hbi habsent
    refine ⟨_, hexit (insertTurn_zero hb hbi), Or.inr ⟨?_, rfl, rfl, ⟨_, rfl, htable⟩, ?_, ?_⟩⟩
    · rw [find, hb, Option.bind_some, findSome_eq_none (h.length ▸ habsent)]
    · exact htable.findSome (List.getElem?_set_self hilt)
    · intro s hs
      rw [find, find, hb, Option.bind_some, Option.bind_some]
      refine Option.ext fun imp' => ?_
      rw [htable.findSome_iff, h.findSome_iff]
      refine exists_congr fun j => ?_
      rw [List.getElem?_set]
      by_cases hij : i = j
      · subst hij
        rw [if_pos rfl, if_pos hilt, hbi]
        simp [Ne.symm hs]
      · rw [if_neg hij]

end Table

end Cache

end QYInterview.ObjC
