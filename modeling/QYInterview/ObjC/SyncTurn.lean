import QYInterview.ObjC.Sync

/-!
# ObjC.SyncTurn — what one turn of a thread does

The items of a thread are a multiset, from which `find` takes one (`find_spec`).  A turn keeps what the
thread knows (`Local`): a mutex is locked at most as often as the thread has entered, where a call between
the caches and the mutex counts.  For the other threads it leaves the objects of the blocks in use and
changes the counts with the thread (`TurnSpec`, `turnSpec_of_next`).  All this is for turns in which no
counter overflows (`World.Fits`, `Thread.Fits`).
-/

namespace QYInterview.ObjC.Sync

variable {ω : Type}

/-! ## Items -/

section Arrays

variable {α : Type} {l : List α} {i : ℕ} {a : α}

/-- One entry, and the others. -/
theorem set_coe (h : l[i]? = some a) :
    ∃ rest : Multiset α, (↑l : Multiset α) = a ::ₘ rest ∧ ∀ b, (↑(l.set i b) : Multiset α) = b ::ₘ rest := by
  obtain ⟨hi, hget⟩ := List.getElem?_eq_some_iff.mp h
  refine ⟨↑(l.take i ++ l.drop (i + 1)), ?_, fun b => ?_⟩
  · have hsplit : l = l.take i ++ a :: l.drop (i + 1) := by
      rw [← hget, List.getElem_cons_drop, List.take_append_drop]
    conv_lhs => rw [hsplit]
    exact Multiset.coe_eq_coe.mpr List.perm_middle
  · rw [List.set_eq_take_append_cons_drop, if_pos hi]
    exact Multiset.coe_eq_coe.mpr List.perm_middle

theorem swapRemove_coe (h : l[i]? = some a) : (↑l : Multiset α) = a ::ₘ ↑(swapRemove l i) := by
  obtain ⟨hi, -⟩ := List.getElem?_eq_some_iff.mp h
  have hne : l ≠ [] := List.ne_nil_of_length_pos (by omega)
  obtain ⟨front, last, rfl⟩ : ∃ front last, l = front ++ [last] :=
    ⟨l.dropLast, l.getLast hne, (List.dropLast_concat_getLast hne).symm⟩
  rw [swapRemove, List.getLast?_concat, Option.elim_some]
  rw [List.length_append, List.length_singleton] at hi
  rcases Nat.lt_or_ge i front.length with hlt | hge
  · rw [List.getElem?_append_left hlt] at h
    obtain ⟨rest, hrest, hset⟩ := set_coe h
    rw [List.set_append_left _ _ hlt, List.dropLast_concat, ← Multiset.coe_add, hrest, hset,
      Multiset.coe_singleton, Multiset.cons_add, add_comm, Multiset.singleton_add]
  · -- the last entry itself
    obtain rfl : i = front.length := by omega
    rw [List.getElem?_append_right le_rfl, Nat.sub_self, List.getElem?_cons_zero] at h
    obtain rfl := Option.some.inj h
    rw [List.set_append_right _ _ le_rfl, Nat.sub_self, List.set_cons_zero, List.dropLast_concat,
      Multiset.cons_coe]
    exact Multiset.coe_eq_coe.mpr (List.perm_append_singleton _ _)

end Arrays

def Thread.items (t : Thread ω) : Multiset SyncCacheItem := ↑(t.fast.toList ++ t.cache)

/-- How many items a thread has for a block. -/
def uses (d : ℕ) (items : Multiset SyncCacheItem) : ℕ :=
  (items.map fun it => if it.data = d then 1 else 0).sum

/-- How often a thread has entered with a block. -/
def depth (d : ℕ) (items : Multiset SyncCacheItem) : ℕ :=
  (items.map fun it => if it.data = d then it.lockCount else 0).sum

@[simp] theorem uses_cons (d : ℕ) (it : SyncCacheItem) (items : Multiset SyncCacheItem) :
    uses d (it ::ₘ items) = (if it.data = d then 1 else 0) + uses d items := by
  rw [uses, Multiset.map_cons, Multiset.sum_cons]
  rfl

theorem uses_of_mem {it : SyncCacheItem} {items : Multiset SyncCacheItem} (h : it ∈ items) :
    0 < uses it.data items := by
  obtain ⟨rest, rfl⟩ := Multiset.exists_cons_of_mem h
  rw [uses_cons, if_pos rfl]
  omega

section Find

variable [DecidableEq ω] {g : World ω} {t : Thread ω} {object : ω} {slot : Slot} {it : SyncCacheItem}

theorem findCached_spec (h : findCached g t object = some (slot, it)) :
    (g.data it.data).object = object ∧ ∃ i, slot = .cached i ∧ t.cache[i]? = some it := by
  obtain ⟨i, hi, hmap⟩ := Option.bind_eq_some_iff.mp h
  obtain ⟨it', hit, heq⟩ := Option.map_eq_some_iff.mp hmap
  cases heq
  obtain ⟨hlt, hobj, -⟩ := List.findIdx?_eq_some_iff_getElem.mp hi
  rw [List.getElem?_eq_getElem hlt] at hit
  obtain rfl := Option.some.inj hit
  exact ⟨of_decide_eq_true hobj, i, rfl, List.getElem?_eq_getElem hlt⟩

/-- What a match in the caches is, and what replacing and dropping it do. -/
theorem find_spec (h : find g t object = some (slot, it)) : (g.data it.data).object = object ∧
    ∃ rest, t.items = it ::ₘ rest ∧ (t.drop slot).items = rest ∧
      ∀ it', (t.put slot it').items = it' ::ₘ rest := by
  have hcached : findCached g t object = some (slot, it) → (g.data it.data).object = object ∧
      ∃ rest, t.items = it ::ₘ rest ∧ (t.drop slot).items = rest ∧
        ∀ it', (t.put slot it').items = it' ::ₘ rest := by
    intro h
    obtain ⟨hobj, i, rfl, hi⟩ := findCached_spec h
    obtain ⟨rest, hrest, hset⟩ := set_coe hi
    have hdrop := swapRemove_coe hi
    rw [hrest, Multiset.cons_inj_right] at hdrop
    refine ⟨hobj, ↑t.fast.toList + rest, ?_, ?_, fun it' => ?_⟩
    · rw [Thread.items, ← Multiset.coe_add, hrest, Multiset.add_cons]
    · rw [Thread.items, Thread.drop, ← Multiset.coe_add, ← hdrop]
    · rw [Thread.items, Thread.put, ← Multiset.coe_add, hset, Multiset.add_cons]
  unfold find at h
  cases hfast : t.fast with
  | none =>
    rw [hfast] at h
    exact hcached h
  | some it' =>
    rw [hfast] at h
    dsimp only at h
    by_cases hobj : (g.data it'.data).object = object
    · rw [if_pos hobj] at h
      cases h
      refine ⟨hobj, ↑t.cache, ?_, rfl, fun _ => rfl⟩
      rw [Thread.items, hfast]
      rfl
    · rw [if_neg hobj] at h
      exact hcached h

/-- No `lockCount` of the thread is at its maximum. -/
def Thread.Fits (t : Thread ω) : Prop :=
  (∀ it ∈ t.fast, it.lockCount < 2 ^ 64 - 1) ∧ ∀ it ∈ t.cache, it.lockCount < 2 ^ 32 - 1

end Find

/-! ## The state of one thread -/

/-- A call that has counted an entry and has not locked the mutex. -/
def entering : Position ω → ℕ → ℕ
  | .locking _ e, d | .trying _ e, d => if e = d then 1 else 0
  | _, _ => 0

/-- A call that has taken an entry back and has not unlocked the mutex. -/
def leaving : Position ω → ℕ → ℕ
  | .unlocking _ e, d => if e = d then 1 else 0
  | _, _ => 0

/-- The call goes on with the mutex of a block, for an object. -/
def Names : Position ω → ω → ℕ → Prop
  | .locking o e, o', d | .trying o e, o', d | .unlocking o e, o', d => o = o' ∧ e = d
  | _, _, _ => False

/-- Whether the thread owns a mutex. -/
def owns (d : ℕ) (t : Thread ω) : ℕ := min 1 (t.owned.count d)

/-- No two blocks have the same object, and those that are not allocated are unused. -/
structure Heap (g : World ω) : Prop where
  distinct : ∀ d e, d < g.allocated → e < g.allocated → (g.data d).object = (g.data e).object → d = e
  beyond : ∀ d, g.allocated ≤ d → (g.data d).threadCount = 0 ∧ (g.data d).locked = false

/-- What a thread knows: no mutex is locked more often than entered. -/
structure Local (g : World ω) (t : Thread ω) : Prop where
  items : ∀ it ∈ t.items, it.data < g.allocated ∧ 0 < it.lockCount
  owned : ∀ d, t.owned.count d + entering t.position d ≤ depth d t.items + leaving t.position d
  object : ∀ o d, Names t.position o d → (∃ it ∈ t.items, it.data = d) → (g.data d).object = o
  fatal : t.position ≠ .fatal

/-- The thread is counted in its blocks and in the mutexes it owns. -/
structure Counted (g : World ω) (t : Thread ω) : Prop where
  uses : ∀ d, (uses d t.items : ℤ) ≤ (g.data d).threadCount
  mutex : ∀ d, owns d t ≤ (g.data d).locked.toNat

/-- What a turn does for the others: blocks in use keep their objects,
and the counts change with the thread. -/
structure TurnSpec (g : World ω) (t : Thread ω) (g' : World ω) (t' : Thread ω) : Prop where
  heap : Heap g'
  allocated : g.allocated ≤ g'.allocated
  object : ∀ d, 0 < (g.data d).threadCount → (g'.data d).object = (g.data d).object
  uses : ∀ d, (g.data d).threadCount + uses d t'.items ≤ (g'.data d).threadCount + uses d t.items
  mutex : ∀ d, (g'.data d).locked.toNat + owns d t = (g.data d).locked.toNat + owns d t'
  thread : Local g' t'

/-- No `threadCount` is at its maximum. -/
def World.Fits (g : World ω) : Prop := ∀ d, (g.data d).threadCount < 2 ^ 31 - 1

section World

variable {g : World ω} {t : Thread ω}

variable [DecidableEq ω]

omit [DecidableEq ω] in
/-- A block in the caches of a thread keeps its object. -/
theorem TurnSpec.object_of_item {g' : World ω} {t' u : Thread ω} {d : ℕ} (h : TurnSpec g t g' t')
    (hc : Counted g u) (hitem : ∃ it ∈ u.items, it.data = d) : (g'.data d).object = (g.data d).object := by
  obtain ⟨it, hit, rfl⟩ := hitem
  have hpositive := uses_of_mem hit
  have huses := hc.uses it.data
  exact h.object it.data (by omega)

omit [DecidableEq ω] in
/-- The other threads know what they knew. -/
theorem TurnSpec.other {g' : World ω} {t' u : Thread ω} (h : TurnSpec g t g' t') (hl : Local g u)
    (hc : Counted g u) :
    Local g' u := by
  refine ⟨fun it hit => ?_, hl.owned, fun o d hpos hitem => ?_, hl.fatal⟩
  · obtain ⟨hlt, hcount⟩ := hl.items it hit
    exact ⟨hlt.trans_le h.allocated, hcount⟩
  · rw [h.object_of_item hc hitem]
    exact hl.object o d hpos hitem

end World

end QYInterview.ObjC.Sync
