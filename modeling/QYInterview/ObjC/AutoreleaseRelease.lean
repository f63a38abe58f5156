import QYInterview.ObjC.AutoreleasePool

/-!
# ObjC.AutoreleaseRelease — what popping a pool releases

`releaseUntil` takes slots off the stack and releases their objects, which may autorelease other objects
meanwhile; these are released in the same loop.  `releaseAll` is the release of a list of objects with all
that they autorelease.  When no object autoreleases itself by way of others the loop ends, and each object
of the pool and each one that came up in between has been released exactly once (`halts_releaseUntil`,
`halts_pop`).
-/

namespace QYInterview.ObjC.AutoreleasePool

open RunLogic Drain

universe u

variable {ω W : Type u} (rt : Runtime ω W)

/-! ## Releasing objects -/

/-- The release of an object can autorelease another one. -/
def Spawns (other obj : ω) : Prop := ∃ w, other ∈ (rt.objcRelease obj w).2

/-- The release of objects one after the other, with all that they autorelease. -/
def releaseAll : List ω → W → W × Multiset ω
  | [], w => (w, 0)
  | obj :: objs, w =>
    let (w, others) := rt.objcRelease obj w
    let (w, rest) := releaseAll objs w
    (w, (others : Multiset ω) + rest)

theorem releaseAll_append (xs ys : List ω) (w : W) :
    releaseAll rt (xs ++ ys) w = ((releaseAll rt ys (releaseAll rt xs w).1).1,
      (releaseAll rt xs w).2 + (releaseAll rt ys (releaseAll rt xs w).1).2) := by
  induction xs generalizing w with
  | nil => simp [releaseAll]
  | cons x xs ih => simp [releaseAll, ih, add_assoc]

theorem spawns_of_mem_releaseAll {obj other : ω} {n : ℕ} {w : W}
    (h : other ∈ (releaseAll rt (List.replicate n obj) w).2) : Spawns rt other obj := by
  induction n generalizing w with
  | zero => simp [releaseAll] at h
  | succ n ih =>
    rw [List.replicate_succ, releaseAll, Multiset.mem_add] at h
    rcases h with h | h
    · exact ⟨w, by simpa using h⟩
    · exact ih h

section Release

variable [DecidableEq ω] {rt} {a b : List (Slot ω)} {tls : Tls ω}

theorem autorelease_foldl (objs : List ω) (hwf : Wf rt.capacity tls) (hstack : stack tls = a ++ b)
    (hseal : Sealed a b) :
    ∃ a', stack (objs.foldl (autorelease rt) tls) = a' ++ b ∧ Sealed a' b ∧ contents a' = contents a + objs ∧
      Wf rt.capacity (objs.foldl (autorelease rt) tls) ∧
      addresses tls <+: addresses (objs.foldl (autorelease rt) tls) := by
  induction objs generalizing tls a with
  | nil => exact ⟨a, hstack, hseal, by simp, hwf, List.prefix_rfl⟩
  | cons obj objs ih =>
    have hext := extended_autoreleaseFast (some obj) hwf
    have hadded : Added obj (a ++ b) (stack (autorelease rt tls obj)) := hstack ▸ hext.pushed
    obtain ⟨a₁, hstack₁, hseal₁, hcontents₁⟩ := hseal.added hadded
    obtain ⟨a', hstack', hseal', hcontents', hwf', haddr'⟩ := ih hext.wf hstack₁ hseal₁
    refine ⟨a', hstack', hseal', ?_, hwf', hext.addresses.trans haddr'⟩
    rw [hcontents', hcontents₁, ← Multiset.cons_coe, Multiset.cons_add, Multiset.add_cons]

theorem releaseTimes_spec (obj : ω) (n : ℕ) (w : W) (hwf : Wf rt.capacity tls) (hstack : stack tls = a ++ b)
    (hseal : Sealed a b) :
    ∃ a', stack (releaseTimes rt obj n (tls, w)).1 = a' ++ b ∧ Sealed a' b ∧
      contents a' = contents a + (releaseAll rt (List.replicate n obj) w).2 ∧
      (releaseTimes rt obj n (tls, w)).2 = (releaseAll rt (List.replicate n obj) w).1 ∧
      Wf rt.capacity (releaseTimes rt obj n (tls, w)).1 ∧
      addresses tls <+: addresses (releaseTimes rt obj n (tls, w)).1 := by
  induction n generalizing tls a w with
  | zero => exact ⟨a, hstack, hseal, by simp [releaseAll], rfl, hwf, List.prefix_rfl⟩
  | succ n ih =>
    obtain ⟨a₁, hstack₁, hseal₁, hcontents₁, hwf₁, haddr₁⟩ :=
      autorelease_foldl (rt.objcRelease obj w).2 hwf hstack hseal
    obtain ⟨a', hstack', hseal', hcontents', hw', hwf', haddr'⟩ :=
      ih (rt.objcRelease obj w).1 hwf₁ hstack₁ hseal₁
    refine ⟨a', hstack', hseal', ?_, hw', hwf', haddr₁.trans haddr'⟩
    rw [hcontents', hcontents₁, List.replicate_succ, releaseAll, add_assoc]

omit [DecidableEq ω] in
/-- The hottest slot is on the hot page or on its parent. -/
theorem popSlot_spec {capacity : ℕ} (hcap : 0 < capacity) {parents children : List (AutoreleasePoolPage ω)}
    {page : AutoreleasePoolPage ω} {slot : Slot ω} {s : List (Slot ω)}
    (h : WfPages capacity parents page children)
    (hstack : stack (.hotPage parents page children) = slot :: s) :
    ∃ tls', popSlot parents page children = some (slot, tls') ∧ Wf capacity tls' ∧ stack tls' = s ∧
      addresses tls' = addresses (.hotPage parents page children) := by
  have htop : ∀ {parents children : List (AutoreleasePoolPage ω)} {address : ℕ} {slots : List (Slot ω)}
      (h : WfPages capacity parents ⟨address, slot :: slots⟩ children),
      ∃ tls', popSlot parents ⟨address, slot :: slots⟩ children = some (slot, tls') ∧ Wf capacity tls' ∧
        slot :: stack tls' = stack (.hotPage parents ⟨address, slot :: slots⟩ children) ∧
        addresses tls' = addresses (.hotPage parents ⟨address, slot :: slots⟩ children) := by
    intro parents children address slots h
    have hwf : WfPages capacity parents ⟨address, slots⟩ children := by
      refine ⟨h.full, ?_, h.empty, ?_⟩
      · exact (Nat.le_succ _).trans h.room
      · simpa [addresses, pages] using h.nodup
    refine ⟨.hotPage parents ⟨address, slots⟩ children, by rw [popSlot], hwf, ?_, ?_⟩
    · rw [hwf.stack_eq, h.stack_eq]
      rfl
    · simp [addresses, pages]
  obtain ⟨address, slots⟩ := page
  rw [h.stack_eq] at hstack
  cases slots with
  | cons slot' slots =>
    obtain ⟨rfl, htail⟩ := List.cons.inj hstack
    obtain ⟨tls', hpop, hwf, hst, haddr⟩ := htop h
    refine ⟨tls', hpop, hwf, ?_, haddr⟩
    rw [h.stack_eq] at hst
    exact (List.cons.inj hst).2.trans htail
  | nil =>
    -- the parent is full, so one step is enough
    cases parents with
    | nil => simp at hstack
    | cons parent parents =>
      have hfull := h.full parent (by simp)
      obtain ⟨address', slots'⟩ := parent
      cases slots' with
      | nil =>
        rw [List.length_nil] at hfull
        omega
      | cons slot' slots' =>
        obtain ⟨rfl, htail⟩ : slot' = slot ∧ slots' ++ parents.flatMap (·.slots) = s := by simpa using hstack
        have h' : WfPages capacity parents ⟨address', slot' :: slots'⟩ (⟨address, []⟩ :: children) := by
          refine ⟨fun p hp => h.full p (by simp [hp]), hfull.le, ?_, ?_⟩
          · intro p hp
            rcases List.mem_cons.mp hp with rfl | hp
            · rfl
            · exact h.empty p hp
          · simpa [addresses, pages] using h.nodup
        obtain ⟨tls', hpop, hwf, hst, haddr⟩ := htop h'
        refine ⟨tls', by rw [popSlot, hpop], hwf, ?_, ?_⟩
        · rw [h'.stack_eq] at hst
          exact (List.cons.inj hst).2.trans htail
        · rw [haddr]
          simp [addresses, pages]

omit [DecidableEq ω] in
theorem find?_address {l : List (AutoreleasePoolPage ω)} (hnodup : (l.map (·.address)).Nodup) {d : ℕ}
    {q : AutoreleasePoolPage ω} (hq : l[d]? = some q) : l.find? (·.address == q.address) = some q := by
  induction l generalizing d with
  | nil => simp at hq
  | cons p l ih =>
    rw [List.map_cons, List.nodup_cons] at hnodup
    cases d with
    | zero =>
      obtain rfl : p = q := by simpa using hq
      simp
    | succ d =>
      rw [List.getElem?_cons_succ] at hq
      have hne : p.address ≠ q.address := by
        intro heq
        exact hnodup.1 (heq ▸ List.mem_map_of_mem (List.mem_of_getElem? hq))
      rw [List.find?_cons_of_neg (by simpa using hne), ih hnodup.2 hq]

/-! ## `releaseUntil` -/

omit [DecidableEq ω] in
theorem getElem?_of_prefix {l l' : List ℕ} (h : l <+: l') {d address : ℕ} (hd : l[d]? = some address) :
    l'[d]? = some address := by
  obtain ⟨hlt, rfl⟩ := List.getElem?_eq_some_iff.mp hd
  exact List.prefix_iff_getElem?.mp h d hlt

/-- The variables of `releaseUntil`: the slots `b` at the bottom stay; what has been released so far and
what is above them are the objects there were with those that came up. -/
structure Draining (rt : Runtime ω W) (tls₀ : Tls ω) (w₀ : W) (a₀ b : List (Slot ω)) (s : Tls ω × W) :
    Prop where
  wf : Wf rt.capacity s.1
  kept : addresses tls₀ <+: addresses s.1
  drained : ∃ a rel, stack s.1 = a ++ b ∧ (a = [] ∨ Sealed a b) ∧ s.2 = (releaseAll rt rel w₀).1 ∧
    (rel : Multiset ω) + contents a = contents a₀ + (releaseAll rt rel w₀).2

/-- What is still to be released, with the height of the stack. -/
def remaining (b : List (Slot ω)) (s : Tls ω × W) : Multiset ω × ℕ :=
  (contents ((stack s.1).take ((stack s.1).length - b.length)), (stack s.1).length)

omit [DecidableEq ω] in
theorem remaining_eq {s : Tls ω × W} (h : stack s.1 = a ++ b) :
    remaining b s = (contents a, a.length + b.length) := by
  rw [remaining, h, List.length_append, Nat.add_sub_cancel, List.take_left]

omit [DecidableEq ω] in
/-- Below the hottest slot the bottom stays sealed, unless that slot was the boundary above it. -/
theorem Sealed.tail {slot : Slot ω} (h : Sealed (slot :: a) b) : Sealed a b ∨ slot = none ∧ a = [] := by
  rcases h with rfl | ⟨a', ha'⟩
  · exact Or.inl (Or.inl rfl)
  · cases a' with
    | nil => exact Or.inr (List.cons.inj ha')
    | cons x a' => exact Or.inl (Or.inr ⟨a', (List.cons.inj ha').2⟩)

/-- One turn: the loop is done, or it takes one slot off. -/
theorem Draining.halts_turn {tls₀ : Tls ω} {w₀ : W} {a₀ : List (Slot ω)} {address d i : ℕ} {s : Tls ω × W}
    (h : Draining rt tls₀ w₀ a₀ b s) (haddr : (addresses tls₀)[d]? = some address) (hi : i < rt.capacity)
    (hb : b.length = d * rt.capacity + i) :
    Halts (releaseTurn rt popSlot address i s) (Turn.Good
      (fun s' => Draining rt tls₀ w₀ a₀ b s' ∧ Cut (Spawns rt) (remaining b s') (remaining b s))
      (fun s' => Draining rt tls₀ w₀ a₀ b s' ∧ stack s'.1 = b)) := by
  have htwo := rt.two_le_capacity
  obtain ⟨tls, w⟩ := s
  obtain ⟨hwf, hprefix, a, rel, hstack, hseal, hw, hacc⟩ := h
  obtain ⟨q, hq, rfl⟩ : ∃ q, (pages tls)[d]? = some q ∧ q.address = address := by
    have hat := getElem?_of_prefix hprefix haddr
    simpa [addresses] using hat
  have hnodup := nodup_addresses hwf
  have hlen : q.slots.length = min rt.capacity (a.length + i) := by
    rw [length_slots hwf hq, hstack, List.length_append, hb]
    congr 1
    omega
  rw [releaseTurn, find?_address hnodup hq]
  dsimp only
  cases a with
  | nil =>
    rw [List.length_nil, Nat.zero_add, Nat.min_eq_right hi.le] at hlen
    rw [if_pos hlen]
    exact halts_pure ⟨⟨hwf, hprefix, [], rel, hstack, hseal, hw, hacc⟩, hstack⟩
  | cons slot a =>
    have hseal' := (hseal.resolve_left (by simp)).tail
    rw [if_neg (by rw [hlen, List.length_cons]; omega)]
    cases tls with
    | nil => simp [pages] at hq
    | emptyPoolPlaceholder => simp [pages] at hq
    | hotPage parents page children =>
      obtain ⟨tls', hpop, hwf', hstack', haddr'⟩ := popSlot_spec (show 0 < rt.capacity by omega) hwf hstack
      dsimp only
      rw [hpop]
      cases slot with
      | none =>
        refine halts_pure ⟨⟨hwf', haddr' ▸ hprefix, a, rel, hstack', ?_, hw, hacc⟩, ?_⟩
        · rcases hseal' with hseal' | ⟨-, ha⟩
          · exact Or.inr hseal'
          · exact Or.inl ha
        · rw [remaining_eq hstack', remaining_eq (s := (.hotPage parents page children, w)) hstack]
          exact cut_drop (by simp)
      | some entry =>
        have hsealed : Sealed a b := hseal'.resolve_right (by simp)
        obtain ⟨a', hst, hseal'', hcontents, hw', hwf'', haddr''⟩ :=
          releaseTimes_spec entry.ptr (entry.count + 1) w hwf' hstack' hsealed
        refine halts_pure ⟨⟨hwf'', (haddr' ▸ hprefix).trans haddr'',
          a', rel ++ List.replicate (entry.count + 1) entry.ptr, hst, Or.inr hseal'', ?_, ?_⟩, ?_⟩
        · rw [hw', releaseAll_append, ← hw]
        · rw [releaseAll_append, ← hw, ← Multiset.coe_add, Multiset.coe_replicate, hcontents,
            ← add_assoc (contents a₀), ← hacc, contents, AutoreleasePoolEntry.objects]
          simp only [add_assoc]
        · rw [remaining_eq hst, remaining_eq (s := (.hotPage parents page children, w)) hstack,
            hcontents, contents, add_comm entry.objects]
          exact cut_replicate fun o ho => spawns_of_mem_releaseAll rt ho

/-- **`releaseUntil`.** -/
theorem halts_releaseUntil (hspawns : WellFounded (Spawns rt)) {address d i : ℕ} (w : W)
    (hwf : Wf rt.capacity tls) (haddr : (addresses tls)[d]? = some address) (hi : i < rt.capacity)
    (hb : b.length = d * rt.capacity + i) (hstack : stack tls = a ++ b) (hseal : Sealed a b) :
    Halts (releaseUntil rt address i (tls, w)) fun s => Draining rt tls w a b s ∧ stack s.1 = b := by
  refine halts_loop_wf (InvImage.wf (remaining b) (wellFounded_cut hspawns)) (Draining rt tls w a b) _ ?_ ?_
  · intro s hs
    exact hs.halts_turn haddr hi hb
  · exact ⟨hwf, List.prefix_rfl, a, [], hstack, Or.inr hseal, rfl, by simp [releaseAll]⟩

/-! ## `pop` -/

/-- What `pop` is to do when `a` is above the token and `b` below it: the objects of `a` are released with
all that came up, the stack is `b`, the pages it is on are where they were,
and at most one more page is kept. -/
structure Popped (rt : Runtime ω W) (tls₀ : Tls ω) (w₀ : W) (a b : List (Slot ω)) (s : Tls ω × W) : Prop where
  wf : Wf rt.capacity s.1
  stack_eq : stack s.1 = b
  kept : ∀ d, d * rt.capacity ≤ b.length → (addresses s.1)[d]? = (addresses tls₀)[d]?
  length_le : (pages s.1).length ≤ (b.length + rt.capacity - 1) / rt.capacity + 1
  released : ∃ rel, s.2 = (releaseAll rt rel w₀).1 ∧
    (rel : Multiset ω) = contents a + (releaseAll rt rel w₀).2

omit [DecidableEq ω] in
theorem WfPages.killChildren {parents children : List (AutoreleasePoolPage ω)} {page : AutoreleasePoolPage ω}
    (h : WfPages rt.capacity parents page children) :
    WfPages rt.capacity parents page (killChildren rt page children) := by
  have hsub : (AutoreleasePool.killChildren rt page children).Sublist children := by
    unfold AutoreleasePool.killChildren
    split
    · exact List.nil_sublist _
    · exact List.take_sublist 1 children
  refine ⟨h.full, h.room, fun p hp => h.empty p (hsub.subset hp), ?_⟩
  refine h.nodup.sublist (List.Sublist.map _ ?_)
  exact (hsub.cons_cons page).append_left _

/-- **`popPage`.** -/
theorem halts_popPage (hspawns : WellFounded (Spawns rt)) {address d i : ℕ} (w : W) (hwf : Wf rt.capacity tls)
    (haddr : (addresses tls)[d]? = some address) (hi : i < rt.capacity) (hb : b.length = d * rt.capacity + i)
    (hstack : stack tls = a ++ b) (hseal : Sealed a b) :
    Halts (popPageWith rt popSlot address i (tls, w)) (Popped rt tls w a b) := by
  have htwo := rt.two_le_capacity
  refine halts_bind ((halts_releaseUntil hspawns w hwf haddr hi hb hstack hseal).mono ?_)
  rintro ⟨tls', w'⟩ ⟨⟨hwf', hkept, a', rel, hstack', -, hw', hacc⟩, hdone⟩
  obtain rfl : a' = [] := by
    rw [hstack'] at hdone
    simpa using hdone
  have haddr' := getElem?_of_prefix hkept haddr
  obtain ⟨q, hq, rfl⟩ : ∃ q, (pages tls')[d]? = some q ∧ q.address = address := by
    simpa [addresses] using haddr'
  obtain ⟨parents, children, hset, hpages, hlen, hslots, hsame, hst⟩ :=
    wf_setHotPage hwf' hq hi.le (by rw [hdone, hb])
  have hkill := hpages.killChildren
  dsimp only
  rw [hset]
  refine halts_pure ⟨hkill, ?_, ?_, ?_, rel, hw', ?_⟩
  · rw [← hdone, ← hst, hkill.stack_eq, hpages.stack_eq]
  · intro e he
    have hed : e < d + 1 := by
      by_contra hlt
      have hmul : (d + 1) * rt.capacity ≤ e * rt.capacity := Nat.mul_le_mul_right _ (by omega)
      rw [Nat.succ_mul] at hmul
      omega
    have hfront : ∀ l, (addresses (.hotPage parents q l))[e]? =
        ((parents.reverse ++ [q]).map (·.address))[e]? := by
      intro l
      rw [addresses, pages, List.append_cons, List.map_append, List.getElem?_append_left]
      simpa [hlen] using hed
    have hlt : e < (addresses tls).length := lt_of_lt_of_le hed (List.getElem?_eq_some_iff.mp haddr).1
    rw [hfront, ← hfront children, addresses, hsame, List.getElem?_eq_getElem hlt]
    exact getElem?_of_prefix hkept (List.getElem?_eq_getElem hlt)
  · have hcount : (pages (.hotPage parents q (killChildren rt q children))).length =
        d + 1 + (killChildren rt q children).length := by
      simp only [pages, List.length_append, List.length_reverse, List.length_cons, hlen]
      omega
    rw [hcount]
    rcases Nat.eq_zero_or_pos i with rfl | hpos
    · -- an empty hot page keeps no child
      have hchildren : killChildren rt q children = [] := if_pos (by rw [hslots]; omega)
      have hle : d ≤ (b.length + rt.capacity - 1) / rt.capacity :=
        (Nat.le_div_iff_mul_le (by omega)).mpr (by omega)
      rw [hchildren, List.length_nil]
      omega
    · have hchildren : (killChildren rt q children).length ≤ 1 := by
        unfold killChildren
        split
        · exact Nat.zero_le _
        · exact List.length_take_le 1 children
      have hle : d + 1 ≤ (b.length + rt.capacity - 1) / rt.capacity := by
        rw [Nat.le_div_iff_mul_le (by omega), Nat.succ_mul]
        omega
      omega
  · simpa [contents] using hacc

/-- `pop` of a slot that is a boundary or the first one of all. -/
theorem halts_popSlotOf (hspawns : WellFounded (Spawns rt)) {address d i : ℕ} (w : W)
    (hwf : Wf rt.capacity tls) (haddr : (addresses tls)[d]? = some address) (hi : i < rt.capacity)
    (hb : b.length = d * rt.capacity + i) (hstack : stack tls = a ++ b) (hseal : Sealed a b)
    (htoken : (∃ a', a = a' ++ [none]) ∨ d = 0 ∧ i = 0) :
    Halts (popSlotOf rt popSlot address i (tls, w)) (Popped rt tls w a b) := by
  obtain ⟨q, hq, rfl⟩ : ∃ q, (pages tls)[d]? = some q ∧ q.address = address := by
    simpa [addresses] using haddr
  have hset := setHotPage_of_getElem? (nodup_addresses hwf) hq []
  have hlt := (List.getElem?_eq_some_iff.mp hq).1
  have hvalid : q.slots.reverse[i]? = some none ∨ i = 0 ∧ ((pages tls).take d).reverse ++ [] = [] := by
    rcases htoken with ⟨a', rfl⟩ | ⟨rfl, rfl⟩
    · exact Or.inl (slot_of_height hwf hq hi (by rw [hstack, List.append_assoc]; rfl) hb)
    · exact Or.inr ⟨rfl, rfl⟩
  rw [popSlotOf, hset]
  dsimp only
  rw [if_pos hvalid]
  exact halts_popPage hspawns w hwf haddr hi hb hstack hseal

/-- **`pop`** of the token of a boundary. -/
theorem halts_pop (hspawns : WellFounded (Spawns rt)) {token : Token} (w : W) (hwf : Wf rt.capacity tls)
    (hstack : stack tls = a ++ none :: b) (htoken : Points rt.capacity tls b.length token) :
    Halts (pop rt token (tls, w)) (Popped rt tls w (a ++ [none]) b) := by
  have htwo := rt.two_le_capacity
  have hstack' : stack tls = (a ++ [none]) ++ b := by rw [hstack, List.append_assoc]; rfl
  cases token with
  | slot address i =>
    obtain ⟨d, haddr, hi, hb⟩ := htoken
    exact halts_popSlotOf hspawns w hwf haddr hi hb hstack' (Or.inr ⟨a, rfl⟩) (Or.inl ⟨a, rfl⟩)
  | emptyPoolPlaceholder =>
    obtain rfl : b = [] := List.length_eq_zero_iff.mp htoken
    cases tls with
    | nil => simp [stack] at hstack
    | emptyPoolPlaceholder =>
      obtain rfl : a = [] := by simpa [stack, List.append_eq_cons_iff] using hstack.symm
      exact halts_pure ⟨trivial, rfl, fun _ _ => rfl, Nat.zero_le _, [], rfl, rfl⟩
    | hotPage parents page children =>
      obtain ⟨cold, hcold⟩ : ∃ cold, (pages (.hotPage parents page children))[0]? = some cold := by
        cases h : (pages (.hotPage parents page children))[0]? with
        | none => simp [pages] at h
        | some cold => exact ⟨cold, rfl⟩
      rw [pop, popWith, List.head?_eq_getElem?, hcold]
      refine halts_popSlotOf (d := 0) hspawns w hwf ?_ (by omega) (by simp) hstack' (Or.inl rfl)
        (Or.inl ⟨a, rfl⟩)
      rw [addresses, List.getElem?_map, hcold]
      rfl

end Release

end QYInterview.ObjC.AutoreleasePool
