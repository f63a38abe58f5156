import QYInterview.Lib.Drain
import QYInterview.ObjC.AutoreleasePage

/-!
# ObjC.AutoreleasePool — the pages of a thread's autorelease pool

The stack of `AutoreleasePage` is kept on a chain of pages of fixed size; the thread's storage points to the
hot page. `push` and `autorelease` add a slot, with a new page where there is none, `pop` releases what is
above a token and keeps at most one empty page.  `Wf` says that the pages below the hot one are full and
those above it empty; the operations keep it and do to the stack what they do to its pages (`halts_push`,
`halts_releaseUntil`, `halts_popPage`).
-/

namespace QYInterview.ObjC.AutoreleasePool

open RunLogic Drain

universe u

/-- `AutoreleasePoolPage`: its address and the slots below `next`, from the hottest one to `begin()`. -/
structure AutoreleasePoolPage (ω : Type u) where
  address : ℕ
  slots : List (Slot ω)
  deriving DecidableEq, Repr

/-- What the thread's storage holds.  The parents of the hot page and its children are listed from it. -/
inductive Tls (ω : Type u)
  | nil
  | emptyPoolPlaceholder
  | hotPage (parents : List (AutoreleasePoolPage ω)) (page : AutoreleasePoolPage ω)
      (children : List (AutoreleasePoolPage ω))
  deriving DecidableEq, Repr

/-- The token of a pool: `EMPTY_POOL_PLACEHOLDER`, or the address of a slot. -/
inductive Token
  | emptyPoolPlaceholder
  | slot (address index : ℕ)
  deriving DecidableEq, Repr

/-- What the pool runs on: how many slots a page has, where new pages are, and what the release of an object
does, with the objects that are autoreleased meanwhile.  A release autoreleases only:
pools of its own are not in the model. -/
structure Runtime (ω W : Type u) where
  mode : Coalescing
  capacity : ℕ
  two_le_capacity : 2 ≤ capacity
  malloc : List ℕ → ℕ
  malloc_fresh : ∀ live, malloc live ∉ live
  objcRelease : ω → W → W × List ω

variable {ω W : Type u}

/-! ## The code -/

section Code

/-- The pages of the chain, the coldest one first. -/
def pages : Tls ω → List (AutoreleasePoolPage ω)
  | .hotPage parents page children => parents.reverse ++ page :: children
  | _ => []

/-- `setHotPage` of a page of the chain. -/
def setHotPage (address : ℕ) (parents : List (AutoreleasePoolPage ω)) :
    List (AutoreleasePoolPage ω) → Option (Tls ω)
  | [] => none
  | page :: children =>
    if page.address = address then some (.hotPage parents page children)
    else setHotPage address (page :: parents) children

/-- `while (page->empty())` and `*--page->next`: the hottest slot and the pages without it. -/
def popSlot : List (AutoreleasePoolPage ω) → AutoreleasePoolPage ω → List (AutoreleasePoolPage ω) →
    Option (Slot ω × Tls ω)
  | parents, ⟨address, slot :: slots⟩, children => some (slot, .hotPage parents ⟨address, slots⟩ children)
  | [], ⟨_, []⟩, _ => none
  | parent :: parents, ⟨address, []⟩, children => popSlot parents parent (⟨address, []⟩ :: children)

variable [DecidableEq ω] (rt : Runtime ω W)

/-- `page->add(obj)` on the hot page, with the address of the slot. -/
def addTo (obj : Option ω) (parents : List (AutoreleasePoolPage ω)) (page : AutoreleasePoolPage ω)
    (children : List (AutoreleasePoolPage ω)) : Tls ω × Token :=
  let slots := add rt.mode obj page.slots
  (.hotPage parents ⟨page.address, slots⟩ children, .slot page.address (slots.length - 1))

/-- `autoreleaseFullPage` -/
def autoreleaseFullPage (obj : Option ω) (parents : List (AutoreleasePoolPage ω))
    (page : AutoreleasePoolPage ω) :
    List (AutoreleasePoolPage ω) → Tls ω × Token
  | child :: children =>
    if child.slots.length = rt.capacity then autoreleaseFullPage obj (page :: parents) child children
    else addTo rt obj (page :: parents) child children
  | [] => addTo rt obj (page :: parents) ⟨rt.malloc ((page :: parents).map (·.address)), []⟩ []

/-- `autoreleaseNoPage` -/
def autoreleaseNoPage (obj : Option ω) (haveEmptyPoolPlaceholder : Bool) : Tls ω × Token :=
  if !haveEmptyPoolPlaceholder && obj.isNone then (.emptyPoolPlaceholder, .emptyPoolPlaceholder)
  else addTo rt obj [] ⟨rt.malloc [], if haveEmptyPoolPlaceholder then add rt.mode none [] else []⟩ []

/-- `autoreleaseFast` -/
def autoreleaseFast (obj : Option ω) : Tls ω → Tls ω × Token
  | .hotPage parents page children =>
    if page.slots.length = rt.capacity then autoreleaseFullPage rt obj parents page children
    else addTo rt obj parents page children
  | .emptyPoolPlaceholder => autoreleaseNoPage rt obj true
  | .nil => autoreleaseNoPage rt obj false

/-- `autorelease` -/
def autorelease (tls : Tls ω) (obj : ω) : Tls ω := (autoreleaseFast rt (some obj) tls).1

/-- `push` -/
def push (tls : Tls ω) : Tls ω × Token := autoreleaseFast rt none tls

/-- `objc_release(obj)`, so many times. -/
def releaseTimes (obj : ω) : ℕ → Tls ω × W → Tls ω × W
  | 0, s => s
  | n + 1, (tls, w) =>
    let (w, objs) := rt.objcRelease obj w
    releaseTimes obj n (objs.foldl (autorelease rt) tls, w)

/-- One turn of the loop of `releaseUntil`, where `next` goes to the hottest slot. -/
def releaseTurn
    (next : List (AutoreleasePoolPage ω) → AutoreleasePoolPage ω → List (AutoreleasePoolPage ω) →
      Option (Slot ω × Tls ω))
    (address stop : ℕ) (s : Tls ω × W) : Prog (Turn (Tls ω × W) (Tls ω × W)) :=
  match (pages s.1).find? (·.address == address) with
  | none => trap
  | some this =>
    if this.slots.length = stop then pure (.exit s)
    else match s.1 with
      | .hotPage parents page children =>
        match next parents page children with
        | none => trap
        | some (none, tls) => pure (.next (tls, s.2))
        | some (some entry, tls) => pure (.next (releaseTimes rt entry.ptr (entry.count + 1) (tls, s.2)))
      | _ => trap

/-- `releaseUntil`: until `next` of the page is at the slot `stop`. -/
def releaseUntilWith
    (next : List (AutoreleasePoolPage ω) → AutoreleasePoolPage ω → List (AutoreleasePoolPage ω) →
      Option (Slot ω × Tls ω))
    (address stop : ℕ) : Tls ω × W → Prog (Tls ω × W) :=
  loop (releaseTurn rt next address stop)

/-- `releaseUntil` -/
def releaseUntil (address stop : ℕ) : Tls ω × W → Prog (Tls ω × W) := releaseUntilWith rt popSlot address stop

/-- The end of `popPage`: `kill` of the children that are not kept. -/
def killChildren (page : AutoreleasePoolPage ω) (children : List (AutoreleasePoolPage ω)) :
    List (AutoreleasePoolPage ω) :=
  if page.slots.length < rt.capacity / 2 then [] else children.take 1

/-- `popPage` -/
def popPageWith
    (next : List (AutoreleasePoolPage ω) → AutoreleasePoolPage ω → List (AutoreleasePoolPage ω) →
      Option (Slot ω × Tls ω))
    (address stop : ℕ) (s : Tls ω × W) : Prog (Tls ω × W) := do
  let (tls, w) ← releaseUntilWith rt next address stop s
  match setHotPage address [] (pages tls) with
  | some (.hotPage parents page children) => pure (.hotPage parents page (killChildren rt page children), w)
  | _ => trap

/-- The rest of `pop` for a token of the page; `badPop` leaves everything as it is. -/
def popSlotOf
    (next : List (AutoreleasePoolPage ω) → AutoreleasePoolPage ω → List (AutoreleasePoolPage ω) →
      Option (Slot ω × Tls ω))
    (address stop : ℕ) (s : Tls ω × W) : Prog (Tls ω × W) :=
  match setHotPage address [] (pages s.1) with
  | some (.hotPage parents page _) =>
    if page.slots.reverse[stop]? = some none ∨ stop = 0 ∧ parents = [] then popPageWith rt next address stop s
    else pure s
  | _ => trap

/-- `pop`, where `next` goes to the hottest slot. -/
def popWith
    (next : List (AutoreleasePoolPage ω) → AutoreleasePoolPage ω → List (AutoreleasePoolPage ω) →
      Option (Slot ω × Tls ω))
    (token : Token) (s : Tls ω × W) : Prog (Tls ω × W) :=
  match token with
  | .slot address index => popSlotOf rt next address index s
  | .emptyPoolPlaceholder =>
    match (pages s.1).head? with
    | none => pure (.nil, s.2)
    | some coldPage => popSlotOf rt next coldPage.address 0 s

/-- `pop` -/
def pop (token : Token) (s : Tls ω × W) : Prog (Tls ω × W) := popWith rt popSlot token s

/-- `tls_dealloc`, which the thread runs when it ends, if its storage is not nil. -/
def tlsDealloc (s : Tls ω × W) : Prog (Tls ω × W) := do
  match (pages s.1).head? with
  | none => pure (.nil, s.2)
  | some coldPage =>
    let (_, w) ← if coldPage.slots.isEmpty then pure s else pop rt (.slot coldPage.address 0) s
    pure (.nil, w)

end Code

/-! ## The stack on the pages -/

/-- The slots of all pages, from the hottest one. -/
def stack : Tls ω → List (Slot ω)
  | .nil => []
  | .emptyPoolPlaceholder => [none]
  | .hotPage parents page children => (children.reverse ++ page :: parents).flatMap (·.slots)

/-- Where the pages are, the coldest one first. -/
def addresses (tls : Tls ω) : List ℕ := (pages tls).map (·.address)

/-- The pages below the hot one are full and those above it are empty. -/
structure WfPages (capacity : ℕ) (parents : List (AutoreleasePoolPage ω)) (page : AutoreleasePoolPage ω)
    (children : List (AutoreleasePoolPage ω)) : Prop where
  full : ∀ p ∈ parents, p.slots.length = capacity
  room : page.slots.length ≤ capacity
  empty : ∀ p ∈ children, p.slots = []
  nodup : (addresses (.hotPage parents page children)).Nodup

/-- The pages of a thread are in order. -/
def Wf (capacity : ℕ) : Tls ω → Prop
  | .hotPage parents page children => WfPages capacity parents page children
  | _ => True

variable {capacity : ℕ} {parents children : List (AutoreleasePoolPage ω)} {page : AutoreleasePoolPage ω}
    {tls : Tls ω}

theorem length_flatMap_slots {l : List (AutoreleasePoolPage ω)} (hl : ∀ p ∈ l, p.slots.length = capacity) :
    (l.flatMap (·.slots)).length = l.length * capacity := by
  induction l with
  | nil => simp
  | cons p l ih =>
    have hp := hl p (by simp)
    have hrest := ih fun q hq => hl q (by simp [hq])
    rw [List.flatMap_cons, List.length_append, hp, hrest, List.length_cons, Nat.succ_mul, add_comm]

theorem WfPages.stack_eq (h : WfPages capacity parents page children) :
    stack (.hotPage parents page children) = page.slots ++ parents.flatMap (·.slots) := by
  have hempty : children.reverse.flatMap (·.slots) = [] := by
    rw [List.flatMap_eq_nil_iff]
    intro p hp
    exact h.empty p (List.mem_reverse.mp hp)
  show (children.reverse ++ page :: parents).flatMap (·.slots) = _
  rw [List.flatMap_append, hempty, List.nil_append, List.flatMap_cons]

theorem WfPages.length_stack (h : WfPages capacity parents page children) :
    (stack (.hotPage parents page children)).length = page.slots.length + parents.length * capacity := by
  rw [h.stack_eq, List.length_append, length_flatMap_slots h.full]

theorem nodup_addresses (h : Wf capacity tls) : (addresses tls).Nodup := by
  cases tls with
  | hotPage parents page children => exact h.nodup
  | _ => exact List.nodup_nil

/-- How much of the stack is on the page of a given depth. -/
theorem length_slots (h : Wf capacity tls) {d : ℕ} {q : AutoreleasePoolPage ω}
    (hq : (pages tls)[d]? = some q) :
    q.slots.length = min capacity ((stack tls).length - d * capacity) := by
  cases tls with
  | nil => simp [pages] at hq
  | emptyPoolPlaceholder => simp [pages] at hq
  | hotPage parents page children =>
    have hlen := h.length_stack
    have hroom := h.room
    rcases lt_trichotomy d parents.length with hd | rfl | hd
    · have hmem : q ∈ parents := by
        rw [pages, List.getElem?_append_left (by simpa using hd)] at hq
        exact List.mem_reverse.mp (List.mem_of_getElem? hq)
      have hmul : (d + 1) * capacity ≤ parents.length * capacity := Nat.mul_le_mul_right _ hd
      rw [Nat.succ_mul] at hmul
      have hfull := h.full q hmem
      omega
    · have hpage : page = q := by simpa [pages] using hq
      subst hpage
      omega
    · have hmem : q ∈ children := by
        rw [pages, List.getElem?_append_right (by simpa using hd.le), List.length_reverse,
          show d - parents.length = (d - parents.length - 1) + 1 by omega, List.getElem?_cons_succ] at hq
        exact List.mem_of_getElem? hq
      have hmul : (parents.length + 1) * capacity ≤ d * capacity := Nat.mul_le_mul_right _ hd
      rw [Nat.succ_mul] at hmul
      have hnil := h.empty q hmem
      rw [hnil, List.length_nil]
      omega

theorem full_of_mem_take (h : Wf capacity tls) {d : ℕ} (hd : d * capacity ≤ (stack tls).length) :
    ∀ p ∈ (pages tls).take d, p.slots.length = capacity := by
  intro p hp
  obtain ⟨e, he⟩ := List.mem_iff_getElem?.mp hp
  obtain ⟨hed, hpe⟩ : e < d ∧ (pages tls)[e]? = some p := by
    rw [List.getElem?_take] at he
    split at he
    · exact ⟨‹_›, he⟩
    · cases he
  have hmul : (e + 1) * capacity ≤ d * capacity := Nat.mul_le_mul_right _ hed
  rw [Nat.succ_mul] at hmul
  have hlen := length_slots h hpe
  omega

theorem take_append_drop {l : List (AutoreleasePoolPage ω)} {d : ℕ} {q : AutoreleasePoolPage ω}
    (hq : l[d]? = some q) :
    l.take d ++ q :: l.drop (d + 1) = l := by
  obtain ⟨_, rfl⟩ := List.getElem?_eq_some_iff.mp hq
  rw [List.getElem_cons_drop, List.take_append_drop]

theorem stack_eq_flatMap {d : ℕ} {q : AutoreleasePoolPage ω} (hq : (pages tls)[d]? = some q) :
    stack tls = (pages tls).reverse.flatMap (·.slots) := by
  cases tls with
  | hotPage parents page children => simp [stack, pages]
  | _ => simp [pages] at hq

/-- The slot at a height is on the page of that depth. -/
theorem slot_of_height (h : Wf capacity tls) {d i : ℕ} {q : AutoreleasePoolPage ω}
    (hq : (pages tls)[d]? = some q) (hi : i < capacity) {a b : List (Slot ω)} {slot : Slot ω}
    (hstack : stack tls = a ++ slot :: b) (hb : b.length = d * capacity + i) :
    q.slots.reverse[i]? = some slot := by
  have hlen : (stack tls).length = a.length + (d * capacity + i + 1) := by
    rw [hstack, List.length_append, List.length_cons, hb]
  have hslots := length_slots h hq
  have hbelow : (((pages tls).take d).flatMap (List.reverse ∘ (·.slots))).length = d * capacity := by
    have hfull := length_flatMap_slots (full_of_mem_take h (d := d) (by omega))
    rw [List.length_take, Nat.min_eq_left (List.getElem?_eq_some_iff.mp hq).1.le] at hfull
    rw [← hfull, List.length_flatMap, List.length_flatMap]
    congr 2
    funext p
    exact List.length_reverse
  have hat : (stack tls).reverse[d * capacity + i]? = some slot := by
    rw [hstack, List.reverse_append, List.reverse_cons, List.append_assoc, ← hb,
      List.getElem?_append_right (by simp), List.length_reverse, Nat.sub_self]
    rfl
  rw [stack_eq_flatMap hq, List.reverse_flatMap, List.reverse_reverse, ← take_append_drop hq,
    List.flatMap_append, List.flatMap_cons, List.getElem?_append_right (by rw [hbelow]; omega), hbelow,
    Nat.add_sub_cancel_left] at hat
  rwa [List.getElem?_append_left] at hat
  show i < q.slots.reverse.length
  rw [List.length_reverse]
  omega

/-- What is on a page of a stack that becomes lower are the slots that were at the bottom of the page. -/
theorem suffix_slots {tls' : Tls ω} (h : Wf capacity tls) (h' : Wf capacity tls')
    (hstack : stack tls' <:+ stack tls) {d : ℕ} {p q : AutoreleasePoolPage ω}
    (hp : (pages tls)[d]? = some p) (hq : (pages tls')[d]? = some q) :
    q.slots <:+ p.slots := by
  obtain ⟨a, ha⟩ := hstack
  have hlen := length_slots h' hq
  rw [← List.reverse_prefix, List.prefix_iff_getElem?]
  intro i hi
  rw [List.length_reverse] at hi
  obtain ⟨x, slot, y, hsplit, hy⟩ : ∃ x slot y, stack tls' = x ++ slot :: y ∧
      y.length = d * capacity + i := by
    obtain ⟨n, hn⟩ := Nat.exists_eq_add_of_le' (show 1 + (d * capacity + i) ≤ (stack tls').length by omega)
    have hlt : n < (stack tls').length := by omega
    refine ⟨(stack tls').take n, (stack tls')[n], (stack tls').drop (n + 1), ?_, ?_⟩
    · rw [List.getElem_cons_drop, List.take_append_drop]
    · rw [List.length_drop]
      omega
  have hslot := slot_of_height h' hq (by omega) hsplit hy
  rw [List.getElem?_eq_getElem (by simpa using hi)] at hslot
  rw [slot_of_height h hp (by omega) (by rw [← ha, hsplit, List.append_assoc]) hy, hslot]

/-- `setHotPage` finds the page of an address. -/
theorem setHotPage_of_getElem? {l : List (AutoreleasePoolPage ω)} (hnodup : (l.map (·.address)).Nodup) {d : ℕ}
    {q : AutoreleasePoolPage ω} (hq : l[d]? = some q) (parents : List (AutoreleasePoolPage ω)) :
    setHotPage q.address parents l = some (.hotPage ((l.take d).reverse ++ parents) q (l.drop (d + 1))) := by
  induction l generalizing d parents with
  | nil => simp at hq
  | cons p l ih =>
    rw [List.map_cons, List.nodup_cons] at hnodup
    cases d with
    | zero =>
      obtain rfl : p = q := by simpa using hq
      simp [setHotPage]
    | succ d =>
      rw [List.getElem?_cons_succ] at hq
      have hne : p.address ≠ q.address := by
        intro heq
        exact hnodup.1 (heq ▸ List.mem_map_of_mem (List.mem_of_getElem? hq))
      rw [setHotPage, if_neg hne, ih hnodup.2 hq]
      simp

/-- After `setHotPage` of the page that the top of the stack is on, the pages are in order. -/
theorem wf_setHotPage (h : Wf capacity tls) {d i : ℕ} {q : AutoreleasePoolPage ω}
    (hq : (pages tls)[d]? = some q) (hi : i ≤ capacity) (hlen : (stack tls).length = d * capacity + i) :
    ∃ parents children, setHotPage q.address [] (pages tls) = some (.hotPage parents q children) ∧
      WfPages capacity parents q children ∧ parents.length = d ∧ q.slots.length = i ∧
      pages (.hotPage parents q children) = pages tls ∧ stack (.hotPage parents q children) = stack tls := by
  have hnodup := nodup_addresses h
  have hd : d < (pages tls).length := (List.getElem?_eq_some_iff.mp hq).1
  have hpages := take_append_drop hq
  have hstack := stack_eq_flatMap hq
  refine ⟨((pages tls).take d).reverse, (pages tls).drop (d + 1), ?_, ⟨?_, ?_, ?_, ?_⟩, ?_, ?_, ?_, ?_⟩
  · rw [setHotPage_of_getElem? hnodup hq, List.append_nil]
  · intro p hp
    exact full_of_mem_take h (by omega) p (List.mem_reverse.mp hp)
  · have := length_slots h hq
    omega
  · intro p hp
    obtain ⟨e, he⟩ := List.mem_iff_getElem?.mp hp
    rw [List.getElem?_drop] at he
    have hmul : (d + 1) * capacity ≤ (d + 1 + e) * capacity := Nat.mul_le_mul_right _ (by omega)
    rw [Nat.succ_mul] at hmul
    have := length_slots h he
    exact List.length_eq_zero_iff.mp (by omega)
  · show ((pages (.hotPage _ _ _)).map _).Nodup
    rw [pages, List.reverse_reverse, hpages]
    exact hnodup
  · rw [List.length_reverse, List.length_take]
    omega
  · have := length_slots h hq
    omega
  · rw [pages, List.reverse_reverse, hpages]
  · rw [hstack]
    conv_rhs => rw [← hpages]
    simp [stack]

/-! ## One more slot -/

/-- A token stands for a height of the stack. -/
def Points (capacity : ℕ) (tls : Tls ω) (h : ℕ) : Token → Prop
  | .emptyPoolPlaceholder => h = 0
  | .slot address index => ∃ d, (addresses tls)[d]? = some address ∧ index < capacity ∧
      h = d * capacity + index

/-- What `autoreleaseFast` is to do: the slot is on the stack, no page is lost,
and the token of a boundary is right. -/
structure Extended (capacity : ℕ) (slot : Option ω) (tls : Tls ω) (r : Tls ω × Token) : Prop where
  wf : Wf capacity r.1
  pushed : Pushed slot (stack tls) (stack r.1)
  addresses : addresses tls <+: addresses r.1
  token : slot = none → Points capacity r.1 (stack tls).length r.2

theorem Extended.of_stack_eq {slot : Option ω} {tls' : Tls ω} {r : Tls ω × Token}
    (h : Extended capacity slot tls r) (hstack : stack tls = stack tls')
    (haddr : AutoreleasePool.addresses tls' <+: AutoreleasePool.addresses tls) :
    Extended capacity slot tls' r := by
  refine ⟨h.wf, hstack ▸ h.pushed, haddr.trans h.addresses, ?_⟩
  rw [← hstack]
  exact h.token

/-- A full hot page gives way to its child. -/
theorem WfPages.child {child : AutoreleasePoolPage ω} (h : WfPages capacity parents page (child :: children))
    (hfull : page.slots.length = capacity) : WfPages capacity (page :: parents) child children := by
  refine ⟨?_, ?_, ?_, ?_⟩
  · intro p hp
    rcases List.mem_cons.mp hp with rfl | hp
    · exact hfull
    · exact h.full p hp
  · simp [h.empty child (by simp)]
  · intro p hp
    exact h.empty p (by simp [hp])
  · simpa [addresses, pages] using h.nodup

/-- A full hot page without a child gives way to a new page. -/
theorem WfPages.new (h : WfPages capacity parents page []) (hfull : page.slots.length = capacity)
    {address : ℕ} (hfresh : address ∉ (page :: parents).map (·.address)) :
    WfPages capacity (page :: parents) ⟨address, []⟩ [] := by
  refine ⟨?_, Nat.zero_le _, by simp, ?_⟩
  · intro p hp
    rcases List.mem_cons.mp hp with rfl | hp
    · exact hfull
    · exact h.full p hp
  · have hnodup := h.nodup
    have hlist : addresses (.hotPage (page :: parents) ⟨address, []⟩ []) =
        addresses (.hotPage parents page []) ++ [address] := by
      simp [addresses, pages]
    rw [hlist]
    refine hnodup.append (by simp) ?_
    rw [List.disjoint_singleton]
    simpa [addresses, pages, or_comm] using hfresh

section Specs

variable [DecidableEq ω] {rt : Runtime ω W} {slot : Option ω}

theorem extended_addTo (h : WfPages rt.capacity parents page children)
    (hroom : page.slots.length < rt.capacity) :
    Extended rt.capacity slot (.hotPage parents page children) (addTo rt slot parents page children) := by
  have hadd := length_add_le rt.mode slot page.slots
  have hwf : WfPages rt.capacity parents ⟨page.address, add rt.mode slot page.slots⟩ children := by
    refine ⟨h.full, ?_, h.empty, ?_⟩
    · show (add rt.mode slot page.slots).length ≤ rt.capacity
      omega
    · simpa [addresses, pages] using h.nodup
  refine ⟨hwf, ?_, ?_, ?_⟩
  · show Pushed slot _ (stack (.hotPage _ _ _))
    rw [h.stack_eq, hwf.stack_eq]
    exact (pushed_add rt.mode slot page.slots).append _
  · rw [show addresses (addTo rt slot parents page children).1 = addresses (.hotPage parents page children) by
      simp [addTo, addresses, pages]]
  · rintro rfl
    refine ⟨parents.length, ?_, ?_, ?_⟩
    · simp [addTo, addresses, pages]
    · simpa [add] using hroom
    · rw [h.length_stack]
      simp [add, add_comm]

theorem extended_autoreleaseFullPage (h : WfPages rt.capacity parents page children)
    (hfull : page.slots.length = rt.capacity) :
    Extended rt.capacity slot (.hotPage parents page children)
      (autoreleaseFullPage rt slot parents page children) := by
  have htwo := rt.two_le_capacity
  cases children with
  | nil =>
    have hfresh := rt.malloc_fresh ((page :: parents).map (·.address))
    refine (extended_addTo (h.new hfull hfresh) (show 0 < rt.capacity by omega)).of_stack_eq ?_ ?_
    · simp [stack]
    · simp [addresses, pages]
  | cons child children =>
    have hempty := h.empty child (by simp)
    have hroom : child.slots.length < rt.capacity := by
      rw [hempty, List.length_nil]
      omega
    rw [autoreleaseFullPage, if_neg hroom.ne]
    refine (extended_addTo (h.child hfull) hroom).of_stack_eq ?_ ?_
    · simp [stack]
    · simp [addresses, pages]

/-- **`autoreleaseFast`.** -/
theorem extended_autoreleaseFast (slot : Option ω) (h : Wf rt.capacity tls) :
    Extended rt.capacity slot tls (autoreleaseFast rt slot tls) := by
  have htwo := rt.two_le_capacity
  have hfirst : ∀ slots : List (Slot ω), slots.length < 2 →
      Extended rt.capacity slot (.hotPage [] ⟨rt.malloc [], slots⟩ [])
        (addTo rt slot [] ⟨rt.malloc [], slots⟩ []) := by
    intro slots hslots
    have hlt : slots.length < rt.capacity := by omega
    exact extended_addTo ⟨by simp, hlt.le, by simp, by simp [addresses, pages]⟩ hlt
  cases tls with
  | nil =>
    cases slot with
    | none => exact ⟨trivial, rfl, List.prefix_rfl, fun _ => rfl⟩
    | some obj =>
      refine (hfirst [] (by simp)).of_stack_eq (by simp [stack]) ?_
      exact List.nil_prefix
  | emptyPoolPlaceholder =>
    refine (hfirst [none] (by simp)).of_stack_eq (by simp [stack]) ?_
    exact List.nil_prefix
  | hotPage parents page children =>
    by_cases hfull : page.slots.length = rt.capacity
    · rw [autoreleaseFast, if_pos hfull]
      exact extended_autoreleaseFullPage h hfull
    · rw [autoreleaseFast, if_neg hfull]
      exact extended_addTo h (lt_of_le_of_ne h.room hfull)

end Specs

end QYInterview.ObjC.AutoreleasePool
