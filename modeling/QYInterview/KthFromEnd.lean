import QYInterview.ListNode
import QYInterview.Swift

/-!
# KthFromEnd — the k-th node from the end, and its removal

`KthFromEndController.swift` and `RemoveNthFromEndController.swift`.  With `L` nodes the k-th from the end
is the one at position `L - k`: one routine collects the nodes in an array, the other two lead a fast
pointer `k` links ahead of a slow one, from the head or from a node in front of it.  A fast pointer that
runs past the end stays at nil, so for `k > L` the slow one stays where it started.
-/

namespace QYInterview.KthFromEnd

open RunLogic Linked Swift

variable {α : Type}

/-! ## The code -/

/-- `while temp != nil { list.append(temp!); temp = temp?.next }` -/
def collectTurn (h : Heap α) : Option α × List α → Prog (Turn (Option α × List α) (List α))
  | (some temp, list) => pure (.next (h.next temp, list ++ [temp]))
  | (none, list) => pure (.exit list)

/-- The nodes in an array. -/
def getKthFromEnd (h : Heap α) (head : Option α) (k : ℤ) : Prog (Option α) :=
  match head with
  | none => pure none
  | some head => do
    let list ← loop (collectTurn h) (some head, [])
    return some (← get list (list.length - k))

/-- `while fastK != 0 { fast = fast?.next; fastK -= 1 }` -/
def aheadTurn (h : Heap α) : Option α × ℤ → Prog (Turn (Option α × ℤ) (Option α))
  | (fast, fastK) =>
    if fastK ≠ 0 then pure (.next (h.next? fast, fastK - 1)) else pure (.exit fast)

/-- `while fast != nil { fast = fast?.next; slow = slow?.next }` -/
def togetherTurn (h : Heap α) : Option α × Option α → Prog (Turn (Option α × Option α) (Option α))
  | (fast, slow) =>
    if fast.isSome then pure (.next (h.next? fast, h.next? slow)) else pure (.exit slow)

/-- A fast and a slow pointer. -/
def getKthFromEnd1 (h : Heap α) (head : Option α) (k : ℤ) : Prog (Option α) :=
  match head with
  | none => pure none
  | some head => do
    let fast ← loop (aheadTurn h) (some head, k)
    loop (togetherTurn h) (fast, some head)

/-- `while fast?.next != nil { fast = fast?.next; slow = slow?.next }` -/
def beforeTurn (h : Heap α) : Option α × Option α → Prog (Turn (Option α × Option α) (Option α))
  | (fast, slow) =>
    if (h.next? fast).isSome then pure (.next (h.next? fast, h.next? slow)) else pure (.exit slow)

/-- The new head and the heap; `dummyHead` is the new node. -/
def removeNthFromEnd [DecidableEq α] (h : Heap α) (dummyHead : α) (head : Option α) (n : ℤ) :
    Prog (Option α × Heap α) :=
  if head.isNone ∨ n = 0 then pure (head, h)
  else do
    let h := h.alloc dummyHead (-1) head
    let fast ← forRange 0 n (fun fast _ => pure (h.next? fast)) (some dummyHead)
    let slow ← loop (beforeTurn h) (fast, some dummyHead)
    let h := h.setNext slow (h.next? (h.next? slow))
    return (h.next dummyHead, h)

/-! ## Two pointers with a gap -/

section Pointers

variable {h : Heap α} {r : Option α} {ns : List α}

theorem loopReturns_collect : ∀ (ns : List α) (r : Option α) (list : List α), h.IsList r ns →
    LoopReturns (collectTurn h) (r, list) (list ++ ns)
  | [], r, list, hr => by
    have hr : r = none := hr
    subst hr
    rw [List.append_nil]
    exact loopReturns_exit (returns_pure _)
  | a :: ns, r, list, hr => by
    obtain ⟨rfl, hr'⟩ := hr
    have ih := loopReturns_collect ns (h.next a) (list ++ [a]) hr'
    rw [List.append_assoc] at ih
    exact loopReturns_next (returns_pure _) ih

theorem loopReturns_ahead (h : Heap α) (k : ℕ) (r : Option α) :
    LoopReturns (aheadTurn h) (r, (k : ℤ)) (walk h.next r k) := by
  induction k generalizing r with
  | zero => exact loopReturns_exit (returns_pure _)
  | succ k ih =>
    have hturn : aheadTurn h (r, ((k + 1 : ℕ) : ℤ)) = pure (.next (h.next? r, (k : ℤ))) := by
      simp only [aheadTurn, Nat.cast_succ, add_sub_cancel_right]
      rw [if_pos (by omega)]
    refine loopReturns_next (hturn ▸ returns_pure _) ?_
    rw [walk_add]
    exact ih (h.next? r)

/-- With the fast pointer `k` links ahead and a test that looks `e` further links on, the slow pointer stops
`e + k` nodes before the end. -/
theorem returns_follow {turn : Option α × Option α → Prog (Turn (Option α × Option α) (Option α))} (e : ℕ)
    (hturn : ∀ fast slow, turn (fast, slow) = if (walk h.next fast e).isSome
      then pure (.next (h.next? fast, h.next? slow)) else pure (.exit slow))
    (hr : h.IsList r ns) (k : ℕ) : Returns (loop turn (walk h.next r k, r)) ns[ns.length - e - k]? := by
  have hahead : ∀ t, walk h.next (walk h.next r (k + t)) e = ns[e + (k + t)]? := fun t => by
    rw [← walk_add, walk_eq hr]
  rw [← walk_eq hr]
  refine returns_loop_trace (fun t => (walk h.next r (k + t), walk h.next r t)) (ns.length - e - k)
    (fun t ht => ?_) ?_
  · have hsome : (ns[e + (k + t)]?).isSome := by
      rw [List.getElem?_eq_getElem (by omega)]
      rfl
    rw [hturn, hahead, if_pos hsome, Heap.next?_walk, Heap.next?_walk]
    exact returns_pure _
  · have hnone : ns[e + (k + (ns.length - e - k))]? = none := List.getElem?_eq_none (by omega)
    rw [hturn, hahead, hnone]
    exact returns_pure _

theorem returns_together (hr : h.IsList r ns) (k : ℕ) :
    Returns (loop (togetherTurn h) (walk h.next r k, r)) ns[ns.length - k]? :=
  returns_follow 0 (fun _ _ => rfl) hr k

/-- One node earlier, as the test looks at the node behind the fast pointer. -/
theorem returns_before (hr : h.IsList r ns) (n : ℕ) :
    Returns (loop (beforeTurn h) (walk h.next r n, r)) ns[ns.length - 1 - n]? :=
  returns_follow 1 (fun _ _ => rfl) hr n

theorem returns_steps (h : Heap α) (r : Option α) (n : ℕ) :
    Returns (forRange 0 n (fun fast _ => pure (h.next? fast)) r) (walk h.next r n) := by
  obtain ⟨fast, hret, rfl⟩ : Halts (forRange 0 n (fun fast _ => pure (h.next? fast)) r)
      (· = walk h.next r n) := by
    refine halts_forRange (Nat.zero_le n) (fun i fast => fast = walk h.next r i) (fun i fast _ _ hI => ?_) rfl
    exact halts_pure (by rw [hI, Heap.next?_walk])
  exact hret

end Pointers

/-! ## The three routines -/

section Routines

variable {h : Heap α} {head : Option α} {ns : List α}

/-- The array routine reads position `L - k`. -/
theorem returns_getKthFromEnd (hl : h.IsList head ns) {k : ℕ} (hk : k ≤ ns.length) (hk0 : 1 ≤ k) :
    Returns (getKthFromEnd h head k) ns[ns.length - k]? := by
  cases head with
  | none =>
    obtain rfl : ns = [] := chain_unique hl rfl
    exact returns_pure _
  | some a =>
    have hget := List.getElem?_eq_getElem (show ns.length - k < ns.length by omega)
    have hread := get_eq hget
    rw [Nat.cast_sub hk] at hread
    have hcollect := (loopReturns_collect ns (some a) [] hl).returns
    rw [hget]
    refine returns_bind hcollect ?_
    rw [List.nil_append, hread, pure_bind]
    exact returns_pure _

/-- It reads in front of the array when there are fewer than `k` nodes. -/
theorem traps_getKthFromEnd {a : α} (hl : h.IsList (some a) ns) {k : ℕ} (hk : ns.length < k) :
    Traps (getKthFromEnd h (some a) k) := by
  have hcollect := (loopReturns_collect ns (some a) [] hl).returns
  refine traps_bind hcollect ?_
  rw [List.nil_append, get_neg (by omega)]
  exact traps_trap

theorem returns_getKthFromEnd1 (hl : h.IsList head ns) (k : ℕ) :
    Returns (getKthFromEnd1 h head k) ns[ns.length - k]? := by
  cases head with
  | none =>
    obtain rfl : ns = [] := chain_unique hl rfl
    exact returns_pure _
  | some a => exact returns_bind (loopReturns_ahead h k (some a)).returns (returns_together hl k)

/-- For `n ≥ 1` the node at position `L - n` is unlinked, and the first one when `n` is larger. -/
theorem returns_removeNthFromEnd [DecidableEq α] (hl : h.IsList head ns) (hne : ns ≠ []) {dummyHead : α}
    (hfresh : dummyHead ∉ ns) {n : ℕ} (hn : 1 ≤ n) :
    ∃ head' h', Returns (removeNthFromEnd h dummyHead head n) (head', h') ∧
      h'.IsList head' (ns.eraseIdx (ns.length - n)) ∧ ∀ a ∈ ns, h'.val a = h.val a := by
  have hhead : ¬ (head.isNone ∨ (n : ℤ) = 0) := by
    rintro (hnone | h0)
    · rw [Option.isNone_iff_eq_none.mp hnone] at hl
      exact hne (chain_unique hl rfl)
    · omega
  have hpos := List.length_pos_of_ne_nil hne
  set h₁ := h.alloc dummyHead (-1) head with hh₁
  have hl₁ : h₁.IsList (some dummyHead) (dummyHead :: ns) := h.isList_alloc hfresh hl (-1)
  -- the slow pointer ends at the node in front of position `L - n`
  have hslow := returns_before hl₁ n
  rw [List.length_cons, Nat.add_sub_cancel] at hslow
  set p := ns.length - n with hp
  obtain ⟨a, ha⟩ : ∃ a, (dummyHead :: ns)[p]? = some a :=
    ⟨_, List.getElem?_eq_getElem (by rw [List.length_cons]; omega)⟩
  obtain ⟨b, hb⟩ : ∃ b, (dummyHead :: ns)[p + 1]? = some b :=
    ⟨_, List.getElem?_eq_getElem (by rw [List.length_cons]; omega)⟩
  have hab : h₁.next a = some b := by
    have hstep := h₁.next?_walk (some dummyHead) p
    rwa [walk_eq hl₁, walk_eq hl₁, ha, hb] at hstep
  have herase := chain_eraseIdx hl₁ ha hb
  rw [List.eraseIdx_cons_succ] at herase
  refine ⟨_, h₁.setNext (some a) (h₁.next b), ?_, herase.2, fun c hc => ?_⟩
  · rw [removeNthFromEnd, if_neg hhead, ← hh₁]
    refine returns_bind (returns_steps h₁ (some dummyHead) n) (returns_bind hslow ?_)
    rw [ha, Heap.next?_some, hab, Heap.next?_some]
    exact returns_pure _
  · rw [Heap.setNext_val]
    exact h.alloc_val_of_ne (by rintro rfl; exact hfresh hc) _ _

/-- The routine gives the list back as it was. -/
def Keeps (h : Heap α) (head : Option α) (ns : List α) (p : Prog (Option α × Heap α)) : Prop :=
  ∃ h', Returns p (head, h') ∧ ∀ a ∈ ns, h'.val a = h.val a ∧ h'.next a = h.next a

/-- For a position beyond the list only nil is given back as it was: otherwise the head is unlinked. -/
theorem keeps_iff [DecidableEq α] (hl : h.IsList head ns) {dummyHead : α} (hfresh : dummyHead ∉ ns)
    {n : ℕ} (hn : ns.length < n) : Keeps h head ns (removeNthFromEnd h dummyHead head n) ↔ head = none := by
  constructor
  · rintro ⟨h', hret, hkeep⟩
    by_contra hhead
    have hne : ns ≠ [] := by
      rintro rfl
      exact hhead hl
    obtain ⟨head₁, h₁, hret₁, hl₁, -⟩ := returns_removeNthFromEnd hl hne hfresh (show 1 ≤ n by omega)
    obtain ⟨rfl, rfl⟩ : head₁ = head ∧ h₁ = h' := Prod.ext_iff.mp (hret₁.unique hret)
    have hsame : h₁.IsList head₁ ns := (path_congr fun a ha => (hkeep a ha).2).mpr hl
    have hlen := congrArg List.length (chain_unique hsame hl₁)
    have hpos := List.length_pos_of_ne_nil hne
    rw [List.length_eraseIdx_of_lt (by omega)] at hlen
    omega
  · rintro rfl
    refine ⟨h, ?_, fun _ _ => ⟨rfl, rfl⟩⟩
    rw [removeNthFromEnd, if_pos (Or.inl Option.isNone_none)]
    exact returns_pure _

end Routines

/-- For `1 ≤ k ≤ L` the two searches return the node with `k - 1` nodes behind it, and the removal gives the
list without that node. -/
theorem kthFromEnd_spec [DecidableEq α] (h : Heap α) (head : Option α) (ns : List α) (dummyHead : α) (k : ℕ)
    (hl : h.IsList head ns) (hfresh : dummyHead ∉ ns) (hk0 : 1 ≤ k) (hk : k ≤ ns.length) :
    ∃ front a back, ns = front ++ a :: back ∧ back.length = k - 1 ∧
      Returns (getKthFromEnd h head k) (some a) ∧ Returns (getKthFromEnd1 h head k) (some a) ∧
      ∃ head' h', Returns (removeNthFromEnd h dummyHead head k) (head', h') ∧
        h'.IsList head' (front ++ back) ∧ ∀ b ∈ ns, h'.val b = h.val b := by
  have hlt : ns.length - k < ns.length := by omega
  have hget := List.getElem?_eq_getElem hlt
  have hne : ns ≠ [] := List.ne_nil_of_length_pos (by omega)
  refine ⟨ns.take (ns.length - k), ns[ns.length - k], ns.drop (ns.length - k + 1), ?_, ?_, ?_, ?_, ?_⟩
  · rw [← List.drop_eq_getElem_cons hlt, List.take_append_drop]
  · rw [List.length_drop]
    omega
  · rw [← hget]
    exact returns_getKthFromEnd hl hk hk0
  · rw [← hget]
    exact returns_getKthFromEnd1 hl k
  · rw [← List.eraseIdx_eq_take_drop_succ]
    exact returns_removeNthFromEnd hl hne hfresh hk0

/-- The head of two nodes, with a third one for the removal. -/
theorem kthFromEnd_spec_two :
    (⟨fun _ => 5, ![some 1, none, some 0]⟩ : Heap (Fin 3)).IsList (some 0) [0, 1] ∧
    ∃ front a back, [(0 : Fin 3), 1] = front ++ a :: back ∧ back.length = 2 - 1 ∧
      Returns (getKthFromEnd ⟨fun _ => 5, ![some 1, none, some 0]⟩ (some 0) (2 : ℕ)) (some a) ∧
      Returns (getKthFromEnd1 ⟨fun _ => 5, ![some 1, none, some 0]⟩ (some 0) (2 : ℕ)) (some a) ∧
      ∃ head' h', Returns (removeNthFromEnd ⟨fun _ => 5, ![some 1, none, some 0]⟩ 2 (some 0) (2 : ℕ))
          (head', h') ∧ h'.IsList head' (front ++ back) ∧ ∀ b ∈ [(0 : Fin 3), 1], h'.val b = 5 :=
  ⟨⟨rfl, rfl, rfl⟩, kthFromEnd_spec _ (some 0) [0, 1] 2 2 ⟨rfl, rfl, rfl⟩ (by decide) (by decide) (by decide)⟩

/-- For `k > L` the searches return nil, and the removal keeps the list, exactly on the list nil; for
`k = 0` the removal always keeps it. -/
theorem kthFromEnd_beyond [DecidableEq α] (h : Heap α) (head : Option α) (ns : List α) (dummyHead : α)
    (k : ℕ) (hl : h.IsList head ns) (hfresh : dummyHead ∉ ns) (hk : ns.length < k) :
    (Returns (getKthFromEnd h head k) none ↔ head = none) ∧
      (Returns (getKthFromEnd1 h head k) none ↔ head = none) ∧
      (Keeps h head ns (removeNthFromEnd h dummyHead head k) ↔ head = none) ∧
      Keeps h head ns (removeNthFromEnd h dummyHead head 0) := by
  refine ⟨⟨fun hret => ?_, ?_⟩, ⟨fun hret => ?_, ?_⟩, keeps_iff hl hfresh hk, h, ?_, fun _ _ => ⟨rfl, rfl⟩⟩
  · cases head with
    | none => rfl
    | some a => exact absurd hret (traps_getKthFromEnd hl hk).not_returns
  · rintro rfl
    exact returns_pure _
  · have hfirst := returns_getKthFromEnd1 hl k
    rw [Nat.sub_eq_zero_of_le hk.le, ← walk_eq hl] at hfirst
    exact hfirst.unique hret
  · rintro rfl
    exact returns_pure _
  · rw [removeNthFromEnd, if_pos (Or.inr rfl)]
    exact returns_pure _

/-- One node and `k = 2`. -/
theorem kthFromEnd_beyond_one :
    (⟨fun _ => 5, fun _ => none⟩ : Heap (Fin 2)).IsList (some 0) [0] ∧
    (Returns (getKthFromEnd ⟨fun _ => 5, fun _ => none⟩ (some (0 : Fin 2)) (2 : ℕ)) none ↔
        some (0 : Fin 2) = none) ∧
      (Returns (getKthFromEnd1 ⟨fun _ => 5, fun _ => none⟩ (some (0 : Fin 2)) (2 : ℕ)) none ↔
        some (0 : Fin 2) = none) ∧
      (Keeps ⟨fun _ => 5, fun _ => none⟩ (some 0) [0]
          (removeNthFromEnd ⟨fun _ => 5, fun _ => none⟩ (1 : Fin 2) (some 0) (2 : ℕ)) ↔
        some (0 : Fin 2) = none) ∧
      Keeps ⟨fun _ => 5, fun _ => none⟩ (some 0) [0]
        (removeNthFromEnd ⟨fun _ => 5, fun _ => none⟩ (1 : Fin 2) (some 0) 0) :=
  ⟨⟨rfl, rfl⟩, kthFromEnd_beyond ⟨fun _ => 5, fun _ => none⟩ (some 0) [0] 1 2 ⟨rfl, rfl⟩ (by decide)
    (by decide)⟩

/-- One node and `k = 2`: the array is read at `-1`, the slow pointer is the head, and the head is
unlinked. -/
theorem kthFromEnd_beyond_fails :
    ¬ Returns (getKthFromEnd ⟨fun _ => 5, fun _ => none⟩ (some (0 : Fin 2)) 2) none ∧
      ¬ Returns (getKthFromEnd1 ⟨fun _ => 5, fun _ => none⟩ (some (0 : Fin 2)) 2) none ∧
      ¬ Keeps ⟨fun _ => 5, fun _ => none⟩ (some 0) [0]
        (removeNthFromEnd ⟨fun _ => 5, fun _ => none⟩ (1 : Fin 2) (some 0) 2) := by
  have hl : (⟨fun _ => 5, fun _ => none⟩ : Heap (Fin 2)).IsList (some 0) [0] := ⟨rfl, rfl⟩
  refine ⟨(traps_getKthFromEnd hl (show 1 < 2 by decide)).not_returns, fun hret => ?_, fun hkeep => ?_⟩
  · exact Option.some_ne_none _ ((returns_getKthFromEnd1 hl 2).unique hret)
  · exact Option.some_ne_none _ ((keeps_iff hl (by decide) (show 1 < 2 by decide)).mp hkeep)

end QYInterview.KthFromEnd
