import QYInterview.ListNode

/-!
# IntersectionNode — the first common node (`NodeList/IntersectionNodeController.swift`)

Two lists of one heap are apart up to a common rest `S` (`chain_join`): `la = pa ++ S`,
`lb = pb ++ S`, no node of `pa` in `lb` and none of `pb` in `la`.  The first common node is the first
of `S`.  `getIntersectionNode` drops the surplus of the longer list, after which both references reach
`S` together.  `getIntersectionNode1` sends each reference through its own list, nil, and the other
list (`route`); unless `pa` and `pb` have one length the two routes never agree before both have
gone `|pa| + |S| + 1 + |pb|` steps.
-/

namespace QYInterview.IntersectionNode

open RunLogic Linked

/-! ## Model -/

section Model

variable {α : Type} [DecidableEq α]

/-- `while headALength != headBLength`; the second test sees the first one's assignment. -/
def equalizeTurn (h : Heap α) : ℤ × ℤ × Option α × Option α →
    Prog (Turn (ℤ × ℤ × Option α × Option α) (Option α × Option α))
  | (headALength, headBLength, headA, headB) =>
    if headALength ≠ headBLength then
      let (headA, headALength) :=
        if headALength > headBLength then (h.next? headA, headALength - 1)
        else (headA, headALength)
      let (headB, headBLength) :=
        if headALength < headBLength then (h.next? headB, headBLength - 1)
        else (headB, headBLength)
      pure (.next (headALength, headBLength, headA, headB))
    else pure (.exit (headA, headB))

/-- `while headA != headB` -/
def meetTurn (h : Heap α) : Option α × Option α → Prog (Turn (Option α × Option α) (Option α))
  | (headA, headB) =>
    if headA ≠ headB then pure (.next (h.next? headA, h.next? headB))
    else pure (.exit headA)

def getIntersectionNode (h : Heap α) (headA headB : α) : Prog (Option α) := do
  let headALength ← h.length headA
  let headBLength ← h.length headB
  let (headA, headB) ← loop (equalizeTurn h) (headALength, headBLength, some headA, some headB)
  loop (meetTurn h) (headA, headB)

/-- `while tempA != tempB` -/
def switchTurn (h : Heap α) (headA headB : α) :
    Option α × Option α → Prog (Turn (Option α × Option α) (Option α))
  | (tempA, tempB) =>
    if tempA ≠ tempB then
      let tempA := if tempA = none then some headB else h.next? tempA
      let tempB := if tempB = none then some headA else h.next? tempB
      pure (.next (tempA, tempB))
    else pure (.exit tempA)

def getIntersectionNode1 (h : Heap α) (headA headB : α) : Prog (Option α) :=
  loop (switchTurn h headA headB) (some headA, some headB)

end Model

/-! ## Two lists with a common rest -/

variable {α : Type}

/-- `la` and `lb` are apart up to the common rest `S`. -/
structure Joined (la lb pa pb S : List α) : Prop where
  eqA : la = pa ++ S
  eqB : lb = pb ++ S
  apartA : ∀ x ∈ pa, x ∉ lb
  apartB : ∀ x ∈ pb, x ∉ la
  nodup : S.Nodup
  nodupB : lb.Nodup

section Joined

variable {la lb pa pb S : List α}

theorem exists_joined {h : Heap α} {ra rb : Option α} (ha : h.IsList ra la) (hb : h.IsList rb lb) :
    ∃ pa pb S, Joined la lb pa pb S ∧ Joined lb la pb pa S := by
  obtain ⟨pa, pb, S, hA, hB, hpa, hpb⟩ := chain_join ha hb
  have hna := chain_nodup ha
  have hnb := chain_nodup hb
  have hS : S.Nodup := (List.nodup_append.mp (hA ▸ hna)).2.1
  exact ⟨pa, pb, S, ⟨hA, hB, hpa, hpb, hS, hnb⟩, ⟨hB, hA, hpb, hpa, hS, hna⟩⟩

variable (hj : Joined la lb pa pb S)
include hj

/-- The first node of `la` that is in `lb` is the first of the common rest. -/
theorem Joined.find [DecidableEq α] : la.find? (fun x => decide (x ∈ lb)) = S.head? := by
  have hpa : pa.find? (fun x => decide (x ∈ lb)) = none := by
    rw [List.find?_eq_none]
    intro x hx
    simpa using hj.apartA x hx
  rw [hj.eqA, List.find?_append, hpa, Option.none_or]
  cases hS : S with
  | nil => rfl
  | cons x S' =>
    have hx : x ∈ lb := by rw [hj.eqB, hS]; simp
    simp [hx]

theorem Joined.getA_rest : la[pa.length]? = S.head? := by
  rw [hj.eqA, List.getElem?_append_right le_rfl, Nat.sub_self, List.head?_eq_getElem?]

theorem Joined.getB_front {t : ℕ} (ht : t < pb.length) : ∃ x ∈ pb, lb[t]? = some x := by
  refine ⟨pb[t], List.getElem_mem ht, ?_⟩
  rw [hj.eqB, List.getElem?_append_left ht, List.getElem?_eq_getElem ht]

end Joined

/-! ## Length equalisation -/

section Equalize

variable {h : Heap α}

theorem equalize_left (d : ℕ) : ∀ (n : ℕ) (ra rb : Option α),
    LoopReturns (equalizeTurn h) ((n + d : ℤ), (n : ℤ), ra, rb) (walk h.next ra d, rb) := by
  induction d with
  | zero =>
    intro n ra rb
    refine loopReturns_exit ?_
    simp only [equalizeTurn, Nat.cast_zero, add_zero, ne_eq, not_true_eq_false, if_false]
    exact returns_pure _
  | succ d ih =>
    intro n ra rb
    refine loopReturns_next
      (show Returns _ (Turn.next ((n + d : ℤ), (n : ℤ), h.next? ra, rb)) from ?_) ?_
    · have h1 : ((n : ℤ) + (d + 1 : ℕ)) ≠ n := by omega
      have h2 : ((n : ℤ) + (d + 1 : ℕ)) > n := by omega
      have h3 : ¬ ((n : ℤ) + (d + 1 : ℕ) - 1 < n) := by omega
      simp only [equalizeTurn, if_pos h1, if_pos h2, if_neg h3]
      rw [show (n : ℤ) + (d + 1 : ℕ) - 1 = n + d by push_cast; ring]
      exact returns_pure _
    · have := ih n (h.next? ra) rb
      rwa [show walk h.next (h.next? ra) d = walk h.next ra (d + 1) from rfl] at this

theorem equalize_right (d : ℕ) : ∀ (n : ℕ) (ra rb : Option α),
    LoopReturns (equalizeTurn h) ((n : ℤ), (n + d : ℤ), ra, rb) (ra, walk h.next rb d) := by
  induction d with
  | zero =>
    intro n ra rb
    refine loopReturns_exit ?_
    simp only [equalizeTurn, Nat.cast_zero, add_zero, ne_eq, not_true_eq_false, if_false]
    exact returns_pure _
  | succ d ih =>
    intro n ra rb
    refine loopReturns_next
      (show Returns _ (Turn.next ((n : ℤ), (n + d : ℤ), ra, h.next? rb)) from ?_) ?_
    · have h1 : (n : ℤ) ≠ n + (d + 1 : ℕ) := by omega
      have h2 : ¬ (n : ℤ) > n + (d + 1 : ℕ) := by omega
      have h3 : (n : ℤ) < n + (d + 1 : ℕ) := by omega
      simp only [equalizeTurn, if_pos h1, if_neg h2, if_pos h3]
      rw [show (n : ℤ) + (d + 1 : ℕ) - 1 = n + d by push_cast; ring]
      exact returns_pure _
    · have := ih n ra (h.next? rb)
      rwa [show walk h.next (h.next? rb) d = walk h.next rb (d + 1) from rfl] at this

variable [DecidableEq α]

/-- Both references one node a turn: they leave where they first agree. -/
theorem returns_meet {ra rb : Option α} (m : ℕ)
    (hne : ∀ t < m, walk h.next ra t ≠ walk h.next rb t)
    (heq : walk h.next ra m = walk h.next rb m) :
    Returns (loop (meetTurn h) (ra, rb)) (walk h.next ra m) := by
  refine returns_loop_trace (fun t => (walk h.next ra t, walk h.next rb t)) m (fun t ht => ?_) ?_
  · simp only [meetTurn, if_pos (hne t ht), Heap.next?_walk]
    exact returns_pure _
  · simp only [meetTurn, heq, ne_eq, not_true_eq_false, if_false]
    exact returns_pure _

variable {la lb pa pb S : List α} {a b : α}

/-- The two loops of `getIntersectionNode` from lists with `|pa| = |pb| + d`. -/
theorem returns_surplus {ra rb : Option α} (ha : h.IsList ra la) (hb : h.IsList rb lb)
    (hj : Joined la lb pa pb S) {d : ℕ} (hd : pa.length = pb.length + d) :
    Returns (loop (meetTurn h) (walk h.next ra d, rb)) S.head? ∧
      Returns (loop (meetTurn h) (rb, walk h.next ra d)) S.head? := by
  have hwa : ∀ t, walk h.next (walk h.next ra d) t = la[t + d]? := fun t => by
    rw [← walk_add, walk_eq ha]
  have hwb : ∀ t, walk h.next rb t = lb[t]? := walk_eq hb
  have hne : ∀ t < pb.length, la[t + d]? ≠ lb[t]? := fun t ht heq => by
    obtain ⟨x, hx, hget⟩ := hj.getB_front ht
    exact hj.apartB x hx (List.mem_of_getElem? (heq.trans hget))
  have hA : la[pb.length + d]? = S.head? := by rw [← hd]; exact hj.getA_rest
  have hB : lb[pb.length]? = S.head? := by
    rw [hj.eqB, List.getElem?_append_right le_rfl, Nat.sub_self, List.head?_eq_getElem?]
  constructor
  · have hmeet : Returns (loop (meetTurn h) (walk h.next ra d, rb)) _ := returns_meet pb.length
      (fun t ht => by rw [hwa, hwb]; exact hne t ht) (by rw [hwa, hwb, hA, hB])
    rwa [hwa, hA] at hmeet
  · have hmeet : Returns (loop (meetTurn h) (rb, walk h.next ra d)) _ := returns_meet pb.length
      (fun t ht => by rw [hwa, hwb]; exact (hne t ht).symm) (by rw [hwa, hwb, hA, hB])
    rwa [hwb, hB] at hmeet

theorem returns_getIntersectionNode (ha : h.IsList (some a) la) (hb : h.IsList (some b) lb)
    (hj : Joined la lb pa pb S) (hj' : Joined lb la pb pa S) :
    Returns (getIntersectionNode h a b) S.head? := by
  have hlen : la.length + pb.length = lb.length + pa.length := by
    rw [hj.eqA, hj.eqB, List.length_append, List.length_append]; omega
  unfold getIntersectionNode
  refine returns_bind (h.returns_length ha) (returns_bind (h.returns_length hb) ?_)
  rcases Nat.le_total pb.length pa.length with hle | hle
  · obtain ⟨d, hd⟩ := Nat.exists_eq_add_of_le hle
    have hla : la.length = lb.length + d := by omega
    have heq := (equalize_left (h := h) d lb.length (some a) (some b)).returns
    rw [hla, Nat.cast_add]
    exact returns_bind heq (returns_surplus ha hb hj hd).1
  · obtain ⟨d, hd⟩ := Nat.exists_eq_add_of_le hle
    have hlb : lb.length = la.length + d := by omega
    have heq := (equalize_right (h := h) d la.length (some a) (some b)).returns
    rw [hlb, Nat.cast_add]
    exact returns_bind heq (returns_surplus hb ha hj' hd).2

end Equalize

/-! ## Switching walkers -/

section Switch

/-- Where a walker stands after `t` steps through `own`, nil, and `other`. -/
def route (own other : List α) (t : ℕ) : Option α :=
  if t ≤ own.length then own[t]? else other[t - own.length - 1]?

variable {h : Heap α} {own other la lb pa pb S : List α}

theorem route_own {t : ℕ} (ht : t ≤ own.length) : route own other t = own[t]? := if_pos ht

theorem route_other {t : ℕ} (ht : own.length < t) :
    route own other t = other[t - own.length - 1]? := if_neg (by omega)

/-- One step of a walker: from nil to the head of the other list, else to the next node. -/
theorem route_succ [DecidableEq α] {r : Option α} {b : α} (ho : h.IsList r own)
    (hb : h.IsList (some b) other) {t : ℕ} (ht : t ≤ own.length + other.length) :
    (if route own other t = none then some b else h.next? (route own other t)) =
      route own other (t + 1) := by
  rcases Nat.lt_trichotomy t own.length with hlt | rfl | hgt
  · have hsome : own[t]? ≠ none := by simp [hlt]
    rw [route_own hlt.le, route_own (by omega), if_neg hsome, ← walk_eq ho, Heap.next?_walk,
      walk_eq ho]
  · rw [route_own le_rfl, route_other (by omega), if_pos (List.getElem?_eq_none le_rfl),
      show own.length + 1 - own.length - 1 = 0 by omega, ← walk_eq hb, walk_zero]
  · have hsome : other[t - own.length - 1]? ≠ none := by
      rw [List.getElem?_eq_getElem (show t - own.length - 1 < other.length by omega)]
      simp
    rw [route_other hgt, route_other (by omega), if_neg hsome, ← walk_eq hb, Heap.next?_walk,
      walk_eq hb, show t + 1 - own.length - 1 = t - own.length - 1 + 1 by omega]

/-- With a shorter front `pa` the two routes disagree until both are through the other's front. -/
theorem route_ne (hj : Joined la lb pa pb S) (hlt : pa.length < pb.length) {t : ℕ}
    (ht : t < pa.length + S.length + 1 + pb.length) : route la lb t ≠ route lb la t := by
  have hla : la.length = pa.length + S.length := by rw [hj.eqA, List.length_append]
  have hlb : lb.length = pb.length + S.length := by rw [hj.eqB, List.length_append]
  intro heq
  rcases Nat.lt_or_ge la.length t with hgt | hle
  · -- the first walker is in the front of `lb`
    obtain ⟨x, hx, hget⟩ := hj.getB_front (show t - la.length - 1 < pb.length by omega)
    rw [route_other hgt, hget] at heq
    rcases Nat.lt_or_ge lb.length t with htb | htb
    · rw [route_other htb] at heq
      exact hj.apartB x hx (List.mem_of_getElem? heq.symm)
    · rw [route_own htb] at heq
      have hidx := (List.getElem?_inj (by omega) hj.nodupB).mp (hget.trans heq)
      omega
  · rw [route_own hle, route_own (by omega)] at heq
    rcases Nat.lt_or_ge t pb.length with hf | hr
    · obtain ⟨x, hx, hget⟩ := hj.getB_front hf
      exact hj.apartB x hx (List.mem_of_getElem? (heq.trans hget))
    · -- both are in the common rest, at different places
      have hA : la[t]? = S[t - pa.length]? := by rw [hj.eqA, List.getElem?_append_right (by omega)]
      have hB : lb[t]? = S[t - pb.length]? := by rw [hj.eqB, List.getElem?_append_right hr]
      rw [hA, hB] at heq
      have hidx := (List.getElem?_inj (by omega) hj.nodup).mp heq.symm
      omega

/-- After `|pa| + |S| + 1 + |pb|` steps a walker is at the common rest of the other list. -/
theorem route_meet (hj : Joined la lb pa pb S) :
    route la lb (pa.length + S.length + 1 + pb.length) = S.head? := by
  have hla : la.length = pa.length + S.length := by rw [hj.eqA, List.length_append]
  rw [route_other (by omega),
    show pa.length + S.length + 1 + pb.length - la.length - 1 = pb.length by omega,
    hj.eqB, List.getElem?_append_right le_rfl, Nat.sub_self, List.head?_eq_getElem?]

variable [DecidableEq α]

/-- The walkers leave where their routes first agree. -/
theorem returns_switch {a b : α} (ha : h.IsList (some a) la) (hb : h.IsList (some b) lb) (m : ℕ)
    (hm : m ≤ la.length + lb.length + 1) (hne : ∀ t < m, route la lb t ≠ route lb la t)
    (heq : route la lb m = route lb la m) :
    Returns (getIntersectionNode1 h a b) (route la lb m) := by
  have h0 : (some a, some b) = (route la lb 0, route lb la 0) := by
    rw [route_own (Nat.zero_le _), route_own (Nat.zero_le _), ← walk_eq ha, ← walk_eq hb, walk_zero,
      walk_zero]
  unfold getIntersectionNode1
  rw [h0]
  refine returns_loop_trace (fun t => (route la lb t, route lb la t)) m (fun t ht => ?_) ?_
  · simp only [switchTurn, if_pos (hne t ht)]
    rw [route_succ ha hb (by omega), route_succ hb ha (by omega)]
    exact returns_pure _
  · simp only [switchTurn, heq, ne_eq, not_true_eq_false, if_false]
    exact returns_pure _

theorem returns_getIntersectionNode1 {a b : α} (ha : h.IsList (some a) la)
    (hb : h.IsList (some b) lb) (hj : Joined la lb pa pb S) (hj' : Joined lb la pb pa S) :
    Returns (getIntersectionNode1 h a b) S.head? := by
  have hla : la.length = pa.length + S.length := by rw [hj.eqA, List.length_append]
  have hlb : lb.length = pb.length + S.length := by rw [hj.eqB, List.length_append]
  have hm : pb.length + S.length + 1 + pa.length = pa.length + S.length + 1 + pb.length := by omega
  rcases Nat.lt_trichotomy pa.length pb.length with hlt | heq | hgt
  · have hB := route_meet hj'
    rw [hm] at hB
    have := returns_switch ha hb (pa.length + S.length + 1 + pb.length) (by omega)
      (fun t ht => route_ne hj hlt ht) ((route_meet hj).trans hB.symm)
    rwa [route_meet hj] at this
  · -- fronts of one length: the walkers meet in their own lists
    have hA : route la lb pa.length = S.head? := by
      rw [route_own (by omega)]; exact hj.getA_rest
    have hB : route lb la pa.length = S.head? := by
      rw [route_own (by omega), heq]; exact hj'.getA_rest
    have := returns_switch ha hb pa.length (by omega) (fun t ht heq' => ?_) (hA.trans hB.symm)
    · rwa [hA] at this
    · rw [route_own (by omega), route_own (by omega)] at heq'
      obtain ⟨x, hx, hget⟩ := hj.getB_front (show t < pb.length by omega)
      exact hj.apartB x hx (List.mem_of_getElem? (heq'.trans hget))
  · have hB := route_meet hj'
    rw [hm] at hB
    have := returns_switch ha hb (pa.length + S.length + 1 + pb.length) (by omega)
      (fun t ht => (route_ne hj' hgt (by omega)).symm) ((route_meet hj).trans hB.symm)
    rwa [route_meet hj] at this

end Switch

variable [DecidableEq α]

/-- **Both routines** on two lists `la`, `lb` of one heap return the first node of `la` that is also in
`lb`, or nil if there is none; it is the first node of `lb` that is also in `la`. -/
theorem getIntersectionNode_spec (h : Heap α) (headA headB : α) (la lb : List α)
    (ha : h.IsList (some headA) la) (hb : h.IsList (some headB) lb) :
    Returns (getIntersectionNode h headA headB) (la.find? (fun x => decide (x ∈ lb))) ∧
      Returns (getIntersectionNode1 h headA headB) (la.find? (fun x => decide (x ∈ lb))) ∧
      la.find? (fun x => decide (x ∈ lb)) = lb.find? (fun x => decide (x ∈ la)) := by
  obtain ⟨pa, pb, S, hj, hj'⟩ := exists_joined ha hb
  rw [hj.find, hj'.find]
  exact ⟨returns_getIntersectionNode ha hb hj hj', returns_getIntersectionNode1 ha hb hj hj', rfl⟩

/-- Two lists of lengths 3 and 2 that share the last node; all values are equal. -/
theorem getIntersectionNode_spec_shared :
    Returns (getIntersectionNode ⟨fun _ => 1, ![some 1, some 3, some 3, none]⟩ (0 : Fin 4) 2)
        ([0, 1, 3].find? (fun x => decide (x ∈ [2, 3]))) ∧
      Returns (getIntersectionNode1 ⟨fun _ => 1, ![some 1, some 3, some 3, none]⟩ (0 : Fin 4) 2)
        ([0, 1, 3].find? (fun x => decide (x ∈ [2, 3]))) ∧
      [(0 : Fin 4), 1, 3].find? (fun x => decide (x ∈ [2, 3])) =
        [2, 3].find? (fun x => decide (x ∈ [0, 1, 3])) :=
  getIntersectionNode_spec ⟨fun _ => 1, ![some 1, some 3, some 3, none]⟩ 0 2 [0, 1, 3] [2, 3]
    ⟨rfl, rfl, rfl, rfl⟩ ⟨rfl, rfl, rfl⟩

end QYInterview.IntersectionNode
