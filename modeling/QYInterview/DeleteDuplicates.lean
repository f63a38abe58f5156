import QYInterview.ListNode
import QYInterview.Lib.Alone

/-!
# DeleteDuplicates — all nodes of an ascending list with a value that occurs again
(`DeleteDuplicates2Controller.swift`)

The recursion goes on behind a run of equal values, or behind a node with another value than the next one. 
In both cases the rest of the list does not begin with the value in front of it, which is what `alone` needs
to know of that value; on any list the nodes without an equal neighbour stay.
-/

namespace QYInterview.DeleteDuplicates

open RunLogic Linked Alone

variable {α : Type} [DecidableEq α]

/-! ## The code -/

omit [DecidableEq α] in
/-- `while end != nil && current.val == end!.val` -/
def endTurn (h : Heap α) (current : α) : Option α → Prog (Turn (Option α) (Option α))
  | some «end» =>
    if h.val current = h.val «end» then pure (.next (h.next «end»)) else pure (.exit (some «end»))
  | none => pure (.exit none)

def deleteDuplicatesBody (deleteDuplicates : Heap α × Option α → Prog (Option α × Heap α)) :
    Heap α × Option α → Prog (Option α × Heap α)
  | (h, none) => pure (none, h)
  | (h, some current) =>
    match h.next current with
    | none => pure (some current, h)
    | some next =>
      if h.val current = h.val next then do
        let «end» ← loop (endTurn h current) (some next)
        deleteDuplicates (h, «end»)
      else do
        let (rest, h) ← deleteDuplicates (h, some next)
        return (some current, h.setNext (some current) rest)

def deleteDuplicates (h : Heap α) (head : Option α) : Prog (Option α × Heap α) :=
  fix deleteDuplicatesBody (h, head)

/-! ## What stays -/

section Recursion

variable {h : Heap α}

omit [DecidableEq α] in
/-- The loop stops behind the run. -/
theorem loopReturns_end (current : α) : ∀ (ns : List α) (r : Option α), h.IsList r ns →
    ∃ r', LoopReturns (endTurn h current) r r' ∧ h.IsList r' (ns.dropWhile fun e => h.val e = h.val current)
  | [], r, hr => by
    obtain rfl : r = none := hr
    exact ⟨none, loopReturns_exit (returns_pure _), rfl⟩
  | e :: ns, r, hr => by
    obtain ⟨rfl, hr'⟩ := hr
    by_cases he : h.val e = h.val current
    · obtain ⟨r', hret, hlist⟩ := loopReturns_end current ns _ hr'
      refine ⟨r', loopReturns_next ?_ hret, ?_⟩
      · rw [endTurn, if_pos he.symm]
        exact returns_pure _
      · rwa [List.dropWhile_cons_of_pos (by simpa using he)]
    · refine ⟨some e, loopReturns_exit ?_, ?_⟩
      · rw [endTurn, if_neg (Ne.symm he)]
        exact returns_pure _
      · rw [List.dropWhile_cons_of_neg (by simpa using he)]
        exact ⟨rfl, hr'⟩

/-- The two branches, for a list of at least two nodes. -/
theorem settles_body_eq {a b : α} {r : Option α} {res : Option α × Heap α} (hb : h.next a = some b)
    (hv : h.val b = h.val a) (hend : Returns (loop (endTurn h a) (some b)) r)
    (hrec : FixReturns deleteDuplicatesBody (h, r) res) :
    FixReturns deleteDuplicatesBody (h, some a) res := by
  refine fixReturns_call ?_
  have hbody : ∀ k, deleteDuplicatesBody (fixN deleteDuplicatesBody k) (h, some a) =
      loop (endTurn h a) (some b) >>= fun r => fixN deleteDuplicatesBody k (h, r) := fun k => by
    simp [deleteDuplicatesBody, hb, hv]
  simp only [hbody]
  exact settles_bind hend.settles hrec

theorem settles_body_ne {a b : α} {rest : Option α} {h' : Heap α} (hb : h.next a = some b)
    (hv : h.val b ≠ h.val a) (hrec : FixReturns deleteDuplicatesBody (h, some b) (rest, h')) :
    FixReturns deleteDuplicatesBody (h, some a) (some a, h'.setNext (some a) rest) := by
  refine fixReturns_call ?_
  have hbody : ∀ k, deleteDuplicatesBody (fixN deleteDuplicatesBody k) (h, some a) =
      fixN deleteDuplicatesBody k (h, some b) >>= fun (p : Option α × Heap α) =>
        pure (some a, p.2.setNext (some a) p.1) := fun k => by
    simp [deleteDuplicatesBody, hb, Ne.symm hv]
  simp only [hbody]
  exact settles_bind hrec (returns_pure _).settles

/-- `v` is the value in front of the list.  By induction on the length,
as the rest behind a run can be any part. -/
theorem fixReturns_deleteDuplicates : ∀ (ns : List α) (head : Option α) (v : Option ℤ), h.IsList head ns →
    (∀ a, ns.head? = some a → v ≠ some (h.val a)) → ∃ head' h',
      FixReturns deleteDuplicatesBody (h, head) (head', h') ∧ h'.IsList head' (alone h.val v ns) ∧
      h'.val = h.val ∧
      ∀ a, a ∉ ns → h'.next a = h.next a
  | [], head, v, hl, _ => by
    obtain rfl : head = none := hl
    exact ⟨none, h, fixReturns_call (returns_pure _).settles, rfl, rfl, fun _ _ => rfl⟩
  | [a], head, v, hl, hv => by
    obtain ⟨rfl, ha⟩ := hl
    have ha : h.next a = none := ha
    refine ⟨some a, h, fixReturns_call ?_, ?_, rfl, fun _ _ => rfl⟩
    · simp only [deleteDuplicatesBody, ha]
      exact (returns_pure _).settles
    · rw [alone_singleton (hv a rfl)]
      exact ⟨rfl, ha⟩
  | a :: b :: ns, head, v, hl, hv => by
    have hnd := chain_nodup hl
    obtain ⟨rfl, hl⟩ := hl
    have hb : h.next a = some b := hl.1
    by_cases hab : h.val b = h.val a
    · obtain ⟨r, hend, hr⟩ := loopReturns_end a (b :: ns) _ hl
      obtain ⟨head', h', hret, hlist, hval, hnext⟩ := fixReturns_deleteDuplicates _ r (some (h.val a)) hr
        fun c hc heq => ne_of_head?_dropWhile hc (Option.some.inj heq).symm
      refine ⟨head', h', settles_body_eq hb hab (hb ▸ hend.returns) hret, ?_, hval, fun c hc => hnext c ?_⟩
      · rwa [alone_cons_eq hab, ← alone_dropWhile]
      · exact fun hmem => hc (List.mem_cons_of_mem a ((List.dropWhile_sublist _).mem hmem))
    · obtain ⟨rest, h', hret, hlist, hval, hnext⟩ :=
        fixReturns_deleteDuplicates (b :: ns) _ (some (h.val a)) (hb ▸ hl)
        fun c hc heq => hab ((Option.some.inj hc) ▸ (Option.some.inj heq).symm)
      obtain ⟨ha, -⟩ := List.nodup_cons.mp hnd
      refine ⟨some a, h'.setNext (some a) rest, settles_body_ne hb hab (hb ▸ hret), ?_, ?_, ?_⟩
      · rw [alone_cons_ne (hv a rfl) hab]
        refine ⟨rfl, ?_⟩
        rw [h'.setNext_self]
        exact (h'.isList_setNext fun hmem => ha ((alone_sublist _ _ _).mem hmem)).mpr hlist
      · rw [h'.setNext_val, hval]
      · intro c hc
        obtain ⟨hca, hc⟩ := not_or.mp (mt List.mem_cons.mpr hc)
        rw [h'.setNext_of_ne hca, hnext c hc]
termination_by ns => ns.length
decreasing_by
  · have hle := (List.dropWhile_sublist (fun e => decide (h.val e = h.val a)) (l := b :: ns)).length_le
    simp only [List.length_cons] at hle ⊢
    omega
  · simp

end Recursion

/-- The nodes without an equal neighbour, in order; in an ascending list those with a
value that occurs once. -/
theorem deleteDuplicates_spec (h : Heap α) (head : Option α) (ns : List α) (hl : h.IsList head ns) :
    ∃ head' h' ns', Returns (deleteDuplicates h head) (head', h') ∧ h'.IsList head' ns' ∧ ns'.Sublist ns ∧
      (∀ front a back, ns = front ++ a :: back → (a ∈ ns' ↔
        (∀ b, front.getLast? = some b → h.val b ≠ h.val a) ∧ ∀ b, back.head? = some b → h.val b ≠ h.val a)) ∧
      h'.val = h.val ∧ (∀ a, a ∉ ns → h'.next a = h.next a) ∧
      ((ns.map h.val).Pairwise (· ≤ ·) → (ns'.map h'.val).Nodup ∧
        ∀ x, x ∈ ns'.map h'.val ↔ (ns.map h.val).count x = 1) := by
  obtain ⟨head', h', hret, hlist, hval, hnext⟩ := fixReturns_deleteDuplicates ns head none hl fun _ _ => nofun
  refine ⟨head', h', alone h.val none ns, hret.returns, hlist, alone_sublist _ _ _, ?_, hval, hnext, ?_⟩
  · rintro front a back rfl
    rw [mem_alone (chain_nodup hl)]
    simp [keyBefore]
  · intro hs
    rw [hval]
    refine ⟨nodup_alone_sorted hs, ?_⟩
    intro x
    rw [mem_alone_sorted hs (by simp)]
    simp

/-- A run at each end, and a node outside the list. -/
theorem deleteDuplicates_spec_five : ∃ head' h' ns',
    Returns (deleteDuplicates ⟨![4, 4, 5, 6, 6, 7], ![some 1, some 2, some 3, some 4, none, some 0]⟩
      (some (0 : Fin 6))) (head', h') ∧ h'.IsList head' ns' ∧ ns'.Sublist [0, 1, 2, 3, 4] ∧
    (∀ front a back, [0, 1, 2, 3, 4] = front ++ a :: back → (a ∈ ns' ↔
      (∀ b, front.getLast? = some b → ![(4 : ℤ), 4, 5, 6, 6, 7] b ≠ ![(4 : ℤ), 4, 5, 6, 6, 7] a) ∧
        ∀ b, back.head? = some b → ![(4 : ℤ), 4, 5, 6, 6, 7] b ≠ ![(4 : ℤ), 4, 5, 6, 6, 7] a)) ∧
    h'.val = ![4, 4, 5, 6, 6, 7] ∧
    (∀ a, a ∉ [(0 : Fin 6), 1, 2, 3, 4] → h'.next a = ![some 1, some 2, some 3, some 4, none, some 0] a) ∧
    (([0, 1, 2, 3, 4].map ![(4 : ℤ), 4, 5, 6, 6, 7]).Pairwise (· ≤ ·) → (ns'.map h'.val).Nodup ∧
      ∀ x, x ∈ ns'.map h'.val ↔ ([0, 1, 2, 3, 4].map ![(4 : ℤ), 4, 5, 6, 6, 7]).count x = 1) :=
  deleteDuplicates_spec ⟨![4, 4, 5, 6, 6, 7], ![some 1, some 2, some 3, some 4, none, some 0]⟩ (some 0)
    [0, 1, 2, 3, 4]
    ⟨rfl, rfl, rfl, rfl, rfl, rfl⟩

end QYInterview.DeleteDuplicates
