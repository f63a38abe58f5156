import QYInterview.Relink

/-!
# ReverseBetween — a part of a list turned round

`ReverseBetweenController.swift`.  `reverseTopRight` goes to the last node to turn round, notes in the field
`topRightSuccessor` of the controller what follows it, and links every node of the part to the one before
it, the first one to what was noted: it relinks the part.  `reverseBetween` goes to the first node of the
part and hangs the nodes before it on the result again.
-/

namespace QYInterview.ReverseBetween

open RunLogic Linked

variable {α : Type} [DecidableEq α]

/-! ## The code -/

/-- The arguments and the result go with the heap and the field. -/
def reverseTopRightBody
    (reverseTopRight : Heap α × Option α × Option α × ℤ → Prog (Option α × Heap α × Option α)) :
    Heap α × Option α × Option α × ℤ → Prog (Option α × Heap α × Option α)
  | (h, topRightSuccessor, head, right) =>
    if right = 1 then pure (head, h, h.next? head)
    else do
      let (newHead, h, topRightSuccessor) ← reverseTopRight (h, topRightSuccessor, h.next? head, right - 1)
      -- `head?.next?.next = head`
      let h := h.setNext (h.next? head) head
      let h := h.setNext head topRightSuccessor
      return (newHead, h, topRightSuccessor)

def reverseTopRight (h : Heap α) (topRightSuccessor head : Option α) (right : ℤ) :
    Prog (Option α × Heap α × Option α) :=
  fix reverseTopRightBody (h, topRightSuccessor, head, right)

def reverseBetweenBody
    (reverseBetween : Heap α × Option α × Option α × ℤ × ℤ → Prog (Option α × Heap α × Option α)) :
    Heap α × Option α × Option α × ℤ × ℤ → Prog (Option α × Heap α × Option α)
  | (h, topRightSuccessor, head, left, right) =>
    if left = 1 then reverseTopRight h topRightSuccessor head right
    else do
      let (between, h, topRightSuccessor) ←
        reverseBetween (h, topRightSuccessor, h.next? head, left - 1, right - 1)
      let h := h.setNext head between
      return (head, h, topRightSuccessor)

def reverseBetween (h : Heap α) (topRightSuccessor head : Option α) (left right : ℤ) :
    Prog (Option α × Heap α × Option α) :=
  fix reverseBetweenBody (h, topRightSuccessor, head, left, right)

/-! ## The two recursions -/

section Recursions

variable {h : Heap α} {succ field : Option α}
    {rec₁ : Heap α × Option α × Option α × ℤ → Prog (Option α × Heap α × Option α)}
  {rec₂ : Heap α × Option α × Option α × ℤ × ℤ → Prog (Option α × Heap α × Option α)}

/-- At a node with another node of the part behind it. -/
theorem reverseTopRightBody_cons {b c : α} (hb : h.next b = some c) (part : List α) :
    reverseTopRightBody rec₁ (h, field, some b, ((c :: part).length : ℤ) + 1) =
      rec₁ (h, field, some c, (part.length : ℤ) + 1) >>= fun (r : Option α × Heap α × Option α) =>
        pure (r.1, (r.2.1.setNext (r.2.1.next b) (some b)).setNext (some b) r.2.2, r.2.2) := by
  have hne : ((c :: part).length : ℤ) + 1 ≠ 1 := by simp; omega
  have hlen : ((c :: part).length : ℤ) + 1 - 1 = (part.length : ℤ) + 1 := by simp
  simp only [reverseTopRightBody, if_neg hne, Heap.next?_some, hb, hlen]

/-- At a node before the part. -/
theorem reverseBetweenBody_cons (a : α) (front part : List α) :
    reverseBetweenBody rec₂ (h, field, some a, ((a :: front).length : ℤ) + 1,
      ((a :: front).length : ℤ) + part.length + 1) =
      rec₂ (h, field, h.next a, (front.length : ℤ) + 1, (front.length : ℤ) + part.length + 1) >>=
        fun (r : Option α × Heap α × Option α) => pure (some a, r.2.1.setNext (some a) r.1, r.2.2) := by
  have hne : ((a :: front).length : ℤ) + 1 ≠ 1 := by simp; omega
  have hleft : ((a :: front).length : ℤ) + 1 - 1 = (front.length : ℤ) + 1 := by simp
  have hright : ((a :: front).length : ℤ) + part.length + 1 - 1 = (front.length : ℤ) + part.length + 1 := by
    simp; omega
  simp only [reverseBetweenBody, if_neg hne, Heap.next?_some, hleft, hright]

/-- The part `b :: part` is relinked to what follows it. -/
theorem fixReturns_reverseTopRight : ∀ (part : List α) (b : α) (field head : Option α), (b :: part).Nodup →
    Path h.next head (b :: part) succ →
    FixReturns reverseTopRightBody (h, field, head, (part.length : ℤ) + 1)
      (Heap.lastOr none (b :: part), h.relink succ (b :: part), succ)
  | [], b, field, head, _, hp => by
    obtain ⟨rfl, hb⟩ := hp
    obtain rfl : h.next b = succ := hb
    rw [show h.relink (h.next b) [b] = h from h.setNext_same b]
    refine fixReturns_call ?_
    simp only [reverseTopRightBody, List.length_nil, Nat.cast_zero, zero_add, if_true]
    exact (returns_pure _).settles
  | c :: part, b, field, head, hnodup, hp => by
    obtain ⟨rfl, hp'⟩ := hp
    have hb : h.next b = some c := hp'.1
    have ih := fixReturns_reverseTopRight part c field (some c) (List.nodup_cons.mp hnodup).2 (hb ▸ hp')
    have hkeep : (h.relink succ (c :: part)).next b = some c := by
      rw [h.relink_next_of_not_mem (List.nodup_cons.mp hnodup).1, hb]
    refine fixReturns_call ?_
    simp only [reverseTopRightBody_cons hb]
    refine settles_bind ih ?_
    -- the two links written after the call
    simp only [hkeep, h.relink_hang hnodup succ]
    exact (returns_pure _).settles

/-- A part at the start of the list. -/
theorem exists_reverseFirst {head : Option α} {b : α} {part back : List α}
    (hl : h.IsList head (b :: part ++ back)) (field : Option α) :
    ∃ head' h', FixReturns reverseBetweenBody (h, field, head, 1, (part.length : ℤ) + 1)
        (head', h', back.head?) ∧
      h'.IsList head' ((b :: part).reverse ++ back) ∧ h'.val = h.val ∧
      ∀ a, a ∉ b :: part ++ back → h'.next a = h.next a := by
  obtain ⟨succ, hpart, hback⟩ := path_append.mp hl
  obtain rfl := head_eq hback
  obtain ⟨hnodup, -, hdisj⟩ := List.nodup_append.mp (chain_nodup hl)
  have hcall := fixReturns_reverseTopRight part b field head hnodup hpart
  refine ⟨Heap.lastOr none (b :: part), h.relink back.head? (b :: part),
    fixReturns_call hcall.returns.settles, ?_,
    h.relink_val _ _, ?_⟩
  · refine path_append.mpr ⟨back.head?, h.path_relink hnodup back.head?, ?_⟩
    refine (path_congr fun q hq => h.relink_next_of_not_mem (fun hq' => ?_) _).mpr hback
    exact hdisj q hq' q hq rfl
  · intro a ha
    exact h.relink_next_of_not_mem (fun ha' => ha (List.mem_append_left back ha')) _

/-- The nodes before the part stay in front of it. -/
theorem exists_reverseBetween (b : α) (part back : List α) : ∀ (front : List α) (field head : Option α),
    h.IsList head (front ++ (b :: part ++ back)) →
    ∃ head' h', FixReturns reverseBetweenBody (h, field, head, (front.length : ℤ) + 1,
      (front.length : ℤ) + part.length + 1)
        (head', h', back.head?) ∧
      h'.IsList head' (front ++ ((b :: part).reverse ++ back)) ∧ h'.val = h.val ∧
      ∀ a, a ∉ front ++ (b :: part ++ back) → h'.next a = h.next a
  | [], field, head, hl => by
    simp only [List.length_nil, Nat.cast_zero, zero_add]
    exact exists_reverseFirst hl field
  | a :: front, field, head, hl => by
    obtain ⟨rfl, hl'⟩ := hl
    obtain ⟨between, h₁, hcall, hl₁, hval₁, hout₁⟩ :=
      exists_reverseBetween b part back front field (h.next a) hl'
    have ha : a ∉ front ++ (b :: part ++ back) :=
      (List.nodup_cons.mp (chain_nodup (r := some a) ⟨rfl, hl'⟩)).1
    have ha' : a ∉ front ++ ((b :: part).reverse ++ back) := by
      rwa [List.mem_append, List.mem_append, List.mem_reverse, ← List.mem_append, ← List.mem_append]
    refine ⟨some a, h₁.setNext (some a) between, fixReturns_call ?_, ⟨rfl, ?_⟩,
      (h₁.setNext_val _ _).trans hval₁, ?_⟩
    · simp only [reverseBetweenBody_cons]
      exact settles_bind hcall (returns_pure _).settles
    · rw [h₁.setNext_self]
      exact (h₁.isList_setNext ha').mpr hl₁
    · intro x hx
      rw [List.cons_append, List.mem_cons, not_or] at hx
      rw [h₁.setNext_of_ne hx.1]
      exact hout₁ x hx.2

end Recursions

/-- The positions `left` to `right` of the list backwards. -/
def reversedBetween (ns : List α) (left right : ℕ) : List α :=
  ns.take (left - 1) ++ (((ns.take right).drop (left - 1)).reverse ++ ns.drop right)

section Spec

variable {h : Heap α} {head : Option α} {ns : List α} {left right : ℕ}

omit [DecidableEq α] in
theorem reversedBetween_append {front part back : List α} (hleft : front.length = left - 1)
    (hright : front.length + part.length = right) :
    reversedBetween (front ++ (part ++ back)) left right = front ++ (part.reverse ++ back) := by
  have htake : (front ++ (part ++ back)).take right = front ++ part := by
    rw [← List.append_assoc]
    exact List.take_left' (by rw [List.length_append, hright])
  have hdrop : (front ++ (part ++ back)).drop right = back := by
    rw [← List.append_assoc]
    exact List.drop_left' (by rw [List.length_append, hright])
  rw [reversedBetween, htake, hdrop, List.take_left' hleft, List.drop_left' hleft]

omit [DecidableEq α] in
/-- The three parts of the list. -/
theorem exists_parts (h1 : 1 ≤ left) (h2 : left ≤ right) (h3 : right ≤ ns.length) : ∃ front b part back,
    ns = front ++ (b :: part ++ back) ∧ left = front.length + 1 ∧ right = front.length + part.length + 1 := by
  have hfront : (ns.take (left - 1)).length = left - 1 := List.length_take_of_le (by omega)
  have hlen : ((ns.take right).drop (left - 1)).length = right - (left - 1) := by
    rw [List.length_drop, List.length_take_of_le h3]
  obtain ⟨b, part, hpart⟩ :=
    List.exists_cons_of_length_pos (show 0 < ((ns.take right).drop (left - 1)).length by omega)
  rw [hpart, List.length_cons] at hlen
  refine ⟨ns.take (left - 1), b, part, ns.drop right, ?_, by omega, by omega⟩
  have htake : (ns.take right).take (left - 1) = ns.take (left - 1) := by
    rw [List.take_take, Nat.min_eq_left (by omega)]
  rw [← hpart, ← List.append_assoc, ← htake, List.take_append_drop, List.take_append_drop]

omit [DecidableEq α] in
theorem reversedBetween_perm (h1 : 1 ≤ left) (h2 : left ≤ right) (h3 : right ≤ ns.length) :
    (reversedBetween ns left right).Perm ns := by
  obtain ⟨front, b, part, back, rfl, rfl, rfl⟩ := exists_parts h1 h2 h3
  rw [reversedBetween_append rfl (by rw [List.length_cons]; omega)]
  exact ((List.reverse_perm (b :: part)).append_right back).append_left front

omit [DecidableEq α] in
theorem reversedBetween_reversedBetween (h1 : 1 ≤ left) (h2 : left ≤ right) (h3 : right ≤ ns.length) :
    reversedBetween (reversedBetween ns left right) left right = ns := by
  obtain ⟨front, b, part, back, rfl, rfl, rfl⟩ := exists_parts h1 h2 h3
  rw [reversedBetween_append rfl (by rw [List.length_cons]; omega),
    reversedBetween_append rfl (by rw [List.length_reverse, List.length_cons]; omega), List.reverse_reverse]

theorem returns_reverseBetween (hl : h.IsList head ns) (h1 : 1 ≤ left) (h2 : left ≤ right)
    (h3 : right ≤ ns.length) (field : Option α) :
    ∃ head' h' field', Returns (reverseBetween h field head left right) (head', h', field') ∧
      h'.IsList head' (reversedBetween ns left right) ∧ h'.val = h.val ∧
      ∀ a, a ∉ ns → h'.next a = h.next a := by
  obtain ⟨front, b, part, back, rfl, rfl, rfl⟩ := exists_parts h1 h2 h3
  obtain ⟨head', h', hcall, hl', hval, hout⟩ := exists_reverseBetween b part back front field head hl
  rw [reversedBetween_append rfl (by rw [List.length_cons]; omega)]
  refine ⟨head', h', back.head?, ?_, hl', hval, hout⟩
  have hret := hcall.returns
  rw [show (front.length : ℤ) + 1 = (front.length + 1 : ℕ) by omega,
    show (front.length : ℤ) + part.length + 1 = (front.length + part.length + 1 : ℕ) by omega] at hret
  exact hret

end Spec

/-- The nodes at the positions `left` to `right` come backwards, all others stay, no value and no other node
changes, and a second call gives the old list and the old heap back,
whatever the field holds before each of the calls. -/
theorem reverseBetween_spec (h : Heap α) (head : Option α) (ns : List α) (left right : ℕ) (field : Option α)
    (hl : h.IsList head ns) (h1 : 1 ≤ left) (h2 : left ≤ right) (h3 : right ≤ ns.length) :
    ∃ head' h' field', Returns (reverseBetween h field head left right) (head', h', field') ∧
      h'.IsList head' (ns.take (left - 1) ++ (((ns.take right).drop (left - 1)).reverse ++ ns.drop right)) ∧
      h'.val = h.val ∧ (∀ a, a ∉ ns → h'.next a = h.next a) ∧
      ∀ field₁, ∃ field₂, Returns (reverseBetween h' field₁ head' left right) (head, h, field₂) := by
  obtain ⟨head', h', field', hret, hl', hval, hout⟩ := returns_reverseBetween hl h1 h2 h3 field
  have hperm := reversedBetween_perm h1 h2 h3
  refine ⟨head', h', field', hret, hl', hval, hout, ?_⟩
  intro field₁
  obtain ⟨head₂, h₂, field₂, hret₂, hl₂, hval₂, hout₂⟩ :=
    returns_reverseBetween hl' h1 h2 (hperm.length_eq ▸ h3) field₁
  rw [reversedBetween_reversedBetween h1 h2 h3] at hl₂
  have hhead : head₂ = head := (head_eq hl₂).trans (head_eq hl).symm
  subst hhead
  have hheap : h₂ = h := by
    refine Heap.eq_of_path (hval₂.trans hval) hl₂ hl ?_
    intro a ha
    rw [hout₂ a fun ha' => ha (hperm.mem_iff.mp ha'), hout a ha]
  subst hheap
  exact ⟨field₂, hret₂⟩

/-- Three linked nodes, a fourth object that is linked to the first one and is in the field,
and the last two positions. -/
theorem reverseBetween_spec_three : ∃ head' h' field',
    Returns (reverseBetween ⟨fun _ => 7, ![some 1, some 2, none, some 0]⟩ (some 3) (some (0 : Fin 4))
      (2 : ℕ) (3 : ℕ)) (head', h', field') ∧
    h'.IsList head' [0, 2, 1] ∧ h'.val = (fun _ => 7) ∧
    (∀ a, a ∉ [(0 : Fin 4), 1, 2] → h'.next a = ![some 1, some 2, none, some 0] a) ∧
    ∀ field₁, ∃ field₂, Returns (reverseBetween h' field₁ head' (2 : ℕ) (3 : ℕ))
      (some 0, ⟨fun _ => 7, ![some 1, some 2, none, some 0]⟩, field₂) :=
  reverseBetween_spec ⟨fun _ => 7, ![some 1, some 2, none, some 0]⟩ (some 0) [0, 1, 2] 2 3 (some 3)
    ⟨rfl, rfl, rfl, rfl⟩
    (by decide) (by decide) (by decide)

end QYInterview.ReverseBetween
