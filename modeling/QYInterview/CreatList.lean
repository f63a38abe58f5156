import QYInterview.ListNode

/-!
# CreatList — lists built from an array

`ListNodeHelper.creat` and `DeleteDuplicates2Controller.initListNodeFromTail` append a node for every element
behind a node in front of the list.  At the end they go on to the second node when there is one; a list that
is returned has a node, so for the empty array they return the node in front, whose value is 0.  `new t` is
the object that is created after `t` others.
-/

namespace QYInterview.CreatList

open RunLogic Linked

variable {α : Type} [DecidableEq α]

/-! ## The code -/

/-- `for val in array`, over the heap, `next` and the number of objects created. -/
def creatBody (new : ℕ → α) : Heap α × α × ℕ → ℤ → Heap α × α × ℕ
  | (h, next, made), val =>
    let node := new made
    let h := h.alloc node val none
    let h := h.setNext (some next) (some node)
    (h, node, made + 1)

def creat (new : ℕ → α) (h : Heap α) (array : List ℤ) : α × Heap α :=
  let head := new 0
  let h := h.alloc head 0 none
  -- `var next = ListNode()`, which is given up at once
  let h := h.alloc (new 1) 0 none
  let next := head
  let (h, _, _) := array.foldl (creatBody new) (h, next, 2)
  match h.next head with
  | some first => (first, h)
  | none => (head, h)

/-- `for data in array`, over the heap, `tail` and the number of objects created. -/
def initListNodeFromTailBody (new : ℕ → α) : Heap α × α × ℕ → ℤ → Heap α × α × ℕ
  | (h, tail, made), data =>
    let tempNode := new made
    let h := h.alloc tempNode 0 none
    let h := h.setVal tempNode data
    let h := h.setNext (some tail) (some tempNode)
    (h, tempNode, made + 1)

def initListNodeFromTail (new : ℕ → α) (h : Heap α) (array : List ℤ) : α × Heap α :=
  let node := new 0
  let h := h.alloc node 0 none
  -- `var tail = ListNode()`, which is given up at once
  let h := h.alloc (new 1) 0 none
  let tail := node
  let (h, _, _) := array.foldl (initListNodeFromTailBody new) (h, tail, 2)
  match h.next node with
  | some first => (first, h)
  | none => (node, h)

/-! ## What they build -/

/-- A list from `b.1` in the heap `b.2`, with the values `vs`. -/
def Reads (b : α × Heap α) (vs : List ℤ) : Prop := ∃ ns, b.2.IsList (some b.1) ns ∧ ns.map b.2.val = vs

omit [DecidableEq α] in
theorem Reads.unique {b : α × Heap α} {vs vs' : List ℤ} (h : Reads b vs) (h' : Reads b vs') : vs = vs' := by
  obtain ⟨ns, hl, rfl⟩ := h
  obtain ⟨ns', hl', rfl⟩ := h'
  rw [chain_unique hl hl']

omit [DecidableEq α] in
theorem Reads.length {b : α × Heap α} {vs : List ℤ} (h : Reads b vs) :
    Returns (b.2.length b.1) (vs.length : ℤ) := by
  obtain ⟨ns, hl, rfl⟩ := h
  rw [List.length_map]
  exact b.2.returns_length hl

/-- The second loop writes what the first one writes. -/
theorem initListNodeFromTailBody_eq : initListNodeFromTailBody (α := α) = creatBody := by
  funext new ⟨h, tail, made⟩ data
  simp only [initListNodeFromTailBody, creatBody, Heap.alloc, Heap.setVal, Function.update_idem]

theorem initListNodeFromTail_eq : initListNodeFromTail (α := α) = creat := by
  funext new h array
  rw [initListNodeFromTail, creat, initListNodeFromTailBody_eq]

section Appending

variable {new : ℕ → α} {h : Heap α} {b : α × Heap α} {next : α} {n : ℕ} {vs : List ℤ}

/-- The nodes that are created for `n` elements, in order. -/
def created (new : ℕ → α) (n : ℕ) : List α := (List.range n).map fun i => new (i + 2)

omit [DecidableEq α] in
theorem created_succ (new : ℕ → α) (n : ℕ) : created new (n + 1) = created new n ++ [new (n + 2)] := by
  rw [created, List.range_succ, List.map_append]
  rfl

/-- After `n` elements the list is the node in front with the nodes created, `next` is the last one, and
`vs` are the values. -/
structure Appending (new : ℕ → α) (vs : List ℤ) (h : Heap α) (next : α) (n : ℕ) : Prop where
  exists_front : ∃ front, front ++ [next] = new 0 :: created new n ∧
    h.IsList (some (new 0)) (front ++ [next]) ∧ (front ++ [next]).map h.val = vs

/-- A node more. -/
theorem Appending.append (hnew : Function.Injective new) (hI : Appending new vs h next n) (val : ℤ) :
    Appending new (vs ++ [val]) ((h.alloc (new (n + 2)) val none).setNext (some next) (some (new (n + 2))))
      (new (n + 2)) (n + 1) := by
  obtain ⟨front, hnodes, hl, hvals⟩ := hI
  have hfresh : new (n + 2) ∉ front ++ [next] := by
    rw [hnodes]
    intro hmem
    rcases List.mem_cons.mp hmem with heq | hmem
    · exact absurd (hnew heq) (by omega)
    · obtain ⟨i, hi, heq⟩ := List.mem_map.mp hmem
      have hlt := List.mem_range.mp hi
      exact absurd (hnew heq) (by omega)
  refine ⟨front ++ [next], ?_, chain_concat hl hfresh, ?_⟩
  · rw [hnodes, created_succ, List.cons_append]
  · rw [List.map_append, ← hvals]
    refine congrArg₂ (· ++ ·) (List.map_congr_left fun a ha => ?_) ?_
    · exact h.alloc_val_of_ne (by rintro rfl; exact hfresh ha) val none
    · exact congrArg (· :: []) (Function.update_self ..)

theorem appending_foldl (hnew : Function.Injective new) (array : List ℤ) : ∀ {vs : List ℤ} {h : Heap α}
    {next : α} {n : ℕ}, Appending new vs h next n → ∃ h' next' made',
      array.foldl (creatBody new) (h, next, n + 2) = (h', next', made') ∧
        Appending new (vs ++ array) h' next' (n + array.length) := by
  induction array with
  | nil => exact fun hI => ⟨_, _, _, rfl, by rwa [List.append_nil]⟩
  | cons val array ih =>
    intro vs h next n hI
    obtain ⟨h', next', made', hfold, hI'⟩ := ih (hI.append hnew val)
    refine ⟨h', next', made', hfold, ?_⟩
    rwa [List.append_cons, List.length_cons, Nat.add_comm array.length, ← Nat.add_assoc]

/-- The nodes of the list that is returned. -/
def built (new : ℕ → α) (array : List ℤ) : List α := if array = [] then [new 0] else created new array.length

omit [DecidableEq α] in
/-- Objects that this call has created, no two of them the same. -/
theorem built_fresh (hnew : Function.Injective new) (array : List ℤ) :
    (built new array).Nodup ∧ ∀ a ∈ built new array, ∃ t, a = new t := by
  unfold built
  split_ifs
  · exact ⟨List.nodup_singleton _, fun a ha => ⟨0, List.mem_singleton.mp ha⟩⟩
  · refine ⟨List.nodup_range.map fun i j hij => Nat.add_right_cancel (hnew hij), fun a ha => ?_⟩
    obtain ⟨i, -, rfl⟩ := List.mem_map.mp ha
    exact ⟨i + 2, rfl⟩

omit [DecidableEq α] in
/-- The builders go on to the second node when there is one. -/
theorem isList_second {array : List ℤ} (hl : h.IsList (some (new 0)) (new 0 :: created new array.length))
    (hvals : (new 0 :: created new array.length).map h.val = 0 :: array)
    (hb : b = match h.next (new 0) with
      | some first => (first, h)
      | none => (new 0, h)) :
    b.2.IsList (some b.1) (built new array) ∧ (built new array).map b.2.val = if array = [] then
      [0] else array := by
  obtain ⟨-, hrest⟩ := hl
  obtain ⟨hval, hvals⟩ := List.cons.inj hvals
  cases array with
  | nil =>
    have hnext : h.next (new 0) = none := hrest
    rw [hnext] at hb
    subst hb
    exact ⟨⟨rfl, hnext⟩, congrArg (· :: []) hval⟩
  | cons v array =>
    cases hnext : h.next (new 0) with
    | none =>
      rw [hnext] at hrest
      exact absurd (chain_unique hrest (show h.IsList none [] from rfl)) (by simp [created])
    | some first =>
      rw [hnext] at hb hrest
      subst hb
      exact ⟨hrest, hvals⟩

/-- The nodes are those created, and their values the array; for the empty one it is the node in front,
with 0. -/
theorem isList_creat (hnew : Function.Injective new) (h : Heap α) (array : List ℤ) :
    (creat new h array).2.IsList (some (creat new h array).1) (built new array) ∧
      (built new array).map (creat new h array).2.val = if array = [] then [0] else array := by
  set h₁ := (h.alloc (new 0) 0 none).alloc (new 1) 0 none with hh₁
  have hne : new 0 ≠ new 1 := fun heq => absurd (hnew heq) Nat.zero_ne_one
  have hnext : h₁.next (new 0) = none := by
    rw [hh₁, Heap.alloc_next_of_ne _ hne, Heap.alloc_next_self]
  have hval : h₁.val (new 0) = 0 := by
    rw [hh₁, Heap.alloc_val_of_ne _ hne]
    exact Function.update_self ..
  have hstart : Appending new [0] h₁ (new 0) 0 := ⟨[], rfl, ⟨rfl, hnext⟩, congrArg (· :: []) hval⟩
  obtain ⟨h', next', made', hfold, front, hnodes, hl, hvals⟩ := appending_foldl hnew array hstart
  rw [hnodes, Nat.zero_add] at hl hvals
  refine isList_second hl hvals ?_
  rw [creat, ← hh₁]
  simp only [hfold]

end Appending

/-- Both builders give the list of the nodes they have created for the elements, which reads back as the
array and has its length, except for the empty array: then they return the node in front, which reads back
as 0 alone.  So two different arrays that are not empty give different values. -/
theorem creat_spec (new : ℕ → α) (hnew : Function.Injective new) (h : Heap α) (array : List ℤ) :
    (built new array).Nodup ∧ (∀ a ∈ built new array, ∃ t, a = new t) ∧
      (∀ b ∈ [creat new h array, initListNodeFromTail new h array],
        b.2.IsList (some b.1) (built new array) ∧
          (built new array).map b.2.val = (if array = [] then [0] else array) ∧
          Returns (b.2.length b.1) (if array = [] then 1 else array.length) ∧ (array = [] → b.1 = new 0)) ∧
      ∀ array' vs, array ≠ [] → array' ≠ [] → ∀ b ∈ [creat new h array, initListNodeFromTail new h array],
        ∀ b' ∈ [creat new h array', initListNodeFromTail new h array'],
          Reads b vs → Reads b' vs → array = array' := by
  have hbuilt : ∀ array, ∀ b ∈ [creat new h array, initListNodeFromTail new h array],
      b.2.IsList (some b.1) (built new array) ∧
        (built new array).map b.2.val = if array = [] then [0] else array := by
    intro array b hb
    obtain rfl : b = creat new h array := by simpa [initListNodeFromTail_eq] using hb
    exact isList_creat hnew h array
  obtain ⟨hnodup, hfresh⟩ := built_fresh hnew array
  refine ⟨hnodup, hfresh, fun b hb => ?_, fun array' vs hne hne' b hb b' hb' hreads hreads' => ?_⟩
  · obtain ⟨hl, hvals⟩ := hbuilt array b hb
    have hlength := Reads.length ⟨_, hl, hvals⟩
    refine ⟨hl, hvals, ?_, ?_⟩
    · split_ifs at hlength ⊢
      · exact hlength
      · exact hlength
    · rintro rfl
      exact Option.some.inj hl.1
  · have h₁ : Reads b _ := ⟨_, hbuilt array b hb⟩
    have h₂ : Reads b' _ := ⟨_, hbuilt array' b' hb'⟩
    rw [if_neg hne] at h₁
    rw [if_neg hne'] at h₂
    exact (h₁.unique hreads).trans (hreads'.unique h₂)

/-- Three elements, and objects named by numbers. -/
theorem creat_spec_three : ∃ b : ℕ × Heap ℕ, b = creat id ⟨fun _ => 0, fun _ => none⟩ [1, 2, 3] ∧
    b.2.IsList (some b.1) [2, 3, 4] ∧ [2, 3, 4].map b.2.val = [1, 2, 3] ∧ Returns (b.2.length b.1) 3 := by
  obtain ⟨hl, hvals, hlength, -⟩ :=
    (creat_spec id Function.injective_id ⟨fun _ => 0, fun _ => none⟩ [1, 2, 3]).2.2.1 _ List.mem_cons_self
  exact ⟨_, rfl, hl, hvals, hlength⟩

/-- The empty array and `[0]` give lists with the same values, of length 1. -/
theorem creat_empty :
    Reads (creat id ⟨fun _ => 0, fun _ => none⟩ []) [0] ∧
      Reads (creat id ⟨fun _ => 0, fun _ => none⟩ [0]) [0] ∧
      ¬ Reads (creat id ⟨fun _ => 0, fun _ => none⟩ []) [] ∧
      ¬ Reads (initListNodeFromTail id ⟨fun _ => 0, fun _ => none⟩ []) [] := by
  have hempty : Reads (creat id ⟨fun _ => 0, fun _ => none⟩ []) [0] := ⟨[0], ⟨rfl, rfl⟩, rfl⟩
  refine ⟨hempty, ⟨[2], ⟨rfl, rfl⟩, rfl⟩, fun h => ?_, fun h => ?_⟩
  · exact List.cons_ne_nil _ _ (hempty.unique h)
  · rw [initListNodeFromTail_eq] at h
    exact List.cons_ne_nil _ _ (hempty.unique h)

end QYInterview.CreatList
