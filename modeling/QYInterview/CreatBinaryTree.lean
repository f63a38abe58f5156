import QYInterview.Swift
import QYInterview.Lib.PreOrder

/-!
# CreatBinaryTree — a tree from its pre-order items (`BinaryTree/CreatBinaryTreeController.swift`)

`preOrderCreateTree` keeps one index for all its recursive calls and moves it on even past the end of
the items, where it reads a missing subtree; so it reads the items as if followed by `""` for ever
(`PreOrder.stream`).  A call from position `p` returns the one tree that the stream holds at `p`
(`PreOrder.Reads`), with the index on the last item of that tree; it ends because every label read
brings the position closer to the end of the items.
-/

namespace QYInterview.CreatBinaryTree

open RunLogic Swift PreOrder

/-- `BinaryTreeNode?`; the nodes of a tree are made by the parser and not shared. -/
abbrev BinaryTreeNode := BinTree String

/-! ## Model -/

structure BinaryTree where
  root : BinaryTreeNode
  items : List String
  index : ℤ

/-- One call, from the index to the subtree and the index after it. -/
def preOrderCreateTreeBody (items : List String)
    (preOrderCreateTree : ℤ → Prog (BinaryTreeNode × ℤ)) (index : ℤ) : Prog (BinaryTreeNode × ℤ) :=
  let index := index + 1
  if index < items.length ∧ index ≥ 0 then do
    let item ← get items index
    if item = "" then pure (.nil, index)
    else do
      let (left, index) ← preOrderCreateTree index
      let (right, index) ← preOrderCreateTree index
      pure (.node item left right, index)
  else pure (.nil, index)

def preOrderCreateTree (items : List String) (index : ℤ) : Prog (BinaryTreeNode × ℤ) :=
  fix (preOrderCreateTreeBody items) index

/-- `BinaryTree(items)` -/
def BinaryTree.init (items : List String) : Prog BinaryTree := do
  let (root, index) ← preOrderCreateTree items (-1)
  pure ⟨root, items, index⟩

/-- One call of `logDebug`. -/
structure LogCall where
  message : String
  separator : String
  terminator : String
  deriving DecidableEq, Repr

/-- The private `preOrderTraverse`, over a node. -/
def preOrderTraverseNode : BinaryTreeNode → List LogCall
  | .nil => [⟨"空", "", " "⟩]
  | .node value left right =>
    ⟨value, "", " "⟩ :: (preOrderTraverseNode left ++ preOrderTraverseNode right)

/-- The title line. -/
def preOrderTitle : LogCall := ⟨"先序遍历：先遍历根节点，再遍历左子树，最后遍历右子树", " ", "\n"⟩

/-- The closing line. -/
def blankLine : LogCall := ⟨"\n", " ", "\n"⟩

def preOrderTraverse (tree : BinaryTree) : List LogCall :=
  preOrderTitle :: (preOrderTraverseNode tree.root ++ [blankLine])

/-! ## The parser reads the stream -/

/-- What a call from the position before `p` returns. -/
def Parsed (items : List String) (p : ℕ) (t : BinaryTreeNode) : Prop :=
  Reads "" (stream "" items) p t ∧
    FixReturns (preOrderCreateTreeBody items) ((p : ℤ) - 1) (t, (p : ℤ) + (ser "" t).length - 1)

theorem stream_eq {items : List String} {p : ℕ} {item : String} (h : items[p]? = some item) :
    stream "" items p = item := by
  rw [stream, List.getD_eq_getElem?_getD, h, Option.getD_some]

/-- Past the end, and at an empty item, there is no subtree. -/
theorem parsed_nil {items : List String} {p : ℕ}
    (h : items.length ≤ p ∨ items[p]? = some "") : Parsed items p .nil := by
  rcases h with hlen | hitem
  · refine ⟨?_, fixReturns_call ?_⟩
    · show stream "" items p = ""
      rw [stream, List.getD_eq_getElem?_getD, List.getElem?_eq_none hlen, Option.getD_none]
    · have hcond : ¬ ((p : ℤ) - 1 + 1 < items.length ∧ (p : ℤ) - 1 + 1 ≥ 0) := by omega
      simp only [preOrderCreateTreeBody, if_neg hcond]
      rw [show (p : ℤ) - 1 + 1 = p + (ser "" (.nil : BinaryTreeNode)).length - 1 by simp [ser]]
      exact (returns_pure _).settles
  · have hp : p < items.length := (List.getElem?_eq_some_iff.mp hitem).1
    refine ⟨stream_eq hitem, fixReturns_call ?_⟩
    have hcond : (p : ℤ) - 1 + 1 < items.length ∧ (p : ℤ) - 1 + 1 ≥ 0 := by omega
    simp only [preOrderCreateTreeBody, if_pos hcond]
    rw [show (p : ℤ) - 1 + 1 = p by ring, get_eq hitem,
      show (p : ℤ) + (ser "" (.nil : BinaryTreeNode)).length - 1 = p by simp [ser]]
    simp only [pure_bind, if_true]
    exact (returns_pure _).settles

/-- A label is followed by its two subtrees. -/
theorem parsed_node {items : List String} {p : ℕ} {item : String} {l r : BinaryTreeNode}
    (hitem : items[p]? = some item) (hne : item ≠ "") (hl : Parsed items (p + 1) l)
    (hr : Parsed items (p + 1 + (ser "" l).length) r) : Parsed items p (.node item l r) := by
  have hp : p < items.length := (List.getElem?_eq_some_iff.mp hitem).1
  refine ⟨⟨stream_eq hitem, hne, hl.1, hr.1⟩, fixReturns_call ?_⟩
  have hcond : (p : ℤ) - 1 + 1 < items.length ∧ (p : ℤ) - 1 + 1 ≥ 0 := by omega
  simp only [preOrderCreateTreeBody, if_pos hcond]
  rw [show (p : ℤ) - 1 + 1 = p by ring, get_eq hitem]
  simp only [pure_bind, if_neg hne]
  have hl' := hl.2
  rw [show ((p + 1 : ℕ) : ℤ) - 1 = p by push_cast; ring] at hl'
  refine settles_bind hl' ?_
  have hr' := hr.2
  rw [show ((p + 1 + (ser "" l).length : ℕ) : ℤ) - 1 = ((p + 1 : ℕ) : ℤ) + (ser "" l).length - 1 by
    push_cast; ring] at hr'
  refine settles_bind hr' ?_
  rw [show (p : ℤ) + (ser "" (.node item l r)).length - 1 =
      ((p + 1 + (ser "" l).length : ℕ) : ℤ) + (ser "" r).length - 1 by simp [ser]; ring]
  exact (returns_pure _).settles

/-- The parser reads a tree at every position. -/
theorem exists_parsed (items : List String) : ∀ (k p : ℕ), items.length - p = k →
    ∃ t, Parsed items p t := by
  intro k
  induction k using Nat.strong_induction_on with
  | _ k ih =>
    intro p hk
    by_cases hp : p < items.length
    · have hitem := List.getElem?_eq_getElem hp
      by_cases hempty : items[p] = ""
      · exact ⟨.nil, parsed_nil (Or.inr (by rw [hitem, hempty]))⟩
      · obtain ⟨l, hl⟩ := ih (items.length - (p + 1)) (by omega) (p + 1) rfl
        obtain ⟨r, hr⟩ := ih (items.length - (p + 1 + (ser "" l).length)) (by omega) _ rfl
        exact ⟨_, parsed_node hitem hempty hl hr⟩
    · exact ⟨.nil, parsed_nil (Or.inl (by omega))⟩

/-- `BinaryTree(items)` holds the tree at the start of the stream. -/
theorem exists_init (items : List String) :
    ∃ b, Returns (BinaryTree.init items) b ∧ Reads "" (stream "" items) 0 b.root := by
  obtain ⟨t, ht, hret⟩ := exists_parsed items _ 0 rfl
  have hret := hret.returns
  rw [Nat.cast_zero, zero_sub] at hret
  exact ⟨_, returns_bind hret (returns_pure _), ht⟩

/-! ## The traversal -/

/-- What is printed for an item of a serialisation. -/
def printed (item : String) : LogCall := ⟨if item = "" then "空" else item, "", " "⟩

theorem preOrderTraverseNode_eq {t : BinaryTreeNode} (ht : Labelled "" t) :
    preOrderTraverseNode t = (ser "" t).map printed := by
  induction t with
  | nil => rfl
  | node v l r ihl ihr =>
    obtain ⟨hv, hl, hr⟩ := ht
    rw [preOrderTraverseNode, ihl hl, ihr hr, ser, List.map_cons, List.map_append, printed,
      if_neg hv]

/-- **Items and trees.**  The serialisation of a tree with non-empty labels, with anything after it, is
parsed to that tree; every list of items is parsed to a tree whose serialisation the items, continued
by empty ones, start with, and whose pre-order print is its serialisation with `空` for a missing
subtree. -/
theorem binaryTree_spec :
    (∀ (t : BinaryTreeNode) (rest : List String), Labelled "" t →
      ∃ b, Returns (BinaryTree.init (ser "" t ++ rest)) b ∧ b.root = t) ∧
    ∀ items : List String, ∃ b, Returns (BinaryTree.init items) b ∧
      ser "" b.root = (List.range (ser "" b.root).length).map (fun i => items.getD i "") ∧
      preOrderTraverse b = preOrderTitle :: ((ser "" b.root).map printed ++ [blankLine]) := by
  refine ⟨fun t rest ht => ?_, fun items => ?_⟩
  · obtain ⟨b, hb, hreads⟩ := exists_init (ser "" t ++ rest)
    exact ⟨b, hb, hreads.unique (reads_stream ht rest)⟩
  · obtain ⟨b, hb, hreads⟩ := exists_init items
    obtain ⟨hlab, hser⟩ := reads_iff.mp hreads
    refine ⟨b, hb, ?_, by rw [preOrderTraverse, preOrderTraverseNode_eq hlab]⟩
    rw [List.range_eq_range']
    exact hser

end QYInterview.CreatBinaryTree
