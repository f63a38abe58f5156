import Mathlib.Tactic
import Mathlib.Data.List.Nodup
import Mathlib.Logic.Function.Iterate

/-!
# Linked — singly linked lists over a link function

`nxt : α → Option α` gives the link of every node.  `Path nxt r L b`: following the links from the
reference `r` goes through the nodes `L`, in this order, and then stands at `b`.  `Chain nxt r L` is
a complete list (`b = none`); it determines `L`, and its nodes are distinct.  `walk nxt r n` is the
reference after `n` links, with `none` absorbing.
-/

namespace Linked

universe u

variable {α : Type u}

/-- One link further; the end of the list stays where it is. -/
def move (nxt : α → Option α) (r : Option α) : Option α := r.bind nxt

/-- The reference after `n` links. -/
def walk (nxt : α → Option α) (r : Option α) (n : ℕ) : Option α := (move nxt)^[n] r

/-- From `r` the links go through the nodes `L` to `b`. -/
def Path (nxt : α → Option α) : Option α → List α → Option α → Prop
  | r, [], b => r = b
  | r, a :: L, b => r = some a ∧ Path nxt (nxt a) L b

/-- A complete list from `r`. -/
abbrev Chain (nxt : α → Option α) (r : Option α) (L : List α) : Prop := Path nxt r L none

section Walk

variable {nxt : α → Option α}

@[simp] theorem move_none : move nxt none = none := rfl

@[simp] theorem move_some (a : α) : move nxt (some a) = nxt a := rfl

@[simp] theorem walk_zero (r : Option α) : walk nxt r 0 = r := rfl

theorem walk_succ (r : Option α) (n : ℕ) : walk nxt r (n + 1) = move nxt (walk nxt r n) :=
  Function.iterate_succ_apply' _ _ _

theorem walk_add (r : Option α) (m n : ℕ) : walk nxt r (m + n) = walk nxt (walk nxt r n) m :=
  Function.iterate_add_apply _ _ _ _

@[simp] theorem walk_none (n : ℕ) : walk nxt none n = none := by
  induction n with
  | zero => rfl
  | succ n ih => rw [walk_succ, ih]; rfl

theorem walk_none_of_le {r : Option α} {m n : ℕ} (h : walk nxt r m = none) (hmn : m ≤ n) :
    walk nxt r n = none := by
  obtain ⟨d, rfl⟩ := Nat.exists_eq_add_of_le' hmn
  rw [walk_add, h, walk_none]

end Walk

section Path

variable {nxt nxt' : α → Option α} {r b : Option α} {L L₁ L₂ : List α} {a : α}

@[simp] theorem path_nil : Path nxt r [] b ↔ r = b := Iff.rfl

@[simp] theorem path_cons : Path nxt r (a :: L) b ↔ r = some a ∧ Path nxt (nxt a) L b := Iff.rfl

theorem path_append : Path nxt r (L₁ ++ L₂) b ↔ ∃ c, Path nxt r L₁ c ∧ Path nxt c L₂ b := by
  induction L₁ generalizing r with
  | nil => simp
  | cons q L ih =>
    simp only [List.cons_append, path_cons, ih]
    exact ⟨fun ⟨h, c, h1, h2⟩ => ⟨c, ⟨h, h1⟩, h2⟩, fun ⟨c, ⟨h, h1⟩, h2⟩ => ⟨h, c, h1, h2⟩⟩

/-- A path only depends on the links of its own nodes. -/
theorem path_congr (hc : ∀ q ∈ L, nxt' q = nxt q) : Path nxt' r L b ↔ Path nxt r L b := by
  induction L generalizing r with
  | nil => rfl
  | cons q L ih =>
    rw [path_cons, path_cons, hc q List.mem_cons_self,
      ih fun q' hq' => hc q' (List.mem_cons_of_mem _ hq')]

/-- The references met along a complete list. -/
theorem walk_eq (h : Chain nxt r L) (n : ℕ) : walk nxt r n = L[n]? := by
  induction L generalizing r n with
  | nil =>
    have hr : r = none := h
    simp [hr]
  | cons a L ih =>
    obtain ⟨rfl, h'⟩ := h
    cases n with
    | zero => rfl
    | succ n => rw [walk_add, List.getElem?_cons_succ]; exact ih h' n

theorem head_eq (h : Chain nxt r L) : r = L.head? := by
  rw [List.head?_eq_getElem?, ← walk_eq h 0]; rfl

/-- A complete list is determined by its start. -/
theorem chain_unique (h₁ : Chain nxt r L₁) (h₂ : Chain nxt r L₂) : L₁ = L₂ := by
  apply List.ext_getElem?
  intro n
  rw [← walk_eq h₁ n, ← walk_eq h₂ n]

/-- A complete list from one of its nodes is the rest of the list. -/
theorem chain_drop (h : Chain nxt r L) (n : ℕ) : Chain nxt L[n]? (L.drop n) := by
  rw [← List.take_append_drop n L] at h
  obtain ⟨c, -, h2⟩ := path_append.mp h
  have hc : c = L[n]? := by rw [head_eq h2, List.head?_drop]
  exact hc ▸ h2

/-- The nodes of a complete list are distinct: a second visit would start the same list again. -/
theorem chain_nodup (h : Chain nxt r L) : L.Nodup := by
  rw [List.nodup_iff_getElem?_ne_getElem?]
  intro i j hij hj heq
  have h1 := chain_drop h i
  rw [heq] at h1
  have hlen := congrArg List.length (chain_unique h1 (chain_drop h j))
  rw [List.length_drop, List.length_drop] at hlen
  omega

/-- The link of a node leads to the node behind it. -/
theorem chain_next (h : Chain nxt r (L₁ ++ a :: L₂)) : nxt a = L₂.head? := by
  obtain ⟨_, -, -, h₂⟩ := path_append.mp h
  exact head_eq h₂

/-- The link of `a` led past the node behind it: that node is out of the list. -/
theorem chain_unlink [DecidableEq α] {b : α} (h : Chain nxt r (L₁ ++ a :: b :: L₂)) :
    Chain (Function.update nxt a (nxt b)) r (L₁ ++ a :: L₂) := by
  obtain ⟨c, h₁, rfl, hb, h₂⟩ := path_append.mp h
  obtain ⟨-, hnd, hdisj⟩ := List.nodup_append.mp (chain_nodup h)
  have ha : ∀ q, q ≠ a → Function.update nxt a (nxt b) q = nxt q := fun q hq =>
    Function.update_of_ne hq _ _
  have h₁' : Path (Function.update nxt a (nxt b)) r L₁ (some a) :=
    (path_congr fun q hq => ha q (hdisj q hq a List.mem_cons_self)).mpr h₁
  have h₂' : Path (Function.update nxt a (nxt b)) (nxt b) L₂ none :=
    (path_congr fun q hq => ha q (by
      rintro rfl
      exact (List.nodup_cons.mp hnd).1 (List.mem_cons_of_mem _ hq))).mpr h₂
  exact path_append.mpr ⟨some a, h₁', rfl, by rwa [Function.update_self]⟩

/-- A new node linked behind the last one. -/
theorem chain_concat [DecidableEq α] {b : α} (h : Chain nxt r (L ++ [a])) (hb : b ∉ L ++ [a]) :
    Chain (Function.update (Function.update nxt b none) a (some b)) r (L ++ [a] ++ [b]) := by
  obtain ⟨c, hfront, rfl, -⟩ := path_append.mp h
  obtain ⟨-, -, hdisj⟩ := List.nodup_append.mp (chain_nodup h)
  have hba : b ≠ a := by
    rintro rfl
    exact hb (by simp)
  have hkeep : Path (Function.update (Function.update nxt b none) a (some b)) r L (some a) := by
    refine (path_congr fun q hq => ?_).mpr hfront
    have hqb : q ≠ b := by
      rintro rfl
      exact hb (List.mem_append_left _ hq)
    rw [Function.update_of_ne (hdisj q hq a List.mem_cons_self), Function.update_of_ne hqb]
  rw [← List.append_cons]
  exact path_append.mpr ⟨some a, hkeep, rfl, Function.update_self .., by
    rw [Function.update_of_ne hba, Function.update_self]; rfl⟩

/-- The node at position `p + 1` taken out by the link of the one at `p`. -/
theorem chain_eraseIdx [DecidableEq α] {b : α} {p : ℕ} (h : Chain nxt r L) (ha : L[p]? = some a)
    (hb : L[p + 1]? = some b) : Chain (Function.update nxt a (nxt b)) r (L.eraseIdx (p + 1)) := by
  obtain ⟨hlt, rfl⟩ := List.getElem?_eq_some_iff.mp hb
  have htake : L.take (p + 1) = L.take p ++ [a] := by rw [List.take_add_one, ha]; rfl
  have hsplit : L = L.take p ++ a :: L[p + 1] :: L.drop (p + 2) := by
    rw [← List.drop_eq_getElem_cons hlt, List.append_cons, ← htake, List.take_append_drop]
  rw [List.eraseIdx_eq_take_drop_succ, htake, ← List.append_cons]
  rw [hsplit] at h
  exact chain_unlink h

/-- Two complete lists over the same links: apart up to a common rest. -/
theorem chain_join {r₁ r₂ : Option α} (h₁ : Chain nxt r₁ L₁) (h₂ : Chain nxt r₂ L₂) :
    ∃ P₁ P₂ S, L₁ = P₁ ++ S ∧ L₂ = P₂ ++ S ∧ (∀ x ∈ P₁, x ∉ L₂) ∧ ∀ x ∈ P₂, x ∉ L₁ := by
  induction L₁ generalizing r₁ with
  | nil => exact ⟨[], L₂, [], rfl, (List.append_nil L₂).symm, by simp, by simp⟩
  | cons a L ih =>
    obtain ⟨rfl, h₁'⟩ := h₁
    by_cases ha : a ∈ L₂
    · obtain ⟨l₁, l₂, rfl⟩ := List.append_of_mem ha
      obtain ⟨c, -, rfl, hl₂⟩ := path_append.mp h₂
      obtain rfl := chain_unique h₁' hl₂
      refine ⟨[], l₁, a :: L, rfl, rfl, by simp, ?_⟩
      intro x hx hx'
      exact (List.nodup_append.mp (chain_nodup h₂)).2.2 x hx x hx' rfl
    · obtain ⟨P₁, P₂, S, rfl, rfl, hP₁, hP₂⟩ := ih h₁'
      refine ⟨a :: P₁, P₂, S, rfl, rfl, fun x hx => ?_, fun x hx hx' => ?_⟩
      · rcases List.mem_cons.mp hx with rfl | hx
        · exact ha
        · exact hP₁ x hx
      · rcases List.mem_cons.mp hx' with rfl | hx'
        · exact ha (List.mem_append_left _ hx)
        · exact hP₂ x hx hx'

end Path

end Linked
