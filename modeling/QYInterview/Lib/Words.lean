import Mathlib.Tactic

/-!
# Words — the blocks of a list between separators

`words sep s` are the maximal blocks of `s` without `sep`, from left to right (`blocks_iff`).  A separator
parts the words before it from those behind it (`words_append_sep`), so separators at either end and
repeated ones add none.  `squeezed sep s` is `s` with its repeated separators run together, built up element
by element (`squeezed_concat_sep`, `squeezed_concat_of_ne`).
-/

namespace Words

universe u

variable {α : Type u} [DecidableEq α] {sep c : α} {s t w : List α} {ws : List (List α)}

/-- The maximal blocks without `sep`. -/
def words (sep : α) (s : List α) : List (List α) := (s.splitOn sep).filter (· ≠ [])

@[simp] theorem words_nil : words sep [] = [] := rfl

/-- A separator parts the words before it from those behind it. -/
theorem words_append_sep (s t : List α) : words sep (s ++ sep :: t) = words sep s ++ words sep t := by
  unfold words
  rw [List.splitOn_append_cons_self, List.filter_append]

theorem words_of_not_mem (hw : w ≠ []) (h : sep ∉ w) : words sep w = [w] := by
  unfold words
  rw [List.splitOn_eq_singleton h]
  exact List.filter_cons_of_pos (by simpa using hw)

@[simp] theorem words_sep_cons (s : List α) : words sep (sep :: s) = words sep s :=
  words_append_sep [] s

@[simp] theorem words_concat_sep (s : List α) : words sep (s ++ [sep]) = words sep s := by
  rw [words_append_sep, words_nil, List.append_nil]

theorem words_append_of_forall (ht : ∀ x ∈ t, x = sep) : words sep (s ++ t) = words sep s := by
  induction t using List.reverseRecOn with
  | nil => rw [List.append_nil]
  | append_singleton t x ih =>
    obtain rfl := ht x (by simp)
    rw [← List.append_assoc, words_concat_sep, ih fun y hy => ht y (List.mem_append_left _ hy)]

theorem words_forall_append (hs : ∀ x ∈ s, x = sep) : words sep (s ++ t) = words sep t := by
  induction s with
  | nil => rfl
  | cons x s ih =>
    obtain rfl := hs x List.mem_cons_self
    rw [List.cons_append, words_sep_cons, ih fun y hy => hs y (List.mem_cons_of_mem _ hy)]

/-- Induction on the blocks of a list, from the left. -/
theorem block_induction (sep : α) {P : List α → Prop} (block : ∀ w, sep ∉ w → P w)
    (step : ∀ w t, sep ∉ w → P t → P (w ++ sep :: t)) (s : List α) : P s := by
  obtain ⟨n, hn⟩ : ∃ n, s.length ≤ n := ⟨_, le_rfl⟩
  induction n generalizing s with
  | zero =>
    obtain rfl := List.length_eq_zero_iff.mp (Nat.le_zero.mp hn)
    exact block [] List.not_mem_nil
  | succ n ih =>
    by_cases hsep : sep ∈ s
    · obtain ⟨w, t, rfl, hw⟩ := List.eq_append_cons_of_mem hsep
      rw [List.length_append, List.length_cons] at hn
      exact step w t hw (ih t (by omega))
    · exact block s hsep

/-- What a block adds to the words before it. -/
def blockWords (w : List α) : List (List α) := if w = [] then [] else [w]

theorem words_block (h : sep ∉ w) : words sep w = blockWords w := by
  by_cases hw : w = []
  · rw [blockWords, if_pos hw, hw, words_nil]
  · rw [blockWords, if_neg hw, words_of_not_mem hw h]

omit [DecidableEq α] in
theorem mem_blockWords {v : List α} (h : v ∈ blockWords w) : v = w ∧ w ≠ [] := by
  unfold blockWords at h
  split_ifs at h with hnil
  · cases h
  · exact ⟨List.mem_singleton.mp h, hnil⟩

theorem mem_words (hw : w ∈ words sep s) : w ≠ [] ∧ sep ∉ w := by
  induction s using block_induction sep with
  | block v hv =>
    rw [words_block hv] at hw
    obtain ⟨rfl, hne⟩ := mem_blockWords hw
    exact ⟨hne, hv⟩
  | step v t hv ih =>
    rw [words_append_sep, words_block hv] at hw
    rcases List.mem_append.mp hw with hw | hw
    · obtain ⟨rfl, hne⟩ := mem_blockWords hw
      exact ⟨hne, hv⟩
    · exact ih hw

theorem words_eq_nil_iff : words sep s = [] ↔ ∀ x ∈ s, x = sep := by
  refine ⟨fun h => ?_, fun h => words_append_of_forall (s := []) h⟩
  induction s using block_induction sep with
  | block w hw =>
    rw [words_block hw, blockWords] at h
    split_ifs at h with hnil
    rw [hnil]
    exact fun x hx => absurd hx List.not_mem_nil
  | step w t hw ih =>
    rw [words_append_sep, words_block hw, blockWords, List.append_eq_nil_iff] at h
    split_ifs at h with hnil
    · rw [hnil]
      exact List.forall_mem_cons.mpr ⟨rfl, ih h.2⟩
    · exact h.1.elim

/-- `ws` are the blocks of `s`: each without `sep`, and parted by at least one `sep`. -/
inductive Blocks (sep : α) : List α → List (List α) → Prop
  | nil : Blocks sep [] []
  | sep (s : List α) (ws : List (List α)) : Blocks sep s ws → Blocks sep (sep :: s) ws
  | last (w : List α) : w ≠ [] → sep ∉ w → Blocks sep w [w]
  | cons (w s : List α) (ws : List (List α)) : w ≠ [] → sep ∉ w → Blocks sep s ws →
      Blocks sep (w ++ sep :: s) (w :: ws)

theorem Blocks.words_eq (h : Blocks sep s ws) : words sep s = ws := by
  induction h with
  | nil => rfl
  | sep _ _ _ ih => rw [words_sep_cons, ih]
  | last _ hne hw => exact words_of_not_mem hne hw
  | cons _ _ _ hne hw _ ih => rw [words_append_sep, words_of_not_mem hne hw, ih, List.singleton_append]

/-- Every list has its blocks. -/
theorem blocks_words (sep : α) (s : List α) : Blocks sep s (words sep s) := by
  induction s using block_induction sep with
  | block w hw =>
    by_cases hnil : w = []
    · rw [hnil]
      exact .nil
    · rw [words_of_not_mem hnil hw]
      exact .last w hnil hw
  | step w t hw ih =>
    by_cases hnil : w = []
    · rw [hnil, List.nil_append, words_sep_cons]
      exact .sep t _ ih
    · rw [words_append_sep, words_of_not_mem hnil hw]
      exact .cons w t _ hnil hw ih

/-- The blocks are determined by the list. -/
theorem blocks_iff : Blocks sep s ws ↔ ws = words sep s :=
  ⟨fun h => h.words_eq.symm, fun h => h ▸ blocks_words sep s⟩

/-! ## Joining -/

section Join

omit [DecidableEq α]

/-- A joined list from its first block. -/
theorem intercalate_cons (w : List α) (ws : List (List α)) :
    [sep].intercalate (w :: ws) = w ++ ws.flatMap (sep :: ·) := by
  induction ws generalizing w with
  | nil => rw [List.intercalate_singleton, List.flatMap_nil, List.append_nil]
  | cons v ws ih =>
    rw [List.intercalate_cons_cons, ih, List.flatMap_cons, List.append_assoc]
    rfl

theorem intercalate_concat (hws : ws ≠ []) (w : List α) :
    [sep].intercalate (ws ++ [w]) = [sep].intercalate ws ++ sep :: w := by
  obtain ⟨v, ws, rfl⟩ := List.exists_cons_of_ne_nil hws
  rw [List.cons_append, intercalate_cons, intercalate_cons, List.flatMap_append, List.append_assoc]
  simp

/-- What is added to the last block is added to the joined list. -/
theorem intercalate_concat_append (ws : List (List α)) (w t : List α) :
    [sep].intercalate (ws ++ [w ++ t]) = [sep].intercalate (ws ++ [w]) ++ t := by
  by_cases hws : ws = []
  · subst hws
    simp [List.intercalate_singleton]
  · rw [intercalate_concat hws, intercalate_concat hws, List.append_assoc, List.cons_append]

theorem reverse_intercalate (ws : List (List α)) :
    ([sep].intercalate ws).reverse = [sep].intercalate (ws.map List.reverse).reverse := by
  induction ws with
  | nil => rfl
  | cons w ws ih =>
    by_cases hws : ws = []
    · subst hws
      simp [List.intercalate_singleton]
    · rw [List.intercalate_cons_of_ne_nil hws, List.reverse_append, List.reverse_append, ih, List.map_cons,
        List.reverse_cons, List.reverse_cons, intercalate_concat (by simpa using hws)]
      simp

end Join

/-! ## Repeated separators run together -/

/-- The words joined, and one more separator when the list ends in one. -/
def squeezed (sep : α) (s : List α) : List α :=
  [sep].intercalate (words sep s) ++ if s.getLast? = some sep then [sep] else []

omit [DecidableEq α] in
theorem exists_last_sep (h : sep ∈ s) : ∃ t w, s = t ++ sep :: w ∧ sep ∉ w := by
  obtain ⟨b, r, hs, hb⟩ := List.eq_append_cons_of_mem (List.mem_reverse.mpr h)
  refine ⟨r.reverse, b.reverse, ?_, mt List.mem_reverse.mp hb⟩
  rw [← List.reverse_reverse s, hs]
  simp

theorem squeezed_of_getLast?_ne (h : s.getLast? ≠ some sep) :
    squeezed sep s = [sep].intercalate (words sep s) := by
  rw [squeezed, if_neg h, List.append_nil]

theorem squeezed_of_not_mem (h : sep ∉ s) : squeezed sep s = s := by
  rw [squeezed_of_getLast?_ne fun hlast => h (List.mem_of_getLast? hlast), words_block h, blockWords]
  split_ifs with hnil
  · rw [hnil, List.intercalate_nil]
  · exact List.intercalate_singleton

/-- A separator only adds to it behind another element. -/
theorem squeezed_concat_sep (s : List α) :
    squeezed sep (s ++ [sep]) = if s.getLast? = some sep then
    squeezed sep s else squeezed sep s ++ [sep] := by
  rw [squeezed, words_concat_sep, List.getLast?_concat, if_pos rfl]
  split_ifs with hlast
  · rw [squeezed, if_pos hlast]
  · rw [squeezed_of_getLast?_ne hlast]

/-- Every other element adds to it. -/
theorem squeezed_concat_of_ne (hc : c ≠ sep) (hs : s.head? ≠ some sep) :
    squeezed sep (s ++ [c]) = squeezed sep s ++ [c] := by
  have hmem : ∀ w, sep ∉ w → sep ∉ w ++ [c] := fun w hw => by simp [hw, hc.symm]
  by_cases hsep : sep ∈ s
  · obtain ⟨t, w, rfl, hw⟩ := exists_last_sep hsep
    have hlast : (t ++ sep :: w ++ [c]).getLast? ≠ some sep := by
      rw [List.getLast?_concat]
      exact fun h => hc (Option.some.inj h)
    have ht : words sep t ≠ [] := by
      intro hnil
      cases t with
      | nil => exact hs rfl
      | cons x t => exact hs (congrArg some (words_eq_nil_iff.mp hnil x List.mem_cons_self))
    rw [squeezed_of_getLast?_ne hlast, List.append_assoc, List.cons_append, words_append_sep,
      words_of_not_mem (by simp) (hmem w hw), intercalate_concat_append]
    congr 1
    by_cases hnil : w = []
    · rw [hnil, intercalate_concat ht, squeezed, words_concat_sep, List.getLast?_concat, if_pos rfl]
    · have hlast' : (t ++ sep :: w).getLast? ≠ some sep := fun h => hw (by
        rw [List.getLast?_append_of_ne_nil _ (List.cons_ne_nil _ _), List.getLast?_cons_of_ne_nil hnil] at h
        exact List.mem_of_getLast? h)
      rw [squeezed_of_getLast?_ne hlast', words_append_sep, words_of_not_mem hnil hw]
  · rw [squeezed_of_not_mem hsep, squeezed_of_not_mem (hmem s hsep)]

theorem getLast?_squeezed (hs : s.head? ≠ some sep) : (squeezed sep s).getLast? = s.getLast? := by
  cases s using List.reverseRecOn with
  | nil => rfl
  | append_singleton t c =>
    rw [List.getLast?_concat]
    by_cases hc : c = sep
    · rw [hc, squeezed, List.getLast?_concat, if_pos rfl, List.getLast?_concat]
    · have ht : t.head? ≠ some sep := by
        cases t with
        | nil => exact Option.some_ne_none sep ∘ Eq.symm
        | cons x t => exact hs
      rw [squeezed_concat_of_ne hc ht, List.getLast?_concat]

end Words
