import QYInterview.Lib.Pairing
import QYInterview.Lib.Sorted
import QYInterview.Swift

/-!
# MergeSort — merging neighbouring runs until one is left

`MergeSortController.swift`.  The inner loop merges `temp[index]` with the run behind it and removes that
one, so in front of `index` stand the merged runs of this pass and from `index` on the runs it has not
reached: a turn takes the next two of these.  `passes` records the runs after each pass and is read by no
code.
-/

namespace QYInterview.MergeSort

open RunLogic Swift Pairing

/-! ## The code -/

/-- `while firstIndex < first.count && secondIndex < second.count` -/
def mergeTurn (first second : List ℤ) : List ℤ × ℤ × ℤ → Prog (Turn (List ℤ × ℤ × ℤ) (List ℤ × ℤ × ℤ))
  | (result, firstIndex, secondIndex) =>
    if firstIndex < first.length ∧ secondIndex < second.length then do
      if (← get first firstIndex) < (← get second secondIndex) then
        return .next (result ++ [← get first firstIndex], firstIndex + 1, secondIndex)
      else
        return .next (result ++ [← get second secondIndex], firstIndex, secondIndex + 1)
    else pure (.exit (result, firstIndex, secondIndex))

/-- `while index < array.count`, for `first` and for `second`. -/
def restTurn (array : List ℤ) : List ℤ × ℤ → Prog (Turn (List ℤ × ℤ) (List ℤ))
  | (result, index) =>
    if index < array.length then do return .next (result ++ [← get array index], index + 1)
    else pure (.exit result)

/-- `merge(_ first:, second:)` -/
def merge (first second : List ℤ) : Prog (List ℤ) := do
  let (result, firstIndex, secondIndex) ← loop (mergeTurn first second) ([], 0, 0)
  let result ← loop (restTurn first) (result, firstIndex)
  loop (restTurn second) (result, secondIndex)

/-- `for item in array` -/
def singles (array : List ℤ) : List (List ℤ) := array.foldl (fun temp item => temp ++ [[] ++ [item]]) []

/-- `while index < temp.count - 1` -/
def pairTurn : List (List ℤ) × ℤ → Prog (Turn (List (List ℤ) × ℤ) (List (List ℤ)))
  | (temp, index) =>
    if index < (temp.length : ℤ) - 1 then do
      let temp ← set temp index (← merge (← get temp index) (← get temp (index + 1)))
      let temp ← removeAt temp (index + 1)
      return .next (temp, index + 1)
    else pure (.exit temp)

/-- `while temp.count != 1` -/
def passTurn : List (List ℤ) × List (List (List ℤ)) →
    Prog (Turn (List (List ℤ) × List (List (List ℤ))) (List (List ℤ) × List (List (List ℤ))))
  | (temp, passes) =>
    if temp.length ≠ 1 then do
      let temp ← loop pairTurn (temp, 0)
      return .next (temp, passes ++ [temp])
    else pure (.exit (temp, passes))

/-- The runs at the end, and after each pass. -/
def passes (array : List ℤ) : Prog (List (List ℤ) × List (List (List ℤ))) := loop passTurn (singles array, [])

def mergeSort (array : List ℤ) : Prog (List ℤ) := do
  let (temp, _) ← passes array
  unwrap (first temp)

/-! ## Merging two runs -/

/-- What `merge` computes: of two equal heads the second run's comes first. -/
def merged (first second : List ℤ) : List ℤ := second.merge first fun b a => decide (b ≤ a)

theorem merged_perm (first second : List ℤ) : (merged first second).Perm (first ++ second) :=
  (List.merge_perm_append _).trans List.perm_append_comm

theorem pairwise_merged {first second : List ℤ} (h1 : first.Pairwise (· ≤ ·)) (h2 : second.Pairwise (· ≤ ·)) :
    (merged first second).Pairwise (· ≤ ·) := h2.merge h1

/-- The loop takes heads until one run is used up; the rest of the other one completes the merge. -/
theorem loopReturns_merge : ∀ (front₁ rest₁ front₂ rest₂ result : List ℤ), ∃ result' back₁ back₂ k₁ k₂,
    LoopReturns (mergeTurn (front₁ ++ rest₁) (front₂ ++ rest₂)) (result, front₁.length, front₂.length)
      (result', k₁, k₂) ∧ (∃ front, front ++ back₁ = front₁ ++ rest₁ ∧ k₁ = (front.length : ℤ)) ∧
      (∃ front, front ++ back₂ = front₂ ++ rest₂ ∧ k₂ = (front.length : ℤ)) ∧
      result' ++ back₁ ++ back₂ = result ++ merged rest₁ rest₂
  | front₁, [], front₂, rest₂, result => by
    refine ⟨result, [], rest₂, _, _, loopReturns_exit ?_, ⟨front₁, rfl, rfl⟩, ⟨front₂, rfl, rfl⟩, ?_⟩
    · simp only [mergeTurn]
      rw [if_neg (by simp)]
      exact returns_pure _
    · simp [merged]
  | front₁, x :: rest₁, front₂, [], result => by
    refine ⟨result, x :: rest₁, [], _, _, loopReturns_exit ?_, ⟨front₁, rfl, rfl⟩, ⟨front₂, rfl, rfl⟩, ?_⟩
    · simp only [mergeTurn]
      rw [if_neg (by simp)]
      exact returns_pure _
    · simp [merged]
  | front₁, x :: rest₁, front₂, y :: rest₂, result => by
    by_cases hlt : x < y
    · obtain ⟨result', back₁, back₂, k₁, k₂, hloop, h1, h2, heq⟩ :=
        loopReturns_merge (front₁ ++ [x]) rest₁ front₂ (y :: rest₂) (result ++ [x])
      rw [List.append_assoc, List.singleton_append] at hloop h1
      refine ⟨result', back₁, back₂, k₁, k₂, loopReturns_next ?_ hloop, h1, h2, ?_⟩
      · simp only [mergeTurn, get_append rfl, pure_bind]
        rw [if_pos (by simp), if_pos hlt, cast_length_concat]
        exact returns_pure _
      · rw [heq, merged, merged, List.cons_merge_cons_neg _ _ _ (by simpa using hlt), List.append_assoc,
          List.singleton_append]
    · obtain ⟨result', back₁, back₂, k₁, k₂, hloop, h1, h2, heq⟩ :=
        loopReturns_merge front₁ (x :: rest₁) (front₂ ++ [y]) rest₂ (result ++ [y])
      rw [List.append_assoc front₂, List.singleton_append] at hloop h2
      refine ⟨result', back₁, back₂, k₁, k₂, loopReturns_next ?_ hloop, h1, h2, ?_⟩
      · simp only [mergeTurn, get_append rfl, pure_bind]
        rw [if_pos (by simp), if_neg hlt, cast_length_concat]
        exact returns_pure _
      · rw [heq, merged, merged, List.cons_merge_cons_pos _ _ _ (by simpa using hlt), List.append_assoc,
          List.singleton_append]
termination_by _ rest₁ _ rest₂ => rest₁.length + rest₂.length

theorem loopReturns_rest : ∀ (front back result : List ℤ),
    LoopReturns (restTurn (front ++ back)) (result, front.length) (result ++ back)
  | front, [], result => by
    refine loopReturns_exit ?_
    simp only [restTurn, List.append_nil]
    rw [if_neg (by simp)]
    exact returns_pure _
  | front, x :: back, result => by
    have hloop := loopReturns_rest (front ++ [x]) back (result ++ [x])
    rw [List.append_assoc, List.singleton_append, List.append_assoc, List.singleton_append] at hloop
    refine loopReturns_next ?_ hloop
    simp only [restTurn, get_append rfl, pure_bind]
    rw [if_pos (by simp), cast_length_concat]
    exact returns_pure _

theorem returns_merge (first second : List ℤ) : Returns (merge first second) (merged first second) := by
  obtain ⟨result, back₁, back₂, k₁, k₂, hloop, ⟨front₁, rfl, rfl⟩, ⟨front₂, rfl, rfl⟩, heq⟩ :=
    loopReturns_merge [] first [] second []
  rw [List.nil_append, List.nil_append] at hloop
  rw [← List.nil_append (merged _ _), ← heq]
  exact returns_bind hloop.returns
    (returns_bind (loopReturns_rest front₁ back₁ result).returns (loopReturns_rest front₂ back₂ _).returns)

/-! ## A pass -/

theorem singles_eq (array : List ℤ) : singles array = array.map fun item => [item] := by
  have key : ∀ (array : List ℤ) (temp : List (List ℤ)),
      array.foldl (fun temp item => temp ++ [[] ++ [item]]) temp = temp ++ array.map fun item => [item] := by
    intro array
    induction array with
    | nil => simp
    | cons item array ih =>
      intro temp
      rw [List.foldl_cons, ih]
      simp
  exact key array []

/-- Behind the merged runs `done` the loop takes the next two. -/
theorem loopReturns_pair : ∀ (todo done : List (List ℤ)),
    LoopReturns pairTurn (done ++ todo, done.length) (done ++ pairUp merged todo)
  | [], done => by
    refine loopReturns_exit ?_
    simp only [pairTurn, List.append_nil, pairUp_nil]
    rw [if_neg (by omega)]
    exact returns_pure _
  | [run], done => by
    refine loopReturns_exit ?_
    simp only [pairTurn, pairUp_singleton]
    rw [if_neg (by simp)]
    exact returns_pure _
  | run₁ :: run₂ :: todo, done => by
    have hloop := loopReturns_pair todo (done ++ [merged run₁ run₂])
    rw [List.append_assoc, List.singleton_append, List.append_assoc, List.singleton_append,
      cast_length_concat] at hloop
    refine loopReturns_next ?_ hloop
    have hget₂ : get (done ++ run₁ :: run₂ :: todo) ((done.length : ℤ) + 1) = pure run₂ := by
      rw [List.append_cons]
      exact get_append (by simp) run₂ todo
    have hremove : removeAt (done ++ merged run₁ run₂ :: run₂ :: todo) ((done.length : ℤ) + 1) =
        pure (done ++ merged run₁ run₂ :: todo) := by
      rw [List.append_cons, removeAt_append (by simp), List.append_assoc, List.singleton_append]
    simp only [pairTurn, get_append rfl, hget₂, pure_bind]
    rw [if_pos (by simp only [List.length_append, List.length_cons]; omega)]
    refine returns_bind (returns_merge run₁ run₂) ?_
    simp only [set_append rfl, hremove, pure_bind]
    exact returns_pure _

/-- What a pass does to the runs. -/
def Pass (runs runs' : List (List ℤ)) : Prop := runs' = pairUp merged runs ∧ 1 < runs.length

theorem Pass.length {runs runs' : List (List ℤ)} (h : Pass runs runs') :
    runs'.length = (runs.length + 1) / 2 ∧ runs'.length < runs.length := by
  obtain ⟨rfl, hlen⟩ := h
  rw [length_pairUp]
  omega

/-- The runs of a state of the outer loop: sorted, and together the elements of the array. -/
def Runs (array : List ℤ) (runs : List (List ℤ)) : Prop :=
  (∀ run ∈ runs, run.Pairwise (· ≤ ·)) ∧ runs.flatten.Perm array

theorem runs_singles (array : List ℤ) : Runs array (singles array) := by
  rw [singles_eq]
  constructor
  · intro run hrun
    obtain ⟨item, -, rfl⟩ := List.mem_map.mp hrun
    exact List.pairwise_singleton _ item
  · rw [← List.flatMap_def, List.flatMap_singleton']

theorem Pass.runs {array : List ℤ} {runs runs' : List (List ℤ)} (h : Pass runs runs') (hr : Runs array runs) :
    Runs array runs' := by
  obtain ⟨rfl, -⟩ := h
  exact ⟨forall_pairUp (fun _ _ => pairwise_merged) runs hr.1,
    (flatten_pairUp_perm merged_perm runs).trans hr.2⟩

/-! ## All passes -/

/-- From a state with a run the loop ends with one run, and it records the passes on the way. -/
theorem loopReturns_passes (k : ℕ) :
    ∀ (temp : List (List ℤ)) (ps : List (List (List ℤ))), temp.length = k → temp ≠ [] →
    ∃ result more, LoopReturns passTurn (temp, ps) ([result], ps ++ more) ∧ (temp :: more).IsChain Pass ∧
      (temp :: more).getLast? = some [result] := by
  induction k using Nat.strong_induction_on with
  | _ k ih =>
    intro temp ps hk hne
    by_cases hone : temp.length = 1
    · obtain ⟨result, rfl⟩ := List.length_eq_one_iff.mp hone
      refine ⟨result, [], loopReturns_exit ?_, List.isChain_singleton _, rfl⟩
      simp only [passTurn, List.append_nil]
      rw [if_neg (by simp)]
      exact returns_pure _
    · have hpass : Pass temp (pairUp merged temp) := ⟨rfl, by have := List.length_pos_iff.mpr hne; omega⟩
      have hne' : pairUp merged temp ≠ [] := by
        rw [← List.length_pos_iff, length_pairUp]
        have := hpass.2
        omega
      obtain ⟨result, more, hloop, hchain, hlast⟩ :=
        ih _ (hk ▸ hpass.length.2) (pairUp merged temp) (ps ++ [pairUp merged temp]) rfl hne'
      rw [List.append_assoc, List.singleton_append] at hloop
      refine ⟨result, pairUp merged temp :: more, loopReturns_next ?_ hloop,
        List.isChain_cons_cons.mpr ⟨hpass, hchain⟩, ?_⟩
      · simp only [passTurn]
        rw [if_pos hone]
        exact returns_bind (loopReturns_pair temp []).returns (returns_pure _)
      · rw [List.getLast?_cons_cons, hlast]

theorem exists_passes {array : List ℤ} (h : array ≠ []) : ∃ result ps, Returns (passes array) ([result], ps) ∧
    Returns (mergeSort array) result ∧ (singles array :: ps).IsChain Pass ∧
      (singles array :: ps).getLast? = some [result] := by
  have hne : singles array ≠ [] := by
    rw [singles_eq]
    exact fun heq => h (List.map_eq_nil_iff.mp heq)
  obtain ⟨result, ps, hloop, hchain, hlast⟩ := loopReturns_passes _ (singles array) [] rfl hne
  exact ⟨result, ps, hloop.returns, returns_bind hloop.returns (returns_pure _), hchain, hlast⟩

/-- Every pass merges neighbouring runs, keeps them sorted and keeps their elements;
the last one leaves the result. -/
theorem mergeSort_spec {array : List ℤ} (h : array ≠ []) :
    ∃ result ps, Returns (passes array) ([result], ps) ∧
    Returns (mergeSort array) result ∧
    ((array.map fun item => [item]) :: ps).IsChain (fun runs runs' => runs' = pairUp merged runs) ∧
    (∀ runs ∈ ps, (∀ run ∈ runs, run.Pairwise (· ≤ ·)) ∧ runs.flatten.Perm array) ∧
    result.Perm array ∧ result.Pairwise (· ≤ ·) := by
  obtain ⟨result, ps, hpasses, hsort, hchain, hlast⟩ := exists_passes h
  have hruns : ∀ runs ∈ singles array :: ps, Runs array runs :=
    hchain.induction (Runs array) _ (fun _ _ hpass hr => hpass.runs hr) (fun _ => runs_singles array)
  have hresult := hruns [result] (List.mem_of_getLast? hlast)
  refine ⟨result, ps, hpasses, hsort, ?_, fun runs hr => hruns runs (List.mem_cons_of_mem _ hr), ?_,
    hresult.1 result (List.mem_singleton_self result)⟩
  · rw [← singles_eq]
    exact hchain.imp fun _ _ hpass => hpass.1
  · simpa using hresult.2

theorem mergeSort_spec_three :
    ([3, 1, 2] : List ℤ) ≠ [] ∧ ∃ result ps, Returns (passes [3, 1, 2]) ([result], ps) ∧
    Returns (mergeSort [3, 1, 2]) result ∧
    ((([3, 1, 2] : List ℤ).map fun item => [item]) :: ps).IsChain
      (fun runs runs' => runs' = pairUp merged runs) ∧
    (∀ runs ∈ ps, (∀ run ∈ runs, run.Pairwise (· ≤ ·)) ∧ runs.flatten.Perm [3, 1, 2]) ∧
    result.Perm [3, 1, 2] ∧ result.Pairwise (· ≤ ·) :=
  ⟨by decide, mergeSort_spec (by decide)⟩

/-- From no runs the count is never one, and a pass leaves it at none. -/
theorem diverges_passes : Diverges (passes []) := by
  refine diverges_loop (fun s => s.1 = []) (fun s n hs => ?_) rfl
  obtain ⟨temp, ps⟩ := s
  obtain rfl : temp = [] := hs
  cases n with
  | zero => exact Or.inl rfl
  | succ n => exact Or.inr ⟨_, rfl, rfl⟩

/-- The outer loop ends with one run, through counts that are halved, rounding up, and so fall, exactly when
the array is not empty. -/
theorem passes_end_iff (array : List ℤ) :
    (∃ temp ps result, Returns (passes array) (temp, ps) ∧ temp.length = 1 ∧ temp.head? = some result ∧
      Returns (mergeSort array) result ∧
      (array.length :: ps.map List.length).IsChain (fun k k' => k' = (k + 1) / 2 ∧ k' < k) ∧
      (array.length :: ps.map List.length).getLast? = some 1) ↔ array ≠ [] := by
  constructor
  · rintro ⟨temp, ps, result, hpasses, -⟩ rfl
    exact diverges_passes.not_returns hpasses
  · intro h
    obtain ⟨result, ps, hpasses, hsort, hchain, hlast⟩ := exists_passes h
    have hcounts : array.length :: ps.map List.length = (singles array :: ps).map List.length := by
      rw [List.map_cons, singles_eq, List.length_map]
    refine ⟨[result], ps, result, hpasses, rfl, rfl, hsort, ?_, ?_⟩
    · rw [hcounts]
      exact List.isChain_map_of_isChain _ (fun _ _ hpass => hpass.length) hchain
    · rw [hcounts, List.getLast?_map, hlast]
      rfl

/-- For the empty array the loop goes on for ever. -/
theorem mergeSort_empty : Diverges (mergeSort []) ∧ ¬ ∃ r, Returns (passes []) r :=
  ⟨diverges_passes.bind _, fun ⟨_, h⟩ => diverges_passes.not_returns h⟩

end QYInterview.MergeSort
