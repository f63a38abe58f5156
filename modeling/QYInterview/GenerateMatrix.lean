import QYInterview.Lib.Spiral
import QYInterview.Swift

/-!
# GenerateMatrix — the numbers from 1 in a spiral

`GenerateMatrixController.swift`.  `count` is written to the cell that has this number in the spiral and
then goes up, so after every write all cells with a number below `count` are `Filled`; a turn of the outer
loop goes along the four sides of a ring.
-/

namespace QYInterview.GenerateMatrix

open RunLogic Swift Spiral

/-! ## The code -/

/-- `result[row][column] = count` -/
def setCell (result : List (List ℤ)) (row column count : ℤ) : Prog (List (List ℤ)) := do
  set result row (← set (← get result row) column count)

/-- The variables inside a ring. -/
structure Walk where
  result : List (List ℤ)
  row : ℤ
  column : ℤ
  count : ℤ

/-- `for c in column ..< startColumn + n - offset` -/
def topBody (startRow : ℤ) (v : Walk) (c : ℤ) : Prog Walk := do
  return { v with
    result := ← setCell v.result startRow c v.count, count := v.count + 1, column := v.column + 1 }

/-- `for r in row ..< startRow + n - offset` -/
def rightBody (v : Walk) (r : ℤ) : Prog Walk := do
  return { v with
    result := ← setCell v.result r v.column v.count, count := v.count + 1, row := v.row + 1 }

/-- `for _ in startColumn ..< column` -/
def bottomBody (v : Walk) (_ : ℤ) : Prog Walk := do
  return { v with
    result := ← setCell v.result v.row v.column v.count, count := v.count + 1, column := v.column - 1 }

/-- `for _ in startRow ..< row` -/
def leftBody (v : Walk) (_ : ℤ) : Prog Walk := do
  return { v with
    result := ← setCell v.result v.row v.column v.count, count := v.count + 1, row := v.row - 1 }

/-- The four loops. -/
def sides (n startRow startColumn offset : ℤ) (v : Walk) : Prog Walk := do
  let v ← forRange v.column (startColumn + n - offset) (topBody startRow) v
  let v ← forRange v.row (startRow + n - offset) rightBody v
  let v ← forRange startColumn v.column bottomBody v
  forRange startRow v.row leftBody v

/-- The variables of the outer loop. -/
structure Rings where
  result : List (List ℤ)
  startRow : ℤ
  startColumn : ℤ
  loopCount : ℤ
  count : ℤ
  offset : ℤ

/-- `while loopCount > 0` -/
def ringTurn (n : ℤ) (v : Rings) : Prog (Turn Rings Rings) :=
  if v.loopCount > 0 then do
    let w ← sides n v.startRow v.startColumn v.offset ⟨v.result, v.startRow, v.startColumn, v.count⟩
    return .next ⟨w.result, v.startRow + 1, v.startColumn + 1, v.loopCount - 1, w.count, v.offset + 2⟩
  else pure (.exit v)

def generateMatrix (n : ℤ) : Prog (List (List ℤ)) := do
  let result ← repeating (← repeating 0 n) n
  let mid := n / 2
  let v ← loop (ringTurn n) ⟨result, 0, 0, n / 2, 1, 1⟩
  if n % 2 ≠ 0 then setCell v.result mid mid v.count else return v.result

/-! ## Cells -/

section Cells

variable {n k r c : ℕ} {result : List (List ℤ)}

/-- The value in a cell. -/
def cell (result : List (List ℤ)) (r c : ℕ) : Option ℤ := result[r]?.bind fun row => row[c]?

/-- `n` rows of `n` values. -/
structure Square (n : ℕ) (result : List (List ℤ)) : Prop where
  rows : result.length = n
  columns : ∀ row ∈ result, row.length = n

/-- The cells with the numbers up to `k` hold these. -/
structure Filled (n k : ℕ) (result : List (List ℤ)) : Prop where
  square : Square n result
  cells : ∀ r c, r < n → c < n → number n r c ≤ k → cell result r c = some (number n r c : ℤ)

theorem square_replicate (n : ℕ) : Square n (List.replicate n (List.replicate n 0)) := by
  refine ⟨List.length_replicate, ?_⟩
  intro row hrow
  rw [(List.mem_replicate.mp hrow).2, List.length_replicate]

/-- The next number is written to its cell. -/
theorem Filled.write (h : Filled n k result) (hr : r < n) (hc : c < n) (hnum : number n r c = k + 1) :
    ∃ result', setCell result r c ((k : ℤ) + 1) = pure result' ∧ Filled n (k + 1) result' := by
  have hrl : r < result.length := h.square.rows ▸ hr
  have hcl : c < result[r].length := by
    rw [h.square.columns _ (List.getElem_mem hrl)]
    exact hc
  refine ⟨result.set r (result[r].set c ((k : ℤ) + 1)), ?_, ⟨⟨?_, ?_⟩, ?_⟩⟩
  · rw [setCell, get_eq (List.getElem?_eq_getElem hrl), pure_bind, set_eq hcl, pure_bind, set_eq hrl]
  · rw [List.length_set, h.square.rows]
  · intro row hrow
    rcases List.mem_or_eq_of_mem_set hrow with hmem | rfl
    · exact h.square.columns row hmem
    · rw [List.length_set, h.square.columns _ (List.getElem_mem hrl)]
  · intro r' c' hr' hc' hle
    unfold cell
    by_cases hrow : r = r'
    · subst hrow
      rw [List.getElem?_set_self hrl, Option.bind_some]
      by_cases hcol : c = c'
      · subst hcol
        rw [List.getElem?_set_self hcl, hnum, Nat.cast_succ]
      · have hne : number n r c' ≠ k + 1 := fun heq => hcol (number_inj hr hc hr' hc' (hnum.trans heq.symm)).2
        have hold := h.cells r c' hr' hc' (by omega)
        rw [List.getElem?_set_ne hcol]
        simpa only [cell, List.getElem?_eq_getElem hrl, Option.bind_some] using hold
    · have hne : number n r' c' ≠ k + 1 := fun heq => hrow (number_inj hr hc hr' hc' (hnum.trans heq.symm)).1
      rw [List.getElem?_set_ne hrow]
      exact h.cells r' c' hr' hc' (by omega)

end Cells

/-! ## A ring -/

section Walk

variable {n s k : ℕ} {v : Walk}

/-- At a cell, before the number `k + 1` is written. -/
structure At (n row column k : ℕ) (v : Walk) : Prop where
  row : v.row = row
  column : v.column = column
  count : v.count = (k : ℤ) + 1
  filled : Filled n k v.result

/-- A side: turn `i` writes to the cell `(row i, column i)`, which has the next number,
and goes on to the next cell. -/
theorem halts_side {stop : ℕ} {body : Walk → ℤ → Prog Walk} (row column : ℕ → ℕ) (hle : s ≤ stop)
    (hnum : ∀ i, s ≤ i → i < stop → row i < n ∧ column i < n ∧ number n (row i) (column i) = k + (i - s) + 1)
    (hbody : ∀ (i : ℕ) (v : Walk) (result' : List (List ℤ)), s ≤ i → i < stop →
      v.row = row i → v.column = column i →
      setCell v.result (row i) (column i) v.count = pure result' →
      body v i = pure ⟨result', row (i + 1), column (i + 1), v.count + 1⟩)
    (h : At n (row s) (column s) k v) :
    Halts (forRange s stop body v) (At n (row stop) (column stop) (k + (stop - s))) := by
  refine halts_forRange hle (fun i v => At n (row i) (column i) (k + (i - s)) v) (fun i v h1 hi hv => ?_) ?_
  · obtain ⟨hr, hc, hnumber⟩ := hnum i h1 hi
    obtain ⟨result', hset, hfilled⟩ := hv.filled.write hr hc hnumber
    rw [← hv.count] at hset
    rw [hbody i v result' h1 hi hv.row hv.column hset]
    refine halts_pure ⟨rfl, rfl, ?_, ?_⟩
    · show v.count + 1 = _
      rw [hv.count]
      omega
    · rwa [show k + (i + 1 - s) = k + (i - s) + 1 by omega]
  · rwa [Nat.sub_self, Nat.add_zero]

theorem halts_top (hs : 2 * s + 1 < n) (h : At n s s (base n s) v) :
    Halts (forRange (s : ℕ) (n - 1 - s : ℕ) (topBody s) v)
      (At n s (n - 1 - s) (base n s + (n - 1 - 2 * s))) := by
  rw [show n - 1 - 2 * s = n - 1 - s - s by omega]
  refine halts_side (fun _ => s) (fun i => i) (by omega) (fun i h1 hi => ?_)
    (fun i v result' h1 hi hrow hcol hset => ?_) h
  · exact ⟨by omega, by omega, number_top h1 (by omega)⟩
  · simp only [topBody, hset, pure_bind, hrow, hcol, Nat.cast_succ]

theorem halts_right (hs : 2 * s + 1 < n) (h : At n s (n - 1 - s) (base n s + (n - 1 - 2 * s)) v) :
    Halts (forRange (s : ℕ) (n - 1 - s : ℕ) rightBody v)
      (At n (n - 1 - s) (n - 1 - s) (base n s + 2 * (n - 1 - 2 * s))) := by
  rw [show base n s + 2 * (n - 1 - 2 * s) = base n s + (n - 1 - 2 * s) + (n - 1 - s - s) by omega]
  refine halts_side (fun i => i) (fun _ => n - 1 - s) (by omega) ?_ ?_ h
  · intro i h1 hi
    exact ⟨by omega, by omega, number_right hs.le h1 hi.le⟩
  · intro i v result' h1 hi hrow hcol hset
    simp only [rightBody, hcol, hset, pure_bind, hrow, Nat.cast_succ]

theorem halts_bottom (hs : 2 * s + 1 < n)
    (h : At n (n - 1 - s) (n - 1 - s) (base n s + 2 * (n - 1 - 2 * s)) v) :
    Halts (forRange (s : ℕ) (n - 1 - s : ℕ) bottomBody v)
      (At n (n - 1 - s) s (base n s + 3 * (n - 1 - 2 * s))) := by
  have hside : Halts (forRange (s : ℕ) (n - 1 - s : ℕ) bottomBody v)
      (At n (n - 1 - s) (n - 1 - (n - 1 - s)) (base n s + 2 * (n - 1 - 2 * s) + (n - 1 - s - s))) := by
    refine halts_side (fun _ => n - 1 - s) (fun i => n - 1 - i) (by omega) ?_ ?_ h
    · intro i h1 hi
      refine ⟨by omega, by omega, ?_⟩
      rw [number_bottom hs.le (by omega) (by omega)]
      omega
    · intro i v result' h1 hi hrow hcol hset
      simp only [bottomBody, hrow, hcol, hset, pure_bind]
      rw [show ((n - 1 - i : ℕ) : ℤ) - 1 = ((n - 1 - (i + 1) : ℕ) : ℤ) by omega]
  rw [show n - 1 - (n - 1 - s) = s by omega] at hside
  rwa [show base n s + 3 * (n - 1 - 2 * s) = base n s + 2 * (n - 1 - 2 * s) + (n - 1 - s - s) by omega]

theorem halts_left (hs : 2 * s + 1 < n) (h : At n (n - 1 - s) s (base n s + 3 * (n - 1 - 2 * s)) v) :
    Halts (forRange (s : ℕ) (n - 1 - s : ℕ) leftBody v) (At n s s (base n (s + 1))) := by
  have hside : Halts (forRange (s : ℕ) (n - 1 - s : ℕ) leftBody v)
      (At n (n - 1 - (n - 1 - s)) s (base n s + 3 * (n - 1 - 2 * s) + (n - 1 - s - s))) := by
    refine halts_side (fun i => n - 1 - i) (fun _ => s) (by omega) ?_ ?_ h
    · intro i h1 hi
      refine ⟨by omega, by omega, ?_⟩
      rw [number_left hs.le (by omega) (by omega)]
      omega
    · intro i v result' h1 hi hrow hcol hset
      simp only [leftBody, hrow, hcol, hset, pure_bind]
      rw [show ((n - 1 - i : ℕ) : ℤ) - 1 = ((n - 1 - (i + 1) : ℕ) : ℤ) by omega]
  rw [show n - 1 - (n - 1 - s) = s by omega] at hside
  rwa [base_succ hs.le, show base n s + 4 * (n - 1 - 2 * s) =
    base n s + 3 * (n - 1 - 2 * s) + (n - 1 - s - s) by omega]

/-- The four sides of ring `s`. -/
theorem halts_sides (hs : 2 * s + 1 < n) (h : At n s s (base n s) v) :
    Halts (sides n s s (2 * s + 1) v) (At n s s (base n (s + 1))) := by
  have hstop : (s : ℤ) + n - (2 * s + 1) = (n - 1 - s : ℕ) := by omega
  unfold sides
  rw [hstop, h.column]
  refine halts_bind ((halts_top hs h).mono ?_)
  intro v h
  rw [h.row]
  refine halts_bind ((halts_right hs h).mono ?_)
  intro v h
  rw [h.column]
  refine halts_bind ((halts_bottom hs h).mono ?_)
  intro v h
  rw [h.row]
  exact halts_left hs h

end Walk

/-! ## All rings -/

section Rings

variable {n s : ℕ} {v : Rings}

/-- Before ring `s`, all rings around it are filled. -/
structure Before (n s : ℕ) (v : Rings) : Prop where
  ring : 2 * s ≤ n
  startRow : v.startRow = s
  startColumn : v.startColumn = s
  loopCount : v.loopCount = n / 2 - s
  count : v.count = (base n s : ℤ) + 1
  offset : v.offset = 2 * s + 1
  filled : Filled n (base n s) v.result

theorem before_zero (n : ℕ) : Before n 0 ⟨List.replicate n (List.replicate n 0), 0, 0, n / 2, 1, 1⟩ where
  ring := Nat.zero_le n
  startRow := rfl
  startColumn := rfl
  loopCount := by simp
  count := by simp
  offset := rfl
  filled := by
    refine ⟨square_replicate n, ?_⟩
    intro r c hr hc hle
    have := (number_mem hr hc).1
    rw [base_zero] at hle
    omega

theorem Before.step (h : Before n s v) (hs : 2 * s + 1 < n) :
    Halts (ringTurn n v) (Turn.Good (fun v' => Before n (s + 1) v' ∧ v'.loopCount.toNat < v.loopCount.toNat)
      fun _ => False) := by
  have hloop := h.loopCount
  have hat : At n s s (base n s) ⟨v.result, v.startRow, v.startColumn, v.count⟩ :=
    ⟨h.startRow, h.startColumn, h.count, h.filled⟩
  unfold ringTurn
  rw [if_pos (by omega), h.startRow, h.startColumn, h.offset]
  rw [h.startRow, h.startColumn] at hat
  refine halts_bind ((halts_sides hs hat).mono fun w hw =>
    halts_pure ⟨⟨by omega, ?_, ?_, ?_, hw.count, ?_, hw.filled⟩, ?_⟩)
  · rw [Nat.cast_succ]
  · rw [Nat.cast_succ]
  · show v.loopCount - 1 = _
    omega
  · show 2 * (s : ℤ) + 1 + 2 = _
    omega
  · show (v.loopCount - 1).toNat < _
    omega

theorem halts_rings (n : ℕ) :
    Halts (loop (ringTurn n) ⟨List.replicate n (List.replicate n 0), 0, 0, n / 2, 1, 1⟩)
    (Before n (n / 2)) := by
  refine halts_loop (fun v => ∃ s, Before n s v) (fun v => v.loopCount.toNat) _ (fun v hv => ?_) _
    ⟨0, before_zero n⟩
  obtain ⟨s, h⟩ := hv
  have hloop := h.loopCount
  have hring := h.ring
  by_cases hs : 2 * s + 1 < n
  · refine (h.step hs).mono ?_
    intro t ht
    cases t with
    | next v' => exact ⟨⟨s + 1, ht.1⟩, ht.2⟩
    | exit v' => exact ht.elim
  · obtain rfl : s = n / 2 := by omega
    unfold ringTurn
    rw [if_neg (by omega)]
    exact halts_pure h

end Rings

/-- Every cell holds its number in the clockwise spiral,
and so every number from 1 to `n * n` is in exactly one cell. -/
theorem generateMatrix_spec (n : ℕ) : ∃ result, Returns (generateMatrix n) result ∧ Square n result ∧
    (∀ r c, r < n → c < n → cell result r c = some (number n r c : ℤ)) ∧
    ∀ k : ℕ, 1 ≤ k → k ≤ n * n → ∃! p : ℕ × ℕ, (p.1 < n ∧ p.2 < n) ∧ cell result p.1 p.2 = some (k : ℤ) := by
  have hfilled : Halts (generateMatrix n) (Filled n (n * n)) := by
    have hbase := base_half n
    unfold generateMatrix
    simp only [repeating_eq, pure_bind]
    refine halts_bind ((halts_rings n).mono ?_)
    intro v hv
    by_cases hodd : n % 2 = 0
    · rw [if_neg (by omega)]
      rw [hodd, Nat.add_zero] at hbase
      exact halts_pure (hbase ▸ hv.filled)
    · rw [if_pos (by omega), hv.count]
      have hnumber : number n (n / 2) (n / 2) = base n (n / 2) + 1 := by
        rw [number_centre (by omega)]
        omega
      obtain ⟨result', hset, hresult⟩ := hv.filled.write (by omega) (by omega) hnumber
      rw [Int.natCast_div] at hset
      rw [show base n (n / 2) + 1 = n * n by omega] at hresult
      exact ⟨result', hset ▸ returns_pure _, hresult⟩
  obtain ⟨result, hret, hresult⟩ := hfilled
  have hcells : ∀ r c, r < n → c < n → cell result r c = some (number n r c : ℤ) :=
    fun r c hr hc => hresult.cells r c hr hc (number_mem hr hc).2
  refine ⟨result, hret, hresult.square, hcells, ?_⟩
  intro k h1 hk
  obtain ⟨⟨r, c⟩, ⟨hp, hnum⟩, hunique⟩ := existsUnique_number h1 hk
  refine ⟨(r, c), ⟨hp, by rw [hcells r c hp.1 hp.2, hnum]⟩, ?_⟩
  rintro ⟨r', c'⟩ ⟨hp', heq⟩
  rw [hcells r' c' hp'.1 hp'.2] at heq
  exact hunique (r', c') ⟨hp', Nat.cast_injective (Option.some.inj heq)⟩

end QYInterview.GenerateMatrix
