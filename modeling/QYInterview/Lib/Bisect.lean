import QYInterview.Lib.RunLogic
import QYInterview.Lib.Sorted

/-!
# Bisect — searching a sorted list by halving a window

A loop bisects when, seen through `view` as a window `lo ≤ i < up`, it leaves with `-1` on an empty
window and otherwise probes one position `mid` of the window: it leaves with `mid` on a hit and goes
on with the part above or below `mid`.  `halts_bisect`: such a loop over a sorted list returns, and
its result `Finds` the value in the window it started from.  Which position is probed, and whether
the window is stored closed or half-open, does not matter.

A search for the place of a value keeps a window that is `Between` the smaller and the greater elements; where
it closes, and at any hit, the list is `Cut`.
-/

namespace Bisect

open RunLogic Sorted

variable {α σ : Type} [LinearOrder α]

/-- Position `i` of the window `lo ≤ i < up` holds `x`. -/
def HitAt (xs : List α) (x : α) (lo up : ℤ) (i : ℕ) : Prop :=
  lo ≤ i ∧ (i : ℤ) < up ∧ xs[i]? = some x

/-- `r` is `-1` when `x` is not in the window, and otherwise a position of the window holding `x`. -/
def Finds (xs : List α) (x : α) (lo up r : ℤ) : Prop :=
  ((¬ ∃ i, HitAt xs x lo up i) → r = -1) ∧
    ((∃ i, HitAt xs x lo up i) → ∃ i : ℕ, r = i ∧ HitAt xs x lo up i)

/-- One turn of a bisecting loop. -/
structure BisectTurn (xs : List α) (x : α) (turn : σ → Prog (Turn σ ℤ)) (view : σ → ℤ × ℤ) :
    Prop where
  exit : ∀ s, (view s).2 ≤ (view s).1 → turn s = pure (.exit (-1))
  probe : ∀ s, 0 ≤ (view s).1 → (view s).2 ≤ xs.length → (view s).1 < (view s).2 →
    ∃ (mid : ℕ) (v : α), (view s).1 ≤ mid ∧ (mid : ℤ) < (view s).2 ∧ xs[mid]? = some v ∧
      (v = x → turn s = pure (.exit (mid : ℤ))) ∧
      (v < x → ∃ s', turn s = pure (.next s') ∧ view s' = ((mid : ℤ) + 1, (view s).2)) ∧
      (x < v → ∃ s', turn s = pure (.next s') ∧ view s' = ((view s).1, (mid : ℤ)))

/-- The window still holds every hit of the window the search started from. -/
def Narrowed (xs : List α) (x : α) (lo up : ℤ) (w : ℤ × ℤ) : Prop :=
  0 ≤ w.1 ∧ w.2 ≤ xs.length ∧ lo ≤ w.1 ∧ w.2 ≤ up ∧ ∀ i, HitAt xs x lo up i → w.1 ≤ i ∧ i < w.2

theorem Narrowed.above {xs : List α} {x v : α} {lo up : ℤ} {w : ℤ × ℤ} {mid : ℕ}
    (hs : xs.Pairwise (· ≤ ·)) (hw : Narrowed xs x lo up w) (hmid : xs[mid]? = some v) (hv : v < x)
    (hlo : w.1 ≤ mid) : Narrowed xs x lo up ((mid : ℤ) + 1, w.2) := by
  obtain ⟨h0, hlen, hlow, hupw, hall⟩ := hw
  refine ⟨by omega, hlen, by dsimp only; omega, hupw, fun i hi => ⟨?_, (hall i hi).2⟩⟩
  by_contra hc
  exact absurd (le_of_sorted hs (by dsimp only at hc; omega) hi.2.2 hmid) (not_le.mpr hv)

theorem Narrowed.below {xs : List α} {x v : α} {lo up : ℤ} {w : ℤ × ℤ} {mid : ℕ}
    (hs : xs.Pairwise (· ≤ ·)) (hw : Narrowed xs x lo up w) (hmid : xs[mid]? = some v) (hv : x < v)
    (hup : (mid : ℤ) < w.2) : Narrowed xs x lo up (w.1, (mid : ℤ)) := by
  obtain ⟨h0, hlen, hlow, hupw, hall⟩ := hw
  refine ⟨h0, by dsimp only; omega, hlow, by dsimp only; omega, fun i hi => ⟨(hall i hi).1, ?_⟩⟩
  by_contra hc
  exact absurd (le_of_sorted hs (by dsimp only at hc; omega) hmid hi.2.2) (not_le.mpr hv)

/-- **Bisection**: the loop returns and finds `x` in the window it started from. -/
theorem halts_bisect {xs : List α} {x : α} {turn : σ → Prog (Turn σ ℤ)} {view : σ → ℤ × ℤ}
    (hs : xs.Pairwise (· ≤ ·)) (ht : BisectTurn xs x turn view) (s : σ) (h0 : 0 ≤ (view s).1)
    (hlen : (view s).2 ≤ xs.length) :
    Halts (loop turn s) (Finds xs x (view s).1 (view s).2) := by
  refine halts_loop (fun s' => Narrowed xs x (view s).1 (view s).2 (view s'))
    (fun s' => ((view s').2 - (view s').1).toNat) _ (fun s' hw => ?_) s
    ⟨h0, hlen, le_rfl, le_rfl, fun i hi => ⟨hi.1, hi.2.1⟩⟩
  have hw' := hw
  obtain ⟨hw0, hwlen, hlow, hupw, hall⟩ := hw'
  rcases lt_or_ge (view s').1 (view s').2 with hlt | hge
  · obtain ⟨mid, v, hlo, hup, hmid, heq, habove, hbelow⟩ := ht.probe s' hw0 hwlen hlt
    rcases lt_trichotomy v x with hv | hv | hv
    · obtain ⟨s'', hturn, hview⟩ := habove hv
      rw [hturn]
      refine halts_pure ⟨?_, ?_⟩
      · rw [hview]; exact hw.above hs hmid hv hlo
      · rw [hview]; dsimp only; omega
    · rw [heq hv]
      have hhit : HitAt xs x (view s).1 (view s).2 mid := ⟨by omega, by omega, hv ▸ hmid⟩
      exact halts_pure ⟨fun hno => absurd ⟨mid, hhit⟩ hno, fun _ => ⟨mid, rfl, hhit⟩⟩
    · obtain ⟨s'', hturn, hview⟩ := hbelow hv
      rw [hturn]
      refine halts_pure ⟨?_, ?_⟩
      · rw [hview]; exact hw.below hs hmid hv hup
      · rw [hview]; dsimp only; omega
  · rw [ht.exit s' hge]
    refine halts_pure ⟨fun _ => rfl, ?_⟩
    rintro ⟨i, hi⟩
    have := hall i hi
    omega

/-- In a strictly sorted list there is one result. -/
theorem Finds.unique {xs : List α} {x : α} {lo up r r' : ℤ} (hs : xs.Pairwise (· < ·))
    (h : Finds xs x lo up r) (h' : Finds xs x lo up r') : r = r' := by
  by_cases hx : ∃ i, HitAt xs x lo up i
  · obtain ⟨i, rfl, -, -, hi⟩ := h.2 hx
    obtain ⟨j, rfl, -, -, hj⟩ := h'.2 hx
    obtain ⟨hil, hi⟩ := List.getElem?_eq_some_iff.mp hi
    obtain ⟨hjl, hj⟩ := List.getElem?_eq_some_iff.mp hj
    rcases Nat.lt_trichotomy i j with hlt | rfl | hgt
    · have := List.pairwise_iff_getElem.mp hs i j hil hjl hlt
      rw [hi, hj] at this
      exact absurd this (lt_irrefl x)
    · rfl
    · have := List.pairwise_iff_getElem.mp hs j i hjl hil hgt
      rw [hi, hj] at this
      exact absurd this (lt_irrefl x)
  · rw [h.1 hx, h'.1 hx]

/-! ## The place of a value -/

section Place

variable {xs : List α} {x v : α} {lo up : ℤ} {r mid : ℕ}

/-- No element in front of position `r` is above `x`, none from `r` on is below it,
and `r` holds `x` if any does. -/
structure Cut (xs : List α) (x : α) (r : ℕ) : Prop where
  le_length : r ≤ xs.length
  before : ∀ i v, xs[i]? = some v → i < r → v ≤ x
  behind : ∀ i v, xs[i]? = some v → r ≤ i → x ≤ v
  hit : x ∈ xs → xs[r]? = some x

/-- All elements in front of the window `lo ≤ i < up` are below `x` and all behind it above. -/
structure Between (xs : List α) (x : α) (lo up : ℤ) : Prop where
  nonneg : 0 ≤ lo
  le : lo ≤ up
  le_length : up ≤ xs.length
  before : ∀ (i : ℕ) v, xs[i]? = some v → (i : ℤ) < lo → v < x
  behind : ∀ (i : ℕ) v, xs[i]? = some v → up ≤ i → x < v

theorem between_start (xs : List α) (x : α) : Between xs x 0 xs.length where
  nonneg := le_rfl
  le := Int.natCast_nonneg _
  le_length := le_rfl
  before i v _ hi := by omega
  behind i v hv hi := by
    have := (List.getElem?_eq_some_iff.mp hv).1
    omega

theorem Between.above (h : Between xs x lo up) (hs : xs.Pairwise (· ≤ ·)) (hmid : xs[mid]? = some v)
    (hv : v < x) (hlt : (mid : ℤ) < up) : Between xs x ((mid : ℤ) + 1) up where
  nonneg := by omega
  le := hlt
  le_length := h.le_length
  before i w hw hi := (le_of_sorted hs (by omega) hw hmid).trans_lt hv
  behind := h.behind

theorem Between.below (h : Between xs x lo up) (hs : xs.Pairwise (· ≤ ·)) (hmid : xs[mid]? = some v)
    (hv : x < v) (hle : lo ≤ mid) : Between xs x lo (mid : ℤ) where
  nonneg := h.nonneg
  le := hle
  le_length := by
    have := (List.getElem?_eq_some_iff.mp hmid).1
    omega
  before := h.before
  behind i w hw hi := hv.trans_le (le_of_sorted hs (by omega) hmid hw)

/-- A closed window: `x` is not in the list. -/
theorem Between.cut (h : Between xs x lo up) (hclosed : up ≤ lo) : ∃ r : ℕ, lo = r ∧ Cut xs x r := by
  obtain ⟨r, rfl⟩ := Int.eq_ofNat_of_zero_le h.nonneg
  have hle := h.le
  have hlen := h.le_length
  refine ⟨r, rfl, by omega, fun i v hv hi => (h.before i v hv (by omega)).le,
    fun i v hv hi => (h.behind i v hv (by omega)).le, fun hx => ?_⟩
  obtain ⟨i, hi⟩ := List.getElem?_of_mem hx
  rcases lt_or_ge i r with hlt | hge
  · exact absurd (h.before i x hi (by omega)) (lt_irrefl x)
  · exact absurd (h.behind i x hi (by omega)) (lt_irrefl x)

theorem cut_of_hit (hs : xs.Pairwise (· ≤ ·)) (hmid : xs[mid]? = some x) : Cut xs x mid where
  le_length := (List.getElem?_eq_some_iff.mp hmid).1.le
  before _ _ hv hi := le_of_sorted hs hi.le hv hmid
  behind _ _ hv hi := le_of_sorted hs hi hmid hv
  hit _ := hmid

/-- In a strictly sorted list the smaller elements are counted. -/
theorem Cut.eq_countP (h : Cut xs x r) (hs : xs.Pairwise (· < ·)) : r = xs.countP (· < x) := by
  have hbefore : ∀ v ∈ xs.take r, v < x := by
    intro v hv
    obtain ⟨i, hi, rfl⟩ := List.mem_take_iff_getElem.mp hv
    have hir : i < r := by omega
    have hil : i < xs.length := by omega
    refine lt_of_le_of_ne (h.before i _ (List.getElem?_eq_getElem hil) hir) fun heq => ?_
    -- another occurrence at `r` would be greater
    obtain ⟨hr, hrx⟩ := List.getElem?_eq_some_iff.mp (h.hit (heq ▸ List.getElem_mem hil))
    have hlt := List.pairwise_iff_getElem.mp hs i r hil hr hir
    rw [heq, hrx] at hlt
    exact lt_irrefl x hlt
  have hbehind : ∀ v ∈ xs.drop r, ¬ v < x := by
    intro v hv
    obtain ⟨i, hi⟩ := List.getElem?_of_mem hv
    rw [List.getElem?_drop] at hi
    exact not_lt.mpr (h.behind (r + i) v hi (Nat.le_add_right r i))
  have htake : (xs.take r).countP (· < x) = r := by
    rw [List.countP_eq_length.mpr (by simpa using hbefore), List.length_take_of_le h.le_length]
  have hdrop : (xs.drop r).countP (· < x) = 0 := List.countP_eq_zero.mpr (by simpa using hbehind)
  rw [← List.take_append_drop r xs, List.countP_append, htake, hdrop]
  rfl

end Place

end Bisect
