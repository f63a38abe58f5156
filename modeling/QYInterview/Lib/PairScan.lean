import QYInterview.Lib.Collect
import QYInterview.Lib.RunLogic
import Mathlib.Algebra.Order.Group.Defs
import Mathlib.Algebra.Order.Group.Basic

/-!
# PairScan — pairs of a given sum in a sorted list, by two pointers

`pairs xs t l r` are the values at two positions `l ≤ p < q ≤ r` with sum `t`.  In a sorted list the sum
at the two ends says which end can go: below `t` the left one, above `t` the right one, and on a hit both,
together with any further copies of the two values next to them.  `Scanner.halts`: a loop that moves its
pointers that way returns, and has collected every pair of the window it started from.  `Gathered` is the
list of what a loop that goes on past copies has made of the pairs, and `Reach` tells which sums such a loop
takes, for code where a sum may stop it (`MayStop.ends`).
-/

namespace PairScan

open RunLogic Collect Sorted

universe u

variable {α : Type u} [AddCommGroup α] [LinearOrder α] [IsOrderedAddMonoid α]

/-- The values at two positions of the window `l ≤ p < q ≤ r` with sum `t`. -/
def pairs (xs : List α) (t : α) (l r : ℤ) : Set (α × α) :=
  {v | ∃ p q : ℕ, l ≤ p ∧ p < q ∧ (q : ℤ) ≤ r ∧ xs[p]? = some v.1 ∧ xs[q]? = some v.2 ∧ v.1 + v.2 = t}

section Window

variable {xs : List α} {t b c : α} {l r : ℕ}

omit [LinearOrder α] [IsOrderedAddMonoid α] in
theorem pairs_of_le {l r : ℤ} (h : r ≤ l) : pairs xs t l r = ∅ := by
  apply Set.eq_empty_of_forall_notMem
  intro v
  rintro ⟨p, q, hp, hpq, hq, -⟩
  omega

variable (hs : xs.Pairwise (· ≤ ·)) (hl : xs[l]? = some b) (hr : xs[r]? = some c)

include hs hl hr

/-- Too small a sum: the left end is in no pair. -/
theorem pairs_low (h : b + c < t) : pairs xs t l r = pairs xs t (l + 1) r := by
  ext v
  constructor
  · rintro ⟨p, q, hp, hpq, hq, hvp, hvq, hsum⟩
    have hne : l ≠ p := by
      rintro rfl
      have hb : v.1 ≤ b := le_of_sorted hs le_rfl hvp hl
      have hc : v.2 ≤ c := le_of_sorted hs (by omega) hvq hr
      exact absurd (hsum ▸ add_le_add hb hc) (not_le.mpr h)
    exact ⟨p, q, by omega, hpq, hq, hvp, hvq, hsum⟩
  · rintro ⟨p, q, hp, hrest⟩
    exact ⟨p, q, by omega, hrest⟩

/-- Too large a sum: the right end is in no pair. -/
theorem pairs_high (h : t < b + c) : pairs xs t l r = pairs xs t l (r - 1) := by
  ext v
  constructor
  · rintro ⟨p, q, hp, hpq, hq, hvp, hvq, hsum⟩
    have hne : q ≠ r := by
      rintro rfl
      have hb : b ≤ v.1 := le_of_sorted hs (by omega) hl hvp
      have hc : c ≤ v.2 := le_of_sorted hs le_rfl hr hvq
      exact absurd (hsum ▸ add_le_add hb hc) (not_le.mpr h)
    exact ⟨p, q, hp, hpq, by omega, hvp, hvq, hsum⟩
  · rintro ⟨p, q, hp, hpq, hq, hrest⟩
    exact ⟨p, q, hp, hpq, by omega, hrest⟩

/-- A hit: up to the last of some copies of `b` from the left, and from the first of some copies of `c` on
the right, there is only the pair of the two. -/
theorem pairs_hit (h : b + c = t) (hlr : l < r) {l' r' : ℕ} (hl' : xs[l']? = some b) (hll : l ≤ l')
    (hr' : xs[r']? = some c) (hrr : r' ≤ r) :
    pairs xs t l r = insert (b, c) (pairs xs t (l' + 1) (r' - 1)) := by
  ext v
  constructor
  · rintro ⟨p, q, hp, hpq, hq, hvp, hvq, hsum⟩
    by_cases hpl : p ≤ l'
    · have hb : v.1 = b :=
        le_antisymm (le_of_sorted hs hpl hvp hl') (le_of_sorted hs (by omega) hl hvp)
      have hc : v.2 = c := add_left_cancel (a := b) (by rw [← hb, hsum, hb, h])
      exact Or.inl (Prod.ext hb hc)
    · by_cases hqr : r' ≤ q
      · have hc : v.2 = c :=
          le_antisymm (le_of_sorted hs (by omega) hvq hr) (le_of_sorted hs hqr hr' hvq)
        have hb : v.1 = b := add_right_cancel (b := c) (by rw [← hc, hsum, hc, h])
        exact Or.inl (Prod.ext hb hc)
      · exact Or.inr ⟨p, q, by omega, hpq, by omega, hvp, hvq, hsum⟩
  · rintro (rfl | ⟨p, q, hp, hpq, hq, hrest⟩)
    · exact ⟨l, r, le_rfl, hlr, le_rfl, hl, hr, h⟩
    · exact ⟨p, q, by omega, hpq, by omega, hrest⟩

end Window

/-! ## The loop -/

section Scan

variable {σ ρ : Type u} {xs : List α} {t : α} {turn : σ → Prog (Turn σ ρ)} {left right : σ → ℤ}
  {J : Set (α × α) → σ → Prop} {Q : Set (α × α) → ρ → Prop}

/-- Where the pointers `l < r` with values `b` and `c` may go in one turn, and what the turn collects. -/
def Moves (xs : List α) (t : α) (left right : σ → ℤ) (J : Set (α × α) → σ → Prop) (F : Set (α × α))
    (l r : ℕ) (b c : α) (s' : σ) : Prop :=
  (b + c < t ∧ left s' = l + 1 ∧ right s' = r ∧ J F s') ∨
    (t < b + c ∧ left s' = l ∧ right s' = r - 1 ∧ J F s') ∨
    b + c = t ∧ ∃ l' r' : ℕ, l ≤ l' ∧ r' ≤ r ∧ xs[l']? = some b ∧ xs[r']? = some c ∧
      left s' = l' + 1 ∧ right s' = r' - 1 ∧ J (insert (b, c) F) s'

/-- A loop that scans for pairs: `J F s` says that it has collected `F`, `Q F` that its result has. -/
structure Scanner (xs : List α) (t : α) (turn : σ → Prog (Turn σ ρ)) (left right : σ → ℤ)
    (J : Set (α × α) → σ → Prop) (Q : Set (α × α) → ρ → Prop) : Prop where
  exit : ∀ F s, J F s → right s ≤ left s → Halts (turn s) (Turn.Good (fun _ => False) (Q F))
  step : ∀ F s (l r : ℕ) (b c : α), J F s → left s = l → right s = r → l < r → xs[l]? = some b →
    xs[r]? = some c → Halts (turn s) (Turn.Good (Moves xs t left right J F l r b c) fun _ => False)

/-- A loop that scans for pairs and may be stopped, where `T` holds. -/
structure MayStop (xs : List α) (t : α) (turn : σ → Prog (Turn σ ρ)) (left right : σ → ℤ)
    (J : Set (α × α) → σ → Prop) (Q : Set (α × α) → ρ → Prop) (T : Prop) : Prop where
  exit : ∀ F s, J F s → right s ≤ left s → Ends (turn s) (Turn.Good (fun _ => False) (Q F)) T
  step : ∀ F s (l r : ℕ) (b c : α), J F s → left s = l → right s = r → l < r → xs[l]? = some b →
    xs[r]? = some c → Ends (turn s) (Turn.Good (Moves xs t left right J F l r b c) fun _ => False) T

/-- **Two pointers**, for code that may be stopped: a loop that returns has collected every pair of the window
it started from. -/
theorem MayStop.ends {T : Prop} (h : MayStop xs t turn left right J Q T) (hs : xs.Pairwise (· ≤ ·))
    {s : σ} (h0 : 0 ≤ left s) (hlen : right s < xs.length) (hJ : J ∅ s) :
    Ends (loop turn s) (Q (pairs xs t (left s) (right s))) T := by
  refine ends_loop
    (fun s' => 0 ≤ left s' ∧ right s' < xs.length ∧ ∃ F', J F' s' ∧
      F' ∪ pairs xs t (left s') (right s') = pairs xs t (left s) (right s))
    (fun s' => (right s' - left s').toNat) _ T (fun s' hI => ?_) s
    ⟨h0, hlen, ∅, hJ, Set.empty_union _⟩
  obtain ⟨h0', hlen', F', hJ', heq⟩ := hI
  rcases le_or_gt (right s') (left s') with hle | hlt
  · refine (h.exit F' s' hJ' hle).mono (fun turned hturned => ?_) id
    cases turned with
    | next => exact hturned.elim
    | exit res =>
      rw [pairs_of_le hle, Set.union_empty] at heq
      rw [← heq]
      exact hturned
  · obtain ⟨l, hl⟩ := Int.eq_ofNat_of_zero_le h0'
    obtain ⟨r, hr⟩ := Int.eq_ofNat_of_zero_le (h0'.trans hlt.le)
    have hb := List.getElem?_eq_getElem (show l < xs.length by omega)
    have hc := List.getElem?_eq_getElem (show r < xs.length by omega)
    refine (h.step F' s' l r _ _ hJ' hl hr (by omega) hb hc).mono (fun turned hturned => ?_) id
    cases turned with
    | exit => exact hturned.elim
    | next s'' =>
      rw [hl, hr] at heq
      rcases hturned with ⟨hbc, hl', hr', hJ''⟩ | ⟨hbc, hl', hr', hJ''⟩ |
        ⟨hbc, l', r', hll, hrr, hbl, hcr, hl', hr', hJ''⟩
      · refine ⟨⟨by omega, by omega, F', hJ'', ?_⟩, by omega⟩
        rw [← heq, hl', hr', pairs_low hs hb hc hbc]
      · refine ⟨⟨by omega, by omega, F', hJ'', ?_⟩, by omega⟩
        rw [← heq, hl', hr', pairs_high hs hb hc hbc]
      · refine ⟨⟨by omega, by omega, _, hJ'', ?_⟩, by omega⟩
        rw [← heq, hl', hr', pairs_hit hs hb hc hbc (by omega) hbl hll hcr hrr, Set.insert_union,
          Set.union_insert]

/-- **Two pointers**: the loop returns and has collected every pair of the window it started from. -/
theorem Scanner.halts (h : Scanner xs t turn left right J Q) (hs : xs.Pairwise (· ≤ ·))
    {s : σ} (h0 : 0 ≤ left s) (hlen : right s < xs.length) (hJ : J ∅ s) :
    Halts (loop turn s) (Q (pairs xs t (left s) (right s))) := by
  have hnever : MayStop xs t turn left right J Q False :=
    ⟨fun F s hJ hle => (h.exit F s hJ hle).ends,
      fun F s l r b c hJ hl hr hlr hb hc => (h.step F s l r b c hJ hl hr hlr hb hc).ends⟩
  exact ends_false.mp (hnever.ends hs h0 hlen hJ)

end Scan

/-! ## A list of the pairs -/

section Gathered

variable {τ : Type u} {xs : List α} {mk : α × α → τ} {base res : List τ} {F : Set (α × α)} {b c : α}

/-- The list `res` is `base` followed by what `mk` makes of the pairs `F`, each once, and every value of the
left pointer so far is below the one it is at. -/
structure Gathered (xs : List α) (mk : α × α → τ) (base : List τ) (F : Set (α × α)) (res : List τ)
    (left right : ℤ) : Prop where
  adds : Adds base (mk '' F) res
  below : ∀ (l : ℕ) (b : α), left ≤ l → (l : ℤ) ≤ right → xs[l]? = some b → ∀ v ∈ F, v.1 < b

omit [AddCommGroup α] [IsOrderedAddMonoid α] in
theorem gathered_empty (xs : List α) (mk : α × α → τ) (base : List τ) (left right : ℤ) :
    Gathered xs mk base ∅ base left right :=
  ⟨(Set.image_empty mk).symm ▸ adds_empty base, fun _ _ _ _ _ _ hv => hv.elim⟩

omit [AddCommGroup α] [IsOrderedAddMonoid α] in
/-- Moving a pointer inwards keeps what has been listed. -/
theorem Gathered.shrink {left right left' right' : ℤ} (h : Gathered xs mk base F res left right)
    (hl : left ≤ left') (hr : right' ≤ right) : Gathered xs mk base F res left' right' :=
  ⟨h.adds, fun l b hll hlr => h.below l b (hl.trans hll) (hlr.trans hr)⟩

omit [AddCommGroup α] [IsOrderedAddMonoid α] in
/-- A hit at new values of the pointers adds one member, and the left pointer goes past the copies of its
value. -/
theorem Gathered.insert {l r l' r' : ℕ} (hs : xs.Pairwise (· ≤ ·)) (hmk : Function.Injective mk)
    (h : Gathered xs mk base F res l r) (hlr : l < r) (hb : xs[l]? = some b) (hr' : r' ≤ r)
    (hb' : xs[l']? = some b) (hnext : l' < r → xs[l' + 1]? ≠ some b) :
    Gathered xs mk base (insert (b, c) F) (res ++ [mk (b, c)]) ((l' : ℤ) + 1) ((r' : ℤ) - 1) := by
  have hbelow := h.below l b le_rfl (by omega) hb
  constructor
  · rw [Set.image_insert_eq]
    refine h.adds.insert ?_
    rintro ⟨v, hv, heq⟩
    obtain rfl := hmk heq
    exact lt_irrefl b (hbelow _ hv)
  · intro m b' hm hmr hm' v hv
    -- the position after the last copy of `b` holds a greater value
    have hnb : b < b' := by
      have hlen := (List.getElem?_eq_some_iff.mp hm').1
      have hget := List.getElem?_eq_getElem (show l' + 1 < xs.length by omega)
      have hne : b ≠ xs[l' + 1] := fun heq => hnext (by omega) (heq ▸ hget)
      exact (lt_of_le_of_ne (le_of_sorted hs (by omega) hb' hget) hne).trans_le
        (le_of_sorted hs (by omega) hget hm')
    rcases hv with rfl | hv
    · exact hnb
    · exact (hbelow v hv).trans hnb

end Gathered

/-! ## The sums the loop takes -/

section Reach

variable {xs : List α} {t b c : α} {lo : ℕ} {ok : α → Prop}

/-- The sum at `l < r` satisfies `ok`, if all positions from `lo` and before `l` fall short of `t` together
with `r`, as they do where two pointers come by. -/
def SumOk (xs : List α) (t : α) (lo : ℕ) (ok : α → Prop) (l r : ℕ) : Prop :=
  ∀ b c, xs[l]? = some b → xs[r]? = some c →
    (∀ (m : ℕ) (a : α), lo ≤ m → m < l → xs[m]? = some a → a + c < t) → ok (b + c)

/-- The sums that two pointers from `lo` and the end of the list take satisfy `ok`. -/
def SumsOk (xs : List α) (t : α) (lo : ℕ) (ok : α → Prop) : Prop :=
  ∀ l r, lo ≤ l → l < r → SumOk xs t lo ok l r

/-- Where two pointers that go past copies have come: the positions on the left fall short of `t` with all
that is left on the right, and the sums so far satisfy `ok`. -/
structure Reach (xs : List α) (t : α) (lo : ℕ) (ok : α → Prop) (left right : ℤ) : Prop where
  short : ∀ (l r : ℕ) (b c : α), lo ≤ l → (l : ℤ) < left → left ≤ r → (r : ℤ) ≤ right → xs[l]? = some b →
    xs[r]? = some c → b + c < t
  done : ∀ l r : ℕ, lo ≤ l → l < r → (r : ℤ) < left ∨ right < r → SumOk xs t lo ok l r

omit [IsOrderedAddMonoid α] in
theorem reach_start : Reach xs t lo ok lo ((xs.length : ℤ) - 1) where
  short := fun l r b c hl hlt => absurd hlt (by omega)
  done := fun l r hl hlr hout b c _ hr => by
    have := (List.getElem?_eq_some_iff.mp hr).1
    omega

omit [IsOrderedAddMonoid α] in
/-- A sum at the pointers is one of those they take. -/
theorem Reach.not_sumsOk {l r : ℕ} (h : Reach xs t lo ok l r) (hlo : lo ≤ l) (hlr : l < r)
    (hb : xs[l]? = some b) (hc : xs[r]? = some c) (hbad : ¬ ok (b + c)) : ¬ SumsOk xs t lo ok :=
  fun hall => hbad (hall l r hlo hlr b c hb hc fun m a hm hml ha =>
    h.short m r a c hm (by omega) (by omega) le_rfl ha hc)

omit [IsOrderedAddMonoid α] in
/-- Behind a position that makes up `t` together with `r`. -/
theorem sumOk_of_lt {m l r : ℕ} (hlo : lo ≤ m) (hml : m < l) (hb : xs[m]? = some b) (hc : xs[r]? = some c)
    (hle : t ≤ b + c) : SumOk xs t lo ok l r := by
  intro b' c' _ hc' hall
  obtain rfl := Option.some.inj (hc.symm.trans hc')
  exact absurd (hall m b hlo hml hb) (not_lt.mpr hle)

/-- Sums up to `t` satisfy `ok`. -/
def OkUpTo (xs : List α) (t : α) (lo : ℕ) (ok : α → Prop) : Prop :=
  ∀ (l r : ℕ) (b c : α), lo ≤ l → l < r → xs[l]? = some b → xs[r]? = some c → b + c ≤ t → ok (b + c)

variable (hs : xs.Pairwise (· ≤ ·)) (hok : OkUpTo xs t lo ok)

include hok

omit [IsOrderedAddMonoid α] in
/-- When the pointers have met the loop has taken all the sums it takes. -/
theorem Reach.sumsOk {left right : ℤ} (h : Reach xs t lo ok left right) (hle : right ≤ left) :
    SumsOk xs t lo ok := by
  intro l r hlo hlr
  by_cases hout : (r : ℤ) < left ∨ right < r
  · exact h.done l r hlo hlr hout
  · intro b c hb hc _
    exact hok l r b c hlo hlr hb hc (h.short l r b c hlo (by omega) (by omega) (by omega) hb hc).le

include hs

/-- The left pointer goes on. -/
theorem Reach.low {l r : ℕ} (h : Reach xs t lo ok l r) (hlr : l < r) (hb : xs[l]? = some b)
    (hc : xs[r]? = some c) (hlt : b + c < t) : Reach xs t lo ok ((l : ℤ) + 1) r := by
  constructor
  · intro l' r' b' c' hlo hl' hr' hrr hb' hc'
    rcases Nat.lt_or_eq_of_le (show l' ≤ l by omega) with hll | rfl
    · exact h.short l' r' b' c' hlo (by omega) (by omega) hrr hb' hc'
    · obtain rfl := Option.some.inj (hb.symm.trans hb')
      have hcc : c' ≤ c := le_of_sorted hs (by omega) hc' hc
      exact (add_le_add_right hcc b).trans_lt hlt
  · intro l' r' hlo hlr' hout
    by_cases hold : (r' : ℤ) < l ∨ (r : ℤ) < r'
    · exact h.done l' r' hlo hlr' hold
    · intro b' c' hb' hc' _
      exact hok l' r' b' c' hlo hlr' hb' hc'
        (h.short l' r' b' c' hlo (by omega) (by omega) (by omega) hb' hc').le

omit hs [IsOrderedAddMonoid α] in
/-- The right pointer goes back. -/
theorem Reach.high {l r : ℕ} (h : Reach xs t lo ok l r) (hlo : lo ≤ l) (hb : xs[l]? = some b)
    (hc : xs[r]? = some c) (hgt : t < b + c) (hbc : ok (b + c)) : Reach xs t lo ok l ((r : ℤ) - 1) := by
  constructor
  · intro l' r' b' c' hlo' hl' hr' hrr
    exact h.short l' r' b' c' hlo' hl' hr' (by omega)
  · intro l' r' hlo' hlr' hout
    by_cases hold : (r' : ℤ) < l ∨ (r : ℤ) < r'
    · exact h.done l' r' hlo' hlr' hold
    · obtain rfl : r' = r := by omega
      rcases lt_trichotomy l' l with hll | rfl | hll
      · intro b' c' hb' hc' _
        exact hok l' r' b' c' hlo' hlr' hb' hc'
          (h.short l' r' b' c' hlo' (by omega) (by omega) le_rfl hb' hc').le
      · intro b' c' hb' hc' _
        obtain rfl := Option.some.inj (hb.symm.trans hb')
        obtain rfl := Option.some.inj (hc.symm.trans hc')
        exact hbc
      · exact sumOk_of_lt hlo hll hb hc hgt.le

/-- A hit: the pointers go past all copies of their values, unless they meet. -/
theorem Reach.hit {l r l' r' : ℕ} (h : Reach xs t lo ok l r) (hlo : lo ≤ l) (hb : xs[l]? = some b)
    (hc : xs[r]? = some c) (heq : b + c = t) (hb' : xs[l']? = some b) (hrr : r' ≤ r)
    (hc' : xs[r']? = some c) (hprev : l' < r' → xs[r' - 1]? ≠ some c) :
    Reach xs t lo ok ((l' : ℤ) + 1) ((r' : ℤ) - 1) := by
  constructor
  · intro m q b'' c'' hm hml hq hqr hm' hq'
    have hprev' := List.getElem?_eq_getElem (show r' - 1 < xs.length by
      have := (List.getElem?_eq_some_iff.mp hc').1
      omega)
    have hbb : b'' ≤ b := le_of_sorted hs (by omega) hm' hb'
    have hcc : c'' < c := by
      refine lt_of_le_of_ne (le_of_sorted hs (by omega) hq' hc) ?_
      rintro rfl
      refine hprev (by omega) (hprev'.trans (congrArg some ?_))
      exact le_antisymm (le_of_sorted hs (Nat.sub_le r' 1) hprev' hc') (le_of_sorted hs (by omega) hq' hprev')
    exact (add_lt_add_of_le_of_lt hbb hcc).trans_eq heq
  · intro m q hm hmq hout
    by_cases hqr : r < q
    · exact h.done m q hm hmq (Or.inr (by omega))
    · by_cases hleft : q ≤ l' ∨ m ≤ l
      -- neither value is above its one of the hit
      · intro b'' c'' hm' hq' _
        have hbb : b'' ≤ b := by
          rcases hleft with hql | hml
          · exact le_of_sorted hs (by omega) hm' hb'
          · exact le_of_sorted hs hml hm' hb
        have hcc : c'' ≤ c := le_of_sorted hs (by omega) hq' hc
        exact hok m q b'' c'' hm hmq hm' hq' ((add_le_add hbb hcc).trans_eq heq)
      -- a copy of the right value, which makes up `t` with the left one
      · have hlen := (List.getElem?_eq_some_iff.mp hc).1
        have hq := List.getElem?_eq_getElem (show q < xs.length by omega)
        have hcq : xs[q] = c :=
          le_antisymm (le_of_sorted hs (by omega) hq hc) (le_of_sorted hs (by omega) hc' hq)
        exact sumOk_of_lt hlo (by omega) hb (hcq ▸ hq) heq.ge

end Reach

end PairScan
