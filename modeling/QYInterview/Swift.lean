import QYInterview.Lib.RunLogic
import Mathlib.Data.List.Sort
import Mathlib.Data.Finset.Basic

/-!
# Swift — arrays, `Int` arithmetic, ranges and sets

Arrays are lists with indices in `ℤ`, as a Swift index may be negative; an access out of range traps.
An index computed by the code stays between `-1` and the count of an array, which is itself an `Int`,
so index arithmetic is plain; arithmetic on the elements goes through `int`, which traps outside the
64-bit range.  A `Set` is a `Finset`; the order its elements come out in is that of a `SetOrder`, as the
language leaves it open.  A string is the list of its characters, so `Array(s)` and `String(chars)` are
the identity; where characters that were apart may come together in the string, it is that of a `Graphemes`.
-/

namespace QYInterview.Swift

open RunLogic

/-- The values of Swift's 64-bit `Int`. -/
def IsInt (a : ℤ) : Prop := -2 ^ 63 ≤ a ∧ a < 2 ^ 63

instance : DecidablePred IsInt := fun _ => inferInstanceAs (Decidable (_ ∧ _))

/-- `Int.min` -/
def intMin : ℤ := -2 ^ 63

/-- `Int.max` -/
def intMax : ℤ := 2 ^ 63 - 1

/-- The result of an `Int` operation. -/
def int (a : ℤ) : Prog ℤ := if IsInt a then pure a else trap

theorem int_eq {a : ℤ} (h : IsInt a) : int a = pure a := if_pos h

theorem int_eq_trap {a : ℤ} (h : ¬ IsInt a) : int a = trap := if_neg h

section Arrays

variable {α : Type} {xs : List α}

/-- `xs[i]` -/
def get (xs : List α) (i : ℤ) : Prog α :=
  if 0 ≤ i then
    match xs[i.toNat]? with
    | some a => pure a
    | none => trap
  else trap

/-- `xs[i] = a` -/
def set (xs : List α) (i : ℤ) (a : α) : Prog (List α) :=
  if 0 ≤ i ∧ i < xs.length then pure (xs.set i.toNat a) else trap

theorem get_eq {i : ℕ} {a : α} (h : xs[i]? = some a) : get xs i = pure a := by
  unfold get
  rw [if_pos (Int.natCast_nonneg i), Int.toNat_natCast, h]

theorem get_neg {i : ℤ} (h : i < 0) (xs : List α) : get xs i = trap := if_neg (not_le.mpr h)

theorem get_of_length_le {i : ℕ} (h : xs.length ≤ i) : get xs i = trap := by
  unfold get
  rw [if_pos (Int.natCast_nonneg i), Int.toNat_natCast, List.getElem?_eq_none h]

theorem set_eq {i : ℕ} (h : i < xs.length) (a : α) : set xs i a = pure (xs.set i a) := by
  unfold set
  rw [if_pos ⟨Int.natCast_nonneg i, by omega⟩, Int.toNat_natCast]

/-- The index behind one more element. -/
theorem cast_length_concat (front : List α) (a : α) : ((front ++ [a]).length : ℤ) = front.length + 1 := by
  rw [List.length_append, List.length_singleton, Nat.cast_add, Nat.cast_one]

/-- An array read behind a part of it. -/
theorem get_append {front : List α} {i : ℤ} (hi : i = front.length) (a : α) (back : List α) :
    get (front ++ a :: back) i = pure a := by
  subst hi
  refine get_eq ?_
  rw [List.getElem?_append_right le_rfl, Nat.sub_self]
  rfl

theorem set_append {front : List α} {i : ℤ} (hi : i = front.length) (a b : α) (back : List α) :
    set (front ++ a :: back) i b = pure (front ++ b :: back) := by
  subst hi
  rw [set_eq (by simp), List.set_append_right _ _ le_rfl, Nat.sub_self]
  rfl

/-- `xs.remove(at: i)` -/
def removeAt (xs : List α) (i : ℤ) : Prog (List α) :=
  if 0 ≤ i ∧ i < xs.length then pure (xs.eraseIdx i.toNat) else trap

theorem removeAt_append {front : List α} {i : ℤ} (hi : i = front.length) (a : α) (back : List α) :
    removeAt (front ++ a :: back) i = pure (front ++ back) := by
  subst hi
  unfold removeAt
  rw [if_pos ⟨Int.natCast_nonneg _, by simp⟩, Int.toNat_natCast, List.eraseIdx_append_of_length_le le_rfl,
    Nat.sub_self, List.eraseIdx_cons_zero]

/-- `[α](repeating: a, count: n)` -/
def repeating (a : α) (n : ℤ) : Prog (List α) := if 0 ≤ n then pure (List.replicate n.toNat a) else trap

theorem repeating_eq (a : α) (n : ℕ) : repeating a (n : ℤ) = pure (List.replicate n a) := by
  unfold repeating
  rw [if_pos (Int.natCast_nonneg n), Int.toNat_natCast]

/-- `a!` -/
def unwrap : Option α → Prog α
  | some a => pure a
  | none => trap

/-- `xs.first` -/
def first (xs : List α) : Option α := xs.head?

/-- `xs.firstIndex(of: a)` -/
def firstIndex [DecidableEq α] (xs : List α) (a : α) : Option ℤ := (xs.idxOf? a).map fun k : ℕ => (k : ℤ)

theorem firstIndex_append [DecidableEq α] {front : List α} {a : α} (h : a ∉ front) (back : List α) :
    firstIndex (front ++ a :: back) a = some (front.length : ℤ) := by
  have hidx : (front ++ a :: back).idxOf? a = some front.length := by
    rw [List.idxOf?_eq_some_iff]
    refine ⟨by simp, by simp, ?_⟩
    intro j hj
    rw [List.getElem_append_left hj]
    exact fun heq => h (heq ▸ List.getElem_mem hj)
  rw [firstIndex, hidx, Option.map_some]

/-- `xs.removeFirst(k)` -/
def removeFirst (xs : List α) (k : ℤ) : Prog (List α) :=
  if 0 ≤ k ∧ k ≤ xs.length then pure (xs.drop k.toNat) else trap

theorem removeFirst_append {front : List α} {k : ℤ} (hk : k = front.length) (back : List α) :
    removeFirst (front ++ back) k = pure back := by
  subst hk
  unfold removeFirst
  rw [if_pos ⟨Int.natCast_nonneg _, by simp⟩, Int.toNat_natCast, List.drop_left]

/-- `(xs[i], xs[j]) = (xs[j], xs[i])` -/
def swap (xs : List α) (i j : ℤ) : Prog (List α) := do
  let a ← get xs i
  let b ← get xs j
  set (← set xs i b) j a

theorem swap_eq {i j : ℕ} {a b : α} (hi : xs[i]? = some a) (hj : xs[j]? = some b) :
    swap xs i j = pure ((xs.set i b).set j a) := by
  have hil := (List.getElem?_eq_some_iff.mp hi).1
  have hjl := (List.getElem?_eq_some_iff.mp hj).1
  simp only [swap, get_eq hi, get_eq hj, set_eq hil, pure_bind]
  exact set_eq (by rwa [List.length_set]) a

/-- A swap keeps the elements. -/
theorem set_set_perm {i j : ℕ} {a b : α} (hi : xs[i]? = some a) (hj : xs[j]? = some b) :
    ((xs.set i b).set j a).Perm xs := by
  obtain ⟨hil, rfl⟩ := List.getElem?_eq_some_iff.mp hi
  obtain ⟨hjl, rfl⟩ := List.getElem?_eq_some_iff.mp hj
  exact List.set_set_perm hil hjl

theorem swap_self {front : List α} {i : ℤ} (hi : i = front.length) (a : α) (back : List α) :
    swap (front ++ a :: back) i i = pure (front ++ a :: back) := by
  simp only [swap, get_append hi, set_append hi, pure_bind]

/-- How code comes at the elements of an array. -/
structure Access (α : Type) where
  get : List α → ℤ → Prog α
  swap : List α → ℤ → ℤ → Prog (List α)

/-- The accesses of the language. -/
def Access.all : Access α := ⟨Swift.get, Swift.swap⟩

/-- An access to an element outside `xs[lo...hi]` stops the program. -/
def Access.within (lo hi : ℤ) : Access α where
  get xs i := if lo ≤ i ∧ i ≤ hi then Swift.get xs i else trap
  swap xs i j := if (lo ≤ i ∧ i ≤ hi) ∧ lo ≤ j ∧ j ≤ hi then Swift.swap xs i j else trap

section Sides

/-! The elements on both sides of `mid`, read and written. -/

variable {front mid : List α} {i j : ℤ}

theorem get_left (hi : i = front.length) (a b : α) (back : List α) :
    get (front ++ a :: mid ++ b :: back) i = pure a := by
  rw [List.append_assoc, List.cons_append]
  exact get_append hi a _

theorem set_left (hi : i = front.length) (a b c : α) (back : List α) :
    set (front ++ a :: mid ++ b :: back) i c = pure (front ++ c :: mid ++ b :: back) := by
  rw [List.append_assoc, List.cons_append, set_append hi, List.append_assoc, List.cons_append]

theorem index_right (hj : j = front.length + 1 + mid.length) (a : α) :
    j = ((front ++ a :: mid).length : ℕ) := by
  rw [hj, List.length_append, List.length_cons]
  omega

theorem get_right (hj : j = front.length + 1 + mid.length) (a b : α) (back : List α) :
    get (front ++ a :: mid ++ b :: back) j = pure b := get_append (index_right hj a) b back

theorem set_right (hj : j = front.length + 1 + mid.length) (a b c : α) (back : List α) :
    set (front ++ a :: mid ++ b :: back) j c = pure (front ++ a :: mid ++ c :: back) :=
      set_append (index_right hj a) b c back

/-- They change places. -/
theorem swap_append (hi : i = front.length) (hj : j = front.length + 1 + mid.length) (a b : α)
    (back : List α) :
    swap (front ++ a :: mid ++ b :: back) i j = pure (front ++ b :: mid ++ a :: back) ∧
      swap (front ++ a :: mid ++ b :: back) j i = pure (front ++ b :: mid ++ a :: back) := by
  constructor
  · simp only [swap, get_left hi, get_right hj, set_left hi, set_right hj, pure_bind]
  · simp only [swap, get_left hi, get_right hj, set_left hi, set_right hj, pure_bind]

end Sides

/-- A loop that exchanges the two ends of a part and moves on to the inside turns the part round. -/
theorem loopReturns_turnRound {turn : List α × ℤ × ℤ → Prog (Turn (List α × ℤ × ℤ) (List α))}
    (hexit : ∀ xs (left right : ℤ), right ≤ left → turn (xs, left, right) = pure (.exit xs))
    (hswap : ∀ (front : List α) x mid y back (left right : ℤ), left = front.length →
      right = left + 1 + mid.length →
      turn (front ++ x :: mid ++ y :: back, left, right) =
        pure (.next (front ++ y :: mid ++ x :: back, left + 1, right - 1)))
    (mid : List α) : ∀ (front back : List α) (left right : ℤ), left = front.length →
      right = left + mid.length - 1 →
      LoopReturns turn (front ++ mid ++ back, left, right) (front ++ mid.reverse ++ back) := by
  induction mid using List.bidirectionalRec with
  | nil =>
    intro front back left right _ hright
    refine loopReturns_exit ?_
    rw [hexit _ _ _ (by rw [hright]; simp)]
    exact returns_pure _
  | singleton x =>
    intro front back left right _ hright
    refine loopReturns_exit ?_
    rw [hexit _ _ _ (by rw [hright]; simp)]
    exact returns_pure _
  | cons_append x mid y ih =>
    intro front back left right hleft hright
    have hturn := hswap front x mid y back left right hleft (by rw [hright]; simp; omega)
    have ih := ih (front ++ [y]) (x :: back) (left + 1) (right - 1) (by rw [hleft, cast_length_concat])
      (by rw [hright]; simp; omega)
    have hbefore : front ++ x :: (mid ++ [y]) ++ back = front ++ x :: mid ++ y :: back := by simp
    have hinside : front ++ [y] ++ mid ++ x :: back = front ++ y :: mid ++ x :: back := by simp
    have hafter : front ++ (x :: (mid ++ [y])).reverse ++ back =
      front ++ [y] ++ mid.reverse ++ x :: back := by simp
    rw [hinside] at ih
    rw [hbefore, hafter]
    exact loopReturns_next (hturn ▸ returns_pure _) ih

/-- `xs[i] == xs[i - 1]` -/
theorem exists_eq_before [DecidableEq α] {m : ℕ} (hm : m + 1 < xs.length) :
    ∃ same : Bool,
      (do return (← get xs ((m + 1 : ℕ) : ℤ)) == (← get xs (((m + 1 : ℕ) : ℤ) - 1)) : Prog Bool) =
      pure same ∧ (same = true ↔ xs[m]? = xs[m + 1]?) := by
  have hb := List.getElem?_eq_getElem (show m < xs.length by omega)
  have ha := List.getElem?_eq_getElem hm
  have hget : get xs (((m + 1 : ℕ) : ℤ) - 1) = pure xs[m] := by
    rw [show ((m + 1 : ℕ) : ℤ) - 1 = m by omega, get_eq hb]
  refine ⟨xs[m + 1] == xs[m], by simp only [get_eq ha, hget, pure_bind], ?_⟩
  rw [beq_iff_eq, ha, hb, Option.some.injEq, eq_comm]

/-- An array read from the back: `front` and `back` are its parts around a position, reversed. -/
theorem get_reverse (back front : List α) (a : α) :
    get (back ++ a :: front).reverse (front.length : ℤ) = pure a := by
  rw [List.reverse_append, List.reverse_cons, ← List.append_cons]
  exact get_append (by rw [List.length_reverse]) a back.reverse

theorem set_reverse (back front : List α) (a b : α) :
    set (back ++ a :: front).reverse (front.length : ℤ) b = pure (back ++ b :: front).reverse := by
  rw [List.reverse_append, List.reverse_cons, ← List.append_cons, List.reverse_append, List.reverse_cons,
    ← List.append_cons]
  exact set_append (by rw [List.length_reverse]) a b back.reverse

/-- `lo..<hi`; traps when `hi < lo`. -/
def range (lo hi : ℤ) : Prog (List ℤ) :=
  if lo ≤ hi then pure ((List.range (hi - lo).toNat).map fun k : ℕ => lo + (k : ℤ)) else trap

theorem range_eq {lo hi : ℕ} (h : lo ≤ hi) :
    range lo hi = pure ((List.range' lo (hi - lo)).map fun k : ℕ => (k : ℤ)) := by
  unfold range
  rw [if_pos (by omega), show ((hi : ℤ) - lo).toNat = hi - lo by omega, List.range'_eq_map_range,
    List.map_map]
  exact congrArg pure (List.map_congr_left fun k _ => (Nat.cast_add lo k).symm)

end Arrays

/-! ## `for i in lo..<hi` -/

section For

variable {σ τ : Type} {lo hi : ℕ} {body : σ → ℤ → Prog σ}

/-- `for i in lo..<hi`, over the variables `s`. -/
def forRange (lo hi : ℤ) (body : σ → ℤ → Prog σ) (s : σ) : Prog σ := do
  forEach (← range lo hi) body s

/-- The value of the loop variable after a part of the range. -/
theorem range_index {pre post : List ℤ} {i : ℤ}
    (h : (List.range' lo (hi - lo)).map (fun k : ℕ => (k : ℤ)) = pre ++ i :: post) :
    i = ((lo + pre.length : ℕ) : ℤ) ∧ lo + pre.length < hi := by
  have hlen := congrArg List.length h
  rw [List.length_map, List.length_range', List.length_append, List.length_cons] at hlen
  have hlt : pre.length < hi - lo := by omega
  have hget := congrArg (fun l => l[pre.length]?) h
  rw [List.getElem?_append_right le_rfl, Nat.sub_self, List.getElem?_cons_zero, List.getElem?_map,
    List.getElem?_range' hlt, Option.map_some, one_mul] at hget
  exact ⟨(Option.some.inj hget).symm, by omega⟩

/-- An invariant indexed by the next value of the loop variable, and `T` where a turn is stopped. -/
theorem ends_forRange (hle : lo ≤ hi) (I : ℕ → σ → Prop) (T : Prop)
    (hbody : ∀ i s, lo ≤ i → i < hi → I i s → Ends (body s (i : ℤ)) (I (i + 1)) T) {s : σ} (h0 : I lo s) :
    Ends (forRange lo hi body s) (I hi) T := by
  rw [forRange, range_eq hle, pure_bind]
  set l := (List.range' lo (hi - lo)).map fun k : ℕ => (k : ℤ) with hl
  have hlen : lo + l.length = hi := by
    rw [hl, List.length_map, List.length_range', Nat.add_sub_cancel' hle]
  have hloop : Ends (forEach l body s) (fun s' => I (lo + l.length) s') T := by
    refine ends_forEach (fun pre s' => I (lo + pre.length) s') T (fun pre i post s' heq hI => ?_) h0
    obtain ⟨rfl, hlt⟩ := range_index heq
    rw [List.length_append, List.length_singleton, ← Nat.add_assoc]
    exact hbody _ s' (Nat.le_add_right _ _) hlt hI
  rwa [hlen] at hloop

/-- An invariant indexed by the next value of the loop variable. -/
theorem halts_forRange (hle : lo ≤ hi) (I : ℕ → σ → Prop)
    (hbody : ∀ i s, lo ≤ i → i < hi → I i s → Halts (body s (i : ℤ)) (I (i + 1))) {s : σ} (h0 : I lo s) :
    Halts (forRange lo hi body s) (I hi) :=
  ends_false.mp (ends_forRange hle I False (fun i s hlo hhi hI => (hbody i s hlo hhi hI).ends) h0)

/-- A loop whose body collects, collects everything its turns collect. -/
theorem halts_forRange_collect (hle : lo ≤ hi) (M : σ → τ → Prop) (S : ℕ → τ → Prop)
    (hbody : ∀ i s, lo ≤ i → i < hi → Halts (body s (i : ℤ)) fun s' => ∀ t, M s' t ↔ M s t ∨ S i t)
    (s : σ) :
    Halts (forRange lo hi body s) fun s' => ∀ t, M s' t ↔ M s t ∨ ∃ i, lo ≤ i ∧ i < hi ∧ S i t := by
  refine halts_forRange hle (fun n s' => ∀ t, M s' t ↔ M s t ∨ ∃ i, lo ≤ i ∧ i < n ∧ S i t)
    (fun i s' hlo hhi hI => ?_) (fun t => ?_)
  · refine (hbody i s' hlo hhi).mono ?_
    intro s'' hs'' t
    rw [hs'' t, hI t, or_assoc]
    refine or_congr_right ⟨?_, ?_⟩
    · rintro (⟨j, h1, h2, h3⟩ | h)
      · exact ⟨j, h1, by omega, h3⟩
      · exact ⟨i, hlo, by omega, h⟩
    · rintro ⟨j, h1, h2, h3⟩
      rcases Nat.lt_or_eq_of_le (Nat.lt_succ_iff.mp h2) with h | rfl
      · exact Or.inl ⟨j, h1, h, h3⟩
      · exact Or.inr h3
  · exact ⟨Or.inl, fun h => h.resolve_right fun ⟨i, h1, h2, _⟩ => absurd h1 (by omega)⟩

end For

/-! ## `for i in lo..<hi` with a `return` inside -/

section ForUntil

variable {σ ρ : Type} {lo hi : ℕ}

/-- `for i in lo..<hi`, over the variables `s`, with a body that may return from the function. -/
def forRangeUntil (lo hi : ℤ) (body : σ → ℤ → Prog (Turn σ ρ)) (s : σ) : Prog (Turn σ ρ) := do
  forUntil body (← range lo hi) s

/-- An invariant indexed by the next value of the loop variable, and `Q` of what is returned. -/
theorem halts_forRangeUntil {body : σ → ℤ → Prog (Turn σ ρ)} (hle : lo ≤ hi) (I : ℕ → σ → Prop)
    (Q : ρ → Prop) (hbody : ∀ i s, lo ≤ i → i < hi → I i s →
      Halts (body s (i : ℤ)) (Turn.Good (I (i + 1)) Q)) {s : σ} (h0 : I lo s) :
    Halts (forRangeUntil lo hi body s) (Turn.Good (I hi) Q) := by
  rw [forRangeUntil, range_eq hle, pure_bind]
  set l := (List.range' lo (hi - lo)).map fun k : ℕ => (k : ℤ) with hl
  have hlen : lo + l.length = hi := by
    rw [hl, List.length_map, List.length_range', Nat.add_sub_cancel' hle]
  have hloop : Halts (forUntil body l s) (Turn.Good (fun s' => I (lo + l.length) s') Q) := by
    refine halts_forUntil (fun pre s' => I (lo + pre.length) s') Q (fun pre i post s' heq hI => ?_) h0
    obtain ⟨rfl, hlt⟩ := range_index heq
    rw [List.length_append, List.length_singleton, ← Nat.add_assoc]
    exact hbody _ s' (Nat.le_add_right _ _) hlt hI
  rwa [hlen] at hloop

/-- The loop returns at the first index that hits. -/
theorem halts_search {body : PUnit → ℤ → Prog (Turn PUnit ρ)} (hle : lo ≤ hi) (hit : ℕ → Prop)
    (Q : ℕ → ρ → Prop) (hbody : ∀ i, lo ≤ i → i < hi →
      Halts (body ⟨⟩ (i : ℤ)) (Turn.Good (fun _ => ¬ hit i) fun r => hit i ∧ Q i r)) :
    Halts (forRangeUntil lo hi body ⟨⟩) (Turn.Good (fun _ => ∀ i, lo ≤ i → i < hi → ¬ hit i)
      fun r => ∃ i, lo ≤ i ∧ i < hi ∧ hit i ∧ Q i r ∧ ∀ j, lo ≤ j → j < i → ¬ hit j) := by
  refine halts_forRangeUntil hle (fun n _ => ∀ i, lo ≤ i → i < n → ¬ hit i) _ ?_ fun i h1 h2 =>
    absurd h1 (by omega)
  intro i _ hlo hhi hI
  refine (hbody i hlo hhi).mono ?_
  intro t ht
  cases t with
  | next _ =>
    intro j h1 h2
    rcases Nat.lt_or_eq_of_le (Nat.lt_succ_iff.mp h2) with hlt | rfl
    · exact hI j h1 hlt
    · exact ht
  | exit r => exact ⟨i, hlo, hhi, ht.1, ht.2, hI⟩

end ForUntil

/-! ## Characters -/

/-- A `Character` is a grapheme cluster, given by its scalars in canonical form: `==` does not tell
canonically equivalent clusters apart. -/
structure Character where
  scalars : List Char
  ne_nil : scalars ≠ []
  deriving DecidableEq, Repr

/-- A character of one scalar. -/
def chr (c : Char) : Character := ⟨[c], List.cons_ne_nil _ _⟩

abbrev Str := List Character

/-- `s.components(separatedBy: sep)`, for a separator of one character. -/
def components (s : Str) (sep : Character) : List Str := s.splitOn sep

/-- `s.split(separator: sep)`, which leaves out empty parts. -/
def split (s : Str) (sep : Character) : List Str := (components s sep).filter (· ≠ [])

/-- `strs.joined(separator: sep)`, for a separator of one character. -/
def joined (strs : List Str) (sep : Character) : Str := [sep].intercalate strs

/-! ## Sorting and sets -/

/-- `xs.sorted()` -/
def sorted (xs : List ℤ) : List ℤ := xs.mergeSort fun a b => decide (a ≤ b)

theorem sorted_perm (xs : List ℤ) : (sorted xs).Perm xs := List.mergeSort_perm _ _

theorem pairwise_sorted (xs : List ℤ) : (sorted xs).Pairwise (· ≤ ·) := List.pairwise_mergeSort' _ xs

/-- The order in which the elements of a `Set` come out. -/
structure SetOrder (α : Type) where
  elements : Finset α → List α
  nodup_elements : ∀ s, (elements s).Nodup
  mem_elements : ∀ s a, a ∈ elements s ↔ a ∈ s

end QYInterview.Swift
