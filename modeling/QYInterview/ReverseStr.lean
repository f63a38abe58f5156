import QYInterview.Graphemes

/-!
# ReverseStr — the first half of every block turned round (`ReverseString2Controler.swift`)

Blocks of `2 * k` characters; the last one may be short.  Each turn works on one block and leaves the others
alone, so the array is described by the position every character comes from (`source`).  The task is stated
for lower case letters and `k` up to 10000: for other characters the string may be divided anew, and a
greater `k` may take the index out of range.
-/

namespace QYInterview.ReverseStr

open RunLogic Swift

/-! ## The code -/

/-- `while left < right`, over `array`, `left`, `right`. -/
def reverseTurn : Str × ℤ × ℤ → Prog (Turn (Str × ℤ × ℤ) Str)
  | (array, left, right) =>
    if left < right then do
      let temp ← get array left
      let array ← set array left (← get array right)
      let array ← set array right temp
      return .next (array, left + 1, right - 1)
    else return .exit array

def reverse (array : Str) (left right : ℤ) : Prog Str := loop reverseTurn (array, left, right)

/-- `while index < array.count`, over `array`, `index`. -/
def reverseStrTurn (k : ℤ) : Str × ℤ → Prog (Turn (Str × ℤ) Str)
  | (array, index) =>
    if index < array.length then do
      let last ← int ((← int (index + k)) - 1)
      let array ← if last < array.length then reverse array index last
        else reverse array index (array.length - 1)
      let index ← int (index + (← int (2 * k)))
      return .next (array, index)
    else return .exit array

def reverseStr (G : Graphemes) (s : Str) (k : ℤ) : Prog Str :=
  if s.length < 1 then pure s
  else do
    let array ← loop (reverseStrTurn k) (s, 0)
    return G.string array

/-! ## Positions -/

/-- Where the character at position `t` of a block comes from,
when `n` characters are left from the block's start on. -/
def source (k n t : ℕ) : ℕ := if t < k then min k n - 1 - t else t

/-- The blocks of `xs` and `ys` that start before `m` are turned round in `ys`, the rest is the same. -/
structure Turned (k m : ℕ) (xs ys : Str) : Prop where
  length : ys.length = xs.length
  done : ∀ q t : ℕ, 2 * k * q < m → t < 2 * k → 2 * k * q + t < xs.length →
    ys[2 * k * q + t]? = xs[2 * k * q + source k (xs.length - 2 * k * q) t]?
  rest : ∀ i, m ≤ i → ys[i]? = xs[i]?

section Positions

variable {k m n t q : ℕ} {xs ys zs : Str}

theorem source_lt (hk : 0 < k) (ht : t < 2 * k) (hn : t < n) : source k n t < 2 * k ∧ source k n t < n := by
  unfold source
  split_ifs <;> omega

theorem source_source (hn : t < n) : source k n (source k n t) = t := by
  unfold source
  split_ifs <;> omega

theorem turned_start (k : ℕ) (xs : Str) : Turned k 0 xs xs :=
  ⟨rfl, fun _ _ h => absurd h (Nat.not_lt_zero _), fun _ _ => rfl⟩

/-- Turning all blocks round twice gives the list back. -/
theorem Turned.twice (hk : 0 < k) (h : Turned k m xs ys) (h' : Turned k n ys zs) (hm : xs.length ≤ m)
    (hn : xs.length ≤ n) : zs = xs := by
  apply List.ext_getElem?
  intro i
  rcases lt_or_ge i xs.length with hi | hi
  · have hpos : 2 * k * (i / (2 * k)) + i % (2 * k) = i := Nat.div_add_mod i (2 * k)
    have hmod : i % (2 * k) < 2 * k := Nat.mod_lt i (by omega)
    set q := i / (2 * k)
    set t := i % (2 * k)
    have hsource := source_lt (n := xs.length - 2 * k * q) hk hmod (by omega)
    have hzs := h'.done q t (by omega) hmod (by rw [h.length]; omega)
    have hys := h.done q (source k (xs.length - 2 * k * q) t) (by omega) hsource.1 (by omega)
    rw [source_source (by omega), hpos] at hys
    rw [h.length, hpos] at hzs
    rw [hzs, hys]
  · rw [List.getElem?_eq_none hi, List.getElem?_eq_none (by rw [h'.length, h.length]; exact hi)]

/-- A part of a list turned round. -/
theorem getElem?_reverse_mid (front mid back : Str) (i : ℕ) : (front ++ mid.reverse ++ back)[i]? =
    if front.length ≤ i ∧ i < front.length + mid.length
    then (front ++ mid ++ back)[front.length + (mid.length - 1 - (i - front.length))]?
    else (front ++ mid ++ back)[i]? := by
  split_ifs with hi
  · rw [List.append_assoc, List.getElem?_append_right hi.1,
      List.getElem?_append_left (by rw [List.length_reverse]; omega),
      List.getElem?_reverse (by omega), List.append_assoc, List.getElem?_append_right (Nat.le_add_right _ _),
      Nat.add_sub_cancel_left, List.getElem?_append_left (by omega)]
  · rw [List.append_assoc, List.append_assoc]
    rcases lt_or_ge i front.length with hlt | hge
    · rw [List.getElem?_append_left hlt, List.getElem?_append_left hlt]
    · rw [List.getElem?_append_right hge, List.getElem?_append_right hge,
        List.getElem?_append_right (by rw [List.length_reverse]; omega),
        List.getElem?_append_right (by omega), List.length_reverse]

end Positions

/-! ## A turn -/

section Turn

variable {k m q : ℕ} {xs ys front mid back : Str}

theorem Turned.step (h : Turned k (2 * k * q) xs (front ++ mid ++ back)) (hq : 2 * k * q < xs.length)
    (hfront : front.length = 2 * k * q) (hmid : mid.length = min k (xs.length - 2 * k * q)) :
    Turned k (2 * k * (q + 1)) xs (front ++ mid.reverse ++ back) := by
  have hnext : 2 * k * (q + 1) = 2 * k * q + 2 * k := Nat.mul_succ _ _
  refine ⟨?_, ?_, ?_⟩
  · rw [← h.length]
    simp
  · intro q' t hq' ht hlt
    rw [getElem?_reverse_mid, hfront, hmid]
    have hle : q' ≤ q := by
      by_contra hgt
      have hbefore : 2 * k * (q + 1) ≤ 2 * k * q' := Nat.mul_le_mul_left (2 * k) (not_le.mp hgt)
      omega
    rcases Nat.lt_or_eq_of_le hle with hlt' | rfl
    · have hbefore : 2 * k * (q' + 1) ≤ 2 * k * q := Nat.mul_le_mul_left (2 * k) hlt'
      rw [Nat.mul_succ] at hbefore
      rw [if_neg (by omega)]
      exact h.done q' t (by omega) ht hlt
    · unfold source
      by_cases htk : t < k
      · rw [if_pos (by omega), if_pos htk, Nat.add_sub_cancel_left]
        exact h.rest _ (Nat.le_add_right _ _)
      · rw [if_neg (by omega), if_neg htk]
        exact h.rest _ (Nat.le_add_right _ _)
  · intro i hi
    rw [getElem?_reverse_mid, hfront, hmid, if_neg (by omega)]
    exact h.rest i (by omega)

theorem reverseTurn_swap (front : Str) (x : Character) (mid : Str) (y : Character) (back : Str)
    (left right : ℤ) (hleft : left = front.length) (hright : right = left + 1 + mid.length) :
    reverseTurn (front ++ x :: mid ++ y :: back, left, right) =
      pure (.next (front ++ y :: mid ++ x :: back, left + 1, right - 1)) := by
  have hend : right = front.length + 1 + mid.length := by rw [hright, hleft]
  rw [reverseTurn, if_pos (by omega)]
  simp only [get_left hleft, get_right hend, set_left hleft, set_right hend, pure_bind]

theorem returns_reverse (front mid back : Str) {left right : ℤ} (hleft : left = front.length)
    (hright : right = left + mid.length - 1) :
    Returns (reverse (front ++ mid ++ back) left right) (front ++ mid.reverse ++ back) :=
  (loopReturns_turnRound (fun _ _ _ hle => if_neg (not_lt.mpr hle)) reverseTurn_swap mid front back left
    right hleft
    hright).returns

/-- Both calls of `reverse` are for the first `k` characters of the block, or for all that are left. -/
theorem Turned.turn (h : Turned k (2 * k * q) xs ys) (hk : 0 < k) (hq : 2 * k * q < xs.length)
    (hint : IsInt (2 * k * (q + 1) : ℕ)) : ∃ ys', Turned k (2 * k * (q + 1)) xs ys' ∧
      Returns (reverseStrTurn k (ys, ((2 * k * q : ℕ) : ℤ))) (.next (ys', ((2 * k * (q + 1) : ℕ) : ℤ))) := by
  have hnext : 2 * k * (q + 1) = 2 * k * q + 2 * k := Nat.mul_succ _ _
  have hlen := h.length
  set b := 2 * k * q with hb
  set L := min k (xs.length - b) with hL
  have hfront : (ys.take b).length = b := List.length_take_of_le (by omega)
  have hmid : ((ys.drop b).take L).length = L := List.length_take_of_le (by rw [List.length_drop]; omega)
  have hsplit : ys.take b ++ (ys.drop b).take L ++ (ys.drop b).drop L = ys := by
    rw [List.append_assoc, List.take_append_drop, List.take_append_drop]
  have hparts : Turned k b xs (ys.take b ++ (ys.drop b).take L ++ (ys.drop b).drop L) := by rwa [hsplit]
  have hstep := hparts.step hq hfront hmid
  have hreverse : Returns (reverse (ys.take b ++ (ys.drop b).take L ++ (ys.drop b).drop L) (b : ℤ)
    ((b : ℤ) + L - 1))
      (ys.take b ++ ((ys.drop b).take L).reverse ++ (ys.drop b).drop L) :=
    returns_reverse _ _ _ (by rw [hfront]) (by rw [hmid])
  rw [hsplit] at hreverse
  refine ⟨_, hstep, ?_⟩
  have hk₁ : int ((b : ℤ) + k) = pure ((b : ℤ) + k) := int_eq (by unfold IsInt at hint ⊢; omega)
  have hk₂ : int ((b : ℤ) + k - 1) = pure ((b : ℤ) + k - 1) := int_eq (by unfold IsInt at hint ⊢; omega)
  have hk₃ : int (2 * (k : ℤ)) = pure (2 * (k : ℤ)) := int_eq (by unfold IsInt at hint ⊢; omega)
  have hk₄ : int ((b : ℤ) + 2 * k) = pure ((2 * k * (q + 1) : ℕ) : ℤ) := by
    rw [hnext, show (b : ℤ) + 2 * k = ((b + 2 * k : ℕ) : ℤ) by push_cast; rfl]
    exact int_eq (hnext ▸ hint)
  simp only [reverseStrTurn, hk₁, hk₂, hk₃, hk₄, pure_bind]
  rw [if_pos (by omega)]
  by_cases hlast : (b : ℤ) + k - 1 < ys.length
  · rw [if_pos hlast]
    have hright : (b : ℤ) + L - 1 = b + k - 1 := by omega
    exact returns_bind (hright ▸ hreverse) (returns_pure _)
  · rw [if_neg hlast]
    have hright : (b : ℤ) + L - 1 = ys.length - 1 := by omega
    exact returns_bind (hright ▸ hreverse) (returns_pure _)

theorem halts_turned (hk : 0 < k) (xs : Str)
    (hint : ∀ q : ℕ, 2 * k * q < xs.length → IsInt (2 * k * (q + 1) : ℕ)) :
    Halts (loop (reverseStrTurn k) (xs, 0)) fun ys => ∃ m, xs.length ≤ m ∧ Turned k m xs ys := by
  refine halts_loop (fun v : Str × ℤ => ∃ q : ℕ, v.2 = ((2 * k * q : ℕ) : ℤ) ∧ Turned k (2 * k * q) xs v.1)
    (fun v => ((xs.length : ℤ) - v.2).toNat) _ ?_ _ ⟨0, by simp, turned_start k xs⟩
  rintro ⟨ys, _⟩ ⟨q, rfl, h⟩
  by_cases hq : 2 * k * q < xs.length
  · obtain ⟨ys', h', hret⟩ := h.turn hk hq (hint q hq)
    have hnext : 2 * k * (q + 1) = 2 * k * q + 2 * k := Nat.mul_succ _ _
    exact ⟨_, hret, ⟨q + 1, rfl, h'⟩, by dsimp only; omega⟩
  · simp only [reverseStrTurn]
    rw [if_neg (by rw [h.length]; omega)]
    exact halts_pure ⟨2 * k * q, not_lt.mp hq, h⟩

end Turn

/-! ## The whole string -/

section Whole

variable {k m : ℕ} {G : Graphemes} {s array : Str}

/-- A string of letters stays one. -/
theorem Turned.string_eq (h : Turned k m s array) (hk : 0 < k) (hm : s.length ≤ m) (hs : G.string s = s)
    (hletters : ∀ c ∈ s, IsLetter c) : G.string array = array := by
  have hback : ∀ c ∈ array, IsLetter c := by
    intro c hc
    obtain ⟨i, hi⟩ := List.mem_iff_getElem?.mp hc
    have hlt := h.length ▸ (List.getElem?_eq_some_iff.mp hi).1
    have hpos : 2 * k * (i / (2 * k)) + i % (2 * k) = i := Nat.div_add_mod i (2 * k)
    have hdone := h.done (i / (2 * k)) (i % (2 * k)) (by omega) (Nat.mod_lt i (by omega)) (by omega)
    rw [hpos, hi] at hdone
    exact hletters c (List.mem_of_getElem? hdone.symm)
  refine G.letters s array (List.forall₂_iff_get.mpr ⟨h.length.symm, fun i hi hi' => Or.inr ⟨?_, ?_⟩⟩) hs
  · exact hletters _ (List.getElem_mem hi)
  · exact hback _ (List.getElem_mem hi')

/-- The code returns the string of a list with all blocks turned round. -/
theorem halts_reverseStr (hk : 0 < k) (hint : ∀ q : ℕ, 2 * k * q < s.length → IsInt (2 * k * (q + 1) : ℕ))
    (hs : s.length < 1 → G.string s = s) : ∃ array, Returns (reverseStr G s k) (G.string array) ∧
      ∃ m, s.length ≤ m ∧ Turned k m s array := by
  unfold reverseStr
  by_cases hempty : s.length < 1
  · rw [if_pos hempty]
    refine ⟨s, ?_, 0, by omega, turned_start k s⟩
    rw [hs hempty]
    exact returns_pure s
  · rw [if_neg hempty]
    obtain ⟨array, hret, hturned⟩ := halts_turned hk s hint
    exact ⟨array, returns_bind hret (returns_pure _), hturned⟩

end Whole

theorem reverseStr_spec (G : Graphemes) (s : Str) (k : ℕ) (hk : 1 ≤ k) (hs : G.string s = s)
    (hint : ∀ q : ℕ, 2 * k * q < s.length → IsInt (2 * k * (q + 1) : ℕ)) :
    ∃ array : Str, Returns (reverseStr G s k) (G.string array) ∧ array.length = s.length ∧
      (∀ q t : ℕ, t < 2 * k → 2 * k * q + t < s.length → array[2 * k * q + t]? =
        s[2 * k * q + if t < k then min k (s.length - 2 * k * q) - 1 - t else t]?) ∧
      ((∀ c ∈ s, IsLetter c) → G.string array = array) ∧
      (G.string array = array → Returns (reverseStr G array k) s) := by
  obtain ⟨array, hret, m, hm, hturned⟩ := halts_reverseStr hk hint fun _ => hs
  refine ⟨array, hret, hturned.length, fun q t ht hlt => hturned.done q t (by omega) ht hlt,
    hturned.string_eq hk hm hs, ?_⟩
  intro harray
  obtain ⟨s', hret', n, hn, hturned'⟩ :=
    halts_reverseStr (s := array) hk (by rwa [hturned.length]) fun _ => harray
  obtain rfl := hturned.twice hk hturned' hm (hturned.length ▸ hn)
  rwa [hs] at hret'

theorem reverseStr_spec_abc :
    ∃ array : Str, Returns (reverseStr ascii [chr 'a', chr 'b', chr 'c'] (2 : ℕ)) (Ascii.string array) ∧
    array.length = 3 ∧ (∀ q t : ℕ, t < 2 * 2 → 2 * 2 * q + t < 3 → array[2 * 2 * q + t]? =
      [chr 'a', chr 'b', chr 'c'][2 * 2 * q + if t < 2 then min 2 (3 - 2 * 2 * q) - 1 - t else t]?) ∧
    ((∀ c ∈ [chr 'a', chr 'b', chr 'c'], IsLetter c) → Ascii.string array = array) ∧
    (Ascii.string array = array → Returns (reverseStr ascii array (2 : ℕ)) [chr 'a', chr 'b', chr 'c']) := by
  apply reverseStr_spec ascii [chr 'a', chr 'b', chr 'c'] 2 (by decide) (by decide)
  intro q hq
  have hq : 2 * 2 * q < 3 := hq
  unfold IsInt
  omega

/-- `2 * k` out of range, and a line feed before a carriage return: turned round, they are one character. -/
theorem reverseStr_outside :
    Traps (reverseStr ascii [chr 'a'] (2 ^ 62)) ∧
    Ascii.string [Ascii.lf, Ascii.cr] = [Ascii.lf, Ascii.cr] ∧
    Returns (reverseStr ascii [Ascii.lf, Ascii.cr] 2) [Ascii.crlf] ∧
    Returns (reverseStr ascii [Ascii.crlf] 2) [Ascii.crlf] := by
  refine ⟨⟨2, fun n hn => ?_⟩, by decide, ⟨3, fun n hn => ?_⟩, ⟨3, fun n hn => ?_⟩⟩ <;>
    obtain ⟨m, rfl⟩ := Nat.exists_eq_add_of_le' hn
  · rfl
  · rfl
  · rfl

end QYInterview.ReverseStr
