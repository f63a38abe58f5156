import QYInterview.Graphemes
import QYInterview.Lib.Mirror

/-!
# ReverseVowels — the vowels of a string in reverse order (`ReverseVowelsController.swift`)

Each turn looks for a vowel from either end.  The scans stop at the ends of the array, not at each other, so
they may pass each other and stop at a consonant; then there was at most one vowel left, and the loop ends.
-/

namespace QYInterview.ReverseVowels

open RunLogic Swift Mirror

/-! ## The code -/

def vowels : List Character :=
  [chr 'a', chr 'e', chr 'i', chr 'o', chr 'u', chr 'A', chr 'E', chr 'I', chr 'O', chr 'U']

/-- `while !vowels.contains(sArray[left]) && left < count` -/
def leftTurn (sArray : Str) (count left : ℤ) : Prog (Turn ℤ ℤ) := do
  if (← get sArray left) ∉ vowels ∧ left < count then return .next (left + 1) else return .exit left

/-- `while !vowels.contains(sArray[right]) && right > 0` -/
def rightTurn (sArray : Str) (right : ℤ) : Prog (Turn ℤ ℤ) := do
  if (← get sArray right) ∉ vowels ∧ right > 0 then return .next (right - 1) else return .exit right

/-- `while left < right`, over `sArray`, `left`, `right`; `swap` is `swapAt`. -/
def reverseVowelsTurn (count : ℤ) : Str × ℤ × ℤ → Prog (Turn (Str × ℤ × ℤ) Str)
  | (sArray, left, right) =>
    if left < right then do
      let left ← loop (leftTurn sArray count) left
      let right ← loop (rightTurn sArray) right
      if left < right then
        let sArray ← swap sArray left right
        return .next (sArray, left + 1, right - 1)
      else return .next (sArray, left, right)
    else return .exit sArray

def reverseVowels (G : Graphemes) (s : Str) : Prog Str :=
  if s.length < 1 then pure s
  else do
    let sArray ← loop (reverseVowelsTurn (s.length - 1)) (s, 0, s.length - 1)
    return G.string sArray

/-! ## The scans -/

section Scan

variable {sArray : Str} {c l r : ℕ}

/-- No vowel is passed over, and the scan stops at a vowel or at the end. -/
theorem halts_left (hc : c < sArray.length) (hl : l ≤ c) : Halts (loop (leftTurn sArray c) l) fun left =>
    ∃ k : ℕ, left = k ∧ l ≤ k ∧ k ≤ c ∧ (∀ i x, l ≤ i → i < k → sArray[i]? = some x → x ∉ vowels) ∧
      (k = c ∨ ∃ x, sArray[k]? = some x ∧ x ∈ vowels) := by
  refine halts_loop (fun left : ℤ => ∃ k : ℕ, left = k ∧ l ≤ k ∧ k ≤ c ∧
    ∀ i x, l ≤ i → i < k → sArray[i]? = some x → x ∉ vowels) (fun left => ((c : ℤ) - left).toNat) _ ?_ (l : ℤ)
    ⟨l, rfl, le_rfl, hl, fun i x h1 h2 => absurd h1 (by omega)⟩
  rintro _ ⟨k, rfl, hlk, hkc, hpassed⟩
  have hk := List.getElem?_eq_getElem (show k < sArray.length by omega)
  rw [leftTurn, get_eq hk, pure_bind]
  by_cases hnext : sArray[k] ∉ vowels ∧ (k : ℤ) < c
  · rw [if_pos hnext]
    refine halts_pure ⟨⟨k + 1, by push_cast; rfl, by omega, by omega, ?_⟩, by omega⟩
    intro i x h1 h2 hx
    rcases Nat.lt_or_eq_of_le (Nat.lt_succ_iff.mp h2) with hik | rfl
    · exact hpassed i x h1 hik hx
    · exact Option.some.inj (hk.symm.trans hx) ▸ hnext.1
  · rw [if_neg hnext]
    refine halts_pure ⟨k, rfl, hlk, hkc, hpassed, ?_⟩
    by_cases hvowel : sArray[k] ∈ vowels
    · exact Or.inr ⟨sArray[k], hk, hvowel⟩
    · exact Or.inl (by have := not_and.mp hnext hvowel; omega)

theorem halts_right (hr : r < sArray.length) : Halts (loop (rightTurn sArray) r) fun right =>
    ∃ k : ℕ, right = k ∧ k ≤ r ∧ (∀ i x, k < i → i ≤ r → sArray[i]? = some x → x ∉ vowels) ∧
      (k = 0 ∨ ∃ x, sArray[k]? = some x ∧ x ∈ vowels) := by
  refine halts_loop (fun right : ℤ => ∃ k : ℕ, right = k ∧ k ≤ r ∧
    ∀ i x, k < i → i ≤ r → sArray[i]? = some x → x ∉ vowels) Int.toNat _ ?_ (r : ℤ)
    ⟨r, rfl, le_rfl, fun i x h1 h2 => absurd h1 (by omega)⟩
  rintro _ ⟨k, rfl, hkr, hpassed⟩
  have hk := List.getElem?_eq_getElem (show k < sArray.length by omega)
  rw [rightTurn, get_eq hk, pure_bind]
  by_cases hnext : sArray[k] ∉ vowels ∧ (k : ℤ) > 0
  · rw [if_pos hnext]
    refine halts_pure ⟨⟨k - 1, by omega, by omega, ?_⟩, by omega⟩
    intro i x h1 h2 hx
    rcases Nat.lt_or_eq_of_le (show k ≤ i by omega) with hki | rfl
    · exact hpassed i x hki h2 hx
    · exact Option.some.inj (hk.symm.trans hx) ▸ hnext.1
  · rw [if_neg hnext]
    refine halts_pure ⟨k, rfl, hkr, hpassed, ?_⟩
    by_cases hvowel : sArray[k] ∈ vowels
    · exact Or.inr ⟨sArray[k], hk, hvowel⟩
    · exact Or.inl (by have := not_and.mp hnext hvowel; omega)

end Scan

/-! ## The loop -/

section Turn

variable {s sArray front front' mid back back' : Str} {left right : ℤ}

/-- The part `mid` of the string is still as it was, and what is outside it is done. -/
structure Open (s sArray front front' mid back back' : Str) (left right : ℤ) : Prop where
  before : s = front ++ mid ++ back
  now : sArray = front' ++ mid ++ back'
  ends : Ends (· ∈ vowels) front front' back back'
  left_eq : left = front'.length
  right_eq : right = left + mid.length - 1

/-- Between the pointers, or with all vowels in their new places. -/
def Reversing (s : Str) : Str × ℤ × ℤ → Prop
  | (sArray, left, right) => (∃ front front' mid back back',
      Open s sArray front front' mid back back' left right) ∨
      right ≤ left ∧ Mirrored (· ∈ vowels) s sArray

/-- An element of the part in between. -/
theorem Open.getElem? (h : Open s sArray front front' mid back back' left right) {i : ℕ}
    (hi : i < mid.length) :
    sArray[front'.length + i]? = mid[i]? := by
  rw [h.now, List.append_assoc, List.getElem?_append_right (Nat.le_add_right _ _), Nat.add_sub_cancel_left,
    List.getElem?_append_left hi]

/-- With one vowel at most in between, all is done. -/
theorem Open.mirrored (h : Open s sArray front front' mid back back' left right)
    (hone : ∀ (i j : ℕ) x y, i < j → mid[i]? = some x → mid[j]? = some y → x ∈ vowels → y ∉ vowels) :
    Mirrored (· ∈ vowels) s sArray := by
  rw [h.before, h.now]
  apply h.ends.close
  rw [List.pairwise_iff_getElem]
  intro i j hi hj hij hboth
  exact hone i j _ _ hij (List.getElem?_eq_getElem hi) (List.getElem?_eq_getElem hj) hboth.1 hboth.2

/-- The first and the last vowel in between change places. -/
theorem Open.swap {A M B : Str} {v w : Character}
    (h : Open s sArray front front' (A ++ v :: M ++ w :: B) back back' left right)
    (hA : ∀ x ∈ A, x ∉ vowels) (hB : ∀ x ∈ B, x ∉ vowels) (hv : v ∈ vowels) (hw : w ∈ vowels) {l r : ℤ}
    (hl : l = front'.length + A.length) (hr : r = l + 1 + M.length) :
    ∃ sArray', Swift.swap sArray l r = pure sArray' ∧
      Open s sArray' (front ++ (A ++ [v])) (front' ++ (A ++ [w])) M
      (w :: B ++ back) (v :: B ++ back') (l + 1) (r - 1) := by
  obtain ⟨rfl, rfl, hends, -, -⟩ := h
  have hsplit : front' ++ (A ++ v :: M ++ w :: B) ++ back' =
    front' ++ A ++ v :: M ++ w :: (B ++ back') := by simp
  have hlen : l = ((front' ++ A).length : ℕ) := by
    rw [hl, List.length_append, Nat.cast_add]
  refine ⟨front' ++ A ++ w :: M ++ v :: (B ++ back'), ?_, by simp, by simp, hends.swap hA hB hv hw,
    ?_, by omega⟩
  · rw [hsplit]
    exact (swap_append hlen (by rw [hr, hlen]) v w (B ++ back')).1
  · rw [hl]
    simp
    omega

theorem Open.length_eq (h : Open s sArray front front' mid back back' left right) :
    sArray.length = s.length ∧ front'.length + mid.length ≤ sArray.length := by
  have hfront := h.ends.places_front.length_eq
  have hback := h.ends.places_back.length_eq
  rw [h.before, h.now]
  simp only [List.length_append]
  omega

section Found

variable {k m : ℕ}

/-- The scans stopped at two vowels, with none outside them. -/
theorem Open.exchange (h : Open s sArray front front' mid back back' left right) {v w : Character}
    (hpassed : ∀ i x, front'.length ≤ i → i < k → sArray[i]? = some x → x ∉ vowels)
    (hpassed' : ∀ i x, m < i → i < front'.length + mid.length → sArray[i]? = some x → x ∉ vowels)
    (hk : front'.length ≤ k) (hkm : k < m) (hm : m < front'.length + mid.length)
    (hgetv : sArray[k]? = some v) (hgetw : sArray[m]? = some w) (hv : v ∈ vowels) (hw : w ∈ vowels) :
    ∃ sArray' front front' mid back back', Swift.swap sArray k m = pure sArray' ∧
      Open s sArray' front front' mid back back' ((k : ℤ) + 1) ((m : ℤ) - 1) := by
  obtain ⟨a, rfl⟩ := Nat.exists_eq_add_of_le hk
  obtain ⟨b, rfl⟩ := Nat.exists_eq_add_of_le (hk.trans hkm.le)
  rw [h.getElem? (by omega)] at hgetv hgetw
  obtain ⟨A, M, B, rfl, rfl, hM, hfirst, hlast⟩ := exists_pieces (by omega) hgetv hgetw
  have hA : ∀ x ∈ A, x ∉ vowels := by
    intro x hx
    obtain ⟨i, hi, hget⟩ := hfirst x hx
    exact hpassed (front'.length + i) x (by omega) (by omega) ((h.getElem? (by omega)).trans hget)
  have hB : ∀ x ∈ B, x ∉ vowels := by
    intro x hx
    obtain ⟨i, hi, hget⟩ := hlast x hx
    have hil := (List.getElem?_eq_some_iff.mp hget).1
    exact hpassed' (front'.length + i) x (by omega) (by omega) ((h.getElem? hil).trans hget)
  obtain ⟨sArray', hswap, h'⟩ := h.swap hA hB hv hw (l := (front'.length + A.length : ℕ))
    (r := (front'.length + b : ℕ)) (by push_cast; rfl) (by omega)
  exact ⟨sArray', _, _, _, _, _, hswap, h'⟩

/-- The scans have passed each other. -/
theorem Open.passed (h : Open s sArray front front' mid back back' left right)
    (hpassed : ∀ i x, front'.length ≤ i → i < k → sArray[i]? = some x → x ∉ vowels)
    (hpassed' : ∀ i x, m < i → i < front'.length + mid.length → sArray[i]? = some x → x ∉ vowels)
    (hmk : m ≤ k) :
    Mirrored (· ∈ vowels) s sArray := by
  apply h.mirrored
  intro i j x y hij hx hy hxv hyv
  have hjl := (List.getElem?_eq_some_iff.mp hy).1
  have hfirst : k ≤ front'.length + i := by
    by_contra hlt
    exact hpassed _ x (Nat.le_add_right _ _) (not_le.mp hlt) ((h.getElem? (by omega)).trans hx) hxv
  have hsecond : front'.length + j ≤ m := by
    by_contra hlt
    exact hpassed' _ y (not_le.mp hlt) (by omega) ((h.getElem? hjl).trans hy) hyv
  omega

end Found

/-- A turn takes the outermost vowels in between, or finds that there is one at most. -/
theorem Open.turn (h : Open s sArray front front' mid back back' left right) (hlt : left < right) :
    Halts (reverseVowelsTurn (s.length - 1) (sArray, left, right)) (Turn.Good
      (fun t => Reversing s t ∧ (t.2.2 - t.2.1).toNat < (right - left).toNat) (Mirrored (· ∈ vowels) s)) := by
  have hleft := h.left_eq
  have hright := h.right_eq
  obtain ⟨hlen, hroom⟩ := h.length_eq
  have hcount : (s.length : ℤ) - 1 = ((s.length - 1 : ℕ) : ℤ) := by omega
  have hlast : right = ((front'.length + mid.length - 1 : ℕ) : ℤ) := by omega
  simp only [reverseVowelsTurn, if_pos hlt]
  subst hleft hlast
  rw [hcount]
  refine halts_bind ((halts_left (by omega) (by omega)).mono ?_)
  rintro _ ⟨k, rfl, hlk, hkc, hpassed, hk⟩
  refine halts_bind ((halts_right (by omega)).mono ?_)
  rintro _ ⟨m, rfl, hmr, hpassed', hm⟩
  have hbehind : ∀ i x, m < i → i < front'.length + mid.length → sArray[i]? = some x → x ∉ vowels := by
    intro i x hmi hi
    exact hpassed' i x hmi (by omega)
  by_cases hkm : (k : ℤ) < m
  · obtain ⟨v, hgetv, hv⟩ := hk.resolve_left (by omega)
    obtain ⟨w, hgetw, hw⟩ := hm.resolve_left (by omega)
    obtain ⟨sArray', _, _, _, _, _, hswap, h'⟩ :=
      h.exchange hpassed hbehind hlk (by omega) (by omega) hgetv hgetw hv hw
    rw [if_pos hkm, hswap, pure_bind]
    exact halts_pure ⟨Or.inl ⟨_, _, _, _, _, h'⟩, by dsimp only; omega⟩
  · rw [if_neg hkm]
    exact halts_pure ⟨Or.inr ⟨by omega, h.passed hpassed hbehind (by omega)⟩, by dsimp only; omega⟩

theorem Reversing.turn {t : Str × ℤ × ℤ} (h : Reversing s t) :
    Halts (reverseVowelsTurn (s.length - 1) t) (Turn.Good
    (fun t' => Reversing s t' ∧ (t'.2.2 - t'.2.1).toNat < (t.2.2 - t.2.1).toNat)
      (Mirrored (· ∈ vowels) s)) := by
  obtain ⟨sArray, left, right⟩ := t
  by_cases hlt : left < right
  · rcases h with ⟨front, front', mid, back, back', h⟩ | ⟨hle, -⟩
    · exact h.turn hlt
    · exact absurd hlt (not_lt.mpr hle)
  · simp only [reverseVowelsTurn, if_neg hlt]
    refine halts_pure ?_
    rcases h with ⟨front, front', mid, back, back', h⟩ | ⟨-, hmirrored⟩
    · have hright := h.right_eq
      apply h.mirrored
      intro i j x y hij hx hy
      have hjl := (List.getElem?_eq_some_iff.mp hy).1
      omega
    · exact hmirrored

end Turn

/-! ## The string -/

theorem isLetter_of_mem_vowels {c : Character} (h : c ∈ vowels) : IsLetter c := by
  simp only [vowels, List.mem_cons, List.not_mem_nil, or_false] at h
  rcases h with rfl | rfl | rfl | rfl | rfl | rfl | rfl | rfl | rfl | rfl <;> exact ⟨_, rfl, rfl⟩

/-- The characters of the result are those of the array. -/
theorem halts_reverseVowels (G : Graphemes) {s : Str} (hs : G.string s = s) :
    Halts (reverseVowels G s) fun r => Mirrored (· ∈ vowels) s r ∧ G.string r = r := by
  unfold reverseVowels
  by_cases hshort : s.length < 1
  · rw [if_pos hshort]
    obtain rfl := List.eq_nil_of_length_eq_zero (Nat.lt_one_iff.mp hshort)
    exact halts_pure ⟨⟨List.Forall₂.nil, rfl⟩, hs⟩
  · rw [if_neg hshort]
    have hstart : Reversing s (s, 0, (s.length : ℤ) - 1) :=
      Or.inl ⟨[], [], s, [], [], by simp, by simp, ends_nil, rfl, by simp⟩
    obtain ⟨r, hloop, hr⟩ :=
      halts_loop (Reversing s) (fun t => (t.2.2 - t.2.1).toNat) _ (fun _ h => h.turn) _ hstart
    have hstring : G.string r = r := by
      refine G.letters s r (hr.places.imp fun c d hcd => hcd.imp_right ?_) hs
      exact fun h => ⟨isLetter_of_mem_vowels h.1, isLetter_of_mem_vowels h.2⟩
    exact ⟨r, returns_bind hloop (hstring.symm ▸ returns_pure _), hr, hstring⟩

/-- The vowels are in reverse order, all other characters in their places,
and a second call gives the string back. -/
theorem reverseVowels_spec (G : Graphemes) (s : Str) (hs : G.string s = s) :
    ∃ r, Returns (reverseVowels G s) r ∧
    r.length = s.length ∧ (∀ (i : ℕ) c, s[i]? = some c → c ∉ vowels → r[i]? = some c) ∧
    r.filter (· ∈ vowels) = (s.filter (· ∈ vowels)).reverse ∧ Returns (reverseVowels G r) s := by
  obtain ⟨r, hret, hr, hstring⟩ := halts_reverseVowels G hs
  obtain ⟨s', hret', hs', -⟩ := halts_reverseVowels G hstring
  obtain rfl := hs'.unique hr.symm
  exact ⟨r, hret, hr.places.length_eq.symm, fun i c => places_getElem? hr.places, hr.order, hret'⟩

theorem reverseVowels_spec_aA :
    ∃ r, Returns (reverseVowels ascii [chr 'a', chr '.', chr 'A']) r ∧ r.length = 3 ∧
    (∀ (i : ℕ) c, [chr 'a', chr '.', chr 'A'][i]? = some c → c ∉ vowels → r[i]? = some c) ∧
    r.filter (· ∈ vowels) = [chr 'A', chr 'a'] ∧
    Returns (reverseVowels ascii r) [chr 'a', chr '.', chr 'A'] :=
  reverseVowels_spec ascii [chr 'a', chr '.', chr 'A'] (by decide)

end QYInterview.ReverseVowels
