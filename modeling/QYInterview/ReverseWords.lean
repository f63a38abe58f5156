import QYInterview.ReplaceSpace
import QYInterview.Lib.Words

/-!
# ReverseWords — the words of a string in reverse order

The two apps' `ReverseWordsController.swift`.  The Algorithm app parts the string at its spaces and joins the
words backwards.  The QYInterview app works in place: `removeSpace` leaves single spaces between the words,
then the whole array is reversed, then every word in it; `Scanning` is what the last loop keeps.  Without a
character other than a space its first scan runs off the array.
-/

namespace QYInterview.ReverseWords

open RunLogic Swift Words ReplaceSpace

/-! ## The code -/

namespace Algorithm

def reverseWords (s : Str) : Str :=
  let arr := (components s space).reverse
  let arr1 := arr.foldl (fun arr1 item => if item ≠ [] then arr1 ++ [item] else arr1) []
  joined arr1 space

def reverseWords1 (s : Str) : Str := joined (split s space).reverse space

end Algorithm

namespace QY

/-- `while ch[left] == " " { left += 1 }` -/
def leftTurn (ch : Str) (left : ℤ) : Prog (Turn ℤ ℤ) := do
  if (← get ch left) = space then return .next (left + 1) else return .exit left

/-- `while ch[right] == " " { right -= 1 }` -/
def rightTurn (ch : Str) (right : ℤ) : Prog (Turn ℤ ℤ) := do
  if (← get ch right) = space then return .next (right - 1) else return .exit right

/-- `char != " " || lastArr[lastArr.count - 1] != " "` -/
def isKept (char : Character) (lastArr : Str) : Prog Bool :=
  if char ≠ space then return true
  else do return decide ((← get lastArr (lastArr.length - 1)) ≠ space)

/-- `while left <= right`, over `left` and `lastArr`. -/
def removeSpaceTurn (ch : Str) (right : ℤ) : ℤ × Str → Prog (Turn (ℤ × Str) Str)
  | (left, lastArr) =>
    if left ≤ right then do
      let char ← get ch left
      if ← isKept char lastArr then return .next (left + 1, lastArr ++ [char])
      else return .next (left + 1, lastArr)
    else return .exit lastArr

def removeSpace (s : Str) : Prog Str := do
  let left ← loop (leftTurn s) 0
  let right ← loop (rightTurn s) (s.length - 1)
  loop (removeSpaceTurn s right) (left, [])

/-- `while start < end`, over `s`, `start` and `end`. -/
def reverseStringTurn : Str × ℤ × ℤ → Prog (Turn (Str × ℤ × ℤ) Str)
  | (s, start, stop) =>
    if start < stop then do
      let last ← get s stop
      let first ← get s start
      let s ← set s start last
      let s ← set s stop first
      return .next (s, start + 1, stop - 1)
    else return .exit s

def reverseString (s : Str) (startIndex endIndex : ℤ) : Prog Str :=
  loop reverseStringTurn (s, startIndex, endIndex)

/-- The variables of `reverseWord`; `stop` is its `end`. -/
structure WordScan where
  s : Str
  start : ℤ
  stop : ℤ
  entry : Bool

/-- `if !entry { start = i; entry = true }` -/
def enter (i : ℤ) (v : WordScan) : WordScan :=
  if !v.entry then { v with start := i, entry := true } else v

/-- `entry && s[i] == " " && s[i - 1] != " "` -/
def endsBefore (i : ℤ) (v : WordScan) : Prog Bool :=
  if v.entry then do
    if (← get v.s i) = space then return decide ((← get v.s (i - 1)) ≠ space) else return false
  else return false

/-- `entry && (i == s.count - 1) && s[i] != " "` -/
def endsAt (i : ℤ) (v : WordScan) : Prog Bool :=
  if v.entry ∧ i = v.s.length - 1 then do return decide ((← get v.s i) ≠ space)
  else return false

/-- `end = stop; entry = false; reverseString(&s, startIndex: start, endIndex: end)` -/
def finish (stop : ℤ) (v : WordScan) : Prog WordScan := do
  return { v with s := ← reverseString v.s v.start stop, stop := stop, entry := false }

/-- `for i in 0..<s.count` -/
def reverseWordBody (v : WordScan) (i : ℤ) : Prog WordScan := do
  let v := enter i v
  let v ← if ← endsBefore i v then finish (i - 1) v else pure v
  if ← endsAt i v then finish i v else pure v

def reverseWord (s : Str) : Prog Str := do
  return (← forRange 0 s.length reverseWordBody ⟨s, 0, 0, false⟩).s

def reverseWords (s : Str) : Prog Str := do
  let stringArray ← removeSpace s
  let stringArray ← reverseString stringArray 0 (stringArray.length - 1)
  reverseWord stringArray

end QY

/-! ## The Algorithm app -/

theorem algorithm_reverseWords (s : Str) :
    Algorithm.reverseWords s = joined (words space s).reverse space := by
  have hkeep : ∀ (arr arr1 : List Str),
      arr.foldl (fun arr1 item => if item ≠ [] then arr1 ++ [item] else arr1) arr1 =
        arr1 ++ arr.filter (· ≠ []) := by
    intro arr
    induction arr with
    | nil => exact fun arr1 => (List.append_nil arr1).symm
    | cons item arr ih =>
      intro arr1
      rw [List.foldl_cons, ih]
      by_cases hitem : item = []
      · simp [hitem]
      · simp [hitem]
  unfold Algorithm.reverseWords
  dsimp only
  rw [hkeep, List.nil_append, List.filter_reverse]
  rfl

/-! ## In place -/

namespace QY

section RemoveSpace

variable {c : Character}

theorem loopReturns_left (hc : c ≠ space) (back : Str) : ∀ (done front : Str), (∀ x ∈ front, x = space) →
    LoopReturns (leftTurn (done ++ (front ++ c :: back))) (done.length : ℤ)
      ((done.length : ℤ) + front.length)
  | done, [], _ => by
    have hturn : leftTurn (done ++ c :: back) done.length = pure (.exit (done.length : ℤ)) := by
      rw [leftTurn, get_append rfl, pure_bind, if_neg hc]
    rw [List.nil_append, List.length_nil, Nat.cast_zero, add_zero]
    exact loopReturns_exit (hturn ▸ returns_pure _)
  | done, x :: front, hfront => by
    obtain ⟨rfl, hfront'⟩ := List.forall_mem_cons.mp hfront
    have hturn : leftTurn (done ++ (space :: front ++ c :: back)) done.length =
        pure (.next ((done.length : ℤ) + 1)) := by
      rw [leftTurn, List.cons_append, get_append rfl, pure_bind, if_pos rfl]
    have ih := loopReturns_left hc back (done ++ [space]) front hfront'
    rw [List.append_assoc, cast_length_concat] at ih
    rw [List.length_cons, Nat.cast_succ, add_comm (front.length : ℤ), ← add_assoc]
    exact loopReturns_next (hturn ▸ returns_pure _) ih

theorem loopReturns_right (hc : c ≠ space) (mid back : Str) (hback : ∀ x ∈ back, x = space) (rest : Str) :
    LoopReturns (rightTurn (mid ++ c :: (back ++ rest))) ((mid.length : ℤ) + back.length)
      (mid.length : ℤ) := by
  induction back using List.reverseRecOn generalizing rest with
  | nil =>
    have hturn : rightTurn (mid ++ c :: rest) mid.length = pure (.exit (mid.length : ℤ)) := by
      rw [rightTurn, get_append rfl, pure_bind, if_neg hc]
    rw [List.nil_append, List.length_nil, Nat.cast_zero, add_zero]
    exact loopReturns_exit (hturn ▸ returns_pure _)
  | append_singleton back x ih =>
    obtain rfl := hback x (by simp)
    have hsplit : mid ++ c :: (back ++ [space] ++ rest) = (mid ++ c :: back) ++ space :: rest := by simp
    have hturn : rightTurn (mid ++ c :: (back ++ [space] ++ rest))
      ((mid.length : ℤ) + (back ++ [space]).length) =
        pure (.next ((mid.length : ℤ) + back.length)) := by
      rw [rightTurn, hsplit, get_append (by simp), pure_bind, if_pos rfl, List.length_append,
        List.length_singleton, Nat.cast_succ, ← add_assoc, add_sub_cancel_right]
    have ih := ih (fun y hy => hback y (List.mem_append_left _ hy)) (space :: rest)
    rw [List.append_cons back] at ih
    exact loopReturns_next (hturn ▸ returns_pure _) ih

/-- A character is kept unless it is a space behind a space. -/
theorem isKept_eq (char : Character) {last : Character} {lastArr : Str}
    (hlast : lastArr.getLast? = some last) :
    isKept char lastArr = pure (decide (char ≠ space ∨ last ≠ space)) := by
  obtain ⟨init, rfl⟩ := List.getLast?_eq_some_iff.mp hlast
  unfold isKept
  by_cases hchar : char = space
  · rw [if_neg (not_not.mpr hchar), get_append (by simp), pure_bind]
    simp [hchar]
  · rw [if_pos hchar]
    simp [hchar]

/-- A character is kept exactly when it stays where the spaces are run together. -/
theorem exists_isKept {part : Str} {x : Character} (hpart : part.head? ≠ some space)
    (hne : x = space → part ≠ []) : ∃ b, isKept x (squeezed space part) = pure b ∧
      squeezed space (part ++ [x]) = if b then squeezed space part ++ [x] else squeezed space part := by
  by_cases hx : x = space
  · obtain ⟨last, hlast⟩ : ∃ last, part.getLast? = some last :=
      ⟨_, List.getLast?_eq_some_getLast (hne hx)⟩
    have hkept := isKept_eq x ((getLast?_squeezed hpart).trans hlast)
    refine ⟨_, hkept, ?_⟩
    subst hx
    rw [squeezed_concat_sep, hlast]
    by_cases hspace : last = space
    · simp [hspace]
    · simp [hspace]
  · refine ⟨true, ?_, squeezed_concat_of_ne hx hpart⟩
    rw [isKept, if_pos hx]

/-- `lastArr` is the part gone through, with its spaces run together. -/
theorem loopReturns_removeSpace (front back rest : Str) : ∀ part : Str, (part ++ rest).head? = some c →
    c ≠ space → LoopReturns (removeSpaceTurn (front ++ (part ++ rest) ++ back)
        ((front.length : ℤ) + (part ++ rest).length - 1))
      ((front.length : ℤ) + part.length, squeezed space part) (squeezed space (part ++ rest)) := by
  induction rest with
  | nil =>
    intro part _ _
    rw [List.append_nil]
    refine loopReturns_exit ?_
    rw [removeSpaceTurn, if_neg (by omega)]
    exact returns_pure _
  | cons x rest ih =>
    intro part hhead hc
    have hpart : part.head? ≠ some space := by
      cases part with
      | nil => exact Option.some_ne_none space ∘ Eq.symm
      | cons y part => exact fun h => hc (Option.some.inj (hhead.symm.trans h))
    have hne : x = space → part ≠ [] := by
      rintro rfl rfl
      exact hc (Option.some.inj hhead.symm)
    obtain ⟨b, hkept, hsqueezed⟩ := exists_isKept hpart hne
    have hsplit : front ++ (part ++ x :: rest) ++ back = (front ++ part) ++ x :: (rest ++ back) := by simp
    have hturn : removeSpaceTurn (front ++ (part ++ x :: rest) ++ back)
        ((front.length : ℤ) + (part ++ x :: rest).length - 1)
        ((front.length : ℤ) + part.length, squeezed space part) =
          pure (.next ((front.length : ℤ) + part.length + 1, squeezed space (part ++ [x]))) := by
      rw [removeSpaceTurn, if_pos (by simp), hsplit, get_append (by simp), pure_bind, hkept, pure_bind,
        hsqueezed]
      cases b <;> rfl
    have ih := ih (part ++ [x])
    rw [← List.append_cons, cast_length_concat, ← add_assoc] at ih
    exact loopReturns_next (hturn ▸ returns_pure _) (ih hhead hc)

/-- The first character of a string that is not a space. -/
theorem exists_front {s : Str} (h : ∃ c ∈ s, c ≠ space) :
    ∃ front c rest, s = front ++ c :: rest ∧ (∀ x ∈ front, x = space) ∧ c ≠ space := by
  induction s with
  | nil => simp at h
  | cons x s ih =>
    by_cases hx : x = space
    · have hs : ∃ c ∈ s, c ≠ space := by simpa [hx] using h
      obtain ⟨front, c, rest, rfl, hfront, hc⟩ := ih hs
      exact ⟨x :: front, c, rest, rfl, List.forall_mem_cons.mpr ⟨hx, hfront⟩, hc⟩
    · exact ⟨[], x, s, rfl, by simp, hx⟩

/-- The string without the spaces at its ends. -/
theorem exists_core {s : Str} (h : ∃ c ∈ s, c ≠ space) :
    ∃ front core back, s = front ++ core ++ back ∧ (∀ x ∈ front, x = space) ∧ (∀ x ∈ back, x = space) ∧
      (∃ c, core.head? = some c ∧ c ≠ space) ∧ ∃ d, core.getLast? = some d ∧ d ≠ space := by
  obtain ⟨front, c, rest, rfl, hfront, hc⟩ := exists_front h
  have hsome : ∃ x ∈ (c :: rest).reverse, x ≠ space := ⟨c, by simp, hc⟩
  obtain ⟨backR, d, midR, hrev, hbackR, hd⟩ := exists_front hsome
  have hcore : c :: rest = (midR.reverse ++ [d]) ++ backR.reverse := by
    rw [← List.reverse_inj, hrev]
    simp
  have hhead : (midR.reverse ++ [d]).head? = some c := by
    have hall := congrArg List.head? hcore
    rw [List.head?_append_of_ne_nil _ (List.append_ne_nil_of_right_ne_nil _ (List.cons_ne_nil d []))] at hall
    exact hall.symm
  exact ⟨front, midR.reverse ++ [d], backR.reverse, by rw [hcore, ← List.append_assoc], hfront,
    fun x hx => hbackR x (List.mem_reverse.mp hx), ⟨c, hhead, hc⟩, d, List.getLast?_concat, hd⟩

/-- `removeSpace` joins the words by single spaces. -/
theorem returns_removeSpace {s : Str} (h : ∃ c ∈ s, c ≠ space) :
    Returns (removeSpace s) (joined (words space s) space) := by
  obtain ⟨front, core, back, rfl, hfront, hback, ⟨c, hhead, hc⟩, d, hlast, hd⟩ := exists_core h
  have hwords : joined (words space (front ++ core ++ back)) space = squeezed space core := by
    rw [words_append_of_forall hback, words_forall_append hfront, squeezed_of_getLast?_ne]
    · rfl
    · rw [hlast]
      exact fun h => hd (Option.some.inj h)
  have hmiddle := loopReturns_removeSpace front back core [] hhead hc
  obtain ⟨rest, rfl⟩ := List.head?_eq_some_iff.mp hhead
  have hleft := loopReturns_left hc (rest ++ back) [] front hfront
  obtain ⟨mid, hmid⟩ := List.getLast?_eq_some_iff.mp hlast
  have hright := loopReturns_right hd (front ++ mid) back hback []
  rw [hmid] at hwords hmiddle ⊢
  have hstop : ((front ++ (mid ++ [d]) ++ back).length : ℤ) - 1 = (front ++ mid).length + back.length := by
    simp
    omega
  have hend : ((front ++ mid).length : ℤ) = front.length + (mid ++ [d]).length - 1 := by
    simp
    omega
  rw [hwords]
  refine returns_bind (a := (front.length : ℤ)) ?_ (returns_bind (a := ((front ++ mid).length : ℤ)) ?_ ?_)
  · rw [← hmid]
    simpa using hleft.returns
  · rw [hstop]
    simpa using hright.returns
  · rw [hend]
    simpa [squeezed] using hmiddle.returns

end RemoveSpace

section ReverseString

/-- One turn swaps the two ends. -/
theorem reverseStringTurn_swap (front : Str) (x : Character) (mid : Str) (y : Character) (back : Str)
    (start stop : ℤ) (hstart : start = front.length) (hstop : stop = start + 1 + mid.length) :
    reverseStringTurn (front ++ x :: mid ++ y :: back, start, stop) =
      pure (.next (front ++ y :: mid ++ x :: back, start + 1, stop - 1)) := by
  have hright : stop = front.length + 1 + mid.length := by rw [hstop, hstart]
  rw [reverseStringTurn, if_pos (by omega)]
  simp only [get_left hstart, get_right hright, set_left hstart, set_right hright, pure_bind]

theorem returns_reverseString (front mid back : Str) {start stop : ℤ} (hstart : start = front.length)
    (hstop : stop = (front.length : ℤ) + mid.length - 1) :
    Returns (reverseString (front ++ mid ++ back) start stop) (front ++ mid.reverse ++ back) :=
  (loopReturns_turnRound (fun _ _ _ hle => if_neg (not_lt.mpr hle)) reverseStringTurn_swap mid front back
    start stop hstart
    (by rw [hstop, hstart])).returns

end ReverseString

section ReverseWord

/-- The words behind the current one, each with its space. -/
def tail (ws : List Str) : Str := ws.flatMap (space :: ·)

theorem tail_eq_nil_iff {ws : List Str} : tail ws = [] ↔ ws = [] := by
  cases ws <;> simp [tail]

theorem length_tail_map (ws : List Str) : (tail (ws.map List.reverse)).length = (tail ws).length := by
  induction ws with
  | nil => rfl
  | cons w ws ih =>
    rw [List.map_cons, tail, tail, List.flatMap_cons, List.flatMap_cons, List.length_append,
      List.length_append, List.length_cons, List.length_cons, List.length_reverse]
    exact congrArg (w.length + 1 + ·) ih

/-- Before position `i`: the words in `done` are reversed, the current word is `cur ++ rest` with `cur` gone
through, and the words `ws` follow; when they all are reversed the array is `target`. -/
structure Scanning (target : Str) (i : ℕ) (v : WordScan) (done cur rest : Str) (ws : List Str) : Prop where
  s_eq : v.s = done ++ (cur ++ rest) ++ tail ws
  index : i = done.length + cur.length
  word : cur ++ rest ≠ [] ∧ space ∉ cur ++ rest
  words : ∀ w ∈ ws, w ≠ [] ∧ space ∉ w
  entry : v.entry = true ↔ cur ≠ []
  start : cur ≠ [] → v.start = done.length
  more : rest = [] → ws ≠ []
  target_eq : target = done ++ (cur ++ rest).reverse ++ tail (ws.map List.reverse)

/-- Still in some word, or at the end. -/
def Scanned (target : Str) (i : ℕ) (v : WordScan) : Prop :=
  (v.s = target ∧ i = target.length) ∨ ∃ done cur rest ws, Scanning target i v done cur rest ws

variable {target done cur rest : Str} {i : ℕ} {v : WordScan} {ws : List Str}

theorem Scanning.lt_length (h : Scanning target i v done cur rest ws) : i < target.length := by
  rw [h.index, h.target_eq, List.length_append, List.length_append, List.length_reverse, List.length_append,
    length_tail_map]
  cases rest with
  | cons c rest =>
    rw [List.length_cons]
    omega
  | nil =>
    have htail := List.length_pos_of_ne_nil (mt tail_eq_nil_iff.mp (h.more rfl))
    omega

theorem Scanning.enter (h : Scanning target i v done cur rest ws) :
    (enter i v).s = v.s ∧ (enter i v).entry = true ∧ (enter i v).start = done.length := by
  cases hentry : v.entry with
  | false =>
    have hcur : cur = [] := by
      by_contra hne
      rw [h.entry.mpr hne] at hentry
      exact Bool.noConfusion hentry
    have hi := h.index
    rw [hcur, List.length_nil, Nat.add_zero] at hi
    simp [QY.enter, hentry, hi]
  | true => simp [QY.enter, hentry, h.start (h.entry.mp hentry)]

theorem returns_finish (front mid back : Str) {stop : ℤ} (hs : v.s = front ++ mid ++ back)
    (hstart : v.start = front.length) (hstop : stop = (front.length : ℤ) + mid.length - 1) :
    Returns (finish stop v) ⟨front ++ mid.reverse ++ back, v.start, stop, false⟩ := by
  have hrev := returns_reverseString front mid back hstart hstop
  rw [← hs] at hrev
  exact returns_bind hrev (returns_pure _)

theorem Scanning.ne_space {c : Character} (h : Scanning target i v done cur (c :: rest) ws) : c ≠ space := by
  rintro rfl
  exact h.word.2 (by simp)

theorem Scanning.get_letter {c : Character} (h : Scanning target i v done cur (c :: rest) ws) :
    get v.s i = pure c := by
  have hsplit : v.s = (done ++ cur) ++ c :: (rest ++ tail ws) := by
    rw [h.s_eq]
    simp
  rw [hsplit, get_append (by rw [h.index, List.length_append])]

/-- The character is the last one of the array exactly when nothing follows. -/
theorem Scanning.endsAt_eq {c : Character} (h : Scanning target i v done cur (c :: rest) ws) :
    endsAt i (QY.enter i v) = pure (decide (rest = [] ∧ ws = [])) := by
  obtain ⟨hs, hentry, -⟩ := h.enter
  have hlen : v.s.length = i + 1 + (rest ++ tail ws).length := by
    rw [h.s_eq, h.index]
    simp only [List.length_append, List.length_cons]
    omega
  have hlast : (i : ℤ) = v.s.length - 1 ↔ rest = [] ∧ ws = [] := by
    rw [← tail_eq_nil_iff, ← List.append_eq_nil_iff, ← List.length_eq_zero_iff]
    omega
  rw [endsAt, hs, h.get_letter]
  by_cases hend : (i : ℤ) = v.s.length - 1
  · rw [if_pos ⟨hentry, hend⟩, pure_bind, decide_eq_true h.ne_space, decide_eq_true (hlast.mp hend)]
  · rw [if_neg fun hand => hend hand.2, decide_eq_false (mt hlast.mpr hend)]

theorem Scanning.next {c : Character} (h : Scanning target i v done cur (c :: rest) ws)
    (hmore : rest = [] → ws ≠ []) : Scanning target (i + 1) (QY.enter i v) done (cur ++ [c]) rest ws := by
  obtain ⟨hs, hentry, hstart⟩ := h.enter
  exact {
    s_eq := by rw [hs, h.s_eq]; simp
    index := by rw [h.index]; simp; omega
    word := by simpa using h.word
    words := h.words
    entry := by simp [hentry]
    start := fun _ => hstart
    more := hmore
    target_eq := by rw [h.target_eq]; simp }

/-- A character of the word. -/
theorem Scanning.letter {c : Character} (h : Scanning target i v done cur (c :: rest) ws) :
    Halts (reverseWordBody v i) (Scanned target (i + 1)) := by
  obtain ⟨hs, hentry, hstart⟩ := h.enter
  have hbefore : endsBefore i (QY.enter i v) = pure false := by
    rw [endsBefore, if_pos hentry, hs, h.get_letter, pure_bind, if_neg h.ne_space]
  rw [reverseWordBody, hbefore]
  simp only [pure_bind, Bool.false_eq_true, if_false, h.endsAt_eq]
  by_cases hlast : rest = [] ∧ ws = []
  · -- the last character of the array
    rw [if_pos (decide_eq_true hlast)]
    obtain ⟨rfl, rfl⟩ := hlast
    have hstop : (i : ℤ) = done.length + (cur ++ [c]).length - 1 := by
      rw [h.index]
      simp
      omega
    refine (returns_finish done (cur ++ [c]) [] (hs.trans h.s_eq) hstart hstop).halts
      (Or.inl ⟨h.target_eq.symm, ?_⟩)
    rw [h.index, h.target_eq]
    simp [tail]
    omega
  · rw [if_neg (by simpa using hlast)]
    exact halts_pure (Or.inr ⟨done, cur ++ [c], rest, ws, h.next fun hrest hws => hlast ⟨hrest, hws⟩⟩)

/-- Behind the word comes a space, before it the last character of the word. -/
theorem Scanning.get_gap {w : Str} (h : Scanning target i v done cur [] (w :: ws)) :
    get v.s i = pure space ∧ ∃ l, get v.s ((i : ℤ) - 1) = pure l ∧ l ≠ space := by
  have hindex := h.index
  obtain ⟨init, l, rfl⟩ : ∃ init l, cur = init ++ [l] := by
    have hne := h.word.1
    rw [List.append_nil] at hne
    exact ⟨cur.dropLast, cur.getLast hne, (List.dropLast_append_getLast hne).symm⟩
  constructor
  · have hsplit : v.s = (done ++ (init ++ [l])) ++ space :: (w ++ tail ws) := by
      rw [h.s_eq]
      simp [tail]
    rw [hsplit, get_append (by rw [hindex]; simp)]
  · have hsplit : v.s = (done ++ init) ++ l :: tail (w :: ws) := by
      rw [h.s_eq]
      simp
    refine ⟨l, by rw [hsplit, get_append (by rw [hindex]; simp; omega)], ?_⟩
    rintro rfl
    exact h.word.2 (by simp)

/-- The first character behind the space. -/
theorem Scanning.next_word {w : Str} (h : Scanning target i v done cur [] (w :: ws)) (start : ℤ) :
    Scanning target (i + 1) ⟨done ++ cur.reverse ++ tail (w :: ws), start, i - 1, false⟩
      (done ++ cur.reverse ++ [space]) [] w ws :=
  have hw := h.words w List.mem_cons_self
  { s_eq := by simp [tail]
    index := by rw [h.index]; simp; omega
    word := hw
    words := fun w' hw' => h.words w' (List.mem_cons_of_mem _ hw')
    entry := by simp
    start := fun hne => absurd rfl hne
    more := fun hnil => absurd hnil hw.1
    target_eq := by rw [h.target_eq]; simp [tail] }

/-- The space behind the word. -/
theorem Scanning.gap (h : Scanning target i v done cur [] ws) :
    Halts (reverseWordBody v i) (Scanned target (i + 1)) := by
  obtain ⟨hs, hentry, hstart⟩ := h.enter
  obtain ⟨w, ws, rfl⟩ := List.exists_cons_of_ne_nil (h.more rfl)
  obtain ⟨hspace, l, hletter, hl⟩ := h.get_gap
  have hbefore : endsBefore i (QY.enter i v) = pure true := by
    rw [endsBefore, if_pos hentry, hs, hspace, pure_bind, if_pos rfl, hletter, pure_bind, decide_eq_true hl]
  have hfinish := returns_finish done cur (tail (w :: ws)) (hs.trans (h.s_eq.trans (by simp))) hstart
    (show (i : ℤ) - 1 = _ by rw [h.index]; simp)
  rw [reverseWordBody, hbefore]
  simp only [pure_bind, if_true]
  refine halts_bind (hfinish.halts ?_)
  rw [endsAt, if_neg (by simp), pure_bind, if_neg (by decide)]
  exact halts_pure (Or.inr ⟨_, _, _, _, h.next_word _⟩)

/-- `reverseWord` turns every word round. -/
theorem halts_reverseWord (hws : ∀ w ∈ ws, w ≠ [] ∧ space ∉ w) :
    Halts (reverseWord (joined ws space)) (· = joined (ws.map List.reverse) space) := by
  cases ws with
  | nil => exact ⟨_, returns_bind ⟨0, fun _ _ => rfl⟩ (returns_pure _), rfl⟩
  | cons w ws =>
    have hjoined : ∀ (w : Str) (ws : List Str), joined (w :: ws) space = w ++ tail ws := intercalate_cons
    rw [List.map_cons, hjoined, hjoined]
    have hw := hws w List.mem_cons_self
    have hstart : Scanned (w.reverse ++ tail (ws.map List.reverse)) 0 ⟨w ++ tail ws, 0, 0, false⟩ := by
      refine Or.inr ⟨[], [], w, ws, ?_⟩
      exact {
        s_eq := rfl
        index := rfl
        word := hw
        words := fun w' hw' => hws w' (List.mem_cons_of_mem _ hw')
        entry := by simp
        start := fun hne => absurd rfl hne
        more := fun hnil => absurd hnil hw.1
        target_eq := rfl }
    have hlen : (w ++ tail ws).length = (w.reverse ++ tail (ws.map List.reverse)).length := by
      rw [List.length_append, List.length_append, List.length_reverse, length_tail_map]
    refine halts_bind ((halts_forRange (Nat.zero_le _) (Scanned _) (fun i v _ hi hI => ?_) hstart).mono
      fun v hv => halts_pure ?_)
    · rcases hI with ⟨-, hi'⟩ | ⟨done, cur, rest, ws', h⟩
      · omega
      · cases rest with
        | nil => exact h.gap
        | cons c rest => exact h.letter
    · rcases hv with ⟨hv, -⟩ | ⟨done, cur, rest, ws', h⟩
      · exact hv
      · exact absurd h.lt_length (by rw [hlen]; exact lt_irrefl _)

end ReverseWord

/-- In place: single spaces, everything reversed, every word reversed again. -/
theorem returns_reverseWords {s : Str} (h : ∃ c ∈ s, c ≠ space) :
    Returns (reverseWords s) (joined (words space s).reverse space) := by
  set text := joined (words space s) space with htext
  have hwhole : Returns (reverseString text 0 ((text.length : ℤ) - 1))
      (joined ((words space s).map List.reverse).reverse space) := by
    have hrev := returns_reverseString [] text [] (show (0 : ℤ) = _ from rfl)
      (show (text.length : ℤ) - 1 = _ by simp)
    rw [List.append_nil, List.append_nil, List.nil_append, List.nil_append, htext, joined,
      reverse_intercalate] at hrev
    exact hrev
  have hback : ((words space s).map List.reverse).reverse.map List.reverse = (words space s).reverse := by
    rw [List.map_reverse, List.map_map, List.reverse_involutive.comp_self, List.map_id]
  have hword : Halts (reverseWord (joined ((words space s).map List.reverse).reverse space))
      (· = joined (words space s).reverse space) := by
    rw [← hback]
    apply halts_reverseWord
    intro w hw
    obtain ⟨v, hv, rfl⟩ := List.mem_map.mp (List.mem_reverse.mp hw)
    obtain ⟨hne, hspace⟩ := mem_words hv
    exact ⟨mt List.reverse_eq_nil_iff.mp hne, mt List.mem_reverse.mp hspace⟩
  obtain ⟨r, hr, rfl⟩ := hword
  exact returns_bind (returns_removeSpace h) (returns_bind hwhole hr)

/-! ### Without a word -/

/-- Over spaces only, the first scan leaves the string at its end. -/
theorem loopStops_left :
    ∀ (rest done : Str), (∀ x ∈ rest, x = space) → LoopStops (leftTurn (done ++ rest)) (done.length : ℤ)
  | [], done, _ => by
    refine loopStops_trap ?_
    rw [leftTurn, List.append_nil, get_of_length_le le_rfl]
    exact traps_trap.bind _
  | x :: rest, done, hrest => by
    obtain ⟨rfl, hrest'⟩ := List.forall_mem_cons.mp hrest
    have ih := loopStops_left rest (done ++ [space]) hrest'
    rw [List.append_assoc, List.singleton_append, cast_length_concat] at ih
    refine loopStops_next ?_ ih
    rw [leftTurn, get_append rfl, pure_bind, if_pos rfl]
    exact returns_pure _

theorem traps_reverseWords {s : Str} (h : ∀ x ∈ s, x = space) : Traps (reverseWords s) := by
  have hleft : Traps (loop (leftTurn s) 0) := (loopStops_left s [] h).traps
  exact (hleft.bind _).bind _

end QY

/-- The three functions join the words of the string backwards. -/
theorem reverseWords_spec (s : Str) (h : ∃ c ∈ s, c ≠ space) :
    ∃ ws, (∀ ws', Blocks space s ws' ↔ ws' = ws) ∧ Returns (QY.reverseWords s) (joined ws.reverse space) ∧
      Algorithm.reverseWords s = joined ws.reverse space ∧
      Algorithm.reverseWords1 s = joined ws.reverse space :=
  ⟨words space s, fun _ => blocks_iff, QY.returns_reverseWords h, algorithm_reverseWords s, rfl⟩

/-- `"  a bc  d "` has three words. -/
theorem reverseWords_spec_three :
    ∃ ws, (∀ ws', Blocks space
          [space, space, chr 'a', space, chr 'b', chr 'c', space, space, chr 'd', space] ws' ↔ ws' = ws) ∧
      Returns (QY.reverseWords
        [space, space, chr 'a', space, chr 'b', chr 'c', space, space, chr 'd', space])
          (joined ws.reverse space) ∧
      Algorithm.reverseWords [space, space, chr 'a', space, chr 'b', chr 'c', space, space, chr 'd', space] =
        joined ws.reverse space ∧
      Algorithm.reverseWords1 [space, space, chr 'a', space, chr 'b', chr 'c', space, space, chr 'd', space] =
        joined ws.reverse space :=
  reverseWords_spec _ ⟨chr 'a', by decide, by decide⟩

/-- In place every access is in range, and a string without a word gives the empty one, as it does in the
Algorithm app, exactly when the string has a character that is not a space. -/
theorem reverseWords_inRange_iff (s : Str) :
    ((∃ r, Returns (QY.reverseWords s) r) ∧ (words space s = [] →
      Returns (QY.reverseWords s) [] ∧ Algorithm.reverseWords s = [] ∧ Algorithm.reverseWords1 s = [])) ↔
      ∃ c ∈ s, c ≠ space := by
  constructor
  · rintro ⟨⟨r, hr⟩, -⟩
    by_contra hno
    have hspaces : ∀ x ∈ s, x = space := fun x hx => by_contra fun hne => hno ⟨x, hx, hne⟩
    exact (QY.traps_reverseWords hspaces).not_returns hr
  · intro h
    have hret := QY.returns_reverseWords h
    refine ⟨⟨_, hret⟩, ?_⟩
    intro hnone
    have hempty : joined (words space s).reverse space = [] := by
      rw [hnone]
      rfl
    exact ⟨hempty ▸ hret, (algorithm_reverseWords s).trans hempty, hempty⟩

/-- The empty string and a single space. -/
theorem reverseWords_blank : Traps (QY.reverseWords []) ∧ Traps (QY.reverseWords [space]) ∧
    Algorithm.reverseWords [] = [] ∧ Algorithm.reverseWords1 [] = [] ∧
    Algorithm.reverseWords [space] = [] ∧ Algorithm.reverseWords1 [space] = [] := by
  have hblank : ∀ s ∈ ([[], [space]] : List Str), joined (words space s).reverse space = [] := by
    decide
  refine ⟨QY.traps_reverseWords (by simp), QY.traps_reverseWords (by simp), ?_⟩
  rw [algorithm_reverseWords, algorithm_reverseWords]
  exact ⟨hblank [] (by simp), hblank [] (by simp), hblank [space] (by simp), hblank [space] (by simp)⟩

end QYInterview.ReverseWords
