import QYInterview.Graphemes
import QYInterview.Lib.RunLength

/-!
# Compress — runs of a character and their lengths

`String/CompressController.swift`.  Both functions write every run as the character and its length in
decimal and keep the result when it is shorter.  `new` is the list of the characters appended; how many
characters the finished string has is a matter of its `Graphemes`, as a character may come together with
the count behind it.  `expand` reads such a text back; for strings without decimal digits it undoes the
compression (`expand_written`), and where the text consists of letters and digits the characters of the
string are those appended.  A counter only goes up from 0 or 1, so it is a natural number.
-/

namespace QYInterview.Compress

open RunLogic Swift RunLength

/-- `"\(n)"` -/
def description (n : ℕ) : Str := (Nat.toDigits 10 n).map chr

/-- `"\(last)\(lastNum)"` -/
def group (last : Character) (lastNum : ℕ) : Str := last :: description lastNum

/-! ## The code -/

/-- `for i in 1..<array.count`, over `last`, `lastNum` and `new`. -/
def compressStringBody (array : Str) : Character × ℕ × Str → ℤ → Prog (Character × ℕ × Str)
  | (last, lastNum, new), i => do
    if (← get array i) = last then return (last, lastNum + 1, new)
    else return (← get array i, 1, new ++ group last lastNum)

def compressString (G : Graphemes) (string : Str) : Prog Str :=
  if string.length < 1 then return string
  else do
    let last ← get string 0
    let (last, lastNum, new) ← forRange 1 string.length (compressStringBody string) (last, 1, [])
    let new := if lastNum ≠ 0 then new ++ group last lastNum else new
    return if (G.string new).length < string.length then G.string new else string

/-- `for sub in string`, over `last`, `lastNum` and `new`. -/
def compressString1Body : Option Character × ℕ × Str → Character → Prog (Option Character × ℕ × Str)
  | (none, _, new), sub => return (some sub, 1, new)
  | (some last, lastNum, new), sub =>
    if last = sub then return (some last, lastNum + 1, new)
    else return (some sub, 1, new ++ group last lastNum)

/-- `last!` -/
def force (last : Option Character) : Prog Character :=
  match last with
  | some last => pure last
  | none => trap

def compressString1 (G : Graphemes) (string : Str) : Prog Str :=
  if string.length < 1 then return string
  else do
    let (last, lastNum, new) ← forEach string compressString1Body (none, 0, [])
    let new ← if lastNum ≠ 0 then (fun last => new ++ group last lastNum) <$> force last else pure new
    return if (G.string new).length < string.length then G.string new else string

/-! ## What they write -/

/-- Every run with its length. -/
def written (ps : List (Character × ℕ)) : Str := ps.flatMap fun p => group p.1 p.2

/-- The shorter one of the string and its runs. -/
def compressed (G : Graphemes) (string : Str) : Str :=
  if (G.string (written (runs string))).length < string.length then
    G.string (written (runs string)) else string

theorem written_cons (p : Character × ℕ) (ps : List (Character × ℕ)) :
    written (p :: ps) = group p.1 p.2 ++ written ps := rfl

/-- The variables after a part of the string, with `rest` still to come. -/
def Counted (string : Str) (last : Character) (lastNum : ℕ) (new rest : Str) : Prop :=
  1 ≤ lastNum ∧ new ++ written (runsFrom last lastNum rest) = written (runs string)

section Loops

variable {string new rest : Str} {last sub : Character} {lastNum : ℕ}

theorem Counted.same (h : Counted string last lastNum new (last :: rest)) :
    Counted string last (lastNum + 1) new rest := by
  obtain ⟨hpos, heq⟩ := h
  rw [runsFrom_cons_self] at heq
  exact ⟨hpos.trans (Nat.le_succ _), heq⟩

theorem Counted.other (h : Counted string last lastNum new (sub :: rest)) (hne : sub ≠ last) :
    Counted string sub 1 (new ++ group last lastNum) rest := by
  obtain ⟨-, heq⟩ := h
  rw [runsFrom_cons_of_ne hne, written_cons] at heq
  exact ⟨le_rfl, by rw [List.append_assoc]; exact heq⟩

/-- The last run is appended behind the loop. -/
theorem Counted.flush (h : Counted string last lastNum new []) :
    lastNum ≠ 0 ∧ new ++ group last lastNum = written (runs string) := by
  obtain ⟨hpos, heq⟩ := h
  refine ⟨Nat.one_le_iff_ne_zero.mp hpos, heq ▸ ?_⟩
  rw [runsFrom, written_cons, written, List.flatMap_nil, List.append_nil]

theorem halts_compressStringBody {v : Character × ℕ × Str} {i : ℕ} (hi : i < string.length)
    (h : Counted string v.1 v.2.1 v.2.2 (string.drop i)) :
    Halts (compressStringBody string v i) fun v => Counted string v.1 v.2.1 v.2.2 (string.drop (i + 1)) := by
  obtain ⟨last, lastNum, new⟩ := v
  rw [List.drop_eq_getElem_cons hi] at h
  dsimp only at h
  rw [compressStringBody, get_eq (List.getElem?_eq_getElem hi), pure_bind]
  by_cases hsame : string[i] = last
  · rw [if_pos hsame]
    rw [hsame] at h
    exact halts_pure h.same
  · rw [if_neg hsame]
    exact halts_pure (h.other hsame)

theorem returns_compressString (G : Graphemes) (string : Str) :
    Returns (compressString G string) (compressed G string) := by
  by_cases hlen : string.length < 1
  · obtain rfl : string = [] := List.length_eq_zero_iff.mp (by omega)
    exact returns_pure _
  · rw [compressString, if_neg hlen]
    obtain ⟨c, s, hstring⟩ := List.exists_cons_of_ne_nil (List.ne_nil_of_length_pos (not_lt.mp hlen))
    have hget : get string 0 = pure c := by
      rw [hstring]
      exact get_eq rfl
    have hstart : Counted string c 1 [] (string.drop 1) := by
      rw [hstring]
      exact ⟨le_rfl, rfl⟩
    obtain ⟨⟨last, lastNum, new⟩, hloop, hcount⟩ : Halts
        (forRange 1 string.length (compressStringBody string) (c, 1, []))
        (fun v : Character × ℕ × Str => Counted string v.1 v.2.1 v.2.2 (string.drop string.length)) :=
      halts_forRange (not_lt.mp hlen)
        (fun i (v : Character × ℕ × Str) => Counted string v.1 v.2.1 v.2.2 (string.drop i))
        (fun _ _ _ hhi hI => halts_compressStringBody hhi hI) hstart
    rw [List.drop_length] at hcount
    obtain ⟨hpos, hwritten⟩ := hcount.flush
    rw [hget, pure_bind]
    refine returns_bind hloop ?_
    dsimp only
    rw [if_pos hpos, hwritten]
    exact returns_pure _

/-- The variables of `compressString1`, with `rest` still to come. -/
def Counted1 (string : Str) (v : Option Character × ℕ × Str) (rest : Str) : Prop :=
  (v = (none, 0, []) ∧ rest = string) ∨
    ∃ last lastNum new, v = (some last, lastNum, new) ∧ Counted string last lastNum new rest

theorem halts_compressString1Body {v : Option Character × ℕ × Str} (h : Counted1 string v (sub :: rest)) :
    Halts (compressString1Body v sub) (Counted1 string · rest) := by
  rcases h with ⟨rfl, rfl⟩ | ⟨last, lastNum, new, rfl, hcount⟩
  · exact halts_pure (Or.inr ⟨sub, 1, [], rfl, le_rfl, rfl⟩)
  · rw [compressString1Body]
    by_cases hsame : last = sub
    · subst hsame
      rw [if_pos rfl]
      exact halts_pure (Or.inr ⟨last, lastNum + 1, new, rfl, hcount.same⟩)
    · rw [if_neg hsame]
      exact halts_pure (Or.inr ⟨sub, 1, _, rfl, hcount.other (Ne.symm hsame)⟩)

theorem returns_compressString1 (G : Graphemes) (string : Str) :
    Returns (compressString1 G string) (compressed G string) := by
  by_cases hlen : string.length < 1
  · obtain rfl : string = [] := List.length_eq_zero_iff.mp (by omega)
    exact returns_pure _
  · rw [compressString1, if_neg hlen]
    obtain ⟨v, hloop, rest, hrest, hcount⟩ : Halts (forEach string compressString1Body (none, 0, []))
        (fun v => ∃ rest, string = string ++ rest ∧ Counted1 string v rest) := by
      refine halts_forEach (fun pre v => ∃ rest, string = pre ++ rest ∧ Counted1 string v rest)
        (fun pre sub post v heq hI => ?_) ⟨string, rfl, Or.inl ⟨rfl, rfl⟩⟩
      obtain ⟨rest, hrest, hcount⟩ := hI
      obtain rfl : rest = sub :: post := List.append_cancel_left (hrest.symm.trans heq)
      exact (halts_compressString1Body hcount).mono fun v' hv' => ⟨post, by rw [heq]; simp, hv'⟩
    obtain rfl : rest = [] := List.self_eq_append_right.mp hrest
    rcases hcount with ⟨-, hnil⟩ | ⟨last, lastNum, new, rfl, hcount⟩
    · rw [← hnil] at hlen
      exact absurd Nat.zero_lt_one hlen
    · obtain ⟨hpos, hwritten⟩ := hcount.flush
      refine returns_bind hloop ?_
      dsimp only
      rw [if_pos hpos, force, map_pure, pure_bind, hwritten]
      exact returns_pure _

end Loops

/-! ## Reading the text back -/

/-- The value of a decimal digit. -/
def digit? (c : Character) : Option ℕ :=
  match c.scalars with
  | [a] => if a.isDigit then some (a.toNat - '0'.toNat) else none
  | _ => none

/-- No character is a decimal digit. -/
def NoDigits (s : Str) : Prop := ∀ c ∈ s, digit? c = none

/-- The text behind a character and the number `n` read so far. -/
def expandFrom : Character → ℕ → Str → Str
  | c, n, [] => List.replicate n c
  | c, n, x :: s =>
    match digit? x with
    | some d => expandFrom c (10 * n + d) s
    | none => List.replicate n c ++ expandFrom x 0 s

/-- Groups of a character and a decimal count, each expanded. -/
def expand : Str → Str
  | [] => []
  | c :: s => expandFrom c 0 s

theorem digit?_chr {a : Char} (ha : a.isDigit) : digit? (chr a) = some (a.toNat - '0'.toNat) := if_pos ha

theorem isDigit_of_mem_description {n : ℕ} {c : Character} (h : c ∈ description n) : digit? c ≠ none := by
  obtain ⟨a, ha, rfl⟩ := List.mem_map.mp h
  rw [digit?_chr (Nat.isDigit_of_mem_toDigits (by decide) (by decide) ha)]
  exact Option.some_ne_none _

theorem expandFrom_digits (c : Character) (l : List Char) (hl : ∀ a ∈ l, a.isDigit) (n : ℕ) (s : Str) :
    expandFrom c n (l.map chr ++ s) = expandFrom c (Nat.ofDigitChars 10 l n) s := by
  induction l generalizing n with
  | nil => rfl
  | cons a l ih =>
    obtain ⟨ha, hl⟩ := List.forall_mem_cons.mp hl
    rw [Nat.ofDigitChars_cons, ← ih hl, List.map_cons, List.cons_append, expandFrom, digit?_chr ha]

/-- A count read to its end. -/
theorem expandFrom_description (c : Character) (n : ℕ) (s : Str) :
    expandFrom c 0 (description n ++ s) = expandFrom c n s := by
  rw [description, expandFrom_digits c _ fun a ha => Nat.isDigit_of_mem_toDigits (by decide) (by decide) ha,
    Nat.ofDigitChars_ten_toDigits]

/-- Reading back gives the runs. -/
theorem expand_written (ps : List (Character × ℕ)) (hps : ∀ p ∈ ps, digit? p.1 = none) :
    expand (written ps) = expanded ps := by
  induction ps with
  | nil => rfl
  | cons p ps ih =>
    obtain ⟨-, hps⟩ := List.forall_mem_cons.mp hps
    have hgroup : expand (written (p :: ps)) = expandFrom p.1 p.2 (written ps) :=
      expandFrom_description p.1 p.2 (written ps)
    rw [hgroup, expanded_cons, ← ih hps]
    cases ps with
    | nil => rw [written, List.flatMap_nil, expandFrom, expand, List.append_nil]
    | cons q ps =>
      have hq : digit? q.1 = none := hps q List.mem_cons_self
      rw [written_cons, group, List.cons_append, expandFrom, hq, expand]

theorem expand_written_runs {s : Str} (h : NoDigits s) : expand (written (runs s)) = s := by
  rw [expand_written _ fun p hp => h _ (mem_runs hp), expanded_runs]

theorem digit?_of_isLetter {c : Character} (h : IsLetter c) : digit? c = none := by
  obtain ⟨a, ha, rfl⟩ := h
  refine if_neg fun hdigit => ?_
  have hle : '0'.toNat ≤ a.toNat ∧ a.toNat ≤ '9'.toNat := Char.isDigit_iff_toNat.mp hdigit
  have hge : 'A'.toNat ≤ a.toNat := by
    rcases (Bool.or_eq_true _ _).mp ha with hupper | hlower
    · exact (of_decide_eq_true hupper).1
    · have hlower : 'a'.toNat ≤ a.toNat := of_decide_eq_true ((Bool.and_eq_true _ _).mp hlower).1
      exact le_trans (by decide) hlower
  exact absurd (hge.trans hle.2) (by decide)

theorem noDigits_of_letters {s : Str} (h : ∀ c ∈ s, IsLetter c) : NoDigits s :=
  fun c hc => digit?_of_isLetter (h c hc)

/-- The runs of letters are written in letters and digits. -/
theorem alphanumeric_written {s : Str} (h : ∀ c ∈ s, IsLetter c) :
    ∀ c ∈ written (runs s), IsLetter c ∨ IsDigit c := by
  intro c hc
  obtain ⟨p, hp, hc⟩ := List.mem_flatMap.mp hc
  rcases List.mem_cons.mp hc with rfl | hc
  · exact Or.inl (h _ (mem_runs hp))
  · obtain ⟨a, ha, rfl⟩ := List.mem_map.mp hc
    exact Or.inr ⟨a, Nat.isDigit_of_mem_toDigits (by decide) (by decide) ha, rfl⟩

section Letters

variable {G : Graphemes} {s t : Str}

/-- The string back from the result: its groups expanded when there is a digit. -/
theorem read_compressed (hG : G.Alphanumeric) (h : ∀ c ∈ s, IsLetter c) :
    (¬ NoDigits (compressed G s) → expand (compressed G s) = s) ∧
      (NoDigits (compressed G s) → compressed G s = s) := by
  have hno := noDigits_of_letters h
  unfold compressed
  rw [hG _ (alphanumeric_written h)]
  split_ifs with hlen
  · refine ⟨fun _ => expand_written_runs hno, ?_⟩
    intro hresult
    cases s with
    | nil => exact absurd hlen (Nat.not_lt_zero _)
    | cons c s =>
      -- the first run is written with a count
      obtain ⟨p, ps, hps⟩ := List.exists_cons_of_ne_nil (runsFrom_ne_nil c 1 s)
      obtain ⟨x, hx⟩ := List.exists_mem_of_ne_nil (description p.2)
        (by simp [description, Nat.toDigits_ne_nil])
      refine absurd (hresult x ?_) (isDigit_of_mem_description hx)
      rw [runs, hps, written_cons, group]
      simp [hx]
  · exact ⟨fun hresult => absurd hno hresult, fun _ => rfl⟩

theorem compressed_injective (hG : G.Alphanumeric) (hs : ∀ c ∈ s, IsLetter c) (ht : ∀ c ∈ t, IsLetter c)
    (heq : compressed G t = compressed G s) : t = s := by
  have hreads := read_compressed hG hs
  have hreadt := read_compressed hG ht
  rw [heq] at hreadt
  by_cases hno : NoDigits (compressed G s)
  · rw [← hreadt.2 hno, hreads.2 hno]
  · rw [← hreadt.1 hno, hreads.1 hno]

end Letters

/-- Both functions return the same string, which is not longer, and from which a string of letters can be
read back: by expanding its groups when it has a digit, and as it is otherwise. -/
theorem compressString_spec (G : Graphemes) (s : Str) :
    ∃ r, Returns (compressString G s) r ∧ Returns (compressString1 G s) r ∧ r.length ≤ s.length ∧
      (G.Alphanumeric → (∀ c ∈ s, IsLetter c) → (¬ NoDigits r → expand r = s) ∧ (NoDigits r → r = s) ∧
        ∀ t, (∀ c ∈ t, IsLetter c) → Returns (compressString G t) r → t = s) := by
  refine ⟨compressed G s, returns_compressString G s, returns_compressString1 G s, ?_, fun hG hs => ?_⟩
  · unfold compressed
    split_ifs with hlen
    · exact hlen.le
    · exact le_rfl
  · obtain ⟨hexpand, hsame⟩ := read_compressed hG hs
    refine ⟨hexpand, hsame, ?_⟩
    intro t ht hret
    exact compressed_injective hG hs ht ((returns_compressString G t).unique hret)

/-- Eleven times `a` and then `b`: a count of two digits. -/
theorem compressString_spec_eleven : ∃ r,
    Returns (compressString ascii (List.replicate 11 (chr 'a') ++ [chr 'b'])) r ∧
      r = [chr 'a', chr '1', chr '1', chr 'b', chr '1'] ∧
      expand r = List.replicate 11 (chr 'a') ++ [chr 'b'] := by
  obtain ⟨r, hret, -, -, hread⟩ := compressString_spec ascii (List.replicate 11 (chr 'a') ++ [chr 'b'])
  have hr : r = [chr 'a', chr '1', chr '1', chr 'b', chr '1'] :=
    hret.unique (returns_compressString ascii _)
  refine ⟨r, hret, hr, (hread alphanumeric_ascii ?_).1 ?_⟩
  · intro c hc
    rcases List.mem_append.mp hc with hc | hc
    · exact ⟨'a', rfl, List.eq_of_mem_replicate hc⟩
    · exact ⟨'b', rfl, List.mem_singleton.mp hc⟩
  · rw [hr]
    intro hno
    exact absurd (hno (chr '1') (by simp)) (by decide)

end QYInterview.Compress
