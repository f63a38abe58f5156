import QYInterview.Swift

/-!
# Graphemes — the string of an array of characters

`String(chars)` joins the texts of the characters, and the string is divided into characters anew:
neighbours of the array may come together, as a carriage return and a line feed do.  How it is divided is a
matter of the Unicode tables; a `Graphemes` says which characters the string has.  `ascii` is the division
of text whose scalars are all ASCII.
-/

namespace QYInterview.Swift

/-- A character that is a single letter of the English alphabet. -/
def IsLetter (c : Character) : Prop := ∃ a : Char, a.isAlpha = true ∧ c = chr a

/-- A character that is a single decimal digit. -/
def IsDigit (c : Character) : Prop := ∃ a : Char, a.isDigit = true ∧ c = chr a

/-- One letter for another, or the same character. -/
def SameClass (c c' : Character) : Prop := c = c' ∨ IsLetter c ∧ IsLetter c'

/-- The characters of `String(chars)`.  The characters of a string make the same string, and since all
letters are of one break class, letters in place of letters leave the division as it is. -/
structure Graphemes where
  string : Str → Str
  string_string : ∀ chars, string (string chars) = string chars
  letters : ∀ chars chars', List.Forall₂ SameClass chars chars' → string chars = chars →
    string chars' = chars'

/-- Letters and digits stay apart: Unicode has a break between any two of them. -/
def Graphemes.Alphanumeric (G : Graphemes) : Prop :=
  ∀ chars, (∀ c ∈ chars, IsLetter c ∨ IsDigit c) → G.string chars = chars

/-! ## ASCII text -/

namespace Ascii

def cr : Character := chr '\r'
def lf : Character := chr '\n'

/-- A carriage return with the line feed behind it. -/
def crlf : Character := ⟨['\r', '\n'], List.cons_ne_nil _ _⟩

/-- Only a carriage return and a line feed come together. -/
def string : Str → Str
  | [] => []
  | [c] => [c]
  | c :: d :: chars => if c = cr ∧ d = lf then crlf :: string chars else c :: string (d :: chars)

/-- No carriage return has a line feed behind it. -/
abbrev Apart (chars : Str) : Prop := chars.IsChain fun c d => ¬ (c = cr ∧ d = lf)

theorem string_of_apart : ∀ {chars : Str}, Apart chars → string chars = chars
  | [], _ => rfl
  | [_], _ => rfl
  | c :: d :: chars, h => by
    obtain ⟨hcd, h⟩ := List.isChain_cons_cons.mp h
    rw [string, if_neg hcd, string_of_apart h]

/-- The string begins as the array does. -/
theorem head_string (c : Character) (chars : Str) :
    ∃ d rest, string (c :: chars) = d :: rest ∧ (d = c ∨ d = crlf) := by
  cases chars with
  | nil => exact ⟨c, [], rfl, Or.inl rfl⟩
  | cons d chars =>
    rw [string]
    split_ifs
    · exact ⟨crlf, string chars, rfl, Or.inr rfl⟩
    · exact ⟨c, string (d :: chars), rfl, Or.inl rfl⟩

theorem apart_cons {c : Character} {chars : Str} (hc : c ≠ cr) (h : Apart chars) : Apart (c :: chars) := by
  cases chars with
  | nil => exact List.isChain_singleton c
  | cons d chars => exact List.isChain_cons_cons.mpr ⟨fun hcd => hc hcd.1, h⟩

theorem apart_string : ∀ chars : Str, Apart (string chars)
  | [] => List.isChain_nil
  | [c] => List.isChain_singleton c
  | c :: d :: chars => by
    rw [string]
    split_ifs with h
    · exact apart_cons (by decide) (apart_string chars)
    · obtain ⟨e, rest, heq, he⟩ := head_string d chars
      have ih := apart_string (d :: chars)
      rw [heq] at ih ⊢
      refine List.isChain_cons_cons.mpr ⟨?_, ih⟩
      intro hce
      rcases he with rfl | rfl
      · exact h hce
      · exact absurd hce.2 (by decide)

theorem apart_iff {chars : Str} : string chars = chars ↔ Apart chars :=
  ⟨fun h => h ▸ apart_string chars, string_of_apart⟩

/-- A letter is neither. -/
theorem eq_iff_of_sameClass {c c' d : Character} (h : SameClass c c') (hd : ¬ IsLetter d) :
    c = d ↔ c' = d := by
  rcases h with rfl | ⟨hc, hc'⟩
  · rfl
  · exact iff_of_false (fun heq => hd (heq ▸ hc)) fun heq => hd (heq ▸ hc')

theorem not_isLetter_chr {a : Char} (h : a.isAlpha = false) : ¬ IsLetter (chr a) := by
  rintro ⟨b, hb, heq⟩
  have hab : a = b := (List.cons.inj (congrArg Character.scalars heq)).1
  rw [← hab, h] at hb
  cases hb

theorem apart_of_sameClass {chars chars' : Str} (hall : List.Forall₂ SameClass chars chars')
    (h : Apart chars) :
    Apart chars' := by
  induction hall with
  | nil => exact List.isChain_nil
  | @cons c c' chars chars' hc hall ih =>
    cases hall with
    | nil => exact List.isChain_singleton c'
    | @cons d d' chars chars' hd hall =>
      obtain ⟨hcd, h⟩ := List.isChain_cons_cons.mp h
      refine List.isChain_cons_cons.mpr ⟨fun heq => hcd ⟨?_, ?_⟩, ih h⟩
      · exact (eq_iff_of_sameClass hc (not_isLetter_chr rfl)).mpr heq.1
      · exact (eq_iff_of_sameClass hd (not_isLetter_chr rfl)).mpr heq.2

end Ascii

/-- The division of ASCII text. -/
def ascii : Graphemes where
  string := Ascii.string
  string_string chars := Ascii.string_of_apart (Ascii.apart_string chars)
  letters _ _ hall h := Ascii.apart_iff.mpr (Ascii.apart_of_sameClass hall (Ascii.apart_iff.mp h))

theorem alphanumeric_ascii : ascii.Alphanumeric := by
  intro chars h
  refine Ascii.string_of_apart ?_
  have hcr : ∀ c ∈ chars, c ≠ Ascii.cr := by
    rintro c hc rfl
    rcases h _ hc with ⟨a, ha, heq⟩ | ⟨a, ha, heq⟩
    · exact Ascii.not_isLetter_chr rfl ⟨a, ha, heq⟩
    · have hret : '\r' = a := (List.cons.inj (congrArg Character.scalars heq)).1
      rw [← hret] at ha
      cases ha
  induction chars with
  | nil => exact List.isChain_nil
  | cons c chars ih =>
    obtain ⟨hc, hchars⟩ := List.forall_mem_cons.mp hcr
    exact Ascii.apart_cons hc (ih (List.forall_mem_cons.mp h).2 hchars)

end QYInterview.Swift
