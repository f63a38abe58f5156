import Mathlib.Tactic
import Mathlib.Logic.Function.Basic

/-!
# Dispatch — single inheritance and method lookup

A `Hierarchy` gives every class at most one superclass; a depth that falls along superclasses keeps the
chains finite, so a cycle cannot be built.  `line c` is `c` followed by its ancestors, and `find tab q c`
is the entry for `q` of the first class on that line that has one.  Lookup only depends on the tables
along the line (`find_congr`), and below a class it depends on that class's tables only through its own
lookup (`find_eq_of_eq_at`).  A new class under an old one (`extend`) leaves every old line as it is.
-/

namespace Dispatch

universe u v w

/-- Classes with their superclasses; the chains of superclasses end. -/
structure Hierarchy (κ : Type u) where
  known : κ → Bool
  super : κ → Option κ
  depth : κ → ℕ
  known_super : ∀ c d, super c = some d → known c = true ∧ known d = true
  depth_super : ∀ c d, super c = some d → depth d < depth c

variable {κ : Type u} {ς : Type v} {ε : Type w}

namespace Hierarchy

variable (H : Hierarchy κ)

/-- `c` and at most `n` of its ancestors, nearest first. -/
def lineN : ℕ → κ → List κ
  | 0, c => [c]
  | n + 1, c => c :: match H.super c with
    | none => []
    | some d => lineN n d

/-- `c` and its ancestors, nearest first. -/
def line (c : κ) : List κ := H.lineN (H.depth c) c

variable {H}

theorem lineN_of_top {c : κ} (h : H.super c = none) (n : ℕ) : H.lineN n c = [c] := by
  cases n with
  | zero => rfl
  | succ n => rw [lineN, h]

theorem lineN_of_super {c d : κ} (h : H.super c = some d) (n : ℕ) :
    H.lineN (n + 1) c = c :: H.lineN n d := by
  rw [lineN, h]

/-- Every bound from the depth on gives the same line. -/
theorem lineN_eq : ∀ {m n : ℕ} {c : κ}, H.depth c ≤ m → H.depth c ≤ n → H.lineN m c = H.lineN n c := by
  intro m
  induction m with
  | zero =>
    intro n c hm _
    have htop : H.super c = none := by
      cases hs : H.super c with
      | none => rfl
      | some d => have := H.depth_super c d hs; omega
    rw [lineN_of_top htop, lineN_of_top htop]
  | succ m ih =>
    intro n c hm hn
    cases hs : H.super c with
    | none => rw [lineN_of_top hs, lineN_of_top hs]
    | some d =>
      have hd := H.depth_super c d hs
      obtain ⟨k, rfl⟩ := Nat.exists_eq_add_of_le' (show 1 ≤ n by omega)
      have hrec : H.lineN m d = H.lineN k d := ih (by omega) (by omega)
      rw [lineN_of_super hs, lineN_of_super hs, hrec]

theorem line_of_top {c : κ} (h : H.super c = none) : H.line c = [c] := lineN_of_top h _

theorem line_of_super {c d : κ} (h : H.super c = some d) : H.line c = c :: H.line d := by
  have hd := H.depth_super c d h
  rw [line, lineN_eq le_rfl (show H.depth c ≤ H.depth d + (H.depth c - H.depth d - 1) + 1 by omega),
    lineN_of_super h, line, lineN_eq (show H.depth d ≤ _ by omega) le_rfl]

/-- Induction along superclasses. -/
theorem super_induction {P : κ → Prop} (htop : ∀ c, H.super c = none → P c)
    (hsuper : ∀ c d, H.super c = some d → P d → P c) : ∀ c, P c := by
  have key : ∀ n c, H.depth c < n → P c := by
    intro n
    induction n with
    | zero => intro c hc; omega
    | succ n ih =>
      intro c hc
      cases hs : H.super c with
      | none => exact htop c hs
      | some d => exact hsuper c d hs (ih d (by have := H.depth_super c d hs; omega))
  exact fun c => key (H.depth c + 1) c (Nat.lt_succ_self _)

theorem line_eq_cons (c : κ) : ∃ l, H.line c = c :: l := by
  cases hs : H.super c with
  | none => exact ⟨[], line_of_top hs⟩
  | some d => exact ⟨_, line_of_super hs⟩

/-- The line of a class passes through each of its ancestors once and then goes on as that one's. -/
theorem line_through {a c : κ} (h : a ∈ H.line c) : ∃ l, a ∉ l ∧ H.line c = l ++ H.line a := by
  induction c using H.super_induction with
  | htop c hs =>
    rw [line_of_top hs] at h
    obtain rfl := List.mem_singleton.mp h
    exact ⟨[], List.not_mem_nil, rfl⟩
  | hsuper c d hs ih =>
    by_cases hac : a = c
    · subst hac
      exact ⟨[], List.not_mem_nil, rfl⟩
    · rw [line_of_super hs] at h ⊢
      obtain ⟨l, hal, hl⟩ := ih ((List.mem_cons.mp h).resolve_left hac)
      exact ⟨c :: l, by simp [hac, hal], by rw [hl, List.cons_append]⟩

/-- The ancestors of a known class are known. -/
theorem known_of_mem_line {a c : κ} (hc : H.known c = true) (h : a ∈ H.line c) : H.known a = true := by
  induction c using H.super_induction with
  | htop c hs =>
    rw [line_of_top hs] at h
    rw [List.mem_singleton.mp h, hc]
  | hsuper c d hs ih =>
    rw [line_of_super hs] at h
    rcases List.mem_cons.mp h with rfl | h
    · exact hc
    · exact ih (H.known_super c d hs).2 h

/-- Two hierarchies with the same superclasses of the classes known to one have the same lines there. -/
theorem line_congr {H' : Hierarchy κ} (h : ∀ c, H.known c = true → H'.super c = H.super c) {c : κ}
    (hc : H.known c = true) : H'.line c = H.line c := by
  induction c using H.super_induction with
  | htop c hs => rw [line_of_top hs, line_of_top ((h c hc).trans hs)]
  | hsuper c d hs ih =>
    rw [line_of_super hs, line_of_super ((h c hc).trans hs), ih (H.known_super c d hs).2]

end Hierarchy

/-! ## Lookup -/

section Find

variable {H : Hierarchy κ} {tab tab' : κ → ς → Option ε} {q : ς} {c a : κ}

/-- The entry for `q` of the first class on the line of `c` that has one. -/
def find (H : Hierarchy κ) (tab : κ → ς → Option ε) (q : ς) (c : κ) : Option ε :=
  (H.line c).findSome? fun d => tab d q

/-- The first class on the line of `c` that has an entry for `q`. -/
def owner (H : Hierarchy κ) (tab : κ → ς → Option ε) (q : ς) (c : κ) : Option κ :=
  (H.line c).find? fun d => (tab d q).isSome

theorem find_of_super {d : κ} (h : H.super c = some d) :
    find H tab q c = (tab c q).or (find H tab q d) := by
  rw [find, Hierarchy.line_of_super h, List.findSome?_cons]
  cases tab c q <;> rfl

theorem find_of_own {e : ε} (h : tab c q = some e) : find H tab q c = some e := by
  obtain ⟨l, hl⟩ := H.line_eq_cons c
  rw [find, hl, List.findSome?_cons, h]

/-- The lookup is the entry of the class that owns it. -/
theorem owner_bind : (owner H tab q c).bind (fun d => tab d q) = find H tab q c := by
  unfold owner find
  induction H.line c with
  | nil => rfl
  | cons d l ih =>
    rw [List.find?_cons, List.findSome?_cons]
    cases hd : tab d q with
    | none => simpa using ih
    | some e => simp [hd]

theorem owner_of_own (h : (tab c q).isSome) : owner H tab q c = some c := by
  obtain ⟨l, hl⟩ := H.line_eq_cons c
  rw [owner, hl, List.find?_cons, h]

theorem mem_line_of_owner {d : κ} (h : owner H tab q c = some d) : d ∈ H.line c :=
  List.mem_of_find?_eq_some h

theorem exists_owner {e : ε} (h : find H tab q c = some e) :
    ∃ d, owner H tab q c = some d ∧ tab d q = some e := by
  rw [← owner_bind] at h
  exact Option.bind_eq_some_iff.mp h

theorem owner_eq_none (h : find H tab q c = none) : owner H tab q c = none := by
  cases ho : owner H tab q c with
  | none => rfl
  | some d =>
    have hd := List.find?_some ho
    rw [← owner_bind, ho, Option.bind_some] at h
    rw [h] at hd
    cases hd

/-- Tables with entries at the same places have the same owners. -/
theorem owner_congr (h : ∀ d ∈ H.line c, (tab' d q).isSome = (tab d q).isSome) :
    owner H tab' q c = owner H tab q c := by
  unfold owner
  generalize H.line c = L at h
  induction L with
  | nil => rfl
  | cons d l ih =>
    rw [List.find?_cons, List.find?_cons, h d List.mem_cons_self,
      ih fun d' hd' => h d' (List.mem_cons_of_mem _ hd')]

/-- Lookup only depends on the tables along the line. -/
theorem find_congr (h : ∀ d ∈ H.line c, tab' d q = tab d q) : find H tab' q c = find H tab q c := by
  unfold find
  generalize H.line c = L at h
  induction L with
  | nil => rfl
  | cons d l ih =>
    rw [List.findSome?_cons, List.findSome?_cons, h d List.mem_cons_self,
      ih fun d' hd' => h d' (List.mem_cons_of_mem _ hd')]

/-- Tables that agree away from `a`, and on what is found at `a`, agree on everything. -/
theorem find_eq_of_eq_at (hout : ∀ d, d ≠ a → tab' d q = tab d q)
    (hat : find H tab' q a = find H tab q a) (c : κ) : find H tab' q c = find H tab q c := by
  by_cases ha : a ∈ H.line c
  · obtain ⟨l, hal, hl⟩ := Hierarchy.line_through ha
    have hfront : (l.findSome? fun d => tab' d q) = l.findSome? fun d => tab d q := by
      clear hl
      induction l with
      | nil => rfl
      | cons d l ih =>
        rw [List.mem_cons, not_or] at hal
        rw [List.findSome?_cons, List.findSome?_cons, hout d (Ne.symm hal.1), ih hal.2]
    unfold find at hat ⊢
    rw [hl, List.findSome?_append, List.findSome?_append, hfront, hat]
  · exact find_congr fun d hd => hout d fun h => ha (h ▸ hd)

end Find

/-! ## A new class -/

section Extend

variable [DecidableEq κ]

/-- The hierarchy with the new class `k` directly under `c`. -/
def Hierarchy.extend (H : Hierarchy κ) (k c : κ) (hk : H.known k = false) (hc : H.known c = true) :
    Hierarchy κ where
  known := Function.update H.known k true
  super := Function.update H.super k (some c)
  depth := Function.update H.depth k (H.depth c + 1)
  known_super := by
    intro a d h
    by_cases ha : a = k
    · subst ha
      rw [Function.update_self] at h ⊢
      obtain rfl := Option.some.inj h
      refine ⟨rfl, ?_⟩
      rw [Function.update_of_ne (by rintro rfl; rw [hk] at hc; cases hc), hc]
    · rw [Function.update_of_ne ha] at h ⊢
      obtain ⟨h1, h2⟩ := H.known_super a d h
      refine ⟨h1, ?_⟩
      rw [Function.update_of_ne (by rintro rfl; rw [hk] at h2; cases h2), h2]
  depth_super := by
    intro a d h
    by_cases ha : a = k
    · subst ha
      rw [Function.update_self] at h ⊢
      obtain rfl := Option.some.inj h
      rw [Function.update_of_ne (by rintro rfl; rw [hk] at hc; cases hc)]
      exact Nat.lt_succ_self _
    · rw [Function.update_of_ne ha] at h ⊢
      have h2 := (H.known_super a d h).2
      rw [Function.update_of_ne (by rintro rfl; rw [hk] at h2; cases h2)]
      exact H.depth_super a d h

variable {H : Hierarchy κ} {k c : κ} (hk : H.known k = false) (hc : H.known c = true)

theorem extend_super_self : (H.extend k c hk hc).super k = some c := Function.update_self _ _ _

theorem extend_super_of_ne {a : κ} (ha : a ≠ k) : (H.extend k c hk hc).super a = H.super a :=
  Function.update_of_ne ha _ _

theorem extend_known_self : (H.extend k c hk hc).known k = true := Function.update_self _ _ _

theorem extend_known_of_ne {a : κ} (ha : a ≠ k) : (H.extend k c hk hc).known a = H.known a :=
  Function.update_of_ne ha _ _

end Extend

end Dispatch
