import Mathlib.Algebra.BigOperators.Group.List.Basic
import QYInterview.ObjC.Associations

/-!
# ObjC.AssociationTable — policies, and what the table holds

A documented policy releases what it retained and autoreleases what a get retained.  Under the lock a
reference neither comes nor goes: what a call brings, or takes out, makes the difference
(`tableHeld_establish`, `tableHeld_eraseKey`, `tableHeld_takeRefs`).  The table of tables is one map of
objects and keys (`associated`), which each operation changes at one object (`effect`).
-/

namespace QYInterview.ObjC.Associations

/-! ## What the entries of an association list weigh together

Whatever an operation does at one key, it is enough to know the entry there before and after it: `weight_eq`
takes that entry out, `weight_insert` puts one in. -/

section Weights

universe u v w

variable {α : Type u} {β : α → Type v} {M : Type w} [DecidableEq α] [AddCommMonoid M] {f : ∀ a, β a → M}
    {m : AList β}
  {a : α} {b : β a}

def weight (f : ∀ a, β a → M) (m : AList β) : M := (m.entries.map fun e => f e.1 e.2).sum

omit [DecidableEq α] in
@[simp] theorem weight_empty : weight f ∅ = 0 := rfl

theorem erase_of_none (h : m.lookup a = none) : m.erase a = m := by
  ext1
  exact List.kerase_of_notMem_keys (AList.lookup_eq_none.mp h)

theorem weight_of_some (h : m.lookup a = some b) : weight f m = f a b + weight f (m.erase a) := by
  have hmem : a ∈ m.entries.keys := AList.lookup_isSome.mp (by rw [h]; rfl)
  obtain ⟨b', front, back, -, hsplit, herase⟩ := List.exists_of_kerase hmem
  have hb : b' = b := by
    have hmem' : (⟨a, b'⟩ : Sigma β) ∈ m.entries := by
      rw [hsplit]
      simp
    exact Option.some.inj ((AList.mem_lookup_iff.mpr hmem').symm.trans h)
  have hentries : (m.erase a).entries = front ++ back := herase
  rw [weight, weight, hentries, hsplit, List.map_append, List.sum_append, List.map_cons, List.sum_cons,
    List.map_append, List.sum_append, hb]
  exact add_left_comm _ _ _

/-- The entry of `a`, and the others. -/
theorem weight_eq (f : ∀ a, β a → M) (m : AList β) (a : α) :
    weight f m = (m.lookup a).elim 0 (f a) + weight f (m.erase a) := by
  cases h : m.lookup a with
  | none =>
    rw [erase_of_none h]
    exact (zero_add _).symm
  | some b => exact weight_of_some h

theorem weight_insert : weight f (m.insert a b) = f a b + weight f (m.erase a) := by
  rw [weight, AList.entries_insert, List.map_cons, List.sum_cons]
  rfl

end Weights

variable {ω κ ι : Type} {policy c m : ℕ} {copied : Option ι} {a : ObjcAssociation ι}

/-! ## Policies -/

/-- The policies of `runtime.h`, with or without the bits of the system. -/
def Documented (policy : ℕ) : Prop := policy &&& 65535 ∈ [0, 1, 3, 0o1401, 0o1403]

instance : DecidablePred Documented := fun policy =>
  inferInstanceAs (Decidable (policy &&& 65535 ∈ [0, 1, 3, 0o1401, 0o1403]))

theorem land_of_land (h : policy &&& 65535 = c) (hm : 65535 &&& m = m) : policy &&& m = c &&& m := by
  rw [← h, Nat.and_assoc, hm]

/-- A documented policy retains and releases, or does neither. -/
theorem Documented.setter (h : Documented policy) :
    policy &&& 0xFF = 0 ∧ policy &&& 1 = 0 ∨ (policy &&& 0xFF = 1 ∨ policy &&& 0xFF = 3) ∧
      policy &&& 1 ≠ 0 := by
  simp only [Documented, List.mem_cons, List.not_mem_nil, or_false] at h
  rcases h with h | h | h | h | h
  all_goals
    rw [land_of_land h (m := 0xFF) rfl, land_of_land h (m := 1) rfl]
    decide

/-- What a documented policy retains for the caller, it autoreleases. -/
theorem Documented.getter (h : Documented policy) : policy &&& 256 ≠ 0 ↔ policy &&& 512 ≠ 0 := by
  simp only [Documented, List.mem_cons, List.not_mem_nil, or_false] at h
  rcases h with h | h | h | h | h
  all_goals
    rw [land_of_land h (m := 256) rfl, land_of_land h (m := 512) rfl]
    decide

theorem held_of_bit (h : a.policy &&& 1 ≠ 0) : a.held = reference a.value := if_pos h

theorem held_of_no_bit (h : a.policy &&& 1 = 0) : a.held = 0 := if_neg (not_not_intro h)

theorem held_nil (policy : ℕ) : (⟨policy, none⟩ : ObjcAssociation ι).held = 0 := by
  unfold ObjcAssociation.held
  split <;> rfl

theorem policy_acquireValue (copied : Option ι) (a : ObjcAssociation ι) :
    (a.acquireValue copied).1.policy = a.policy := by
  unfold ObjcAssociation.acquireValue
  split
  · rfl
  · split_ifs <;> rfl

/-- What is acquired is what will be released. -/
theorem held_acquireValue (copied : Option ι) (h : Documented a.policy) :
    (a.acquireValue copied).2 = (a.acquireValue copied).1.held := by
  obtain ⟨policy, value⟩ := a
  cases value with
  | none => exact (held_nil policy).symm
  | some v =>
    unfold ObjcAssociation.acquireValue
    dsimp only at h ⊢
    rcases h.setter with ⟨hlow, hbit⟩ | ⟨hlow | hlow, hbit⟩
    · rw [hlow, if_neg (by decide), if_neg (by decide)]
      exact (held_of_no_bit hbit).symm
    · rw [hlow, if_pos rfl]
      exact (held_of_bit (a := ⟨policy, some v⟩) hbit).symm
    · rw [hlow, if_neg (by decide), if_pos rfl]
      exact (held_of_bit (a := ⟨policy, copied⟩) hbit).symm

theorem autoreleaseReturned_eq (h : Documented a.policy) : a.autoreleaseReturned = a.retainReturned := by
  unfold ObjcAssociation.autoreleaseReturned ObjcAssociation.retainReturned
  exact if_congr h.getter.symm rfl rfl

/-! ## What the table holds -/

section Table

variable [DecidableEq ω] [DecidableEq κ] {table : AssociationsHashMap ω κ ι} {refs : ObjectAssociationMap κ ι}
  {object o : ω} {key k : κ}

def refsHeld (refs : ObjectAssociationMap κ ι) : Multiset ι := weight (fun _ a => a.held) refs

def tableHeld (table : AssociationsHashMap ω κ ι) : Multiset ι := weight (fun _ refs => refsHeld refs) table

omit [DecidableEq κ] in
theorem tableHeld_eq (table : AssociationsHashMap ω κ ι) (object : ω) :
    tableHeld table = refsHeld ((table.lookup object).getD ∅) + tableHeld (table.erase object) := by
  rw [tableHeld, weight_eq _ table object]
  cases table.lookup object with
  | none => rfl
  | some refs => rfl

theorem refsHeld_eq (refs : ObjectAssociationMap κ ι) (key : κ) :
    refsHeld refs = ((refs.lookup key).getD .empty).held + refsHeld (refs.erase key) := by
  rw [refsHeld, weight_eq _ refs key]
  cases refs.lookup key with
  | none => exact congrArg (· + _) (held_nil 0).symm
  | some a => rfl

omit [DecidableEq κ] in
theorem tableHeld_keep :
    tableHeld (keep table object refs) = refsHeld refs + tableHeld (table.erase object) := by
  unfold keep
  split
  · have hempty : refs.entries = [] := List.isEmpty_iff.mp ‹_›
    rw [refsHeld, weight, hempty]
    exact (zero_add _).symm
  · exact weight_insert

/-- What the call brings goes into the table, and the old association comes out. -/
theorem tableHeld_establish (table : AssociationsHashMap ω κ ι) (object : ω) (key : κ)
    (a : ObjcAssociation ι) :
    tableHeld (establish table object key a).1 + (establish table object key a).2.2.held =
      tableHeld table + a.held := by
  have htable : tableHeld (establish table object key a).1 =
      refsHeld (((table.lookup object).getD ∅).insert key a) + tableHeld (table.erase object) := weight_insert
  have hrefs : refsHeld (((table.lookup object).getD ∅).insert key a) =
      a.held + refsHeld (((table.lookup object).getD ∅).erase key) := weight_insert
  rw [htable, hrefs, tableHeld_eq table object, refsHeld_eq ((table.lookup object).getD ∅) key]
  show _ + ((((table.lookup object).getD ∅).lookup key).getD .empty).held = _
  abel

theorem tableHeld_eraseKey (table : AssociationsHashMap ω κ ι) (object : ω) (key : κ) (a : ObjcAssociation ι)
    (hnil : a.held = 0) :
    tableHeld (eraseKey table object key a).1 + (eraseKey table object key a).2.held = tableHeld table := by
  unfold eraseKey
  cases hrefs : table.lookup object with
  | none => simp [hnil]
  | some refs =>
    dsimp only
    cases hold : refs.lookup key with
    | none => simp [hnil]
    | some old =>
      dsimp only
      rw [tableHeld_keep, tableHeld_eq table object, hrefs, Option.getD_some, refsHeld_eq refs key, hold,
        Option.getD_some]
      abel

/-- What `_object_remove_assocations` has to release. -/
def refsReleased (deallocating : Bool) (refs : List (ObjcAssociation ι)) : Multiset ι :=
  ((refs.filter fun a => deallocating || !a.isSystem).map ObjcAssociation.held).sum

theorem sum_filter_add (refs : List (ObjcAssociation ι)) :
    ((refs.filter ObjcAssociation.isSystem).map ObjcAssociation.held).sum +
      ((refs.filter fun a => !a.isSystem).map ObjcAssociation.held).sum =
        (refs.map ObjcAssociation.held).sum := by
  have hperm := ((List.filter_append_perm ObjcAssociation.isSystem refs).map ObjcAssociation.held).sum_eq
  rw [List.map_append, List.sum_append] at hperm
  exact hperm

omit [DecidableEq κ] in
theorem refsHeld_entries (refs : ObjectAssociationMap κ ι) :
    refsHeld refs = ((refs.entries.map fun ref => ref.2).map ObjcAssociation.held).sum := by
  rw [List.map_map]
  rfl

omit [DecidableEq κ] in
theorem refsHeld_systemRefs (refs : ObjectAssociationMap κ ι) :
    refsHeld (systemRefs refs) =
      (((refs.entries.map fun ref => ref.2).filter ObjcAssociation.isSystem).map
        ObjcAssociation.held).sum := by
  rw [List.filter_map, List.map_map]
  rfl

omit [DecidableEq κ] in
theorem tableHeld_takeRefs (table : AssociationsHashMap ω κ ι) (object : ω) (deallocating : Bool) :
    tableHeld (takeRefs table object deallocating).1 + refsReleased deallocating
      (takeRefs table object deallocating).2 =
      tableHeld table := by
  unfold takeRefs
  cases hrefs : table.lookup object with
  | none => exact add_zero _
  | some refs =>
    dsimp only
    rw [tableHeld_keep, tableHeld_eq table object, hrefs, Option.getD_some, add_right_comm]
    congr 1
    rw [refsHeld_entries refs]
    cases deallocating with
    | true =>
      simp only [if_true, refsReleased, Bool.true_or, List.filter_true]
      exact zero_add _
    | false =>
      simp only [Bool.false_eq_true, if_false, refsReleased, Bool.false_or, refsHeld_systemRefs]
      exact sum_filter_add _

/-! ## One map of objects and keys -/

/-- The association of an object and a key. -/
def associated (table : AssociationsHashMap ω κ ι) (o : ω) (k : κ) : Option (ObjcAssociation ι) :=
  (table.lookup o).bind fun refs => refs.lookup k

/-- What the turn of a call does to the map. -/
def effect (f : ω → κ → Option (ObjcAssociation ι)) : AssocCall ω κ ι → ω → κ → Option (ObjcAssociation ι)
  | .establishing object key a => Function.update f object (Function.update (f object) key (some a))
  | .erasing object key _ => Function.update f object (Function.update (f object) key none)
  | .remove object deallocating =>
    Function.update f object fun k => if deallocating then
      none else (f object k).filter ObjcAssociation.isSystem
  | _ => f

theorem associated_insert : associated (table.insert object refs) =
    Function.update (associated table) object fun k => refs.lookup k := by
  funext o k
  by_cases ho : o = object
  · subst ho
    rw [Function.update_self, associated, AList.lookup_insert, Option.bind_some]
  · rw [Function.update_of_ne ho, associated, associated, AList.lookup_insert_ne ho]

theorem associated_keep : associated (keep table object refs) =
    Function.update (associated table) object fun k => refs.lookup k := by
  unfold keep
  split
  · have hempty : refs = ∅ := AList.ext (List.isEmpty_iff.mp ‹_›)
    funext o k
    by_cases ho : o = object
    · subst ho
      rw [Function.update_self, associated, AList.lookup_erase, Option.bind_none, hempty, AList.lookup_empty]
    · rw [Function.update_of_ne ho, associated, associated, AList.lookup_erase_ne ho]
  · exact associated_insert

theorem lookup_getD (table : AssociationsHashMap ω κ ι) (object : ω) (key : κ) :
    ((table.lookup object).getD ∅).lookup key = associated table object key := by
  unfold associated
  cases table.lookup object with
  | none => exact AList.lookup_empty key
  | some refs => rfl

theorem associated_establish (table : AssociationsHashMap ω κ ι) (object : ω) (key : κ)
    (a : ObjcAssociation ι) :
    associated (establish table object key a).1 = effect (associated table) (.establishing object key a) := by
  refine associated_insert.trans (congrArg (Function.update _ object) ?_)
  funext k
  by_cases hk : k = key
  · subst hk
    rw [Function.update_self, AList.lookup_insert]
  · rw [Function.update_of_ne hk, AList.lookup_insert_ne hk, lookup_getD]

theorem associated_eraseKey (table : AssociationsHashMap ω κ ι) (object : ω) (key : κ)
    (a : ObjcAssociation ι) :
    associated (eraseKey table object key a).1 = effect (associated table) (.erasing object key a) := by
  have hsame : associated table object key = none →
      associated table = effect (associated table) (.erasing object key a) := by
    intro hnone
    show _ = Function.update (associated table) object (Function.update (associated table object) key none)
    rw [← hnone, Function.update_eq_self, Function.update_eq_self]
  unfold eraseKey
  cases hrefs : table.lookup object with
  | none => exact hsame (by rw [associated, hrefs, Option.bind_none])
  | some refs =>
    dsimp only
    have hlookup : ∀ k, associated table object k = refs.lookup k := by
      intro k
      rw [associated, hrefs, Option.bind_some]
    cases hold : refs.lookup key with
    | none => exact hsame ((hlookup key).trans hold)
    | some old =>
      refine associated_keep.trans (congrArg (Function.update _ object) ?_)
      funext k
      by_cases hk : k = key
      · subst hk
        rw [Function.update_self, AList.lookup_erase]
      · rw [Function.update_of_ne hk, AList.lookup_erase_ne hk, hlookup]

theorem lookup_systemRefs (refs : ObjectAssociationMap κ ι) (k : κ) :
    (systemRefs refs).lookup k = (refs.lookup k).filter ObjcAssociation.isSystem := by
  ext a
  rw [← Option.mem_def, AList.mem_lookup_iff, Option.filter_eq_some_iff, ← Option.mem_def,
    AList.mem_lookup_iff]
  exact List.mem_filter

theorem associated_takeRefs (table : AssociationsHashMap ω κ ι) (object : ω) (deallocating : Bool) :
    associated (takeRefs table object deallocating).1 =
      effect (associated table) (.remove object deallocating) := by
  unfold takeRefs
  cases hrefs : table.lookup object with
  | none =>
    have hnone : ∀ k, associated table object k = none := by
      intro k
      rw [associated, hrefs, Option.bind_none]
    show _ = Function.update (associated table) object _
    conv_lhs => rw [← Function.update_eq_self object (associated table)]
    congr 1
    funext k
    rw [hnone k]
    simp
  | some refs =>
    refine associated_keep.trans (congrArg (Function.update _ object) ?_)
    funext k
    rw [associated, hrefs, Option.bind_some]
    cases deallocating with
    | true => rfl
    | false => exact lookup_systemRefs refs k

end Table

end QYInterview.ObjC.Associations
