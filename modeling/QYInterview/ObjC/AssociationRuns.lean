import QYInterview.ObjC.AssociationTable

/-!
# ObjC.AssociationRuns — associated objects under every interleaving

Every reference that was taken is released, in an autorelease pool, in the table, or with a call that is
about to give it back (`retained_of_reachable`).  An object that has associations has its flag set, or the
call that made the first one is about to set it (`flag_of_reachable`), so that the end of an object without
such a call misses none.  In every run the table is the map that the calls build, each with one turn of it
(`associated_of_run`).
-/

namespace QYInterview.ObjC.Associations

open Interleaving

variable {ω κ ι : Type} {policy : ℕ} {copied : Option ι} {a : ObjcAssociation ι}

/-! ## One turn -/

/-- What a call will give back. -/
def held : AssocCall ω κ ι → Multiset ι
  | .found a => a.retainReturned
  | .establishing _ _ a | .erasing _ _ a | .stored _ _ a | .releasing a => a.held
  | .draining deallocating refs laterRefs =>
    refsReleased deallocating refs + (laterRefs.map ObjcAssociation.held).sum
  | .drainingLater laterRefs => (laterRefs.map ObjcAssociation.held).sum
  | _ => 0

/-- The policies a call has with it are documented, and one without a value holds nothing. -/
def Sound : AssocCall ω κ ι → Prop
  | .found a | .establishing _ _ a => Documented a.policy
  | .set _ _ _ policy => Documented policy
  | .erasing _ _ a => a.held = 0
  | _ => True

section Turn

variable [DecidableEq ω] [DecidableEq κ] {forbids : ω → Bool} {g g' : World ω κ ι} {s s' : AssocCall ω κ ι}

/-- What was given back, is in the table or with the call. -/
def accounted (g : World ω κ ι) (s : AssocCall ω κ ι) : Multiset ι :=
  g.released + g.autoreleased + tableHeld g.associations + held s

def AllDocumented (f : ω → κ → Option (ObjcAssociation ι)) : Prop := ∀ o k, ∀ a ∈ f o k, Documented a.policy

theorem documented_getD {x : Option (ObjcAssociation ι)} (h : ∀ a ∈ x, Documented a.policy) :
    Documented (x.getD .empty).policy := by
  cases x with
  | none =>
    show Documented 0
    decide
  | some a => exact h a rfl

/-- What a turn retains is accounted for. -/
theorem Turn.accounted (hs : Sound s) (ht : Turn g s g' s') :
    g'.retained + accounted g s = g.retained + accounted g' s' := by
  cases ht with
  | get object key a ha =>
    simp only [Associations.accounted, held]
    abel
  | found a =>
    simp only [Associations.accounted, held, autoreleaseReturned_eq hs]
    abel
  | refuse object key value policy s' hs' => rcases hs' with rfl | rfl <;> rfl
  | acquire o key v policy copied =>
    have hacq := held_acquireValue (a := ⟨policy, some v⟩) copied hs
    show g.retained + _ + (g.released + g.autoreleased + tableHeld g.associations + 0) =
      g.retained + (g.released + g.autoreleased + tableHeld g.associations + ObjcAssociation.held _)
    rw [hacq, add_zero, add_right_comm, add_assoc]
  | acquireNil o key policy =>
    show _ = g.retained + (g.released + g.autoreleased + tableHeld g.associations + ObjcAssociation.held _)
    rw [held_nil]
    rfl
  | establish object key a =>
    show g.retained + (g.released + g.autoreleased + tableHeld g.associations + a.held) =
      g.retained + (g.released + g.autoreleased + tableHeld
        (Associations.establish g.associations object key a).1 +
        (Associations.establish g.associations object key a).2.2.held)
    rw [add_assoc _ (tableHeld _), add_assoc _ (tableHeld _), tableHeld_establish]
  | erase object key a =>
    have hnil : a.held = 0 := hs
    show g.retained + (g.released + g.autoreleased + tableHeld g.associations + a.held) =
      g.retained + (g.released + g.autoreleased + tableHeld (eraseKey g.associations object key a).1 +
        (eraseKey g.associations object key a).2.held)
    rw [hnil, add_zero, add_assoc _ (tableHeld _) (ObjcAssociation.held _), tableHeld_eraseKey _ _ _ _ hnil]
  | release old =>
    simp only [Associations.accounted, held, World.release]
    abel
  | removeAssociatedObjects object s' hs' =>
    subst hs'
    split <;> rfl
  | destructInstance object s' hs' =>
    subst hs'
    split <;> rfl
  | take object deallocating =>
    show g.retained + (g.released + g.autoreleased + tableHeld g.associations + 0) =
      g.retained + (g.released + g.autoreleased + tableHeld (takeRefs g.associations object deallocating).1 +
        (refsReleased deallocating (takeRefs g.associations object deallocating).2 + 0))
    rw [add_zero, add_zero, add_assoc _ (tableHeld _) (refsReleased _ _), tableHeld_takeRefs]
  | putOff deallocating a refs laterRefs ha =>
    cases deallocating with
    | true =>
      simp only [Associations.accounted, held, refsReleased, Bool.true_or, List.filter_true, List.map_cons,
        List.sum_cons, List.map_append, List.sum_append, List.map_nil, List.sum_nil, if_true]
      abel
    | false => simp [Associations.accounted, held, refsReleased, ha]
  | drain deallocating a refs laterRefs ha =>
    have hkeep : (deallocating || !a.isSystem) = true := by simp [ha]
    simp only [Associations.accounted, held, refsReleased, List.filter_cons, hkeep, if_true, List.map_cons,
      List.sum_cons, World.release]
    abel
  | drained deallocating laterRefs => simp [Associations.accounted, held, refsReleased]
  | later a laterRefs =>
    simp only [Associations.accounted, held, List.map_cons, List.sum_cons, World.release]
    abel
  | done => simp [Associations.accounted, held]
  | _ => rfl

/-- What a call has with it stays sound. -/
theorem Turn.sound (htable : AllDocumented (associated g.associations)) (hs : Sound s) (ht : Turn g s g' s') :
    Sound s' := by
  cases ht with
  | get object key a ha =>
    subst ha
    refine documented_getD fun a ha => ?_
    obtain ⟨refs, hrefs, hlookup⟩ := Option.bind_eq_some_iff.mp ha
    obtain ⟨o, rfl, ho⟩ := Option.bind_eq_some_iff.mp hrefs
    exact htable o key a (Option.bind_eq_some_iff.mpr ⟨refs, ho, hlookup⟩)
  | refuse object key value policy s' hs' => rcases hs' with rfl | rfl <;> trivial
  | acquire o key v policy copied =>
    exact (congrArg Documented (policy_acquireValue copied ⟨policy, some v⟩)).mpr hs
  | acquireNil o key policy => exact held_nil policy
  | removeAssociatedObjects object s' hs' =>
    subst hs'
    split <;> trivial
  | destructInstance object s' hs' =>
    subst hs'
    split <;> trivial
  | _ => trivial

/-- A turn on the map of objects and keys. -/
theorem Turn.associated (ht : Turn g s g' s') :
    associated g'.associations = effect (associated g.associations) s := by
  cases ht with
  | establish object key a => exact associated_establish g.associations object key a
  | erase object key a => exact associated_eraseKey g.associations object key a
  | take object deallocating => exact associated_takeRefs g.associations object deallocating
  | _ => rfl

/-- A call that cannot go on has come to its end. -/
theorem ended_of_next (h : next forbids none g s = none) : (∃ value, s = .returned value) ∨ s = .crashed := by
  cases s with
  | returned value => exact Or.inl ⟨value, rfl⟩
  | crashed => exact Or.inr rfl
  | draining deallocating refs laterRefs =>
    cases refs with
    | nil => cases h
    | cons a refs =>
      simp only [next] at h
      split at h <;> cases h
  | drainingLater laterRefs =>
    cases laterRefs with
    | nil => cases h
    | cons a laterRefs => cases h
  | _ => cases h

end Turn

/-! ## The references -/

section Runs

variable [DecidableEq ω] [DecidableEq κ] {forbids : ω → Bool} {g g' : World ω κ ι} {s s' : AssocCall ω κ ι}
  {p : Pool (World ω κ ι) (AssocCall ω κ ι)}

/-- A set has a documented policy. -/
def documentedCall : AssocCall ω κ ι → Bool
  | .set _ _ _ policy => decide (Documented policy)
  | _ => true

structure Inv (p : Pool (World ω κ ι) (AssocCall ω κ ι)) : Prop where
  retained : p.shared.retained =
    p.shared.released + p.shared.autoreleased + tableHeld p.shared.associations + total held p.procs
  table : AllDocumented (associated p.shared.associations)
  calls : ∀ s ∈ p.procs, Sound s

omit [DecidableEq ω] [DecidableEq κ] in
theorem start_plain (hs : entry s = true) (hdoc : documentedCall s = true) : held s = 0 ∧ Sound s := by
  cases s with
  | set object key value policy => exact ⟨rfl, of_decide_eq_true (p := Documented policy) hdoc⟩
  | get object key => exact ⟨rfl, trivial⟩
  | removeAssociatedObjects object => exact ⟨rfl, trivial⟩
  | destructInstance object => exact ⟨rfl, trivial⟩
  | _ => cases hs

theorem AllDocumented.effect {f : ω → κ → Option (ObjcAssociation ι)} (hf : AllDocumented f) (hs : Sound s) :
    AllDocumented (effect f s) := by
  have hupdate : ∀ object row, (∀ k, ∀ a ∈ row k, Documented a.policy) →
      AllDocumented (Function.update f object row) := by
    intro object row hrow o k a ha
    by_cases ho : o = object
    · subst ho
      rw [Function.update_self] at ha
      exact hrow k a ha
    · rw [Function.update_of_ne ho] at ha
      exact hf o k a ha
  have hrow : ∀ object key x, (∀ a ∈ x, Documented a.policy) →
      ∀ k, ∀ a ∈ Function.update (f object) key x k, Documented a.policy := by
    intro object key x hx k a ha
    by_cases hk : k = key
    · subst hk
      rw [Function.update_self] at ha
      exact hx a ha
    · rw [Function.update_of_ne hk] at ha
      exact hf object k a ha
  cases s with
  | establishing object key b =>
    refine hupdate object _ (hrow object key (some b) fun a ha => ?_)
    obtain rfl := Option.some.inj ha
    exact hs
  | erasing object key b => exact hupdate object _ (hrow object key none fun a ha => by cases ha)
  | remove object deallocating =>
    refine hupdate object _ fun k a ha => ?_
    cases deallocating with
    | true => cases ha
    | false => exact hf object k a (Option.filter_eq_some_iff.mp ha).1
  | _ => exact hf

theorem inv_of_reachable
    (h : Reachable (fun s => entry s && documentedCall s) (next forbids) World.initial p) : Inv p := by
  refine always (P := Inv) ?_ ?_ ?_ h
  · refine ⟨rfl, fun o k a ha => ?_, fun s hs => ?_⟩
    · cases ha
    · cases hs
  · intro p s hp hs
    rw [Bool.and_eq_true] at hs
    obtain ⟨hheld, hsound⟩ := start_plain hs.1 hs.2
    refine ⟨?_, hp.table, ?_⟩
    · rw [total_concat, hheld, add_zero]
      exact hp.retained
    · intro t ht
      rcases List.mem_append.mp ht with ht | ht
      · exact hp.calls t ht
      · obtain rfl := List.mem_singleton.mp ht
        exact hsound
  · intro g front s back copied g' s' hp hnext
    have hs := hp.calls s (by simp)
    have hturn := (turn_of_next hnext).accounted hs
    have hs' := (turn_of_next hnext).sound hp.table hs
    refine ⟨?_, ?_, ?_⟩
    · have hretained : g.retained = accounted g s + (total held front + total held back) := by
        rw [hp.retained, total_split, accounted]
        abel
      have hcancel : g'.retained + accounted g s =
          accounted g' s' + (total held front + total held back) + accounted g s := by
        rw [hturn, hretained]
        abel
      show g'.retained = _
      rw [add_right_cancel hcancel, total_split, accounted]
      abel
    · show AllDocumented (associated g'.associations)
      rw [(turn_of_next hnext).associated]
      exact hp.table.effect hs
    · exact forall_turn (I := fun _ t => Sound t) g g' hp.calls (fun _ => hs') fun _ ht => ht

/-- **References.**  With documented policies every reference that the associations took is released, in an
autorelease pool, in the table, or with a call that will give it back; when all calls have come to their
end, it is one of the first three. -/
theorem retained_of_reachable
    (h : Reachable (fun s => entry s && documentedCall s) (next forbids) World.initial p) :
    p.shared.retained =
        p.shared.released + p.shared.autoreleased + tableHeld p.shared.associations + total held p.procs ∧
      (Stuck (next forbids) p →
        p.shared.retained = p.shared.released + p.shared.autoreleased + tableHeld p.shared.associations) := by
  have hinv := inv_of_reachable h
  refine ⟨hinv.retained, fun hstuck => ?_⟩
  have hnone : total held p.procs = 0 := by
    refine total_of_forall held fun s hs => ?_
    rcases ended_of_next (hstuck s hs none) with ⟨value, rfl⟩ | rfl
    · rfl
    · rfl
  rw [hinv.retained, hnone, add_zero]

/-- A retained value is read, replaced by a copy, and the object comes to its end. -/
theorem retained_of_reachable_copy : ∃ p : Pool (World ℕ ℕ ℕ) (AssocCall ℕ ℕ ℕ),
    Reachable (fun s => entry s && documentedCall s) (next fun _ => false) World.initial p ∧
    Stuck (next fun _ => false) p ∧ p.shared.released = {7, 9} ∧ p.shared.autoreleased = {7} ∧
    p.shared.retained =
        p.shared.released + p.shared.autoreleased + tableHeld p.shared.associations + total held p.procs ∧
      (Stuck (next fun _ => false) p →
        p.shared.retained = p.shared.released + p.shared.autoreleased + tableHeld p.shared.associations) := by
  have hreach : Reachable (fun s => entry s && documentedCall s) (next fun _ => false) World.initial
      (⟨⟨∅, Function.update (fun _ => false) 0 true, {7, 7, 9}, {7, 9}, {7}⟩,
        [.returned none, .returned (some 7), .returned none, .returned none]⟩ :
        Pool (World ℕ ℕ ℕ) (AssocCall ℕ ℕ ℕ)) :=
    ⟨[.start (.set (some 0) 0 (some 7) 0o1401), .turn 0 none, .turn 0 none, .turn 0 none, .turn 0 none,
      .start (.get (some 0) 0), .turn 1 none, .turn 1 none,
      .start (.set (some 0) 0 (some 8) 0o1403), .turn 2 (some 9), .turn 2 none, .turn 2 none, .turn 2 none,
      .start (.destructInstance 0), .turn 3 none, .turn 3 none, .turn 3 none, .turn 3 none, .turn 3 none],
        rfl⟩
  refine ⟨_, hreach, ?_, rfl, rfl, retained_of_reachable hreach⟩
  intro s hs copied
  simp only [List.mem_cons, List.not_mem_nil, or_false] at hs
  rcases hs with rfl | rfl | rfl | rfl
  all_goals rfl

/-- A policy that is not documented releases what it did not retain. -/
example : (ObjcAssociation.acquireValue none ⟨5, some 7⟩).2 = 0 ∧
    (⟨5, some 7⟩ : ObjcAssociation ℕ).held = {7} :=
  ⟨rfl, rfl⟩

/-! ## The flag -/

/-- A call that made the first association of an object and has not set the flag. -/
def first (o : ω) : AssocCall ω κ ι → Bool
  | .stored object true _ => decide (object = o)
  | _ => false

/-- No object has an empty table, and those with one have the flag, or a call that is about to set it. -/
structure Flagged (p : Pool (World ω κ ι) (AssocCall ω κ ι)) : Prop where
  nonempty : ∀ o refs, p.shared.associations.lookup o = some refs → ∃ k, (refs.lookup k).isSome = true
  flag : ∀ o, (p.shared.associations.lookup o).isSome = true →
    p.shared.hasAssociatedObjects o = true ∨ ∃ s ∈ p.procs, first o s = true

omit [DecidableEq ω] in
theorem exists_lookup {refs : ObjectAssociationMap κ ι} (h : refs.entries.isEmpty = false) :
    ∃ k, (refs.lookup k).isSome = true := by
  obtain ⟨ref, hmem⟩ := List.exists_mem_of_ne_nil refs.entries (by simpa using h)
  exact ⟨ref.1, AList.lookup_isSome.mpr (List.mem_keys_of_mem hmem)⟩

theorem lookup_keep {table : AssociationsHashMap ω κ ι} {refs refs' : ObjectAssociationMap κ ι} {object o : ω}
    (h : (keep table object refs).lookup o = some refs') :
    table.lookup o = some refs' ∨ o = object ∧ refs' = refs ∧ ∃ k, (refs.lookup k).isSome = true := by
  unfold keep at h
  by_cases hempty : refs.entries.isEmpty = true
  · rw [if_pos hempty] at h
    by_cases ho : o = object
    · subst ho
      rw [AList.lookup_erase] at h
      cases h
    · rw [AList.lookup_erase_ne ho] at h
      exact Or.inl h
  · rw [if_neg hempty] at h
    by_cases ho : o = object
    · subst ho
      rw [AList.lookup_insert] at h
      obtain rfl := Option.some.inj h
      exact Or.inr ⟨rfl, rfl, exists_lookup (Bool.eq_false_of_not_eq_true hempty)⟩
    · rw [AList.lookup_insert_ne ho] at h
      exact Or.inl h

/-- What is left where associations are taken out: the tables there were, or smaller ones. -/
theorem lookup_eraseKey {table : AssociationsHashMap ω κ ι} {refs : ObjectAssociationMap κ ι}
    {object o : ω} {key : κ} (h : (eraseKey table object key a).1.lookup o = some refs) :
    table.lookup o = some refs ∨ (table.lookup o).isSome = true ∧ ∃ k, (refs.lookup k).isSome = true := by
  unfold eraseKey at h
  cases hrefs : table.lookup object with
  | none =>
    rw [hrefs] at h
    exact Or.inl h
  | some refs' =>
    rw [hrefs] at h
    dsimp only at h
    cases hold : refs'.lookup key with
    | none =>
      rw [hold] at h
      exact Or.inl h
    | some old =>
      rw [hold] at h
      rcases lookup_keep h with h | ⟨rfl, rfl, hsome⟩
      · exact Or.inl h
      · exact Or.inr ⟨by rw [hrefs]; rfl, hsome⟩

theorem lookup_takeRefs {table : AssociationsHashMap ω κ ι} {refs : ObjectAssociationMap κ ι} {object o : ω}
    {deallocating : Bool} (h : (takeRefs table object deallocating).1.lookup o = some refs) :
    table.lookup o = some refs ∨ (table.lookup o).isSome = true ∧ ∃ k, (refs.lookup k).isSome = true := by
  unfold takeRefs at h
  cases hrefs : table.lookup object with
  | none =>
    rw [hrefs] at h
    exact Or.inl h
  | some refs' =>
    rw [hrefs] at h
    rcases lookup_keep h with h | ⟨rfl, rfl, hsome⟩
    · exact Or.inl h
    · exact Or.inr ⟨by rw [hrefs]; rfl, hsome⟩

theorem lookup_establish {table : AssociationsHashMap ω κ ι} {refs : ObjectAssociationMap κ ι} {object o : ω}
    {key : κ} (h : (establish table object key a).1.lookup o = some refs) :
    table.lookup o = some refs ∨ o = object ∧ ∃ k, (refs.lookup k).isSome = true := by
  unfold establish at h
  by_cases ho : o = object
  · subst ho
    rw [AList.lookup_insert] at h
    obtain rfl := Option.some.inj h
    exact Or.inr ⟨rfl, key, by rw [AList.lookup_insert]; rfl⟩
  · rw [AList.lookup_insert_ne ho] at h
    exact Or.inl h

/-- The table and the flags after a turn: a new table of an object comes with a call
that will set the flag. -/
structure FlagTurn (g : World ω κ ι) (s : AssocCall ω κ ι) (g' : World ω κ ι) (s' : AssocCall ω κ ι) :
    Prop where
  table : ∀ o refs, g'.associations.lookup o = some refs → g.associations.lookup o = some refs ∨
    ((g.associations.lookup o).isSome = true ∨ first o s' = true) ∧ ∃ k, (refs.lookup k).isSome = true
  flag : ∀ o, g.hasAssociatedObjects o = true ∨ first o s = true → g'.hasAssociatedObjects o = true

/-- The turns that do not touch the table and the flags. -/
theorem flagTurn_same (htable : g'.associations = g.associations)
    (hflag : g'.hasAssociatedObjects = g.hasAssociatedObjects) (hfirst : ∀ o, first o s = false) :
    FlagTurn g s g' s' := by
  refine ⟨fun o refs hrefs => ?_, fun o ho => ?_⟩
  · rw [htable] at hrefs
    exact Or.inl hrefs
  · rw [hflag]
    exact ho.resolve_right (by rw [hfirst o]; exact Bool.false_ne_true)

theorem Turn.flags (ht : Turn g s g' s') : FlagTurn g s g' s' := by
  cases ht with
  | establish object key a =>
    refine ⟨fun o refs hrefs => ?_, fun o ho => ho.resolve_right Bool.false_ne_true⟩
    rcases lookup_establish hrefs with hrefs | ⟨rfl, hsome⟩
    · exact Or.inl hrefs
    · refine Or.inr ⟨?_, hsome⟩
      cases hold : g.associations.lookup o with
      | none => exact Or.inr (by simp [first, Associations.establish, hold])
      | some refs' => exact Or.inl rfl
  | erase object key a =>
    refine ⟨fun o refs hrefs => ?_, fun o ho => ho.resolve_right Bool.false_ne_true⟩
    exact (lookup_eraseKey hrefs).imp_right fun hsome => ⟨Or.inl hsome.1, hsome.2⟩
  | setFlag object old =>
    refine ⟨fun o refs hrefs => Or.inl hrefs, fun o ho => ?_⟩
    show Function.update g.hasAssociatedObjects object true o = true
    by_cases hobj : o = object
    · subst hobj
      exact Function.update_self _ _ _
    · rw [Function.update_of_ne hobj]
      refine ho.resolve_right fun hfirst => ?_
      exact hobj (of_decide_eq_true (p := object = o) hfirst).symm
  | take object deallocating =>
    refine ⟨fun o refs hrefs => ?_, fun o ho => ho.resolve_right Bool.false_ne_true⟩
    exact (lookup_takeRefs hrefs).imp_right fun hsome => ⟨Or.inl hsome.1, hsome.2⟩
  | _ => exact flagTurn_same rfl rfl fun _ => rfl

theorem flagged_of_reachable (h : Reachable entry (next forbids) World.initial p) : Flagged p := by
  refine always (P := Flagged) ?_ ?_ ?_ h
  · refine ⟨fun o refs hrefs => ?_, fun o ho => ?_⟩
    · cases hrefs
    · cases ho
  · intro p s hp hs
    refine ⟨hp.nonempty, fun o ho => (hp.flag o ho).imp_right ?_⟩
    rintro ⟨t, ht, hfirst⟩
    exact ⟨t, List.mem_append_left _ ht, hfirst⟩
  · intro g front s back copied g' s' hp hnext
    obtain ⟨htable, hflag⟩ := (turn_of_next hnext).flags
    refine ⟨fun o refs hrefs => ?_, fun o ho => ?_⟩
    · rcases htable o refs hrefs with hrefs | ⟨-, hsome⟩
      · exact hp.nonempty o refs hrefs
      · exact hsome
    · obtain ⟨refs, hrefs⟩ := Option.isSome_iff_exists.mp ho
      have hbefore : (g.associations.lookup o).isSome = true ∨ first o s' = true := by
        rcases htable o refs hrefs with hrefs | ⟨hsome, -⟩
        · exact Or.inl (by rw [hrefs]; rfl)
        · exact hsome
      rcases hbefore with hbefore | hfirst
      · -- the flag that was set, or the call that is about to
        rcases hp.flag o hbefore with hset | ⟨t, ht, hfirst⟩
        · exact Or.inl (hflag o (Or.inl hset))
        · rcases List.mem_append.mp ht with ht | ht
          · exact Or.inr ⟨t, List.mem_append_left _ ht, hfirst⟩
          · rcases List.mem_cons.mp ht with rfl | ht
            · exact Or.inl (hflag o (Or.inr hfirst))
            · exact Or.inr ⟨t, List.mem_append_right _ (List.mem_cons_of_mem _ ht), hfirst⟩
      · exact Or.inr ⟨s', by simp, hfirst⟩

/-- **The flag.**  An object has associations when it has a table, and then its flag is set or a call is
about to set it; so where no such call is there, the end of the object leaves no association of it. -/
theorem flag_of_reachable (h : Reachable entry (next forbids) World.initial p) (o : ω) :
    ((p.shared.associations.lookup o).isSome = true ↔
      ∃ k, (associated p.shared.associations o k).isSome = true) ∧
      ((p.shared.associations.lookup o).isSome = true →
        p.shared.hasAssociatedObjects o = true ∨ ∃ s ∈ p.procs, first o s = true) ∧
      ((∀ s ∈ p.procs, first o s = false) → ∀ copied g' s',
        next forbids copied p.shared (.destructInstance o) = some (g', s') →
          (s' = .returned none ∧ ∀ k, associated g'.associations o k = none) ∨
            s' = .remove o true ∧ ∀ g copied g₁ s₁, next forbids copied g s' = some (g₁, s₁) →
              ∀ k, associated g₁.associations o k = none) := by
  have hflagged := flagged_of_reachable h
  refine ⟨⟨fun hsome => ?_, ?_⟩, hflagged.flag o, fun hno copied g' s' hnext => ?_⟩
  · obtain ⟨refs, hrefs⟩ := Option.isSome_iff_exists.mp hsome
    obtain ⟨k, hk⟩ := hflagged.nonempty o refs hrefs
    refine ⟨k, ?_⟩
    rw [associated, hrefs]
    exact hk
  · rintro ⟨k, hk⟩
    obtain ⟨a, ha⟩ := Option.isSome_iff_exists.mp hk
    obtain ⟨refs, hrefs, -⟩ := Option.bind_eq_some_iff.mp ha
    rw [hrefs]
    rfl
  · obtain ⟨rfl, rfl⟩ := Prod.mk.inj (Option.some.inj hnext)
    by_cases hset : p.shared.hasAssociatedObjects o = true
    · rw [if_pos hset]
      refine Or.inr ⟨rfl, fun g copied g₁ s₁ hremove k => ?_⟩
      rw [(turn_of_next hremove).associated, effect, Function.update_self]
      rfl
    · rw [if_neg hset]
      refine Or.inl ⟨rfl, fun k => ?_⟩
      have hnone : p.shared.associations.lookup o = none := by
        rw [← Option.not_isSome_iff_eq_none]
        intro hsome
        rcases hflagged.flag o hsome with hflag | ⟨s, hs, hfirst⟩
        · exact hset hflag
        · exact Bool.false_ne_true ((hno s hs).symm.trans hfirst)
      rw [associated, hnone, Option.bind_none]

/-- The second set of an object has returned while the first one is about to set the flag. -/
theorem flag_of_reachable_second : ∃ p : Pool (World ℕ ℕ ℕ) (AssocCall ℕ ℕ ℕ),
    Reachable entry (next fun _ => false) World.initial p ∧
    p.procs = [.stored 0 true .empty, .returned none] ∧ p.shared.hasAssociatedObjects 0 = false ∧
    ((p.shared.associations.lookup 0).isSome = true ↔
      ∃ k, (associated p.shared.associations 0 k).isSome = true) ∧
      ((p.shared.associations.lookup 0).isSome = true →
        p.shared.hasAssociatedObjects 0 = true ∨ ∃ s ∈ p.procs, first 0 s = true) ∧
      ((∀ s ∈ p.procs, first 0 s = false) → ∀ copied g' s',
        next (fun _ => false) copied p.shared (.destructInstance 0) = some (g', s') →
          (s' = .returned none ∧ ∀ k, associated g'.associations 0 k = none) ∨
            s' = .remove 0 true ∧ ∀ g copied g₁ s₁, next (fun _ => false) copied g s' = some (g₁, s₁) →
              ∀ k, associated g₁.associations 0 k = none) := by
  obtain ⟨p, hreach, hprocs, hflag⟩ : ∃ p : Pool (World ℕ ℕ ℕ) (AssocCall ℕ ℕ ℕ),
      Reachable entry (next fun _ => false) World.initial p ∧
        p.procs = [.stored 0 true .empty, .returned none] ∧
        p.shared.hasAssociatedObjects 0 = false :=
    ⟨_, ⟨[.start (.set (some 0) 0 (some 7) 1), .turn 0 none, .turn 0 none,
      .start (.set (some 0) 1 (some 8) 0), .turn 1 none, .turn 1 none, .turn 1 none, .turn 1 none],
        rfl⟩, rfl, rfl⟩
  exact ⟨p, hreach, hprocs, hflag, flag_of_reachable hreach 0⟩

/-! ## One map -/

/-- The calls that have a turn in a run, as they are before it. -/
def turns (forbids : ω → Bool) : List (Action (AssocCall ω κ ι) (Option ι)) →
    Pool (World ω κ ι) (AssocCall ω κ ι) → List (AssocCall ω κ ι)
  | [], _ => []
  | act :: acts, p =>
    let rest := (step entry (next forbids) p act).elim [] (turns forbids acts)
    match act with
    | .start _ => rest
    | .turn i _ => p.procs[i]?.toList ++ rest

theorem associated_of_turns {acts : List (Action (AssocCall ω κ ι) (Option ι))}
    {q : Pool (World ω κ ι) (AssocCall ω κ ι)} (h : Runs.run (step entry (next forbids)) acts p = some q) :
    associated q.shared.associations =
      (turns forbids acts p).foldl effect (associated p.shared.associations) := by
  induction acts generalizing p with
  | nil =>
    obtain rfl := Option.some.inj h
    rfl
  | cons act acts ih =>
    obtain ⟨p', hstep, hrest⟩ := Option.bind_eq_some_iff.mp h
    rw [ih hrest]
    cases act with
    | start s =>
      obtain ⟨-, rfl⟩ := step_start hstep
      simp only [turns, hstep, Option.elim_some]
    | turn i copied =>
      obtain ⟨s, hi, hturn⟩ := Option.bind_eq_some_iff.mp hstep
      obtain ⟨⟨g', s'⟩, hnext, rfl⟩ := Option.map_eq_some_iff.mp hturn
      simp only [turns, hstep, hi, Option.elim_some, Option.toList_some, List.cons_append, List.nil_append,
        List.foldl_cons]
      rw [← (turn_of_next hnext).associated]

/-- **One map.**  In every run the table of tables is the map of objects and keys that the calls build, each
with one turn of it; a get finds what that map has. -/
theorem associated_of_run {acts : List (Action (AssocCall ω κ ι) (Option ι))}
    (h : Runs.run (step entry (next forbids)) acts ⟨World.initial, []⟩ = some p) :
    associated p.shared.associations =
      (turns forbids acts ⟨World.initial, []⟩).foldl effect (fun _ _ => none) ∧
      ∀ copied o k g' s', next forbids copied p.shared (.get (some o) k) = some (g', s') →
        s' = .found (((turns forbids acts ⟨World.initial, []⟩).foldl effect (fun _ _ => none) o k).getD
          .empty) := by
  have hmap : associated p.shared.associations =
      (turns forbids acts ⟨World.initial, []⟩).foldl effect (fun _ _ => none) := associated_of_turns h
  refine ⟨hmap, fun copied o k g' s' hnext => ?_⟩
  rw [← hmap]
  exact (Prod.mk.inj (Option.some.inj hnext)).2.symm

/-- Two sets of the same key; the one that has the lock later stays. -/
theorem associated_of_run_twice : ∃ acts, ∃ p : Pool (World ℕ ℕ ℕ) (AssocCall ℕ ℕ ℕ),
    Runs.run (step entry (next fun _ => false)) acts ⟨World.initial, []⟩ = some p ∧
    associated p.shared.associations 0 0 = some ⟨1, some 8⟩ ∧
    associated p.shared.associations =
        (turns (fun _ => false) acts ⟨World.initial, []⟩).foldl effect (fun _ _ => none) ∧
      ∀ copied o k g' s', next (fun _ => false) copied p.shared (.get (some o) k) = some (g', s') →
        s' = .found
          (((turns (fun _ => false) acts ⟨World.initial, []⟩).foldl effect (fun _ _ => none) o k).getD
            .empty) := by
  obtain ⟨p, hrun, hlast⟩ : ∃ p : Pool (World ℕ ℕ ℕ) (AssocCall ℕ ℕ ℕ),
      Runs.run (step entry (next fun _ => false)) [.start (.set (some 0) 0 (some 7) 1),
        .start (.set (some 0) 0 (some 8) 1), .turn 1 none, .turn 0 none, .turn 0 none, .turn 1 none]
        ⟨World.initial, []⟩ = some p ∧ associated p.shared.associations 0 0 = some ⟨1, some 8⟩ :=
    ⟨_, rfl, rfl⟩
  exact ⟨_, p, hrun, hlast, associated_of_run hrun⟩

end Runs

end QYInterview.ObjC.Associations
