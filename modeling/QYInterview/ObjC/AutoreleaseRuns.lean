import QYInterview.ObjC.AutoreleaseRelease

/-!
# ObjC.AutoreleaseRuns — autorelease pools over the life of a thread

A thread pushes pools, autoreleases objects and pops the tokens it holds, in any order; the token of an
outer pool pops the inner ones with it.  The abstract model is `Spec`: the open pools, each with the objects
in it.  Every run does what the model does (`halts_runAll`), and when the thread ends every object has been
released once for each time it was autoreleased (`halts_thread`).  `runWith_popSlotIf` answers the question
of the comment in `releaseUntil`.
-/

namespace QYInterview.ObjC.AutoreleasePool

open RunLogic

universe u

/-- What a thread does with its pools; `pop k` is with the token of the pool with `k` others inside it. -/
inductive Action (ω : Type u)
  | push
  | autorelease (obj : ω)
  | pop (k : ℕ)
  deriving DecidableEq, Repr

/-- The thread with the tokens it holds, and the objects. -/
structure World (ω W : Type u) where
  tls : Tls ω
  tokens : List Token
  world : W

/-- The open pools, the innermost one first; the last is for the objects that are in no pool. -/
structure Spec (ω W : Type u) where
  pools : List (Multiset ω)
  world : W

variable {ω W : Type u}

/-- The objects an action puts into a pool. -/
def Action.objects : Action ω → Multiset ω
  | .autorelease obj => {obj}
  | _ => 0

/-! ## The abstract model -/

namespace Spec

variable (rt : Runtime ω W)

/-- A pop releases the objects of the pool and of those inside it, and all that is autoreleased meanwhile,
in some order. -/
inductive Step : Spec ω W → Action ω → Spec ω W → Prop
  | push (ps : List (Multiset ω)) (w : W) : Step ⟨ps, w⟩ .push ⟨0 :: ps, w⟩
  | autorelease (p : Multiset ω) (ps : List (Multiset ω)) (w : W) (obj : ω) :
      Step ⟨p :: ps, w⟩ (.autorelease obj) ⟨(obj ::ₘ p) :: ps, w⟩
  | pop (ps : List (Multiset ω)) (w : W) (k : ℕ) (rel : List ω) (hk : k + 1 < ps.length)
      (hrel : (rel : Multiset ω) = (ps.take (k + 1)).sum + (releaseAll rt rel w).2) :
      Step ⟨ps, w⟩ (.pop k) ⟨ps.drop (k + 1), (releaseAll rt rel w).1⟩
  | noPool (ps : List (Multiset ω)) (w : W) (k : ℕ) (hk : ps.length ≤ k + 1) : Step ⟨ps, w⟩ (.pop k) ⟨ps, w⟩

/-- The actions one after the other. -/
inductive Run : Spec ω W → List (Action ω) → Spec ω W → Prop
  | nil (s : Spec ω W) : Run s [] s
  | cons {s s' s'' : Spec ω W} {act : Action ω} {acts : List (Action ω)} (hstep : Step rt s act s')
      (hrun : Run s' acts s'') : Run s (act :: acts) s''

variable {rt} {s s' : Spec ω W} {act : Action ω} {acts : List (Action ω)}

/-- What has been released and what is in the pools is what there was with what came up. -/
theorem Step.accounted (h : Step rt s act s') : ∃ rel, s'.world = (releaseAll rt rel s.world).1 ∧
    (rel : Multiset ω) + s'.pools.sum = s.pools.sum + act.objects + (releaseAll rt rel s.world).2 := by
  cases h with
  | push ps w => exact ⟨[], rfl, by simp [releaseAll, Action.objects]⟩
  | autorelease p ps w obj =>
    refine ⟨[], rfl, ?_⟩
    simp only [releaseAll, Action.objects, List.sum_cons, ← Multiset.singleton_add, Multiset.coe_nil,
      zero_add, add_zero]
    ac_rfl
  | pop ps w k rel hk hrel =>
    refine ⟨rel, rfl, ?_⟩
    have hsum := List.sum_take_add_sum_drop ps (k + 1)
    rw [hrel, ← hsum]
    simp only [Action.objects, add_zero]
    ac_rfl
  | noPool ps w k hk => exact ⟨[], rfl, by simp [releaseAll, Action.objects]⟩

theorem Run.accounted (h : Run rt s acts s') : ∃ rel, s'.world = (releaseAll rt rel s.world).1 ∧
    (rel : Multiset ω) + s'.pools.sum =
      s.pools.sum + (acts.map Action.objects).sum + (releaseAll rt rel s.world).2 := by
  induction h with
  | nil s => exact ⟨[], rfl, by simp [releaseAll]⟩
  | @cons s s₁ s₂ act acts hstep _ ih =>
    obtain ⟨rel, hw, hrel⟩ := hstep.accounted
    obtain ⟨rel', hw', hrel'⟩ := ih
    refine ⟨rel ++ rel', ?_, ?_⟩
    · rw [releaseAll_append, ← hw, ← hw']
    · rw [releaseAll_append, ← hw, ← Multiset.coe_add, add_assoc, hrel', List.map_cons, List.sum_cons,
        ← add_assoc, ← add_assoc, hrel]
      dsimp only
      ac_rfl

end Spec

/-! ## The runs of the code -/

section Runs

variable [DecidableEq ω] (rt : Runtime ω W)

/-- A way to the hottest slot, such as `popSlot`. -/
abbrev Next (ω : Type u) : Type u :=
  List (AutoreleasePoolPage ω) → AutoreleasePoolPage ω → List (AutoreleasePoolPage ω) →
    Option (Slot ω × Tls ω)

/-- One action. -/
def stepWith (next : Next ω) (s : World ω W) : Action ω → Prog (World ω W)
  | .push => pure ⟨(push rt s.tls).1, (push rt s.tls).2 :: s.tokens, s.world⟩
  | .autorelease obj => pure { s with tls := autorelease rt s.tls obj }
  | .pop k =>
    match s.tokens[k]? with
    | none => pure s
    | some token => do
      let (tls, w) ← popWith rt next token (s.tls, s.world)
      pure ⟨tls, s.tokens.drop (k + 1), w⟩

/-- The actions one after the other. -/
def runWith (next : Next ω) : List (Action ω) → World ω W → Prog (World ω W)
  | [], s => pure s
  | act :: acts, s => do
    let s' ← stepWith rt next s act
    runWith next acts s'

/-- The actions of a thread. -/
def runAll : List (Action ω) → World ω W → Prog (World ω W) := runWith rt popSlot

/-- The pages of the code against the pools of the model. -/
structure Matches (rt : Runtime ω W) (s : World ω W) (spec : Spec ω W) : Prop where
  wf : Wf rt.capacity s.tls
  tokens : List.Forall₂ (Points rt.capacity s.tls) (boundaries (stack s.tls)) s.tokens
  pools_eq : pools (stack s.tls) = spec.pools
  world : s.world = spec.world

variable {rt} {s : World ω W} {spec : Spec ω W}

omit [DecidableEq ω] in
/-- A token keeps its height while its page stays where it is. -/
theorem Points.of_addresses {capacity : ℕ} {tls tls' : Tls ω} {h : ℕ} {token : Token}
    (htoken : Points capacity tls h token)
    (haddr : ∀ d address, d * capacity ≤ h → (addresses tls)[d]? = some address →
      (addresses tls')[d]? = some address) : Points capacity tls' h token := by
  cases token with
  | emptyPoolPlaceholder => exact htoken
  | slot address i =>
    obtain ⟨d, hd, hi, rfl⟩ := htoken
    exact ⟨d, haddr d address (Nat.le_add_right _ _) hd, hi, rfl⟩

omit [DecidableEq ω] in
theorem Matches.length_eq (h : Matches rt s spec) : spec.pools.length = s.tokens.length + 1 := by
  rw [← h.pools_eq, length_pools, h.tokens.length_eq]

theorem Matches.push (h : Matches rt s spec) :
    Matches rt ⟨(AutoreleasePool.push rt s.tls).1, (AutoreleasePool.push rt s.tls).2 :: s.tokens, s.world⟩
      ⟨0 :: spec.pools, spec.world⟩ := by
  have hext := extended_autoreleaseFast none h.wf
  have hstack : stack (AutoreleasePool.push rt s.tls).1 = none :: stack s.tls := hext.pushed
  refine ⟨hext.wf, ?_, ?_, h.world⟩
  · rw [hstack]
    refine List.Forall₂.cons (hext.token rfl) (h.tokens.imp ?_)
    intro height token htoken
    exact htoken.of_addresses fun d address _ hd => getElem?_of_prefix hext.addresses hd
  · rw [hstack, ← h.pools_eq]
    rfl

theorem Matches.autorelease (h : Matches rt s spec) (obj : ω) :
    Matches rt { s with tls := AutoreleasePool.autorelease rt s.tls obj }
      ⟨spec.pools.modifyHead (obj ::ₘ ·), spec.world⟩ := by
  have hext := extended_autoreleaseFast (some obj) h.wf
  have hadded : Added obj (stack s.tls) (stack (AutoreleasePool.autorelease rt s.tls obj)) := hext.pushed
  refine ⟨hext.wf, ?_, ?_, h.world⟩
  · rw [boundaries_of_added hadded]
    refine h.tokens.imp ?_
    intro height token htoken
    exact htoken.of_addresses fun d address _ hd => getElem?_of_prefix hext.addresses hd
  · rw [pools_of_added hadded, h.pools_eq]

/-- What `pop` of a token that is held does to the pages. -/
theorem Matches.halts_pop (hspawns : WellFounded (Spawns rt)) (h : Matches rt s spec) {k : ℕ} {token : Token}
    (htoken : s.tokens[k]? = some token) :
    Halts (pop rt token (s.tls, s.world)) fun r => ∃ a b, stack s.tls = a ++ none :: b ∧
      (boundaries a).length = k ∧ Points rt.capacity s.tls b.length token ∧
      pools a = spec.pools.take (k + 1) ∧ pools b = spec.pools.drop (k + 1) ∧
      boundaries b = (boundaries (stack s.tls)).drop (k + 1) ∧
      Popped rt s.tls s.world (a ++ [none]) b r := by
  have hlt : k < (boundaries (stack s.tls)).length := by
    rw [h.tokens.length_eq]
    exact (List.getElem?_eq_some_iff.mp htoken).1
  obtain ⟨a, b, hstack, hb, ha, hdrop⟩ := exists_of_boundaries (List.getElem?_eq_getElem hlt)
  have hpoints : Points rt.capacity s.tls b.length token := by
    obtain ⟨hlt', rfl⟩ := List.getElem?_eq_some_iff.mp htoken
    rw [hb]
    exact h.tokens.get hlt hlt'
  have hpools : spec.pools = pools a ++ pools b := by rw [← h.pools_eq, hstack, pools_append]
  have hlen : (pools a).length = k + 1 := by rw [length_pools, ha]
  refine (AutoreleasePool.halts_pop hspawns s.world h.wf hstack hpoints).mono fun r hr => ?_
  refine ⟨a, b, hstack, ha, hpoints, ?_, ?_, hdrop, hr⟩
  · rw [hpools, ← hlen, List.take_left]
  · rw [hpools, ← hlen, List.drop_left]

omit [DecidableEq ω] in
theorem Matches.popped (h : Matches rt s spec) {k : ℕ} {a b : List (Slot ω)} {r : Tls ω × W}
    (hdrop : boundaries b = (boundaries (stack s.tls)).drop (k + 1))
    (hpools : pools b = spec.pools.drop (k + 1)) (hr : Popped rt s.tls s.world a b r) :
    Matches rt ⟨r.1, s.tokens.drop (k + 1), r.2⟩ ⟨spec.pools.drop (k + 1), r.2⟩ := by
  refine ⟨hr.wf, ?_, by rw [hr.stack_eq, hpools], rfl⟩
  rw [hr.stack_eq, hdrop]
  have htokens := List.forall₂_drop (k + 1) h.tokens
  rw [← hdrop] at htokens ⊢
  rw [List.forall₂_iff_get] at htokens ⊢
  refine ⟨htokens.1, fun i hi hi' => (htokens.2 i hi hi').of_addresses ?_⟩
  intro d address hd haddr
  rw [hr.kept d (hd.trans (lt_of_mem_boundaries (List.getElem_mem hi)).le), haddr]

/-- **One action.** -/
theorem Matches.halts_step (hspawns : WellFounded (Spawns rt)) (h : Matches rt s spec) (act : Action ω) :
    Halts (stepWith rt popSlot s act) fun s' => ∃ spec', Spec.Step rt spec act spec' ∧
      Matches rt s' spec' := by
  obtain ⟨ps, w⟩ := spec
  cases act with
  | push => exact halts_pure ⟨_, Spec.Step.push ps w, h.push⟩
  | autorelease obj =>
    have hmatch := h.autorelease obj
    obtain ⟨p, ps', rfl⟩ : ∃ p ps', ps = p :: ps' := by
      refine List.exists_cons_of_ne_nil ?_
      rw [← show pools (stack s.tls) = ps from h.pools_eq]
      exact pools_ne_nil _
    exact halts_pure ⟨_, Spec.Step.autorelease p ps' w obj, hmatch⟩
  | pop k =>
    have hlen : ps.length = s.tokens.length + 1 := h.length_eq
    rw [stepWith]
    cases htoken : s.tokens[k]? with
    | none =>
      have hk := List.getElem?_eq_none_iff.mp htoken
      exact halts_pure ⟨_, Spec.Step.noPool ps w k (by omega), h⟩
    | some token =>
      have hk := (List.getElem?_eq_some_iff.mp htoken).1
      refine halts_bind ((h.halts_pop hspawns htoken).mono ?_)
      rintro ⟨tls', w'⟩ ⟨a, b, hstack, -, -, hpa, hpb, hdrop, hr⟩
      have hmatch := h.popped hdrop hpb hr
      obtain ⟨rel, hw', hrel⟩ := hr.released
      have hworld : s.world = w := h.world
      rw [contents_append, ← sum_pools a, hpa, hworld] at hrel
      have hstep : Spec.Step rt ⟨ps, w⟩ (.pop k) ⟨ps.drop (k + 1), (releaseAll rt rel w).1⟩ :=
        Spec.Step.pop ps w k rel (by omega) (by simpa [contents] using hrel)
      have hw'' : w' = (releaseAll rt rel w).1 := by rw [← hworld]; exact hw'
      subst hw''
      exact halts_pure ⟨_, hstep, hmatch⟩

/-- The thread before its first action. -/
def World.initial (w : W) : World ω W := ⟨.nil, [], w⟩

omit [DecidableEq ω] in
theorem matches_initial (w : W) : Matches rt (World.initial w) ⟨[0], w⟩ :=
  ⟨trivial, List.Forall₂.nil, rfl, rfl⟩

theorem Matches.halts_run (hspawns : WellFounded (Spawns rt)) (h : Matches rt s spec)
    (acts : List (Action ω)) :
    Halts (runAll rt acts s) fun s' => ∃ spec', Spec.Run rt spec acts spec' ∧ Matches rt s' spec' := by
  induction acts generalizing s spec with
  | nil => exact halts_pure ⟨spec, Spec.Run.nil spec, h⟩
  | cons act acts ih =>
    refine halts_bind ((h.halts_step hspawns act).mono ?_)
    rintro s₁ ⟨spec₁, hstep, hmatch⟩
    refine (ih hmatch).mono ?_
    rintro s₂ ⟨spec₂, hrun, hmatch'⟩
    exact ⟨spec₂, Spec.Run.cons hstep hrun, hmatch'⟩

/-! ## Results -/

/-- Pages of two slots, and objects that autorelease the next smaller one when they are released; the world
counts the releases. -/
def countdown : Runtime ℕ ℕ where
  mode := ⟨false, false⟩
  capacity := 2
  two_le_capacity := le_rfl
  malloc live := live.sum + 1
  malloc_fresh live := by
    intro hmem
    have hle := List.single_le_sum (fun _ _ => Nat.zero_le _) _ hmem
    omega
  objcRelease obj w := (w + 1, List.range obj |>.drop (obj - 1))

theorem wellFounded_countdown : WellFounded (Spawns countdown) := by
  refine Subrelation.wf ?_ Nat.lt_wfRel.wf
  rintro other obj ⟨w, h⟩
  exact List.mem_range.mp (List.mem_of_mem_drop h)

/-- **Every run of a thread does what the model does.** -/
theorem halts_runAll (hspawns : WellFounded (Spawns rt)) (acts : List (Action ω)) (w : W) :
    Halts (runAll rt acts (World.initial w)) fun s => ∃ spec, Spec.Run rt ⟨[0], w⟩ acts spec ∧
      pools (stack s.tls) = spec.pools ∧ s.world = spec.world := by
  refine ((matches_initial w).halts_run hspawns acts).mono ?_
  rintro s ⟨spec, hrun, hmatch⟩
  exact ⟨spec, hrun, hmatch.pools_eq, hmatch.world⟩

theorem halts_runAll_countdown :
    Halts (runAll countdown [.push, .autorelease 2, .push, .autorelease 1, .pop 1] (World.initial 0)) fun s =>
      ∃ spec, Spec.Run countdown ⟨[0], 0⟩ [.push, .autorelease 2, .push, .autorelease 1, .pop 1] spec ∧
        pools (stack s.tls) = spec.pools ∧ s.world = spec.world :=
  halts_runAll wellFounded_countdown _ _

theorem halts_tlsDealloc (hspawns : WellFounded (Spawns rt)) {tls : Tls ω} (w : W)
    (hwf : Wf rt.capacity tls) :
    Halts (tlsDealloc rt (tls, w)) fun r => r.1 = .nil ∧ ∃ rel, r.2 = (releaseAll rt rel w).1 ∧
      (rel : Multiset ω) = contents (stack tls) + (releaseAll rt rel w).2 := by
  have htwo := rt.two_le_capacity
  rw [tlsDealloc, List.head?_eq_getElem?]
  cases hcold : (pages (tls, w).1)[0]? with
  | none =>
    refine halts_pure ⟨rfl, [], rfl, ?_⟩
    cases tls with
    | nil => rfl
    | emptyPoolPlaceholder => rfl
    | hotPage parents page children => simp [pages] at hcold
  | some cold =>
    have hslots : cold.slots.length = min rt.capacity (stack tls).length := by
      simpa using length_slots hwf hcold
    dsimp only
    split
    · rename_i hempty
      have hnil : stack tls = [] := by
        rw [List.isEmpty_iff.mp hempty, List.length_nil] at hslots
        exact List.length_eq_zero_iff.mp (by omega)
      rw [pure_bind]
      exact halts_pure ⟨rfl, [], rfl, by rw [hnil]; rfl⟩
    · have haddr : (addresses tls)[0]? = some cold.address := by
        rw [addresses, List.getElem?_map]
        exact congrArg _ hcold
      refine halts_bind ((halts_popSlotOf hspawns w hwf (d := 0) haddr (by omega) (by simp)
        (List.append_nil _).symm (Or.inl rfl) (Or.inr ⟨rfl, rfl⟩)).mono ?_)
      rintro ⟨tls', w'⟩ hr
      exact halts_pure ⟨rfl, hr.released⟩

/-- **When the thread ends, each object has been released as often as it was
autoreleased,** and no page is left. -/
theorem halts_thread (hspawns : WellFounded (Spawns rt)) (acts : List (Action ω)) (w : W) :
    Halts (do
      let s ← runAll rt acts (World.initial w)
      tlsDealloc rt (s.tls, s.world)) fun r => r.1 = .nil ∧ ∃ rel, r.2 = (releaseAll rt rel w).1 ∧
        (rel : Multiset ω) = (acts.map Action.objects).sum + (releaseAll rt rel w).2 := by
  refine halts_bind (((matches_initial w).halts_run hspawns acts).mono ?_)
  rintro s ⟨spec, hrun, hmatch⟩
  refine (halts_tlsDealloc hspawns s.world hmatch.wf).mono ?_
  rintro ⟨tls, w'⟩ ⟨hnil, rel', hw', hrel'⟩
  obtain ⟨rel, hw, hrel⟩ := hrun.accounted
  rw [← hmatch.world] at hw
  refine ⟨hnil, rel ++ rel', ?_, ?_⟩
  · rw [releaseAll_append, ← hw]
    exact hw'
  · rw [releaseAll_append, ← hw, ← Multiset.coe_add, hrel', ← sum_pools, hmatch.pools_eq, ← add_assoc, hrel]
    simp only [List.sum_cons, List.sum_nil, zero_add, add_zero, add_assoc]

theorem halts_thread_countdown :
    Halts (do
      let s ← runAll countdown [.autorelease 3, .push, .autorelease 3] (World.initial 0)
      tlsDealloc countdown (s.tls, s.world)) fun r => r.1 = .nil ∧
        ∃ rel, r.2 = (releaseAll countdown rel 0).1 ∧
        (rel : Multiset ℕ) =
          (([.autorelease 3, .push, .autorelease 3] : List (Action ℕ)).map Action.objects).sum +
            (releaseAll countdown rel 0).2 :=
  halts_thread wellFounded_countdown _ _

/-- **A pop leaves what is below the token as it is,** page by page,
and keeps at most one page that is not needed. -/
theorem length_pages_pop (hspawns : WellFounded (Spawns rt)) {acts : List (Action ω)} {w : W} {k : ℕ}
    (hrun : Returns (runAll rt acts (World.initial w)) s) (hk : k < s.tokens.length) :
    Halts (stepWith rt popSlot s (.pop k)) fun s' => ∃ token a b, s.tokens[k]? = some token ∧
      stack s.tls = a ++ none :: b ∧ (boundaries a).length = k ∧ Points rt.capacity s.tls b.length token ∧
      stack s'.tls = b ∧ s'.tokens = s.tokens.drop (k + 1) ∧
      (∀ d, d * rt.capacity ≤ b.length →
        Option.Rel (fun p q : AutoreleasePoolPage ω => q.address = p.address ∧ q.slots <:+ p.slots)
          (pages s.tls)[d]? (pages s'.tls)[d]?) ∧
      (pages s'.tls).length ≤ (b.length + rt.capacity - 1) / rt.capacity + 1 := by
  obtain ⟨s₁, hrun', spec, -, hmatch⟩ := (matches_initial w).halts_run hspawns acts
  obtain rfl := hrun.unique hrun'
  have htoken := List.getElem?_eq_getElem hk
  rw [stepWith, htoken]
  refine halts_bind ((hmatch.halts_pop hspawns htoken).mono ?_)
  rintro ⟨tls', w'⟩ ⟨a, b, hstack, ha, hpoints, -, -, -, hr⟩
  have hst : stack tls' = b := hr.stack_eq
  refine halts_pure ⟨_, a, b, rfl, hstack, ha, hpoints, hst, rfl, fun d hd => ?_, hr.length_le⟩
  have hsuf : stack tls' <:+ stack s.tls := by
    rw [hst, hstack]
    exact ⟨a ++ [none], by simp⟩
  have haddr := hr.kept d hd
  rw [addresses, addresses, List.getElem?_map, List.getElem?_map] at haddr
  cases hp : (pages s.tls)[d]? with
  | none =>
    rw [hp, Option.map_none, Option.map_eq_none_iff] at haddr
    rw [haddr]
    exact Option.Rel.none
  | some p =>
    rw [hp, Option.map_some, Option.map_eq_some_iff] at haddr
    obtain ⟨q, hq, haddress⟩ := haddr
    rw [hq]
    exact Option.Rel.some ⟨haddress, suffix_slots hmatch.wf hr.wf hsuf hp hq⟩

/-- Five slots on three pages; the pop of the second pool leaves the first page and
one slot of the second one. -/
theorem length_pages_pop_three : ∃ s, Returns (runAll countdown
      [.push, .autorelease 2, .autorelease 1, .push, .autorelease 3] (World.initial 0)) s ∧
    (pages s.tls).map (·.slots.length) = [2, 2, 1] ∧
    Halts (stepWith countdown popSlot s (.pop 0)) fun s' => ∃ token a b, s.tokens[0]? = some token ∧
      stack s.tls = a ++ none :: b ∧ (boundaries a).length = 0 ∧
      Points countdown.capacity s.tls b.length token ∧
      stack s'.tls = b ∧ s'.tokens = s.tokens.drop (0 + 1) ∧
      (∀ d, d * countdown.capacity ≤ b.length →
        Option.Rel (fun p q : AutoreleasePoolPage ℕ => q.address = p.address ∧ q.slots <:+ p.slots)
          (pages s.tls)[d]? (pages s'.tls)[d]?) ∧
      (pages s'.tls).length ≤ (b.length + countdown.capacity - 1) / countdown.capacity + 1 := by
  have hrun : Returns (runAll countdown [.push, .autorelease 2, .autorelease 1, .push, .autorelease 3]
      (World.initial 0)) _ :=
    returns_bind (returns_pure _) (returns_bind (returns_pure _) (returns_bind (returns_pure _)
      (returns_bind (returns_pure _) (returns_bind (returns_pure _) (returns_pure _)))))
  exact ⟨_, hrun, by decide, length_pages_pop wellFounded_countdown hrun (by decide)⟩

/-! ## The loop that could be a branch -/

/-- `popSlot` with `if (page->empty())` instead of `while (page->empty())`. -/
def popSlotIf : Next ω
  | parents, ⟨address, slot :: slots⟩, children => some (slot, .hotPage parents ⟨address, slots⟩ children)
  | ⟨address', slot :: slots⟩ :: parents, ⟨address, []⟩, children =>
    some (slot, .hotPage parents ⟨address', slots⟩ (⟨address, []⟩ :: children))
  | _, ⟨_, []⟩, _ => none

omit [DecidableEq ω] in
theorem popSlotIf_eq {capacity : ℕ} (hcap : 0 < capacity) {parents children : List (AutoreleasePoolPage ω)}
    {page : AutoreleasePoolPage ω} (h : WfPages capacity parents page children) :
    popSlotIf parents page children = popSlot parents page children := by
  obtain ⟨address, slots⟩ := page
  cases slots with
  | cons slot slots => rw [popSlotIf, popSlot]
  | nil =>
    cases parents with
    | nil => rfl
    | cons parent parents =>
      have hfull := h.full parent (by simp)
      obtain ⟨address', slots'⟩ := parent
      cases slots' with
      | nil =>
        rw [List.length_nil] at hfull
        omega
      | cons slot slots' => rw [popSlotIf, popSlot, popSlot]

omit [DecidableEq ω] in
theorem wf_popSlot {capacity : ℕ} (hcap : 0 < capacity) {parents children : List (AutoreleasePoolPage ω)}
    {page : AutoreleasePoolPage ω} {slot : Slot ω} {tls : Tls ω} (h : WfPages capacity parents page children)
    (hpop : popSlot parents page children = some (slot, tls)) : Wf capacity tls := by
  cases hstack : stack (.hotPage parents page children) with
  | cons slot' s =>
    obtain ⟨tls', hpop', hwf, -, -⟩ := popSlot_spec hcap h hstack
    obtain ⟨-, rfl⟩ := Prod.mk.inj (Option.some.inj (hpop.symm.trans hpop'))
    exact hwf
  | nil =>
    rw [h.stack_eq, List.append_eq_nil_iff] at hstack
    obtain ⟨address, slots⟩ := page
    obtain rfl : slots = [] := hstack.1
    cases parents with
    | nil => cases hpop
    | cons parent parents =>
      have hfull := h.full parent (by simp)
      have hnil := List.flatMap_eq_nil_iff.mp hstack.2 parent (by simp)
      rw [hnil, List.length_nil] at hfull
      omega

/-- Every turn of `releaseUntil` leaves the pages in order, wherever it is to stop. -/
theorem yields_releaseTurn {address stop : ℕ} {r : Tls ω × W} (hwf : Wf rt.capacity r.1) :
    Yields (releaseTurn rt popSlot address stop r)
      (Turn.Good (fun r' => Wf rt.capacity r'.1) fun _ => True) := by
  have htwo := rt.two_le_capacity
  obtain ⟨tls, w⟩ := r
  rw [releaseTurn]
  split
  · exact yields_trap
  · split
    · exact yields_pure trivial
    · cases tls with
      | hotPage parents page children =>
        dsimp only
        cases hpop : popSlot parents page children with
        | none => exact yields_trap
        | some found =>
          obtain ⟨slot, tls'⟩ := found
          have hwf' := wf_popSlot (by omega) hwf hpop
          cases slot with
          | none => exact yields_pure hwf'
          | some entry =>
            obtain ⟨_, -, -, -, -, hwf'', -⟩ := releaseTimes_spec entry.ptr (entry.count + 1) w hwf'
              (List.append_nil _).symm (Or.inl rfl)
            exact yields_pure hwf''
      | _ => exact yields_trap

theorem releaseUntil_popSlotIf {address stop : ℕ} {r : Tls ω × W} (hwf : Wf rt.capacity r.1) :
    releaseUntilWith rt popSlotIf address stop r = releaseUntilWith rt popSlot address stop r := by
  have htwo := rt.two_le_capacity
  refine loop_congr (fun r => Wf rt.capacity r.1) (fun r hr => yields_releaseTurn hr) ?_ hwf
  rintro ⟨tls, w⟩ hr
  cases tls with
  | hotPage parents page children =>
    rw [releaseTurn, releaseTurn]
    dsimp only
    rw [popSlotIf_eq (by omega) hr]
  | _ => rfl

theorem popWith_popSlotIf {token : Token} {r : Tls ω × W} (hwf : Wf rt.capacity r.1) :
    popWith rt popSlotIf token r = popWith rt popSlot token r := by
  have hslot : ∀ address stop, popSlotOf rt popSlotIf address stop r =
      popSlotOf rt popSlot address stop r := by
    intro address stop
    rw [popSlotOf, popSlotOf, popPageWith, popPageWith, releaseUntil_popSlotIf hwf]
  cases token with
  | slot address index => exact hslot address index
  | emptyPoolPlaceholder =>
    rw [popWith, popWith]
    cases (pages r.1).head? with
    | none => rfl
    | some coldPage => exact hslot coldPage.address 0

/-- **The `while` of `releaseUntil` can be an `if`.** -/
theorem returns_runWith_popSlotIf (hspawns : WellFounded (Spawns rt)) (acts : List (Action ω)) (w : W) :
    Halts (runAll rt acts (World.initial w)) (Returns (runWith rt popSlotIf acts (World.initial w))) := by
  suffices h : ∀ (s : World ω W) (spec : Spec ω W), Matches rt s spec →
      Halts (runAll rt acts s) (Returns (runWith rt popSlotIf acts s)) from h _ _ (matches_initial w)
  induction acts with
  | nil =>
    intro s spec h
    exact halts_pure (returns_pure s)
  | cons act acts ih =>
    intro s spec h
    have hstep : stepWith rt popSlotIf s act = stepWith rt popSlot s act := by
      cases act with
      | pop k =>
        rw [stepWith, stepWith]
        cases s.tokens[k]? with
        | none => rfl
        | some token =>
          dsimp only
          rw [popWith_popSlotIf h.wf]
      | _ => rfl
    obtain ⟨s', hs', spec', -, h'⟩ := h.halts_step hspawns act
    obtain ⟨s'', hs'', hif⟩ := ih s' spec' h'
    refine ⟨s'', returns_bind hs' hs'', ?_⟩
    rw [runWith, hstep]
    exact returns_bind hs' hif

theorem returns_runWith_popSlotIf_countdown :
    Halts (runAll countdown [.push, .autorelease 2, .autorelease 2, .push, .pop 1] (World.initial 0))
      (Returns (runWith countdown popSlotIf [.push, .autorelease 2, .autorelease 2, .push, .pop 1]
        (World.initial 0))) :=
  returns_runWith_popSlotIf wellFounded_countdown _ _

end Runs

end QYInterview.ObjC.AutoreleasePool
