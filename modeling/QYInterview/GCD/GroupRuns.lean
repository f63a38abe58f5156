import QYInterview.GCD.Group

/-!
# GCD.GroupRuns — what a run of calls of a dispatch group keeps

What holds of the group in every state that calls in any order lead to, as long as none crashes: what the
state word counts, that notifications are neither lost nor doubled, that no waiting call is forgotten and
none returns too early.  Notifications are submitted while the group is empty, if no call enters it between
a leave or notification that found it empty and the snapshot of the list.
-/

namespace QYInterview.GCD.Group

open Interleaving GroupState Runs

universe u

variable {β : Type u} {dg dg' : DispatchGroup β} {s s' : GroupCall β} {choice : Bool} {n i : ℕ}
    {w : BitVec 64}
  {gen : BitVec 32} {timeout : Timeout} {r : Bool} {p p' p₀ : Pool (DispatchGroup β) (GroupCall β)}
  {front back : List (GroupCall β)} {acts : List (Action (GroupCall β) Bool)}

/-! ## The runs -/

/-- The calls that have crashed stay so. -/
theorem not_crashed_of_turn (hturn : next choice dg s = some (dg', s')) (h : .crashed ∉ front ++ s' :: back) :
    s' ≠ .crashed ∧ .crashed ∉ front ++ s :: back := by
  simp only [List.mem_append, List.mem_cons, not_or] at h ⊢
  refine ⟨Ne.symm h.2.1, h.1, ?_, h.2.2⟩
  rintro rfl
  cases hturn

theorem inv_of_reachable (hn : n < 2 ^ 30) (h : Reachable entry next (dispatchGroupCreateWithCount n) p)
    (hcrash : .crashed ∉ p.procs) : Inv n p := by
  refine always (P := fun p => .crashed ∉ p.procs → Inv n p) (fun _ => inv_create hn) ?_ ?_ h hcrash
  · intro p s hp hs hcrash
    exact (hp fun hmem => hcrash (List.mem_append_left _ hmem)).start hs
  · intro dg front s back choice dg' s' hp hnext hcrash
    obtain ⟨hs', hcrash'⟩ := not_crashed_of_turn hnext hcrash
    exact (hp hcrash').turn (turn_of_next hnext) hs'

theorem waits_of_reachable (hn : n < 2 ^ 30) (h : Reachable entry next (dispatchGroupCreateWithCount n) p)
    (hcrash : .crashed ∉ p.procs) (hfits : p.shared.emptied < 2 ^ 32) : Waits p := by
  refine (always (P := fun p => .crashed ∉ p.procs → p.shared.emptied < 2 ^ 32 → Inv n p ∧ Waits p)
    (fun _ _ => ?_)
    ?_ ?_ h hcrash hfits).2
  · refine ⟨inv_create hn, ?_, fun s hs => absurd hs List.not_mem_nil,
      fun _ _ _ hs => absurd hs List.not_mem_nil⟩
    exact congrArg BitVec.toNat (withCount_of_lt hn).2.1
  · intro p s hp hs hcrash hfits
    obtain ⟨hinv, hwaits⟩ := hp (fun hmem => hcrash (List.mem_append_left _ hmem)) hfits
    exact ⟨hinv.start hs, hwaits.start hs⟩
  · intro dg front s back choice dg' s' hp hnext hcrash hfits
    obtain ⟨hs', hcrash'⟩ := not_crashed_of_turn hnext hcrash
    have ht := turn_of_next hnext
    have hle : dg.emptied ≤ dg'.emptied := by
      rcases ht.generation hs' with ⟨he, -⟩ | ⟨he, -⟩ <;> omega
    have hfits' : dg'.emptied < 2 ^ 32 := hfits
    obtain ⟨hinv, hwaits⟩ := hp hcrash' (show dg.emptied < 2 ^ 32 by omega)
    exact ⟨hinv.turn ht hs', hwaits.turn (hinv.loaded s (List.mem_append_right _ List.mem_cons_self))
      ht hs' hfits⟩

/-- **The state word counts.**  However the calls are interleaved, the value is the number of enters that
have not been left, and the generation that of the times the group became empty; to count an enter or a
leave does not touch the flags. -/
theorem counts_of_reachable (hn : n < 2 ^ 30) (h : Reachable entry next (dispatchGroupCreateWithCount n) p)
    (hcrash : .crashed ∉ p.procs) : value p.shared + total leaves p.procs = n + total enters p.procs ∧
      (p.shared.emptied < 2 ^ 32 → (dgStateGen p.shared.dgState).toNat = p.shared.emptied) ∧
      ∀ s choice dg' s', s = .enter ∨ s = .leave → next choice p.shared s = some (dg', s') → s' ≠ .crashed →
        notifs dg'.dgState = notifs p.shared.dgState ∧ waiters dg'.dgState = waiters p.shared.dgState :=
  ⟨(inv_of_reachable hn h hcrash).ledger, fun hfits => (waits_of_reachable hn h hcrash hfits).gen,
    fun _ _ _ _ hcounts hnext hs => (turn_of_next hnext).flags_eq hs hcounts⟩

/-- A group entered twice and waited for, and left twice: the last leave carries into the generation, and
the flag of the waiter is still there. -/
theorem counts_of_reachable_left : ∃ p : Pool (DispatchGroup Unit) (GroupCall Unit),
    p.shared.dgState = 0x100000001 ∧
    p.procs = [.entered, .waitSlow 0 .forever, .left, .leaveCas 0x100000001] ∧
    value p.shared + total leaves p.procs = 1 + total enters p.procs ∧
      (p.shared.emptied < 2 ^ 32 → (dgStateGen p.shared.dgState).toNat = p.shared.emptied) ∧
      ∀ s choice dg' s', s = .enter ∨ s = .leave → next choice p.shared s = some (dg', s') → s' ≠ .crashed →
        notifs dg'.dgState = notifs p.shared.dgState ∧ waiters dg'.dgState = waiters p.shared.dgState :=
  ⟨⟨⟨0x100000001, [], [], 0, [], 1⟩, [.entered, .waitSlow 0 .forever, .left, .leaveCas 0x100000001]⟩,
    rfl, rfl,
    counts_of_reachable (by decide) ⟨[.start .enter, .start (.wait .forever), .start .leave, .start .leave,
      .turn 0 false, .turn 1 false, .turn 1 false, .turn 2 false, .turn 3 false], by decide⟩ (by decide)⟩

/-- A call that cannot go on has returned or sleeps, or waits for the list that another call has taken. -/
theorem quiet_of_none (h : next false dg s = none) :
    (leaving s = 0 ∧ owns s = 0 ∧ rousing s = 0 ∧ inFlight s = 0) ∨ owns s = 1 ∧ dg.dgNotify = [] := by
  cases s with
  | wake w r =>
    simp only [next, dispatchGroupWake] at h
    split_ifs at h with hw hq
    have hn : notifs w = true := by simpa using mt (and_hasNotifs w).mpr hw
    exact Or.inr ⟨congrArg Bool.toNat hn, hq⟩
  | leaveCas oldState =>
    simp only [next] at h
    split_ifs at h
  | submit w r dcs => cases dcs <;> cases h
  | waitCas oldState timeout =>
    simp only [next] at h
    split_ifs at h
  | notifyCas oldState =>
    simp only [next] at h
    split_ifs at h
  | asleep gen timeout ticket => exact Or.inl ⟨rfl, rfl, rfl, rfl⟩
  | entered => exact Or.inl ⟨rfl, rfl, rfl, rfl⟩
  | left => exact Or.inl ⟨rfl, rfl, rfl, rfl⟩
  | waited timedOut => exact Or.inl ⟨rfl, rfl, rfl, rfl⟩
  | notified => exact Or.inl ⟨rfl, rfl, rfl, rfl⟩
  | crashed => exact Or.inl ⟨rfl, rfl, rfl, rfl⟩
  | _ => cases h

theorem quiet_of_stuck (hstuck : Stuck next p) (hinv : Inv n p) :
    total leaving p.procs = 0 ∧ total owns p.procs = 0 ∧
    total rousing p.procs = 0 ∧ total inFlight p.procs = 0 := by
  have hquiet : ∀ s ∈ p.procs, leaving s = 0 ∧ owns s = 0 ∧ rousing s = 0 ∧ inFlight s = 0 := by
    intro s hs
    refine (quiet_of_none (hstuck s hs false)).resolve_right fun ⟨hone, hempty⟩ => ?_
    have howner := hinv.owner
    obtain ⟨front, back, hsplit⟩ := List.append_of_mem hs
    rw [hempty, hsplit, total_split, hone, filled] at howner
    omega
  exact ⟨total_of_forall _ fun s hs => (hquiet s hs).1, total_of_forall _ fun s hs => (hquiet s hs).2.1,
    total_of_forall _ fun s hs => (hquiet s hs).2.2.1, total_of_forall _ fun s hs => (hquiet s hs).2.2.2⟩

/-- The notification an action registers by and by. -/
def notification : Action (GroupCall β) Bool → List β
  | .start (.notify dsn) => [dsn]
  | _ => []

/-- The notifications registered and those of the calls before their first turn are
those of the calls made. -/
theorem registered_of_run (hrun : run (step entry next) acts ⟨dispatchGroupCreateWithCount n, []⟩ = some p)
    (hcrash : .crashed ∉ p.procs) :
    (acts.flatMap notification : Multiset β) = p.shared.registered + total unregistered p.procs := by
  induction acts using List.reverseRecOn generalizing p with
  | nil =>
    cases hrun
    rfl
  | append_singleton acts act ih =>
    rw [run_append] at hrun
    obtain ⟨q, hq, hlast⟩ := Option.bind_eq_some_iff.mp hrun
    rw [run_singleton] at hlast
    rw [List.flatMap_append, List.flatMap_singleton, ← Multiset.coe_add]
    cases act with
    | start s =>
      obtain ⟨hs, rfl⟩ := step_start hlast
      have hnew : (notification (.start s : Action (GroupCall β) Bool) : Multiset β) = unregistered s := by
        cases s with
        | notify dsn => rfl
        | _ => rfl
      rw [ih hq fun hmem => hcrash (List.mem_append_left _ hmem), hnew, total_concat, add_assoc]
    | turn j choice =>
      obtain ⟨front, s, back, g', s', hpool, hnext, rfl, -⟩ := step_turn hlast
      obtain ⟨hs', hcrash'⟩ := not_crashed_of_turn hnext hcrash
      have hturn := (turn_of_next hnext).registers hs'
      rw [ih hq (hpool ▸ hcrash'), congrArg Pool.procs hpool]
      simp only [total_split, notification, Multiset.coe_nil, add_zero]
      rw [add_left_comm, ← hturn]
      ac_rfl

/-- **No notification is lost or doubled.**  Each notification a call was made for is registered once it had
its first turn; each registered one is in the list, on its way or submitted once, and when no call can go on
and the group is empty, all are submitted and the group may be disposed of. -/
theorem submitted_of_run (hn : n < 2 ^ 30)
    (hrun : run (step entry next) acts ⟨dispatchGroupCreateWithCount n, []⟩ = some p)
    (hcrash : .crashed ∉ p.procs) :
    (acts.flatMap notification : Multiset β) = p.shared.registered + total unregistered p.procs ∧
    (p.shared.registered : Multiset β) = p.shared.submitted + total inFlight p.procs + p.shared.dgNotify ∧
      (Stuck next p → value p.shared = 0 → p.shared.submitted.Perm p.shared.registered ∧
        p.shared.submitted.Perm (acts.flatMap notification) ∧ dispatchGroupDispose p.shared = false) := by
  have hinv := inv_of_reachable hn ⟨acts, hrun⟩ hcrash
  have hregistered := registered_of_run hrun hcrash
  refine ⟨hregistered, hinv.blocks, fun hstuck hv => ?_⟩
  obtain ⟨hleaving, howns, -, hflight⟩ := quiet_of_stuck hstuck hinv
  have hunset : ¬ (notifs p.shared.dgState = true ∨ waiters p.shared.dgState = true) := fun hf =>
    absurd (hinv.flags hv hf) (by omega)
  rw [not_or, Bool.not_eq_true, Bool.not_eq_true] at hunset
  have hempty : p.shared.dgNotify = [] := by
    have howner := hinv.owner
    rw [howns, hunset.1] at howner
    by_contra hne
    rw [filled_of_ne hne] at howner
    exact absurd howner (by decide)
  have hsubmitted : (p.shared.submitted : Multiset β) = p.shared.registered := by
    have hblocks := hinv.blocks
    rw [hflight, hempty, Multiset.coe_nil, add_zero, add_zero] at hblocks
    exact hblocks.symm
  have hnone : total unregistered p.procs = 0 := by
    refine total_of_forall _ fun s hs => ?_
    cases s with
    | notify dsn => cases hstuck _ hs false
    | _ => rfl
  refine ⟨Multiset.coe_eq_coe.mp hsubmitted, Multiset.coe_eq_coe.mp ?_, ?_⟩
  · rw [hsubmitted, hregistered, hnone, add_zero]
  · rw [dispatchGroupDispose, (setWidth_eq_zero _).mpr ⟨hv, hunset⟩]
    simp

/-- Two notifications of a group entered once, submitted by the leave. -/
theorem submitted_of_run_two : [1, 2].Perm [1, 2] ∧ [1, 2].Perm [1, 2] ∧
    dispatchGroupDispose (⟨0x100000000, [], [1, 2], 0, [1, 2], 1⟩ : DispatchGroup ℕ) = false := by
  have hrun : run (step entry next) [.start .enter, .start (.notify 1), .start (.notify 2), .start .leave,
      .turn 0 false, .turn 1 false, .turn 1 false, .turn 1 false, .turn 2 false, .turn 3 false, .turn 3 false,
      .turn 3 false, .turn 3 false, .turn 3 false, .turn 3 false, .turn 3 false]
        ⟨dispatchGroupCreateWithCount 0, []⟩ =
      some ⟨⟨0x100000000, [], [1, 2], 0, [1, 2], 1⟩, [.entered, .notified, .notified, .left]⟩ := by decide
  exact (submitted_of_run (by decide) hrun (by decide)).2.2 (by simp [Stuck, next]) (by decide)

/-- **No wake-up is lost.**  When no call can go on and one still waits, the group is not empty. -/
theorem value_of_asleep {ticket : ℕ} (hn : n < 2 ^ 30)
    (h : Reachable entry next (dispatchGroupCreateWithCount n) p) (hcrash : .crashed ∉ p.procs)
    (hfits : p.shared.emptied < 2 ^ 32) (hstuck : Stuck next p)
    (hmem : .asleep gen timeout ticket ∈ p.procs) : value p.shared ≠ 0 := by
  have hinv := inv_of_reachable hn h hcrash
  have hwaits := waits_of_reachable hn h hcrash hfits
  obtain ⟨hleaving, -, hrousing, -⟩ := quiet_of_stuck hstuck hinv
  obtain ⟨hle, hwoken⟩ := hwaits.asleep gen timeout ticket hmem
  have hticket : ¬ ticket < p.shared.wakes := by
    intro hlt
    have hno := hstuck _ hmem false
    simp only [next, if_pos hlt] at hno
    split_ifs at hno
  rcases hwoken (by omega) with hg | hr | ⟨-, hr⟩
  · exact ((hwaits.snapshot _ hmem).2 hg).1
  · omega
  · omega

theorem value_of_asleep_one : value (⟨0xfffffffd, [], [], 0, [], 0⟩ : DispatchGroup Unit) ≠ 0 :=
  value_of_asleep (n := 1) (p := ⟨⟨0xfffffffd, [], [], 0, [], 0⟩, [.asleep 0 .forever 0]⟩) (by decide)
    ⟨[.start (.wait .forever), .turn 0 false, .turn 0 false, .turn 0 false], by decide⟩ (by decide)
      (by decide)
    (by simp [Stuck, next]) List.mem_cons_self

/-! ## A wait that returns -/

/-- A call of `dispatch_group_wait` that has not seen the end of the generation. -/
def Waiting (gen : BitVec 32) : GroupCall β → Prop
  | .wait _ | .waitCas _ _ | .waited true => True
  | .waitSlow g _ | .asleep g _ _ | .reload g _ _ => g = gen
  | _ => False

theorem waiting_waitLoop (hv : dgStateValue w ≠ 0) :
    Waiting (dgStateGen w) (waitLoop w timeout : GroupCall β) := by
  rw [waitLoop]
  split_ifs with hzero hnow hw
  · exact absurd ((and_valueMask_eq_zero _).mp hzero) hv
  · trivial
  · trivial
  · exact (fields_of_upper (setWaiters _).1).1

/-- While the group is not empty, a waiting call goes on waiting or gives up. -/
theorem Turn.waiting (h : Turn dg s dg' s') (hs : Waiting (dgStateGen dg.dgState) s) (hs' : s' ≠ .crashed)
    (hv : value dg ≠ 0) : Waiting (dgStateGen dg.dgState) s' := by
  cases h with
  | crash => exact absurd rfl hs'
  | wait timeout => exact waiting_waitLoop hv
  | waitSet timeout => exact (fields_of_upper (setWaiters _).1).1
  | waitAgain oldState timeout => exact waiting_waitLoop hv
  | waitSlow gen timeout => rcases waitOnAddress_cases gen timeout dg with ⟨h, -⟩ | h <;> rw [h] <;> exact hs
  | roused gen timeout ticket rc => exact hs
  | reload gen timeout rc =>
    have hg : gen = dgStateGen dg.dgState := hs
    rw [dispatchGroupWaitSlow, if_neg (not_not.mpr hg)]
    split_ifs
    · trivial
    · exact hs
  | _ => exact absurd hs id

/-- The generation of a group that is not empty after a step is that before it. -/
theorem gen_of_step {act : Action (GroupCall β) Bool} (h : step entry next p act = some p')
    (hcrash : .crashed ∉ p'.procs) (hv : value p'.shared ≠ 0) :
    dgStateGen p'.shared.dgState = dgStateGen p.shared.dgState ∧ .crashed ∉ p.procs := by
  cases act with
  | start t =>
    obtain ⟨-, rfl⟩ := step_start h
    exact ⟨rfl, fun hmem => hcrash (List.mem_append_left _ hmem)⟩
  | turn j choice =>
    obtain ⟨front, t, back, g', t', hpool, hnext, rfl, -⟩ := step_turn h
    obtain ⟨ht', hcrash'⟩ := not_crashed_of_turn hnext hcrash
    refine ⟨?_, hpool ▸ hcrash'⟩
    rcases (turn_of_next hnext).generation ht' with ⟨-, hg⟩ | ⟨-, -, -, -, -, hzero⟩
    · exact hg
    · exact absurd hzero hv

/-- **A wait returns 0 only when the group has been empty.**  While the group is not empty in any state of a
run, no call of `dispatch_group_wait` that starts before it has returned 0 at its end. -/
theorem not_waited_of_always (hcrash : .crashed ∉ p.procs) (hs : p₀.procs[i]? = some (.wait timeout))
    (hrun : run (step entry next) acts p₀ = some p)
    (h : Always (step entry next) (fun q => value q.shared ≠ 0) acts p₀) :
    p.procs[i]? ≠ some (.waited false) := by
  have key : dgStateGen p.shared.dgState = dgStateGen p₀.shared.dgState ∧
      ∃ s, p.procs[i]? = some s ∧ Waiting (dgStateGen p₀.shared.dgState) s := by
    induction acts using List.reverseRecOn generalizing p with
    | nil =>
      obtain rfl := Option.some.inj hrun
      exact ⟨rfl, _, hs, trivial⟩
    | append_singleton acts act ih =>
      rw [run_append] at hrun
      obtain ⟨q, hq, hlast⟩ := Option.bind_eq_some_iff.mp hrun
      rw [run_singleton] at hlast
      obtain ⟨halways, hp⟩ := (always_concat hq hlast).mp h
      obtain ⟨hgen, hcrash'⟩ := gen_of_step hlast hcrash hp
      obtain ⟨hgen', t, ht, hwaiting⟩ := ih hcrash' hq halways
      refine ⟨hgen.trans hgen', ?_⟩
      rcases step_getElem? hlast ht with hsame | ⟨c, t', hnext, ht'⟩
      · exact ⟨t, hsame, hwaiting⟩
      · refine ⟨t', ht', ?_⟩
        rw [← hgen'] at hwaiting ⊢
        refine (turn_of_next hnext).waiting hwaiting ?_ (halways.last hq)
        rintro rfl
        exact hcrash (List.mem_of_getElem? ht')
  intro hend
  obtain ⟨-, s, hs, hwaiting⟩ := key
  rw [hend] at hs
  cases hs
  exact hwaiting

/-- A wait that falls asleep and gives up, while the group is entered and left once more. -/
theorem not_waited_of_always_asleep :
    [GroupCall.waited (β := Unit) true, .entered, .left][0]? ≠ some (.waited false) := by
  have h0 : Always (step entry next) (fun q : Pool (DispatchGroup Unit) (GroupCall Unit) =>
    value q.shared ≠ 0) []
      ⟨dispatchGroupCreateWithCount 1, [.wait .later, .enter, .leave]⟩ := always_nil.mpr (by decide)
  have h1 := (always_concat rfl (show step entry next _ (.turn 0 false) = _ from rfl)).mpr ⟨h0, by decide⟩
  have h2 := (always_concat rfl (show step entry next _ (.turn 0 false) = _ from rfl)).mpr ⟨h1, by decide⟩
  have h3 := (always_concat rfl (show step entry next _ (.turn 0 false) = _ from rfl)).mpr ⟨h2, by decide⟩
  have h4 := (always_concat rfl (show step entry next _ (.turn 1 false) = _ from rfl)).mpr ⟨h3, by decide⟩
  have h5 := (always_concat rfl (show step entry next _ (.turn 2 false) = _ from rfl)).mpr ⟨h4, by decide⟩
  have h6 := (always_concat rfl (show step entry next _ (.turn 0 true) = _ from rfl)).mpr ⟨h5, by decide⟩
  have h7 := (always_concat rfl (show step entry next _ (.turn 0 false) = _ from rfl)).mpr ⟨h6, by decide⟩
  exact not_waited_of_always (p := ⟨⟨0xfffffffd, [], [], 0, [], 0⟩, [.waited true, .entered, .left]⟩)
    (by decide) rfl
    (by decide) h7

/-! ## The notifications of an empty group -/

/-- A call that has found the group empty and has not taken the list yet. -/
def Committed : GroupCall β → Prop
  | .leaveCas _ => True
  | .wake w _ => notifs w = true
  | _ => False

/-- The step is not an enter before such a call has taken the list. -/
def Undisturbed (p : Pool (DispatchGroup β) (GroupCall β)) (act : Action (GroupCall β) Bool) : Prop :=
  ∀ j c, act = .turn j c → p.procs[j]? = some .enter → ∀ s ∈ p.procs, ¬ Committed s

theorem undisturbed_start (p : Pool (DispatchGroup β) (GroupCall β)) (t : GroupCall β) :
    Undisturbed p (.start t) := by
  intro j c h
  cases h

theorem Idle.not_committed (h : Idle s) : ¬ Committed s := by
  obtain ⟨-, -, howns, hleaving, -, -⟩ := h
  cases s with
  | leaveCas oldState => exact absurd hleaving Nat.one_ne_zero
  | wake w r =>
    intro hc
    exact absurd ((congrArg Bool.toNat hc).symm.trans howns) Nat.one_ne_zero
  | _ => exact id

theorem committed_notifyLoop (h : Committed (notifyLoop w : GroupCall β)) : dgStateValue w = 0 := by
  rcases notifyLoop_cases (β := β) w with ⟨h', -⟩ | ⟨-, hzero⟩
  · rw [h'] at h
    exact absurd h id
  · exact ((setWidth_eq_zero w).mp hzero).1

/-- A call that is on its way to the list finds the group empty, or did so before. -/
theorem Turn.committed (h : Turn dg s dg' s') (hs : Committed s') : value dg' = 0 ∨ Committed s := by
  cases h with
  | last hv => exact Or.inl (add_of_one _ hv).1
  | clear => exact Or.inr trivial
  | leaveAgain oldState => exact Or.inr trivial
  | wakeAddress w r => cases r <;> exact absurd hs id
  | wait timeout => exact absurd hs (idle_waitLoop _ _).not_committed
  | waitAgain oldState timeout => exact absurd hs (idle_waitLoop _ _).not_committed
  | waitSlow gen timeout => exact absurd hs (idle_waitOnAddress _ _).not_committed
  | reload gen timeout rc => exact absurd hs (idle_dispatchGroupWaitSlow _ _ _).not_committed
  | notifyLoad => exact Or.inl (committed_notifyLoop hs)
  | notifyAgain oldState => exact Or.inl (committed_notifyLoop hs)
  | _ => exact absurd hs id

/-- An empty group stays empty until it is entered. -/
theorem Turn.empty (h : Turn dg s dg' s') (hs : s' ≠ .crashed) (hv : value dg = 0) :
    value dg' = 0 ∨ s = .enter := by
  cases h with
  | crash => exact absurd rfl hs
  | enter hlt => exact Or.inr rfl
  | leave hlt =>
    rw [hv] at hlt
    exact absurd hlt (Nat.not_lt_zero _)
  | last hone => exact Or.inl (add_of_one _ hone).1
  | clear => exact Or.inl (value_cleared.trans hv)
  | waitSet timeout => exact Or.inl (value_setWaiters.trans hv)
  | notifySet => exact Or.inl (value_setNotifs.trans hv)
  | _ => exact Or.inl hv

/-- **Notifications of an empty group.**  In a run of undisturbed steps, a call that is about to take the
list of notifications finds the group empty. -/
theorem value_of_wake {dg : DispatchGroup β} (hrun : run (step entry next) acts ⟨dg, []⟩ = some p)
    (h : EveryStep (step entry next) Undisturbed acts ⟨dg, []⟩) (hcrash : .crashed ∉ p.procs)
    (hmem : .wake w r ∈ p.procs) (hw : notifs w = true) : value p.shared = 0 := by
  have key := always_of_step
    (P := fun p => .crashed ∉ p.procs → ∀ s ∈ p.procs, Committed s → value p.shared = 0)
    (G := Undisturbed) (fun _ s hs => absurd hs List.not_mem_nil) (fun p act p' hp hG hstep hcrash => ?_) h
  · exact key.last hrun hcrash _ hmem hw
  cases act with
  | start t =>
    obtain ⟨ht, rfl⟩ := step_start hstep
    intro s hs hc
    rcases List.mem_append.mp hs with hs | hs
    · exact hp (fun hmem => hcrash (List.mem_append_left _ hmem)) s hs hc
    · obtain rfl := List.mem_singleton.mp hs
      exact absurd hc (idle_entry ht).1.not_committed
  | turn j choice =>
    obtain ⟨front, t, back, g', t', hpool, hnext, rfl, hj⟩ := step_turn hstep
    obtain ⟨ht', hcrash'⟩ := not_crashed_of_turn hnext hcrash
    have hempty := hp (hpool ▸ hcrash')
    have hturn := turn_of_next hnext
    have hstays (s : GroupCall β) (hs : s ∈ p.procs) (hc : Committed s) : value g' = 0 := by
      refine (hturn.empty ht' (hempty s hs hc)).resolve_right ?_
      rintro rfl
      exact hG j choice rfl hj s hs hc
    have hmem : t ∈ p.procs := List.mem_of_getElem? hj
    have hsplit : p.procs = front ++ t :: back := congrArg Pool.procs hpool
    intro s hs hc
    rcases List.mem_append.mp hs with hs | hs
    · exact hstays s (hsplit ▸ List.mem_append_left _ hs) hc
    · rcases List.mem_cons.mp hs with rfl | hs
      · exact (hturn.committed hc).elim id fun hc => hstays t hmem hc
      · exact hstays s (hsplit ▸ List.mem_append_right _ (List.mem_cons_of_mem _ hs)) hc

theorem value_of_wake_first : value (⟨0, [()], [], 0, [()], 0⟩ : DispatchGroup Unit) = 0 := by
  have hno (p : Pool (DispatchGroup Unit) (GroupCall Unit)) (s : GroupCall Unit) (hs : s ≠ .enter)
      (hp : p.procs = [s]) (act : Action (GroupCall Unit) Bool) : Undisturbed p act := by
    intro j c _ hj
    have hmem := List.mem_of_getElem? hj
    rw [hp] at hmem
    exact absurd (List.mem_singleton.mp hmem).symm hs
  have h0 : EveryStep (step entry next) Undisturbed []
    (⟨dispatchGroupCreateWithCount 0, []⟩ : Pool (DispatchGroup Unit) _) :=
    fun front act back s heq => by simp at heq
  have h1 := (everyStep_concat rfl).mpr ⟨h0, undisturbed_start _ (.notify ())⟩
  have h2 := (everyStep_concat rfl).mpr ⟨h1, hno _ (.notify ()) (by decide) rfl (.turn 0 false)⟩
  have h3 := (everyStep_concat rfl).mpr ⟨h2, hno _ .notifyLoad (by decide) rfl (.turn 0 false)⟩
  exact value_of_wake (p := ⟨⟨0, [()], [], 0, [()], 0⟩, [.wake 2 false]⟩) (by decide) h3 (by decide)
    List.mem_cons_self (by decide)

/-- The leave finds the group empty with a waiter; before it clears the flag, the group is entered and
notified, and the notification is submitted although the group is not empty since. -/
example : run (step entry next)
    [.start .enter, .start (.wait .forever), .start .leave, .start .enter, .start (.notify ()),
      .turn 0 false, .turn 1 false, .turn 1 false, .turn 2 false, .turn 3 false, .turn 4 false, .turn 4 false,
      .turn 4 false, .turn 2 false, .turn 2 false, .turn 2 false, .turn 2 false]
    ⟨dispatchGroupCreateWithCount 0, []⟩ =
      some ⟨⟨0x1fffffffd, [], [()], 0, [()], 1⟩,
        [.entered, .waitSlow 0 .forever, .submit 0x1ffffffff true [], .entered, .notified]⟩ := by decide

end QYInterview.GCD.Group
