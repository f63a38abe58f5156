import QYInterview.ObjC.Messenger

/-!
# ObjC.MessengerEdits — changing methods under the caches

`class_addMethod`, `class_replaceMethod`, `method_setImplementation`, `method_exchangeImplementations`, the
attaching of categories and `objc_allocateClassPair`, with the caches each of them flushes.  An operation
flushes every cache that would otherwise disagree with the method lists it leaves (`halts_attach`,
`halts_setCells`), so the caches stay coherent, and does to the method tables what the operation of
`Runtime` does.
-/

namespace QYInterview.ObjC

open RunLogic Dispatch Cache

namespace Objc

variable {κ ς ι : Type} [DecidableEq κ] [LinearOrder ς] {env : Env κ ς ι} {st st' : Objc κ ς ι}
    {cls : κ} {sel : ς}

/-! ## Flushing -/

/-- A flush changes caches only; what a cache keeps it had, and was not to be flushed. -/
structure Flushed (env : Env κ ς ι) (below : Option κ) (flush : κ → Bool) (visited : List κ)
    (st st' : Objc κ ς ι) :
    Prop where
  same : Same st st'
  caches : ∀ c, (st'.cache c).IsMemo env.arch env.value
  kept : ∀ c s v, (st'.cache c).find s = some v →
    (st.cache c).find s = some v ∧ ¬ (c ∈ visited ∧ (∀ d ∈ below, d ∈ st.classes.line c) ∧ flush c = true)

theorem halts_flushCaches {below : Option κ} {predicate : Objc κ ς ι → κ → Prog Bool} (flush : κ → Bool)
    (hcaches : ∀ c, (st.cache c).IsMemo env.arch env.value) (hnodup : st.realized.Nodup)
    (hpred : ∀ st' c, st'.cache c = st.cache c → Returns (predicate st' c) (flush c)) :
    Halts (st.flushCaches below predicate) (Flushed env below flush st.realized st) := by
  refine (halts_forEach (fun visited st' => Flushed env below flush visited st st' ∧
    ∀ c, c ∉ visited → st'.cache c = st.cache c) ?_ ⟨⟨Same.refl st, hcaches, ?_⟩, fun _ _ => rfl⟩).mono
      fun _ h => h.1
  · rintro visited c rest s hsplit ⟨hflushed, hrest⟩
    have hc : c ∉ visited := by
      intro hmem
      rw [hsplit] at hnodup
      exact (List.nodup_append.mp hnodup).2.2 c hmem c List.mem_cons_self rfl
    have hline : s.classes = st.classes := hflushed.same.classes
    have hkeep : ((∀ d ∈ below, d ∈ st.classes.line c) → flush c = false) →
        Flushed env below flush (visited ++ [c]) st s ∧ ∀ d, d ∉ visited ++ [c] → s.cache d = st.cache d := by
      intro hno
      refine ⟨⟨hflushed.same, hflushed.caches, fun d s' v hv => ?_⟩,
        fun d hd => hrest d fun h => hd (by simp [h])⟩
      obtain ⟨hold, hnot⟩ := hflushed.kept d s' v hv
      refine ⟨hold, ?_⟩
      rintro ⟨hmem, hbelow, hflush⟩
      rcases List.mem_append.mp hmem with hmem | hmem
      · exact hnot ⟨hmem, hbelow, hflush⟩
      · obtain rfl := List.mem_singleton.mp hmem
        rw [hno hbelow] at hflush
        cases hflush
    by_cases hbelow : ∀ d ∈ below, d ∈ s.classes.line c
    · rw [if_pos hbelow]
      refine halts_bind ((hpred s c (hrest c hc)).halts ?_)
      cases hflush : flush c with
      | false => exact halts_pure (hkeep fun _ => hflush)
      | true =>
        refine halts_pure ⟨⟨⟨⟨hline, hflushed.same.realized, hflushed.same.isa, hflushed.same.isMeta,
          hflushed.same.initialized⟩, hflushed.same.methods, hflushed.same.cells⟩, fun d => ?_,
            fun d s' v hv => ?_⟩, fun d hd => ?_⟩
        · show (Function.update s.cache c (s.cache c).eraseNolock d).IsMemo env.arch env.value
          rw [Function.update_apply]
          split_ifs
          · exact (hflushed.caches c).erase
          · exact hflushed.caches d
        · change (Function.update s.cache c (s.cache c).eraseNolock d).find s' = some v at hv
          rw [Function.update_apply] at hv
          split_ifs at hv with hdc
          · rw [(hflushed.caches c).find_erase] at hv
            cases hv
          · obtain ⟨hold, hnot⟩ := hflushed.kept d s' v hv
            refine ⟨hold, ?_⟩
            rintro ⟨hmem, hrest'⟩
            rcases List.mem_append.mp hmem with hmem | hmem
            · exact hnot ⟨hmem, hrest'⟩
            · exact hdc (List.mem_singleton.mp hmem)
        · have hdc : d ≠ c := fun h => hd (by simp [h])
          show Function.update s.cache c (s.cache c).eraseNolock d = _
          rw [Function.update_of_ne hdc]
          exact hrest d fun h => hd (by simp [h])
    · rw [if_neg hbelow]
      refine halts_pure (hkeep fun hbelow' => ?_)
      rw [hline] at hbelow
      exact absurd hbelow' hbelow
  · exact fun c s v hv => ⟨hv, fun h => List.not_mem_nil h.1⟩

/-! ## Changed method lists -/

/-- The method is in a list of the class. -/
def HasMethod (st : Objc κ ς ι) (cls : κ) (m : MethodT ς) : Prop :=
  ∃ mlist ∈ (st.methods cls).lists, m ∈ mlist.methods

omit [DecidableEq κ] in
theorem hasMethod_of_first {m : MethodT ς} (h : firstMethod (st.methods cls).lists sel = some m) :
    st.HasMethod cls m ∧ m.name = sel := by
  obtain ⟨mlist, hmlist, hfind⟩ := List.exists_of_findSome?_eq_some h
  exact ⟨⟨mlist, hmlist, List.mem_of_find?_eq_some hfind⟩, by simpa using List.find?_some hfind⟩

omit [DecidableEq κ] in
theorem WfLists.exists_entryOf {m : MethodT ς} (h : st.WfLists) (hm : st.HasMethod cls m) :
    ∃ e, st.entryOf m = some e := by
  obtain ⟨mlist, hmlist, hmem⟩ := hm
  exact ⟨_, List.getElem?_eq_getElem (h.cells cls mlist hmlist m hmem)⟩

omit [DecidableEq κ] in
theorem WfLists.table_isSome (h : st.WfLists) (cls : κ) (sel : ς) :
    (st.table cls sel).isSome = (firstMethod (st.methods cls).lists sel).isSome := by
  cases hm : firstMethod (st.methods cls).lists sel with
  | none => rw [table, hm]; rfl
  | some m =>
    obtain ⟨e, -, htable⟩ := h.exists_entry hm
    rw [htable]
    rfl

omit [DecidableEq κ] in
/-- The method that answers a message, with the class that has it. -/
theorem exists_of_lookup {e : Entry ι} (h : st.toRuntime.lookup cls sel = some e) :
    ∃ d m, owner st.classes st.table sel cls = some d ∧ d ∈ st.classes.line cls ∧
      firstMethod (st.methods d).lists sel = some m ∧ st.entryOf m = some e := by
  obtain ⟨d, howner, htable⟩ := exists_owner h
  change st.table d sel = some e at htable
  rw [table] at htable
  obtain ⟨m, hm, he⟩ := Option.bind_eq_some_iff.mp htable
  exact ⟨d, m, howner, mem_line_of_owner howner, hm, he⟩

/-- **Changed implementations.**  When some cells are changed, it is enough to flush the caches that have
what a changed method answered before. -/
theorem Inv.halts_setCells {cells : List (Entry ι)} {below : Option κ}
    {predicate : Objc κ ς ι → κ → Prog Bool} (flush : κ → Bool) (h : st.Inv env)
    (hlength : cells.length = st.cells.length)
    (hpred : ∀ st' c, st'.cache c = st.cache c → Returns (predicate st' c) (flush c))
    (hflush : ∀ d m e, st.HasMethod d m → st.entryOf m = some e → cells[m.cell]? ≠ some e → ∀ c,
      d ∈ st.classes.line c → (st.cache c).find m.name = some (some e.imp) →
      (∀ b ∈ below, b ∈ st.classes.line c) ∧ flush c = true) :
    Halts ({ st with cells := cells }.flushCaches below predicate) fun st' =>
      st'.Inv env ∧ Frame st st' ∧ st'.methods = st.methods ∧ st'.cells = cells := by
  have hwf : WfLists { st with cells := cells } :=
    ⟨h.lists.sorted, fun c l hl m hm => by rw [hlength]; exact h.lists.cells c l hl m hm, h.lists.owner⟩
  refine Halts.mono (halts_flushCaches flush h.caches h.classes.nodup hpred) ?_
  rintro st' ⟨hsame, hcaches, hkept⟩
  have hframe : Frame st st' :=
    ⟨hsame.classes, hsame.realized, hsame.isa, hsame.isMeta, hsame.initialized⟩
  have hwf' : st'.WfLists := by
    obtain ⟨h1, h2, h3⟩ := hwf
    refine ⟨?_, ?_, ?_⟩
    · rw [hsame.methods]; exact h1
    · rw [hsame.methods, hsame.cells]; exact h2
    · rw [hsame.methods]; exact h3
  refine ⟨⟨hwf', hframe.wfClasses h.classes, hcaches, ?_⟩, hframe, hsame.methods, hsame.cells⟩
  intro c hc s v hv
  rw [hframe.classes] at hc
  obtain ⟨hold, hnot⟩ := hkept c s v hv
  have hvalue := h.coherent c hc s v hold
  rw [hsame.toRuntime, hvalue]
  have hisSome : ∀ d, (table { st with cells := cells } d s).isSome = (st.table d s).isSome := by
    intro d
    rw [hwf.table_isSome, h.lists.table_isSome]
  have howner : owner st.classes (table { st with cells := cells }) s c = owner st.classes st.table s c :=
    owner_congr fun d _ => hisSome d
  cases hlookup : st.toRuntime.lookup c s with
  | none =>
    have hnone : owner st.classes st.table s c = none := owner_eq_none hlookup
    have hfind : find st.classes (table { st with cells := cells }) s c = none := by
      rw [← owner_bind, howner, hnone, Option.bind_none]
    rw [Runtime.lookupImp, hlookup]
    exact (congrArg (Option.map Entry.imp) hfind).symm
  | some e =>
    obtain ⟨d, m, hd, hline, hm, he⟩ := exists_of_lookup hlookup
    obtain ⟨hhas, hname⟩ := hasMethod_of_first hm
    rw [Runtime.lookupImp, hlookup, Option.map_some] at hvalue
    by_cases hcell : cells[m.cell]? = some e
    · have htable : table { st with cells := cells } d s = some e := by
        rw [table, hm, Option.bind_some]
        exact hcell
      have hfind : find st.classes (table { st with cells := cells }) s c = some e := by
        rw [← owner_bind, howner, hd, Option.bind_some, htable]
      rw [Runtime.lookupImp, hlookup]
      exact (congrArg (Option.map Entry.imp) hfind).symm
    · obtain ⟨hbelow, hflushed⟩ := hflush d m e hhas he hcell c hline (by rw [hname, hold, hvalue])
      exact absurd ⟨(h.classes.realized c).mpr hc, hbelow, hflushed⟩ hnot

omit [DecidableEq κ] in
theorem returns_shouldFlush [DecidableEq ι] {imp : ι} {c : κ} (h : (st.cache c).IsMemo env.arch env.value) :
    Returns (st.shouldFlush env sel imp c) ((st.cache c).find sel == some (some imp)) :=
  returns_bind h.returns_cacheGetImp (returns_pure _)

omit [DecidableEq κ] in
theorem shouldFlush_congr [DecidableEq ι] {imp : ι} {c : κ} (h : st'.cache c = st.cache c) :
    st'.shouldFlush env sel imp c = st.shouldFlush env sel imp c := by
  rw [shouldFlush, shouldFlush, h]

omit [DecidableEq κ] in
/-- A message of the class for the selector of the method reaches it. -/
def Visible (st : Objc κ ς ι) (cls : κ) (m : MethodT ς) : Prop :=
  (firstMethod (st.methods cls).lists m.name).map MethodT.cell = some m.cell

omit [DecidableEq κ] in
theorem visible_of_first {m : MethodT ς} (h : firstMethod (st.methods cls).lists sel = some m) :
    st.Visible cls m := by
  rw [Visible, (hasMethod_of_first h).2, h, Option.map_some]

omit [DecidableEq κ] in
/-- A changed cell is seen through its own method only. -/
theorem WfLists.entryOf_set {m m' : MethodT ς} {d c : κ} {e : Entry ι} {s : ς} (h : st.WfLists)
    (hm : st.HasMethod d m) (hm' : firstMethod (st.methods c).lists s = some m')
    (hne : ¬ (c = d ∧ s = m.name ∧ st.Visible d m)) :
    entryOf { st with cells := st.cells.set m.cell e } m' = st.entryOf m' := by
  obtain ⟨⟨l', hl', hmem'⟩, hname⟩ := hasMethod_of_first hm'
  obtain ⟨l, hl, hmem⟩ := hm
  refine List.getElem?_set_ne fun hcell => hne ?_
  obtain ⟨rfl, hnames⟩ := h.owner d l hl m hmem c l' hl' m' hmem' hcell
  have hs : s = m.name := by rw [hnames, hname]
  subst hs
  exact ⟨rfl, rfl, by rw [Visible, hm', Option.map_some, hcell]⟩

/-- The tables after a visible method has got a new implementation. -/
theorem WfLists.toRuntime_setCell {m : MethodT ς} {d : κ} {e : Entry ι} {imp : ι} (h : st.WfLists)
    (hm : st.HasMethod d m) (hvisible : st.Visible d m) (he : st.entryOf m = some e) :
    toRuntime { st with cells := st.cells.set m.cell ⟨imp, e.types⟩ } =
      st.toRuntime.methodSetImplementation ⟨d, m.name⟩ imp := by
  obtain ⟨m', hm', hcell⟩ := Option.map_eq_some_iff.mp hvisible
  have hentry : st.entryOf m' = some e := by rw [entryOf, hcell]; exact he
  have hold : st.toRuntime.table d m.name = some e := by
    show st.table d m.name = some e
    rw [table, hm', Option.bind_some, hentry]
  rw [Runtime.setImplementation_eq hold, Runtime.put, toRuntime, toRuntime]
  congr 1
  funext c s
  rw [Function.update_apply]
  have hkeep : ¬ (c = d ∧ s = m.name ∧ st.Visible d m) →
      table { st with cells := st.cells.set m.cell ⟨imp, e.types⟩ } c s = st.table c s := by
    intro hne
    rw [table, table]
    cases hf : firstMethod (st.methods c).lists s with
    | none => rfl
    | some m'' => exact h.entryOf_set hm hf hne
  split_ifs with hc
  · subst hc
    rw [Function.update_apply]
    split_ifs with hs
    · subst hs
      rw [table, hm', Option.bind_some, entryOf, hcell]
      exact List.getElem?_set_self (List.getElem?_eq_some_iff.mp he).1
    · exact hkeep fun hall => hs hall.2.1
  · exact hkeep fun hall => hc hall.1

omit [DecidableEq κ] in
/-- A method that a later list hides may change without effect. -/
theorem WfLists.toRuntime_setCell_hidden {m : MethodT ς} {d : κ} {e : Entry ι} (h : st.WfLists)
    (hm : st.HasMethod d m) (hhidden : ¬ st.Visible d m) :
    toRuntime { st with cells := st.cells.set m.cell e } = st.toRuntime := by
  rw [toRuntime, toRuntime]
  congr 1
  funext c s
  rw [table, table]
  cases hf : firstMethod (st.methods c).lists s with
  | none => rfl
  | some m' => exact h.entryOf_set hm hf fun hall => hhidden hall.2.2

instance (cls : κ) (m : MethodT ς) : Decidable (st.Visible cls m) := by
  unfold Visible
  infer_instance

/-- What setting the implementation of a method does to the tables. -/
def setImplementation (st : Objc κ ς ι) (rt : Runtime κ ς ι) (d : κ) (m : MethodT ς) (imp : ι) :
    Runtime κ ς ι :=
  if st.Visible d m then rt.methodSetImplementation ⟨d, m.name⟩ imp else rt

theorem WfLists.toRuntime_set {m : MethodT ς} {d : κ} {e : Entry ι} (h : st.WfLists) (hm : st.HasMethod d m)
    (he : st.entryOf m = some e) (imp : ι) :
    toRuntime { st with cells := st.cells.set m.cell ⟨imp, e.types⟩ } =
      st.setImplementation st.toRuntime d m imp := by
  rw [setImplementation]
  split_ifs with hv
  · exact h.toRuntime_setCell hm hv he
  · exact h.toRuntime_setCell_hidden hm hv

/-- `_method_setImplementation`, where the class is not known or the one that has the method. -/
theorem Inv.halts_methodSetImplementation [DecidableEq ι] {m : MethodT ς} {d : κ} {e : Entry ι}
    (h : st.Inv env) (hm : st.HasMethod d m) (he : st.entryOf m = some e) (below : Option κ)
    (hbelow : ∀ b ∈ below, b = d) (imp : ι) :
    Halts (st.methodSetImplementation env below m imp) fun r => r.1.Inv env ∧ Frame st r.1 ∧
      r.1.methods = st.methods ∧ r.1.toRuntime = st.setImplementation st.toRuntime d m imp ∧ r.2 = e.imp := by
  rw [methodSetImplementation]
  simp only [he]
  refine halts_bind ((h.halts_setCells (fun c => (st.cache c).find m.name == some (some e.imp))
    (by rw [List.length_set]) (fun st' c hc => ?_) ?_).mono ?_)
  · rw [shouldFlush_congr (show st'.cache c = st.cache c from hc)]
    exact returns_shouldFlush (h.caches c)
  · rintro d' m' e' ⟨l', hl', hmem'⟩ he' hchanged c hline hcached
    have hcell : m.cell = m'.cell := by
      by_contra hne
      rw [List.getElem?_set_ne hne] at hchanged
      exact hchanged he'
    obtain ⟨l, hl, hmem⟩ := hm
    obtain ⟨rfl, hname⟩ := h.lists.owner d l hl m hmem d' l' hl' m' hmem' hcell
    obtain rfl : e' = e := by
      rw [entryOf, ← hcell] at he'
      exact Option.some.inj (he'.symm.trans he)
    rw [← hname] at hcached
    exact ⟨fun b hb => hbelow b hb ▸ hline, by rw [hcached]; exact beq_self_eq_true _⟩
  · rintro st' ⟨hinv, hframe, hmethods, hcells⟩
    refine halts_pure ⟨hinv, hframe, hmethods, ?_, rfl⟩
    rw [← h.lists.toRuntime_set hm he imp, toRuntime, toRuntime, hframe.classes]
    congr 1
    funext c s
    rw [table, table, hmethods]
    congr 1
    funext m'
    rw [entryOf, entryOf, hcells]

/-! ## New methods -/

/-- The tables with new methods of a class in front of those it had. -/
def attachTable (rt : Runtime κ ς ι) (cls : κ) (new : ς → Option (Entry ι)) : Runtime κ ς ι where
  classes := rt.classes
  table := Function.update rt.table cls fun sel => (new sel).or (rt.table cls sel)

/-- **New methods.**  It is enough to flush the caches of the class and its subclasses. -/
theorem Inv.halts_attach (h : st.Inv env) (cls : κ) (new : List (MethodList ς))
    (lists : ListArray (MethodList ς)) (extra : List (Entry ι))
    (hlists : lists.lists = new ++ (st.methods cls).lists) (hsorted : ∀ mlist ∈ new, mlist.Sorted)
    (hcells : ∀ mlist ∈ new, ∀ m ∈ mlist.methods,
      st.cells.length ≤ m.cell ∧ m.cell < st.cells.length + extra.length)
    (howner : ∀ mlist ∈ new, ∀ m ∈ mlist.methods, ∀ mlist' ∈ new, ∀ m' ∈ mlist'.methods,
      m.cell = m'.cell → m.name = m'.name) :
    Halts ({ st with
        methods := Function.update st.methods cls lists
        cells := st.cells ++ extra }.flushCaches (some cls) fun _ _ => pure true)
      fun st' => st'.Inv env ∧ Frame st st' ∧ st'.cells = st.cells ++ extra ∧
        st'.toRuntime = attachTable st.toRuntime cls fun sel =>
          (firstMethod new sel).bind fun m => (st.cells ++ extra)[m.cell]? := by
  generalize hst₁ : ({ st with
    methods := Function.update st.methods cls lists
    cells := st.cells ++ extra } : Objc κ ς ι) = st₁
  have hself : (st₁.methods cls).lists = new ++ (st.methods cls).lists := by
    rw [← hst₁, ← hlists]
    exact congrArg ListArray.lists (Function.update_self _ _ _)
  have hother : ∀ c, c ≠ cls → st₁.methods c = st.methods c := fun c hc => by
    rw [← hst₁]
    exact Function.update_of_ne hc _ _
  have hcells₁ : st₁.cells = st.cells ++ extra := by rw [← hst₁]
  -- a list of the new state is an old one of the same class, or a new one of `cls`
  have hmem : ∀ c, ∀ mlist ∈ (st₁.methods c).lists, mlist ∈ (st.methods c).lists ∨ c = cls ∧ mlist ∈ new := by
    intro c mlist hmlist
    by_cases hc : c = cls
    · subst hc
      rw [hself] at hmlist
      exact (List.mem_append.mp hmlist).symm.imp_right fun hnew => ⟨rfl, hnew⟩
    · rw [hother c hc] at hmlist
      exact Or.inl hmlist
  have hwf : st₁.WfLists := by
    refine ⟨fun c l hl => ?_, fun c l hl m hm => ?_, fun c l hl m hm c' l' hl' m' hm' hcell => ?_⟩
    · rcases hmem c l hl with hold | ⟨-, hnew⟩
      · exact h.lists.sorted c l hold
      · exact hsorted l hnew
    · rw [hcells₁, List.length_append]
      rcases hmem c l hl with hold | ⟨-, hnew⟩
      · have := h.lists.cells c l hold m hm
        omega
      · exact (hcells l hnew m hm).2
    · rcases hmem c l hl with hold | ⟨rfl, hnew⟩ <;> rcases hmem c' l' hl' with hold' | ⟨rfl, hnew'⟩
      · exact h.lists.owner c l hold m hm c' l' hold' m' hm' hcell
      · have := h.lists.cells c l hold m hm
        have := (hcells l' hnew' m' hm').1
        omega
      · have := h.lists.cells c' l' hold' m' hm'
        have := (hcells l hnew m hm).1
        omega
      · exact ⟨rfl, howner l hnew m hm l' hnew' m' hm' hcell⟩
  have hentry : ∀ c s m, firstMethod (st.methods c).lists s = some m → st₁.entryOf m = st.entryOf m := by
    intro c s m hm
    obtain ⟨⟨l, hl, hmem⟩, -⟩ := hasMethod_of_first hm
    rw [entryOf, entryOf, hcells₁, List.getElem?_append_left (h.lists.cells c l hl m hmem)]
  have hbind : ∀ c s, (firstMethod (st.methods c).lists s).bind st₁.entryOf = st.table c s := by
    intro c s
    rw [table]
    cases hm : firstMethod (st.methods c).lists s with
    | none => rfl
    | some m => exact hentry c s m hm
  have hclasses : st₁.classes = st.classes := by rw [← hst₁]
  have hruntime : st₁.toRuntime = attachTable st.toRuntime cls fun sel =>
      (firstMethod new sel).bind fun m => (st.cells ++ extra)[m.cell]? := by
    rw [toRuntime, attachTable, hclasses]
    congr 1
    funext c s
    rw [Function.update_apply]
    split_ifs with hc
    · subst hc
      rw [table, hself, firstMethod_append]
      show _ = ((firstMethod new s).bind fun m => (st.cells ++ extra)[m.cell]?).or (st.table c s)
      cases hm : firstMethod new s with
      | none =>
        rw [Option.none_or, Option.bind_none, Option.none_or]
        exact hbind c s
      | some m =>
        obtain ⟨l, hl, hfind⟩ := List.exists_of_findSome?_eq_some hm
        have hlt := (hcells l hl m (List.mem_of_find?_eq_some hfind)).2
        rw [Option.some_or, Option.bind_some, Option.bind_some, entryOf, hcells₁,
          List.getElem?_eq_getElem (by rw [List.length_append]; exact hlt), Option.some_or]
    · rw [table, hother c hc]
      exact hbind c s
  have hcaches : st₁.cache = st.cache := by rw [← hst₁]
  have hrealized : st₁.realized = st.realized := by rw [← hst₁]
  have hframe₁ : Frame st st₁ := by rw [← hst₁]; exact ⟨rfl, rfl, rfl, rfl, fun _ h => h⟩
  have hmemos : ∀ c, (st₁.cache c).IsMemo env.arch env.value := hcaches ▸ h.caches
  refine (halts_flushCaches (fun _ => true) hmemos (hrealized ▸ h.classes.nodup) fun _ _ _ =>
    returns_pure true).mono ?_
  rintro st' ⟨hsame, hmemo, hkept⟩
  have hframe := hframe₁.trans hsame.toFrame
  have hwf' : st'.WfLists := by
    obtain ⟨h1, h2, h3⟩ := hwf
    refine ⟨?_, ?_, ?_⟩
    · rw [hsame.methods]; exact h1
    · rw [hsame.methods, hsame.cells]; exact h2
    · rw [hsame.methods]; exact h3
  refine ⟨⟨hwf', hframe.wfClasses h.classes, hmemo, ?_⟩, hframe, hsame.cells.trans hcells₁,
    hsame.toRuntime.trans hruntime⟩
  intro c hc s v hv
  rw [hframe.classes] at hc
  obtain ⟨hold, hnot⟩ := hkept c s v hv
  rw [hcaches] at hold
  rw [hrealized, hclasses] at hnot
  rw [hsame.toRuntime, h.coherent c hc s v hold, hruntime]
  have hline : cls ∉ st.classes.line c := fun hline =>
    hnot ⟨(h.classes.realized c).mpr hc, by simpa using hline, rfl⟩
  refine congrArg (Option.map Entry.imp) (find_congr fun d hd => ?_).symm
  have hne : d ≠ cls := fun heq => hline (heq ▸ hd)
  show Function.update st.table cls _ d s = st.table d s
  rw [Function.update_of_ne hne]

/-- `addMethod` does to the tables what `class_addMethod` and `class_replaceMethod` say. -/
theorem Inv.halts_addMethod [DecidableEq ι] (h : st.Inv env) (hcls : st.classes.known cls = true)
    (name : ς) (imp : ι) (types : String) (replace : Bool) :
    Halts (st.addMethod env cls name imp types replace) fun r => r.1.Inv env ∧ Frame st r.1 ∧
      r.1.toRuntime = (if replace then st.toRuntime.classReplaceMethod cls name imp types
        else (st.toRuntime.classAddMethod cls name imp types).2) ∧
      r.2 = (st.toRuntime.table cls name).map Entry.imp ∧
      (replace = false → ∀ m e, st.entryOf m = some e → r.1.entryOf m = some e) := by
  have hknown : Returns (st.checkIsKnownClass cls) () := by
    rw [checkIsKnownClass, if_pos hcls]
    exact returns_pure _
  have hsearch := returns_getMethodNoSuper name (h.lists.sorted cls)
  refine halts_bind (hknown.halts (halts_bind (hsearch.halts ?_)))
  cases hm : firstMethod (st.methods cls).lists name with
  | some m =>
    obtain ⟨e, he, htable⟩ := h.lists.exists_entry hm
    have hrt : st.toRuntime.table cls name = some e := htable
    obtain ⟨hhas, hname⟩ := hasMethod_of_first hm
    cases replace with
    | false =>
      simp only [if_true, he]
      refine halts_pure ⟨h, Frame.refl st, ?_, ?_, fun _ _ _ h => h⟩
      · rw [if_neg Bool.false_ne_true, Runtime.classAddMethod, hrt]
      · rw [hrt, Option.map_some]
    | true =>
      simp only [Bool.true_eq_false, if_false, if_true]
      refine halts_bind ((h.halts_methodSetImplementation hhas he (some cls) (by simp) imp).mono ?_)
      rintro r ⟨hinv, hframe, -, hruntime, hold⟩
      refine halts_pure ⟨hinv, hframe, ?_, ?_, by simp⟩
      · rw [hruntime, setImplementation, if_pos (visible_of_first hm), hname,
          Runtime.setImplementation_eq hrt, Runtime.classReplaceMethod, hrt]
      · rw [hold, hrt, Option.map_some]
  | none =>
    have hrt : st.toRuntime.table cls name = none := by
      show st.table cls name = none
      rw [table, hm, Option.bind_none]
    refine halts_bind ((h.halts_attach cls [⟨true, true, false, [⟨name, st.cells.length⟩]⟩]
      ((st.methods cls).attachLists (prepareMethodLists [⟨true, true, false, [⟨name, st.cells.length⟩]⟩]))
      [⟨imp, types⟩] ?_ ?_ ?_ ?_).mono ?_)
    · exact ListArray.lists_attachLists _ _
    · simp [MethodList.Sorted]
    · simp
    · simp
    · rintro st' ⟨hinv, hframe, hcells, hruntime⟩
      refine halts_pure ⟨hinv, hframe, ?_, by rw [hrt]; rfl, fun _ m e he => ?_⟩
      swap
      · rw [entryOf, hcells]
        exact List.getElem?_append_left (List.getElem?_eq_some_iff.mp he).1 ▸ he
      have hput : st'.toRuntime = st.toRuntime.put cls name ⟨imp, types⟩ := by
        rw [hruntime, attachTable, Runtime.put]
        congr 2
        funext s
        rw [Function.update_apply]
        by_cases hs : s = name
        · simp [firstMethod, findMethodInUnsortedMethodList, hs]
        · simp [firstMethod, findMethodInUnsortedMethodList, hs, Ne.symm hs]
      rw [hput, Runtime.classAddMethod, Runtime.classReplaceMethod, hrt]
      split_ifs <;> rfl

/-! ## Categories -/

section Categories

variable {cats : List (Option (MethodList ς))} {extra : List (Entry ι)}

/-- `attachCategories` to an existing class; `extra` are the cells of the categories' methods, which come
into the process with them. -/
def attachCategories (st : Objc κ ς ι) (cls : κ) (cats : List (Option (MethodList ς)))
    (extra : List (Entry ι)) :
    Prog (Objc κ ς ι) :=
  let (methods, mlists) := attachLoop (st.methods cls) [] cats
  if mlists.length > 0 then
    { st with
      methods := Function.update st.methods cls (methods.attachLists (prepareMethodLists mlists))
      cells := st.cells ++ extra }.flushCaches (some cls) fun _ _ => pure true
  else
    pure { st with
      methods := Function.update st.methods cls methods
      cells := st.cells ++ extra }

/-- Categories as an image has them: their lists are sorted where they say so, and their methods have the
new cells, each its own. -/
structure CategoriesOk (st : Objc κ ς ι) (cats : List (Option (MethodList ς))) (extra : List (Entry ι)) :
    Prop where
  sorted : ∀ mlist, some mlist ∈ cats → mlist.Sorted
  cells : ∀ mlist, some mlist ∈ cats → ∀ m ∈ mlist.methods,
    st.cells.length ≤ m.cell ∧ m.cell < st.cells.length + extra.length
  owner : ∀ mlist, some mlist ∈ cats → ∀ m ∈ mlist.methods, ∀ mlist', some mlist' ∈ cats →
    ∀ m' ∈ mlist'.methods,
    m.cell = m'.cell → m.name = m'.name
  nonempty : cats.reduceOption = [] → extra = []

omit [DecidableEq κ] in
theorem mem_prepareMethodLists {mlists : List (MethodList ς)} {mlist : MethodList ς}
    (h : mlist ∈ prepareMethodLists mlists) : ∃ l ∈ mlists, ∀ m, m ∈ mlist.methods ↔ m ∈ l.methods := by
  obtain ⟨l, hl, rfl⟩ := List.mem_map.mp h
  refine ⟨l, hl, fun m => ?_⟩
  rw [fixupMethodList]
  split_ifs <;> simp

omit [DecidableEq κ] in
/-- Nothing is left in the buffer only when there was nothing to attach. -/
theorem attachLoop_eq_nil :
    ∀ (cats : List (Option (MethodList ς))) (methods : ListArray (MethodList ς)) mlists,
    (attachLoop methods mlists cats).2 = [] → mlists = [] ∧ cats.reduceOption = [] ∧
      (attachLoop methods mlists cats).1 = methods := by
  intro cats
  induction cats with
  | nil => exact fun _ _ h => ⟨h, rfl, rfl⟩
  | cons cat cats ih =>
    intro methods mlists h
    cases cat with
    | none => exact ih methods mlists h
    | some mlist =>
      rw [attachLoop] at h
      split_ifs at h
      · cases (ih _ _ h).1
      · cases (ih _ _ h).1

theorem Inv.halts_attachCategories (h : st.Inv env) (hok : st.CategoriesOk cats extra) :
    Halts (st.attachCategories cls cats extra) fun st' => st'.Inv env ∧ Frame st st' ∧
      st'.toRuntime = attachTable st.toRuntime cls fun sel =>
        (firstMethod cats.reduceOption.reverse sel).bind fun m => (st.cells ++ extra)[m.cell]? := by
  have hloop := attachLoop_lists cats (st.methods cls) []
  rw [List.append_nil] at hloop
  rw [attachCategories]
  dsimp only
  have hmem : ∀ mlist ∈ prepareMethodLists cats.reduceOption.reverse, ∃ l, some l ∈ cats ∧
      ∀ m, m ∈ mlist.methods ↔ m ∈ l.methods := by
    intro mlist hmlist
    obtain ⟨l, hl, hiff⟩ := mem_prepareMethodLists hmlist
    exact ⟨l, List.reduceOption_mem_iff.mp (List.mem_reverse.mp hl), hiff⟩
  split_ifs with hpos
  · refine (h.halts_attach cls (prepareMethodLists cats.reduceOption.reverse) _ extra ?_ ?_ ?_ ?_).mono ?_
    · rw [ListArray.lists_attachLists]
      exact hloop
    · exact sorted_prepareMethodLists fun l hl =>
        hok.sorted l (List.reduceOption_mem_iff.mp (List.mem_reverse.mp hl))
    · intro mlist hmlist m hm
      obtain ⟨l, hl, hiff⟩ := hmem mlist hmlist
      exact hok.cells l hl m ((hiff m).mp hm)
    · intro mlist hmlist m hm mlist' hmlist' m' hm' hcell
      obtain ⟨l, hl, hiff⟩ := hmem mlist hmlist
      obtain ⟨l', hl', hiff'⟩ := hmem mlist' hmlist'
      exact hok.owner l hl m ((hiff m).mp hm) l' hl' m' ((hiff' m').mp hm') hcell
    · rintro st' ⟨hinv, hframe, -, hruntime⟩
      refine ⟨hinv, hframe, hruntime.trans ?_⟩
      congr 1
      funext sel
      rw [firstMethod_prepareMethodLists]
  · obtain ⟨-, hnil, hmethods⟩ := attachLoop_eq_nil cats (st.methods cls) []
      (List.length_eq_zero_iff.mp (by omega))
    have hst : ({ st with
        methods := Function.update st.methods cls (attachLoop (st.methods cls) [] cats).1
        cells := st.cells ++ extra } : Objc κ ς ι) = st := by
      rw [hmethods, hok.nonempty hnil, List.append_nil, Function.update_eq_self]
    rw [hst]
    refine halts_pure ⟨h, Frame.refl st, ?_⟩
    rw [hnil, attachTable]
    simp [firstMethod]

end Categories

/-! ## Exchanging -/

section Exchange

variable [DecidableEq ι] {m₁ m₂ : MethodT ς} {d₁ d₂ : κ} {e₁ e₂ : Entry ι}

/-- `method_exchangeImplementations` -/
def methodExchangeImplementations (env : Env κ ς ι) (st : Objc κ ς ι) (m₁ m₂ : MethodT ς) :
    Prog (Objc κ ς ι) :=
  match st.entryOf m₁, st.entryOf m₂ with
  | some e₁, some e₂ =>
    let cells := (st.cells.set m₁.cell ⟨e₂.imp, e₁.types⟩).set m₂.cell ⟨e₁.imp, e₂.types⟩
    { st with cells := cells }.flushCaches none fun st c => do
      let flush₁ ← st.shouldFlush env m₁.name e₁.imp c
      let flush₂ ← st.shouldFlush env m₂.name e₂.imp c
      pure (flush₁ || flush₂)
  | _, _ => trap

theorem Inv.halts_methodExchangeImplementations (h : st.Inv env) (hm₁ : st.HasMethod d₁ m₁)
    (hm₂ : st.HasMethod d₂ m₂) (he₁ : st.entryOf m₁ = some e₁) (he₂ : st.entryOf m₂ = some e₂) :
    Halts (st.methodExchangeImplementations env m₁ m₂) fun st' => st'.Inv env ∧ Frame st st' ∧
      st'.methods = st.methods ∧
      st'.toRuntime = st.setImplementation (st.setImplementation st.toRuntime d₁ m₁ e₂.imp) d₂ m₂ e₁.imp := by
  rw [methodExchangeImplementations, he₁, he₂]
  have hsame : m₁.cell = m₂.cell → e₁ = e₂ := by
    intro hcell
    rw [entryOf, hcell] at he₁
    exact Option.some.inj (he₁.symm.trans he₂)
  refine (h.halts_setCells (fun c => ((st.cache c).find m₁.name == some (some e₁.imp)) ||
    ((st.cache c).find m₂.name == some (some e₂.imp))) (by simp) (fun st' c hc => ?_) ?_).mono ?_
  · have hc' : st'.cache c = st.cache c := hc
    rw [shouldFlush_congr hc', shouldFlush_congr hc']
    exact returns_bind (returns_shouldFlush (h.caches c))
      (returns_bind (returns_shouldFlush (h.caches c)) (returns_pure _))
  · rintro d m e ⟨l, hl, hmem⟩ he hchanged c hline hcached
    refine ⟨by simp, ?_⟩
    obtain ⟨l₁, hl₁, hmem₁⟩ := hm₁
    obtain ⟨l₂, hl₂, hmem₂⟩ := hm₂
    by_cases hcell₂ : m₂.cell = m.cell
    · obtain ⟨-, hname⟩ := h.lists.owner d₂ l₂ hl₂ m₂ hmem₂ d l hl m hmem hcell₂
      obtain rfl : e = e₂ := by
        rw [entryOf, ← hcell₂] at he
        exact Option.some.inj (he.symm.trans he₂)
      rw [← hname] at hcached
      rw [hcached, beq_self_eq_true, Bool.or_true]
    · rw [List.getElem?_set_ne hcell₂] at hchanged
      have hcell₁ : m₁.cell = m.cell := by
        by_contra hne
        rw [List.getElem?_set_ne hne] at hchanged
        exact hchanged he
      obtain ⟨-, hname⟩ := h.lists.owner d₁ l₁ hl₁ m₁ hmem₁ d l hl m hmem hcell₁
      obtain rfl : e = e₁ := by
        rw [entryOf, ← hcell₁] at he
        exact Option.some.inj (he.symm.trans he₁)
      rw [← hname] at hcached
      rw [hcached, beq_self_eq_true, Bool.true_or]
  · rintro st' ⟨hinv, hframe, hmethods, hcells⟩
    refine ⟨hinv, hframe, hmethods, ?_⟩
    have hwf₁ : WfLists { st with cells := st.cells.set m₁.cell ⟨e₂.imp, e₁.types⟩ } :=
      ⟨h.lists.sorted, fun c l hl m hm => by rw [List.length_set]; exact h.lists.cells c l hl m hm,
        h.lists.owner⟩
    have he₂' : entryOf { st with cells := st.cells.set m₁.cell ⟨e₂.imp, e₁.types⟩ } m₂ =
        some ⟨e₂.imp, e₂.types⟩ := by
      rw [entryOf, List.getElem?_set]
      split_ifs with hcell hlt
      · rw [hsame hcell]
      · exact absurd (List.getElem?_eq_some_iff.mp he₁).1 hlt
      · exact he₂
    have hfirst := h.lists.toRuntime_set hm₁ he₁ e₂.imp
    have hsecond := hwf₁.toRuntime_set hm₂ he₂' e₁.imp
    rw [hfirst] at hsecond
    refine Eq.trans ?_ hsecond
    rw [toRuntime, toRuntime, hframe.classes]
    congr 1
    funext c s
    rw [table, table, hmethods]
    congr 1
    funext m'
    rw [entryOf, entryOf, hcells]

end Exchange

/-! ## New classes -/

omit [LinearOrder ς] in
/-- A new class and its metaclass: no methods, empty caches. -/
def withClassPair (st : Objc κ ς ι) (classes : Hierarchy κ) (superclass name metacls : κ) : Objc κ ς ι where
  classes := classes
  realized := metacls :: name :: st.realized
  isa := Function.update (Function.update st.isa name metacls) metacls (st.isa (st.isa superclass))
  isMeta := Function.update (Function.update st.isMeta name false) metacls true
  initialized := Function.update (Function.update st.initialized name false) metacls false
  methods := Function.update (Function.update st.methods name (.list none)) metacls (.list none)
  cells := st.cells
  cache := Function.update (Function.update st.cache name initializeToEmpty) metacls initializeToEmpty

omit [LinearOrder ς] in
/-- `objc_allocateClassPair` and `objc_registerClassPair`; `none` when the name is taken. -/
def objcAllocateClassPair (st : Objc κ ς ι) (superclass name metacls : κ) : Option (Objc κ ς ι) :=
  if h : st.classes.known name = false ∧ st.classes.known superclass = true then
    let classes := st.classes.extend name superclass h.1 h.2
    if h' : classes.known metacls = false ∧ classes.known (st.isa superclass) = true then
      some (st.withClassPair (classes.extend metacls (st.isa superclass) h'.1 h'.2) superclass name metacls)
    else none
  else none

section Allocate

variable {superclass name metacls : κ} {classes : Hierarchy κ}

omit [LinearOrder ς] in
theorem withClassPair_lists (c : κ) : ((st.withClassPair classes superclass name metacls).methods c).lists =
    if c = name ∨ c = metacls then [] else (st.methods c).lists := by
  show (Function.update (Function.update st.methods name (.list none)) metacls (.list none) c).lists = _
  rw [Function.update_apply, Function.update_apply]
  by_cases hm : c = metacls
  · simp [hm, ListArray.lists]
  · by_cases hn : c = name
    · simp [hn, ListArray.lists]
    · simp [hm, hn]

omit [LinearOrder ς] in
theorem withClassPair_cache (c : κ) : (st.withClassPair classes superclass name metacls).cache c =
    if c = name ∨ c = metacls then initializeToEmpty else st.cache c := by
  show Function.update (Function.update st.cache name initializeToEmpty) metacls initializeToEmpty c = _
  rw [Function.update_apply, Function.update_apply]
  by_cases hm : c = metacls
  · simp [hm]
  · by_cases hn : c = name
    · simp [hn]
    · simp [hm, hn]

theorem withClassPair_table (c : κ) (s : ς) : (st.withClassPair classes superclass name metacls).table c s =
    if c = name ∨ c = metacls then none else st.table c s := by
  rw [table, withClassPair_lists]
  split_ifs
  · rfl
  · rfl

omit [LinearOrder ς] in
/-- The state after an allocation, with what made it possible. -/
theorem exists_of_allocate (hst : st.objcAllocateClassPair superclass name metacls = some st') :
    ∃ (hname : st.classes.known name = false) (hsuper : st.classes.known superclass = true)
      (hmeta : (st.classes.extend name superclass hname hsuper).known metacls = false)
      (hisa : (st.classes.extend name superclass hname hsuper).known (st.isa superclass) = true),
      st' = st.withClassPair
        ((st.classes.extend name superclass hname hsuper).extend metacls (st.isa superclass) hmeta hisa)
        superclass name metacls := by
  rw [objcAllocateClassPair] at hst
  by_cases h : st.classes.known name = false ∧ st.classes.known superclass = true
  · rw [dif_pos h] at hst
    dsimp only at hst
    split_ifs at hst with h'
    exact ⟨h.1, h.2, h'.1, h'.2, (Option.some.inj hst).symm⟩
  · rw [dif_neg h] at hst
    cases hst

/-- What the classes of the new hierarchy are. -/
structure ClassPair (st : Objc κ ς ι) (classes : Hierarchy κ) (superclass name metacls : κ) : Prop where
  name_new : st.classes.known name = false
  meta_new : st.classes.known metacls = false
  ne : metacls ≠ name
  known : ∀ c, c ≠ name → c ≠ metacls → classes.known c = st.classes.known c
  known_name : classes.known name = true
  known_meta : classes.known metacls = true
  super_known : st.classes.known superclass = true
  line : ∀ c, st.classes.known c = true → classes.line c = st.classes.line c
  super_name : classes.super name = some superclass
  super_meta : classes.super metacls = some (st.isa superclass)

omit [LinearOrder ς] in
theorem classPair_extend (hname : st.classes.known name = false) (hsuper : st.classes.known superclass = true)
    (hmeta : (st.classes.extend name superclass hname hsuper).known metacls = false)
    (hisa : (st.classes.extend name superclass hname hsuper).known (st.isa superclass) = true) :
    ClassPair st ((st.classes.extend name superclass hname hsuper).extend metacls
      (st.isa superclass) hmeta hisa)
      superclass name metacls := by
  have hnm : metacls ≠ name := by
    rintro rfl
    rw [extend_known_self] at hmeta
    cases hmeta
  have hmeta' : st.classes.known metacls = false := by
    rwa [extend_known_of_ne hname hsuper hnm] at hmeta
  refine ⟨hname, hmeta', hnm, fun c hcn hcm => ?_, ?_, extend_known_self hmeta hisa, hsuper,
    fun c hc => ?_, ?_, extend_super_self hmeta hisa⟩
  · rw [extend_known_of_ne hmeta hisa hcm, extend_known_of_ne hname hsuper hcn]
  · rw [extend_known_of_ne hmeta hisa hnm.symm, extend_known_self]
  · refine Hierarchy.line_congr (fun d hd => ?_) hc
    have hdn : d ≠ name := fun heq => by rw [heq, hname] at hd; cases hd
    have hdm : d ≠ metacls := fun heq => by rw [heq, hmeta'] at hd; cases hd
    rw [extend_super_of_ne hmeta hisa hdm, extend_super_of_ne hname hsuper hdn]
  · rw [extend_super_of_ne hmeta hisa hnm.symm, extend_super_self]

omit [DecidableEq κ] [LinearOrder ς] in
theorem ClassPair.known_ne (hpair : ClassPair st classes superclass name metacls) {c : κ}
    (hc : st.classes.known c = true) : ¬ (c = name ∨ c = metacls) := by
  rintro (rfl | rfl)
  · rw [hpair.name_new] at hc
    cases hc
  · rw [hpair.meta_new] at hc
    cases hc

/-- The old classes answer as before. -/
theorem ClassPair.lookupImp (hpair : ClassPair st classes superclass name metacls) {c : κ}
    (hc : st.classes.known c = true) (s : ς) :
    (st.withClassPair classes superclass name metacls).toRuntime.lookupImp c s =
      st.toRuntime.lookupImp c s := by
  have hfind : find classes (st.withClassPair classes superclass name metacls).table s c =
      find st.classes st.table s c := by
    rw [Dispatch.find, hpair.line c hc]
    refine find_congr fun d hd => ?_
    rw [withClassPair_table, if_neg (hpair.known_ne (Hierarchy.known_of_mem_line hc hd))]
  exact congrArg (Option.map Entry.imp) hfind

omit [LinearOrder ς] in
theorem WfClasses.withClassPair (h : st.WfClasses) (hpair : ClassPair st classes superclass name metacls) :
    (st.withClassPair classes superclass name metacls).WfClasses := by
  have hcases : ∀ c, classes.known c = true → c = name ∨ c = metacls ∨ st.classes.known c = true := by
    intro c hc
    by_cases hn : c = name
    · exact Or.inl hn
    · by_cases hm : c = metacls
      · exact Or.inr (Or.inl hm)
      · exact Or.inr (Or.inr (hpair.known c hn hm ▸ hc))
  have hkeep : ∀ c, st.classes.known c = true → classes.known c = true := by
    intro c hc
    have hne := hpair.known_ne hc
    exact (hpair.known c (fun h => hne (Or.inl h)) fun h => hne (Or.inr h)).trans hc
  have hcount : (st.withClassPair classes superclass name metacls).unreasonableClassCount =
      st.unreasonableClassCount + 16 := by
    have hrest : (st.realized.filter fun c =>
        !Function.update (Function.update st.isMeta name false) metacls true c) =
        st.realized.filter fun c => !st.isMeta c := by
      refine List.filter_congr fun c hc => ?_
      have hne := hpair.known_ne ((h.realized c).mp hc)
      rw [Function.update_of_ne fun h => hne (Or.inr h), Function.update_of_ne fun h => hne (Or.inl h)]
    rw [unreasonableClassCount, unreasonableClassCount, Objc.withClassPair]
    simp only
    rw [List.filter_cons_of_neg (by simp), List.filter_cons_of_pos (by simp [hpair.ne.symm]), hrest,
      List.length_cons]
    omega
  have hisa := h.isa superclass hpair.super_known
  refine ⟨fun c => ?_, ?_, fun c hc => ?_, fun c hc => ?_⟩
  · show c ∈ metacls :: name :: st.realized ↔ classes.known c = true
    rw [List.mem_cons, List.mem_cons, h.realized]
    constructor
    · rintro (rfl | rfl | hc)
      · exact hpair.known_meta
      · exact hpair.known_name
      · exact hkeep c hc
    · intro hc
      rcases hcases c hc with rfl | rfl | hc
      · exact Or.inr (Or.inl rfl)
      · exact Or.inl rfl
      · exact Or.inr (Or.inr hc)
  · have hname : name ∉ st.realized := fun hmem => hpair.known_ne ((h.realized name).mp hmem) (Or.inl rfl)
    have hmeta : metacls ∉ st.realized :=
      fun hmem => hpair.known_ne ((h.realized metacls).mp hmem) (Or.inr rfl)
    exact List.nodup_cons.mpr ⟨by simp [hpair.ne, hmeta], List.nodup_cons.mpr ⟨hname, h.nodup⟩⟩
  · show classes.known (Function.update (Function.update st.isa name metacls) metacls _ c) = true
    rw [Function.update_apply, Function.update_apply]
    split_ifs with hm hn
    · exact hkeep _ (h.isa _ hisa)
    · exact hpair.known_meta
    · exact hkeep _ (h.isa c ((hcases c hc).resolve_left hn |>.resolve_left hm))
  · rw [hcount]
    show (classes.line c).length < _
    rcases hcases c hc with rfl | rfl | hc
    · rw [Hierarchy.line_of_super hpair.super_name, hpair.line _ hpair.super_known, List.length_cons]
      have := h.reasonable _ hpair.super_known
      omega
    · rw [Hierarchy.line_of_super hpair.super_meta, hpair.line _ hisa, List.length_cons]
      have := h.reasonable _ hisa
      omega
    · rw [hpair.line c hc]
      have := h.reasonable c hc
      omega

theorem Inv.withClassPair (h : st.Inv env) (hpair : ClassPair st classes superclass name metacls) :
    (st.withClassPair classes superclass name metacls).Inv env where
  lists := by
    have hmem : ∀ c, ∀ l ∈ ((st.withClassPair classes superclass name metacls).methods c).lists,
        l ∈ (st.methods c).lists := by
      intro c l hl
      rw [withClassPair_lists] at hl
      split_ifs at hl
      · cases hl
      · exact hl
    exact ⟨fun c l hl => h.lists.sorted c l (hmem c l hl), fun c l hl => h.lists.cells c l (hmem c l hl),
      fun c l hl m hm c' l' hl' => h.lists.owner c l (hmem c l hl) m hm c' l' (hmem c' l' hl')⟩
  classes := h.classes.withClassPair hpair
  caches := by
    intro c
    rw [withClassPair_cache]
    split_ifs
    · exact isMemo_initializeToEmpty
    · exact h.caches c
  coherent := by
    intro c hc s v hv
    rw [withClassPair_cache] at hv
    split_ifs at hv with hnew
    · cases hv
    · have hc' : st.classes.known c = true := by
        rw [← hpair.known c (fun h => hnew (Or.inl h)) fun h => hnew (Or.inr h)]
        exact hc
      rw [hpair.lookupImp hc']
      exact h.coherent c hc' s v hv

/-- A new pair of classes leaves what is known and cached as it is. -/
theorem Inv.objcAllocateClassPair (h : st.Inv env)
    (hst : st.objcAllocateClassPair superclass name metacls = some st') :
    st'.Inv env ∧ (∀ c, st.classes.known c = true → st'.classes.known c = true) ∧
      (st.toRuntime.objcAllocateClassPair superclass name).bind
        (·.objcAllocateClassPair (st.isa superclass) metacls) =
        some st'.toRuntime := by
  obtain ⟨hname, hsuper, hmeta, hisa, rfl⟩ := exists_of_allocate hst
  have hpair := classPair_extend hname hsuper hmeta hisa
  refine ⟨h.withClassPair hpair, fun c hc => ?_, ?_⟩
  · have hne := hpair.known_ne hc
    exact (hpair.known c (fun h => hne (Or.inl h)) fun h => hne (Or.inr h)).trans hc
  · have hfirst : st.toRuntime.objcAllocateClassPair superclass name = some
        { classes := st.classes.extend name superclass hname hsuper
          table := Function.update st.table name fun _ => none } := dif_pos ⟨hname, hsuper⟩
    rw [hfirst, Option.bind_some, Runtime.objcAllocateClassPair, dif_pos ⟨hmeta, hisa⟩]
    refine congrArg some ?_
    rw [toRuntime]
    congr 1
    funext c s
    rw [withClassPair_table]
    simp only [Function.update_apply]
    by_cases hm : c = metacls
    · simp [hm]
    · by_cases hn : c = name
      · simp [hn]
      · simp only [hm, hn, or_self, if_false]

/-- The name is taken in the tables, too. -/
theorem allocate_eq_none (hst : st.objcAllocateClassPair superclass name metacls = none) :
    (st.toRuntime.objcAllocateClassPair superclass name).bind
      (·.objcAllocateClassPair (st.isa superclass) metacls) =
      none := by
  rw [objcAllocateClassPair] at hst
  rw [Runtime.objcAllocateClassPair]
  by_cases h : st.classes.known name = false ∧ st.classes.known superclass = true
  · rw [dif_pos h] at hst
    dsimp only at hst
    split_ifs at hst with h'
    rw [dif_pos (show st.toRuntime.classes.known name = false ∧
      st.toRuntime.classes.known superclass = true from h), Option.bind_some]
    exact dif_neg h'
  · rw [dif_neg (show ¬ (st.toRuntime.classes.known name = false ∧
      st.toRuntime.classes.known superclass = true) from h)]
    rfl

end Allocate

end Objc

end QYInterview.ObjC
