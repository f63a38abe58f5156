import Mathlib.Data.List.ReduceOption
import QYInterview.Lib.Bisect
import QYInterview.ObjC.Runtime

/-!
# ObjC.MethodLists — the method lists of a class

How `objc-runtime-new.mm` keeps and searches the methods of one class: `method_array_t` with `attachLists`,
`fixupMethodList`, `attachCategories` with its buffer, and the search of `getMethodNoSuper_nolock`.  A
`method_t` is its selector and the cell that holds its type encoding and implementation.  Selectors are
compared by address, which is the order of `ς`.

A list that is fixed up and of the expected entry size is sorted and searched by halving, any other is
searched from the front; both find the first method of the selector (`returns_searchMethodListInline`), and
so the method lists are searched as one list would be (`returns_getMethodNoSuper`).
-/

namespace QYInterview.ObjC

open RunLogic

/-- `method_t` -/
structure MethodT (ς : Type) where
  name : ς
  cell : ℕ
  deriving DecidableEq, Repr

/-- `method_list_t` -/
structure MethodList (ς : Type) where
  isFixedUp : Bool
  isExpectedSize : Bool
  isSmallList : Bool
  methods : List (MethodT ς)
  deriving DecidableEq, Repr

/-- `list_array_tt`: no list, one list, or an allocated array of lists. -/
inductive ListArray (α : Type)
  | list (l : Option α)
  | array (ls : List α)
  deriving DecidableEq, Repr

namespace ListArray

variable {α : Type}

/-- The lists from `beginLists` to `endLists`. -/
def lists : ListArray α → List α
  | list l => l.toList
  | array ls => ls

/-- `attachLists` -/
def attachLists (a : ListArray α) (addedLists : List α) : ListArray α :=
  if addedLists.length = 0 then a
  else match a with
    | array ls => array (addedLists ++ ls)
    | list none => if addedLists.length = 1 then list addedLists.head? else array addedLists
    | list (some oldList) => array (addedLists ++ [oldList])

theorem lists_attachLists (a : ListArray α) (addedLists : List α) :
    (a.attachLists addedLists).lists = addedLists ++ a.lists := by
  unfold attachLists
  by_cases h : addedLists.length = 0
  · rw [if_pos h, List.length_eq_zero_iff.mp h, List.nil_append]
  · rw [if_neg h]
    rcases a with (_ | oldList) | ls
    · by_cases h1 : addedLists.length = 1
      · obtain ⟨l, rfl⟩ := List.length_eq_one_iff.mp h1
        rfl
      · simp only [if_neg h1, lists]
        exact (List.append_nil _).symm
    · rfl
    · rfl

end ListArray

section Search

variable {ς : Type} [LinearOrder ς]

/-! ## The search of one list -/

/-- One turn of the halving loop of `findMethodInSortedMethodList`; `-1` for the end without a match. -/
def sortedTurn (names : List ς) (key : ς) : ℕ × ℕ → Prog (Turn (ℕ × ℕ) ℤ)
  | (base, count) =>
    if count = 0 then pure (.exit (-1))
    else
      let probe := base + count >>> 1
      match names[probe]? with
      | none => trap
      | some probeValue =>
        if key = probeValue then pure (.exit (probe : ℤ))
        else if key > probeValue then pure (.next (probe + 1, (count - 1) >>> 1))
        else pure (.next (base, count >>> 1))

/-- The inner loop of `findMethodInSortedMethodList`: back to the first of the equal selectors. -/
def rewind (names : List ς) (key : ς) : ℕ → ℕ
  | 0 => 0
  | probe + 1 => if names[probe]? = some key then rewind names key probe else probe + 1

/-- `findMethodInSortedMethodList` -/
def findMethodInSortedMethodList (key : ς) (list : List (MethodT ς)) : Prog (Option (MethodT ς)) := do
  let names := list.map MethodT.name
  match ← loop (sortedTurn names key) (0, list.length) with
  | .ofNat probe => pure list[rewind names key probe]?
  | .negSucc _ => pure none

/-- `findMethodInUnsortedMethodList` -/
def findMethodInUnsortedMethodList (sel : ς) (list : List (MethodT ς)) : Option (MethodT ς) :=
  list.find? (·.name = sel)

/-- `search_method_list_inline` -/
def searchMethodListInline (mlist : MethodList ς) (sel : ς) : Prog (Option (MethodT ς)) :=
  if mlist.isFixedUp ∧ mlist.isExpectedSize then findMethodInSortedMethodList sel mlist.methods
  else pure (findMethodInUnsortedMethodList sel mlist.methods)

/-- One turn of the loop of `getMethodNoSuper_nolock` over the lists. -/
def noSuperTurn (sel : ς) : List (MethodList ς) → Prog (Turn (List (MethodList ς)) (Option (MethodT ς)))
  | [] => pure (.exit none)
  | mlist :: mlists => do
    match ← searchMethodListInline mlist sel with
    | some m => pure (.exit (some m))
    | none => pure (.next mlists)

/-- `getMethodNoSuper_nolock` -/
def getMethodNoSuper (methods : ListArray (MethodList ς)) (sel : ς) : Prog (Option (MethodT ς)) :=
  loop (noSuperTurn sel) methods.lists

/-! ## Attaching -/

/-- `fixupMethodList` with `sort`: sorts by selector address, and marks the list;
small lists are immutable. -/
def fixupMethodList (mlist : MethodList ς) : MethodList ς :=
  if mlist.isSmallList then mlist
  else
    { mlist with
      isFixedUp := true
      methods := if mlist.isExpectedSize then mlist.methods.mergeSort (·.name ≤ ·.name) else mlist.methods }

/-- `prepareMethodLists` -/
def prepareMethodLists (addedLists : List (MethodList ς)) : List (MethodList ς) :=
  addedLists.map fun mlist => if mlist.isFixedUp then mlist else fixupMethodList mlist

/-- `ATTACH_BUFSIZ` -/
def attachBufsiz : ℕ := 64

/-- The loop of `attachCategories` over the method lists of the categories, oldest first.  `mlists` is the
used end of the buffer, which is filled from the back. -/
def attachLoop (methods : ListArray (MethodList ς)) (mlists : List (MethodList ς)) :
    List (Option (MethodList ς)) → ListArray (MethodList ς) × List (MethodList ς)
  | [] => (methods, mlists)
  | none :: cats => attachLoop methods mlists cats
  | some mlist :: cats =>
    if mlists.length = attachBufsiz then
      attachLoop (methods.attachLists (prepareMethodLists mlists)) [mlist] cats
    else attachLoop methods (mlist :: mlists) cats

/-- `attachCategories`, for the method lists. -/
def attachCategories (methods : ListArray (MethodList ς)) (cats : List (Option (MethodList ς))) :
    ListArray (MethodList ς) :=
  let (methods, mlists) := attachLoop methods [] cats
  if mlists.length > 0 then methods.attachLists (prepareMethodLists mlists) else methods

/-! ## What a search finds -/

/-- A list that will be searched by halving is sorted by selector address. -/
def MethodList.Sorted (mlist : MethodList ς) : Prop :=
  mlist.isFixedUp = true → mlist.isExpectedSize = true → mlist.methods.Pairwise (·.name ≤ ·.name)

variable {names : List ς} {key sel : ς} {list : List (MethodT ς)} {mlist : MethodList ς}

/-- The rewinding stops at the first of the equal selectors. -/
theorem rewind_spec (hs : names.Pairwise (· ≤ ·)) : ∀ {probe : ℕ}, names[probe]? = some key →
    names[rewind names key probe]? = some key ∧ ∀ i < rewind names key probe, names[i]? ≠ some key := by
  intro probe
  induction probe with
  | zero => exact fun h => ⟨h, fun i hi => absurd hi (Nat.not_lt_zero i)⟩
  | succ probe ih =>
    intro h
    rw [rewind]
    split_ifs with hprev
    · exact ih hprev
    · refine ⟨h, fun i hi heq => hprev ?_⟩
      -- the selectors between two equal ones are equal to them
      have hlt : probe < names.length := by have := (List.getElem?_eq_some_iff.mp h).1; omega
      have hprobe := List.getElem?_eq_getElem hlt
      rw [hprobe, Option.some.injEq]
      exact le_antisymm (Sorted.le_of_sorted hs (by omega) hprobe h)
        (Sorted.le_of_sorted hs (by omega) heq hprobe)

theorem bisectTurn_sortedTurn (names : List ς) (key : ς) :
    Bisect.BisectTurn names key (sortedTurn names key) fun s => ((s.1 : ℤ), (s.1 : ℤ) + s.2) where
  exit := by
    rintro ⟨base, count⟩ h
    rw [sortedTurn, if_pos (by simp only at h; omega)]
  probe := by
    rintro ⟨base, count⟩ - hup hlt
    simp only at hup hlt
    have hhalf : count >>> 1 = count / 2 := Nat.shiftRight_one count
    have hprobe : base + count >>> 1 < names.length := by omega
    have hget := List.getElem?_eq_getElem hprobe
    have hturn : sortedTurn names key (base, count) =
        if key = names[base + count >>> 1] then pure (.exit ((base + count >>> 1 : ℕ) : ℤ))
        else if key > names[base + count >>> 1] then pure (.next (base + count >>> 1 + 1, (count - 1) >>> 1))
        else pure (.next (base, count >>> 1)) := by
      rw [sortedTurn, if_neg (by omega)]
      simp only [hget]
    refine ⟨base + count >>> 1, names[base + count >>> 1], ?_, ?_, hget, ?_, ?_, ?_⟩
    · simp only; omega
    · simp only; omega
    · rintro hv
      rw [hturn, if_pos hv.symm]
    · intro hv
      rw [hturn, if_neg hv.ne', if_pos hv]
      refine ⟨_, rfl, Prod.ext ?_ ?_⟩
      · simp only; omega
      · simp only [Nat.shiftRight_one]; omega
    · intro hv
      rw [hturn, if_neg hv.ne, if_neg hv.not_gt]
      refine ⟨_, rfl, Prod.ext rfl ?_⟩
      simp only; omega

theorem findUnsorted_eq_getElem? {i : ℕ} (hi : (list.map MethodT.name)[i]? = some sel)
    (hfirst : ∀ j < i, (list.map MethodT.name)[j]? ≠ some sel) :
    findMethodInUnsortedMethodList sel list = list[i]? := by
  rw [List.getElem?_map] at hi
  obtain ⟨m, hm, hname⟩ := Option.map_eq_some_iff.mp hi
  obtain ⟨hlt, hget⟩ := List.getElem?_eq_some_iff.mp hm
  rw [hm, findMethodInUnsortedMethodList, List.find?_eq_some_iff_getElem]
  refine ⟨by simpa using hname, i, hlt, hget, fun j hj => ?_⟩
  have := hfirst j hj
  rw [List.getElem?_map, List.getElem?_eq_getElem (hj.trans hlt)] at this
  simpa using this

/-- **Sorted search.**  Halving and rewinding find the method that a search from the front finds, also among
equal selectors. -/
theorem returns_findMethodInSortedMethodList (key : ς) (hs : list.Pairwise (·.name ≤ ·.name)) :
    Returns (findMethodInSortedMethodList key list) (findMethodInUnsortedMethodList key list) := by
  have hnames : (list.map MethodT.name).Pairwise (· ≤ ·) := List.pairwise_map.mpr hs
  obtain ⟨r, hr, hmiss, hhit⟩ := Bisect.halts_bisect hnames (bisectTurn_sortedTurn _ key) (0, list.length)
    le_rfl (by simp)
  rw [findMethodInSortedMethodList]
  refine returns_bind hr ?_
  by_cases hex : ∃ i, Bisect.HitAt (list.map MethodT.name) key 0 list.length i
  · obtain ⟨i, rfl, -, -, hi⟩ := hhit (by simpa using hex)
    obtain ⟨hj, hfirst⟩ := rewind_spec hnames hi
    rw [findUnsorted_eq_getElem? hj hfirst]
    exact returns_pure _
  · have hr := hmiss (by simpa using hex)
    subst hr
    have hnone : findMethodInUnsortedMethodList key list = none := by
      refine List.find?_eq_none.mpr fun m hm hname => hex ?_
      obtain ⟨i, hi⟩ := List.mem_iff_getElem?.mp hm
      have hlt := (List.getElem?_eq_some_iff.mp hi).1
      refine ⟨i, by omega, by omega, ?_⟩
      rw [List.getElem?_map, hi, Option.map_some]
      exact congrArg some (of_decide_eq_true hname)
    rw [hnone]
    exact returns_pure _

theorem returns_searchMethodListInline (sel : ς) (h : mlist.Sorted) :
    Returns (searchMethodListInline mlist sel) (findMethodInUnsortedMethodList sel mlist.methods) := by
  rw [searchMethodListInline]
  split_ifs with hfast
  · exact returns_findMethodInSortedMethodList sel (h hfast.1 hfast.2)
  · exact returns_pure _

/-- The first method of a selector in the lists. -/
def firstMethod (mlists : List (MethodList ς)) (sel : ς) : Option (MethodT ς) :=
  mlists.findSome? fun mlist => findMethodInUnsortedMethodList sel mlist.methods

/-- The lists are searched in order. -/
theorem returns_getMethodNoSuper {methods : ListArray (MethodList ς)} (sel : ς)
    (h : ∀ mlist ∈ methods.lists, mlist.Sorted) :
    Returns (getMethodNoSuper methods sel) (firstMethod methods.lists sel) := by
  have key : ∀ mlists : List (MethodList ς), (∀ mlist ∈ mlists, mlist.Sorted) →
      LoopReturns (noSuperTurn sel) mlists (firstMethod mlists sel) := by
    intro mlists
    induction mlists with
    | nil => exact fun _ => loopReturns_exit (returns_pure _)
    | cons mlist mlists ih =>
      intro h
      have hhead := returns_searchMethodListInline sel (h mlist List.mem_cons_self)
      rw [firstMethod, List.findSome?_cons]
      cases hf : findMethodInUnsortedMethodList sel mlist.methods with
      | some m =>
        rw [hf] at hhead
        exact loopReturns_exit (returns_bind hhead (returns_pure _))
      | none =>
        rw [hf] at hhead
        exact loopReturns_next (returns_bind hhead (returns_pure _))
          (ih fun l hl => h l (List.mem_cons_of_mem _ hl))
  exact (key _ h).returns

/-! ## What attaching changes -/

section Attach

variable {mlists : List (MethodList ς)} {methods : ListArray (MethodList ς)}
    {cats : List (Option (MethodList ς))}

theorem pairwise_mergeSort_name (list : List (MethodT ς)) :
    (list.mergeSort (·.name ≤ ·.name)).Pairwise (·.name ≤ ·.name) := by
  have hsorted : (list.mergeSort (·.name ≤ ·.name)).Pairwise fun a b => decide (a.name ≤ b.name) = true :=
    List.pairwise_mergeSort (fun a b c hab hbc =>
      decide_eq_true ((of_decide_eq_true hab).trans (of_decide_eq_true hbc)))
    (fun a b => by simpa using le_total a.name b.name) list
  exact hsorted.imp of_decide_eq_true

/-- The stable sort keeps the first method of every selector. -/
theorem findUnsorted_mergeSort (list : List (MethodT ς)) (sel : ς) :
    findMethodInUnsortedMethodList sel (list.mergeSort (·.name ≤ ·.name)) =
      findMethodInUnsortedMethodList sel list := by
  have heq : ∀ m ∈ list.filter (·.name = sel), m.name = sel :=
    fun m hm => by simpa using (List.mem_filter.mp hm).2
  have hsub : (list.filter (·.name = sel)).Sublist (list.mergeSort (·.name ≤ ·.name)) := by
    refine List.sublist_mergeSort
      (fun a b c hab hbc => decide_eq_true ((of_decide_eq_true hab).trans (of_decide_eq_true hbc)))
      (fun a b => by simpa using le_total a.name b.name) ?_ List.filter_sublist
    exact List.pairwise_of_forall_mem_list fun a ha b hb => decide_eq_true (by rw [heq a ha, heq b hb])
  have hfilter : list.filter (·.name = sel) = (list.mergeSort (·.name ≤ ·.name)).filter (·.name = sel) := by
    have hsub' := hsub.filter (·.name = sel)
    rw [List.filter_filter] at hsub'
    simp only [Bool.and_self] at hsub'
    exact hsub'.eq_of_length (((List.mergeSort_perm list _).filter _).length_eq).symm
  rw [findMethodInUnsortedMethodList, findMethodInUnsortedMethodList, ← List.head?_filter,
    ← List.head?_filter, hfilter]

theorem sorted_fixupMethodList (h : mlist.isFixedUp = false) : (fixupMethodList mlist).Sorted := by
  rw [fixupMethodList]
  split_ifs with hsmall hsize
  · intro hfixed
    rw [h] at hfixed
    cases hfixed
  · exact fun _ _ => pairwise_mergeSort_name _
  · exact fun _ hsize' => absurd hsize' hsize

theorem sorted_prepareMethodLists (h : ∀ mlist ∈ mlists, mlist.Sorted) :
    ∀ mlist ∈ prepareMethodLists mlists, mlist.Sorted := by
  intro mlist hmem
  obtain ⟨l, hl, rfl⟩ := List.mem_map.mp hmem
  split_ifs with hfixed
  · exact h l hl
  · exact sorted_fixupMethodList (Bool.eq_false_of_not_eq_true hfixed)

theorem findUnsorted_fixupMethodList (mlist : MethodList ς) (sel : ς) :
    findMethodInUnsortedMethodList sel (fixupMethodList mlist).methods =
      findMethodInUnsortedMethodList sel mlist.methods := by
  rw [fixupMethodList]
  split_ifs
  · rfl
  · exact findUnsorted_mergeSort _ _
  · rfl

/-- **Fixing up.**  A list that is fixed up and then searched by halving gives the method that a search of
the list as it was from the front gives, also among equal selectors. -/
theorem returns_searchMethodListInline_fixup (mlist : MethodList ς) (sel : ς) (h : mlist.isFixedUp = false) :
    Returns (searchMethodListInline (fixupMethodList mlist) sel)
      (findMethodInUnsortedMethodList sel mlist.methods) := by
  have hreturns := returns_searchMethodListInline sel (sorted_fixupMethodList h)
  rw [findUnsorted_fixupMethodList] at hreturns
  exact hreturns

theorem returns_searchMethodListInline_fixup_three :
    Returns (searchMethodListInline (fixupMethodList ⟨false, true, false, [⟨7, 0⟩, ⟨3, 1⟩, ⟨7, 2⟩]⟩) 7)
      (some ⟨7, 0⟩) :=
  returns_searchMethodListInline_fixup ⟨false, true, false, [⟨7, 0⟩, ⟨3, 1⟩, ⟨7, 2⟩]⟩ 7 rfl

/-- Fixing up does not change which method a selector finds. -/
theorem firstMethod_prepareMethodLists (mlists : List (MethodList ς)) (sel : ς) :
    firstMethod (prepareMethodLists mlists) sel = firstMethod mlists sel := by
  rw [firstMethod, firstMethod, prepareMethodLists, List.findSome?_map]
  congr 1
  funext mlist
  simp only [Function.comp_apply]
  split_ifs
  · rfl
  · exact findUnsorted_fixupMethodList mlist sel

theorem firstMethod_append (front back : List (MethodList ς)) (sel : ς) :
    firstMethod (front ++ back) sel = (firstMethod front sel).or (firstMethod back sel) :=
  List.findSome?_append

/-- The buffer in front of the attached lists: the categories so far, the last one first. -/
theorem attachLoop_lists (cats : List (Option (MethodList ς))) : ∀ methods mlists,
    prepareMethodLists (attachLoop methods mlists cats).2 ++ (attachLoop methods mlists cats).1.lists =
      prepareMethodLists (cats.reduceOption.reverse ++ mlists) ++ methods.lists := by
  induction cats with
  | nil => exact fun _ _ => rfl
  | cons cat cats ih =>
    intro methods mlists
    cases cat with
    | none => exact ih methods mlists
    | some mlist =>
      rw [attachLoop, List.reduceOption_cons_of_some, List.reverse_cons, List.append_assoc,
        List.singleton_append]
      split_ifs with hfull
      · rw [ih, ListArray.lists_attachLists, ← List.append_assoc]
        congr 1
        simp [prepareMethodLists]
      · exact ih methods (mlist :: mlists)

theorem lists_attachCategories (methods : ListArray (MethodList ς)) (cats : List (Option (MethodList ς))) :
    (attachCategories methods cats).lists = prepareMethodLists cats.reduceOption.reverse ++
      methods.lists := by
  have hloop := attachLoop_lists cats methods []
  rw [List.append_nil] at hloop
  rw [attachCategories, ← hloop]
  simp only
  split_ifs with hpos
  · rw [ListArray.lists_attachLists]
  · have hnil : (attachLoop methods [] cats).2 = [] := List.length_eq_zero_iff.mp (by omega)
    rw [hnil]
    rfl

/-- **Categories.**  However many categories are attached, in one buffer or several, a selector finds the
method of the category loaded last that has one, and the methods from before only when none has. -/
theorem returns_getMethodNoSuper_attachCategories (sel : ς) (hmethods : ∀ mlist ∈ methods.lists, mlist.Sorted)
    (hcats : ∀ mlist, some mlist ∈ cats → mlist.Sorted) :
    Returns (getMethodNoSuper (attachCategories methods cats) sel)
      ((firstMethod cats.reduceOption.reverse sel).or (firstMethod methods.lists sel)) := by
  have hsorted : ∀ mlist ∈ (attachCategories methods cats).lists, mlist.Sorted := by
    intro mlist hmem
    rw [lists_attachCategories] at hmem
    rcases List.mem_append.mp hmem with hmem | hmem
    · refine sorted_prepareMethodLists (fun l hl => hcats l ?_) mlist hmem
      exact List.reduceOption_mem_iff.mp (List.mem_reverse.mp hl)
    · exact hmethods mlist hmem
  have hreturns := returns_getMethodNoSuper sel hsorted
  rw [lists_attachCategories, firstMethod_append, firstMethod_prepareMethodLists] at hreturns
  exact hreturns

theorem returns_getMethodNoSuper_attachCategories_two :
    Returns (getMethodNoSuper (attachCategories (.list (some ⟨true, true, false, [⟨1, 0⟩]⟩))
      [some ⟨false, true, false, [⟨1, 1⟩]⟩, none, some ⟨false, true, false, [⟨2, 2⟩, ⟨1, 3⟩]⟩]) 1)
      (some ⟨1, 3⟩) :=
  returns_getMethodNoSuper_attachCategories 1 (by simp [ListArray.lists, MethodList.Sorted])
    (by simp [MethodList.Sorted])

end Attach

end Search

end QYInterview.ObjC
