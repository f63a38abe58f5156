import QYInterview.ObjC.KVO

/-!
# ObjC.KVOClass — what the category makes of the classes

`RuntimeInv` compares the runtime with the one the program started with: its classes keep their
superclasses and methods, and every other class is the KVO class of one of them (`KVOClass`).  The two
changes the category makes, a new KVO class and a new setter in one, keep it, and take no method from a
class (`Grows`).
-/

namespace QYInterview.ObjC.KVO

open Dispatch

variable {U : Type}

/-- The name of the KVO class of `c`. -/
def kvoName (c : NSString) : NSString := kQYKVOClassPrefix ++ c

theorem prefix_kvoName (c : NSString) : kQYKVOClassPrefix <+: kvoName c := List.prefix_append _ _

/-- The KVO class of `c`: directly below `c`, with `class` and some of the setters overridden. -/
structure KVOClass (rt : Runtime NSString NSString (Imp U)) (c : NSString) : Prop where
  super : rt.classes.super (kvoName c) = some c
  class_imp : ∃ t, rt.table (kvoName c) classSelector = some ⟨.kvoClass, t⟩
  setter_imp : ∀ s e, s ≠ classSelector → rt.table (kvoName c) s = some e → e.imp = .kvoSetter

/-- The program's classes stay as they were; every other class is the KVO class of one of them. -/
structure RuntimeInv (rt₀ rt : Runtime NSString NSString (Imp U)) : Prop where
  known : ∀ c, rt₀.classes.known c = true → rt.classes.known c = true
  super : ∀ c, rt₀.classes.known c = true → rt.classes.super c = rt₀.classes.super c
  table : ∀ c, rt₀.classes.known c = true → rt.table c = rt₀.table c
  made : ∀ c, rt.classes.known c = true → rt₀.classes.known c = true ∨
    ∃ c₀, rt₀.classes.known c₀ = true ∧ c = kvoName c₀ ∧ KVOClass rt c₀

namespace RuntimeInv

variable {rt₀ rt : Runtime NSString NSString (Imp U)} {c s : NSString}

theorem refl : RuntimeInv rt₀ rt₀ where
  known := fun _ h => h
  super := fun _ _ => rfl
  table := fun _ _ => rfl
  made := fun _ h => Or.inl h

theorem kvoClass (h : RuntimeInv rt₀ rt) (hpre : ∀ c, rt₀.classes.known c = true → ¬ kQYKVOClassPrefix <+: c)
    (hk : rt.classes.known (kvoName c) = true) : KVOClass rt c := by
  rcases h.made _ hk with h1 | ⟨c₀, -, heq, hcls⟩
  · exact absurd (prefix_kvoName c) (hpre _ h1)
  · rwa [List.append_cancel_left heq]

variable (h : RuntimeInv rt₀ rt) (hc : rt₀.classes.known c = true)

include h hc

theorem line_eq : rt.classes.line c = rt₀.classes.line c := Hierarchy.line_congr h.super hc

/-- The program's classes find what they found before. -/
theorem lookup_eq : rt.lookup c s = rt₀.lookup c s := by
  unfold Runtime.lookup find
  rw [h.line_eq hc]
  apply find_congr
  intro d hd
  rw [h.table d (Hierarchy.known_of_mem_line hc hd)]

theorem lookupImp_eq : rt.lookupImp c s = rt₀.lookupImp c s := by
  rw [Runtime.lookupImp, h.lookup_eq hc, Runtime.lookupImp]

omit h hc in
/-- The KVO class of `c` finds its overrides, and what `c` found before. -/
theorem lookup_kvoName (h : RuntimeInv rt₀ rt) (hc : rt₀.classes.known c = true) (hcls : KVOClass rt c) :
    rt.lookup (kvoName c) s = (rt.table (kvoName c) s).or (rt₀.lookup c s) := by
  rw [Runtime.lookup, find_of_super hcls.super, ← h.lookup_eq hc]
  rfl

end RuntimeInv

/-- Classes keep their methods. -/
structure Grows (rt rt' : Runtime NSString NSString (Imp U)) : Prop where
  known : ∀ c, rt.classes.known c = true → rt'.classes.known c = true
  table : ∀ c s e, rt.classes.known c = true → rt.table c s = some e → rt'.table c s = some e

section Grow

variable {rt₀ rt : Runtime NSString NSString (Imp U)} {c s : NSString}

/-- A new setter in the KVO class of `c`. -/
theorem RuntimeInv.addSetter (h : RuntimeInv rt₀ rt)
    (hpre : ∀ c, rt₀.classes.known c = true → ¬ kQYKVOClassPrefix <+: c) (hs : s ≠ classSelector)
    (hnone : rt.table (kvoName c) s = none) (t : String) :
    RuntimeInv rt₀ (rt.classAddMethod (kvoName c) s .kvoSetter t).2 ∧
      Grows rt (rt.classAddMethod (kvoName c) s .kvoSetter t).2 := by
  have hadd : (rt.classAddMethod (kvoName c) s .kvoSetter t).2 = rt.put (kvoName c) s ⟨.kvoSetter, t⟩ := by
    rw [Runtime.classAddMethod, hnone]
  rw [hadd]
  refine ⟨⟨h.known, h.super, fun d hd => ?_, fun d hd => ?_⟩, fun _ hd => hd, fun d s' e _ he => ?_⟩
  · have hne : d ≠ kvoName c := fun heq => hpre d hd (heq ▸ prefix_kvoName c)
    rw [Runtime.put_table_of_cls_ne hne, h.table d hd]
  · rcases h.made d hd with h1 | ⟨c₀, h1, rfl, hcls⟩
    · exact Or.inl h1
    · refine Or.inr ⟨c₀, h1, rfl, hcls.super, ?_, fun s' e hs' he => ?_⟩
      · obtain ⟨t', ht'⟩ := hcls.class_imp
        exact ⟨t', by rw [Runtime.put_table_of_sel_ne (Ne.symm hs), ht']⟩
      · by_cases hss : s' = s
        · by_cases hcc : kvoName c₀ = kvoName c
          · rw [hss, hcc, Runtime.put_table_self] at he
            rw [← Option.some.inj he]
          · rw [Runtime.put_table_of_cls_ne hcc] at he
            exact hcls.setter_imp s' e hs' he
        · rw [Runtime.put_table_of_sel_ne hss] at he
          exact hcls.setter_imp s' e hs' he
  · by_cases hss : s' = s
    · have hcc : d ≠ kvoName c := by
        rintro rfl
        rw [hss, hnone] at he
        cases he
      rw [Runtime.put_table_of_cls_ne hcc, he]
    · rw [Runtime.put_table_of_sel_ne hss, he]

/-- A new KVO class below `c`. -/
theorem RuntimeInv.allocate (h : RuntimeInv rt₀ rt)
    (hc : rt₀.classes.known c = true) (hk : rt.classes.known (kvoName c) = false) (t : String) :
    ∃ rt', rt.objcAllocateClassPair c (kvoName c) = some rt' ∧
      RuntimeInv rt₀ (rt'.classAddMethod (kvoName c) classSelector .kvoClass t).2 ∧
      Grows rt (rt'.classAddMethod (kvoName c) classSelector .kvoClass t).2 ∧
      (rt'.classAddMethod (kvoName c) classSelector .kvoClass t).2.classes.known (kvoName c) = true := by
  obtain ⟨rt', hrt', hself, hsuper, hnone, hothers⟩ := Runtime.exists_allocate hk (h.known c hc)
  have hadd : (rt'.classAddMethod (kvoName c) classSelector .kvoClass t).2 =
      rt'.put (kvoName c) classSelector ⟨.kvoClass, t⟩ := by
    rw [Runtime.classAddMethod, hnone]
  have hold : ∀ d, d ≠ kvoName c →
      (rt'.put (kvoName c) classSelector ⟨.kvoClass, t⟩).table d = rt.table d := fun d hd => by
    rw [Runtime.put_table_of_cls_ne hd, (hothers d hd).2.2]
  have hne : ∀ d, rt.classes.known d = true → d ≠ kvoName c := fun d hd heq => by
    rw [heq, hk] at hd
    cases hd
  refine ⟨rt', hrt', ?_⟩
  rw [hadd]
  refine ⟨⟨fun d hd => ?_, fun d hd => ?_, fun d hd => ?_, fun d hd => ?_⟩, ⟨fun d hd => ?_, ?_⟩, hself⟩
  · exact (hothers d (hne d (h.known d hd))).1.trans (h.known d hd)
  · exact (hothers d (hne d (h.known d hd))).2.1.trans (h.super d hd)
  · rw [hold d (hne d (h.known d hd)), h.table d hd]
  · by_cases hdc : d = kvoName c
    · refine Or.inr ⟨c, hc, hdc, hsuper, ⟨t, Runtime.put_table_self⟩, ?_⟩
      intro s e hs he
      rw [Runtime.put_table_of_sel_ne hs, hnone] at he
      cases he
    · have hd' : rt.classes.known d = true := (hothers d hdc).1.symm.trans hd
      rcases h.made d hd' with h1 | ⟨c₀, h1, rfl, hcls⟩
      · exact Or.inl h1
      · refine Or.inr ⟨c₀, h1, rfl, (hothers _ hdc).2.1.trans hcls.super, ?_, fun s e hs he => ?_⟩
        · rw [hold _ hdc]
          exact hcls.class_imp
        · rw [hold _ hdc] at he
          exact hcls.setter_imp s e hs he
  · exact (hothers d (hne d hd)).1.trans hd
  · intro d s e hd he
    rw [hold d (hne d hd), he]

end Grow

end QYInterview.ObjC.KVO
