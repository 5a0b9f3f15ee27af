import Mathlib.Algebra.BigOperators.Ring.List
import Nixie.Ast.SolveEq

/-!
The simplifier replaces a term by one of the same value, whatever earlier calls left in its cache of
equalities.
-/

namespace Nixie.Ast

open Interp List Manager

variable {m : Manager} {K D : Type*} [Field K] [LinearOrder K] [FloorRing K] [DecidableEq D]
  {a b c t e r : Term} {args : List Term} {s : SortId}

section

variable (I : Interp m K D)

theorem isNum_simplifyAdd (h : ∀ a ∈ args, IsNum m a) : IsNum m (simplifyAdd args) := by
  have hothers : ∀ a ∈ args.filter fun a => (intConstOf a).isNone, IsNum m a :=
    fun a ha => h a (mem_filter.mp ha).1
  unfold simplifyAdd
  dsimp only
  generalize (args.filter fun a => (intConstOf a).isNone) = others at hothers ⊢
  have happ := isNum_append_int hothers (args.filterMap intConstOf).sum
  split_ifs
  · exact isNum_intConst _
  · split
    · next a ha => exact happ a (by rw [mkInt, ha]; simp)
    · exact isNum_mkAdd happ
  · split
    · exact hothers _ (by simp)
    · exact isNum_mkAdd hothers

theorem num_simplifyAdd (args : List Term) : I.num (simplifyAdd args) = (args.map I.num).sum := by
  rw [sum_ints]
  unfold simplifyAdd
  dsimp only
  generalize (args.filter fun a => (intConstOf a).isNone) = others
  generalize (args.filterMap intConstOf).sum = sum
  split_ifs with hempty hsum
  · simp [isEmpty_iff.mp hempty]
  · have happ : ((others ++ [Term.intConst sum]).map I.num).sum = (sum : K) + (others.map I.num).sum := by
      simp [add_comm]
    split
    · next a ha =>
      rw [ha] at happ
      simpa using happ
    · rw [num_mkAdd, happ]
  · obtain rfl : sum = 0 := not_not.mp hsum
    split
    · simp
    · simp [num_mkAdd]

theorem isNum_simplifyMul (h : ∀ a ∈ args, IsNum m a) : IsNum m (simplifyMul args) := by
  have hothers : ∀ a ∈ args.filter fun a => (intConstOf a).isNone, IsNum m a :=
    fun a ha => h a (mem_filter.mp ha).1
  unfold simplifyMul
  dsimp only
  generalize (args.filter fun a => (intConstOf a).isNone) = others at hothers ⊢
  have hcons : ∀ a ∈ Term.intConst (args.filterMap intConstOf).prod :: others, IsNum m a :=
    forall_mem_cons.mpr ⟨isNum_intConst _, hothers⟩
  split_ifs
  · exact isNum_intConst _
  · exact isNum_intConst _
  · split
    · next a ha => exact hcons a (by rw [ha]; simp)
    · exact isNum_mkMul hcons
  · split
    · exact hothers _ (by simp)
    · exact isNum_mkMul hothers

theorem num_simplifyMul (args : List Term) : I.num (simplifyMul args) = (args.map I.num).prod := by
  rw [prod_ints]
  unfold simplifyMul
  dsimp only
  generalize (args.filter fun a => (intConstOf a).isNone) = others
  generalize args.filterMap intConstOf = ints
  split_ifs with hzero hempty hone
  · simp [prod_eq_zero hzero]
  · simp [isEmpty_iff.mp hempty]
  · have hcons : ((Term.intConst ints.prod :: others).map I.num).prod =
        (ints.prod : ℤ) * (others.map I.num).prod := by
      rw [map_cons, prod_cons, num_intConst]
    split
    · next a ha =>
      rw [ha] at hcons
      simpa using hcons
    · rw [num_mkMul, hcons]
  · rw [not_not.mp hone]
    split
    · simp
    · simp [num_mkMul]

theorem isNum_simplifyNeg (h : IsNum m a) : IsNum m (simplifyNeg a) := by
  unfold simplifyNeg
  split
  · exact isNum_intConst _
  · next inner s => exact ⟨h.wf.child inner (by simp [Term.children]), h.wf.fits.1⟩
  · exact isNum_neg h h.sort

theorem num_neg (a : Term) (s : SortId) : I.num (.neg a s) = -I.num a := rfl

theorem num_simplifyNeg (a : Term) : I.num (simplifyNeg a) = -I.num a := by
  unfold simplifyNeg
  split
  · simp
  · simp [num_neg]
  · rfl

theorem isNum_simplifySub (ha : IsNum m a) (hb : IsNum m b) : IsNum m (simplifySub a b) := by
  unfold simplifySub
  split
  · exact isNum_intConst _
  · split_ifs
    · exact ha
    · exact isNum_simplifyNeg hb
    · exact isNum_mkSub ha hb

theorem num_simplifySub (a b : Term) : I.num (simplifySub a b) = I.num a - I.num b := by
  unfold simplifySub
  split
  · next x y hx hy =>
    rw [intConstOf_some hx, intConstOf_some hy]
    simp
  · split_ifs with hb ha
    · rw [intConstOf_some hb]
      simp
    · rw [intConstOf_some ha, num_simplifyNeg]
      simp
    · exact num_mkSub I a b

end

section

variable {op : CmpOp}

theorem intConst_of_cmpDecide {q : Bool} (h : cmpDecide op a b = some q) : ∃ x y : ℤ, a = .intConst x ∧
    b = .intConst y ∧ q = op.accepts (compare x y) := by
  unfold cmpDecide at h
  split at h
  · next x y hx hy => exact ⟨x, y, intConstOf_some hx, intConstOf_some hy, (Option.some.inj h).symm⟩
  · cases h

theorem isBool_cmpIteRule (ha : m.WellSorted a) (hnum : a.sort.isNumeric = true) (hb : IsNum m b)
    (h : cmpIteRule op a b = some r) : IsBool m r := by
  unfold cmpIteRule at h
  split at h
  · next c t e s =>
    have hbr := branches_ite ha
    have hsort : t.sort.isNumeric = true := ha.fits.2.2.numeric ▸ hnum
    have ht : IsNum m t := ⟨hbr.thenWf, hsort⟩
    have he : IsNum m e := ⟨hbr.elseWf, hbr.sort.numeric ▸ hsort⟩
    have hnot := isBool_mkNot hbr.cond
    have hcmp := fun {x} (hx : IsNum m x) => isBool_mkCmp op hx hb
    split_ifs at h
    split at h
    · cases h
      exact isBool_mkOr (by simpa using ⟨hbr.cond, hcmp he⟩)
    · cases h
      exact isBool_mkAnd (by simpa using ⟨hnot, hcmp he⟩)
    · split at h
      · cases h
        exact isBool_mkOr (by simpa using ⟨hnot, hcmp ht⟩)
      · cases h
        exact isBool_mkAnd (by simpa using ⟨hbr.cond, hcmp ht⟩)
      · cases h
  · cases h

theorem isBool_simplifyCmp (op : CmpOp) (ha : IsNum m a) (hb : IsNum m b) : IsBool m (simplifyCmp op a b) := by
  unfold simplifyCmp
  split_ifs
  · exact isBool_mkBool _
  · split
    · exact isBool_mkBool _
    · cases hrule : cmpIteRule op a b with
      | none => exact isBool_mkCmp op ha hb
      | some r => exact isBool_cmpIteRule ha.wf ha.sort hb hrule

variable [IsStrictOrderedRing K] (I : Interp m K D)

theorem cmpDecide_some {q : Bool} (h : cmpDecide op a b = some q) : op.accepts (compare (I.num a) (I.num b)) = q := by
  obtain ⟨x, y, rfl, rfl, rfl⟩ := intConst_of_cmpDecide h
  rw [num_intConst, num_intConst, ← cmp_eq_compare, ← cmp_eq_compare, Int.cast_strictMono.cmp_map_eq]

omit [IsStrictOrderedRing K] in
theorem num_ite (c t e : Term) (s : SortId) : I.num (.ite c t e s) = bif I.truth c then I.num t else I.num e := by
  rw [num, eval_ite, choice]
  cases I.truth c <;> rfl

theorem truth_cmpIteRule (h : cmpIteRule op a b = some r) : I.truth r = op.accepts (compare (I.num a) (I.num b)) := by
  unfold cmpIteRule at h
  split at h
  · next c t e s =>
    rw [num_ite]
    split_ifs at h
    split at h
    · next hdec =>
      cases h
      have ht := cmpDecide_some I hdec
      cases hc : I.truth c <;> simp [hc, ht]
    · next hdec =>
      cases h
      have ht := cmpDecide_some I hdec
      cases hc : I.truth c <;> simp [hc, ht]
    · split at h
      · next hdec =>
        cases h
        have he := cmpDecide_some I hdec
        cases hc : I.truth c <;> simp [hc, he]
      · next hdec =>
        cases h
        have he := cmpDecide_some I hdec
        cases hc : I.truth c <;> simp [hc, he]
      · cases h
  · cases h

theorem truth_simplifyCmp (op : CmpOp) (a b : Term) :
    I.truth (simplifyCmp op a b) = op.accepts (compare (I.num a) (I.num b)) := by
  unfold simplifyCmp
  split_ifs with heq
  · subst heq
    simp
  · split
    · next q hdec => rw [truth_mkBool, cmpDecide_some I hdec]
    · cases hrule : cmpIteRule op a b with
      | none => exact truth_mkCmp I op a b
      | some r => exact truth_cmpIteRule I hrule

end

section

structure Replaces (m : Manager) (K D : Type*) [Field K] [LinearOrder K] [FloorRing K] [DecidableEq D]
    (t r : Term) : Prop where
  wf : m.WellSorted r
  sort : r.sort.Compatible t.sort
  eval : ∀ I : Interp m K D, I.eval r = I.eval t

theorem Replaces.refl (h : m.WellSorted t) : Replaces m K D t t := ⟨h, .refl _, fun _ => rfl⟩

section

variable (h : Replaces m K D t r)
include h

theorem Replaces.isBool (ht : IsBool m t) : IsBool m r := ⟨h.wf, (ht.sort ▸ h.sort).eq_bool⟩

theorem Replaces.isNum (ht : IsNum m t) : IsNum m r := ⟨h.wf, h.sort.numeric.trans ht.sort⟩

theorem Replaces.truth (I : Interp m K D) : I.truth r = I.truth t := congrArg Value.isTrue (h.eval I)

theorem Replaces.num (I : Interp m K D) : I.num r = I.num t := congrArg Value.toNum (h.eval I)

end

theorem Replaces.of_truth (ht : IsBool m t) (hr : IsBool m r)
    (h : ∀ I : Interp m K D, I.truth r = I.truth t) : Replaces m K D t r := by
  refine ⟨hr.wf, by rw [hr.sort, ht.sort], fun I => ?_⟩
  rw [hr.eval_eq, ht.eval_eq, h]

theorem Replaces.of_num (ht : IsNum m t) (hr : IsNum m r)
    (h : ∀ I : Interp m K D, I.num r = I.num t) : Replaces m K D t r := by
  refine ⟨hr.wf, .inr ⟨hr.sort, ht.sort⟩, fun I => ?_⟩
  rw [hr.eval_eq, ht.eval_eq, h]

def Rewritten (m : Manager) (K D : Type*) [Field K] [LinearOrder K] [FloorRing K] [DecidableEq D]
    (t : Term) (sub : Term → Term) : Prop :=
  ∀ a ∈ simplifiableChildren t, Replaces m K D a (sub a)

theorem simplifiableChildren_subset (t : Term) : simplifiableChildren t ⊆ t.children := by
  cases t <;> simp [simplifiableChildren, Term.children]

variable {sub : Term → Term} {eqs : EqCache}

theorem truth_and (I : Interp m K D) (args : List Term) : I.truth (.and args) = args.all I.truth := by
  simp only [Interp.truth, eval, evals_eq_map, Value.isTrue_bool, all_map]
  rfl

theorem truth_or (I : Interp m K D) (args : List Term) : I.truth (.or args) = args.any I.truth := by
  simp only [Interp.truth, eval, evals_eq_map, Value.isTrue_bool, any_map]
  rfl

section

variable (hsub : ∀ a ∈ args, Replaces m K D a (sub a))
include hsub

theorem all_truth_args (I : Interp m K D) : (args.map sub).all I.truth = args.all I.truth := by
  rw [all_map]
  rw [Bool.eq_iff_iff, all_eq_true, all_eq_true]
  exact forall₂_congr fun a ha => by rw [Function.comp_apply, (hsub a ha).truth]

theorem any_truth_args (I : Interp m K D) : (args.map sub).any I.truth = args.any I.truth := by
  rw [any_map]
  rw [Bool.eq_iff_iff, any_eq_true, any_eq_true]
  exact exists_congr fun a => and_congr_right fun ha => by rw [Function.comp_apply, (hsub a ha).truth]

theorem num_args (I : Interp m K D) : (args.map sub).map I.num = args.map I.num := by
  rw [map_map]
  exact map_congr_left fun a ha => (hsub a ha).num I

end

theorem isBool_args (h : ∀ a ∈ args, IsBool m a) (hsub : ∀ a ∈ args, Replaces m K D a (sub a)) :
    ∀ a ∈ args.map sub, IsBool m a := by
  intro a ha
  obtain ⟨a, hmem, rfl⟩ := mem_map.mp ha
  exact (hsub a hmem).isBool (h a hmem)

theorem isNum_args (h : ∀ a ∈ args, IsNum m a) (hsub : ∀ a ∈ args, Replaces m K D a (sub a)) :
    ∀ a ∈ args.map sub, IsNum m a := by
  intro a ha
  obtain ⟨a, hmem, rfl⟩ := mem_map.mp ha
  exact (hsub a hmem).isNum (h a hmem)

variable [IsStrictOrderedRing K]

theorem replaces_combineSimplified (ht : m.WellSorted t) (hsub : Rewritten m K D t sub) (heqs : CacheValid m K D eqs) :
    Replaces m K D t (m.combineSimplified sub eqs t).1 ∧ CacheValid m K D (m.combineSimplified sub eqs t).2 := by
  have hchild := ht.child
  have hfits := ht.fits
  cases t with
  | not a =>
    have ha : IsBool m a := isBool_not.mp ⟨ht, rfl⟩
    have hra := hsub a (by simp [simplifiableChildren])
    refine ⟨.of_truth ⟨ht, rfl⟩ (isBool_mkNot (hra.isBool ha)) fun I => ?_, heqs⟩
    rw [combineSimplified, truth_mkNot, truth_not, hra.truth]
  | and args =>
    have hargs : ∀ a ∈ args, IsBool m a := fun a ha => ⟨hchild a ha, hfits a ha⟩
    refine ⟨.of_truth ⟨ht, rfl⟩ (isBool_absorbLiterals (isBool_args hargs hsub) _) fun I => ?_, heqs⟩
    rw [combineSimplified, truth_absorb_and, truth_and]
    exact all_truth_args hsub I
  | or args =>
    have hargs : ∀ a ∈ args, IsBool m a := fun a ha => ⟨hchild a ha, hfits a ha⟩
    refine ⟨.of_truth ⟨ht, rfl⟩ (isBool_absorbLiterals (isBool_args hargs hsub) _) fun I => ?_, heqs⟩
    rw [combineSimplified, truth_absorb_or, truth_or]
    exact any_truth_args hsub I
  | implies a b =>
    have hra := hsub a (by simp [simplifiableChildren])
    have hrb := hsub b (by simp [simplifiableChildren])
    have ha : IsBool m a := ⟨hchild a (by simp [Term.children]), hfits.1⟩
    have hb : IsBool m b := ⟨hchild b (by simp [Term.children]), hfits.2⟩
    refine ⟨.of_truth ⟨ht, rfl⟩ (isBool_mkImplies (hra.isBool ha) (hrb.isBool hb)) fun I => ?_, heqs⟩
    rw [combineSimplified, truth_mkImplies, hra.truth, hrb.truth]
    rfl
  | eq a b =>
    have hra := hsub a (by simp [simplifiableChildren])
    have hrb := hsub b (by simp [simplifiableChildren])
    have hcomp : Comparable m (sub a) (sub b) :=
      ⟨hra.wf, hrb.wf, hra.sort.trans (SortId.Compatible.trans hfits hrb.sort.symm)⟩
    obtain ⟨hout, hvalid⟩ := solves_eqIteRules hcomp heqs
    have hsolved : IsEq m K D (sub a) (sub b)
        ((m.eqIteRules eqs (sub a) (sub b)).1.getD (m.mkEq (sub a) (sub b))) := by
      cases hr : (m.eqIteRules eqs (sub a) (sub b)).1 with
      | none => exact hcomp.isEq
      | some r => exact hout r hr
    refine ⟨.of_truth ⟨ht, rfl⟩ hsolved.isBool fun I => ?_, hvalid⟩
    rw [combineSimplified, hsolved.truth, hra.eval, hrb.eval, truth_eq]
  | ite c t e s =>
    have hb := branches_ite ht
    have hrc := hsub c (by simp [simplifiableChildren])
    have hrt := hsub t (by simp [simplifiableChildren])
    have hre := hsub e (by simp [simplifiableChildren])
    have hsel : Selects m K D (sub c) (sub t) (sub e) (m.rewriteIte (sub c) (sub t) (sub e)) :=
      selects_rewriteIte ⟨hrc.isBool hb.cond, hrt.wf, hre.wf,
        hrt.sort.trans (hb.sort.trans hre.sort.symm)⟩
    refine ⟨⟨hsel.wf, hsel.sort.trans (hrt.sort.trans hfits.2.2.symm), fun I => ?_⟩, heqs⟩
    rw [combineSimplified, hsel.eval, eval_ite, choice, choice, hrc.truth, hrt.eval, hre.eval]
  | add args s =>
    have hargs : ∀ a ∈ args, IsNum m a := fun a ha => ⟨hchild a ha, hfits.1 a ha⟩
    refine ⟨.of_num ⟨ht, hfits.2⟩ (isNum_simplifyAdd (isNum_args hargs hsub)) fun I => ?_, heqs⟩
    rw [combineSimplified, num_simplifyAdd, num_add]
    exact congrArg List.sum (num_args hsub I)
  | mul args s =>
    have hargs : ∀ a ∈ args, IsNum m a := fun a ha => ⟨hchild a ha, hfits.1 a ha⟩
    refine ⟨.of_num ⟨ht, hfits.2⟩ (isNum_simplifyMul (isNum_args hargs hsub)) fun I => ?_, heqs⟩
    rw [combineSimplified, num_simplifyMul, num_mul]
    exact congrArg List.prod (num_args hsub I)
  | sub a b s =>
    have hra := hsub a (by simp [simplifiableChildren])
    have hrb := hsub b (by simp [simplifiableChildren])
    have ha : IsNum m a := ⟨hchild a (by simp [Term.children]), hfits.1⟩
    have hb : IsNum m b := ⟨hchild b (by simp [Term.children]), hfits.2.1⟩
    have hnum := isNum_simplifySub (hra.isNum ha) (hrb.isNum hb)
    refine ⟨.of_num ⟨ht, hfits.2.2⟩ hnum fun I => ?_, heqs⟩
    rw [combineSimplified, num_simplifySub, hra.num, hrb.num]
    rfl
  | neg a s =>
    have hra := hsub a (by simp [simplifiableChildren])
    have ha : IsNum m a := ⟨hchild a (by simp [Term.children]), hfits.1⟩
    refine ⟨.of_num ⟨ht, hfits.2⟩ (isNum_simplifyNeg (hra.isNum ha)) fun I => ?_, heqs⟩
    rw [combineSimplified, num_simplifyNeg, hra.num, num_neg]
  | cmp op a b =>
    have hra := hsub a (by simp [simplifiableChildren])
    have hrb := hsub b (by simp [simplifiableChildren])
    have ha : IsNum m a := ⟨hchild a (by simp [Term.children]), hfits.1⟩
    have hb : IsNum m b := ⟨hchild b (by simp [Term.children]), hfits.2⟩
    refine ⟨.of_truth ⟨ht, rfl⟩ (isBool_simplifyCmp op (hra.isNum ha) (hrb.isNum hb)) fun I => ?_, heqs⟩
    rw [combineSimplified, truth_simplifyCmp, hra.num, hrb.num]
    rfl
  | _ => exact ⟨.refl ht, heqs⟩

variable {cache : Term → Option Term} {stack : List (Term × Bool)}

theorem simplifyLoop_valid (hstack : ∀ p ∈ stack, m.WellSorted p.1)
    (hcache : ∀ t r, cache t = some r → Replaces m K D t r) (heqs : CacheValid m K D eqs) :
    (∀ t r, (m.simplifyLoop stack cache eqs).1 t = some r → Replaces m K D t r) ∧
    CacheValid m K D (m.simplifyLoop stack cache eqs).2 := by
  fun_induction m.simplifyLoop stack cache eqs with
  | case1 cache eqs => exact ⟨hcache, heqs⟩
  | case2 cache eqs current expanded stack hcached ih =>
    exact ih (fun p hp => hstack p (mem_cons_of_mem _ hp)) hcache heqs
  | case3 cache eqs current stack hcached result eqs' hcombine ih =>
    have hcur := hstack (current, true) (by simp)
    have hsub : Rewritten m K D current fun t => (cache t).getD t := by
      intro a ha
      dsimp only
      cases hr : cache a with
      | none => exact .refl (hcur.child a (simplifiableChildren_subset current ha))
      | some r => exact hcache a r hr
    obtain ⟨hresult, hvalid⟩ := replaces_combineSimplified hcur hsub heqs
    rw [hcombine] at hresult hvalid
    refine ih (fun p hp => hstack p (mem_cons_of_mem _ hp)) (fun t r hr => ?_) hvalid
    by_cases ht : t = current
    · subst ht
      rw [Function.update_self] at hr
      exact Option.some.inj hr ▸ hresult
    · rw [Function.update_of_ne ht] at hr
      exact hcache t r hr
  | case4 cache eqs current expanded stack hcached hexp children ih =>
    refine ih (fun p hp => ?_) hcache heqs
    have hcur := hstack (current, expanded) (by simp)
    simp only [mem_append, mem_map, mem_cons] at hp
    rcases hp with ⟨c, hc, rfl⟩ | rfl | hp
    · exact hcur.child c (simplifiableChildren_subset current (mem_filter.mp hc).1)
    · exact hcur
    · exact hstack p (mem_cons_of_mem _ hp)

theorem simplify_spec (ht : m.WellSorted t) (heqs : CacheValid m K D eqs) :
    Replaces m K D t (m.simplify eqs t).1 ∧ CacheValid m K D (m.simplify eqs t).2 := by
  have hstack : ∀ p ∈ [(t, false)], m.WellSorted p.1 := by simpa using ht
  have hnone : ∀ u r, (none : Option Term) = some r → Replaces m K D u r := nofun
  obtain ⟨hcache, hvalid⟩ := simplifyLoop_valid hstack hnone heqs
  refine ⟨?_, hvalid⟩
  unfold simplify
  dsimp only
  cases hr : (m.simplifyLoop [(t, false)] (fun _ => none) eqs).1 t with
  | none => exact .refl ht
  | some r => exact hcache t r hr

end

end Nixie.Ast
