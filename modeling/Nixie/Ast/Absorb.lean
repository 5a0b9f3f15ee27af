import Nixie.Ast.Simplify
import Nixie.Ast.Sorting

/-!
The rules for literals and for if-then-else keep the value.
-/

namespace Nixie.Ast

open Interp List

variable {m : Manager} {K D : Type*} [Field K] [LinearOrder K] [FloorRing K] [DecidableEq D]
  {I : Interp m K D} {c t e c' t' e' : Term} {args : List Term} {conjunction : Bool}

theorem absorb_subset {pos neg kept : List Term} (h : absorb pos neg args = some kept) : ∀ a ∈ kept, a ∈ args := by
  fun_induction absorb pos neg args generalizing kept with
  | case1 =>
    cases h
    simp
  | case2 pos neg x args hx ih => exact fun a ha => mem_cons_of_mem _ (ih h a ha)
  | case3 => cases h
  | case4 pos neg x args h1 h2 ih =>
    obtain ⟨rest, hrest, rfl⟩ := Option.map_eq_some_iff.mp h
    exact fun a ha => (mem_cons.mp ha).elim (fun heq => heq ▸ mem_cons_self)
      fun ha => mem_cons_of_mem _ (ih hrest a ha)
  | case5 pos neg b args hb hpos ih => exact fun a ha => mem_cons_of_mem _ (ih h a ha)
  | case6 => cases h
  | case7 pos neg b args hb h1 h2 ih =>
    obtain ⟨rest, hrest, rfl⟩ := Option.map_eq_some_iff.mp h
    exact fun a ha => (mem_cons.mp ha).elim (fun heq => heq ▸ mem_cons_self)
      fun ha => mem_cons_of_mem _ (ih hrest a ha)

section

variable (I : Interp m K D)

theorem all_absorb {pos neg : List Term} (hpos : ∀ p ∈ pos, I.truth p = conjunction)
    (hneg : ∀ x ∈ neg, I.truth x = !conjunction) :
    args.all (I.agrees conjunction) =
    ((absorb pos neg args).map fun kept => kept.all (I.agrees conjunction)).getD false := by
  fun_induction absorb pos neg args with
  | case1 => rfl
  | case2 pos neg x args hx ih =>
    rw [all_cons, ih hpos hneg]
    simp [agrees, hneg x hx]
  | case3 pos neg x args h1 h2 => simp [agrees, hpos x h2]
  | case4 pos neg x args h1 h2 ih =>
    rw [all_cons]
    by_cases hx : I.truth x = !conjunction
    · have hneg' : ∀ y ∈ x :: neg, I.truth y = !conjunction := by
        simpa using ⟨hx, hneg⟩
      rw [ih hpos hneg']
      cases absorb pos (x :: neg) args <;> simp
    · have hagree : I.agrees conjunction (.not x) = false := by
        revert hx
        cases conjunction <;> simp [agrees]
      rw [hagree]
      cases absorb pos (x :: neg) args <;> simp [hagree]
  | case5 pos neg b args hb h1 ih =>
    rw [all_cons, ih hpos hneg]
    simp [agrees, hpos b h1]
  | case6 pos neg b args hb h1 h2 => simp [agrees, hneg b h2]
  | case7 pos neg b args hb h1 h2 ih =>
    rw [all_cons]
    by_cases hx : I.truth b = conjunction
    · have hpos' : ∀ y ∈ b :: pos, I.truth y = conjunction := by
        simpa using ⟨hx, hpos⟩
      rw [ih hpos' hneg]
      cases absorb (b :: pos) neg args <;> simp
    · have hagree : I.agrees conjunction b = false := by simpa [agrees] using hx
      rw [hagree]
      cases absorb (b :: pos) neg args <;> simp [hagree]

theorem truth_absorbLiterals (args : List Term) (conjunction : Bool) :
    I.truth (absorbLiterals args conjunction) = (args.all (I.agrees conjunction) == conjunction) := by
  rw [all_agrees_eq]
  unfold absorbLiterals
  cases flatArgs conjunction args with
  | none => cases conjunction <;> simp
  | some flat =>
    simp only [Option.map_some, Option.getD_some]
    split_ifs
    · exact truth_mkConnective I conjunction flat
    · have hall : flat.all (I.agrees conjunction) =
          ((absorb [] [] flat).map fun kept => kept.all (I.agrees conjunction)).getD false :=
        all_absorb I (by simp) (by simp)
      rw [hall]
      cases absorb [] [] flat with
      | none => cases conjunction <;> simp
      | some kept => exact truth_mkConnective I conjunction kept

theorem isBool_absorbLiterals (h : ∀ a ∈ args, IsBool m a) (conjunction : Bool) :
    IsBool m (absorbLiterals args conjunction) := by
  unfold absorbLiterals
  split
  · exact isBool_mkBool _
  · next flat hflat =>
    have hbool := isBool_flatArgs h hflat
    split_ifs
    · exact isBool_mkConnective hbool
    · split
      · exact isBool_mkBool _
      · next kept hkept => exact isBool_mkConnective fun a ha => hbool a (absorb_subset hkept a ha)

theorem truth_absorb_and (args : List Term) : I.truth (absorbLiterals args true) = args.all I.truth := by
  rw [truth_absorbLiterals, ← truth_mkConnective]
  exact truth_mkAnd I args

theorem truth_absorb_or (args : List Term) : I.truth (absorbLiterals args false) = args.any I.truth := by
  rw [truth_absorbLiterals, ← truth_mkConnective]
  exact truth_mkOr I args

end

section

structure SameChoice (m : Manager) (K D : Type*) [Field K] [LinearOrder K] [FloorRing K] [DecidableEq D]
    (c t e c' t' e' : Term) : Prop where
  branches : Branches m c' t' e'
  sort : t'.sort.Compatible t.sort
  choice : ∀ I : Interp m K D, I.choice c' t' e' = I.choice c t e

theorem SameChoice.trans {c'' t'' e'' : Term} (h : SameChoice m K D c t e c' t' e')
    (h' : SameChoice m K D c' t' e' c'' t'' e'') : SameChoice m K D c t e c'' t'' e'' where
  branches := h'.branches
  sort := h'.sort.trans h.sort
  choice := fun I => (h'.choice I).trans (h.choice I)

variable {r : Term}

theorem SameChoice.selects (h : SameChoice m K D c t e c' t' e') (hr : Selects m K D c' t' e' r) :
    Selects m K D c t e r where
  wf := hr.wf
  sort := hr.sort.trans h.sort
  eval := fun I => (hr.eval I).trans (h.choice I)

variable (h : Branches m c t e)

include h

theorem sameChoice_swapNegated : SameChoice m K D c t e (swapNegated c t e).1 (swapNegated c t e).2.1
    (swapNegated c t e).2.2 := by
  unfold swapNegated
  split
  · next inner =>
    refine ⟨⟨isBool_not.mp h.cond, h.elseWf, h.thenWf, h.sort.symm⟩, h.sort.symm, fun I => ?_⟩
    simp only [choice, truth_not]
    cases I.truth inner <;> rfl
  · exact ⟨h, .refl _, fun I => rfl⟩

theorem sameChoice_pruneThen : SameChoice m K D c t e c (pruneThen c t) e := by
  unfold pruneThen
  split
  · next c2 t1 t2 s =>
    split_ifs with hc
    · subst hc
      have hb := branches_ite h.thenWf
      have hs := h.thenWf.fits.2.2
      refine ⟨⟨h.cond, hb.thenWf, h.elseWf, hs.symm.trans h.sort⟩, hs.symm, fun I => ?_⟩
      simp only [choice, eval_ite]
      cases I.truth c2 <;> rfl
    · exact ⟨h, .refl _, fun I => rfl⟩
  · exact ⟨h, .refl _, fun I => rfl⟩

theorem sameChoice_pruneElse : SameChoice m K D c t e c t (pruneElse c e) := by
  unfold pruneElse
  split
  · next c2 t1 t2 s =>
    split_ifs with hc
    · subst hc
      have hb := branches_ite h.elseWf
      have hs := h.elseWf.fits.2.2
      refine ⟨⟨h.cond, h.thenWf, hb.elseWf, h.sort.trans (hs.trans hb.sort)⟩, .refl _, fun I => ?_⟩
      simp only [choice, eval_ite]
      cases I.truth c2 <;> rfl
    · exact ⟨h, .refl _, fun I => rfl⟩
  · exact ⟨h, .refl _, fun I => rfl⟩

theorem sameChoice_mergeElse (hm : mergeElse c t e = some (c', t', e')) : SameChoice m K D c t e c' t' e' := by
  unfold mergeElse at hm
  split at hm
  · next c2 et ee s =>
    split_ifs at hm with het
    cases hm
    subst het
    have hb := branches_ite h.elseWf
    refine ⟨⟨isBool_mkOr (by simpa using ⟨h.cond, hb.cond⟩), h.thenWf, hb.elseWf, hb.sort⟩, .refl _, fun I => ?_⟩
    simp only [choice, eval_ite, truth_mkOr, any_cons, any_nil, Bool.or_false]
    cases I.truth c <;> cases I.truth c2 <;> rfl
  · cases hm

theorem sameChoice_mergeThen (hm : mergeThen c t e = some (c', t', e')) : SameChoice m K D c t e c' t' e' := by
  unfold mergeThen at hm
  split at hm
  · next c2 tt te s =>
    have hb := branches_ite h.thenWf
    have hs := h.thenWf.fits.2.2
    have hnot := isBool_mkNot hb.cond
    split_ifs at hm with h1 h2
    · cases hm
      subst h1
      refine ⟨⟨isBool_mkAnd (by simpa using ⟨h.cond, hnot⟩), hb.elseWf, h.elseWf, hb.sort.symm⟩,
        hb.sort.symm.trans hs.symm, fun I => ?_⟩
      simp only [choice, eval_ite, truth_mkAnd, truth_mkNot, all_cons, all_nil, Bool.and_true]
      cases I.truth c <;> cases I.truth c2 <;> rfl
    · cases hm
      subst h2
      refine ⟨⟨isBool_mkAnd (by simpa using ⟨h.cond, hb.cond⟩), hb.thenWf, h.elseWf, hb.sort⟩, hs.symm, fun I => ?_⟩
      simp only [choice, eval_ite, truth_mkAnd, all_cons, all_nil, Bool.and_true]
      cases I.truth c <;> cases I.truth c2 <;> rfl
    · split at hm
      · next c3 et ee s' =>
        have hb' := branches_ite h.elseWf
        have hboth : IsBool m (mkAnd [c, c2]) := isBool_mkAnd (by simpa using ⟨h.cond, hb.cond⟩)
        have hnc := isBool_mkNot h.cond
        split_ifs at hm with h3 h4
        · cases hm
          obtain ⟨rfl, rfl⟩ := h3
          have hother : IsBool m (mkAnd [mkNot c, c3]) := isBool_mkAnd (by simpa using ⟨hnc, hb'.cond⟩)
          refine ⟨⟨isBool_mkOr (by simpa using ⟨hboth, hother⟩), hb.thenWf, hb.elseWf, hb.sort⟩, hs.symm, fun I => ?_⟩
          simp only [choice, eval_ite, truth_mkOr, truth_mkAnd, truth_mkNot, any_cons,
            any_nil, all_cons, all_nil, Bool.and_true, Bool.or_false]
          cases I.truth c <;> cases I.truth c2 <;> cases I.truth c3 <;> rfl
        · cases hm
          obtain ⟨rfl, rfl⟩ := h4
          have hother : IsBool m (mkAnd [mkNot c, mkNot c3]) :=
            isBool_mkAnd (by simpa using ⟨hnc, isBool_mkNot hb'.cond⟩)
          refine ⟨⟨isBool_mkOr (by simpa using ⟨hboth, hother⟩), hb.thenWf, hb.elseWf, hb.sort⟩, hs.symm, fun I => ?_⟩
          simp only [choice, eval_ite, truth_mkOr, truth_mkAnd, truth_mkNot, any_cons,
            any_nil, all_cons, all_nil, Bool.and_true, Bool.or_false]
          cases I.truth c <;> cases I.truth c2 <;> cases I.truth c3 <;> rfl
      · cases hm
  · cases hm

theorem sameChoice_mergeTail (hm : mergeTail c t e = some (c', t', e')) : SameChoice m K D c t e c' t' e' := by
  unfold mergeTail at hm
  split at hm
  · next c2 et ee s =>
    have hb := branches_ite h.elseWf
    have hnot := isBool_mkNot hb.cond
    split_ifs at hm with h1 h2
    · cases hm
      subst h1
      refine ⟨⟨isBool_mkOr (by simpa using ⟨h.cond, hb.cond⟩), h.thenWf, hb.elseWf, hb.sort⟩, .refl _, fun I => ?_⟩
      simp only [choice, eval_ite, truth_mkOr, any_cons, any_nil, Bool.or_false]
      cases I.truth c <;> cases I.truth c2 <;> rfl
    · cases hm
      subst h2
      refine ⟨⟨isBool_mkOr (by simpa using ⟨h.cond, hnot⟩), h.thenWf, hb.thenWf, hb.sort.symm⟩, .refl _, fun I => ?_⟩
      simp only [choice, eval_ite, truth_mkOr, truth_mkNot, any_cons, any_nil, Bool.or_false]
      cases I.truth c <;> cases I.truth c2 <;> rfl
  · cases hm

omit h in
theorem selects_of_truth (ht : IsBool m t) (he : IsBool m e) (hr : IsBool m r)
    (hv : ∀ I : Interp m K D, I.truth r = bif I.truth c then I.truth t else I.truth e) : Selects m K D c t e r := by
  refine ⟨hr.wf, by rw [hr.sort, ht.sort], fun I => ?_⟩
  rw [hr.eval_eq, hv I, choice, ht.eval_eq, he.eval_eq]
  cases I.truth c <;> rfl

theorem selects_connectIte (hr : m.connectIte c t e = some r) : Selects m K D c t e r := by
  unfold Manager.connectIte at hr
  by_cases hbool : t.sort = .bool
  · have ht : IsBool m t := ⟨h.thenWf, hbool⟩
    have he : IsBool m e := ⟨h.elseWf, (hbool ▸ h.sort.symm).eq_bool⟩
    have hc := h.cond
    have hnot := isBool_mkNot hc
    rw [if_neg (not_not.mpr hbool)] at hr
    split_ifs at hr with h1 h2 h3 h4 h5 h6 h7 h8 h9 h10 <;> cases hr
    · refine selects_of_truth ht he hc fun I => ?_
      rw [h1.1, h1.2]
      cases I.truth c <;> rfl
    · refine selects_of_truth ht he hnot fun I => ?_
      rw [h2.1, h2.2, truth_mkNot]
      cases I.truth c <;> rfl
    · refine selects_of_truth ht he (isBool_mkOr (by simpa using ⟨hc, he⟩)) fun I => ?_
      simp only [h3, truth_mkOr, any_cons, any_nil, truth_true]
      cases I.truth c <;> simp
    · refine selects_of_truth ht he (isBool_mkAnd (by simpa using ⟨hnot, he⟩)) fun I => ?_
      simp only [h4, truth_mkAnd, truth_mkNot, all_cons, all_nil, truth_false]
      cases I.truth c <;> simp
    · refine selects_of_truth ht he (isBool_mkOr (by simpa using ⟨hnot, ht⟩)) fun I => ?_
      simp only [h5, truth_mkOr, truth_mkNot, any_cons, any_nil, truth_true]
      cases I.truth c <;> simp
    · refine selects_of_truth ht he (isBool_mkAnd (by simpa using ⟨hc, ht⟩)) fun I => ?_
      simp only [h6, truth_mkAnd, all_cons, all_nil, truth_false]
      cases I.truth c <;> simp
    · refine selects_of_truth ht he (isBool_mkAnd (by simpa using ⟨hc, ht⟩)) fun I => ?_
      simp only [← h7, truth_mkAnd, all_cons, all_nil]
      cases I.truth c <;> simp
    · refine selects_of_truth ht he (isBool_mkOr (by simpa using ⟨hc, he⟩)) fun I => ?_
      simp only [← h8, truth_mkOr, any_cons, any_nil]
      cases I.truth c <;> simp
    all_goals
      have heq : IsEq m K D c t (m.mkEq c t) := isEq_mkEq hc.wf ht.wf (by rw [hc.sort, ht.sort])
      refine selects_of_truth ht he heq.isBool fun I => ?_
      rw [heq.truth, hc.eval_eq, ht.eval_eq]
    · rw [h9, truth_not]
      cases I.truth c <;> cases I.truth t <;> rfl
    · rw [h10, truth_not]
      cases I.truth c <;> cases I.truth e <;> rfl
  · rw [if_pos hbool] at hr
    cases hr

theorem rewriteTail_spec (step : IteStep) (hstep : m.rewriteTail c t e = step) :
    (∀ r, step = .done r → Selects m K D c t e r) ∧ ∀ c' t' e', step = .again c' t' e' →
    SameChoice m K D c t e c' t' e' := by
  unfold Manager.rewriteTail at hstep
  split_ifs at hstep with h1 h2 h3
  · subst hstep
    refine ⟨fun r hr => ?_, by simp⟩
    cases hr
    exact ⟨h.thenWf, .refl _, fun I => by simp [choice, h1]⟩
  · subst hstep
    refine ⟨fun r hr => ?_, by simp⟩
    cases hr
    exact ⟨h.elseWf, h.sort.symm, fun I => by simp [choice, h2]⟩
  · subst hstep
    refine ⟨fun r hr => ?_, by simp⟩
    cases hr
    exact ⟨h.thenWf, .refl _, fun I => by simp [choice, h3]⟩
  · split at hstep
    · next r hr =>
      subst hstep
      refine ⟨fun r' hr' => ?_, by simp⟩
      cases hr'
      exact selects_connectIte h hr
    · split at hstep
      · next c1 t1 e1 hm =>
        subst hstep
        refine ⟨by simp, fun c' t' e' heq => ?_⟩
        cases heq
        exact sameChoice_mergeThen h hm
      · split at hstep
        · next c1 t1 e1 hm =>
          subst hstep
          refine ⟨by simp, fun c' t' e' heq => ?_⟩
          cases heq
          exact sameChoice_mergeTail h hm
        · subst hstep
          refine ⟨fun r hr => ?_, by simp⟩
          cases hr
          exact selects_mkIte h

theorem rewriteStep_spec (step : IteStep) (hstep : m.rewriteStep c t e = step) :
    (∀ r, step = .done r → Selects m K D c t e r) ∧ ∀ c' t' e', step = .again c' t' e' →
    SameChoice m K D c t e c' t' e' := by
  unfold Manager.rewriteStep at hstep
  dsimp only at hstep
  have hswap : SameChoice m K D c t e _ _ _ := sameChoice_swapNegated h
  generalize swapNegated c t e = next at hstep hswap
  obtain ⟨c1, t1, e1⟩ := next
  dsimp only at hstep hswap
  have hthen := hswap.trans (sameChoice_pruneThen hswap.branches)
  split at hstep
  · next c2 t2 e2 hm =>
    subst hstep
    refine ⟨by simp, fun c' t' e' heq => ?_⟩
    cases heq
    exact hthen.trans (sameChoice_mergeElse hthen.branches hm)
  · have helse := hthen.trans (sameChoice_pruneElse hthen.branches)
    have htail := rewriteTail_spec (K := K) (D := D) helse.branches step hstep
    exact ⟨fun r hr => helse.selects (htail.1 r hr), fun c' t' e' heq => helse.trans (htail.2 c' t' e' heq)⟩

theorem selects_rewriteIte : Selects m K D c t e (m.rewriteIte c t e) := by
  fun_induction m.rewriteIte c t e with
  | case1 c t e r hstep => exact (rewriteStep_spec h _ hstep).1 r rfl
  | case2 c t e c' t' e' hstep ih =>
    have hsame : SameChoice m K D c t e c' t' e' := (rewriteStep_spec h _ hstep).2 c' t' e' rfl
    exact hsame.selects (ih hsame.branches)

end

end Nixie.Ast
