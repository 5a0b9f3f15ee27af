import Nixie.Ast.BuilderValue

/-!
Well-sorted terms: their values have the kind of their sort, the constructors make well-sorted terms,
and an equality denotes equality.
-/

namespace Nixie.Ast

open Interp Manager

variable {m : Manager} {K D : Type*} [Field K] [LinearOrder K] [FloorRing K] [DecidableEq D]
  {I : Interp m K D} {t a b c e : Term}

section

theorem Manager.WellSorted.fits (h : m.WellSorted t) : m.Fits t := by
  cases h with
  | mk fits _ => exact fits

theorem Manager.WellSorted.child (h : m.WellSorted t) : ∀ a ∈ t.children, m.WellSorted a := by
  cases h with
  | mk _ children => exact children

structure IsBool (m : Manager) (t : Term) : Prop where
  wf : m.WellSorted t
  sort : t.sort = .bool

structure IsNum (m : Manager) (t : Term) : Prop where
  wf : m.WellSorted t
  sort : t.sort.isNumeric = true

theorem not_bool_of_numeric {s : SortId} (h : s.isNumeric = true) : s ≠ .bool := by
  rintro rfl
  cases h

variable (I) in
theorem value_of_sort (h : m.WellSorted t) :
    (t.sort = .bool → ∃ q, I.eval t = .bool q) ∧ (t.sort.isNumeric = true → ∃ k, I.eval t = .num k) := by
  induction t using Term.induct with
  | h t ih =>
    have hvalue : ∀ v : Value K D, v.HasSort t.sort →
        (t.sort = .bool → ∃ q, v = .bool q) ∧ (t.sort.isNumeric = true → ∃ k, v = .num k) := by
      intro v hv
      refine ⟨fun hs => by rwa [hs] at hv, fun hs => ?_⟩
      revert hs hv
      cases t.sort <;> simp only [SortId.isNumeric, Bool.false_eq_true, false_implies, implies_true]
      · rintro ⟨n, hn⟩ -
        exact ⟨n, hn⟩
      · exact fun hv _ => hv
    cases t with
    | var x s => exact hvalue _ (I.value_sort _)
    | other k args s => exact hvalue _ (I.value_sort _)
    | dtConstructor c args s => exact hvalue _ (I.construct_sort _ _ _)
    | ite c t e s =>
      obtain ⟨-, hte, hst⟩ := h.fits
      have ht := ih t (by simp [Term.children]) (h.child t (by simp [Term.children]))
      have he := ih e (by simp [Term.children]) (h.child e (by simp [Term.children]))
      have hif : I.eval (.ite c t e s) = I.eval t ∨ I.eval (.ite c t e s) = I.eval e := by
        simp only [eval]
        split_ifs <;> simp
      have hse := hst.trans hte
      constructor
      · intro hs
        obtain rfl : s = .bool := hs
        rcases hif with hif | hif <;> rw [hif]
        · exact ht.1 hst.symm.eq_bool
        · exact he.1 hse.symm.eq_bool
      · intro hs
        rcases hif with hif | hif <;> rw [hif]
        · exact ht.2 (hst.numeric ▸ hs)
        · exact he.2 (hse.numeric ▸ hs)
    | neg a s => exact ⟨fun hs => (not_bool_of_numeric h.fits.2 hs).elim, fun _ => ⟨_, rfl⟩⟩
    | add args s => exact ⟨fun hs => (not_bool_of_numeric h.fits.2 hs).elim, fun _ => ⟨_, rfl⟩⟩
    | mul args s => exact ⟨fun hs => (not_bool_of_numeric h.fits.2 hs).elim, fun _ => ⟨_, rfl⟩⟩
    | sub a b s => exact ⟨fun hs => (not_bool_of_numeric h.fits.2.2 hs).elim, fun _ => ⟨_, rfl⟩⟩
    | div a b s => exact ⟨fun hs => (not_bool_of_numeric h.fits.2.2 hs).elim, fun _ => ⟨_, rfl⟩⟩
    | mod a b s => exact ⟨fun hs => (not_bool_of_numeric h.fits.2.2 hs).elim, fun _ => ⟨_, rfl⟩⟩
    | intConst | realConst => exact ⟨by rintro ⟨⟩, fun _ => ⟨_, rfl⟩⟩
    | bitVecConst | stringLit | ffConst => exact ⟨by rintro ⟨⟩, by rintro ⟨⟩⟩
    | _ => exact ⟨fun _ => ⟨_, rfl⟩, by rintro ⟨⟩⟩

theorem IsBool.eval_eq (h : IsBool m t) : I.eval t = .bool (I.truth t) := by
  obtain ⟨q, hq⟩ := (value_of_sort I h.wf).1 h.sort
  rw [truth, hq]
  rfl

theorem IsNum.eval_eq (h : IsNum m t) : I.eval t = .num (I.num t) := by
  obtain ⟨k, hk⟩ := (value_of_sort I h.wf).2 h.sort
  rw [num, hk]
  rfl

end

section

variable {args : List Term} {conjunction : Bool}

theorem isBool_mkBool (q : Bool) : IsBool m (mkBool q) := by
  cases q <;> exact ⟨.mk trivial nofun, rfl⟩

theorem isBool_true : IsBool m .true := isBool_mkBool Bool.true

theorem isBool_false : IsBool m .false := isBool_mkBool Bool.false

theorem isBool_not : IsBool m (.not a) ↔ IsBool m a := by
  constructor
  · intro h
    exact ⟨h.wf.child a (by simp [Term.children]), h.wf.fits⟩
  · intro h
    exact ⟨.mk h.sort (by simpa [Term.children] using h.wf), rfl⟩

theorem isBool_connective : IsBool m (connective conjunction args) ↔ ∀ a ∈ args, IsBool m a := by
  cases conjunction
  all_goals
    constructor
    · intro h a ha
      exact ⟨h.wf.child a ha, h.wf.fits a ha⟩
    · intro h
      exact ⟨.mk (fun a ha => (h a ha).sort) fun a ha => (h a ha).wf, rfl⟩

theorem isBool_mkNot (h : IsBool m a) : IsBool m (mkNot a) := by
  unfold mkNot
  split
  · exact isBool_not.mp h
  · exact isBool_false
  · exact isBool_true
  · exact isBool_not.mpr h

theorem isBool_flatArgs {flat : List Term} (h : ∀ a ∈ args, IsBool m a)
    (hflat : flatArgs conjunction args = some flat) : ∀ a ∈ flat, IsBool m a := by
  induction args generalizing flat with
  | nil =>
    cases hflat
    nofun
  | cons arg args ih =>
    have hrest : ∀ {flat}, flatArgs conjunction args = some flat → ∀ a ∈ flat, IsBool m a :=
      fun hr => ih (fun a ha => h a (List.mem_cons_of_mem _ ha)) hr
    unfold flatArgs at hflat
    split_ifs at hflat
    · exact hrest hflat
    · split at hflat
      · next inner hinner =>
        obtain ⟨rest, hr, rfl⟩ := Option.map_eq_some_iff.mp hflat
        have harg := h arg (by simp)
        rw [connectiveArgs_some hinner, isBool_connective] at harg
        intro a ha
        exact (List.mem_append.mp ha).elim (harg a) (hrest hr a)
      · obtain ⟨rest, hr, rfl⟩ := Option.map_eq_some_iff.mp hflat
        intro a ha
        rcases List.mem_cons.mp ha with rfl | ha
        · exact h a (by simp)
        · exact hrest hr a ha

section

variable (h : ∀ a ∈ args, IsBool m a)
include h

theorem isBool_mkConnective : IsBool m (mkConnective conjunction args) := by
  unfold mkConnective
  split
  · exact isBool_mkBool _
  · exact isBool_mkBool _
  · next hflat => exact isBool_flatArgs h hflat _ (by simp)
  · next hflat => exact isBool_connective.mpr (isBool_flatArgs h hflat)

theorem isBool_mkAnd : IsBool m (mkAnd args) := isBool_mkConnective h

theorem isBool_mkOr : IsBool m (mkOr args) := isBool_mkConnective h

end

theorem isBool_mkImplies (ha : IsBool m a) (hb : IsBool m b) : IsBool m (mkImplies a b) := by
  unfold mkImplies
  split_ifs
  · exact isBool_true
  · exact hb
  · exact isBool_true
  · refine ⟨.mk ⟨ha.sort, hb.sort⟩ ?_, rfl⟩
    simpa [Term.children] using ⟨ha.wf, hb.wf⟩

end

section

theorem isBool_eq (ha : m.WellSorted a) (hb : m.WellSorted b) (hs : a.sort.Compatible b.sort) : IsBool m (.eq a b) :=
  ⟨.mk hs (by simpa [Term.children] using ⟨ha, hb⟩), rfl⟩

theorem truth_eq : I.truth (.eq a b) = decide (I.eval a = I.eval b) := rfl

structure IsEq (m : Manager) (K D : Type*) [Field K] [LinearOrder K] [FloorRing K] [DecidableEq D]
    (a b r : Term) : Prop where
  isBool : IsBool m r
  truth : ∀ I : Interp m K D, I.truth r = decide (I.eval a = I.eval b)

variable (ha : m.WellSorted a) (hb : m.WellSorted b) (hs : a.sort.Compatible b.sort)

include ha hb hs

theorem isEq_orientEq : IsEq m K D a b (m.orientEq a b) := by
  unfold orientEq
  split_ifs
  · exact ⟨isBool_eq ha hb hs, fun I => rfl⟩
  · refine ⟨isBool_eq hb ha hs.symm, fun I => ?_⟩
    rw [truth_eq]
    simp only [eq_comm]

theorem isEq_plainEq : IsEq m K D a b (m.plainEq a b) := by
  unfold plainEq
  split
  · next folded hf =>
    unfold mkFfEq at hf
    split at hf
    · next p q hp hq =>
      split_ifs at hf with hpq
      split at hf
      · next x f y f' =>
        cases hf
        refine ⟨isBool_mkBool _, fun I => ?_⟩
        obtain rfl : f = f' := by
          cases hp
          cases hq
          exact not_not.mp hpq
        simp [eval, beq_eq_decide]
      · cases hf
        exact isEq_orientEq ha hb hs
    · cases hf
  · exact isEq_orientEq ha hb hs

theorem isEq_absorbEq : IsEq m K D a b (m.absorbEq a b) := by
  unfold absorbEq
  split_ifs with h1 h2 h3 h4
  · subst h1
    have hbool : IsBool m b := ⟨hb, hs.symm.eq_bool⟩
    refine ⟨hbool, fun I => ?_⟩
    rw [hbool.eval_eq]
    cases I.truth b <;> simp [eval]
  · subst h2
    have hbool : IsBool m a := ⟨ha, hs.eq_bool⟩
    refine ⟨hbool, fun I => ?_⟩
    rw [hbool.eval_eq]
    cases I.truth a <;> simp [eval]
  · subst h3
    have hbool : IsBool m b := ⟨hb, hs.symm.eq_bool⟩
    refine ⟨isBool_mkNot hbool, fun I => ?_⟩
    rw [truth_mkNot, hbool.eval_eq]
    cases I.truth b <;> simp [eval]
  · subst h4
    have hbool : IsBool m a := ⟨ha, hs.eq_bool⟩
    refine ⟨isBool_mkNot hbool, fun I => ?_⟩
    rw [truth_mkNot, hbool.eval_eq]
    cases I.truth a <;> simp [eval]
  · exact isEq_plainEq ha hb hs

omit ha hb hs in
theorem foldEq_some {q : Bool} (h : foldEq a b = some q) (I : Interp m K D) :
    q = decide (I.eval a = I.eval b) := by
  unfold foldEq at h
  have hcast : ∀ (x : ℤ) (r : ℚ), (x : K) = (r : K) ↔ (x : ℚ) = r := by
    intro x r
    rw [← Rat.cast_intCast (α := K), Rat.cast_inj]
  split at h <;> cases h
  · simp [eval, beq_eq_decide]
  · simp only [eval, beq_eq_decide, Value.num.injEq, hcast]
  · simp only [eval, beq_eq_decide, Value.num.injEq, eq_comm, hcast]
  all_goals simp [eval, beq_eq_decide]

omit ha hb hs in
theorem eval_not_ne (h : IsBool m a) : I.eval (.not a) ≠ I.eval a := by
  rw [h.eval_eq, (isBool_not.mpr h).eval_eq, truth_not]
  cases I.truth a <;> simp

theorem isEq_constEq : IsEq m K D a b (m.constEq a b) := by
  unfold constEq
  split
  · next q hq => exact ⟨isBool_mkBool q, fun I => by rw [truth_mkBool, foldEq_some hq I]⟩
  · split_ifs with h
    · refine ⟨isBool_false, fun I => ?_⟩
      rcases h with rfl | rfl
      · exact (decide_eq_false (eval_not_ne (isBool_not.mp ⟨ha, rfl⟩))).symm
      · exact (decide_eq_false (eval_not_ne (isBool_not.mp ⟨hb, rfl⟩)).symm).symm
    · exact isEq_absorbEq ha hb hs

omit ha hb hs in
theorem isEq_self (a : Term) : IsEq m K D a a .true := ⟨isBool_true, fun I => by simp⟩

omit ha hb hs in
theorem isEq_mkEqs {xs ys : List Term} {fields : List SortId}
    (ih : ∀ x ∈ xs, ∀ y, m.WellSorted y → x.sort.Compatible y.sort → IsEq m K D x y (m.mkEq x y))
    (hys : ∀ y ∈ ys, m.WellSorted y) (hfx : List.Forall₂ (fun x f => x.sort.Compatible f) xs fields)
    (hfy : List.Forall₂ (fun y f => y.sort.Compatible f) ys fields) :
    (∀ r ∈ m.mkEqs xs ys, IsBool m r) ∧ ∀ I : Interp m K D, (m.mkEqs xs ys).all I.truth =
    decide (xs.map I.eval = ys.map I.eval) := by
  induction hfx generalizing ys with
  | nil =>
    cases hfy
    simp [mkEqs]
  | @cons x f xs fields hx _ ihs =>
    cases hfy with
    | @cons y _ ys _ hy hfy =>
      have hxy := ih x (by simp) y (hys y (by simp)) (hx.trans hy.symm)
      obtain ⟨hbool, htruth⟩ := ihs (fun x hx => ih x (List.mem_cons_of_mem _ hx))
        (fun y hy => hys y (List.mem_cons_of_mem _ hy)) hfy
      unfold mkEqs
      refine ⟨?_, fun I => ?_⟩
      · intro r hr
        rcases List.mem_cons.mp hr with rfl | hr
        · exact hxy.isBool
        · exact hbool r hr
      · rw [List.all_cons, hxy.truth, htruth I]
        simp

theorem isEq_mkEq : IsEq m K D a b (m.mkEq a b) := by
  induction a using Term.induct generalizing b with
  | h a ih =>
    unfold mkEq
    split
    · next c xs s =>
      split
      · next c' ys s' =>
        split_ifs with heq htuple
        · rw [heq]
          exact isEq_self _
        · obtain ⟨hlen, rfl, hsome⟩ := htuple
          obtain ⟨fields, hfields⟩ := Option.isSome_iff_exists.mp hsome
          have hparts : (∀ r ∈ m.mkEqs xs ys, IsBool m r) ∧ ∀ I : Interp m K D,
              (m.mkEqs xs ys).all I.truth = decide (xs.map I.eval = ys.map I.eval) :=
            isEq_mkEqs (fun x hx y hy hxy => ih x hx (ha.child x hx) hy hxy) hb.child
              (ha.fits fields hfields) (hb.fits fields hfields)
          refine ⟨isBool_mkAnd hparts.1, fun I => ?_⟩
          rw [truth_mkAnd, hparts.2 I]
          have hinj := I.construct_inj s hsome c c' (xs.map I.eval) (ys.map I.eval) (by simp [hlen])
          simp only [eval, evals_eq_map, hinj]
        · exact isEq_constEq ha hb hs
      · exact isEq_constEq ha hb hs
    · next a =>
      split
      · next b =>
        have hba : IsBool m a := isBool_not.mp ⟨ha, rfl⟩
        have hbb : IsBool m b := isBool_not.mp ⟨hb, rfl⟩
        have hab := ih a (by simp [Term.children]) hba.wf hbb.wf (by rw [hba.sort, hbb.sort])
        refine ⟨hab.isBool, fun I => ?_⟩
        rw [hab.truth I, hba.eval_eq, hbb.eval_eq, (isBool_not.mpr hba).eval_eq, (isBool_not.mpr hbb).eval_eq]
        simp
      · exact isEq_constEq ha hb hs
    · split_ifs with heq
      · rw [heq]
        exact isEq_self _
      · exact isEq_constEq ha hb hs

end

structure Branches (m : Manager) (c t e : Term) : Prop where
  cond : IsBool m c
  thenWf : m.WellSorted t
  elseWf : m.WellSorted e
  sort : t.sort.Compatible e.sort

def Interp.choice (I : Interp m K D) (c t e : Term) : Value K D := bif I.truth c then I.eval t else I.eval e

structure Selects (m : Manager) (K D : Type*) [Field K] [LinearOrder K] [FloorRing K] [DecidableEq D]
    (c t e r : Term) : Prop where
  wf : m.WellSorted r
  sort : r.sort.Compatible t.sort
  eval : ∀ I : Interp m K D, I.eval r = I.choice c t e

theorem eval_ite (s : SortId) : I.eval (.ite c t e s) = I.choice c t e := by
  simp only [eval, choice, truth, Bool.cond_eq_ite]

theorem selects_mkIte (h : Branches m c t e) : Selects m K D c t e (mkIte c t e) := by
  unfold mkIte
  split_ifs with h1 h2 h3 h4
  · exact ⟨h.thenWf, .refl _, fun I => by simp [choice, h1]⟩
  · exact ⟨h.elseWf, h.sort.symm, fun I => by simp [choice, h2]⟩
  · exact ⟨h.thenWf, .refl _, fun I => by simp [choice, h3]⟩
  · refine ⟨h.cond.wf, by rw [h.cond.sort, h4.1]; exact .refl _, fun I => ?_⟩
    rw [h.cond.eval_eq, choice, h4.1, h4.2]
    cases I.truth c <;> rfl
  · refine ⟨.mk ⟨h.cond.sort, h.sort, .refl _⟩ ?_, .refl _, fun I => eval_ite _⟩
    simpa [Term.children] using ⟨h.cond.wf, h.thenWf, h.elseWf⟩

theorem branches_ite {s : SortId} (h : m.WellSorted (.ite c t e s)) : Branches m c t e where
  cond := ⟨h.child c (by simp [Term.children]), h.fits.1⟩
  thenWf := h.child t (by simp [Term.children])
  elseWf := h.child e (by simp [Term.children])
  sort := h.fits.2.1

section

variable {args : List Term} {s : SortId}

theorem isNum_intConst (n : ℤ) : IsNum m (.intConst n) := ⟨.mk trivial nofun, rfl⟩

theorem isNum_mkReal (r : Rational64) : IsNum m (mkReal r) := ⟨.mk trivial nofun, rfl⟩

theorem isNum_add (h : ∀ a ∈ args, IsNum m a) (hs : s.isNumeric = true) : IsNum m (.add args s) :=
  ⟨.mk ⟨fun a ha => (h a ha).sort, hs⟩ fun a ha => (h a ha).wf, hs⟩

theorem isNum_mul (h : ∀ a ∈ args, IsNum m a) (hs : s.isNumeric = true) : IsNum m (.mul args s) :=
  ⟨.mk ⟨fun a ha => (h a ha).sort, hs⟩ fun a ha => (h a ha).wf, hs⟩

theorem isNum_neg (h : IsNum m a) (hs : s.isNumeric = true) : IsNum m (.neg a s) :=
  ⟨.mk ⟨h.sort, hs⟩ (by simpa [Term.children] using h.wf), hs⟩

theorem isNum_sub (ha : IsNum m a) (hb : IsNum m b) (hs : s.isNumeric = true) : IsNum m (.sub a b s) :=
  ⟨.mk ⟨ha.sort, hb.sort, hs⟩ (by simpa [Term.children] using ⟨ha.wf, hb.wf⟩), hs⟩

theorem unifiedArithSort_isNumeric {first : Term} (h : IsNum m first) :
    (unifiedArithSort first args).isNumeric = true := by
  unfold unifiedArithSort
  split_ifs
  · rfl
  · exact h.sort

section

variable (h : ∀ a ∈ args, IsNum m a)
include h

theorem isNum_keptArgs (folded : Option Rational64) : ∀ a ∈ keptArgs args folded, IsNum m a := by
  intro a ha
  unfold keptArgs at ha
  split at ha
  · rcases List.mem_append.mp ha with ha | ha
    · exact h a (List.mem_filter.mp ha).1
    · obtain rfl := List.mem_singleton.mp ha
      exact isNum_mkReal _
  · exact h a (List.mem_filter.mp ha).1

theorem isNum_append_int (n : ℤ) : ∀ a ∈ args ++ [mkInt n], IsNum m a := by
  intro a ha
  rcases List.mem_append.mp ha with ha | ha
  · exact h a ha
  · obtain rfl := List.mem_singleton.mp ha
    exact isNum_intConst n

theorem isNum_mkAdd : IsNum m (mkAdd args) := by
  unfold mkAdd
  split
  · exact isNum_intConst 0
  · exact h _ (by simp)
  · next first rest _ =>
    dsimp only
    set args := first :: rest
    have hs : (unifiedArithSort first args).isNumeric = true := unifiedArithSort_isNumeric (h first (by simp [args]))
    have hkept := isNum_keptArgs h (foldReals (args.filterMap realConstOf) (args.filterMap realConstOf).sum)
    generalize keptArgs args (foldReals _ _) = newArgs at hkept ⊢
    split_ifs
    · exact isNum_add h hs
    · exact isNum_intConst _
    · exact isNum_add (isNum_append_int hkept _) hs
    · split
      · exact hkept _ (by simp)
      · exact isNum_add hkept hs

theorem isNum_mkMul : IsNum m (mkMul args) := by
  unfold mkMul
  split
  · exact isNum_intConst 1
  · exact h _ (by simp)
  · next first rest _ =>
    dsimp only
    set args := first :: rest
    have hs : (unifiedArithSort first args).isNumeric = true := unifiedArithSort_isNumeric (h first (by simp [args]))
    have hkept := isNum_keptArgs h (foldReals (args.filterMap realConstOf) (args.filterMap realConstOf).prod)
    generalize keptArgs args (foldReals _ _) = keep at hkept ⊢
    split_ifs
    · exact isNum_mkReal _
    · exact isNum_intConst 0
    · split
      · exact hkept _ (by simp)
      · exact isNum_mkReal _
      · exact isNum_mul hkept hs
    · exact isNum_intConst _
    · exact isNum_mul (isNum_append_int hkept _) hs
    · split
      · exact hkept _ (by simp)
      · exact isNum_mul hkept hs

end

theorem isNum_mkSub (ha : IsNum m a) (hb : IsNum m b) : IsNum m (mkSub a b) := by
  have hnode : IsNum m (.sub a b (unifiedArithSort a [a, b])) := isNum_sub ha hb (unifiedArithSort_isNumeric ha)
  unfold mkSub
  dsimp only
  split
  · exact isNum_intConst _
  · split
    · split
      · exact isNum_mkReal _
      · exact hnode
    · exact hnode

theorem isBool_mkCmp (op : CmpOp) (ha : IsNum m a) (hb : IsNum m b) : IsBool m (mkCmp op a b) := by
  unfold mkCmp
  split
  · exact isBool_mkBool _
  · split_ifs
    · exact isBool_mkBool _
    · exact ⟨.mk ⟨ha.sort, hb.sort⟩ (by simpa [Term.children] using ⟨ha.wf, hb.wf⟩), rfl⟩

end

end Nixie.Ast
