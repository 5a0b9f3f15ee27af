import Nixie.Ast.Arith
import Nixie.Ast.ContextValue

/-!
Calls of the simplifiers on one manager: what they leave in the cache of solved equalities, and what
the calls after them return.
-/

namespace Nixie.Ast

open Interp

section

variable {m : Manager} {K D : Type*} [Field K] [LinearOrder K] [FloorRing K] [DecidableEq D]
  [IsStrictOrderedRing K] {H : Type} [DecidableEq H] {hash : Context → H} {eqs : EqCache} {t : Term}

inductive Reached (m : Manager) (hash : Context → H) : EqCache → Prop
  | new : Reached m hash fun _ => none
  | simplify {eqs : EqCache} (t : Term) (ht : m.WellSorted t) :
      Reached m hash eqs → Reached m hash (m.simplify eqs t).2
  | ctxSimplify {eqs : EqCache} (t : Term) (ht : m.WellSorted t) :
      Reached m hash eqs → Reached m hash (m.ctxSimplify hash eqs t).2

omit [IsStrictOrderedRing K] in
theorem sound_ctxRun (heqs : CacheValid m K D eqs) (ht : m.WellSorted t) :
    SoundAt m K D ⟨ctxFuelBudget, eqs, fun _ => none, false⟩ [] t (ctxRun m hash eqs t) :=
  soundWalk_ctxWalk ctxFuelBudget _ [] t ctxWalkRecursionLimit ⟨heqs, nofun⟩ ht

omit [IsStrictOrderedRing K] in
theorem cacheValid_ctxSimplify (heqs : CacheValid m K D eqs) (ht : m.WellSorted t) :
    CacheValid m K D (m.ctxSimplify hash eqs t).2 := by
  have hrun : CacheValid m K D (ctxRun m hash eqs t).state.eqs := (sound_ctxRun heqs ht).runs.valid.eqs
  unfold Manager.ctxSimplify
  dsimp only
  split_ifs
  · exact heqs
  · exact hrun
  · exact hrun

theorem Reached.cacheValid (h : Reached m hash eqs) : CacheValid m K D eqs := by
  induction h with
  | new => exact nofun
  | simplify t ht _ ih => exact (simplify_spec ht ih).2
  | ctxSimplify t ht _ ih => exact cacheValid_ctxSimplify ih ht

/-- After any calls, the simplifier keeps the value of a term, every solved equality in the cache
denotes the equality of its key, and a turn of the loop over an if-then-else keeps its value and
leaves smaller branches. -/
theorem simplify_preserves (h : Reached m hash eqs) (ht : m.WellSorted t) (I : Interp m K D) :
    I.eval (m.simplify eqs t).1 = I.eval t ∧
      (∀ key r, eqs key = some (some r) → I.truth r = decide (I.eval key.1 = I.eval key.2)) ∧
      ∀ c a b, Branches m c a b →
        (∀ r, m.rewriteStep c a b = .done r → I.eval r = I.choice c a b) ∧
        ∀ c' a' b', m.rewriteStep c a b = .again c' a' b' →
          I.choice c' a' b' = I.choice c a b ∧ a'.size + b'.size < a.size + b.size := by
  have hvalid : CacheValid m K D eqs := h.cacheValid
  refine ⟨(simplify_spec ht hvalid).1.eval I, fun key r hr => (hvalid key r hr).truth I, ?_⟩
  intro c a b hbr
  refine ⟨fun r hr => ((rewriteStep_spec hbr _ hr).1 r rfl).eval I, fun c' a' b' hr => ?_⟩
  exact ⟨((rewriteStep_spec hbr _ hr).2 c' a' b' rfl).choice I, size_rewriteStep hr⟩

def NoStaleReuse (m : Manager) (hash : Context → H) (eqs : EqCache) (root : Term) : Prop :=
  ctxWalkDepthLimit < root.termDepth ∨ (ctxRun m hash eqs root).state.stale = false

/-- Without such a reuse, the simplifier under contexts keeps the value of a formula. -/
theorem ctxSimplify_equivalent (h : Reached m hash eqs) (ht : IsBool m t)
    (hfresh : NoStaleReuse m hash eqs t) (I : Interp m K D) :
    IsBool m (m.ctxSimplify hash eqs t).1 ∧ I.truth (m.ctxSimplify hash eqs t).1 = I.truth t := by
  have hvalid : CacheValid m K D eqs := h.cacheValid
  have hrun : SoundAt m K D _ [] t (ctxRun m hash eqs t) := sound_ctxRun hvalid ht.wf
  unfold Manager.ctxSimplify
  dsimp only
  split_ifs with hdepth
  · exact ⟨ht, rfl⟩
  · exact ⟨ht, rfl⟩
  · have hstale := hfresh.resolve_left hdepth
    have hrests : (ctxRun m hash eqs t).rests ⊆ [] := (hrun.runs.fresh hstale).2
    refine ⟨hrun.agrees.isBool ht, hrun.agrees.truth fun entry he => ?_⟩
    cases hrests he

end

def trueInterp : Interp plainManager ℚ Unit where
  value := fun t => if t.sort = .bool then .bool true else halfValue t
  construct := halfInterp.construct
  divZero := halfInterp.divZero
  modZero := halfInterp.modZero
  rdivZero := halfInterp.rdivZero
  value_sort := fun t => by
    split_ifs with h
    · exact h ▸ ⟨true, rfl⟩
    · exact halfInterp.value_sort t
  construct_sort := halfInterp.construct_sort
  construct_inj := halfInterp.construct_inj
  divZero_int := halfInterp.divZero_int
  modZero_int := halfInterp.modZero_int

def guardedFive : Term := .eq (.ite (.var "c" .bool) (.var "x" .int) (.intConst 7) .int) (.intConst 5)

def xIsFive : Term := .eq (.var "x" .int) (.intConst 5)

def sharedConjunct : Term :=
  .or [.and [xIsFive, guardedFive], .and [.var "q" .bool, guardedFive]]

theorem wellSorted_leaf {t : Term} (hfits : plainManager.Fits t) (h : t.children = []) :
    plainManager.WellSorted t := .mk hfits (by simp [h])

theorem wellSorted_guardedFive : plainManager.WellSorted guardedFive := by
  refine .mk (.inl rfl) ?_
  simp only [guardedFive, Term.children, List.forall_mem_cons]
  refine ⟨.mk ⟨rfl, .inl rfl, .inl rfl⟩ ?_, wellSorted_leaf trivial rfl, by simp⟩
  simp only [Term.children, List.forall_mem_cons]
  exact ⟨wellSorted_leaf trivial rfl, wellSorted_leaf trivial rfl, wellSorted_leaf trivial rfl, by simp⟩

theorem isBool_sharedConjunct : IsBool plainManager sharedConjunct := by
  have hfive : IsBool plainManager xIsFive :=
    isBool_eq (wellSorted_leaf trivial rfl) (wellSorted_leaf trivial rfl) (.inl rfl)
  have hguarded : IsBool plainManager guardedFive := ⟨wellSorted_guardedFive, rfl⟩
  have hq : IsBool plainManager (.var "q" .bool) := ⟨wellSorted_leaf trivial rfl, rfl⟩
  have hand : ∀ {a}, IsBool plainManager a → IsBool plainManager (.and [a, guardedFive]) := fun ha =>
    ⟨.mk (by simp [Manager.Fits, ha.sort, hguarded.sort])
      (by simp [Term.children, ha.wf, hguarded.wf]), rfl⟩
  exact ⟨.mk (by simp [sharedConjunct, Manager.Fits, (hand hfive).sort, (hand hq).sort])
    (by simp [sharedConjunct, Term.children, (hand hfive).wf, (hand hq).wf]), rfl⟩

theorem simplify_preserves_guarded : trueInterp.eval
    (plainManager.simplify (plainManager.simplify (fun _ => none) guardedFive).2 sharedConjunct).1 =
    trueInterp.eval sharedConjunct :=
  (simplify_preserves (.simplify guardedFive wellSorted_guardedFive .new :
    Reached plainManager (fun ctx => ctx) _) isBool_sharedConjunct.wf trueInterp).1

theorem ctxSimplify_sharedConjunct : (ctxRun plainManager (fun ctx => ctx) (fun _ => none) guardedFive).state.stale =
    false ∧ (plainManager.ctxSimplify (fun ctx => ctx) (fun _ => none) sharedConjunct).1 =
    .or [.and [xIsFive, .var "c" .bool], .and [.var "q" .bool, .var "c" .bool]] := by
  constructor
  · decide +kernel
  · decide +kernel

theorem ctxSimplify_equivalent_guarded :
    trueInterp.truth (plainManager.ctxSimplify (fun ctx => ctx) (fun _ => none) guardedFive).1 =
      trueInterp.truth guardedFive :=
  (ctxSimplify_equivalent .new ⟨wellSorted_guardedFive, rfl⟩ (.inr ctxSimplify_sharedConjunct.1) trueInterp).2

theorem ctxSimplify_leaks : Function.Injective (fun ctx : Context => ctx) ∧ IsBool plainManager sharedConjunct ∧
    trueInterp.truth (plainManager.ctxSimplify (fun ctx => ctx)
    (fun _ => none) sharedConjunct).1 ≠ trueInterp.truth sharedConjunct := by
  refine ⟨Function.injective_id, isBool_sharedConjunct, ?_⟩
  rw [ctxSimplify_sharedConjunct.2]
  decide

end Nixie.Ast
