import Nixie.DiffLogic.Incremental
import Mathlib.Data.Real.Basic

/-!
Over the reals the searches read a strict constraint as a weak one.
-/

namespace Nixie.DiffLogic

open Nixie.Graph List Option

section

variable {K : Type*} [Field K] [LinearOrder K]

def Asserted.Meets (a : Asserted) (vx vy : K) : Prop :=
  match a.kind with
  | .leqConst => vx - vy ≤ (a.bound : K)
  | .ltConst => vx - vy < (a.bound : K)

end

theorem Asserted.Meets.cast {a : Asserted} {vx vy : ℚ} (h : a.Meets vx vy) : a.Meets (vx : ℝ) (vy : ℝ) := by
  unfold Asserted.Meets at h ⊢
  cases hk : a.kind with
  | leqConst =>
    simp only [hk, Rat.cast_id] at h
    simp only
    exact_mod_cast h
  | ltConst =>
    simp only [hk, Rat.cast_id] at h
    simp only
    exact_mod_cast h

/-- The weak reading of a constraint as an arc from `y` to `x`. -/
instance : Arc Asserted ℕ ℚ := ⟨Asserted.y, Asserted.x, Asserted.bound⟩

/-- Some walk to `x` is shorter than each walk to `y` that is led on by the strict constraint. -/
def Slack (A : List Asserted) : Prop :=
  ∀ a ∈ A, a.kind = .ltConst → ∀ u p, p ⊆ A → IsWalk u p a.y →
    ∃ v q, q ⊆ A ∧ IsWalk v q a.x ∧ weight q < weight p + a.bound

namespace ConstraintGraph

variable {graph : ConstraintGraph} {A : List Asserted} {d : Distances}

def termValue (graph : ConstraintGraph) (d : Distances) (t : ℕ) : ℚ :=
  ((graph.varToNode t).map fun v => value d v.id).getD 0

theorem tightened_real (a : Asserted) : a.tightened false = a.bound := by
  simp [Asserted.tightened]

section

variable (h : graph.Represents A) (hreal : graph.isInteger = false)
include h hreal

theorem Represents.arc_asserted {e : DiffEdge} (he : e ∈ graph.arcs) :
    ∃ a ∈ A, a.y = graph.nodeToVar.getD e.src.id 0 ∧ a.x = graph.nodeToVar.getD e.dst.id 0 ∧ a.bound = e.weight := by
  obtain ⟨u, hu⟩ := h.listed.mem_arcs.mp he
  rw [h.edges u] at hu
  obtain ⟨i, c, hc, -, rfl⟩ := mem_edgesFrom.mp hu
  obtain ⟨a, ha, hst⟩ := h.stored (mem_of_getElem? hc)
  obtain ⟨j, -, hj, hxj⟩ := h.node_of_var hst.x
  obtain ⟨k, -, hk, hyk⟩ := h.node_of_var hst.y
  refine ⟨a, ha, ?_, ?_, ?_⟩
  · simp [edgeOf, hyk, DiffVar.id, getD_eq_getElem?_getD, hk]
  · simp [edgeOf, hxj, DiffVar.id, getD_eq_getElem?_getD, hj]
  · simp [edgeOf, hreal, hst.effectiveBound, tightened_real]

theorem Represents.walk_asserted {i j : ℕ} {p : List DiffEdge} (hp : p ⊆ graph.arcs) (hw : IsWalk i p j) :
    ∃ q, q ⊆ A ∧ IsWalk (graph.nodeToVar.getD i 0) q (graph.nodeToVar.getD j 0) ∧ weight q = weight p :=
  IsWalk.exists_map (g := fun i => graph.nodeToVar.getD i 0) (fun _ he => h.arc_asserted hreal he) hp hw

theorem Represents.balanced (hb : Balanced A) : Balanced graph.arcs := by
  intro i p hp hw
  obtain ⟨q, hq, hqw, hweight⟩ := h.walk_asserted hreal hp hw
  rw [← hweight]
  exact hb _ q hq hqw

theorem Represents.shortest (hs : Shortest graph.arcs (fun _ => 0) (value d)) :
    Shortest A (fun _ => 0) (graph.termValue d) := by
  refine ⟨?_, ?_, ?_⟩
  · intro a ha
    obtain ⟨c, hc, hst⟩ := h.stores ha
    have hle := h.feasible_iff.mp hs.feasible c hc
    rw [hst.effectiveBound, hreal, tightened_real] at hle
    show graph.termValue d a.x ≤ graph.termValue d a.y + a.bound
    simp only [termValue, hst.x, hst.y, map_some, getD_some]
    exact hle
  · intro t
    cases ht : graph.varToNode t with
    | none => exact ⟨t, [], by simp, rfl, by simp [termValue, ht]⟩
    | some v =>
      obtain ⟨i, -, hi, rfl⟩ := h.node_of_var ht
      obtain ⟨j, p, hp, hw, hd⟩ := hs.attained i
      obtain ⟨q, hq, hqw, hweight⟩ := h.walk_asserted hreal hp hw
      refine ⟨graph.nodeToVar.getD j 0, q, hq, ?_, ?_⟩
      · have hterm : graph.nodeToVar.getD i 0 = t := by
          rw [getD_eq_getElem?_getD, hi, getD_some]
        rw [hterm] at hqw
        exact hqw
      · simp only [termValue, ht, map_some, getD_some, DiffVar.id]
        rw [hd, hweight]
  · intro t
    unfold termValue
    cases ht : graph.varToNode t with
    | none => simp
    | some v => simpa using hs.start v.id

end

end ConstraintGraph

theorem slack_iff {A : List Asserted} {φ : ℕ → ℚ} (hs : Shortest A (fun _ => 0) φ) :
    Slack A ↔ ∀ a ∈ A, a.Meets (φ a.x) (φ a.y) := by
  have hle : ∀ {u t p}, p ⊆ A → IsWalk u p t → φ t ≤ weight p := by
    intro u t p hp hw
    simpa using hs.le_weight hp hw
  have hat : ∀ t, ∃ u p, p ⊆ A ∧ IsWalk u p t ∧ φ t = weight p := by
    intro t
    simpa using hs.attained t
  constructor
  · intro hslack a ha
    have hweak : φ a.x ≤ φ a.y + a.bound := hs.feasible a ha
    unfold Asserted.Meets
    cases hk : a.kind with
    | leqConst =>
      simp only [Rat.cast_id]
      linarith
    | ltConst =>
      obtain ⟨u, p, hp, hw, hd⟩ := hat a.y
      obtain ⟨v, q, hq, hqw, hlt⟩ := hslack a ha hk u p hp hw
      have := hle hq hqw
      simp only [Rat.cast_id]
      linarith
  · intro hall a ha hk u p hp hw
    obtain ⟨v, q, hq, hqw, hd⟩ := hat a.x
    have hmeets := hall a ha
    simp only [Asserted.Meets, hk, Rat.cast_id] at hmeets
    have := hle hp hw
    exact ⟨v, q, hq, hqw, by linarith⟩

namespace DiffLogicSolver

variable {solver : DiffLogicSolver}

def assertAll (useSpfa : Bool) (A : List (Asserted × ℕ)) : DiffLogicSolver :=
  A.foldl (fun solver (a, origin) =>
    match a.kind with
    | .leqConst => (solver.addLeq a.x a.y a.bound origin).1
    | .ltConst => (solver.addLt a.x a.y a.bound origin).1) (withConfig false useSpfa)

/-- When the check is satisfied the constraints have a real solution, and the model is one. -/
def StrictlyCorrect (useSpfa : Bool) (A : List (Asserted × ℕ)) : Prop :=
  ∀ solver, (assertAll useSpfa A).check64 = some (solver, .ok) →
    (∃ φ : ℕ → ℝ, ∀ a ∈ A.map Prod.fst, a.Meets (φ a.x) (φ a.y)) ∧
    ∀ a ∈ A.map Prod.fst, ∃ vx vy, solver.getModel.2 a.x = some vx ∧ solver.getModel.2 a.y = some vy ∧
      a.Meets vx vy

theorem inv_assertAll (useSpfa : Bool) (A : List (Asserted × ℕ)) : ∃ σ : SparseSession, Inv (assertAll useSpfa A) σ ∧
    σ.asserted = A.map Prod.fst ∧ (assertAll useSpfa A).graph.isInteger = false := by
  induction A using List.reverseRecOn with
  | nil => exact ⟨{}, inv_empty false useSpfa, rfl, rfl⟩
  | append_singleton A p ih =>
    obtain ⟨σ, hinv, hσ, hreal⟩ := ih
    obtain ⟨a, origin⟩ := p
    have hstep : assertAll useSpfa (A ++ [(a, origin)]) =
        ((assertAll useSpfa A).addConstraintInternal a.x a.y a.bound a.kind origin).1 := by
      unfold assertAll
      rw [foldl_concat]
      dsimp only
      cases hk : a.kind with
      | leqConst => rfl
      | ltConst => rfl
    refine ⟨σ.add a, ?_, ?_, ?_⟩
    · rw [hstep]
      exact hinv.addConstraintInternal a origin
    · simp [SparseSession.add, hσ]
    · rw [hstep, addConstraintInternal_isInteger]
      exact hreal

theorem getModel_interned (solver : DiffLogicSolver) {A : List Asserted} (h : solver.graph.Represents A)
    (hvalid : solver.distancesValid = true) (hc : Covers solver.graph.numVars solver.distances) {t : ℕ} {v : DiffVar}
    (ht : solver.graph.varToNode t = some v) : solver.getModel.2 t =
    some (solver.graph.termValue solver.distances t) := by
  obtain ⟨i, hi, hget, rfl⟩ := h.node_of_var ht
  have hidx : solver.graph.nodeToVar.findIdx? (· = t) = some i := by
    obtain ⟨hlt, hti⟩ := List.getElem?_eq_some_iff.mp hget
    refine List.findIdx?_eq_some_iff_getElem.mpr ⟨hlt, by simpa using hti, fun j hj => ?_⟩
    intro htj
    have heq : solver.graph.nodeToVar[j] = solver.graph.nodeToVar[i] := by
      rw [hti]
      simpa using htj
    exact absurd ((h.nodup.getElem_inj_iff).mp heq) (by omega)
  have hval : solver.graph.termValue solver.distances t = value solver.distances i := by
    simp [ConstraintGraph.termValue, ht, DiffVar.id]
  unfold getModel
  simp only [hvalid, ↓reduceIte, hidx, Option.bind_some]
  rw [hval]
  exact hc.eq_some hi

theorem check64_ok_iff (h : solver.check64.isSome) (P : DiffLogicSolver → Prop) :
    (∀ solver', solver.check64 = some (solver', .ok) → P solver') ↔ (solver.check.2 = .ok → P solver.check.1) := by
  obtain ⟨⟨solver', result⟩, hr⟩ := isSome_iff_exists.mp h
  rw [check64_eq hr, hr]
  constructor
  · rintro h rfl
    exact h solver' rfl
  · intro h solver'' heq
    cases heq
    exact h rfl

/-- As long as the search stays within `i64` the answer and the model respect strictness exactly when the
constraints are contradictory without it, or when the least weights of walks leave slack at every strict
constraint. -/
theorem strictlyCorrect_iff (useSpfa : Bool) (A : List (Asserted × ℕ)) (h : (assertAll useSpfa A).check64.isSome) :
    StrictlyCorrect useSpfa A ↔ ¬ Balanced (A.map Prod.fst) ∨ Slack (A.map Prod.fst) := by
  obtain ⟨σ, hinv, hσ, hreal⟩ := inv_assertAll useSpfa A
  unfold StrictlyCorrect
  rw [check64_ok_iff h]
  clear h
  generalize assertAll useSpfa A = solver at *
  generalize A.map Prod.fst = A at *
  subst hσ
  have hdec := run_decides hinv.represents.listed
  unfold DiffLogicSolver.check
  cases hr : (if solver.useSpfa then Spfa.run solver.graph else BellmanFord.run solver.graph) with
  | negativeCycle cycle total =>
    rw [hr] at hdec
    have hneg : ¬ Balanced σ.asserted := fun hb => hdec (hinv.represents.balanced hreal hb)
    simp [hneg]
  | distances d =>
    rw [hr] at hdec
    obtain ⟨hc, hs⟩ := hdec
    have hshort := hinv.represents.shortest hreal hs
    have hb : Balanced σ.asserted := hshort.feasible.balanced
    rw [slack_iff hshort]
    simp only [forall_const, hb, not_true_eq_false, false_or]
    have hmodel : ∀ a ∈ σ.asserted,
        (getModel { solver with distances := d, distancesValid := true }).2 a.x =
            some (solver.graph.termValue d a.x) ∧
          (getModel { solver with distances := d, distancesValid := true }).2 a.y =
            some (solver.graph.termValue d a.y) := by
      intro a ha
      obtain ⟨c, -, hst⟩ := hinv.represents.stores ha
      exact ⟨getModel_interned { solver with distances := d, distancesValid := true } hinv.represents
        rfl hc hst.x, getModel_interned { solver with distances := d, distancesValid := true }
        hinv.represents rfl hc hst.y⟩
    constructor
    · rintro ⟨-, hall⟩ a ha
      obtain ⟨vx, vy, hx, hy, hmeets⟩ := hall a ha
      obtain ⟨hx', hy'⟩ := hmodel a ha
      rw [← some.inj (hx.symm.trans hx'), ← some.inj (hy.symm.trans hy')]
      exact hmeets
    · intro hall
      refine ⟨⟨fun t => solver.graph.termValue d t, fun a ha => ?_⟩, fun a ha => ?_⟩
      · exact (hall a ha).cast
      · obtain ⟨hx, hy⟩ := hmodel a ha
        exact ⟨_, _, hx, hy, hall a ha⟩

theorem strictlyCorrect_iff_slack :
    StrictlyCorrect false [(⟨0, 1, -1 / 2, .ltConst⟩, 10), (⟨1, 0, 1, .leqConst⟩, 11)] ↔
      ¬ Balanced [(⟨0, 1, -1 / 2, .ltConst⟩ : Asserted), ⟨1, 0, 1, .leqConst⟩] ∨
        Slack [⟨0, 1, -1 / 2, .ltConst⟩, ⟨1, 0, 1, .leqConst⟩] :=
  strictlyCorrect_iff false [(⟨0, 1, -1 / 2, .ltConst⟩, 10), (⟨1, 0, 1, .leqConst⟩, 11)]
    (by with_unfolding_all decide)

/-- `x - y < 0` and `y - x ≤ 0` pass the check, and their model gives both terms one value. -/
theorem not_strictlyCorrect_zero_cycle : ¬ ∀ A, StrictlyCorrect true A := by
  intro h
  have := h [(⟨0, 1, 0, .ltConst⟩, 10), (⟨1, 0, 0, .leqConst⟩, 11)] _ (by with_unfolding_all rfl)
  obtain ⟨⟨φ, hφ⟩, -⟩ := this
  have hlt := hφ ⟨0, 1, 0, .ltConst⟩ (by simp)
  have hle := hφ ⟨1, 0, 0, .leqConst⟩ (by simp)
  simp only [Asserted.Meets, Rat.cast_zero] at hlt hle
  linarith

end DiffLogicSolver

end Nixie.DiffLogic
