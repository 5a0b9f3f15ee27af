import Nixie.Utvpi.Meaning
import Mathlib.Data.Finset.Order

/-!
The verdicts of the UTVPI solver in every state that its calls reach: a conflict has no solution,
a satisfied check comes with a model of the open scopes, and over the reals there is always one of
the two.
-/

namespace Nixie.Utvpi

open Nixie.Graph List UtConstraint

variable {graph : DoubledGraph} {σ : Scopes UtConstraint} {order : List DoubledNode}

theorem DoubledGraph.Represents.exists_within (h : graph.Represents σ) {X : ℕ → ℝ}
    (hX : ∀ c ∈ σ.all, c.Holds X) (hint : graph.isInteger = true → ∀ v, ∃ k : ℤ, X v = k) :
    ∃ M, ∀ v, ∀ e ∈ graph.edges v, Within (nodeValue X M e.dst - nodeValue X M e.src) e.weight := by
  obtain ⟨M, hM⟩ := ((Finset.range graph.numVars).image fun u => |X u|).exists_le
  refine ⟨M, fun v e he => ?_⟩
  obtain ⟨-, ⟨u, hu, b, rfl⟩ | ⟨i, hi, c, hc, he⟩⟩ := (h.edges v e).mp he
  · have habs : |X u| ≤ M := hM _ (Finset.mem_image_of_mem _ (Finset.mem_range.mpr hu))
    obtain ⟨hneg, hpos⟩ := abs_le.mp habs
    refine ⟨?_, fun hlt => absurd hlt (lt_irrefl _)⟩
    cases b with
    | true => simpa [nodeValue] using hpos
    | false =>
      simp only [nodeValue, BigDeltaRational.real_zero, Rat.cast_zero]
      linarith
  · have hmem : c ∈ σ.all := h.mem_all.mpr ⟨i, mem_activeConstraints.mpr ⟨hi, hc⟩⟩
    exact within_edgesOf ((hX c hmem).within hint) he

theorem Solvable.exists_real {isInteger : Bool} {cs : List UtConstraint} (h : Solvable isInteger cs) :
    ∃ X : ℕ → ℝ, (∀ c ∈ cs, c.Holds X) ∧ (isInteger = true → ∀ v, ∃ k : ℤ, X v = k) := by
  unfold Solvable at h
  cases isInteger with
  | true =>
    obtain ⟨X, hX⟩ := h
    exact ⟨_, hX, fun _ v => ⟨X v, rfl⟩⟩
  | false =>
    obtain ⟨X, hX⟩ := h
    exact ⟨X, hX, by simp⟩

theorem parityClosure_none {E : List UtEdge} {d : Distances} {v : ℕ}
    (hE : ∀ v, ∀ e ∈ graph.edges v, e.src = v ∧ e ∈ E) (h : parityClosure graph d v = none) :
    Tight E d (.positive v) (.negative v) ∧ Tight E d (.negative v) (.positive v) := by
  unfold parityClosure at h
  dsimp only at h
  split at h
  · next hneg =>
    split at h
    · next hpos => exact ⟨tightSuccessors_sound hE hneg, tightSuccessors_sound hE hpos⟩
    · exact absurd h (by simp)
  · exact absurd h (by simp)

theorem parityRounds_conflict {E : List UtEdge} {X : ℕ → ℝ} {M : ℝ} (hE : ∀ v, ∀ e ∈ graph.edges v, e.src = v ∧ e ∈ E)
    (hX : ∀ e ∈ E, Within (nodeValue X M e.dst - nodeValue X M e.src) e.weight) (hint : ∀ v, ∃ k : ℤ, X v = k)
    (budget : ℕ) (d : Distances) (core : List ℕ) : (parityRounds graph budget d).2 ≠ .conflict core := by
  induction budget generalizing d with
  | zero => simp [parityRounds]
  | succ budget ih =>
    unfold parityRounds
    cases hodd : (List.range graph.numVars).find? (isOdd d) with
    | none => simp
    | some v =>
      dsimp only
      cases hclosure : parityClosure graph d v with
      | some closure => exact ih _
      | none =>
        exfalso
        obtain ⟨hpos, hneg⟩ := parityClosure_none hE hclosure
        have hvalue := value_of_tight hX hpos hneg
        obtain ⟨k, hk⟩ := hint v
        rw [hk] at hvalue
        have hwhole : (((d (.positive v)).real - (d (.negative v)).real) / 2) = (k : ℚ) := by
          exact_mod_cast hvalue.symm
        have hodd' := find?_some hodd
        unfold isOdd at hodd'
        rw [hwhole] at hodd'
        simp at hodd'

variable {c : UtConstraint}

theorem evaluates_iff {model : List ℚ} : c.evaluates model = true ↔ c.Holds fun v => model.getD v 0 := by
  have hsign : ∀ (s : Sign) v, s.value model v = s.apply (model.getD v 0) := by
    intro s v
    cases s with
    | positive => rfl
    | negative => rfl
    | zero => rfl
  unfold evaluates UtConstraint.Holds lhs
  rw [hsign, hsign]
  cases c.strict with
  | true => simp
  | false => simp

theorem UtConstraint.Ranged.lhs_congr {n : ℕ} (h : c.Ranged n) {X Y : ℕ → ℚ} (hXY : ∀ v < n, X v = Y v) :
    c.lhs X = c.lhs Y := by
  have hsign : ∀ (s : Sign) v, (s ≠ .zero → v < n) → s.apply (X v) = s.apply (Y v) := by
    intro s v hv
    cases s with
    | positive => exact hXY v (hv (by simp))
    | negative => exact congrArg Neg.neg (hXY v (hv (by simp)))
    | zero => rfl
  unfold lhs
  rw [hsign c.a c.x h.1, hsign c.b c.y h.2]

theorem UtConstraint.holds_of_le {X : ℕ → ℚ} {epsilon : ℚ} (hpos : 0 < epsilon)
    (h : c.lhs X ≤ (c.effectiveBound false).at epsilon) : c.Holds X := by
  unfold UtConstraint.Holds
  simp only [effectiveBound, BigDeltaRational.at, Bool.false_eq_true, ↓reduceIte,
    BigDeltaRational.real_mk, BigDeltaRational.delta_mk] at h
  cases hs : c.strict with
  | true =>
    simp only [hs, ↓reduceIte, Rat.cast_id] at h ⊢
    linarith
  | false =>
    simp only [hs, Bool.false_eq_true, ↓reduceIte, Rat.cast_id] at h ⊢
    linarith

theorem UtConstraint.Holds.cast {X : ℕ → ℚ} (h : c.Holds X) : c.Holds fun v => (X v : ℝ) := by
  have hsign : ∀ (s : Sign) (r : ℚ), s.apply (r : ℝ) = ((s.apply r : ℚ) : ℝ) := by
    intro s r
    cases s with
    | positive => rfl
    | negative => exact (Rat.cast_neg r).symm
    | zero => exact Rat.cast_zero.symm
  have hlhs : c.lhs (fun v => (X v : ℝ)) = ((c.lhs X : ℚ) : ℝ) := by
    unfold lhs
    rw [hsign, hsign, Rat.cast_add]
  unfold UtConstraint.Holds at h ⊢
  rw [hlhs]
  split at h
  · next hs =>
    rw [if_pos hs]
    exact_mod_cast h
  · next hs =>
    rw [if_neg hs]
    exact_mod_cast h

namespace UtvpiSolver

variable {solver : UtvpiSolver}

def Modelled (solver : UtvpiSolver) (cs : List UtConstraint) : Prop :=
  ∃ X : ℕ → ℚ, (∀ v < solver.graph.numVars, solver.getValueExact v = some (X v)) ∧
    (∀ c ∈ cs, c.Holds X) ∧
    (solver.graph.isInteger = true → ∀ v < solver.graph.numVars, ∃ k : ℤ, X v = k)

theorem buildModel_true (hb : (solver.buildModel order).2 = true) : ∃ model : List ℚ,
    (solver.buildModel order).1 = { solver with model := model } ∧
    model.length = solver.graph.numVars ∧
    (solver.graph.isInteger && model.any (·.den ≠ 1)) = false ∧
    ∀ p ∈ solver.graph.activeConstraints, p.2.evaluates model = true := by
  unfold buildModel at hb ⊢
  cases heps : chooseEpsilon solver.distances (solver.graph.allEdges order) (1 / 4) with
  | none =>
    rw [heps] at hb
    exact absurd hb (by simp)
  | some epsilon =>
    rw [heps] at hb
    dsimp only at hb ⊢
    split at hb
    · exact absurd hb (by simp)
    · next hwhole =>
      rw [if_neg hwhole]
      exact ⟨_, rfl, by simp, by simpa using hwhole, all_eq_true.mp hb⟩

theorem finish_ok (h : solver.graph.Represents σ) (hok : (solver.finish order).2 = .ok) :
    Modelled (solver.finish order).1 σ.all := by
  have hbuild := @buildModel_true order solver
  unfold finish at hok ⊢
  cases hb : solver.buildModel order with
  | mk solver' b =>
    rw [hb] at hbuild hok
    cases b with
    | false => exact absurd hok (by simp)
    | true =>
      obtain ⟨model, rfl, hlen, hwhole, hall⟩ := hbuild rfl
      refine ⟨fun v => model.getD v 0, fun v hv => ?_, fun c hc => ?_, fun hint v hv => ?_⟩
      · show (if true = true then model[v]? else none) = some (model.getD v 0)
        rw [if_pos rfl, getD_eq_getElem?_getD, getElem?_eq_getElem (hlen ▸ hv)]
        rfl
      · obtain ⟨i, hi⟩ := h.mem_all.mp hc
        exact evaluates_iff.mp (hall _ hi)
      · have hint : solver.graph.isInteger = true := hint
        have hv : v < model.length := hlen ▸ hv
        rw [hint, Bool.true_and, any_eq_false] at hwhole
        have hden : (model.getD v 0).den = 1 := by
          rw [getD_eq_getElem?_getD, getElem?_eq_getElem hv]
          simpa using hwhole _ (getElem_mem hv)
        exact ⟨(model.getD v 0).num, (Rat.den_eq_one_iff _).mp hden |>.symm⟩

theorem finish_ne_conflict (core : List ℕ) : (solver.finish order).2 ≠ .conflict core := by
  unfold finish
  split
  · simp
  · simp

theorem finish_graph : (solver.finish order).1.graph = solver.graph := by
  have hbuild : (solver.buildModel order).1.graph = solver.graph := by
    unfold buildModel
    split
    · rfl
    · dsimp only
      split
      · rfl
      · rfl
  unfold finish
  split
  · next heq =>
    rw [heq] at hbuild
    exact hbuild
  · next heq =>
    rw [heq] at hbuild
    exact hbuild

theorem finish_of_feasible (h : solver.graph.Represents σ) (ho : order.Perm solver.graph.nodes)
    (hreal : solver.graph.isInteger = false) (hf : Feasible (solver.graph.allEdges order) solver.distances) :
    (solver.finish order).2 = .ok := by
  obtain ⟨epsilon, hsome, hpos, -, hedges⟩ := chooseEpsilon_spec hf (show (0 : ℚ) < 1 / 4 by norm_num)
  unfold finish buildModel
  simp only [hsome, hreal, Bool.false_and, Bool.false_eq_true, ↓reduceIte]
  generalize hmodel : (List.range solver.graph.numVars).map (modelValue solver.distances epsilon) =
    model
  have hall : (solver.graph.activeConstraints.all fun p => p.2.evaluates model) = true := by
    rw [all_eq_true]
    rintro ⟨i, c⟩ hi
    obtain ⟨hactive, hc⟩ := DoubledGraph.mem_activeConstraints.mp hi
    have hranged := h.ranged c (h.mem_all.mpr ⟨i, hi⟩)
    have hle : c.lhs (modelValue solver.distances epsilon) ≤ (c.effectiveBound false).at epsilon := by
      have hvalue : modelValue solver.distances epsilon = fun v =>
          ((solver.distances (.positive v)).at epsilon -
            (solver.distances (.negative v)).at epsilon) / 2 := by
        funext v
        unfold modelValue BigDeltaRational.at
        ring
      rw [hvalue, ← hreal]
      refine lhs_le_of_edges (i := i) (fun v => (solver.distances v).at epsilon) fun e he => hedges e ?_
      rw [h.mem_allEdges ho, h.edges]
      exact ⟨rfl, .inr ⟨i, hactive, c, hc, he⟩⟩
    refine evaluates_iff.mpr (holds_of_le hpos ?_)
    rw [hranged.lhs_congr fun v hv => ?_]
    · exact hle
    · rw [← hmodel, getD_eq_getElem?_getD, getElem?_map, getElem?_range hv]
      rfl
  rw [hall]

structure Verdict (isInteger : Bool) (cs : List UtConstraint) (r : UtvpiSolver × UtvpiResult) :
    Prop where
  conflict : ∀ core, r.2 = .conflict core → ¬ Solvable isInteger cs
  ok : r.2 = .ok → Modelled r.1 cs
  unknown : r.2 = .unknown → isInteger = true

section

variable (h : solver.graph.Represents σ) (ho : order.Perm solver.graph.nodes)
include h ho

theorem verdict_finish
    (hf : solver.graph.isInteger = false → Feasible (solver.graph.allEdges order) solver.distances) :
    Verdict solver.graph.isInteger σ.all (solver.finish order) := by
  refine ⟨fun core hc => absurd hc (finish_ne_conflict core), finish_ok h, fun hu => ?_⟩
  by_contra hreal
  have hreal : solver.graph.isInteger = false := by simpa using hreal
  rw [finish_of_feasible h ho hreal (hf hreal)] at hu
  exact absurd hu (by simp)

theorem searched_run :
    Searched solver order (if solver.useSpfa then solver.runSpfa order else solver.runBellmanFord order) := by
  split
  · exact searched_spfa h ho
  · exact searched_bellmanFord h ho

theorem verdict_check : Verdict solver.graph.isInteger σ.all (solver.check order) ∧
    (solver.check order).1.graph = solver.graph := by
  have hranged : unknownVar { solver with distancesValid := false, model := [] } = false := by
    unfold unknownVar
    rw [any_eq_false]
    rintro ⟨i, c⟩ hi
    obtain ⟨hx, hy⟩ := h.ranged c (h.mem_all.mpr ⟨i, hi⟩)
    simp only [ne_eq, decide_not, Bool.or_eq_true, Bool.and_eq_true, Bool.not_eq_eq_eq_not, Bool.not_true,
      decide_eq_false_iff_not, decide_eq_true_eq, not_or, not_and, not_le]
    exact ⟨hx, hy⟩
  have hE : ∀ v, ∀ e ∈ solver.graph.edges v, e.src = v ∧ e ∈ solver.graph.allEdges order := by
    intro v e he
    obtain rfl := ((h.edges v e).mp he).1
    exact ⟨rfl, (h.mem_allEdges ho).mpr he⟩
  have hwithin : Solvable solver.graph.isInteger σ.all → ∃ X M,
      (∀ e ∈ solver.graph.allEdges order,
        Within (nodeValue X M e.dst - nodeValue X M e.src) e.weight) ∧
      (solver.graph.isInteger = true → ∀ v, ∃ k : ℤ, X v = k) := by
    intro hsol
    obtain ⟨X, hX, hint⟩ := hsol.exists_real
    obtain ⟨M, hM⟩ := h.exists_within hX hint
    exact ⟨X, M, fun e he => hM _ e ((h.mem_allEdges ho).mp he), hint⟩
  have hrun := @searched_run σ order { solver with distancesValid := false, model := [] } h ho
  unfold check
  simp only [hranged, Bool.false_eq_true, ↓reduceIte]
  generalize (if solver.useSpfa = true then _ else _ : UtvpiSolver × Bool) = r at hrun ⊢
  obtain ⟨solver', consistent⟩ := r
  obtain ⟨hframe, hyes, hno⟩ := hrun
  dsimp only at hframe hyes hno
  have hgraph : solver'.graph = solver.graph := by rw [hframe]
  cases consistent with
  | false =>
    refine ⟨⟨fun core _ hsol => ?_, by simp [conflict], by simp [conflict]⟩, hgraph⟩
    obtain ⟨X, M, hX, -⟩ := hwithin hsol
    exact hno rfl (balanced_of_within hX)
  | true =>
    have hfeasible := hyes rfl
    simp only [Bool.not_true, Bool.false_eq_true, ↓reduceIte]
    rw [← hgraph] at h ho hE hwithin hfeasible ⊢
    cases hint : solver'.graph.isInteger with
    | false =>
      rw [if_neg (by simp), ← hint]
      exact ⟨verdict_finish h ho fun _ => hfeasible, finish_graph⟩
    | true =>
      rw [if_pos rfl]
      have hparity : ∀ core, (enforceParity solver'.graph solver'.distances).2 = .conflict core →
          ¬ Solvable true σ.all := by
        intro core hcore hsol
        rw [hint] at hwithin
        obtain ⟨X, M, hX, hXint⟩ := hwithin hsol
        exact parityRounds_conflict hE hX (hXint rfl) _ _ core hcore
      cases hp : enforceParity solver'.graph solver'.distances with
      | mk d result =>
        rw [hp] at hparity
        cases result with
        | ok =>
          have hfinish := @verdict_finish σ order { solver' with distances := d } h ho
            (fun hreal => absurd (hint.symm.trans hreal) (by simp))
          rw [show ({ solver' with distances := d } : UtvpiSolver).graph.isInteger = true from hint] at hfinish
          exact ⟨hfinish, finish_graph⟩
        | conflict core =>
          exact ⟨⟨fun _ _ => hparity core rfl, by simp [conflict], by simp [conflict]⟩, rfl⟩
        | unknown => exact ⟨⟨by simp, by simp, by simp⟩, rfl⟩

end

/-- The states that the calls reach, with the constraints of their open scopes. Constraints are over
variables that exist, and every check iterates the map of the nodes in some order of its keys. -/
inductive Reaches (isInteger useSpfa : Bool) : UtvpiSolver → Scopes UtConstraint → Prop
  | new : Reaches isInteger useSpfa (withConfig isInteger useSpfa) {}
  | getOrCreateVar {s τ} (term : ℕ) :
      Reaches isInteger useSpfa s τ → Reaches isInteger useSpfa (s.getOrCreateVar term).1 τ
  | addConstraint {s τ} (c : UtConstraint) :
      Reaches isInteger useSpfa s τ → c.Ranged s.graph.numVars →
      Reaches isInteger useSpfa (s.addConstraint c).1 (τ.add c)
  | check {s τ} (order : List DoubledNode) :
      Reaches isInteger useSpfa s τ → order.Perm s.graph.nodes →
      Reaches isInteger useSpfa (s.check order).1 τ
  | push {s τ} : Reaches isInteger useSpfa s τ →
      Reaches isInteger useSpfa s.push τ.push
  | pop {s τ} (levels : ℕ) :
      Reaches isInteger useSpfa s τ → Reaches isInteger useSpfa (s.pop levels) (τ.pop levels)

variable {isInteger useSpfa : Bool}

theorem Reaches.represents (h : Reaches isInteger useSpfa solver σ) :
    solver.graph.Represents σ ∧ solver.graph.isInteger = isInteger := by
  induction h with
  | new => exact ⟨DoubledGraph.represents_nil isInteger, rfl⟩
  | getOrCreateVar term _ ih =>
    refine ⟨ih.1.getOrCreateVar term, Eq.trans ?_ ih.2⟩
    unfold UtvpiSolver.getOrCreateVar DoubledGraph.getOrCreateVar
    dsimp only
    split
    · rfl
    · rfl
  | addConstraint c _ hc ih =>
    exact ⟨ih.1.addConstraint hc, (DoubledGraph.isInteger_addConstraint _ c).trans ih.2⟩
  | check order _ ho ih =>
    rw [(verdict_check ih.1 ho).2]
    exact ih
  | push _ ih => exact ⟨ih.1.push, ih.2⟩
  | pop levels _ ih =>
    refine ⟨?_, Eq.trans ?_ ih.2⟩
    · unfold UtvpiSolver.pop
      split
      · exact ih.1.pop levels
      · next hl =>
        obtain rfl : levels = 0 := by omega
        exact ih.1
    · unfold UtvpiSolver.pop DoubledGraph.pop
      split
      · dsimp only
        split
        · rfl
        · rfl
      · rfl

/-- In every reachable state a check answers as the constraints of the open scopes allow, and over
the reals it decides them. -/
theorem check_verdict (h : Reaches isInteger useSpfa solver σ) (ho : order.Perm solver.graph.nodes) :
    Verdict isInteger σ.all (solver.check order) ∧
      (isInteger = false → ((solver.check order).2 = .ok ↔ Solvable false σ.all)) := by
  obtain ⟨hrep, hint⟩ := h.represents
  have hverdict := (verdict_check hrep ho).1
  rw [hint] at hverdict
  refine ⟨hverdict, fun hreal => ⟨fun hok => ?_, fun hsol => ?_⟩⟩
  · obtain ⟨X, -, hX, -⟩ := hverdict.ok hok
    exact ⟨fun v => X v, fun c hc => (hX c hc).cast⟩
  · cases hr : (solver.check order).2 with
    | ok => rfl
    | conflict core => exact absurd (hreal ▸ hsol) (hverdict.conflict core hr)
    | unknown => exact absurd (hverdict.unknown hr) (by simp [hreal])

/-- `2x ≤ 1` and `-2x ≤ -1` leave `x = 1/2`: the tight cycle of `x` has odd parity. -/
theorem check_verdict_parity : ∃ solver σ, Reaches true true solver σ ∧
    (solver.check [.negative 0, .source, .positive 0]).2 = .conflict [0, 1] ∧
    ¬ Solvable true [⟨0, .positive, 0, .positive, 1, false⟩, ⟨0, .negative, 0, .negative, -1, false⟩] := by
  have hrun : Reaches true true
      ((((withConfig true true).getOrCreateVar 7).1.push.addConstraint
        ⟨0, .positive, 0, .positive, 1, false⟩).1.addConstraint
        ⟨0, .negative, 0, .negative, -1, false⟩).1
      ((({} : Scopes UtConstraint).push.add ⟨0, .positive, 0, .positive, 1, false⟩).add
        ⟨0, .negative, 0, .negative, -1, false⟩) :=
    .addConstraint _ (.addConstraint _ (.push (.getOrCreateVar 7 .new))
      ⟨fun _ => by decide, fun _ => by decide⟩) ⟨fun _ => by decide, fun _ => by decide⟩
  have hconflict : (((((withConfig true true).getOrCreateVar 7).1.push.addConstraint
      ⟨0, .positive, 0, .positive, 1, false⟩).1.addConstraint
      ⟨0, .negative, 0, .negative, -1, false⟩).1.check [.negative 0, .source, .positive 0]).2 =
      .conflict [0, 1] := by
    with_unfolding_all decide
  exact ⟨_, _, hrun, hconflict, (check_verdict hrun (by decide)).1.conflict _ hconflict⟩

end UtvpiSolver

end Nixie.Utvpi
