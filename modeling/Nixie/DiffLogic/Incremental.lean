import Nixie.DiffLogic.Represents
import Mathlib.Data.Rat.Floor

/-!
Over any sequence of additions, pushes and pops the checked additions answer as a full check would, and the cached
distances meet the constraints while they count as valid.
-/

namespace Nixie.DiffLogic

open Nixie.Graph List Option DiffLogicSolver

def Asserted.Holds (a : Asserted) (φ : ℕ → ℤ) : Prop :=
  match a.kind with
  | .leqConst => ((φ a.x - φ a.y : ℤ) : ℚ) ≤ a.bound
  | .ltConst => ((φ a.x - φ a.y : ℤ) : ℚ) < a.bound

def Asserted.Integral (a : Asserted) : Prop := ∃ k : ℤ, a.bound = k

def Asserted.SelfConflict (a : Asserted) : Prop := a.x = a.y ∧ a.bound < 0

theorem exists_solves_iff {A : List Asserted} (hA : ∀ a ∈ A, a.Integral) :
    (∃ φ, Solves true A φ) ↔ ∃ φ : ℕ → ℤ, ∀ a ∈ A, a.Holds φ := by
  constructor
  · rintro ⟨φ, hφ⟩
    refine ⟨fun t => ⌊φ t⌋, fun a ha => ?_⟩
    obtain ⟨k, hk⟩ := hA a ha
    have hle := hφ a ha
    have hfloor : ∀ m : ℤ, φ a.x - φ a.y ≤ m → ⌊φ a.x⌋ - ⌊φ a.y⌋ ≤ m := by
      intro m hm
      have : ⌊φ a.x⌋ ≤ ⌊φ a.y + m⌋ := Int.floor_le_floor (by linarith)
      rw [Int.floor_add_intCast] at this
      omega
    unfold Asserted.tightened at hle
    unfold Asserted.Holds
    cases hkind : a.kind with
    | leqConst =>
      simp only [hkind, reduceCtorEq, false_and, ↓reduceIte, hk] at hle ⊢
      exact_mod_cast hfloor k hle
    | ltConst =>
      simp only [hkind, true_and, ↓reduceIte, hk] at hle ⊢
      have := hfloor (k - 1) (by push_cast; exact hle)
      exact_mod_cast Int.lt_of_le_sub_one this
  · rintro ⟨φ, hφ⟩
    refine ⟨fun t => φ t, fun a ha => ?_⟩
    obtain ⟨k, hk⟩ := hA a ha
    have hh := hφ a ha
    unfold Asserted.Holds at hh
    unfold Asserted.tightened
    cases hkind : a.kind with
    | leqConst =>
      simp only [hkind, hk] at hh
      simp only [reduceCtorEq, false_and, ↓reduceIte, hk]
      exact_mod_cast hh
    | ltConst =>
      simp only [hkind, hk] at hh
      simp only [and_self, ↓reduceIte, hk]
      have hlt : φ a.x - φ a.y < k := by exact_mod_cast hh
      have : φ a.x - φ a.y ≤ k - 1 := by omega
      exact_mod_cast this

namespace DiffLogicSolver

variable {solver : DiffLogicSolver} {σ : SparseSession} {a : Asserted}

structure Inv (solver : DiffLogicSolver) (σ : SparseSession) : Prop where
  represents : solver.graph.Represents σ.asserted
  scopes : solver.graph.Scoped σ
  valid : solver.distancesValid = true → Covers solver.graph.numVars solver.distances ∧
    Feasible solver.graph.arcs (value solver.distances)

theorem inv_empty (isInteger useSpfa : Bool) : Inv (withConfig isInteger useSpfa) {} :=
  ⟨ConstraintGraph.represents_nil _, ConstraintGraph.scoped_nil _, by simp [withConfig]⟩

theorem run_decides (h : solver.graph.Listed) : Decides solver.graph
    (if solver.useSpfa then Spfa.run solver.graph else BellmanFord.run solver.graph) := by
  split
  · exact Spfa.run_decides h
  · exact BellmanFord.run_decides h

theorem Inv.check (h : Inv solver σ) : Inv solver.check.1 σ ∧ solver.check.1.graph = solver.graph ∧
    (solver.check.2 = .ok ↔ ∃ φ, Solves solver.graph.isInteger σ.asserted φ) := by
  have hdec := run_decides h.represents.listed
  rw [h.represents.solvable_iff]
  unfold DiffLogicSolver.check
  cases hr : (if solver.useSpfa then Spfa.run solver.graph else BellmanFord.run solver.graph) with
  | distances d =>
    rw [hr] at hdec
    obtain ⟨hc, hs⟩ := hdec
    exact ⟨⟨h.represents, h.scopes, fun _ => ⟨hc, hs.feasible⟩⟩, rfl, by simp; exact ⟨_, hs.feasible⟩⟩
  | negativeCycle cycle total =>
    rw [hr] at hdec
    refine ⟨h, rfl, ?_⟩
    simp only [reduceCtorEq, false_iff]
    rintro ⟨ψ, hψ⟩
    exact hdec hψ.balanced

theorem Inv.intern (h : Inv solver σ) (a : Asserted) (origin : ℕ) :
    ∃ graph x y, (solver.graph.getOrCreateVar a.x).1.getOrCreateVar a.y = (graph, y) ∧
    (solver.graph.getOrCreateVar a.x).2 = x ∧ graph.Represents σ.asserted ∧
    ConstraintGraph.Extends solver.graph graph ∧ graph.Stores a ⟨x, y, a.bound, a.kind, origin⟩ ∧ (x = y ↔ a.x = a.y) ∧
    (x.id < solver.graph.numVars → y.id < solver.graph.numVars → graph = solver.graph) := by
  obtain ⟨g, x, hx, hr, hext, hvx, hsame⟩ := h.represents.getOrCreateVar a.x
  obtain ⟨g', y, hy, hr', hext', hvy, hsame'⟩ := hr.getOrCreateVar a.y
  have hvx' := hext'.vars _ _ hvx
  refine ⟨g', x, y, by rw [hx]; exact hy, by rw [hx], hr', hext.trans hext', ⟨hvx', hvy, rfl, rfl⟩, ?_, ?_⟩
  · constructor
    · rintro rfl
      exact hr'.var_inj hvx' hvy
    · intro heq
      rw [← heq, hvx'] at hvy
      exact some.inj hvy
  · intro hxlt hylt
    obtain rfl := hsame hxlt
    exact hsame' hylt

theorem Inv.addConstraintInternal (h : Inv solver σ) (a : Asserted) (origin : ℕ) :
    Inv (solver.addConstraintInternal a.x a.y a.bound a.kind origin).1 (σ.add a) := by
  obtain ⟨graph, x, y, hintern, hx, hr, hext, hst, -, -⟩ := h.intern a origin
  have hinv : Inv { solver with
      graph := (graph.addConstraint ⟨x, y, a.bound, a.kind, origin⟩).1
      distancesValid := false } (σ.add a) :=
    ⟨hr.addConstraint hst, (h.scopes.extends hext).addConstraint hr _, by simp⟩
  unfold DiffLogicSolver.addConstraintInternal
  simp only [hintern, hx]
  split
  · exact hinv
  · exact hinv

def Answers (r : DiffLogicSolver × DiffLogicResult) (σ : SparseSession) : Prop :=
  Inv r.1 σ ∧ (r.2 = .ok ↔ ∃ φ, Solves r.1.graph.isInteger σ.asserted φ)

theorem Inv.answers_check (h : Inv solver σ) : Answers solver.check σ := by
  obtain ⟨hinv, hgraph, hok⟩ := h.check
  refine ⟨hinv, ?_⟩
  rw [hgraph]
  exact hok

theorem answers_checkIncrementalFrom (hr : solver.graph.Represents σ.asserted) (hs : solver.graph.Scoped σ) {u : ℕ}
    (hu : u < solver.graph.numVars) (hc : Covers solver.graph.numVars solver.distances)
    (harcs : ∀ e ∈ solver.graph.arcs, e.src.id ≠ u →
    value solver.distances e.dst.id ≤ value solver.distances e.src.id + e.weight) :
    Answers (solver.checkIncrementalFrom (.node u)) σ := by
  obtain ⟨hnone, hsome⟩ := Spfa.seedFrom_spec hr.listed hu hc harcs
  unfold checkIncrementalFrom
  rw [if_neg (by simp [DiffVar.isSource])]
  cases hseed : Spfa.seedFrom solver.graph solver.distances (.node u) with
  | mk distances cycle =>
    rw [hseed] at hnone hsome
    cases cycle with
    | true => exact Inv.answers_check ⟨hr, hs, by simp⟩
    | false =>
      obtain ⟨hc', hf⟩ := hnone rfl
      refine ⟨⟨hr, hs, fun _ => ⟨hc', hf⟩⟩, ?_⟩
      simp only [Bool.false_eq_true, ↓reduceIte, true_iff]
      exact hr.solvable_iff.mpr ⟨_, hf⟩

theorem Inv.addCheck (h : Inv solver σ) (ha : ¬ a.SelfConflict) (origin : ℕ) :
    Answers (solver.addCheck a.x a.y a.bound a.kind origin) (σ.add a) := by
  obtain ⟨graph, x, y, hintern, hx, hr, hext, hst, hxy, hsame⟩ := h.intern a origin
  have hself : ¬ (x = y ∧ a.bound < 0) := fun hc => ha ⟨hxy.mp hc.1, hc.2⟩
  have hr' := hr.addConstraint hst
  have hs' := (h.scopes.extends hext).addConstraint (a := a) hr ⟨x, y, a.bound, a.kind, origin⟩
  unfold DiffLogicSolver.addCheck DiffLogicSolver.addConstraintInc
  simp only [hintern, hx, if_neg hself]
  by_cases hfull : (((solver.distances x.id).isNone || (solver.distances y.id).isNone) ||
      !solver.distancesValid) = true
  · rw [if_pos hfull]
    exact Inv.answers_check ⟨hr', hs', by simp⟩
  · rw [if_neg hfull]
    simp only [Bool.or_eq_true, Bool.not_eq_true', not_or, Bool.not_eq_false, isNone_iff_eq_none,
      ← ne_eq, ← isSome_iff_ne_none] at hfull
    obtain ⟨⟨hdx, hdy⟩, hvalid⟩ := hfull
    obtain ⟨hc, hf⟩ := h.valid hvalid
    -- a term with a cached distance had its number before
    obtain rfl := hsame ((hc _).mp hdx) ((hc _).mp hdy)
    obtain ⟨u, hu, -, rfl⟩ := hr.node_of_var hst.y
    have hold := h.represents.feasible_iff.mp hf
    show Answers (checkIncrementalFrom { solver with
      graph := (solver.graph.addConstraint ⟨x, .node u, a.bound, a.kind, origin⟩).1 } (.node u)) _
    refine answers_checkIncrementalFrom hr' hs' hu hc ?_
    intro e he hsrc
    obtain ⟨v, hv⟩ := hr'.listed.mem_arcs.mp he
    rw [hr'.edges v] at hv
    obtain ⟨i, c, hci, hcy, rfl⟩ := ConstraintGraph.mem_edgesFrom.mp hv
    have hmem : c ∈ solver.graph.constraints ++ [⟨x, .node u, a.bound, a.kind, origin⟩] := mem_of_getElem? hci
    rcases mem_append.mp hmem with hmem | hmem
    · exact hold c hmem
    · obtain rfl := mem_singleton.mp hmem
      exact absurd rfl hsrc

theorem Inv.push (h : Inv solver σ) : Inv solver.push σ.push := by
  refine ⟨h.represents.push, h.scopes.push h.represents, fun hv => ?_⟩
  exact h.valid hv

theorem Inv.pop (h : Inv solver σ) (levels : ℕ) : Inv (solver.pop levels) (σ.pop levels) := by
  obtain ⟨hr, hs⟩ := h.represents.pop h.scopes levels
  unfold DiffLogicSolver.pop
  split
  · next hl =>
    subst hl
    exact h
  · exact ⟨hr, hs, by simp⟩

inductive Op
  | addLeq (x y : ℕ) (c : ℚ) (origin : ℕ)
  | addLt (x y : ℕ) (c : ℚ) (origin : ℕ)
  | addLeqCheck (x y : ℕ) (c : ℚ) (origin : ℕ)
  | addLtCheck (x y : ℕ) (c : ℚ) (origin : ℕ)
  | check
  | push
  | pop (levels : ℕ)

def Op.call : Op → DiffLogicSolver → DiffLogicSolver × DiffLogicResult
  | .addLeq x y c origin, solver => solver.addLeq x y c origin
  | .addLt x y c origin, solver => solver.addLt x y c origin
  | .addLeqCheck x y c origin, solver => solver.addLeqCheck x y c origin
  | .addLtCheck x y c origin, solver => solver.addLtCheck x y c origin
  | .check, solver => solver.check
  | .push, solver => (solver.push, .ok)
  | .pop levels, solver => (solver.pop levels, .ok)

def Op.record : Op → SparseSession → SparseSession
  | .addLeq x y c _, σ => σ.add ⟨x, y, c, .leqConst⟩
  | .addLt x y c _, σ => σ.add ⟨x, y, c, .ltConst⟩
  | .addLeqCheck x y c _, σ => σ.add ⟨x, y, c, .leqConst⟩
  | .addLtCheck x y c _, σ => σ.add ⟨x, y, c, .ltConst⟩
  | .check, σ => σ
  | .push, σ => σ.push
  | .pop levels, σ => σ.pop levels

def Op.checked : Op → Option Asserted
  | .addLeqCheck x y c _ => some ⟨x, y, c, .leqConst⟩
  | .addLtCheck x y c _ => some ⟨x, y, c, .ltConst⟩
  | _ => none

section

variable (useSpfa : Bool)

def after (ops : List Op) : DiffLogicSolver :=
  ops.foldl (fun solver op => (op.call solver).1) (withConfig true useSpfa)

def recorded (ops : List Op) : SparseSession := ops.foldl (fun σ op => op.record σ) {}

theorem Inv.call (h : Inv solver σ) (op : Op) (hop : ∀ a, op.checked = some a → ¬ a.SelfConflict) :
    Inv (op.call solver).1 (op.record σ) := by
  cases op with
  | addLeq x y c origin => exact h.addConstraintInternal ⟨x, y, c, .leqConst⟩ origin
  | addLt x y c origin => exact h.addConstraintInternal ⟨x, y, c, .ltConst⟩ origin
  | addLeqCheck x y c origin => exact (h.addCheck (hop _ rfl) origin).1
  | addLtCheck x y c origin => exact (h.addCheck (hop _ rfl) origin).1
  | check => exact h.check.1
  | push => exact h.push
  | pop levels => exact h.pop levels

theorem inv_after (ops : List Op) (hops : ∀ op ∈ ops, ∀ a, op.checked = some a → ¬ a.SelfConflict) :
    Inv (after useSpfa ops) (recorded ops) := by
  induction ops using List.reverseRecOn with
  | nil => exact inv_empty true useSpfa
  | append_singleton ops op ih =>
    have h := ih fun op' hop' => hops op' (mem_append_left _ hop')
    unfold after recorded
    rw [foldl_concat, foldl_concat]
    exact h.call op (hops op (by simp))

theorem getOrCreateVar_isInteger (graph : ConstraintGraph) (t : ℕ) :
    (graph.getOrCreateVar t).1.isInteger = graph.isInteger := by
  unfold ConstraintGraph.getOrCreateVar
  split
  · rfl
  · rfl

theorem check_graph (solver : DiffLogicSolver) : solver.check.1.graph = solver.graph := by
  unfold check
  split
  · rfl
  · rfl

theorem addConstraintInternal_isInteger (x y : ℕ) (c : ℚ) (kind : ConstraintType) (origin : ℕ) :
    (solver.addConstraintInternal x y c kind origin).1.graph.isInteger = solver.graph.isInteger := by
  unfold addConstraintInternal
  dsimp only
  split
  · exact (getOrCreateVar_isInteger _ y).trans (getOrCreateVar_isInteger _ x)
  · exact (getOrCreateVar_isInteger _ y).trans (getOrCreateVar_isInteger _ x)

theorem addConstraintInc_isInteger (solver : DiffLogicSolver) (x y : ℕ) (c : ℚ) (kind : ConstraintType) (origin : ℕ) :
    (solver.addConstraintInc x y c kind origin).1.graph.isInteger = solver.graph.isInteger := by
  have hint := (getOrCreateVar_isInteger _ y).trans (getOrCreateVar_isInteger solver.graph x)
  unfold addConstraintInc
  dsimp only
  split
  · exact hint
  · split
    · exact hint
    · exact hint

theorem checkIncrementalFrom_isInteger (y : DiffVar) :
    (solver.checkIncrementalFrom y).1.graph.isInteger = solver.graph.isInteger := by
  unfold checkIncrementalFrom
  split
  · rfl
  · dsimp only
    split
    · rw [check_graph]
    · rfl

theorem addCheck_isInteger (x y : ℕ) (c : ℚ) (kind : ConstraintType) (origin : ℕ) :
    (solver.addCheck x y c kind origin).1.graph.isInteger = solver.graph.isInteger := by
  have hint := addConstraintInc_isInteger solver x y c kind origin
  unfold addCheck
  split
  · next hinc =>
    rw [hinc] at hint
    exact hint
  · next hinc =>
    rw [hinc] at hint
    rw [checkIncrementalFrom_isInteger]
    exact hint
  · next hinc =>
    rw [hinc] at hint
    rw [check_graph]
    exact hint

theorem call_isInteger (op : Op) : (op.call solver).1.graph.isInteger = solver.graph.isInteger := by
  cases op with
  | addLeq x y c origin => exact addConstraintInternal_isInteger x y c _ origin
  | addLt x y c origin => exact addConstraintInternal_isInteger x y c _ origin
  | addLeqCheck x y c origin => exact addCheck_isInteger x y c _ origin
  | addLtCheck x y c origin => exact addCheck_isInteger x y c _ origin
  | check => exact congrArg _ (check_graph solver)
  | push => rfl
  | pop levels =>
    unfold Op.call pop ConstraintGraph.pop
    dsimp only
    split
    · rfl
    · rfl

theorem after_isInteger (ops : List Op) : (after useSpfa ops).graph.isInteger = true := by
  induction ops using List.reverseRecOn with
  | nil => rfl
  | append_singleton ops op ih =>
    unfold after
    rw [foldl_concat, call_isInteger]
    exact ih

structure Agrees (r : DiffLogicSolver × DiffLogicResult) (A : List Asserted) : Prop where
  full : r.2 = .ok ↔ r.1.check.2 = .ok
  tightened : r.2 = .ok ↔ ∃ φ, Solves true A φ
  integral : (∀ a ∈ A, a.Integral) → (r.2 = .ok ↔ ∃ φ : ℕ → ℤ, ∀ a ∈ A, a.Holds φ)

def Cached (solver : DiffLogicSolver) : Prop :=
  solver.distancesValid = true → ∀ c ∈ solver.graph.constraints, ∃ dx dy,
    solver.distances c.x.id = some dx ∧ solver.distances c.y.id = some dy ∧
      dx - dy ≤ c.effectiveBound solver.graph.isInteger

theorem Inv.cached (h : Inv solver σ) : Cached solver := by
  intro hvalid c hc
  obtain ⟨hcov, hf⟩ := h.valid hvalid
  obtain ⟨a, -, hst⟩ := h.represents.stored hc
  obtain ⟨i, hi, -, hx⟩ := h.represents.node_of_var hst.x
  obtain ⟨j, hj, -, hy⟩ := h.represents.node_of_var hst.y
  have hle := h.represents.feasible_iff.mp hf c hc
  rw [hx, hy] at hle ⊢
  exact ⟨_, _, hcov.eq_some hi, hcov.eq_some hj, sub_le_iff_le_add'.mpr hle⟩

theorem Answers.agrees {r : DiffLogicSolver × DiffLogicResult} (h : Answers r σ)
    (hint : r.1.graph.isInteger = true) : Agrees r σ.asserted := by
  obtain ⟨hinv, hok⟩ := h
  have hcheck := hinv.check.2.2
  rw [hint] at hok hcheck
  exact ⟨hok.trans hcheck.symm, hok, fun hA => hok.trans (exists_solves_iff hA)⟩

/-- In a run without a checked addition that contradicts itself, every checked addition answers as
a full check would, and the cached distances meet the constraints while they are valid. -/
theorem incremental_exact (ops : List Op) (hops : ∀ op ∈ ops, ∀ a, op.checked = some a → ¬ a.SelfConflict) :
    Cached (after useSpfa ops) ∧ ∀ (op : Op) (a : Asserted), op.checked = some a → ¬ a.SelfConflict →
    Agrees (op.call (after useSpfa ops)) (op.record (recorded ops)).asserted := by
  have h := inv_after useSpfa ops hops
  have hint := after_isInteger useSpfa ops
  refine ⟨h.cached, fun op a hop ha => ?_⟩
  have hint' : (op.call (after useSpfa ops)).1.graph.isInteger = true := by
    rw [call_isInteger, hint]
  cases op with
  | addLeqCheck x y c origin =>
    obtain rfl := some.inj hop
    exact (h.addCheck ha origin).agrees hint'
  | addLtCheck x y c origin =>
    obtain rfl := some.inj hop
    exact (h.addCheck ha origin).agrees hint'
  | addLeq x y c origin => simp [Op.checked] at hop
  | addLt x y c origin => simp [Op.checked] at hop
  | check => simp [Op.checked] at hop
  | push => simp [Op.checked] at hop
  | pop levels => simp [Op.checked] at hop

end

/-- The cycle of the third constraint is found from the cached distances. -/
theorem incremental_exact_cycle : ((Op.addLtCheck 2 0 (-2) 12).call
    (after true [.addLeqCheck 0 1 1 10, .push, .addLeqCheck 1 2 1 11])).2 ≠ .ok ∧
    Agrees ((Op.addLtCheck 2 0 (-2) 12).call
    (after true [.addLeqCheck 0 1 1 10, .push, .addLeqCheck 1 2 1 11])) [⟨0, 1, 1, .leqConst⟩, ⟨1, 2, 1, .leqConst⟩,
    ⟨2, 0, -2, .ltConst⟩] := by
  refine ⟨by with_unfolding_all decide, ?_⟩
  refine (incremental_exact true _ ?_).2 (.addLtCheck 2 0 (-2) 12) _ rfl (by simp [Asserted.SelfConflict])
  intro op hop a ha
  simp only [mem_cons, not_mem_nil, or_false] at hop
  rcases hop with rfl | rfl | rfl
  · obtain rfl := some.inj ha
    simp [Asserted.SelfConflict]
  · simp [Op.checked] at ha
  · obtain rfl := some.inj ha
    simp [Asserted.SelfConflict]

/-- The checked addition of `x - x ≤ -1` answers a conflict, and leaves a graph whose full check
is satisfied. -/
theorem checked_self_conflict_not_stored : ¬ ∀ (useSpfa : Bool) (ops : List Op) (op : Op) (a : Asserted),
    op.checked = some a → Agrees (op.call (after useSpfa ops)) (op.record (recorded ops)).asserted := by
  intro h
  have hfull := (h true [] (.addLeqCheck 0 0 (-1) 7) _ rfl).full
  exact absurd (hfull.mpr (by with_unfolding_all decide)) (by with_unfolding_all decide)

end DiffLogicSolver

end Nixie.DiffLogic
