import Mathlib.Algebra.Order.Ring.Rat
import Nixie.Rust

/-!
The constraint graph of the sparse difference-logic engine: interned terms, adjacency lists in the
order of the constraints, and scopes as marks into the constraints. The searches stand twice: over
exact weights, and over `Rational64`, where a run that overflows has no result.
-/

namespace Nixie.DiffLogic

open Function Option Rust

inductive DiffVar
  | source
  | node (id : ℕ)
  deriving DecidableEq

def DiffVar.isSource : DiffVar → Bool
  | .source => true
  | .node _ => false

def DiffVar.id : DiffVar → ℕ
  | .source => 2 ^ 32 - 1
  | .node id => id

inductive ConstraintType
  | leqConst
  | ltConst
  deriving DecidableEq

structure DiffConstraint where
  x : DiffVar
  y : DiffVar
  bound : ℚ
  constraintType : ConstraintType
  origin : ℕ
  deriving DecidableEq

def DiffConstraint.effectiveBound (c : DiffConstraint) (isInteger : Bool) : ℚ :=
  match c.constraintType with
  | .leqConst => c.bound
  | .ltConst => if isInteger then c.bound - 1 else c.bound

structure DiffEdge where
  src : DiffVar
  dst : DiffVar
  weight : ℚ
  constraintIdx : ℕ
  strict : Bool
  deriving DecidableEq

structure ConstraintGraph where
  numVars : ℕ := 0
  varToNode : ℕ → Option DiffVar := fun _ => none
  nodeToVar : List ℕ := []
  edges : DiffVar → List DiffEdge := fun _ => []
  constraints : List DiffConstraint := []
  constraintMarks : List ℕ := [0]
  currentLevel : ℕ := 0
  isInteger : Bool

namespace ConstraintGraph

variable (graph : ConstraintGraph)

def pushEdge (edges : DiffVar → List DiffEdge) (slot : DiffVar) (e : DiffEdge) :
    DiffVar → List DiffEdge :=
  fun v => if v = slot then edges v ++ [e] else edges v

def getOrCreateVar (term : ℕ) : ConstraintGraph × DiffVar :=
  match graph.varToNode term with
  | some var => (graph, var)
  | none =>
    let var := DiffVar.node graph.numVars
    ({ graph with
        numVars := graph.numVars + 1
        varToNode := fun t => if t = term then some var else graph.varToNode t
        nodeToVar := graph.nodeToVar ++ [term]
        edges := pushEdge graph.edges .source ⟨.source, var, 0, 0, false⟩ }, var)

def edgeOf (c : DiffConstraint) (idx : ℕ) : DiffEdge :=
  { src := c.y
    dst := c.x
    weight := c.effectiveBound graph.isInteger
    constraintIdx := idx
    strict := c.constraintType = .ltConst && !graph.isInteger }

def addConstraint (c : DiffConstraint) : ConstraintGraph × ℕ :=
  let idx := graph.constraints.length
  let marks := graph.constraintMarks ++
    List.replicate (graph.currentLevel + 1 - graph.constraintMarks.length) graph.constraints.length
  ({ graph with
      edges := pushEdge graph.edges c.y (graph.edgeOf c idx)
      constraintMarks := marks.set graph.currentLevel (idx + 1)
      constraints := graph.constraints ++ [c] }, idx)

def vars : List DiffVar := (List.range graph.numVars).map .node

def allEdges : List DiffEdge := (DiffVar.source :: graph.vars).flatMap graph.edges

def push : ConstraintGraph :=
  { graph with
    currentLevel := graph.currentLevel + 1
    constraintMarks := graph.constraintMarks ++ [graph.constraints.length] }

def retain (keep : ℕ) (edges : List DiffEdge) : List DiffEdge :=
  match edges.getLast? with
  | some last => if keep ≤ last.constraintIdx then edges.filter (·.constraintIdx < keep) else edges
  | none => edges

def pop (levels : ℕ) : ConstraintGraph :=
  if levels = 0 then graph
  else
    let targetLevel := graph.currentLevel - levels
    let keep := graph.constraintMarks.getD targetLevel 0
    { graph with
      constraints := graph.constraints.take keep
      edges := fun v => retain keep (graph.edges v)
      constraintMarks := graph.constraintMarks.take (targetLevel + 1)
      currentLevel := targetLevel }

end ConstraintGraph

abbrev Distances := ℕ → Option ℚ

inductive BellmanFordResult
  | distances (d : Distances)
  | negativeCycle (edges : List ℕ) (totalWeight : ℚ)

def improved (new : ℚ) : Option ℚ → Bool
  | none => true
  | some d => new < d

def zeros (n : ℕ) : Distances := fun i => if i < n then some 0 else none

section

variable (graph : ConstraintGraph) (parentEdge : ℕ → Option ℕ)

def parent (current : DiffVar) : Option (ℕ × DiffConstraint) :=
  (parentEdge current.id).bind fun idx => (graph.constraints[idx]?).map fun c => (idx, c)

def walkBack : ℕ → DiffVar → DiffVar
  | 0, current => current
  | steps + 1, current =>
    match parent graph parentEdge current with
    | some (_, c) => walkBack steps c.y
    | none => current

def collectCycle (start : DiffVar) : ℕ → DiffVar → List ℕ → ℚ → List ℕ × ℚ
  | 0, _, edges, total => (edges, total)
  | fuel + 1, current, edges, total =>
    match parent graph parentEdge current with
    | none => (edges, total)
    | some (idx, c) =>
      let edges := edges ++ [idx]
      let total := total + c.effectiveBound graph.isInteger
      if c.y = start then (edges, total)
      else if edges.length > graph.numVars + 1 then (edges, total)
      else collectCycle start fuel c.y edges total

def extractNegativeCycle (start : DiffVar) (trigger : Option DiffEdge) : List ℕ × ℚ :=
  let current := walkBack graph parentEdge (graph.numVars + 1) start
  let (edges, total) := collectCycle graph parentEdge current (graph.numVars + 2) current [] 0
  match edges, trigger with
  | [], some e => ([e.constraintIdx], e.weight)
  | edges, _ => (edges, total)

end

structure BellmanFord where
  distances : Distances
  parentEdge : ℕ → Option ℕ
  changed : Bool

namespace BellmanFord

def relaxEdge (bf : BellmanFord) (edge : DiffEdge) : BellmanFord :=
  if edge.src.isSource then bf
  else
    match bf.distances edge.src.id with
    | none => bf
    | some distFrom =>
      let newDist := distFrom + edge.weight
      if improved newDist (bf.distances edge.dst.id) then
        { distances := update bf.distances edge.dst.id (some newDist)
          parentEdge := update bf.parentEdge edge.dst.id (some edge.constraintIdx)
          changed := true }
      else bf

def passes (graph : ConstraintGraph) : ℕ → BellmanFord → BellmanFord
  | 0, bf => bf
  | rounds + 1, bf =>
    let bf := graph.allEdges.foldl relaxEdge { bf with changed := false }
    if bf.changed then passes graph rounds bf else bf

def improves (bf : BellmanFord) (edge : DiffEdge) : Bool :=
  !edge.src.isSource &&
    match bf.distances edge.src.id, bf.distances edge.dst.id with
    | some distFrom, some distTo => distFrom + edge.weight < distTo
    | _, _ => false

def run (graph : ConstraintGraph) : BellmanFordResult :=
  let bf := passes graph (graph.numVars - 1) ⟨zeros graph.numVars, fun _ => none, false⟩
  match graph.allEdges.find? bf.improves with
  | some edge =>
    let (edges, total) := extractNegativeCycle graph bf.parentEdge edge.dst (some edge)
    .negativeCycle edges total
  | none => .distances bf.distances

end BellmanFord

structure Spfa where
  distances : Distances
  parentEdge : ℕ → Option ℕ
  inQueue : ℕ → Bool
  count : ℕ → ℕ
  queue : List DiffVar

namespace Spfa

/-- The edges of one node, whose distance `du` was read when it left the queue. A node that is
queued too often ends the search. -/
def relaxEdges (n : ℕ) (du : ℚ) : List DiffEdge → Spfa → Spfa × Option DiffVar
  | [], spfa => (spfa, none)
  | edge :: edges, spfa =>
    if edge.src.isSource then relaxEdges n du edges spfa
    else
      let newDist := du + edge.weight
      let ti := edge.dst.id
      if improved newDist (spfa.distances ti) then
        let spfa := { spfa with
          distances := update spfa.distances ti (some newDist)
          parentEdge := update spfa.parentEdge ti (some edge.constraintIdx) }
        if !spfa.inQueue ti then
          let spfa := { spfa with
            queue := spfa.queue ++ [edge.dst]
            inQueue := update spfa.inQueue ti true
            count := update spfa.count ti (spfa.count ti + 1) }
          if spfa.count ti > n + 1 then (spfa, some edge.dst) else relaxEdges n du edges spfa
        else relaxEdges n du edges spfa
      else relaxEdges n du edges spfa

def loop (graph : ConstraintGraph) : ℕ → Spfa → Spfa × Option DiffVar
  | 0, spfa => (spfa, none)
  | fuel + 1, spfa =>
    match spfa.queue with
    | [] => (spfa, none)
    | u :: queue =>
      let spfa := { spfa with queue := queue, inQueue := update spfa.inQueue u.id false }
      match spfa.distances u.id with
      | none => loop graph fuel spfa
      | some du =>
        match relaxEdges graph.numVars du (graph.edges u) spfa with
        | (spfa, some v) => (spfa, some v)
        | (spfa, none) => loop graph fuel spfa

section

variable (graph : ConstraintGraph)

def spfaLoop (spfa : Spfa) : Spfa × Option DiffVar :=
  loop graph (graph.numVars * (graph.numVars + 1) + 1) spfa

def edgeInstance (idx : ℕ) : Option DiffEdge :=
  graph.allEdges.find? (·.constraintIdx = idx)

def run : BellmanFordResult :=
  let n := graph.numVars
  let spfa : Spfa := ⟨zeros n, fun _ => none, fun i => i < n, fun i => if i < n then 1 else 0, graph.vars⟩
  match spfaLoop graph spfa with
  | (spfa, some v) =>
    let trigger := (spfa.parentEdge v.id).bind (edgeInstance graph)
    let (edges, total) := extractNegativeCycle graph spfa.parentEdge v trigger
    .negativeCycle edges total
  | (spfa, none) => .distances spfa.distances

def seedFrom (distances : Distances) (src : DiffVar) : Distances × Bool :=
  if src.isSource || graph.numVars ≤ src.id then (distances, false)
  else
    match distances src.id with
    | none => (distances, false)
    | some _ =>
      let spfa : Spfa := ⟨distances, fun _ => none, fun i => i = src.id,
        fun i => if i = src.id then 1 else 0, [src]⟩
      let (spfa, cycle) := spfaLoop graph spfa
      (spfa.distances, cycle.isSome)

end

end Spfa

inductive DiffLogicResult
  | ok
  | conflict (terms : List ℕ)
  deriving DecidableEq

inductive IncAdd
  | conflict (terms : List ℕ)
  | ok (x y : DiffVar) (w : ℚ)
  | fullCheck

structure DiffLogicSolver where
  useSpfa : Bool := true
  graph : ConstraintGraph
  distances : Distances := fun _ => none
  distancesValid : Bool := false

namespace DiffLogicSolver

def withConfig (isInteger useSpfa : Bool) : DiffLogicSolver :=
  { useSpfa := useSpfa, graph := { isInteger := isInteger } }

variable (solver : DiffLogicSolver)

def addConstraintInternal (xTerm yTerm : ℕ) (c : ℚ) (constraintType : ConstraintType)
    (origin : ℕ) : DiffLogicSolver × DiffLogicResult :=
  let (graph, x) := solver.graph.getOrCreateVar xTerm
  let (graph, y) := graph.getOrCreateVar yTerm
  let (graph, _) := graph.addConstraint ⟨x, y, c, constraintType, origin⟩
  let solver := { solver with graph := graph, distancesValid := false }
  if x = y ∧ c < 0 then (solver, .conflict [origin]) else (solver, .ok)

def addLeq (x y : ℕ) (c : ℚ) (origin : ℕ) : DiffLogicSolver × DiffLogicResult :=
  solver.addConstraintInternal x y c .leqConst origin

def addLt (x y : ℕ) (c : ℚ) (origin : ℕ) : DiffLogicSolver × DiffLogicResult :=
  solver.addConstraintInternal x y c .ltConst origin

def cycleToConflict (cycle : List ℕ) : List ℕ :=
  cycle.filterMap fun idx => (solver.graph.constraints[idx]?).map (·.origin)

def check : DiffLogicSolver × DiffLogicResult :=
  match if solver.useSpfa then Spfa.run solver.graph else BellmanFord.run solver.graph with
  | .distances d => ({ solver with distances := d, distancesValid := true }, .ok)
  | .negativeCycle cycle _ => (solver, .conflict (solver.cycleToConflict cycle))

def addConstraintInc (xTerm yTerm : ℕ) (c : ℚ) (constraintType : ConstraintType) (origin : ℕ) :
    DiffLogicSolver × IncAdd :=
  let (graph, x) := solver.graph.getOrCreateVar xTerm
  let (graph, y) := graph.getOrCreateVar yTerm
  let newVar := (solver.distances x.id).isNone || (solver.distances y.id).isNone
  let constraint : DiffConstraint := ⟨x, y, c, constraintType, origin⟩
  if x = y ∧ c < 0 then
    ({ solver with graph := graph, distancesValid := false }, .conflict [origin])
  else
    let effective := constraint.effectiveBound graph.isInteger
    let (graph, _) := graph.addConstraint constraint
    if newVar || !solver.distancesValid then
      ({ solver with graph := graph, distancesValid := false }, .fullCheck)
    else ({ solver with graph := graph }, .ok x y effective)

def checkIncrementalFrom (y : DiffVar) : DiffLogicSolver × DiffLogicResult :=
  if y.isSource then (solver, .ok)
  else
    let (distances, cycle) := Spfa.seedFrom solver.graph solver.distances y
    if cycle then ({ solver with distances := distances, distancesValid := false }).check
    else ({ solver with distances := distances }, .ok)

def addCheck (x y : ℕ) (c : ℚ) (constraintType : ConstraintType) (origin : ℕ) :
    DiffLogicSolver × DiffLogicResult :=
  match solver.addConstraintInc x y c constraintType origin with
  | (solver, .conflict terms) => (solver, .conflict terms)
  | (solver, .ok _ y _) => solver.checkIncrementalFrom y
  | (solver, .fullCheck) => solver.check

def addLeqCheck (x y : ℕ) (c : ℚ) (origin : ℕ) : DiffLogicSolver × DiffLogicResult :=
  solver.addCheck x y c .leqConst origin

def addLtCheck (x y : ℕ) (c : ℚ) (origin : ℕ) : DiffLogicSolver × DiffLogicResult :=
  solver.addCheck x y c .ltConst origin

def getModel : DiffLogicSolver × (ℕ → Option ℚ) :=
  let values (solver : DiffLogicSolver) (term : ℕ) : Option ℚ :=
    (solver.graph.nodeToVar.findIdx? (· = term)).bind solver.distances
  if solver.distancesValid then (solver, values solver)
  else
    match solver.check with
    | (solver, .conflict _) => (solver, fun _ => none)
    | (solver, .ok) => (solver, values solver)

def push : DiffLogicSolver := { solver with graph := solver.graph.push }

def pop (levels : ℕ) : DiffLogicSolver :=
  if levels = 0 then solver
  else { solver with graph := solver.graph.pop levels, distancesValid := false }

end DiffLogicSolver

/-- The sum of two `Rational64` over their least common denominator, where no `i64` on the way overflows. -/
def addR64 (a b : ℚ) : Option ℚ :=
  let lcm := Nat.lcm a.den b.den
  let n := a.num * (lcm / a.den : ℕ)
  let m := b.num * (lcm / b.den : ℕ)
  if fitsI64 lcm && fitsI64 n && fitsI64 m && fitsI64 (n + m) then some (a + b) else none

def DiffConstraint.effectiveBound64 (c : DiffConstraint) (isInteger : Bool) : Option ℚ :=
  match c.constraintType with
  | .leqConst => some c.bound
  | .ltConst => if isInteger then addR64 c.bound (-1) else some c.bound

section

variable (graph : ConstraintGraph) (parentEdge : ℕ → Option ℕ)

def collectCycle64 (start : DiffVar) : ℕ → DiffVar → List ℕ → ℚ → Option (List ℕ × ℚ)
  | 0, _, edges, total => some (edges, total)
  | fuel + 1, current, edges, total =>
    match parent graph parentEdge current with
    | none => some (edges, total)
    | some (idx, c) => do
      let edges := edges ++ [idx]
      let bound ← c.effectiveBound64 graph.isInteger
      let total ← addR64 total bound
      if c.y = start then some (edges, total)
      else if edges.length > graph.numVars + 1 then some (edges, total)
      else collectCycle64 start fuel c.y edges total

def extractNegativeCycle64 (start : DiffVar) (trigger : Option DiffEdge) : Option (List ℕ × ℚ) := do
  let current := walkBack graph parentEdge (graph.numVars + 1) start
  let (edges, total) ← collectCycle64 graph parentEdge current (graph.numVars + 2) current [] 0
  match edges, trigger with
  | [], some e => some ([e.constraintIdx], e.weight)
  | edges, _ => some (edges, total)

end

namespace BellmanFord

def relaxEdge64 (bf : BellmanFord) (edge : DiffEdge) : Option BellmanFord :=
  if edge.src.isSource then some bf
  else
    match bf.distances edge.src.id with
    | none => some bf
    | some distFrom => do
      let newDist ← addR64 distFrom edge.weight
      if improved newDist (bf.distances edge.dst.id) then
        some {
          distances := update bf.distances edge.dst.id (some newDist)
          parentEdge := update bf.parentEdge edge.dst.id (some edge.constraintIdx)
          changed := true }
      else some bf

def passes64 (graph : ConstraintGraph) : ℕ → BellmanFord → Option BellmanFord
  | 0, bf => some bf
  | rounds + 1, bf => do
    let bf ← graph.allEdges.foldlM relaxEdge64 { bf with changed := false }
    if bf.changed then passes64 graph rounds bf else some bf

def improves64 (bf : BellmanFord) (edge : DiffEdge) : Option Bool :=
  if edge.src.isSource then some false
  else
    match bf.distances edge.src.id with
    | none => some false
    | some distFrom => do
      let newDist ← addR64 distFrom edge.weight
      match bf.distances edge.dst.id with
      | some distTo => some (newDist < distTo)
      | none => some false

def firstImproving64 (bf : BellmanFord) : List DiffEdge → Option (Option DiffEdge)
  | [] => some none
  | edge :: edges => do
    if ← bf.improves64 edge then some (some edge) else firstImproving64 bf edges

def run64 (graph : ConstraintGraph) : Option BellmanFordResult := do
  let bf ← passes64 graph (graph.numVars - 1) ⟨zeros graph.numVars, fun _ => none, false⟩
  match ← bf.firstImproving64 graph.allEdges with
  | some edge =>
    let (edges, total) ← extractNegativeCycle64 graph bf.parentEdge edge.dst (some edge)
    some (.negativeCycle edges total)
  | none => some (.distances bf.distances)

end BellmanFord

namespace Spfa

def relaxEdges64 (n : ℕ) (du : ℚ) : List DiffEdge → Spfa → Option (Spfa × Option DiffVar)
  | [], spfa => some (spfa, none)
  | edge :: edges, spfa =>
    if edge.src.isSource then relaxEdges64 n du edges spfa
    else do
      let newDist ← addR64 du edge.weight
      let ti := edge.dst.id
      if improved newDist (spfa.distances ti) then
        let spfa := { spfa with
          distances := update spfa.distances ti (some newDist)
          parentEdge := update spfa.parentEdge ti (some edge.constraintIdx) }
        if !spfa.inQueue ti then
          let spfa := { spfa with
            queue := spfa.queue ++ [edge.dst]
            inQueue := update spfa.inQueue ti true
            count := update spfa.count ti (spfa.count ti + 1) }
          if spfa.count ti > n + 1 then some (spfa, some edge.dst) else relaxEdges64 n du edges spfa
        else relaxEdges64 n du edges spfa
      else relaxEdges64 n du edges spfa

def loop64 (graph : ConstraintGraph) : ℕ → Spfa → Option (Spfa × Option DiffVar)
  | 0, spfa => some (spfa, none)
  | fuel + 1, spfa =>
    match spfa.queue with
    | [] => some (spfa, none)
    | u :: queue =>
      let spfa := { spfa with queue := queue, inQueue := update spfa.inQueue u.id false }
      match spfa.distances u.id with
      | none => loop64 graph fuel spfa
      | some du => do
        match ← relaxEdges64 graph.numVars du (graph.edges u) spfa with
        | (spfa, some v) => some (spfa, some v)
        | (spfa, none) => loop64 graph fuel spfa

def run64 (graph : ConstraintGraph) : Option BellmanFordResult := do
  let n := graph.numVars
  let spfa : Spfa := ⟨zeros n, fun _ => none, fun i => i < n, fun i => if i < n then 1 else 0, graph.vars⟩
  match ← loop64 graph (n * (n + 1) + 1) spfa with
  | (spfa, some v) =>
    let trigger := (spfa.parentEdge v.id).bind (edgeInstance graph)
    let (edges, total) ← extractNegativeCycle64 graph spfa.parentEdge v trigger
    some (.negativeCycle edges total)
  | (spfa, none) => some (.distances spfa.distances)

end Spfa

def DiffLogicSolver.check64 (solver : DiffLogicSolver) : Option (DiffLogicSolver × DiffLogicResult) :=
  (if solver.useSpfa then Spfa.run64 solver.graph else BellmanFord.run64 solver.graph).map fun
    | .distances d => ({ solver with distances := d, distancesValid := true }, .ok)
    | .negativeCycle cycle _ => (solver, .conflict (solver.cycleToConflict cycle))

variable {graph : ConstraintGraph}

theorem addR64_eq {a b c : ℚ} (h : addR64 a b = some c) : c = a + b := by
  simp only [addR64] at h
  split at h
  · exact (some.inj h).symm
  · cases h

theorem effectiveBound64_eq {c : DiffConstraint} {isInteger : Bool} {b : ℚ}
    (h : c.effectiveBound64 isInteger = some b) : b = c.effectiveBound isInteger := by
  unfold DiffConstraint.effectiveBound64 at h
  unfold DiffConstraint.effectiveBound
  cases hk : c.constraintType with
  | leqConst =>
    rw [hk] at h
    exact (some.inj h).symm
  | ltConst =>
    rw [hk] at h
    cases isInteger with
    | false => exact (some.inj h).symm
    | true =>
      simp only [↓reduceIte] at h
      rw [addR64_eq h]
      exact (sub_eq_add_neg _ _).symm

theorem collectCycle64_eq {parentEdge : ℕ → Option ℕ} {start : DiffVar} (fuel : ℕ) {current : DiffVar}
    {edges : List ℕ} {total : ℚ} {r : List ℕ × ℚ}
    (h : collectCycle64 graph parentEdge start fuel current edges total = some r) :
    collectCycle graph parentEdge start fuel current edges total = r := by
  induction fuel generalizing current edges total with
  | zero => exact some.inj h
  | succ fuel ih =>
    rw [collectCycle64] at h
    rw [collectCycle]
    cases hp : parent graph parentEdge current with
    | none =>
      rw [hp] at h
      exact some.inj h
    | some p =>
      rw [hp] at h
      obtain ⟨bound, hbound, h⟩ := bind_eq_some_iff.mp h
      obtain ⟨sum, hsum, h⟩ := bind_eq_some_iff.mp h
      rw [addR64_eq hsum, effectiveBound64_eq hbound] at h
      dsimp only
      split_ifs at h ⊢
      · exact some.inj h
      · exact some.inj h
      · exact ih h

theorem extractNegativeCycle64_eq {parentEdge : ℕ → Option ℕ} {start : DiffVar} {trigger : Option DiffEdge}
    {r : List ℕ × ℚ} (h : extractNegativeCycle64 graph parentEdge start trigger = some r) :
    extractNegativeCycle graph parentEdge start trigger = r := by
  obtain ⟨⟨edges, total⟩, hp, h⟩ := bind_eq_some_iff.mp h
  rw [extractNegativeCycle, collectCycle64_eq _ hp]
  cases edges with
  | nil => cases trigger <;> exact some.inj h
  | cons idx edges => exact some.inj h

namespace BellmanFord

variable {bf : BellmanFord} {bf' : BellmanFord}

theorem relaxEdge64_eq {e : DiffEdge} (h : bf.relaxEdge64 e = some bf') : bf.relaxEdge e = bf' := by
  unfold relaxEdge64 at h
  unfold relaxEdge
  split_ifs at h ⊢
  · exact some.inj h
  · cases hd : bf.distances e.src.id with
    | none =>
      rw [hd] at h
      exact some.inj h
    | some d =>
      rw [hd] at h
      obtain ⟨sum, hsum, h⟩ := bind_eq_some_iff.mp h
      rw [addR64_eq hsum] at h
      dsimp only
      split_ifs at h ⊢ <;> exact some.inj h

theorem foldlM_relaxEdge64_eq {edges : List DiffEdge} (h : edges.foldlM relaxEdge64 bf = some bf') :
    edges.foldl relaxEdge bf = bf' := by
  induction edges generalizing bf with
  | nil => exact some.inj h
  | cons e edges ih =>
    rw [List.foldlM_cons] at h
    obtain ⟨next, hnext, h⟩ := bind_eq_some_iff.mp h
    rw [List.foldl_cons, relaxEdge64_eq hnext]
    exact ih h

theorem passes64_eq (rounds : ℕ) (h : passes64 graph rounds bf = some bf') : passes graph rounds bf = bf' := by
  induction rounds generalizing bf with
  | zero => exact some.inj h
  | succ rounds ih =>
    obtain ⟨next, hnext, h⟩ := bind_eq_some_iff.mp h
    rw [passes, foldlM_relaxEdge64_eq hnext]
    split_ifs at h ⊢
    · exact ih h
    · exact some.inj h

theorem improves64_eq {e : DiffEdge} {b : Bool} (h : bf.improves64 e = some b) : bf.improves e = b := by
  unfold improves64 at h
  unfold improves
  split_ifs at h with hs
  · simpa [hs] using h
  · cases hd : bf.distances e.src.id with
    | none =>
      rw [hd] at h
      simpa using h
    | some d =>
      rw [hd] at h
      obtain ⟨sum, hsum, h⟩ := bind_eq_some_iff.mp h
      rw [addR64_eq hsum] at h
      cases hd' : bf.distances e.dst.id with
      | none =>
        rw [hd'] at h
        simpa using h
      | some d' =>
        rw [hd'] at h
        simpa [hs] using h

theorem firstImproving64_eq {edges : List DiffEdge} {r : Option DiffEdge}
    (h : bf.firstImproving64 edges = some r) : edges.find? bf.improves = r := by
  induction edges with
  | nil => exact some.inj h
  | cons e edges ih =>
    obtain ⟨b, hb, h⟩ := bind_eq_some_iff.mp h
    rw [List.find?_cons, improves64_eq hb]
    cases b with
    | true => exact some.inj h
    | false => exact ih h

theorem run64_eq {r : BellmanFordResult} (h : run64 graph = some r) : run graph = r := by
  obtain ⟨bf, hbf, h⟩ := bind_eq_some_iff.mp h
  obtain ⟨first, hfirst, h⟩ := bind_eq_some_iff.mp h
  unfold run
  rw [passes64_eq _ hbf]
  dsimp only
  rw [firstImproving64_eq hfirst]
  cases first with
  | none => exact some.inj h
  | some e =>
    obtain ⟨p, hp, h⟩ := bind_eq_some_iff.mp h
    dsimp only
    rw [extractNegativeCycle64_eq hp]
    exact some.inj h

end BellmanFord

namespace Spfa

theorem relaxEdges64_eq {n : ℕ} {du : ℚ} (edges : List DiffEdge) {spfa : Spfa} {r : Spfa × Option DiffVar}
    (h : relaxEdges64 n du edges spfa = some r) : relaxEdges n du edges spfa = r := by
  induction edges generalizing spfa with
  | nil => exact some.inj h
  | cons e edges ih =>
    rw [relaxEdges64] at h
    rw [relaxEdges]
    by_cases hs : e.src.isSource
    · rw [if_pos hs] at h ⊢
      exact ih h
    · rw [if_neg hs] at h ⊢
      obtain ⟨sum, hsum, h⟩ := bind_eq_some_iff.mp h
      rw [addR64_eq hsum] at h
      dsimp only at h ⊢
      split_ifs at h ⊢
      · exact some.inj h
      · exact ih h
      · exact ih h
      · exact ih h

theorem loop64_eq (fuel : ℕ) {spfa : Spfa} {r : Spfa × Option DiffVar} (h : loop64 graph fuel spfa = some r) :
    loop graph fuel spfa = r := by
  induction fuel generalizing spfa with
  | zero => exact some.inj h
  | succ fuel ih =>
    rw [loop64] at h
    rw [loop]
    cases hq : spfa.queue with
    | nil =>
      rw [hq] at h
      exact some.inj h
    | cons u queue =>
      rw [hq] at h
      dsimp only at h ⊢
      cases hd : spfa.distances u.id with
      | none =>
        rw [hd] at h
        exact ih h
      | some du =>
        rw [hd] at h
        obtain ⟨p, hp, h⟩ := bind_eq_some_iff.mp h
        dsimp only
        rw [relaxEdges64_eq _ hp]
        obtain ⟨next, v⟩ := p
        cases v with
        | some v => exact some.inj h
        | none => exact ih h

theorem run64_eq {r : BellmanFordResult} (h : run64 graph = some r) : run graph = r := by
  obtain ⟨p, hp, h⟩ := bind_eq_some_iff.mp h
  unfold run spfaLoop
  dsimp only
  rw [loop64_eq _ hp]
  obtain ⟨spfa, v⟩ := p
  cases v with
  | none => exact some.inj h
  | some v =>
    obtain ⟨q, hq, h⟩ := bind_eq_some_iff.mp h
    dsimp only
    rw [extractNegativeCycle64_eq hq]
    exact some.inj h

end Spfa

theorem DiffLogicSolver.check64_eq {solver : DiffLogicSolver} {r : DiffLogicSolver × DiffLogicResult}
    (h : solver.check64 = some r) : solver.check = r := by
  obtain ⟨res, hres, rfl⟩ := map_eq_some_iff.mp h
  have hrun : (if solver.useSpfa then Spfa.run solver.graph else BellmanFord.run solver.graph) = res := by
    split at hres
    · next hu =>
      rw [if_pos hu]
      exact Spfa.run64_eq hres
    · next hu =>
      rw [if_neg hu]
      exact BellmanFord.run64_eq hres
  unfold check
  rw [hrun]

end Nixie.DiffLogic
