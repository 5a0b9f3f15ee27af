import Mathlib.Algebra.Order.Monoid.Prod
import Mathlib.Data.Rat.Floor

/-!
The doubled graph of the UTVPI engine. A variable has a positive and a negative node, and a
constraint over two variables is stored as two edges that mirror each other.
-/

namespace Nixie.Utvpi

open Function

abbrev BigDeltaRational := ℚ ×ₗ ℚ

namespace BigDeltaRational

def mk (real delta : ℚ) : BigDeltaRational := toLex (real, delta)

def real (d : BigDeltaRational) : ℚ := (ofLex d).1

def delta (d : BigDeltaRational) : ℚ := (ofLex d).2

def realOnly (real : ℚ) : BigDeltaRational := mk real 0

end BigDeltaRational

inductive DoubledNode
  | source
  | node (varId : ℕ) (positive : Bool)
  deriving DecidableEq

namespace DoubledNode

def positive (varId : ℕ) : DoubledNode := .node varId true

def negative (varId : ℕ) : DoubledNode := .node varId false

end DoubledNode

inductive Sign
  | positive
  | negative
  | zero
  deriving DecidableEq

structure UtConstraint where
  x : ℕ
  a : Sign
  y : ℕ
  b : Sign
  bound : ℚ
  strict : Bool

def UtConstraint.effectiveBound (c : UtConstraint) (isInteger : Bool) : BigDeltaRational :=
  if isInteger then
    .realOnly (if c.strict then (⌈c.bound⌉ : ℚ) - 1 else (⌊c.bound⌋ : ℚ))
  else .mk c.bound (if c.strict then -1 else 0)

structure UtEdge where
  src : DoubledNode
  dst : DoubledNode
  weight : BigDeltaRational
  constraintIdx : Option ℕ

structure DoubledGraph where
  numVars : ℕ := 0
  termToVar : ℕ → Option ℕ := fun _ => none
  -- the keys of the map from nodes to edges
  nodes : List DoubledNode := [.source]
  edges : DoubledNode → List UtEdge := fun _ => []
  constraints : List UtConstraint := []
  activeByLevel : List (List ℕ) := [[]]
  currentLevel : ℕ := 0
  isInteger : Bool

namespace DoubledGraph

variable (graph : DoubledGraph)

def activeConstraints : List (ℕ × UtConstraint) :=
  graph.activeByLevel.flatten.filterMap fun i => (graph.constraints[i]?).map fun c => (i, c)

def addEdge (src dst : DoubledNode) (weight : BigDeltaRational) (idx : Option ℕ) : DoubledGraph :=
  { graph with
    nodes := if src ∈ graph.nodes then graph.nodes else graph.nodes ++ [src]
    edges := update graph.edges src (graph.edges src ++ [⟨src, dst, weight, idx⟩]) }

def addNode (v : DoubledNode) : DoubledGraph :=
  { graph with nodes := if v ∈ graph.nodes then graph.nodes else graph.nodes ++ [v] }

def getOrCreateVar (term : ℕ) : DoubledGraph × ℕ :=
  match graph.termToVar term with
  | some var => (graph, var)
  | none =>
    let var := graph.numVars
    let pos := DoubledNode.positive var
    let neg := DoubledNode.negative var
    let graph := { graph with
      numVars := graph.numVars + 1
      termToVar := update graph.termToVar term (some var) }
    let graph := (graph.addNode pos).addNode neg
    ((graph.addEdge .source pos 0 none).addEdge .source neg 0 none, var)

def translate (c : UtConstraint) (weight : BigDeltaRational) :
    List (DoubledNode × DoubledNode × BigDeltaRational) :=
  let double := BigDeltaRational.mk (weight.real * 2) (weight.delta * 2)
  match c.a, c.b with
  | .positive, .negative =>
    [(.positive c.y, .positive c.x, weight), (.negative c.x, .negative c.y, weight)]
  | .negative, .positive =>
    [(.positive c.x, .positive c.y, weight), (.negative c.y, .negative c.x, weight)]
  | .positive, .positive =>
    [(.negative c.y, .positive c.x, weight), (.negative c.x, .positive c.y, weight)]
  | .negative, .negative =>
    [(.positive c.y, .negative c.x, weight), (.positive c.x, .negative c.y, weight)]
  | .positive, .zero => [(.negative c.x, .positive c.x, double)]
  | .negative, .zero => [(.positive c.x, .negative c.x, double)]
  | .zero, .positive => [(.negative c.y, .positive c.y, double)]
  | .zero, .negative => [(.positive c.y, .negative c.y, double)]
  -- a constant inequality is a loop at the source
  | .zero, .zero => [(.source, .source, weight)]

def addConstraint (c : UtConstraint) : DoubledGraph × ℕ :=
  let idx := graph.constraints.length
  let weight := c.effectiveBound graph.isInteger
  let graph := (translate c weight).foldl
    (fun graph (src, dst, w) => graph.addEdge src dst w (some idx)) graph
  let active := graph.activeByLevel ++
    List.replicate (graph.currentLevel + 1 - graph.activeByLevel.length) []
  ({ graph with
      activeByLevel := active.modify graph.currentLevel (· ++ [idx])
      constraints := graph.constraints ++ [c] }, idx)

def allNodes : List DoubledNode :=
  (List.range graph.numVars).map .positive ++ (List.range graph.numVars).map .negative

def allEdges (order : List DoubledNode) : List UtEdge := order.flatMap graph.edges

def push : DoubledGraph :=
  { graph with
    currentLevel := graph.currentLevel + 1
    activeByLevel := graph.activeByLevel ++
      List.replicate (graph.currentLevel + 2 - graph.activeByLevel.length) [] }

def pop (levels : ℕ) : DoubledGraph :=
  if levels = 0 then graph
  else
    let targetLevel := graph.currentLevel - levels
    let dropped := (graph.activeByLevel.take (graph.currentLevel + 1)).drop (targetLevel + 1)
    { graph with
      edges := fun v => dropped.flatten.foldl
        (fun edges idx => edges.filter (·.constraintIdx ≠ some idx)) (graph.edges v)
      activeByLevel := graph.activeByLevel.take (targetLevel + 1)
      currentLevel := targetLevel }

end DoubledGraph

inductive UtvpiResult
  | ok
  | conflict (constraints : List ℕ)
  | unknown
  deriving DecidableEq

abbrev Distances := DoubledNode → BigDeltaRational

structure UtvpiSolver where
  useSpfa : Bool := true
  graph : DoubledGraph
  distances : Distances := fun _ => 0
  model : List ℚ := []
  distancesValid : Bool := false

def relaxEdge (d : Distances × Bool) (edge : UtEdge) : Distances × Bool :=
  let next := d.1 edge.src + edge.weight
  if next < d.1 edge.dst then (update d.1 edge.dst next, true) else d

def bellmanFordPasses (edges : List UtEdge) : ℕ → Distances → Distances × Bool
  | 0, d => (d, true)
  | passes + 1, d =>
    let (d, changed) := edges.foldl relaxEdge (d, false)
    if !changed then (d, true)
    else if passes = 0 then (d, false)
    else bellmanFordPasses edges passes d

structure Spfa where
  distances : Distances
  queue : List DoubledNode
  queued : DoubledNode → Bool
  counts : DoubledNode → ℕ

namespace Spfa

def relaxEdges (n : ℕ) (src : DoubledNode) : List UtEdge → Spfa → Spfa × Bool
  | [], spfa => (spfa, false)
  | edge :: edges, spfa =>
    let next := spfa.distances src + edge.weight
    if next < spfa.distances edge.dst then
      let spfa := { spfa with distances := update spfa.distances edge.dst next }
      if !spfa.queued edge.dst then
        let counts := update spfa.counts edge.dst (spfa.counts edge.dst + 1)
        if n < counts edge.dst then ({ spfa with counts := counts }, true)
        else
          relaxEdges n src edges { spfa with
            counts := counts
            queued := update spfa.queued edge.dst true
            queue := spfa.queue ++ [edge.dst] }
      else relaxEdges n src edges spfa
    else relaxEdges n src edges spfa

def search (graph : DoubledGraph) (n : ℕ) : ℕ → Spfa → Spfa × Bool
  | 0, spfa => (spfa, false)
  | fuel + 1, spfa =>
    match spfa.queue with
    | [] => (spfa, false)
    | node :: queue =>
      let spfa := { spfa with
        queue := queue
        queued := update spfa.queued node false }
      match relaxEdges n node (graph.edges node) spfa with
      | (spfa, true) => (spfa, true)
      | (spfa, false) => search graph n fuel spfa

end Spfa

def visitEdge (d : Distances) (node : DoubledNode)
    (st : List DoubledNode × (DoubledNode → Bool)) (edge : UtEdge) :
    List DoubledNode × (DoubledNode → Bool) :=
  if !st.2 edge.dst && d edge.dst = d node + edge.weight then
    (edge.dst :: st.1, update st.2 edge.dst true)
  else st

def tightWalk (graph : DoubledGraph) (d : Distances) :
    ℕ → List DoubledNode → (DoubledNode → Bool) → DoubledNode → Bool
  | 0, _, seen => seen
  | _ + 1, [], seen => seen
  | fuel + 1, node :: todo, seen =>
    let (todo, seen) := (graph.edges node).foldl (visitEdge d node) (todo, seen)
    tightWalk graph d fuel todo seen

def tightSuccessors (graph : DoubledGraph) (d : Distances) (start : DoubledNode) :
    DoubledNode → Bool :=
  tightWalk graph d (2 * graph.numVars + 2) [start] fun v => v = start

def isOdd (d : Distances) (v : ℕ) : Bool :=
  (((d (.positive v)).real - (d (.negative v)).real) / 2).den ≠ 1

def decrement (closure : DoubledNode → Bool) (d : Distances) : Distances :=
  fun v => if closure v then .mk ((d v).real - 1) (d v).delta else d v

def parityClosure (graph : DoubledGraph) (d : Distances) (v : ℕ) : Option (DoubledNode → Bool) :=
  let closure := tightSuccessors graph d (.positive v)
  if closure (.negative v) then
    let closure := tightSuccessors graph d (.negative v)
    if closure (.positive v) then none else some closure
  else some closure

def parityRounds (graph : DoubledGraph) : ℕ → Distances → Distances × UtvpiResult
  | 0, d => (d, .unknown)
  | budget + 1, d =>
    match (List.range graph.numVars).find? (isOdd d) with
    | none => (d, .ok)
    | some v =>
      match parityClosure graph d v with
      | none => (d, .conflict [])
      | some closure => parityRounds graph budget (decrement closure d)

def enforceParity (graph : DoubledGraph) (d : Distances) : Distances × UtvpiResult :=
  parityRounds graph ((graph.numVars + 1) * (graph.numVars + 1) * 16) d

def edgeSlack (d : Distances) (edge : UtEdge) : BigDeltaRational :=
  .mk ((d edge.dst).real - (d edge.src).real - edge.weight.real)
    ((d edge.dst).delta - (d edge.src).delta - edge.weight.delta)

def chooseEpsilon (d : Distances) : List UtEdge → ℚ → Option ℚ
  | [], epsilon => some epsilon
  | edge :: edges, epsilon =>
    let real := (edgeSlack d edge).real
    let delta := (edgeSlack d edge).delta
    if 0 < real ∨ (real = 0 ∧ 0 < delta) then none
    else if 0 < delta then chooseEpsilon d edges (min epsilon (-real / (2 * delta)))
    else chooseEpsilon d edges epsilon

def modelValue (d : Distances) (epsilon : ℚ) (v : ℕ) : ℚ :=
  let pos := d (.positive v)
  let neg := d (.negative v)
  (pos.real - neg.real + (pos.delta - neg.delta) * epsilon) / 2

def Sign.value (sign : Sign) (model : List ℚ) (var : ℕ) : ℚ :=
  match sign with
  | .zero => 0
  | .positive => model.getD var 0
  | .negative => -model.getD var 0

def UtConstraint.evaluates (c : UtConstraint) (model : List ℚ) : Bool :=
  let lhs := c.a.value model c.x + c.b.value model c.y
  if c.strict then lhs < c.bound else lhs ≤ c.bound

namespace UtvpiSolver

def withConfig (isInteger useSpfa : Bool) : UtvpiSolver :=
  { useSpfa := useSpfa, graph := { isInteger := isInteger } }

variable (solver : UtvpiSolver)

def getOrCreateVar (term : ℕ) : UtvpiSolver × ℕ :=
  let (graph, var) := solver.graph.getOrCreateVar term
  ({ solver with graph := graph, distancesValid := false }, var)

def addConstraint (c : UtConstraint) : UtvpiSolver × ℕ :=
  let (graph, idx) := solver.graph.addConstraint c
  ({ solver with graph := graph, distancesValid := false }, idx)

def runBellmanFord (order : List DoubledNode) : UtvpiSolver × Bool :=
  let n := 2 * solver.graph.numVars + 1
  let (d, consistent) := bellmanFordPasses (solver.graph.allEdges order) n fun _ => 0
  ({ solver with distances := d }, consistent)

def runSpfa (order : List DoubledNode) : UtvpiSolver × Bool :=
  let n := 2 * solver.graph.numVars + 1
  let start : Spfa :=
    { distances := fun _ => 0
      queue := solver.graph.allNodes ++ [.source]
      queued := fun _ => true
      counts := fun _ => 1 }
  match Spfa.search solver.graph n (n * n + 1) start with
  | (_, true) => solver.runBellmanFord order
  | (spfa, false) => ({ solver with distances := spfa.distances }, true)

def conflict : UtvpiResult := .conflict (solver.graph.activeConstraints.map Prod.fst)

def buildModel (order : List DoubledNode) : UtvpiSolver × Bool :=
  match chooseEpsilon solver.distances (solver.graph.allEdges order) (1 / 4) with
  | none => (solver, false)
  | some epsilon =>
    let model := (List.range solver.graph.numVars).map (modelValue solver.distances epsilon)
    let solver := { solver with model := model }
    if solver.graph.isInteger && model.any (·.den ≠ 1) then (solver, false)
    else (solver, solver.graph.activeConstraints.all fun p => p.2.evaluates model)

def unknownVar : Bool :=
  solver.graph.activeConstraints.any fun (_, c) =>
    (c.a ≠ .zero && solver.graph.numVars ≤ c.x) || (c.b ≠ .zero && solver.graph.numVars ≤ c.y)

def finish (order : List DoubledNode) : UtvpiSolver × UtvpiResult :=
  match solver.buildModel order with
  | (solver, false) => ({ solver with model := [] }, .unknown)
  | (solver, true) => ({ solver with distancesValid := true }, .ok)

def check (order : List DoubledNode) : UtvpiSolver × UtvpiResult :=
  let solver := { solver with distancesValid := false, model := [] }
  if solver.unknownVar then (solver, .unknown)
  else
    let (solver, consistent) :=
      if solver.useSpfa then solver.runSpfa order else solver.runBellmanFord order
    if !consistent then (solver, solver.conflict)
    else if solver.graph.isInteger then
      match enforceParity solver.graph solver.distances with
      | (d, .ok) => finish { solver with distances := d } order
      | (d, .conflict _) => ({ solver with distances := d }, solver.conflict)
      | (d, .unknown) => ({ solver with distances := d }, .unknown)
    else solver.finish order

def push : UtvpiSolver := { solver with distancesValid := false, graph := solver.graph.push }

def pop (levels : ℕ) : UtvpiSolver :=
  if 0 < levels then { solver with distancesValid := false, graph := solver.graph.pop levels }
  else solver

def getValueExact (var : ℕ) : Option ℚ :=
  if solver.distancesValid then solver.model[var]? else none

end UtvpiSolver

end Nixie.Utvpi
