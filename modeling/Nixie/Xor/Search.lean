import Nixie.Sat.Stored
import Nixie.Xor.Build
import Nixie.Xor.Detect

/-!
The in-search XOR propagation of `nixie-sat/src/solver/xor.rs`: the matrix is built before the search, a step folds the
new literals of the trail, and a backtrack takes folds out again.  A step also hands out the clauses it built.
-/

namespace Nixie.Xor

open Nixie.Sat

def maxXorReasons : ℕ := 100000

structure XorSearch where
  matrix : GF2Matrix
  foldIdx : List ℕ := []
  watermark : ℕ := 0
  reasons : ℕ := 0
  disabled : Bool := false

structure SearchState where
  solver : Solver := {}
  xorSearch : Option XorSearch := none
  triviallyUnsat : Bool := false
  proof : Bool := false
  lrat : Bool := false
  realTheoryAttached : Bool := false
  assertionLevels : ℕ := 1

structure Built where
  id : ℕ
  lits : List ℕ
  implied : Option ℕ
  deriving DecidableEq

def literal (var : ℕ) (value : Bool) : ℕ := 2 * var + if value then 0 else 1

def reasonLits (folded : List (ℕ × Bool)) : List ℕ := folded.map fun vb => literal vb.1 !vb.2

namespace SearchState

def forceLevel0 (fuel : ℕ) (s : SearchState) (lit : ℕ) : Option SearchState :=
  if s.solver.trail.litVal lit = 1 then some s
  else if s.solver.trail.litVal lit = -1 then some { s with triviallyUnsat := true }
  else do
    let (solver, conflict) ← Solver.propagate fuel { s.solver with trail := s.solver.trail.assignDecision lit }
    return { s with solver := solver, triviallyUnsat := s.triviallyUnsat || conflict.isSome }

def addConstraints : List XorConstraint → GF2Matrix → List ℕ → Option (Option (GF2Matrix × List ℕ))
  | [], m, pending => some (some (m, pending))
  | c :: cs, m, pending =>
    match m.addConstraint c.vars c.rhs with
    | none => none
    | some (m, .unit var value _) => addConstraints cs m (pending ++ [literal var value])
    | some (_, .conflict _) => some none
    | some (m, _) => addConstraints cs m pending

def forcePending (fuel : ℕ) : List ℕ → SearchState → ℕ → Option (SearchState × ℕ × Bool)
  | [], s, forced => some (s, forced, true)
  | lit :: pending, s, forced =>
    if s.solver.trail.litVal lit = 0 then do
      let s ← s.forceLevel0 fuel lit
      if s.triviallyUnsat then return (s, forced + 1, false) else forcePending fuel pending s (forced + 1)
    else forcePending fuel pending s forced

def gated (s : SearchState) : Bool :=
  decide (s.solver.trail.currentLevel ≠ 0) || s.proof || s.lrat || s.realTheoryAttached ||
    decide (1 < s.assertionLevels) || s.triviallyUnsat

def xorSearchInit (fuel : ℕ) (constraints : List XorConstraint) (s : SearchState) : Option (SearchState × ℕ) :=
  if s.gated then some (s, 0)
  else if constraints = [] then some (s, 0)
  else do
    match ← addConstraints constraints {} [] with
    | none => return (s, constraints.length)
    | some (matrix, pending) =>
      let (s, forced, on) ← forcePending fuel pending.reverse s 0
      if on then return ({ s with xorSearch := some { matrix := matrix } }, forced)
      else return (s, constraints.length)

structure Derivation where
  var : ℕ
  value : Bool
  folded : List (ℕ × Bool)

def addBuilt (s : Solver) (x : XorSearch) (lits : List ℕ) : Solver × XorSearch × ℕ :=
  let (s, id) := s.addClauseToDb { lits := lits }
  (s, { x with reasons := x.reasons + 1 }, id)

def scanResults : List XorAddResult → Solver → XorSearch → List Derivation →
    Solver × XorSearch × List Derivation × Option Built
  | [], s, x, units => (s, x, units, none)
  | .unit var value folded :: results, s, x, units => scanResults results s x (units ++ [⟨var, value, folded⟩])
  | .conflict folded :: results, s, x, units =>
    if reasonLits folded = [] then scanResults results s x units
    else
      let (s, x, id) := addBuilt s x (reasonLits folded)
      (s, x, units, some ⟨id, reasonLits folded, none⟩)
  | _ :: results, s, x, units => scanResults results s x units

def foldDelta : ℕ → List ℕ → Solver → XorSearch → List Derivation → Solver × XorSearch × List Derivation × Option Built
  | _, [], s, x, units => (s, x, units, none)
  | pos, lit :: lits, s, x, units =>
    let (matrix, results) := x.matrix.propagate (lit / 2) (lit % 2 == 0)
    let x := { x with matrix := matrix, foldIdx := x.foldIdx ++ [pos], watermark := pos + 1 }
    match scanResults results s x units with
    | (s, x, units, some b) => (s, x, units, some b)
    | (s, x, units, none) => foldDelta (pos + 1) lits s x units

structure Applied where
  solver : Solver
  xorSearch : XorSearch
  propagatedAny : Bool
  built : List Built
  conflict : Option ℕ

def applyUnits : List Derivation → Solver → XorSearch → Bool → List Built → Applied
  | [], s, x, any, built => ⟨s, x, any, built, none⟩
  | d :: ds, s, x, any, built =>
    if x.disabled then ⟨s, x, any, built, none⟩
    else
      let lit := literal d.var d.value
      let lits := reasonLits d.folded ++ [lit]
      if s.trail.litVal lit = 1 then applyUnits ds s x any built
      else if s.trail.litVal lit = -1 then
        let (s, x, id) := addBuilt s x lits
        ⟨s, x, any, built ++ [⟨id, lits, none⟩], some id⟩
      else if maxXorReasons ≤ x.reasons then ⟨s, { x with disabled := true }, any, built, none⟩
      else
        let (s, x, id) := addBuilt s x lits
        applyUnits ds { s with trail := s.trail.assignPropagation lit id } x true (built ++ [⟨id, lits, some lit⟩])

def conclude (s : SearchState) (solver : Solver) (x : XorSearch) : SearchState :=
  { s with
    solver := solver
    xorSearch := some x
    triviallyUnsat := s.triviallyUnsat || decide (solver.trail.currentLevel = 0) }

def xorSearchLoop (bcpFuel : ℕ) : ℕ → SearchState → XorSearch → List Built →
    Option (SearchState × Option ℕ × List Built)
  | 0, _, _, _ => none
  | fuel + 1, s, x, built =>
    let assignments := s.solver.trail.assignments
    let watermark := min x.watermark assignments.length
    if watermark = assignments.length then some ({ s with xorSearch := some x }, none, built)
    else
      match foldDelta watermark (assignments.drop watermark) s.solver x [] with
      | (solver, x, _, some b) => some (s.conclude solver x, some b.id, built ++ [b])
      | (solver, x, units, none) =>
        let applied := applyUnits units solver x false []
        match applied.conflict with
        | some id => some (s.conclude applied.solver applied.xorSearch, some id, built ++ applied.built)
        | none =>
          if applied.propagatedAny then
            match Solver.propagate bcpFuel applied.solver with
            | none => none
            | some (solver, some id) => some (s.conclude solver applied.xorSearch, some id, built ++ applied.built)
            | some (solver, none) =>
              xorSearchLoop bcpFuel fuel { s with solver := solver } applied.xorSearch (built ++ applied.built)
          else
            some ({ s with solver := applied.solver, xorSearch := some applied.xorSearch }, none, built ++
              applied.built)

def xorSearchStep (bcpFuel fuel : ℕ) (s : SearchState) : Option (SearchState × Option ℕ × List Built) :=
  match s.xorSearch with
  | none => some (s, none, [])
  | some x => if x.disabled then some (s, none, []) else xorSearchLoop bcpFuel fuel s x []

def popFolds (length : ℕ) : List ℕ → GF2Matrix → List ℕ × GF2Matrix
  | [], m => ([], m)
  | i :: idxs, m => if length ≤ i then popFolds length idxs m.undoPropagate else (i :: idxs, m)

def xorSearchRollback (s : SearchState) : SearchState :=
  match s.xorSearch with
  | none => s
  | some x =>
    let length := s.solver.trail.assignments.length
    let (idxs, matrix) := popFolds length x.foldIdx.reverse x.matrix
    { s with
      xorSearch := some { x with matrix := matrix, foldIdx := idxs.reverse, watermark := min x.watermark length } }

def backtrack (s : SearchState) (level : ℕ) : SearchState :=
  { s with solver := s.solver.backtrackTo level }.xorSearchRollback

/-- The states of a search: literals are assigned, the clause store changes, steps and backtracks are taken. -/
inductive Reaches (F : List (List ℕ)) (allowed : SearchState → ℕ → Prop) (s : SearchState) : SearchState → Prop
  | refl : Reaches F allowed s s
  | assign {t} (lit level : ℕ) (reason : Reason) : Reaches F allowed s t → t.solver.trail.litVal lit = 0 →
      level ≤ t.solver.trail.currentLevel →
      Reaches F allowed s { t with solver := { t.solver with trail := t.solver.trail.assignAt lit reason level } }
  | newDecisionLevel {t} : Reaches F allowed s t →
      Reaches F allowed s { t with solver := { t.solver with trail := t.solver.trail.newDecisionLevel } }
  | store {t solver head} (triviallyUnsat : Bool) : Reaches F allowed s t →
      head ≤ t.solver.trail.assignments.length → solver.trail = { t.solver.trail with propHead := head } →
      solver.Stored F → Reaches F allowed s { t with solver := solver, triviallyUnsat := triviallyUnsat }
  | propagate {t solver conflict} (fuel : ℕ) : Reaches F allowed s t →
      Solver.propagate fuel t.solver = some (solver, conflict) → Reaches F allowed s { t with solver := solver }
  | xorStep {t t' conflict built} (bcpFuel fuel : ℕ) : Reaches F allowed s t →
      t.xorSearchStep bcpFuel fuel = some (t', conflict, built) → Reaches F allowed s t'
  | backtrack {t} (level : ℕ) : Reaches F allowed s t → allowed t level →
      Reaches F allowed s (t.backtrack level)

end SearchState

end Nixie.Xor
