import Nixie.Rust
import Nixie.Lrat.Tracer
import Nixie.Lrat.Soundness
import Nixie.Lrat.Totality
import Nixie.Propositional
import Nixie.Records
import Nixie.Kitten.State
import Nixie.Kitten.Search
import Nixie.Kitten.Frame
import Nixie.Kitten.Invariant
import Nixie.Kitten.Assignment
import Nixie.Kitten.Learn
import Nixie.Kitten.Propagate
import Nixie.Kitten.Backtrack
import Nixie.Kitten.Analyze
import Nixie.Kitten.Conflict
import Nixie.Kitten.Root
import Nixie.Kitten.Failing
import Nixie.Kitten.Solve
import Nixie.Kitten.Import
import Nixie.Kitten.Reset
import Nixie.Kitten.ClausalCore
import Nixie.Kitten.Session
import Nixie.Kitten.Run
import Nixie.Kitten.ClauseImport
import Nixie.Kitten.Flip
import Nixie.Sat.Solver
import Nixie.Sat.Backtrack
import Nixie.Sat.Counting
import Nixie.Dimacs.Writer
import Nixie.Watch.Agreement
import Nixie.Graph.Relax
import Nixie.DiffLogic.DenseCore
import Nixie.DiffLogic.DenseMatrix
import Nixie.DiffLogic.DenseClosure
import Nixie.DiffLogic.DenseExplain
import Nixie.DiffLogic.DenseUpdate
import Nixie.DiffLogic.DenseSession
import Nixie.DiffLogic.DenseExact
import Nixie.DiffLogic.Incremental
import Nixie.DiffLogic.Strict
import Nixie.DiffLogic.SweepCycle
import Nixie.Utvpi.Verdict
import Nixie.Euf.Apart
import Nixie.Euf.ProofForest
import Nixie.Euf.UnionFindRuns
import Nixie.Euf.Disequal
import Nixie.GraphProof.Exact
import Nixie.Ast.Session
import Nixie.Tseitin.Verdict
import Nixie.Qe.RealElim
import Nixie.Qe.CooperElim
import Nixie.Strings.Automaton
import Nixie.Strings.WordSearch
import Nixie.Math.IntervalEncloses
import Nixie.Math.FastRationalRefines
import Nixie.Cp.LemmaSound
import Nixie.Cp.Matching
import Nixie.Cp.Propagator
import Nixie.Opt.Network
import Nixie.Opt.OllOptimal
import Nixie.Bv.BoolIrCnf
import Nixie.Bv.Rewrite
import Nixie.Bv.Barrett
import Nixie.Bv.WordLevel
import Nixie.Opt.WeightedOptimal
import Nixie.Lia.Equalities
import Nixie.Arithmetic.Gaussian
import Nixie.Arithmetic.PatchColumns
import Nixie.Nla.MonomialEncloses
import Nixie.Xor.Follows
import Nixie.Xor.Undoing
import Nixie.Sat.Level0
import Nixie.Sat.HyperBinary
import Nixie.Sat.Subsumption
import Nixie.Sat.Minimize
import Nixie.PseudoBoolean
import Nixie.Preprocess.Resolution
import Nixie.NormalForms.NnfVerdict
import Nixie.Cp.Consistent
