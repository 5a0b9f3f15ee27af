import Nixie.Euf.UnionFind
import Nixie.Euf.Signatures
import Nixie.Euf.Disequalities
import Nixie.Euf.ClassValues
import Mathlib.Data.List.Sort

/-!
The e-graph: interning of terms, congruence closure and scopes. The arrays that run parallel to
the nodes are functions that are empty from the number of nodes on.
-/

namespace Nixie.Euf

open Undo

structure FunctionProperties where
  associative : Bool := false
  commutative : Bool := false
  hasIdentity : Bool := false

structure ENode where
  func : ℕ
  args : List ℕ
  term : ℕ

namespace ENode

def noFunc : ℕ := 2 ^ 32 - 1

def leaf (term : ℕ) : ENode := ⟨noFunc, [], term⟩

def isApp (node : ENode) : Bool := node.func ≠ noFunc

end ENode

inductive MergeReason
  | assertion (reason : ℕ)
  | congruence (term1 term2 : ℕ)

structure MergeEdge where
  other : ℕ
  reason : MergeReason
  stamp : ℕ

structure ContextState where
  numNodes : ℕ
  numDiseqs : ℕ
  sigTrailLimit : ℕ
  proofTrailLimit : ℕ
  useListTrailLimit : ℕ
  diseqWatchTrailLimit : ℕ
  diseqPairTrailLimit : ℕ
  valueSummaryTrailLimit : ℕ
  pendingDiseqConflict : Option ℕ
  pendingValueConflict : Option (ℕ × ℕ)

structure EufSolver where
  uf : UnionFind := {}
  nodes : List ENode := []
  termToNode : ℕ → Option ℕ := fun _ => none
  diseqs : Disequalities := {}
  pending : List (ℕ × ℕ × MergeReason) := []
  useList : TrailedLists ℕ := {}
  sigs : Signatures := {}
  values : ClassValues := {}
  valueConsts : ℕ → Option ℕ := fun _ => none
  contextStack : List ContextState := []
  proofForest : TrailedLists MergeEdge := {}
  functionProperties : ℕ → Option FunctionProperties := fun _ => none
  explCache : List ((ℕ × ℕ) × List ℕ) := []
  proofStamp : ℕ := 0

def findAll : List ℕ → UnionFind → UnionFind × List ℕ
  | [], uf => (uf, [])
  | a :: args, uf =>
    let found := uf.find a
    let rest := findAll args found.1
    (rest.1, found.2 :: rest.2)

def canonicalizeArgs (props : FunctionProperties) (args : List ℕ) (uf : UnionFind) :
    UnionFind × List ℕ :=
  let found := findAll args uf
  (found.1, if props.commutative then found.2.insertionSort (· ≤ ·) else found.2)

def nextMerge : List (ℕ × ℕ × MergeReason) → UnionFind →
    UnionFind × Option ((ℕ × ℕ × MergeReason) × List (ℕ × ℕ × MergeReason))
  | [], uf => (uf, none)
  | (a, b, reason) :: pending, uf =>
    let same := uf.same a b
    if same.2 then nextMerge pending same.1 else (same.1, some ((a, b, reason), pending))

structure Scan where
  uf : UnionFind
  sigs : Signatures
  buf : List (ℕ × ℕ × MergeReason) := []

namespace EufSolver

section

variable (s : EufSolver)

def inScope : Bool := !s.contextStack.isEmpty

def registerFunction (func : ℕ) (props : FunctionProperties) : EufSolver :=
  { s with functionProperties := Function.update s.functionProperties func (some props) }

def getFunctionProps (func : ℕ) : FunctionProperties :=
  (s.functionProperties func).getD {}

def flattenArgs (func : ℕ) (args : List ℕ) : List ℕ :=
  if (s.getFunctionProps func).associative then
    args.flatMap fun arg =>
      match s.nodes[arg]? with
      | some node => if node.isApp ∧ node.func = func then node.args else [arg]
      | none => [arg]
  else args

def addProofEdge (node : ℕ) (edge : MergeEdge) : EufSolver :=
  { s with proofForest := s.proofForest.push s.inScope node edge }

def addProofEdges (a b : ℕ) (reason : MergeReason) : EufSolver :=
  let stamp := s.proofStamp
  let s := { s with proofStamp := min (s.proofStamp + 1) (2 ^ 32 - 1) }
  (s.addProofEdge a ⟨b, reason, stamp⟩).addProofEdge b ⟨a, reason, stamp⟩

def useListPush (node entry : ℕ) : EufSolver :=
  { s with useList := s.useList.push s.inScope node entry }

def scanUse (user : ℕ) (scan : Scan) : Scan :=
  match s.nodes[user]? with
  | none => scan
  | some node =>
    if node.isApp then
      let canon := canonicalizeArgs (s.getFunctionProps node.func) node.args scan.uf
      let scan := { scan with uf := canon.1 }
      let sig := (node.func, canon.2)
      let newFp := fingerprint sig
      match if scan.sigs.fingerprintTable newFp ≠ [] then scan.sigs.sigTable sig else none with
      | some existing =>
        if existing = user then scan
        else
          let same := scan.uf.same user existing
          { scan with
            uf := same.1
            buf := if same.2 then scan.buf
              else (user, existing, .congruence user existing) :: scan.buf }
      | none =>
        { scan with
          sigs := (scan.sigs.updateSigEntry s.inScope user sig).pushFingerprint s.inScope newFp
            user }
    else scan

end

def scanUses (s : EufSolver) : List ℕ → Scan → Scan
  | [], scan => scan
  | user :: users, scan => s.scanUses users (s.scanUse user scan)

def migrateUses (newRoot : ℕ) : List ℕ → EufSolver → EufSolver
  | [], s => s
  | entry :: users, s => migrateUses newRoot users (s.useListPush newRoot entry)

def unite (s : EufSolver) (a b : ℕ) (reason : MergeReason) (rootA rootB newRoot otherRoot : ℕ) :
    EufSolver :=
  let s := { s.addProofEdges a b reason with explCache := [] }
  { s with
    uf := ((s.uf.union rootA rootB).find rootA).1
    values := s.values.mergeClasses s.inScope rootA rootB newRoot
    diseqs := s.diseqs.mergeClasses s.inScope rootA rootB newRoot otherRoot }

def updateUsers (s : EufSolver) (newRoot otherRoot : ℕ) : EufSolver :=
  let users := s.useList.lists otherRoot
  let scan := s.scanUses users { uf := s.uf, sigs := s.sigs }
  migrateUses newRoot users
    { s with uf := scan.uf, sigs := scan.sigs, pending := scan.buf ++ s.pending }

def applyMerge (s : EufSolver) (a b : ℕ) (reason : MergeReason) : EufSolver :=
  let rootA := s.uf.findNoCompress a
  let rootB := s.uf.findNoCompress b
  let newRoot := ((s.uf.union rootA rootB).find rootA).2
  let otherRoot := if newRoot = rootA then rootB else rootA
  (s.unite a b reason rootA rootB newRoot otherRoot).updateUsers newRoot otherRoot

def propagateLoop : ℕ → EufSolver → EufSolver
  | 0, s => s
  | fuel + 1, s =>
    match nextMerge s.pending s.uf with
    | (uf, none) => { s with uf := uf, pending := [] }
    | (uf, some ((a, b, reason), pending)) =>
      propagateLoop fuel (applyMerge { s with uf := uf, pending := pending } a b reason)

def propagate (s : EufSolver) : EufSolver := propagateLoop s.nodes.length s

def mergeCongruent (s : EufSolver) (node other : ℕ) : EufSolver :=
  propagate { s with
    explCache := []
    pending := (node, other, .congruence node other) :: s.pending }

def addNode (s : EufSolver) (node : ENode) (key : Option Signature) (value : Option ℕ) : EufSolver :=
  let idx := s.nodes.length
  { s with
    nodes := s.nodes ++ [node]
    uf := s.uf.add
    sigs := s.sigs.addNode idx key
    values := s.values.addNode idx value
    termToNode := Function.update s.termToNode node.term (some idx) }

def intern (s : EufSolver) (term : ℕ) : EufSolver × ℕ :=
  match s.termToNode term with
  | some idx => (s, idx)
  | none => (s.addNode (.leaf term) none (s.valueConsts term), s.nodes.length)

def declareValueConst (s : EufSolver) (term value : ℕ) : EufSolver :=
  { s with valueConsts := Function.update s.valueConsts term ((s.valueConsts term).or (some value)) }

def registerUses (idx : ℕ) : List ℕ → EufSolver → EufSolver
  | [], s => s
  | arg :: args, s =>
    let found := s.uf.find arg
    registerUses idx args (useListPush { s with uf := found.1 } found.2 idx)

def internApp (s : EufSolver) (term func : ℕ) (args : List ℕ) : EufSolver × ℕ :=
  match s.termToNode term with
  | some idx => (s, idx)
  | none =>
    let flattened := s.flattenArgs func args
    let canon := canonicalizeArgs (s.getFunctionProps func) flattened s.uf
    let sig := (func, canon.2)
    let looked := s.sigs.lookupValidSig sig
    let s := { s with uf := canon.1, sigs := looked.1 }
    let idx := s.nodes.length
    let s := s.addNode ⟨func, flattened, term⟩ (if looked.2 = none then some sig else none) none
    let s := registerUses idx flattened s
    match looked.2 with
    | some existing => (s.mergeCongruent idx existing, idx)
    | none =>
      ({ s with sigs := s.sigs.insertSignature s.inScope sig idx (fingerprint sig) }, idx)

def merge (s : EufSolver) (a b reason : ℕ) : EufSolver :=
  propagate { s with
    explCache := []
    pending := (a, b, .assertion reason) :: s.pending }

def assertDiseq (s : EufSolver) (a b reason : ℕ) : EufSolver :=
  { s with
    diseqs := s.diseqs.assertDiseq s.inScope a b reason (s.uf.findNoCompress a)
      (s.uf.findNoCompress b) }

def reset (s : EufSolver) : EufSolver := { valueConsts := s.valueConsts }

def find (s : EufSolver) (a : ℕ) : EufSolver × ℕ :=
  let found := s.uf.find a
  ({ s with uf := found.1 }, found.2)

def push (s : EufSolver) : EufSolver :=
  let context : ContextState :=
    { numNodes := s.nodes.length
      numDiseqs := s.diseqs.diseqs.length
      sigTrailLimit := s.sigs.sigTrail.length
      proofTrailLimit := s.proofForest.trail.length
      useListTrailLimit := s.useList.trail.length
      diseqWatchTrailLimit := s.diseqs.diseqWatch.trail.length
      diseqPairTrailLimit := s.diseqs.diseqPairTrail.length
      valueSummaryTrailLimit := s.values.valueSummaryTrail.length
      pendingDiseqConflict := s.diseqs.pendingDiseqConflict
      pendingValueConflict := s.values.pendingValueConflict }
  { s with contextStack := context :: s.contextStack, uf := s.uf.push }

def pop (s : EufSolver) : EufSolver :=
  match s.contextStack with
  | [] => s
  | c :: contextStack =>
    { s with
      contextStack := contextStack
      pending := []
      diseqs := s.diseqs.rewind c.numDiseqs c.numNodes c.diseqWatchTrailLimit
        c.diseqPairTrailLimit c.pendingDiseqConflict
      nodes := s.nodes.take c.numNodes
      uf := s.uf.pop
      useList := s.useList.rewind c.numNodes c.useListTrailLimit
      proofForest := s.proofForest.rewind c.numNodes c.proofTrailLimit
      explCache := []
      values := s.values.rewind c.numNodes c.valueSummaryTrailLimit c.pendingValueConflict
      termToNode := if c.numNodes < s.nodes.length then
          fun term => (s.termToNode term).filter (· < c.numNodes)
        else s.termToNode
      sigs := s.sigs.rewind c.numNodes c.sigTrailLimit }

end EufSolver

end Nixie.Euf
