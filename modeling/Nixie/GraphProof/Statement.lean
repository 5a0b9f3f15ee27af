import Nixie.Digraph

/-!
Graph declarations and their checkers, `nixie-theories/src/graph/proof.rs`.  Edges are selected by a
predicate on the edge where the source passes its index, and the queue of a search starts at its
read cursor.
-/

namespace Nixie.GraphProof

open Nixie.Digraph List

abbrev TermId : Type := ℕ

structure GraphProofError where
  message : String
  deriving DecidableEq

structure Pair where
  tail : UInt32
  head : UInt32
  atom : TermId
  negation : TermId
  deriving DecidableEq

structure GraphStatement where
  /-- The allocation of the edge list, which stands for the declaration. -/
  identity : ℕ
  edges : List Pair
  reach : List Pair
  acyclic : Option (TermId × TermId)
  vertices : ℕ
  falseTerm : TermId
  edges_lt : ∀ e ∈ edges, e.tail.toNat < vertices ∧ e.head.toNat < vertices
  reach_lt : ∀ r ∈ reach, r.tail.toNat < vertices ∧ r.head.toNat < vertices

namespace GraphStatement

def isSame (st other : GraphStatement) : Bool := st.identity == other.identity

section

variable (st : GraphStatement)

def isGraphLiteral (term : TermId) : Bool :=
  (st.reach.any fun r => r.atom == term || r.negation == term) ||
    st.acyclic.any fun a => a.1 == term || a.2 == term

def negationOf (term : TermId) : Option TermId :=
  match st.reach.find? fun r => r.atom == term || r.negation == term with
  | some r => some (if r.atom = term then r.negation else r.atom)
  | none =>
    match st.acyclic with
    | some (atom, negation) =>
      if atom = term then some negation else if negation = term then some atom else none
    | none => none

section

variable (conclusion : TermId)

def reachPairOf : Except GraphProofError Pair :=
  match st.reach.find? fun r => r.atom == conclusion with
  | some r => .ok r
  | none => .error ⟨"conclusion is not a reach atom"⟩

def reachPairOfNegation : Except GraphProofError Pair :=
  match st.reach.find? fun r => r.negation == conclusion with
  | some r => .ok r
  | none => .error ⟨"conclusion is not a reach negation"⟩

def acyclicPairOf : Except GraphProofError (TermId × TermId) :=
  match st.acyclic with
  | none => .error ⟨"no acyclicity atom declared"⟩
  | some pair =>
    if pair.1 = conclusion ∨ pair.2 = conclusion then .ok pair
    else .error ⟨"conclusion is not the acyclicity literal"⟩

inductive PremiseKind
  | edgePresent (i : ℕ)
  | edgeRefuted (i : ℕ)
  | graphLiteral
  | foreign
  deriving DecidableEq

def classifyEdges (term : TermId) : List Pair → ℕ → Option PremiseKind
  | [], _ => none
  | e :: edges, i =>
    if e.atom = term then some (.edgePresent i)
    else if e.negation = term then some (.edgeRefuted i)
    else classifyEdges term edges (i + 1)

def classify (term : TermId) : PremiseKind :=
  match classifyEdges term st.edges 0 with
  | some kind => kind
  | none => if st.isGraphLiteral term then .graphLiteral else .foreign

def arcs (keep : Pair → Bool) : List (ℕ × ℕ) :=
  (st.edges.filter keep).map fun e => (e.tail.toNat, e.head.toNat)

def closureGe1 (source : UInt32) (keep : Pair → Bool) : ℕ → Bool :=
  let succ := successors (st.arcs keep)
  let seeds := (succ source.toNat).filter (· < st.vertices)
  breadth succ (seeds.length + st.vertices) seeds fun v => seeds.contains v

def keptIsAcyclic (keep : Pair → Bool) : Bool :=
  let es := st.arcs keep
  let indegree := fun v => es.countP fun e => e.2 = v
  let queue := (List.range st.vertices).filter fun v => indegree v = 0
  kahn (successors es) st.vertices queue indegree 0 == st.vertices

def keptHasCycle (keep : Pair → Bool) : Bool :=
  let succ := successors (st.arcs keep)
  let vs := List.range st.vertices
  depthFrom succ (whites succ (fun _ => .white) vs) vs fun _ => .white

def checkLiteral (premises : List TermId) : Except GraphProofError Unit :=
  match st.reach.find? fun r => conclusion == r.atom || conclusion == r.negation with
  | some r =>
    let valid :=
      if conclusion = r.atom then
        st.closureGe1 r.tail (fun e => premises.contains e.atom) r.head.toNat
      else !st.closureGe1 r.tail (fun e => !premises.contains e.negation) r.head.toNat
    if valid then .ok () else .error ⟨"reachability lemma is not justified"⟩
  | none =>
    match st.acyclic with
    | some (atom, negation) =>
      if conclusion = atom then
        if st.keptIsAcyclic fun e => !premises.contains e.negation then .ok ()
        else .error ⟨"acyclicity lemma is not justified"⟩
      else if conclusion = negation then
        if st.keptHasCycle fun e => premises.contains e.atom then .ok ()
        else .error ⟨"acyclicity lemma is not justified"⟩
      else .error ⟨"conclusion is not a graph literal of this statement"⟩
    | none => .error ⟨"conclusion is not a graph literal of this statement"⟩

end

def isGraphPremise (p : TermId) : Bool := st.classify p == .graphLiteral

end

/-- A conflict is checked through the opposite of its first graph literal; should that be `false`
again, the rest is a conflict of its own. -/
def checkLemma (st : GraphStatement) (conclusion : TermId) (premises : List TermId) :
    Except GraphProofError Unit :=
  if conclusion = st.falseTerm then
    match h : premises.find? st.isGraphPremise with
    | none => .error ⟨"graph conflict premise cites no graph literal"⟩
    | some literal =>
      match st.negationOf literal with
      | none => .error ⟨"conflict literal has no graph negation"⟩
      | some opposite => checkLemma st opposite (premises.eraseP st.isGraphPremise)
  else st.checkLiteral conclusion premises
termination_by premises.length
decreasing_by
  obtain ⟨hp, hmem⟩ := And.intro (find?_some h) (mem_of_find?_eq_some h)
  have := length_eraseP_of_mem hmem hp
  have := length_pos_of_mem hmem
  omega

def reachAgrees (st : GraphStatement) (value : TermId → Option Bool) (keep : Pair → Bool) (r : Pair) :
    Except GraphProofError Unit :=
  match value r.atom with
  | none => .error ⟨"reach atom has no model value"⟩
  | some expected =>
    if st.closureGe1 r.tail keep r.head.toNat ≠ expected then
      .error ⟨"reach atom disagrees with the closure oracle"⟩
    else .ok ()

def acyclicAgrees (st : GraphStatement) (value : TermId → Option Bool) (keep : Pair → Bool) :
    Except GraphProofError Unit :=
  match st.acyclic with
  | none => .ok ()
  | some (atom, _) =>
    match value atom with
    | none => .error ⟨"acyclic atom has no model value"⟩
    | some expected =>
      if st.keptIsAcyclic keep ≠ expected then .error ⟨"acyclic atom disagrees with the cycle oracle"⟩
      else .ok ()

def checkModel (st : GraphStatement) (value : TermId → Option Bool) : Except GraphProofError Unit := do
  if st.edges.any fun e => (value e.atom).isNone then throw ⟨"edge atom has no model value"⟩
  let keep := fun e : Pair => (value e.atom).getD false
  for r in st.reach do
    st.reachAgrees value keep r
  st.acyclicAgrees value keep

end GraphStatement

inductive GraphRule
  | path (tail head : UInt32) (edges : List UInt32)
  | cut (tail head : UInt32) (closed : List UInt64)
  | cycle (edges : List UInt32)
  | topoOrder (order : List UInt32)
  | noCycleThrough (v : UInt32) (closed : List UInt64)

structure GraphCertificate where
  statement : GraphStatement
  rule : GraphRule

def bitGet (bits : List UInt64) (v : UInt32) : Bool :=
  (bits[v.toNat / 64]?).any fun word => (word >>> UInt64.ofNat (v.toNat % 64)) &&& 1 == 1

namespace GraphCertificate

def walk (edges : List Pair) (premises : List TermId) (broken absent : GraphProofError) :
    UInt32 → List UInt32 → Except GraphProofError UInt32
  | «at», [] => .ok «at»
  | «at», i :: walked =>
    match edges[i.toNat]? with
    | none => .error ⟨"witness cites an unknown edge"⟩
    | some e =>
      if e.tail ≠ «at» then .error broken
      else if ¬ premises.contains e.atom then .error absent
      else walk edges premises broken absent e.head walked

section

variable (st : GraphStatement) (conclusion : TermId)

def checkPath (premises : List TermId) (tail head : UInt32) (walked : List UInt32) :
    Except GraphProofError Unit := do
  let r ← st.reachPairOf conclusion
  if tail ≠ r.tail ∨ head ≠ r.head ∨ walked.isEmpty then throw ⟨"path witness endpoints mismatch"⟩
  let last ← walk st.edges premises ⟨"path witness walk is broken"⟩
    ⟨"path witness edge is not a positive premise"⟩ tail walked
  if last ≠ head then throw ⟨"path witness does not arrive"⟩

def checkCut (premises : List TermId) (tail head : UInt32) (bits : List UInt64) : Except GraphProofError Unit := do
  let r ← st.reachPairOfNegation conclusion
  if tail ≠ r.tail ∨ head ≠ r.head then throw ⟨"cut witness endpoints mismatch"⟩
  if bits.length ≠ (st.vertices + 63) / 64 then throw ⟨"cut witness bitmap is mis-sized"⟩
  if !bitGet bits tail || bitGet bits head then throw ⟨"cut witness set does not separate the pair"⟩
  if st.edges.any fun e => bitGet bits e.tail && !bitGet bits e.head && !premises.contains e.negation then
    throw ⟨"cut witness set is crossed by an unrefuted edge"⟩

def checkCycle (premises : List TermId) (walked : List UInt32) : Except GraphProofError Unit := do
  let pair ← st.acyclicPairOf conclusion
  match walked with
  | [] => throw ⟨"cycle witness must conclude the acyclicity negation"⟩
  | first :: _ =>
    if conclusion ≠ pair.2 then throw ⟨"cycle witness must conclude the acyclicity negation"⟩
    match st.edges[first.toNat]? with
    | none => throw ⟨"witness cites an unknown edge"⟩
    | some e =>
      let last ← walk st.edges premises ⟨"cycle witness is broken"⟩ ⟨"cycle witness is broken"⟩ e.tail walked
      if last ≠ e.tail then throw ⟨"cycle witness does not close"⟩

def checkNoCycleThrough (premises : List TermId) (v : UInt32) (bits : List UInt64) :
    Except GraphProofError Unit := do
  let r ← st.reachPairOfNegation conclusion
  if v ≠ r.tail ∨ r.tail ≠ r.head then throw ⟨"no-cycle witness must conclude a self-pair negation"⟩
  if bits.length ≠ (st.vertices + 63) / 64 then throw ⟨"no-cycle witness bitmap is mis-sized"⟩
  if bitGet bits v then throw ⟨"no-cycle witness set contains the vertex"⟩
  if st.edges.any fun e =>
      (bitGet bits e.tail || e.tail == v) && !bitGet bits e.head && !premises.contains e.negation then
    throw ⟨"no-cycle witness is left by an unrefuted edge"⟩

def distinctVertices (vertices : ℕ) : List UInt32 → (ℕ → Bool) → Bool
  | [], _ => true
  | v :: order, seen =>
    if vertices ≤ v.toNat ∨ seen v.toNat then false
    else distinctVertices vertices order (Function.update seen v.toNat true)

def ranks : List UInt32 → ℕ → (ℕ → UInt32) → ℕ → UInt32
  | [], _, rank => rank
  | v :: order, r, rank => ranks order (r + 1) (Function.update rank v.toNat (UInt32.ofNat r))

def checkTopoOrder (premises : List TermId) (order : List UInt32) : Except GraphProofError Unit := do
  let pair ← st.acyclicPairOf conclusion
  if conclusion ≠ pair.1 then throw ⟨"topological witness must conclude acyclicity"⟩
  if order.length ≠ st.vertices ∨ ¬ distinctVertices st.vertices order (fun _ => false) then
    throw ⟨"topological witness is not a vertex permutation"⟩
  let rank := ranks order 0 fun _ => 0
  if st.edges.any fun e =>
      !premises.contains e.negation && decide (rank e.head.toNat ≤ rank e.tail.toNat) then
    throw ⟨"a non-refuted edge descends the topological order"⟩

def goal (premises : List TermId) : Except GraphProofError (TermId × List TermId) :=
  if conclusion = st.falseTerm then
    match (premises.find? st.isGraphLiteral).bind st.negationOf with
    | none => .error ⟨"conflict premise cites no graph literal"⟩
    | some opposite => .ok (opposite, premises.eraseP st.isGraphLiteral)
  else .ok (conclusion, premises)

end

def check (cert : GraphCertificate) (original : GraphStatement) (conclusion : TermId)
    (premises : List TermId) : Except GraphProofError Unit := do
  let st := cert.statement
  if !st.isSame original then throw ⟨"certificate references a different graph"⟩
  let (conclusion, premises) ← goal st conclusion premises
  match cert.rule with
  | .path tail head walked => checkPath st conclusion premises tail head walked
  | .cut tail head closed => checkCut st conclusion premises tail head closed
  | .cycle walked => checkCycle st conclusion premises walked
  | .noCycleThrough v closed => checkNoCycleThrough st conclusion premises v closed
  | .topoOrder order => checkTopoOrder st conclusion premises order

end GraphCertificate

end Nixie.GraphProof
