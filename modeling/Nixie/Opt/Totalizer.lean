import Nixie.Sat.Counting

/-!
The lazily encoded totalizer, `nixie-opt/src/totalizer.rs`.  The nodes are a tree here and a flat vector
with indices there; a node belongs to one parent.
-/

namespace Nixie.Opt

open Literal Nixie.Sat

inductive TotalizerNode
  | empty
  | leaf (lit : ℕ)
  | internal (outputs : List (Option ℕ)) (left right : TotalizerNode)
  deriving DecidableEq

namespace TotalizerNode

def size : TotalizerNode → ℕ
  | empty => 0
  | leaf _ => 1
  | internal _ left right => left.size + right.size

def outputs : TotalizerNode → List (Option ℕ)
  | empty => []
  | leaf lit => [some lit]
  | internal outputs _ _ => outputs

/-- The literal for at least `k` of the inputs, for a positive `k` that is encoded. -/
def output (node : TotalizerNode) (k : ℕ) : Option ℕ :=
  (node.outputs[k - 1]?).join

def join (left right : TotalizerNode) : TotalizerNode :=
  internal (List.replicate (left.size + right.size) none) left right

def pairUp : List TotalizerNode → List TotalizerNode
  | left :: right :: rest => join left right :: pairUp rest
  | level => level

/-- A level for each unit of fuel: a level is at most as long as its number of inputs. -/
def buildLevels : ℕ → List TotalizerNode → TotalizerNode
  | _, [] => empty
  | _, [node] => node
  | 0, _ => empty
  | fuel + 1, level => buildLevels fuel (pairUp level)

end TotalizerNode

structure Emitted where
  nextVar : ℕ
  clauses : List (List ℕ)
  deriving DecidableEq

def condition (node : TotalizerNode) (j : ℕ) : List ℕ :=
  ((if j = 0 then none else node.output j).map neg).toList

/-- The clause for `j1` on the left and `j2` on the right, none without a condition. -/
def combine (left right : TotalizerNode) (out j1 j2 : ℕ) : List (List ℕ) :=
  if left.size < j1 ∨ right.size < j2 then []
  else
    let clause := condition left j1 ++ condition right j2
    if clause.isEmpty then [] else [clause ++ [out]]

def combinations (left right : TotalizerNode) (out i : ℕ) : List (List ℕ) :=
  (List.range (i + 1)).flatMap fun j1 => combine left right out j1 (i - j1)

/-- The outputs of one node for the sums in turn; one encoded before is left alone. -/
def outputLoop (left right : TotalizerNode) : List ℕ → List (Option ℕ) → Emitted →
    List (Option ℕ) × Emitted
  | [], outputs, e => (outputs, e)
  | i :: rest, outputs, e =>
    if ((outputs[i - 1]?).join).isSome then outputLoop left right rest outputs e
    else
      let out := posLit e.nextVar
      outputLoop left right rest (outputs.set (i - 1) (some out))
        ⟨e.nextVar + 1, e.clauses ++ combinations left right out i⟩

def encodeNode : TotalizerNode → ℕ → Emitted → TotalizerNode × Emitted
  | .internal outputs left right, k, e =>
    let (left, e) := encodeNode left k e
    let (right, e) := encodeNode right k e
    let (outputs, e) := outputLoop left right (List.range' 1 (min k (left.size + right.size))) outputs e
    (.internal outputs left right, e)
  | node, _, e => (node, e)

structure Totalizer where
  root : TotalizerNode
  emitted : Emitted
  encodedBound : ℕ
  deriving DecidableEq

namespace Totalizer

def new (inputs : List ℕ) (nextVar : ℕ) : Totalizer :=
  ⟨TotalizerNode.buildLevels inputs.length (inputs.map .leaf), ⟨nextVar, []⟩, 0⟩

def size (t : Totalizer) : ℕ := t.root.size

def nextVar (t : Totalizer) : ℕ := t.emitted.nextVar

def ensureBound (t : Totalizer) (k : ℕ) : Totalizer × Option ℕ :=
  if k = 0 then (t, none)
  else if t.size < k then (t, none)
  else
    let t :=
      if t.encodedBound < k then
        let (root, emitted) := encodeNode t.root k t.emitted
        ⟨root, emitted, k⟩
      else t
    (t, t.root.output k)

def atLeast (t : Totalizer) (k : ℕ) : Option ℕ :=
  if k = 0 then none
  else if t.size < k then none
  else t.root.output k

def atMost (t : Totalizer) (k : ℕ) : Option ℕ :=
  if t.size ≤ k then none else (t.atLeast (k + 1)).map neg

def takeClauses (t : Totalizer) : Totalizer × List (List ℕ) :=
  ({ t with emitted := { t.emitted with clauses := [] } }, t.emitted.clauses)

end Totalizer

structure IncrementalTotalizer where
  totalizer : Totalizer
  currentBound : ℕ
  boundAssumption : Option ℕ
  deriving DecidableEq

namespace IncrementalTotalizer

def new (inputs : List ℕ) (nextVar : ℕ) : IncrementalTotalizer :=
  ⟨Totalizer.new inputs nextVar, inputs.length, none⟩

def setBound (t : IncrementalTotalizer) (k : ℕ) : IncrementalTotalizer × Option ℕ × List (List ℕ) :=
  let (totalizer, assumption) :=
    if k < t.totalizer.size then
      let totalizer := (t.totalizer.ensureBound (k + 1)).1
      (totalizer, totalizer.atMost k)
    else (t.totalizer, none)
  let (totalizer, clauses) := totalizer.takeClauses
  (⟨totalizer, k, assumption⟩, assumption, clauses)

def weaken (t : IncrementalTotalizer) : IncrementalTotalizer × Option ℕ × List (List ℕ) :=
  t.setBound (t.currentBound + 1)

end IncrementalTotalizer

end Nixie.Opt
