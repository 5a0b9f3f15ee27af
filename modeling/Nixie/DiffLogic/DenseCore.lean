import Nixie.Rust

/-!
The dense difference-logic core: the flat matrix of distances and supporting edges, its
incremental closure, the propagation of watched atoms, and scopes.
-/

namespace Nixie.DiffLogic

open Nixie.Rust

def noEdge : ℕ := 2 ^ 32 - 1

def selfEdge : ℕ := 2 ^ 32 - 2

def dlInf : ℤ := (2 ^ 63 - 1) / 4

def dlMaxAbsWeight : ℤ := 2 ^ 40

def dlMaxNodes : ℕ := 2048

/-- The constraint `dst - src ≤ offset`, justified by the atom `key` being assigned `pol`. -/
structure DlEdge where
  src : ℕ
  dst : ℕ
  offset : ℤ
  key : ℕ
  pol : Bool
  deriving DecidableEq

structure DlAtomEntry where
  key : ℕ
  s : ℕ
  t : ℕ
  k : ℤ
  isEq : Bool
  deriving DecidableEq

structure DlPropagation where
  key : ℕ
  pol : Bool
  reason : List (ℕ × Bool)
  deriving DecidableEq

inductive DlAssert
  | ok
  | conflict (reason : List (ℕ × Bool))
  deriving DecidableEq

structure TrailedCell where
  row : ℕ
  col : ℕ
  edge : ℕ
  dist : ℤ
  deriving DecidableEq

/-- The stacks `cellTrail` and `scopes` have their top first. The last two fields are not in the
source: they record that an `i64` operation on distances left its range, and that an explanation
was given up. -/
structure DenseDlCore where
  n : ℕ := 0
  cap : ℕ := 0
  dist : List ℤ := []
  edgeOf : List ℕ := []
  edges : List DlEdge := []
  atoms : List DlAtomEntry := []
  keyToAtom : ℕ → Option ℕ := fun _ => none
  occs : ℕ → ℕ → List ℕ := fun _ _ => []
  cellTrail : List TrailedCell := []
  scopes : List (ℕ × ℕ) := []
  pending : List DlPropagation := []
  overflow : Bool := false
  truncated : Bool := false

namespace DenseDlCore

variable (core : DenseDlCore)

def cell (s t : ℕ) : ℕ := s * core.cap + t

def distOf (s t : ℕ) : ℤ := core.dist.getD (core.cell s t) dlInf

def edgeAt (s t : ℕ) : ℕ := core.edgeOf.getD (core.cell s t) noEdge

def writeCell (s t : ℕ) (d : ℤ) (e : ℕ) : DenseDlCore :=
  { core with
    dist := core.dist.set (core.cell s t) d
    edgeOf := core.edgeOf.set (core.cell s t) e }

def distance (s t : ℕ) : Option ℤ :=
  let d := core.distOf s t
  if d ≠ dlInf ∧ core.edgeAt s t ≠ noEdge then some d else none

variable {α : Type*}

/-- `copy_from_slice` of `len` words at `j` of the old vector to `i` of the new one. -/
def copySlice (new old : List α) (i j len : ℕ) : List α :=
  new.take i ++ (old.drop j).take len ++ new.drop (i + len)

def copyRows (fill : α) (old : List α) (n cap newCap : ℕ) : List α :=
  (List.range n).foldl (fun new r => copySlice new old (r * newCap) (r * cap) n)
    (List.replicate (n * newCap) fill)

def relayout : DenseDlCore :=
  let newCap := if core.cap = 0 then 4 else core.cap * 2
  { core with
    dist := copyRows dlInf core.dist core.n core.cap newCap
    edgeOf := copyRows noEdge core.edgeOf core.n core.cap newCap
    cap := newCap }

def resize (l : List α) (len : ℕ) (v : α) : List α :=
  l.take len ++ List.replicate (len - l.length) v

def reserve : DenseDlCore :=
  let needed := (core.n + 1) * core.cap
  if core.dist.length < needed then
    { core with dist := resize core.dist needed dlInf, edgeOf := resize core.edgeOf needed noEdge }
  else core

def internNode : DenseDlCore × ℕ :=
  let core := if core.n = core.cap then core.relayout else core
  let core := core.reserve
  let idx := core.n
  let core := { core with n := idx + 1 }
  let core := (List.range (idx + 1)).foldl (fun core c => core.writeCell idx c dlInf noEdge) core
  let core := (List.range idx).foldl (fun core r => core.writeCell r idx dlInf noEdge) core
  (core.writeCell idx idx 0 selfEdge, idx)

def watch (occs : ℕ → ℕ → List ℕ) (id a b : ℕ) : ℕ → ℕ → List ℕ :=
  fun y x => if y = a ∧ x = b then occs y x ++ [id] else occs y x

def internAtom (key s t : ℕ) (k : ℤ) (isEq : Bool) : DenseDlCore :=
  if (core.keyToAtom key).isSome then core
  else
    let id := core.atoms.length
    let occs := watch core.occs id s t
    { core with
      atoms := core.atoms ++ [⟨key, s, t, k, isEq⟩]
      keyToAtom := fun key' => if key' = key then some id else core.keyToAtom key'
      occs := if s ≠ t then watch occs id t s else occs }

def atomOf (key : ℕ) : Option DlAtomEntry := (core.keyToAtom key).bind fun id => core.atoms[id]?

/-- The worklist of `antecedents_scratch`, with the steps taken so far and the emitted
justifications. The flag says that the loop did not end by itself. -/
def antecedentsLoop : ℕ → ℕ → List (ℕ × ℕ) → List (ℕ × Bool) → List (ℕ × Bool) × Bool
  | 0, _, _, scratch => (scratch, true)
  | _ + 1, _, [], scratch => (scratch, false)
  | fuel + 1, steps, (a, b) :: todo, scratch =>
    if a = b then antecedentsLoop fuel steps todo scratch
    else
      let eid := core.edgeAt a b
      if eid = noEdge ∨ eid = selfEdge then antecedentsLoop fuel steps todo scratch
      else
        match core.edges[eid]? with
        | none => (scratch, true)
        | some e =>
          let scratch := scratch ++ [(e.key, e.pol)]
          let todo := if a ≠ e.src then (a, e.src) :: todo else todo
          let todo := if e.dst ≠ b then (e.dst, b) :: todo else todo
          if steps + 1 > core.edges.length * 2 + 8 then (scratch, true)
          else antecedentsLoop fuel (steps + 1) todo scratch

def antecedentsScratch (s t : ℕ) : List (ℕ × Bool) × DenseDlCore :=
  if s ≠ t then
    let (reason, cut) :=
      core.antecedentsLoop (2 * (core.edges.length * 2 + 8) + 4) 0 [(s, t)] []
    (reason, { core with truncated := core.truncated || cut })
  else ([], core)

def pushProp (key : ℕ) (pol : Bool) (reason : List (ℕ × Bool)) : DenseDlCore :=
  if core.pending.any fun p => p.key == key && p.pol == pol then core
  else { core with pending := core.pending ++ [⟨key, pol, reason⟩] }

def note (v : ℤ) : DenseDlCore := { core with overflow := core.overflow || !fitsI64 v }

def propagateWatch (y x : ℕ) (core : DenseDlCore) (wid : ℕ) : DenseDlCore :=
  match core.atoms[wid]? with
  | none => core
  | some a =>
    let d := core.distOf y x
    if a.s = y ∧ a.t = x then
      if d ≤ a.k then
        let (reason, core) := core.antecedentsScratch y x
        if a.isEq then
          let back := core.distOf x y
          if (back ≠ dlInf ∧ core.edgeAt x y ≠ noEdge) ∧ back ≤ wrapI64 (-a.k) then
            let (reverse, core) := core.antecedentsScratch x y
            core.pushProp a.key true (reason ++ reverse)
          else core
        else core.pushProp a.key true reason
      else core
    else if a.isEq then
      let fwd := core.distOf a.s a.t
      if d ≤ wrapI64 (-a.k) ∧ (fwd ≠ dlInf ∧ core.edgeAt a.s a.t ≠ noEdge) ∧ fwd ≤ a.k then
        let (reason, core) := core.antecedentsScratch y x
        let (forward, core) := core.antecedentsScratch a.s a.t
        core.pushProp a.key true (reason ++ forward)
      else core
    else
      let core := core.note (-d)
      if wrapI64 (-d) > a.k then
        let (reason, core) := core.antecedentsScratch y x
        core.pushProp a.key false reason
      else core

def propagateUsingCell (y x : ℕ) : DenseDlCore :=
  (core.occs y x).foldl (propagateWatch y x) core

/-- The sums `k + d(t, x)`, over the nodes other than `s` that are reached from `t`. -/
def sums (e : DlEdge) : List (ℕ × ℤ) :=
  (List.range core.n).filterMap fun x =>
    if x = e.src ∨ core.distOf e.dst x = dlInf then none
    else some (x, e.offset + core.distOf e.dst x)

def fTargets (e : DlEdge) : List (ℕ × ℤ) :=
  (core.sums e).filterMap fun (x, v) =>
    if wrapI64 v < core.distOf e.src x then some (x, wrapI64 v) else none

def relaxCell (id y : ℕ) (dys : ℤ) (core : DenseDlCore) (target : ℕ × ℤ) : DenseDlCore :=
  let (x, via) := target
  if x = y then core
  else
    let core := core.note (dys + via)
    let newDist := wrapI64 (dys + via)
    if newDist < core.distOf y x then
      let old : TrailedCell := ⟨y, x, core.edgeAt y x, core.distOf y x⟩
      let core := { core with cellTrail := old :: core.cellTrail }
      (core.writeCell y x newDist id).propagateUsingCell y x
    else core

def relaxRow (id : ℕ) (e : DlEdge) (targets : List (ℕ × ℤ)) (core : DenseDlCore) (y : ℕ) :
    DenseDlCore :=
  if y = e.dst then core
  else
    let dys := core.distOf y e.src
    if dys = dlInf then core
    else targets.foldl (relaxCell id y dys) core

def updateCells (id : ℕ) : DenseDlCore :=
  match core.edges[id]? with
  | none => core
  | some e =>
    let targets := core.fTargets e
    let core := (core.sums e).foldl (fun core c => core.note c.2) core
    if targets.isEmpty then core
    else (List.range core.n).foldl (relaxRow id e targets) core

def assertEdge (src dst : ℕ) (offset : ℤ) (key : ℕ) (pol : Bool) : DenseDlCore × DlAssert :=
  let inv := core.distOf dst src
  let core := core.note (-inv)
  if (inv ≠ dlInf ∧ core.edgeAt dst src ≠ noEdge) ∧ wrapI64 (-inv) > offset then
    let (reason, core) := core.antecedentsScratch dst src
    (core, .conflict (reason ++ [(key, pol)]))
  else if offset < core.distOf src dst then
    let id := core.edges.length % 2 ^ 32
    let e : DlEdge := ⟨src, dst, offset, key, pol⟩
    (({ core with edges := core.edges ++ [e] }).updateCells id, .ok)
  else (core, .ok)

def takePropagations : DenseDlCore × List DlPropagation :=
  ({ core with pending := [] }, core.pending)

def push : DenseDlCore :=
  { core with scopes := (core.edges.length, core.cellTrail.length) :: core.scopes }

def undo (lim : ℕ) : List TrailedCell → DenseDlCore → DenseDlCore
  | [], core => { core with cellTrail := [] }
  | c :: trail, core =>
    if trail.length + 1 > lim then undo lim trail (core.writeCell c.row c.col c.dist c.edge)
    else { core with cellTrail := c :: trail }

def pop : DenseDlCore :=
  match core.scopes with
  | [] => core
  | (edgesLim, trailLim) :: scopes =>
    let core := undo trailLim core.cellTrail { core with scopes := scopes }
    { core with edges := core.edges.take edgesLim, pending := [] }

end DenseDlCore

end Nixie.DiffLogic
