import Mathlib.Data.List.Dedup
import Nixie.Ast.Simplify

/-!
Simplification under a context of known literals, `ctx_simplify` of
`nixie-core/src/ast/manager/query/simplify.rs`.  A context is an association list with one entry for
an atom; the extensions of a context are undone where the source unwinds them.
-/

namespace Nixie.Ast

namespace Term

def subterms (t : Term) : List Term := t :: t.children.attach.flatMap fun a => a.1.subterms
termination_by sizeOf t
decreasing_by exact sizeOf_child a.2

def subtreeDagSize (t : Term) : ℕ := t.subterms.dedup.length

def termDepth (t : Term) : ℕ :=
  match t with
  | .true | .false | .intConst _ | .realConst _ | .bitVecConst _ _ | .stringLit _ | .var _ _ => 0
  | t => 1 + (t.children.attach.map fun a => a.1.termDepth).foldr max 0
termination_by sizeOf t
decreasing_by exact sizeOf_child a.2

end Term

def ctxFuelBudget : ℕ := 200000

def ctxGrowthLimit : ℕ := 4

def ctxWalkRecursionLimit : ℕ := 1024

def ctxWalkDepthLimit : ℕ := 512

def maxMemoAtomSet : ℕ := 1024

def subtreeBoolAtoms (root t : Term) : Option (List Term) :=
  if t ∈ root.subterms then
    let atoms := (t.subterms.filter fun a => a.sort = .bool).dedup
    if maxMemoAtomSet < atoms.length then none else some atoms
  else none

abbrev Context : Type := List (Term × Bool)

def Context.insert (ctx : Context) (atom : Term) (pol : Bool) : Context :=
  (atom, pol) :: ctx.filter fun entry => entry.1 ≠ atom

def atomPolarity : Term → Option (Term × Bool)
  | .not inner => some (inner, false)
  | t => if t.sort = .bool then some (t, true) else none

def ctxValue (ctx : Context) : Term → Option Bool
  | .true => some true
  | .false => some false
  | t =>
    (atomPolarity t).bind fun lit => (ctx.lookup lit.1).map fun known => if lit.2 then known else !known

def ctxEntry (ctx : Context) : Term → Context
  | .true | .false => []
  | t => ctx.filter fun entry => (atomPolarity t).map Prod.fst = some entry.1

section

variable {H : Type} [DecidableEq H]

/-- The state of a walk.  Not in the source: the entries that a stored result rests on, and whether
a result was used again where one of them was missing. -/
structure CtxState (H : Type) where
  fuel : ℕ
  eqs : EqCache
  memo : Term × H → Option (Term × Context)
  stale : Bool

structure Walked (H α : Type) where
  out : α
  rests : Context
  state : CtxState H

abbrev Walk (H : Type) : Type := CtxState H → Context → Term → ℕ → Walked H Term

def Walked.add {α β : Type} (w : Walked H α) (w' : Walked H β) : Walked H β :=
  { w' with rests := w.rests ++ w'.rests }

def Walked.map {α β : Type} (f : α → β) (w : Walked H α) : Walked H β := ⟨f w.out, w.rests, w.state⟩

def assuming {α : Type} (lit : Option (Term × Bool)) (run : Context → Walked H α) (ctx : Context) :
    Walked H α :=
  match lit with
  | none => run ctx
  | some (atom, pol) =>
    let w := run (ctx.insert atom pol)
    { w with rests := w.rests.filter fun entry => entry ≠ (atom, pol) }

variable (m : Manager) (walk : Walk H)

def wrappingPred (depth : ℕ) : ℕ := if depth = 0 then 2 ^ 32 - 1 else depth - 1

def ctxConjuncts (depth : ℕ) : List Term → CtxState H → Context → Walked H (Option (List Term))
  | [], s, _ => ⟨some [], [], s⟩
  | a :: args, s, ctx =>
    match ctxValue ctx a with
    | some false => ⟨none, ctxEntry ctx a, s⟩
    | some true =>
      let w := ctxConjuncts depth args s ctx
      { w with rests := ctxEntry ctx a ++ w.rests }
    | none =>
      let w := walk s ctx a (wrappingPred depth)
      if w.out = .false then w.map fun _ => none
      else if w.out = .true then w.add (ctxConjuncts depth args w.state ctx)
      else
        w.add ((assuming (atomPolarity w.out) (ctxConjuncts depth args w.state) ctx).map
          (Option.map (w.out :: ·)))

def ctxAnd (s : CtxState H) (ctx : Context) (args : List Term) (depth : ℕ) : Walked H Term :=
  (ctxConjuncts walk depth args s ctx).map fun
    | none => .false
    | some simplified => absorbLiterals simplified true

def ctxDisjuncts (depth : ℕ) : List Term → CtxState H → Context → Walked H (List Term)
  | [], s, _ => ⟨[], [], s⟩
  | a :: args, s, ctx =>
    if ctxValue ctx a = some false then
      let w := ctxDisjuncts depth args s ctx
      { w with rests := ctxEntry ctx a ++ w.rests }
    else
      let w := walk s ctx a depth
      w.add ((ctxDisjuncts depth args w.state ctx).map (w.out :: ·))

def ctxConnect (s : CtxState H) (ctx : Context) (cs as bs : Term) (depth : ℕ) : Walked H Term :=
  if as.sort = .bool ∧ bs.sort = .bool then
    if as = .true ∧ bs = .false then ⟨cs, [], s⟩
    else if as = .false ∧ bs = .true then ⟨mkNot cs, [], s⟩
    else if as = .true then ⟨mkOr [cs, bs], [], s⟩
    else if bs = .true then ⟨mkOr [mkNot cs, as], [], s⟩
    else if as = .false then ctxAnd walk s ctx [mkNot cs, bs] depth
    else if bs = .false then ctxAnd walk s ctx [cs, as] depth
    else ⟨mkIte cs as bs, [], s⟩
  else ⟨mkIte cs as bs, [], s⟩

def flipped (lit : Option (Term × Bool)) : Option (Term × Bool) := lit.map fun lit => (lit.1, !lit.2)

def ctxIte (s : CtxState H) (ctx : Context) (c a b : Term) (depth : ℕ) : Walked H Term :=
  let wc := walk s ctx c depth
  if wc.out = .true then wc.add (walk wc.state ctx a depth)
  else if wc.out = .false then wc.add (walk wc.state ctx b depth)
  else
    let lit := atomPolarity wc.out
    let wa := assuming lit (walk wc.state · a depth) ctx
    let wb := assuming (flipped lit) (walk wa.state · b depth) ctx
    wc.add (wa.add (wb.add (ctxConnect walk wb.state ctx wc.out wa.out wb.out depth)))

def ctxEq (s : CtxState H) (ctx : Context) (l r : Term) (depth : ℕ) : Walked H Term :=
  let (solved, eqs) := m.eqIteRules s.eqs l r
  let s := { s with eqs := eqs }
  match solved with
  | some solved => walk s ctx solved depth
  | none =>
    let wl := walk s ctx l depth
    let wr := walk wl.state ctx r depth
    wl.add (wr.map (m.mkEq wl.out))

def ctxWalkInner : Walk H := fun s ctx t depth =>
  if s.fuel = 0 then ⟨t, [], s⟩
  else
    let s := { s with fuel := s.fuel - 1 }
    match ctxValue ctx t with
    | some v => ⟨mkBool v, ctxEntry ctx t, s⟩
    | none =>
      match t with
      | .not inner => (walk s ctx inner (depth - 1)).map mkNot
      | .and args => ctxAnd walk s ctx args (depth - 1)
      | .or args => (ctxDisjuncts walk (depth - 1) args s ctx).map (absorbLiterals · Bool.false)
      | .ite c a b _ => ctxIte walk s ctx c a b (depth - 1)
      | .eq l r => ctxEq m walk s ctx l r (depth - 1)
      | t => ⟨t, [], s⟩

variable (hash : Context → H) (root : Term)

def ctxSignature (ctx : Context) (t : Term) : Option H :=
  (subtreeBoolAtoms root t).map fun atoms =>
    hash ((ctx.filter fun entry => entry.1 ∈ atoms).mergeSort fun x y => m.id x.1 ≤ m.id y.1)

def CtxState.insert (s : CtxState H) (key : Term × H) (r : Term × Context) : CtxState H :=
  { s with memo := Function.update s.memo key (some r) }

def memoized (inner : Walk H) : Walk H := fun s ctx t depth =>
  if depth = 0 then ⟨t, [], s⟩
  else
    match ctxSignature m hash root ctx t with
    | none => inner s ctx t depth
    | some sig =>
      match s.memo (t, sig) with
      | some (r, rests) => ⟨r, rests, { s with stale := s.stale || !decide (rests ⊆ ctx) }⟩
      | none =>
        let w := inner s ctx t depth
        { w with state := w.state.insert (t, sig) (w.out, w.rests) }

/-- The walk with calls nested as deep as there is fuel: the fuel is never more than `calls`. -/
def ctxWalk : ℕ → Walk H
  | 0 => memoized m hash root fun s _ t _ => ⟨t, [], s⟩
  | calls + 1 => memoized m hash root (ctxWalkInner m (ctxWalk calls))

end

section

variable {H : Type} [DecidableEq H] (m : Manager) (hash : Context → H)

def ctxRun (eqs : EqCache) (root : Term) : Walked H Term :=
  ctxWalk m hash root ctxFuelBudget ⟨ctxFuelBudget, eqs, fun _ => none, false⟩ [] root
    ctxWalkRecursionLimit

def Manager.ctxSimplify (eqs : EqCache) (root : Term) : Term × EqCache :=
  if ctxWalkDepthLimit < root.termDepth then (root, eqs)
  else
    let w := ctxRun m hash eqs root
    if root.subtreeDagSize * ctxGrowthLimit < w.out.subtreeDagSize then (root, w.state.eqs)
    else (w.out, w.state.eqs)

end

end Nixie.Ast
