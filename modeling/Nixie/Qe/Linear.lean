import Nixie.Ast.SimplifyValue

/-!
Linear forms in the variable to eliminate, which the eliminators of `nixie-core/src/qe/arith` share:
`lra.rs` has them over the rationals, `cooper.rs` over the integers.
-/

namespace Nixie.Qe

open Ast

inductive Rel
  | lt
  | le
  | gt
  | ge
  | eq
  | ne
  deriving DecidableEq

namespace Rel

def negate : Rel → Rel
  | .lt => .ge
  | .le => .gt
  | .gt => .le
  | .ge => .lt
  | .eq => .ne
  | .ne => .eq

def flip : Rel → Rel
  | .lt => .gt
  | .le => .ge
  | .gt => .lt
  | .ge => .le
  | .eq => .eq
  | .ne => .ne

def ofOp : CmpOp → Rel
  | .lt => .lt
  | .le => .le
  | .gt => .gt
  | .ge => .ge

end Rel

def emitCmp (m : Manager) (lhs rhs : Term) : Rel → Term
  | .lt => mkLt lhs rhs
  | .le => mkLe lhs rhs
  | .gt => mkGt lhs rhs
  | .ge => mkGe lhs rhs
  | .eq => m.mkEq lhs rhs
  | .ne => mkNot (m.mkEq lhs rhs)

def okOr {α : Type} (message : String) : Option α → Except String α
  | some a => .ok a
  | none => .error message

def isVar (x : String) : Term → Bool
  | .var name _ => name == x
  | _ => false

def mentionsVar (x : String) (t : Term) : Bool :=
  isVar x t || t.children.attach.any fun a => mentionsVar x a.1
termination_by sizeOf t
decreasing_by exact Term.sizeOf_child a.2

def findVarSort (x : String) (t : Term) : Option SortId :=
  if isVar x t then some t.sort else t.children.attach.findSome? fun a => findVarSort x a.1
termination_by sizeOf t
decreasing_by exact Term.sizeOf_child a.2

section

structure LinForm (R : Type) where
  xCoeff : R
  others : List (Term × R)
  constant : R

def addEntry {R : Type} [Add R] : List (Term × R) → Term × R → List (Term × R)
  | [], e => [e]
  | (t, c) :: es, e => if t = e.1 then (t, c + e.2) :: es else (t, c) :: addEntry es e

namespace LinForm

variable {R : Type} [CommRing R] [DecidableEq R]

def zero : LinForm R := ⟨0, [], 0⟩

def constantVal (c : R) : LinForm R := ⟨0, [], c⟩

def x : LinForm R := ⟨1, [], 0⟩

def atom (t : Term) : LinForm R := ⟨0, [(t, 1)], 0⟩

def isConstant (f : LinForm R) : Bool := f.xCoeff = 0 ∧ ∀ e ∈ f.others, e.2 = 0

def neg (f : LinForm R) : LinForm R := ⟨-f.xCoeff, f.others.map fun e => (e.1, -e.2), -f.constant⟩

def add (f g : LinForm R) : LinForm R :=
  ⟨f.xCoeff + g.xCoeff, g.others.foldl addEntry f.others, f.constant + g.constant⟩

def sub (f g : LinForm R) : LinForm R := f.add g.neg

def scale (f : LinForm R) (k : R) : LinForm R :=
  ⟨f.xCoeff * k, f.others.map fun e => (e.1, e.2 * k), f.constant * k⟩

def product (constProd : R) (nonconst : Option (LinForm R)) : List (LinForm R) → Option (LinForm R)
  | [] =>
    match nonconst with
    | some f => some (f.scale constProd)
    | none => some (constantVal constProd)
  | f :: fs =>
    if f.isConstant then product (constProd * f.constant) nonconst fs
    else
      match nonconst with
      | none => product constProd (some f) fs
      | some _ => none

end LinForm

/-- What the two parsers of linear terms differ in: the numerals, and whether a quotient by a constant
is looked into. -/
structure Reader (R : Type) where
  numeral : Term → Option R
  recip : Option (R → R)

variable {R : Type} [CommRing R] [DecidableEq R] (r : Reader R) (x : String)

def Reader.leaf (t : Term) : Option (LinForm R) :=
  match r.numeral t with
  | some c => some (.constantVal c)
  | none => if mentionsVar x t then none else some (.atom t)

mutual

def Reader.toLinear : Term → Option (LinForm R)
  | .var name s => if name = x then some .x else some (.atom (.var name s))
  | .neg a _ => (Reader.toLinear a).map .neg
  | .add args _ => (Reader.toLinears args).map (List.foldl .add .zero)
  | .sub a b _ => do
    let f ← Reader.toLinear a
    let g ← Reader.toLinear b
    some (f.sub g)
  | .mul args _ => do
    let fs ← Reader.toLinears args
    LinForm.product 1 none fs
  | .div a b s =>
    match r.recip with
    | some recip => do
      let g ← Reader.toLinear b
      if !g.isConstant || g.constant = 0 then none
      else
        let f ← Reader.toLinear a
        some (f.scale (recip g.constant))
    | none => r.leaf x (.div a b s)
  | t => r.leaf x t

def Reader.toLinears : List Term → Option (List (LinForm R))
  | [] => some []
  | a :: as => do
    let f ← Reader.toLinear a
    let fs ← Reader.toLinears as
    some (f :: fs)

end

/-- The summands that a form without `x` is written with, in the order of interning. -/
def entries (m : Manager) (others : List (Term × R)) : List (Term × R) :=
  (others.filter fun e => e.2 ≠ 0).mergeSort fun e e' => m.id e.1 ≤ m.id e'.1

def sumParts : List Term → Term
  | [part] => part
  | parts => mkAdd parts

end

end Nixie.Qe
