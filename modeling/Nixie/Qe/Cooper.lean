import Nixie.Qe.Linear

/-!
Cooper's elimination for linear integer arithmetic, `nixie-core/src/qe/arith/cooper.rs`.  The shared
graphs the source builds with reference counts are trees here, and its walks with a stack and a memo
are recursions that meet the errors in the same order.
-/

namespace Nixie.Qe.Cooper

open Ast

def reader : Reader ℤ := ⟨intConstOf, none⟩

def toLinear (x : String) (t : Term) : Option (LinForm ℤ) := reader.toLinear x t

def mkPart (e : Term × ℤ) : Term := if e.2 = 1 then e.1 else mkMul [mkInt e.2, e.1]

def mkLinearTerm (m : Manager) (others : List (Term × ℤ)) (constant : ℤ) : Term :=
  let parts := (entries m others).map mkPart
  sumParts (if constant ≠ 0 ∨ parts = [] then parts ++ [mkInt constant] else parts)

section

inductive Raw
  | and (subs : List Raw)
  | or (subs : List Raw)
  | const (b : Bool)
  | free (t : Term)
  | cmp (form : LinForm ℤ) (rel : Rel)
  | divis (modulus : ℤ) (form : LinForm ℤ) (negated : Bool)

def trySide : Term → Term → Option (ℤ × Term)
  | .mod inner (.intConst d) _, .intConst z =>
    if d ≤ 0 then none else if z = 0 then some (d, inner) else none
  | _, _ => none

def matchModZero (a b : Term) : Option (ℤ × Term) := (trySide a b).orElse fun _ => trySide b a

def literal (t : Term) (positive : Bool) : Term := if positive then t else mkNot t

variable (m : Manager) (x : String)

def classifySides (lhs rhs : Term) (rel0 : Rel) (positive : Bool) : Except String Raw := do
  let l ← okOr "cooper: non-linear comparison operand" (toLinear x lhs)
  let r ← okOr "cooper: non-linear comparison operand" (toLinear x rhs)
  let form := l.sub r
  let rel := if positive then rel0 else rel0.negate
  if form.xCoeff = 0 then .ok (.free (emitCmp m (mkLinearTerm m form.others form.constant) (mkInt 0) rel))
  else .ok (.cmp form rel)

def classifyDivis (atom : Term) (modulus : ℤ) (inner : Term) (positive : Bool) : Except String Raw := do
  let form ← okOr "cooper: non-linear divisibility argument" (toLinear x inner)
  if form.xCoeff = 0 then .ok (.free (literal atom positive)) else .ok (.divis modulus form !positive)

def classifyCmp (atom lhs rhs : Term) (rel0 : Rel) (positive : Bool) : Except String Raw :=
  if !mentionsVar x atom then .ok (.free (literal atom positive))
  else
    match (if rel0 = .eq then matchModZero lhs rhs else none) with
    | some (modulus, inner) => classifyDivis x atom modulus inner positive
    | none => classifySides m x lhs rhs rel0 positive

mutual

def buildRaw : Term → Bool → Except String Raw
  | .true, pos => .ok (.const pos)
  | .false, pos => .ok (.const !pos)
  | .not a, pos => buildRaw a !pos
  | .and args, pos => do
    let subs ← buildAll args pos
    .ok (if pos then .and subs else .or subs)
  | .or args, pos => do
    let subs ← buildAll args pos
    .ok (if pos then .or subs else .and subs)
  | .implies a b, pos => do
    let b' ← buildRaw b pos
    let a' ← buildRaw a !pos
    .ok (if pos then .or [a', b'] else .and [a', b'])
  | .xor a b, pos => do
    let bf ← buildRaw b false
    let bt ← buildRaw b true
    let af ← buildRaw a false
    let at' ← buildRaw a true
    .ok (if pos then .or [.and [at', bf], .and [af, bt]] else .or [.and [at', bt], .and [af, bf]])
  | .ite c t e _, pos => do
    let e' ← buildRaw e pos
    let t' ← buildRaw t pos
    let cf ← buildRaw c false
    let ct ← buildRaw c true
    .ok (.or [.and [ct, t'], .and [cf, e']])
  | .cmp op a b, pos => classifyCmp m x (.cmp op a b) a b (.ofOp op) pos
  | .eq a b, pos => classifyCmp m x (.eq a b) a b .eq pos
  | t, pos =>
    if mentionsVar x t then .error "cooper: unsupported term mentioning the eliminated variable"
    else .ok (.free (literal t pos))

def buildAll : List Term → Bool → Except String (List Raw)
  | [], _ => .ok []
  | a :: as, pos => do
    let subs ← buildAll as pos
    let sub ← buildRaw a pos
    .ok (sub :: subs)

end

mutual

def collectXCoeffLcm : Raw → ℤ → ℤ
  | .and subs, acc | .or subs, acc => collectAllCoeffs subs acc
  | .cmp form _, acc | .divis _ form _, acc => if form.xCoeff = 0 then acc else Int.lcm acc |form.xCoeff|
  | .const _, acc | .free _, acc => acc

def collectAllCoeffs : List Raw → ℤ → ℤ
  | [], acc => acc
  | raw :: raws, acc => collectXCoeffLcm raw (collectAllCoeffs raws acc)

end

end

section

inductive NLit
  | lower (bound : Term)
  | upper (bound : Term)
  | div (modulus : ℤ) (off : Term)
  | notDiv (modulus : ℤ) (off : Term)
  | free (t : Term)
  | const (b : Bool)

inductive Node
  | and (subs : List Node)
  | or (subs : List Node)
  | lit (l : NLit)

def shift (t : Term) (k : ℤ) : Term := if k = 0 then t else mkAdd [t, mkInt k]

def boundNode (base : Term) : Rel → Node
  | .lt => .lit (.upper base)
  | .le => .lit (.upper (shift base 1))
  | .gt => .lit (.lower base)
  | .ge => .lit (.lower (shift base (-1)))
  | .eq => .and [.lit (.lower (shift base (-1))), .lit (.upper (shift base 1))]
  | .ne => .or [.lit (.upper base), .lit (.lower base)]

variable (m : Manager) (lcmCoeff : ℤ)

def scaledRest (form : LinForm ℤ) : Term :=
  let scaled := form.scale (lcmCoeff / |form.xCoeff|)
  mkLinearTerm m scaled.others scaled.constant

def convertCmp (form : LinForm ℤ) (rel : Rel) : Node :=
  let rest := scaledRest m lcmCoeff form
  if form.xCoeff < 0 then boundNode rest rel.flip else boundNode (mkNeg rest) rel

def convertDivis (modulus : ℤ) (form : LinForm ℤ) (negated : Bool) : Node :=
  let rest := scaledRest m lcmCoeff form
  let newModulus := modulus * (lcmCoeff / |form.xCoeff|)
  let off := if form.xCoeff < 0 then mkNeg rest else rest
  .lit (if negated then .notDiv newModulus off else .div newModulus off)

mutual

def convert : Raw → Node
  | .and subs => .and (convertAll subs)
  | .or subs => .or (convertAll subs)
  | .const b => .lit (.const b)
  | .free t => .lit (.free t)
  | .cmp form rel => convertCmp m lcmCoeff form rel
  | .divis modulus form negated => convertDivis m lcmCoeff modulus form negated

def convertAll : List Raw → List Node
  | [] => []
  | raw :: raws => convert raw :: convertAll raws

end

mutual

def collectModuliLcm : Node → ℤ → ℤ
  | .and subs, acc | .or subs, acc => collectAllModuli subs acc
  | .lit (.div modulus _), acc | .lit (.notDiv modulus _), acc => Int.lcm acc modulus
  | .lit _, acc => acc

def collectAllModuli : List Node → ℤ → ℤ
  | [], acc => acc
  | node :: nodes, acc => collectModuliLcm node (collectAllModuli nodes acc)

end

mutual

/-- The lower bounds, each once; the stack of the source takes the operands from the right. -/
def collectLowerBounds : Node → List Term → List Term
  | .and subs, out | .or subs, out => collectAllLowerBounds subs out
  | .lit (.lower b), out => if b ∈ out then out else out ++ [b]
  | .lit _, out => out

def collectAllLowerBounds : List Node → List Term → List Term
  | [], out => out
  | node :: nodes, out => collectLowerBounds node (collectAllLowerBounds nodes out)

end

inductive XVal
  | minusInf (j : ℤ)
  | at (v : Term)

def materializeDiv (modulus : ℤ) (off : Term) (xval : XVal) (negated : Bool) : Term :=
  let xTerm :=
    match xval with
    | .minusInf j => mkInt j
    | .at v => v
  let eq := m.mkEq (mkMod (mkAdd [xTerm, off]) (mkInt modulus)) (mkInt 0)
  if negated then mkNot eq else eq

def materializeLit : NLit → XVal → Term
  | .lower _, .minusInf _ => .false
  | .lower b, .at v => mkLt b v
  | .upper _, .minusInf _ => .true
  | .upper a, .at v => mkLt v a
  | .div modulus off, xval => materializeDiv m modulus off xval false
  | .notDiv modulus off, xval => materializeDiv m modulus off xval true
  | .free t, _ => t
  | .const b, _ => mkBool b

mutual

def materialize : Node → XVal → Term
  | .and subs, xval => mkAnd (materializeAll subs xval)
  | .or subs, xval => mkOr (materializeAll subs xval)
  | .lit l, xval => materializeLit m l xval

def materializeAll : List Node → XVal → List Term
  | [], _ => []
  | node :: nodes, xval => materialize node xval :: materializeAll nodes xval

end

end

def maxDelta : ℤ := 100000

def maxDisjuncts : ℤ := 500000

def upTo (δ : ℤ) : List ℤ := (List.range δ.toNat).map fun i : ℕ => (i : ℤ) + 1

def withPeriod (lcmCoeff : ℤ) (node : Node) : Node :=
  if 1 < lcmCoeff then .and [node, .lit (.div lcmCoeff (mkInt 0))] else node

def disjuncts (m : Manager) (node : Node) (δ : ℤ) (bset : List Term) : List Term :=
  (upTo δ).map (fun j => materialize m node (.minusInf j)) ++
    bset.flatMap fun b => (upTo δ).map fun j => materialize m node (.at (mkAdd [b, mkInt j]))

def eliminateExists (m : Manager) (x : String) (formula : Term) : Except String Term :=
  if !mentionsVar x formula then .ok formula
  else if findVarSort x formula ≠ some .int then .error "cooper: eliminated variable is not of integer sort"
  else do
    let raw ← buildRaw m x formula true
    let lcmCoeff := collectXCoeffLcm raw 1
    let node := withPeriod lcmCoeff (convert m lcmCoeff raw)
    let δ := collectModuliLcm node 1
    if maxDelta < δ then .error "cooper: divisibility period too large to eliminate"
    else
      let bset := collectLowerBounds node []
      if maxDisjuncts < δ * (bset.length + 1) then .error "cooper: elimination too large"
      else .ok (mkOr (disjuncts m node δ bset))

end Nixie.Qe.Cooper
