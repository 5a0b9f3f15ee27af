import Mathlib.Algebra.Order.Ring.Rat
import Nixie.Ast.Term

/-!
The constructors of terms, `nixie-core/src/ast/manager/builder.rs`.
-/

namespace Nixie.Ast

/-- What the constructors read of a manager: the order in which terms were interned and the tuple
datatypes. -/
structure Manager where
  id : Term → ℕ
  tupleFieldSortsOf : SortId → Option (List SortId)

def intConstOf : Term → Option ℤ
  | .intConst n => some n
  | _ => none

def realConstOf : Term → Option ℚ
  | .realConst r => some r.value
  | _ => none

def arithConstOf : Term → Option ℚ
  | .intConst n => some n
  | .realConst r => some r.value
  | _ => none

def narrowRational (q : ℚ) : Option Rational64 :=
  if h : (-2 ^ 63 ≤ q.num ∧ q.num < 2 ^ 63) ∧ q.den < 2 ^ 63 then some ⟨q, h.1, h.2⟩ else none

def unifiedArithSort (fallback : Term) (operands : List Term) : SortId :=
  if operands.any fun t => t.sort = .real then .real else fallback.sort

def mkBool (value : Bool) : Term := if value then .true else .false

def mkReal (r : Rational64) : Term := .realConst r

def mkInt (n : ℤ) : Term := .intConst n

def mkNot : Term → Term
  | .not inner => inner
  | .true => .false
  | .false => .true
  | arg => .not arg

def connective (conjunction : Bool) (args : List Term) : Term :=
  if conjunction then .and args else .or args

def connectiveArgs : Bool → Term → Option (List Term)
  | true, .and inner => some inner
  | false, .or inner => some inner
  | _, _ => none

def flatArgs (conjunction : Bool) : List Term → Option (List Term)
  | [] => some []
  | arg :: args =>
    if arg = mkBool !conjunction then none
    else if arg = mkBool conjunction then flatArgs conjunction args
    else
      match connectiveArgs conjunction arg with
      | some inner => (flatArgs conjunction args).map (inner ++ ·)
      | none => (flatArgs conjunction args).map (arg :: ·)

def mkConnective (conjunction : Bool) (args : List Term) : Term :=
  match flatArgs conjunction args with
  | none => mkBool !conjunction
  | some [] => mkBool conjunction
  | some [arg] => arg
  | some flat => connective conjunction flat

def mkAnd : List Term → Term := mkConnective true

def mkOr : List Term → Term := mkConnective false

def mkImplies (lhs rhs : Term) : Term :=
  if lhs = .false then .true
  else if lhs = .true then rhs
  else if rhs = .true then .true
  else .implies lhs rhs

def mkXor (lhs rhs : Term) : Term :=
  if lhs = rhs then .false
  else if lhs = .false then rhs
  else if lhs = .true then mkNot rhs
  else if rhs = .false then lhs
  else if rhs = .true then mkNot lhs
  else .xor lhs rhs

def mkIte (cond thenBranch elseBranch : Term) : Term :=
  if cond = .true then thenBranch
  else if cond = .false then elseBranch
  else if thenBranch = elseBranch then thenBranch
  else if thenBranch = .true ∧ elseBranch = .false then cond
  else .ite cond thenBranch elseBranch thenBranch.sort

namespace Manager

def foldEq : Term → Term → Option Bool
  | .intConst a, .intConst b => some (a == b)
  | .intConst a, .realConst b => some ((a : ℚ) == b.value)
  | .realConst a, .intConst b => some (a.value == (b : ℚ))
  | .realConst a, .realConst b => some (a.value == b.value)
  | .stringLit a, .stringLit b => some (a == b)
  | .true, .true => some Bool.true
  | .false, .false => some Bool.true
  | .true, .false => some Bool.false
  | .false, .true => some Bool.false
  | .bitVecConst v w, .bitVecConst v' w' => some (v == v' && w == w')
  | _, _ => none

section

variable (m : Manager)

def orientEq (lhs rhs : Term) : Term :=
  if m.id lhs ≤ m.id rhs then .eq lhs rhs else .eq rhs lhs

def mkFfEq (lhs rhs : Term) : Option Term :=
  match lhs.sort, rhs.sort with
  | .field p, .field q =>
    if p ≠ q then none
    else
      match lhs, rhs with
      | .ffConst a _, .ffConst b _ => some (mkBool (a == b))
      | _, _ => some (m.orientEq lhs rhs)
  | _, _ => none

def plainEq (lhs rhs : Term) : Term :=
  match m.mkFfEq lhs rhs with
  | some folded => folded
  | none => m.orientEq lhs rhs

def absorbEq (lhs rhs : Term) : Term :=
  if lhs = .true then rhs
  else if rhs = .true then lhs
  else if lhs = .false then mkNot rhs
  else if rhs = .false then mkNot lhs
  else m.plainEq lhs rhs

def constEq (lhs rhs : Term) : Term :=
  match foldEq lhs rhs with
  | some b => mkBool b
  | none => if lhs = .not rhs ∨ rhs = .not lhs then .false else m.absorbEq lhs rhs

end

mutual

def mkEq (m : Manager) : Term → Term → Term
  | .dtConstructor c xs s, rhs =>
    match rhs with
    | .dtConstructor c' ys s' =>
      if Term.dtConstructor c xs s = .dtConstructor c' ys s' then .true
      else if xs.length = ys.length ∧ s = s' ∧ (m.tupleFieldSortsOf s).isSome then
        mkAnd (m.mkEqs xs ys)
      else m.constEq (.dtConstructor c xs s) (.dtConstructor c' ys s')
    | rhs => m.constEq (.dtConstructor c xs s) rhs
  | .not a, rhs =>
    match rhs with
    | .not b => m.mkEq a b
    | rhs => m.constEq (.not a) rhs
  | lhs, rhs => if lhs = rhs then .true else m.constEq lhs rhs

def mkEqs (m : Manager) : List Term → List Term → List Term
  | x :: xs, y :: ys => m.mkEq x y :: m.mkEqs xs ys
  | _, _ => []

end

end Manager

def otherArgs (args : List Term) : List Term :=
  args.filter fun a => (intConstOf a).isNone && (realConstOf a).isNone

def keptArgs (args : List Term) (folded : Option Rational64) : List Term :=
  match folded with
  | some r => otherArgs args ++ [mkReal r]
  | none => args.filter fun a => (intConstOf a).isNone

def foldReals (reals : List ℚ) (total : ℚ) : Option Rational64 :=
  if reals.isEmpty then none else narrowRational total

def mkAdd (args : List Term) : Term :=
  match args with
  | [] => mkInt 0
  | [a] => a
  | first :: _ =>
    let sort := unifiedArithSort first args
    let ints := args.filterMap intConstOf
    let reals := args.filterMap realConstOf
    if ints.isEmpty && reals.isEmpty then .add args sort
    else
      let newArgs := keptArgs args (foldReals reals reals.sum)
      if newArgs.isEmpty then mkInt ints.sum
      else if ints.sum ≠ 0 then .add (newArgs ++ [mkInt ints.sum]) sort
      else
        match newArgs with
        | [a] => a
        | newArgs => .add newArgs sort

def mkSub (lhs rhs : Term) : Term :=
  let sort := unifiedArithSort lhs [lhs, rhs]
  match intConstOf lhs, intConstOf rhs with
  | some a, some b => mkInt (a - b)
  | _, _ =>
    match sort, realConstOf lhs, realConstOf rhs with
    | .real, some a, some b =>
      match narrowRational (a - b) with
      | some r => mkReal r
      | none => .sub lhs rhs sort
    | _, _, _ => .sub lhs rhs sort

def mkNeg (arg : Term) : Term :=
  match intConstOf arg with
  | some v => mkInt (-v)
  | none =>
    match arg.sort, realConstOf arg with
    | .real, some r =>
      match narrowRational (-r) with
      | some r => mkReal r
      | none => .neg arg arg.sort
    | _, _ => .neg arg arg.sort

def mkMul (args : List Term) : Term :=
  match args with
  | [] => mkInt 1
  | [a] => a
  | first :: _ =>
    let sort := unifiedArithSort first args
    let ints := args.filterMap intConstOf
    let reals := args.filterMap realConstOf
    if (!ints.isEmpty && ints.prod = 0) || (!reals.isEmpty && reals.prod = 0) then
      if sort = .real then mkReal (.ofInt 0 Rational64.zero_fits) else mkInt 0
    else
      let keep := keptArgs args (foldReals reals reals.prod)
      if ints.isEmpty then
        match keep with
        | [a] => a
        | [] => mkReal (.ofInt 1 (by decide))
        | keep => .mul keep sort
      else if keep.isEmpty then mkInt ints.prod
      else if ints.prod ≠ 1 then .mul (keep ++ [mkInt ints.prod]) sort
      else
        match keep with
        | [a] => a
        | keep => .mul keep sort

def realDiv (lhs rhs : Term) : Option Term :=
  match arithConstOf rhs with
  | none => none
  | some b =>
    if b = 0 then none
    else
      match (arithConstOf lhs).bind fun a => narrowRational (a / b) with
      | some r => some (mkReal r)
      | none => (narrowRational (1 / b)).map fun recip => mkMul [lhs, mkReal recip]

def intDiv (lhs rhs : Term) : Option Term :=
  match intConstOf rhs with
  | none => none
  | some b =>
    match intConstOf lhs with
    | some a => if b = 0 then none else some (mkInt (a / b))
    | none => if b = 1 then some lhs else if b = -1 then some (mkNeg lhs) else none

def divSort (lhs rhs : Term) (forceReal : Bool) : SortId :=
  if forceReal then .real else unifiedArithSort lhs [lhs, rhs]

def foldDiv (lhs rhs : Term) : SortId → Option Term
  | .int => intDiv lhs rhs
  | .real => realDiv lhs rhs
  | _ => none

def mkDivAt (lhs rhs : Term) (forceReal : Bool) : Term :=
  let sort := divSort lhs rhs forceReal
  (foldDiv lhs rhs sort).getD (.div lhs rhs sort)

def mkDiv (lhs rhs : Term) : Term := mkDivAt lhs rhs false

def mkRdiv (lhs rhs : Term) : Term := mkDivAt lhs rhs true

def mkMod (lhs rhs : Term) : Term :=
  match intConstOf rhs with
  | none => .mod lhs rhs lhs.sort
  | some b =>
    match intConstOf lhs with
    | some a => if b = 0 then .mod lhs rhs lhs.sort else mkInt (a % b)
    | none => if b = 1 ∨ b = -1 then mkInt 0 else .mod lhs rhs lhs.sort

def numericCmpFold (lhs rhs : Term) : Option Ordering :=
  match arithConstOf lhs, arithConstOf rhs with
  | some a, some b => some (compare a b)
  | _, _ => none

def CmpOp.accepts : CmpOp → Ordering → Bool
  | .lt, ord => ord == .lt
  | .le, ord => ord != .gt
  | .gt, ord => ord == .gt
  | .ge, ord => ord != .lt

def mkCmp (op : CmpOp) (lhs rhs : Term) : Term :=
  match numericCmpFold lhs rhs with
  | some ord => mkBool (op.accepts ord)
  | none => if lhs = rhs then mkBool (op.accepts .eq) else .cmp op lhs rhs

def mkLt : Term → Term → Term := mkCmp .lt

def mkLe : Term → Term → Term := mkCmp .le

def mkGt : Term → Term → Term := mkCmp .gt

def mkGe : Term → Term → Term := mkCmp .ge

end Nixie.Ast
