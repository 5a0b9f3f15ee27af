import Nixie.Arithmetic.Patching

/-!
Integer patching of the simplex tableau, `nixie-theories/src/arithmetic/simplex/mod.rs`.
-/

namespace Nixie.Arithmetic

structure DeltaRational where
  real : Rational64
  delta : Rational64

structure BigDeltaRational where
  real : ℚ
  delta : ℚ
  deriving DecidableEq

def DeltaRational.toBig (d : DeltaRational) : BigDeltaRational := ⟨d.real.value, d.delta.value⟩

def DeltaRational.isIntegral (d : DeltaRational) : Bool := d.real.isInteger && d.delta.isZero

namespace BigDeltaRational

def lt (a b : BigDeltaRational) : Bool := a.real < b.real || (a.real = b.real && a.delta < b.delta)

def isIntegral (d : BigDeltaRational) : Bool := d.real.den = 1 && d.delta = 0

end BigDeltaRational

inductive BoundValue
  | narrow (d : DeltaRational)
  | wide (w : BigDeltaRational)

def BoundValue.toBig : BoundValue → BigDeltaRational
  | narrow d => d.toBig
  | wide w => w

structure Simplex.LinExpr where
  terms : List (ℕ × Rational64)
  constant : Rational64

structure BigLinExpr where
  terms : List (ℕ × ℚ)
  constant : ℚ

structure IntRow where
  terms : List (ℕ × ℤ)
  constNum : ℤ
  denom : ℤ
  denom_pos : 0 < denom

inductive TableRow
  | lin (row : Simplex.LinExpr)
  | linNoInt (row : Simplex.LinExpr)
  | int (row : IntRow)

def materializeLin (row : IntRow) : Option Simplex.LinExpr := do
  let constant ← lowestTerms row.constNum row.denom row.denom_pos
  let terms ← row.terms.mapM fun (v, n) => (lowestTerms n row.denom row.denom_pos).map fun c => (v, c)
  return ⟨terms.filter fun (_, c) => !c.isZero, constant⟩

namespace TableRow

def coefficient (j : ℕ) : TableRow → Option Rational64
  | lin row => (row.terms.find? fun (v, _) => v = j).map Prod.snd
  | linNoInt row => (row.terms.find? fun (v, _) => v = j).map Prod.snd
  | int row => (row.terms.find? fun (v, _) => v = j).bind fun (_, n) => checkedRatioI128 n row.denom

end TableRow

/-- The rows give the basic variables. Rows and points that do not fit are kept apart, and the columns
list the rows that a variable occurs in. -/
structure Simplex where
  assignment : List DeltaRational
  lower : ℕ → Option BoundValue
  upper : ℕ → Option BoundValue
  tableau : ℕ → Option TableRow
  wideRows : ℕ → Option BigLinExpr
  widePoints : ℕ → Option BigDeltaRational
  columns : ℕ → Option (List ℕ)
  basic : ℕ → Bool

namespace Simplex

def rawPoint (s : Simplex) (v : ℕ) : Option BigDeltaRational :=
  (s.assignment[v]?).map fun a => (s.widePoints v).getD a.toBig

def evalTerms (s : Simplex) : List (ℕ × ℚ) → BigDeltaRational → Option BigDeltaRational
  | [], acc => some acc
  | (v, c) :: terms, acc =>
    match s.rawPoint v with
    | none => none
    | some p => evalTerms s terms ⟨acc.real + p.real * c, acc.delta + p.delta * c⟩

def evalBigRaw (s : Simplex) (expr : BigLinExpr) : Option BigDeltaRational :=
  s.evalTerms expr.terms ⟨expr.constant, 0⟩

def pointValueExact (s : Simplex) (var : ℕ) : Option BigDeltaRational :=
  match s.wideRows var with
  | some wexpr => s.evalBigRaw wexpr
  | none =>
    match s.widePoints var with
    | some w => some w
    | none => (s.assignment[var]?).map DeltaRational.toBig

def withinBounds (s : Simplex) (v : ℕ) (value : DeltaRational) : Bool :=
  !(s.lower v).any (fun lo => value.toBig.lt lo.toBig) && !(s.upper v).any fun hi => hi.toBig.lt value.toBig

def ownerUpdate (s : Simplex) (j : ℕ) (dr : Rational64) (owner : ℕ) : Option (Option DeltaRational) :=
  if (s.wideRows owner).isSome then none
  else
    match s.tableau owner with
    | none => some none
    | some row =>
      match row.coefficient j with
      | none => some none
      | some coef => do
        let old ← s.assignment[owner]?
        let prod ← checkedMulR64 coef dr
        let real ← checkedAddR64 old.real prod
        let new : DeltaRational := ⟨real, old.delta⟩
        if !s.withinBounds owner new then none
        else if old.isIntegral && !new.isIntegral then none
        else some (some new)

def patchUpdates (s : Simplex) (j : ℕ) (dr : Rational64) : List ℕ → Option (List (ℕ × DeltaRational))
  | [] => some []
  | owner :: owners =>
    match s.ownerUpdate j dr owner with
    | none => none
    | some none => patchUpdates s j dr owners
    | some (some new) => (patchUpdates s j dr owners).map ((owner, new) :: ·)

def tryPatchColumn (s : Simplex) (j : ℕ) (delta : ℤ) : Option Simplex := do
  let dr ← fromInteger delta
  let jv ← s.assignment[j]?
  if (s.widePoints j).isSome then none
  else
    let real ← checkedAddR64 jv.real dr
    if !jv.isIntegral then none
    else if !s.withinBounds j ⟨real, jv.delta⟩ then none
    else
      let col ← s.columns j
      let updates ← s.patchUpdates j dr col
      return { s with
        assignment := updates.foldl (fun a (oi, nv) => a.set oi nv) (s.assignment.set j ⟨real, jv.delta⟩) }

/-- The row in its rational form, which is stored. There is no result after a panic. -/
def rowLin (s : Simplex) (var : ℕ) : Option (Option LinExpr × Simplex) :=
  match s.tableau var with
  | none => some (none, s)
  | some (.lin row) => some (some row, s)
  | some (.linNoInt row) => some (some row, s)
  | some (.int row) =>
    (materializeLin row).map fun lin =>
      (some lin, { s with tableau := Function.update s.tableau var (some (.lin lin)) })

def patchTerms (isInt : ℕ → Bool) (r : Rational64) : List (ℕ × Rational64) → Simplex → Option Simplex
  | [], s => some s
  | (j, coef) :: terms, s =>
    if !isInt j || coef.isInteger then patchTerms isInt r terms s
    else
      match coef.floor with
      | none => none
      | some floor =>
        match checkedSubR64 coef floor with
        | none => patchTerms isInt r terms s
        | some alpha =>
          match patchingDeltas r alpha with
          | none => none
          | some none => patchTerms isInt r terms s
          | some (some (dplus, dminus)) =>
            match s.tryPatchColumn j dplus with
            | some s => some s
            | none =>
              match s.tryPatchColumn j dminus with
              | some s => some s
              | none => patchTerms isInt r terms s

def patchBasicColumn (isInt : ℕ → Bool) (s : Simplex) (v : ℕ) : Option Simplex :=
  if (s.wideRows v).isSome then some s
  else
    match s.rowLin v with
    | none => none
    | some (none, s) => some s
    | some (some row, s) =>
      match s.assignment[v]? with
      | none => some s
      | some val =>
        if !val.delta.isZero || val.real.isInteger then some s
        else
          match val.real.floor with
          | none => none
          | some floor =>
            match checkedSubR64 val.real floor with
            | none => some s
            | some r => patchTerms isInt r row.terms s

def fractional (s : Simplex) : List ℕ → Option (List ℕ)
  | [] => some []
  | v :: vars =>
    match s.pointValueExact v with
    | none => none
    | some exact =>
      if exact.isIntegral then fractional s vars
      else if s.basic v then (fractional s vars).map (v :: ·)
      else none

/-- Whether all integer variables have integral values now. There is no result after a panic. -/
def patchIntColumns (isInt : ℕ → Bool) (s : Simplex) : Option (Bool × Simplex) :=
  let intCols := (List.range s.assignment.length).filter isInt
  match s.fractional intCols with
  | none => some (false, s)
  | some frac =>
    let snapshot := s.assignment
    match frac.foldlM (patchBasicColumn isInt) s with
    | none => none
    | some s =>
      if intCols.all fun v => (s.pointValueExact v).any BigDeltaRational.isIntegral then some (true, s)
      else some (false, { s with assignment := snapshot })

end Simplex

end Nixie.Arithmetic
