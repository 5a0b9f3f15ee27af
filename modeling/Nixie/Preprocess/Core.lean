import Mathlib.Data.List.Basic
import Nixie.Witness

/-!
The preprocessor of `nixie-sat/src/preprocessing_core.rs`: occurrence lists, pure literals, subsumption, blocked clauses
and variable elimination over the slots of a clause database.  A deleted clause keeps its slot and its literals.
-/

namespace Nixie.Preprocess

open Nixie.Literal

structure Clause where
  lits : List ℕ
  learned : Bool := false
  deleted : Bool := false
  deriving DecidableEq

def markDeletedRaw (db : List Clause) (id : ℕ) : List Clause := db.modify id fun c => { c with deleted := true }

structure Preprocessor where
  numVars : ℕ
  occurrences : ℕ → List ℕ := fun _ => []
  eliminated : List ℕ := []
  removedClauses : List ℕ := []
  eliminatedPureLiterals : List ℕ := []

def occurrencesOf (db : List Clause) (lit : ℕ) : List ℕ :=
  (List.range db.length).flatMap fun i =>
    match db[i]? with
    | some c => if c.deleted then [] else List.replicate (c.lits.count lit) i
    | none => []

def InRange (numVars : ℕ) (db : List Clause) : Prop := ∀ c ∈ db, c.deleted = false → ∀ l ∈ c.lits, l < 2 * numVars

instance (numVars : ℕ) (db : List Clause) : Decidable (InRange numVars db) :=
  inferInstanceAs (Decidable (∀ c ∈ db, c.deleted = false → ∀ l ∈ c.lits, l < 2 * numVars))

def Preprocessor.buildOccurrences (p : Preprocessor) (db : List Clause) : Option Preprocessor :=
  if InRange p.numVars db then some { p with occurrences := occurrencesOf db } else none

def swapRemove (list : List ℕ) (id : ℕ) : List ℕ :=
  match list.idxOf? id with
  | some pos => (list.set pos (list.getLastD 0)).dropLast
  | none => list

def Preprocessor.removeOccurrence (p : Preprocessor) (id lit : ℕ) : Preprocessor :=
  { p with occurrences := Function.update p.occurrences lit (swapRemove (p.occurrences lit) id) }

def tautologyLoop : List ℕ → List ℕ → Bool
  | _, [] => false
  | seen, lit :: lits => if neg lit ∈ seen then true else tautologyLoop (lit :: seen) lits

def isTautology (lits : List ℕ) : Bool := tautologyLoop [] lits

namespace Preprocessor

def isBlocked (p : Preprocessor) (db : List Clause) (lits : List ℕ) (blockingLit : ℕ) : Bool :=
  (p.occurrences (neg blockingLit)).all fun id =>
    match db[id]? with
    | some other =>
      other.deleted || isTautology (lits.filter (· ≠ blockingLit) ++ other.lits.filter (· ≠ neg blockingLit))
    | none => true

def candidate (p : Preprocessor) (db : List Clause) (id : ℕ) : Option (List ℕ) :=
  if id ∈ p.removedClauses then none
  else
    match db[id]? with
    | some c => if c.deleted || c.learned then none else some c.lits
    | none => none

def blockingLit (p : Preprocessor) (db : List Clause) (id : ℕ) : Option (List ℕ × ℕ) := do
  let lits ← p.candidate db id
  let lit ← lits.find? (p.isBlocked db lits)
  return (lits, lit)

def blockClauses : List ℕ → Preprocessor → List Clause → ℕ → Preprocessor × List Clause × ℕ
  | [], p, db, eliminated => (p, db, eliminated)
  | id :: ids, p, db, eliminated =>
    match p.blockingLit db id with
    | some (lits, _) =>
      blockClauses ids (lits.foldl (fun p l =>
        p.removeOccurrence id l) { p with removedClauses := id :: p.removedClauses })
        (markDeletedRaw db id) (eliminated + 1)
    | none => blockClauses ids p db eliminated

def blockedClauseElimination (p : Preprocessor) (db : List Clause) : Option (Preprocessor × List Clause × ℕ) := do
  let p ← p.buildOccurrences db
  return blockClauses (List.range db.length) p db 0

def pureLiteral (p : Preprocessor) (assigned : List Bool) (v : ℕ) : Option ℕ :=
  if assigned.getD v false then none
  else
    match p.occurrences (2 * v), p.occurrences (2 * v + 1) with
    | _ :: _, [] => some (2 * v)
    | [], _ :: _ => some (2 * v + 1)
    | _, _ => none

def removeAll : List ℕ → Preprocessor → List Clause → ℕ → Preprocessor × List Clause × ℕ
  | [], p, db, eliminated => (p, db, eliminated)
  | id :: ids, p, db, eliminated =>
    match p.candidate db id with
    | some _ => removeAll ids { p with removedClauses := id :: p.removedClauses } (markDeletedRaw db id)
        (eliminated + 1)
    | none => removeAll ids p db eliminated

def removePure : List ℕ → Preprocessor → List Clause → ℕ → Preprocessor × List Clause × ℕ
  | [], p, db, eliminated => (p, db, eliminated)
  | lit :: lits, p, db, eliminated =>
    let (p, db, n) := removeAll (p.occurrences lit) p db 0
    let pure := if 0 < n then p.eliminatedPureLiterals ++ [lit] else p.eliminatedPureLiterals
    removePure lits { p with eliminatedPureLiterals := pure } db (eliminated + n)

def pureLiteralElimination (p : Preprocessor) (db : List Clause) (assigned : List Bool) :
    Option (Preprocessor × List Clause × ℕ) := do
  let p ← p.buildOccurrences db
  return removePure ((List.range p.numVars).filterMap (p.pureLiteral assigned)) p db 0

def removeSubsumed (lits : List ℕ) : List ℕ → Preprocessor → List Clause → ℕ → Preprocessor × List Clause × ℕ
  | [], p, db, eliminated => (p, db, eliminated)
  | id :: ids, p, db, eliminated =>
    match p.candidate db id with
    | some other =>
      if lits.all fun l => l ∈ other then
        removeSubsumed lits ids { p with removedClauses := id :: p.removedClauses } (markDeletedRaw db id)
          (eliminated + 1)
      else removeSubsumed lits ids p db eliminated
    | none => removeSubsumed lits ids p db eliminated

def subsume : List ℕ → Preprocessor → List Clause → ℕ → Preprocessor × List Clause × ℕ
  | [], p, db, eliminated => (p, db, eliminated)
  | id :: ids, p, db, eliminated =>
    match p.candidate db id with
    | some lits =>
      let (p, db, eliminated) := removeSubsumed lits ids p db eliminated
      subsume ids p db eliminated
    | none => subsume ids p db eliminated

def subsumptionElimination (p : Preprocessor) (db : List Clause) : Option (Preprocessor × List Clause × ℕ) := do
  let p ← p.buildOccurrences db
  return subsume (List.range db.length) p db 0

def round (p : Preprocessor) (db : List Clause) (assigned : List Bool) : Option (Preprocessor × List Clause × ℕ) := do
  let (p, db, pureElim) ← p.pureLiteralElimination db assigned
  let (p, db, subsumption) ← p.subsumptionElimination db
  let (p, db, bce) ← p.blockedClauseElimination db
  return (p, db, pureElim + subsumption + bce)

def preprocessLoop (assigned : List Bool) :
    ℕ → Preprocessor → List Clause → ℕ → Option (Preprocessor × List Clause × ℕ × ℕ)
  | 0, _, _, _ => none
  | fuel + 1, p, db, total => do
    let (p, db, n) ← p.round db assigned
    if n = 0 then return (p, db, total, 0) else preprocessLoop assigned fuel p db (total + n)

def preprocess (p : Preprocessor) (db : List Clause) (assigned : List Bool) :
    Option (Preprocessor × List Clause × ℕ × ℕ) :=
  preprocessLoop assigned (db.length + 1) p db 0

def resolvent (pos neg : List ℕ) (posLit negLit : ℕ) : List ℕ :=
  neg.foldl (fun r l => if l ≠ negLit ∧ l ∉ r then r ++ [l] else r) (pos.filter (· ≠ posLit))

def resolvents (db : List Clause) (posIds negIds : List ℕ) (posLit negLit : ℕ) : List (List ℕ) :=
  posIds.flatMap fun i => negIds.filterMap fun j =>
    match db[i]?, db[j]? with
    | some c, some d =>
      let r := resolvent c.lits d.lits posLit negLit
      if isTautology r then none else some r
    | _, _ => none

def pays (p : Preprocessor) (limit v : ℕ) : Bool :=
  let pos := (p.occurrences (2 * v)).length
  let neg := (p.occurrences (2 * v + 1)).length
  decide (v ∉ p.eliminated) && !(decide (limit < pos * neg) || decide (pos + neg < pos * neg))

def eliminateVar (p : Preprocessor) (db : List Clause) (v : ℕ) : Preprocessor × List Clause :=
  let posIds := p.occurrences (2 * v)
  let negIds := p.occurrences (2 * v + 1)
  let new := (resolvents db posIds negIds (2 * v) (2 * v + 1)).filter (· ≠ [])
  ({ p with eliminated := v :: p.eliminated, removedClauses := (posIds ++ negIds).reverse ++ p.removedClauses },
    (posIds ++ negIds).foldl markDeletedRaw db ++ new.map fun lits => { lits := lits })

def eliminateVars (limit : ℕ) : List ℕ → Preprocessor → List Clause → ℕ → Preprocessor × List Clause × ℕ
  | [], p, db, eliminated => (p, db, eliminated)
  | v :: vs, p, db, eliminated =>
    if p.pays limit v then
      let (p, db) := p.eliminateVar db v
      eliminateVars limit vs p db (eliminated + 1)
    else eliminateVars limit vs p db eliminated

def variableElimination (p : Preprocessor) (db : List Clause) (limit : ℕ) :
    Option (Preprocessor × List Clause × ℕ) := do
  let p ← p.buildOccurrences db
  return eliminateVars limit (List.range p.numVars) p db 0

end Preprocessor

end Nixie.Preprocess
