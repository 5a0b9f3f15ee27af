import Nixie.Cp.Matching

/-!
The propagator, `nixie-theories/src/cp/mod.rs`.  A certificate is recorded by whether it is produced:
the lemma it accompanies is checked against the declarations.
-/

namespace Nixie.Cp

open Ast

inductive DomainRule
  | distinctFixed (first second : ℕ)
  | exclusion (fixed : ℕ)
  | exhausted (cover : List ℕ)
  deriving DecidableEq

section

variable (d : Domain)

def positivePosition (premises : List Term) (index : ℕ) : Option ℕ :=
  premises[index]?.bind fun term => d.atoms.findIdx? (· = term)

def DomainRule.check (falseTerm conclusion : Term) (premises : List Term) : DomainRule → Bool
  | distinctFixed first second =>
    conclusion = falseTerm &&
      match positivePosition d premises first, positivePosition d premises second with
      | some i, some j => i ≠ j
      | _, _ => false
  | exclusion fixed =>
    match positivePosition d premises fixed, d.negations.findIdx? (· = conclusion) with
    | some index, some excluded => excluded ≠ index
    | _, _ => false
  | exhausted cover =>
    conclusion = falseTerm && cover.length = d.negations.length &&
      (cover.zip d.negations).all fun p => premises[p.1]? = some p.2

def positives (reasons : List Term) : List (ℕ × Term) :=
  ((List.range reasons.length).zip reasons).filter fun p => p.2 ∈ d.atoms

def domainRule (falseTerm conclusion : Term) (reasons : List Term) : Option DomainRule :=
  if conclusion = falseTerm then
    match positives d reasons with
    | (first, term) :: rest =>
      (rest.find? fun p => p.2 ≠ term).map fun p => .distinctFixed first p.1
    | [] => (d.negations.mapM fun negative => reasons.findIdx? (· = negative)).map .exhausted
  else do
    let excluded ← d.negations.findIdx? (· = conclusion)
    let p ← (positives d reasons).find? fun p => d.atoms[excluded]? ≠ some p.2
    return .exclusion p.1

def domainExplains (falseTerm conclusion : Term) (reasons : List Term) : Bool :=
  (domainRule d falseTerm conclusion reasons).any (·.check d falseTerm conclusion reasons)

end

inductive TableRowBlocker
  | outsideDomain (column : ℕ)
  | alias (first second : ℕ)
  | premise (column premise : ℕ)
  | negatedConclusion (column : ℕ)
  deriving DecidableEq

def tableDomains (domains : List Domain) (t : TableStatement) : List (CpVar × Domain) :=
  ((t.vars.mergeSort (· ≤ ·)).dedup).filterMap fun v => domains[v]?.map (v, ·)

def forcedValue (table : List (CpVar × Domain)) (conclusion : Term) : Option (CpVar × ℤ) :=
  table.findSome? fun p =>
    (p.2.negations.findIdx? (· = conclusion)).bind fun i => p.2.values[i]?.map (p.1, ·)

def columnBlocker (table : List (CpVar × Domain)) (t : TableStatement) (forced : Option (CpVar × ℤ))
    (reasons : List Term) (row : List ℤ) (column : ℕ) : Option (Option TableRowBlocker) := do
  let var ← t.vars[column]?
  let domain ← table.lookup var
  let value ← row[column]?
  if value ∉ domain.values then return some (.outsideDomain column)
  else
    match (List.range column).find? fun i => t.vars[i]? = some var ∧ row[i]? ≠ some value with
    | some first => return some (.alias first column)
    | none =>
      if forced.any fun p => p.1 = var ∧ p.2 ≠ value then return some (.negatedConclusion column)
      else
        return (List.range domain.values.length).findSome? fun index =>
          let blocking := if domain.values[index]? = some value then domain.negations[index]?
            else domain.atoms[index]?
          (reasons.findIdx? fun r => some r = blocking).map (.premise column ·)

/-- The first column with an obstruction; the outer `none` abandons the explanation. -/
def rowBlocker (table : List (CpVar × Domain)) (t : TableStatement) (forced : Option (CpVar × ℤ))
    (reasons : List Term) (row : List ℤ) : List ℕ → Option TableRowBlocker
  | [] => none
  | column :: rest =>
    match columnBlocker table t forced reasons row column with
    | none => none
    | some (some blocker) => some blocker
    | some none => rowBlocker table t forced reasons row rest

def TableRowBlocker.check (table : List (CpVar × Domain)) (t : TableStatement)
    (assumed : Option (CpVar × ℤ)) (premises : List Term) (row : List ℤ) (blocker : TableRowBlocker) : Bool :=
  let cell (column : ℕ) : Option (CpVar × ℤ × Domain) := do
    let var ← t.vars[column]?
    let value ← row[column]?
    let domain ← table.lookup var
    return (var, value, domain)
  match blocker with
  | outsideDomain column => (cell column).any fun p => p.2.1 ∉ p.2.2.values
  | .alias first second =>
    match cell first, cell second with
    | some p, some q => p.1 = q.1 && p.2.1 ≠ q.2.1
    | _, _ => false
  | premise column index =>
    match cell column, premises[index]? with
    | some p, some literal =>
      (p.2.2.values.zip (p.2.2.atoms.zip p.2.2.negations)).any fun q =>
        literal = q.2.2 && p.2.1 = q.1 || literal = q.2.1 && p.2.1 ≠ q.1
    | _, _ => false
  | negatedConclusion column =>
    (cell column).any fun p => assumed.any fun q => p.1 = q.1 && p.2.1 ≠ q.2

def tableExplains (domains : List Domain) (t : TableStatement) (falseTerm conclusion : Term)
    (reasons : List Term) : Bool :=
  let table := tableDomains domains t
  let forced := forcedValue table conclusion
  match t.rows.mapM fun row => rowBlocker table t forced reasons row (List.range t.vars.length) with
  | none => false
  | some blockers =>
    let assumed := if conclusion = falseTerm then none else forced
    (conclusion = falseTerm || forced.isSome) &&
      (t.rows.zip blockers).all fun p => p.2.check table t assumed reasons p.1

structure Consequence where
  term : Term
  justification : List Term
  deriving DecidableEq

inductive PropagatorResult
  | sat
  | unsat (reasons : List Term)
  | unknown
  deriving DecidableEq

structure DomainSnapshot where
  values : List (List ℤ)
  reasons : List Term
  fixedPremises : List (Option ℕ)
  valid : Bool

namespace CpStatement

variable (s : CpStatement) (fixed : Term → Option Term)

structure DomainRead where
  fixed : Option ℤ
  fixedPremise : Option ℕ
  remaining : List ℤ
  reasons : List Term
  valid : Bool

def readIndicator (read : DomainRead) (atom negation : Term) (value : ℤ) : DomainRead :=
  match fixed atom with
  | some v =>
    if v = s.trueTerm then
      { read with
        fixedPremise := some read.reasons.length
        reasons := read.reasons ++ [atom]
        valid := read.valid && read.fixed.isNone
        fixed := some value }
    else if v = s.falseTerm then { read with reasons := read.reasons ++ [negation] }
    else { read with valid := false }
  | none => if read.fixed.isNone then { read with remaining := read.remaining ++ [value] } else read

def readDomain (d : Domain) (reasons : List Term) (valid : Bool) : DomainRead :=
  (d.atoms.zip (d.negations.zip d.values)).foldl
    (fun read p => readIndicator s fixed read p.1 p.2.1 p.2.2) ⟨none, none, [], reasons, valid⟩

def domainLoop : List Domain → DomainSnapshot → DomainSnapshot
  | [], snapshot => snapshot
  | d :: rest, snapshot =>
    let read := readDomain s fixed d snapshot.reasons snapshot.valid
    domainLoop rest
      ⟨snapshot.values ++ [match read.fixed with | some value => [value] | none => read.remaining],
        read.reasons, snapshot.fixedPremises ++ [read.fixedPremise], read.valid⟩

def snapshot : DomainSnapshot :=
  domainLoop s fixed s.domains ⟨[], [], [], true⟩

/-- The truth of each presence condition, with the reasons; `none` on a value that is not Boolean. -/
def readPresences : List Presence → List Term → Option (List (Option Bool) × List Term)
  | [], reasons => some ([], reasons)
  | p :: rest, reasons =>
    let value :=
      if p.atom = s.trueTerm then some s.trueTerm
      else if p.atom = s.falseTerm then some s.falseTerm
      else fixed p.atom
    match value with
    | none => (readPresences rest reasons).map fun r => (none :: r.1, r.2)
    | some v =>
      if v = s.trueTerm then (readPresences rest (reasons ++ [p.atom])).map fun r => (some true :: r.1, r.2)
      else if v = s.falseTerm then
        (readPresences rest (reasons ++ [p.negation])).map fun r => (some false :: r.1, r.2)
      else none

def explain (c : Option Constraint) (term : Term) (reasons : List Term) : Option Consequence :=
  match c with
  | some (.table t) =>
    if tableExplains s.domains t s.falseTerm term reasons then some ⟨term, reasons⟩ else none
  | none =>
    if s.domains.any fun d => domainExplains d s.falseTerm term reasons then some ⟨term, reasons⟩ else none
  | some _ => some ⟨term, reasons⟩

def conflict (c : Option Constraint) (reasons : List Term) : PropagatorResult × List Consequence :=
  match s.explain c s.falseTerm reasons with
  | none => (.unknown, [])
  | some consequence => (.unsat reasons, [consequence])

inductive Filtered
  | feasible
  | infeasible (c : Constraint)
  | unknown

def feasibleLoop (test : Constraint → Option Bool) : List Constraint → Filtered
  | [] => .feasible
  | c :: rest =>
    match test c with
    | some true => feasibleLoop test rest
    | some false => .infeasible c
    | none => .unknown

def excludeIndicator (domains : List (List ℤ)) (presences : List (Option Bool)) (reasons : List Term)
    (fixedPremises : List (Option ℕ)) (i : CpVar) (d : Domain) (negation : Term) (value : ℤ) :
    Option (List Consequence) :=
  match feasibleLoop (feasibleAt domains presences i value)
      (s.constraints.filter fun c => i ∈ c.vars) with
  | .unknown => none
  | .infeasible c => (s.explain (some c) negation reasons).map fun c => [c]
  | .feasible =>
    match (fixedPremises[i]?).join with
    | none => some []
    | some premise =>
      if DomainRule.check d s.falseTerm negation reasons (.exclusion premise) then
        some [⟨negation, reasons⟩]
      else none

abbrev Queue := List Consequence × Bool

def indicatorsLoop (domains : List (List ℤ)) (presences : List (Option Bool)) (reasons : List Term)
    (fixedPremises : List (Option ℕ)) (i : CpVar) (d : Domain) :
    List (Term × Term × ℤ) → List Consequence → Queue
  | [], queue => (queue, true)
  | (atom, negation, value) :: rest, queue =>
    if (fixed atom).isSome then indicatorsLoop domains presences reasons fixedPremises i d rest queue
    else
      match s.excludeIndicator domains presences reasons fixedPremises i d negation value with
      | none => (queue, false)
      | some consequences =>
        indicatorsLoop domains presences reasons fixedPremises i d rest (queue ++ consequences)

def domainsLoop (domains : List (List ℤ)) (presences : List (Option Bool)) (reasons : List Term)
    (fixedPremises : List (Option ℕ)) : List (CpVar × Domain) → List Consequence → Queue
  | [], queue => (queue, true)
  | (i, d) :: rest, queue =>
    match s.indicatorsLoop fixed domains presences reasons fixedPremises i d
        (d.atoms.zip (d.negations.zip d.values)) queue with
    | (queue, true) => domainsLoop domains presences reasons fixedPremises rest queue
    | (queue, false) => (queue, false)

def tryPresence (domains : List (List ℤ)) (presences : List (Option Bool)) (reasons : List Term)
    (index : ℕ) (p : Presence) (truth : Bool) : Option (List Consequence) :=
  match feasibleLoop (presenceFeasible domains (presences.set index (some truth))) s.constraints with
  | .feasible => some []
  | .infeasible c => (s.explain (some c) (if truth then p.negation else p.atom) reasons).map fun c => [c]
  | .unknown => none

def presencesLoop (domains : List (List ℤ)) (presences : List (Option Bool)) (reasons : List Term) :
    List (ℕ × Presence) → List Consequence → Queue
  | [], queue => (queue, true)
  | (index, p) :: rest, queue =>
    if ((presences[index]?).join).isSome then presencesLoop domains presences reasons rest queue
    else
      match s.tryPresence domains presences reasons index p false with
      | none => (queue, false)
      | some consequences =>
        match s.tryPresence domains presences reasons index p true with
        | none => (queue ++ consequences, false)
        | some consequences' =>
          presencesLoop domains presences reasons rest (queue ++ consequences ++ consequences')

def run : PropagatorResult × List Consequence :=
  let snapshot := s.snapshot fixed
  match s.readPresences fixed s.presences snapshot.reasons with
  | none => (.unknown, [])
  | some (presences, reasons) =>
    if snapshot.valid = false then
      if (s.domains.flatMap (·.atoms)).any fun a =>
          (fixed a).any fun v => v ≠ s.trueTerm && v ≠ s.falseTerm then
        (.unknown, [])
      else s.conflict none reasons
    else if snapshot.values.any List.isEmpty then s.conflict none reasons
    else
      match feasibleLoop (feasible snapshot.values presences) s.constraints with
      | .infeasible c => s.conflict (some c) reasons
      | .unknown => (.unknown, [])
      | .feasible =>
        match s.domainsLoop fixed snapshot.values presences reasons snapshot.fixedPremises
            ((List.range s.domains.length).zip s.domains) [] with
        | (queue, false) => (.unknown, queue)
        | (queue, true) =>
          match s.presencesLoop snapshot.values presences reasons
              ((List.range s.presences.length).zip s.presences) queue with
          | (queue, false) => (.unknown, queue)
          | (queue, true) =>
            if snapshot.values.all (·.length == 1) && presences.all Option.isSome then (.sat, queue)
            else (.unknown, queue)

end CpStatement

end Nixie.Cp
