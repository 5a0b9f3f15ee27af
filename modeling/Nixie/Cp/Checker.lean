import Mathlib.Data.Finset.Basic
import Nixie.Budget
import Nixie.Cp.Statement
import Nixie.Odometer

namespace Nixie.Cp

open Ast Budget

abbrev CpWork (α : Type) := Work String α

def workLimit : String := "CP proof work limit"

section

variable (value : CpVar → ℤ)

def clash (a : CpVar) : List CpVar → CpWork Bool
  | [] => return false
  | b :: rest => do
    spend workLimit
    if value a = value b then return true else clash a rest

def allDifferentLoop : List CpVar → List CpVar → CpWork Bool
  | _, [] => return true
  | before, a :: rest => do
    if ← clash value a before then return false
    else allDifferentLoop (before ++ [a]) rest

def rowLoop : List (CpVar × ℤ) → Bool → CpWork Bool
  | [], agrees => return agrees
  | (var, entry) :: rest, agrees => do
    spend workLimit
    rowLoop rest (agrees && value var == entry)

def tableLoop (vars : List CpVar) : List (List ℤ) → CpWork Bool
  | [] => return false
  | row :: rows => do
    spend workLimit
    if ← rowLoop value (vars.zip row) true then return true
    else tableLoop vars rows

def edgeLoop (states : Finset ℕ) (symbol : ℤ) : List Transition → Finset ℕ → CpWork (Finset ℕ)
  | [], next => return next
  | edge :: rest, next => do
    spend workLimit
    edgeLoop states symbol rest
      (if edge.source ∈ states ∧ symbol = edge.symbol then insert edge.destination next else next)

def regularLoop (edges : List Transition) : List CpVar → Finset ℕ → CpWork (Finset ℕ)
  | [], states => return states
  | var :: rest, states => do
    let next ← edgeLoop states (value var) edges ∅
    regularLoop edges rest next

def nodeOf (n : ℕ) (z : ℤ) : Option ℕ :=
  if 0 ≤ z ∧ z.toNat < n then some z.toNat else none

/-- The node after one round for each variable, `none` on a node seen before or outside. -/
def circuitLoop (vars : List CpVar) : List CpVar → List Bool → ℕ → CpWork (Option ℕ)
  | [], _, node => return some node
  | _ :: rounds, seen, node => do
    spend workLimit
    if seen.getD node false then return none
    else
      match (vars[node]?).bind fun v => nodeOf vars.length (value v) with
      | some next => circuitLoop vars rounds (seen.set node true) next
      | none => return none

def isPresent (presences : List Bool) (task : ScheduledTask) : CpWork Bool :=
  match task.presence with
  | none => return true
  | some (i, sign) =>
    match presences[i]? with
    | some p => return p == sign
    | none => throw "missing CP presence valuation"

def loadLoop (presences : List Bool) (time : ℤ) : List ScheduledTask → ℤ → CpWork ℤ
  | [], load => return load
  | other :: rest, load => do
    spend workLimit
    if ← isPresent presences other then
      let start := value other.task.start
      loadLoop presences time rest
        (if start ≤ time ∧ time < start + other.task.duration then load + other.task.demand else load)
    else loadLoop presences time rest load

def cumulativeLoop (presences : List Bool) (tasks : List ScheduledTask) (capacity : ℤ) :
    List ScheduledTask → CpWork Bool
  | [] => return true
  | task :: rest => do
    spend workLimit
    if ← isPresent presences task then
      let load ← loadLoop value presences (value task.task.start) tasks 0
      if load > capacity then return false
      else cumulativeLoop presences tasks capacity rest
    else cumulativeLoop presences tasks capacity rest

def satisfiedBy (presences : List Bool) : Constraint → CpWork Bool
  | .allDifferent vars => allDifferentLoop value [] vars
  | .table statement => tableLoop value statement.vars statement.rows
  | .regular vars initial accepting edges => do
    let states ← regularLoop value edges vars {initial}
    return accepting.any (· ∈ states)
  | .circuit vars =>
    if vars.isEmpty then return true
    else do
      let node ← circuitLoop value vars vars (List.replicate vars.length false) 0
      return node == some 0
  | .cumulative tasks capacity =>
    if capacity < 0 then return false
    else cumulativeLoop value presences tasks capacity tasks

end

namespace CpStatement

variable (s : CpStatement)

def selectedValue (selected : List ℕ) (v : CpVar) : ℤ :=
  ((s.domains[v]?).bind fun d => (selected[v]?).bind fun i => d.values[i]?).getD 0

def satisfied (c : Constraint) (selected : List ℕ) (presences : List Bool) : CpWork Bool := do
  spend workLimit
  satisfiedBy (s.selectedValue selected) presences c

def literals (conclusion : Term) (premises : List Term) : List (Term × Bool) :=
  premises.map (·, true) ++ [(conclusion, false)]

def refutes (d : Domain) (i : ℕ) (lit : Term × Bool) (j : ℕ) : Bool :=
  d.atoms[j]? == some lit.1 && (i == j) != lit.2 || d.negations[j]? == some lit.1 && (i != j) != lit.2

def indicatorLoop (d : Domain) (i : ℕ) (lit : Term × Bool) : List ℕ → Bool → CpWork Bool
  | [], possible => return possible
  | j :: rest, possible => do
    spend workLimit
    indicatorLoop d i lit rest (possible && !refutes d i lit j)

def literalLoop (d : Domain) (i : ℕ) : List (Term × Bool) → Bool → CpWork Bool
  | [], possible => return possible
  | lit :: rest, possible => do
    spend workLimit
    let possible ← indicatorLoop d i lit (List.range d.values.length) possible
    literalLoop d i rest possible

def choiceLoop (d : Domain) (lits : List (Term × Bool)) : List ℕ → CpWork (List ℕ)
  | [] => return []
  | i :: rest => do
    let possible ← literalLoop d i lits true
    let choices ← choiceLoop d lits rest
    return if possible then i :: choices else choices

def remainingLoop (lits : List (Term × Bool)) : List Domain → CpWork (Option (List (List ℕ)))
  | [] => return some []
  | d :: rest => do
    let choices ← choiceLoop d lits (List.range d.values.length)
    if choices.isEmpty then return none
    else
      let remaining ← remainingLoop lits rest
      return remaining.map (choices :: ·)

def presenceLiteralLoop (p : Presence) (truth : Bool) : List (Term × Bool) → Bool → CpWork Bool
  | [], possible => return possible
  | lit :: rest, possible => do
    spend workLimit
    presenceLiteralLoop p truth rest
      (possible && !(lit.1 = p.atom && truth != lit.2 || lit.1 = p.negation && truth == lit.2))

def presenceChoiceLoop (p : Presence) (lits : List (Term × Bool)) : List Bool → CpWork (List Bool)
  | [] => return []
  | truth :: rest => do
    let possible ← presenceLiteralLoop p truth lits
      !(p.atom = s.trueTerm && !truth || p.atom = s.falseTerm && truth)
    let choices ← presenceChoiceLoop p lits rest
    return if possible then truth :: choices else choices

def presenceLoop (lits : List (Term × Bool)) : List Presence → CpWork (Option (List (List Bool)))
  | [] => return some []
  | p :: rest => do
    let choices ← presenceChoiceLoop s p lits [false, true]
    if choices.isEmpty then return none
    else
      let remaining ← presenceLoop lits rest
      return remaining.map (choices :: ·)

def assign {α : Type} (choices : List (List α)) (default : α) : List ℕ → List ℕ → List α → List α
  | index :: rest, digit :: digits, current =>
    assign choices default rest digits
      (current.set index ((choices[index]?.bind fun xs => xs[digit]?).getD default))
  | _, _, current => current

def wheels (remaining : List (List ℕ)) (presenceChoices : List (List Bool)) (vars conditions : List ℕ) :
    List ℕ :=
  vars.map (fun v => (remaining[v]?.getD []).length) ++
    conditions.map fun i => (presenceChoices[i]?.getD []).length

/-- The odometer, a round for each unit of fuel: a round spends one unit of the budget at least. -/
def supportLoop (remaining : List (List ℕ)) (presenceChoices : List (List Bool)) (c : Constraint)
    (vars conditions : List ℕ) : ℕ → List ℕ → List ℕ → List Bool → CpWork Bool
  | 0, _, _, _ => throw workLimit
  | fuel + 1, digits, selected, presences => do
    spend workLimit
    let selected := assign remaining 0 vars digits selected
    let presences := assign presenceChoices false conditions (digits.drop vars.length) presences
    if ← s.satisfied c selected presences then return true
    else
      match Odometer.advance (wheels remaining presenceChoices vars conditions) digits with
      | none => return false
      | some digits => supportLoop remaining presenceChoices c vars conditions fuel digits selected presences

def canonical (indices : List ℕ) : List ℕ :=
  (indices.mergeSort (· ≤ ·)).dedup

def refutedLoop (remaining : List (List ℕ)) (presenceChoices : List (List Bool)) :
    List Constraint → CpWork Bool
  | [] => return false
  | c :: rest => do
    let vars := canonical c.vars
    let conditions := canonical c.conditions
    let budget ← get
    let hasSupport ← s.supportLoop remaining presenceChoices c vars conditions (budget + 1)
      (List.replicate (vars.length + conditions.length) 0) (List.replicate s.domains.length 0)
      (List.replicate s.presences.length false)
    if hasSupport then refutedLoop remaining presenceChoices rest
    else return true

def checkLemma (conclusion : Term) (premises : List Term) : CpWork Unit := do
  spend workLimit
  if conclusion = s.trueTerm ∨ s.falseTerm ∈ premises then return
  else
    let lits := literals conclusion premises
    match ← remainingLoop lits s.domains with
    | none => return
    | some remaining =>
      match ← s.presenceLoop lits s.presences with
      | none => return
      | some presenceChoices =>
        if ← s.refutedLoop remaining presenceChoices s.constraints then return
        else throw "CP lemma has no checked finite-domain refutation"

section

variable (value : Term → Option Bool)

def fixedLoop : List (ℕ × Term) → Option ℕ → CpWork (Option ℕ)
  | [], fixed => return fixed
  | (i, atom) :: rest, fixed => do
    spend workLimit
    match value atom, fixed with
    | some true, none => fixedLoop rest (some i)
    | some false, _ => fixedLoop rest fixed
    | _, _ => throw "invalid or incomplete CP domain model"

def selectedLoop : List Domain → CpWork (List ℕ)
  | [] => return []
  | d :: rest => do
    match ← fixedLoop value ((List.range d.atoms.length).zip d.atoms) none with
    | none => throw "empty CP domain model"
    | some i =>
      let selected ← selectedLoop rest
      return i :: selected

def readPresence (p : Presence) : CpWork Bool :=
  if p.atom = s.trueTerm then return true
  else if p.atom = s.falseTerm then return false
  else
    match value p.atom with
    | some truth => return truth
    | none => throw "incomplete CP presence model"

def presenceValueLoop : List Presence → CpWork (List Bool)
  | [] => return []
  | p :: rest => do
    spend workLimit
    let truth ← s.readPresence value p
    let truths ← presenceValueLoop rest
    return truth :: truths

def globalLoop (selected : List ℕ) (presences : List Bool) : List Constraint → CpWork Unit
  | [] => return
  | c :: rest => do
    if ← s.satisfied c selected presences then globalLoop selected presences rest
    else throw "model violates an original CP global"

def checkModel : CpWork Unit := do
  let selected ← selectedLoop value s.domains
  let presences ← s.presenceValueLoop value s.presences
  s.globalLoop selected presences s.constraints

end

end CpStatement

end Nixie.Cp
