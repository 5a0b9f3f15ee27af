import Nixie.Kitten.State

/-!
The search of `nixie-sat/src/kitten.rs`.  A loop without an evident bound takes fuel; `none` is
a run that has not returned, whether for lack of fuel or because the source panics.
-/

namespace Nixie.Kitten

open Nixie.Literal Function

def wrapRootReason (k : Kitten) (lit reason : ℕ) : Kitten × ℕ :=
  if 1 < k.klauseSize reason ∧ k.exhausted = false then
    let others := (k.klauseLits reason).filter (· ≠ lit)
    let k := if k.antecedents then
        { k with resolved := k.resolved ++ reason :: others.map fun o => (k.vars (o / 2)).reason }
      else k
    let (k, learnedRef) := newLearnedKlause { k with klause := k.klause ++ [lit] }
    ({ k with resolved := [], klause := [] }, if learnedRef ≠ INVALID then learnedRef else reason)
  else (k, reason)

def assign (k : Kitten) (lit reason : ℕ) : Kitten :=
  let k := { k with
    values := update (update k.values lit 1) (neg lit) (-1)
    phases := update k.phases (lit / 2) (lit % 2)
    trail := k.trail ++ [lit] }
  let (k, reason) := if k.level = 0 then k.wrapRootReason lit reason else (k, reason)
  { k with
    vars := update k.vars (lit / 2) ⟨k.level, reason⟩
    unassigned := k.unassigned - 1 }

def findReplacement (values : ℕ → ℤ) (lits : List ℕ) : Option ℕ :=
  ((lits.drop 2).findIdx? fun l => 0 ≤ values l).map (· + 2)

def setLit (k : Kitten) (reference i lit : ℕ) : Kitten :=
  { k with klauses := k.klauses.set (wrap reference 3 + i) lit }

/-- Swap `notLit` out of the watch slots for the literal at position `i` and watch that one. -/
def moveWatch (k : Kitten) (reference other notLit i : ℕ) : Kitten :=
  let replacement := (k.klauseLits reference).getD i 0
  let k := ((k.setLit reference 0 other).setLit reference 1 replacement).setLit reference i notLit
  k.watchKlause replacement reference false

structure Scan where
  kitten : Kitten
  kept : List Katch
  ticks : ℕ
  conflict : Option ℕ

/-- The two-pointer pass over the watch list of `notLit`, which has been taken out of `k`. -/
def scanWatches (notLit : ℕ) : Kitten → List Katch → List Katch → ℕ → Scan
  | k, [], kept, ticks => ⟨k, kept, ticks, none⟩
  | k, katch :: rest, kept, ticks =>
    let reference := katch.reference
    let blitValue := k.values katch.blit
    if 0 < blitValue then scanWatches notLit k rest (kept ++ [katch]) ticks
    else if katch.binary then
      if blitValue < 0 then ⟨k, kept ++ katch :: rest, ticks, some reference⟩
      else scanWatches notLit (k.assign katch.blit reference) rest (kept ++ [katch]) ticks
    else
      let lits := k.klauseLits reference
      let other := lits.getD 0 0 ^^^ lits.getD 1 0 ^^^ notLit
      let otherValue := k.values other
      if 0 < otherValue then
        scanWatches notLit k rest (kept ++ [{ katch with blit := other }]) (ticks + 1)
      else match findReplacement k.values lits with
        | some i => scanWatches notLit (k.moveWatch reference other notLit i) rest kept (ticks + 1)
        | none =>
          if otherValue < 0 then ⟨k, kept ++ katch :: rest, ticks + 1, some reference⟩
          else scanWatches notLit (k.assign other reference) rest (kept ++ [katch]) (ticks + 1)

def propagateLiteral (k : Kitten) (lit : ℕ) : Kitten × Option ℕ :=
  let notLit := neg lit
  let watches := k.watches notLit
  let s := scanWatches notLit { k with watches := update k.watches notLit [] } watches []
    (watches.length / 16 + 1)
  ({ s.kitten with
      watches := update s.kitten.watches notLit s.kept
      ticks := s.kitten.ticks + s.ticks }, s.conflict)

def propagate : ℕ → Kitten → Option (Kitten × Option ℕ)
  | 0, _ => none
  | fuel + 1, k =>
    match k.trail[k.propagated]? with
    | none => some (k, none)
    | some lit =>
      let (k, conflict) := k.propagateLiteral lit
      let k := { k with propagated := k.propagated + 1 }
      if conflict.isSome then some (k, conflict) else propagate fuel k

def unassign (k : Kitten) (lit : ℕ) : Kitten :=
  let k := { k with
    values := update (update k.values lit 0) (neg lit) 0
    unassigned := k.unassigned + 1 }
  match k.queue.search with
  | none => k
  | some search =>
    if (k.links search).stamp < (k.links (lit / 2)).stamp then k.updateSearch (lit / 2) else k

def popTrail (jump : ℕ) : List ℕ → Kitten → Kitten × List ℕ
  | [], k => (k, [])
  | lit :: rest, k =>
    if (k.vars (lit / 2)).level = jump then (k, lit :: rest) else popTrail jump rest (k.unassign lit)

def backtrack (k : Kitten) (jump : ℕ) : Kitten :=
  let (k, rest) := popTrail jump k.trail.reverse k
  { k with trail := rest.reverse, propagated := rest.length, level := jump }

def unassignUnit (k : Kitten) (reference : ℕ) : Kitten :=
  let unit := k.word (wrap reference 3)
  if 0 < k.values unit then k.unassign unit else k

def completelyBacktrackToRootLevel (k : Kitten) : Kitten :=
  let k := k.trail.foldl unassign { k with trail := [] }
  let k := k.units.foldl unassignUnit k
  { k with propagated := 0, level := 0 }

def resetAssumptions (k : Kitten) : Kitten :=
  { k with
    failed := k.assumptions.foldl (fun failed a => update failed a false) k.failed
    assumptions := []
    failing := none }

def unsetCoreFrom : ℕ → ℕ → Kitten → Kitten
  | 0, _, k => k
  | fuel + 1, reference, k =>
    if reference < k.klauses.length then
      let k := if k.isCoreKlause reference then k.unsetCoreKlause reference else k
      let aux := if k.antecedents ∧ k.isLearnedKlause reference then k.klauseAux reference else 0
      unsetCoreFrom fuel (reference + 3 + k.klauseSize reference + aux) k
    else k

def resetCore (k : Kitten) : Kitten :=
  { unsetCoreFrom k.klauses.length 0 k with core := [] }

def resetIncremental (k : Kitten) : Kitten :=
  let k := k.completelyBacktrackToRootLevel
  let k := if k.assumptions.isEmpty then k else k.resetAssumptions
  let k := if k.status = .inconsistentCore then k.resetCore else k
  { k with status := .unsolved }

structure Analysis where
  kitten : Kitten
  «open» : ℕ
  jump : ℕ

def addLearned (klause : List ℕ) (lit : ℕ) (newJump : Bool) : List ℕ :=
  if newJump && 1 < klause.length then klause.set 1 lit ++ [klause.getD 1 0] else klause ++ [lit]

def analyzeLit (s : Analysis) (lit : ℕ) : Analysis :=
  let k := s.kitten
  let idx := lit / 2
  if k.marks idx then s
  else
    let k := { k with marks := update k.marks idx true, analyzed := k.analyzed ++ [idx] }
    let level := (k.vars idx).level
    if level < k.level then
      { s with
        kitten := { k with klause := addLearned k.klause lit (s.jump < level) }
        jump := max s.jump level }
    else { s with kitten := k, «open» := s.open + 1 }

def analyzeReason (s : Analysis) (reason : ℕ) : Analysis :=
  let k := { s.kitten with resolved := s.kitten.resolved ++ [reason] }
  (k.klauseLits reason).foldl analyzeLit { s with kitten := k }

def analyzeWalk : ℕ → Analysis → Option (Analysis × ℕ)
  | 0, _ => none
  | p + 1, s =>
    match s.kitten.trail[p]? with
    | none => none
    | some candidate =>
      if s.kitten.marks (candidate / 2) then
        let s := { s with «open» := s.open - 1 }
        if s.open = 0 then some (s, candidate)
        else analyzeWalk p (analyzeReason s (s.kitten.vars (candidate / 2)).reason)
      else analyzeWalk p s

def bump (k : Kitten) : Kitten :=
  let k := k.analyzed.foldl
    (fun k idx => moveToFront { k with marks := update k.marks idx false } idx) k
  { k with analyzed := [] }

def analyze (k : Kitten) (conflict : ℕ) : Option Kitten := do
  let start : Analysis := ⟨{ k with klause := k.klause ++ [INVALID] }, 0, 0⟩
  let (s, uip) ← analyzeWalk k.trail.length (analyzeReason start conflict)
  let notUip := neg uip
  let (k, learnedRef) := newLearnedKlause (bump { s.kitten with klause := s.kitten.klause.set 0 notUip })
  let k := { k with resolved := [], klause := [] }
  if learnedRef = INVALID then return k.backtrack 0
  else return (k.backtrack s.jump).assign notUip learnedRef

structure FailedScan where
  clashing : ℕ := INVALID
  first : ℕ := INVALID
  unit : ℕ := INVALID

def scanFailed (k : Kitten) : List ℕ → FailedScan → FailedScan
  | [], s => s
  | lit :: rest, s =>
    if 0 ≤ k.values lit then scanFailed k rest s
    else
      let s := if s.first = INVALID then { s with first := lit } else s
      let var := k.vars (lit / 2)
      if var.level = 0 then { s with unit := lit }
      else scanFailed k rest
        (if s.clashing = INVALID ∧ var.reason = INVALID then { s with clashing := lit } else s)

structure Failing where
  kitten : Kitten
  «open» : ℕ
  work : List ℕ

def failingLit (s : Failing) (other : ℕ) : Failing :=
  let k := s.kitten
  let idx := other / 2
  if k.marks idx then s
  else
    let k := { k with marks := update k.marks idx true, analyzed := k.analyzed ++ [idx] }
    if 0 < (k.vars idx).level then { s with kitten := k, «open» := s.open + 1 }
    else { s with kitten := k, work := s.work ++ [idx] }

def failDecision (k : Kitten) (idx : ℕ) : Kitten :=
  let lit := if k.values (2 * idx) < 0 then neg (2 * idx) else 2 * idx
  { k with failed := update k.failed lit true, klause := k.klause ++ [neg lit] }

def failingVar (s : Failing) (idx : ℕ) : Failing :=
  let reason := (s.kitten.vars idx).reason
  if reason = INVALID then { s with kitten := s.kitten.failDecision idx }
  else
    let k := { s.kitten with resolved := s.kitten.resolved ++ [reason] }
    (k.klauseLits reason).foldl failingLit { s with kitten := k }

def failingWalk : ℕ → Failing → Option Failing
  | p, s =>
    if s.open = 0 then some s
    else match p with
      | 0 => none
      | p + 1 =>
        match s.kitten.trail[p]? with
        | none => none
        | some candidate =>
          if s.kitten.marks (candidate / 2) then
            failingWalk p (failingVar { s with «open» := s.open - 1 } (candidate / 2))
          else failingWalk p s

def failingRoot (k : Kitten) (idx : ℕ) : Kitten :=
  let reason := (k.vars idx).reason
  if reason = INVALID then k.failDecision idx else { k with resolved := k.resolved ++ [reason] }

def clearMarks (k : Kitten) : Kitten :=
  { k with
    marks := k.analyzed.foldl (fun marks idx => update marks idx false) k.marks
    analyzed := [] }

def failingCore (k : Kitten) : Kitten :=
  let k := match k.resolved with
    | [reason] => { k with failing := some reason }
    | _ =>
      let (k, learnedRef) := k.newLearnedKlause
      if learnedRef = INVALID then k else { k with failing := some learnedRef }
  { k with resolved := [], klause := [] }

def failAssumptions (k : Kitten) : Option Kitten :=
  let s := scanFailed k k.assumptions {}
  let failed := if s.unit ≠ INVALID then s.unit
    else if s.clashing ≠ INVALID then s.clashing else s.first
  let idx := failed / 2
  let k := { k with failed := update k.failed failed true }
  if s.unit ≠ INVALID then some { k with failing := some (k.vars idx).reason }
  else if s.clashing ≠ INVALID then
    some { k with failed := update k.failed (neg failed) true }
  else do
    let k := { k with
      marks := update k.marks idx true
      analyzed := k.analyzed ++ [idx]
      klause := k.klause ++ [neg failed] }
    let s ← failingWalk k.trail.length ⟨k, 1, []⟩
    let k := s.work.foldl failingRoot s.kitten
    return failingCore (clearMarks k)

def flushTrail (k : Kitten) : Kitten := { k with propagated := 0, trail := [] }

inductive Assumed
  | all
  | failed
  | decide (lit : ℕ)

def takeAssumptions : Kitten → List ℕ → Kitten × Assumed
  | k, [] => (k, .all)
  | k, assumption :: rest =>
    if k.values assumption < 0 then (k, .failed)
    else if 0 < k.values assumption then takeAssumptions { k with level := k.level + 1 } rest
    else (k, .decide assumption)

def searchQueue (k : Kitten) : ℕ → ℕ → Option (Option ℕ)
  | 0, _ => none
  | fuel + 1, idx =>
    if idx = INVALID then some none
    else if k.values (idx * 2) = 0 then some (some idx)
    else searchQueue k fuel (k.links idx).prev

def decideOn (k : Kitten) (decision : ℕ) : Kitten :=
  assign { k with level := k.level + 1 } decision INVALID

def decide (fuel : ℕ) (interrupted : Bool) (k : Kitten) : Option (Kitten × Option KittenResult) := do
  let k := if k.level = 0 ∧ k.trail ≠ [] then k.flushTrail else k
  let (k, assumed) := takeAssumptions k (k.assumptions.drop k.level)
  match assumed with
  | .failed => do
    let k ← k.failAssumptions
    return (k, some (if k.exhausted then .unknown else .inconsistent))
  | _ =>
    if k.unassigned = 0 then return (k, some .satisfied)
    else if k.ticksLimit ≤ k.ticks then return (k, some .unknown)
    else if interrupted then return (k, some .unknown)
    else match assumed with
      | .decide lit => return (k.decideOn lit, none)
      | _ =>
        match k.queue.search with
        | none => return (k, some .unknown)
        | some idx =>
          match ← k.searchQueue fuel idx with
          | none => return (k, some .unknown)
          | some idx =>
            let k := k.updateSearch idx
            return (k.decideOn (2 * idx + k.phases idx), none)

def markRootLit (k : Kitten) (lit : ℕ) : Kitten :=
  let idx := lit / 2
  if k.marks idx then k
  else { k with marks := update k.marks idx true, analyzed := k.analyzed ++ [idx] }

def resolveRoot : ℕ → ℕ → ℕ → Kitten → Option Kitten
  | 0, _, _, _ => none
  | fuel + 1, next, reference, k =>
    let k := { k with resolved := k.resolved ++ [reference] }
    let k := (k.klauseLits reference).foldl markRootLit k
    match k.analyzed[next]? with
    | none => some k
    | some idx =>
      let reason := (k.vars idx).reason
      if reason = INVALID then some k else resolveRoot fuel (next + 1) reason k

def registerInconsistent (fuel : ℕ) (k : Kitten) (reference : ℕ) : Option Kitten :=
  if k.antecedents then do
    let k ← resolveRoot fuel 0 reference k
    let (k, learnedRef) := k.newLearnedKlause
    let k := { k with
      inconsistent := some (if learnedRef ≠ INVALID then learnedRef else reference) }
    return { clearMarks k with resolved := [] }
  else some { k with inconsistent := some reference }

/-- Assign the unit klauses from index `next` on; the second component is a falsified one. -/
def assignUnits : ℕ → ℕ → Kitten → Option (Kitten × Option ℕ)
  | 0, _, _ => none
  | fuel + 1, next, k =>
    match k.units[next]? with
    | none => some (k, none)
    | some reference =>
      let unit := (k.klauseLits reference).getD 0 0
      if 0 < k.values unit then assignUnits fuel (next + 1) k
      else if k.values unit < 0 then some (k, some reference)
      else assignUnits fuel (next + 1) (k.assign unit reference)

def propagateUnits (fuel : ℕ) (k : Kitten) : Option (Kitten × Option KittenResult) :=
  if k.inconsistent.isSome then some (k, some .inconsistent)
  else if k.units.isEmpty then some (k, none)
  else do
    let (k, falsified) ← assignUnits fuel 0 k
    match falsified with
    | some reference => return (← registerInconsistent fuel k reference, some .inconsistent)
    | none =>
      let (k, conflict) ← propagate fuel k
      match conflict with
      | none => return (k, none)
      | some reference => return (← registerInconsistent fuel k reference, some .inconsistent)

def solveStep (fuel : ℕ) (interrupted : Bool) (k : Kitten) :
    Option (Kitten × Option KittenResult) := do
  let (k, conflict) ← propagate fuel k
  match conflict with
  | some reference =>
    if 0 < k.level then do
      let k ← k.analyze reference
      return (k, if k.exhausted then some .unknown else none)
    else return (← registerInconsistent fuel k reference, some .inconsistent)
  | none => decide fuel interrupted k

def solveLoop (interrupt : ℕ → Bool) : ℕ → Kitten → Option (Kitten × KittenResult)
  | 0, _ => none
  | fuel + 1, k => do
    let (k, result) ← solveStep fuel (interrupt fuel) k
    match result with
    | some result => return (k, result)
    | none => solveLoop interrupt fuel k

def finish (k : Kitten) (result : KittenResult) : Kitten :=
  let k := if result = .unknown ∧ k.assumptions ≠ [] then k.resetAssumptions else k
  { k with status := match result with
      | .satisfied => .satisfied
      | .inconsistent => .inconsistent
      | .unknown => .unsolved }

def solve (fuel : ℕ) (interrupt : ℕ → Bool) (k : Kitten) : Option (Kitten × KittenResult) :=
  if k.exhausted then some (k, .unknown)
  else do
    let k := if k.status ≠ .unsolved then k.resetIncremental else k.completelyBacktrackToRootLevel
    let (k, result) ← propagateUnits fuel k
    let (k, result) ← match result with
      | some result => some (k, result)
      | none => solveLoop interrupt fuel k
    return (k.finish result, result)

def assume (k : Kitten) (elit : ℕ) : Kitten :=
  if externalLiteralSane elit then
    let k := if k.status ≠ .unsolved then k.resetIncremental else k
    let (k, ilit) := k.importLiteral elit
    { k with assumptions := k.assumptions ++ [ilit] }
  else k

def importInto (except : ℕ) (k : Kitten) (elit : ℕ) : Kitten :=
  if elit = except then k
  else if externalLiteralSane elit then
    let (k, ilit) := k.importLiteral elit
    if k.marks (ilit / 2) then k
    else { k with marks := update k.marks (ilit / 2) true, klause := k.klause ++ [ilit] }
  else k

def clauseWithIdAndException (k : Kitten) (id : ℕ) (elits : List ℕ) (except : ℕ) : Kitten :=
  let k := if k.status ≠ .unsolved then k.resetIncremental else k
  let k := elits.foldl (importInto except) k
  let k := { k with
    marks := k.klause.foldl (fun marks ilit => update marks (ilit / 2) false) k.marks }
  { newOriginalKlause k id with klause := [] }

def internal (k : Kitten) (elit : ℕ) : Option ℕ :=
  let eidx := elit / 2
  if k.evars ≤ eidx then none
  else if k.importTable eidx = 0 then none
  else some (2 * (k.importTable eidx - 1) + elit % 2)

def value (k : Kitten) (elit : ℕ) : ℤ :=
  if k.status ≠ .satisfied then 0
  else match k.internal elit with
    | none => 0
    | some ilit => k.values ilit

def failedAssumption (k : Kitten) (elit : ℕ) : Bool :=
  if k.status ≠ .inconsistent then false
  else match k.internal elit with
    | none => false
    | some ilit => k.failed ilit

/-- The work list of the depth-first walk: `INVALID` above a reference closes that klause. -/
def coreWalk : ℕ → List ℕ → Kitten → Option Kitten
  | 0, _, _ => none
  | _ + 1, [], k => some k
  | fuel + 1, cRef :: stack, k =>
    if cRef = INVALID then
      match stack with
      | [] => some k
      | dRef :: stack => coreWalk fuel stack (setCoreKlause { k with core := k.core ++ [dRef] } dRef)
    else if k.isCoreKlause cRef then coreWalk fuel stack k
    else if k.isLearnedKlause cRef then
      let pending := (k.klauseAntecedents cRef).filter fun dRef => !k.isCoreKlause dRef
      coreWalk fuel (pending.reverse ++ INVALID :: cRef :: stack) k
    else coreWalk fuel (INVALID :: cRef :: stack) k

def computeClausalCore (fuel : ℕ) (k : Kitten) : Option Kitten :=
  if k.status ≠ .inconsistent ∨ k.antecedents = false then some k
  else match k.inconsistent.or k.failing with
    | none => some { k with status := .inconsistentCore }
    | some reasonRef => do
      let k ← coreWalk fuel [reasonRef] k
      return { k with status := .inconsistentCore }

def traverseCoreClauses (k : Kitten) : List (Bool × List ℕ) :=
  if k.status ≠ .inconsistentCore then []
  else k.core.map fun cRef => (k.isLearnedKlause cRef, (k.klauseLits cRef).map k.exportLiteral)

end Nixie.Kitten
