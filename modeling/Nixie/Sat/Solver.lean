import Mathlib.Data.List.Nodup
import Nixie.Propositional

/-!
The assignment trail `nixie-sat/src/trail.rs`.  A literal may be recorded at a level below the one
it is appended at; backtracking keeps it by its recorded level and moves the propagation head back
to the boundary it stands above.
-/

namespace Nixie.Sat

open Nixie.Literal Function

inductive Reason
  | decision
  | propagation (clause : ℕ)
  | theory
  deriving DecidableEq

structure VarInfo where
  level : ℕ := 0
  reason : Reason := .decision
  trailIdx : ℕ := 0
  deriving DecidableEq

structure Trail where
  assignments : List ℕ := []
  values : ℕ → ℤ := fun _ => 0
  varInfo : ℕ → VarInfo := fun _ => {}
  levelStarts : List ℕ := [0]
  currentLevel : ℕ := 0
  propHead : ℕ := 0

namespace Trail

def litVal (t : Trail) (lit : ℕ) : ℤ := t.values lit

def isAssigned (t : Trail) (var : ℕ) : Bool := t.values (2 * var) ≠ 0

def level (t : Trail) (var : ℕ) : ℕ := (t.varInfo var).level

def reason (t : Trail) (var : ℕ) : Reason := (t.varInfo var).reason

section

variable (t : Trail)

def levelStart (level : ℕ) : ℕ := t.levelStarts.getD level t.assignments.length

def newDecisionLevel : Trail :=
  { t with
    currentLevel := t.currentLevel + 1
    levelStarts := t.levelStarts ++ [t.assignments.length] }

def assignAt (lit : ℕ) (reason : Reason) (level : ℕ) : Trail :=
  { t with
    values := update (update t.values lit 1) (neg lit) (-1)
    varInfo := update t.varInfo (lit / 2) ⟨level, reason, t.assignments.length⟩
    assignments := t.assignments ++ [lit] }

def assign (lit : ℕ) (reason : Reason) : Trail := t.assignAt lit reason t.currentLevel

def assignDecision (lit : ℕ) : Trail := t.assign lit .decision

def assignPropagation (lit clause : ℕ) : Trail := t.assign lit (.propagation clause)

def nextToPropagate : Option (ℕ × Trail) :=
  t.assignments[t.propHead]?.map fun lit => (lit, { t with propHead := t.propHead + 1 })

def requeueLastPropagated : Trail := { t with propHead := t.propHead - 1 }

def resetPropagationHead : Trail := { t with propHead := 0 }

def unassign (lit : ℕ) : Trail :=
  { t with
    values := update (update t.values lit 0) (neg lit) 0
    varInfo := update t.varInfo (lit / 2) {} }

def keep (lit : ℕ) : Trail :=
  { t with
    assignments := t.assignments ++ [lit]
    varInfo := update t.varInfo (lit / 2)
      { t.varInfo (lit / 2) with trailIdx := t.assignments.length } }

end

/-- Go through the literals above the boundary: drop those recorded above `level` and hand them to
the callback, append the others to the part of the trail that stays. -/
def compact (level : ℕ) : List ℕ → Trail → Trail × List ℕ
  | [], t => (t, [])
  | lit :: rest, t =>
    if level < t.level (lit / 2) then
      let (t, called) := compact level rest (t.unassign lit)
      (t, lit :: called)
    else compact level rest (t.keep lit)

def backtrackToWithCallback (t : Trail) (level : ℕ) : Trail × List ℕ :=
  if t.currentLevel ≤ level then (t, [])
  else
    let boundary := t.levelStarts.getD (level + 1) 0
    let (s, called) := compact level (t.assignments.drop boundary)
      { t with assignments := t.assignments.take boundary }
    ({ s with
      levelStarts := t.levelStarts.take (level + 1)
      currentLevel := level
      propHead := min t.propHead boundary }, called)

def backtrackTo (t : Trail) (level : ℕ) : Trail := (t.backtrackToWithCallback level).1

def clearValues : List ℕ → (ℕ → ℤ) → ℕ → ℤ
  | [], values => values
  | lit :: lits, values =>
    clearValues lits (update (update values lit 0) (neg lit) 0)

def clear (t : Trail) : Trail :=
  { t with
    values := clearValues t.assignments t.values
    assignments := []
    levelStarts := [0]
    currentLevel := 0
    propHead := 0 }

section

variable {t : Trail} {lit level : ℕ} {reason : Reason}

def segment (t : Trail) (p : ℕ) : ℕ := (t.levelStarts.drop 1).countP (· ≤ p)

structure Valid (t : Trail) : Prop where
  nodup : (t.assignments.map (· / 2)).Nodup
  values : ∀ l, t.values l = if l ∈ t.assignments then 1 else if neg l ∈ t.assignments then -1 else 0
  index : ∀ p l, t.assignments[p]? = some l → (t.varInfo (l / 2)).trailIdx = p
  starts : t.levelStarts.length = t.currentLevel + 1
  sorted : t.levelStarts.Pairwise (· ≤ ·)
  bound : ∀ x ∈ t.levelStarts, x ≤ t.assignments.length
  level : ∀ p l, t.assignments[p]? = some l → t.level (l / 2) ≤ t.segment p
  head : t.propHead ≤ t.assignments.length

theorem valid_empty : Valid {} := by
  refine ⟨by simp, by simp, by simp, rfl, by simp, by simp, by simp, by simp⟩

section

variable (h : Valid t)
include h

theorem Valid.mem_iff {l : ℕ} : l ∈ t.assignments ↔ t.values l = 1 := by
  rw [h.values]
  split
  · simp [*]
  · split <;> simp [*]

theorem Valid.unique {l m : ℕ} (hl : l ∈ t.assignments) (hm : m ∈ t.assignments) (hv : l / 2 = m / 2) : l = m :=
  List.inj_on_of_nodup_map h.nodup hl hm hv

theorem Valid.neg_mem_iff {l : ℕ} : neg l ∈ t.assignments ↔ t.values l = -1 := by
  rw [h.values]
  by_cases hl : l ∈ t.assignments
  · have hne : neg l ∉ t.assignments := fun hn => neg_ne l (h.unique hn hl (neg_div_two l))
    simp [hl, hne]
  · by_cases hn : neg l ∈ t.assignments
    · simp [hl, hn]
    · simp [hl, hn]

theorem Valid.fresh (hl : t.values lit = 0) : ∀ m ∈ t.assignments, m / 2 ≠ lit / 2 := by
  intro m hm hv
  rcases eq_or_eq_neg hv with rfl | rfl
  · simp [h.mem_iff.mp hm] at hl
  · simp [h.neg_mem_iff.mp hm] at hl

theorem Valid.segment_le (p : ℕ) : t.segment p ≤ t.currentLevel := by
  unfold segment
  refine List.countP_le_length.trans ?_
  rw [List.length_drop, h.starts]
  omega

theorem Valid.level_le {l : ℕ} (hl : l ∈ t.assignments) : t.level (l / 2) ≤ t.currentLevel := by
  obtain ⟨p, hp⟩ := List.mem_iff_getElem?.mp hl
  exact (h.level p l hp).trans (h.segment_le p)

end

end

end Trail

structure Clause where
  lits : List ℕ
  learned : Bool := false
  /-- Where the search for a replacement watch resumes. -/
  searched : ℕ := 2
  deriving DecidableEq

structure Watcher where
  clause : ℕ
  blocker : ℕ
  deriving DecidableEq

structure Solver where
  trail : Trail := {}
  clauses : ℕ → Option Clause := fun _ => none
  nextId : ℕ := 0
  watches : ℕ → List Watcher := fun _ => []
  binaryGraph : ℕ → List (ℕ × ℕ) := fun _ => []
  learnedClauseIds : List ℕ := []
  propagateStepLimit : Option ℕ := none
  propagateAborted : Bool := false
  enableLazyHyperBinary : Bool := false

namespace Solver

section

variable (s : Solver)

def setClause (id : ℕ) (c : Clause) : Solver :=
  { s with clauses := update s.clauses id (some c) }

def addClauseToDb (c : Clause) : Solver × ℕ :=
  ({ s.setClause s.nextId c with nextId := s.nextId + 1 }, s.nextId)

def addWatch (lit : ℕ) (w : Watcher) : Solver :=
  { s with watches := update s.watches lit (s.watches lit ++ [w]) }

def addBinary (lit implied id : ℕ) : Solver :=
  { s with binaryGraph := update s.binaryGraph lit (s.binaryGraph lit ++ [(implied, id)]) }

def attachWatchers (id l0 l1 : ℕ) : Solver :=
  match s.clauses id with
  | none => s
  | some c =>
    if c.lits.length = 2 then (s.addBinary (neg l0) l1 id).addBinary (neg l1) l0 id
    else (s.addWatch (neg l0) ⟨id, l1⟩).addWatch (neg l1) ⟨id, l0⟩

def hasBinaryImplication (lit implied : ℕ) : Bool :=
  (s.binaryGraph lit).any fun e => e.1 = implied

end

/-- The literals of the reason beside `implied`, when all of them are false: those of the current
level, and whether one stands at a level in between. -/
def hyperBinaryScan (s : Solver) (implied : ℕ) : List ℕ → Option (List ℕ × Bool)
  | [] => some ([], false)
  | lit :: lits =>
    if lit = implied then hyperBinaryScan s implied lits
    else if s.trail.litVal lit < 0 then do
      let (current, other) ← hyperBinaryScan s implied lits
      let level := s.trail.level (lit / 2)
      if level = s.trail.currentLevel then return (lit :: current, other)
      else return (current, other || decide (0 < level))
    else none

def checkHyperBinaryResolution (s : Solver) (implied reasonId : ℕ) : Solver :=
  if s.trail.currentLevel < 2 then s
  else match s.clauses reasonId with
    | none => s
    | some c =>
      if c.lits.length < 2 ∨ 4 < c.lits.length then s
      else match s.hyperBinaryScan implied c.lits with
        | some ([other], false) =>
          if s.hasBinaryImplication (neg other) implied then s
          else
            let (s, id) := s.addClauseToDb { lits := [other, implied], learned := true }
            let s := { s with learnedClauseIds := s.learnedClauseIds ++ [id] }
            (s.addBinary (neg other) implied id).addBinary (neg implied) other id
        | _ => s

def consider (t : Trail) : ℕ → List ℕ → Option (ℕ × ℕ)
  | _, [] => none
  | i, lit :: lits => if t.litVal lit < 0 then consider t (i + 1) lits else some (i, lit)

def findSavedPosHit (t : Trail) (tail : List ℕ) (searched : ℕ) : Option (ℕ × ℕ) :=
  let start := if tail.length ≤ searched - 2 then 0 else searched - 2
  (consider t start (tail.drop start)).or (consider t 0 (tail.take start))

def savedPosStore (i : ℕ) : ℕ := min (i + 2) 255

inductive Visit
  | drop
  | keep (w : Watcher)
  | conflict (w : Watcher)
  deriving DecidableEq

def repair (s : Solver) (id a b : ℕ) : Solver :=
  let s := if (s.watches (neg a)).any fun w => w.clause = id then s else s.addWatch (neg a) ⟨id, b⟩
  if (s.watches (neg b)).any fun w => w.clause = id then s else s.addWatch (neg b) ⟨id, a⟩

def unitPropagate (s : Solver) (first id : ℕ) : Solver :=
  let s := { s with trail := s.trail.assignPropagation first id }
  if s.enableLazyHyperBinary then s.checkHyperBinaryResolution first id else s

def visitClause (s : Solver) (falseLit : ℕ) (w : Watcher) (c : Clause) : Solver × Visit :=
  match c.lits with
  | a :: b :: tail =>
    if a ≠ falseLit ∧ b ≠ falseLit then (s.repair w.clause a b, .drop)
    else
      let first := a ^^^ b ^^^ falseLit
      let c := { c with lits := first :: falseLit :: tail }
      if 0 < s.trail.litVal first then (s.setClause w.clause c, .keep { w with blocker := first })
      else match findSavedPosHit s.trail tail c.searched with
        | some (i, lit) =>
          let c := { c with searched := savedPosStore i }
          if 0 < s.trail.litVal lit then (s.setClause w.clause c, .keep { w with blocker := lit })
          else
            let c := { c with lits := first :: lit :: tail.set i falseLit }
            ((s.setClause w.clause c).addWatch (neg lit) { w with blocker := first }, .drop)
        | none =>
          let s := s.setClause w.clause c
          if s.trail.litVal first < 0 then (s, .conflict { w with blocker := first })
          else (s.unitPropagate first w.clause, .keep { w with blocker := first })
  | _ => (s, .drop)

def visitWatcher (s : Solver) (falseLit : ℕ) (w : Watcher) : Solver × Visit :=
  if 0 < s.trail.litVal w.blocker then (s, .keep w)
  else match s.clauses w.clause with
    | none => (s, .drop)
    | some c => s.visitClause falseLit w c

def scanWatches (falseLit : ℕ) : List Watcher → Solver → Solver × List Watcher × Option ℕ
  | [], s => (s, [], none)
  | w :: ws, s =>
    match s.visitWatcher falseLit w with
    | (s, .drop) => scanWatches falseLit ws s
    | (s, .keep w) =>
      let (s, kept, conflict) := scanWatches falseLit ws s
      (s, w :: kept, conflict)
    | (s, .conflict w) => (s, w :: ws, some w.clause)

def propagateEdges : List (ℕ × ℕ) → Solver → Solver × Option ℕ
  | [], s => (s, none)
  | (implied, id) :: edges, s =>
    if s.trail.litVal implied < 0 then (s, some id)
    else if s.trail.litVal implied = 0 then
      propagateEdges edges { s with trail := s.trail.assignPropagation implied id }
    else propagateEdges edges s

def propagateLit (s : Solver) (lit : ℕ) : Solver × Option ℕ :=
  match propagateEdges (s.binaryGraph lit) s with
  | (s, some id) => (s, some id)
  | (s, none) =>
    let watches := s.watches lit
    let (s, kept, conflict) :=
      scanWatches (neg lit) watches { s with watches := update s.watches lit [] }
    ({ s with watches := update s.watches lit kept }, conflict)

def propagate : ℕ → Solver → Option (Solver × Option ℕ)
  | 0, _ => none
  | fuel + 1, s =>
    match s.trail.nextToPropagate with
    | none => some (s, none)
    | some (lit, trail) =>
      let s := { s with trail := trail }
      if s.propagateStepLimit = some 0 then some ({ s with propagateAborted := true }, none)
      else
        let s := { s with propagateStepLimit := s.propagateStepLimit.map (· - 1) }
        match s.propagateLit lit with
        | (s, some id) => some ({ s with trail := s.trail.requeueLastPropagated }, some id)
        | (s, none) => propagate fuel s

def backtrackTo (s : Solver) (level : ℕ) : Solver := { s with trail := s.trail.backtrackTo level }

end Solver

end Nixie.Sat
