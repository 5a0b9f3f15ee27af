import Mathlib.Algebra.Order.BigOperators.Group.List
import Mathlib.Algebra.Order.Ring.Cast
import Mathlib.Algebra.Order.Ring.Rat
import Mathlib.Algebra.Order.Ring.WithTop
import Nixie.Sat.Counting

/-!
Weights, soft clauses and the solver's state, `nixie-opt/src/maxsat/{core,types}.rs`.  The SAT solver is a
parameter: what its call with a given number answers on the clauses and assumptions.
-/

namespace Nixie.Opt

open Literal Nixie.Sat List

inductive Weight
  | int (n : ℤ)
  | rational (r : ℚ)
  | infinite

namespace Weight

def asRationalValue : Weight → ℚ
  | int n => n
  | rational r => r
  | infinite => 0

def cmpValue : Weight → Weight → Ordering
  | infinite, infinite => .eq
  | infinite, _ => .gt
  | _, infinite => .lt
  | int a, int b => compare a b
  | a, b => compare a.asRationalValue b.asRationalValue

instance : BEq Weight := ⟨fun a b => a.cmpValue b == .eq⟩

def zero : Weight := int 0

def add : Weight → Weight → Weight
  | infinite, _ => infinite
  | _, infinite => infinite
  | int a, int b => int (a + b)
  | rational a, rational b => rational (a + b)
  | int a, rational b => rational (a + b)
  | rational b, int a => rational (a + b)

protected def min (a b : Weight) : Weight := if b.cmpValue a = .lt then b else a

def mulScalar (w : Weight) (scalar : ℤ) : Weight :=
  if scalar = 0 then zero
  else if scalar < 0 then zero
  else
    match w with
    | infinite => infinite
    | int n => int (n * scalar)
    | rational r => rational (r * scalar)

def value : Weight → WithTop ℚ
  | int n => ((n : ℚ) : WithTop ℚ)
  | rational r => (r : WithTop ℚ)
  | infinite => ⊤

theorem cmpValue_eq_iff {a b : Weight} : a.cmpValue b = .eq ↔ a.value = b.value := by
  cases a <;> cases b <;>
    simp [cmpValue, asRationalValue, value, WithTop.coe_inj]

theorem cmpValue_lt_iff {a b : Weight} : a.cmpValue b = .lt ↔ a.value < b.value := by
  cases a <;> cases b
  case int.int m n =>
    rw [cmpValue, compare_lt_iff_lt, value, value, WithTop.coe_lt_coe, Int.cast_lt]
  all_goals
    simp [cmpValue, asRationalValue, value, WithTop.coe_lt_coe, compare_lt_iff_lt, WithTop.coe_lt_top]

theorem beq_iff {a b : Weight} : (a == b) = true ↔ a.value = b.value := by
  rw [← cmpValue_eq_iff]
  exact beq_iff_eq (α := Ordering)

@[simp]
theorem value_zero : zero.value = 0 := by simp [zero, value]

theorem value_add (a b : Weight) : (a.add b).value = a.value + b.value := by
  cases a <;> cases b <;> simp [add, value, ← WithTop.coe_add, add_comm]

theorem value_min (a b : Weight) : (a.min b).value = min a.value b.value := by
  unfold Weight.min
  split
  case isTrue hlt => exact (min_eq_right (cmpValue_lt_iff.mp hlt).le).symm
  case isFalse hlt => exact (min_eq_left (not_lt.mp fun h => hlt (cmpValue_lt_iff.mpr h))).symm

end Weight

structure SoftClause where
  id : ℕ
  lits : List ℕ
  weight : Weight
  value : Option Bool

namespace SoftClause

def new (id : ℕ) (lits : List ℕ) (weight : Weight) : SoftClause := ⟨id, lits, weight, none⟩

def setValue (c : SoftClause) (satisfied : Bool) : SoftClause := { c with value := some satisfied }

end SoftClause

inductive MaxSatError
  | unsatisfiable
  | solverError (text : String)
  | resourceLimit
  deriving DecidableEq

inductive MaxSatResult
  | optimal
  | satisfiable
  | unsatisfiable
  | unknown
  deriving DecidableEq

inductive MaxSatAlgorithm
  | fuMalik
  | oll
  | msu3
  | wMax
  | pmres
  deriving DecidableEq

structure MaxSatConfig where
  maxIterations : ℕ := 100000
  stratified : Bool := true
  algorithm : MaxSatAlgorithm := .fuMalik

inductive Verdict
  | sat (model : List (Option Bool))
  | unsat (core : Option (List ℕ))
  | unknown

abbrev SatSolver := ℕ → List (List ℕ) → List ℕ → Verdict

structure MaxSatSolver where
  hardClauses : List (List ℕ) := []
  softClauses : List SoftClause := []
  nextSoftId : ℕ := 0
  config : MaxSatConfig := {}
  satCalls : ℕ := 0
  lowerBound : Weight := .zero
  upperBound : Weight := .infinite
  bestModel : Option (List (Option Bool)) := none

abbrev Outcome := Except MaxSatError MaxSatResult × MaxSatSolver

namespace MaxSatSolver

def withConfig (config : MaxSatConfig) : MaxSatSolver := { config := config }

def addHard (s : MaxSatSolver) (lits : List ℕ) : MaxSatSolver :=
  { s with hardClauses := s.hardClauses ++ [lits] }

def addSoftWeighted (s : MaxSatSolver) (lits : List ℕ) (weight : Weight) : MaxSatSolver :=
  { s with
    nextSoftId := s.nextSoftId + 1
    softClauses := s.softClauses ++ [.new s.nextSoftId lits weight]
    upperBound := s.upperBound.add weight }

def cost (s : MaxSatSolver) : Weight := s.lowerBound

def fresh (config : MaxSatConfig) (hard : List (List ℕ)) (soft : List (List ℕ × Weight)) : MaxSatSolver :=
  soft.foldl (fun s p => s.addSoftWeighted p.1 p.2) (hard.foldl addHard (withConfig config))

end MaxSatSolver

def litHolds (model : List (Option Bool)) (lit : ℕ) : Bool :=
  if lit / 2 < model.length then
    let val := model.getD (lit / 2) none
    (val == some true && lit % 2 == 0) || (val == some false && lit % 2 != 0)
  else false

def updateSoftValues (s : MaxSatSolver) : MaxSatSolver :=
  match s.bestModel with
  | none => s
  | some model =>
    { s with softClauses := s.softClauses.map fun c => c.setValue (c.lits.any (litHolds model)) }

def Correct (solver : SatSolver) : Prop :=
  ∀ call clauses assumptions, match solver call clauses assumptions with
    | .sat model => (∀ c ∈ clauses, ∃ lit ∈ c, litHolds model lit) ∧ ∀ lit ∈ assumptions, litHolds model lit
    | .unsat core => core.getD [] ⊆ assumptions ∧
        ∀ σ, Satisfies σ clauses → ∃ lit ∈ core.getD [], ¬ isTrue σ lit
    | .unknown => True

def Decides (solver : SatSolver) : Prop :=
  ∀ call clauses assumptions, match solver call clauses assumptions with
    | .unknown => False
    | _ => True

def violatedWeight (holds : ℕ → Bool) (soft : List (List ℕ × Weight)) : WithTop ℚ :=
  ((soft.filter fun p => !p.1.any holds).map fun p => p.2.value).sum

section

variable {model : List (Option Bool)} {solver : SatSolver} {call lit : ℕ} {clauses : List (List ℕ)}
  {assumptions : List ℕ} {σ : ℕ → Bool} {soft : List (List ℕ × Weight)}

def completion (model : List (Option Bool)) (v : ℕ) : Bool := model.getD v none == some true

theorem isTrue_completion (h : litHolds model lit) : isTrue (completion model) lit := by
  unfold litHolds at h
  split at h
  case isTrue hlt =>
    rw [Sat.isTrue, completion]
    simp only [Bool.or_eq_true, Bool.and_eq_true, beq_iff_eq, bne_iff_ne] at h
    rcases h with ⟨hval, heven⟩ | ⟨hval, hodd⟩
    · simp only [hval, heven, beq_self_eq_true]
    · simp [-getD_eq_getElem?_getD, hval, hodd]
  case isFalse => cases h

theorem satisfies_completion (h : ∀ c ∈ clauses, ∃ lit ∈ c, litHolds model lit) :
    Satisfies (completion model) clauses := by
  intro c hc
  obtain ⟨lit, hlit, hholds⟩ := h c hc
  exact ⟨lit, hlit, isTrue_completion hholds⟩

theorem Correct.sat (h : Correct solver) (hanswer : solver call clauses assumptions = .sat model) :
    (∀ c ∈ clauses, ∃ lit ∈ c, litHolds model lit) ∧ ∀ lit ∈ assumptions, litHolds model lit := by
  have hcall := h call clauses assumptions
  rwa [hanswer] at hcall

theorem Correct.unsat (h : Correct solver) {core : Option (List ℕ)}
    (hanswer : solver call clauses assumptions = .unsat core) :
    core.getD [] ⊆ assumptions ∧ ∀ σ, Satisfies σ clauses → ∃ lit ∈ core.getD [], ¬ isTrue σ lit := by
  have hcall := h call clauses assumptions
  rwa [hanswer] at hcall

theorem Decides.ne_unknown (h : Decides solver) : solver call clauses assumptions ≠ .unknown := by
  intro hanswer
  have hcall := h call clauses assumptions
  rwa [hanswer] at hcall

theorem Correct.unsat_nil (h : Correct solver) {core : Option (List ℕ)}
    (hanswer : solver call clauses [] = .unsat core) : ¬ Satisfies σ clauses := by
  obtain ⟨hsub, hcore⟩ := h.unsat hanswer
  intro hsat
  obtain ⟨lit, hlit, -⟩ := hcore σ hsat
  exact not_mem_nil (hsub hlit)

theorem violatedWeight_nil {holds : ℕ → Bool} : violatedWeight holds [] = 0 := rfl

theorem violatedWeight_cons {holds : ℕ → Bool} {p : List ℕ × Weight} : violatedWeight holds (p :: soft) =
    (if p.1.any holds then 0 else p.2.value) + violatedWeight holds soft := by
  unfold violatedWeight
  by_cases h : p.1.any holds = true
  · rw [filter_cons_of_neg (by simp only [h, Bool.not_true]; exact Bool.false_ne_true), if_pos h, zero_add]
  · rw [filter_cons_of_pos (by simpa using h), if_neg h, map_cons, sum_cons]

end

namespace MaxSatSolver

variable {config : MaxSatConfig} {hard : List (List ℕ)} {soft : List (List ℕ × Weight)}

structure Holds (s : MaxSatSolver) (config : MaxSatConfig) (hard : List (List ℕ))
    (soft : List (List ℕ × Weight)) : Prop where
  config : s.config = config
  hardClauses : s.hardClauses = hard
  softClauses : s.softClauses.map (fun c => (c.lits, c.weight)) = soft
  ids : s.softClauses.map SoftClause.id = List.range soft.length
  lowerBound : s.lowerBound.value = 0

theorem Holds.addSoftWeighted {s : MaxSatSolver} (h : Holds s config hard soft)
    (hnext : s.nextSoftId = soft.length) (lits : List ℕ) (weight : Weight) :
    Holds (s.addSoftWeighted lits weight) config hard (soft ++ [(lits, weight)]) where
  config := h.config
  hardClauses := h.hardClauses
  softClauses := by simp [MaxSatSolver.addSoftWeighted, h.softClauses, SoftClause.new]
  ids := by
    simp [MaxSatSolver.addSoftWeighted, h.ids, SoftClause.new, hnext, range_succ]
  lowerBound := h.lowerBound

theorem hardClauses_foldl (s : MaxSatSolver) :
    hard.foldl addHard s = { s with hardClauses := s.hardClauses ++ hard } := by
  induction hard generalizing s with
  | nil => simp
  | cons c hard ih => rw [foldl_cons, ih]; simp [addHard]

theorem holds_fresh : Holds (fresh config hard soft) config hard soft := by
  suffices h : ∀ (rest : List (List ℕ × Weight)) (s : MaxSatSolver) (done : List (List ℕ × Weight)),
      Holds s config hard done → s.nextSoftId = done.length →
        Holds (rest.foldl (fun s p => s.addSoftWeighted p.1 p.2) s) config hard (done ++ rest) by
    rw [fresh, hardClauses_foldl]
    exact h soft _ [] ⟨rfl, by simp [withConfig], rfl, rfl, Weight.value_zero⟩ rfl
  intro rest
  induction rest with
  | nil => intro s done h _; simpa using h
  | cons p rest ih =>
    intro s done h hnext
    have hstep := ih _ (done ++ [p]) (h.addSoftWeighted hnext p.1 p.2) (by simp [MaxSatSolver.addSoftWeighted, hnext])
    rwa [append_assoc, singleton_append] at hstep

end MaxSatSolver

def numVars (clauses : List (List ℕ)) : ℕ := (clauses.flatten.map fun lit => lit / 2 + 1).foldr max 0

def tables : ℕ → List (List Bool)
  | 0 => [[]]
  | n + 1 => (tables n).flatMap fun t => [false :: t, true :: t]

def row (t : List Bool) (v : ℕ) : Bool := t.getD v false

def truthTable : SatSolver := fun _ clauses assumptions =>
  let goals := clauses ++ assumptions.map ([·])
  match (tables (numVars goals)).find? fun t => goals.all fun c => c.any (Sat.isTrue (row t)) with
  | some t => .sat (t.map some)
  | none => .unsat (some assumptions)

section

variable {clauses : List (List ℕ)} {t : List Bool} {n lit : ℕ} {σ : ℕ → Bool}

theorem mem_tables : t ∈ tables n ↔ t.length = n := by
  induction n generalizing t with
  | zero => simp [tables]
  | succ n ih =>
    simp only [tables, mem_flatMap, ih, mem_cons, not_mem_nil, or_false]
    constructor
    · rintro ⟨t', rfl, rfl | rfl⟩ <;> rfl
    · intro hlength
      cases t with
      | nil => cases hlength
      | cons b t => exact ⟨t, Nat.succ.inj hlength, by cases b <;> simp⟩

theorem below_numVars : ∀ c ∈ clauses, Below (numVars clauses) c := by
  have hmax : ∀ (bounds : List ℕ), ∀ b ∈ bounds, b ≤ bounds.foldr max 0 := by
    intro bounds
    induction bounds with
    | nil => exact fun b hb => absurd hb not_mem_nil
    | cons b bounds ih =>
      refine forall_mem_cons.mpr ⟨le_max_left _ _, fun b' hb' => (ih b' hb').trans (le_max_right _ _)⟩
  intro c hc lit hlit
  exact hmax _ _ (mem_map_of_mem (mem_flatten.mpr ⟨c, hc, hlit⟩))

theorem litHolds_row (hlit : lit / 2 < t.length) (h : Sat.isTrue (row t) lit = true) :
    litHolds (t.map some) lit = true := by
  rw [litHolds, if_pos (by rwa [length_map])]
  have hval : (t.map some).getD (lit / 2) none = some (row t (lit / 2)) := by
    rw [row, getD_eq_getElem _ _ (by rwa [length_map]), getD_eq_getElem _ _ hlit, getElem_map]
  rw [hval]
  unfold Sat.isTrue at h
  generalize row t (lit / 2) = b at h
  have hbit := Nat.mod_two_eq_zero_or_one lit
  cases b <;> rcases hbit with hbit | hbit <;> simp_all

theorem row_agree (σ : ℕ → Bool) (n : ℕ) : ∃ t ∈ tables n, ∀ v < n, row t v = σ v := by
  refine ⟨(List.range n).map σ, mem_tables.mpr (by simp), fun v hv => ?_⟩
  rw [row, getD_eq_getElem _ _ (by simpa using hv), getElem_map, getElem_range]

theorem truthTable_correct : Correct truthTable := by
  intro call clauses assumptions
  unfold truthTable
  dsimp only
  have hbelow := @below_numVars (clauses ++ assumptions.map ([·]))
  generalize numVars (clauses ++ assumptions.map ([·])) = n at hbelow
  cases hfind : (tables n).find? fun t =>
      (clauses ++ assumptions.map ([·])).all fun c => c.any (Sat.isTrue (row t)) with
  | some t =>
    have hlength := mem_tables.mp (mem_of_find?_eq_some hfind)
    have hall := find?_some hfind
    rw [all_eq_true] at hall
    have hholds : ∀ c ∈ clauses ++ assumptions.map ([·]), ∃ lit ∈ c, litHolds (t.map some) lit := by
      intro c hc
      obtain ⟨lit, hlit, htrue⟩ := any_eq_true.mp (hall c hc)
      exact ⟨lit, hlit, litHolds_row (hlength ▸ hbelow c hc lit hlit) htrue⟩
    obtain ⟨hclauses, hassumptions⟩ := forall_mem_append.mp hholds
    refine ⟨hclauses, fun a ha => ?_⟩
    obtain ⟨lit, hlit, htrue⟩ := hassumptions [a] (mem_map_of_mem ha)
    rwa [mem_singleton.mp hlit] at htrue
  | none =>
    refine ⟨List.Subset.refl _, fun σ hσ => ?_⟩
    by_contra hnone
    push Not at hnone
    obtain ⟨t, ht, hagree⟩ := row_agree σ n
    refine find?_eq_none.mp hfind t ht (all_eq_true.mpr fun c hc => any_eq_true.mpr ?_)
    have hsat : Satisfies σ (clauses ++ assumptions.map ([·])) := by
      refine satisfies_append.mpr ⟨hσ, fun c hc => ?_⟩
      obtain ⟨a, ha, rfl⟩ := mem_map.mp hc
      exact ⟨a, mem_singleton_self a, hnone a ha⟩
    obtain ⟨lit, hlit, htrue⟩ := hsat.congr hagree hbelow c hc
    exact ⟨lit, hlit, htrue⟩

theorem truthTable_decides : Decides truthTable := by
  intro call clauses assumptions
  unfold truthTable
  dsimp only
  split
  case h_1 hunknown =>
    split at hunknown <;> cases hunknown
  case h_2 => trivial

end

end Nixie.Opt
