import Mathlib.Algebra.Order.BigOperators.Group.List
import Mathlib.Algebra.Order.Ring.Int
import Nixie.Ast.Builder

namespace Nixie.Cp

open Ast List

abbrev CpVar := ℕ

structure Domain where
  values : List ℤ
  atoms : List Term
  negations : List Term
  deriving DecidableEq

structure Presence where
  atom : Term
  negation : Term
  deriving DecidableEq

structure Task where
  start : CpVar
  duration : ℤ
  demand : ℤ
  deriving DecidableEq

structure ScheduledTask where
  task : Task
  presence : Option (ℕ × Bool)
  deriving DecidableEq

structure Transition where
  source : ℕ
  symbol : ℤ
  destination : ℕ
  deriving DecidableEq

structure TableStatement where
  vars : List CpVar
  rows : List (List ℤ)
  arity : ∀ row ∈ rows, row.length = vars.length
  deriving DecidableEq

inductive Constraint
  | allDifferent (vars : List CpVar)
  | table (statement : TableStatement)
  | regular (vars : List CpVar) (initial : ℕ) (accepting : List ℕ) (edges : List Transition)
  | circuit (vars : List CpVar)
  | cumulative (tasks : List ScheduledTask) (capacity : ℤ)
  deriving DecidableEq

namespace Constraint

def vars : Constraint → List CpVar
  | allDifferent v | regular v _ _ _ | circuit v => v
  | table statement => statement.vars
  | cumulative tasks _ => tasks.map fun t => t.task.start

def conditions : Constraint → List ℕ
  | cumulative tasks _ => tasks.filterMap fun t => t.presence.map Prod.fst
  | allDifferent _ | table _ | regular .. | circuit _ => []

end Constraint

structure CpStatement where
  domains : List Domain
  constraints : List Constraint
  assertions : List Term
  bindings : List (CpVar × Term)
  presences : List Presence
  trueTerm : Term
  falseTerm : Term

namespace CpStatement

def isBoolVar : Term → Bool
  | .var _ .bool => true
  | _ => false

def checkIndicators : List (Term × ℤ × Term) → List Term → List ℤ → Except String (List Term)
  | [], indicators, _ => .ok indicators
  | (atom, value, negation) :: rest, indicators, values =>
    if atom ∈ indicators ∨ value ∈ values ∨ isBoolVar atom = false ∨ mkNot atom ≠ negation then
      .error "invalid original CP indicator meaning"
    else checkIndicators rest (atom :: indicators) (value :: values)

def checkDomains : List Domain → List Term → Except String (List Term)
  | [], _ => .ok []
  | domain :: domains, indicators =>
    if domain.values.length ≠ domain.atoms.length ∨ domain.atoms.length ≠ domain.negations.length then
      .error "malformed original CP domain"
    else do
      let indicators ← checkIndicators (domain.atoms.zip (domain.values.zip domain.negations)) indicators []
      let expected ← checkDomains domains indicators
      return mkOr domain.atoms :: expected

def checkBindings (m : Manager) (domains : List Domain) : List (CpVar × Term) → Except String (List Term)
  | [] => .ok []
  | (var, term) :: rest =>
    match domains[var]? with
    | none => .error "invalid original CP binding variable"
    | some domain =>
      if term.sort ≠ .int then .error "invalid original CP integer binding"
      else do
        let links := (domain.values.zip domain.atoms).map fun p =>
          m.mkEq p.2 (m.mkEq term (mkInt p.1))
        let expected ← checkBindings m domains rest
        return links ++ expected

def checkPresences : List Presence → List Term → Except String Unit
  | [], _ => .ok ()
  | presence :: rest, conditions =>
    if presence.atom ∈ conditions ∨ presence.atom.sort ≠ .bool ∨ mkNot presence.atom ≠ presence.negation then
      .error "invalid original CP presence meaning"
    else checkPresences rest (presence.atom :: conditions)

def checkTasks (s : CpStatement) : List ScheduledTask → Except String Unit
  | [] => .ok ()
  | scheduled :: rest =>
    if scheduled.task.duration < 0 ∨ scheduled.task.demand < 0 ∨
        (∃ p ∈ scheduled.presence, s.presences.length ≤ p.1) then
      .error "invalid original CP task"
    else s.checkTasks rest

def checkConstraint (s : CpStatement) (c : Constraint) : Except String Unit :=
  if ∃ v ∈ c.vars, s.domains.length ≤ v then .error "invalid original CP variable"
  else
    match c with
    | .cumulative tasks _ => s.checkTasks tasks
    | .allDifferent _ | .table _ | .regular .. | .circuit _ => .ok ()

def checkConstraints (s : CpStatement) : List Constraint → Except String Unit
  | [] => .ok ()
  | c :: rest => do
    s.checkConstraint c
    s.checkConstraints rest

def checkEncoding (s : CpStatement) (m : Manager) : Except String Unit :=
  if s.trueTerm ≠ mkBool true ∨ s.falseTerm ≠ mkBool false then
    .error "CP Boolean constants do not match original terms"
  else do
    let domainTerms ← checkDomains s.domains []
    let bindingTerms ← checkBindings m s.domains s.bindings
    checkPresences s.presences []
    s.checkConstraints s.constraints
    if ¬ s.assertions.Perm (domainTerms ++ bindingTerms) then
      .error "generated CP assertions do not match declarations"
    else .ok ()

section

variable {s : CpStatement} {m : Manager}

structure Accepted (s : CpStatement) : Prop where
  aligned : ∀ d ∈ s.domains, d.values.length = d.atoms.length ∧ d.atoms.length = d.negations.length
  vars : ∀ c ∈ s.constraints, ∀ v ∈ c.vars, v < s.domains.length
  conditions : ∀ c ∈ s.constraints, ∀ i ∈ c.conditions, i < s.presences.length
  demands : ∀ c ∈ s.constraints, ∀ tasks capacity, c = .cumulative tasks capacity →
    ∀ t ∈ tasks, 0 ≤ t.task.demand

theorem bind_ok {α β : Type} {x : Except String α} {f : α → Except String β} {b : β}
    (h : (x >>= f) = .ok b) : ∃ a, x = .ok a ∧ f a = .ok b := by
  cases x with
  | error e => cases h
  | ok a => exact ⟨a, rfl, h⟩

theorem aligned_of_checkDomains {domains : List Domain} {indicators expected : List Term}
    (h : checkDomains domains indicators = .ok expected) :
    ∀ d ∈ domains, d.values.length = d.atoms.length ∧ d.atoms.length = d.negations.length := by
  induction domains generalizing indicators expected with
  | nil => simp
  | cons domain domains ih =>
    rw [checkDomains] at h
    split_ifs at h with hlengths
    obtain ⟨indicators', -, h⟩ := bind_ok h
    obtain ⟨expected', hrest, -⟩ := bind_ok h
    rw [not_or, not_not, not_not] at hlengths
    intro d hd
    rcases mem_cons.mp hd with rfl | hd
    · exact hlengths
    · exact ih hrest d hd

theorem tasks_of_checkTasks {tasks : List ScheduledTask} (h : s.checkTasks tasks = .ok ()) :
    ∀ t ∈ tasks, 0 ≤ t.task.demand ∧ ∀ p ∈ t.presence, p.1 < s.presences.length := by
  induction tasks with
  | nil => simp
  | cons task tasks ih =>
    rw [checkTasks] at h
    split_ifs at h with hbad
    push Not at hbad
    intro t ht
    rcases mem_cons.mp ht with rfl | ht
    · exact ⟨hbad.2.1, hbad.2.2⟩
    · exact ih h t ht

theorem checkConstraint_of_mem {constraints : List Constraint} (h : s.checkConstraints constraints = .ok ()) :
    ∀ c ∈ constraints, s.checkConstraint c = .ok () := by
  induction constraints with
  | nil => simp
  | cons c constraints ih =>
    obtain ⟨u, hc, hrest⟩ := bind_ok h
    intro c' hc'
    rcases mem_cons.mp hc' with rfl | hc'
    · exact hc
    · exact ih hrest c' hc'

theorem accepted_of_checkEncoding (h : s.checkEncoding m = .ok ()) : s.Accepted := by
  rw [checkEncoding] at h
  split_ifs at h
  obtain ⟨domainTerms, hdomains, h⟩ := bind_ok h
  obtain ⟨bindingTerms, -, h⟩ := bind_ok h
  obtain ⟨u, -, h⟩ := bind_ok h
  obtain ⟨u', hconstraints, -⟩ := bind_ok h
  have hconstraint := checkConstraint_of_mem hconstraints
  have htasks : ∀ tasks capacity, Constraint.cumulative tasks capacity ∈ s.constraints →
      s.checkTasks tasks = .ok () := by
    intro tasks capacity hc
    have h := hconstraint _ hc
    unfold checkConstraint at h
    split_ifs at h
    exact h
  refine ⟨aligned_of_checkDomains hdomains, ?_, ?_, ?_⟩
  · intro c hc v hv
    have h := hconstraint c hc
    unfold checkConstraint at h
    split_ifs at h with hvars
    push Not at hvars
    exact hvars v hv
  · intro c hc i hi
    cases c with
    | cumulative tasks capacity =>
      simp only [Constraint.conditions, mem_filterMap, Option.map_eq_some_iff] at hi
      obtain ⟨t, ht, p, hp, rfl⟩ := hi
      exact (tasks_of_checkTasks (htasks tasks capacity hc) t ht).2 p hp
    | allDifferent _ => cases hi
    | table _ => cases hi
    | regular _ _ _ _ => cases hi
    | circuit _ => cases hi
  · rintro c hc tasks capacity rfl t ht
    exact (tasks_of_checkTasks (htasks tasks capacity hc) t ht).1

end

end CpStatement

end Nixie.Cp

namespace Nixie.Cp

open Ast List

inductive Run (edges : List Transition) : ℕ → List ℤ → ℕ → Prop
  | nil (q : ℕ) : Run edges q [] q
  | cons {e word q} (he : e ∈ edges) (tail : Run edges e.destination word q) :
    Run edges e.source (e.symbol :: word) q

namespace ScheduledTask

def present (presences : ℕ → Bool) (t : ScheduledTask) : Bool :=
  match t.presence with
  | none => true
  | some (i, sign) => presences i == sign

def Running (value : CpVar → ℤ) (presences : ℕ → Bool) (time : ℤ) (t : ScheduledTask) : Prop :=
  t.present presences = true ∧ value t.task.start ≤ time ∧ time < value t.task.start + t.task.duration

instance (value : CpVar → ℤ) (presences : ℕ → Bool) (time : ℤ) (t : ScheduledTask) :
    Decidable (t.Running value presences time) :=
  inferInstanceAs (Decidable (_ ∧ _ ∧ _))

end ScheduledTask

def load (value : CpVar → ℤ) (presences : ℕ → Bool) (tasks : List ScheduledTask) (time : ℤ) : ℤ :=
  ((tasks.filter (·.Running value presences time)).map (·.task.demand)).sum

namespace Constraint

def Holds (value : CpVar → ℤ) (presences : ℕ → Bool) : Constraint → Prop
  | allDifferent vars => (vars.map value).Nodup
  | table statement => statement.vars.map value ∈ statement.rows
  | regular vars initial accepting edges => ∃ q ∈ accepting, Run edges initial (vars.map value) q
  | circuit vars => ∃ next : Fin vars.length → Fin vars.length,
      (∀ i, value (vars.get i) = next i) ∧ ∀ i j, ∃ k, next^[k] i = j
  | cumulative tasks capacity => ∀ time, load value presences tasks time ≤ capacity

variable {value value' : CpVar → ℤ} {presences presences' : ℕ → Bool}

theorem present_congr {t : ScheduledTask} (h : ∀ p ∈ t.presence, presences p.1 = presences' p.1) :
    t.present presences = t.present presences' := by
  unfold ScheduledTask.present
  cases hp : t.presence with
  | none => rfl
  | some p => simp only [h p hp]

theorem load_congr {tasks : List ScheduledTask} (time : ℤ)
    (hvalue : ∀ t ∈ tasks, value t.task.start = value' t.task.start)
    (hpresence : ∀ t ∈ tasks, ∀ p ∈ t.presence, presences p.1 = presences' p.1) :
    load value presences tasks time = load value' presences' tasks time := by
  unfold load
  congr 2
  refine filter_congr fun t ht => ?_
  rw [decide_eq_decide, ScheduledTask.Running, ScheduledTask.Running, hvalue t ht, present_congr (hpresence t ht)]

theorem Holds.congr {c : Constraint} (hvalue : ∀ v ∈ c.vars, value v = value' v)
    (hpresence : ∀ i ∈ c.conditions, presences i = presences' i) (h : c.Holds value presences) :
    c.Holds value' presences' := by
  cases c with
  | allDifferent vars =>
    have hmap : vars.map value = vars.map value' := map_congr_left hvalue
    rwa [Holds, ← hmap]
  | table statement =>
    have hmap : statement.vars.map value = statement.vars.map value' := map_congr_left hvalue
    rwa [Holds, ← hmap]
  | regular vars initial accepting edges =>
    have hmap : vars.map value = vars.map value' := map_congr_left hvalue
    rwa [Holds, ← hmap]
  | circuit vars =>
    obtain ⟨next, hnext, hcycle⟩ := h
    exact ⟨next, fun i => (hvalue _ (get_mem vars i)).symm.trans (hnext i), hcycle⟩
  | cumulative tasks capacity =>
    intro time
    have hstarts : ∀ t ∈ tasks, value t.task.start = value' t.task.start :=
      fun t ht => hvalue _ (mem_map_of_mem ht)
    have hconditions : ∀ t ∈ tasks, ∀ p ∈ t.presence, presences p.1 = presences' p.1 := by
      intro t ht p hp
      refine hpresence p.1 (mem_filterMap.mpr ⟨t, ht, ?_⟩)
      rw [Option.mem_def.mp hp, Option.map_some]
    rw [← load_congr time hstarts hconditions]
    exact h time

end Constraint

structure Selects (v : Term → Bool) (d : Domain) (i : ℕ) : Prop where
  bound : i < d.atoms.length
  truth : ∀ j (h : j < d.atoms.length), v d.atoms[j] = decide (j = i)

namespace CpStatement

def valueAt (s : CpStatement) (selected : ℕ → ℕ) (v : CpVar) : ℤ :=
  ((s.domains[v]?).bind fun d => d.values[selected v]?).getD 0

def presenceAt (s : CpStatement) (v : Term → Bool) (i : ℕ) : Bool :=
  (s.presences[i]?.map fun p => v p.atom).getD false

/-- A valuation of the terms in which every domain has exactly one true indicator, every global holds of
the selected values, and constants and negations are read as such. -/
structure Meets (s : CpStatement) (v : Term → Bool) : Prop where
  trueTerm : v s.trueTerm = true
  falseTerm : v s.falseTerm = false
  indicators : ∀ d ∈ s.domains, ∀ j (h : j < d.atoms.length) (h' : j < d.negations.length),
    v d.negations[j] = !v d.atoms[j]
  presences : ∀ p ∈ s.presences, v p.negation = !v p.atom
  globals : ∃ selected : ℕ → ℕ, (∀ n d, s.domains[n]? = some d → Selects v d (selected n)) ∧
    ∀ c ∈ s.constraints, c.Holds (s.valueAt selected) (s.presenceAt v)

end CpStatement

end Nixie.Cp
