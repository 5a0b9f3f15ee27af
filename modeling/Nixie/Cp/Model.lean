import Nixie.Cp.Propagator

/-!
The construction of a model, `nixie-theories/src/cp/mod.rs`, and what its snapshot of an assignment holds.
-/

namespace Nixie.Cp

open Ast List Option

structure OptionalTask where
  start : CpVar
  duration : ℤ
  demand : ℤ
  presence : Term

namespace CpStatement

def new : CpStatement := ⟨[], [], [], [], [], mkBool true, mkBool false⟩

def entryLoop (s : CpStatement) : List (ℤ × Term) → List ℤ → List Term → Except String (List ℤ × List Term)
  | [], values, atoms => .ok (values, atoms)
  | (value, atom) :: rest, values, atoms =>
    if isBoolVar atom = false then .error "domain indicators must be Boolean variables"
    else if value ∈ values ∨ atom ∈ atoms ∨ ∃ d ∈ s.domains, atom ∈ d.atoms then
      .error "duplicate domain value or indicator"
    else s.entryLoop rest (values ++ [value]) (atoms ++ [atom])

section

variable (s : CpStatement)

def newVariable (entries : List (ℤ × Term)) : Except String (CpVar × CpStatement) := do
  let (values, atoms) ← s.entryLoop entries [] []
  return (s.domains.length,
    { s with
      assertions := s.assertions ++ [mkOr atoms]
      domains := s.domains ++ [⟨values, atoms, atoms.map mkNot⟩] })

def validate (vars : List CpVar) : Except String Unit :=
  if ∃ v ∈ vars, s.domains.length ≤ v then .error "unknown CP variable" else .ok ()

def bindInteger (m : Manager) (var : CpVar) (term : Term) : Except String CpStatement := do
  s.validate [var]
  if term.sort ≠ .int then .error "binding requires an Int term"
  else
    let links := (s.domains[var]?).elim [] fun d =>
      (d.values.zip d.atoms).map fun p => m.mkEq p.2 (m.mkEq term (mkInt p.1))
    return { s with bindings := s.bindings ++ [(var, term)], assertions := s.assertions ++ links }

def addConstraint (c : Constraint) : CpStatement :=
  { s with constraints := s.constraints ++ [c] }

def alldifferent (vars : List CpVar) : Except String CpStatement := do
  s.validate vars
  return s.addConstraint (.allDifferent vars)

end

def table (s : CpStatement) (vars : List CpVar) (tuples : List (List ℤ)) : Except String CpStatement := do
  s.validate vars
  if h : ∀ row ∈ tuples, row.length = vars.length then return s.addConstraint (.table ⟨vars, tuples, h⟩)
  else .error "table tuple arity mismatch"

def regular (s : CpStatement) (vars : List CpVar) (initial : ℕ) (accepting : List ℕ) (transitions : List Transition) :
    Except String CpStatement := do
  s.validate vars
  return s.addConstraint (.regular vars initial accepting transitions)

def circuit (s : CpStatement) (successors : List CpVar) : Except String CpStatement := do
  s.validate successors
  return s.addConstraint (.circuit successors)

def cumulative (s : CpStatement) (tasks : List Task) (capacity : ℤ) : Except String CpStatement := do
  s.validate (tasks.map (·.start))
  if ∃ t ∈ tasks, t.duration < 0 ∨ t.demand < 0 then .error "negative duration or demand"
  else return s.addConstraint (.cumulative (tasks.map (⟨·, none⟩)) capacity)

def optionalLoop (s : CpStatement) : List OptionalTask → Except String Unit
  | [] => .ok ()
  | task :: rest =>
    if task.duration < 0 ∨ task.demand < 0 then .error "negative duration or demand"
    else if task.presence.sort ≠ .bool then .error "task presence must be a Boolean term"
    else s.optionalLoop rest

def condition : Term → Term × Bool
  | .not inner => (inner, false)
  | presence => (presence, true)

def schedule (task : OptionalTask) (index : ℕ) : ScheduledTask :=
  ⟨⟨task.start, task.duration, task.demand⟩, some (index, (condition task.presence).2)⟩

def scheduleLoop : List OptionalTask → List Presence → List Presence × List ScheduledTask
  | [], presences => (presences, [])
  | task :: rest, presences =>
    let atom := (condition task.presence).1
    match presences.findIdx? (·.atom = atom) with
    | some index =>
      let r := scheduleLoop rest presences
      (r.1, schedule task index :: r.2)
    | none =>
      let r := scheduleLoop rest (presences ++ [⟨atom, mkNot atom⟩])
      (r.1, schedule task presences.length :: r.2)

def cumulativeOptional (s : CpStatement) (tasks : List OptionalTask) (capacity : ℤ) : Except String CpStatement := do
  s.validate (tasks.map (·.start))
  s.optionalLoop tasks
  let (presences, scheduled) := scheduleLoop tasks s.presences
  return { s.addConstraint (.cumulative scheduled capacity) with presences := presences }

inductive Built : CpStatement → Prop
  | new : Built new
  | newVariable {s s' v entries} : Built s →
      s.newVariable entries = .ok (v, s') → Built s'
  | bindInteger {s s' m var term} : Built s →
      s.bindInteger m var term = .ok s' → Built s'
  | alldifferent {s s' vars} : Built s → s.alldifferent vars = .ok s' → Built s'
  | table {s s' vars tuples} : Built s →
      s.table vars tuples = .ok s' → Built s'
  | regular {s s' vars initial accepting transitions} :
      Built s → s.regular vars initial accepting transitions = .ok s' → Built s'
  | circuit {s s' successors} : Built s → s.circuit successors = .ok s' → Built s'
  | cumulative {s s' tasks capacity} : Built s →
      s.cumulative tasks capacity = .ok s' → Built s'
  | cumulativeOptional {s s' tasks capacity} : Built s →
      s.cumulativeOptional tasks capacity = .ok s' → Built s'

section

structure DomainDeclared (d : Domain) : Prop where
  length : d.values.length = d.atoms.length
  negations : d.negations = d.atoms.map mkNot
  values : d.values.Nodup
  atoms : d.atoms.Nodup
  isVar : ∀ a ∈ d.atoms, isBoolVar a = true

structure Declared (s : CpStatement) : Prop where
  trueTerm : s.trueTerm = mkBool true
  falseTerm : s.falseTerm = mkBool false
  domains : ∀ d ∈ s.domains, DomainDeclared d
  disjoint : s.domains.Pairwise fun d e => ∀ a ∈ d.atoms, a ∉ e.atoms
  presences : ∀ p ∈ s.presences, p.negation = mkNot p.atom
  vars : ∀ c ∈ s.constraints, ∀ v ∈ c.vars, v < s.domains.length
  conditions : ∀ c ∈ s.constraints, ∀ i ∈ c.conditions, i < s.presences.length
  demands : ∀ c ∈ s.constraints, ∀ tasks capacity, c = .cumulative tasks capacity → ∀ t ∈ tasks, 0 ≤ t.task.demand

variable {s s' : CpStatement}

theorem entryLoop_spec {entries : List (ℤ × Term)} {values values' : List ℤ} {atoms atoms' : List Term}
    (h : s.entryLoop entries values atoms = .ok (values', atoms')) (hlength : values.length = atoms.length)
    (hvalues : values.Nodup) (hatoms : atoms.Nodup) (hvar : ∀ a ∈ atoms, isBoolVar a = true)
    (hfresh : ∀ a ∈ atoms, ∀ d ∈ s.domains, a ∉ d.atoms) : DomainDeclared ⟨values', atoms', atoms'.map mkNot⟩ ∧
    ∀ a ∈ atoms', ∀ d ∈ s.domains, a ∉ d.atoms := by
  induction entries generalizing values atoms with
  | nil =>
    cases h
    exact ⟨⟨hlength, rfl, hvalues, hatoms, hvar⟩, hfresh⟩
  | cons entry rest ih =>
    obtain ⟨value, atom⟩ := entry
    rw [entryLoop] at h
    split_ifs at h with hatom hduplicate
    push Not at hduplicate
    obtain ⟨hvalue, hnew, hother⟩ := hduplicate
    refine ih h (by simp [hlength]) (nodup_append.mpr ⟨hvalues, nodup_singleton _, ?_⟩)
      (nodup_append.mpr ⟨hatoms, nodup_singleton _, ?_⟩) ?_ ?_
    · intro x hx y hy heq
      exact hvalue (mem_singleton.mp hy ▸ heq ▸ hx)
    · intro a ha b hb heq
      exact hnew (mem_singleton.mp hb ▸ heq ▸ ha)
    · exact forall_mem_append.mpr ⟨hvar, forall_mem_singleton.mpr (by simpa using hatom)⟩
    · exact forall_mem_append.mpr ⟨hfresh, forall_mem_singleton.mpr hother⟩

theorem validate_ok {vars : List CpVar} {u : Unit} (h : s.validate vars = .ok u) :
    ∀ v ∈ vars, v < s.domains.length := by
  rw [validate] at h
  split_ifs at h with hvars
  push Not at hvars
  exact hvars

theorem Declared.addConstraint (h : s.Declared) {c : Constraint} (hvars : ∀ v ∈ c.vars, v < s.domains.length)
    (hconditions : ∀ i ∈ c.conditions, i < s.presences.length)
    (hdemands : ∀ tasks capacity, c = .cumulative tasks capacity → ∀ t ∈ tasks, 0 ≤ t.task.demand) :
    (s.addConstraint c).Declared where
  trueTerm := h.trueTerm
  falseTerm := h.falseTerm
  domains := h.domains
  disjoint := h.disjoint
  presences := h.presences
  vars := forall_mem_append.mpr ⟨h.vars, forall_mem_singleton.mpr hvars⟩
  conditions := forall_mem_append.mpr ⟨h.conditions, forall_mem_singleton.mpr hconditions⟩
  demands := forall_mem_append.mpr ⟨h.demands, forall_mem_singleton.mpr hdemands⟩

theorem Declared.newVariable (h : s.Declared) {v : CpVar} {entries : List (ℤ × Term)}
    (hok : s.newVariable entries = .ok (v, s')) : s'.Declared := by
  obtain ⟨⟨values, atoms⟩, hentries, hok⟩ := bind_ok hok
  cases hok
  obtain ⟨hdomain, hfresh⟩ := entryLoop_spec hentries rfl nodup_nil nodup_nil nofun nofun
  have hlength : ∀ v, v < s.domains.length →
    v < (s.domains ++ [(⟨values, atoms, atoms.map mkNot⟩ : Domain)]).length := by
    intro v hv
    rw [length_append]
    omega
  exact {
    trueTerm := h.trueTerm
    falseTerm := h.falseTerm
    domains := forall_mem_append.mpr ⟨h.domains, forall_mem_singleton.mpr hdomain⟩
    disjoint := pairwise_append.mpr ⟨h.disjoint, pairwise_singleton _ _, fun d hd e he a ha hmem => by
      rw [mem_singleton.mp he] at hmem
      exact hfresh a hmem d hd ha⟩
    presences := h.presences
    vars := fun c hc v hv => hlength v (h.vars c hc v hv)
    conditions := h.conditions
    demands := h.demands }

theorem scheduleLoop_spec (tasks : List OptionalTask) (presences : List Presence)
    (hnegation : ∀ p ∈ presences, p.negation = mkNot p.atom) :
    presences.length ≤ (scheduleLoop tasks presences).1.length ∧
    (∀ p ∈ (scheduleLoop tasks presences).1, p.negation = mkNot p.atom) ∧
    (∀ t ∈ (scheduleLoop tasks presences).2, ∀ p ∈ t.presence, p.1 < (scheduleLoop tasks presences).1.length) ∧
    (scheduleLoop tasks presences).2.map (·.task) = tasks.map fun t => ⟨t.start, t.duration, t.demand⟩ := by
  induction tasks generalizing presences with
  | nil => exact ⟨le_rfl, hnegation, nofun, rfl⟩
  | cons task rest ih =>
    rw [scheduleLoop]
    cases hfind : presences.findIdx? (·.atom = (condition task.presence).1) with
    | some index =>
      obtain ⟨hle, hall, hpresence, htasks⟩ := ih presences hnegation
      have hindex : index < presences.length := (findIdx?_eq_some_iff_getElem.mp hfind).1
      simp only
      refine ⟨hle, hall, forall_mem_cons.mpr ⟨fun p hp => ?_, hpresence⟩, by rw [map_cons, htasks]; rfl⟩
      cases hp
      exact lt_of_lt_of_le hindex hle
    | none =>
      obtain ⟨hle, hall, hpresence, htasks⟩ :=
        ih (presences ++ [⟨(condition task.presence).1, mkNot (condition task.presence).1⟩])
        (forall_mem_append.mpr ⟨hnegation, forall_mem_singleton.mpr rfl⟩)
      rw [length_append, length_singleton] at hle
      simp only
      refine ⟨by omega, hall, forall_mem_cons.mpr ⟨fun p hp => ?_, hpresence⟩, by rw [map_cons, htasks]; rfl⟩
      cases hp
      exact hle

theorem optionalLoop_ok {tasks : List OptionalTask} {u : Unit} (h : s.optionalLoop tasks = .ok u) :
    ∀ t ∈ tasks, 0 ≤ t.demand := by
  induction tasks with
  | nil => exact nofun
  | cons task rest ih =>
    rw [optionalLoop] at h
    split_ifs at h with hnegative hsort
    push Not at hnegative
    exact forall_mem_cons.mpr ⟨hnegative.2, ih h⟩

theorem Declared.cumulativeOptional (h : s.Declared) {tasks : List OptionalTask} {capacity : ℤ}
    (hok : s.cumulativeOptional tasks capacity = .ok s') : s'.Declared := by
  obtain ⟨u, hvalid, hok⟩ := bind_ok hok
  obtain ⟨u', htasks, hok⟩ := bind_ok hok
  cases hok
  obtain ⟨hle, hall, hpresence, hmap⟩ := scheduleLoop_spec tasks s.presences h.presences
  have hdeclared : Declared { s with presences := (scheduleLoop tasks s.presences).1 } :=
    { h with presences := hall, conditions := fun c hc i hi => lt_of_lt_of_le (h.conditions c hc i hi) hle }
  have htask : ∀ t ∈ (scheduleLoop tasks s.presences).2, ∃ o ∈ tasks, t.task = ⟨o.start, o.duration, o.demand⟩ := by
    intro t ht
    have hmem : t.task ∈ (scheduleLoop tasks s.presences).2.map (·.task) := mem_map_of_mem ht
    rw [hmap] at hmem
    obtain ⟨o, ho, heq⟩ := mem_map.mp hmem
    exact ⟨o, ho, heq.symm⟩
  refine hdeclared.addConstraint (fun v hv => ?_) (fun i hi => ?_) ?_
  · obtain ⟨t, ht, rfl⟩ := mem_map.mp hv
    obtain ⟨o, ho, heq⟩ := htask t ht
    rw [heq]
    exact validate_ok hvalid _ (mem_map_of_mem ho)
  · obtain ⟨t, ht, hp⟩ := mem_filterMap.mp hi
    obtain ⟨p, hpresent, rfl⟩ := map_eq_some_iff.mp hp
    exact hpresence t ht p hpresent
  · rintro _ _ ⟨⟩ t ht
    obtain ⟨o, ho, heq⟩ := htask t ht
    rw [heq]
    exact optionalLoop_ok htasks o ho

theorem Built.declared (h : Built s) : s.Declared := by
  induction h with
  | new => exact ⟨rfl, rfl, nofun, .nil, nofun, nofun, nofun, nofun⟩
  | newVariable _ hok ih => exact ih.newVariable hok
  | bindInteger _ hok ih =>
    obtain ⟨u, -, hok⟩ := bind_ok hok
    split_ifs at hok
    cases hok
    exact { ih with }
  | alldifferent _ hok ih =>
    obtain ⟨u, hvalid, hok⟩ := bind_ok hok
    cases hok
    exact ih.addConstraint (validate_ok hvalid) nofun nofun
  | table _ hok ih =>
    obtain ⟨u, hvalid, hok⟩ := bind_ok hok
    split_ifs at hok
    cases hok
    exact ih.addConstraint (validate_ok hvalid) nofun nofun
  | regular _ hok ih =>
    obtain ⟨u, hvalid, hok⟩ := bind_ok hok
    cases hok
    exact ih.addConstraint (validate_ok hvalid) nofun nofun
  | circuit _ hok ih =>
    obtain ⟨u, hvalid, hok⟩ := bind_ok hok
    cases hok
    exact ih.addConstraint (validate_ok hvalid) nofun nofun
  | cumulative _ hok ih =>
    obtain ⟨u, hvalid, hok⟩ := bind_ok hok
    split_ifs at hok with hnegative
    cases hok
    push Not at hnegative
    refine ih.addConstraint (fun v hv => ?_) (fun i hi => ?_) ?_
    · refine validate_ok hvalid v ?_
      rw [Constraint.vars, List.map_map] at hv
      exact hv
    · obtain ⟨t, ht, hp⟩ := List.mem_filterMap.mp hi
      obtain ⟨task, -, rfl⟩ := List.mem_map.mp ht
      cases hp
    · rintro _ _ ⟨⟩ t ht
      obtain ⟨task, htask, rfl⟩ := mem_map.mp ht
      exact (hnegative task htask).2
  | cumulativeOptional _ hok ih => exact ih.cumulativeOptional hok

end

section

structure Assignment where
  truth : Term → Option Bool
  consistent : ∀ t b, truth t = some b → truth (.not t) ≠ some b

def fixedBy (s : CpStatement) (τ : Assignment) (t : Term) : Option Term :=
  (τ.truth t).map fun b => if b then s.trueTerm else s.falseTerm

abbrev Row : Type := Term × Term × ℤ

def rows (d : Domain) : List Row := d.atoms.zip (d.negations.zip d.values)

variable (τ : Assignment)

def trues (rows : List Row) : List Row := rows.filter fun p => τ.truth p.1 = some true

def unfixed (rows : List Row) : List Row := rows.filter fun p => τ.truth p.1 = none

def premise (p : Row) : List Term :=
  match τ.truth p.1 with
  | some true => [p.1]
  | some false => [p.2.1]
  | none => []

def leftValues (rows : List Row) : List ℤ :=
  match (trues τ rows).getLast? with
  | some p => [p.2.2]
  | none => (unfixed τ rows).map (·.2.2)

structure Read (before : List Term) (valid : Bool) (rows : List Row) (read : DomainRead) : Prop where
  reasons : read.reasons = before ++ rows.flatMap (premise τ)
  valid : read.valid = (valid && decide ((trues τ rows).length ≤ 1))
  fixed : read.fixed = (trues τ rows).getLast?.map (·.2.2)
  remaining : trues τ rows = [] → read.remaining = (unfixed τ rows).map (·.2.2)
  fixedPremise : ∀ p, (trues τ rows).getLast? = some p → ∃ k, read.fixedPremise = some k ∧ read.reasons[k]? = some p.1
  noPremise : trues τ rows = [] → read.fixedPremise = none

variable {τ} {s : CpStatement}

theorem Declared.true_ne_false (h : s.Declared) : s.falseTerm ≠ s.trueTerm := by
  rw [h.trueTerm, h.falseTerm]
  exact nofun

theorem Read.step (hs : s.Declared) {before : List Term} {valid : Bool} {rows : List Row} {read : DomainRead}
    (h : Read τ before valid rows read) (p : Row) :
    Read τ before valid (rows ++ [p]) (readIndicator s (s.fixedBy τ) read p.1 p.2.1 p.2.2) := by
  have htrues : trues τ (rows ++ [p]) = trues τ rows ++ trues τ [p] := filter_append ..
  have hunfixed : unfixed τ (rows ++ [p]) = unfixed τ rows ++ unfixed τ [p] := filter_append ..
  have hpremises : (rows ++ [p]).flatMap (premise τ) = rows.flatMap (premise τ) ++ premise τ p := by
    rw [flatMap_append, flatMap_cons, flatMap_nil, append_nil]
  cases hp : τ.truth p.1 with
  | none =>
    have hread : readIndicator s (s.fixedBy τ) read p.1 p.2.1 p.2.2 =
        if read.fixed.isNone then { read with remaining := read.remaining ++ [p.2.2] } else read := by
      simp only [readIndicator, fixedBy, hp, map_none]
    have htrue : trues τ [p] = [] := by simp [trues, hp]
    have hnone : unfixed τ [p] = [p] := by simp [unfixed, hp]
    have hpremise : premise τ p = [] := by simp only [premise, hp]
    rw [hread]
    rw [htrue, append_nil] at htrues
    rw [hpremise, append_nil] at hpremises
    cases hempty : (trues τ rows).getLast? with
    | none =>
      have hfixed : read.fixed = none := by rw [h.fixed, hempty, map_none]
      rw [hfixed, isNone_none, if_pos rfl]
      have hnil : trues τ rows = [] := List.getLast?_eq_none_iff.mp hempty
      refine ⟨by rw [hpremises]; exact h.reasons, by rw [htrues]; exact h.valid, by rw [htrues, hempty]; rfl,
        fun _ => ?_,
        fun q hq => ?_, fun _ => h.noPremise hnil⟩
      · rw [hunfixed, hnone, map_append, ← h.remaining hnil]
        rfl
      · rw [htrues, hempty] at hq
        cases hq
    | some q =>
      have hfixed : read.fixed = some q.2.2 := by rw [h.fixed, hempty, map_some]
      rw [hfixed, isNone_some, if_neg Bool.false_ne_true]
      refine ⟨by rw [hpremises]; exact h.reasons, by rw [htrues]; exact h.valid, by rw [htrues]; exact h.fixed,
        fun hnil => ?_,
        by rw [htrues]; exact h.fixedPremise, by rw [htrues]; exact h.noPremise⟩
      rw [htrues] at hnil
      rw [hnil] at hempty
      cases hempty
  | some b =>
    have hnone : unfixed τ [p] = [] := by simp [unfixed, hp]
    rw [hnone, append_nil] at hunfixed
    cases b with
    | false =>
      have hread : readIndicator s (s.fixedBy τ) read p.1 p.2.1 p.2.2 =
        { read with reasons := read.reasons ++ [p.2.1] } := by
        simp only [readIndicator, fixedBy, hp, map_some, Bool.false_eq_true, if_false, if_neg hs.true_ne_false, if_true]
      have htrue : trues τ [p] = [] := by simp [trues, hp]
      have hpremise : premise τ p = [p.2.1] := by simp only [premise, hp]
      rw [hread]
      rw [htrue, append_nil] at htrues
      refine ⟨?_, by rw [htrues]; exact h.valid, by rw [htrues]; exact h.fixed,
        by rw [htrues, hunfixed]; exact h.remaining, ?_, by rw [htrues]; exact h.noPremise⟩
      · rw [hpremises, hpremise, ← append_assoc, ← h.reasons]
      · intro q hq
        rw [htrues] at hq
        obtain ⟨k, hk, hget⟩ := h.fixedPremise q hq
        exact ⟨k, hk, getElem?_append_left (List.getElem?_eq_some_iff.mp hget).1 ▸ hget⟩
    | true =>
      have hread : readIndicator s (s.fixedBy τ) read p.1 p.2.1 p.2.2 =
          { read with
            fixedPremise := some read.reasons.length
            reasons := read.reasons ++ [p.1]
            valid := read.valid && read.fixed.isNone
            fixed := some p.2.2 } := by
        simp only [readIndicator, fixedBy, hp, map_some, if_true]
      have htrue : trues τ [p] = [p] := by simp [trues, hp]
      have hpremise : premise τ p = [p.1] := by simp only [premise, hp]
      rw [hread]
      rw [htrue] at htrues
      have hne : trues τ (rows ++ [p]) ≠ [] := by
        rw [htrues]
        exact append_ne_nil_of_right_ne_nil _ (cons_ne_nil p [])
      refine ⟨?_, ?_, by rw [htrues, getLast?_concat]; rfl, fun hnil => absurd hnil hne, ?_,
        fun hnil => absurd hnil hne⟩
      · rw [hpremises, hpremise, ← append_assoc, ← h.reasons]
      · rw [htrues, h.valid, h.fixed, length_append, length_singleton]
        cases hrows : trues τ rows with
        | nil => simp
        | cons q qs => simp
      · intro q hq
        rw [htrues, getLast?_concat] at hq
        cases hq
        exact ⟨read.reasons.length, rfl, getElem?_concat_length⟩

theorem readDomain_spec (τ : Assignment) (hs : s.Declared) (d : Domain) (reasons : List Term) (valid : Bool) :
    Read τ reasons valid (rows d) (readDomain s (s.fixedBy τ) d reasons valid) := by
  have hall : ∀ rows : List Row, Read τ reasons valid rows
      (rows.foldl (fun read p => readIndicator s (s.fixedBy τ) read p.1 p.2.1 p.2.2)
        ⟨none, none, [], reasons, valid⟩) := by
    intro rows
    induction rows using List.reverseRecOn with
    | nil => exact ⟨(append_nil _).symm, by simp [trues], rfl, fun _ => rfl, nofun, fun _ => rfl⟩
    | append_singleton rows p ih =>
      rw [foldl_append]
      exact ih.step hs p
  exact hall (rows d)

theorem Read.left {before : List Term} {valid : Bool} {rows : List Row} {read : DomainRead}
    (h : Read τ before valid rows read) :
    (match read.fixed with | some value => [value] | none => read.remaining) = leftValues τ rows := by
  rw [leftValues, h.fixed]
  cases hlast : (trues τ rows).getLast? with
  | none => exact h.remaining (getLast?_eq_none_iff.mp hlast)
  | some p => rfl

structure FixedAt (τ : Assignment) (reasons : List Term) (d : Domain) (fixedPremise : Option ℕ) : Prop where
  fixed : ∀ p, (trues τ (rows d)).getLast? = some p → ∃ k, fixedPremise = some k ∧ reasons[k]? = some p.1
  free : trues τ (rows d) = [] → fixedPremise = none

theorem FixedAt.append {reasons : List Term} {d : Domain} {k : Option ℕ} (h : FixedAt τ reasons d k)
    (more : List Term) : FixedAt τ (reasons ++ more) d k := by
  refine ⟨fun p hp => ?_, h.free⟩
  obtain ⟨k, hk, hget⟩ := h.fixed p hp
  exact ⟨k, hk, (getElem?_append_left (List.getElem?_eq_some_iff.mp hget).1).trans hget⟩

def domainReasons (τ : Assignment) (domains : List Domain) : List Term :=
  domains.flatMap fun d => (rows d).flatMap (premise τ)

structure Snapshot (τ : Assignment) (before : DomainSnapshot) (domains : List Domain) (after : DomainSnapshot) :
    Prop where
  values : after.values = before.values ++ domains.map fun d => leftValues τ (rows d)
  reasons : after.reasons = before.reasons ++ domainReasons τ domains
  valid : after.valid = (before.valid && domains.all fun d => decide ((trues τ (rows d)).length ≤ 1))
  fixedPremises : ∃ ks, after.fixedPremises = before.fixedPremises ++ ks ∧
    List.Forall₂ (FixedAt τ after.reasons) domains ks

theorem domainLoop_spec (hs : s.Declared) (domains : List Domain) (before : DomainSnapshot) :
    Snapshot τ before domains (domainLoop s (s.fixedBy τ) domains before) := by
  induction domains generalizing before with
  | nil => exact ⟨by simp [domainLoop], by simp [domainLoop, domainReasons], by simp [domainLoop], [],
      by simp [domainLoop], .nil⟩
  | cons d domains ih =>
    have hread := readDomain_spec τ hs d before.reasons before.valid
    rw [domainLoop]
    generalize readDomain s (s.fixedBy τ) d before.reasons before.valid = read at hread ⊢
    obtain ⟨hvalues, hreasons, hvalid, ks, hks, hall⟩ := ih
      ⟨before.values ++ [match read.fixed with | some value => [value] | none => read.remaining], read.reasons,
        before.fixedPremises ++ [read.fixedPremise], read.valid⟩
    refine ⟨?_, ?_, ?_, read.fixedPremise :: ks, ?_, .cons ?_ hall⟩
    · refine hvalues.trans ?_
      rw [map_cons, ← hread.left]
      exact append_assoc ..
    · refine hreasons.trans ?_
      rw [hread.reasons, append_assoc, domainReasons, domainReasons, flatMap_cons]
    · refine hvalid.trans ?_
      rw [hread.valid, all_cons, Bool.and_assoc]
    · refine hks.trans ?_
      exact append_assoc ..
    · have hfixed : FixedAt τ read.reasons d read.fixedPremise := ⟨hread.fixedPremise, hread.noPremise⟩
      exact hreasons ▸ hfixed.append _

theorem snapshot_spec (τ : Assignment) (hs : s.Declared) :
    Snapshot τ ⟨[], [], [], true⟩ s.domains (s.snapshot (s.fixedBy τ)) :=
  domainLoop_spec hs s.domains _

def ConditionLiteral (τ : Assignment) (p : Presence) (r : Term) : Prop :=
  r = p.atom ∧ (p.atom = .true ∨ τ.truth p.atom = some true) ∨
    r = mkNot p.atom ∧ (p.atom = .false ∨ τ.truth p.atom = some false)

theorem readPresences_spec (τ : Assignment) (hs : s.Declared) (presences : List Presence)
    (hp : ∀ p ∈ presences, p.negation = mkNot p.atom) (reasons : List Term) :
    ∃ truths more, readPresences s (s.fixedBy τ) presences reasons = some (truths, reasons ++ more) ∧
    truths.length = presences.length ∧ ∀ r ∈ more, ∃ p ∈ presences, ConditionLiteral τ p r := by
  induction presences generalizing reasons with
  | nil => exact ⟨[], [], by rw [readPresences, append_nil], rfl, nofun⟩
  | cons p presences ih =>
    rw [forall_mem_cons] at hp
    have hpremise : ∀ r, ConditionLiteral τ p r → ∀ b, readPresences s (s.fixedBy τ) (p :: presences) reasons =
        ((readPresences s (s.fixedBy τ) presences (reasons ++ [r])).map fun q => (some b :: q.1, q.2)) →
        ∃ truths more, readPresences s (s.fixedBy τ) (p :: presences) reasons = some (truths, reasons ++ more) ∧
          truths.length = (p :: presences).length ∧ ∀ r ∈ more, ∃ q ∈ p :: presences, ConditionLiteral τ q r := by
      intro r hr b hstep
      obtain ⟨truths, more, hread, hlength, hmore⟩ := ih hp.2 (reasons ++ [r])
      refine ⟨some b :: truths, r :: more, ?_, by simp [hlength], forall_mem_cons.mpr ⟨⟨p, mem_cons_self, hr⟩, ?_⟩⟩
      · rw [hstep, hread, map_some, append_assoc]
        rfl
      · exact fun r' hr' => (hmore r' hr').imp fun q hq => ⟨mem_cons_of_mem _ hq.1, hq.2⟩
    by_cases htrue : p.atom = s.trueTerm
    · refine hpremise p.atom (.inl ⟨rfl, .inl (htrue.trans hs.trueTerm)⟩) true ?_
      rw [readPresences, if_pos htrue]
      simp only [if_true]
    · by_cases hfalse : p.atom = s.falseTerm
      · refine hpremise (mkNot p.atom) (.inr ⟨rfl, .inl (hfalse.trans hs.falseTerm)⟩) false ?_
        rw [readPresences, if_neg htrue, if_pos hfalse]
        simp only [if_neg hs.true_ne_false, if_true, hp.1]
      · cases hτ : τ.truth p.atom with
        | none =>
          obtain ⟨truths, more, hread, hlength, hmore⟩ := ih hp.2 reasons
          refine ⟨none :: truths, more, ?_, by simp [hlength], fun r hr =>
            (hmore r hr).imp fun q hq => ⟨mem_cons_of_mem _ hq.1, hq.2⟩⟩
          rw [readPresences, if_neg htrue, if_neg hfalse]
          simp only [fixedBy, hτ, map_none, hread, map_some]
        | some b =>
          cases b with
          | true =>
            refine hpremise p.atom (.inl ⟨rfl, .inr hτ⟩) true ?_
            rw [readPresences, if_neg htrue, if_neg hfalse]
            simp only [fixedBy, hτ, map_some, if_true]
          | false =>
            refine hpremise (mkNot p.atom) (.inr ⟨rfl, .inr hτ⟩) false ?_
            rw [readPresences, if_neg htrue, if_neg hfalse]
            simp only [fixedBy, hτ, map_some, Bool.false_eq_true, if_false, if_neg hs.true_ne_false, if_true, hp.1]

end

end CpStatement

end Nixie.Cp
