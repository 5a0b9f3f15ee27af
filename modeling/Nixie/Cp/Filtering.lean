import Nixie.Cp.Model

/-!
Filtering by distinct values and by tables: a value that no solution within the current domains takes is excluded, and
a table explains each exclusion.
-/

namespace Nixie.Cp

open Ast List Option Bool TableRowBlocker

namespace CpStatement

variable {τ : Assignment} {s : CpStatement} {d : Domain} {x : ℤ}

section

variable (h : DomainDeclared d)
include h

theorem rows_atoms : (rows d).map Prod.fst = d.atoms := by
  refine map_fst_zip ?_
  rw [length_zip, h.negations, length_map, h.length, min_self]

theorem rows_values : (rows d).map (·.2.2) = d.values := by
  have hnegations : d.negations.length = d.atoms.length := by rw [h.negations, length_map]
  have hrest : (rows d).map Prod.snd = d.negations.zip d.values :=
    map_snd_zip (by rw [length_zip, hnegations, h.length, min_self])
  have hmap : (rows d).map (·.2.2) = ((rows d).map Prod.snd).map Prod.snd := by rw [List.map_map]; rfl
  rw [hmap, hrest]
  exact map_snd_zip (by rw [hnegations, h.length])

theorem mem_rows {p : Row} : p ∈ rows d ↔ ∃ i : ℕ, d.atoms[i]? = some p.1 ∧ d.values[i]? = some p.2.2 ∧
    p.2.1 = mkNot p.1 := by
  simp only [rows, mem_iff_getElem?, getElem?_zip_eq_some, h.negations, getElem?_map, map_eq_some_iff]
  constructor
  · rintro ⟨i, hatom, ⟨a, ha, hnegation⟩, hvalue⟩
    rw [hatom] at ha
    cases ha
    exact ⟨i, hatom, hvalue, hnegation.symm⟩
  · rintro ⟨i, hatom, hvalue, hnegation⟩
    exact ⟨i, hatom, ⟨p.1, hatom, hnegation.symm⟩, hvalue⟩

theorem row_eq_of_atom {p q : Row} (hp : p ∈ rows d) (hq : q ∈ rows d) (heq : p.1 = q.1) : p = q :=
  inj_on_of_nodup_map (rows_atoms h ▸ h.atoms) hp hq heq

theorem row_eq_of_value {p q : Row} (hp : p ∈ rows d) (hq : q ∈ rows d) (heq : p.2.2 = q.2.2) : p = q :=
  inj_on_of_nodup_map (rows_values h ▸ h.values) hp hq heq

theorem rows_nodup : (rows d).Nodup := List.Nodup.of_map _ (rows_atoms h ▸ h.atoms)

end

theorem mkNot_of_isBoolVar {a : Term} (h : isBoolVar a = true) : mkNot a = .not a := by
  cases a <;> first | rfl | cases h

def Current (τ : Assignment) (d : Domain) (x : ℤ) : Prop :=
  ∃ p ∈ rows d, p.2.2 = x ∧ τ.truth p.1 ≠ some false ∧ ∀ q ∈ rows d, τ.truth q.1 = some true → q = p

theorem mem_trues {rows : List Row} {p : Row} : p ∈ trues τ rows ↔ p ∈ rows ∧ τ.truth p.1 = some true := by
  simp [trues]

theorem mem_leftValues (h : (trues τ (rows d)).length ≤ 1) : x ∈ leftValues τ (rows d) ↔ Current τ d x := by
  rw [leftValues]
  cases hlast : (trues τ (rows d)).getLast? with
  | none =>
    have hnone : ∀ q ∈ rows d, τ.truth q.1 ≠ some true := by
      intro q hq htrue
      have hmem : q ∈ trues τ (rows d) := mem_trues.mpr ⟨hq, htrue⟩
      rw [List.getLast?_eq_none_iff.mp hlast] at hmem
      cases hmem
    simp only [unfixed, List.mem_map, List.mem_filter, decide_eq_true_eq, Current]
    constructor
    · rintro ⟨p, ⟨hp, hunfixed⟩, rfl⟩
      exact ⟨p, hp, rfl, by simp [hunfixed], fun q hq htrue => absurd htrue (hnone q hq)⟩
    · rintro ⟨p, hp, rfl, hfalse, -⟩
      refine ⟨p, ⟨hp, ?_⟩, rfl⟩
      rcases hτ : τ.truth p.1 with _ | _ | _
      · rfl
      · exact absurd hτ hfalse
      · exact absurd hτ (hnone p hp)
  | some t =>
    have hone : trues τ (rows d) = [t] := by
      obtain ⟨init, hinit⟩ := List.getLast?_eq_some_iff.mp hlast
      rw [hinit, length_append, length_singleton] at h
      rw [hinit, List.length_eq_zero_iff.mp (by omega : init.length = 0), nil_append]
    have ht := mem_trues.mp (hone ▸ mem_singleton_self t : t ∈ trues τ (rows d))
    simp only [mem_singleton, Current]
    constructor
    · rintro rfl
      refine ⟨t, ht.1, rfl, by simp [ht.2], fun q hq htrue => ?_⟩
      have hmem : q ∈ trues τ (rows d) := mem_trues.mpr ⟨hq, htrue⟩
      rw [hone] at hmem
      exact List.mem_singleton.mp hmem
    · rintro ⟨p, -, rfl, -, hall⟩
      rw [hall t ht.1 ht.2]

theorem not_current (hd : DomainDeclared d) (h : 1 < (trues τ (rows d)).length) : ¬ Current τ d x := by
  rintro ⟨p, -, -, -, hall⟩
  have hnodup : (trues τ (rows d)).Nodup := (rows_nodup hd).filter _
  match hlist : trues τ (rows d), h with
  | q :: r :: rest, _ =>
    have hq := mem_trues.mp (hlist ▸ mem_cons_self : q ∈ trues τ (rows d))
    have hr := mem_trues.mp (hlist ▸ mem_cons_of_mem _ mem_cons_self : r ∈ trues τ (rows d))
    rw [hlist, hall q hq.1 hq.2, hall r hr.1 hr.2] at hnodup
    simp at hnodup

section

def Solvable (domains : List (List ℤ)) (c : Constraint) : Prop :=
  ∃ value : CpVar → ℤ, (∀ v ∈ c.vars, value v ∈ domainAt domains v) ∧ c.Holds value fun _ => false

def exact : Constraint → Bool
  | .allDifferent _ | .table _ => true
  | _ => false

variable {domains : List (List ℤ)} {presences : List (Option Bool)}

theorem rowFeasible_iff {vars : List CpVar} {row : List ℤ} (h : row.length = vars.length) : rowFeasible domains vars row
    = true ↔ ∃ value : CpVar → ℤ, (∀ v ∈ vars, value v ∈ domainAt domains v) ∧ vars.map value = row := by
  have hget : ∀ i (hi : i < vars.length), vars.getD i 0 = vars[i] ∧ vars[i]? = some vars[i] := by
    intro i hi
    rw [getD_eq_getElem?_getD, getElem?_eq_getElem hi]
    exact ⟨rfl, rfl⟩
  simp only [rowFeasible, List.all_eq_true, List.mem_range, and_eq_true, or_eq_true, bne_iff_ne, beq_iff_eq]
  constructor
  · intro hall
    have hsame : ∀ i j (hi : i < vars.length) (hj : j < i), vars[j] = vars[i] → row[i]? = row[j]? := by
      intro i j hi hj heq
      rcases (hall i hi).2 j hj with hne | hrow
      · rw [(hget i hi).2, (hget j (hj.trans hi)).2, heq] at hne
        exact absurd rfl hne
      · exact hrow
    have hvalue : ∀ i (hi : i < vars.length), row[vars.idxOf vars[i]]? = row[i]? := by
      intro i hi
      have hfirst : vars.idxOf vars[i] < vars.length := idxOf_lt_length_of_mem (getElem_mem hi)
      rcases lt_trichotomy (vars.idxOf vars[i]) i with hlt | heq | hlt
      · exact (hsame i _ hi hlt (getElem_idxOf hfirst)).symm
      · rw [heq]
      · exact hsame _ i hfirst hlt (getElem_idxOf hfirst).symm
    refine ⟨fun v => row.getD (vars.idxOf v) 0, fun v hv => ?_, ?_⟩
    · obtain ⟨i, hi, rfl⟩ := getElem_of_mem hv
      have hmem := (hall i hi).1
      rw [(hget i hi).1, getElem?_eq_getElem (h ▸ hi), any_some, decide_eq_true_eq] at hmem
      beta_reduce
      rwa [getD_eq_getElem?_getD, hvalue i hi, getElem?_eq_getElem (h ▸ hi), getD_some]
    · refine ext_getElem (by rw [length_map, h]) fun i hi hi' => ?_
      rw [getElem_map, getD_eq_getElem?_getD, hvalue i (by rwa [length_map] at hi),
        getElem?_eq_getElem hi', getD_some]
  · rintro ⟨value, hmem, rfl⟩ i hi
    have hcell : ∀ j (hj : j < vars.length), (vars.map value)[j]? = some (value vars[j]) := by
      intro j hj
      rw [getElem?_map, getElem?_eq_getElem hj, map_some]
    refine ⟨?_, fun j hj => ?_⟩
    · rw [hcell i hi, (hget i hi).1]
      simpa using hmem _ (getElem_mem hi)
    · rw [hcell i hi, hcell j (hj.trans hi), (hget i hi).2, (hget j (hj.trans hi)).2]
      by_cases heq : vars[j] = vars[i]
      · exact .inr (by rw [heq])
      · exact .inl fun h => heq (Option.some.inj h)

theorem feasible_exact {c : Constraint} (hc : exact c = true) :
    ∃ b, feasible domains presences c = some b ∧ (b = true ↔ Solvable domains c) := by
  cases c with
  | allDifferent vars => exact matching_spec vars domains
  | table t =>
    refine ⟨_, rfl, ?_⟩
    rw [List.any_eq_true, Solvable]
    simp only [Constraint.vars, Constraint.Holds]
    constructor
    · rintro ⟨row, hrow, hfeasible⟩
      obtain ⟨value, hmem, rfl⟩ := (rowFeasible_iff (t.arity row hrow)).mp hfeasible
      exact ⟨value, hmem, hrow⟩
    · rintro ⟨value, hmem, hrow⟩
      exact ⟨_, hrow, (rowFeasible_iff (t.arity _ hrow)).mpr ⟨value, hmem, rfl⟩⟩
  | regular vars initial accepting edges => cases hc
  | circuit vars => cases hc
  | cumulative tasks capacity => cases hc

end

section

variable {domains : List (List ℤ)} {presences : List (Option Bool)}

theorem startBounds_total (trial : Option (CpVar × ℤ)) {start : CpVar} (h : start < domains.length) :
    ∃ bounds, startBounds domains trial start = some bounds := by
  have hget := getElem?_eq_getElem h
  cases trial with
  | none => exact ⟨_, by rw [startBounds, hget, map_some]⟩
  | some p =>
    rw [startBounds]
    split_ifs
    · exact ⟨_, rfl⟩
    · exact ⟨_, by rw [hget, map_some]⟩

def Known (domains : List (List ℤ)) (presences : List (Option Bool)) (tasks : List ScheduledTask) : Prop :=
  ∀ t ∈ tasks, t.task.start < domains.length ∧ ∀ p ∈ t.presence, p.1 < presences.length

variable {tasks : List ScheduledTask}

theorem eventLoop_total (h : Known domains presences tasks) (trial : Option (CpVar × ℤ)) (capacity : ℤ)
    (events : List (ℤ × ℤ)) : ∃ r, eventLoop domains presences trial capacity tasks events = some r := by
  induction tasks generalizing events with
  | nil => exact ⟨_, rfl⟩
  | cons scheduled rest ih =>
    obtain ⟨⟨hstart, hpresence⟩, hrest⟩ := forall_mem_cons.mp h
    obtain ⟨bounds, hbounds⟩ := startBounds_total trial hstart
    have hnext := ih hrest
    have hbind : ∀ {o : Option Bool} {f : Bool → Option (Option (List (ℤ × ℤ)))},
        (∃ b, o = some b) → (∀ b, ∃ r, f b = some r) → ∃ r, o >>= f = some r := by
      rintro _ f ⟨b, rfl⟩ hf
      exact hf b
    rw [eventLoop]
    rcases hp : scheduled.presence with _ | p
    case' none => refine hbind ⟨true, rfl⟩ fun active => ?_
    case' some =>
      have hindex := getElem?_eq_getElem (hpresence p (by rw [hp]; rfl))
      refine hbind ⟨_, by simp only [hindex, map_some]; rfl⟩ fun active => ?_
    all_goals
      dsimp only
      split_ifs
      · exact hnext _
      · exact ⟨_, rfl⟩
      · rw [hbounds]
        cases bounds with
        | none => exact ⟨_, rfl⟩
        | some b =>
          simp only [bind_eq_bind, bind_some]
          split_ifs
          · exact hnext _
          · exact hnext _
      · exact hnext _

theorem cumulativeFeasible_total (h : Known domains presences tasks) (trial : Option (CpVar × ℤ))
    (capacity : ℤ) : ∃ b, cumulativeFeasible tasks capacity domains presences trial = some b := by
  obtain ⟨events, hevents⟩ := eventLoop_total h trial capacity []
  rw [cumulativeFeasible, hevents]
  split_ifs
  · exact ⟨_, rfl⟩
  · cases events with
    | none => exact ⟨_, rfl⟩
    | some events => exact ⟨_, rfl⟩

def InRange (domains : List (List ℤ)) (presences : List (Option Bool)) (c : Constraint) : Prop :=
  (∀ v ∈ c.vars, v < domains.length) ∧ ∀ i ∈ c.conditions, i < presences.length

theorem InRange.known {capacity : ℤ} (h : InRange domains presences (.cumulative tasks capacity)) :
    Known domains presences tasks := by
  intro t ht
  refine ⟨h.1 _ (mem_map_of_mem ht), fun p hp => h.2 _ (mem_filterMap.mpr ⟨t, ht, ?_⟩)⟩
  rw [mem_def.mp hp, map_some]

variable {c : Constraint}

theorem feasible_total (h : InRange domains presences c) : ∃ b, feasible domains presences c = some b := by
  cases c with
  | allDifferent vars => exact (matching_spec vars domains).imp fun b hb => hb.1
  | table t => exact ⟨_, rfl⟩
  | regular vars initial accepting edges => exact ⟨_, rfl⟩
  | circuit vars =>
    obtain ⟨b, hb, -⟩ := matching_spec vars (restrict vars.length vars 0 domains)
    rw [feasible]
    dsimp only
    split_ifs
    · exact ⟨_, rfl⟩
    · rw [hb]
      cases b with
      | false => exact ⟨_, rfl⟩
      | true => exact ⟨_, rfl⟩
  | cumulative tasks capacity => exact cumulativeFeasible_total h.known none capacity

theorem feasibleAt_eq (hc : ∀ tasks capacity, c ≠ .cumulative tasks capacity) {v : CpVar}
    (hv : v < domains.length) (x : ℤ) : feasibleAt domains presences v x c =
    feasible (domains.set v [x]) presences c := by
  cases c with
  | cumulative tasks capacity => exact absurd rfl (hc tasks capacity)
  | _ => exact if_neg (not_le_of_gt hv)

theorem feasibleAt_total (h : InRange domains presences c) {v : CpVar} (hv : v < domains.length) (x : ℤ) :
    ∃ b, feasibleAt domains presences v x c = some b := by
  by_cases hc : ∃ tasks capacity, c = .cumulative tasks capacity
  · obtain ⟨tasks, capacity, rfl⟩ := hc
    exact cumulativeFeasible_total h.known _ capacity
  · push Not at hc
    rw [feasibleAt_eq hc hv]
    refine feasible_total ?_
    rw [InRange, length_set]
    exact h

theorem feasibleLoop_spec {test : Constraint → Option Bool} {constraints : List Constraint}
    (h : ∀ c ∈ constraints, ∃ b, test c = some b) :
    (feasibleLoop test constraints = .feasible ∧ ∀ c ∈ constraints, test c = some true) ∨
    ∃ c ∈ constraints, feasibleLoop test constraints = .infeasible c ∧ test c = some false := by
  induction constraints with
  | nil => exact .inl ⟨rfl, nofun⟩
  | cons c constraints ih =>
    obtain ⟨⟨b, hb⟩, hrest⟩ := forall_mem_cons.mp h
    rw [feasibleLoop, hb]
    cases b with
    | false => exact .inr ⟨c, mem_cons_self, rfl, hb⟩
    | true =>
      refine (ih hrest).imp (fun hall => ⟨hall.1, forall_mem_cons.mpr ⟨hb, hall.2⟩⟩) ?_
      rintro ⟨c', hc', hloop, htest⟩
      exact ⟨c', mem_cons_of_mem _ hc', hloop, htest⟩

end

section

variable {table : List (CpVar × Domain)} {t : TableStatement} {forced : Option (CpVar × ℤ)} {reasons : List Term}
  {row : List ℤ}

theorem lookup_domains {domains : List Domain} {vars : List CpVar} {v : CpVar} (hv : v ∈ vars) :
    (vars.filterMap fun v => domains[v]?.map fun d => (v, d)).lookup v = domains[v]? := by
  induction vars with
  | nil => cases hv
  | cons w vars ih =>
    by_cases heq : v = w
    · subst heq
      cases hd : domains[v]? with
      | some d => simp [hd]
      | none =>
        have hnone : ∀ p ∈ vars.filterMap fun v => domains[v]?.map fun d => (v, d), p.1 ≠ v := by
          intro p hp heq
          obtain ⟨w, -, hw⟩ := mem_filterMap.mp hp
          obtain ⟨e, he, rfl⟩ := map_eq_some_iff.mp hw
          rw [show w = v from heq, hd] at he
          cases he
        rw [filterMap_cons, hd, map_none]
        exact lookup_eq_none_iff.mpr fun p hp => by simpa using (hnone p hp).symm
    · have hmem := (mem_cons.mp hv).resolve_left heq
      rw [filterMap_cons]
      cases domains[w]? with
      | none => exact ih hmem
      | some e =>
        rw [map_some]
        simp only [lookup_cons, beq_false_of_ne heq]
        exact ih hmem

theorem lookup_tableDomains {domains : List Domain} {v : CpVar} (hv : v ∈ t.vars) :
    (tableDomains domains t).lookup v = domains[v]? :=
  lookup_domains (mem_dedup.mpr (mem_mergeSort.mpr hv))

structure Unblocked (t : TableStatement) (forced : Option (CpVar × ℤ)) (reasons : List Term) (row : List ℤ) (column : ℕ)
    (var : CpVar) (d : Domain) (value : ℤ) : Prop where
  mem : value ∈ d.values
  same : ∀ i < column, t.vars[i]? = some var → row[i]? = some value
  assumed : ∀ p ∈ forced, p.1 = var → p.2 = value
  unstated : ∀ index < d.values.length, ∀ r ∈ reasons,
    some r ≠ if d.values[index]? = some value then d.negations[index]? else d.atoms[index]?

theorem premise_check {column index k : ℕ} {var : CpVar} {value : ℤ} {r : Term} (hd : DomainDeclared d)
    (hvar : t.vars[column]? = some var) (hdomain : table.lookup var = some d) (hvalue : row[column]? = some value)
    (hindex : index < d.values.length) (hr : reasons[k]? = some r)
    (hblocking : some r = if d.values[index]? = some value then d.negations[index]? else d.atoms[index]?) :
    check table t forced reasons row (.premise column k) = true := by
  have hatom : index < d.atoms.length := hd.length ▸ hindex
  have hnegation : index < d.negations.length := by
    rw [hd.negations, length_map]
    exact hatom
  have hentry : (d.values[index], d.atoms[index], d.negations[index]) ∈ d.values.zip (d.atoms.zip d.negations) := by
    refine mem_iff_getElem?.mpr ⟨index, ?_⟩
    simp only [getElem?_zip_eq_some]
    exact ⟨getElem?_eq_getElem hindex, getElem?_eq_getElem hatom, getElem?_eq_getElem hnegation⟩
  simp only [check, hvar, hdomain, hvalue, hr, Option.bind_eq_bind, Option.bind_some, Option.pure_def,
    List.any_eq_true]
  refine ⟨_, hentry, ?_⟩
  rw [List.getElem?_eq_getElem hindex, List.getElem?_eq_getElem hatom, List.getElem?_eq_getElem hnegation] at hblocking
  split_ifs at hblocking with heq
  · simp [Option.some.inj hblocking, Option.some.inj heq]
  · have hne : value ≠ d.values[index] := fun h => heq (congrArg some h.symm)
    simp [Option.some.inj hblocking, hne]

theorem columnBlocker_spec (forced : Option (CpVar × ℤ)) (reasons : List Term) {column : ℕ} {var : CpVar} {value : ℤ}
    (hd : DomainDeclared d) (hvar : t.vars[column]? = some var) (hdomain : table.lookup var = some d)
    (hvalue : row[column]? = some value) (hrow : row.length = t.vars.length) :
    (∃ blocker, columnBlocker table t forced reasons row column = some (some blocker) ∧
    blocker.check table t forced reasons row = true) ∨ columnBlocker table t forced reasons row column = some none ∧
    Unblocked t forced reasons row column var d value := by
  simp only [columnBlocker, hvar, hdomain, hvalue, bind_eq_bind, bind_some]
  by_cases hmem : value ∈ d.values
  · rw [if_neg (not_not_intro hmem)]
    cases hfind : (List.range column).find? fun i => t.vars[i]? = some var ∧ row[i]? ≠ some value with
    | some first =>
      refine .inl ⟨.alias first column, rfl, ?_⟩
      have hsome := find?_some hfind
      simp only [decide_eq_true_eq] at hsome
      have hlt : first < row.length := by
        rw [hrow]
        exact (List.getElem?_eq_some_iff.mp hsome.1).1
      have hcell := getElem?_eq_getElem hlt
      have hne : row[first] ≠ value := by
        intro heq
        rw [hcell, heq] at hsome
        exact hsome.2 rfl
      simp only [check, hsome.1, hcell, hdomain, hvar, hvalue, bind_eq_bind, bind_some,
        Option.pure_def, decide_true, Bool.true_and, decide_eq_true_eq]
      exact hne
    | none =>
      have hsame : ∀ i < column, t.vars[i]? = some var → row[i]? = some value := by
        intro i hi hvar'
        have hnone := List.find?_eq_none.mp hfind i (List.mem_range.mpr hi)
        simpa [hvar'] using hnone
      dsimp only
      by_cases hforced : forced.any fun p => p.1 = var ∧ p.2 ≠ value
      · rw [if_pos hforced]
        refine .inl ⟨.negatedConclusion column, rfl, ?_⟩
        cases forced with
        | none => cases hforced
        | some p =>
          simp only [any_some, decide_eq_true_eq] at hforced
          simp only [check, hvar, hdomain, hvalue, bind_eq_bind, bind_some,
            Option.pure_def,
            any_some, Bool.and_eq_true, decide_eq_true_eq]
          exact ⟨hforced.1.symm, hforced.2.symm⟩
      · rw [if_neg hforced]
        have hassumed : ∀ p ∈ forced, p.1 = var → p.2 = value := by
          rintro p rfl hp
          by_contra hne
          exact hforced (by simp [hp, hne])
        cases hpremise : (List.range d.values.length).findSome? fun index =>
            (reasons.findIdx? fun r => some r =
              if d.values[index]? = some value then d.negations[index]? else d.atoms[index]?).map fun k =>
                TableRowBlocker.premise column k with
        | some blocker =>
          obtain ⟨index, hindex, hfound⟩ := exists_of_findSome?_eq_some hpremise
          obtain ⟨k, hk, rfl⟩ := Option.map_eq_some_iff.mp hfound
          obtain ⟨hlt, hr, -⟩ := List.findIdx?_eq_some_iff_getElem.mp hk
          simp only [decide_eq_true_eq] at hr
          refine .inl ⟨.premise column k, by simp only [Option.pure_def], ?_⟩
          exact premise_check hd hvar hdomain hvalue (List.mem_range.mp hindex) (getElem?_eq_getElem hlt) hr
        | none =>
          refine .inr ⟨by simp only [Option.pure_def], hmem, hsame, hassumed, fun index hindex r hr heq => ?_⟩
          have hnone := List.findSome?_eq_none_iff.mp hpremise index (List.mem_range.mpr hindex)
          rw [map_eq_none_iff, findIdx?_eq_none_iff] at hnone
          have hfalse := hnone r hr
          rw [decide_eq_false_iff_not] at hfalse
          exact hfalse heq
  · rw [if_pos hmem]
    refine .inl ⟨.outsideDomain column, rfl, ?_⟩
    simp [check, hvar, hdomain, hvalue, hmem]

theorem rowBlocker_spec (hrow : row.length = t.vars.length) (columns : List ℕ)
    (hcolumns : ∀ column ∈ columns, ∃ var d value, t.vars[column]? = some var ∧ table.lookup var = some d ∧
    row[column]? = some value ∧ DomainDeclared d) :
    (∃ blocker, rowBlocker table t forced reasons row columns = some blocker ∧
    blocker.check table t forced reasons row = true) ∨ ∀ column ∈ columns, ∃ var d value, t.vars[column]? = some var ∧
    table.lookup var = some d ∧ row[column]? = some value ∧ Unblocked t forced reasons row column var d value := by
  induction columns with
  | nil => exact .inr nofun
  | cons column columns ih =>
    obtain ⟨⟨var, d, value, hvar, hdomain, hvalue, hd⟩, hrest⟩ := forall_mem_cons.mp hcolumns
    rcases columnBlocker_spec forced reasons hd hvar hdomain hvalue hrow with
      ⟨blocker, hblocker, hcheck⟩ | ⟨hnone, hunblocked⟩
    · exact .inl ⟨blocker, by rw [rowBlocker, hblocker], hcheck⟩
    · rcases ih hrest with ⟨blocker, hblocker, hcheck⟩ | hall
      · exact .inl ⟨blocker, by rw [rowBlocker, hnone]; exact hblocker, hcheck⟩
      · exact .inr (forall_mem_cons.mpr ⟨⟨var, d, value, hvar, hdomain, hvalue, hunblocked⟩, hall⟩)

theorem mapM_all {α β : Type} {f : α → Option β} {check : α → β → Bool} {items : List α}
    (h : ∀ a ∈ items, ∃ b, f a = some b ∧ check a b = true) :
    ∃ results, items.mapM f = some results ∧ (items.zip results).all (fun p => check p.1 p.2) = true := by
  induction items with
  | nil => exact ⟨[], rfl, rfl⟩
  | cons a items ih =>
    obtain ⟨⟨b, hb, hcheck⟩, hrest⟩ := forall_mem_cons.mp h
    obtain ⟨results, hresults, hall⟩ := ih hrest
    refine ⟨b :: results, ?_, ?_⟩
    · rw [mapM_cons, hb, hresults]
      rfl
    · rw [zip_cons_cons, all_cons, hcheck, hall, Bool.true_and]

def Covers (s : CpStatement) (domains : List (List ℤ)) (forced : Option (CpVar × ℤ)) (reasons : List Term) : Prop :=
  ∀ v d, s.domains[v]? = some d → ∀ x ∈ d.values, x ∉ domainAt domains v →
    (∃ p ∈ forced, p.1 = v ∧ p.2 ≠ x) ∨
      ∃ index < d.values.length, ∃ r ∈ reasons,
        some r = if d.values[index]? = some x then d.negations[index]? else d.atoms[index]?

theorem tableExplains_of_not_solvable (hs : s.Declared) (hvars : ∀ v ∈ t.vars, v < s.domains.length) {conclusion : Term}
    {domains : List (List ℤ)} (hforced : forcedValue (tableDomains s.domains t) conclusion = forced)
    (hconclusion : (conclusion = s.falseTerm ∧ forced = none) ∨ (conclusion ≠ s.falseTerm ∧ forced.isSome))
    (hcovers : Covers s domains forced reasons) (h : ¬ Solvable domains (.table t)) :
    tableExplains s.domains t s.falseTerm conclusion reasons = true := by
  have hcolumns : ∀ row ∈ t.rows, ∀ column ∈ List.range t.vars.length, ∃ var d value, t.vars[column]? = some var ∧
      (tableDomains s.domains t).lookup var = some d ∧ row[column]? = some value ∧ DomainDeclared d := by
    intro row hrow column hcolumn
    have hlt := mem_range.mp hcolumn
    have hmem := getElem_mem hlt
    have hdomain := getElem?_eq_getElem (hvars _ hmem)
    exact ⟨_, _, _, getElem?_eq_getElem hlt, (lookup_tableDomains hmem).trans hdomain,
      getElem?_eq_getElem (t.arity row hrow ▸ hlt), hs.domains _ (getElem_mem _)⟩
  have hrows : ∀ row ∈ t.rows, ∃ blocker, rowBlocker (tableDomains s.domains t) t forced reasons row
      (List.range t.vars.length) = some blocker ∧
        check (tableDomains s.domains t) t forced reasons row blocker = true := by
    intro row hrow
    rcases rowBlocker_spec (t.arity row hrow) _ (hcolumns row hrow) with hblocked | hall
    · exact hblocked
    · refine absurd ?_ h
      obtain ⟨b, hb, hiff⟩ := @feasible_exact domains [] (.table t) rfl
      rw [← hiff, ← some.inj hb]
      refine any_eq_true.mpr ⟨row, hrow, ?_⟩
      simp only [rowFeasible, List.all_eq_true, List.mem_range, Bool.and_eq_true, Bool.or_eq_true, bne_iff_ne,
        beq_iff_eq]
      intro i hi
      obtain ⟨var, d, value, hvar, hdomain, hvalue, hfree⟩ := hall i (List.mem_range.mpr hi)
      refine ⟨?_, fun j hj => ?_⟩
      · rw [hvalue, getD_eq_getElem?_getD, hvar]
        simp only [any_some, getD_some, decide_eq_true_eq]
        by_contra hleft
        rw [lookup_tableDomains (mem_of_getElem? hvar)] at hdomain
        rcases hcovers var d hdomain value hfree.mem hleft with ⟨p, hp, hpvar, hne⟩ | ⟨index, hindex, r, hr, hblocking⟩
        · exact hne (hfree.assumed p hp hpvar)
        · exact hfree.unstated index hindex r hr hblocking
      · rw [hvar, hvalue]
        by_cases heq : t.vars[j]? = some var
        · exact .inr (hfree.same j hj heq).symm
        · exact .inl heq
  obtain ⟨blockers, hblockers, hall⟩ := mapM_all hrows
  rw [tableExplains]
  dsimp only
  rw [hforced, hblockers]
  rcases hconclusion with ⟨hfalse, rfl⟩ | ⟨hne, hsome⟩
  · simp only [hfalse, decide_true, Bool.true_or, if_true, Bool.true_and]
    exact hall
  · simp only [hsome, Bool.or_true, if_neg hne, Bool.true_and]
    exact hall

end

section

variable {t : TableStatement}

theorem findSome?_unique {α β : Type} {f : α → Option β} {items : List α} {b : β}
    (h : ∀ a ∈ items, f a = none ∨ f a = some b) (hfound : ∃ a ∈ items, f a = some b) : items.findSome? f = some b := by
  induction items with
  | nil =>
    obtain ⟨a, ha, -⟩ := hfound
    cases ha
  | cons a items ih =>
    obtain ⟨ha, hrest⟩ := forall_mem_cons.mp h
    rw [findSome?_cons]
    rcases ha with ha | ha
    · rw [ha]
      obtain ⟨a', ha', hf⟩ := hfound
      rcases mem_cons.mp ha' with rfl | ha'
      · rw [ha] at hf
        cases hf
      · exact ih hrest ⟨a', ha', hf⟩
    · rw [ha]

variable {v : CpVar}

theorem mem_tableDomains {domains : List Domain} {e : Domain} : (v, e) ∈ tableDomains domains t ↔ v ∈ t.vars ∧
    domains[v]? = some e := by
  simp only [tableDomains, mem_filterMap, map_eq_some_iff, Prod.mk.injEq, mem_dedup, mem_mergeSort]
  constructor
  · rintro ⟨w, hw, e', he, rfl, rfl⟩
    exact ⟨hw, he⟩
  · rintro ⟨hv, he⟩
    exact ⟨v, hv, e, he, rfl, rfl⟩

theorem DomainDeclared.mkNot_eq (hd : DomainDeclared d) {a : Term} (ha : a ∈ d.atoms) : mkNot a = .not a :=
  mkNot_of_isBoolVar (hd.isVar a ha)

theorem mem_negations (hd : DomainDeclared d) {r : Term} : r ∈ d.negations ↔ ∃ a ∈ d.atoms, .not a = r := by
  rw [hd.negations, List.mem_map]
  exact exists_congr fun a => and_congr_right fun ha => by rw [hd.mkNot_eq ha]

theorem row_negation (hd : DomainDeclared d) {p : Row} (hp : p ∈ rows d) : p.1 ∈ d.atoms ∧ p.2.1 = .not p.1 := by
  obtain ⟨i, hatom, -, hnegation⟩ := (mem_rows hd).mp hp
  have hmem := mem_of_getElem? hatom
  exact ⟨hmem, hnegation.trans (hd.mkNot_eq hmem)⟩

theorem Declared.domain_eq (hs : s.Declared) {w : CpVar} {e : Domain} (hv : s.domains[v]? = some d)
    (hw : s.domains[w]? = some e) {a : Term} (ha : a ∈ d.atoms) (ha' : a ∈ e.atoms) : v = w := by
  obtain ⟨hvlt, rfl⟩ := List.getElem?_eq_some_iff.mp hv
  obtain ⟨hwlt, rfl⟩ := List.getElem?_eq_some_iff.mp hw
  have hpairwise := List.pairwise_iff_getElem.mp hs.disjoint
  rcases lt_trichotomy v w with hlt | heq | hlt
  · exact absurd ha' (hpairwise v w hvlt hwlt hlt a ha)
  · exact heq
  · exact absurd ha (hpairwise w v hwlt hvlt hlt a ha')

theorem Declared.domain (hs : s.Declared) (hv : s.domains[v]? = some d) : DomainDeclared d :=
  hs.domains d (mem_of_getElem? hv)

theorem Declared.negation_ne_false (hs : s.Declared) (hd : DomainDeclared d) {r : Term} (hr : r ∈ d.negations) :
    r ≠ s.falseTerm := by
  obtain ⟨a, -, rfl⟩ := (mem_negations hd).mp hr
  rw [hs.falseTerm]
  exact nofun

theorem forcedValue_false (hs : s.Declared) : forcedValue (tableDomains s.domains t) s.falseTerm = none := by
  refine findSome?_eq_none_iff.mpr fun q hq => ?_
  obtain ⟨v, e⟩ := q
  have he := hs.domain (mem_tableDomains.mp hq).2
  have hnone : e.negations.findIdx? (fun r => decide (r = s.falseTerm)) = none := by
    rw [findIdx?_eq_none_iff]
    exact fun r hr => decide_eq_false (hs.negation_ne_false he hr)
  rw [hnone, bind_none]

theorem findIdx_negation (hd : DomainDeclared d) {p : Row} (hp : p ∈ rows d) :
    ∃ i : ℕ, d.negations.findIdx? (fun r => decide (r = p.2.1)) = some i ∧ d.atoms[i]? = some p.1 ∧
    d.values[i]? = some p.2.2 := by
  obtain ⟨hmem, hnegation⟩ := row_negation hd hp
  obtain ⟨j, hatom, hvalue, -⟩ := (mem_rows hd).mp hp
  have hin : p.2.1 ∈ d.negations := (mem_negations hd).mpr ⟨p.1, hmem, hnegation.symm⟩
  cases hfind : d.negations.findIdx? (fun r => decide (r = p.2.1)) with
  | none => exact absurd rfl (of_decide_eq_false ((List.findIdx?_eq_none_iff.mp hfind) _ hin))
  | some i =>
    obtain ⟨hlt, hr, -⟩ := List.findIdx?_eq_some_iff_getElem.mp hfind
    have hilt : i < d.atoms.length := by rwa [hd.negations, length_map] at hlt
    have hnot : mkNot d.atoms[i] = .not p.1 := by
      have heq := of_decide_eq_true hr
      simp only [hd.negations, getElem_map] at heq
      rw [heq, hnegation]
    rw [hd.mkNot_eq (getElem_mem hilt)] at hnot
    obtain ⟨hjlt, hj⟩ := List.getElem?_eq_some_iff.mp hatom
    have hij : i = j := (List.Nodup.getElem_inj_iff hd.atoms).mp ((Term.not.inj hnot).trans hj.symm)
    exact ⟨i, rfl, hij ▸ hatom, hij ▸ hvalue⟩

theorem forcedValue_row (hs : s.Declared) (hv : v ∈ t.vars) (hdomain : s.domains[v]? = some d) {p : Row}
    (hp : p ∈ rows d) : forcedValue (tableDomains s.domains t) p.2.1 = some (v, p.2.2) := by
  have hd := hs.domain hdomain
  obtain ⟨i, hfind, -, hvalue⟩ := findIdx_negation hd hp
  have hself : ((d.negations.findIdx? fun r => decide (r = p.2.1)).bind fun i => d.values[i]?.map fun x => (v, x)) =
      some (v, p.2.2) := by
    rw [hfind, bind_some, hvalue, map_some]
  refine findSome?_unique (fun q hq => ?_) ⟨(v, d), mem_tableDomains.mpr ⟨hv, hdomain⟩, hself⟩
  obtain ⟨w, e⟩ := q
  obtain ⟨-, he⟩ := mem_tableDomains.mp hq
  by_cases hvw : v = w
  · subst hvw
    rw [hdomain] at he
    cases he
    exact .inr hself
  · refine .inl ?_
    have hnone : e.negations.findIdx? (fun r => decide (r = p.2.1)) = none := by
      rw [findIdx?_eq_none_iff]
      refine fun r hr => decide_eq_false ?_
      rintro rfl
      obtain ⟨a, ha, hnot⟩ := (mem_negations (hs.domain he)).mp hr
      obtain ⟨hmem, hnegation⟩ := row_negation hd hp
      rw [hnegation] at hnot
      exact hvw (hs.domain_eq hdomain he hmem (Term.not.inj hnot ▸ ha))
    simp only [hnone, bind_none]

end

def leftDomains (τ : Assignment) (s : CpStatement) : List (List ℤ) := s.domains.map fun d => leftValues τ (rows d)

theorem domainAt_leftDomains {v : CpVar} (h : s.domains[v]? = some d) :
    domainAt (leftDomains τ s) v = leftValues τ (rows d) := by
  rw [domainAt, leftDomains, getElem?_map, h, map_some, getD_some]

theorem domainAt_set {domains : List (List ℤ)} {v : CpVar} (hv : v < domains.length) (values : List ℤ) (w : CpVar) :
    domainAt (domains.set v values) w = if w = v then values else domainAt domains w := by
  rw [domainAt, getElem?_set]
  split_ifs with h h' h'
  · rfl
  · exact absurd h.symm h'
  · exact absurd h'.symm h
  · rfl

def States (τ : Assignment) (s : CpStatement) (reasons : List Term) : Prop :=
  ∀ d ∈ s.domains, ∀ p ∈ rows d, ∀ r ∈ premise τ p, r ∈ reasons

variable {reasons : List Term}

theorem States.blocks (h : States τ s reasons) (hd : DomainDeclared d) (hmem : d ∈ s.domains)
    (hvalid : (trues τ (rows d)).length ≤ 1) (hx : x ∈ d.values) (hleft : x ∉ leftValues τ (rows d)) :
    ∃ index < d.values.length, ∃ r ∈ reasons, some r = if d.values[index]? =
    some x then d.negations[index]? else d.atoms[index]? := by
  rw [mem_leftValues hvalid] at hleft
  obtain ⟨p, hp, rfl⟩ := mem_map.mp (rows_values hd ▸ hx : x ∈ (rows d).map (·.2.2))
  obtain ⟨i, hatom, hvalue, hnegation⟩ := (mem_rows hd).mp hp
  by_cases hfalse : τ.truth p.1 = some false
  · refine ⟨i, (List.getElem?_eq_some_iff.mp hvalue).1, p.2.1, h d hmem p hp _ (by simp [premise, hfalse]), ?_⟩
    rw [if_pos hvalue, hd.negations, getElem?_map, hatom, map_some, hnegation]
  · have hother : ∃ q ∈ rows d, τ.truth q.1 = some true ∧ q ≠ p := by
      by_contra hnone
      push Not at hnone
      exact hleft ⟨p, hp, rfl, hfalse, hnone⟩
    obtain ⟨q, hq, htrue, hne⟩ := hother
    obtain ⟨j, hatom', hvalue', -⟩ := (mem_rows hd).mp hq
    refine ⟨j, (List.getElem?_eq_some_iff.mp hvalue').1, q.1, h d hmem q hq _ (by simp [premise, htrue]), ?_⟩
    rw [if_neg, hatom']
    intro heq
    rw [hvalue'] at heq
    exact hne (row_eq_of_value hd hq hp (some.inj heq))

theorem States.covers (h : States τ s reasons) (hs : s.Declared)
    (hvalid : ∀ d ∈ s.domains, (trues τ (rows d)).length ≤ 1) : Covers s (leftDomains τ s) none reasons := by
  intro v d hd x hx hleft
  have hmem := mem_of_getElem? hd
  rw [domainAt_leftDomains hd] at hleft
  exact .inr (h.blocks (hs.domain hd) hmem (hvalid d hmem) hx hleft)

theorem States.covers_set (h : States τ s reasons) (hs : s.Declared)
    (hvalid : ∀ d ∈ s.domains, (trues τ (rows d)).length ≤ 1) {v : CpVar} (hv : v < s.domains.length) (y : ℤ) :
    Covers s ((leftDomains τ s).set v [y]) (some (v, y)) reasons := by
  intro w d hd x hx hleft
  have hmem := mem_of_getElem? hd
  rw [domainAt_set (by rwa [leftDomains, length_map])] at hleft
  split_ifs at hleft with hwv
  · exact .inl ⟨(v, y), rfl, hwv.symm, fun heq => hleft (mem_singleton.mpr heq.symm)⟩
  · rw [domainAt_leftDomains hd] at hleft
    exact .inr (h.blocks (hs.domain hd) hmem (hvalid d hmem) hx hleft)

end CpStatement

end Nixie.Cp
