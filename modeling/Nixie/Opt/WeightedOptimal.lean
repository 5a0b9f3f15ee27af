import Mathlib.Tactic.NormNum
import Nixie.Opt.WeightedSearch

namespace Nixie.Opt

open Literal Nixie.Sat List MaxSatSolver

def required (hard : List (List ℕ)) (soft : List (List ℕ × Weight)) : List (List ℕ) :=
  hard ++ soft.filterMap fun p => match p.2 with
    | .infinite => some p.1
    | _ => none

def unitCopies (soft : List SoftClause) : ℤ :=
  totalDuplicates (finiteOf soft (scaleOf soft)) (unitOf (finiteOf soft (scaleOf soft)))

def Attains (clauses : List (List ℕ)) (soft : List (List ℕ × Weight)) (model : List (Option Bool))
    (w : Weight) : Prop :=
  w.value = violatedWeight (litHolds model) soft ∧
    ∀ σ, Satisfies σ clauses → w.value ≤ violatedWeight (Sat.isTrue σ) soft

section

variable {solver : SatSolver} {s : MaxSatSolver}

theorem extraHardOf_eq : s.hardClauses ++ extraHardOf s.softClauses =
    required s.hardClauses (s.softClauses.map fun c => (c.lits, c.weight)) := by
  rw [required, filterMap_map]
  rfl

theorem any_of_holds {clauses : List (List ℕ)} {holds : ℕ → Bool}
    (h : ∀ c ∈ s.hardClauses ++ clauses, ∃ lit ∈ c, holds lit) : ∀ c ∈ clauses, c.any holds :=
  fun c hc => any_eq_true.mpr (h c (mem_append_right _ hc))

theorem attains_zero (hlower : s.lowerBound.value = 0)
    (hzero : ∀ holds : ℕ → Bool, (∀ c ∈ extraHardOf s.softClauses, c.any holds) →
    violatedWeight holds (s.softClauses.map fun c => (c.lits, c.weight)) = 0) {model : List (Option Bool)} {w : Weight}
    (hmodel : ∀ c ∈ s.hardClauses ++ extraHardOf s.softClauses, ∃ lit ∈ c, litHolds model lit)
    (hw : w = s.lowerBound) : Attains (s.hardClauses ++ extraHardOf s.softClauses)
    (s.softClauses.map fun c => (c.lits, c.weight)) model w := by
  rw [Attains, hw, hlower]
  exact ⟨(hzero _ (any_of_holds hmodel)).symm, fun σ hσ => (hzero _ (any_of_holds hσ)).ge⟩

theorem solveWeightedCoreGuided_many (hmany : maxWeightDuplicates < unitCopies s.softClauses) :
    solveWeightedCoreGuided solver s = (.ok .unknown, s) := by
  have hne : unitOf (finiteOf s.softClauses (scaleOf s.softClauses)) ≠ 0 := by
    intro hzero
    have hcopies : unitCopies s.softClauses = 0 := by
      rw [unitCopies, totalDuplicates_eq, hzero]
      exact sum_eq_zero fun n hn => by
        obtain ⟨f, -, rfl⟩ := mem_map.mp hn
        exact Int.tdiv_zero _
    rw [hcopies] at hmany
    exact absurd hmany (by decide)
  rw [unitCopies] at hmany
  unfold solveWeightedCoreGuided
  dsimp only
  rw [if_neg hne, if_pos hmany]

theorem solveWeightedCoreGuided_answers (hsolver : Correct solver) (hweights : ∀ c ∈ s.softClauses, 0 ≤ c.weight.value)
    (hlower : s.lowerBound.value = 0) (hfew : unitCopies s.softClauses ≤ maxWeightDuplicates) :
    Answers solver s.softClauses (s.hardClauses ++ extraHardOf s.softClauses)
    (Attains (s.hardClauses ++ extraHardOf s.softClauses) (s.softClauses.map fun c => (c.lits, c.weight)))
    (solveWeightedCoreGuided solver s) := by
  obtain ⟨hscale, hclears⟩ := scaleOf_spec s.softClauses
  have hviolated := fun holds => @violatedWeight_eq holds _ _ hscale hclears
  have hfinite := finiteOf_nonneg hscale hweights
  obtain ⟨hunit, hdvd⟩ := unitOf_spec hfinite
  rw [unitCopies] at hfew
  unfold solveWeightedCoreGuided
  dsimp only
  generalize scaleOf s.softClauses = scale at hscale hviolated hfinite hunit hdvd hfew ⊢
  generalize finiteOf s.softClauses scale = finite at hviolated hfinite hunit hdvd hfew ⊢
  generalize unitOf finite = unit at hunit hdvd hfew ⊢
  by_cases hzero : unit = 0
  · rw [if_pos hzero]
    refine (solveHardOnlyWithExtra_answers hsolver _).imp fun model w hmodel =>
      attains_zero hlower (fun holds hholds => ?_) hmodel
    rw [hviolated holds hholds, violatedTotal_zero fun f hf => hzero ▸ hdvd f hf]
    simp
  have hpos : 0 < unit := lt_of_le_of_ne hunit (Ne.symm hzero)
  have hitems := fun holds => @violations_itemsOf holds _ _ hpos hdvd hfinite hfew
  rw [if_neg hzero, if_neg (not_lt.mpr hfew)]
  by_cases hempty : (itemsOf finite unit).isEmpty = true
  · rw [if_pos hempty]
    refine (solveHardOnlyWithExtra_answers hsolver _).imp fun model w hmodel =>
      attains_zero hlower (fun holds hholds => ?_) hmodel
    rw [hviolated holds hholds, ← hitems holds, isEmpty_iff.mp hempty]
    simp [violations]
  · rw [if_neg hempty]
    refine (solveByCardinalitySearch_answers hsolver _).imp fun model w hmodel hbest => ?_
    obtain ⟨k, rfl, hle, hleast⟩ := hbest
    have hcost : (s.lowerBound.add ((normalizeWeight (Rat.divInt unit scale)).mulScalar k)).value =
        (((k * unit : ℤ) : ℚ) / scale : ℚ) := by
      rw [Weight.value_add, hlower, zero_add, value_unitCost]
    have hweight : ∀ holds : ℕ → Bool, (∀ c ∈ s.hardClauses ++ extraHardOf s.softClauses, ∃ lit ∈ c, holds lit) →
        violatedWeight holds (s.softClauses.map fun c => (c.lits, c.weight)) =
          (((violations holds (itemsOf finite unit) * unit : ℤ) : ℚ) / scale : ℚ) := by
      intro holds hholds
      rw [hviolated holds (any_of_holds hholds), hitems]
    have hattained : violations (litHolds model) (itemsOf finite unit) = k := by
      refine le_antisymm hle ((hleast _ (satisfies_completion hmodel)).trans ?_)
      exact violations_mono fun lit => isTrue_completion
    refine ⟨by rw [hcost, hweight _ hmodel, hattained], fun σ hσ => ?_⟩
    rw [hcost, hweight _ hσ, WithTop.coe_le_coe]
    have hmul : (k * unit : ℤ) ≤ violations (Sat.isTrue σ) (itemsOf finite unit) * unit :=
      mul_le_mul_of_nonneg_right (by exact_mod_cast hleast σ hσ) hpos.le
    exact div_le_div_of_nonneg_right (by exact_mod_cast hmul) (by exact_mod_cast hscale.le)

end

section

variable {s : MaxSatSolver} {solver : SatSolver} {config : MaxSatConfig} {hard : List (List ℕ)}
  {soft : List (List ℕ × Weight)}

theorem hasDifferentWeights_of_ne {c c' : SoftClause} (hc : c ∈ s.softClauses) (hc' : c' ∈ s.softClauses)
    (hne : c.weight.value ≠ c'.weight.value) : hasDifferentWeights s = true := by
  unfold hasDifferentWeights
  cases hsoft : s.softClauses with
  | nil =>
    rw [hsoft] at hc
    exact absurd hc not_mem_nil
  | cons first rest =>
    simp only [hsoft] at hc hc' ⊢
    rw [any_eq_true]
    by_contra hnone
    push Not at hnone
    have hsame : ∀ d ∈ first :: rest, d.weight.value = first.weight.value := fun d hd =>
      Weight.beq_iff.mp (by simpa [bne] using hnone d hd)
    exact hne ((hsame c hc).trans (hsame c' hc').symm)

def SearchPath (config : MaxSatConfig) (soft : List (List ℕ × Weight)) : Prop :=
  config.algorithm ≠ .oll ∨
    config.stratified = true ∧ ∃ p ∈ soft, ∃ q ∈ soft, p.2.value ≠ q.2.value

theorem solve_searchPath (hs : s.Holds config hard soft) (hpath : SearchPath config soft) :
    s.solve solver = if s.softClauses.isEmpty then checkHardSatisfiable solver s
      else solveWeightedCoreGuided solver s := by
  unfold solve
  by_cases hempty : s.softClauses.isEmpty = true
  · rw [if_pos hempty, if_pos hempty]
  rw [if_neg hempty, if_neg hempty]
  by_cases hdiffer : (s.config.stratified && hasDifferentWeights s) = true
  · rw [if_pos hdiffer]
  rw [if_neg hdiffer]
  cases halgorithm : s.config.algorithm with
  | fuMalik => rfl
  | msu3 => rfl
  | wMax =>
    dsimp only [solveWmax]
    split <;> rfl
  | pmres => rfl
  | oll =>
    refine absurd ?_ hdiffer
    rcases hpath with halg | ⟨hstratified, p, hp, q, hq, hne⟩
    · exact absurd (hs.config ▸ halgorithm) halg
    · rw [← hs.softClauses] at hp hq
      obtain ⟨c, hc, rfl⟩ := mem_map.mp hp
      obtain ⟨c', hc', rfl⟩ := mem_map.mp hq
      rw [hs.config, hstratified, Bool.true_and]
      exact hasDifferentWeights_of_ne hc hc' hne

theorem hardClauses_of_holds (hs : s.Holds config hard soft) :
    s.hardClauses ++ extraHardOf s.softClauses = required hard soft := by
  rw [extraHardOf_eq, hs.hardClauses, hs.softClauses]

theorem solve_answers (hsolver : Correct solver) (hs : s.Holds config hard soft) (hweights : ∀ p ∈ soft, 0 ≤ p.2.value)
    (hpath : SearchPath config soft) (hfew : unitCopies s.softClauses ≤ maxWeightDuplicates) :
    Answers solver s.softClauses (required hard soft) (Attains (required hard soft) soft) (s.solve solver) := by
  rw [solve_searchPath hs hpath]
  by_cases hempty : s.softClauses.isEmpty = true
  · rw [if_pos hempty]
    have hnil := isEmpty_iff.mp hempty
    have hsoft : soft = [] := by rw [← hs.softClauses, hnil, map_nil]
    subst hsoft
    have hrequired : required hard [] = s.hardClauses := by rw [required, filterMap_nil, append_nil, hs.hardClauses]
    rw [hrequired]
    refine (checkHardSatisfiable_answers hsolver).imp fun model w hmodel hw => ?_
    rw [Attains, hw, hs.lowerBound]
    exact ⟨rfl, fun σ _ => le_rfl⟩
  · rw [if_neg hempty]
    have hnonneg : ∀ c ∈ s.softClauses, 0 ≤ c.weight.value := fun c hc =>
      hweights (c.lits, c.weight) (hs.softClauses ▸ mem_map_of_mem hc)
    have hanswers := solveWeightedCoreGuided_answers hsolver hnonneg hs.lowerBound hfew
    rwa [hardClauses_of_holds hs, hs.softClauses] at hanswers

theorem solve_many (hs : s.Holds config hard soft) (hpath : SearchPath config soft)
    (hmany : maxWeightDuplicates < unitCopies s.softClauses) : (s.solve solver).1 = .ok .unknown := by
  rw [solve_searchPath hs hpath]
  by_cases hempty : s.softClauses.isEmpty = true
  · rw [isEmpty_iff.mp hempty] at hmany
    exact absurd hmany (by decide)
  · rw [if_neg hempty, solveWeightedCoreGuided_many hmany]

end

/-- The answers of a fresh solver are right: unsatisfiable exactly when nothing satisfies the clauses that
must hold, and otherwise the model and the cost are best; too many unit copies are given up. -/
theorem search_optimal (solver : SatSolver) (hsolver : Correct solver) (config : MaxSatConfig)
    (hard : List (List ℕ)) (soft : List (List ℕ × Weight)) (hweights : ∀ p ∈ soft, 0 ≤ p.2.value)
    (hpath : SearchPath config soft) :
    let s := fresh config hard soft
    let result := s.solve solver
    (maxWeightDuplicates < unitCopies s.softClauses → result.1 = .ok .unknown) ∧
    (result.1 = .error .unsatisfiable ∧ (∀ σ, ¬ Satisfies σ (required hard soft)) ∨
      result.1 = .ok .optimal ∧ (∃ model, result.2.bestModel = some model ∧
        (∀ c ∈ required hard soft, ∃ lit ∈ c, litHolds model lit) ∧
        result.2.cost.value = violatedWeight (litHolds model) soft ∧
        (∀ σ, Satisfies σ (required hard soft) → result.2.cost.value ≤ violatedWeight (Sat.isTrue σ) soft) ∧
        result.2.softClauses.map (fun c => (c.lits, c.weight, c.value)) =
          soft.map fun p => (p.1, p.2, some (p.1.any (litHolds model)))) ∨
      result.1 = .ok .unknown ∧
        (¬ Decides solver ∨ maxWeightDuplicates < unitCopies s.softClauses)) := by
  intro s result
  have hs : s.Holds config hard soft := holds_fresh
  refine ⟨solve_many hs hpath, ?_⟩
  rcases lt_or_ge maxWeightDuplicates (unitCopies s.softClauses) with hmany | hfew
  · exact .inr (.inr ⟨solve_many hs hpath hmany, .inr hmany⟩)
  have hanswers : Answers solver s.softClauses _ _ result := solve_answers hsolver hs hweights hpath hfew
  clear_value result
  cases hanswers with
  | unsatisfiable hunsat => exact .inl ⟨rfl, hunsat⟩
  | unknown hunknown => exact .inr (.inr ⟨rfl, .inl hunknown⟩)
  | optimal hmodel hholds hvalues hbest =>
    refine .inr (.inl ⟨rfl, _, hmodel, hholds, hbest.1, hbest.2, ?_⟩)
    rw [hvalues, ← hs.softClauses, map_map, map_map]
    rfl

def either : List (List ℕ × Weight) := [([1], .int 2), ([3], .rational (3 / 2))]

theorem unitCopies_either : unitCopies (fresh {} [[0, 2]] either).softClauses = 7 := by
  have hnum : (3 / 2 : ℚ).num = 3 := by with_unfolding_all decide
  have hden : (3 / 2 : ℚ).den = 2 := by with_unfolding_all decide
  have hsoft : (fresh {} [[0, 2]] either).softClauses =
      [.new 0 [1] (.int 2), .new 1 [3] (.rational (3 / 2))] := rfl
  have hscale : scaleOf [.new 0 [1] (.int 2), .new 1 [3] (.rational (3 / 2))] = 2 := by
    simp [scaleOf, SoftClause.new, bigintLcm, bigintGcd_eq, hden]
  have hfinite : finiteOf [.new 0 [1] (.int 2), .new 1 [3] (.rational (3 / 2))] 2 =
      [⟨0, [1], 4⟩, ⟨1, [3], 3⟩] := by
    simp [finiteOf, SoftClause.new, hnum, hden]
  have hunit : unitOf [⟨0, [1], 4⟩, ⟨1, [3], 3⟩] = 1 := by
    have hgcd : Int.gcd 4 3 = 1 := rfl
    simp [unitOf, bigintGcd_eq, hgcd]
  rw [unitCopies, hsoft, hscale, hfinite, hunit]
  rfl

theorem search_optimal_either :
    ((fresh {} [[0, 2]] either).solve truthTable).1 = .ok .optimal ∧
      ((fresh {} [[0, 2]] either).solve truthTable).2.cost.value ≤ ((3 / 2 : ℚ) : WithTop ℚ) := by
  have hsat : Satisfies (fun v => v == 1) (required [[0, 2]] either) := by
    intro c hc
    obtain rfl : c = [0, 2] := by simpa [required, either] using hc
    exact ⟨2, by simp, by decide⟩
  obtain ⟨-, ⟨-, hunsat⟩ | ⟨hoptimal, model, -, -, -, hleast, -⟩ | ⟨-, hdecides | hmany⟩⟩ :=
    search_optimal truthTable truthTable_correct {} [[0, 2]] either (by norm_num [either, Weight.value])
      (.inl (by decide))
  · exact absurd hsat (hunsat _)
  · refine ⟨hoptimal, (hleast _ hsat).trans_eq ?_⟩
    simp [violatedWeight, either, Sat.isTrue, Weight.value]
  · exact absurd truthTable_decides hdecides
  · rw [unitCopies_either] at hmany
    exact absurd hmany (by decide)

def many : List (List ℕ × Weight) := [([0], .int 200000), ([0], .int 1)]

theorem unitCopies_many : unitCopies (fresh {} [[]] many).softClauses = 200001 := by
  have hsoft : (fresh {} [[]] many).softClauses = [.new 0 [0] (.int 200000), .new 1 [0] (.int 1)] := rfl
  have hunit : unitOf [⟨0, [0], 200000⟩, ⟨1, [0], 1⟩] = 1 := by
    simp [unitOf, bigintGcd_eq]
  rw [unitCopies, hsoft]
  exact congrArg (totalDuplicates [⟨0, [0], 200000⟩, ⟨1, [0], 1⟩]) hunit

/-- With too many copies an unsatisfiable clause goes unreported. -/
theorem not_search_complete :
    Correct truthTable ∧ Decides truthTable ∧ (∀ p ∈ many, 0 ≤ p.2.value) ∧ SearchPath {} many ∧
      (∀ σ, ¬ Satisfies σ (required [[]] many)) ∧
      ((fresh {} [[]] many).solve truthTable).1 ≠ .error .unsatisfiable := by
  have hpath : SearchPath {} many := .inl (by decide)
  refine ⟨truthTable_correct, truthTable_decides, by simp [many, Weight.value], hpath, ?_, ?_⟩
  · intro σ hσ
    obtain ⟨lit, hlit, -⟩ := hσ [] (by simp [required])
    exact not_mem_nil hlit
  · rw [solve_many holds_fresh hpath (by rw [unitCopies_many]; decide)]
    simp

end Nixie.Opt
