import Mathlib.Algebra.Order.Field.Rat
import Mathlib.Data.List.Sort
import Mathlib.Tactic.Ring
import Nixie.Opt.MaxSat
import Nixie.Opt.Totalizer

/-!
The MaxSAT algorithms, `nixie-opt/src/maxsat/algorithms.rs`: the cardinality search, OLL and the choice
between them.
-/

namespace Nixie.Opt

open Literal Nixie.Sat List Int

def maxWeightDuplicates : ℤ := 200000

def bigintGcd (a b : ℤ) : ℤ := if hb : b = 0 then a else bigintGcd b (a.tmod b)
termination_by b.natAbs
decreasing_by
  rw [natAbs_tmod]
  exact Nat.mod_lt _ (Int.natAbs_pos.mpr hb)

def bigintLcm (a b : ℤ) : ℤ := if a = 0 ∨ b = 0 then 0 else a.tdiv (bigintGcd a b) * b

def normalizeWeight (r : ℚ) : Weight := if r.den = 1 then .int r.num else .rational r

def toU64 (n : ℤ) : Option ℕ := if 0 ≤ n ∧ n < 2 ^ 64 then some n.toNat else none

def scaleOf (soft : List SoftClause) : ℤ :=
  soft.foldl (fun scale c => match c.weight with
    | .rational r => bigintLcm scale r.den
    | _ => scale) 1

def extraHardOf (soft : List SoftClause) : List (List ℕ) :=
  soft.filterMap fun c => match c.weight with
    | .infinite => some c.lits
    | _ => none

structure Finite where
  id : ℕ
  lits : List ℕ
  weight : ℤ
  deriving DecidableEq

def finiteOf (soft : List SoftClause) (scale : ℤ) : List Finite :=
  soft.filterMap fun c => match c.weight with
    | .infinite => none
    | .int n => some ⟨c.id, c.lits, n * scale⟩
    | .rational r => some ⟨c.id, c.lits, r.num * scale.tdiv r.den⟩

def unitOf (finite : List Finite) : ℤ :=
  finite.foldl (fun unit f => if f.weight ≠ 0 then bigintGcd unit f.weight else unit) 0

def totalDuplicates (finite : List Finite) (unit : ℤ) : ℤ :=
  finite.foldl (fun total f => total + f.weight.tdiv unit) 0

def itemsOf (finite : List Finite) (unit : ℤ) : List (ℕ × List ℕ) :=
  finite.flatMap fun f => List.replicate ((toU64 (f.weight.tdiv unit)).getD 0) (f.id, f.lits)

def checkHardSatisfiable (solver : SatSolver) (s : MaxSatSolver) : Outcome :=
  let verdict := solver s.satCalls s.hardClauses []
  let s := { s with satCalls := s.satCalls + 1 }
  match verdict with
  | .sat model =>
    let s := updateSoftValues { s with bestModel := some model }
    (.ok .optimal, { s with upperBound := s.lowerBound })
  | .unsat _ => (.error .unsatisfiable, s)
  | .unknown => (.ok .unknown, s)

def hasDifferentWeights (s : MaxSatSolver) : Bool :=
  match s.softClauses with
  | [] => false
  | first :: _ => s.softClauses.any fun c => c.weight != first.weight

def solveHardOnlyWithExtra (solver : SatSolver) (s : MaxSatSolver) (extraHard : List (List ℕ)) : Outcome :=
  let verdict := solver s.satCalls (s.hardClauses ++ extraHard) []
  let s := { s with satCalls := s.satCalls + 1 }
  match verdict with
  | .sat model => (.ok .optimal, updateSoftValues { s with bestModel := some model })
  | .unsat _ => (.error .unsatisfiable, s)
  | .unknown => (.ok .unknown, s)

def scanVars (nextVar : ℕ) (clauses : List (List ℕ)) : ℕ :=
  clauses.foldl (fun n c => c.foldl (fun n lit => max n (lit / 2 + 1)) n) nextVar

section

variable (solver : SatSolver) (items : List (ℕ × List ℕ)) (extraHard : List (List ℕ)) (violatedVars : List ℕ)

def solveCardinalityCheck (s : MaxSatSolver) (totalizerClauses : List (List ℕ)) (atMostK : Option ℕ) :
    Verdict × MaxSatSolver :=
  let clauses := s.hardClauses ++ extraHard ++
    List.zipWith (fun item v => item.2 ++ [posLit v]) items violatedVars ++ totalizerClauses ++
    atMostK.toList.map ([·])
  (solver s.satCalls clauses [], { s with satCalls := s.satCalls + 1 })

def boundAt (t : Totalizer) (clauses : List (List ℕ)) (k : ℕ) : Totalizer × List (List ℕ) × Option ℕ :=
  let (t, added) := (t.ensureBound (k + 1)).1.takeClauses
  (t, clauses ++ added, t.atMost k)

def searchLoop (lo hi : ℕ) (t : Totalizer) (clauses : List (List ℕ)) (s : MaxSatSolver) :
    Option ℕ × Totalizer × List (List ℕ) × MaxSatSolver :=
  if lo < hi then
    let mid := lo + (hi - lo) / 2
    let (t, clauses, atMostMid) := boundAt t clauses mid
    match solveCardinalityCheck solver items extraHard violatedVars s clauses atMostMid with
    | (.sat _, s) => searchLoop lo mid t clauses s
    | (.unsat _, s) => searchLoop (mid + 1) hi t clauses s
    | (.unknown, s) => (none, t, clauses, s)
  else (some lo, t, clauses, s)
termination_by hi - lo

end

def solveByCardinalitySearch (solver : SatSolver) (s : MaxSatSolver) (items : List (ℕ × List ℕ))
    (extraHard : List (List ℕ)) (unitCost : Weight) : Outcome :=
  let nextVar := scanVars (scanVars 0 (s.hardClauses ++ extraHard)) (items.map Prod.snd)
  let violatedVars := List.range' nextVar items.length
  let nextVar := nextVar + items.length
  match solveCardinalityCheck solver items extraHard violatedVars s [] none with
  | (.unsat _, s) => (.error .unsatisfiable, s)
  | (.unknown, s) => (.ok .unknown, s)
  | (.sat _, s) =>
    let totalizer := Totalizer.new (violatedVars.map posLit) nextVar
    match searchLoop solver items extraHard violatedVars 0 items.length totalizer [] s with
    | (none, _, _, s) => (.ok .unknown, s)
    | (some kMin, totalizer, clauses, s) =>
      let (clauses, atMostFinal) :=
        if kMin < items.length then (boundAt totalizer clauses kMin).2 else (clauses, none)
      match solveCardinalityCheck solver items extraHard violatedVars s clauses atMostFinal with
      | (.sat model, s) =>
        let s := updateSoftValues { s with bestModel := some model }
        (.ok .optimal, { s with lowerBound := s.lowerBound.add (unitCost.mulScalar kMin) })
      | (.unsat _, s) => (.ok .unknown, s)
      | (.unknown, s) => (.ok .unknown, s)

def solveWeightedCoreGuided (solver : SatSolver) (s : MaxSatSolver) : Outcome :=
  let scale := scaleOf s.softClauses
  let extraHard := extraHardOf s.softClauses
  let finite := finiteOf s.softClauses scale
  let unit := unitOf finite
  if unit = 0 then solveHardOnlyWithExtra solver s extraHard
  else
    let weightPerUnit := normalizeWeight (Rat.divInt unit scale)
    if maxWeightDuplicates < totalDuplicates finite unit then (.ok .unknown, s)
    else
      let items := itemsOf finite unit
      if items.isEmpty then solveHardOnlyWithExtra solver s extraHard
      else solveByCardinalitySearch solver s items extraHard weightPerUnit

def solveFuMalik (solver : SatSolver) (s : MaxSatSolver) : Outcome := solveWeightedCoreGuided solver s

structure OllGroup where
  softIds : List ℕ
  totalizer : IncrementalTotalizer
  currentBound : ℕ
  active : Bool

/-- The variables of the loop, with the clauses given to the SAT solver.  The algorithm does not read
`cores`: each core with the bounds assumed in the call. -/
structure Oll where
  nextVar : ℕ
  clauses : List (List ℕ)
  blockingVars : ℕ → Option ℕ := fun _ => none
  varToSoft : ℕ → Option ℕ := fun _ => none
  groups : List OllGroup := []
  softToGroup : ℕ → Option ℕ := fun _ => none
  cores : List (List ℕ × List ℕ) := []

namespace Oll

def block (soft : List SoftClause) (o : Oll) (id : ℕ) : Oll :=
  match soft[id]? with
  | none => o
  | some c =>
    { o with
      nextVar := o.nextVar + 1
      clauses := o.clauses ++ [c.lits ++ [posLit o.nextVar]]
      blockingVars := Function.update o.blockingVars id (some o.nextVar)
      varToSoft := Function.update o.varToSoft o.nextVar (some id) }

def setup (s : MaxSatSolver) (softIds : List ℕ) : Oll :=
  let nextVar := scanVars (scanVars 0 s.hardClauses)
    (softIds.filterMap fun id => s.softClauses[id]?.map SoftClause.lits)
  softIds.foldl (block s.softClauses) { nextVar := nextVar, clauses := s.hardClauses }

def softAssumptions (o : Oll) (softIds : List ℕ) : List ℕ :=
  softIds.filterMap fun id =>
    if (o.softToGroup id).isNone then (o.blockingVars id).map fun v => neg (posLit v) else none

def boundAssumptions (o : Oll) : List ℕ :=
  o.groups.filterMap fun g => if g.active then g.totalizer.boundAssumption else none

def blockLits (o : Oll) (ids : List ℕ) : List ℕ :=
  ids.filterMap fun id => (o.blockingVars id).map posLit

def regroup (o : Oll) (ids : List ℕ) (group : ℕ) (id : ℕ) : Option ℕ :=
  if id ∈ ids then some group else o.softToGroup id

def newGroup (o : Oll) (coreSoftIds : List ℕ) : Oll :=
  if (o.blockLits coreSoftIds).isEmpty then o
  else
    let totalizer := IncrementalTotalizer.new (o.blockLits coreSoftIds) o.nextVar
    let (bounded, _, clauses) := totalizer.setBound 1
    { o with
      nextVar := totalizer.totalizer.nextVar
      clauses := o.clauses ++ clauses
      groups := o.groups ++ [⟨coreSoftIds, bounded, 1, true⟩]
      softToGroup := o.regroup coreSoftIds o.groups.length }

def mergeGroups (o : Oll) (intersecting coreSoftIds : List ℕ) : Oll :=
  let merged := intersecting.filterMap (o.groups[·]?)
  let groups := intersecting.foldl (fun groups g => groups.modify g fun group => { group with active := false })
    o.groups
  let mergedSoftIds := coreSoftIds.foldl (fun ids id => if id ∈ ids then ids else ids ++ [id])
    (merged.flatMap OllGroup.softIds)
  let mergedBound := (merged.map OllGroup.currentBound).sum + 1
  let blockLits := o.blockLits mergedSoftIds
  if blockLits.isEmpty then { o with groups := groups }
  else
    let totalizer := IncrementalTotalizer.new blockLits o.nextVar
    let bound := min mergedBound blockLits.length
    let (bounded, _, clauses) := totalizer.setBound bound
    { o with
      nextVar := totalizer.totalizer.nextVar
      clauses := o.clauses ++ clauses
      groups := groups ++ [⟨mergedSoftIds, bounded, bound, true⟩]
      softToGroup := o.regroup mergedSoftIds groups.length }

end Oll

def minWeightOf (soft : List SoftClause) (ids : List ℕ) : Weight :=
  ids.foldl (fun w id => match soft[id]? with
    | some c => w.min c.weight
    | none => w) .infinite

def ollLoop (solver : SatSolver) (softIds : List ℕ) : ℕ → Oll → MaxSatSolver → Outcome × Oll
  | 0, o, s => ((.ok .unknown, s), o)
  | iterations + 1, o, s =>
    let assumptions := o.softAssumptions softIds ++ o.boundAssumptions
    if assumptions.isEmpty && o.groups.isEmpty then (checkHardSatisfiable solver s, o)
    else
      let verdict := solver s.satCalls o.clauses assumptions
      let s := { s with satCalls := s.satCalls + 1 }
      match verdict with
      | .sat model => ((.ok .optimal, updateSoftValues { s with bestModel := some model }), o)
      | .unsat core =>
        let coreLits := core.getD []
        let o := { o with cores := o.cores ++ [(coreLits, o.boundAssumptions)] }
        if coreLits.isEmpty then ((.error .unsatisfiable, s), o)
        else
          let coreSoftIds := coreLits.filterMap fun lit => o.varToSoft (lit / 2)
          if coreSoftIds.isEmpty then ((.error .unsatisfiable, s), o)
          else
            let s := { s with lowerBound := s.lowerBound.add (minWeightOf s.softClauses coreSoftIds) }
            let intersecting := ((coreSoftIds.filterMap o.softToGroup).insertionSort (· ≤ ·)).dedup
            if intersecting.isEmpty then ollLoop solver softIds iterations (o.newGroup coreSoftIds) s
            else ollLoop solver softIds iterations (o.mergeGroups intersecting coreSoftIds) s
      | .unknown => ((.ok .unknown, s), o)

section

variable (solver : SatSolver) (s : MaxSatSolver)

def solveOll : Outcome × Oll :=
  let softIds := s.softClauses.map SoftClause.id
  ollLoop solver softIds s.config.maxIterations (.setup s softIds) s

def solveMsu3 : Outcome := solveFuMalik solver s

def solveWmax : Outcome :=
  if !hasDifferentWeights s then solveFuMalik solver s else solveWeightedCoreGuided solver s

def solvePmres : Outcome := solveFuMalik solver s

def MaxSatSolver.solve : Outcome :=
  if s.softClauses.isEmpty then checkHardSatisfiable solver s
  else if s.config.stratified && hasDifferentWeights s then solveWeightedCoreGuided solver s
  else
    match s.config.algorithm with
    | .fuMalik => solveFuMalik solver s
    | .oll => (solveOll solver s).1
    | .msu3 => solveMsu3 solver s
    | .wMax => solveWmax solver s
    | .pmres => solvePmres solver s

end

theorem bigintGcd_eq {a b : ℤ} (ha : 0 ≤ a) (hb : 0 ≤ b) : bigintGcd a b = Int.gcd a b := by
  induction a, b using bigintGcd.induct with
  | case1 a => rw [bigintGcd, dif_pos rfl, Int.gcd_zero_right, natAbs_of_nonneg ha]
  | case2 a b hne ih =>
    rw [bigintGcd, dif_neg hne, ih hb (tmod_nonneg b ha), tmod_eq_emod_of_nonneg ha, Int.gcd_comm, gcd_emod]

theorem bigintLcm_spec {a b : ℤ} (ha : 0 < a) (hb : 0 < b) :
    0 < bigintLcm a b ∧ a ∣ bigintLcm a b ∧ b ∣ bigintLcm a b := by
  have hgcd := bigintGcd_eq ha.le hb.le
  have hdvda : (Int.gcd a b : ℤ) ∣ a := Int.gcd_dvd_left a b
  obtain ⟨q, hq⟩ := Int.gcd_dvd_right a b
  rw [bigintLcm, if_neg (by omega), hgcd]
  have hcancel := Int.tdiv_mul_cancel hdvda
  have hpos : 0 < (Int.gcd a b : ℤ) := by exact_mod_cast gcd_pos_of_ne_zero_left b ha.ne'
  have hquotient : 0 < a.tdiv (Int.gcd a b) := by
    rw [← hcancel] at ha
    exact pos_of_mul_pos_left ha hpos.le
  refine ⟨Int.mul_pos hquotient hb, ⟨q, ?_⟩, Dvd.intro_left _ rfl⟩
  calc a.tdiv (Int.gcd a b) * b = a.tdiv (Int.gcd a b) * (Int.gcd a b * q) := by rw [← hq]
    _ = a.tdiv (Int.gcd a b) * Int.gcd a b * q := (mul_assoc ..).symm
    _ = a * q := by rw [hcancel]

def Clears (scale : ℤ) (soft : List SoftClause) : Prop :=
  ∀ c ∈ soft, ∀ r, c.weight = .rational r → (r.den : ℤ) ∣ scale

theorem scaleOf_spec (soft : List SoftClause) : 0 < scaleOf soft ∧ Clears (scaleOf soft) soft := by
  suffices h : ∀ (soft : List SoftClause) (scale : ℤ), 0 < scale →
      0 < soft.foldl (fun scale c => match c.weight with
        | .rational r => bigintLcm scale r.den
        | _ => scale) scale ∧
      scale ∣ soft.foldl (fun scale c => match c.weight with
        | .rational r => bigintLcm scale r.den
        | _ => scale) scale ∧
      Clears (soft.foldl (fun scale c => match c.weight with
        | .rational r => bigintLcm scale r.den
        | _ => scale) scale) soft by
    obtain ⟨hpos, -, hclears⟩ := h soft 1 Int.one_pos
    exact ⟨hpos, hclears⟩
  intro soft
  induction soft with
  | nil => exact fun scale hscale => ⟨hscale, dvd_rfl, fun c hc => absurd hc not_mem_nil⟩
  | cons c soft ih =>
    intro scale hscale
    rw [foldl_cons]
    cases hweight : c.weight with
    | rational q =>
      have hden : (0 : ℤ) < q.den := by exact_mod_cast q.den_pos
      obtain ⟨hpos, hleft, hright⟩ := bigintLcm_spec hscale hden
      obtain ⟨hresult, hdvd, hclears⟩ := ih _ hpos
      refine ⟨hresult, hleft.trans hdvd, fun c' hc' r hr => ?_⟩
      rcases mem_cons.mp hc' with rfl | hc'
      · rw [hweight, Weight.rational.injEq] at hr
        subst hr
        exact hright.trans hdvd
      · exact hclears c' hc' r hr
    | _ =>
      obtain ⟨hresult, hdvd, hclears⟩ := ih scale hscale
      refine ⟨hresult, hdvd, fun c' hc' r hr => ?_⟩
      rcases mem_cons.mp hc' with rfl | hc'
      · rw [hweight] at hr
        cases hr
      · exact hclears c' hc' r hr

def violatedTotal (holds : ℕ → Bool) (finite : List Finite) : ℤ :=
  ((finite.filter fun f => !f.lits.any holds).map Finite.weight).sum

def violations (holds : ℕ → Bool) (items : List (ℕ × List ℕ)) : ℕ :=
  items.countP fun item => !item.2.any holds

section

variable {holds : ℕ → Bool} {soft : List SoftClause} {finite : List Finite} {scale unit : ℤ}

theorem violatedTotal_cons {f : Finite} : violatedTotal holds (f :: finite) =
    (if f.lits.any holds then 0 else f.weight) + violatedTotal holds finite := by
  unfold violatedTotal
  by_cases h : f.lits.any holds = true
  · rw [filter_cons_of_neg (by simp only [h, Bool.not_true]; exact Bool.false_ne_true), if_pos h, zero_add]
  · rw [filter_cons_of_pos (by simpa using h), if_neg h, map_cons, sum_cons]

theorem violatedWeight_eq (hscale : 0 < scale) (hclears : Clears scale soft)
    (hextra : ∀ lits ∈ extraHardOf soft, lits.any holds) :
    violatedWeight holds (soft.map fun c => (c.lits, c.weight)) =
    (((violatedTotal holds (finiteOf soft scale) : ℚ) / scale : ℚ) : WithTop ℚ) := by
  have hne : (scale : ℚ) ≠ 0 := by exact_mod_cast hscale.ne'
  induction soft with
  | nil => simp [violatedWeight, violatedTotal, finiteOf]
  | cons c soft ih =>
    have hclears' : Clears scale soft := fun c' hc' => hclears c' (mem_cons_of_mem c hc')
    rw [map_cons, violatedWeight_cons]
    cases hweight : c.weight with
    | infinite =>
      have hmem : extraHardOf (c :: soft) = c.lits :: extraHardOf soft := by simp [extraHardOf, hweight]
      have hfinite : finiteOf (c :: soft) scale = finiteOf soft scale := by simp [finiteOf, hweight]
      rw [hmem] at hextra
      rw [hfinite, if_pos (hextra c.lits mem_cons_self), zero_add]
      exact ih hclears' fun lits hlits => hextra lits (mem_cons_of_mem _ hlits)
    | int n =>
      have hmem : extraHardOf (c :: soft) = extraHardOf soft := by simp [extraHardOf, hweight]
      have hfinite : finiteOf (c :: soft) scale = ⟨c.id, c.lits, n * scale⟩ :: finiteOf soft scale := by
        simp [finiteOf, hweight]
      rw [hmem] at hextra
      rw [hfinite, violatedTotal_cons, ih hclears' hextra]
      simp only [Weight.value]
      split
      · rw [zero_add, zero_add]
      · rw [← WithTop.coe_add, WithTop.coe_inj]
        push_cast
        rw [add_div, mul_div_cancel_right₀ _ hne]
    | rational r =>
      have hmem : extraHardOf (c :: soft) = extraHardOf soft := by simp [extraHardOf, hweight]
      have hfinite : finiteOf (c :: soft) scale =
          ⟨c.id, c.lits, r.num * scale.tdiv r.den⟩ :: finiteOf soft scale := by
        simp [finiteOf, hweight]
      have hcancel : ((scale.tdiv r.den : ℤ) : ℚ) * r.den = scale := by
        exact_mod_cast Int.tdiv_mul_cancel (hclears c mem_cons_self r hweight)
      rw [hmem] at hextra
      rw [hfinite, violatedTotal_cons, ih hclears' hextra]
      simp only [Weight.value]
      split
      · rw [zero_add, zero_add]
      · have hvalue : ((r.num * scale.tdiv r.den : ℤ) : ℚ) = r * scale := by
          rw [cast_mul, ← Rat.mul_den_eq_num r, mul_assoc, mul_comm (r.den : ℚ), hcancel]
        rw [← WithTop.coe_add, WithTop.coe_inj, cast_add, hvalue, add_div, mul_div_cancel_right₀ _ hne]

theorem finiteOf_nonneg (hscale : 0 < scale) (hweights : ∀ c ∈ soft, 0 ≤ c.weight.value) :
    ∀ f ∈ finiteOf soft scale, 0 ≤ f.weight := by
  intro f hf
  obtain ⟨c, hc, hsome⟩ := mem_filterMap.mp hf
  have hweight := hweights c hc
  cases hcase : c.weight with
  | infinite =>
    rw [hcase] at hsome
    cases hsome
  | int n =>
    rw [hcase] at hsome hweight
    rw [← Option.some.inj hsome]
    have hn : 0 ≤ n := by simpa [Weight.value] using hweight
    exact mul_nonneg hn hscale.le
  | rational r =>
    rw [hcase] at hsome hweight
    rw [← Option.some.inj hsome]
    have hr : 0 ≤ r := by simpa [Weight.value] using hweight
    exact mul_nonneg (Rat.num_nonneg.mpr hr) (Int.tdiv_nonneg hscale.le (natCast_nonneg _))

theorem unitOf_spec (hfinite : ∀ f ∈ finite, 0 ≤ f.weight) :
    0 ≤ unitOf finite ∧ ∀ f ∈ finite, unitOf finite ∣ f.weight := by
  suffices h : ∀ (finite : List Finite) (unit : ℤ), 0 ≤ unit → (∀ f ∈ finite, 0 ≤ f.weight) →
      0 ≤ finite.foldl (fun unit f => if f.weight ≠ 0 then bigintGcd unit f.weight else unit) unit ∧
      finite.foldl (fun unit f => if f.weight ≠ 0 then bigintGcd unit f.weight else unit) unit ∣ unit ∧
      ∀ f ∈ finite,
        finite.foldl (fun unit f => if f.weight ≠ 0 then bigintGcd unit f.weight else unit) unit ∣ f.weight by
    obtain ⟨hnonneg, -, hdvd⟩ := h finite 0 le_rfl hfinite
    exact ⟨hnonneg, hdvd⟩
  intro finite
  induction finite with
  | nil => exact fun unit hunit _ => ⟨hunit, dvd_rfl, fun f hf => absurd hf not_mem_nil⟩
  | cons f finite ih =>
    intro unit hunit hfinite
    obtain ⟨hf, hfinite⟩ := forall_mem_cons.mp hfinite
    rw [foldl_cons]
    by_cases hzero : f.weight = 0
    · rw [if_neg (not_not.mpr hzero)]
      obtain ⟨hnonneg, hdvd, hall⟩ := ih unit hunit hfinite
      exact ⟨hnonneg, hdvd, forall_mem_cons.mpr ⟨by rw [hzero]; exact dvd_zero _, hall⟩⟩
    · rw [if_pos hzero, bigintGcd_eq hunit hf]
      obtain ⟨hnonneg, hdvd, hall⟩ := ih _ (natCast_nonneg _) hfinite
      exact ⟨hnonneg, hdvd.trans (Int.gcd_dvd_left unit f.weight),
        forall_mem_cons.mpr ⟨hdvd.trans (Int.gcd_dvd_right unit f.weight), hall⟩⟩

theorem totalDuplicates_eq : totalDuplicates finite unit = (finite.map fun f => f.weight.tdiv unit).sum := by
  rw [totalDuplicates, sum_eq_foldl, foldl_map]

theorem violatedTotal_zero (hunit : ∀ f ∈ finite, (0 : ℤ) ∣ f.weight) : violatedTotal holds finite = 0 := by
  refine sum_eq_zero fun w hw => ?_
  obtain ⟨f, hf, rfl⟩ := mem_map.mp hw
  obtain ⟨w, hw⟩ := hunit f (mem_filter.mp hf).1
  rw [hw, zero_mul]

theorem violations_replicate {id n : ℕ} {lits : List ℕ} :
    violations holds (List.replicate n (id, lits)) = if lits.any holds then 0 else n := by
  rw [violations, countP_replicate]
  by_cases h : lits.any holds = true <;> simp [h]

theorem violations_itemsOf (hunit : 0 < unit) (hdvd : ∀ f ∈ finite, unit ∣ f.weight)
    (hnonneg : ∀ f ∈ finite, 0 ≤ f.weight) (htotal : totalDuplicates finite unit ≤ maxWeightDuplicates) :
    (violations holds (itemsOf finite unit) : ℤ) * unit = violatedTotal holds finite := by
  have hsum : (finite.map fun f => f.weight.tdiv unit).sum < 2 ^ 64 := by
    rw [← totalDuplicates_eq]
    exact htotal.trans_lt (by decide)
  clear htotal
  induction finite with
  | nil => simp [violations, violatedTotal, itemsOf]
  | cons f finite ih =>
    obtain ⟨hf, hdvd⟩ := forall_mem_cons.mp hdvd
    obtain ⟨hf0, hnonneg⟩ := forall_mem_cons.mp hnonneg
    rw [map_cons, sum_cons] at hsum
    have hcopies : 0 ≤ f.weight.tdiv unit := Int.tdiv_nonneg hf0 hunit.le
    have hrest : 0 ≤ (finite.map fun f => f.weight.tdiv unit).sum := by
      refine sum_nonneg fun n hn => ?_
      obtain ⟨g, hg, rfl⟩ := mem_map.mp hn
      exact Int.tdiv_nonneg (hnonneg g hg) hunit.le
    have hcount : toU64 (f.weight.tdiv unit) = some (f.weight.tdiv unit).toNat :=
      if_pos ⟨hcopies, by omega⟩
    have hitems : itemsOf (f :: finite) unit =
        List.replicate (f.weight.tdiv unit).toNat (f.id, f.lits) ++ itemsOf finite unit := by
      simp [itemsOf, hcount]
    have hmore := ih hdvd hnonneg (by omega)
    rw [hitems, violatedTotal_cons, ← hmore, violations, countP_append, Nat.cast_add, add_mul]
    congr 1
    have hreplicate := @violations_replicate holds f.id (f.weight.tdiv unit).toNat f.lits
    rw [violations] at hreplicate
    rw [hreplicate]
    split
    · simp
    · rw [toNat_of_nonneg hcopies, Int.tdiv_mul_cancel hf]

theorem value_unitCost {k : ℕ} : ((normalizeWeight (Rat.divInt unit scale)).mulScalar k).value =
    (((k * unit : ℤ) : ℚ) / scale : ℚ) := by
  have hvalue : ∀ q : ℚ, ((normalizeWeight q).mulScalar k).value = ((q * k : ℚ) : WithTop ℚ) := by
    intro q
    unfold Weight.mulScalar
    by_cases hk : (k : ℤ) = 0
    · have hk' : (k : ℚ) = 0 := by exact_mod_cast hk
      rw [if_pos hk, Weight.value_zero, hk', mul_zero]
      rfl
    · rw [if_neg hk, if_neg (by omega), normalizeWeight]
      by_cases hden : q.den = 1
      · rw [if_pos hden]
        simp only [Weight.value, WithTop.coe_inj]
        push_cast
        rw [Rat.coe_int_num_of_den_eq_one hden]
      · rw [if_neg hden]
        rfl
  rw [hvalue, WithTop.coe_inj, Rat.divInt_eq_div]
  push_cast
  ring

end

end Nixie.Opt
