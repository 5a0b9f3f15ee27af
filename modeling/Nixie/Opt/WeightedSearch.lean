import Nixie.Opt.TotalizerCount
import Nixie.Opt.Algorithms

namespace Nixie.Opt

open Literal Nixie.Sat List

section

variable {n : ℕ} {clauses : List (List ℕ)}

theorem scanVars_cons {c : List ℕ} : scanVars n (c :: clauses) =
    scanVars (c.foldl (fun n lit => max n (lit / 2 + 1)) n) clauses := rfl

theorem foldl_max_spec (c : List ℕ) (n : ℕ) : n ≤ c.foldl (fun n lit => max n (lit / 2 + 1)) n ∧
    Below (c.foldl (fun n lit => max n (lit / 2 + 1)) n) c := by
  induction c generalizing n with
  | nil => exact ⟨le_rfl, fun lit hlit => absurd hlit not_mem_nil⟩
  | cons lit c ih =>
    obtain ⟨hle, hbelow⟩ := ih (max n (lit / 2 + 1))
    rw [foldl_cons]
    exact ⟨by omega, forall_mem_cons.mpr ⟨by omega, hbelow⟩⟩

theorem scanVars_spec (clauses : List (List ℕ)) (n : ℕ) :
    n ≤ scanVars n clauses ∧ ∀ c ∈ clauses, Below (scanVars n clauses) c := by
  induction clauses generalizing n with
  | nil => exact ⟨le_rfl, fun c hc => absurd hc not_mem_nil⟩
  | cons c clauses ih =>
    obtain ⟨hle, hbelow⟩ := foldl_max_spec c n
    obtain ⟨hle', hbelow'⟩ := ih (c.foldl (fun n lit => max n (lit / 2 + 1)) n)
    rw [scanVars_cons]
    exact ⟨hle.trans hle', forall_mem_cons.mpr ⟨fun lit hlit => (hbelow lit hlit).trans_le hle', hbelow'⟩⟩

end

inductive BoundLit (inputs : List ℕ) (t : Totalizer) (k : ℕ) : Option ℕ → Prop
  | none (h : inputs.length ≤ k) : BoundLit inputs t k none
  | some {lit} (h : t.root.output (k + 1) = some lit) : BoundLit inputs t k (some (neg lit))

section

variable {inputs : List ℕ} {base k : ℕ} {taken : List (List ℕ)} {t : Totalizer} {a : Option ℕ}

theorem BoundLit.exact (h : BoundLit inputs t k a) (hcounts : t.Counts inputs base taken)
    (hinputs : Below base inputs) (htaken : t.emitted.clauses = []) (σ : ℕ → Bool) :
    (∃ τ, Agree base σ τ ∧ Satisfies τ (taken ++ a.toList.map ([·]))) ↔ trueCount σ inputs ≤ k := by
  cases h with
  | none hlength =>
    obtain ⟨τ, hagree, hτ⟩ := hcounts.continues σ
    refine ⟨fun _ => trueCount_le.trans hlength, fun _ => ⟨τ, hagree, ?_⟩⟩
    simpa [htaken] using hcounts.holds τ hτ
  | some hlit =>
    rw [← hcounts.output_iff hinputs hlit σ, htaken, append_nil]
    refine exists_congr fun τ => and_congr_right fun _ => ?_
    rw [satisfies_append]
    refine and_congr_right fun _ => ?_
    simp [Satisfies]

theorem boundAt_spec (hcounts : t.Counts inputs base taken) (hk : k < inputs.length) :
    (boundAt t taken k).1.Counts inputs base (boundAt t taken k).2.1 ∧ (boundAt t taken k).1.emitted.clauses = [] ∧
    BoundLit inputs (boundAt t taken k).1 k (boundAt t taken k).2.2 := by
  obtain ⟨hensured, -, -, hfilled⟩ := hcounts.ensureBound (k + 1)
  obtain ⟨lit, hlit⟩ := hfilled (Nat.succ_pos k) hk
  refine ⟨hensured.take, rfl, ?_⟩
  have hatMost : ((t.ensureBound (k + 1)).1.takeClauses.1).atMost k = some (neg lit) := by
    rw [Totalizer.atMost, if_neg (by rw [hensured.take.size]; omega), Totalizer.atLeast,
      if_neg (Nat.succ_ne_zero k), if_neg (by rw [hensured.take.size]; omega)]
    exact congrArg (Option.map neg) hlit
  change BoundLit inputs _ k (((t.ensureBound (k + 1)).1.takeClauses.1).atMost k)
  rw [hatMost]
  exact .some hlit

end

section

variable {items : List (ℕ × List ℕ)} {vars : List ℕ} {holds : ℕ → Bool} {base : ℕ} {σ : ℕ → Bool}

def itemClauses (items : List (ℕ × List ℕ)) (vars : List ℕ) : List (List ℕ) :=
  List.zipWith (fun item v => item.2 ++ [posLit v]) items vars

theorem violations_le (hlength : vars.length = items.length) (h : ∀ c ∈ itemClauses items vars, ∃ lit ∈ c, holds lit) :
    violations holds items ≤ (vars.map posLit).countP holds := by
  induction items generalizing vars with
  | nil => exact Nat.zero_le _
  | cons item items ih =>
    cases vars with
    | nil => cases hlength
    | cons v vars =>
      obtain ⟨⟨lit, hlit, hholds⟩, hrest⟩ := forall_mem_cons.mp h
      have hmore := ih (Nat.succ.inj hlength) hrest
      rw [violations] at hmore ⊢
      rw [map_cons, countP_cons, countP_cons]
      refine Nat.add_le_add hmore ?_
      by_cases hitem : item.2.any holds = true
      · simp [hitem]
      · rcases mem_append.mp hlit with hlit | hlit
        · exact absurd (any_eq_true.mpr ⟨lit, hlit, hholds⟩) hitem
        · rw [mem_singleton.mp hlit] at hholds
          rw [if_pos hholds]
          split <;> omega

def marked (σ : ℕ → Bool) (base : ℕ) (items : List (ℕ × List ℕ)) (v : ℕ) : Bool :=
  if v < base then σ v else (items[v - base]?.map fun item => !item.2.any (Sat.isTrue σ)).getD false

theorem marked_agree : Agree base σ (marked σ base items) := fun _ hv => if_pos hv

theorem marked_add {i : ℕ} (hi : i < items.length) :
    marked σ base items (base + i) = !items[i].2.any (Sat.isTrue σ) := by
  rw [marked, if_neg (by omega), Nat.add_sub_cancel_left, getElem?_eq_getElem hi]
  rfl

theorem trueCount_marked : trueCount (marked σ base items) ((List.range' base items.length).map posLit) = violations
    (Sat.isTrue σ) items := by
  have hmap : (List.range' base items.length).map (marked σ base items) =
      items.map fun item => !item.2.any (Sat.isTrue σ) := by
    refine ext_getElem (by simp) fun i hi _ => ?_
    simp only [length_map, length_range'] at hi
    simp only [getElem_map, getElem_range', one_mul]
    exact marked_add hi
  calc trueCount (marked σ base items) ((List.range' base items.length).map posLit)
      = ((List.range' base items.length).map (marked σ base items)).countP id := by
        rw [trueCount, countP_map, countP_map]
        exact congrArg (List.countP · _) (funext fun v => isTrue_posLit)
    _ = violations (Sat.isTrue σ) items := by
        rw [hmap, countP_map]
        rfl

theorem satisfies_marked (hbelow : ∀ item ∈ items, Below base item.2) :
    Satisfies (marked σ base items) (itemClauses items (List.range' base items.length)) := by
  intro c hc
  obtain ⟨i, hi, rfl⟩ := mem_iff_getElem.mp hc
  simp only [itemClauses, length_zipWith, length_range', min_self] at hi
  simp only [itemClauses, getElem_zipWith, getElem_range', one_mul]
  by_cases hitem : items[i].2.any (Sat.isTrue σ) = true
  · obtain ⟨lit, hlit, htrue⟩ := any_eq_true.mp hitem
    refine ⟨lit, mem_append_left _ hlit, ?_⟩
    rwa [isTrue_congr marked_agree (hbelow _ (getElem_mem hi) lit hlit)]
  · refine ⟨posLit (base + i), mem_append_right _ (mem_singleton_self _), ?_⟩
    rw [isTrue_posLit, marked_add hi]
    simpa using hitem

theorem below_itemClauses (hbelow : ∀ item ∈ items, Below base item.2) :
    ∀ c ∈ itemClauses items (List.range' base items.length), Below (base + items.length) c := by
  intro c hc lit hlit
  obtain ⟨i, hi, rfl⟩ := mem_iff_getElem.mp hc
  simp only [itemClauses, length_zipWith, length_range', min_self] at hi
  simp only [itemClauses, getElem_zipWith, getElem_range', one_mul] at hlit
  rcases mem_append.mp hlit with hlit | hlit
  · exact (hbelow _ (getElem_mem hi) lit hlit).trans_le (Nat.le_add_right _ _)
  · rw [mem_singleton.mp hlit, posLit_div_two]
    omega

end

/-- What may come back where `clauses` are to hold: `best` is about the model and the lower bound left. -/
inductive Answers (solver : SatSolver) (soft : List SoftClause) (clauses : List (List ℕ))
    (best : List (Option Bool) → Weight → Prop) : Outcome → Prop
  | unsatisfiable {s} (h : ∀ σ, ¬ Satisfies σ clauses) :
    Answers solver soft clauses best (.error .unsatisfiable, s)
  | unknown {s} (h : ¬ Decides solver) : Answers solver soft clauses best (.ok .unknown, s)
  | optimal {s model} (hmodel : s.bestModel = some model)
    (hholds : ∀ c ∈ clauses, ∃ lit ∈ c, litHolds model lit)
    (hvalues : s.softClauses = soft.map fun c => c.setValue (c.lits.any (litHolds model)))
    (hbest : best model s.lowerBound) : Answers solver soft clauses best (.ok .optimal, s)

theorem Answers.imp {solver : SatSolver} {soft : List SoftClause} {clauses : List (List ℕ)}
    {best best' : List (Option Bool) → Weight → Prop} {result : Outcome} (h : Answers solver soft clauses best result)
    (himp : ∀ model w, (∀ c ∈ clauses, ∃ lit ∈ c, litHolds model lit) → best model w → best' model w) :
    Answers solver soft clauses best' result := by
  cases h with
  | unsatisfiable h => exact .unsatisfiable h
  | unknown h => exact .unknown h
  | optimal hmodel hholds hvalues hbest => exact .optimal hmodel hholds hvalues (himp _ _ hholds hbest)

section

variable {solver : SatSolver} {s : MaxSatSolver}

theorem checkHardSatisfiable_answers (hsolver : Correct solver) :
    Answers solver s.softClauses s.hardClauses (fun _ w => w = s.lowerBound) (checkHardSatisfiable solver s) := by
  unfold checkHardSatisfiable
  cases hverdict : solver s.satCalls s.hardClauses [] with
  | sat model => exact .optimal rfl (hsolver.sat hverdict).1 rfl rfl
  | unsat core => exact .unsatisfiable fun σ => hsolver.unsat_nil hverdict
  | unknown => exact .unknown fun hdecides => hdecides.ne_unknown hverdict

theorem solveHardOnlyWithExtra_answers (hsolver : Correct solver) (extraHard : List (List ℕ)) :
    Answers solver s.softClauses (s.hardClauses ++ extraHard) (fun _ w => w = s.lowerBound)
    (solveHardOnlyWithExtra solver s extraHard) := by
  unfold solveHardOnlyWithExtra
  cases hverdict : solver s.satCalls (s.hardClauses ++ extraHard) [] with
  | sat model => exact .optimal rfl (hsolver.sat hverdict).1 rfl rfl
  | unsat core => exact .unsatisfiable fun σ => hsolver.unsat_nil hverdict
  | unknown => exact .unknown fun hdecides => hdecides.ne_unknown hverdict

end

section

variable {solver : SatSolver} {s : MaxSatSolver} {items : List (ℕ × List ℕ)} {extraHard clauses : List (List ℕ)}
  {base k lo hi : ℕ} {t : Totalizer} {a : Option ℕ}

structure Above (hard extraHard : List (List ℕ)) (items : List (ℕ × List ℕ)) (base : ℕ) : Prop where
  clauses : ∀ c ∈ hard ++ extraHard, Below base c
  items : ∀ item ∈ items, Below base item.2

structure Ready (items : List (ℕ × List ℕ)) (base : ℕ) (t : Totalizer) (clauses : List (List ℕ)) : Prop where
  counts : t.Counts ((List.range' base items.length).map posLit) (base + items.length) clauses
  taken : t.emitted.clauses = []

theorem below_vars : Below (base + items.length) ((List.range' base items.length).map posLit) := by
  intro lit hlit
  obtain ⟨v, hv, rfl⟩ := mem_map.mp hlit
  rw [posLit_div_two]
  exact (mem_range'_1.mp hv).2

theorem length_vars : ((List.range' base items.length).map posLit).length = items.length := by simp

theorem check_sat (hsolver : Correct solver) (hready : Ready items base t clauses)
    (hbound : BoundLit ((List.range' base items.length).map posLit) t k a) {model : List (Option Bool)}
    (h : (solveCardinalityCheck solver items extraHard (List.range' base items.length) s clauses a).1 = .sat model) :
    (∀ c ∈ s.hardClauses ++ extraHard, ∃ lit ∈ c, litHolds model lit) ∧ violations (litHolds model) items ≤ k := by
  obtain ⟨hholds, -⟩ := hsolver.sat h
  rw [append_assoc _ clauses, append_assoc _ _ (clauses ++ _)] at hholds
  obtain ⟨hhard, hrest⟩ := forall_mem_append.mp hholds
  obtain ⟨hitems, hclauses⟩ := forall_mem_append.mp hrest
  refine ⟨hhard, (violations_le (by simp) hitems).trans ?_⟩
  refine (countP_mono_left fun lit _ hlit => isTrue_completion hlit).trans ?_
  exact (hbound.exact hready.counts below_vars hready.taken _).mp
    ⟨completion model, fun _ _ => rfl, satisfies_completion hclauses⟩

theorem check_unsat (hsolver : Correct solver) (habove : Above s.hardClauses extraHard items base)
    (hready : Ready items base t clauses) (hbound : BoundLit ((List.range' base items.length).map posLit) t k a)
    {core : Option (List ℕ)} (h : (solveCardinalityCheck solver items extraHard
    (List.range' base items.length) s clauses a).1 = .unsat core) {σ : ℕ → Bool}
    (hσ : Satisfies σ (s.hardClauses ++ extraHard)) : k < violations (Sat.isTrue σ) items := by
  by_contra hle
  rw [Nat.not_lt, ← @trueCount_marked items base] at hle
  obtain ⟨τ, hagree, hτ⟩ := (hbound.exact hready.counts below_vars hready.taken _).mpr hle
  have hagree' : Agree base σ τ := marked_agree.trans (Nat.le_add_right base items.length) hagree
  refine hsolver.unsat_nil h (σ := τ) ?_
  rw [append_assoc _ clauses, append_assoc _ _ (clauses ++ _)]
  refine satisfies_append.mpr ⟨hσ.congr hagree' habove.clauses, satisfies_append.mpr ⟨?_, hτ⟩⟩
  exact (satisfies_marked habove.items).congr hagree (below_itemClauses habove.items)

structure Least (clauses : List (List ℕ)) (items : List (ℕ × List ℕ)) (lo hi : ℕ) : Prop where
  attained : ∃ σ, Satisfies σ clauses ∧ violations (Sat.isTrue σ) items ≤ hi
  below : ∀ σ, Satisfies σ clauses → lo ≤ violations (Sat.isTrue σ) items

theorem violations_mono {holds holds' : ℕ → Bool} (h : ∀ lit, holds lit = true → holds' lit = true) :
    violations holds' items ≤ violations holds items := by
  refine countP_mono_left fun item _ hitem => ?_
  simp only [Bool.not_eq_true', any_eq_false, Bool.not_eq_true] at hitem ⊢
  exact fun lit hlit => Bool.eq_false_iff.mpr fun hholds => absurd (h lit hholds) (by simp [hitem lit hlit])

theorem searchLoop_spec (hsolver : Correct solver) (habove : Above s.hardClauses extraHard items base)
    (hready : Ready items base t clauses) (hlo : lo ≤ hi) (hhi : hi ≤ items.length)
    (hleast : Least (s.hardClauses ++ extraHard) items lo hi) :
    ∃ found t' clauses' calls,
      searchLoop solver items extraHard (List.range' base items.length) lo hi t clauses s =
        (found, t', clauses', { s with satCalls := calls }) ∧
      match found with
      | none => ¬ Decides solver
      | some k => k ≤ items.length ∧ Ready items base t' clauses' ∧
          Least (s.hardClauses ++ extraHard) items k k := by
  induction h : hi - lo using Nat.strong_induction_on generalizing lo hi t clauses s with
  | _ n ih =>
    rw [searchLoop]
    by_cases hlt : lo < hi
    · rw [if_pos hlt]
      have hmid : lo ≤ lo + (hi - lo) / 2 ∧ lo + (hi - lo) / 2 < hi := by omega
      generalize lo + (hi - lo) / 2 = mid at hmid
      obtain ⟨hcounts, htaken, hbound⟩ := boundAt_spec hready.counts (by rw [length_vars]; exact hmid.2.trans_le hhi)
      have hready' : Ready items base (boundAt t clauses mid).1 (boundAt t clauses mid).2.1 := ⟨hcounts, htaken⟩
      have hsat := @check_sat solver s items extraHard _ base mid _ _ hsolver hready' hbound
      have hunsat := @check_unsat solver s items extraHard _ base mid _ _ hsolver habove hready' hbound
      have hcall : ∃ verdict, solveCardinalityCheck solver items extraHard (List.range' base items.length) s
          (boundAt t clauses mid).2.1 (boundAt t clauses mid).2.2 =
            (verdict, { s with satCalls := s.satCalls + 1 }) := ⟨_, rfl⟩
      obtain ⟨verdict, hcall⟩ := hcall
      have habove' : Above ({ s with satCalls := s.satCalls + 1 } : MaxSatSolver).hardClauses extraHard items
          base := habove
      rw [hcall] at hsat hunsat
      simp only [hcall]
      cases verdict with
      | sat model =>
        obtain ⟨hholds, hviolations⟩ := hsat rfl
        exact ih (mid - lo) (by omega) habove' hready' hmid.1 (hmid.2.le.trans hhi)
          ⟨⟨completion model, satisfies_completion hholds,
            (violations_mono fun lit => isTrue_completion).trans hviolations⟩, hleast.below⟩ rfl
      | unsat core =>
        exact ih (hi - (mid + 1)) (by omega) habove' hready' (by omega) hhi
          ⟨hleast.attained, fun σ hσ => hunsat rfl hσ⟩ rfl
      | unknown =>
        refine ⟨none, _, _, _, rfl, fun hdecides => hdecides.ne_unknown (congrArg Prod.fst hcall)⟩
    · rw [if_neg hlt]
      obtain rfl : lo = hi := by omega
      exact ⟨some lo, t, clauses, s.satCalls, rfl, hhi, hready, hleast⟩

theorem ready_new : Ready items base (Totalizer.new ((List.range' base items.length).map posLit)
    (base + items.length)) [] :=
  ⟨Totalizer.counts_new below_vars, rfl⟩

theorem Ready.final (hready : Ready items base t clauses) (k : ℕ) :
    ∃ t', Ready items base t' (if k < items.length then (boundAt t clauses k).2 else (clauses, none)).1 ∧
      BoundLit ((List.range' base items.length).map posLit) t' k
        (if k < items.length then (boundAt t clauses k).2 else (clauses, none)).2 := by
  by_cases hk : k < items.length
  · rw [if_pos hk]
    obtain ⟨hcounts, htaken, hbound⟩ := boundAt_spec hready.counts (by rwa [length_vars])
    exact ⟨_, ⟨hcounts, htaken⟩, hbound⟩
  · rw [if_neg hk]
    exact ⟨t, hready, .none (length_vars.trans_le (Nat.le_of_not_lt hk))⟩

theorem solveByCardinalitySearch_answers (hsolver : Correct solver) (unitCost : Weight) :
    Answers solver s.softClauses (s.hardClauses ++ extraHard) (fun model w => ∃ k : ℕ, w =
    s.lowerBound.add (unitCost.mulScalar k) ∧ violations (litHolds model) items ≤ k ∧
    ∀ σ, Satisfies σ (s.hardClauses ++ extraHard) → k ≤ violations (Sat.isTrue σ) items)
    (solveByCardinalitySearch solver s items extraHard unitCost) := by
  unfold solveByCardinalitySearch
  have habove : Above s.hardClauses extraHard items
      (scanVars (scanVars 0 (s.hardClauses ++ extraHard)) (items.map Prod.snd)) := by
    obtain ⟨-, hclauses⟩ := scanVars_spec (s.hardClauses ++ extraHard) 0
    obtain ⟨hle, hitems⟩ := scanVars_spec (items.map Prod.snd) (scanVars 0 (s.hardClauses ++ extraHard))
    exact ⟨fun c hc lit hlit => (hclauses c hc lit hlit).trans_le hle,
      fun item hitem => hitems item.2 (mem_map_of_mem hitem)⟩
  generalize scanVars (scanVars 0 (s.hardClauses ++ extraHard)) (items.map Prod.snd) = base at habove
  have hstart := @ready_new items base
  have hfree : BoundLit ((List.range' base items.length).map posLit)
      (Totalizer.new ((List.range' base items.length).map posLit) (base + items.length)) items.length none :=
    .none length_vars.le
  have hsat := @check_sat solver s items extraHard _ base _ _ _ hsolver hstart hfree
  have hunsat := @check_unsat solver s items extraHard _ base _ _ _ hsolver habove hstart hfree
  have hcall : ∃ verdict, solveCardinalityCheck solver items extraHard (List.range' base items.length) s [] none =
      (verdict, { s with satCalls := s.satCalls + 1 }) := ⟨_, rfl⟩
  obtain ⟨verdict, hcall⟩ := hcall
  rw [hcall] at hsat hunsat
  simp only [hcall]
  cases verdict with
  | unsat core =>
    refine .unsatisfiable fun σ hσ => ?_
    exact absurd (hunsat rfl hσ) (Nat.not_lt.mpr countP_le_length)
  | unknown => exact .unknown fun hdecides => hdecides.ne_unknown (congrArg Prod.fst hcall)
  | sat model =>
    obtain ⟨hholds, hviolations⟩ := hsat rfl
    have hleast : Least (s.hardClauses ++ extraHard) items 0 items.length :=
      ⟨⟨completion model, satisfies_completion hholds,
        (violations_mono fun lit => isTrue_completion).trans hviolations⟩, fun σ _ => Nat.zero_le _⟩
    obtain ⟨found, t, clauses, calls, hloop, hfound⟩ :=
      @searchLoop_spec solver { s with satCalls := s.satCalls + 1 } items extraHard _ base _ _ _ hsolver habove
        hstart (Nat.zero_le _) le_rfl hleast
    simp only [hloop]
    cases found with
    | none => exact .unknown hfound
    | some k =>
      obtain ⟨hk, hready, hleast⟩ := hfound
      obtain ⟨t', hready', hbound'⟩ := hready.final k
      dsimp only
      generalize (if k < items.length then (boundAt t clauses k).2 else (clauses, none)) = final at hready' hbound' ⊢
      have hsat := @check_sat solver { s with satCalls := calls } items extraHard _ base k _ _ hsolver hready' hbound'
      have hunsat := @check_unsat solver { s with satCalls := calls } items extraHard _ base k _ _ hsolver habove
        hready' hbound'
      have hcall : ∃ verdict, solveCardinalityCheck solver items extraHard (List.range' base items.length)
          { s with satCalls := calls } final.1 final.2 = (verdict, { s with satCalls := calls + 1 }) := ⟨_, rfl⟩
      obtain ⟨verdict, hcall⟩ := hcall
      rw [hcall] at hsat hunsat
      simp only [hcall]
      cases verdict with
      | sat model =>
        obtain ⟨hholds, hviolations⟩ := hsat rfl
        exact .optimal rfl hholds rfl ⟨k, rfl, hviolations, hleast.below⟩
      | unsat core =>
        obtain ⟨σ, hσ, hle⟩ := hleast.attained
        exact absurd (hunsat rfl hσ) (Nat.not_lt.mpr hle)
      | unknown => exact .unknown fun hdecides => hdecides.ne_unknown (congrArg Prod.fst hcall)

end

end Nixie.Opt
