import Mathlib.Data.List.Sort
import Mathlib.Tactic.FieldSimp
import Mathlib.Tactic.Linarith
import Mathlib.Tactic.Ring

/-!
Gaussian elimination before the Simplex, `nixie-theories/src/arithmetic/gaussian.rs`. A hash map is
the list of its entries, the last one first.
-/

namespace Nixie.Arithmetic

open List Option Function

abbrev Terms := List (ℕ × ℚ)

namespace Terms

def eval (x : ℕ → ℚ) (terms : Terms) : ℚ := (terms.map fun t => t.2 * x t.1).sum

def vars (terms : Terms) : List ℕ := terms.map Prod.fst

def sortByVar (terms : Terms) : Terms := terms.insertionSort fun s t => s.1 ≤ t.1

def toMap (terms : Terms) : Terms := terms.foldl (fun map t => t :: map.filter (·.1 ≠ t.1)) []

def subtract (factor : ℚ) : Terms → Terms → Terms
  | [], map => (map.map fun t => (t.1, -factor * t.2)).filter (·.2 ≠ 0)
  | (v, c) :: terms, map =>
    match map.lookup v with
    | some otherC =>
      let newCoef := c - factor * otherC
      let rest := subtract factor terms (map.filter (·.1 ≠ v))
      if newCoef ≠ 0 then (v, newCoef) :: rest else rest
    | none => (v, c) :: subtract factor terms map

def accumulate : Terms → ℕ × ℚ → Terms
  | [], t => [t]
  | (v, c) :: map, t => if v = t.1 then (v, c + t.2) :: map else (v, c) :: accumulate map t

end Terms

structure LinearEquation where
  terms : Terms := []
  rhs : ℚ := 0

structure LinExpr where
  terms : Terms := []
  constant : ℚ := 0

namespace LinearEquation

section

variable (eq : LinearEquation)

def normalize : LinearEquation :=
  match eq.terms with
  | [] => eq
  | (_, firstCoef) :: _ =>
    if firstCoef ≠ 0 ∧ firstCoef ≠ 1 then
      let inv := 1 / firstCoef
      { terms := eq.terms.map fun t => (t.1, t.2 * inv), rhs := eq.rhs * inv }
    else eq

def leadingVar : Option ℕ := (eq.terms.find? (·.2 ≠ 0)).map Prod.fst

def coef (var : ℕ) : ℚ := ((eq.terms.find? (·.1 = var)).map Prod.snd).getD 0

def eliminate (var : ℕ) (other : LinearEquation) : LinearEquation :=
  let selfCoef := eq.coef var
  let otherCoef := other.coef var
  if otherCoef = 0 then eq
  else
    let factor := selfCoef / otherCoef
    { terms := (eq.terms.subtract factor other.terms.toMap).sortByVar
      rhs := eq.rhs - factor * other.rhs }

def solveFor (var : ℕ) : LinearEquation :=
  let pivotCoef := eq.coef var
  { terms := (eq.terms.filter (·.1 ≠ var)).map fun t => (t.1, -t.2 / pivotCoef)
    rhs := eq.rhs / pivotCoef }

end

end LinearEquation

abbrev Substitutions := List (ℕ × LinearEquation)

def leadingLe : Option ℕ → Option ℕ → Bool
  | none, _ => true
  | some _, none => false
  | some v, some w => v ≤ w

def insertSubst (subst : Substitutions) (var : ℕ) (eq : LinearEquation) : Substitutions :=
  (var, eq) :: subst.filter (·.1 ≠ var)

def eliminateAll (pivotVar : ℕ) (row : LinearEquation) (rows : List LinearEquation) : List LinearEquation :=
  rows.map fun eq => eq.eliminate pivotVar row

theorem length_eliminateAll {pivotVar : ℕ} {row : LinearEquation} {rows : List LinearEquation} :
    (eliminateAll pivotVar row rows).length = rows.length := length_map ..

def forward (subst : Substitutions) : List LinearEquation → Option (List LinearEquation × Substitutions)
  | [] => some ([], subst)
  | row :: rows =>
    match row.leadingVar with
    | some pivotVar =>
      (forward (insertSubst subst pivotVar (row.solveFor pivotVar)) (eliminateAll pivotVar row rows)).map
        fun done => (row :: done.1, done.2)
    | none => if row.rhs ≠ 0 then none else forward subst rows
termination_by rows => rows.length
decreasing_by all_goals simp [length_eliminateAll]

def backward : List LinearEquation → List LinearEquation
  | [] => []
  | row :: rows =>
    match row.leadingVar with
    | some pivotVar => row :: backward (eliminateAll pivotVar row rows)
    | none => row :: backward rows
termination_by rows => rows.length
decreasing_by all_goals simp [length_eliminateAll]

structure GaussianElimination where
  equations : List LinearEquation := []
  substitutions : Substitutions := []

namespace GaussianElimination

def eliminate (g : GaussianElimination) : GaussianElimination × List LinearEquation × Substitutions :=
  if g.equations = [] then (g, [], [])
  else
    let equations := (g.equations.map LinearEquation.normalize).insertionSort fun eq eq' =>
      leadingLe eq.leadingVar eq'.leadingVar
    match forward [] equations with
    | none => ({ g with equations := [] }, [], [])
    | some (rows, subst) =>
      let rows := (backward rows.reverse).reverse
      ({ equations := rows, substitutions := subst }, rows, subst)

def substituteTerm (g : GaussianElimination) (t : ℕ × ℚ) : Terms × ℚ :=
  match g.substitutions.lookup t.1 with
  | some subst => (subst.terms.map fun s => (s.1, t.2 * s.2), t.2 * subst.rhs)
  | none => ([t], 0)

def applySubstitutions (g : GaussianElimination) (expr : LinExpr) : LinExpr :=
  let newTerms := expr.terms.flatMap fun t => (g.substituteTerm t).1
  { terms := Terms.sortByVar ((newTerms.foldl Terms.accumulate []).filter (·.2 ≠ 0))
    constant := expr.constant + (expr.terms.map fun t => (g.substituteTerm t).2).sum }

end GaussianElimination

variable {x : ℕ → ℚ} {terms map terms' : Terms} {v : ℕ} {factor : ℚ} {eq other : LinearEquation}

namespace Terms

@[simp] theorem eval_nil : eval x [] = 0 := rfl

@[simp] theorem eval_cons {t : ℕ × ℚ} : eval x (t :: terms) = t.2 * x t.1 + eval x terms := sum_cons

theorem eval_append : eval x (terms ++ terms') = eval x terms + eval x terms' := by
  rw [eval, map_append, sum_append]
  rfl

theorem eval_perm (h : terms.Perm terms') : eval x terms = eval x terms' := (h.map _).sum_eq

theorem eval_sortByVar : eval x terms.sortByVar = eval x terms := eval_perm (perm_insertionSort _ _)

theorem eval_map {f : ℚ → ℚ} {k : ℚ} (hf : ∀ c, f c = k * c) :
    eval x (terms.map fun t => (t.1, f t.2)) = k * eval x terms := by
  induction terms with
  | nil => simp
  | cons t terms ih =>
    rw [map_cons, eval_cons, eval_cons, ih, hf]
    ring

theorem eval_filter_ne_zero : eval x (terms.filter (·.2 ≠ 0)) = eval x terms := by
  induction terms with
  | nil => rfl
  | cons t terms ih =>
    by_cases ht : t.2 = 0
    · rw [filter_cons_of_neg (by simpa using ht), ih, eval_cons, ht, zero_mul, zero_add]
    · rw [filter_cons_of_pos (by simpa using ht), eval_cons, eval_cons, ih]

theorem mem_vars_filter {p : ℕ × ℚ → Bool} (h : v ∈ vars (terms.filter p)) : v ∈ terms.vars :=
  (filter_sublist.map Prod.fst).subset h

theorem nodup_filter {p : ℕ × ℚ → Bool} (h : terms.vars.Nodup) : (vars (terms.filter p)).Nodup :=
  h.sublist (filter_sublist.map Prod.fst)

theorem not_mem_vars_filter_ne : v ∉ vars (terms.filter (·.1 ≠ v)) := by
  simp [vars]

theorem filter_ne_eq_self (h : v ∉ terms.vars) : terms.filter (·.1 ≠ v) = terms := by
  rw [filter_eq_self]
  intro t ht
  rw [decide_eq_true_iff]
  rintro rfl
  exact h (mem_map_of_mem ht)

theorem eval_lookup {c : ℚ} (hnodup : map.vars.Nodup) (h : map.lookup v = some c) :
    eval x map = c * x v + eval x (map.filter (·.1 ≠ v)) := by
  induction map with
  | nil => cases h
  | cons t map ih =>
    obtain ⟨w, d⟩ := t
    obtain ⟨hw, hrest⟩ := nodup_cons.mp hnodup
    by_cases hv : v = w
    · subst hv
      rw [lookup_cons_self] at h
      obtain rfl := some.inj h
      rw [filter_cons_of_neg (by simp), filter_ne_eq_self hw, eval_cons]
    · have hne : ¬ w = v := fun heq => hv heq.symm
      rw [lookup_cons, beq_false_of_ne hv] at h
      rw [filter_cons_of_pos (by simpa using hne), eval_cons, eval_cons, ih hrest h]
      ring

theorem toMap_spec (hnodup : terms.vars.Nodup) : terms.toMap = terms.reverse := by
  have hfold (terms map : Terms) (h : (vars (terms ++ map)).Nodup) :
      terms.foldl (fun map t => t :: map.filter (·.1 ≠ t.1)) map = terms.reverse ++ map := by
    induction terms generalizing map with
    | nil => rfl
    | cons t terms ih =>
      obtain ⟨ht, hrest⟩ := nodup_cons.mp h
      have hmap : t.1 ∉ map.vars := fun hmem => by
        obtain ⟨s, hs, heq⟩ := mem_map.mp hmem
        exact ht (heq ▸ mem_map_of_mem (mem_append_right _ hs))
      have hperm : (vars (terms ++ t :: map)).Perm (vars (t :: (terms ++ map))) := perm_middle.map _
      rw [foldl_cons, filter_ne_eq_self hmap, ih _ (hperm.nodup_iff.mpr h), reverse_cons, append_assoc]
      rfl
  rw [toMap, hfold terms [] (by rwa [append_nil]), append_nil]

theorem eval_subtract (hnodup : map.vars.Nodup) :
    eval x (subtract factor terms map) = eval x terms - factor * eval x map := by
  induction terms generalizing map with
  | nil =>
    rw [subtract, eval_filter_ne_zero, eval_map (k := -factor) fun _ => rfl, eval_nil]
    ring
  | cons t terms ih =>
    obtain ⟨v, c⟩ := t
    unfold subtract
    cases hlookup : map.lookup v with
    | none => rw [eval_cons, eval_cons, ih hnodup, add_sub_assoc]
    | some d =>
      have hrest := @ih (map.filter (·.1 ≠ v)) (nodup_filter hnodup)
      have hmap : eval x map = d * x v + eval x (map.filter (·.1 ≠ v)) := eval_lookup hnodup hlookup
      have hterm : eval x (if c - factor * d ≠ 0 then
          (v, c - factor * d) :: subtract factor terms (map.filter (·.1 ≠ v))
            else subtract factor terms (map.filter (·.1 ≠ v))) =
          (c - factor * d) * x v + eval x (subtract factor terms (map.filter (·.1 ≠ v))) := by
        split
        · rw [eval_cons]
        · next hzero => rw [not_not.mp hzero, zero_mul, zero_add]
      rw [eval_cons, hmap]
      refine hterm.trans ?_
      rw [hrest]
      ring

theorem mem_vars_subtract (h : v ∈ (subtract factor terms map).vars) : v ∈ terms.vars ∨ v ∈ map.vars := by
  induction terms generalizing map with
  | nil =>
    have h := mem_vars_filter h
    rw [vars, List.map_map] at h
    exact .inr h
  | cons t terms ih =>
    obtain ⟨w, c⟩ := t
    unfold subtract at h
    rw [vars, map_cons, mem_cons]
    cases hlookup : map.lookup w with
    | none =>
      rw [hlookup, vars, map_cons, mem_cons] at h
      rcases h with h | h
      · exact .inl (.inl h)
      · exact (ih h).imp_left .inr
    | some d =>
      rw [hlookup] at h
      dsimp only at h
      split at h
      · rw [vars, map_cons, mem_cons] at h
        rcases h with h | h
        · exact .inl (.inl h)
        · exact (ih h).imp .inr mem_vars_filter
      · exact (ih h).imp .inr mem_vars_filter

theorem nodup_subtract (hterms : terms.vars.Nodup) (hmap : map.vars.Nodup) :
    (subtract factor terms map).vars.Nodup := by
  induction terms generalizing map with
  | nil =>
    refine nodup_filter ?_
    rw [vars, List.map_map]
    exact hmap
  | cons t terms ih =>
    obtain ⟨w, c⟩ := t
    obtain ⟨hw, hrest⟩ := nodup_cons.mp hterms
    unfold subtract
    cases hlookup : map.lookup w with
    | none =>
      refine nodup_cons.mpr ⟨fun hmem => ?_, ih hrest hmap⟩
      rcases mem_vars_subtract hmem with hmem | hmem
      · exact hw hmem
      · obtain ⟨t, ht, rfl⟩ := mem_map.mp hmem
        rw [lookup_eq_none_iff] at hlookup
        simpa using hlookup t ht
    | some d =>
      dsimp only
      split
      · refine nodup_cons.mpr ⟨fun hmem => ?_, ih hrest (nodup_filter hmap)⟩
        rcases mem_vars_subtract hmem with hmem | hmem
        · exact hw hmem
        · exact not_mem_vars_filter_ne hmem
      · exact ih hrest (nodup_filter hmap)

theorem eval_accumulate {t : ℕ × ℚ} : eval x (accumulate map t) = eval x map + t.2 * x t.1 := by
  induction map with
  | nil => simp [accumulate]
  | cons s map ih =>
    obtain ⟨w, c⟩ := s
    unfold accumulate
    split
    · next hw =>
      rw [eval_cons, eval_cons, hw]
      ring
    · rw [eval_cons, eval_cons, ih, add_assoc]

theorem eval_foldl_accumulate : eval x (terms.foldl accumulate map) = eval x map + eval x terms := by
  induction terms generalizing map with
  | nil => simp
  | cons t terms ih => rw [foldl_cons, ih, eval_accumulate, eval_cons, add_assoc]

end Terms

namespace Terms

def weight (v : ℕ) (terms : Terms) : ℚ := terms.eval fun w => if w = v then 1 else 0

theorem eval_update {y : ℚ} : eval (update x v y) terms = eval x terms + weight v terms * (y - x v) := by
  unfold weight
  induction terms with
  | nil => simp
  | cons t terms ih =>
    rw [eval_cons, eval_cons, eval_cons, ih, update_apply]
    split
    · next heq =>
      rw [heq]
      ring
    · ring

theorem weight_eq_zero (h : v ∉ terms.vars) : weight v terms = 0 := by
  unfold weight
  induction terms with
  | nil => rfl
  | cons t terms ih =>
    obtain ⟨ht, hrest⟩ := not_or.mp (mem_cons.not.mp h)
    rw [eval_cons, ih hrest, if_neg fun heq => ht heq.symm, mul_zero, add_zero]

end Terms

namespace LinearEquation

def Holds (x : ℕ → ℚ) (eq : LinearEquation) : Prop := eq.terms.eval x = eq.rhs

def Distinct (eq : LinearEquation) : Prop := eq.terms.vars.Nodup

theorem coef_eq_weight (h : eq.Distinct) : eq.coef v = eq.terms.weight v := by
  unfold coef
  unfold Distinct at h
  generalize eq.terms = terms at h
  induction terms with
  | nil => rfl
  | cons t terms ih =>
    obtain ⟨ht, hrest⟩ := nodup_cons.mp h
    by_cases htv : t.1 = v
    · have hzero : Terms.weight v terms = 0 := Terms.weight_eq_zero (htv ▸ ht)
      rw [Terms.weight] at hzero ⊢
      rw [find?_cons_of_pos (by simpa using htv), Terms.eval_cons, hzero, if_pos htv, mul_one, add_zero]
      rfl
    · rw [find?_cons_of_neg (by simpa using htv), ih hrest]
      simp only [Terms.weight, Terms.eval_cons, if_neg htv, mul_zero, zero_add]

theorem coef_ne_zero (h : eq.Distinct) (hv : eq.leadingVar = some v) : eq.coef v ≠ 0 := by
  obtain ⟨t, hfind, rfl⟩ := map_eq_some_iff.mp hv
  have hne : t.2 ≠ 0 := by simpa using find?_some hfind
  have hmem := mem_of_find?_eq_some hfind
  unfold coef
  cases hcoef : eq.terms.find? (·.1 = t.1) with
  | none => exact absurd (find?_eq_none.mp hcoef t hmem) (by simp)
  | some t' =>
    have heq : t'.1 = t.1 := by simpa using find?_some hcoef
    rw [inj_on_of_nodup_map h (mem_of_find?_eq_some hcoef) hmem heq]
    exact hne

theorem holds_of_leadingVar_eq_none (h : eq.leadingVar = none) : eq.Holds x ↔ eq.rhs = 0 := by
  have hzero : eq.terms.eval x = 0 := by
    rw [← Terms.eval_filter_ne_zero, filter_eq_nil_iff.mpr]
    · rfl
    · exact find?_eq_none.mp (map_eq_none_iff.mp h)
  rw [Holds, hzero, eq_comm]

theorem normalize_holds : eq.normalize.Holds x ↔ eq.Holds x := by
  unfold normalize
  split
  · exact Iff.rfl
  · split
    · next hc =>
      have hinv : (1 : ℚ) / _ ≠ 0 := one_div_ne_zero hc.1
      unfold Holds
      dsimp only
      rw [Terms.eval_map fun c => mul_comm c _, mul_comm eq.rhs]
      exact mul_right_inj' hinv
    · exact Iff.rfl

theorem Distinct.normalize (h : eq.Distinct) : eq.normalize.Distinct := by
  unfold LinearEquation.normalize
  split
  · exact h
  · split
    · unfold Distinct Terms.vars
      rw [List.map_map]
      exact h
    · exact h

theorem eliminate_eval (h : other.Distinct) (hne : other.coef v ≠ 0) : (eq.eliminate v other).terms.eval x =
    eq.terms.eval x - eq.coef v / other.coef v * other.terms.eval x := by
  have hmap : other.terms.toMap.vars.Nodup := by
    rw [Terms.toMap_spec h, Terms.vars, map_reverse]
    exact nodup_reverse.mpr h
  unfold eliminate
  dsimp only
  rw [if_neg hne, Terms.eval_sortByVar, Terms.eval_subtract hmap, Terms.toMap_spec h,
    Terms.eval_perm (reverse_perm _)]

theorem eliminate_holds (h : other.Distinct) (hother : other.Holds x) :
    (eq.eliminate v other).Holds x ↔ eq.Holds x := by
  by_cases hzero : other.coef v = 0
  · unfold eliminate
    dsimp only
    rw [if_pos hzero]
  · have hrhs : (eq.eliminate v other).rhs = eq.rhs - eq.coef v / other.coef v * other.rhs := by
      unfold eliminate
      dsimp only
      rw [if_neg hzero]
    rw [Holds, eliminate_eval h hzero, hrhs, hother]
    exact sub_left_inj

theorem Distinct.eliminate (heq : eq.Distinct) (h : other.Distinct) : (eq.eliminate v other).Distinct := by
  have hmap : other.terms.toMap.vars.Nodup := by
    rw [Terms.toMap_spec h, Terms.vars, map_reverse]
    exact nodup_reverse.mpr h
  unfold LinearEquation.eliminate
  dsimp only
  split
  · exact heq
  · exact ((perm_insertionSort _ _).map Prod.fst).nodup_iff.mpr (Terms.nodup_subtract heq hmap)

theorem weight_eliminate (heq : eq.Distinct) (h : other.Distinct) (hne : other.coef v ≠ 0) :
    (eq.eliminate v other).terms.weight v = 0 := by
  rw [Terms.weight, eliminate_eval h hne, ← Terms.weight, ← Terms.weight, ← coef_eq_weight heq,
    ← coef_eq_weight h, div_mul_cancel₀ _ hne, sub_self]

theorem solveFor_eval (h : eq.Distinct) (hne : eq.coef v ≠ 0) (hholds : eq.Holds x) :
    x v = (eq.solveFor v).terms.eval x + (eq.solveFor v).rhs := by
  have hsplit : eq.terms.eval x = eq.coef v * x v + Terms.eval x (eq.terms.filter (·.1 ≠ v)) := by
    have hweight : Terms.eval (update x v 0) eq.terms = Terms.eval x (eq.terms.filter (·.1 ≠ v)) := by
      generalize eq.terms = terms
      induction terms with
      | nil => rfl
      | cons t terms ih =>
        by_cases ht : t.1 = v
        · rw [filter_cons_of_neg (by simpa using ht), Terms.eval_cons, ih, ht, update_self, mul_zero, zero_add]
        · rw [filter_cons_of_pos (by simpa using ht), Terms.eval_cons, Terms.eval_cons, ih, update_of_ne ht]
    rw [← hweight, Terms.eval_update, coef_eq_weight h]
    ring
  have hterms : (eq.solveFor v).terms.eval x =
      -(1 / eq.coef v) * Terms.eval x (eq.terms.filter (·.1 ≠ v)) := by
    unfold solveFor
    exact @Terms.eval_map _ _ (fun c => -c / eq.coef v) _ fun c => by ring
  rw [Holds, hsplit] at hholds
  rw [hterms, solveFor, ← hholds]
  field_simp
  ring

end LinearEquation

open LinearEquation

def Solves (x : ℕ → ℚ) (eqs : List LinearEquation) : Prop := ∀ eq ∈ eqs, eq.Holds x

def Respects (x : ℕ → ℚ) (subst : Substitutions) : Prop :=
  ∀ p ∈ subst, x p.1 = p.2.terms.eval x + p.2.rhs

section

variable {row : LinearEquation} {rows eqs : List LinearEquation} {subst : Substitutions}

theorem solves_cons : Solves x (row :: rows) ↔ row.Holds x ∧ Solves x rows := forall_mem_cons

theorem solves_perm (h : rows.Perm eqs) : Solves x rows ↔ Solves x eqs := by
  unfold Solves
  simp only [h.mem_iff]

theorem solves_cons_eliminate (h : row.Distinct) :
    Solves x (row :: eliminateAll v row rows) ↔ Solves x (row :: rows) := by
  rw [solves_cons, solves_cons]
  refine and_congr_right fun hrow => ?_
  unfold Solves eliminateAll
  rw [List.forall_mem_map]
  exact forall₂_congr fun eq _ => eliminate_holds h hrow

theorem distinct_eliminate (h : row.Distinct) (hrows : ∀ eq ∈ rows, eq.Distinct) :
    ∀ eq ∈ eliminateAll v row rows, eq.Distinct :=
  forall_mem_map.mpr fun eq heq => (hrows eq heq).eliminate h

theorem exists_solves_cons (h : row.Distinct) (hrows : ∀ eq ∈ rows, eq.Distinct) (hne : row.coef v ≠ 0)
    (hx : Solves x (eliminateAll v row rows)) : ∃ y, Solves y (row :: rows) := by
  let y := update x v (x v + (row.rhs - row.terms.eval x) / row.coef v)
  refine ⟨y, (solves_cons_eliminate (v := v) h).mp (solves_cons.mpr ⟨?_, fun eq heq => ?_⟩)⟩
  · rw [Holds, Terms.eval_update, ← coef_eq_weight h]
    field_simp
    ring
  · obtain ⟨eq', heq', rfl⟩ := mem_map.mp heq
    rw [Holds, Terms.eval_update, weight_eliminate (hrows eq' heq') h hne, zero_mul, add_zero]
    exact hx _ heq

theorem forward_spec (hrows : ∀ eq ∈ rows, eq.Distinct) : (forward subst rows = none → ∀ x, ¬ Solves x rows) ∧
    ∀ done subst', forward subst rows = some (done, subst') → (∀ x, Solves x done ↔ Solves x rows) ∧
    (∀ eq ∈ done, eq.Distinct) ∧ (∃ x, Solves x rows) ∧ ∀ x, Solves x rows → Respects x subst → Respects x subst' := by
  induction subst, rows using forward.induct with
  | case1 subst =>
    rw [forward]
    refine ⟨nofun, fun done subst' h => ?_⟩
    cases h
    exact ⟨fun x => Iff.rfl, hrows, ⟨0, by simp [Solves]⟩, fun x _ h => h⟩
  | case2 subst row rows pivotVar hpivot ih =>
    obtain ⟨hrow, hrest⟩ := forall_mem_cons.mp hrows
    obtain ⟨hnone, hsome⟩ := ih (distinct_eliminate hrow hrest)
    have hne := coef_ne_zero hrow hpivot
    have hsolves (x : ℕ → ℚ) : Solves x (row :: eliminateAll pivotVar row rows) ↔
      Solves x (row :: rows) := solves_cons_eliminate hrow
    rw [forward, hpivot]
    refine ⟨fun h x hx => ?_, fun done subst' h => ?_⟩
    · exact hnone (map_eq_none_iff.mp h) x (solves_cons.mp ((hsolves x).mpr hx)).2
    · obtain ⟨⟨done, subst'⟩, hdone, heq⟩ := map_eq_some_iff.mp h
      obtain ⟨rfl, rfl⟩ := Prod.mk.inj heq
      obtain ⟨hsame, hdistinct, ⟨x, hx⟩, hrespects⟩ := hsome done subst' hdone
      refine ⟨fun x => ?_, forall_mem_cons.mpr ⟨hrow, hdistinct⟩, exists_solves_cons hrow hrest hne hx,
        fun x hx hsubst => ?_⟩
      · rw [← hsolves, solves_cons, solves_cons, hsame]
      · have hx' := solves_cons.mp ((hsolves x).mpr hx)
        refine hrespects x hx'.2 (forall_mem_cons.mpr ⟨solveFor_eval hrow hne hx'.1, fun p hp => ?_⟩)
        exact hsubst p (mem_of_mem_filter hp)
  | case3 subst row rows hpivot hrhs =>
    rw [forward, hpivot]
    dsimp only
    rw [if_pos hrhs]
    refine ⟨fun _ x hx => hrhs ((holds_of_leadingVar_eq_none hpivot).mp (solves_cons.mp hx).1), ?_⟩
    intro done subst' h
    cases h
  | case4 subst row rows hpivot hrhs ih =>
    obtain ⟨hrow, hrest⟩ := forall_mem_cons.mp hrows
    have hsolves (x : ℕ → ℚ) : Solves x (row :: rows) ↔ Solves x rows := by
      rw [solves_cons, holds_of_leadingVar_eq_none hpivot, and_iff_right (not_not.mp hrhs)]
    rw [forward, hpivot]
    dsimp only
    rw [if_neg hrhs]
    simp only [hsolves]
    exact ih hrest

theorem backward_spec (hrows : ∀ eq ∈ rows, eq.Distinct) : Solves x (backward rows) ↔ Solves x rows := by
  induction rows using backward.induct with
  | case1 => rw [backward]
  | case2 row rows pivotVar hpivot ih =>
    obtain ⟨hrow, hrest⟩ := forall_mem_cons.mp hrows
    rw [backward, hpivot]
    dsimp only
    rw [solves_cons, ih (distinct_eliminate hrow hrest), ← solves_cons, solves_cons_eliminate hrow]
  | case3 row rows hpivot ih =>
    rw [backward, hpivot]
    dsimp only
    rw [solves_cons, ih (forall_mem_cons.mp hrows).2, ← solves_cons]

end

def LinExpr.eval (x : ℕ → ℚ) (expr : LinExpr) : ℚ := expr.terms.eval x + expr.constant

namespace GaussianElimination

variable {g : GaussianElimination} {expr : LinExpr} {eqs : List LinearEquation}

theorem applySubstitutions_eval (h : Respects x g.substitutions) :
    (g.applySubstitutions expr).eval x = expr.eval x := by
  have hterm (t : ℕ × ℚ) : Terms.eval x (g.substituteTerm t).1 + (g.substituteTerm t).2 = t.2 * x t.1 := by
    unfold substituteTerm
    cases hlookup : g.substitutions.lookup t.1 with
    | none => simp
    | some subst =>
      have hmem : (t.1, subst) ∈ g.substitutions := by
        obtain ⟨front, back, heq, -⟩ := lookup_eq_some_iff.mp hlookup
        rw [heq]
        simp
      have hx : x t.1 = subst.terms.eval x + subst.rhs := h _ hmem
      dsimp only
      rw [Terms.eval_map (k := t.2) fun _ => rfl, hx]
      ring
  have hterms (terms : Terms) : Terms.eval x (terms.flatMap fun t => (g.substituteTerm t).1) +
      (terms.map fun t => (g.substituteTerm t).2).sum = terms.eval x := by
    induction terms with
    | nil => simp
    | cons t terms ih =>
      rw [flatMap_cons, map_cons, sum_cons, Terms.eval_append, Terms.eval_cons, ← ih, ← hterm t]
      ring
  have heval := hterms expr.terms
  unfold LinExpr.eval applySubstitutions
  dsimp only
  rw [Terms.eval_sortByVar, Terms.eval_filter_ne_zero, Terms.eval_foldl_accumulate, Terms.eval_nil, ← heval]
  ring

/-- The result has the solutions of the equations, and the substitutions keep the values of all
expressions in them, if and only if there is a solution at all. -/
theorem eliminate_exact_iff (h : ∀ eq ∈ eqs, eq.Distinct) :
    ((∀ x, Solves x (eliminate { equations := eqs }).2.1 ↔ Solves x eqs) ∧ ∀ x, Solves x eqs →
    ∀ expr, ((eliminate { equations := eqs }).1.applySubstitutions expr).eval x = expr.eval x) ↔
    ∃ x, Solves x eqs := by
  have hnil (x : ℕ → ℚ) : Solves x [] := forall_mem_nil _
  unfold eliminate
  by_cases hempty : eqs = []
  · subst hempty
    refine ⟨fun _ => ⟨0, hnil 0⟩, fun _ => ⟨fun x => Iff.rfl, fun x _ expr => ?_⟩⟩
    exact applySubstitutions_eval (forall_mem_nil _)
  · rw [if_neg hempty]
    dsimp only
    set sorted := (eqs.map normalize).insertionSort fun eq eq' =>
      leadingLe eq.leadingVar eq'.leadingVar
    have hperm : sorted.Perm (eqs.map normalize) := perm_insertionSort _ _
    have hsorted (x : ℕ → ℚ) : Solves x sorted ↔ Solves x eqs := by
      rw [solves_perm hperm, Solves, List.forall_mem_map]
      exact forall₂_congr fun eq _ => normalize_holds
    have hdistinct : ∀ eq ∈ sorted, eq.Distinct := by
      intro eq heq
      obtain ⟨eq', heq', rfl⟩ := mem_map.mp (hperm.mem_iff.mp heq)
      exact (h eq' heq').normalize
    obtain ⟨hnone, hsome⟩ := @forward_spec sorted [] hdistinct
    cases hforward : forward [] sorted with
    | none =>
      refine ⟨fun hexact => ⟨0, (hexact.1 0).mp (hnil 0)⟩, fun ⟨x, hx⟩ => ?_⟩
      exact absurd ((hsorted x).mpr hx) (hnone hforward x)
    | some result =>
      obtain ⟨rows, subst⟩ := result
      obtain ⟨hsame, hrows, ⟨x, hx⟩, hrespects⟩ := hsome rows subst hforward
      have hback (x : ℕ → ℚ) : Solves x (backward rows.reverse).reverse ↔ Solves x eqs := by
        rw [solves_perm (reverse_perm _), backward_spec (fun eq heq => hrows eq (mem_reverse.mp heq)),
          solves_perm (reverse_perm _), hsame, hsorted]
      refine ⟨fun _ => ⟨x, (hsorted x).mp hx⟩, fun _ => ⟨hback, fun x hx expr => ?_⟩⟩
      exact applySubstitutions_eval (hrespects x ((hsorted x).mpr hx) (forall_mem_nil _))

def twoEquations : List LinearEquation := [⟨[(1, 0), (0, 2)], 4⟩, ⟨[(1, 1), (0, 1)], 3⟩]

theorem eliminate_exact_iff_twoEquations :
    ((∀ x, Solves x (eliminate { equations := twoEquations }).2.1 ↔ Solves x twoEquations) ∧
    ∀ x, Solves x twoEquations → ∀ expr, ((eliminate { equations := twoEquations }).1.applySubstitutions expr).eval x =
    expr.eval x) ↔ ∃ x, Solves x twoEquations :=
  eliminate_exact_iff (by simp [twoEquations, Distinct, Terms.vars])

/-- The equation 0 · x = 1 becomes no equation. -/
theorem not_eliminate_exact : ¬ ∀ eqs : List LinearEquation, (∀ eq ∈ eqs, eq.Distinct) →
    (∀ x, Solves x (eliminate { equations := eqs }).2.1 ↔ Solves x eqs) ∧
      ∀ x, Solves x eqs → ∀ expr, ((eliminate { equations := eqs }).1.applySubstitutions expr).eval x =
        expr.eval x := by
  intro h
  have hnone : forward [] [⟨[(0, 0)], 1⟩] = none := by
    rw [forward]
    simp [leadingVar]
  have hresult : (eliminate { equations := [⟨[(0, 0)], 1⟩] }).2.1 = [] := by
    simp [eliminate, LinearEquation.normalize, hnone]
  have hsolves := (h [⟨[(0, 0)], 1⟩] (by simp [Distinct, Terms.vars])).1 0
  rw [hresult] at hsolves
  have hholds := hsolves.mp (forall_mem_nil _) _ (mem_singleton.mpr rfl)
  simp [Holds] at hholds

end GaussianElimination

end Nixie.Arithmetic
