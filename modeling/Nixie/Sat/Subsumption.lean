import Mathlib.Data.List.MinMax
import Mathlib.Data.List.Sort
import Nixie.Preprocess.Core
import Nixie.Sat.Stored

/-!
Forward subsumption of `nixie-sat/src/solver/bve.rs`.
-/

namespace Nixie.Sat

open Nixie.Literal List Option Function

def subsetOf : List ℕ → List ℕ → Bool
  | [], _ => true
  | _ :: _, [] => false
  | needle :: needles, hay :: hays =>
    if needle = hay then subsetOf needles hays
    else if needle < hay then false
    else subsetOf (needle :: needles) hays

theorem subset_of_subsetOf {needles hays : List ℕ} (h : subsetOf needles hays) : needles ⊆ hays := by
  induction needles, hays using subsetOf.induct with
  | case1 => exact nil_subset _
  | case2 => cases h
  | case3 needles hay hays ih =>
    rw [subsetOf, if_pos rfl] at h
    exact cons_subset_cons _ (ih h)
  | case4 needle needles hay hays hne hlt =>
    rw [subsetOf, if_neg hne, if_pos hlt] at h
    cases h
  | case5 needle needles hay hays hne hlt ih =>
    rw [subsetOf, if_neg hne, if_neg hlt] at h
    exact fun l hl => mem_cons_of_mem _ (ih h hl)

def dedupFrom (prev : ℕ) : List ℕ → Option (List ℕ)
  | [] => some []
  | curr :: lits =>
    if curr = neg prev then none
    else if curr = prev then dedupFrom prev lits
    else (dedupFrom curr lits).map (curr :: ·)

def normalizeLits (lits : List ℕ) : Option (List ℕ) :=
  match lits.insertionSort (· ≤ ·) with
  | [] => some []
  | lit :: lits => (dedupFrom lit lits).map (lit :: ·)

variable {lits : List ℕ}

theorem dedupFrom_mem {kept : List ℕ} {prev : ℕ} (h : dedupFrom prev lits = some kept) (l : ℕ) :
    l ∈ prev :: kept ↔ l ∈ prev :: lits := by
  induction lits generalizing prev kept with
  | nil =>
    obtain rfl := some.inj h
    rfl
  | cons curr lits ih =>
    rw [dedupFrom] at h
    split_ifs at h with _ heq
    · rw [ih h, heq]
      simp
    · obtain ⟨rest, hrest, rfl⟩ := map_eq_some_iff.mp h
      rw [mem_cons, ih hrest, ← mem_cons]

theorem dedupFrom_none {prev : ℕ} (h : dedupFrom prev lits = none) : ∃ l ∈ prev :: lits, neg l ∈ prev :: lits := by
  induction lits generalizing prev with
  | nil => cases h
  | cons curr lits ih =>
    rw [dedupFrom] at h
    split_ifs at h with hneg heq
    · exact ⟨prev, by simp, by simp [hneg]⟩
    · obtain ⟨l, hl, hnegl⟩ := ih h
      rw [← heq] at hl hnegl ⊢
      exact ⟨l, mem_cons_of_mem _ hl, mem_cons_of_mem _ hnegl⟩
    · obtain ⟨l, hl, hnegl⟩ := ih (map_eq_none_iff.mp h)
      exact ⟨l, mem_cons_of_mem _ hl, mem_cons_of_mem _ hnegl⟩

theorem normalizeLits_mem {kept : List ℕ} (h : normalizeLits lits = some kept) (l : ℕ) : l ∈ kept ↔ l ∈ lits := by
  rw [← (perm_insertionSort (· ≤ ·) lits).mem_iff]
  unfold normalizeLits at h
  split at h
  next hsort =>
    obtain rfl := some.inj h
    rw [hsort]
  next lit rest hsort =>
    obtain ⟨ds, hds, rfl⟩ := map_eq_some_iff.mp h
    rw [hsort]
    exact dedupFrom_mem hds l

theorem normalizeLits_none (h : normalizeLits lits = none) (σ : ℕ → Bool) : ∃ l ∈ lits, isTrue σ l := by
  unfold normalizeLits at h
  split at h
  next => cases h
  next lit rest hsort =>
    obtain ⟨l, hl, hneg⟩ := dedupFrom_none (map_eq_none_iff.mp h)
    rw [← hsort, (perm_insertionSort (· ≤ ·) lits).mem_iff] at hl hneg
    cases htrue : isTrue σ l with
    | true => exact ⟨l, hl, htrue⟩
    | false => exact ⟨neg l, hneg, by rw [isTrue_neg, htrue]; rfl⟩

namespace Solver

def isReason (s : Solver) (id : ℕ) (lits : List ℕ) : Bool :=
  lits.any fun lit => s.trail.isAssigned (lit / 2) ∧ s.trail.reason (lit / 2) = .propagation id

def purgeBinaryEdges (s : Solver) (id : ℕ) : Solver :=
  match s.clauses id with
  | some { lits := [a, b], .. } =>
    let purge graph lit := update graph lit ((graph lit).filter fun e : ℕ × ℕ => e.2 ≠ id)
    { s with binaryGraph := purge (purge s.binaryGraph (neg a)) (neg b) }
  | _ => s

def releaseReason (id : ℕ) (t : Trail) (lit : ℕ) : Trail :=
  if t.isAssigned (lit / 2) ∧ t.reason (lit / 2) = .propagation id then
    { t with varInfo := update t.varInfo (lit / 2) { t.varInfo (lit / 2) with reason := .decision } }
  else t

def retireClause (s : Solver) (id : ℕ) : Solver :=
  let s := s.purgeBinaryEdges id
  match s.clauses id with
  | none => s
  | some c => { s with
      trail := c.lits.foldl (releaseReason id) s.trail
      clauses := update s.clauses id none }

def normalizeClause (s : Solver) (id : ℕ) : Solver :=
  match s.clauses id with
  | none => s
  | some c =>
    if c.lits.length < 2 then s
    else match normalizeLits c.lits with
      | none => s.retireClause id
      | some lits => s.setClause id { c with lits := lits }

def rebuildWatchesAndBinaryGraph (s : Solver) : Solver :=
  let attach (s : Solver) id := match s.clauses id with
    | some { lits := a :: b :: _, .. } => s.attachWatchers id a b
    | _ => s
  let s := (List.range s.nextId).foldl attach { s with watches := fun _ => [], binaryGraph := fun _ => [] }
  { s with learnedClauseIds := s.learnedClauseIds.filter fun id => (s.clauses id).isSome }

structure Subsumption where
  solver : Solver
  occ : ℕ → List ℕ := fun _ => []
  removed : ℕ := 0

namespace Subsumption

def addOcc (id : ℕ) (occ : ℕ → List ℕ) (lit : ℕ) : ℕ → List ℕ :=
  if id ∈ occ lit then occ else update occ lit (occ lit ++ [id])

def removeOcc (id : ℕ) (occ : ℕ → List ℕ) (lit : ℕ) : ℕ → List ℕ :=
  update occ lit (Preprocess.swapRemove (occ lit) id)

def list (p : Subsumption) (id : ℕ) : Subsumption :=
  match p.solver.clauses id with
  | none => p
  | some c => if c.lits.length < 2 then p else { p with occ := c.lits.foldl (addOcc id) p.occ }

def occCap : ℕ := 512

def within (s : Solver) (id : ℕ) (lits : List ℕ) (cand : ℕ) : Bool :=
  cand ≠ id ∧ (s.clauses cand).any fun c => c.lits.length ≤ lits.length && subsetOf c.lits lits

def subsumers (p : Subsumption) (id : ℕ) (c : Clause) : List ℕ :=
  if c.lits.length < 2 then []
  else match c.lits.argmin fun l => (p.occ l).length with
    | none => []
    | some lit =>
      if occCap < (p.occ lit).length ∨ p.solver.isReason id c.lits then []
      else (p.occ lit).filter (within p.solver id c.lits)

def visit (p : Subsumption) (id : ℕ) : Subsumption :=
  match p.solver.clauses id with
  | none => p
  | some c =>
    if p.subsumers id c = [] then p
    else ⟨p.solver.retireClause id, c.lits.foldl (removeOcc id) p.occ, p.removed + 1⟩

end Subsumption

def subsumptionBefore (s : Solver) (k : ℕ) : Subsumption :=
  let s := (List.range s.nextId).foldl normalizeClause s
  (List.range k).foldl Subsumption.visit ((List.range s.nextId).foldl Subsumption.list ⟨s, fun _ => [], 0⟩)

def forwardSubsumption (s : Solver) : Solver × ℕ :=
  if s.trail.currentLevel ≠ 0 then (s, 0)
  else
    let p := s.subsumptionBefore s.nextId
    (p.solver.rebuildWatchesAndBinaryGraph, p.removed)

section

variable {s : Solver} {id : ℕ} {c : Clause}

def Originals (s : Solver) (σ : ℕ → Bool) : Prop :=
  ∀ id c, s.clauses id = some c → c.learned = false → ∃ l ∈ c.lits, isTrue σ l

theorem purgeBinaryEdges_clauses (s : Solver) (id : ℕ) : (s.purgeBinaryEdges id).clauses = s.clauses := by
  unfold purgeBinaryEdges
  split <;> rfl

theorem retireClause_clauses (s : Solver) (id : ℕ) : (s.retireClause id).clauses = update s.clauses id none := by
  unfold retireClause
  dsimp only
  rw [purgeBinaryEdges_clauses]
  split
  next hnone => rw [purgeBinaryEdges_clauses, ← hnone, update_eq_self]
  next => rfl

theorem originals_retireClause (hc : s.clauses id = some c) (σ : ℕ → Bool) :
    Originals s σ ↔ Originals (s.retireClause id) σ ∧ (c.learned = false → ∃ l ∈ c.lits, isTrue σ l) := by
  unfold Originals
  rw [retireClause_clauses]
  constructor
  · intro h
    refine ⟨fun i d hd => h i d ?_, h id c hc⟩
    by_cases hi : i = id
    · simp [hi] at hd
    · rwa [update_of_ne hi] at hd
  · rintro ⟨hothers, hself⟩ i d hd
    by_cases hi : i = id
    · obtain rfl : c = d := some.inj (hc.symm.trans (hi ▸ hd))
      exact hself
    · exact hothers i d (by rwa [update_of_ne hi])

theorem originals_setClause {lits : List ℕ} (hc : s.clauses id = some c) (hmem : ∀ l, l ∈ lits ↔ l ∈ c.lits)
    (σ : ℕ → Bool) : Originals (s.setClause id { c with lits := lits }) σ ↔ Originals s σ := by
  have hself : (∃ l ∈ lits, isTrue σ l) ↔ ∃ l ∈ c.lits, isTrue σ l := exists_congr fun l => and_congr_left' (hmem l)
  unfold Originals setClause
  dsimp only
  refine forall_congr' fun i => ?_
  by_cases hi : i = id
  · subst hi
    simp only [update_self, hc, some.injEq, forall_eq', hself]
  · rw [update_of_ne hi]

theorem originals_normalizeClause (s : Solver) (id : ℕ) (σ : ℕ → Bool) :
    Originals (s.normalizeClause id) σ ↔ Originals s σ := by
  unfold normalizeClause
  split
  next => rfl
  next c hc =>
    split_ifs
    · rfl
    split
    next hnone =>
      rw [originals_retireClause hc σ]
      exact (and_iff_left fun _ => normalizeLits_none hnone σ).symm
    next lits hlits => exact originals_setClause hc (normalizeLits_mem hlits) σ

theorem originals_normalize (ids : List ℕ) (s : Solver) (σ : ℕ → Bool) :
    Originals (ids.foldl normalizeClause s) σ ↔ Originals s σ := by
  induction ids generalizing s with
  | nil => rfl
  | cons id ids ih => exact (ih _).trans (originals_normalizeClause s id σ)

theorem list_solver (ids : List ℕ) (p : Subsumption) : (ids.foldl Subsumption.list p).solver = p.solver := by
  induction ids generalizing p with
  | nil => rfl
  | cons id ids ih =>
    refine (ih _).trans ?_
    unfold Subsumption.list
    split
    · rfl
    · split_ifs <;> rfl

theorem rebuildWatchesAndBinaryGraph_clauses (s : Solver) : s.rebuildWatchesAndBinaryGraph.clauses = s.clauses := by
  unfold rebuildWatchesAndBinaryGraph
  dsimp only
  generalize List.range s.nextId = ids
  have hfold : ∀ t : Solver, t.clauses = s.clauses → (ids.foldl (fun (s : Solver) id => match s.clauses id with
      | some { lits := a :: b :: _, .. } => s.attachWatchers id a b
      | _ => s) t).clauses = s.clauses := by
    induction ids with
    | nil => exact fun _ ht => ht
    | cons id ids ih =>
      refine fun t ht => ih _ ?_
      dsimp only
      split
      · rw [← ht]
        unfold attachWatchers
        split
        · rfl
        · split_ifs <;> rfl
      · exact ht
  exact hfold _ rfl

end

section

variable {p : Subsumption} {id : ℕ} {c : Clause}

def Covered (p : Subsumption) (id : ℕ) : Prop :=
  ∀ c, p.solver.clauses id = some c → c.learned = false → p.subsumers id c ≠ [] →
    (∀ cand ∈ p.subsumers id c, ∀ d, p.solver.clauses cand = some d → d.learned) →
    ∀ σ, Originals (p.solver.retireClause id) σ → ∃ l ∈ c.lits, isTrue σ l

theorem mem_subsumers {cand : ℕ} (h : cand ∈ p.subsumers id c) :
    cand ≠ id ∧ ∃ d, p.solver.clauses cand = some d ∧ d.lits ⊆ c.lits := by
  unfold Subsumption.subsumers at h
  split_ifs at h with hlen
  · cases h
  split at h
  · cases h
  split_ifs at h with hskip
  · cases h
  · have hwithin := (List.mem_filter.mp h).2
    simp only [Subsumption.within, Option.any_eq_true, Bool.and_eq_true, decide_eq_true_eq] at hwithin
    obtain ⟨hne, d, hd, -, hsub⟩ := hwithin
    exact ⟨hne, d, hd, subset_of_subsetOf hsub⟩

theorem visit_iff (p : Subsumption) (id : ℕ) :
    (∀ σ, Originals (p.visit id).solver σ → Originals p.solver σ) ↔ Covered p id := by
  unfold Subsumption.visit Covered
  split
  next hnone => simp [hnone]
  next c hc =>
    simp only [hc, some.injEq, forall_eq']
    split_ifs with hempty
    · simp [hempty]
    · simp only [originals_retireClause hc]
      constructor
      · exact fun h horiginal _ _ σ hσ => (h σ hσ).2 horiginal
      · refine fun h σ hσ => ⟨hσ, fun horiginal => ?_⟩
        by_cases hlearned : ∀ cand ∈ p.subsumers id c, ∀ d, p.solver.clauses cand = some d → d.learned
        · exact h horiginal hempty hlearned σ hσ
        -- an original subsumer stays
        push Not at hlearned
        obtain ⟨cand, hcand, d, hd, hd'⟩ := hlearned
        obtain ⟨hne, d', hd'', hsub⟩ := mem_subsumers hcand
        obtain rfl : d = d' := some.inj (hd.symm.trans hd'')
        obtain ⟨l, hl, htrue⟩ := hσ cand d (by rwa [retireClause_clauses, update_of_ne hne])
          (Bool.eq_false_iff.mpr hd')
        exact ⟨l, hsub hl, htrue⟩

theorem originals_visit (p : Subsumption) (id : ℕ) (σ : ℕ → Bool) (h : Originals p.solver σ) :
    Originals (p.visit id).solver σ := by
  unfold Subsumption.visit
  split
  next => exact h
  next c hc =>
    split_ifs
    · exact h
    · exact ((originals_retireClause hc σ).mp h).1

theorem originals_before (s : Solver) (k : ℕ) (σ : ℕ → Bool) (h : Originals s σ) :
    Originals (s.subsumptionBefore k).solver σ := by
  induction k with
  | zero =>
    unfold subsumptionBefore
    rw [range_zero, foldl_nil, list_solver]
    exact (originals_normalize _ s σ).mpr h
  | succ k ih =>
    unfold subsumptionBefore at ih ⊢
    rw [range_succ, foldl_append]
    exact originals_visit _ k σ ih

/-- At level 0 the pass keeps the conjunction of the originals exactly when every step is covered. -/
theorem forwardSubsumption_equivalent_iff (s : Solver) (hlevel : s.trail.currentLevel = 0) :
    (∀ σ, Originals s.forwardSubsumption.1 σ ↔ Originals s σ) ↔ ∀ k < s.nextId, Covered (s.subsumptionBefore k) k := by
  have hafter : ∀ σ, Originals s.forwardSubsumption.1 σ ↔ Originals (s.subsumptionBefore s.nextId).solver σ := by
    intro σ
    unfold forwardSubsumption
    rw [if_neg (not_not.mpr hlevel)]
    dsimp only
    unfold Originals
    rw [rebuildWatchesAndBinaryGraph_clauses]
  have hstep : ∀ k, s.subsumptionBefore (k + 1) = (s.subsumptionBefore k).visit k := fun k => by
    unfold subsumptionBefore
    rw [range_succ, foldl_append]
    rfl
  simp only [hafter]
  constructor
  · intro h k hk
    refine (visit_iff _ k).mp fun σ hσ => originals_before s k σ ((h σ).mp ?_)
    -- the later steps only take clauses away
    rw [← hstep] at hσ
    obtain ⟨d, hd⟩ := Nat.exists_eq_add_of_le hk
    rw [hd]
    clear hd
    induction d with
    | zero => exact hσ
    | succ d ih =>
      rw [← Nat.add_assoc, hstep]
      exact originals_visit _ _ σ ih
  · intro h σ
    refine ⟨?_, originals_before s s.nextId σ⟩
    have hback : ∀ k ≤ s.nextId, Originals (s.subsumptionBefore k).solver σ → Originals s σ := by
      intro k
      induction k with
      | zero =>
        intro _ hσ
        unfold subsumptionBefore at hσ
        rw [range_zero, foldl_nil, list_solver] at hσ
        exact (originals_normalize _ s σ).mp hσ
      | succ k ih =>
        intro hk hσ
        rw [hstep] at hσ
        exact ih (by omega) ((visit_iff _ k).mpr (h k hk) σ hσ)
    exact hback s.nextId le_rfl

def storedTwice : Solver where
  clauses id := if id < 2 then some { lits := [0, 2] } else none
  nextId := 2

theorem forwardSubsumption_equivalent_storedTwice : storedTwice.forwardSubsumption.2 = 1 ∧
    ∀ σ, Originals storedTwice.forwardSubsumption.1 σ ↔ Originals storedTwice σ := by
  refine ⟨by with_unfolding_all rfl, (forwardSubsumption_equivalent_iff storedTwice rfl).mpr ?_⟩
  rintro (_ | _ | k) hk c hc - hne hlearned
  · obtain rfl : { lits := [0, 2] } = c := by with_unfolding_all exact some.inj hc
    exact absurd (hlearned 1 (by with_unfolding_all decide) { lits := [0, 2] } (by with_unfolding_all rfl)) nofun
  · obtain rfl : { lits := [0, 2] } = c := by with_unfolding_all exact some.inj hc
    exact absurd (by with_unfolding_all rfl) hne
  · have hbound : k + 1 + 1 < 2 := hk
    omega

/-- Two originals beside the learned clause resolved from them; every other clause has a literal of `x4` or `x5`. -/
def resolventLearned : Solver where
  clauses
    | 0 => some { lits := [0, 2, 4, 6] }
    | 1 => some { lits := [0, 2, 4, 7] }
    | 2 => some { lits := [6, 8] }
    | 3 => some { lits := [6, 10] }
    | 4 => some { lits := [7, 8] }
    | 5 => some { lits := [7, 10] }
    | 6 => some { lits := [0, 2, 4], learned := true }
    | _ => none
  nextId := 7
  learnedClauseIds := [6]

theorem not_forwardSubsumption_equivalent : ¬ ∀ s : Solver, s.trail.currentLevel = 0 →
    ∀ σ, Originals s.forwardSubsumption.1 σ ↔ Originals s σ := by
  intro h
  let σ : ℕ → Bool := fun v => v == 4 || v == 5
  have hleft : ∀ id, (resolventLearned.forwardSubsumption.1.clauses id).all
      (fun c => c.learned || c.lits.any (isTrue σ)) = true := by
    rintro (_ | _ | _ | _ | _ | _ | _ | id) <;> with_unfolding_all rfl
  have hafter : Originals resolventLearned.forwardSubsumption.1 σ := fun id c hc hlearned => by
    have hc' := hleft id
    rwa [hc, Option.all_some, hlearned, Bool.false_or, List.any_eq_true] at hc'
  obtain ⟨l, hl, htrue⟩ := (h resolventLearned rfl σ).mp hafter 0 { lits := [0, 2, 4, 6] } rfl rfl
  revert l
  decide

end

end Solver

end Nixie.Sat
