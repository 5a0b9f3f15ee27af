import Nixie.Sat.Solver

/-!
Assigning a batch of literals at the root (`nixie-sat/src/solver/incremental.rs`).
-/

namespace Nixie.Sat.Solver

open Nixie.Literal List

variable {s : Solver} {lit : ℕ} {lits : List ℕ}

def assignLits : List ℕ → Solver → Solver × Bool
  | [], s => (s, true)
  | lit :: lits, s =>
    if 0 < s.trail.litVal lit then assignLits lits s
    else if s.trail.litVal lit < 0 then (s, false)
    else assignLits lits { s with trail := s.trail.assignDecision lit }

def assignAndPropagateLevel0 (fuel : ℕ) (s : Solver) (lits : List ℕ) : Option (Solver × Bool) :=
  match assignLits lits s with
  | (s, false) => some (s, false)
  | (s, true) => (propagate fuel s).map fun (s, conflict) => (s, conflict.isNone)

theorem assignLits_extends (lits : List ℕ) (s : Solver) :
    s.trail.assignments <+: (assignLits lits s).1.trail.assignments := by
  induction lits generalizing s with
  | nil => exact prefix_rfl
  | cons lit lits ih =>
    unfold assignLits
    split
    · exact ih s
    · split
      · exact prefix_rfl
      · exact (prefix_append s.trail.assignments [lit]).trans (ih { s with trail := s.trail.assignDecision lit })

theorem assignLits_agreeing {pre : List ℕ} (hpre : ∀ l ∈ pre, 0 < s.trail.litVal l) (lits : List ℕ) :
    assignLits (pre ++ lits) s = assignLits lits s := by
  induction pre with
  | nil => rfl
  | cons l pre ih =>
    rw [cons_append, assignLits, if_pos (hpre l mem_cons_self)]
    exact ih fun m hm => hpre m (mem_cons_of_mem _ hm)

theorem assignLits_fresh (h : s.trail.litVal lit = 0) (lits : List ℕ) :
    (assignLits (lit :: lits) s).1.trail.assignments ≠ s.trail.assignments := by
  intro heq
  have hprefix := (assignLits_extends lits { s with trail := s.trail.assignDecision lit }).length_le
  rw [assignLits, if_neg (by omega), if_neg (by omega)] at heq
  have hlength : (s.trail.assignDecision lit).assignments = s.trail.assignments ++ [lit] := rfl
  rw [heq, hlength, length_append, length_singleton] at hprefix
  omega

def Refused (t : Trail) (lits : List ℕ) : Prop :=
  ∃ pre lit post, lits = pre ++ lit :: post ∧ (∀ l ∈ pre, 0 < t.litVal l) ∧ t.litVal lit < 0

/-- A batch that meets a false literal leaves the trail alone just when no literal before it has been
assigned. -/
theorem level0_atomic_iff (fuel : ℕ) (h : (assignLits lits s).2 = false) :
    ∃ s', assignAndPropagateLevel0 fuel s lits = some (s', false) ∧
      (s'.trail = s.trail ↔ Refused s.trail lits) := by
  refine ⟨(assignLits lits s).1, ?_, ?_⟩
  · unfold assignAndPropagateLevel0
    generalize assignLits lits s = p at *
    obtain ⟨s', ok⟩ := p
    obtain rfl : ok = false := h
    rfl
  constructor
  · intro hsame
    induction lits with
    | nil => cases h
    | cons lit lits ih =>
      rcases lt_trichotomy (s.trail.litVal lit) 0 with hlt | h0 | hgt
      · exact ⟨[], lit, lits, rfl, by simp, hlt⟩
      · exact absurd (congrArg Trail.assignments hsame) (assignLits_fresh h0 lits)
      · rw [assignLits, if_pos hgt] at h hsame
        obtain ⟨pre, m, post, rfl, hpre, hm⟩ := ih h hsame
        exact ⟨lit :: pre, m, post, rfl, by simpa [hgt] using hpre, hm⟩
  · rintro ⟨pre, lit, post, rfl, hpre, hlit⟩
    rw [assignLits_agreeing hpre, assignLits, if_neg (by omega), if_pos hlit]

theorem level0_atomic_first :
    (assignLits [3, 4] { trail := Trail.assignDecision {} 2 }).2 = false ∧
      ∃ s', assignAndPropagateLevel0 1 { trail := Trail.assignDecision {} 2 } [3, 4] = some (s', false) ∧
        (s'.trail = Trail.assignDecision {} 2 ↔ Refused (Trail.assignDecision {} 2) [3, 4]) :=
  ⟨rfl, level0_atomic_iff 1 rfl⟩

/-- The variable of `x, ¬x` stays assigned. -/
theorem not_level0_atomic :
    ∃ s', assignAndPropagateLevel0 1 {} [2, 3] = some (s', false) ∧ s'.trail.assignments = [2] ∧
      s'.trail.litVal 2 = 1 ∧ s'.trail ≠ ({} : Solver).trail :=
  ⟨_, rfl, rfl, rfl, fun h => by cases congrArg Trail.assignments h⟩

end Nixie.Sat.Solver
