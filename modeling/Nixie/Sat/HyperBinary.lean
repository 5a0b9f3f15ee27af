import Nixie.Sat.Stored

/-!
The binary clauses that `check_hyper_binary_resolution` adds, and the edges it puts in the implication graph, follow
from the clauses of the store and the literals of level 0.
-/

namespace Nixie.Sat.Solver

open Nixie.Literal List Function

variable {s : Solver} {implied reasonId : ℕ}

def Reachable (s : Solver) : Prop := ∃ ops play, Trail.Play.run {} ops = some play ∧ s.trail = play.trail

theorem Reachable.valid (h : Reachable s) : s.trail.Valid := by
  obtain ⟨ops, play, hrun, htrail⟩ := h
  have hsound : play.Sound := Trail.Play.run_sound ⟨Trail.valid_empty, by simp⟩ hrun
  exact htrail ▸ hsound.valid

structure Models (s : Solver) (σ : ℕ → Bool) : Prop where
  clauses : ∀ id c, s.clauses id = some c → ∃ l ∈ c.lits, isTrue σ l
  facts : ∀ l ∈ s.trail.assignments, s.trail.level (l / 2) = 0 → isTrue σ l

theorem Models.not_isTrue {σ : ℕ → Bool} {lit : ℕ} (h : Models s σ) (hvalid : s.trail.Valid)
    (hneg : s.trail.litVal lit < 0) (hlevel : s.trail.level (lit / 2) = 0) : isTrue σ lit = false := by
  have hmem : neg lit ∈ s.trail.assignments := by
    rw [hvalid.neg_mem_iff]
    have hcases := litVal_cases hvalid lit
    unfold Trail.litVal at hcases hneg
    omega
  have htrue : isTrue σ (neg lit) = true := h.facts (neg lit) hmem (by rwa [neg_div_two])
  rw [isTrue_neg] at htrue
  simpa using htrue

theorem hyperBinaryScan_spec {lits current : List ℕ} {other : Bool}
    (h : s.hyperBinaryScan implied lits = some (current, other)) :
    ∀ l ∈ lits, l = implied ∨ l ∈ current ∨ s.trail.litVal l < 0 ∧ (other = false → s.trail.level (l / 2) = 0) := by
  induction lits generalizing current other with
  | nil => exact fun l hl => absurd hl not_mem_nil
  | cons lit lits ih =>
    rw [hyperBinaryScan] at h
    split_ifs at h with himplied hfalse
    · exact forall_mem_cons.mpr ⟨.inl himplied, ih h⟩
    · simp only [Option.bind_eq_bind, Option.bind_eq_some_iff] at h
      obtain ⟨⟨rest, seen⟩, hrest, h⟩ := h
      dsimp only at h
      split_ifs at h with hlevel
      · obtain ⟨rfl, rfl⟩ := Prod.mk.inj (Option.some.inj h)
        refine forall_mem_cons.mpr ⟨.inr (.inl mem_cons_self), fun l hl => ?_⟩
        rcases ih hrest l hl with heq | hmem | hzero
        · exact .inl heq
        · exact .inr (.inl (mem_cons_of_mem _ hmem))
        · exact .inr (.inr hzero)
      · obtain ⟨rfl, rfl⟩ := Prod.mk.inj (Option.some.inj h)
        refine forall_mem_cons.mpr ⟨.inr (.inr ⟨hfalse, fun hor => ?_⟩), fun l hl => ?_⟩
        · simp only [Bool.or_eq_false_iff, decide_eq_false_iff_not] at hor
          omega
        · rcases ih hrest l hl with heq | hmem | ⟨hneg, hzero⟩
          · exact .inl heq
          · exact .inr (.inl hmem)
          · exact .inr (.inr ⟨hneg, fun hor => hzero (Bool.or_eq_false_iff.mp hor).1⟩)

theorem Models.resolvent {σ : ℕ → Bool} {c : Clause} {l : ℕ} (h : Models s σ) (hvalid : s.trail.Valid)
    (hc : s.clauses reasonId = some c) (hscan : s.hyperBinaryScan implied c.lits = some ([l], false)) :
    ∃ m ∈ [l, implied], isTrue σ m := by
  obtain ⟨m, hm, htrue⟩ := h.clauses reasonId c hc
  refine ⟨m, ?_, htrue⟩
  rcases hyperBinaryScan_spec hscan m hm with rfl | hmem | ⟨hneg, hlevel⟩
  · simp
  · simp_all
  · -- false at level 0, and so in every model
    rw [h.not_isTrue hvalid hneg (hlevel rfl)] at htrue
    cases htrue

theorem mem_addBinary {a b id lit : ℕ} {e : ℕ × ℕ} (h : e ∈ (s.addBinary a b id).binaryGraph lit) :
    e ∈ s.binaryGraph lit ∨ lit = a ∧ e.1 = b := by
  unfold addBinary at h
  dsimp only at h
  by_cases hlit : lit = a
  · rw [hlit, update_self, mem_append, mem_singleton] at h
    rcases h with hold | rfl
    · exact .inl (hlit ▸ hold)
    · exact .inr ⟨hlit, rfl⟩
  · rw [update_of_ne hlit] at h
    exact .inl h

theorem checkHyperBinaryResolution_cases (s : Solver) (implied reasonId : ℕ) :
    s.checkHyperBinaryResolution implied reasonId = s ∨
      ∃ c l, s.clauses reasonId = some c ∧ s.hyperBinaryScan implied c.lits = some ([l], false) ∧
        (s.checkHyperBinaryResolution implied reasonId).clauses =
          update s.clauses s.nextId (some { lits := [l, implied], learned := true }) ∧
        ∀ lit, ∀ e ∈ (s.checkHyperBinaryResolution implied reasonId).binaryGraph lit, e ∈ s.binaryGraph lit ∨
          lit = neg l ∧ e.1 = implied ∨ lit = neg implied ∧ e.1 = l := by
  unfold checkHyperBinaryResolution
  split_ifs
  · exact .inl rfl
  split
  next => exact .inl rfl
  next c hc =>
    split_ifs
    · exact .inl rfl
    split
    next l hscan =>
      split_ifs
      · exact .inl rfl
      refine .inr ⟨c, l, hc, hscan, rfl, fun lit e he => ?_⟩
      rcases mem_addBinary he with he | hlast
      · exact (mem_addBinary he).imp_right .inl
      · exact .inr (.inr hlast)
    next => exact .inl rfl

/-- What a check adds is true in every model of the clauses and the facts of level 0. -/
theorem hyperBinary_entailed (h : Reachable s) (implied reasonId : ℕ) :
    (∀ id c, (s.checkHyperBinaryResolution implied reasonId).clauses id = some c → s.clauses id ≠ some c →
    c.lits.length = 2 ∧ ∀ σ, Models s σ → ∃ l ∈ c.lits, isTrue σ l) ∧
    ∀ lit, ∀ e ∈ (s.checkHyperBinaryResolution implied reasonId).binaryGraph lit, e ∉ s.binaryGraph lit →
    ∀ σ, Models s σ → isTrue σ lit → isTrue σ e.1 := by
  rcases checkHyperBinaryResolution_cases s implied reasonId with hsame | ⟨c, l, hc, hscan, hclauses, hedges⟩
  · rw [hsame]
    exact ⟨fun _ _ hc hne => absurd hc hne, fun _ _ he hne => absurd he hne⟩
  · have hresolvent : ∀ σ, Models s σ → isTrue σ l ∨ isTrue σ implied := fun σ hσ => by
      simpa using hσ.resolvent h.valid hc hscan
    constructor
    · intro id d hd hne
      rw [hclauses] at hd
      by_cases hid : id = s.nextId
      · obtain rfl : { lits := [l, implied], learned := true } = d := by simpa [hid] using hd
        exact ⟨rfl, fun σ hσ => hσ.resolvent h.valid hc hscan⟩
      · exact absurd ((update_of_ne hid _ _).symm.trans hd) hne
    · intro lit e he hne σ hσ htrue
      have hor := hresolvent σ hσ
      rcases hedges lit e he with hold | ⟨rfl, himplied⟩ | ⟨rfl, hother⟩
      · exact absurd hold hne
      · rw [isTrue_neg, Bool.not_eq_true'] at htrue
        rw [himplied]
        exact hor.resolve_left (by simp [htrue])
      · rw [isTrue_neg, Bool.not_eq_true'] at htrue
        rw [hother]
        exact hor.resolve_right (by simp [htrue])

/-- `¬x0 ∨ ¬x2 ∨ x3` has propagated `x3` at level 2, where `x0` is a fact and `x2` the decision. -/
theorem hyperBinary_entailed_ternary :
    ∃ s, Reachable s ∧ (s.checkHyperBinaryResolution 6 0).clauses 1 = some { lits := [5, 6], learned := true } ∧
      ∀ σ, Models s σ → ∃ l ∈ [5, 6], isTrue σ l := by
  let ops : List Trail.Op := [.assignUnitFact 0, .newDecisionLevel, .assignDecision 2, .newDecisionLevel,
    .assignDecision 4, .assignPropagation 6 0]
  let s : Solver := {
    trail := ((Trail.Play.run {} ops).getD {}).trail
    clauses := fun id => if id = 0 then some { lits := [1, 5, 6] } else none
    nextId := 1 }
  have hreachable : Reachable s := ⟨ops, _, rfl, rfl⟩
  have hadded : (s.checkHyperBinaryResolution 6 0).clauses 1 = some { lits := [5, 6], learned := true } := rfl
  exact ⟨s, hreachable, hadded, ((hyperBinary_entailed hreachable 6 0).1 1 _ hadded nofun).2⟩

end Nixie.Sat.Solver
