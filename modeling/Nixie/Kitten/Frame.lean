import Nixie.Kitten.Search

/-!
What no step of a search touches.
-/

namespace Nixie.Kitten

open Nixie.Literal Option Function

structure Frame (k k' : Kitten) : Prop where
  assumptions : k'.assumptions = k.assumptions
  exportTable : k'.exportTable = k.exportTable
  importTable : k'.importTable = k.importTable
  evars : k'.evars = k.evars
  antecedents : k'.antecedents = k.antecedents
  status : k'.status = k.status
  overflow : k'.referenceOverflow = false → k.referenceOverflow = false
  exhausted : k'.exhausted = false → k.exhausted = false

variable {k k' k'' : Kitten}

theorem Frame.refl (k : Kitten) : Frame k k := ⟨rfl, rfl, rfl, rfl, rfl, rfl, id, id⟩

def framed (k : Kitten) :=
  (k.assumptions, k.exportTable, k.importTable, k.evars, k.antecedents, k.status,
    k.referenceOverflow, k.exhausted)

theorem Frame.same (h : framed k' = framed k) : Frame k k' := by
  simp only [framed, Prod.mk.injEq] at h
  obtain ⟨h1, h2, h3, h4, h5, h6, h7, h8⟩ := h
  exact ⟨h1, h2, h3, h4, h5, h6, fun h => h7 ▸ h, fun h => h8 ▸ h⟩

theorem Frame.trans (h : Frame k k') (h' : Frame k' k'') : Frame k k'' :=
  ⟨h'.assumptions.trans h.assumptions, h'.exportTable.trans h.exportTable,
    h'.importTable.trans h.importTable, h'.evars.trans h.evars,
    h'.antecedents.trans h.antecedents, h'.status.trans h.status,
    fun ho => h.overflow (h'.overflow ho), fun he => h.exhausted (h'.exhausted he)⟩

theorem Frame.foldl {α : Type} {f : Kitten → α → Kitten} (hf : ∀ k a, Frame k (f k a))
    (xs : List α) (k : Kitten) : Frame k (xs.foldl f k) := by
  induction xs generalizing k with
  | nil => exact .refl k
  | cons x xs ih => exact (hf k x).trans (ih _)

section

variable (k : Kitten)

theorem newReference_frame : Frame k k.newReference.1 := by
  unfold newReference
  split
  · exact ⟨rfl, rfl, rfl, rfl, rfl, rfl, id, nofun⟩
  · exact ⟨rfl, rfl, rfl, rfl, rfl, rfl, fun ho => (Bool.or_eq_false_iff.mp ho).1, id⟩

theorem connectNewKlause_frame (r : ℕ) : Frame k (k.connectNewKlause r) := by
  unfold connectNewKlause
  dsimp only
  split
  · split
    · exact .same rfl
    · exact .same rfl
  · split
    · exact .same rfl
    · exact .same rfl

theorem newLearnedKlause_frame : Frame k k.newLearnedKlause.1 := by
  unfold newLearnedKlause
  split
  · exact .same rfl
  · dsimp only
    split
    · exact (newReference_frame k).trans (.same rfl)
    · have hpush : ∀ kk aux flags as r, Frame kk ((pushKlause kk aux flags as).connectNewKlause r) :=
        fun kk aux flags as r => by
          have hpush : Frame kk (pushKlause kk aux flags as) := .same rfl
          exact hpush.trans (connectNewKlause_frame _ r)
      exact ((newReference_frame k).trans (hpush _ _ _ _ _)).trans (.same rfl)

theorem wrapRootReason_frame (lit reason : ℕ) : Frame k (k.wrapRootReason lit reason).1 := by
  have hlearn : ∀ kk : Kitten, Frame k kk → Frame k
      { { kk with klause := kk.klause ++ [lit] }.newLearnedKlause.1 with
        resolved := [], klause := [] } := by
    intro kk h
    have hpend : Frame kk { kk with klause := kk.klause ++ [lit] } := .same rfl
    exact ((h.trans hpend).trans (newLearnedKlause_frame _)).trans (.same rfl)
  unfold wrapRootReason
  split
  · exact hlearn _ (by split <;> exact .same rfl)
  · exact .same rfl

theorem assign_frame (lit reason : ℕ) : Frame k (k.assign lit reason) := by
  unfold assign
  dsimp only
  split
  · have hin : Frame k { k with
        values := update (update k.values lit 1) (neg lit) (-1)
        phases := update k.phases (lit / 2) (lit % 2)
        trail := k.trail ++ [lit] } := .same rfl
    exact (hin.trans (wrapRootReason_frame _ lit reason)).trans (.same rfl)
  · exact .same rfl

theorem moveWatch_frame (r other notLit i : ℕ) : Frame k (k.moveWatch r other notLit i) := by
  have hset : ∀ kk i lit, Frame kk (setLit kk r i lit) := fun _ _ _ => .same rfl
  have hwatch : ∀ kk lit, Frame kk (watchKlause kk lit r false) := fun _ _ => .same rfl
  exact (((hset _ _ _).trans (hset _ _ _)).trans (hset _ _ _)).trans (hwatch _ _)

end

theorem scanWatches_frame (notLit : ℕ) (k : Kitten) (rest kept : List Katch) (ticks : ℕ) :
    Frame k (scanWatches notLit k rest kept ticks).kitten := by
  fun_induction scanWatches notLit k rest kept ticks
  all_goals first
    | exact .same rfl
    | assumption
    | exact (assign_frame _ _ _).trans ‹_›
    | exact (moveWatch_frame _ _ _ _ _).trans ‹_›

theorem propagateLiteral_frame (k : Kitten) (lit : ℕ) : Frame k (k.propagateLiteral lit).1 := by
  have htaken : Frame k { k with watches := update k.watches (neg lit) [] } := .same rfl
  exact (htaken.trans (scanWatches_frame (neg lit) _ (k.watches (neg lit)) [] _)).trans (.same rfl)

variable {fuel : ℕ}

theorem propagate_frame {conflict : Option ℕ} (h : propagate fuel k = some (k', conflict)) : Frame k k' := by
  induction fuel generalizing k with
  | zero => simp [propagate] at h
  | succ fuel ih =>
    simp only [propagate] at h
    split at h
    · obtain ⟨rfl, rfl⟩ : k = k' ∧ none = conflict := by simpa using h
      exact .same rfl
    · next lit _ =>
      have hlit := propagateLiteral_frame k lit
      split at h
      · obtain ⟨rfl, -⟩ : _ = k' ∧ _ := by simpa using h
        exact hlit.trans (.same rfl)
      · have hnext : Frame (k.propagateLiteral lit).1 { (k.propagateLiteral lit).1 with
            propagated := (k.propagateLiteral lit).1.propagated + 1 } := .same rfl
        exact (hlit.trans hnext).trans (ih h)

theorem newReference_level (k : Kitten) : k.newReference.1.level = k.level := by
  unfold newReference
  split <;> rfl

theorem connectNewKlause_level (k : Kitten) (r : ℕ) : (k.connectNewKlause r).level = k.level := by
  unfold connectNewKlause
  dsimp only
  split
  · split <;> rfl
  · split <;> rfl

theorem newLearnedKlause_level (k : Kitten) : k.newLearnedKlause.1.level = k.level := by
  unfold newLearnedKlause
  split
  · rfl
  · dsimp only
    split
    · exact newReference_level k
    · rw [connectNewKlause_level]
      exact newReference_level k

theorem wrapRootReason_level (k : Kitten) (lit reason : ℕ) : (k.wrapRootReason lit reason).1.level = k.level := by
  unfold wrapRootReason
  split
  · dsimp only
    rw [newLearnedKlause_level]
    split <;> rfl
  · rfl

theorem assign_level (k : Kitten) (lit reason : ℕ) : (k.assign lit reason).level = k.level := by
  unfold assign
  dsimp only
  split
  · rw [wrapRootReason_level]
  · rfl

theorem scanWatches_level (notLit : ℕ) (k : Kitten) (rest kept : List Katch) (ticks : ℕ) :
    (scanWatches notLit k rest kept ticks).kitten.level = k.level := by
  fun_induction scanWatches notLit k rest kept ticks
  all_goals first
    | rfl
    | assumption
    | exact Eq.trans ‹_› (assign_level _ _ _)

theorem propagate_level {conflict : Option ℕ} (h : propagate fuel k = some (k', conflict)) : k'.level = k.level := by
  induction fuel generalizing k with
  | zero => simp [propagate] at h
  | succ fuel ih =>
    simp only [propagate] at h
    split at h
    · obtain ⟨rfl, rfl⟩ : k = k' ∧ none = conflict := by simpa using h
      rfl
    · next lit _ =>
      have hlit : (k.propagateLiteral lit).1.level = k.level := scanWatches_level _ _ _ _ _
      split at h
      · obtain ⟨rfl, -⟩ : _ = k' ∧ _ := by simpa using h
        exact hlit
      · exact (ih h).trans hlit

theorem unassign_frame (k : Kitten) (lit : ℕ) : Frame k (k.unassign lit) := by
  unfold unassign
  dsimp only
  split
  · exact .same rfl
  · split <;> exact .same rfl

theorem popTrail_frame (jump : ℕ) (trail : List ℕ) (k : Kitten) : Frame k (popTrail jump trail k).1 := by
  induction trail generalizing k with
  | nil => exact .same rfl
  | cons lit rest ih =>
    simp only [popTrail]
    split
    · exact .same rfl
    · exact (unassign_frame k lit).trans (ih _)

theorem backtrack_frame (k : Kitten) (jump : ℕ) : Frame k (k.backtrack jump) :=
  (popTrail_frame jump k.trail.reverse k).trans (.same rfl)

theorem analyzeLit_frame (s : Analysis) (lit : ℕ) : Frame s.kitten (analyzeLit s lit).kitten := by
  unfold analyzeLit
  dsimp only
  split
  · exact .refl _
  · split <;> exact .same rfl

theorem analyzeReason_frame (s : Analysis) (reason : ℕ) : Frame s.kitten (analyzeReason s reason).kitten := by
  have hfold : ∀ (lits : List ℕ) (s : Analysis), Frame s.kitten (lits.foldl analyzeLit s).kitten := by
    intro lits
    induction lits with
    | nil => exact fun s => .refl _
    | cons l lits ih => exact fun s => (analyzeLit_frame s l).trans (ih _)
  have hres : Frame s.kitten { s.kitten with resolved := s.kitten.resolved ++ [reason] } := .same rfl
  exact hres.trans (hfold _ { s with
    kitten := { s.kitten with resolved := s.kitten.resolved ++ [reason] } })

theorem analyzeWalk_frame {p uip : ℕ} {s s' : Analysis} (h : analyzeWalk p s = some (s', uip)) :
    Frame s.kitten s'.kitten := by
  induction p generalizing s with
  | zero => simp [analyzeWalk] at h
  | succ p ih =>
    simp only [analyzeWalk] at h
    split at h
    · simp at h
    · split at h
      · split at h
        · obtain ⟨rfl, -⟩ : _ = s' ∧ _ := by simpa using h
          exact .same rfl
        · exact (analyzeReason_frame { s with «open» := s.open - 1 } _).trans (ih h)
      · exact ih h

theorem enqueue_frame (k : Kitten) (idx : ℕ) : Frame k (k.enqueue idx) := by
  unfold enqueue
  cases k.queue.last <;> exact .same rfl

theorem dequeue_frame (k : Kitten) (idx : ℕ) : Frame k (k.dequeue idx) := by
  unfold dequeue
  dsimp only
  split <;> split <;> exact .same rfl

theorem moveToFront_frame (k : Kitten) (idx : ℕ) : Frame k (k.moveToFront idx) := by
  unfold moveToFront
  split
  · exact .refl _
  · exact (dequeue_frame k idx).trans (enqueue_frame _ idx)

theorem bump_frame (k : Kitten) : Frame k k.bump := by
  refine (Frame.foldl (fun k idx => ?_) k.analyzed k).trans (.same rfl)
  have hmark : Frame k { k with marks := update k.marks idx false } := .same rfl
  exact hmark.trans (moveToFront_frame _ idx)

theorem analyze_frame {conflict : ℕ} (h : k.analyze conflict = some k') : Frame k k' := by
  simp only [analyze, bind_eq_bind, bind_eq_some_iff] at h
  obtain ⟨⟨s, uip⟩, hwalk, h⟩ := h
  dsimp only at h
  have hpend : ∀ klause, Frame k { k with klause := klause } := fun _ => .same rfl
  have hstart := hpend (k.klause ++ [INVALID])
  have hs : Frame k s.kitten := by
    have hreason := analyzeReason_frame ⟨{ k with klause := k.klause ++ [INVALID] }, 0, 0⟩ conflict
    exact (hstart.trans hreason).trans (analyzeWalk_frame hwalk)
  have hset : Frame s.kitten { s.kitten with klause := s.kitten.klause.set 0 (neg uip) } := .same rfl
  have hlearn := ((hs.trans hset).trans (bump_frame _)).trans (newLearnedKlause_frame _)
  generalize newLearnedKlause (bump { s.kitten with klause := s.kitten.klause.set 0 (neg uip) }) = kl
    at h hlearn
  have hclear : Frame kl.1 { kl.1 with resolved := [], klause := [] } := .same rfl
  split at h
  · obtain rfl := some.inj h
    exact (hlearn.trans hclear).trans (backtrack_frame _ 0)
  · obtain rfl := some.inj h
    exact ((hlearn.trans hclear).trans (backtrack_frame _ _)).trans (assign_frame _ _ _)

theorem failingLits_frame (lits : List ℕ) (s : Failing) : Frame s.kitten (lits.foldl failingLit s).kitten := by
  induction lits generalizing s with
  | nil => exact .refl _
  | cons l lits ih =>
    have hlit : Frame s.kitten (failingLit s l).kitten := by
      unfold failingLit
      dsimp only
      split
      · exact .refl _
      · split <;> exact .same rfl
    exact hlit.trans (ih _)

theorem failingVar_frame (s : Failing) (idx : ℕ) : Frame s.kitten (failingVar s idx).kitten := by
  unfold failingVar
  dsimp only
  split
  · exact .same rfl
  · have hres : Frame s.kitten
        { s.kitten with resolved := s.kitten.resolved ++ [(s.kitten.vars idx).reason] } := .same rfl
    exact hres.trans (failingLits_frame _ { s with
      kitten := { s.kitten with resolved := s.kitten.resolved ++ [(s.kitten.vars idx).reason] } })

theorem failingWalk_frame {p : ℕ} {s s' : Failing} (h : failingWalk p s = some s') : Frame s.kitten s'.kitten := by
  induction p generalizing s with
  | zero =>
    unfold failingWalk at h
    split at h
    · obtain rfl : s = s' := by simpa using h
      exact .refl _
    · simp at h
  | succ p ih =>
    unfold failingWalk at h
    split at h
    · obtain rfl : s = s' := by simpa using h
      exact .refl _
    · dsimp only at h
      split at h
      · simp at h
      · split at h
        · exact (failingVar_frame { s with «open» := s.open - 1 } _).trans (ih h)
        · exact ih h

theorem failingRoot_frame (k : Kitten) (idx : ℕ) : Frame k (k.failingRoot idx) := by
  unfold failingRoot
  dsimp only
  split <;> exact .same rfl

theorem failingCore_frame (k : Kitten) : Frame k k.failingCore := by
  unfold failingCore
  dsimp only
  split
  · exact .same rfl
  · split
    · exact (newLearnedKlause_frame k).trans (.same rfl)
    · exact (newLearnedKlause_frame k).trans (.same rfl)

theorem failAssumptions_frame (h : k.failAssumptions = some k') : Frame k k' := by
  unfold failAssumptions at h
  dsimp only at h
  split at h
  · obtain rfl : _ = k' := by simpa using h
    exact .same rfl
  · split at h
    · obtain rfl : _ = k' := by simpa using h
      exact .same rfl
    · simp only [bind_eq_bind, bind_eq_some_iff] at h
      obtain ⟨s, hwalk, h⟩ := h
      obtain rfl : _ = k' := by simpa using h
      have hclear : Frame (s.work.foldl failingRoot s.kitten)
          (s.work.foldl failingRoot s.kitten).clearMarks := .same rfl
      refine Frame.trans ?_ (((Frame.foldl failingRoot_frame s.work s.kitten).trans hclear).trans
        (failingCore_frame _))
      have hwalk' := failingWalk_frame hwalk
      exact ⟨hwalk'.assumptions, hwalk'.exportTable, hwalk'.importTable, hwalk'.evars,
        hwalk'.antecedents, hwalk'.status, hwalk'.overflow, hwalk'.exhausted⟩

theorem takeAssumptions_frame (assumptions : List ℕ) (k : Kitten) : Frame k (takeAssumptions k assumptions).1 := by
  induction assumptions generalizing k with
  | nil => exact .refl _
  | cons a rest ih =>
    simp only [takeAssumptions]
    split
    · exact .refl _
    · split
      · have hlevel : Frame k { k with level := k.level + 1 } := .same rfl
        exact hlevel.trans (ih _)
      · exact .refl _

theorem decideOn_frame (k : Kitten) (lit : ℕ) : Frame k (k.decideOn lit) := by
  have hlevel : Frame k { k with level := k.level + 1 } := .same rfl
  exact hlevel.trans (assign_frame _ _ _)

theorem decide_frame {interrupted : Bool} {result : Option KittenResult}
    (h : decide fuel interrupted k = some (k', result)) : Frame k k' := by
  unfold decide at h
  dsimp only at h
  generalize hk1 : (if k.level = 0 ∧ k.trail ≠ [] then k.flushTrail else k) = k1 at h
  have h1 : Frame k k1 := by
    subst hk1
    split <;> exact .same rfl
  have h2 := h1.trans (takeAssumptions_frame (k1.assumptions.drop k1.level) k1)
  cases hta : takeAssumptions k1 (k1.assumptions.drop k1.level) with
  | mk k2 assumed =>
  rw [hta] at h h2
  have hdone : ∀ {r}, some (k2, r) = some (k', result) → Frame k k' := fun h => (Prod.mk.inj (some.inj h)).1 ▸ h2
  cases assumed with
  | failed =>
    simp only [bind_eq_bind, bind_eq_some_iff] at h
    obtain ⟨k3, hfail, h⟩ := h
    obtain ⟨rfl, -⟩ : k3 = k' ∧ _ := by simpa using h
    exact h2.trans (failAssumptions_frame hfail)
  | all =>
    dsimp only at h
    split_ifs at h with hu ht hi
    · exact hdone h
    · exact hdone h
    · exact hdone h
    · split at h
      · exact hdone h
      · simp only [bind_eq_bind, bind_eq_some_iff] at h
        obtain ⟨o, -, h⟩ := h
        cases o with
        | none => exact hdone h
        | some idx =>
          obtain ⟨rfl, -⟩ := Prod.mk.inj (some.inj h)
          have hsearch : Frame k2 (k2.updateSearch idx) := .same rfl
          exact (h2.trans hsearch).trans (decideOn_frame _ _)
  | decide lit =>
    dsimp only at h
    split_ifs at h with hu ht hi
    · exact hdone h
    · exact hdone h
    · exact hdone h
    · obtain ⟨rfl, -⟩ := Prod.mk.inj (some.inj h)
      exact h2.trans (decideOn_frame _ _)

theorem markRootLit_frame (k : Kitten) (lit : ℕ) : Frame k (k.markRootLit lit) := by
  unfold markRootLit
  dsimp only
  split <;> exact .same rfl

theorem resolveRoot_frame {next reference : ℕ} (h : resolveRoot fuel next reference k = some k') : Frame k k' := by
  induction fuel generalizing next reference k with
  | zero => simp [resolveRoot] at h
  | succ fuel ih =>
    simp only [resolveRoot] at h
    have hres : Frame k { k with resolved := k.resolved ++ [reference] } := .same rfl
    have hmark := hres.trans (Frame.foldl markRootLit_frame
      (({ k with resolved := k.resolved ++ [reference] } : Kitten).klauseLits reference) _)
    split at h
    · obtain rfl := some.inj h
      exact hmark
    · split at h
      · obtain rfl := some.inj h
        exact hmark
      · exact hmark.trans (ih h)

theorem registerInconsistent_frame {reference : ℕ} (h : registerInconsistent fuel k reference = some k') :
    Frame k k' := by
  unfold registerInconsistent at h
  split at h
  · simp only [bind_eq_bind, bind_eq_some_iff] at h
    obtain ⟨k1, hres, h⟩ := h
    obtain rfl := some.inj h
    exact ((resolveRoot_frame hres).trans (newLearnedKlause_frame k1)).trans (.same rfl)
  · obtain rfl := some.inj h
    exact .same rfl

theorem assignUnits_frame {next : ℕ} {falsified : Option ℕ}
    (h : assignUnits fuel next k = some (k', falsified)) : Frame k k' := by
  induction fuel generalizing next k with
  | zero => simp [assignUnits] at h
  | succ fuel ih =>
    simp only [assignUnits] at h
    split at h
    · obtain ⟨rfl, -⟩ : k = k' ∧ _ := by simpa using h
      exact .refl _
    · split_ifs at h
      · exact ih h
      · obtain ⟨rfl, -⟩ : k = k' ∧ _ := by simpa using h
        exact .refl _
      · exact (assign_frame _ _ _).trans (ih h)

theorem solveStep_frame {interrupted : Bool} {result : Option KittenResult}
    (h : solveStep fuel interrupted k = some (k', result)) : Frame k k' := by
  unfold solveStep at h
  simp only [bind_eq_bind, bind_eq_some_iff] at h
  obtain ⟨⟨k1, conflict⟩, hprop, h⟩ := h
  have h1 := propagate_frame hprop
  cases conflict with
  | none => exact h1.trans (decide_frame h)
  | some r =>
    dsimp only at h
    split at h
    · simp only [bind_eq_some_iff] at h
      obtain ⟨k2, han, h⟩ := h
      obtain ⟨rfl, -⟩ := Prod.mk.inj (some.inj h)
      exact h1.trans (analyze_frame han)
    · simp only [bind_eq_some_iff] at h
      obtain ⟨k2, hreg, h⟩ := h
      obtain ⟨rfl, -⟩ := Prod.mk.inj (some.inj h)
      exact h1.trans (registerInconsistent_frame hreg)

theorem solveLoop_frame {interrupt : ℕ → Bool} {result : KittenResult}
    (h : solveLoop interrupt fuel k = some (k', result)) : Frame k k' := by
  induction fuel generalizing k with
  | zero => simp [solveLoop] at h
  | succ fuel ih =>
    simp only [solveLoop, bind_eq_bind, bind_eq_some_iff] at h
    obtain ⟨⟨k1, r1⟩, hstep, h⟩ := h
    have h1 := solveStep_frame hstep
    cases r1 with
    | none => exact h1.trans (ih h)
    | some r1 =>
      obtain ⟨rfl, -⟩ := Prod.mk.inj (some.inj h)
      exact h1

end Nixie.Kitten
