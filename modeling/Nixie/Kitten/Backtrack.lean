import Nixie.Kitten.Propagate

/-!
Taking assignments back.
-/

namespace Nixie.Kitten

open Nixie.Propositional Nixie.Literal List

variable {k k' : Kitten} {db : ℕ → Option Klause} {F : Set (Set ℕ)} {lit jump x : ℕ} {ps : List ℕ}

theorem unassign_eq (k : Kitten) (lit : ℕ) :
    ∃ search, (search = k.queue.search ∨ search = some (lit / 2)) ∧
      k.unassign lit =
        { k with
          values := unassignValues k.values lit
          unassigned := k.unassigned + 1
          queue := { k.queue with search := search } } := by
  unfold unassign
  dsimp only
  split
  · exact ⟨k.queue.search, .inl rfl, rfl⟩
  · split
    · exact ⟨some (lit / 2), .inr rfl, rfl⟩
    · exact ⟨k.queue.search, .inl rfl, rfl⟩

theorem Stable.unassign (h : Stable k db F) (hl : k.values lit ≠ 0) : Stable (k.unassign lit) db F := by
  obtain ⟨search, hs, heq⟩ := unassign_eq k lit
  rw [heq]
  refine { h with
    valued := h.valued.unassign lit
    free := ?_
    queued := ⟨h.queued.prev, h.queued.last, fun i hi => ?_⟩ }
  · show k.unassigned + 1 = _
    rw [freeCount_unassign h.valued hl, h.free]
  · rcases hs with rfl | rfl
    · exact h.queued.search i hi
    · obtain rfl : lit / 2 = i := by simpa using hi
      exact h.valued.lt lit hl

def Released (k k' : Kitten) : Prop :=
  k' = { k with values := k'.values, unassigned := k'.unassigned, queue := k'.queue }

theorem unassign_released (k : Kitten) (lit : ℕ) : Released k (k.unassign lit) := by
  obtain ⟨search, _, heq⟩ := unassign_eq k lit
  unfold Released
  rw [heq]

theorem Released.trans {k'' : Kitten} (h : Released k k') (h' : Released k' k'') : Released k k'' := by
  unfold Released at h h' ⊢
  rw [h', h]

theorem unassignAll_released (ps : List ℕ) (k : Kitten) : Released k (ps.foldl unassign k) := by
  induction ps generalizing k with
  | nil => rfl
  | cons p ps ih => exact (unassign_released k p).trans (ih _)

theorem unassign_values (k : Kitten) (lit : ℕ) : (k.unassign lit).values = unassignValues k.values lit := by
  obtain ⟨search, _, heq⟩ := unassign_eq k lit
  rw [heq]

theorem Stable.unassignAll (h : Stable k db F) (hnd : ps.Nodup) (h1 : ∀ l ∈ ps, k.values l = 1) :
    Stable (ps.foldl Kitten.unassign k) db F := by
  induction ps generalizing k with
  | nil => exact h
  | cons p ps ih =>
    have hp : k.values p = 1 := h1 p (by simp)
    rw [nodup_cons] at hnd
    refine ih (h.unassign (by omega)) hnd.2 fun l hl => ?_
    have hvl : k.values l = 1 := h1 l (mem_cons_of_mem _ hl)
    rw [unassign_values, unassignValues_eq, if_neg, hvl]
    intro hdiv
    rcases eq_or_eq_neg hdiv with rfl | rfl
    · exact hnd.1 hl
    · rw [h.valued.neg, hp] at hvl
      omega

theorem unassignAll_values (ps : List ℕ) (k : Kitten) (l : ℕ) :
    (ps.foldl unassign k).values l = if l ∈ ps ∨ neg l ∈ ps then 0 else k.values l := by
  induction ps generalizing k with
  | nil => simp
  | cons p ps ih =>
    rw [foldl_cons, ih, unassign_values, unassignValues_eq]
    by_cases hps : l ∈ ps ∨ neg l ∈ ps
    · simp only [if_pos hps, mem_cons]
      rw [if_pos (by tauto)]
    · rw [if_neg hps]
      by_cases hdiv : l / 2 = p / 2
      · rw [if_pos hdiv, if_pos]
        rcases eq_or_eq_neg hdiv with rfl | rfl <;> simp
      · rw [if_neg hdiv, if_neg]
        simp only [mem_cons, not_or] at hps ⊢
        refine ⟨⟨?_, hps.1⟩, ?_, hps.2⟩
        · rintro rfl
          exact hdiv rfl
        · rintro rfl
          exact hdiv (neg_div_two l).symm

theorem popTrail_eq (jump : ℕ) (rev : List ℕ) (k : Kitten) :
    ∃ popped rest, rev = popped ++ rest ∧ popTrail jump rev k = (popped.foldl unassign k, rest) ∧
    (∀ l ∈ popped, lev k.vars l ≠ jump) ∧ (rest = [] ∨ ∃ l rest', rest = l :: rest' ∧ lev k.vars l = jump) := by
  induction rev generalizing k with
  | nil => exact ⟨[], [], rfl, rfl, by simp, .inl rfl⟩
  | cons lit rev ih =>
    simp only [popTrail]
    split
    · next hlev => exact ⟨[], lit :: rev, rfl, rfl, by simp, .inr ⟨lit, rev, rfl, hlev⟩⟩
    · next hlev =>
      obtain ⟨popped, rest, rfl, heq, hne, hrest⟩ := ih (k.unassign lit)
      have hvars : (k.unassign lit).vars = k.vars := by
        rw [unassign_released k lit]
      rw [hvars] at hne hrest
      refine ⟨lit :: popped, rest, rfl, heq, fun l hl => ?_, hrest⟩
      rcases mem_cons.mp hl with rfl | hl
      · exact hlev
      · exact hne l hl

structure Backtracked (k k' : Kitten) (jump : ℕ) (keep popped : List ℕ) : Prop where
  split : k.trail = keep ++ popped
  kept : ∀ l ∈ keep, lev k.vars l ≤ jump
  gone : ∀ l ∈ popped, jump < lev k.vars l
  values : ∀ l, k'.values l = if l ∈ popped ∨ neg l ∈ popped then 0 else k.values l
  same : k' = { k with
    values := k'.values
    unassigned := k'.unassigned
    queue := k'.queue
    trail := keep
    propagated := keep.length
    level := jump }

theorem Backtracked.values_of_le {keep popped : List ℕ} (h : Backtracked k k' jump keep popped) {m : ℕ}
    (hm : lev k.vars m ≤ jump) : k'.values m = k.values m := by
  rw [h.values, if_neg]
  rintro (hin | hin)
  · have := h.gone m hin
    omega
  · have := h.gone _ hin
    rw [lev_neg] at this
    omega

theorem Running.backtrack (h : Running k db F) (hlev : jump = 0 ∨ ∃ l ∈ k.trail, lev k.vars l = jump) : Running
    (k.backtrack jump) db F ∧ ∃ keep popped, Backtracked k (k.backtrack jump) jump keep popped := by
  obtain ⟨popped, rest, hrev, heq, hne, hrest⟩ := popTrail_eq jump k.trail.reverse k
  have hsplit : k.trail = rest.reverse ++ popped.reverse := by
    rw [← reverse_append, ← hrev, reverse_reverse]
  have hsorted := h.trailed.sorted
  rw [hsplit, pairwise_append] at hsorted
  have hkeep : ∀ l ∈ rest.reverse, lev k.vars l ≤ jump := by
    intro l hl
    rcases hrest with rfl | ⟨m, rest', rfl, rfl⟩
    · simp at hl
    · rw [reverse_cons, mem_append] at hl
      rcases hl with hl | hl
      · have hpw := hsorted.1
        rw [reverse_cons, pairwise_append] at hpw
        exact hpw.2.2 l hl m (by simp)
      · obtain rfl : l = m := by simpa using hl
        exact le_refl _
  have hpop : ∀ l ∈ popped.reverse, jump < lev k.vars l := by
    intro l hl
    have hnel := hne l (by simpa using hl)
    rcases hrest with rfl | ⟨m, rest', rfl, rfl⟩
    · rcases hlev with rfl | ⟨m, hm, hmlev⟩
      · omega
      · exact absurd hmlev (hne m (by simpa [hsplit] using hm))
    · have := hsorted.2.2 m (by simp) l hl
      omega
  have hval : ∀ l, (popped.foldl unassign k).values l =
      if l ∈ popped.reverse ∨ neg l ∈ popped.reverse then 0 else k.values l := by
    intro l
    rw [unassignAll_values]
    simp
  have hrel : Released k (popped.foldl unassign k) := unassignAll_released popped k
  have hbt : k.backtrack jump = { popped.foldl unassign k with
      trail := rest.reverse, propagated := rest.reverse.length, level := jump } := by
    rw [Kitten.backtrack, heq, length_reverse]
  have hnd : popped.Nodup := by
    have := h.trailed.nodup
    rw [hsplit] at this
    exact nodup_reverse.mp this.of_append_right
  have hst := h.stable.unassignAll hnd fun l hl =>
    h.trailed.true_of_mem l (by rw [hsplit]; simp [hl])
  have htr := h.trailed.shrink hsplit hkeep hpop hval
  rw [hbt]
  refine ⟨⟨{ hst with }, ?_, fun he l hl hlev => ?_⟩, rest.reverse, popped.reverse, hsplit, hkeep, hpop, hval, ?_⟩
  · rw [hrel]
    exact htr
  · rw [hrel] at he hlev ⊢
    have hl' : (popped.foldl unassign k).values l = 1 := hl
    rw [hval] at hl'
    split_ifs at hl'
    · simp at hl'
    · exact h.rootUnits he l hl' hlev
  · exact congrArg (fun k : Kitten => { k with
      trail := rest.reverse, propagated := rest.reverse.length, level := jump }) hrel

structure Resting (k : Kitten) (db : ℕ → Option Klause) (F : Set (Set ℕ)) : Prop where
  stable : Stable k db F
  watched : Watched k.watches db
  nodup : k.trail.Nodup
  true_of_mem : ∀ l ∈ k.trail, k.values l = 1
  covered : ∀ l, k.values l = 1 →
    l ∈ k.trail ∨ ∃ r ∈ k.units, ∃ c, db r = some c ∧ c.lits = [l]

structure Idle (k : Kitten) (db : ℕ → Option Klause) (F : Set (Set ℕ)) : Prop
    extends Resting k db F where
  clean : Clean k

theorem unassignUnit_eq (h : Represents k.klauses db) {r l : ℕ} {c : Klause} (hr : db r = some c)
    (hc : c.lits = [l]) : k.unassignUnit r = if 0 < k.values l then k.unassign l else k := by
  have hword : k.word (wrap r 3) = l := by
    rw [h.wrap_eq hr (le_refl _), h.word_eq hr (by simp [Klause.words, hc])]
    simp [Klause.words, hc]
  simp only [unassignUnit, hword]

theorem Stable.unassignUnits {units : List ℕ} (h : Stable k db F)
    (hu : ∀ r ∈ units, ∃ c l, db r = some c ∧ c.lits = [l]) :
    Stable (units.foldl unassignUnit k) db F ∧ Released k (units.foldl unassignUnit k) ∧
    ∀ l, (units.foldl unassignUnit k).values l = 1 → k.values l = 1 ∧ ∀ r ∈ units, ∀ c, db r = some c →
    c.lits ≠ [l] := by
  induction units generalizing k with
  | nil => exact ⟨h, rfl, fun l hl => ⟨hl, by simp⟩⟩
  | cons r units ih =>
    obtain ⟨c, m, hr, hc⟩ := hu r (by simp)
    rw [foldl_cons, unassignUnit_eq h.rep hr hc]
    have hval := h.valued
    split
    · next hpos =>
      have hne : k.values m ≠ 0 := by omega
      obtain ⟨hst, hrel, hout⟩ := ih (h.unassign hne) fun s hs =>
        hu s (mem_cons_of_mem _ hs)
      refine ⟨hst, (unassign_released k m).trans hrel, fun l hl => ?_⟩
      obtain ⟨hl1, hl2⟩ := hout l hl
      rw [unassign_values, unassignValues_eq] at hl1
      split_ifs at hl1 with hdiv
      · simp at hl1
      · refine ⟨hl1, fun s hs d hd => ?_⟩
        rcases mem_cons.mp hs with rfl | hs
        · obtain rfl : c = d := by simpa [hr] using hd
          rw [hc]
          rintro ⟨rfl⟩
          exact hdiv rfl
        · exact hl2 s hs d hd
    · next hpos =>
      obtain ⟨hst, hrel, hout⟩ := ih h fun s hs => hu s (mem_cons_of_mem _ hs)
      refine ⟨hst, hrel, fun l hl => ?_⟩
      obtain ⟨hl1, hl2⟩ := hout l hl
      refine ⟨hl1, fun s hs d hd => ?_⟩
      rcases mem_cons.mp hs with rfl | hs
      · obtain rfl : c = d := by simpa [hr] using hd
        rw [hc]
        rintro ⟨rfl⟩
        omega
      · exact hl2 s hs d hd

structure Restarted (k k' : Kitten) : Prop where
  values : ∀ l, k'.values l = 0
  same : k' = { k with
    values := k'.values
    unassigned := k'.unassigned
    queue := k'.queue
    trail := []
    propagated := 0
    level := 0 }

theorem Idle.restart (h : Idle k db F) : Stable k.completelyBacktrackToRootLevel db F ∧
    Restarted k k.completelyBacktrackToRootLevel := by
  have hst0 : Stable { k with trail := [] } db F := { h.stable with }
  have hst1 := hst0.unassignAll h.nodup h.true_of_mem
  have hrel1 := unassignAll_released k.trail { k with trail := [] }
  have hval1 := unassignAll_values k.trail { k with trail := [] }
  generalize hk1 : k.trail.foldl unassign { k with trail := [] } = k1 at hst1 hrel1 hval1
  have hunits : k1.units = k.units := by rw [hrel1]
  obtain ⟨hst2, hrel2, hval2⟩ := hst1.unassignUnits h.stable.units.unit
  have heq : k.completelyBacktrackToRootLevel =
      { k.units.foldl unassignUnit k1 with propagated := 0, level := 0 } := by
    unfold completelyBacktrackToRootLevel
    rw [hk1]
    dsimp only
    rw [hunits]
  have hone : ∀ l, (k.units.foldl unassignUnit k1).values l ≠ 1 := by
    intro l hl
    obtain ⟨hl1, hl2⟩ := hval2 l hl
    rw [hval1] at hl1
    split_ifs at hl1 with hmem
    · simp at hl1
    · rcases h.covered l hl1 with ht | ⟨r, hr, c, hc, hcl⟩
      · exact hmem (.inl ht)
      · exact hl2 r hr c hc hcl
  rw [heq]
  refine ⟨{ hst2 with }, fun l => ?_, ?_⟩
  · have hrange := hst2.valued.range l
    have hneg := hone (neg l)
    rw [hst2.valued.neg] at hneg
    have hpos := hone l
    show (k.units.foldl unassignUnit k1).values l = 0
    omega
  · exact congrArg (fun k : Kitten => { k with propagated := 0, level := 0 }) (hrel1.trans hrel2)

structure Starting (k : Kitten) (db : ℕ → Option Klause) (F : Set (Set ℕ)) : Prop where
  running : Running k db F
  clean : Clean k
  watched : Watched k.watches db
  level : k.level = 0
  propagated : k.propagated = 0
  mem_of_true : ∀ l, k.values l = 1 → l ∈ k.trail
  consistent : k.inconsistent = none

structure Blank (k : Kitten) : Prop where
  values : ∀ l, k.values l = 0
  trail : k.trail = []
  propagated : k.propagated = 0
  level : k.level = 0

theorem Restarted.blank (h : Restarted k k') : Blank k' := ⟨h.values, by rw [h.same], by rw [h.same], by rw [h.same]⟩

theorem Idle.starting (h : Idle k db F) (hb : Blank k) (hi : k.inconsistent = none) : Starting k db F := by
  have hne : ∀ l, ¬ k.values l = 1 := fun l hl => by simp [hb.values l] at hl
  refine ⟨⟨h.stable, ?_, fun _ l hl => absurd hl (hne l)⟩, h.clean, h.watched, hb.level,
    hb.propagated, fun l hl => absurd hl (hne l), hi⟩
  rw [hb.trail]
  exact ⟨nodup_nil, by simp, fun l hl => absurd hl (hne l), fun l hl => absurd hl (hne l),
    List.Pairwise.nil, by simp, fun l hl => absurd hl (hne l)⟩

theorem Starting.searching (h : Starting k db F)
    (hunits : ∀ s ∈ k.units, ∀ d l, db s = some d → d.lits = [l] → k.values l = 1) :
    Searching k db F k.propagated := by
  have hroot : ∀ l, k.values l = 1 → lev k.vars l = 0 := by
    intro l hl
    have := h.running.trailed.le_level l hl
    have := h.level
    omega
  refine ⟨h.running, h.clean, ⟨fun i a _ hi => ?_, fun l hl hw _ => ?_⟩, h.watched,
    fun l w _ _ hl hp => ?_, fun l hl => ?_, fun hpos => ?_, fun r c l hr hl => ?_, h.consistent,
    by rw [h.propagated]; exact Nat.zero_le _⟩
  · have := h.level
    omega
  · -- a root literal on the trail is no decision
    obtain ⟨t, t', hsplit⟩ := append_of_mem (h.mem_of_true l hl)
    rcases h.running.trailed.justified t l t' hsplit with ⟨_, hpos, _⟩ | ⟨c, hc, _⟩
    · have := hroot l hl
      omega
    · exact absurd hw (h.running.stable.rep.ne_invalid hc)
  · refine absurd (h.mem_of_true _ (h.running.stable.valued.neg_true.mpr hl)) ?_
    rwa [h.propagated, drop_zero] at hp
  · rw [h.level]
    exact hroot l (h.running.trailed.true_of_mem l (mem_of_mem_drop hl))
  · have := h.level
    omega
  · have hvl := hunits r (h.running.stable.units.mem r c l hr hl) c l hr hl
    exact ⟨hvl, hroot l hvl⟩

end Nixie.Kitten
