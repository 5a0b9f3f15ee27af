import Nixie.Kitten.Import

/-!
Resetting a kitten that has answered, and shuffling one that has not.
-/

namespace Nixie.Kitten

open Nixie.Propositional Nixie.Literal List Function

variable {k k' : Kitten} {db db' : ℕ → Option Klause} {F : Set (Set ℕ)} {r : ℕ} {c : Klause}

def Reflagged (db db' : ℕ → Option Klause) : Prop :=
  ∀ s, (db' s).map (fun c => { c with core := false }) = (db s).map fun c => { c with core := false }

theorem Reflagged.refl (db : ℕ → Option Klause) : Reflagged db db := fun _ => rfl

theorem Reflagged.symm (h : Reflagged db db') : Reflagged db' db := fun s => (h s).symm

theorem Reflagged.trans {db'' : ℕ → Option Klause} (h : Reflagged db db') (h' : Reflagged db' db'') :
    Reflagged db db'' := fun s => (h' s).trans (h s)

theorem Reflagged.update (hr : db r = some c) (b : Bool) :
    Reflagged db (update db r (some { c with core := b })) := by
  intro s
  by_cases hs : s = r
  · simp [hs, hr]
  · simp [hs]

theorem Reflagged.some (h : Reflagged db db') (hr : db r = some c) : ∃ c', db' r = some c' ∧ c'.lits = c.lits ∧
    c'.learned = c.learned ∧ c'.antecedents = c.antecedents := by
  have hs := h r
  rw [hr] at hs
  cases hc : db' r with
  | none => simp [hc] at hs
  | some c' =>
    rw [hc] at hs
    simp only [Option.map_some, Option.some.injEq, Klause.mk.injEq] at hs
    exact ⟨c', rfl, hs.2.2.2.1, hs.2.1, hs.2.2.2.2⟩

theorem Reflagged.extends (h : Reflagged db db') : Extends db db' := by
  intro r c hr
  obtain ⟨c', hc', h1, h2, h3⟩ := h.some hr
  exact ⟨c', hc', h1 ▸ .refl _, h2, h3⟩

theorem IsWatch.congr {c' : Klause} {l : ℕ} (h : IsWatch c l) (hl : c'.lits = c.lits) : IsWatch c' l := by
  unfold IsWatch at *
  rwa [hl]

theorem Watched.reflag {ws : ℕ → List Katch} (h : Watched ws db) (hf : Reflagged db db') : Watched ws db' := by
  refine ⟨fun l w hw => ?_, h.once, fun s d hs l hl => ?_⟩
  · obtain ⟨d, hd⟩ := h.watch l w hw
    obtain ⟨d', hd', hl, _⟩ := hf.some hd.some
    exact ⟨d', hd', hd.isWatch.congr hl, hl ▸ hd.blit, hl ▸ hd.binary⟩
  · obtain ⟨d', hd', hl', _⟩ := hf.symm.some hs
    exact h.covered s d' hd' l (hl.congr hl')

def Reworded (k k' : Kitten) : Prop := k' = { k with klauses := k'.klauses }

theorem Reworded.trans {k'' : Kitten} (h : Reworded k k') (h' : Reworded k' k'') : Reworded k k'' := by
  unfold Reworded at h h' ⊢
  rw [h', h]

theorem Stable.reflag (h : Stable k db F) (hf : Reflagged db db') (hrep : Represents k'.klauses db')
    (hk : Reworded k k') (hcore : k.status ≠ .inconsistentCore → ∀ r c, db' r = some c → c.core = false) :
    Stable k' db' F := by
  unfold Reworded at hk
  rw [hk]
  refine { h with
    rep := hrep
    klauses := h.klauses.rearrange hf.extends hf.symm.extends
    units := h.units.rearrange hf.extends hf.symm.extends
    recorded := fun r hr => ?_
    learned := fun hl r c hr => ?_
    core := hcore }
  · obtain ⟨c, hc⟩ := h.recorded r hr
    obtain ⟨c', hc', _⟩ := hf.some hc
    exact ⟨c', hc'⟩
  · obtain ⟨c', hc', _, hl', _⟩ := hf.symm.some hr
    exact hl'.symm.trans (h.learned hl r c' hc')

theorem unsetCore_spec (hrep : Represents k.klauses db) (hr : db r = some c) :
    Represents (if k.isCoreKlause r then k.unsetCoreKlause r else k).klauses
      (update db r (some { c with core := false })) := by
  rw [hrep.core_eq hr]
  split
  · refine hrep.setFlags hr false ?_
    rw [hrep.flags_eq hr]
    exact c.flags_and_not_core
  · next hcore =>
    have hsame : update db r (some { c with core := false }) = db := by
      have hc : { c with core := false } = c := by
        obtain ⟨_, _, core, _, _, _⟩ := c
        simpa using hcore
      rw [hc, ← hr, update_eq_self]
    rwa [hsame]

theorem unsetCoreFrom_spec {fuel : ℕ} (hrep : Represents k.klauses db) (hant : k.antecedents = true)
    (hstart : r = k.klauses.length ∨ ∃ c, db r = some c) (hfuel : k.klauses.length ≤ r + fuel) :
    ∃ db', Represents (unsetCoreFrom fuel r k).klauses db' ∧ Reflagged db db' ∧
    (∀ s c, r ≤ s → db' s = some c → c.core = false) ∧ (∀ s < r, db' s = db s) ∧
    Reworded k (unsetCoreFrom fuel r k) := by
  induction fuel generalizing r k db with
  | zero =>
    refine ⟨db, hrep, .refl db, fun s c hs hc => ?_, fun _ _ => rfl, rfl⟩
    have := hrep.lt_length hc
    omega
  | succ fuel ih =>
    simp only [unsetCoreFrom]
    split
    · next hlt =>
      obtain ⟨c, hr⟩ := hstart.resolve_left (by omega)
      have hrep1 := unsetCore_spec hrep hr
      have hlen1 : (if k.isCoreKlause r then k.unsetCoreKlause r else k).klauses.length =
          k.klauses.length := by
        split <;> simp [unsetCoreKlause]
      have hsame1 : Reworded k (if k.isCoreKlause r then k.unsetCoreKlause r else k) := by
        split <;> rfl
      generalize (if k.isCoreKlause r then k.unsetCoreKlause r else k) = k1 at *
      have hr1 : update db r (some { c with core := false }) r = some { c with core := false } := by simp
      have hant1 : k1.antecedents = true := by
        rw [hsame1]
        exact hant
      have hstride : r + 3 + k1.klauseSize r +
          (if k1.antecedents = true ∧ k1.isLearnedKlause r = true then k1.klauseAux r else 0) =
          r + ({ c with core := false } : Klause).words.length := by
        rw [hrep1.size_eq hr1, hrep1.learned_eq hr1, hrep1.aux_eq hr1]
        have hante := c.length_antecedents
        simp only [hant1, true_and, Klause.words, length_append, length_cons, length_nil, hante]
        omega
      rw [hstride]
      have hwords : 0 < ({ c with core := false } : Klause).words.length := length_pos_iff.mpr (Klause.words_ne_nil _)
      have hnext : r + ({ c with core := false } : Klause).words.length = k1.klauses.length ∨
          ∃ d, update db r (some { c with core := false })
            (r + ({ c with core := false } : Klause).words.length) = some d := hrep1.next hr1
      obtain ⟨db', h1, h2, h3, h4, h5⟩ := ih hrep1 hant1 hnext (by omega)
      refine ⟨db', h1, (Reflagged.update hr false).trans h2, fun s d hs hd => ?_, fun s hs => ?_, hsame1.trans h5⟩
      · by_cases hge : r + ({ c with core := false } : Klause).words.length ≤ s
        · exact h3 s d hge hd
        · rw [h4 s (by omega)] at hd
          rcases hrep1.apart hr1 hd with hle | hle
          · obtain rfl : s = r := by omega
            rw [hr1] at hd
            obtain rfl := Option.some.inj hd
            rfl
          · exact absurd hle hge
      · rw [h4 s (by omega), update_of_ne (by omega)]
    · next hge =>
      refine ⟨db, hrep, .refl db, fun s c hs hc => ?_, fun _ _ => rfl, rfl⟩
      have := hrep.lt_length hc
      omega

theorem unassignUnit_frame (k : Kitten) (r : ℕ) : Frame k (k.unassignUnit r) := by
  unfold unassignUnit
  dsimp only
  split
  · exact unassign_frame k _
  · exact .refl k

theorem completelyBacktrackToRootLevel_frame (k : Kitten) : Frame k k.completelyBacktrackToRootLevel := by
  have htrail : Frame k { k with trail := [] } := .same rfl
  have h1 := htrail.trans (Frame.foldl unassign_frame k.trail _)
  exact (h1.trans (Frame.foldl unassignUnit_frame _ _)).trans (.same rfl)

theorem unsetCoreFrom_frame (fuel r : ℕ) (k : Kitten) : Frame k (unsetCoreFrom fuel r k) := by
  induction fuel generalizing r k with
  | zero => exact .refl k
  | succ fuel ih =>
    simp only [unsetCoreFrom]
    split
    · refine Frame.trans ?_ (ih _ _)
      split <;> exact .same rfl
    · exact .refl k

def Dropped (k k' : Kitten) : Prop :=
  k' = { k with failed := k'.failed, assumptions := [], failing := k'.failing } ∧
    (k'.failing = none ∨ k'.failing = k.failing)

theorem dropAssumptions (k : Kitten) : Dropped k (if k.assumptions.isEmpty then k else k.resetAssumptions) := by
  split
  · next h =>
    refine ⟨?_, .inr rfl⟩
    rw [← isEmpty_iff.mp h]
  · exact ⟨rfl, .inl rfl⟩

structure Forgot (k k' : Kitten) : Prop where
  status : k'.status = .unsolved
  assumptions : k'.assumptions = []
  antecedents : k'.antecedents = k.antecedents
  importTable : k'.importTable = k.importTable
  exportTable : k'.exportTable = k.exportTable
  evars : k'.evars = k.evars
  overflow : k'.referenceOverflow = false → k.referenceOverflow = false
  exhausted : k'.exhausted = false → k.exhausted = false

theorem resetIncremental_forgot (k : Kitten) : Forgot k k.resetIncremental := by
  have h1 := completelyBacktrackToRootLevel_frame k
  unfold resetIncremental
  dsimp only
  generalize k.completelyBacktrackToRootLevel = k1 at *
  have h2 := (dropAssumptions k1).1
  generalize (if k1.assumptions.isEmpty then k1 else k1.resetAssumptions) = k2 at *
  have hcore : Frame k2 (if k2.status = .inconsistentCore then k2.resetCore else k2) := by
    split
    · exact (unsetCoreFrom_frame _ _ _).trans (.same rfl)
    · exact .refl k2
  generalize (if k2.status = .inconsistentCore then k2.resetCore else k2) = k3 at *
  refine ⟨rfl, ?_, ?_, ?_, ?_, ?_, fun ho => ?_, fun he => ?_⟩
  · show k3.assumptions = []
    rw [hcore.assumptions, h2]
  · show k3.antecedents = k.antecedents
    rw [hcore.antecedents, h2]
    exact h1.antecedents
  · show k3.importTable = k.importTable
    rw [hcore.importTable, h2]
    exact h1.importTable
  · show k3.exportTable = k.exportTable
    rw [hcore.exportTable, h2]
    exact h1.exportTable
  · show k3.evars = k.evars
    rw [hcore.evars, h2]
    exact h1.evars
  · have := hcore.overflow ho
    rw [h2] at this
    exact h1.overflow this
  · have := hcore.exhausted he
    rw [h2] at this
    exact h1.exhausted this

theorem Stable.resetCore (h : Stable k db F) (hant : k.antecedents = true) :
    ∃ db', Stable { k.resetCore with status := .unsolved } db' F ∧ Reflagged db db' ∧
      k.resetCore = { k with klauses := k.resetCore.klauses, core := [] } := by
  obtain ⟨db', h1, h2, h3, _, h5⟩ :=
    unsetCoreFrom_spec h.rep hant h.rep.start (Nat.le_add_left _ _)
  have hclear : ∀ r c, db' r = some c → c.core = false := fun r c hr => h3 r c (Nat.zero_le r) hr
  have hst := h.reflag h2 h1 h5 fun _ => hclear
  refine ⟨db', { hst with core := fun _ => hclear }, h2, ?_⟩
  unfold Kitten.resetCore
  unfold Reworded at h5
  rw [h5]

theorem Idle.restarted (h : Idle k db F) : Idle k.completelyBacktrackToRootLevel db F := by
  obtain ⟨hst, hre⟩ := h.restart
  have hsame := hre.same
  refine ⟨⟨hst, ?_, ?_, ?_, fun l hl => ?_⟩, ?_⟩
  · rw [hsame]
    exact h.watched
  · rw [hsame]
    exact nodup_nil
  · rw [hsame]
    simp
  · rw [hre.values] at hl
    simp at hl
  · rw [hsame]
    exact ⟨h.clean.marks, h.clean.analyzed, h.clean.klause, h.clean.resolved⟩

theorem Idle.dropped (h : Idle k db F) (hd : Dropped k k') : Idle k' db F := by
  obtain ⟨hsame, hfail⟩ := hd
  have hrec : ∀ r, k.inconsistent = some r ∨ k'.failing = some r → ∃ c, db r = some c := by
    rintro r (hr | hr)
    · exact h.stable.recorded r (.inl hr)
    · rcases hfail with hf | hf
      · simp [hf] at hr
      · exact h.stable.recorded r (.inr (hf ▸ hr))
  rw [hsame]
  exact ⟨⟨{ h.stable with recorded := hrec }, h.watched, h.nodup, h.true_of_mem, h.covered⟩,
    ⟨h.clean.marks, h.clean.analyzed, h.clean.klause, h.clean.resolved⟩⟩

theorem RecordsEmpty.reflag (h : RecordsEmpty k db) (hf : Reflagged db db')
    (hi : k'.inconsistent = k.inconsistent) : RecordsEmpty k' db' := by
  intro r hr
  obtain ⟨c, hc, hcl⟩ := h r (hi ▸ hr)
  obtain ⟨c', hc', hl, _⟩ := hf.some hc
  exact ⟨c', hc', hl.trans hcl⟩

theorem Idle.resetIncremental (h : Idle k db F) (hcore : k.status = .inconsistentCore → k.antecedents = true) : ∃ db',
    Idle k.resetIncremental db' F ∧ Reflagged db db' ∧ Blank k.resetIncremental ∧ k.resetIncremental.inconsistent =
    k.inconsistent := by
  have h1 := h.restarted
  have hre := h.restart.2.same
  have hb1 := h.restart.2.blank
  unfold Kitten.resetIncremental
  dsimp only
  generalize k.completelyBacktrackToRootLevel = k1 at *
  have hstatus1 : k1.status = k.status := by rw [hre]
  have hant1 : k1.antecedents = k.antecedents := by rw [hre]
  have hinc1 : k1.inconsistent = k.inconsistent := by rw [hre]
  have hd := dropAssumptions k1
  have h2 := h1.dropped hd
  generalize (if k1.assumptions.isEmpty then k1 else k1.resetAssumptions) = k2 at *
  obtain ⟨hd, -⟩ := hd
  have hstatus2 : k2.status = k.status := by rw [hd, hstatus1]
  have hant2 : k2.antecedents = k.antecedents := by rw [hd, hant1]
  have hinc2 : k2.inconsistent = k.inconsistent := by rw [hd, hinc1]
  have hb2 : Blank k2 := by
    rw [hd]
    exact ⟨hb1.values, hb1.trail, hb1.propagated, hb1.level⟩
  split
  · next hs =>
    obtain ⟨db', hst, hf, hsame⟩ := h2.stable.resetCore (hant2.trans (hcore (hstatus2 ▸ hs)))
    refine ⟨db', ⟨⟨hst, ?_, ?_, ?_, fun l hl => ?_⟩, ?_⟩, hf, ?_, ?_⟩
    · show Watched k2.resetCore.watches db'
      rw [hsame]
      exact h2.watched.reflag hf
    · show k2.resetCore.trail.Nodup
      rw [hsame]
      exact h2.nodup
    · show ∀ l ∈ k2.resetCore.trail, k2.resetCore.values l = 1
      rw [hsame]
      exact h2.true_of_mem
    · show l ∈ k2.resetCore.trail ∨ ∃ r ∈ k2.resetCore.units, _
      have hl' : k2.resetCore.values l = 1 := hl
      rw [hsame] at hl' ⊢
      rcases h2.covered l hl' with ht | ⟨r, hr, c, hc, hcl⟩
      · exact .inl ht
      · obtain ⟨c', hc', hl', _⟩ := hf.some hc
        exact .inr ⟨r, hr, c', hc', hl'.trans hcl⟩
    · show Clean { k2.resetCore with status := .unsolved }
      rw [hsame]
      exact ⟨h2.clean.marks, h2.clean.analyzed, h2.clean.klause, h2.clean.resolved⟩
    · show Blank { k2.resetCore with status := .unsolved }
      rw [hsame]
      exact ⟨hb2.values, hb2.trail, hb2.propagated, hb2.level⟩
    · show k2.resetCore.inconsistent = k.inconsistent
      rw [hsame, hinc2]
  · next hs =>
    refine ⟨db, ⟨⟨{ h2.stable with core := fun _ => h2.stable.core hs }, h2.watched, h2.nodup,
      h2.true_of_mem, h2.covered⟩,
      ⟨h2.clean.marks, h2.clean.analyzed, h2.clean.klause, h2.clean.resolved⟩⟩, .refl db,
      ⟨hb2.values, hb2.trail, hb2.propagated, hb2.level⟩, hinc2⟩

theorem swap_perm {α : Type} (xs : List α) (i j : ℕ) : (swap xs i j).Perm xs := by
  unfold swap
  split
  · next a b ha hb =>
    obtain ⟨hi, rfl⟩ := List.getElem?_eq_some_iff.mp ha
    obtain ⟨hj, rfl⟩ := List.getElem?_eq_some_iff.mp hb
    exact List.set_set_perm hi hj
  · exact .refl xs

theorem shuffle_perm {α : Type} (i count : ℕ) (xs : List α) (generator : UInt64) :
    (shuffle i count xs generator).1.Perm xs := by
  induction count generalizing i xs generator with
  | zero => exact .refl xs
  | succ count ih =>
    simp only [shuffle]
    refine (ih _ _ _).trans ?_
    split
    · exact swap_perm xs i _
    · exact .refl xs

theorem pickRandom_lt (generator : UInt64) {r : ℕ} (h : 0 < r) : (pickRandom generator 0 r).1 < r := by
  unfold pickRandom
  rw [if_neg (by omega)]
  dsimp only
  split <;> omega

def Shuffled (k k' : Kitten) : Prop :=
  k' = { k with
    queue := k'.queue
    links := k'.links
    watches := k'.watches
    units := k'.units
    generator := k'.generator }

theorem Shuffled.trans {k'' : Kitten} (h : Shuffled k k') (h' : Shuffled k' k'') : Shuffled k k'' := by
  unfold Shuffled at h h' ⊢
  rw [h', h]

theorem Relinked.shuffled (h : Relinked k k') : Shuffled k k' := by
  unfold Relinked at h
  unfold Shuffled
  rw [h]

theorem shuffleQueue_spec (vars count : ℕ) (k : Kitten) : Shuffled k (shuffleQueue vars count k) ∧
    (shuffleQueue vars count k).watches = k.watches ∧ (shuffleQueue vars count k).units = k.units ∧
    (0 < vars → Queued k.queue k.links vars →
    Queued (shuffleQueue vars count k).queue (shuffleQueue vars count k).links vars) := by
  induction count generalizing k with
  | zero => exact ⟨rfl, rfl, rfl, fun _ => id⟩
  | succ count ih =>
    simp only [shuffleQueue]
    have hlt : 0 < vars → (pickRandom k.generator 0 vars).1 < vars := pickRandom_lt k.generator
    generalize pickRandom k.generator 0 vars = p at *
    have hrel := (dequeue_relinked { k with generator := p.2 } p.1).trans (enqueue_relinked _ p.1)
    obtain ⟨h1, h2, h3, h4⟩ := ih ((({ k with generator := p.2 }.dequeue p.1).enqueue p.1))
    have hgen : Shuffled k { k with generator := p.2 } := rfl
    have hstep : Shuffled k (({ k with generator := p.2 }.dequeue p.1).enqueue p.1) := hgen.trans hrel.shuffled
    refine ⟨hstep.trans h1, h2.trans ?_, h3.trans ?_, fun hpos hq => h4 hpos ?_⟩
    · unfold Relinked at hrel
      rw [hrel]
    · unfold Relinked at hrel
      rw [hrel]
    · have hq1 : Queued ({ k with generator := p.2 } : Kitten).queue
          ({ k with generator := p.2 } : Kitten).links vars := hq
      exact (hq1.dequeue (hlt hpos)).enqueue (hlt hpos) (le_refl _) fun j hj => .inl hj

theorem shuffleWatches_spec (lit count : ℕ) (k : Kitten) :
    shuffleWatches lit count k = { k with
      watches := (shuffleWatches lit count k).watches
      generator := (shuffleWatches lit count k).generator } ∧
      ∀ l, ((shuffleWatches lit count k).watches l).Perm (k.watches l) := by
  induction count generalizing lit k with
  | zero => exact ⟨rfl, fun _ => .refl _⟩
  | succ count ih =>
    simp only [shuffleWatches]
    have hperm := shuffle_perm 0 (k.watches lit).length (k.watches lit) k.generator
    generalize shuffle 0 (k.watches lit).length (k.watches lit) k.generator = p at *
    obtain ⟨h1, h2⟩ := ih (lit + 1) { k with watches := update k.watches lit p.1, generator := p.2 }
    refine ⟨h1, fun l => (h2 l).trans ?_⟩
    by_cases hl : l = lit
    · subst hl
      simpa using hperm
    · simp [hl]

theorem searchLast_shuffled (k : Kitten) :
    Shuffled k k.searchLast ∧ k.searchLast.watches = k.watches ∧ k.searchLast.units = k.units := by
  unfold searchLast
  split <;> exact ⟨rfl, rfl, rfl⟩

theorem Queued.searchLast {n : ℕ} (h : Queued k.queue k.links n) : Queued k.searchLast.queue k.searchLast.links n := by
  unfold Kitten.searchLast
  split
  · exact h
  · next last hlast =>
    refine ⟨h.prev, h.last, ?_⟩
    rintro _ ⟨rfl⟩
    exact h.last last hlast

theorem shuffleClauses_spec (k : Kitten) : Shuffled k k.shuffleClauses ∧
    (∀ l, (k.shuffleClauses.watches l).Perm (k.watches l)) ∧ k.shuffleClauses.units.Perm k.units ∧
    ∀ n, k.lits = 2 * n → Queued k.queue k.links n → Queued k.shuffleClauses.queue k.shuffleClauses.links n := by
  unfold shuffleClauses
  split
  · exact ⟨rfl, fun _ => .refl _, .refl _, fun _ _ => id⟩
  · dsimp only
    obtain ⟨h1, hw1, hu1, hq1⟩ := shuffleQueue_spec (k.lits / 2) (k.lits / 2) k
    have hzero : k.lits / 2 = 0 → shuffleQueue (k.lits / 2) (k.lits / 2) k = k := by
      intro h0
      rw [h0]
      rfl
    generalize shuffleQueue (k.lits / 2) (k.lits / 2) k = k1 at *
    obtain ⟨h2, hw2, hu2⟩ := searchLast_shuffled k1
    have hq2 : ∀ n, Queued k1.queue k1.links n → Queued k1.searchLast.queue k1.searchLast.links n :=
      fun n => Queued.searchLast
    generalize k1.searchLast = k2 at *
    obtain ⟨h3, hw3⟩ := shuffleWatches_spec 0 k.lits k2
    generalize shuffleWatches 0 k.lits k2 = k3 at *
    have hu4 := shuffle_perm 0 k3.units.length k3.units k3.generator
    generalize shuffle 0 k3.units.length k3.units k3.generator = p at *
    have hs3 : Shuffled k2 { k3 with units := p.1, generator := p.2 } := by
      unfold Shuffled
      rw [h3]
    have hu3 : k3.units = k2.units := by rw [h3]
    refine ⟨(h1.trans h2).trans hs3, fun l => ?_, ?_, fun n hn hq => ?_⟩
    · rw [← hw1, ← hw2]
      exact hw3 l
    · rw [← hu1, ← hu2, ← hu3]
      exact hu4
    · have hq3 : Queued k2.queue k2.links n := by
        refine hq2 n ?_
        rcases Nat.eq_zero_or_pos (k.lits / 2) with h0 | hpos
        · rw [hzero h0]
          exact hq
        · obtain rfl : k.lits / 2 = n := by omega
          exact hq1 hpos hq
      show Queued k3.queue k3.links n
      rw [h3]
      exact hq3

theorem Idle.shuffleClauses (h : Idle k db F) : Idle k.shuffleClauses db F := by
  obtain ⟨hs, hw, hu, hq⟩ := shuffleClauses_spec k
  have hq' := hq _ h.stable.lits h.stable.queued
  generalize k.shuffleClauses = k' at *
  unfold Shuffled at hs
  have hst := h.stable
  have hunits : Units k'.units k.inconsistent db :=
    ⟨fun r hr => hst.units.unit r (hu.mem_iff.mp hr),
      fun r c l hr hl => hu.mem_iff.mpr (hst.units.mem r c l hr hl), hst.units.empty⟩
  have hwatched := h.watched.perm hw
  have hcovered : ∀ l, k.values l = 1 →
      l ∈ k.trail ∨ ∃ r ∈ k'.units, ∃ c, db r = some c ∧ c.lits = [l] := by
    intro l hl
    rcases h.covered l hl with ht | ⟨r, hr, hc⟩
    · exact .inl ht
    · exact .inr ⟨r, hu.mem_iff.mpr hr, hc⟩
  rw [hs]
  exact ⟨⟨{ hst with units := hunits, queued := by rw [hs] at hq'; exact hq' }, hwatched, h.nodup, h.true_of_mem,
    hcovered⟩, ⟨h.clean.marks, h.clean.analyzed, h.clean.klause, h.clean.resolved⟩⟩

theorem randomBit_lt (generator : UInt64) (block bit : ℕ) : randomBit generator block bit < 2 := by
  unfold randomBit
  rw [UInt64.toNat_and]
  exact Nat.lt_of_le_of_lt Nat.and_le_right (by decide)

theorem Idle.randomizePhases (h : Idle k db F) : Idle k.randomizePhases db F := by
  refine ⟨⟨{ h.stable with phases := fun i => ?_ }, h.watched, h.nodup, h.true_of_mem, h.covered⟩,
    ⟨h.clean.marks, h.clean.analyzed, h.clean.klause, h.clean.resolved⟩⟩
  unfold Kitten.randomizePhases
  dsimp only
  split
  · exact randomBit_lt _ _ _
  · split
    · exact randomBit_lt _ _ _
    · exact h.stable.phases i

theorem Idle.flipPhases (h : Idle k db F) : Idle k.flipPhases db F := by
  refine ⟨⟨{ h.stable with phases := fun i => ?_ }, h.watched, h.nodup, h.true_of_mem, h.covered⟩,
    ⟨h.clean.marks, h.clean.analyzed, h.clean.klause, h.clean.resolved⟩⟩
  have hp := h.stable.phases i
  unfold Kitten.flipPhases
  dsimp only
  split
  · exact Nat.xor_lt_two_pow (n := 1) hp (by decide)
  · exact hp

end Nixie.Kitten
