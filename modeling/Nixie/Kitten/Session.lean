import Nixie.Kitten.ClausalCore

/-!
Any sequence of calls on a kitten, beside what the caller has asked for.
-/

namespace Nixie.Kitten

open Nixie.Propositional Nixie.Literal List Option

variable {k k' : Kitten} {db : ℕ → Option Klause} {F : Set (Set ℕ)} {fuel : ℕ}
  {interrupt : ℕ → Bool} {result : KittenResult}

def prepared (k : Kitten) : Kitten :=
  if k.status ≠ .unsolved then k.resetIncremental else k.completelyBacktrackToRootLevel

def statusOf : KittenResult → Status
  | .satisfied => .satisfied
  | .inconsistent => .inconsistent
  | .unknown => .unsolved

structure Answered (k k' : Kitten) (db : ℕ → Option Klause) (F : Set (Set ℕ))
    (result : KittenResult) : Prop where
  model : result = .satisfied → Model k' F
  unsat : result = .inconsistent → Unsatisfiable valuations (F ∪ assumed k'.assumptions)
  status : k'.status = statusOf result
  assumptions : k'.assumptions = if result = .unknown then [] else k.prepared.assumptions
  idle : k'.exhausted = false → ∃ db', Idle k' db' F ∧
    (result = .inconsistent → k'.inconsistent.isSome = true ∨ FailureRecorded k' db') ∧
    (k.antecedents = true → RecordsEmpty k db → RecordsEmpty k' db')

theorem Idle.prepared (h : Idle k db F) (hcore : k.status = .inconsistentCore → k.antecedents = true) :
    ∃ db', Idle k.prepared db' F ∧ Reflagged db db' ∧ Blank k.prepared ∧
      k.prepared.inconsistent = k.inconsistent ∧ k.prepared.status = .unsolved ∧
      k.prepared.assumptions = if k.status = .unsolved then k.assumptions else [] := by
  unfold Kitten.prepared
  split
  · next hs =>
    obtain ⟨db', h1, h2, h3, h4⟩ := h.resetIncremental hcore
    have hf := resetIncremental_forgot k
    exact ⟨db', h1, h2, h3, h4, hf.status, hf.assumptions⟩
  · next hs =>
    have hs' : k.status = .unsolved := by simpa using hs
    have hfr := completelyBacktrackToRootLevel_frame k
    obtain ⟨hst, hre⟩ := h.restart
    exact ⟨db, h.restarted, .refl db, hre.blank, by rw [hre.same], hfr.status.trans hs',
      by rw [if_pos hs']; exact hfr.assumptions⟩

theorem prepared_forgot (k : Kitten) : k.prepared.importTable = k.importTable ∧
    k.prepared.exportTable = k.exportTable ∧ k.prepared.evars = k.evars ∧ k.prepared.antecedents = k.antecedents ∧
    (k.prepared.exhausted = false → k.exhausted = false) ∧
    (k.prepared.referenceOverflow = false → k.referenceOverflow = false) := by
  unfold Kitten.prepared
  split
  · have hf := resetIncremental_forgot k
    exact ⟨hf.importTable, hf.exportTable, hf.evars, hf.antecedents, hf.exhausted, hf.overflow⟩
  · have hf := completelyBacktrackToRootLevel_frame k
    exact ⟨hf.importTable, hf.exportTable, hf.evars, hf.antecedents, hf.exhausted, hf.overflow⟩

theorem propagateUnits_frame {result : Option KittenResult}
    (h : propagateUnits fuel k = some (k', result)) : Frame k k' := by
  unfold propagateUnits at h
  split at h
  · obtain ⟨rfl, -⟩ := Prod.mk.inj (some.inj h)
    exact .refl k
  · split at h
    · obtain ⟨rfl, -⟩ := Prod.mk.inj (some.inj h)
      exact .refl k
    · simp only [bind_eq_bind, bind_eq_some_iff] at h
      obtain ⟨⟨k1, falsified⟩, hunits, h⟩ := h
      have h1 := assignUnits_frame hunits
      cases falsified with
      | some r =>
        simp only [bind_eq_some_iff] at h
        obtain ⟨k2, hreg, h⟩ := h
        obtain ⟨rfl, -⟩ := Prod.mk.inj (some.inj h)
        exact h1.trans (registerInconsistent_frame hreg)
      | none =>
        simp only [bind_eq_some_iff] at h
        obtain ⟨⟨k2, conflict⟩, hprop, h⟩ := h
        have h2 := h1.trans (propagate_frame hprop)
        cases conflict with
        | none =>
          obtain ⟨rfl, -⟩ := Prod.mk.inj (some.inj h)
          exact h2
        | some r =>
          simp only [bind_eq_some_iff] at h
          obtain ⟨k3, hreg, h⟩ := h
          obtain ⟨rfl, -⟩ := Prod.mk.inj (some.inj h)
          exact h2.trans (registerInconsistent_frame hreg)

theorem solve_search (hex : k.exhausted = false) (he : k.solve fuel interrupt = some (k', result)) :
    ∃ k1, k' = k1.finish result ∧ Frame k.prepared k1 ∧ ∃ k2 early, propagateUnits fuel k.prepared = some (k2, early) ∧
    (early = some result ∧ k1 = k2 ∨ early = none ∧ solveLoop interrupt fuel k2 = some (k1, result)) := by
  unfold solve at he
  rw [if_neg (by simp [hex])] at he
  simp only [bind_eq_bind, bind_eq_some_iff] at he
  obtain ⟨⟨k2, early⟩, hunits, he⟩ := he
  have h2 : Frame k.prepared k2 := propagateUnits_frame hunits
  cases early with
  | some r =>
    obtain ⟨rfl, rfl⟩ := Prod.mk.inj (some.inj he)
    exact ⟨k2, rfl, h2, k2, some r, hunits, .inl ⟨rfl, rfl⟩⟩
  | none =>
    simp only [bind_eq_some_iff] at he
    obtain ⟨⟨k1, r1⟩, hloop, he⟩ := he
    obtain ⟨rfl, rfl⟩ := Prod.mk.inj (some.inj he)
    exact ⟨k1, rfl, h2.trans (solveLoop_frame hloop), k2, none, hunits, .inr ⟨rfl, hloop⟩⟩

theorem finish_same (k : Kitten) (result : KittenResult) :
    k.finish result = { k with
      failed := (k.finish result).failed
      failing := (k.finish result).failing
      assumptions := if result = .unknown then [] else k.assumptions
      status := statusOf result } ∧
      ((k.finish result).failing = none ∨ (k.finish result).failing = k.failing) ∧
      (result ≠ .unknown → (k.finish result).failed = k.failed ∧ (k.finish result).failing = k.failing) := by
  unfold finish
  cases result with
  | satisfied => exact ⟨rfl, .inr rfl, fun _ => ⟨rfl, rfl⟩⟩
  | inconsistent => exact ⟨rfl, .inr rfl, fun _ => ⟨rfl, rfl⟩⟩
  | unknown =>
    by_cases ha : k.assumptions = []
    · refine ⟨?_, .inr ?_, fun h => absurd rfl h⟩
      · simp [ha, statusOf]
      · simp [ha]
    · refine ⟨?_, .inl ?_, fun h => absurd rfl h⟩
      · simp [ha, resetAssumptions, statusOf]
      · simp [ha, resetAssumptions]

theorem Settled.answered {k0 : Kitten} (h : Settled k F result) (hs : k.status = .unsolved)
    (ha : k.assumptions = k0.prepared.assumptions) (hant : k.antecedents = k0.antecedents) :
    Answered k0 (k.finish result) db F result := by
  obtain ⟨hsame, hfail, hfailed⟩ := finish_same k result
  generalize k.finish result = k' at *
  refine ⟨fun hr => ?_, fun hr => ?_, by rw [hsame], by rw [hsame, ha], fun hex => ?_⟩
  · have hm := h.model hr
    rw [hsame, hr]
    exact ⟨hm.valued, hm.total, hm.clauses, hm.assumptions⟩
  · have hu := h.unsat hr
    rw [hsame, hr]
    exact hu
  · obtain ⟨db', hhalt, hrec, hinc⟩ := h.halted (by rw [hsame] at hex; exact hex)
    have hidle := hhalt.idle (by rw [hsame] at hex; exact hex)
    refine ⟨db', ?_, fun hr => ?_, fun hant' _ => ?_⟩
    · have hst := hidle.stable
      have hrec : ∀ r, k.inconsistent = some r ∨ k'.failing = some r → ∃ c, db' r = some c := by
        rintro r (hr | hr)
        · exact hst.recorded r (.inl hr)
        · rcases hfail with hf | hf
          · simp [hf] at hr
          · exact hst.recorded r (.inr (hf ▸ hr))
      have hclear := hst.core (by rw [hs]; exact nofun)
      rw [hsame]
      refine ⟨⟨{ hst with recorded := hrec, core := fun _ => hclear }, hidle.watched, hidle.nodup,
        hidle.true_of_mem, hidle.covered⟩,
        ⟨hidle.clean.marks, hidle.clean.analyzed, hidle.clean.klause, hidle.clean.resolved⟩⟩
    · obtain ⟨hf1, hf2⟩ := hfailed (by rw [hr]; exact nofun)
      have ha' : k'.assumptions = k.assumptions := by rw [hsame, hr]; rfl
      have hi' : k'.inconsistent = k.inconsistent := by rw [hsame]
      rw [hi']
      refine (hinc hr).imp_right fun hfr => ?_
      unfold FailureRecorded
      rw [hf1, hf2, ha']
      exact hfr
    · have hr := hrec (hant.trans hant')
      intro r hr'
      exact hr r (by rw [hsame] at hr'; exact hr')

theorem solve_spec (h : Idle k db F) (hb : Bounded k) (hcore : k.status = .inconsistentCore → k.antecedents = true)
    (hex : k.exhausted = false) (he : k.solve fuel interrupt = some (k', result)) (ho : k'.referenceOverflow = false) :
    Answered k k' db F result := by
  obtain ⟨k1, rfl, hframe, k2, early, hunits, hcase⟩ := solve_search hex he
  have ho1 : k1.referenceOverflow = false := by
    rw [(finish_same k1 result).1] at ho
    exact ho
  obtain ⟨db0, h0, hf, hblank, hinc, hstatus, hassume⟩ := h.prepared hcore
  obtain ⟨_, hexp, _, hant, _, _⟩ := prepared_forgot k
  have hbp : Bounded k.prepared := by
    refine ⟨hexp ▸ hb.vars, ?_⟩
    rw [hassume, hexp]
    split
    · exact hb.assumptions
    · simp
  have hstatus1 := hframe.status.trans hstatus
  have hant1 := hframe.antecedents.trans hant
  by_cases hi : k.prepared.inconsistent = none
  · have hstart := h0.starting hblank hi
    rcases hcase with ⟨rfl, rfl⟩ | ⟨rfl, hloop⟩
    · have hadv := propagateUnits_spec hstart hunits ho1
      exact (hadv.2 result rfl).answered hstatus1 hframe.assumptions hant1
    · have hadv := propagateUnits_spec hstart hunits ((solveLoop_frame hloop).overflow ho1)
      obtain ⟨db2, hs2⟩ := hadv.1 rfl
      have hb2 := hbp.frame (propagateUnits_frame hunits)
      exact (solveLoop_spec hs2 hb2 hloop ho1).answered hstatus1 hframe.assumptions hant1
  · -- a conflict on record answers at once
    have hsome := isSome_iff_ne_none.mpr hi
    unfold propagateUnits at hunits
    rw [if_pos hsome] at hunits
    obtain ⟨rfl, rfl⟩ := Prod.mk.inj (some.inj hunits)
    obtain ⟨hres, rfl⟩ := hcase.resolve_right fun hc => by simp at hc
    obtain rfl : KittenResult.inconsistent = result := by simpa using hres
    have hunsat := h0.stable.refuted hsome
    refine ⟨nofun, fun _ v hv hs => hunsat v hv fun C hC => hs C (Set.mem_union_left _ hC), rfl, rfl,
      fun _ => ⟨db0, ⟨⟨{ h0.stable with core := fun _ => h0.stable.core (by rw [hstatus]; exact nofun) },
        h0.watched, h0.nodup, h0.true_of_mem, h0.covered⟩,
        ⟨h0.clean.marks, h0.clean.analyzed, h0.clean.klause, h0.clean.resolved⟩⟩, fun _ => .inl hsome,
        fun _ hrec => hrec.reflag hf hinc⟩⟩

theorem solve_tables (he : k.solve fuel interrupt = some (k', result)) : k'.importTable = k.importTable ∧ k'.exportTable
    = k.exportTable ∧ k'.evars = k.evars ∧ k'.antecedents = k.antecedents ∧ (k'.exhausted = false → k.exhausted = false)
    ∧ (k'.referenceOverflow = false → k.referenceOverflow = false) := by
  by_cases hex : k.exhausted = true
  · unfold solve at he
    rw [if_pos hex] at he
    obtain ⟨rfl, rfl⟩ := Prod.mk.inj (some.inj he)
    exact ⟨rfl, rfl, rfl, rfl, id, id⟩
  · obtain ⟨k1, rfl, hf, _⟩ := solve_search (by simpa using hex) he
    obtain ⟨h1, h2, h3, h4, h5, h6⟩ := prepared_forgot k
    rw [(finish_same k1 result).1]
    exact ⟨hf.importTable.trans h1, hf.exportTable.trans h2, hf.evars.trans h3,
      hf.antecedents.trans h4, fun h => h5 (hf.exhausted h), fun h => h6 (hf.overflow h)⟩

inductive Call
  | clear
  | clause (id : ℕ) (elits : List ℕ) (except : ℕ)
  | assume (elit : ℕ)
  | solve (fuel : ℕ) (interrupt : ℕ → Bool)
  | trackAntecedents
  | computeClausalCore (fuel : ℕ)
  | shuffleClauses
  | randomizePhases
  | flipPhases
  | noTicksLimit
  | setTicksLimitDelta (delta : ℕ)

/-- A kitten beside the record of its user: the clauses given since the last `clear` and the
assumptions for the next answer. -/
structure Session where
  kitten : Kitten := .new
  clauses : List (List ℕ) := []
  assumptions : List ℕ := []
  /-- The last search has answered, so that its assumptions are spent. -/
  answered : Bool := false
  /-- Tracking was switched on when the conflict on record was a klause with literals. -/
  late : Bool := false

def Session.current (s : Session) : List ℕ := if s.answered then [] else s.assumptions

def perform (s : Session) : Call → Option Session
  | .clear => some { kitten := s.kitten.clear }
  | .clause id elits except => some { s with
      kitten := s.kitten.clauseWithIdAndException id elits except
      clauses := s.clauses ++ [elits.filter (· ≠ except)]
      assumptions := s.current
      answered := false }
  | .assume elit => some { s with
      kitten := s.kitten.assume elit
      assumptions := s.current ++ [elit]
      answered := false }
  | .solve fuel interrupt => do
    let (k, result) ← s.kitten.solve fuel interrupt
    return { s with
      kitten := k
      assumptions := if result = .unknown then [] else s.current
      answered := result ≠ .unknown }
  | .trackAntecedents => some { s with
      kitten := s.kitten.trackAntecedents
      late := s.late || (!s.kitten.antecedents && s.kitten.trackAntecedents.antecedents &&
        s.kitten.inconsistent.any fun r => s.kitten.klauseSize r != 0) }
  | .computeClausalCore fuel => do
    let k ← s.kitten.computeClausalCore fuel
    return { s with kitten := k }
  | .shuffleClauses => some { s with kitten := s.kitten.shuffleClauses }
  | .randomizePhases => some { s with kitten := s.kitten.randomizePhases }
  | .flipPhases => some { s with kitten := s.kitten.flipPhases }
  | .noTicksLimit => some { s with kitten := s.kitten.noTicksLimit }
  | .setTicksLimitDelta delta => some { s with kitten := s.kitten.setTicksLimitDelta delta }

def run (s : Session) (calls : List Call) : Option Session := calls.foldlM perform s

def Call.Distinct : Call → Prop
  | .clause _ elits except => ((elits.filter (· ≠ except)).map (· / 2)).Nodup
  | _ => True

def Call.Sane : Call → Prop
  | .clause _ elits except => ∀ e ∈ elits, e ≠ except → externalLiteralSane e = true
  | .assume elit => externalLiteralSane elit = true
  | _ => True

section

variable {s s' : Session}

def Session.internal (s : Session) : Set (Set ℕ) :=
  formula (s.clauses.map fun c => c.map (intern s.kitten))

structure Live (s : Session) : Prop where
  clauses : ∀ c ∈ s.clauses, ∀ e ∈ c, Known s.kitten e
  current : ∀ e ∈ s.current, Known s.kitten e
  assumptions : s.answered = false → s.kitten.assumptions = s.assumptions.map (intern s.kitten)
  bounded : Bounded s.kitten
  status : s.answered = true ↔ s.kitten.status ≠ .unsolved
  core : s.kitten.status = .inconsistentCore → s.kitten.antecedents = true
  idle : ∃ db, Idle s.kitten db s.internal ∧
    (s.late = false → s.kitten.antecedents = true → RecordsEmpty s.kitten db)

structure Sound (s : Session) : Prop where
  tabled : Tabled s.kitten
  live : s.kitten.exhausted = false → Live s

theorem Live.same (h : Live s) (k' : Kitten) (hk : k'.importTable = s.kitten.importTable)
    (hx : k'.exportTable = s.kitten.exportTable) (ha : k'.assumptions = s.kitten.assumptions)
    (hst : s.kitten.status = .unsolved ↔ k'.status = .unsolved)
    (hcore : k'.status = .inconsistentCore → k'.antecedents = true) {late : Bool}
    (hidle : ∀ db, Idle s.kitten db s.internal →
    (s.late = false → s.kitten.antecedents = true → RecordsEmpty s.kitten db) → ∃ db', Idle k' db' s.internal ∧
    (late = false → k'.antecedents = true → RecordsEmpty k' db')) : Live { s with kitten := k', late := late } := by
  have hintern : intern k' = intern s.kitten := by
    funext e
    unfold intern
    rw [hk]
  have hknown : ∀ e, Known k' e ↔ Known s.kitten e := by
    intro e
    unfold Known
    rw [hk]
  refine ⟨fun c hc e he => (hknown e).mpr (h.clauses c hc e he), fun e he => (hknown e).mpr (h.current e he),
    fun hans => ?_, ⟨?_, ?_⟩, ?_, hcore, ?_⟩
  · show k'.assumptions = s.assumptions.map (intern k')
    rw [ha, hintern]
    exact h.assumptions hans
  · show k'.exportTable.length ≤ MAX_VARS
    rw [hx]
    exact h.bounded.vars
  · show ∀ a ∈ k'.assumptions, a / 2 < k'.exportTable.length
    rw [hx, ha]
    exact h.bounded.assumptions
  · show s.answered = true ↔ k'.status ≠ .unsolved
    rw [h.status, ne_eq, ne_eq, hst]
  · obtain ⟨db, h1, h2⟩ := h.idle
    have hint : ({ s with kitten := k', late := late } : Session).internal = s.internal := by
      unfold Session.internal
      dsimp only
      rw [hintern]
    rw [hint]
    exact hidle db h1 h2

theorem idle_fresh (size initialized ticks : ℕ) (links : ℕ → Kink) (importTable : ℕ → ℕ)
    (referenceOverflow : Bool) :
    Idle (initKitten {
      size := size
      links := links
      importTable := importTable
      initialized := initialized
      ticks := ticks
      referenceOverflow := referenceOverflow }) (fun _ => none) (formula []) := by
  have hempty : formula [] = ∅ := by simp [formula]
  refine ⟨⟨⟨.nil, ?_, ⟨by simp [initKitten], by simp, by simp⟩, by simp [initKitten], by simp [initKitten],
    ⟨fun _ => rfl, fun _ => .inr (.inl rfl), fun _ h => absurd rfl h⟩, rfl,
    ⟨by simp [initKitten], by simp [initKitten], by simp [initKitten]⟩, by simp [initKitten], rfl,
    by simp, by simp⟩, ⟨by simp [initKitten], by simp [initKitten], by simp⟩, nodup_nil,
    by simp [initKitten], by simp [initKitten]⟩, ⟨fun _ => rfl, rfl, rfl, rfl⟩⟩
  refine ⟨?_, by simp, by simp, by simp, by simp⟩
  rw [hempty]
  ext C
  simp [originals]

theorem live_fresh (size initialized ticks : ℕ) (links : ℕ → Kink) (importTable : ℕ → ℕ)
    (referenceOverflow : Bool) :
    Live { kitten := initKitten {
      size := size
      links := links
      importTable := importTable
      initialized := initialized
      ticks := ticks
      referenceOverflow := referenceOverflow } } := by
  refine ⟨by simp, by simp [Session.current], fun _ => rfl, ⟨by simp [initKitten], by simp [initKitten]⟩,
    by simp [initKitten], by simp [initKitten], ?_⟩
  exact ⟨_, idle_fresh size initialized ticks links importTable referenceOverflow,
    fun _ h => by simp [initKitten] at h⟩

theorem sound_new : Sound {} := by
  refine ⟨⟨fun i e => ?_, by simp [new, initKitten], by simp [new, initKitten]⟩, fun _ => ?_⟩
  · simp [new, initKitten]
  · exact live_fresh _ _ _ _ _ _

theorem Sound.clear (h : Sound s) : Sound { kitten := s.kitten.clear } := by
  have hfold : ∀ (xs : List ℕ) (table : ℕ → ℕ) (e : ℕ),
      xs.foldl (fun table eidx => Function.update table eidx 0) table e =
        if e ∈ xs then 0 else table e := by
    intro xs
    induction xs with
    | nil => simp
    | cons x xs ih =>
      intro table e
      rw [foldl_cons, ih]
      by_cases he : e ∈ xs
      · simp [he]
      · by_cases hex : e = x <;> simp [he, hex]
  refine ⟨⟨fun i e => ?_, by simp [Kitten.clear, initKitten], by simp [Kitten.clear, initKitten]⟩, fun _ => ?_⟩
  · show [][i]? = some e ↔ _ = i + 1
    have hzero : s.kitten.clear.importTable e = 0 := by
      refine (hfold s.kitten.exportTable s.kitten.importTable e).trans ?_
      split
      · rfl
      · next hne =>
        by_contra hknown
        exact hne (h.tabled.known_iff.mp hknown)
    rw [hzero]
    simp
  · exact live_fresh _ _ _ _ _ _

def renewed (k : Kitten) : Kitten := if k.status ≠ .unsolved then k.resetIncremental else k

structure Carried (k k' : Kitten) : Prop where
  importTable : k'.importTable = k.importTable
  exportTable : k'.exportTable = k.exportTable
  evars : k'.evars = k.evars
  antecedents : k'.antecedents = k.antecedents
  exhausted : k'.exhausted = false → k.exhausted = false
  overflow : k'.referenceOverflow = false → k.referenceOverflow = false

theorem renewed_carried (k : Kitten) : Carried k k.renewed := by
  unfold renewed
  split
  · have hf := resetIncremental_forgot k
    exact ⟨hf.importTable, hf.exportTable, hf.evars, hf.antecedents, hf.exhausted, hf.overflow⟩
  · exact ⟨rfl, rfl, rfl, rfl, id, id⟩

theorem renewed_status (k : Kitten) : k.renewed.status = .unsolved := by
  unfold renewed
  split
  · exact (resetIncremental_forgot k).status
  · next hs => simpa using hs

theorem Idle.renewed (h : Idle k db F) (hcore : k.status = .inconsistentCore → k.antecedents = true) :
    ∃ db', Idle k.renewed db' F ∧ Reflagged db db' ∧ k.renewed.inconsistent = k.inconsistent := by
  unfold Kitten.renewed
  split
  · obtain ⟨db', h1, h2, _, h4⟩ := h.resetIncremental hcore
    exact ⟨db', h1, h2, h4⟩
  · exact ⟨db, h, .refl db, rfl⟩

theorem Live.renewed_assumptions (h : Live s) : s.kitten.renewed.assumptions = s.current.map (intern s.kitten) := by
  unfold renewed Session.current
  cases ha : s.answered with
  | true =>
    rw [if_pos (h.status.mp ha)]
    exact (resetIncremental_forgot _).assumptions
  | false =>
    rw [if_neg fun hne => by simp [h.status.mpr hne] at ha]
    exact h.assumptions ha

theorem Tabled.carried (h : Tabled k) (hc : Carried k k') : Tabled k' :=
  h.same hc.importTable hc.exportTable hc.evars.ge

theorem Carried.renumbers (h : Carried k k') : Renumbers k k' := fun x _ => by rw [h.importTable]

theorem intern_congr {k k' : Kitten} {es : List ℕ} (h : Renumbers k k') (hk : ∀ e ∈ es, Known k e) :
    es.map (intern k') = es.map (intern k) :=
  map_congr_left fun e he => h.intern (hk e he)

theorem internal_congr {k k' : Kitten} {clauses : List (List ℕ)} (h : Renumbers k k')
    (hk : ∀ c ∈ clauses, ∀ e ∈ c, Known k e) : (clauses.map fun c => c.map (intern k')) =
    clauses.map fun c => c.map (intern k) :=
  map_congr_left fun c hc => intern_congr h (hk c hc)

theorem Idle.importLiteral {e : ℕ} (h : Idle k db F) (ht : Tabled k) : Idle (k.importLiteral e).1 db F := by
  have hst := h.stable.importLiteral (e := e) ht
  have hg := importLiteral_grown k e
  generalize (k.importLiteral e).1 = k' at *
  unfold Grown at hg
  refine ⟨⟨hst, ?_, ?_, ?_, ?_⟩, ?_⟩
  · rw [hg]
    exact h.watched
  · rw [hg]
    exact h.nodup
  · rw [hg]
    exact h.true_of_mem
  · rw [hg]
    exact h.covered
  · rw [hg]
    exact ⟨h.clean.marks, h.clean.analyzed, h.clean.klause, h.clean.resolved⟩

theorem assume_eq {k : Kitten} {e : ℕ} (hs : externalLiteralSane e = true) :
    k.assume e = { (k.renewed.importLiteral e).1 with assumptions :=
    (k.renewed.importLiteral e).1.assumptions ++ [(k.renewed.importLiteral e).2] } := by
  unfold assume
  rw [if_pos hs]
  rfl

theorem Sound.assume {e : ℕ} (h : Sound s) (hs : externalLiteralSane e = true) :
    Sound { s with
      kitten := s.kitten.assume e
      assumptions := s.current ++ [e]
      answered := false } := by
  have hcar := renewed_carried s.kitten
  have ht1 := h.tabled.carried hcar
  obtain ⟨ht, hlit, hknown, hren⟩ := importLiteral_table ht1 hs
  have hg := importLiteral_grown s.kitten.renewed e
  have hidle1 : ∀ db F, Idle s.kitten.renewed db F → Idle (s.kitten.renewed.importLiteral e).1 db F :=
    fun db F hi => hi.importLiteral ht1
  rw [assume_eq hs]
  have hst := renewed_status s.kitten
  generalize s.kitten.renewed.importLiteral e = p at *
  obtain ⟨k1, ilit⟩ := p
  dsimp only at *
  have hrall : Renumbers s.kitten k1 := hcar.renumbers.trans hren
  unfold Grown at hg
  refine ⟨ht.same rfl rfl (le_refl _), fun hex => ?_⟩
  have hlive := h.live (hcar.exhausted (by rw [hg] at hex; exact hex))
  have hcur : s.current.map (intern k1) = s.current.map (intern s.kitten) := intern_congr hrall hlive.current
  have hkcur : ∀ x ∈ s.current ++ [e], Known k1 x := by
    intro x hx
    rcases mem_append.mp hx with hx | hx
    · exact hrall.known (hlive.current x hx)
    · obtain rfl : x = e := by simpa using hx
      exact hknown
  have hass : k1.assumptions ++ [ilit] = (s.current ++ [e]).map (intern k1) := by
    have hk1 : k1.assumptions = s.kitten.renewed.assumptions := by rw [hg]
    rw [hk1, hlive.renewed_assumptions, hlit, map_append, hcur]
    rfl
  have hstatus : k1.status = .unsolved := by
    rw [hg]
    exact hst
  refine ⟨fun c hc x hx => hrall.known (hlive.clauses c hc x hx), hkcur, fun _ => hass,
    ⟨ht.length_le, fun a ha => ?_⟩, ?_, fun hc => ?_, ?_⟩
  · have ha' : a ∈ (s.current ++ [e]).map (intern k1) := hass ▸ ha
    obtain ⟨x, hx, rfl⟩ := mem_map.mp ha'
    exact ht.intern_lt (hkcur x hx)
  · simp [hstatus]
  · rw [show ({ k1 with assumptions := k1.assumptions ++ [ilit] } : Kitten).status = k1.status from rfl,
      hstatus] at hc
    simp at hc
  · obtain ⟨db, hi, hrec⟩ := hlive.idle
    obtain ⟨db', hi', hf, hinc⟩ := hi.renewed hlive.core
    have hi1 := hidle1 db' _ hi'
    have hrall' : Renumbers s.kitten { k1 with assumptions := k1.assumptions ++ [ilit] } := hrall
    have hint : ({ s with
        kitten := { k1 with assumptions := k1.assumptions ++ [ilit] }
        assumptions := s.current ++ [e]
        answered := false } : Session).internal = s.internal :=
      congrArg formula (internal_congr hrall' hlive.clauses)
    rw [hint]
    refine ⟨db', ⟨⟨{ hi1.stable with }, hi1.watched, hi1.nodup, hi1.true_of_mem, hi1.covered⟩,
      ⟨hi1.clean.marks, hi1.clean.analyzed, hi1.clean.klause, hi1.clean.resolved⟩⟩, fun hl ha => ?_⟩
    have ha0 : s.kitten.antecedents = true := by
      rw [← hcar.antecedents]
      have : k1.antecedents = s.kitten.renewed.antecedents := by rw [hg]
      exact this ▸ ha
    refine (hrec hl ha0).reflag hf ?_
    show k1.inconsistent = s.kitten.inconsistent
    rw [hg]
    exact hinc

end

end Nixie.Kitten
