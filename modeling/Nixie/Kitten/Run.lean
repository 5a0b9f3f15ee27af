import Nixie.Kitten.Session

/-!
Every call keeps the invariant of a session, and the verdicts of a search are right about the
clauses and assumptions the user has given.
-/

namespace Nixie.Kitten

open Nixie.Propositional Nixie.Literal List Option Function

variable {k k' : Kitten} {db : ℕ → Option Klause} {F : Set (Set ℕ)} {fuel : ℕ}
  {interrupt : ℕ → Bool} {result : KittenResult} {s s' : Session}

theorem newOriginalKlause_frame (k : Kitten) (id : ℕ) : Frame k (k.newOriginalKlause id) := by
  unfold newOriginalKlause
  split
  · exact .refl k
  · dsimp only
    have href := newReference_frame k
    split
    · exact href
    · have hpush : Frame k.newReference.1 (k.newReference.1.pushKlause id 0 []) := .same rfl
      exact (href.trans hpush).trans (connectNewKlause_frame _ _)

theorem foldl_unmark (xs : List ℕ) (marks : ℕ → Bool) (i : ℕ) :
    xs.foldl (fun marks ilit => update marks (ilit / 2) false) marks i =
      if ∃ l ∈ xs, i = l / 2 then false else marks i := by
  induction xs generalizing marks with
  | nil => simp
  | cons x xs ih =>
    rw [foldl_cons, ih]
    by_cases hi : ∃ l ∈ xs, i = l / 2
    · rw [if_pos hi, if_pos]
      obtain ⟨l, hl, hil⟩ := hi
      exact ⟨l, mem_cons_of_mem _ hl, hil⟩
    · rw [if_neg hi]
      by_cases hx : i = x / 2
      · rw [if_pos ⟨x, by simp, hx⟩, hx, update_self]
      · rw [update_of_ne hx, if_neg]
        rintro ⟨l, hl, hil⟩
        rcases mem_cons.mp hl with rfl | hl
        · exact hx hil
        · exact hi ⟨l, hl, hil⟩

structure Added (k k' : Kitten) (es : List ℕ) : Prop where
  tabled : Tabled k'
  renumbers : Renumbers k k'
  known : ∀ e ∈ es, Known k' e
  assumptions : k'.assumptions = k.assumptions
  status : k'.status = k.status
  antecedents : k'.antecedents = k.antecedents
  exhausted : k'.exhausted = false → k.exhausted = false
  overflow : k'.referenceOverflow = false → k.referenceOverflow = false
  idle : ∀ db F, k'.exhausted = false → k'.referenceOverflow = false → Idle k db F →
    ∃ db', Idle k' db' (insert (clauseSet (es.map (intern k'))) F) ∧
      (RecordsEmpty k db → RecordsEmpty k' db')

variable {elits : List ℕ}

/-- The marks of the literals on the scratch are taken back. -/
def unmark (k : Kitten) : Kitten :=
  { k with marks := k.klause.foldl (fun marks ilit => update marks (ilit / 2) false) k.marks }

theorem Importing.unmark_marks {es : List ℕ} (h : Importing k es) (i : ℕ) : k.unmark.marks i = false := by
  refine (foldl_unmark k.klause k.marks i).trans ?_
  split
  · rfl
  · next hne =>
    cases hm : k.marks i with
    | false => rfl
    | true => exact absurd ((h.marks i).mp hm) hne

theorem Enlisted.resting {k1 : Kitten} {db : ℕ → Option Klause} {F : Set (Set ℕ)} (h : Enlisted k k1)
    (hi : Idle k db F) (hst : Stable k1 db F) : Resting k1.unmark db F := by
  unfold Enlisted at h
  refine ⟨{ hst with }, ?_, ?_, ?_, ?_⟩
  · show Watched k1.watches db
    rw [h]
    exact hi.watched
  · show k1.trail.Nodup
    rw [h]
    exact hi.nodup
  · show ∀ l ∈ k1.trail, k1.values l = 1
    rw [h]
    exact hi.true_of_mem
  · show ∀ l, k1.values l = 1 → l ∈ k1.trail ∨ ∃ r ∈ k1.units, ∃ c, db r = some c ∧ c.lits = [l]
    rw [h]
    exact hi.covered

theorem clause_added (id : ℕ) {except : ℕ} (ht : Tabled k) (hstat : k.status = .unsolved)
    (hs : ∀ e ∈ elits, e ≠ except → externalLiteralSane e = true)
    (hnd : ((elits.filter (· ≠ except)).map (· / 2)).Nodup) :
    Added k (k.clauseWithIdAndException id elits except) (elits.filter (· ≠ except)) := by
  have hlisted := importAll_enlisted k except elits
  obtain ⟨ht1, hren, hknown⟩ := importAll_table ht hs
  have hall : ∀ db F, Idle k db F → Importing (elits.foldl (importInto except) k) (elits.filter (· ≠ except)) ∧
      Stable (elits.foldl (importInto except) k) db F := by
    intro db F hi
    have hstart : Importing k [] := by
      refine ⟨ht, by simp, by simpa using hi.clean.klause, fun i => ?_⟩
      simp [hi.clean.marks i, hi.clean.klause]
    obtain ⟨h1, h2⟩ := importAll_spec db F hstart hs (by simpa using hnd)
    exact ⟨by simpa using h1, h2 hi.stable⟩
  have heq : k.clauseWithIdAndException id elits except =
      { newOriginalKlause (elits.foldl (importInto except) k).unmark id with klause := [] } := by
    unfold clauseWithIdAndException
    rw [if_neg (by simp [hstat])]
    rfl
  rw [heq]
  generalize elits.foldl (importInto except) k = k1 at *
  have henl := hlisted
  unfold Enlisted at henl
  have hfr := newOriginalKlause_frame k1.unmark id
  have hknown' : ∀ e ∈ elits.filter (· ≠ except), Known k1 e := by
    intro e he
    obtain ⟨h1, h2⟩ := mem_filter.mp he
    exact hknown e h1 (by simpa using h2)
  have hmem : ∀ x, ({ newOriginalKlause k1.unmark id with klause := [] } : Kitten).importTable x = k1.importTable x :=
    fun x => congrFun hfr.importTable x
  refine ⟨ht1.same hfr.importTable hfr.exportTable hfr.evars.ge, fun x hx => (hmem x).trans (hren x hx),
    fun e he => ?_, hfr.assumptions.trans (by rw [unmark, henl]), hfr.status.trans (by rw [unmark, henl]),
    hfr.antecedents.trans (by rw [unmark, henl]), fun he => ?_, fun ho => ?_, fun db F hex ho hi => ?_⟩
  · unfold Known
    rw [hmem]
    exact hknown' e he
  · have := hfr.exhausted he
    rw [unmark, henl] at this
    exact this
  · have := hfr.overflow ho
    rw [unmark, henl] at this
    exact this
  · obtain ⟨himp, hst⟩ := hall db F hi
    have hrest := hlisted.resting hi hst
    have hlits : ∀ l ∈ k1.unmark.klause, l / 2 < k1.unmark.exportTable.length := by
      intro l hl
      obtain ⟨e, he, rfl⟩ := mem_map.mp (himp.klause ▸ hl : l ∈ (elits.filter (· ≠ except)).map (intern k1))
      exact ht1.intern_lt (hknown' e he)
    have hnodup : k1.unmark.klause.Nodup := by
      refine himp.klause.symm ▸ List.Nodup.map_on (fun x hx y hy hxy => ?_) hnd.of_map
      exact inj_on_of_nodup_map hnd hx hy (ht1.intern_inj (hknown' x hx) (hknown' y hy) (by rw [hxy]))
    have hana : k1.analyzed = [] := by
      rw [henl]
      exact hi.clean.analyzed
    have hresolved : k1.resolved = [] := by
      rw [henl]
      exact hi.clean.resolved
    have hinc : k1.inconsistent = k.inconsistent := by rw [henl]
    have hintern : intern ({ newOriginalKlause k1.unmark id with klause := [] } : Kitten) = intern k1 := by
      funext e
      unfold intern
      rw [hmem]
    rcases newOriginalKlause_cases hrest.stable.rep ho with hbad | ⟨_, hlt, heq⟩
    · exact absurd hex (by simp [hbad])
    · have hnew := hrest.original id hlt hlits hnodup
      rw [hintern, ← himp.klause, heq]
      refine ⟨_, ⟨⟨{ hnew.stable with }, hnew.watched, hnew.nodup, hnew.true_of_mem, hnew.covered⟩,
        ⟨himp.unmark_marks, hana, rfl, hresolved⟩⟩, fun hrec => ?_⟩
      have hrec' : RecordsEmpty k1.unmark db := hrec.reflag (.refl db) hinc
      exact hrec'.original id hrest.stable.rep

theorem clause_renewed (k : Kitten) (id : ℕ) (elits : List ℕ) (except : ℕ) : k.clauseWithIdAndException id elits except
    = k.renewed.clauseWithIdAndException id elits except := by
  unfold clauseWithIdAndException
  rw [if_neg (c := k.renewed.status ≠ .unsolved) (by simp [renewed_status])]
  rfl

theorem Sound.clause {id except : ℕ} (h : Sound s)
    (hs : ∀ e ∈ elits, e ≠ except → externalLiteralSane e = true)
    (hnd : ((elits.filter (· ≠ except)).map (· / 2)).Nodup)
    (ho : (s.kitten.clauseWithIdAndException id elits except).referenceOverflow = false) :
    Sound { s with
      kitten := s.kitten.clauseWithIdAndException id elits except
      clauses := s.clauses ++ [elits.filter (· ≠ except)]
      assumptions := s.current
      answered := false } := by
  rw [clause_renewed] at ho ⊢
  have hcar := renewed_carried s.kitten
  have hadd := clause_added id (h.tabled.carried hcar) (renewed_status s.kitten) hs hnd
  generalize s.kitten.renewed.clauseWithIdAndException id elits except = k' at *
  generalize elits.filter (· ≠ except) = es at *
  have hren : Renumbers s.kitten k' := hcar.renumbers.trans hadd.renumbers
  refine ⟨hadd.tabled, fun hex => ?_⟩
  have hlive := h.live (hcar.exhausted (hadd.exhausted hex))
  have hkcl : ∀ c ∈ s.clauses ++ [es], ∀ e ∈ c, Known k' e := by
    intro c hc e he
    rcases mem_append.mp hc with hc | hc
    · exact hren.known (hlive.clauses c hc e he)
    · obtain rfl : c = es := by simpa using hc
      exact hadd.known e he
  have hkcur : ∀ e ∈ s.current, Known k' e := fun e he => hren.known (hlive.current e he)
  have hass : k'.assumptions = s.current.map (intern k') := by
    rw [hadd.assumptions, hlive.renewed_assumptions, intern_congr hren hlive.current]
  have hstatus : k'.status = .unsolved := hadd.status.trans (renewed_status s.kitten)
  refine ⟨hkcl, hkcur, fun _ => hass, ⟨hadd.tabled.length_le, fun a ha => ?_⟩, ?_, fun hc => ?_, ?_⟩
  · have ha' : a ∈ s.current.map (intern k') := hass ▸ ha
    obtain ⟨e, he, rfl⟩ := mem_map.mp ha'
    exact hadd.tabled.intern_lt (hkcur e he)
  · simp [hstatus]
  · have hc' : k'.status = .inconsistentCore := hc
    simp [hstatus] at hc'
  · obtain ⟨db, hi, hrec⟩ := hlive.idle
    obtain ⟨db1, hi1, hf, hinc⟩ := hi.renewed hlive.core
    obtain ⟨db2, hi2, hrec2⟩ := hadd.idle db1 _ hex ho hi1
    have hint : formula ((s.clauses ++ [es]).map fun c => c.map (intern k')) =
        insert (clauseSet (es.map (intern k'))) s.internal := by
      unfold Session.internal
      rw [← internal_congr hren hlive.clauses]
      ext C
      simp only [formula, map_append, map_cons, map_nil, mem_append,
        mem_singleton, Set.mem_image, Set.mem_ofPred_eq, Set.mem_insert_iff]
      constructor
      · rintro ⟨c, hc | rfl, rfl⟩
        · exact .inr ⟨c, hc, rfl⟩
        · exact .inl rfl
      · rintro (rfl | ⟨c, hc, rfl⟩)
        · exact ⟨_, .inr rfl, rfl⟩
        · exact ⟨c, .inl hc, rfl⟩
    refine ⟨db2, (congrArg (Idle k' db2) hint).mpr hi2, fun hl ha => hrec2 ?_⟩
    have ha0 : s.kitten.antecedents = true := by
      rw [← hcar.antecedents, ← hadd.antecedents]
      exact ha
    exact (hrec hl ha0).reflag hf hinc

theorem Sound.trackAntecedents (h : Sound s) :
    Sound { s with
      kitten := s.kitten.trackAntecedents
      late := s.late || (!s.kitten.antecedents && s.kitten.trackAntecedents.antecedents &&
        s.kitten.inconsistent.any fun r => s.kitten.klauseSize r != 0) } := by
  unfold Kitten.trackAntecedents
  split
  · refine ⟨h.tabled, fun hex => ?_⟩
    refine (h.live hex).same _ rfl rfl rfl Iff.rfl (h.live hex).core fun db hi hrec => ⟨db, hi, fun hl ha => ?_⟩
    exact hrec (by simp_all) ha
  · next hc =>
    obtain ⟨hst, hl⟩ : s.kitten.status = .unsolved ∧ s.kitten.learned = false := by simpa using hc
    refine ⟨h.tabled.same rfl rfl (le_refl _), fun hex => ?_⟩
    have hlive := h.live hex
    refine hlive.same { s.kitten with antecedents := true } rfl rfl rfl Iff.rfl (fun _ => rfl) fun db hi hrec =>
      ⟨db, ?_, fun hlate _ r hr => ?_⟩
    · -- nothing has been learned yet
      have hnone := hi.stable.learned hl
      have hkl := hi.stable.klauses
      refine ⟨⟨{ hi.stable with
        klauses := ⟨hkl.originals, hkl.entailed, fun _ r c hr hc => ?_, hkl.lits_lt, hkl.nodup⟩ },
        hi.watched, hi.nodup, hi.true_of_mem, hi.covered⟩,
        ⟨hi.clean.marks, hi.clean.analyzed, hi.clean.klause, hi.clean.resolved⟩⟩
      simp [hnone r c hr] at hc
    · have hr' : s.kitten.inconsistent = some r := hr
      cases ha : s.kitten.antecedents with
      | true => exact hrec (by simp_all) ha r hr'
      | false =>
        obtain ⟨c, hdb⟩ := hi.stable.recorded r (.inl hr')
        have hsize := hi.stable.rep.size_eq hdb
        refine ⟨c, hdb, ?_⟩
        have h0 : s.kitten.klauseSize r = 0 := by
          simpa [ha, hr'] using (Bool.or_eq_false_iff.mp hlate).2
        exact eq_nil_of_length_eq_zero (hsize ▸ h0)

theorem Sound.computeClausalCore (h : Sound s) (he : s.kitten.computeClausalCore fuel = some k') :
    Sound { s with kitten := k' } := by
  have hmark := computeClausalCore_marked he
  refine ⟨h.tabled.same (by rw [hmark]) (by rw [hmark]) (by rw [hmark]), fun hex => ?_⟩
  have hlive := h.live (by rw [hmark] at hex; exact hex)
  by_cases hc : s.kitten.status ≠ .inconsistent ∨ s.kitten.antecedents = false
  · unfold Kitten.computeClausalCore at he
    rw [if_pos hc] at he
    obtain rfl := some.inj he
    exact hlive
  · obtain ⟨hst, hant⟩ : s.kitten.status = .inconsistent ∧ s.kitten.antecedents = true := by
      simpa using hc
    have hstat : k'.status = .inconsistentCore := by
      obtain ⟨db, hi, _⟩ := hlive.idle
      obtain ⟨db', hcored⟩ := computeClausalCore_spec hi.stable hst hant he
      rw [hcored.marked]
    have hant' : k'.antecedents = true := by rw [hmark]; exact hant
    refine hlive.same k' (by rw [hmark]) (by rw [hmark]) (by rw [hmark]) (by simp [hst, hstat])
      (fun _ => hant') fun db hi hrec => ?_
    obtain ⟨db', hcored⟩ := computeClausalCore_spec hi.stable hst hant he
    have hk := hcored.marked
    exact ⟨db', hi.cored hcored, fun hl _ => (hrec hl hant).reflag hcored.reflagged (by rw [hk])⟩

theorem Live.prepared_assumptions (h : Live s) : s.kitten.prepared.assumptions = s.current.map (intern s.kitten) := by
  obtain ⟨db, hi, _⟩ := h.idle
  obtain ⟨_, _, _, _, _, _, hass⟩ := hi.prepared h.core
  rw [hass]
  unfold Session.current
  cases ha : s.answered with
  | true => simp [h.status.mp ha]
  | false =>
    have hst : s.kitten.status = .unsolved := by
      by_contra hne
      simp [h.status.mpr hne] at ha
    rw [if_pos hst]
    exact h.assumptions ha

theorem Live.answered (h : Live s) (hex : s.kitten.exhausted = false)
    (he : s.kitten.solve fuel interrupt = some (k', result)) (ho : k'.referenceOverflow = false) :
    ∃ db, Answered s.kitten k' db s.internal result ∧
    (s.late = false → s.kitten.antecedents = true → RecordsEmpty s.kitten db) := by
  obtain ⟨db, hi, hrec⟩ := h.idle
  exact ⟨db, solve_spec hi h.bounded h.core hex he ho, hrec⟩

theorem Sound.solve (h : Sound s) (he : s.kitten.solve fuel interrupt = some (k', result))
    (ho : k'.referenceOverflow = false) :
    Sound { s with
      kitten := k'
      assumptions := if result = .unknown then [] else s.current
      answered := result ≠ .unknown } := by
  obtain ⟨himp, hexp, hev, hant, hexh, _⟩ := solve_tables he
  refine ⟨h.tabled.same himp hexp hev.ge, fun hex => ?_⟩
  have hlive := h.live (hexh hex)
  obtain ⟨db, hans, hrec⟩ := hlive.answered (hexh hex) he ho
  have hren : Renumbers s.kitten k' := fun x _ => by rw [himp]
  have hint : formula (s.clauses.map fun c => c.map (intern k')) = s.internal :=
    congrArg formula (internal_congr hren hlive.clauses)
  refine ⟨fun c hc e he => hren.known (hlive.clauses c hc e he), fun e he => ?_, fun ha => ?_,
    ⟨?_, fun a ha => ?_⟩, ?_, fun hc => ?_, ?_⟩
  · -- an answer spends the assumptions, and an interrupted search drops them
    cases result <;> simp [Session.current] at he
  · obtain rfl : result = .unknown := by simpa using ha
    simpa using hans.assumptions
  · show k'.exportTable.length ≤ MAX_VARS
    rw [hexp]
    exact hlive.bounded.vars
  · show a / 2 < k'.exportTable.length
    have ha' : a ∈ s.kitten.prepared.assumptions := by
      have hmem : a ∈ k'.assumptions := ha
      rw [hans.assumptions] at hmem
      split at hmem
      · simp at hmem
      · exact hmem
    rw [hlive.prepared_assumptions] at ha'
    obtain ⟨e, hce, rfl⟩ := mem_map.mp ha'
    rw [hexp]
    exact h.tabled.intern_lt (hlive.current e hce)
  · show Decidable.decide (result ≠ .unknown) = true ↔ k'.status ≠ .unsolved
    rw [hans.status]
    cases result <;> simp [statusOf]
  · have hc' : k'.status = .inconsistentCore := hc
    rw [hans.status] at hc'
    cases result <;> simp [statusOf] at hc'
  · obtain ⟨db', hi', _, hrec'⟩ := hans.idle hex
    refine ⟨db', (congrArg (Idle k' db') hint).mpr hi', fun hl ha => ?_⟩
    have ha0 : s.kitten.antecedents = true := hant ▸ ha
    exact hrec' ha0 (hrec hl ha0)

theorem Idle.limited (h : Idle k db F) (limit : ℕ) : Idle { k with ticksLimit := limit } db F :=
  ⟨⟨{ h.stable with }, h.watched, h.nodup, h.true_of_mem, h.covered⟩,
    ⟨h.clean.marks, h.clean.analyzed, h.clean.klause, h.clean.resolved⟩⟩

theorem Sound.same (h : Sound s) (k' : Kitten) (himp : k'.importTable = s.kitten.importTable)
    (hexp : k'.exportTable = s.kitten.exportTable) (hev : k'.evars = s.kitten.evars)
    (hass : k'.assumptions = s.kitten.assumptions) (hst : k'.status = s.kitten.status)
    (hant : k'.antecedents = s.kitten.antecedents) (hinc : k'.inconsistent = s.kitten.inconsistent)
    (hexh : k'.exhausted = s.kitten.exhausted)
    (hidle : ∀ db, Idle s.kitten db s.internal → Idle k' db s.internal) :
    Sound { s with kitten := k' } := by
  refine ⟨h.tabled.same himp hexp hev.ge, fun hex => ?_⟩
  have hlive := h.live (hexh ▸ hex)
  refine hlive.same k' himp hexp hass (by rw [hst]) (fun hc => ?_) fun db hi hrec =>
    ⟨db, hidle db hi, fun hl ha => ?_⟩
  · rw [hant]
    exact hlive.core (hst ▸ hc)
  · exact (hrec hl (hant ▸ ha)).reflag (.refl db) hinc

theorem clause_overflow {id except : ℕ}
    (ho : (k.clauseWithIdAndException id elits except).referenceOverflow = false) : k.referenceOverflow = false := by
  rw [clause_renewed] at ho
  refine (renewed_carried k).overflow ?_
  have henl := importAll_enlisted k.renewed except elits
  unfold clauseWithIdAndException at ho
  rw [if_neg (by simp [renewed_status])] at ho
  have ho' := (newOriginalKlause_frame _ _).overflow ho
  unfold Enlisted at henl
  dsimp only at ho'
  rw [henl] at ho'
  exact ho'

theorem assume_overflow {e : ℕ} (ho : (k.assume e).referenceOverflow = false) : k.referenceOverflow = false := by
  by_cases hs : externalLiteralSane e = true
  · rw [assume_eq hs] at ho
    have hg := importLiteral_grown k.renewed e
    unfold Grown at hg
    refine (renewed_carried k).overflow ?_
    dsimp only at ho
    rw [hg] at ho
    exact ho
  · unfold Kitten.assume at ho
    rw [if_neg hs] at ho
    exact ho

theorem perform_overflow {call : Call} (h : perform s call = some s')
    (ho : s'.kitten.referenceOverflow = false) : s.kitten.referenceOverflow = false := by
  cases call with
  | clear =>
    obtain rfl := some.inj h
    exact ho
  | clause id elits except =>
    obtain rfl := some.inj h
    exact clause_overflow ho
  | assume elit =>
    obtain rfl := some.inj h
    exact assume_overflow ho
  | solve fuel interrupt =>
    simp only [perform, bind_eq_bind, bind_eq_some_iff] at h
    obtain ⟨⟨k', result⟩, hsolve, h⟩ := h
    obtain rfl := some.inj h
    exact (solve_tables hsolve).2.2.2.2.2 ho
  | trackAntecedents =>
    obtain rfl := some.inj h
    have ho' : s.kitten.trackAntecedents.referenceOverflow = false := ho
    unfold Kitten.trackAntecedents at ho'
    split at ho' <;> exact ho'
  | computeClausalCore fuel =>
    simp only [perform, bind_eq_bind, bind_eq_some_iff] at h
    obtain ⟨k', hcore, h⟩ := h
    obtain rfl := some.inj h
    have hmark := computeClausalCore_marked hcore
    rw [hmark] at ho
    exact ho
  | shuffleClauses =>
    obtain rfl := some.inj h
    have hs := (shuffleClauses_spec s.kitten).1
    unfold Shuffled at hs
    have ho' : s.kitten.shuffleClauses.referenceOverflow = false := ho
    rw [hs] at ho'
    exact ho'
  | randomizePhases =>
    obtain rfl := some.inj h
    exact ho
  | flipPhases =>
    obtain rfl := some.inj h
    exact ho
  | noTicksLimit =>
    obtain rfl := some.inj h
    exact ho
  | setTicksLimitDelta delta =>
    obtain rfl := some.inj h
    exact ho

theorem run_overflow {calls : List Call} (h : run s calls = some s')
    (ho : s'.kitten.referenceOverflow = false) : s.kitten.referenceOverflow = false := by
  induction calls generalizing s with
  | nil =>
    obtain rfl := some.inj h
    exact ho
  | cons call calls ih =>
    simp only [run, foldlM_cons, bind_eq_bind, bind_eq_some_iff] at h
    obtain ⟨s1, h1, h⟩ := h
    exact perform_overflow h1 (ih h)

theorem perform_sound {call : Call} (hs : Sound s) (hdist : call.Distinct) (hsane : call.Sane)
    (h : perform s call = some s') (ho : s'.kitten.referenceOverflow = false) : Sound s' := by
  cases call with
  | clear =>
    obtain rfl := some.inj h
    exact hs.clear
  | clause id elits except =>
    obtain rfl := some.inj h
    exact hs.clause hsane hdist ho
  | assume elit =>
    obtain rfl := some.inj h
    exact hs.assume hsane
  | solve fuel interrupt =>
    simp only [perform, bind_eq_bind, bind_eq_some_iff] at h
    obtain ⟨⟨k', result⟩, hsolve, h⟩ := h
    obtain rfl := some.inj h
    exact hs.solve hsolve ho
  | trackAntecedents =>
    obtain rfl := some.inj h
    exact hs.trackAntecedents
  | computeClausalCore fuel =>
    simp only [perform, bind_eq_bind, bind_eq_some_iff] at h
    obtain ⟨k', hcore, h⟩ := h
    obtain rfl := some.inj h
    exact hs.computeClausalCore hcore
  | shuffleClauses =>
    obtain rfl := some.inj h
    have hsh := (shuffleClauses_spec s.kitten).1
    unfold Shuffled at hsh
    exact hs.same _ (by rw [hsh]) (by rw [hsh]) (by rw [hsh]) (by rw [hsh]) (by rw [hsh]) (by rw [hsh])
      (by rw [hsh]) (by rw [hsh]) fun _ hi => hi.shuffleClauses
  | randomizePhases =>
    obtain rfl := some.inj h
    exact hs.same _ rfl rfl rfl rfl rfl rfl rfl rfl fun _ hi => hi.randomizePhases
  | flipPhases =>
    obtain rfl := some.inj h
    exact hs.same _ rfl rfl rfl rfl rfl rfl rfl rfl fun _ hi => hi.flipPhases
  | noTicksLimit =>
    obtain rfl := some.inj h
    exact hs.same s.kitten.noTicksLimit rfl rfl rfl rfl rfl rfl rfl rfl fun _ hi => hi.limited _
  | setTicksLimitDelta delta =>
    obtain rfl := some.inj h
    exact hs.same (s.kitten.setTicksLimitDelta delta) rfl rfl rfl rfl rfl rfl rfl rfl fun _ hi => hi.limited _

theorem run_sound {calls : List Call} (hs : Sound s) (hdist : ∀ c ∈ calls, c.Distinct) (hsane : ∀ c ∈ calls, c.Sane)
    (h : run s calls = some s') (ho : s'.kitten.referenceOverflow = false) : Sound s' := by
  induction calls generalizing s with
  | nil =>
    obtain rfl := some.inj h
    exact hs
  | cons call calls ih =>
    simp only [run, foldlM_cons, bind_eq_bind, bind_eq_some_iff] at h
    obtain ⟨s1, h1, h⟩ := h
    have hs1 := perform_sound hs (hdist call (by simp)) (hsane call (by simp)) h1 (run_overflow h ho)
    exact ih hs1 (fun c hc => hdist c (mem_cons_of_mem _ hc)) (fun c hc => hsane c (mem_cons_of_mem _ hc)) h

end Nixie.Kitten
