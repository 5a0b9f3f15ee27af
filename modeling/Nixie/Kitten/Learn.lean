import Nixie.Kitten.Assignment
import Nixie.Kitten.Frame

/-!
Connecting klauses, learning them and assigning literals.
-/

namespace Nixie.Kitten

open Nixie.Propositional Nixie.Literal List Function

variable {k k' : Kitten} {db db' : ℕ → Option Klause} {F : Set (Set ℕ)} {r lit reason : ℕ}
  {c : Klause}

structure Stable (k : Kitten) (db : ℕ → Option Klause) (F : Set (Set ℕ)) : Prop where
  rep : Represents k.klauses db
  klauses : Klauses F k.exportTable.length k.antecedents db
  units : Units k.units k.inconsistent db
  refuted : k.inconsistent.isSome = true → Unsatisfiable valuations F
  recorded : ∀ r, k.inconsistent = some r ∨ k.failing = some r → ∃ c, db r = some c
  valued : Valued k.values k.exportTable.length
  free : k.unassigned = freeCount k.values k.exportTable.length
  queued : Queued k.queue k.links k.exportTable.length
  phases : ∀ i, k.phases i < 2
  lits : k.lits = 2 * k.exportTable.length
  learned : k.learned = false → ∀ r c, db r = some c → c.learned = false
  core : k.status ≠ .inconsistentCore → ∀ r c, db r = some c → c.core = false

structure Clean (k : Kitten) : Prop where
  marks : ∀ i, k.marks i = false
  analyzed : k.analyzed = []
  klause : k.klause = []
  resolved : k.resolved = []

theorem xor_xor_left (a b : ℕ) : a ^^^ b ^^^ a = b := by
  rw [Nat.xor_comm a b, Nat.xor_assoc, Nat.xor_self, Nat.xor_zero]

theorem xor_xor_right (a b : ℕ) : a ^^^ b ^^^ b = a := by
  rw [Nat.xor_assoc, Nat.xor_self, Nat.xor_zero]

theorem connectNewKlause_eq (h : Represents k.klauses db) (hr : db r = some c) :
    k.connectNewKlause r =
      { k with
        inconsistent := inconsistentWith k.inconsistent r c.lits
        units := unitsWith k.units r c.lits
        watches := watchesWith k.watches r c.lits } := by
  have hsize := h.size_eq hr
  have hlits := h.lits_eq hr
  unfold connectNewKlause
  match hc : c.lits with
  | [] =>
    rw [hsize, hc]
    by_cases hi : k.inconsistent.isNone = true
    · simp only [length_nil, if_true, hi, inconsistentWith, unitsWith, watchesWith, and_self]
      rfl
    · simp only [length_nil, if_true, hi, inconsistentWith, unitsWith, watchesWith]
      rfl
  | [a] =>
    rw [hsize, hc]
    simp [inconsistentWith, unitsWith, watchesWith, xor_xor_left]
  | a :: b :: t =>
    rw [hsize, hlits, hc]
    have hwatch : ∀ k : Kitten, k.klauseLits r = a :: b :: t → ∀ l e, k.watchKlause l r e =
        { k with watches := update k.watches l (k.watches l ++ [⟨a ^^^ b ^^^ l, r, e⟩]) } := by
      intro k hk l e
      simp [watchKlause, hk]
    have hbin : (t.length + 1 + 1 == 2) = t.isEmpty := by
      cases t <;> simp
    simp only [length_cons, Nat.add_eq_zero_iff, one_ne_zero, and_false, if_false,
      Nat.add_eq_right, getD_cons_zero, getD_cons_succ, hbin]
    rw [hwatch k (hlits.trans hc), hwatch _ (by simpa [klauseLits, klauseSize, word] using hlits.trans hc)]
    simp [inconsistentWith, unitsWith, watchesWith, xor_xor_left]

def connected (k : Kitten) (c : Klause) : Kitten :=
  { k with
    ticks := k.ticks + 1
    klauses := k.klauses ++ c.words
    inconsistent := inconsistentWith k.inconsistent k.klauses.length c.lits
    units := unitsWith k.units k.klauses.length c.lits
    watches := watchesWith k.watches k.klauses.length c.lits }

@[simp]
theorem connectNewKlause_referenceOverflow (k : Kitten) (r : ℕ) :
    (k.connectNewKlause r).referenceOverflow = k.referenceOverflow := by
  unfold connectNewKlause
  dsimp only
  split
  · split <;> rfl
  · split <;> rfl

theorem newReference_cases (ho : k.newReference.1.referenceOverflow = false) :
    k.newReference = ({ k with exhausted := true }, INVALID) ∨
      k.klauses.length + 3 < 2 ^ 32 ∧
        k.newReference = ({ k with ticks := k.ticks + 1 }, k.klauses.length) := by
  unfold newReference at ho ⊢
  split
  · exact .inl rfl
  · next hlt =>
    rw [if_neg hlt] at ho
    simp only [Bool.or_eq_false_iff, decide_eq_false_iff_not, not_le] at ho
    refine .inr ⟨ho.2, ?_⟩
    simp only [Prod.mk.injEq, and_true]
    rw [ho.1, decide_eq_false (by omega)]
    rfl

theorem pushKlause_connect (h : Represents k.klauses db) (hlt : k.klauses.length + 3 < 2 ^ 32)
    (hc : c.lits = k.klause) :
    ({ k with ticks := k.ticks + 1 }.pushKlause c.aux c.flags c.antecedents).connectNewKlause k.klauses.length =
    connected k c := by
  have hrep := h.push hlt c
  have hwords : k.klauses ++ ([c.aux, k.klause.length, c.flags] ++ k.klause ++ c.antecedents) =
      k.klauses ++ c.words := by
    simp [Klause.words, hc]
  have hlits : update db k.klauses.length (some c) k.klauses.length = some c := by simp
  rw [connectNewKlause_eq (by simpa only [pushKlause, hwords] using hrep) hlits]
  simp only [pushKlause, hwords, connected]

def antecedentsOf (k : Kitten) : List ℕ := if k.antecedents then k.resolved else []

def learnedKlause (k : Kitten) : Klause :=
  ⟨k.antecedentsOf.length, true, false, k.klause, k.antecedentsOf, rfl⟩

theorem learnedKlause_flags (k : Kitten) : k.learnedKlause.flags = LEARNED_FLAG := by
  simp [Klause.flags, learnedKlause]

theorem newLearnedKlause_cases (h : Represents k.klauses db) (he : k.newLearnedKlause = (k', r))
    (ho : k'.referenceOverflow = false) : (r = INVALID ∧ k' =
    { k with exhausted := true, klause := [], resolved := [] }) ∨
    (r = k.klauses.length ∧ k.exhausted = false ∧ k.klauses.length + 3 < 2 ^ 32 ∧
    k' = { connected k k.learnedKlause with learned := true }) := by
  unfold newLearnedKlause at he
  split at he
  · next hex =>
    obtain ⟨rfl, rfl⟩ := Prod.mk.inj he
    refine .inl ⟨rfl, ?_⟩
    rw [← hex]
  · next hex =>
    have hfalse : k.exhausted = false := by simpa using hex
    have hro : k.newReference.1.referenceOverflow = false := by
      simp only at he
      split at he
      · obtain ⟨rfl, _⟩ := Prod.mk.inj he
        exact ho
      · obtain ⟨rfl, _⟩ := Prod.mk.inj he
        simpa [pushKlause] using ho
    rcases newReference_cases hro with hn | ⟨hlt, hn⟩
    · rw [hn] at he
      obtain ⟨rfl, rfl⟩ := Prod.mk.inj (by simpa using he)
      exact .inl ⟨rfl, rfl⟩
    · have hne : k.klauses.length ≠ INVALID := by
        unfold INVALID
        omega
      have hpush := pushKlause_connect (c := k.learnedKlause) h hlt rfl
      rw [learnedKlause_flags] at hpush
      simp only [hn, hne, if_false] at he
      obtain ⟨rfl, rfl⟩ := Prod.mk.inj he
      refine .inr ⟨rfl, hfalse, hlt, ?_⟩
      rw [← hpush]
      rfl

def learn (k : Kitten) : Kitten := { connected k k.learnedKlause with learned := true }

def learnDb (k : Kitten) (db : ℕ → Option Klause) : ℕ → Option Klause :=
  update db k.klauses.length (some k.learnedKlause)

theorem extends_learnDb (h : Represents k.klauses db) : Extends db (k.learnDb db) := Extends.push h.fresh _

theorem learnDb_self : k.learnDb db k.klauses.length = some k.learnedKlause := by
  simp [learnDb]

theorem recorded_connected {c : Klause} (h : Represents k.klauses db)
    (hrec : ∀ r, k.inconsistent = some r ∨ k.failing = some r → ∃ c, db r = some c)
    (hr : (connected k c).inconsistent = some r ∨ k.failing = some r) :
    ∃ d, update db k.klauses.length (some c) r = some d := by
  have hold : (k.inconsistent = some r ∨ k.failing = some r) →
      ∃ d, update db k.klauses.length (some c) r = some d := by
    intro hr
    obtain ⟨d, hd⟩ := hrec r hr
    obtain ⟨d', hd', _⟩ := Extends.push h.fresh c r d hd
    exact ⟨d', hd'⟩
  rcases hr with hr | hr
  · simp only [connected, inconsistentWith] at hr
    split at hr
    · obtain rfl : k.klauses.length = r := by simpa using hr
      exact ⟨c, by simp⟩
    · exact hold (.inl hr)
  · exact hold (.inr hr)

theorem Stable.learn (h : Stable k db F) (hlt : k.klauses.length + 3 < 2 ^ 32)
    (hadm : Admissible F k.exportTable.length k.antecedents db k.klause k.resolved) :
    Stable k.learn (k.learnDb db) F := by
  have hadm' : Admissible F k.exportTable.length k.antecedents db k.learnedKlause.lits
      k.learnedKlause.antecedents := by
    refine { hadm with older := fun ht => ?_, derived := fun ht => ?_ }
    · simpa [learnedKlause, antecedentsOf, ht] using hadm.older ht
    · simpa [learnedKlause, antecedentsOf, ht] using hadm.derived ht
  refine { h with
    rep := h.rep.push hlt _
    klauses := h.klauses.push_learned h.rep.fresh (fun _ _ hs => h.rep.lt_length hs) rfl hadm'
    units := h.units.push h.rep.fresh
    refuted := fun hsome => ?_
    recorded := fun r hr => ?_
    learned := fun hl => ?_
    core := fun hst s d hs => ?_ }
  · simp only [Kitten.learn, connected, inconsistentWith] at hsome
    split at hsome
    · next hnil =>
      have hnil' : k.klause = [] := by simpa [learnedKlause] using hnil.1
      rw [unsatisfiable_iff]
      refine hadm.entailed.weaken ?_
      simp [clauseSet, hnil']
    · exact h.refuted hsome
  · exact recorded_connected h.rep h.recorded hr
  · simp [Kitten.learn] at hl
  · by_cases hsr : s = k.klauses.length
    · subst hsr
      obtain rfl : k.learnedKlause = d := by simpa [learnDb] using hs
      rfl
    · exact h.core hst s d (by simpa [learnDb, hsr] using hs)

structure Running (k : Kitten) (db : ℕ → Option Klause) (F : Set (Set ℕ)) : Prop where
  stable : Stable k db F
  trailed : Trailed k.values k.vars k.trail k.level db F
  rootUnits : k.exhausted = false → RootUnits k.values k.vars db

theorem Running.learn (h : Running k db F) (hlt : k.klauses.length + 3 < 2 ^ 32)
    (hadm : Admissible F k.exportTable.length k.antecedents db k.klause k.resolved) :
    Running k.learn (k.learnDb db) F :=
  have hext := extends_learnDb h.stable.rep
  ⟨h.stable.learn hlt hadm, h.trailed.transport hext, fun he => (h.rootUnits he).transport hext⟩

def enter (k : Kitten) (lit : ℕ) : Kitten :=
  { k with
    values := assignValues k.values lit
    phases := update k.phases (lit / 2) (lit % 2)
    trail := k.trail ++ [lit] }

def explain (k : Kitten) (lit reason : ℕ) : Kitten :=
  { k with
    vars := setVar k.vars lit k.level reason
    unassigned := k.unassigned - 1 }

def enroll (k : Kitten) (lit reason : ℕ) : Kitten := (k.enter lit).explain lit reason

def CanAssign (k : Kitten) (db : ℕ → Option Klause) (lit reason : ℕ) : Prop :=
  (reason = INVALID ∧ 0 < k.level ∧ ∀ m ∈ k.trail, lev k.vars m ≠ k.level) ∨
    ∃ c, db reason = some c ∧ lit ∈ c.lits ∧ ∀ m ∈ c.lits, m ≠ lit → k.values m = -1

theorem Stable.enroll (h : Stable k db F) (h0 : k.values lit = 0)
    (hlt : lit / 2 < k.exportTable.length) : Stable (k.enroll lit reason) db F := by
  refine { h with
    valued := h.valued.assign hlt
    free := ?_
    phases := fun i => ?_ }
  · have hcount := freeCount_assign h.valued hlt h0
    simp only [Kitten.enroll, explain, enter, h.free]
    omega
  · simp only [Kitten.enroll, explain, enter, update_apply]
    split
    · omega
    · exact h.phases i

theorem Running.enroll (h : Running k db F) (h0 : k.values lit = 0) (hlt : lit / 2 < k.exportTable.length)
    (hj : CanAssign k db lit reason) (hroot : k.level = 0 → k.exhausted = false → ∃ c, db reason = some c ∧
    c.lits = [lit]) : Running (k.enroll lit reason) db F := by
  refine ⟨h.stable.enroll h0 hlt,
    h.trailed.assign h.stable.valued h0 h.stable.klauses.entailed hj, fun he l hl hlev => ?_⟩
  rcases (assignValues_eq_one h.stable.valued h0).mp hl with rfl | hl
  · simp only [Kitten.enroll, explain, enter, lev_setVar_self] at hlev
    simp only [Kitten.enroll, explain, enter, why_setVar_self]
    exact hroot hlev he
  · have hd := h.stable.valued.div_ne h0 (l := l) (by omega)
    simp only [Kitten.enroll, explain, enter, lev_setVar hd] at hlev
    simp only [Kitten.enroll, explain, enter, why_setVar hd]
    exact h.rootUnits he l hl hlev

def rootUnit (k : Kitten) (lit reason : ℕ) : Kitten :=
  { k with
    klause := [lit]
    resolved := if k.antecedents
      then reason :: ((k.klauseLits reason).filter (· ≠ lit)).map (why k.vars) else [] }

theorem wrapRootReason_eq (hk : k.klause = []) (hr : k.resolved = [])
    (hwrap : 1 < k.klauseSize reason ∧ k.exhausted = false) :
    k.wrapRootReason lit reason =
      ({ (k.rootUnit lit reason).newLearnedKlause.1 with resolved := [], klause := [] },
        if (k.rootUnit lit reason).newLearnedKlause.2 ≠ INVALID
          then (k.rootUnit lit reason).newLearnedKlause.2 else reason) := by
  unfold wrapRootReason rootUnit
  rw [if_pos hwrap]
  by_cases ha : k.antecedents = true
  · simp only [if_pos ha, hk, hr, nil_append]
    rfl
  · simp only [if_neg ha, hk, hr, nil_append]

theorem assign_eq (k : Kitten) (lit reason : ℕ) :
    k.assign lit reason =
      let kr := if k.level = 0 then (k.enter lit).wrapRootReason lit reason else (k.enter lit, reason)
      kr.1.explain lit kr.2 := rfl

theorem assign_cases (hc : Clean k) (h : Represents k.klauses db)
    (ho : (k.assign lit reason).referenceOverflow = false) :
    ((0 < k.level ∨ k.klauseSize reason ≤ 1 ∨ k.exhausted = true) ∧ k.assign lit reason = k.enroll lit reason) ∨
    (k.level = 0 ∧ k.assign lit reason = { k with exhausted := true }.enroll lit reason) ∨
    (k.level = 0 ∧ k.exhausted = false ∧ k.klauses.length + 3 < 2 ^ 32 ∧
    k.assign lit reason =
    { (k.rootUnit lit reason).learn with klause := [], resolved := [] }.enroll lit k.klauses.length) := by
  rw [assign_eq] at ho ⊢
  by_cases hlev : k.level = 0
  · by_cases hwrap : 1 < k.klauseSize reason ∧ k.exhausted = false
    · right
      rw [if_pos hlev, wrapRootReason_eq (k := k.enter lit) hc.klause hc.resolved hwrap] at ho ⊢
      cases hn : ((k.enter lit).rootUnit lit reason).newLearnedKlause with
      | mk k' r =>
        rw [hn] at ho
        rcases newLearnedKlause_cases (k := (k.enter lit).rootUnit lit reason) h hn ho with
          ⟨rfl, rfl⟩ | ⟨rfl, hex, hlt, rfl⟩
        · refine .inl ⟨hlev, ?_⟩
          have hsame : ({ k with exhausted := true } : Kitten) =
              { k with exhausted := true, klause := [], resolved := [] } := by
            simp only [hc.klause, hc.resolved]
          rw [hsame]
          rfl
        · refine .inr ⟨hlev, hex, hlt, ?_⟩
          have hne : ((k.enter lit).rootUnit lit reason).klauses.length ≠ INVALID := by
            unfold INVALID
            omega
          rw [if_pos hne]
          rfl
    · have hsize : k.klauseSize reason ≤ 1 ∨ k.exhausted = true := by
        cases he : k.exhausted <;> simp_all
      refine .inl ⟨.inr hsize, ?_⟩
      have hwrap' : ¬ (1 < (k.enter lit).klauseSize reason ∧ (k.enter lit).exhausted = false) := hwrap
      rw [if_pos hlev, wrapRootReason, if_neg hwrap']
      rfl
  · refine .inl ⟨.inl (by omega), ?_⟩
    rw [if_neg hlev]
    rfl

structure Assigned (k k' : Kitten) (lit reason : ℕ) : Prop where
  values : k'.values = assignValues k.values lit
  trail : k'.trail = k.trail ++ [lit]
  vars : ∃ why, k'.vars = setVar k.vars lit k.level why ∧ (why = INVALID → why = reason)
  level : k'.level = k.level
  propagated : k'.propagated = k.propagated
  watches : k'.watches = k.watches
  units : ∃ t, k'.units = k.units ++ t
  inconsistent : k'.inconsistent = k.inconsistent

theorem Running.false_root (h : Running k db F) (hlev : k.level = 0) {m : ℕ}
    (hm : k.values m = -1) : k.values (neg m) = 1 ∧ lev k.vars (neg m) = 0 := by
  have hneg := h.stable.valued.neg_true.mpr hm
  have hle := h.trailed.le_level _ hneg
  exact ⟨hneg, by omega⟩

theorem Running.rootUnit_admissible (h : Running k db F) (hlev : k.level = 0) (hex : k.exhausted = false)
    (hlt : lit / 2 < k.exportTable.length) (hc : db reason = some c)
    (hothers : ∀ m ∈ c.lits, m ≠ lit → k.values m = -1) :
    Admissible F k.exportTable.length k.antecedents db (k.rootUnit lit reason).klause
    (k.rootUnit lit reason).resolved := by
  have hunits : ∀ m ∈ c.lits, m ≠ lit → ∃ d, db (why k.vars m) = some d ∧ d.lits = [neg m] := by
    intro m hm hne
    obtain ⟨hneg, h0⟩ := h.false_root hlev (hothers m hm hne)
    simpa [why] using h.rootUnits hex _ hneg h0
  have hset : clauseSet [lit] = {lit} := by
    ext l
    simp [clauseSet]
  refine ⟨?_, fun ht a ha => ?_, fun ht => ?_, by simpa [rootUnit] using hlt, by simp [rootUnit]⟩
  · simp only [rootUnit, hset]
    refine (h.stable.klauses.entailed _ c hc).resolve valuations_neg fun m hm hne => ?_
    obtain ⟨hneg, h0⟩ := h.false_root hlev (hothers m hm hne)
    exact h.trailed.entailed _ hneg h0
  · simp only [rootUnit, ht, if_true, h.stable.rep.lits_eq hc, mem_cons, mem_map,
      mem_filter, ne_eq, decide_not, Bool.not_eq_eq_eq_not, Bool.not_true,
      decide_eq_false_iff_not] at ha
    rcases ha with rfl | ⟨m, ⟨hm, hne⟩, rfl⟩
    · exact ⟨c, hc⟩
    · obtain ⟨d, hd, _⟩ := hunits m hm hne
      exact ⟨d, hd⟩
  · simp only [rootUnit, hset, ht, if_true, h.stable.rep.lits_eq hc]
    have hreason : clauseSet c.lits ∈ clausesOf db
        (reason :: (c.lits.filter (· ≠ lit)).map (why k.vars)) :=
      ⟨reason, mem_cons_self, c, hc, rfl⟩
    refine (Entails.of_mem hreason).resolve valuations_neg fun m hm hne => ?_
    obtain ⟨d, hd, hdl⟩ := hunits m hm hne
    refine Entails.of_mem ⟨why k.vars m, mem_cons_of_mem _ ?_, d, hd, ?_⟩
    · exact mem_map_of_mem (mem_filter.mpr ⟨hm, by simpa using hne⟩)
    · ext l
      simp [clauseSet, hdl]

theorem Running.assign (h : Running k db F) (hc : Clean k) (h0 : k.values lit = 0)
    (hlt : lit / 2 < k.exportTable.length) (hj : CanAssign k db lit reason)
    (ho : (k.assign lit reason).referenceOverflow = false) : ∃ db', Running (k.assign lit reason) db' F ∧
    Clean (k.assign lit reason) ∧ Extends db db' ∧ (∀ ws, Watched ws db → Watched ws db') ∧
    Assigned k (k.assign lit reason) lit reason ∧ ∀ s d, db' s = some d → db s = some d ∨ d.lits = [lit] ∧
    k.level = 0 := by
  rcases assign_cases hc h.stable.rep ho with ⟨hcase, heq⟩ | ⟨hlev, heq⟩ | ⟨hlev, hex, hlen, heq⟩
  all_goals rw [heq]
  · refine ⟨db, h.enroll h0 hlt hj fun hlev hex => ?_, ⟨hc.marks, hc.analyzed, hc.klause, hc.resolved⟩,
      .refl db, fun _ hw => hw, ⟨rfl, rfl, ⟨reason, rfl, fun _ => rfl⟩, rfl, rfl, rfl,
        ⟨[], (append_nil _).symm⟩, rfl⟩,
      fun _ _ => .inl⟩
    rcases hj with ⟨_, hpos, _⟩ | ⟨c, hcr, hmem, _⟩
    · omega
    · refine ⟨c, hcr, ?_⟩
      have hsize : c.lits.length ≤ 1 := by
        rw [← h.stable.rep.size_eq hcr]
        rcases hcase with hpos | hsize | hex'
        · omega
        · exact hsize
        · simp [hex] at hex'
      match hl : c.lits with
      | [] => simp [hl] at hmem
      | [a] =>
        obtain rfl : lit = a := by simpa [hl] using hmem
        rfl
      | a :: b :: t => simp [hl] at hsize
  · have hrun : Running { k with exhausted := true } db F := ⟨{ h.stable with }, h.trailed, nofun⟩
    exact ⟨db, hrun.enroll h0 hlt hj nofun, ⟨hc.marks, hc.analyzed, hc.klause, hc.resolved⟩,
      .refl db, fun _ hw => hw, ⟨rfl, rfl, ⟨reason, rfl, fun _ => rfl⟩, rfl, rfl, rfl,
        ⟨[], (append_nil _).symm⟩, rfl⟩,
      fun _ _ => .inl⟩
  · rcases hj with ⟨_, hpos, _⟩ | ⟨c, hcr, hmem, hothers⟩
    · omega
    · have hadm := h.rootUnit_admissible hlev hex hlt hcr hothers
      have hpend : Running (k.rootUnit lit reason) db F := ⟨{ h.stable with }, h.trailed, h.rootUnits⟩
      have hlearn := hpend.learn hlen hadm
      have hrun : Running { (k.rootUnit lit reason).learn with klause := [], resolved := [] }
          ((k.rootUnit lit reason).learnDb db) F :=
        ⟨{ hlearn.stable with }, hlearn.trailed, hlearn.rootUnits⟩
      have hself : (k.rootUnit lit reason).learnDb db k.klauses.length =
          some (k.rootUnit lit reason).learnedKlause := learnDb_self
      refine ⟨_, hrun.enroll h0 hlt (.inr ⟨_, hself, ?_, ?_⟩) fun _ _ => ⟨_, hself, rfl⟩,
        ⟨hc.marks, hc.analyzed, rfl, rfl⟩, extends_learnDb hpend.stable.rep,
        fun ws hw => ?_, ⟨rfl, rfl, ⟨_, rfl, fun hpos => ?_⟩, rfl, rfl, rfl,
          ⟨_, rfl⟩, rfl⟩, fun s d hs => ?_⟩
      · simp [learnedKlause, rootUnit]
      · intro m hm hne
        exact absurd (by simpa [learnedKlause, rootUnit] using hm) hne
      · exact hw.push h.stable.rep.fresh (c := (k.rootUnit lit reason).learnedKlause)
          (by simp [learnedKlause, rootUnit])
      · exact absurd hpos (hpend.stable.rep.push hlen _ |>.ne_invalid hself)
      · by_cases hsr : s = k.klauses.length
        · subst hsr
          obtain rfl : _ = d := Option.some.inj (hself.symm.trans hs)
          exact .inr ⟨rfl, hlev⟩
        · exact .inl (by simpa [learnDb, rootUnit, hsr] using hs)

end Nixie.Kitten
