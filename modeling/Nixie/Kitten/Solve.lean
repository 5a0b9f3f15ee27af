import Nixie.Kitten.Failing

/-!
Decisions: first the assumptions, then the queue.
-/

namespace Nixie.Kitten

open Nixie.Propositional Nixie.Literal List Option Nat

variable {k k' : Kitten} {db : ℕ → Option Klause} {F : Set (Set ℕ)} {fuel idx l lit p : ℕ}

structure Ready (k : Kitten) (db : ℕ → Option Klause) (F : Set (Set ℕ)) : Prop where
  searching : Searching k db F k.propagated
  done : k.trail.drop k.propagated = []
  rooted : ∀ l ∈ k.trail, 0 < lev k.vars l

theorem flushTrail_ready (h : Searching k db F k.propagated)
    (hdone : k.trail.drop k.propagated = []) :
    Ready (if k.level = 0 ∧ k.trail ≠ [] then k.flushTrail else k) db F := by
  have hrun := h.running
  split
  · next hflush =>
    have hroot : ∀ l, k.values l = 1 → lev k.vars l = 0 := by
      intro l hl
      have := hrun.trailed.le_level l hl
      omega
    refine ⟨⟨⟨{ hrun.stable with }, ⟨nodup_nil, by simp [flushTrail], fun l hl _ => hroot l hl,
      hrun.trailed.le_level, List.Pairwise.nil, by simp [flushTrail], hrun.trailed.entailed⟩,
      hrun.rootUnits⟩,
      ⟨h.clean.marks, h.clean.analyzed, h.clean.klause, h.clean.resolved⟩, h.assuming, h.watched, ?_,
      by simp [flushTrail], by simp [flushTrail], h.unitsTrue, h.consistent, Nat.zero_le _⟩, rfl,
      by simp [flushTrail]⟩
    have hb := h.blocked
    rw [hdone] at hb
    exact hb
  · next hflush =>
    refine ⟨h, hdone, fun l hl => ?_⟩
    have hpos : 0 < k.level := by
      rcases Nat.eq_zero_or_pos k.level with h0 | hpos
      · exact absurd ⟨h0, ne_nil_of_mem hl⟩ hflush
      · exact hpos
    exact h.rooted hpos l hl

theorem Ready.openLevel (h : Ready k db F)
    (htaken : ∀ a, k.assumptions[k.level]? = some a → k.values a = 1) :
    Ready { k with level := k.level + 1 } db F := by
  have hs := h.searching
  have htrailed := hs.running.trailed
  refine ⟨⟨⟨{ hs.running.stable with }, { htrailed with le_level := fun l hl => ?_ },
    hs.running.rootUnits⟩,
    ⟨hs.clean.marks, hs.clean.analyzed, hs.clean.klause, hs.clean.resolved⟩,
    ⟨fun i a ha hi => ?_, hs.assuming.decided⟩, hs.watched, hs.blocked, ?_, fun _ => h.rooted,
    hs.unitsTrue, hs.consistent, hs.bound⟩, h.done, h.rooted⟩
  · exact le_succ_of_le (htrailed.le_level l hl)
  · rcases Nat.lt_succ_iff_lt_or_eq.mp hi with hi | rfl
    · exact hs.assuming.taken i a ha hi
    · have hva := htaken a ha
      exact ⟨hva, le_succ_of_le (htrailed.le_level a hva)⟩
  · intro l hl
    have hdone := h.done
    rw [show ({ k with level := k.level + 1 } : Kitten).trail.drop
      ({ k with level := k.level + 1 } : Kitten).propagated = [] from hdone] at hl
    simp at hl

structure Taken (k : Kitten) (db : ℕ → Option Klause) (F : Set (Set ℕ)) (assumed : Assumed) :
    Prop where
  ready : Ready k db F
  all : assumed = .all → ∀ a ∈ k.assumptions, k.values a = 1
  reached : assumed = .all → k.assumptions.length ≤ k.level
  failed : assumed = .failed → k.level ≤ k.assumptions.length ∧ ∃ a ∈ k.assumptions, k.values a = -1
  decide : ∀ lit, assumed = .decide lit → k.assumptions[k.level]? = some lit ∧ k.values lit = 0

theorem takeAssumptions_spec {rest : List ℕ} (h : Ready k db F) (hrest : k.assumptions.drop k.level = rest) : Taken
    (takeAssumptions k rest).1 db F (takeAssumptions k rest).2 := by
  induction rest generalizing k with
  | nil =>
    have hlen := drop_eq_nil_iff.mp hrest
    refine ⟨h, fun _ a ha => ?_, fun _ => hlen, by simp [takeAssumptions], by simp [takeAssumptions]⟩
    obtain ⟨i, hi⟩ := mem_iff_getElem?.mp ha
    have hlt : i < k.assumptions.length := (List.getElem?_eq_some_iff.mp hi).1
    exact (h.searching.assuming.taken i a hi (by omega)).1
  | cons a rest ih =>
    have hget : k.assumptions[k.level]? = some a := by
      rw [← head?_drop, hrest]
      rfl
    have hlt := (List.getElem?_eq_some_iff.mp hget).1
    have hrange := h.searching.running.stable.valued.range a
    simp only [takeAssumptions]
    split
    · next hneg =>
      have hva : k.values a = -1 := by omega
      exact ⟨h, by simp, by simp, fun _ => ⟨hlt.le, a, mem_of_getElem? hget, hva⟩, by simp⟩
    · split
      · next hpos =>
        refine ih (h.openLevel fun b hb => ?_) ?_
        · obtain rfl : a = b := by simpa [hget] using hb
          omega
        · show k.assumptions.drop (k.level + 1) = rest
          rw [← tail_drop, hrest]
          rfl
      · next hneg hpos =>
        have hva : k.values a = 0 := by omega
        refine ⟨h, by simp, by simp, by simp, ?_⟩
        rintro _ ⟨rfl⟩
        exact ⟨hget, hva⟩

theorem searchQueue_spec (hq : Queued k.queue k.links k.exportTable.length) {i : ℕ}
    (hidx : idx < k.exportTable.length ∨ idx = INVALID) (he : searchQueue k fuel idx = some (some i)) :
    i < k.exportTable.length ∧ k.values (i * 2) = 0 := by
  induction fuel generalizing idx with
  | zero => simp [searchQueue] at he
  | succ fuel ih =>
    simp only [searchQueue] at he
    split at he
    · simp at he
    · next hne =>
      have hlt := hidx.resolve_right hne
      split at he
      · next h0 =>
        obtain rfl : idx = i := by simpa using he
        exact ⟨hlt, h0⟩
      · exact ih (hq.prev idx hlt) he

theorem decideOn_spec (h : Ready k db F) (h0 : k.values lit = 0) (hlt : lit / 2 < k.exportTable.length)
    (htaken : ∀ a, k.assumptions[k.level]? = some a → a = lit)
    (hass : k.level < k.assumptions.length → lit ∈ k.assumptions) (ho : (k.decideOn lit).referenceOverflow = false) :
    ∃ db', Searching (k.decideOn lit) db' F (k.decideOn lit).propagated := by
  have hs := h.searching
  have htrailed := hs.running.trailed
  have hval := hs.running.stable.valued
  have hrun1 : Running { k with level := k.level + 1 } db F :=
    ⟨{ hs.running.stable with },
      { htrailed with le_level := fun l hl => le_succ_of_le (htrailed.le_level l hl) },
      hs.running.rootUnits⟩
  have hclean1 : Clean { k with level := k.level + 1 } :=
    ⟨hs.clean.marks, hs.clean.analyzed, hs.clean.klause, hs.clean.resolved⟩
  have hcan : CanAssign { k with level := k.level + 1 } db lit INVALID := by
    refine .inl ⟨rfl, succ_pos _, fun m hm => ?_⟩
    have := htrailed.le_level m (htrailed.true_of_mem m hm)
    show lev k.vars m ≠ k.level + 1
    omega
  obtain ⟨db', hrun, hclean, hext, hws, hasg, hnew⟩ := hrun1.assign hclean1 h0 hlt hcan ho
  obtain ⟨why, hvars, hwhy⟩ := hasg.vars
  have hfr := assign_frame { k with level := k.level + 1 } lit INVALID
  have hdrop : (k.decideOn lit).trail.drop (k.decideOn lit).propagated = [lit] := by
    rw [decideOn, hasg.trail, hasg.propagated, drop_append_of_le_length hs.bound]
    show k.trail.drop k.propagated ++ [lit] = [lit]
    rw [h.done, nil_append]
  have hold : ∀ l ∈ k.trail, lev (setVar k.vars lit (k.level + 1) why) l = lev k.vars l := by
    intro l hl
    have := htrailed.true_of_mem l hl
    exact lev_setVar (hval.div_ne h0 (by omega))
  have hvars' : (k.decideOn lit).vars = setVar k.vars lit (k.level + 1) why := hvars
  have hlevel : (k.decideOn lit).level = k.level + 1 := hasg.level
  refine ⟨db', hrun, hclean, ?_, ?_, ?_, fun l hl => ?_, fun _ l hl => ?_, ?_,
    hasg.inconsistent.trans hs.consistent, ?_⟩
  · rw [(decideOn_frame k lit).assumptions, hlevel, hvars',
      show (k.decideOn lit).values = assignValues k.values lit from hasg.values]
    refine hs.assuming.assign hval h0 (fun i a ha hi => ?_) fun _ hle => hass hle
    rcases Nat.lt_succ_iff_lt_or_eq.mp hi with hi | rfl
    · exact .inl hi
    · exact .inr ⟨htaken a ha, rfl⟩
  · rw [show (k.decideOn lit).watches = k.watches from hasg.watches]
    exact hws _ hs.watched
  · rw [hdrop, hvars', show (k.decideOn lit).watches = k.watches from hasg.watches,
      show (k.decideOn lit).values = assignValues k.values lit from hasg.values]
    have hb := hs.blocked
    rw [h.done] at hb
    exact (hb.transport hext).assign hval h0 (by simp) (by simp)
  · rw [hdrop, mem_singleton] at hl
    rw [hl, hvars', hlevel, lev_setVar_self]
  · rw [show (k.decideOn lit).trail = k.trail ++ [lit] from hasg.trail, mem_append, mem_singleton] at hl
    rw [hvars']
    rcases hl with hl | rfl
    · rw [hold l hl]
      exact h.rooted l hl
    · rw [lev_setVar_self]
      exact succ_pos _
  · rw [hvars', show (k.decideOn lit).values = assignValues k.values lit from hasg.values]
    exact hs.unitsTrue.assign hval h0 hnew
  · rw [show (k.decideOn lit).trail = k.trail ++ [lit] from hasg.trail,
      show (k.decideOn lit).propagated = k.propagated from hasg.propagated, length_append]
    exact le_add_right_of_le hs.bound

variable {k k' : Kitten} {db : ℕ → Option Klause} {F : Set (Set ℕ)} {fuel : ℕ} {a r : ℕ}

structure Bounded (k : Kitten) : Prop where
  vars : k.exportTable.length ≤ MAX_VARS
  assumptions : ∀ a ∈ k.assumptions, a / 2 < k.exportTable.length

theorem Bounded.frame (h : Bounded k) (hf : Frame k k') : Bounded k' := by
  refine ⟨hf.exportTable ▸ h.vars, ?_⟩
  rw [hf.assumptions, hf.exportTable]
  exact h.assumptions

theorem Bounded.ne_invalid (h : Bounded k) (ha : a ∈ k.assumptions) : a ≠ INVALID := by
  have h1 := h.assumptions a ha
  have h2 := h.vars
  unfold MAX_VARS at h2
  unfold INVALID
  omega

def assumed (assumptions : List ℕ) : Set (Set ℕ) := {C | ∃ a ∈ assumptions, C = {a}}

structure Model (k : Kitten) (F : Set (Set ℕ)) : Prop where
  valued : Valued k.values k.exportTable.length
  total : ∀ l, l / 2 < k.exportTable.length → k.values l ≠ 0
  clauses : ∀ C ∈ F, ∃ l ∈ C, k.values l = 1
  assumptions : ∀ a ∈ k.assumptions, k.values a = 1

structure Settled (k : Kitten) (F : Set (Set ℕ)) (result : KittenResult) : Prop where
  model : result = .satisfied → Model k F
  unsat : result = .inconsistent → Unsatisfiable valuations (F ∪ assumed k.assumptions)
  halted : k.exhausted = false → ∃ db, Halted k db F ∧
    (k.antecedents = true → RecordsEmpty k db) ∧
    (result = .inconsistent → k.inconsistent.isSome = true ∨ FailureRecorded k db)

theorem Ready.model (h : Ready k db F) (h0 : k.unassigned = 0)
    (ha : ∀ a ∈ k.assumptions, k.values a = 1) : Model k F := by
  have hs := h.searching
  have hst := hs.running.stable
  have htotal : ∀ l, l / 2 < k.exportTable.length → k.values l ≠ 0 :=
    fun l hl => freeCount_eq_zero hst.valued (hst.free.symm.trans h0) hl
  refine ⟨hst.valued, htotal, ?_, ha⟩
  rw [← hst.klauses.originals]
  rintro _ ⟨r, c, hr, -, rfl⟩
  match hc : c.lits with
  | [] =>
    have := hst.units.empty r c hr hc
    simp [hs.consistent] at this
  | [l] => exact ⟨l, by simp [clauseSet], (hs.unitsTrue r c l hr hc).1⟩
  | a :: b :: t =>
    have hna := htotal a (hst.klauses.lits_lt r c hr a (by simp [hc]))
    rcases hst.valued.range a with hva | hva | hva
    · -- a false watch is blocked by a true literal
      obtain ⟨w, hw, hwr⟩ := hs.watched.covered r c hr a ⟨a, b, t, hc, .inl rfl⟩
      have hne : w.reference ≠ INVALID := hwr ▸ hst.rep.ne_invalid hr
      obtain ⟨c', m, hc', hm, hvm, _⟩ := hs.blocked a w hw hne hva (by simp [h.done])
      obtain rfl : c = c' := by simpa [hwr, hr] using hc'
      exact ⟨m, by simpa [clauseSet, hc] using hm, hvm⟩
    · exact absurd hva hna
    · exact ⟨a, by simp [clauseSet], hva⟩

theorem Searching.settled {p : ℕ} {result : KittenResult} (h : Searching k db F p)
    (hm : result = .satisfied → Model k F) (hr : result ≠ .inconsistent) : Settled k F result :=
  ⟨hm, fun h' => absurd h' hr, fun _ => ⟨db, h.halted, fun _ r hr => by simp [h.consistent] at hr,
    fun h' => absurd h' hr⟩⟩

theorem failed_settled {p : ℕ} (h : Searching k db F p) (hb : Bounded k)
    (hlev : k.level ≤ k.assumptions.length) (hfalse : ∃ a ∈ k.assumptions, k.values a = -1)
    (he : k.failAssumptions = some k') (ho : k'.referenceOverflow = false) :
    Settled k' F (if k'.exhausted then .unknown else .inconsistent) := by
  cases hex : k'.exhausted with
  | true => exact ⟨nofun, nofun, fun h' => by simp [hex] at h'⟩
  | false =>
    obtain ⟨db', hhalt, hinc, hrec⟩ :=
      failAssumptions_spec h hlev (fun a ha => hb.ne_invalid ha) hfalse he hex ho
    refine ⟨nofun, fun _ => ?_, fun _ => ⟨db', hhalt, fun _ r hr => by simp [hinc] at hr, fun _ => .inr hrec⟩⟩
    exact hrec.unsat (fun r c _ hc => hhalt.running.stable.klauses.entailed r c hc) fun a ha _ => ⟨a, ha, rfl⟩

def Advanced (k : Kitten) (F : Set (Set ℕ)) (result : Option KittenResult) : Prop :=
  (result = none → ∃ db, Searching k db F k.propagated) ∧ ∀ res, result = some res → Settled k F res

theorem Settled.advanced {res : KittenResult} (h : Settled k F res) : Advanced k F (some res) := by
  refine ⟨nofun, ?_⟩
  rintro _ ⟨rfl⟩
  exact h

theorem Ready.updateSearch {idx : ℕ} (h : Ready k db F) (hidx : idx < k.exportTable.length) :
    Ready (k.updateSearch idx) db F := by
  have hs := h.searching
  have hst := hs.running.stable
  refine ⟨⟨⟨{ hst with queued := ⟨hst.queued.prev, hst.queued.last, ?_⟩ }, hs.running.trailed,
    hs.running.rootUnits⟩, ⟨hs.clean.marks, hs.clean.analyzed, hs.clean.klause, hs.clean.resolved⟩,
    hs.assuming, hs.watched, hs.blocked, hs.pending, hs.rooted, hs.unitsTrue, hs.consistent, hs.bound⟩,
    h.done, h.rooted⟩
  rintro _ ⟨rfl⟩
  exact hidx

variable {result : Option KittenResult}

theorem decide_spec {interrupted : Bool} (h : Searching k db F k.propagated)
    (hdone : k.trail.drop k.propagated = []) (hb : Bounded k)
    (he : decide fuel interrupted k = some (k', result)) (ho : k'.referenceOverflow = false) :
    Advanced k' F result := by
  have hready := flushTrail_ready h hdone
  unfold decide at he
  dsimp only at he
  generalize hk1 : (if k.level = 0 ∧ k.trail ≠ [] then k.flushTrail else k) = k1 at he hready
  have h1 : Frame k k1 := by
    subst hk1
    split <;> exact .same rfl
  have htaken := takeAssumptions_spec hready rfl
  have hb2 := hb.frame (h1.trans (takeAssumptions_frame (k1.assumptions.drop k1.level) k1))
  cases hta : takeAssumptions k1 (k1.assumptions.drop k1.level) with
  | mk k2 assumed =>
  rw [hta] at he htaken hb2
  dsimp only at he htaken hb2
  have hs := htaken.ready.searching
  have hst := hs.running.stable
  have hset : Settled k2 F .unknown := hs.settled nofun nofun
  have hunknown : some (k2, some .unknown) = some (k', result) → Advanced k' F result := by
    rintro ⟨rfl, rfl⟩
    exact hset.advanced
  cases assumed with
  | failed =>
    simp only [bind_eq_bind, bind_eq_some_iff] at he
    obtain ⟨k3, hfail, he⟩ := he
    obtain ⟨rfl, rfl⟩ : k3 = k' ∧ some _ = result := by simpa using he
    obtain ⟨hlev, hfalse⟩ := htaken.failed rfl
    exact (failed_settled hs hb2 hlev hfalse hfail ho).advanced
  | all =>
    dsimp only at he
    split_ifs at he with hu ht hi
    · obtain ⟨rfl, rfl⟩ : k2 = k' ∧ some _ = result := by simpa using he
      have hmodel := htaken.ready.model hu (htaken.all rfl)
      have hset : Settled k2 F .satisfied := hs.settled (fun _ => hmodel) nofun
      exact hset.advanced
    · exact hunknown he
    · exact hunknown he
    · split at he
      · exact hunknown he
      · next start hstart =>
        simp only [bind_eq_bind, bind_eq_some_iff] at he
        obtain ⟨o, hq, he⟩ := he
        cases o with
        | none => exact hunknown he
        | some idx =>
          obtain ⟨rfl, rfl⟩ := Prod.mk.inj (some.inj he)
          obtain ⟨hidx, h0⟩ := searchQueue_spec hst.queued (.inl (hst.queued.search start hstart)) hq
          have hphase := hst.phases idx
          have hlit : (2 * idx + k2.phases idx) / 2 = idx := by omega
          have h0' : k2.values (2 * idx + k2.phases idx) = 0 := by
            rw [hst.valued.eq_of_div (m := idx * 2) (by omega)]
            exact h0
          have hlen := htaken.reached rfl
          refine ⟨fun _ => decideOn_spec (htaken.ready.updateSearch hidx) h0' ?_ (fun b hb => ?_)
            (fun hlt => ?_) ho, nofun⟩
          · show (2 * idx + k2.phases idx) / 2 < k2.exportTable.length
            omega
          · have hlt : k2.level < k2.assumptions.length := (List.getElem?_eq_some_iff.mp hb).1
            omega
          · have hlt : k2.level < k2.assumptions.length := hlt
            omega
  | decide lit =>
    obtain ⟨hget, h0⟩ := htaken.decide lit rfl
    have hmem := mem_of_getElem? hget
    have hlt := hb2.assumptions lit hmem
    dsimp only at he
    split_ifs at he with hu ht hi
    · -- the assumption to decide on is unassigned
      exact absurd h0 (freeCount_eq_zero hst.valued (hst.free.symm.trans hu) hlt)
    · exact hunknown he
    · exact hunknown he
    · obtain ⟨rfl, rfl⟩ := Prod.mk.inj (some.inj he)
      refine ⟨fun _ => decideOn_spec htaken.ready h0 hlt (fun b hb => ?_) (fun _ => hmem) ho, nofun⟩
      simpa [hget] using hb.symm

theorem register_settled (h : Halted k db F) {c : Klause} (hr : db r = some c) (hconf : RootConflict k c)
    (he : registerInconsistent fuel k r = some k') (ho : k'.referenceOverflow = false) :
    Settled k' F .inconsistent := by
  have hunsat := hconf.unsat h.running hr
  refine ⟨nofun, fun _ v hv hs => ?_, fun hex => ?_⟩
  · exact hunsat v hv fun C hC => hs C (Set.mem_union_left _ hC)
  · obtain ⟨db', hhalt, hinc, hrec⟩ := registerInconsistent_spec h hr hconf he hex ho
    exact ⟨db', hhalt, fun hant => hrec ((registerInconsistent_frame he).antecedents ▸ hant), fun _ => .inl hinc⟩

theorem Conflict.root (h : Conflict k db r) (hrun : Running k db F) (h0 : k.level = 0) :
    ∃ c, db r = some c ∧ RootConflict k c := by
  obtain ⟨c, hc, hfalse, _⟩ := h.falsified
  refine ⟨c, hc, fun m hm => ⟨hfalse m hm, ?_⟩⟩
  have := (hrun.false_root h0 (hfalse m hm)).2
  rwa [lev_neg] at this

theorem solveStep_spec {interrupted : Bool} (h : Searching k db F k.propagated) (hb : Bounded k)
    (he : solveStep fuel interrupted k = some (k', result)) (ho : k'.referenceOverflow = false) :
    Advanced k' F result := by
  unfold solveStep at he
  simp only [bind_eq_bind, bind_eq_some_iff] at he
  obtain ⟨⟨k1, conflict⟩, hprop, he⟩ := he
  have hb1 := hb.frame (propagate_frame hprop)
  cases conflict with
  | none =>
    dsimp only at he
    obtain ⟨db1, hnone, -⟩ := propagate_spec h hprop ((decide_frame he).overflow ho)
    obtain ⟨hs, hdone⟩ := hnone rfl
    exact decide_spec hs hdone hb1 he ho
  | some reference =>
    dsimp only at he
    split at he
    · next hpos =>
      simp only [bind_eq_some_iff] at he
      obtain ⟨k2, han, he⟩ := he
      obtain ⟨rfl, rfl⟩ := Prod.mk.inj (some.inj he)
      obtain ⟨db1, -, hsome⟩ := propagate_spec h hprop ((analyze_frame han).overflow ho)
      obtain ⟨p, hs, hconf⟩ := hsome reference rfl
      rcases analyze_spec hs hpos hconf han ho with hex | ⟨db2, hs2⟩
      · rw [if_pos hex]
        exact Settled.advanced ⟨by simp, by simp, fun h' => by simp [hex] at h'⟩
      · split
        · next hex => exact Settled.advanced ⟨by simp, by simp, fun h' => by simp [hex] at h'⟩
        · exact ⟨fun _ => ⟨db2, hs2⟩, by simp⟩
    · next hpos =>
      simp only [bind_eq_some_iff] at he
      obtain ⟨k2, hreg, he⟩ := he
      obtain ⟨rfl, rfl⟩ := Prod.mk.inj (some.inj he)
      obtain ⟨db1, -, hsome⟩ := propagate_spec h hprop ((registerInconsistent_frame hreg).overflow ho)
      obtain ⟨p, hs, hconf⟩ := hsome reference rfl
      obtain ⟨c, hc, hroot⟩ := hconf.root hs.running (by omega)
      exact (register_settled hs.halted hc hroot hreg ho).advanced

theorem solveLoop_spec {interrupt : ℕ → Bool} {result : KittenResult} (h : Searching k db F k.propagated)
    (hb : Bounded k) (he : solveLoop interrupt fuel k = some (k', result)) (ho : k'.referenceOverflow = false) :
    Settled k' F result := by
  induction fuel generalizing k db with
  | zero => simp [solveLoop] at he
  | succ fuel ih =>
    simp only [solveLoop, bind_eq_bind, bind_eq_some_iff] at he
    obtain ⟨⟨k1, r1⟩, hstep, he⟩ := he
    cases r1 with
    | none =>
      obtain ⟨hgo, -⟩ := solveStep_spec h hb hstep ((solveLoop_frame he).overflow ho)
      obtain ⟨db1, h1⟩ := hgo rfl
      exact ih h1 (hb.frame (solveStep_frame hstep)) he
    | some r1 =>
      obtain ⟨rfl, rfl⟩ := Prod.mk.inj (some.inj he)
      exact (solveStep_spec h hb hstep ho).2 r1 rfl

theorem propagateUnits_spec (h : Starting k db F) (he : propagateUnits fuel k = some (k', result))
    (ho : k'.referenceOverflow = false) : Advanced k' F result := by
  unfold propagateUnits at he
  rw [h.consistent] at he
  simp only [isSome_none, Bool.false_eq_true, if_false] at he
  split at he
  · next hu =>
    obtain ⟨rfl, rfl⟩ := Prod.mk.inj (some.inj he)
    refine ⟨fun _ => ⟨db, h.searching fun s hs => ?_⟩, by simp⟩
    rw [isEmpty_iff.mp hu] at hs
    simp at hs
  · simp only [bind_eq_bind, bind_eq_some_iff] at he
    obtain ⟨⟨k1, falsified⟩, hunits, he⟩ := he
    cases falsified with
    | some reference =>
      simp only [bind_eq_some_iff] at he
      obtain ⟨k2, hreg, he⟩ := he
      obtain ⟨rfl, rfl⟩ := Prod.mk.inj (some.inj he)
      obtain ⟨db1, hst, -, hsome⟩ := assignUnits_spec h (by simp) hunits
        ((registerInconsistent_frame hreg).overflow ho)
      obtain ⟨c, hc, hconf⟩ := hsome reference rfl
      exact (register_settled ⟨hst.running, hst.clean, hst.watched⟩ hc hconf hreg ho).advanced
    | none =>
      simp only [bind_eq_some_iff] at he
      obtain ⟨⟨k2, conflict⟩, hprop, he⟩ := he
      cases conflict with
      | none =>
        obtain ⟨rfl, rfl⟩ := Prod.mk.inj (some.inj he)
        obtain ⟨db1, hst, hnone, -⟩ := assignUnits_spec h (by simp) hunits ((propagate_frame hprop).overflow ho)
        obtain ⟨db2, hs, -⟩ := propagate_spec (hst.searching (hnone rfl)) hprop ho
        exact ⟨fun _ => ⟨db2, (hs rfl).1⟩, by simp⟩
      | some reference =>
        simp only [bind_eq_some_iff] at he
        obtain ⟨k3, hreg, he⟩ := he
        obtain ⟨rfl, rfl⟩ := Prod.mk.inj (some.inj he)
        have ho2 := (registerInconsistent_frame hreg).overflow ho
        obtain ⟨db1, hst, hnone, -⟩ := assignUnits_spec h (by simp) hunits ((propagate_frame hprop).overflow ho2)
        obtain ⟨db2, -, hsome⟩ := propagate_spec (hst.searching (hnone rfl)) hprop ho2
        obtain ⟨p, hs, hconf⟩ := hsome reference rfl
        have h0 : k2.level = 0 := (propagate_level hprop).trans hst.level
        obtain ⟨c, hc, hroot⟩ := hconf.root hs.running h0
        exact (register_settled hs.halted hc hroot hreg ho).advanced

end Nixie.Kitten
