import Nixie.Kitten.Conflict

/-!
Conflicts on the root level, and the unit klauses a search starts with.
-/

namespace Nixie.Kitten

open Nixie.Propositional Nixie.Literal List Option

variable {k k' k0 : Kitten} {db : ℕ → Option Klause} {F : Set (Set ℕ)} {p r next fuel : ℕ}
  {c : Klause}

structure Halted (k : Kitten) (db : ℕ → Option Klause) (F : Set (Set ℕ)) : Prop where
  running : Running k db F
  clean : Clean k
  watched : Watched k.watches db

theorem Searching.halted (h : Searching k db F p) : Halted k db F := ⟨h.running, h.clean, h.watched⟩

theorem Halted.idle (h : Halted k db F) (he : k.exhausted = false) : Idle k db F := by
  refine ⟨⟨h.running.stable, h.watched, h.running.trailed.nodup,
    h.running.trailed.true_of_mem, fun l hl => ?_⟩, h.clean⟩
  by_cases hmem : l ∈ k.trail
  · exact .inl hmem
  · have hlev := h.running.trailed.root l hl hmem
    obtain ⟨c, hc, hcl⟩ := h.running.rootUnits he l hl hlev
    exact .inr ⟨_, h.running.stable.units.mem _ c l hc hcl, c, hc, hcl⟩

def RootConflict (k : Kitten) (c : Klause) : Prop :=
  ∀ m ∈ c.lits, k.values m = -1 ∧ lev k.vars m = 0

theorem RootConflict.unsat (hrun : Running k db F) (hr : db r = some c) (h : RootConflict k c) :
    Unsatisfiable valuations F := by
  intro v hv hF
  obtain ⟨m, hm, hvm⟩ := hrun.stable.klauses.entailed r c hr v hv hF
  obtain ⟨hval, hlev⟩ := h m hm
  have hneg := hrun.stable.valued.neg_true.mpr hval
  obtain ⟨_, rfl, hvn⟩ := hrun.trailed.entailed _ hneg (by rwa [lev_neg]) v hv hF
  exact (valuations_neg v hv m).mp hvn hvm

def RootVar (k : Kitten) (i : ℕ) : Prop := ∃ l, l / 2 = i ∧ k.values l = 1 ∧ lev k.vars l = 0

/-- The state of the closure under root reasons: those of the first `next` variables are in `R`. -/
structure Rooting (k0 : Kitten) (db : ℕ → Option Klause) (next : ℕ) (R : List ℕ) (k : Kitten) :
    Prop where
  same : k = { k0 with marks := k.marks, analyzed := k.analyzed, resolved := k.resolved }
  marks : ∀ i, k.marks i = true ↔ i ∈ k.analyzed
  root : ∀ i ∈ k.analyzed, RootVar k0 i
  resolved : ∀ r ∈ k.resolved, ∃ d, db r = some d
  length : next ≤ k.analyzed.length
  explained : ∀ i ∈ k.analyzed.take next, (k0.vars i).reason ∈ R

theorem markRootLits_spec {lits R : List ℕ} (h : Rooting k0 db next R k) (hroot : ∀ m ∈ lits, RootVar k0 (m / 2)) :
    Rooting k0 db next R (lits.foldl markRootLit k) ∧ k.analyzed ⊆ (lits.foldl markRootLit k).analyzed ∧
    (lits.foldl markRootLit k).resolved = k.resolved ∧ ∀ m ∈ lits, m / 2 ∈ (lits.foldl markRootLit k).analyzed := by
  induction lits generalizing k with
  | nil => exact ⟨h, fun _ => id, rfl, by simp⟩
  | cons m lits ih =>
    have hstep : Rooting k0 db next R (k.markRootLit m) ∧
        k.analyzed ⊆ (k.markRootLit m).analyzed ∧
        (k.markRootLit m).resolved = k.resolved ∧ m / 2 ∈ (k.markRootLit m).analyzed := by
      unfold markRootLit
      dsimp only
      split
      · next hm => exact ⟨h, fun _ => id, rfl, (h.marks _).mp hm⟩
      · next hm =>
        have hlen := h.length
        refine ⟨⟨?_, fun i => ?_, fun i hi => ?_, h.resolved, ?_, fun i hi => ?_⟩,
          subset_append_left _ _, rfl, by simp⟩
        · conv_lhs => rw [h.same]
        · by_cases him : i = m / 2
          · simp [him]
          · simp [him, h.marks i]
        · rcases mem_append.mp hi with hi | hi
          · exact h.root i hi
          · obtain rfl : i = m / 2 := by simpa using hi
            exact hroot m (by simp)
        · show next ≤ (k.analyzed ++ [m / 2]).length
          simp
          omega
        · rw [take_append_of_le_length hlen] at hi
          exact h.explained i hi
    obtain ⟨h1, hsub1, hres1, hmem1⟩ := hstep
    obtain ⟨h2, hsub2, hres2, hmem2⟩ := ih h1 fun l hl => hroot l (mem_cons_of_mem _ hl)
    refine ⟨h2, fun i hi => hsub2 (hsub1 hi), hres2.trans hres1, fun l hl => ?_⟩
    rcases mem_cons.mp hl with rfl | hl
    · exact hsub2 hmem1
    · exact hmem2 l hl

theorem resolveRoot_spec (hrep : Represents k0.klauses db) (hunits : RootUnits k0.values k0.vars db)
    (h : Rooting k0 db next (k.resolved ++ [r]) k) (hr : db r = some c) (hroot : ∀ m ∈ c.lits, RootVar k0 (m / 2))
    (he : resolveRoot fuel next r k = some k') : Rooting k0 db k'.analyzed.length k'.resolved k' ∧
    k.resolved ++ [r] ⊆ k'.resolved ∧ k.analyzed ⊆ k'.analyzed ∧ ∀ m ∈ c.lits, m / 2 ∈ k'.analyzed := by
  induction fuel generalizing next r k c with
  | zero => simp [resolveRoot] at he
  | succ fuel ih =>
    simp only [resolveRoot] at he
    have hklauses : k.klauses = k0.klauses := by rw [h.same]
    have hrep' : Represents ({ k with resolved := k.resolved ++ [r] } : Kitten).klauses db := by
      show Represents k.klauses db
      rwa [hklauses]
    rw [hrep'.lits_eq hr] at he
    have hstart : Rooting k0 db next (k.resolved ++ [r])
        { k with resolved := k.resolved ++ [r] } := by
      refine ⟨?_, h.marks, h.root, fun s hs => ?_, h.length, h.explained⟩
      · conv_lhs => rw [h.same]
      · rcases List.mem_append.mp hs with hs | hs
        · exact h.resolved s hs
        · obtain rfl : s = r := by simpa using hs
          exact ⟨c, hr⟩
    obtain ⟨h1, hsub1, hres1, hmem1⟩ := markRootLits_spec hstart hroot
    generalize c.lits.foldl markRootLit { k with resolved := k.resolved ++ [r] } = k1 at *
    have hvars : k1.vars = k0.vars := by rw [h1.same]
    have hres : k1.resolved = k.resolved ++ [r] := hres1
    rw [← hres] at h1
    split at he
    · next hnone =>
      obtain rfl := Option.some.inj he
      have hlen := List.getElem?_eq_none_iff.mp hnone
      refine ⟨{ h1 with length := le_refl _, explained := fun i hi => h1.explained i ?_ },
        by rw [hres]; exact fun _ => id, hsub1, hmem1⟩
      rw [take_of_length_le hlen]
      simpa using hi
    · next idx hidx =>
      obtain ⟨l, hl, hvl, hlev⟩ := h1.root idx (mem_of_getElem? hidx)
      obtain ⟨d, hd, hdl⟩ := hunits l hvl hlev
      have hreason : (k1.vars idx).reason = why k0.vars l := by
        rw [hvars, ← hl]
        rfl
      rw [hreason, if_neg (hrep.ne_invalid hd)] at he
      have hnext : Rooting k0 db (next + 1) (k1.resolved ++ [why k0.vars l]) k1 := by
        obtain ⟨hlt, hget⟩ := List.getElem?_eq_some_iff.mp hidx
        refine { h1 with length := hlt, explained := fun i hi => ?_ }
        rw [take_add_one, hidx, mem_append] at hi
        rcases hi with hi | hi
        · exact mem_append_left _ (h1.explained i hi)
        · obtain rfl : i = idx := by simpa using hi
          rw [← hl]
          simp [why]
      have hdroot : ∀ m ∈ d.lits, RootVar k0 (m / 2) := by
        intro m hm
        obtain rfl : m = l := by simpa [hdl] using hm
        exact ⟨m, rfl, hvl, hlev⟩
      obtain ⟨h2, hsub2, hsub3, _⟩ := ih hnext hd hdroot he
      refine ⟨h2, fun s hs => hsub2 (mem_append_left _ (hres ▸ hs)),
        fun i hi => hsub3 (hsub1 hi), fun m hm => hsub3 (hmem1 m hm)⟩

theorem resolveRoot_derived (hunits : RootUnits k0.values k0.vars db) (hr : db r = some c) (hrk : r ∈ k.resolved)
    (h : Rooting k0 db k.analyzed.length k.resolved k) (hconf : RootConflict k0 c)
    (hval : Valued k0.values k0.exportTable.length) (hmem : ∀ m ∈ c.lits, m / 2 ∈ k.analyzed) :
    Entails valuations (clausesOf db k.resolved) ∅ := by
  intro v hv hG
  obtain ⟨m, hm, hvm⟩ := hG (clauseSet c.lits) ⟨r, hrk, c, hr, rfl⟩
  obtain ⟨hvalm, hlev⟩ := hconf m hm
  have hneg := hval.neg_true.mpr hvalm
  obtain ⟨d, hd, hdl⟩ := hunits _ hneg (by rwa [lev_neg])
  have hexp := h.explained (m / 2) (by simpa using hmem m hm)
  have hwhy : why k0.vars (neg m) = (k0.vars (m / 2)).reason := by simp [why]
  rw [hwhy] at hd
  obtain ⟨l, hl, hvl⟩ := hG (clauseSet d.lits) ⟨_, hexp, d, hd, rfl⟩
  obtain rfl : l = neg m := by simpa [clauseSet, hdl] using hl
  exact absurd hvm ((valuations_neg v hv m).mp hvl)

theorem clearMarks_marks (h : ∀ i, k.marks i = true → i ∈ k.analyzed) (i : ℕ) : k.clearMarks.marks i = false := by
  have hfold : ∀ (xs : List ℕ) (marks : ℕ → Bool),
      xs.foldl (fun marks idx => Function.update marks idx false) marks i =
        if i ∈ xs then false else marks i := by
    intro xs
    induction xs with
    | nil => simp
    | cons x xs ih =>
      intro marks
      rw [foldl_cons, ih]
      by_cases hi : i ∈ xs
      · simp [hi]
      · by_cases hix : i = x <;> simp [hi, hix]
  refine (hfold k.analyzed k.marks).trans ?_
  split
  · rfl
  · next hi =>
    cases hm : k.marks i with
    | false => rfl
    | true => exact absurd (h i hm) hi

def RecordsEmpty (k : Kitten) (db : ℕ → Option Klause) : Prop :=
  ∀ r, k.inconsistent = some r → ∃ c, db r = some c ∧ c.lits = []

theorem registerInconsistent_spec (h : Halted k db F) (hr : db r = some c) (hconf : RootConflict k c)
    (he : registerInconsistent fuel k r = some k') (hex : k'.exhausted = false) (ho : k'.referenceOverflow = false) :
    ∃ db', Halted k' db' F ∧ k'.inconsistent.isSome = true ∧ (k.antecedents = true → RecordsEmpty k' db') := by
  have hunsat := hconf.unsat h.running hr
  have hrun := h.running
  have hclean := h.clean
  have hexk := (registerInconsistent_frame he).exhausted hex
  unfold registerInconsistent at he
  split at he
  · next hant =>
    simp only [bind_eq_bind, bind_eq_some_iff] at he
    obtain ⟨k1, hres, he⟩ := he
    have hunits := hrun.rootUnits hexk
    have hroot : ∀ m ∈ c.lits, RootVar k (m / 2) := by
      intro m hm
      obtain ⟨hvm, hlev⟩ := hconf m hm
      exact ⟨neg m, neg_div_two m, hrun.stable.valued.neg_true.mpr hvm, by rwa [lev_neg]⟩
    have hstart : Rooting k db 0 (k.resolved ++ [r]) k :=
      ⟨rfl, fun i => by simp [hclean.marks i, hclean.analyzed], by simp [hclean.analyzed],
        by simp [hclean.resolved], Nat.zero_le _, by simp⟩
    obtain ⟨hR, hsub, _, hmem⟩ := resolveRoot_spec hrun.stable.rep hunits hstart hr hroot hres
    have hder := resolveRoot_derived hunits hr (hsub (by simp)) hR hconf hrun.stable.valued hmem
    have hrun1 : Running k1 db F := by
      rw [hR.same]
      exact ⟨{ hrun.stable with }, hrun.trailed, hrun.rootUnits⟩
    have hklause : k1.klause = [] := by
      rw [hR.same]
      exact hclean.klause
    have hwatches : k1.watches = k.watches := by rw [hR.same]
    have hempty : clauseSet [] = ∅ := by
      ext l
      simp [clauseSet]
    have hadm : Admissible F k1.exportTable.length k1.antecedents db k1.klause k1.resolved := by
      rw [hklause]
      refine ⟨?_, fun _ => hR.resolved, fun _ => hempty ▸ hder, by simp, nodup_nil⟩
      rw [hempty]
      exact unsatisfiable_iff.mp hunsat
    cases hn : k1.newLearnedKlause with
    | mk kl ref =>
      rw [hn] at he
      obtain rfl := some.inj he
      have hmarks : ∀ i, k1.marks i = true → i ∈ k1.analyzed := fun i => (hR.marks i).mp
      rcases newLearnedKlause_cases hrun1.stable.rep hn ho with ⟨rfl, rfl⟩ | ⟨rfl, -, hlen, rfl⟩
      · simp [clearMarks] at hex
      · have hlearn := hrun1.learn hlen hadm
        have hne : k1.klauses.length ≠ INVALID := by
          unfold INVALID
          omega
        refine ⟨k1.learnDb db, ⟨⟨{ hlearn.stable with
            units := ?_
            refuted := fun _ => hunsat
            recorded := fun s hs => ?_ }, hlearn.trailed, hlearn.rootUnits⟩,
          ⟨?_, rfl, hklause, rfl⟩, ?_⟩, rfl, fun _ s hs => ?_⟩
        · exact ⟨hlearn.stable.units.unit, hlearn.stable.units.mem, fun _ _ _ _ => rfl⟩
        · rcases hs with hs | hs
          · obtain rfl : k1.klauses.length = s := by
              simpa [clearMarks, hne] using hs
            exact ⟨_, learnDb_self⟩
          · exact hlearn.stable.recorded s (.inr hs)
        · exact clearMarks_marks (k := k1) hmarks
        · have hpush := (hwatches ▸ h.watched).push hrun1.stable.rep.fresh (c := k1.learnedKlause) hadm.nodup
          exact hpush
        · obtain rfl : k1.klauses.length = s := by
            simpa [clearMarks, hne] using hs
          exact ⟨_, learnDb_self, hklause⟩
  · next hant =>
    obtain rfl := some.inj he
    refine ⟨db, ⟨⟨{ hrun.stable with
        units := ⟨hrun.stable.units.unit, hrun.stable.units.mem, fun _ _ _ _ => rfl⟩
        refuted := fun _ => hunsat
        recorded := fun s hs => ?_ }, hrun.trailed, hrun.rootUnits⟩,
      ⟨hclean.marks, hclean.analyzed, hclean.klause, hclean.resolved⟩, h.watched⟩, rfl,
      fun ht => absurd ht hant⟩
    rcases hs with hs | hs
    · obtain rfl : r = s := by simpa using hs
      exact ⟨c, hr⟩
    · exact hrun.stable.recorded s (.inr hs)

theorem assignUnits_spec {falsified : Option ℕ} (h : Starting k db F)
    (htrue : ∀ s ∈ k.units.take next, ∀ d l, db s = some d → d.lits = [l] → k.values l = 1)
    (he : assignUnits fuel next k = some (k', falsified)) (ho : k'.referenceOverflow = false) :
    ∃ db', Starting k' db' F ∧ (falsified = none → ∀ s ∈ k'.units, ∀ d l, db' s = some d → d.lits = [l] →
    k'.values l = 1) ∧ ∀ r, falsified = some r → ∃ c, db' r = some c ∧ RootConflict k' c := by
  induction fuel generalizing next k db with
  | zero => simp [assignUnits] at he
  | succ fuel ih =>
    have hval := h.running.stable.valued
    simp only [assignUnits] at he
    split at he
    · next hnone =>
      obtain ⟨rfl, rfl⟩ : k = k' ∧ none = falsified := by simpa using he
      have hlen := getElem?_eq_none_iff.mp hnone
      rw [take_of_length_le hlen] at htrue
      exact ⟨db, h, fun _ => htrue, by simp⟩
    · next r hr =>
      obtain ⟨c, l, hc, hl⟩ := h.running.stable.units.unit r (mem_of_getElem? hr)
      have hunit : (k.klauseLits r).getD 0 0 = l := by
        rw [h.running.stable.rep.lits_eq hc, hl]
        rfl
      have hsucc : ∀ s ∈ k.units.take (next + 1), s ∈ k.units.take next ∨ s = r := by
        intro s hs
        rw [take_add_one, hr, mem_append] at hs
        simpa using hs
      rw [hunit] at he
      split at he
      · next hpos =>
        refine ih h (fun s hs d m hd hm => ?_) he
        rcases hsucc s hs with hs | rfl
        · exact htrue s hs d m hd hm
        · obtain rfl : c = d := by simpa [hc] using hd
          obtain rfl : l = m := by simpa [hl] using hm
          have := hval.range l
          omega
      · next hpos =>
        split at he
        · next hneg =>
          obtain ⟨rfl, rfl⟩ : k = k' ∧ some r = falsified := by simpa using he
          refine ⟨db, h, by simp, ?_⟩
          rintro s ⟨rfl⟩
          refine ⟨c, hc, fun m hm => ?_⟩
          obtain rfl : m = l := by simpa [hl] using hm
          have hm1 : k.values m = -1 := (hval.range m).resolve_right (by omega)
          have hle := h.running.trailed.le_level _ (hval.neg_true.mpr hm1)
          rw [lev_neg, h.level] at hle
          exact ⟨hm1, by omega⟩
        · next hneg =>
          have h0 : k.values l = 0 := by omega
          have hlt := h.running.stable.klauses.lits_lt r c hc l (by simp [hl])
          have hcan : CanAssign k db l r := by
            refine .inr ⟨c, hc, by simp [hl], fun m hm hne => ?_⟩
            exact absurd (by simpa [hl] using hm) hne
          have hoa := (assignUnits_frame he).overflow ho
          obtain ⟨db1, hrun1, hclean1, hext, hws1, hasg, hnew⟩ :=
            h.running.assign h.clean h0 hlt hcan hoa
          have h1 : Starting (k.assign l r) db1 F := by
            refine ⟨hrun1, hclean1, ?_, hasg.level.trans h.level, hasg.propagated.trans h.propagated,
              fun m hm => ?_, hasg.inconsistent.trans h.consistent⟩
            · rw [hasg.watches]
              exact hws1 _ h.watched
            · rw [hasg.values, assignValues_eq_one hval h0] at hm
              rw [hasg.trail, mem_append, mem_singleton]
              rcases hm with rfl | hm
              · exact .inr rfl
              · exact .inl (h.mem_of_true m hm)
          have hunits1 : (k.assign l r).units.take (next + 1) = k.units.take (next + 1) := by
            obtain ⟨t, ht⟩ := hasg.units
            rw [ht, take_append_of_le_length (List.getElem?_eq_some_iff.mp hr).1]
          refine ih h1 (fun s hs d m hd hm => ?_) he
          rw [hasg.values, assignValues_eq_one hval h0]
          rw [hunits1] at hs
          rcases hnew s d hd with hd | ⟨hlit, _⟩
          · rcases hsucc s hs with hs | rfl
            · exact .inr (htrue s hs d m hd hm)
            · obtain rfl : c = d := by simpa [hc] using hd
              exact .inl (by simpa [hl] using hm.symm)
          · exact .inl (by simpa [hlit] using hm.symm)

end Nixie.Kitten
