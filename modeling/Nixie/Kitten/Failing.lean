import Nixie.Kitten.Root

/-!
Failed assumptions: a false assumption is traced back to the decisions it follows from.
-/

namespace Nixie.Kitten

open Nixie.Propositional Nixie.Literal List Option Function

variable {k k' : Kitten} {db : ℕ → Option Klause} {F : Set (Set ℕ)} {f l m p q r : ℕ} {c : Klause}
  {s s' : Failing}

structure Scanned (k : Kitten) (s : FailedScan) : Prop where
  first : s.first ≠ INVALID → s.first ∈ k.assumptions ∧ k.values s.first = -1
  unit : s.unit ≠ INVALID → s.unit ∈ k.assumptions ∧ k.values s.unit = -1 ∧ lev k.vars s.unit = 0
  clashing : s.clashing ≠ INVALID → s.clashing ∈ k.assumptions ∧ k.values s.clashing = -1 ∧
    why k.vars s.clashing = INVALID
  settled : s.unit = INVALID → s.first ≠ INVALID →
    lev k.vars s.first ≠ 0 ∧ (s.clashing = INVALID → why k.vars s.first ≠ INVALID)

theorem scanFailed_spec (hv : ∀ l, k.values l = -1 ∨ k.values l = 0 ∨ k.values l = 1) {lits : List ℕ} {s : FailedScan}
    (hlits : ∀ l ∈ lits, l ∈ k.assumptions ∧ l ≠ INVALID) (h : Scanned k s) (hs : s.unit = INVALID) : Scanned k
    (scanFailed k lits s) ∧ (s.first ≠ INVALID ∨ (∃ l ∈ lits, k.values l = -1) → (scanFailed k lits s).first ≠ INVALID)
    := by
  induction lits generalizing s with
  | nil =>
    refine ⟨h, ?_⟩
    rintro (hf | ⟨l, hl, _⟩)
    · exact hf
    · simp at hl
  | cons lit rest ih =>
    obtain ⟨hmem, hne⟩ := hlits lit (by simp)
    have hrest : ∀ l ∈ rest, l ∈ k.assumptions ∧ l ≠ INVALID :=
      fun l hl => hlits l (mem_cons_of_mem _ hl)
    have hrange := hv lit
    simp only [scanFailed]
    split
    · next hpos =>
      obtain ⟨h1, h2⟩ := ih hrest h hs
      refine ⟨h1, fun hor => h2 ?_⟩
      rcases hor with hf | ⟨l, hl, hvl⟩
      · exact .inl hf
      · rcases mem_cons.mp hl with rfl | hl
        · omega
        · exact .inr ⟨l, hl, hvl⟩
    · next hneg =>
      have hlit : k.values lit = -1 := by omega
      -- the first failed literal is set from here on
      have hfirst : ∃ s1 : FailedScan,
          (if s.first = INVALID then { s with first := lit } else s) = s1 ∧ s1.unit = INVALID ∧
            s1.clashing = s.clashing ∧ s1.first ≠ INVALID ∧
            (s1.first = lit ∨ s.first ≠ INVALID ∧ s1.first = s.first) := by
        split
        · exact ⟨_, rfl, hs, rfl, hne, .inl rfl⟩
        · next hf => exact ⟨_, rfl, hs, rfl, hf, .inr ⟨hf, rfl⟩⟩
      obtain ⟨s1, heq, hu1, hc1, hf1, hor1⟩ := hfirst
      have hfirst1 : s1.first ∈ k.assumptions ∧ k.values s1.first = -1 := by
        rcases hor1 with h1 | ⟨h0, h1⟩
        · rw [h1]
          exact ⟨hmem, hlit⟩
        · rw [h1]
          exact h.first h0
      rw [heq]
      split
      · next hlev =>
        refine ⟨⟨fun _ => hfirst1, fun _ => ⟨hmem, hlit, hlev⟩, fun hc => ?_, fun hu => ?_⟩, fun _ => hf1⟩
        · have hsc : s.clashing ≠ INVALID := fun h0 => hc (hc1.trans h0)
          show s1.clashing ∈ _ ∧ _
          rw [hc1]
          exact h.clashing hsc
        · exact absurd hu hne
      · next hlev =>
        have hkeep : s1.first ≠ INVALID ∨ (∃ l ∈ rest, k.values l = -1) := .inl hf1
        split
        · next hcl =>
          have hscan : Scanned k { s1 with clashing := lit } := by
            refine ⟨fun _ => hfirst1, fun hu => absurd hu1 hu, fun _ => ⟨hmem, hlit, hcl.2⟩,
              fun _ _ => ⟨?_, fun h0 => absurd h0 hne⟩⟩
            rcases hor1 with h1 | ⟨h0, h1⟩
            · show lev k.vars s1.first ≠ 0
              rw [h1]
              exact hlev
            · show lev k.vars s1.first ≠ 0
              rw [h1]
              exact (h.settled hs h0).1
          obtain ⟨h1, h2⟩ := ih hrest hscan hu1
          exact ⟨h1, fun _ => h2 hkeep⟩
        · next hcl =>
          have hscan : Scanned k s1 := by
            refine ⟨fun _ => hfirst1, fun hu => absurd hu1 hu, fun hc => ?_, fun _ _ => ?_⟩
            · rw [hc1] at hc ⊢
              exact h.clashing hc
            · rcases hor1 with h1 | ⟨h0, h1⟩
              · rw [h1]
                exact ⟨hlev, fun h0 hw => hcl ⟨h0, hw⟩⟩
              · rw [h1, hc1]
                exact h.settled hs h0
          obtain ⟨h1, h2⟩ := ih hrest hscan hu1
          exact ⟨h1, fun _ => h2 hkeep⟩

structure Tracing (k : Kitten) (q : ℕ) (s : Failing) : Prop where
  same : s.kitten = { k with
    marks := s.kitten.marks
    analyzed := s.kitten.analyzed
    klause := s.kitten.klause
    resolved := s.kitten.resolved
    failed := s.kitten.failed }
  marks : ∀ i, s.kitten.marks i = true ↔ i ∈ s.kitten.analyzed
  open_eq : s.open = openCount s.kitten.marks k.vars (· != 0) (k.trail.take q)
  work : ∀ i, i ∈ s.work ↔ s.kitten.marks i = true ∧ (k.vars i).level = 0
  assigned : ∀ i, s.kitten.marks i = true → k.values (2 * i) ≠ 0

/-- Marked literals past position `q` are decisions in the pending klause or have their reasons
among the klauses resolved. -/
structure Traced (k : Kitten) (db : ℕ → Option Klause) (f q : ℕ) (s : Failing) : Prop where
  self : s.kitten.marks (f / 2) = true
  failed : neg f ∈ s.kitten.klause
  resolved : ∀ r ∈ s.kitten.resolved, ∃ c, db r = some c ∧ ∀ m ∈ c.lits, s.kitten.marks (m / 2) = true
  explained : ∀ l ∈ k.trail.drop q, s.kitten.marks (l / 2) = true →
    why k.vars l = INVALID ∧ neg l ∈ s.kitten.klause ∨ why k.vars l ∈ s.kitten.resolved
  nodup : s.kitten.klause.Nodup
  klause : ∀ l ∈ s.kitten.klause, s.kitten.failed (neg l) = true ∧
    (l = neg f ∨ neg l ∈ k.trail.drop q ∧ why k.vars (neg l) = INVALID)

def Reachable (k : Kitten) (q m : ℕ) : Prop :=
  k.values m = -1 ∧ (lev k.vars m = 0 ∨ neg m ∈ k.trail.take q)

theorem failingLit_spec (hrun : Running k db F) (hroot : ∀ l ∈ k.trail, 0 < lev k.vars l)
    (h : Tracing k q s) (hm : s.kitten.marks (m / 2) = true ∨ Reachable k q m) :
    Tracing k q (failingLit s m) ∧
      (∀ i, (failingLit s m).kitten.marks i = true ↔ s.kitten.marks i = true ∨ i = m / 2) ∧
      (failingLit s m).kitten = { s.kitten with
        marks := (failingLit s m).kitten.marks
        analyzed := (failingLit s m).kitten.analyzed } := by
  have hvars : s.kitten.vars = k.vars := by rw [h.same]
  have hval := hrun.stable.valued
  unfold failingLit
  dsimp only
  split
  · next hmark =>
    refine ⟨h, fun i => ⟨.inl, ?_⟩, rfl⟩
    rintro (hi | rfl)
    · exact hi
    · exact hmark
  · next hmark =>
    obtain ⟨hvm, hloc⟩ := hm.resolve_left hmark
    have hmark' : s.kitten.marks (m / 2) = false := by simpa using hmark
    have hmarks : ∀ i, update s.kitten.marks (m / 2) true i = true ↔ s.kitten.marks i = true ∨ i = m / 2 := fun _ =>
      update_true_iff
    have hmem : ∀ i, update s.kitten.marks (m / 2) true i = true ↔ i ∈ s.kitten.analyzed ++ [m / 2] := fun _ =>
      update_true_iff_mem h.marks
    have hassigned : ∀ i, update s.kitten.marks (m / 2) true i = true →
        k.values (2 * i) ≠ 0 := by
      intro i hi
      rcases (hmarks i).mp hi with hi | rfl
      · exact h.assigned i hi
      · exact hrun.values_ne_zero hvm
    have hlev : (s.kitten.vars (m / 2)).level = lev k.vars m := by rw [hvars]; rfl
    rw [hlev]
    split
    · next hpos =>
      have hin : neg m ∈ k.trail.take q := hloc.resolve_left (by omega)
      refine ⟨⟨?_, hmem, ?_, fun i => ?_, hassigned⟩, hmarks, rfl⟩
      · conv_lhs => rw [h.same]
      · show s.open + 1 = _
        have hnd := (hrun.trailed.nodup_div hval).sublist ((take_sublist q _).map (· / 2))
        have hcount : openCount (update s.kitten.marks (neg m / 2) true) k.vars
            (· != 0) (k.trail.take q) = _ :=
          openCount_mark hin hnd (by simpa using hmark') (by rw [lev_neg, bne_iff_ne]; omega)
        rw [neg_div_two] at hcount
        rw [hcount, h.open_eq]
      · show i ∈ s.work ↔ _
        rw [h.work, hmarks]
        constructor
        · rintro ⟨h1, h2⟩
          exact ⟨.inl h1, h2⟩
        · rintro ⟨h1 | rfl, h2⟩
          · exact ⟨h1, h2⟩
          · have : lev k.vars m = 0 := h2
            omega
    · next hpos =>
      have h0 : lev k.vars m = 0 := by omega
      refine ⟨⟨?_, hmem, ?_, fun i => ?_, hassigned⟩, hmarks, rfl⟩
      · conv_lhs => rw [h.same]
      · show s.open = _
        rw [h.open_eq, openCount_mark_other fun l hl hdiv => ?_]
        have hl' := mem_of_mem_take hl
        have := hroot l hl'
        rw [hrun.eq_neg hvm hl' hdiv, lev_neg] at this
        omega
      · show i ∈ s.work ++ [m / 2] ↔ _
        rw [mem_append, mem_singleton, h.work, hmarks]
        constructor
        · rintro (⟨h1, h2⟩ | rfl)
          · exact ⟨.inl h1, h2⟩
          · exact ⟨.inr rfl, h0⟩
        · rintro ⟨h1 | rfl, h2⟩
          · exact .inl ⟨h1, h2⟩
          · exact .inr rfl

theorem failingLits_spec (hrun : Running k db F) (hroot : ∀ l ∈ k.trail, 0 < lev k.vars l)
    {lits : List ℕ} (h : Tracing k q s)
    (hm : ∀ m ∈ lits, s.kitten.marks (m / 2) = true ∨ Reachable k q m) :
    Tracing k q (lits.foldl failingLit s) ∧
      (∀ i, (lits.foldl failingLit s).kitten.marks i = true ↔
        s.kitten.marks i = true ∨ ∃ m ∈ lits, i = m / 2) ∧
      (lits.foldl failingLit s).kitten = { s.kitten with
        marks := (lits.foldl failingLit s).kitten.marks
        analyzed := (lits.foldl failingLit s).kitten.analyzed } := by
  induction lits generalizing s with
  | nil => exact ⟨h, by simp, rfl⟩
  | cons m lits ih =>
    obtain ⟨h1, hmarks1, hsame1⟩ := failingLit_spec hrun hroot h (hm m (by simp))
    obtain ⟨h2, hmarks2, hsame2⟩ := ih h1 fun l hl => by
      rcases hm l (mem_cons_of_mem _ hl) with hl | hl
      · exact .inl ((hmarks1 _).mpr (.inl hl))
      · exact .inr hl
    refine ⟨h2, fun i => ?_, ?_⟩
    · rw [foldl_cons, hmarks2, hmarks1]
      simp only [mem_cons]
      constructor
      · rintro ((hi | rfl) | ⟨l, hl, rfl⟩)
        · exact .inl hi
        · exact .inr ⟨m, .inl rfl, rfl⟩
        · exact .inr ⟨l, .inr hl, rfl⟩
      · rintro (hi | ⟨l, rfl | hl, rfl⟩)
        · exact .inl (.inl hi)
        · exact .inl (.inr rfl)
        · exact .inr ⟨l, hl, rfl⟩
    · rw [foldl_cons]
      conv_lhs => rw [hsame2, hsame1]

theorem failDecision_eq {i : ℕ} (hv : Valued k.values k.exportTable.length) (hl : k.values l = 1)
    (hi : l / 2 = i) :
    k.failDecision i =
      { k with failed := update k.failed l true, klause := k.klause ++ [neg l] } := by
  have hlit : (if k.values (2 * i) < 0 then neg (2 * i) else 2 * i) = l := by
    rcases eq_or_eq_neg (a := 2 * i) (b := l) (by omega) with h | h
    · rw [h, hl]
      rfl
    · have hneg : k.values (neg l) = -1 := by rw [hv.neg, hl]
      rw [h, hneg, neg_neg]
      rfl
  unfold failDecision
  rw [hlit]

theorem Tracing.pass (h : Tracing k (q + 1) s) {candidate : ℕ}
    (hcand : k.trail[q]? = some candidate) (hpos : 0 < lev k.vars candidate) :
    openCount s.kitten.marks k.vars (· != 0) (k.trail.take q) =
      if s.kitten.marks (candidate / 2) then s.open - 1 else s.open := by
  have htake := take_succ_of_get hcand
  have hself : openCount s.kitten.marks k.vars (· != 0) [candidate] =
      if s.kitten.marks (candidate / 2) then 1 else 0 := by
    have hne : (lev k.vars candidate != 0) = true := by
      rw [bne_iff_ne]
      omega
    split <;> simp_all [openCount]
  have hopen := h.open_eq
  rw [htake, openCount_append, hself] at hopen
  split_ifs at hopen ⊢ <;> omega

theorem Traced.decision (hrun : Running k db F) (hT : Traced k db f (q + 1) s)
    {candidate : ℕ} (hcand : k.trail[q]? = some candidate) (hf : k.values f = -1)
    (hwhy : why k.vars candidate = INVALID) {n : ℕ} {ws : List ℕ} :
    Traced k db f q ⟨{ s.kitten with
      failed := Function.update s.kitten.failed candidate true
      klause := s.kitten.klause ++ [neg candidate] }, n, ws⟩ := by
  have hdrop := drop_of_get hcand
  have hone := hrun.trailed.true_of_mem candidate (mem_of_getElem? hcand)
  have hnew : neg candidate ∉ s.kitten.klause := by
    intro hmem
    rcases (hT.klause _ hmem).2 with heq | ⟨hin, _⟩
    · rw [neg_inj] at heq
      rw [heq, hf] at hone
      omega
    · rw [neg_neg] at hin
      have hnd := hrun.trailed.nodup.sublist (drop_sublist q k.trail)
      rw [hdrop, nodup_cons] at hnd
      exact hnd.1 hin
  refine ⟨hT.self, mem_append_left _ hT.failed, hT.resolved, fun l hl hml => ?_, ?_, fun l hl => ?_⟩
  · rw [hdrop, mem_cons] at hl
    rcases hl with rfl | hl
    · exact .inl ⟨hwhy, by simp⟩
    · rcases hT.explained l hl hml with ⟨h1, h2⟩ | h1
      · exact .inl ⟨h1, mem_append_left _ h2⟩
      · exact .inr h1
  · exact List.Nodup.append hT.nodup (by simp) (by simpa using hnew)
  · rcases List.mem_append.mp hl with hl | hl
    · obtain ⟨h1, h2⟩ := hT.klause l hl
      refine ⟨?_, ?_⟩
      · by_cases heq : neg l = candidate
        · simp [heq]
        · simp [heq, h1]
      · rcases h2 with h2 | ⟨h2, h3⟩
        · exact .inl h2
        · exact .inr ⟨by rw [hdrop]; exact mem_cons_of_mem _ h2, h3⟩
    · obtain rfl : l = neg candidate := by simpa using hl
      refine ⟨by simp, .inr ⟨?_, ?_⟩⟩
      · rw [neg_neg, hdrop]
        exact mem_cons_self
      · rwa [neg_neg]

theorem Traced.reason (hrun : Running k db F) (hroot : ∀ l ∈ k.trail, 0 < lev k.vars l) (hT : Traced k db f (q + 1) s)
    {candidate : ℕ} (hcand : k.trail[q]? = some candidate) (hc : db (why k.vars candidate) = some c)
    (hm : ∀ m ∈ c.lits, s.kitten.marks (m / 2) = true ∨ Reachable k q m)
    (hmarks : ∀ i, s'.kitten.marks i = true ↔ s.kitten.marks i = true ∨ ∃ m ∈ c.lits, i = m / 2)
    (hres : s'.kitten.resolved = s.kitten.resolved ++ [why k.vars candidate])
    (hkl : s'.kitten.klause = s.kitten.klause) (hfl : s'.kitten.failed = s.kitten.failed) : Traced k db f q s' := by
  have hdrop := drop_of_get hcand
  have hmono : ∀ i, s.kitten.marks i = true → s'.kitten.marks i = true :=
    fun i hi => (hmarks i).mpr (.inl hi)
  -- what is newly marked lies below `q` or off the trail
  have hold : ∀ l ∈ k.trail.drop (q + 1), s'.kitten.marks (l / 2) = true →
      s.kitten.marks (l / 2) = true := by
    intro l hl hml
    rcases (hmarks _).mp hml with hml | ⟨m, hmc, hdiv⟩
    · exact hml
    · rcases hm m hmc with hmm | ⟨hvm, hloc⟩
      · rwa [hdiv]
      · exfalso
        have hlt := mem_of_mem_drop hl
        have hvl := hrun.trailed.true_of_mem l hlt
        obtain rfl : l = neg m := by
          rcases eq_or_eq_neg hdiv with rfl | h
          · omega
          · exact h
        rcases hloc with h0 | hin
        · have := hroot _ hlt
          rw [lev_neg] at this
          omega
        · have hnd := hrun.trailed.nodup
          rw [← take_append_drop q k.trail] at hnd
          exact disjoint_of_nodup_append hnd hin (by rw [hdrop]; exact mem_cons_of_mem _ hl)
  refine ⟨hmono _ hT.self, hkl ▸ hT.failed, fun r hr => ?_, fun l hl hml => ?_, hkl ▸ hT.nodup, fun l hl => ?_⟩
  · rw [hres, mem_append, mem_singleton] at hr
    rcases hr with hr | rfl
    · obtain ⟨d, hd, hdm⟩ := hT.resolved r hr
      exact ⟨d, hd, fun m hmd => hmono _ (hdm m hmd)⟩
    · exact ⟨c, hc, fun m hmc => (hmarks _).mpr (.inr ⟨m, hmc, rfl⟩)⟩
  · rw [hkl, hres, mem_append, mem_singleton]
    rw [hdrop, mem_cons] at hl
    rcases hl with rfl | hl
    · exact .inr (.inr rfl)
    · rcases hT.explained l hl (hold l hl hml) with h1 | h1
      · exact .inl h1
      · exact .inr (.inl h1)
  · rw [hkl] at hl
    rw [hfl]
    obtain ⟨h1, h2⟩ := hT.klause l hl
    refine ⟨h1, h2.imp_right fun h2 => ⟨?_, h2.2⟩⟩
    rw [hdrop]
    exact mem_cons_of_mem _ h2.1

theorem failingWalk_spec (hrun : Running k db F) (hroot : ∀ l ∈ k.trail, 0 < lev k.vars l) (hf : k.values f = -1)
    (h : Tracing k q s) (hT : Traced k db f q s) (he : failingWalk q s = some s') :
    ∃ q', Tracing k q' s' ∧ Traced k db f q' s' ∧ s'.open = 0 := by
  induction q generalizing s with
  | zero =>
    unfold failingWalk at he
    split at he
    · next h0 =>
      obtain rfl := Option.some.inj he
      exact ⟨0, h, hT, h0⟩
    · simp at he
  | succ q ih =>
    unfold failingWalk at he
    split at he
    · next h0 =>
      obtain rfl := Option.some.inj he
      exact ⟨q + 1, h, hT, h0⟩
    · have htrail : s.kitten.trail = k.trail := by rw [h.same]
      have hvars : s.kitten.vars = k.vars := by rw [h.same]
      have hvalues : s.kitten.values = k.values := by rw [h.same]
      dsimp only at he
      rw [htrail] at he
      split at he
      · simp at he
      · next candidate hcand =>
        have hmem := mem_of_getElem? hcand
        have hone := hrun.trailed.true_of_mem candidate hmem
        have hpass := h.pass hcand (hroot candidate hmem)
        have hsplit := split_of_get hcand
        split at he
        · next hmark =>
          rw [if_pos hmark] at hpass
          have h' : Tracing k q { s with «open» := s.open - 1 } := ⟨h.same, h.marks, hpass.symm, h.work, h.assigned⟩
          have hreason : (s.kitten.vars (candidate / 2)).reason = why k.vars candidate := by
            rw [hvars]
            rfl
          rcases hrun.trailed.justified _ _ _ hsplit with ⟨hwhy, _, _⟩ | ⟨c, hc, hfc⟩
          · have hvar : failingVar { s with «open» := s.open - 1 } (candidate / 2) =
                ⟨{ s.kitten with
                  failed := Function.update s.kitten.failed candidate true
                  klause := s.kitten.klause ++ [neg candidate] }, s.open - 1, s.work⟩ := by
              unfold failingVar
              dsimp only
              rw [hreason, if_pos hwhy, failDecision_eq (l := candidate) ?_ ?_ rfl]
              · rw [h.same]
                exact hrun.stable.valued
              · rwa [hvalues]
            rw [hvar] at he
            have hpend : Tracing k q ⟨{ s.kitten with
                failed := Function.update s.kitten.failed candidate true
                klause := s.kitten.klause ++ [neg candidate] }, s.open - 1, s.work⟩ := by
              refine ⟨?_, h.marks, hpass.symm, h.work, h.assigned⟩
              conv_lhs => rw [h.same]
            exact ih hpend (hT.decision hrun hcand hf hwhy) he
          · have hne := hrun.stable.rep.ne_invalid hc
            have hm : ∀ m ∈ c.lits, s.kitten.marks (m / 2) = true ∨ Reachable k q m := by
              intro m hmc
              by_cases hmcand : m = candidate
              · exact .inl (hmcand ▸ hmark)
              · exact .inr (hfc.2 m hmc hmcand)
            have hpend : Tracing k q ⟨{ s.kitten with
                resolved := s.kitten.resolved ++ [why k.vars candidate] }, s.open - 1, s.work⟩ := by
              refine ⟨?_, h.marks, hpass.symm, h.work, h.assigned⟩
              conv_lhs => rw [h.same]
            have hrep : Represents s.kitten.klauses db := by
              rw [h.same]
              exact hrun.stable.rep
            have hvar : failingVar { s with «open» := s.open - 1 } (candidate / 2) =
                c.lits.foldl failingLit ⟨{ s.kitten with
                  resolved := s.kitten.resolved ++ [why k.vars candidate] }, s.open - 1, s.work⟩ := by
              unfold failingVar
              dsimp only
              rw [hreason, if_neg hne]
              congr 1
              exact hrep.lits_eq (k := { s.kitten with
                resolved := s.kitten.resolved ++ [why k.vars candidate] }) hc
            rw [hvar] at he
            obtain ⟨h2, hmarks2, hsame2⟩ := failingLits_spec hrun hroot hpend hm
            refine ih h2 (hT.reason hrun hroot hcand hc hm hmarks2 ?_ ?_ ?_) he
            · rw [hsame2]
            · rw [hsame2]
            · rw [hsame2]
        · next hmark =>
          rw [if_neg hmark] at hpass
          have hdrop := drop_of_get hcand
          refine ih ⟨h.same, h.marks, hpass.symm, h.work, h.assigned⟩
            ⟨hT.self, hT.failed, hT.resolved, fun l hl hml => ?_, hT.nodup, fun l hl => ?_⟩ he
          · rw [hdrop, mem_cons] at hl
            rcases hl with rfl | hl
            · exact absurd hml hmark
            · exact hT.explained l hl hml
          · obtain ⟨h1, h2⟩ := hT.klause l hl
            refine ⟨h1, h2.imp_right fun h2 => ⟨?_, h2.2⟩⟩
            rw [hdrop]
            exact mem_cons_of_mem _ h2.1

theorem failingRoots_eq {work : List ℕ} (h : ∀ i ∈ work, (k.vars i).reason ≠ INVALID) :
    work.foldl failingRoot k =
      { k with resolved := k.resolved ++ work.map fun i => (k.vars i).reason } := by
  induction work generalizing k with
  | nil => simp
  | cons i work ih =>
    have hi : k.failingRoot i = { k with resolved := k.resolved ++ [(k.vars i).reason] } := by
      simp [failingRoot, h i (by simp)]
    have hrest : ∀ j ∈ work, (k.vars j).reason ≠ INVALID :=
      fun j hj => h j (mem_cons_of_mem _ hj)
    rw [foldl_cons, hi, ih (k := { k with resolved := k.resolved ++ [(k.vars i).reason] }) hrest]
    simp

def explanation (k : Kitten) (s : Failing) : List ℕ :=
  s.kitten.resolved ++ s.work.map fun i => (k.vars i).reason

theorem Tracing.why_ne (hrun : Running k db F) (hunits : RootUnits k.values k.vars db)
    (hl : k.values l = 1) (hlev : lev k.vars l = 0) : why k.vars l ≠ INVALID := by
  obtain ⟨c, hc, _⟩ := hunits l hl hlev
  exact hrun.stable.rep.ne_invalid hc

theorem Tracing.mem_drop (hrun : Running k db F) (h : Tracing k q s) (h0 : s.open = 0) (hl : k.values l = 1)
    (hlev : lev k.vars l ≠ 0) (hm : s.kitten.marks (l / 2) = true) : l ∈ k.trail.drop q := by
  have hmem : l ∈ k.trail := by
    by_contra hmem
    exact hlev (hrun.trailed.root l hl hmem)
  rw [← take_append_drop q k.trail, mem_append] at hmem
  refine hmem.resolve_left fun hin => ?_
  have hnone := countP_eq_zero.mp (h.open_eq.symm.trans h0) l hin
  simp [hm, hlev] at hnone

theorem failing_entailed (hrun : Running k db F) (hunits : RootUnits k.values k.vars db) (hf : k.values f = -1)
    (hwhy : why k.vars f ≠ INVALID) (h : Tracing k q s) (hT : Traced k db f q s) (h0 : s.open = 0) :
    Entails valuations (clausesOf db (explanation k s)) (clauseSet s.kitten.klause) := by
  have hval := hrun.stable.valued
  let K : Set ℕ := {t | k.values t = 1 ∧ s.kitten.marks (t / 2) = true ∧ why k.vars t = INVALID}
  let S : Set ℕ := {t | k.values t = 1 ∧ s.kitten.marks (t / 2) = true ∧ why k.vars t ≠ INVALID}
  let rank : ℕ → ℕ := fun t => if lev k.vars t = 0 then 0 else k.trail.idxOf t + 1
  have himplied : Implied neg rank (clausesOf db (explanation k s)) K S := by
    rintro t ⟨hvt, hmt, hwt⟩
    by_cases hlev : lev k.vars t = 0
    · -- a root literal has a unit klause
      obtain ⟨c, hc, hcl⟩ := hunits t hvt hlev
      refine ⟨clauseSet c.lits, ⟨why k.vars t, ?_, c, hc, rfl⟩, fun m hm => .inl ?_⟩
      · exact mem_append_right _ (mem_map_of_mem ((h.work _).mpr ⟨hmt, hlev⟩))
      · simpa [clauseSet, hcl] using hm
    · have hdrop := h.mem_drop hrun h0 hvt hlev hmt
      obtain ⟨_, hres⟩ | hres := hT.explained t hdrop hmt
      · exact absurd ‹_› hwt
      · obtain ⟨c, hc, hmarked⟩ := hT.resolved _ hres
        refine ⟨clauseSet c.lits, ⟨_, mem_append_left _ hres, c, hc, rfl⟩, fun m hm => ?_⟩
        by_cases hmt' : m = t
        · exact .inl hmt'
        · right
          obtain ⟨pre, post, hsplit⟩ := append_of_mem (mem_of_mem_drop hdrop)
          rcases hrun.trailed.justified pre t post hsplit with ⟨hinv, _⟩ | ⟨d, hd, hfc⟩
          · exact absurd hinv hwt
          · obtain rfl : c = d := by simpa [hc] using hd
            obtain ⟨hvm, hloc⟩ := hfc.2 m hm hmt'
            have hneg := hval.neg_true.mpr hvm
            have hmm : s.kitten.marks (neg m / 2) = true := by
              rw [neg_div_two]
              exact hmarked m hm
            refine ⟨neg m, (neg_neg m).symm, ?_⟩
            by_cases hwm : why k.vars (neg m) = INVALID
            · exact .inl ⟨hneg, hmm, hwm⟩
            · refine .inr ⟨⟨hneg, hmm, hwm⟩, ?_⟩
              simp only [rank, lev_neg, hlev, if_false]
              split
              · omega
              · next hlm =>
                have := idxOf_lt_of_split hrun.trailed.nodup hsplit (hloc.resolve_left hlm)
                omega
  have hself : neg f ∈ S := ⟨hval.neg_true.mpr hf, by rw [neg_div_two]; exact hT.self, by simpa [why] using hwhy⟩
  refine (himplied.entails_lit valuations_neg hself).weaken ?_
  rintro _ (rfl | ⟨t, ⟨hvt, hmt, hwt⟩, rfl⟩)
  · exact hT.failed
  · have hlev : lev k.vars t ≠ 0 := fun hlev => Tracing.why_ne hrun hunits hvt hlev hwt
    rcases hT.explained t (h.mem_drop hrun h0 hvt hlev hmt) hmt with ⟨_, hin⟩ | hres
    · exact hin
    · obtain ⟨c, hc, _⟩ := hT.resolved _ hres
      exact absurd hwt (hrun.stable.rep.ne_invalid hc)

def FailureRecorded (k : Kitten) (db : ℕ → Option Klause) : Prop :=
  (∃ f, (f ∈ k.assumptions ∧ k.failed f = true) ∧ neg f ∈ k.assumptions ∧ k.failed (neg f) = true) ∨
    ∃ r c ls, k.failing = some r ∧ db r = some c ∧
      Entails valuations {clauseSet c.lits} (clauseSet ls) ∧
      ∀ l ∈ ls, neg l ∈ k.assumptions ∧ k.failed (neg l) = true

theorem FailureRecorded.unsat {A : Set (Set ℕ)} (h : FailureRecorded k db)
    (hF : ∀ r c, k.failing = some r → db r = some c → Entails valuations F (clauseSet c.lits))
    (hA : ∀ a ∈ k.assumptions, k.failed a = true → {a} ∈ A) : Unsatisfiable valuations (F ∪ A) := by
  intro v hv hs
  have hass : ∀ a ∈ k.assumptions, k.failed a = true → v a := by
    intro a ha hfa
    obtain ⟨_, rfl, hva⟩ := hs {a} (Set.mem_union_right _ (hA a ha hfa))
    exact hva
  rcases h with ⟨f, ⟨h1, h2⟩, h3, h4⟩ | ⟨r, c, ls, hr, hc, hent, hls⟩
  · exact (valuations_neg v hv f).mp (hass _ h3 h4) (hass f h1 h2)
  · have hlits := hF r c hr hc v hv fun C hC => hs C (Set.mem_union_left _ hC)
    obtain ⟨l, hl, hvl⟩ := hent v hv fun C hC => hC ▸ hlits
    obtain ⟨h1, h2⟩ := hls l hl
    exact (valuations_neg v hv l).mp (hass _ h1 h2) hvl

theorem failingCore_cases (k : Kitten) :
    (∃ reason, k.resolved = [reason] ∧
      k.failingCore = { k with failing := some reason, resolved := [], klause := [] }) ∨
    k.failingCore =
      { (if k.newLearnedKlause.2 = INVALID then k.newLearnedKlause.1
          else { k.newLearnedKlause.1 with failing := some k.newLearnedKlause.2 } : Kitten) with
        resolved := []
        klause := [] } := by
  unfold failingCore
  split
  · next reason hres => exact .inl ⟨reason, hres, rfl⟩
  · exact .inr rfl

theorem failingCore_spec (hrun : Running k db F) (hw : Watched k.watches db) (hi : k.inconsistent = none)
    (hmarks : ∀ i, k.marks i = false) (ha : k.analyzed = []) (hne : k.klause ≠ [])
    (hadm : Admissible F k.exportTable.length true db k.klause k.resolved) (hex : k.failingCore.exhausted = false)
    (ho : k.failingCore.referenceOverflow = false) : ∃ db', Halted k.failingCore db' F ∧
    k.failingCore.inconsistent = none ∧ k.failingCore.failed = k.failed ∧ ∃ r c, k.failingCore.failing = some r ∧
    db' r = some c ∧ Entails valuations {clauseSet c.lits} (clauseSet k.klause) := by
  rcases failingCore_cases k with ⟨reason, hres, heq⟩ | heq
  all_goals rw [heq] at hex ho ⊢
  · obtain ⟨d, hd⟩ := hadm.older rfl reason (by simp [hres])
    refine ⟨db, ⟨⟨{ hrun.stable with recorded := fun s hs => ?_ }, hrun.trailed, hrun.rootUnits⟩,
      ⟨hmarks, ha, rfl, rfl⟩, hw⟩, hi, rfl, reason, d, rfl, hd, (hadm.derived rfl).mono ?_⟩
    · rcases hs with hs | hs
      · exact hrun.stable.recorded s (.inl hs)
      · obtain rfl : reason = s := by simpa using hs
        exact ⟨d, hd⟩
    · rintro _ ⟨s, hs, d', hd', rfl⟩
      obtain rfl : s = reason := by simpa [hres] using hs
      obtain rfl : d = d' := by simpa [hd] using hd'
      rfl
  · cases hn : k.newLearnedKlause with
    | mk kl ref =>
      rw [hn] at hex ho
      dsimp only at hex ho ⊢
      have hol : kl.referenceOverflow = false := by
        split at ho <;> exact ho
      have hadm' : Admissible F k.exportTable.length k.antecedents db k.klause k.resolved :=
        { hadm with older := fun _ => hadm.older rfl, derived := fun _ => hadm.derived rfl }
      rcases newLearnedKlause_cases hrun.stable.rep hn hol with ⟨rfl, rfl⟩ | ⟨rfl, hex', hlen, rfl⟩
      · simp at hex
      · have hne' : k.klauses.length ≠ INVALID := by
          unfold INVALID
          omega
        have hlearn := hrun.learn hlen hadm'
        rw [if_neg hne']
        refine ⟨k.learnDb db, ⟨⟨{ hlearn.stable with recorded := fun s hs => ?_ }, hlearn.trailed,
          hlearn.rootUnits⟩, ⟨hmarks, ha, rfl, rfl⟩, ?_⟩, ?_, rfl, k.klauses.length, k.learnedKlause,
          rfl, learnDb_self, Entails.of_mem rfl⟩
        · rcases hs with hs | hs
          · exact hlearn.stable.recorded s (.inl hs)
          · obtain rfl : k.klauses.length = s := by simpa using hs
            exact ⟨_, learnDb_self⟩
        · exact hw.push hrun.stable.rep.fresh (c := k.learnedKlause) hadm.nodup
        · show inconsistentWith k.inconsistent k.klauses.length k.klause = none
          rw [hi]
          cases hk : k.klause with
          | nil => exact absurd hk hne
          | cons => rfl

theorem traced_assumption (h : Searching k db F p) (hlev : k.level ≤ k.assumptions.length)
    (hl : k.values l = 1) (hw : why k.vars l = INVALID) : l ∈ k.assumptions := by
  refine h.assuming.decided l hl hw ?_
  have := h.running.trailed.le_level l hl
  omega

/-- The search behind a false assumption begins with the assumption itself. -/
def failingStart (k : Kitten) (f : ℕ) : Failing :=
  ⟨{ k with
    failed := update k.failed f true
    marks := update k.marks (f / 2) true
    analyzed := k.analyzed ++ [f / 2]
    klause := k.klause ++ [neg f] }, 1, []⟩

theorem Searching.failingStart (h : Searching k db F p) (hf : k.values f = -1) (hf0 : lev k.vars f ≠ 0) :
    Tracing k k.trail.length (k.failingStart f) ∧ Traced k db f k.trail.length (k.failingStart f) := by
  have hrun := h.running
  have hval := hrun.stable.valued
  have hclean := h.clean
  have hmark : ∀ i, update k.marks (f / 2) true i = true ↔ i = f / 2 := by
    simp [update_true_iff, hclean.marks]
  have hmem : neg f ∈ k.trail := by
    by_contra hmem
    have := hrun.trailed.root _ (hval.neg_true.mpr hf) hmem
    rw [lev_neg] at this
    exact hf0 this
  have hcount : openCount (update k.marks (neg f / 2) true) k.vars (· != 0) k.trail =
      openCount k.marks k.vars (· != 0) k.trail + 1 :=
    openCount_mark hmem (hrun.trailed.nodup_div hval) (hclean.marks _)
      (by rw [lev_neg, bne_iff_ne]; exact hf0)
  have hzero : openCount k.marks k.vars (· != 0) k.trail = 0 :=
    countP_eq_zero.mpr fun l _ => by simp [hclean.marks (l / 2)]
  rw [neg_div_two, hzero] at hcount
  constructor
  · refine ⟨rfl, fun i => ?_, by rw [take_length]; exact hcount.symm, fun i => ?_, fun i hi => ?_⟩
    · exact (hmark i).trans (by simp [Kitten.failingStart, hclean.analyzed])
    · refine Iff.trans ?_ (and_congr_left' (hmark i)).symm
      constructor
      · simp [Kitten.failingStart]
      · rintro ⟨rfl, h0⟩
        exact absurd h0 hf0
    · obtain rfl := (hmark i).mp hi
      exact hrun.values_ne_zero hf
  · refine ⟨by simp [Kitten.failingStart], by simp [Kitten.failingStart],
      by simp [Kitten.failingStart, hclean.resolved], by simp, by simp [Kitten.failingStart, hclean.klause],
      fun l hl => ?_⟩
    obtain rfl : l = neg f := by simpa [Kitten.failingStart, hclean.klause] using hl
    exact ⟨by simp [Kitten.failingStart], .inl rfl⟩

/-- A marked root variable was assigned by a klause. -/
theorem Tracing.reason_of_root (hval : Valued k.values n) (hunits : RootUnits k.values k.vars db)
    (h : Tracing k q s) {i : ℕ} (hi : s.kitten.marks i = true) (hlevel : (k.vars i).level = 0) :
    ∃ c, db (k.vars i).reason = some c := by
  obtain ⟨t, rfl, ht⟩ : ∃ t, t / 2 = i ∧ k.values t = 1 := by
    have hrange := hval.range (2 * i)
    have hne := h.assigned i hi
    by_cases h1 : k.values (2 * i) = 1
    · exact ⟨2 * i, by omega, h1⟩
    · exact ⟨neg (2 * i), by rw [neg_div_two]; omega, hval.neg_true.mpr (by omega)⟩
  obtain ⟨c, hc, _⟩ := hunits t ht hlevel
  exact ⟨c, hc⟩

theorem Traced.neg_assumption (h : Searching k db F p) (hlev : k.level ≤ k.assumptions.length)
    (hfa : f ∈ k.assumptions) (hf : k.values f = -1) (hT : Traced k db f q s) {l : ℕ} (hl : l ∈ s.kitten.klause) :
    k.values (neg l) ≠ 0 ∧ neg l ∈ k.assumptions := by
  rcases (hT.klause l hl).2 with rfl | ⟨hin, hw⟩
  · rw [neg_neg]
    exact ⟨by omega, hfa⟩
  · have hone := h.running.trailed.true_of_mem _ (mem_of_mem_drop hin)
    exact ⟨by omega, traced_assumption h hlev hone hw⟩

theorem failAssumptions_trace (h : Searching k db F p) (hlev : k.level ≤ k.assumptions.length)
    (hfa : f ∈ k.assumptions) (hf : k.values f = -1) (hf0 : lev k.vars f ≠ 0)
    (hwhy : why k.vars f ≠ INVALID) (hexk : k.exhausted = false)
    (he : failingWalk k.trail.length (k.failingStart f) = some s)
    (hk : k' = failingCore (clearMarks (s.work.foldl failingRoot s.kitten)))
    (hex : k'.exhausted = false) (ho : k'.referenceOverflow = false) :
    ∃ db', Halted k' db' F ∧ k'.inconsistent = none ∧ FailureRecorded k' db' := by
  have hrun := h.running
  have hval := hrun.stable.valued
  have hpos : 0 < k.level := by
    have := hrun.trailed.le_level _ (hval.neg_true.mpr hf)
    rw [lev_neg] at this
    omega
  obtain ⟨hA0, hT0⟩ := h.failingStart hf hf0
  obtain ⟨q, hA, hT, h0⟩ := failingWalk_spec hrun (h.rooted hpos) hf hA0 hT0 he
  have hunits := hrun.rootUnits hexk
  have hent := failing_entailed hrun hunits hf hwhy hA hT h0
  have hroots : ∀ i ∈ s.work, ∃ c, db (k.vars i).reason = some c := fun i hi =>
    hA.reason_of_root hval hunits ((hA.work i).mp hi).1 ((hA.work i).mp hi).2
  have hvars : s.kitten.vars = k.vars := by rw [hA.same]
  have hwork : ∀ i ∈ s.work, (s.kitten.vars i).reason ≠ INVALID := by
    intro i hi
    obtain ⟨c, hc⟩ := hroots i hi
    rw [hvars]
    exact hrun.stable.rep.ne_invalid hc
  have hexpl : s.kitten.resolved ++ s.work.map (fun i => (s.kitten.vars i).reason) =
      explanation k s := by
    rw [hvars]
    rfl
  rw [failingRoots_eq hwork, hexpl] at hk
  have hadm : Admissible F k.exportTable.length true db s.kitten.klause (explanation k s) := by
    refine ⟨clausesOf_entailed hrun.stable.klauses hent, fun _ a ha => ?_, fun _ => hent, fun l hl => ?_, hT.nodup⟩
    · rcases mem_append.mp ha with ha | ha
      · obtain ⟨d, hd, _⟩ := hT.resolved a ha
        exact ⟨d, hd⟩
      · obtain ⟨i, hi, rfl⟩ := mem_map.mp ha
        exact hroots i hi
    · have := hval.lt _ (hT.neg_assumption h hlev hfa hf hl).1
      rwa [neg_div_two] at this
  obtain ⟨k1, hk1⟩ : ∃ k1, clearMarks { s.kitten with resolved := explanation k s } = k1 := ⟨_, rfl⟩
  have hmarks1 : ∀ i, k1.marks i = false := by
    intro i
    rw [← hk1]
    exact clearMarks_marks (k := { s.kitten with resolved := explanation k s }) (fun j => (hA.marks j).mp) i
  have hk1' : k1 = { k with
      marks := k1.marks
      analyzed := []
      klause := s.kitten.klause
      resolved := explanation k s
      failed := s.kitten.failed } := by
    rw [← hk1]
    unfold clearMarks
    dsimp only
    conv_lhs => rw [hA.same]
  obtain rfl : k' = k1.failingCore := by
    rw [hk, ← hk1]
  have hrun1 : Running k1 db F := by
    rw [hk1']
    exact ⟨{ hrun.stable with }, hrun.trailed, hrun.rootUnits⟩
  have hklause : k1.klause = s.kitten.klause := by rw [hk1']
  have hw1 : Watched k1.watches db := by
    rw [hk1']
    exact h.watched
  have hi1 : k1.inconsistent = none := by
    rw [hk1']
    exact h.consistent
  have ha1 : k1.analyzed = [] := by rw [hk1']
  have hadm1 : Admissible F k1.exportTable.length true db k1.klause k1.resolved := by
    rw [hk1']
    exact hadm
  have hne : k1.klause ≠ [] := by
    rw [hklause]
    exact ne_nil_of_mem hT.failed
  obtain ⟨db', hhalt, hinc, hfailed, r, c, hr, hc, hcls⟩ :=
    failingCore_spec hrun1 hw1 hi1 hmarks1 ha1 hne hadm1 hex ho
  refine ⟨db', hhalt, hinc, .inr ⟨r, c, s.kitten.klause, hr, hc, hklause ▸ hcls, fun l hl => ⟨?_, ?_⟩⟩⟩
  · have hass : k1.failingCore.assumptions = k.assumptions := by
      rw [(failingCore_frame k1).assumptions, hk1']
    rw [hass]
    exact (hT.neg_assumption h hlev hfa hf hl).2
  · rw [hfailed, hk1']
    exact (hT.klause l hl).1

theorem failAssumptions_spec (h : Searching k db F p) (hlev : k.level ≤ k.assumptions.length)
    (hne : ∀ a ∈ k.assumptions, a ≠ INVALID) (hfalse : ∃ a ∈ k.assumptions, k.values a = -1)
    (he : k.failAssumptions = some k') (hex : k'.exhausted = false) (ho : k'.referenceOverflow = false) :
    ∃ db', Halted k' db' F ∧ k'.inconsistent = none ∧ FailureRecorded k' db' := by
  have hrun := h.running
  have hexk := (failAssumptions_frame he).exhausted hex
  have hclean := h.clean
  obtain ⟨hscan, hfirst⟩ := scanFailed_spec (k := k) hrun.stable.valued.range (s := {})
    (fun a (ha : a ∈ k.assumptions) => ⟨ha, hne a ha⟩) ⟨by simp, by simp, by simp, by simp⟩ rfl
  have hfirst := hfirst (.inr hfalse)
  unfold failAssumptions at he
  generalize scanFailed k k.assumptions {} = s at *
  dsimp only at he
  split at he
  · -- a root literal excludes the assumption
    next hu =>
    obtain ⟨hmem, hv, h0⟩ := hscan.unit hu
    obtain rfl := some.inj he
    obtain ⟨c, hc, hcl⟩ := hrun.rootUnits hexk _ (hrun.stable.valued.neg_true.mpr hv) (by rwa [lev_neg])
    have hwhy : db (k.vars (s.unit / 2)).reason = some c := by simpa [why] using hc
    refine ⟨db, ⟨⟨{ hrun.stable with recorded := fun r hr => ?_ }, hrun.trailed, hrun.rootUnits⟩,
      ⟨hclean.marks, hclean.analyzed, hclean.klause, hclean.resolved⟩, h.watched⟩, h.consistent,
      .inr ⟨_, c, [neg s.unit], rfl, hwhy, ?_, fun l hl => ?_⟩⟩
    · rcases hr with hr | hr
      · exact hrun.stable.recorded r (.inl hr)
      · obtain rfl := some.inj hr
        exact ⟨c, hwhy⟩
    · rw [hcl]
      exact Entails.of_mem rfl
    · obtain rfl : l = neg s.unit := by simpa using hl
      rw [neg_neg]
      exact ⟨hmem, by simp⟩
  · next hu =>
    have hu' : s.unit = INVALID := by simpa using hu
    split at he
    · -- the complement is an assumption too
      next hc =>
      obtain ⟨hmem, hv, hw⟩ := hscan.clashing hc
      obtain rfl := some.inj he
      have hneg : neg s.clashing ∈ k.assumptions :=
        traced_assumption h hlev (hrun.stable.valued.neg_true.mpr hv) (by simpa [why] using hw)
      refine ⟨db, ⟨⟨{ hrun.stable with }, hrun.trailed, hrun.rootUnits⟩,
        ⟨hclean.marks, hclean.analyzed, hclean.klause, hclean.resolved⟩, h.watched⟩, h.consistent,
        .inl ⟨s.clashing, ⟨hmem, ?_⟩, hneg, by simp⟩⟩
      simp [(neg_ne s.clashing).symm]
    · next hc =>
      have hc' : s.clashing = INVALID := by simpa using hc
      obtain ⟨hmem, hv⟩ := hscan.first hfirst
      obtain ⟨h0, hw⟩ := hscan.settled hu' hfirst
      simp only [bind_eq_bind, bind_eq_some_iff] at he
      obtain ⟨s', hwalk, he⟩ := he
      obtain rfl := some.inj he
      exact failAssumptions_trace h hlev hmem hv h0 (hw hc') hexk hwalk rfl hex ho

end Nixie.Kitten
