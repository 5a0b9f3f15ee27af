import Nixie.Kitten.Analyze

/-!
From a conflict to the learned klause and the backjump.
-/

namespace Nixie.Kitten

open Nixie.Propositional Nixie.Literal List

variable {k k' : Kitten} {db : ℕ → Option Klause} {F : Set (Set ℕ)} {p q r uip : ℕ} {s s' : Analysis}
  {rest : List ℕ}

theorem clausesOf_entailed {tracked : Bool} {n : ℕ} (h : Klauses F n tracked db) {R : List ℕ}
    {C : Set ℕ} (hC : Entails valuations (clausesOf db R) C) : Entails valuations F C := by
  refine hC.cut ?_
  rintro _ ⟨r, _, c, hc, rfl⟩
  exact h.entailed r c hc

theorem idxOf_lt_of_split {trail t t' : List ℕ} {l m : ℕ} (hnd : trail.Nodup)
    (hsplit : trail = t ++ l :: t') (hm : m ∈ t) : trail.idxOf m < trail.idxOf l := by
  subst hsplit
  have hl : l ∉ t := by
    intro hl
    exact disjoint_of_nodup_append hnd hl (by simp)
  rw [idxOf_append_of_mem hm, idxOf_append_of_notMem hl]
  have := idxOf_lt_length_of_mem hm
  simp
  omega

def cut (k : Kitten) (marks : ℕ → Bool) (uip : ℕ) : Set ℕ :=
  {t | t = uip ∨ k.values t = 1 ∧ marks (t / 2) = true ∧ lev k.vars t < k.level}

theorem clauseSet_learned (hrun : Running k db F) (hlow : Lower k s.kitten.marks s.jump rest) :
    clauseSet (neg uip :: rest) = neg '' cut k s.kitten.marks uip := by
  have hval := hrun.stable.valued
  ext l
  simp only [clauseSet, Set.mem_ofPred_eq, mem_cons, Set.mem_image, cut, hlow.mem]
  constructor
  · rintro (rfl | ⟨h1, h2, h3⟩)
    · exact ⟨uip, .inl rfl, rfl⟩
    · refine ⟨neg l, .inr ⟨hval.neg_true.mpr h1, ?_, ?_⟩, neg_neg l⟩
      · rwa [neg_div_two]
      · rwa [lev_neg]
  · rintro ⟨t, rfl | ⟨h1, h2, h3⟩, rfl⟩
    · exact .inl rfl
    · refine .inr ⟨?_, ?_, ?_⟩
      · rw [hval.neg, h1]
      · rwa [neg_div_two]
      · rwa [lev_neg]

theorem learned_entailed (hrun : Running k db F) (hA : Analyzing k q s) (hR : Resolved k db (q + 1) s)
    (h0 : s.open = 0) (huip : k.trail[q]? = some uip) (hconf : Conflict k db r) (hr : r ∈ s.kitten.resolved)
    (hlow : Lower k s.kitten.marks s.jump rest) :
    Entails valuations (clausesOf db s.kitten.resolved) (clauseSet (neg uip :: rest)) := by
  have hval := hrun.stable.valued
  -- a marked literal of the current level is the implication point or comes after it
  have hafter : ∀ l ∈ k.trail, s.kitten.marks (l / 2) = true → lev k.vars l = k.level →
      l = uip ∨ l ∈ k.trail.drop (q + 1) := by
    intro l hl hml hlev
    obtain ⟨hlt, rfl⟩ := List.getElem?_eq_some_iff.mp huip
    rw [← take_append_drop q k.trail, drop_eq_getElem_cons hlt, mem_append, mem_cons] at hl
    rcases hl with hl | hl | hl
    · exfalso
      have hcount := hA.open_eq.symm.trans h0
      have hnone := List.countP_eq_zero.mp hcount l hl
      simp [hml, hlev] at hnone
    · exact .inl hl
    · exact .inr hl
  have hcut : ∀ m, k.values m = -1 → s.kitten.marks (m / 2) = true →
      neg m ∈ cut k s.kitten.marks uip ∨
        lev k.vars m = k.level ∧ neg m ∈ k.trail ∧ neg m ∈ k.trail.drop (q + 1) := by
    intro m hvm hmm
    have hneg := hval.neg_true.mpr hvm
    have hle := hrun.trailed.le_level _ hneg
    rw [lev_neg] at hle
    by_cases hlt : lev k.vars m < k.level
    · exact .inl (.inr ⟨hneg, by rwa [neg_div_two], by rwa [lev_neg]⟩)
    · have hmem : neg m ∈ k.trail := by
        by_contra hmem
        have := hrun.trailed.root _ hneg hmem
        have := hA.jump_lt
        rw [lev_neg] at *
        omega
      rcases hafter (neg m) hmem (by rwa [neg_div_two]) (by rw [lev_neg]; omega) with heq | hin
      · exact .inl (.inl heq)
      · exact .inr ⟨by omega, hmem, hin⟩
  obtain ⟨c, hc, hfalse, _⟩ := hconf.falsified
  obtain ⟨c', hc', hmarked⟩ := hR.marked r hr
  obtain rfl : c = c' := by simpa [hc] using hc'
  rw [clauseSet_learned hrun hlow]
  have himplied : Implied neg (k.trail.idxOf ·) (clausesOf db s.kitten.resolved)
      (cut k s.kitten.marks uip)
      {l | l ∈ k.trail.drop (q + 1) ∧ s.kitten.marks (l / 2) = true ∧ lev k.vars l = k.level} := by
    rintro l ⟨hl, hml, hlev⟩
    obtain ⟨t, t', hsplit⟩ := append_of_mem (mem_of_mem_drop hl)
    have hwhy := hR.reasons l hl hml hlev
    obtain ⟨d, hd, hdm⟩ := hR.marked _ hwhy
    refine ⟨clauseSet d.lits, ⟨_, hwhy, d, hd, rfl⟩, fun m hm => ?_⟩
    by_cases hml : m = l
    · exact .inl hml
    · right
      rcases hrun.trailed.justified t l t' hsplit with ⟨hinv, _, _⟩ | ⟨d', hd', hf⟩
      · exact absurd hinv (hrun.stable.rep.ne_invalid hd)
      · obtain rfl : d = d' := by simpa [hd] using hd'
        obtain ⟨hvm, hloc⟩ := hf.2 m hm hml
        refine ⟨neg m, (neg_neg m).symm, ?_⟩
        rcases hcut m hvm (hdm m hm) with hin | ⟨hlevm, hmem, hdrop⟩
        · exact .inl hin
        · refine .inr ⟨⟨hdrop, by rw [neg_div_two]; exact hdm m hm, by rwa [lev_neg]⟩, ?_⟩
          rcases hloc with h0' | hin
          · have := hA.jump_lt
            omega
          · exact idxOf_lt_of_split hrun.trailed.nodup hsplit hin
  refine himplied.entails_cut valuations_neg (C := clauseSet c.lits) ⟨r, hr, c, hc, rfl⟩
    fun m hm => ⟨neg m, ?_, (neg_neg m).symm⟩
  rcases hcut m (hfalse m hm) (hmarked m hm) with hin | ⟨hlevm, _, hdrop⟩
  · exact .inr hin
  · exact .inl ⟨hdrop, by rw [neg_div_two]; exact hmarked m hm, by rwa [lev_neg]⟩

theorem analyze_start (hrun : Running k db F) (hc : Clean k) (hlev : 0 < k.level)
    (hconf : Conflict k db r) :
    let s := analyzeReason ⟨{ k with klause := k.klause ++ [INVALID] }, 0, 0⟩ r
    Analyzing k k.trail.length s ∧ Resolved k db k.trail.length s ∧ 0 < s.open ∧
      r ∈ s.kitten.resolved := by
  have hval := hrun.stable.valued
  have hmarks := hc.marks
  have hA : Analyzing k k.trail.length ⟨{ k with klause := k.klause ++ [INVALID] }, 0, 0⟩ := by
    refine ⟨rfl, fun i => ?_, fun i hi => ?_, hlev, ?_, [], ?_, ⟨nodup_nil, fun m => ?_, by simp, .inl ⟨rfl, rfl⟩⟩⟩
    · simp [hmarks i, hc.analyzed]
    · simp [hc.analyzed] at hi
    · symm
      exact countP_eq_zero.mpr fun l _ => by simp [hmarks (l / 2)]
    · simp [hc.klause]
    · simp [hmarks (m / 2)]
  obtain ⟨c, hcr, hfalse, l, hl, hlevl⟩ := hconf.falsified
  have hin : ∀ m ∈ c.lits, lev k.vars m < k.level ∨ neg m ∈ k.trail.take k.trail.length := by
    intro m hm
    have hneg := hval.neg_true.mpr (hfalse m hm)
    by_cases hmem : neg m ∈ k.trail
    · exact .inr (by simpa using hmem)
    · have := hrun.trailed.root _ hneg hmem
      rw [lev_neg] at this
      exact .inl (by omega)
  have hm : ∀ m ∈ c.lits, ({ k with klause := k.klause ++ [INVALID] } : Kitten).marks (m / 2) = true ∨
      k.values m = -1 ∧ (lev k.vars m < k.level ∨ neg m ∈ k.trail.take k.trail.length) :=
    fun m hmc => .inr ⟨hfalse m hmc, hin m hmc⟩
  have hR : Resolved k db k.trail.length ⟨{ k with klause := k.klause ++ [INVALID] }, 0, 0⟩ :=
    ⟨by simp [hc.resolved], by simp⟩
  obtain ⟨hA', hmarks', hres'⟩ := analyzeReason_spec hrun hA hcr hm
  refine ⟨hA', hR.reason hrun hA (le_refl _) hcr hm, ?_, by rw [hres']; simp⟩
  rw [hA'.open_eq]
  refine countP_pos_iff.mpr ⟨neg l, (hin l hl).resolve_left (by omega), ?_⟩
  have hml := (hmarks' (neg l / 2)).mpr (.inr ⟨l, hl, neg_div_two l⟩)
  simp only [hml, lev_neg, hlevl, Bool.true_and, beq_self_eq_true]

theorem Bumped.of_same {k1 kb : Kitten} (hb : Bumped k1 kb)
    (hs : k1 = { k with
      marks := k1.marks, analyzed := k1.analyzed, klause := k1.klause, resolved := k1.resolved }) :
    kb = { k with
      marks := kb.marks
      analyzed := kb.analyzed
      klause := kb.klause
      resolved := kb.resolved
      queue := kb.queue
      links := kb.links } := by
  unfold Bumped at hb
  rw [hb, hs]

theorem bump_running (hrun : Running k db F) (hA : Analyzing k q s) (klause : List ℕ) :
    let kb := bump { s.kitten with klause := klause }
    Running kb db F ∧ kb.klause = klause ∧ kb.resolved = s.kitten.resolved ∧
      (∀ i, kb.marks i = false) ∧ kb.analyzed = [] ∧
      kb = { k with
        marks := kb.marks
        analyzed := kb.analyzed
        klause := kb.klause
        resolved := kb.resolved
        queue := kb.queue
        links := kb.links } := by
  have hval := hrun.stable.valued
  have hsame : ({ s.kitten with klause := klause } : Kitten) = { k with
      marks := s.kitten.marks
      analyzed := s.kitten.analyzed
      klause := klause
      resolved := s.kitten.resolved } :=
    congrArg (fun k : Kitten => { k with klause := klause }) hA.same
  have hlt : ∀ i ∈ s.kitten.analyzed, i < k.exportTable.length := by
    intro i hi
    have := hval.lt _ (hA.assigned i hi)
    omega
  have hq : Queued ({ s.kitten with klause := klause } : Kitten).queue
      ({ s.kitten with klause := klause } : Kitten).links k.exportTable.length := by
    rw [hsame]
    exact hrun.stable.queued
  obtain ⟨hb, hq', ha', hm'⟩ := bump_spec hq hlt fun i hi => (hA.marks i).mp hi
  have hwhole := hb.of_same hsame
  refine ⟨?_, by rw [hb], by rw [hb], hm', ha', hwhole⟩
  generalize bump _ = kb at hq' hwhole
  rw [hwhole]
  exact ⟨{ hrun.stable with queued := hq' }, hrun.trailed, hrun.rootUnits⟩

theorem Blocked.learned {values : ℕ → ℤ} {vars : ℕ → Kar} {ws : ℕ → List Katch} {pending : List ℕ} {c : Klause}
    (h : Blocked values vars ws db pending r) (hw : Watched ws db) (hr : db r = some c) {l : ℕ}
    (hc : c.lits = l :: rest) (hl : values l = 1)
    (hrest : rest = [] ∨ ∃ m t, rest = m :: t ∧ lev vars l ≤ lev vars m) :
    Blocked values vars ws db pending INVALID := by
  intro a w hwa _ hva hp
  by_cases hwr : w.reference = r
  · obtain ⟨d, hd⟩ := hw.watch a w hwa
    obtain rfl : c = d := by simpa [hwr, hr] using hd.some
    obtain ⟨x, y, t, hxy, hor⟩ := hd.isWatch
    rcases hrest with rfl | ⟨m, t', rfl, hlev⟩
    · simp [hc] at hxy
    · obtain ⟨rfl, rfl, rfl⟩ : l = x ∧ m = y ∧ t' = t := by simpa [hc] using hxy
      rcases hor with rfl | rfl
      · omega
      · exact ⟨c, l, hwr ▸ hr, by simp [hc], hl, hlev⟩
  · exact h a w hwa hwr hva hp

theorem exists_level_eq {jump : ℕ} (hrun : Running k db F) (hfalse : ∀ m ∈ rest, k.values m = -1)
    (hhead : (rest = [] ∧ jump = 0) ∨ ∃ m t, rest = m :: t ∧ lev k.vars m = jump) :
    jump = 0 ∨ ∃ l ∈ k.trail, lev k.vars l = jump := by
  rcases hhead with ⟨_, h0⟩ | ⟨m, t, rfl, hm⟩
  · exact .inl h0
  · by_cases h0 : jump = 0
    · exact .inl h0
    · refine .inr ⟨neg m, ?_, by rwa [lev_neg]⟩
      by_contra hmem
      have := hrun.trailed.root _ (hrun.stable.valued.neg_true.mpr (hfalse m (by simp))) hmem
      rw [lev_neg] at this
      omega

theorem backjump_spec {c : Klause} {jump : ℕ} (hrun : Running k db F) (hc : Clean k)
    (has : Assuming k.assumptions k.values k.vars k.level) (hw : Watched k.watches db)
    (hb : Blocked k.values k.vars k.watches db (k.trail.drop p) r)
    (hpend : ∀ l ∈ k.trail.drop p, lev k.vars l = k.level) (hroot : 0 < k.level → ∀ l ∈ k.trail, 0 < lev k.vars l)
    (hunits : ∀ s d l, s ≠ r → db s = some d → d.lits = [l] → k.values l = 1 ∧ lev k.vars l = 0)
    (hi : k.inconsistent = none) (hr : db r = some c) (hlits : c.lits = neg uip :: rest) (hjump : jump < k.level)
    (huip : uip ∈ k.trail) (hlevu : lev k.vars uip = k.level)
    (hfalse : ∀ m ∈ rest, k.values m = -1 ∧ lev k.vars m ≤ jump)
    (hhead : (rest = [] ∧ jump = 0) ∨ ∃ m t, rest = m :: t ∧ lev k.vars m = jump)
    (ho : ((k.backtrack jump).assign (neg uip) r).referenceOverflow = false) :
    ∃ db', Searching ((k.backtrack jump).assign (neg uip) r) db' F
    ((k.backtrack jump).assign (neg uip) r).propagated := by
  have hval := hrun.stable.valued
  obtain ⟨hrunb, keep, popped, hbt⟩ := hrun.backtrack (exists_level_eq hrun (fun m hm => (hfalse m hm).1) hhead)
  have hvalues := hbt.values
  have hsame := hbt.same
  generalize k.backtrack jump = kb at *
  have hbvars : kb.vars = k.vars := by rw [hsame]
  have hblevel : kb.level = jump := by rw [hsame]
  have hbtrail : kb.trail = keep := by rw [hsame]
  have hbprop : kb.propagated = keep.length := by rw [hsame]
  have hbws : kb.watches = k.watches := by rw [hsame]
  have hbas : kb.assumptions = k.assumptions := by rw [hsame]
  have hbi : kb.inconsistent = none := by rw [hsame]; exact hi
  have hcb : Clean kb := by
    rw [hsame]
    exact ⟨hc.marks, hc.analyzed, hc.klause, hc.resolved⟩
  have hupop : uip ∈ popped := by
    rw [hbt.split, mem_append] at huip
    exact huip.resolve_left fun hk => by have := hbt.kept uip hk; omega
  have h0 : kb.values (neg uip) = 0 := by
    rw [hvalues, if_pos (.inr (by rwa [neg_neg]))]
  have hkeepv : ∀ m, lev k.vars m ≤ jump → kb.values m = k.values m := fun _ => hbt.values_of_le
  have hcan : CanAssign kb db (neg uip) r := by
    refine .inr ⟨c, hr, by simp [hlits], fun m hm hne => ?_⟩
    have hmr : m ∈ rest := by
      rw [hlits, mem_cons] at hm
      exact hm.resolve_left hne
    obtain ⟨hvm, hlm⟩ := hfalse m hmr
    rw [hkeepv m hlm, hvm]
  have hlt : neg uip / 2 < kb.exportTable.length := hrunb.stable.klauses.lits_lt r c hr (neg uip) (by simp [hlits])
  obtain ⟨db', hrun', hclean', hext, hws', hasg, hnew⟩ := hrunb.assign hcb h0 hlt hcan ho
  obtain ⟨why, hvars', hwhy⟩ := hasg.vars
  have hblocked : Blocked kb.values kb.vars kb.watches db [] r := by
    rw [hbvars, hbws]
    exact hb.shrink hval hrun.trailed hbt.split hbt.kept hbt.gone (fun l hl => by have := hpend l hl; omega) hvalues
  have hassum : Assuming kb.assumptions kb.values kb.vars kb.level := by
    rw [hbas, hbvars, hblevel]
    refine has.shrink (le_of_lt hjump) (fun l hl => ?_) fun l hl hle => by rw [hkeepv l hle, hl]
    rw [hvalues] at hl
    split_ifs at hl
    · simp at hl
    · exact hl
  have hdrop : (kb.assign (neg uip) r).trail.drop (kb.assign (neg uip) r).propagated = [neg uip] := by
    rw [hasg.trail, hasg.propagated, hbprop, hbtrail]
    simp
  have hone : (kb.assign (neg uip) r).values (neg uip) = 1 := by
    rw [hasg.values, assignValues_eq, if_pos rfl]
  have hwatched : Watched (kb.assign (neg uip) r).watches db' := by
    rw [hasg.watches, hbws]
    exact hws' _ hw
  refine ⟨db', hrun', hclean', ?_, hwatched, ?_, fun l hl => ?_, ?_, fun s d l hs hl => ?_,
    hasg.inconsistent.trans hbi, ?_⟩
  · rw [(assign_frame _ _ _).assumptions, hasg.values, hvars', hasg.level]
    refine hassum.assign hrunb.stable.valued h0 (fun i a _ hi => .inl hi) fun hw => ?_
    exact absurd (hwhy hw ▸ hw) (hrun.stable.rep.ne_invalid hr)
  · rw [hdrop, hasg.watches, hasg.values, hvars']
    have hassigned : Blocked (assignValues kb.values (neg uip))
        (setVar kb.vars (neg uip) kb.level why) kb.watches db [neg uip] r :=
      hblocked.assign hrunb.stable.valued h0 (by simp) (by simp)
    refine (hassigned.learned (hbws ▸ hw) hr hlits (by rw [assignValues_eq, if_pos rfl]) ?_).transport hext
    rcases hhead with ⟨hnil, _⟩ | ⟨m, t, hmt, hm⟩
    · exact .inl hnil
    · refine .inr ⟨m, t, hmt, ?_⟩
      obtain ⟨hvm, hlm⟩ := hfalse m (by simp [hmt])
      have hkb : kb.values m ≠ 0 := by
        rw [hkeepv m hlm]
        omega
      rw [lev_setVar_self, lev_setVar (hrunb.stable.valued.div_ne h0 hkb), hblevel, hbvars, hm]
  · rw [hdrop, mem_singleton] at hl
    rw [hl, hvars', hasg.level, lev_setVar_self]
  · rw [hasg.trail, hvars', hasg.level, hbtrail]
    intro hpos l hl
    rcases mem_append.mp hl with hl | hl
    · have hvl := hrunb.trailed.true_of_mem l (by rwa [hbtrail])
      rw [lev_setVar (hrunb.stable.valued.div_ne h0 (by omega)), hbvars]
      exact hroot (by omega) l (by rw [hbt.split]; exact mem_append_left _ hl)
    · obtain rfl : l = neg uip := by simpa using hl
      rwa [lev_setVar_self]
  · rw [hasg.values, hvars']
    rcases hnew s d hs with hs | ⟨hlit, hlev0⟩
    · by_cases hsr : s = r
      · -- the learned klause itself: a unit asserted on the root level
        subst hsr
        obtain rfl : c = d := by simpa [hr] using hs
        obtain ⟨rfl, rfl⟩ : neg uip = l ∧ rest = [] := by simpa [hlits] using hl
        have hj0 : jump = 0 := by
          rcases hhead with ⟨_, h0⟩ | ⟨m, t, hmt, _⟩
          · exact h0
          · simp at hmt
        rw [lev_setVar_self, assignValues_eq, if_pos rfl, hblevel]
        exact ⟨rfl, hj0⟩
      · obtain ⟨hvl, hlev⟩ := hunits s d l hsr hs hl
        have hkb : kb.values l = 1 := by rw [hkeepv l (by omega), hvl]
        rw [assignValues_of_ne hrunb.stable.valued h0 (by omega),
          lev_setVar (hrunb.stable.valued.div_ne h0 (by omega)), hbvars]
        exact ⟨hkb, hlev⟩
    · obtain rfl : neg uip = l := by simpa [hlit] using hl
      rw [lev_setVar_self, assignValues_eq, if_pos rfl]
      exact ⟨rfl, hlev0⟩
  · rw [hasg.trail, hasg.propagated, hbprop, hbtrail, length_append]
    exact Nat.le_add_right _ _

theorem analyze_spec (h : Searching k db F p) (hlev : 0 < k.level) (hconf : Conflict k db r)
    (ha : k.analyze r = some k') (ho : k'.referenceOverflow = false) :
    k'.exhausted = true ∨ ∃ db', Searching k' db' F k'.propagated := by
  have hrun := h.running
  have hval := hrun.stable.valued
  obtain ⟨hA0, hR0, hopen0, hr0⟩ := analyze_start hrun h.clean hlev hconf
  simp only [Kitten.analyze, Option.bind_eq_bind, Option.bind_eq_some_iff] at ha
  obtain ⟨⟨s, uip⟩, hwalk, ha⟩ := ha
  obtain ⟨q, huip, hlevu, hmu, hA, hR, h0, hsub⟩ := analyzeWalk_spec hrun hA0 hR0 hopen0 hwalk
  obtain ⟨rest, hklause, hlow⟩ := hA.lower
  have huipv : k.values uip = 1 := hrun.trailed.true_of_mem _ (mem_of_getElem? huip)
  have hent := learned_entailed hrun hA hR h0 huip hconf (hsub hr0) hlow
  dsimp only at ha
  rw [hklause, set_cons_zero] at ha
  obtain ⟨hrunb, hkb, hrb, hmb, hab, hsame⟩ := bump_running hrun hA (neg uip :: rest)
  generalize bump { s.kitten with klause := neg uip :: rest } = kb at *
  have hadm : Admissible F kb.exportTable.length kb.antecedents db kb.klause kb.resolved := by
    rw [hkb, hrb]
    refine ⟨clausesOf_entailed hrun.stable.klauses hent, fun _ a ha => ?_, fun _ => hent,
      fun l hl => ?_, nodup_cons.mpr ⟨fun hmem => ?_, hlow.nodup⟩⟩
    · obtain ⟨d, hd, _⟩ := hR.marked a ha
      exact ⟨d, hd⟩
    · have hexp : kb.exportTable = k.exportTable := by rw [hsame]
      rw [hexp]
      rcases mem_cons.mp hl with rfl | hl
      · rw [neg_div_two]
        exact hval.lt uip (by omega)
      · exact hval.lt l (by have := ((hlow.mem l).mp hl).1; omega)
    · have := ((hlow.mem _).mp hmem).2.2
      rw [lev_neg] at this
      omega
  cases hn : kb.newLearnedKlause with
  | mk kl ref =>
    rw [hn] at ha
    dsimp only at ha
    have hol : kl.referenceOverflow = false := by
      split at ha
      · obtain rfl : _ = k' := by simpa using ha
        exact (backtrack_frame { kl with resolved := [], klause := [] } 0).overflow ho
      · obtain rfl : _ = k' := by simpa using ha
        exact (backtrack_frame { kl with resolved := [], klause := [] } s.jump).overflow
          ((assign_frame _ _ _).overflow ho)
    rcases newLearnedKlause_cases hrunb.stable.rep hn hol with ⟨rfl, rfl⟩ | ⟨rfl, hex, hlen, rfl⟩
    · left
      rw [if_pos rfl] at ha
      obtain rfl : _ = k' := by simpa using ha
      by_contra hne
      have := (backtrack_frame _ 0).exhausted (by simpa using hne)
      simp at this
    · right
      have hne : kb.klauses.length ≠ INVALID := by
        unfold INVALID
        omega
      rw [if_neg hne] at ha
      obtain rfl : _ = k' := by simpa using ha
      -- the state with the klause learned, before the jump
      have hlearn := hrunb.learn hlen hadm
      have hrunl : Running { kb.learn with resolved := [], klause := [] } (kb.learnDb db) F :=
        ⟨{ hlearn.stable with }, hlearn.trailed, hlearn.rootUnits⟩
      have hws : kb.watches = k.watches := by rw [hsame]
      have hvalues : kb.values = k.values := by rw [hsame]
      have hvars : kb.vars = k.vars := by rw [hsame]
      have htrail : kb.trail = k.trail := by rw [hsame]
      have hlevel : kb.level = k.level := by rw [hsame]
      have hassumptions : kb.assumptions = k.assumptions := by rw [hsame]
      have hsame' : kb.inconsistent = k.inconsistent := by rw [hsame]
      have hnd : kb.learnedKlause.lits.Nodup := hadm.nodup
      have hwatched : Watched kb.learn.watches (kb.learnDb db) := (hws ▸ h.watched).push hrunb.stable.rep.fresh hnd
      refine backjump_spec (p := p) hrunl ⟨hmb, hab, rfl, rfl⟩ ?_ hwatched ?_ ?_ ?_ ?_ ?_
        learnDb_self hkb ?_ ?_ ?_ ?_ ?_ ho
      · show Assuming kb.assumptions kb.values kb.vars kb.level
        rw [hassumptions, hvalues, hvars, hlevel]
        exact h.assuming
      · show Blocked kb.values kb.vars (watchesWith kb.watches kb.klauses.length kb.klause)
          (kb.learnDb db) (kb.trail.drop p) kb.klauses.length
        rw [hvalues, hvars, htrail, hws]
        exact h.blocked.push h.watched hrunb.stable.rep.ne_invalid hrunb.stable.rep.fresh hnd
      · show ∀ l ∈ kb.trail.drop p, lev kb.vars l = kb.level
        rw [htrail, hvars, hlevel]
        exact h.pending
      · show 0 < kb.level → ∀ l ∈ kb.trail, 0 < lev kb.vars l
        rw [htrail, hvars, hlevel]
        exact h.rooted
      · show ∀ s d l, s ≠ kb.klauses.length → kb.learnDb db s = some d → d.lits = [l] →
          kb.values l = 1 ∧ lev kb.vars l = 0
        rw [hvalues, hvars]
        exact fun s d l hne hs => h.unitsTrue s d l (by simpa [learnDb, hne] using hs)
      · show inconsistentWith kb.inconsistent kb.klauses.length kb.klause = none
        rw [hsame', h.consistent, hkb]
        rfl
      · show s.jump < kb.level
        rw [hlevel]
        exact hA.jump_lt
      · show uip ∈ kb.trail
        rw [htrail]
        exact mem_of_getElem? huip
      · show lev kb.vars uip = kb.level
        rw [hvars, hlevel]
        exact hlevu
      · show ∀ m ∈ rest, kb.values m = -1 ∧ lev kb.vars m ≤ s.jump
        rw [hvalues, hvars]
        exact fun m hm => ⟨((hlow.mem m).mp hm).1, hlow.le m hm⟩
      · show (rest = [] ∧ s.jump = 0) ∨ ∃ m t, rest = m :: t ∧ lev kb.vars m = s.jump
        rw [hvars]
        exact hlow.head

end Nixie.Kitten
