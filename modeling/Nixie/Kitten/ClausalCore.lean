import Nixie.Kitten.Reset

/-!
The clausal core: the klauses reached from the refutation through antecedents.
-/

namespace Nixie.Kitten

open Nixie.Propositional Nixie.Literal List Option

variable {k k' k0 : Kitten} {db db0 : ℕ → Option Klause} {F : Set (Set ℕ)} {fuel r root : ℕ}
  {c : Klause} {stack : List ℕ}

def Flagged (db : ℕ → Option Klause) (r : ℕ) : Prop := ∃ c, db r = some c ∧ c.core = true

/-- References to be visited, and frames `INVALID :: d` that close `d` once what lies above them
has been visited. -/
inductive Stacked (db : ℕ → Option Klause) : List ℕ → Prop
  | nil : Stacked db []
  | visit {r : ℕ} {c : Klause} {stack : List ℕ} (hr : db r = some c) (h : Stacked db stack) :
    Stacked db (r :: stack)
  | frame {d : ℕ} {c : Klause} {stack : List ℕ} (hd : db d = some c) (h : Stacked db stack) :
    Stacked db (INVALID :: d :: stack)

variable {rs : List ℕ}

theorem Stacked.append (h : Stacked db stack) (hrs : ∀ r ∈ rs, ∃ c, db r = some c) : Stacked db (rs ++ stack) := by
  induction rs with
  | nil => exact h
  | cons r rs ih =>
    obtain ⟨c, hc⟩ := hrs r (by simp)
    exact .visit hc (ih fun s hs => hrs s (mem_cons_of_mem _ hs))

def Marked (k k' : Kitten) : Prop := k' = { k with klauses := k'.klauses, core := k'.core }

theorem Marked.trans {k'' : Kitten} (h : Marked k k') (h' : Marked k' k'') : Marked k k'' := by
  unfold Marked at h h' ⊢
  rw [h', h]

structure Walking (k0 : Kitten) (db0 : ℕ → Option Klause) (root : ℕ) (stack : List ℕ) (k : Kitten)
    (db : ℕ → Option Klause) : Prop where
  same : Marked k0 k
  valid : ∃ c, db0 root = some c
  rep : Represents k.klauses db
  reflagged : Reflagged db0 db
  stacked : Stacked db0 stack
  root : Flagged db root ∨ root ∈ stack
  closed : ∀ r c, Flagged db r → db0 r = some c → c.learned = true →
    ∀ a ∈ c.antecedents, Flagged db a
  pending : ∀ pre d post, stack = pre ++ INVALID :: d :: post → ∀ c, db0 d = some c →
    c.learned = true → ∀ a ∈ c.antecedents, Flagged db a ∨ a ∈ pre
  listed : ∀ r, Flagged db r → r ∈ k.core

theorem Walking.invalid (h : Walking k0 db0 root stack k db) : db0 INVALID = none := by
  cases hi : db0 INVALID with
  | none => rfl
  | some c =>
    obtain ⟨c', hc', _⟩ := h.reflagged.some hi
    simp [h.rep.invalid] at hc'

theorem Walking.close {d : ℕ} (h : Walking k0 db0 root (INVALID :: d :: stack) k db)
    (hst : Stacked db0 stack) (hd : db0 d = some c)
    (hvalid : ∀ r c, db0 r = some c → c.learned = true → INVALID ∉ c.antecedents) :
    ∃ db', Walking k0 db0 root stack (setCoreKlause { k with core := k.core ++ [d] } d) db' := by
  obtain ⟨c', hc', _⟩ := h.reflagged.some hd
  have hflag : ∀ r, Flagged (Function.update db d (some { c' with core := true })) r ↔
      r = d ∨ Flagged db r := by
    intro r
    unfold Flagged
    by_cases hr : r = d
    · simp [hr]
    · simp [hr]
  refine ⟨Function.update db d (some { c' with core := true }), h.same.trans rfl, h.valid, ?_,
    h.reflagged.trans (.update hc' true), hst, ?_, fun r e hr he hl a ha => ?_,
    fun pre d' post hs e he hl a ha => ?_, fun r hr => ?_⟩
  · refine h.rep.setFlags hc' true ?_
    show (({ k with core := k.core ++ [d] } : Kitten).klauseFlags d) ||| CORE_FLAG = _
    rw [h.rep.flags_eq (k := { k with core := k.core ++ [d] }) hc']
    exact c'.flags_or_core
  · rw [hflag]
    rcases h.root with hroot | hroot
    · exact .inl (.inr hroot)
    · simp only [mem_cons] at hroot
      rcases hroot with rfl | rfl | hroot
      · obtain ⟨e, he⟩ := h.valid
        simp [h.invalid] at he
      · exact .inl (.inl rfl)
      · exact .inr hroot
  · rw [hflag]
    rcases (hflag r).mp hr with rfl | hr
    · -- everything above the frame has been visited
      rcases h.pending [] r stack rfl e he hl a ha with hfa | hfa
      · exact .inr hfa
      · simp at hfa
    · exact .inr (h.closed r e hr he hl a ha)
  · rw [hflag]
    rcases h.pending (INVALID :: d :: pre) d' post (by simp [hs]) e he hl a ha with hfa | hfa
    · exact .inl (.inr hfa)
    · simp only [mem_cons] at hfa
      rcases hfa with rfl | rfl | hfa
      · exact absurd ha (hvalid d' e he hl)
      · exact .inl (.inl rfl)
      · exact .inr hfa
  · show r ∈ k.core ++ [d]
    rcases (hflag r).mp hr with rfl | hr
    · simp
    · exact mem_append_left _ (h.listed r hr)

theorem split_frame {pre post post' : List ℕ} {d e : ℕ} (hrs : INVALID ∉ rs) (he : e ≠ INVALID)
    (h : pre ++ INVALID :: d :: post = rs ++ INVALID :: e :: post') : (pre = rs ∧ d = e) ∨
    ∃ pre', pre = rs ++ INVALID :: e :: pre' ∧ post' = pre' ++ INVALID :: d :: post := by
  rcases append_eq_append_iff.mp h with ⟨t, rfl, ht⟩ | ⟨t, rfl, ht⟩
  · cases t with
    | nil =>
      simp at ht
      exact .inl ⟨by simp, ht.1⟩
    | cons x t =>
      obtain ⟨rfl, ht⟩ : INVALID = x ∧ _ := by simpa using ht
      simp at hrs
  · cases t with
    | nil =>
      simp at ht
      exact .inl ⟨by simp, ht.1.symm⟩
    | cons x t =>
      obtain ⟨rfl, ht⟩ : INVALID = x ∧ _ := by simpa using ht
      cases t with
      | nil =>
        simp at ht
        exact absurd ht.1 he
      | cons y t =>
        obtain ⟨rfl, ht⟩ : e = y ∧ _ := by simpa using ht
        exact .inr ⟨t, rfl, by simpa using ht⟩

theorem coreWalk_spec (hvalid : ∀ r c, db0 r = some c → c.learned = true → ∀ a ∈ c.antecedents, ∃ d, db0 a = some d)
    (h : Walking k0 db0 root stack k db) (he : coreWalk fuel stack k = some k') :
    ∃ db', Walking k0 db0 root [] k' db' := by
  have hinv : ∀ r c, db0 r = some c → c.learned = true → INVALID ∉ c.antecedents := by
    intro r c hr hl hmem
    obtain ⟨d, hd⟩ := hvalid r c hr hl INVALID hmem
    simp [h.invalid] at hd
  induction fuel generalizing stack k db with
  | zero => simp [coreWalk] at he
  | succ fuel ih =>
    cases h.stacked with
    | nil =>
      simp only [coreWalk] at he
      obtain rfl := some.inj he
      exact ⟨db, h⟩
    | frame hd hst =>
      simp only [coreWalk, if_true] at he
      obtain ⟨db', h'⟩ := h.close hst hd hinv
      exact ih h' he
    | @visit r c stack hr hst =>
      have hne : r ≠ INVALID := by
        rintro rfl
        simp [h.invalid] at hr
      obtain ⟨c', hc', _, hl', ha'⟩ := h.reflagged.some hr
      rw [coreWalk.eq_def] at he
      simp only [if_neg hne, h.rep.core_eq hc', h.rep.learned_eq hc', hl'] at he
      split at he
      · next hcore =>
        -- visited before
        have hflag : Flagged db r := ⟨c', hc', hcore⟩
        refine ih ⟨h.same, h.valid, h.rep, h.reflagged, hst, ?_, h.closed,
          fun pre d post hs e hd hl a ha => ?_, h.listed⟩ he
        · rcases h.root with hroot | hroot
          · exact .inl hroot
          · rcases mem_cons.mp hroot with rfl | hroot
            · exact .inl hflag
            · exact .inr hroot
        · rcases h.pending (r :: pre) d post (by simp [hs]) e hd hl a ha with hfa | hfa
          · exact .inl hfa
          · rcases mem_cons.mp hfa with rfl | hfa
            · exact .inl hflag
            · exact .inr hfa
      · split at he
        · next hlearned =>
          -- its antecedents come first
          have haux : c'.learned = true := hl'.trans hlearned
          rw [h.rep.antecedents_eq hc' haux, ha'] at he
          generalize hrs : (c.antecedents.filter fun d => !k.isCoreKlause d).reverse = rs at he
          have hmem : ∀ a, a ∈ rs ↔ a ∈ c.antecedents ∧ k.isCoreKlause a = false := by
            intro a
            simp [← hrs]
          have hrsv : ∀ a ∈ rs, ∃ d, db0 a = some d :=
            fun a ha => hvalid r c hr hlearned a ((hmem a).mp ha).1
          have hrsi : INVALID ∉ rs := fun hi => hinv r c hr hlearned ((hmem _).mp hi).1
          have hstack : Stacked db0 (rs ++ INVALID :: r :: stack) := Stacked.append (.frame hr hst) hrsv
          refine ih ⟨h.same, h.valid, h.rep, h.reflagged, hstack, ?_, h.closed,
            fun pre d post hs e hd hl a ha => ?_, h.listed⟩ he
          · rcases h.root with hroot | hroot
            · exact .inl hroot
            · exact .inr (mem_append_right _ (mem_cons_of_mem _ hroot))
          · rcases split_frame hrsi hne hs.symm with ⟨rfl, rfl⟩ | ⟨pre', rfl, hpost⟩
            · obtain rfl : c = e := by simpa [hr] using hd
              obtain ⟨d, hd⟩ := hvalid _ c hr hl a ha
              obtain ⟨d', hd', _⟩ := h.reflagged.some hd
              cases hcore : k.isCoreKlause a with
              | true => exact .inl ⟨d', hd', by rw [← h.rep.core_eq hd', hcore]⟩
              | false => exact .inr ((hmem a).mpr ⟨ha, hcore⟩)
            · rcases h.pending (r :: pre') d post (by simp [hpost]) e hd hl a ha with hfa | hfa
              · exact .inl hfa
              · exact .inr (mem_append_right _ (mem_cons_of_mem _ hfa))
        · next hlearned =>
          refine ih ⟨h.same, h.valid, h.rep, h.reflagged, .frame hr hst, ?_, h.closed,
            fun pre d post hs e hd hl a ha => ?_, h.listed⟩ he
          · rcases h.root with hroot | hroot
            · exact .inl hroot
            · exact .inr (mem_cons_of_mem _ hroot)
          · rcases split_frame not_mem_nil hne hs.symm with ⟨rfl, rfl⟩ | ⟨pre', rfl, hpost⟩
            · obtain rfl : c = e := by simpa [hr] using hd
              exact absurd hl hlearned
            · rcases h.pending (r :: pre') d post (by simp [hpost]) e hd hl a ha with hfa | hfa
              · exact .inl hfa
              · exact .inr (mem_cons_of_mem _ hfa)

def Passes (db0 : ℕ → Option Klause) (rs : List ℕ) : Prop :=
  ∀ k db, Represents k.klauses db → Reflagged db0 db → ∃ n k' db',
    Represents k'.klauses db' ∧ Reflagged db0 db' ∧
      ∀ fuel stack, coreWalk (fuel + n) (rs ++ stack) k = coreWalk fuel stack k'

theorem Passes.append (h : ∀ r ∈ rs, Passes db0 [r]) : Passes db0 rs := by
  induction rs with
  | nil => exact fun k db hrep hf => ⟨0, k, db, hrep, hf, fun _ _ => rfl⟩
  | cons r rs ih =>
    intro k db hrep hf
    obtain ⟨n, k1, db1, hrep1, hf1, h1⟩ := h r (by simp) k db hrep hf
    obtain ⟨m, k2, db2, hrep2, hf2, h2⟩ := ih (fun a ha => h a (by simp [ha])) k1 db1 hrep1 hf1
    refine ⟨m + n, k2, db2, hrep2, hf2, fun fuel stack => ?_⟩
    rw [← Nat.add_assoc, cons_append, ← h2]
    exact h1 (fuel + m) (rs ++ stack)

theorem coreWalk_visit (hne : r ≠ INVALID) : coreWalk (fuel + 1) (r :: stack) k =
    if k.isCoreKlause r then coreWalk fuel stack k
    else if k.isLearnedKlause r then
      coreWalk fuel (((k.klauseAntecedents r).filter fun d => !k.isCoreKlause d).reverse ++
        INVALID :: r :: stack) k
    else coreWalk fuel (INVALID :: r :: stack) k := by
  conv_lhs => unfold coreWalk
  rw [if_neg hne]

theorem passes_of_some (hold : ∀ r c, db0 r = some c → c.learned = true → ∀ a ∈ c.antecedents, a < r ∧
    ∃ d, db0 a = some d) (hr : db0 r = some c) : Passes db0 [r] := by
  -- antecedents are older than the klause they derive
  induction r using Nat.strong_induction_on generalizing c with
  | _ r ih =>
    intro k db hrep hf
    obtain ⟨c', hc', _, hl, ha⟩ := hf.some hr
    have hne := hrep.ne_invalid hc'
    by_cases hcore : k.isCoreKlause r = true
    · refine ⟨1, k, db, hrep, hf, fun fuel stack => ?_⟩
      rw [singleton_append, coreWalk_visit hne, if_pos hcore]
    · obtain ⟨rs, hrs, hstep⟩ : ∃ rs, (∀ a ∈ rs, Passes db0 [a]) ∧ ∀ fuel stack,
          coreWalk (fuel + 1) (r :: stack) k = coreWalk fuel (rs ++ INVALID :: r :: stack) k := by
        by_cases hlearned : k.isLearnedKlause r = true
        · have hlc : c'.learned = true := by rw [← hrep.learned_eq hc', hlearned]
          refine ⟨((k.klauseAntecedents r).filter fun d => !k.isCoreKlause d).reverse, fun a hmem => ?_,
            fun fuel stack => ?_⟩
          · rw [hrep.antecedents_eq hc' hlc, ha] at hmem
            have hmem' : a ∈ c.antecedents := by
              simp only [mem_reverse, mem_filter] at hmem
              exact hmem.1
            obtain ⟨hlt, d, hd⟩ := hold r c hr (hl.symm.trans hlc) a hmem'
            exact ih a hlt hd
          · rw [coreWalk_visit hne, if_neg hcore, if_pos hlearned]
        · refine ⟨[], by simp, fun fuel stack => ?_⟩
          rw [coreWalk_visit hne, if_neg hcore, if_neg hlearned]
          rfl
      obtain ⟨n, k1, db1, hrep1, hf1, h1⟩ := Passes.append hrs k db hrep hf
      obtain ⟨c1, hc1, _⟩ := hf1.some hr
      refine ⟨1 + n + 1, setCoreKlause { k1 with core := k1.core ++ [r] } r, _,
        hrep1.setFlags hc1 true ?_, hf1.trans (.update hc1 true), fun fuel stack => ?_⟩
      · show (({ k1 with core := k1.core ++ [r] } : Kitten).klauseFlags r) ||| CORE_FLAG = _
        rw [hrep1.flags_eq (k := { k1 with core := k1.core ++ [r] }) hc1]
        exact c1.flags_or_core
      · rw [← Nat.add_assoc, singleton_append, hstep, ← Nat.add_assoc, h1, coreWalk, if_pos rfl]

theorem computeClausalCore_halts (hst : Stable k db0 F) : ∃ fuel, (computeClausalCore fuel k).isSome = true := by
  by_cases hc : k.status ≠ .inconsistent ∨ k.antecedents = false
  · exact ⟨0, by unfold computeClausalCore; rw [if_pos hc]; rfl⟩
  · obtain ⟨hs, hant⟩ : k.status = .inconsistent ∧ k.antecedents = true := by simpa using hc
    cases hroot : k.inconsistent.or k.failing with
    | none => exact ⟨0, by unfold computeClausalCore; rw [if_neg hc, hroot]; rfl⟩
    | some root =>
      have hrec : k.inconsistent = some root ∨ k.failing = some root := by
        cases hi : k.inconsistent with
        | none => exact .inr (by simpa [hi] using hroot)
        | some s => exact .inl (by simpa [hi] using hroot)
      obtain ⟨c, hr⟩ := hst.recorded root hrec
      have hder := hst.klauses.derived hant
      have hpass := passes_of_some (fun r c hr hl => (hder r c hr hl).older) hr
      obtain ⟨n, k', _, _, _, h⟩ := hpass k db0 hst.rep (.refl db0)
      refine ⟨1 + n, ?_⟩
      unfold computeClausalCore
      have hwalk := h 1 []
      rw [append_nil] at hwalk
      rw [if_neg hc, hroot]
      dsimp only
      rw [hwalk]
      rfl

def coreOriginals (db : ℕ → Option Klause) : Set (Set ℕ) :=
  {C | ∃ r c, db r = some c ∧ c.learned = false ∧ c.core = true ∧ C = clauseSet c.lits}

theorem Walking.entails (h : Walking k0 db0 root [] k db)
    (hder : ∀ r c, db0 r = some c → c.learned = true → Derived db0 r c) (hr : Flagged db r) (hc : db0 r = some c) :
    Entails valuations (coreOriginals db) (clauseSet c.lits) := by
  induction r using Nat.strong_induction_on generalizing c with
  | _ r ih =>
    obtain ⟨c', hc', hcore⟩ := hr
    obtain ⟨d, hd, hl, hlearned, _⟩ := h.reflagged.some hc
    obtain rfl : d = c' := by simpa [hd] using hc'
    cases hcl : c.learned with
    | false =>
      refine Entails.of_mem ⟨r, d, hd, hlearned.trans hcl, hcore, ?_⟩
      rw [hl]
    | true =>
      have hdr := hder r c hc hcl
      refine hdr.entails.cut ?_
      rintro _ ⟨a, ha, e, he, rfl⟩
      exact ih a (hdr.older a ha).1 (h.closed r c ⟨d, hd, hcore⟩ hc hcl a ha) he

structure Cored (k k' : Kitten) (db0 db : ℕ → Option Klause) : Prop where
  marked : k' = { k with klauses := k'.klauses, core := k'.core, status := .inconsistentCore }
  rep : Represents k'.klauses db
  reflagged : Reflagged db0 db
  listed : ∀ r, Flagged db r → r ∈ k'.core
  root : ∀ r c, k.inconsistent.or k.failing = some r → db0 r = some c →
    Entails valuations (coreOriginals db) (clauseSet c.lits)

theorem computeClausalCore_spec (hst : Stable k db0 F) (hs : k.status = .inconsistent) (hant : k.antecedents = true)
    (he : computeClausalCore fuel k = some k') : ∃ db, Cored k k' db0 db := by
  have hder := hst.klauses.derived hant
  have hclear := hst.core (by rw [hs]; exact nofun)
  have hnone : ∀ r, ¬ Flagged db0 r := by
    rintro r ⟨c, hc, hcore⟩
    simp [hclear r c hc] at hcore
  unfold computeClausalCore at he
  rw [if_neg (by simp [hs, hant])] at he
  split at he
  · next hroot =>
    obtain rfl := some.inj he
    exact ⟨db0, rfl, hst.rep, .refl db0, fun r hr => absurd hr (hnone r), fun r c hr => by simp [hroot] at hr⟩
  · next root hroot =>
    simp only [bind_eq_bind, bind_eq_some_iff] at he
    obtain ⟨k1, hwalk, he⟩ := he
    obtain rfl := some.inj he
    have hrec : k.inconsistent = some root ∨ k.failing = some root := by
      cases hi : k.inconsistent with
      | none => exact .inr (by simpa [hi] using hroot)
      | some s => exact .inl (by simpa [hi] using hroot)
    obtain ⟨c, hc⟩ := hst.recorded root hrec
    have hstart : Walking k db0 root [root] k db0 := by
      refine ⟨rfl, ⟨c, hc⟩, hst.rep, .refl db0, .visit hc .nil, .inr (by simp),
        fun r _ hr => absurd hr (hnone r), fun pre d post hs => ?_, fun r hr => absurd hr (hnone r)⟩
      exfalso
      have hlen := congrArg List.length hs
      simp at hlen
      omega
    have hvalid : ∀ r c, db0 r = some c → c.learned = true →
        ∀ a ∈ c.antecedents, ∃ d, db0 a = some d :=
      fun r c hr hl a ha => ((hder r c hr hl).older a ha).2
    obtain ⟨db, hw⟩ := coreWalk_spec hvalid hstart hwalk
    have hflag : Flagged db root := hw.root.resolve_right (by simp)
    refine ⟨db, ?_, hw.rep, hw.reflagged, hw.listed, fun r e hr he => ?_⟩
    · have hsame := hw.same
      unfold Marked at hsame
      conv_lhs => rw [hsame]
    · obtain rfl : root = r := by simpa [hroot] using hr
      exact hw.entails hder hflag he

theorem coreWalk_marked {stack : List ℕ} (he : coreWalk fuel stack k = some k') : Marked k k' := by
  induction fuel generalizing stack k with
  | zero => simp [coreWalk] at he
  | succ fuel ih =>
    cases stack with
    | nil =>
      obtain rfl := some.inj he
      rfl
    | cons r stack =>
      unfold coreWalk at he
      split at he
      · split at he
        · obtain rfl := some.inj he
          rfl
        · next dRef rest =>
          have hset : Marked k (setCoreKlause { k with core := k.core ++ [dRef] } dRef) := rfl
          exact hset.trans (ih he)
      · split at he
        · exact ih he
        · split at he
          · exact ih he
          · exact ih he

theorem computeClausalCore_marked (he : computeClausalCore fuel k = some k') :
    k' = { k with klauses := k'.klauses, core := k'.core, status := k'.status } := by
  unfold computeClausalCore at he
  split at he
  · obtain rfl := some.inj he
    rfl
  · split at he
    · obtain rfl := some.inj he
      rfl
    · simp only [bind_eq_bind, bind_eq_some_iff] at he
      obtain ⟨k1, hwalk, he⟩ := he
      obtain rfl := some.inj he
      have hsame := coreWalk_marked hwalk
      unfold Marked at hsame
      conv_lhs => rw [hsame]

theorem Idle.cored (h : Idle k db0 F) (hc : Cored k k' db0 db) : Idle k' db F := by
  have hf := hc.reflagged
  have hst : Stable { k with core := k'.core, status := .inconsistentCore } db0 F :=
    { h.stable with core := fun hne => absurd rfl hne }
  have hst' : Stable k' db F := hst.reflag hf hc.rep hc.marked fun hne => absurd rfl hne
  have hcov : ∀ l, k.values l = 1 → l ∈ k.trail ∨ ∃ r ∈ k.units, ∃ c, db r = some c ∧ c.lits = [l] := by
    intro l hl
    refine (h.covered l hl).imp_right fun ⟨r, hr, c, hdb, hlit⟩ => ?_
    obtain ⟨c', hdb', hlits, _⟩ := hf.some hdb
    exact ⟨r, hr, c', hdb', hlits.trans hlit⟩
  have hk := hc.marked
  refine ⟨⟨hst', ?_, ?_, ?_, ?_⟩, ?_⟩
  · rw [hk]
    exact h.watched.reflag hf
  · rw [hk]
    exact h.nodup
  · rw [hk]
    exact h.true_of_mem
  · rw [hk]
    exact hcov
  · rw [hk]
    exact ⟨h.clean.marks, h.clean.analyzed, h.clean.klause, h.clean.resolved⟩

end Nixie.Kitten
