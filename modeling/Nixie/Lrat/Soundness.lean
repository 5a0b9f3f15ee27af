import Nixie.Lrat.Tracer
import Nixie.Propositional

namespace Nixie.Lrat

open Nixie.Rust Nixie.Propositional List Function

theorem abs_eq_ite (l : Int32) : l.abs = if l < 0 then -l else l := by
  have hmsb : l.toBitVec.msb = decide (l < 0) := by
    rw [BitVec.msb_eq_toInt]
    apply decide_eq_decide.mpr
    rw [Int32.lt_iff_toInt_lt, Int32.toInt_zero]
    rfl
  apply Int32.toBitVec_inj.mp
  change l.toBitVec.abs = _
  by_cases hl : l < 0
  · rw [BitVec.abs, hmsb, if_pos hl, if_pos (by simpa using hl)]
    rfl
  · rw [BitVec.abs, hmsb, if_neg hl, if_neg (by simpa using hl)]

theorem abs_eq_zero (l : Int32) : l.abs = 0 ↔ l = 0 := by
  rw [abs_eq_ite]
  split
  · exact not_iff_not.mp Int32.neg_ne_zero
  · rfl

theorem abs_eq_minValue (l : Int32) : l.abs = Int32.minValue ↔ l = Int32.minValue := by
  rw [abs_eq_ite]
  split
  · constructor
    · intro h
      rw [← Int32.neg_neg (a := l), h]
      rfl
    · rintro rfl; rfl
  · rfl

theorem toInt_neg (l : Int32) (hm : l ≠ Int32.minValue) : (-l).toInt = -l.toInt := by
  have hne : l.toInt ≠ -2147483648 := fun h => hm (Int32.toInt_inj.mp (by simpa using h))
  have hlo := Int32.le_toInt l
  have hhi := Int32.toInt_lt l
  rw [Int32.toInt_neg]
  apply Int.bmod_eq_of_le <;> omega

theorem abs_neg (l : Int32) (h0 : l ≠ 0) (hm : l ≠ Int32.minValue) : (-l).abs = l.abs := by
  have hne : l.toInt ≠ 0 := fun h => h0 (Int32.toInt_inj.mp (by simpa using h))
  have hneg := toInt_neg l hm
  rw [abs_eq_ite, abs_eq_ite]
  simp only [Int32.lt_iff_toInt_lt, hneg, Int32.neg_neg, Int32.toInt_zero]
  by_cases hl : l.toInt < 0
  · rw [if_neg (by omega), if_pos hl]
  · rw [if_pos (by omega), if_neg hl]

theorem neg_pos_iff (l : Int32) (h0 : l ≠ 0) (hm : l ≠ Int32.minValue) : 0 < -l ↔ ¬ 0 < l := by
  have hne : l.toInt ≠ 0 := fun h => h0 (Int32.toInt_inj.mp (by simpa using h))
  rw [Int32.lt_iff_toInt_lt, Int32.lt_iff_toInt_lt, toInt_neg l hm, Int32.toInt_zero]
  omega

def Assigns (σ : Int32 → Bool) (l : Int32) : Prop := σ l.abs = decide (0 < l)

/-- `0` and `i32::MIN` are their own negations.  Giving their variables the value `false` makes
both literals true, which is how the checker reads them. -/
def Normal (σ : Int32 → Bool) : Prop := σ 0 = false ∧ σ Int32.minValue = false

theorem Normal.assigns_neg {σ : Int32 → Bool} (hσ : Normal σ) {l : Int32} (h : ¬ Assigns σ l) : Assigns σ (-l) := by
  have h0 : l ≠ 0 := by
    rintro rfl
    exact h hσ.1
  have hm : l ≠ Int32.minValue := by
    rintro rfl
    exact h hσ.2
  unfold Assigns at h ⊢
  have hp := neg_pos_iff l h0 hm
  rw [abs_neg l h0 hm]
  by_cases hl : 0 < l
  · simpa [hp, hl] using h
  · simpa [hp, hl] using h

def normalize (σ : Int32 → Bool) : Int32 → Bool :=
  update (update σ 0 false) Int32.minValue false

theorem normalize_normal (σ : Int32 → Bool) : Normal (normalize σ) := by
  constructor <;> rfl

theorem assigns_normalize (σ : Int32 → Bool) {l : Int32} (h0 : l ≠ 0) (hm : l ≠ Int32.minValue) :
    Assigns (normalize σ) l ↔ Assigns σ l := by
  have h0' : l.abs ≠ 0 := fun h => h0 ((abs_eq_zero l).mp h)
  have hm' : l.abs ≠ Int32.minValue := fun h => hm ((abs_eq_minValue l).mp h)
  simp [Assigns, normalize, h0', hm']

def valuations : Set (Int32 → Prop) := Set.range Assigns

def normalValuations : Set (Int32 → Prop) := Assigns '' {σ | Normal σ}

def clauseSet (c : List Int32) : Set Int32 := {l | l ∈ c}

def formula (clauses : List (List Int32)) : Set (Set Int32) := clauseSet '' {c | c ∈ clauses}

def Assignment.Agrees (a : Assignment) (σ : Int32 → Bool) : Prop :=
  ∀ var b, a var = some b → σ var = b

section

variable {p : Profile} {σ : Int32 → Bool} {a a' : Assignment} {l : Int32}

theorem status_agrees (ha : a.Agrees σ) {st : LitStatus} (h : a.status p l = .ok st) :
    (st = .true → Assigns σ l) ∧ (st = .false → ¬ Assigns σ l) := by
  obtain ⟨var, hvar, h⟩ := bind_eq_ok.mp h
  obtain rfl := absI32_eq_ok hvar
  cases hx : a l.abs with
  | none =>
    simp only [hx] at h
    cases h
    simp
  | some b =>
    simp only [hx] at h
    have hb := ha _ _ hx
    by_cases heq : decide (0 < l) = b
    · simp only [heq, beq_self_eq_true, ↓reduceIte] at h
      cases h
      simp [Assigns, hb, heq]
    · simp only [beq_eq_false_iff_ne.mpr heq, Bool.false_eq_true, ↓reduceIte] at h
      cases h
      simpa [Assigns, hb] using fun h => heq h.symm

theorem assignTrue_agrees (ha : a.Agrees σ) (hl : Assigns σ l) {ok : Bool}
    (h : a.assignTrue p l = .ok (ok, a')) : ok = true ∧ a'.Agrees σ := by
  obtain ⟨var, hvar, h⟩ := bind_eq_ok.mp h
  obtain rfl := absI32_eq_ok hvar
  cases hx : a l.abs with
  | none =>
    simp only [hx] at h
    cases h
    refine ⟨rfl, ?_⟩
    intro var b hb
    by_cases hv : var = l.abs
    · subst hv
      rw [update_self, Option.some_inj] at hb
      rw [← hb]
      exact hl
    · rw [update_of_ne hv] at hb
      exact ha var b hb
  | some b =>
    simp only [hx] at h
    cases h
    have hb := ha _ _ hx
    exact ⟨by rw [← hb, hl]; simp, ha⟩

theorem assumeNegation_agrees (hσ : Normal σ) (clause : List Int32) (hc : ∀ l ∈ clause, ¬ Assigns σ l) (ha : a.Agrees σ)
    {r : Option Assignment} (h : assumeNegation p a clause = .ok r) : ∃ a', r = some a' ∧ a'.Agrees σ := by
  induction clause generalizing a with
  | nil =>
    cases h
    exact ⟨a, rfl, ha⟩
  | cons l rest ih =>
    obtain ⟨m, hm, h⟩ := bind_eq_ok.mp h
    obtain rfl := negI32_eq_ok hm
    obtain ⟨⟨ok, a'⟩, hassign, h⟩ := bind_eq_ok.mp h
    obtain ⟨rfl, ha'⟩ := assignTrue_agrees ha (hσ.assigns_neg (hc l (by simp))) hassign
    exact ih (fun m hm => hc m (mem_cons_of_mem _ hm)) ha' h

def HintScan.Covers (s : HintScan) (σ : Int32 → Bool) : Prop :=
  s.satisfied = true ∨
    ∃ u, s.unassignedLit = some u ∧ (s.hasMultipleUnassigned = true ∨ Assigns σ u)

theorem HintScan.Covers.noteUnassigned {s : HintScan} (l : Int32) (h : s.Covers σ ∨ Assigns σ l) :
    (s.noteUnassigned l).Covers σ := by
  unfold HintScan.noteUnassigned
  cases hu : s.unassignedLit with
  | none =>
    rcases h with (hs | ⟨u, hs, _⟩) | hl
    · exact .inl hs
    · rw [hu] at hs
      cases hs
    · exact .inr ⟨l, rfl, .inr hl⟩
  | some u =>
    by_cases hul : u = l
    · subst hul
      rcases h with (hs | ⟨w, hs, hw⟩) | hl
      · exact .inl (by simpa using hs)
      · rw [hu, Option.some_inj] at hs
        subst hs
        exact .inr ⟨u, by simp, by simpa using hw⟩
      · exact .inr ⟨u, by simp, .inr hl⟩
    · exact .inr ⟨u, by simp [hul], .inl (by simp [hul])⟩

theorem scanHint_covers (ha : a.Agrees σ) (clause : List Int32) {s s' : HintScan}
    (hs : s.Covers σ ∨ ∃ l ∈ clause, Assigns σ l) (h : scanHint p a clause s = .ok s') : s'.Covers σ := by
  induction clause generalizing s with
  | nil =>
    cases h
    simpa using hs
  | cons l rest ih =>
    obtain ⟨st, hst, h⟩ := bind_eq_ok.mp h
    obtain ⟨htrue, hfalse⟩ := status_agrees ha hst
    cases st with
    | true =>
      cases h
      exact .inl rfl
    | false =>
      refine ih ?_ h
      refine hs.imp_right ?_
      rintro ⟨m, hm, hσm⟩
      rcases mem_cons.mp hm with rfl | hm
      · exact absurd hσm (hfalse rfl)
      · exact ⟨m, hm, hσm⟩
    | unassigned =>
      refine ih ?_ h
      rcases hs with hs | ⟨m, hm, hσm⟩
      · exact .inl (HintScan.Covers.noteUnassigned l (.inl hs))
      · rcases mem_cons.mp hm with rfl | hm
        · exact .inl (HintScan.Covers.noteUnassigned m (.inr hσm))
        · exact .inr ⟨m, hm, hσm⟩

theorem replayHints_consistent {active : Active} (hactive : ∀ id c, active id = some c → ∃ l ∈ c, Assigns σ l)
    (hints : List Int64) (ha : a.Agrees σ) : replayHints p active a hints ≠ .ok (.ok ()) := by
  induction hints generalizing a with
  | nil => intro h; cases h
  | cons hintId rest ih =>
    intro h
    unfold replayHints at h
    cases hc : active hintId with
    | none =>
      simp only [hc] at h
      cases h
    | some c =>
      simp only [hc] at h
      obtain ⟨s, hs, h⟩ := bind_eq_ok.mp h
      have hcov := scanHint_covers ha c (.inr (hactive hintId c hc)) hs
      split at h
      · exact ih ha h
      · next hsat =>
        obtain hs | ⟨u, hu, hmu⟩ := hcov
        · exact hsat hs
        · simp only [hu] at h
          split at h
          · cases h
          · next hmult =>
            obtain ⟨⟨ok, a'⟩, hassign, h⟩ := bind_eq_ok.mp h
            exact ih (assignTrue_agrees ha (hmu.resolve_left hmult) hassign).2 h

theorem rupCheck_sound (hσ : Normal σ) {active : Active} (hactive : ∀ id c, active id = some c → ∃ l ∈ c, Assigns σ l)
    {clause : List Int32} {hints : List Int64} (h : rupCheck p active clause hints = .ok (.ok ())) : ∃ l ∈ clause,
    Assigns σ l := by
  by_contra hnone
  obtain ⟨r, hr, h⟩ := bind_eq_ok.mp h
  obtain ⟨a, rfl, ha⟩ := assumeNegation_agrees hσ clause (fun l hl hσl => hnone ⟨l, hl, hσl⟩)
    (show Assignment.new.Agrees σ by intro var b hb; cases hb) hr
  exact replayHints_consistent hactive hints ha h

end

section

variable {p : Profile} {originals : List (List Int32)}

def Active.Entailed (active : Active) (originals : List (List Int32)) : Prop :=
  ∀ id c, active id = some c → Entails normalValuations (formula originals) (clauseSet c)

variable {active : Active}

theorem Active.Entailed.update (h : active.Entailed originals) (id : Int64) {r : Option (List Int32)}
    (hr : ∀ c, r = some c → Entails normalValuations (formula originals) (clauseSet c)) :
    Active.Entailed (update active id r) originals := by
  intro id' c hc
  by_cases hid : id' = id
  · subst hid
    rw [update_self] at hc
    exact hr c hc
  · rw [update_of_ne hid] at hc
    exact h id' c hc

theorem loadOriginals_entailed (clauses : List (List Int32)) (hc : ∀ c ∈ clauses, c ∈ originals) (i : ℕ)
    {active' : Active} (h : active.Entailed originals) (hload : loadOriginals i active clauses = some active') :
    active'.Entailed originals := by
  induction clauses generalizing i active with
  | nil =>
    cases hload
    exact h
  | cons c rest ih =>
    unfold loadOriginals at hload
    split at hload
    · cases hload
    · refine ih (fun d hd => hc d (mem_cons_of_mem _ hd)) _ (h.update _ ?_) hload
      intro d hd
      obtain rfl := Option.some_inj.mp hd
      exact .of_mem ⟨c, hc c (by simp), rfl⟩

theorem loadOriginals_eq_none (clauses : List (List Int32)) (i : ℕ) (active : Active)
    (h : loadOriginals i active clauses = none) : [] ∈ clauses := by
  induction clauses generalizing i active with
  | nil => cases h
  | cons c rest ih =>
    unfold loadOriginals at h
    split at h
    · next hc => simp [isEmpty_iff.mp hc]
    · exact mem_cons_of_mem _ (ih _ _ h)

theorem deleteIds_entailed {s : Checker} (h : s.active.Entailed originals) (ids : List Int64) :
    (s.deleteIds ids).active.Entailed originals := by
  unfold Checker.deleteIds
  generalize s.active = active at h
  induction ids generalizing active with
  | nil => exact h
  | cons id ids ih => exact ih _ (h.update id (by simp))

theorem rupCheck_entailed (h : active.Entailed originals) {clause : List Int32} {hints : List Int64}
    (hc : rupCheck p active clause hints = .ok (.ok ())) :
    Entails normalValuations (formula originals) (clauseSet clause) := by
  rintro _ ⟨σ, hσ, rfl⟩ hF
  exact rupCheck_sound hσ (fun id c hid => h id c hid _ ⟨σ, hσ, rfl⟩ hF) hc

theorem checkLine_sound {s : Checker} (h : s.active.Entailed originals) {lineNo : ℕ}
    {rawLine : List Char} {r : Except LratCheckReport Checker}
    (hr : checkLine p s lineNo rawLine = .ok r) :
    match r with
    | .ok s' => s'.active.Entailed originals
    | .error report => report.verified = true →
        Entails normalValuations (formula originals) ∅ := by
  simp only [checkLine] at hr
  split at hr
  · cases hr
    exact h
  split at hr
  · cases hr
    simp [LratCheckReport.reject]
  next record _ =>
    cases record with
    | deletion ids =>
      cases hr
      exact deleteIds_entailed h ids
    | addition id lits hints =>
      obtain ⟨out, hout, hr⟩ := bind_eq_ok.mp hr
      cases out with
      | error e =>
        cases hr
        simp [LratCheckReport.reject]
      | ok u =>
        have hlits := rupCheck_entailed h hout
        simp only at hr
        split at hr
        · next hempty =>
          cases hr
          intro _
          rw [isEmpty_iff.mp hempty] at hlits
          exact hlits.weaken (by intro l hl; cases hl)
        · cases hr
          exact h.update id (by rintro c hc; cases hc; exact hlits)

theorem checkLines_sound (lines : List (List Char)) {s : Checker} (h : s.active.Entailed originals)
    (i : ℕ) {report : LratCheckReport} (hr : checkLines p s i lines = .ok report)
    (hv : report.verified = true) : Entails normalValuations (formula originals) ∅ := by
  induction lines generalizing s i with
  | nil =>
    cases hr
    cases hv
  | cons rawLine rest ih =>
    obtain ⟨r, hline, hr⟩ := bind_eq_ok.mp hr
    have hstep := checkLine_sound h hline
    cases r with
    | error report' =>
      cases hr
      exact hstep hv
    | ok s' => exact ih hstep _ hr

theorem satisfies_normalize {σ : Int32 → Bool} (hlits : ∀ c ∈ originals, ∀ l ∈ c, l ≠ 0 ∧ l ≠ Int32.minValue)
    (h : Satisfies (Assigns σ) (formula originals)) : Satisfies (Assigns (normalize σ)) (formula originals) := by
  rintro _ ⟨c, hc, rfl⟩
  obtain ⟨l, hl, hσl⟩ := h _ ⟨c, hc, rfl⟩
  obtain ⟨h0, hm⟩ := hlits c hc l hl
  exact ⟨l, hl, (assigns_normalize σ h0 hm).mpr hσl⟩

theorem checkLratProof_sound (p : Profile) (originals : List (List Int32)) (lratText : String)
    (hlits : ∀ c ∈ originals, ∀ l ∈ c, l ≠ 0 ∧ l ≠ Int32.minValue) {report : LratCheckReport}
    (h : checkLratProof p originals lratText = .ok report) (hv : report.verified = true) :
    Unsatisfiable valuations (formula originals) := by
  have hempty : Entails normalValuations (formula originals) ∅ := by
    unfold checkLratProof at h
    split at h
    · next hload =>
      have hmem := loadOriginals_eq_none originals 0 _ hload
      have hF : clauseSet [] ∈ formula originals := ⟨[], hmem, rfl⟩
      exact (Entails.of_mem hF).weaken (by intro l hl; cases hl)
    · next active hload =>
      have hnew : Active.Entailed (fun _ => none) originals := by intro id c hc; cases hc
      have hactive := loadOriginals_entailed originals (fun c hc => hc) 0 hnew hload
      exact checkLines_sound _ hactive 0 h hv
  rintro _ ⟨σ, rfl⟩ hF
  exact not_holds_empty (hempty _ ⟨normalize σ, normalize_normal σ, rfl⟩ (satisfies_normalize hlits hF))

theorem checkLratProof_sound_unit_clash : Unsatisfiable valuations (formula [[1, 2], [-1, 2], [-2]]) := by
  refine checkLratProof_sound ⟨true⟩ _ "1 d 7 0\r\n4 2 2 0 1 2 0\n4 0 3 4 0\n" ?_
    (show checkLratProof ⟨true⟩ _ _ = .ok (.accept 2 1) by decide +kernel) rfl
  simp only [forall_mem_cons, not_mem_nil, false_imp_iff, implies_true, and_true]
  decide

end

end Nixie.Lrat
