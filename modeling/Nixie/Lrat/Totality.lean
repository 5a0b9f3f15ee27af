import Nixie.Lrat.Tracer

/-!
Where the checker can overflow: the literal `i32::MIN` has neither a negation nor an absolute value.
-/

namespace Nixie.Lrat

open Nixie.Rust

def release : Profile := ⟨false⟩

def dev : Profile := ⟨true⟩

variable {a : Assignment} {lit : Int32} {active : Active}

def negatedLits : Assignment → List Int32 → List Int32
  | _, [] => []
  | a, lit :: rest =>
    lit :: match a.assignTrue release (-lit) with
      | .ok (true, a') => negatedLits a' rest
      | _ => []

def lookedUpLits (a : Assignment) : List Int32 → List Int32
  | [] => []
  | lit :: rest => lit :: if a.status release lit = .ok .true then [] else lookedUpLits a rest

def hintLits (active : Active) : Assignment → List Int64 → List Int32
  | _, [] => []
  | a, hintId :: rest =>
    match active hintId with
    | none => []
    | some hintClause =>
      lookedUpLits a hintClause ++ match scanHint release a hintClause {} with
        | .ok ⟨true, _, _⟩ => hintLits active a rest
        | .ok ⟨false, some lit, false⟩ =>
          match a.assignTrue release lit with
          | .ok (_, a') => hintLits active a' rest
          | _ => []
        | _ => []

def rupLits (active : Active) (clause : List Int32) (hints : List Int64) : List Int32 :=
  negatedLits .new clause ++ match assumeNegation release .new clause with
    | .ok (some a) => hintLits active a hints
    | _ => []

def lineLits (s : Checker) (rawLine : List Char) : List Int32 :=
  if (trim rawLine).isEmpty then []
  else match parseLratLine (trim rawLine) with
    | .ok (.addition _ lits hints) => rupLits s.active lits hints
    | _ => []

def linesLits : Checker → ℕ → List (List Char) → List Int32
  | _, _, [] => []
  | s, i, rawLine :: rest =>
    lineLits s rawLine ++ match checkLine release s (i + 1) rawLine with
      | .ok (.ok s') => linesLits s' (i + 1) rest
      | _ => []

def metLits (originalClauses : List (List Int32)) (lratText : String) : List Int32 :=
  match loadOriginals 0 (fun _ => none) originalClauses with
  | none => []
  | some active => linesLits ⟨active, 0, 0⟩ 0 (lines lratText.toList)

variable {α : Type}

def guarded (met : List Int32) (x : Run α) : Run α :=
  if Int32.minValue ∈ met then .error .overflow else x

theorem guarded_cons (lit : Int32) (met : List Int32) (x : Run α) :
    guarded (lit :: met) x = if lit = Int32.minValue then .error .overflow else guarded met x := by
  unfold guarded
  by_cases h : lit = Int32.minValue
  · simp [h]
  · simp [h, Ne.symm h]

theorem guarded_append (met met' : List Int32) (x : Run α) :
    guarded (met ++ met') x = guarded met (guarded met' x) := by
  unfold guarded
  by_cases h : Int32.minValue ∈ met <;> simp [h]

theorem absI32_dev (x : Int32) : absI32 dev x = if x = Int32.minValue then .error .overflow else .ok x.abs := by
  simp [absI32, dev]

theorem absI32_release (x : Int32) : absI32 release x = .ok x.abs := rfl

theorem negI32_release (x : Int32) : negI32 release x = .ok (-x) := rfl

theorem status_dev (a : Assignment) (lit : Int32) :
    a.status dev lit = if lit = Int32.minValue then .error .overflow else a.status release lit := by
  unfold Assignment.status
  rw [absI32_dev]
  split <;> rfl

theorem assignTrue_dev (a : Assignment) (lit : Int32) :
    a.assignTrue dev lit =
      if lit = Int32.minValue then .error .overflow else a.assignTrue release lit := by
  unfold Assignment.assignTrue
  rw [absI32_dev]
  split <;> rfl

theorem neg_ne_minValue (h : lit ≠ Int32.minValue) : -lit ≠ Int32.minValue := by
  intro hneg
  apply h
  rw [← Int32.neg_neg (a := lit), hneg]
  rfl

theorem assignTrue_release (a : Assignment) (lit : Int32) : ∃ ok a', a.assignTrue release lit = .ok (ok, a') := by
  unfold Assignment.assignTrue
  rw [absI32_release]
  dsimp only [bind, Except.bind]
  split <;> exact ⟨_, _, rfl⟩

theorem assumeNegation_dev (clause : List Int32) (a : Assignment) :
    assumeNegation dev a clause = guarded (negatedLits a clause) (assumeNegation release a clause) := by
  induction clause generalizing a with
  | nil => rfl
  | cons lit rest ih =>
    rw [assumeNegation, assumeNegation, negatedLits, guarded_cons]
    by_cases hlit : lit = Int32.minValue
    · simp [hlit, negI32, dev, bind, Except.bind]
    · obtain ⟨ok, a', ha⟩ := assignTrue_release a (-lit)
      have hneg : negI32 dev lit = .ok (-lit) := by simp [negI32, hlit]
      rw [if_neg hlit, hneg, negI32_release]
      dsimp only [bind, Except.bind]
      rw [assignTrue_dev, if_neg (neg_ne_minValue hlit), ha]
      dsimp only
      cases ok with
      | false => rfl
      | true => exact ih a'

theorem status_release (a : Assignment) (lit : Int32) : ∃ st, a.status release lit = .ok st := by
  unfold Assignment.status
  rw [absI32_release]
  dsimp only [bind, Except.bind]
  split <;> exact ⟨_, rfl⟩

theorem scanHint_dev (clause : List Int32) (s : HintScan) :
    scanHint dev a clause s = guarded (lookedUpLits a clause) (scanHint release a clause s) := by
  induction clause generalizing s with
  | nil => rfl
  | cons lit rest ih =>
    obtain ⟨st, hst⟩ := status_release a lit
    rw [scanHint, scanHint, lookedUpLits, guarded_cons, status_dev]
    by_cases hlit : lit = Int32.minValue
    · simp [hlit, bind, Except.bind]
    · rw [if_neg hlit, if_neg hlit, hst]
      dsimp only [bind, Except.bind]
      cases st with
      | true => rfl
      | false => exact ih s
      | unassigned => exact ih _

theorem scanHint_unassigned {clause : List Int32} {s s' : HintScan} (h : scanHint release a clause s = .ok s')
    (hu : s'.unassignedLit = some lit) : s.unassignedLit = some lit ∨ lit ∈ lookedUpLits a clause := by
  induction clause generalizing s with
  | nil =>
    obtain rfl := Except.ok.inj h
    exact .inl hu
  | cons x rest ih =>
    obtain ⟨st, hst⟩ := status_release a x
    rw [scanHint, hst] at h
    dsimp only [bind, Except.bind] at h
    rw [lookedUpLits, hst]
    cases st with
    | true =>
      obtain rfl := Except.ok.inj h
      exact .inl hu
    | false =>
      rw [if_neg (by simp)]
      exact (ih h).imp_right (List.mem_cons_of_mem _)
    | unassigned =>
      rw [if_neg (by simp)]
      rcases ih h with hs | hmem
      · unfold HintScan.noteUnassigned at hs
        split at hs
        · exact .inl hs
        · obtain rfl := Option.some.inj hs
          exact .inr List.mem_cons_self
      · exact .inr (List.mem_cons_of_mem _ hmem)

theorem scanHint_release (clause : List Int32) (s : HintScan) : ∃ s', scanHint release a clause s = .ok s' := by
  induction clause generalizing s with
  | nil => exact ⟨s, rfl⟩
  | cons lit rest ih =>
    obtain ⟨st, hst⟩ := status_release a lit
    rw [scanHint, hst]
    dsimp only [bind, Except.bind]
    cases st with
    | true => exact ⟨_, rfl⟩
    | false => exact ih s
    | unassigned => exact ih _

theorem replayHints_dev (hints : List Int64) (a : Assignment) :
    replayHints dev active a hints = guarded (hintLits active a hints) (replayHints release active a hints) := by
  induction hints generalizing a with
  | nil => rfl
  | cons hintId rest ih =>
    rw [replayHints, replayHints, hintLits]
    cases hc : active hintId with
    | none => rfl
    | some clause =>
      obtain ⟨s, hs⟩ := @scanHint_release a clause {}
      dsimp only
      rw [scanHint_dev, guarded_append, hs]
      by_cases hmin : Int32.minValue ∈ lookedUpLits a clause
      · simp [guarded, hmin, bind, Except.bind]
      · have hopen : ∀ {α : Type} (x : Run α), guarded (lookedUpLits a clause) x = x := fun x => if_neg hmin
        rw [hopen, hopen]
        dsimp only [bind, Except.bind]
        obtain ⟨satisfied, unassignedLit, multiple⟩ := s
        cases satisfied with
        | true => exact ih a
        | false =>
          cases unassignedLit with
          | none => rfl
          | some lit =>
            cases multiple with
            | true => rfl
            | false =>
              have hlit : lit ≠ Int32.minValue := by
                rintro rfl
                exact hmin ((scanHint_unassigned hs rfl).resolve_left (by simp))
              obtain ⟨ok, a', ha⟩ := assignTrue_release a lit
              dsimp only
              rw [assignTrue_dev, if_neg hlit, ha]
              exact ih a'

theorem assumeNegation_release (clause : List Int32) (a : Assignment) :
    ∃ r, assumeNegation release a clause = .ok r := by
  induction clause generalizing a with
  | nil => exact ⟨_, rfl⟩
  | cons lit rest ih =>
    obtain ⟨ok, a', ha⟩ := assignTrue_release a (-lit)
    rw [assumeNegation, negI32_release]
    dsimp only [bind, Except.bind]
    rw [ha]
    cases ok with
    | false => exact ⟨_, rfl⟩
    | true => exact ih a'

theorem replayHints_release (hints : List Int64) (a : Assignment) :
    ∃ r, replayHints release active a hints = .ok r := by
  induction hints generalizing a with
  | nil => exact ⟨_, rfl⟩
  | cons hintId rest ih =>
    rw [replayHints]
    cases active hintId with
    | none => exact ⟨_, rfl⟩
    | some clause =>
      obtain ⟨s, hs⟩ := @scanHint_release a clause {}
      dsimp only [bind, Except.bind]
      rw [hs]
      dsimp only
      split
      · exact ih a
      · split
        · exact ⟨_, rfl⟩
        · next lit _ =>
          obtain ⟨ok, a', ha⟩ := assignTrue_release a lit
          split
          · exact ⟨_, rfl⟩
          · rw [ha]
            exact ih a'

theorem rupCheck_dev (active : Active) (clause : List Int32) (hints : List Int64) : rupCheck dev active clause hints =
    guarded (rupLits active clause hints) (rupCheck release active clause hints) := by
  obtain ⟨r, hr⟩ := assumeNegation_release clause .new
  unfold rupCheck rupLits
  rw [assumeNegation_dev, guarded_append, hr]
  by_cases hmin : Int32.minValue ∈ negatedLits .new clause
  · simp [guarded, hmin, bind, Except.bind]
  · have hopen : ∀ {α : Type} (x : Run α), guarded (negatedLits .new clause) x = x := fun x => if_neg hmin
    rw [hopen, hopen]
    cases r with
    | none => rfl
    | some a => exact replayHints_dev hints a

theorem rupCheck_release (active : Active) (clause : List Int32) (hints : List Int64) :
    ∃ r, rupCheck release active clause hints = .ok r := by
  obtain ⟨r, hr⟩ := assumeNegation_release clause .new
  unfold rupCheck
  rw [hr]
  cases r with
  | none => exact ⟨_, rfl⟩
  | some a => exact replayHints_release hints a

theorem checkLine_dev (s : Checker) (lineNo : ℕ) (rawLine : List Char) :
    checkLine dev s lineNo rawLine = guarded (lineLits s rawLine) (checkLine release s lineNo rawLine) := by
  unfold checkLine lineLits
  dsimp only
  split
  · rfl
  · cases parseLratLine (trim rawLine) with
    | error e => rfl
    | ok record =>
      cases record with
      | deletion ids => rfl
      | addition id lits hints =>
        dsimp only [checkRecord]
        rw [rupCheck_dev]
        by_cases hmin : Int32.minValue ∈ rupLits s.active lits hints <;> simp [guarded, hmin, bind, Except.bind]

theorem checkLine_release (s : Checker) (lineNo : ℕ) (rawLine : List Char) :
    ∃ r, checkLine release s lineNo rawLine = .ok r := by
  unfold checkLine
  dsimp only
  split
  · exact ⟨_, rfl⟩
  · cases parseLratLine (trim rawLine) with
    | error e => exact ⟨_, rfl⟩
    | ok record =>
      cases record with
      | deletion ids => exact ⟨_, rfl⟩
      | addition id lits hints =>
        obtain ⟨r, hr⟩ := rupCheck_release s.active lits hints
        dsimp only [checkRecord]
        rw [hr]
        dsimp only [bind, Except.bind]
        split
        · exact ⟨_, rfl⟩
        · split <;> exact ⟨_, rfl⟩

theorem checkLines_dev (rest : List (List Char)) (s : Checker) (i : ℕ) :
    checkLines dev s i rest = guarded (linesLits s i rest) (checkLines release s i rest) := by
  induction rest generalizing s i with
  | nil => rfl
  | cons rawLine rest ih =>
    obtain ⟨r, hr⟩ := checkLine_release s (i + 1) rawLine
    rw [checkLines, checkLines, linesLits, checkLine_dev, guarded_append, hr]
    by_cases hmin : Int32.minValue ∈ lineLits s rawLine
    · simp [guarded, hmin, bind, Except.bind]
    · have hopen : ∀ {α : Type} (x : Run α), guarded (lineLits s rawLine) x = x := fun x => if_neg hmin
      rw [hopen, hopen]
      cases r with
      | error report => rfl
      | ok s' => exact ih s' (i + 1)

theorem checkLines_release (rest : List (List Char)) (s : Checker) (i : ℕ) :
    ∃ report, checkLines release s i rest = .ok report := by
  induction rest generalizing s i with
  | nil => exact ⟨_, rfl⟩
  | cons rawLine rest ih =>
    obtain ⟨r, hr⟩ := checkLine_release s (i + 1) rawLine
    rw [checkLines, hr]
    cases r with
    | error report => exact ⟨report, rfl⟩
    | ok s' => exact ih s' (i + 1)

/-- The checker always ends with a report just when it never meets `i32::MIN`. -/
theorem checkLratProof_total_iff (originalClauses : List (List Int32)) (lratText : String) :
    (∀ p, ∃ report, checkLratProof p originalClauses lratText = .ok report) ↔
      Int32.minValue ∉ metLits originalClauses lratText := by
  have hrelease : ∃ report, checkLratProof release originalClauses lratText = .ok report := by
    unfold checkLratProof
    split
    · exact ⟨_, rfl⟩
    · exact checkLines_release _ _ _
  have hdev : checkLratProof dev originalClauses lratText =
      guarded (metLits originalClauses lratText) (checkLratProof release originalClauses lratText) := by
    unfold checkLratProof metLits
    cases loadOriginals 0 (fun _ => none) originalClauses with
    | none => rfl
    | some active => exact checkLines_dev _ _ _
  constructor
  · intro h hmin
    obtain ⟨report, hr⟩ := h dev
    rw [hdev, guarded, if_pos hmin] at hr
    cases hr
  · rintro hmin ⟨checks⟩
    cases checks with
    | false => exact hrelease
    | true =>
      obtain ⟨report, hr⟩ := hrelease
      exact ⟨report, hdev.trans ((if_neg hmin).trans hr)⟩

/-- An added clause with the literal `i32::MIN` stops a build that checks arithmetic. -/
theorem not_checkLratProof_total :
    checkLratProof dev [[1]] "2 -2147483648 0 0" = .error .overflow := rfl

end Nixie.Lrat
