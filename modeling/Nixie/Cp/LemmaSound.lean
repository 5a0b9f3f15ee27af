import Nixie.Cp.Satisfied

namespace Nixie.Cp

open Ast Budget List Option

namespace CpStatement

variable {s : CpStatement} {v : Term → Bool} {lits : List (Term × Bool)}

def Possible (d : Domain) (lits : List (Term × Bool)) (i : ℕ) : Prop :=
  ∀ lit ∈ lits, ∀ j ∈ List.range d.values.length, refutes d i lit j = false

instance (d : Domain) (lits : List (Term × Bool)) : DecidablePred (Possible d lits) :=
  fun i => inferInstanceAs (Decidable (∀ lit ∈ lits, ∀ j ∈ List.range d.values.length, refutes d i lit j = false))

def choicesOf (lits : List (Term × Bool)) (d : Domain) : List ℕ :=
  (List.range d.values.length).filter (Possible d lits)

theorem indicatorLoop_spec (d : Domain) (i : ℕ) (lit : Term × Bool) (js : List ℕ) (possible : Bool) : Ensures
    (indicatorLoop d i lit js possible) fun b => b = true ↔ possible = true ∧ ∀ j ∈ js, refutes d i lit j = false := by
  induction js generalizing possible with
  | nil => exact .pure (by simp)
  | cons j js ih =>
    refine .spend_bind ((ih _).mono fun b hb => ?_)
    rw [hb, forall_mem_cons, Bool.and_eq_true, Bool.not_eq_true', and_assoc]

theorem literalLoop_spec (d : Domain) (i : ℕ) (lits : List (Term × Bool)) (possible : Bool) :
    Ensures (literalLoop d i lits possible) fun b => b = true ↔ possible = true ∧ Possible d lits i := by
  induction lits generalizing possible with
  | nil => exact .pure (by simp [Possible])
  | cons lit lits ih =>
    refine .spend_bind (.bind (indicatorLoop_spec d i lit _ possible) fun kept hkept => ?_)
    refine (ih kept).mono fun b hb => ?_
    rw [hb, hkept, Possible, Possible, forall_mem_cons, and_assoc]

theorem choiceLoop_spec (d : Domain) (lits : List (Term × Bool)) (is : List ℕ) :
    Ensures (choiceLoop d lits is) fun choices => choices = is.filter (Possible d lits) := by
  induction is with
  | nil => exact .pure rfl
  | cons i is ih =>
    refine .bind (literalLoop_spec d i lits true) fun possible hpossible => ?_
    refine .bind ih fun choices hchoices => .pure ?_
    rw [hchoices, filter_cons]
    by_cases h : Possible d lits i
    · simp [h, hpossible.mpr ⟨rfl, h⟩]
    · have hfalse : possible = false := by
        rw [← Bool.not_eq_true]
        exact fun htrue => h (hpossible.mp htrue).2
      simp [h, hfalse]

theorem remainingLoop_spec (lits : List (Term × Bool)) (domains : List Domain) :
    Ensures (remainingLoop lits domains) fun result => (result = none ∧ ∃ d ∈ domains, choicesOf lits d = []) ∨
    result = some (domains.map (choicesOf lits)) ∧ ∀ d ∈ domains, choicesOf lits d ≠ [] := by
  induction domains with
  | nil => exact .pure (.inr ⟨rfl, by simp⟩)
  | cons d domains ih =>
    refine .bind (choiceLoop_spec d lits _) fun choices hchoices => ?_
    refine .ite (fun hempty => .pure (.inl ⟨rfl, d, mem_cons_self, ?_⟩)) fun hne => ?_
    · rw [List.isEmpty_iff] at hempty
      exact hchoices.symm.trans hempty
    · rw [List.isEmpty_iff] at hne
      refine .bind ih fun rest hrest => .pure ?_
      rcases hrest with ⟨rfl, d', hd', hempty⟩ | ⟨rfl, hrest⟩
      · exact .inl ⟨rfl, d', List.mem_cons_of_mem d hd', hempty⟩
      · refine .inr ⟨by rw [hchoices]; rfl, forall_mem_cons.mpr ⟨?_, hrest⟩⟩
        exact fun h => hne (hchoices.trans h)

theorem selected_mem_choicesOf {d : Domain} {i : ℕ} (haligned : d.values.length = d.atoms.length)
    (hselects : Selects v d i) (hnegations : ∀ j (h : j < d.atoms.length) (h' : j < d.negations.length),
    v d.negations[j] = !v d.atoms[j]) (hlength : d.atoms.length = d.negations.length)
    (hlits : ∀ lit ∈ lits, v lit.1 = lit.2) : i ∈ choicesOf lits d := by
  rw [choicesOf, mem_filter, mem_range, decide_eq_true_eq]
  refine ⟨haligned ▸ hselects.bound, fun lit hlit j hj => ?_⟩
  rw [mem_range, haligned] at hj
  have hatom := hselects.truth j hj
  have hnegation := hnegations j hj (hlength ▸ hj)
  have hlit := hlits lit hlit
  unfold refutes
  rw [getElem?_eq_getElem hj, getElem?_eq_getElem (hlength ▸ hj)]
  simp only [Bool.or_eq_false_iff, Bool.and_eq_false_iff, bne_eq_false_iff_eq, beq_eq_false_iff_ne, ne_eq, some.injEq]
  refine ⟨?_, ?_⟩
  · by_cases heq : d.atoms[j] = lit.1
    · right
      rw [← hlit, ← heq, hatom]
      by_cases hij : i = j
      · simp [hij]
      · simp [hij, Ne.symm hij]
    · exact .inl heq
  · by_cases heq : d.negations[j] = lit.1
    · right
      rw [← hlit, ← heq, hnegation, hatom]
      by_cases hij : i = j
      · simp [hij]
      · simp [hij, Ne.symm hij]
    · exact .inl heq

section

variable (s) in
def PossibleTruth (p : Presence) (lits : List (Term × Bool)) (truth : Bool) : Prop :=
  ¬ (p.atom = s.trueTerm ∧ truth = false) ∧ ¬ (p.atom = s.falseTerm ∧ truth = true) ∧
    ∀ lit ∈ lits, ¬ (lit.1 = p.atom ∧ truth ≠ lit.2) ∧ ¬ (lit.1 = p.negation ∧ truth = lit.2)

instance (p : Presence) (lits : List (Term × Bool)) : DecidablePred (PossibleTruth s p lits) :=
  fun _ => inferInstanceAs (Decidable (_ ∧ _ ∧ _))

variable (s) in
def truthsOf (lits : List (Term × Bool)) (p : Presence) : List Bool :=
  [false, true].filter (PossibleTruth s p lits)

theorem presenceLiteralLoop_spec (p : Presence) (truth : Bool) (lits : List (Term × Bool)) (possible : Bool) :
    Ensures (presenceLiteralLoop p truth lits possible) fun b => b = true ↔ possible = true ∧
    ∀ lit ∈ lits, ¬ (lit.1 = p.atom ∧ truth ≠ lit.2) ∧ ¬ (lit.1 = p.negation ∧ truth = lit.2) := by
  induction lits generalizing possible with
  | nil => exact .pure (by simp)
  | cons lit lits ih =>
    refine .spend_bind ((ih _).mono fun b hb => ?_)
    rw [hb, forall_mem_cons, Bool.and_eq_true, and_assoc]
    refine and_congr_right fun _ => and_congr_left fun _ => ?_
    simp [imp_iff_not_or]

theorem presenceChoiceLoop_spec (p : Presence) (lits : List (Term × Bool)) (truths : List Bool) : Ensures
    (presenceChoiceLoop s p lits truths) fun choices => choices = truths.filter (PossibleTruth s p lits) := by
  induction truths with
  | nil => exact .pure rfl
  | cons truth truths ih =>
    refine .bind (presenceLiteralLoop_spec p truth lits _) fun possible hpossible => ?_
    refine .bind ih fun choices hchoices => .pure ?_
    have hiff : possible = true ↔ PossibleTruth s p lits truth := by
      rw [hpossible, PossibleTruth, ← and_assoc]
      refine and_congr_left fun _ => ?_
      simp [imp_iff_not_or]
    rw [hchoices, filter_cons]
    by_cases h : PossibleTruth s p lits truth
    · simp [h, hiff.mpr h]
    · have hfalse : possible = false := by
        rw [← Bool.not_eq_true]
        exact fun htrue => h (hiff.mp htrue)
      simp [h, hfalse]

theorem presenceLoop_spec (lits : List (Term × Bool)) (presences : List Presence) :
    Ensures (presenceLoop s lits presences) fun result => (result = none ∧ ∃ p ∈ presences, truthsOf s lits p = []) ∨
    result = some (presences.map (truthsOf s lits)) ∧ ∀ p ∈ presences, truthsOf s lits p ≠ [] := by
  induction presences with
  | nil => exact .pure (.inr ⟨rfl, by simp⟩)
  | cons p presences ih =>
    refine .bind (presenceChoiceLoop_spec p lits _) fun choices hchoices => ?_
    refine .ite (fun hempty => .pure (.inl ⟨rfl, p, mem_cons_self, ?_⟩)) fun hne => ?_
    · rw [List.isEmpty_iff] at hempty
      exact hchoices.symm.trans hempty
    · rw [List.isEmpty_iff] at hne
      refine .bind ih fun rest hrest => .pure ?_
      rcases hrest with ⟨rfl, p', hp', hempty⟩ | ⟨rfl, hrest⟩
      · exact .inl ⟨rfl, p', List.mem_cons_of_mem p hp', hempty⟩
      · refine .inr ⟨by rw [hchoices]; rfl, forall_mem_cons.mpr ⟨?_, hrest⟩⟩
        exact fun h => hne (hchoices.trans h)

theorem truth_mem_truthsOf {p : Presence} (htrue : v s.trueTerm = true) (hfalse : v s.falseTerm = false)
    (hnegation : v p.negation = !v p.atom) (hlits : ∀ lit ∈ lits, v lit.1 = lit.2) : v p.atom ∈ truthsOf s lits p := by
  rw [truthsOf, mem_filter, decide_eq_true_eq]
  refine ⟨by cases v p.atom <;> simp, ?_, ?_, fun lit hlit => ⟨?_, ?_⟩⟩
  · rintro ⟨heq, h⟩
    rw [heq, htrue] at h
    cases h
  · rintro ⟨heq, h⟩
    rw [heq, hfalse] at h
    cases h
  · rintro ⟨heq, h⟩
    exact h (heq ▸ hlits lit hlit)
  · rintro ⟨heq, h⟩
    rw [← hlits lit hlit, heq, hnegation] at h
    cases hatom : v p.atom <;> simp [hatom] at h

end

section

variable {α : Type} {choices : List (List α)} {default : α}

@[simp] theorem assign_length (indices digits : List ℕ) (current : List α) :
    (assign choices default indices digits current).length = current.length := by
  induction indices generalizing digits current with
  | nil => simp [assign]
  | cons index indices ih =>
    cases digits with
    | nil => rfl
    | cons digit digits => rw [assign, ih, length_set]

variable {indices : List ℕ} {k : ℕ}

theorem assign_of_not_mem (h : k ∉ indices) (digits : List ℕ) (current : List α) :
    (assign choices default indices digits current)[k]? = current[k]? := by
  induction indices generalizing digits current with
  | nil => simp [assign]
  | cons index indices ih =>
    rw [mem_cons, not_or] at h
    cases digits with
    | nil => rfl
    | cons digit digits => rw [assign, ih h.2, getElem?_set_ne (Ne.symm h.1)]

theorem assign_map (h : k ∈ indices) (digit : ℕ → ℕ) (rest : List ℕ) {current : List α}
    (hk : k < current.length) : (assign choices default indices (indices.map digit ++ rest) current)[k]? =
    some ((choices[k]?.bind fun xs => xs[digit k]?).getD default) := by
  induction indices generalizing current with
  | nil => cases h
  | cons index indices ih =>
    rw [map_cons, cons_append, assign]
    by_cases hmem : k ∈ indices
    · exact ih hmem (by simpa using hk)
    · have hindex : k = index := (mem_cons.mp h).resolve_right hmem
      subst hindex
      rw [assign_of_not_mem hmem, getElem?_set_self hk]

theorem mem_canonical : k ∈ canonical indices ↔ k ∈ indices := by
  rw [canonical, mem_dedup, mem_mergeSort]

theorem supportLoop_finds {remaining : List (List ℕ)} {presenceChoices : List (List Bool)} {c : Constraint}
    {vars conditions target : List ℕ} (hdemand : ∀ tasks capacity, c = .cumulative tasks capacity →
    ∀ t ∈ tasks, 0 ≤ t.task.demand) (htarget :
    Odometer.Valid (wheels remaining presenceChoices vars conditions) target)
    (hholds : ∀ selected presences, selected.length = s.domains.length → presences.length = s.presences.length →
    c.Holds (s.selectedValue (assign remaining 0 vars target selected))
    (truthAt (assign presenceChoices false conditions (target.drop vars.length) presences))) (fuel : ℕ)
    {digits selected : List ℕ} {presences : List Bool}
    (hdigits : Odometer.Valid (wheels remaining presenceChoices vars conditions) digits)
    (hle : Odometer.code (wheels remaining presenceChoices vars conditions) digits ≤ Odometer.code
    (wheels remaining presenceChoices vars conditions) target) (hselected : selected.length = s.domains.length)
    (hpresences : presences.length = s.presences.length) :
    Ensures
    (s.supportLoop remaining presenceChoices c vars conditions fuel digits selected presences) fun found => found =
    true := by
  induction fuel generalizing digits selected presences with
  | zero => exact .throw _
  | succ fuel ih =>
    refine .spend_bind (.bind (.spend_bind (satisfiedBy_spec c hdemand)) fun found hfound => ?_)
    refine .ite (fun _ => .pure rfl) fun hnot => ?_
    rcases Odometer.eq_or_after_advance hdigits htarget hle with rfl | ⟨next, hnext, hvalid, hle⟩
    · exact absurd (hfound.mpr (hholds selected presences hselected hpresences)) hnot
    · rw [hnext]
      exact ih hvalid hle (by simpa using hselected) (by simpa using hpresences)

end

section

variable {selected : ℕ → ℕ}

def digitsOf (remaining : List (List ℕ)) (presenceChoices : List (List Bool)) (selected : ℕ → ℕ)
    (truth : ℕ → Bool) (vars conditions : List ℕ) : List ℕ :=
  vars.map (fun v => (remaining[v]?.getD []).idxOf (selected v)) ++
    conditions.map fun i => (presenceChoices[i]?.getD []).idxOf (truth i)

theorem digitsOf_valid {remaining : List (List ℕ)} {presenceChoices : List (List Bool)} {truth : ℕ → Bool}
    {vars conditions : List ℕ} (hvars : ∀ v ∈ vars, selected v ∈ remaining[v]?.getD [])
    (hconditions : ∀ i ∈ conditions, truth i ∈ presenceChoices[i]?.getD []) :
    Odometer.Valid (wheels remaining presenceChoices vars conditions)
    (digitsOf remaining presenceChoices selected truth vars conditions) := by
  refine rel_append ?_ ?_
  · rw [forall₂_map_left_iff, forall₂_map_right_iff, forall₂_same]
    exact fun v hv => idxOf_lt_length_of_mem (hvars v hv)
  · rw [forall₂_map_left_iff, forall₂_map_right_iff, forall₂_same]
    exact fun i hi => idxOf_lt_length_of_mem (hconditions i hi)

theorem getElem_idxOf_of_mem {α : Type} [DecidableEq α] {choices : List (List α)} {k : ℕ} {a default : α}
    (h : a ∈ choices[k]?.getD []) : ((choices[k]?).bind fun xs => xs[(choices[k]?.getD []).idxOf a]?).getD default =
    a := by
  cases hk : choices[k]? with
  | none => simp [hk] at h
  | some c =>
    rw [hk] at h
    have hlt : c.idxOf a < c.length := idxOf_lt_length_of_mem h
    simp [getElem?_eq_getElem hlt]

theorem holds_at_digits {remaining : List (List ℕ)} {presenceChoices : List (List Bool)} {c : Constraint} {truth : ℕ →
    Bool} (hvars : ∀ k ∈ c.vars, k < s.domains.length) (hconditions : ∀ i ∈ c.conditions, i < s.presences.length)
    (hchosen : ∀ k ∈ c.vars, selected k ∈ remaining[k]?.getD []) (htruth : ∀ i ∈ c.conditions, truth i ∈
    presenceChoices[i]?.getD []) (hholds : c.Holds (s.valueAt selected) truth) {current : List ℕ} {presences : List
    Bool} (hcurrent : current.length = s.domains.length) (hpresences : presences.length = s.presences.length) : c.Holds
    (s.selectedValue (assign remaining 0 (canonical c.vars) (digitsOf remaining presenceChoices selected truth
    (canonical c.vars) (canonical c.conditions)) current)) (truthAt (assign presenceChoices false (canonical
    c.conditions) ((digitsOf remaining presenceChoices selected truth (canonical c.vars) (canonical c.conditions)).drop
    (canonical c.vars).length) presences)) := by
  have hdrop : (digitsOf remaining presenceChoices selected truth (canonical c.vars)
      (canonical c.conditions)).drop (canonical c.vars).length =
        ((canonical c.conditions).map fun i => (presenceChoices[i]?.getD []).idxOf (truth i)) ++ [] := by
    rw [append_nil]
    exact drop_left' (length_map ..)
  refine hholds.congr (fun k hk => ?_) fun i hi => ?_
  · have hassigned := @assign_map ℕ remaining 0 _ _ (mem_canonical.mpr hk)
      (fun v => (remaining[v]?.getD []).idxOf (selected v))
      ((canonical c.conditions).map fun i => (presenceChoices[i]?.getD []).idxOf (truth i)) current
      (hcurrent ▸ hvars k hk)
    rw [getElem_idxOf_of_mem (hchosen k hk)] at hassigned
    simp only [valueAt, selectedValue, digitsOf, hassigned, bind_some]
  · have hassigned := @assign_map Bool presenceChoices false _ _ (mem_canonical.mpr hi)
      (fun i => (presenceChoices[i]?.getD []).idxOf (truth i)) [] presences
      (hpresences ▸ hconditions i hi)
    rw [getElem_idxOf_of_mem (htruth i hi)] at hassigned
    rw [hdrop, truthAt, hassigned, getD_some]

theorem refutedLoop_spec (haccepted : s.Accepted)
    (hselects : ∀ n d, s.domains[n]? = some d → selected n ∈ choicesOf lits d)
    (htruths : ∀ p ∈ s.presences, v p.atom ∈ truthsOf s lits p) (constraints : List Constraint)
    (hmem : ∀ c ∈ constraints, c ∈ s.constraints)
    (hholds : ∀ c ∈ constraints, c.Holds (s.valueAt selected) (s.presenceAt v)) :
    Ensures (s.refutedLoop (s.domains.map (choicesOf lits))
    (s.presences.map (truthsOf s lits)) constraints) fun refuted => refuted = false := by
  induction constraints with
  | nil => exact .pure rfl
  | cons c constraints ih =>
    rw [forall_mem_cons] at hmem hholds
    have hchosen : ∀ k ∈ c.vars, selected k ∈ (s.domains.map (choicesOf lits))[k]?.getD [] := by
      intro k hk
      have hget := getElem?_eq_getElem (haccepted.vars c hmem.1 k hk)
      simpa [getElem?_map, hget] using hselects k _ hget
    have htruth : ∀ i ∈ c.conditions,
        s.presenceAt v i ∈ (s.presences.map (truthsOf s lits))[i]?.getD [] := by
      intro i hi
      have hget := getElem?_eq_getElem (haccepted.conditions c hmem.1 i hi)
      simpa [presenceAt, getElem?_map, hget] using htruths _ (getElem_mem _)
    have hvalid := digitsOf_valid (fun k hk => hchosen k ((@mem_canonical c.vars k).mp hk))
      fun i hi => htruth i ((@mem_canonical c.conditions i).mp hi)
    have hzeros := Odometer.valid_zeros (Odometer.pos_of_valid hvalid)
    have hcode := Odometer.code_zeros (wheels (s.domains.map (choicesOf lits))
      (s.presences.map (truthsOf s lits)) (canonical c.vars) (canonical c.conditions))
    have hlength : (wheels (s.domains.map (choicesOf lits)) (s.presences.map (truthsOf s lits))
        (canonical c.vars) (canonical c.conditions)).length =
          (canonical c.vars).length + (canonical c.conditions).length := by
      simp [wheels]
    rw [hlength] at hzeros hcode
    refine .bind (P := fun _ => True) (fun _ _ _ _ => trivial) fun fuel _ => ?_
    refine .bind (supportLoop_finds (haccepted.demands c hmem.1) hvalid
      (fun current presences hcurrent hpresences => holds_at_digits (haccepted.vars c hmem.1)
        (haccepted.conditions c hmem.1) hchosen htruth hholds.1 hcurrent hpresences) _ hzeros
      (hcode.le.trans (Nat.zero_le _)) (length_replicate ..) (length_replicate ..)) fun found hfound => ?_
    exact .ite (fun _ => ih hmem.2 hholds.2) fun hnot => absurd hfound hnot

theorem checkLemma_refuted {conclusion : Term} {premises : List Term} (haccepted : s.Accepted)
    (hv : s.Meets v) (hpremises : ∀ t ∈ premises, v t = true) (hconclusion : v conclusion = false) :
    Ensures (s.checkLemma conclusion premises) fun _ => False := by
  have hlits : ∀ lit ∈ literals conclusion premises, v lit.1 = lit.2 := by
    intro lit hlit
    rw [literals, List.mem_append, List.mem_map, List.mem_singleton] at hlit
    rcases hlit with ⟨t, ht, rfl⟩ | rfl
    · exact hpremises t ht
    · exact hconclusion
  obtain ⟨selected, hselects, hholds⟩ := hv.globals
  have hchosen : ∀ n d, s.domains[n]? = some d →
      selected n ∈ choicesOf (literals conclusion premises) d := by
    intro n d hd
    have hmem := mem_of_getElem? hd
    obtain ⟨haligned, hlength⟩ := haccepted.aligned d hmem
    exact selected_mem_choicesOf haligned (hselects n d hd) (hv.indicators d hmem) hlength hlits
  have htruths : ∀ p ∈ s.presences, v p.atom ∈ truthsOf s (literals conclusion premises) p :=
    fun p hp => truth_mem_truthsOf hv.trueTerm hv.falseTerm (hv.presences p hp) hlits
  refine .spend_bind (.ite (fun htrivial => ?_) fun _ => ?_)
  · rcases htrivial with rfl | hfalse
    · rw [hv.trueTerm] at hconclusion
      cases hconclusion
    · have h := hpremises _ hfalse
      rw [hv.falseTerm] at h
      cases h
  · refine .bind (remainingLoop_spec _ s.domains) fun remaining hremaining => ?_
    rcases hremaining with ⟨-, d, hd, hempty⟩ | ⟨rfl, -⟩
    · obtain ⟨n, hn⟩ := mem_iff_getElem?.mp hd
      have hmem := hchosen n d hn
      rw [hempty] at hmem
      cases hmem
    · refine .bind (presenceLoop_spec _ s.presences) fun presences hpresences => ?_
      rcases hpresences with ⟨-, p, hp, hempty⟩ | ⟨rfl, -⟩
      · have hmem := htruths p hp
        rw [hempty] at hmem
        cases hmem
      · refine .bind (refutedLoop_spec haccepted hchosen htruths s.constraints (fun _ hc => hc) hholds)
          fun refuted hrefuted => ?_
        exact .ite (fun htrue => by rw [hrefuted] at htrue; cases htrue) fun _ => .throw _

end

section

variable {value : Term → Option Bool}

theorem fixedLoop_spec (cells : List (ℕ × Term)) (fixed : Option ℕ) (hnodup : (cells.map Prod.fst).Nodup)
    (hfresh : ∀ k, fixed = some k → k ∉ cells.map Prod.fst) :
    Ensures (fixedLoop value cells fixed) fun result => (∀ k, fixed = some k → result = some k) ∧
    ∀ i, result = some i → (fixed = some i ∨ i ∈ cells.map Prod.fst) ∧
    ∀ c ∈ cells, value c.2 = some (decide (c.1 = i)) := by
  induction cells generalizing fixed with
  | nil => exact .pure ⟨fun k hk => hk, fun i hi => ⟨.inl hi, by simp⟩⟩
  | cons cell cells ih =>
    obtain ⟨k, atom⟩ := cell
    rw [map_cons, nodup_cons] at hnodup
    simp only [map_cons, mem_cons, not_or] at hfresh
    refine .spend_bind ?_
    rcases hatom : value atom with _ | _ | _
    · exact .throw _
    · refine (ih fixed hnodup.2 fun j hj => (hfresh j hj).2).mono fun result h => ⟨h.1, fun i hi => ?_⟩
      obtain ⟨hwhere, hothers⟩ := h.2 i hi
      have hne : k ≠ i := by
        rintro rfl
        rcases hwhere with hfixed | hmem
        · exact (hfresh k hfixed).1 rfl
        · exact hnodup.1 hmem
      refine ⟨?_, forall_mem_cons.mpr ⟨by simp [hatom, hne], hothers⟩⟩
      rcases hwhere with hfixed | hmem
      · exact .inl hfixed
      · exact .inr (by simp [hmem])
    · cases fixed with
      | some k' => exact .throw _
      | none =>
        have hnew : ∀ j, some k = some j → j ∉ cells.map Prod.fst := by
          rintro j ⟨⟩
          exact hnodup.1
        refine (ih (some k) hnodup.2 hnew).mono fun result h => ⟨by simp, fun i hi => ?_⟩
        have hki : k = i := some.inj ((h.1 k rfl).symm.trans hi)
        refine ⟨.inr (by simp [hki]), forall_mem_cons.mpr ⟨?_, (h.2 i hi).2⟩⟩
        simp [hatom, hki]

theorem selectedLoop_spec (domains : List Domain) :
    Ensures (selectedLoop value domains) fun selected => ∀ (n : ℕ) (d : Domain), domains[n]? = some d →
    ∃ i, selected[n]? = some i ∧ i < d.atoms.length ∧ ∀ j (h : j < d.atoms.length), value d.atoms[j] =
    some (decide (j = i)) := by
  induction domains with
  | nil => exact .pure (by simp)
  | cons domain domains ih =>
    have hindices : ((List.range domain.atoms.length).zip domain.atoms).map Prod.fst =
        List.range domain.atoms.length :=
      map_fst_zip (by simp)
    have hnodup : (((List.range domain.atoms.length).zip domain.atoms).map Prod.fst).Nodup := by
      rw [hindices]
      exact nodup_range
    refine .bind (fixedLoop_spec _ none hnodup (by simp)) fun fixed hfixed => ?_
    split
    · exact .throw _
    · next i =>
      refine .bind ih fun selected hselected => .pure fun n d hd => ?_
      cases n with
      | zero =>
        cases hd
        obtain ⟨hbound, hvalues⟩ := hfixed.2 i rfl
        rw [hindices, mem_range] at hbound
        refine ⟨i, rfl, hbound.resolve_left (by simp), fun j hj => ?_⟩
        refine hvalues (j, domain.atoms[j]) ?_
        rw [mem_iff_getElem?]
        exact ⟨j, by simp [hj]⟩
      | succ n =>
        exact hselected n d hd

variable (s value) in
def Reads (atom : Term) (truth : Bool) : Prop :=
  if atom = s.trueTerm then truth = true
  else if atom = s.falseTerm then truth = false
  else value atom = some truth

theorem readPresence_spec (p : Presence) :
    Ensures (s.readPresence value p) fun truth => Reads s value p.atom truth := by
  refine .ite (fun h => .pure ?_) fun h => .ite (fun h' => .pure ?_) fun h' => ?_
  · rw [Reads, if_pos h]
  · rw [Reads, if_neg h, if_pos h']
  · cases htruth : value p.atom with
    | none => exact .throw _
    | some truth => exact .pure (by rw [Reads, if_neg h, if_neg h', htruth])

theorem presenceValueLoop_spec (presences : List Presence) :
    Ensures (s.presenceValueLoop value presences) fun truths => ∀ (n : ℕ) (p : Presence), presences[n]? = some p →
    ∃ truth, truths[n]? = some truth ∧ Reads s value p.atom truth := by
  induction presences with
  | nil => exact .pure (by simp)
  | cons presence presences ih =>
    refine .spend_bind (.bind (readPresence_spec presence) fun truth htruth => ?_)
    refine .bind ih fun truths htruths => .pure fun n p hp => ?_
    cases n with
    | zero =>
      cases hp
      exact ⟨truth, rfl, htruth⟩
    | succ n => exact htruths n p hp

theorem globalLoop_spec (selected : List ℕ) (presences : List Bool) (constraints : List Constraint)
    (hdemand : ∀ c ∈ constraints, ∀ tasks capacity, c = .cumulative tasks capacity → ∀ t ∈ tasks, 0 ≤ t.task.demand) :
    Ensures (s.globalLoop selected presences constraints) fun _ => ∀ c ∈ constraints,
    c.Holds (s.selectedValue selected) (truthAt presences) := by
  induction constraints with
  | nil => exact .pure (by simp)
  | cons c constraints ih =>
    rw [forall_mem_cons] at hdemand
    refine .bind (.spend_bind (satisfiedBy_spec c hdemand.1)) fun holds hholds => ?_
    refine .ite (fun htrue => ?_) fun _ => .throw _
    exact (ih hdemand.2).mono fun _ hrest => forall_mem_cons.mpr ⟨hholds.mp htrue, hrest⟩

variable (s value) in
def IsModel : Prop :=
  ∃ (selected : ℕ → ℕ) (truths : ℕ → Bool),
    (∀ n d, s.domains[n]? = some d → selected n < d.atoms.length ∧
      ∀ j (h : j < d.atoms.length), value d.atoms[j] = some (decide (j = selected n))) ∧
    (∀ n p, s.presences[n]? = some p → Reads s value p.atom (truths n)) ∧
    ∀ c ∈ s.constraints, c.Holds (s.valueAt selected) truths

theorem checkModel_spec (haccepted : s.Accepted) : Ensures (s.checkModel value) fun _ => s.IsModel value := by
  refine .bind (selectedLoop_spec s.domains) fun selected hselected => ?_
  refine .bind (presenceValueLoop_spec s.presences) fun presences hpresences => ?_
  refine (globalLoop_spec selected presences s.constraints haccepted.demands).mono fun _ hglobals => ?_
  refine ⟨fun n => selected[n]?.getD 0, truthAt presences, ?_, ?_, fun c hc => ?_⟩
  · intro n d hd
    obtain ⟨i, hi, hbound, hvalues⟩ := hselected n d hd
    simp only [hi, getD_some]
    exact ⟨hbound, hvalues⟩
  · intro n p hp
    obtain ⟨truth, htruth, hreads⟩ := hpresences n p hp
    simpa [truthAt, htruth] using hreads
  · refine (hglobals c hc).congr (fun k hk => ?_) fun _ _ => rfl
    have hget := getElem?_eq_getElem (haccepted.vars c hc k hk)
    obtain ⟨i, hi, -⟩ := hselected k _ hget
    simp only [selectedValue, valueAt, hi, bind_some, getD_some]

theorem meets_of_isModel (haccepted : s.Accepted) (hmodel : s.IsModel value) (htrue : v s.trueTerm = true)
    (hfalse : v s.falseTerm = false) (hindicators : ∀ d ∈ s.domains,
    ∀ j (h : j < d.atoms.length) (h' : j < d.negations.length), v d.negations[j] = !v d.atoms[j])
    (hpresences : ∀ p ∈ s.presences, v p.negation = !v p.atom)
    (hagrees : ∀ t truth, value t = some truth → v t = truth) : s.Meets v := by
  obtain ⟨selected, truths, hselected, htruths, hholds⟩ := hmodel
  refine ⟨htrue, hfalse, hindicators, hpresences, selected, fun n d hd => ?_, fun c hc => ?_⟩
  · obtain ⟨hbound, hvalues⟩ := hselected n d hd
    exact ⟨hbound, fun j hj => hagrees _ _ (hvalues j hj)⟩
  · refine (hholds c hc).congr (fun _ _ => rfl) fun i hi => ?_
    have hget := getElem?_eq_getElem (haccepted.conditions c hc i hi)
    have hreads := htruths i _ hget
    rw [presenceAt, hget, map_some, getD_some]
    rw [Reads] at hreads
    split_ifs at hreads with h h'
    · rw [hreads, h, htrue]
    · rw [hreads, h', hfalse]
    · exact (hagrees _ _ hreads).symm

end

/-- An accepted lemma holds under every valuation that meets the statement, and an accepted model is
one: its valuations of the terms meet the statement. -/
theorem checker_sound {m : Manager} (h : s.checkEncoding m = .ok ()) :
    (∀ conclusion premises budget left, s.checkLemma conclusion premises budget = .ok ((), left) → ∀ v, s.Meets v →
    (∀ t ∈ premises, v t = true) → v conclusion = true) ∧ ∀ value budget left, s.checkModel value budget =
    .ok ((), left) → s.IsModel value ∧ ∀ v : Term → Bool, v s.trueTerm = true → v s.falseTerm = false →
    (∀ d ∈ s.domains, ∀ j (h : j < d.atoms.length) (h' : j < d.negations.length), v d.negations[j] = !v d.atoms[j]) →
    (∀ p ∈ s.presences, v p.negation = !v p.atom) → (∀ t truth, value t = some truth → v t = truth) → s.Meets v := by
  have haccepted := accepted_of_checkEncoding h
  refine ⟨?_, ?_⟩
  · intro conclusion premises budget left hrun v hv hpremises
    by_contra hnot
    rw [Bool.not_eq_true] at hnot
    exact checkLemma_refuted haccepted hv hpremises hnot budget () left hrun
  · intro value budget left hrun
    have hmodel := checkModel_spec haccepted budget () left hrun
    refine ⟨hmodel, fun v htrue hfalse hindicators hpresences hagrees => ?_⟩
    exact meets_of_isModel haccepted hmodel htrue hfalse hindicators hpresences hagrees

def pigeons : CpStatement where
  domains := [⟨[0], [.var "a" .bool], [.not (.var "a" .bool)]⟩,
    ⟨[0, 1], [.var "b" .bool, .var "c" .bool], [.not (.var "b" .bool), .not (.var "c" .bool)]⟩]
  constraints := [.allDifferent [0, 1], .cumulative [⟨⟨0, 1, 1⟩, some (0, true)⟩] 1]
  assertions := [mkOr [.var "b" .bool, .var "c" .bool], .var "a" .bool]
  bindings := []
  presences := [⟨.var "p" .bool, .not (.var "p" .bool)⟩]
  trueTerm := .true
  falseTerm := .false

/-- The second pigeon is left with the second hole. -/
theorem checker_sound_pigeons : pigeons.checkEncoding ⟨fun _ => 0, fun _ => none⟩ = .ok () ∧
    pigeons.checkLemma (.var "c" .bool) [] 40 = .ok ((), 26) ∧ ∀ v, pigeons.Meets v → v (.var "c" .bool) = true := by
  have hvars : canonical [0, 1] = [0, 1] := by simp [canonical, mergeSort]
  have hnil : canonical [] = [] := by simp [canonical]
  have hlemma : pigeons.checkLemma (.var "c" .bool) [] 40 = .ok ((), 26) := by
    simp only [checkLemma, pigeons, refutedLoop, Constraint.vars, Constraint.conditions, hvars, hnil]
    rfl
  exact ⟨by rfl, hlemma, fun v hv =>
    (checker_sound (s := pigeons) (m := ⟨fun _ => 0, fun _ => none⟩) (by rfl)).1 _ _ _ _ hlemma v hv (by simp)⟩

end CpStatement

end Nixie.Cp
