import Nixie.Cp.Filtering

/-!
A run: a domain or a constraint without a value left is a conflict, and otherwise every value that has no support is
queued for exclusion.
-/

namespace Nixie.Cp

open Ast List Option Bool

namespace CpStatement

variable {τ : Assignment} {s : CpStatement} {d : Domain} {reasons : List Term} {k : ℕ}

theorem mem_positives {r : Term} : (k, r) ∈ positives d reasons ↔ reasons[k]? = some r ∧ r ∈ d.atoms := by
  rw [positives, mem_filter, decide_eq_true_eq]
  refine and_congr_left fun _ => ?_
  simp only [mem_iff_getElem?, getElem?_zip_eq_some]
  constructor
  · rintro ⟨i, hrange, hr⟩
    obtain ⟨hlt, heq⟩ := List.getElem?_eq_some_iff.mp hrange
    rw [getElem_range] at heq
    exact heq ▸ hr
  · intro hr
    exact ⟨k, by simp [(List.getElem?_eq_some_iff.mp hr).1], hr⟩

theorem positivePosition_of_mem {r : Term} (hr : reasons[k]? = some r) (hmem : r ∈ d.atoms) :
    ∃ i : ℕ, positivePosition d reasons k = some i ∧ d.atoms[i]? = some r := by
  rw [positivePosition, hr, bind_some]
  cases hfind : d.atoms.findIdx? (fun a => decide (a = r)) with
  | none => exact absurd rfl (of_decide_eq_false (findIdx?_eq_none_iff.mp hfind r hmem))
  | some i =>
    obtain ⟨hlt, heq, -⟩ := findIdx?_eq_some_iff_getElem.mp hfind
    exact ⟨i, rfl, (getElem?_eq_getElem hlt).trans (congrArg some (of_decide_eq_true heq))⟩

variable {falseTerm : Term}

theorem domainExplains_distinct {r r' : Term} (hr : r ∈ reasons) (hr' : r' ∈ reasons) (hatom : r ∈ d.atoms)
    (hatom' : r' ∈ d.atoms) (hne : r ≠ r') : domainExplains d falseTerm falseTerm reasons = true := by
  obtain ⟨k, hk⟩ := mem_iff_getElem?.mp hr
  obtain ⟨k', hk'⟩ := mem_iff_getElem?.mp hr'
  have hmem := mem_positives.mpr ⟨hk, hatom⟩
  have hmem' := mem_positives.mpr ⟨hk', hatom'⟩
  rw [domainExplains, domainRule, if_pos rfl]
  match hlist : positives d reasons with
  | [] =>
    rw [hlist] at hmem
    cases hmem
  | (first, term) :: rest =>
    rw [hlist] at hmem hmem'
    have hfirst : reasons[first]? = some term ∧ term ∈ d.atoms := mem_positives.mp (hlist ▸ mem_cons_self)
    have hother : ∃ q ∈ rest, q.2 ≠ term := by
      by_cases hterm : r = term
      · refine ⟨(k', r'), (mem_cons.mp hmem').resolve_left fun heq => ?_, hterm ▸ hne.symm⟩
        exact hne (hterm.trans (congrArg Prod.snd heq).symm)
      · exact ⟨(k, r), (mem_cons.mp hmem).resolve_left fun heq => hterm (congrArg Prod.snd heq), hterm⟩
    have hsome : (rest.find? fun q => q.2 ≠ term).isSome := by
      rw [find?_isSome]
      exact hother.imp fun q hq => ⟨hq.1, decide_eq_true hq.2⟩
    obtain ⟨q, hq⟩ := isSome_iff_exists.mp hsome
    obtain ⟨second, other⟩ := q
    have hsecond : reasons[second]? = some other ∧ other ∈ d.atoms :=
      mem_positives.mp (hlist ▸ mem_cons_of_mem _ (mem_of_find?_eq_some hq))
    have hdistinct : other ≠ term := by simpa using find?_some hq
    obtain ⟨i, hi, hati⟩ := positivePosition_of_mem hfirst.1 hfirst.2
    obtain ⟨j, hj, hatj⟩ := positivePosition_of_mem hsecond.1 hsecond.2
    have hij : i ≠ j := by
      rintro rfl
      rw [hati] at hatj
      exact hdistinct (some.inj hatj).symm
    dsimp only
    rw [hq, map_some, any_some, DomainRule.check, hi, hj]
    simp [hij]

theorem exclusion_check (hd : DomainDeclared d) {p q : Row} (hp : p ∈ rows d) (hq : q ∈ rows d)
    (hk : reasons[k]? = some q.1) (hne : p.1 ≠ q.1) :
    DomainRule.check d falseTerm p.2.1 reasons (.exclusion k) = true := by
  obtain ⟨i, hi, hati⟩ := positivePosition_of_mem hk (row_negation hd hq).1
  obtain ⟨j, hj, hatj, -⟩ := findIdx_negation hd hp
  have hij : j ≠ i := by
    rintro rfl
    rw [hati] at hatj
    exact hne (some.inj hatj).symm
  rw [DomainRule.check, hi, hj]
  simp [hij]

theorem domainExplains_exhausted (hpositive : ∀ r ∈ reasons, r ∉ d.atoms)
    (hnegative : ∀ r ∈ d.negations, r ∈ reasons) : domainExplains d falseTerm falseTerm reasons = true := by
  have hnone : positives d reasons = [] := by
    refine List.eq_nil_iff_forall_not_mem.mpr fun q hq => ?_
    obtain ⟨hr, hatom⟩ := mem_positives.mp hq
    exact hpositive _ (List.mem_of_getElem? hr) hatom
  have hfound : ∀ r ∈ d.negations, ∃ k, reasons.findIdx? (fun a => decide (a = r)) = some k ∧
      decide (reasons[k]? = some r) = true := by
    intro r hr
    cases hfind : reasons.findIdx? (fun a => decide (a = r)) with
    | none => exact absurd rfl (of_decide_eq_false (List.findIdx?_eq_none_iff.mp hfind r (hnegative r hr)))
    | some k =>
      obtain ⟨hlt, heq, -⟩ := List.findIdx?_eq_some_iff_getElem.mp hfind
      exact ⟨k, rfl, decide_eq_true ((List.getElem?_eq_getElem hlt).trans (congrArg some (of_decide_eq_true heq)))⟩
  obtain ⟨cover, hcover, hall⟩ := mapM_all hfound
  have hlength : cover.length = d.negations.length := by
    clear hall hfound hnegative hnone hpositive
    generalize d.negations = negations at hcover
    induction negations generalizing cover with
    | nil => cases hcover; rfl
    | cons r negations ih =>
      rw [List.mapM_cons] at hcover
      obtain ⟨k, -, hrest⟩ := Option.bind_eq_some_iff.mp hcover
      obtain ⟨ks, hks, heq⟩ := Option.bind_eq_some_iff.mp hrest
      cases heq
      rw [List.length_cons, List.length_cons, ih ks hks]
  rw [domainExplains, domainRule, if_pos rfl, hnone]
  dsimp only
  rw [hcover, Option.map_some, Option.any_some, DomainRule.check]
  simp only [decide_true, Bool.true_and, hlength, decide_eq_true_eq, List.all_eq_true]
  intro q hq
  obtain ⟨i, hi⟩ := List.mem_iff_getElem?.mp hq
  rw [List.getElem?_zip_eq_some] at hi
  have hentry : (q.2, q.1) ∈ d.negations.zip cover :=
    List.mem_iff_getElem?.mpr ⟨i, List.getElem?_zip_eq_some.mpr ⟨hi.2, hi.1⟩⟩
  exact of_decide_eq_true (List.all_eq_true.mp hall _ hentry)

section

variable {presences : List (Option Bool)} {c : Constraint} {v : CpVar}

def Valid (τ : Assignment) (s : CpStatement) : Prop := ∀ d ∈ s.domains, (trues τ (rows d)).length ≤ 1

theorem Declared.inRange (τ : Assignment) (hs : s.Declared) (hpresences : presences.length = s.presences.length)
    (hc : c ∈ s.constraints) : InRange (leftDomains τ s) presences c := by
  rw [InRange, leftDomains, length_map, hpresences]
  exact ⟨hs.vars c hc, hs.conditions c hc⟩

theorem explain_table {t : TableStatement} {conclusion : Term}
    (h : tableExplains s.domains t s.falseTerm conclusion reasons = true) :
    s.explain (some (.table t)) conclusion reasons = some ⟨conclusion, reasons⟩ := if_pos h

theorem explain_infeasible (hs : s.Declared) (hvalid : Valid τ s) (hstates : States τ s reasons)
    (hc : c ∈ s.constraints) (h : feasible (leftDomains τ s) presences c = some false) :
    s.explain (some c) s.falseTerm reasons = some ⟨s.falseTerm, reasons⟩ := by
  cases c with
  | table t =>
    obtain ⟨b, hb, hiff⟩ := @feasible_exact (leftDomains τ s) presences (.table t) rfl
    rw [h] at hb
    cases hb
    exact explain_table (tableExplains_of_not_solvable hs (hs.vars _ hc) (forcedValue_false hs) (.inl ⟨rfl, rfl⟩)
      (hstates.covers hs hvalid) fun hsolvable => false_ne_true (hiff.mpr hsolvable))
  | _ => rfl

theorem explain_excluded (hs : s.Declared) (hvalid : Valid τ s) (hstates : States τ s reasons) (hc : c ∈ s.constraints)
    (hv : v ∈ c.vars) (hd : s.domains[v]? = some d) {p : Row} (hp : p ∈ rows d)
    (h : feasibleAt (leftDomains τ s) presences v p.2.2 c = some false) :
    s.explain (some c) p.2.1 reasons = some ⟨p.2.1, reasons⟩ := by
  cases c with
  | table t =>
    have hlt := hs.vars _ hc v hv
    obtain ⟨b, hb, hiff⟩ := @feasible_exact ((leftDomains τ s).set v [p.2.2]) presences (.table t) rfl
    rw [feasibleAt_eq (fun _ _ heq => by cases heq) (by rwa [leftDomains, length_map]), hb] at h
    cases h
    have hdomain := hs.domain hd
    have hnegation : p.2.1 ∈ d.negations :=
      (mem_negations hdomain).mpr ⟨p.1, (row_negation hdomain hp).1, (row_negation hdomain hp).2.symm⟩
    exact explain_table (tableExplains_of_not_solvable hs (hs.vars _ hc) (forcedValue_row hs hv hd hp)
      (.inr ⟨hs.negation_ne_false hdomain hnegation, rfl⟩) (hstates.covers_set hs hvalid hlt _)
      fun hsolvable => false_ne_true (hiff.mpr hsolvable))
  | _ => rfl

def Excluded (τ : Assignment) (s : CpStatement) (presences : List (Option Bool)) (v : CpVar) (d : Domain) (x : ℤ) :
    Prop :=
  (∃ c ∈ s.constraints, v ∈ c.vars ∧ feasibleAt (leftDomains τ s) presences v x c = some false) ∨ trues τ (rows d) ≠ []

variable {ks : List (Option ℕ)}

theorem excludeIndicator_spec (hs : s.Declared) (hvalid : Valid τ s) (hstates : States τ s reasons)
    (hpresences : presences.length = s.presences.length) (hd : s.domains[v]? = some d)
    (hfixed : FixedAt τ reasons d (ks[v]?).join) {p : Row} (hp : p ∈ rows d) (hunfixed : τ.truth p.1 = none) :
    ∃ consequences, s.excludeIndicator (leftDomains τ s) presences reasons ks v d p.2.1 p.2.2 =
    some consequences ∧ (Excluded τ s presences v d p.2.2 → ⟨p.2.1, reasons⟩ ∈ consequences) := by
  have hlt : v < (leftDomains τ s).length := by
    rw [leftDomains, length_map]
    exact (List.getElem?_eq_some_iff.mp hd).1
  have htests : ∀ c ∈ s.constraints.filter fun c => v ∈ c.vars, ∃ b, feasibleAt (leftDomains τ s) presences v p.2.2 c =
    some b :=
    fun c hc => feasibleAt_total (hs.inRange τ hpresences (List.mem_filter.mp hc).1) hlt p.2.2
  rw [excludeIndicator]
  rcases feasibleLoop_spec htests with ⟨hloop, hall⟩ | ⟨c, hc, hloop, hfalse⟩
  · rw [hloop]
    dsimp only
    cases hlast : (trues τ (rows d)).getLast? with
    | none =>
      have hnil := getLast?_eq_none_iff.mp hlast
      rw [hfixed.free hnil]
      refine ⟨[], rfl, ?_⟩
      rintro (⟨c, hc, hmem, hfalse⟩ | hne)
      · rw [hall c (mem_filter.mpr ⟨hc, decide_eq_true hmem⟩)] at hfalse
        cases hfalse
      · exact absurd hnil hne
    | some q =>
      obtain ⟨k, hk, hget⟩ := hfixed.fixed q hlast
      have hq := mem_trues.mp (mem_of_getLast? hlast)
      have hne : p.1 ≠ q.1 := by
        intro heq
        rw [heq, hq.2] at hunfixed
        cases hunfixed
      rw [hk]
      dsimp only
      rw [if_pos (exclusion_check (hs.domain hd) hp hq.1 hget hne)]
      exact ⟨_, rfl, fun _ => mem_singleton_self _⟩
  · obtain ⟨hmem, hvar⟩ := mem_filter.mp hc
    rw [hloop]
    dsimp only
    rw [explain_excluded hs hvalid hstates hmem (of_decide_eq_true hvar) hd hp hfalse]
    exact ⟨_, rfl, fun _ => mem_singleton_self _⟩

theorem indicatorsLoop_spec (hs : s.Declared) (hvalid : Valid τ s) (hstates : States τ s reasons)
    (hpresences : presences.length = s.presences.length) (hd : s.domains[v]? = some d)
    (hfixed : FixedAt τ reasons d (ks[v]?).join) {entries : List Row} (hentries : ∀ p ∈ entries, p ∈ rows d)
    (queue : List Consequence) : ∃ more,
    s.indicatorsLoop (s.fixedBy τ) (leftDomains τ s) presences reasons ks v d entries queue =
    (queue ++ more, true) ∧ ∀ p ∈ entries, τ.truth p.1 = none → Excluded τ s presences v d p.2.2 →
    ⟨p.2.1, reasons⟩ ∈ more := by
  induction entries generalizing queue with
  | nil => exact ⟨[], by rw [indicatorsLoop, append_nil], nofun⟩
  | cons p entries ih =>
    obtain ⟨hp, hrest⟩ := forall_mem_cons.mp hentries
    rw [indicatorsLoop]
    cases hτ : τ.truth p.1 with
    | some b =>
      obtain ⟨more, hloop, hmore⟩ := ih hrest queue
      have hsome : (s.fixedBy τ p.1).isSome = true := by rw [fixedBy, hτ]; rfl
      rw [if_pos hsome]
      refine ⟨more, hloop, forall_mem_cons.mpr ⟨fun hnone => ?_, hmore⟩⟩
      rw [hτ] at hnone
      cases hnone
    | none =>
      obtain ⟨consequences, hexclude, hmem⟩ := excludeIndicator_spec hs hvalid hstates hpresences hd hfixed hp hτ
      obtain ⟨more, hloop, hmore⟩ := ih hrest (queue ++ consequences)
      have hnone : ¬ (s.fixedBy τ p.1).isSome = true := by rw [fixedBy, hτ]; exact false_ne_true
      rw [if_neg hnone, hexclude]
      refine ⟨consequences ++ more, by rw [← append_assoc]; exact hloop, forall_mem_cons.mpr ⟨fun _ hex => ?_, ?_⟩⟩
      · exact mem_append_left _ (hmem hex)
      · exact fun q hq hnone hex => mem_append_right _ (hmore q hq hnone hex)

theorem domainsLoop_spec (hs : s.Declared) (hvalid : Valid τ s) (hstates : States τ s reasons)
    (hpresences : presences.length = s.presences.length) {entries : List (CpVar × Domain)}
    (hentries : ∀ q ∈ entries, s.domains[q.1]? = some q.2 ∧ FixedAt τ reasons q.2 (ks[q.1]?).join)
    (queue : List Consequence) : ∃ more,
    s.domainsLoop (s.fixedBy τ) (leftDomains τ s) presences reasons ks entries queue = (queue ++ more, true) ∧
    ∀ q ∈ entries, ∀ p ∈ rows q.2, τ.truth p.1 = none → Excluded τ s presences q.1 q.2 p.2.2 →
    ⟨p.2.1, reasons⟩ ∈ more := by
  induction entries generalizing queue with
  | nil => exact ⟨[], by rw [domainsLoop, append_nil], nofun⟩
  | cons q entries ih =>
    obtain ⟨⟨hd, hfixed⟩, hrest⟩ := forall_mem_cons.mp hentries
    obtain ⟨first, hfirst, hmem⟩ := indicatorsLoop_spec hs hvalid hstates hpresences hd hfixed (fun p hp => hp) queue
    obtain ⟨more, hloop, hmore⟩ := ih hrest (queue ++ first)
    rw [domainsLoop]
    rw [rows] at hfirst
    rw [hfirst]
    refine ⟨first ++ more, by rw [← append_assoc]; exact hloop, forall_mem_cons.mpr ⟨?_, ?_⟩⟩
    · exact fun p hp hnone hex => mem_append_left _ (hmem p hp hnone hex)
    · exact fun r hr p hp hnone hex => mem_append_right _ (hmore r hr p hp hnone hex)

theorem presencesLoop_extends (s : CpStatement) (presences : List (Option Bool)) (reasons : List Term)
    (domains : List (List ℤ)) (entries : List (ℕ × Presence)) (queue : List Consequence) :
    ∃ more go, s.presencesLoop domains presences reasons entries queue = (queue ++ more, go) := by
  induction entries generalizing queue with
  | nil => exact ⟨[], true, by rw [presencesLoop, append_nil]⟩
  | cons q entries ih =>
    rw [presencesLoop]
    split_ifs
    · exact ih queue
    · cases s.tryPresence domains presences reasons q.1 q.2 false with
      | none => exact ⟨[], false, by rw [append_nil]⟩
      | some first =>
        cases s.tryPresence domains presences reasons q.1 q.2 true with
        | none => exact ⟨first, false, rfl⟩
        | some second =>
          obtain ⟨more, go, hloop⟩ := ih (queue ++ first ++ second)
          refine ⟨first ++ (second ++ more), go, ?_⟩
          rw [← append_assoc, ← append_assoc]
          exact hloop

end

def Within (τ : Assignment) (s : CpStatement) (c : Constraint) (value : CpVar → ℤ) : Prop :=
  (∀ v ∈ c.vars, ∃ d, s.domains[v]? = some d ∧ Current τ d (value v)) ∧ c.Holds value fun _ => false

theorem mem_domainAt (hvalid : Valid τ s) {v : CpVar} (hv : v < s.domains.length) {x : ℤ} :
    x ∈ domainAt (leftDomains τ s) v ↔ ∃ d, s.domains[v]? = some d ∧ Current τ d x := by
  have hget := getElem?_eq_getElem hv
  rw [domainAt_leftDomains hget, mem_leftValues (hvalid _ (getElem_mem hv)), hget]
  simp

theorem solvable_leftDomains (hvalid : Valid τ s) {c : Constraint} (hvars : ∀ v ∈ c.vars, v < s.domains.length) :
    Solvable (leftDomains τ s) c ↔ ∃ value, Within τ s c value :=
  exists_congr fun _ => and_congr_left fun _ => forall₂_congr fun v hv => mem_domainAt hvalid (hvars v hv)

theorem within_of_trial (hvalid : Valid τ s) {c : Constraint} (hvars : ∀ v ∈ c.vars, v < s.domains.length) {v : CpVar}
    (hv : v ∈ c.vars) (hd : s.domains[v]? = some d) {x : ℤ} (hx : Current τ d x)
    (h : Solvable ((leftDomains τ s).set v [x]) c) : ∃ value, Within τ s c value ∧ value v = x := by
  obtain ⟨value, hmem, hholds⟩ := h
  have hlt : v < (leftDomains τ s).length := by
    rw [leftDomains, length_map]
    exact hvars v hv
  have hvalue : value v = x := by
    have hself := hmem v hv
    rw [domainAt_set hlt, if_pos rfl] at hself
    exact mem_singleton.mp hself
  refine ⟨value, ⟨fun w hw => ?_, hholds⟩, hvalue⟩
  by_cases heq : w = v
  · subst heq
    exact ⟨d, hd, hvalue ▸ hx⟩
  · have hother := hmem w hw
    rw [domainAt_set hlt, if_neg heq] at hother
    exact (mem_domainAt hvalid (hvars w hw)).mp hother

def runReasons (τ : Assignment) (s : CpStatement) : List Term :=
  ((s.readPresences (s.fixedBy τ) s.presences (s.snapshot (s.fixedBy τ)).reasons).map Prod.snd).getD []

structure Started (τ : Assignment) (s : CpStatement) (presences : List (Option Bool)) : Prop where
  read : s.readPresences (s.fixedBy τ) s.presences (s.snapshot (s.fixedBy τ)).reasons = some (presences, runReasons τ s)
  length : presences.length = s.presences.length
  states : States τ s (runReasons τ s)
  positive : ∀ r ∈ runReasons τ s, isBoolVar r = true → τ.truth r ≠ some false
  fixed : ∀ (v : CpVar) (d : Domain), s.domains[v]? = some d →
    FixedAt τ (runReasons τ s) d ((s.snapshot (s.fixedBy τ)).fixedPremises[v]?).join

theorem mkNot_isBoolVar {a : Term} (h : isBoolVar (mkNot a) = true) : a = .not (mkNot a) := by
  cases a <;> first | rfl | cases h

theorem started (hs : s.Declared) (τ : Assignment) : ∃ presences, Started τ s presences := by
  obtain ⟨-, hreasons, -, ks, hks, hall⟩ := snapshot_spec τ hs
  obtain ⟨truths, more, hread, hlength, hmore⟩ := readPresences_spec τ hs s.presences hs.presences
    (s.snapshot (s.fixedBy τ)).reasons
  have hrun : runReasons τ s = (s.snapshot (s.fixedBy τ)).reasons ++ more := by rw [runReasons, hread]; rfl
  have hdomains : (s.snapshot (s.fixedBy τ)).reasons = domainReasons τ s.domains := hreasons
  refine ⟨truths, hrun ▸ hread, hlength, fun d hd p hp r hr => ?_, fun r hr hvar => ?_, fun v d hd => ?_⟩
  · rw [hrun, hdomains]
    exact mem_append_left _ (List.mem_flatMap.mpr ⟨d, hd, List.mem_flatMap.mpr ⟨p, hp, hr⟩⟩)
  · rw [hrun, hdomains] at hr
    rcases List.mem_append.mp hr with hr | hr
    · obtain ⟨d, hd, hr⟩ := List.mem_flatMap.mp hr
      obtain ⟨p, hp, hr⟩ := List.mem_flatMap.mp hr
      have hnegation := (row_negation (hs.domains d hd) hp).2
      rcases hτ : τ.truth p.1 with _ | _ | _
      · simp [premise, hτ] at hr
      · simp only [premise, hτ, mem_singleton] at hr
        rw [hr, hnegation] at hvar
        cases hvar
      · simp only [premise, hτ, mem_singleton] at hr
        simp [hr, hτ]
    · obtain ⟨p, -, ⟨rfl, hatom⟩ | ⟨rfl, hatom⟩⟩ := hmore r hr
      · rcases hatom with hatom | hatom
        · rw [hatom] at hvar
          cases hvar
        · simp [hatom]
      · rcases hatom with hatom | hatom
        · rw [hatom] at hvar
          cases hvar
        · intro hfalse
          refine τ.consistent _ _ hfalse ?_
          rwa [← mkNot_isBoolVar hvar]
  · have hjoin : ∃ k, (s.snapshot (s.fixedBy τ)).fixedPremises[v]? = some k ∧
      FixedAt τ (s.snapshot (s.fixedBy τ)).reasons d k := by
      obtain ⟨hlt, rfl⟩ := List.getElem?_eq_some_iff.mp hd
      have hk : v < ks.length := hall.length_eq ▸ hlt
      refine ⟨ks[v], by rw [hks]; exact getElem?_eq_getElem hk, hall.get hlt hk⟩
    obtain ⟨k, hk, hfixed⟩ := hjoin
    rw [hk, hrun]
    exact hfixed.append more

theorem valid_iff (hs : s.Declared) : (s.snapshot (s.fixedBy τ)).valid = true ↔ Valid τ s := by
  rw [(snapshot_spec τ hs).valid]
  simp [Valid]

theorem conflict_of_explain {c : Option Constraint}
    (h : s.explain c s.falseTerm reasons = some ⟨s.falseTerm, reasons⟩) :
    s.conflict c reasons = (.unsat reasons, [⟨s.falseTerm, reasons⟩]) := by
  rw [conflict, h]

theorem explain_domain (h : ∃ d ∈ s.domains, domainExplains d s.falseTerm s.falseTerm reasons = true) :
    s.explain none s.falseTerm reasons = some ⟨s.falseTerm, reasons⟩ :=
  if_pos (any_eq_true.mpr h)

theorem not_foreign (a : Term) : ((s.fixedBy τ a).any fun v => v ≠ s.trueTerm && v ≠ s.falseTerm) = false := by
  rw [fixedBy]
  rcases τ.truth a with _ | _ | _
  · rfl
  · simp
  · simp

variable {presences : List (Option Bool)}

theorem run_of_not_valid (hs : s.Declared) (hstart : Started τ s presences) (h : ¬ Valid τ s) :
    s.run (s.fixedBy τ) = (.unsat (runReasons τ s), [⟨s.falseTerm, runReasons τ s⟩]) := by
  have hfalse : (s.snapshot (s.fixedBy τ)).valid = false := by
    rw [← not_eq_true, valid_iff hs]
    exact h
  have hforeign : ((s.domains.flatMap (·.atoms)).any fun a =>
      (s.fixedBy τ a).any fun v => v ≠ s.trueTerm && v ≠ s.falseTerm) = false := by
    rw [List.any_eq_false]
    exact fun a _ => not_eq_true _ ▸ not_foreign a
  have hexplain : s.explain none s.falseTerm (runReasons τ s) = some ⟨s.falseTerm, runReasons τ s⟩ := by
    rw [Valid] at h
    push Not at h
    obtain ⟨d, hd, hlength⟩ := h
    have hdomain := hs.domains d hd
    have hnodup : (trues τ (rows d)).Nodup := (rows_nodup hdomain).filter _
    refine explain_domain ⟨d, hd, ?_⟩
    match hlist : trues τ (rows d), hlength with
    | q :: r :: rest, _ =>
      have hq := mem_trues.mp (hlist ▸ mem_cons_self : q ∈ trues τ (rows d))
      have hr := mem_trues.mp (hlist ▸ mem_cons_of_mem _ mem_cons_self : r ∈ trues τ (rows d))
      have hne : q.1 ≠ r.1 := by
        intro heq
        rw [hlist, row_eq_of_atom hdomain hq.1 hr.1 heq] at hnodup
        simp at hnodup
      exact domainExplains_distinct (hstart.states d hd q hq.1 _ (by simp [premise, hq.2]))
        (hstart.states d hd r hr.1 _ (by simp [premise, hr.2])) (row_negation hdomain hq.1).1
          (row_negation hdomain hr.1).1 hne
  simp only [run, hstart.read, hfalse, if_true, hforeign, false_eq_true, if_false]
  exact conflict_of_explain hexplain

theorem run_of_empty (hs : s.Declared) (hstart : Started τ s presences) (hvalid : Valid τ s) (hd : d ∈ s.domains)
    (hempty : leftValues τ (rows d) = []) : s.run (s.fixedBy τ) =
    (.unsat (runReasons τ s), [⟨s.falseTerm, runReasons τ s⟩]) := by
  have hvalues : (s.snapshot (s.fixedBy τ)).values = leftDomains τ s := (snapshot_spec τ hs).values
  have hany : (leftDomains τ s).any List.isEmpty = true := by
    rw [leftDomains, List.any_map, List.any_eq_true]
    exact ⟨d, hd, by simp [hempty]⟩
  have hdomain := hs.domains d hd
  have hfalse : ∀ p ∈ rows d, τ.truth p.1 = some false := by
    intro p hp
    by_contra hne
    rw [leftValues] at hempty
    cases hlast : (trues τ (rows d)).getLast? with
    | some q =>
      rw [hlast] at hempty
      cases hempty
    | none =>
      rw [hlast] at hempty
      change (unfixed τ (rows d)).map (·.2.2) = [] at hempty
      have hnil := getLast?_eq_none_iff.mp hlast
      rcases hτ : τ.truth p.1 with _ | _ | _
      · have hmem : p.2.2 ∈ (unfixed τ (rows d)).map (·.2.2) :=
          mem_map_of_mem (mem_filter.mpr ⟨hp, decide_eq_true hτ⟩)
        rw [hempty] at hmem
        cases hmem
      · exact hne hτ
      · have hmem : p ∈ trues τ (rows d) := mem_trues.mpr ⟨hp, hτ⟩
        rw [hnil] at hmem
        cases hmem
  have hatoms : ∀ a ∈ d.atoms, ∃ p ∈ rows d, p.1 = a := by
    intro a ha
    exact mem_map.mp (rows_atoms hdomain ▸ ha)
  have hexplain : s.explain none s.falseTerm (runReasons τ s) = some ⟨s.falseTerm, runReasons τ s⟩ := by
    refine explain_domain ⟨d, hd, domainExplains_exhausted (fun r hr hatom => ?_) fun r hr => ?_⟩
    · obtain ⟨p, hp, rfl⟩ := hatoms r hatom
      exact hstart.positive _ hr (hdomain.isVar _ hatom) (hfalse p hp)
    · obtain ⟨a, ha, rfl⟩ := (mem_negations hdomain).mp hr
      obtain ⟨p, hp, rfl⟩ := hatoms a ha
      exact hstart.states d hd p hp _ (by simp [premise, hfalse p hp, (row_negation hdomain hp).2])
  simp only [run, hstart.read, (valid_iff hs).mpr hvalid, hvalues, hany, true_eq_false, if_false, if_true]
  exact conflict_of_explain hexplain

theorem run_of_valid (hs : s.Declared) (hstart : Started τ s presences) (hvalid : Valid τ s)
    (hleft : ∀ d ∈ s.domains, leftValues τ (rows d) ≠ []) :
    (s.run (s.fixedBy τ) = (.unsat (runReasons τ s), [⟨s.falseTerm, runReasons τ s⟩]) ∧
    ∃ c ∈ s.constraints, feasible (leftDomains τ s) presences c = some false) ∨
    (∀ c ∈ s.constraints, feasible (leftDomains τ s) presences c = some true) ∧
    (∀ reasons, (s.run (s.fixedBy τ)).1 ≠ .unsat reasons) ∧ ∀ (v : CpVar) (d : Domain), s.domains[v]? = some d →
    ∀ p ∈ rows d, τ.truth p.1 = none → Excluded τ s presences v d p.2.2 →
    ⟨p.2.1, runReasons τ s⟩ ∈ (s.run (s.fixedBy τ)).2 := by
  have hvalues : (s.snapshot (s.fixedBy τ)).values = leftDomains τ s := (snapshot_spec τ hs).values
  have hany : (leftDomains τ s).any List.isEmpty = false := by
    rw [leftDomains, List.any_map, List.any_eq_false]
    exact fun d hd => by simpa using hleft d hd
  rcases feasibleLoop_spec fun c hc => feasible_total (hs.inRange τ hstart.length hc) with ⟨hloop, hall⟩ |
    ⟨c, hc, hloop, hfalse⟩
  · have hentries : ∀ q ∈ (List.range s.domains.length).zip s.domains,
        s.domains[q.1]? = some q.2 ∧ FixedAt τ (runReasons τ s) q.2
          ((s.snapshot (s.fixedBy τ)).fixedPremises[q.1]?).join := by
      intro q hq
      obtain ⟨i, hi⟩ := mem_iff_getElem?.mp hq
      obtain ⟨hrange, hdomain⟩ := List.getElem?_zip_eq_some.mp hi
      obtain ⟨hlt, heq⟩ := List.getElem?_eq_some_iff.mp hrange
      rw [getElem_range] at heq
      rw [heq] at hdomain
      exact ⟨hdomain, hstart.fixed q.1 q.2 hdomain⟩
    obtain ⟨queue, hqueue, hmem⟩ := domainsLoop_spec hs hvalid hstart.states hstart.length hentries []
    obtain ⟨more, go, hmore⟩ := presencesLoop_extends s presences (runReasons τ s) (leftDomains τ s)
      ((List.range s.presences.length).zip s.presences) queue
    have hrun : ∃ result, (∀ reasons, result ≠ .unsat reasons) ∧ s.run (s.fixedBy τ) = (result, queue ++ more) := by
      simp only [run, hstart.read, (valid_iff hs).mpr hvalid, hvalues, hany, true_eq_false, if_false, hloop,
        false_eq_true, hqueue, nil_append, hmore]
      cases go with
      | false => exact ⟨.unknown, by simp, rfl⟩
      | true =>
        dsimp only
        split_ifs
        · exact ⟨.sat, by simp, rfl⟩
        · exact ⟨.unknown, by simp, rfl⟩
    obtain ⟨result, hresult, hrun⟩ := hrun
    rw [hrun]
    refine .inr ⟨hall, hresult, fun v d hd p hp hnone hex => mem_append_left _ ?_⟩
    have hlt : v < s.domains.length := (List.getElem?_eq_some_iff.mp hd).1
    have hentry : (v, d) ∈ (List.range s.domains.length).zip s.domains :=
      mem_iff_getElem?.mpr ⟨v, List.getElem?_zip_eq_some.mpr ⟨by simp [hlt], hd⟩⟩
    exact hmem (v, d) hentry p hp hnone hex
  · refine .inl ⟨?_, c, hc, hfalse⟩
    simp only [run, hstart.read, (valid_iff hs).mpr hvalid, hvalues, hany, true_eq_false, if_false, hloop,
      false_eq_true]
    exact conflict_of_explain (explain_infeasible hs hvalid hstart.states hc hfalse)

structure Filters (τ : Assignment) (s : CpStatement) : Prop where
  conflict : ((∃ d ∈ s.domains, ∀ x, ¬ Current τ d x) ∨
    ∃ c ∈ s.constraints, exact c = true ∧ ∀ value, ¬ Within τ s c value) →
      ∃ reasons, s.run (s.fixedBy τ) = (.unsat reasons, [⟨s.falseTerm, reasons⟩])
  conflictOnly : (∀ c ∈ s.constraints, exact c = true) → ∀ reasons, (s.run (s.fixedBy τ)).1 = .unsat reasons →
    (∃ d ∈ s.domains, ∀ x, ¬ Current τ d x) ∨ ∃ c ∈ s.constraints, ∀ value, ¬ Within τ s c value
  exclusion : (∀ reasons, (s.run (s.fixedBy τ)).1 ≠ .unsat reasons) → ∀ c ∈ s.constraints, exact c = true →
    ∀ v ∈ c.vars, ∀ d, s.domains[v]? = some d → ∀ p ∈ rows d, τ.truth p.1 = none →
      (∀ value, Within τ s c value → value v ≠ p.2.2) → ∃ reasons, ⟨p.2.1, reasons⟩ ∈ (s.run (s.fixedBy τ)).2
  certificate : Valid τ s → ∀ t, .table t ∈ s.constraints →
    ((∀ value, ¬ Within τ s (.table t) value) → (s.explain (some (.table t)) s.falseTerm (runReasons τ s)).isSome) ∧
      ∀ v ∈ t.vars, ∀ d, s.domains[v]? = some d → ∀ p ∈ rows d, τ.truth p.1 = none →
        (∀ value : CpVar → ℤ, value v = p.2.2 →
          (∀ w ∈ t.vars, w ≠ v → ∃ e, s.domains[w]? = some e ∧ Current τ e (value w)) →
            ¬ (Constraint.table t).Holds value fun _ => false) →
          (s.explain (some (.table t)) p.2.1 (runReasons τ s)).isSome

theorem leftValues_eq_nil (hvalid : Valid τ s) (hd : d ∈ s.domains) :
    leftValues τ (rows d) = [] ↔ ∀ x, ¬ Current τ d x := by
  rw [eq_nil_iff_forall_not_mem]
  exact forall_congr' fun x => not_congr (mem_leftValues (hvalid d hd))

section

variable (hs : s.Declared)
include hs

theorem feasible_within (hvalid : Valid τ s) (presences : List (Option Bool)) {c : Constraint}
    (hc : c ∈ s.constraints) (hexact : exact c = true) : ∃ b, feasible (leftDomains τ s) presences c = some b ∧
    (b = true ↔ ∃ value, Within τ s c value) := by
  obtain ⟨b, hb, hiff⟩ := @feasible_exact (leftDomains τ s) presences c hexact
  exact ⟨b, hb, hiff.trans (solvable_leftDomains hvalid (hs.vars c hc))⟩

theorem run_conflict (h : (∃ d ∈ s.domains, ∀ x, ¬ Current τ d x) ∨ ∃ c ∈ s.constraints, exact c = true ∧
    ∀ value, ¬ Within τ s c value) : ∃ reasons, s.run (s.fixedBy τ) = (.unsat reasons, [⟨s.falseTerm, reasons⟩]) := by
  obtain ⟨presences, hstart⟩ := started hs τ
  by_cases hvalid : Valid τ s
  · by_cases hempty : ∃ d ∈ s.domains, leftValues τ (rows d) = []
    · obtain ⟨d, hd, hempty⟩ := hempty
      exact ⟨_, run_of_empty hs hstart hvalid hd hempty⟩
    · push Not at hempty
      rcases run_of_valid hs hstart hvalid hempty with ⟨hrun, -⟩ | ⟨hall, -, -⟩
      · exact ⟨_, hrun⟩
      · rcases h with ⟨d, hd, hnone⟩ | ⟨c, hc, hexact, hnone⟩
        · exact absurd ((leftValues_eq_nil hvalid hd).mpr hnone) (hempty d hd)
        · obtain ⟨b, hb, hiff⟩ := feasible_within hs hvalid presences hc hexact
          rw [hall c hc] at hb
          cases hb
          obtain ⟨value, hvalue⟩ := hiff.mp rfl
          exact absurd hvalue (hnone value)
  · exact ⟨_, run_of_not_valid hs hstart hvalid⟩

theorem run_conflict_only (hall : ∀ c ∈ s.constraints, exact c = true) {reasons : List Term}
    (h : (s.run (s.fixedBy τ)).1 = .unsat reasons) : (∃ d ∈ s.domains, ∀ x, ¬ Current τ d x) ∨
    ∃ c ∈ s.constraints, ∀ value, ¬ Within τ s c value := by
  obtain ⟨presences, hstart⟩ := started hs τ
  by_cases hvalid : Valid τ s
  · by_cases hempty : ∃ d ∈ s.domains, leftValues τ (rows d) = []
    · obtain ⟨d, hd, hempty⟩ := hempty
      exact .inl ⟨d, hd, (leftValues_eq_nil hvalid hd).mp hempty⟩
    · push Not at hempty
      rcases run_of_valid hs hstart hvalid hempty with ⟨-, c, hc, hfalse⟩ | ⟨-, hnot, -⟩
      · obtain ⟨b, hb, hiff⟩ := feasible_within hs hvalid presences hc (hall c hc)
        rw [hfalse] at hb
        cases hb
        exact .inr ⟨c, hc, fun value hvalue => false_ne_true (hiff.mpr ⟨value, hvalue⟩)⟩
      · exact absurd h (hnot reasons)
  · rw [Valid] at hvalid
    push Not at hvalid
    obtain ⟨d, hd, hlength⟩ := hvalid
    exact .inl ⟨d, hd, fun x => not_current (hs.domains d hd) hlength⟩

theorem run_exclusion (hnot : ∀ reasons, (s.run (s.fixedBy τ)).1 ≠ .unsat reasons) {c : Constraint}
    (hc : c ∈ s.constraints) (hexact : exact c = true) {v : CpVar} (hv : v ∈ c.vars)
    (hd : s.domains[v]? = some d) {p : Row} (hp : p ∈ rows d) (hunfixed : τ.truth p.1 = none)
    (hnone : ∀ value, Within τ s c value → value v ≠ p.2.2) :
    ∃ reasons, ⟨p.2.1, reasons⟩ ∈ (s.run (s.fixedBy τ)).2 := by
  obtain ⟨presences, hstart⟩ := started hs τ
  have hvalid : Valid τ s := by
    by_contra hvalid
    exact hnot _ (congrArg Prod.fst (run_of_not_valid hs hstart hvalid))
  have hleft : ∀ d ∈ s.domains, leftValues τ (rows d) ≠ [] := fun d hd hempty =>
    hnot _ (congrArg Prod.fst (run_of_empty hs hstart hvalid hd hempty))
  rcases run_of_valid hs hstart hvalid hleft with ⟨hrun, -⟩ | ⟨-, -, hqueued⟩
  · exact absurd (congrArg Prod.fst hrun) (hnot _)
  · refine ⟨_, hqueued v d hd p hp hunfixed ?_⟩
    by_cases hfree : trues τ (rows d) = []
    · refine .inl ⟨c, hc, hv, ?_⟩
      have hcurrent : Current τ d p.2.2 := by
        refine ⟨p, hp, rfl, by rw [hunfixed]; exact nofun, fun q hq htrue => ?_⟩
        have hmem : q ∈ trues τ (rows d) := mem_trues.mpr ⟨hq, htrue⟩
        rw [hfree] at hmem
        cases hmem
      have hlt := hs.vars c hc v hv
      obtain ⟨b, hb, hiff⟩ := @feasible_exact ((leftDomains τ s).set v [p.2.2]) presences c hexact
      rw [feasibleAt_eq ?_ (by rwa [leftDomains, length_map]), hb]
      · refine congrArg some (eq_false_iff.mpr fun htrue => ?_)
        obtain ⟨value, hwithin, hvalue⟩ := within_of_trial hvalid (hs.vars c hc) hv hd hcurrent (hiff.mp htrue)
        exact hnone value hwithin hvalue
      · rintro tasks capacity rfl
        cases hexact
    · exact .inr hfree

theorem table_certificate (hvalid : Valid τ s) {t : TableStatement} (ht : .table t ∈ s.constraints) :
    ((∀ value, ¬ Within τ s (.table t) value) → (s.explain (some (.table t)) s.falseTerm (runReasons τ s)).isSome) ∧
    ∀ v ∈ t.vars, ∀ d, s.domains[v]? = some d → ∀ p ∈ rows d, τ.truth p.1 = none →
    (∀ value : CpVar → ℤ, value v = p.2.2 → (∀ w ∈ t.vars, w ≠ v → ∃ e, s.domains[w]? = some e ∧
    Current τ e (value w)) → ¬ (Constraint.table t).Holds value fun _ => false) →
    (s.explain (some (.table t)) p.2.1 (runReasons τ s)).isSome := by
  obtain ⟨presences, hstart⟩ := started hs τ
  constructor
  · intro hnone
    obtain ⟨b, hb, hiff⟩ := feasible_within hs hvalid presences ht rfl
    have hfalse : b = false := eq_false_iff.mpr fun htrue => by
      obtain ⟨value, hvalue⟩ := hiff.mp htrue
      exact hnone value hvalue
    rw [hfalse] at hb
    rw [explain_infeasible hs hvalid hstart.states ht hb]
    rfl
  · intro v hv d hd p hp _ hnone
    have hlt : v < (leftDomains τ s).length := by
      rw [leftDomains, length_map]
      exact hs.vars _ ht v hv
    obtain ⟨b, hb, hiff⟩ := @feasible_exact ((leftDomains τ s).set v [p.2.2]) presences (.table t) rfl
    have hfalse : b = false := eq_false_iff.mpr fun htrue => by
      obtain ⟨value, hmem, hholds⟩ := hiff.mp htrue
      have hself := hmem v hv
      rw [domainAt_set hlt, if_pos rfl] at hself
      refine hnone value (mem_singleton.mp hself) (fun w hw hne => ?_) hholds
      have hother := hmem w hw
      rw [domainAt_set hlt, if_neg hne] at hother
      exact (mem_domainAt hvalid (hs.vars _ ht w hw)).mp hother
    have hrefuted : feasibleAt (leftDomains τ s) presences v p.2.2 (.table t) = some false := by
      rw [feasibleAt_eq (fun _ _ heq => by cases heq) hlt, hb, hfalse]
    rw [explain_excluded hs hvalid hstart.states ht hv hd hp hrefuted]
    rfl

end

/-- The matching is exact, and a run excludes every value without a support in distinct values or in a table. -/
theorem filtering_consistent (hs : s.Built) (τ : Assignment) :
    (∀ vars domains, ∃ b, matching vars domains = some b ∧ (b = true ↔ Choosable vars domains)) ∧ Filters τ s := by
  have hdeclared := hs.declared
  exact ⟨matching_spec, fun h => run_conflict hdeclared h, fun hall _ h => run_conflict_only hdeclared hall h,
    fun hnot _ hc hexact _ hv _ hd _ hp hunfixed hnone =>
      run_exclusion hdeclared hnot hc hexact hv hd hp hunfixed hnone,
    fun hvalid _ ht => table_certificate hdeclared hvalid ht⟩

def pairModel : Except String CpStatement := do
  let (x, s) ← new.newVariable [(0, .var "x0" .bool), (1, .var "x1" .bool)]
  let (y, s) ← s.newVariable [(0, .var "y0" .bool), (1, .var "y1" .bool)]
  let s ← s.alldifferent [x, y]
  s.table [x, y] [[0, 0], [0, 1]]

theorem built_pairModel (h : pairModel = .ok s) : s.Built := by
  obtain ⟨⟨x, s₁⟩, h₁, h⟩ := bind_ok h
  obtain ⟨⟨y, s₂⟩, h₂, h⟩ := bind_ok h
  obtain ⟨s₃, h₃, h⟩ := bind_ok h
  exact .table (.alldifferent (.newVariable (.newVariable .new h₁) h₂) h₃) h

theorem filtering_consistent_pair : ∃ s, pairModel = .ok s ∧
    (∀ vars domains, ∃ b, matching vars domains = some b ∧ (b = true ↔ Choosable vars domains)) ∧
      Filters ⟨fun _ => none, nofun⟩ s :=
  ⟨_, rfl, filtering_consistent (built_pairModel rfl) _⟩

end CpStatement

end Nixie.Cp
