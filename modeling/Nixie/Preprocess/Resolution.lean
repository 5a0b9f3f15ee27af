import Nixie.Preprocess.Passes

/-!
Variable elimination over occurrence lists that are built once: every model is kept, and none is new where
no resolvent of a pivot is empty and no live clause outside the lists has the pivot.
-/

namespace Nixie.Preprocess

open Nixie.Literal Nixie.Witness List Option Preprocessor

variable {db db' : List Clause} {σ : ℕ → Bool} {p : Preprocessor} {v limit n : ℕ} {lits pos negs : List ℕ}
  {posLit : ℕ} {negLit : ℕ}

theorem mem_resolvent {l : ℕ} : l ∈ resolvent pos negs posLit negLit ↔ l ∈ without posLit pos ∨
    l ∈ without negLit negs := by
  have hfold : ∀ (negs r : List ℕ),
      l ∈ negs.foldl (fun r l => if l ≠ negLit ∧ l ∉ r then r ++ [l] else r) r ↔ l ∈ r ∨ l ∈ without negLit negs := by
    intro negs
    induction negs with
    | nil => simp [without]
    | cons m negs ih =>
      intro r
      rw [foldl_cons, ih]
      simp only [mem_without, mem_cons]
      split_ifs with h
      · rw [mem_append, mem_singleton]
        constructor
        · rintro ((hr | rfl) | ⟨hl, hne⟩)
          · exact .inl hr
          · exact .inr ⟨.inl rfl, h.1⟩
          · exact .inr ⟨.inr hl, hne⟩
        · rintro (hr | ⟨rfl | hl, hne⟩)
          · exact .inl (.inl hr)
          · exact .inl (.inr rfl)
          · exact .inr ⟨hl, hne⟩
      · rw [not_and_or, not_not, not_not] at h
        constructor
        · rintro (hr | ⟨hl, hne⟩)
          · exact .inl hr
          · exact .inr ⟨.inr hl, hne⟩
        · rintro (hr | ⟨rfl | hl, hne⟩)
          · exact .inl hr
          · exact .inl (h.resolve_left hne)
          · exact .inr ⟨hl, hne⟩
  exact hfold negs _

theorem holds_of_isTautology (h : isTautology lits = true) (σ : ℕ → Bool) : holds σ lits = true := by
  obtain ⟨m, hm, hneg⟩ := isTautology_spec h
  by_cases htrue : Assigns σ m
  · exact holds_iff.mpr ⟨m, hm, htrue⟩
  · exact holds_iff.mpr ⟨neg m, hneg, (assigns_neg σ m).mpr htrue⟩

theorem holds_resolvent (hpos : holds σ pos = true) (hneg : holds σ negs = true) :
    holds σ (resolvent pos negs posLit (neg posLit)) = true := by
  obtain ⟨l, hl, htrue⟩ := holds_iff.mp hpos
  by_cases hlp : l = posLit
  · obtain ⟨m, hm, hmtrue⟩ := holds_iff.mp hneg
    refine holds_iff.mpr ⟨m, mem_resolvent.mpr (.inr (mem_without.mpr ⟨hm, ?_⟩)), hmtrue⟩
    rintro rfl
    exact (assigns_neg σ posLit).mp hmtrue (hlp ▸ htrue)
  · exact holds_iff.mpr ⟨l, mem_resolvent.mpr (.inl (mem_without.mpr ⟨hl, hlp⟩)), htrue⟩

theorem holds_resolvent_split (h : holds σ (resolvent pos negs posLit negLit) = true) :
    holds σ (without posLit pos) = true ∨ holds σ (without negLit negs) = true := by
  obtain ⟨l, hl, htrue⟩ := holds_iff.mp h
  rcases mem_resolvent.mp hl with hl | hl
  · exact .inl (holds_iff.mpr ⟨l, hl, htrue⟩)
  · exact .inr (holds_iff.mpr ⟨l, hl, htrue⟩)

theorem mem_resolvents {posIds negIds : List ℕ} {r : List ℕ} :
    r ∈ resolvents db posIds negIds posLit negLit ↔
    ∃ i ∈ posIds, ∃ j ∈ negIds, ∃ c d : Clause, db[i]? = some c ∧ db[j]? = some d ∧
    r = resolvent c.lits d.lits posLit negLit ∧ isTautology r = false := by
  simp only [resolvents, mem_flatMap, mem_filterMap]
  refine exists_congr fun i => and_congr_right fun _ => exists_congr fun j => and_congr_right fun _ => ?_
  split
  next c d hc hd =>
    rw [hc, hd]
    constructor
    · intro h
      split_ifs at h with htaut
      obtain rfl := some.inj h
      exact ⟨c, d, rfl, rfl, rfl, Bool.eq_false_iff.mpr htaut⟩
    · rintro ⟨_, _, hc', hd', rfl, htaut⟩
      obtain rfl := some.inj hc'
      obtain rfl := some.inj hd'
      rw [htaut, if_neg Bool.false_ne_true]
  next hnone =>
    refine ⟨nofun, ?_⟩
    rintro ⟨c, d, hc, hd, -⟩
    exact absurd hd (hnone c d hc)

section

theorem getElem?_foldl_markDeletedRaw (ids : List ℕ) (i : ℕ) :
    (ids.foldl markDeletedRaw db)[i]? =
      if i ∈ ids then db[i]?.map (fun c => { c with deleted := true }) else db[i]? := by
  induction ids generalizing db with
  | nil => simp
  | cons id ids ih =>
    rw [foldl_cons, ih, getElem?_markDeletedRaw]
    by_cases hid : id = i
    · subst hid
      cases db[id]? <;> simp
    · simp [hid, Ne.symm hid]

theorem length_foldl_markDeletedRaw (ids : List ℕ) : (ids.foldl markDeletedRaw db).length = db.length := by
  induction ids generalizing db with
  | nil => rfl
  | cons id ids ih => exact (@ih (markDeletedRaw db id)).trans (length_modify _ _ _)

def Entered (p : Preprocessor) (db : List Clause) : Prop :=
  ∀ l, ∀ i ∈ p.occurrences l, ∃ c : Clause, db[i]? = some c ∧ l ∈ c.lits

structure Upholds (σ : ℕ → Bool) (p : Preprocessor) (db : List Clause) : Prop where
  live : Models σ ∅ db
  listed : ∀ l, ∀ i ∈ p.occurrences l, ∀ c : Clause, db[i]? = some c → holds σ c.lits = true

structure PivotClean (p : Preprocessor) (db : List Clause) (v : ℕ) : Prop where
  nonempty : [] ∉ resolvents db (p.occurrences (2 * v)) (p.occurrences (2 * v + 1)) (2 * v) (2 * v + 1)
  listed : ∀ (i : ℕ) (c : Clause), db[i]? = some c → c.deleted = false → ∀ l ∈ c.lits, l / 2 = v → i ∈ p.occurrences l

theorem neg_two_mul (v : ℕ) : neg (2 * v) = 2 * v + 1 := by
  rw [neg_eq, if_pos (by omega)]

variable {i : ℕ}

theorem getElem?_eliminateVar {c' : Clause} (h : (p.eliminateVar db v).2[i]? = some c') :
    (∃ c : Clause, db[i]? = some c ∧ c.lits = c'.lits ∧
    (c'.deleted = false → c.deleted = false ∧ i ∉ p.occurrences (2 * v) ∧ i ∉ p.occurrences (2 * v + 1))) ∨
    db.length ≤ i ∧ c'.lits ∈ resolvents db (p.occurrences (2 * v)) (p.occurrences (2 * v + 1)) (2 * v)
    (2 * v + 1) := by
  unfold eliminateVar at h
  dsimp only at h
  rw [getElem?_append, length_foldl_markDeletedRaw] at h
  split_ifs at h with hlt
  · refine .inl ?_
    rw [getElem?_foldl_markDeletedRaw] at h
    split_ifs at h with hmem
    · obtain ⟨c, hc, rfl⟩ := map_eq_some_iff.mp h
      exact ⟨c, hc, rfl, nofun⟩
    · rw [mem_append, not_or] at hmem
      exact ⟨c', h, rfl, fun hlive => ⟨hlive, hmem⟩⟩
  · obtain ⟨r, hr, rfl⟩ := mem_map.mp (mem_of_getElem? h)
    exact .inr ⟨Nat.le_of_not_lt hlt, mem_of_mem_filter hr⟩

theorem live_eliminateVar {c : Clause} (hc : db[i]? = some c) (hpos : i ∉ p.occurrences (2 * v))
    (hneg : i ∉ p.occurrences (2 * v + 1)) : (p.eliminateVar db v).2[i]? = some c := by
  unfold eliminateVar
  dsimp only
  have hold : ((p.occurrences (2 * v) ++ p.occurrences (2 * v + 1)).foldl markDeletedRaw db)[i]? = some c := by
    rw [getElem?_foldl_markDeletedRaw, if_neg (by rw [mem_append, not_or]; exact ⟨hpos, hneg⟩)]
    exact hc
  rw [List.getElem?_append_left (List.getElem?_eq_some_iff.mp hold).1]
  exact hold

theorem resolvent_live {r : List ℕ} (hne : r ≠ [])
    (hr : r ∈ resolvents db (p.occurrences (2 * v)) (p.occurrences (2 * v + 1)) (2 * v) (2 * v + 1)) :
    ∃ i : ℕ, (p.eliminateVar db v).2[i]? = some { lits := r } := by
  have hmem : ({ lits := r } : Clause) ∈ (p.eliminateVar db v).2 :=
    mem_append_right _ (mem_map.mpr ⟨r, mem_filter.mpr ⟨hr, decide_eq_true hne⟩, rfl⟩)
  exact mem_iff_getElem?.mp hmem

theorem Upholds.eliminateVar (h : Upholds σ p db) (hentered : Entered p db) :
    Upholds σ (p.eliminateVar db v).1 (p.eliminateVar db v).2 := by
  have hresolvent : ∀ r ∈ resolvents db (p.occurrences (2 * v)) (p.occurrences (2 * v + 1)) (2 * v)
    (2 * v + 1),
      holds σ r = true := by
    intro r hr
    obtain ⟨i, hi, j, hj, c, d, hc, hd, rfl, -⟩ := mem_resolvents.mp hr
    rw [← neg_two_mul]
    exact holds_resolvent (h.listed _ i hi c hc) (h.listed _ j hj d hd)
  refine ⟨⟨fun i c' hc' hlive => ?_, nofun⟩, fun l i hi c' hc' => ?_⟩
  · rcases getElem?_eliminateVar hc' with ⟨c, hc, hlits, hkeep⟩ | ⟨-, hr⟩
    · exact hlits ▸ h.live.clauses i c hc (hkeep hlive).1
    · exact hresolvent _ hr
  · rcases getElem?_eliminateVar hc' with ⟨c, hc, hlits, -⟩ | ⟨hlength, -⟩
    · exact hlits ▸ h.listed l i hi c hc
    · obtain ⟨c, hc, -⟩ := hentered l i hi
      exact absurd (List.getElem?_eq_some_iff.mp hc).1 (Nat.not_lt.mpr hlength)

theorem Entered.eliminateVar (h : Entered p db) : Entered (p.eliminateVar db v).1 (p.eliminateVar db v).2 := by
  intro l i hi
  obtain ⟨c, hc, hmem⟩ := h l i hi
  have hlt : i < (p.eliminateVar db v).2.length := by
    unfold Preprocessor.eliminateVar
    dsimp only
    rw [length_append, length_foldl_markDeletedRaw]
    exact (List.getElem?_eq_some_iff.mp hc).1.trans_le (Nat.le_add_right _ _)
  obtain ⟨c', hc'⟩ : ∃ c', (p.eliminateVar db v).2[i]? = some c' := ⟨_, List.getElem?_eq_getElem hlt⟩
  rcases getElem?_eliminateVar hc' with ⟨d, hd, hlits, -⟩ | ⟨hlength, -⟩
  · obtain rfl := Option.some.inj (hc.symm.trans hd)
    exact ⟨c', hc', hlits ▸ hmem⟩
  · exact absurd (List.getElem?_eq_some_iff.mp hc).1 (Nat.not_lt.mpr hlength)

theorem PivotClean.sat (hclean : PivotClean p db v) (hentered : Entered p db)
    (h : SatWith (p.eliminateVar db v).2 ∅) : SatWith db ∅ := by
  obtain ⟨σ, hσ⟩ := h
  set ps := (db.filter fun c => !c.deleted && decide (2 * v ∈ c.lits) && !decide (2 * v + 1 ∈ c.lits)).map Clause.lits
    with hps
  set ns := (db.filter fun c => !c.deleted && decide (2 * v + 1 ∈ c.lits) && !decide (2 * v ∈ c.lits)).map Clause.lits
    with hns
  have hpside : ∀ c ∈ ps, 2 * v ∈ c ∧ neg (2 * v) ∉ c := by
    intro c hc
    obtain ⟨d, hd, rfl⟩ := mem_map.mp hc
    have hd := (mem_filter.mp hd).2
    simp only [Bool.and_eq_true, Bool.not_eq_true', decide_eq_true_eq, decide_eq_false_iff_not] at hd
    rw [neg_two_mul]
    exact ⟨hd.1.2, hd.2⟩
  have hnside : ∀ d ∈ ns, neg (2 * v) ∈ d ∧ 2 * v ∉ d := by
    intro c hc
    obtain ⟨d, hd, rfl⟩ := mem_map.mp hc
    have hd := (mem_filter.mp hd).2
    simp only [Bool.and_eq_true, Bool.not_eq_true', decide_eq_true_eq, decide_eq_false_iff_not] at hd
    rw [neg_two_mul]
    exact ⟨hd.1.2, hd.2⟩
  have hlisted : ∀ l, l / 2 = v → ∀ c : Clause, c ∈ db → c.deleted = false → l ∈ c.lits →
      ∃ i ∈ p.occurrences l, db[i]? = some c := by
    intro l hl c hc hlive hmem
    obtain ⟨i, hi⟩ := mem_iff_getElem?.mp hc
    exact ⟨i, hclean.listed i c hi hlive l hmem hl, hi⟩
  have hpair : ∀ c ∈ ps, ∀ d ∈ ns, holds σ (without (2 * v) c) = true ∨ holds σ (without (neg (2 * v)) d) = true := by
    intro c hc d hd
    obtain ⟨c, hcdb, rfl⟩ := mem_map.mp hc
    obtain ⟨d, hddb, rfl⟩ := mem_map.mp hd
    obtain ⟨hcmem, hcprop⟩ := mem_filter.mp hcdb
    obtain ⟨hdmem, hdprop⟩ := mem_filter.mp hddb
    simp only [Bool.and_eq_true, Bool.not_eq_true', decide_eq_true_eq, decide_eq_false_iff_not] at hcprop hdprop
    obtain ⟨i, hi, hci⟩ := hlisted (2 * v) (by omega) c hcmem hcprop.1.1 hcprop.1.2
    obtain ⟨j, hj, hdj⟩ := hlisted (2 * v + 1) (by omega) d hdmem hdprop.1.1 hdprop.1.2
    rw [neg_two_mul]
    refine holds_resolvent_split ?_
    by_cases htaut : isTautology (resolvent c.lits d.lits (2 * v) (2 * v + 1)) = true
    · exact holds_of_isTautology htaut σ
    · have hr := mem_resolvents.mpr ⟨i, hi, j, hj, c, d, hci, hdj, rfl, Bool.eq_false_iff.mpr htaut⟩
      obtain ⟨k, hk⟩ := resolvent_live (fun hnil => hclean.nonempty (hnil ▸ hr)) hr
      exact hσ.clauses k _ hk rfl
  obtain ⟨hside, hframe⟩ := replay_pivot hpside hnside hpair
  generalize replay (ps.map (Entry.mk (2 * v)) ++ ns.map (Entry.mk (neg (2 * v)))) σ = τ at hside hframe
  refine ⟨τ, ⟨fun i c hc hlive => ?_, nofun⟩⟩
  by_cases hp : 2 * v ∈ c.lits
  · by_cases hn : 2 * v + 1 ∈ c.lits
    · by_cases htrue : Assigns τ (2 * v)
      · exact holds_iff.mpr ⟨_, hp, htrue⟩
      · exact holds_iff.mpr ⟨_, hn, neg_two_mul v ▸ (assigns_neg _ _).mpr htrue⟩
    · have hmem : c ∈ db.filter fun c => !c.deleted && decide (2 * v ∈ c.lits) && !decide (2 * v + 1 ∈ c.lits) :=
        mem_filter.mpr ⟨mem_of_getElem? hc, by simp [hlive, hp, hn]⟩
      exact hside c.lits (mem_append_left _ (mem_map_of_mem hmem))
  · by_cases hn : 2 * v + 1 ∈ c.lits
    · have hmem : c ∈ db.filter fun c => !c.deleted && decide (2 * v + 1 ∈ c.lits) && !decide (2 * v ∈ c.lits) :=
        mem_filter.mpr ⟨mem_of_getElem? hc, by simp [hlive, hp, hn]⟩
      exact hside c.lits (mem_append_right _ (mem_map_of_mem hmem))
    · -- a clause without the pivot is not listed, stays and is not touched
      have hnot : ∀ l, l / 2 = v → l ∉ c.lits := by
        intro l hl hmem
        have hcases : l = 2 * v ∨ l = 2 * v + 1 := by omega
        rcases hcases with rfl | rfl
        · exact hp hmem
        · exact hn hmem
      have hunlisted : ∀ l, l / 2 = v → i ∉ p.occurrences l := by
        intro l hl hi
        obtain ⟨d, hd, hmem⟩ := hentered l i hi
        obtain rfl := some.inj (hc.symm.trans hd)
        exact hnot l hl hmem
      have hstay := live_eliminateVar hc (hunlisted (2 * v) (by omega)) (hunlisted (2 * v + 1) (by omega))
      rw [holds_congr fun l hl => hframe (l / 2) fun heq => hnot l (by omega) hl]
      exact hσ.clauses i c hstay hlive

end

section

variable {vs : List ℕ}

def CleanPivots (limit : ℕ) : List ℕ → Preprocessor → List Clause → Prop
  | [], _, _ => True
  | v :: vs, p, db =>
    if p.pays limit v then PivotClean p db v ∧ CleanPivots limit vs (p.eliminateVar db v).1 (p.eliminateVar db v).2
    else CleanPivots limit vs p db

theorem eliminateVars_upholds (h : Upholds σ p db) (hentered : Entered p db) :
    Models σ ∅ (eliminateVars limit vs p db n).2.1 := by
  induction vs generalizing p db n with
  | nil => exact h.live
  | cons v vs ih =>
    rw [eliminateVars]
    split_ifs
    · exact ih (h.eliminateVar hentered) hentered.eliminateVar
    · exact ih h hentered

theorem eliminateVars_sat (hentered : Entered p db) (hclean : CleanPivots limit vs p db)
    (h : SatWith (eliminateVars limit vs p db n).2.1 ∅) : SatWith db ∅ := by
  induction vs generalizing p db n with
  | nil => exact h
  | cons v vs ih =>
    rw [eliminateVars] at h
    rw [CleanPivots] at hclean
    split_ifs at h hclean with hpays
    · exact hclean.1.sat hentered (ih hentered.eliminateVar hclean.2 h)
    · exact ih hentered hclean h

/-- Variable elimination keeps satisfiability, where the clauses are satisfiable or every pivot is clean. -/
theorem variableElimination_equisatisfiable (p : Preprocessor) (db : List Clause) (limit : ℕ)
    (hrange : InRange p.numVars db) (h : SatWith db ∅ ∨
    CleanPivots limit (List.range p.numVars) { p with occurrences := occurrencesOf db } db) :
    ∃ p' db' eliminated, p.variableElimination db limit = some (p', db', eliminated) ∧
    (SatWith db' ∅ ↔ SatWith db ∅) := by
  have hentered : Entered { p with occurrences := occurrencesOf db } db := by
    intro l i hi
    obtain ⟨c, hc, -, hmem⟩ := mem_occurrencesOf.mp hi
    exact ⟨c, hc, hmem⟩
  have hrun : p.variableElimination db limit = some (eliminateVars limit (List.range p.numVars)
      { p with occurrences := occurrencesOf db } db 0) := by
    rw [variableElimination, buildOccurrences_isSome hrange]
    rfl
  refine ⟨_, _, _, hrun, fun hafter => ?_, fun ⟨σ, hσ⟩ => ⟨σ, eliminateVars_upholds ⟨hσ, ?_⟩ hentered⟩⟩
  · rcases h with hbefore | hclean
    · exact hbefore
    · exact eliminateVars_sat hentered hclean hafter
  · intro l i hi c hc
    obtain ⟨d, hd, hlive, -⟩ := mem_occurrencesOf.mp hi
    obtain rfl := some.inj (hd.symm.trans hc)
    exact hσ.clauses i d hd hlive

/-- Contradictory clauses, of which the first variable has one clause for each of its literals. -/
def clashing : List Clause := [{ lits := [0, 2] }, { lits := [1, 2] }, { lits := [3] }]

theorem variableElimination_equisatisfiable_pivot : ∃ p' db' eliminated,
    variableElimination { numVars := 2 } clashing 1 = some (p', db', eliminated) ∧ ¬ SatWith db' ∅ := by
  obtain ⟨p', db', eliminated, hrun, hiff⟩ := variableElimination_equisatisfiable { numVars := 2 } clashing 1
    (by decide) (.inr ⟨⟨by decide, fun i c hc hlive l hl _ => mem_occurrencesOf.mpr ⟨c, hc, hlive, hl⟩⟩, trivial⟩)
  refine ⟨p', db', eliminated, hrun, fun h => ?_⟩
  obtain ⟨σ, hσ⟩ := hiff.mp h
  have hfirst : holds σ [0, 2] = true := hσ.clauses 0 _ rfl rfl
  have hsecond : holds σ [1, 2] = true := hσ.clauses 1 _ rfl rfl
  have hthird : holds σ [3] = true := hσ.clauses 2 _ rfl rfl
  simp_all [holds]

/-- The empty resolvent of two unit clauses is thrown away. -/
theorem variableElimination_drops_empty : ∃ p' db' eliminated,
    variableElimination { numVars := 1 } [{ lits := [0] }, { lits := [1] }] 8 =
      some (p', db', eliminated) ∧
      SatWith db' ∅ ∧ ¬ SatWith [{ lits := [0] }, { lits := [1] }] ∅ := by
  have hrun : ∃ out, variableElimination { numVars := 1 } [{ lits := [0] }, { lits := [1] }] 8 = some out ∧
      out.2.1 = [{ lits := [0], deleted := true }, { lits := [1], deleted := true }] := ⟨_, rfl, rfl⟩
  obtain ⟨⟨p', db', eliminated⟩, hout, rfl⟩ := hrun
  refine ⟨p', _, eliminated, hout, ⟨fun _ => true, fun i c hc hlive => ?_, nofun⟩, fun ⟨σ, hσ⟩ => ?_⟩
  · rcases mem_cons.mp (mem_of_getElem? hc) with rfl | hc
    · cases hlive
    · obtain rfl := mem_singleton.mp hc
      cases hlive
  · obtain ⟨l, hl, htrue⟩ := holds_iff.mp (hσ.clauses 0 _ rfl rfl)
    obtain ⟨m, hm, hmtrue⟩ := holds_iff.mp (hσ.clauses 1 _ rfl rfl)
    obtain rfl := mem_singleton.mp hl
    obtain rfl := mem_singleton.mp hm
    exact (assigns_neg σ 0).mp hmtrue htrue

end

end Nixie.Preprocess
