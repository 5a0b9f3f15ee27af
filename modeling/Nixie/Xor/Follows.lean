import Nixie.Xor.Search

/-!
The folds follow the trail over a run of the search, as long as no backtrack takes a folded literal from below the ones
it keeps; the clauses a step builds are then entailed, and false but for the literals they imply.
-/

namespace Nixie.Xor

open Nixie.Sat Nixie.Sat.Solver Literal Parity List SearchState

variable {F : List (List ℕ)} {base m : GF2Matrix} {lits : List ℕ} {lit : ℕ}

section

variable {σ : ℕ → Bool} {var : ℕ} {value : Bool}

theorem literal_div_two : literal var value / 2 = var := by
  cases value
  · rw [literal, if_neg Bool.false_ne_true]
    omega
  · rw [literal, if_pos rfl]
    omega

theorem literal_mod_two : (literal var value % 2 == 0) = value := by
  cases value <;> simp [literal]

theorem isTrue_literal : Sat.isTrue σ (literal var value) = true ↔ σ var = value := by
  rw [Sat.isTrue, literal_div_two, literal_mod_two, beq_iff_eq]

theorem neg_literal (l : ℕ) : literal (l / 2) (!(l % 2 == 0)) = neg l := by
  have hdiv : literal (l / 2) (!(l % 2 == 0)) / 2 = neg l / 2 := by rw [literal_div_two, neg_div_two]
  rcases eq_or_eq_neg hdiv with h | h
  · exact h
  · rw [neg_neg] at h
    have hmod := @literal_mod_two (l / 2) !(l % 2 == 0)
    rw [h] at hmod
    cases hl : (l % 2 == 0) <;> simp [hl] at hmod

end

section

structure Base (F : List (List ℕ)) (base : GF2Matrix) : Prop where
  fresh : base.Fresh
  solved : ∀ σ, Satisfies σ F → ∀ r ∈ base.rows, base.Solves σ r

structure Justified (F : List (List ℕ)) (t : Trail) (b : Built) : Prop where
  entailed : Entailed F b.lits
  conflict : b.implied = none → ∀ l ∈ b.lits, t.litVal l < 0
  reason : ∀ lit, b.implied = some lit → lit ∈ b.lits ∧ 0 < t.litVal lit ∧ ∀ l ∈ b.lits, l ≠ lit → t.litVal l < 0

structure Derives (F : List (List ℕ)) (t : Trail) (d : SearchState.Derivation) : Prop where
  entailed : Entailed F (reasonLits d.folded ++ [literal d.var d.value])
  folded : ∀ l ∈ reasonLits d.folded, t.litVal l < 0

variable {s s' : Solver}

theorem litVal_neg_iff {t : Trail} (h : t.Valid) : t.litVal lit < 0 ↔ neg lit ∈ t.assignments := by
  rw [h.neg_mem_iff, Trail.litVal]
  rcases litVal_cases h lit with hval | hval | hval <;> rw [Trail.litVal] at hval <;> rw [hval] <;> decide

theorem litVal_pos_iff {t : Trail} (h : t.Valid) : 0 < t.litVal lit ↔ lit ∈ t.assignments := by
  rw [h.mem_iff, Trail.litVal]
  rcases litVal_cases h lit with hval | hval | hval <;> rw [Trail.litVal] at hval <;> rw [hval] <;> decide

theorem Advances.litVal_neg (hvalid : s.trail.Valid) (h : Advances F s s') (hlit : s.trail.litVal lit < 0) :
    s'.trail.litVal lit < 0 :=
  (litVal_neg_iff h.valid).mpr (h.mem ((litVal_neg_iff hvalid).mp hlit))

theorem Advances.litVal_pos (hvalid : s.trail.Valid) (h : Advances F s s') (hlit : 0 < s.trail.litVal lit) :
    0 < s'.trail.litVal lit :=
  (litVal_pos_iff h.valid).mpr (h.mem ((litVal_pos_iff hvalid).mp hlit))

theorem Justified.mono {b : Built} (hvalid : s.trail.Valid) (h : Advances F s s') (hb : Justified F s.trail b) :
    Justified F s'.trail b := by
  refine ⟨hb.entailed, fun hnone l hl => Advances.litVal_neg hvalid h (hb.conflict hnone l hl), fun lit hlit => ?_⟩
  obtain ⟨hmem, htrue, hrest⟩ := hb.reason lit hlit
  exact ⟨hmem, Advances.litVal_pos hvalid h htrue, fun l hl hne => Advances.litVal_neg hvalid h (hrest l hl hne)⟩

theorem Derives.mono {d : SearchState.Derivation} (hvalid : s.trail.Valid) (h : Advances F s s')
    (hd : Derives F s.trail d) : Derives F s'.trail d :=
  ⟨hd.entailed, fun l hl => Advances.litVal_neg hvalid h (hd.folded l hl)⟩

structure Refuted (F : List (List ℕ)) (s : Solver) (id : ℕ) : Prop where
  falsified : s.Falsified id
  entailed : ∀ c, s.clauses id = some c → Entailed F c.lits

theorem Refuted.of_stored {id : ℕ} (hstored : s.Stored F) (h : s.Falsified id) : Refuted F s id :=
  ⟨h, hstored.entailed id⟩

end

section

variable {t : Trail} {results : List XorAddResult} {x : XorSearch} {units : List SearchState.Derivation}
  {s s' : Solver}

def ResultHolds (F : List (List ℕ)) (t : Trail) : XorAddResult → Prop
  | .unit var value folded => Derives F t ⟨var, value, folded⟩
  | .conflict folded => Entailed F (reasonLits folded) ∧ ∀ l ∈ reasonLits folded, t.litVal l < 0
  | _ => True

theorem Base.resultHolds (hbase : Base F base) (h : base.Folded m lits) (hvalid : t.Valid)
    (hnodup : ((lits ++ [lit]).map (· / 2)).Nodup) (htrail : ∀ l ∈ lits ++ [lit], l ∈ t.assignments) :
    ∀ result ∈ (m.propagate (lit / 2) (lit % 2 == 0)).2, ResultHolds F t result := by
  intro result hresult
  obtain ⟨r, hr, hrow⟩ := h.result hbase.fresh hresult
  have hfalse : ∀ folded, (result = .conflict folded ∨ ∃ v val, result = .unit v val folded) →
      ∀ l ∈ reasonLits folded, t.litVal l < 0 := by
    intro folded hfolded l hl
    obtain ⟨vb, hvb, rfl⟩ := mem_map.mp hl
    obtain ⟨k, hk, hvar, hvalue⟩ := hbase.fresh.mem_folded hr hrow hfolded vb hvb
    rw [← hvar, hvalue, neg_literal]
    exact litVal_neg_of_mem hvalid (htrail k hk)
  have hfound : ∀ σ folded, (∃ vb ∈ folded, σ vb.1 ≠ vb.2) → ∃ l ∈ reasonLits folded, Sat.isTrue σ l = true := by
    rintro σ folded ⟨vb, hvb, hne⟩
    exact ⟨_, mem_map_of_mem hvb, isTrue_literal.mpr (Bool.eq_not.mpr hne)⟩
  cases result with
  | added => trivial
  | redundant => trivial
  | conflict folded =>
    refine ⟨fun σ hσ => hfound σ folded ?_, hfalse folded (.inl rfl)⟩
    exact hbase.fresh.conflict_refutes hr (hbase.solved σ hσ r hr) hnodup hrow
  | unit var value folded =>
    refine ⟨fun σ hσ => ?_, hfalse folded (.inr ⟨var, value, rfl⟩)⟩
    rcases hbase.fresh.unit_implied hr (hbase.solved σ hσ r hr) hnodup hrow with hne | heq
    · obtain ⟨l, hl, htrue⟩ := hfound σ folded hne
      exact ⟨l, mem_append_left _ hl, htrue⟩
    · exact ⟨_, mem_append_right _ mem_cons_self, isTrue_literal.mpr heq⟩

theorem addBuilt_spec (hvalid : s.trail.Valid) (hstored : s.Stored F) (hlits : Entailed F lits) :
    Advances F s (addBuilt s x lits).1 ∧ (addBuilt s x lits).1.trail = s.trail ∧
      (addBuilt s x lits).2.1 = { x with reasons := x.reasons + 1 } ∧
      (addBuilt s x lits).1.clauses (addBuilt s x lits).2.2 = some { lits := lits } :=
  ⟨⟨hvalid, hstored.addClauseToDb hlits, prefix_rfl⟩, rfl, rfl, Function.update_self _ _ _⟩

structure Scanned (F : List (List ℕ)) (s : Solver) (x : XorSearch)
    (out : Solver × XorSearch × List SearchState.Derivation × Option Built) : Prop where
  advances : Advances F s out.1
  trail : out.1.trail = s.trail
  matrix : out.2.1.matrix = x.matrix
  foldIdx : out.2.1.foldIdx = x.foldIdx
  watermark : out.2.1.watermark = x.watermark
  units : ∀ d ∈ out.2.2.1, Derives F s.trail d
  built : ∀ b, out.2.2.2 = some b → Justified F s.trail b ∧ Refuted F out.1 b.id

theorem scanResults_spec (hvalid : s.trail.Valid) (hstored : s.Stored F)
    (hresults : ∀ r ∈ results, ResultHolds F s.trail r) (hunits : ∀ d ∈ units, Derives F s.trail d) :
    Scanned F s x (scanResults results s x units) := by
  induction results generalizing units with
  | nil => exact ⟨.refl hvalid hstored, rfl, rfl, rfl, rfl, hunits, nofun⟩
  | cons r results ih =>
    obtain ⟨hr, hrest⟩ := forall_mem_cons.mp hresults
    cases r with
    | added => exact ih hrest hunits
    | redundant => exact ih hrest hunits
    | unit var value folded =>
      exact ih hrest (forall_mem_append.mpr ⟨hunits, forall_mem_singleton.mpr hr⟩)
    | conflict folded =>
      rw [scanResults]
      split_ifs with hempty
      · exact ih hrest hunits
      · obtain ⟨hentailed, hfalse⟩ := hr
        obtain ⟨hadv, htrail, -, hclause⟩ := addBuilt_spec (x := x) hvalid hstored hentailed
        refine ⟨hadv, htrail, rfl, rfl, rfl, hunits, fun b hb => ?_⟩
        obtain rfl := Option.some.inj hb
        refine ⟨⟨hentailed, fun _ => hfalse, nofun⟩, .of_stored hadv.stored fun c hc => ?_⟩
        obtain rfl := Option.some.inj (hclause.symm.trans hc)
        exact hfalse

structure Follows (base : GF2Matrix) (t : Trail) (x : XorSearch) : Prop where
  foldIdx : x.foldIdx = List.range x.watermark
  le : x.watermark ≤ t.assignments.length
  folded : base.Folded x.matrix (t.assignments.take x.watermark)

structure FoldedDelta (F : List (List ℕ)) (base : GF2Matrix) (s : Solver)
    (out : Solver × XorSearch × List SearchState.Derivation × Option Built) : Prop where
  advances : Advances F s out.1
  trail : out.1.trail = s.trail
  follows : Follows base s.trail out.2.1
  units : ∀ d ∈ out.2.2.1, Derives F s.trail d
  built : ∀ b, out.2.2.2 = some b → Justified F s.trail b ∧ Refuted F out.1 b.id

theorem foldDelta_spec (hbase : Base F base) (hvalid : s.trail.Valid) (hstored : s.Stored F)
    (hfollows : Follows base s.trail x) (hlits : lits = s.trail.assignments.drop x.watermark)
    (hunits : ∀ d ∈ units, Derives F s.trail d) :
    FoldedDelta F base s (foldDelta x.watermark lits s x units) := by
  generalize hpos : x.watermark = pos at hlits
  induction lits generalizing s x units pos with
  | nil => exact ⟨.refl hvalid hstored, rfl, hfollows, hunits, nofun⟩
  | cons lit lits ih =>
    subst hpos
    have hlt : x.watermark < s.trail.assignments.length := by
      by_contra hge
      rw [drop_of_length_le (Nat.le_of_not_lt hge)] at hlits
      cases hlits
    rw [drop_eq_getElem_cons hlt] at hlits
    obtain ⟨rfl, rfl⟩ := List.cons.inj hlits
    have htake : s.trail.assignments.take (x.watermark + 1) =
        s.trail.assignments.take x.watermark ++ [s.trail.assignments[x.watermark]] := take_succ_eq_append_getElem hlt
    have hsub : ∀ l ∈ s.trail.assignments.take x.watermark ++ [s.trail.assignments[x.watermark]],
        l ∈ s.trail.assignments := fun l hl => mem_of_mem_take (htake ▸ hl)
    have hnodup : ((s.trail.assignments.take x.watermark ++ [s.trail.assignments[x.watermark]]).map (· / 2)).Nodup := by
      rw [← htake]
      exact hvalid.nodup.sublist ((take_sublist _ _).map _)
    have hresults := hbase.resultHolds hfollows.folded hvalid hnodup hsub
    have hnext := htake ▸ hfollows.folded.propagate hbase.fresh
    rw [foldDelta]
    generalize x.matrix.propagate (s.trail.assignments[x.watermark] / 2)
      (s.trail.assignments[x.watermark] % 2 == 0) = out at hresults hnext
    obtain ⟨matrix, results⟩ := out
    dsimp only at hresults hnext ⊢
    have hscan := scanResults_spec (x := { x with
      matrix := matrix, foldIdx := x.foldIdx ++ [x.watermark], watermark := x.watermark + 1 })
      hvalid hstored hresults hunits
    have hfollows' : ∀ y : XorSearch, y.matrix = matrix → y.foldIdx = x.foldIdx ++ [x.watermark] →
        y.watermark = x.watermark + 1 → Follows base s.trail y := by
      intro y hmatrix hidx hwater
      refine ⟨?_, hwater ▸ hlt, ?_⟩
      · rw [hidx, hwater, hfollows.foldIdx, range_succ]
      · rw [hmatrix, hwater]
        exact hnext
    split
    next s1 x1 units1 b hout =>
      rw [hout] at hscan
      exact ⟨hscan.advances, hscan.trail, hfollows' x1 hscan.matrix hscan.foldIdx hscan.watermark, hscan.units,
        hscan.built⟩
    next s1 x1 units1 hout =>
      rw [hout] at hscan
      obtain ⟨hadv, htrail, hmatrix, hidx, hwater, hunits1, -⟩ := hscan
      dsimp only at hadv htrail hmatrix hidx hwater hunits1
      have hfollows1 : Follows base s1.trail x1 := by
        rw [htrail]
        exact hfollows' x1 hmatrix hidx hwater
      have hderives : ∀ d ∈ units1, Derives F s1.trail d := by
        rw [htrail]
        exact hunits1
      have hrest := ih hadv.valid hadv.stored hfollows1 hderives _ hwater (by rw [htrail])
      exact ⟨hadv.trans hrest.advances, hrest.trail.trans htrail, htrail ▸ hrest.follows, htrail ▸ hrest.units,
        htrail ▸ hrest.built⟩

end

section

variable {s : Solver} {x : XorSearch} {units : List SearchState.Derivation} {built : List Built}

theorem Follows.mono {t t' : Trail} {y : XorSearch} (h : Follows base t x) (hgrows : t.assignments <+: t'.assignments)
    (hmatrix : y.matrix = x.matrix) (hidx : y.foldIdx = x.foldIdx) (hwater : y.watermark = x.watermark) :
    Follows base t' y := by
  obtain ⟨rest, hrest⟩ := hgrows
  refine ⟨by rw [hidx, hwater, h.foldIdx], ?_, ?_⟩
  · rw [hwater, ← hrest, length_append]
    exact h.le.trans (Nat.le_add_right _ _)
  · rw [hmatrix, hwater, ← hrest, take_append_of_le_length h.le]
    exact h.folded

structure AppliedWell (F : List (List ℕ)) (base : GF2Matrix) (s : Solver) (out : SearchState.Applied) : Prop where
  advances : Advances F s out.solver
  follows : Follows base out.solver.trail out.xorSearch
  built : ∀ b ∈ out.built, Justified F out.solver.trail b
  conflict : ∀ id, out.conflict = some id → Refuted F out.solver id

theorem applyUnits_spec (any : Bool) (hvalid : s.trail.Valid) (hstored : s.Stored F) (hfollows : Follows base s.trail x)
    (hunits : ∀ d ∈ units, Derives F s.trail d) (hbuilt : ∀ b ∈ built, Justified F s.trail b) :
    AppliedWell F base s (applyUnits units s x any built) := by
  induction units generalizing s x any built with
  | nil => exact ⟨.refl hvalid hstored, hfollows, hbuilt, nofun⟩
  | cons d units ih =>
    obtain ⟨hd, hrest⟩ := forall_mem_cons.mp hunits
    rw [applyUnits]
    dsimp only
    split_ifs with hdisabled htrue hfalse hover
    · exact ⟨.refl hvalid hstored, hfollows, hbuilt, nofun⟩
    · exact ih any hvalid hstored hfollows hrest hbuilt
    · obtain ⟨hadv, htrail, hx, hclause⟩ := addBuilt_spec (x := x) hvalid hstored hd.entailed
      have hall : ∀ l ∈ reasonLits d.folded ++ [literal d.var d.value], s.trail.litVal l < 0 :=
        forall_mem_append.mpr ⟨hd.folded, forall_mem_singleton.mpr (by rw [hfalse]; decide)⟩
      refine ⟨hadv, ?_, forall_mem_append.mpr ⟨hbuilt, forall_mem_singleton.mpr ?_⟩, fun id hid => ?_⟩
      · exact hfollows.mono hadv.grows rfl rfl rfl
      · exact ⟨hd.entailed, fun _ => hall, nofun⟩
      · obtain rfl := Option.some.inj hid
        refine .of_stored hadv.stored fun c hc => ?_
        obtain rfl := Option.some.inj (hclause.symm.trans hc)
        exact hall
    · exact ⟨.refl hvalid hstored, ⟨hfollows.foldIdx, hfollows.le, hfollows.folded⟩, hbuilt, nofun⟩
    · obtain ⟨hadv, htrail, hx, -⟩ := addBuilt_spec (x := x) hvalid hstored hd.entailed
      generalize addBuilt s x (reasonLits d.folded ++ [literal d.var d.value]) = out at hadv htrail hx
      obtain ⟨s1, x1, id⟩ := out
      dsimp only at hadv htrail hx ⊢
      subst hx
      have hzero : s1.trail.litVal (literal d.var d.value) = 0 := by
        rw [htrail]
        rcases litVal_cases hvalid (literal d.var d.value) with h | h | h
        · exact absurd h htrue
        · exact absurd h hfalse
        · exact h
      have hassign := Advances.assign (.propagation id) hadv.valid hadv.stored hzero
      have hboth := hadv.trans hassign
      have hself : 0 < (s1.trail.assign (literal d.var d.value) (.propagation id)).litVal (literal d.var d.value) :=
        (litVal_pos_iff hassign.valid).mpr (mem_append_right _ mem_cons_self)
      have hnew : Justified F (s1.trail.assignPropagation (literal d.var d.value) id)
          ⟨id, reasonLits d.folded ++ [literal d.var d.value], some (literal d.var d.value)⟩ := by
        refine ⟨hd.entailed, nofun, fun lit hlit => ?_⟩
        obtain rfl := Option.some.inj hlit
        refine ⟨mem_append_right _ mem_cons_self, hself, fun l hl hne => ?_⟩
        rcases mem_append.mp hl with hl | hl
        · exact Advances.litVal_neg hvalid hboth (hd.folded l hl)
        · exact absurd (mem_singleton.mp hl) hne
      have hbuilt1 : ∀ b ∈ built ++ [⟨id, reasonLits d.folded ++ [literal d.var d.value],
        some (literal d.var d.value)⟩],
          Justified F (s1.trail.assignPropagation (literal d.var d.value) id) b :=
        forall_mem_append.mpr ⟨fun b hb => (hbuilt b hb).mono hvalid hboth, forall_mem_singleton.mpr hnew⟩
      have hfollows1 : Follows base (s1.trail.assignPropagation (literal d.var d.value) id)
          { x with reasons := x.reasons + 1 } := hfollows.mono hboth.grows rfl rfl rfl
      have hout := ih true hassign.valid hassign.stored hfollows1 (fun e he => (hrest e he).mono hvalid hboth) hbuilt1
      exact ⟨hboth.trans hout.advances, hout.follows, hout.built, hout.conflict⟩

end

section

variable {t t' : SearchState} {conflict : Option ℕ} {built built' : List Built}

structure Keeps (F : List (List ℕ)) (base : GF2Matrix) (t : SearchState) : Prop where
  valid : t.solver.trail.Valid
  stored : t.solver.Stored F
  follows : ∀ x, t.xorSearch = some x → Follows base t.solver.trail x

structure Stepped (F : List (List ℕ)) (base : GF2Matrix) (t t' : SearchState) (conflict : Option ℕ)
    (built : List Built) :
    Prop where
  keeps : Keeps F base t'
  advances : Advances F t.solver t'.solver
  conflict : ∀ id, conflict = some id → Refuted F t'.solver id
  built : ∀ b ∈ built, Justified F t'.solver.trail b

theorem Keeps.of_advances {solver : Solver} {x : XorSearch} (h : Advances F t.solver solver)
    (hfollows : Follows base solver.trail x) {unsat : Bool} :
    Keeps F base { t with solver := solver, xorSearch := some x, triviallyUnsat := unsat } :=
  ⟨h.valid, h.stored, fun y hy => by
    obtain rfl := Option.some.inj hy
    exact hfollows⟩

theorem xorSearchLoop_spec (hbase : Base F base) {bcpFuel fuel : ℕ} {x : XorSearch} (hvalid : t.solver.trail.Valid)
    (hstored : t.solver.Stored F) (hfollows : Follows base t.solver.trail x)
    (hbuilt : ∀ b ∈ built, Justified F t.solver.trail b)
    (h : t.xorSearchLoop bcpFuel fuel x built = some (t', conflict, built')) : Stepped F base t t' conflict built' := by
  induction fuel generalizing t x built with
  | zero => cases h
  | succ fuel ih =>
    rw [xorSearchLoop] at h
    dsimp only at h
    rw [min_eq_left hfollows.le] at h
    split_ifs at h with hend
    · obtain ⟨rfl, rfl, rfl⟩ : _ ∧ _ ∧ _ := by simpa using h
      exact ⟨.of_advances (.refl hvalid hstored) hfollows, .refl hvalid hstored, nofun, hbuilt⟩
    have hdelta := foldDelta_spec hbase hvalid hstored hfollows rfl
      (fun d (hd : d ∈ ([] : List SearchState.Derivation)) => absurd hd not_mem_nil)
    split at h
    next solver x1 units b hout =>
      rw [hout] at hdelta
      obtain ⟨hadv, htrail, hfollows1, -, hbuilt1⟩ := hdelta
      dsimp only at hadv htrail hfollows1
      obtain ⟨rfl, rfl, rfl⟩ : _ ∧ _ ∧ _ := by simpa using h
      obtain ⟨hjustified, hrefuted⟩ := hbuilt1 b rfl
      refine ⟨.of_advances hadv (htrail ▸ hfollows1), hadv, fun id hid => ?_, ?_⟩
      · obtain rfl := Option.some.inj hid
        exact hrefuted
      · exact forall_mem_append.mpr ⟨fun c hc => (hbuilt c hc).mono hvalid hadv,
          forall_mem_singleton.mpr (hjustified.mono hvalid hadv)⟩
    next solver x1 units hout =>
      rw [hout] at hdelta
      obtain ⟨hadv, htrail, hfollows1, hunits, -⟩ := hdelta
      dsimp only at hadv htrail hfollows1 hunits
      have happlied := applyUnits_spec false hadv.valid hadv.stored (htrail ▸ hfollows1)
        (htrail ▸ hunits) (fun b (hb : b ∈ []) => absurd hb not_mem_nil)
      have hboth := hadv.trans happlied.advances
      have hall : ∀ s, Advances F (applyUnits units solver x1 false []).solver s →
          ∀ b ∈ built ++ (applyUnits units solver x1 false []).built, Justified F s.trail b := fun s hs =>
        forall_mem_append.mpr ⟨fun b hb => (hbuilt b hb).mono hvalid (hboth.trans hs),
          fun b hb => (happlied.built b hb).mono hboth.valid hs⟩
      split at h
      next id hconflict =>
        obtain ⟨rfl, rfl, rfl⟩ : _ ∧ _ ∧ _ := by simpa using h
        refine ⟨.of_advances hboth happlied.follows, hboth, fun i hi => ?_, hall _ (.refl hboth.valid hboth.stored)⟩
        obtain rfl := Option.some.inj hi
        exact happlied.conflict _ hconflict
      next hconflict =>
        split_ifs at h with hany
        · split at h
          · cases h
          next solver2 id hpropagate =>
            obtain ⟨hbcp, hrefuted⟩ := propagate_spec bcpFuel hboth.valid hboth.stored hpropagate
            obtain ⟨rfl, rfl, rfl⟩ : _ ∧ _ ∧ _ := by simpa using h
            refine ⟨.of_advances (hboth.trans hbcp) (happlied.follows.mono hbcp.grows rfl rfl rfl), hboth.trans hbcp,
              fun i hi => ?_, hall _ hbcp⟩
            obtain rfl := Option.some.inj hi
            exact .of_stored hbcp.stored (hrefuted _ rfl)
          next solver2 hpropagate =>
            obtain ⟨hbcp, -⟩ := propagate_spec bcpFuel hboth.valid hboth.stored hpropagate
            have hrest := ih (t := { t with solver := solver2 }) hbcp.valid hbcp.stored
              (happlied.follows.mono hbcp.grows rfl rfl rfl) (hall _ hbcp) h
            exact ⟨hrest.keeps, (hboth.trans hbcp).trans hrest.advances, hrest.conflict, hrest.built⟩
        · obtain ⟨rfl, rfl, rfl⟩ : _ ∧ _ ∧ _ := by simpa using h
          exact ⟨.of_advances hboth happlied.follows, hboth, nofun, hall _ (.refl hboth.valid hboth.stored)⟩

theorem xorSearchStep_spec (hbase : Base F base) {bcpFuel fuel : ℕ} (hkeeps : Keeps F base t)
    (h : t.xorSearchStep bcpFuel fuel = some (t', conflict, built)) : Stepped F base t t' conflict built := by
  have hstay : Stepped F base t t none [] :=
    ⟨hkeeps, .refl hkeeps.valid hkeeps.stored, nofun, fun _ hb => absurd hb not_mem_nil⟩
  unfold xorSearchStep at h
  split at h
  next =>
    obtain ⟨rfl, rfl, rfl⟩ : _ ∧ _ ∧ _ := by simpa using h
    exact hstay
  next x hx =>
    split_ifs at h
    · obtain ⟨rfl, rfl, rfl⟩ : _ ∧ _ ∧ _ := by simpa using h
      exact hstay
    · exact xorSearchLoop_spec hbase hkeeps.valid hkeeps.stored (hkeeps.follows x hx)
        (fun _ hb => absurd hb not_mem_nil) h

end

section

variable {t : SearchState} {x : XorSearch}

theorem popFolds_spec (hbase : base.Fresh) (length k : ℕ) (hlength : lits.length = k)
    (hnodup : (lits.map (· / 2)).Nodup) (h : base.Folded m lits) :
    (popFolds length (List.range k).reverse m).1 = (List.range (min k length)).reverse ∧
    base.Folded (popFolds length (List.range k).reverse m).2 (lits.take (min k length)) := by
  induction k generalizing lits m with
  | zero =>
    obtain rfl := length_eq_zero_iff.mp hlength
    rw [Nat.zero_min]
    exact ⟨rfl, h⟩
  | succ k ih =>
    obtain ⟨init, last, rfl⟩ : ∃ init last, lits = init ++ [last] :=
      ⟨_, _, (dropLast_append_getLast (ne_nil_of_length_pos (by omega))).symm⟩
    have hinit : init.length = k := by simpa using hlength
    rw [range_succ, reverse_append, reverse_singleton, singleton_append, popFolds]
    split_ifs with hle
    · have hprev : (init.map (· / 2)).Nodup := by
        rw [map_append] at hnodup
        exact (nodup_append.mp hnodup).1
      obtain ⟨hidx, hfolded⟩ := ih hinit hprev (h.undoPropagate hbase hnodup)
      have hmin : min (k + 1) length = min k length := by omega
      rw [hmin]
      refine ⟨hidx, ?_⟩
      rw [take_append_of_le_length (by omega)]
      exact hfolded
    · have hmin : min (k + 1) length = k + 1 := by omega
      rw [hmin, range_succ, reverse_append, reverse_singleton, singleton_append, take_of_length_le (by omega)]
      exact ⟨rfl, h⟩

def KeepsFolded (t : SearchState) (level : ℕ) : Prop :=
  ∀ x, t.xorSearch = some x →
    ∀ l ∈ t.solver.trail.assignments.take
        (min x.watermark (t.solver.trail.assignments.countP fun l => t.solver.trail.level (l / 2) ≤ level)),
      t.solver.trail.level (l / 2) ≤ level

theorem Keeps.backtrack (hbase : Base F base) (h : Keeps F base t) {level : ℕ} (hfolded : KeepsFolded t level) :
    Keeps F base (t.backtrack level) := by
  have hvalid := h.valid.backtrackTo level
  have hkept := (Trail.backtrack_assignments h.valid level).1
  have hstored : (t.solver.backtrackTo level).Stored F :=
    ⟨h.stored.entailed, h.stored.edges, h.stored.nextId, h.stored.plain⟩
  unfold SearchState.backtrack SearchState.xorSearchRollback
  dsimp only
  split
  next hnone => exact ⟨hvalid, hstored, fun x hx => by rw [hnone] at hx; cases hx⟩
  next x hx =>
    refine ⟨hvalid, hstored, fun y hy => ?_⟩
    have hfollows := h.follows x hx
    have hlength : (t.solver.trail.backtrackTo level).assignments.length =
        t.solver.trail.assignments.countP fun l => t.solver.trail.level (l / 2) ≤ level := by
      rw [hkept, countP_eq_length_filter]
    have hle : min x.watermark (t.solver.trail.backtrackTo level).assignments.length ≤
        t.solver.trail.assignments.length :=
      (min_le_left _ _).trans hfollows.le
    have hsame : (t.solver.trail.backtrackTo level).assignments.take
          (min x.watermark (t.solver.trail.backtrackTo level).assignments.length) =
        t.solver.trail.assignments.take (min x.watermark (t.solver.trail.backtrackTo level).assignments.length) := by
      have hall := hfolded x hx
      rw [← hlength] at hall
      generalize min x.watermark (t.solver.trail.backtrackTo level).assignments.length = j at hall hle
      rw [hkept]
      conv_lhs => rw [← take_append_drop j t.solver.trail.assignments]
      rw [filter_append, filter_eq_self.mpr fun l hl => decide_eq_true (hall l hl), take_append_of_le_length]
      · rw [take_of_length_le (length_take_le _ _)]
      · rw [length_take, min_eq_left hle]
    obtain ⟨hidx, hpop⟩ := popFolds_spec hbase.fresh (t.solver.trail.backtrackTo level).assignments.length x.watermark
      (by rw [length_take, min_eq_left hfollows.le])
      (h.valid.nodup.sublist ((take_sublist _ _).map _)) hfollows.folded
    rw [hfollows.foldIdx] at hy
    obtain rfl := Option.some.inj hy
    rw [take_take, min_eq_left (min_le_left _ _), ← hsame] at hpop
    exact ⟨(congrArg List.reverse hidx).trans (reverse_reverse _), min_le_right _ _, hpop⟩

end

section

variable {s t : SearchState}

theorem Keeps.reaches (hbase : Base F base) (hs : Keeps F base s) (h : SearchState.Reaches F KeepsFolded s t) :
    Keeps F base t := by
  induction h with
  | refl => exact hs
  | assign lit level reason _ hlit hle ih =>
    refine ⟨ih.valid.assignAt hlit hle, ⟨ih.stored.entailed, ih.stored.edges, ih.stored.nextId, ih.stored.plain⟩, ?_⟩
    exact fun x hx => (ih.follows x hx).mono (prefix_append _ _) rfl rfl rfl
  | newDecisionLevel _ ih =>
    refine ⟨ih.valid.newDecisionLevel, ⟨ih.stored.entailed, ih.stored.edges, ih.stored.nextId, ih.stored.plain⟩, ?_⟩
    exact fun x hx => (ih.follows x hx).mono prefix_rfl rfl rfl rfl
  | store unsat _ hhead htrail hstored ih =>
    refine ⟨?_, hstored, fun x hx => ?_⟩
    · rw [htrail]
      exact { ih.valid with head := hhead }
    · refine (ih.follows x hx).mono ?_ rfl rfl rfl
      rw [htrail]
  | propagate fuel _ hpropagate ih =>
    obtain ⟨hadv, -⟩ := propagate_spec fuel ih.valid ih.stored hpropagate
    exact ⟨hadv.valid, hadv.stored, fun x hx => (ih.follows x hx).mono hadv.grows rfl rfl rfl⟩
  | xorStep bcpFuel fuel _ hstep ih => exact (xorSearchStep_spec hbase ih hstep).keeps
  | backtrack level _ hfolded ih => exact ih.backtrack hbase hfolded

theorem SearchState.Reaches.xorSearch_none {allowed : SearchState → ℕ → Prop} (h : SearchState.Reaches F allowed s t)
    (hs : s.xorSearch = none) : t.xorSearch = none := by
  induction h with
  | refl => exact hs
  | assign lit level reason _ _ _ ih => exact ih
  | newDecisionLevel _ ih => exact ih
  | store unsat _ _ _ _ ih => exact ih
  | propagate fuel _ _ ih => exact ih
  | xorStep bcpFuel fuel _ hstep ih =>
    rw [xorSearchStep, ih] at hstep
    obtain ⟨rfl, -⟩ := Prod.mk.inj (Option.some.inj hstep)
    exact ih
  | backtrack level _ _ ih =>
    unfold SearchState.backtrack SearchState.xorSearchRollback
    dsimp only
    rw [ih]

end

section

variable {s s' : SearchState} {constraints : List XorConstraint} {pending : List ℕ}

theorem fresh_empty : GF2Matrix.Fresh {} where
  column _ _ hc := by cases hc
  unfolded _ hr := absurd hr not_mem_nil
  nodup _ := nodup_nil
  mem_colRows c i := by simp
  undoStack := rfl
  numVars := rfl
  range _ hr := absurd hr not_mem_nil
  pivot _ _ hp := by cases hp

theorem addConstraints_spec (hsound : ∀ c ∈ constraints, ∀ σ, Satisfies σ F → parity σ c.vars.toFinset = c.rhs)
    (h : Base F m) : ∀ {m' : GF2Matrix} {pending' : List ℕ}, addConstraints constraints m pending =
    some (some (m', pending')) → Base F m' := by
  induction constraints generalizing m pending with
  | nil =>
    intro m' pending' hrun
    obtain ⟨rfl, rfl⟩ := Prod.mk.inj (Option.some.inj (Option.some.inj hrun))
    exact h
  | cons c constraints ih =>
    obtain ⟨hc, hrest⟩ := forall_mem_cons.mp hsound
    obtain ⟨m1, result, hadd, hfresh, hsolves⟩ := GF2Matrix.addConstraint_spec h.fresh c.vars c.rhs
    have hbase : Base F m1 := ⟨hfresh, fun σ hσ => hsolves σ (h.solved σ hσ) (hc σ hσ)⟩
    intro m' pending' hrun
    rw [addConstraints, hadd] at hrun
    cases result with
    | added => exact ih hrest hbase hrun
    | redundant => exact ih hrest hbase hrun
    | unit var value folded => exact ih hrest hbase hrun
    | conflict folded => cases Option.some.inj hrun

theorem forceLevel0_spec {fuel lit : ℕ} (hvalid : s.solver.trail.Valid) (hstored : s.solver.Stored F)
    (h : s.forceLevel0 fuel lit = some s') : Advances F s.solver s'.solver := by
  unfold forceLevel0 at h
  split_ifs at h with htrue hfalse
  · obtain rfl := Option.some.inj h
    exact .refl hvalid hstored
  · obtain rfl := Option.some.inj h
    exact .refl hvalid hstored
  · obtain ⟨⟨solver, conflict⟩, hpropagate, hout⟩ := Option.bind_eq_some_iff.mp h
    obtain rfl := Option.some.inj hout
    have hzero : s.solver.trail.litVal lit = 0 := by
      rcases litVal_cases hvalid lit with h | h | h
      · exact absurd h htrue
      · exact absurd h hfalse
      · exact h
    have hassign := Advances.assign .decision hvalid hstored hzero
    exact hassign.trans (propagate_spec fuel hassign.valid hassign.stored hpropagate).1

theorem forcePending_spec {fuel forced n : ℕ} {on : Bool} (hvalid : s.solver.trail.Valid) (hstored : s.solver.Stored F)
    (h : forcePending fuel pending s forced = some (s', n, on)) : Advances F s.solver s'.solver := by
  induction pending generalizing s forced with
  | nil =>
    obtain ⟨rfl, rfl, rfl⟩ : _ ∧ _ ∧ _ := by simpa [forcePending] using h
    exact .refl hvalid hstored
  | cons lit pending ih =>
    rw [forcePending] at h
    split_ifs at h
    · obtain ⟨s1, hforce, hrest⟩ := Option.bind_eq_some_iff.mp h
      have hadv := forceLevel0_spec hvalid hstored hforce
      split_ifs at hrest
      · obtain ⟨rfl, rfl, rfl⟩ : _ ∧ _ ∧ _ := by simpa using hrest
        exact hadv
      · exact hadv.trans (ih hadv.valid hadv.stored hrest)
    · exact ih hvalid hstored h

theorem forceLevel0_xorSearch {fuel lit : ℕ} (h : s.forceLevel0 fuel lit = some s') : s'.xorSearch = s.xorSearch := by
  unfold forceLevel0 at h
  split_ifs at h
  · obtain rfl := Option.some.inj h
    rfl
  · obtain rfl := Option.some.inj h
    rfl
  · obtain ⟨out, -, hout⟩ := Option.bind_eq_some_iff.mp h
    obtain rfl := Option.some.inj hout
    rfl

theorem forcePending_xorSearch {fuel forced n : ℕ} {on : Bool}
    (h : forcePending fuel pending s forced = some (s', n, on)) : s'.xorSearch = s.xorSearch := by
  induction pending generalizing s forced with
  | nil =>
    obtain ⟨rfl, -⟩ : _ ∧ _ := by simpa [forcePending] using h
    rfl
  | cons lit pending ih =>
    rw [forcePending] at h
    split_ifs at h
    · obtain ⟨s1, hforce, hrest⟩ := Option.bind_eq_some_iff.mp h
      split_ifs at hrest
      · obtain ⟨rfl, -⟩ : _ ∧ _ := by simpa using hrest
        exact forceLevel0_xorSearch hforce
      · exact (ih hrest).trans (forceLevel0_xorSearch hforce)
    · exact ih h

end

section

variable {s s' t t' : SearchState} {fuel bcpFuel : ℕ} {conflict : Option ℕ} {built : List Built}

structure Installs (fuel : ℕ) (s s' : SearchState) : Prop where
  valid : s.solver.trail.Valid
  stored : s.solver.Stored (problemClauses s.solver)
  fresh : s.xorSearch = none
  vars : ∀ id c, s.solver.clauses id = some c → (c.lits.map (· / 2)).Nodup
  init : ∃ constraints n, constraints.Perm (detectXorConstraints s.solver s.triviallyUnsat) ∧
    s.xorSearchInit fuel constraints = some (s', n)

theorem Installs.keeps (h : Installs fuel s s') (hno : NoReordered (candidates s.solver)) :
    ∃ base, Base (problemClauses s.solver) base ∧ Keeps (problemClauses s.solver) base s' ∧
    ∀ x, s'.xorSearch = some x → x.matrix = base := by
  obtain ⟨constraints, n, hperm, hinit⟩ := h.init
  have hsound : ∀ c ∈ constraints, ∀ σ, Satisfies σ (problemClauses s.solver) → parity σ c.vars.toFinset = c.rhs :=
    fun c hc σ hσ => detectXorConstraints_sound h.vars hno (hperm.subset hc) hσ
  have hempty : Base (problemClauses s.solver) {} := ⟨fresh_empty, fun _ _ _ hr => absurd hr not_mem_nil⟩
  have hstay : ∀ {u : SearchState}, Advances (problemClauses s.solver) s.solver u.solver → u.xorSearch = none →
      ∃ base, Base (problemClauses s.solver) base ∧ Keeps (problemClauses s.solver) base u ∧
        ∀ x, u.xorSearch = some x → x.matrix = base := fun hadv hnone =>
    ⟨{}, hempty, ⟨hadv.valid, hadv.stored, fun x hx => by rw [hnone] at hx; cases hx⟩,
      fun x hx => by rw [hnone] at hx; cases hx⟩
  have hrefl : Advances (problemClauses s.solver) s.solver s.solver := .refl h.valid h.stored
  unfold xorSearchInit at hinit
  split_ifs at hinit
  · obtain ⟨rfl, -⟩ := Prod.mk.inj (Option.some.inj hinit)
    exact hstay hrefl h.fresh
  · obtain ⟨rfl, -⟩ := Prod.mk.inj (Option.some.inj hinit)
    exact hstay hrefl h.fresh
  obtain ⟨added, hadd, hrest⟩ := Option.bind_eq_some_iff.mp hinit
  cases added with
  | none =>
    obtain ⟨rfl, -⟩ := Prod.mk.inj (Option.some.inj hrest)
    exact hstay hrefl h.fresh
  | some out =>
    obtain ⟨matrix, pending⟩ := out
    obtain ⟨⟨s1, forced, on⟩, hforce, hout⟩ := Option.bind_eq_some_iff.mp hrest
    have hadv := forcePending_spec h.valid h.stored hforce
    have hbase := addConstraints_spec hsound hempty hadd
    dsimp only at hout
    split_ifs at hout
    · obtain ⟨rfl, -⟩ := Prod.mk.inj (Option.some.inj hout)
      refine ⟨matrix, hbase, ⟨hadv.valid, hadv.stored, fun x hx => ?_⟩, fun x hx => ?_⟩
      · obtain rfl := Option.some.inj hx
        exact ⟨rfl, Nat.zero_le _, hbase.fresh.folded⟩
      · obtain rfl := Option.some.inj hx
        rfl
    · obtain ⟨rfl, -⟩ := Prod.mk.inj (Option.some.inj hout)
      exact hstay hadv ((forcePending_xorSearch hforce).trans h.fresh)

def FoldsTrail (s t : SearchState) : Prop :=
  ∀ x, t.xorSearch = some x → ∃ x0, s.xorSearch = some x0 ∧ x.watermark ≤ t.solver.trail.assignments.length ∧
    x0.matrix.Folded x.matrix (t.solver.trail.assignments.take x.watermark)

theorem search_follows_trail (hinstalls : Installs fuel s s') (hno : NoReordered (candidates s.solver))
    (hreach : SearchState.Reaches (problemClauses s.solver) KeepsFolded s' t) :
    FoldsTrail s' t ∧ ∀ bcpFuel fuel t' conflict built, t.xorSearchStep bcpFuel fuel = some (t', conflict, built) →
      (∀ id, conflict = some id → Refuted (problemClauses s.solver) t'.solver id) ∧
        ∀ b ∈ built, Justified (problemClauses s.solver) t'.solver.trail b := by
  obtain ⟨base, hbase, hkeeps, hmatrix⟩ := hinstalls.keeps hno
  have ht := hkeeps.reaches hbase hreach
  refine ⟨fun x hx => ?_, fun bcpFuel fuel t' conflict built hstep => ?_⟩
  · obtain ⟨x0, hx0⟩ : ∃ x0, s'.xorSearch = some x0 := by
      by_contra hnone
      rw [hreach.xorSearch_none (Option.eq_none_iff_forall_ne_some.mpr fun y hy => hnone ⟨y, hy⟩)] at hx
      cases hx
    have hfollows := ht.follows x hx
    exact ⟨x0, hx0, hfollows.le, hmatrix x0 hx0 ▸ hfollows.folded⟩
  · have hout := xorSearchStep_spec hbase ht hstep
    exact ⟨hout.conflict, hout.built⟩

end

section

variable {F : List (List ℕ)} {s t : SearchState}

def SearchState.decideLit (t : SearchState) (lit : ℕ) : SearchState :=
  { t with solver := { t.solver with trail := t.solver.trail.newDecisionLevel.assignDecision lit } }

def SearchState.assignBelow (t : SearchState) (lit : ℕ) (reason : Reason) (level : ℕ) : SearchState :=
  { t with solver := { t.solver with trail := t.solver.trail.assignAt lit reason level } }

def SearchState.stepped (t : SearchState) : SearchState := ((t.xorSearchStep 9 9).map Prod.fst).getD t

theorem SearchState.Reaches.decideLit {allowed : SearchState → ℕ → Prop} (h : SearchState.Reaches F allowed s t)
    (lit : ℕ) (hlit : t.solver.trail.litVal lit = 0) : SearchState.Reaches F allowed s (t.decideLit lit) :=
  .assign lit _ .decision (.newDecisionLevel h) hlit le_rfl

theorem SearchState.Reaches.stepped {allowed : SearchState → ℕ → Prop} (h : SearchState.Reaches F allowed s t) :
    SearchState.Reaches F allowed s t.stepped := by
  unfold SearchState.stepped
  cases hstep : t.xorSearchStep 9 9 with
  | none => exact h
  | some out => exact .xorStep 9 9 h hstep

def parityClauses : List (List ℕ) := [[0, 2, 4], [1, 3, 4], [1, 2, 5], [0, 3, 5]]

def paritySearch : SearchState :=
  { solver := { clauses := fun id => parityClauses[id]?.map fun lits => { lits := lits }, nextId := 4 } }

def parityInstalled : SearchState :=
  ((paritySearch.xorSearchInit 9 (detectXorConstraints paritySearch.solver false)).map Prod.fst).getD paritySearch

theorem parity_clause {id : ℕ} {c : Clause} (h : paritySearch.solver.clauses id = some c) :
    c.lits ∈ parityClauses ∧ id < 4 := by
  obtain ⟨lits, hlits, rfl⟩ := Option.map_eq_some_iff.mp h
  exact ⟨List.mem_of_getElem? hlits, (List.getElem?_eq_some_iff.mp hlits).1⟩

theorem problemClauses_parity : problemClauses paritySearch.solver = parityClauses := by decide

theorem parity_installs : Installs 9 paritySearch parityInstalled where
  valid := Trail.valid_empty
  stored := by
    rw [problemClauses_parity]
    refine ⟨fun id c hc σ hσ => hσ _ (parity_clause hc).1, fun _ _ he => absurd he not_mem_nil, fun id hid => ?_, rfl⟩
    cases hc : paritySearch.solver.clauses id with
    | none => rfl
    | some c => exact absurd (parity_clause hc).2 (Nat.not_lt.mpr hid)
  fresh := rfl
  vars id c hc := by
    have hall : ∀ lits ∈ parityClauses, (lits.map (· / 2)).Nodup := by decide
    exact hall _ (parity_clause hc).1
  init := by
    have hsome : ∃ out, paritySearch.xorSearchInit 9 (detectXorConstraints paritySearch.solver false) = some out :=
      Option.isSome_iff_exists.mp (by decide)
    obtain ⟨out, hout⟩ := hsome
    refine ⟨_, out.2, List.Perm.refl _, ?_⟩
    rw [parityInstalled]
    exact hout.trans (by rw [hout]; rfl)

theorem parity_noReordered : NoReordered (candidates paritySearch.solver) := by
  have hpairwise : (candidates paritySearch.solver).Pairwise fun c d => ¬ c.1.Perm d.1 := by decide
  exact fun vars _ => hpairwise.sublist filter_sublist

/-- Two decisions and a step, then the second one is taken back and turned around. -/
def parityResumed : SearchState :=
  (((((parityInstalled.decideLit 0).decideLit 2).stepped).backtrack 1).decideLit 3).stepped

theorem search_follows_trail_parity :
    FoldsTrail parityInstalled parityResumed ∧ parityResumed.solver.trail.assignments = [0, 3, 5] := by
  have hfirst : SearchState.Reaches (problemClauses paritySearch.solver) KeepsFolded parityInstalled
      ((parityInstalled.decideLit 0).decideLit 2).stepped :=
    ((SearchState.Reaches.refl.decideLit 0 (by decide)).decideLit 2 (by decide)).stepped
  have hkept : ∀ x ∈ ((parityInstalled.decideLit 0).decideLit 2).stepped.xorSearch,
      ∀ l ∈ ([0, 2, 4] : List ℕ).take (min x.watermark 1), l / 2 = 0 := by decide
  have hback := SearchState.Reaches.backtrack 1 hfirst fun x hx l hl =>
    hkept x hx l hl ▸ (by decide : ((parityInstalled.decideLit 0).decideLit 2).stepped.solver.trail.level 0 ≤ 1)
  have hreach := (hback.decideLit 3 (by decide)).stepped
  exact ⟨(search_follows_trail parity_installs parity_noReordered hreach).1, by decide⟩

/-- A literal of the first level that stands above a folded one takes its place in the trail: its fold
stays, and the next conflict clause has an unassigned literal. -/
theorem search_leaves_trail : ∃ (s s' t t' : SearchState) (id : ℕ) (c : Clause) (built : List Built),
    Installs 9 s s' ∧ NoReordered (candidates s.solver) ∧
      SearchState.Reaches (problemClauses s.solver) (fun _ _ => True) s' t ∧
        t.xorSearchStep 9 9 = some (t', some id, built) ∧ t'.solver.clauses id = some c ∧
          ∃ l ∈ c.lits, t'.solver.trail.litVal l = 0 := by
  have hstart : SearchState.Reaches (problemClauses paritySearch.solver) (fun _ _ => True) parityInstalled
      ((parityInstalled.decideLit 0).decideLit 2) :=
    (SearchState.Reaches.refl.decideLit 0 (by decide)).decideLit 2 (by decide)
  have hbelow := SearchState.Reaches.assign 6 1 .theory hstart (by decide) (by decide)
  have hreach := SearchState.Reaches.backtrack 1 hbelow.stepped trivial
  have hlast := hreach.decideLit 5 (by decide)
  have hrun : ((((((parityInstalled.decideLit 0).decideLit 2).assignBelow 6 .theory 1).stepped.backtrack 1).decideLit
      5).xorSearchStep 9 9).map (fun out => (out.2.1, out.1.solver.clauses 5, out.1.solver.trail.litVal 3)) =
        some (some 5, some { lits := [1, 3, 4] }, 0) := by decide
  obtain ⟨⟨t', conflict, built⟩, hstep, hout⟩ := Option.map_eq_some_iff.mp hrun
  obtain ⟨rfl, hclause, hval⟩ : conflict = some 5 ∧ t'.solver.clauses 5 = some { lits := [1, 3, 4] } ∧
      t'.solver.trail.litVal 3 = 0 := by simpa using hout
  exact ⟨paritySearch, parityInstalled, _, t', 5, _, built, parity_installs, parity_noReordered, hlast, hstep, hclause,
    3, by decide, hval⟩

end

end Nixie.Xor
