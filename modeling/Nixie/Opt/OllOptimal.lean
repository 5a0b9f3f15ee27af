import Nixie.Opt.OllCores

namespace Nixie.Opt

open Literal Nixie.Sat List Function MaxSatSolver

def itemsOfSoft (soft : List SoftClause) : List (ℕ × List ℕ) := soft.map fun c => (c.id, c.lits)

section

variable {soft : List SoftClause}

theorem itemClauses_succ {items : List (ℕ × List ℕ)} {base k : ℕ} (hk : k < items.length) :
    itemClauses (items.take (k + 1)) (List.range' base (k + 1)) =
    itemClauses (items.take k) (List.range' base k) ++ [items[k].2 ++ [posLit (base + k)]] := by
  have hlength : (items.take k).length = (List.range' base k).length := by
    rw [length_take, length_range']
    omega
  rw [itemClauses, itemClauses, take_succ_eq_append_getElem hk, range'_concat, zipWith_append hlength, one_mul]
  rfl

theorem foldl_block (o : Oll) {k : ℕ} (hk : k ≤ soft.length) :
    (List.range k).foldl (Oll.block soft) o =
      { o with
        nextVar := o.nextVar + k
        clauses := o.clauses ++ itemClauses ((itemsOfSoft soft).take k) (List.range' o.nextVar k)
        blockingVars := fun id => if id < k then some (o.nextVar + id) else o.blockingVars id
        varToSoft := fun v => if o.nextVar ≤ v ∧ v < o.nextVar + k then some (v - o.nextVar) else o.varToSoft v } := by
  induction k with
  | zero =>
    have hnone : (fun v => if o.nextVar ≤ v ∧ v < o.nextVar then some (v - o.nextVar) else o.varToSoft v) =
        o.varToSoft := funext fun v => if_neg (by omega)
    simp [itemClauses, hnone]
  | succ k ih =>
    have hlt : k < (itemsOfSoft soft).length := by
      rw [itemsOfSoft, length_map]
      omega
    have hsoft : soft[k]? = some soft[k] := getElem?_eq_getElem (by omega)
    rw [range_succ, foldl_append, ih (by omega), foldl_cons, foldl_nil, Oll.block, hsoft]
    simp only [Oll.mk.injEq]
    refine ⟨rfl, ?_, ?_, ?_, trivial, trivial, trivial⟩
    · rw [itemClauses_succ hlt, append_assoc]
      simp [itemsOfSoft]
    · funext id
      by_cases hid : id = k
      · subst hid
        rw [update_self, if_pos (Nat.lt_succ_self id)]
      · rw [update_of_ne hid]
        exact if_congr (by omega) rfl rfl
    · funext v
      by_cases hv : v = o.nextVar + k
      · subst hv
        rw [update_self, if_pos (by omega), Nat.add_sub_cancel_left]
      · rw [update_of_ne hv]
        exact if_congr (by omega) rfl rfl

end

/-- What the turns of the loop keep: the groups are disjoint cores, each with its bound of one, and the lower
bound counts them. -/
structure OllInv (hard : List (List ℕ)) (soft : List SoftClause) (w : WithTop ℚ) (base : ℕ) (o : Oll)
    (s : MaxSatSolver) : Prop where
  hardClauses : s.hardClauses = hard
  softClauses : s.softClauses = soft
  nextVar : base + soft.length ≤ o.nextVar
  clauses : ∃ added, o.clauses = hard ++ itemClauses (itemsOfSoft soft) (List.range' base soft.length) ++ added ∧
    ∀ c ∈ added, Auxiliary (base + soft.length) c
  blockingVars : ∀ id, o.blockingVars id = if id < soft.length then some (base + id) else none
  varToSoft : ∀ v, o.varToSoft v = if base ≤ v ∧ v < base + soft.length then some (v - base) else none
  active : ∀ g ∈ o.groups, g.active = true
  ids : ∀ g ∈ o.groups, ∀ id ∈ g.softIds, id < soft.length
  ungrouped : ∀ id, o.softToGroup id = none ↔ ∀ g ∈ o.groups, id ∉ g.softIds
  disjoint : (o.groups.map OllGroup.softIds).Pairwise List.Disjoint
  meets : ∀ g ∈ o.groups, ∀ σ, Satisfies σ hard →
    ∃ id ∈ g.softIds, violates (Sat.isTrue σ) (itemsOfSoft soft) id = true
  bounded : ∀ g ∈ o.groups, ∀ τ, Satisfies τ o.clauses →
    (∀ a ∈ g.totalizer.boundAssumption, Sat.isTrue τ a) →
      trueCount τ (g.softIds.map fun id => posLit (base + id)) ≤ 1
  lowerBound : s.lowerBound.value = o.groups.length • w

section

variable {hard : List (List ℕ)} {soft : List SoftClause} {w : WithTop ℚ} {base : ℕ} {o : Oll} {s : MaxSatSolver}
  {solver : SatSolver} {config : MaxSatConfig} {pairs : List (List ℕ × Weight)}

theorem length_itemsOfSoft : (itemsOfSoft soft).length = soft.length := length_map ..

theorem ollInv_setup (hs : s.Holds config hard pairs) : ∃ base, Above hard [] (itemsOfSoft s.softClauses) base ∧
    OllInv hard s.softClauses w base (.setup s (s.softClauses.map SoftClause.id)) s := by
  have hlength : s.softClauses.length = pairs.length := by rw [← hs.softClauses, length_map]
  obtain ⟨base, hbase⟩ : ∃ base, base = scanVars (scanVars 0 s.hardClauses)
    ((s.softClauses.map SoftClause.id).filterMap fun id => s.softClauses[id]?.map SoftClause.lits) := ⟨_, rfl⟩
  obtain ⟨-, hclauses⟩ := scanVars_spec s.hardClauses 0
  obtain ⟨hle, hlits⟩ := scanVars_spec
    ((s.softClauses.map SoftClause.id).filterMap fun id => s.softClauses[id]?.map SoftClause.lits)
    (scanVars 0 s.hardClauses)
  rw [← hbase] at hle hlits
  refine ⟨base, ⟨?_, ?_⟩, ?_⟩
  · rw [append_nil, ← hs.hardClauses]
    exact fun c hc lit hlit => (hclauses c hc lit hlit).trans_le hle
  · intro item hitem
    obtain ⟨c, hc, rfl⟩ := mem_map.mp hitem
    obtain ⟨i, hi, rfl⟩ := mem_iff_getElem.mp hc
    refine hlits _ (mem_filterMap.mpr ⟨i, ?_, ?_⟩)
    · rw [hs.ids, mem_range, ← hlength]
      exact hi
    · rw [getElem?_eq_getElem hi]
      rfl
  · have hsetup := @foldl_block s.softClauses { nextVar := base, clauses := s.hardClauses } _ le_rfl
    rw [Oll.setup, ← hbase, hs.ids, ← hlength, hsetup, take_of_length_le length_itemsOfSoft.le]
    exact
      { hardClauses := hs.hardClauses
        softClauses := rfl
        nextVar := le_rfl
        clauses := ⟨[], by rw [hs.hardClauses, append_nil], fun c hc => absurd hc not_mem_nil⟩
        blockingVars := fun _ => rfl
        varToSoft := fun _ => rfl
        active := fun g hg => absurd hg not_mem_nil
        ids := fun g hg => absurd hg not_mem_nil
        ungrouped := fun _ => ⟨fun _ g hg => absurd hg not_mem_nil, fun _ => rfl⟩
        disjoint := List.Pairwise.nil
        meets := fun g hg => absurd hg not_mem_nil
        bounded := fun g hg => absurd hg not_mem_nil
        lowerBound := by rw [hs.lowerBound, length_nil, zero_nsmul] }

section

variable (h : OllInv hard soft w base o s)
include h

theorem OllInv.withCores (cores : List (List ℕ × List ℕ)) (calls : ℕ) :
    OllInv hard soft w base { o with cores := cores } { s with satCalls := calls } :=
  ⟨h.hardClauses, h.softClauses, h.nextVar, h.clauses, h.blockingVars, h.varToSoft, h.active, h.ids, h.ungrouped,
    h.disjoint, h.meets, h.bounded, h.lowerBound⟩

theorem OllInv.blockLits {ids : List ℕ} (hlt : ∀ id ∈ ids, id < soft.length) :
    o.blockLits ids = ids.map fun id => posLit (base + id) := by
  induction ids with
  | nil => rfl
  | cons id ids ih =>
    obtain ⟨hid, hlt⟩ := forall_mem_cons.mp hlt
    have hvar : o.blockingVars id = some (base + id) := by rw [h.blockingVars, if_pos hid]
    rw [Oll.blockLits, filterMap_cons, hvar, map_cons]
    exact congrArg _ (ih hlt)

theorem OllInv.newGroup {ids : List ℕ} (hne : ids ≠ []) (hlt : ∀ id ∈ ids, id < soft.length)
    (hfree : ∀ id ∈ ids, o.softToGroup id = none)
    (hmeets : ∀ σ, Satisfies σ hard → ∃ id ∈ ids, violates (Sat.isTrue σ) (itemsOfSoft soft) id = true)
    {weight : Weight} (hweight : weight.value = w) :
    OllInv hard soft w base (o.newGroup ids) { s with lowerBound := s.lowerBound.add weight } := by
  have hblock := h.blockLits hlt
  have hbelow : Below o.nextVar (ids.map fun id => posLit (base + id)) := by
    intro lit hlit
    obtain ⟨id, hid, rfl⟩ := mem_map.mp hlit
    rw [posLit_div_two]
    exact (Nat.add_lt_add_left (hlt id hid) base).trans_le h.nextVar
  obtain ⟨hauxiliary, hbound⟩ := setBound_one hbelow
  obtain ⟨added, hclauses, hadded⟩ := h.clauses
  have hlow : ∀ c, Auxiliary o.nextVar c → Auxiliary (base + soft.length) c := fun c ⟨v, hv, hmem⟩ =>
    ⟨v, h.nextVar.trans hv, hmem⟩
  unfold Oll.newGroup
  rw [if_neg (by simpa [hblock] using hne), hblock]
  dsimp only
  generalize hr : (IncrementalTotalizer.new (ids.map fun id => posLit (base + id)) o.nextVar).setBound 1 = r
  rw [hr] at hauxiliary hbound
  obtain ⟨bounded, assumption, clauses⟩ := r
  exact
    { hardClauses := h.hardClauses
      softClauses := h.softClauses
      nextVar := h.nextVar
      clauses := by
        refine ⟨added ++ clauses, ?_, forall_mem_append.mpr ⟨hadded, fun c hc => hlow c (hauxiliary c hc)⟩⟩
        dsimp only
        rw [hclauses, append_assoc]
      blockingVars := h.blockingVars
      varToSoft := h.varToSoft
      active := forall_mem_append.mpr ⟨h.active, forall_mem_singleton.mpr rfl⟩
      ids := forall_mem_append.mpr ⟨h.ids, forall_mem_singleton.mpr hlt⟩
      ungrouped := fun id => by
        dsimp only
        rw [forall_mem_append, forall_mem_singleton, ← h.ungrouped, Oll.regroup]
        by_cases hid : id ∈ ids
        · simp [hid]
        · simp [hid]
      disjoint := by
        dsimp only
        rw [map_append, pairwise_append]
        refine ⟨h.disjoint, pairwise_singleton _ _, fun ids' hids' ids'' hids'' id hid hid' => ?_⟩
        obtain ⟨g, hg, rfl⟩ := mem_map.mp hids'
        rw [mem_singleton.mp hids''] at hid'
        exact (h.ungrouped id).mp (hfree id hid') g hg hid
      meets := forall_mem_append.mpr ⟨h.meets, forall_mem_singleton.mpr hmeets⟩
      bounded := by
        refine forall_mem_append.mpr ⟨fun g hg τ hτ => ?_, forall_mem_singleton.mpr fun τ hτ => ?_⟩
        · exact h.bounded g hg τ (satisfies_append.mp hτ).1
        · exact hbound τ (satisfies_append.mp hτ).2
      lowerBound := by
        dsimp only
        rw [Weight.value_add, h.lowerBound, hweight, length_append, length_singleton, add_nsmul, one_nsmul] }

end

theorem indicator_true {items : List (ℕ × List ℕ)} {τ : ℕ → Bool} {id : ℕ}
    (hτ : Satisfies τ (itemClauses items (List.range' base items.length)))
    (hid : violates (Sat.isTrue τ) items id = true) : τ (base + id) = true := by
  have hlt := lt_of_violates hid
  rw [violates, getElem?_eq_getElem hlt] at hid
  have hmem : items[id].2 ++ [posLit (base + id)] ∈ itemClauses items (List.range' base items.length) := by
    refine mem_iff_getElem.mpr ⟨id, by simpa [itemClauses] using hlt, ?_⟩
    simp [itemClauses]
  obtain ⟨lit, hlit, htrue⟩ := hτ _ hmem
  rcases mem_append.mp hlit with hlit | hlit
  · have hany : items[id].2.any (Sat.isTrue τ) = true := any_eq_true.mpr ⟨lit, hlit, htrue⟩
    simp [hany] at hid
  · rwa [mem_singleton.mp hlit, isTrue_posLit] at htrue

section

variable (h : OllInv hard soft w base o s)
include h

theorem OllInv.mem_softAssumptions {lit : ℕ} : lit ∈ o.softAssumptions (List.range soft.length) ↔
    ∃ id < soft.length, o.softToGroup id = none ∧ lit = neg (posLit (base + id)) := by
  rw [Oll.softAssumptions, mem_filterMap]
  refine exists_congr fun id => ?_
  rw [mem_range]
  refine and_congr_right fun hid => ?_
  rw [h.blockingVars, if_pos hid]
  by_cases hnone : o.softToGroup id = none
  · simp [hnone, eq_comm]
  · rw [if_neg (by simpa using hnone)]
    simp [hnone]

theorem OllInv.length_le {σ : ℕ → Bool} (hσ : Satisfies σ hard) :
    o.groups.length ≤ violations (Sat.isTrue σ) (itemsOfSoft soft) := by
  rw [← card_violatedIds, ← @length_map _ _ o.groups OllGroup.softIds]
  refine length_le_card h.disjoint fun ids hids => ?_
  obtain ⟨g, hg, rfl⟩ := mem_map.mp hids
  obtain ⟨id, hid, hviolates⟩ := h.meets g hg σ hσ
  exact ⟨id, hid, mem_violatedIds.mpr hviolates⟩

theorem OllInv.violations_le {τ : ℕ → Bool} (hτ : Satisfies τ o.clauses)
    (hassume : ∀ lit ∈ o.softAssumptions (List.range soft.length) ++ o.boundAssumptions, Sat.isTrue τ lit) :
    violations (Sat.isTrue τ) (itemsOfSoft soft) ≤ o.groups.length := by
  obtain ⟨added, hclauses, -⟩ := h.clauses
  have hτ' := hτ
  rw [hclauses, satisfies_append, satisfies_append] at hτ'
  have hitems := hτ'.1.2
  rw [← length_itemsOfSoft] at hitems
  obtain ⟨hsoft, hbounds⟩ := forall_mem_append.mp hassume
  rw [← card_violatedIds, ← @length_map _ _ o.groups OllGroup.softIds]
  refine card_le_length (fun id hid => ?_) fun ids hids id hid id' hid' hV hV' => ?_
  · have htrue := indicator_true hitems (mem_violatedIds.mp hid)
    have hlt := lt_of_violates (mem_violatedIds.mp hid)
    rw [length_itemsOfSoft] at hlt
    by_contra hnone
    have hfree : o.softToGroup id = none := (h.ungrouped id).mpr fun g hg hmem =>
      hnone ⟨g.softIds, mem_map_of_mem hg, hmem⟩
    have hfalse := hsoft _ (h.mem_softAssumptions.mpr ⟨id, hlt, hfree, rfl⟩)
    rw [isTrue_neg, isTrue_posLit, htrue] at hfalse
    cases hfalse
  · obtain ⟨g, hg, rfl⟩ := mem_map.mp hids
    have hassumed : ∀ a ∈ g.totalizer.boundAssumption, Sat.isTrue τ a := fun a ha =>
      hbounds a (mem_filterMap.mpr ⟨g, hg, by rw [if_pos (h.active g hg), ha]⟩)
    have heq := eq_of_countP_le_one (h.bounded g hg τ hτ hassumed) (mem_map_of_mem hid)
      (mem_map_of_mem hid') (by rw [isTrue_posLit]; exact indicator_true hitems (mem_violatedIds.mp hV))
      (by rw [isTrue_posLit]; exact indicator_true hitems (mem_violatedIds.mp hV'))
    simp only [posLit] at heq
    omega

theorem OllInv.direct {core : List ℕ}
    (hsub : core ⊆ o.softAssumptions (List.range soft.length) ++ o.boundAssumptions)
    (hdirect : ∀ lit ∈ core, lit ∉ o.boundAssumptions) :
    (∀ id ∈ core.filterMap fun lit => o.varToSoft (lit / 2), id < soft.length ∧ o.softToGroup id = none) ∧
    ∀ lit ∈ core, ∃ id ∈ core.filterMap fun lit => o.varToSoft (lit / 2), lit = neg (posLit (base + id)) := by
  have hlit : ∀ lit ∈ core, ∃ id, o.varToSoft (lit / 2) = some id ∧ lit = neg (posLit (base + id)) ∧
      id < soft.length ∧ o.softToGroup id = none := by
    intro lit hlit
    rcases mem_append.mp (hsub hlit) with hmem | hmem
    · obtain ⟨id, hid, hfree, rfl⟩ := h.mem_softAssumptions.mp hmem
      refine ⟨id, ?_, rfl, hid, hfree⟩
      rw [neg_div_two, posLit_div_two, h.varToSoft, if_pos (by omega), Nat.add_sub_cancel_left]
    · exact absurd hmem (hdirect lit hlit)
  refine ⟨fun id hid => ?_, fun lit hmem => ?_⟩
  · obtain ⟨lit, hmem, hsome⟩ := mem_filterMap.mp hid
    obtain ⟨id', hsome', -, hlt, hfree⟩ := hlit lit hmem
    obtain rfl : id' = id := Option.some.inj (hsome'.symm.trans hsome)
    exact ⟨hlt, hfree⟩
  · obtain ⟨id, hsome, heq, -⟩ := hlit lit hmem
    exact ⟨id, mem_filterMap.mpr ⟨lit, hmem, hsome⟩, heq⟩

theorem OllInv.core_meets (habove : Above hard [] (itemsOfSoft soft) base) {core : List ℕ}
    (hcore : ∀ σ, Satisfies σ o.clauses → ∃ lit ∈ core, ¬ Sat.isTrue σ lit) {σ : ℕ → Bool}
    (hσ : Satisfies σ hard) : ∃ lit ∈ core, ∀ id < soft.length, lit = neg (posLit (base + id)) →
    violates (Sat.isTrue σ) (itemsOfSoft soft) id = true := by
  obtain ⟨added, hclauses, hadded⟩ := h.clauses
  rw [← length_itemsOfSoft] at hclauses hadded
  obtain ⟨lit, hlit, hfalse⟩ := hcore (allAuxiliary σ base (itemsOfSoft soft)) (by
    rw [hclauses]
    exact satisfies_allAuxiliary hσ habove hadded)
  refine ⟨lit, hlit, fun id hid heq => ?_⟩
  rw [heq, isTrue_neg, isTrue_posLit, allAuxiliary_add (by rwa [length_itemsOfSoft])] at hfalse
  simpa using hfalse

end

theorem value_minWeightOf (hequal : ∀ c ∈ soft, c.weight.value = w) {ids : List ℕ} (hne : ids ≠ [])
    (hlt : ∀ id ∈ ids, id < soft.length) : (minWeightOf soft ids).value = w := by
  suffices hfold : ∀ f : Weight → ℕ → Weight, (∀ w id c, soft[id]? = some c → f w id = w.min c.weight) →
      ∀ ids acc, (∀ id ∈ ids, id < soft.length) →
        (ids.foldl f acc).value = if ids = [] then acc.value else min acc.value w by
    refine (hfold _ (fun w id c hc => ?_) ids .infinite hlt).trans ?_
    · simp only [hc]
    · rw [if_neg hne]
      exact min_eq_right le_top
  intro f hf ids
  induction ids with
  | nil => exact fun acc _ => rfl
  | cons id ids ih =>
    intro acc hlt
    obtain ⟨hid, hlt⟩ := forall_mem_cons.mp hlt
    rw [foldl_cons, ih _ hlt, hf _ _ _ (getElem?_eq_getElem hid), if_neg (cons_ne_nil _ _)]
    have hweight : soft[id].weight.value = w := hequal _ (getElem_mem hid)
    split
    · rw [Weight.value_min, hweight]
    · rw [Weight.value_min, hweight, min_assoc, min_self]

theorem cores_newGroup (o : Oll) (ids : List ℕ) : (o.newGroup ids).cores = o.cores := by
  unfold Oll.newGroup
  split <;> rfl

theorem cores_mergeGroups (o : Oll) (intersecting ids : List ℕ) : (o.mergeGroups intersecting ids).cores = o.cores := by
  unfold Oll.mergeGroups
  dsimp only
  split <;> rfl

theorem mem_cores (iterations : ℕ) (o : Oll) (s : MaxSatSolver) (softIds : List ℕ) :
    ∀ p ∈ o.cores, p ∈ (ollLoop solver softIds iterations o s).2.cores := by
  induction iterations generalizing o s with
  | zero => exact fun p hp => hp
  | succ iterations ih =>
    intro p hp
    have hnew : ∀ entry, p ∈ o.cores ++ [entry] := fun entry => mem_append_left _ hp
    rw [ollLoop]
    dsimp only
    split
    · exact hp
    · split
      · exact hp
      · split
        · exact hnew _
        · split
          · exact hnew _
          · split
            · exact ih _ _ p (by rw [cores_newGroup]; exact hnew _)
            · exact ih _ _ p (by rw [cores_mergeGroups]; exact hnew _)
      · exact hp

def OllRight (hard : List (List ℕ)) (soft : List SoftClause) (w : WithTop ℚ) (result : Outcome) : Prop :=
  (result.1 = .error .unsatisfiable → ∀ σ, ¬ Satisfies σ hard) ∧
  (result.1 = .ok .optimal → ∃ count, result.2.lowerBound.value = count • w ∧
    (∃ σ, Satisfies σ hard ∧ violations (Sat.isTrue σ) (itemsOfSoft soft) = count) ∧
    ∀ σ, Satisfies σ hard → count ≤ violations (Sat.isTrue σ) (itemsOfSoft soft))

theorem checkHard_right (hsolver : Correct solver) (h : OllInv hard soft w base o s) (hgroups : o.groups = [])
    (hsoft : soft = []) : OllRight hard soft w (checkHardSatisfiable solver s) := by
  have hanswers := checkHardSatisfiable_answers (s := s) hsolver
  rw [h.hardClauses] at hanswers
  generalize checkHardSatisfiable solver s = result at hanswers
  cases hanswers with
  | unsatisfiable hunsat => exact ⟨fun _ => hunsat, fun h => (nomatch h)⟩
  | unknown _ => exact ⟨fun h => (nomatch h), fun h => (nomatch h)⟩
  | optimal hmodel hholds hvalues hbest =>
    refine ⟨fun h => (nomatch h), fun _ => ⟨0, ?_, ⟨_, satisfies_completion hholds, ?_⟩, fun σ _ => Nat.zero_le _⟩⟩
    · rw [hbest, h.lowerBound, hgroups, length_nil]
    · rw [hsoft]
      rfl

theorem ollLoop_right (hsolver : Correct solver) (habove : Above hard [] (itemsOfSoft soft) base)
    (hequal : ∀ c ∈ soft, c.weight.value = w) (iterations : ℕ) (h : OllInv hard soft w base o s)
    (hdirect : ∀ p ∈ (ollLoop solver (List.range soft.length) iterations o s).2.cores, ∀ lit ∈ p.1, lit ∉ p.2) :
    OllRight hard soft w (ollLoop solver (List.range soft.length) iterations o s).1 := by
  induction iterations generalizing o s with
  | zero => exact ⟨fun h => (nomatch h), fun h => (nomatch h)⟩
  | succ iterations ih =>
    rw [ollLoop] at hdirect ⊢
    dsimp only at hdirect ⊢
    by_cases hnone : ((o.softAssumptions (List.range soft.length) ++ o.boundAssumptions).isEmpty &&
        o.groups.isEmpty) = true
    · rw [if_pos hnone]
      rw [Bool.and_eq_true, List.isEmpty_iff, List.isEmpty_iff, List.append_eq_nil_iff] at hnone
      obtain ⟨⟨hsoft, -⟩, hgroups⟩ := hnone
      have hlength : soft.length = 0 := by
        by_contra hpos
        have hfree : o.softToGroup 0 = none := (h.ungrouped 0).mpr fun g hg => absurd (hgroups ▸ hg) not_mem_nil
        have hmem := h.mem_softAssumptions.mpr ⟨0, Nat.pos_of_ne_zero hpos, hfree, rfl⟩
        rw [hsoft] at hmem
        cases hmem
      exact checkHard_right hsolver h hgroups (length_eq_zero_iff.mp hlength)
    rw [if_neg hnone] at hdirect ⊢
    cases hverdict : solver s.satCalls o.clauses
        (o.softAssumptions (List.range soft.length) ++ o.boundAssumptions) with
    | unknown => exact ⟨fun h => (nomatch h), fun h => (nomatch h)⟩
    | sat model =>
      obtain ⟨hholds, hassume⟩ := hsolver.sat hverdict
      refine ⟨fun h => (nomatch h), fun _ => ⟨o.groups.length, h.lowerBound, ?_, fun σ => h.length_le⟩⟩
      have hτ := satisfies_completion hholds
      have hle := h.violations_le hτ fun lit hlit => isTrue_completion (hassume lit hlit)
      have hhard : Satisfies (completion model) hard := by
        obtain ⟨added, hclauses, -⟩ := h.clauses
        rw [hclauses, satisfies_append, satisfies_append] at hτ
        exact hτ.1.1
      exact ⟨completion model, hhard, le_antisymm hle (h.length_le hhard)⟩
    | unsat core =>
      obtain ⟨hsub, hcore⟩ := hsolver.unsat hverdict
      simp only [hverdict] at hdirect ⊢
      generalize core.getD [] = lits at hsub hcore hdirect ⊢
      have hmeets := fun σ => @OllInv.core_meets hard soft w base o s h habove lits hcore σ
      by_cases hempty : lits.isEmpty = true
      · rw [if_pos hempty]
        refine ⟨fun _ σ hσ => ?_, fun h => (nomatch h)⟩
        obtain ⟨lit, hlit, -⟩ := hmeets σ hσ
        rw [isEmpty_iff.mp hempty] at hlit
        cases hlit
      rw [if_neg hempty] at hdirect ⊢
      have hentry : ∀ lit ∈ lits, lit ∉ o.boundAssumptions := by
        refine hdirect (lits, o.boundAssumptions) ?_
        have hnew : (lits, o.boundAssumptions) ∈ o.cores ++ [(lits, o.boundAssumptions)] :=
          mem_append_right _ (mem_singleton_self _)
        split
        · exact hnew
        · split
          · exact mem_cores _ _ _ _ _ (by rw [cores_newGroup]; exact hnew)
          · exact mem_cores _ _ _ _ _ (by rw [cores_mergeGroups]; exact hnew)
      obtain ⟨hids, hlits⟩ := h.direct hsub hentry
      generalize (lits.filterMap fun lit => o.varToSoft (lit / 2)) = ids at hids hlits hdirect ⊢
      have hne : ids ≠ [] := by
        rintro rfl
        obtain ⟨lit, hlit⟩ := exists_mem_of_ne_nil lits fun hnil => hempty (isEmpty_iff.mpr hnil)
        obtain ⟨id, hid, -⟩ := hlits lit hlit
        cases hid
      have hfree : (ids.filterMap o.softToGroup).insertionSort (· ≤ ·) = [] := by
        rw [filterMap_eq_nil_iff.mpr fun id hid => (hids id hid).2]
        rfl
      rw [if_neg (by simpa using hne)] at hdirect ⊢
      simp only [hfree, dedup_nil, isEmpty_nil, if_true] at hdirect ⊢
      have hweight : (minWeightOf s.softClauses ids).value = w := by
        rw [h.softClauses]
        exact value_minWeightOf hequal hne fun id hid => (hids id hid).1
      have hcalled := h.withCores (o.cores ++ [(lits, o.boundAssumptions)]) (s.satCalls + 1)
      refine ih (hcalled.newGroup hne (fun id hid => (hids id hid).1) (fun id hid => (hids id hid).2)
        (fun σ hσ => ?_) hweight) hdirect
      obtain ⟨lit, hlit, hviolates⟩ := hmeets σ hσ
      obtain ⟨id, hid, rfl⟩ := hlits lit hlit
      exact ⟨id, hid, hviolates id (hids id hid).1 rfl⟩

end

/-- Where no core of the run names the bound of a group and the common weight is not negative, an
unsatisfiable answer is right and an optimal answer has the least cost. -/
theorem oll_optimal (solver : SatSolver) (hsolver : Correct solver) (config : MaxSatConfig)
    (hard : List (List ℕ)) (soft : List (List ℕ × Weight)) (w : WithTop ℚ)
    (hequal : ∀ p ∈ soft, p.2.value = w) (hnonneg : 0 ≤ w)
    (hdirect : ∀ p ∈ (solveOll solver (fresh config hard soft)).2.cores, ∀ lit ∈ p.1, lit ∉ p.2) :
    let result := (solveOll solver (fresh config hard soft)).1
    (result.1 = .error .unsatisfiable → ∀ σ, ¬ Satisfies σ hard) ∧
    (result.1 = .ok .optimal →
      (∃ σ, Satisfies σ hard ∧ violatedWeight (Sat.isTrue σ) soft = result.2.cost.value) ∧
      ∀ σ, Satisfies σ hard → result.2.cost.value ≤ violatedWeight (Sat.isTrue σ) soft) := by
  have hs : (fresh config hard soft).Holds config hard soft := holds_fresh
  generalize fresh config hard soft = s at hs hdirect
  have hlength : s.softClauses.length = soft.length := by rw [← hs.softClauses, length_map]
  have hweights : ∀ c ∈ s.softClauses, c.weight.value = w := fun c hc =>
    hequal (c.lits, c.weight) (hs.softClauses ▸ mem_map_of_mem hc)
  obtain ⟨base, habove, hinv⟩ := ollInv_setup (w := w) hs
  unfold solveOll at hdirect ⊢
  dsimp only at hdirect ⊢
  have hids : s.softClauses.map SoftClause.id = List.range s.softClauses.length := by rw [hs.ids, hlength]
  rw [hids] at hdirect hinv ⊢
  obtain ⟨hunsat, hoptimal⟩ := ollLoop_right hsolver habove hweights _ hinv hdirect
  have hitems : (itemsOfSoft s.softClauses).map Prod.snd = soft.map Prod.fst := by
    rw [← hs.softClauses, itemsOfSoft, map_map, map_map]
    rfl
  refine ⟨hunsat, fun hresult => ?_⟩
  obtain ⟨count, hcost, ⟨σ, hσ, hcount⟩, hleast⟩ := hoptimal hresult
  rw [cost, hcost]
  refine ⟨⟨σ, hσ, by rw [violatedWeight_equal hequal hitems, hcount]⟩, fun τ hτ => ?_⟩
  rw [violatedWeight_equal hequal hitems]
  exact nsmul_le_nsmul_left hnonneg (hleast τ hτ)

def ollConfig : MaxSatConfig := { algorithm := .oll, maxIterations := 10 }

def oneOfTwo : List (List ℕ × Weight) := [([1], .int 1), ([3], .int 1)]

theorem oll_optimal_oneOfTwo :
    let result := (solveOll truthTable (fresh ollConfig [[0, 2]] oneOfTwo)).1
    result.1 = .ok .optimal ∧
      (∃ σ, Satisfies σ [[0, 2]] ∧ violatedWeight (Sat.isTrue σ) oneOfTwo = result.2.cost.value) ∧
      ∀ σ, Satisfies σ [[0, 2]] → result.2.cost.value ≤ violatedWeight (Sat.isTrue σ) oneOfTwo := by
  have hresult : (solveOll truthTable (fresh ollConfig [[0, 2]] oneOfTwo)).1.1 = .ok .optimal := by
    decide
  exact ⟨hresult, (oll_optimal truthTable truthTable_correct ollConfig [[0, 2]] oneOfTwo 1
    (by simp [oneOfTwo, Weight.value]) zero_le_one (by decide)).2 hresult⟩

def shrink (clauses : List (List ℕ)) : List ℕ → List ℕ → List ℕ
  | kept, [] => kept
  | kept, lit :: todo =>
    match truthTable 0 clauses (kept ++ todo) with
    | .unsat _ => shrink clauses kept todo
    | _ => shrink clauses (kept ++ [lit]) todo

/-- The truth table with minimal cores: the last assumptions are left out first. -/
def minimal : SatSolver := fun call clauses assumptions =>
  match truthTable call clauses assumptions with
  | .unsat _ => .unsat (some (shrink clauses [] assumptions.reverse))
  | verdict => verdict

section

variable {clauses : List (List ℕ)} {kept todo : List ℕ}

theorem shrink_spec (h : ∀ σ, Satisfies σ clauses → ∃ lit ∈ kept ++ todo, ¬ Sat.isTrue σ lit) :
    shrink clauses kept todo ⊆ kept ++ todo ∧
    ∀ σ, Satisfies σ clauses → ∃ lit ∈ shrink clauses kept todo, ¬ Sat.isTrue σ lit := by
  induction todo generalizing kept with
  | nil => simpa [shrink] using h
  | cons lit todo ih =>
    have hcall := truthTable_correct 0 clauses (kept ++ todo)
    rw [shrink]
    split
    · next he =>
      rw [he] at hcall
      obtain ⟨hsub, hall⟩ := ih fun σ hσ => (hcall.2 σ hσ).imp fun _ hlit => ⟨hcall.1 hlit.1, hlit.2⟩
      exact ⟨List.Subset.trans hsub ((sublist_cons_self lit todo).append_left kept).subset, hall⟩
    · simpa using @ih (kept ++ [lit]) (by simpa using h)

theorem minimal_correct : Correct minimal := by
  intro call clauses assumptions
  have hcall := truthTable_correct call clauses assumptions
  unfold minimal
  cases he : truthTable call clauses assumptions with
  | unsat core =>
    rw [he] at hcall
    obtain ⟨hsub, hall⟩ := @shrink_spec clauses [] assumptions.reverse fun σ hσ =>
      (hcall.2 σ hσ).imp fun _ hlit => ⟨mem_reverse.mpr (hcall.1 hlit.1), hlit.2⟩
    exact ⟨fun lit hlit => mem_reverse.mp (hsub hlit), hall⟩
  | sat model => simpa [he] using hcall
  | unknown => trivial

end

def fourSoft : List (List ℕ × Weight) := [([0], .int 1), ([2], .int 1), ([4], .int 1), ([6], .int 1)]

/-- At most one of four soft clauses holds. Two pairs are grouped, and the third core is their bound alone. -/
theorem not_oll_optimal :
    let hard := [[1, 3], [1, 5], [1, 7], [3, 5], [3, 7], [5, 7]]
    Correct minimal ∧ (∀ p ∈ fourSoft, p.2.value = 1) ∧
      (solveOll minimal (fresh ollConfig hard fourSoft)).1.1 = .error .unsatisfiable ∧
      ∃ σ, Satisfies σ hard := by
  refine ⟨minimal_correct, by simp [fourSoft, Weight.value], by decide +kernel, fun _ => false, ?_⟩
  simp [Satisfies, Sat.isTrue]

end Nixie.Opt
