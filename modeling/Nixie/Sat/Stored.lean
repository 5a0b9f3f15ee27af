import Nixie.Sat.Backtrack
import Nixie.Sat.Cardinality

/-!
What unit propagation does to a clause store: it assigns undefined literals only, reorders clauses, and the clause it
returns has no literal that is not false.
-/

namespace Nixie.Sat

open Nixie.Literal List Option Function Nat

def Entailed (F : List (List ℕ)) (lits : List ℕ) : Prop := ∀ σ, Satisfies σ F → ∃ lit ∈ lits, isTrue σ lit

theorem Entailed.congr {F : List (List ℕ)} {lits lits' : List ℕ} (h : Entailed F lits)
    (hmem : ∀ l, l ∈ lits' ↔ l ∈ lits) : Entailed F lits' := by
  intro σ hσ
  obtain ⟨l, hl, htrue⟩ := h σ hσ
  exact ⟨l, (hmem l).mpr hl, htrue⟩

namespace Solver

variable {F : List (List ℕ)} {s s' s'' : Solver} {c c' : Clause} {id lit falseLit : ℕ} {w : Watcher}

structure Stored (F : List (List ℕ)) (s : Solver) : Prop where
  entailed : ∀ id c, s.clauses id = some c → Entailed F c.lits
  edges : ∀ lit, ∀ e ∈ s.binaryGraph lit, e.2 < s.nextId ∧
    ∀ c, s.clauses e.2 = some c → ∀ l ∈ c.lits, l = neg lit ∨ l = e.1
  nextId : ∀ id, s.nextId ≤ id → s.clauses id = none
  plain : s.enableLazyHyperBinary = false

structure Advances (F : List (List ℕ)) (s s' : Solver) : Prop where
  valid : s'.trail.Valid
  stored : Stored F s'
  grows : s.trail.assignments <+: s'.trail.assignments

def Falsified (s : Solver) (id : ℕ) : Prop := ∀ c, s.clauses id = some c → ∀ l ∈ c.lits, s.trail.litVal l < 0

theorem Advances.refl (hvalid : s.trail.Valid) (hstored : Stored F s) : Advances F s s :=
  ⟨hvalid, hstored, prefix_rfl⟩

theorem Advances.trans (h : Advances F s s') (h' : Advances F s' s'') : Advances F s s'' :=
  ⟨h'.valid, h'.stored, h.grows.trans h'.grows⟩

theorem Advances.mem (h : Advances F s s') (hl : lit ∈ s.trail.assignments) : lit ∈ s'.trail.assignments :=
  h.grows.subset hl

variable {t : Trail}

theorem litVal_neg_of_mem (h : t.Valid) (hl : lit ∈ t.assignments) : t.litVal (neg lit) < 0 := by
  have hneg : t.values (neg lit) = -1 := by
    rw [← h.neg_mem_iff, neg_neg]
    exact hl
  rw [Trail.litVal, hneg]
  decide

theorem litVal_cases (h : t.Valid) (lit : ℕ) : t.litVal lit = 1 ∨ t.litVal lit = -1 ∨ t.litVal lit = 0 := by
  rw [Trail.litVal, h.values]
  split_ifs <;> simp

theorem Stored.setClause (h : Stored F s) (hc : s.clauses id = some c) (hmem : ∀ l, l ∈ c'.lits ↔ l ∈ c.lits) :
    Stored F (s.setClause id c') := by
  refine ⟨fun i d hd => ?_, fun l e he => ⟨(h.edges l e he).1, fun d hd => ?_⟩, fun i hi => ?_, h.plain⟩
  · by_cases hi : i = id
    · subst hi
      obtain rfl : c' = d := by simpa [Solver.setClause] using hd
      exact (h.entailed i c hc).congr hmem
    · rw [Solver.setClause] at hd
      exact h.entailed i d ((update_of_ne hi _ _).symm.trans hd)
  · by_cases hi : e.2 = id
    · obtain rfl : c' = d := by simpa [Solver.setClause, hi] using hd
      exact fun m hm => (h.edges l e he).2 c (hi ▸ hc) m ((hmem m).mp hm)
    · rw [Solver.setClause] at hd
      exact (h.edges l e he).2 d ((update_of_ne hi _ _).symm.trans hd)
  · have hne : i ≠ id := fun heq => by
      rw [heq] at hi
      rw [h.nextId id hi] at hc
      cases hc
    rw [Solver.setClause]
    exact (update_of_ne hne _ _).trans (h.nextId i hi)

theorem Stored.addClauseToDb (h : Stored F s) (hc : Entailed F c.lits) : Stored F (s.addClauseToDb c).1 := by
  refine ⟨fun i d hd => ?_, fun l e he => ?_, fun i hi => ?_, h.plain⟩
  · by_cases hi : i = s.nextId
    · subst hi
      obtain rfl : c = d := by simpa [Solver.addClauseToDb, Solver.setClause] using hd
      exact hc
    · exact h.entailed i d ((update_of_ne hi _ _).symm.trans hd)
  · obtain ⟨hlt, hlits⟩ := h.edges l e he
    refine ⟨hlt.trans (lt_succ_self _), fun d hd => hlits d ?_⟩
    exact (update_of_ne hlt.ne _ _).symm.trans hd
  · have hi' : s.nextId + 1 ≤ i := hi
    have hne : i ≠ s.nextId := by omega
    exact (update_of_ne hne _ _).trans (h.nextId i (by omega))

theorem Stored.repair (h : Stored F s) (a b : ℕ) : Stored F (s.repair id a b) := by
  have hadd : ∀ {s : Solver} (key : ℕ) (w : Watcher), Stored F s → Stored F (s.addWatch key w) :=
    fun _ _ h => ⟨h.entailed, h.edges, h.nextId, h.plain⟩
  unfold Solver.repair
  dsimp only
  split_ifs
  · exact h
  · exact hadd _ _ h
  · exact hadd _ _ h
  · exact hadd _ _ (hadd _ _ h)

theorem repair_trail (a b : ℕ) : (s.repair id a b).trail = s.trail := by
  unfold Solver.repair
  dsimp only
  split_ifs <;> rfl

theorem Advances.assign (reason : Reason) (hvalid : s.trail.Valid) (hstored : Stored F s)
    (hlit : s.trail.litVal lit = 0) : Advances F s { s with trail := s.trail.assign lit reason } :=
  ⟨hvalid.assignAt hlit le_rfl, ⟨hstored.entailed, hstored.edges, hstored.nextId, hstored.plain⟩, prefix_append _ _⟩

theorem consider_eq_none {i : ℕ} {lits : List ℕ} (h : consider t i lits = none) : ∀ l ∈ lits, t.litVal l < 0 := by
  induction lits generalizing i with
  | nil => exact fun _ hl => absurd hl not_mem_nil
  | cons lit lits ih =>
    rw [consider] at h
    split_ifs at h with hlit
    exact forall_mem_cons.mpr ⟨hlit, ih h⟩

theorem consider_eq_some {i j : ℕ} {lits : List ℕ} (h : consider t i lits = some (j, lit)) : ∃ k, j = i + k ∧
    lits[k]? = some lit ∧ ¬ t.litVal lit < 0 := by
  induction lits generalizing i with
  | nil => cases h
  | cons m lits ih =>
    rw [consider] at h
    split_ifs at h with hm
    · obtain ⟨k, rfl, hk, hval⟩ := ih h
      exact ⟨k + 1, by omega, hk, hval⟩
    · obtain ⟨rfl, rfl⟩ := Prod.mk.inj (some.inj h)
      exact ⟨0, rfl, rfl, hm⟩

variable {tail : List ℕ}

theorem findSavedPosHit_eq_none {searched : ℕ} (h : findSavedPosHit t tail searched = none) :
    ∀ l ∈ tail, t.litVal l < 0 := by
  obtain ⟨hdrop, htake⟩ := or_eq_none_iff.mp h
  intro l hl
  rw [← take_append_drop (if tail.length ≤ searched - 2 then 0 else searched - 2) tail] at hl
  rcases mem_append.mp hl with hl | hl
  · exact consider_eq_none htake l hl
  · exact consider_eq_none hdrop l hl

theorem findSavedPosHit_eq_some {searched i : ℕ} (h : findSavedPosHit t tail searched = some (i, lit)) :
    tail[i]? = some lit := by
  rcases Option.or_eq_some_iff.mp h with h | ⟨-, h⟩
  · obtain ⟨k, rfl, hk, -⟩ := consider_eq_some h
    rwa [getElem?_drop] at hk
  · obtain ⟨k, rfl, hk, -⟩ := consider_eq_some h
    obtain ⟨hlt, heq⟩ := List.getElem?_eq_some_iff.mp hk
    rw [length_take] at hlt
    rw [getElem_take] at heq
    rw [Nat.zero_add]
    exact List.getElem?_eq_some_iff.mpr ⟨hlt.trans_le (min_le_right _ _), heq⟩

theorem mem_set_swap {i : ℕ} (hi : tail[i]? = some lit) (l : ℕ) : l ∈ lit :: tail.set i falseLit ↔
    l ∈ falseLit :: tail := by
  obtain ⟨hlt, rfl⟩ := List.getElem?_eq_some_iff.mp hi
  have htail : tail = tail.take i ++ tail[i] :: tail.drop (i + 1) := by
    rw [← drop_eq_getElem_cons hlt, take_append_drop]
  have hset : tail.set i falseLit = tail.take i ++ falseLit :: tail.drop (i + 1) :=
    List.set_eq_take_append_cons_drop.trans
    (if_pos hlt)
  rw [hset]
  conv_rhs => rw [htail]
  simp only [mem_cons, mem_append]
  tauto

theorem mem_pair {a b : ℕ} (h : a = falseLit ∨ b = falseLit) (l : ℕ) :
    l ∈ (a ^^^ b ^^^ falseLit) :: falseLit :: tail ↔ l ∈ a :: b :: tail := by
  rcases h with rfl | rfl
  · have hxor : a ^^^ b ^^^ a = b := by rw [Nat.xor_comm a b, Nat.xor_assoc, Nat.xor_self, xor_zero]
    rw [hxor]
    simp only [mem_cons]
    tauto
  · rw [Nat.xor_assoc, Nat.xor_self, xor_zero]

theorem visitClause_spec (hvalid : s.trail.Valid) (hstored : Stored F s) (hfalse : s.trail.litVal falseLit < 0)
    (hc : s.clauses w.clause = some c) : Advances F s (s.visitClause falseLit w c).1 ∧
    ∀ w', (s.visitClause falseLit w c).2 = .conflict w' → Falsified (s.visitClause falseLit w c).1 w'.clause := by
  unfold visitClause
  split
  next a b tail hlits =>
    split_ifs with hpair
    · refine ⟨⟨?_, hstored.repair a b, ?_⟩, nofun⟩
      · rw [repair_trail]
        exact hvalid
      · exact ⟨[], (append_nil _).trans (congrArg Trail.assignments (repair_trail a b).symm)⟩
    have hor : a = falseLit ∨ b = falseLit := by
      rw [not_and_or, not_not, not_not] at hpair
      exact hpair
    have hmem : ∀ l, l ∈ (a ^^^ b ^^^ falseLit) :: falseLit :: tail ↔ l ∈ c.lits := fun l =>
      (mem_pair hor l).trans (by rw [hlits])
    generalize a ^^^ b ^^^ falseLit = first at hmem
    have hset : ∀ c' : Clause, (∀ l, l ∈ c'.lits ↔ l ∈ c.lits) → Advances F s (s.setClause w.clause c') := fun c' hc' =>
      ⟨hvalid, hstored.setClause hc hc', prefix_rfl⟩
    dsimp only
    by_cases hfirst : 0 < s.trail.litVal first
    · rw [if_pos hfirst]
      exact ⟨hset _ hmem, nofun⟩
    rw [if_neg hfirst]
    split
    next i lit hhit =>
      have hswap : ∀ l, l ∈ first :: lit :: tail.set i falseLit ↔ l ∈ c.lits := fun l => by
        rw [← hmem l, mem_cons, mem_set_swap (findSavedPosHit_eq_some hhit), ← mem_cons]
      split_ifs
      · exact ⟨hset _ hmem, nofun⟩
      · obtain ⟨hv, hs, hg⟩ :=
          hset { c with lits := first :: lit :: tail.set i falseLit, searched := savedPosStore i } hswap
        exact ⟨⟨hv, ⟨hs.entailed, hs.edges, hs.nextId, hs.plain⟩, hg⟩, nofun⟩
    next hnone =>
      have hstep := hset { c with lits := first :: falseLit :: tail } hmem
      split_ifs with hneg
      · refine ⟨hstep, fun w' hw' d hd => ?_⟩
        obtain rfl := Visit.conflict.inj hw'
        obtain rfl : { c with lits := first :: falseLit :: tail } = d := by simpa [Solver.setClause] using hd
        exact forall_mem_cons.mpr ⟨hneg, forall_mem_cons.mpr ⟨hfalse, findSavedPosHit_eq_none hnone⟩⟩
      · have hzero : s.trail.litVal first = 0 := by
          have hneg' : ¬ s.trail.litVal first < 0 := hneg
          rcases litVal_cases hvalid first with h | h | h <;> omega
        refine ⟨?_, nofun⟩
        unfold unitPropagate
        rw [if_neg (by rw [hstep.stored.plain]; exact Bool.false_ne_true)]
        exact hstep.trans (Advances.assign _ hstep.valid hstep.stored hzero)
  next => exact ⟨.refl hvalid hstored, nofun⟩

theorem visitWatcher_spec (hvalid : s.trail.Valid) (hstored : Stored F s) (hfalse : s.trail.litVal falseLit < 0) :
    Advances F s (s.visitWatcher falseLit w).1 ∧ ∀ w', (s.visitWatcher falseLit w).2 = .conflict w' → Falsified
    (s.visitWatcher falseLit w).1 w'.clause := by
  unfold visitWatcher
  split_ifs
  · exact ⟨.refl hvalid hstored, nofun⟩
  split
  next => exact ⟨.refl hvalid hstored, nofun⟩
  next c hc => exact visitClause_spec hvalid hstored hfalse hc

theorem scanWatches_spec (ws : List Watcher) (hvalid : s.trail.Valid) (hstored : Stored F s)
    (hlit : lit ∈ s.trail.assignments) : Advances F s (scanWatches (neg lit) ws s).1 ∧
    ∀ id, (scanWatches (neg lit) ws s).2.2 = some id → Falsified (scanWatches (neg lit) ws s).1 id := by
  induction ws generalizing s with
  | nil => exact ⟨.refl hvalid hstored, nofun⟩
  | cons w ws ih =>
    obtain ⟨hstep, hconflict⟩ := visitWatcher_spec (w := w) hvalid hstored (litVal_neg_of_mem hvalid hlit)
    rw [scanWatches]
    split
    next s1 hvisit =>
      rw [hvisit] at hstep
      obtain ⟨hrest, hrestConflict⟩ := ih hstep.valid hstep.stored (hstep.mem hlit)
      exact ⟨hstep.trans hrest, hrestConflict⟩
    next s1 w' hvisit =>
      rw [hvisit] at hstep
      obtain ⟨hrest, hrestConflict⟩ := ih hstep.valid hstep.stored (hstep.mem hlit)
      exact ⟨hstep.trans hrest, hrestConflict⟩
    next s1 w' hvisit =>
      rw [hvisit] at hstep hconflict
      refine ⟨hstep, fun id hid => ?_⟩
      obtain rfl := some.inj hid
      exact hconflict w' rfl

theorem propagateEdges_spec (edges : List (ℕ × ℕ)) (hvalid : s.trail.Valid) (hstored : Stored F s)
    (hlit : lit ∈ s.trail.assignments) (hedges : ∀ e ∈ edges, e ∈ s.binaryGraph lit) :
    Advances F s (propagateEdges edges s).1 ∧ ∀ id, (propagateEdges edges s).2 = some id →
    Falsified (propagateEdges edges s).1 id := by
  induction edges generalizing s with
  | nil => exact ⟨.refl hvalid hstored, nofun⟩
  | cons e edges ih =>
    obtain ⟨implied, edgeId⟩ := e
    obtain ⟨hedge, hrest⟩ := forall_mem_cons.mp hedges
    rw [propagateEdges]
    split_ifs with hneg hzero
    · refine ⟨.refl hvalid hstored, fun id hid c hc l hl => ?_⟩
      obtain rfl := some.inj hid
      rcases (hstored.edges lit _ hedge).2 c hc l hl with rfl | rfl
      · exact litVal_neg_of_mem hvalid hlit
      · exact hneg
    · have hstep := Advances.assign (.propagation edgeId) hvalid hstored hzero
      obtain ⟨hadvances, hconflict⟩ := ih hstep.valid hstep.stored (hstep.mem hlit) hrest
      exact ⟨hstep.trans hadvances, hconflict⟩
    · exact ih hvalid hstored hlit hrest

theorem propagateLit_spec (hvalid : s.trail.Valid) (hstored : Stored F s) (hlit : lit ∈ s.trail.assignments) :
    Advances F s (s.propagateLit lit).1 ∧ ∀ id, (s.propagateLit lit).2 = some id →
    Falsified (s.propagateLit lit).1 id := by
  obtain ⟨hedges, hconflict⟩ := propagateEdges_spec (s.binaryGraph lit) hvalid hstored hlit fun _ he => he
  unfold propagateLit
  split
  next s1 id hrun =>
    rw [hrun] at hedges hconflict
    exact ⟨hedges, hconflict⟩
  next s1 hrun =>
    rw [hrun] at hedges
    dsimp only at hedges
    have hs1 : Stored F { s1 with watches := update s1.watches lit [] } :=
      ⟨hedges.stored.entailed, hedges.stored.edges, hedges.stored.nextId, hedges.stored.plain⟩
    have hvalid1 : Trail.Valid { s1 with watches := update s1.watches lit [] }.trail := hedges.valid
    obtain ⟨hscan, hscanConflict⟩ := @scanWatches_spec F _ lit (s1.watches lit) hvalid1 hs1 (hedges.mem hlit)
    dsimp only at hscan hscanConflict ⊢
    exact ⟨⟨hscan.valid, ⟨hscan.stored.entailed, hscan.stored.edges, hscan.stored.nextId, hscan.stored.plain⟩,
      hedges.grows.trans hscan.grows⟩, hscanConflict⟩

theorem propagate_spec (fuel : ℕ) {conflict : Option ℕ} (hvalid : s.trail.Valid) (hstored : Stored F s)
    (h : propagate fuel s = some (s', conflict)) : Advances F s s' ∧ ∀ id, conflict = some id → Falsified s' id := by
  induction fuel generalizing s with
  | zero => cases h
  | succ fuel ih =>
    rw [propagate] at h
    split at h
    next =>
      obtain ⟨rfl, rfl⟩ := Prod.mk.inj (some.inj h)
      exact ⟨.refl hvalid hstored, nofun⟩
    next lit trail hnext =>
      obtain ⟨l, hget, hpair⟩ := map_eq_some_iff.mp hnext
      obtain ⟨rfl, rfl⟩ := Prod.mk.inj hpair
      have hhead : s.trail.propHead < s.trail.assignments.length := (List.getElem?_eq_some_iff.mp hget).1
      have hvalid' : Trail.Valid { s.trail with propHead := s.trail.propHead + 1 } := { hvalid with head := hhead }
      dsimp only at h
      split_ifs at h
      · obtain ⟨rfl, rfl⟩ := Prod.mk.inj (some.inj h)
        exact ⟨⟨hvalid', ⟨hstored.entailed, hstored.edges, hstored.nextId, hstored.plain⟩, prefix_rfl⟩, nofun⟩
      · have hstep := @propagateLit_spec F
          { s with
            trail := { s.trail with propHead := s.trail.propHead + 1 }
            propagateStepLimit := s.propagateStepLimit.map (· - 1) } l
          hvalid' ⟨hstored.entailed, hstored.edges, hstored.nextId, hstored.plain⟩ (mem_of_getElem? hget)
        split at h
        next s1 id hrun =>
          rw [hrun] at hstep
          obtain ⟨rfl, rfl⟩ := Prod.mk.inj (some.inj h)
          obtain ⟨⟨hv, hs, hg⟩, hconflict⟩ := hstep
          refine ⟨⟨{ hv with head := (sub_le _ _).trans hv.head }, ⟨hs.entailed, hs.edges, hs.nextId, hs.plain⟩, hg⟩,
            ?_⟩
          exact fun _ hid => hconflict _ hid
        next s1 hrun =>
          rw [hrun] at hstep
          obtain ⟨hrest, hconflict⟩ := ih hstep.1.valid hstep.1.stored h
          exact ⟨⟨hrest.valid, hrest.stored, hstep.1.grows.trans hrest.grows⟩, hconflict⟩

end Solver

end Nixie.Sat
