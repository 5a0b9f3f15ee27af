import Nixie.Preprocess.Core

/-!
What the passes of the preprocessor do to the models of the live clauses together with facts about assigned variables.
-/

namespace Nixie.Preprocess

open Nixie.Literal Nixie.Witness List Option Preprocessor

variable {db db' db'' : List Clause} {facts : Set ℕ} {σ : ℕ → Bool} {id n n' : ℕ} {lits : List ℕ} {lit : ℕ}
  {p p' : Preprocessor}

structure Models (σ : ℕ → Bool) (facts : Set ℕ) (db : List Clause) : Prop where
  clauses : ∀ (i : ℕ) (c : Clause), db[i]? = some c → c.deleted = false → holds σ c.lits = true
  facts : ∀ f ∈ facts, Assigns σ f

def SatWith (db : List Clause) (facts : Set ℕ) : Prop := ∃ σ, Models σ facts db

def liveCount (db : List Clause) : ℕ := db.countP fun c => !c.deleted

structure Shrinks (db db' : List Clause) (n : ℕ) : Prop where
  length : db'.length = db.length
  slots : ∀ (i : ℕ) (c' : Clause), db'[i]? = some c' → ∃ c : Clause, db[i]? = some c ∧ c.lits = c'.lits ∧
    (c'.deleted = false → c.deleted = false)
  count : liveCount db' + n = liveCount db

theorem Shrinks.refl : Shrinks db db 0 := ⟨rfl, fun _ c hc => ⟨c, hc, rfl, id⟩, rfl⟩

theorem Shrinks.trans (h : Shrinks db db' n) (h' : Shrinks db' db'' n') : Shrinks db db'' (n + n') := by
  refine ⟨h'.length.trans h.length, fun i c'' hc'' => ?_, by have := h.count; have := h'.count; omega⟩
  obtain ⟨c', hc', hlits', hlive'⟩ := h'.slots i c'' hc''
  obtain ⟨c, hc, hlits, hlive⟩ := h.slots i c' hc'
  exact ⟨c, hc, hlits.trans hlits', fun hdel => hlive (hlive' hdel)⟩

theorem Shrinks.models (h : Shrinks db db' n) (hσ : Models σ facts db) : Models σ facts db' := by
  refine ⟨fun i c' hc' hlive => ?_, hσ.facts⟩
  obtain ⟨c, hc, hlits, hdel⟩ := h.slots i c' hc'
  exact hlits ▸ hσ.clauses i c hc (hdel hlive)

theorem Shrinks.inRange {numVars : ℕ} (h : Shrinks db db' n) (hrange : InRange numVars db) : InRange numVars db' := by
  intro c' hc' hlive
  obtain ⟨i, hi⟩ := mem_iff_getElem?.mp hc'
  obtain ⟨c, hc, hlits, hdel⟩ := h.slots i c' hi
  exact hlits ▸ hrange c (mem_of_getElem? hc) (hdel hlive)

theorem getElem?_markDeletedRaw (i : ℕ) :
    (markDeletedRaw db id)[i]? = if id = i then db[i]?.map (fun c => { c with deleted := true }) else db[i]? := by
  rw [markDeletedRaw, getElem?_modify]
  split_ifs
  · rfl
  · simp

theorem Preprocessor.candidate_eq_some (h : p.candidate db id = some lits) :
    ∃ c : Clause, db[id]? = some c ∧ c.deleted = false ∧ c.learned = false ∧ c.lits = lits := by
  unfold candidate at h
  split_ifs at h
  split at h
  next c hc =>
    split_ifs at h with hskip
    rw [Bool.or_eq_true, not_or] at hskip
    exact ⟨c, hc, Bool.eq_false_iff.mpr hskip.1, Bool.eq_false_iff.mpr hskip.2, some.inj h⟩
  next => cases h

theorem shrinks_markDeletedRaw {c : Clause} (hc : db[id]? = some c) (hlive : c.deleted = false) :
    Shrinks db (markDeletedRaw db id) 1 := by
  obtain ⟨hlt, hget⟩ := List.getElem?_eq_some_iff.mp hc
  refine ⟨length_modify _ _ _, fun i c' hc' => ?_, ?_⟩
  · rw [getElem?_markDeletedRaw] at hc'
    split_ifs at hc' with hi
    · obtain ⟨d, hd, rfl⟩ := Option.map_eq_some_iff.mp hc'
      exact ⟨d, hd, rfl, nofun⟩
    · exact ⟨c', hc', rfl, fun hdel => hdel⟩
  · have hsplit : db = db.take id ++ db[id] :: db.drop (id + 1) := by
      rw [← drop_eq_getElem_cons hlt, take_append_drop]
    rw [markDeletedRaw, modify_eq_take_cons_drop hlt, liveCount, liveCount, countP_append, countP_cons]
    conv_rhs => rw [hsplit, countP_append, countP_cons, hget, hlive]
    simp [Nat.add_assoc]

theorem Models.of_markDeletedRaw {c : Clause} (hc : db[id]? = some c) (h : Models σ facts (markDeletedRaw db id))
    (hholds : holds σ c.lits = true) : Models σ facts db := by
  refine ⟨fun i d hd hlive => ?_, h.facts⟩
  by_cases hi : id = i
  · subst hi
    obtain rfl := some.inj (hc.symm.trans hd)
    exact hholds
  · refine h.clauses i d ?_ hlive
    rw [getElem?_markDeletedRaw, if_neg hi]
    exact hd

theorem Models.repair (h : Models σ facts db) (hfacts : neg lit ∉ facts)
    (hneg : ∀ (i : ℕ) (c : Clause), db[i]? = some c → c.deleted = false → neg lit ∈ c.lits →
    holds (repair σ lit) c.lits = true) : Models (repair σ lit) facts db := by
  refine ⟨fun i c hc hlive => ?_, fun f hf => ?_⟩
  · by_cases hmem : neg lit ∈ c.lits
    · exact hneg i c hc hlive hmem
    · obtain ⟨l, hl, htrue⟩ := holds_iff.mp (h.clauses i c hc hlive)
      by_cases hvar : l / 2 = lit / 2
      · rcases eq_or_eq_neg hvar with rfl | rfl
        · exact holds_repair hl
        · exact absurd hl hmem
      · exact holds_iff.mpr ⟨l, hl, (assigns_repair_of_ne hvar).mpr htrue⟩
  · by_cases hvar : f / 2 = lit / 2
    · rcases eq_or_eq_neg hvar with rfl | rfl
      · exact assigns_repair σ f
      · exact absurd hf hfacts
    · exact (assigns_repair_of_ne hvar).mpr (h.facts f hf)

theorem mem_occurrencesOf : id ∈ occurrencesOf db lit ↔ ∃ c : Clause, db[id]? = some c ∧ c.deleted = false ∧
    lit ∈ c.lits := by
  simp only [occurrencesOf, mem_flatMap, mem_range]
  constructor
  · rintro ⟨i, hi, hmem⟩
    rw [getElem?_eq_getElem hi] at hmem
    dsimp only at hmem
    split_ifs at hmem with hdel
    · cases hmem
    · obtain ⟨hcount, rfl⟩ := List.mem_replicate.mp hmem
      exact ⟨db[id], getElem?_eq_getElem hi, Bool.eq_false_iff.mpr hdel,
        List.count_pos_iff.mp (Nat.pos_of_ne_zero hcount)⟩
  · rintro ⟨c, hc, hdel, hmem⟩
    obtain ⟨hlt, hget⟩ := List.getElem?_eq_some_iff.mp hc
    refine ⟨id, hlt, ?_⟩
    rw [hc]
    dsimp only
    rw [hdel, if_neg Bool.false_ne_true]
    exact List.mem_replicate.mpr ⟨(List.count_pos_iff.mpr hmem).ne', rfl⟩

theorem Preprocessor.buildOccurrences_isSome (h : InRange p.numVars db) :
    p.buildOccurrences db = some { p with occurrences := occurrencesOf db } := if_pos h

theorem mem_swapRemove {list : List ℕ} {j : ℕ} (hj : j ∈ list) (hne : j ≠ id) : j ∈ swapRemove list id := by
  unfold swapRemove
  split
  next pos hpos =>
    obtain ⟨hlt, hget, -⟩ := idxOf?_eq_some_iff.mp hpos
    obtain ⟨k, hk, rfl⟩ := mem_iff_getElem.mp hj
    have hkpos : k ≠ pos := fun heq => hne (by subst heq; simpa using hget)
    rw [mem_iff_getElem]
    -- the last entry moves to the place of the one taken out
    by_cases hlast : k = list.length - 1
    · refine ⟨pos, by rw [length_dropLast, length_set]; omega, ?_⟩
      rw [getElem_dropLast, getElem_set_self, getLastD_eq_getLast?, getLast?_eq_getElem?, ← hlast,
        getElem?_eq_getElem hk, getD_some]
    · refine ⟨k, by rw [length_dropLast, length_set]; omega, ?_⟩
      rw [getElem_dropLast, getElem_set_of_ne (Ne.symm hkpos)]
  next => exact hj

theorem isTautology_spec (h : isTautology lits = true) : ∃ m, m ∈ lits ∧ neg m ∈ lits := by
  have hloop : ∀ (seen : List ℕ) (lits : List ℕ), tautologyLoop seen lits = true →
      ∃ m ∈ lits, neg m ∈ seen ∨ neg m ∈ lits := by
    intro seen lits
    induction lits generalizing seen with
    | nil => exact nofun
    | cons l lits ih =>
      intro hrun
      rw [tautologyLoop] at hrun
      split_ifs at hrun with hl
      · exact ⟨l, mem_cons_self, .inl hl⟩
      · obtain ⟨m, hm, hneg⟩ := ih (l :: seen) hrun
        rcases hneg with hneg | hneg
        · rcases mem_cons.mp hneg with heq | hneg
          · refine ⟨m, mem_cons_of_mem _ hm, .inr ?_⟩
            rw [heq]
            exact mem_cons_self
          · exact ⟨m, mem_cons_of_mem _ hm, .inl hneg⟩
        · exact ⟨m, mem_cons_of_mem _ hm, .inr (mem_cons_of_mem _ hneg)⟩
  obtain ⟨m, hm, hneg⟩ := hloop [] lits h
  exact ⟨m, hm, hneg.resolve_left not_mem_nil⟩

def NotLive (db : List Clause) (lit : ℕ) : Prop := ∀ (i : ℕ) (c : Clause), db[i]? = some c → c.deleted = false →
    lit ∉ c.lits

theorem NotLive.shrinks (h : NotLive db lit) (hs : Shrinks db db' n) : NotLive db' lit := by
  intro i c' hc' hlive
  obtain ⟨c, hc, hlits, hdel⟩ := hs.slots i c' hc'
  exact hlits ▸ h i c hc (hdel hlive)

structure Passes (facts : Set ℕ) (db db' : List Clause) (n : ℕ) : Prop where
  shrinks : Shrinks db db' n
  sat : SatWith db' facts → SatWith db facts

theorem Passes.refl : Passes facts db db 0 := ⟨.refl, id⟩

theorem Passes.trans (h : Passes facts db db' n) (h' : Passes facts db' db'' n') : Passes facts db db'' (n + n') :=
  ⟨h.shrinks.trans h'.shrinks, fun hsat => h.sat (h'.sat hsat)⟩

variable {ids : List ℕ}

theorem removeAll_spec (hfacts : neg lit ∉ facts) (hneg : NotLive db (neg lit))
    (hids : ∀ i ∈ ids, ∀ c : Clause, db[i]? = some c → lit ∈ c.lits) :
    ∃ p' db' k, removeAll ids p db n = (p', db', n + k) ∧ p'.numVars = p.numVars ∧
    p'.occurrences = p.occurrences ∧ Passes facts db db' k := by
  induction ids generalizing p db n with
  | nil => exact ⟨p, db, 0, rfl, rfl, rfl, .refl⟩
  | cons id ids ih =>
    obtain ⟨hid, hrest⟩ := forall_mem_cons.mp hids
    rw [Preprocessor.removeAll]
    split
    next lits hcandidate =>
      obtain ⟨c, hc, hlive, -, rfl⟩ := candidate_eq_some hcandidate
      have hshrinks := shrinks_markDeletedRaw hc hlive
      have hstep : Passes facts db (markDeletedRaw db id) 1 := by
        refine ⟨hshrinks, fun ⟨σ, hσ⟩ => ⟨repair σ lit, ?_⟩⟩
        have hrepaired := hσ.repair hfacts fun i d hd hdel hmem => absurd hmem (hneg.shrinks hshrinks i d hd hdel)
        exact hrepaired.of_markDeletedRaw hc (holds_repair (hid c hc))
      obtain ⟨p', db', k, hrun, hnum, hocc, hpasses⟩ := @ih (markDeletedRaw db id) (n + 1)
        { p with removedClauses := id :: p.removedClauses } (hneg.shrinks hshrinks) fun i hi d hd => by
          obtain ⟨d', hd', hlits, -⟩ := hshrinks.slots i d hd
          exact hlits ▸ hrest i hi d' hd'
      exact ⟨p', db', 1 + k, by rw [hrun, Nat.add_assoc], hnum, hocc, hstep.trans hpasses⟩
    next => exact ih hneg hrest

variable {assigned : List Bool}

theorem pureLiteral_spec {v : ℕ} (hocc : p.occurrences = occurrencesOf db)
    (h : p.pureLiteral assigned v = some lit) : NotLive db (neg lit) ∧ assigned.getD (lit / 2) false = false := by
  have hnil : ∀ m, p.occurrences m = [] → NotLive db m := by
    intro m hm i c hc hdel hmem
    have hin : i ∈ occurrencesOf db m := mem_occurrencesOf.mpr ⟨c, hc, hdel, hmem⟩
    rw [← hocc, hm] at hin
    cases hin
  unfold pureLiteral at h
  split_ifs at h with hassigned
  rw [Bool.not_eq_true] at hassigned
  split at h
  next hpos hnone =>
    obtain rfl := some.inj h
    have hnegLit : neg (2 * v) = 2 * v + 1 := by rw [neg_eq, if_pos (by omega)]
    have hvar : 2 * v / 2 = v := by omega
    refine ⟨?_, ?_⟩
    · rw [hnegLit]
      exact hnil _ hnone
    · rw [hvar]
      exact hassigned
  next hnone hpos =>
    obtain rfl := some.inj h
    have hnegLit : neg (2 * v + 1) = 2 * v := by rw [neg_eq, if_neg (by omega)]; omega
    have hvar : (2 * v + 1) / 2 = v := by omega
    refine ⟨?_, ?_⟩
    · rw [hnegLit]
      exact hnil _ hnone
    · rw [hvar]
      exact hassigned
  next => cases h

theorem removePure_spec (hfacts : ∀ f ∈ facts, assigned.getD (f / 2) false = true)
    (hpure : ∀ lit ∈ lits, NotLive db (neg lit) ∧ assigned.getD (lit / 2) false = false)
    (hocc : ∀ lit, ∀ i ∈ p.occurrences lit, ∀ c : Clause, db[i]? = some c → lit ∈ c.lits) :
    ∃ p' db' k, removePure lits p db n = (p', db', n + k) ∧ p'.numVars = p.numVars ∧
    Passes facts db db' k := by
  induction lits generalizing p db n with
  | nil => exact ⟨p, db, 0, rfl, rfl, .refl⟩
  | cons lit lits ih =>
    obtain ⟨⟨hneg, hassigned⟩, hrest⟩ := forall_mem_cons.mp hpure
    have hnot : neg lit ∉ facts := fun hmem => by
      have htrue := hfacts _ hmem
      rw [neg_div_two, hassigned] at htrue
      cases htrue
    obtain ⟨p1, db1, k, hrun, hnum, hoccs, hpasses⟩ := removeAll_spec (p := p) (n := 0) hnot hneg (hocc lit)
    rw [removePure, hrun]
    dsimp only
    obtain ⟨p2, db2, k', hrun', hnum', hpasses'⟩ := @ih db1 (n + (0 + k))
      { p1 with
        eliminatedPureLiterals :=
          if 0 < 0 + k then p1.eliminatedPureLiterals ++ [lit] else p1.eliminatedPureLiterals }
      (fun m hm => ⟨(hrest m hm).1.shrinks hpasses.shrinks, (hrest m hm).2⟩)
      (fun m i hi c' hc' => by
        dsimp only at hi
        rw [hoccs] at hi
        obtain ⟨c, hc, hlits, -⟩ := hpasses.shrinks.slots i c' hc'
        exact hlits ▸ hocc m i hi c hc)
    refine ⟨p2, db2, k + k', ?_, hnum'.trans hnum, hpasses.trans hpasses'⟩
    rw [hrun', Nat.zero_add, Nat.add_assoc]

theorem pureLiteralElimination_spec (hrange : InRange p.numVars db)
    (hfacts : ∀ f ∈ facts, assigned.getD (f / 2) false = true) :
    ∃ p' db' k, p.pureLiteralElimination db assigned = some (p', db', k) ∧ p'.numVars = p.numVars ∧
    Passes facts db db' k := by
  obtain ⟨p', db', k, hrun, hnum, hpasses⟩ := @removePure_spec db facts 0
    ((List.range p.numVars).filterMap (pureLiteral { p with occurrences := occurrencesOf db } assigned))
    { p with occurrences := occurrencesOf db } assigned hfacts
    (fun lit hlit => by
      obtain ⟨v, -, hv⟩ := mem_filterMap.mp hlit
      exact pureLiteral_spec rfl hv)
    (fun lit i hi c hc => by
      obtain ⟨d, hd, -, hmem⟩ := mem_occurrencesOf.mp hi
      obtain rfl := some.inj (hd.symm.trans hc)
      exact hmem)
  refine ⟨p', db', k, ?_, hnum, hpasses⟩
  rw [pureLiteralElimination, buildOccurrences_isSome hrange]
  refine congrArg some (hrun.trans ?_)
  rw [Nat.zero_add]

theorem removeSubsumed_spec {c : Clause} {j : ℕ} (hc : db[j]? = some c) (hlive : c.deleted = false)
    (hj : j ∉ ids) : ∃ p' db' k, removeSubsumed c.lits ids p db n = (p', db', n + k) ∧
    p'.numVars = p.numVars ∧ Passes facts db db' k := by
  induction ids generalizing p db n with
  | nil => exact ⟨p, db, 0, rfl, rfl, .refl⟩
  | cons id ids ih =>
    rw [mem_cons, not_or] at hj
    obtain ⟨hne, hrest⟩ := hj
    rw [removeSubsumed]
    split
    next other hcandidate =>
      obtain ⟨d, hd, hdel, -, rfl⟩ := candidate_eq_some hcandidate
      split_ifs with hsub
      · have hstay : (markDeletedRaw db id)[j]? = some c := by
          rw [getElem?_markDeletedRaw, if_neg (Ne.symm hne)]
          exact hc
        have hstep : Passes facts db (markDeletedRaw db id) 1 := by
          refine ⟨shrinks_markDeletedRaw hd hdel, fun ⟨σ, hσ⟩ => ⟨σ, hσ.of_markDeletedRaw hd ?_⟩⟩
          exact holds_mono (hσ.clauses j c hstay hlive) fun l hl => of_decide_eq_true (all_eq_true.mp hsub l hl)
        obtain ⟨p', db', k, hrun, hnum, hpasses⟩ := @ih (markDeletedRaw db id) (n + 1)
          { p with removedClauses := id :: p.removedClauses } hstay hrest
        exact ⟨p', db', 1 + k, by rw [hrun, Nat.add_assoc], hnum, hstep.trans hpasses⟩
      · exact ih hc hrest
    next => exact ih hc hrest

theorem subsume_spec (hids : ids.Nodup) : ∃ p' db' k, subsume ids p db n = (p', db', n + k) ∧
    p'.numVars = p.numVars ∧ Passes facts db db' k := by
  induction ids generalizing p db n with
  | nil => exact ⟨p, db, 0, rfl, rfl, .refl⟩
  | cons id ids ih =>
    obtain ⟨hid, hids⟩ := nodup_cons.mp hids
    rw [subsume]
    split
    next lits hcandidate =>
      obtain ⟨c, hc, hlive, -, rfl⟩ := candidate_eq_some hcandidate
      obtain ⟨p1, db1, k, hrun, hnum, hpasses⟩ := @removeSubsumed_spec db facts n p ids c id hc hlive hid
      rw [hrun]
      dsimp only
      obtain ⟨p2, db2, k', hrun', hnum', hpasses'⟩ := @ih db1 (n + k) p1 hids
      exact ⟨p2, db2, k + k', by rw [hrun', Nat.add_assoc], hnum'.trans hnum, hpasses.trans hpasses'⟩
    next => exact ih hids

theorem subsumptionElimination_spec (hrange : InRange p.numVars db) :
    ∃ p' db' k, p.subsumptionElimination db = some (p', db', k) ∧ p'.numVars = p.numVars ∧ Passes facts db db' k := by
  obtain ⟨p', db', k, hrun, hnum, hpasses⟩ := @subsume_spec db facts 0
    { p with occurrences := occurrencesOf db } _ (nodup_range (n := db.length))
  refine ⟨p', db', k, ?_, hnum, hpasses⟩
  rw [subsumptionElimination, buildOccurrences_isSome hrange]
  refine congrArg some (hrun.trans ?_)
  rw [Nat.zero_add]

def Covers (p : Preprocessor) (db : List Clause) : Prop :=
  ∀ (i : ℕ) (c : Clause), db[i]? = some c → c.deleted = false → ∀ l ∈ c.lits, i ∈ p.occurrences l

theorem mem_removeOccurrence {j l m : ℕ} (h : j ∈ p.occurrences l) (hne : j ≠ id) :
    j ∈ (p.removeOccurrence id m).occurrences l := by
  unfold removeOccurrence
  dsimp only
  by_cases hl : l = m
  · subst hl
    rw [Function.update_self]
    exact mem_swapRemove h hne
  · rw [Function.update_of_ne hl]
    exact h

theorem mem_removeOccurrences {j l : ℕ} (h : j ∈ p.occurrences l) (hne : j ≠ id) :
    j ∈ (lits.foldl (fun p m => p.removeOccurrence id m) p).occurrences l := by
  induction lits generalizing p with
  | nil => exact h
  | cons m lits ih => exact ih (mem_removeOccurrence h hne)

theorem removeOccurrences_numVars : (lits.foldl (fun p m => p.removeOccurrence id m) p).numVars = p.numVars := by
  induction lits generalizing p with
  | nil => rfl
  | cons m lits ih => exact ih

theorem isBlocked_spec (hcovers : Covers p db) (hblocked : p.isBlocked db lits lit = true) (hlit : lit ∈ lits)
    (hσ : holds σ lits = false) : ∀ (i : ℕ) (d : Clause), db[i]? = some d → d.deleted = false → holds σ d.lits = true →
    neg lit ∈ d.lits → holds (repair σ lit) d.lits = true := by
  intro i d hd hlive hholds hneg
  have hfalse : ∀ l ∈ lits, ¬ Assigns σ l := fun l hl htrue => by
    rw [holds_iff.mpr ⟨l, hl, htrue⟩] at hσ
    cases hσ
  have htaut := all_eq_true.mp hblocked i (hcovers i d hd hlive _ hneg)
  rw [hd] at htaut
  dsimp only at htaut
  rw [hlive, Bool.false_or] at htaut
  -- the two literals of the tautology do not both come from the clause that is false
  have hkeep : ∀ m ∈ d.lits, m / 2 ≠ lit / 2 → Assigns σ m → holds (repair σ lit) d.lits = true :=
    fun m hm hvar htrue =>
    holds_iff.mpr ⟨m, hm, (assigns_repair_of_ne hvar).mpr htrue⟩
  have hown : ∀ m, m ∈ lits → m ≠ lit → m / 2 ≠ lit / 2 := by
    intro m hm hne hvar
    rcases eq_or_eq_neg hvar with rfl | rfl
    · exact hne rfl
    · exact hfalse _ hm ((assigns_neg σ lit).mpr (hfalse lit hlit))
  obtain ⟨m, hm, hmneg⟩ := isTautology_spec htaut
  simp only [mem_append, mem_filter, ne_eq, decide_eq_true_eq] at hm hmneg
  rcases hm with ⟨hm, hne⟩ | ⟨hm, hne⟩
  · rcases hmneg with ⟨hmneg, -⟩ | ⟨hmneg, -⟩
    · exact absurd ((assigns_neg σ m).mpr (hfalse m hm)) (hfalse _ hmneg)
    · refine hkeep (neg m) hmneg ?_ ((assigns_neg σ m).mpr (hfalse m hm))
      rw [neg_div_two]
      exact hown m hm hne
  · rcases hmneg with ⟨hmneg, hne'⟩ | ⟨hmneg, hne'⟩
    · refine hkeep m hm ?_ ?_
      · rw [← neg_div_two m]
        exact hown _ hmneg hne'
      · by_contra htrue
        exact hfalse _ hmneg ((assigns_neg σ m).mpr htrue)
    · by_cases hml : m = lit
      · exact absurd (congrArg neg hml) hne'
      · have hvar : m / 2 ≠ lit / 2 := fun heq => (eq_or_eq_neg heq).elim hml hne
        by_cases htrue : Assigns σ m
        · exact hkeep m hm hvar htrue
        · exact hkeep (neg m) hmneg (by rwa [neg_div_two]) ((assigns_neg σ m).mpr htrue)

def SparesFacts (facts : Set ℕ) : List ℕ → Preprocessor → List Clause → Prop
  | [], _, _ => True
  | id :: ids, p, db =>
    match p.blockingLit db id with
    | some (lits, lit) =>
      neg lit ∉ facts ∧
        SparesFacts facts ids
          (lits.foldl (fun p l => p.removeOccurrence id l) { p with removedClauses := id :: p.removedClauses })
          (markDeletedRaw db id)
    | none => SparesFacts facts ids p db

theorem blockClauses_spec (hcovers : Covers p db) :
    ∃ p' db' k, blockClauses ids p db n = (p', db', n + k) ∧ p'.numVars = p.numVars ∧
    Shrinks db db' k ∧ (SparesFacts facts ids p db → SatWith db' facts → SatWith db facts) := by
  induction ids generalizing p db n with
  | nil => exact ⟨p, db, 0, rfl, rfl, .refl, fun _ h => h⟩
  | cons id ids ih =>
    rw [blockClauses, SparesFacts]
    cases hblocking : p.blockingLit db id with
    | none => exact ih hcovers
    | some pair =>
      obtain ⟨lits, lit⟩ := pair
      dsimp only
      obtain ⟨lits', hcandidate, hrest⟩ := bind_eq_some_iff.mp hblocking
      obtain ⟨lit', hfind, hpair⟩ := bind_eq_some_iff.mp hrest
      obtain ⟨rfl, rfl⟩ := Prod.mk.inj (some.inj hpair)
      obtain ⟨c, hc, hlive, -, rfl⟩ := candidate_eq_some hcandidate
      have hblocked : p.isBlocked db c.lits lit' = true := find?_some hfind
      have hlit : lit' ∈ c.lits := mem_of_find?_eq_some hfind
      have hshrinks := shrinks_markDeletedRaw hc hlive
      have hcovers' : Covers (c.lits.foldl (fun p l => p.removeOccurrence id l)
          { p with removedClauses := id :: p.removedClauses }) (markDeletedRaw db id) := by
        intro i d hd hdel l hl
        have hne : i ≠ id := by
          rintro rfl
          rw [getElem?_markDeletedRaw, if_pos rfl] at hd
          obtain ⟨e, -, rfl⟩ := map_eq_some_iff.mp hd
          cases hdel
        rw [getElem?_markDeletedRaw, if_neg (Ne.symm hne)] at hd
        exact mem_removeOccurrences (p := { p with removedClauses := id :: p.removedClauses })
          (hcovers i d hd hdel l hl) hne
      obtain ⟨p', db', k, hrun, hnum, hshrinks', hsat⟩ := ih (n := n + 1) hcovers'
      refine ⟨p', db', 1 + k, by rw [hrun, Nat.add_assoc], hnum.trans removeOccurrences_numVars,
        hshrinks.trans hshrinks',
        fun hspares h => ?_⟩
      obtain ⟨σ, hσ⟩ := hsat hspares.2 h
      by_cases hholds : holds σ c.lits = true
      · exact ⟨σ, hσ.of_markDeletedRaw hc hholds⟩
      · have hspec := isBlocked_spec hcovers hblocked hlit (Bool.eq_false_iff.mpr hholds)
        refine ⟨repair σ lit', (hσ.repair hspares.1 fun i d hd hdel hneg => ?_).of_markDeletedRaw hc
          (holds_repair hlit)⟩
        obtain ⟨e, he, hlits, hedel⟩ := hshrinks.slots i d hd
        have hholds := hlits ▸ hσ.clauses i d hd hdel
        rw [← hlits] at hneg ⊢
        exact hspec i e he (hedel hdel) hholds hneg

theorem blockedClauseElimination_spec (hrange : InRange p.numVars db) :
    ∃ p' db' k, p.blockedClauseElimination db = some (p', db', k) ∧ p'.numVars = p.numVars ∧ Shrinks db db' k ∧
    (SparesFacts facts (List.range db.length) { p with occurrences := occurrencesOf db } db → SatWith db' facts →
    SatWith db facts) := by
  have hcovers : Covers { p with occurrences := occurrencesOf db } db :=
    fun i c hc hdel l hl => mem_occurrencesOf.mpr ⟨c, hc, hdel, hl⟩
  obtain ⟨p', db', k, hrun, hnum, hshrinks, hsat⟩ := @blockClauses_spec db facts 0 _ (List.range db.length) hcovers
  refine ⟨p', db', k, ?_, hnum, hshrinks, hsat⟩
  rw [blockedClauseElimination, buildOccurrences_isSome hrange]
  refine congrArg some (hrun.trans ?_)
  rw [Nat.zero_add]

section

variable {assigned : List Bool} {total fuel : ℕ}

def RoundSpares (facts : Set ℕ) (p : Preprocessor) (db : List Clause) (assigned : List Bool) : Prop :=
  ∀ p1 db1 n1 p2 db2 n2, p.pureLiteralElimination db assigned = some (p1, db1, n1) →
    p1.subsumptionElimination db1 = some (p2, db2, n2) →
      SparesFacts facts (List.range db2.length) { p2 with occurrences := occurrencesOf db2 } db2

def LoopSpares (facts : Set ℕ) (assigned : List Bool) : ℕ → Preprocessor → List Clause → Prop
  | 0, _, _ => True
  | fuel + 1, p, db =>
    RoundSpares facts p db assigned ∧
      ∀ p' db' n, p.round db assigned = some (p', db', n) → n ≠ 0 → LoopSpares facts assigned fuel p' db'

theorem round_spec (hrange : InRange p.numVars db) (hfacts : ∀ f ∈ facts, assigned.getD (f / 2) false = true) :
    ∃ p' db' k, p.round db assigned = some (p', db', k) ∧ p'.numVars = p.numVars ∧ Shrinks db db' k ∧
    (RoundSpares facts p db assigned → SatWith db' facts → SatWith db facts) := by
  obtain ⟨p1, db1, n1, hpure, hnum1, hpasses1⟩ := pureLiteralElimination_spec hrange hfacts
  have hrange1 : InRange p1.numVars db1 := hnum1 ▸ hpasses1.shrinks.inRange hrange
  obtain ⟨p2, db2, n2, hsub, hnum2, hpasses2⟩ := @subsumptionElimination_spec db1 facts p1 hrange1
  have hrange2 : InRange p2.numVars db2 := hnum2 ▸ hpasses2.shrinks.inRange hrange1
  obtain ⟨p3, db3, n3, hblocked, hnum3, hshrinks3, hsat3⟩ := @blockedClauseElimination_spec db2 facts p2 hrange2
  refine ⟨p3, db3, n1 + n2 + n3, ?_, hnum3.trans (hnum2.trans hnum1),
    (hpasses1.shrinks.trans hpasses2.shrinks).trans hshrinks3, fun hspares h => ?_⟩
  · simp only [Preprocessor.round, hpure, hsub, hblocked, bind_eq_bind, bind_some]
    rfl
  · exact hpasses1.sat (hpasses2.sat (hsat3 (hspares p1 db1 n1 p2 db2 n2 hpure hsub) h))

theorem preprocessLoop_spec (hrange : InRange p.numVars db) (hfacts : ∀ f ∈ facts, assigned.getD (f / 2) false = true)
    (hfuel : liveCount db < fuel) : ∃ p' db' k, preprocessLoop assigned fuel p db total =
    some (p', db', total + k, 0) ∧ Shrinks db db' k ∧
    (LoopSpares facts assigned fuel p db → SatWith db' facts → SatWith db facts) := by
  induction fuel generalizing p db total with
  | zero => exact absurd hfuel (Nat.not_lt_zero _)
  | succ fuel ih =>
    obtain ⟨p1, db1, n, hround, hnum, hshrinks, hsat⟩ := round_spec hrange hfacts
    simp only [preprocessLoop, hround, bind_eq_bind, bind_some]
    split_ifs with hn
    · subst hn
      exact ⟨p1, db1, 0, rfl, hshrinks, fun hspares h => hsat hspares.1 h⟩
    · have hcount := hshrinks.count
      obtain ⟨p2, db2, k, hrun, hshrinks', hsat'⟩ := @ih db1 p1 (total + n)
        (hnum ▸ hshrinks.inRange hrange) (by omega)
      refine ⟨p2, db2, n + k, by rw [hrun, Nat.add_assoc], hshrinks.trans hshrinks', fun hspares h => ?_⟩
      exact hsat hspares.1 (hsat' (hspares.2 p1 db1 n hround hn) h)

/-- Preprocessing ends and keeps satisfiability with the facts, where the clauses are satisfiable with them or none is
removed as blocked on the negation of a fact. -/
theorem preprocess_equisatisfiable (p : Preprocessor) (db : List Clause) (assigned : List Bool) (facts : Set ℕ)
    (hrange : InRange p.numVars db) (hfacts : ∀ f ∈ facts, assigned.getD (f / 2) false = true)
    (h : SatWith db facts ∨ LoopSpares facts assigned (db.length + 1) p db) :
    ∃ p' db' total vars, p.preprocess db assigned = some (p', db', total, vars) ∧
      (SatWith db' facts ↔ SatWith db facts) := by
  have hfuel : liveCount db < db.length + 1 := Nat.lt_succ_of_le countP_le_length
  obtain ⟨p', db', k, hrun, hshrinks, hsat⟩ := @preprocessLoop_spec db facts p assigned 0 _ hrange hfacts hfuel
  refine ⟨p', db', 0 + k, 0, hrun, fun hafter => ?_, fun ⟨σ, hσ⟩ => ⟨σ, hshrinks.models hσ⟩⟩
  rcases h with hbefore | hspares
  · exact hbefore
  · exact hsat hspares hafter

/-- Contradictory clauses and one that is blocked on a fact. -/
def contradictory : List Clause :=
  [{ lits := [0, 2] }, { lits := [0, 3] }, { lits := [1, 2] }, { lits := [1, 3] }, { lits := [4, 0] }]

theorem loopSpares_contradictory : LoopSpares {4} [false, false, true] 6 { numVars := 3 } contradictory := by
  refine ⟨fun p1 db1 n1 p2 db2 n2 hpure hsub => ?_, fun p db n hround _ => ?_⟩
  · cases hpure
    cases hsub
    exact ⟨fun h => absurd (Set.mem_singleton_iff.mp h) (by decide), trivial⟩
  · cases hround
    refine ⟨fun p1 db1 n1 p2 db2 n2 hpure hsub => ?_, fun p db n hround hn => absurd ?_ hn⟩
    · cases hpure
      cases hsub
      trivial
    · cases hround
      rfl

theorem preprocess_equisatisfiable_contradictory : ∃ p' db' total vars,
    preprocess { numVars := 3 } contradictory [false, false, true] = some (p', db', total, vars) ∧
      total = 1 ∧ ¬ SatWith db' {4} := by
  obtain ⟨p', db', total, vars, hrun, hiff⟩ := preprocess_equisatisfiable { numVars := 3 } contradictory
    [false, false, true] {4} (by decide) (by simp) (.inr loopSpares_contradictory)
  refine ⟨p', db', total, vars, hrun, ?_, fun h => ?_⟩
  · cases hrun
    rfl
  · obtain ⟨σ, hσ⟩ := hiff.mp h
    have hfirst : holds σ [0, 2] = true := hσ.clauses 0 _ rfl rfl
    have hsecond : holds σ [0, 3] = true := hσ.clauses 1 _ rfl rfl
    have hthird : holds σ [1, 2] = true := hσ.clauses 2 _ rfl rfl
    have hfourth : holds σ [1, 3] = true := hσ.clauses 3 _ rfl rfl
    cases hv : σ 0 <;> simp_all [holds]

/-- Both literals of a clause are false by the facts, and the clause is removed as blocked on the first. -/
theorem preprocess_forgets_facts : ∃ p' db' total vars,
    preprocess { numVars := 2 } [{ lits := [0, 2] }] [true, true] = some (p', db', total, vars) ∧
      SatWith db' {1, 3} ∧ ¬ SatWith [{ lits := [0, 2] }] {1, 3} := by
  have hrun : ∃ out, preprocess { numVars := 2 } [{ lits := [0, 2] }] [true, true] = some out ∧
      out.2.1 = [{ lits := [0, 2], deleted := true }] := ⟨_, rfl, rfl⟩
  obtain ⟨⟨p', db', total, vars⟩, hout, rfl⟩ := hrun
  refine ⟨p', _, total, vars, hout, ⟨fun _ => false, fun i c hc hlive => ?_, ?_⟩, fun ⟨σ, hσ⟩ => ?_⟩
  · obtain rfl := mem_singleton.mp (mem_of_getElem? hc)
    cases hlive
  · rintro f (rfl | rfl)
    · rfl
    · rfl
  · obtain ⟨l, hl, htrue⟩ := holds_iff.mp (hσ.clauses 0 _ rfl rfl)
    have hfirst : σ 0 = false := hσ.facts 1 (Set.mem_insert _ _)
    have hsecond : σ 1 = false := hσ.facts 3 (Set.mem_insert_of_mem _ rfl)
    rcases mem_cons.mp hl with rfl | hl
    · exact Bool.false_ne_true (hfirst.symm.trans htrue)
    · obtain rfl := mem_singleton.mp hl
      exact Bool.false_ne_true (hsecond.symm.trans htrue)

end

end Nixie.Preprocess
