import Nixie.Euf.Disequalities

/-!
The counts of the pairs: below the bound of the counters every pair is counted once for each
disequality that carries it, and leaving a scope undoes the counts with the pairs.
-/

namespace Nixie.Euf

open Undo List Function

theorem countP_modify_add {α : Type*} {l : List α} {i : ℕ} {f : α → α} {p : α → Bool} {a : α}
    (h : l[i]? = some a) :
    (l.modify i f).countP p + (if p a then 1 else 0) = l.countP p + if p (f a) then 1 else 0 := by
  induction l generalizing i with
  | nil => cases h
  | cons b l ih =>
    cases i with
    | zero =>
      obtain rfl : b = a := Option.some.inj h
      rw [modify_zero_cons, countP_cons, countP_cons]
      omega
    | succ i =>
      rw [modify_succ_cons, countP_cons, countP_cons]
      have := ih h
      omega

namespace Disequalities

variable {d d' d'' : Disequalities} {diseqs : List Diseq} {counts : ℕ × ℕ → ℕ} {k k' idx : ℕ} {q : Diseq}
  {new : ℕ × ℕ} {seg seg' : List DiseqPairTrailEntry}

def CountsTo (k : ℕ) (diseqs : List Diseq) (counts : ℕ × ℕ → ℕ) : Prop :=
  ∀ key, counts key = (diseqs.take k).countP fun q => q.cachedPair = key

def Few (d : Disequalities) : Prop := d.diseqs.length < 2 ^ 32

theorem incDiseqPair_of_lt {key : ℕ × ℕ} (h : counts key + 1 < 2 ^ 32) :
    incDiseqPair counts key = update counts key (counts key + 1) := by
  rw [incDiseqPair, Nat.min_eq_left (Nat.le_sub_one_of_lt h)]

theorem CountsTo.move (h : CountsTo k diseqs counts) (hk : k < 2 ^ 32) (hidx : idx < k) (hq : diseqs[idx]? = some q) :
    CountsTo k (setPair idx new diseqs) (incDiseqPair (decDiseqPair counts q.cachedPair) new) := by
  have hq' : (diseqs.take k)[idx]? = some q := by rw [getElem?_take_of_lt hidx, hq]
  have hmoved (key : ℕ × ℕ) : ((setPair idx new diseqs).take k).countP (fun q => q.cachedPair = key) +
      (if q.cachedPair = key then 1 else 0) = counts key + if new = key then 1 else 0 := by
    rw [setPair, take_modify, h key]
    simpa only [decide_eq_true_eq] using
      @countP_modify_add _ _ _ (fun q => { q with cachedPair := new }) (fun q => q.cachedPair = key) _ hq'
  have hle : ((setPair idx new diseqs).take k).countP (fun q => q.cachedPair = new) ≤ k :=
    countP_le_length.trans (length_take_le k _)
  have hbound : decDiseqPair counts q.cachedPair new + 1 ≤ k := by
    have hnew := hmoved new
    rw [if_pos rfl] at hnew
    rw [decDiseqPair, update_apply]
    by_cases hqn : new = q.cachedPair
    · rw [if_pos hqn.symm] at hnew
      rw [if_pos hqn, ← hqn]
      have hpos : 0 < counts new := by
        rw [h new, countP_pos_iff]
        exact ⟨q, mem_of_getElem? hq', decide_eq_true hqn.symm⟩
      omega
    · rw [if_neg (Ne.symm hqn)] at hnew
      rw [if_neg hqn]
      omega
  rw [incDiseqPair_of_lt (hbound.trans_lt hk)]
  intro key
  have hkey := hmoved key
  rw [update_apply, decDiseqPair, update_apply, update_apply]
  have hpos : q.cachedPair = key → 0 < counts key := by
    intro hqk
    rw [h key, countP_pos_iff]
    exact ⟨q, mem_of_getElem? hq', decide_eq_true hqk⟩
  clear hbound hmoved hle hk
  grind

theorem CountsTo.drop (h : CountsTo (idx + 1) diseqs counts) (hq : diseqs[idx]? = some q) :
    CountsTo idx diseqs (decDiseqPair counts q.cachedPair) := by
  obtain ⟨hlt, hget⟩ := List.getElem?_eq_some_iff.mp hq
  intro key
  have hkey := h key
  rw [take_succ_eq_append_getElem hlt, hget, countP_append, countP_singleton] at hkey
  rw [decDiseqPair, Function.update_apply]
  by_cases hqk : key = q.cachedPair
  · subst hqk
    simp only [decide_true, ↓reduceIte] at hkey ⊢
    omega
  · have hne : ¬ q.cachedPair = key := fun heq => hqk heq.symm
    simp only [hne, decide_false, Bool.false_eq_true, ↓reduceIte, Nat.add_zero] at hkey
    rw [if_neg hqk, hkey]

def Counted (d : Disequalities) : Prop := CountsTo d.diseqs.length d.diseqs d.diseqPairCounts

theorem Counted.eq_countP (h : d.Counted) (key : ℕ × ℕ) :
    d.diseqPairCounts key = d.diseqs.countP fun q => q.cachedPair = key := by
  rw [h key, take_length]

def Undoes : List DiseqPairTrailEntry → ℕ → ℕ → Prop
  | [], k, k' => k = k'
  | .asserted idx :: seg, k, k' => k = idx + 1 ∧ Undoes seg idx k'
  | .rewrote idx _ :: seg, k, k' => idx < k ∧ Undoes seg k k'

theorem Undoes.append {k'' : ℕ} (h : Undoes seg k k') (h' : Undoes seg' k' k'') : Undoes (seg ++ seg') k k'' := by
  induction seg generalizing k with
  | nil =>
    obtain rfl : k = k' := h
    exact h'
  | cons e seg ih =>
    cases e with
    | asserted idx => exact ⟨h.1, ih h.2⟩
    | rewrote idx old => exact ⟨h.1, ih h.2⟩

theorem Undoes.countsTo {trail : List DiseqPairTrailEntry} (h : Undoes seg k k') (hk : k < 2 ^ 32)
    (hlen : k ≤ diseqs.length) (hcounts : CountsTo k diseqs counts) :
    CountsTo k' (unwind undoPair trail.length (seg ++ trail) (diseqs, counts)).1
    (unwind undoPair trail.length (seg ++ trail) (diseqs, counts)).2 := by
  induction seg generalizing k diseqs counts with
  | nil =>
    obtain rfl : k = k' := h
    rwa [nil_append, unwind_length]
  | cons e seg ih =>
    rw [cons_append, unwind_cons (by simp)]
    cases e with
    | asserted idx =>
      obtain ⟨rfl, h⟩ := h
      have hq : diseqs[idx]? = some diseqs[idx] := getElem?_eq_getElem hlen
      rw [undoPair, hq]
      exact ih h (by omega) (by omega) (hcounts.drop hq)
    | rewrote idx old =>
      obtain ⟨hidx, h⟩ := h
      obtain ⟨q, hq⟩ : ∃ q, diseqs[idx]? = some q := ⟨_, getElem?_eq_getElem (hidx.trans_le hlen)⟩
      rw [undoPair, hq]
      refine ih h hk ?_ (hcounts.move hk hidx hq)
      rw [setPair, length_modify]
      exact hlen

def Logged (d d' : Disequalities) : Prop :=
  ∃ seg, d'.diseqPairTrail = seg ++ d.diseqPairTrail ∧ Undoes seg d'.diseqs.length d.diseqs.length

theorem Logged.refl : Logged d d := ⟨[], rfl, rfl⟩

theorem Logged.trans (h : Logged d d') (h' : Logged d' d'') : Logged d d'' := by
  obtain ⟨seg, htrail, hundoes⟩ := h
  obtain ⟨seg', htrail', hundoes'⟩ := h'
  exact ⟨seg' ++ seg, by rw [htrail', htrail, append_assoc], hundoes'.append hundoes⟩

theorem Counted.rewind {n watchLimit : ℕ} {pending : Option ℕ} (h : d'.Counted) (hfew : d'.Few) (hlog : Logged d d') :
    (d'.rewind d.diseqs.length n watchLimit d.diseqPairTrail.length pending).Counted := by
  obtain ⟨seg, htrail, hundoes⟩ := hlog
  have hcounts := @Undoes.countsTo _ _ _ _ _ d.diseqPairTrail hundoes hfew le_rfl h
  rw [← htrail] at hcounts
  intro key
  rw [take_length]
  exact hcounts key

section

variable {inScope : Bool} {a b reason ra rb rootA rootB newRoot otherRoot : ℕ}

theorem assertDiseq_pairs : (d.assertDiseq inScope a b reason ra rb).diseqPairCounts =
      incDiseqPair d.diseqPairCounts (orderedPair ra rb) ∧
    (d.assertDiseq inScope a b reason ra rb).diseqPairTrail =
      if inScope then .asserted d.diseqs.length :: d.diseqPairTrail else d.diseqPairTrail := by
  unfold assertDiseq
  dsimp only
  split
  · exact ⟨rfl, rfl⟩
  · split
    · exact ⟨rfl, rfl⟩
    · exact ⟨rfl, rfl⟩

theorem Counted.assertDiseq (h : d.Counted) (hfew : d.diseqs.length + 1 < 2 ^ 32) :
    (d.assertDiseq inScope a b reason ra rb).Counted := by
  intro key
  rw [take_length, assertDiseq_diseqs, assertDiseq_pairs.1, incDiseqPair, update_apply,
    countP_append, countP_singleton, h.eq_countP, h.eq_countP]
  have hle : (d.diseqs.countP fun q => q.cachedPair = orderedPair ra rb) ≤ d.diseqs.length := countP_le_length
  by_cases hkey : key = orderedPair ra rb
  · subst hkey
    simp only [decide_true, ↓reduceIte]
    omega
  · have hne : ¬ orderedPair ra rb = key := fun heq => hkey heq.symm
    simp only [if_neg hkey, hne, decide_false, Bool.false_eq_true, ↓reduceIte, Nat.add_zero]

theorem logged_assertDiseq : Logged d (d.assertDiseq true a b reason ra rb) := by
  refine ⟨[.asserted d.diseqs.length], assertDiseq_pairs.2, ?_, rfl⟩
  rw [assertDiseq_diseqs, length_append, length_singleton]

theorem length_rewritePair : (rewritePair inScope rootA rootB newRoot idx d).diseqs.length = d.diseqs.length := by
  unfold rewritePair
  split
  · rfl
  · dsimp only
    split
    · rfl
    · rw [setPair, length_modify]

theorem Counted.rewritePair (h : d.Counted) (hfew : d.Few) :
    (rewritePair inScope rootA rootB newRoot idx d).Counted := by
  unfold Disequalities.rewritePair
  split
  · exact h
  · next q hq =>
    dsimp only
    split
    · exact h
    · have hidx := (List.getElem?_eq_some_iff.mp hq).1
      have hmoved := @CountsTo.move _ _ _ _ _ (newPair rootA rootB newRoot q.cachedPair) h hfew hidx hq
      unfold Counted
      simp only [setPair, length_modify] at hmoved ⊢
      exact hmoved

theorem logged_rewritePair : Logged d (rewritePair true rootA rootB newRoot idx d) := by
  unfold rewritePair
  split
  · exact .refl
  · next q hq =>
    dsimp only
    split
    · exact .refl
    · refine ⟨[.rewrote idx q.cachedPair], rfl, ?_, ?_⟩
      · rw [setPair, length_modify]
        exact (List.getElem?_eq_some_iff.mp hq).1
      · exact length_modify ..

theorem Counted.rewritePairs {seen watched : List ℕ} (h : d.Counted) (hfew : d.Few) :
    (rewritePairs inScope rootA rootB newRoot seen watched d).Counted := by
  induction watched generalizing seen d with
  | nil => exact h
  | cons idx watched ih =>
    unfold Disequalities.rewritePairs
    split
    · exact ih h hfew
    · refine ih (h.rewritePair hfew) ?_
      rw [Few, length_rewritePair]
      exact hfew

theorem logged_rewritePairs {seen watched : List ℕ} :
    Logged d (rewritePairs true rootA rootB newRoot seen watched d) := by
  induction watched generalizing seen d with
  | nil => exact .refl
  | cons idx watched ih =>
    unfold rewritePairs
    split
    · exact ih
    · exact logged_rewritePair.trans ih

theorem migrateWatches_pairs {watched : List ℕ} : (migrateWatches inScope newRoot watched d).diseqPairCounts =
    d.diseqPairCounts ∧ (migrateWatches inScope newRoot watched d).diseqPairTrail = d.diseqPairTrail := by
  induction watched generalizing d with
  | nil => exact ⟨rfl, rfl⟩
  | cons idx watched ih =>
    unfold migrateWatches
    split
    · exact ih
    · exact ih

theorem Counted.mergeClasses (h : d.Counted) (hfew : d.Few) :
    (d.mergeClasses inScope rootA rootB newRoot otherRoot).Counted := by
  unfold Disequalities.mergeClasses Counted
  rw [migrateWatches_pairs.1, migrateWatches_diseqs]
  exact h.rewritePairs hfew

theorem logged_mergeClasses : Logged d (d.mergeClasses true rootA rootB newRoot otherRoot) := by
  unfold mergeClasses Logged
  rw [migrateWatches_pairs.2, migrateWatches_diseqs]
  exact logged_rewritePairs

end

end Disequalities

end Nixie.Euf
