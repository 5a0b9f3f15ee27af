import Nixie.Undo
import Mathlib.Data.List.Basic
import Mathlib.Algebra.Group.Nat.Defs

/-!
The disequalities of the e-graph. Each one is watched at the roots of its two sides, and carries
the pair of these roots.
-/

namespace Nixie.Euf

open Undo List Option

structure Diseq where
  lhs : ℕ
  rhs : ℕ
  reason : ℕ
  cachedPair : ℕ × ℕ

inductive DiseqPairTrailEntry
  | asserted (idx : ℕ)
  | rewrote (idx : ℕ) (old : ℕ × ℕ)

def orderedPair (a b : ℕ) : ℕ × ℕ := if a ≤ b then (a, b) else (b, a)

theorem orderedPair_comm (a b : ℕ) : orderedPair a b = orderedPair b a := by
  unfold orderedPair
  grind

theorem orderedPair_cases (a b : ℕ) : orderedPair a b = (a, b) ∨ orderedPair a b = (b, a) := by
  unfold orderedPair
  grind

theorem orderedPair_le {a b : ℕ} : (orderedPair a b).1 ≤ (orderedPair a b).2 := by
  unfold orderedPair
  split
  · next hle => exact hle
  · next hlt => exact (Nat.lt_of_not_le hlt).le

def incDiseqPair (counts : ℕ × ℕ → ℕ) (key : ℕ × ℕ) : ℕ × ℕ → ℕ :=
  Function.update counts key (min (counts key + 1) (2 ^ 32 - 1))

def decDiseqPair (counts : ℕ × ℕ → ℕ) (key : ℕ × ℕ) : ℕ × ℕ → ℕ :=
  Function.update counts key (counts key - 1)

structure Disequalities where
  diseqs : List Diseq := []
  diseqWatch : TrailedLists ℕ := {}
  diseqPairCounts : ℕ × ℕ → ℕ := fun _ => 0
  diseqPairTrail : List DiseqPairTrailEntry := []
  pendingDiseqConflict : Option ℕ := none

namespace Disequalities

def setPair (idx : ℕ) (pair : ℕ × ℕ) (diseqs : List Diseq) : List Diseq :=
  diseqs.modify idx fun q => { q with cachedPair := pair }

def diseqWatchPush (d : Disequalities) (inScope : Bool) (rep idx : ℕ) : Disequalities :=
  { d with diseqWatch := d.diseqWatch.push inScope rep idx }

def addDiseq (d : Disequalities) (inScope : Bool) (q : Diseq) : Disequalities :=
  { d with
    diseqPairCounts := incDiseqPair d.diseqPairCounts q.cachedPair
    diseqPairTrail :=
      if inScope then .asserted d.diseqs.length :: d.diseqPairTrail else d.diseqPairTrail
    diseqs := d.diseqs ++ [q] }

def assertDiseq (d : Disequalities) (inScope : Bool) (a b reason ra rb : ℕ) : Disequalities :=
  let idx := d.diseqs.length
  let d := (d.addDiseq inScope ⟨a, b, reason, orderedPair ra rb⟩).diseqWatchPush inScope ra idx
  if ra ≠ rb then d.diseqWatchPush inScope rb idx
  else if d.pendingDiseqConflict = none then { d with pendingDiseqConflict := some idx }
  else d

def newPair (rootA rootB newRoot : ℕ) (old : ℕ × ℕ) : ℕ × ℕ :=
  (if old.1 = rootA ∨ old.1 = rootB then newRoot else old.1,
    if old.2 = rootA ∨ old.2 = rootB then newRoot else old.2)

def rewritePair (inScope : Bool) (rootA rootB newRoot idx : ℕ) (d : Disequalities) :
    Disequalities :=
  match d.diseqs[idx]? with
  | none => d
  | some q =>
    let old := q.cachedPair
    let new := newPair rootA rootB newRoot old
    if new = old then d
    else
      { d with
        diseqPairCounts := incDiseqPair (decDiseqPair d.diseqPairCounts old) new
        diseqs := setPair idx new d.diseqs
        diseqPairTrail :=
          if inScope then .rewrote idx old :: d.diseqPairTrail else d.diseqPairTrail }

def rewritePairs (inScope : Bool) (rootA rootB newRoot : ℕ) :
    List ℕ → List ℕ → Disequalities → Disequalities
  | _, [], d => d
  | seen, idx :: watched, d =>
    if idx ∈ seen then rewritePairs inScope rootA rootB newRoot seen watched d
    else
      rewritePairs inScope rootA rootB newRoot (idx :: seen) watched
        (rewritePair inScope rootA rootB newRoot idx d)

def violated (d : Disequalities) (idx : ℕ) : Bool :=
  match d.diseqs[idx]? with
  | none => false
  | some q => q.cachedPair.1 = q.cachedPair.2

def migrateWatches (inScope : Bool) (newRoot : ℕ) : List ℕ → Disequalities → Disequalities
  | [], d => d
  | idx :: watched, d =>
    let d := if d.pendingDiseqConflict = none ∧ d.violated idx then
        { d with pendingDiseqConflict := some idx } else d
    migrateWatches inScope newRoot watched (d.diseqWatchPush inScope newRoot idx)

def mergeClasses (d : Disequalities) (inScope : Bool) (rootA rootB newRoot otherRoot : ℕ) :
    Disequalities :=
  let watched := d.diseqWatch.lists newRoot ++ d.diseqWatch.lists otherRoot
  let d := rewritePairs inScope rootA rootB newRoot [] watched d
  migrateWatches inScope newRoot (d.diseqWatch.lists otherRoot) d

def undoPair : DiseqPairTrailEntry → List Diseq × (ℕ × ℕ → ℕ) → List Diseq × (ℕ × ℕ → ℕ)
  | .asserted idx, (diseqs, counts) =>
    match diseqs[idx]? with
    | none => (diseqs, counts)
    | some q => (diseqs, decDiseqPair counts q.cachedPair)
  | .rewrote idx old, (diseqs, counts) =>
    match diseqs[idx]? with
    | none => (diseqs, counts)
    | some q => (setPair idx old diseqs, incDiseqPair (decDiseqPair counts q.cachedPair) old)

def rewind (d : Disequalities) (numDiseqs numNodes watchLimit pairLimit : ℕ)
    (pendingDiseqConflict : Option ℕ) : Disequalities :=
  let pairs := unwind undoPair pairLimit d.diseqPairTrail (d.diseqs, d.diseqPairCounts)
  { diseqs := pairs.1.take numDiseqs
    diseqWatch := d.diseqWatch.rewind numNodes watchLimit
    diseqPairCounts := pairs.2
    diseqPairTrail := keep pairLimit d.diseqPairTrail
    pendingDiseqConflict := pendingDiseqConflict }

def undoDiseqs : DiseqPairTrailEntry → List Diseq → List Diseq
  | .asserted _, diseqs => diseqs
  | .rewrote idx old, diseqs => setPair idx old diseqs

structure Extends (k n : ℕ) (d d' : Disequalities) : Prop where
  watch : d.diseqWatch.Extends n d'.diseqWatch
  pair : Undo.Extends undoDiseqs d.diseqPairTrail (d.diseqs.take k) d'.diseqPairTrail
    (d'.diseqs.take k)

variable {d d' d'' : Disequalities} {k n a b reason ra rb idx rootA rootB newRoot : ℕ}
  {diseqs : List Diseq} {inScope : Bool}

theorem Extends.refl : d.Extends k n d := ⟨.refl, .refl⟩

theorem Extends.trans (h : d.Extends k n d') (h' : d'.Extends k n d'') : d.Extends k n d'' :=
  ⟨h.watch.trans h'.watch, h.pair.trans h'.pair⟩

theorem undoPair_fst {e : DiseqPairTrailEntry} {state : List Diseq × (ℕ × ℕ → ℕ)} :
    (undoPair e state).1 = undoDiseqs e state.1 := by
  obtain ⟨diseqs, counts⟩ := state
  cases e with
  | asserted idx =>
    simp only [undoPair, undoDiseqs]
    split <;> rfl
  | rewrote idx old =>
    simp only [undoPair, undoDiseqs]
    split
    · next hnone =>
      rw [setPair, modify_eq_self (getElem?_eq_none_iff.mp hnone)]
    · rfl

theorem undoDiseqs_take {e : DiseqPairTrailEntry} : undoDiseqs e (diseqs.take k) = (undoDiseqs e diseqs).take k := by
  cases e with
  | asserted idx => rfl
  | rewrote idx old => exact (take_modify ..).symm

theorem setPair_setPair {q : Diseq} {pair : ℕ × ℕ} (hq : diseqs[idx]? = some q) :
    setPair idx q.cachedPair (setPair idx pair diseqs) = diseqs := by
  ext1 i
  unfold setPair
  rw [getElem?_modify, getElem?_modify]
  by_cases hi : idx = i
  · subst hi
    simp [hq]
  · simp [hi]

theorem extends_diseqWatchPush {rep : ℕ} : d.Extends k n (d.diseqWatchPush true rep idx) :=
  ⟨TrailedLists.extends_push, .refl⟩

theorem extends_assertDiseq (hk : k ≤ d.diseqs.length) : d.Extends k n (d.assertDiseq true a b reason ra rb) := by
  have hadded : d.Extends k n (d.addDiseq true ⟨a, b, reason, orderedPair ra rb⟩) :=
    ⟨.refl, .cons (take_append_of_le_length hk)⟩
  unfold assertDiseq
  dsimp only
  split
  · exact (hadded.trans extends_diseqWatchPush).trans extends_diseqWatchPush
  · split
    · exact (hadded.trans extends_diseqWatchPush).trans ⟨.refl, .refl⟩
    · exact hadded.trans extends_diseqWatchPush

theorem extends_rewritePair : d.Extends k n (rewritePair true rootA rootB newRoot idx d) := by
  unfold rewritePair
  split
  · exact .refl
  · next q hq =>
    dsimp only
    split
    · exact .refl
    · refine ⟨.refl, .cons ?_⟩
      rw [undoDiseqs_take, undoDiseqs, setPair_setPair hq]

theorem extends_rewritePairs {seen watched : List ℕ} :
    d.Extends k n (rewritePairs true rootA rootB newRoot seen watched d) := by
  induction watched generalizing seen d with
  | nil => exact .refl
  | cons idx watched ih =>
    unfold rewritePairs
    split
    · exact ih
    · exact extends_rewritePair.trans ih

theorem extends_migrateWatches {watched : List ℕ} : d.Extends k n (migrateWatches true newRoot watched d) := by
  induction watched generalizing d with
  | nil => exact .refl
  | cons idx watched ih =>
    refine .trans ?_ ih
    split
    · exact ⟨TrailedLists.extends_push, .refl⟩
    · exact extends_diseqWatchPush

theorem extends_mergeClasses {otherRoot : ℕ} : d.Extends k n (d.mergeClasses true rootA rootB newRoot otherRoot) :=
  extends_rewritePairs.trans extends_migrateWatches

theorem Extends.rewind_eq (h : d.Extends d.diseqs.length n d')
    (hout : ∀ i, n ≤ i → d.diseqWatch.lists i = []) :
    let d₀ := d'.rewind d.diseqs.length n d.diseqWatch.trail.length d.diseqPairTrail.length
      d.pendingDiseqConflict
    d₀ = { d with diseqPairCounts := d₀.diseqPairCounts } := by
  have hfst : (unwind undoPair d.diseqPairTrail.length d'.diseqPairTrail
      (d'.diseqs, d'.diseqPairCounts)).1.take d.diseqs.length = d.diseqs := by
    rw [← unwind_map (f := Prod.fst) fun e state => undoPair_fst.symm,
      ← unwind_map (f := List.take d.diseqs.length) fun e diseqs => undoDiseqs_take,
      h.pair.unwind_eq, take_length]
  simp only [rewind, hfst, h.watch.rewind_eq hout, h.pair.keep_eq]

section

def Cached (root : ℕ → ℕ) (q : Diseq) : Prop :=
  q.cachedPair = (root q.lhs, root q.rhs) ∨ q.cachedPair = (root q.rhs, root q.lhs)

structure Watched (root : ℕ → ℕ) (d : Disequalities) : Prop where
  lhs : ∀ (i : ℕ) q, d.diseqs[i]? = some q → i ∈ d.diseqWatch.lists (root q.lhs)
  rhs : ∀ (i : ℕ) q, d.diseqs[i]? = some q → i ∈ d.diseqWatch.lists (root q.rhs)

structure Pending (root : ℕ → ℕ) (d : Disequalities) : Prop where
  quiet : d.pendingDiseqConflict = none → ∀ q ∈ d.diseqs, root q.lhs ≠ root q.rhs
  conflict : ∀ i : ℕ, d.pendingDiseqConflict = some i →
    ∃ q, d.diseqs[i]? = some q ∧ root q.lhs = root q.rhs

structure Tracks (root : ℕ → ℕ) (d : Disequalities) : Prop where
  watched : d.Watched root
  cached : ∀ (i : ℕ) q, d.diseqs[i]? = some q → Cached root q
  pending : d.Pending root

variable {root : ℕ → ℕ} {otherRoot : ℕ} {q : Diseq}

theorem Cached.fst_eq_snd (h : Cached root q) : q.cachedPair.1 = q.cachedPair.2 ↔ root q.lhs = root q.rhs := by
  rcases h with h | h
  · rw [h]
  · rw [h, eq_comm]

theorem cached_orderedPair : Cached root ⟨a, b, reason, orderedPair (root a) (root b)⟩ := by
  unfold Cached orderedPair
  split
  · exact .inl rfl
  · exact .inr rfl

variable {r : ℕ}

theorem diseqWatchPush_lists {rep : ℕ} : (d.diseqWatchPush inScope rep idx).diseqWatch.lists r = if r =
    rep then d.diseqWatch.lists rep ++ [idx] else d.diseqWatch.lists r :=
  TrailedLists.push_lists

variable {i : ℕ}

theorem mem_diseqWatchPush {rep : ℕ} : i ∈ (d.diseqWatchPush inScope rep idx).diseqWatch.lists r ↔
    i ∈ d.diseqWatch.lists r ∨ r = rep ∧ i = idx := by
  rw [diseqWatchPush_lists]
  split
  · next h => simp [h]
  · next h => simp [h]

theorem assertDiseq_diseqs : (d.assertDiseq inScope a b reason ra rb).diseqs =
    d.diseqs ++ [⟨a, b, reason, orderedPair ra rb⟩] := by
  unfold assertDiseq
  dsimp only
  split
  · rfl
  · split <;> rfl

theorem mem_assertDiseq_watch : i ∈ (d.assertDiseq inScope a b reason ra rb).diseqWatch.lists r ↔
    i ∈ d.diseqWatch.lists r ∨ (r = ra ∨ r = rb) ∧ i = d.diseqs.length := by
  unfold assertDiseq
  dsimp only
  split
  · rw [mem_diseqWatchPush, mem_diseqWatchPush]
    tauto
  · next heq =>
    have hr : r = ra ∨ r = rb ↔ r = ra := by simp [not_not.mp heq]
    rw [hr]
    split <;> exact mem_diseqWatchPush

theorem assertDiseq_pending : (d.assertDiseq inScope a b reason ra rb).pendingDiseqConflict =
    if ra = rb ∧ d.pendingDiseqConflict = none then some d.diseqs.length
    else d.pendingDiseqConflict := by
  unfold assertDiseq
  dsimp only
  split
  · next hne =>
    rw [if_neg fun h => hne h.1]
    rfl
  · next heq =>
    have heq := not_not.mp heq
    split
    · next hnone => rw [if_pos ⟨heq, hnone⟩]
    · next hsome =>
      rw [if_neg fun h => hsome h.2]
      rfl

theorem getElem?_assertDiseq (h : (d.assertDiseq inScope a b reason ra rb).diseqs[i]? = some q) :
    d.diseqs[i]? = some q ∨ i = d.diseqs.length ∧ q = ⟨a, b, reason, orderedPair ra rb⟩ := by
  rw [assertDiseq_diseqs] at h
  grind

theorem Tracks.assertDiseq (h : d.Tracks root) : (d.assertDiseq inScope a b reason (root a) (root b)).Tracks root := by
  refine ⟨⟨fun i q hq => ?_, fun i q hq => ?_⟩, fun i q hq => ?_, ⟨fun hp => ?_, fun i hp => ?_⟩⟩
  · rw [mem_assertDiseq_watch]
    obtain hold | ⟨rfl, rfl⟩ := getElem?_assertDiseq hq
    · exact .inl (h.watched.lhs i q hold)
    · exact .inr ⟨.inl rfl, rfl⟩
  · rw [mem_assertDiseq_watch]
    obtain hold | ⟨rfl, rfl⟩ := getElem?_assertDiseq hq
    · exact .inl (h.watched.rhs i q hold)
    · exact .inr ⟨.inr rfl, rfl⟩
  · obtain hold | ⟨rfl, rfl⟩ := getElem?_assertDiseq hq
    · exact h.cached i q hold
    · exact cached_orderedPair
  · rw [assertDiseq_pending] at hp
    rw [assertDiseq_diseqs]
    split at hp
    · cases hp
    · next hne =>
      intro q hq
      rcases List.mem_append.mp hq with hq | hq
      · exact h.pending.quiet hp q hq
      · rw [List.mem_singleton.mp hq]
        exact fun heq => hne ⟨heq, hp⟩
  · rw [assertDiseq_pending] at hp
    rw [assertDiseq_diseqs]
    split at hp
    · next heq =>
      cases hp
      exact ⟨_, getElem?_concat_length, heq.1⟩
    · obtain ⟨q, hq, hroot⟩ := h.pending.conflict i hp
      exact ⟨q, getElem?_append_left (List.getElem?_eq_some_iff.mp hq).1 ▸ hq, hroot⟩

theorem getElem?_rewritePair : (rewritePair inScope rootA rootB newRoot idx d).diseqs[i]? =
    (d.diseqs[i]?).map fun q => if i =
    idx then { q with cachedPair := newPair rootA rootB newRoot q.cachedPair } else q := by
  unfold rewritePair
  split
  · next hnone =>
    by_cases hi : i = idx
    · subst hi
      simp [hnone]
    · simp [hi]
  · next q hq =>
    dsimp only
    split
    · next heq =>
      by_cases hi : i = idx
      · subst hi
        simp [hq, heq]
      · simp [hi]
    · by_cases hi : i = idx
      · subst hi
        simp [setPair, hq]
      · simp [setPair, hi, Ne.symm hi]

@[simp]
theorem rewritePair_diseqWatch : (rewritePair inScope rootA rootB newRoot idx d).diseqWatch = d.diseqWatch := by
  unfold rewritePair
  split
  · rfl
  · dsimp only
    split <;> rfl

@[simp]
theorem rewritePair_pending : (rewritePair inScope rootA rootB newRoot idx d).pendingDiseqConflict =
    d.pendingDiseqConflict := by
  unfold rewritePair
  split
  · rfl
  · dsimp only
    split <;> rfl

variable {watched : List ℕ} {seen : List ℕ}

theorem getElem?_rewritePairs : (rewritePairs inScope rootA rootB newRoot seen watched d).diseqs[i]? =
    (d.diseqs[i]?).map fun q => if i ∈ watched ∧
    i ∉ seen then { q with cachedPair := newPair rootA rootB newRoot q.cachedPair } else q := by
  induction watched generalizing seen d with
  | nil => simp [rewritePairs]
  | cons idx watched ih =>
    unfold rewritePairs
    split
    · next hseen =>
      have hmem : i ∈ idx :: watched ∧ i ∉ seen ↔ i ∈ watched ∧ i ∉ seen := by
        grind
      simp only [ih, hmem]
    · next hseen =>
      rw [ih, getElem?_rewritePair, Option.map_map]
      congr 1
      funext q
      grind

@[simp]
theorem rewritePairs_diseqWatch : (rewritePairs inScope rootA rootB newRoot seen watched d).diseqWatch =
    d.diseqWatch := by
  induction watched generalizing seen d with
  | nil => rfl
  | cons idx watched ih =>
    unfold rewritePairs
    split
    · exact ih
    · exact ih.trans rewritePair_diseqWatch

@[simp]
theorem rewritePairs_pending : (rewritePairs inScope rootA rootB newRoot seen watched d).pendingDiseqConflict =
    d.pendingDiseqConflict := by
  induction watched generalizing seen d with
  | nil => rfl
  | cons idx watched ih =>
    unfold rewritePairs
    split
    · exact ih
    · exact ih.trans rewritePair_pending

@[simp]
theorem migrateWatches_diseqs : (migrateWatches inScope newRoot watched d).diseqs = d.diseqs := by
  induction watched generalizing d with
  | nil => rfl
  | cons idx watched ih =>
    refine ih.trans ?_
    split <;> rfl

theorem mem_migrateWatches : i ∈ (migrateWatches inScope newRoot watched d).diseqWatch.lists r ↔
    i ∈ d.diseqWatch.lists r ∨ r = newRoot ∧ i ∈ watched := by
  induction watched generalizing d with
  | nil => simp [migrateWatches]
  | cons idx watched ih =>
    have hwatch : ∀ d' : Disequalities, d'.diseqWatch = d.diseqWatch →
        (i ∈ (migrateWatches inScope newRoot watched
          (d'.diseqWatchPush inScope newRoot idx)).diseqWatch.lists r ↔
          i ∈ d.diseqWatch.lists r ∨ r = newRoot ∧ i ∈ idx :: watched) := by
      intro d' hd'
      rw [ih, mem_diseqWatchPush, hd', mem_cons]
      tauto
    unfold migrateWatches
    split
    · exact hwatch _ rfl
    · exact hwatch _ rfl

theorem violated_congr (h : d'.diseqs = d.diseqs) : d'.violated = d.violated := by
  funext i
  unfold violated
  rw [h]

theorem migrateWatches_pending : (migrateWatches inScope newRoot watched d).pendingDiseqConflict =
    d.pendingDiseqConflict.or (watched.find? d.violated) := by
  induction watched generalizing d with
  | nil => simp [migrateWatches]
  | cons idx watched ih =>
    unfold migrateWatches
    split
    · next h =>
      rw [ih, violated_congr (d := d) rfl, h.1, find?_cons_of_pos h.2]
      rfl
    · next h =>
      have hviolated : (d.diseqWatchPush inScope newRoot idx).violated = d.violated := violated_congr rfl
      have hpending : (d.diseqWatchPush inScope newRoot idx).pendingDiseqConflict = d.pendingDiseqConflict := rfl
      rw [ih, hviolated, hpending]
      cases hp : d.pendingDiseqConflict with
      | none => rw [find?_cons_of_neg fun hv => h ⟨hp, hv⟩]
      | some i => rfl

theorem violated_iff (hq : d.diseqs[i]? = some q) (hcached : Cached root q) : d.violated i ↔
    root q.lhs = root q.rhs := by
  unfold violated
  simp only [hq, decide_eq_true_eq]
  exact hcached.fst_eq_snd

theorem newPair_eq {old : ℕ × ℕ}
    (hroots : ∀ r, r = rootA ∨ r = rootB ↔ r = newRoot ∨ r = otherRoot) :
    newPair rootA rootB newRoot old = (if old.1 = otherRoot then newRoot else old.1,
      if old.2 = otherRoot then newRoot else old.2) := by
  unfold newPair
  simp only [hroots]
  grind

theorem mergeClasses_pending : (d.mergeClasses inScope rootA rootB newRoot otherRoot).pendingDiseqConflict =
    d.pendingDiseqConflict.or ((d.diseqWatch.lists otherRoot).find?
    (d.mergeClasses inScope rootA rootB newRoot otherRoot).violated) := by
  have hviolated : (d.mergeClasses inScope rootA rootB newRoot otherRoot).violated =
      (rewritePairs inScope rootA rootB newRoot []
        (d.diseqWatch.lists newRoot ++ d.diseqWatch.lists otherRoot) d).violated :=
    violated_congr migrateWatches_diseqs
  rw [hviolated]
  unfold mergeClasses
  rw [migrateWatches_pending, rewritePairs_pending, rewritePairs_diseqWatch]

theorem map_mergeClasses {α : Type*} {f : Diseq → α}
    (hf : ∀ q pair, f { q with cachedPair := pair } = f q) :
    (d.mergeClasses inScope rootA rootB newRoot otherRoot).diseqs.map f = d.diseqs.map f := by
  ext1 i
  unfold mergeClasses
  rw [migrateWatches_diseqs, getElem?_map, getElem?_map, getElem?_rewritePairs, Option.map_map]
  congr 1
  funext q
  dsimp only [Function.comp]
  split
  · exact hf q _
  · rfl

theorem length_mergeClasses :
    (d.mergeClasses inScope rootA rootB newRoot otherRoot).diseqs.length = d.diseqs.length := by
  have hmap : (d.mergeClasses inScope rootA rootB newRoot otherRoot).diseqs.map Diseq.lhs =
      d.diseqs.map Diseq.lhs := map_mergeClasses fun _ _ => rfl
  have hlen := congrArg List.length hmap
  rwa [length_map, length_map] at hlen

theorem mem_mergeClasses : i ∈ (d.mergeClasses inScope rootA rootB newRoot otherRoot).diseqWatch.lists r ↔
    i ∈ d.diseqWatch.lists r ∨ r = newRoot ∧ i ∈ d.diseqWatch.lists otherRoot := by
  unfold mergeClasses
  rw [mem_migrateWatches, rewritePairs_diseqWatch]

section

variable {root' : ℕ → ℕ}
  (hroots : ∀ r, r = rootA ∨ r = rootB ↔ r = newRoot ∨ r = otherRoot)
  (hroot' : ∀ x, root' x = if root x = otherRoot then newRoot else root x)

include hroots hroot'

theorem Cached.newPair (h : Cached root q) :
    Cached root' { q with cachedPair := newPair rootA rootB newRoot q.cachedPair } := by
  unfold Cached
  simp only [newPair_eq hroots, hroot']
  rcases h with h | h
  · rw [h]
    exact .inl rfl
  · rw [h]
    exact .inr rfl

omit hroot' in
theorem cachedPair_mergeClasses (h : d.Tracks root) {i : ℕ}
    (hq : (d.mergeClasses inScope rootA rootB newRoot otherRoot).diseqs[i]? = some q) :
    ∃ pair, d.diseqs[i]? = some { q with cachedPair := pair } ∧
      q.cachedPair = newPair rootA rootB newRoot pair := by
  unfold mergeClasses at hq
  rw [migrateWatches_diseqs, getElem?_rewritePairs] at hq
  obtain ⟨q₀, hq₀, heq⟩ := map_eq_some_iff.mp hq
  split at heq
  · subst heq
    exact ⟨q₀.cachedPair, hq₀, rfl⟩
  · next hfree =>
    subst heq
    refine ⟨q₀.cachedPair, hq₀, ?_⟩
    have hlhs : root q₀.lhs ≠ otherRoot := fun heq =>
      hfree ⟨mem_append_right _ (heq ▸ h.watched.lhs i q₀ hq₀), by simp⟩
    have hrhs : root q₀.rhs ≠ otherRoot := fun heq =>
      hfree ⟨mem_append_right _ (heq ▸ h.watched.rhs i q₀ hq₀), by simp⟩
    rw [newPair_eq hroots]
    rcases h.cached i q₀ hq₀ with hc | hc
    · rw [hc, if_neg hlhs, if_neg hrhs]
    · rw [hc, if_neg hlhs, if_neg hrhs]

theorem getElem?_mergeClasses (h : d.Tracks root) {i : ℕ}
    (hq : (d.mergeClasses inScope rootA rootB newRoot otherRoot).diseqs[i]? = some q) :
    Cached root' q ∧ ∃ pair, d.diseqs[i]? = some { q with cachedPair := pair } := by
  obtain ⟨pair, hold, hpair⟩ := cachedPair_mergeClasses hroots h hq
  have hcached := (h.cached i _ hold).newPair hroots hroot'
  dsimp only at hcached
  rw [← hpair] at hcached
  exact ⟨hcached, pair, hold⟩

omit hroots in
theorem mem_mergeClasses_watch {x i : ℕ} (h : i ∈ d.diseqWatch.lists (root x)) :
    i ∈ (d.mergeClasses inScope rootA rootB newRoot otherRoot).diseqWatch.lists (root' x) := by
  rw [mem_mergeClasses, hroot']
  split
  · next heq => exact .inr ⟨rfl, heq ▸ h⟩
  · exact .inl h

theorem Tracks.mergeClasses (h : d.Tracks root) :
    (d.mergeClasses inScope rootA rootB newRoot otherRoot).Tracks root' := by
  have hget (i : ℕ) (q : Diseq)
      (hq : (d.mergeClasses inScope rootA rootB newRoot otherRoot).diseqs[i]? = some q) :=
    getElem?_mergeClasses hroots hroot' h hq
  refine ⟨⟨fun i q hq => ?_, fun i q hq => ?_⟩, fun i q hq => (hget i q hq).1, ⟨fun hp => ?_, fun i hp => ?_⟩⟩
  · obtain ⟨-, pair, hold⟩ := hget i q hq
    have hlhs := h.watched.lhs i _ hold
    exact mem_mergeClasses_watch hroot' hlhs
  · obtain ⟨-, pair, hold⟩ := hget i q hq
    have hrhs := h.watched.rhs i _ hold
    exact mem_mergeClasses_watch hroot' hrhs
  · rw [mergeClasses_pending, or_eq_none_iff, find?_eq_none] at hp
    obtain ⟨hnone, hfind⟩ := hp
    intro q hq heq
    obtain ⟨i, hq⟩ := mem_iff_getElem?.mp hq
    obtain ⟨hcached, pair, hold⟩ := hget i q hq
    have hne := h.pending.quiet hnone _ (mem_of_getElem? hold)
    have hlhs := h.watched.lhs i _ hold
    have hrhs := h.watched.rhs i _ hold
    have hother : i ∈ d.diseqWatch.lists otherRoot := by
      rw [hroot', hroot'] at heq
      dsimp only at hne hlhs hrhs
      split at heq
      · next hl => exact hl ▸ hlhs
      · split at heq
        · next hr => exact hr ▸ hrhs
        · exact absurd heq hne
    exact hfind i hother ((violated_iff hq hcached).mpr heq)
  · rw [mergeClasses_pending, or_eq_some_iff] at hp
    rcases hp with hp | ⟨-, hp⟩
    · obtain ⟨q₀, hq₀, heq⟩ := h.pending.conflict i hp
      obtain ⟨q, hq⟩ :
          ∃ q, (d.mergeClasses inScope rootA rootB newRoot otherRoot).diseqs[i]? = some q := by
        unfold Disequalities.mergeClasses
        rw [migrateWatches_diseqs, getElem?_rewritePairs, hq₀]
        exact ⟨_, rfl⟩
      obtain ⟨-, pair, hold⟩ := hget i q hq
      rw [hq₀, some.injEq] at hold
      subst hold
      exact ⟨q, hq, by rw [hroot', hroot', heq]⟩
    · have hv := find?_some hp
      unfold violated at hv
      split at hv
      · cases hv
      · next q hq =>
        obtain ⟨hcached, -⟩ := hget i q hq
        exact ⟨q, hq, hcached.fst_eq_snd.mp (by simpa using hv)⟩

end

end

end Disequalities

end Nixie.Euf
