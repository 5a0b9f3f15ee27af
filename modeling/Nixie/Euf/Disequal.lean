import Nixie.Euf.Index

/-!
The index over the disequalities in all runs: what it says is justified unless two classes carry one
value, and it misses nothing as long as no union turns a key around.
-/

namespace Nixie.Euf

open Undo UnionFind Disequalities List Function

structure FpValueIds where
  fpValueIds : ℕ × ℕ × Bool × ℕ × ℕ → Option ℕ := fun _ => none
  nextValueId : ℕ := 0

def FpValueIds.freshValueId (ids : FpValueIds) : Option (FpValueIds × ℕ) :=
  if ids.nextValueId + 1 < 2 ^ 32 then some ({ ids with nextValueId := ids.nextValueId + 1 }, ids.nextValueId)
  else none

namespace EufSolver

def declareFpConst (s : EufSolver) (ids : FpValueIds) (term : ℕ) (key : ℕ × ℕ × Bool × ℕ × ℕ) :
    Option (FpValueIds × EufSolver) :=
  match ids.fpValueIds key with
  | some id => some (ids, s.declareValueConst term id)
  | none =>
    ids.freshValueId.map fun (ids, id) =>
      ({ ids with fpValueIds := update ids.fpValueIds key (some id) }, s.declareValueConst term id)

def rootsValueApart (s : EufSolver) (ra rb : ℕ) : Bool :=
  match s.values.classValue ra, s.values.classValue rb with
  | some x, some y => x ≠ y
  | _, _ => false

def areProvenDisequal (s : EufSolver) (a b : ℕ) : Bool :=
  let ra := s.root a
  let rb := s.root b
  ra ≠ rb ∧ (s.diseqs.diseqPairCounts (orderedPair ra rb) ≠ 0 ∨ s.rootsValueApart ra rb)

def sides (s : EufSolver) : List (ℕ × ℕ) := s.diseqs.diseqs.map fun q => (q.lhs, q.rhs)

end EufSolver

open EufSolver

/-- The states that are reached by calls on a new solver in which every union meets the condition,
with the disequalities that are asserted in them and in the states in which the open scopes were
entered. -/
inductive Runs (C : EufSolver → ℕ → ℕ → Prop) :
    EufSolver → List (ℕ × ℕ) → List (List (ℕ × ℕ)) → Prop
  | init : Runs C {} [] []
  | registerFunction {s D σ} (func : ℕ)
      (props : FunctionProperties) : Runs C s D σ → Runs C (s.registerFunction func props) D σ
  | declareValueConst {s D σ} (term value : ℕ) :
      Runs C s D σ → Runs C (s.declareValueConst term value) D σ
  | declareFpConst {s s' D σ ids ids'}
      (term : ℕ) (key : ℕ × ℕ × Bool × ℕ × ℕ) : s.declareFpConst ids term key = some (ids', s') →
      Runs C s D σ → Runs C s' D σ
  | intern {s D σ} (term : ℕ) :
      Runs C s D σ → Runs C (s.intern term).1 D σ
  | internApp {s D σ} (term func : ℕ) (args : List ℕ) :
      (∀ x ∈ args, x < s.nodes.length) → InternUnions C s term func args → Runs C s D σ →
      Runs C (s.internApp term func args).1 D σ
  | merge {s D σ} (a b reason : ℕ) :
      a < s.nodes.length → b < s.nodes.length → MergeUnions C s (a, b, .assertion reason) →
      Runs C s D σ → Runs C (s.merge a b reason) D σ
  | assertDiseq {s D σ} (a b reason : ℕ) :
      a < s.nodes.length → b < s.nodes.length → D.length + 1 < 2 ^ 32 →
      Runs C s D σ → Runs C (s.assertDiseq a b reason) (D ++ [(a, b)]) σ
  | find {s D σ} (a : ℕ) :
      Runs C s D σ → Runs C (s.find a).1 D σ
  | tryExplainEquality {s D σ} (a b : ℕ) :
      Runs C s D σ → Runs C (s.tryExplainEquality a b).1 D σ
  | checkConflicts {s D σ} :
      Runs C s D σ → Runs C s.checkConflicts.1 D σ
  | push {s D σ} :
      Runs C s D σ → Runs C s.push D (D :: σ)
  | pop {s D E σ} :
      Runs C s D (E :: σ) → Runs C s.pop E σ
  | popNone {s D} : Runs C s D [] → Runs C s.pop D []
  | reset {s D σ} :
      Runs C s D σ → Runs C s.reset [] []

namespace EufSolver

variable {C : EufSolver → ℕ → ℕ → Prop} {s s' t : EufSolver} {D E : List (ℕ × ℕ)} {σ : List (List (ℕ × ℕ))}
  {a b : ℕ}

def Entered (C : EufSolver → ℕ → ℕ → Prop) : List (List (ℕ × ℕ)) → EufSolver → Prop
  | [], s => s.contextStack = []
  | D :: σ, s => ∃ entry, Fits C entry ∧ entry.pending = [] ∧ entry.sides = D ∧ Follows entry.push s ∧
      Entered C σ entry

theorem Entered.follow (h : Entered C σ s) (hfollows : Follows s s') : Entered C σ s' := by
  cases σ with
  | nil => exact hfollows.contextStack.trans h
  | cons D σ =>
    obtain ⟨entry, hfits, hpending, hsides, hentry, hentered⟩ := h
    exact ⟨entry, hfits, hpending, hsides, hentry.trans hfollows, hentered⟩

theorem fits_reset : Fits C s.reset where
  uf := ⟨by simp [reset], fun x _ => ⟨rfl, rfl⟩, fun x hx => absurd rfl hx, le_rfl⟩
  limits := rfl
  pending := by simp [reset, Live]
  sigs := ⟨⟨by simp [reset], by simp [reset]⟩, fun _ _ => rfl⟩
  watch _ _ := rfl
  tracks := ⟨⟨by simp [reset], by simp [reset]⟩, by simp [reset], ⟨by simp [reset], by simp [reset]⟩⟩
  few := by simp [reset, Few]
  counted := fun key => rfl
  ordered _ := by simp [reset, Ordered]
  classValue _ _ := rfl
  values := ⟨fun _ => none, ⟨by simp [reset], by simp, by simp [reset]⟩, by simp⟩

theorem Fits.push (h : Fits C s) : Fits C s.push :=
  { h with
    uf := ⟨h.uf.lt, h.uf.out, h.uf.rank, h.uf.size⟩
    limits := by simp only [EufSolver.push, UnionFind.push, length_cons, h.limits] }

theorem Fits.registerFunction (h : Fits C s) {func : ℕ} {props : FunctionProperties} :
    Fits C (s.registerFunction func props) ∧ Follows s (s.registerFunction func props) :=
  ⟨{ h with }, { Follows.refl s with }⟩

theorem follows_declareValueConst {term value : ℕ} : Follows s (s.declareValueConst term value) :=
  { Follows.refl s with
    valueConsts := fun term' v hv => by
      simp only [declareValueConst, update_apply]
      split
      · next heq =>
        rw [← heq, hv]
        rfl
      · exact hv }

theorem Fits.declareValueConst (h : Fits C s) {term value : ℕ} :
    Fits C (s.declareValueConst term value) ∧ Follows s (s.declareValueConst term value) := by
  refine ⟨{ h with values := ?_ }, follows_declareValueConst⟩
  obtain ⟨mark, hmark, hdeclared⟩ := h.values
  exact ⟨mark, hmark, fun x v hv => follows_declareValueConst.declaredValue (hdeclared x v hv)⟩

theorem Entered.pop (h : Entered C (E :: σ) t) (ht : Fits C t) :
    Fits C t.pop ∧ t.pop.pending = [] ∧ t.pop.sides = E ∧ Entered C σ t.pop := by
  obtain ⟨e, he, hpending, rfl, hfollows, hentered⟩ := h
  have hscope : e.push.inScope := rfl
  have hnodes : t.nodes.take e.nodes.length = e.nodes := by
    obtain ⟨added, hadded⟩ := hfollows.nodes
    have hadded : e.nodes ++ added = t.nodes := hadded
    rw [← hadded, take_left]
  have huf : t.uf.pop = { e.uf with size := t.uf.size } :=
    UnionFind.Extends.pop_eq (hfollows.uf hscope) hfollows.trailLimits
  have hsigs := (hfollows.sigs hscope e.nodes.length le_rfl).rewind_eq he.sigs.out
  have hvalues := (hfollows.values hscope e.nodes.length le_rfl).rewind_eq he.classValue
  have hdiseqs := (hfollows.diseqs hscope e.nodes.length le_rfl e.diseqs.diseqs.length le_rfl).rewind_eq he.watch
  have hcounted := @Counted.rewind e.diseqs t.diseqs e.nodes.length e.diseqs.diseqWatch.trail.length
    e.diseqs.pendingDiseqConflict ht.counted ht.few (hfollows.logged hscope)
  have hpop : t.pop = { t.pop with
      contextStack := e.contextStack
      pending := []
      diseqs := { e.diseqs with diseqPairCounts := t.pop.diseqs.diseqPairCounts }
      nodes := e.nodes
      uf := { e.uf with size := t.uf.size }
      values := e.values
      sigs := e.sigs
      valueConsts := t.valueConsts } := by
    unfold pop
    rw [hfollows.contextStack]
    simp only [push] at hsigs hvalues hdiseqs ⊢
    simp only [EufSolver.mk.injEq, hnodes, huf, hsigs, hvalues, true_and, and_true]
    exact hdiseqs
  have hcounts : Counted { e.diseqs with diseqPairCounts := t.pop.diseqs.diseqPairCounts } := by
    unfold pop
    rw [hfollows.contextStack]
    simp only [push] at hdiseqs hcounted ⊢
    rw [hdiseqs] at hcounted
    exact hcounted
  have hfollows' : Follows e t.pop := by
    rw [hpop]
    exact { Follows.refl e with
      valueConsts := hfollows.valueConsts
      diseqs := fun _ _ _ _ _ => ⟨.refl, .refl⟩
      logged := fun _ => ⟨[], rfl, rfl⟩ }
  have hsize : e.nodes.length ≤ t.uf.size := hfollows.nodes.length_le.trans ht.uf.size
  have hwf : ({ e.uf with size := t.uf.size } : UnionFind).WF e.nodes.length :=
    ⟨he.uf.lt, he.uf.out, he.uf.rank, hsize⟩
  have hroot : ({ e.uf with size := t.uf.size } : UnionFind).findNoCompress = e.root :=
    hwf.root_eq (fun x hx => root_of_fixed hx) fun x => he.uf.root_parent
  refine ⟨?_, by rw [hpop], by rw [hpop]; rfl, hentered.follow hfollows'⟩
  have hvalues : ∃ mark, e.values.Summarizes mark e.root ∧ ∀ x v, mark x = some v → t.pop.declaredValue x = some v := by
    obtain ⟨mark, hmark, hdeclared⟩ := he.values
    exact ⟨mark, hmark, fun x v hv => hfollows'.declaredValue (hdeclared x v hv)⟩
  rw [hpop] at hvalues ⊢
  exact
    { uf := hwf
      limits := he.limits
      pending := by simp [Live]
      sigs := he.sigs
      watch := he.watch
      tracks := by
        rw [root, hroot]
        exact ⟨⟨he.tracks.watched.lhs, he.tracks.watched.rhs⟩, he.tracks.cached, he.tracks.pending.quiet,
          he.tracks.pending.conflict⟩
      few := he.few
      counted := hcounts
      ordered := he.ordered
      classValue := he.classValue
      values := by
        rw [root, hroot]
        exact hvalues }

section

variable {fuel term func : ℕ} {args : List ℕ} {reason : MergeReason}

theorem sides_applyMerge : (s.applyMerge a b reason).sides = s.sides := by
  have happly : s.applyMerge a b reason =
      updateUsers (s.unite a b reason (s.root a) (s.root b) (s.winner a b) (s.loser a b)) (s.winner a b)
        (s.loser a b) := rfl
  rw [sides, happly, updateUsers, migrateUses_eq]
  exact map_mergeClasses fun _ _ => rfl

theorem sides_propagateLoop : (s.propagateLoop fuel).sides = s.sides := by
  induction fuel generalizing s with
  | zero => rfl
  | succ fuel ih =>
    unfold propagateLoop
    split
    · rfl
    · exact ih.trans sides_applyMerge

theorem sides_internApp : (s.internApp term func args).1.sides = s.sides := by
  have hadded : (s.addApp term func args).1.sides = s.sides := (congrArg sides registerUses_eq).trans rfl
  cases hterm : s.termToNode term with
  | some idx => rw [internApp, hterm]
  | none =>
    rw [internApp_eq hterm]
    split
    · next t _ existing heq =>
      rw [heq] at hadded
      exact sides_propagateLoop.trans hadded
    · next heq =>
      rw [heq] at hadded
      exact hadded

theorem sides_assertDiseq {why : ℕ} : (s.assertDiseq a b why).sides = s.sides ++ [(a, b)] := by
  rw [sides, assertDiseq, assertDiseq_diseqs, map_append]
  rfl

end

end EufSolver

section

variable {C : EufSolver → ℕ → ℕ → Prop} {s : EufSolver} {D : List (ℕ × ℕ)} {σ : List (List (ℕ × ℕ))}

theorem Runs.fits (h : Runs C s D σ) : Fits C s ∧ s.pending = [] ∧ s.sides = D ∧ Entered C σ s := by
  induction h with
  | init => exact ⟨fits_reset (s := {}), rfl, rfl, rfl⟩
  | registerFunction func props _ ih =>
    obtain ⟨hfits, hpending, hsides, hentered⟩ := ih
    obtain ⟨hfits, hfollows⟩ := @Fits.registerFunction _ _ hfits func props
    exact ⟨hfits, hpending, hsides, hentered.follow hfollows⟩
  | declareValueConst term value _ ih =>
    obtain ⟨hfits, hpending, hsides, hentered⟩ := ih
    obtain ⟨hfits, hfollows⟩ := @Fits.declareValueConst _ _ hfits term value
    exact ⟨hfits, hpending, hsides, hentered.follow hfollows⟩
  | @declareFpConst s _ _ _ ids _ term key hdeclared _ ih =>
    obtain ⟨hfits, hpending, hsides, hentered⟩ := ih
    have hdeclare (id : ℕ) := @Fits.declareValueConst _ _ hfits term id
    unfold EufSolver.declareFpConst at hdeclared
    split at hdeclared
    · next id _ =>
      obtain ⟨-, rfl⟩ := Prod.mk.inj (Option.some.inj hdeclared)
      exact ⟨(hdeclare id).1, hpending, hsides, hentered.follow (hdeclare id).2⟩
    · obtain ⟨⟨ids, id⟩, -, heq⟩ := Option.map_eq_some_iff.mp hdeclared
      obtain ⟨-, rfl⟩ := Prod.mk.inj heq
      exact ⟨(hdeclare id).1, hpending, hsides, hentered.follow (hdeclare id).2⟩
  | @intern s _ _ term _ ih =>
    obtain ⟨hfits, hpending, hsides, hentered⟩ := ih
    obtain ⟨hfits, hfollows⟩ := @Fits.intern _ _ term hfits
    have hsame : (s.intern term).1.pending = s.pending ∧ (s.intern term).1.sides = s.sides := by
      unfold EufSolver.intern
      split
      · exact ⟨rfl, rfl⟩
      · exact ⟨rfl, rfl⟩
    exact ⟨hfits, hsame.1.trans hpending, hsame.2.trans hsides, hentered.follow hfollows⟩
  | internApp term func args _ hC _ ih =>
    obtain ⟨hfits, hpending, hsides, hentered⟩ := ih
    obtain ⟨hfits, hfollows, hdone⟩ := hfits.internApp hpending hC
    exact ⟨hfits, hdone, sides_internApp.trans hsides, hentered.follow hfollows⟩
  | merge a b reason ha hb hC _ ih =>
    obtain ⟨hfits, hpending, hsides, hentered⟩ := ih
    obtain ⟨hfits, hfollows, hdone⟩ := hfits.mergePending ⟨ha, hb⟩ hC
    exact ⟨hfits, hdone, sides_propagateLoop.trans hsides, hentered.follow hfollows⟩
  | assertDiseq a b reason ha hb hfew _ ih =>
    obtain ⟨hfits, hpending, rfl, hentered⟩ := ih
    rw [sides, length_map] at hfew
    obtain ⟨hfits, hfollows⟩ := @Fits.assertDiseq _ _ _ _ reason hfits ha hb hfew
    exact ⟨hfits, hpending, sides_assertDiseq, hentered.follow hfollows⟩
  | find a _ ih =>
    obtain ⟨hfits, hpending, hsides, hentered⟩ := ih
    obtain ⟨hfits, hfollows⟩ := @Fits.find _ _ a hfits
    exact ⟨hfits, hpending, hsides, hentered.follow hfollows⟩
  | @tryExplainEquality s _ _ a b _ ih =>
    obtain ⟨hfits, hpending, hsides, hentered⟩ := ih
    obtain ⟨cache, hcache⟩ := @tryExplainEquality_fst s a b
    rw [hcache]
    exact ⟨hfits.withCache.1, hpending, hsides, hentered.follow hfits.withCache.2⟩
  | @checkConflicts s _ _ _ ih =>
    obtain ⟨hfits, hpending, hsides, hentered⟩ := ih
    obtain ⟨cache, hcache⟩ := @checkConflicts_fst s
    rw [hcache]
    exact ⟨hfits.withCache.1, hpending, hsides, hentered.follow hfits.withCache.2⟩
  | push _ ih =>
    obtain ⟨hfits, hpending, hsides, hentered⟩ := ih
    exact ⟨hfits.push, hpending, hsides, _, hfits, hpending, hsides, .refl _, hentered⟩
  | pop _ ih =>
    obtain ⟨hfits, -, -, hentered⟩ := ih
    exact hentered.pop hfits
  | @popNone s _ _ ih =>
    have hpop : s.pop = s := by
      have hstack : s.contextStack = [] := ih.2.2.2
      rw [EufSolver.pop, hstack]
    rw [hpop]
    exact ih
  | reset _ _ => exact ⟨fits_reset, rfl, rfl, rfl⟩

end

namespace EufSolver

def Separated (s : EufSolver) (D : List (ℕ × ℕ)) (a b : ℕ) : Prop :=
  ∃ p ∈ D, s.root p.1 = s.root a ∧ s.root p.2 = s.root b ∨ s.root p.1 = s.root b ∧ s.root p.2 = s.root a

def ValuesDiffer (s : EufSolver) (a b : ℕ) : Prop :=
  ∃ x y v w, s.root x = s.root a ∧ s.root y = s.root b ∧ s.declaredValue x = some v ∧
    s.declaredValue y = some w ∧ v ≠ w

def ShareValue (s : EufSolver) (a b : ℕ) : Prop :=
  s.root a ≠ s.root b ∧ ∃ v wa wb, s.values.classValue (s.root a) = some (v, wa) ∧
    s.values.classValue (s.root b) = some (v, wb)

def Indexed (s : EufSolver) (D : List (ℕ × ℕ)) : Prop :=
  (∀ key, s.diseqs.diseqPairCounts key = D.countP fun p => orderedPair (s.root p.1) (s.root p.2) = key) ∧
    ∀ a b, s.root a ≠ s.root b → s.Separated D a b → s.areProvenDisequal a b = true

end EufSolver

section

variable {C : EufSolver → ℕ → ℕ → Prop} {s : EufSolver} {D : List (ℕ × ℕ)} {σ : List (List (ℕ × ℕ))}
  {a b ra rb : ℕ} {q : Diseq} {root : ℕ → ℕ}

theorem separated_iff (hsides : s.sides = D) :
    s.Separated D a b ↔ ∃ q ∈ s.diseqs.diseqs, Joins s.root q (s.root a) (s.root b) := by
  subst hsides
  simp only [Separated, sides, mem_map, exists_exists_and_eq_and, Joins]

theorem joins_of_orderedPair (hc : Cached root q) (heq : q.cachedPair = orderedPair ra rb) : Joins root q ra rb := by
  unfold Cached at hc
  unfold Joins
  unfold orderedPair at heq
  grind

theorem cachedPair_eq_iff (hc : Cached root q) :
    q.cachedPair = orderedPair (root q.lhs) (root q.rhs) ↔ q.cachedPair.1 ≤ q.cachedPair.2 := by
  constructor
  · intro heq
    rw [heq]
    exact orderedPair_le
  · intro hle
    unfold orderedPair
    rcases hc with hc | hc
    · rw [hc] at hle ⊢
      exact (if_pos hle).symm
    · rw [hc] at hle ⊢
      split
      · next hle' => rw [Nat.le_antisymm hle' hle]
      · rfl

theorem areProvenDisequal_iff : s.areProvenDisequal a b = true ↔ s.root a ≠ s.root b ∧
    (s.diseqs.diseqPairCounts (orderedPair (s.root a) (s.root b)) ≠ 0 ∨
    ∃ x y, s.values.classValue (s.root a) = some x ∧ s.values.classValue (s.root b) = some y ∧ x ≠ y) := by
  have happart : s.rootsValueApart (s.root a) (s.root b) = true ↔
      ∃ x y, s.values.classValue (s.root a) = some x ∧ s.values.classValue (s.root b) = some y ∧ x ≠ y := by
    unfold rootsValueApart
    split
    · next x y hx hy => simp [hx, hy]
    · next hnot =>
      simp only [Bool.false_eq_true, false_iff, not_exists, not_and, not_not]
      exact fun x y hx hy => absurd hy (hnot x y hx)
  unfold areProvenDisequal
  rw [decide_eq_true_iff, happart]

theorem EufSolver.Fits.count_ne_zero_iff (h : Fits C s) {key : ℕ × ℕ} :
    s.diseqs.diseqPairCounts key ≠ 0 ↔ ∃ q ∈ s.diseqs.diseqs, q.cachedPair = key := by
  rw [h.counted.eq_countP, ← Nat.pos_iff_ne_zero, countP_pos_iff]
  simp only [decide_eq_true_eq]

theorem EufSolver.Fits.cached (h : Fits C s) (hq : q ∈ s.diseqs.diseqs) : Cached s.root q := by
  obtain ⟨i, hi⟩ := mem_iff_getElem?.mp hq
  exact h.tracks.cached i q hi

/-- What is said to be proven is proven, if two classes with one value are not told apart by their
witnesses alone. -/
theorem provenDisequal_justified_iff (h : Runs C s D σ) (a b : ℕ) :
    (s.areProvenDisequal a b = true → s.Separated D a b ∨ s.ValuesDiffer a b) ↔
      (s.ShareValue a b → s.Separated D a b ∨ s.ValuesDiffer a b) := by
  obtain ⟨hfits, -, hsides, -⟩ := h.fits
  obtain ⟨mark, hmark, hdeclared⟩ := hfits.values
  rw [areProvenDisequal_iff]
  constructor
  · rintro hproven ⟨hne, v, wa, wb, hwa, hwb⟩
    refine hproven ⟨hne, .inr ⟨_, _, hwa, hwb, fun heq => hne ?_⟩⟩
    have hrootA : s.root wa = s.root a := (hmark.witness _ v wa hfits.uf.root_root hwa).1
    have hrootB : s.root wb = s.root b := (hmark.witness _ v wb hfits.uf.root_root hwb).1
    rw [← hrootA, ← hrootB, (Prod.mk.inj heq).2]
  · rintro hshare ⟨hne, hcount | ⟨⟨v, wa⟩, ⟨w, wb⟩, hwa, hwb, -⟩⟩
    · obtain ⟨q, hq, hpair⟩ := hfits.count_ne_zero_iff.mp hcount
      exact .inl ((separated_iff hsides).mpr ⟨q, hq, joins_of_orderedPair (hfits.cached hq) hpair⟩)
    · obtain ⟨hrootA, hmarkA⟩ := hmark.witness _ v wa hfits.uf.root_root hwa
      obtain ⟨hrootB, hmarkB⟩ := hmark.witness _ w wb hfits.uf.root_root hwb
      by_cases hvw : v = w
      · exact hshare ⟨hne, v, wa, wb, hwa, hvw ▸ hwb⟩
      · exact .inr ⟨wa, wb, v, w, hrootA, hrootB, hdeclared _ _ hmarkA, hdeclared _ _ hmarkB, hvw⟩

def twoSpellings : EufSolver :=
  ((((({} : EufSolver).declareValueConst 10 0).declareValueConst 11 0).intern 10).1.intern 11).1

theorem runs_twoSpellings : Runs C twoSpellings [] [] := by
  have hfirst : Runs C (({} : EufSolver).declareValueConst 10 0) [] [] :=
    @Runs.declareFpConst C {} _ [] [] {} _ 10 (8, 24, false, 0, 0) rfl .init
  have hsecond : Runs C ((({} : EufSolver).declareValueConst 10 0).declareValueConst 11 0) [] [] :=
    @Runs.declareFpConst C _ _ [] [] ⟨update (fun _ => none) (8, 24, false, 0, 0) (some 0), 1⟩ _ 11
      (8, 24, false, 0, 0) rfl hfirst
  exact .intern 11 (.intern 10 hsecond)

theorem provenDisequal_justified_iff_twoSpellings :
    (twoSpellings.areProvenDisequal 0 1 = true → twoSpellings.Separated [] 0 1 ∨ twoSpellings.ValuesDiffer 0 1) ↔
      (twoSpellings.ShareValue 0 1 → twoSpellings.Separated [] 0 1 ∨ twoSpellings.ValuesDiffer 0 1) :=
  provenDisequal_justified_iff (@runs_twoSpellings fun _ _ _ => True) 0 1

theorem not_provenDisequal_justified : ¬ ∀ s D σ, Runs (fun _ _ _ => True) s D σ → ∀ a b,
    s.areProvenDisequal a b = true → s.Separated D a b ∨ s.ValuesDiffer a b := by
  intro h
  obtain ⟨p, hp, -⟩ | ⟨x, y, v, w, -, -, hx, hy, hne⟩ := h twoSpellings [] [] runs_twoSpellings 0 1 rfl
  · cases hp
  · have hdeclared (x v : ℕ) (hv : twoSpellings.declaredValue x = some v) : v = 0 := by
      match x with
      | 0 => exact (Option.some.inj hv).symm
      | 1 => exact (Option.some.inj hv).symm
      | x + 2 => cases hv
    exact hne ((hdeclared x v hx).trans (hdeclared y w hy).symm)

theorem EufSolver.Fits.indexed (h : Fits C s) (hsides : s.sides = D) (hordered : s.diseqs.Ordered) : s.Indexed D := by
  have hpair (q : Diseq) (hq : q ∈ s.diseqs.diseqs) :
      q.cachedPair = orderedPair (s.root q.lhs) (s.root q.rhs) :=
    (cachedPair_eq_iff (h.cached hq)).mpr (hordered q hq)
  constructor
  · intro key
    rw [h.counted.eq_countP, ← hsides, sides, countP_map]
    refine countP_congr fun q hq => ?_
    simp only [comp, hpair q hq]
  · intro a b hne hsep
    obtain ⟨q, hq, hjoins⟩ := (separated_iff hsides).mp hsep
    refine areProvenDisequal_iff.mpr ⟨hne, .inl (h.count_ne_zero_iff.mpr ⟨q, hq, ?_⟩)⟩
    rw [hpair q hq]
    rcases hjoins with ⟨hl, hr⟩ | ⟨hl, hr⟩
    · rw [hl, hr]
    · rw [hl, hr]
      exact orderedPair_comm _ _

/-- The index is exact as long as its keys are ordered, and they are if no union turns one around. -/
theorem indexed_iff (h : Runs C s D σ) : (s.Indexed D ↔ s.diseqs.Ordered) ∧
    ((∀ t a b, C t a b → t.KeepsSides a b) → s.Indexed D) := by
  obtain ⟨hfits, -, hsides, -⟩ := h.fits
  refine ⟨⟨fun hindexed q hq => ?_, hfits.indexed hsides⟩, fun hC => hfits.indexed hsides (hfits.ordered hC)⟩
  have hcount := hfits.count_ne_zero_iff.mpr ⟨q, hq, rfl⟩
  rw [hindexed.1, ← Nat.pos_iff_ne_zero, countP_pos_iff] at hcount
  obtain ⟨p, -, hp⟩ := hcount
  rw [← of_decide_eq_true hp]
  exact orderedPair_le

def apart : EufSolver := (((((({} : EufSolver).intern 10).1.intern 11).1).intern 12).1).assertDiseq 0 1 5

theorem runs_apart : Runs C apart [(0, 1)] [] :=
  .assertDiseq 0 1 5 (by decide) (by decide) (by decide) (.intern 12 (.intern 11 (.intern 10 .init)))

theorem indexed_iff_apart : (apart.Indexed [(0, 1)] ↔ apart.diseqs.Ordered) ∧
    ((∀ t a b, EufSolver.KeepsSides t a b → t.KeepsSides a b) → apart.Indexed [(0, 1)]) :=
  indexed_iff runs_apart

theorem unions_of_forall {fuel : ℕ} (hC : ∀ s a b, C s a b) : Unions C fuel s := by
  induction fuel generalizing s with
  | zero => trivial
  | succ fuel ih =>
    unfold Unions
    split
    · trivial
    · exact ⟨hC _ _ _, ih⟩

/-- The third constant absorbs the first one, and the key of the disequality becomes (2, 1). -/
theorem not_indexed : ¬ ∀ s D σ, Runs (fun _ _ _ => True) s D σ → s.Indexed D := by
  intro h
  have hruns : Runs (fun _ _ _ => True) (apart.merge 2 0 6) [(0, 1)] [] :=
    .merge 2 0 6 (by decide) (by decide) (unions_of_forall fun _ _ _ => trivial) runs_apart
  have hproven := (h _ _ _ hruns).2 0 1 (by decide) ⟨(0, 1), by decide, .inl ⟨rfl, rfl⟩⟩
  cases hproven

end

end Nixie.Euf
