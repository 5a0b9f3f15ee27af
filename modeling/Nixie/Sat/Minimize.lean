import Mathlib.Data.List.Sort
import Mathlib.Logic.Function.Iterate
import Nixie.Sat.HyperBinary

/-!
Minimization of a learned clause, `nixie-sat/src/solver/conflict.rs`: a literal goes when its reasons lead to kept
literals and facts of level 0.  The search is recursive when a proof is written and has a stack of its own otherwise.
Counters and the hints of the proof are left out.
-/

namespace Nixie.Sat

open Nixie.Literal Function

structure MinimizeFlags where
  keep : Bool := false
  removable : Bool := false
  poison : Bool := false
  deriving DecidableEq

structure Analysis where
  learnt : List ℕ := []
  currentConflictLevel : ℕ := 0
  seenLevelCount : List ℕ := []
  seenLevelTrail : List ℕ := []
  flags : ℕ → MinimizeFlags := fun _ => {}
  minimized : List ℕ := []

namespace Analysis

def setKeep (a : Analysis) (var : ℕ) : Analysis :=
  { a with flags := update a.flags var { a.flags var with keep := true } }

def settle (a : Analysis) (var : ℕ) (res : Bool) : Analysis :=
  { a with
    flags := update a.flags var
      (if res then { a.flags var with removable := true } else { a.flags var with poison := true })
    minimized := a.minimized ++ [var] }

def clearMinimizeFlags (a : Analysis) : Analysis :=
  { a with
    flags := fun var =>
      { keep := (a.flags var).keep && var ∉ a.learnt.map (· / 2)
        removable := (a.flags var).removable && var ∉ a.minimized
        poison := (a.flags var).poison && var ∉ a.minimized }
    minimized := [] }

end Analysis

namespace Solver

def minimizeReasonLits (s : Solver) (head : ℕ) : Option (List ℕ) :=
  match s.trail.reason (head / 2) with
  | .propagation id => (s.clauses id).bind fun c => if head ∈ c.lits then some (c.lits.filter (· ≠ head)) else none
  | _ => none

def minimizeDepthLimit : ℕ := 100

/-- An early answer, or the literals of the reason to go through. -/
def minimizeClassify (s : Solver) (a : Analysis) (lit depth : ℕ) : Except Bool (List ℕ) :=
  let f := a.flags (lit / 2)
  let level := s.trail.level (lit / 2)
  if s.trail.litVal lit ≤ 0 then .error false
  else if level = 0 ∨ f.removable ∨ f.keep then .error true
  else if f.poison ∨ level = a.currentConflictLevel then .error false
  else if depth = 0 ∧ a.seenLevelCount[level]?.any (· < 2) then .error false
  else if a.seenLevelTrail[level]?.any ((s.trail.varInfo (lit / 2)).trailIdx ≤ ·) then .error false
  else if minimizeDepthLimit < depth then .error false
  else match s.minimizeReasonLits lit with
    | some others => .ok others
    | none => .error false

def minimizeOthers (check : Analysis → ℕ → Analysis × Bool) : List ℕ → Analysis → Analysis × Bool
  | [], a => (a, true)
  | l :: ls, a =>
    let (a, res) := check a (neg l)
    if res then minimizeOthers check ls a else (a, false)

/-- The first number is what is left of the depth. -/
def minimizeLiteralLrat (s : Solver) : ℕ → Analysis → ℕ → Analysis × Bool
  | 0, a, lit => (a, match s.minimizeClassify a lit (minimizeDepthLimit + 1) with
    | .error res => res
    | .ok _ => false)
  | left + 1, a, lit =>
    match s.minimizeClassify a lit (minimizeDepthLimit - left) with
    | .error res => (a, res)
    | .ok others =>
      let (a, res) := minimizeOthers (minimizeLiteralLrat s left) others a
      (a.settle (lit / 2) res, res)

structure Frame where
  lit : ℕ
  rest : List ℕ
  depth : ℕ
  failed : Bool := false

def plainStep (s : Solver) : Analysis × List Frame → Analysis × List Frame
  | (a, []) => (a, [])
  | (a, f :: frames) =>
    if f.failed then (a.settle (f.lit / 2) false, frames.modifyHead fun p => { p with failed := true })
    else match f.rest with
      | [] => (a.settle (f.lit / 2) true, frames)
      | child :: rest =>
        match s.minimizeClassify a (neg child) (f.depth + 1) with
        | .error true => (a, { f with rest := rest } :: frames)
        | .error false => (a, { f with rest := rest, failed := true } :: frames)
        | .ok others =>
          (a, { lit := neg child, rest := others, depth := f.depth + 1 } :: { f with rest := rest } :: frames)

def minimizeLiteralPlain (s : Solver) (fuel : ℕ) (a : Analysis) (lit : ℕ) : Option (Analysis × Bool) :=
  match s.minimizeClassify a lit 0 with
  | .error res => some (a, res)
  | .ok others =>
    match s.plainStep^[fuel] (a, [{ lit := lit, rest := others, depth := 0 }]) with
    | (a, []) => some (a, (a.flags (lit / 2)).removable)
    | _ => none

def minimizeAll (check : Analysis → ℕ → Option (Analysis × Bool)) : List ℕ → Analysis → Option (Analysis × List ℕ)
  | [], a => some (a, [])
  | lit :: lits, a => do
    let (a, res) ← check a (neg lit)
    if res then minimizeAll check lits a
    else
      let (a, kept) ← minimizeAll check lits (a.setKeep (lit / 2))
      return (a, lit :: kept)

def minimizeClause (s : Solver) (check : Analysis → ℕ → Option (Analysis × Bool)) (a : Analysis) : Option Analysis :=
  match a.learnt with
  | [] => some a
  | asserting :: tail =>
    if tail.length ≤ 1 then some a
    else do
      let order := tail.insertionSort fun l m => (s.trail.varInfo (l / 2)).trailIdx ≤ (s.trail.varInfo (m / 2)).trailIdx
      let (a, kept) ← minimizeAll check order a
      return { a with learnt := asserting :: kept }.clearMinimizeFlags

/-- With a proof the search is the recursive one, which needs no fuel. -/
def minimizeLearntClause (s : Solver) (lrat : Bool) (fuel : ℕ) : Analysis → Option Analysis :=
  s.minimizeClause (if lrat then fun a lit => some (s.minimizeLiteralLrat (minimizeDepthLimit + 1) a lit)
    else s.minimizeLiteralPlain fuel)

end Solver

end Nixie.Sat

namespace Nixie.Sat.Analysis

open Nixie.Literal List Option Function

variable {s : Solver} {K K' : ℕ → Prop} {σ : ℕ → Bool} {a a' a'' : Analysis} {t lit var left : ℕ}

/-- Literals of the trail that those of `K` force, through reasons and facts of level 0. -/
inductive Implied (s : Solver) (K : ℕ → Prop) : ℕ → Prop
  | kept {t : ℕ} (h : K t) : Implied s K t
  | fact {t : ℕ} (h : t ∈ s.trail.assignments) (hlevel : s.trail.level (t / 2) = 0) : Implied s K t
  | reason {t : ℕ} {others : List ℕ} (hothers : s.minimizeReasonLits t = some others)
      (hall : ∀ l ∈ others, Implied s K (neg l)) : Implied s K t

theorem Implied.mono (h : Implied s K t) (hK : ∀ k, K k → K' k) : Implied s K' t := by
  induction h with
  | kept h => exact .kept (hK _ h)
  | fact h hlevel => exact .fact h hlevel
  | reason hothers _ ih => exact .reason hothers ih

theorem Implied.isTrue (h : Implied s K t) (hσ : Solver.Models s σ) (hK : ∀ k, K k → isTrue σ k) : isTrue σ t := by
  induction h with
  | kept h => exact hK _ h
  | fact h hlevel => exact hσ.facts _ h hlevel
  | @reason t others hothers _ ih =>
    unfold Solver.minimizeReasonLits at hothers
    split at hothers <;> try cases hothers
    obtain ⟨c, hc, hothers⟩ := bind_eq_some_iff.mp hothers
    split_ifs at hothers
    obtain rfl := some.inj hothers
    obtain ⟨l, hl, htrue⟩ := hσ.clauses _ c hc
    by_cases heq : l = t
    · exact heq ▸ htrue
    · have hneg := ih l (by simpa [hl] using heq)
      rw [isTrue_neg, htrue] at hneg
      cases hneg

def Keeps (s : Solver) (a : Analysis) (t : ℕ) : Prop := t ∈ s.trail.assignments ∧ (a.flags (t / 2)).keep = true

/-- A removable literal is forced by the kept ones, and the flags to reset are recorded. -/
structure Flagged (s : Solver) (a : Analysis) : Prop where
  removable : ∀ t ∈ s.trail.assignments, (a.flags (t / 2)).removable = true → Implied s (Keeps s a) t
  recorded : ∀ v, (a.flags v).removable = true ∨ (a.flags v).poison = true → v ∈ a.minimized

structure Advances (s : Solver) (a a' : Analysis) : Prop where
  flagged : Flagged s a'
  keep : ∀ v, (a'.flags v).keep = (a.flags v).keep

theorem Advances.refl (h : Flagged s a) : Advances s a a := ⟨h, fun _ => rfl⟩

theorem Advances.trans (h : Advances s a a') (h' : Advances s a' a'') : Advances s a a'' :=
  ⟨h'.flagged, fun v => (h'.keep v).trans (h.keep v)⟩

theorem keeps_congr (h : ∀ v, (a'.flags v).keep = (a.flags v).keep) : Keeps s a' = Keeps s a := by
  funext t
  simp only [Keeps, h]

theorem settle_flags_of_ne {res : Bool} {v : ℕ} (h : v ≠ var) : (a.settle var res).flags v = a.flags v :=
  update_of_ne h _ _

theorem settle_keep (a : Analysis) (var : ℕ) (res : Bool) (v : ℕ) :
    ((a.settle var res).flags v).keep = (a.flags v).keep := by
  by_cases hv : v = var
  · cases res <;> simp [settle, hv]
  · rw [settle_flags_of_ne hv]

theorem Flagged.settle {res : Bool} (h : Flagged s a)
    (hvar : res = true → ∀ t ∈ s.trail.assignments, t / 2 = var → Implied s (Keeps s a) t) :
    Advances s a (a.settle var res) := by
  refine ⟨⟨fun t ht hr => ?_, fun v hv => ?_⟩, settle_keep a var res⟩
  · rw [keeps_congr (settle_keep a var res)]
    by_cases heq : t / 2 = var
    · cases res with
      | true => exact hvar rfl t ht heq
      | false => exact h.removable t ht (by simpa [Analysis.settle, heq] using hr)
    · exact h.removable t ht (by rwa [settle_flags_of_ne heq] at hr)
  · show v ∈ a.minimized ++ [var]
    by_cases heq : v = var
    · simp [heq]
    · rw [settle_flags_of_ne heq] at hv
      exact mem_append_left _ (h.recorded v hv)

theorem mem_of_litVal (hvalid : s.trail.Valid) (h : 0 < s.trail.litVal lit) : lit ∈ s.trail.assignments := by
  rw [hvalid.mem_iff]
  have hcases := Solver.litVal_cases hvalid lit
  unfold Trail.litVal at *
  omega

theorem minimizeClassify_true {depth : ℕ} (hvalid : s.trail.Valid) (h : Flagged s a)
    (hc : s.minimizeClassify a lit depth = .error true) : Implied s (Keeps s a) lit := by
  unfold Solver.minimizeClassify at hc
  dsimp only at hc
  split_ifs at hc with hval hearly
  · cases hc
  · have hmem := mem_of_litVal hvalid (not_le.mp hval)
    rcases hearly with hlevel | hremovable | hkeep
    · exact .fact hmem hlevel
    · exact h.removable _ hmem hremovable
    · exact .kept ⟨hmem, hkeep⟩
  all_goals first | cases hc | split at hc <;> cases hc

theorem minimizeClassify_ok {depth : ℕ} {others : List ℕ} (hvalid : s.trail.Valid)
    (hc : s.minimizeClassify a lit depth = .ok others) : lit ∈ s.trail.assignments ∧
    (a.flags (lit / 2)).removable = false ∧ depth ≤ Solver.minimizeDepthLimit ∧
    s.minimizeReasonLits lit = some others := by
  unfold Solver.minimizeClassify at hc
  dsimp only at hc
  split_ifs at hc with hval hearly _ _ _ hdepth
  split at hc
  next others' hothers =>
    obtain rfl := Except.ok.inj hc
    simp only [not_or, Bool.not_eq_true] at hearly
    exact ⟨mem_of_litVal hvalid (not_le.mp hval), hearly.2.1, not_lt.mp hdepth, hothers⟩
  next => cases hc

def Justifies (s : Solver) (check : Analysis → ℕ → Analysis × Bool) : Prop := ∀ a lit, Flagged s a →
  Advances s a (check a lit).1 ∧ ((check a lit).2 = true → Implied s (Keeps s a) lit)

theorem minimizeOthers_spec {check : Analysis → ℕ → Analysis × Bool} (others : List ℕ) (hcheck : Justifies s check)
    (h : Flagged s a) : Advances s a (Solver.minimizeOthers check others a).1 ∧
    ((Solver.minimizeOthers check others a).2 = true → ∀ l ∈ others, Implied s (Keeps s a) (neg l)) := by
  induction others generalizing a with
  | nil => exact ⟨.refl h, fun _ => by simp⟩
  | cons l ls ih =>
    obtain ⟨hstep, himplied⟩ := hcheck a (neg l) h
    rw [Solver.minimizeOthers]
    dsimp only
    split_ifs with hres
    · obtain ⟨hadv, hls⟩ := ih hstep.flagged
      exact ⟨hstep.trans hadv, fun hr => forall_mem_cons.mpr ⟨himplied hres, keeps_congr hstep.keep ▸ hls hr⟩⟩
    · exact ⟨hstep, fun hr => by cases hr⟩

theorem minimizeLiteralLrat_spec (hvalid : s.trail.Valid) (left : ℕ) : Justifies s (s.minimizeLiteralLrat left) := by
  induction left with
  | zero =>
    intro a lit h
    refine ⟨.refl h, fun htrue => ?_⟩
    rw [Solver.minimizeLiteralLrat] at htrue
    dsimp only at htrue
    split at htrue
    next res hc => exact minimizeClassify_true hvalid h (htrue ▸ hc)
    next => cases htrue
  | succ left ih =>
    intro a lit h
    rw [Solver.minimizeLiteralLrat]
    split
    next res hc => exact ⟨.refl h, fun htrue => minimizeClassify_true hvalid h (hc.trans (congrArg _ htrue))⟩
    next others hc =>
      obtain ⟨hmem, -, -, hothers⟩ := minimizeClassify_ok hvalid hc
      obtain ⟨hadv, hres⟩ := minimizeOthers_spec others ih h
      have himplied := fun hr => Implied.reason hothers (hres hr)
      refine ⟨hadv.trans (hadv.flagged.settle fun hr t ht hv => ?_), himplied⟩
      rw [hvalid.unique ht hmem hv, keeps_congr hadv.keep]
      exact himplied hr

section

open Solver

variable {others : List ℕ} {depth : ℕ} {frames : List Frame} {x y z : Analysis × List Frame}

/-- The answer of the search with a stack is read off the flags at the end. -/
def plainResult (s : Solver) (a : Analysis) (lit : ℕ) : Analysis × Bool :=
  match s.minimizeClassify a lit 0 with
  | .error res => (a, res)
  | .ok _ =>
    let a := (s.minimizeLiteralLrat (minimizeDepthLimit + 1) a lit).1
    (a, (a.flags (lit / 2)).removable)

def Steps (s : Solver) (x y : Analysis × List Frame) : Prop := ∃ n, s.plainStep^[n] x = y

theorem Steps.trans (h : Steps s x y) (h' : Steps s y z) : Steps s x z := by
  obtain ⟨n, rfl⟩ := h
  obtain ⟨m, rfl⟩ := h'
  exact ⟨m + n, iterate_add_apply _ _ _ _⟩

theorem Steps.head (h : Steps s (s.plainStep x) y) : Steps s x y := by
  obtain ⟨n, rfl⟩ := h
  exact ⟨n + 1, iterate_succ_apply _ _ _⟩

def after (res : Bool) (frames : List Frame) : List Frame :=
  if res then frames else frames.modifyHead fun p => { p with failed := true }

theorem steps_others {check : Analysis → ℕ → Analysis × Bool}
    (hchild : ∀ a l ls, Steps s (a, ⟨lit, l :: ls, depth, false⟩ :: frames)
    ((check a (neg l)).1, ⟨lit, ls, depth, !(check a (neg l)).2⟩ :: frames)) :
    Steps s (a, ⟨lit, others, depth, false⟩ :: frames)
    ((minimizeOthers check others a).1.settle (lit / 2) (minimizeOthers check others a).2, after
    (minimizeOthers check others a).2 frames) := by
  induction others generalizing a with
  | nil => exact .head ⟨0, by simp [plainStep, after, minimizeOthers]⟩
  | cons l ls ih =>
    refine (hchild a l ls).trans ?_
    rw [minimizeOthers]
    dsimp only
    cases hr : (check a (neg l)).2 with
    | true => exact ih
    | false => exact .head ⟨0, by simp [plainStep, after]⟩

theorem steps_frame (a : Analysis) (lit : ℕ) (others : List ℕ) (frames : List Frame) (hvalid : s.trail.Valid)
    (hdepth : depth + left = minimizeDepthLimit) :
    let r := minimizeOthers (s.minimizeLiteralLrat left) others a
    Steps s (a, ⟨lit, others, depth, false⟩ :: frames)
      (r.1.settle (lit / 2) r.2, after r.2 frames) := by
  induction left generalizing a lit others depth frames with
  | zero =>
    have hchild : ∀ a l ls, Steps s (a, ⟨lit, l :: ls, depth, false⟩ :: frames)
        ((s.minimizeLiteralLrat 0 a (neg l)).1,
          ⟨lit, ls, depth, !(s.minimizeLiteralLrat 0 a (neg l)).2⟩ :: frames) := by
      intro a l ls
      refine .head ⟨0, ?_⟩
      obtain rfl : depth = minimizeDepthLimit := hdepth
      rw [minimizeLiteralLrat, iterate_zero_apply, plainStep]
      dsimp only
      cases hc : s.minimizeClassify a (neg l) (minimizeDepthLimit + 1) with
      | error res => cases res <;> rfl
      | ok others => exact absurd (minimizeClassify_ok hvalid hc).2.2.1 (by omega)
    exact steps_others hchild
  | succ left ih =>
    refine steps_others fun a l ls => ?_
    have hsame : minimizeDepthLimit - left = depth + 1 := by omega
    refine .head ?_
    rw [minimizeLiteralLrat, hsame, plainStep]
    dsimp only
    cases hc : s.minimizeClassify a (neg l) (depth + 1) with
    | error res => cases res <;> exact ⟨0, rfl⟩
    | ok others =>
      refine (ih _ _ _ _ (by omega)).trans ⟨0, ?_⟩
      dsimp only
      cases (minimizeOthers (s.minimizeLiteralLrat left) others a).2 <;> rfl

theorem minimizeLiteralPlain_eq (hvalid : s.trail.Valid) (a : Analysis) (lit : ℕ) :
    ∃ n, ∀ fuel ≥ n, s.minimizeLiteralPlain fuel a lit = some (plainResult s a lit) := by
  unfold minimizeLiteralPlain plainResult
  cases hc : s.minimizeClassify a lit 0 with
  | error res => exact ⟨0, fun _ _ => rfl⟩
  | ok others =>
    obtain ⟨n, hn⟩ := steps_frame a lit others [] hvalid (Nat.zero_add minimizeDepthLimit)
    refine ⟨n, fun fuel hfuel => ?_⟩
    obtain ⟨m, rfl⟩ := Nat.exists_eq_add_of_le' hfuel
    have hdone : ∀ a, s.plainStep^[m] (a, []) = (a, []) := fun a => iterate_fixed rfl m
    dsimp only at hn ⊢
    rw [iterate_add_apply, hn, minimizeLiteralLrat]
    dsimp only
    rw [Nat.sub_self, hc]
    dsimp only
    cases (minimizeOthers (s.minimizeLiteralLrat minimizeDepthLimit) others a).2 <;> simp [after, hdone]

theorem plainResult_spec (hvalid : s.trail.Valid) : Justifies s (plainResult s) := by
  intro a lit h
  unfold plainResult
  split
  next res hc => exact ⟨.refl h, fun htrue => minimizeClassify_true hvalid h (hc.trans (congrArg _ htrue))⟩
  next others hc =>
    have hadv := (minimizeLiteralLrat_spec hvalid (minimizeDepthLimit + 1) a lit h).1
    refine ⟨hadv, fun htrue => ?_⟩
    rw [← keeps_congr hadv.keep]
    exact hadv.flagged.removable lit (minimizeClassify_ok hvalid hc).1 htrue

def Ordered (s : Solver) : Prop := ∀ t ∈ s.trail.assignments, ∀ others, s.minimizeReasonLits t = some others →
  ∀ l ∈ others, (s.trail.varInfo (l / 2)).trailIdx < (s.trail.varInfo (t / 2)).trailIdx

theorem minimizeOthers_flags {check : Analysis → ℕ → Analysis × Bool} {v : ℕ}
    (hcheck : ∀ l ∈ others, ∀ a, (check a (neg l)).1.flags v = a.flags v) :
    (minimizeOthers check others a).1.flags v = a.flags v := by
  induction others generalizing a with
  | nil => rfl
  | cons l ls ih =>
    rw [forall_mem_cons] at hcheck
    rw [minimizeOthers]
    dsimp only
    split_ifs
    · exact (ih hcheck.2).trans (hcheck.1 a)
    · exact hcheck.1 a

theorem minimizeLiteralLrat_flags (hvalid : s.trail.Valid) (hs : Ordered s) {v : ℕ}
    (hv : (s.trail.varInfo (lit / 2)).trailIdx < (s.trail.varInfo v).trailIdx) :
    (s.minimizeLiteralLrat left a lit).1.flags v = a.flags v := by
  induction left generalizing a lit with
  | zero => rfl
  | succ left ih =>
    rw [minimizeLiteralLrat]
    split
    next => rfl
    next others hc =>
      obtain ⟨hmem, -, -, hothers⟩ := minimizeClassify_ok hvalid hc
      refine (settle_flags_of_ne fun heq => absurd hv (by simp [heq])).trans (minimizeOthers_flags fun l hl a => ih ?_)
      rw [neg_div_two]
      exact (hs lit hmem others hothers l hl).trans hv

end

section

open Solver

variable {lits : List ℕ} {check : Analysis → ℕ → Analysis × Bool}

theorem plainResult_eq (hvalid : s.trail.Valid) (hs : Ordered s) (a : Analysis) (lit : ℕ) :
    plainResult s a lit = s.minimizeLiteralLrat (minimizeDepthLimit + 1) a lit := by
  unfold plainResult
  split
  next res hc => rw [minimizeLiteralLrat, Nat.sub_self, hc]
  next others hc =>
    obtain ⟨hmem, hremovable, -, hothers⟩ := minimizeClassify_ok hvalid hc
    rw [minimizeLiteralLrat, Nat.sub_self, hc]
    dsimp only
    have hflags : (minimizeOthers (s.minimizeLiteralLrat minimizeDepthLimit) others a).1.flags (lit / 2) =
        a.flags (lit / 2) := minimizeOthers_flags fun l hl a => minimizeLiteralLrat_flags hvalid hs (by
      rw [neg_div_two]
      exact hs lit hmem others hothers l hl)
    cases hr : (minimizeOthers (s.minimizeLiteralLrat minimizeDepthLimit) others a).2 <;>
      simp [settle, hflags, hremovable]

theorem minimizeAll_plain (a : Analysis) (lits : List ℕ) (hvalid : s.trail.Valid) : ∃ n, ∀ fuel ≥ n,
    minimizeAll (s.minimizeLiteralPlain fuel) lits a =
      minimizeAll (fun a lit => some (plainResult s a lit)) lits a := by
  induction lits generalizing a with
  | nil => exact ⟨0, fun _ _ => rfl⟩
  | cons lit lits ih =>
    obtain ⟨n, hn⟩ := minimizeLiteralPlain_eq hvalid a (neg lit)
    obtain ⟨m, hm⟩ := ih (plainResult s a (neg lit)).1
    obtain ⟨k, hk⟩ := ih ((plainResult s a (neg lit)).1.setKeep (lit / 2))
    refine ⟨n + m + k, fun fuel hfuel => ?_⟩
    simp only [minimizeAll, hn fuel (by omega), bind_eq_bind, bind_some, hm fuel (by omega), hk fuel (by omega)]

theorem Flagged.setKeep (h : Flagged s a) (hmem : neg lit ∈ s.trail.assignments) :
    Flagged s (a.setKeep (lit / 2)) ∧ Keeps s (a.setKeep (lit / 2)) (neg lit) ∧
    (∀ t, Keeps s a t → Keeps s (a.setKeep (lit / 2)) t) ∧ ∀ v, ((a.setKeep (lit / 2)).flags v).keep = true →
    (a.flags v).keep = true ∨ lit / 2 = v := by
  have hkeeps : ∀ t, Keeps s a t → Keeps s (a.setKeep (lit / 2)) t := fun t hk => by
    refine ⟨hk.1, ?_⟩
    by_cases heq : t / 2 = lit / 2 <;> simp [Analysis.setKeep, heq, hk.2]
  refine ⟨⟨fun t ht hr => ?_, fun v hv => h.recorded v ?_⟩, ⟨hmem, ?_⟩, hkeeps, fun v hv => ?_⟩
  · refine (h.removable t ht ?_).mono hkeeps
    by_cases heq : t / 2 = lit / 2 <;> simpa [Analysis.setKeep, heq] using hr
  · by_cases heq : v = lit / 2 <;> simpa [Analysis.setKeep, heq] using hv
  · simp [Analysis.setKeep]
  · by_cases heq : v = lit / 2
    · exact .inr heq.symm
    · exact .inl (by simpa [Analysis.setKeep, heq] using hv)

theorem minimizeAll_spec (hcheck : Justifies s check) (h : Flagged s a)
    (hmem : ∀ l ∈ lits, neg l ∈ s.trail.assignments) : ∃ a' kept,
    minimizeAll (fun a lit => some (check a lit)) lits a = some (a', kept) ∧ Flagged s a' ∧
    (∀ t, Keeps s a t → Keeps s a' t) ∧ (∀ v, (a'.flags v).keep = true → (a.flags v).keep = true ∨
    ∃ l ∈ kept, l / 2 = v) ∧ (∀ l ∈ lits, Implied s (Keeps s a') (neg l)) ∧ kept.Sublist lits := by
  induction lits generalizing a with
  | nil => exact ⟨a, [], rfl, h, fun _ hk => hk, fun _ hv => .inl hv, by simp, .refl []⟩
  | cons lit lits ih =>
    rw [forall_mem_cons] at hmem
    obtain ⟨hadv, himplied⟩ := hcheck a (neg lit) h
    have hkeeps : Keeps s (check a (neg lit)).1 = Keeps s a := keeps_congr hadv.keep
    cases hres : (check a (neg lit)).2 with
    | true =>
      obtain ⟨a', kept, hrest, hflagged, hgrow, hkept, hlits, hsub⟩ := ih hadv.flagged hmem.2
      refine ⟨a', kept, by simp [minimizeAll, hres, hrest], hflagged, hkeeps ▸ hgrow, fun v hv => ?_, ?_, hsub.cons lit⟩
      · exact (hkept v hv).imp_left ((hadv.keep v).symm.trans ·)
      · exact forall_mem_cons.mpr ⟨(himplied hres).mono (hkeeps ▸ hgrow), hlits⟩
    | false =>
      obtain ⟨hset, hlit, hold, hnew⟩ := hadv.flagged.setKeep hmem.1
      obtain ⟨a', kept, hrest, hflagged, hgrow, hkept, hlits, hsub⟩ := ih hset hmem.2
      refine ⟨a', lit :: kept, by simp [minimizeAll, hres, hrest], hflagged, ?_, fun v hv => ?_, ?_, hsub.cons_cons lit⟩
      · exact fun t hk => hgrow t (hold t (hkeeps ▸ hk))
      · rcases hkept v hv with hv | ⟨l, hl, hv⟩
        · exact (hnew v hv).imp ((hadv.keep v).symm.trans ·) fun hv => ⟨lit, mem_cons_self, hv⟩
        · exact .inr ⟨l, mem_cons_of_mem _ hl, hv⟩
      · exact forall_mem_cons.mpr ⟨.kept (hgrow _ hlit), hlits⟩

theorem mem_of_litVal_neg (hvalid : s.trail.Valid) (h : s.trail.litVal lit < 0) : neg lit ∈ s.trail.assignments := by
  rw [hvalid.neg_mem_iff]
  have hcases := Solver.litVal_cases hvalid lit
  unfold Trail.litVal at *
  omega

def Clean (a : Analysis) : Prop := (∀ v, a.flags v = {}) ∧ a.minimized = []

theorem Clean.flagged (h : Clean a) : Flagged s a :=
  ⟨fun t _ hr => by simp [h.1] at hr, fun v hv => by simp [h.1] at hv⟩

theorem Flagged.clean {learnt : List ℕ} (h : Flagged s a)
    (hkept : ∀ v, (a.flags v).keep = true → ∃ l ∈ learnt, l / 2 = v) :
    Clean { a with learnt := learnt }.clearMinimizeFlags := by
  refine ⟨fun v => ?_, rfl⟩
  have hkeep : (a.flags v).keep = true → v ∈ learnt.map (· / 2) := fun hv => mem_map.mpr (hkept v hv)
  have hrecorded := h.recorded v
  show MinimizeFlags.mk _ _ _ = MinimizeFlags.mk false false false
  simp only [MinimizeFlags.mk.injEq, Bool.and_eq_false_iff, decide_eq_false_iff_not, not_not]
  cases hk : (a.flags v).keep <;> cases hr : (a.flags v).removable <;> cases hp : (a.flags v).poison <;>
    simp_all

theorem minimizeClause_plain (hvalid : s.trail.Valid) (a : Analysis) : ∃ n, ∀ fuel ≥ n,
    s.minimizeLearntClause false fuel a = s.minimizeClause (fun a lit => some (plainResult s a lit)) a := by
  unfold minimizeLearntClause minimizeClause
  cases a.learnt with
  | nil => exact ⟨0, fun _ _ => rfl⟩
  | cons asserting tail =>
    obtain ⟨n, hn⟩ := minimizeAll_plain a (tail.insertionSort fun l m =>
      (s.trail.varInfo (l / 2)).trailIdx ≤ (s.trail.varInfo (m / 2)).trailIdx) hvalid
    exact ⟨n, fun fuel hfuel => by simp [hn fuel hfuel]⟩

theorem minimizeClause_implied (hvalid : s.trail.Valid) (hclean : Clean a) (hcheck : Justifies s check)
    (hfalse : ∀ l ∈ a.learnt.tail, s.trail.litVal l < 0) : ∃ a', s.minimizeClause (fun a lit => some (check a lit)) a =
    some a' ∧ Clean a' ∧ a'.learnt.head? = a.learnt.head? ∧ a'.learnt.Subperm a.learnt ∧ ∀ σ, Models s σ →
    (∃ l ∈ a.learnt, isTrue σ l) → ∃ l ∈ a'.learnt, isTrue σ l := by
  unfold minimizeClause
  split
  next => exact ⟨a, rfl, hclean, rfl, .refl _, fun _ _ htrue => htrue⟩
  next asserting tail hlearnt =>
    rw [hlearnt, tail_cons] at hfalse
    split_ifs
    · exact ⟨a, rfl, hclean, rfl, .refl _, fun _ _ htrue => hlearnt ▸ htrue⟩
    set order := tail.insertionSort fun l m => (s.trail.varInfo (l / 2)).trailIdx ≤ (s.trail.varInfo (m / 2)).trailIdx
    have hperm : order.Perm tail := perm_insertionSort _ tail
    obtain ⟨a', kept, hrun, hflagged, -, hkept, himplied, hsub⟩ := minimizeAll_spec hcheck hclean.flagged
      fun l hl => mem_of_litVal_neg hvalid (hfalse l (hperm.mem_iff.mp hl))
    have hout : ∀ v, (a'.flags v).keep = true → ∃ l ∈ kept, l / 2 = v := fun v hv =>
      (hkept v hv).resolve_left (by simp [hclean.1])
    refine ⟨{ a' with learnt := asserting :: kept }.clearMinimizeFlags, by simp [hrun], ?_, by
      simp [clearMinimizeFlags, hlearnt], ?_, ?_⟩
    · exact hflagged.clean fun v hv => (hout v hv).imp fun l hl => ⟨mem_cons_of_mem _ hl.1, hl.2⟩
    · exact hlearnt ▸ (subperm_cons asserting).mpr (hsub.subperm.trans hperm.subperm)
    · rintro σ hσ ⟨l, hl, htrue⟩
      rw [hlearnt] at hl
      by_contra hnone
      have hnot : ∀ m ∈ asserting :: kept, isTrue σ m = false := fun m hm => by
        by_contra hm'
        exact hnone ⟨m, hm, by simpa using hm'⟩
      rcases mem_cons.mp hl with rfl | hl
      · rw [hnot l mem_cons_self] at htrue
        cases htrue
      · have hneg := (himplied l (hperm.mem_iff.mpr hl)).isTrue hσ fun k hk => by
          obtain ⟨m, hm, hv⟩ := hout _ hk.2
          have hmem := mem_of_litVal_neg hvalid (hfalse m (hperm.mem_iff.mp (hsub.subset hm)))
          obtain rfl : neg m = k := hvalid.unique hmem hk.1 (by rw [neg_div_two, hv])
          rw [isTrue_neg, hnot m (mem_cons_of_mem _ hm), Bool.not_false]
        rw [isTrue_neg, htrue] at hneg
        cases hneg

theorem minimizeLearntClause_paths_agree (h : Reachable s) (hs : Ordered s) (a : Analysis) : ∃ n, ∀ fuel ≥ n,
    s.minimizeLearntClause false fuel a = s.minimizeLearntClause true fuel a := by
  have hsame : plainResult s = s.minimizeLiteralLrat (minimizeDepthLimit + 1) := by
    funext a lit
    exact plainResult_eq h.valid hs a lit
  obtain ⟨n, hn⟩ := minimizeClause_plain h.valid a
  refine ⟨n, fun fuel hfuel => (hn fuel hfuel).trans ?_⟩
  rw [hsame]
  rfl

/-- What is left of a clause follows from it, the clauses and the facts of level 0, and the flags are reset. -/
theorem minimizeLearntClause_implied (h : Reachable s) (hclean : Clean a)
    (hfalse : ∀ l ∈ a.learnt.tail, s.trail.litVal l < 0) (lrat : Bool) :
    ∃ n, ∀ fuel ≥ n, ∃ a', s.minimizeLearntClause lrat fuel a = some a' ∧ Clean a' ∧ a'.learnt.head? = a.learnt.head? ∧
    a'.learnt.Subperm a.learnt ∧ ∀ σ, Models s σ → (∃ l ∈ a.learnt, isTrue σ l) → ∃ l ∈ a'.learnt, isTrue σ l := by
  cases lrat with
  | true => exact ⟨0, fun _ _ => minimizeClause_implied h.valid hclean (minimizeLiteralLrat_spec h.valid _) hfalse⟩
  | false =>
    obtain ⟨n, hn⟩ := minimizeClause_plain h.valid a
    exact ⟨n, fun fuel hfuel => hn fuel hfuel ▸ minimizeClause_implied h.valid hclean
      (plainResult_spec h.valid) hfalse⟩

/-- `¬x0 ∨ x1` has propagated `x1` at the level of the decision `x0`, and `x2` is the decision of the next level. -/
def searched : Solver where
  trail := ((Trail.Play.run {} [.newDecisionLevel, .assignDecision 0, .assignPropagation 2 0, .newDecisionLevel,
    .assignDecision 4]).getD {}).trail
  clauses id := if id = 0 then some { lits := [1, 2] } else none

def resolved : Analysis where
  learnt := [5, 1, 3]
  currentConflictLevel := 2
  seenLevelCount := [0, 2, 1]
  seenLevelTrail := [0, 0, 2]

theorem reachable_searched : Reachable searched :=
  ⟨[.newDecisionLevel, .assignDecision 0, .assignPropagation 2 0, .newDecisionLevel, .assignDecision 4], _, rfl, rfl⟩

theorem minimizeLearntClause_paths_agree_searched : ∃ n,
    (searched.minimizeLearntClause false n resolved).map (·.learnt) = some [5, 1] := by
  have hs : Ordered searched := by
    intro t ht others hothers l hl
    have ht : t ∈ [0, 2, 4] := ht
    simp only [mem_cons, not_mem_nil, or_false] at ht
    rcases ht with rfl | rfl | rfl <;> cases hothers
    obtain rfl : l = 1 := by simpa using hl
    decide
  obtain ⟨n, hn⟩ := minimizeLearntClause_paths_agree reachable_searched hs resolved
  exact ⟨n, (congrArg _ (hn n le_rfl)).trans rfl⟩

theorem minimizeLearntClause_implied_searched : (searched.minimizeLearntClause true 0 resolved).map (·.learnt) =
    some [5, 1] ∧ ∀ σ, Models searched σ → (∃ l ∈ [5, 1, 3], isTrue σ l) → ∃ l ∈ [5, 1], isTrue σ l := by
  obtain ⟨n, hn⟩ := minimizeLearntClause_implied (a := resolved) reachable_searched ⟨fun _ => rfl, rfl⟩ (by decide) true
  obtain ⟨a', ha', -, -, -, himplied⟩ := hn n le_rfl
  have hlearnt : (searched.minimizeLearntClause true n resolved).map (·.learnt) = some [5, 1] := rfl
  rw [ha'] at hlearnt
  obtain hlearnt : a'.learnt = [5, 1] := some.inj hlearnt
  exact ⟨rfl, hlearnt ▸ himplied⟩

end

end Nixie.Sat.Analysis
