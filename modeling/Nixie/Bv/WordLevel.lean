import Mathlib.Algebra.Order.BigOperators.Group.List
import Nixie.Bv.WordInterval

/-!
The word-level propagator of bit-vectors, `nixie-theories/src/bv/propagator.rs`.
-/

namespace Nixie.Bv

open List Option Function Nat

inductive Constraint
  | eq (a b : ℕ)
  | ult (a b : ℕ)
  | ule (a b : ℕ)
  /-- The first term is the operation of the other two. -/
  | bin (op : BinOp) (c a b : ℕ)
  | not (c a : ℕ)

inductive PropagationError
  | conflict
  deriving DecidableEq

structure WordLevelPropagator where
  intervals : ℕ → Option Interval
  constraints : List Constraint
  queue : List ℕ

abbrev Propagated := Option (Except PropagationError Unit × WordLevelPropagator)

namespace Constraint

def terms : Constraint → List ℕ
  | eq a b => [a, b]
  | ult a b => [a, b]
  | ule a b => [a, b]
  | bin _ c a b => [c, a, b]
  | not c a => [c, a]

end Constraint

namespace WordLevelPropagator

section

variable (p : WordLevelPropagator)

def insert (term : ℕ) (interval : Interval) : WordLevelPropagator :=
  { p with intervals := update p.intervals term (some interval), queue := term :: p.queue }

def setInterval (term : ℕ) (interval : Interval) : Option WordLevelPropagator :=
  match p.intervals term with
  | some old =>
    match old.intersect interval with
    | none => none
    | some none => some p
    | some (some new) =>
      if new ≠ old then some (p.insert term new) else some p
  | none => some (p.insert term interval)

def tighten (condition : Bool) (term : ℕ) (interval : Interval) : Option WordLevelPropagator :=
  if condition then p.setInterval term interval else some p

def withIntervals (a b : ℕ) (f : Interval → Interval → Propagated) : Propagated :=
  match p.intervals a, p.intervals b with
  | some ia, some ib => f ia ib
  | _, _ => some (.ok (), p)

def propagateConstraint : Constraint → Propagated
  | .eq a b =>
    p.withIntervals a b fun ia ib =>
      match ia.intersect ib with
      | none => none
      | some none => some (.error .conflict, p)
      | some (some intersection) => do
        let p ← p.setInterval a intersection
        let p ← p.setInterval b intersection
        return (.ok (), p)
  | .ult a b =>
    p.withIntervals a b fun ia ib =>
      if ib.upper ≤ ia.lower then some (.error .conflict, p)
      else do
        let p ← p.tighten (ib.upper ≤ ia.upper) a (.new ia.lower (ib.upper - 1) ia.width)
        let p ← p.tighten (ib.lower ≤ ia.lower) b (.new (saturatingAdd ia.lower 1) ib.upper ib.width)
        return (.ok (), p)
  | .ule a b =>
    p.withIntervals a b fun ia ib =>
      if ib.upper < ia.lower then some (.error .conflict, p)
      else do
        let p ← p.tighten (ib.upper < ia.upper) a (.new ia.lower ib.upper ia.width)
        let p ← p.tighten (ib.lower < ia.lower) b (.new ia.lower ib.upper ib.width)
        return (.ok (), p)
  | .bin op c a b =>
    p.withIntervals a b fun ia ib => do
      let ic ← op.propagate ia ib
      let p ← p.setInterval c ic
      return (.ok (), p)
  | .not c a =>
    match p.intervals a with
    | some ia => do
      let p ← p.setInterval c ia.propagateNot
      return (.ok (), p)
    | none => some (.ok (), p)

end

def propagateConstraints : List Constraint → WordLevelPropagator → Propagated
  | [], p => some (.ok (), p)
  | constraint :: constraints, p =>
    match p.propagateConstraint constraint with
    | some (.ok (), p) => propagateConstraints constraints p
    | result => result

def propagateLoop : ℕ → WordLevelPropagator → Propagated
  | 0, _ => none
  | fuel + 1, p =>
    match p.queue with
    | [] => some (.ok (), p)
    | _ :: queue =>
      match propagateConstraints p.constraints { p with queue := queue } with
      | some (.ok (), p) => propagateLoop fuel p
      | result => result

def room (p : WordLevelPropagator) (term : ℕ) : ℕ :=
  match p.intervals term with
  | some i => i.upper - i.lower
  | none => 2 ^ 64

def rounds (p : WordLevelPropagator) : ℕ :=
  p.queue.length + ((p.constraints.flatMap Constraint.terms).map p.room).sum

def propagate (p : WordLevelPropagator) : Propagated := p.propagateLoop (p.rounds + 1)

end WordLevelPropagator

namespace Constraint

def WellSorted (wid : ℕ → ℕ) : Constraint → Prop
  | eq a b => wid a = wid b
  | ult a b => wid a = wid b
  | ule a b => wid a = wid b
  | bin _ c a b => wid c = wid a ∧ wid a = wid b
  | not c a => wid c = wid a

def Holds (wid x : ℕ → ℕ) : Constraint → Prop
  | eq a b => x a = x b
  | ult a b => x a < x b
  | ule a b => x a ≤ x b
  | bin op c a b => x c = op.apply (wid a) (x a) (x b)
  | not c a => x c = 2 ^ wid a - 1 - x a

end Constraint

namespace WordLevelPropagator

open Nixie.Bv.Interval

def Typed (wid : ℕ → ℕ) (p : WordLevelPropagator) : Prop :=
  ∀ t i, p.intervals t = some i → i.width = wid t

def Contains (x : ℕ → ℕ) (p : WordLevelPropagator) : Prop := ∀ t i, p.intervals t = some i → Mem (x t) i

def SafeConstraint (p : WordLevelPropagator) : Constraint → Prop
  | .bin op _ a b => ∀ ia ib, p.intervals a = some ia → p.intervals b = some ib → op.Safe ia ib
  | _ => True

def SafeConstraints : List Constraint → WordLevelPropagator → Prop
  | [], _ => True
  | constraint :: constraints, p =>
    p.SafeConstraint constraint ∧
      ∀ p', p.propagateConstraint constraint = some (.ok (), p') → SafeConstraints constraints p'

def SafeLoop : ℕ → WordLevelPropagator → Prop
  | 0, _ => True
  | fuel + 1, p => ∀ t queue, p.queue = t :: queue →
      SafeConstraints p.constraints { p with queue := queue } ∧
        ∀ p', propagateConstraints p.constraints { p with queue := queue } = some (.ok (), p') → SafeLoop fuel p'

def SafeRun (p : WordLevelPropagator) : Prop := SafeLoop (p.rounds + 1) p

variable {wid x : ℕ → ℕ} {p p' : WordLevelPropagator} {c : Constraint} {i ia ib : Interval} {t a b : ℕ}

/-- The valuation stays in the intervals, which have the widths of their terms, and each queued term
has used up a round. -/
structure Keeps (wid x : ℕ → ℕ) (p p' : WordLevelPropagator) : Prop where
  typed : Typed wid p'
  contains : Contains x p'
  constraints : p'.constraints = p.constraints
  rounds : p'.rounds ≤ p.rounds

theorem Keeps.trans {p'' : WordLevelPropagator} (h : Keeps wid x p p') (h' : Keeps wid x p' p'') : Keeps wid x p p'' :=
  ⟨h'.typed, h'.contains, h'.constraints.trans h.constraints, h'.rounds.trans h.rounds⟩

def Succeeds (wid x : ℕ → ℕ) (p : WordLevelPropagator) (r : Propagated) : Prop :=
  ∃ p', r = some (.ok (), p') ∧ Keeps wid x p p'

theorem succeeds_refl (ht : Typed wid p) (hx : Contains x p) : Succeeds wid x p (some (.ok (), p)) :=
  ⟨p, rfl, ht, hx, rfl, le_rfl⟩

theorem rounds_insert (hmem : t ∈ p.constraints.flatMap Constraint.terms)
    (hroom : i.upper - i.lower < p.room t) : (p.insert t i).rounds ≤ p.rounds := by
  have hsum := sum_lt_sum (l := p.constraints.flatMap Constraint.terms) (p.insert t i).room p.room
    (fun u _ => by
      by_cases hu : u = t
      · subst hu
        simpa only [room, insert, update_self] using hroom.le
      · simp only [room, insert, update_of_ne hu, le_refl])
    ⟨t, hmem, by simpa only [room, insert, update_self] using hroom⟩
  simp only [rounds, insert, length_cons] at hsum ⊢
  omega

theorem of_insert {u : ℕ} {j : Interval} (h : (p.insert t i).intervals u = some j) :
    u = t ∧ j = i ∨ p.intervals u = some j := by
  unfold insert at h
  by_cases hu : u = t
  · subst hu
    simp only [update_self] at h
    exact .inl ⟨rfl, (some.inj h).symm⟩
  · simp only [update_of_ne hu] at h
    exact .inr h

theorem keeps_insert (ht : Typed wid p) (hx : Contains x p) (hmem : t ∈ p.constraints.flatMap Constraint.terms)
    (hw : i.width = wid t) (hi : Mem (x t) i) (hroom : i.upper - i.lower < p.room t) :
    Keeps wid x p (p.insert t i) := by
  refine ⟨?_, ?_, rfl, rounds_insert hmem hroom⟩
  · intro u j hj
    obtain ⟨rfl, rfl⟩ | hj := of_insert hj
    · exact hw
    · exact ht u j hj
  · intro u j hj
    obtain ⟨rfl, rfl⟩ | hj := of_insert hj
    · exact hi
    · exact hx u j hj

theorem setInterval_spec (hwid : wid t ≤ 64) (ht : Typed wid p) (hx : Contains x p)
    (hmem : t ∈ p.constraints.flatMap Constraint.terms) (hw : i.width = wid t) (hi : Mem (x t) i) :
    ∃ p', p.setInterval t i = some p' ∧ Keeps wid x p p' := by
  cases hold : p.intervals t with
  | none =>
    refine ⟨p.insert t i, by simp only [setInterval, hold], keeps_insert ht hx hmem hw hi ?_⟩
    have hupper := i.upper_lt.trans_le (Nat.pow_le_pow_right two_pos (hw ▸ hwid))
    simp only [room, hold]
    omega
  | some old =>
    obtain ⟨new, hnew, hwidth, hmemNew, hlower, hupper⟩ :=
      intersect_of_mem ((ht t old hold).trans hw.symm) (hx t old hold) hi
    by_cases hne : new = old
    · exact ⟨p, by simp [setInterval, hold, hnew, hne], ht, hx, rfl, le_rfl⟩
    · refine ⟨p.insert t new, by simp [setInterval, hold, hnew, hne], ?_⟩
      refine keeps_insert ht hx hmem (hwidth.trans (ht t old hold)) hmemNew ?_
      have hbounds : ¬(new.lower = old.lower ∧ new.upper = old.upper) := by
        rintro ⟨hl, hu⟩
        apply hne
        cases new
        cases old
        simp_all
      have hle := hmemNew.1.trans hmemNew.2
      simp only [room, hold]
      omega

theorem tighten_spec {condition : Bool} (hwid : wid t ≤ 64) (ht : Typed wid p) (hx : Contains x p)
    (hmem : t ∈ p.constraints.flatMap Constraint.terms) (hw : i.width = wid t)
    (hi : condition = true → Mem (x t) i) : ∃ p', p.tighten condition t i = some p' ∧ Keeps wid x p p' := by
  unfold tighten
  by_cases h : condition = true
  · rw [if_pos h]
    exact setInterval_spec hwid ht hx hmem hw (hi h)
  · rw [if_neg h]
    exact ⟨p, rfl, ht, hx, rfl, le_rfl⟩

theorem withIntervals_spec {f : Interval → Interval → Propagated} (ht : Typed wid p) (hx : Contains x p)
    (hf : ∀ ia ib, p.intervals a = some ia → p.intervals b = some ib → Succeeds wid x p (f ia ib)) :
    Succeeds wid x p (p.withIntervals a b f) := by
  unfold withIntervals
  split
  · next ia ib ha hb => exact hf ia ib ha hb
  · exact succeeds_refl ht hx

theorem tighten_both (condition condition' : Bool) {j : Interval} (hwid : ∀ t, wid t ≤ 64) (ht : Typed wid p)
    (hx : Contains x p) (ha : a ∈ p.constraints.flatMap Constraint.terms)
    (hb : b ∈ p.constraints.flatMap Constraint.terms) (hia : i.width = wid a) (hjb : j.width = wid b)
    (hi : condition = true → Mem (x a) i) (hj : condition' = true → Mem (x b) j) :
    ∃ p₁ p₂, p.tighten condition a i = some p₁ ∧ p₁.tighten condition' b j = some p₂ ∧ Keeps wid x p p₂ := by
  obtain ⟨p₁, hset, hkeep⟩ := tighten_spec (hwid a) ht hx ha hia hi
  obtain ⟨p₂, hset', hkeep'⟩ := tighten_spec (hwid b) hkeep.typed hkeep.contains (hkeep.constraints ▸ hb) hjb hj
  exact ⟨p₁, p₂, hset, hset', hkeep.trans hkeep'⟩

theorem propagateConstraint_spec (hwid : ∀ t, wid t ≤ 64) (ht : Typed wid p) (hx : Contains x p)
    (hmem : c ∈ p.constraints) (hsort : c.WellSorted wid) (hholds : c.Holds wid x) (hsafe : p.SafeConstraint c) :
    Succeeds wid x p (p.propagateConstraint c) := by
  have hterms : ∀ t ∈ c.terms, t ∈ p.constraints.flatMap Constraint.terms :=
    fun t h => mem_flatMap.mpr ⟨c, hmem, h⟩
  cases c with
  | eq a b =>
    refine withIntervals_spec ht hx fun ia ib ha hb => ?_
    have hab : x a = x b := hholds
    have hsorted : wid a = wid b := hsort
    have hwab : ia.width = ib.width := by rw [ht a ia ha, ht b ib hb, hsorted]
    obtain ⟨i, hi, hwidth, hmemI, -, -⟩ := intersect_of_mem hwab (hx a ia ha) (hab ▸ hx b ib hb)
    have hia := hwidth.trans (ht a ia ha)
    obtain ⟨p₁, p₂, hset, hset', hkeep⟩ := tighten_both true true hwid ht hx
      (hterms a (by simp [Constraint.terms])) (hterms b (by simp [Constraint.terms])) hia (hia.trans hsorted)
      (fun _ => hmemI) (fun _ => hab ▸ hmemI)
    simp only [tighten, if_true] at hset hset'
    exact ⟨p₂, by simp [hi, hset, hset'], hkeep⟩
  | ult a b =>
    refine withIntervals_spec ht hx fun ia ib ha hb => ?_
    have hab : x a < x b := hholds
    obtain ⟨hal, hau⟩ := hx a ia ha
    obtain ⟨hbl, hbu⟩ := hx b ib hb
    have hlt : ia.lower < ib.upper := by omega
    have hbmax := ib.upper_lt
    have hpow : 2 ^ ia.width = 2 ^ ib.width := by rw [ht a ia ha, ht b ib hb, show wid a = wid b from hsort]
    have hsat : saturatingAdd ia.lower 1 = ia.lower + 1 :=
      saturatingAdd_eq ((succ_le_of_lt hlt).trans_lt
        (hbmax.trans_le (Nat.pow_le_pow_right two_pos (ht b ib hb ▸ hwid b))))
    obtain ⟨p₁, p₂, hset, hset', hkeep⟩ := tighten_both (ib.upper ≤ ia.upper)
      (ib.lower ≤ ia.lower) (i := .new ia.lower (ib.upper - 1) ia.width)
      (j := .new (saturatingAdd ia.lower 1) ib.upper ib.width) hwid ht hx
      (hterms a (by simp [Constraint.terms])) (hterms b (by simp [Constraint.terms])) (ht a ia ha) (ht b ib hb)
      (fun _ => by
        rw [mem_new, mod_eq_of_lt ia.lower_lt, mod_eq_of_lt (by omega)]
        omega)
      (fun _ => by
        rw [mem_new, hsat, mod_eq_of_lt hbmax, mod_eq_of_lt (by omega)]
        omega)
    exact ⟨p₂, by simp [hset, hset', Nat.not_le.mpr hlt], hkeep⟩
  | ule a b =>
    refine withIntervals_spec ht hx fun ia ib ha hb => ?_
    have hab : x a ≤ x b := hholds
    obtain ⟨hal, hau⟩ := hx a ia ha
    obtain ⟨hbl, hbu⟩ := hx b ib hb
    have hle : ia.lower ≤ ib.upper := by omega
    have hpow : 2 ^ ia.width = 2 ^ ib.width := by rw [ht a ia ha, ht b ib hb, show wid a = wid b from hsort]
    have hlmax : ia.lower < 2 ^ ib.width := hpow ▸ ia.lower_lt
    have humax : ib.upper < 2 ^ ia.width := hpow ▸ ib.upper_lt
    obtain ⟨p₁, p₂, hset, hset', hkeep⟩ := tighten_both (ib.upper < ia.upper)
      (ib.lower < ia.lower) (i := .new ia.lower ib.upper ia.width)
      (j := .new ia.lower ib.upper ib.width) hwid ht hx (hterms a (by simp [Constraint.terms]))
      (hterms b (by simp [Constraint.terms])) (ht a ia ha) (ht b ib hb)
      (fun _ => by
        rw [mem_new, mod_eq_of_lt ia.lower_lt, mod_eq_of_lt humax]
        omega)
      (fun _ => by
        rw [mem_new, mod_eq_of_lt hlmax, mod_eq_of_lt ib.upper_lt]
        omega)
    exact ⟨p₂, by simp [hset, hset', Nat.not_lt.mpr hle], hkeep⟩
  | bin op c a b =>
    refine withIntervals_spec ht hx fun ia ib ha hb => ?_
    obtain ⟨hca, hab⟩ : wid c = wid a ∧ wid a = wid b := hsort
    have hc : x c = op.apply (wid a) (x a) (x b) := hholds
    have hwa := ht a ia ha
    have hw : ia.width = ib.width := by rw [hwa, ht b ib hb, hab]
    have hxa := hx a ia ha
    have hxb := hx b ib hb
    obtain ⟨ic, hic, hcovers⟩ := (op.safe_spec (hwa ▸ hwid a) hw (hxa.1.trans hxa.2) (hxb.1.trans hxb.2)).1
      (hsafe ia ib ha hb)
    have hmemC := hcovers (x a) (x b) hxa hxb
    rw [hwa, ← hc] at hmemC
    obtain ⟨p', hset, hkeep⟩ := setInterval_spec (t := c) (hwid c) ht hx
      (hterms c (by simp [Constraint.terms])) ((BinOp.width_propagate hic).trans (hwa.trans hca.symm)) hmemC
    exact ⟨p', by simp [hic, hset], hkeep⟩
  | not c a =>
    have hca : wid c = wid a := hsort
    have hc : x c = 2 ^ wid a - 1 - x a := hholds
    cases ha : p.intervals a with
    | none => exact ⟨p, by simp only [propagateConstraint, ha], ht, hx, rfl, le_rfl⟩
    | some ia =>
      have hwa := ht a ia ha
      have hmemC := mem_propagateNot (hwa ▸ hwid a) (hx a ia ha)
      rw [hwa, ← hc] at hmemC
      obtain ⟨p', hset, hkeep⟩ := setInterval_spec (t := c) (hwid c) ht hx
        (hterms c (by simp [Constraint.terms])) (width_propagateNot.trans (hwa.trans hca.symm)) hmemC
      exact ⟨p', by simp [propagateConstraint, ha, hset], hkeep⟩

theorem propagateConstraints_spec (hwid : ∀ t, wid t ≤ 64) {constraints : List Constraint}
    (hsort : ∀ c ∈ constraints, c.WellSorted wid) (hholds : ∀ c ∈ constraints, c.Holds wid x)
    (ht : Typed wid p) (hx : Contains x p) (hsub : constraints ⊆ p.constraints)
    (hsafe : SafeConstraints constraints p) : Succeeds wid x p (propagateConstraints constraints p) := by
  induction constraints generalizing p with
  | nil => exact succeeds_refl ht hx
  | cons c constraints ih =>
    rw [forall_mem_cons] at hsort hholds
    obtain ⟨p₁, hp₁, hkeep⟩ := propagateConstraint_spec hwid ht hx (hsub mem_cons_self) hsort.1 hholds.1 hsafe.1
    obtain ⟨p₂, hp₂, hkeep'⟩ := ih hsort.2 hholds.2 hkeep.typed hkeep.contains
      (hkeep.constraints ▸ fun c hc => hsub (mem_cons_of_mem _ hc)) (hsafe.2 p₁ hp₁)
    exact ⟨p₂, by simp only [propagateConstraints, hp₁, hp₂], hkeep.trans hkeep'⟩

theorem propagateLoop_spec (hwid : ∀ t, wid t ≤ 64) {fuel : ℕ} (hfuel : p.rounds < fuel)
    (hsort : ∀ c ∈ p.constraints, c.WellSorted wid) (hholds : ∀ c ∈ p.constraints, c.Holds wid x) (ht : Typed wid p)
    (hx : Contains x p) (hsafe : SafeLoop fuel p) : Succeeds wid x p (propagateLoop fuel p) := by
  induction fuel generalizing p with
  | zero => contradiction
  | succ fuel ih =>
    cases hqueue : p.queue with
    | nil => exact ⟨p, by simp only [propagateLoop, hqueue], ht, hx, rfl, le_rfl⟩
    | cons t queue =>
      obtain ⟨hsafe, hrest⟩ := hsafe t queue hqueue
      obtain ⟨p₁, hp₁, hkeep⟩ := propagateConstraints_spec (p := { p with queue := queue }) hwid hsort hholds ht hx
        (List.Subset.refl _) hsafe
      have hrounds : p.rounds = ({ p with queue := queue } : WordLevelPropagator).rounds + 1 := by
        simp only [rounds, hqueue, length_cons]
        exact Nat.add_right_comm _ _ _
      have hkeepRounds := hkeep.rounds
      obtain ⟨p₂, hp₂, hkeep'⟩ := ih (by omega) (hkeep.constraints ▸ hsort) (hkeep.constraints ▸ hholds)
        hkeep.typed hkeep.contains (hrest p₁ hp₁)
      refine ⟨p₂, by simp only [propagateLoop, hqueue, hp₁, hp₂], hkeep'.typed, hkeep'.contains,
        hkeep'.constraints.trans hkeep.constraints, ?_⟩
      have hkeepRounds' := hkeep'.rounds
      omega

/-- Under its condition a transfer function covers the operation, and for all but two operations only
then. In a run under these conditions propagation ends without a conflict and keeps every solution. -/
theorem propagate_contains (wid : ℕ → ℕ) (p : WordLevelPropagator) :
    (∀ (op : BinOp) (a b : Interval), a.width ≤ 64 → a.width = b.width → a.lower ≤ a.upper → b.lower ≤ b.upper →
    (op.Safe a b → ∃ c, op.propagate a b = some c ∧ Covers (op.apply a.width) a b c) ∧
    (op.Exact → (∃ c, op.propagate a b = some c ∧ Covers (op.apply a.width) a b c) → op.Safe a b)) ∧
    ((∀ t, wid t ≤ 64) → (∀ c ∈ p.constraints, c.WellSorted wid) → Typed wid p → SafeRun p →
    ∀ x : ℕ → ℕ, (∀ c ∈ p.constraints, c.Holds wid x) → Contains x p → ∃ p', p.propagate = some (.ok (), p') ∧
    Contains x p') := by
  refine ⟨fun op a b hwidth hw ha hb => op.safe_spec hwidth hw ha hb, ?_⟩
  intro hwid hsort ht hsafe x hholds hx
  obtain ⟨p', hp', hkeep⟩ := propagateLoop_spec hwid (lt_succ_self _) hsort hholds ht hx hsafe
  exact ⟨p', hp', hkeep.contains⟩

def sum (upper : ℕ) : WordLevelPropagator where
  intervals := fun
    | 0 => some (.new 0 upper 8)
    | 1 => some (.new 0 100 8)
    | 3 => some (.new 50 50 8)
    | _ => none
  constraints := [.bin .add 2 0 1, .ult 3 2]
  queue := [1]

theorem typed_sum (upper : ℕ) : Typed (fun _ => 8) (sum upper) := by
  intro t i h
  simp only [sum] at h
  split at h
  · rw [← some.inj h, width_new]
  · rw [← some.inj h, width_new]
  · rw [← some.inj h, width_new]
  · contradiction

def sumValues (t : ℕ) : ℕ := if t = 3 then 50 else if t = 2 then 200 else 100

theorem holds_sum (upper : ℕ) : ∀ c ∈ (sum upper).constraints, c.WellSorted (fun _ => 8) ∧
    c.Holds (fun _ => 8) sumValues := by
  simp [sum, sumValues, Constraint.WellSorted, Constraint.Holds, BinOp.apply]

theorem contains_sum {upper : ℕ} (hupper : 100 ≤ upper % 2 ^ 8) : Contains sumValues (sum upper) := by
  intro t i h
  simp only [sum] at h
  split at h
  · rw [← some.inj h]
    exact mem_new.mpr ⟨by decide, hupper⟩
  · rw [← some.inj h]
    exact mem_new.mpr ⟨by decide, by decide⟩
  · rw [← some.inj h]
    exact mem_new.mpr ⟨by decide, by decide⟩
  · contradiction

theorem safeRun_sum : SafeRun (sum 155) := by
  have hadd : ∀ p : WordLevelPropagator, p.intervals 0 = some (.new 0 155 8) → p.intervals 1 = some (.new 0 100 8) →
      SafeConstraints [.bin .add 2 0 1, .ult 3 2] p := by
    intro p h0 h1
    refine ⟨fun ia ib ha hb => ?_, fun _ _ => ⟨trivial, fun _ _ => trivial⟩⟩
    rw [h0] at ha
    rw [h1] at hb
    obtain rfl := some.inj ha
    obtain rfl := some.inj hb
    exact rfl
  let sum₁ := ({ sum 155 with queue := [] } : WordLevelPropagator).insert 2 (.new 0 255 8)
  let sum₂ := sum₁.insert 2 (.new 51 255 8)
  have hfirst : propagateConstraints (sum 155).constraints { sum 155 with queue := [] } = some (.ok (), sum₂) := rfl
  have hother : ∀ queue, propagateConstraints (sum 155).constraints { sum₂ with queue := queue } =
      some (.ok (), { sum₂ with queue := queue }) := fun _ => rfl
  have hloop : ∀ n, SafeLoop (n + 4) (sum 155) := by
    rintro n t queue ⟨⟩
    refine ⟨hadd _ rfl rfl, fun p hp => ?_⟩
    rw [hfirst] at hp
    obtain rfl := (Prod.mk.inj (some.inj hp)).2
    rintro t queue ⟨⟩
    refine ⟨hadd _ rfl rfl, fun p hp => ?_⟩
    obtain rfl := (Prod.mk.inj (some.inj ((hother _).symm.trans hp))).2
    rintro t queue ⟨⟩
    refine ⟨hadd _ rfl rfl, fun p hp => ?_⟩
    obtain rfl := (Prod.mk.inj (some.inj ((hother _).symm.trans hp))).2
    exact nofun
  exact hloop _

theorem propagate_contains_sum : ∃ p', (sum 155).propagate = some (.ok (), p') ∧ Contains sumValues p' :=
  (propagate_contains (fun _ => 8) (sum 155)).2 (fun _ => by decide) (fun c hc => (holds_sum 155 c hc).1)
    (typed_sum 155) safeRun_sum sumValues (fun c hc => (holds_sum 155 c hc).2) (contains_sum (by decide))

/-- Sums that wrap around in part are reported as a conflict. -/
theorem not_propagate_contains : ¬∀ (wid : ℕ → ℕ) (p : WordLevelPropagator), (∀ t, 1 ≤ wid t ∧ wid t ≤ 64) →
    (∀ c ∈ p.constraints, c.WellSorted wid) → Typed wid p → ∀ x : ℕ → ℕ, (∀ t, x t < 2 ^ wid t) →
      (∀ c ∈ p.constraints, c.Holds wid x) → Contains x p →
        ∃ p', p.propagate = some (.ok (), p') ∧ Contains x p' := by
  intro h
  have hconflict : (sum 200).propagate.map Prod.fst = some (.error .conflict) := by decide
  have hbyte : ∀ t, sumValues t < 2 ^ 8 := by
    intro t
    unfold sumValues
    split
    · decide
    · split
      · decide
      · decide
  obtain ⟨p', hp', -⟩ := h (fun _ => 8) (sum 200) (fun _ => by decide) (fun c hc => (holds_sum 200 c hc).1)
    (typed_sum 200) sumValues hbyte (fun c hc => (holds_sum 200 c hc).2) (contains_sum (by decide))
  rw [hp', map_some, some.injEq] at hconflict
  contradiction

end WordLevelPropagator

end Nixie.Bv
