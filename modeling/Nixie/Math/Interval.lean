import Nixie.Corners

namespace Nixie.Math

inductive Bound
  | negInf
  | finite (r : ℚ)
  | posInf
  deriving DecidableEq

namespace Bound

def negate : Bound → Bound
  | negInf => posInf
  | posInf => negInf
  | finite r => finite (-r)

def add : Bound → Bound → Option Bound
  | negInf, posInf | posInf, negInf => none
  | negInf, _ | _, negInf => some negInf
  | posInf, _ | _, posInf => some posInf
  | finite a, finite b => some (finite (a + b))

def mulInf (a : ℚ) (inf : Bound) : Bound :=
  if a = 0 then finite 0 else if 0 < a then inf else inf.negate

def mul : Bound → Bound → Bound
  | finite a, finite b => finite (a * b)
  | finite a, inf => mulInf a inf
  | inf, finite a => mulInf a inf
  | negInf, negInf | posInf, posInf => posInf
  | negInf, posInf | posInf, negInf => negInf

def cmpBound : Bound → Bound → Ordering
  | negInf, negInf => .eq
  | negInf, _ => .lt
  | _, negInf => .gt
  | posInf, posInf => .eq
  | posInf, _ => .gt
  | _, posInf => .lt
  | finite a, finite b => compare a b

end Bound

structure Interval where
  lo : Bound
  hi : Bound
  loOpen : Bool
  hiOpen : Bool
  deriving DecidableEq

namespace Interval

def empty : Interval :=
  ⟨.posInf, .negInf, true, true⟩

def point (a : ℚ) : Interval :=
  ⟨.finite a, .finite a, false, false⟩

def closed (a b : ℚ) : Interval :=
  ⟨.finite a, .finite b, false, false⟩

def «open» (a b : ℚ) : Interval :=
  ⟨.finite a, .finite b, true, true⟩

def atLeast (a : ℚ) : Interval :=
  ⟨.finite a, .posInf, false, true⟩

def isEmpty (I : Interval) : Bool :=
  match I.lo.cmpBound I.hi with
  | .gt => true
  | .eq => I.loOpen || I.hiOpen
  | .lt => false

def contains (I : Interval) (x : ℚ) : Bool :=
  let loOk := match I.lo.cmpBound (.finite x) with
    | .lt => true
    | .eq => !I.loOpen
    | .gt => false
  let hiOk := match (Bound.finite x).cmpBound I.hi with
    | .lt => true
    | .eq => !I.hiOpen
    | .gt => false
  loOk && hiOk

def containsZero (I : Interval) : Bool :=
  I.contains 0

def isPositive (I : Interval) : Bool :=
  match I.lo with
  | .negInf => false
  | .posInf => I.isEmpty
  | .finite r => if 0 < r then true else if r = 0 then I.loOpen else false

def negate (I : Interval) : Interval :=
  ⟨I.hi.negate, I.lo.negate, I.hiOpen, I.loOpen⟩

def add (I J : Interval) : Option Interval :=
  if I.isEmpty || J.isEmpty then some empty
  else do
    let lo ← I.lo.add J.lo
    let hi ← I.hi.add J.hi
    return ⟨lo, hi, I.loOpen || J.loOpen, I.hiOpen || J.hiOpen⟩

def sub (I J : Interval) : Option Interval :=
  I.add J.negate

def products (I J : Interval) : List (Bound × Bool) :=
  [(I.lo.mul J.lo, I.loOpen || J.loOpen), (I.lo.mul J.hi, I.loOpen || J.hiOpen),
    (I.hi.mul J.lo, I.hiOpen || J.loOpen), (I.hi.mul J.hi, I.hiOpen || J.hiOpen)]

def extremum (bounds : List (Bound × Bool)) : Bound × Bool :=
  match bounds with
  | [] => (.posInf, true)
  | b :: _ => (b.1, (bounds.takeWhile fun p => p.1.cmpBound b.1 == .eq).all Prod.snd)

def mul (I J : Interval) : Interval :=
  if I.isEmpty || J.isEmpty then empty
  else
    let bounds := (products I J).mergeSort fun a b => a.1.cmpBound b.1 != .gt
    let (lo, loOpen) := extremum bounds
    let (hi, hiOpen) := extremum bounds.reverse
    ⟨lo, hi, loOpen, hiOpen⟩

def recipEnd : Bound → Option Bound
  | .negInf | .posInf => some (.finite 0)
  | .finite r => if r = 0 then none else some (.finite (1 / r))

def div (I J : Interval) : Option Interval :=
  if I.isEmpty || J.isEmpty then some empty
  else if J.containsZero then none
  else do
    let recipLo ← recipEnd J.hi
    let recipHi ← recipEnd J.lo
    return I.mul ⟨recipLo, recipHi, J.hiOpen, J.loOpen⟩

def intersect (I J : Interval) : Interval :=
  if I.isEmpty || J.isEmpty then empty
  else
    let (lo, loOpen) := match I.lo.cmpBound J.lo with
      | .lt => (J.lo, J.loOpen)
      | .gt => (I.lo, I.loOpen)
      | .eq => (I.lo, I.loOpen || J.loOpen)
    let (hi, hiOpen) := match I.hi.cmpBound J.hi with
      | .lt => (I.hi, I.hiOpen)
      | .gt => (J.hi, J.hiOpen)
      | .eq => (I.hi, I.hiOpen || J.hiOpen)
    ⟨lo, hi, loOpen, hiOpen⟩

def union (I J : Interval) : Option Interval :=
  if I.isEmpty then some J
  else if J.isEmpty then some I
  else
    let intersects := !(I.intersect J).isEmpty
    let adjacentLeft := I.hi == J.lo && (!I.hiOpen || !J.loOpen)
    let adjacentRight := J.hi == I.lo && (!J.hiOpen || !I.loOpen)
    if !intersects && !adjacentLeft && !adjacentRight then none
    else
      let (lo, loOpen) := match I.lo.cmpBound J.lo with
        | .lt => (I.lo, I.loOpen)
        | .gt => (J.lo, J.loOpen)
        | .eq => (I.lo, I.loOpen && J.loOpen)
      let (hi, hiOpen) := match I.hi.cmpBound J.hi with
        | .gt => (I.hi, I.hiOpen)
        | .lt => (J.hi, J.hiOpen)
        | .eq => (I.hi, I.hiOpen && J.hiOpen)
      some ⟨lo, hi, loOpen, hiOpen⟩

def powLoop (result base : ℚ) (exp : ℕ) : ℚ :=
  if exp = 0 then result
  else powLoop (if exp % 2 = 1 then result * base else result) (base * base) (exp / 2)
termination_by exp

def powRational (r : ℚ) (n : ℕ) : ℚ :=
  if n = 0 then 1 else powLoop 1 r n

def powEnd (n : ℕ) : Bound → Bound
  | .negInf => .negInf
  | .posInf => .posInf
  | .finite r => .finite (powRational r n)

def pow (I : Interval) (n : ℕ) : Option Interval :=
  if I.isEmpty then some empty
  else if n = 0 then some (point 1)
  else if n = 1 then some I
  else if n % 2 = 0 then
    if I.containsZero then
      match I.lo, I.hi with
      | .finite lo, .finite hi =>
        some ⟨.finite 0, .finite (powRational (max |lo| |hi|) n), false, I.loOpen && I.hiOpen⟩
      | .negInf, _ => some (atLeast 0)
      | .posInf, _ => none
      | .finite _, .posInf => some (atLeast 0)
      | .finite _, .negInf => none
    else if I.isPositive then
      match I.lo, I.hi with
      | .finite lo, .finite hi =>
        some ⟨.finite (powRational lo n), .finite (powRational hi n), I.loOpen, I.hiOpen⟩
      | .finite lo, _ => some (atLeast (powRational lo n))
      | _, _ => some (atLeast 0)
    else
      match I.hi, I.lo with
      | .finite hi, .finite lo =>
        some ⟨.finite (powRational hi n), .finite (powRational lo n), I.hiOpen, I.loOpen⟩
      | .finite hi, _ => some (atLeast (powRational hi n))
      | _, _ => some (atLeast 0)
  else some ⟨powEnd n I.lo, powEnd n I.hi, I.loOpen, I.hiOpen⟩

end Interval

end Nixie.Math

namespace Nixie.Math

open EReal

namespace Bound

variable {a b c : Bound} {x y : ℚ}

noncomputable def toEReal : Bound → EReal
  | negInf => ⊥
  | finite r => ((r : ℝ) : EReal)
  | posInf => ⊤

@[simp] theorem toEReal_finite (r : ℚ) : (finite r).toEReal = ((r : ℝ) : EReal) := rfl
@[simp] theorem toEReal_negInf : negInf.toEReal = ⊥ := rfl
@[simp] theorem toEReal_posInf : posInf.toEReal = ⊤ := rfl

theorem toEReal_injective : Function.Injective toEReal := by
  intro a b h
  cases a <;> cases b <;> simp_all [coe_ne_top, coe_ne_bot]

theorem cmpBound_eq_compare (a b : Bound) : (a.cmpBound b = .lt ↔ a.toEReal < b.toEReal) ∧ (a.cmpBound b = .eq ↔ a = b)
    ∧ (a.cmpBound b = .gt ↔ b.toEReal < a.toEReal) := by
  cases a <;> cases b <;>
    simp [cmpBound, compare_lt_iff_lt, compare_gt_iff_gt, bot_lt_coe, coe_lt_top]

theorem cmpBound_lt : a.cmpBound b = .lt ↔ a.toEReal < b.toEReal := (cmpBound_eq_compare a b).1
theorem cmpBound_eq : a.cmpBound b = .eq ↔ a = b := (cmpBound_eq_compare a b).2.1
theorem cmpBound_gt : a.cmpBound b = .gt ↔ b.toEReal < a.toEReal := (cmpBound_eq_compare a b).2.2

theorem toEReal_negate (a : Bound) : a.negate.toEReal = -a.toEReal := by
  cases a <;> simp [negate]

theorem toEReal_mulInf (h : b = negInf ∨ b = posInf) : (mulInf x b).toEReal = ((x : ℝ) : EReal) * b.toEReal := by
  unfold mulInf
  split_ifs with hzero hpos
  · rw [hzero]
    simp
  · have hx : (0 : ℝ) < x := by exact_mod_cast hpos
    rcases h with rfl | rfl
    · exact (coe_mul_bot_of_pos hx).symm
    · exact (coe_mul_top_of_pos hx).symm
  · have hx : (x : ℝ) < 0 := by exact_mod_cast lt_of_le_of_ne (not_lt.mp hpos) hzero
    rcases h with rfl | rfl
    · exact (coe_mul_bot_of_neg hx).symm
    · exact (coe_mul_top_of_neg hx).symm

theorem toEReal_mul (a b : Bound) : (a.mul b).toEReal = a.toEReal * b.toEReal := by
  cases a with
  | finite x =>
    cases b with
    | finite y => simp [mul]
    | negInf => exact toEReal_mulInf (.inl rfl)
    | posInf => exact toEReal_mulInf (.inr rfl)
  | negInf =>
    cases b with
    | finite y => rw [mul_comm]; exact toEReal_mulInf (.inl rfl)
    | negInf => rfl
    | posInf => rfl
  | posInf =>
    cases b with
    | finite y => rw [mul_comm]; exact toEReal_mulInf (.inr rfl)
    | negInf => rfl
    | posInf => rfl

end Bound

namespace Interval

open Nixie.Math.Bound

variable {I J K : Interval} {x y : ℚ}

structure Mem (I : Interval) (x : ℚ) : Prop where
  lo : I.lo.toEReal ≤ (x : ℝ)
  loClosed : I.lo = finite x → I.loOpen = false
  hi : ((x : ℝ) : EReal) ≤ I.hi.toEReal
  hiClosed : I.hi = finite x → I.hiOpen = false

theorem contains_iff : I.contains x = true ↔ I.Mem x := by
  unfold contains
  have hlo : (match I.lo.cmpBound (finite x) with
      | .lt => true
      | .eq => !I.loOpen
      | .gt => false) = true ↔ I.lo.toEReal ≤ (x : ℝ) ∧ (I.lo = finite x → I.loOpen = false) := by
    cases h : I.lo.cmpBound (finite x) with
    | lt =>
      rw [cmpBound_lt] at h
      refine iff_of_true rfl ⟨h.le, fun heq => ?_⟩
      rw [heq] at h
      exact absurd h (lt_irrefl _)
    | eq =>
      rw [cmpBound_eq] at h
      simp [h]
    | gt =>
      rw [cmpBound_gt] at h
      exact iff_of_false Bool.false_ne_true fun hle => absurd hle.1 (not_le.mpr h)
  have hhi : (match (finite x).cmpBound I.hi with
      | .lt => true
      | .eq => !I.hiOpen
      | .gt => false) = true ↔ ((x : ℝ) : EReal) ≤ I.hi.toEReal ∧ (I.hi = finite x → I.hiOpen = false) := by
    cases h : (finite x).cmpBound I.hi with
    | lt =>
      rw [cmpBound_lt] at h
      refine iff_of_true rfl ⟨h.le, fun heq => ?_⟩
      rw [heq] at h
      exact absurd h (lt_irrefl _)
    | eq =>
      rw [cmpBound_eq] at h
      simp [← h]
    | gt =>
      rw [cmpBound_gt] at h
      exact iff_of_false Bool.false_ne_true fun hle => absurd hle.1 (not_le.mpr h)
  rw [Bool.and_eq_true]
  refine (and_congr hlo hhi).trans ⟨fun h => ⟨h.1.1, h.1.2, h.2.1, h.2.2⟩,
    fun h => ⟨⟨h.lo, h.loClosed⟩, h.hi, h.hiClosed⟩⟩

theorem isEmpty_iff : I.isEmpty = true ↔ I.hi.toEReal < I.lo.toEReal ∨
    I.lo = I.hi ∧ (I.loOpen = true ∨ I.hiOpen = true) := by
  unfold isEmpty
  cases h : I.lo.cmpBound I.hi with
  | gt => exact iff_of_true rfl (.inl (cmpBound_gt.mp h))
  | eq =>
    rw [cmpBound_eq] at h
    simp [h]
  | lt =>
    rw [cmpBound_lt] at h
    refine iff_of_false Bool.false_ne_true ?_
    rintro (hlt | ⟨heq, -⟩)
    · exact absurd h (not_lt.mpr hlt.le)
    · rw [heq] at h
      exact absurd h (lt_irrefl _)

theorem Mem.not_isEmpty (h : I.Mem x) : I.isEmpty = false := by
  rw [← Bool.not_eq_true, isEmpty_iff]
  rintro (hlt | ⟨heq, hopen⟩)
  · exact absurd (h.lo.trans h.hi) (not_le.mpr hlt)
  · have hx : I.lo = finite x := by
      refine toEReal_injective (le_antisymm h.lo ?_)
      rw [heq]
      exact h.hi
    have hlo := h.loClosed hx
    have hhi := h.hiClosed (heq ▸ hx)
    simp [hlo, hhi] at hopen

theorem not_mem_empty : ¬ empty.Mem x :=
  fun h => absurd h.lo (not_le.mpr (coe_lt_top _))

theorem not_mem_of_isEmpty (h : I.isEmpty = true) : ¬ I.Mem x := by
  intro hx
  rw [hx.not_isEmpty] at h
  cases h

end Interval

end Nixie.Math
