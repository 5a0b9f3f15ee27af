import Mathlib.Algebra.Order.Ring.Rat
import Mathlib.Data.Nat.GCD.Basic
import Mathlib.Data.Nat.Prime.Basic

namespace Nixie.Math

open Nat

def trailingZeros (n : ℕ) : ℕ :=
  if n = 0 then 64 else if n % 2 = 1 then 0 else trailingZeros (n / 2) + 1
termination_by n

section

variable {a b n : ℕ}

theorem trailingZeros_spec (hn : n ≠ 0) :
    2 ^ trailingZeros n * (n >>> trailingZeros n) = n ∧ n >>> trailingZeros n % 2 = 1 := by
  induction n using trailingZeros.induct with
  | case1 => exact absurd rfl hn
  | case2 n hn' hodd =>
    rw [trailingZeros, if_neg hn', if_pos hodd]
    simpa using hodd
  | case3 n hn' heven ih =>
    obtain ⟨hsplit, hodd⟩ := ih (by omega)
    have hstep : n >>> (trailingZeros (n / 2) + 1) = (n / 2) >>> trailingZeros (n / 2) := by
      rw [shiftRight_eq_div_pow, shiftRight_eq_div_pow, pow_succ', Nat.div_div_eq_div_mul]
    rw [trailingZeros, if_neg hn', if_neg heven, hstep]
    refine ⟨?_, hodd⟩
    rw [pow_succ', mul_assoc, hsplit]
    omega

theorem trailingZeros_or (ha : a ≠ 0) (hb : b ≠ 0) :
    trailingZeros (a ||| b) = min (trailingZeros a) (trailingZeros b) := by
  induction a using trailingZeros.induct generalizing b with
  | case1 => exact absurd rfl ha
  | case2 a ha' hodd =>
    have hor : (a ||| b) % 2 = 1 := by
      rw [or_mod_two_eq_one]
      exact .inl hodd
    rw [trailingZeros, if_neg (by omega), if_pos hor, trailingZeros, if_neg ha', if_pos hodd, Nat.zero_min]
  | case3 a ha' heven ih =>
    by_cases hbodd : b % 2 = 1
    · have hor : (a ||| b) % 2 = 1 := by
        rw [or_mod_two_eq_one]
        exact .inr hbodd
      rw [trailingZeros, if_neg (by omega), if_pos hor, trailingZeros.eq_def b, if_neg hb, if_pos hbodd, Nat.min_zero]
    · have hor : ¬ (a ||| b) % 2 = 1 := by
        rw [or_mod_two_eq_one]
        omega
      have hne : a ||| b ≠ 0 := fun h => ha (Nat.or_eq_zero_iff.mp h).1
      have hhalf : (a ||| b) / 2 = a / 2 ||| b / 2 := or_div_two
      rw [trailingZeros, if_neg hne, if_neg hor, hhalf, ih (by omega) (by omega),
        trailingZeros.eq_def a, if_neg ha', if_neg heven, trailingZeros.eq_def b, if_neg hb, if_neg hbodd,
        Nat.add_min_add_right]

theorem shiftRight_pos (hn : 0 < n) : 0 < n >>> trailingZeros n := by
  refine Nat.pos_of_ne_zero fun hzero => ?_
  have hodd := (trailingZeros_spec hn.ne').2
  rw [hzero] at hodd
  cases hodd

end

def gcdLoop (a b : ℕ) (ha : 0 < a) (hb : 0 < b) : ℕ :=
  let b' := b >>> trailingZeros b
  -- the smaller of the two stays, whether they were swapped or not
  let lo := if a > b' then b' else a
  let hi := if a > b' then a else b'
  if h : hi - lo = 0 then lo
  else gcdLoop lo (hi - lo)
    (by
      have := shiftRight_pos hb
      simp only [lo, b']
      split <;> omega)
    (Nat.pos_of_ne_zero h)
termination_by a + b
decreasing_by
  have hle : b >>> trailingZeros b ≤ b := shiftRight_le b _
  have := shiftRight_pos hb
  split <;> omega

section

variable {a b : ℕ}

theorem gcd_two_pow_mul (ha : a % 2 = 1) (k b : ℕ) : a.gcd (2 ^ k * b) = a.gcd b :=
  Nat.Coprime.gcd_mul_left_cancel_right b
    (Nat.Coprime.pow_left k (Nat.coprime_two_left.mpr (Nat.odd_iff.mpr ha)))

theorem gcdLoop_eq (ha : 0 < a) (hb : 0 < b) (hodd : a % 2 = 1) : gcdLoop a b ha hb = a.gcd b := by
  fun_induction gcdLoop a b ha hb with
  | case1 a b ha hb b' lo hi hzero =>
    obtain ⟨hsplit, hodd'⟩ := trailingZeros_spec hb.ne'
    have hgcd : a.gcd b = a.gcd b' := by
      rw [← hsplit, gcd_two_pow_mul hodd]
    have heq : a = b' := by
      simp only [lo, hi] at hzero
      split at hzero <;> omega
    rw [hgcd, ← heq, gcd_self]
    simp [lo, ← heq]
  | case2 a b ha hb b' lo hi hne ih =>
    obtain ⟨hsplit, hodd'⟩ := trailingZeros_spec hb.ne'
    have hgcd : a.gcd b = a.gcd b' := by
      rw [← hsplit, gcd_two_pow_mul hodd]
    rw [hgcd]
    by_cases hswap : a > b'
    · simp only [lo, hi, hswap, dite_true] at ih ⊢
      rw [ih hodd', gcd_sub_self_right hswap.le, Nat.gcd_comm]
    · simp only [lo, hi, hswap, dite_false] at ih ⊢
      rw [ih hodd, gcd_sub_self_right (not_lt.mp hswap)]

theorem gcdLoop_shift (ha : 0 < a) (hb : 0 < b) :
    2 ^ trailingZeros (a ||| b) * gcdLoop (a >>> trailingZeros a) b (shiftRight_pos ha) hb = a.gcd b := by
  obtain ⟨hasplit, haodd⟩ := trailingZeros_spec ha.ne'
  obtain ⟨hbsplit, hbodd⟩ := trailingZeros_spec hb.ne'
  rw [gcdLoop_eq _ _ haodd, trailingZeros_or ha.ne' hb.ne']
  generalize a >>> trailingZeros a = a' at *
  generalize b >>> trailingZeros b = b' at *
  generalize trailingZeros a = s at *
  generalize trailingZeros b = t at *
  rw [← hasplit, ← hbsplit, gcd_two_pow_mul haodd]
  rcases le_total s t with hle | hle
  · obtain ⟨k, rfl⟩ := Nat.exists_eq_add_of_le hle
    rw [min_eq_left hle, pow_add, mul_assoc, Nat.gcd_mul_left, gcd_two_pow_mul haodd]
  · obtain ⟨k, rfl⟩ := Nat.exists_eq_add_of_le hle
    rw [min_eq_right hle, pow_add, mul_assoc, Nat.gcd_mul_left, Nat.gcd_comm (2 ^ k * a'),
      gcd_two_pow_mul hbodd, Nat.gcd_comm]

end

end Nixie.Math

namespace Nixie.Math

def tryIntoI64 (z : ℤ) : Option Int64 :=
  if -2 ^ 63 ≤ z ∧ z < 2 ^ 63 then some (Int64.ofInt z) else none

def checkedMul (a b : Int64) : Option Int64 :=
  tryIntoI64 (a.toInt * b.toInt)

def checkedAdd (a b : Int64) : Option Int64 :=
  tryIntoI64 (a.toInt + b.toInt)

def checkedSub (a b : Int64) : Option Int64 :=
  tryIntoI64 (a.toInt - b.toInt)

def checkedNeg (a : Int64) : Option Int64 :=
  tryIntoI64 (-a.toInt)

def checkedAbs (a : Int64) : Option Int64 :=
  tryIntoI64 |a.toInt|

def rawDiv (a b : Int64) : Option Int64 :=
  if b.toInt = 0 then none else tryIntoI64 (a.toInt.tdiv b.toInt)

def gcdI64 (x y : Int64) : Int64 :=
  if hx : x.toInt.natAbs = 0 then Int64.ofNat y.toInt.natAbs
  else if hy : y.toInt.natAbs = 0 then Int64.ofNat x.toInt.natAbs
  else
    let a := x.toInt.natAbs
    let b := y.toInt.natAbs
    let shift := trailingZeros (a ||| b)
    let odd := gcdLoop (a >>> trailingZeros a) b (shiftRight_pos (Nat.pos_of_ne_zero hx))
      (Nat.pos_of_ne_zero hy)
    Int64.ofNat (odd <<< shift % 2 ^ 64)

inductive FastRational
  | small (num den : Int64)
  | big (b : ℚ)
  deriving DecidableEq

namespace FastRational

def bigNew (num den : Int64) : ℚ :=
  num.toInt / den.toInt

def reduceSmall (n d : Int64) : Option FastRational :=
  let g := gcdI64 n d
  if g.toInt = 0 then some (small 0 1)
  else do
    let n' ← rawDiv n g
    let d' ← rawDiv d g
    return small n' d'

/-- `none` where a word operation overflows; the check of the denominator is for debugging. -/
def newSmall (num den : Int64) : Option FastRational :=
  if num.toInt = 0 then some (small 0 1)
  else if den.toInt < 0 then
    match checkedNeg num, checkedNeg den with
    | some nn, some dd => reduceSmall nn dd
    | _, _ => some (big (bigNew num den))
  else reduceSmall num den

def fromBig (br : ℚ) : Option FastRational :=
  match tryIntoI64 br.num, tryIntoI64 br.den with
  | some n, some d => if d.toInt ≠ 0 then newSmall n d else some (big br)
  | _, _ => some (big br)

def fromInt (n : Int64) : FastRational :=
  small n 1

def fromPair (n d : Int64) : Option FastRational :=
  if d.toInt = 0 then some (small 0 1) else newSmall n d

def fromBigint (z : ℤ) : FastRational :=
  match tryIntoI64 z with
  | some n => small n 1
  | none => big z

def toBigRational : FastRational → ℚ
  | small num den => bigNew num den
  | big b => b

def isZero : FastRational → Bool
  | small num _ => num.toInt == 0
  | big b => b == 0

def addSmall (aNum aDen bNum bDen : Int64) : Option FastRational :=
  let fallback := fromBig (bigNew aNum aDen + bigNew bNum bDen)
  match checkedMul aNum bDen, checkedMul bNum aDen, checkedMul aDen bDen with
  | some ad, some cb, some bd =>
    match checkedAdd ad cb with
    | some num => newSmall num bd
    | none => fallback
  | _, _, _ => fallback

def subSmall (aNum aDen bNum bDen : Int64) : Option FastRational :=
  let fallback := fromBig (bigNew aNum aDen - bigNew bNum bDen)
  match checkedMul aNum bDen, checkedMul bNum aDen, checkedMul aDen bDen with
  | some ad, some cb, some bd =>
    match checkedSub ad cb with
    | some num => newSmall num bd
    | none => fallback
  | _, _, _ => fallback

def cancel (a g : Int64) : Option Int64 :=
  if g.toInt ≠ 0 then rawDiv a g else some a

def mulSmall (aNum aDen bNum bDen : Int64) : Option FastRational := do
  let g1 := gcdI64 aNum bDen
  let g2 := gcdI64 bNum aDen
  let an ← cancel aNum g1
  let bd ← cancel bDen g1
  let bn ← cancel bNum g2
  let ad ← cancel aDen g2
  match checkedMul an bn, checkedMul ad bd with
  | some num, some den => newSmall num den
  | _, _ => fromBig (bigNew aNum aDen * bigNew bNum bDen)

def divSmall (aNum aDen bNum bDen : Int64) : Option (Option FastRational) :=
  if bNum.toInt = 0 then some none
  else
    match checkedMul aNum bDen, checkedMul aDen bNum with
    | some num, some den => (newSmall num den).map some
    | _, _ => (fromBig (bigNew aNum aDen / bigNew bNum bDen)).map some

def add : FastRational → FastRational → Option FastRational
  | small an ad, small bn bd => addSmall an ad bn bd
  | a, b => fromBig (a.toBigRational + b.toBigRational)

def sub : FastRational → FastRational → Option FastRational
  | small an ad, small bn bd => subSmall an ad bn bd
  | a, b => fromBig (a.toBigRational - b.toBigRational)

def mul : FastRational → FastRational → Option FastRational
  | small an ad, small bn bd => mulSmall an ad bn bd
  | a, b => fromBig (a.toBigRational * b.toBigRational)

def div : FastRational → FastRational → Option FastRational
  | small an ad, small bn bd => (divSmall an ad bn bd).bind id
  | a, b => if b.isZero then none else fromBig (a.toBigRational / b.toBigRational)

def neg : FastRational → Option FastRational
  | small num den =>
    match checkedNeg num with
    | some n => some (small n den)
    | none => some (big (-(num.toInt : ℚ) / den.toInt))
  | big b => fromBig (-b)

def abs : FastRational → Option FastRational
  | small num den =>
    match checkedAbs num with
    | some n => some (small n den)
    | none => fromBig ((|num.toInt| : ℤ) / den.toInt)
  | big b => fromBig |b|

def recip : FastRational → Option (Option FastRational)
  | small num den => if num.toInt = 0 then some none else (newSmall den num).map some
  | big b => if b = 0 then some none else (fromBig b⁻¹).map some

def eq : FastRational → FastRational → Bool
  | small an ad, small bn bd => an == bn && ad == bd
  | a, b => a.toBigRational == b.toBigRational

def cmp : FastRational → FastRational → Ordering
  | small an ad, small bn bd =>
    match checkedMul an bd, checkedMul bn ad with
    | some lhs, some rhs => compare lhs.toInt rhs.toInt
    | _, _ => compare (bigNew an ad) (bigNew bn bd)
  | a, b => compare a.toBigRational b.toBigRational

inductive Hashed
  | word (n : Int64)
  | bigInt (z : ℤ)
  deriving DecidableEq

def hash : FastRational → Option (List Hashed)
  | small num den => some [.word num, .word den]
  | big b =>
    let whole :=
      if (b.den : ℤ) < 0 then [Hashed.bigInt (-b.num), .bigInt (-b.den)]
      else [.bigInt b.num, .bigInt b.den]
    match tryIntoI64 b.num, tryIntoI64 b.den with
    | some n, some d =>
      if 0 < d.toInt then some [.word n, .word d]
      else if d.toInt < 0 then do
        let n' ← checkedNeg n
        let d' ← checkedNeg d
        return [.word n', .word d']
      else some whole
    | _, _ => some whole

end FastRational

end Nixie.Math
