import Mathlib.Data.Nat.Bitwise
import Mathlib.Tactic.Ring

/-!
Unsigned intervals of bit-vectors and their transfer functions, `nixie-theories/src/bv/propagator.rs`.
-/

namespace Nixie.Bv

open Nat

theorem residues_iff {m l u : ℕ} (hm : 0 < m) (hle : l ≤ u) :
    (∀ z, l ≤ z → z ≤ u → l % m ≤ z % m ∧ z % m ≤ u % m) ↔ l / m = u / m ∨ l % m = 0 ∧ (u + 1) % m = 0 := by
  have hl := div_add_mod l m
  have hu := div_add_mod u m
  have hlt := mod_lt l hm
  constructor
  · intro h
    by_cases heq : l / m = u / m
    · exact .inl heq
    · have hlt' : l / m < u / m := lt_of_le_of_ne (Nat.div_le_div_right hle) heq
      have hnext : m * (l / m + 1) ≤ m * (u / m) := mul_le_mul_left m hlt'
      rw [mul_add, mul_one] at hnext
      have hlast : (m * (l / m) + (m - 1)) % m = m - 1 := by
        rw [mul_add_mod, mod_eq_of_lt (by omega)]
      have hfirst : (m * (l / m) + m) % m = 0 := by
        rw [mul_add_mod, mod_self]
      have hupper := (h (m * (l / m) + (m - 1)) (by omega) (by omega)).2
      have hlower := (h (m * (l / m) + m) (by omega) (by omega)).1
      have humod := mod_lt u hm
      have hu1 : u + 1 = m * (u / m) + m := by omega
      exact .inr ⟨by omega, by rw [hu1, mul_add_mod, mod_self]⟩
  · rintro (heq | ⟨hzero, hwhole⟩) z hlz hzu
    · have hz := div_add_mod z m
      have hlow : l / m ≤ z / m := Nat.div_le_div_right hlz
      have hhigh : z / m ≤ u / m := Nat.div_le_div_right hzu
      have hsame : z / m = l / m := by omega
      rw [hsame] at hz
      rw [← heq] at hu
      omega
    · have hzm := mod_lt z hm
      have humod : u % m = m - 1 := by
        have hu1 := succ_mod_succ_eq_zero_iff (a := u) (b := m - 1)
        rw [Nat.sub_add_cancel hm] at hu1
        exact hu1.mp hwhole
      omega

/-- The highest bit in which two numbers differ is one of the larger. -/
theorem highest_bit_of_lt {m n : ℕ} (h : m < n) :
    ∃ i, m.testBit i = false ∧ n.testBit i = true ∧ ∀ j, i < j → m.testBit j = n.testBit j := by
  have hne : m ^^^ n ≠ 0 := fun hzero => h.ne (Nat.xor_eq_zero_iff.mp hzero)
  obtain ⟨i, hi, habove⟩ := exists_most_significant_bit hne
  have hsame : ∀ j, i < j → m.testBit j = n.testBit j := by
    intro j hj
    have hxor := habove j hj
    rw [testBit_xor] at hxor
    simpa using hxor
  rw [testBit_xor] at hi
  cases hn : n.testBit i with
  | true =>
    rw [hn] at hi
    exact ⟨i, by simpa using hi, hn, hsame⟩
  | false =>
    rw [hn] at hi
    exact absurd (lt_of_testBit i hn (by simpa using hi) fun j hj => (hsame j hj).symm) h.not_gt

theorem all_ones_iff {n i : ℕ} : n % 2 ^ i = 2 ^ i - 1 ↔ ∀ j < i, n.testBit j = true := by
  constructor
  · intro h j hj
    have hbit := congrArg (testBit · j) h
    simpa [testBit_mod_two_pow, hj] using hbit
  · intro h
    apply eq_of_testBit_eq
    intro j
    by_cases hj : j < i
    · simp [testBit_mod_two_pow, hj, h j hj]
    · simp [testBit_mod_two_pow, hj]

/-- A bit that both upper ends have and one operand can do without frees the bits below it: in the or
of the upper ends all of these have to be set already. -/
def OrBounds (l u l' u' : ℕ) : Prop :=
  ∀ i, u.testBit i = true → u'.testBit i = true → (l / 2 ^ i < u / 2 ^ i ∨ l' / 2 ^ i < u' / 2 ^ i) →
    (u ||| u') % 2 ^ i = 2 ^ i - 1

theorem OrBounds.symm {l u l' u' : ℕ} (h : OrBounds l u l' u') : OrBounds l' u' l u := by
  intro i hu hu' hfree
  rw [Nat.or_comm]
  exact h i hu' hu hfree.symm

/-- A member without a bit of the upper end, but with all higher ones. -/
theorem free_of_bit {l u x i : ℕ} (hl : l ≤ x) (hx : x.testBit i = false) (hu : u.testBit i = true)
    (habove : ∀ j, i < j → x.testBit j = u.testBit j) : l / 2 ^ i < u / 2 ^ i := by
  refine (Nat.div_le_div_right hl).trans_lt (lt_of_testBit 0 ?_ ?_ fun j hj => ?_)
  · rwa [testBit_div_two_pow, Nat.zero_add]
  · rwa [testBit_div_two_pow, zero_add]
  · rw [testBit_div_two_pow, testBit_div_two_pow]
    exact habove _ (by omega)

theorem OrBounds.no_bit {l u l' u' x y j : ℕ} (h : OrBounds l u l' u') (hl : l ≤ x) (hu : x ≤ u) (hl' : l' ≤ y)
    (hu' : y ≤ u') (hnone : (u ||| u').testBit j = false)
    (habove : ∀ k, j < k → (u ||| u').testBit k = (x ||| y).testBit k) : x.testBit j = false := by
  by_contra hx
  rw [Bool.not_eq_false] at hx
  simp only [testBit_or, Bool.or_eq_false_iff] at hnone habove
  -- the first bit of `u` that `x` lacks is above, and `y` has it
  have hlt : x < u := lt_of_le_of_ne hu fun heq => by
    rw [← heq, hx] at hnone
    cases hnone.1
  obtain ⟨i, hxi, hui, hsame⟩ := highest_bit_of_lt hlt
  have hji : j < i := by
    rcases lt_trichotomy i j with hij | rfl | hij
    · rw [← hsame j hij, hx] at hnone
      cases hnone.1
    · rw [hx] at hxi
      cases hxi
    · exact hij
  have hyi : y.testBit i = true := by
    have hi := habove i hji
    rw [hui, hxi] at hi
    simpa using hi.symm
  have hset (k : ℕ) (hjk : j < k) (hu : u.testBit k = true) (hu' : u'.testBit k = true)
      (hfree : l / 2 ^ k < u / 2 ^ k ∨ l' / 2 ^ k < u' / 2 ^ k) : False := by
    have hones := all_ones_iff.mp (h k hu hu' hfree) j hjk
    rw [testBit_or, hnone.1, hnone.2] at hones
    cases hones
  cases hu'i : u'.testBit i with
  | true => exact hset i hji hui hu'i (.inl (free_of_bit hl hxi hui hsame))
  | false =>
    -- then `u'` has a bit above that `y` lacks
    have hlt' : y < u' := lt_of_le_of_ne hu' fun heq => by
      rw [← heq, hyi] at hu'i
      cases hu'i
    obtain ⟨k, hyk, hu'k, hsame'⟩ := highest_bit_of_lt hlt'
    have hik : i < k := by
      rcases lt_trichotomy k i with hki | rfl | hki
      · rw [← hsame' i hki, hyi] at hu'i
        cases hu'i
      · rw [hyi] at hyk
        cases hyk
      · exact hki
    have huk : u.testBit k = true := by
      have hk := habove k (hji.trans hik)
      rw [hu'k, hyk, hsame k hik, Bool.or_true, Bool.or_false] at hk
      exact hk.symm
    exact hset k (hji.trans hik) huk hu'k (.inr (free_of_bit hl' hyk hu'k hsame'))

theorem pred_or {m n : ℕ} (hm : m % 2 = 1) (hn : n % 2 = 1) : m - 1 ||| n = m ||| n := by
  apply eq_of_testBit_eq
  intro j
  cases j with
  | zero => simp [testBit_zero, hm, hn]
  | succ j =>
    have hhalf : (m - 1) / 2 = m / 2 := by omega
    rw [testBit_or, testBit_or]
    simp only [testBit_succ, hhalf]

/-- The operand that does without a bit has all the lower ones. -/
theorem ones_of_free {l u u' i : ℕ} (hu : u.testBit i = true) (hu' : u'.testBit i = true)
    (hfree : l / 2 ^ i < u / 2 ^ i) (hall : ∀ x, l ≤ x → x ≤ u → x ||| u' ≤ u ||| u') :
    (u ||| u') % 2 ^ i = 2 ^ i - 1 := by
  have hpos := Nat.two_pow_pos i
  rw [testBit_eq_decide_div_mod_eq, decide_eq_true_iff] at hu hu'
  obtain ⟨q, hq⟩ := exists_eq_succ_of_ne_zero (n := u / 2 ^ i) fun hzero => by simp [hzero] at hu
  rw [succ_eq_add_one] at hq
  rw [hq] at hfree hu
  have hl : l < 2 ^ i * q + 2 ^ i := by
    rw [← mul_succ, mul_comm, ← div_lt_iff_lt_mul hpos]
    omega
  have hle : 2 ^ i * q + 2 ^ i ≤ u := by
    rw [← mul_succ, succ_eq_add_one, ← hq]
    exact mul_div_le u (2 ^ i)
  have hx := hall (2 ^ i * q + (2 ^ i - 1)) (by omega) (by omega)
  have hor := div_add_mod ((2 ^ i * q + (2 ^ i - 1)) ||| u') (2 ^ i)
  have hor' := div_add_mod (u ||| u') (2 ^ i)
  have hpred := pred_or hu hu'
  rw [Nat.add_sub_cancel] at hpred
  rw [or_div_two_pow, or_mod_two_pow, mul_add_div hpos, mul_add_mod,
    div_eq_of_lt (sub_one_lt hpos.ne'), mod_eq_of_lt (sub_one_lt hpos.ne'), add_zero, hpred] at hor
  rw [or_div_two_pow, hq] at hor'
  have hones : 2 ^ i - 1 ≤ 2 ^ i - 1 ||| u' % 2 ^ i := left_le_or
  have hlt := mod_lt (u ||| u') hpos
  omega

theorem or_le_iff {l u l' u' : ℕ} (h : l ≤ u) (h' : l' ≤ u') :
    (∀ x y, l ≤ x → x ≤ u → l' ≤ y → y ≤ u' → x ||| y ≤ u ||| u') ↔ OrBounds l u l' u' := by
  constructor
  · rintro hall i hu hu' (hfree | hfree)
    · exact ones_of_free hu hu' hfree fun x hl hx => hall x u' hl hx h' le_rfl
    · rw [Nat.or_comm]
      refine ones_of_free hu' hu hfree fun y hl hy => ?_
      rw [Nat.or_comm, Nat.or_comm u']
      exact hall u y h le_rfl hl hy
  · intro hb x y hx hx' hy hy'
    by_contra hlt
    obtain ⟨j, hnone, hsome, habove⟩ := highest_bit_of_lt (Nat.lt_of_not_le hlt)
    have hxj := hb.no_bit hx hx' hy hy' hnone habove
    have hyj := hb.symm.no_bit hy hy' hx hx' (by rwa [Nat.or_comm]) (by simpa only [Nat.or_comm] using habove)
    rw [testBit_or, hxj, hyj] at hsome
    cases hsome

theorem xor_le_or (x y : ℕ) : x ^^^ y ≤ x ||| y := by
  by_contra hlt
  obtain ⟨i, hor, hxor, -⟩ := highest_bit_of_lt (Nat.lt_of_not_le hlt)
  rw [testBit_or, Bool.or_eq_false_iff] at hor
  rw [testBit_xor, hor.1, hor.2] at hxor
  cases hxor

def wrappingAdd (a b : ℕ) : ℕ := (a + b) % 2 ^ 64

def wrappingSub (a b : ℕ) : ℕ := (a + 2 ^ 64 - b) % 2 ^ 64

def wrappingMul (a b : ℕ) : ℕ := a * b % 2 ^ 64

def saturatingAdd (a b : ℕ) : ℕ := min (a + b) (2 ^ 64 - 1)

theorem saturatingAdd_eq {a b : ℕ} (h : a + b < 2 ^ 64) : saturatingAdd a b = a + b :=
  min_eq_left (le_sub_one_of_lt h)

def mask (width : ℕ) : ℕ := if width = 64 then 2 ^ 64 - 1 else 2 ^ width - 1

variable {width : ℕ}

theorem mask_eq : mask width = 2 ^ width - 1 := by
  unfold mask
  split
  · next h => rw [h]
  · rfl

theorem and_mask {v : ℕ} : v &&& mask width = v % 2 ^ width := by
  rw [mask_eq, and_two_pow_sub_one_eq_mod]

theorem and_mask_lt {v : ℕ} : v &&& mask width < 2 ^ width := by
  rw [and_mask]
  exact mod_lt _ (Nat.two_pow_pos _)

theorem mask_lt : mask width < 2 ^ width := by
  rw [mask_eq]
  exact Nat.sub_one_lt (Nat.two_pow_pos width).ne'

/-- The values of a bit-vector between two bounds, which have its width; there are none if the lower
bound is above the upper one. -/
structure Interval where
  lower : ℕ
  upper : ℕ
  width : ℕ
  lower_lt : lower < 2 ^ width
  upper_lt : upper < 2 ^ width
  deriving DecidableEq

namespace Interval

def new (lower upper width : ℕ) : Interval :=
  ⟨lower &&& mask width, upper &&& mask width, width, and_mask_lt, and_mask_lt⟩

def full (width : ℕ) : Interval := ⟨0, mask width, width, Nat.two_pow_pos width, mask_lt⟩

def isSingleton (i : Interval) : Bool := i.lower = i.upper

def binary (f : Interval) (a b : Interval) : Option Interval := if a.width = b.width then some f else none

def intersect (i other : Interval) : Option (Option Interval) :=
  if i.width = other.width then
    let lower := max i.lower other.lower
    let upper := min i.upper other.upper
    some (if lower ≤ upper then some (new lower upper i.width) else none)
  else none

def propagateAdd (a b : Interval) : Option Interval :=
  binary (new (wrappingAdd a.lower b.lower) (wrappingAdd a.upper b.upper) a.width) a b

def propagateSub (a b : Interval) : Option Interval :=
  binary (new (wrappingSub a.lower b.upper) (wrappingSub a.upper b.lower) a.width) a b

def propagateAnd (a b : Interval) : Option Interval := binary (new 0 (min a.upper b.upper) a.width) a b

def propagateOr (a b : Interval) : Option Interval :=
  binary (new (max a.lower b.lower) (a.upper ||| b.upper) a.width) a b

def propagateXor (a b : Interval) : Option Interval := binary (new 0 (a.upper ||| b.upper) a.width) a b

def propagateShl (a b : Interval) : Option Interval :=
  if b.isSingleton then
    let shift := min b.lower a.width
    if 64 ≤ shift then none
    else binary (new (a.lower * 2 ^ shift % 2 ^ 64) (a.upper * 2 ^ shift % 2 ^ 64) a.width) a b
  else binary (full a.width) a b

def propagateLshr (a b : Interval) : Option Interval :=
  if b.isSingleton then
    let shift := min b.lower a.width
    if 64 ≤ shift then none else binary (new (a.lower / 2 ^ shift) (a.upper / 2 ^ shift) a.width) a b
  else binary (full a.width) a b

def corners (f : ℕ → ℕ → ℕ) (a b : Interval) : ℕ :=
  let p1 := wrappingMul a.lower b.lower
  let p2 := wrappingMul a.lower b.upper
  let p3 := wrappingMul a.upper b.lower
  let p4 := wrappingMul a.upper b.upper
  f (f (f p1 p2) p3) p4

def propagateMul (a b : Interval) : Option Interval :=
  binary (new (corners min a b) (corners max a b) a.width) a b

def propagateUdiv (a b : Interval) : Option Interval :=
  if b.lower = 0 then binary (full a.width) a b
  else binary (new (a.lower / max b.upper 1) (a.upper / max b.lower 1) a.width) a b

def propagateUrem (a b : Interval) : Option Interval :=
  if b.lower = 0 then binary (full a.width) a b
  else
    let upper := if 0 < b.upper then b.upper - 1 else 0
    binary (new 0 (min upper a.upper) a.width) a b

def propagateNot (a : Interval) : Interval :=
  new ((2 ^ 64 - 1 - a.upper) &&& mask a.width) ((2 ^ 64 - 1 - a.lower) &&& mask a.width) a.width

end Interval

inductive BinOp
  | add
  | sub
  | mul
  | udiv
  | urem
  | and
  | or
  | xor
  | shl
  | lshr
  deriving DecidableEq

namespace BinOp

def apply (width : ℕ) : BinOp → ℕ → ℕ → ℕ
  | add, x, y => (x + y) % 2 ^ width
  | sub, x, y => (x + 2 ^ width - y) % 2 ^ width
  | mul, x, y => x * y % 2 ^ width
  | udiv, x, y => if y = 0 then 2 ^ width - 1 else x / y
  | urem, x, y => if y = 0 then x else x % y
  | and, x, y => x &&& y
  | or, x, y => x ||| y
  | xor, x, y => x ^^^ y
  | shl, x, y => x * 2 ^ y % 2 ^ width
  | lshr, x, y => x / 2 ^ y

def propagate : BinOp → Interval → Interval → Option Interval
  | add => Interval.propagateAdd
  | sub => Interval.propagateSub
  | mul => Interval.propagateMul
  | udiv => Interval.propagateUdiv
  | urem => Interval.propagateUrem
  | and => Interval.propagateAnd
  | or => Interval.propagateOr
  | xor => Interval.propagateXor
  | shl => Interval.propagateShl
  | lshr => Interval.propagateLshr

end BinOp

namespace Interval

def Mem (v : ℕ) (i : Interval) : Prop := i.lower ≤ v ∧ v ≤ i.upper

variable {i a b c : Interval} {lower upper width v x y : ℕ}

theorem Mem.lt (h : Mem v i) : v < 2 ^ i.width := h.2.trans_lt i.upper_lt

theorem mem_new : Mem v (new lower upper width) ↔ lower % 2 ^ width ≤ v ∧ v ≤ upper % 2 ^ width := by
  rw [← and_mask, ← and_mask]
  exact Iff.rfl

@[simp] theorem width_new : (new lower upper width).width = width := rfl

@[simp] theorem width_full : (full width).width = width := rfl

theorem new_of_lt (hl : lower < 2 ^ width) (hu : upper < 2 ^ width) :
    (new lower upper width).lower = lower ∧ (new lower upper width).upper = upper := by
  exact ⟨and_mask.trans (mod_eq_of_lt hl), and_mask.trans (mod_eq_of_lt hu)⟩

theorem mem_full (hv : v < 2 ^ width) : Mem v (full width) := by
  refine ⟨zero_le _, ?_⟩
  show v ≤ mask width
  rw [mask_eq]
  exact le_sub_one_of_lt hv

theorem two_pow_dvd (hwidth : width ≤ 64) : 2 ^ width ∣ 2 ^ 64 := pow_dvd_pow 2 hwidth

theorem wrappingAdd_mod (hwidth : width ≤ 64) : wrappingAdd x y % 2 ^ width = (x + y) % 2 ^ width :=
  mod_mod_of_dvd _ (two_pow_dvd hwidth)

theorem wrappingSub_mod (hwidth : width ≤ 64) (hy : y ≤ 2 ^ width) :
    wrappingSub x y % 2 ^ width = (x + 2 ^ width - y) % 2 ^ width := by
  obtain ⟨k, hk⟩ := two_pow_dvd hwidth
  have hpos : 0 < k := pos_of_ne_zero fun h => by simp [h] at hk
  obtain ⟨k, rfl⟩ := Nat.exists_eq_add_of_le' hpos
  have hsum : x + 2 ^ 64 - y = x + 2 ^ width - y + 2 ^ width * k := by
    rw [hk, Nat.mul_add, Nat.mul_one]
    omega
  unfold wrappingSub
  rw [mod_mod_of_dvd _ (two_pow_dvd hwidth), hsum, add_mul_mod_self_left]

end Interval

namespace BinOp

open Nixie.Bv.Interval

/-- When the transfer function covers the operation. Sums, differences and products must not wrap around
for a part of the operands only, the or of the upper ends must bound those of the members, and shifts
to the left must lose the same bits of all operands, or run over all that are kept. -/
def Safe (a b : Interval) : BinOp → Prop
  | add => (a.lower + b.lower) / 2 ^ a.width = (a.upper + b.upper) / 2 ^ a.width
  | sub => (a.lower + 2 ^ a.width - b.upper) / 2 ^ a.width = (a.upper + 2 ^ a.width - b.lower) / 2 ^ a.width
  | mul => a.lower * b.lower / 2 ^ a.width = a.upper * b.upper / 2 ^ a.width
  | or => OrBounds a.lower a.upper b.lower b.upper
  | xor => OrBounds a.lower a.upper b.lower b.upper
  | shl => b.isSingleton = true → (b.lower < 64 ∨ a.width < 64) ∧
      (a.lower / 2 ^ (a.width - b.lower) = a.upper / 2 ^ (a.width - b.lower) ∨
        a.lower % 2 ^ (a.width - b.lower) = 0 ∧ (a.upper + 1) % 2 ^ (a.width - b.lower) = 0)
  | lshr => b.isSingleton = true → b.lower < 64 ∨ a.width < 64
  | _ => True

end BinOp

namespace Interval

variable {a b c f : Interval} {g : ℕ → ℕ → ℕ} {x y : ℕ}

def Covers (g : ℕ → ℕ → ℕ) (a b c : Interval) : Prop := ∀ x y, Mem x a → Mem y b → Mem (g x y) c

theorem binary_covers_iff (hwidth : a.width = b.width) :
    (∃ c, binary f a b = some c ∧ Covers g a b c) ↔ Covers g a b f := by
  rw [binary, if_pos hwidth]
  constructor
  · rintro ⟨c, hc, hcovers⟩
    obtain rfl := Option.some.inj hc
    exact hcovers
  · exact fun hcovers => ⟨f, rfl, hcovers⟩

theorem covers_full (hg : ∀ x y, Mem x a → Mem y b → g x y < 2 ^ a.width) : Covers g a b (full a.width) :=
  fun x y hx hy => mem_full (hg x y hx hy)

theorem forall_add_iff {P : ℕ → Prop} {l u l' u' : ℕ} (h : l ≤ u) (h' : l' ≤ u') :
    (∀ x y, l ≤ x → x ≤ u → l' ≤ y → y ≤ u' → P (x + y)) ↔ ∀ z, l + l' ≤ z → z ≤ u + u' → P z := by
  constructor
  · intro hall z hl hu
    rcases le_total (z - l') u with hle | hle
    · have hz := hall (z - l') l' (by omega) hle le_rfl h'
      rwa [Nat.sub_add_cancel (by omega)] at hz
    · have hz := hall u (z - u) h le_rfl (by omega) (by omega)
      rwa [Nat.add_sub_cancel' (by omega)] at hz
  · exact fun hall x y hx hx' hy hy' => hall (x + y) (by omega) (by omega)

theorem residues_short_iff {m l u : ℕ} (hle : l ≤ u) (hlt : u + 1 < l + 2 * m) :
    (∀ z, l ≤ z → z ≤ u → l % m ≤ z % m ∧ z % m ≤ u % m) ↔ l / m = u / m := by
  rw [residues_iff (by omega) hle, or_iff_left_iff_imp]
  rintro ⟨hzero, hwhole⟩
  obtain ⟨i, hi⟩ := dvd_of_mod_eq_zero hzero
  obtain ⟨j, hj⟩ := dvd_of_mod_eq_zero hwhole
  have hm : 0 < m := by omega
  have hij : i < j := Nat.lt_of_mul_lt_mul_left (a := m) (by omega)
  have hji : j < i + 2 := by
    refine Nat.lt_of_mul_lt_mul_left (a := m) ?_
    rw [mul_add]
    omega
  have hj1 : j = i + 1 := by omega
  rw [hj1, mul_add, mul_one] at hj
  have hu : u = m * i + (m - 1) := by omega
  rw [hi, hu, Nat.mul_div_cancel_left _ hm, mul_add_div hm, div_eq_of_lt (by omega)]
  rfl

theorem sums_iff {m l u l' u' : ℕ} (h : l ≤ u) (h' : l' ≤ u') (hlt : u + u' + 1 < l + l' + 2 * m) :
    (∀ x y, l ≤ x → x ≤ u → l' ≤ y → y ≤ u' → (l + l') % m ≤ (x + y) % m ∧ (x + y) % m ≤ (u + u') % m) ↔
    (l + l') / m = (u + u') / m :=
  (forall_add_iff (P := fun z => (l + l') % m ≤ z % m ∧ z % m ≤ (u + u') % m) h h').trans
    (residues_short_iff (Nat.add_le_add h h') hlt)

theorem covers_add_iff (hwidth : a.width ≤ 64) (hw : a.width = b.width) (ha : a.lower ≤ a.upper)
    (hb : b.lower ≤ b.upper) : Covers (BinOp.add.apply a.width) a b
    (new (wrappingAdd a.lower b.lower) (wrappingAdd a.upper b.upper) a.width) ↔ BinOp.add.Safe a b := by
  have hau := a.upper_lt
  have hbu : b.upper < 2 ^ a.width := hw ▸ b.upper_lt
  rw [BinOp.Safe, ← sums_iff ha hb (by omega)]
  simp only [Covers, mem_new, wrappingAdd_mod hwidth, BinOp.apply]
  simp only [Mem, and_imp]

theorem covers_sub_iff (hwidth : a.width ≤ 64) (hw : a.width = b.width) (ha : a.lower ≤ a.upper)
    (hb : b.lower ≤ b.upper) : Covers (BinOp.sub.apply a.width) a b
    (new (wrappingSub a.lower b.upper) (wrappingSub a.upper b.lower) a.width) ↔ BinOp.sub.Safe a b := by
  have hau := a.upper_lt
  have hbu : b.upper < 2 ^ a.width := hw ▸ b.upper_lt
  have hsums := @sums_iff (2 ^ a.width) a.lower a.upper (2 ^ a.width - b.upper) (2 ^ a.width - b.lower) ha
    (by omega) (by omega)
  simp only [← Nat.add_sub_assoc hbu.le, ← Nat.add_sub_assoc (hb.trans hbu.le)] at hsums
  rw [BinOp.Safe, ← hsums]
  simp only [Covers, mem_new, wrappingSub_mod hwidth hbu.le, wrappingSub_mod hwidth (hb.trans hbu.le), BinOp.apply]
  simp only [Mem, and_imp]
  constructor
  · intro h x t hx hx' ht ht'
    have hxt := h x (2 ^ a.width - t) hx hx' (by omega) (by omega)
    rwa [Nat.add_sub_assoc (sub_le _ _), Nat.sub_sub_self (by omega)] at hxt
  · intro h x y hx hx' hy hy'
    rw [Nat.add_sub_assoc (hy'.trans hbu.le)]
    exact h x (2 ^ a.width - y) hx hx' (by omega) (by omega)

theorem shift_mod {y w : ℕ} : x * 2 ^ y % 2 ^ w = x % 2 ^ (w - y) * 2 ^ min y w := by
  rcases le_total y w with h | h
  · have hsplit : 2 ^ w = 2 ^ (w - y) * 2 ^ y := by rw [← Nat.pow_add, Nat.sub_add_cancel h]
    rw [hsplit, mul_mod_mul_right, min_eq_left h]
  · have hzero : x * 2 ^ y % 2 ^ w = 0 := mod_eq_zero_of_dvd (Dvd.dvd.mul_left (pow_dvd_pow 2 h) x)
    rw [hzero, Nat.sub_eq_zero_of_le h, Nat.pow_zero, mod_one, Nat.zero_mul]

theorem shift_div {y w : ℕ} (hx : x < 2 ^ w) : x / 2 ^ y = x / 2 ^ min y w := by
  rcases le_total y w with h | h
  · rw [min_eq_left h]
  · rw [Nat.min_eq_right h, div_eq_of_lt hx, div_eq_of_lt (hx.trans_le (Nat.pow_le_pow_right two_pos h))]

theorem mem_singleton (hb : b.isSingleton = true) : Mem y b ↔ y = b.lower := by
  have heq : b.lower = b.upper := of_decide_eq_true hb
  unfold Mem
  omega

theorem covers_shl_iff (hwidth : a.width ≤ 64) (ha : a.lower ≤ a.upper) (hb : b.isSingleton = true) :
    Covers (BinOp.shl.apply a.width) a b (new (a.lower * 2 ^ min b.lower a.width % 2 ^ 64)
    (a.upper * 2 ^ min b.lower a.width % 2 ^ 64) a.width) ↔ a.lower / 2 ^ (a.width - b.lower) =
    a.upper / 2 ^ (a.width - b.lower) ∨ a.lower % 2 ^ (a.width - b.lower) = 0 ∧
    (a.upper + 1) % 2 ^ (a.width - b.lower) = 0 := by
  have hpos : 0 < 2 ^ min b.lower a.width := Nat.two_pow_pos _
  have hsub : a.width - min b.lower a.width = a.width - b.lower := by omega
  rw [← residues_iff (Nat.two_pow_pos _) ha]
  simp only [Covers, mem_new, mem_singleton hb, BinOp.apply, mod_mod_of_dvd _ (two_pow_dvd hwidth)]
  simp only [Mem, and_imp, shift_mod, hsub, min_assoc, min_self]
  constructor
  · intro h z hl hu
    have hz := h z b.lower hl hu rfl
    rwa [Nat.mul_le_mul_right_iff hpos, Nat.mul_le_mul_right_iff hpos] at hz
  · rintro h x y hl hu rfl
    rw [Nat.mul_le_mul_right_iff hpos, Nat.mul_le_mul_right_iff hpos]
    exact h x hl hu

theorem covers_lshr (hb : b.isSingleton = true) :
    Covers (BinOp.lshr.apply a.width) a b (new (a.lower / 2 ^ min b.lower a.width)
    (a.upper / 2 ^ min b.lower a.width) a.width) := by
  intro x y hx hy
  obtain rfl := (mem_singleton hb).mp hy
  have hlower := (div_le_self a.lower (2 ^ min b.lower a.width)).trans_lt a.lower_lt
  have hupper := (div_le_self a.upper (2 ^ min b.lower a.width)).trans_lt a.upper_lt
  rw [mem_new, mod_eq_of_lt hlower, mod_eq_of_lt hupper, BinOp.apply, shift_div hx.lt]
  exact ⟨Nat.div_le_div_right hx.1, Nat.div_le_div_right hx.2⟩

theorem covers_and : Covers (BinOp.and.apply a.width) a b (new 0 (min a.upper b.upper) a.width) := by
  intro x y hx hy
  rw [mem_new, zero_mod, mod_eq_of_lt (by have := a.upper_lt; omega)]
  exact ⟨zero_le _, Nat.le_min.mpr ⟨Nat.and_le_left.trans hx.2, Nat.and_le_right.trans hy.2⟩⟩

theorem or_lt (hw : a.width = b.width) : a.upper ||| b.upper < 2 ^ a.width :=
  or_lt_two_pow a.upper_lt (hw ▸ b.upper_lt)

theorem covers_or_iff (hw : a.width = b.width) (ha : a.lower ≤ a.upper) (hb : b.lower ≤ b.upper) :
    Covers (BinOp.or.apply a.width) a b (new (max a.lower b.lower) (a.upper ||| b.upper) a.width) ↔
      BinOp.or.Safe a b := by
  have hbl : b.lower < 2 ^ a.width := hw ▸ b.lower_lt
  have hmax : max a.lower b.lower < 2 ^ a.width := Nat.max_lt.mpr ⟨a.lower_lt, hbl⟩
  rw [BinOp.Safe, ← or_le_iff ha hb]
  simp only [Covers, mem_new, mod_eq_of_lt hmax, mod_eq_of_lt (or_lt hw), BinOp.apply]
  simp only [Mem, and_imp]
  constructor
  · exact fun h x y hx hx' hy hy' => (h x y hx hx' hy hy').2
  · intro h x y hx hx' hy hy'
    exact ⟨Nat.max_le.mpr ⟨hx.trans left_le_or, hy.trans right_le_or⟩, h x y hx hx' hy hy'⟩

theorem covers_xor (hw : a.width = b.width) (ha : a.lower ≤ a.upper) (hb : b.lower ≤ b.upper)
    (h : BinOp.xor.Safe a b) : Covers (BinOp.xor.apply a.width) a b (new 0 (a.upper ||| b.upper) a.width) := by
  intro x y hx hy
  rw [mem_new, zero_mod, mod_eq_of_lt (or_lt hw)]
  exact ⟨zero_le _, (xor_le_or x y).trans ((or_le_iff ha hb).mpr h x y hx.1 hx.2 hy.1 hy.2)⟩

theorem covers_mul (hwidth : a.width ≤ 64) (ha : a.lower ≤ a.upper) (hb : b.lower ≤ b.upper)
    (h : BinOp.mul.Safe a b) :
    Covers (BinOp.mul.apply a.width) a b (new (corners min a b) (corners max a b) a.width) := by
  have hle := Nat.mul_le_mul ha hb
  obtain ⟨k, hk⟩ := two_pow_dvd hwidth
  have hsame : a.lower * b.lower / 2 ^ 64 = a.upper * b.upper / 2 ^ 64 := by
    rw [hk, ← Nat.div_div_eq_div_mul, ← Nat.div_div_eq_div_mul, show _ / 2 ^ a.width = _ from h]
  -- the words of the corners are in the order of the products
  have hword := (residues_iff (Nat.two_pow_pos 64) hle).mpr (.inl hsame)
  have hmid := hword (a.lower * b.upper) (Nat.mul_le_mul_left _ hb) (Nat.mul_le_mul_right _ ha)
  have hmid' := hword (a.upper * b.lower) (Nat.mul_le_mul_right _ ha) (Nat.mul_le_mul_left _ hb)
  have hends := hword (a.upper * b.upper) hle le_rfl
  have hmin : corners min a b = wrappingMul a.lower b.lower := by
    simp only [corners, wrappingMul]
    omega
  have hmax : corners max a b = wrappingMul a.upper b.upper := by
    simp only [corners, wrappingMul]
    omega
  intro x y hx hy
  rw [mem_new, hmin, hmax, wrappingMul, wrappingMul, mod_mod_of_dvd _ (two_pow_dvd hwidth),
    mod_mod_of_dvd _ (two_pow_dvd hwidth)]
  exact (residues_iff (Nat.two_pow_pos a.width) hle).mpr (.inl h) (x * y) (Nat.mul_le_mul hx.1 hy.1)
    (Nat.mul_le_mul hx.2 hy.2)

theorem covers_udiv (hb : b.lower ≠ 0) : Covers (BinOp.udiv.apply a.width) a b
    (new (a.lower / max b.upper 1) (a.upper / max b.lower 1) a.width) := by
  intro x y hx hy
  have hy0 : y ≠ 0 := by have := hy.1; omega
  have hlower := (Nat.div_le_self a.lower (max b.upper 1)).trans_lt a.lower_lt
  have hupper := (Nat.div_le_self a.upper (max b.lower 1)).trans_lt a.upper_lt
  rw [mem_new, mod_eq_of_lt hlower, mod_eq_of_lt hupper, BinOp.apply, if_neg hy0]
  have hlow : max b.lower 1 ≤ y := by have := hy.1; omega
  have hhigh : y ≤ max b.upper 1 := hy.2.trans (le_max_left _ _)
  exact ⟨Nat.div_le_div hx.1 hhigh hy0, Nat.div_le_div hx.2 hlow (by omega)⟩

theorem covers_urem (hb : b.lower ≠ 0) :
    Covers (BinOp.urem.apply a.width) a b
      (new 0 (min (if 0 < b.upper then b.upper - 1 else 0) a.upper) a.width) := by
  intro x y hx hy
  have hy0 : y ≠ 0 := by have := hy.1; omega
  have hyu := hy.2
  have hmod := mod_lt x (pos_of_ne_zero hy0)
  have hle := (mod_le x y).trans hx.2
  rw [mem_new, zero_mod, mod_eq_of_lt (by have := a.upper_lt; omega), BinOp.apply, if_neg hy0,
    if_pos (by omega)]
  exact ⟨zero_le _, by omega⟩

theorem covers_none : ¬∃ c, (none : Option Interval) = some c ∧ Covers g a b c := nofun

end Interval

namespace BinOp

open Nixie.Bv.Interval

variable {a b : Interval}

theorem apply_lt {w x y : ℕ} (op : BinOp) (hx : x < 2 ^ w) (hy : y < 2 ^ w) : op.apply w x y < 2 ^ w := by
  have hpos := Nat.two_pow_pos w
  cases op with
  | add => exact mod_lt _ hpos
  | sub => exact mod_lt _ hpos
  | mul => exact mod_lt _ hpos
  | shl => exact mod_lt _ hpos
  | and => exact and_lt_two_pow x hy
  | or => exact or_lt_two_pow hx hy
  | xor => exact xor_lt_two_pow hx hy
  | lshr => exact (div_le_self _ _).trans_lt hx
  | udiv =>
    simp only [apply]
    split
    · omega
    · exact (div_le_self _ _).trans_lt hx
  | urem =>
    simp only [apply]
    split
    · exact hx
    · exact (mod_le _ _).trans_lt hx

theorem covers_apply_full (op : BinOp) (hw : a.width = b.width) : Covers (op.apply a.width) a b (full a.width) :=
  covers_full fun _ _ hx hy => op.apply_lt hx.lt (hw ▸ hy.lt)

theorem shift_covers_iff {g : ℕ → ℕ → ℕ} {f : Interval} {P : Prop} (hwidth : a.width ≤ 64)
    (hw : a.width = b.width) (hfull : Covers g a b (full a.width))
    (hP : b.isSingleton = true → (Covers g a b f ↔ P)) :
    (∃ c, (if b.isSingleton then
        if 64 ≤ min b.lower a.width then none else binary f a b
      else binary (full a.width) a b) = some c ∧ Covers g a b c) ↔
      (b.isSingleton = true → (b.lower < 64 ∨ a.width < 64) ∧ P) := by
  by_cases hb : b.isSingleton = true
  · rw [if_pos hb]
    by_cases h64 : 64 ≤ min b.lower a.width
    · rw [if_pos h64]
      refine iff_of_false covers_none fun h => ?_
      have := (h hb).1
      omega
    · rw [if_neg h64, binary_covers_iff hw, hP hb]
      exact ⟨fun h _ => ⟨by omega, h⟩, fun h => (h hb).2⟩
  · rw [if_neg hb, binary_covers_iff hw]
    exact iff_of_true hfull fun h => absurd h hb

/-- The operations whose transfer function covers exactly what the condition says. -/
def Exact : BinOp → Prop
  | mul => False
  | xor => False
  | _ => True

theorem safe_spec (op : BinOp) (hwidth : a.width ≤ 64) (hw : a.width = b.width) (ha : a.lower ≤ a.upper)
    (hb : b.lower ≤ b.upper) :
    (op.Safe a b → ∃ c, op.propagate a b = some c ∧ Covers (op.apply a.width) a b c) ∧
      (op.Exact → (∃ c, op.propagate a b = some c ∧ Covers (op.apply a.width) a b c) → op.Safe a b) := by
  have hiff (h : (∃ c, op.propagate a b = some c ∧ Covers (op.apply a.width) a b c) ↔ op.Safe a b) :=
    And.intro h.mpr fun (_ : op.Exact) => h.mp
  cases op with
  | add => exact hiff ((binary_covers_iff hw).trans (covers_add_iff hwidth hw ha hb))
  | sub => exact hiff ((binary_covers_iff hw).trans (covers_sub_iff hwidth hw ha hb))
  | mul => exact ⟨fun h => (binary_covers_iff hw).mpr (covers_mul hwidth ha hb h), False.elim⟩
  | and => exact hiff ((binary_covers_iff hw).trans (iff_of_true covers_and trivial))
  | or => exact hiff ((binary_covers_iff hw).trans (covers_or_iff hw ha hb))
  | xor => exact ⟨fun h => (binary_covers_iff hw).mpr (covers_xor hw ha hb h), False.elim⟩
  | shl =>
    exact hiff (shift_covers_iff hwidth hw (covers_apply_full .shl hw) fun h => covers_shl_iff hwidth ha h)
  | lshr =>
    have hshift := shift_covers_iff hwidth hw (covers_apply_full .lshr hw)
      (fun h => iff_of_true (covers_lshr h) trivial)
    exact hiff (hshift.trans (by simp only [and_true, Safe]))
  | udiv =>
    refine hiff (iff_of_true ?_ trivial)
    by_cases h0 : b.lower = 0
    · exact ⟨_, by rw [propagate, propagateUdiv, if_pos h0, binary, if_pos hw], covers_apply_full .udiv hw⟩
    · exact ⟨_, by rw [propagate, propagateUdiv, if_neg h0, binary, if_pos hw], covers_udiv h0⟩
  | urem =>
    refine hiff (iff_of_true ?_ trivial)
    by_cases h0 : b.lower = 0
    · exact ⟨_, by rw [propagate, propagateUrem, if_pos h0, binary, if_pos hw], covers_apply_full .urem hw⟩
    · exact ⟨_, by rw [propagate, propagateUrem, if_neg h0, binary, if_pos hw], covers_urem h0⟩

theorem width_binary {f c : Interval} (h : binary f a b = some c) (hf : f.width = a.width) : c.width = a.width := by
  unfold binary at h
  split at h
  · rw [← Option.some.inj h, hf]
  · contradiction

theorem width_propagate {op : BinOp} {c : Interval} (h : op.propagate a b = some c) : c.width = a.width := by
  cases op with
  | add =>
    simp only [propagate, propagateAdd] at h
    exact width_binary h width_new
  | sub =>
    simp only [propagate, propagateSub] at h
    exact width_binary h width_new
  | mul =>
    simp only [propagate, propagateMul] at h
    exact width_binary h width_new
  | and =>
    simp only [propagate, propagateAnd] at h
    exact width_binary h width_new
  | or =>
    simp only [propagate, propagateOr] at h
    exact width_binary h width_new
  | xor =>
    simp only [propagate, propagateXor] at h
    exact width_binary h width_new
  | shl =>
    simp only [propagate, propagateShl] at h
    split at h
    · split at h
      · contradiction
      · exact width_binary h width_new
    · exact width_binary h width_full
  | lshr =>
    simp only [propagate, propagateLshr] at h
    split at h
    · split at h
      · contradiction
      · exact width_binary h width_new
    · exact width_binary h width_full
  | udiv =>
    simp only [propagate, propagateUdiv] at h
    split at h
    · exact width_binary h width_full
    · exact width_binary h width_new
  | urem =>
    simp only [propagate, propagateUrem] at h
    split at h
    · exact width_binary h width_full
    · exact width_binary h width_new

end BinOp

namespace Interval

variable {a b c : Interval} {v : ℕ}

@[simp] theorem width_propagateNot : (propagateNot a).width = a.width := width_new

theorem mem_propagateNot (hwidth : a.width ≤ 64) (hv : Mem v a) : Mem (2 ^ a.width - 1 - v) (propagateNot a) := by
  have hpos := Nat.two_pow_pos a.width
  have hle := Nat.pow_le_pow_right two_pos hwidth
  have hcomplement : ∀ {x : ℕ}, x < 2 ^ a.width →
      ((2 ^ 64 - 1 - x) &&& mask a.width) % 2 ^ a.width = 2 ^ a.width - 1 - x := by
    intro x hx
    obtain ⟨k, hk⟩ := two_pow_dvd hwidth
    have hk0 : k ≠ 0 := fun h => by simp [h] at hk
    obtain ⟨k, rfl⟩ := exists_eq_succ_of_ne_zero hk0
    have hsum : 2 ^ 64 - 1 - x = 2 ^ a.width - 1 - x + 2 ^ a.width * k := by
      rw [hk, mul_succ]
      omega
    rw [and_mask, mod_mod, hsum, add_mul_mod_self_left, mod_eq_of_lt (by omega)]
  rw [propagateNot, mem_new, hcomplement a.upper_lt, hcomplement a.lower_lt]
  have := hv.1
  have := hv.2
  omega

theorem intersect_of_mem (hw : a.width = b.width) (ha : Mem v a) (hb : Mem v b) : ∃ c, intersect a b = some (some c) ∧
    c.width = a.width ∧ Mem v c ∧ c.lower = max a.lower b.lower ∧ c.upper = min a.upper b.upper := by
  have hle : max a.lower b.lower ≤ min a.upper b.upper :=
    (Nat.max_le.mpr ⟨ha.1, hb.1⟩).trans (Nat.le_min.mpr ⟨ha.2, hb.2⟩)
  have hupper : min a.upper b.upper < 2 ^ a.width := (min_le_left _ _).trans_lt a.upper_lt
  obtain ⟨hl, hu⟩ := new_of_lt (hle.trans_lt hupper) hupper
  refine ⟨new (max a.lower b.lower) (min a.upper b.upper) a.width, ?_, rfl, ?_, hl, hu⟩
  · simp only [intersect, if_pos hw, if_pos hle]
  · rw [Mem, hl, hu]
    exact ⟨Nat.max_le.mpr ⟨ha.1, hb.1⟩, Nat.le_min.mpr ⟨ha.2, hb.2⟩⟩

end Interval

end Nixie.Bv
