import Mathlib.RingTheory.Int.Basic
import Mathlib.Tactic.FieldSimp

/-!
Rationals with `i64` parts and the operations that refuse to overflow, `nixie-theories/src/arithmetic/simplex/mod.rs`
and `nla/mod.rs`.
-/

namespace Nixie.Arithmetic

open Option Int

def InI64 (v : ℤ) : Prop := -2 ^ 63 ≤ v ∧ v < 2 ^ 63

instance (v : ℤ) : Decidable (InI64 v) := inferInstanceAs (Decidable (_ ∧ _))

structure Rational64 where
  numer : ℤ
  denom : ℤ
  numer_range : InI64 numer
  denom_range : InI64 denom
  denom_pos : 0 < denom
  reduced : IsCoprime numer denom

namespace Rational64

variable {a b c : Rational64}

instance : DecidableEq Rational64 := fun a b =>
  decidable_of_iff (a.numer = b.numer ∧ a.denom = b.denom)
    ⟨fun h => by cases a; cases b; obtain ⟨rfl, rfl⟩ := h; rfl, fun h => ⟨congrArg numer h, congrArg denom h⟩⟩

def value (a : Rational64) : ℚ := a.numer / a.denom

theorem denom_ne : (a.denom : ℚ) ≠ 0 := Int.cast_ne_zero.mpr a.denom_pos.ne'

def ofInt (n : ℤ) (h : InI64 n) : Rational64 := ⟨n, 1, h, by decide, by decide, isCoprime_one_right⟩

@[simp] theorem value_ofInt (n : ℤ) (h : InI64 n) : (ofInt n h).value = n := by
  simp [value, ofInt]

def zero : Rational64 := ofInt 0 (by decide)

def one : Rational64 := ofInt 1 (by decide)

@[simp] theorem value_zero : zero.value = 0 := value_ofInt 0 _

@[simp] theorem value_one : one.value = 1 := value_ofInt 1 _

theorem value_eq_zero : a.value = 0 ↔ a.numer = 0 := by
  rw [value, div_eq_zero_iff, or_iff_left denom_ne, cast_eq_zero]

end Rational64

variable {a b c : Rational64}

theorem isCoprime_ediv_gcd {n d : ℤ} (h : d ≠ 0) : IsCoprime (n / Int.gcd n d) (d / Int.gcd n d) := by
  rw [isCoprime_iff_gcd_eq_one]
  exact gcd_ediv_gcd_ediv_gcd (Int.gcd_pos_iff.mpr (.inr h))

theorem ediv_gcd_pos {n d : ℤ} (h : 0 < d) (e : ℤ) (he : e = Int.gcd n d) : 0 < d / e := by
  have hpos : (0 : ℤ) < e := he ▸ Int.natCast_pos.mpr (Int.gcd_pos_iff.mpr (.inr h.ne'))
  exact Int.ediv_pos_of_pos_of_dvd h hpos.le (he ▸ Int.gcd_dvd_right n d)

def lowestTerms (n d : ℤ) (hd : 0 < d) : Option Rational64 :=
  if h : InI64 (n / Int.gcd n d) ∧ InI64 (d / Int.gcd n d) then
    some ⟨_, _, h.1, h.2, ediv_gcd_pos hd _ rfl, isCoprime_ediv_gcd hd.ne'⟩
  else none

def checkedRatioI128 (numer denom : ℤ) : Option Rational64 :=
  if hd : denom = 0 then none
  else if hneg : denom < 0 then lowestTerms (-numer) (-denom) (neg_pos.mpr hneg)
  else lowestTerms numer denom (lt_of_le_of_ne (not_lt.mp hneg) (Ne.symm hd))

theorem cast_ediv_gcd (n : ℤ) {d : ℤ} (h : d ≠ 0) :
    ((n / Int.gcd n d : ℤ) : ℚ) / ((d / Int.gcd n d : ℤ) : ℚ) = n / d := by
  have hg : (Int.gcd n d : ℚ) ≠ 0 := Nat.cast_ne_zero.mpr (Int.gcd_pos_iff.mpr (.inr h)).ne'
  have hd : (d : ℚ) ≠ 0 := Int.cast_ne_zero.mpr h
  rw [Int.cast_div (Int.gcd_dvd_left n d) (by exact_mod_cast hg),
    Int.cast_div (Int.gcd_dvd_right n d) (by exact_mod_cast hg)]
  rw [Int.cast_natCast, div_div_div_cancel_right₀ hg]

theorem value_lowestTerms {n d : ℤ} {hd : 0 < d} (h : lowestTerms n d hd = some c) : c.value = n / d := by
  unfold lowestTerms at h
  split at h
  · obtain rfl := some.inj h
    exact cast_ediv_gcd n hd.ne'
  · cases h

theorem value_checkedRatioI128 {numer denom : ℤ} (h : checkedRatioI128 numer denom = some c) :
    c.value = numer / denom := by
  unfold checkedRatioI128 at h
  split_ifs at h
  · rw [value_lowestTerms h, cast_neg, cast_neg, neg_div_neg_eq]
  · exact value_lowestTerms h

theorem cross_reduced (a b : Rational64) :
    IsCoprime (a.numer / Int.gcd a.numer b.denom * (b.numer / Int.gcd b.numer a.denom))
    (a.denom / Int.gcd b.numer a.denom * (b.denom / Int.gcd a.numer b.denom)) := by
  have han := Int.ediv_dvd_of_dvd (Int.gcd_dvd_left a.numer b.denom)
  have hbd := Int.ediv_dvd_of_dvd (Int.gcd_dvd_right a.numer b.denom)
  have hbn := Int.ediv_dvd_of_dvd (Int.gcd_dvd_left b.numer a.denom)
  have had := Int.ediv_dvd_of_dvd (Int.gcd_dvd_right b.numer a.denom)
  refine IsCoprime.mul_left (IsCoprime.mul_right ?_ ?_) (IsCoprime.mul_right ?_ ?_)
  · exact (a.reduced.of_isCoprime_of_dvd_left han).of_isCoprime_of_dvd_right had
  · exact isCoprime_ediv_gcd b.denom_pos.ne'
  · exact isCoprime_ediv_gcd a.denom_pos.ne'
  · exact (b.reduced.of_isCoprime_of_dvd_left hbn).of_isCoprime_of_dvd_right hbd

def checkedMulR64 (a b : Rational64) : Option Rational64 :=
  let g1 := Int.gcd a.numer b.denom
  let g2 := Int.gcd b.numer a.denom
  let n := a.numer / g1 * (b.numer / g2)
  let d := a.denom / g2 * (b.denom / g1)
  if h : InI64 n ∧ InI64 d then
    some ⟨n, d, h.1, h.2, mul_pos (ediv_gcd_pos a.denom_pos _ rfl) (ediv_gcd_pos b.denom_pos _ rfl), cross_reduced a b⟩
  else checkedRatioI128 (a.numer * b.numer) (a.denom * b.denom)

theorem value_checkedMulR64 (h : checkedMulR64 a b = some c) : c.value = a.value * b.value := by
  unfold checkedMulR64 at h
  dsimp only at h
  split at h
  · obtain rfl := some.inj h
    have hcross : ∀ w x y z : ℚ, w * y / (z * x) = w / x * (y / z) := fun w x y z => by
      rw [div_mul_div_comm, mul_comm z x]
    simp only [Rational64.value, cast_mul]
    rw [hcross, cast_ediv_gcd _ b.denom_pos.ne', cast_ediv_gcd _ a.denom_pos.ne', div_mul_div_comm,
      div_mul_div_comm, mul_comm (b.denom : ℚ)]
  · rw [value_checkedRatioI128 h, Rational64.value, Rational64.value, cast_mul, cast_mul, div_mul_div_comm]

def checkedRecipR64 (a : Rational64) : Option Rational64 :=
  if a.numer = 0 then none else checkedRatioI128 a.denom a.numer

theorem value_checkedRecipR64 (h : checkedRecipR64 a = some c) : c.value = a.value⁻¹ := by
  unfold checkedRecipR64 at h
  split at h
  · cases h
  · rw [value_checkedRatioI128 h, Rational64.value, inv_div]

def powLoop (a : Rational64) : ℕ → Rational64 → Option Rational64
  | 0, acc => some acc
  | e + 1, acc => (checkedMulR64 acc a).bind (powLoop a e)

def checkedPowR64 (a : Rational64) (e : ℕ) : Option Rational64 := powLoop a e Rational64.one

theorem value_powLoop {e : ℕ} {acc : Rational64} (h : powLoop a e acc = some c) :
    c.value = acc.value * a.value ^ e := by
  induction e generalizing acc with
  | zero =>
    obtain rfl := some.inj h
    rw [pow_zero, mul_one]
  | succ e ih =>
    obtain ⟨next, hnext, hrest⟩ := bind_eq_some_iff.mp h
    rw [ih hrest, value_checkedMulR64 hnext, pow_succ']
    ring

theorem value_checkedPowR64 {e : ℕ} (h : checkedPowR64 a e = some c) : c.value = a.value ^ e := by
  rw [value_powLoop h, Rational64.value_one, one_mul]

def fromInteger (n : ℤ) : Option Rational64 := if h : InI64 n then some (.ofInt n h) else none

theorem value_fromInteger {n : ℤ} (h : fromInteger n = some c) : c.value = n := by
  unfold fromInteger at h
  split at h
  · rw [← some.inj h, Rational64.value_ofInt]
  · cases h

/-- Fractions over one denominator, and others over the least common one, are added in the range of
`i64` where they fit. -/
def checkedAddR64 (a b : Rational64) : Option Rational64 :=
  if a.denom = 1 ∧ b.denom = 1 then fromInteger (a.numer + b.numer)
  else if a.denom = b.denom then
    if InI64 (a.numer + b.numer) then checkedRatioI128 (a.numer + b.numer) a.denom else none
  else
    let g := Int.gcd a.denom b.denom
    let l2 := b.denom / g
    let l1 := a.denom / g
    let numer := a.numer * l2 + b.numer * l1
    let denom := a.denom * l2
    if InI64 (a.numer * l2) ∧ InI64 (b.numer * l1) ∧ InI64 denom ∧ InI64 numer then checkedRatioI128 numer denom
    else checkedRatioI128 (a.numer * b.denom + b.numer * a.denom) (a.denom * b.denom)

theorem value_checkedAddR64 (h : checkedAddR64 a b = some c) : c.value = a.value + b.value := by
  have ha := a.denom_ne
  have hb := b.denom_ne
  unfold checkedAddR64 at h
  dsimp only at h
  split_ifs at h with hone hsame _ hfits
  · rw [value_fromInteger h, Rational64.value, Rational64.value, hone.1, hone.2]
    simp
  · rw [value_checkedRatioI128 h, Rational64.value, Rational64.value, ← hsame, ← add_div, Int.cast_add]
  · rw [value_checkedRatioI128 h, Rational64.value, Rational64.value]
    have hg : (Int.gcd a.denom b.denom : ℚ) ≠ 0 :=
      Nat.cast_ne_zero.mpr (Int.gcd_pos_iff.mpr (.inr b.denom_pos.ne')).ne'
    push_cast
    rw [Int.cast_div (Int.gcd_dvd_right a.denom b.denom) (by exact_mod_cast hg),
      Int.cast_div (Int.gcd_dvd_left a.denom b.denom) (by exact_mod_cast hg), Int.cast_natCast]
    field_simp
  · rw [value_checkedRatioI128 h, Rational64.value, Rational64.value]
    push_cast
    field_simp

def checkedNegR64 (a : Rational64) : Option Rational64 :=
  if h : InI64 (-a.numer) then some ⟨-a.numer, a.denom, h, a.denom_range, a.denom_pos, a.reduced.neg_left⟩ else none

def checkedSubR64 (a b : Rational64) : Option Rational64 := (checkedNegR64 b).bind (checkedAddR64 a)

namespace Rational64

def isInteger (a : Rational64) : Bool := a.denom = 1

def isZero (a : Rational64) : Bool := a.numer = 0

/-- The greatest integer up to a fraction, which is not found if the numerator is near the least `i64`. -/
def floor (a : Rational64) : Option Rational64 :=
  if a.numer < 0 then
    if InI64 (a.numer - a.denom) then fromInteger ((a.numer - a.denom + 1).tdiv a.denom) else none
  else fromInteger (a.numer / a.denom)

theorem isZero_iff : a.isZero = true ↔ a.value = 0 := by
  rw [isZero, decide_eq_true_iff, value_eq_zero]

end Rational64

end Nixie.Arithmetic
