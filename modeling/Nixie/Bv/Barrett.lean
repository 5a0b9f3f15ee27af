import Mathlib.Tactic.Ring
import Mathlib.Tactic.Linarith

/-!
Barrett division of `nixie-theories/src/bv/division_opt.rs`: when the corrected estimate is the quotient.
-/

namespace Nixie.Bv

open Nat

structure BarrettParams where
  divisor : UInt64
  width : ℕ
  m : ℕ
  shift : ℕ
  deriving DecidableEq

namespace BarrettParams

def maxWidth : ℕ := 63

def new (divisor : UInt64) (width : ℕ) : Option BarrettParams :=
  if divisor = 0 ∨ width = 0 ∨ maxWidth < width then none
  else some ⟨divisor, width, 1 <<< (2 * width) / divisor.toNat, 2 * width⟩

def divide (p : BarrettParams) (dividend : UInt64) : UInt64 :=
  if 2 ^ 128 ≤ dividend.toNat * p.m then
    if p.divisor = 0 then UInt64.ofNat (2 ^ 64 - 1) else dividend / p.divisor
  else
    let q := UInt64.ofNat ((dividend.toNat * p.m) >>> p.shift)
    let remainder := dividend - q * p.divisor
    if p.divisor ≤ remainder then q + 1 else q

def modulo (p : BarrettParams) (dividend : UInt64) : UInt64 := dividend - p.divide dividend * p.divisor

end BarrettParams

section

variable {x d B : ℕ}

def estimate (x d B : ℕ) : ℕ := x * (B / d) / B

theorem estimate_le (hd : 0 < d) (hB : 0 < B) : estimate x d B ≤ x / d := by
  rw [Nat.le_div_iff_mul_le hd, ← Nat.mul_le_mul_right_iff hB]
  calc estimate x d B * d * B = estimate x d B * B * d := by ring
    _ ≤ x * (B / d) * d := Nat.mul_le_mul_right d (div_mul_le_self _ B)
    _ = x * (B / d * d) := Nat.mul_assoc _ _ _
    _ ≤ x * B := Nat.mul_le_mul_left x (div_mul_le_self B d)

theorem div_le_estimate_succ (hB : 0 < B) : x / d ≤ estimate x d B + 1 ↔ x * (B % d) ≤ (d + x % d) * B := by
  obtain ⟨q, hq⟩ : ∃ q, x / d = q := ⟨_, rfl⟩
  have hx : d * q + x % d = x := hq ▸ div_add_mod x d
  have hb : d * (B / d) + B % d = B := div_add_mod B d
  rw [hq]
  cases q with
  | zero =>
    refine iff_of_true (Nat.zero_le _) (Nat.mul_le_mul ?_ (mod_le B d))
    omega
  | succ q =>
    rw [succ_le_succ_iff, estimate, Nat.le_div_iff_mul_le hB]
    have hd : 0 < d := Nat.pos_of_ne_zero fun h => by simp [h] at hq
    -- both sides times the divisor, with the remainders of the two divisions
    have hleft : d * (q * B) = d * q * B := (Nat.mul_assoc d q B).symm
    have hright : d * (x * (B / d)) + x * (B % d) = x * B := by
      calc d * (x * (B / d)) + x * (B % d) = x * (d * (B / d) + B % d) := by ring
        _ = x * B := by rw [hb]
    have htotal : x * B = d * q * B + (d + x % d) * B := by
      calc x * B = (d * (q + 1) + x % d) * B := by rw [hx]
        _ = d * q * B + (d + x % d) * B := by ring
    rw [← Nat.mul_le_mul_left_iff hd, hleft]
    omega

theorem lost_le_of_lt (hd : 0 < d) (hx : x ≤ B) : x * (B % d) ≤ (d + x % d) * B := by
  calc x * (B % d) ≤ B * d := Nat.mul_le_mul hx (mod_lt B hd).le
    _ = d * B := Nat.mul_comm B d
    _ ≤ (d + x % d) * B := Nat.mul_le_mul_right B (Nat.le_add_right d _)

end

namespace BarrettParams

section

variable {divisor dividend : UInt64} {width : ℕ} {p : BarrettParams}

theorem new_eq_some (h : new divisor width = some p) : 0 < divisor.toNat ∧ width ≤ 63 ∧
    p = ⟨divisor, width, 4 ^ width / divisor.toNat, 2 * width⟩ := by
  unfold new at h
  split_ifs at h with hnone
  rw [not_or, not_or, maxWidth, not_lt] at hnone
  refine ⟨Nat.pos_of_ne_zero fun hzero => hnone.1 (UInt64.toNat_inj.mp hzero), hnone.2.2, ?_⟩
  rw [← Option.some.inj h, shiftLeft_eq, one_mul, Nat.pow_mul]

theorem le_base_of_overflow (h : 2 ^ 128 ≤ dividend.toNat * (4 ^ width / divisor.toNat)) :
    dividend.toNat ≤ 4 ^ width := by
  by_contra hlt
  have hbase : 4 ^ width / divisor.toNat ≤ 4 ^ width := Nat.div_le_self _ _
  have hx : dividend.toNat < 2 ^ 64 := dividend.toNat_lt
  have hsmall : 4 ^ width / divisor.toNat < 2 ^ 64 := by omega
  have hlt : dividend.toNat * (4 ^ width / divisor.toNat) < 2 ^ 64 * 2 ^ 64 := Nat.mul_lt_mul'' hx hsmall
  omega

section

variable (h : new divisor width = some p)
include h

theorem toNat_divide (hno : dividend.toNat * (4 ^ width / divisor.toNat) < 2 ^ 128) :
    (p.divide dividend).toNat =
      if divisor.toNat ≤ dividend.toNat - estimate dividend.toNat divisor.toNat (4 ^ width) * divisor.toNat
      then estimate dividend.toNat divisor.toNat (4 ^ width) + 1
      else estimate dividend.toNat divisor.toNat (4 ^ width) := by
  obtain ⟨hd, -, rfl⟩ := new_eq_some h
  have hle : estimate dividend.toNat divisor.toNat (4 ^ width) * divisor.toNat ≤ dividend.toNat :=
    (Nat.le_div_iff_mul_le hd).mp (estimate_le hd (Nat.pow_pos (by decide)))
  have hq : (UInt64.ofNat (estimate dividend.toNat divisor.toNat (4 ^ width))).toNat =
      estimate dividend.toNat divisor.toNat (4 ^ width) := by
    refine UInt64.toNat_ofNat_of_lt' (lt_of_le_of_lt ?_ dividend.toNat_lt)
    exact (Nat.le_mul_of_pos_right _ hd).trans hle
  have hshift : (dividend.toNat * (4 ^ width / divisor.toNat)) >>> (2 * width) =
      estimate dividend.toNat divisor.toNat (4 ^ width) := by
    rw [shiftRight_eq_div_pow, Nat.pow_mul]
    rfl
  rw [divide, if_neg (by simpa using hno)]
  dsimp only
  rw [hshift]
  generalize hn : estimate dividend.toNat divisor.toNat (4 ^ width) = q at *
  have hmul : (UInt64.ofNat q * divisor).toNat = q * divisor.toNat := by
    rw [UInt64.toNat_mul, hq, mod_eq_of_lt (hle.trans_lt dividend.toNat_lt)]
  have hsub : (dividend - UInt64.ofNat q * divisor).toNat = dividend.toNat - q * divisor.toNat := by
    rw [UInt64.toNat_sub_of_le _ _ (UInt64.le_iff_toNat_le.mpr (hmul ▸ hle)), hmul]
  simp only [UInt64.le_iff_toNat_le, hsub]
  split_ifs with hcorrect
  · have hnext : q + 1 < 2 ^ 64 := by
      have hx := dividend.toNat_lt
      have hqd : q ≤ q * divisor.toNat := Nat.le_mul_of_pos_right q hd
      have hd1 : 1 ≤ divisor.toNat := hd
      omega
    rw [UInt64.toNat_add, hq, UInt64.toNat_one, mod_eq_of_lt hnext]
  · exact hq

theorem divide_of_overflow (hover : 2 ^ 128 ≤ dividend.toNat * (4 ^ width / divisor.toNat)) :
    p.divide dividend = dividend / divisor := by
  obtain ⟨hd, -, rfl⟩ := new_eq_some h
  have hne : divisor ≠ 0 := fun hzero => by simp [hzero] at hd
  rw [divide, if_pos hover, if_neg hne]

theorem modulo_eq (hq : p.divide dividend = dividend / divisor) : p.modulo dividend = dividend % divisor := by
  obtain ⟨hd, -, rfl⟩ := new_eq_some h
  have hmul : (dividend / divisor * divisor).toNat = dividend.toNat / divisor.toNat * divisor.toNat := by
    rw [UInt64.toNat_mul, UInt64.toNat_div]
    exact mod_eq_of_lt ((div_mul_le_self _ _).trans_lt dividend.toNat_lt)
  have hle : dividend / divisor * divisor ≤ dividend := by
    rw [UInt64.le_iff_toNat_le, hmul]
    exact div_mul_le_self _ _
  rw [modulo, hq, ← UInt64.toNat_inj, UInt64.toNat_sub_of_le _ _ hle, hmul, UInt64.toNat_mod]
  have hdiv := div_add_mod' dividend.toNat divisor.toNat
  omega

theorem divide_eq_iff (hno : dividend.toNat * (4 ^ width / divisor.toNat) < 2 ^ 128) :
    p.divide dividend = dividend / divisor ↔
    dividend.toNat / divisor.toNat ≤ estimate dividend.toNat divisor.toNat (4 ^ width) + 1 := by
  obtain ⟨hd, -, -⟩ := new_eq_some h
  rw [← UInt64.toNat_inj, toNat_divide h hno, UInt64.toNat_div]
  have hle : estimate dividend.toNat divisor.toNat (4 ^ width) ≤ dividend.toNat / divisor.toNat :=
    estimate_le hd (Nat.pow_pos (by decide))
  generalize estimate dividend.toNat divisor.toNat (4 ^ width) = q at *
  have hcorrect : divisor.toNat ≤ dividend.toNat - q * divisor.toNat ↔ q + 1 ≤ dividend.toNat / divisor.toNat := by
    have hqd : q * divisor.toNat ≤ dividend.toNat := (Nat.le_div_iff_mul_le hd).mp hle
    rw [Nat.le_div_iff_mul_le hd, succ_mul]
    omega
  by_cases hnext : q + 1 ≤ dividend.toNat / divisor.toNat
  · rw [if_pos (hcorrect.mpr hnext)]
    omega
  · rw [if_neg (mt hcorrect.mp hnext)]
    omega

theorem exact_iff : p.divide dividend = dividend / divisor ∧ p.modulo dividend = dividend % divisor ↔
    dividend.toNat * (4 ^ width % divisor.toNat) ≤ (divisor.toNat + dividend.toNat % divisor.toNat) * 4 ^ width := by
  obtain ⟨hd, -, -⟩ := new_eq_some h
  rw [and_iff_left_of_imp (modulo_eq h)]
  by_cases hno : dividend.toNat * (4 ^ width / divisor.toNat) < 2 ^ 128
  · rw [divide_eq_iff h hno, div_le_estimate_succ (Nat.pow_pos (by decide))]
  · rw [not_lt] at hno
    exact iff_of_true (divide_of_overflow h hno) (lost_le_of_lt hd (le_base_of_overflow hno))

end

theorem divide_modulo_exact_iff (hd : 0 < divisor) (hpos : 1 ≤ width) (hwidth : width ≤ 63) :
    ∃ p, new divisor width = some p ∧ ∀ dividend,
      p.divide dividend = dividend / divisor ∧ p.modulo dividend = dividend % divisor ↔
        dividend.toNat * (4 ^ width % divisor.toNat) ≤
          (divisor.toNat + dividend.toNat % divisor.toNat) * 4 ^ width := by
  have hne : divisor ≠ 0 := fun hzero => absurd (hzero ▸ hd) (by decide)
  have hsome : ¬(divisor = 0 ∨ width = 0 ∨ maxWidth < width) := by
    rw [not_or, not_or, maxWidth]
    exact ⟨hne, by omega, by omega⟩
  exact ⟨_, if_neg hsome, fun dividend => exact_iff (if_neg hsome)⟩

end

theorem divide_modulo_exact_seven : ∃ p, new 7 32 = some p ∧ ∀ dividend,
    p.divide dividend = dividend / 7 ∧ p.modulo dividend = dividend % 7 ↔
      dividend.toNat * (4 ^ 32 % (7 : UInt64).toNat) ≤
        ((7 : UInt64).toNat + dividend.toNat % (7 : UInt64).toNat) * 4 ^ 32 :=
  divide_modulo_exact_iff (by decide) (by decide) (by decide)

/-- At width one the reciprocal of three answers twenty-six for a hundred. -/
theorem not_divide_modulo_exact : ¬∀ (divisor dividend : UInt64) (width : ℕ), 0 < divisor → 1 ≤ width → width ≤ 63 →
    ∃ p, new divisor width = some p ∧ p.divide dividend = dividend / divisor ∧
      p.modulo dividend = dividend % divisor := by
  intro h
  obtain ⟨p, hp, hdivide, -⟩ := h 3 100 1 (by decide) (by decide) (by decide)
  obtain rfl : ⟨3, 1, 1, 2⟩ = p := Option.some.inj hp
  exact absurd hdivide (by decide)

end BarrettParams

end Nixie.Bv
