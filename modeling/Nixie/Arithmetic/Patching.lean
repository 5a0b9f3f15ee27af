import Mathlib.Algebra.Order.Field.Basic
import Mathlib.Data.Int.ModEq
import Mathlib.Tactic.LinearCombination
import Nixie.Arithmetic.Rational64

/-!
The moves that make a fraction integral, `nixie-theories/src/arithmetic/simplex/mod.rs`.
-/

namespace Nixie.Arithmetic

open Nat Int

def InI128 (v : ℤ) : Prop := -2 ^ 127 ≤ v ∧ v < 2 ^ 127

instance (v : ℤ) : Decidable (InI128 v) := inferInstanceAs (Decidable (_ ∧ _))

def inverseLoop (t newT : ℤ) (r newR : ℕ) : Option (ℤ × ℕ) :=
  if _h : newR = 0 then some (t, r)
  else
    let q := r / newR
    if InI128 (q * newT) ∧ InI128 (t - q * newT) then inverseLoop newT (t - q * newT) newR (r - q * newR) else none
termination_by newR
decreasing_by
  rw [Nat.mul_comm, ← mod_eq_sub_mul_div]
  exact mod_lt r (Nat.pos_of_ne_zero _h)

def modInverseI64 (a m : ℤ) : Option (Option ℤ) :=
  if m ≤ 1 then some none
  else (inverseLoop 0 1 m.toNat (a % m).toNat).map fun (t, r) => if r = 1 then some (t % m) else none

def patchingDeltas (x alpha : Rational64) : Option (Option (ℤ × ℤ)) :=
  if x.numer = 0 ∨ alpha.numer = 0 then some none
  else if alpha.denom % x.denom ≠ 0 then some none
  else
    let t := alpha.denom / x.denom
    match modInverseI64 alpha.numer x.denom with
    | none => none
    | some none => some none
    | some (some u) =>
      if InI128 (-u * t) ∧ InI128 (-u * t * x.numer) then
        let m := -u * t * x.numer % alpha.denom
        if m = 0 ∨ 2 ^ 63 - 1 ≤ m then some none
        else if m - alpha.denom ≤ -2 ^ 63 then some none
        else some (some (m, m - alpha.denom))
      else none

/-- What the loop keeps: both remainders are multiples of `a` modulo `m`, and the factors have
opposite signs and are bounded by `m` together. -/
structure Euclid (a m t newT : ℤ) (r newR : ℕ) : Prop where
  mul_t : m ∣ t * a - r
  mul_newT : m ∣ newT * a - newR
  size : r * |newT| + newR * |t| = m
  signs : t * newT ≤ 0

variable {a m t newT : ℤ} {r newR : ℕ}

theorem abs_sub_mul {q : ℤ} (hq : 0 ≤ q) (h : t * newT ≤ 0) : |t - q * newT| = |t| + q * |newT| := by
  rcases le_total 0 t with ht | ht
  · rcases le_total newT 0 with hn | hn
    · rw [abs_of_nonneg ht, abs_of_nonpos hn, abs_of_nonneg (by nlinarith)]
      ring
    · have hzero : t = 0 ∨ newT = 0 := mul_eq_zero.mp (le_antisymm h (mul_nonneg ht hn))
      obtain rfl | rfl := hzero
      · rw [zero_sub, abs_neg, abs_zero, zero_add, abs_mul, abs_of_nonneg hq]
      · rw [mul_zero, sub_zero, abs_zero, mul_zero, add_zero]
  · rcases le_total 0 newT with hn | hn
    · rw [abs_of_nonpos ht, abs_of_nonneg hn, abs_of_nonpos (by nlinarith)]
      ring
    · have hzero : t = 0 ∨ newT = 0 := mul_eq_zero.mp (le_antisymm h (mul_nonneg_of_nonpos_of_nonpos ht hn))
      obtain rfl | rfl := hzero
      · rw [zero_sub, abs_neg, abs_zero, zero_add, abs_mul, abs_of_nonneg hq]
      · rw [mul_zero, sub_zero, abs_zero, mul_zero, add_zero]

theorem Euclid.step (h : Euclid a m t newT r newR) :
    Euclid a m newT (t - (r / newR : ℕ) * newT) newR (r - r / newR * newR) := by
  have hle : r / newR * newR ≤ r := Nat.div_mul_le_self r newR
  have hq : (0 : ℤ) ≤ (r / newR : ℕ) := Int.natCast_nonneg _
  refine ⟨h.mul_newT, ?_, ?_, ?_⟩
  · have hsub := dvd_sub h.mul_t (Dvd.dvd.mul_left h.mul_newT (r / newR : ℕ))
    have heq : (t - (r / newR : ℕ) * newT) * a - (r - r / newR * newR : ℕ) =
        t * a - r - (r / newR : ℕ) * (newT * a - newR) := by
      rw [Nat.cast_sub hle, Nat.cast_mul]
      ring
    rwa [heq]
  · rw [abs_sub_mul hq h.signs, ← h.size, Nat.cast_sub hle, Nat.cast_mul]
    ring
  · have hsquare := mul_self_nonneg newT
    have hsigns := h.signs
    nlinarith

theorem Euclid.abs_le (h : Euclid a m t newT r newR) (hr : 0 < r) : |newT| ≤ m := by
  have hsize := h.size
  have hcast : (1 : ℤ) ≤ r := by exact_mod_cast hr
  have ht : 0 ≤ (newR : ℤ) * |t| := mul_nonneg (natCast_nonneg _) (abs_nonneg t)
  nlinarith [abs_nonneg newT]

theorem inI128_of_abs {v : ℤ} (hv : |v| ≤ m) (hm : m < 2 ^ 64) : InI128 v := by
  have := abs_le.mp (hv.trans hm.le)
  constructor
  · omega
  · omega

theorem inverseLoop_spec (hm : m < 2 ^ 64) (h : Euclid a m t newT r newR) :
    ∃ t', inverseLoop t newT r newR = some (t', Nat.gcd r newR) ∧ m ∣ t' * a - Nat.gcd r newR := by
  induction newR using Nat.strong_induction_on generalizing t newT r with
  | _ newR ih =>
    unfold inverseLoop
    by_cases hzero : newR = 0
    · subst hzero
      exact ⟨t, by rw [dif_pos rfl, Nat.gcd_zero_right], by rw [Nat.gcd_zero_right]; exact h.mul_t⟩
    · have hpos := Nat.pos_of_ne_zero hzero
      have hmod : r - r / newR * newR = r % newR := by
        rw [Nat.mul_comm, ← mod_eq_sub_mul_div]
      have hnext := h.step.abs_le hpos
      have hprod : |((r / newR : ℕ) : ℤ) * newT| ≤ m := by
        rw [abs_mul, abs_of_nonneg (natCast_nonneg _)]
        rw [abs_sub_mul (natCast_nonneg _) h.signs] at hnext
        have := abs_nonneg t
        linarith
      obtain ⟨t', hloop, hdvd⟩ := ih _ (hmod ▸ mod_lt r hpos) h.step
      have hgcd : Nat.gcd newR (r - r / newR * newR) = Nat.gcd r newR := by
        rw [hmod, Nat.gcd_comm newR, Nat.gcd_comm r, ← gcd_rec]
      rw [hgcd] at hloop hdvd
      exact ⟨t', by rw [dif_neg hzero, if_pos ⟨inI128_of_abs hprod hm, inI128_of_abs hnext hm⟩, hloop], hdvd⟩

theorem modInverseI64_spec (hm : 1 < m) (hm64 : m < 2 ^ 64) (h : IsCoprime a m) :
    ∃ u, modInverseI64 a m = some (some u) ∧ 0 ≤ u ∧ u < m ∧ m ∣ u * a - 1 := by
  have hpos : 0 < m := by omega
  have htoNat : (m.toNat : ℤ) = m := toNat_of_nonneg hpos.le
  have hmod : ((a % m).toNat : ℤ) = a % m := toNat_of_nonneg (emod_nonneg a hpos.ne')
  have hinit : Euclid a m 0 1 m.toNat (a % m).toNat := by
    refine ⟨?_, ?_, ?_, by omega⟩
    · rw [htoNat, zero_mul, zero_sub, dvd_neg]
    · rw [hmod, one_mul]
      exact dvd_self_sub_emod
    · rw [htoNat, abs_one, abs_zero, mul_one, mul_zero, add_zero]
  obtain ⟨t', hloop, hdvd⟩ := inverseLoop_spec hm64 hinit
  have hgcd : Nat.gcd m.toNat (a % m).toNat = 1 := by
    have hcoprime := Int.isCoprime_iff_gcd_eq_one.mp h
    rw [← Int.gcd_natCast_natCast, htoNat, hmod, Int.gcd_comm, ← hcoprime]
    exact gcd_emod a m
  rw [hgcd] at hloop hdvd
  refine ⟨t' % m, ?_, emod_nonneg _ hpos.ne', emod_lt_of_pos _ hpos, ?_⟩
  · rw [modInverseI64, if_neg (not_le.mpr hm), hloop]
    rfl
  · have hmodT : m ∣ t' % m * a - t' * a := by
      rw [← sub_mul]
      exact Dvd.dvd.mul_right ((dvd_sub_comm).mp dvd_self_sub_emod) a
    have hsum := dvd_add hmodT hdvd
    rwa [sub_add_sub_cancel, Nat.cast_one] at hsum

def Integral (x alpha : Rational64) (d : ℤ) : Prop := ∃ n : ℤ, x.value + alpha.value * d = n

variable {x alpha : Rational64} {d : ℤ}

theorem integral_iff {k : ℤ} (hk : alpha.denom = k * x.denom) :
    Integral x alpha d ↔ alpha.denom ∣ k * x.numer + alpha.numer * d := by
  have hxd := x.denom_ne
  have hkne : (k : ℚ) ≠ 0 := by
    rintro h
    have := alpha.denom_pos
    rw [hk, Int.cast_eq_zero.mp h, zero_mul] at this
    omega
  have hvalue : x.value + alpha.value * d = (k * x.numer + alpha.numer * d : ℤ) / (alpha.denom : ℤ) := by
    rw [Rational64.value, Rational64.value, hk]
    push_cast
    field_simp
  unfold Integral
  rw [hvalue]
  constructor
  · rintro ⟨n, hn⟩
    rw [div_eq_iff alpha.denom_ne, ← Int.cast_mul, Int.cast_inj] at hn
    exact ⟨n, by rw [hn, mul_comm]⟩
  · rintro ⟨n, hn⟩
    exact ⟨n, by rw [hn, Int.cast_mul, mul_div_cancel_left₀ _ alpha.denom_ne]⟩

theorem denom_dvd_of_integral (h : Integral x alpha d) : x.denom ∣ alpha.denom := by
  obtain ⟨n, hn⟩ := h
  have hxd := x.denom_ne
  have had := alpha.denom_ne
  rw [Rational64.value, Rational64.value, div_mul_eq_mul_div, div_add_div _ _ hxd had,
    div_eq_iff (mul_ne_zero hxd had)] at hn
  have hint : x.numer * alpha.denom + x.denom * (alpha.numer * d) = n * (x.denom * alpha.denom) := by
    exact_mod_cast hn
  have hdvd : x.denom ∣ x.numer * alpha.denom := by
    have hmul : x.numer * alpha.denom = x.denom * (n * alpha.denom - alpha.numer * d) := by linear_combination hint
    exact ⟨_, hmul⟩
  exact x.reduced.symm.dvd_of_dvd_mul_left hdvd

theorem one_lt_denom (h0 : 0 < x.value) (h1 : x.value < 1) : 1 < x.denom ∧ 0 < x.numer ∧ x.numer < x.denom := by
  have hpos : (0 : ℚ) < x.denom := Int.cast_pos.mpr x.denom_pos
  rw [Rational64.value, div_pos_iff_of_pos_right hpos, Int.cast_pos] at h0
  rw [Rational64.value, div_lt_one hpos, Int.cast_lt] at h1
  omega

theorem deltas_of_residue {m b : ℤ} (hb : 0 < b) (hm : 0 < m) (hmb : m < b)
    (hclass : ∀ d, Integral x alpha d ↔ b ∣ d - m) :
    IsLeast {d | 0 < d ∧ Integral x alpha d} m ∧ IsGreatest {d | d < 0 ∧ Integral x alpha d} (m - b) := by
  refine ⟨⟨⟨hm, (hclass m).mpr (by simp)⟩, ?_⟩, ⟨⟨by omega, (hclass _).mpr (by simp)⟩, ?_⟩⟩
  · rintro d ⟨hd, hint⟩
    obtain ⟨k, hk⟩ := (hclass d).mp hint
    have hk0 : 0 ≤ k := by
      by_contra hneg
      have : b * k ≤ b * (-1) := mul_le_mul_of_nonneg_left (by omega) hb.le
      omega
    have := mul_nonneg hb.le hk0
    omega
  · rintro d ⟨hd, hint⟩
    obtain ⟨k, hk⟩ := (hclass d).mp hint
    have hk0 : k ≤ -1 := by
      by_contra hneg
      have := mul_nonneg hb.le (show 0 ≤ k by omega)
      omega
    have : b * k ≤ b * (-1) := mul_le_mul_of_nonneg_left hk0 hb.le
    omega

theorem patchingDeltas_spec (hx0 : 0 < x.value) (hx1 : x.value < 1) (ha0 : 0 < alpha.value) (ha1 : alpha.value < 1) :
    (patchingDeltas x alpha = some none ∧ ∀ d, ¬Integral x alpha d) ∨
      ∃ dplus dminus, patchingDeltas x alpha = some (some (dplus, dminus)) ∧
        IsLeast {d | 0 < d ∧ Integral x alpha d} dplus ∧ IsGreatest {d | d < 0 ∧ Integral x alpha d} dminus := by
  obtain ⟨hxden, hxnum, hxlt⟩ := one_lt_denom hx0 hx1
  obtain ⟨haden, hanum, halt⟩ := one_lt_denom ha0 ha1
  have hnum : ¬(x.numer = 0 ∨ alpha.numer = 0) := by omega
  by_cases hdvd : alpha.denom % x.denom = 0
  · right
    obtain ⟨t, ht⟩ := dvd_of_emod_eq_zero hdvd
    have htdiv : alpha.denom / x.denom = t := by rw [ht, mul_ediv_cancel_left _ (by omega)]
    have htpos : 0 < t := by
      by_contra hneg
      have := mul_nonneg (show 0 ≤ x.denom by omega) (show 0 ≤ -t by omega)
      rw [mul_neg, ← ht] at this
      omega
    have hcoprime : IsCoprime alpha.numer x.denom := alpha.reduced.of_isCoprime_of_dvd_right (ht ▸ dvd_mul_right _ _)
    have hrange := alpha.denom_range.2
    have hxrange := x.denom_range.2
    obtain ⟨u, hu, hu0, hulx, hinverse⟩ := modInverseI64_spec hxden (by omega) hcoprime
    have hut : u * t < 2 ^ 63 := by nlinarith
    have hut0 : 0 ≤ u * t := mul_nonneg hu0 htpos.le
    have hi128 : InI128 (-u * t) ∧ InI128 (-u * t * x.numer) := by
      have hprod0 := mul_nonneg hut0 hxnum.le
      have hprod : u * t * x.numer ≤ 2 ^ 63 * 2 ^ 63 := mul_le_mul hut.le (by omega) hxnum.le (by norm_num)
      rw [neg_mul, neg_mul]
      exact ⟨⟨by omega, by omega⟩, by omega, by omega⟩
    have hclass : ∀ d, Integral x alpha d ↔ alpha.denom ∣ d - -u * t * x.numer % alpha.denom := by
      intro d
      have hmod : alpha.denom ∣ -u * t * x.numer - -u * t * x.numer % alpha.denom := dvd_self_sub_emod
      have hut1 : alpha.denom ∣ (u * alpha.numer - 1) * t := by
        rw [ht]
        exact mul_dvd_mul_right hinverse t
      have hcancel : alpha.denom ∣ d - -u * t * x.numer % alpha.denom ↔
          alpha.denom ∣ alpha.numer * (d - -u * t * x.numer % alpha.denom) :=
        ⟨fun h => Dvd.dvd.mul_left h _, alpha.reduced.symm.dvd_of_dvd_mul_left⟩
      rw [integral_iff (ht.trans (mul_comm _ _)), hcancel]
      have hsum : t * x.numer + alpha.numer * d = alpha.numer * (d - -u * t * x.numer % alpha.denom) -
          ((u * alpha.numer - 1) * t * x.numer +
            alpha.numer * (-u * t * x.numer - -u * t * x.numer % alpha.denom)) := by ring
      rw [hsum]
      exact dvd_sub_left (dvd_add (Dvd.dvd.mul_right hut1 _) (Dvd.dvd.mul_left hmod _))
    have hm0 := emod_nonneg (-u * t * x.numer) (show alpha.denom ≠ 0 by omega)
    have hmlt := emod_lt_of_pos (-u * t * x.numer) (show 0 < alpha.denom by omega)
    have hmne : -u * t * x.numer % alpha.denom ≠ 0 := by
      intro hzero
      obtain ⟨n, hn⟩ := (hclass 0).mpr (by rw [hzero, sub_zero]; exact dvd_zero _)
      rw [Int.cast_zero, mul_zero, add_zero] at hn
      rw [hn] at hx0 hx1
      have h0 : (0 : ℤ) < n := by exact_mod_cast hx0
      have h1 : n < (1 : ℤ) := by exact_mod_cast hx1
      omega
    refine ⟨_, _, ?_, deltas_of_residue (show 0 < alpha.denom by omega) (lt_of_le_of_ne hm0 (Ne.symm hmne)) hmlt hclass⟩
    rw [patchingDeltas, if_neg hnum, if_neg (not_not.mpr hdvd), htdiv]
    simp only [hu]
    rw [if_pos hi128, if_neg (by omega), if_neg (by omega)]
  · left
    refine ⟨?_, fun d hint => hdvd (emod_eq_zero_of_dvd (denom_dvd_of_integral hint))⟩
    rw [patchingDeltas, if_neg hnum, if_pos hdvd]

end Nixie.Arithmetic
