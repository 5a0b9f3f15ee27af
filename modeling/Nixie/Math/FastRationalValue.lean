import Mathlib.Tactic.FieldSimp
import Mathlib.Tactic.Linarith
import Mathlib.Tactic.Ring
import Mathlib.Algebra.Order.Field.Basic
import Nixie.Math.FastRational

namespace Nixie.Math

open Int

section

variable {z : ℤ} {a b c n : Int64}

theorem tryIntoI64_eq_some : tryIntoI64 z = some n ↔ n.toInt = z := by
  unfold tryIntoI64
  constructor
  · intro h
    split_ifs at h with hfits
    rw [Option.some.injEq] at h
    rw [← h, Int64.toInt_ofInt_of_le hfits.1 hfits.2]
  · rintro rfl
    rw [if_pos ⟨n.le_toInt, n.toInt_lt⟩, Int64.ofInt_toInt]

theorem checkedMul_eq_some : checkedMul a b = some c ↔ c.toInt = a.toInt * b.toInt := tryIntoI64_eq_some

theorem checkedAdd_eq_some : checkedAdd a b = some c ↔ c.toInt = a.toInt + b.toInt := tryIntoI64_eq_some

theorem checkedSub_eq_some : checkedSub a b = some c ↔ c.toInt = a.toInt - b.toInt := tryIntoI64_eq_some

theorem checkedNeg_eq_some : checkedNeg a = some c ↔ c.toInt = -a.toInt := tryIntoI64_eq_some

theorem checkedAbs_eq_some : checkedAbs a = some c ↔ c.toInt = |a.toInt| := tryIntoI64_eq_some

theorem gcdI64_toInt (h : Int.gcd a.toInt b.toInt < 2 ^ 63) : (gcdI64 a b).toInt = Int.gcd a.toInt b.toInt := by
  have hgcd : Int.gcd a.toInt b.toInt = a.toInt.natAbs.gcd b.toInt.natAbs := rfl
  unfold gcdI64
  split_ifs with ha hb
  · rw [hgcd, ha, Nat.gcd_zero_left] at h ⊢
    exact Int64.toInt_ofNat_of_lt h
  · rw [hgcd, hb, Nat.gcd_zero_right] at h ⊢
    exact Int64.toInt_ofNat_of_lt h
  · have hloop := gcdLoop_shift (Nat.pos_of_ne_zero ha) (Nat.pos_of_ne_zero hb)
    rw [← hgcd] at hloop
    simp only [Nat.shiftLeft_eq, mul_comm _ (2 ^ _), hloop]
    rw [Nat.mod_eq_of_lt (h.trans (by decide))]
    exact Int64.toInt_ofNat_of_lt h

theorem gcdI64_of_pos (hb : 0 < b.toInt) : (gcdI64 a b).toInt = Int.gcd a.toInt b.toInt ∧ 0 < (gcdI64 a b).toInt := by
  have hle : (Int.gcd a.toInt b.toInt : ℤ) ≤ b.toInt := le_of_dvd hb (Int.gcd_dvd_right ..)
  have hlt := b.toInt_lt
  have heq : (gcdI64 a b).toInt = Int.gcd a.toInt b.toInt := gcdI64_toInt (by omega)
  have hpos : 0 < Int.gcd a.toInt b.toInt := gcd_pos_of_ne_zero_right _ hb.ne'
  exact ⟨heq, by omega⟩

theorem rawDiv_of_dvd (hb : 0 < b.toInt) (hdvd : b.toInt ∣ a.toInt) :
    ∃ q, rawDiv a b = some q ∧ b.toInt * q.toInt = a.toInt := by
  obtain ⟨k, hk⟩ := hdvd
  have hlo := a.le_toInt
  have hhi := a.toInt_lt
  have hfits : -2 ^ 63 ≤ k ∧ k < 2 ^ 63 := by
    rw [hk] at hlo hhi
    constructor
    · by_contra hlt
      nlinarith
    · by_contra hlt
      nlinarith
  refine ⟨Int64.ofInt k, ?_, ?_⟩
  · rw [rawDiv, if_neg hb.ne', hk, mul_tdiv_cancel_left _ hb.ne', tryIntoI64, if_pos hfits]
  · rw [Int64.toInt_ofInt_of_le hfits.1 hfits.2, hk]

end

namespace FastRational

def Reduced : FastRational → Prop
  | small num den => 0 < den.toInt ∧ Int.gcd num.toInt den.toInt = 1
  | big _ => True

def Returns (o : Option FastRational) (q : ℚ) : Prop :=
  ∃ r, o = some r ∧ r.toBigRational = q ∧ r.Reduced

variable {num den aNum aDen bNum bDen : Int64} {q : ℚ} {a b : FastRational}

theorem returns_big (q : ℚ) : Returns (some (big q)) q := ⟨_, rfl, rfl, trivial⟩

theorem returns_int (n : Int64) : Returns (some (small n 1)) n.toInt := by
  refine ⟨_, rfl, ?_, by decide, ?_⟩
  · have hone : ((1 : Int64).toInt : ℚ) = 1 := rfl
    rw [toBigRational, bigNew, hone, div_one]
  · exact Int.gcd_one_right _

theorem returns_zero : Returns (some (small 0 1)) 0 := by
  simpa using returns_int 0

theorem reduceSmall_returns (hden : 0 < den.toInt) : Returns (reduceSmall num den) (bigNew num den) := by
  obtain ⟨heq, hpos⟩ := gcdI64_of_pos (a := num) hden
  obtain ⟨n', hn', hnum⟩ := rawDiv_of_dvd (a := num) hpos (by rw [heq]; exact Int.gcd_dvd_left ..)
  obtain ⟨d', hd', hdeneq⟩ := rawDiv_of_dvd (a := den) hpos (by rw [heq]; exact Int.gcd_dvd_right ..)
  have hd'pos : 0 < d'.toInt := by
    rw [← hdeneq] at hden
    exact pos_of_mul_pos_right hden hpos.le
  have hcoprime : Int.gcd n'.toInt d'.toInt = 1 := by
    have hscale := Int.gcd_mul_left (gcdI64 num den).toInt n'.toInt d'.toInt
    rw [hnum, hdeneq, ← natAbs_natCast (Int.gcd num.toInt den.toInt), ← heq] at hscale
    exact (Nat.eq_of_mul_eq_mul_left (Int.natAbs_pos.mpr hpos.ne') (by rw [mul_one, ← hscale]))
  refine ⟨small n' d', ?_, ?_, hd'pos, hcoprime⟩
  · unfold reduceSmall
    simp [hpos.ne', hn', hd']
  · rw [toBigRational, bigNew, bigNew, ← hnum, ← hdeneq, cast_mul, cast_mul,
      mul_div_mul_left _ _ (by exact_mod_cast hpos.ne')]

theorem newSmall_returns (hden : den.toInt ≠ 0) : Returns (newSmall num den) (bigNew num den) := by
  unfold newSmall
  split_ifs with hzero hneg
  · have hvalue : bigNew num den = 0 := by rw [bigNew, hzero, cast_zero, zero_div]
    rw [hvalue]
    exact returns_zero
  · split
    · next nn dd hnn hdd =>
      rw [checkedNeg_eq_some] at hnn hdd
      have hvalue : bigNew num den = bigNew nn dd := by
        rw [bigNew, bigNew, hnn, hdd, cast_neg, cast_neg, neg_div_neg_eq]
      rw [hvalue]
      exact reduceSmall_returns (by omega)
    · exact returns_big _
  · exact reduceSmall_returns (lt_of_le_of_ne (not_lt.mp hneg) hden.symm)

theorem fromBig_returns (q : ℚ) : Returns (fromBig q) q := by
  unfold fromBig
  split
  · next n d hn hd =>
    rw [tryIntoI64_eq_some] at hn hd
    have hvalue : bigNew n d = q := by
      rw [bigNew, hn, hd, cast_natCast, Rat.num_div_den]
    have hden : d.toInt ≠ 0 := by
      rw [hd]
      exact_mod_cast q.den_nz
    rw [if_pos hden]
    exact hvalue ▸ newSmall_returns hden
  · exact returns_big q

theorem fromPair_returns (n d : Int64) : Returns (fromPair n d) (bigNew n d) := by
  unfold fromPair
  split_ifs with hzero
  · have hvalue : bigNew n d = 0 := by rw [bigNew, hzero, cast_zero, div_zero]
    rw [hvalue]
    exact returns_zero
  · exact newSmall_returns hzero

theorem fromBigint_returns (z : ℤ) : Returns (some (fromBigint z)) z := by
  unfold fromBigint
  split
  · next n hn =>
    rw [tryIntoI64_eq_some] at hn
    rw [← hn]
    exact returns_int n
  · exact returns_big _

section

variable (hA : 0 < aDen.toInt) (hB : 0 < bDen.toInt)

theorem cast_pos_ne {d : Int64} (hd : 0 < d.toInt) : (d.toInt : ℚ) ≠ 0 := Int.cast_ne_zero.mpr hd.ne'

include hA hB

theorem addSmall_returns : Returns (addSmall aNum aDen bNum bDen) (bigNew aNum aDen + bigNew bNum bDen) := by
  unfold addSmall
  dsimp only
  split
  · next ad cb bd had hcb hbd =>
    split
    · next num hnum =>
      rw [checkedMul_eq_some] at had hcb hbd
      rw [checkedAdd_eq_some] at hnum
      have hvalue : bigNew aNum aDen + bigNew bNum bDen = bigNew num bd := by
        have := cast_pos_ne hA
        have := cast_pos_ne hB
        simp only [bigNew, hnum, had, hcb, hbd, cast_add, cast_mul]
        field_simp
      rw [hvalue]
      exact newSmall_returns (by rw [hbd]; exact (mul_pos hA hB).ne')
    · exact fromBig_returns _
  · exact fromBig_returns _

theorem subSmall_returns : Returns (subSmall aNum aDen bNum bDen) (bigNew aNum aDen - bigNew bNum bDen) := by
  unfold subSmall
  dsimp only
  split
  · next ad cb bd had hcb hbd =>
    split
    · next num hnum =>
      rw [checkedMul_eq_some] at had hcb hbd
      rw [checkedSub_eq_some] at hnum
      have hvalue : bigNew aNum aDen - bigNew bNum bDen = bigNew num bd := by
        have := cast_pos_ne hA
        have := cast_pos_ne hB
        simp only [bigNew, hnum, had, hcb, hbd, cast_sub, cast_mul]
        field_simp
      rw [hvalue]
      exact newSmall_returns (by rw [hbd]; exact (mul_pos hA hB).ne')
    · exact fromBig_returns _
  · exact fromBig_returns _

omit hA in
theorem cancel_gcd (x : Int64) : ∃ g x' d', (gcdI64 x bDen).toInt = g ∧ 0 < g ∧ cancel x (gcdI64 x bDen) = some x' ∧
    cancel bDen (gcdI64 x bDen) = some d' ∧ g * x'.toInt = x.toInt ∧ g * d'.toInt = bDen.toInt := by
  obtain ⟨heq, hpos⟩ := gcdI64_of_pos (a := x) hB
  obtain ⟨x', hx', hnum⟩ := rawDiv_of_dvd (a := x) hpos (by rw [heq]; exact Int.gcd_dvd_left ..)
  obtain ⟨d', hd', hden⟩ := rawDiv_of_dvd (a := bDen) hpos (by rw [heq]; exact Int.gcd_dvd_right ..)
  refine ⟨_, x', d', rfl, hpos, ?_, ?_, hnum, hden⟩
  · rw [cancel, if_pos hpos.ne', hx']
  · rw [cancel, if_pos hpos.ne', hd']

theorem mulSmall_returns : Returns (mulSmall aNum aDen bNum bDen) (bigNew aNum aDen * bigNew bNum bDen) := by
  obtain ⟨g1, an, bd, -, hg1, han, hbd, han', hbd'⟩ := cancel_gcd hB aNum
  obtain ⟨g2, bn, ad, -, hg2, hbn, had, hbn', had'⟩ := cancel_gcd hA bNum
  unfold mulSmall
  simp only [han, hbd, hbn, had, Option.bind_eq_bind, Option.bind_some]
  split
  · next num den hnum hden =>
    rw [checkedMul_eq_some] at hnum hden
    have hadne : (ad.toInt : ℚ) ≠ 0 := Int.cast_ne_zero.mpr fun h => by simp [h] at had'; omega
    have hbdne : (bd.toInt : ℚ) ≠ 0 := Int.cast_ne_zero.mpr fun h => by simp [h] at hbd'; omega
    have hg1ne : (g1 : ℚ) ≠ 0 := Int.cast_ne_zero.mpr hg1.ne'
    have hg2ne : (g2 : ℚ) ≠ 0 := Int.cast_ne_zero.mpr hg2.ne'
    have hvalue : bigNew aNum aDen * bigNew bNum bDen = bigNew num den := by
      simp only [bigNew, hnum, hden, ← han', ← hbd', ← hbn', ← had', cast_mul]
      field_simp
    rw [hvalue]
    refine newSmall_returns ?_
    rw [hden]
    exact_mod_cast mul_ne_zero hadne hbdne
  · exact fromBig_returns _

omit hB in
theorem divSmall_returns (hb : bNum.toInt ≠ 0) :
    Returns ((divSmall aNum aDen bNum bDen).bind id) (bigNew aNum aDen / bigNew bNum bDen) := by
  have hjoin (o : Option FastRational) : (o.map some).bind id = o := by cases o <;> rfl
  rw [divSmall, if_neg hb]
  split
  · next num den hnum hden =>
    rw [checkedMul_eq_some] at hnum hden
    have hvalue : bigNew aNum aDen / bigNew bNum bDen = bigNew num den := by
      simp only [bigNew, hnum, hden, cast_mul]
      rw [div_div_div_eq]
    rw [hjoin, hvalue]
    refine newSmall_returns ?_
    rw [hden]
    exact mul_ne_zero hA.ne' hb
  · rw [hjoin]
    exact fromBig_returns _

end

theorem add_returns (ha : a.Reduced) (hb : b.Reduced) : Returns (a.add b) (a.toBigRational + b.toBigRational) := by
  cases a with
  | small an ad =>
    cases b with
    | small bn bd => exact addSmall_returns ha.1 hb.1
    | big q => exact fromBig_returns _
  | big p => exact fromBig_returns _

theorem sub_returns (ha : a.Reduced) (hb : b.Reduced) : Returns (a.sub b) (a.toBigRational - b.toBigRational) := by
  cases a with
  | small an ad =>
    cases b with
    | small bn bd => exact subSmall_returns ha.1 hb.1
    | big q => exact fromBig_returns _
  | big p => exact fromBig_returns _

theorem mul_returns (ha : a.Reduced) (hb : b.Reduced) : Returns (a.mul b) (a.toBigRational * b.toBigRational) := by
  cases a with
  | small an ad =>
    cases b with
    | small bn bd => exact mulSmall_returns ha.1 hb.1
    | big q => exact fromBig_returns _
  | big p => exact fromBig_returns _

theorem small_eq_zero (hden : 0 < den.toInt) : (small num den).toBigRational = 0 ↔ num.toInt = 0 := by
  rw [toBigRational, bigNew, div_eq_zero_iff, or_iff_left (cast_pos_ne hden), cast_eq_zero]

section

variable (ha : a.Reduced)
include ha

theorem isZero_iff : a.isZero = true ↔ a.toBigRational = 0 := by
  cases a with
  | small num den =>
    rw [small_eq_zero ha.1]
    exact beq_iff_eq
  | big q => exact beq_iff_eq

theorem div_returns (hb : b.Reduced) (hne : b.toBigRational ≠ 0) :
    Returns (a.div b) (a.toBigRational / b.toBigRational) := by
  have hzero : ¬ b.isZero = true := fun h => hne ((isZero_iff hb).mp h)
  cases a with
  | small an ad =>
    cases b with
    | small bn bd => exact divSmall_returns ha.1 fun h => hne ((small_eq_zero hb.1).mpr h)
    | big q =>
      simp only [div, hzero]
      exact fromBig_returns _
  | big p =>
    simp only [div, hzero]
    exact fromBig_returns _

theorem neg_returns : Returns a.neg (-a.toBigRational) := by
  cases a with
  | small num den =>
    simp only [neg]
    split
    · next n hn =>
      rw [checkedNeg_eq_some] at hn
      refine ⟨_, rfl, ?_, ha.1, ?_⟩
      · rw [toBigRational, toBigRational, bigNew, bigNew, hn, cast_neg, neg_div]
      · rw [hn, Int.neg_gcd]
        exact ha.2
    · refine ⟨_, rfl, ?_, trivial⟩
      rw [toBigRational, toBigRational, bigNew, neg_div]
  | big q => exact fromBig_returns _

theorem abs_returns : Returns a.abs |a.toBigRational| := by
  cases a with
  | small num den =>
    have hvalue : |(small num den).toBigRational| = (|num.toInt| : ℤ) / den.toInt := by
      rw [toBigRational, bigNew, abs_div, abs_of_pos (a := (den.toInt : ℚ)) (by exact_mod_cast ha.1), cast_abs]
    simp only [abs, hvalue]
    split
    · next n hn =>
      rw [checkedAbs_eq_some] at hn
      refine ⟨_, rfl, ?_, ha.1, ?_⟩
      · rw [toBigRational, bigNew, hn]
      · rw [hn, Int.gcd, natAbs_abs]
        exact ha.2
    · exact fromBig_returns _
  | big q => exact fromBig_returns _

theorem recip_returns (hne : a.toBigRational ≠ 0) : Returns (a.recip.bind id) a.toBigRational⁻¹ := by
  have hjoin (o : Option FastRational) : (o.map some).bind id = o := by cases o <;> rfl
  cases a with
  | small num den =>
    have hnum : num.toInt ≠ 0 := fun h => hne ((small_eq_zero ha.1).mpr h)
    have hvalue : (small num den).toBigRational⁻¹ = bigNew den num := by
      rw [toBigRational, bigNew, bigNew, inv_div]
    rw [recip, if_neg hnum, hjoin, hvalue]
    exact newSmall_returns hnum
  | big q =>
    have hq : q ≠ 0 := hne
    rw [recip, if_neg hq, hjoin]
    exact fromBig_returns _

theorem eq_iff (hb : b.Reduced) : a.eq b = true ↔ a.toBigRational = b.toBigRational := by
  cases a with
  | small an ad =>
    cases b with
    | small bn bd =>
      rw [eq, Bool.and_eq_true, beq_iff_eq, beq_iff_eq]
      constructor
      · rintro ⟨rfl, rfl⟩
        rfl
      · intro h
        obtain ⟨hnum, hden⟩ := Rat.div_int_inj ha.1 hb.1 ha.2 hb.2 h
        exact ⟨Int64.toInt_inj.mp hnum, Int64.toInt_inj.mp hden⟩
    | big q => exact beq_iff_eq
  | big p => exact beq_iff_eq

theorem cmp_eq (hb : b.Reduced) : a.cmp b = compare a.toBigRational b.toBigRational := by
  cases a with
  | small an ad =>
    cases b with
    | small bn bd =>
      simp only [cmp]
      split
      · next lhs rhs hlhs hrhs =>
        rw [checkedMul_eq_some] at hlhs hrhs
        have had : (0 : ℚ) < ad.toInt := by exact_mod_cast ha.1
        have hbd : (0 : ℚ) < bd.toInt := by exact_mod_cast hb.1
        rw [hlhs, hrhs, toBigRational, toBigRational, bigNew, bigNew]
        -- the cross products are ordered as the fractions
        rcases lt_trichotomy (an.toInt * bd.toInt) (bn.toInt * ad.toInt) with h | h | h
        · have hlt : (an.toInt / ad.toInt : ℚ) < bn.toInt / bd.toInt := by
            rw [div_lt_div_iff₀ had hbd]
            exact_mod_cast h
          rw [compare_lt_iff_lt.mpr h, compare_lt_iff_lt.mpr hlt]
        · have heq : (an.toInt / ad.toInt : ℚ) = bn.toInt / bd.toInt := by
            rw [div_eq_div_iff had.ne' hbd.ne']
            exact_mod_cast h
          rw [compare_eq_iff_eq.mpr h, compare_eq_iff_eq.mpr heq]
        · have hgt : (bn.toInt / bd.toInt : ℚ) < an.toInt / ad.toInt := by
            rw [div_lt_div_iff₀ hbd had]
            exact_mod_cast h
          rw [compare_gt_iff_gt.mpr h, compare_gt_iff_gt.mpr hgt]
      · rfl
    | big q => rfl
  | big p => rfl

theorem hash_eq_big : a.hash = (big a.toBigRational).hash := by
  cases a with
  | small num den =>
    have hnum : (small num den).toBigRational.num = num.toInt := Rat.num_div_eq_of_coprime ha.1 ha.2
    have hden : ((small num den).toBigRational.den : ℤ) = den.toInt := Rat.den_div_eq_of_coprime ha.1 ha.2
    have hn : tryIntoI64 (small num den).toBigRational.num = some num := tryIntoI64_eq_some.mpr hnum.symm
    have hd : tryIntoI64 (small num den).toBigRational.den = some den := tryIntoI64_eq_some.mpr hden.symm
    simp only [hash, hn, hd, ha.1, if_true]
  | big q => rfl

end

theorem hash_big_isSome (q : ℚ) : ∃ data, (big q).hash = some data := by
  simp only [hash]
  split
  · next n d hn hd =>
    rw [tryIntoI64_eq_some] at hd
    have hpos : 0 < d.toInt := by
      rw [hd]
      exact_mod_cast q.den_pos
    exact ⟨_, if_pos hpos⟩
  · exact ⟨_, rfl⟩

end FastRational

end Nixie.Math
