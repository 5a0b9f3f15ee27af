import Mathlib.Data.Int.Bitwise
import Mathlib.Tactic.Positivity

/-!
Constant evaluation of the bit-vector operators, `nixie-core/src/ast/manager/bv_fold.rs`, and its
agreement with the operators on bit sequences.  A value is an integer, a width a natural number.
-/

namespace Nixie.BvFold

open Nat Int BitVec

def modulus (width : ℕ) : ℤ := 2 ^ width

def allOnes (width : ℕ) : ℤ := modulus width - 1

def bvWrapUnsigned (value : ℤ) (width : ℕ) : ℤ :=
  if width = 0 then 0
  else
    let wrapped := value.tmod (modulus width)
    if wrapped < 0 then wrapped + modulus width else wrapped

def toSigned (value : ℤ) (width : ℕ) : ℤ :=
  if width = 0 then 0
  else if 2 ^ (width - 1) ≤ value then value - modulus width
  else value

def isNegative (value : ℤ) (width : ℕ) : Bool := 0 < width ∧ 2 ^ (width - 1) ≤ value

def shiftDistance (amount : ℤ) (width : ℕ) : Option ℕ :=
  if (width : ℤ) ≤ amount then none
  else if 0 ≤ amount ∧ amount < 2 ^ 64 then some amount.toNat
  else none

def bvAdd (lhs rhs : ℤ) (width : ℕ) : ℤ := bvWrapUnsigned (lhs + rhs) width

def bvSub (lhs rhs : ℤ) (width : ℕ) : ℤ := bvWrapUnsigned (lhs - rhs) width

def bvMul (lhs rhs : ℤ) (width : ℕ) : ℤ := bvWrapUnsigned (lhs * rhs) width

def bvAnd (lhs rhs : ℤ) (_width : ℕ) : ℤ := lhs.land rhs

def bvOr (lhs rhs : ℤ) (_width : ℕ) : ℤ := lhs.lor rhs

def bvXor (lhs rhs : ℤ) (_width : ℕ) : ℤ := lhs.xor rhs

def bvNot (value : ℤ) (width : ℕ) : ℤ := allOnes width - value

def bvShl (value amount : ℤ) (width : ℕ) : ℤ :=
  match shiftDistance amount width with
  | none => 0
  | some shift => bvWrapUnsigned (value <<< shift) width

def bvLshr (value amount : ℤ) (width : ℕ) : ℤ :=
  match shiftDistance amount width with
  | none => 0
  | some shift => value >>> shift

def bvAshr (value amount : ℤ) (width : ℕ) : ℤ :=
  match shiftDistance amount width with
  | none => if isNegative value width then allOnes width else 0
  | some shift =>
    let shifted := value >>> shift
    if isNegative value width then
      -- `shift as u32`, and `saturating_sub`
      let keep := allOnes (width - shift % 2 ^ 32)
      (allOnes width - keep).lor shifted
    else shifted

def bvUdiv (lhs rhs : ℤ) (width : ℕ) : ℤ := if rhs = 0 then allOnes width else lhs.tdiv rhs

def bvUrem (lhs rhs : ℤ) (_width : ℕ) : ℤ := if rhs = 0 then lhs else lhs.tmod rhs

def bvSdiv (lhs rhs : ℤ) (width : ℕ) : ℤ :=
  let signedLhs := toSigned lhs width
  let signedRhs := toSigned rhs width
  if signedRhs = 0 then if signedLhs < 0 then 1 else allOnes width
  else bvWrapUnsigned (signedLhs.tdiv signedRhs) width

def bvSrem (lhs rhs : ℤ) (width : ℕ) : ℤ :=
  let signedLhs := toSigned lhs width
  let signedRhs := toSigned rhs width
  if signedRhs = 0 then lhs else bvWrapUnsigned (signedLhs.tmod signedRhs) width

def bvSmod (lhs rhs : ℤ) (width : ℕ) : ℤ :=
  let signedLhs := toSigned lhs width
  let signedRhs := toSigned rhs width
  if signedRhs = 0 then lhs
  else
    let absLhs := if signedLhs < 0 then -signedLhs else signedLhs
    let absRhs := if signedRhs < 0 then -signedRhs else signedRhs
    let unsignedRem := absLhs.tmod absRhs
    if unsignedRem = 0 then 0
    else
      let result :=
        match decide (signedLhs < 0), decide (signedRhs < 0) with
        | false, false => unsignedRem
        | true, false => -unsignedRem + signedRhs
        | false, true => unsignedRem + signedRhs
        | true, true => -unsignedRem
      bvWrapUnsigned result width

def bvConcat (lhs rhs : ℤ) (rhsWidth : ℕ) : ℤ := (lhs <<< rhsWidth).lor rhs

def bvExtract (value : ℤ) (high low : ℕ) : ℤ := (value >>> low).land (allOnes (high - low + 1))

section

variable {w : ℕ}

theorem modulus_pos (w : ℕ) : 0 < modulus w := by
  unfold modulus
  positivity

theorem allOnes_eq (w : ℕ) : allOnes w = (BitVec.allOnes w).toNat := by
  have := Nat.one_le_two_pow (n := w)
  simp only [allOnes, modulus, toNat_allOnes]
  push_cast [this]
  rfl

theorem bvWrapUnsigned_emod (value : ℤ) : bvWrapUnsigned value w = value % modulus w := by
  rcases Nat.eq_zero_or_pos w with hw | hw
  · simp [bvWrapUnsigned, modulus, hw]
  · have hpos := modulus_pos w
    have hlow := emod_nonneg value hpos.ne'
    have hhigh := emod_lt_of_pos value hpos
    have habs : ((modulus w).natAbs : ℤ) = modulus w := by omega
    have hdvd : modulus w ∣ value → value % modulus w = 0 := emod_eq_zero_of_dvd
    have hdvd' : value % modulus w = 0 → modulus w ∣ value := dvd_of_emod_eq_zero
    simp only [bvWrapUnsigned, hw.ne', if_false, tmod_eq_emod]
    split_ifs <;> omega

theorem bvWrapUnsigned_eq (value : ℤ) : bvWrapUnsigned value w = (BitVec.ofInt w value).toNat := by
  have hlow := emod_nonneg value (modulus_pos w).ne'
  rw [bvWrapUnsigned_emod, toNat_ofInt, toNat_of_nonneg]
  · simp [modulus]
  · simpa [modulus] using hlow

theorem half_double (hw : 0 < w) : (2 : ℤ) ^ w = 2 * 2 ^ (w - 1) := by
  obtain ⟨k, rfl⟩ : ∃ k, w = k + 1 := ⟨w - 1, by omega⟩
  simp [pow_succ, mul_comm]

theorem isNegative_eq (x : BitVec w) : isNegative x.toNat w = x.msb := by
  rcases Nat.eq_zero_or_pos w with rfl | hw
  · simp [isNegative, eq_nil x]
  · have hhalf := half_double hw
    rw [msb_eq_decide, isNegative, decide_eq_decide]
    simp only [hw, true_and]
    exact_mod_cast Iff.rfl

theorem toSigned_eq (x : BitVec w) : toSigned x.toNat w = x.toInt := by
  rcases Nat.eq_zero_or_pos w with rfl | hw
  · simp [toSigned, eq_nil x]
  · have hneg : isNegative x.toNat w = decide ((2 : ℤ) ^ (w - 1) ≤ x.toNat) := by simp [isNegative, hw]
    rw [toInt_eq_msb_cond, ← isNegative_eq, hneg]
    simp [toSigned, hw.ne', modulus]

theorem shiftDistance_eq (hw : w < 2 ^ 32) (y : BitVec w) :
    shiftDistance y.toNat w = if w ≤ y.toNat then none else some y.toNat := by
  simp only [shiftDistance, Nat.cast_le]
  split_ifs with h₁ h₂
  · rfl
  · simp
  · exact absurd ⟨by omega, by omega⟩ h₂

section

variable (x y : BitVec w)

theorem bvAdd_eq : bvAdd x.toNat y.toNat w = (x + y).toNat := by
  rw [bvAdd, bvWrapUnsigned_eq]
  congr 2

theorem bvSub_eq : bvSub x.toNat y.toNat w = (x - y).toNat := by
  rw [bvSub, bvWrapUnsigned_eq]
  congr 2
  rw [Int.sub_eq_add_neg, ofInt_add, ofInt_neg]
  simp [BitVec.sub_eq_add_neg]

theorem bvMul_eq : bvMul x.toNat y.toNat w = (x * y).toNat := by
  rw [bvMul, bvWrapUnsigned_eq]
  congr 2

theorem bvAnd_eq : bvAnd x.toNat y.toNat w = (x &&& y).toNat := rfl

theorem bvOr_eq : bvOr x.toNat y.toNat w = (x ||| y).toNat := rfl

theorem bvXor_eq : bvXor x.toNat y.toNat w = (x ^^^ y).toNat := rfl

end

theorem bvNot_eq (x : BitVec w) : bvNot x.toNat w = (~~~x).toNat := by
  have := x.isLt
  rw [bvNot, allOnes_eq, toNat_not, toNat_allOnes]
  omega

theorem bvShl_eq (hw : w < 2 ^ 32) (x y : BitVec w) : bvShl x.toNat y.toNat w = (x <<< y).toNat := by
  rw [bvShl, shiftDistance_eq hw, BitVec.shiftLeft_eq']
  split_ifs with h
  · simp [BitVec.shiftLeft_eq_zero h]
  · have hshift : ((x.toNat : ℤ) <<< y.toNat) = ((x.toNat <<< y.toNat : ℕ) : ℤ) := rfl
    simp only [bvWrapUnsigned_eq, hshift, BitVec.ofInt_natCast]
    rfl

theorem bvLshr_eq (hw : w < 2 ^ 32) (x y : BitVec w) : bvLshr x.toNat y.toNat w = (x >>> y).toNat := by
  rw [bvLshr, shiftDistance_eq hw, ushiftRight_eq']
  split_ifs with h
  · simp [ushiftRight_eq_zero h]
  · rfl

theorem fill_eq {x s : ℕ} (hx : x < 2 ^ w) (hs : s < w) :
    (2 ^ w - 2 ^ (w - s)) ||| x >>> s = 2 ^ w - 1 - (2 ^ w - 1 - x) >>> s := by
  have hsplit : 2 ^ w = 2 ^ s * 2 ^ (w - s) := by rw [← pow_add]; congr 1; omega
  have hpos : 0 < 2 ^ (w - s) := by positivity
  have hfill : 2 ^ w - 2 ^ (w - s) = 2 ^ (w - s) * (2 ^ s - 1) := by
    rw [Nat.mul_sub, mul_one, mul_comm, hsplit]
  have hrest : x / 2 ^ s < 2 ^ (w - s) := Nat.div_lt_of_lt_mul (hsplit ▸ hx)
  have hcompl : (2 ^ w - 1 - x) / 2 ^ s = 2 ^ (w - s) - (x / 2 ^ s + 1) := by
    rw [← Nat.mul_sub_div x (2 ^ s) (2 ^ (w - s)) (hsplit ▸ hx), ← hsplit, Nat.sub_sub, add_comm]
  have hle : 2 ^ (w - s) ≤ 2 ^ w := Nat.pow_le_pow_right (by omega) (by omega)
  rw [Nat.shiftRight_eq_div_pow, Nat.shiftRight_eq_div_pow, hcompl, hfill,
    ← Nat.two_pow_add_eq_or_of_lt hrest, ← hfill]
  generalize x / 2 ^ s = kept at hrest
  omega

theorem bvAshr_eq (hw : w < 2 ^ 32) (x y : BitVec w) : bvAshr x.toNat y.toNat w = (x.sshiftRight' y).toNat := by
  rw [bvAshr, shiftDistance_eq hw, isNegative_eq, toNat_sshiftRight']
  have hx := x.isLt
  split_ifs with h hm hm
  · have hzero : (2 ^ w - 1 - x.toNat) >>> y.toNat = 0 := by
      rw [Nat.shiftRight_eq_div_pow, Nat.div_eq_of_lt]
      have := Nat.pow_le_pow_right (n := 2) (by omega) h
      omega
    rw [hzero, allOnes_eq, BitVec.toNat_allOnes, Nat.sub_zero]
  · have hzero : x.toNat >>> y.toNat = 0 := by
      rw [Nat.shiftRight_eq_div_pow, Nat.div_eq_of_lt]
      have := Nat.pow_le_pow_right (n := 2) (by omega) h
      omega
    simp [hzero]
  · have hfill := fill_eq hx (not_le.mp h)
    have hle : 2 ^ (w - y.toNat) ≤ 2 ^ w := Nat.pow_le_pow_right (by omega) (by omega)
    have hones : allOnes w - allOnes (w - y.toNat) = ((2 ^ w - 2 ^ (w - y.toNat) : ℕ) : ℤ) := by
      simp only [allOnes, modulus]
      push_cast [hle]
      omega
    have hmod : y.toNat % 2 ^ 32 = y.toNat := mod_eq_of_lt (by omega)
    simp only [hmod, hones]
    rw [← hfill]
    rfl
  · rfl

theorem bvUdiv_eq (x y : BitVec w) : bvUdiv x.toNat y.toNat w = (x.smtUDiv y).toNat := by
  rw [bvUdiv, smtUDiv_eq, allOnes_eq]
  have hzero : (y.toNat : ℤ) = 0 ↔ y = 0#w := by
    rw [Int.natCast_eq_zero, BitVec.toNat_eq, BitVec.toNat_zero]
  split_ifs with h h' h'
  · rfl
  · exact absurd (hzero.mp h) h'
  · exact absurd (hzero.mpr h') h
  · rw [toNat_udiv]
    rfl

theorem bvUrem_eq (x y : BitVec w) : bvUrem x.toNat y.toNat w = (x.umod y).toNat := by
  rw [bvUrem]
  split_ifs with h
  · have hzero : y = 0#w := by
      rw [BitVec.toNat_eq, BitVec.toNat_zero]
      exact_mod_cast h
    simp [hzero]
  · rw [BitVec.umod_eq, BitVec.toNat_umod]
    rfl

theorem toInt_ne_zero {y : BitVec w} (h : ¬ y.toInt = 0) : y ≠ 0#w := by
  rintro rfl
  simp at h

theorem bvSdiv_eq (x y : BitVec w) : bvSdiv x.toNat y.toNat w = (x.smtSDiv y).toNat := by
  simp only [bvSdiv, toSigned_eq, allOnes_eq, bvWrapUnsigned_eq]
  by_cases hy : y.toInt = 0
  · have hzero : y = 0#w := eq_of_toInt_eq (by simpa using hy)
    have hslt : x.slt 0#w = decide (x.toInt < 0) := by simp [BitVec.slt]
    rw [if_pos hy, hzero, smtSDiv_zero, hslt]
    by_cases hx : x.toInt < 0
    · have hw : 0 < w := by
        rcases Nat.eq_zero_or_pos w with rfl | hw
        · simp [eq_nil x] at hx
        · exact hw
      simp [hx, mod_eq_of_lt (Nat.one_lt_two_pow hw.ne')]
    · simp [hx]
  · have hne := toInt_ne_zero hy
    have hdiv : x.smtSDiv y = x.sdiv y := by
      have hneg : -y ≠ 0#w := by simpa using hne
      simp [smtSDiv_eq, sdiv_eq, smtUDiv_eq, hne, hneg]
    rw [if_neg hy, hdiv, ← ofInt_toInt (x := x.sdiv y), toInt_sdiv]
    congr 2
    apply eq_of_toInt_eq
    simp

theorem bvSrem_eq (x y : BitVec w) : bvSrem x.toNat y.toNat w = (x.srem y).toNat := by
  simp only [bvSrem, toSigned_eq, bvWrapUnsigned_eq]
  split_ifs with hy
  · have hzero : y = 0#w := eq_of_toInt_eq (by simpa using hy)
    simp [hzero]
  · rw [← toInt_srem, ofInt_toInt]

theorem signedRem_eq (a b : ℤ) {r : ℤ}
    (hr : r = (if a < 0 then -a else a).tmod (if b < 0 then -b else b)) :
    a.fmod b =
      if r = 0 then 0
      else match decide (a < 0), decide (b < 0) with
        | false, false => r
        | true, false => -r + b
        | false, true => r + b
        | true, true => -r := by
  have hrem : r = if a < 0 then -a.tmod b else a.tmod b := by
    rw [hr]
    split_ifs <;> simp
  have hdvd : b ∣ a ↔ r = 0 := by
    rw [dvd_iff_tmod_eq_zero, hrem]
    split_ifs <;> omega
  have hsigns : (match decide (a < 0), decide (b < 0) with
        | false, false => r
        | true, false => -r + b
        | false, true => r + b
        | true, true => -r) =
      if a < 0 then if b < 0 then -r else -r + b else if b < 0 then r + b else r := by
    by_cases ha : a < 0 <;> by_cases hb' : b < 0 <;> simp [ha, hb']
  rw [hsigns, fmod_eq_tmod, if_congr hdvd rfl rfl]
  split_ifs at hrem ⊢ <;> omega

theorem bvSmod_eq (x y : BitVec w) : bvSmod x.toNat y.toNat w = (x.smod y).toNat := by
  simp only [bvSmod, toSigned_eq]
  by_cases hy : y.toInt = 0
  · have hzero : y = 0#w := eq_of_toInt_eq (by simpa using hy)
    simp [hzero]
  · have hfmod : (x.smod y).toNat = (BitVec.ofInt w (x.toInt.fmod y.toInt)).toNat := by
      rw [← toInt_smod, ofInt_toInt]
    generalize hr : (if x.toInt < 0 then -x.toInt else x.toInt).tmod
      (if y.toInt < 0 then -y.toInt else y.toInt) = r
    rw [hfmod, ← bvWrapUnsigned_eq, signedRem_eq x.toInt y.toInt hr.symm, if_neg hy]
    by_cases hzero : r = 0
    · simp [hzero, bvWrapUnsigned]
    · simp only [hzero, if_false]

theorem bvConcat_eq {n : ℕ} (x : BitVec w) (y : BitVec n) :
    bvConcat x.toNat y.toNat n = (x ++ y).toNat := rfl

theorem bvExtract_eq (x : BitVec w) (high low : ℕ) : bvExtract x.toNat high low = (x.extractLsb high low).toNat := by
  have hones : allOnes (high - low + 1) = ((2 ^ (high - low + 1) - 1 : ℕ) : ℤ) := by
    rw [allOnes_eq, toNat_allOnes]
  rw [extractLsb_toNat, bvExtract, hones, ← and_two_pow_sub_one_eq_mod]
  rfl

end

end Nixie.BvFold
