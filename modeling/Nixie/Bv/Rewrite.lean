import Nixie.Bv.Terms

/-!
The bit-vector rewriter, `nixie-core/src/rewrite/bv.rs`, over the builders of the term manager: both keep the
value of the term.
-/

namespace Nixie.BvRewrite

open Ast (SortId)
open BvFold

section

variable {D : Type*} [DecidableEq D] {v : Valuation D} {w n : ℕ} {a b t : Term} {x y : BitVec w}

namespace Denotes

theorem of_sort (h : HasSort t (.bitVec w)) : Denotes v w t (bits v w t) := ⟨h, rfl⟩

theorem range (ha : Denotes v w a x) : 0 < w ∧ w < 2 ^ 32 := ha.sort.range w rfl

theorem eval_eq (ha : Denotes v w a x) : eval v a = .bits x.toNat := by rw [ha.sort.eval_eq, ha.value]

theorem const (h : 0 < w ∧ w < 2 ^ 32) : Denotes v w (.bitVecConst x.toNat w) x :=
  ⟨.bitVecConst x h, by simp [bits, eval]⟩

theorem bvNot (ha : Denotes v w a x) : Denotes v w (.bvNot a) (~~~x) := by
  refine ⟨.bvNot ha.sort, ?_⟩
  rw [bits, eval, ha.sort.width_eq, ha.eval_eq, Value.bv_bits, Value.bv_bits]

theorem bvOp (op : BvOp) (ha : Denotes v w a x) (hb : Denotes v w b y) : Denotes v w (.bvOp op a b) (op.apply x y) := by
  refine ⟨.bvOp ha.sort hb.sort, ?_⟩
  rw [bits, eval, ha.sort.width_eq, ha.eval_eq, hb.eval_eq]
  simp only [Value.bv_bits]

theorem bvConcat {y : BitVec n} (ha : Denotes v w a x) (hb : Denotes v n b y) (h : w + n < 2 ^ 32) :
    Denotes v (w + n) (.bvConcat a b) (x ++ y) := by
  refine ⟨.bvConcat ha.sort hb.sort h, ?_⟩
  rw [bits, eval, ha.sort.width_eq, hb.sort.width_eq, ha.eval_eq, hb.eval_eq]
  simp only [Value.bv_bits]

theorem bvExtract {high low : ℕ} (ha : Denotes v w a x) (hl : low ≤ high) (hh : high < w) :
    Denotes v (high - low + 1) (.bvExtract high low a) (x.extractLsb high low) := by
  refine ⟨.bvExtract ha.sort hl hh, ?_⟩
  rw [bits, eval, ha.sort.width_eq, ha.eval_eq]
  simp only [Value.bv_bits]

theorem unique {x' : BitVec w} (ha : Denotes v w a x) (ha' : Denotes v w a x') : x = x' :=
  ha.value.symm.trans ha'.value

theorem const_eq {value : ℤ} {width : ℕ} (ha : Denotes v w (.bitVecConst value width) x) :
    width = w ∧ value = x.toNat := by
  obtain ⟨hs, hv⟩ := ha
  cases hs with
  | bitVecConst x' h =>
    have hx : x' = x := by simpa [bits, eval] using hv
    exact ⟨rfl, by rw [hx]⟩

theorem constUnsigned_eq {c : ℤ} (ha : Denotes v w a x) (hc : bvConstUnsigned a w = some c) : c = x.toNat := by
  cases a <;> simp only [bvConstUnsigned, reduceCtorEq, Option.some.injEq] at hc
  obtain ⟨rfl, rfl⟩ := ha.const_eq
  rw [← hc, bvWrapUnsigned_eq, BitVec.ofInt_natCast, BitVec.ofNat_toNat, BitVec.setWidth_eq]

end Denotes

theorem mkBitvec_eq (value : ℤ) : mkBitvec value w = .bitVecConst (BitVec.ofInt w value).toNat w := by
  have hpos := modulus_pos w
  rw [← bvWrapUnsigned_eq, bvWrapUnsigned_emod, mkBitvec]
  split_ifs with hout
  · have hlow : 0 ≤ value.tmod (modulus w) + modulus w := by
      have hlow := Int.emod_nonneg value hpos.ne'
      rw [Int.tmod_eq_emod]
      split_ifs <;> omega
    have hmod : value.tmod (modulus w) = value - modulus w * value.tdiv (modulus w) := Int.tmod_def ..
    rw [Int.tmod_eq_emod_of_nonneg hlow, Int.add_emod_right, hmod, Int.sub_mul_emod_self_left]
  · have hlt : value.natAbs < 2 ^ w := Nat.size_le.mp (by omega)
    have hcast : (value.natAbs : ℤ) < modulus w := by
      rw [modulus]
      exact_mod_cast hlt
    rw [Int.emod_eq_of_lt (by omega) (by omega)]

theorem mkBitvec_denotes (value : ℤ) (h : 0 < w ∧ w < 2 ^ 32) :
    Denotes v w (mkBitvec value w) (BitVec.ofInt w value) := by
  rw [mkBitvec_eq]
  exact .const h

theorem fold_denotes {value : ℤ} (h : 0 < w ∧ w < 2 ^ 32) (hvalue : value = x.toNat) :
    Denotes v w (mkBitvec value w) x := by
  have hx : Denotes v w (mkBitvec value w) _ := mkBitvec_denotes value h
  rw [hvalue, BitVec.ofInt_natCast, BitVec.ofNat_toNat, BitVec.setWidth_eq] at hx
  rwa [hvalue]

theorem const_pair {l r : ℤ} (ha : Denotes v w a x) (hb : Denotes v w b y)
    (hl : bvConstUnsigned a w = some l) (hr : bvConstUnsigned b w = some r) :
    l = x.toNat ∧ r = y.toNat := ⟨ha.constUnsigned_eq hl, hb.constUnsigned_eq hr⟩

theorem zero_of_const (ha : Denotes v w a x) (h : bvConstUnsigned a w = some 0) : x = 0#w := by
  have := ha.constUnsigned_eq h
  apply BitVec.eq_of_toNat_eq
  rw [BitVec.toNat_zero]
  omega

theorem one_of_const (ha : Denotes v w a x) (h : bvConstUnsigned a w = some 1) : x = 1#w := by
  have := ha.constUnsigned_eq h
  have hw : 1 % 2 ^ w = 1 := Nat.mod_eq_of_lt (Nat.one_lt_two_pow ha.range.1.ne')
  apply BitVec.eq_of_toNat_eq
  rw [BitVec.toNat_ofNat, hw]
  omega

theorem ones_of_const (ha : Denotes v w a x) (h : bvConstUnsigned a w = some (allOnes w)) : x = BitVec.allOnes w := by
  have := ha.constUnsigned_eq h
  rw [allOnes_eq] at this
  apply BitVec.eq_of_toNat_eq
  omega

section

variable (m : Manager)

theorem canonicalPair_denotes {P : Term → Term → Term} {f : BitVec w → BitVec w → BitVec w}
    (hcomm : ∀ x y, f x y = f y x) (h : ∀ {a b x y}, Denotes v w a x → Denotes v w b y → Denotes v w (P a b) (f x y))
    (ha : Denotes v w a x) (hb : Denotes v w b y) :
    Denotes v w (P (canonicalPair m a b).1 (canonicalPair m a b).2) (f x y) := by
  unfold canonicalPair
  split_ifs
  · exact h ha hb
  · rw [hcomm]
    exact h hb ha

theorem mkBvAnd_denotes (ha : Denotes v w a x) (hb : Denotes v w b y) : Denotes v w (mkBvAnd m a b) (x &&& y) := by
  refine canonicalPair_denotes m (P := orderedAnd) BitVec.and_comm ?_ ha hb
  intro a b x y ha hb
  rw [orderedAnd, ha.sort.bvBinopWidth_eq]
  dsimp only
  split
  · next l r hl hr =>
    obtain ⟨rfl, rfl⟩ := const_pair ha hb hl hr
    exact fold_denotes ha.range (bvAnd_eq x y)
  · split_ifs with h₁ h₂ h₃ h₄ h₅
    · subst h₁
      rw [ha.unique hb, BitVec.and_self]
      exact hb
    · obtain rfl := zero_of_const ha h₂
      rwa [BitVec.zero_and]
    · rwa [ones_of_const ha h₃, BitVec.allOnes_and]
    · obtain rfl := zero_of_const hb h₄
      rwa [BitVec.and_zero]
    · rwa [ones_of_const hb h₅, BitVec.and_allOnes]
    · exact ha.bvOp .and hb

theorem mkBvOr_denotes (ha : Denotes v w a x) (hb : Denotes v w b y) : Denotes v w (mkBvOr m a b) (x ||| y) := by
  refine canonicalPair_denotes m (P := orderedOr) BitVec.or_comm ?_ ha hb
  intro a b x y ha hb
  rw [orderedOr, ha.sort.bvBinopWidth_eq]
  dsimp only
  split
  · next l r hl hr =>
    obtain ⟨rfl, rfl⟩ := const_pair ha hb hl hr
    exact fold_denotes ha.range (bvOr_eq x y)
  · split_ifs with h₁ h₂ h₃ h₄ h₅
    · subst h₁
      rw [ha.unique hb, BitVec.or_self]
      exact hb
    · rwa [zero_of_const ha h₂, BitVec.zero_or]
    · obtain rfl := ones_of_const ha h₃
      rwa [BitVec.allOnes_or]
    · rwa [zero_of_const hb h₄, BitVec.or_zero]
    · obtain rfl := ones_of_const hb h₅
      rwa [BitVec.or_allOnes]
    · exact ha.bvOp .or hb

theorem zero_denotes (h : 0 < w ∧ w < 2 ^ 32) : Denotes v w (mkBitvec 0 w) (0#w) := fold_denotes h (by simp)

theorem mkBvXor_denotes (ha : Denotes v w a x) (hb : Denotes v w b y) : Denotes v w (mkBvXor m a b) (x ^^^ y) := by
  refine canonicalPair_denotes m (P := orderedXor) BitVec.xor_comm ?_ ha hb
  intro a b x y ha hb
  rw [orderedXor, ha.sort.bvBinopWidth_eq]
  dsimp only
  split
  · next l r hl hr =>
    obtain ⟨rfl, rfl⟩ := const_pair ha hb hl hr
    exact fold_denotes ha.range (bvXor_eq x y)
  · split_ifs with h₁ h₂ h₃
    · subst h₁
      rw [ha.unique hb, BitVec.xor_self]
      exact zero_denotes hb.range
    · rwa [zero_of_const ha h₂, BitVec.zero_xor]
    · rwa [zero_of_const hb h₃, BitVec.xor_zero]
    · exact ha.bvOp .xor hb

theorem mkBvAdd_denotes (ha : Denotes v w a x) (hb : Denotes v w b y) : Denotes v w (mkBvAdd m a b) (x + y) := by
  refine canonicalPair_denotes m (P := orderedAdd) BitVec.add_comm ?_ ha hb
  intro a b x y ha hb
  rw [orderedAdd, ha.sort.bvBinopWidth_eq]
  dsimp only
  split
  · next l r hl hr =>
    obtain ⟨rfl, rfl⟩ := const_pair ha hb hl hr
    exact fold_denotes ha.range (bvAdd_eq x y)
  · split_ifs with h₁ h₂
    · rwa [zero_of_const ha h₁, BitVec.zero_add]
    · rwa [zero_of_const hb h₂, BitVec.add_zero]
    · exact ha.bvOp .add hb

theorem mkBvMul_denotes (ha : Denotes v w a x) (hb : Denotes v w b y) : Denotes v w (mkBvMul m a b) (x * y) := by
  refine canonicalPair_denotes m (P := orderedMul) BitVec.mul_comm ?_ ha hb
  intro a b x y ha hb
  rw [orderedMul, ha.sort.bvBinopWidth_eq]
  dsimp only
  split
  · next l r hl hr =>
    obtain ⟨rfl, rfl⟩ := const_pair ha hb hl hr
    exact fold_denotes ha.range (bvMul_eq x y)
  · split_ifs with h₁ h₂ h₃ h₄
    · obtain rfl := zero_of_const ha h₁
      rwa [BitVec.zero_mul]
    · rwa [one_of_const ha h₂, BitVec.one_mul]
    · obtain rfl := zero_of_const hb h₃
      rwa [BitVec.mul_zero]
    · rwa [one_of_const hb h₄, BitVec.mul_one]
    · exact ha.bvOp .mul hb

end

theorem bvConstPair_eq {l r : ℤ} (h : bvConstPair a b w = some (l, r)) :
    bvConstUnsigned a w = some l ∧ bvConstUnsigned b w = some r := by
  unfold bvConstPair at h
  split at h
  · next l' r' hl hr =>
    cases h
    exact ⟨hl, hr⟩
  · cases h

theorem mkBvSub_denotes (ha : Denotes v w a x) (hb : Denotes v w b y) : Denotes v w (mkBvSub a b) (x - y) := by
  rw [mkBvSub, ha.sort.bvBinopWidth_eq]
  dsimp only
  split
  · next l r h =>
    obtain ⟨hl, hr⟩ := bvConstPair_eq h
    obtain ⟨rfl, rfl⟩ := const_pair ha hb hl hr
    exact fold_denotes ha.range (bvSub_eq x y)
  · split_ifs with h₁ h₂
    · subst h₁
      rw [ha.unique hb, BitVec.sub_self]
      exact zero_denotes hb.range
    · rwa [zero_of_const hb h₂, BitVec.sub_zero]
    · exact ha.bvOp .sub hb

theorem mkBvNot_denotes (ha : Denotes v w a x) : Denotes v w (mkBvNot a) (~~~x) := by
  have hwidth : (bvWidthOf a).filter (0 < ·) = some w := by
    simp [ha.sort.bvWidthOf_eq, ha.range.1]
  unfold mkBvNot
  rw [hwidth]
  dsimp only
  cases hc : bvConstUnsigned a w with
  | some c =>
    obtain rfl := ha.constUnsigned_eq hc
    exact fold_denotes ha.range (bvNot_eq x)
  | none =>
    cases a with
    | bvNot inner =>
      cases ha.sort with
      | bvNot hi =>
        have hi' : Denotes v w inner _ := .of_sort hi
        rw [ha.unique hi'.bvNot, BitVec.not_not]
        exact hi'
    | _ => exact ha.bvNot

theorem mkBvConcat_denotes {y : BitVec n} (ha : Denotes v w a x) (hb : Denotes v n b y)
    (h : w + n < 2 ^ 32) : Denotes v (w + n) (mkBvConcat a b) (x ++ y) := by
  rw [mkBvConcat, ha.sort.bvWidthOf_eq, hb.sort.bvWidthOf_eq]
  dsimp only
  split
  · next l r hl hr =>
    obtain rfl := ha.constUnsigned_eq hl
    obtain rfl := hb.constUnsigned_eq hr
    exact fold_denotes ⟨by have := ha.range.1; omega, h⟩ (bvConcat_eq x y)
  · exact ha.bvConcat hb h

theorem mkBvExtract_denotes {high low : ℕ} (ha : Denotes v w a x) (hl : low ≤ high) (hh : high < w) :
    Denotes v (high - low + 1) (mkBvExtract high low a) (x.extractLsb high low) := by
  have hw := ha.range.2
  rw [mkBvExtract, ha.sort.bvWidthOf_eq]
  dsimp only
  split
  · next c hc =>
    obtain rfl := ha.constUnsigned_eq hc
    rw [if_pos ⟨hl, hh⟩]
    exact fold_denotes ⟨by omega, by omega⟩ (bvExtract_eq x high low)
  · exact ha.bvExtract hl hh

theorem Denotes.cast {x' : BitVec n} (ha : Denotes v w a x) (h : w = n) (hx : x'.toNat = x.toNat) :
    Denotes v n a x' := by
  subst h
  rwa [BitVec.eq_of_toNat_eq hx]

variable {k : ℕ}

theorem wiredDistance_spec {m : Manager} (hb : Denotes v w b y) (h : wiredDistance m b w = some k) :
    y.toNat = k ∧ 0 < k ∧ k < w := by
  unfold wiredDistance at h
  split_ifs at h
  split at h
  · next c hc =>
    have := hb.constUnsigned_eq hc
    split_ifs at h with hk
    simp only [Option.some.injEq] at h
    omega
  · cases h

theorem foldBvShift_value {foldConst : ℤ → ℤ → ℕ → ℤ} {f : BitVec w → BitVec w → BitVec w} {value : ℤ}
    (hfold : ∀ x y : BitVec w, foldConst x.toNat y.toNat w = (f x y).toNat)
    (hlarge : ∀ x y : BitVec w, w ≤ y.toNat → f x y = 0#w) (ha : Denotes v w a x) (hb : Denotes v w b y)
    (h : foldBvShift a b w foldConst = .value value) : value = (f x y).toNat := by
  unfold foldBvShift at h
  split at h
  · cases h
  · next amount hamount =>
    obtain rfl := hb.constUnsigned_eq hamount
    split at h
    · next c hc =>
      obtain rfl := ha.constUnsigned_eq hc
      cases h
      exact hfold x y
    · split_ifs at h with h₁ h₂
      cases h
      rw [hlarge x y (by omega)]
      simp

theorem foldBvShift_identity {foldConst : ℤ → ℤ → ℕ → ℤ} (hb : Denotes v w b y)
    (h : foldBvShift a b w foldConst = .identity) : y = 0#w := by
  unfold foldBvShift at h
  split at h
  · cases h
  · next amount hamount =>
    split at h
    · cases h
    · split_ifs at h with h₁ h₂
      exact zero_of_const hb (h₁ ▸ hamount)

theorem shl_wired (hk : k < w) (x : BitVec w) : (x <<< k).toNat = (x.extractLsb (w - k - 1) 0 ++ 0#k).toNat := by
  have hwidth : w - k - 1 - 0 + 1 = w - k := by omega
  have hsplit : 2 ^ w = 2 ^ (w - k) * 2 ^ k := by
    rw [← pow_add]
    congr 1
    omega
  rw [BitVec.toNat_shiftLeft, BitVec.toNat_append, BitVec.extractLsb_toNat, hwidth, hsplit,
    Nat.shiftLeft_eq, Nat.mul_mod_mul_right, Nat.shiftLeft_eq]
  simp

theorem lshr_wired (hk : k < w) (x : BitVec w) : (x >>> k).toNat = (0#k ++ x.extractLsb (w - 1) k).toNat := by
  have hwidth : w - 1 - k + 1 = w - k := by omega
  have hsplit : 2 ^ w = 2 ^ k * 2 ^ (w - k) := by
    rw [← pow_add]
    congr 1
    omega
  have hlt : x.toNat / 2 ^ k < 2 ^ (w - k) := Nat.div_lt_of_lt_mul (hsplit ▸ x.isLt)
  rw [BitVec.toNat_ushiftRight, BitVec.toNat_append, BitVec.extractLsb_toNat, hwidth,
    Nat.shiftRight_eq_div_pow, Nat.mod_eq_of_lt hlt]
  simp

theorem mkBvShl_denotes (m : Manager) (ha : Denotes v w a x) (hb : Denotes v w b y) :
    Denotes v w (mkBvShl m a b) (x <<< y) := by
  have hw := ha.range
  rw [mkBvShl, ha.sort.bvBinopWidth_eq]
  dsimp only
  cases hfold : foldBvShift a b w bvShl with
  | value value =>
    refine fold_denotes hw ?_
    exact foldBvShift_value (f := fun x y => x <<< y) (bvShl_eq hw.2)
      (fun x y h => BitVec.shiftLeft_eq_zero h) ha hb hfold
  | identity =>
    rw [foldBvShift_identity hb hfold, BitVec.shiftLeft_zero']
    exact ha
  | none =>
    dsimp only
    cases hk : wiredDistance m b w with
    | none => exact ha.bvOp .shl hb
    | some k =>
      obtain ⟨hy, hpos, hlt⟩ := wiredDistance_spec hb hk
      have hlow := mkBvExtract_denotes ha (Nat.zero_le (w - k - 1)) (by omega)
      have hzeros : Denotes v k (mkBitvec 0 k) (0#k) := zero_denotes ⟨hpos, by omega⟩
      refine (mkBvConcat_denotes hlow hzeros (by omega)).cast (by omega) ?_
      rw [BitVec.shiftLeft_eq', hy, shl_wired hlt]

theorem mkBvLshr_denotes (m : Manager) (ha : Denotes v w a x) (hb : Denotes v w b y) :
    Denotes v w (mkBvLshr m a b) (x >>> y) := by
  have hw := ha.range
  rw [mkBvLshr, ha.sort.bvBinopWidth_eq]
  dsimp only
  cases hfold : foldBvShift a b w bvLshr with
  | value value =>
    refine fold_denotes hw ?_
    exact foldBvShift_value (f := fun x y => x >>> y) (bvLshr_eq hw.2)
      (fun x y h => BitVec.ushiftRight_eq_zero h) ha hb hfold
  | identity =>
    rw [foldBvShift_identity hb hfold, BitVec.ushiftRight_eq', BitVec.toNat_zero, BitVec.ushiftRight_zero]
    exact ha
  | none =>
    dsimp only
    cases hk : wiredDistance m b w with
    | none => exact ha.bvOp .lshr hb
    | some k =>
      obtain ⟨hy, hpos, hlt⟩ := wiredDistance_spec hb hk
      have hhigh := mkBvExtract_denotes ha (show k ≤ w - 1 by omega) (by omega)
      have hzeros : Denotes v k (mkBitvec 0 k) (0#k) := zero_denotes ⟨hpos, by omega⟩
      refine (mkBvConcat_denotes hzeros hhigh (by omega)).cast (by omega) ?_
      rw [BitVec.ushiftRight_eq', hy, lshr_wired hlt]

end

def literalOf : Term → Option (ℤ × ℕ)
  | .bitVecConst value width => some (value, width)
  | _ => none

structure BvRewriter where
  optimizeBitblast : Bool
  simplifyExtractConcat : Bool
  constCache : Term → Option (ℤ × ℕ)
  cached : ∀ t c, constCache t = some c → literalOf t = some c

def BvRewriter.new : BvRewriter := ⟨true, true, fun _ => none, fun _ _ h => by cases h⟩

def BvRewriter.insert (r : BvRewriter) (t : Term) (c : ℤ × ℕ) (h : literalOf t = some c) : BvRewriter :=
  { r with
    constCache := fun t' => if t' = t then some c else r.constCache t'
    cached := by
      intro t' c' hc
      split_ifs at hc with ht
      · rw [ht, h, ← hc]
      · exact r.cached t' c' hc }

inductive RewriteResult
  | rewritten (t : Term)
  | unchanged (t : Term)

def RewriteResult.term : RewriteResult → Term
  | .rewritten t | .unchanged t => t

abbrev Rewriting (α : Type) : Type := StateM BvRewriter α

def getBvConst (t : Term) : Rewriting (Option (ℤ × ℕ)) := fun r =>
  match r.constCache t with
  | some c => (some c, r)
  | none =>
    match h : literalOf t with
    | some c => (some c, r.insert t c h)
    | none => (none, r)

def getWidth (t : Term) : Option ℕ := bitvecWidth t.sort

def maskBig (width : ℕ) : ℤ := if width = 0 then 0 else ((1 : ℤ) <<< width) - 1

def isZero (t : Term) : Rewriting Bool := do
  let c ← getBvConst t
  pure (c.any fun c => c.1 = 0)

def isAllOnes (t : Term) : Rewriting Bool := do
  let c ← getBvConst t
  pure (c.any fun c => c.1 = maskBig c.2)

def isOne (t : Term) : Rewriting Bool := do
  let c ← getBvConst t
  pure (c.any fun c => c.1 = 1)

def foldConsts (lhs rhs : Term) (fold : ℤ → ℤ → ℕ → ℤ) (rebuilt : Term) : Rewriting RewriteResult := do
  let l ← getBvConst lhs
  let r ← getBvConst rhs
  match l, r with
  | some (v₁, w₁), some (v₂, _) => pure (.rewritten (mkBitvec (fold v₁ v₂ w₁) w₁))
  | _, _ => pure (.unchanged rebuilt)

section

variable (m : Manager)

def rewriteBvand (lhs rhs : Term) : Rewriting RewriteResult := do
  let width := (getWidth lhs).getD 32
  if ← isZero lhs <||> isZero rhs then pure (.rewritten (mkBitvec 0 width))
  else if ← isAllOnes lhs then pure (.rewritten rhs)
  else if ← isAllOnes rhs then pure (.rewritten lhs)
  else if lhs = rhs then pure (.rewritten lhs)
  else foldConsts lhs rhs (fun v₁ v₂ _ => v₁.land v₂) (mkBvAnd m lhs rhs)

def rewriteBvor (lhs rhs : Term) : Rewriting RewriteResult := do
  let width := (getWidth lhs).getD 32
  if ← isZero lhs then pure (.rewritten rhs)
  else if ← isZero rhs then pure (.rewritten lhs)
  else if ← isAllOnes lhs <||> isAllOnes rhs then pure (.rewritten (mkBitvec (maskBig width) width))
  else if lhs = rhs then pure (.rewritten lhs)
  else foldConsts lhs rhs (fun v₁ v₂ _ => v₁.lor v₂) (mkBvOr m lhs rhs)

def rewriteBvxor (lhs rhs : Term) : Rewriting RewriteResult := do
  let width := (getWidth lhs).getD 32
  if ← isZero lhs then pure (.rewritten rhs)
  else if ← isZero rhs then pure (.rewritten lhs)
  else if lhs = rhs then pure (.rewritten (mkBitvec 0 width))
  else if ← isAllOnes lhs then pure (.rewritten (mkBvNot rhs))
  else if ← isAllOnes rhs then pure (.rewritten (mkBvNot lhs))
  else foldConsts lhs rhs (fun v₁ v₂ _ => v₁.xor v₂) (mkBvXor m lhs rhs)

def rewriteBvnot (arg : Term) : RewriteResult :=
  match arg with
  | .bitVecConst value w =>
    if value = 0 then .rewritten (mkBitvec (maskBig w) w)
    else if value = maskBig w then .rewritten (mkBitvec 0 w)
    else .rewritten (mkBitvec (value.lnot.land (maskBig w)) w)
  | .bvNot inner => .rewritten inner
  | _ => .unchanged (mkBvNot arg)

def rewriteBvadd (lhs rhs : Term) : Rewriting RewriteResult := do
  if ← isZero lhs then pure (.rewritten rhs)
  else if ← isZero rhs then pure (.rewritten lhs)
  else foldConsts lhs rhs (fun v₁ v₂ w₁ => (v₁ + v₂).land (maskBig w₁)) (mkBvAdd m lhs rhs)

def rewriteBvsub (lhs rhs : Term) : Rewriting RewriteResult := do
  let width := (getWidth lhs).getD 32
  if ← isZero rhs then pure (.rewritten lhs)
  else if lhs = rhs then pure (.rewritten (mkBitvec 0 width))
  else foldConsts lhs rhs (fun v₁ v₂ w₁ => (v₁ - v₂ + maskBig w₁ + 1).land (maskBig w₁)) (mkBvSub lhs rhs)

def rewriteBvmul (lhs rhs : Term) : Rewriting RewriteResult := do
  let width := (getWidth lhs).getD 32
  if ← isZero lhs <||> isZero rhs then pure (.rewritten (mkBitvec 0 width))
  else if ← isOne lhs then pure (.rewritten rhs)
  else if ← isOne rhs then pure (.rewritten lhs)
  else foldConsts lhs rhs (fun v₁ v₂ w₁ => (v₁ * v₂).land (maskBig w₁)) (mkBvMul m lhs rhs)

def shiftOf (amount : ℤ) (width : ℕ) : ℕ :=
  if 0 ≤ amount ∧ amount < 2 ^ 64 then
    if amount.toNat < 2 ^ 32 then amount.toNat else width
  else width

def rewriteBvshl (lhs rhs : Term) : Rewriting RewriteResult := do
  let width := (getWidth lhs).getD 32
  if ← isZero lhs then pure (.rewritten (mkBitvec 0 width))
  else if ← isZero rhs then pure (.rewritten lhs)
  else
    foldConsts lhs rhs
      (fun v₁ v₂ w₁ =>
        let shift := shiftOf v₂ w₁
        if w₁ ≤ shift then 0 else (v₁ <<< shift).land (maskBig w₁))
      (mkBvShl m lhs rhs)

def rewriteBvlshr (lhs rhs : Term) : Rewriting RewriteResult := do
  let width := (getWidth lhs).getD 32
  if ← isZero lhs then pure (.rewritten (mkBitvec 0 width))
  else if ← isZero rhs then pure (.rewritten lhs)
  else
    foldConsts lhs rhs
      (fun v₁ v₂ w₁ =>
        let shift := shiftOf v₂ w₁
        if w₁ ≤ shift then 0 else v₁ >>> shift)
      (mkBvLshr m lhs rhs)

def rewriteBveq (lhs rhs : Term) : Rewriting RewriteResult := do
  if lhs = rhs then pure (.rewritten .true)
  else
    let l ← getBvConst lhs
    let r ← getBvConst rhs
    match l, r with
    | some (v₁, _), some (v₂, _) => pure (.rewritten (if v₁ = v₂ then .true else .false))
    | _, _ => pure (.unchanged (mkEq m lhs rhs))

def extractConcat (simplify : Bool) (lhsPart rhsPart : Term) (high low : ℕ) : RewriteResult :=
  match getWidth lhsPart, getWidth rhsPart with
  | some _, some rw =>
    if !simplify then .unchanged (mkBvExtract high low (.bvConcat lhsPart rhsPart))
    else if high < rw then .rewritten (mkBvExtract high low rhsPart)
    else if rw ≤ low then .rewritten (mkBvExtract (high - rw) (low - rw) lhsPart)
    else .unchanged (mkBvExtract high low (.bvConcat lhsPart rhsPart))
  | _, _ => .unchanged (mkBvExtract high low (.bvConcat lhsPart rhsPart))

def rewriteExtract (arg : Term) (high low : ℕ) : Rewriting RewriteResult := do
  let r ← get
  match arg with
  | .bitVecConst value _ =>
    let width := high - low + 1
    pure (.rewritten (mkBitvec ((value >>> low).land (maskBig width)) width))
  | .bvConcat lhsPart rhsPart => pure (extractConcat r.simplifyExtractConcat lhsPart rhsPart high low)
  | _ => pure (.unchanged (mkBvExtract high low arg))

def isBvTerm (t : Term) : Bool := (getWidth t).isSome

def rewrite (t : Term) : Rewriting RewriteResult :=
  match t with
  | .bvOp .and lhs rhs => rewriteBvand m lhs rhs
  | .bvOp .or lhs rhs => rewriteBvor m lhs rhs
  | .bvOp .xor lhs rhs => rewriteBvxor m lhs rhs
  | .bvNot arg => pure (rewriteBvnot arg)
  | .bvOp .add lhs rhs => rewriteBvadd m lhs rhs
  | .bvOp .sub lhs rhs => rewriteBvsub lhs rhs
  | .bvOp .mul lhs rhs => rewriteBvmul m lhs rhs
  | .bvOp .shl lhs rhs => rewriteBvshl m lhs rhs
  | .bvOp .lshr lhs rhs => rewriteBvlshr m lhs rhs
  | .bvExtract high low arg => rewriteExtract arg high low
  | .eq lhs rhs => if isBvTerm lhs || isBvTerm rhs then rewriteBveq m lhs rhs else pure (.unchanged t)
  | _ => pure (.unchanged t)

end

section

variable {α β : Type}

def Ensures (step : Rewriting α) (P : α → Prop) : Prop := ∀ r, P (step r).1

def Yields (step : Rewriting α) (a : α) : Prop := Ensures step (· = a)

theorem Ensures.pure {P : α → Prop} {a : α} (h : P a) : Ensures (Pure.pure a) P := fun _ => h

variable {P : β → Prop}

theorem Yields.bind {step : Rewriting α} {next : α → Rewriting β} {a : α} (h : Yields step a)
    (hnext : Ensures (next a) P) : Ensures (step >>= next) P := by
  intro r
  have heq : (step r).1 = a := h r
  change P (next (step r).1 (step r).2).1
  rw [heq]
  exact hnext _

theorem Ensures.ite {c : Prop} [Decidable c] {yes no : Rewriting β} (hyes : c → Ensures yes P)
    (hno : ¬ c → Ensures no P) : Ensures (if c then yes else no) P := by
  split
  · next h => exact hyes h
  · next h => exact hno h

theorem Yields.ite {step : Rewriting Bool} {b : Bool} {yes no : Rewriting β} (h : Yields step b)
    (hyes : b = true → Ensures yes P) (hno : ¬ b = true → Ensures no P) :
    Ensures (step >>= fun c => if c then yes else no) P :=
  h.bind (.ite hyes hno)

theorem Yields.or {step next : Rewriting Bool} {a b : Bool} (h : Yields step a) (hnext : Yields next b) :
    Yields (step <||> next) (a || b) := by
  refine h.bind ?_
  cases a with
  | false => exact hnext
  | true => exact fun _ => rfl

theorem getBvConst_yields (t : Term) : Yields (getBvConst t) (literalOf t) := by
  intro r
  unfold getBvConst
  split
  · next c hc => exact (r.cached t c hc).symm
  · split
    · next c hc => exact hc.symm
    · next hc => exact hc.symm

theorem isZero_yields (t : Term) : Yields (isZero t) ((literalOf t).any fun c => c.1 = 0) :=
  (getBvConst_yields t).bind (.pure rfl)

theorem isAllOnes_yields (t : Term) : Yields (isAllOnes t) ((literalOf t).any fun c => c.1 = maskBig c.2) :=
  (getBvConst_yields t).bind (.pure rfl)

theorem isOne_yields (t : Term) : Yields (isOne t) ((literalOf t).any fun c => c.1 = 1) :=
  (getBvConst_yields t).bind (.pure rfl)

end

section

variable {D : Type*} [DecidableEq D] {v : Valuation D} {w n : ℕ} {a b t : Term} {x y : BitVec w}

theorem maskBig_eq (w : ℕ) : maskBig w = (BitVec.allOnes w).toNat := by
  have hmask : maskBig w = allOnes w := by
    unfold maskBig allOnes modulus
    split_ifs with h
    · simp [h]
    · rw [Int.shiftLeft_eq]
      simp
  rw [hmask, allOnes_eq]

theorem land_maskBig (k w : ℕ) : (k : ℤ).land (maskBig w) = (k % 2 ^ w : ℕ) := by
  rw [maskBig_eq, BitVec.toNat_allOnes, ← Nat.and_two_pow_sub_one_eq_mod]
  rfl

theorem lnot_land_maskBig (x : BitVec w) : (x.toNat : ℤ).lnot.land (maskBig w) = (~~~x).toNat := by
  have hldiff : (x.toNat : ℤ).lnot.land (maskBig w) = (Nat.ldiff (2 ^ w - 1) x.toNat : ℕ) := by
    rw [maskBig_eq, BitVec.toNat_allOnes]
    rfl
  rw [hldiff]
  congr 1
  apply Nat.eq_of_testBit_eq
  intro i
  rw [Nat.testBit_ldiff, Nat.testBit_two_pow_sub_one, BitVec.testBit_toNat, BitVec.testBit_toNat]
  simp

theorem Denotes.literal_eq {c : ℤ × ℕ} (ha : Denotes v w a x) (hc : literalOf a = some c) : c = (↑x.toNat, w) := by
  cases a <;> simp only [literalOf, reduceCtorEq, Option.some.injEq] at hc
  obtain ⟨rfl, rfl⟩ := ha.const_eq
  exact hc.symm

theorem Denotes.of_any {P : ℤ × ℕ → Bool} (ha : Denotes v w a x) (h : (literalOf a).any P = true) :
    P (↑x.toNat, w) = true := by
  cases hc : literalOf a with
  | none => simp [hc] at h
  | some c =>
    rw [hc, ha.literal_eq hc] at h
    exact h

section

variable (ha : Denotes v w a x)
include ha

theorem Denotes.zero (h : ((literalOf a).any fun c => c.1 = 0) = true) : x = 0#w := by
  have := ha.of_any h
  apply BitVec.eq_of_toNat_eq
  simpa using this

theorem Denotes.one (h : ((literalOf a).any fun c => c.1 = 1) = true) : x = 1#w := by
  have := ha.of_any h
  have hw : 1 % 2 ^ w = 1 := Nat.mod_eq_of_lt (Nat.one_lt_two_pow ha.range.1.ne')
  apply BitVec.eq_of_toNat_eq
  rw [BitVec.toNat_ofNat, hw]
  simpa using this

theorem Denotes.ones (h : ((literalOf a).any fun c => c.1 = maskBig c.2) = true) : x = BitVec.allOnes w := by
  have hx : (x.toNat : ℤ) = maskBig w := by simpa using ha.of_any h
  rw [maskBig_eq] at hx
  apply BitVec.eq_of_toNat_eq
  exact_mod_cast hx

theorem Denotes.width_getD : (getWidth a).getD 32 = w := by
  have : getWidth a = some w := ha.sort.bvWidthOf_eq
  rw [this]
  rfl

end

theorem foldConsts_ensures {fold : ℤ → ℤ → ℕ → ℤ} {rebuilt : Term} {z : BitVec w} (ha : Denotes v w a x)
    (hb : Denotes v w b y) (hfold : fold x.toNat y.toNat w = z.toNat) (hrebuilt : Denotes v w rebuilt z) :
    Ensures (foldConsts a b fold rebuilt) fun r => Denotes v w r.term z := by
  refine (getBvConst_yields a).bind ((getBvConst_yields b).bind ?_)
  split
  · next v₁ w₁ v₂ w₂ hl hr =>
    obtain ⟨rfl, rfl⟩ := Prod.mk.inj (ha.literal_eq hl)
    obtain ⟨rfl, -⟩ := Prod.mk.inj (hb.literal_eq hr)
    exact .pure (fold_denotes ha.range hfold)
  · exact .pure hrebuilt

variable (m : Manager)

theorem rewriteBvand_ensures (ha : Denotes v w a x) (hb : Denotes v w b y) :
    Ensures (rewriteBvand m a b) fun r => Denotes v w r.term (x &&& y) := by
  unfold rewriteBvand
  rw [ha.width_getD]
  refine ((isZero_yields a).or (isZero_yields b)).ite ?zero fun _ =>
    (isAllOnes_yields a).ite ?left fun _ => (isAllOnes_yields b).ite ?right fun _ =>
      .ite ?same fun _ => foldConsts_ensures ha hb (bvAnd_eq x y) (mkBvAnd_denotes m ha hb)
  case zero =>
    intro h
    have hzero : x &&& y = 0#w := by
      obtain h | h := (Bool.or_eq_true _ _).mp h
      · rw [ha.zero h, BitVec.zero_and]
      · rw [hb.zero h, BitVec.and_zero]
    rw [hzero]
    exact .pure (zero_denotes ha.range)
  case left =>
    intro h
    rw [ha.ones h, BitVec.allOnes_and]
    exact .pure hb
  case right =>
    intro h
    rw [hb.ones h, BitVec.and_allOnes]
    exact .pure ha
  case same =>
    rintro rfl
    rw [ha.unique hb, BitVec.and_self]
    exact .pure hb

theorem ones_denotes (h : 0 < w ∧ w < 2 ^ 32) :
    Denotes v w (mkBitvec (maskBig w) w) (BitVec.allOnes w) := fold_denotes h (maskBig_eq w)

section

variable (ha : Denotes v w a x)
include ha

theorem rewriteBvor_ensures (hb : Denotes v w b y) :
    Ensures (rewriteBvor m a b) fun r => Denotes v w r.term (x ||| y) := by
  unfold rewriteBvor
  rw [ha.width_getD]
  refine (isZero_yields a).ite ?left fun _ => (isZero_yields b).ite ?right fun _ =>
    ((isAllOnes_yields a).or (isAllOnes_yields b)).ite ?ones fun _ =>
      .ite ?same fun _ => foldConsts_ensures ha hb (bvOr_eq x y) (mkBvOr_denotes m ha hb)
  case left =>
    intro h
    rw [ha.zero h, BitVec.zero_or]
    exact .pure hb
  case right =>
    intro h
    rw [hb.zero h, BitVec.or_zero]
    exact .pure ha
  case ones =>
    intro h
    have hones : x ||| y = BitVec.allOnes w := by
      obtain h | h := (Bool.or_eq_true _ _).mp h
      · rw [ha.ones h, BitVec.allOnes_or]
      · rw [hb.ones h, BitVec.or_allOnes]
    rw [hones]
    exact .pure (ones_denotes ha.range)
  case same =>
    rintro rfl
    rw [ha.unique hb, BitVec.or_self]
    exact .pure hb

theorem rewriteBvxor_ensures (hb : Denotes v w b y) :
    Ensures (rewriteBvxor m a b) fun r => Denotes v w r.term (x ^^^ y) := by
  unfold rewriteBvxor
  rw [ha.width_getD]
  refine (isZero_yields a).ite ?left fun _ => (isZero_yields b).ite ?right fun _ => .ite ?same fun _ =>
    (isAllOnes_yields a).ite ?flipRight fun _ => (isAllOnes_yields b).ite ?flipLeft fun _ =>
      foldConsts_ensures ha hb (bvXor_eq x y) (mkBvXor_denotes m ha hb)
  case left =>
    intro h
    rw [ha.zero h, BitVec.zero_xor]
    exact .pure hb
  case right =>
    intro h
    rw [hb.zero h, BitVec.xor_zero]
    exact .pure ha
  case same =>
    rintro rfl
    rw [ha.unique hb, BitVec.xor_self]
    exact .pure (zero_denotes hb.range)
  case flipRight =>
    intro h
    rw [ha.ones h, BitVec.allOnes_xor]
    exact .pure (mkBvNot_denotes hb)
  case flipLeft =>
    intro h
    rw [hb.ones h, BitVec.xor_allOnes]
    exact .pure (mkBvNot_denotes ha)

theorem rewriteBvnot_denotes : Denotes v w (rewriteBvnot a).term (~~~x) := by
  cases a with
  | bitVecConst value width =>
    obtain ⟨rfl, rfl⟩ := ha.const_eq
    simp only [rewriteBvnot]
    split_ifs with hzero hones
    · have hx : x = 0#_ := BitVec.eq_of_toNat_eq (by simpa using hzero)
      rw [hx, BitVec.not_zero]
      exact ones_denotes ha.range
    · have hx : x = BitVec.allOnes width := by
        rw [maskBig_eq] at hones
        exact BitVec.eq_of_toNat_eq (by exact_mod_cast hones)
      rw [hx, BitVec.not_allOnes]
      exact zero_denotes ha.range
    · exact fold_denotes ha.range (lnot_land_maskBig x)
  | bvNot inner =>
    cases ha.sort with
    | bvNot hi =>
      have hi' : Denotes v w inner _ := .of_sort hi
      rw [ha.unique hi'.bvNot, BitVec.not_not]
      exact hi'
  | _ => exact mkBvNot_denotes ha

theorem rewriteBvadd_ensures (hb : Denotes v w b y) :
    Ensures (rewriteBvadd m a b) fun r => Denotes v w r.term (x + y) := by
  unfold rewriteBvadd
  refine (isZero_yields a).ite ?left fun _ => (isZero_yields b).ite ?right fun _ =>
    foldConsts_ensures ha hb ?fold (mkBvAdd_denotes m ha hb)
  case left =>
    intro h
    rw [ha.zero h, BitVec.zero_add]
    exact .pure hb
  case right =>
    intro h
    rw [hb.zero h, BitVec.add_zero]
    exact .pure ha
  case fold =>
    rw [BitVec.toNat_add]
    exact land_maskBig (x.toNat + y.toNat) w

theorem rewriteBvsub_ensures (hb : Denotes v w b y) :
    Ensures (rewriteBvsub a b) fun r => Denotes v w r.term (x - y) := by
  unfold rewriteBvsub
  rw [ha.width_getD]
  refine (isZero_yields b).ite ?right fun _ => .ite ?same fun _ =>
    foldConsts_ensures ha hb ?fold (mkBvSub_denotes ha hb)
  case right =>
    intro h
    rw [hb.zero h, BitVec.sub_zero]
    exact .pure ha
  case same =>
    rintro rfl
    rw [ha.unique hb, BitVec.sub_self]
    exact .pure (zero_denotes hb.range)
  case fold =>
    have hy := y.isLt
    have hsum : (x.toNat : ℤ) - y.toNat + maskBig w + 1 = ((2 ^ w - y.toNat + x.toNat : ℕ) : ℤ) := by
      rw [maskBig_eq, BitVec.toNat_allOnes]
      omega
    rw [BitVec.toNat_sub, hsum]
    exact land_maskBig _ w

theorem rewriteBvmul_ensures (hb : Denotes v w b y) :
    Ensures (rewriteBvmul m a b) fun r => Denotes v w r.term (x * y) := by
  unfold rewriteBvmul
  rw [ha.width_getD]
  refine ((isZero_yields a).or (isZero_yields b)).ite ?zero fun _ => (isOne_yields a).ite ?left fun _ =>
    (isOne_yields b).ite ?right fun _ => foldConsts_ensures ha hb ?fold (mkBvMul_denotes m ha hb)
  case zero =>
    intro h
    have hzero : x * y = 0#w := by
      obtain h | h := (Bool.or_eq_true _ _).mp h
      · rw [ha.zero h, BitVec.zero_mul]
      · rw [hb.zero h, BitVec.mul_zero]
    rw [hzero]
    exact .pure (zero_denotes ha.range)
  case left =>
    intro h
    rw [ha.one h, BitVec.one_mul]
    exact .pure hb
  case right =>
    intro h
    rw [hb.one h, BitVec.mul_one]
    exact .pure ha
  case fold =>
    rw [BitVec.toNat_mul]
    exact land_maskBig (x.toNat * y.toNat) w

end

theorem shiftOf_eq (hw : w < 2 ^ 32) (y : BitVec w) :
    (w ≤ shiftOf y.toNat w ↔ w ≤ y.toNat) ∧ (¬ w ≤ y.toNat → shiftOf y.toNat w = y.toNat) := by
  unfold shiftOf
  split_ifs <;> omega

theorem rewriteBvshl_ensures (ha : Denotes v w a x) (hb : Denotes v w b y) :
    Ensures (rewriteBvshl m a b) fun r => Denotes v w r.term (x <<< y) := by
  unfold rewriteBvshl
  rw [ha.width_getD]
  refine (isZero_yields a).ite ?left fun _ => (isZero_yields b).ite ?right fun _ =>
    foldConsts_ensures ha hb ?fold (mkBvShl_denotes m ha hb)
  case left =>
    intro h
    rw [ha.zero h, BitVec.shiftLeft_eq', BitVec.zero_shiftLeft]
    exact .pure (zero_denotes ha.range)
  case right =>
    intro h
    rw [hb.zero h, BitVec.shiftLeft_zero']
    exact .pure ha
  case fold =>
    obtain ⟨hle, hlt⟩ := shiftOf_eq ha.range.2 y
    dsimp only
    rw [BitVec.shiftLeft_eq']
    split_ifs with h
    · rw [BitVec.shiftLeft_eq_zero (hle.mp h)]
      simp
    · rw [hlt (mt hle.mpr h), BitVec.toNat_shiftLeft]
      exact land_maskBig (x.toNat <<< y.toNat) w

theorem rewriteBvlshr_ensures (ha : Denotes v w a x) (hb : Denotes v w b y) :
    Ensures (rewriteBvlshr m a b) fun r => Denotes v w r.term (x >>> y) := by
  unfold rewriteBvlshr
  rw [ha.width_getD]
  refine (isZero_yields a).ite ?left fun _ => (isZero_yields b).ite ?right fun _ =>
    foldConsts_ensures ha hb ?fold (mkBvLshr_denotes m ha hb)
  case left =>
    intro h
    rw [ha.zero h, BitVec.ushiftRight_eq', BitVec.zero_ushiftRight]
    exact .pure (zero_denotes ha.range)
  case right =>
    intro h
    rw [hb.zero h, BitVec.ushiftRight_eq', BitVec.toNat_zero, BitVec.ushiftRight_zero]
    exact .pure ha
  case fold =>
    obtain ⟨hle, hlt⟩ := shiftOf_eq ha.range.2 y
    dsimp only
    rw [BitVec.ushiftRight_eq']
    split_ifs with h
    · rw [BitVec.ushiftRight_eq_zero (hle.mp h)]
      simp
    · rw [hlt (mt hle.mpr h)]
      rfl

theorem extract_low {m high low : ℕ} (x : BitVec w) (y : BitVec m) (hl : low ≤ high) (h : high < m) :
    (x ++ y).extractLsb high low = y.extractLsb high low := by
  apply BitVec.eq_of_toNat_eq
  rw [BitVec.extractLsb_toNat, BitVec.extractLsb_toNat]
  apply Nat.eq_of_testBit_eq
  intro i
  simp only [Nat.testBit_mod_two_pow, Nat.testBit_shiftRight, BitVec.toNat_append, Nat.testBit_or,
    Nat.testBit_shiftLeft]
  by_cases hi : i < high - low + 1
  · have him : ¬ low + i ≥ m := by omega
    simp [him]
  · simp [hi]

theorem extract_high {m high low : ℕ} (x : BitVec w) (y : BitVec m) (hl : low ≤ high) (h : m ≤ low) :
    ((x ++ y).extractLsb high low).toNat = (x.extractLsb (high - m) (low - m)).toNat := by
  have hwidth : high - m - (low - m) + 1 = high - low + 1 := by omega
  rw [BitVec.extractLsb_toNat, BitVec.extractLsb_toNat, hwidth]
  apply Nat.eq_of_testBit_eq
  intro i
  simp only [Nat.testBit_mod_two_pow, Nat.testBit_shiftRight, BitVec.toNat_append, Nat.testBit_or,
    Nat.testBit_shiftLeft]
  have hlow : y.toNat.testBit (low + i) = false := by
    apply Nat.testBit_lt_two_pow
    exact lt_of_lt_of_le y.isLt (Nat.pow_le_pow_right (by omega) (by omega))
  have hge : low + i ≥ m := by omega
  have hindex : low + i - m = low - m + i := by omega
  simp [hlow, hge, hindex]

theorem extractConcat_denotes {k high low : ℕ} {x : BitVec n} {y : BitVec k} (simplify : Bool) (ha : Denotes v n a x)
    (hb : Denotes v k b y) (h : n + k < 2 ^ 32) (hl : low ≤ high) (hh : high < n + k) : Denotes v (high - low + 1)
    (extractConcat simplify a b high low).term ((x ++ y).extractLsb high low) := by
  have hkept := mkBvExtract_denotes (ha.bvConcat hb h) hl hh
  have hwa : getWidth a = some n := ha.sort.bvWidthOf_eq
  have hwb : getWidth b = some k := hb.sort.bvWidthOf_eq
  rw [extractConcat, hwa, hwb]
  dsimp only
  split_ifs with hs h₁ h₂
  · exact hkept
  · rw [extract_low x y hl h₁]
    exact mkBvExtract_denotes hb hl h₁
  · have hpart := mkBvExtract_denotes ha (show low - k ≤ high - k by omega) (by omega)
    exact hpart.cast (by omega) (extract_high x y hl h₂)
  · exact hkept

theorem rewriteExtract_ensures {high low : ℕ} (ha : Denotes v w a x) (hl : low ≤ high) (hh : high < w) : Ensures
    (rewriteExtract a high low) fun r => Denotes v (high - low + 1) r.term (x.extractLsb high low) := by
  have hrange := ha.range
  cases a with
  | bitVecConst value width =>
    obtain ⟨rfl, rfl⟩ := ha.const_eq
    refine .pure (fold_denotes ⟨by omega, by omega⟩ ?_)
    rw [BitVec.extractLsb_toNat]
    exact land_maskBig (x.toNat >>> low) (high - low + 1)
  | bvConcat p q =>
    cases ha.sort with
    | bvConcat hp hq hpq =>
      have hpq' := (Denotes.of_sort (v := v) hp).bvConcat (Denotes.of_sort (v := v) hq) hpq
      obtain rfl := ha.unique hpq'
      exact fun r => extractConcat_denotes r.simplifyExtractConcat (.of_sort hp) (.of_sort hq) hpq hl hh
  | _ => exact .pure (mkBvExtract_denotes ha hl hh)

theorem eval_eq_node (ha : Denotes v w a x) (hb : Denotes v w b y) :
    HasSort (.eq a b) .bool ∧ eval v (.eq a b) = .bool (x = y) := by
  refine ⟨.eq ha.sort hb.sort rfl, ?_⟩
  simp [eval, ha.eval_eq, hb.eval_eq, BitVec.toNat_eq]

theorem mkEq_spec (ha : Denotes v w a x) (hb : Denotes v w b y) :
    HasSort (mkEq m a b) .bool ∧ eval v (mkEq m a b) = .bool (x = y) := by
  unfold mkEq
  split_ifs with hab
  · subst hab
    exact ⟨.true, by simp [eval, ha.unique hb]⟩
  split
  · next v₁ w₁ v₂ w₂ =>
    obtain ⟨rfl, rfl⟩ := ha.const_eq
    obtain ⟨rfl, rfl⟩ := hb.const_eq
    unfold mkBool
    by_cases h : x = y
    · simpa [h, eval] using HasSort.true
    · simpa [h, eval, ← BitVec.toNat_eq] using HasSort.false
  · unfold canonicalPair
    split_ifs with h
    · exact eval_eq_node ha hb
    · have hflip := eval_eq_node hb ha
      simpa [eq_comm] using hflip

theorem rewriteBveq_ensures (ha : Denotes v w a x) (hb : Denotes v w b y) :
    Ensures (rewriteBveq m a b) fun r => HasSort r.term .bool ∧ eval v r.term = .bool (x = y) := by
  unfold rewriteBveq
  refine .ite ?same fun hne => (getBvConst_yields a).bind ((getBvConst_yields b).bind ?_)
  case same =>
    rintro rfl
    refine .pure ⟨.true, ?_⟩
    simp [RewriteResult.term, eval, ha.unique hb]
  split
  · next v₁ w₁ v₂ w₂ hl hr =>
    obtain ⟨rfl, -⟩ := Prod.mk.inj (ha.literal_eq hl)
    obtain ⟨rfl, -⟩ := Prod.mk.inj (hb.literal_eq hr)
    refine .pure ?_
    simp only [RewriteResult.term, Nat.cast_inj, ← BitVec.toNat_eq]
    split_ifs with h
    · exact ⟨.true, by simp [eval, h]⟩
    · exact ⟨.false, by simp [eval, h]⟩
  · exact .pure (mkEq_spec m ha hb)

def Keeps (v : Valuation D) (t : Term) (s : SortId) (r : RewriteResult) : Prop :=
  HasSort r.term s ∧ eval v r.term = eval v t

theorem Denotes.keeps {r : RewriteResult} (ht : Denotes v w t x) (hr : Denotes v w r.term x) :
    Keeps v t (.bitVec w) r := ⟨hr.sort, by rw [hr.eval_eq, ht.eval_eq]⟩

theorem Ensures.mono {α : Type} {step : Rewriting α} {P Q : α → Prop} (h : Ensures step P)
    (hPQ : ∀ a, P a → Q a) : Ensures step Q := fun r => hPQ _ (h r)

theorem rewriteOp_ensures (op : BvOp) (ha : Denotes v w a x) (hb : Denotes v w b y) :
    Ensures (rewrite m (.bvOp op a b)) fun r => Denotes v w r.term (op.apply x y) := by
  cases op with
  | and => exact rewriteBvand_ensures m ha hb
  | or => exact rewriteBvor_ensures m ha hb
  | xor => exact rewriteBvxor_ensures m ha hb
  | add => exact rewriteBvadd_ensures m ha hb
  | sub => exact rewriteBvsub_ensures ha hb
  | mul => exact rewriteBvmul_ensures m ha hb
  | shl => exact rewriteBvshl_ensures m ha hb
  | lshr => exact rewriteBvlshr_ensures m ha hb
  | _ => exact .pure (ha.bvOp _ hb)

theorem isBvTerm_eq {s : SortId} (h : HasSort t s) : isBvTerm t = (bitvecWidth s).isSome := by
  rw [isBvTerm, getWidth, h.sort_eq]

theorem rewrite_keeps {s : SortId} (h : HasSort t s) : Ensures (rewrite m t) (Keeps v t s) := by
  have hkept : Keeps v t s (.unchanged t) := ⟨h, rfl⟩
  cases h with
  | @bvOp op a b w ha hb =>
    have ha' : Denotes v w a _ := .of_sort ha
    have hb' : Denotes v w b _ := .of_sort hb
    exact (rewriteOp_ensures m op ha' hb').mono fun r hr => (ha'.bvOp op hb').keeps hr
  | bvNot ha =>
    exact .pure ((Denotes.of_sort ha).bvNot.keeps (rewriteBvnot_denotes (.of_sort ha)))
  | bvExtract ha hl hh =>
    have ha' := Denotes.of_sort (v := v) ha
    exact (rewriteExtract_ensures ha' hl hh).mono fun r hr => (ha'.bvExtract hl hh).keeps hr
  | @eq a b s s' ha hb hs =>
    simp only [rewrite, isBvTerm_eq ha, isBvTerm_eq hb, ← hs, Bool.or_self]
    cases s with
    | bitVec w =>
      cases s' with
      | bitVec w' =>
        obtain rfl : w = w' := by simpa [bitvecWidth] using hs
        have ha' : Denotes v w a _ := .of_sort ha
        have hb' : Denotes v w b _ := .of_sort hb
        refine (rewriteBveq_ensures m ha' hb').mono fun r hr => ⟨hr.1, ?_⟩
        rw [hr.2, (eval_eq_node ha' hb').2]
      | _ => simp [bitvecWidth] at hs
    | _ => exact .pure hkept
  | _ => exact .pure hkept

end

section

def IsValue (w : ℕ) (a : ℤ) : Prop := 0 ≤ a ∧ a < 2 ^ w

/-- The result of an operation: a value of width `w`, the number of the bit sequence `x`. -/
def Computes (w : ℕ) (result : ℤ) (x : BitVec w) : Prop := IsValue w result ∧ result = x.toNat

def BvOp.fold : BvOp → ℤ → ℤ → ℕ → ℤ
  | .and => bvAnd
  | .or => bvOr
  | .xor => bvXor
  | .add => bvAdd
  | .sub => bvSub
  | .mul => bvMul
  | .shl => bvShl
  | .lshr => bvLshr
  | .ashr => bvAshr
  | .udiv => bvUdiv
  | .urem => bvUrem
  | .sdiv => bvSdiv
  | .srem => bvSrem

/-- Every operation of `bv_fold` on values of width `w` is the operator of the standard. -/
structure Standard (w : ℕ) : Prop where
  op : ∀ (op : BvOp) (a b : ℤ), IsValue w a → IsValue w b →
    Computes w (op.fold a b w) (op.apply (BitVec.ofInt w a) (BitVec.ofInt w b))
  smod : ∀ a b : ℤ, IsValue w a → IsValue w b →
    Computes w (bvSmod a b w) ((BitVec.ofInt w a).smod (BitVec.ofInt w b))
  not : ∀ a : ℤ, IsValue w a → Computes w (bvNot a w) (~~~BitVec.ofInt w a)
  concat : ∀ (n : ℕ) (a b : ℤ), IsValue w a → IsValue n b →
    Computes (w + n) (bvConcat a b n) (BitVec.ofInt w a ++ BitVec.ofInt n b)
  extract : ∀ (a : ℤ) (high low : ℕ), IsValue w a → low ≤ high → high < w →
    Computes (high - low + 1) (bvExtract a high low) ((BitVec.ofInt w a).extractLsb high low)

variable {w : ℕ}

theorem IsValue.exists_bits {a : ℤ} (ha : IsValue w a) : ∃ x : BitVec w, a = x.toNat ∧ BitVec.ofInt w a = x := by
  obtain ⟨k, rfl⟩ := Int.eq_ofNat_of_zero_le ha.1
  have hk : k < 2 ^ w := by exact_mod_cast ha.2
  exact ⟨BitVec.ofNat w k, by rw [BitVec.toNat_ofNat, Nat.mod_eq_of_lt hk], BitVec.ofInt_natCast w k⟩

theorem Computes.of_eq {result : ℤ} {x : BitVec w} (h : result = x.toNat) : Computes w result x := by
  refine ⟨⟨by omega, ?_⟩, h⟩
  rw [h]
  exact_mod_cast x.isLt

theorem fold_eq (hw : w < 2 ^ 32) (op : BvOp) (x y : BitVec w) : op.fold x.toNat y.toNat w = (op.apply x y).toNat := by
  cases op with
  | and => exact bvAnd_eq x y
  | or => exact bvOr_eq x y
  | xor => exact bvXor_eq x y
  | add => exact bvAdd_eq x y
  | sub => exact bvSub_eq x y
  | mul => exact bvMul_eq x y
  | shl => exact bvShl_eq hw x y
  | lshr => exact bvLshr_eq hw x y
  | ashr => exact bvAshr_eq hw x y
  | udiv => exact bvUdiv_eq x y
  | urem => exact bvUrem_eq x y
  | sdiv => exact bvSdiv_eq x y
  | srem => exact bvSrem_eq x y

theorem standard (hw : w < 2 ^ 32) : Standard w where
  op op a b ha hb := by
    obtain ⟨x, rfl, hx⟩ := ha.exists_bits
    obtain ⟨y, rfl, hy⟩ := hb.exists_bits
    rw [hx, hy]
    exact .of_eq (fold_eq hw op x y)
  smod a b ha hb := by
    obtain ⟨x, rfl, hx⟩ := ha.exists_bits
    obtain ⟨y, rfl, hy⟩ := hb.exists_bits
    rw [hx, hy]
    exact .of_eq (bvSmod_eq x y)
  not a ha := by
    obtain ⟨x, rfl, hx⟩ := ha.exists_bits
    rw [hx]
    exact .of_eq (bvNot_eq x)
  concat n a b ha hb := by
    obtain ⟨x, rfl, hx⟩ := ha.exists_bits
    obtain ⟨y, rfl, hy⟩ := hb.exists_bits
    rw [hx, hy]
    exact .of_eq (bvConcat_eq x y)
  extract a high low ha hl hh := by
    obtain ⟨x, rfl, hx⟩ := ha.exists_bits
    rw [hx]
    exact .of_eq (bvExtract_eq x high low)

/-- Folding computes the standard's operators, and a rewriting step of any well-sorted term, from any
rewriter, keeps its sort and value. -/
theorem fold_standard_rewrite_keeps {D : Type*} [DecidableEq D] (w : ℕ) (hw : 0 < w ∧ w < 2 ^ 32)
    (m : Manager) (r : BvRewriter) (v : Valuation D) (t : Term) (s : SortId) (ht : HasSort t s) :
    Standard w ∧ Keeps v t s (rewrite m t r).1 :=
  ⟨standard hw.2, rewrite_keeps m ht r⟩

def zeroValuation : Valuation Unit where
  leaf _ s := match s with
    | .bitVec _ => .bits 0
    | .bool => .bool false
    | _ => .other ()
  leaf_bits _ w := ⟨0#w, by simp⟩
  leaf_bool _ := ⟨false, rfl⟩

theorem fold_standard_rewrite_keeps_masked : Standard 8 ∧
    Keeps zeroValuation (.bvOp .and (.leaf "x" (.bitVec 8)) (.bitVecConst 255 8)) (.bitVec 8)
    (rewrite ⟨fun _ _ => true, true⟩ (.bvOp .and (.leaf "x" (.bitVec 8)) (.bitVecConst 255 8)) BvRewriter.new).1 :=
  fold_standard_rewrite_keeps 8 (by decide) ⟨fun _ _ => true, true⟩ BvRewriter.new zeroValuation _ _
    (.bvOp (.leaf (by rintro w ⟨⟩; decide)) (.bitVecConst 255#8 (by decide)))

end

end Nixie.BvRewrite
