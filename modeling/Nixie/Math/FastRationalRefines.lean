import Nixie.Math.FastRationalValue

namespace Nixie.Math

open Option

namespace FastRational

inductive Expr
  | newSmall (num den : Int64)
  | fromBig (br : ℚ)
  | fromInt (n : Int64)
  | fromPair (n d : Int64)
  | fromBigint (z : ℤ)
  | add (a b : Expr)
  | sub (a b : Expr)
  | mul (a b : Expr)
  | div (a b : Expr)
  | neg (a : Expr)
  | abs (a : Expr)
  | recip (a : Expr)

namespace Expr

/-- The code's value, `none` when a word operation overflows or the code answers with none. -/
def eval : Expr → Option FastRational
  | newSmall num den => FastRational.newSmall num den
  | fromBig br => FastRational.fromBig br
  | fromInt n => some (FastRational.fromInt n)
  | fromPair n d => FastRational.fromPair n d
  | fromBigint z => some (FastRational.fromBigint z)
  | add a b => do (← a.eval).add (← b.eval)
  | sub a b => do (← a.eval).sub (← b.eval)
  | mul a b => do (← a.eval).mul (← b.eval)
  | div a b => do (← a.eval).div (← b.eval)
  | neg a => do (← a.eval).neg
  | abs a => do (← a.eval).abs
  | recip a => do (← (← a.eval).recip)

/-- The exact rational, `none` for a zero denominator or divisor. The code reads a pair with a zero
denominator as zero, as a quotient by zero is here. -/
def exact : Expr → Option ℚ
  | newSmall num den => if den.toInt = 0 then none else some (num.toInt / den.toInt)
  | fromBig br => some br
  | fromInt n => some n.toInt
  | fromPair n d => some (n.toInt / d.toInt)
  | fromBigint z => some z
  | add a b => do return (← a.exact) + (← b.exact)
  | sub a b => do return (← a.exact) - (← b.exact)
  | mul a b => do return (← a.exact) * (← b.exact)
  | div a b => do
    let p ← a.exact
    let q ← b.exact
    if q = 0 then none else return p / q
  | neg a => do return -(← a.exact)
  | abs a => do return |← a.exact|
  | recip a => do
    let q ← a.exact
    if q = 0 then none else return q⁻¹

end Expr

variable {e e' : Expr} {q q' : ℚ}

theorem Returns.bind₂ {o o' : Option FastRational} {f : FastRational → FastRational → Option FastRational} {p r : ℚ}
    (ho : Returns o p) (ho' : Returns o' r) (hf : ∀ a b : FastRational, a.Reduced → b.Reduced → a.toBigRational = p →
    b.toBigRational = r → Returns (f a b) q) : Returns (o.bind fun a => o'.bind fun b => f a b) q := by
  obtain ⟨a, rfl, hap, ha⟩ := ho
  obtain ⟨b, rfl, hbr, hb⟩ := ho'
  exact hf a b ha hb hap hbr

theorem Returns.bind₁ {o : Option FastRational} {f : FastRational → Option FastRational} {p : ℚ} (ho : Returns o p)
    (hf : ∀ a : FastRational, a.Reduced → a.toBigRational = p → Returns (f a) q) : Returns (o.bind f) q := by
  obtain ⟨a, rfl, hap, ha⟩ := ho
  exact hf a ha hap

theorem eval_returns (h : e.exact = some q) : Returns e.eval q := by
  induction e generalizing q with
  | newSmall num den =>
    simp only [Expr.exact] at h
    split_ifs at h with hden
    cases h
    exact newSmall_returns hden
  | fromBig br =>
    cases h
    exact fromBig_returns _
  | fromInt n =>
    cases h
    exact returns_int n
  | fromPair n d =>
    cases h
    exact fromPair_returns n d
  | fromBigint z =>
    cases h
    exact fromBigint_returns z
  | add a b iha ihb =>
    simp only [Expr.exact, bind_eq_bind, bind_eq_some_iff] at h
    obtain ⟨p, hp, r, hr, h⟩ := h
    cases h
    exact (iha hp).bind₂ (ihb hr) fun a b ha hb hap hbr => hap ▸ hbr ▸ add_returns ha hb
  | sub a b iha ihb =>
    simp only [Expr.exact, bind_eq_bind, bind_eq_some_iff] at h
    obtain ⟨p, hp, r, hr, h⟩ := h
    cases h
    exact (iha hp).bind₂ (ihb hr) fun a b ha hb hap hbr => hap ▸ hbr ▸ sub_returns ha hb
  | mul a b iha ihb =>
    simp only [Expr.exact, bind_eq_bind, bind_eq_some_iff] at h
    obtain ⟨p, hp, r, hr, h⟩ := h
    cases h
    exact (iha hp).bind₂ (ihb hr) fun a b ha hb hap hbr => hap ▸ hbr ▸ mul_returns ha hb
  | div a b iha ihb =>
    simp only [Expr.exact, bind_eq_bind, bind_eq_some_iff] at h
    obtain ⟨p, hp, r, hr, h⟩ := h
    split_ifs at h with hzero
    cases h
    refine (iha hp).bind₂ (ihb hr) fun a b ha hb hap hbr => ?_
    rw [← hap, ← hbr]
    exact div_returns ha hb (hbr ▸ hzero)
  | neg a iha =>
    simp only [Expr.exact, bind_eq_bind, bind_eq_some_iff] at h
    obtain ⟨p, hp, h⟩ := h
    cases h
    exact (iha hp).bind₁ fun a ha hap => hap ▸ neg_returns ha
  | abs a iha =>
    simp only [Expr.exact, bind_eq_bind, bind_eq_some_iff] at h
    obtain ⟨p, hp, h⟩ := h
    cases h
    exact (iha hp).bind₁ fun a ha hap => hap ▸ abs_returns ha
  | recip a iha =>
    simp only [Expr.exact, bind_eq_bind, bind_eq_some_iff] at h
    obtain ⟨p, hp, h⟩ := h
    split_ifs at h with hzero
    cases h
    refine (iha hp).bind₁ fun a ha hap => ?_
    rw [← hap]
    exact recip_returns ha (hap ▸ hzero)

/-- Two values built by any operations are exact, in lowest terms when small, and compared and hashed
as the rationals they represent. -/
theorem eval_refines (h : e.exact = some q) (h' : e'.exact = some q') :
    ∃ r r', e.eval = some r ∧ e'.eval = some r' ∧
      r.toBigRational = q ∧ r'.toBigRational = q' ∧ r.Reduced ∧ r'.Reduced ∧
      (r.eq r' = true ↔ q = q') ∧ r.cmp r' = compare q q' ∧
      ∃ data data', r.hash = some data ∧ r'.hash = some data' ∧ (q = q' → data = data') := by
  obtain ⟨r, hr, hvalue, hred⟩ := eval_returns h
  obtain ⟨r', hr', hvalue', hred'⟩ := eval_returns h'
  obtain ⟨data, hdata⟩ := hash_big_isSome q
  obtain ⟨data', hdata'⟩ := hash_big_isSome q'
  have hhash : r.hash = some data := by rw [hash_eq_big hred, hvalue, hdata]
  have hhash' : r'.hash = some data' := by rw [hash_eq_big hred', hvalue', hdata']
  refine ⟨r, r', hr, hr', hvalue, hvalue', hred, hred', ?_, ?_, data, data', hhash, hhash', ?_⟩
  · rw [eq_iff hred hred', hvalue, hvalue']
  · rw [cmp_eq hred hred', hvalue, hvalue']
  · rintro rfl
    rw [hdata] at hdata'
    exact some.inj hdata'

/-- The smallest word over 7, times 7, and the absolute value of the smallest word. -/
theorem eval_refines_minValue :
    ∃ r r', (Expr.mul (.newSmall Int64.minValue 7) (.newSmall 7 1)).eval = some r ∧
      (Expr.abs (.fromInt Int64.minValue)).eval = some r' ∧
      r.toBigRational = -9223372036854775808 ∧ r'.toBigRational = 9223372036854775808 ∧
      r.Reduced ∧ r'.Reduced ∧
      (r.eq r' = true ↔ (-9223372036854775808 : ℚ) = 9223372036854775808) ∧
      r.cmp r' = compare (-9223372036854775808 : ℚ) 9223372036854775808 ∧
      ∃ data data', r.hash = some data ∧ r'.hash = some data' ∧
        ((-9223372036854775808 : ℚ) = 9223372036854775808 → data = data') :=
  eval_refines (by with_unfolding_all decide) (by with_unfolding_all decide)

end FastRational

end Nixie.Math
