import Mathlib.Algebra.Order.Ring.Abs
import Mathlib.Tactic.Ring

/-!
The extended Euclidean algorithm with truncating division: the cofactors stay below the inputs.
-/

namespace Nixie.Cofactors

open Int

variable {a b oldR r oldS s oldT t : ℤ}

theorem tmod_between_nonneg (h : 0 ≤ a) : 0 ≤ a.tmod b ∧ a.tmod b ≤ a := by
  have hle := Nat.mod_le a.natAbs b.natAbs
  rw [← natAbs_tmod] at hle
  have hnonneg := tmod_nonneg b h
  omega

theorem tmod_between_nonpos (h : a ≤ 0) : a ≤ a.tmod b ∧ a.tmod b ≤ 0 := by
  have hneg := @tmod_between_nonneg (-a) b (by omega)
  rw [neg_tmod] at hneg
  omega

theorem mul_tmod_nonneg : 0 ≤ (oldR - oldR.tmod r) * oldR.tmod r := by
  rcases le_total 0 oldR with h | h
  · have hbetween := @tmod_between_nonneg oldR r h
    exact mul_nonneg (by omega) hbetween.1
  · have hbetween := @tmod_between_nonpos oldR r h
    exact mul_nonneg_of_nonpos_of_nonpos (by omega) hbetween.2

theorem mul_tmod_nonpos {x : ℤ} (h : x * oldR ≤ 0) : x * oldR.tmod r ≤ 0 := by
  rcases lt_trichotomy oldR 0 with hneg | hzero | hpos
  · have hx : 0 ≤ x := by
      by_contra hlt
      exact absurd h (not_le.mpr (mul_pos_of_neg_of_neg (not_le.mp hlt) hneg))
    exact mul_nonpos_of_nonneg_of_nonpos hx (tmod_between_nonpos hneg.le).2
  · rw [hzero, zero_tmod, mul_zero]
  · have hx : x ≤ 0 := by
      by_contra hlt
      exact absurd h (not_le.mpr (mul_pos (not_le.mp hlt) hpos))
    exact mul_nonpos_of_nonpos_of_nonneg hx (tmod_between_nonneg hpos.le).1

/-- One pair of cofactors of consecutive remainders: the products have opposite signs and differ by `bound`. -/
structure Alternates (bound oldR r oldS s : ℤ) : Prop where
  gap : |s * oldR - oldS * r| = |bound|
  opposite : (s * oldR) * (oldS * r) ≤ 0

variable {bound : ℤ}

theorem abs_le_of_opposite {x y : ℤ} (h : x * y ≤ 0) : |x| ≤ |x - y| := by
  rcases le_total 0 x with hx | hx <;> rcases le_total 0 y with hy | hy
  · rcases mul_nonpos_iff.mp h with ⟨-, hy'⟩ | ⟨hx', -⟩
    · rw [le_antisymm hy' hy, sub_zero]
    · rw [le_antisymm hx' hx, abs_zero]
      exact abs_nonneg _
  · rw [abs_of_nonneg hx, abs_of_nonneg (by omega)]
    omega
  · rw [abs_of_nonpos hx, abs_of_nonpos (by omega)]
    omega
  · rcases mul_nonpos_iff.mp h with ⟨hx', -⟩ | ⟨-, hy'⟩
    · rw [le_antisymm hx hx', abs_zero]
      exact abs_nonneg _
    · rw [le_antisymm hy hy', sub_zero]

theorem Alternates.step (h : Alternates bound oldR r oldS s) :
    Alternates bound r (oldR.tmod r) s (oldS - oldR.tdiv r * s) := by
  have hquot : oldR.tdiv r * r = oldR - oldR.tmod r := by
    have hdiv := mul_tdiv_add_tmod oldR r
    rw [mul_comm] at hdiv
    omega
  have hleft : (oldS - oldR.tdiv r * s) * r = oldS * r - s * (oldR - oldR.tmod r) := by
    rw [← hquot]
    ring
  refine ⟨?_, ?_⟩
  · rw [hleft, ← h.gap, ← abs_neg]
    congr 1
    ring
  · have hone : (oldS * r * s) * oldR.tmod r ≤ 0 := by
      refine mul_tmod_nonpos ?_
      have hopposite := h.opposite
      calc oldS * r * s * oldR = s * oldR * (oldS * r) := by ring
        _ ≤ 0 := hopposite
    have htwo : 0 ≤ s * s * ((oldR - oldR.tmod r) * oldR.tmod r) := mul_nonneg (mul_self_nonneg s) mul_tmod_nonneg
    rw [hleft]
    calc (oldS * r - s * (oldR - oldR.tmod r)) * (s * oldR.tmod r)
        = oldS * r * s * oldR.tmod r - s * s * ((oldR - oldR.tmod r) * oldR.tmod r) := by ring
      _ ≤ 0 := by omega

theorem Alternates.le (h : Alternates bound oldR r oldS s) (hr : oldR ≠ 0) : |s| ≤ |bound| := by
  have hle := abs_le_of_opposite h.opposite
  rw [h.gap, abs_mul] at hle
  exact (le_mul_of_one_le_right (abs_nonneg s) (one_le_abs hr)).trans hle

structure State (a b oldR r oldS s oldT t : ℤ) : Prop where
  old : oldS * a + oldT * b = oldR
  new : s * a + t * b = r
  left : Alternates b oldR r oldS s
  right : Alternates a oldR r oldT t
  gcd : Int.gcd oldR r = Int.gcd a b

theorem state_start : State a b a b 1 0 0 1 :=
  ⟨by ring, by ring, ⟨by rw [zero_mul, one_mul, zero_sub, abs_neg], by simp⟩,
    ⟨by rw [zero_mul, one_mul, sub_zero], by simp⟩, rfl⟩

theorem State.step (h : State a b oldR r oldS s oldT t) :
    State a b r (oldR.tmod r) s (oldS - oldR.tdiv r * s) t (oldT - oldR.tdiv r * t) := by
  have hquot : oldR.tmod r = oldR - oldR.tdiv r * r := by
    have hdiv := mul_tdiv_add_tmod oldR r
    rw [mul_comm] at hdiv
    omega
  refine ⟨h.new, ?_, h.left.step, h.right.step, ?_⟩
  · calc (oldS - oldR.tdiv r * s) * a + (oldT - oldR.tdiv r * t) * b
        = (oldS * a + oldT * b) - oldR.tdiv r * (s * a + t * b) := by ring
      _ = oldR.tmod r := by rw [h.old, h.new, hquot]
  · rw [hquot, ← h.gcd, Int.gcd_comm oldR r]
    exact gcd_sub_mul_right_right r oldR _

theorem State.natAbs (h : State a b oldR 0 oldS s oldT t) : oldR.natAbs = Int.gcd a b := by
  rw [← h.gcd, Int.gcd_zero_right]

end Nixie.Cofactors
