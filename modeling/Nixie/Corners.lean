import Mathlib.Data.EReal.Inv

namespace Nixie.Corners

open EReal

variable {a b c d e : EReal} {x y : ℝ}

theorem mul_le_mul_of_nonpos_right' (h : a ≤ b) (hc : c ≤ 0) : b * c ≤ a * c := by
  have hneg : a * -c ≤ b * -c := mul_le_mul_of_nonneg_right h (EReal.neg_nonneg.mpr hc)
  rwa [mul_neg, mul_neg, EReal.neg_le_neg_iff] at hneg

theorem edge_le (ha : a ≤ c) (hb : c ≤ b) (e : EReal) : a * e ≤ c * e ∨ b * e ≤ c * e := by
  rcases le_total 0 e with he | he
  · exact .inl (mul_le_mul_of_nonneg_right ha he)
  · exact .inr (mul_le_mul_of_nonpos_right' hb he)

theorem mul_lt_mul_of_pos_right' (h : a < x) (hy : 0 < y) : a * (y : EReal) < x * y := by
  induction a with
  | bot =>
    rw [bot_mul_coe_of_pos hy, ← coe_mul]
    exact bot_lt_coe _
  | coe a =>
    rw [EReal.coe_lt_coe_iff] at h
    exact_mod_cast mul_lt_mul_of_pos_right h hy
  | top => exact absurd h not_top_lt

theorem mul_lt_mul_of_neg_right' (h : x < b) (hy : y < 0) : b * (y : EReal) < x * y := by
  have hneg : -b < ((-x : ℝ) : EReal) := by
    rw [coe_neg]
    exact EReal.neg_lt_neg_iff.mpr h
  have hlt := mul_lt_mul_of_pos_right' hneg (neg_pos.mpr hy)
  rwa [coe_neg, coe_neg, neg_mul_neg, neg_mul_neg] at hlt

theorem edge_lt (ha : a < x) (hb : x < b) (hy : y ≠ 0) : a * (y : EReal) < x * y ∨ b * (y : EReal) < x * y := by
  rcases hy.lt_or_gt with hy | hy
  · exact .inr (mul_lt_mul_of_neg_right' hb hy)
  · exact .inl (mul_lt_mul_of_pos_right' ha hy)

theorem corner_le (ha : a ≤ x) (hb : x ≤ b) (hc : c ≤ y) (hd : y ≤ d) :
    a * c ≤ x * y ∨ a * d ≤ x * y ∨ b * c ≤ x * y ∨ b * d ≤ x * y := by
  have hedge (e : EReal) : e * c ≤ e * y ∨ e * d ≤ e * y := by
    rw [mul_comm e c, mul_comm e d, mul_comm e]
    exact edge_le hc hd e
  rcases edge_le ha hb (y : EReal) with hle | hle
  · rcases hedge a with h | h
    · exact .inl (h.trans hle)
    · exact .inr (.inl (h.trans hle))
  · rcases hedge b with h | h
    · exact .inr (.inr (.inl (h.trans hle)))
    · exact .inr (.inr (.inr (h.trans hle)))

theorem eq_end_of_le (ha : a ≤ x) (hb : x ≤ b) (hc : c ≤ y) (hd : y ≤ d) (hy : y ≠ 0) (hac : x * y ≤ a * c)
    (had : x * y ≤ a * d) (hbc : x * y ≤ b * c) (hbd : x * y ≤ b * d) : (x : EReal) = a ∨ (x : EReal) = b := by
  by_contra hends
  push Not at hends
  have hedge {e : EReal} (hec : (x : EReal) * y ≤ e * c) (hed : (x : EReal) * y ≤ e * d) :
      (x : EReal) * y ≤ e * y := by
    have hle : e * c ≤ e * y ∨ e * d ≤ e * y := by
      rw [mul_comm e c, mul_comm e d, mul_comm e]
      exact edge_le hc hd e
    rcases hle with h | h
    · exact hec.trans h
    · exact hed.trans h
  rcases edge_lt (lt_of_le_of_ne ha hends.1.symm) (lt_of_le_of_ne hb hends.2) hy with hlt | hlt
  · exact absurd (hedge hac had) (not_le.mpr hlt)
  · exact absurd (hedge hbc hbd) (not_le.mpr hlt)

theorem corner_eq_of_le (ha : a ≤ x) (hb : x ≤ b) (hc : c ≤ y) (hd : y ≤ d) (hxy : x * y ≠ 0)
    (hac : x * y ≤ a * c) (had : x * y ≤ a * d) (hbc : x * y ≤ b * c) (hbd : x * y ≤ b * d) :
    ((x : EReal) = a ∨ (x : EReal) = b) ∧ ((y : EReal) = c ∨ (y : EReal) = d) := by
  obtain ⟨hx, hy⟩ := mul_ne_zero_iff.mp hxy
  refine ⟨eq_end_of_le ha hb hc hd hy hac had hbc hbd, ?_⟩
  rw [mul_comm] at hac had hbc hbd
  exact eq_end_of_le hc hd ha hb hx (by rwa [mul_comm c]) (by rwa [mul_comm c]) (by rwa [mul_comm d])
    (by rwa [mul_comm d])

theorem le_corner (ha : a ≤ x) (hb : x ≤ b) (hc : c ≤ y) (hd : y ≤ d) :
    x * y ≤ a * c ∨ x * y ≤ a * d ∨ x * y ≤ b * c ∨ x * y ≤ b * d := by
  have hcorner := corner_le (y := -y) ha hb (c := -d) (d := -c) (by simpa using hd) (by simpa using hc)
  simp only [coe_neg, mul_neg, EReal.neg_le_neg_iff] at hcorner
  tauto

theorem corner_eq_of_ge (ha : a ≤ x) (hb : x ≤ b) (hc : c ≤ y) (hd : y ≤ d) (hxy : x * y ≠ 0)
    (hac : a * c ≤ x * y) (had : a * d ≤ x * y) (hbc : b * c ≤ x * y) (hbd : b * d ≤ x * y) :
    ((x : EReal) = a ∨ (x : EReal) = b) ∧ ((y : EReal) = c ∨ (y : EReal) = d) := by
  obtain ⟨hx, hy⟩ := corner_eq_of_le (y := -y) ha hb (c := -d) (d := -c) (by simpa using hd)
    (by simpa using hc) (by simpa using hxy) (by simpa using had) (by simpa using hac)
    (by simpa using hbd) (by simpa using hbc)
  simp only [coe_neg, neg_inj] at hy
  exact ⟨hx, hy.symm⟩

end Nixie.Corners
