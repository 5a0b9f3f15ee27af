import Nixie.Math.IntervalProduct

namespace Nixie.Math

open Option

namespace Interval

open Nixie.Math.Bound

variable {I J K : Interval} {x y : ℚ}

section

theorem divisor_sign (hy : J.Mem y) (hzero : ¬ J.Mem 0) (hlo : J.lo ≠ finite 0) (hhi : J.hi ≠ finite 0) :
    (∃ a, J.lo = finite a ∧ 0 < a ∧ a ≤ y) ∨ ∃ b, J.hi = finite b ∧ b < 0 ∧ y ≤ b := by
  by_cases habove : AboveLo J.lo J.loOpen 0
  · have hle := (le_of_not_belowHi fun hb => hzero (mem_iff.mpr ⟨habove, hb⟩)).1
    rcases hy.hi_cases with hJ | ⟨b, hJ, hyb⟩
    · rw [hJ] at hle
      exact absurd hle (not_le.mpr (EReal.coe_lt_top _))
    · rw [hJ, finite_le] at hle
      refine .inr ⟨b, hJ, lt_of_le_of_ne hle ?_, hyb⟩
      rintro rfl
      exact hhi hJ
  · have hle := (le_of_not_aboveLo habove).1
    rcases hy.lo_cases with hJ | ⟨a, hJ, hay⟩
    · rw [hJ] at hle
      exact absurd hle (not_le.mpr (EReal.bot_lt_coe _))
    · rw [hJ, le_finite] at hle
      refine .inl ⟨a, hJ, lt_of_le_of_ne hle ?_, hay⟩
      rintro rfl
      exact hlo hJ

theorem recipEnd_finite {a : ℚ} (ha : a ≠ 0) : recipEnd (finite a) = some (finite (1 / a)) :=
  if_neg ha

theorem exists_recipEnd {b : Bound} (hb : b ≠ finite 0) : ∃ c, recipEnd b = some c := by
  cases b with
  | negInf => exact ⟨_, rfl⟩
  | posInf => exact ⟨_, rfl⟩
  | finite a => exact ⟨_, recipEnd_finite fun ha => hb (ha ▸ rfl)⟩

variable {lo hi : Bound}

theorem recip_mem (hy : J.Mem y) (hzero : ¬ J.Mem 0) (hlo : recipEnd J.hi = some lo) (hhi : recipEnd J.lo = some hi)
    (hlo0 : J.lo ≠ finite 0) (hhi0 : J.hi ≠ finite 0) : (⟨lo, hi, J.hiOpen, J.loOpen⟩ : Interval).Mem (1 / y) := by
  have hy' := mem_iff.mp hy
  rcases divisor_sign hy hzero hlo0 hhi0 with ⟨a, hJ, ha, hay⟩ | ⟨b, hJ, hb, hyb⟩
  · have hypos := ha.trans_le hay
    rw [hJ, aboveLo_finite] at hy'
    rw [hJ, recipEnd_finite ha.ne', some.injEq] at hhi
    rw [mem_iff, ← hhi, belowHi_finite]
    refine ⟨?_, one_div_le_one_div_of_le ha hay, fun h => hy'.1.2 (by simpa using h)⟩
    rcases hy.hi_cases with hJhi | ⟨b, hJhi, hyb⟩
    · rw [hJhi, recipEnd, some.injEq] at hlo
      rw [← hlo, aboveLo_finite]
      exact ⟨(one_div_pos.mpr hypos).le, fun h => absurd h (one_div_pos.mpr hypos).ne⟩
    · rw [hJhi, belowHi_finite] at hy'
      rw [hJhi, recipEnd_finite (hypos.trans_le hyb).ne', some.injEq] at hlo
      rw [← hlo, aboveLo_finite]
      exact ⟨one_div_le_one_div_of_le hypos hyb, fun h => hy'.2.2 (by simpa using h)⟩
  · have hyneg := hyb.trans_lt hb
    rw [hJ, belowHi_finite] at hy'
    rw [hJ, recipEnd_finite hb.ne, some.injEq] at hlo
    rw [mem_iff, ← hlo, aboveLo_finite]
    refine ⟨⟨one_div_le_one_div_of_neg_of_le hb hyb, fun h => hy'.2.2 (by simpa using h)⟩, ?_⟩
    rcases hy.lo_cases with hJlo | ⟨a, hJlo, hay⟩
    · rw [hJlo, recipEnd, some.injEq] at hhi
      rw [← hhi, belowHi_finite]
      exact ⟨(one_div_neg.mpr hyneg).le, fun h => absurd h (one_div_neg.mpr hyneg).ne'⟩
    · rw [hJlo, aboveLo_finite] at hy'
      rw [hJlo, recipEnd_finite (hay.trans_lt hyneg).ne, some.injEq] at hhi
      rw [← hhi, belowHi_finite]
      exact ⟨one_div_le_one_div_of_neg_of_le hyneg hay, fun h => hy'.1.2 (by simpa using h)⟩

theorem recip_sign (hy : J.Mem y) (hzero : ¬ J.Mem 0) (hlo : recipEnd J.hi = some lo) (hhi : recipEnd J.lo = some hi)
    (hlo0 : J.lo ≠ finite 0) (hhi0 : J.hi ≠ finite 0) : (∀ v, (⟨lo, hi, J.hiOpen, J.loOpen⟩ : Interval).Mem v → 0 ≤ v) ∨
    ∀ v, (⟨lo, hi, J.hiOpen, J.loOpen⟩ : Interval).Mem v → v ≤ 0 := by
  rcases divisor_sign hy hzero hlo0 hhi0 with ⟨a, hJ, ha, hay⟩ | ⟨b, hJ, hb, hyb⟩
  · refine .inl fun v hv => ?_
    have hlov := (mem_iff.mp hv).1
    rcases hy.hi_cases with hJhi | ⟨b, hJhi, hyb⟩
    · rw [hJhi, recipEnd, some.injEq] at hlo
      rw [← hlo, aboveLo_finite] at hlov
      exact hlov.1
    · have hb : 0 < b := ha.trans_le (hay.trans hyb)
      rw [hJhi, recipEnd_finite hb.ne', some.injEq] at hlo
      rw [← hlo, aboveLo_finite] at hlov
      exact (one_div_pos.mpr hb).le.trans hlov.1
  · refine .inr fun v hv => ?_
    have hhiv := (mem_iff.mp hv).2
    rcases hy.lo_cases with hJlo | ⟨a, hJlo, hay⟩
    · rw [hJlo, recipEnd, some.injEq] at hhi
      rw [← hhi, belowHi_finite] at hhiv
      exact hhiv.1
    · have ha : a < 0 := (hay.trans hyb).trans_lt hb
      rw [hJlo, recipEnd_finite ha.ne, some.injEq] at hhi
      rw [← hhi, belowHi_finite] at hhiv
      exact hhiv.1.trans (one_div_neg.mpr ha).le

theorem div_eq_some (hx : I.Mem x) (hy : J.Mem y) : I.div J = some K ↔ ¬ J.Mem 0 ∧ ∃ lo hi, recipEnd J.hi = some lo ∧
    recipEnd J.lo = some hi ∧ I.mul ⟨lo, hi, J.hiOpen, J.loOpen⟩ = K := by
  unfold div
  simp only [hx.not_isEmpty, hy.not_isEmpty, Bool.or_self, Bool.false_eq_true, if_false, containsZero, contains_iff]
  by_cases hzero : J.Mem 0
  · have hcontains := contains_iff.mpr hzero
    simp [hzero, hcontains]
  · have hcontains : J.contains 0 = false := by
      rwa [← Bool.not_eq_true, contains_iff]
    simp [hzero, hcontains, bind_eq_some_iff]

theorem ne_zero_of_recipEnd {b c : Bound} (h : recipEnd b = some c) : b ≠ finite 0 := by
  rintro rfl
  simp [recipEnd] at h

end

/-- Every operation encloses the values at the points of two intervals, and none panics. -/
structure Encloses (I J : Interval) : Prop where
  add : ∀ x y, I.contains x → J.contains y → ∃ K, I.add J = some K ∧ K.contains (x + y)
  sub : ∀ x y, I.contains x → J.contains y → ∃ K, I.sub J = some K ∧ K.contains (x - y)
  mul : ∀ x y, I.contains x → J.contains y → (I.mul J).contains (x * y)
  negate : ∀ x, I.contains x → I.negate.contains (-x)
  pow : ∀ x, I.contains x → ∀ n, ∃ K, I.pow n = some K ∧ K.contains (x ^ n)
  div : ∀ x y, I.contains x → J.contains y → ∀ K, I.div J = some K → K.contains (x / y)
  intersect : ∀ x, (I.intersect J).contains x ↔ I.contains x ∧ J.contains x
  union : ∀ K, I.union J = some K → ∀ x, K.contains x ↔ I.contains x ∨ J.contains x

def ZeroKept (I J : Interval) : Prop :=
  (∃ x y, I.contains x ∧ J.contains y ∧ x * y = 0) →
    ((∃ u v, I.contains u ∧ J.contains v ∧ u * v < 0) ∧
      ∃ u v, I.contains u ∧ J.contains v ∧ 0 < u * v) ∨
    ∃ a ∈ I.closedEnds, ∃ b ∈ J.closedEnds, a.mul b = finite 0

def ZeroQuotientKept (I J : Interval) : Prop :=
  (∃ y, J.contains y) → ¬ J.containsZero → J.lo ≠ finite 0 → J.hi ≠ finite 0 → I.containsZero →
    ((∃ u, I.contains u ∧ u < 0) ∧ ∃ u, I.contains u ∧ 0 < u) ∨
    ∃ a ∈ I.closedEnds, ∃ b ∈ J.closedEnds, ∃ c, recipEnd b = some c ∧ a.mul c = finite 0

theorem mul_encloses_iff : (∀ x y, I.contains x → J.contains y → (I.mul J).contains (x * y)) ↔ ZeroKept I J := by
  unfold ZeroKept
  simp only [contains_iff, ← closed_zero_corner]
  constructor
  · rintro hmul ⟨x, y, hx, hy, hxy⟩
    by_contra hkept
    rw [not_or] at hkept
    have hmem := hmul x y hx hy
    rw [hxy] at hmem
    exact not_mem_mul_zero hx hy hkept.1 hkept.2 hmem
  · intro hkept x y hx hy
    exact hx.mul hy fun hxy => hkept ⟨x, y, hx, hy, hxy⟩

theorem recip_closed_corner {lo hi : Bound} (hlo : recipEnd J.hi = some lo) (hhi : recipEnd J.lo = some hi) :
    (finite 0, false) ∈ products I ⟨lo, hi, J.hiOpen, J.loOpen⟩ ↔
    ∃ a ∈ I.closedEnds, ∃ b ∈ J.closedEnds, ∃ c, recipEnd b = some c ∧ a.mul c = finite 0 := by
  rw [closed_zero_corner]
  refine exists_congr fun a => and_congr_right fun _ => ?_
  unfold closedEnds
  cases J.loOpen <;> cases J.hiOpen <;> simp [hlo, hhi, or_comm]

theorem both_signs_recip {lo hi : Bound} (hy : J.Mem y) (hzero : ¬ J.Mem 0)
    (hlo : recipEnd J.hi = some lo) (hhi : recipEnd J.lo = some hi) :
    BothSigns I ⟨lo, hi, J.hiOpen, J.loOpen⟩ ↔ (∃ u, I.Mem u ∧ u < 0) ∧ ∃ u, I.Mem u ∧ 0 < u := by
  have hlo0 := ne_zero_of_recipEnd hhi
  have hhi0 := ne_zero_of_recipEnd hlo
  have hmem := recip_mem hy hzero hlo hhi hlo0 hhi0
  have hy0 : y ≠ 0 := fun h => hzero (h ▸ hy)
  constructor
  · rintro ⟨⟨u, v, hu, hv, huv⟩, u', v', hu', hv', huv'⟩
    rcases recip_sign hy hzero hlo hhi hlo0 hhi0 with hsign | hsign
    · have hneg : u < 0 := lt_of_not_ge fun h => absurd huv (not_lt.mpr (mul_nonneg h (hsign v hv)))
      have hpos : 0 < u' := lt_of_not_ge fun h =>
        absurd huv' (not_lt.mpr (mul_nonpos_of_nonpos_of_nonneg h (hsign v' hv')))
      exact ⟨⟨u, hu, hneg⟩, u', hu', hpos⟩
    · have hneg : u' < 0 := lt_of_not_ge fun h =>
        absurd huv' (not_lt.mpr (mul_nonpos_of_nonneg_of_nonpos h (hsign v' hv')))
      have hpos : 0 < u := lt_of_not_ge fun h =>
        absurd huv (not_lt.mpr (mul_nonneg_of_nonpos_of_nonpos h (hsign v hv)))
      exact ⟨⟨u', hu', hneg⟩, u, hu, hpos⟩
  · rintro ⟨⟨u, hu, hneg⟩, v, hv, hpos⟩
    rcases (one_div_ne_zero hy0).lt_or_gt with hr | hr
    · exact ⟨⟨v, _, hv, hmem, mul_neg_of_pos_of_neg hpos hr⟩, u, _, hu, hmem, mul_pos_of_neg_of_neg hneg hr⟩
    · exact ⟨⟨u, _, hu, hmem, mul_neg_of_neg_of_pos hneg hr⟩, v, _, hv, hmem, mul_pos hpos hr⟩

theorem div_encloses_iff : (∀ x y, I.contains x → J.contains y → ∀ K, I.div J = some K → K.contains (x / y)) ↔
    ZeroQuotientKept I J := by
  unfold ZeroQuotientKept
  simp only [containsZero, contains_iff]
  constructor
  · rintro hdiv ⟨y, hy⟩ hzero hlo0 hhi0 hI0
    obtain ⟨lo, hlo⟩ := exists_recipEnd hhi0
    obtain ⟨hi, hhi⟩ := exists_recipEnd hlo0
    by_contra hkept
    rw [← both_signs_recip hy hzero hlo hhi, ← recip_closed_corner hlo hhi, not_or] at hkept
    have hmem := hdiv 0 y hI0 hy _ ((div_eq_some hI0 hy).mpr ⟨hzero, lo, hi, hlo, hhi, rfl⟩)
    rw [zero_div] at hmem
    exact not_mem_mul_zero hI0 (recip_mem hy hzero hlo hhi hlo0 hhi0) hkept.1 hkept.2 hmem
  · intro hkept x y hx hy K hK
    obtain ⟨hzero, lo, hi, hlo, hhi, rfl⟩ := (div_eq_some hx hy).mp hK
    have hlo0 := ne_zero_of_recipEnd hhi
    have hhi0 := ne_zero_of_recipEnd hlo
    have hmem := recip_mem hy hzero hlo hhi hlo0 hhi0
    rw [div_eq_mul_one_div]
    refine hx.mul hmem fun hxy => ?_
    have hy0 : y ≠ 0 := fun h => hzero (h ▸ hy)
    have hx0 : x = 0 := (mul_eq_zero.mp hxy).resolve_right (one_div_ne_zero hy0)
    rw [both_signs_recip hy hzero hlo hhi, recip_closed_corner hlo hhi]
    exact hkept ⟨y, hy⟩ hzero hlo0 hhi0 (hx0 ▸ hx)

/-- The operations enclose exactly when no zero of a product or of a quotient is left at open ends. -/
theorem encloses_iff (I J : Interval) : Encloses I J ↔ ZeroKept I J ∧ ZeroQuotientKept I J := by
  constructor
  · intro h
    exact ⟨mul_encloses_iff.mp h.mul, div_encloses_iff.mp h.div⟩
  · rintro ⟨hmul, hdiv⟩
    refine ⟨?_, ?_, mul_encloses_iff.mpr hmul, ?_, ?_, div_encloses_iff.mpr hdiv, ?_, ?_⟩
    · intro x y hx hy
      simp only [contains_iff] at hx hy ⊢
      exact hx.add hy
    · intro x y hx hy
      simp only [contains_iff] at hx hy ⊢
      exact hx.sub hy
    · intro x hx
      rw [contains_iff] at hx ⊢
      exact hx.negate
    · intro x hx n
      simp only [contains_iff] at hx ⊢
      exact hx.pow n
    · intro x
      simp only [contains_iff]
      exact mem_intersect
    · intro K hK x
      simp only [contains_iff]
      exact mem_union hK

/-- `[0, 1] * (1, 2)` comes out as `(0, 2)`. -/
theorem not_encloses : ¬ Encloses (closed 0 1) («open» 1 2) := by
  intro h
  have hx : (closed 0 1).contains 0 := by decide
  have hy : («open» 1 2).contains (3 / 2) := by with_unfolding_all decide
  have hmem := h.mul 0 (3 / 2) hx hy
  rw [contains_iff, zero_mul] at hmem
  rw [contains_iff] at hx hy
  refine not_mem_mul_zero hx hy ?_ (by with_unfolding_all decide) hmem
  rintro ⟨⟨u, v, hu, hv, huv⟩, -⟩
  have hu0 : 0 ≤ u := finite_le.mp hu.lo
  have hv1 : 1 ≤ v := finite_le.mp hv.lo
  exact absurd huv (not_lt.mpr (mul_nonneg hu0 (zero_le_one.trans hv1)))

end Interval

end Nixie.Math
