import Nixie.Math.Interval

namespace Nixie.Math

namespace Interval

open Nixie.Math.Bound Nixie.Corners

variable {I J K : Interval} {x y : ℚ}

theorem finite_le {a : ℚ} : (finite a).toEReal ≤ ((x : ℝ) : EReal) ↔ a ≤ x := by
  rw [toEReal_finite, EReal.coe_le_coe_iff, Rat.cast_le]

theorem le_finite {a : ℚ} : ((x : ℝ) : EReal) ≤ (finite a).toEReal ↔ x ≤ a := by
  rw [toEReal_finite, EReal.coe_le_coe_iff, Rat.cast_le]

theorem Mem.lo_cases (h : I.Mem x) : I.lo = negInf ∨ ∃ a, I.lo = finite a ∧ a ≤ x := by
  have hlo := h.lo
  cases hI : I.lo with
  | negInf => exact .inl rfl
  | finite a =>
    rw [hI] at hlo
    exact .inr ⟨a, rfl, finite_le.mp hlo⟩
  | posInf =>
    rw [hI] at hlo
    exact absurd hlo (not_le.mpr (EReal.coe_lt_top _))

theorem Mem.hi_cases (h : I.Mem x) : I.hi = posInf ∨ ∃ a, I.hi = finite a ∧ x ≤ a := by
  have hhi := h.hi
  cases hI : I.hi with
  | posInf => exact .inl rfl
  | finite a =>
    rw [hI] at hhi
    exact .inr ⟨a, rfl, le_finite.mp hhi⟩
  | negInf =>
    rw [hI] at hhi
    exact absurd hhi (not_le.mpr (EReal.bot_lt_coe _))

theorem negate_eq_finite {b : Bound} : b.negate = finite (-x) ↔ b = finite x := by
  cases b <;> simp [Bound.negate]

theorem Mem.negate (h : I.Mem x) : I.negate.Mem (-x) where
  lo := by
    rw [Interval.negate, toEReal_negate, Rat.cast_neg, EReal.coe_neg]
    exact EReal.neg_le_neg_iff.mpr h.hi
  loClosed := fun heq => h.hiClosed (negate_eq_finite.mp heq)
  hi := by
    rw [Interval.negate, toEReal_negate, Rat.cast_neg, EReal.coe_neg]
    exact EReal.neg_le_neg_iff.mpr h.lo
  hiClosed := fun heq => h.loClosed (negate_eq_finite.mp heq)

theorem Mem.add (hx : I.Mem x) (hy : J.Mem y) : ∃ K, I.add J = some K ∧ K.Mem (x + y) := by
  have hlo : ∃ c, I.lo.add J.lo = some c ∧ c.toEReal ≤ ((x + y : ℚ) : ℝ) ∧
      (c = finite (x + y) → (I.loOpen || J.loOpen) = false) := by
    rcases hx.lo_cases with hI | ⟨a, hI, hax⟩
    · rcases hy.lo_cases with hJ | ⟨b, hJ, hby⟩
      · rw [hI, hJ]
        exact ⟨negInf, rfl, bot_le, fun h => by cases h⟩
      · rw [hI, hJ]
        exact ⟨negInf, rfl, bot_le, fun h => by cases h⟩
    · rcases hy.lo_cases with hJ | ⟨b, hJ, hby⟩
      · rw [hI, hJ]
        exact ⟨negInf, rfl, bot_le, fun h => by cases h⟩
      · rw [hI, hJ]
        refine ⟨finite (a + b), rfl, finite_le.mpr (add_le_add hax hby), fun h => ?_⟩
        rw [Bound.finite.injEq] at h
        have ha : a = x := by linarith
        have hb : b = y := by linarith
        rw [hx.loClosed (ha ▸ hI), hy.loClosed (hb ▸ hJ)]
        rfl
  have hhi : ∃ c, I.hi.add J.hi = some c ∧ (((x + y : ℚ) : ℝ) : EReal) ≤ c.toEReal ∧
      (c = finite (x + y) → (I.hiOpen || J.hiOpen) = false) := by
    rcases hx.hi_cases with hI | ⟨a, hI, hxa⟩
    · rcases hy.hi_cases with hJ | ⟨b, hJ, hyb⟩
      · rw [hI, hJ]
        exact ⟨posInf, rfl, le_top, fun h => by cases h⟩
      · rw [hI, hJ]
        exact ⟨posInf, rfl, le_top, fun h => by cases h⟩
    · rcases hy.hi_cases with hJ | ⟨b, hJ, hyb⟩
      · rw [hI, hJ]
        exact ⟨posInf, rfl, le_top, fun h => by cases h⟩
      · rw [hI, hJ]
        refine ⟨finite (a + b), rfl, le_finite.mpr (add_le_add hxa hyb), fun h => ?_⟩
        rw [Bound.finite.injEq] at h
        have ha : a = x := by linarith
        have hb : b = y := by linarith
        rw [hx.hiClosed (ha ▸ hI), hy.hiClosed (hb ▸ hJ)]
        rfl
  obtain ⟨lo, hlo, hlo'⟩ := hlo
  obtain ⟨hi, hhi, hhi'⟩ := hhi
  refine ⟨⟨lo, hi, I.loOpen || J.loOpen, I.hiOpen || J.hiOpen⟩, ?_, hlo'.1, hlo'.2, hhi'.1, hhi'.2⟩
  simp [Interval.add, hx.not_isEmpty, hy.not_isEmpty, hlo, hhi]

theorem Mem.sub (hx : I.Mem x) (hy : J.Mem y) : ∃ K, I.sub J = some K ∧ K.Mem (x - y) := by
  rw [sub_eq_add_neg]
  exact hx.add hy.negate

section

def AboveLo (b : Bound) (isOpen : Bool) (x : ℚ) : Prop :=
  b.toEReal ≤ ((x : ℝ) : EReal) ∧ (b = finite x → isOpen = false)

def BelowHi (b : Bound) (isOpen : Bool) (x : ℚ) : Prop :=
  ((x : ℝ) : EReal) ≤ b.toEReal ∧ (b = finite x → isOpen = false)

theorem mem_iff : I.Mem x ↔ AboveLo I.lo I.loOpen x ∧ BelowHi I.hi I.hiOpen x :=
  ⟨fun h => ⟨⟨h.lo, h.loClosed⟩, h.hi, h.hiClosed⟩, fun h => ⟨h.1.1, h.1.2, h.2.1, h.2.2⟩⟩

variable {b c : Bound} {o o' : Bool}

theorem aboveLo_of_lt (h : b.toEReal < c.toEReal) (hx : AboveLo c o' x) : AboveLo b o x := by
  have hlt := h.trans_le hx.1
  refine ⟨hlt.le, ?_⟩
  rintro rfl
  exact absurd hlt (lt_irrefl _)

theorem belowHi_of_lt (h : b.toEReal < c.toEReal) (hx : BelowHi b o x) : BelowHi c o' x := by
  have hlt := hx.1.trans_lt h
  refine ⟨hlt.le, ?_⟩
  rintro rfl
  exact absurd hlt (lt_irrefl _)

theorem aboveLo_or : AboveLo b (o || o') x ↔ AboveLo b o x ∧ AboveLo b o' x := by
  unfold AboveLo
  rw [Bool.or_eq_false_iff]
  tauto

theorem aboveLo_and : AboveLo b (o && o') x ↔ AboveLo b o x ∨ AboveLo b o' x := by
  unfold AboveLo
  rw [Bool.and_eq_false_iff]
  tauto

theorem belowHi_or : BelowHi b (o || o') x ↔ BelowHi b o x ∧ BelowHi b o' x := by
  unfold BelowHi
  rw [Bool.or_eq_false_iff]
  tauto

theorem belowHi_and : BelowHi b (o && o') x ↔ BelowHi b o x ∨ BelowHi b o' x := by
  unfold BelowHi
  rw [Bool.and_eq_false_iff]
  tauto

theorem mem_intersect : (I.intersect J).Mem x ↔ I.Mem x ∧ J.Mem x := by
  unfold intersect
  split
  · next hempty =>
    refine iff_of_false not_mem_empty fun h => ?_
    rw [Bool.or_eq_true] at hempty
    rcases hempty with hI | hJ
    · exact not_mem_of_isEmpty hI h.1
    · exact not_mem_of_isEmpty hJ h.2
  · rw [mem_iff, mem_iff, mem_iff, and_and_and_comm]
    refine and_congr ?_ ?_
    · cases hcmp : I.lo.cmpBound J.lo with
      | lt => exact (and_iff_right_of_imp (aboveLo_of_lt (cmpBound_lt.mp hcmp))).symm
      | gt => exact (and_iff_left_of_imp (aboveLo_of_lt (cmpBound_gt.mp hcmp))).symm
      | eq =>
        rw [← cmpBound_eq.mp hcmp]
        exact aboveLo_or
    · cases hcmp : I.hi.cmpBound J.hi with
      | lt => exact (and_iff_left_of_imp (belowHi_of_lt (cmpBound_lt.mp hcmp))).symm
      | gt => exact (and_iff_right_of_imp (belowHi_of_lt (cmpBound_gt.mp hcmp))).symm
      | eq =>
        rw [← cmpBound_eq.mp hcmp]
        exact belowHi_or

theorem cmpBound_swap (a b : Bound) : b.cmpBound a = (a.cmpBound b).swap := by
  cases h : a.cmpBound b with
  | lt => exact cmpBound_gt.mpr (cmpBound_lt.mp h)
  | eq => exact cmpBound_eq.mpr (cmpBound_eq.mp h).symm
  | gt => exact cmpBound_lt.mpr (cmpBound_gt.mp h)

theorem intersect_comm (I J : Interval) : I.intersect J = J.intersect I := by
  unfold intersect
  rw [Bool.or_comm J.isEmpty, cmpBound_swap I.lo, cmpBound_swap I.hi]
  congr 1
  cases hlo : I.lo.cmpBound J.lo <;> cases hhi : I.hi.cmpBound J.hi <;>
    simp_all [cmpBound_eq, Bool.or_comm]

theorem lo_le_hi (h : I.isEmpty = false) : I.lo.toEReal ≤ I.hi.toEReal := by
  rw [← Bool.not_eq_true, isEmpty_iff, not_or] at h
  exact not_lt.mp h.1

theorem le_of_not_belowHi (h : ¬ BelowHi b o x) : b.toEReal ≤ ((x : ℝ) : EReal) ∧ (b = finite x → o = true) := by
  unfold BelowHi at h
  by_cases hle : ((x : ℝ) : EReal) ≤ b.toEReal
  · simp only [hle, true_and, Classical.not_imp, Bool.not_eq_false] at h
    exact ⟨by rw [h.1, toEReal_finite], fun _ => h.2⟩
  · refine ⟨(not_le.mp hle).le, ?_⟩
    rintro rfl
    exact absurd le_rfl hle

theorem le_of_not_aboveLo (h : ¬ AboveLo b o x) : ((x : ℝ) : EReal) ≤ b.toEReal ∧ (b = finite x → o = true) := by
  unfold AboveLo at h
  by_cases hle : b.toEReal ≤ ((x : ℝ) : EReal)
  · simp only [hle, true_and, Classical.not_imp, Bool.not_eq_false] at h
    exact ⟨by rw [h.1, toEReal_finite], fun _ => h.2⟩
  · refine ⟨(not_le.mp hle).le, ?_⟩
    rintro rfl
    exact absurd le_rfl hle

theorem isEmpty_of_le (hhi : I.hi.toEReal ≤ ((x : ℝ) : EReal)) (hlo : ((x : ℝ) : EReal) ≤ I.lo.toEReal)
    (hopen : I.lo = finite x → I.loOpen = true) : I.isEmpty = true := by
  rw [isEmpty_iff]
  rcases (hhi.trans hlo).lt_or_eq with hlt | heq
  · exact .inl hlt
  · have hx : I.lo = finite x := toEReal_injective (le_antisymm (heq ▸ hhi) hlo)
    exact .inr ⟨toEReal_injective heq.symm, .inl (hopen hx)⟩

theorem intersect_isEmpty_of_between (hIx : ¬ BelowHi I.hi I.hiOpen x)
    (hJx : ¬ AboveLo J.lo J.loOpen x) : (I.intersect J).isEmpty = true := by
  obtain ⟨hIle, hIopen⟩ := le_of_not_belowHi hIx
  obtain ⟨hJle, hJopen⟩ := le_of_not_aboveLo hJx
  unfold intersect
  split
  · rfl
  · refine isEmpty_of_le (x := x) ?_ ?_ ?_
    · cases hcmp : I.hi.cmpBound J.hi with
      | lt => exact hIle
      | gt => exact (cmpBound_gt.mp hcmp).le.trans hIle
      | eq => exact hIle
    · cases hcmp : I.lo.cmpBound J.lo with
      | lt => exact hJle
      | gt => exact hJle.trans (cmpBound_gt.mp hcmp).le
      | eq => exact cmpBound_eq.mp hcmp ▸ hJle
    · cases hcmp : I.lo.cmpBound J.lo with
      | lt => exact hJopen
      | gt =>
        intro heq
        have hlt := hJle.trans_lt (cmpBound_gt.mp hcmp)
        rw [show I.lo = finite x from heq] at hlt
        exact absurd hlt (lt_irrefl _)
      | eq =>
        intro heq
        have hlo : J.lo = finite x := (cmpBound_eq.mp hcmp).symm.trans heq
        simp [hJopen hlo]

theorem not_contiguous_of_between (hI : I.isEmpty = false) (hJ : J.isEmpty = false)
    (hIx : ¬ BelowHi I.hi I.hiOpen x) (hJx : ¬ AboveLo J.lo J.loOpen x) :
    (I.hi == J.lo && (!I.hiOpen || !J.loOpen)) = false ∧
      (J.hi == I.lo && (!J.hiOpen || !I.loOpen)) = false := by
  obtain ⟨hIle, hIopen⟩ := le_of_not_belowHi hIx
  obtain ⟨hJle, hJopen⟩ := le_of_not_aboveLo hJx
  constructor
  · by_cases heq : I.hi = J.lo
    · have hx : I.hi = finite x := toEReal_injective (le_antisymm hIle (heq ▸ hJle))
      simp [hIopen hx, hJopen (heq ▸ hx)]
    · simp [heq]
  · by_cases heq : J.hi = I.lo
    · have hx : I.hi = finite x := by
        refine toEReal_injective (le_antisymm hIle ?_)
        calc ((x : ℝ) : EReal) ≤ J.lo.toEReal := hJle
          _ ≤ J.hi.toEReal := lo_le_hi hJ
          _ = I.lo.toEReal := by rw [heq]
          _ ≤ I.hi.toEReal := lo_le_hi hI
      have hlo : I.lo = I.hi := by
        refine toEReal_injective (le_antisymm (lo_le_hi hI) ?_)
        calc I.hi.toEReal ≤ (x : ℝ) := hIle
          _ ≤ J.lo.toEReal := hJle
          _ ≤ J.hi.toEReal := lo_le_hi hJ
          _ = I.lo.toEReal := by rw [heq]
      have hempty : I.isEmpty = true := isEmpty_iff.mpr (.inr ⟨hlo, .inr (hIopen hx)⟩)
      rw [hI] at hempty
      cases hempty
    · simp [heq]

theorem mem_union (h : I.union J = some K) : K.Mem x ↔ I.Mem x ∨ J.Mem x := by
  unfold union at h
  split at h
  · next hI =>
    cases h
    exact (or_iff_right (not_mem_of_isEmpty hI)).symm
  · split at h
    · next hJ =>
      cases h
      exact (or_iff_left (not_mem_of_isEmpty hJ)).symm
    · next hI hJ =>
      rw [Bool.not_eq_true] at hI hJ
      dsimp only at h
      split at h
      · cases h
      · next hcontiguous =>
        rw [Option.some.injEq] at h
        rw [← h, mem_iff, mem_iff, mem_iff]
        have hlo : ∀ p : Bound × Bool, (I.lo.cmpBound J.lo = .lt → p = (I.lo, I.loOpen)) →
            (I.lo.cmpBound J.lo = .gt → p = (J.lo, J.loOpen)) →
            (I.lo.cmpBound J.lo = .eq → p = (I.lo, I.loOpen && J.loOpen)) →
            (AboveLo p.1 p.2 x ↔ AboveLo I.lo I.loOpen x ∨ AboveLo J.lo J.loOpen x) := by
          intro p hlt hgt heq
          cases hcmp : I.lo.cmpBound J.lo with
          | lt =>
            rw [hlt hcmp]
            exact (or_iff_left_of_imp (aboveLo_of_lt (cmpBound_lt.mp hcmp))).symm
          | gt =>
            rw [hgt hcmp]
            exact (or_iff_right_of_imp (aboveLo_of_lt (cmpBound_gt.mp hcmp))).symm
          | eq =>
            rw [heq hcmp, ← cmpBound_eq.mp hcmp]
            exact aboveLo_and
        have hhi : ∀ p : Bound × Bool, (I.hi.cmpBound J.hi = .lt → p = (J.hi, J.hiOpen)) →
            (I.hi.cmpBound J.hi = .gt → p = (I.hi, I.hiOpen)) →
            (I.hi.cmpBound J.hi = .eq → p = (I.hi, I.hiOpen && J.hiOpen)) →
            (BelowHi p.1 p.2 x ↔ BelowHi I.hi I.hiOpen x ∨ BelowHi J.hi J.hiOpen x) := by
          intro p hlt hgt heq
          cases hcmp : I.hi.cmpBound J.hi with
          | lt =>
            rw [hlt hcmp]
            exact (or_iff_right_of_imp (belowHi_of_lt (cmpBound_lt.mp hcmp))).symm
          | gt =>
            rw [hgt hcmp]
            exact (or_iff_left_of_imp (belowHi_of_lt (cmpBound_gt.mp hcmp))).symm
          | eq =>
            rw [heq hcmp, ← cmpBound_eq.mp hcmp]
            exact belowHi_and
        refine (and_congr (hlo _ ?_ ?_ ?_) (hhi _ ?_ ?_ ?_)).trans ⟨?_, ?_⟩
        iterate 6
          · intro hcmp
            rw [hcmp]
        · rintro ⟨hlo, hhi⟩
          by_contra hneither
          apply hcontiguous
          -- the point is above one interval and below the other
          by_cases hIlo : AboveLo I.lo I.loOpen x
          · have hIhi : ¬ BelowHi I.hi I.hiOpen x := fun hb => hneither (.inl ⟨hIlo, hb⟩)
            have hJlo : ¬ AboveLo J.lo J.loOpen x :=
              fun ha => hneither (.inr ⟨ha, hhi.resolve_left hIhi⟩)
            obtain ⟨hleft, hright⟩ := not_contiguous_of_between hI hJ hIhi hJlo
            simp [hleft, hright, intersect_isEmpty_of_between hIhi hJlo]
          · have hJhi : ¬ BelowHi J.hi J.hiOpen x :=
              fun hb => hneither (.inr ⟨hlo.resolve_left hIlo, hb⟩)
            obtain ⟨hright, hleft⟩ := not_contiguous_of_between hJ hI hJhi hIlo
            simp [hleft, hright, intersect_comm I, intersect_isEmpty_of_between hJhi hIlo]
        · rintro (h | h)
          · exact ⟨.inl h.1, .inl h.2⟩
          · exact ⟨.inr h.1, .inr h.2⟩

end

end Interval

end Nixie.Math

namespace Nixie.Math

theorem powLoop_eq (result base : ℚ) (exp : ℕ) : Interval.powLoop result base exp = result * base ^ exp := by
  fun_induction Interval.powLoop result base exp with
  | case1 => simp
  | case2 result base exp hexp ih =>
    have hsplit : base ^ exp = (base * base) ^ (exp / 2) * base ^ (exp % 2) := by
      rw [← pow_two, ← pow_mul, ← pow_add, Nat.div_add_mod]
    rcases Nat.mod_two_eq_zero_or_one exp with hmod | hmod
    · simp only [hmod, pow_zero, mul_one, dite_eq_ite] at ih hsplit ⊢
      rw [hsplit]
      exact ih
    · simp only [hmod, pow_one, dite_eq_ite, if_true] at ih hsplit ⊢
      rw [ih, hsplit]
      ring

theorem powRational_eq (r : ℚ) (n : ℕ) : Interval.powRational r n = r ^ n := by
  unfold Interval.powRational
  split
  · next hn => rw [hn, pow_zero]
  · rw [powLoop_eq, one_mul]

namespace Interval

open Nixie.Math.Bound

variable {I : Interval} {x : ℚ} {n : ℕ}

section

variable {a b : ℚ} {o : Bool}

theorem aboveLo_finite : AboveLo (finite a) o x ↔ a ≤ x ∧ (a = x → o = false) := by
  rw [AboveLo, finite_le, Bound.finite.injEq]

theorem belowHi_finite : BelowHi (finite b) o x ↔ x ≤ b ∧ (b = x → o = false) := by
  rw [BelowHi, le_finite, Bound.finite.injEq]

theorem mem_atLeast : (atLeast a).Mem x ↔ a ≤ x := by
  rw [mem_iff]
  refine (and_iff_left ⟨le_top, fun h => by cases h⟩).trans ?_
  exact aboveLo_finite.trans (and_iff_left fun _ => rfl)

theorem mem_point : (point a).Mem x ↔ a = x := by
  rw [mem_iff]
  refine (and_congr aboveLo_finite belowHi_finite).trans ⟨fun h => le_antisymm h.1.1 h.2.1, ?_⟩
  rintro rfl
  exact ⟨⟨le_rfl, fun _ => rfl⟩, le_rfl, fun _ => rfl⟩

theorem pow_le_pow_tied {u v : ℚ} (hu : 0 ≤ u) (h : u ≤ v) (hn : n ≠ 0) : u ^ n ≤ v ^ n ∧ (u ^ n = v ^ n → u = v) :=
  ⟨pow_le_pow_left₀ hu h n, (pow_left_inj₀ hu (hu.trans h) hn).mp⟩

end

theorem pow_mem_straddling {a b : ℚ} (hn : Even n) (hn0 : n ≠ 0) (hlo : I.lo = finite a)
    (hhi : I.hi = finite b) (hx : I.Mem x) :
    (⟨finite 0, finite (powRational (max |a| |b|) n), false, I.loOpen && I.hiOpen⟩ : Interval).Mem
      (x ^ n) := by
  rw [mem_iff, hlo, hhi, aboveLo_finite, belowHi_finite] at hx
  obtain ⟨⟨hax, hloClosed⟩, hxb, hhiClosed⟩ := hx
  obtain ⟨hle, htied⟩ := pow_le_pow_tied (abs_nonneg x) (abs_le_max_abs_abs hax hxb) hn0
  rw [hn.pow_abs] at hle htied
  rw [mem_iff, powRational_eq, aboveLo_finite, belowHi_finite]
  refine ⟨⟨hn.pow_nonneg x, fun _ => rfl⟩, hle, fun heq => ?_⟩
  -- the largest absolute value is attained at an end, which is then closed
  have hmax := htied heq.symm
  rcases le_total 0 x with hx0 | hx0
  · rw [abs_of_nonneg hx0] at hmax
    have hb : b = x := le_antisymm ((le_abs_self b).trans (hmax ▸ le_max_right _ _)) hxb
    rw [hhiClosed hb, Bool.and_false]
  · rw [abs_of_nonpos hx0] at hmax
    have ha : a = x := by
      have hneg : -a ≤ -x := (neg_le_abs a).trans (hmax ▸ le_max_left _ _)
      exact le_antisymm hax (neg_le_neg_iff.mp hneg)
    rw [hloClosed ha, Bool.false_and]

theorem hi_of_not_isPositive (hx : I.Mem x) (hzero : ¬ I.Mem 0) (hpos : I.isPositive = false) :
    ∃ b, I.hi = finite b ∧ x ≤ b ∧ b ≤ 0 := by
  have hlo : AboveLo I.lo I.loOpen 0 := by
    rcases hx.lo_cases with hlo | ⟨a, hlo, hax⟩
    · rw [hlo]
      exact ⟨bot_le, fun h => by cases h⟩
    · rw [hlo, aboveLo_finite]
      simp only [isPositive, hlo] at hpos
      split_ifs at hpos with hlt heq
      · exact ⟨heq.le, fun _ => hpos⟩
      · exact ⟨not_lt.mp hlt, fun h => absurd h heq⟩
  have hhi := (le_of_not_belowHi fun hb => hzero (mem_iff.mpr ⟨hlo, hb⟩)).1
  rcases hx.hi_cases with hI | ⟨b, hI, hxb⟩
  · rw [hI] at hhi
    exact absurd hhi (not_le.mpr (EReal.coe_lt_top _))
  · rw [hI, finite_le] at hhi
    exact ⟨b, hI, hxb, hhi⟩

theorem lo_of_isPositive (hx : I.Mem x) (hpos : I.isPositive = true) : ∃ a, I.lo = finite a ∧ 0 ≤ a ∧ a ≤ x := by
  rcases hx.lo_cases with hlo | ⟨a, hlo, hax⟩
  · rw [isPositive, hlo] at hpos
    cases hpos
  · refine ⟨a, hlo, ?_, hax⟩
    simp only [isPositive, hlo] at hpos
    split_ifs at hpos with hlt heq
    · exact hlt.le
    · exact heq.ge

theorem pow_mem_even (hn : Even n) (hn0 : n ≠ 0) (hn1 : n ≠ 1) (hx : I.Mem x) :
    ∃ K, I.pow n = some K ∧ K.Mem (x ^ n) := by
  have hnonneg : (atLeast 0).Mem (x ^ n) := mem_atLeast.mpr (hn.pow_nonneg x)
  unfold pow
  simp only [hx.not_isEmpty, Bool.false_eq_true, hn0, hn1, Nat.even_iff.mp hn, if_false, if_true]
  split
  · rcases hx.lo_cases with hlo | ⟨a, hlo, hax⟩
    · rw [hlo]
      exact ⟨_, rfl, hnonneg⟩
    · rcases hx.hi_cases with hhi | ⟨b, hhi, hxb⟩
      · rw [hlo, hhi]
        exact ⟨_, rfl, hnonneg⟩
      · rw [hlo, hhi]
        exact ⟨_, rfl, pow_mem_straddling hn hn0 hlo hhi hx⟩
  · next hzero =>
    rw [containsZero, contains_iff] at hzero
    have hx' := mem_iff.mp hx
    split
    · next hpos =>
      obtain ⟨a, hlo, ha0, hax⟩ := lo_of_isPositive hx hpos
      obtain ⟨hle, htied⟩ := pow_le_pow_tied ha0 hax hn0
      rw [hlo, aboveLo_finite] at hx'
      rcases hx.hi_cases with hhi | ⟨b, hhi, hxb⟩
      · rw [hlo, hhi]
        refine ⟨_, rfl, ?_⟩
        rw [powRational_eq]
        exact mem_atLeast.mpr hle
      · obtain ⟨hle', htied'⟩ := pow_le_pow_tied (ha0.trans hax) hxb hn0
        rw [hhi, belowHi_finite] at hx'
        rw [hlo, hhi]
        refine ⟨_, rfl, ?_⟩
        rw [mem_iff, powRational_eq, powRational_eq, aboveLo_finite, belowHi_finite]
        exact ⟨⟨hle, fun h => hx'.1.2 (htied h)⟩, hle', fun h => hx'.2.2 (htied' h.symm).symm⟩
    · next hpos =>
      obtain ⟨b, hhi, hxb, hb0⟩ := hi_of_not_isPositive hx hzero (Bool.not_eq_true _ ▸ hpos)
      obtain ⟨hle, htied⟩ := pow_le_pow_tied (neg_nonneg.mpr hb0) (neg_le_neg hxb) hn0
      simp only [hn.neg_pow, neg_inj] at hle htied
      rw [hhi, belowHi_finite] at hx'
      rcases hx.lo_cases with hlo | ⟨a, hlo, hax⟩
      · rw [hlo, hhi]
        refine ⟨_, rfl, ?_⟩
        rw [powRational_eq]
        exact mem_atLeast.mpr hle
      · obtain ⟨hle', htied'⟩ :=
          pow_le_pow_tied (neg_nonneg.mpr (hxb.trans hb0)) (neg_le_neg hax) hn0
        simp only [hn.neg_pow, neg_inj] at hle' htied'
        rw [hlo, aboveLo_finite] at hx'
        rw [hlo, hhi]
        refine ⟨_, rfl, ?_⟩
        rw [mem_iff, powRational_eq, powRational_eq, aboveLo_finite, belowHi_finite]
        exact ⟨⟨hle, fun h => hx'.2.2 (htied h)⟩, hle', fun h => hx'.1.2 (htied' h.symm).symm⟩

theorem pow_mem_odd (hn : Odd n) (hn1 : n ≠ 1) (hx : I.Mem x) : ∃ K, I.pow n = some K ∧ K.Mem (x ^ n) := by
  have hn0 : n ≠ 0 := by
    rintro rfl
    exact absurd hn (by decide)
  have hmono : StrictMono fun u : ℚ => u ^ n := hn.strictMono_pow
  have hmod : ¬ n % 2 = 0 := by
    rw [Nat.odd_iff.mp hn]
    decide
  have hx' := mem_iff.mp hx
  unfold pow
  simp only [hx.not_isEmpty, Bool.false_eq_true, hn0, hn1, hmod, if_false]
  refine ⟨_, rfl, mem_iff.mpr ⟨?_, ?_⟩⟩
  · rcases hx.lo_cases with hlo | ⟨a, hlo, hax⟩
    · rw [hlo]
      exact ⟨bot_le, fun h => by cases h⟩
    · rw [hlo, aboveLo_finite] at hx'
      rw [hlo, powEnd, powRational_eq, aboveLo_finite]
      exact ⟨hmono.monotone hax, fun h => hx'.1.2 (hmono.injective h)⟩
  · rcases hx.hi_cases with hhi | ⟨b, hhi, hxb⟩
    · rw [hhi]
      exact ⟨le_top, fun h => by cases h⟩
    · rw [hhi, belowHi_finite] at hx'
      rw [hhi, powEnd, powRational_eq, belowHi_finite]
      exact ⟨hmono.monotone hxb, fun h => hx'.2.2 (hmono.injective h)⟩

theorem Mem.pow (hx : I.Mem x) (n : ℕ) : ∃ K, I.pow n = some K ∧ K.Mem (x ^ n) := by
  by_cases hn0 : n = 0
  · refine ⟨point 1, by simp [Interval.pow, hx.not_isEmpty, hn0], mem_point.mpr ?_⟩
    rw [hn0, pow_zero]
  · by_cases hn1 : n = 1
    · refine ⟨I, by simp [Interval.pow, hx.not_isEmpty, hn1], ?_⟩
      rwa [hn1, pow_one]
    · rcases Nat.even_or_odd n with hn | hn
      · exact pow_mem_even hn hn0 hn1 hx
      · exact pow_mem_odd hn hn1 hx

end Interval

end Nixie.Math
