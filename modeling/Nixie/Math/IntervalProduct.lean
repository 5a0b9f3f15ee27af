import Nixie.Math.IntervalSums

namespace Nixie.Math

open List

namespace Interval

open Nixie.Math.Bound

section

variable {r : Bound → Bound → Prop} {l : List (Bound × Bool)}

theorem all_takeWhile_tied {v : Bound} (hanti : ∀ a b, r a b → r b a → a = b)
    (hsorted : l.Pairwise fun p q => r p.1 q.1) (hleast : ∀ p ∈ l, r v p.1) :
    (l.takeWhile fun p => p.1.cmpBound v == .eq).all Prod.snd = true ↔ ∀ p ∈ l, p.1 = v → p.2 = true := by
  induction l with
  | nil => simp
  | cons p l ih =>
    rw [pairwise_cons] at hsorted
    obtain ⟨hp, hsorted⟩ := hsorted
    have hleast' : ∀ q ∈ l, r v q.1 := fun q hq => hleast q (mem_cons_of_mem p hq)
    by_cases htied : p.1 = v
    · have hcmp : (p.1.cmpBound v == .eq) = true := by simpa using cmpBound_eq.mpr htied
      rw [takeWhile_cons, if_pos hcmp, all_cons, Bool.and_eq_true, ih hsorted hleast', forall_mem_cons]
      exact and_congr_left fun _ => (imp_iff_right htied).symm
    · have hcmp : ¬ (p.1.cmpBound v == .eq) = true := by simpa [cmpBound_eq] using htied
      rw [takeWhile_cons, if_neg hcmp]
      refine iff_of_true rfl fun q hq hqv => ?_
      rcases mem_cons.mp hq with rfl | hq
      · exact absurd hqv htied
      · exact absurd (hanti _ _ (hqv ▸ hp q hq) (hleast p mem_cons_self)) htied

theorem extremum_spec (hrefl : ∀ a, r a a) (hanti : ∀ a b, r a b → r b a → a = b)
    (hsorted : l.Pairwise fun p q => r p.1 q.1) (hne : l ≠ []) :
    (∃ p ∈ l, p.1 = (extremum l).1) ∧ (∀ p ∈ l, r (extremum l).1 p.1) ∧
    ((extremum l).2 = true ↔ ∀ p ∈ l, p.1 = (extremum l).1 → p.2 = true) := by
  cases l with
  | nil => exact absurd rfl hne
  | cons b l =>
    have hleast : ∀ p ∈ b :: l, r b.1 p.1 := by
      intro p hp
      rcases mem_cons.mp hp with rfl | hp
      · exact hrefl _
      · exact (pairwise_cons.mp hsorted).1 p hp
    exact ⟨⟨b, mem_cons_self, rfl⟩, hleast, all_takeWhile_tied hanti hsorted hleast⟩

end

variable {I J K : Interval} {x y : ℚ}

theorem mul_of_not_isEmpty (hI : I.isEmpty = false) (hJ : J.isEmpty = false) :
    let bounds := (products I J).mergeSort fun a b => a.1.cmpBound b.1 != .gt
    I.mul J = ⟨(extremum bounds).1, (extremum bounds.reverse).1, (extremum bounds).2,
      (extremum bounds.reverse).2⟩ := by
  simp [mul, hI, hJ]

variable {b : Bound}

theorem not_gt_iff {a : Bound} : (a.cmpBound b != .gt) = true ↔ a.toEReal ≤ b.toEReal := by
  rw [bne_iff_ne, ne_eq, cmpBound_gt, not_lt]

theorem sorted_products (I J : Interval) :
    ((products I J).mergeSort fun a b => a.1.cmpBound b.1 != .gt).Pairwise fun p q => p.1.toEReal ≤ q.1.toEReal := by
  have h := @pairwise_mergeSort (Bound × Bool) (fun a b => a.1.cmpBound b.1 != .gt)
    (fun a b c hab hbc => not_gt_iff.mpr ((not_gt_iff.mp hab).trans (not_gt_iff.mp hbc)))
    (fun a b => by
      rw [Bool.or_eq_true, not_gt_iff, not_gt_iff]
      exact le_total _ _) (products I J)
  exact h.imp not_gt_iff.mp

theorem mul_lo_spec (hI : I.isEmpty = false) (hJ : J.isEmpty = false) :
    (∃ p ∈ products I J, p.1 = (I.mul J).lo) ∧ (∀ p ∈ products I J, (I.mul J).lo.toEReal ≤ p.1.toEReal) ∧
    ((I.mul J).loOpen = true ↔ ∀ p ∈ products I J, p.1 = (I.mul J).lo → p.2 = true) := by
  rw [mul_of_not_isEmpty hI hJ]
  have h := extremum_spec (r := fun a b => a.toEReal ≤ b.toEReal) (fun _ => le_rfl)
    (fun a b hab hba => toEReal_injective (le_antisymm hab hba)) (sorted_products I J)
    (by simp [← length_pos_iff, products])
  simpa only [mem_mergeSort] using h

theorem mul_hi_spec (hI : I.isEmpty = false) (hJ : J.isEmpty = false) :
    (∃ p ∈ products I J, p.1 = (I.mul J).hi) ∧ (∀ p ∈ products I J, p.1.toEReal ≤ (I.mul J).hi.toEReal) ∧
    ((I.mul J).hiOpen = true ↔ ∀ p ∈ products I J, p.1 = (I.mul J).hi → p.2 = true) := by
  rw [mul_of_not_isEmpty hI hJ]
  have h := extremum_spec (r := fun a b => b.toEReal ≤ a.toEReal) (fun _ => le_rfl)
    (fun a b hab hba => toEReal_injective (le_antisymm hba hab))
    (pairwise_reverse.mpr (sorted_products I J)) (by simp [← length_pos_iff, products])
  simpa only [mem_reverse, mem_mergeSort] using h

theorem exists_products {P : Bound → Prop} : (∃ p ∈ products I J, P p.1) ↔
    P (I.lo.mul J.lo) ∨ P (I.lo.mul J.hi) ∨ P (I.hi.mul J.lo) ∨ P (I.hi.mul J.hi) := by
  simp [products]

theorem forall_products {P : Bound → Prop} : (∀ p ∈ products I J, P p.1) ↔
    P (I.lo.mul J.lo) ∧ P (I.lo.mul J.hi) ∧ P (I.hi.mul J.lo) ∧ P (I.hi.mul J.hi) := by
  simp [products]

theorem Mem.exists_corner_le (hx : I.Mem x) (hy : J.Mem y) : ∃ p ∈ products I J, p.1.toEReal ≤ ((x * y : ℚ) : ℝ) := by
  rw [exists_products (P := fun b => b.toEReal ≤ ((x * y : ℚ) : ℝ))]
  simp only [toEReal_mul, Rat.cast_mul, EReal.coe_mul]
  exact Corners.corner_le hx.lo hx.hi hy.lo hy.hi

theorem Mem.exists_le_corner (hx : I.Mem x) (hy : J.Mem y) :
    ∃ p ∈ products I J, (((x * y : ℚ) : ℝ) : EReal) ≤ p.1.toEReal := by
  rw [exists_products (P := fun b => (((x * y : ℚ) : ℝ) : EReal) ≤ b.toEReal)]
  simp only [toEReal_mul, Rat.cast_mul, EReal.coe_mul]
  exact Corners.le_corner hx.lo hx.hi hy.lo hy.hi

theorem eq_finite_of_coe (h : ((x : ℝ) : EReal) = b.toEReal) : b = finite x := toEReal_injective h.symm

theorem Mem.closed_corner (hx : I.Mem x) (hy : J.Mem y)
    (hxend : ((x : ℝ) : EReal) = I.lo.toEReal ∨ ((x : ℝ) : EReal) = I.hi.toEReal)
    (hyend : ((y : ℝ) : EReal) = J.lo.toEReal ∨ ((y : ℝ) : EReal) = J.hi.toEReal) :
    (finite (x * y), false) ∈ products I J := by
  rcases hxend with hxlo | hxhi
  · have hI := eq_finite_of_coe hxlo
    rcases hyend with hylo | hyhi
    · have hJ := eq_finite_of_coe hylo
      simp [products, hx.loClosed hI, hy.loClosed hJ, hI, hJ, Bound.mul]
    · have hJ := eq_finite_of_coe hyhi
      simp [products, hx.loClosed hI, hy.hiClosed hJ, hI, hJ, Bound.mul]
  · have hI := eq_finite_of_coe hxhi
    rcases hyend with hylo | hyhi
    · have hJ := eq_finite_of_coe hylo
      simp [products, hx.hiClosed hI, hy.loClosed hJ, hI, hJ, Bound.mul]
    · have hJ := eq_finite_of_coe hyhi
      simp [products, hx.hiClosed hI, hy.hiClosed hJ, hI, hJ, Bound.mul]

theorem Mem.closed_corner_of_least (hx : I.Mem x) (hy : J.Mem y) (hne : x * y ≠ 0)
    (hleast : ∀ p ∈ products I J, (((x * y : ℚ) : ℝ) : EReal) ≤ p.1.toEReal) :
    (finite (x * y), false) ∈ products I J := by
  rw [forall_products (P := fun b => (((x * y : ℚ) : ℝ) : EReal) ≤ b.toEReal)] at hleast
  simp only [toEReal_mul, Rat.cast_mul, EReal.coe_mul] at hleast
  have hne' : (x : ℝ) * y ≠ 0 := by exact_mod_cast hne
  obtain ⟨hxend, hyend⟩ := Corners.corner_eq_of_le hx.lo hx.hi hy.lo hy.hi hne' hleast.1
    hleast.2.1 hleast.2.2.1 hleast.2.2.2
  exact hx.closed_corner hy hxend hyend

theorem Mem.closed_corner_of_greatest (hx : I.Mem x) (hy : J.Mem y) (hne : x * y ≠ 0)
    (hgreatest : ∀ p ∈ products I J, p.1.toEReal ≤ ((x * y : ℚ) : ℝ)) : (finite (x * y), false) ∈ products I J := by
  rw [forall_products (P := fun b => b.toEReal ≤ ((x * y : ℚ) : ℝ))] at hgreatest
  simp only [toEReal_mul, Rat.cast_mul, EReal.coe_mul] at hgreatest
  have hne' : (x : ℝ) * y ≠ 0 := by exact_mod_cast hne
  obtain ⟨hxend, hyend⟩ := Corners.corner_eq_of_ge hx.lo hx.hi hy.lo hy.hi hne' hgreatest.1
    hgreatest.2.1 hgreatest.2.2.1 hgreatest.2.2.2
  exact hx.closed_corner hy hxend hyend

@[simp] theorem negate_negate (I : Interval) : I.negate.negate = I := by
  obtain ⟨lo, hi, loOpen, hiOpen⟩ := I
  cases lo <;> cases hi <;> simp [negate, Bound.negate]

theorem exists_neg_of_end (hw : I.Mem x) (hend : b = I.lo ∨ b = I.hi) (hb : b.toEReal < 0) : ∃ w, I.Mem w ∧
    w < 0 := by
  rcases hend with rfl | rfl
  · by_cases hx : x < 0
    · exact ⟨x, hw, hx⟩
    · obtain ⟨w, hlow, hw0⟩ := EReal.exists_rat_btwn_of_lt hb
      rw [← EReal.coe_zero, EReal.coe_lt_coe_iff, Rat.cast_lt_zero] at hw0
      have hlt : ((w : ℝ) : EReal) < I.hi.toEReal := by
        refine lt_of_lt_of_le ?_ hw.hi
        exact_mod_cast hw0.trans_le (not_lt.mp hx)
      refine ⟨w, ⟨hlow.le, fun heq => ?_, hlt.le, fun heq => ?_⟩, hw0⟩
      · rw [heq] at hlow
        exact absurd hlow (lt_irrefl _)
      · rw [heq] at hlt
        exact absurd hlt (lt_irrefl _)
  · have hlt := hw.hi.trans_lt hb
    rw [← EReal.coe_zero, EReal.coe_lt_coe_iff, Rat.cast_lt_zero] at hlt
    exact ⟨x, hw, hlt⟩

theorem exists_pos_of_end (hw : I.Mem x) (hend : b = I.lo ∨ b = I.hi) (hb : 0 < b.toEReal) : ∃ w, I.Mem w ∧
    0 < w := by
  have hend' : b.negate = I.negate.lo ∨ b.negate = I.negate.hi := by
    rcases hend with rfl | rfl
    · exact .inr rfl
    · exact .inl rfl
  have hb' : b.negate.toEReal < 0 := by
    rw [toEReal_negate]
    exact EReal.neg_lt_comm.mpr (by simpa using hb)
  obtain ⟨w, hw, hneg⟩ := exists_neg_of_end hw.negate hend' hb'
  have hww := hw.negate
  rw [negate_negate] at hww
  exact ⟨-w, hww, neg_pos.mpr hneg⟩

variable {p : Bound × Bool}

theorem exists_ends (hp : p ∈ products I J) : ∃ a b, (a = I.lo ∨ a = I.hi) ∧ (b = J.lo ∨ b = J.hi) ∧
    p.1 = a.mul b := by
  simp only [products, mem_cons, not_mem_nil, or_false] at hp
  rcases hp with rfl | rfl | rfl | rfl
  · exact ⟨_, _, .inl rfl, .inl rfl, rfl⟩
  · exact ⟨_, _, .inl rfl, .inr rfl, rfl⟩
  · exact ⟨_, _, .inr rfl, .inl rfl, rfl⟩
  · exact ⟨_, _, .inr rfl, .inr rfl, rfl⟩

theorem exists_neg_of_corner (hx : I.Mem x) (hy : J.Mem y) (hp : p ∈ products I J) (hneg : p.1.toEReal < 0) :
    ∃ u v, I.Mem u ∧ J.Mem v ∧ u * v < 0 := by
  obtain ⟨a, b, ha, hb, hab⟩ := exists_ends hp
  rw [hab, toEReal_mul, EReal.mul_neg_iff] at hneg
  rcases hneg with ⟨hpos, hneg⟩ | ⟨hneg, hpos⟩
  · obtain ⟨u, hu, hu0⟩ := exists_pos_of_end hx ha hpos
    obtain ⟨v, hv, hv0⟩ := exists_neg_of_end hy hb hneg
    exact ⟨u, v, hu, hv, mul_neg_of_pos_of_neg hu0 hv0⟩
  · obtain ⟨u, hu, hu0⟩ := exists_neg_of_end hx ha hneg
    obtain ⟨v, hv, hv0⟩ := exists_pos_of_end hy hb hpos
    exact ⟨u, v, hu, hv, mul_neg_of_neg_of_pos hu0 hv0⟩

theorem exists_pos_of_corner (hx : I.Mem x) (hy : J.Mem y) (hp : p ∈ products I J) (hpos : 0 < p.1.toEReal) :
    ∃ u v, I.Mem u ∧ J.Mem v ∧ 0 < u * v := by
  obtain ⟨a, b, ha, hb, hab⟩ := exists_ends hp
  rw [hab, toEReal_mul, EReal.mul_pos_iff] at hpos
  rcases hpos with ⟨hapos, hbpos⟩ | ⟨haneg, hbneg⟩
  · obtain ⟨u, hu, hu0⟩ := exists_pos_of_end hx ha hapos
    obtain ⟨v, hv, hv0⟩ := exists_pos_of_end hy hb hbpos
    exact ⟨u, v, hu, hv, mul_pos hu0 hv0⟩
  · obtain ⟨u, hu, hu0⟩ := exists_neg_of_end hx ha haneg
    obtain ⟨v, hv, hv0⟩ := exists_neg_of_end hy hb hbneg
    exact ⟨u, v, hu, hv, mul_pos_of_neg_of_neg hu0 hv0⟩

def closedEnds (I : Interval) : List Bound :=
  (if I.loOpen then [] else [I.lo]) ++ if I.hiOpen then [] else [I.hi]

theorem closed_zero_corner : (finite 0, false) ∈ products I J ↔
    ∃ a ∈ I.closedEnds, ∃ b ∈ J.closedEnds, a.mul b = finite 0 := by
  have hflip {b : Bound} : finite 0 = b ↔ b = finite 0 := eq_comm
  unfold products closedEnds
  cases I.loOpen <;> cases I.hiOpen <;> cases J.loOpen <;> cases J.hiOpen <;> simp [hflip, or_assoc]

def BothSigns (I J : Interval) : Prop :=
  (∃ u v, I.Mem u ∧ J.Mem v ∧ u * v < 0) ∧ ∃ u v, I.Mem u ∧ J.Mem v ∧ 0 < u * v

theorem mul_lo_closed (hI : I.isEmpty = false) (hJ : J.isEmpty = false) (hcorner : (finite x, false) ∈ products I J)
    (hlo : (I.mul J).lo = finite x) : (I.mul J).loOpen = false := by
  rw [← Bool.not_eq_true, (mul_lo_spec hI hJ).2.2]
  intro hopen
  cases hopen _ hcorner hlo.symm

theorem mul_hi_closed (hI : I.isEmpty = false) (hJ : J.isEmpty = false) (hcorner : (finite x, false) ∈ products I J)
    (hhi : (I.mul J).hi = finite x) : (I.mul J).hiOpen = false := by
  rw [← Bool.not_eq_true, (mul_hi_spec hI hJ).2.2]
  intro hopen
  cases hopen _ hcorner hhi.symm

theorem Mem.mul_lo_le (hx : I.Mem x) (hy : J.Mem y) : (I.mul J).lo.toEReal ≤ ((x * y : ℚ) : ℝ) := by
  obtain ⟨p, hp, hle⟩ := hx.exists_corner_le hy
  exact ((mul_lo_spec hx.not_isEmpty hy.not_isEmpty).2.1 p hp).trans hle

theorem Mem.le_mul_hi (hx : I.Mem x) (hy : J.Mem y) : (((x * y : ℚ) : ℝ) : EReal) ≤ (I.mul J).hi.toEReal := by
  obtain ⟨p, hp, hle⟩ := hx.exists_le_corner hy
  exact hle.trans ((mul_hi_spec hx.not_isEmpty hy.not_isEmpty).2.1 p hp)

theorem Mem.mul (hx : I.Mem x) (hy : J.Mem y) (hzero : x * y = 0 → BothSigns I J ∨ (finite 0, false) ∈ products I J) :
    (I.mul J).Mem (x * y) := by
  have hI := hx.not_isEmpty
  have hJ := hy.not_isEmpty
  refine ⟨hx.mul_lo_le hy, fun hlo => ?_, hx.le_mul_hi hy, fun hhi => ?_⟩
  · by_cases hxy : x * y = 0
    · rcases hzero hxy with ⟨⟨u, v, hu, hv, huv⟩, -⟩ | hcorner
      · have hle := hu.mul_lo_le hv
        rw [hlo, hxy, finite_le] at hle
        exact absurd huv (not_lt.mpr hle)
      · exact mul_lo_closed hI hJ hcorner (hxy ▸ hlo)
    · refine mul_lo_closed hI hJ (hx.closed_corner_of_least hy hxy fun p hp => ?_) hlo
      have hle := (mul_lo_spec hI hJ).2.1 p hp
      rwa [hlo] at hle
  · by_cases hxy : x * y = 0
    · rcases hzero hxy with ⟨-, u, v, hu, hv, huv⟩ | hcorner
      · have hle := hu.le_mul_hi hv
        rw [hhi, hxy, le_finite] at hle
        exact absurd huv (not_lt.mpr hle)
      · exact mul_hi_closed hI hJ hcorner (hxy ▸ hhi)
    · refine mul_hi_closed hI hJ (hx.closed_corner_of_greatest hy hxy fun p hp => ?_) hhi
      have hle := (mul_hi_spec hI hJ).2.1 p hp
      rwa [hhi] at hle

theorem not_mem_mul_zero (hx : I.Mem x) (hy : J.Mem y) (hsigns : ¬ BothSigns I J)
    (hcorner : (finite 0, false) ∉ products I J) : ¬ (I.mul J).Mem 0 := by
  have hI := hx.not_isEmpty
  have hJ := hy.not_isEmpty
  have hopen : ∀ p ∈ products I J, p.1 = finite 0 → p.2 = true := by
    intro p hp hp0
    by_contra hclosed
    rw [Bool.not_eq_true] at hclosed
    exact hcorner (hp0 ▸ hclosed ▸ hp)
  intro hmem
  rw [BothSigns, not_and_or] at hsigns
  rcases hsigns with hneg | hpos
  · obtain ⟨⟨p, hp, hplo⟩, -, hloOpen⟩ := mul_lo_spec hI hJ
    have hlo : (I.mul J).lo = finite 0 := by
      refine toEReal_injective (le_antisymm hmem.lo ?_)
      by_contra hlt
      rw [← hplo] at hlt
      exact hneg (exists_neg_of_corner hx hy hp (by simpa using hlt))
    rw [hlo] at hloOpen
    have hclosed := hmem.loClosed hlo
    rw [hloOpen.mpr hopen] at hclosed
    cases hclosed
  · obtain ⟨⟨p, hp, hphi⟩, -, hhiOpen⟩ := mul_hi_spec hI hJ
    have hhi : (I.mul J).hi = finite 0 := by
      refine toEReal_injective (le_antisymm ?_ hmem.hi)
      by_contra hlt
      rw [← hphi] at hlt
      exact hpos (exists_pos_of_corner hx hy hp (by simpa using hlt))
    rw [hhi] at hhiOpen
    have hclosed := hmem.hiClosed hhi
    rw [hhiOpen.mpr hopen] at hclosed
    cases hclosed

end Interval

end Nixie.Math
