import Mathlib.Algebra.Order.Ring.Pow
import Nixie.Corners
import Nixie.Nla.MonomialBounds

/-!
Propagation over a monic keeps every point of the intervals whose product is the monic's value.
-/

namespace Nixie.Nla

open Arithmetic Option List EReal Nixie.Nla.Interval Ext Nixie.Nla.Bound

variable {x y : ℝ} {I J K : Interval} {e : ℕ}

noncomputable def Bound.real (b : Bound) : ℝ := (b.value.value : ℝ)

@[simp] theorem Bound.real_new (v : Rational64) (r : List ℕ) : (new v r).real = (v.value : ℝ) := rfl

structure Interval.Mem (I : Interval) (x : ℝ) : Prop where
  lo : ∀ b ∈ I.lo, b.real ≤ x
  hi : ∀ b ∈ I.hi, x ≤ b.real

namespace Ext

variable {a b c : Ext}

noncomputable def toEReal : Ext → EReal
  | negInf => ⊥
  | fin v _ => ((v.value : ℝ) : EReal)
  | posInf => ⊤

@[simp] theorem toEReal_fin (v : Rational64) (r : List ℕ) : (fin v r).toEReal = ((v.value : ℝ) : EReal) := rfl
@[simp] theorem toEReal_negInf : negInf.toEReal = ⊥ := rfl
@[simp] theorem toEReal_posInf : posInf.toEReal = ⊤ := rfl

theorem cmp_eq_compare (a b : Ext) :
    (a.cmp b = .lt ↔ a.toEReal < b.toEReal) ∧ (a.cmp b = .gt ↔ b.toEReal < a.toEReal) := by
  cases a <;> cases b <;>
    simp [cmp, compare_lt_iff_lt, compare_gt_iff_gt, bot_lt_coe, coe_lt_top]

theorem cmp_lt : a.cmp b = .lt ↔ a.toEReal < b.toEReal := (cmp_eq_compare a b).1
theorem cmp_gt : a.cmp b = .gt ↔ b.toEReal < a.toEReal := (cmp_eq_compare a b).2

theorem toEReal_mulInf {v : Rational64} {r : List ℕ} (h : b = negInf ∨ b = posInf) :
    (mulInf v r b).toEReal = ((v.value : ℝ) : EReal) * b.toEReal := by
  unfold mulInf
  split_ifs with hzero
  · rw [Rational64.value_eq_zero.mpr hzero, Rat.cast_zero, coe_zero, zero_mul, toEReal_fin,
      Rational64.value_zero, Rat.cast_zero, coe_zero]
  · have hne : v.value ≠ 0 := fun h => hzero (Rational64.value_eq_zero.mp h)
    rcases lt_or_gt_of_ne hne with hneg | hpos
    · have hreal : ((v.value : ℚ) : ℝ) < 0 := by exact_mod_cast hneg
      rw [decide_eq_true hneg]
      rcases h with rfl | rfl
      · exact (coe_mul_bot_of_neg hreal).symm
      · exact (coe_mul_top_of_neg hreal).symm
    · have hreal : (0 : ℝ) < ((v.value : ℚ) : ℝ) := by exact_mod_cast hpos
      rw [decide_eq_false hpos.not_gt]
      rcases h with rfl | rfl
      · exact (coe_mul_bot_of_pos hreal).symm
      · exact (coe_mul_top_of_pos hreal).symm

theorem toEReal_mul (h : a.mul b = some c) : c.toEReal = a.toEReal * b.toEReal := by
  cases a with
  | fin x rx =>
    cases b with
    | fin y ry =>
      obtain ⟨p, hp, rfl⟩ := map_eq_some_iff.mp h
      rw [toEReal_fin, value_checkedMulR64 hp, toEReal_fin, toEReal_fin, Rat.cast_mul, coe_mul]
    | negInf =>
      obtain rfl := some.inj h
      exact toEReal_mulInf (.inl rfl)
    | posInf =>
      obtain rfl := some.inj h
      exact toEReal_mulInf (.inr rfl)
  | negInf =>
    cases b with
    | fin y ry =>
      obtain rfl := some.inj h
      rw [mul_comm]
      exact toEReal_mulInf (.inl rfl)
    | negInf => obtain rfl := some.inj h; rfl
    | posInf => obtain rfl := some.inj h; rfl
  | posInf =>
    cases b with
    | fin y ry =>
      obtain rfl := some.inj h
      rw [mul_comm]
      exact toEReal_mulInf (.inr rfl)
    | negInf => obtain rfl := some.inj h; rfl
    | posInf => obtain rfl := some.inj h; rfl

theorem foldl_min_le (cands : List Ext) (best : Ext) :
    (cands.foldl (fun best c => if c.cmp best = .lt then c else best) best).toEReal ≤ best.toEReal ∧
      ∀ c ∈ cands, (cands.foldl (fun best c => if c.cmp best = .lt then c else best) best).toEReal ≤ c.toEReal := by
  induction cands generalizing best with
  | nil => exact ⟨le_rfl, fun c hc => absurd hc not_mem_nil⟩
  | cons c cands ih =>
    rw [foldl_cons]
    obtain ⟨hbest, hall⟩ := ih (if c.cmp best = .lt then c else best)
    have hstep : (if c.cmp best = .lt then c else best).toEReal ≤ best.toEReal ∧
        (if c.cmp best = .lt then c else best).toEReal ≤ c.toEReal := by
      split_ifs with hlt
      · exact ⟨(cmp_lt.mp hlt).le, le_rfl⟩
      · exact ⟨le_rfl, not_lt.mp fun h => hlt (cmp_lt.mpr h)⟩
    exact ⟨hbest.trans hstep.1, List.forall_mem_cons.mpr ⟨hbest.trans hstep.2, hall⟩⟩

theorem le_foldl_max (cands : List Ext) (best : Ext) :
    best.toEReal ≤ (cands.foldl (fun best c => if c.cmp best = .gt then c else best) best).toEReal ∧
      ∀ c ∈ cands, c.toEReal ≤ (cands.foldl (fun best c => if c.cmp best = .gt then c else best) best).toEReal := by
  induction cands generalizing best with
  | nil => exact ⟨le_rfl, fun c hc => absurd hc not_mem_nil⟩
  | cons c cands ih =>
    rw [foldl_cons]
    obtain ⟨hbest, hall⟩ := ih (if c.cmp best = .gt then c else best)
    have hstep : best.toEReal ≤ (if c.cmp best = .gt then c else best).toEReal ∧
        c.toEReal ≤ (if c.cmp best = .gt then c else best).toEReal := by
      split_ifs with hgt
      · exact ⟨(cmp_gt.mp hgt).le, le_rfl⟩
      · exact ⟨le_rfl, not_lt.mp fun h => hgt (cmp_gt.mpr h)⟩
    exact ⟨hstep.1.trans hbest, List.forall_mem_cons.mpr ⟨hstep.2.trans hbest, hall⟩⟩

theorem min_le {cands : List Ext} (h : c ∈ cands) : (min cands).toEReal ≤ c.toEReal := (foldl_min_le cands _).2 c h

theorem le_max {cands : List Ext} (h : c ∈ cands) : c.toEReal ≤ (max cands).toEReal := (le_foldl_max cands _).2 c h

theorem le_of_intoBound (h : a.toEReal ≤ x) : ∀ b ∈ a.intoBound, b.real ≤ x := by
  intro b hb
  cases a with
  | fin v r =>
    obtain rfl := some.inj hb
    exact EReal.coe_le_coe_iff.mp h
  | negInf => cases hb
  | posInf => cases hb

theorem of_intoBound_le (h : (x : EReal) ≤ a.toEReal) : ∀ b ∈ a.intoBound, x ≤ b.real := by
  intro b hb
  cases a with
  | fin v r =>
    obtain rfl := some.inj hb
    exact EReal.coe_le_coe_iff.mp h
  | negInf => cases hb
  | posInf => cases hb

end Ext

namespace Interval

theorem mem_iff : I.Mem x ↔ (loOf I).toEReal ≤ x ∧ (x : EReal) ≤ (hiOf I).toEReal := by
  obtain ⟨lo, hi⟩ := I
  constructor
  · rintro ⟨hlo, hhi⟩
    constructor
    · cases lo with
      | none => exact bot_le
      | some b => exact EReal.coe_le_coe_iff.mpr (hlo b rfl)
    · cases hi with
      | none => exact le_top
      | some b => exact EReal.coe_le_coe_iff.mpr (hhi b rfl)
  · rintro ⟨hlo, hhi⟩
    constructor
    · rintro b rfl
      exact EReal.coe_le_coe_iff.mp hlo
    · rintro b rfl
      exact EReal.coe_le_coe_iff.mp hhi

theorem mem_intoBound {lo hi : Ext} (hlo : lo.toEReal ≤ x) (hhi : (x : EReal) ≤ hi.toEReal) :
    (⟨lo.intoBound, hi.intoBound⟩ : Interval).Mem x :=
  ⟨le_of_intoBound hlo, of_intoBound_le hhi⟩

theorem mem_one : (⟨some (.axiomatic .one), some (.axiomatic .one)⟩ : Interval).Mem 1 := by
  have hone : (axiomatic .one).real = 1 := by simp [real, axiomatic]
  constructor
  · rintro b hb
    obtain rfl := some.inj hb
    exact hone.le
  · rintro b hb
    obtain rfl := some.inj hb
    exact hone.ge

theorem Mem.not_isEmpty (h : I.Mem x) : I.isEmpty = false := by
  obtain ⟨lo, hi⟩ := I
  unfold isEmpty
  cases lo with
  | none => rfl
  | some l =>
    cases hi with
    | none => rfl
    | some u =>
      have hle : l.real ≤ u.real := (h.lo l rfl).trans (h.hi u rfl)
      exact decide_eq_false (not_lt.mpr (Rat.cast_le.mp hle))

theorem Mem.tighten (h : I.Mem x) (h' : J.Mem x) : (I.tighten J).1.Mem x ∧ (I.tighten J).2 ≠ .conflict := by
  have hmem : (I.tighten J).1.Mem x := by
    constructor
    · intro b hb
      simp only [Interval.tighten, tightenLo] at hb
      split at hb
      · exact h.lo b hb
      next nl hJ =>
        split at hb
        · split_ifs at hb
          · obtain rfl := some.inj hb
            exact h'.lo _ hJ
          · exact h.lo b hb
        · obtain rfl := some.inj hb
          exact h'.lo _ hJ
    · intro b hb
      simp only [Interval.tighten, tightenHi] at hb
      split at hb
      · exact h.hi b hb
      next nh hJ =>
        split at hb
        · split_ifs at hb
          · obtain rfl := some.inj hb
            exact h'.hi _ hJ
          · exact h.hi b hb
        · obtain rfl := some.inj hb
          exact h'.hi _ hJ
  refine ⟨hmem, ?_⟩
  have hne := hmem.not_isEmpty
  unfold Interval.tighten at hne ⊢
  dsimp only at hne ⊢
  rw [hne]
  split_ifs <;> simp_all

end Interval

theorem mul_mem (hx : I.Mem x) (hy : J.Mem y) (h : mul I J = some K) : K.Mem (x * y) := by
  obtain ⟨hlo, hhi⟩ := Interval.mem_iff.mp hx
  obtain ⟨hlo', hhi'⟩ := Interval.mem_iff.mp hy
  simp only [mul, bind_eq_bind, bind_eq_some_iff] at h
  obtain ⟨ll, hll, lh, hlh, hl, hhl, hh, hhh, hK⟩ := h
  obtain rfl := some.inj hK
  have hlower := Corners.corner_le hlo hhi hlo' hhi'
  have hupper := Corners.le_corner hlo hhi hlo' hhi'
  rw [← toEReal_mul hll, ← toEReal_mul hlh, ← toEReal_mul hhl, ← toEReal_mul hhh,
    ← coe_mul] at hlower hupper
  refine mem_intoBound ?_ ?_
  · rcases hlower with hle | hle | hle | hle
    all_goals exact (min_le (by simp)).trans hle
  · rcases hupper with hle | hle | hle | hle
    all_goals exact hle.trans (le_max (by simp))

namespace Ext

variable {a c : Ext}

theorem toEReal_pow_fin {v : Rational64} {r : List ℕ} (h : (fin v r).pow e = some c) :
    c.toEReal = ((((v.value : ℝ) ^ e : ℝ)) : EReal) := by
  obtain ⟨p, hp, rfl⟩ := map_eq_some_iff.mp h
  rw [toEReal_fin, value_checkedPowR64 hp, Rat.cast_pow]

theorem pow_le_of_nonneg (h : a.pow e = some c) (ha : 0 ≤ a.toEReal) (hx : a.toEReal ≤ x) :
    c.toEReal ≤ (x ^ e : ℝ) := by
  cases a with
  | fin v r =>
    rw [toEReal_pow_fin h]
    rw [toEReal_fin, EReal.coe_nonneg] at ha
    exact EReal.coe_le_coe_iff.mpr (pow_le_pow_left₀ ha (EReal.coe_le_coe_iff.mp hx) e)
  | negInf => exact absurd ha (not_le.mpr bot_lt_zero)
  | posInf => exact absurd hx (not_le.mpr (coe_lt_top x))

theorem le_pow_of_nonneg (h : a.pow e = some c) (hx0 : 0 ≤ x) (hx : (x : EReal) ≤ a.toEReal) :
    ((x ^ e : ℝ) : EReal) ≤ c.toEReal := by
  cases a with
  | fin v r =>
    rw [toEReal_pow_fin h]
    exact EReal.coe_le_coe_iff.mpr (pow_le_pow_left₀ hx0 (EReal.coe_le_coe_iff.mp hx) e)
  | negInf => exact absurd hx (not_le.mpr (bot_lt_coe x))
  | posInf =>
    obtain rfl := some.inj h
    exact le_top

theorem pow_le_pow_of_nonpos {u w : ℝ} (he : 2 ∣ e) (hw : w ≤ 0) (h : u ≤ w) : w ^ e ≤ u ^ e := by
  have heven : Even e := even_iff_two_dvd.mpr he
  rw [← heven.neg_pow w, ← heven.neg_pow u]
  exact pow_le_pow_left₀ (neg_nonneg.mpr hw) (neg_le_neg h) e

theorem pow_le_of_nonpos (he : 2 ∣ e) (h : a.pow e = some c) (ha : a.toEReal ≤ 0) (hx : (x : EReal) ≤ a.toEReal) :
    c.toEReal ≤ (x ^ e : ℝ) := by
  cases a with
  | fin v r =>
    rw [toEReal_pow_fin h]
    rw [toEReal_fin, EReal.coe_nonpos] at ha
    exact EReal.coe_le_coe_iff.mpr (pow_le_pow_of_nonpos he ha (EReal.coe_le_coe_iff.mp hx))
  | negInf => exact absurd hx (not_le.mpr (bot_lt_coe x))
  | posInf => exact absurd ha (not_le.mpr zero_lt_top)

theorem le_pow_of_nonpos (he : 2 ∣ e) (h : a.pow e = some c) (hx0 : x ≤ 0) (hx : a.toEReal ≤ x) :
    ((x ^ e : ℝ) : EReal) ≤ c.toEReal := by
  cases a with
  | fin v r =>
    rw [toEReal_pow_fin h]
    exact EReal.coe_le_coe_iff.mpr (pow_le_pow_of_nonpos he hx0 (EReal.coe_le_coe_iff.mp hx))
  | negInf =>
    obtain rfl : (if 2 ∣ e then posInf else negInf) = c := some.inj h
    rw [if_pos he]
    exact le_top
  | posInf => exact absurd hx (not_le.mpr (coe_lt_top x))

theorem pow_le_of_odd (he : ¬ 2 ∣ e) (h : a.pow e = some c) (hx : a.toEReal ≤ x) : c.toEReal ≤ (x ^ e : ℝ) := by
  have hodd : Odd e := Nat.not_even_iff_odd.mp fun heven => he (even_iff_two_dvd.mp heven)
  cases a with
  | fin v r =>
    rw [toEReal_pow_fin h]
    exact EReal.coe_le_coe_iff.mpr (hodd.strictMono_pow.monotone (EReal.coe_le_coe_iff.mp hx))
  | negInf =>
    obtain rfl : (if 2 ∣ e then posInf else negInf) = c := some.inj h
    rw [if_neg he]
    exact bot_le
  | posInf => exact absurd hx (not_le.mpr (coe_lt_top x))

theorem le_pow_of_odd (he : ¬ 2 ∣ e) (h : a.pow e = some c) (hx : (x : EReal) ≤ a.toEReal) :
    ((x ^ e : ℝ) : EReal) ≤ c.toEReal := by
  have hodd : Odd e := Nat.not_even_iff_odd.mp fun heven => he (even_iff_two_dvd.mp heven)
  cases a with
  | fin v r =>
    rw [toEReal_pow_fin h]
    exact EReal.coe_le_coe_iff.mpr (hodd.strictMono_pow.monotone (EReal.coe_le_coe_iff.mp hx))
  | negInf => exact absurd hx (not_le.mpr (bot_lt_coe x))
  | posInf =>
    obtain rfl := some.inj h
    exact le_top

end Ext

theorem toEReal_zero (r : List ℕ) : (fin .zero r).toEReal = 0 := by
  rw [toEReal_fin, Rational64.value_zero, Rat.cast_zero, coe_zero]

theorem pow_mem (hx : I.Mem x) (h : pow I e = some K) : K.Mem (x ^ e) := by
  obtain ⟨hlo, hhi⟩ := Interval.mem_iff.mp hx
  unfold pow at h
  split_ifs at h with hzero hone heven
  · obtain rfl := some.inj h
    rw [hzero, pow_zero]
    exact mem_one
  · obtain rfl := some.inj h
    rwa [hone, pow_one]
  · simp only [bind_eq_bind, bind_eq_some_iff] at h
    obtain ⟨plo, hplo, phi, hphi, hK⟩ := h
    split_ifs at hK with hnonneg hnonpos
    · obtain rfl := some.inj hK
      rw [Ne, cmp_lt, toEReal_zero, not_lt] at hnonneg
      have hx0 : 0 ≤ x := EReal.coe_nonneg.mp (hnonneg.trans hlo)
      exact mem_intoBound (pow_le_of_nonneg hplo hnonneg hlo) (le_pow_of_nonneg hphi hx0 hhi)
    · obtain rfl := some.inj hK
      rw [Ne, cmp_gt, toEReal_zero, not_lt] at hnonpos
      have hx0 : x ≤ 0 := EReal.coe_nonpos.mp (hhi.trans hnonpos)
      exact mem_intoBound (pow_le_of_nonpos heven hphi hnonpos hhi)
        (le_pow_of_nonpos heven hplo hx0 hlo)
    · obtain rfl := some.inj hK
      refine @mem_intoBound _ (.fin .zero []) _ ?_ ?_
      · rw [toEReal_zero]
        exact EReal.coe_nonneg.mpr ((even_iff_two_dvd.mpr heven).pow_nonneg x)
      · rcases le_total 0 x with hx0 | hx0
        · exact (le_pow_of_nonneg hphi hx0 hhi).trans (le_max (by simp))
        · exact (le_pow_of_nonpos heven hplo hx0 hlo).trans (le_max (by simp))
  · simp only [bind_eq_bind, bind_eq_some_iff] at h
    obtain ⟨plo, hplo, phi, hphi, hK⟩ := h
    obtain rfl := some.inj hK
    exact mem_intoBound (pow_le_of_odd heven hplo hlo) (le_pow_of_odd heven hphi hhi)

def monic (xs : List ℝ) (factors : List (Interval × ℕ)) : ℝ := (List.zipWith (fun x f => x ^ f.2) xs factors).prod

def FactorsHold (xs : List ℝ) (factors : List (Interval × ℕ)) : Prop :=
  List.Forall₂ (fun x (f : Interval × ℕ) => f.1.Mem x) xs factors

variable {factors : List (Interval × ℕ)} {xs : List ℝ}

theorem forwardFrom_mem (hxs : FactorsHold xs factors) (hx : I.Mem x) (h : forwardFrom I factors = some K) :
    K.Mem (x * monic xs factors) := by
  induction hxs generalizing I x with
  | nil =>
    obtain rfl := some.inj h
    simpa [monic] using hx
  | @cons y f ys fs hy _ ih =>
    obtain ⟨J, e⟩ := f
    simp only [forwardFrom, bind_eq_bind, bind_eq_some_iff] at h
    obtain ⟨p, hp, next, hnext, hrest⟩ := h
    have hmem := ih (mul_mem hx (pow_mem hy hp) hnext) hrest
    rwa [mul_assoc] at hmem

theorem forward_mem (hxs : FactorsHold xs factors) (h : forward factors = some K) : K.Mem (monic xs factors) := by
  have hmem := forwardFrom_mem hxs mem_one h
  rwa [one_mul] at hmem

theorem real_recip {v w : Rational64} (h : checkedRecipR64 v = some w) :
    ((w.value : ℚ) : ℝ) = ((v.value : ℚ) : ℝ)⁻¹ := by
  rw [value_checkedRecipR64 h, Rat.cast_inv]

theorem recip_mem_pos {l : Bound} (hx : I.Mem x) (hl : I.lo = some l) (hpos : 0 < l.value.value) {newHi : Rational64}
    (hhi : checkedRecipR64 l.value = some newHi) {newLo : Bound} (hlo : recipFar I.hi l.reasons = some newLo) :
    (⟨some newLo, some (.new newHi l.reasons)⟩ : Interval).Mem x⁻¹ ∧ x ≠ 0 := by
  have hl0 : (0 : ℝ) < l.real := Rat.cast_pos.mpr hpos
  have hlx := hx.lo l hl
  have hx0 : 0 < x := hl0.trans_le hlx
  refine ⟨⟨?_, ?_⟩, hx0.ne'⟩
  · rintro b hb
    obtain rfl := some.inj hb
    unfold recipFar at hlo
    split at hlo
    next h hh =>
      obtain ⟨v, hv, rfl⟩ := map_eq_some_iff.mp hlo
      rw [real_new, real_recip hv]
      exact inv_anti₀ hx0 (hx.hi h hh)
    next =>
      obtain rfl := some.inj hlo
      rw [real_new, Rational64.value_zero, Rat.cast_zero]
      exact (inv_pos.mpr hx0).le
  · rintro b hb
    obtain rfl := some.inj hb
    rw [real_new, real_recip hhi]
    exact inv_anti₀ hl0 hlx

theorem recip_mem_neg {h : Bound} (hx : I.Mem x) (hh : I.hi = some h) (hneg : h.value.value < 0) {newLo : Rational64}
    (hlo : checkedRecipR64 h.value = some newLo) {newHi : Bound} (hhi : recipFar I.lo h.reasons = some newHi) :
    (⟨some (.new newLo h.reasons), some newHi⟩ : Interval).Mem x⁻¹ ∧ x ≠ 0 := by
  have hh0 : h.real < 0 := Rat.cast_lt_zero.mpr hneg
  have hxh := hx.hi h hh
  have hx0 : x < 0 := hxh.trans_lt hh0
  refine ⟨⟨?_, ?_⟩, hx0.ne⟩
  · rintro b hb
    obtain rfl := some.inj hb
    rw [real_new, real_recip hlo]
    exact (inv_le_inv_of_neg hh0 hx0).mpr hxh
  · rintro b hb
    obtain rfl := some.inj hb
    unfold recipFar at hhi
    split at hhi
    next l hl =>
      obtain ⟨v, hv, rfl⟩ := map_eq_some_iff.mp hhi
      rw [real_new, real_recip hv]
      have hlx : l.real ≤ x := hx.lo l hl
      exact (inv_le_inv_of_neg hx0 (hlx.trans_lt hx0)).mpr hlx
    next =>
      obtain rfl := some.inj hhi
      rw [real_new, Rational64.value_zero, Rat.cast_zero]
      exact (inv_lt_zero.mpr hx0).le

theorem recip_mem (hx : I.Mem x) (h : recip I = some K) : K.Mem x⁻¹ ∧ x ≠ 0 := by
  unfold recip at h
  split at h
  next _ _ l hfilter =>
    obtain ⟨hl, hpos⟩ := filter_eq_some_iff.mp hfilter
    simp only [bind_eq_bind, bind_eq_some_iff] at h
    obtain ⟨newHi, hhi, newLo, hlo, hK⟩ := h
    obtain rfl := some.inj hK
    exact recip_mem_pos hx hl (of_decide_eq_true hpos) hhi hlo
  next u _ hfilter =>
    obtain ⟨hu, hneg⟩ := filter_eq_some_iff.mp hfilter
    simp only [bind_eq_bind, bind_eq_some_iff] at h
    obtain ⟨newLo, hlo, newHi, hhi, hK⟩ := h
    obtain rfl := some.inj hK
    exact recip_mem_neg hx hu (of_decide_eq_true hneg) hlo hhi
  next => cases h

theorem backward_mem (hproduct : I.Mem (x * y)) (hco : J.Mem y) (h : backward I J = some K) : K.Mem x := by
  unfold backward at h
  split at h
  · obtain ⟨inv, hinv, hmul⟩ := bind_eq_some_iff.mp h
    obtain ⟨hmem, hne⟩ := recip_mem hco hinv
    have hresult := mul_mem hproduct hmem hmul
    rwa [mul_inv_cancel_right₀ hne] at hresult
  · cases h

theorem FactorsHold.at (h : FactorsHold xs factors) {i : ℕ} (hi : factors[i]? = some (I, e)) : ∃ y, I.Mem y ∧
    monic xs factors = y ^ e * monic (xs.eraseIdx i) (factors.eraseIdx i) ∧
    FactorsHold (xs.eraseIdx i) (factors.eraseIdx i) ∧ ∀ J : Interval, J.Mem y →
    FactorsHold xs (factors.set i (J, e)) ∧ monic xs (factors.set i (J, e)) = monic xs factors := by
  induction h generalizing i with
  | nil => cases hi
  | @cons z f zs fs hz hzs ih =>
    cases i with
    | zero =>
      obtain rfl := some.inj hi
      exact ⟨z, hz, rfl, hzs, fun J hJ => ⟨.cons hJ hzs, rfl⟩⟩
    | succ i =>
      obtain ⟨y, hy, hmonic, hrest, hset⟩ := ih hi
      refine ⟨y, hy, ?_, .cons hz hrest, fun J hJ => ⟨.cons hz (hset J hJ).1, ?_⟩⟩
      · calc z ^ f.2 * monic zs fs = z ^ f.2 * (y ^ e * monic (zs.eraseIdx i) (fs.eraseIdx i)) := by rw [hmonic]
          _ = y ^ e * (z ^ f.2 * monic (zs.eraseIdx i) (fs.eraseIdx i)) := mul_left_comm _ _ _
      · exact congrArg (z ^ f.2 * ·) (hset J hJ).2

section

variable {s : MonicState} {v : ℝ} {xs : List ℝ}

structure MonicState.Holds (s : MonicState) (v : ℝ) (xs : List ℝ) : Prop where
  product : s.product.Mem v
  factors : FactorsHold xs s.factors
  value : v = monic xs s.factors

theorem backwardFrom_holds (h : s.Holds v xs) (i : ℕ) (progress : Bool) (left : ℕ) :
    (backwardFrom s i progress left).1.Holds v xs ∧ (backwardFrom s i progress left).2 ≠ .conflict := by
  induction left generalizing s i progress with
  | zero =>
    refine ⟨h, ?_⟩
    rw [backwardFrom]
    split_ifs <;> simp
  | succ left ih =>
    rw [backwardFrom]
    split
    next I hi =>
      split
      next => exact ⟨h, by simp⟩
      next co hco =>
        obtain ⟨y, hy, hmonic, hrest, hset⟩ := h.factors.at hi
        split
        next => exact ih h (i + 1) progress
        next derived hderived =>
          rw [pow_one] at hmonic
          have hproduct := h.product
          rw [h.value, hmonic] at hproduct
          have hmem := backward_mem hproduct (forward_mem hrest hco) hderived
          obtain ⟨htight, hconflict⟩ := hy.tighten hmem
          generalize htighten : I.tighten derived = out at htight hconflict
          obtain ⟨J, outcome⟩ := out
          have hnext : MonicState.Holds { s with factors := s.factors.set i (J, 1) } v xs :=
            ⟨h.product, (hset J htight).1, h.value.trans (hset J htight).2.symm⟩
          dsimp only
          cases outcome with
          | conflict => exact absurd rfl hconflict
          | progress => exact ih hnext (i + 1) true
          | fixpoint => exact ih hnext (i + 1) progress
          | overflow => exact ih hnext (i + 1) progress
    next => exact ih h (i + 1) progress

theorem propagateMonic_holds (h : s.Holds v xs) :
    (propagateMonic s).1.Holds v xs ∧ (propagateMonic s).2 ≠ .conflict := by
  unfold propagateMonic
  split
  next => exact ⟨h, by simp⟩
  next fwd hfwd =>
    have hmem := forward_mem h.factors hfwd
    rw [← h.value] at hmem
    obtain ⟨htight, hconflict⟩ := h.product.tighten hmem
    generalize s.product.tighten fwd = out at htight hconflict
    obtain ⟨product, outcome⟩ := out
    have hnext : MonicState.Holds { s with product := product } v xs := ⟨htight, h.factors, h.value⟩
    dsimp only
    cases outcome with
    | conflict => exact absurd rfl hconflict
    | progress => exact backwardFrom_holds hnext 0 true _
    | fixpoint => exact backwardFrom_holds hnext 0 false _
    | overflow => exact backwardFrom_holds hnext 0 false _

def rounds (s : MonicState) (n : ℕ) : MonicState := (fun s => (propagateMonic s).1)^[n] s

/-- No point is lost in any number of rounds, and a conflict is reported only where there is none. -/
theorem rounds_hold (h : s.Holds v xs) (n : ℕ) :
    (rounds s n).Holds v xs ∧ (propagateMonic (rounds s n)).2 ≠ .conflict := by
  have hrounds : (rounds s n).Holds v xs := by
    induction n with
    | zero => exact h
    | succ n ih =>
      rw [rounds, Function.iterate_succ_apply']
      exact (propagateMonic_holds ih).1
  exact ⟨hrounds, (propagateMonic_holds hrounds).2⟩

theorem closed_mem {l h : ℤ} {hl : InI64 l} {hh : InI64 h} {tag : ℕ} (hlo : (l : ℝ) ≤ x) (hhi : x ≤ h) :
    (closed (.ofInt l hl) (.ofInt h hh) tag).Mem x := by
  constructor
  · rintro b hb
    obtain rfl := some.inj hb
    simpa [real, tagged] using hlo
  · rintro b hb
    obtain rfl := some.inj hb
    simpa [real, tagged] using hhi

theorem inI64_of_natAbs_le {n : ℤ} (h : n.natAbs ≤ 4) : InI64 n := by
  unfold InI64
  omega

def small (n : ℤ) (h : n.natAbs ≤ 4) : Rational64 := .ofInt n (inI64_of_natAbs_le h)

def squareState : MonicState :=
  ⟨.unbounded, [(.closed (small 1 (by decide)) (small 2 (by decide)) 0, 1),
    (.closed (small (-3) (by decide)) (small 4 (by decide)) 1, 2)]⟩

theorem squareState_holds : squareState.Holds 18 [2, -3] := by
  refine ⟨⟨?_, ?_⟩, .cons ?_ (.cons ?_ .nil), ?_⟩
  · simp [squareState, unbounded]
  · simp [squareState, unbounded]
  · exact closed_mem (by norm_num) (by norm_num)
  · exact closed_mem (by norm_num) (by norm_num)
  · norm_num [monic, squareState]

theorem rounds_hold_square : (rounds squareState 3).Holds 18 [2, -3] ∧
    (propagateMonic (rounds squareState 3)).2 ≠ .conflict :=
  rounds_hold squareState_holds 3

end

end Nixie.Nla
