import Mathlib.Order.Filter.AtTopBot.Basic
import Mathlib.Data.Int.Interval
import Mathlib.Data.Finset.Max
import Mathlib.Tactic.Linarith
import Mathlib.Tactic.Positivity
import Mathlib.Tactic.Ring
import Mathlib.Data.Int.ConditionallyCompleteOrder

/-!
Finite test sets: a predicate on a line that changes at finitely many points, or that repeats below
them, holds somewhere exactly if it holds at one of finitely many candidates.
-/

namespace Nixie.TestPoints

open Filter Set Finset Int

section

variable {K : Type*} [LinearOrder K] {P : K → Prop} {k s : K}

def rightOf [NoMaxOrder K] (s : K) : Filter K where
  sets := {u | ∃ b > s, Ioo s b ⊆ u}
  univ_sets := by
    obtain ⟨b, hb⟩ := exists_gt s
    exact ⟨b, hb, subset_univ _⟩
  sets_of_superset := by
    rintro u v ⟨b, hb, hsub⟩ huv
    exact ⟨b, hb, hsub.trans huv⟩
  inter_sets := by
    rintro u v ⟨b, hb, hu⟩ ⟨c, hc, hv⟩
    refine ⟨min b c, lt_min hb hc, fun j hj => ⟨hu ⟨hj.1, ?_⟩, hv ⟨hj.1, ?_⟩⟩⟩
    · exact hj.2.trans_le (min_le_left _ _)
    · exact hj.2.trans_le (min_le_right _ _)

theorem eventually_rightOf [NoMaxOrder K] : (∀ᶠ j in rightOf s, P j) ↔ ∃ b > s, ∀ j, s < j → j < b → P j := by
  constructor
  · rintro ⟨b, hb, hsub⟩
    exact ⟨b, hb, fun j h1 h2 => hsub ⟨h1, h2⟩⟩
  · rintro ⟨b, hb, h⟩
    exact ⟨b, hb, fun j hj => h j hj.1 hj.2⟩

instance [NoMaxOrder K] [DenselyOrdered K] : (rightOf s).NeBot := by
  refine ⟨fun hbot => ?_⟩
  have hfalse : ∀ᶠ j in rightOf s, False := by simp [hbot]
  obtain ⟨b, hb, h⟩ := eventually_rightOf.mp hfalse
  obtain ⟨j, h1, h2⟩ := exists_between hb
  exact h j h1 h2

theorem exists_start [NoMaxOrder K] [Nonempty K] {plain eps : Finset K}
    (hP : ∀ j k, j ≤ k → (∀ p ∈ plain, j < p → k < p) → (∀ p ∈ eps, j ≤ p → k ≤ p) → (P j ↔ P k)) (hk : P k) :
    (∀ᶠ j in atBot, P j) ∨ (∃ p ∈ plain, P p) ∨ ∃ p ∈ eps, ∀ᶠ j in rightOf p, P j := by
  -- the latest starts at or before `k`
  rcases (plain.filter (· ≤ k)).eq_empty_or_nonempty with hplain | hplain
  · replace hplain : ∀ p ∈ plain, k < p := by
      simpa [filter_eq_empty_iff] using hplain
    rcases (eps.filter (· < k)).eq_empty_or_nonempty with heps | heps
    · replace heps : ∀ p ∈ eps, k ≤ p := by
        simpa [filter_eq_empty_iff] using heps
      refine .inl (eventually_atBot.mpr ⟨k, fun j hj => (hP j k hj ?_ ?_).mpr hk⟩)
      · exact fun p hp _ => hplain p hp
      · exact fun p hp _ => heps p hp
    · obtain ⟨e, he, hmax⟩ := (eps.filter (· < k)).exists_max_image id heps
      obtain ⟨hmem, hlt⟩ := mem_filter.mp he
      refine .inr (.inr ⟨e, hmem, eventually_rightOf.mpr ⟨k, hlt, fun j h1 h2 => ?_⟩⟩)
      refine (hP j k h2.le (fun p hp _ => hplain p hp) fun p hp hjp => ?_).mpr hk
      by_contra hpk
      have := hmax p (mem_filter.mpr ⟨hp, not_le.mp hpk⟩)
      exact absurd (h1.trans_le hjp) (not_lt.mpr this)
  · obtain ⟨q, hq, hqmax⟩ := (plain.filter (· ≤ k)).exists_max_image id hplain
    obtain ⟨hqmem, hqk⟩ := mem_filter.mp hq
    have hafter : ∀ {j}, q ≤ j → ∀ p ∈ plain, j < p → k < p := by
      intro j hj p hp hjp
      by_contra hpk
      have := hqmax p (mem_filter.mpr ⟨hp, not_lt.mp hpk⟩)
      exact absurd (hj.trans_lt hjp) (not_lt.mpr this)
    by_cases hlate : ∃ e ∈ eps, q ≤ e ∧ e < k
    · have heps : (eps.filter (· < k)).Nonempty := by
        obtain ⟨e, he, -, hek⟩ := hlate
        exact ⟨e, mem_filter.mpr ⟨he, hek⟩⟩
      obtain ⟨e, he, hmax⟩ := (eps.filter (· < k)).exists_max_image id heps
      obtain ⟨hmem, hlt⟩ := mem_filter.mp he
      have hqe : q ≤ e := by
        obtain ⟨e', he', hqe', hek'⟩ := hlate
        exact hqe'.trans (hmax e' (mem_filter.mpr ⟨he', hek'⟩))
      refine .inr (.inr ⟨e, hmem, eventually_rightOf.mpr ⟨k, hlt, fun j h1 h2 => ?_⟩⟩)
      refine (hP j k h2.le (hafter (hqe.trans h1.le)) fun p hp hjp => ?_).mpr hk
      by_contra hpk
      have := hmax p (mem_filter.mpr ⟨hp, not_le.mp hpk⟩)
      exact absurd (h1.trans_le hjp) (not_lt.mpr this)
    · push Not at hlate
      exact .inr (.inl ⟨q, hqmem, (hP q k hqk (hafter le_rfl) fun p hp => hlate p hp).mpr hk⟩)

end

section

variable {K : Type*} [Field K] [LinearOrder K] [IsStrictOrderedRing K] {P : K → Prop} {k : K}

theorem exists_midpoint {B : Finset K} (hP : ∀ j k, (∀ b ∈ B, (j < b ↔ k < b) ∧ (b < j ↔ b < k)) → (P j ↔ P k))
    (hk : P k) : (∀ᶠ j in atBot, P j) ∨ (∀ᶠ j in atTop, P j) ∨ ∃ b ∈ B, ∃ c ∈ B, P ((b + c) / 2) := by
  rcases (B.filter (· ≤ k)).eq_empty_or_nonempty with hbelow | hbelow
  · replace hbelow : ∀ b ∈ B, k < b := by
      simpa [filter_eq_empty_iff] using hbelow
    refine .inl (eventually_atBot.mpr ⟨k, fun j hj => (hP j k fun b hb => ⟨?_, ?_⟩).mpr hk⟩)
    · exact iff_of_true (hj.trans_lt (hbelow b hb)) (hbelow b hb)
    · exact iff_of_false (hj.trans (hbelow b hb).le).not_gt (hbelow b hb).not_gt
  rcases (B.filter (k ≤ ·)).eq_empty_or_nonempty with habove | habove
  · replace habove : ∀ b ∈ B, b < k := by
      simpa [filter_eq_empty_iff] using habove
    refine .inr (.inl (eventually_atTop.mpr ⟨k, fun j hj => (hP j k fun b hb => ⟨?_, ?_⟩).mpr hk⟩))
    · exact iff_of_false ((habove b hb).le.trans hj).not_gt (habove b hb).not_gt
    · exact iff_of_true ((habove b hb).trans_le hj) (habove b hb)
  obtain ⟨b, hb, hbmax⟩ := (B.filter (· ≤ k)).exists_max_image id hbelow
  obtain ⟨c, hc, hcmin⟩ := (B.filter (k ≤ ·)).exists_min_image id habove
  obtain ⟨hbB, hbk⟩ := mem_filter.mp hb
  obtain ⟨hcB, hkc⟩ := mem_filter.mp hc
  have hmax : ∀ d ∈ B, d ≤ k → d ≤ b := fun d hd hdk => hbmax d (mem_filter.mpr ⟨hd, hdk⟩)
  have hmin : ∀ d ∈ B, k ≤ d → c ≤ d := fun d hd hkd => hcmin d (mem_filter.mpr ⟨hd, hkd⟩)
  refine .inr (.inr ⟨b, hbB, c, hcB, (hP _ k fun d hd => ?_).mpr hk⟩)
  rcases eq_or_lt_of_le (hbk.trans hkc) with rfl | hlt
  · have hmid : (b + b) / 2 = k := by linarith
    rw [hmid]
    exact ⟨Iff.rfl, Iff.rfl⟩
  · have hbk' : b < k := lt_of_le_of_ne hbk fun h => (hmin b hbB h.ge).not_gt hlt
    have hkc' : k < c := lt_of_le_of_ne hkc fun h => (hmax c hcB h.ge).not_gt hlt
    rcases le_or_gt d k with hdk | hkd
    · have := hmax d hd hdk
      exact ⟨iff_of_false (by linarith) hdk.not_gt, iff_of_true (by linarith) (by linarith)⟩
    · have := hmin d hd hkd.le
      exact ⟨iff_of_true (by linarith) hkd, iff_of_false (by linarith) hkd.le.not_gt⟩

end

section

variable {P Q : ℤ → Prop} {δ : ℤ} {B : Finset ℤ}

theorem exists_residue (hδ : 0 < δ) (hQ : ∀ k j, Q k ↔ Q (k + j * δ)) {k : ℤ} (hk : Q k) :
    ∃ j ∈ Finset.Icc 1 δ, Q j := by
  refine ⟨(k - 1) % δ + 1, mem_Icc.mpr ⟨?_, ?_⟩, ?_⟩
  · have := emod_nonneg (k - 1) hδ.ne'
    omega
  · have := emod_lt_of_pos (k - 1) hδ
    omega
  · refine (hQ _ ((k - 1) / δ)).mpr ?_
    have : (k - 1) % δ + 1 + (k - 1) / δ * δ = k := by
      have := emod_add_mul_ediv (k - 1) δ
      linarith
    rwa [this]

theorem sub_toNat_mul_le (hδ : 0 < δ) (k z : ℤ) : k - ((k - z).toNat : ℤ) * δ ≤ z := by
  have h1 := self_le_toNat (k - z)
  have h2 : ((k - z).toNat : ℤ) * 1 ≤ ((k - z).toNat : ℤ) * δ := mul_le_mul_of_nonneg_left hδ (by positivity)
  linarith

theorem exists_iff_residue_or_bound (hδ : 0 < δ) (hQ : ∀ k j, Q k ↔ Q (k + j * δ)) (hbot : ∀ᶠ k in atBot, P k ↔ Q k)
    (hstep : ∀ k, P k → (∀ b ∈ B, ∀ j ∈ Finset.Icc 1 δ, k ≠ b + j) → P (k - δ)) :
    (∃ k, P k) ↔ (∃ j ∈ Finset.Icc 1 δ, Q j) ∨ ∃ b ∈ B, ∃ j ∈ Finset.Icc 1 δ, P (b + j) := by
  obtain ⟨z, hz⟩ := eventually_atBot.mp hbot
  constructor
  · rintro ⟨k, hk⟩
    by_cases hbound : ∃ b ∈ B, ∃ j ∈ Finset.Icc 1 δ, P (b + j)
    · exact .inr hbound
    · refine .inl ?_
      have hdown : ∀ n : ℕ, P (k - n * δ) := by
        intro n
        induction n with
        | zero => simpa using hk
        | succ n ih =>
          have hnext := hstep _ ih fun b hb j hj heq => hbound ⟨b, hb, j, hj, heq ▸ ih⟩
          have : k - (n + 1 : ℕ) * δ = k - n * δ - δ := by push_cast; ring
          rwa [this]
      exact exists_residue hδ hQ ((hz _ (sub_toNat_mul_le hδ k z)).mp (hdown _))
  · rintro (⟨j, -, hj⟩ | ⟨b, -, j, -, hbj⟩)
    · have hfar : j + (-((j - z).toNat : ℤ)) * δ ≤ z := by
        have := sub_toNat_mul_le hδ j z
        linarith
      exact ⟨_, (hz _ hfar).mpr ((hQ j _).mp hj)⟩
    · exact ⟨_, hbj⟩

end

end Nixie.TestPoints
