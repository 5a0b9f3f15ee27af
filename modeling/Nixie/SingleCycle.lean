import Mathlib.Dynamics.PeriodicPts.Lemmas
import Mathlib.SetTheory.Cardinal.Finite

namespace Nixie.SingleCycle

open Function

variable {α : Type*} {f : α → α} {x : α}

def Transitive (f : α → α) : Prop :=
  ∀ x y, ∃ k, f^[k] x = y

theorem Transitive.minimalPeriod_pos (h : Transitive f) (x : α) : 0 < minimalPeriod f x := by
  obtain ⟨k, hk⟩ := h (f x) x
  refine minimalPeriod_pos_of_mem_periodicPts (mk_mem_periodicPts (Nat.succ_pos k) ?_)
  rw [IsPeriodicPt, IsFixedPt, iterate_succ_apply, hk]

theorem Transitive.minimalPeriod_eq [Fintype α] (h : Transitive f) (x : α) : minimalPeriod f x = Fintype.card α := by
  let orbit : Fin (minimalPeriod f x) → α := fun k => f^[k] x
  have hinj : Injective orbit := by
    intro j k hjk
    exact Fin.ext (iterate_injOn_Iio_minimalPeriod j.2 k.2 hjk)
  have hsurj : Surjective orbit := by
    intro y
    obtain ⟨k, hk⟩ := h x y
    refine ⟨⟨k % minimalPeriod f x, Nat.mod_lt _ (h.minimalPeriod_pos x)⟩, ?_⟩
    exact (iterate_mod_minimalPeriod_eq ..).trans hk
  simpa using Fintype.card_congr (Equiv.ofBijective orbit ⟨hinj, hsurj⟩)

theorem Transitive.iterate_card [Fintype α] (h : Transitive f) (x : α) : f^[Fintype.card α] x = x := by
  rw [← h.minimalPeriod_eq x]
  exact iterate_minimalPeriod

theorem Transitive.iterate_ne [Fintype α] (h : Transitive f) {j k : ℕ} (hj : j < k)
    (hk : k < Fintype.card α) : f^[j] x ≠ f^[k] x := by
  rw [← h.minimalPeriod_eq x] at hk
  intro heq
  exact hj.ne (iterate_injOn_Iio_minimalPeriod (hj.trans hk) hk heq)

end Nixie.SingleCycle
