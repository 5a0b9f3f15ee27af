import Mathlib.Data.Finset.Powerset
import Mathlib.Data.Finset.SymmDiff
import Mathlib.Algebra.Order.Group.Nat

/-!
The parity of a set of variables under a valuation, and the sets of one parity.
-/

namespace Nixie.Parity

open scoped symmDiff

variable {α : Type*} {ρ : α → Bool} {S T : Finset α} {a : α}

def parity (ρ : α → Bool) (S : Finset α) : Bool := decide ((S.filter fun a => ρ a).card % 2 = 1)

@[simp] theorem parity_empty : parity ρ ∅ = false := by
  simp [parity]

theorem parity_congr {σ : α → Bool} (h : ∀ a ∈ S, ρ a = σ a) : parity ρ S = parity σ S := by
  rw [parity, parity, Finset.filter_congr fun a ha => by rw [h a ha]]

variable [DecidableEq α]

theorem parity_insert (ha : a ∉ S) : parity ρ (insert a S) = (ρ a ^^ parity ρ S) := by
  have hnot : a ∉ S.filter fun b => ρ b := fun h => ha (Finset.mem_filter.mp h).1
  rw [parity, parity, Finset.filter_insert]
  cases hvalue : ρ a with
  | false => simp
  | true =>
    rw [if_pos rfl, Finset.card_insert_of_notMem hnot, Bool.true_xor]
    rcases Nat.mod_two_eq_zero_or_one (S.filter fun b => ρ b).card with h | h
    · simp [Nat.add_mod, h]
    · simp [Nat.add_mod, h]

theorem parity_erase (ha : a ∈ S) : parity ρ (S.erase a) = (ρ a ^^ parity ρ S) := by
  conv_rhs => rw [← Finset.insert_erase ha]
  rw [parity_insert (Finset.notMem_erase a S), ← Bool.xor_assoc, Bool.xor_self, Bool.false_xor]

theorem parity_singleton : parity ρ {a} = ρ a := by
  rw [← insert_empty_eq, parity_insert (Finset.notMem_empty a), parity_empty, Bool.xor_false]

theorem parity_image {β : Type*} {f : β → α} {U : Finset β} (hf : Set.InjOn f U) :
    parity ρ (U.image f) = parity (ρ ∘ f) U := by
  have hfilter : (U.image f).filter (fun a => ρ a) = (U.filter fun b => ρ (f b)).image f := Finset.filter_image
  rw [parity, hfilter, Finset.card_image_of_injOn (hf.mono (Finset.coe_subset.mpr (Finset.filter_subset _ _)))]
  rfl

theorem parity_symmDiff : parity ρ (S ∆ T) = (parity ρ S ^^ parity ρ T) := by
  induction T using Finset.induction_on with
  | empty => rw [parity_empty, Bool.xor_false, show (∅ : Finset α) = ⊥ from rfl, symmDiff_bot]
  | @insert a T ha ih =>
    rw [parity_insert ha]
    by_cases hS : a ∈ S
    · have hset : S ∆ insert a T = (S ∆ T).erase a := by
        ext b
        simp only [Finset.mem_symmDiff, Finset.mem_insert, Finset.mem_erase]
        by_cases hb : b = a
        · subst hb
          simp [hS]
        · simp [hb]
      have hmem : a ∈ S ∆ T := Finset.mem_symmDiff.mpr (.inl ⟨hS, ha⟩)
      rw [hset, parity_erase hmem, ih, Bool.xor_left_comm]
    · have hset : S ∆ insert a T = insert a (S ∆ T) := by
        ext b
        simp only [Finset.mem_symmDiff, Finset.mem_insert]
        by_cases hb : b = a
        · subst hb
          simp [hS]
        · simp [hb]
      have hnot : a ∉ S ∆ T := fun h => by
        rcases Finset.mem_symmDiff.mp h with h | h
        · exact hS h.1
        · exact ha h.1
      rw [hset, parity_insert hnot, ih, Bool.xor_left_comm]

theorem card_le_of_parity {V : Finset α} {a : α} (ha : a ∈ V) {p : ℕ} {F : Finset (Finset α)}
    (hF : ∀ N ∈ F, N ⊆ V ∧ N.card % 2 = p) : F.card ≤ 2 ^ (V.card - 1) := by
  have hinj : Set.InjOn (fun N : Finset α => N.erase a) F := by
    intro N hN M hM heq
    have hparity := (hF N hN).2.trans (hF M hM).2.symm
    have hcard : (N.erase a).card = (M.erase a).card := congrArg Finset.card heq
    by_cases hNa : a ∈ N <;> by_cases hMa : a ∈ M
    · rw [← Finset.insert_erase hNa, ← Finset.insert_erase hMa]
      exact congrArg (insert a) heq
    · rw [Finset.card_erase_of_mem hNa, Finset.erase_eq_of_notMem hMa] at hcard
      have hpos := Finset.card_pos.mpr ⟨a, hNa⟩
      omega
    · rw [Finset.card_erase_of_mem hMa, Finset.erase_eq_of_notMem hNa] at hcard
      have hpos := Finset.card_pos.mpr ⟨a, hMa⟩
      omega
    · rw [← Finset.erase_eq_of_notMem hNa, ← Finset.erase_eq_of_notMem hMa]
      exact heq
  have hmaps : Set.MapsTo (fun N : Finset α => N.erase a) F (V.erase a).powerset := by
    intro N hN
    exact Finset.mem_powerset.mpr (Finset.erase_subset_erase a (hF N hN).1)
  calc F.card ≤ (V.erase a).powerset.card := Finset.card_le_card_of_injOn _ hmaps hinj
    _ = 2 ^ (V.card - 1) := by rw [Finset.card_powerset, Finset.card_erase_of_mem ha]

theorem mem_of_parity {V : Finset α} (hV : V.Nonempty) {p : ℕ} {F : Finset (Finset α)}
    (hF : ∀ N ∈ F, N ⊆ V ∧ N.card % 2 = p) (hcard : 2 ^ (V.card - 1) ≤ F.card) {N : Finset α} (hN : N ⊆ V)
    (hp : N.card % 2 = p) : N ∈ F := by
  obtain ⟨a, ha⟩ := hV
  by_contra hnot
  have hle := card_le_of_parity ha (F := insert N F) (p := p) fun M hM => by
    rcases Finset.mem_insert.mp hM with rfl | hM
    · exact ⟨hN, hp⟩
    · exact hF M hM
  rw [Finset.card_insert_of_notMem hnot] at hle
  omega

end Nixie.Parity
