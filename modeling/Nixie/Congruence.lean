import Mathlib.Data.List.Perm.Basic

/-!
Congruence closure. Some terms are applications of a symbol to a list of terms, and the
arguments of a commutative symbol may be exchanged.
-/

namespace Nixie.Congruence

variable {α F : Type*}

def Matches (commutative : Prop) (R : α → α → Prop) (xs ys : List α) : Prop :=
  List.Forall₂ R xs ys ∨ commutative ∧ ∃ zs, zs.Perm ys ∧ List.Forall₂ R xs zs

variable {c : Prop}

theorem Matches.mono {R R' : α → α → Prop} {xs ys : List α} (hR : ∀ x y, R x y → R' x y)
    (h : Matches c R xs ys) : Matches c R' xs ys := by
  rcases h with h | ⟨hc, zs, hperm, h⟩
  · exact .inl (h.imp hR)
  · exact .inr ⟨hc, zs, hperm, h.imp hR⟩

theorem Matches.length_eq {R : α → α → Prop} {xs ys : List α} (h : Matches c R xs ys) : xs.length = ys.length := by
  rcases h with h | ⟨-, zs, hperm, h⟩
  · exact h.length_eq
  · exact h.length_eq.trans hperm.length_eq

structure Terms (α F : Type*) where
  app : α → Option (F × List α)
  commutative : F → Prop

inductive Terms.Congruent (T : Terms α F) (E : α → α → Prop) : α → α → Prop
  | eqn {x y} : E x y → Congruent T E x y
  | refl (x : α) : Congruent T E x x
  | symm {x y} : Congruent T E x y → Congruent T E y x
  | trans {x y z} : Congruent T E x y → Congruent T E y z → Congruent T E x z
  | congr {u v f xs ys zs} : T.app u = some (f, xs) → T.app v = some (f, ys) →
      zs = ys ∨ T.commutative f ∧ zs.Perm ys → xs.length = zs.length →
      (∀ p ∈ xs.zip zs, Congruent T E p.1 p.2) → Congruent T E u v

structure Terms.IsCongruence (T : Terms α F) (R : α → α → Prop) : Prop where
  equivalence : Equivalence R
  congr : ∀ {u v : α} {f : F} {xs ys : List α}, T.app u = some (f, xs) → T.app v = some (f, ys) →
    Matches (T.commutative f) R xs ys → R u v

namespace Terms

variable {T T' : Terms α F} {E E' R : α → α → Prop} {x y : α} {xs ys : List α}

theorem forall₂_iff_zip : List.Forall₂ R xs ys ↔ xs.length = ys.length ∧ ∀ p ∈ xs.zip ys, R p.1 p.2 := by
  rw [List.forall₂_iff_zip]
  constructor
  · exact fun ⟨hlen, h⟩ => ⟨hlen, fun p hp => h hp⟩
  · exact fun ⟨hlen, h⟩ => ⟨hlen, fun hp => h _ hp⟩

theorem Congruent.isCongruence : T.IsCongruence (T.Congruent E) where
  equivalence := ⟨.refl, .symm, .trans⟩
  congr hu hv hmatch := by
    rcases hmatch with h | ⟨hcomm, zs, hperm, h⟩
    · obtain ⟨hlen, hall⟩ := forall₂_iff_zip.mp h
      exact .congr hu hv (.inl rfl) hlen hall
    · obtain ⟨hlen, hall⟩ := forall₂_iff_zip.mp h
      exact .congr hu hv (.inr ⟨hcomm, hperm⟩) hlen hall

theorem Congruent.least (hR : T.IsCongruence R) (hE : ∀ x y, E x y → R x y) (h : T.Congruent E x y) : R x y := by
  induction h with
  | eqn h => exact hE _ _ h
  | refl x => exact hR.equivalence.refl x
  | symm _ ih => exact hR.equivalence.symm ih
  | trans _ _ ih₁ ih₂ => exact hR.equivalence.trans ih₁ ih₂
  | congr hu hv horder hlen _ ih =>
    refine hR.congr hu hv ?_
    rcases horder with rfl | ⟨hcomm, hperm⟩
    · exact .inl (forall₂_iff_zip.mpr ⟨hlen, ih⟩)
    · exact .inr ⟨hcomm, _, hperm, forall₂_iff_zip.mpr ⟨hlen, ih⟩⟩

theorem Congruent.mono (hE : ∀ x y, E x y → E' x y) (happ : ∀ x a, T.app x = some a → T'.app x = some a)
    (hcomm : ∀ f, T.commutative f → T'.commutative f) (h : T.Congruent E x y) : T'.Congruent E' x y := by
  refine h.least ⟨Congruent.isCongruence.equivalence, fun hu hv hmatch => ?_⟩ fun x y hxy => .eqn (hE x y hxy)
  refine Congruent.isCongruence.congr (happ _ _ hu) (happ _ _ hv) ?_
  rcases hmatch with h | ⟨hc, zs, hperm, h⟩
  · exact .inl h
  · exact .inr ⟨hcomm _ hc, zs, hperm, h⟩

end Terms

theorem matches_map {β : Type*} {f : α → β} {xs ys : List α} : Matches c (fun x y => f x = f y) xs ys ↔
    xs.map f = ys.map f ∨ c ∧ (xs.map f).Perm (ys.map f) := by
  have hforall (xs ys : List α) : List.Forall₂ (fun x y => f x = f y) xs ys ↔ xs.map f = ys.map f := by
    rw [← List.forall₂_eq_eq_eq, List.forall₂_map_left_iff, List.forall₂_map_right_iff]
  unfold Matches
  simp only [hforall]
  have hcomp := congrFun (congrFun (List.eq_map_comp_perm f) (xs.map f)) ys
  simp only [Relation.Comp, eq_iff_iff] at hcomp
  rw [← hcomp]
  simp only [and_comm]

end Nixie.Congruence
