import Mathlib.Data.Nat.Bitwise
import Mathlib.Data.Set.Image

/-!
Clauses over an arbitrary type of literals.  An interpretation says which literals are true; the
class of interpretations is a parameter, so the same rules serve signed integers, coded literals
and atoms with a theory behind them.
-/

namespace Nixie.Propositional

variable {L : Type*}

def Holds (v : L → Prop) (C : Set L) : Prop := ∃ l ∈ C, v l

def Satisfies (v : L → Prop) (F : Set (Set L)) : Prop := ∀ C ∈ F, Holds v C

def Entails (I : Set (L → Prop)) (F : Set (Set L)) (C : Set L) : Prop :=
  ∀ v ∈ I, Satisfies v F → Holds v C

def Unsatisfiable (I : Set (L → Prop)) (F : Set (Set L)) : Prop := ∀ v ∈ I, ¬ Satisfies v F

variable {I : Set (L → Prop)} {F G : Set (Set L)} {C D : Set L} {v : L → Prop} {l m : L}

theorem Holds.mono (h : Holds v C) (hs : C ⊆ D) : Holds v D := by
  obtain ⟨l, hl, hv⟩ := h
  exact ⟨l, hs hl, hv⟩

theorem not_holds_empty : ¬ Holds v (∅ : Set L) := by
  rintro ⟨l, hl, _⟩
  exact hl

theorem unsatisfiable_iff : Unsatisfiable I F ↔ Entails I F ∅ := by
  constructor
  · intro h v hv hs
    exact absurd hs (h v hv)
  · intro h v hv hs
    exact not_holds_empty (h v hv hs)

theorem Entails.of_mem (h : C ∈ F) : Entails I F C := fun _ _ hs => hs C h

theorem Entails.weaken (h : Entails I F C) (hs : C ⊆ D) : Entails I F D :=
  fun v hv hF => (h v hv hF).mono hs

theorem Entails.mono (h : Entails I F C) (hs : F ⊆ G) : Entails I G C :=
  fun v hv hG => h v hv (fun D hD => hG D (hs hD))

theorem Entails.cut (h : Entails I G C) (hG : ∀ D ∈ G, Entails I F D) : Entails I F C :=
  fun v hv hF => h v hv (fun D hD => hG D hD v hv hF)

theorem Entails.resolve {neg : L → L} (hI : ∀ v ∈ I, ∀ l, v (neg l) ↔ ¬ v l)
    (h : Entails I F C) (hC : ∀ m ∈ C, m ≠ l → Entails I F {neg m}) : Entails I F {l} := by
  intro v hv hF
  obtain ⟨m, hm, hvm⟩ := h v hv hF
  by_cases hml : m = l
  · exact ⟨l, rfl, hml ▸ hvm⟩
  · obtain ⟨_, rfl, hvn⟩ := hC m hm hml v hv hF
    exact absurd hvm ((hI v hv m).mp hvn)

section

variable {neg : L → L} {S K : Set L} {rank : L → ℕ}

/-- Each literal of `S` has a clause in `G` whose other literals are refuted by literals of `K` or
by literals of `S` of smaller rank. -/
def Implied (neg : L → L) (rank : L → ℕ) (G : Set (Set L)) (K S : Set L) : Prop :=
  ∀ s ∈ S, ∃ R ∈ G, ∀ m ∈ R, m = s ∨ ∃ t, m = neg t ∧ (t ∈ K ∨ t ∈ S ∧ rank t < rank s)

theorem Implied.forced (hv : ∀ l, v (neg l) ↔ ¬ v l) (h : Implied neg rank G K S)
    (hG : Satisfies v G) (hK : ∀ t ∈ K, v t) : ∀ s ∈ S, v s := by
  -- strong induction on the rank: the clause of `s` has no true literal but `s`
  intro s
  induction hr : rank s using Nat.strong_induction_on generalizing s with
  | _ r ih =>
    intro hs
    obtain ⟨R, hR, hRs⟩ := h s hs
    obtain ⟨m, hm, hvm⟩ := hG R hR
    rcases hRs m hm with rfl | ⟨t, rfl, ht⟩
    · exact hvm
    · have hvt : v t := by
        rcases ht with ht | ⟨ht, hlt⟩
        · exact hK t ht
        · exact ih (rank t) (hr ▸ hlt) t rfl ht
      exact absurd hvt ((hv t).mp hvm)

theorem Implied.entails_cut (hI : ∀ v ∈ I, ∀ l, v (neg l) ↔ ¬ v l) (h : Implied neg rank G K S)
    (hC : C ∈ G) (hCs : ∀ m ∈ C, ∃ t ∈ S ∪ K, m = neg t) : Entails I G (neg '' K) := by
  intro v hv hG
  by_contra hnone
  have hK : ∀ t ∈ K, v t := by
    intro t ht
    by_contra hvt
    exact hnone ⟨neg t, ⟨t, ht, rfl⟩, (hI v hv t).mpr hvt⟩
  obtain ⟨m, hm, hvm⟩ := hG C hC
  obtain ⟨t, ht, rfl⟩ := hCs m hm
  rcases ht with ht | ht
  · exact (hI v hv t).mp hvm (h.forced (hI v hv) hG hK t ht)
  · exact (hI v hv t).mp hvm (hK t ht)

theorem Implied.entails_lit (hI : ∀ v ∈ I, ∀ l, v (neg l) ↔ ¬ v l) (h : Implied neg rank G K S)
    {s : L} (hs : s ∈ S) : Entails I G (insert s (neg '' K)) := by
  intro v hv hG
  by_cases hK : ∀ t ∈ K, v t
  · exact ⟨s, Set.mem_insert _ _, h.forced (hI v hv) hG hK s hs⟩
  · obtain ⟨t, ht⟩ := not_forall.mp hK
    obtain ⟨ht, hvt⟩ := Classical.not_imp.mp ht
    exact ⟨neg t, Set.mem_insert_of_mem _ ⟨t, ht, rfl⟩, (hI v hv t).mpr hvt⟩

end

end Nixie.Propositional

namespace Nixie.Literal

open Nixie.Propositional

def neg (lit : ℕ) : ℕ := lit ^^^ 1

theorem neg_eq (lit : ℕ) : neg lit = if lit % 2 = 0 then lit + 1 else lit - 1 := by
  unfold neg
  split
  · next h => exact Nat.xor_one_of_even (Nat.even_iff.mpr h)
  · next h => exact Nat.xor_one_of_odd (Nat.odd_iff.mpr (by omega))

@[simp]
theorem neg_neg (lit : ℕ) : neg (neg lit) = lit := by
  simp [neg]

@[simp]
theorem neg_div_two (lit : ℕ) : neg lit / 2 = lit / 2 := by
  rw [neg_eq]
  split <;> omega

theorem neg_ne (lit : ℕ) : neg lit ≠ lit := by
  rw [neg_eq]
  split <;> omega

@[simp]
theorem neg_inj {a b : ℕ} : neg a = neg b ↔ a = b := ⟨fun h => by rw [← neg_neg a, h, neg_neg], fun h => h ▸ rfl⟩

theorem eq_or_eq_neg {a b : ℕ} (h : a / 2 = b / 2) : a = b ∨ a = neg b := by
  rw [neg_eq]
  split <;> omega

def Assigns (σ : ℕ → Bool) (lit : ℕ) : Prop := σ (lit / 2) = (lit % 2 == 0)

def valuations : Set (ℕ → Prop) := Set.range Assigns

theorem valuations_neg : ∀ v ∈ valuations, ∀ lit, v (neg lit) ↔ ¬ v lit := by
  rintro _ ⟨σ, rfl⟩ lit
  have hmod : (neg lit % 2 == 0) = !(lit % 2 == 0) := by
    rw [neg_eq]
    rcases Nat.mod_two_eq_zero_or_one lit with h | h
    · simp [h, Nat.add_mod]
    · rw [if_neg (by omega), h]
      simp
      omega
  simp only [Assigns, neg_div_two, hmod]
  cases σ (lit / 2) <;> cases (lit % 2 == 0) <;> simp

def clauseSet (c : List ℕ) : Set ℕ := {l | l ∈ c}

def formula (clauses : List (List ℕ)) : Set (Set ℕ) := clauseSet '' {c | c ∈ clauses}

end Nixie.Literal
