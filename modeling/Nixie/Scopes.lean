import Mathlib.Data.List.Forall2

/-!
What has been asserted in a stack of scopes, innermost scope first.
-/

namespace Nixie

open List

variable {α β : Type*}

structure Scopes (α : Type*) where
  current : List α := []
  outer : List (List α) := []

namespace Scopes

def add (σ : Scopes α) (a : α) : Scopes α := { σ with current := σ.current ++ [a] }

def push (σ : Scopes α) : Scopes α := ⟨[], σ.current :: σ.outer⟩

def pop : ℕ → Scopes α → Scopes α
  | 0, σ => σ
  | _ + 1, ⟨current, []⟩ => ⟨current, []⟩
  | levels + 1, ⟨_, A :: outer⟩ => pop levels ⟨A, outer⟩

def levels (σ : Scopes α) : List (List α) := (σ.current :: σ.outer).reverse

def all (σ : Scopes α) : List α := σ.levels.flatten

theorem levels_add (σ : Scopes α) (a : α) : (σ.add a).levels = σ.outer.reverse ++ [σ.current ++ [a]] := by
  simp [levels, add]

theorem levels_push (σ : Scopes α) : σ.push.levels = σ.levels ++ [[]] := by
  simp [levels, push]

theorem length_levels (σ : Scopes α) : σ.levels.length = σ.outer.length + 1 := by
  simp [levels]

theorem levels_pop (n : ℕ) (σ : Scopes α) : (σ.pop n).levels = σ.levels.take (σ.outer.length - n + 1) := by
  induction n generalizing σ with
  | zero =>
    rw [pop, take_of_length_le]
    exact Nat.le_of_eq (length_levels σ)
  | succ n ih =>
    obtain ⟨current, outer⟩ := σ
    cases outer with
    | nil => simp [pop, levels]
    | cons A outer =>
      rw [pop, ih]
      have htake : outer.length - n + 1 ≤ (⟨A, outer⟩ : Scopes α).levels.length := by
        rw [length_levels]
        exact Nat.succ_le_succ (Nat.sub_le _ _)
      have hlevels : (⟨current, A :: outer⟩ : Scopes α).levels =
          (⟨A, outer⟩ : Scopes α).levels ++ [current] := by
        simp [levels]
      rw [hlevels, length_cons, Nat.add_sub_add_right, take_append_of_le_length htake]

variable {σ : Scopes α}

@[simp]
theorem mem_all_add {a b : α} : b ∈ (σ.add a).all ↔ b ∈ σ.all ∨ b = a := by
  simp only [all, levels, add, reverse_cons, flatten_append, flatten_singleton, mem_append, mem_singleton]
  tauto

@[simp]
theorem mem_all_push {a : α} : a ∈ σ.push.all ↔ a ∈ σ.all := by
  simp [all, levels, push]

theorem mem_all_of_mem_all_pop {n : ℕ} {a : α} (h : a ∈ (σ.pop n).all) : a ∈ σ.all := by
  unfold all at h ⊢
  rw [levels_pop] at h
  obtain ⟨l, hl, ha⟩ := mem_flatten.mp h
  exact mem_flatten.mpr ⟨l, mem_of_mem_take hl, ha⟩

end Scopes

end Nixie
