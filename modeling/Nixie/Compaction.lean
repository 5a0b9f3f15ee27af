import Mathlib.Tactic.Common
import Mathlib.Order.Basic

/-!
Compaction of a list in place: what was kept stands before the write position, what is still to be
read stands from the read position on.
-/

namespace Nixie.Compaction

open List

variable {α : Type} {xs kept rest : List α} {write read : ℕ} {x : α}

structure Compacts (xs : List α) (write read : ℕ) (kept rest : List α) : Prop where
  write_le : write ≤ read
  kept_eq : xs.take write = kept
  rest_eq : xs.drop read = rest
  length_kept : kept.length = write

theorem compacts_start (xs : List α) : Compacts xs 0 0 [] xs := ⟨Nat.le_refl 0, rfl, rfl, rfl⟩

def copyWithin (xs : List α) (src dst : ℕ) : List α :=
  xs.take dst ++ xs.drop src ++ xs.drop (dst + (xs.length - src))

def copyRest (fallback : α) : ℕ → ℕ → ℕ → List α → List α × ℕ
  | 0, _, write, xs => (xs, write)
  | n + 1, rest, write, xs =>
    copyRest fallback n (rest + 1) (write + 1) (xs.set write (xs.getD rest fallback))

namespace Compacts

section

variable (h : Compacts xs write read kept (x :: rest))
include h

theorem getElem?_read : xs[read]? = some x := by
  rw [← head?_drop, h.rest_eq, head?_cons]

theorem getD_read (y : α) : xs.getD read y = x := by
  rw [getD_eq_getElem?_getD, h.getElem?_read, Option.getD_some]

theorem read_lt : read < xs.length := (List.getElem?_eq_some_iff.mp h.getElem?_read).1

end

theorem length_rest (h : Compacts xs write read kept rest) : rest.length = xs.length - read := by
  rw [← h.rest_eq, length_drop]

section

variable (h : Compacts xs write read kept (x :: rest))
include h

theorem drop_succ : xs.drop (read + 1) = rest := by
  rw [← drop_drop, h.rest_eq]
  rfl

theorem skip : Compacts xs write (read + 1) kept rest :=
  ⟨Nat.le_succ_of_le h.write_le, h.kept_eq, h.drop_succ, h.length_kept⟩

theorem keep (y : α) : Compacts (xs.set write y) (write + 1) (read + 1) (kept ++ [y]) rest := by
  have hwrite : write < xs.length := Nat.lt_of_le_of_lt h.write_le h.read_lt
  refine ⟨Nat.succ_le_succ h.write_le, ?_, ?_, ?_⟩
  · rw [take_add_one, take_set_of_le (Nat.le_refl write), h.kept_eq, getElem?_set_self hwrite]
    rfl
  · rw [drop_set_of_lt (Nat.lt_succ_of_le h.write_le), h.drop_succ]
  · rw [length_append, h.length_kept, length_singleton]

end

theorem keep_same (h : Compacts xs read read kept (x :: rest)) :
    Compacts xs (read + 1) (read + 1) (kept ++ [x]) rest := by
  have hset : xs.set read x = xs := by
    obtain ⟨hlt, hx⟩ := List.getElem?_eq_some_iff.mp h.getElem?_read
    rw [← hx, List.set_getElem_self]
  have hkeep := h.keep x
  rwa [hset] at hkeep

theorem eq_append (h : Compacts xs read read kept rest) : xs = kept ++ rest := by
  rw [← h.kept_eq, ← h.rest_eq, take_append_drop]

section

variable (h : Compacts xs write read kept rest)
include h

theorem length_copyWithin (hread : read ≤ xs.length) : (copyWithin xs read write).length = xs.length := by
  have hwrite := h.write_le
  simp only [copyWithin, length_append, length_take, length_drop]
  omega

theorem take_copyWithin : (copyWithin xs read write).take (write + (xs.length - read)) = kept ++ rest := by
  have hlength : (kept ++ rest).length = write + (xs.length - read) := by
    rw [length_append, h.length_kept, h.length_rest]
  rw [copyWithin, h.kept_eq, h.rest_eq, ← hlength, take_left']
  rfl

theorem take_copyRest (y : α) :
    (copyRest y rest.length read write xs).1.take (copyRest y rest.length read write xs).2 = kept ++ rest := by
  induction rest generalizing xs write read kept with
  | nil =>
    rw [append_nil]
    exact h.kept_eq
  | cons x rest ih =>
    rw [length_cons, copyRest, h.getD_read, ih (h.keep x), append_assoc, singleton_append]

end

end Compacts

end Nixie.Compaction
