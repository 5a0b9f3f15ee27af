import Mathlib.Data.List.Forall2
import Mathlib.Tactic.Linarith

namespace Nixie.Odometer

def advance : List ℕ → List ℕ → Option (List ℕ)
  | size :: sizes, digit :: digits =>
    if digit + 1 < size then some ((digit + 1) :: digits)
    else (advance sizes digits).map (0 :: ·)
  | _, _ => none

def code : List ℕ → List ℕ → ℕ
  | size :: sizes, digit :: digits => digit + size * code sizes digits
  | _, _ => 0

abbrev Valid (sizes digits : List ℕ) : Prop :=
  List.Forall₂ (fun size digit => digit < size) sizes digits

variable {sizes ds ds' es : List ℕ}

theorem valid_zeros (h : ∀ size ∈ sizes, 0 < size) : Valid sizes (List.replicate sizes.length 0) := by
  induction sizes with
  | nil => exact .nil
  | cons size sizes ih =>
    exact .cons (h size List.mem_cons_self) (ih fun s hs => h s (List.mem_cons_of_mem size hs))

theorem pos_of_valid (h : Valid sizes ds) : ∀ size ∈ sizes, 0 < size := by
  induction h with
  | nil => simp
  | cons hdigit htail ih => exact List.forall_mem_cons.mpr ⟨by omega, ih⟩

theorem code_zeros (sizes : List ℕ) : code sizes (List.replicate sizes.length 0) = 0 := by
  induction sizes with
  | nil => rfl
  | cons size sizes ih => simp [List.replicate_succ, code, ih]

theorem advance_spec (hvalid : Valid sizes ds) (h : advance sizes ds = some ds') :
    Valid sizes ds' ∧ code sizes ds' = code sizes ds + 1 := by
  induction hvalid generalizing ds' with
  | nil => cases h
  | @cons size digit sizes ds hdigit htail ih =>
    rw [advance] at h
    split_ifs at h with hturn
    · cases h
      refine ⟨.cons hturn htail, ?_⟩
      simp only [code]
      omega
    · rw [Option.map_eq_some_iff] at h
      obtain ⟨rest, hrest, rfl⟩ := h
      obtain ⟨hvalid, hcode⟩ := ih hrest
      refine ⟨.cons (by omega) hvalid, ?_⟩
      -- the wheel that turns over stood at its last digit
      have hlast : digit + 1 = size := by omega
      simp only [code, hcode, Nat.mul_add, ← hlast]
      omega

theorem code_le_of_advance_none (hvalid : Valid sizes ds) (h : advance sizes ds = none)
    (hes : Valid sizes es) : code sizes es ≤ code sizes ds := by
  induction hvalid generalizing es with
  | nil => simp [code]
  | @cons size digit sizes ds hdigit htail ih =>
    cases hes with
    | @cons _ e _ es he hes =>
      rw [advance] at h
      split_ifs at h with hturn
      rw [Option.map_eq_none_iff] at h
      have hle := Nat.mul_le_mul_left size (ih h hes)
      simp only [code]
      omega

theorem code_injective (hds : Valid sizes ds) (hes : Valid sizes es) (h : code sizes ds = code sizes es) : ds = es := by
  induction hds generalizing es with
  | nil =>
    cases hes
    rfl
  | @cons size digit sizes ds hdigit htail ih =>
    cases hes with
    | @cons _ e _ es he hes =>
      simp only [code] at h
      have hdigits : digit = e := by
        have hmod := congrArg (· % size) h
        simpa only [Nat.add_mul_mod_self_left, Nat.mod_eq_of_lt hdigit, Nat.mod_eq_of_lt he] using hmod
      have hcodes : code sizes ds = code sizes es := Nat.eq_of_mul_eq_mul_left (by omega : 0 < size) (by omega)
      rw [hdigits, ih hes hcodes]

theorem eq_or_after_advance (hds : Valid sizes ds) (hes : Valid sizes es) (hle : code sizes ds ≤ code sizes es) : ds =
    es ∨ ∃ next, advance sizes ds = some next ∧ Valid sizes next ∧ code sizes next ≤ code sizes es := by
  rcases hle.eq_or_lt with heq | hlt
  · exact .inl (code_injective hds hes heq)
  · right
    cases hnext : advance sizes ds with
    | none => exact absurd (code_le_of_advance_none hds hnext hes) (by omega)
    | some next =>
      obtain ⟨hvalid, hcode⟩ := advance_spec hds hnext
      exact ⟨next, rfl, hvalid, by omega⟩

end Nixie.Odometer
