import Mathlib.Data.Matrix.Mul
import Nixie.Cofactors

/-!
Column echelon form and integer equalities, `nixie-theories/src/arithmetic/lia/hnf.rs`.  Integers are exact;
an `i128` operation that leaves its range gives up where the code checks it and is a fault where it does not.
-/

namespace Nixie.Lia

open Matrix List Int

def Wide (v : ℤ) : Prop := -2 ^ 127 ≤ v ∧ v < 2 ^ 127

instance (v : ℤ) : Decidable (Wide v) := inferInstanceAs (Decidable (_ ∧ _))

inductive Stop
  | giveUp
  | fault
  deriving DecidableEq

abbrev Run := Except Stop

def magBoundSolve : ℤ := 2 ^ 63 - 1

def maxEntries : ℕ := 200000

def Fits (v mag : ℤ) : Prop := -mag ≤ v ∧ v ≤ mag

instance (v mag : ℤ) : Decidable (Fits v mag) := inferInstanceAs (Decidable (_ ∧ _))

def TurnWide (oldR r oldS s oldT t : ℤ) : Prop :=
  Wide (oldR.tdiv r) ∧ Wide (oldR.tdiv r * r) ∧ Wide (oldR - oldR.tdiv r * r) ∧
    Wide (oldR.tdiv r * s) ∧ Wide (oldS - oldR.tdiv r * s) ∧
    Wide (oldR.tdiv r * t) ∧ Wide (oldT - oldR.tdiv r * t)

instance (oldR r oldS s oldT t : ℤ) : Decidable (TurnWide oldR r oldS s oldT t) :=
  inferInstanceAs (Decidable (_ ∧ _ ∧ _ ∧ _ ∧ _ ∧ _ ∧ _))

theorem sub_tdiv_mul (oldR r : ℤ) : oldR - oldR.tdiv r * r = oldR.tmod r := by
  have h := mul_tdiv_add_tmod oldR r
  rw [mul_comm] at h
  omega

def extGcdLoop (oldR r oldS s oldT t : ℤ) : Run (ℤ × ℤ × ℤ) :=
  if hr : r = 0 then
    if oldR < 0 then
      if Wide (-oldR) ∧ Wide (-oldS) ∧ Wide (-oldT) then .ok (-oldR, -oldS, -oldT) else .error .fault
    else .ok (oldR, oldS, oldT)
  else
    let q := oldR.tdiv r
    if TurnWide oldR r oldS s oldT t then
      extGcdLoop r (oldR - q * r) s (oldS - q * s) t (oldT - q * t)
    else .error .fault
termination_by r.natAbs
decreasing_by
  rw [sub_tdiv_mul, natAbs_tmod]
  exact Nat.mod_lt _ (Int.natAbs_pos.mpr hr)

def extGcd (a b : ℤ) : Run (ℤ × ℤ × ℤ) := extGcdLoop a b 1 0 0 1

theorem extGcdLoop_ok {a b oldR r oldS s oldT t : ℤ} (h : Cofactors.State a b oldR r oldS s oldT t) {g x y : ℤ}
    (hok : extGcdLoop oldR r oldS s oldT t = .ok (g, x, y)) : g = Int.gcd a b ∧ x * a + y * b = g := by
  induction oldR, r, oldS, s, oldT, t using extGcdLoop.induct with
  | case1 oldR oldS s oldT t hneg hwide =>
    rw [extGcdLoop, dif_pos rfl, if_pos hneg, if_pos hwide] at hok
    obtain ⟨rfl, rfl, rfl⟩ : -oldR = g ∧ -oldS = x ∧ -oldT = y := by simpa using hok
    have habs := h.natAbs
    have hold := h.old
    exact ⟨by omega, by rw [← hold]; ring⟩
  | case2 oldR oldS s oldT t hneg hwide =>
    rw [extGcdLoop, dif_pos rfl, if_pos hneg, if_neg hwide] at hok
    cases hok
  | case3 oldR oldS s oldT t hneg =>
    rw [extGcdLoop, dif_pos rfl, if_neg hneg] at hok
    obtain ⟨rfl, rfl, rfl⟩ : oldR = g ∧ oldS = x ∧ oldT = y := by simpa using hok
    have habs := h.natAbs
    exact ⟨by omega, h.old⟩
  | case4 oldR r oldS s oldT t hr q hwide ih =>
    rw [extGcdLoop, dif_neg hr] at hok
    simp only [if_pos hwide] at hok
    refine ih ?_ hok
    have hstep := h.step
    rwa [← sub_tdiv_mul] at hstep
  | case5 oldR r oldS s oldT t hr hwide =>
    rw [extGcdLoop, dif_neg hr] at hok
    simp only [if_neg hwide] at hok
    cases hok

theorem extGcd_ok {a b g s t : ℤ} (hok : extGcd a b = .ok (g, s, t)) : g = Int.gcd a b ∧ s * a + t * b = g :=
  extGcdLoop_ok Cofactors.state_start hok

section

variable {k m n : ℕ}

def pairUpdate (M : Matrix (Fin k) (Fin n) ℤ) (p q : Fin n) (m11 m12 m21 m22 : ℤ) : Matrix (Fin k) (Fin n) ℤ :=
  fun i j =>
    if j = p then m11 * M i p + m12 * M i q
    else if j = q then m21 * M i p + m22 * M i q
    else M i j

def PairFits (M : Matrix (Fin k) (Fin n) ℤ) (p q : Fin n) (m11 m12 m21 m22 mag : ℤ) : Prop :=
  ∀ i, Wide (m11 * M i p) ∧ Wide (m12 * M i q) ∧ Wide (m11 * M i p + m12 * M i q) ∧
    Wide (m21 * M i p) ∧ Wide (m22 * M i q) ∧ Wide (m21 * M i p + m22 * M i q) ∧
    Fits (m11 * M i p + m12 * M i q) mag ∧ Fits (m21 * M i p + m22 * M i q) mag

instance (M : Matrix (Fin k) (Fin n) ℤ) (p q : Fin n) (m11 m12 m21 m22 mag : ℤ) :
    Decidable (PairFits M p q m11 m12 m21 m22 mag) := inferInstanceAs (Decidable (∀ _, _))

def swapCols (M : Matrix (Fin k) (Fin n) ℤ) (p q : Fin n) : Matrix (Fin k) (Fin n) ℤ :=
  fun i j => M i (Equiv.swap p q j)

def negCol (M : Matrix (Fin k) (Fin n) ℤ) (p : Fin n) : Matrix (Fin k) (Fin n) ℤ :=
  fun i j => if j = p then -M i j else M i j

structure ColEchelon (m n : ℕ) where
  h : Matrix (Fin m) (Fin n) ℤ
  u : Matrix (Fin n) (Fin n) ℤ
  pivotRows : List (Fin m)

def openNonzeros (h : Matrix (Fin m) (Fin n) ℤ) (r : Fin m) (cs : ℕ) : List (Fin n) :=
  (List.finRange n).filter fun j => cs ≤ j.val ∧ h r j ≠ 0

def pairStep (mag : ℤ) (e : ColEchelon m n) (r : Fin m) (p q : Fin n) : Run (Option (ColEchelon m n)) :=
  match extGcd (e.h r p) (e.h r q) with
  | .error stop => .error stop
  | .ok (g, s, t) =>
    if g = 0 then .ok none
    else if Wide (-e.h r q) ∧ Wide ((-e.h r q).tdiv g) ∧ Wide ((e.h r p).tdiv g) then
      let m21 := (-e.h r q).tdiv g
      let m22 := (e.h r p).tdiv g
      if PairFits e.h p q s t m21 m22 mag ∧ PairFits e.u p q s t m21 m22 mag then
        .ok (some { e with h := pairUpdate e.h p q s t m21 m22, u := pairUpdate e.u p q s t m21 m22 })
      else .error .giveUp
    else .error .fault

variable {r : Fin m}

theorem pairStep_ok {mag : ℤ} {e e' : ColEchelon m n} {p q : Fin n}
    (hok : pairStep mag e r p q = .ok (some e')) : ∃ g s t m21 m22, s * e.h r p + t * e.h r q = g ∧
    m21 * g = -e.h r q ∧ m22 * g = e.h r p ∧ g ≠ 0 ∧ PairFits e.h p q s t m21 m22 mag ∧
    PairFits e.u p q s t m21 m22 mag ∧ e' =
    { e with h := pairUpdate e.h p q s t m21 m22, u := pairUpdate e.u p q s t m21 m22 } := by
  unfold pairStep at hok
  split at hok
  · cases hok
  next g s t hgcd =>
    obtain ⟨hg, hbezout⟩ := extGcd_ok hgcd
    have hdvdp : g ∣ e.h r p := hg ▸ Int.gcd_dvd_left _ _
    have hdvdq : g ∣ -e.h r q := (hg ▸ Int.gcd_dvd_right (e.h r p) (e.h r q) : g ∣ e.h r q).neg_right
    split at hok
    · cases hok
    next hne =>
      split at hok
      · dsimp only at hok
        split at hok
        next hfits =>
          refine ⟨g, s, t, _, _, hbezout, Int.tdiv_mul_cancel hdvdq, Int.tdiv_mul_cancel hdvdp, hne, hfits.1, hfits.2,
            ?_⟩
          simpa using hok.symm
        · cases hok
      · cases hok

theorem pairUpdate_row {e : ColEchelon m n} {p q : Fin n} {g s t m21 m22 : ℤ}
    (hbezout : s * e.h r p + t * e.h r q = g) (hq : m21 * g = -e.h r q) (hp : m22 * g = e.h r p) (hpq : p ≠ q) :
    pairUpdate e.h p q s t m21 m22 r p = g ∧ pairUpdate e.h p q s t m21 m22 r q = 0 := by
  refine ⟨by rw [pairUpdate, if_pos rfl, hbezout], ?_⟩
  rw [pairUpdate, if_neg hpq.symm, if_pos rfl]
  have hq' : e.h r q = -(m21 * g) := by rw [hq, neg_neg]
  rw [hq', ← hp]
  ring

variable {cs : ℕ}

theorem mem_openNonzeros {h : Matrix (Fin m) (Fin n) ℤ} {j : Fin n} : j ∈ openNonzeros h r cs ↔ cs ≤ j.val ∧
    h r j ≠ 0 := by
  simp [openNonzeros]

theorem openNonzeros_ne {h : Matrix (Fin m) (Fin n) ℤ} {p q : Fin n} {rest : List (Fin n)}
    (hnz : openNonzeros h r cs = p :: q :: rest) : p ≠ q := by
  have hnodup : (openNonzeros h r cs).Nodup := (nodup_finRange n).filter _
  rw [hnz] at hnodup
  exact fun heq => (nodup_cons.mp hnodup).1 (heq ▸ mem_cons_self)

theorem pairStep_length {mag : ℤ} {e e' : ColEchelon m n} {p q : Fin n} {rest : List (Fin n)}
    (hnz : openNonzeros e.h r cs = p :: q :: rest) (hok : pairStep mag e r p q = .ok (some e')) :
    (openNonzeros e'.h r cs).length < (openNonzeros e.h r cs).length := by
  obtain ⟨g, s, t, m21, m22, hbezout, hq, hp, -, -, -, rfl⟩ := pairStep_ok hok
  obtain ⟨-, hzero⟩ := pairUpdate_row hbezout hq hp (openNonzeros_ne hnz)
  have hsub : openNonzeros (pairUpdate e.h p q s t m21 m22) r cs ⊆ (openNonzeros e.h r cs).erase q := by
    intro j hj
    obtain ⟨hcs, hne⟩ := mem_openNonzeros.mp hj
    have hjq : j ≠ q := fun heq => hne (heq ▸ hzero)
    refine (mem_erase_of_ne hjq).mpr ?_
    by_cases hjp : j = p
    · exact hjp ▸ hnz ▸ mem_cons_self
    · rw [pairUpdate, if_neg hjp, if_neg hjq] at hne
      exact mem_openNonzeros.mpr ⟨hcs, hne⟩
  have hmem : q ∈ openNonzeros e.h r cs := hnz ▸ mem_cons_of_mem _ mem_cons_self
  have hnodup : (openNonzeros (pairUpdate e.h p q s t m21 m22) r cs).Nodup := (nodup_finRange n).filter _
  have hle := (subperm_of_subset hnodup hsub).length_le
  rw [length_erase_of_mem hmem] at hle
  have hpos := length_pos_of_mem hmem
  exact Nat.lt_of_le_pred hpos hle

def reduceRow (mag : ℤ) (e : ColEchelon m n) (r : Fin m) (cs : ℕ) : Run (ColEchelon m n) :=
  match _hnz : openNonzeros e.h r cs with
  | p :: q :: _ =>
    match _hok : pairStep mag e r p q with
    | .error stop => .error stop
    | .ok none => .ok e
    | .ok (some e') => reduceRow mag e' r cs
  | _ => .ok e
termination_by (openNonzeros e.h r cs).length
decreasing_by exact pairStep_length _hnz _hok

def installPivot (e : ColEchelon m n) (r : Fin m) : Run (ColEchelon m n) :=
  let cs := e.pivotRows.length
  match hfind : (List.finRange n).find? fun c => cs ≤ c.val ∧ e.h r c ≠ 0 with
  | none => .ok e
  | some p =>
    let c : Fin n := ⟨cs, lt_of_le_of_lt
      (by have h := find?_some hfind; simp only [decide_eq_true_eq] at h; exact h.1) p.isLt⟩
    let h := if p ≠ c then swapCols e.h p c else e.h
    let u := if p ≠ c then swapCols e.u p c else e.u
    if h r c < 0 then
      if (∀ i, Wide (-h i c)) ∧ ∀ i, Wide (-u i c) then .ok ⟨negCol h c, negCol u c, e.pivotRows ++ [r]⟩
      else .error .fault
    else .ok ⟨h, u, e.pivotRows ++ [r]⟩

def rowStep (mag : ℤ) (e : ColEchelon m n) (r : Fin m) : Run (ColEchelon m n) := do
  let e ← reduceRow mag e r e.pivotRows.length
  installPivot e r

def columnEchelon (a : Matrix (Fin m) (Fin n) ℤ) (mag : ℤ) : Run (ColEchelon m n) :=
  if maxEntries < m * n then .error .giveUp
  else (List.finRange m).foldlM (rowStep mag) ⟨a, 1, []⟩

end

section

variable {m n : ℕ}

inductive EqSolution (m : ℕ)
  | infeasible (core : List (Fin m))
  | feasible (x : List ℤ)
  | giveUp
  deriving DecidableEq

def subtractTerms (row z : Fin n → ℤ) : List (Fin n) → ℤ → Run ℤ
  | [], val => .ok val
  | j :: js, val =>
    if Wide (row j * z j) ∧ Wide (val - row j * z j) then subtractTerms row z js (val - row j * z j)
    else .error .giveUp

def addTerms (row z : Fin n → ℤ) : List (Fin n) → ℤ → Run ℤ
  | [], sum => .ok sum
  | j :: js, sum =>
    if Wide (row j * z j) ∧ Wide (sum + row j * z j) then addTerms row z js (sum + row j * z j)
    else .error .giveUp

def pivotCols (n rank : ℕ) : List (Fin n) := (List.finRange n).filter fun j => j.val < rank

def sortedCore (core : List (Fin m)) : List (Fin m) := (core.insertionSort (· ≤ ·)).dedup

def substitute (e : ColEchelon m n) (b : Fin m → ℤ) :
    List (Fin m) → ℕ → (Fin n → ℤ) → Run (List (Fin m) ⊕ (Fin n → ℤ))
  | [], _, z => .ok (.inr z)
  | pr :: rest, i, z => do
    let val ← subtractTerms (e.h pr) z (pivotCols n e.pivotRows.length) (b pr)
    if hi : i < n then
      let d := e.h pr ⟨i, hi⟩
      if d = 0 then .error .giveUp
      else if ¬ (Wide (val.tmod d) ∧ Wide (val.tdiv d)) then .error .fault
      else if val.tmod d ≠ 0 then .ok (.inl (sortedCore (e.pivotRows.take (i + 1))))
      else substitute e b rest (i + 1) (Function.update z ⟨i, hi⟩ (val.tdiv d))
    else .error .fault

def consistent (e : ColEchelon m n) (b : Fin m → ℤ) (z : Fin n → ℤ) : List (Fin m) → Run (Option (List (Fin m)))
  | [] => .ok none
  | w :: rest =>
    if w ∈ e.pivotRows then consistent e b z rest
    else do
      let sum ← addTerms (e.h w) z (pivotCols n e.pivotRows.length) 0
      if sum ≠ b w then .ok (some (sortedCore (w :: e.pivotRows))) else consistent e b z rest

def solveRun (a : Matrix (Fin m) (Fin n) ℤ) (b : List ℤ) : Run (EqSolution m) :=
  if m ≠ b.length then .ok .giveUp
  else do
    let rhs := fun i : Fin m => b.getD i 0
    let e ← columnEchelon a magBoundSolve
    match ← substitute e rhs e.pivotRows 0 0 with
    | .inl core => .ok (.infeasible core)
    | .inr z =>
      match ← consistent e rhs z (List.finRange m) with
      | some core => .ok (.infeasible core)
      | none =>
        let x ← (List.finRange n).mapM fun c => addTerms (e.u c) z (pivotCols n e.pivotRows.length) 0
        .ok (.feasible x)

/-- No answer where an unchecked operation leaves `i128`; without rows, `n` is zero in the code. -/
def solveIntegerEqSystem (a : Matrix (Fin m) (Fin n) ℤ) (b : List ℤ) : Option (EqSolution m) :=
  match solveRun a b with
  | .ok answer => some answer
  | .error .giveUp => some .giveUp
  | .error .fault => none

end

end Nixie.Lia
