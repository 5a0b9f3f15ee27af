import Mathlib.Tactic.LinearCombination
import Nixie.Lia.Hnf

/-!
The column reduction keeps the matrix equation and the lattice, and never leaves the integer range unseen.
-/

namespace Nixie.Lia

open Matrix List

variable {k m n : ℕ}

def Narrow (v : ℤ) : Prop := |v| ≤ 2 ^ 63

theorem Narrow.wide_neg {v : ℤ} (h : Narrow v) : Wide (-v) := by
  have hle := abs_le.mp h
  exact ⟨by omega, by omega⟩

theorem narrow_of_fits {v : ℤ} (h : Fits v magBoundSolve) : Narrow v := by
  simp only [Fits, magBoundSolve] at h
  exact abs_le.mpr ⟨by omega, by omega⟩

theorem abs_tdiv_le (v d : ℤ) : |v.tdiv d| ≤ |v| := by
  rw [Int.abs_eq_natAbs, Int.abs_eq_natAbs, Int.natAbs_tdiv]
  exact_mod_cast Nat.div_le_self _ _

section

variable {a b oldR r oldS s oldT t : ℤ}

structure Carried (oldR r oldS s oldT t : ℤ) : Prop where
  oldR : Narrow oldR
  r : Narrow r
  oldS : Narrow oldS
  s : Narrow s
  oldT : Narrow oldT
  t : Narrow t

theorem abs_tdiv_mul_le (oldR r : ℤ) : |oldR.tdiv r * r| ≤ |oldR| := by
  rw [abs_mul, Int.abs_eq_natAbs, Int.abs_eq_natAbs, Int.abs_eq_natAbs, Int.natAbs_tdiv]
  exact_mod_cast Nat.div_mul_le_self _ _

theorem abs_tmod_le (oldR r : ℤ) : |oldR.tmod r| ≤ |oldR| := by
  rw [Int.abs_eq_natAbs, Int.abs_eq_natAbs, Int.natAbs_tmod]
  exact_mod_cast Nat.mod_le _ _

theorem wide_of_sub {old new : ℤ} (hold : Narrow old) (hnew : Narrow new) : Wide (old - new) := by
  have h := abs_le.mp hold
  have h' := abs_le.mp hnew
  exact ⟨by omega, by omega⟩

theorem Narrow.wide {v : ℤ} (h : Narrow v) : Wide v := by
  have hle := abs_le.mp h
  exact ⟨by omega, by omega⟩

theorem Carried.step (hstate : Cofactors.State a b oldR r oldS s oldT t) (ha : Narrow a) (hb : Narrow b)
    (h : Carried oldR r oldS s oldT t) (hr : r ≠ 0) : TurnWide oldR r oldS s oldT t ∧
    Carried r (oldR - oldR.tdiv r * r) s (oldS - oldR.tdiv r * s) t (oldT - oldR.tdiv r * t) := by
  have hnext := hstate.step
  have hs : Narrow (oldS - oldR.tdiv r * s) := (hnext.left.le hr).trans hb
  have ht : Narrow (oldT - oldR.tdiv r * t) := (hnext.right.le hr).trans ha
  have hrem : Narrow (oldR - oldR.tdiv r * r) := by
    rw [sub_tdiv_mul]
    exact (abs_tmod_le _ _).trans h.oldR
  have hq : Narrow (oldR.tdiv r) := (abs_tdiv_le _ _).trans h.oldR
  have hqr : Narrow (oldR.tdiv r * r) := (abs_tdiv_mul_le _ _).trans h.oldR
  have hqs : Wide (oldR.tdiv r * s) := by
    have hwide := wide_of_sub h.oldS hs
    rwa [sub_sub_cancel] at hwide
  have hqt : Wide (oldR.tdiv r * t) := by
    have hwide := wide_of_sub h.oldT ht
    rwa [sub_sub_cancel] at hwide
  exact ⟨⟨hq.wide, hqr.wide, hrem.wide, hqs, hs.wide, hqt, ht.wide⟩, ⟨h.r, hrem, h.s, hs, h.t, ht⟩⟩

theorem extGcdLoop_total (ha : Narrow a) (hb : Narrow b) (hstate : Cofactors.State a b oldR r oldS s oldT t)
    (h : Carried oldR r oldS s oldT t) : ∃ out, extGcdLoop oldR r oldS s oldT t = .ok out := by
  induction oldR, r, oldS, s, oldT, t using extGcdLoop.induct with
  | case1 oldR oldS s oldT t hneg hwide =>
    rw [extGcdLoop, dif_pos rfl, if_pos hneg, if_pos hwide]
    exact ⟨_, rfl⟩
  | case2 oldR oldS s oldT t hneg hwide =>
    exact absurd ⟨h.oldR.wide_neg, h.oldS.wide_neg, h.oldT.wide_neg⟩ hwide
  | case3 oldR oldS s oldT t hneg =>
    rw [extGcdLoop, dif_pos rfl, if_neg hneg]
    exact ⟨_, rfl⟩
  | case4 oldR r oldS s oldT t hr q hwide ih =>
    rw [extGcdLoop, dif_neg hr]
    simp only [if_pos hwide]
    have hstep := hstate.step
    rw [← sub_tdiv_mul] at hstep
    exact ih hstep (h.step hstate ha hb hr).2
  | case5 oldR r oldS s oldT t hr hwide => exact absurd (h.step hstate ha hb hr).1 hwide

theorem extGcd_total (ha : Narrow a) (hb : Narrow b) : ∃ out, extGcd a b = .ok out := by
  have hzero : Narrow 0 := abs_le.mpr ⟨by omega, by omega⟩
  have hone : Narrow 1 := abs_le.mpr ⟨by omega, by omega⟩
  exact extGcdLoop_total ha hb Cofactors.state_start ⟨ha, hb, hone, hzero, hzero, hone⟩

end

structure ColumnOp (cs : ℕ) (f : ∀ k, Matrix (Fin k) (Fin n) ℤ → Matrix (Fin k) (Fin n) ℤ) : Prop where
  mul : ∀ {k l} (M : Matrix (Fin k) (Fin l) ℤ) (N : Matrix (Fin l) (Fin n) ℤ), M * f l N = f k (M * N)
  back : ∃ g : ∀ k, Matrix (Fin k) (Fin n) ℤ → Matrix (Fin k) (Fin n) ℤ,
    (∀ {k l} (M : Matrix (Fin k) (Fin l) ℤ) (N : Matrix (Fin l) (Fin n) ℤ), M * g l N = g k (M * N)) ∧
      ∀ k M, g k (f k M) = M
  low : ∀ {k} (M : Matrix (Fin k) (Fin n) ℤ) i (j : Fin n), j.val < cs → f k M i j = M i j
  zero : ∀ {k} (M : Matrix (Fin k) (Fin n) ℤ) i, (∀ j : Fin n, cs ≤ j.val → M i j = 0) →
    ∀ j : Fin n, cs ≤ j.val → f k M i j = 0

variable {cs : ℕ}

theorem ColumnOp.onto {f : ∀ k, Matrix (Fin k) (Fin n) ℤ → Matrix (Fin k) (Fin n) ℤ} (hf : ColumnOp cs f)
    {u : Matrix (Fin k) (Fin n) ℤ} {x : Fin k → ℤ} (h : ∃ y, u *ᵥ y = x) : ∃ y, f k u *ᵥ y = x := by
  obtain ⟨y, rfl⟩ := h
  obtain ⟨g, hmul, hback⟩ := hf.back
  refine ⟨g n 1 *ᵥ y, ?_⟩
  rw [mulVec_mulVec, hmul, Matrix.mul_one, hback]

theorem mul_pairUpdate {l : ℕ} (M : Matrix (Fin k) (Fin l) ℤ) (N : Matrix (Fin l) (Fin n) ℤ) (p q : Fin n)
    (m11 m12 m21 m22 : ℤ) : M * pairUpdate N p q m11 m12 m21 m22 = pairUpdate (M * N) p q m11 m12 m21 m22 := by
  ext i j
  simp only [Matrix.mul_apply, pairUpdate]
  split
  · rw [Finset.mul_sum, Finset.mul_sum, ← Finset.sum_add_distrib]
    exact Finset.sum_congr rfl fun c _ => by ring
  · split
    · rw [Finset.mul_sum, Finset.mul_sum, ← Finset.sum_add_distrib]
      exact Finset.sum_congr rfl fun c _ => by ring
    · rfl

theorem pairUpdate_back (M : Matrix (Fin k) (Fin n) ℤ) {p q : Fin n} (hpq : p ≠ q) {m11 m12 m21 m22 : ℤ}
    (hdet : m11 * m22 - m12 * m21 = 1) : pairUpdate (pairUpdate M p q m11 m12 m21 m22) p q m22 (-m12) (-m21) m11 =
    M := by
  ext i j
  by_cases hp : j = p
  · subst hp
    simp only [pairUpdate, if_pos, if_neg hpq.symm]
    linear_combination M i j * hdet
  · by_cases hq : j = q
    · subst hq
      simp only [pairUpdate, if_pos, if_neg hpq.symm]
      linear_combination M i j * hdet
    · simp only [pairUpdate, if_neg hp, if_neg hq]

theorem pairUpdate_columnOp {p q : Fin n} (hpq : p ≠ q) (hp : cs ≤ p.val) (hq : cs ≤ q.val) {m11 m12 m21 m22 : ℤ}
    (hdet : m11 * m22 - m12 * m21 = 1) : ColumnOp cs fun _ M => pairUpdate M p q m11 m12 m21 m22 where
  mul M N := mul_pairUpdate M N p q m11 m12 m21 m22
  back := ⟨fun _ M => pairUpdate M p q m22 (-m12) (-m21) m11, fun M N => mul_pairUpdate M N _ _ _ _ _ _,
    fun _ M => pairUpdate_back M hpq hdet⟩
  low M i j hj := by
    have hjp : j ≠ p := fun heq => absurd (heq ▸ hp) (Nat.not_le.mpr hj)
    have hjq : j ≠ q := fun heq => absurd (heq ▸ hq) (Nat.not_le.mpr hj)
    simp only [pairUpdate, if_neg hjp, if_neg hjq]
  zero M i hM j hj := by
    simp only [pairUpdate, hM p hp, hM q hq, hM j hj, mul_zero, add_zero, ite_self]

theorem swapCols_columnOp {p q : Fin n} (hp : cs ≤ p.val) (hq : cs ≤ q.val) :
    ColumnOp cs fun _ M => swapCols M p q where
  mul M N := by
    ext i j
    simp only [Matrix.mul_apply, swapCols]
  back := ⟨fun _ M => swapCols M p q, fun M N => by ext i j; simp only [Matrix.mul_apply, swapCols],
    fun _ M => by ext i j; simp only [swapCols, Equiv.swap_apply_self]⟩
  low M i j hj := by
    have hjp : j ≠ p := fun heq => absurd (heq ▸ hp) (Nat.not_le.mpr hj)
    have hjq : j ≠ q := fun heq => absurd (heq ▸ hq) (Nat.not_le.mpr hj)
    rw [swapCols, Equiv.swap_apply_of_ne_of_ne hjp hjq]
  zero M i hM j hj := by
    refine hM _ ?_
    rw [Equiv.swap_apply_def]
    split_ifs
    exacts [hq, hp, hj]

theorem mul_negCol {l : ℕ} (M : Matrix (Fin k) (Fin l) ℤ) (N : Matrix (Fin l) (Fin n) ℤ) (c : Fin n) :
    M * negCol N c = negCol (M * N) c := by
  ext i j
  simp only [Matrix.mul_apply, negCol]
  split
  · rw [← Finset.sum_neg_distrib]
    exact Finset.sum_congr rfl fun _ _ => mul_neg _ _
  · rfl

theorem negCol_columnOp {c : Fin n} (hc : cs ≤ c.val) : ColumnOp cs fun _ M => negCol M c where
  mul M N := mul_negCol M N c
  back := by
    refine ⟨fun _ M => negCol M c, fun M N => mul_negCol M N c, fun _ M => ?_⟩
    ext i j
    by_cases hj : j = c
    · simp only [negCol, if_pos hj, neg_neg]
    · simp only [negCol, if_neg hj]
  low M i j hj := by
    have hjc : j ≠ c := fun heq => absurd (heq ▸ hc) (Nat.not_le.mpr hj)
    rw [negCol, if_neg hjc]
  zero M i hM j hj := by simp only [negCol, hM j hj, neg_zero, ite_self]

section

variable {a : Matrix (Fin m) (Fin n) ℤ} {e e' : ColEchelon m n} {done : List (Fin m)} {r : Fin m}

/-- The rows in `done` are in echelon form, and the columns still generate the lattice of `a`. -/
structure Reduced (a : Matrix (Fin m) (Fin n) ℤ) (done : List (Fin m)) (e : ColEchelon m n) : Prop where
  product : a * e.u = e.h
  onto : ∀ x, ∃ y, e.u *ᵥ y = x
  narrowH : ∀ i j, Narrow (e.h i j)
  narrowU : ∀ i j, Narrow (e.u i j)
  pivots : ∀ i (hi : i < e.pivotRows.length), ∃ hn : i < n, 0 < e.h e.pivotRows[i] ⟨i, hn⟩ ∧
    ∀ j : Fin n, i < j.val → e.h e.pivotRows[i] j = 0
  others : ∀ w ∈ done, w ∉ e.pivotRows → ∀ j : Fin n, e.pivotRows.length ≤ j.val → e.h w j = 0

theorem Reduced.columnOp (h : Reduced a done e) {f : ∀ k, Matrix (Fin k) (Fin n) ℤ → Matrix (Fin k) (Fin n) ℤ}
    (hf : ColumnOp e.pivotRows.length f) (hh : ∀ i j, Narrow (f m e.h i j)) (hu : ∀ i j, Narrow (f n e.u i j)) :
    Reduced a done { e with h := f m e.h, u := f n e.u } where
  product := by
    dsimp only
    rw [hf.mul, h.product]
  onto x := hf.onto (h.onto x)
  narrowH := hh
  narrowU := hu
  pivots i hi := by
    obtain ⟨hn, hpos, hzero⟩ := h.pivots i hi
    refine ⟨hn, hpos.trans_eq (hf.low e.h _ ⟨i, hn⟩ hi).symm, fun j hj => ?_⟩
    by_cases hlow : j.val < e.pivotRows.length
    · exact (hf.low e.h _ j hlow).trans (hzero j hj)
    · exact hf.zero e.h _ (fun c hc => hzero c (lt_of_lt_of_le hi hc)) j (not_lt.mp hlow)
  others w hw hpivot := hf.zero e.h w (h.others w hw hpivot)

theorem pairStep_spec (h : Reduced a done e) {p q : Fin n} {rest : List (Fin n)}
    (hnz : openNonzeros e.h r e.pivotRows.length = p :: q :: rest) :
    (∃ e', pairStep magBoundSolve e r p q = .ok (some e') ∧ Reduced a done e' ∧ e'.pivotRows = e.pivotRows) ∨
    pairStep magBoundSolve e r p q = .error .giveUp := by
  have hp := mem_openNonzeros.mp (hnz ▸ mem_cons_self : p ∈ openNonzeros e.h r e.pivotRows.length)
  have hq := mem_openNonzeros.mp (hnz ▸ mem_cons_of_mem _ mem_cons_self : q ∈ openNonzeros e.h r e.pivotRows.length)
  obtain ⟨⟨g, s, t⟩, hgcd⟩ := extGcd_total (h.narrowH r p) (h.narrowH r q)
  obtain ⟨hg, hbezout⟩ := extGcd_ok hgcd
  have hne : g ≠ 0 := by
    rw [hg, Int.natCast_ne_zero]
    exact fun hzero => hp.2 (Int.gcd_eq_zero_iff.mp hzero).1
  have hneg : Narrow (-e.h r q) := by rw [Narrow, abs_neg]; exact h.narrowH r q
  have hwide : Wide (-e.h r q) ∧ Wide ((-e.h r q).tdiv g) ∧ Wide ((e.h r p).tdiv g) :=
    ⟨hneg.wide, Narrow.wide ((abs_tdiv_le _ _).trans hneg), Narrow.wide ((abs_tdiv_le _ _).trans (h.narrowH r p))⟩
  have hdvdp : g ∣ e.h r p := hg ▸ Int.gcd_dvd_left _ _
  have hdvdq : g ∣ -e.h r q := (hg ▸ Int.gcd_dvd_right (e.h r p) (e.h r q) : g ∣ e.h r q).neg_right
  have hdet : s * (e.h r p).tdiv g - t * (-e.h r q).tdiv g = 1 := by
    refine mul_right_cancel₀ hne ?_
    have hmp := Int.tdiv_mul_cancel hdvdp
    have hmq := Int.tdiv_mul_cancel hdvdq
    linear_combination s * hmp - t * hmq + hbezout
  unfold pairStep
  rw [hgcd]
  simp only [if_neg hne, if_pos hwide]
  split
  next hfits =>
    refine .inl ⟨_, rfl, ?_, rfl⟩
    refine h.columnOp (pairUpdate_columnOp (openNonzeros_ne hnz) hp.1 hq.1 hdet) (fun i j => ?_) (fun i j => ?_)
    · obtain ⟨-, -, -, -, -, -, hfp, hfq⟩ := hfits.1 i
      simp only [pairUpdate]
      split_ifs
      exacts [narrow_of_fits hfp, narrow_of_fits hfq, h.narrowH i j]
    · obtain ⟨-, -, -, -, -, -, hfp, hfq⟩ := hfits.2 i
      simp only [pairUpdate]
      split_ifs
      exacts [narrow_of_fits hfp, narrow_of_fits hfq, h.narrowU i j]
  next => exact .inr rfl

theorem openNonzeros_short {M : Matrix (Fin m) (Fin n) ℤ} {cs : ℕ}
    (hshort : ∀ p q rest, openNonzeros M r cs ≠ p :: q :: rest) {i j : Fin n} (hi : i ∈ openNonzeros M r cs)
    (hj : j ∈ openNonzeros M r cs) : i = j := by
  cases hlist : openNonzeros M r cs with
  | nil => rw [hlist] at hi; cases hi
  | cons p rest =>
    cases rest with
    | nil =>
      rw [hlist, mem_singleton] at hi hj
      exact hi.trans hj.symm
    | cons q rest => exact absurd hlist (hshort p q rest)

theorem reduceRow_spec (cs : ℕ) (h : Reduced a done e) (hcs : cs = e.pivotRows.length) :
    (∃ e', reduceRow magBoundSolve e r cs = .ok e' ∧ Reduced a done e' ∧ e'.pivotRows = e.pivotRows ∧
    ∀ i ∈ openNonzeros e'.h r cs, ∀ j ∈ openNonzeros e'.h r cs, i = j) ∨
    reduceRow magBoundSolve e r cs = .error .giveUp := by
  induction hlen : (openNonzeros e.h r cs).length using Nat.strong_induction_on generalizing e with
  | _ len ih =>
    subst hlen hcs
    rw [reduceRow]
    split
    next p q rest hnz =>
      rcases pairStep_spec h hnz with ⟨e', hok, h', hpivots⟩ | hgive
      · split
        next stop hstop => rw [hok] at hstop; cases hstop
        next hnone => rw [hok] at hnone; cases hnone
        next e'' hsome =>
          obtain rfl : e' = e'' := by simpa using hok.symm.trans hsome
          rcases ih _ (pairStep_length hnz hok) h' (by rw [hpivots]) rfl with ⟨last, hrun, hlast, heq, hshort⟩ | hrun
          · exact .inl ⟨last, hrun, hlast, heq.trans hpivots, hshort⟩
          · exact .inr hrun
      · split
        next stop hstop =>
          obtain rfl : stop = .giveUp := by simpa using hstop.symm.trans hgive
          exact .inr rfl
        next hnone => rw [hgive] at hnone; cases hnone
        next e'' hsome => rw [hgive] at hsome; cases hsome
    next hshort =>
      exact .inl ⟨e, rfl, h, rfl, fun i hi j hj => openNonzeros_short (fun p q rest hnz => hshort p q rest hnz) hi hj⟩

theorem Reduced.install (h : Reduced a done e) {c : Fin n} (hc : c.val = e.pivotRows.length) (hpos : 0 < e.h r c)
    (hright : ∀ j : Fin n, c < j → e.h r j = 0) :
    Reduced a (r :: done) ⟨e.h, e.u, e.pivotRows ++ [r]⟩ where
  product := h.product
  onto := h.onto
  narrowH := h.narrowH
  narrowU := h.narrowU
  pivots i hi := by
    dsimp only at hi ⊢
    rw [length_append, length_singleton] at hi
    by_cases hlt : i < e.pivotRows.length
    · simp only [getElem_append_left hlt]
      exact h.pivots i hlt
    · obtain rfl : i = e.pivotRows.length := by omega
      rw [getElem_concat_length rfl]
      refine ⟨hc ▸ c.isLt, ?_, fun j hj => hright j (Fin.lt_def.mpr (hc ▸ hj))⟩
      rwa [show (⟨e.pivotRows.length, hc ▸ c.isLt⟩ : Fin n) = c from Fin.ext hc.symm]
  others w hw hpivot j hj := by
    dsimp only at hpivot hj ⊢
    rw [length_append, length_singleton] at hj
    have hne : w ≠ r := fun heq => hpivot (heq ▸ mem_append_right _ mem_cons_self)
    exact h.others w ((mem_cons.mp hw).resolve_left hne) (fun hmem => hpivot (mem_append_left _ hmem)) j (by omega)

theorem Reduced.swap (h : Reduced a done e) {p c : Fin n} (hp : e.pivotRows.length ≤ p.val)
    (hc : c.val = e.pivotRows.length) :
    Reduced a done ⟨if p ≠ c then swapCols e.h p c else e.h, if p ≠ c then swapCols e.u p c else e.u, e.pivotRows⟩ := by
  split_ifs
  · exact h.columnOp (swapCols_columnOp hp hc.ge) (fun i j => h.narrowH i _) fun i j => h.narrowU i _
  · exact h

theorem Reduced.neg (h : Reduced a done e) {c : Fin n} (hc : c.val = e.pivotRows.length) :
    Reduced a done { e with h := negCol e.h c, u := negCol e.u c } := by
  refine h.columnOp (negCol_columnOp hc.ge) (fun i j => ?_) fun i j => ?_ <;> simp only [negCol] <;> split_ifs
  · rw [Narrow, abs_neg]
    exact h.narrowH i j
  · exact h.narrowH i j
  · rw [Narrow, abs_neg]
    exact h.narrowU i j
  · exact h.narrowU i j

theorem swapped_row {M : Matrix (Fin m) (Fin n) ℤ} {p c : Fin n} (j : Fin n) :
    (if p ≠ c then swapCols M p c else M) r j = M r (Equiv.swap p c j) := by
  split_ifs with hpc
  · rfl
  · rw [not_ne_iff.mp hpc, Equiv.swap_self, Equiv.refl_apply]

theorem installPivot_spec (h : Reduced a done e)
    (halone : ∀ i ∈ openNonzeros e.h r e.pivotRows.length, ∀ j ∈ openNonzeros e.h r e.pivotRows.length, i = j) :
    ∃ e', installPivot e r = .ok e' ∧ Reduced a (r :: done) e' := by
  unfold installPivot
  dsimp only
  split
  next hnone =>
    refine ⟨e, rfl, { h with others := fun w hw hpivot j hj => ?_ }⟩
    rcases mem_cons.mp hw with rfl | hw
    · have hnot := find?_eq_none.mp hnone j (mem_finRange j)
      simpa [hj] using hnot
    · exact h.others w hw hpivot j hj
  next p hfind =>
    have hfound := find?_some hfind
    simp only [decide_eq_true_eq] at hfound
    have hlt : e.pivotRows.length < n := lt_of_le_of_lt hfound.1 p.isLt
    generalize hcol : (⟨e.pivotRows.length, hlt⟩ : Fin n) = c
    have hc : c.val = e.pivotRows.length := by rw [← hcol]
    have hswap := h.swap hfound.1 hc
    generalize hswapped : (if p ≠ c then swapCols e.h p c else e.h) = M at hswap
    generalize (if p ≠ c then swapCols e.u p c else e.u) = U at hswap
    have hentry : M r c ≠ 0 := by
      rw [← hswapped, swapped_row, Equiv.swap_apply_right]
      exact hfound.2
    have hright : ∀ j : Fin n, c < j → M r j = 0 := by
      intro j hj
      rw [← hswapped, swapped_row]
      by_contra hne
      have hopen : Equiv.swap p c j ∈ openNonzeros e.h r e.pivotRows.length := by
        refine mem_openNonzeros.mpr ⟨?_, hne⟩
        rw [Equiv.swap_apply_def]
        split_ifs
        exacts [hc.ge, hfound.1, by rw [← hc]; exact (Fin.lt_def.mp hj).le]
      have heq := halone _ hopen p (mem_openNonzeros.mpr hfound)
      rw [Equiv.swap_apply_eq_iff, Equiv.swap_apply_left] at heq
      exact absurd heq hj.ne'
    split_ifs with hneg hwide
    · refine ⟨_, rfl, Reduced.install (hswap.neg hc) hc ?_ fun j hj => ?_⟩
      · simp only [negCol, if_pos]
        omega
      · simp only [negCol, if_neg hj.ne', hright j hj]
    · exact absurd ⟨fun i => (hswap.narrowH i c).wide_neg, fun i => (hswap.narrowU i c).wide_neg⟩ hwide
    · exact ⟨_, rfl, Reduced.install hswap hc (by dsimp only; omega) hright⟩

theorem rowStep_spec (h : Reduced a done e) : (∃ e', rowStep magBoundSolve e r = .ok e' ∧ Reduced a (r :: done) e') ∨
    rowStep magBoundSolve e r = .error .giveUp := by
  rcases reduceRow_spec (r := r) _ h rfl with ⟨e', hrun, h', hpivots, halone⟩ | hrun
  · rw [← hpivots] at halone
    obtain ⟨last, hinstall, hlast⟩ := installPivot_spec h' halone
    refine .inl ⟨last, ?_, hlast⟩
    rw [rowStep, hrun]
    exact hinstall
  · refine .inr ?_
    rw [rowStep, hrun]
    rfl

theorem foldlM_rowStep (rows : List (Fin m)) (h : Reduced a done e) :
    (∃ e', rows.foldlM (rowStep magBoundSolve) e = .ok e' ∧ Reduced a (rows.reverse ++ done) e') ∨
    rows.foldlM (rowStep magBoundSolve) e = .error .giveUp := by
  induction rows generalizing done e with
  | nil => exact .inl ⟨e, rfl, h⟩
  | cons r rows ih =>
    rw [foldlM_cons]
    rcases rowStep_spec (r := r) h with ⟨e', hrun, h'⟩ | hrun
    · rw [hrun, reverse_cons, append_assoc]
      exact ih h'
    · rw [hrun]
      exact .inr rfl

theorem columnEchelon_spec (ha : ∀ i j, Narrow (a i j)) :
    (∃ e, columnEchelon a magBoundSolve = .ok e ∧ Reduced a (List.finRange m) e) ∨
    columnEchelon a magBoundSolve = .error .giveUp := by
  rw [columnEchelon]
  split
  · exact .inr rfl
  · have hstart : Reduced a [] ⟨a, 1, []⟩ := by
      refine ⟨Matrix.mul_one a, fun x => ⟨x, one_mulVec x⟩, ha, fun i j => ?_, fun i hi => ?_, fun w hw => ?_⟩
      · dsimp only
        rw [Matrix.one_apply]
        split_ifs <;> exact abs_le.mpr ⟨by omega, by omega⟩
      · cases hi
      · cases hw
    rcases foldlM_rowStep (List.finRange m) hstart with ⟨e, hrun, h⟩ | hrun
    · exact .inl ⟨e, hrun, { h with others := fun w _ => h.others w (by simp) }⟩
    · exact .inr hrun

end

end Nixie.Lia
