import Mathlib.Data.List.GetD
import Mathlib.LinearAlgebra.Matrix.Notation
import Nixie.Lia.Echelon

/-!
The integer equality solver: its witnesses solve the system, its cores have no solution, and nothing wraps.
-/

namespace Nixie.Lia

open Matrix List Function

variable {m n : ℕ}

section

variable {row z : Fin n → ℤ}

theorem subtractTerms_spec (row z : Fin n → ℤ) (js : List (Fin n)) {val : ℤ} (hval : Wide val) :
    (∃ out, subtractTerms row z js val = .ok out ∧ out = val - (js.map fun j => row j * z j).sum ∧ Wide out) ∨
    subtractTerms row z js val = .error .giveUp := by
  induction js generalizing val with
  | nil => exact .inl ⟨val, rfl, by rw [map_nil, sum_nil, sub_zero], hval⟩
  | cons j js ih =>
    rw [subtractTerms]
    split_ifs with hwide
    · rcases ih hwide.2 with ⟨out, hrun, rfl, hout⟩ | hrun
      · exact .inl ⟨_, hrun, by rw [map_cons, sum_cons]; ring, hout⟩
      · exact .inr hrun
    · exact .inr rfl

theorem addTerms_spec (row z : Fin n → ℤ) (js : List (Fin n)) (sum : ℤ) :
    addTerms row z js sum = .ok (sum + (js.map fun j => row j * z j).sum) ∨
    addTerms row z js sum = .error .giveUp := by
  induction js generalizing sum with
  | nil => exact .inl (by rw [map_nil, sum_nil, add_zero, addTerms])
  | cons j js ih =>
    rw [addTerms]
    split_ifs
    · rw [map_cons, sum_cons, ← add_assoc]
      exact ih _
    · exact .inr rfl

theorem sum_filter_of_zero {f : Fin n → ℤ} {keep : Fin n → Prop} [DecidablePred keep] (js : List (Fin n))
    (hzero : ∀ j, ¬ keep j → f j = 0) : ((js.filter fun j => keep j).map f).sum = (js.map f).sum := by
  induction js with
  | nil => rfl
  | cons j js ih =>
    by_cases hj : keep j
    · rw [filter_cons_of_pos (by simpa using hj), map_cons, sum_cons, map_cons, sum_cons, ih]
    · rw [filter_cons_of_neg (by simpa using hj), map_cons, sum_cons, hzero j hj, zero_add, ih]

theorem sum_pivotCols {rank : ℕ} (hzero : ∀ j : Fin n, rank ≤ j.val → row j * z j = 0) :
    ((pivotCols n rank).map fun j => row j * z j).sum = row ⬝ᵥ z := by
  rw [pivotCols, sum_filter_of_zero _ fun j hj => hzero j (not_lt.mp hj), dotProduct, Fin.sum_univ_def]

end

section

variable {a : Matrix (Fin m) (Fin n) ℤ} {e : ColEchelon m n} {b : Fin m → ℤ} {z : Fin n → ℤ} {i : ℕ}

structure Fixed (e : ColEchelon m n) (b : Fin m → ℤ) (i : ℕ) (z : Fin n → ℤ) : Prop where
  zero : ∀ l : Fin n, i ≤ l.val → z l = 0
  solves : ∀ j (hj : j < e.pivotRows.length), j < i → (e.h *ᵥ z) e.pivotRows[j] = b e.pivotRows[j]
  unique : ∀ y, (∀ j (hj : j < e.pivotRows.length), j < i → (e.h *ᵥ y) e.pivotRows[j] = b e.pivotRows[j]) →
    ∀ l : Fin n, l.val < i → y l = z l

theorem fixed_start : Fixed e b 0 0 :=
  ⟨fun _ _ => rfl, fun _ _ hj => absurd hj (Nat.not_lt_zero _), fun _ _ _ hl => absurd hl (Nat.not_lt_zero _)⟩

theorem mulVec_pivot {row : Fin n → ℤ} (hi : i < n) (hright : ∀ j : Fin n, i < j.val → row j = 0)
    (hzero : ∀ l : Fin n, i ≤ l.val → z l = 0) {y : Fin n → ℤ} (hlow : ∀ l : Fin n, l.val < i → y l = z l) :
    row ⬝ᵥ y = row ⬝ᵥ z + row ⟨i, hi⟩ * y ⟨i, hi⟩ := by
  have hterm : ∀ j, row j * y j = row j * z j + if j = ⟨i, hi⟩ then row ⟨i, hi⟩ * y ⟨i, hi⟩ else 0 := by
    intro j
    rcases lt_trichotomy j.val i with hlt | heq | hgt
    · rw [hlow j hlt, if_neg (fun h => absurd (congrArg Fin.val h) hlt.ne), add_zero]
    · obtain rfl : j = ⟨i, hi⟩ := Fin.ext heq
      rw [hzero _ le_rfl, if_pos rfl, mul_zero, zero_add]
    · rw [hright j hgt, if_neg (fun h => absurd (congrArg Fin.val h) hgt.ne'), zero_mul, zero_mul, add_zero]
  rw [dotProduct, dotProduct, Finset.sum_congr rfl fun j _ => hterm j, Finset.sum_add_distrib,
    Finset.sum_ite_eq' Finset.univ, if_pos (Finset.mem_univ _)]

theorem Reduced.reflect (h : Reduced a (List.finRange m) e) {x : Fin n → ℤ} : ∃ y, ∀ w, (e.h *ᵥ y) w = (a *ᵥ x) w := by
  obtain ⟨y, rfl⟩ := h.onto x
  refine ⟨y, fun w => ?_⟩
  rw [mulVec_mulVec, h.product]

theorem mem_sortedCore {core : List (Fin m)} {w : Fin m} : w ∈ sortedCore core ↔ w ∈ core := by
  rw [sortedCore, mem_dedup, mem_insertionSort]

def NoSolution (a : Matrix (Fin m) (Fin n) ℤ) (b : Fin m → ℤ) (core : List (Fin m)) : Prop :=
  ∀ x, ∃ w ∈ core, (a *ᵥ x) w ≠ b w

theorem Fixed.next (hfixed : Fixed e b i z) (hi : i < n) (hlen : i < e.pivotRows.length)
    (hpos : 0 < e.h e.pivotRows[i] ⟨i, hi⟩) (hright : ∀ j : Fin n, i < j.val → e.h e.pivotRows[i] j = 0)
    (hprev : ∀ j (hj : j < e.pivotRows.length), j < i → ∀ l : Fin n, j < l.val → e.h e.pivotRows[j] l = 0) {v : ℤ}
    (hv : v * e.h e.pivotRows[i] ⟨i, hi⟩ = b e.pivotRows[i] - e.h e.pivotRows[i] ⬝ᵥ z) :
    Fixed e b (i + 1) (update z ⟨i, hi⟩ v) where
  zero l hl := by
    have hne : l ≠ ⟨i, hi⟩ := Fin.ne_of_val_ne (Nat.lt_of_succ_le hl).ne'
    rw [update_of_ne hne]
    exact hfixed.zero l (by omega)
  solves j hj hlt := by
    have hlow : ∀ l : Fin n, l.val < i → update z ⟨i, hi⟩ v l = z l := fun l hl =>
      update_of_ne (fun h => absurd (congrArg Fin.val h) hl.ne) _ _
    rcases Nat.lt_succ_iff_lt_or_eq.mp hlt with hlt | rfl
    · rw [← hfixed.solves j hj hlt, mulVec, mulVec]
      refine Finset.sum_congr rfl fun l _ => ?_
      by_cases hl : l.val < i
      · rw [hlow l hl]
      · have hz := hprev j hj hlt l (by omega)
        simp only [hz, zero_mul]
    · rw [mulVec, mulVec_pivot hi hright hfixed.zero hlow, update_self]
      linear_combination hv
  unique y hy l hl := by
    have hlow := hfixed.unique y fun j hj hlt => hy j hj (by omega)
    rcases Nat.lt_succ_iff_lt_or_eq.mp hl with hl | hl
    · rw [hlow l hl, update_of_ne (fun h => absurd (congrArg Fin.val h) hl.ne)]
    · obtain rfl : l = ⟨i, hi⟩ := Fin.ext hl
      rw [update_self]
      have hrow := hy i hlen (Nat.lt_succ_self i)
      rw [mulVec, mulVec_pivot hi hright hfixed.zero hlow] at hrow
      refine mul_right_cancel₀ hpos.ne' ?_
      rw [hv]
      linear_combination hrow

theorem wide_tdiv {v d : ℤ} (hv : Wide v) (hd : 0 < d) : Wide (v.tdiv d) := by
  have habs := abs_tdiv_le v d
  rcases le_total 0 v with hpos | hneg
  · rw [abs_of_nonneg hpos] at habs
    have hle := abs_le.mp habs
    exact ⟨by have := hv.2; omega, by have := hv.2; omega⟩
  · have hsign := Int.tdiv_nonneg (neg_nonneg.mpr hneg) hd.le
    rw [Int.neg_tdiv] at hsign
    rw [abs_of_nonpos hneg] at habs
    have hle := abs_le.mp habs
    exact ⟨by have := hv.1; omega, by omega⟩

theorem wide_tmod {v d : ℤ} (hv : Wide v) : Wide (v.tmod d) := by
  rcases le_total 0 v with hpos | hneg
  · have hbetween := @Cofactors.tmod_between_nonneg v d hpos
    exact ⟨by omega, hbetween.2.trans_lt hv.2⟩
  · have hbetween := @Cofactors.tmod_between_nonpos v d hneg
    exact ⟨hv.1.trans hbetween.1, by omega⟩

theorem substitute_spec (h : Reduced a (List.finRange m) e) (hb : ∀ w, Wide (b w)) (rest : List (Fin m))
    (hrest : e.pivotRows.drop i = rest) (hle : i ≤ e.pivotRows.length) (hfixed : Fixed e b i z) :
    (∃ z', substitute e b rest i z = .ok (.inr z') ∧ Fixed e b e.pivotRows.length z') ∨
    (∃ core, substitute e b rest i z = .ok (.inl core) ∧ NoSolution a b core) ∨
    substitute e b rest i z = .error .giveUp := by
  induction rest generalizing i z with
  | nil =>
    obtain rfl : i = e.pivotRows.length := le_antisymm hle (drop_eq_nil_iff.mp hrest)
    exact .inl ⟨z, rfl, hfixed⟩
  | cons pr rest ih =>
    have hlen : i < e.pivotRows.length := by
      by_contra hge
      rw [drop_eq_nil_iff.mpr (not_lt.mp hge)] at hrest
      cases hrest
    obtain ⟨rfl, hnext⟩ := List.cons.inj ((drop_eq_getElem_cons hlen).symm.trans hrest)
    obtain ⟨hi, hpos, hright⟩ := h.pivots i hlen
    rw [substitute]
    rcases subtractTerms_spec (e.h e.pivotRows[i]) z (pivotCols n e.pivotRows.length) (hb e.pivotRows[i])
      with ⟨val, hrun, hval, hwide⟩ | hrun
    · rw [sum_pivotCols fun j hj => by rw [hfixed.zero j (hle.trans hj), mul_zero]] at hval
      rw [hrun]
      simp only [bind, Except.bind, dif_pos hi, if_neg hpos.ne',
        if_neg (not_not.mpr (⟨wide_tmod hwide, wide_tdiv hwide hpos⟩ : Wide _ ∧ Wide _))]
      split_ifs with hrem
      · refine .inr (.inl ⟨_, rfl, fun x => ?_⟩)
        obtain ⟨y, hy⟩ := h.reflect (x := x)
        by_contra hall
        push Not at hall
        have hrow : ∀ j (hj : j < e.pivotRows.length), j < i + 1 → (e.h *ᵥ y) e.pivotRows[j] = b e.pivotRows[j] := by
          intro j hj hlt
          rw [hy]
          refine hall _ (mem_sortedCore.mpr ?_)
          rw [mem_take_iff_getElem]
          exact ⟨j, by omega, rfl⟩
        have hlow := hfixed.unique y fun j hj hlt => hrow j hj (by omega)
        have hlast := hrow i hlen (Nat.lt_succ_self i)
        rw [mulVec, mulVec_pivot hi hright hfixed.zero hlow] at hlast
        refine hrem ?_
        rw [hval, ← hlast, add_sub_cancel_left]
        exact Int.mul_tmod_right _ _
      · rw [not_not] at hrem
        refine ih hnext hlen (hfixed.next hi hlen hpos hright (fun j hj hlt l hl => ?_) ?_)
        · obtain ⟨-, -, hzero⟩ := h.pivots j hj
          exact hzero l hl
        · rw [← hval]
          exact Int.tdiv_mul_cancel (Int.dvd_of_tmod_eq_zero hrem)
    · rw [hrun]
      exact .inr (.inr rfl)

end

section

variable {a : Matrix (Fin m) (Fin n) ℤ} {e : ColEchelon m n} {b : Fin m → ℤ} {z : Fin n → ℤ}

theorem Reduced.row_of_fixed (h : Reduced a (List.finRange m) e) (hfixed : Fixed e b e.pivotRows.length z) {w : Fin m}
    (hw : w ∉ e.pivotRows) {y : Fin n → ℤ} (hy : ∀ j (hj : j < e.pivotRows.length), (e.h *ᵥ y) e.pivotRows[j] =
    b e.pivotRows[j]) : (e.h *ᵥ y) w = (e.h *ᵥ z) w := by
  have hlow := hfixed.unique y fun j hj _ => hy j hj
  rw [mulVec, mulVec]
  refine Finset.sum_congr rfl fun l _ => ?_
  by_cases hl : l.val < e.pivotRows.length
  · rw [hlow l hl]
  · have hz := h.others w (mem_finRange w) hw l (not_lt.mp hl)
    simp only [hz, zero_mul]

theorem consistent_spec (h : Reduced a (List.finRange m) e) (hfixed : Fixed e b e.pivotRows.length z)
    (rows : List (Fin m)) : (consistent e b z rows = .ok none ∧ ∀ w ∈ rows, (e.h *ᵥ z) w = b w) ∨
    (∃ core, consistent e b z rows = .ok (some core) ∧ NoSolution a b core) ∨
    consistent e b z rows = .error .giveUp := by
  induction rows with
  | nil => exact .inl ⟨rfl, fun w hw => absurd hw not_mem_nil⟩
  | cons w rest ih =>
    rw [consistent]
    split_ifs with hw
    · rcases ih with ⟨hrun, hall⟩ | hrun
      · refine .inl ⟨hrun, forall_mem_cons.mpr ⟨?_, hall⟩⟩
        obtain ⟨j, hj, rfl⟩ := getElem_of_mem hw
        exact hfixed.solves j hj hj
      · exact .inr hrun
    · rcases addTerms_spec (e.h w) z (pivotCols n e.pivotRows.length) 0 with hrun | hrun
      · rw [sum_pivotCols fun j hj => by rw [hfixed.zero j hj, mul_zero], zero_add] at hrun
        rw [hrun]
        simp only [bind, Except.bind]
        split_ifs with hne
        · refine .inr (.inl ⟨_, rfl, fun x => ?_⟩)
          obtain ⟨y, hy⟩ := h.reflect (x := x)
          by_contra hall
          push Not at hall
          refine hne ?_
          have hrow := h.row_of_fixed hfixed hw (y := y) fun j hj => by
            rw [hy]
            exact hall _ (mem_sortedCore.mpr (mem_cons_of_mem _ (getElem_mem hj)))
          rw [← hall w (mem_sortedCore.mpr mem_cons_self), ← hy, hrow]
          rfl
        · rcases ih with ⟨hrest, hall⟩ | hrest
          · exact .inl ⟨hrest, forall_mem_cons.mpr ⟨not_not.mp hne, hall⟩⟩
          · exact .inr hrest
      · rw [hrun]
        exact .inr (.inr rfl)

theorem mapM_spec {α β : Type*} {f : α → Run β} {g : α → β} (xs : List α)
    (h : ∀ x ∈ xs, f x = .ok (g x) ∨ f x = .error .giveUp) : xs.mapM f = .ok (xs.map g) ∨
    xs.mapM f = .error .giveUp := by
  induction xs with
  | nil => exact .inl rfl
  | cons x xs ih =>
    rw [mapM_cons]
    rcases h x mem_cons_self with hx | hx
    · rw [hx]
      rcases ih fun y hy => h y (mem_cons_of_mem _ hy) with hxs | hxs
      · exact .inl (by rw [hxs]; rfl)
      · exact .inr (by rw [hxs]; rfl)
    · exact .inr (by rw [hx]; rfl)

def EqSolution.Correct (a : Matrix (Fin m) (Fin n) ℤ) (b : List ℤ) : EqSolution m → Prop
  | .feasible x => b.length = m ∧ x.length = n ∧ ∀ i : Fin m, ∑ j : Fin n, a i j * x.getD j 0 = b.getD i 0
  | .infeasible core => b.length = m ∧ ∀ x : Fin n → ℤ, ∃ i ∈ core, ∑ j, a i j * x j ≠ b.getD i 0
  | .giveUp => True

theorem solveRun_spec {b : List ℤ} (ha : ∀ i j, Narrow (a i j)) (hb : ∀ v ∈ b, Wide v) :
    (∃ answer, solveRun a b = .ok answer ∧ answer.Correct a b) ∨ solveRun a b = .error .giveUp := by
  unfold solveRun
  split
  next => exact .inl ⟨_, rfl, trivial⟩
  next hlen =>
    have hlen : b.length = m := (not_ne_iff.mp hlen).symm
    have hrhs : ∀ w : Fin m, Wide (b.getD w 0) := fun w => by
      rw [getD_eq_getElem _ _ (hlen.symm ▸ w.isLt)]
      exact hb _ (getElem_mem _)
    rcases columnEchelon_spec ha with ⟨e, hrun, h⟩ | hrun
    · rw [hrun]
      simp only [bind, Except.bind]
      rcases substitute_spec h hrhs e.pivotRows rfl (Nat.zero_le _) fixed_start
        with ⟨z, hsub, hfixed⟩ | ⟨core, hsub, hcore⟩ | hsub
      · rw [hsub]
        dsimp only
        rcases consistent_spec h hfixed (List.finRange m) with ⟨hcon, hall⟩ | ⟨core, hcon, hcore⟩ | hcon
        · rw [hcon]
          dsimp only
          have hwitness := mapM_spec (List.finRange n)
            (f := fun c => addTerms (e.u c) z (pivotCols n e.pivotRows.length) 0) (g := e.u *ᵥ z) fun c _ => by
              rcases addTerms_spec (e.u c) z (pivotCols n e.pivotRows.length) 0 with hadd | hadd
              · rw [sum_pivotCols fun j hj => by rw [hfixed.zero j hj, mul_zero], zero_add] at hadd
                exact .inl hadd
              · exact .inr hadd
          rcases hwitness with hx | hx
          · rw [hx]
            refine .inl ⟨_, rfl, hlen, by rw [length_map, length_finRange], fun i => ?_⟩
            have hvalue : ∀ j : Fin n, ((List.finRange n).map (e.u *ᵥ z)).getD j 0 = (e.u *ᵥ z) j := fun j => by
              rw [getD_eq_getElem _ _ (by simp), getElem_map, getElem_finRange]
              rfl
            rw [← hall i (mem_finRange i), ← h.product, ← mulVec_mulVec]
            exact Finset.sum_congr rfl fun j _ => by rw [hvalue]
          · rw [hx]
            exact .inr rfl
        · rw [hcon]
          exact .inl ⟨_, rfl, hlen, hcore⟩
        · rw [hcon]
          exact .inr rfl
      · rw [hsub]
        exact .inl ⟨_, rfl, hlen, hcore⟩
      · rw [hsub]
        exact .inr rfl
    · rw [hrun]
      exact .inr rfl

/-- On entries in the range of `i64` every answer is right and no operation wraps. -/
theorem solveIntegerEqSystem_correct {b : List ℤ} (ha : ∀ i j, -2 ^ 63 ≤ a i j ∧ a i j < 2 ^ 63)
    (hb : ∀ v ∈ b, -2 ^ 63 ≤ v ∧ v < 2 ^ 63) :
    ∃ answer, solveIntegerEqSystem a b = some answer ∧ answer.Correct a b := by
  have hnarrow : ∀ i j, Narrow (a i j) := fun i j => abs_le.mpr ⟨(ha i j).1, (ha i j).2.le⟩
  have hwide : ∀ v ∈ b, Wide v := fun v hv => ⟨by have := hb v hv; omega, by have := hb v hv; omega⟩
  rw [solveIntegerEqSystem]
  rcases solveRun_spec hnarrow hwide with ⟨answer, hrun, hcorrect⟩ | hrun
  · rw [hrun]
    exact ⟨answer, rfl, hcorrect⟩
  · rw [hrun]
    exact ⟨.giveUp, rfl, trivial⟩

theorem solveIntegerEqSystem_correct_odd :
    ∃ answer, solveIntegerEqSystem !![2, 4; 3, 5] [3, 7] = some answer ∧ answer.Correct !![2, 4; 3, 5] [3, 7] :=
  solveIntegerEqSystem_correct (by simp [Fin.forall_fin_two]) (by decide)

example : solveIntegerEqSystem !![2, 4; 3, 5] [3, 7] = some (.infeasible [0]) := by with_unfolding_all decide

example : solveIntegerEqSystem !![2, 4; 3, 5] [6, 8] = some (.feasible [1, 1]) := by with_unfolding_all decide

end

end Nixie.Lia
