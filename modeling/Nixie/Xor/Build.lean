import Nixie.Xor.Matrix

/-!
Adding a constraint to a matrix without folds: its rows are sums of constraints, and the reduction ends.
-/

namespace Nixie.Xor.GF2Matrix

open Parity List Option Function GF2Matrix
open scoped symmDiff

variable {m : GF2Matrix} {r : GF2Row} {var : ℕ} {vars : List ℕ} {σ : ℕ → Bool}

theorem firstSet_eq_some {c : ℕ} : r.firstSet = some c ↔ c ∈ r.bits ∧ ∀ d ∈ r.bits, c ≤ d := by
  unfold GF2Row.firstSet
  split
  next h =>
    rw [some.injEq]
    constructor
    · rintro rfl
      exact ⟨Finset.min'_mem _ h, fun d hd => Finset.min'_le _ d hd⟩
    · rintro ⟨hc, hle⟩
      exact le_antisymm (Finset.min'_le _ c hc) (hle _ (Finset.min'_mem _ h))
  next h => exact ⟨by simp, fun hmin => absurd ⟨c, hmin.1⟩ h⟩

theorem firstSet_eq_none : r.firstSet = none ↔ r.bits = ∅ := by
  unfold GF2Row.firstSet
  split
  next h => exact ⟨nofun, fun hempty => absurd hempty h.ne_empty⟩
  next h => exact ⟨fun _ => Finset.not_nonempty_iff_eq_empty.mp h, fun _ => rfl⟩

theorem Fresh.column_lt (h : Fresh m) {c : ℕ} (hc : m.varToCol var = some c) : c < m.colToVar.length :=
  (List.getElem?_eq_some_iff.mp (h.column var c hc)).1

theorem Fresh.registerVar (h : Fresh m) (var : ℕ) : Fresh (m.registerVar var) := by
  unfold GF2Matrix.registerVar
  split
  next => exact h
  next hnone =>
    refine ⟨fun v c hc => ?_, h.unfolded, h.nodup, h.mem_colRows, h.undoStack, ?_, fun r hr c hc => ?_, h.pivot⟩
    · dsimp only at hc ⊢
      by_cases hv : v = var
      · subst hv
        rw [update_self, h.numVars] at hc
        obtain rfl := some.inj hc
        exact getElem?_concat_length
      · rw [update_of_ne hv] at hc
        rw [getElem?_append_left (h.column_lt hc)]
        exact h.column v c hc
    · dsimp only
      rw [h.numVars, length_append, length_singleton]
    · dsimp only
      rw [length_append]
      exact (h.range r hr c hc).trans_le (Nat.le_add_right _ _)

theorem registerVar_keeps (v c : ℕ) (hc : m.varToCol v = some c) : (m.registerVar var).varToCol v = some c := by
  unfold registerVar
  split
  next => exact hc
  next hnone =>
    have hv : v ≠ var := fun heq => by rw [heq, hnone] at hc; cases hc
    exact (update_of_ne hv _ _).trans hc

theorem registerVar_registers : ∃ c, (m.registerVar var).varToCol var = some c := by
  unfold registerVar
  split
  next c hc => exact ⟨c, hc⟩
  next => exact ⟨m.numVars, update_self _ _ _⟩

theorem Fresh.solves_registerVar (h : Fresh m) (hr : r ∈ m.rows) : (m.registerVar var).Solves σ r ↔ m.Solves σ r := by
  unfold GF2Matrix.registerVar
  split
  next => rfl
  next =>
    unfold Solves
    dsimp only
    rw [parity_congr fun c hc => ?_]
    rw [getD_eq_getElem?_getD, getD_eq_getElem?_getD, getElem?_append_left (h.range r hr c hc)]

structure Registered (m m' : GF2Matrix) (vars : List ℕ) : Prop where
  fresh : Fresh m'
  rows : m'.rows = m.rows
  pivots : m'.pivots = m.pivots
  keeps : ∀ v c, m.varToCol v = some c → m'.varToCol v = some c
  all : ∀ v ∈ vars, ∃ c, m'.varToCol v = some c
  solves : ∀ σ, ∀ r ∈ m.rows, m'.Solves σ r ↔ m.Solves σ r

theorem registerVars_spec (h : Fresh m) (vars : List ℕ) : Registered m (vars.foldl registerVar m) vars := by
  induction vars generalizing m with
  | nil => exact ⟨h, rfl, rfl, fun _ _ hc => hc, fun _ hv => absurd hv not_mem_nil, fun _ _ _ => Iff.rfl⟩
  | cons var vars ih =>
    have hrows : (m.registerVar var).rows = m.rows := by
      unfold registerVar
      split <;> rfl
    have hpivots : (m.registerVar var).pivots = m.pivots := by
      unfold registerVar
      split <;> rfl
    have hrest := ih (h.registerVar var)
    refine ⟨hrest.fresh, hrest.rows.trans hrows, hrest.pivots.trans hpivots,
      fun v c hc => hrest.keeps v c (registerVar_keeps v c hc), forall_mem_cons.mpr ⟨?_, hrest.all⟩,
      fun σ r hr => (hrest.solves σ r (hrows ▸ hr)).trans (h.solves_registerVar hr)⟩
    obtain ⟨c, hc⟩ := @registerVar_registers m var
    exact ⟨c, hrest.keeps var c hc⟩

theorem Fresh.parity_columns (h : Fresh m) (hall : ∀ v ∈ vars, ∃ c, m.varToCol v = some c) :
    parity (fun c => σ (m.colToVar.getD c 0)) (vars.filterMap m.varToCol).toFinset = parity σ vars.toFinset := by
  have himage : (vars.filterMap m.varToCol).toFinset = vars.toFinset.image fun v => (m.varToCol v).getD 0 := by
    ext c
    simp only [List.mem_toFinset, mem_filterMap, Finset.mem_image]
    refine exists_congr fun v => and_congr_right fun hv => ?_
    obtain ⟨d, hd⟩ := hall v hv
    rw [hd, getD_some, some.injEq]
  have hback : ∀ v ∈ vars.toFinset, m.colToVar.getD ((m.varToCol v).getD 0) 0 = v := by
    intro v hv
    obtain ⟨d, hd⟩ := hall v (List.mem_toFinset.mp hv)
    rw [hd, getD_some, getD_eq_getElem?_getD, h.column v d hd, getD_some]
  rw [himage, parity_image fun v hv w hw heq => ?_]
  · exact parity_congr fun v hv => congrArg σ (hback v hv)
  · rw [← hback v hv, ← hback w hw]
    exact congrArg (m.colToVar.getD · 0) heq

theorem solves_xorWith {other : GF2Row} (hother : m.Solves σ other) : m.Solves σ (r.xorWith other) ↔ m.Solves σ r := by
  unfold Solves at hother ⊢
  rw [GF2Row.xorWith, parity_symmDiff, hother, Bool.xor_left_inj]

theorem lt_of_mem_xorWith {other : GF2Row} {c d : ℕ} (hr : r.firstSet = some c) (hother : other.firstSet = some c)
    (hd : d ∈ (r.xorWith other).bits) : c < d := by
  obtain ⟨hc, hle⟩ := firstSet_eq_some.mp hr
  obtain ⟨hc', hle'⟩ := firstSet_eq_some.mp hother
  rcases Finset.mem_symmDiff.mp hd with ⟨hin, hout⟩ | ⟨hin, hout⟩
  · exact lt_of_le_of_ne (hle d hin) fun heq => hout (heq ▸ hc')
  · exact lt_of_le_of_ne (hle' d hin) fun heq => hout (heq ▸ hc)

theorem cancelPivots_spec (h : Fresh m) (fuel : ℕ) (hrange : ∀ c ∈ r.bits, c < m.numVars ∧ m.numVars < c + fuel)
    (hfuel : 0 < fuel) (hfolded : r.folded = []) : ∃ r', m.cancelPivots fuel r = some r' ∧
    (∀ c ∈ r'.bits, c < m.numVars) ∧ r'.folded = [] ∧ (∀ c, r'.firstSet = some c → m.pivots c = none) ∧
    ∀ σ, (∀ row ∈ m.rows, m.Solves σ row) → (m.Solves σ r' ↔ m.Solves σ r) := by
  induction fuel generalizing r with
  | zero => exact absurd hfuel (lt_irrefl 0)
  | succ fuel ih =>
    rw [cancelPivots]
    split
    next hnone =>
      exact ⟨r, rfl, fun c hc => (hrange c hc).1, hfolded, fun c hc => (by rw [hnone] at hc; cases hc),
        fun _ _ => Iff.rfl⟩
    next first hfirst =>
      split
      next hpivot =>
        refine ⟨r, rfl, fun c hc => (hrange c hc).1, hfolded, fun c hc => ?_, fun _ _ => Iff.rfl⟩
        obtain rfl := some.inj (hfirst.symm.trans hc)
        by_contra hne
        obtain ⟨p, hp⟩ := ne_none_iff_exists'.mp hne
        obtain ⟨row, hrow, -⟩ := h.pivot first p hp
        rw [hp, bind_some, hrow] at hpivot
        cases hpivot
      next row hpivot =>
        obtain ⟨p, hp, hrow⟩ := bind_eq_some_iff.mp hpivot
        obtain ⟨row', hrow', hlead⟩ := h.pivot first p hp
        obtain rfl := some.inj (hrow.symm.trans hrow')
        have hmem : row ∈ m.rows := mem_of_getElem? hrow
        have hlt := hrange first (firstSet_eq_some.mp hfirst).1
        have hnext : ∀ c ∈ (r.xorWith row).bits, c < m.numVars ∧ m.numVars < c + fuel := by
          intro c hc
          have hafter := lt_of_mem_xorWith hfirst hlead hc
          refine ⟨?_, by omega⟩
          rcases Finset.mem_symmDiff.mp hc with ⟨hin, -⟩ | ⟨hin, -⟩
          · exact (hrange c hin).1
          · exact h.numVars ▸ h.range row hmem c hin
        obtain ⟨r', hrun, hr', hfolded', hpivots, hsolves⟩ := ih hnext (by omega) hfolded
        exact ⟨r', hrun, hr', hfolded', hpivots, fun σ hall => (hsolves σ hall).trans (solves_xorWith (hall row hmem))⟩

theorem Fresh.pushRow (h : Fresh m) {first : ℕ} (hfirst : r.firstSet = some first) (hpivot : m.pivots first = none)
    (hrange : ∀ c ∈ r.bits, c < m.numVars) (hfolded : r.folded = []) : Fresh (m.pushRow r first) where
  column := h.column
  unfolded := forall_mem_append.mpr ⟨h.unfolded, forall_mem_singleton.mpr hfolded⟩
  nodup c := by
    dsimp only [GF2Matrix.pushRow]
    split_ifs
    · refine nodup_append.mpr ⟨h.nodup c, nodup_singleton _, fun i hi j hj => ?_⟩
      obtain ⟨row, hrow, -⟩ := (h.mem_colRows c i).mp hi
      rw [mem_singleton.mp hj]
      exact (List.getElem?_eq_some_iff.mp hrow).1.ne
    · exact h.nodup c
  mem_colRows c i := by
    dsimp only [GF2Matrix.pushRow]
    have hold : (∃ row, m.rows[i]? = some row ∧ c ∈ row.bits) → i < m.rows.length := fun ⟨row, hrow, _⟩ =>
      (List.getElem?_eq_some_iff.mp hrow).1
    rcases lt_trichotomy i m.rows.length with hlt | rfl | hgt
    · rw [List.getElem?_append_left hlt, ← h.mem_colRows]
      split_ifs
      · rw [mem_append, mem_singleton, or_iff_left hlt.ne]
      · rfl
    · have hnot : m.rows.length ∉ m.colRows c := fun hmem => lt_irrefl _ (hold ((h.mem_colRows _ _).mp hmem))
      rw [getElem?_concat_length]
      split_ifs with hc
      · simp [hc]
      · simp [hc, hnot]
    · have hnot : i ∉ m.colRows c := fun hmem => lt_asymm hgt (hold ((h.mem_colRows _ _).mp hmem))
      have hnone : (m.rows ++ [r])[i]? = none := by
        rw [List.getElem?_eq_none_iff, List.length_append, List.length_singleton]
        omega
      rw [hnone]
      split_ifs
      · simp [hnot, hgt.ne']
      · simp [hnot]
  undoStack := h.undoStack
  numVars := h.numVars
  range := forall_mem_append.mpr ⟨h.range, forall_mem_singleton.mpr fun c hc => h.numVars ▸ hrange c hc⟩
  pivot c p hp := by
    dsimp only [GF2Matrix.pushRow] at hp ⊢
    by_cases hc : c = first
    · subst hc
      rw [update_self] at hp
      obtain rfl := some.inj hp
      exact ⟨r, getElem?_concat_length, hfirst⟩
    · rw [update_of_ne hc] at hp
      obtain ⟨row, hrow, hlead⟩ := h.pivot c p hp
      exact ⟨row, by rw [List.getElem?_append_left (List.getElem?_eq_some_iff.mp hrow).1, hrow], hlead⟩

theorem reduceRow_spec (h : Fresh m) (hrange : ∀ c ∈ r.bits, c < m.numVars) (hfolded : r.folded = []) :
    ∃ m' result, m.reduceRow r = some (m', result) ∧ Fresh m' ∧ ∀ σ, (∀ row ∈ m.rows, m.Solves σ row) → m.Solves σ r →
    ∀ row ∈ m'.rows, m'.Solves σ row := by
  obtain ⟨r', hrun, hr', hfolded', hpivots, hsolves⟩ :=
    cancelPivots_spec h (m.numVars + 1) (fun c hc => ⟨hrange c hc, by omega⟩) (Nat.succ_pos _) hfolded
  simp only [reduceRow, hrun, bind_eq_bind, bind_some]
  split
  next => exact ⟨m, _, rfl, h, fun σ hall _ => hall⟩
  next first hfirst =>
    split_ifs
    · exact ⟨m, _, rfl, h, fun σ hall _ => hall⟩
    · refine ⟨m.pushRow r' first, _, rfl, h.pushRow hfirst (hpivots first hfirst) hr' hfolded', fun σ hall hr => ?_⟩
      exact forall_mem_append.mpr ⟨hall, forall_mem_singleton.mpr ((hsolves σ hall).mpr hr)⟩

theorem addConstraint_spec (h : Fresh m) (vars : List ℕ) (rhs : Bool) :
    ∃ m' result, m.addConstraint vars rhs = some (m', result) ∧ Fresh m' ∧ ∀ σ, (∀ row ∈ m.rows, m.Solves σ row) →
    parity σ vars.toFinset = rhs → ∀ row ∈ m'.rows, m'.Solves σ row := by
  have hreg := registerVars_spec h vars
  generalize hm : vars.foldl registerVar m = n at hreg
  have hrange : ∀ c ∈ (vars.filterMap n.varToCol).toFinset, c < n.numVars := by
    intro c hc
    obtain ⟨v, -, hv⟩ := mem_filterMap.mp (List.mem_toFinset.mp hc)
    exact hreg.fresh.numVars ▸ hreg.fresh.column_lt hv
  obtain ⟨m', result, hrun, hfresh, hsolves⟩ :=
    reduceRow_spec (r := ⟨(vars.filterMap n.varToCol).toFinset, rhs, []⟩) hreg.fresh hrange rfl
  refine ⟨m', result, ?_, hfresh, fun σ hall hparity => hsolves σ (fun row hrow => ?_) ?_⟩
  · rw [addConstraint, hm]
    exact hrun
  · rw [hreg.rows] at hrow
    exact (hreg.solves σ row hrow).mpr (hall row hrow)
  · exact (hreg.fresh.parity_columns hreg.all).trans hparity

end Nixie.Xor.GF2Matrix
