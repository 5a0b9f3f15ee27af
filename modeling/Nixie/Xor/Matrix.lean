import Mathlib.Data.Finset.Max
import Nixie.Parity

/-!
The GF(2) matrix of `nixie-sat/src/xor.rs`: rows reduced by their pivots, the assigned literals folded into them, and
the folds undone.  The capped lists of sources are left out.
-/

namespace Nixie.Xor

open Parity List Option
open scoped symmDiff

structure GF2Row where
  bits : Finset ℕ
  rhs : Bool
  /-- The folded columns with their values, in fold order. -/
  folded : List (ℕ × Bool)
  deriving DecidableEq

structure PropagateUndo where
  var : ℕ
  value : Bool
  touchedRows : List ℕ
  deriving DecidableEq

structure GF2Matrix where
  rows : List GF2Row := []
  numVars : ℕ := 0
  varToCol : ℕ → Option ℕ := fun _ => none
  colToVar : List ℕ := []
  pivots : ℕ → Option ℕ := fun _ => none
  colRows : ℕ → List ℕ := fun _ => []
  undoStack : List PropagateUndo := []

inductive XorAddResult
  | added
  | redundant
  | unit (var : ℕ) (value : Bool) (folded : List (ℕ × Bool))
  | conflict (folded : List (ℕ × Bool))
  deriving DecidableEq

namespace GF2Row

def firstSet (r : GF2Row) : Option ℕ := if h : r.bits.Nonempty then some (r.bits.min' h) else none

def xorWith (r other : GF2Row) : GF2Row := { r with bits := r.bits ∆ other.bits, rhs := r.rhs ^^ other.rhs }

def fold (r : GF2Row) (col : ℕ) (value : Bool) : GF2Row :=
    ⟨r.bits.erase col, r.rhs ^^ value, r.folded ++ [(col, value)]⟩

def unfold (r : GF2Row) (col : ℕ) (value : Bool) : GF2Row := ⟨insert col r.bits, r.rhs ^^ value, r.folded.dropLast⟩

end GF2Row

namespace GF2Matrix

def registerVar (m : GF2Matrix) (var : ℕ) : GF2Matrix :=
  match m.varToCol var with
  | some _ => m
  | none =>
    { m with
      numVars := m.numVars + 1
      varToCol := Function.update m.varToCol var (some m.numVars)
      colToVar := m.colToVar ++ [var] }

def cancelPivots (m : GF2Matrix) : ℕ → GF2Row → Option GF2Row
  | 0, _ => none
  | fuel + 1, row =>
    match row.firstSet with
    | none => some row
    | some first =>
      match (m.pivots first).bind fun p => m.rows[p]? with
      | none => some row
      | some pivot => cancelPivots m fuel (row.xorWith pivot)

def pushRow (m : GF2Matrix) (row : GF2Row) (pivotCol : ℕ) : GF2Matrix :=
  { m with
    rows := m.rows ++ [row]
    pivots := Function.update m.pivots pivotCol (some m.rows.length)
    colRows := fun c => if c ∈ row.bits then m.colRows c ++ [m.rows.length] else m.colRows c }

def reduceRow (m : GF2Matrix) (row : GF2Row) : Option (GF2Matrix × XorAddResult) := do
  let row ← m.cancelPivots (m.numVars + 1) row
  match row.firstSet with
  | none => return (m, if row.rhs then .conflict [] else .redundant)
  | some first =>
    if row.bits.card = 1 then return (m, .unit (m.colToVar.getD first 0) row.rhs [])
    else return (m.pushRow row first, .added)

def addConstraint (m : GF2Matrix) (vars : List ℕ) (rhs : Bool) : Option (GF2Matrix × XorAddResult) :=
  let m := vars.foldl registerVar m
  m.reduceRow ⟨(vars.filterMap m.varToCol).toFinset, rhs, []⟩

def rowResult (m : GF2Matrix) (r : GF2Row) : Option XorAddResult :=
  let folded := r.folded.map fun cv => (m.colToVar.getD cv.1 0, cv.2)
  if r.bits = ∅ then if r.rhs then some (.conflict folded) else none
  else if r.bits.card = 1 then r.firstSet.map fun c => .unit (m.colToVar.getD c 0) r.rhs folded
  else none

def foldRows (m : GF2Matrix) (col : ℕ) (value : Bool) : List ℕ → List GF2Row → List GF2Row × List XorAddResult
  | [], rows => (rows, [])
  | i :: is, rows =>
    match rows[i]? with
    | none => foldRows m col value is rows
    | some r =>
      let (rows', results) := foldRows m col value is (rows.set i (r.fold col value))
      (rows', (m.rowResult (r.fold col value)).toList ++ results)

def propagate (m : GF2Matrix) (var : ℕ) (value : Bool) : GF2Matrix × List XorAddResult :=
  match m.varToCol var with
  | none => ({ m with undoStack := m.undoStack ++ [⟨var, value, []⟩] }, [])
  | some col =>
    let (rows, results) := m.foldRows col value (m.colRows col) m.rows
    ({ m with rows := rows, undoStack := m.undoStack ++ [⟨var, value, m.colRows col⟩] }, results)

def unfoldRows (col : ℕ) (value : Bool) : List ℕ → List GF2Row → List GF2Row
  | [], rows => rows
  | i :: is, rows => unfoldRows col value is (rows.modify i fun r => r.unfold col value)

def undoPropagate (m : GF2Matrix) : GF2Matrix :=
  match m.undoStack.getLast? with
  | none => m
  | some entry =>
    let m := { m with undoStack := m.undoStack.dropLast }
    match m.varToCol entry.var with
    | none => m
    | some col => { m with rows := unfoldRows col entry.value entry.touchedRows.reverse m.rows }

section

variable {m base : GF2Matrix} {r : GF2Row} {lits : List ℕ} {lit : ℕ}

structure Fresh (m : GF2Matrix) : Prop where
  column : ∀ v c, m.varToCol v = some c → m.colToVar[c]? = some v
  unfolded : ∀ r ∈ m.rows, r.folded = []
  nodup : ∀ c, (m.colRows c).Nodup
  mem_colRows : ∀ c i, i ∈ m.colRows c ↔ ∃ r, m.rows[i]? = some r ∧ c ∈ r.bits
  undoStack : m.undoStack = []
  numVars : m.numVars = m.colToVar.length
  range : ∀ r ∈ m.rows, ∀ c ∈ r.bits, c < m.colToVar.length
  pivot : ∀ c p, m.pivots c = some p → ∃ r, m.rows[p]? = some r ∧ r.firstSet = some c

def foldLit (base : GF2Matrix) (r folded : GF2Row) (lit : ℕ) : GF2Row :=
  match base.varToCol (lit / 2) with
  | some c => if c ∈ r.bits then folded.fold c (lit % 2 == 0) else folded
  | none => folded

def foldLits (base : GF2Matrix) (lits : List ℕ) (r : GF2Row) : GF2Row := lits.foldl (base.foldLit r) r

theorem foldLits_append : base.foldLits (lits ++ [lit]) r = base.foldLit r (base.foldLits lits r) lit := by
  rw [foldLits, foldl_append]
  rfl

structure Folded (base m : GF2Matrix) (lits : List ℕ) : Prop where
  rows : m.rows = base.rows.map (base.foldLits lits)
  varToCol : m.varToCol = base.varToCol
  colToVar : m.colToVar = base.colToVar
  colRows : m.colRows = base.colRows
  undoStack : m.undoStack = lits.map fun l =>
    ⟨l / 2, l % 2 == 0, (base.varToCol (l / 2)).elim [] base.colRows⟩

theorem Fresh.folded (h : Fresh base) : Folded base base [] := ⟨(map_id _).symm, rfl, rfl, rfl, h.undoStack⟩

theorem mem_foldLits_bits {c : ℕ} :
    c ∈ (base.foldLits lits r).bits ↔ c ∈ r.bits ∧ ∀ l ∈ lits, base.varToCol (l / 2) ≠ some c := by
  induction lits using List.reverseRecOn with
  | nil => simp [foldLits]
  | append_singleton lits lit ih =>
    rw [foldLits_append, foldLit]
    split
    next d hd =>
      split
      next hmem =>
        simp only [GF2Row.fold, Finset.mem_erase, ih, forall_mem_append, forall_mem_singleton, hd, ne_eq, some.injEq]
        constructor
        · rintro ⟨hne, hc, hall⟩
          exact ⟨hc, hall, fun h => hne h.symm⟩
        · rintro ⟨hc, hall, hne⟩
          exact ⟨fun h => hne h.symm, hc, hall⟩
      next hmem =>
        rw [ih]
        simp only [forall_mem_append, forall_mem_singleton, hd, ne_eq, some.injEq]
        constructor
        · rintro ⟨hc, hall⟩
          exact ⟨hc, hall, fun h => hmem (h ▸ hc)⟩
        · rintro ⟨hc, hall, -⟩
          exact ⟨hc, hall⟩
    next hnone =>
      rw [ih, forall_mem_append, forall_mem_singleton, hnone]
      simp

theorem mem_foldLits_folded (hr : r.folded = []) {cv : ℕ × Bool} : cv ∈ (base.foldLits lits r).folded ↔ ∃ l ∈ lits,
    base.varToCol (l / 2) = some cv.1 ∧ cv.1 ∈ r.bits ∧ cv.2 = (l % 2 == 0) := by
  induction lits using List.reverseRecOn with
  | nil => simp [foldLits, hr]
  | append_singleton lits lit ih =>
    have hlast : (∃ l ∈ lits ++ [lit], base.varToCol (l / 2) = some cv.1 ∧ cv.1 ∈ r.bits ∧ cv.2 = (l % 2 == 0)) ↔
        (∃ l ∈ lits, base.varToCol (l / 2) = some cv.1 ∧ cv.1 ∈ r.bits ∧ cv.2 = (l % 2 == 0)) ∨
          base.varToCol (lit / 2) = some cv.1 ∧ cv.1 ∈ r.bits ∧ cv.2 = (lit % 2 == 0) := by
      simp only [mem_append, mem_singleton, or_and_right, exists_or, exists_eq_left]
    rw [foldLits_append, foldLit, hlast, ← ih]
    split
    next d hd =>
      split
      next hmem =>
        rw [GF2Row.fold, mem_append, mem_singleton, Prod.ext_iff, hd, some.injEq]
        refine or_congr_right ⟨?_, ?_⟩
        · rintro ⟨h, h'⟩
          exact ⟨h.symm, h ▸ hmem, h'⟩
        · rintro ⟨h, -, h'⟩
          exact ⟨h.symm, h'⟩
      next hmem =>
        rw [hd, some.injEq]
        exact ⟨.inl, fun h => h.resolve_right fun hlast => hmem (hlast.1 ▸ hlast.2.1)⟩
    next hnone =>
      rw [hnone]
      simp

theorem Fresh.column_fresh (h : Fresh base) (hnodup : ((lits ++ [lit]).map (· / 2)).Nodup) {c : ℕ}
    (hc : base.varToCol (lit / 2) = some c) : ∀ l ∈ lits, base.varToCol (l / 2) ≠ some c := by
  intro l hl heq
  have hvar : l / 2 = lit / 2 := some.inj ((h.column _ _ heq).symm.trans (h.column _ _ hc))
  rw [map_append, nodup_append] at hnodup
  exact hnodup.2.2 _ (mem_map_of_mem hl) _ mem_cons_self hvar

theorem Fresh.parity_foldLits (h : Fresh base) (hr : r.folded = []) (hnodup : (lits.map (· / 2)).Nodup) {ρ : ℕ → Bool}
    (hρ : ∀ cv ∈ (base.foldLits lits r).folded, ρ cv.1 = cv.2) :
    (parity ρ (base.foldLits lits r).bits ^^ (base.foldLits lits r).rhs) = (parity ρ r.bits ^^ r.rhs) := by
  induction lits using List.reverseRecOn with
  | nil => rfl
  | append_singleton lits lit ih =>
    have hprev : (lits.map (· / 2)).Nodup := by
      rw [map_append] at hnodup
      exact (nodup_append.mp hnodup).1
    have hbefore : ∀ cv ∈ (base.foldLits lits r).folded, ρ cv.1 = cv.2 := by
      intro cv hcv
      obtain ⟨l, hl, hrest⟩ := (mem_foldLits_folded hr).mp hcv
      exact hρ cv ((mem_foldLits_folded hr).mpr ⟨l, mem_append_left _ hl, hrest⟩)
    rw [← ih hprev hbefore, foldLits_append, foldLit]
    split
    next c hc =>
      split
      next hmem =>
        have hpresent : c ∈ (base.foldLits lits r).bits := mem_foldLits_bits.mpr ⟨hmem, h.column_fresh hnodup hc⟩
        have hvalue : ρ c = (lit % 2 == 0) := by
          refine hρ (c, lit % 2 == 0) ((mem_foldLits_folded hr).mpr ⟨lit, ?_, hc, hmem, rfl⟩)
          exact mem_append_right _ mem_cons_self
        simp only [GF2Row.fold]
        rw [parity_erase hpresent, hvalue]
        cases (lit % 2 == 0) <;> simp
      next => rfl
    next => rfl

theorem foldRows_fst (col : ℕ) (value : Bool) (is : List ℕ) (rows : List GF2Row) (hnodup : is.Nodup) (i : ℕ) :
    (m.foldRows col value is rows).1[i]? =
      if i ∈ is then rows[i]?.map fun r => r.fold col value else rows[i]? := by
  induction is generalizing rows with
  | nil => simp [foldRows]
  | cons j is ih =>
    obtain ⟨hj, hnodup⟩ := nodup_cons.mp hnodup
    rw [foldRows]
    split
    next hnone =>
      rw [ih rows hnodup]
      by_cases hij : i = j
      · subst hij
        simp [hj, hnone]
      · simp [hij]
    next row hrow =>
      dsimp only
      rw [ih _ hnodup, getElem?_set]
      by_cases hij : i = j
      · subst hij
        have hlt : i < rows.length := (List.getElem?_eq_some_iff.mp hrow).1
        rw [if_neg hj, if_pos rfl, if_pos hlt, if_pos List.mem_cons_self, hrow]
        rfl
      · simp [hij, Ne.symm hij]

theorem mem_foldRows_snd (col : ℕ) (value : Bool) (is : List ℕ) (rows : List GF2Row) (hnodup : is.Nodup)
    {result : XorAddResult} (h : result ∈ (m.foldRows col value is rows).2) :
    ∃ i ∈ is, ∃ r, rows[i]? = some r ∧ m.rowResult (r.fold col value) = some result := by
  induction is generalizing rows with
  | nil => cases h
  | cons j is ih =>
    obtain ⟨hj, hnodup⟩ := nodup_cons.mp hnodup
    rw [foldRows] at h
    split at h
    next hnone =>
      obtain ⟨i, hi, hrest⟩ := ih rows hnodup h
      exact ⟨i, mem_cons_of_mem _ hi, hrest⟩
    next row hrow =>
      dsimp only at h
      rcases mem_append.mp h with h | h
      · exact ⟨j, mem_cons_self, row, hrow, mem_toList.mp h⟩
      · obtain ⟨i, hi, r, hr, hresult⟩ := ih _ hnodup h
        have hij : i ≠ j := fun heq => hj (heq ▸ hi)
        rw [getElem?_set_ne (Ne.symm hij)] at hr
        exact ⟨i, mem_cons_of_mem _ hi, r, hr, hresult⟩

theorem unfoldRows_getElem? (col : ℕ) (value : Bool) (is : List ℕ) (rows : List GF2Row) (hnodup : is.Nodup) (i : ℕ) :
    (unfoldRows col value is rows)[i]? =
      if i ∈ is then rows[i]?.map fun r => r.unfold col value else rows[i]? := by
  induction is generalizing rows with
  | nil => simp [unfoldRows]
  | cons j is ih =>
    obtain ⟨hj, hnodup⟩ := nodup_cons.mp hnodup
    rw [unfoldRows, ih _ hnodup, getElem?_modify]
    by_cases hij : i = j
    · subst hij
      simp [hj]
    · simp [hij, Ne.symm hij]

theorem GF2Row.unfold_fold {c : ℕ} {value : Bool} (hc : c ∈ r.bits) : (r.fold c value).unfold c value = r := by
  simp [GF2Row.unfold, GF2Row.fold, Finset.insert_erase hc]

theorem Folded.getElem?_rows (h : Folded base m lits) (i : ℕ) :
    m.rows[i]? = base.rows[i]?.map (base.foldLits lits) := by
  rw [h.rows, getElem?_map]

theorem Folded.propagate (hbase : Fresh base) (h : Folded base m lits) :
    Folded base (m.propagate (lit / 2) (lit % 2 == 0)).1 (lits ++ [lit]) := by
  rw [GF2Matrix.propagate]
  split
  next hnone =>
    rw [h.varToCol] at hnone
    refine ⟨?_, h.varToCol, h.colToVar, h.colRows, ?_⟩
    · dsimp only
      rw [h.rows]
      refine map_congr_left fun r _ => ?_
      rw [foldLits_append, foldLit, hnone]
    · dsimp only
      rw [h.undoStack, map_append, map_singleton, hnone]
      rfl
  next c hc =>
    rw [h.varToCol] at hc
    refine ⟨?_, h.varToCol, h.colToVar, h.colRows, ?_⟩
    · refine ext_getElem? fun i => ?_
      dsimp only
      rw [h.colRows, foldRows_fst _ _ _ _ (hbase.nodup c), h.getElem?_rows, getElem?_map]
      cases hrow : base.rows[i]? with
      | none => simp
      | some r =>
        have hmem : i ∈ base.colRows c ↔ c ∈ r.bits := by
          rw [hbase.mem_colRows, hrow]
          simp
        simp only [hmem, map_some, foldLits_append, foldLit, hc]
        split <;> rfl
    · dsimp only
      rw [h.undoStack, h.colRows, map_append, map_singleton, hc]
      rfl

theorem Folded.undoPropagate (hbase : Fresh base) (hnodup : ((lits ++ [lit]).map (· / 2)).Nodup)
    (h : Folded base m (lits ++ [lit])) : Folded base m.undoPropagate lits := by
  have hlast : m.undoStack.getLast? =
      some ⟨lit / 2, lit % 2 == 0, (base.varToCol (lit / 2)).elim [] base.colRows⟩ := by
    rw [h.undoStack, map_append, map_singleton, getLast?_concat]
  have hstack : m.undoStack.dropLast = lits.map fun l =>
      ⟨l / 2, l % 2 == 0, (base.varToCol (l / 2)).elim [] base.colRows⟩ := by
    rw [h.undoStack, map_append, map_singleton, dropLast_concat]
  rw [GF2Matrix.undoPropagate, hlast]
  dsimp only
  rw [h.varToCol]
  split
  next hnone =>
    refine ⟨?_, rfl, h.colToVar, h.colRows, hstack⟩
    dsimp only
    rw [h.rows]
    refine map_congr_left fun r _ => ?_
    rw [foldLits_append, foldLit, hnone]
  next c hc =>
    refine ⟨?_, rfl, h.colToVar, h.colRows, hstack⟩
    refine ext_getElem? fun i => ?_
    dsimp only
    rw [hc, elim_some, unfoldRows_getElem? _ _ _ _ (nodup_reverse.mpr (hbase.nodup c)), h.getElem?_rows, getElem?_map]
    cases hrow : base.rows[i]? with
    | none => simp
    | some r =>
      have hmem : i ∈ (base.colRows c).reverse ↔ c ∈ r.bits := by
        rw [mem_reverse, hbase.mem_colRows, hrow]
        simp
      simp only [hmem, map_some, foldLits_append, foldLit, hc]
      split
      next hbits =>
        rw [GF2Row.unfold_fold (mem_foldLits_bits.mpr ⟨hbits, hbase.column_fresh hnodup hc⟩)]
      next => rfl

section

variable {σ : ℕ → Bool} {folded : List (ℕ × Bool)}

def Solves (m : GF2Matrix) (σ : ℕ → Bool) (r : GF2Row) : Prop :=
  parity (fun c => σ (m.colToVar.getD c 0)) r.bits = r.rhs

theorem Folded.result (hbase : Fresh base) (h : Folded base m lits) {result : XorAddResult}
    (hresult : result ∈ (m.propagate (lit / 2) (lit % 2 == 0)).2) :
    ∃ r ∈ base.rows, base.rowResult (base.foldLits (lits ++ [lit]) r) = some result := by
  rw [GF2Matrix.propagate] at hresult
  split at hresult
  next => cases hresult
  next c hc =>
    dsimp only at hresult
    rw [h.colRows] at hresult
    obtain ⟨i, hi, row, hrow, hsome⟩ := mem_foldRows_snd _ _ _ _ (hbase.nodup c) hresult
    obtain ⟨r, hr, hbits⟩ := (hbase.mem_colRows c i).mp hi
    rw [h.getElem?_rows, hr] at hrow
    obtain rfl := some.inj hrow
    rw [h.varToCol] at hc
    refine ⟨r, mem_of_getElem? hr, ?_⟩
    rw [foldLits_append, foldLit, hc]
    dsimp only
    rw [if_pos hbits]
    rw [← hsome, rowResult, rowResult, h.colToVar]

theorem Fresh.solves_foldLits (h : Fresh base) (hr : r ∈ base.rows) (hσ : base.Solves σ r)
    (hnodup : (lits.map (· / 2)).Nodup) (hfolded :
    ∀ vb ∈ (base.foldLits lits r).folded.map (fun cv => (base.colToVar.getD cv.1 0, cv.2)), σ vb.1 = vb.2) :
    base.Solves σ (base.foldLits lits r) := by
  have hparity := h.parity_foldLits (h.unfolded r hr) hnodup (ρ := fun c => σ (base.colToVar.getD c 0))
    fun cv hcv => hfolded _ (mem_map_of_mem hcv)
  rw [Solves] at hσ ⊢
  rw [hσ, Bool.xor_self] at hparity
  simpa using hparity

theorem Fresh.conflict_refutes (h : Fresh base) (hr : r ∈ base.rows) (hσ : base.Solves σ r)
    (hnodup : (lits.map (· / 2)).Nodup) (hresult : base.rowResult (base.foldLits lits r) = some (.conflict folded)) :
    ∃ vb ∈ folded, σ vb.1 ≠ vb.2 := by
  unfold rowResult at hresult
  dsimp only at hresult
  split_ifs at hresult with hempty hrhs
  · obtain rfl := XorAddResult.conflict.inj (some.inj hresult)
    by_contra hall
    push Not at hall
    have hsolves := h.solves_foldLits hr hσ hnodup hall
    rw [Solves, hempty, parity_empty, hrhs] at hsolves
    cases hsolves
  · obtain ⟨c, -, hc⟩ := map_eq_some_iff.mp hresult
    cases hc

theorem Fresh.unit_implied (h : Fresh base) (hr : r ∈ base.rows) (hσ : base.Solves σ r)
    (hnodup : (lits.map (· / 2)).Nodup) {v : ℕ} {val : Bool}
    (hresult : base.rowResult (base.foldLits lits r) = some (.unit v val folded)) :
    (∃ vb ∈ folded, σ vb.1 ≠ vb.2) ∨ σ v = val := by
  unfold rowResult at hresult
  dsimp only at hresult
  split_ifs at hresult with hempty hrhs hcard
  · cases some.inj hresult
  obtain ⟨c, hfirst, hc⟩ := map_eq_some_iff.mp hresult
  obtain ⟨rfl, rfl, rfl⟩ := XorAddResult.unit.inj hc
  by_contra hall
  push Not at hall
  have hsolves := h.solves_foldLits hr hσ hnodup hall.1
  obtain ⟨d, hd⟩ := Finset.card_eq_one.mp hcard
  have hcd : c ∈ (base.foldLits lits r).bits := by
    unfold GF2Row.firstSet at hfirst
    split at hfirst
    · obtain rfl := some.inj hfirst
      exact Finset.min'_mem _ _
    · cases hfirst
  rw [hd, Finset.mem_singleton] at hcd
  rw [Solves, hd, parity_singleton, ← hcd] at hsolves
  exact hall.2 hsolves

theorem Fresh.mem_folded (h : Fresh base) (hr : r ∈ base.rows) {result : XorAddResult}
    (hresult : base.rowResult (base.foldLits lits r) = some result)
    (hfolded : result = .conflict folded ∨ ∃ v val, result = .unit v val folded) :
    ∀ vb ∈ folded, ∃ l ∈ lits, l / 2 = vb.1 ∧ vb.2 = (l % 2 == 0) := by
  have hmap : folded = (base.foldLits lits r).folded.map fun cv => (base.colToVar.getD cv.1 0, cv.2) := by
    unfold rowResult at hresult
    dsimp only at hresult
    split_ifs at hresult
    · obtain rfl := some.inj hresult
      rcases hfolded with hf | ⟨v, val, hf⟩
      · exact (XorAddResult.conflict.inj hf).symm
      · cases hf
    · obtain ⟨c, -, rfl⟩ := map_eq_some_iff.mp hresult
      rcases hfolded with hf | ⟨v, val, hf⟩
      · cases hf
      · exact (XorAddResult.unit.inj hf).2.2.symm
  rw [hmap]
  intro vb hvb
  obtain ⟨cv, hcv, rfl⟩ := mem_map.mp hvb
  obtain ⟨l, hl, hcol, -, hvalue⟩ := (mem_foldLits_folded (h.unfolded r hr)).mp hcv
  exact ⟨l, hl, by rw [getD_eq_getElem?_getD, h.column _ _ hcol, getD_some], hvalue⟩

end

end

end GF2Matrix

end Nixie.Xor
