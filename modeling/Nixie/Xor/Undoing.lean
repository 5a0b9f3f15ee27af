import Nixie.Xor.Build
import Nixie.Xor.Entailed

/-!
The matrix after all constraints are added: what its answers say, and that undone folds leave no trace.
-/

namespace Nixie.Xor

open Parity List Option

variable {σ : ℕ → Bool}

theorem xorSum_eq_parity {vars : List ℕ} (h : vars.Nodup) : xorSum σ vars = parity σ vars.toFinset := by
  induction vars with
  | nil => simp [xorSum]
  | cons v vars ih =>
    obtain ⟨hv, hvars⟩ := nodup_cons.mp h
    have hmem : v ∈ (v :: vars).toFinset := by simp
    have herase : (v :: vars).toFinset.erase v = vars.toFinset := by
      rw [toFinset_cons, Finset.erase_insert (by simpa using hv)]
    have hsum : xorSum σ (v :: vars) = (σ v ^^ xorSum σ vars) := rfl
    have hparity := parity_erase hmem (ρ := σ)
    rw [herase] at hparity
    rw [hsum, ih hvars, hparity]
    cases σ v <;> simp

def HoldsAll (σ : ℕ → Bool) (cs : List (List ℕ × Bool)) : Prop := ∀ c ∈ cs, xorSum σ c.1 = c.2

namespace XorAddResult

def folded : XorAddResult → List (ℕ × Bool)
  | .unit _ _ folded => folded
  | .conflict folded => folded
  | _ => []

def Justified (cs : List (List ℕ × Bool)) : XorAddResult → Prop
  | .unit v value folded => ∀ σ, HoldsAll σ cs → (∀ vb ∈ folded, σ vb.1 = vb.2) → σ v = value
  | .conflict folded => ∀ σ, HoldsAll σ cs → ∃ vb ∈ folded, σ vb.1 ≠ vb.2
  | _ => True

end XorAddResult

namespace GF2Matrix

variable {m base : GF2Matrix} {cs : List (List ℕ × Bool)}

def addConstraints (m : GF2Matrix) (cs : List (List ℕ × Bool)) : Option GF2Matrix :=
  cs.foldlM (fun m c => (m.addConstraint c.1 c.2).map Prod.fst) m

inductive Reaches (base : GF2Matrix) : GF2Matrix → List (ℕ × Bool) → Prop
  | start : Reaches base base []
  | propagate {m trail} (var : ℕ) (value : Bool) : Reaches base m trail →
      var ∉ trail.map Prod.fst → Reaches base (m.propagate var value).1 (trail ++ [(var, value)])
  | undo {m trail} : Reaches base m trail → Reaches base m.undoPropagate trail.dropLast

section

variable {vars : List ℕ} {rhs : Bool} {result : XorAddResult} {m' : GF2Matrix}

structure Answered (m : GF2Matrix) (vars : List ℕ) (rhs : Bool) (result : XorAddResult) : Prop where
  redundant : result = .redundant → ∀ σ, (∀ row ∈ m.rows, m.Solves σ row) → xorSum σ vars = rhs
  conflict : ∀ folded, result = .conflict folded → folded = [] ∧
    ∀ σ, (∀ row ∈ m.rows, m.Solves σ row) → xorSum σ vars ≠ rhs
  unit : ∀ v value folded, result = .unit v value folded → folded = [] ∧
    ∀ σ, (∀ row ∈ m.rows, m.Solves σ row) → xorSum σ vars = rhs → σ v = value

theorem Fresh.addConstraint_answered (h : Fresh m) (hvars : vars.Nodup)
    (hadd : m.addConstraint vars rhs = some (m', result)) : Answered m vars rhs result := by
  have hreg := registerVars_spec h vars
  rw [addConstraint] at hadd
  generalize hm : vars.foldl GF2Matrix.registerVar m = n at hreg hadd
  have hrange : ∀ c ∈ (vars.filterMap n.varToCol).toFinset, c < n.numVars := by
    intro c hc
    obtain ⟨v, -, hv⟩ := mem_filterMap.mp (mem_toFinset.mp hc)
    exact hreg.fresh.numVars ▸ hreg.fresh.column_lt hv
  obtain ⟨r, hrun, -, -, -, hsolves⟩ := cancelPivots_spec (r := ⟨(vars.filterMap n.varToCol).toFinset, rhs, []⟩)
    hreg.fresh (n.numVars + 1) (fun c hc => ⟨hrange c hc, by omega⟩) (Nat.succ_pos _) rfl
  have hequation : ∀ σ, (∀ row ∈ m.rows, m.Solves σ row) → (n.Solves σ r ↔ xorSum σ vars = rhs) := by
    intro σ hall
    rw [hsolves σ fun row hrow => (hreg.solves σ row (hreg.rows ▸ hrow)).mpr (hall row (hreg.rows ▸ hrow)),
      xorSum_eq_parity hvars, ← hreg.fresh.parity_columns hreg.all]
    rfl
  simp only [reduceRow, hrun, bind_eq_bind, bind_some] at hadd
  split at hadd
  next hnone =>
    obtain ⟨-, rfl⟩ := Prod.mk.inj (some.inj hadd)
    have hsolved : ∀ σ, n.Solves σ r ↔ r.rhs = false := by
      intro σ
      rw [Solves, firstSet_eq_none.mp hnone, parity_empty, eq_comm]
    split_ifs with hrhs
    · refine ⟨by simp, fun folded heq => ?_, by simp⟩
      obtain rfl := XorAddResult.conflict.inj heq
      refine ⟨rfl, fun σ hall hsum => ?_⟩
      rw [← hequation σ hall, hsolved, hrhs] at hsum
      cases hsum
    · refine ⟨fun _ σ hall => ?_, by simp, by simp⟩
      rw [← hequation σ hall, hsolved]
      exact Bool.eq_false_iff.mpr hrhs
  next first hfirst =>
    split_ifs at hadd with hcard
    · obtain ⟨-, rfl⟩ := Prod.mk.inj (some.inj hadd)
      refine ⟨by simp, by simp, fun v value folded heq => ?_⟩
      obtain ⟨rfl, rfl, rfl⟩ := XorAddResult.unit.inj heq
      refine ⟨rfl, fun σ hall hsum => ?_⟩
      obtain ⟨c, hc⟩ := Finset.card_eq_one.mp hcard
      have hmem := (firstSet_eq_some.mp hfirst).1
      rw [hc, Finset.mem_singleton] at hmem
      rw [← hequation σ hall, Solves, hc, parity_singleton, ← hmem] at hsum
      exact hsum
    · obtain ⟨-, rfl⟩ := Prod.mk.inj (some.inj hadd)
      exact ⟨by simp, by simp, by simp⟩

structure Spans (cs : List (List ℕ × Bool)) (m : GF2Matrix) : Prop where
  fresh : Fresh m
  rows : ∀ σ, HoldsAll σ cs → ∀ row ∈ m.rows, m.Solves σ row

theorem spans_empty : Spans [] {} where
  fresh := ⟨nofun, nofun, fun _ => nodup_nil, by simp, rfl, rfl, nofun, nofun⟩
  rows _ _ _ hrow := absurd hrow not_mem_nil

theorem Spans.addConstraint (h : Spans cs m) (hvars : vars.Nodup) :
    ∃ m' result, m.addConstraint vars rhs = some (m', result) ∧ Spans (cs ++ [(vars, rhs)]) m' ∧
    Answered m vars rhs result ∧ result.Justified (cs ++ [(vars, rhs)]) := by
  obtain ⟨m', result, hadd, hfresh, hsolves⟩ := addConstraint_spec h.fresh vars rhs
  have hanswered := h.fresh.addConstraint_answered hvars hadd
  have hsplit : ∀ σ, HoldsAll σ (cs ++ [(vars, rhs)]) → (∀ row ∈ m.rows, m.Solves σ row) ∧ xorSum σ vars = rhs := by
    intro σ hσ
    obtain ⟨hcs, hlast⟩ := forall_mem_append.mp hσ
    exact ⟨h.rows σ hcs, hlast (vars, rhs) mem_cons_self⟩
  refine ⟨m', result, hadd, ⟨hfresh, fun σ hσ => ?_⟩, hanswered, ?_⟩
  · obtain ⟨hrows, hsum⟩ := hsplit σ hσ
    exact hsolves σ hrows (xorSum_eq_parity hvars ▸ hsum)
  · cases result with
    | added | redundant => trivial
    | unit v value folded =>
      intro σ hσ _
      obtain ⟨hrows, hsum⟩ := hsplit σ hσ
      exact (hanswered.unit v value folded rfl).2 σ hrows hsum
    | conflict folded =>
      intro σ hσ
      obtain ⟨hrows, hsum⟩ := hsplit σ hσ
      exact absurd hsum ((hanswered.conflict folded rfl).2 σ hrows)

theorem addConstraints_append {cs' : List (List ℕ × Bool)} :
    m.addConstraints (cs ++ cs') = (m.addConstraints cs).bind fun m => m.addConstraints cs' := by
  rw [addConstraints, foldlM_append]
  rfl

theorem spans_addConstraints (hcs : ∀ c ∈ cs, c.1.Nodup) : ∃ m, ({} : GF2Matrix).addConstraints cs = some m ∧
    Spans cs m := by
  induction cs using List.reverseRecOn with
  | nil => exact ⟨{}, rfl, spans_empty⟩
  | append_singleton cs c ih =>
    obtain ⟨hinit, hlast⟩ := forall_mem_append.mp hcs
    obtain ⟨m, hm, hspans⟩ := ih hinit
    obtain ⟨m', result, hadd, hspans', -, -⟩ := hspans.addConstraint (hlast c mem_cons_self)
    refine ⟨m', ?_, hspans'⟩
    rw [addConstraints_append, hm, bind_some, addConstraints, foldlM_cons, hadd]
    rfl

end

section

variable {trail : List (ℕ × Bool)}

def litOf (vb : ℕ × Bool) : ℕ := if vb.2 then 2 * vb.1 else 2 * vb.1 + 1

theorem litOf_div (vb : ℕ × Bool) : litOf vb / 2 = vb.1 := by
  unfold litOf
  split_ifs <;> omega

theorem litOf_mod (vb : ℕ × Bool) : (litOf vb % 2 == 0) = vb.2 := by
  unfold litOf
  split_ifs with h
  · simp [h]
  · simp [h, show (2 * vb.1 + 1) % 2 = 1 by omega]

theorem map_litOf : (trail.map litOf).map (· / 2) = trail.map Prod.fst := by
  rw [List.map_map]
  exact List.map_congr_left fun vb _ => litOf_div vb

theorem Reaches.folded (hbase : Fresh base) (h : Reaches base m trail) :
    Folded base m (trail.map litOf) ∧ (trail.map Prod.fst).Nodup := by
  induction h with
  | start => exact ⟨hbase.folded, nodup_nil⟩
  | @propagate m trail var value _ hvar ih =>
    obtain ⟨hfolded, hnodup⟩ := ih
    have hnext : Folded base (m.propagate (litOf (var, value) / 2) (litOf (var, value) % 2 == 0)).1 _ :=
      hfolded.propagate hbase
    rw [litOf_div, litOf_mod] at hnext
    rw [map_append, map_append]
    exact ⟨hnext, hnodup.append (nodup_singleton _) (disjoint_singleton.mpr hvar)⟩
  | @undo m trail _ ih =>
    obtain ⟨hfolded, hnodup⟩ := ih
    cases trail using List.reverseRecOn with
    | nil =>
      have hundo : m.undoPropagate = m := by
        rw [undoPropagate, hfolded.undoStack]
        rfl
      rw [hundo]
      exact ⟨hfolded, hnodup⟩
    | append_singleton trail vb =>
      have hlits : ((trail.map litOf ++ [litOf vb]).map (· / 2)).Nodup := by
        rw [← map_singleton, ← map_append, map_litOf]
        exact hnodup
      rw [map_append] at hfolded hnodup
      rw [dropLast_concat]
      exact ⟨hfolded.undoPropagate hbase hlits, (nodup_append.mp hnodup).1⟩

theorem Reaches.justified (hspans : Spans cs base) (h : Reaches base m trail) {var : ℕ} {value : Bool}
    (hvar : var ∉ trail.map Prod.fst) {result : XorAddResult} (hresult : result ∈ (m.propagate var value).2) :
    result.Justified cs ∧ result.folded ⊆ trail ++ [(var, value)] := by
  obtain ⟨hfolded, -⟩ := h.folded hspans.fresh
  obtain ⟨-, hnodup⟩ := (h.propagate var value hvar).folded hspans.fresh
  have hlit : result ∈ (m.propagate (litOf (var, value) / 2) (litOf (var, value) % 2 == 0)).2 := by
    rwa [litOf_div, litOf_mod]
  obtain ⟨r, hr, hrow⟩ := hfolded.result hspans.fresh hlit
  have hlits : ((trail.map litOf ++ [litOf (var, value)]).map (· / 2)).Nodup := by
    rw [← map_singleton, ← map_append, map_litOf]
    exact hnodup
  have hmem : (∀ folded, (result = .conflict folded ∨ ∃ v val, result = .unit v val folded) →
      folded ⊆ trail ++ [(var, value)]) := by
    intro folded hkind vb hvb
    obtain ⟨l, hl, hdiv, hmod⟩ := hspans.fresh.mem_folded hr hrow hkind vb hvb
    rw [← map_singleton, ← map_append] at hl
    obtain ⟨vb', hvb', rfl⟩ := mem_map.mp hl
    rw [litOf_div] at hdiv
    rw [litOf_mod] at hmod
    rwa [show vb = vb' from Prod.ext hdiv.symm hmod]
  cases result with
  | added | redundant => exact ⟨trivial, nil_subset _⟩
  | unit v val folded =>
    refine ⟨fun σ hσ hall => ?_, hmem folded (.inr ⟨v, val, rfl⟩)⟩
    rcases hspans.fresh.unit_implied hr (hspans.rows σ hσ r hr) hlits hrow with ⟨vb, hvb, hne⟩ | heq
    · exact absurd (hall vb hvb) hne
    · exact heq
  | conflict folded =>
    exact ⟨fun σ hσ => hspans.fresh.conflict_refutes hr (hspans.rows σ hσ r hr) hlits hrow, hmem folded (.inl rfl)⟩

/-- Additions answer by the rows stored before them, equal trails leave equal rows, and every answer of a fold follows
from the constraints and the propagated literals it names. -/
theorem addConstraints_reasoning (hcs : ∀ c ∈ cs, c.1.Nodup) :
    ∃ base, ({} : GF2Matrix).addConstraints cs = some base ∧
    (∀ before c after, cs = before ++ c :: after → ∃ m m' result, ({} : GF2Matrix).addConstraints before = some m ∧
    m.addConstraint c.1 c.2 = some (m', result) ∧ Answered m c.1 c.2 result ∧ result.Justified (before ++ [c])) ∧
    ∀ m trail, Reaches base m trail → (∀ m', Reaches base m' trail → m'.rows = m.rows) ∧
    ∀ var value, var ∉ trail.map Prod.fst → (m.propagate var value).1.undoPropagate.rows = m.rows ∧
    ∀ result ∈ (m.propagate var value).2, result.Justified cs ∧ result.folded ⊆ trail ++ [(var, value)] := by
  obtain ⟨base, hbase, hspans⟩ := spans_addConstraints hcs
  refine ⟨base, hbase, ?_, fun m trail hm => ?_⟩
  · rintro before c after rfl
    obtain ⟨hbefore, hrest⟩ := forall_mem_append.mp hcs
    obtain ⟨m, hm, hm'⟩ := spans_addConstraints hbefore
    obtain ⟨m', result, hadd, -, hanswered, hjustified⟩ :=
      @Spans.addConstraint m before c.1 c.2 hm' (hrest c mem_cons_self)
    exact ⟨m, m', result, hm, hadd, hanswered, hjustified⟩
  · have hsame : ∀ m', Reaches base m' trail → m'.rows = m.rows := fun m' hm' =>
      (hm'.folded hspans.fresh).1.rows.trans (hm.folded hspans.fresh).1.rows.symm
    refine ⟨hsame, fun var value hvar => ⟨hsame _ ?_, fun result hresult => hm.justified hspans hvar hresult⟩⟩
    have hundo := (hm.propagate var value hvar).undo
    rwa [dropLast_concat] at hundo

theorem addConstraints_reasoning_chain :
    ∃ base, ({} : GF2Matrix).addConstraints [([0, 1], true), ([1, 2], false)] = some base ∧
      (base.propagate 0 true).2 = [.unit 1 false [(0, true)]] ∧ (base.propagate 0 true).1.undoPropagate.rows =
        base.rows := by
  obtain ⟨base, hbase, -, hruns⟩ := addConstraints_reasoning
    (by simp : ∀ c ∈ [([0, 1], true), ([1, 2], false)], c.1.Nodup)
  refine ⟨base, hbase, ?_, ((hruns base [] .start).2 0 true not_mem_nil).1⟩
  obtain rfl := some.inj hbase
  decide

end

end GF2Matrix

end Nixie.Xor
