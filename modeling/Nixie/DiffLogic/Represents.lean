import Nixie.DiffLogic.Search
import Mathlib.Tactic.Linarith

/-!
The constraint graph stands for the constraints asserted in the open scopes: terms are numbered
one to one, every constraint has its edge in the list of its source, and a pop goes back to the
constraints that an outer scope had.
-/

namespace Nixie.DiffLogic

open Nixie.Graph List Option

structure Asserted where
  x : ℕ
  y : ℕ
  bound : ℚ
  kind : ConstraintType

def Asserted.tightened (isInteger : Bool) (a : Asserted) : ℚ :=
  if a.kind = .ltConst ∧ isInteger then a.bound - 1 else a.bound

structure SparseSession where
  asserted : List Asserted := []
  saved : List (List Asserted) := []

namespace SparseSession

def add (σ : SparseSession) (a : Asserted) : SparseSession :=
  { σ with asserted := σ.asserted ++ [a] }

def push (σ : SparseSession) : SparseSession := { σ with saved := σ.asserted :: σ.saved }

def pop : ℕ → SparseSession → SparseSession
  | 0, σ => σ
  | _ + 1, ⟨asserted, []⟩ => ⟨asserted, []⟩
  | levels + 1, ⟨_, A :: saved⟩ => pop levels ⟨A, saved⟩

def stack (σ : SparseSession) : List (List Asserted) := σ.asserted :: σ.saved

theorem stack_pop (levels : ℕ) (σ : SparseSession) :
    (σ.pop levels).stack = σ.stack.drop (min levels σ.saved.length) := by
  induction levels generalizing σ with
  | zero => simp [pop]
  | succ levels ih =>
    obtain ⟨asserted, saved⟩ := σ
    cases saved with
    | nil => simp [pop]
    | cons A saved =>
      rw [pop, ih]
      simp [stack]

end SparseSession

def Solves (isInteger : Bool) (A : List Asserted) (φ : ℕ → ℚ) : Prop :=
  ∀ a ∈ A, φ a.x - φ a.y ≤ a.tightened isInteger

namespace ConstraintGraph

variable {graph : ConstraintGraph} {A : List Asserted} {a : Asserted} {cs : List DiffConstraint}

def edgesFrom (graph : ConstraintGraph) (cs : List DiffConstraint) (v : DiffVar) : List DiffEdge :=
  (cs.zipIdx.filter fun p => p.1.y = v).map fun p => graph.edgeOf p.1 p.2

theorem edgesFrom_concat (c : DiffConstraint) (v : DiffVar) :
    graph.edgesFrom (cs ++ [c]) v =
      if v = c.y then graph.edgesFrom cs v ++ [graph.edgeOf c cs.length] else graph.edgesFrom cs v := by
  unfold edgesFrom
  rw [zipIdx_append, filter_append, map_append]
  by_cases hv : v = c.y
  · subst hv
    simp
  · simp [hv, Ne.symm hv]

theorem mem_edgesFrom {e : DiffEdge} {v : DiffVar} :
    e ∈ graph.edgesFrom cs v ↔ ∃ i c, cs[i]? = some c ∧ c.y = v ∧ e = graph.edgeOf c i := by
  simp only [edgesFrom, List.mem_map, List.mem_filter, decide_eq_true_eq, Prod.exists, List.mem_zipIdx_iff_getElem?]
  constructor
  · rintro ⟨c, i, ⟨hc, hy⟩, rfl⟩
    exact ⟨i, c, hc, hy, rfl⟩
  · rintro ⟨i, c, hc, hy, rfl⟩
    exact ⟨c, i, ⟨hc, hy⟩, rfl⟩

theorem edgesFrom_sorted (v : DiffVar) :
    (graph.edgesFrom cs v).Pairwise fun e f => e.constraintIdx < f.constraintIdx := by
  unfold edgesFrom
  rw [pairwise_map]
  apply List.Pairwise.filter
  have hidx : (cs.zipIdx.map Prod.snd).Pairwise (· < ·) := by
    rw [zipIdx_map_snd]
    exact pairwise_lt_range' 1
  exact pairwise_map.mp hidx

theorem filter_edgesFrom (keep : ℕ) (v : DiffVar) :
    (graph.edgesFrom cs v).filter (·.constraintIdx < keep) = graph.edgesFrom (cs.take keep) v := by
  induction cs using List.reverseRecOn with
  | nil => simp [edgesFrom]
  | append_singleton cs c ih =>
    rw [edgesFrom_concat]
    by_cases hk : keep ≤ cs.length
    · rw [take_append_of_le_length hk, ← ih]
      split
      · have hidx : ¬ (graph.edgeOf c cs.length).constraintIdx < keep := not_lt.mpr hk
        simp [hidx]
      · rfl
    · rw [take_of_length_le (by omega)] at ih
      rw [take_of_length_le (by simp; omega), edgesFrom_concat]
      split
      · have hidx : (graph.edgeOf c cs.length).constraintIdx < keep := not_le.mp hk
        simp [ih, hidx]
      · exact ih

theorem retain_edgesFrom (keep : ℕ) (v : DiffVar) :
    retain keep (graph.edgesFrom cs v) = graph.edgesFrom (cs.take keep) v := by
  rw [← filter_edgesFrom]
  unfold retain
  cases hlast : (graph.edgesFrom cs v).getLast? with
  | none => simp [getLast?_eq_none_iff.mp hlast]
  | some last =>
    dsimp only
    split
    · rfl
    · next hk =>
      -- the last edge has the largest index
      obtain ⟨l, hl⟩ := getLast?_eq_some_iff.mp hlast
      have hsorted : (graph.edgesFrom cs v).Pairwise _ := edgesFrom_sorted v
      rw [hl, pairwise_append] at hsorted
      symm
      rw [filter_eq_self, hl]
      intro e he
      rcases mem_append.mp he with he | he
      · have := hsorted.2.2 e he last (by simp)
        exact decide_eq_true (by omega)
      · obtain rfl : e = last := by simpa using he
        exact decide_eq_true (by omega)

structure Stores (graph : ConstraintGraph) (a : Asserted) (c : DiffConstraint) : Prop where
  x : graph.varToNode a.x = some c.x
  y : graph.varToNode a.y = some c.y
  bound : c.bound = a.bound
  kind : c.constraintType = a.kind

structure Represents (graph : ConstraintGraph) (A : List Asserted) : Prop where
  count : graph.numVars = graph.nodeToVar.length
  nodup : graph.nodeToVar.Nodup
  interned : ∀ t v, graph.varToNode t = some v ↔ ∃ i, graph.nodeToVar[i]? = some t ∧ v = .node i
  constraints : List.Forall₂ graph.Stores A graph.constraints
  edges : ∀ u, graph.edges (.node u) = graph.edgesFrom graph.constraints (.node u)
  anchors : ∀ e ∈ graph.edges .source, e.src = .source

theorem represents_nil (isInteger : Bool) : Represents { isInteger := isInteger } [] :=
  ⟨rfl, by simp, by simp, .nil, fun u => by simp [edgesFrom], by simp⟩

section

variable (h : graph.Represents A)
include h

theorem Represents.node_of_var {t : ℕ} {v : DiffVar} (ht : graph.varToNode t = some v) :
    ∃ i < graph.numVars, graph.nodeToVar[i]? = some t ∧ v = .node i := by
  obtain ⟨i, hi, rfl⟩ := (h.interned t v).mp ht
  exact ⟨i, h.count ▸ (List.getElem?_eq_some_iff.mp hi).1, hi, rfl⟩

theorem Represents.var_inj {t t' : ℕ} {v : DiffVar} (ht : graph.varToNode t = some v)
    (ht' : graph.varToNode t' = some v) : t = t' := by
  obtain ⟨i, hi, rfl⟩ := (h.interned t v).mp ht
  obtain ⟨j, hj, hij⟩ := (h.interned t' _).mp ht'
  obtain rfl : i = j := DiffVar.node.inj hij
  exact some.inj (hi.symm.trans hj)

theorem Represents.stored {c : DiffConstraint} (hc : c ∈ graph.constraints) : ∃ a ∈ A, graph.Stores a c := by
  obtain ⟨hlen, hget⟩ := forall₂_iff_get.mp h.constraints
  obtain ⟨i, hi, rfl⟩ := mem_iff_getElem.mp hc
  exact ⟨A[i], getElem_mem _, hget i (hlen ▸ hi) hi⟩

theorem Represents.stores (ha : a ∈ A) : ∃ c ∈ graph.constraints, graph.Stores a c := by
  obtain ⟨hlen, hget⟩ := forall₂_iff_get.mp h.constraints
  obtain ⟨i, hi, rfl⟩ := mem_iff_getElem.mp ha
  exact ⟨graph.constraints[i], getElem_mem _, hget i hi (hlen ▸ hi)⟩

theorem Represents.listed : graph.Listed := by
  refine ⟨h.anchors, ?_⟩
  intro u e he
  rw [h.edges u] at he
  obtain ⟨i, c, hc, hy, rfl⟩ := mem_edgesFrom.mp he
  obtain ⟨a, -, hst⟩ := h.stored (mem_of_getElem? hc)
  obtain ⟨j, hj, -, hyj⟩ := h.node_of_var hst.y
  obtain ⟨k, hk, -, hxk⟩ := h.node_of_var hst.x
  rw [hy] at hyj
  obtain rfl : u = j := DiffVar.node.inj hyj
  exact ⟨hy, hj, k, hk, hxk⟩

theorem Represents.feasible_iff {φ : ℕ → ℚ} : Feasible graph.arcs φ ↔
    ∀ c ∈ graph.constraints, φ c.x.id ≤ φ c.y.id + c.effectiveBound graph.isInteger := by
  constructor
  · intro hf c hc
    obtain ⟨a, -, hst⟩ := h.stored hc
    obtain ⟨u, -, -, hu⟩ := h.node_of_var hst.y
    obtain ⟨i, hi⟩ := mem_iff_getElem?.mp hc
    have he : graph.edgeOf c i ∈ graph.arcs := by
      refine h.listed.mem_arcs.mpr ⟨u, ?_⟩
      rw [h.edges u]
      exact mem_edgesFrom.mpr ⟨i, c, hi, hu, rfl⟩
    exact hf _ he
  · intro hall e he
    obtain ⟨u, hu⟩ := h.listed.mem_arcs.mp he
    rw [h.edges u] at hu
    obtain ⟨i, c, hc, -, rfl⟩ := mem_edgesFrom.mp hu
    exact hall c (mem_of_getElem? hc)

end

theorem Stores.effectiveBound {c : DiffConstraint} (h : graph.Stores a c) (isInteger : Bool) :
    c.effectiveBound isInteger = a.tightened isInteger := by
  unfold DiffConstraint.effectiveBound Asserted.tightened
  rw [h.bound, h.kind]
  cases a.kind with
  | leqConst => simp
  | ltConst => simp

theorem Represents.solvable_iff (h : graph.Represents A) :
    (∃ φ, Solves graph.isInteger A φ) ↔ ∃ ψ : ℕ → ℚ, Feasible graph.arcs ψ := by
  constructor
  · rintro ⟨φ, hφ⟩
    refine ⟨fun i => φ (graph.nodeToVar.getD i 0), h.feasible_iff.mpr ?_⟩
    intro c hc
    obtain ⟨a, ha, hst⟩ := h.stored hc
    obtain ⟨i, -, hi, hxi⟩ := h.node_of_var hst.x
    obtain ⟨j, -, hj, hyj⟩ := h.node_of_var hst.y
    have := hφ a ha
    rw [hxi, hyj, hst.effectiveBound]
    simp only [DiffVar.id, getD_eq_getElem?_getD, hi, hj, getD_some]
    linarith
  · rintro ⟨ψ, hψ⟩
    refine ⟨fun t => ((graph.varToNode t).map fun v => ψ v.id).getD 0, ?_⟩
    intro a ha
    obtain ⟨c, hc, hst⟩ := h.stores ha
    have := h.feasible_iff.mp hψ c hc
    rw [hst.effectiveBound] at this
    simp only [hst.x, hst.y, map_some, getD_some]
    linarith

structure Extends (graph graph' : ConstraintGraph) : Prop where
  vars : ∀ t v, graph.varToNode t = some v → graph'.varToNode t = some v
  constraints : graph'.constraints = graph.constraints
  marks : graph'.constraintMarks = graph.constraintMarks
  level : graph'.currentLevel = graph.currentLevel
  integer : graph'.isInteger = graph.isInteger
  count : graph.numVars ≤ graph'.numVars

theorem Extends.trans {g g' g'' : ConstraintGraph} (h : Extends g g') (h' : Extends g' g'') : Extends g g'' :=
  ⟨fun t v ht => h'.vars t v (h.vars t v ht), h'.constraints.trans h.constraints,
    h'.marks.trans h.marks, h'.level.trans h.level, h'.integer.trans h.integer,
    h.count.trans h'.count⟩

theorem Represents.getOrCreateVar (h : graph.Represents A) (t : ℕ) : ∃ graph' v, graph.getOrCreateVar t = (graph', v) ∧
    graph'.Represents A ∧ Extends graph graph' ∧ graph'.varToNode t = some v ∧ (v.id < graph.numVars → graph' = graph)
    := by
  unfold ConstraintGraph.getOrCreateVar
  cases ht : graph.varToNode t with
  | some v =>
    exact ⟨graph, v, rfl, h, ⟨fun _ _ h => h, rfl, rfl, rfl, rfl, le_refl _⟩, ht, fun _ => rfl⟩
  | none =>
    have hfresh : t ∉ graph.nodeToVar := by
      intro hm
      obtain ⟨i, hi⟩ := mem_iff_getElem?.mp hm
      have := (h.interned t _).mpr ⟨i, hi, rfl⟩
      simp [ht] at this
    have hold : ∀ t' v, graph.varToNode t' = some v →
        (if t' = t then some (DiffVar.node graph.numVars) else graph.varToNode t') = some v := by
      intro t' v hv
      rw [if_neg, hv]
      rintro rfl
      simp [ht] at hv
    refine ⟨_, _, rfl, ?_, ⟨hold, rfl, rfl, rfl, rfl, Nat.le_succ _⟩, by simp, fun hlt => absurd hlt (lt_irrefl _)⟩
    refine ⟨by simp [h.count], ?_, ?_, ?_, ?_, ?_⟩
    · exact nodup_append.mpr ⟨h.nodup, by simp, by
        rintro a ha b hb rfl
        exact hfresh (mem_singleton.mp hb ▸ ha)⟩
    · intro t' v
      dsimp only
      by_cases htt : t' = t
      · subst htt
        rw [if_pos rfl]
        constructor
        · rintro hv
          obtain rfl := some.inj hv
          exact ⟨graph.numVars, by rw [h.count]; simp, rfl⟩
        · rintro ⟨i, hi, rfl⟩
          have hlt := (List.getElem?_eq_some_iff.mp hi).1
          rw [length_append, length_singleton] at hlt
          by_cases hi' : i < graph.nodeToVar.length
          · rw [getElem?_append_left hi'] at hi
            exact absurd (mem_of_getElem? hi) hfresh
          · rw [h.count]
            congr 2
            omega
      · rw [if_neg htt, h.interned t' v]
        constructor
        · rintro ⟨i, hi, rfl⟩
          exact ⟨i, by rw [getElem?_append_left (List.getElem?_eq_some_iff.mp hi).1, hi], rfl⟩
        · rintro ⟨i, hi, rfl⟩
          by_cases hi' : i < graph.nodeToVar.length
          · rw [getElem?_append_left hi'] at hi
            exact ⟨i, hi, rfl⟩
          · have hlt := (List.getElem?_eq_some_iff.mp hi).1
            rw [length_append, length_singleton] at hlt
            obtain rfl : i = graph.nodeToVar.length := by omega
            rw [getElem?_concat_length] at hi
            exact absurd (some.inj hi).symm htt
    · exact h.constraints.imp fun a c hst => ⟨hold _ _ hst.x, hold _ _ hst.y, hst.bound, hst.kind⟩
    · intro u
      dsimp only [pushEdge]
      rw [if_neg (by simp)]
      exact h.edges u
    · intro e he
      dsimp only [pushEdge] at he
      rw [if_pos rfl] at he
      rcases mem_append.mp he with he | he
      · exact h.anchors e he
      · obtain rfl := mem_singleton.mp he
        rfl

theorem Represents.addConstraint (h : graph.Represents A) {c : DiffConstraint}
    (hst : graph.Stores a c) : (graph.addConstraint c).1.Represents (A ++ [a]) := by
  obtain ⟨v, -, -, hv⟩ := h.node_of_var hst.y
  refine ⟨h.count, h.nodup, h.interned, ?_, ?_, ?_⟩
  · have hnew : List.Forall₂ graph.Stores [a] [c] := .cons hst .nil
    exact (rel_append h.constraints hnew).imp fun a c hs => ⟨hs.x, hs.y, hs.bound, hs.kind⟩
  · intro u
    show pushEdge graph.edges c.y (graph.edgeOf c graph.constraints.length) (.node u) =
      graph.edgesFrom (graph.constraints ++ [c]) (.node u)
    rw [edgesFrom_concat, ← h.edges u]
    rfl
  · intro e he
    have he' : e ∈ pushEdge graph.edges c.y (graph.edgeOf c graph.constraints.length) .source := he
    unfold pushEdge at he'
    rw [if_neg (by rw [hv]; simp)] at he'
    exact h.anchors e he'

structure Scoped (graph : ConstraintGraph) (σ : SparseSession) : Prop where
  marks : graph.constraintMarks = (σ.stack.map List.length).reverse
  level : graph.currentLevel = σ.saved.length
  nested : σ.stack.Pairwise fun A B => B <+: A

variable {σ : SparseSession}

theorem scoped_nil (isInteger : Bool) : Scoped { isInteger := isInteger } {} :=
  ⟨rfl, rfl, by simp [SparseSession.stack]⟩

theorem Scoped.extends {graph' : ConstraintGraph} (h : graph.Scoped σ) (he : Extends graph graph') : graph'.Scoped σ :=
  ⟨he.marks.trans h.marks, he.level.trans h.level, h.nested⟩

theorem Scoped.addConstraint (h : graph.Scoped σ) (hr : graph.Represents σ.asserted)
    (c : DiffConstraint) : (graph.addConstraint c).1.Scoped (σ.add a) := by
  have hlen : graph.constraints.length = σ.asserted.length := hr.constraints.length_eq.symm
  have hmarks : graph.constraintMarks.length = graph.currentLevel + 1 := by
    rw [h.marks, h.level]
    simp [SparseSession.stack]
  refine ⟨?_, h.level, ?_⟩
  · show (graph.constraintMarks ++ List.replicate _ _).set graph.currentLevel _ = _
    rw [hmarks, Nat.sub_self, replicate_zero, append_nil, h.marks, hlen, h.level]
    simp only [SparseSession.stack, SparseSession.add, map_cons, reverse_cons, length_append, length_singleton]
    rw [set_append_right _ _ (by simp)]
    simp
  · obtain ⟨hhead, htail⟩ := pairwise_cons.mp h.nested
    refine pairwise_cons.mpr ⟨fun B hB => ?_, htail⟩
    exact (hhead B hB).trans (prefix_append _ _)

theorem Scoped.push (h : graph.Scoped σ) (hr : graph.Represents σ.asserted) : graph.push.Scoped σ.push := by
  have hlen : graph.constraints.length = σ.asserted.length := hr.constraints.length_eq.symm
  refine ⟨?_, ?_, ?_⟩
  · show graph.constraintMarks ++ [graph.constraints.length] = _
    rw [h.marks, hlen]
    simp [SparseSession.stack, SparseSession.push]
  · show graph.currentLevel + 1 = _
    rw [h.level]
    rfl
  · refine pairwise_cons.mpr ⟨fun B hB => ?_, h.nested⟩
    rcases mem_cons.mp hB with rfl | hB
    · exact prefix_refl _
    · exact (pairwise_cons.mp h.nested).1 B hB

theorem Represents.push (h : graph.Represents A) : graph.push.Represents A :=
  ⟨h.count, h.nodup, h.interned,
    h.constraints.imp fun _ _ hst => ⟨hst.x, hst.y, hst.bound, hst.kind⟩, h.edges, h.anchors⟩

theorem Represents.pop (h : graph.Represents σ.asserted) (hs : graph.Scoped σ) (levels : ℕ) :
    (graph.pop levels).Represents (σ.pop levels).asserted ∧ (graph.pop levels).Scoped (σ.pop levels) := by
  by_cases hl : levels = 0
  · subst hl
    simp only [ConstraintGraph.pop, ↓reduceIte, SparseSession.pop]
    exact ⟨h, hs⟩
  · have hstack := σ.stack_pop levels
    have hdepth : σ.stack.length = σ.saved.length + 1 := rfl
    generalize hσ : σ.pop levels = σ' at hstack
    -- the scope that is returned to, and its mark
    have hhead : σ.stack[min levels σ.saved.length]? = some σ'.asserted := by
      have := congrArg (fun l => l[0]?) hstack
      simpa [SparseSession.stack] using this.symm
    have htarget : graph.currentLevel - levels = σ.saved.length - min levels σ.saved.length := by
      rw [hs.level]
      omega
    have hkeep : graph.constraintMarks.getD (graph.currentLevel - levels) 0 = σ'.asserted.length := by
      rw [hs.marks, getD_eq_getElem?_getD, getElem?_reverse, length_map, htarget, hdepth,
        show σ.saved.length + 1 - 1 - (σ.saved.length - min levels σ.saved.length) =
          min levels σ.saved.length by omega, getElem?_map, hhead]
      · rfl
      · rw [length_map, hdepth, htarget]
        omega
    have hprefix : σ'.asserted <+: σ.asserted := by
      obtain ⟨hall, -⟩ := pairwise_cons.mp hs.nested
      rcases mem_cons.mp (mem_of_getElem? hhead) with heq | hm
      · rw [heq]
      · exact hall _ hm
    have htake : σ'.asserted = σ.asserted.take σ'.asserted.length := prefix_iff_eq_take.mp hprefix
    have hdrop : σ'.stack = σ.stack.drop (σ.saved.length - (graph.currentLevel - levels)) := by
      rw [hstack, htarget]
      congr 1
      omega
    unfold ConstraintGraph.pop
    rw [if_neg hl]
    dsimp only
    rw [hkeep]
    refine ⟨⟨h.count, h.nodup, h.interned, ?_, ?_, ?_⟩, ⟨?_, ?_, ?_⟩⟩
    · rw [htake]
      simp only [length_take]
      rw [Nat.min_eq_left hprefix.length_le]
      exact (forall₂_take _ h.constraints).imp fun _ _ hst => ⟨hst.x, hst.y, hst.bound, hst.kind⟩
    · intro u
      dsimp only
      rw [h.edges u, retain_edgesFrom]
      rfl
    · intro e he
      dsimp only at he
      unfold retain at he
      apply h.anchors e
      split at he
      · split at he
        · exact mem_of_mem_filter he
        · exact he
      · exact he
    · dsimp only
      rw [hs.marks, hdrop, map_drop, reverse_drop, length_map, hdepth]
      congr 1
      rw [hs.level]
      omega
    · have hlen := congrArg List.length hdrop
      rw [length_drop, hdepth] at hlen
      have hdepth' : σ'.stack.length = σ'.saved.length + 1 := rfl
      dsimp only
      rw [hs.level] at hlen ⊢
      omega
    · rw [hdrop]
      exact hs.nested.sublist (drop_sublist _ _)

end ConstraintGraph

end Nixie.DiffLogic
