import Nixie.Utvpi.Represents
import Nixie.Graph.Relax
import Mathlib.Algebra.BigOperators.Group.Finset.Piecewise
import Mathlib.Algebra.Order.BigOperators.Group.Finset

/-!
The searches over the doubled graph. A consistent answer comes with values that meet every edge, an inconsistent one
with a negative cycle.
-/

namespace Nixie.Utvpi

open Nixie.Graph List Function DoubledNode

instance : Arc UtEdge DoubledNode BigDeltaRational := ⟨UtEdge.src, UtEdge.dst, UtEdge.weight⟩

variable {E l : List UtEdge} {d : Distances}

theorem foldl_relaxEdge (l : List UtEdge) (d : Distances) (changed : Bool) :
    (l.foldl relaxEdge (d, changed)).1 = sweep l d ∧
    ((l.foldl relaxEdge (d, changed)).2 = false → changed = false ∧ sweep l d = d ∧ Feasible l d) := by
  induction l generalizing d changed with
  | nil => exact ⟨rfl, fun h => ⟨h, rfl, by simp [Feasible]⟩⟩
  | cons e l ih =>
    rw [foldl_cons]
    by_cases hlt : d e.src + e.weight < d e.dst
    · have hstep : relaxEdge (d, changed) e = (relax d e, true) := by
        unfold relaxEdge relax
        dsimp only
        rw [if_pos hlt]
        exact congrArg (·, true) (if_pos hlt).symm
      rw [hstep]
      obtain ⟨hd, hch⟩ := ih (relax d e) true
      exact ⟨hd, fun h => absurd (hch h).1 (by simp)⟩
    · have hsame : relax d e = d := if_neg hlt
      have hstep : relaxEdge (d, changed) e = (d, changed) := by
        unfold relaxEdge
        dsimp only
        rw [if_neg hlt]
      have hsweep : sweep (e :: l) d = sweep l d := by
        show sweep l (relax d e) = sweep l d
        rw [hsame]
      rw [hstep, hsweep]
      obtain ⟨hd, hch⟩ := ih d changed
      refine ⟨hd, fun h => ?_⟩
      obtain ⟨hc, hs, hf⟩ := hch h
      refine ⟨hc, hs, fun f hf' => ?_⟩
      rcases mem_cons.mp hf' with rfl | hf'
      · exact not_lt.mp hlt
      · exact hf f hf'

theorem foldl_relaxEdge_feasible (hf : Feasible l d) (changed : Bool) :
    l.foldl relaxEdge (d, changed) = (d, changed) := by
  induction l with
  | nil => rfl
  | cons e l ih =>
    have hle : d e.dst ≤ d e.src + e.weight := hf e (by simp)
    have hstep : relaxEdge (d, changed) e = (d, changed) := by
      unfold relaxEdge
      dsimp only
      rw [if_neg (not_lt.mpr hle)]
    rw [foldl_cons, hstep]
    exact ih fun f hf' => hf f (by simp [hf'])

theorem bellmanFordPasses_spec {vs : List DoubledNode} (hvs : Spans vs E) {d₀ : Distances} (passes k : ℕ)
    (hp : 0 < passes) (hk : vs.length ≤ k + passes) (d : Distances) (ha : Attained E d₀ d) (hs : Settled E d₀ k d) :
    ((bellmanFordPasses E passes d).2 = true → Feasible E (bellmanFordPasses E passes d).1) ∧
    ((bellmanFordPasses E passes d).2 = false → ¬ Balanced E) := by
  induction passes generalizing k d with
  | zero => exact absurd hp (lt_irrefl 0)
  | succ passes ih =>
    have hfold := foldl_relaxEdge E d false
    unfold bellmanFordPasses
    cases hr : E.foldl relaxEdge (d, false) with
    | mk d' changed =>
      rw [hr] at hfold
      obtain ⟨rfl, hch⟩ := hfold
      cases changed with
      | false =>
        obtain ⟨-, hd, hf⟩ := hch rfl
        simp only [Bool.not_false, ↓reduceIte, forall_const, Bool.true_eq_false, IsEmpty.forall_iff, and_true, hd]
        exact hf
      | true =>
        simp only [Bool.not_true, Bool.false_eq_true, ↓reduceIte]
        by_cases hlast : passes = 0
        · simp only [hlast, ↓reduceIte, Bool.false_eq_true, IsEmpty.forall_iff, true_and, forall_const]
          intro hb
          have hf := hs.feasible ha hb hvs (by omega)
          rw [foldl_relaxEdge_feasible hf] at hr
          exact absurd (congrArg Prod.snd hr) (by simp)
        · rw [if_neg hlast]
          exact ih (k + 1) (Nat.pos_of_ne_zero hlast) (by omega) _ (ha.sweep (List.Subset.refl E))
            (hs.sweep (List.Subset.refl E))

namespace Spfa

variable {S : Finset DoubledNode} {n fuel : ℕ} {graph : DoubledGraph} {spfa spfa' mid : Spfa}
  {src : DoubledNode}

def Queued (S : Finset DoubledNode) (spfa : Spfa) : Prop :=
  ∀ v ∈ S, spfa.queued v = true → v ∈ spfa.queue

structure Relaxed (S : Finset DoubledNode) (n : ℕ) (spfa spfa' : Spfa) : Prop where
  le : ∀ v, spfa'.distances v ≤ spfa.distances v
  changed : ∀ v, spfa'.distances v ≠ spfa.distances v → v ∈ spfa'.queue
  queue : spfa.queue ⊆ spfa'.queue
  queued : Queued S spfa'
  counts : ∀ v ∈ S, spfa'.counts v ≤ n
  sum : ∑ v ∈ S, spfa'.counts v + spfa.queue.length = ∑ v ∈ S, spfa.counts v + spfa'.queue.length

theorem relaxed_refl (hq : Queued S spfa) (hc : ∀ v ∈ S, spfa.counts v ≤ n) : Relaxed S n spfa spfa :=
  ⟨fun _ => le_refl _, fun _ h => absurd rfl h, List.Subset.refl _, hq, hc, rfl⟩

theorem Relaxed.improve {v : DoubledNode} {next : BigDeltaRational} (h : Relaxed S n mid spfa')
    (hmid : mid.distances = update spfa.distances v next) (hlt : next < spfa.distances v) (hv : v ∈ mid.queue)
    (hqueue : spfa.queue ⊆ mid.queue) (hsum : ∑ u ∈ S, mid.counts u + spfa.queue.length =
    ∑ u ∈ S, spfa.counts u + mid.queue.length) : Relaxed S n spfa spfa' := by
  refine ⟨fun u => ?_, fun u hu => ?_, fun u hu => h.queue (hqueue hu), h.queued, h.counts, ?_⟩
  · refine (h.le u).trans ?_
    rw [hmid]
    by_cases huv : u = v
    · subst huv
      rw [update_self]
      exact hlt.le
    · rw [update_of_ne huv]
  · by_cases huv : u = v
    · subst huv
      exact h.queue hv
    · apply h.changed u
      rw [hmid, update_of_ne huv]
      exact hu
  · have := h.sum
    omega

def Holds (spfa spfa' : Spfa) (src : DoubledNode) (l : List UtEdge) : Prop :=
  spfa'.distances src = spfa.distances src →
    ∀ e ∈ l, spfa'.distances e.dst ≤ spfa.distances src + e.weight

theorem Holds.improve {e : UtEdge} (h : Holds mid spfa' src l) (hrel : Relaxed S n mid spfa')
    (hmid : mid.distances = update spfa.distances e.dst (spfa.distances src + e.weight))
    (hlt : spfa.distances src + e.weight < spfa.distances e.dst) : Holds spfa spfa' src (e :: l) := by
  intro hsrc
  have hmidle : mid.distances src ≤ spfa.distances src := by
    rw [hmid]
    by_cases heq : src = e.dst
    · rw [heq, update_self, ← heq]
      rw [← heq] at hlt
      exact hlt.le
    · rw [update_of_ne heq]
  have hsame : mid.distances src = spfa.distances src := le_antisymm hmidle (hsrc ▸ hrel.le src)
  intro f hf
  rcases mem_cons.mp hf with rfl | hf
  · refine (hrel.le _).trans ?_
    rw [hmid, update_self]
  · rw [← hsame]
    exact h (hsrc.trans hsame.symm) f hf

theorem sum_update_succ {v : DoubledNode} (hv : v ∈ S) (counts : DoubledNode → ℕ) :
    ∑ u ∈ S, update counts v (counts v + 1) u = ∑ u ∈ S, counts u + 1 := by
  rw [Finset.sum_update_of_mem hv, Finset.sum_eq_add_sum_sdiff_singleton_of_mem hv counts]
  omega

theorem relaxEdges_spec (hl : ∀ e ∈ l, e.dst ∈ S) (hq : Queued S spfa) (hc : ∀ v ∈ S, spfa.counts v ≤ n)
    (hr : (relaxEdges n src l spfa).2 = false) : Relaxed S n spfa (relaxEdges n src l spfa).1 ∧
    Holds spfa (relaxEdges n src l spfa).1 src l := by
  induction l generalizing spfa with
  | nil => exact ⟨relaxed_refl hq hc, fun _ => by simp⟩
  | cons e l ih =>
    have hdst := hl e (by simp)
    have hl' : ∀ f ∈ l, f.dst ∈ S := fun f hf => hl f (by simp [hf])
    unfold relaxEdges at hr ⊢
    dsimp only at hr ⊢
    by_cases hlt : spfa.distances src + e.weight < spfa.distances e.dst
    · rw [if_pos hlt] at hr ⊢
      by_cases hin : spfa.queued e.dst = true
      · simp only [hin, Bool.not_true, Bool.false_eq_true, ↓reduceIte] at hr ⊢
        obtain ⟨hrel, hholds⟩ := @ih { spfa with
          distances := update spfa.distances e.dst (spfa.distances src + e.weight) }
          hl' hq hc hr
        exact ⟨hrel.improve rfl hlt (hq _ hdst hin) (List.Subset.refl _) rfl, hholds.improve hrel rfl hlt⟩
      · simp only [hin, Bool.not_false, ↓reduceIte, update_self] at hr ⊢
        by_cases hmany : n < spfa.counts e.dst + 1
        · rw [if_pos hmany] at hr
          exact absurd hr (by simp)
        · rw [if_neg hmany] at hr ⊢
          have hq' : Queued S { spfa with
              distances := update spfa.distances e.dst (spfa.distances src + e.weight)
              counts := update spfa.counts e.dst (spfa.counts e.dst + 1)
              queued := update spfa.queued e.dst true
              queue := spfa.queue ++ [e.dst] } := by
            intro v hv hqv
            by_cases hve : v = e.dst
            · simp [hve]
            · simp only [update_of_ne hve] at hqv
              exact mem_append_left _ (hq v hv hqv)
          have hc' : ∀ v ∈ S, update spfa.counts e.dst (spfa.counts e.dst + 1) v ≤ n := by
            intro v hv
            by_cases hve : v = e.dst
            · subst hve
              rw [update_self]
              omega
            · rw [update_of_ne hve]
              exact hc v hv
          obtain ⟨hrel, hholds⟩ := ih hl' hq' hc' hr
          refine ⟨hrel.improve rfl hlt (by simp) (subset_append_left _ _) ?_, hholds.improve hrel rfl hlt⟩
          dsimp only
          rw [sum_update_succ hdst, length_append, length_singleton]
          omega
    · rw [if_neg hlt] at hr ⊢
      obtain ⟨hrel, hholds⟩ := ih hl' hq hc hr
      refine ⟨hrel, fun hsrc f hf => ?_⟩
      rcases mem_cons.mp hf with rfl | hf
      · exact (hrel.le _).trans (not_lt.mp hlt)
      · exact hholds hsrc f hf

/-- The search between two visits. The edges of the nodes outside the queue hold, and the fuel
covers the visits that are left. -/
structure Searching (S : Finset DoubledNode) (n : ℕ) (E : List UtEdge) (fuel : ℕ) (spfa : Spfa) :
    Prop where
  queued : Queued S spfa
  counts : ∀ v ∈ S, spfa.counts v ≤ n
  idle : ∀ e ∈ E, e.src ∉ spfa.queue → spfa.distances e.dst ≤ spfa.distances e.src + e.weight
  fuel : n * n + 1 + spfa.queue.length ≤ fuel + ∑ v ∈ S, spfa.counts v

theorem Searching.fuel_pos (h : Searching S n E fuel spfa) (hS : S.card ≤ n) : 0 < fuel := by
  have hsum : ∑ v ∈ S, spfa.counts v ≤ n * n :=
    calc ∑ v ∈ S, spfa.counts v ≤ S.card • n := Finset.sum_le_card_nsmul _ _ _ h.counts
      _ = S.card * n := by rw [nsmul_eq_mul, Nat.cast_id]
      _ ≤ n * n := Nat.mul_le_mul_right n hS
  have := h.fuel
  omega

theorem search_feasible (hS : S.card ≤ n) (hE : ∀ e, e ∈ E ↔ e ∈ graph.edges e.src)
    (hsrc : ∀ v, ∀ e ∈ graph.edges v, e.src = v ∧ e.dst ∈ S) (h : Searching S n E fuel spfa)
    (hr : (search graph n fuel spfa).2 = false) : Feasible E (search graph n fuel spfa).1.distances := by
  induction fuel generalizing spfa with
  | zero => exact absurd (h.fuel_pos hS) (lt_irrefl 0)
  | succ fuel ih =>
    unfold search at hr ⊢
    cases hqueue : spfa.queue with
    | nil =>
      intro e he
      exact h.idle e he (by simp [hqueue])
    | cons node queue =>
      simp only [hqueue] at hr ⊢
      have hq : Queued S { spfa with
          queue := queue
          queued := update spfa.queued node false } := by
        intro v hv hqv
        by_cases hvn : v = node
        · simp [hvn] at hqv
        · simp only [update_of_ne hvn] at hqv
          have := h.queued v hv hqv
          rw [hqueue] at this
          exact (mem_cons.mp this).resolve_left hvn
      have hspec := @relaxEdges_spec _ S n _ node (fun e he => (hsrc node e he).2) hq h.counts
      cases hre : relaxEdges n node (graph.edges node) { spfa with
          queue := queue
          queued := update spfa.queued node false } with
      | mk spfa' fallback =>
        rw [hre] at hspec
        simp only [hre] at hr ⊢
        cases fallback with
        | true => exact absurd hr (by simp)
        | false =>
          obtain ⟨hrel, hholds⟩ := hspec rfl
          refine ih ⟨hrel.queued, hrel.counts, fun e he hnot => ?_, ?_⟩ hr
          · have hsame : spfa'.distances e.src = spfa.distances e.src := by
              by_contra hne
              exact hnot (hrel.changed _ hne)
            by_cases hen : e.src = node
            · rw [hsame]
              rw [hen] at hsame ⊢
              exact hholds hsame e (hen ▸ (hE e).mp he)
            · have hold : e.src ∉ spfa.queue := by
                rw [hqueue]
                intro hm
                rcases mem_cons.mp hm with hm | hm
                · exact hen hm
                · exact hnot (hrel.queue hm)
              rw [hsame]
              exact (hrel.le _).trans (h.idle e he hold)
          · have hfuel := h.fuel
            have hsum := hrel.sum
            rw [hqueue, length_cons] at hfuel
            dsimp only at hsum
            omega

end Spfa

namespace DoubledGraph

variable {graph : DoubledGraph} {σ : Scopes UtConstraint} {order : List DoubledNode} {e : UtEdge}

theorem mem_allNodes {v : DoubledNode} :
    v ∈ graph.allNodes ++ [source] ↔ v = .source ∨ ∃ u < graph.numVars, ∃ b, v = .node u b := by
  simp only [allNodes, mem_append, mem_map, mem_range, mem_singleton]
  constructor
  · rintro ((⟨u, hu, rfl⟩ | ⟨u, hu, rfl⟩) | rfl)
    · exact .inr ⟨u, hu, true, rfl⟩
    · exact .inr ⟨u, hu, false, rfl⟩
    · exact .inl rfl
  · rintro (rfl | ⟨u, hu, b, rfl⟩)
    · exact .inr rfl
    · cases b with
      | true => exact .inl (.inl ⟨u, hu, rfl⟩)
      | false => exact .inl (.inr ⟨u, hu, rfl⟩)

theorem nodup_allNodes : (graph.allNodes ++ [source]).Nodup := by
  have hpos : Function.Injective positive := fun u v h => (DoubledNode.node.inj h).1
  have hneg : Function.Injective negative := fun u v h => (DoubledNode.node.inj h).1
  refine nodup_append.mpr ⟨nodup_append.mpr ⟨nodup_range.map hpos, nodup_range.map hneg, ?_⟩, by simp, ?_⟩
  · intro v hv w hw
    obtain ⟨u, -, rfl⟩ := mem_map.mp hv
    obtain ⟨u', -, rfl⟩ := mem_map.mp hw
    exact fun h => absurd (DoubledNode.node.inj h).2 (by simp)
  · intro v hv w hw
    rw [mem_singleton.mp hw]
    rcases mem_append.mp hv with hv | hv
    · obtain ⟨u, -, rfl⟩ := mem_map.mp hv
      exact DoubledNode.noConfusion
    · obtain ⟨u, -, rfl⟩ := mem_map.mp hv
      exact DoubledNode.noConfusion

theorem length_allNodes : (graph.allNodes ++ [source]).length = 2 * graph.numVars + 1 := by
  simp [allNodes]
  omega

theorem Represents.ends (h : graph.Represents σ) {v : DoubledNode} (he : e ∈ graph.edges v) :
    e.src ∈ graph.allNodes ++ [source] ∧ e.dst ∈ graph.allNodes ++ [source] := by
  rw [mem_allNodes, mem_allNodes]
  obtain ⟨-, ⟨u, hu, b, rfl⟩ | ⟨i, hi, c, hc, he⟩⟩ := (h.edges v e).mp he
  · exact ⟨.inl rfl, .inr ⟨u, hu, b, rfl⟩⟩
  · have hranged := h.ranged c (h.mem_all.mpr ⟨i, mem_activeConstraints.mpr ⟨hi, hc⟩⟩)
    exact edgesOf_ends hranged he

theorem Represents.mem_allEdges (h : graph.Represents σ) (ho : order.Perm graph.nodes) :
    e ∈ graph.allEdges order ↔ e ∈ graph.edges e.src := by
  unfold allEdges
  rw [mem_flatMap]
  constructor
  · rintro ⟨v, -, he⟩
    rw [((h.edges v e).mp he).1]
    exact he
  · intro he
    refine ⟨e.src, ?_, he⟩
    rw [ho.mem_iff, h.nodes, ← mem_allNodes]
    exact (h.ends he).1

theorem Represents.spans (h : graph.Represents σ) (ho : order.Perm graph.nodes) :
    Spans (graph.allNodes ++ [source]) (graph.allEdges order) :=
  fun _ he => h.ends ((h.mem_allEdges ho).mp he)

end DoubledGraph

namespace UtvpiSolver

variable {solver : UtvpiSolver} {σ : Scopes UtConstraint} {order : List DoubledNode}

structure Searched (solver : UtvpiSolver) (order : List DoubledNode) (r : UtvpiSolver × Bool) : Prop where
  frame : r.1 = { solver with distances := r.1.distances }
  feasible : r.2 = true → Feasible (solver.graph.allEdges order) r.1.distances
  cycle : r.2 = false → ¬ Balanced (solver.graph.allEdges order)

theorem searched_bellmanFord (h : solver.graph.Represents σ) (ho : order.Perm solver.graph.nodes) :
    Searched solver order (solver.runBellmanFord order) := by
  have hlen := solver.graph.length_allNodes
  obtain ⟨hok, hno⟩ := bellmanFordPasses_spec (h.spans ho) (2 * solver.graph.numVars + 1) 0
    (Nat.succ_pos _) (by omega) (fun _ => 0) attained_self settled_zero
  exact ⟨rfl, hok, hno⟩

theorem searched_spfa (h : solver.graph.Represents σ) (ho : order.Perm solver.graph.nodes) :
    Searched solver order (solver.runSpfa order) := by
  let n := 2 * solver.graph.numVars + 1
  let start : Spfa := ⟨fun _ => 0, solver.graph.allNodes ++ [source], fun _ => true, fun _ => 1⟩
  have hcard : (solver.graph.allNodes ++ [source]).toFinset.card = n := by
    rw [toFinset_card_of_nodup DoubledGraph.nodup_allNodes, DoubledGraph.length_allNodes]
  have hstart : Spfa.Searching (solver.graph.allNodes ++ [source]).toFinset n
      (solver.graph.allEdges order) (n * n + 1) start := by
    refine ⟨fun v hv _ => mem_toFinset.mp hv, fun v _ => by simp [start, n], fun e he hnot => ?_, ?_⟩
    · exact absurd (h.ends ((h.mem_allEdges ho).mp he)).1 hnot
    · show n * n + 1 + (solver.graph.allNodes ++ [source]).length ≤ _
      rw [DoubledGraph.length_allNodes]
      simp only [start, Finset.sum_const, hcard, nsmul_eq_mul, mul_one, Nat.cast_id]
      rfl
  have hfeas := Spfa.search_feasible hcard.le (fun e => h.mem_allEdges ho)
    (fun v e he => ⟨((h.edges v e).mp he).1, mem_toFinset.mpr (h.ends he).2⟩) hstart
  unfold runSpfa
  dsimp only
  cases hr : Spfa.search solver.graph n (n * n + 1) start with
  | mk spfa fallback =>
    rw [hr] at hfeas
    cases fallback with
    | true => exact searched_bellmanFord h ho
    | false => exact ⟨rfl, fun _ => hfeas rfl, by simp⟩

end UtvpiSolver

end Nixie.Utvpi
