import Nixie.DiffLogic.Solver
import Nixie.Graph.Relax
import Mathlib.Algebra.Order.BigOperators.Group.Finset
import Mathlib.Algebra.BigOperators.Ring.Finset

/-!
Both searches decide whether the constraint graph has a negative cycle.
-/

namespace Nixie.DiffLogic

open Nixie.Graph List Function

instance : Arc DiffEdge ℕ ℚ := ⟨fun e => e.src.id, fun e => e.dst.id, DiffEdge.weight⟩

def ConstraintGraph.arcs (graph : ConstraintGraph) : List DiffEdge := graph.vars.flatMap graph.edges

structure ConstraintGraph.Listed (graph : ConstraintGraph) : Prop where
  anchors : ∀ e ∈ graph.edges .source, e.src = .source
  out : ∀ u, ∀ e ∈ graph.edges (.node u), e.src = .node u ∧ u < graph.numVars ∧
    ∃ v < graph.numVars, e.dst = .node v

variable {graph : ConstraintGraph}

namespace ConstraintGraph

theorem Listed.mem_arcs (h : graph.Listed) {e : DiffEdge} : e ∈ graph.arcs ↔ ∃ u, e ∈ graph.edges (.node u) := by
  simp only [arcs, vars, mem_flatMap, mem_map, mem_range]
  constructor
  · rintro ⟨_, ⟨u, -, rfl⟩, he⟩
    exact ⟨u, he⟩
  · rintro ⟨u, he⟩
    exact ⟨.node u, ⟨u, (h.out u e he).2.1, rfl⟩, he⟩

theorem Listed.not_isSource (h : graph.Listed) {e : DiffEdge} (he : e ∈ graph.arcs) : e.src.isSource = false := by
  obtain ⟨u, hu⟩ := h.mem_arcs.mp he
  rw [(h.out u e hu).1]
  rfl

theorem Listed.spans (h : graph.Listed) : Spans (List.range graph.numVars) graph.arcs := by
  intro e he
  obtain ⟨u, hu⟩ := h.mem_arcs.mp he
  obtain ⟨hsrc, hlt, v, hv, hdst⟩ := h.out u e hu
  constructor
  · show e.src.id ∈ _
    rw [hsrc]
    exact mem_range.mpr hlt
  · show e.dst.id ∈ _
    rw [hdst]
    exact mem_range.mpr hv

end ConstraintGraph

def value (d : Distances) : ℕ → ℚ := fun i => (d i).getD 0

def Covers (n : ℕ) (d : Distances) : Prop := ∀ i, (d i).isSome ↔ i < n

variable {n : ℕ} {d : Distances} {i : ℕ} {r : ℚ}

theorem value_of_some (h : d i = some r) : value d i = r := by
  simp [value, h]

theorem Covers.eq_some (h : Covers n d) (hi : i < n) : d i = some (value d i) := by
  obtain ⟨r, hr⟩ := Option.isSome_iff_exists.mp ((h i).mpr hi)
  rw [hr, value_of_some hr]

theorem Covers.update (h : Covers n d) (hi : i < n) : Covers n (update d i (some r)) := by
  intro j
  by_cases hj : j = i
  · subst hj
    simpa using hi
  · rw [update_of_ne hj]
    exact h j

theorem value_update : value (update d i (some r)) = update (value d) i r := by
  funext j
  by_cases hj : j = i
  · subst hj
    simp [value]
  · rw [update_of_ne hj]
    simp [value, update_of_ne hj]

theorem covers_zeros (n : ℕ) : Covers n (zeros n) := by
  intro i
  unfold zeros
  split
  · next hi => simp [hi]
  · next hi => simp [hi]

theorem value_zeros (n : ℕ) : value (zeros n) = fun _ => 0 := by
  funext i
  unfold value zeros
  split
  · rfl
  · rfl

def Decides (graph : ConstraintGraph) : BellmanFordResult → Prop
  | .distances d => Covers graph.numVars d ∧ Shortest graph.arcs (fun _ => 0) (value d)
  | .negativeCycle _ _ => ¬ Balanced graph.arcs

namespace BellmanFord

variable {bf : BellmanFord} {e : DiffEdge}

theorem relaxEdge_spec (h : graph.Listed) (he : e ∈ graph.arcs) (hc : Covers graph.numVars bf.distances) :
    Covers graph.numVars (bf.relaxEdge e).distances ∧ value (bf.relaxEdge e).distances = relax (value bf.distances) e ∧
    ((bf.relaxEdge e).changed = false → (bf.relaxEdge e).distances = bf.distances ∧ bf.changed = false ∧
    value bf.distances e.dst.id ≤ value bf.distances e.src.id + e.weight) := by
  obtain ⟨hsrc, hdst⟩ := h.spans e he
  have hsrc' : e.src.id < graph.numVars := mem_range.mp hsrc
  have hdst' : e.dst.id < graph.numVars := mem_range.mp hdst
  unfold relaxEdge relax
  simp only [h.not_isSource he, Bool.false_eq_true, ↓reduceIte, hc.eq_some hsrc', hc.eq_some hdst',
    improved, decide_eq_true_eq]
  by_cases hlt : value bf.distances e.src.id + e.weight < value bf.distances e.dst.id
  · rw [if_pos hlt]
    refine ⟨hc.update hdst', ?_, by simp⟩
    rw [value_update]
    exact (if_pos hlt).symm
  · rw [if_neg hlt]
    exact ⟨hc, (if_neg hlt).symm, fun hch => ⟨rfl, hch, not_lt.mp hlt⟩⟩

theorem foldl_relaxEdge (bf : BellmanFord) (h : graph.Listed) {l : List DiffEdge} (hl : l ⊆ graph.arcs)
    (hc : Covers graph.numVars bf.distances) : Covers graph.numVars (l.foldl relaxEdge bf).distances ∧
    value (l.foldl relaxEdge bf).distances = sweep l (value bf.distances) ∧
    ((l.foldl relaxEdge bf).changed = false → (l.foldl relaxEdge bf).distances = bf.distances ∧ bf.changed = false ∧
    Feasible l (value bf.distances)) := by
  induction l generalizing bf with
  | nil => exact ⟨hc, rfl, fun hch => ⟨rfl, hch, by simp [Feasible]⟩⟩
  | cons e l ih =>
    obtain ⟨he, hl'⟩ := cons_subset.mp hl
    obtain ⟨hc₁, hv₁, hch₁⟩ := relaxEdge_spec h he hc
    obtain ⟨hc₂, hv₂, hch₂⟩ := ih _ hl' hc₁
    refine ⟨hc₂, ?_, ?_⟩
    · rw [foldl_cons, hv₂, hv₁]
      rfl
    · intro hch
      obtain ⟨hd, hbf, hf⟩ := hch₂ hch
      obtain ⟨hd', hbf', hle⟩ := hch₁ hbf
      refine ⟨hd.trans hd', hbf', ?_⟩
      intro f hf'
      rcases mem_cons.mp hf' with rfl | hf'
      · exact hle
      · rw [hd'] at hf
        exact hf f hf'

theorem relaxEdge_anchor (he : e.src = .source) : bf.relaxEdge e = bf := by
  simp [relaxEdge, he, DiffVar.isSource]

theorem foldl_allEdges (h : graph.Listed) : graph.allEdges.foldl relaxEdge bf = graph.arcs.foldl relaxEdge bf := by
  have hanchors : ∀ l : List DiffEdge, (∀ e ∈ l, e.src = .source) → l.foldl relaxEdge bf = bf := by
    intro l
    induction l with
    | nil => intro _; rfl
    | cons e l ih =>
      intro hl
      rw [foldl_cons, relaxEdge_anchor (hl e (by simp))]
      exact ih fun e' he' => hl e' (by simp [he'])
  show (graph.edges .source ++ graph.arcs).foldl relaxEdge bf = _
  rw [foldl_append, hanchors _ h.anchors]

theorem passes_spec (bf : BellmanFord) (h : graph.Listed) (rounds k : ℕ) (hc : Covers graph.numVars bf.distances)
    (ha : Attained graph.arcs (fun _ => 0) (value bf.distances))
    (hs : Settled graph.arcs (fun _ => 0) k (value bf.distances)) :
    Covers graph.numVars (passes graph rounds bf).distances ∧
    Attained graph.arcs (fun _ => 0) (value (passes graph rounds bf).distances) ∧
    (∀ v, value (passes graph rounds bf).distances v ≤ 0) ∧
    (Feasible graph.arcs (value (passes graph rounds bf).distances) ∨
    Settled graph.arcs (fun _ => 0) (k + rounds) (value (passes graph rounds bf).distances)) := by
  induction rounds generalizing bf k with
  | zero => exact ⟨hc, ha, hs.start, .inr hs⟩
  | succ rounds ih =>
    have hsub := List.Subset.refl graph.arcs
    obtain ⟨hc', hv', hch'⟩ := foldl_relaxEdge { bf with changed := false } h hsub hc
    unfold passes
    simp only [foldl_allEdges h]
    split
    · have hrec := ih _ (k + 1) hc' (hv' ▸ ha.sweep hsub) (hv' ▸ hs.sweep hsub)
      rwa [Nat.add_right_comm] at hrec
    · next hch =>
      obtain ⟨hd, -, hf⟩ := hch' (by simpa using hch)
      refine ⟨hc', ?_, ?_, .inl ?_⟩
      · rw [hd]
        exact ha
      · rw [hd]
        exact hs.start
      · rw [hd]
        exact hf

theorem improves_iff (h : graph.Listed) (he : e ∈ graph.arcs) (hc : Covers graph.numVars bf.distances) :
    bf.improves e = true ↔ value bf.distances e.src.id + e.weight < value bf.distances e.dst.id := by
  obtain ⟨hsrc, hdst⟩ := h.spans e he
  have hs : bf.distances e.src.id = _ := hc.eq_some (mem_range.mp hsrc)
  have hd : bf.distances e.dst.id = _ := hc.eq_some (mem_range.mp hdst)
  simp [improves, hs, hd, h.not_isSource he]

theorem run_decides (h : graph.Listed) : Decides graph (run graph) := by
  obtain ⟨hc, ha, hstart, hs⟩ := passes_spec ⟨zeros graph.numVars, fun _ => none, false⟩ h
    (graph.numVars - 1) 0 (covers_zeros _) (by rw [value_zeros]; exact attained_self)
    (by rw [value_zeros]; exact settled_zero)
  unfold run
  dsimp only
  generalize passes graph (graph.numVars - 1) ⟨zeros graph.numVars, fun _ => none, false⟩ = bf at *
  split
  · next e hfind =>
    have hmem := mem_of_find?_eq_some hfind
    have himp := find?_some hfind
    have harc : e ∈ graph.arcs := by
      rcases mem_append.mp (show e ∈ graph.edges .source ++ graph.arcs from hmem) with he | he
      · simp [improves, h.anchors e he, DiffVar.isSource] at himp
      · exact he
    rw [improves_iff h harc hc] at himp
    show ¬ Balanced graph.arcs
    intro hb
    have hf : Feasible graph.arcs (value bf.distances) := by
      rcases hs with hf | hs
      · exact hf
      · refine hs.feasible ha hb h.spans ?_
        rw [length_range]
        omega
    exact not_le.mpr himp (hf e harc)
  · next hfind =>
    refine ⟨hc, ?_, ha, hstart⟩
    intro e he
    have hno : e ∈ graph.allEdges := mem_append_right _ he
    have := find?_eq_none.mp hfind e hno
    rw [improves_iff h he hc] at this
    exact not_lt.mp this

end BellmanFord

namespace Spfa

variable {spfa spfa' : Spfa} {ids new : List ℕ} {d₀ : ℕ → ℚ} {du : ℚ}

structure Queued (n : ℕ) (ids : List ℕ) (spfa : Spfa) : Prop where
  queue : spfa.queue = ids.map .node
  nodup : ids.Nodup
  flag : ∀ i, spfa.inQueue i = true ↔ i ∈ ids
  lt : ∀ i ∈ ids, i < n

def Walked (graph : ConstraintGraph) (d₀ : ℕ → ℚ) (v : ℕ) (w : ℚ) : Prop :=
  ∃ a p, p ⊆ graph.arcs ∧ IsWalk a p v ∧ w = d₀ a + weight p

structure Visited (graph : ConstraintGraph) (d₀ : ℕ → ℚ) (ids new : List ℕ) (spfa spfa' : Spfa) :
    Prop where
  queued : Queued graph.numVars (ids ++ new) spfa'
  covers : Covers graph.numVars spfa'.distances
  attained : Attained graph.arcs d₀ (value spfa'.distances)
  le : ∀ v, value spfa'.distances v ≤ value spfa.distances v
  changed : ∀ v, value spfa'.distances v ≠ value spfa.distances v → v ∈ ids ++ new
  count : ∀ v, spfa'.count v = spfa.count v + if v ∈ new then 1 else 0
  better : ∀ v ∈ new, ∃ w, Walked graph d₀ v w ∧ w < value spfa.distances v

theorem visited_refl (hq : Queued graph.numVars ids spfa) (hc : Covers graph.numVars spfa.distances)
    (hat : Attained graph.arcs d₀ (value spfa.distances)) : Visited graph d₀ ids [] spfa spfa :=
  ⟨by simpa using hq, hc, hat, fun v => le_refl _, fun v hv => absurd rfl hv, by simp, by simp⟩

theorem Visited.improve {t : ℕ} {w : ℚ} {mid : Spfa} (h : Visited graph d₀ ids new mid spfa')
    (hmid : mid.distances = update spfa.distances t (some w)) (hlt : w < value spfa.distances t)
    (hcount : mid.count = spfa.count) (ht : t ∈ ids ++ new) : Visited graph d₀ ids new spfa spfa' := by
  have hle : ∀ v, value mid.distances v ≤ value spfa.distances v := by
    intro v
    rw [hmid, value_update]
    by_cases hv : v = t
    · subst hv
      rw [update_self]
      exact hlt.le
    · rw [update_of_ne hv]
  refine ⟨h.queued, h.covers, h.attained, fun v => (h.le v).trans (hle v), ?_, ?_, ?_⟩
  · intro v hv
    by_cases hvt : v = t
    · exact hvt ▸ ht
    · apply h.changed v
      rwa [hmid, value_update, update_of_ne hvt]
  · intro v
    rw [h.count, hcount]
  · intro v hv
    obtain ⟨w', hw', hlt'⟩ := h.better v hv
    exact ⟨w', hw', hlt'.trans_le (hle v)⟩

theorem Visited.enqueue {t : ℕ} {w : ℚ} {mid : Spfa} (h : Visited graph d₀ (ids ++ [t]) new mid spfa')
    (hmid : mid.distances = update spfa.distances t (some w)) (hlt : w < value spfa.distances t)
    (hw : Walked graph d₀ t w) (hcount : mid.count = update spfa.count t (spfa.count t + 1)) :
    Visited graph d₀ ids (t :: new) spfa spfa' := by
  have hids : ids ++ [t] ++ new = ids ++ t :: new := by simp
  have hnodup : (ids ++ t :: new).Nodup := hids ▸ h.queued.nodup
  have htnew : t ∉ new := (nodup_cons.mp (nodup_append.mp hnodup).2.1).1
  have hle : ∀ v, value mid.distances v ≤ value spfa.distances v := by
    intro v
    rw [hmid, value_update]
    by_cases hv : v = t
    · subst hv
      rw [update_self]
      exact hlt.le
    · rw [update_of_ne hv]
  refine ⟨hids ▸ h.queued, h.covers, h.attained, fun v => (h.le v).trans (hle v), ?_, ?_, ?_⟩
  · intro v hv
    by_cases hvt : v = t
    · simp [hvt]
    · rw [← hids]
      apply h.changed v
      rwa [hmid, value_update, update_of_ne hvt]
  · intro v
    rw [h.count, hcount]
    by_cases hvt : v = t
    · subst hvt
      simp [htnew]
    · rw [update_of_ne hvt]
      simp [hvt]
  · intro v hv
    rcases mem_cons.mp hv with rfl | hv
    · exact ⟨w, hw, hlt⟩
    · obtain ⟨w', hw', hlt'⟩ := h.better v hv
      exact ⟨w', hw', hlt'.trans_le (hle v)⟩

theorem relaxEdges_spec (h : graph.Listed) {l : List DiffEdge} (hl : l ⊆ graph.arcs)
    (hq : Queued graph.numVars ids spfa) (hc : Covers graph.numVars spfa.distances)
    (hat : Attained graph.arcs d₀ (value spfa.distances)) (hu : ∀ e ∈ l, Walked graph d₀ e.dst.id (du + e.weight)) :
    ∃ new, Visited graph d₀ ids new spfa (relaxEdges graph.numVars du l spfa).1 ∧
    ((relaxEdges graph.numVars du l spfa).2 = none →
    (∀ e ∈ l, value (relaxEdges graph.numVars du l spfa).1.distances e.dst.id ≤ du + e.weight) ∧
    ∀ v ∈ new, (relaxEdges graph.numVars du l spfa).1.count v ≤ graph.numVars + 1) ∧
    ((relaxEdges graph.numVars du l spfa).2 ≠ none → ∃ v ∈ new,
    graph.numVars + 1 < (relaxEdges graph.numVars du l spfa).1.count v) := by
  induction l generalizing spfa ids with
  | nil => exact ⟨[], visited_refl hq hc hat, by simp [relaxEdges], by simp [relaxEdges]⟩
  | cons e l ih =>
    obtain ⟨he, hl'⟩ := cons_subset.mp hl
    have hu' : ∀ e ∈ l, Walked graph d₀ e.dst.id (du + e.weight) := fun f hf => hu f (by simp [hf])
    have hwalk := hu e (by simp)
    obtain ⟨v, hv, hdst⟩ : ∃ v < graph.numVars, e.dst = .node v := by
      obtain ⟨u, hu⟩ := h.mem_arcs.mp he
      exact (h.out u e hu).2.2
    have hid : e.dst.id = v := by rw [hdst]; rfl
    rw [hid] at hwalk
    rw [relaxEdges]
    simp only [h.not_isSource he, Bool.false_eq_true, ↓reduceIte, hid, hc.eq_some hv, improved,
      decide_eq_true_eq, forall_mem_cons]
    by_cases hlt : du + e.weight < value spfa.distances v
    · rw [if_pos hlt]
      have hcov := hc.update (r := du + e.weight) hv
      have hatt := hat.update hwalk
      rw [← value_update] at hatt
      cases hflag : spfa.inQueue v with
      | true =>
        have hmem := (hq.flag v).mp hflag
        simp only [Bool.not_true, Bool.false_eq_true, ↓reduceIte]
        have hqm : Queued graph.numVars ids { spfa with
            distances := update spfa.distances v (some (du + e.weight))
            parentEdge := update spfa.parentEdge v (some e.constraintIdx) } :=
          ⟨hq.queue, hq.nodup, hq.flag, hq.lt⟩
        obtain ⟨new, hvis, hnone, hsome⟩ := ih hl' hqm hcov hatt hu'
        refine ⟨new, hvis.improve rfl hlt rfl (mem_append_left _ hmem), ?_, hsome⟩
        intro hr
        obtain ⟨hall, hcnt⟩ := hnone hr
        refine ⟨⟨(hvis.le v).trans ?_, hall⟩, hcnt⟩
        rw [value_update, update_self]
      | false =>
        have hmem : v ∉ ids := fun hm => by simp [(hq.flag v).mpr hm] at hflag
        have hq' : ∀ mid : Spfa, mid.queue = spfa.queue ++ [e.dst] →
            mid.inQueue = update spfa.inQueue v true →
            Queued graph.numVars (ids ++ [v]) mid := by
          intro mid hmq hmf
          refine ⟨?_, ?_, ?_, ?_⟩
          · rw [hmq, hq.queue, hdst]
            simp
          · exact nodup_append.mpr ⟨hq.nodup, by simp, by
              rintro a ha b hb rfl
              exact hmem (mem_singleton.mp hb ▸ ha)⟩
          · intro i
            rw [hmf]
            by_cases hi : i = v
            · simp [hi]
            · rw [update_of_ne hi, hq.flag i]
              simp [hi]
          · intro i hi
            rcases mem_append.mp hi with hi | hi
            · exact hq.lt i hi
            · exact mem_singleton.mp hi ▸ hv
        simp only [Bool.not_false, ↓reduceIte]
        split
        · next hcnt =>
          refine ⟨[v], (visited_refl (hq' _ rfl rfl) hcov hatt).enqueue rfl hlt hwalk rfl, by simp, ?_⟩
          intro _
          exact ⟨v, by simp, hcnt⟩
        · next hcnt =>
          have hqm : Queued graph.numVars (ids ++ [v]) { spfa with
              distances := update spfa.distances v (some (du + e.weight))
              parentEdge := update spfa.parentEdge v (some e.constraintIdx)
              queue := spfa.queue ++ [e.dst]
              inQueue := update spfa.inQueue v true
              count := update spfa.count v (spfa.count v + 1) } := hq' _ rfl rfl
          obtain ⟨new, hvis, hnone, hsome⟩ := ih hl' hqm hcov hatt hu'
          have hvnew : v ∉ new := by
            have := hvis.queued.nodup
            rw [append_assoc] at this
            exact (nodup_cons.mp (nodup_append.mp this).2.1).1
          refine ⟨v :: new, hvis.enqueue rfl hlt hwalk rfl, ?_, ?_⟩
          · intro hr
            obtain ⟨hall, hcnt'⟩ := hnone hr
            refine ⟨⟨(hvis.le v).trans ?_, hall⟩, forall_mem_cons.mpr ⟨?_, hcnt'⟩⟩
            · rw [value_update, update_self]
            · rw [hvis.count]
              simp only [hvnew, ↓reduceIte, add_zero]
              exact not_lt.mp hcnt
          · intro hr
            obtain ⟨u, hu, hlt'⟩ := hsome hr
            exact ⟨u, by simp [hu], hlt'⟩
    · rw [if_neg hlt]
      obtain ⟨new, hvis, hnone, hsome⟩ := ih hl' hq hc hat hu'
      refine ⟨new, hvis, ?_, hsome⟩
      intro hr
      obtain ⟨hall, hcnt⟩ := hnone hr
      exact ⟨⟨(hvis.le v).trans (not_lt.mp hlt), hall⟩, hcnt⟩

/-- The search between two visits. A node has been queued once for each generation so far, and the
fuel covers the visits that are left. -/
structure Searching (graph : ConstraintGraph) (d₀ : ℕ → ℚ) (fuel k : ℕ) (now next : List ℕ)
    (spfa : Spfa) : Prop where
  queued : Queued graph.numVars (now ++ next) spfa
  covers : Covers graph.numVars spfa.distances
  generation : Generation graph.arcs d₀ k now next (value spfa.distances)
  count : ∀ v, spfa.count v ≤ k + 1 + if v ∈ next then 1 else 0
  cap : ∀ v, spfa.count v ≤ graph.numVars + 1
  fuel : graph.numVars * (graph.numVars + 1) + 1 + (now ++ next).length ≤
    fuel + ∑ i ∈ Finset.range graph.numVars, spfa.count i

variable {fuel k : ℕ} {now next : List ℕ}

theorem Searching.fuel_pos (h : Searching graph d₀ fuel k now next spfa) : 0 < fuel := by
  have hsum : ∑ i ∈ Finset.range graph.numVars, spfa.count i ≤
      graph.numVars * (graph.numVars + 1) := by
    calc ∑ i ∈ Finset.range graph.numVars, spfa.count i ≤
        (Finset.range graph.numVars).card • (graph.numVars + 1) :=
          Finset.sum_le_card_nsmul _ _ _ fun i _ => h.cap i
      _ = graph.numVars * (graph.numVars + 1) := by rw [Finset.card_range, nsmul_eq_mul, Nat.cast_id]
  have := h.fuel
  omega

theorem Searching.front {u : ℕ} {rest : List ℕ} (h : Searching graph d₀ fuel k now next spfa)
    (hq : now ++ next = u :: rest) : ∃ k now' next', rest = now' ++ next' ∧
    Searching graph d₀ fuel k (u :: now') next' spfa := by
  cases now with
  | cons v now =>
    obtain ⟨rfl, rfl⟩ := List.cons.inj hq
    exact ⟨k, now, next, rfl, h⟩
  | nil =>
    obtain rfl : next = u :: rest := hq
    refine ⟨k + 1, rest, [], by simp, ?_⟩
    refine ⟨by simpa using h.queued, h.covers, h.generation.turn, fun v => ?_, h.cap, by simpa using h.fuel⟩
    have hc := h.count v
    simp only [not_mem_nil, ↓reduceIte]
    split at hc
    · exact hc
    · omega

theorem sum_count (h : Visited graph d₀ ids new spfa spfa') :
    ∑ i ∈ Finset.range graph.numVars, spfa'.count i = ∑ i ∈ Finset.range graph.numVars, spfa.count i + new.length := by
  have hnodup : new.Nodup := (nodup_append.mp h.queued.nodup).2.1
  have hfilter : {i ∈ Finset.range graph.numVars | i ∈ new} = new.toFinset := by
    ext i
    simp only [Finset.mem_filter, Finset.mem_range, mem_toFinset, and_iff_right_iff_imp]
    exact fun hi => h.queued.lt i (mem_append_right _ hi)
  calc ∑ i ∈ Finset.range graph.numVars, spfa'.count i =
      ∑ i ∈ Finset.range graph.numVars, (spfa.count i + if i ∈ new then 1 else 0) :=
        Finset.sum_congr rfl fun i _ => h.count i
    _ = ∑ i ∈ Finset.range graph.numVars, spfa.count i + new.length := by
      rw [Finset.sum_add_distrib, Finset.sum_boole, hfilter, toFinset_card_of_nodup hnodup]
      rfl

theorem Searching.count_le (h : Searching graph d₀ fuel k now next spfa) (hg : graph.Listed) (hb : Balanced graph.arcs)
    {v : ℕ} (hv : v ∉ next) (hw : ∃ w, Walked graph d₀ v w ∧ w < value spfa.distances v) :
    spfa.count v + 1 ≤ graph.numVars := by
  obtain ⟨w, ⟨a, p, hp, hpw, rfl⟩, hlt⟩ := hw
  have hk : k + 1 < graph.numVars := by
    by_contra hge
    have := h.generation.settled.le_weight hb hg.spans (by rw [length_range]; omega) hp hpw
    exact absurd hlt (not_lt.mpr this)
  have hc := h.count v
  rw [if_neg hv] at hc
  omega

theorem Searching.visit {u : ℕ} {rest : List ℕ} (hg : graph.Listed)
    (h : Searching graph d₀ (fuel + 1) k now next spfa) (hq : now ++ next = u :: rest) :
    ∃ k now next new spfa' r, rest = now ++ next ∧ Searching graph d₀ (fuel + 1) k (u :: now) next spfa ∧
      loop graph (fuel + 1) spfa =
        (match (spfa', r) with
          | (spfa', some v) => (spfa', some v)
          | (spfa', none) => loop graph fuel spfa') ∧
      relaxEdges graph.numVars (value spfa.distances u) (graph.edges (.node u))
        { spfa with queue := rest.map .node, inQueue := update spfa.inQueue u false } = (spfa', r) ∧
      Visited graph d₀ rest new spfa spfa' ∧ (∀ v ∈ new, v ∉ next) ∧
      (r = none → Searching graph d₀ fuel k now (next ++ new) spfa') ∧
      (r ≠ none → ∃ v ∈ new, graph.numVars + 1 < spfa'.count v) := by
  have hqueue : spfa.queue = (u :: rest).map .node := hq ▸ h.queued.queue
  obtain ⟨k, now', next', rfl, h⟩ := h.front hq
  have hu : u < graph.numVars := h.queued.lt u (by simp)
  obtain ⟨hunot, hnodup⟩ := nodup_cons.mp h.queued.nodup
  have hsome : spfa.distances u = some (value spfa.distances u) := h.covers.eq_some hu
  have hqueued : Queued graph.numVars (now' ++ next') { spfa with
      queue := (now' ++ next').map .node
      inQueue := update spfa.inQueue u false } := by
    refine ⟨rfl, hnodup, fun i => ?_, fun i hi => h.queued.lt i (by simp [hi])⟩
    by_cases hi : i = u
    · subst hi
      simpa using hunot
    · show update spfa.inQueue u false i = true ↔ i ∈ now' ++ next'
      rw [update_of_ne hi, h.queued.flag i]
      simp [hi]
  have hedges : graph.edges (.node u) ⊆ graph.arcs := fun e he => hg.mem_arcs.mpr ⟨u, he⟩
  have hsrc : ∀ e ∈ graph.edges (.node u), e.src.id = u := by
    intro e he
    rw [(hg.out u e he).1]
    rfl
  have hwalked : ∀ e ∈ graph.edges (.node u),
      Walked graph d₀ e.dst.id (value spfa.distances u + e.weight) := by
    intro e he
    have := h.generation.attained.arc (hedges he)
    rwa [show Arc.src e = u from hsrc e he] at this
  obtain ⟨new, hvis, hnone, hcycle⟩ :=
    relaxEdges_spec hg hedges hqueued h.covers h.generation.attained hwalked
  cases hr : relaxEdges graph.numVars (value spfa.distances u) (graph.edges (.node u))
      { spfa with
        queue := (now' ++ next').map .node
        inQueue := update spfa.inQueue u false } with
  | mk spfa' r =>
    rw [hr] at hvis hnone hcycle
    dsimp only at hvis hnone hcycle
    have hvis' : Visited graph d₀ (now' ++ next') new spfa spfa' :=
      ⟨hvis.queued, hvis.covers, hvis.attained, hvis.le, hvis.changed, hvis.count, hvis.better⟩
    have hnot : ∀ v ∈ new, v ∉ next' := by
      intro v hv hn
      have := hvis.queued.nodup
      rw [append_assoc] at this
      have := (nodup_append.mp (nodup_append.mp this).2.1).2.2
      exact this v hn v hv rfl
    refine ⟨k, now', next', new, spfa', r, rfl, h, ?_, rfl, hvis', hnot, ?_, hcycle⟩
    · have hid : (DiffVar.node u).id = u := rfl
      rw [loop, hqueue]
      simp only [map_cons, hid, hsome]
      rw [← hr]
      rfl
    intro hnone'
    obtain ⟨hall, hcap⟩ := hnone hnone'
    refine ⟨?_, hvis.covers, ?_, ?_, ?_, ?_⟩
    · rw [← append_assoc]
      exact hvis.queued
    · refine h.generation.visit hvis.le hvis.attained ?_ ?_ (subset_append_left _ _)
      · intro e he heu
        obtain ⟨u', hu'⟩ := hg.mem_arcs.mp he
        obtain rfl : u' = u := by
          rw [← heu]
          show u' = e.src.id
          rw [(hg.out u' e hu').1]
          rfl
        exact hall e hu'
      · intro v hv
        rw [← append_assoc]
        exact hvis.changed v hv
    · intro v
      have hc := h.count v
      rw [hvis'.count v]
      by_cases hv : v ∈ new
      · rw [if_neg (hnot v hv)] at hc
        simp only [hv, mem_append, or_true, ↓reduceIte]
        omega
      · simp only [hv, mem_append, or_false, ↓reduceIte, add_zero]
        exact hc
    · intro v
      by_cases hv : v ∈ new
      · exact hcap v hv
      · rw [hvis'.count v, if_neg hv]
        exact h.cap v
    · have hfuel := h.fuel
      rw [sum_count hvis']
      simp only [length_append, length_cons, cons_append] at hfuel ⊢
      omega

theorem loop_spec (hg : graph.Listed) (h : Searching graph d₀ fuel k now next spfa) :
    ((loop graph fuel spfa).2 = none → Covers graph.numVars (loop graph fuel spfa).1.distances ∧
    Shortest graph.arcs d₀ (value (loop graph fuel spfa).1.distances)) ∧
    ((loop graph fuel spfa).2 ≠ none → ¬ Balanced graph.arcs) := by
  induction fuel generalizing k now next spfa with
  | zero => exact absurd h.fuel_pos (lt_irrefl 0)
  | succ fuel ih =>
    cases hq : now ++ next with
    | nil =>
      rw [loop, h.queued.queue, hq]
      obtain ⟨rfl, rfl⟩ := append_eq_nil_iff.mp hq
      simp only [map_nil, ne_eq, not_true_eq_false, IsEmpty.forall_iff, and_true, forall_const]
      exact ⟨h.covers, h.generation.feasible, h.generation.attained, h.generation.settled.start⟩
    | cons u rest =>
      obtain ⟨k, now', next', new, spfa', r, -, h, hloop, -, hvis, hnot, hnone, hcycle⟩ := h.visit hg hq
      rw [hloop]
      cases r with
      | some w =>
        simp only [reduceCtorEq, IsEmpty.forall_iff, ne_eq, not_false_eq_true, forall_const, true_and]
        intro hb
        obtain ⟨v, hv, hlt⟩ := hcycle (by simp)
        have hle := h.count_le hg hb (hnot v hv) (hvis.better v hv)
        have hcount := hvis.count v
        rw [if_pos hv] at hcount
        omega
      | none => exact ih (hnone rfl)

theorem searching_start (hq : Queued graph.numVars ids spfa) (hc : Covers graph.numVars spfa.distances)
    (hcount : ∀ v, spfa.count v = if v ∈ ids then 1 else 0)
    (harcs : ∀ e ∈ graph.arcs, e.src.id ∉ ids →
      value spfa.distances e.dst.id ≤ value spfa.distances e.src.id + e.weight) :
    Searching graph (value spfa.distances) (graph.numVars * (graph.numVars + 1) + 1) 0 ids [] spfa := by
  have hsum : ids.length = ∑ i ∈ Finset.range graph.numVars, spfa.count i := by
    have hfilter : {i ∈ Finset.range graph.numVars | i ∈ ids} = ids.toFinset := by
      ext i
      simp only [Finset.mem_filter, Finset.mem_range, mem_toFinset, and_iff_right_iff_imp]
      exact hq.lt i
    rw [Finset.sum_congr rfl fun i _ => hcount i, Finset.sum_boole, hfilter, toFinset_card_of_nodup hq.nodup]
    rfl
  refine ⟨by simpa using hq, hc, generation_start harcs, fun v => ?_, fun v => ?_, ?_⟩
  · rw [hcount]
    split
    · simp
    · simp
  · rw [hcount]
    split
    · omega
    · omega
  · rw [append_nil, ← hsum]

theorem spfaLoop_spec (hg : graph.Listed) (hq : Queued graph.numVars ids spfa)
    (hc : Covers graph.numVars spfa.distances)
    (hcount : ∀ v, spfa.count v = if v ∈ ids then 1 else 0)
    (harcs : ∀ e ∈ graph.arcs, e.src.id ∉ ids →
      value spfa.distances e.dst.id ≤ value spfa.distances e.src.id + e.weight) :
    ((spfaLoop graph spfa).2 = none → Covers graph.numVars (spfaLoop graph spfa).1.distances ∧
      Shortest graph.arcs (value spfa.distances) (value (spfaLoop graph spfa).1.distances)) ∧
    ((spfaLoop graph spfa).2 ≠ none → ¬ Balanced graph.arcs) :=
  loop_spec hg (searching_start hq hc hcount harcs)

theorem run_decides (hg : graph.Listed) : Decides graph (run graph) := by
  let start : Spfa := ⟨zeros graph.numVars, fun _ => none, fun i => i < graph.numVars,
    fun i => if i < graph.numVars then 1 else 0, graph.vars⟩
  have hq : Queued graph.numVars (List.range graph.numVars) start :=
    ⟨rfl, nodup_range, fun i => by simp [start], fun i hi => mem_range.mp hi⟩
  obtain ⟨hnone, hsome⟩ := spfaLoop_spec hg hq (covers_zeros _) (fun v => by simp [start])
    (fun e he hsrc => absurd (hg.spans e he).1 hsrc)
  unfold run
  dsimp only
  cases hr : spfaLoop graph start with
  | mk spfa r =>
    rw [hr] at hnone hsome
    cases r with
    | some v => exact hsome (by simp)
    | none =>
      obtain ⟨hc, hs⟩ := hnone rfl
      refine ⟨hc, ?_⟩
      rw [← value_zeros graph.numVars]
      exact hs

theorem seedFrom_spec (hg : graph.Listed) {u : ℕ} (hu : u < graph.numVars) (hc : Covers graph.numVars d)
    (harcs : ∀ e ∈ graph.arcs, e.src.id ≠ u → value d e.dst.id ≤ value d e.src.id + e.weight) :
    ((seedFrom graph d (.node u)).2 = false → Covers graph.numVars (seedFrom graph d (.node u)).1 ∧
    Feasible graph.arcs (value (seedFrom graph d (.node u)).1)) ∧
    ((seedFrom graph d (.node u)).2 = true → ¬ Balanced graph.arcs) := by
  let start : Spfa := ⟨d, fun _ => none, fun i => i = u, fun i => if i = u then 1 else 0, [.node u]⟩
  have hq : Queued graph.numVars [u] start :=
    ⟨rfl, by simp, fun i => by simp [start], fun i hi => mem_singleton.mp hi ▸ hu⟩
  obtain ⟨hnone, hsome⟩ := spfaLoop_spec hg hq hc (fun v => by simp [start])
    (fun e he hsrc => harcs e he (by simpa using hsrc))
  have hseed : seedFrom graph d (.node u) =
      ((spfaLoop graph start).1.distances, (spfaLoop graph start).2.isSome) := by
    have hid : (DiffVar.node u).id = u := rfl
    unfold seedFrom
    simp only [DiffVar.isSource, Bool.false_or, hid, not_le.mpr hu, decide_false, Bool.false_eq_true,
      ↓reduceIte, hc.eq_some hu]
    rfl
  rw [hseed]
  constructor
  · intro hr
    obtain ⟨hc', hs⟩ := hnone (by simpa using hr)
    exact ⟨hc', hs.feasible⟩
  · intro hr
    exact hsome (Option.isSome_iff_ne_none.mp hr)

end Spfa

end Nixie.DiffLogic
