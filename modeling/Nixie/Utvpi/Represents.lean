import Nixie.Utvpi.Solver
import Nixie.Scopes

/-!
The doubled graph holds the edges of the constraints of the open scopes, those from the source to
every node, and no others.
-/

namespace Nixie.Utvpi

open List Nat

def UtConstraint.Ranged (c : UtConstraint) (numVars : ℕ) : Prop :=
  (c.a ≠ .zero → c.x < numVars) ∧ (c.b ≠ .zero → c.y < numVars)

theorem UtConstraint.Ranged.mono {c : UtConstraint} {n m : ℕ} (h : c.Ranged n) (hle : n ≤ m) : c.Ranged m :=
  ⟨fun ha => (h.1 ha).trans_le hle, fun hb => (h.2 hb).trans_le hle⟩

namespace DoubledGraph

variable {graph : DoubledGraph} {σ : Scopes UtConstraint} {c : UtConstraint} {e : UtEdge}
  {v s d : DoubledNode} {w : BigDeltaRational} {k : Option ℕ}

theorem mem_edges_addEdge : e ∈ (graph.addEdge s d w k).edges v ↔ e ∈ graph.edges v ∨ (v = s ∧ e = ⟨s, d, w, k⟩) := by
  unfold addEdge
  by_cases hv : v = s
  · subst hv
    simp
  · simp [hv]

theorem mem_nodes_addNode : v ∈ (graph.addNode s).nodes ↔ v ∈ graph.nodes ∨ v = s := by
  unfold addNode
  dsimp only
  split
  · next hs =>
    constructor
    · exact .inl
    · rintro (hv | rfl)
      · exact hv
      · exact hs
  · simp

theorem mem_nodes_addEdge : v ∈ (graph.addEdge s d w k).nodes ↔ v ∈ graph.nodes ∨ v = s := mem_nodes_addNode

def edgesOf (isInteger : Bool) (i : ℕ) (c : UtConstraint) : List UtEdge :=
  (translate c (c.effectiveBound isInteger)).map fun (s, d, w) => ⟨s, d, w, some i⟩

structure Added (graph graph' : DoubledGraph) (E : List UtEdge) : Prop where
  edges : ∀ v e, e ∈ graph'.edges v ↔ e ∈ graph.edges v ∨ (e.src = v ∧ e ∈ E)
  nodes : ∀ v, v ∈ graph'.nodes ↔ v ∈ graph.nodes ∨ ∃ e ∈ E, v = e.src
  rest : graph' = { graph with nodes := graph'.nodes, edges := graph'.edges }

theorem added_foldl (idx : ℕ) (l : List (DoubledNode × DoubledNode × BigDeltaRational)) (graph : DoubledGraph) :
    Added graph (l.foldl (fun graph (s, d, w) => graph.addEdge s d w (some idx)) graph)
    (l.map fun (s, d, w) => ⟨s, d, w, some idx⟩) := by
  induction l generalizing graph with
  | nil => exact ⟨by simp, by simp, rfl⟩
  | cons p l ih =>
    obtain ⟨s, d, w⟩ := p
    obtain ⟨hedges, hnodes, hrest⟩ := ih (graph.addEdge s d w (some idx))
    refine ⟨fun v e => ?_, fun v => ?_, ?_⟩
    · rw [foldl_cons, hedges, mem_edges_addEdge, map_cons, mem_cons]
      constructor
      · rintro ((he | ⟨rfl, rfl⟩) | ⟨hsrc, he⟩)
        · exact .inl he
        · exact .inr ⟨rfl, .inl rfl⟩
        · exact .inr ⟨hsrc, .inr he⟩
      · rintro (he | ⟨rfl, rfl | he⟩)
        · exact .inl (.inl he)
        · exact .inl (.inr ⟨rfl, rfl⟩)
        · exact .inr ⟨rfl, he⟩
    · rw [foldl_cons, hnodes, mem_nodes_addEdge, map_cons]
      simp only [mem_cons, exists_eq_or_imp]
      tauto
    · rw [foldl_cons, hrest]
      rfl

def Anchor (graph : DoubledGraph) (e : UtEdge) : Prop :=
  ∃ u < graph.numVars, ∃ b, e = ⟨.source, .node u b, 0, none⟩

def Active (graph : DoubledGraph) (e : UtEdge) : Prop :=
  ∃ i ∈ graph.activeByLevel.flatten, ∃ c, graph.constraints[i]? = some c ∧
    e ∈ edgesOf graph.isInteger i c

structure Represents (graph : DoubledGraph) (σ : Scopes UtConstraint) : Prop where
  levels : List.Forall₂ (List.Forall₂ fun i c => graph.constraints[i]? = some c)
    graph.activeByLevel σ.levels
  level : graph.activeByLevel.length = graph.currentLevel + 1
  nodup : graph.activeByLevel.flatten.Nodup
  edges : ∀ v e, e ∈ graph.edges v ↔ e.src = v ∧ (graph.Anchor e ∨ graph.Active e)
  nodes : ∀ v, v ∈ graph.nodes ↔ v = .source ∨ ∃ u < graph.numVars, ∃ b, v = .node u b
  ranged : ∀ c ∈ σ.all, c.Ranged graph.numVars

theorem represents_nil (isInteger : Bool) : Represents { isInteger := isInteger } {} :=
  ⟨.cons .nil .nil, rfl, by simp, fun v e => by simp [Anchor, Active], by simp,
    by simp [Scopes.all, Scopes.levels]⟩

theorem Represents.indices (h : graph.Represents σ) :
    List.Forall₂ (fun i c => graph.constraints[i]? = some c) graph.activeByLevel.flatten σ.all :=
  rel_flatten h.levels

theorem Represents.lt_length (h : graph.Represents σ) {i : ℕ} (hi : i ∈ graph.activeByLevel.flatten) :
    i < graph.constraints.length := by
  obtain ⟨hlen, hget⟩ := forall₂_iff_get.mp h.indices
  obtain ⟨j, hj, rfl⟩ := mem_iff_getElem.mp hi
  have hsome := hget j hj (hlen ▸ hj)
  exact (List.getElem?_eq_some_iff.mp hsome).1

theorem mem_activeConstraints {i : ℕ} : (i, c) ∈ graph.activeConstraints ↔
    i ∈ graph.activeByLevel.flatten ∧ graph.constraints[i]? = some c := by
  unfold activeConstraints
  rw [mem_filterMap]
  constructor
  · rintro ⟨j, hj, hsome⟩
    obtain ⟨c', hc', heq⟩ := Option.map_eq_some_iff.mp hsome
    obtain ⟨rfl, rfl⟩ := Prod.mk.inj heq
    exact ⟨hj, hc'⟩
  · rintro ⟨hi, hc⟩
    exact ⟨i, hi, by rw [hc]; rfl⟩

theorem Represents.mem_all (h : graph.Represents σ) : c ∈ σ.all ↔ ∃ i, (i, c) ∈ graph.activeConstraints := by
  obtain ⟨hlen, hget⟩ := forall₂_iff_get.mp h.indices
  constructor
  · intro hc
    obtain ⟨j, hj, rfl⟩ := mem_iff_getElem.mp hc
    exact ⟨_, mem_activeConstraints.mpr ⟨getElem_mem _, hget j (hlen ▸ hj) hj⟩⟩
  · rintro ⟨i, hi⟩
    obtain ⟨hi, hc⟩ := mem_activeConstraints.mp hi
    obtain ⟨j, hj, rfl⟩ := mem_iff_getElem.mp hi
    have hsome : graph.constraints[graph.activeByLevel.flatten[j]]? = _ := hget j hj (hlen ▸ hj)
    rw [hsome] at hc
    obtain rfl := Option.some.inj hc
    exact getElem_mem _

theorem Represents.getOrCreateVar (h : graph.Represents σ) (term : ℕ) : (graph.getOrCreateVar term).1.Represents σ := by
  unfold DoubledGraph.getOrCreateVar
  cases graph.termToVar term with
  | some var => exact h
  | none =>
    refine ⟨h.levels, h.level, h.nodup, fun v e => ?_, fun v => ?_, fun c hc => ?_⟩
    · rw [mem_edges_addEdge, mem_edges_addEdge]
      show (e ∈ graph.edges v ∨ _) ∨ _ ↔ e.src = v ∧ ((∃ u < graph.numVars + 1, _) ∨ graph.Active e)
      rw [h.edges]
      constructor
      · rintro ((⟨hsrc, ⟨u, hu, b, rfl⟩ | hact⟩ | ⟨rfl, rfl⟩) | ⟨rfl, rfl⟩)
        · exact ⟨hsrc, .inl ⟨u, hu.trans (lt_succ_self _), b, rfl⟩⟩
        · exact ⟨hsrc, .inr hact⟩
        · exact ⟨rfl, .inl ⟨_, lt_succ_self _, true, rfl⟩⟩
        · exact ⟨rfl, .inl ⟨_, lt_succ_self _, false, rfl⟩⟩
      · rintro ⟨rfl, ⟨u, hu, b, rfl⟩ | hact⟩
        · rcases Nat.lt_succ_iff_lt_or_eq.mp hu with hu | rfl
          · exact .inl (.inl ⟨rfl, .inl ⟨u, hu, b, rfl⟩⟩)
          · cases b with
            | true => exact .inl (.inr ⟨rfl, rfl⟩)
            | false => exact .inr ⟨rfl, rfl⟩
        · exact .inl (.inl ⟨rfl, .inr hact⟩)
    · rw [mem_nodes_addEdge, mem_nodes_addEdge, mem_nodes_addNode, mem_nodes_addNode]
      show (((v ∈ graph.nodes ∨ _) ∨ _) ∨ _) ∨ _ ↔ v = .source ∨ ∃ u < graph.numVars + 1, _
      rw [h.nodes]
      constructor
      · rintro (((((rfl | ⟨u, hu, b, rfl⟩) | rfl) | rfl) | rfl) | rfl)
        · exact .inl rfl
        · exact .inr ⟨u, hu.trans (lt_succ_self _), b, rfl⟩
        · exact .inr ⟨_, lt_succ_self _, true, rfl⟩
        · exact .inr ⟨_, lt_succ_self _, false, rfl⟩
        · exact .inl rfl
        · exact .inl rfl
      · rintro (rfl | ⟨u, hu, b, rfl⟩)
        · exact .inr rfl
        · rcases Nat.lt_succ_iff_lt_or_eq.mp hu with hu | rfl
          · exact .inl (.inl (.inl (.inl (.inr ⟨u, hu, b, rfl⟩))))
          · cases b with
            | true => exact .inl (.inl (.inl (.inr rfl)))
            | false => exact .inl (.inl (.inr rfl))
    · exact (h.ranged c hc).mono (le_succ _)

theorem edgesOf_ends {n i : ℕ} {isInteger : Bool} (hc : c.Ranged n) (he : e ∈ edgesOf isInteger i c) :
    (e.src = .source ∨ ∃ u < n, ∃ b, e.src = .node u b) ∧ (e.dst = .source ∨ ∃ u < n, ∃ b, e.dst = .node u b) := by
  unfold edgesOf translate at he
  obtain ⟨hx, hy⟩ := hc
  cases ha : c.a <;> cases hb : c.b <;>
    simp only [ha, hb, map_cons, map_nil, mem_cons, not_mem_nil, or_false, ne_eq,
      reduceCtorEq, not_false_eq_true, forall_const, not_true_eq_false] at he hx hy
  all_goals obtain rfl | rfl := he
  all_goals simp [DoubledNode.positive, DoubledNode.negative, *]

theorem Represents.last_level (h : graph.Represents σ) : ∃ below last, graph.activeByLevel = below ++ [last] ∧
    below.length = graph.currentLevel ∧ List.Forall₂ (List.Forall₂ fun i c => graph.constraints[i]? =
    some c) below σ.outer.reverse ∧ List.Forall₂ (fun i c => graph.constraints[i]? = some c) last σ.current := by
  have hlevels := h.levels
  unfold Scopes.levels at hlevels
  rw [reverse_cons] at hlevels
  have hbelow := forall₂_take_append _ _ _ hlevels
  have htail := forall₂_drop_append _ _ _ hlevels
  have heq := (take_append_drop σ.outer.reverse.length graph.activeByLevel).symm
  generalize graph.activeByLevel.take σ.outer.reverse.length = below at hbelow heq
  generalize graph.activeByLevel.drop σ.outer.reverse.length = tail at htail heq
  obtain ⟨last, rest, hlast, hrest, rfl⟩ := forall₂_cons_right_iff.mp htail
  obtain rfl := forall₂_nil_right_iff.mp hrest
  have hlen := h.level
  rw [heq, length_append, length_singleton] at hlen
  exact ⟨below, last, heq, Nat.succ.inj hlen, hbelow, hlast⟩

theorem Represents.addConstraint (h : graph.Represents σ) (hc : c.Ranged graph.numVars) :
    (graph.addConstraint c).1.Represents (σ.add c) := by
  obtain ⟨hedges, hnodes, hrest⟩ :=
    added_foldl graph.constraints.length (translate c (c.effectiveBound graph.isInteger)) graph
  obtain ⟨below, last, hactive, hlen, hbelow, hlast⟩ := h.last_level
  -- nothing but the edges and the keys changes before the constraint is recorded
  obtain ⟨nodes, edges, hgraph⟩ : ∃ nodes edges,
      (translate c (c.effectiveBound graph.isInteger)).foldl
        (fun g (s, d, w) => g.addEdge s d w (some graph.constraints.length)) graph =
      { graph with nodes := nodes, edges := edges } := ⟨_, _, hrest⟩
  have hadd : (graph.addConstraint c).1 = { graph with
      nodes := nodes
      edges := edges
      activeByLevel := below ++ [last ++ [graph.constraints.length]]
      constraints := graph.constraints ++ [c] } := by
    unfold DoubledGraph.addConstraint
    dsimp only
    rw [hgraph]
    dsimp only
    rw [h.level, Nat.sub_self, replicate_zero, append_nil, hactive, ← hlen]
    congr 1
    rw [modify_eq_take_cons_drop (by simp)]
    simp
  rw [hgraph] at hedges hnodes
  have hkeep : ∀ (i : ℕ) c', graph.constraints[i]? = some c' → (graph.constraints ++ [c])[i]? = some c' := by
    intro i c' hi
    rw [List.getElem?_append_left (List.getElem?_eq_some_iff.mp hi).1, hi]
  have hnew : (graph.constraints ++ [c])[graph.constraints.length]? = some c := List.getElem?_concat_length
  have hlt : ∀ i ∈ (below ++ [last]).flatten, i < graph.constraints.length :=
    fun i hi => h.lt_length (hactive ▸ hi)
  rw [hadd]
  refine ⟨?_, ?_, ?_, fun v e => ?_, fun v => ?_, fun c' hc' => ?_⟩
  · show List.Forall₂ _ (below ++ [last ++ [graph.constraints.length]]) _
    rw [Scopes.levels_add]
    refine rel_append (hbelow.imp fun _ _ hl => hl.imp hkeep) (.cons ?_ .nil)
    exact rel_append (hlast.imp hkeep) (.cons hnew .nil)
  · simp [hlen]
  · have hnodup := h.nodup
    rw [hactive] at hnodup
    have hflat : (below ++ [last ++ [graph.constraints.length]]).flatten =
        (below ++ [last]).flatten ++ [graph.constraints.length] := by
      simp
    show (below ++ [last ++ [graph.constraints.length]]).flatten.Nodup
    rw [hflat]
    refine nodup_append.mpr ⟨hnodup, by simp, fun i hi j hj => ?_⟩
    rw [mem_singleton.mp hj]
    exact (hlt i hi).ne
  · rw [hedges, h.edges, ← and_or_left, or_assoc]
    refine and_congr_right fun _ => or_congr_right ?_
    show graph.Active e ∨ e ∈ edgesOf graph.isInteger graph.constraints.length c ↔ _
    have hmem : ∀ i, i ∈ (below ++ [last ++ [graph.constraints.length]]).flatten ↔
        i ∈ graph.activeByLevel.flatten ∨ i = graph.constraints.length := by
      intro i
      simp [hactive, or_assoc]
    constructor
    · rintro (⟨i, hi, c', hi', he⟩ | he)
      · exact ⟨i, (hmem i).mpr (.inl hi), c', hkeep i c' hi', he⟩
      · exact ⟨_, (hmem _).mpr (.inr rfl), c, hnew, he⟩
    · rintro ⟨i, hi, c', hi', he⟩
      rcases (hmem i).mp hi with hi | rfl
      · left
        have hi' : (graph.constraints ++ [c])[i]? = some c' := hi'
        rw [getElem?_append_left (h.lt_length hi)] at hi'
        exact ⟨i, hi, c', hi', he⟩
      · right
        obtain rfl := Option.some.inj (hnew.symm.trans hi')
        exact he
  · rw [hnodes, h.nodes]
    constructor
    · rintro (hv | ⟨e, he, rfl⟩)
      · exact hv
      · exact (edgesOf_ends hc he).1
    · exact .inl
  · rcases Scopes.mem_all_add.mp hc' with hc' | rfl
    · exact h.ranged c' hc'
    · exact hc

theorem isInteger_addConstraint (graph : DoubledGraph) (c : UtConstraint) :
    (graph.addConstraint c).1.isInteger = graph.isInteger := by
  have hrest := congrArg DoubledGraph.isInteger
    (added_foldl graph.constraints.length (translate c (c.effectiveBound graph.isInteger)) graph).rest
  exact hrest

theorem Represents.push (h : graph.Represents σ) : graph.push.Represents σ.push := by
  have hpush : graph.push = { graph with
      currentLevel := graph.currentLevel + 1
      activeByLevel := graph.activeByLevel ++ [[]] } := by
    unfold DoubledGraph.push
    rw [h.level, show graph.currentLevel + 2 - (graph.currentLevel + 1) = 1 by omega]
    rfl
  have hflat : (graph.activeByLevel ++ [[]]).flatten = graph.activeByLevel.flatten := by simp
  rw [hpush]
  refine ⟨?_, ?_, ?_, fun v e => ?_, h.nodes, fun c hc => h.ranged c (Scopes.mem_all_push.mp hc)⟩
  · show List.Forall₂ _ (graph.activeByLevel ++ [[]]) _
    rw [Scopes.levels_push]
    exact rel_append h.levels (.cons .nil .nil)
  · simp [h.level]
  · show (graph.activeByLevel ++ [[]]).flatten.Nodup
    rw [hflat]
    exact h.nodup
  · rw [h.edges]
    unfold Active
    dsimp only
    rw [hflat]
    rfl

theorem mem_foldl_filter {dropped : List ℕ} {E : List UtEdge} :
    e ∈ dropped.foldl (fun edges idx => edges.filter (·.constraintIdx ≠ some idx)) E ↔ e ∈ E ∧
    ∀ i ∈ dropped, e.constraintIdx ≠ some i := by
  induction dropped generalizing E with
  | nil => simp
  | cons i dropped ih =>
    rw [foldl_cons, ih]
    simp [and_assoc]

theorem Represents.pop (h : graph.Represents σ) (levels : ℕ) : (graph.pop levels).Represents (σ.pop levels) := by
  by_cases hl : levels = 0
  · subst hl
    exact h
  · have hlevel : graph.currentLevel = σ.outer.length := by
      have := h.levels.length_eq
      rw [h.level, Scopes.length_levels] at this
      omega
    generalize hkeep : graph.currentLevel - levels + 1 = keep
    have hpop : graph.pop levels = { graph with
        edges := fun v => (graph.activeByLevel.drop keep).flatten.foldl
          (fun edges idx => edges.filter (·.constraintIdx ≠ some idx)) (graph.edges v)
        activeByLevel := graph.activeByLevel.take keep
        currentLevel := graph.currentLevel - levels } := by
      unfold DoubledGraph.pop
      rw [if_neg hl, ← h.level, take_length, ← hkeep]
    have hsplit : graph.activeByLevel.flatten = (graph.activeByLevel.take keep).flatten ++
        (graph.activeByLevel.drop keep).flatten := by
      rw [← flatten_append, take_append_drop]
    have hnodup := h.nodup
    rw [hsplit] at hnodup
    obtain ⟨htake, -, hdisj⟩ := nodup_append.mp hnodup
    rw [hpop]
    refine ⟨?_, ?_, htake, fun v e => ?_, h.nodes, fun c hc => h.ranged c (Scopes.mem_all_of_mem_all_pop hc)⟩
    · rw [Scopes.levels_pop, ← hlevel, hkeep]
      exact forall₂_take _ h.levels
    · simp only [length_take, h.level]
      omega
    · dsimp only
      rw [mem_foldl_filter, h.edges, and_assoc]
      refine and_congr_right fun _ => ?_
      constructor
      · rintro ⟨hanchor | ⟨i, hi, c, hc, he⟩, hdrop⟩
        · exact .inl hanchor
        · right
          rw [hsplit] at hi
          rcases mem_append.mp hi with hi | hi
          · exact ⟨i, hi, c, hc, he⟩
          · obtain ⟨p, -, rfl⟩ := mem_map.mp he
            exact absurd rfl (hdrop i hi)
      · rintro (⟨u, hu, b, rfl⟩ | ⟨i, hi, c, hc, he⟩)
        · exact ⟨.inl ⟨u, hu, b, rfl⟩, by simp⟩
        · refine ⟨.inr ⟨i, ?_, c, hc, he⟩, fun j hj => ?_⟩
          · rw [hsplit]
            exact mem_append_left _ hi
          · obtain ⟨p, -, rfl⟩ := mem_map.mp he
            intro heq
            exact hdisj i hi j hj (Option.some.inj heq)

end DoubledGraph

end Nixie.Utvpi
