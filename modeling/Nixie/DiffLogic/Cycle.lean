import Nixie.DiffLogic.Represents
import Nixie.Graph.Parents

/-!
The negative cycle that the queue-driven search reads off its parent edges.
-/

namespace Nixie.DiffLogic

open Nixie.Graph List Option Function ConstraintGraph

namespace ConstraintGraph

variable {graph : ConstraintGraph} {c : DiffConstraint}

inductive Built : ConstraintGraph → Prop
  | new (isInteger : Bool) : Built { isInteger := isInteger }
  | getOrCreateVar {graph : ConstraintGraph} (term : ℕ) : Built graph → Built (graph.getOrCreateVar term).1
  | addConstraint {graph : ConstraintGraph} (c : DiffConstraint) : Built graph → c.x ∈ graph.vars →
      c.y ∈ graph.vars → Built (graph.addConstraint c).1
  | push {graph : ConstraintGraph} : Built graph → Built graph.push
  | pop {graph : ConstraintGraph} (levels : ℕ) : Built graph → Built (graph.pop levels)

theorem Represents.exists_term {A : List Asserted} (h : graph.Represents A) {v : DiffVar} (hv : v ∈ graph.vars) :
    ∃ t, graph.varToNode t = some v := by
  obtain ⟨i, hi, rfl⟩ := mem_map.mp hv
  have hlt : i < graph.nodeToVar.length := h.count ▸ mem_range.mp hi
  exact ⟨graph.nodeToVar[i], (h.interned _ _).mpr ⟨i, getElem?_eq_getElem hlt, rfl⟩⟩

theorem Built.represents (h : Built graph) : ∃ σ : SparseSession, graph.Represents σ.asserted ∧ graph.Scoped σ := by
  induction h with
  | new isInteger => exact ⟨{}, represents_nil isInteger, scoped_nil isInteger⟩
  | getOrCreateVar term _ ih =>
    obtain ⟨σ, hr, hs⟩ := ih
    obtain ⟨graph', v, heq, hr', hext, -⟩ := hr.getOrCreateVar term
    rw [heq]
    exact ⟨σ, hr', hs.extends hext⟩
  | addConstraint c _ hx hy ih =>
    obtain ⟨σ, hr, hs⟩ := ih
    obtain ⟨x, hx⟩ := hr.exists_term hx
    obtain ⟨y, hy⟩ := hr.exists_term hy
    exact ⟨σ.add ⟨x, y, c.bound, c.constraintType⟩, hr.addConstraint ⟨hx, hy, rfl, rfl⟩, hs.addConstraint hr c⟩
  | push _ ih =>
    obtain ⟨σ, hr, hs⟩ := ih
    exact ⟨σ.push, hr.push, hs.push hr⟩
  | pop levels _ ih =>
    obtain ⟨σ, hr, hs⟩ := ih
    exact ⟨σ.pop levels, hr.pop hs levels⟩

def arcOf (graph : ConstraintGraph) (idx : ℕ) : Option DiffEdge :=
  (graph.constraints[idx]?).map fun c => graph.edgeOf c idx

theorem Represents.arcOf {A : List Asserted} (h : graph.Represents A) {e : DiffEdge} (he : e ∈ graph.arcs) :
    graph.arcOf e.constraintIdx = some e := by
  obtain ⟨u, hu⟩ := h.listed.mem_arcs.mp he
  rw [h.edges u] at hu
  obtain ⟨i, c, hc, -, rfl⟩ := mem_edgesFrom.mp hu
  show (graph.constraints[i]?).map _ = _
  rw [hc]
  rfl

def parentArc (graph : ConstraintGraph) (parentEdge : ℕ → Option ℕ) (v : ℕ) : Option DiffEdge :=
  (parentEdge v).bind graph.arcOf

theorem parentArc_update {parentEdge : ℕ → Option ℕ} {v idx : ℕ} {e : DiffEdge} (h : graph.arcOf idx = some e) :
    graph.parentArc (update parentEdge v (some idx)) = update (graph.parentArc parentEdge) v (some e)
    := by
  funext u
  by_cases hu : u = v
  · subst hu
    simp [parentArc, h]
  · simp [parentArc, update_of_ne hu]

end ConstraintGraph

variable {graph : ConstraintGraph} {parentEdge : ℕ → Option ℕ} {d₀ d : ℕ → ℚ} {v : DiffVar} {idx m n : ℕ}
  {c : DiffConstraint}

theorem parent_eq_some : parent graph parentEdge v = some (idx, c) ↔
    parentEdge v.id = some idx ∧ graph.constraints[idx]? = some c := by
  simp only [parent, bind_eq_some_iff, map_eq_some_iff, Prod.mk.injEq]
  constructor
  · rintro ⟨_, hidx, _, hc, rfl, rfl⟩
    exact ⟨hidx, hc⟩
  · rintro ⟨hidx, hc⟩
    exact ⟨idx, hidx, c, hc, rfl, rfl⟩

theorem parentArc_of_parent (h : parent graph parentEdge v = some (idx, c)) :
    graph.parentArc parentEdge v.id = some (graph.edgeOf c idx) := by
  obtain ⟨hidx, hc⟩ := parent_eq_some.mp h
  rw [parentArc, hidx, bind_some, arcOf, hc, map_some]

theorem parentArc_of_none (h : parent graph parentEdge v = none) : graph.parentArc parentEdge v.id = none := by
  cases hidx : parentEdge v.id with
  | none => rw [parentArc, hidx, bind_none]
  | some idx =>
    cases hc : graph.constraints[idx]? with
    | none => rw [parentArc, hidx, bind_some, arcOf, hc, map_none]
    | some c => exact absurd (h.symm.trans (parent_eq_some.mpr ⟨hidx, hc⟩)) (by simp)

section

def back (graph : ConstraintGraph) (parentEdge : ℕ → Option ℕ) (v : DiffVar) : DiffVar :=
  walkBack graph parentEdge 1 v

theorem back_of_parent (h : parent graph parentEdge v = some (idx, c)) : back graph parentEdge v = c.y := by
  simp only [back, walkBack, h]

theorem walkBack_eq_iterate : walkBack graph parentEdge m v = (back graph parentEdge)^[m] v := by
  induction m generalizing v with
  | zero => rfl
  | succ m ih =>
    rw [iterate_succ_apply]
    cases hp : parent graph parentEdge v with
    | none =>
      have hfix : back graph parentEdge v = v := by simp only [back, walkBack, hp]
      rw [hfix, iterate_fixed hfix, walkBack, hp]
    | some p =>
      obtain ⟨idx, c⟩ := p
      rw [back_of_parent hp, walkBack, hp]
      exact ih

theorem exists_walk_back (h : ∀ i < m, (parent graph parentEdge ((back graph parentEdge)^[i] v)).isSome)
    (hpar : Parented graph.arcs d₀ d (graph.parentArc parentEdge)) :
    ∃ p : List DiffEdge, p.length = m ∧ Backs (graph.parentArc parentEdge) p ∧
    IsWalk ((back graph parentEdge)^[m] v).id p v.id := by
  induction m generalizing v with
  | zero => exact ⟨[], rfl, backs_nil, rfl⟩
  | succ m ih =>
    obtain ⟨⟨idx, c⟩, hp⟩ := isSome_iff_exists.mp (h 0 (Nat.succ_pos m))
    rw [iterate_zero_apply] at hp
    have harc := parentArc_of_parent hp
    have hdst := (hpar.arc _ _ harc).2
    obtain ⟨p, hlen, hback, hwalk⟩ := @ih (back graph parentEdge v) fun i hi => by
      rw [← iterate_succ_apply]
      exact h (i + 1) (Nat.succ_lt_succ hi)
    refine ⟨p ++ [graph.edgeOf c idx], by simp [hlen], backs_append.mpr ⟨hback, ?_⟩, ?_⟩
    · exact backs_cons.mpr ⟨hdst ▸ harc, backs_nil⟩
    · rw [iterate_succ_apply, IsWalk.concat_iff]
      refine ⟨?_, hdst⟩
      rw [back_of_parent hp] at hwalk ⊢
      exact hwalk

structure Endless (graph : ConstraintGraph) (parentEdge : ℕ → Option ℕ) (v : DiffVar) : Prop where
  parent : ∀ m, (parent graph parentEdge ((back graph parentEdge)^[m] v)).isSome
  round : ∃ period, 0 < period ∧ period ≤ graph.numVars ∧ ∀ m, graph.numVars ≤ m →
    (back graph parentEdge)^[period] ((back graph parentEdge)^[m] v) = (back graph parentEdge)^[m] v

variable {u : ℕ}

theorem parent_of_short (hpar : Parented graph.arcs d₀ d (graph.parentArc parentEdge))
    (hlow : ∀ a p, p ⊆ graph.arcs → IsWalk a p u → p.length ≤ n → d u < d₀ a + weight p) (hm : m ≤ n) :
    (parent graph parentEdge ((back graph parentEdge)^[m] (.node u))).isSome := by
  induction m using Nat.strong_induction_on with
  | _ m ih =>
    obtain ⟨p, hlen, hback, hwalk⟩ := @exists_walk_back _ _ _ _ (.node u) m (fun i hi => ih i hi (by omega)) hpar
    by_contra hnone
    have hroot := hpar.root _ (parentArc_of_none (not_isSome_iff_eq_none.mp hnone))
    have hle := hpar.add_weight_le hback hwalk
    have hlt := hlow _ p (hpar.subset hback) hwalk (hlen ▸ hm)
    exact absurd (hlt.trans_le (add_le_add_left hroot _)) (not_lt.mpr hle)

theorem back_mem (hg : graph.Listed) (hpar : Parented graph.arcs d₀ d (graph.parentArc parentEdge))
    (hu : u < graph.numVars) (m : ℕ) :
    (back graph parentEdge)^[m] (.node u) ∈ (Finset.range graph.numVars).image DiffVar.node := by
  induction m with
  | zero => exact Finset.mem_image_of_mem _ (Finset.mem_range.mpr hu)
  | succ m ih =>
    rw [iterate_succ_apply']
    generalize (back graph parentEdge)^[m] (.node u) = w at ih
    cases hp : parent graph parentEdge w with
    | none =>
      have hfix : back graph parentEdge w = w := by simp only [back, walkBack, hp]
      rwa [hfix]
    | some q =>
      obtain ⟨idx, c⟩ := q
      obtain ⟨y, hy⟩ := hg.mem_arcs.mp (hpar.arc _ _ (parentArc_of_parent hp)).1
      obtain ⟨hsrc, hlt, -⟩ := hg.out y _ hy
      rw [back_of_parent hp, show c.y = .node y from hsrc]
      exact Finset.mem_image_of_mem _ (Finset.mem_range.mpr hlt)

theorem endless_of_isSome (hg : graph.Listed) (hpar : Parented graph.arcs d₀ d (graph.parentArc parentEdge))
    (hu : u < graph.numVars) (hsome : ∀ m ≤ graph.numVars,
    (parent graph parentEdge ((back graph parentEdge)^[m] (.node u))).isSome) :
    Endless graph parentEdge (.node u) := by
  -- two of the first nodes on the way back are the same
  have hcard : ((Finset.range graph.numVars).image DiffVar.node).card < (Finset.range (graph.numVars + 1)).card := by
    rw [Finset.card_range]
    exact Nat.lt_succ_of_le (Finset.card_image_le.trans (Finset.card_range _).le)
  obtain ⟨i, hi, j, hj, hij, hsame⟩ := Finset.exists_ne_map_eq_of_card_lt_of_maps_to hcard
    fun m _ => back_mem hg hpar hu m
  wlog hlt : i < j generalizing i j
  · exact this j hj i hi hij.symm hsame.symm (by omega)
  rw [Finset.mem_range] at hj
  have hshift : ∀ m, i ≤ m → (back graph parentEdge)^[j - i] ((back graph parentEdge)^[m] (.node u)) =
      (back graph parentEdge)^[m] (.node u) := by
    intro m hm
    rw [← iterate_add_apply, show j - i + m = (m - i) + j by omega, iterate_add_apply, ← hsame,
      ← iterate_add_apply, Nat.sub_add_cancel hm]
  refine ⟨fun m => ?_, j - i, by omega, by omega, fun m hm => hshift m (by omega)⟩
  induction m using Nat.strong_induction_on with
  | _ m ih =>
    by_cases hm : m ≤ graph.numVars
    · exact hsome m hm
    · have hback := hshift (m - (j - i)) (by omega)
      rw [← iterate_add_apply, show j - i + (m - (j - i)) = m by omega] at hback
      rw [hback]
      exact ih (m - (j - i)) (by omega)

end

section

variable {start current : DiffVar} {fuel rest : ℕ} {edges : List ℕ} {total : ℚ}

def ClosedWalk (graph : ConstraintGraph) (edges : List ℕ) (total : ℚ) : Prop :=
  ∃ (a : ℕ) (p : List DiffEdge), p ≠ [] ∧ p ⊆ graph.arcs ∧ IsWalk a p a ∧
    edges.reverse.map graph.arcOf = p.map some ∧ weight p = total

theorem collectCycle_closed (hpar : Parented graph.arcs d₀ d (graph.parentArc parentEdge))
    (hparent : ∀ m, (parent graph parentEdge ((back graph parentEdge)^[m] current)).isSome)
    (hround : (back graph parentEdge)^[rest + 1] current = start) (hlen : edges.length + rest ≤ graph.numVars)
    (hfuel : rest < fuel) {p : List DiffEdge} (hback : Backs (graph.parentArc parentEdge) p)
    (hwalk : IsWalk current.id p start.id) (hedges : edges.reverse.map graph.arcOf = p.map some)
    (htotal : weight p = total) : ∃ q : List DiffEdge, q ≠ [] ∧ Backs (graph.parentArc parentEdge) q ∧
    IsWalk start.id q start.id ∧
    (collectCycle graph parentEdge start fuel current edges total).1.reverse.map graph.arcOf = q.map some ∧
    weight q = (collectCycle graph parentEdge start fuel current edges total).2 := by
  induction fuel generalizing current edges total rest p with
  | zero => exact absurd hfuel (Nat.not_lt_zero rest)
  | succ fuel ih =>
    obtain ⟨⟨idx, c⟩, hp⟩ := isSome_iff_exists.mp (hparent 0)
    rw [iterate_zero_apply] at hp
    have harc := parentArc_of_parent hp
    have hdst := (hpar.arc _ _ harc).2
    have hof : graph.arcOf idx = some (graph.edgeOf c idx) := by
      rw [arcOf, (parent_eq_some.mp hp).2, map_some]
    have hback' : Backs (graph.parentArc parentEdge) (graph.edgeOf c idx :: p) := backs_cons.mpr ⟨hdst ▸ harc, hback⟩
    have hwalk' : IsWalk c.y.id (graph.edgeOf c idx :: p) start.id := ⟨rfl, hdst ▸ hwalk⟩
    have hedges' : (edges ++ [idx]).reverse.map graph.arcOf = (graph.edgeOf c idx :: p).map some := by
      rw [reverse_append, reverse_singleton, map_append, hedges, map_singleton, hof]
      rfl
    have htotal' : weight (graph.edgeOf c idx :: p) = total + c.effectiveBound graph.isInteger := by
      rw [weight_cons, htotal, add_comm]
      rfl
    rw [collectCycle, hp]
    dsimp only
    by_cases hstart : c.y = start
    · rw [if_pos hstart]
      exact ⟨_, by simp, hback', hstart ▸ hwalk', hedges', htotal'⟩
    · rw [if_neg hstart]
      rw [iterate_succ_apply, back_of_parent hp] at hround
      cases rest with
      | zero => exact absurd hround hstart
      | succ rest =>
        rw [if_neg (by rw [length_append, length_singleton]; omega)]
        refine ih ?_ hround (by rw [length_append, length_singleton]; omega) (by omega) hback' hwalk' hedges' htotal'
        intro m
        rw [← back_of_parent hp, ← iterate_succ_apply]
        exact hparent (m + 1)

theorem extractNegativeCycle_closed (hpar : Parented graph.arcs d₀ d (graph.parentArc parentEdge))
    (hend : Endless graph parentEdge v) (trigger : Option DiffEdge) :
    ClosedWalk graph (extractNegativeCycle graph parentEdge v trigger).1
    (extractNegativeCycle graph parentEdge v trigger).2 ∧ (extractNegativeCycle graph parentEdge v trigger).2 < 0 := by
  obtain ⟨period, hpos, hle, hround⟩ := hend.round
  obtain ⟨rest, rfl⟩ := Nat.exists_eq_succ_of_ne_zero hpos.ne'
  have hback := hround (graph.numVars + 1) (Nat.le_succ _)
  have hparent : ∀ m, (parent graph parentEdge ((back graph parentEdge)^[m]
      ((back graph parentEdge)^[graph.numVars + 1] v))).isSome := by
    intro m
    rw [← iterate_add_apply]
    exact hend.parent _
  obtain ⟨q, hne, hq, hwalk, hedges, hweight⟩ := @collectCycle_closed _ _ _ _ _ _ (graph.numVars + 2) rest [] 0 hpar
    hparent hback (by simp; omega) (by omega) [] backs_nil rfl rfl rfl
  unfold extractNegativeCycle
  rw [walkBack_eq_iterate]
  dsimp only
  generalize hcycle : collectCycle graph parentEdge _ _ _ [] 0 = cycle at hedges hweight ⊢
  obtain ⟨edges, total⟩ := cycle
  dsimp only at hedges hweight ⊢
  cases edges with
  | nil => exact absurd (map_eq_nil_iff.mp hedges.symm) hne
  | cons idx edges =>
    exact ⟨⟨_, q, hne, hpar.subset hq, hwalk, hedges, hweight⟩, hweight ▸ hpar.cycle _ q hne hq hwalk⟩

end

namespace Spfa

variable {spfa spfa' : Spfa} {du : ℚ} {fuel k : ℕ} {now next : List ℕ} {w : DiffVar}

def Rooted (graph : ConstraintGraph) (d₀ : ℕ → ℚ) (spfa : Spfa) : Prop :=
  Parented graph.arcs d₀ (value spfa.distances) (graph.parentArc spfa.parentEdge)

theorem relaxEdges_rooted (hg : graph.Listed) (hstored : ∀ e ∈ graph.arcs, graph.arcOf e.constraintIdx = some e)
    {l : List DiffEdge} (hl : l ⊆ graph.arcs) (hc : Covers graph.numVars spfa.distances) (hroot : Rooted graph d₀ spfa)
    (hu : ∀ e ∈ l, value spfa.distances e.src.id ≤ du) : Rooted graph d₀ (relaxEdges graph.numVars du l spfa).1 ∧
    (∀ v, value (relaxEdges graph.numVars du l spfa).1.distances v ≤ value spfa.distances v) ∧
    ∀ w, (relaxEdges graph.numVars du l spfa).2 = some w → ∃ v < graph.numVars, w = .node v ∧ spfa.inQueue v = false ∧
    graph.numVars < spfa.count v ∧
    value (relaxEdges graph.numVars du l spfa).1.distances v < value spfa.distances v := by
  induction l generalizing spfa with
  | nil => exact ⟨hroot, fun v => le_refl _, by simp [relaxEdges]⟩
  | cons e l ih =>
    obtain ⟨he, hl'⟩ := cons_subset.mp hl
    obtain ⟨heu, hu'⟩ := forall_mem_cons.mp hu
    obtain ⟨v, hv, hdst⟩ : ∃ v < graph.numVars, e.dst = .node v := by
      obtain ⟨u, hu⟩ := hg.mem_arcs.mp he
      exact (hg.out u e hu).2.2
    have hid : e.dst.id = v := by rw [hdst]; rfl
    rw [relaxEdges]
    simp only [hg.not_isSource he, Bool.false_eq_true, ↓reduceIte, hid, hc.eq_some hv, improved, decide_eq_true_eq]
    by_cases hlt : du + e.weight < value spfa.distances v
    · rw [if_pos hlt]
      have hlt' : du + e.weight < value spfa.distances e.dst.id := by
        rw [hid]
        exact hlt
      have hcov := hc.update (r := du + e.weight) hv
      have hpar : Parented graph.arcs d₀ (value (update spfa.distances v (some (du + e.weight))))
          (graph.parentArc (update spfa.parentEdge v (some e.constraintIdx))) := by
        rw [value_update, parentArc_update (hstored e he), ← hid]
        exact hroot.improve he heu hlt'
      have hle : ∀ u, value (update spfa.distances v (some (du + e.weight))) u ≤ value spfa.distances u := by
        intro u
        rw [value_update]
        by_cases huv : u = v
        · rw [huv, update_self]
          exact hlt.le
        · rw [update_of_ne huv]
      have hsame : ∀ u, u ≠ v →
          value (update spfa.distances v (some (du + e.weight))) u = value spfa.distances u := by
        intro u huv
        rw [value_update, update_of_ne huv]
      cases hflag : spfa.inQueue v with
      | true =>
        simp only [Bool.not_true, Bool.false_eq_true, ↓reduceIte]
        obtain ⟨hroot', hle', hstop⟩ := @ih { spfa with
          distances := update spfa.distances v (some (du + e.weight))
          parentEdge := update spfa.parentEdge v (some e.constraintIdx) } hl' hcov hpar
          fun f hf => (hle _).trans (hu' f hf)
        refine ⟨hroot', fun u => (hle' u).trans (hle u), fun w hw => ?_⟩
        obtain ⟨u, hun, hnode, hout, hcount, hlow⟩ := hstop w hw
        exact ⟨u, hun, hnode, hout, hcount, hlow.trans_le (hle u)⟩
      | false =>
        simp only [Bool.not_false, ↓reduceIte]
        split
        · next hcnt =>
          refine ⟨hpar, hle, fun w hw => ⟨v, hv, (some.inj hw).symm.trans hdst, hflag, ?_, ?_⟩⟩
          · rw [update_self] at hcnt
            omega
          · show value (update spfa.distances v (some (du + e.weight))) v < _
            rwa [value_update, update_self]
        · obtain ⟨hroot', hle', hstop⟩ := @ih { spfa with
            distances := update spfa.distances v (some (du + e.weight))
            parentEdge := update spfa.parentEdge v (some e.constraintIdx)
            queue := spfa.queue ++ [e.dst]
            inQueue := update spfa.inQueue v true
            count := update spfa.count v (spfa.count v + 1) } hl' hcov hpar
            fun f hf => (hle _).trans (hu' f hf)
          refine ⟨hroot', fun u => (hle' u).trans (hle u), fun w hw => ?_⟩
          obtain ⟨u, hun, hnode, hout, hcount, hlow⟩ := hstop w hw
          have huv : u ≠ v := by
            rintro rfl
            simp at hout
          simp only [update_of_ne huv] at hout hcount
          exact ⟨u, hun, hnode, hout, hcount, hlow.trans_le (hle u)⟩
    · rw [if_neg hlt]
      exact ih hl' hc hroot hu'

theorem loop_stops (hg : graph.Listed) (hstored : ∀ e ∈ graph.arcs, graph.arcOf e.constraintIdx = some e)
    (h : Searching graph d₀ fuel k now next spfa) (hroot : Rooted graph d₀ spfa) :
    ((loop graph fuel spfa).2 = none → (loop graph fuel spfa).1.queue = []) ∧ ∀ w, (loop graph fuel spfa).2 = some w →
    Rooted graph d₀ (loop graph fuel spfa).1 ∧ ∃ v < graph.numVars, w = .node v ∧ ∀ a p, p ⊆ graph.arcs →
    IsWalk a p v → p.length ≤ graph.numVars → value (loop graph fuel spfa).1.distances v < d₀ a + weight p := by
  induction fuel generalizing k now next spfa with
  | zero => exact absurd h.fuel_pos (lt_irrefl 0)
  | succ fuel ih =>
    cases hq : now ++ next with
    | nil =>
      have hqueue := h.queued.queue
      rw [hq, map_nil] at hqueue
      rw [loop, hqueue]
      exact ⟨fun _ => hqueue, by simp⟩
    | cons u rest =>
      obtain ⟨k, now, next, new, spfa', r, rfl, h, hloop, hrelax, -, -, hnone, -⟩ := h.visit hg hq
      have hedges : graph.edges (.node u) ⊆ graph.arcs := fun e he => hg.mem_arcs.mpr ⟨u, he⟩
      have hsrc : ∀ e ∈ graph.edges (.node u), value spfa.distances e.src.id ≤ value spfa.distances u := by
        intro e he
        rw [(hg.out u e he).1]
        exact le_refl _
      obtain ⟨hroot', -, hstop⟩ := @relaxEdges_rooted _ d₀ { spfa with
        queue := (now ++ next).map .node
        inQueue := update spfa.inQueue u false } _ hg hstored _ hedges h.covers hroot hsrc
      rw [hrelax] at hroot' hstop
      rw [hloop]
      cases r with
      | none => exact ih (hnone rfl) hroot'
      | some w =>
        refine ⟨by simp, fun w' hw' => ?_⟩
        obtain ⟨v, hv, rfl, hout, hcount, hlow⟩ := hstop w' hw'
        dsimp only at hout hcount
        refine ⟨hroot', v, hv, rfl, fun a p hp hwalk hlen => ?_⟩
        -- it was queued once for each generation, so as many generations as nodes are over
        have hvnext : v ∉ next := by
          intro hvn
          have hvu : v ≠ u := by
            rintro rfl
            exact (nodup_cons.mp h.queued.nodup).1 (mem_append_right _ hvn)
          rw [update_of_ne hvu, Bool.eq_false_iff] at hout
          exact hout ((h.queued.flag v).mpr (by simp [hvn]))
        have hgen := h.count v
        rw [if_neg hvnext] at hgen
        exact hlow.trans_le (h.generation.settled a p v hp hwalk (by omega))

def start (graph : ConstraintGraph) : Spfa :=
  ⟨zeros graph.numVars, fun _ => none, fun i => i < graph.numVars, fun i => if i < graph.numVars then 1 else 0,
    graph.vars⟩

theorem run_eq : run graph =
    (match spfaLoop graph (start graph) with
      | (spfa, some v) =>
        .negativeCycle
          (extractNegativeCycle graph spfa.parentEdge v ((spfa.parentEdge v.id).bind (edgeInstance graph))).1
          (extractNegativeCycle graph spfa.parentEdge v ((spfa.parentEdge v.id).bind (edgeInstance graph))).2
      | (spfa, none) => .distances spfa.distances) := rfl

/-- The loop ends with an empty queue or a repeated node; the distances meet every constraint, and the cycle is
a closed walk of the graph with the reported, negative weight. -/
theorem run_explained (h : graph.Built) :
    ((spfaLoop graph (start graph)).2 = none → (spfaLoop graph (start graph)).1.queue = []) ∧
      match run graph with
      | .distances d => ∀ c ∈ graph.constraints, ∃ dx dy, d c.x.id = some dx ∧ d c.y.id = some dy ∧
          dx ≤ dy + c.effectiveBound graph.isInteger
      | .negativeCycle edges total => ClosedWalk graph edges total ∧ total < 0 := by
  obtain ⟨σ, hr, -⟩ := h.represents
  have hg := hr.listed
  have hq : Queued graph.numVars (List.range graph.numVars) (start graph) :=
    ⟨rfl, nodup_range, fun i => by simp [start], fun i hi => mem_range.mp hi⟩
  have hsearch : Searching graph (value (start graph).distances) (graph.numVars * (graph.numVars + 1) + 1) 0
      (List.range graph.numVars) [] (start graph) :=
    searching_start hq (covers_zeros _) (fun v => by simp [start]) fun e he hsrc =>
      absurd (hg.spans e he).1 hsrc
  have hroot : Rooted graph (value (start graph).distances) (start graph) := parented_start
  obtain ⟨hempty, hstop⟩ := loop_stops hg (fun e he => hr.arcOf he) hsearch hroot
  have hdecides := run_decides hg
  rw [run_eq] at hdecides ⊢
  refine ⟨hempty, ?_⟩
  unfold spfaLoop at hdecides ⊢
  cases hloop : loop graph (graph.numVars * (graph.numVars + 1) + 1) (start graph) with
  | mk spfa r =>
    rw [hloop] at hstop hdecides
    cases r with
    | some w =>
      obtain ⟨hroot', v, hv, rfl, hlow⟩ := hstop w rfl
      exact extractNegativeCycle_closed hroot'
        (endless_of_isSome hg hroot' hv fun _ hm => parent_of_short hroot' hlow hm) _
    | none =>
      obtain ⟨hc, hfeasible, -⟩ : Covers graph.numVars spfa.distances ∧
        Shortest graph.arcs (fun _ => 0) (value spfa.distances) := hdecides
      intro c hmem
      obtain ⟨a, -, hst⟩ := hr.stored hmem
      obtain ⟨x, hx, -, hcx⟩ := hr.node_of_var hst.x
      obtain ⟨y, hy, -, hcy⟩ := hr.node_of_var hst.y
      have hle := hr.feasible_iff.mp hfeasible c hmem
      rw [hcx, hcy] at hle ⊢
      exact ⟨_, _, hc.eq_some hx, hc.eq_some hy, hle⟩

def opposed : ConstraintGraph :=
  ((((({ isInteger := true } : ConstraintGraph).getOrCreateVar 0).1.getOrCreateVar 1).1.addConstraint
    ⟨.node 0, .node 1, -1, .leqConst, 0⟩).1.addConstraint ⟨.node 1, .node 0, 0, .leqConst, 1⟩).1

theorem run_explained_opposed :
    ((spfaLoop opposed (start opposed)).2 = none → (spfaLoop opposed (start opposed)).1.queue = []) ∧
      match run opposed with
      | .distances d => ∀ c ∈ opposed.constraints, ∃ dx dy, d c.x.id = some dx ∧ d c.y.id = some dy ∧
          dx ≤ dy + c.effectiveBound opposed.isInteger
      | .negativeCycle edges total => ClosedWalk opposed edges total ∧ total < 0 :=
  run_explained (.addConstraint _ (.addConstraint _ (.getOrCreateVar 1 (.getOrCreateVar 0 (.new true))) (by decide)
    (by decide)) (by decide) (by decide))

example : run opposed = .negativeCycle [1, 0] (-1) := by with_unfolding_all rfl

end Spfa

end Nixie.DiffLogic
