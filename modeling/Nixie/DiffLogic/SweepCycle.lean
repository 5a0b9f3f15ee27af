import Nixie.DiffLogic.Cycle

/-!
The negative cycle that the sweeps read off their parent edges. The last pass starts from the target of
the first edge that still improves, whose own parents need not lead to a cycle.
-/

namespace Nixie.DiffLogic

open Nixie.Graph List

variable {graph : ConstraintGraph} {e : DiffEdge} {edges : List ℕ} {total : ℚ}

def listed (graph : ConstraintGraph) (edges : List ℕ) : List DiffConstraint :=
  edges.filterMap fun idx => graph.constraints[idx]?

def Unsatisfiable (isInteger : Bool) (cs : List DiffConstraint) : Prop :=
  ¬ ∃ φ : ℕ → ℚ, ∀ c ∈ cs, φ c.x.id ≤ φ c.y.id + c.effectiveBound isInteger

theorem le_add_weight {φ : ℕ → ℚ} {p : List DiffEdge} {a b : ℕ} (hp : ∀ e ∈ p, φ e.dst.id ≤ φ e.src.id + e.weight)
    (hw : IsWalk a p b) : φ b ≤ φ a + weight p := by
  induction p generalizing a with
  | nil =>
    obtain rfl : a = b := hw
    simp
  | cons e p ih =>
    obtain ⟨rfl, hw'⟩ := hw
    obtain ⟨he, hp'⟩ := forall_mem_cons.mp hp
    have hrest := ih hp' hw'
    rw [weight_cons]
    show φ b ≤ φ e.src.id + (e.weight + weight p)
    have hrest' : φ b ≤ φ e.dst.id + weight p := hrest
    linarith

theorem ClosedWalk.unsatisfiable (h : ClosedWalk graph edges total) (hneg : total < 0) :
    Unsatisfiable graph.isInteger (listed graph edges) := by
  obtain ⟨a, p, -, -, hw, hedges, rfl⟩ := h
  rintro ⟨φ, hφ⟩
  have hp : ∀ e ∈ p, φ e.dst.id ≤ φ e.src.id + e.weight := by
    intro e he
    obtain ⟨idx, hidx, harc⟩ := mem_map.mp (hedges.symm ▸ mem_map_of_mem he : some e ∈ edges.reverse.map graph.arcOf)
    obtain ⟨c, hc, rfl⟩ := Option.map_eq_some_iff.mp harc
    exact hφ c (mem_filterMap.mpr ⟨idx, mem_reverse.mp hidx, hc⟩)
  have hle := le_add_weight hp hw
  linarith

namespace BellmanFord

variable {bf : BellmanFord}

def Rooted (graph : ConstraintGraph) (bf : BellmanFord) : Prop :=
  Parented graph.arcs (fun _ => 0) (value bf.distances) (graph.parentArc bf.parentEdge)

def relaxed (graph : ConstraintGraph) : BellmanFord :=
  passes graph (graph.numVars - 1) ⟨zeros graph.numVars, fun _ => none, false⟩

theorem run_eq : run graph =
    match graph.allEdges.find? (relaxed graph).improves with
    | some e =>
      .negativeCycle (extractNegativeCycle graph (relaxed graph).parentEdge e.dst (some e)).1
        (extractNegativeCycle graph (relaxed graph).parentEdge e.dst (some e)).2
    | none => .distances (relaxed graph).distances := rfl

end BellmanFord

end Nixie.DiffLogic
