import Nixie.Graph.Relax

/-!
Parent arcs of a relaxation. The value of a vertex is never below that of its parent plus the arc, and every closed
walk over parent arcs has a negative weight.
-/

namespace Nixie.Graph

open Arc Function

variable {ε V W : Type*} [Arc ε V W]

def Backs (par : V → Option ε) (p : List ε) : Prop := ∀ e ∈ p, par (dst e) = some e

variable {E : List ε} {par : V → Option ε} {p q : List ε} {e : ε} {a b v : V}

theorem backs_nil : Backs par ([] : List ε) := by simp [Backs]

theorem backs_append : Backs par (p ++ q) ↔ Backs par p ∧ Backs par q := by
  simp [Backs, or_imp, forall_and]

theorem backs_cons : Backs par (e :: p) ↔ par (dst e) = some e ∧ Backs par p := by
  simp [Backs]

theorem backs_update [DecidableEq V] (hp : Backs (update par (dst e) (some e)) p) (he : e ∉ p) : Backs par p := by
  intro f hf
  have hback := hp f hf
  by_cases hfe : dst f = dst e
  · rw [hfe, update_self] at hback
    exact absurd (Option.some.inj hback ▸ hf) he
  · rwa [update_of_ne hfe] at hback

variable [AddCommGroup W] [LinearOrder W]

structure Parented (E : List ε) (d₀ d : V → W) (par : V → Option ε) : Prop where
  arc : ∀ v e, par v = some e → e ∈ E ∧ dst e = v
  le : ∀ v e, par v = some e → d (src e) + Arc.weight e ≤ d v
  root : ∀ v, par v = none → d₀ v ≤ d v
  cycle : ∀ a p, p ≠ [] → Backs par p → IsWalk a p a → weight p < 0

variable {d₀ d : V → W} {x : W}

theorem parented_start : Parented E d₀ d₀ fun _ => none := by
  refine ⟨by simp, by simp, fun v _ => le_refl _, ?_⟩
  intro a p hne hp _
  obtain ⟨e, he⟩ := List.exists_mem_of_ne_nil p hne
  exact absurd (hp e he) (by simp)

theorem Parented.subset (h : Parented E d₀ d par) (hp : Backs par p) : p ⊆ E :=
  fun e he => (h.arc _ e (hp e he)).1

variable [IsOrderedAddMonoid W]

theorem Parented.add_weight_le (h : Parented E d₀ d par) (hp : Backs par p) (hw : IsWalk a p b) :
    d a + weight p ≤ d b := by
  induction p generalizing a with
  | nil =>
    obtain rfl : a = b := hw
    simp
  | cons e p ih =>
    obtain ⟨rfl, hw'⟩ := hw
    obtain ⟨he, hp'⟩ := backs_cons.mp hp
    calc d (src e) + weight (e :: p) = d (src e) + Arc.weight e + weight p := by rw [weight_cons, add_assoc]
      _ ≤ d (dst e) + weight p := by gcongr; exact h.le _ e he
      _ ≤ d b := ih hp' hw'

variable [DecidableEq V]

theorem Parented.closes (h : Parented E d₀ d par) (hx : d (src e) ≤ x) (hlt : x + Arc.weight e < d (dst e))
    (hp : Backs (update par (dst e) (some e)) p) (hw : IsWalk (dst e) p (src e)) : Arc.weight e + weight p < 0 := by
  induction hn : p.length using Nat.strong_induction_on generalizing p with
  | _ n ih =>
    by_cases he : e ∈ p
    · -- the arc was taken again: two shorter walks
      obtain ⟨q, r, rfl⟩ := List.append_of_mem he
      obtain ⟨hq, her⟩ := backs_append.mp hp
      obtain ⟨c, hwq, hc, hwr⟩ := isWalk_append.mp hw
      have hleft := ih q.length (by simp at hn; omega) hq (hc ▸ hwq) rfl
      have hright := ih r.length (by simp at hn; omega) (backs_cons.mp her).2 hwr rfl
      calc Arc.weight e + weight (q ++ e :: r) = (Arc.weight e + weight q) + (Arc.weight e + weight r) := by
            rw [weight_append, weight_cons]; abel
        _ < 0 := add_neg hleft hright
    · have hold := h.add_weight_le (backs_update hp he) hw
      have hsum : d (dst e) + (Arc.weight e + weight p) < d (dst e) :=
        calc d (dst e) + (Arc.weight e + weight p) = d (dst e) + weight p + Arc.weight e := by abel
          _ ≤ x + Arc.weight e := by gcongr; exact hold.trans hx
          _ < d (dst e) := hlt
      exact (add_lt_iff_neg_left).mp (by rwa [add_comm] at hsum)

theorem Parented.improve (h : Parented E d₀ d par) (he : e ∈ E) (hx : d (src e) ≤ x)
    (hlt : x + Arc.weight e < d (dst e)) : Parented E d₀ (update d (dst e) (x + Arc.weight e))
    (update par (dst e) (some e)) := by
  have hle : ∀ v, update d (dst e) (x + Arc.weight e) v ≤ d v := by
    intro v
    by_cases hv : v = dst e
    · rw [hv, update_self]
      exact hlt.le
    · rw [update_of_ne hv]
  refine ⟨?_, ?_, ?_, ?_⟩
  · intro v f hf
    by_cases hv : v = dst e
    · rw [hv, update_self] at hf
      obtain rfl := Option.some.inj hf
      exact ⟨he, hv.symm⟩
    · rw [update_of_ne hv] at hf
      exact h.arc v f hf
  · intro v f hf
    by_cases hv : v = dst e
    · rw [hv, update_self] at hf
      obtain rfl := Option.some.inj hf
      rw [hv, update_self]
      gcongr
      exact (hle _).trans hx
    · rw [update_of_ne hv] at hf
      rw [update_of_ne hv]
      exact (add_le_add_left (hle _) _).trans (h.le v f hf)
  · intro v hv
    have hne : v ≠ dst e := by
      rintro rfl
      simp at hv
    rw [update_of_ne hne] at hv ⊢
    exact h.root v hv
  · intro a p hne hp hw
    by_cases hep : e ∈ p
    · obtain ⟨q, r, rfl⟩ := List.append_of_mem hep
      obtain ⟨hq, her⟩ := backs_append.mp hp
      obtain ⟨c, hwq, hc, hwr⟩ := isWalk_append.mp hw
      have hback := backs_append.mpr ⟨(backs_cons.mp her).2, hq⟩
      have hround := h.closes hx hlt hback (hwr.append (hc ▸ hwq))
      calc weight (q ++ e :: r) = Arc.weight e + weight (r ++ q) := by
            rw [weight_append, weight_append, weight_cons]; abel
        _ < 0 := hround
    · exact h.cycle a p hne (backs_update hp hep) hw

end Nixie.Graph
