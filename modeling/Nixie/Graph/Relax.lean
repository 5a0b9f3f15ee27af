import Mathlib.Algebra.Order.BigOperators.Group.List
import Mathlib.Algebra.Order.Group.Abs
import Mathlib.Algebra.Order.Group.Int
import Mathlib.Data.List.Nodup
import Mathlib.Data.List.Perm.Subperm
import Mathlib.Order.Bounds.Basic
import Mathlib.Tactic.Abel

/-!
Walks over a list of weighted arcs, their distances and potentials. The arcs are of any type
that has a source, a target and a weight in an ordered group.
-/

namespace Nixie.Graph

open List Function

class Arc (ε : Type*) (V W : outParam Type*) where
  src : ε → V
  dst : ε → V
  weight : ε → W

open Arc

variable {ε V W : Type*} [Arc ε V W]

def IsWalk : V → List ε → V → Prop
  | a, [], b => a = b
  | a, e :: p, b => src e = a ∧ IsWalk (dst e) p b

def vertices (p : List ε) (b : V) : List V := p.map src ++ [b]

def Reaches (E : List ε) (a b : V) : Prop := ∃ p, p ⊆ E ∧ IsWalk a p b

variable {E : List ε} {p q : List ε} {a b c v : V} {e : ε}

theorem isWalk_append : IsWalk a (p ++ q) c ↔ ∃ b, IsWalk a p b ∧ IsWalk b q c := by
  induction p generalizing a with
  | nil => simp [IsWalk]
  | cons e p ih => simp [IsWalk, ih, and_assoc]

theorem IsWalk.append (h : IsWalk a p b) (h' : IsWalk b q c) : IsWalk a (p ++ q) c := isWalk_append.mpr ⟨b, h, h'⟩

theorem IsWalk.split (h : IsWalk a p b) (hv : v ∈ vertices p b) : ∃ q r, p = q ++ r ∧ IsWalk a q v ∧ IsWalk v r b := by
  induction p generalizing a with
  | nil =>
    obtain rfl : v = b := by simpa [vertices] using hv
    exact ⟨[], [], rfl, h, rfl⟩
  | cons e p ih =>
    obtain ⟨rfl, h'⟩ := h
    by_cases hve : v = src e
    · subst hve
      exact ⟨[], e :: p, rfl, rfl, rfl, h'⟩
    · have hv' : v ∈ vertices p b := by simpa [vertices, hve] using hv
      obtain ⟨q, r, rfl, hq, hr⟩ := ih h' hv'
      exact ⟨e :: q, r, rfl, ⟨rfl, hq⟩, hr⟩

theorem vertices_append : vertices (p ++ e :: q) b = vertices p (src e) ++ vertices q b := by
  simp [vertices]

theorem vertices_of_forall {P : V → Prop} (h : IsWalk a p b) (ha : P a)
    (hp : ∀ e ∈ p, P (dst e)) : ∀ v ∈ vertices p b, P v := by
  induction p generalizing a with
  | nil =>
    obtain rfl : a = b := h
    simpa [vertices] using ha
  | cons e p ih =>
    obtain ⟨rfl, h'⟩ := h
    have hrec := ih h' (hp e (by simp)) (fun f hf => hp f (by simp [hf]))
    intro v hv
    simp only [vertices, map_cons, cons_append, mem_cons] at hv
    rcases hv with rfl | hv
    · exact ha
    · exact hrec v hv

theorem nodup_of_vertices (h : (vertices p b).Nodup) : p.Nodup := List.Nodup.of_map _ (nodup_append.mp h).1

theorem length_lt_of_vertices {vs : List V} (h : (vertices p b).Nodup) (hv : vertices p b ⊆ vs) :
    p.length < vs.length := by
  have hle := (h.subperm hv).length_le
  have hlen : (vertices p b).length = p.length + 1 := by simp [vertices]
  rw [hlen] at hle
  exact hle

section

variable [AddCommGroup W]

def weight (p : List ε) : W := (p.map Arc.weight).sum

@[simp]
theorem weight_nil : weight ([] : List ε) = 0 := rfl

@[simp]
theorem weight_cons : weight (e :: p) = Arc.weight e + weight p := by
  simp [weight]

@[simp]
theorem weight_append : weight (p ++ q) = weight p + weight q := by
  simp [weight]

theorem IsWalk.exists_map {ε' V' : Type*} [Arc ε' V' W] {E' : List ε'} {g : V → V'}
    (hE : ∀ e ∈ E, ∃ e' ∈ E', src e' = g (src e) ∧ dst e' = g (dst e) ∧ Arc.weight e' = Arc.weight e) (hp : p ⊆ E)
    (hw : IsWalk a p b) : ∃ q, q ⊆ E' ∧ IsWalk (g a) q (g b) ∧ weight q = weight p := by
  induction p generalizing a with
  | nil => exact ⟨[], by simp, congrArg g hw, rfl⟩
  | cons e p ih =>
    obtain ⟨rfl, hw'⟩ := hw
    obtain ⟨he, hp'⟩ := cons_subset.mp hp
    obtain ⟨q, hq, hqw, hweight⟩ := ih hp' hw'
    obtain ⟨e', he', hsrc, hdst, hwe⟩ := hE e he
    refine ⟨e' :: q, cons_subset.mpr ⟨he', hq⟩, ⟨hsrc, ?_⟩, ?_⟩
    · rw [hdst]
      exact hqw
    · rw [weight_cons, weight_cons, hwe, hweight]

end

section

variable [AddCommGroup W] [LinearOrder W]

def IsDist (E : List ε) (a b : V) (d : W) : Prop :=
  IsLeast {w | ∃ p, p ⊆ E ∧ IsWalk a p b ∧ weight p = w} d

def Balanced (E : List ε) : Prop := ∀ a p, p ⊆ E → IsWalk a p a → 0 ≤ weight p

def Feasible (E : List ε) (φ : V → W) : Prop := ∀ e ∈ E, φ (dst e) ≤ φ (src e) + Arc.weight e

variable {d d' : W} {φ : V → W}

theorem IsDist.reaches (h : IsDist E a b d) : Reaches E a b := by
  obtain ⟨p, hp, hw, -⟩ := h.1
  exact ⟨p, hp, hw⟩

theorem IsDist.unique (h : IsDist E a b d) (h' : IsDist E a b d') : d = d' := IsLeast.unique h h'

variable [IsOrderedAddMonoid W]

theorem Feasible.le_weight (h : Feasible E φ) (hp : p ⊆ E) (hw : IsWalk a p b) : φ b ≤ φ a + weight p := by
  induction p generalizing a with
  | nil =>
    obtain rfl : a = b := hw
    simp
  | cons e p ih =>
    obtain ⟨rfl, hw'⟩ := hw
    have hsub := cons_subset.mp hp
    calc φ b ≤ φ (dst e) + weight p := ih hsub.2 hw'
      _ ≤ φ (src e) + Arc.weight e + weight p := by gcongr; exact h e hsub.1
      _ = φ (src e) + weight (e :: p) := by rw [weight_cons, add_assoc]

theorem Feasible.balanced (h : Feasible E φ) : Balanced E := by
  intro a p hp hw
  have := h.le_weight hp hw
  simpa using this

end

section

variable [AddCommGroup W] [LinearOrder W] [IsOrderedAddMonoid W]

def Closes (E : List ε) (e : ε) : Prop :=
  ∃ p, p ⊆ E ∧ IsWalk (dst e) p (src e) ∧ Arc.weight e + weight p < 0

theorem exists_walk_once (hc : ¬ Closes E e) (hp : p ⊆ e :: E) (hw : IsWalk a p b) :
    (∃ q, q ⊆ E ∧ IsWalk a q b ∧ weight q ≤ weight p) ∨ ∃ q r, q ⊆ E ∧ r ⊆ E ∧ IsWalk a q (src e) ∧
    IsWalk (dst e) r b ∧ weight q + Arc.weight e + weight r ≤ weight p := by
  induction p generalizing a with
  | nil => exact .inl ⟨[], by simp, hw, le_refl _⟩
  | cons f p ih =>
    obtain ⟨rfl, hw'⟩ := hw
    obtain ⟨hf, hp'⟩ := cons_subset.mp hp
    rcases mem_cons.mp hf with rfl | hf
    · right
      rcases ih hp' hw' with ⟨q, hq, hqw, hle⟩ | ⟨q, r, hq, hr, hqw, hrw, hle⟩
      · refine ⟨[], q, by simp, hq, rfl, hqw, ?_⟩
        simpa using hle
      · -- the new arc was met again: the cycle in between does not pay
        refine ⟨[], r, by simp, hr, rfl, hrw, ?_⟩
        have hcycle : 0 ≤ Arc.weight f + weight q := not_lt.mp fun hlt => hc ⟨q, hq, hqw, hlt⟩
        calc weight [] + Arc.weight f + weight r = 0 + (Arc.weight f + weight r) := by simp
          _ ≤ Arc.weight f + weight q + (Arc.weight f + weight r) := by gcongr
          _ = Arc.weight f + (weight q + Arc.weight f + weight r) := by abel
          _ ≤ Arc.weight f + weight p := by gcongr
          _ = weight (f :: p) := weight_cons.symm
    · rcases ih hp' hw' with ⟨q, hq, hqw, hle⟩ | ⟨q, r, hq, hr, hqw, hrw, hle⟩
      · exact .inl ⟨f :: q, cons_subset.mpr ⟨hf, hq⟩, ⟨rfl, hqw⟩, by simpa using hle⟩
      · refine .inr ⟨f :: q, r, cons_subset.mpr ⟨hf, hq⟩, hr, ⟨rfl, hqw⟩, hrw, ?_⟩
        simpa [add_assoc] using hle

end

variable {ε V W : Type*} [Arc ε V W] {E : List ε} {p : List ε} {a b v : V} {e : ε}

theorem IsWalk.concat_iff : IsWalk a (p ++ [e]) b ↔ IsWalk a p (src e) ∧ dst e = b := by
  rw [isWalk_append]
  constructor
  · rintro ⟨c, hp, rfl, hb⟩
    exact ⟨hp, hb⟩
  · rintro ⟨hp, hb⟩
    exact ⟨src e, hp, rfl, hb⟩

def Spans (vs : List V) (E : List ε) : Prop := ∀ e ∈ E, src e ∈ vs ∧ dst e ∈ vs

theorem Spans.vertices_subset {vs : List V} (h : Spans vs E) (hp : p ⊆ E) (hw : IsWalk a p b)
    (hne : p ≠ []) : vertices p b ⊆ vs := by
  cases p with
  | nil => exact absurd rfl hne
  | cons e p =>
    have hsub := cons_subset.mp hp
    exact vertices_of_forall hw (hw.1 ▸ (h e hsub.1).1) fun f hf => (h f (hp hf)).2

variable [AddCommGroup W] [LinearOrder W] [IsOrderedAddMonoid W]

theorem Balanced.exists_simple (h : Balanced E) (hp : p ⊆ E) (hw : IsWalk a p b) :
    ∃ q, q ⊆ E ∧ IsWalk a q b ∧ weight q ≤ weight p ∧ (vertices q b).Nodup := by
  induction p generalizing a with
  | nil => exact ⟨[], by simp, hw, le_refl _, by simp [vertices]⟩
  | cons e p ih =>
    obtain ⟨rfl, hw'⟩ := hw
    obtain ⟨he, hp'⟩ := cons_subset.mp hp
    obtain ⟨q, hq, hqw, hle, hnodup⟩ := ih hp' hw'
    by_cases hv : src e ∈ vertices q b
    · obtain ⟨r, s, rfl, hr, hs⟩ := hqw.split hv
      obtain ⟨hrE, hsE⟩ := append_subset.mp hq
      have hcycle := h (src e) (e :: r) (cons_subset.mpr ⟨he, hrE⟩) ⟨rfl, hr⟩
      refine ⟨s, hsE, hs, ?_, ?_⟩
      · calc weight s ≤ weight (e :: r) + weight s := le_add_of_nonneg_left hcycle
          _ = Arc.weight e + weight (r ++ s) := by rw [weight_cons, weight_append, add_assoc]
          _ ≤ Arc.weight e + weight p := by gcongr
          _ = weight (e :: p) := weight_cons.symm
      · have hsplit : vertices (r ++ s) b = r.map src ++ vertices s b := by simp [vertices]
        rw [hsplit] at hnodup
        exact (nodup_append.mp hnodup).2.1
    · refine ⟨e :: q, cons_subset.mpr ⟨he, hq⟩, ⟨rfl, hqw⟩, ?_, ?_⟩
      · rw [weight_cons, weight_cons]
        gcongr
      · exact nodup_cons.mpr ⟨hv, hnodup⟩

def Attained (E : List ε) (d₀ d : V → W) : Prop :=
  ∀ v, ∃ a p, p ⊆ E ∧ IsWalk a p v ∧ d v = d₀ a + weight p

def Settled (E : List ε) (d₀ : V → W) (k : ℕ) (d : V → W) : Prop :=
  ∀ a p v, p ⊆ E → IsWalk a p v → p.length ≤ k → d v ≤ d₀ a + weight p

variable {d₀ d d' : V → W} {k : ℕ} {vs : List V}

omit [LinearOrder W] [IsOrderedAddMonoid W] in
theorem attained_self : Attained E d₀ d₀ := fun v => ⟨v, [], by simp, rfl, by simp⟩

omit [IsOrderedAddMonoid W] in
theorem settled_zero : Settled E d₀ 0 d₀ := by
  intro a p v _ hw hlen
  obtain rfl := length_eq_zero_iff.mp (Nat.le_zero.mp hlen)
  obtain rfl : a = v := hw
  simp

omit [IsOrderedAddMonoid W] in
theorem Settled.mono (h : Settled E d₀ k d) (hle : ∀ v, d' v ≤ d v) : Settled E d₀ k d' :=
  fun a p v hp hw hlen => (hle v).trans (h a p v hp hw hlen)

omit [LinearOrder W] [IsOrderedAddMonoid W] in
theorem Attained.arc (h : Attained E d₀ d) (he : e ∈ E) :
    ∃ a p, p ⊆ E ∧ IsWalk a p (dst e) ∧ d (src e) + Arc.weight e = d₀ a + weight p := by
  obtain ⟨a, p, hp, hw, hd⟩ := h (src e)
  refine ⟨a, p ++ [e], ?_, IsWalk.concat_iff.mpr ⟨hw, rfl⟩, ?_⟩
  · exact append_subset.mpr ⟨hp, by simpa using he⟩
  · rw [hd, weight_append, weight_cons, weight_nil, add_zero, add_assoc]

omit [LinearOrder W] [IsOrderedAddMonoid W] in
theorem Attained.update [DecidableEq V] (h : Attained E d₀ d) {w : W}
    (hv : ∃ a p, p ⊆ E ∧ IsWalk a p v ∧ w = d₀ a + weight p) : Attained E d₀ (update d v w) := by
  intro u
  by_cases hu : u = v
  · subst hu
    rw [update_self]
    exact hv
  · rw [update_of_ne hu]
    exact h u

theorem Settled.le_weight (h : Settled E d₀ k d) (hb : Balanced E) (hvs : Spans vs E)
    (hk : vs.length ≤ k + 1) (hp : p ⊆ E) (hw : IsWalk a p v) : d v ≤ d₀ a + weight p := by
  obtain ⟨q, hq, hqw, hle, hnodup⟩ := hb.exists_simple hp hw
  have hlen : q.length ≤ k := by
    by_cases hne : q = []
    · simp [hne]
    · have := length_lt_of_vertices hnodup (hvs.vertices_subset hq hqw hne)
      omega
  exact (h a q v hq hqw hlen).trans (by gcongr)

theorem Settled.feasible (h : Settled E d₀ k d) (ha : Attained E d₀ d) (hb : Balanced E)
    (hvs : Spans vs E) (hk : vs.length ≤ k + 1) : Feasible E d := by
  intro e he
  obtain ⟨a, p, hp, hw, hd⟩ := ha.arc he
  rw [hd]
  exact h.le_weight hb hvs hk hp hw

omit [IsOrderedAddMonoid W] in
theorem Settled.start (h : Settled E d₀ k d) (v : V) : d v ≤ d₀ v := by
  simpa using h v [] v (by simp) rfl (Nat.zero_le k)

structure Shortest (E : List ε) (d₀ d : V → W) : Prop where
  feasible : Feasible E d
  attained : Attained E d₀ d
  start : ∀ v, d v ≤ d₀ v

theorem Shortest.le_weight (h : Shortest E d₀ d) (hp : p ⊆ E) (hw : IsWalk a p v) : d v ≤ d₀ a + weight p :=
  calc d v ≤ d a + weight p := h.feasible.le_weight hp hw
    _ ≤ d₀ a + weight p := by gcongr; exact h.start a

section

variable [DecidableEq V]

def relax (d : V → W) (e : ε) : V → W :=
  if d (src e) + Arc.weight e < d (dst e) then update d (dst e) (d (src e) + Arc.weight e)
  else d

omit [IsOrderedAddMonoid W] in
theorem relax_le (d : V → W) (e : ε) (v : V) : relax d e v ≤ d v := by
  unfold relax
  split
  · next hlt =>
    by_cases hv : v = dst e
    · subst hv
      rw [update_self]
      exact hlt.le
    · rw [update_of_ne hv]
  · exact le_refl _

omit [IsOrderedAddMonoid W] in
theorem relax_dst_le (d : V → W) (e : ε) : relax d e (dst e) ≤ d (src e) + Arc.weight e := by
  unfold relax
  split
  · rw [update_self]
  · next hge => exact not_lt.mp hge

omit [IsOrderedAddMonoid W] in
theorem Attained.relax (h : Attained E d₀ d) (he : e ∈ E) : Attained E d₀ (relax d e) := by
  unfold Graph.relax
  split
  · exact h.update (h.arc he)
  · exact h

def sweep (l : List ε) (d : V → W) : V → W := l.foldl relax d

omit [IsOrderedAddMonoid W] in
theorem sweep_le (l : List ε) (d : V → W) (v : V) : sweep l d v ≤ d v := by
  induction l generalizing d with
  | nil => exact le_refl _
  | cons e l ih => exact (ih _).trans (relax_le d e v)

variable {l : List ε}

theorem sweep_dst_le (he : e ∈ l) (d : V → W) : sweep l d (dst e) ≤ d (src e) + Arc.weight e := by
  induction l generalizing d with
  | nil => simp at he
  | cons f l ih =>
    show sweep l (Graph.relax d f) (dst e) ≤ _
    rcases mem_cons.mp he with rfl | he
    · exact (sweep_le l _ _).trans (relax_dst_le d e)
    · exact (ih he _).trans (by gcongr; exact relax_le d f (src e))

omit [IsOrderedAddMonoid W] in
theorem Attained.sweep (hl : l ⊆ E) (h : Attained E d₀ d) : Attained E d₀ (sweep l d) := by
  induction l generalizing d with
  | nil => exact h
  | cons e l ih =>
    obtain ⟨he, hl'⟩ := cons_subset.mp hl
    exact ih hl' (h.relax he)

theorem Settled.sweep (hl : E ⊆ l) (h : Settled E d₀ k d) : Settled E d₀ (k + 1) (sweep l d) := by
  intro a p v hp hw hlen
  rcases eq_nil_or_concat' p with rfl | ⟨q, e, rfl⟩
  · exact (sweep_le l d v).trans (h a [] v (by simp) hw (Nat.zero_le k))
  · obtain ⟨hq, rfl⟩ := IsWalk.concat_iff.mp hw
    obtain ⟨hqE, he⟩ := append_subset.mp hp
    have hstart := h a q (src e) hqE hq (by simpa using hlen)
    calc Graph.sweep l d (dst e) ≤ d (src e) + Arc.weight e := sweep_dst_le (hl (by simpa using he)) d
      _ ≤ d₀ a + weight q + Arc.weight e := by gcongr
      _ = d₀ a + weight (q ++ [e]) := by simp [add_assoc]

end

section

/-- The first part of the queue is the rest of the present generation, the second the next one.
The arcs of the vertices that are done with this generation have been relaxed from its values, and
those of the vertices outside the queue hold. -/
structure Generation (E : List ε) (d₀ : V → W) (k : ℕ) (now next : List V) (d : V → W) : Prop where
  attained : Attained E d₀ d
  settled : Settled E d₀ k d
  done : ∀ e ∈ E, src e ∉ now → ∀ a p, p ⊆ E → IsWalk a p (src e) → p.length ≤ k →
    d (dst e) ≤ d₀ a + weight p + Arc.weight e
  idle : ∀ e ∈ E, src e ∉ now ++ next → d (dst e) ≤ d (src e) + Arc.weight e

variable {now next next' : List V} {u : V}

theorem generation_start {queue : List V} (h : ∀ e ∈ E, src e ∉ queue → d₀ (dst e) ≤ d₀ (src e) + Arc.weight e) :
    Generation E d₀ 0 queue [] d₀ := by
  refine ⟨attained_self, settled_zero, ?_, ?_⟩
  · intro e he hsrc a p hp hw hlen
    have hstart : d₀ (src e) ≤ d₀ a + weight p := settled_zero a p (src e) hp hw hlen
    exact (h e he hsrc).trans (by gcongr)
  · intro e he hsrc
    exact h e he (by simpa using hsrc)

theorem Generation.visit (h : Generation E d₀ k (u :: now) next d) (hle : ∀ v, d' v ≤ d v) (hat : Attained E d₀ d')
    (hu : ∀ e ∈ E, src e = u → d' (dst e) ≤ d u + Arc.weight e) (hch : ∀ v, d' v ≠ d v → v ∈ now ++ next')
    (hsub : next ⊆ next') : Generation E d₀ k now next' d' := by
  refine ⟨hat, h.settled.mono hle, ?_, ?_⟩
  · intro e he hsrc a p hp hw hlen
    by_cases heu : src e = u
    · have hstart := h.settled a p (src e) hp hw hlen
      rw [heu] at hstart
      exact (hu e he heu).trans (by gcongr)
    · have hsrc' : src e ∉ u :: now := by simp [heu, hsrc]
      exact (hle _).trans (h.done e he hsrc' a p hp hw hlen)
  · intro e he hsrc
    have hsame : d' (src e) = d (src e) := by
      by_contra hne
      exact hsrc (hch _ hne)
    by_cases heu : src e = u
    · rw [hsame, heu]
      exact hu e he heu
    · have hsrc' : src e ∉ u :: now ++ next := by
        simp only [cons_append, mem_cons, mem_append, not_or] at hsrc ⊢
        exact ⟨heu, hsrc.1, fun hn => hsrc.2 (hsub hn)⟩
      rw [hsame]
      exact (hle _).trans (h.idle e he hsrc')

theorem Generation.turn (h : Generation E d₀ k [] next d) : Generation E d₀ (k + 1) next [] d := by
  have hsettled : Settled E d₀ (k + 1) d := by
    intro a p v hp hw hlen
    rcases eq_nil_or_concat' p with rfl | ⟨q, e, rfl⟩
    · exact h.settled a [] v (by simp) hw (Nat.zero_le k)
    · obtain ⟨hq, rfl⟩ := IsWalk.concat_iff.mp hw
      obtain ⟨hqE, he⟩ := append_subset.mp hp
      have hle := h.done e (by simpa using he) (by simp) a q hqE hq (by simpa using hlen)
      simpa [add_assoc] using hle
  refine ⟨h.attained, hsettled, ?_, ?_⟩
  · intro e he hsrc a p hp hw hlen
    have hstart := hsettled a p (src e) hp hw hlen
    exact (h.idle e he (by simpa using hsrc)).trans (by gcongr)
  · intro e he hsrc
    exact h.idle e he (by simpa using hsrc)

omit [IsOrderedAddMonoid W] in
theorem Generation.feasible (h : Generation E d₀ k [] [] d) : Feasible E d :=
  fun e he => h.idle e he (by simp)

end

end Nixie.Graph
