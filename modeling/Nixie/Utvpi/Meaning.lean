import Nixie.Utvpi.Search
import Mathlib.Data.Real.Basic

/-!
What the edges of the doubled graph say about values of the variables.
-/

namespace Nixie.Utvpi

open Nixie.Graph List BigDeltaRational DoubledGraph

section

variable {K : Type*} [Field K] [LinearOrder K]

def Sign.apply (sign : Sign) (r : K) : K :=
  match sign with
  | .zero => 0
  | .positive => r
  | .negative => -r

def UtConstraint.lhs (c : UtConstraint) (X : ℕ → K) : K := c.a.apply (X c.x) + c.b.apply (X c.y)

def UtConstraint.Holds (c : UtConstraint) (X : ℕ → K) : Prop :=
  if c.strict then c.lhs X < (c.bound : K) else c.lhs X ≤ (c.bound : K)

end

def Solvable (isInteger : Bool) (cs : List UtConstraint) : Prop :=
  if isInteger then ∃ X : ℕ → ℤ, ∀ c ∈ cs, c.Holds fun v => (X v : ℝ)
  else ∃ X : ℕ → ℝ, ∀ c ∈ cs, c.Holds X

variable {c : UtConstraint} {e : UtEdge} {X : ℕ → ℝ} {isInteger : Bool} {i : ℕ}

namespace BigDeltaRational

variable (a b : BigDeltaRational)

@[simp]
theorem real_add : (a + b).real = a.real + b.real := rfl

@[simp]
theorem delta_add : (a + b).delta = a.delta + b.delta := rfl

@[simp]
theorem real_zero : (0 : BigDeltaRational).real = 0 := rfl

@[simp]
theorem delta_zero : (0 : BigDeltaRational).delta = 0 := rfl

@[simp]
theorem real_mk (r s : ℚ) : (mk r s).real = r := rfl

@[simp]
theorem delta_mk (r s : ℚ) : (mk r s).delta = s := rfl

variable {a b}

theorem le_iff : a ≤ b ↔ a.real < b.real ∨ (a.real = b.real ∧ a.delta ≤ b.delta) := Prod.Lex.le_iff

end BigDeltaRational

def Within (r : ℝ) (w : BigDeltaRational) : Prop :=
  r ≤ (w.real : ℝ) ∧ (w.delta < 0 → r < (w.real : ℝ))

theorem Within.add {r s : ℝ} {w u : BigDeltaRational} (hr : Within r w) (hs : Within s u) : Within (r + s) (w + u) := by
  obtain ⟨hr, hr'⟩ := hr
  obtain ⟨hs, hs'⟩ := hs
  refine ⟨?_, fun hlt => ?_⟩
  · rw [real_add]
    push_cast
    exact add_le_add hr hs
  · rw [delta_add] at hlt
    rw [real_add]
    push_cast
    by_cases hw : w.delta < 0
    · exact add_lt_add_of_lt_of_le (hr' hw) hs
    · exact add_lt_add_of_le_of_lt hr (hs' (by linarith [not_lt.mp hw]))

theorem Within.double {r : ℝ} {w : BigDeltaRational} (h : Within r w) :
    Within (r + r) (.mk (w.real * 2) (w.delta * 2)) := by
  have hw : mk (w.real * 2) (w.delta * 2) = w + w := by
    rw [mul_two, mul_two]
    rfl
  rw [hw]
  exact h.add h

theorem UtConstraint.lhs_integral (hX : ∀ v, ∃ k : ℤ, X v = k) : ∃ m : ℤ, c.lhs X = m := by
  have hsign : ∀ (s : Sign) v, ∃ m : ℤ, s.apply (X v) = m := by
    intro s v
    obtain ⟨k, hk⟩ := hX v
    cases s with
    | positive => exact ⟨k, hk⟩
    | negative => exact ⟨-k, by simp [Sign.apply, hk]⟩
    | zero => exact ⟨0, by simp [Sign.apply]⟩
  obtain ⟨m, hm⟩ := hsign c.a c.x
  obtain ⟨k, hk⟩ := hsign c.b c.y
  exact ⟨m + k, by simp [UtConstraint.lhs, hm, hk]⟩

theorem UtConstraint.Holds.within (h : c.Holds X)
    (hint : isInteger = true → ∀ v, ∃ k : ℤ, X v = k) : Within (c.lhs X) (c.effectiveBound isInteger) := by
  unfold UtConstraint.Holds at h
  unfold UtConstraint.effectiveBound
  cases isInteger with
  | true =>
    obtain ⟨m, hm⟩ := c.lhs_integral (hint rfl)
    rw [hm] at h ⊢
    refine ⟨?_, fun hlt => absurd hlt (lt_irrefl _)⟩
    cases hs : c.strict with
    | true =>
      rw [hs, if_pos rfl] at h
      have hlt : m < ⌈c.bound⌉ := Int.lt_ceil.mpr (by exact_mod_cast h)
      have hle : m ≤ ⌈c.bound⌉ - 1 := by omega
      simp only [↓reduceIte, realOnly, real_mk]
      exact_mod_cast hle
    | false =>
      rw [hs] at h
      have hle : m ≤ ⌊c.bound⌋ := Int.le_floor.mpr (by exact_mod_cast h)
      simp only [↓reduceIte, realOnly, real_mk, Bool.false_eq_true]
      exact_mod_cast hle
  | false =>
    simp only [Bool.false_eq_true, ↓reduceIte]
    cases hs : c.strict with
    | true =>
      rw [hs, if_pos rfl] at h
      exact ⟨h.le, fun _ => h⟩
    | false =>
      rw [hs] at h
      exact ⟨h, fun hlt => absurd hlt (lt_irrefl _)⟩

def nodeValue (X : ℕ → ℝ) (M : ℝ) : DoubledNode → ℝ
  | .source => M
  | .node u true => X u
  | .node u false => -X u

theorem within_edgesOf {M : ℝ} (h : Within (c.lhs X) (c.effectiveBound isInteger))
    (he : e ∈ edgesOf isInteger i c) : Within (nodeValue X M e.dst - nodeValue X M e.src) e.weight := by
  unfold edgesOf DoubledGraph.translate at he
  unfold UtConstraint.lhs at h
  have hd := h.double
  generalize c.effectiveBound isInteger = w at *
  -- an edge between two nodes carries the bound, an edge between the nodes of one variable twice it
  have hcong : ∀ {r s : ℝ} {u : BigDeltaRational}, Within r u → s = r → Within s u :=
    fun h hrs => hrs ▸ h
  cases ha : c.a <;> cases hb : c.b <;>
    simp only [ha, hb, map_cons, map_nil, mem_cons, not_mem_nil, or_false, Sign.apply] at he h hd
  all_goals obtain rfl | rfl := he
  all_goals
    first
    | refine hcong h ?_
      simp only [nodeValue, DoubledNode.positive, DoubledNode.negative]
      ring
    | refine hcong hd ?_
      simp only [nodeValue, DoubledNode.positive, DoubledNode.negative]
      ring

section

variable {E p : List UtEdge} {φ : DoubledNode → ℝ} {a b : DoubledNode} {d : Distances}

theorem within_walk (hE : ∀ e ∈ E, Within (φ e.dst - φ e.src) e.weight) (hp : p ⊆ E)
    (hw : IsWalk a p b) : Within (φ b - φ a) (weight p) := by
  induction p generalizing a with
  | nil =>
    obtain rfl : a = b := hw
    rw [sub_self]
    exact ⟨by simp, fun h => absurd h (lt_irrefl _)⟩
  | cons e p ih =>
    obtain ⟨rfl, hw'⟩ := hw
    obtain ⟨he, hp'⟩ := cons_subset.mp hp
    have hsum := (hE e he).add (ih hp' hw')
    rw [weight_cons]
    have heq : φ b - φ e.src = φ e.dst - φ e.src + (φ b - φ e.dst) := by ring
    show Within (φ b - φ e.src) _
    rw [heq]
    exact hsum

theorem balanced_of_within (hE : ∀ e ∈ E, Within (φ e.dst - φ e.src) e.weight) : Balanced E := by
  intro a p hp hw
  obtain ⟨hle, hlt⟩ := within_walk hE hp hw
  rw [sub_self] at hle hlt
  have hreal : 0 ≤ (weight p).real := by exact_mod_cast hle
  rw [le_iff]
  rcases hreal.lt_or_eq with hpos | hzero
  · exact .inl hpos
  · refine .inr ⟨hzero, ?_⟩
    by_contra hneg
    have := hlt (not_le.mp hneg)
    rw [← hzero, Rat.cast_zero] at this
    exact lt_irrefl _ this

def Tight (E : List UtEdge) (d : Distances) (a b : DoubledNode) : Prop :=
  ∃ p, p ⊆ E ∧ IsWalk a p b ∧ d b = d a + weight p

theorem Tight.arc {e : UtEdge} (h : Tight E d a e.src) (he : e ∈ E) (hd : d e.dst = d e.src + e.weight) :
    Tight E d a e.dst := by
  obtain ⟨p, hp, hw, hda⟩ := h
  refine ⟨p ++ [e], append_subset.mpr ⟨hp, by simpa using he⟩, IsWalk.concat_iff.mpr ⟨hw, rfl⟩, ?_⟩
  rw [hd, hda, weight_append, weight_cons, weight_nil, add_zero, add_assoc]
  rfl

def Reached (E : List UtEdge) (d : Distances) (a : DoubledNode)
    (st : List DoubledNode × (DoubledNode → Bool)) : Prop :=
  (∀ v ∈ st.1, Tight E d a v) ∧ ∀ v, st.2 v = true → Tight E d a v

theorem Reached.visitEdge {st : List DoubledNode × (DoubledNode → Bool)} {e : UtEdge} (h : Reached E d a st)
    (hsrc : Tight E d a e.src) (he : e ∈ E) : Reached E d a (visitEdge d e.src st e) := by
  unfold Utvpi.visitEdge
  split
  · next hcond =>
    have heq : d e.dst = d e.src + e.weight := of_decide_eq_true (Bool.and_eq_true_iff.mp hcond).2
    have hdst := hsrc.arc he heq
    refine ⟨fun v hv => ?_, fun v hv => ?_⟩
    · rcases mem_cons.mp hv with rfl | hv
      · exact hdst
      · exact h.1 v hv
    · by_cases hve : v = e.dst
      · rw [hve]
        exact hdst
      · dsimp only at hv
        rw [Function.update_of_ne hve] at hv
        exact h.2 v hv
  · exact h

theorem Reached.foldl {st : List DoubledNode × (DoubledNode → Bool)} {node : DoubledNode}
    {l : List UtEdge} (h : Reached E d a st) (hnode : Tight E d a node)
    (hl : ∀ e ∈ l, e.src = node ∧ e ∈ E) : Reached E d a (l.foldl (Utvpi.visitEdge d node) st) := by
  induction l generalizing st with
  | nil => exact h
  | cons e l ih =>
    obtain ⟨rfl, he⟩ := hl e (by simp)
    exact ih (h.visitEdge hnode he) fun f hf => hl f (by simp [hf])

theorem tightWalk_sound {graph : DoubledGraph} (hE : ∀ v, ∀ e ∈ graph.edges v, e.src = v ∧ e ∈ E)
    (fuel : ℕ) (todo : List DoubledNode) (seen : DoubledNode → Bool) (h : Reached E d a (todo, seen))
    (v : DoubledNode) (hv : tightWalk graph d fuel todo seen v = true) : Tight E d a v := by
  induction fuel generalizing todo seen with
  | zero => exact h.2 v hv
  | succ fuel ih =>
    cases todo with
    | nil => exact h.2 v hv
    | cons node todo =>
      rw [tightWalk] at hv
      have hrest : Reached E d a (todo, seen) := ⟨fun u hu => h.1 u (by simp [hu]), h.2⟩
      exact ih _ _ (hrest.foldl (h.1 node (by simp)) (hE node)) hv

theorem tightSuccessors_sound {graph : DoubledGraph} (hE : ∀ v, ∀ e ∈ graph.edges v, e.src = v ∧ e ∈ E)
    {v : DoubledNode} (hv : tightSuccessors graph d a v = true) : Tight E d a v := by
  have hstart : Tight E d a a := ⟨[], by simp, rfl, by simp⟩
  refine tightWalk_sound hE _ [a] _ ⟨?_, ?_⟩ v hv
  · intro u hu
    rw [mem_singleton.mp hu]
    exact hstart
  · intro u hu
    rw [of_decide_eq_true hu]
    exact hstart

theorem value_of_tight {M : ℝ} {v : ℕ} {X : ℕ → ℝ}
    (hE : ∀ e ∈ E, Within (nodeValue X M e.dst - nodeValue X M e.src) e.weight)
    (hpos : Tight E d (.positive v) (.negative v)) (hneg : Tight E d (.negative v) (.positive v)) :
    X v = ((((d (.positive v)).real - (d (.negative v)).real) / 2 : ℚ) : ℝ) := by
  obtain ⟨p, hp, hpw, hdp⟩ := hpos
  obtain ⟨q, hq, hqw, hdq⟩ := hneg
  have hle := (within_walk hE hp hpw).1
  have hge := (within_walk hE hq hqw).1
  have hpr : (weight p).real = (d (.negative v)).real - (d (.positive v)).real := by
    rw [hdp]
    simp
  have hqr : (weight q).real = (d (.positive v)).real - (d (.negative v)).real := by
    rw [hdq]
    simp
  rw [hpr] at hle
  rw [hqr] at hge
  simp only [nodeValue, DoubledNode.positive, DoubledNode.negative] at hle hge ⊢
  push_cast at hle hge ⊢
  linarith

end

section

variable {E : List UtEdge} {d : Distances}

def BigDeltaRational.at (w : BigDeltaRational) (epsilon : ℚ) : ℚ := w.real + w.delta * epsilon

theorem chooseEpsilon_spec (hf : Feasible E d) {start : ℚ} (hstart : 0 < start) :
    ∃ epsilon, chooseEpsilon d E start = some epsilon ∧ 0 < epsilon ∧ epsilon ≤ start ∧
    ∀ e ∈ E, (d e.dst).at epsilon ≤ (d e.src).at epsilon + e.weight.at epsilon := by
  induction E generalizing start with
  | nil => exact ⟨start, rfl, hstart, le_refl _, by simp⟩
  | cons e E ih =>
    have hf' : Feasible E d := fun f hf' => hf f (by simp [hf'])
    have hle : d e.dst ≤ d e.src + e.weight := hf e (by simp)
    rw [le_iff, real_add, delta_add] at hle
    generalize hreal : (edgeSlack d e).real = real
    generalize hdelta : (edgeSlack d e).delta = delta
    have hreal' : real = (d e.dst).real - (d e.src).real - e.weight.real := hreal.symm
    have hdelta' : delta = (d e.dst).delta - (d e.src).delta - e.weight.delta := hdelta.symm
    have hmeets : ∀ epsilon : ℚ, real + delta * epsilon ≤ 0 →
        (d e.dst).at epsilon ≤ (d e.src).at epsilon + e.weight.at epsilon := by
      intro epsilon hsum
      rw [hreal', hdelta'] at hsum
      unfold BigDeltaRational.at
      linarith
    have hslack : real < 0 ∨ (real = 0 ∧ delta ≤ 0) := by
      rcases hle with hlt | ⟨heq, hle⟩
      · left; linarith
      · right; constructor <;> linarith
    have hnone : ¬ (0 < real ∨ (real = 0 ∧ 0 < delta)) := by
      rcases hslack with hlt | ⟨heq, hle⟩
      · rintro (h | ⟨h, -⟩) <;> linarith
      · rintro (h | ⟨-, h⟩) <;> linarith
    unfold chooseEpsilon
    simp only [hreal, hdelta, if_neg hnone]
    by_cases hpos : 0 < delta
    · -- the slack is negative, and half of it is left for the infinitesimal
      have hneg : real < 0 := by
        rcases hslack with hlt | ⟨-, hle⟩
        · exact hlt
        · exact absurd hpos (not_lt.mpr hle)
      have hbound : 0 < -real / (2 * delta) := div_pos (by linarith) (by linarith)
      rw [if_pos hpos]
      obtain ⟨epsilon, hsome, heps, hle', hall⟩ := ih hf' (lt_min hstart hbound)
      refine ⟨epsilon, hsome, heps, hle'.trans (min_le_left _ _), fun f hf => ?_⟩
      rcases mem_cons.mp hf with rfl | hf
      · apply hmeets
        have hcap : epsilon ≤ -real / (2 * delta) := hle'.trans (min_le_right _ _)
        rw [le_div_iff₀ (by linarith)] at hcap
        linarith
      · exact hall f hf
    · rw [if_neg hpos]
      obtain ⟨epsilon, hsome, heps, hle', hall⟩ := ih hf' hstart
      refine ⟨epsilon, hsome, heps, hle', fun f hf => ?_⟩
      rcases mem_cons.mp hf with rfl | hf
      · apply hmeets
        have hprod : delta * epsilon ≤ 0 := mul_nonpos_of_nonpos_of_nonneg (not_lt.mp hpos) heps.le
        rcases hslack with hlt | ⟨heq, -⟩ <;> linarith
      · exact hall f hf

theorem lhs_le_of_edges (ψ : DoubledNode → ℚ) {epsilon : ℚ}
    (h : ∀ e ∈ edgesOf isInteger i c, ψ e.dst ≤ ψ e.src + e.weight.at epsilon) :
    c.lhs (fun v => (ψ (.positive v) - ψ (.negative v)) / 2) ≤ (c.effectiveBound isInteger).at epsilon := by
  unfold edgesOf DoubledGraph.translate at h
  unfold UtConstraint.lhs
  generalize c.effectiveBound isInteger = w at *
  cases ha : c.a <;> cases hb : c.b <;>
    simp only [ha, hb, map_cons, map_nil, mem_cons, not_mem_nil, or_false,
      forall_eq_or_imp, forall_eq, Sign.apply, BigDeltaRational.at, BigDeltaRational.real_mk,
      delta_mk] at h ⊢ <;>
    linarith

end

end Nixie.Utvpi
