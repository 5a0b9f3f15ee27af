import Nixie.DiffLogic.DenseMatrix
import Nixie.Graph.Relax

/-!
The matrix as the exact closure of the asserted edges.
-/

namespace Nixie.DiffLogic

open Nixie.Graph List

instance : Arc DlEdge ℕ ℤ := ⟨DlEdge.src, DlEdge.dst, DlEdge.offset⟩

variable {f g : ℕ → ℕ → Cell} {edges E : List DlEdge} {a b c x y n : ℕ} {e : DlEdge}
  {p q : List DlEdge}

inductive Decomposes (f : ℕ → ℕ → Cell) (edges : List DlEdge) : ℕ → ℕ → List DlEdge → Prop
  | nil {a : ℕ} : (f a a).dist = 0 → Decomposes f edges a a []
  | step {a b : ℕ} {e : DlEdge} {p q : List DlEdge} :
      a ≠ b → (f a b).edge < selfEdge → edges[(f a b).edge]? = some e →
      (f a b).dist = (f a e.src).dist + e.offset + (f e.dst b).dist →
      Decomposes f edges a e.src p → Decomposes f edges e.dst b q →
      Decomposes f edges a b (p ++ e :: q)

theorem Decomposes.subset (h : Decomposes f edges a b p) : p ⊆ edges := by
  induction h with
  | nil => simp
  | step _ _ he _ _ _ ihp ihq =>
    exact append_subset.mpr ⟨ihp, cons_subset.mpr ⟨mem_of_getElem? he, ihq⟩⟩

theorem Decomposes.isWalk (h : Decomposes f edges a b p) : IsWalk a p b := by
  induction h with
  | nil => rfl
  | step _ _ _ _ _ _ ihp ihq => exact ihp.append ⟨rfl, ihq⟩

theorem Decomposes.weight_eq (h : Decomposes f edges a b p) : weight p = (f a b).dist := by
  induction h with
  | nil h0 => exact h0.symm
  | step _ _ _ hd _ _ ihp ihq =>
    rw [weight_append, weight_cons, ihp, ihq, hd, add_assoc]
    rfl

structure Closed (n : ℕ) (f : ℕ → ℕ → Cell) (edges E : List DlEdge) : Prop where
  nodes : n ≤ dlMaxNodes
  outside : ∀ a b, ¬ (a < n ∧ b < n) → f a b = .unreachable
  diag : ∀ a < n, f a a = ⟨0, selfEdge⟩
  arcs : ∀ e ∈ E, e.src < n ∧ e.dst < n ∧ |e.offset| ≤ dlMaxAbsWeight
  stored : edges ⊆ E
  least : ∀ a b p, a < n → p ⊆ E → IsWalk a p b → (f a b).dist ≠ dlInf ∧ (f a b).dist ≤ weight p
  unknown : ∀ a b, (f a b).dist = dlInf → (f a b).edge = noEdge
  explained : ∀ a b, (f a b).dist ≠ dlInf →
    ∃ p, Decomposes f edges a b p ∧ (vertices p b).Nodup

section

variable (h : Closed n f edges E)
include h

theorem Closed.lt (hk : (f a b).dist ≠ dlInf) : a < n ∧ b < n := by
  by_contra hab
  exact hk (by rw [h.outside a b hab]; rfl)

theorem Closed.isDist (hk : (f a b).dist ≠ dlInf) : IsDist E a b (f a b).dist := by
  obtain ⟨p, hp, -⟩ := h.explained a b hk
  refine ⟨⟨p, List.Subset.trans hp.subset h.stored, hp.isWalk, hp.weight_eq⟩, ?_⟩
  rintro w ⟨q, hq, hw, rfl⟩
  exact (h.least a b q (h.lt hk).1 hq hw).2

theorem Closed.known_iff (ha : a < n) : (f a b).dist ≠ dlInf ↔ Reaches E a b := by
  constructor
  · intro hk
    exact (h.isDist hk).reaches
  · rintro ⟨p, hp, hw⟩
    exact (h.least a b p ha hp hw).1

theorem Closed.edge_ne_noEdge (hk : (f a b).dist ≠ dlInf) : (f a b).edge ≠ noEdge := by
  obtain ⟨p, hp, -⟩ := h.explained a b hk
  cases hp with
  | nil h0 =>
    rw [h.diag _ (h.lt hk).1]
    decide
  | step _ hlt =>
    intro he
    rw [he] at hlt
    exact absurd hlt (by decide)

end

theorem abs_weight_le {m : ℤ} (hp : ∀ e ∈ p, |e.offset| ≤ m) : |weight p| ≤ p.length * m := by
  induction p with
  | nil => simp
  | cons e p ih =>
    have hrec := ih fun e' he' => hp e' (by simp [he'])
    have he : |e.offset| ≤ m := hp e (by simp)
    rw [weight_cons, length_cons]
    push_cast
    calc |Arc.weight e + weight p| ≤ |e.offset| + |weight p| := abs_add_le _ _
      _ ≤ (p.length + 1) * m := by linarith

section

variable (h : Closed n f edges E)
include h

theorem Closed.abs_dist_le (hk : (f a b).dist ≠ dlInf) : |(f a b).dist| ≤ 2047 * 2 ^ 40 := by
  obtain ⟨p, hp, hnodup⟩ := h.explained a b hk
  have hsub := List.Subset.trans hp.subset h.stored
  have hnodes : ∀ v ∈ vertices p b, v < n :=
    vertices_of_forall hp.isWalk (h.lt hk).1 fun e he => (h.arcs e (hsub he)).2.1
  have hlt := length_lt_of_vertices hnodup fun v hv => mem_range.mpr (hnodes v hv)
  rw [length_range] at hlt
  have hn : n ≤ 2048 := h.nodes
  rw [← hp.weight_eq]
  calc |weight p| ≤ p.length * dlMaxAbsWeight := abs_weight_le fun e he => (h.arcs e (hsub he)).2.2
    _ ≤ 2047 * 2 ^ 40 := by
      have : (p.length : ℤ) ≤ 2047 := by omega
      unfold dlMaxAbsWeight
      omega

theorem Closed.triangle (hab : (f a b).dist ≠ dlInf) (hbc : (f b c).dist ≠ dlInf) : (f a c).dist ≠ dlInf ∧
    (f a c).dist ≤ (f a b).dist + (f b c).dist := by
  obtain ⟨p, hp, hpw, hpd⟩ := (h.isDist hab).1
  obtain ⟨q, hq, hqw, hqd⟩ := (h.isDist hbc).1
  have := h.least a c (p ++ q) (h.lt hab).1 (append_subset.mpr ⟨hp, hq⟩) (hpw.append hqw)
  rwa [weight_append, hpd, hqd] at this

theorem Closed.balanced : Balanced E := by
  intro a p hp hw
  cases p with
  | nil => simp
  | cons e p =>
    have ha : a < n := hw.1 ▸ (h.arcs e (hp (by simp))).1
    have := (h.least a a _ ha hp hw).2
    rwa [h.diag a ha] at this

theorem Closed.closes_iff (hd : e.dst < n) : Closes E e ↔ (f e.dst e.src).dist ≠ dlInf ∧
    e.offset + (f e.dst e.src).dist < 0 := by
  constructor
  · rintro ⟨p, hp, hw, hlt⟩
    obtain ⟨hk, hle⟩ := h.least e.dst e.src p hd hp hw
    refine ⟨hk, ?_⟩
    have hlt' : e.offset + weight p < 0 := hlt
    omega
  · rintro ⟨hk, hlt⟩
    obtain ⟨p, hp, hw, hpd⟩ := (h.isDist hk).1
    refine ⟨p, hp, hw, ?_⟩
    show e.offset + weight p < 0
    omega

theorem Closed.cons_of_le (hs : e.src < n) (hd : e.dst < n) (hw : |e.offset| ≤ dlMaxAbsWeight)
    (hc : ¬ Closes E e) (hle : (f e.src e.dst).dist ≤ e.offset) : Closed n f edges (e :: E) := by
  have hk : (f e.src e.dst).dist ≠ dlInf := by
    intro heq
    rw [heq] at hle
    have := (abs_le.mp hw).2
    unfold dlInf dlMaxAbsWeight at *
    omega
  refine ⟨h.nodes, h.outside, h.diag, ?_, fun e' he' => mem_cons_of_mem _ (h.stored he'), ?_, h.unknown, h.explained⟩
  · rintro e' he'
    rcases mem_cons.mp he' with rfl | he'
    · exact ⟨hs, hd, hw⟩
    · exact h.arcs e' he'
  · intro a b p ha hp hpw
    rcases exists_walk_once hc hp hpw with ⟨q, hq, hqw, hle'⟩ | ⟨q, r, hq, hr, hqw, hrw, hle'⟩
    · obtain ⟨hk', hq'⟩ := h.least a b q ha hq hqw
      exact ⟨hk', hq'.trans hle'⟩
    · obtain ⟨hk₁, hq'⟩ := h.least a e.src q ha hq hqw
      obtain ⟨hk₂, hr'⟩ := h.least e.dst b r hd hr hrw
      obtain ⟨hk₃, h₃⟩ := h.triangle hk₁ hk
      obtain ⟨hk₄, h₄⟩ := h.triangle hk₃ hk₂
      refine ⟨hk₄, ?_⟩
      have : weight q + e.offset + weight r ≤ weight p := hle'
      omega

end

theorem setCell_node (hab : a < n ∨ b < n) : setCell f n n ⟨0, selfEdge⟩ a b = f a b := by
  apply setCell_of_ne
  omega

theorem Closed.decomposes_node (h : Closed n f edges E) (hp : Decomposes f edges a b p) (ha : a < n) : Decomposes
    (setCell f n n ⟨0, selfEdge⟩) edges a b p := by
  induction hp with
  | @nil a h0 =>
    refine .nil ?_
    rwa [setCell_node (.inl ha)]
  | @step a b c p q hne hlt hc hd hp hq ihp ihq =>
    obtain ⟨hsrc, hdst, -⟩ := h.arcs c (h.stored (mem_of_getElem? hc))
    refine .step hne ?_ ?_ ?_ (ihp ha) (ihq hdst)
    · rwa [setCell_node (.inl ha)]
    · rwa [setCell_node (.inl ha)]
    · rwa [setCell_node (.inl ha), setCell_node (.inl ha), setCell_node (.inl hdst)]

theorem Closed.internNode (h : Closed n f edges E) (hn : n < dlMaxNodes) :
    Closed (n + 1) (setCell f n n ⟨0, selfEdge⟩) edges E := by
  have hold : ∀ {a b}, ¬ (a = n ∧ b = n) → setCell f n n ⟨0, selfEdge⟩ a b = f a b :=
    fun hab => setCell_of_ne hab
  refine ⟨hn, ?_, ?_, ?_, h.stored, ?_, ?_, ?_⟩
  · intro a b hab
    rw [hold (by omega)]
    exact h.outside a b (by omega)
  · intro a ha
    by_cases han : a = n
    · subst han
      simp
    · rw [hold (by omega)]
      exact h.diag a (by omega)
  · intro e he
    obtain ⟨hs, hd, hw⟩ := h.arcs e he
    exact ⟨by omega, by omega, hw⟩
  · intro a b p ha hp hw
    by_cases hab : a = n ∧ b = n
    · obtain ⟨rfl, rfl⟩ := hab
      rw [setCell_self]
      exact ⟨by decide, h.balanced _ p hp hw⟩
    · rw [hold hab]
      -- a walk from the new node is empty, and then ends there
      have ha' : a < n := by
        cases p with
        | nil =>
          obtain rfl : a = b := hw
          omega
        | cons e p => exact hw.1 ▸ (h.arcs e (hp (by simp))).1
      exact h.least a b p ha' hp hw
  · intro a b hinf
    by_cases hab : a = n ∧ b = n
    · obtain ⟨rfl, rfl⟩ := hab
      rw [setCell_self] at hinf
      exact absurd hinf (by decide)
    · rw [hold hab] at hinf ⊢
      exact h.unknown a b hinf
  · intro a b hk
    by_cases hab : a = n ∧ b = n
    · obtain ⟨rfl, rfl⟩ := hab
      exact ⟨[], .nil (by simp), by simp [vertices]⟩
    · rw [hold hab] at hk
      obtain ⟨p, hp, hnodup⟩ := h.explained a b hk
      exact ⟨p, h.decomposes_node hp (h.lt hk).1, hnodup⟩

def Improves (f : ℕ → ℕ → Cell) (e : DlEdge) (y x : ℕ) : Prop :=
  (f y e.src).dist ≠ dlInf ∧ (f e.dst x).dist ≠ dlInf ∧
    (f y e.src).dist + e.offset + (f e.dst x).dist < (f y x).dist

open Classical in
noncomputable def relaxed (f : ℕ → ℕ → Cell) (e : DlEdge) (id : ℕ) (W : ℕ → ℕ → Prop) :
    ℕ → ℕ → Cell := fun y x =>
  if W y x then ⟨(f y e.src).dist + e.offset + (f e.dst x).dist, id⟩ else f y x

section

variable {id : ℕ} {W : ℕ → ℕ → Prop}

theorem relaxed_of (h : W y x) : relaxed f e id W y x = ⟨(f y e.src).dist + e.offset + (f e.dst x).dist, id⟩ := by
  simp [relaxed, h]

theorem relaxed_of_not (h : ¬ W y x) : relaxed f e id W y x = f y x := by
  simp [relaxed, h]

variable (h : Closed n f edges E) (hs : e.src < n) (hd : e.dst < n)
  (hw : |e.offset| ≤ dlMaxAbsWeight) (hc : ¬ Closes E e)

include h hd hc in
theorem Closed.cycle (hk : (f e.dst e.src).dist ≠ dlInf) : 0 ≤ e.offset + (f e.dst e.src).dist := by
  by_contra hlt
  exact hc ((h.closes_iff hd).mpr ⟨hk, by omega⟩)

include h hw in
theorem Closed.abs_sum_le (hk : (f y e.src).dist ≠ dlInf) (hk' : (f e.dst x).dist ≠ dlInf) :
    |(f y e.src).dist + e.offset + (f e.dst x).dist| ≤ 2 ^ 53 := by
  have h₁ := abs_le.mp (h.abs_dist_le hk)
  have h₂ := abs_le.mp (h.abs_dist_le hk')
  have h₃ := abs_le.mp hw
  unfold dlMaxAbsWeight at h₃
  exact abs_le.mpr (by omega)

include h hd hc in
theorem not_improves_dst : ¬ Improves f e e.dst x := by
  rintro ⟨hk, -, hlt⟩
  have := h.cycle hd hc hk
  omega

include h hd hc in
theorem not_improves_src : ¬ Improves f e y e.src := by
  rintro ⟨-, hk, hlt⟩
  have := h.cycle hd hc hk
  omega

include h hd hc in
theorem not_improves_self : ¬ Improves f e y y := by
  rintro ⟨hk, hk', hlt⟩
  obtain ⟨hk₃, hle⟩ := h.triangle hk' hk
  have hcycle := h.cycle hd hc hk₃
  rw [h.diag y (h.lt hk).1] at hlt
  dsimp only at hlt
  omega

include h hw in
theorem Improves.src_lt (hi : Improves f e y x) : e.offset + (f e.dst x).dist < (f e.src x).dist := by
  obtain ⟨hk, hk', hlt⟩ := hi
  by_cases hsx : (f e.src x).dist = dlInf
  · have h₂ := abs_le.mp (h.abs_dist_le hk')
    have h₃ := abs_le.mp hw
    rw [hsx]
    unfold dlMaxAbsWeight dlInf at *
    omega
  · have := (h.triangle hk hsx).2
    omega

include h in
theorem Improves.of_part {c : DlEdge} (hce : c ∈ edges) (hac : (f a c.src).dist ≠ dlInf)
    (hcb : (f c.dst b).dist ≠ dlInf) (hab : (f a b).dist = (f a c.src).dist + c.offset + (f c.dst b).dist)
    (hi : Improves f e a c.src ∨ Improves f e c.dst b) : Improves f e a b := by
  have hsrc := (h.arcs c (h.stored hce)).1
  obtain ⟨hcc, hle⟩ := h.least c.src c.dst [c] hsrc (by simpa using h.stored hce) ⟨rfl, rfl⟩
  have hle' : (f c.src c.dst).dist ≤ c.offset := by simpa [Arc.weight] using hle
  rcases hi with ⟨hk, hk', hlt⟩ | ⟨hk, hk', hlt⟩
  · obtain ⟨hk₁, h₁⟩ := h.triangle hk' hcc
    obtain ⟨hk₂, h₂⟩ := h.triangle hk₁ hcb
    exact ⟨hk, hk₂, by omega⟩
  · obtain ⟨hk₁, h₁⟩ := h.triangle hcc hk
    obtain ⟨hk₂, h₂⟩ := h.triangle hac hk₁
    exact ⟨hk₂, hk', by omega⟩

include h in
theorem Decomposes.relaxed (hW : ∀ y x, W y x → Improves f e y x) (ha : a < n) (hp : Decomposes f edges a b p)
    (hi : ¬ Improves f e a b) : Decomposes (relaxed f e id W) (edges ++ [e]) a b p := by
  induction hp with
  | @nil a h0 =>
    refine .nil ?_
    rw [relaxed_of_not fun hw => hi (hW _ _ hw)]
    exact h0
  | @step a b c p q hne hlt hc' hd' hp hq ihp ihq =>
    have hmem := mem_of_getElem? hc'
    have hdst := (h.arcs c (h.stored hmem)).2.1
    have hac := (h.least a c.src p ha (List.Subset.trans hp.subset h.stored) hp.isWalk).1
    have hcb := (h.least c.dst b q hdst (List.Subset.trans hq.subset h.stored) hq.isWalk).1
    have hpart := Improves.of_part (e := e) h hmem hac hcb hd'
    have hi₁ : ¬ Improves f e a c.src := fun hi' => hi (hpart (.inl hi'))
    have hi₂ : ¬ Improves f e c.dst b := fun hi' => hi (hpart (.inr hi'))
    have hsame : ∀ {u v}, ¬ Improves f e u v → DiffLogic.relaxed f e id W u v = f u v :=
      fun hn => relaxed_of_not fun hw => hn (hW _ _ hw)
    refine .step hne ?_ ?_ ?_ (ihp ha hi₁) (ihq hdst hi₂)
    · rw [hsame hi]
      exact hlt
    · rw [hsame hi, List.getElem?_append_left (List.getElem?_eq_some_iff.mp hc').1]
      exact hc'
    · rw [hsame hi, hsame hi₁, hsame hi₂]
      exact hd'

include h hd hc in
theorem Improves.decomposes (hW : ∀ y x, W y x → Improves f e y x) (hid : edges.length < selfEdge) (hyx : W y x) : ∃ p,
    Decomposes (relaxed f e edges.length W) (edges ++ [e]) y x p ∧ (vertices p x).Nodup := by
  obtain ⟨hk, hk', hlt⟩ := hW y x hyx
  have hy := (h.lt hk).1
  obtain ⟨p, hp, hpn⟩ := h.explained _ _ hk
  obtain ⟨q, hq, hqn⟩ := h.explained _ _ hk'
  have hne : y ≠ x := by
    rintro rfl
    exact not_improves_self h hd hc (hW _ _ hyx)
  have hps := List.Subset.trans hp.subset h.stored
  have hqs := List.Subset.trans hq.subset h.stored
  refine ⟨p ++ e :: q, ?_, ?_⟩
  · have hi₁ : ¬ Improves f e y e.src := not_improves_src h hd hc
    have hi₂ : ¬ Improves f e e.dst x := not_improves_dst h hd hc
    refine .step hne ?_ ?_ ?_ (hp.relaxed h hW hy hi₁) (hq.relaxed h hW hd hi₂)
    · rw [relaxed_of hyx]
      exact hid
    · rw [relaxed_of hyx]
      simp
    · rw [relaxed_of hyx, relaxed_of_not fun hw => hi₁ (hW _ _ hw), relaxed_of_not fun hw => hi₂ (hW _ _ hw)]
  · rw [vertices_append, nodup_append]
    refine ⟨hpn, hqn, ?_⟩
    rintro v hv _ hv' rfl
    obtain ⟨p₁, p₂, rfl, hp₁, hp₂⟩ := hp.isWalk.split hv
    obtain ⟨q₁, q₂, rfl, hq₁, hq₂⟩ := hq.isWalk.split hv'
    rw [append_subset] at hps hqs
    have hshort := (h.least y x (p₁ ++ q₂) hy (append_subset.mpr ⟨hps.1, hqs.2⟩) (hp₁.append hq₂)).2
    have hcycle : 0 ≤ e.offset + weight (q₁ ++ p₂) := not_lt.mp fun hneg =>
      hc ⟨q₁ ++ p₂, append_subset.mpr ⟨hqs.1, hps.2⟩, hq₁.append hp₂, hneg⟩
    have hpw := hp.weight_eq
    have hqw := hq.weight_eq
    rw [weight_append] at hshort hcycle hpw hqw
    omega

include h hd hc in
theorem Closed.explained_relaxed (hW : ∀ y x, W y x → Improves f e y x)
    (hid : edges.length < selfEdge) (hk : W a b ∨ (f a b).dist ≠ dlInf ∧ ¬ Improves f e a b) :
    ∃ p, Decomposes (relaxed f e edges.length W) (edges ++ [e]) a b p ∧ (vertices p b).Nodup := by
  rcases hk with hab | ⟨hk, hi⟩
  · exact Improves.decomposes h hd hc hW hid hab
  · obtain ⟨p, hp, hnodup⟩ := h.explained a b hk
    exact ⟨p, hp.relaxed h hW (h.lt hk).1 hi, hnodup⟩

include h hs hd hw hc in
theorem Closed.relaxed (hid : edges.length < selfEdge) :
    Closed n (relaxed f e edges.length (Improves f e)) (edges ++ [e]) (e :: E) := by
  have hinf : ∀ {y x}, Improves f e y x →
      (f y e.src).dist + e.offset + (f e.dst x).dist ≠ dlInf := by
    intro y x hi heq
    have := abs_le.mp (h.abs_sum_le hw hi.1 hi.2.1)
    rw [heq] at this
    unfold dlInf at this
    omega
  have hle : ∀ a b, (DiffLogic.relaxed f e edges.length (Improves f e) a b).dist ≤ (f a b).dist := by
    intro a b
    by_cases hi : Improves f e a b
    · rw [relaxed_of hi]
      exact hi.2.2.le
    · rw [relaxed_of_not hi]
  refine ⟨h.nodes, ?_, ?_, ?_, ?_, ?_, ?_, ?_⟩
  · intro a b hab
    rw [relaxed_of_not fun hi => hab ⟨(h.lt hi.1).1, (h.lt hi.2.1).2⟩]
    exact h.outside a b hab
  · intro a ha
    rw [relaxed_of_not (not_improves_self h hd hc)]
    exact h.diag a ha
  · rintro e' he'
    rcases mem_cons.mp he' with rfl | he'
    · exact ⟨hs, hd, hw⟩
    · exact h.arcs e' he'
  · intro e' he'
    rcases mem_append.mp he' with he' | he'
    · exact mem_cons_of_mem _ (h.stored he')
    · simp only [mem_singleton] at he'
      simp [he']
  · intro a b p ha hp hpw
    rcases exists_walk_once hc hp hpw with ⟨q, hq, hqw, hle'⟩ | ⟨q, r, hq, hr, hqw, hrw, hle'⟩
    · obtain ⟨hk, hq'⟩ := h.least a b q ha hq hqw
      refine ⟨?_, (hle a b).trans (hq'.trans hle')⟩
      by_cases hi : Improves f e a b
      · rw [relaxed_of hi]
        exact hinf hi
      · rwa [relaxed_of_not hi]
    · obtain ⟨hk₁, hq'⟩ := h.least a e.src q ha hq hqw
      obtain ⟨hk₂, hr'⟩ := h.least e.dst b r hd hr hrw
      have hsum : weight q + e.offset + weight r ≤ weight p := hle'
      by_cases hi : Improves f e a b
      · rw [relaxed_of hi]
        exact ⟨hinf hi, by dsimp only; omega⟩
      · rw [relaxed_of_not hi]
        have hge : (f a b).dist ≤ (f a e.src).dist + e.offset + (f e.dst b).dist :=
          not_lt.mp fun hlt => hi ⟨hk₁, hk₂, hlt⟩
        refine ⟨?_, by omega⟩
        intro heq
        have := abs_le.mp (h.abs_sum_le hw hk₁ hk₂)
        rw [heq] at hge
        unfold dlInf at hge
        omega
  · intro a b heq
    by_cases hi : Improves f e a b
    · rw [relaxed_of hi] at heq
      exact absurd heq (hinf hi)
    · rw [relaxed_of_not hi] at heq ⊢
      exact h.unknown a b heq
  · intro a b hk
    refine h.explained_relaxed hd hc (fun _ _ hi => hi) hid ?_
    by_cases hi : Improves f e a b
    · exact .inl hi
    · rw [relaxed_of_not hi] at hk
      exact .inr ⟨hk, hi⟩

end

end Nixie.DiffLogic
