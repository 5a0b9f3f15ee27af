import Nixie.GraphProof.Certificate

/-!
The lemma checker decides implication: its closures are the walks of the graph, and premises that do
not justify a conclusion have a countermodel.
-/

namespace Nixie.GraphProof

open Nixie.Digraph GraphStatement List Option

variable {st : GraphStatement} {conclusion : TermId} {premises : List TermId} {keep : Pair → Bool}

theorem arcs_range (e : ℕ × ℕ) (he : e ∈ st.arcs keep) :
    e.1 ∈ List.range st.vertices ∧ e.2 ∈ List.range st.vertices := by
  obtain ⟨p, hp, -, rfl⟩ := mem_arcs.mp he
  simpa using st.edges_lt p hp

theorem closureGe1_iff {source : UInt32} {b : ℕ} :
    st.closureGe1 source keep b = true ↔ Reaches (st.arcs keep) source.toNat b := by
  have hall : ((successors (st.arcs keep) source.toNat).filter (· < st.vertices)) =
      successors (st.arcs keep) source.toNat := by
    refine filter_eq_self.mpr fun w hw => ?_
    simpa using (arcs_range _ (mem_successors.mp hw)).2
  unfold closureGe1
  rw [hall]
  refine breadth_iff (fun e he => (arcs_range e he).2) ?_
  rw [length_range]

theorem keptIsAcyclic_iff : st.keptIsAcyclic keep = true ↔ ¬ Cyclic (st.arcs keep) := by
  have h := @kahn_iff ℕ (st.arcs keep) (List.range st.vertices) _ st.vertices nodup_range arcs_range (by simp)
  rw [length_range] at h
  unfold keptIsAcyclic
  dsimp only
  rw [beq_iff_eq, ← h]

theorem keptHasCycle_iff : st.keptHasCycle keep = true ↔ Cyclic (st.arcs keep) :=
  depthFrom_iff arcs_range (Nat.le_refl _)

def pairs (st : GraphStatement) : List (TermId × TermId) :=
  (st.edges.map fun e => (e.atom, e.negation)) ++ (st.reach.map fun r => (r.atom, r.negation)) ++
    st.acyclic.toList

structure Independent (st : GraphStatement) : Prop where
  nodup : ((pairs st).map Prod.fst).Nodup
  negation : ∀ a ∈ pairs st, ∀ b ∈ pairs st, a.2 ≠ b.1 ∧ (a.2 = b.2 → a.1 = b.1)
  falsum : ∀ a ∈ pairs st, a.1 ≠ st.falseTerm ∧ a.2 ≠ st.falseTerm

theorem edge_mem_pairs {e : Pair} (he : e ∈ st.edges) : (e.atom, e.negation) ∈ pairs st :=
  mem_append_left _ (mem_append_left _ (mem_map_of_mem he))

theorem reach_mem_pairs {r : Pair} (hr : r ∈ st.reach) : (r.atom, r.negation) ∈ pairs st :=
  mem_append_left _ (mem_append_right _ (mem_map_of_mem hr))

theorem acyclic_mem_pairs {a : TermId × TermId} (ha : st.acyclic = some a) : a ∈ pairs st :=
  mem_append_right _ (by simp [ha])

namespace Independent

variable (h : Independent st)

include h

theorem atoms : ((st.edges.map Pair.atom) ++ (st.reach.map Pair.atom) ++ (st.acyclic.toList.map Prod.fst)).Nodup := by
  have hn := h.nodup
  simp only [pairs, List.map_append, List.map_map] at hn
  exact hn

theorem edge_eq {e e' : Pair} (he : e ∈ st.edges) (he' : e' ∈ st.edges) (heq : e.atom = e'.atom) : e = e' :=
  inj_on_of_nodup_map (List.Nodup.of_append_left (List.Nodup.of_append_left h.atoms)) he he' heq

theorem reach_eq {r r' : Pair} (hr : r ∈ st.reach) (hr' : r' ∈ st.reach) (heq : r.atom = r'.atom) : r = r' :=
  inj_on_of_nodup_map (List.Nodup.of_append_right (List.Nodup.of_append_left h.atoms)) hr hr' heq

theorem edge_ne_reach {e r : Pair} (he : e ∈ st.edges) (hr : r ∈ st.reach) : e.atom ≠ r.atom :=
  fun heq => disjoint_of_nodup_append (List.Nodup.of_append_left h.atoms)
    (mem_map_of_mem he) (heq ▸ mem_map_of_mem hr)

theorem acyclic_ne {p : Pair} {a : TermId × TermId} (hp : p ∈ st.edges ∨ p ∈ st.reach)
    (ha : st.acyclic = some a) : p.atom ≠ a.1 := by
  intro heq
  have hmem : p.atom ∈ st.edges.map Pair.atom ++ st.reach.map Pair.atom :=
    mem_append.mpr (hp.imp mem_map_of_mem mem_map_of_mem)
  exact disjoint_of_nodup_append h.atoms hmem (by simp [ha, heq])

end Independent

section

variable (st) in
def Chosen (on : Pair → Bool) (t : TermId) : Prop :=
  (∃ e ∈ st.edges, e.atom = t ∧ on e = true) ∨
  (∃ r ∈ st.reach, r.atom = t ∧ Reaches (st.arcs on) r.tail.toNat r.head.toNat) ∨
  ∃ a ∈ st.acyclic, a.1 = t ∧ ¬ Cyclic (st.arcs on)

open Classical in
variable (st) in
noncomputable def countermodel (on : Pair → Bool) (t : TermId) : Bool :=
  decide (Chosen st on t ∨ ∃ a ∈ pairs st, a.2 = t ∧ ¬ Chosen st on a.1)

variable {on : Pair → Bool} (h : Independent st)

theorem Chosen.mem {t : TermId} (hc : Chosen st on t) : ∃ a ∈ pairs st, a.1 = t := by
  rcases hc with ⟨e, he, rfl, -⟩ | ⟨r, hr, rfl, -⟩ | ⟨a, ha, rfl, -⟩
  · exact ⟨_, edge_mem_pairs he, rfl⟩
  · exact ⟨_, reach_mem_pairs hr, rfl⟩
  · exact ⟨_, acyclic_mem_pairs ha, rfl⟩

include h

variable {a : TermId × TermId}

theorem countermodel_atom (ha : a ∈ pairs st) : countermodel st on a.1 = true ↔ Chosen st on a.1 := by
  simp only [countermodel, decide_eq_true_eq, or_iff_left_iff_imp]
  rintro ⟨b, hb, heq, -⟩
  exact absurd heq (h.negation b hb a ha).1

theorem countermodel_negation (ha : a ∈ pairs st) : countermodel st on a.2 = true ↔ ¬ Chosen st on a.1 := by
  simp only [countermodel, decide_eq_true_eq]
  constructor
  · rintro (hc | ⟨b, hb, heq, hnot⟩)
    · obtain ⟨b, hb, heq⟩ := hc.mem
      exact absurd heq.symm (h.negation a ha b hb).1
    · rwa [(h.negation b hb a ha).2 heq] at hnot
  · intro hnot
    exact .inr ⟨a, ha, rfl, hnot⟩

theorem countermodel_not (ha : a ∈ pairs st) : countermodel st on a.2 = !countermodel st on a.1 := by
  have hneg : countermodel st on a.2 = true ↔ ¬ Chosen st on a.1 := countermodel_negation h ha
  rw [← countermodel_atom h ha] at hneg
  revert hneg
  cases countermodel st on a.1 <;> cases countermodel st on a.2 <;> simp

theorem chosen_edge {e : Pair} (he : e ∈ st.edges) : Chosen st on e.atom ↔ on e = true := by
  constructor
  · rintro (⟨e', he', heq, hon⟩ | ⟨r, hr, heq, -⟩ | ⟨a, ha, heq, -⟩)
    · rwa [h.edge_eq he' he heq] at hon
    · exact absurd heq.symm (h.edge_ne_reach he hr)
    · exact absurd heq.symm (h.acyclic_ne (.inl he) ha)
  · exact fun hon => .inl ⟨e, he, rfl, hon⟩

theorem chosen_reach {r : Pair} (hr : r ∈ st.reach) :
    Chosen st on r.atom ↔ Reaches (st.arcs on) r.tail.toNat r.head.toNat := by
  constructor
  · rintro (⟨e, he, heq, -⟩ | ⟨r', hr', heq, hreach⟩ | ⟨a, ha, heq, -⟩)
    · exact absurd heq (h.edge_ne_reach he hr)
    · rwa [h.reach_eq hr' hr heq] at hreach
    · exact absurd heq.symm (h.acyclic_ne (.inr hr) ha)
  · exact fun hreach => .inr (.inl ⟨r, hr, rfl, hreach⟩)

theorem chosen_acyclic (ha : st.acyclic = some a) : Chosen st on a.1 ↔ ¬ Cyclic (st.arcs on) := by
  constructor
  · rintro (⟨e, he, heq, -⟩ | ⟨r, hr, heq, -⟩ | ⟨b, hb, -, hnot⟩)
    · exact absurd heq (h.acyclic_ne (.inl he) ha)
    · exact absurd heq (h.acyclic_ne (.inr hr) ha)
    · exact hnot
  · exact fun hnot => .inr (.inr ⟨a, ha, rfl, hnot⟩)

theorem countermodel_edge {e : Pair} (he : e ∈ st.edges) : countermodel st on e.atom = on e :=
  Bool.eq_iff_iff.mpr ((countermodel_atom h (edge_mem_pairs he)).trans (chosen_edge h he))

theorem countermodel_arcs : (st.arcs fun e => countermodel st on e.atom) = st.arcs on := by
  unfold arcs
  rw [filter_congr fun e he => countermodel_edge h he]

theorem countermodel_respects : Respects st (countermodel st on) where
  falsum := by
    simp only [countermodel, decide_eq_false_iff_not, not_or, not_exists, not_and]
    refine ⟨fun hc => ?_, fun a ha heq => absurd heq (h.falsum a ha).2⟩
    obtain ⟨a, ha, heq⟩ := hc.mem
    exact (h.falsum a ha).1 heq
  edge := fun e he => countermodel_not h (edge_mem_pairs he)
  negation := fun r hr => countermodel_not h (reach_mem_pairs hr)
  reach := fun r hr => by
    rw [countermodel_arcs h, ← chosen_reach h hr]
    exact countermodel_atom h (reach_mem_pairs hr)
  acyclic := fun a ha => by
    rw [countermodel_arcs h, ← chosen_acyclic h ha]
    exact ⟨countermodel_not h (acyclic_mem_pairs ha), countermodel_atom h (acyclic_mem_pairs ha)⟩

end

section

structure Guards (st : GraphStatement) (premises : List TermId) : Prop where
  edge : ∀ p ∈ premises, ∃ e ∈ st.edges, p = e.atom ∨ p = e.negation
  consistent : ∀ e ∈ st.edges, ¬ (e.atom ∈ premises ∧ e.negation ∈ premises)

variable (h : Independent st) (hg : Guards st premises) {on : Pair → Bool}

include h hg

theorem countermodel_premises (hpos : ∀ e ∈ st.edges, e.atom ∈ premises → on e = true)
    (hneg : ∀ e ∈ st.edges, e.negation ∈ premises → on e = false) : ∀ p ∈ premises, countermodel st on p = true := by
  intro p hp
  obtain ⟨e, he, rfl | rfl⟩ := hg.edge p hp
  · rw [countermodel_edge h he]
    exact hpos e he hp
  · rw [countermodel_not h (edge_mem_pairs he), countermodel_edge h he, hneg e he hp]
    rfl

theorem countermodel_present : ∀ p ∈ premises, countermodel st (fun e => premises.contains e.atom) p = true := by
  refine countermodel_premises h hg (fun e he hp => by simpa using hp) fun e he hp => ?_
  have := hg.consistent e he
  simpa using fun hatom => this ⟨hatom, hp⟩

theorem countermodel_unrefuted : ∀ p ∈ premises, countermodel st (fun e => !premises.contains e.negation) p = true := by
  refine countermodel_premises h hg (fun e he hp => ?_) fun e he hp => by simpa using hp
  have := hg.consistent e he
  simpa using fun hneg => this ⟨hp, hneg⟩

theorem Justified.of_implies (himp : Implies st premises conclusion)
    (hlit : st.isGraphLiteral conclusion = true) : Justified st premises conclusion := by
  have hpres := himp _ (countermodel_respects h) (countermodel_present h hg)
  have hunref := himp _ (countermodel_respects h) (countermodel_unrefuted h hg)
  simp only [isGraphLiteral, Bool.or_eq_true, List.any_eq_true, beq_iff_eq, Option.any_eq_true] at hlit
  rcases hlit with ⟨r, hr, rfl | rfl⟩ | ⟨a, ha, rfl | rfl⟩
  · rw [countermodel_atom h (reach_mem_pairs hr), chosen_reach h hr] at hpres
    exact .reach r hr rfl hpres
  · rw [countermodel_negation h (reach_mem_pairs hr), chosen_reach h hr] at hunref
    exact .separated r hr rfl hunref
  · rw [countermodel_atom h (acyclic_mem_pairs ha), chosen_acyclic h ha] at hunref
    exact .acyclic a ha rfl hunref
  · rw [countermodel_negation h (acyclic_mem_pairs ha), chosen_acyclic h ha, not_not] at hpres
    exact .cyclic a ha rfl hpres

end

section

theorem checkLiteral_justified (hok : st.checkLiteral conclusion premises = .ok ()) :
    Justified st premises conclusion := by
  unfold checkLiteral at hok
  split at hok
  · next r hfind =>
    have hr := mem_of_find?_eq_some hfind
    have hc : conclusion = r.atom ∨ conclusion = r.negation := by simpa using find?_some hfind
    dsimp only at hok
    split_ifs at hok with hatom hvalid hvalid
    · exact .reach r hr hatom.symm (closureGe1_iff.mp hvalid)
    · refine .separated r hr (hc.resolve_left hatom).symm fun hreach => ?_
      rw [Bool.not_eq_true', Bool.eq_false_iff] at hvalid
      exact hvalid (closureGe1_iff.mpr hreach)
  · split at hok
    · next atom negation ha =>
      split_ifs at hok with hatom hkept hneg hkept
      · exact .acyclic _ ha hatom.symm (keptIsAcyclic_iff.mp hkept)
      · exact .cyclic _ ha hneg.symm (keptHasCycle_iff.mp hkept)
    · cases hok

theorem Justified.isGraphLiteral (hj : Justified st premises conclusion) : st.isGraphLiteral conclusion = true := by
  simp only [GraphStatement.isGraphLiteral, Bool.or_eq_true, List.any_eq_true, beq_iff_eq, Option.any_eq_true]
  cases hj with
  | reach r hr hc _ => exact .inl ⟨r, hr, .inl hc⟩
  | separated r hr hc _ => exact .inl ⟨r, hr, .inr hc⟩
  | acyclic a ha hc _ => exact .inr ⟨a, ha, .inl hc⟩
  | cyclic a ha hc _ => exact .inr ⟨a, ha, .inr hc⟩

variable {t : TermId}

theorem classifyEdges_ne (edges : List Pair) (i : ℕ) : classifyEdges t edges i ≠ some .graphLiteral := by
  induction edges generalizing i with
  | nil => simp [classifyEdges]
  | cons e edges ih =>
    unfold classifyEdges
    split_ifs
    · simp
    · simp
    · exact ih (i + 1)

theorem checkLemma_of_ne (hne : conclusion ≠ st.falseTerm) :
    st.checkLemma conclusion premises = st.checkLiteral conclusion premises := by
  unfold checkLemma
  rw [if_neg hne]

variable (h : Independent st)

include h

theorem find_reach {r : Pair} (hr : r ∈ st.reach)
    (hc : conclusion = r.atom ∨ conclusion = r.negation) :
    st.reach.find? (fun r => conclusion == r.atom || conclusion == r.negation) = some r := by
  obtain ⟨r', hfind⟩ := isSome_iff_exists.mp
    (find?_isSome.mpr ⟨r, hr, by simpa using hc⟩ :
      (st.reach.find? fun r => conclusion == r.atom || conclusion == r.negation).isSome)
  have hr' := mem_of_find?_eq_some hfind
  have hc' : conclusion = r'.atom ∨ conclusion = r'.negation := by simpa using find?_some hfind
  have hn := h.negation _ (reach_mem_pairs hr) _ (reach_mem_pairs hr')
  have hn' := h.negation _ (reach_mem_pairs hr') _ (reach_mem_pairs hr)
  have hatom : r'.atom = r.atom := by
    rcases hc with hc | hc <;> rcases hc' with hc' | hc'
    · exact hc'.symm.trans hc
    · exact absurd (hc'.symm.trans hc) hn'.1
    · exact absurd (hc.symm.trans hc') hn.1
    · exact hn'.2 (hc'.symm.trans hc)
  rw [hfind, h.reach_eq hr' hr hatom]

theorem find_acyclic {a : TermId × TermId} (ha : st.acyclic = some a)
    (hc : conclusion = a.1 ∨ conclusion = a.2) :
    st.reach.find? (fun r => conclusion == r.atom || conclusion == r.negation) = none := by
  refine find?_eq_none.mpr fun r hr hfound => ?_
  have hc' : conclusion = r.atom ∨ conclusion = r.negation := by simpa using hfound
  have hn := h.negation _ (acyclic_mem_pairs ha) _ (reach_mem_pairs hr)
  have hn' := h.negation _ (reach_mem_pairs hr) _ (acyclic_mem_pairs ha)
  have hne := h.acyclic_ne (.inr hr) ha
  rcases hc with hc | hc <;> rcases hc' with hc' | hc'
  · exact hne (hc'.symm.trans hc)
  · exact hn'.1 (hc'.symm.trans hc)
  · exact hn.1 (hc.symm.trans hc')
  · exact hne (hn'.2 (hc'.symm.trans hc))

theorem Justified.checkLiteral (hj : Justified st premises conclusion) :
    st.checkLiteral conclusion premises = .ok () := by
  unfold GraphStatement.checkLiteral
  cases hj with
  | reach r hr hc hreach =>
    subst hc
    rw [find_reach h hr (.inl rfl)]
    dsimp only
    rw [if_pos rfl, if_pos (closureGe1_iff.mpr hreach)]
  | separated r hr hc hreach =>
    subst hc
    rw [find_reach h hr (.inr rfl)]
    have hne := (h.negation _ (reach_mem_pairs hr) _ (reach_mem_pairs hr)).1
    have hclosed : st.closureGe1 r.tail (fun e => !premises.contains e.negation) r.head.toNat = false :=
      Bool.eq_false_iff.mpr fun hopen => hreach (closureGe1_iff.mp hopen)
    dsimp only
    rw [if_neg hne, hclosed]
    rfl
  | acyclic a ha hc hnot =>
    subst hc
    rw [find_acyclic h ha (.inl rfl), ha]
    dsimp only
    rw [if_pos rfl, if_pos (keptIsAcyclic_iff.mpr hnot)]
  | cyclic a ha hc hcyc =>
    subst hc
    rw [find_acyclic h ha (.inr rfl), ha]
    have hne := (h.negation _ (acyclic_mem_pairs ha) _ (acyclic_mem_pairs ha)).1
    dsimp only
    rw [if_neg hne, if_pos rfl, if_pos (keptHasCycle_iff.mpr hcyc)]

theorem checkLiteral_iff : st.checkLiteral conclusion premises = .ok () ↔ Justified st premises conclusion :=
  ⟨checkLiteral_justified, Justified.checkLiteral h⟩

theorem graphLiteral_mem (ht : st.isGraphLiteral t = true) : ∃ a ∈ pairs st, (t = a.1 ∨ t = a.2) ∧
    ∀ e ∈ st.edges, e.atom ≠ a.1 := by
  simp only [isGraphLiteral, Bool.or_eq_true, List.any_eq_true, beq_iff_eq, Option.any_eq_true] at ht
  rcases ht with ⟨r, hr, hc⟩ | ⟨a, ha, hc⟩
  · exact ⟨_, reach_mem_pairs hr, hc.imp Eq.symm Eq.symm, fun e he => h.edge_ne_reach he hr⟩
  · exact ⟨a, acyclic_mem_pairs ha, hc.imp Eq.symm Eq.symm, fun e he => h.acyclic_ne (.inl he) ha⟩

theorem graphLiteral_ne_false (ht : st.isGraphLiteral t = true) : t ≠ st.falseTerm := by
  obtain ⟨a, ha, rfl | rfl, -⟩ := graphLiteral_mem h ht
  · exact (h.falsum a ha).1
  · exact (h.falsum a ha).2

theorem classifyEdges_none (ht : st.isGraphLiteral t = true) {edges : List Pair} {i : ℕ}
    (hsub : ∀ e ∈ edges, e ∈ st.edges) : classifyEdges t edges i = none := by
  obtain ⟨a, ha, hc, hne⟩ := graphLiteral_mem h ht
  induction edges generalizing i with
  | nil => rfl
  | cons e edges ih =>
    have he := hsub e (by simp)
    have hn := h.negation _ (edge_mem_pairs he) _ ha
    have hn' := h.negation _ ha _ (edge_mem_pairs he)
    have hatom : e.atom ≠ t := by
      rintro rfl
      exact hc.elim (hne e he) fun heq => hn'.1 heq.symm
    have hneg : e.negation ≠ t := by
      rintro rfl
      exact hc.elim hn.1 fun heq => hne e he (hn.2 heq)
    unfold classifyEdges
    rw [if_neg hatom, if_neg hneg]
    exact ih fun e he => hsub e (mem_cons_of_mem _ he)

theorem isGraphPremise_eq (t : TermId) : st.isGraphPremise t = st.isGraphLiteral t := by
  unfold isGraphPremise classify
  by_cases ht : st.isGraphLiteral t = true
  · rw [classifyEdges_none h ht fun e he => he]
    simp [ht]
  · rw [Bool.not_eq_true] at ht
    rw [ht]
    split
    · next kind hkind =>
      have hne : kind ≠ .graphLiteral := fun heq => classifyEdges_ne _ _ (heq ▸ hkind)
      simp [hne]
    · rfl

theorem checkLemma_of_goal {goalTerm : TermId} {rest : List TermId}
    (hgoal : GraphCertificate.goal st conclusion premises = .ok (goalTerm, rest))
    (hj : Justified st rest goalTerm) : st.checkLemma conclusion premises = .ok () := by
  have hok : st.checkLemma goalTerm rest = .ok () := by
    rw [checkLemma_of_ne (graphLiteral_ne_false h hj.isGraphLiteral)]
    exact hj.checkLiteral h
  have heq : st.isGraphPremise = st.isGraphLiteral := funext (isGraphPremise_eq h)
  unfold GraphCertificate.goal at hgoal
  split at hgoal
  · next hfalse =>
    split at hgoal
    · cases hgoal
    · next opposite hopp =>
      obtain ⟨rfl, rfl⟩ := Prod.mk.inj (Except.ok.inj hgoal)
      obtain ⟨literal, hfind, hneg⟩ := bind_eq_some_iff.mp hopp
      rw [← heq] at hfind hok
      unfold checkLemma
      rw [if_pos hfalse]
      split
      · next hnone => simp [hnone] at hfind
      · next found hsome =>
        obtain rfl : found = literal := some.inj (hsome.symm.trans hfind)
        rw [hneg]
        exact hok
  · obtain ⟨rfl, rfl⟩ := Prod.mk.inj (Except.ok.inj hgoal)
    exact hok

end

section

variable {value : TermId → Option Bool}

structure Agrees (st : GraphStatement) (value : TermId → Option Bool) : Prop where
  edge : ∀ e ∈ st.edges, value e.atom ≠ none
  reach : ∀ r ∈ st.reach, ∃ b, value r.atom = some b ∧
    (b = true ↔ Reaches (st.arcs fun e => value e.atom = some true) r.tail.toNat r.head.toNat)
  acyclic : ∀ a ∈ st.acyclic, ∃ b, value a.1 = some b ∧
    (b = true ↔ ¬ Cyclic (st.arcs fun e => value e.atom = some true))

theorem reachAgrees_iff {r : Pair} : st.reachAgrees value keep r = .ok () ↔
    ∃ b, value r.atom = some b ∧ (b = true ↔ Reaches (st.arcs keep) r.tail.toNat r.head.toNat) := by
  unfold reachAgrees
  rw [← closureGe1_iff]
  cases value r.atom with
  | none => simp
  | some expected =>
    cases expected <;> cases st.closureGe1 r.tail keep r.head.toNat <;> simp

theorem acyclicAgrees_iff : st.acyclicAgrees value keep = .ok () ↔
    ∀ a ∈ st.acyclic, ∃ b, value a.1 = some b ∧ (b = true ↔ ¬ Cyclic (st.arcs keep)) := by
  unfold acyclicAgrees
  rw [← keptIsAcyclic_iff]
  cases hac : st.acyclic with
  | none => simp
  | some a =>
    obtain ⟨atom, negation⟩ := a
    cases hval : value atom with
    | none => simp [hval]
    | some expected =>
      cases expected <;> cases st.keptIsAcyclic keep <;> simp [hval]

theorem forIn_reachAgrees {reach : List Pair} :
    (forIn reach PUnit.unit fun r _ => do
      st.reachAgrees value keep r
      pure (ForInStep.yield PUnit.unit)) = Except.ok PUnit.unit ↔
      ∀ r ∈ reach, st.reachAgrees value keep r = .ok () := by
  induction reach with
  | nil => simp [pure, Except.pure]
  | cons r reach ih =>
    rw [forIn_cons, forall_mem_cons, ← ih]
    cases hr : st.reachAgrees value keep r with
    | error e => simp [bind, Except.bind]
    | ok u => simp [bind, Except.bind, pure, Except.pure]

theorem checkModel_iff : st.checkModel value = .ok () ↔ Agrees st value := by
  have hkeep : (fun e : Pair => (value e.atom).getD false) = fun e => decide (value e.atom = some true) := by
    funext e
    cases value e.atom <;> simp
  have hreach := @forIn_reachAgrees st (fun e => (value e.atom).getD false) value st.reach
  have hacyclic := @acyclicAgrees_iff st (fun e => (value e.atom).getD false) value
  unfold checkModel
  simp only [bind, Except.bind, throw, throwThe, MonadExceptOf.throw, pure, Except.pure] at hreach ⊢
  split_ifs with hedge
  · simp only [false_iff]
    intro hagrees
    obtain ⟨e, he, hnone⟩ := any_eq_true.mp hedge
    exact hagrees.edge e he (isNone_iff_eq_none.mp hnone)
  · have hvalued : ∀ e ∈ st.edges, value e.atom ≠ none := by
      intro e he hnone
      exact hedge (any_eq_true.mpr ⟨e, he, by simp [hnone]⟩)
    rw [hkeep] at hreach hacyclic ⊢
    split
    · next err herr =>
      rw [herr] at hreach
      simp only [reduceCtorEq, false_iff] at hreach ⊢
      exact fun hagrees => hreach fun r hr => reachAgrees_iff.mpr (hagrees.reach r hr)
    · next u hu =>
      rw [hu] at hreach
      have hall := hreach.mp rfl
      rw [hacyclic]
      exact ⟨fun hac => ⟨hvalued, fun r hr => reachAgrees_iff.mp (hall r hr), hac⟩, fun hagrees => hagrees.acyclic⟩

end

/-- The lemma checker decides implication from consistent edge literals, accepts what a certificate
shows, and the model checker accepts the valuations that agree with the meaning of the atoms. -/
theorem checkLemma_exact (h : Independent st) :
    (∀ conclusion premises, st.isGraphLiteral conclusion = true → Guards st premises →
    (st.checkLemma conclusion premises = .ok () ↔ Implies st premises conclusion)) ∧
    (∀ rule original conclusion premises, (GraphCertificate.mk st rule).check original conclusion premises = .ok () →
    st.checkLemma conclusion premises = .ok ()) ∧ ∀ value, st.checkModel value = .ok () ↔ Agrees st value := by
  refine ⟨fun conclusion premises hlit hg => ?_, fun rule original conclusion premises hok => ?_,
    fun value => checkModel_iff⟩
  · rw [checkLemma_of_ne (graphLiteral_ne_false h hlit), checkLiteral_iff h]
    exact ⟨fun hj v hv hp => hj.sound hv hp, fun himp => .of_implies h hg himp hlit⟩
  · obtain ⟨goalTerm, rest, hgoal, hj⟩ := check_justified hok
    exact checkLemma_of_goal h hgoal hj

theorem arrowStatement_independent : Independent arrowStatement where
  nodup := by decide
  negation := by decide
  falsum := by decide

theorem arrowStatement_guards : Guards arrowStatement [1] where
  edge := by decide
  consistent := by decide

theorem checkLemma_exact_arrow : arrowStatement.checkLemma 3 [1] = .ok () ∧ Implies arrowStatement [1] 3 :=
  have hexact := checkLemma_exact arrowStatement_independent
  have hok := hexact.2.1 (.path 0 1 [0]) arrowStatement 3 [1] rfl
  ⟨hok, (hexact.1 3 [1] rfl arrowStatement_guards).mp hok⟩

end Nixie.GraphProof
