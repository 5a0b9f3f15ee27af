import Nixie.GraphProof.Statement

/-!
What a certificate that is accepted says about every valuation.
-/

namespace Nixie.GraphProof

open Nixie.Digraph GraphStatement List

variable {st : GraphStatement} {conclusion : TermId} {premises : List TermId} {v : TermId → Bool}
  {es : List Pair}

structure Respects (st : GraphStatement) (v : TermId → Bool) : Prop where
  falsum : v st.falseTerm = false
  edge : ∀ e ∈ st.edges, v e.negation = !v e.atom
  negation : ∀ r ∈ st.reach, v r.negation = !v r.atom
  reach : ∀ r ∈ st.reach, v r.atom = true ↔
    Reaches (st.arcs fun e => v e.atom) r.tail.toNat r.head.toNat
  acyclic : ∀ a ∈ st.acyclic, v a.2 = !v a.1 ∧ (v a.1 = true ↔ ¬ Cyclic (st.arcs fun e => v e.atom))

def Implies (st : GraphStatement) (premises : List TermId) (conclusion : TermId) : Prop :=
  ∀ v, Respects st v → (∀ p ∈ premises, v p = true) → v conclusion = true

def present (st : GraphStatement) (premises : List TermId) : List (ℕ × ℕ) :=
  st.arcs fun e => premises.contains e.atom

def unrefuted (st : GraphStatement) (premises : List TermId) : List (ℕ × ℕ) :=
  st.arcs fun e => !premises.contains e.negation

inductive Justified (st : GraphStatement) (premises : List TermId) (conclusion : TermId) : Prop
  | reach (r : Pair) (hr : r ∈ st.reach) (hc : r.atom = conclusion)
    (h : Reaches (present st premises) r.tail.toNat r.head.toNat)
  | separated (r : Pair) (hr : r ∈ st.reach) (hc : r.negation = conclusion)
    (h : ¬ Reaches (unrefuted st premises) r.tail.toNat r.head.toNat)
  | acyclic (a : TermId × TermId) (ha : st.acyclic = some a) (hc : a.1 = conclusion)
    (h : ¬ Cyclic (unrefuted st premises))
  | cyclic (a : TermId × TermId) (ha : st.acyclic = some a) (hc : a.2 = conclusion)
    (h : Cyclic (present st premises))

theorem mem_arcs {keep : Pair → Bool} {e : ℕ × ℕ} :
    e ∈ st.arcs keep ↔ ∃ p ∈ st.edges, keep p = true ∧ (p.tail.toNat, p.head.toNat) = e := by
  simp [arcs, and_assoc]

theorem arcs_mono {keep keep' : Pair → Bool} (h : ∀ e ∈ st.edges, keep e = true → keep' e = true) :
    ∀ e ∈ st.arcs keep, e ∈ st.arcs keep' := by
  intro e he
  obtain ⟨p, hp, hk, rfl⟩ := mem_arcs.mp he
  exact mem_arcs.mpr ⟨p, hp, h p hp hk, rfl⟩

section

variable (hv : Respects st v) (hp : ∀ p ∈ premises, v p = true)

include hp in
theorem present_subset : ∀ e ∈ present st premises, e ∈ st.arcs fun e => v e.atom :=
  arcs_mono fun e _ he => hp e.atom (by simpa using he)

include hv hp in
theorem subset_unrefuted : ∀ e ∈ st.arcs (fun e => v e.atom), e ∈ unrefuted st premises := by
  refine arcs_mono fun e he hat => ?_
  have hneg := hv.edge e he
  rw [hat] at hneg
  simp only [Bool.not_eq_true', Bool.eq_false_iff]
  intro hmem
  simp [hp e.negation (by simpa using hmem)] at hneg

include hv hp in
theorem Justified.sound (h : Justified st premises conclusion) : v conclusion = true := by
  cases h with
  | reach r hr hc h =>
    rw [← hc, hv.reach r hr]
    exact h.mono (present_subset hp)
  | separated r hr hc h =>
    have hfalse : v r.atom = false := by
      rw [Bool.eq_false_iff]
      intro htrue
      exact h (((hv.reach r hr).mp htrue).mono (subset_unrefuted hv hp))
    rw [← hc, hv.negation r hr, hfalse]
    rfl
  | acyclic a ha hc h =>
    rw [← hc, (hv.acyclic a ha).2]
    exact fun hcycle => h (Cyclic.mono (subset_unrefuted hv hp) hcycle)
  | cyclic a ha hc h =>
    have hfalse : v a.1 = false := by
      rw [Bool.eq_false_iff]
      intro htrue
      exact (hv.acyclic a ha).2.mp htrue (Cyclic.mono (present_subset hp) h)
    rw [← hc, (hv.acyclic a ha).1, hfalse]
    rfl

end

section

open GraphCertificate

variable {tail head last : UInt32} {walked order : List UInt32} {bits : List UInt64} {r : Pair}
  {broken absent : GraphProofError}

theorem reachPairOf_ok (h : st.reachPairOf conclusion = .ok r) : r ∈ st.reach ∧ r.atom = conclusion := by
  unfold reachPairOf at h
  split at h
  · next hr =>
    obtain rfl := Except.ok.inj h
    exact ⟨mem_of_find?_eq_some hr, by simpa using find?_some hr⟩
  · cases h

theorem reachPairOfNegation_ok (h : st.reachPairOfNegation conclusion = .ok r) :
    r ∈ st.reach ∧ r.negation = conclusion := by
  unfold reachPairOfNegation at h
  split at h
  · next hr =>
    obtain rfl := Except.ok.inj h
    exact ⟨mem_of_find?_eq_some hr, by simpa using find?_some hr⟩
  · cases h

theorem acyclicPairOf_ok {a : TermId × TermId} (h : st.acyclicPairOf conclusion = .ok a) : st.acyclic = some a := by
  unfold acyclicPairOf at h
  split at h
  · cases h
  · next pair hpair =>
    split at h
    · obtain rfl := Except.ok.inj h
      exact hpair
    · cases h

theorem walk_ok (h : walk st.edges premises broken absent tail walked = .ok last) :
    walked = [] ∧ last = tail ∨ Reaches (present st premises) tail.toNat last.toNat := by
  induction walked generalizing tail with
  | nil => exact .inl ⟨rfl, (Except.ok.inj h).symm⟩
  | cons i walked ih =>
    unfold walk at h
    split at h
    · cases h
    · next e he =>
      split at h
      · cases h
      · next htail =>
        rw [not_not] at htail
        subst htail
        split at h
        · cases h
        · next hpre =>
          have hstep : Step (present st premises) e.tail.toNat e.head.toNat :=
            mem_arcs.mpr ⟨e, mem_of_getElem? he, by simpa using hpre, rfl⟩
          rcases ih h with ⟨-, rfl⟩ | hrest
          · exact .inr (.single hstep)
          · exact .inr (.head hstep hrest)

theorem checkPath_justified (h : checkPath st conclusion premises tail head walked = .ok ()) :
    Justified st premises conclusion := by
  unfold checkPath at h
  simp only [bind, Except.bind, throw, throwThe, MonadExceptOf.throw, pure, Except.pure] at h
  split at h
  · cases h
  · next r hr =>
    obtain ⟨hmem, hc⟩ := reachPairOf_ok hr
    split at h
    · cases h
    · next hends =>
      simp only [ne_eq, not_or, not_not] at hends
      obtain ⟨rfl, rfl, hne⟩ := hends
      split at h
      · cases h
      · next last hwalk =>
        split at h
        · cases h
        · next hlast =>
          rw [not_not] at hlast
          subst hlast
          rcases walk_ok hwalk with ⟨rfl, -⟩ | hreach
          · simp at hne
          · exact .reach r hmem hc hreach

theorem checkCycle_justified (h : checkCycle st conclusion premises walked = .ok ()) :
    Justified st premises conclusion := by
  unfold checkCycle at h
  simp only [bind, Except.bind, throw, throwThe, MonadExceptOf.throw, pure, Except.pure] at h
  split at h
  · cases h
  · next a ha =>
    split at h
    · cases h
    · next first rest =>
      split at h
      · cases h
      · next hc =>
        rw [not_not] at hc
        split at h
        · cases h
        · next e he =>
          split at h
          · cases h
          · next last hwalk =>
            split at h
            · cases h
            · next hlast =>
              rw [not_not] at hlast
              subst hlast
              have hreach := (walk_ok hwalk).resolve_left (by simp)
              exact .cyclic a (acyclicPairOf_ok ha) hc.symm ⟨_, hreach⟩

def Encloses (st : GraphStatement) (premises : List TermId) (start : UInt32) (bits : List UInt64) : Prop :=
  ∀ e ∈ st.edges, bitGet bits e.tail = true ∨ e.tail = start → bitGet bits e.head = true ∨
    e.negation ∈ premises

theorem Encloses.not_reaches (h : Encloses st premises tail bits) (hhead : bitGet bits head = false) :
    ¬ Reaches (unrefuted st premises) tail.toNat head.toNat := by
  intro hreach
  have hstep : ∀ a w, Step (unrefuted st premises) a w →
      bitGet bits (UInt32.ofNat a) = true ∨ UInt32.ofNat a = tail → bitGet bits (UInt32.ofNat w) = true := by
    intro a w hw hin
    obtain ⟨e, he, hkeep, heq⟩ := mem_arcs.mp hw
    obtain ⟨rfl, rfl⟩ := Prod.mk.inj heq
    rw [UInt32.ofNat_toNat] at hin ⊢
    refine (h e he hin).resolve_right fun hmem => ?_
    simp [hmem] at hkeep
  have hmem := hreach.mem_of_closed (S := {x | bitGet bits (UInt32.ofNat x) = true})
    (fun w hw => hstep _ w hw (.inr UInt32.ofNat_toNat)) fun a ha w hw => hstep a w hw (.inl ha)
  simp [hhead] at hmem

theorem checkCut_justified (h : checkCut st conclusion premises tail head bits = .ok ()) :
    Justified st premises conclusion := by
  unfold checkCut at h
  simp only [bind, Except.bind, throw, throwThe, MonadExceptOf.throw, pure, Except.pure] at h
  split at h
  · cases h
  · next r hr =>
    obtain ⟨hmem, hc⟩ := reachPairOfNegation_ok hr
    split_ifs at h with hends hsize hsep hcross
    simp only [ne_eq, not_or, not_not] at hends
    obtain ⟨rfl, rfl⟩ := hends
    simp only [Bool.or_eq_true, Bool.not_eq_true', not_or, Bool.not_eq_false, Bool.not_eq_true] at hsep
    have henc : Encloses st premises r.tail bits := by
      intro e he hin
      have htail : bitGet bits e.tail = true := hin.elim id fun heq => heq ▸ hsep.1
      by_contra hout
      rw [not_or] at hout
      refine hcross (any_eq_true.mpr ⟨e, he, ?_⟩)
      simp [htail, hout.1, hout.2]
    exact .separated r hmem hc (henc.not_reaches hsep.2)

theorem checkNoCycleThrough_justified (h : checkNoCycleThrough st conclusion premises tail bits = .ok ()) :
    Justified st premises conclusion := by
  unfold checkNoCycleThrough at h
  simp only [bind, Except.bind, throw, throwThe, MonadExceptOf.throw, pure, Except.pure] at h
  split at h
  · cases h
  · next r hr =>
    obtain ⟨hmem, hc⟩ := reachPairOfNegation_ok hr
    split_ifs at h with hends hsize hself hcross
    simp only [ne_eq, not_or, not_not] at hends
    obtain ⟨rfl, hloop⟩ := hends
    rw [Bool.not_eq_true] at hself
    have henc : Encloses st premises r.tail bits := by
      intro e he hin
      by_contra hout
      rw [not_or] at hout
      refine hcross (any_eq_true.mpr ⟨e, he, ?_⟩)
      simp [hin, hout.1, hout.2]
    exact .separated r hmem hc (henc.not_reaches (hloop ▸ hself))

theorem checkTopoOrder_justified (h : checkTopoOrder st conclusion premises order = .ok ()) :
    Justified st premises conclusion := by
  unfold checkTopoOrder at h
  simp only [bind, Except.bind, throw, throwThe, MonadExceptOf.throw, pure, Except.pure] at h
  split at h
  · cases h
  · next a ha =>
    split_ifs at h with hc horder hdesc
    rw [not_not] at hc
    -- any ranks that the edges climb will do
    refine .acyclic a (acyclicPairOf_ok ha) hc.symm
      (not_cyclic_of_rank (fun x => (ranks order 0 (fun _ => 0) x).toNat) fun x y hxy => ?_)
    obtain ⟨e, he, hkeep, heq⟩ := mem_arcs.mp hxy
    obtain ⟨rfl, rfl⟩ := Prod.mk.inj heq
    by_contra hle
    refine hdesc (any_eq_true.mpr ⟨e, he, ?_⟩)
    rw [hkeep, Bool.true_and, decide_eq_true_eq, UInt32.le_iff_toNat_le]
    exact Nat.le_of_not_lt hle

end

section

open GraphCertificate

variable {goalTerm literal : TermId} {rest : List TermId} {cert : GraphCertificate}
  {original : GraphStatement}

theorem negationOf_some (h : st.negationOf literal = some goalTerm) (hv : Respects st v) : v goalTerm = !v literal := by
  unfold negationOf at h
  split at h
  · next r hr =>
    have hmem := mem_of_find?_eq_some hr
    have hfound : r.atom = literal ∨ r.negation = literal := by simpa using find?_some hr
    have hneg := hv.negation r hmem
    obtain rfl := Option.some.inj h
    split
    · next ha => rw [← ha, hneg]
    · next ha =>
      rw [← hfound.resolve_left ha, hneg, Bool.not_not]
  · split at h
    · next atom negation ha =>
      have hneg : v negation = !v atom := (hv.acyclic _ ha).1
      split_ifs at h with h1 h2
      · obtain rfl := Option.some.inj h
        rw [← h1, hneg]
      · obtain rfl := Option.some.inj h
        rw [← h2, hneg, Bool.not_not]
    · cases h

theorem goal_sound (h : goal st conclusion premises = .ok (goalTerm, rest)) (hv : Respects st v)
    (hp : ∀ p ∈ premises, v p = true) : (∀ p ∈ rest, v p = true) ∧ (v goalTerm = true → v conclusion = true) := by
  unfold goal at h
  split at h
  · split at h
    · cases h
    · next opposite hopp =>
      obtain ⟨rfl, rfl⟩ := Prod.mk.inj (Except.ok.inj h)
      obtain ⟨literal, hlit, hneg⟩ := Option.bind_eq_some_iff.mp hopp
      refine ⟨fun p hmem => hp p (mem_of_mem_eraseP hmem), fun htrue => ?_⟩
      rw [negationOf_some hneg hv, hp literal (mem_of_find?_eq_some hlit)] at htrue
      cases htrue
  · obtain ⟨rfl, rfl⟩ := Prod.mk.inj (Except.ok.inj h)
    exact ⟨hp, fun h => h⟩

theorem check_justified (h : cert.check original conclusion premises = .ok ()) :
    ∃ goalTerm rest, goal cert.statement conclusion premises = .ok (goalTerm, rest) ∧
    Justified cert.statement rest goalTerm := by
  unfold check at h
  simp only [bind, Except.bind, throw, throwThe, MonadExceptOf.throw] at h
  split at h
  · cases h
  · split at h
    · cases h
    · next out hgoal =>
      obtain ⟨goalTerm, rest⟩ := out
      refine ⟨goalTerm, rest, hgoal, ?_⟩
      dsimp only at h
      split at h
      · exact checkPath_justified h
      · exact checkCut_justified h
      · exact checkCycle_justified h
      · exact checkNoCycleThrough_justified h
      · exact checkTopoOrder_justified h

/-- A certificate that is accepted is right in every valuation. -/
theorem check_sound (h : cert.check original conclusion premises = .ok ()) :
    Implies cert.statement premises conclusion := by
  intro v hv hp
  obtain ⟨goalTerm, rest, hgoal, hj⟩ := check_justified h
  obtain ⟨hrest, himp⟩ := goal_sound hgoal hv hp
  exact himp (hj.sound hv hrest)

def arrowStatement : GraphStatement where
  identity := 0
  edges := [⟨0, 1, 1, 2⟩]
  reach := [⟨0, 1, 3, 4⟩]
  acyclic := some (5, 6)
  vertices := 2
  falseTerm := 0
  edges_lt := by decide
  reach_lt := by decide

theorem check_sound_path :
    (GraphCertificate.mk arrowStatement (.path 0 1 [0])).check arrowStatement 3 [1] = .ok () ∧
      Implies arrowStatement [1] 3 :=
  ⟨rfl, @check_sound 3 [1] (.mk arrowStatement (.path 0 1 [0])) arrowStatement rfl⟩

end

end Nixie.GraphProof
