import Nixie.Euf.Verdict

/-!
Reasons for a disequality that is propagated: they force it, and values that differ are always explained.
-/

namespace Nixie.Euf

open Congruence

/-- The reasons are asserted, and every congruence that they and the values allow keeps the nodes apart. -/
structure Apart (props : ℕ → FunctionProperties) (nodes : List ENode) (A : Asserted) (reasons : List ℕ) (a b : ℕ) :
    Prop where
  asserted : ∀ reason ∈ reasons, ∃ x y, (x, y, reason) ∈ A.eqs ++ A.diseqs
  apart : ∀ R, (terms props nodes).IsCongruence R → (∀ x y, reasonEqs A.eqs reasons x y → R x y) →
    (∀ x y, reasonEqs A.diseqs reasons x y → ¬ R x y) →
    (∀ x y v w, A.mark x = some v → A.mark y = some w → v ≠ w → ¬ R x y) → ¬ R a b

namespace EufSolver

/-- Why `a = x` and `b = y`, with what lies between. -/
def explainBoth (s : EufSolver) (a x : ℕ) (between : List ℕ) (b y : ℕ) : EufSolver × Option (List ℕ) :=
  match s.tryExplainEquality a x with
  | (s, none) => (s, none)
  | (s, some expl) =>
    match s.tryExplainEquality b y with
    | (s, none) => (s, none)
    | (s, some expl') => (s, some (expl ++ between ++ expl'))

def tryExplainValueApart (s : EufSolver) (a b : ℕ) : EufSolver × Option (List ℕ) :=
  let (s, ra) := s.find a
  let (s, rb) := s.find b
  if ra = rb then (s, none)
  else match s.values.classValue ra, s.values.classValue rb with
    | some (va, wa), some (vb, wb) => if va = vb then (s, none) else s.explainBoth a wa [] b wb
    | _, _ => (s, none)

/-- Both explanations within the `u32` of `explain_generation`. -/
def explainBoth32 (s : EufSolver) (generation a x : ℕ) (between : List ℕ) (b y : ℕ) :
    Option (ℕ × EufSolver × Option (List ℕ)) :=
  match s.tryExplainEquality32 generation a x with
  | none => none
  | some (generation, s, none) => some (generation, s, none)
  | some (generation, s, some expl) =>
    match s.tryExplainEquality32 generation b y with
    | none => none
    | some (generation, s, none) => some (generation, s, none)
    | some (generation, s, some expl') => some (generation, s, some (expl ++ between ++ expl'))

def tryExplainValueApart32 (s : EufSolver) (generation a b : ℕ) : Option (ℕ × EufSolver × Option (List ℕ)) :=
  let (s, ra) := s.find a
  let (s, rb) := s.find b
  if ra = rb then some (generation, s, none)
  else match s.values.classValue ra, s.values.classValue rb with
    | some (va, wa), some (vb, wb) =>
      if va = vb then some (generation, s, none) else s.explainBoth32 generation a wa [] b wb
    | _, _ => some (generation, s, none)

def explainWatched (a b ra rb : ℕ) : List ℕ → EufSolver → EufSolver × Option (List ℕ)
  | [], s => (s, none)
  | idx :: watches, s =>
    match s.diseqs.diseqs[idx]? with
    | none => (s, none)
    | some d =>
      let between := if d.reason ≠ 0 then [d.reason] else []
      let (s, dl) := s.find d.lhs
      let (s, dr) := s.find d.rhs
      if dl = ra ∧ dr = rb then s.explainBoth a d.lhs between b d.rhs
      else if dl = rb ∧ dr = ra then s.explainBoth a d.rhs between b d.lhs
      else explainWatched a b ra rb watches s

def tryExplainDiseq (s : EufSolver) (a b : ℕ) : EufSolver × Option (List ℕ) :=
  let (s, ra) := s.find a
  let (s, rb) := s.find b
  if ra = rb then (s, none) else explainWatched a b ra rb (s.diseqs.diseqWatch.lists ra) s

variable {props : ℕ → FunctionProperties} {A : Asserted} {σ : List Asserted} {s : EufSolver} {a b x y : ℕ}
  {between reasons : List ℕ}

theorem explainBoth32_eq {generation : ℕ} {r : ℕ × EufSolver × Option (List ℕ)}
    (h : s.explainBoth32 generation a x between b y = some r) : s.explainBoth a x between b y = r.2 := by
  unfold explainBoth32 at h
  unfold explainBoth
  split at h
  · cases h
  · next hax =>
    cases h
    rw [tryExplainEquality32_eq hax]
  · next hax =>
    rw [tryExplainEquality32_eq hax]
    dsimp only
    split at h
    · cases h
    · next hby =>
      cases h
      rw [tryExplainEquality32_eq hby]
    · next hby =>
      cases h
      rw [tryExplainEquality32_eq hby]

theorem tryExplainValueApart32_eq {generation : ℕ} {r : ℕ × EufSolver × Option (List ℕ)}
    (h : s.tryExplainValueApart32 generation a b = some r) : s.tryExplainValueApart a b = r.2 := by
  unfold tryExplainValueApart32 at h
  unfold tryExplainValueApart
  dsimp only at h ⊢
  split_ifs at h ⊢
  · cases h
    rfl
  · split at h
    · split_ifs at h ⊢
      · cases h
        rfl
      · exact explainBoth32_eq h
    · cases h
      rfl

theorem Inv.root_find (h : Inv props A s) (a : ℕ) : (s.find a).1.root = s.root := h.sound.uf.find.root

theorem Inv.explainBoth (h : Inv props A s) (a x : ℕ) (between : List ℕ) (b y : ℕ) :
    (∀ reasons, (s.explainBoth a x between b y).2 = some reasons → ∃ l l', reasons = l ++ between ++ l' ∧
    Explained props s.nodes A.eqs l a x ∧ Explained props s.nodes A.eqs l' b y) ∧
    (s.root a = s.root x → s.root b = s.root y → (s.explainBoth a x between b y).2.isSome) := by
  obtain ⟨cache, hstate, hinv, hexplained, hsome⟩ := h.tryExplainEquality a x
  obtain ⟨-, -, -, hexplained', hsome'⟩ := hinv.tryExplainEquality b y
  unfold EufSolver.explainBoth
  cases hax : s.tryExplainEquality a x with
  | mk s₁ found =>
    rw [hax] at hstate hexplained hsome
    obtain rfl : s₁ = { s with explCache := cache } := hstate
    cases found with
    | none => exact ⟨by simp, fun hroot => absurd (hsome hroot) (by simp)⟩
    | some l =>
      dsimp only
      cases hby : EufSolver.tryExplainEquality { s with explCache := cache } b y with
      | mk s₂ found' =>
        rw [hby] at hexplained' hsome'
        cases found' with
        | none => exact ⟨by simp, fun _ hroot => absurd (hsome' hroot) (by simp)⟩
        | some l' =>
          refine ⟨fun reasons heq => ?_, fun _ _ => rfl⟩
          exact ⟨l, l', (Option.some.inj heq).symm, hexplained l rfl, hexplained' l' rfl⟩

/-- Explanations of both sides carry over that the other ends are apart. -/
theorem apart_of_explained {l l' : List ℕ} (hax : Explained props s.nodes A.eqs l a x)
    (hby : Explained props s.nodes A.eqs l' b y) (hbetween : ∀ r ∈ between, ∃ x y, (x, y, r) ∈ A.diseqs)
    (hxy : ∀ R, (terms props s.nodes).IsCongruence R → (∀ x y, reasonEqs A.diseqs (l ++ between ++ l') x y → ¬ R x y) →
      (∀ x y v w, A.mark x = some v → A.mark y = some w → v ≠ w → ¬ R x y) → ¬ R x y) :
    Apart props s.nodes A (l ++ between ++ l') a b where
  asserted reason hr := by
    simp only [List.mem_append] at hr ⊢
    rcases hr with (hr | hr) | hr
    · exact (hax.asserted reason hr).imp fun x ⟨y, hmem⟩ => ⟨y, .inl hmem⟩
    · exact (hbetween reason hr).imp fun x ⟨y, hmem⟩ => ⟨y, .inr hmem⟩
    · exact (hby.asserted reason hr).imp fun x ⟨y, hmem⟩ => ⟨y, .inl hmem⟩
  apart R hR heqs hdiseqs hvalues hab := by
    have hRax : R a x := related_of_explained hax (fun r hr => by simp [hr]) hR heqs
    have hRby : R b y := related_of_explained hby (fun r hr => by simp [hr]) hR heqs
    exact hxy R hR hdiseqs hvalues (hR.equivalence.trans (hR.equivalence.symm hRax) (hR.equivalence.trans hab hRby))

theorem Inv.explainWatched (h : Inv props A s) (ra rb : ℕ) (watches : List ℕ) :
    (explainWatched a b ra rb watches s).2 = some reasons → Apart props s.nodes A reasons a b := by
  induction watches generalizing s with
  | nil => exact fun heq => by cases heq
  | cons idx watches ih =>
    intro heq
    rw [EufSolver.explainWatched] at heq
    cases hd : s.diseqs.diseqs[idx]? with
    | none => rw [hd] at heq; cases heq
    | some d =>
      rw [hd] at heq
      have hmem : d.assertion ∈ A.diseqs := h.diseqs ▸ List.mem_map_of_mem (List.mem_of_getElem? hd)
      dsimp only at heq
      set between := if d.reason ≠ 0 then [d.reason] else [] with hbetween
      have hinv := (h.find (a := d.lhs)).find (a := d.rhs)
      have hapart : ∀ {x y : ℕ}, (x, y, d.reason) ∈ A.diseqs ∨ (y, x, d.reason) ∈ A.diseqs →
          (((s.find d.lhs).1.find d.rhs).1.explainBoth a x between b y).2 = some reasons →
          Apart props s.nodes A reasons a b := by
        intro x y hxy heq
        obtain ⟨l, l', rfl, hax, hby⟩ := (hinv.explainBoth a x between b y).1 reasons heq
        have hbetween' : ∀ r ∈ between, r = d.reason := fun r hr => by
          rw [hbetween] at hr
          split_ifs at hr <;> simp_all
        refine apart_of_explained (s := s) hax hby
          (fun r hr => hbetween' r hr ▸ ⟨_, _, hmem⟩) fun R hR hdiseqs _ hRxy => ?_
        have hreason : d.reason = 0 ∨ d.reason ∈ l ++ between ++ l' := by
          by_cases hzero : d.reason = 0
          · exact .inl hzero
          · exact .inr (by simp [hbetween, hzero])
        rcases hxy with hxy | hxy
        · exact hdiseqs x y ⟨d.reason, hreason, hxy⟩ hRxy
        · exact hdiseqs y x ⟨d.reason, hreason, hxy⟩ (hR.equivalence.symm hRxy)
      split_ifs at heq
      · exact hapart (.inl hmem) heq
      · exact hapart (.inr hmem) heq
      · have hrest := ih hinv heq
        exact hrest

/-- The reasons that are given for a disequality force it. -/
theorem tryExplainDiseq_apart (h : Reaches props s A σ) (a b : ℕ)
    (hreasons : (s.tryExplainDiseq a b).2 = some reasons) : Apart props s.nodes A reasons a b := by
  unfold EufSolver.tryExplainDiseq at hreasons
  dsimp only at hreasons
  split_ifs at hreasons
  have happart := ((h.inv.1.find (a := a)).find (a := b)).explainWatched _ _ _ hreasons
  exact happart

def threeTerms : EufSolver := (((({} : EufSolver).intern 10).1.intern 11).1.intern 12).1

theorem tryExplainDiseq_apart_threeTerms : ∃ A, A.eqs = [(0, 1, 7)] ∧ A.diseqs = [(2, 1, 5)] ∧
    Apart (fun _ => {}) threeTerms.nodes A [7, 5] 0 2 := by
  have hreaches : Reaches (fun _ => {}) threeTerms _ [] := .intern 12 (.intern 11 (.intern 10 .init))
  have hdiseq := (hreaches.merge 0 1 7 (by decide) (by decide)).assertDiseq 2 1 5 (by decide) (by decide)
  exact ⟨_, rfl, rfl, tryExplainDiseq_apart hdiseq 0 2 (by decide)⟩

/-- The reasons for different values force the classes apart, and unless a class has two values, none are missed,
as long as the generation does not overflow. -/
theorem tryExplainValueApart_exact (h : Reaches props s A σ) (a b : ℕ) {generation generation' : ℕ} {s' : EufSolver}
    {answer : Option (List ℕ)} (hanswer : s.tryExplainValueApart32 generation a b = some (generation', s', answer)) :
    (∀ reasons, answer = some reasons → Apart props s.nodes A reasons a b) ∧
    ((∀ x y v w, A.mark x = some v → A.mark y = some w → (s.find x).2 = (s.find y).2 → v = w) →
    (answer.isSome ↔ ∃ x y v w, A.mark x = some v ∧ A.mark y = some w ∧ v ≠ w ∧ (s.find x).2 = (s.find a).2 ∧
    (s.find y).2 = (s.find b).2)) := by
  obtain rfl : (s.tryExplainValueApart a b).2 = answer := congrArg Prod.snd (tryExplainValueApart32_eq hanswer)
  clear hanswer
  have hinv := h.inv.1
  have hinv' := (hinv.find (a := a)).find (a := b)
  have hroot : ((s.find a).1.find b).1.root = s.root := ((hinv.find (a := a)).root_find b).trans (hinv.root_find a)
  have hwitness := fun c v w => hinv.values.witness (s.root c) v w hinv.sound.uf.root_root
  unfold EufSolver.tryExplainValueApart
  dsimp only
  rw [show (s.find a).2 = s.root a from rfl,
    show ((s.find a).1.find b).2 = s.root b from congrFun (hinv.root_find a) b]
  split_ifs with hsame
  · refine ⟨by simp, fun hquiet => ⟨by simp, ?_⟩⟩
    rintro ⟨x, y, v, w, hx, hy, hvw, hxa, hyb⟩
    exact absurd (hquiet x y v w hx hy (hxa.trans (hsame.trans hyb.symm))) hvw
  have hvalue : (∀ x y v w, A.mark x = some v → A.mark y = some w → (s.find x).2 = (s.find y).2 → v = w) →
      ∀ c x v, A.mark x = some v → s.root x = s.root c → ∃ w, s.values.classValue (s.root c) = some (v, w) :=
    fun hquiet c x v hx hxc => hxc ▸ hinv.values.quiet (hinv.values.pending_eq_none_iff.mpr hquiet) x v hx
  split
  next va wa vb wb hva hvb =>
    obtain ⟨hroota, hmarka⟩ := hwitness a va wa hva
    obtain ⟨hrootb, hmarkb⟩ := hwitness b vb wb hvb
    split_ifs with hv
    · refine ⟨by simp, fun hquiet => ⟨by simp, ?_⟩⟩
      rintro ⟨x, y, v, w, hx, hy, hvw, hxa, hyb⟩
      obtain ⟨wa', ha⟩ := hvalue hquiet a x v hx hxa
      obtain ⟨wb', hb⟩ := hvalue hquiet b y w hy hyb
      cases hva.symm.trans ha
      cases hvb.symm.trans hb
      exact absurd hv hvw
    · obtain ⟨hfound, hsome⟩ := hinv'.explainBoth a wa [] b wb
      rw [hroot] at hsome
      refine ⟨fun reasons heq => ?_, fun _ => ⟨fun _ => ⟨wa, wb, va, vb, hmarka, hmarkb, hv, hroota, hrootb⟩,
        fun _ => hsome hroota.symm hrootb.symm⟩⟩
      obtain ⟨l, l', rfl, hax, hby⟩ := hfound reasons heq
      exact apart_of_explained (s := s) hax hby (by simp) fun R _ _ hvalues => hvalues wa wb va vb hmarka hmarkb hv
  next hnone =>
    refine ⟨by simp, fun hquiet => ⟨by simp, ?_⟩⟩
    rintro ⟨x, y, v, w, hx, hy, -, hxa, hyb⟩
    obtain ⟨wa, ha⟩ := hvalue hquiet a x v hx hxa
    obtain ⟨wb, hb⟩ := hvalue hquiet b y w hy hyb
    exact (hnone v wa w wb ha hb).elim

/-- The second and the third term are values. -/
def twoValues : EufSolver :=
  ((((({} : EufSolver).declareValueConst 11 1).declareValueConst 12 2).intern 10).1.intern 11).1.intern 12 |>.1

theorem tryExplainValueApart_exact_twoValues : ∃ A, A.eqs = [(0, 1, 7)] ∧ A.diseqs = [] ∧
    Apart (fun _ => {}) twoValues.nodes A [7] 0 2 := by
  have hreaches : Reaches (fun _ => {}) twoValues _ [] :=
    .intern 12 (.intern 11 (.intern 10 (.declareValueConst 12 2 (.declareValueConst 11 1 .init))))
  have hmerge := hreaches.merge 0 1 7 (by decide) (by decide)
  exact ⟨_, rfl, rfl, (@tryExplainValueApart_exact _ _ _ _ hmerge 0 2 0 1 _ (some [7]) rfl).1 [7] rfl⟩

end EufSolver

end Nixie.Euf
