import Nixie.Euf.Rewind

/-!
The invariant of the e-graph with respect to what has been asserted, and that propagation keeps
it.
-/

namespace Nixie.Euf

open Congruence Undo UnionFind List

/-- The equalities and disequalities in force, each with its reason, and the values with which
nodes were created. -/
structure Asserted where
  eqs : List (ℕ × ℕ × ℕ) := []
  diseqs : List (ℕ × ℕ × ℕ) := []
  mark : ℕ → Option ℕ := fun _ => none

def Diseq.assertion (d : Diseq) : ℕ × ℕ × ℕ := (d.lhs, d.rhs, d.reason)

def reasonEqs (eqs : List (ℕ × ℕ × ℕ)) (reasons : List ℕ) (x y : ℕ) : Prop :=
  ∃ reason, (reason = 0 ∨ reason ∈ reasons) ∧ (x, y, reason) ∈ eqs

structure Explained (props : ℕ → FunctionProperties) (nodes : List ENode)
    (eqs : List (ℕ × ℕ × ℕ)) (reasons : List ℕ) (x y : ℕ) : Prop where
  asserted : ∀ reason ∈ reasons, ∃ x y, (x, y, reason) ∈ eqs
  congruent : (terms props nodes).Congruent (reasonEqs eqs reasons) x y

namespace EufSolver

structure Inv (props : ℕ → FunctionProperties) (A : Asserted) (s : EufSolver) : Prop where
  sound : Sound props s
  closed : Closed props A.eqs s
  forested : ∃ log, Forested props A.eqs s log
  clean : Clean s
  tracks : s.diseqs.Tracks s.root
  diseqs : s.diseqs.diseqs.map Diseq.assertion = A.diseqs
  values : s.values.Summarizes A.mark s.root
  mark : ∀ x, s.nodes.length ≤ x → A.mark x = none
  eqs : ∀ e ∈ A.eqs, e.1 < s.nodes.length ∧ e.2.1 < s.nodes.length
  cached : ∀ key reasons, (key, reasons) ∈ s.explCache →
    Explained props s.nodes A.eqs reasons key.1 key.2

variable {props : ℕ → FunctionProperties} {A : Asserted} {s s' : EufSolver}
  {a b newRoot otherRoot : ℕ} {reason : MergeReason} {skipped rest : List (ℕ × ℕ × MergeReason)}

theorem Inv.skip (h : Inv props A s) {uf : UnionFind} (hpending : s.pending = skipped ++ rest)
    (hskipped : ∀ e ∈ skipped, s.root e.1 = s.root e.2.1) (huf : Agrees s.nodes.length s.uf uf) :
    Inv props A { s with uf := uf, pending := rest } where
  sound := h.sound.skip huf fun e he => hpending ▸ mem_append_right _ he
  closed := h.closed.skip hpending hskipped huf.root
  forested := h.forested.imp fun log hlog => hlog.congr rfl huf.root rfl
  clean := h.clean.skip huf
  tracks := by
    rw [root, huf.root]
    exact h.tracks
  diseqs := h.diseqs
  values := by
    rw [root, huf.root]
    exact h.values
  mark := h.mark
  eqs := h.eqs
  cached := h.cached

theorem Inv.reframe {uf : UnionFind} {counts : ℕ × ℕ → ℕ} {stack : List ContextState}
    {consts : ℕ → Option ℕ} {functions : ℕ → Option FunctionProperties}
    {cache : List ((ℕ × ℕ) × List ℕ)} {stamp : ℕ} (h : Inv props A s)
    (huf : uf.WF s.nodes.length) (hroot : uf.findNoCompress = s.root)
    (hfunctions : ∀ node ∈ s.nodes, node.isApp → (functions node.func).getD {} = props node.func)
    (hlimits : uf.trailLimits.length = stack.length + 1)
    (hcache : ∀ key reasons, (key, reasons) ∈ cache →
      Explained props s.nodes A.eqs reasons key.1 key.2) :
    Inv props A { s with
      uf := uf
      diseqs := { s.diseqs with diseqPairCounts := counts }
      contextStack := stack
      valueConsts := consts
      functionProperties := functions
      explCache := cache
      proofStamp := stamp } where
  sound := by
    refine ⟨huf, hfunctions, ?_, h.sound.pending⟩
    rw [root, hroot]
    exact h.sound.table
  closed := by
    refine ⟨?_, ?_, ?_, ?_⟩ <;> simp only [root, hroot]
    · exact h.closed.uses
    · exact h.closed.published
    · exact h.closed.holds
    · exact h.closed.justified
  forested := h.forested.imp fun log hlog => hlog.congr rfl hroot rfl
  clean := ⟨h.clean.useList, h.clean.proofForest, h.clean.diseqWatch, h.clean.classValue,
    h.clean.termToNode, h.clean.args, hlimits⟩
  tracks := by
    rw [root, hroot]
    exact ⟨⟨h.tracks.watched.lhs, h.tracks.watched.rhs⟩, h.tracks.cached, h.tracks.pending.quiet,
      h.tracks.pending.conflict⟩
  diseqs := h.diseqs
  values := by
    rw [root, hroot]
    exact h.values
  mark := h.mark
  eqs := h.eqs
  cached := hcache

theorem Inv.merged (h : Inv props A s) (hpending : s.pending = (a, b, reason) :: rest)
    (hmerged : Merged props { s with pending := rest } s' a b reason newRoot otherRoot) :
    Inv props A s' := by
  have hab := h.sound.pending (a, b, reason) (by simp [hpending])
  have hrest : Sound props { s with pending := rest } :=
    h.sound.skip (.refl h.sound.uf) fun e he => hpending ▸ mem_cons_of_mem _ he
  have hjustified := h.closed.justified (a, b, reason) (by simp [hpending])
  exact
    { sound := hrest.merged hmerged
      closed := h.closed.merged hmerged hpending
      forested := h.forested.elim fun log hlog => ⟨_, hlog.merged hmerged hjustified hab⟩
      clean := h.clean.merged h.sound hab hmerged
      tracks := by
        rw [hmerged.diseqs]
        exact h.tracks.mergeClasses hmerged.roots hmerged.root_apply
      diseqs := by
        rw [hmerged.diseqs, Disequalities.map_mergeClasses fun _ _ => rfl]
        exact h.diseqs
      values := by
        rw [hmerged.values]
        exact h.values.mergeClasses hmerged.roots h.sound.uf.root_root h.sound.uf.root_root hmerged.root_apply
      mark := by
        rw [hmerged.nodes]
        exact h.mark
      eqs := by
        rw [hmerged.nodes]
        exact h.eqs
      cached := by
        rw [hmerged.explCache]
        intro key reasons hmem
        cases hmem }

structure Frame (s s' : EufSolver) : Prop where
  nodes : s'.nodes = s.nodes
  valueConsts : s'.valueConsts = s.valueConsts
  functionProperties : s'.functionProperties = s.functionProperties

theorem Inv.propagate (h : Inv props A s) : Inv props A s.propagate ∧ Extends s s.propagate ∧ Frame s s.propagate ∧
    s.propagate.pending = [] := by
  let P : EufSolver → Prop := fun t => Inv props A t ∧ Extends s t ∧ Frame s t
  have hskip (t : EufSolver) (uf : UnionFind) (skipped rest : List (ℕ × ℕ × MergeReason))
      (_ : Sound props t) (hP : P t) (hpending : t.pending = skipped ++ rest)
      (hskipped : ∀ e ∈ skipped, t.root e.1 = t.root e.2.1) (huf : Agrees t.nodes.length t.uf uf) :
      P { t with uf := uf, pending := rest } := by
    obtain ⟨hinv, hextends, hframe⟩ := hP
    exact ⟨hinv.skip hpending hskipped huf, hextends.trans (.skip hinv.clean huf),
      hframe.nodes, hframe.valueConsts, hframe.functionProperties⟩
  have hmerge (t t' : EufSolver) (a b : ℕ) (reason : MergeReason)
      (rest : List (ℕ × ℕ × MergeReason)) (newRoot otherRoot : ℕ) (_ : Sound props t) (hP : P t)
      (hpending : t.pending = (a, b, reason) :: rest)
      (hmerged : Merged props { t with pending := rest } t' a b reason newRoot otherRoot) :
      P t' := by
    obtain ⟨hinv, hextends, hframe⟩ := hP
    exact ⟨hinv.merged hpending hmerged, hextends.trans (.merged hinv.clean hmerged),
      hmerged.nodes.trans hframe.nodes, hmerged.valueConsts.trans hframe.valueConsts,
      hmerged.functionProperties.trans hframe.functionProperties⟩
  obtain ⟨-, ⟨hinv, hextends, hframe⟩, hpending⟩ :=
    propagate_induct hskip hmerge h.sound ⟨h, .refl s, rfl, rfl, rfl⟩
  exact ⟨hinv, hextends, hframe, hpending⟩

variable {props : ℕ → FunctionProperties} {A : Asserted} {s s' : EufSolver} {a b reason : ℕ}
  {e : ℕ × ℕ × MergeReason} {eqs : List (ℕ × ℕ × ℕ)}

theorem Inv.enqueue (h : Inv props A s) (heqs : ∀ q ∈ A.eqs, q ∈ eqs)
    (hnew : ∀ x y r, (x, y, r) ∈ eqs → (x, y, r) ∈ A.eqs ∨ x = e.1 ∧ y = e.2.1)
    (hlt : e.1 < s.nodes.length ∧ e.2.1 < s.nodes.length)
    (hjustified : Justified (terms props s.nodes) (fun x y => s.root x = s.root y) eqs e) :
    Inv props { A with eqs := eqs } { s with explCache := [], pending := e :: s.pending } := by
  have hcons : ∀ q ∈ s.pending, q ∈ e :: s.pending := fun q hq => mem_cons_of_mem _ hq
  refine ⟨⟨h.sound.uf, h.sound.functions, h.sound.table, ?_⟩, ⟨h.closed.uses, ?_, ?_, ?_⟩, ?_,
    { h.clean with }, h.tracks, h.diseqs, h.values, h.mark, ?_, ?_⟩
  · exact forall_mem_cons.mpr ⟨hlt, h.sound.pending⟩
  · intro u node hnode happ
    obtain ⟨v, hv, hlinked⟩ := h.closed.published u node hnode happ
    exact ⟨v, hv, hlinked.mono hcons⟩
  · intro x y r hmem
    rcases hnew x y r hmem with hmem | ⟨rfl, rfl⟩
    · exact (h.closed.holds x y r hmem).mono hcons
    · exact .of_mem mem_cons_self
  · refine forall_mem_cons.mpr ⟨hjustified, fun q hq => ?_⟩
    exact (h.closed.justified q hq).mono (fun _ _ h => h) heqs
  · obtain ⟨log, hlog⟩ := h.forested
    exact ⟨log, { hlog with grown := hlog.grown.mono (fun _ _ h => h) (fun _ => .rfl) heqs }⟩
  · rintro ⟨x, y, r⟩ hmem
    rcases hnew x y r hmem with hmem | ⟨rfl, rfl⟩
    · exact h.eqs _ hmem
    · exact hlt
  · intro key reasons hmem
    cases hmem

theorem extends_enqueue : Extends s { s with explCache := [], pending := e :: s.pending } := { Extends.refl s with }

theorem Inv.merge (h : Inv props A s) (hab : a < s.nodes.length ∧ b < s.nodes.length) :
    Inv props { A with eqs := A.eqs ++ [(a, b, reason)] } (s.merge a b reason) ∧
      Extends s (s.merge a b reason) ∧ Frame s (s.merge a b reason) ∧
      (s.merge a b reason).pending = [] := by
  have hpending : Inv props { A with eqs := A.eqs ++ [(a, b, reason)] }
      { s with explCache := [], pending := (a, b, .assertion reason) :: s.pending } := by
    refine h.enqueue (fun q hq => mem_append_left _ hq) (fun x y r hmem => ?_) hab
      (mem_append_right _ (mem_singleton.mpr rfl))
    rcases mem_append.mp hmem with hmem | hmem
    · exact .inl hmem
    · cases mem_singleton.mp hmem
      exact .inr ⟨rfl, rfl⟩
  obtain ⟨hinv, hextends, hframe, hdone⟩ := hpending.propagate
  exact ⟨hinv, extends_enqueue.trans hextends, ⟨hframe.nodes, hframe.valueConsts, hframe.functionProperties⟩, hdone⟩

theorem Inv.assertDiseq (h : Inv props A s) (hab : a < s.nodes.length ∧ b < s.nodes.length) :
    Inv props { A with diseqs := A.diseqs ++ [(a, b, reason)] } (s.assertDiseq a b reason) where
  sound := ⟨h.sound.uf, h.sound.functions, h.sound.table, h.sound.pending⟩
  closed := ⟨h.closed.uses, h.closed.published, h.closed.holds, h.closed.justified⟩
  forested := h.forested.imp fun log hlog => hlog.congr rfl rfl rfl
  clean := { h.clean with
    diseqWatch := by
      intro i hi
      rw [eq_nil_iff_forall_not_mem]
      intro j hj
      rcases Disequalities.mem_assertDiseq_watch.mp hj with hj | ⟨hroot, -⟩
      · rw [h.clean.diseqWatch i hi] at hj
        cases hj
      · have hA := h.sound.uf.root_lt hab.1
        have hB := h.sound.uf.root_lt hab.2
        have hi : s.nodes.length ≤ i := hi
        omega }
  tracks := h.tracks.assertDiseq
  diseqs := by
    simp only [EufSolver.assertDiseq, Disequalities.assertDiseq_diseqs, map_append, h.diseqs]
    rfl
  values := h.values
  mark := h.mark
  eqs := h.eqs
  cached := h.cached

theorem extends_assertDiseq : Extends s (s.assertDiseq a b reason) :=
  { Extends.refl s with
    numDiseqs := by
      simp [EufSolver.assertDiseq, Disequalities.assertDiseq_diseqs]
    diseqs := by
      intro hs n _ k hk
      simp only [EufSolver.assertDiseq, hs]
      exact Disequalities.extends_assertDiseq hk }

theorem Inv.find (h : Inv props A s) : Inv props A (s.find a).1 :=
  h.skip (nil_append _).symm (by simp) h.sound.uf.find

theorem Inv.extends_find (h : Inv props A s) : Extends s (s.find a).1 := .skip h.clean h.sound.uf.find

end EufSolver

end Nixie.Euf
