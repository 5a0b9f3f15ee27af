import Nixie.Euf.Explained
import Nixie.Euf.Intern

/-!
Conflicts: there is one exactly if a disequality is violated or a class has two values, and the
reasons that are given for it cannot hold together.
-/

namespace Nixie.Euf

open Congruence List Option

def Inconsistent (props : ℕ → FunctionProperties) (nodes : List ENode) (A : Asserted)
    (reasons : List ℕ) : Prop :=
  ¬ ∃ R, (terms props nodes).IsCongruence R ∧ (∀ x y, reasonEqs A.eqs reasons x y → R x y) ∧
    (∀ x y, reasonEqs A.diseqs reasons x y → ¬ R x y) ∧
    ∀ x y v w, A.mark x = some v → A.mark y = some w → v ≠ w → ¬ R x y

namespace EufSolver

variable {props : ℕ → FunctionProperties} {A : Asserted} {s : EufSolver} {x y v w : ℕ}
  {reasons reasons' : List ℕ} {nodes : List ENode}

theorem reasonEqs_mono {eqs : List (ℕ × ℕ × ℕ)} (hsub : ∀ r ∈ reasons, r ∈ reasons')
    (h : reasonEqs eqs reasons x y) : reasonEqs eqs reasons' x y := by
  obtain ⟨reason, hreason, hmem⟩ := h
  exact ⟨reason, hreason.imp_right (hsub reason), hmem⟩

theorem related_of_explained {R : ℕ → ℕ → Prop} (h : Explained props nodes A.eqs reasons x y)
    (hsub : ∀ r ∈ reasons, r ∈ reasons') (hR : (terms props nodes).IsCongruence R)
    (heqs : ∀ x y, reasonEqs A.eqs reasons' x y → R x y) : R x y :=
  h.congruent.least hR fun x y hxy => heqs x y (reasonEqs_mono hsub hxy)

theorem inconsistent_of_diseq (h : Explained props nodes A.eqs reasons x y) (hsub : ∀ r ∈ reasons, r ∈ reasons')
    {reason : ℕ} (hreason : reason ∈ reasons') (hmem : (x, y, reason) ∈ A.diseqs) :
    Inconsistent props nodes A reasons' := by
  rintro ⟨R, hR, heqs, hdiseqs, -⟩
  exact hdiseqs x y ⟨reason, .inr hreason, hmem⟩ (related_of_explained h hsub hR heqs)

theorem inconsistent_of_values (h : Explained props nodes A.eqs reasons x y) (hsub : ∀ r ∈ reasons, r ∈ reasons')
    (hx : A.mark x = some v) (hy : A.mark y = some w) (hvw : v ≠ w) : Inconsistent props nodes A reasons' := by
  rintro ⟨R, hR, heqs, -, hvalues⟩
  exact hvalues x y v w hx hy hvw (related_of_explained h hsub hR heqs)

theorem Inv.pendingDiseqConflict_iff (h : Inv props A s) :
    s.diseqs.pendingDiseqConflict = none ↔ ∀ d ∈ A.diseqs, s.root d.1 ≠ s.root d.2.1 := by
  rw [← h.diseqs]
  constructor
  · intro hnone d hd
    obtain ⟨q, hq, rfl⟩ := mem_map.mp hd
    exact h.tracks.pending.quiet hnone q hq
  · intro hall
    cases hpending : s.diseqs.pendingDiseqConflict with
    | none => rfl
    | some i =>
      obtain ⟨q, hq, hroot⟩ := h.tracks.pending.conflict i hpending
      exact absurd hroot (hall q.assertion (mem_map_of_mem (mem_of_getElem? hq)))

theorem Inv.checkConflicts (h : Inv props A s) : ∃ cache, s.checkConflicts.1 = { s with explCache := cache } ∧
    Inv props A { s with explCache := cache } ∧
    (s.checkConflicts.2 = none ↔ (∀ d ∈ A.diseqs, s.root d.1 ≠ s.root d.2.1) ∧ ∀ x y v w, A.mark x = some v →
    A.mark y = some w → s.root x = s.root y → v = w) ∧ ∀ reasons, s.checkConflicts.2 = some reasons →
    Inconsistent props s.nodes A reasons := by
  rw [← h.pendingDiseqConflict_iff, ← h.values.pending_eq_none_iff]
  unfold EufSolver.checkConflicts
  cases hdiseq : s.diseqs.pendingDiseqConflict with
  | none =>
    cases hvalue : s.values.pendingValueConflict with
    | none => exact ⟨s.explCache, rfl, h, by simp, by simp⟩
    | some pair =>
      obtain ⟨wa, wb⟩ := pair
      obtain ⟨hroot, v, w, hwa, hwb, hvw⟩ := h.values.conflict wa wb hvalue
      obtain ⟨cache, hcache, hinv, hexplained, hsome⟩ := h.tryExplainEquality wa wb
      obtain ⟨reasons, hreasons⟩ := isSome_iff_exists.mp (hsome hroot)
      have hpair : s.tryExplainEquality wa wb = ({ s with explCache := cache }, some reasons) :=
        Prod.ext hcache hreasons
      dsimp only
      rw [hpair]
      refine ⟨cache, rfl, hinv, by simp, fun reasons' heq => ?_⟩
      dsimp only at heq
      refine inconsistent_of_values (hexplained reasons hreasons) (fun r hr => ?_) hwa hwb hvw
      rw [if_pos (ne_nil_of_mem hr)] at heq
      cases heq
      exact hr
  | some i =>
    obtain ⟨d, hd, hroot⟩ := h.tracks.pending.conflict i hdiseq
    have hmem : d.assertion ∈ A.diseqs := by
      rw [← h.diseqs]
      exact mem_map_of_mem (mem_of_getElem? hd)
    obtain ⟨cache, hcache, hinv, hexplained, hsome⟩ := h.tryExplainEquality d.lhs d.rhs
    obtain ⟨reasons, hreasons⟩ := isSome_iff_exists.mp (hsome hroot)
    simp only [hd, hcache, hreasons, getD_some]
    refine ⟨cache, rfl, hinv, by simp, fun reasons' heq => ?_⟩
    have heq : (if d.reason ∈ reasons then reasons else reasons ++ [d.reason]) = reasons' := some.inj heq
    have hsub : ∀ r ∈ reasons, r ∈ reasons' := by grind
    have hreason : d.reason ∈ reasons' := by grind
    exact inconsistent_of_diseq (hexplained reasons hreasons) hsub hreason hmem

end EufSolver

open UnionFind

/-- The states that are reached by calls on a new solver, with what is asserted in them and in
the states in which the open scopes were entered. The symbols have fixed properties, which are
registered before the symbol is used. -/
inductive Reaches (props : ℕ → FunctionProperties) :
    EufSolver → Asserted → List Asserted → Prop
  | init : Reaches props {} {} []
  | registerFunction {s A σ} (func : ℕ) :
      Reaches props s A σ → Reaches props (s.registerFunction func (props func)) A σ
  | declareValueConst {s A σ} (term value : ℕ) :
      Reaches props s A σ → Reaches props (s.declareValueConst term value) A σ
  | intern {s A σ} (term : ℕ) : Reaches props s A σ →
      Reaches props (s.intern term).1 (A.create s term (s.valueConsts term)) σ
  | internApp {s A σ} (term func : ℕ) (args : List ℕ) :
      func ≠ ENode.noFunc → s.getFunctionProps func = props func →
      (∀ x ∈ args, x < s.nodes.length) → Reaches props s A σ →
      Reaches props (s.internApp term func args).1 (A.create s term none) σ
  | merge {s A σ} (a b reason : ℕ) :
      a < s.nodes.length → b < s.nodes.length → Reaches props s A σ →
      Reaches props (s.merge a b reason) { A with eqs := A.eqs ++ [(a, b, reason)] } σ
  | assertDiseq {s A σ} (a b reason : ℕ) :
      a < s.nodes.length → b < s.nodes.length → Reaches props s A σ →
      Reaches props (s.assertDiseq a b reason) { A with diseqs := A.diseqs ++ [(a, b, reason)] } σ
  | find {s A σ} (a : ℕ) :
      Reaches props s A σ → Reaches props (s.find a).1 A σ
  | tryExplainEquality {s A σ} (a b : ℕ) :
      Reaches props s A σ → Reaches props (s.tryExplainEquality a b).1 A σ
  | checkConflicts {s A σ} :
      Reaches props s A σ → Reaches props s.checkConflicts.1 A σ
  | push {s A σ} :
      Reaches props s A σ → Reaches props s.push A (A :: σ)
  | pop {s A B σ} :
      Reaches props s A (B :: σ) → Reaches props s.pop B σ
  | reset {s A σ} : Reaches props s A σ → Reaches props s.reset {} []

namespace EufSolver

variable {props : ℕ → FunctionProperties} {A : Asserted} {σ : List Asserted} {s s' t : EufSolver}

def Scoped (props : ℕ → FunctionProperties) : List Asserted → EufSolver → Prop
  | [], _ => True
  | B :: σ, s => ∃ entry, Inv props B entry ∧ entry.pending = [] ∧ Extends entry.push s ∧
      Scoped props σ entry

theorem Scoped.extend (h : Scoped props σ s) (hextends : Extends s s') : Scoped props σ s' := by
  cases σ with
  | nil => trivial
  | cons B σ =>
    obtain ⟨entry, hinv, hpending, hentry, hscoped⟩ := h
    exact ⟨entry, hinv, hpending, hentry.trans hextends, hscoped⟩

theorem root_cleared (consts : ℕ → Option ℕ) (x : ℕ) : ({ valueConsts := consts } : EufSolver).root x = x := rfl

theorem inv_cleared (consts : ℕ → Option ℕ) : Inv props {} { valueConsts := consts } where
  sound := by
    refine ⟨⟨by simp, fun x _ => ⟨rfl, rfl⟩, fun x hx => absurd rfl hx, le_rfl⟩, by simp, ?_, by simp⟩
    exact ⟨⟨by simp, by simp⟩, by simp, by simp⟩
  closed := ⟨by simp, fun u node hnode => by simp at hnode, by simp, by simp⟩
  forested := by
    refine ⟨[], trivial, trivial, fun x y => ?_, by simp, by simp, by simp, by simp⟩
    rw [root_cleared, root_cleared]
    constructor
    · exact fun h => h.imp eq_equivalence (by simp)
    · rintro rfl
      exact .refl x
  clean := ⟨by simp, by simp, by simp, by simp, by simp, by simp, rfl⟩
  tracks := ⟨⟨by simp, by simp⟩, by simp, ⟨by simp, by simp⟩⟩
  diseqs := rfl
  values := ⟨by simp, by simp, by simp⟩
  mark := by simp
  eqs := by simp
  cached := by simp

theorem Inv.push (h : Inv props A s) : Inv props A s.push := by
  have hwf : s.uf.push.WF s.nodes.length := ⟨h.sound.uf.lt, h.sound.uf.out, h.sound.uf.rank, h.sound.uf.size⟩
  refine h.reframe hwf rfl h.sound.functions ?_ h.cached
  simp only [UnionFind.push, length_cons, h.clean.trailLimits]

theorem Inv.registerFunction (h : Inv props A s) (func : ℕ) : Inv props A (s.registerFunction func (props func)) := by
  refine h.reframe h.sound.uf rfl (fun node hnode happ => ?_) h.clean.trailLimits h.cached
  by_cases hfunc : node.func = func
  · rw [hfunc, Function.update_self]
    rfl
  · rw [Function.update_of_ne hfunc]
    exact h.sound.functions node hnode happ

theorem Inv.declareValueConst (h : Inv props A s) (term value : ℕ) : Inv props A (s.declareValueConst term value) :=
  h.reframe h.sound.uf rfl h.sound.functions h.clean.trailLimits h.cached

theorem Inv.carry (h : Inv props A s) (hsize : s.nodes.length ≤ t.uf.size)
    (hfunctions : ∀ node ∈ s.nodes, node.isApp → t.getFunctionProps node.func = props node.func) :
    Inv props A (s.carry t) := by
  have hwf : ({ s.uf with size := t.uf.size } : UnionFind).WF s.nodes.length :=
    ⟨h.sound.uf.lt, h.sound.uf.out, h.sound.uf.rank, hsize⟩
  have hroot : ({ s.uf with size := t.uf.size } : UnionFind).findNoCompress = s.root :=
    hwf.root_eq (fun x hx => root_of_fixed hx) fun x => h.sound.uf.root_parent
  exact h.reframe hwf hroot hfunctions h.clean.trailLimits (by simp)

theorem extends_carry : Extends s (s.carry t) := { Extends.refl s with diseqs := fun _ _ _ _ _ => ⟨.refl, .refl⟩ }

theorem Scoped.pop {B : Asserted} (h : Scoped props (B :: σ) s) (hinv : Inv props A s) :
    Inv props B s.pop ∧ s.pop.pending = [] ∧ Scoped props σ s.pop := by
  obtain ⟨entry, hentry, hpending, hextends, hscoped⟩ := h
  rw [hextends.pop_eq hentry.sound hentry.clean hpending hinv.clean]
  have hnodes : entry.nodes <+: s.nodes := hextends.nodes
  refine ⟨hentry.carry ?_ fun node hnode => ?_, hpending, hscoped.extend extends_carry⟩
  · have hsize : s.pop.uf.size = s.uf.size := by
      unfold EufSolver.pop UnionFind.pop
      split
      · rfl
      · split <;> rfl
    rw [hsize]
    exact hnodes.length_le.trans hinv.sound.uf.size
  · have hfunctions : s.pop.functionProperties = s.functionProperties := by
      unfold EufSolver.pop
      split <;> rfl
    rw [getFunctionProps, hfunctions]
    exact hinv.sound.functions node (hnodes.subset hnode)

end EufSolver

open EufSolver

variable {props : ℕ → FunctionProperties} {A : Asserted} {σ : List Asserted} {s : EufSolver}

theorem Reaches.inv (h : Reaches props s A σ) : Inv props A s ∧ s.pending = [] ∧ Scoped props σ s := by
  induction h with
  | init => exact ⟨inv_cleared _, rfl, trivial⟩
  | reset _ _ => exact ⟨inv_cleared _, rfl, trivial⟩
  | registerFunction func _ ih =>
    obtain ⟨hinv, hpending, hscoped⟩ := ih
    exact ⟨hinv.registerFunction func, hpending, hscoped.extend { Extends.refl _ with }⟩
  | declareValueConst term value _ ih =>
    obtain ⟨hinv, hpending, hscoped⟩ := ih
    exact ⟨hinv.declareValueConst term value, hpending, hscoped.extend { Extends.refl _ with }⟩
  | intern term _ ih =>
    obtain ⟨hinv, hpending, hscoped⟩ := ih
    obtain ⟨hinv, hextends, hpending⟩ := hinv.intern hpending
    exact ⟨hinv, hpending, hscoped.extend hextends⟩
  | internApp term func args hfunc hprops hargs _ ih =>
    obtain ⟨hinv, hpending, hscoped⟩ := ih
    obtain ⟨hinv, hextends, hpending, -⟩ := hinv.internApp hpending hfunc hprops hargs
    exact ⟨hinv, hpending, hscoped.extend hextends⟩
  | merge a b reason ha hb _ ih =>
    obtain ⟨hinv, -, hscoped⟩ := ih
    obtain ⟨hinv, hextends, -, hpending⟩ := hinv.merge ⟨ha, hb⟩
    exact ⟨hinv, hpending, hscoped.extend hextends⟩
  | assertDiseq a b reason ha hb _ ih =>
    obtain ⟨hinv, hpending, hscoped⟩ := ih
    exact ⟨hinv.assertDiseq ⟨ha, hb⟩, hpending, hscoped.extend extends_assertDiseq⟩
  | find a _ ih =>
    obtain ⟨hinv, hpending, hscoped⟩ := ih
    exact ⟨hinv.find, hpending, hscoped.extend hinv.extends_find⟩
  | tryExplainEquality a b _ ih =>
    obtain ⟨hinv, hpending, hscoped⟩ := ih
    obtain ⟨cache, hcache, hinv, -⟩ := hinv.tryExplainEquality a b
    rw [hcache]
    exact ⟨hinv, hpending, hscoped.extend extends_withCache⟩
  | checkConflicts _ ih =>
    obtain ⟨hinv, hpending, hscoped⟩ := ih
    obtain ⟨cache, hcache, hinv, -⟩ := hinv.checkConflicts
    rw [hcache]
    exact ⟨hinv, hpending, hscoped.extend extends_withCache⟩
  | push _ ih =>
    obtain ⟨hinv, hpending, hscoped⟩ := ih
    exact ⟨hinv.push, hpending, _, hinv, hpending, .refl _, hscoped⟩
  | pop _ ih =>
    obtain ⟨hinv, -, hscoped⟩ := ih
    exact hscoped.pop hinv

def Asserted.equation (A : Asserted) (x y : ℕ) : Prop := ∃ reason, (x, y, reason) ∈ A.eqs

def replayNode (props : ℕ → FunctionProperties) (s : EufSolver) (node : ENode) : EufSolver :=
  if node.isApp then
    ((s.registerFunction node.func (props node.func)).internApp node.term node.func node.args).1
  else (s.intern node.term).1

def replay (props : ℕ → FunctionProperties) (nodes : List ENode) (eqs : List (ℕ × ℕ × ℕ)) :
    EufSolver :=
  eqs.foldl (fun s e => s.merge e.1 e.2.1 e.2.2) (nodes.foldl (replayNode props) {})

variable {props : ℕ → FunctionProperties} {A : Asserted} {σ : List Asserted} {s t : EufSolver}
  {x y : ℕ}

theorem Reaches.root_eq_iff (h : Reaches props s A σ) (x y : ℕ) :
    s.root x = s.root y ↔ (terms props s.nodes).Congruent A.equation x y := by
  obtain ⟨hinv, hpending, -⟩ := h.inv
  obtain ⟨log, hforest⟩ := hinv.forested
  constructor
  · exact hforest.congruent
  · intro hxy
    refine hxy.least (R := fun x y => s.root x = s.root y) (hinv.closed.isCongruence hpending) ?_
    rintro a b ⟨reason, hmem⟩
    have hlinked := hinv.closed.holds a b reason hmem
    rwa [hpending, linked_nil] at hlinked

theorem Reaches.leaf (h : Reaches props s A σ) : ∀ node ∈ s.nodes, ¬ node.isApp → node = .leaf node.term := by
  induction h with
  | init => simp
  | reset _ _ => simp [EufSolver.reset]
  | registerFunction func _ ih => exact ih
  | declareValueConst term value _ ih => exact ih
  | @intern s A σ term _ ih =>
    unfold EufSolver.intern
    split
    · exact ih
    · intro node hnode
      rcases mem_append.mp hnode with hnode | hnode
      · exact ih node hnode
      · rw [mem_singleton.mp hnode]
        exact fun _ => rfl
  | @internApp s A σ term func args hfunc hprops hargs hs ih =>
    obtain ⟨hinv, hpending, -⟩ := hs.inv
    cases hterm : s.termToNode term with
    | some idx =>
      simp only [EufSolver.internApp, hterm]
      exact ih
    | none =>
      obtain ⟨-, -, -, hnodes⟩ := hinv.internApp hpending hfunc hprops hargs
      rw [hnodes hterm]
      intro node hnode
      rcases mem_append.mp hnode with hnode | hnode
      · exact ih node hnode
      · rw [mem_singleton.mp hnode]
        simp [ENode.isApp, hfunc]
  | merge a b reason ha hb hs ih =>
    obtain ⟨-, -, hframe, -⟩ := hs.inv.1.merge ⟨ha, hb⟩
    rw [hframe.nodes]
    exact ih
  | assertDiseq a b reason _ _ _ ih => exact ih
  | find a _ ih => exact ih
  | tryExplainEquality a b hs ih =>
    obtain ⟨cache, hcache, -⟩ := hs.inv.1.tryExplainEquality a b
    rw [hcache]
    exact ih
  | checkConflicts hs ih =>
    obtain ⟨cache, hcache, -⟩ := hs.inv.1.checkConflicts
    rw [hcache]
    exact ih
  | push _ ih => exact ih
  | pop _ ih =>
    unfold EufSolver.pop
    split
    · exact ih
    · exact fun node hnode => ih node (mem_of_mem_take hnode)

theorem Inv.replayable (h : Inv props A s) {done rest : List ENode} {node : ENode}
    (hnodes : s.nodes = done ++ node :: rest) : (∀ node' ∈ done, node'.term ≠ node.term) ∧
    ∀ x ∈ node.args, x < done.length := by
  have hnode : s.nodes[done.length]? = some node := by
    rw [hnodes, getElem?_append_right le_rfl, Nat.sub_self]
    rfl
  constructor
  · intro node' hmem heq
    obtain ⟨i, hi⟩ := mem_iff_getElem?.mp hmem
    have hlt := (List.getElem?_eq_some_iff.mp hi).1
    have hnode' : s.nodes[i]? = some node' := by
      rw [hnodes, List.getElem?_append_left hlt]
      exact hi
    have hi' := (h.clean.termToNode node.term i).mpr ⟨node', hnode', heq⟩
    rw [(h.clean.termToNode node.term done.length).mpr ⟨node, hnode, rfl⟩] at hi'
    have := some.inj hi'
    omega
  · exact h.clean.args done.length node hnode

/-- The associative symbols are left out: their arguments are stored flattened. -/
def Plain (props : ℕ → FunctionProperties) (nodes : List ENode) : Prop :=
  ∀ node ∈ nodes, node.isApp → (props node.func).associative = false

theorem reaches_replayNode {node : ENode} (ht : Reaches props t A [])
    (hterm : ∀ node' ∈ t.nodes, node'.term ≠ node.term) (hargs : ∀ x ∈ node.args, x < t.nodes.length)
    (hleaf : ¬ node.isApp → node = .leaf node.term) (hplain : node.isApp → (props node.func).associative = false) :
    ∃ B, B.eqs = A.eqs ∧ Reaches props (replayNode props t node) B [] ∧
    (replayNode props t node).nodes = t.nodes ++ [node] := by
  have hfree : t.termToNode node.term = none := by
    cases hfound : t.termToNode node.term with
    | none => rfl
    | some idx =>
      obtain ⟨node', hnode', heq⟩ := (ht.inv.1.clean.termToNode node.term idx).mp hfound
      exact absurd heq (hterm node' (mem_of_getElem? hnode'))
  unfold replayNode
  split
  · next happ =>
    have hregister := ht.registerFunction node.func
    have hprops : (t.registerFunction node.func (props node.func)).getFunctionProps node.func =
        props node.func := by
      simp [getFunctionProps, EufSolver.registerFunction]
    have hfunc : node.func ≠ ENode.noFunc := by simpa [ENode.isApp] using happ
    refine ⟨_, Asserted.create_eqs, hregister.internApp node.term node.func node.args hfunc hprops hargs, ?_⟩
    obtain ⟨hinv, hpending, -⟩ := hregister.inv
    obtain ⟨-, -, -, hadded⟩ := @Inv.internApp props A _ node.term node.func node.args hinv hpending
      hfunc hprops hargs
    rw [hadded hfree, flattenArgs, hprops, hplain happ]
    rfl
  · next happ =>
    refine ⟨_, Asserted.create_eqs, ht.intern node.term, ?_⟩
    rw [EufSolver.intern, hfree]
    exact congrArg (fun added => t.nodes ++ [added]) (hleaf happ).symm

theorem Reaches.replayNodes (h : Reaches props s A σ) (hplain : Plain props s.nodes) {done rest : List ENode}
    {B : Asserted} (hnodes : s.nodes = done ++ rest) (ht : Reaches props t B []) (hdone : t.nodes = done) :
    ∃ B', B'.eqs = B.eqs ∧ Reaches props (rest.foldl (replayNode props) t) B' [] ∧
      (rest.foldl (replayNode props) t).nodes = s.nodes := by
  induction rest generalizing done t B with
  | nil => exact ⟨B, rfl, ht, by rw [foldl_nil, hdone, hnodes, append_nil]⟩
  | cons node rest ih =>
    obtain ⟨hterm, hargs⟩ := Inv.replayable h.inv.1 hnodes
    have hmem : node ∈ s.nodes := by simp [hnodes]
    rw [← hdone] at hterm hargs
    obtain ⟨B', heqs, hstep, hadded⟩ := reaches_replayNode ht hterm hargs (h.leaf node hmem) (hplain node hmem)
    obtain ⟨B'', heqs', hrest, hall⟩ := ih (by rw [hnodes, append_cons]) hstep (by rw [hadded, hdone])
    exact ⟨B'', heqs'.trans heqs, hrest, hall⟩

theorem reaches_merges {eqs : List (ℕ × ℕ × ℕ)} (ht : Reaches props t A [])
    (hlt : ∀ e ∈ eqs, e.1 < t.nodes.length ∧ e.2.1 < t.nodes.length) :
    ∃ B, B.eqs = A.eqs ++ eqs ∧ Reaches props (eqs.foldl (fun s e => s.merge e.1 e.2.1 e.2.2) t) B [] ∧
    (eqs.foldl (fun s e => s.merge e.1 e.2.1 e.2.2) t).nodes = t.nodes := by
  induction eqs generalizing t A with
  | nil => exact ⟨A, by simp, ht, rfl⟩
  | cons e eqs ih =>
    obtain ⟨⟨ha, hb⟩, hlt⟩ := forall_mem_cons.mp hlt
    obtain ⟨-, -, hframe, -⟩ := @Inv.merge props A t e.1 e.2.1 e.2.2 ht.inv.1 ⟨ha, hb⟩
    rw [← hframe.nodes] at hlt
    obtain ⟨B, heqs, hmerged, hnodes⟩ := ih (ht.merge e.1 e.2.1 e.2.2 ha hb) hlt
    exact ⟨B, by simp [heqs], hmerged, hnodes.trans hframe.nodes⟩

theorem Reaches.replay (h : Reaches props s A σ) (hplain : Plain props s.nodes) :
    ∃ B, B.eqs = A.eqs ∧ Reaches props (replay props s.nodes A.eqs) B [] ∧
    (Euf.replay props s.nodes A.eqs).nodes = s.nodes := by
  obtain ⟨B, hB, hnodes, hall⟩ := h.replayNodes hplain (nil_append s.nodes).symm .init rfl
  obtain ⟨B', hB', hmerged, hkept⟩ := reaches_merges hnodes (hall ▸ h.inv.1.eqs)
  exact ⟨B', by rw [hB', hB]; rfl, hmerged, hkept.trans hall⟩

/-- Two nodes have the same representative exactly if they are congruent by the equations of the
open scopes, and exactly if a new solver to which only these are told says so. -/
theorem find_eq_iff (h : Reaches props s A σ) (x y : ℕ) :
    ((s.find x).2 = (s.find y).2 ↔ (terms props s.nodes).Congruent A.equation x y) ∧
    (Plain props s.nodes → ((s.find x).2 = (s.find y).2 ↔ ((replay props s.nodes A.eqs).find x).2 =
    ((replay props s.nodes A.eqs).find y).2)) := by
  refine ⟨h.root_eq_iff x y, fun hplain => (h.root_eq_iff x y).trans ?_⟩
  obtain ⟨B, hB, hreplay, hnodes⟩ := h.replay hplain
  have hsame : B.equation = A.equation := by
    unfold Asserted.equation
    rw [hB]
  have hiff := hreplay.root_eq_iff x y
  rw [hsame, hnodes] at hiff
  exact hiff.symm

def twoApplications : EufSolver :=
  ((((({} : EufSolver).intern 10).1.intern 11).1.internApp 12 5 [0]).1.internApp 13 5 [1]).1

theorem reaches_twoApplications : ∃ A, Reaches (fun _ => {}) twoApplications A [] ∧ A.eqs = [] ∧ A.diseqs = [] := by
  have hsecond : Reaches (fun _ => {}) twoApplications _ [] :=
    .internApp 13 5 [1] (by decide) rfl (by decide)
      (.internApp 12 5 [0] (by decide) rfl (by decide) (.intern 11 (.intern 10 .init)))
  exact ⟨_, hsecond, by decide, by decide⟩

theorem find_eq_iff_twoApplications : ∃ A σ,
    Reaches (fun _ => {}) (twoApplications.push.merge 0 1 7) A σ ∧ A.eqs = [(0, 1, 7)] ∧
      (terms (fun _ => {}) twoApplications.nodes).Congruent A.equation 2 3 := by
  obtain ⟨A, hreaches, heqs, -⟩ := reaches_twoApplications
  have hmerged := hreaches.push.merge 0 1 7 (by decide) (by decide)
  exact ⟨_, _, hmerged, by simp [heqs], (find_eq_iff hmerged 2 3).1.mp (by decide)⟩

/-- For nodes with the same representative reasons are found that make them congruent, exactly when the generations
of the searches stay below the `u32` bound. -/
theorem tryExplainEquality_complete {generation : ℕ} (h : Reaches props s A σ) (hxy : (s.find x).2 = (s.find y).2) :
    (∃ generation' s' reasons, s.tryExplainEquality32 generation x y = some (generation', s', some reasons) ∧
      (∀ reason ∈ reasons, ∃ a b, (a, b, reason) ∈ A.eqs) ∧
      (terms props s.nodes).Congruent (reasonEqs A.eqs reasons) x y) ↔ s.HasRoom generation x y := by
  obtain ⟨cache, -, -, hexplained, hsome⟩ := h.inv.1.tryExplainEquality x y
  rw [← tryExplainEquality32_isSome (hsome hxy)]
  constructor
  · rintro ⟨generation', s', reasons, hanswer, -⟩
    exact hanswer ▸ rfl
  · intro hfits
    obtain ⟨⟨generation', s', answer⟩, hanswer⟩ := isSome_iff_exists.mp hfits
    rw [tryExplainEquality32_eq hanswer] at hexplained hsome
    obtain ⟨reasons, rfl⟩ := isSome_iff_exists.mp (hsome hxy)
    have hxy := hexplained reasons rfl
    exact ⟨generation', s', reasons, hanswer, hxy.asserted, hxy.congruent⟩

theorem tryExplainEquality_complete_twoApplications : ∃ A σ generation' s' reasons,
    Reaches (fun _ => {}) (twoApplications.push.merge 0 1 7) A σ ∧ A.eqs = [(0, 1, 7)] ∧
      (twoApplications.push.merge 0 1 7).tryExplainEquality32 5 2 3 = some (generation', s', some reasons) ∧
      (terms (fun _ => {}) twoApplications.nodes).Congruent (reasonEqs A.eqs reasons) 2 3 := by
  obtain ⟨A, hreaches, heqs, -⟩ := reaches_twoApplications
  have hmerged := hreaches.push.merge 0 1 7 (by decide) (by decide)
  obtain ⟨generation', s', reasons, hreasons, -, hcongruent⟩ :=
    (@tryExplainEquality_complete _ _ _ _ 2 3 5 hmerged (by decide)).mpr (EufSolver.hasRoom_of_lt (by decide))
  exact ⟨_, _, generation', s', reasons, hmerged, by simp [heqs], hreasons, hcongruent⟩

/-- Two applications of a binary symbol, whose arguments are merged in pairs. -/
def twoPairs : EufSolver :=
  let s := (((({} : EufSolver).intern 10).1.intern 11).1.intern 12).1.intern 13 |>.1
  (((s.internApp 14 5 [0, 1]).1.internApp 15 5 [2, 3]).1.merge 0 2 7).merge 1 3 8

/-- Three searches from the last generation that is not rolled over overflow. -/
theorem not_tryExplainEquality_complete : (∃ A, Reaches (fun _ => {}) twoPairs A []) ∧
    (twoPairs.find 4).2 = (twoPairs.find 5).2 ∧
    ¬ ∃ r, twoPairs.tryExplainEquality32 (2 ^ 32 - 3) 4 5 = some r := by
  have hreaches : Reaches (fun _ => {}) twoPairs _ [] :=
    .merge 1 3 8 (by decide) (by decide) (.merge 0 2 7 (by decide) (by decide)
      (.internApp 15 5 [2, 3] (by decide) rfl (by decide) (.internApp 14 5 [0, 1] (by decide) rfl (by decide)
        (.intern 13 (.intern 12 (.intern 11 (.intern 10 .init)))))))
  refine ⟨⟨_, hreaches⟩, by decide, ?_⟩
  rintro ⟨r, hr⟩
  have hnone : (twoPairs.tryExplainEquality32 (2 ^ 32 - 3) 4 5).isNone := by decide
  rw [hr] at hnone
  cases hnone

/-- A conflict is reported exactly if a disequality is violated or two values are in one class,
and its reasons are inconsistent. -/
theorem checkConflicts_exact (h : Reaches props s A σ) :
    (s.checkConflicts.2 = none ↔ (∀ d ∈ A.diseqs, (s.find d.1).2 ≠ (s.find d.2.1).2) ∧ ∀ x y v w, A.mark x = some v →
    A.mark y = some w → (s.find x).2 = (s.find y).2 → v = w) ∧ ∀ reasons, s.checkConflicts.2 = some reasons →
    Inconsistent props s.nodes A reasons := by
  obtain ⟨-, -, -, hnone, hsome⟩ := h.inv.1.checkConflicts
  exact ⟨hnone, hsome⟩

theorem checkConflicts_exact_twoApplications : ∃ A σ,
    Reaches (fun _ => {}) ((twoApplications.push.merge 0 1 7).assertDiseq 2 3 5) A σ ∧
      Inconsistent (fun _ => {}) twoApplications.nodes A [7, 5] := by
  obtain ⟨A, hreaches, -⟩ := reaches_twoApplications
  have hmerged := hreaches.push.merge 0 1 7 (by decide) (by decide)
  have hdiseq := hmerged.assertDiseq 2 3 5 (by decide) (by decide)
  exact ⟨_, _, hdiseq, (checkConflicts_exact hdiseq).2 [7, 5] (by decide)⟩

def twoConstants : EufSolver := ((({} : EufSolver).intern 10).1.intern 11).1

def lateValues : EufSolver :=
  ((twoConstants.declareValueConst 10 1).declareValueConst 11 2).merge 0 1 7

def zeroReason : EufSolver := (twoConstants.merge 0 1 0).assertDiseq 0 1 5

/-- Late values are not seen, and equations with the reason zero are not named. -/
theorem checkConflicts_late_values_zero_reason :
    (lateValues.termToNode 10 = some 0 ∧ lateValues.termToNode 11 = some 1 ∧ lateValues.valueConsts 10 = some 1 ∧
    lateValues.valueConsts 11 = some 2 ∧ (lateValues.find 0).2 = (lateValues.find 1).2 ∧
    lateValues.checkConflicts.2 = none) ∧ zeroReason.checkConflicts.2 = some [5] ∧
    ∃ A, Reaches (fun _ => {}) zeroReason A [] ∧ ∃ R, (terms (fun _ => {}) zeroReason.nodes).IsCongruence R ∧
    (∀ x y, (x, y, 5) ∈ A.eqs → R x y) ∧ ∀ x y, (x, y, 5) ∈ A.diseqs → ¬ R x y := by
  refine ⟨by decide, by decide, ?_⟩
  have hconstants : Reaches (fun _ => {}) twoConstants _ [] := .intern 11 (.intern 10 .init)
  have hmerged := hconstants.merge 0 1 0 (by decide) (by decide)
  have hdiseq := hmerged.assertDiseq 0 1 5 (by decide) (by decide)
  refine ⟨_, hdiseq, Eq, ⟨eq_equivalence, fun {u v f xs ys} hu hv _ => ?_⟩, fun x y hmem => ?_, fun x y hmem => ?_⟩
  · obtain ⟨node, hnode, happ, -⟩ := terms_app.mp hu
    have hleaf : ∀ node ∈ zeroReason.nodes, node.isApp = false := by decide
    rw [hleaf node (mem_of_getElem? hnode)] at happ
    cases happ
  · simp at hmem
  · obtain ⟨rfl, rfl⟩ : x = 0 ∧ y = 1 := by simpa using hmem
    decide

end Nixie.Euf
