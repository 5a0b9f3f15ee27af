import Nixie.Euf.Propagate
import Nixie.Forest

/-!
The proof forest. Its edges are logged in the order of the merges, the last one first: each joins
two classes of the earlier ones and is justified by them.
-/

namespace Nixie.Euf

open Congruence Undo UnionFind List

def Grown (T : Terms ℕ ℕ) (eqs : List (ℕ × ℕ × ℕ)) : List (ℕ × ℕ × MergeReason) → Prop
  | [] => True
  | e :: log => Justified T (Conn (· ∈ log)) eqs e ∧ Grown T eqs log

def SelfContained (T : Terms ℕ ℕ) (used : ℕ × ℕ × MergeReason → Prop) : Prop :=
  ∀ x y term1 term2, used (x, y, .congruence term1 term2) → ∀ f xs ys, T.app x = some (f, xs) →
    T.app y = some (f, ys) → Matches (T.commutative f) (Conn used) xs ys

section

variable {T T' : Terms ℕ ℕ} {eqs eqs' : List (ℕ × ℕ × ℕ)} {E : ℕ → ℕ → Prop}
  {used : ℕ × ℕ × MergeReason → Prop} {log later older : List (ℕ × ℕ × MergeReason)} {x y : ℕ}

theorem Grown.of_append (h : Grown T eqs (later ++ older)) : Grown T eqs older := by
  induction later with
  | nil => exact h
  | cons e later ih => exact ih h.2

theorem Grown.justified (h : Grown T eqs log) {e : ℕ × ℕ × MergeReason} (he : e ∈ log) :
    Justified T (Conn (· ∈ log)) eqs e := by
  induction log with
  | nil => cases he
  | cons e' log ih =>
    have hmono : ∀ x y, Conn (· ∈ log) x y → Conn (· ∈ e' :: log) x y :=
      fun x y hxy => hxy.mono fun _ hmem => mem_cons_of_mem _ hmem
    rcases mem_cons.mp he with rfl | he
    · exact h.1.mono hmono fun _ h => h
    · exact (ih h.2 he).mono hmono fun _ h => h

theorem Grown.selfContained (h : Grown T eqs log) : SelfContained T (· ∈ log) := by
  intro x y term1 term2 hmem f xs ys hx hy
  obtain ⟨-, -, f', xs', ys', hx', hy', hmatch⟩ := h.justified hmem
  rw [hx] at hx'
  cases hx'
  rw [hy] at hy'
  cases hy'
  exact hmatch

theorem Grown.congruent_of_used (hgrown : Grown T eqs (later ++ older)) (hacyclic : Acyclic (later ++ older))
    (hused : ∀ e, used e → e ∈ later ++ older)
    (hE : ∀ x y reason, used (x, y, .assertion reason) → (x, y, reason) ∈ eqs → E x y)
    (hcontained : SelfContained T used) : ∀ x y reason, used (x, y, reason) → (x, y, reason) ∈ older →
    T.Congruent E x y := by
  induction older generalizing later with
  | nil =>
    intro x y reason _ hmem
    cases hmem
  | cons e older ih =>
    have hsplit : later ++ e :: older = (later ++ [e]) ++ older := by simp
    have hold := ih (hsplit ▸ hgrown) (hsplit ▸ hacyclic) (hsplit ▸ hused)
    intro x y reason hxy hmem
    rcases mem_cons.mp hmem with rfl | hmem
    · have hjustified := hgrown.of_append.1
      cases reason with
      | assertion reason => exact .eqn (hE x y reason hxy hjustified)
      | congruence term1 term2 =>
        obtain ⟨-, -, f, xs, ys, hx, hy, hmatch⟩ := hjustified
        have hnow := hcontained x y term1 term2 hxy f xs ys hx hy
        rw [hsplit] at hacyclic hused
        have hnow' : Matches (T.commutative f) (Conn fun e' => used e' ∧ e' ∈
            (later ++ [(x, y, .congruence term1 term2)]) ++ older) xs ys :=
          hnow.mono fun x y h => h.mono fun e' he' => ⟨he', hused e' he'⟩
        refine Terms.Congruent.isCongruence.congr hx hy ?_
        refine (hnow'.earlier hacyclic hmatch).mono fun x y h => ?_
        exact h.imp Terms.Congruent.isCongruence.equivalence fun x y reason h =>
          hold x y reason h.1 h.2
    · exact hold x y reason hxy hmem

theorem Grown.congruent (hgrown : Grown T eqs log) (hacyclic : Acyclic log) (hused : ∀ e, used e → e ∈ log)
    (hE : ∀ x y reason, used (x, y, .assertion reason) → (x, y, reason) ∈ eqs → E x y)
    (hcontained : SelfContained T used) (h : Conn used x y) : T.Congruent E x y :=
  h.imp Terms.Congruent.isCongruence.equivalence fun x y reason hxy =>
    @Grown.congruent_of_used T eqs E used [] log hgrown hacyclic hused hE hcontained x y reason hxy
      (hused _ hxy)

theorem Grown.mono (happ : ∀ x a, T.app x = some a → T'.app x = some a)
    (hcomm : ∀ f, T.commutative f ↔ T'.commutative f) (heqs : ∀ e ∈ eqs, e ∈ eqs') (h : Grown T eqs log) :
    Grown T' eqs' log := by
  induction log with
  | nil => trivial
  | cons e log ih =>
    refine ⟨?_, ih h.2⟩
    have hjustified := h.1
    obtain ⟨x, y, reason⟩ := e
    cases reason with
    | assertion reason => exact heqs _ hjustified
    | congruence term1 term2 =>
      obtain ⟨hx, hy, f, xs, ys, happx, happy, hmatch⟩ := hjustified
      refine ⟨hx, hy, f, xs, ys, happ _ _ happx, happ _ _ happy, ?_⟩
      rcases hmatch with hmatch | ⟨hc, hmatch⟩
      · exact .inl hmatch
      · exact .inr ⟨(hcomm f).mp hc, hmatch⟩

end

namespace EufSolver

/-- The log of the merges is a forest over the classes, and its edges are those on the adjacency
lists. -/
structure Forested (props : ℕ → FunctionProperties) (eqs : List (ℕ × ℕ × ℕ)) (s : EufSolver)
    (log : List (ℕ × ℕ × MergeReason)) : Prop where
  grown : Grown (terms props s.nodes) eqs log
  acyclic : Acyclic log
  conn : ∀ x y, Conn (· ∈ log) x y ↔ s.root x = s.root y
  logged : ∀ x, ∀ edge ∈ s.proofForest.lists x,
    (x, edge.other, edge.reason) ∈ log ∨ (edge.other, x, edge.reason) ∈ log
  left : ∀ x y reason, (x, y, reason) ∈ log → ∃ edge ∈ s.proofForest.lists x, edge.other = y
  right : ∀ x y reason, (x, y, reason) ∈ log → ∃ edge ∈ s.proofForest.lists y, edge.other = x
  lt : ∀ e ∈ log, e.1 < s.nodes.length ∧ e.2.1 < s.nodes.length

variable {props : ℕ → FunctionProperties} {eqs : List (ℕ × ℕ × ℕ)} {s s' : EufSolver}
  {a b newRoot otherRoot : ℕ} {reason : MergeReason} {log rest : List (ℕ × ℕ × MergeReason)}

theorem Forested.congr (h : Forested props eqs s log) (hnodes : s'.nodes = s.nodes) (hroot : s'.root = s.root)
    (hforest : s'.proofForest = s.proofForest) : Forested props eqs s' log := by
  obtain ⟨hgrown, hacyclic, hconn, hlogged, hleft, hright, hlt⟩ := h
  rw [← hnodes] at hgrown hlt
  rw [← hroot] at hconn
  rw [← hforest] at hlogged hleft hright
  exact ⟨hgrown, hacyclic, hconn, hlogged, hleft, hright, hlt⟩

theorem Merged.conn_iff (hmerged : Merged props { s with pending := rest } s' a b reason newRoot otherRoot)
    (hconn : ∀ x y, Conn (· ∈ log) x y ↔ s.root x = s.root y) (x y : ℕ) :
    Conn (· ∈ (a, b, reason) :: log) x y ↔ s'.root x = s'.root y := by
  constructor
  · intro h
    refine h.imp (R := fun x y => s'.root x = s'.root y) ⟨fun _ => rfl, Eq.symm, Eq.trans⟩ ?_
    intro x y l hmem
    rcases mem_cons.mp hmem with heq | hmem
    · cases heq
      exact hmerged.root_eq
    · exact hmerged.coarsen x y ((hconn x y).mp (.rel x y ⟨l, hmem⟩))
  · intro h
    have hold (x y : ℕ) (hxy : s.root x = s.root y) : Conn (· ∈ (a, b, reason) :: log) x y :=
      ((hconn x y).mpr hxy).mono fun e he => mem_cons_of_mem _ he
    have hnew : Conn (· ∈ (a, b, reason) :: log) a b := .rel a b ⟨reason, mem_cons_self⟩
    have hside (z : ℕ) (hz : s.root z = newRoot ∨ s.root z = otherRoot) :
        Conn (· ∈ (a, b, reason) :: log) z a := by
      rcases (hmerged.roots _).mpr hz with hz | hz
      · exact hold z a hz
      · exact (hold z b hz).trans _ _ _ (hnew.symm _ _)
    rw [hmerged.root_apply, hmerged.root_apply] at h
    by_cases hx : s.root x = otherRoot
    · have hy : s.root y = newRoot ∨ s.root y = otherRoot := by grind
      exact (hside x (.inr hx)).trans _ _ _ ((hside y hy).symm _ _)
    · by_cases hy : s.root y = otherRoot
      · have hx : s.root x = newRoot ∨ s.root x = otherRoot := by grind
        exact (hside x hx).trans _ _ _ ((hside y (.inr hy)).symm _ _)
      · rw [if_neg hx, if_neg hy] at h
        exact hold x y h

theorem Forested.merged (h : Forested props eqs s log)
    (hmerged : Merged props { s with pending := rest } s' a b reason newRoot otherRoot)
    (hjustified : Justified (terms props s.nodes) (fun x y => s.root x = s.root y) eqs (a, b, reason))
    (hab : a < s.nodes.length ∧ b < s.nodes.length) :
    Forested props eqs s' ((a, b, reason) :: log) := by
  have hforest (x : ℕ) (edge : MergeEdge) : edge ∈ s'.proofForest.lists x ↔
      edge ∈ s.proofForest.lists x ∨ x = a ∧ edge = ⟨b, reason, s.proofStamp⟩ ∨
        x = b ∧ edge = ⟨a, reason, s.proofStamp⟩ := by
    rw [hmerged.proofForest]
    simp only [TrailedLists.push_lists]
    grind
  have hne : s.root a ≠ s.root b := by
    intro heq
    have hroots := hmerged.roots
    have hnew : newRoot = s.root a ∨ newRoot = s.root b := (hroots _).mpr (.inl rfl)
    have hother : otherRoot = s.root a ∨ otherRoot = s.root b := (hroots _).mpr (.inr rfl)
    have := hmerged.ne
    grind
  refine ⟨⟨?_, ?_⟩, ⟨fun hconn => hne ((h.conn a b).mp hconn), h.acyclic⟩, hmerged.conn_iff h.conn,
    fun x edge hedge => ?_, fun x y r hmem => ?_, fun x y r hmem => ?_, fun e he => ?_⟩
  · rw [hmerged.nodes]
    exact hjustified.mono (fun x y hxy => (h.conn x y).mpr hxy) fun _ h => h
  · rw [hmerged.nodes]
    exact h.grown
  · rcases (hforest x edge).mp hedge with hedge | ⟨rfl, rfl⟩ | ⟨rfl, rfl⟩
    · exact (h.logged x edge hedge).imp (mem_cons_of_mem _) (mem_cons_of_mem _)
    · exact .inl mem_cons_self
    · exact .inr mem_cons_self
  · rcases mem_cons.mp hmem with heq | hmem
    · cases heq
      exact ⟨_, (hforest _ _).mpr (.inr (.inl ⟨rfl, rfl⟩)), rfl⟩
    · obtain ⟨edge, hedge, hother⟩ := h.left x y r hmem
      exact ⟨edge, (hforest _ _).mpr (.inl hedge), hother⟩
  · rcases mem_cons.mp hmem with heq | hmem
    · cases heq
      exact ⟨_, (hforest _ _).mpr (.inr (.inr ⟨rfl, rfl⟩)), rfl⟩
    · obtain ⟨edge, hedge, hother⟩ := h.right x y r hmem
      exact ⟨edge, (hforest _ _).mpr (.inl hedge), hother⟩
  · rw [hmerged.nodes]
    rcases mem_cons.mp he with rfl | he
    · exact hab
    · exact h.lt e he

theorem Forested.congruent (h : Forested props eqs s log) {x y : ℕ} (hxy : s.root x = s.root y) :
    (terms props s.nodes).Congruent (fun x y => ∃ reason, (x, y, reason) ∈ eqs) x y := by
  exact h.grown.congruent h.acyclic (fun _ he => he) (fun x y r _ hmem => ⟨r, hmem⟩)
    h.grown.selfContained ((h.conn x y).mpr hxy)

/-- The arrays are empty from the number of nodes on, every term has its own node, and the
arguments of a node are older than the node. -/
structure Clean (s : EufSolver) : Prop where
  useList : ∀ i, s.nodes.length ≤ i → s.useList.lists i = []
  proofForest : ∀ i, s.nodes.length ≤ i → s.proofForest.lists i = []
  diseqWatch : ∀ i, s.nodes.length ≤ i → s.diseqs.diseqWatch.lists i = []
  classValue : ∀ i, s.nodes.length ≤ i → s.values.classValue i = none
  termToNode : ∀ term idx, s.termToNode term = some idx ↔
    ∃ node, s.nodes[idx]? = some node ∧ node.term = term
  args : ∀ (u : ℕ) node, s.nodes[u]? = some node → ∀ x ∈ node.args, x < u
  trailLimits : s.uf.trailLimits.length = s.contextStack.length + 1

structure Extends (s s' : EufSolver) : Prop where
  contextStack : s'.contextStack = s.contextStack
  trailLimits : s'.uf.trailLimits = s.uf.trailLimits
  nodes : s.nodes <+: s'.nodes
  numDiseqs : s.diseqs.diseqs.length ≤ s'.diseqs.diseqs.length
  uf : s.inScope → s.uf.Extends s'.uf
  sigs : s.inScope → ∀ n ≤ s.nodes.length, s.sigs.Extends n s'.sigs
  useList : s.inScope → ∀ n ≤ s.nodes.length, s.useList.Extends n s'.useList
  proofForest : s.inScope → ∀ n ≤ s.nodes.length, s.proofForest.Extends n s'.proofForest
  diseqs : s.inScope → ∀ n ≤ s.nodes.length, ∀ k ≤ s.diseqs.diseqs.length,
    s.diseqs.Extends k n s'.diseqs
  values : s.inScope → ∀ n ≤ s.nodes.length, s.values.Extends n s'.values
  termToNode : ∀ n ≤ s.nodes.length, ∀ term,
    (s'.termToNode term).filter (· < n) = (s.termToNode term).filter (· < n)

def carry (s t : EufSolver) : EufSolver :=
  { s with
    uf := { s.uf with size := t.uf.size }
    diseqs := { s.diseqs with diseqPairCounts := t.diseqs.diseqPairCounts }
    valueConsts := t.valueConsts
    functionProperties := t.functionProperties
    explCache := []
    proofStamp := t.proofStamp }

variable {s s' s'' t : EufSolver} {props : ℕ → FunctionProperties} {a b newRoot otherRoot : ℕ}
  {reason : MergeReason} {rest : List (ℕ × ℕ × MergeReason)}

theorem Extends.refl (s : EufSolver) : Extends s s where
  contextStack := rfl
  trailLimits := rfl
  nodes := prefix_rfl
  numDiseqs := le_rfl
  uf _ := .refl
  sigs _ _ _ := .refl
  useList _ _ _ := .refl
  proofForest _ _ _ := .refl
  diseqs _ _ _ _ _ := .refl
  values _ _ _ := .refl
  termToNode _ _ _ := rfl

theorem Extends.trans (h : Extends s s') (h' : Extends s' s'') : Extends s s'' := by
  have hlen := h.nodes.length_le
  have hscope (hs : s.inScope) : s'.inScope := by
    rw [inScope, h.contextStack]
    exact hs
  exact
    { contextStack := h'.contextStack.trans h.contextStack
      trailLimits := h'.trailLimits.trans h.trailLimits
      nodes := h.nodes.trans h'.nodes
      numDiseqs := h.numDiseqs.trans h'.numDiseqs
      uf := fun hs => (h.uf hs).trans (h'.uf (hscope hs))
      sigs := fun hs n hn => (h.sigs hs n hn).trans (h'.sigs (hscope hs) n (hn.trans hlen))
      useList := fun hs n hn => (h.useList hs n hn).trans (h'.useList (hscope hs) n (hn.trans hlen))
      proofForest := fun hs n hn =>
        (h.proofForest hs n hn).trans (h'.proofForest (hscope hs) n (hn.trans hlen))
      diseqs := fun hs n hn k hk =>
        (h.diseqs hs n hn k hk).trans (h'.diseqs (hscope hs) n (hn.trans hlen) k (hk.trans h.numDiseqs))
      values := fun hs n hn => (h.values hs n hn).trans (h'.values (hscope hs) n (hn.trans hlen))
      termToNode := fun n hn term =>
        (h'.termToNode n (hn.trans hlen) term).trans (h.termToNode n hn term) }

theorem Clean.inScope (h : Clean s) : s.uf.inScope = s.inScope := by
  have hlen := h.trailLimits
  unfold UnionFind.inScope EufSolver.inScope
  cases hstack : s.contextStack with
  | nil => simp [hlen, hstack]
  | cons c stack => simp [hlen, hstack]

theorem Clean.filter_termToNode {n term : ℕ} (h : Clean s) (hn : s.nodes.length ≤ n) :
    (s.termToNode term).filter (· < n) = s.termToNode term := by
  cases hterm : s.termToNode term with
  | none => rfl
  | some idx =>
    obtain ⟨node, hnode, -⟩ := (h.termToNode term idx).mp hterm
    have hidx : idx < n := (List.getElem?_eq_some_iff.mp hnode).1.trans_le hn
    simp [hidx]

theorem Sound.nodeSigKey (h : Sound props s) (i : ℕ) (hi : s.nodes.length ≤ i) : s.sigs.nodeSigKey i = none := by
  cases hkey : s.sigs.nodeSigKey i with
  | none => rfl
  | some key =>
    obtain ⟨node, hnode, -⟩ := h.table.entry key i ((h.table.wf.key key i).mpr hkey)
    have hlt := (List.getElem?_eq_some_iff.mp hnode).1
    omega

theorem Extends.pop_eq (h : Extends s.push t) (hsound : Sound props s) (hclean : Clean s)
    (hpending : s.pending = []) (ht : Clean t) : t.pop = s.carry t.pop := by
  have hscope : s.push.inScope := rfl
  have hnodes : t.nodes.take s.nodes.length = s.nodes := by
    obtain ⟨added, hadded⟩ := h.nodes
    have hadded : s.nodes ++ added = t.nodes := hadded
    rw [← hadded, take_left]
  have huf : t.uf.pop = { s.uf with size := t.uf.size } := UnionFind.Extends.pop_eq (h.uf hscope) h.trailLimits
  have huses := (h.useList hscope s.nodes.length le_rfl).rewind_eq hclean.useList
  have hforest := (h.proofForest hscope s.nodes.length le_rfl).rewind_eq hclean.proofForest
  have hsigs := (h.sigs hscope s.nodes.length le_rfl).rewind_eq hsound.nodeSigKey
  have hvalues := (h.values hscope s.nodes.length le_rfl).rewind_eq hclean.classValue
  have hdiseqs := (h.diseqs hscope s.nodes.length le_rfl s.diseqs.diseqs.length le_rfl).rewind_eq hclean.diseqWatch
  have hterm : (if s.nodes.length < t.nodes.length then
      fun term => (t.termToNode term).filter (· < s.nodes.length) else t.termToNode) =
        s.termToNode := by
    have hfilter (term : ℕ) : (t.termToNode term).filter (· < s.nodes.length) = s.termToNode term :=
      (h.termToNode s.nodes.length le_rfl term).trans (hclean.filter_termToNode le_rfl)
    split
    · exact funext hfilter
    · next hle =>
      funext term
      rw [← ht.filter_termToNode (Nat.le_of_not_lt hle), hfilter]
  unfold pop
  rw [h.contextStack]
  simp only [push] at huses hforest hsigs hvalues hdiseqs ⊢
  simp only [carry, EufSolver.mk.injEq, hnodes, huf, huses, hforest, hsigs, hvalues, hterm, hpending,
    true_and, and_true]
  exact hdiseqs

theorem Extends.skip (hclean : Clean s) {uf : UnionFind} (huf : Agrees s.nodes.length s.uf uf) :
    Extends s { s with uf := uf, pending := rest } :=
  { Extends.refl s with
    trailLimits := huf.trailLimits
    uf := fun hs => huf.extends_ (hclean.inScope ▸ hs) }

theorem Clean.skip (h : Clean s) {uf : UnionFind} (huf : Agrees s.nodes.length s.uf uf) :
    Clean { s with uf := uf, pending := rest } :=
  { h with trailLimits := by rw [huf.trailLimits]; exact h.trailLimits }

theorem Extends.merged (hclean : Clean s)
    (hmerged : Merged props { s with pending := rest } s' a b reason newRoot otherRoot) :
    Extends s s' where
  contextStack := hmerged.contextStack
  trailLimits := hmerged.trailLimits
  nodes := by rw [hmerged.nodes]
  numDiseqs := by
    rw [hmerged.diseqs, Disequalities.length_mergeClasses]
  uf hs := hmerged.ufExtends (hclean.inScope ▸ hs)
  sigs hs n _ := hmerged.sigsExtends hs n
  useList hs n _ := hmerged.useListExtends hs n
  proofForest hs n _ := by
    rw [hmerged.proofForest]
    have hs : inScope { s with pending := rest } = true := hs
    rw [hs]
    exact Undo.Extends.trans TrailedLists.extends_push TrailedLists.extends_push
  diseqs hs n _ k _ := by
    rw [hmerged.diseqs]
    have hs : inScope { s with pending := rest } = true := hs
    rw [hs]
    exact Disequalities.extends_mergeClasses
  values hs n _ := by
    rw [hmerged.values]
    have hs : inScope { s with pending := rest } = true := hs
    rw [hs]
    exact ClassValues.extends_mergeClasses
  termToNode n _ term := by rw [hmerged.termToNode]

theorem Clean.merged (h : Clean s) (hsound : Sound props s)
    (hab : a < s.nodes.length ∧ b < s.nodes.length)
    (hmerged : Merged props { s with pending := rest } s' a b reason newRoot otherRoot) :
    Clean s' := by
  have hnew : newRoot < s.nodes.length := by
    have hroots := (hmerged.roots newRoot).mpr (.inl rfl)
    rcases hroots with hroot | hroot
    · exact hroot ▸ hsound.uf.root_lt hab.1
    · exact hroot ▸ hsound.uf.root_lt hab.2
  have hlen : s'.nodes.length = s.nodes.length := by rw [hmerged.nodes]
  refine ⟨fun i hi => ?_, fun i hi => ?_, fun i hi => ?_, fun i hi => ?_, fun term idx => ?_,
    fun u node hnode => ?_, ?_⟩
  · rw [hlen] at hi
    rw [hmerged.uses, if_neg (Nat.ne_of_gt (hnew.trans_le hi))]
    exact h.useList i hi
  · rw [hlen] at hi
    rw [hmerged.proofForest, TrailedLists.push_lists, if_neg (Nat.ne_of_gt (hab.2.trans_le hi)),
      TrailedLists.push_lists, if_neg (Nat.ne_of_gt (hab.1.trans_le hi))]
    exact h.proofForest i hi
  · rw [hlen] at hi
    rw [hmerged.diseqs, eq_nil_iff_forall_not_mem]
    intro j hj
    rcases Disequalities.mem_mergeClasses.mp hj with hj | ⟨rfl, -⟩
    · rw [h.diseqWatch i hi] at hj
      cases hj
    · omega
  · rw [hlen] at hi
    rw [hmerged.values, ClassValues.mergeClasses_classValue,
      if_neg (Nat.ne_of_gt (hnew.trans_le hi))]
    exact h.classValue i hi
  · rw [hmerged.termToNode, hmerged.nodes]
    exact h.termToNode term idx
  · rw [hmerged.nodes] at hnode
    exact h.args u node hnode
  · rw [hmerged.trailLimits, hmerged.contextStack]
    exact h.trailLimits

end EufSolver

end Nixie.Euf
