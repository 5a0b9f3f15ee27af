import Nixie.Euf.Invariant

/-!
Terms are interned. A new application is registered under its signature, or merged with the
application that has it.
-/

namespace Nixie.Euf

open Congruence Undo UnionFind List Function EufSolver

section

variable {props : ℕ → FunctionProperties} {nodes : List ENode} {node : ENode} {x : ℕ}
  {sig : Signature}

theorem terms_app_append (h : (terms props nodes).app x = some sig) :
    (terms props (nodes ++ [node])).app x = some sig := by
  obtain ⟨node', hnode', happ, hsig⟩ := terms_app.mp h
  refine terms_app.mpr ⟨node', ?_, happ, hsig⟩
  rw [List.getElem?_append_left (List.getElem?_eq_some_iff.mp hnode').1, hnode']

theorem getElem?_concat {u : ℕ} {node' : ENode} (h : (nodes ++ [node])[u]? = some node') :
    nodes[u]? = some node' ∨ u = nodes.length ∧ node' = node := by
  grind

theorem Justified.append {R : ℕ → ℕ → Prop} {eqs : List (ℕ × ℕ × ℕ)} {e : ℕ × ℕ × MergeReason}
    (h : Justified (terms props nodes) R eqs e) : Justified (terms props (nodes ++ [node])) R eqs e := by
  obtain ⟨x, y, reason⟩ := e
  cases reason with
  | assertion reason => exact h
  | congruence term1 term2 =>
    obtain ⟨hx, hy, f, xs, ys, happ, happ', hmatch⟩ := h
    exact ⟨hx, hy, f, xs, ys, terms_app_append happ, terms_app_append happ', hmatch⟩

end

namespace EufSolver

structure Grows (props : ℕ → FunctionProperties) (eqs : List (ℕ × ℕ × ℕ)) (s s' : EufSolver)
    (node : ENode) (value : Option ℕ) : Prop where
  nodes : s'.nodes = s.nodes ++ [node]
  wf : s'.uf.WF (s.nodes.length + 1)
  root : s'.root = s.root
  trailLimits : s'.uf.trailLimits = s.uf.trailLimits
  contextStack : s'.contextStack = s.contextStack
  functionProperties : s'.functionProperties = s.functionProperties
  termToNode : s'.termToNode = update s.termToNode node.term (some s.nodes.length)
  diseqs : s'.diseqs = s.diseqs
  proofForest : s'.proofForest = s.proofForest
  values : s'.values = s.values.addNode s.nodes.length value
  cached : ∀ e ∈ s'.explCache, e ∈ s.explCache
  table : Tabulates props s'.nodes s'.root s'.sigs
  sigTable : ∀ key v, s.sigs.sigTable key = some v → s'.sigs.sigTable key = some v
  published : Published props s'.nodes s'.root s'.pending s'.sigs s.nodes.length
  useList : ∀ u r, u ∈ s.useList.lists r → u ∈ s'.useList.lists r
  uses : node.isApp → ∀ x ∈ node.args, s.nodes.length ∈ s'.useList.lists (s.root x)
  useListOut : ∀ i, s.nodes.length < i → s'.useList.lists i = []
  pending : ∀ e ∈ s.pending, e ∈ s'.pending
  justified : ∀ e ∈ s'.pending, e ∈ s.pending ∨
    (e.1 < s'.nodes.length ∧ e.2.1 < s'.nodes.length) ∧
      Justified (terms props s'.nodes) (fun x y => s'.root x = s'.root y) eqs e

variable {props : ℕ → FunctionProperties} {A : Asserted} {s s' : EufSolver} {node : ENode}
  {value : Option ℕ}

section

variable (hgrows : Grows props A.eqs s s' node value)

include hgrows

theorem Sound.grows (h : Sound props s)
    (hfunc : node.isApp → s.getFunctionProps node.func = props node.func) : Sound props s' := by
  have hlen : s'.nodes.length = s.nodes.length + 1 := by simp [hgrows.nodes]
  refine ⟨hlen ▸ hgrows.wf, fun node' hnode' happ => ?_, hgrows.table, fun e he => ?_⟩
  · rw [getFunctionProps, hgrows.functionProperties]
    rw [hgrows.nodes] at hnode'
    rcases mem_append.mp hnode' with hnode' | hnode'
    · exact h.functions node' hnode' happ
    · cases mem_singleton.mp hnode'
      exact hfunc happ
  · rcases hgrows.justified e he with he | ⟨hlt, -⟩
    · have hold := h.pending e he
      omega
    · exact hlt

theorem Closed.grows (h : Closed props A.eqs s) : Closed props A.eqs s' := by
  refine ⟨fun u node' hnode' happ x hx => ?_, fun u => ?_, fun x y r hmem => ?_, fun e he => ?_⟩
  · rw [hgrows.nodes] at hnode'
    rw [hgrows.root]
    rcases getElem?_concat hnode' with hnode' | ⟨rfl, rfl⟩
    · exact hgrows.useList _ _ (h.uses u node' hnode' happ x hx)
    · exact hgrows.uses happ x hx
  · intro node' hnode' happ
    have hnode'' := hnode'
    rw [hgrows.nodes] at hnode''
    rcases getElem?_concat hnode'' with hold | ⟨rfl, rfl⟩
    · obtain ⟨v, hv, hlinked⟩ := h.published u node' hold happ
      rw [hgrows.root]
      exact ⟨v, hgrows.sigTable _ _ hv, hlinked.mono hgrows.pending⟩
    · exact hgrows.published node' hnode' happ
  · rw [hgrows.root]
    exact (h.holds x y r hmem).mono hgrows.pending
  · rcases hgrows.justified e he with he | ⟨-, hjustified⟩
    · rw [hgrows.nodes, hgrows.root]
      exact (h.justified e he).append
    · exact hjustified

theorem Clean.grows (h : Clean s) (hterm : s.termToNode node.term = none)
    (hargs : ∀ x ∈ node.args, x < s.nodes.length) : Clean s' := by
  have hlen : s'.nodes.length = s.nodes.length + 1 := by simp [hgrows.nodes]
  refine ⟨fun i hi => hgrows.useListOut i (by omega), fun i hi => ?_, fun i hi => ?_, fun i hi => ?_,
    fun term idx => ?_, fun u node' hnode' => ?_, ?_⟩
  · rw [hgrows.proofForest]
    exact h.proofForest i (by omega)
  · rw [hgrows.diseqs]
    exact h.diseqWatch i (by omega)
  · rw [hgrows.values, ClassValues.addNode_classValue, if_neg (by omega)]
    exact h.classValue i (by omega)
  · rw [hgrows.termToNode, hgrows.nodes, update_apply]
    split
    · next heq =>
      subst heq
      constructor
      · rintro ⟨⟩
        exact ⟨node, getElem?_concat_length, rfl⟩
      · rintro ⟨node', hnode', hterm'⟩
        rcases getElem?_concat hnode' with hnode' | ⟨rfl, -⟩
        · rw [(h.termToNode _ _).mpr ⟨node', hnode', hterm'⟩] at hterm
          cases hterm
        · rfl
    · next hne =>
      rw [h.termToNode]
      constructor
      · rintro ⟨node', hnode', hterm'⟩
        have hlt := (List.getElem?_eq_some_iff.mp hnode').1
        exact ⟨node', by rw [List.getElem?_append_left hlt, hnode'], hterm'⟩
      · rintro ⟨node', hnode', hterm'⟩
        rcases getElem?_concat hnode' with hnode' | ⟨-, rfl⟩
        · exact ⟨node', hnode', hterm'⟩
        · exact absurd hterm'.symm hne
  · rw [hgrows.nodes] at hnode'
    rcases getElem?_concat hnode' with hnode' | ⟨rfl, rfl⟩
    · exact h.args u node' hnode'
    · exact hargs
  · rw [hgrows.trailLimits, hgrows.contextStack]
    exact h.trailLimits

theorem Inv.grows (h : Inv props A s)
    (hfunc : node.isApp → s.getFunctionProps node.func = props node.func)
    (hterm : s.termToNode node.term = none) (hargs : ∀ x ∈ node.args, x < s.nodes.length) :
    Inv props { A with mark := update A.mark s.nodes.length value } s' where
  sound := h.sound.grows hgrows hfunc
  closed := h.closed.grows hgrows
  forested := by
    obtain ⟨log, hlog⟩ := h.forested
    refine ⟨log, ?_, hlog.acyclic, ?_, ?_, ?_, ?_, fun e he => ?_⟩
    · rw [hgrows.nodes]
      exact hlog.grown.mono (fun _ _ h => terms_app_append h) (fun _ => .rfl) fun _ h => h
    · rw [hgrows.root]
      exact hlog.conn
    · rw [hgrows.proofForest]
      exact hlog.logged
    · rw [hgrows.proofForest]
      exact hlog.left
    · rw [hgrows.proofForest]
      exact hlog.right
    · have hlt := hlog.lt e he
      rw [hgrows.nodes, length_append, length_singleton]
      omega
  clean := h.clean.grows hgrows hterm hargs
  tracks := by
    rw [hgrows.diseqs, hgrows.root]
    exact h.tracks
  diseqs := by
    rw [hgrows.diseqs]
    exact h.diseqs
  values := by
    have hroot : s.root s.nodes.length = s.nodes.length := h.sound.uf.root_out le_rfl
    rw [hgrows.values, hgrows.root]
    refine h.values.addNode hroot (fun x hx => ?_) (h.mark _ le_rfl)
    by_contra hne
    rcases Nat.lt_or_ge x s.nodes.length with hlt | hge
    · exact absurd hx (Nat.ne_of_lt (h.sound.uf.root_lt hlt))
    · exact hne ((h.sound.uf.root_out hge).symm.trans hx)
  mark := by
    intro x hx
    rw [hgrows.nodes, length_append, length_singleton] at hx
    dsimp only
    rw [update_of_ne (by omega)]
    exact h.mark x (by omega)
  eqs e he := by
    have hlt := h.eqs e he
    rw [hgrows.nodes, length_append, length_singleton]
    omega
  cached := by
    intro key reasons hmem
    rw [hgrows.nodes]
    have hcached := h.cached key reasons (hgrows.cached _ hmem)
    exact ⟨hcached.asserted, hcached.congruent.mono (fun _ _ h => h) (fun _ _ h => terms_app_append h) fun _ h => h⟩

end

section

variable {key : Option Signature}

theorem extends_addNode (hsound : Sound props s) (hterm : s.termToNode node.term = none) :
    Extends s (s.addNode node key value) :=
  { Extends.refl s with
    nodes := prefix_append _ _
    uf := fun _ => hsound.uf.extends_add
    sigs := fun _ n hn => Signatures.extends_addNode hn
    values := fun _ n hn => ClassValues.extends_addNode hn
    termToNode := by
      intro n hn term
      simp only [addNode, update_apply]
      split
      · next heq =>
        subst heq
        simp [hterm, hn]
      · rfl }

theorem Tabulates.append {nodes : List ENode} {root : ℕ → ℕ} {sigs : Signatures}
    (h : Tabulates props nodes root sigs) : Tabulates props (nodes ++ [node]) root sigs := by
  refine ⟨h.wf, h.sorted, fun key v hv => ?_⟩
  obtain ⟨node', hnode', happ, hcanon⟩ := h.entry key v hv
  refine ⟨node', ?_, happ, hcanon⟩
  rw [List.getElem?_append_left (List.getElem?_eq_some_iff.mp hnode').1, hnode']

theorem isApp_leaf {term : ℕ} : (ENode.leaf term).isApp = false := by
  simp [ENode.isApp, ENode.leaf]

theorem Inv.grows_leaf {term : ℕ} (h : Inv props A s) :
    Grows props A.eqs s (s.addNode (.leaf term) none value) (.leaf term) value where
  nodes := rfl
  wf := h.sound.uf.add
  root := h.sound.uf.root_add
  trailLimits := rfl
  contextStack := rfl
  functionProperties := rfl
  termToNode := rfl
  diseqs := rfl
  proofForest := rfl
  values := rfl
  cached _ he := he
  table := by
    simp only [addNode, root, Signatures.addNode_none (h.sound.nodeSigKey _ le_rfl), h.sound.uf.root_add]
    exact Tabulates.append h.sound.table
  sigTable _ _ hv := hv
  published := by
    intro node hnode happ
    rcases getElem?_concat hnode with hnode | ⟨-, rfl⟩
    · exact absurd (List.getElem?_eq_some_iff.mp hnode).1 (Nat.lt_irrefl _)
    · rw [isApp_leaf] at happ
      cases happ
  useList _ _ hu := hu
  uses happ := by
    rw [isApp_leaf] at happ
    cases happ
  useListOut i hi := h.clean.useList i hi.le
  pending _ he := he
  justified _ he := .inl he

section

variable {idx n : ℕ} {args : List ℕ}

attribute [local simp] registerUses

theorem registerUses_eq : registerUses idx args s =
    { s with
      uf := (registerUses idx args s).uf
      useList := (registerUses idx args s).useList } := by
  induction args generalizing s with
  | nil => rfl
  | cons arg args ih =>
    unfold registerUses
    dsimp only
    rw [ih]
    rfl

theorem registerUses_uf (huf : s.uf.WF n) : Agrees n s.uf (registerUses idx args s).uf := by
  induction args generalizing s with
  | nil => exact .refl huf
  | cons arg args ih =>
    have hfind := huf.find (x := arg)
    unfold registerUses
    exact hfind.trans (ih (s := useListPush { s with uf := (s.uf.find arg).1 } (s.uf.find arg).2 idx) hfind.wf)

theorem mem_registerUses {u r : ℕ} (huf : s.uf.WF n) : u ∈ (registerUses idx args s).useList.lists r ↔
    u ∈ s.useList.lists r ∨ u = idx ∧ ∃ x ∈ args, s.root x = r := by
  induction args generalizing s with
  | nil => simp [registerUses]
  | cons arg args ih =>
    have hfind := huf.find (x := arg)
    unfold registerUses
    dsimp only
    rw [ih hfind.wf]
    simp only [useListPush, TrailedLists.push_lists, root, hfind.root, find_snd]
    grind

theorem extends_registerUses (hs : s.inScope) (m : ℕ) : s.useList.Extends m (registerUses idx args s).useList := by
  induction args generalizing s with
  | nil => exact .refl
  | cons arg args ih =>
    unfold registerUses
    refine Undo.Extends.trans ?_ (ih hs)
    have hs : inScope { s with uf := (s.uf.find arg).1 } = true := hs
    simp only [useListPush, hs]
    exact TrailedLists.extends_push

end

section

variable {sigs : Signatures} {pending : List (ℕ × ℕ × MergeReason)}
  {cache : List ((ℕ × ℕ) × List ℕ)}

theorem Inv.grows_app (h : Inv props A s) (hcache : ∀ e ∈ cache, e ∈ s.explCache)
    (htable : Tabulates props (s.nodes ++ [node]) s.root sigs)
    (hsigs : ∀ key v, s.sigs.sigTable key = some v → sigs.sigTable key = some v)
    (hpublished : Published props (s.nodes ++ [node]) s.root pending sigs s.nodes.length)
    (hargs : ∀ x ∈ node.args, x < s.nodes.length) (hpending : ∀ e ∈ s.pending, e ∈ pending)
    (hjustified : ∀ e ∈ pending, e ∈ s.pending ∨ (e.1 < s.nodes.length + 1 ∧ e.2.1 < s.nodes.length + 1) ∧
    Justified (terms props (s.nodes ++ [node])) (fun x y => s.root x = s.root y) A.eqs e) :
    Grows props A.eqs s { registerUses s.nodes.length node.args
    (s.addNode node key none) with sigs := sigs, pending := pending, explCache := cache } node none := by
  have hwf : (s.addNode node key none).uf.WF (s.nodes.length + 1) := h.sound.uf.add
  have huf : Agrees (s.nodes.length + 1) (s.addNode node key none).uf
      (registerUses s.nodes.length node.args (s.addNode node key none)).uf := registerUses_uf hwf
  have hroot : (registerUses s.nodes.length node.args (s.addNode node key none)).root = s.root :=
    huf.root.trans h.sound.uf.root_add
  have hmem (u r : ℕ) : u ∈ (registerUses s.nodes.length node.args
      (s.addNode node key none)).useList.lists r ↔
        u ∈ s.useList.lists r ∨ u = s.nodes.length ∧ ∃ x ∈ node.args, s.root x = r := by
    have hadd : (s.addNode node key none).root = s.root := h.sound.uf.root_add
    rw [mem_registerUses hwf, hadd]
    rfl
  rw [← hroot] at htable hpublished hjustified
  rw [registerUses_eq]
  exact
    { nodes := rfl
      wf := huf.wf
      root := hroot
      trailLimits := huf.trailLimits
      contextStack := rfl
      functionProperties := rfl
      termToNode := rfl
      diseqs := rfl
      proofForest := rfl
      values := rfl
      cached := hcache
      table := htable
      sigTable := hsigs
      published := hpublished
      useList := fun u r hu => (hmem u r).mpr (.inl hu)
      uses := fun _ x hx => (hmem _ _).mpr (.inr ⟨rfl, x, hx, rfl⟩)
      useListOut := by
        intro i hi
        rw [eq_nil_iff_forall_not_mem]
        intro u hu
        rcases (hmem u i).mp hu with hu | ⟨-, x, hx, hxi⟩
        · rw [h.clean.useList i hi.le] at hu
          cases hu
        · have hlt : s.root x < s.nodes.length := h.sound.uf.root_lt (hargs x hx)
          omega
      pending := hpending
      justified := by
        intro e he
        have hlen : (s.addNode node key none).nodes.length = s.nodes.length + 1 := by simp [addNode]
        rw [hlen]
        exact hjustified e he }

theorem extends_app (h : Inv props A s) (hterm : s.termToNode node.term = none)
    (hsigs : s.inScope → ∀ n ≤ s.nodes.length, s.sigs.Extends n sigs) :
    Extends s { registerUses s.nodes.length node.args
    (s.addNode node key none) with sigs := sigs, pending := pending, explCache := cache } := by
  have hadded : Extends s (s.addNode node key none) := extends_addNode h.sound hterm
  have hwf : (s.addNode node key none).uf.WF (s.nodes.length + 1) := h.sound.uf.add
  have huf : Agrees (s.nodes.length + 1) (s.addNode node key none).uf
      (registerUses s.nodes.length node.args (s.addNode node key none)).uf := registerUses_uf hwf
  rw [registerUses_eq]
  exact
    { hadded with
      trailLimits := huf.trailLimits
      uf := fun hs => (hadded.uf hs).trans (huf.extends_ (h.clean.inScope ▸ hs))
      sigs := hsigs
      useList := fun hs n hn => (hadded.useList hs n hn).trans
        (extends_registerUses (s := s.addNode node key none) hs n) }

theorem Inv.addApp (h : Inv props A s) (happ : node.isApp)
    (hfunc : s.getFunctionProps node.func = props node.func)
    (hterm : s.termToNode node.term = none) (hargs : ∀ x ∈ node.args, x < s.nodes.length)
    (hfree : s.sigs.sigTable (canon props s.root node.signature) = none) :
    let sig := canon props s.root node.signature
    let t := registerUses s.nodes.length node.args (s.addNode node (some sig) none)
    let s' := { t with
      sigs := t.sigs.insertSignature t.inScope sig s.nodes.length (fingerprint sig) }
    Inv props { A with mark := update A.mark s.nodes.length none } s' ∧ Extends s s' := by
  intro sig t s'
  have ht : t = { s.addNode node (some sig) none with uf := t.uf, useList := t.useList } := registerUses_eq
  have hsigs : t.sigs = s.sigs.addNode s.nodes.length (some sig) := congrArg sigs ht
  have hpending : t.pending = s.pending := (congrArg pending ht).trans rfl
  have hcache : t.explCache = s.explCache := (congrArg explCache ht).trans rfl
  have hscope : t.inScope = s.inScope := (congrArg inScope ht).trans rfl
  have hs' : s' = { t with
      sigs := (s.sigs.addNode s.nodes.length (some sig)).insertSignature s.inScope sig
        s.nodes.length (fingerprint sig)
      pending := s.pending
      explCache := s.explCache } := by
    rw [← hpending, ← hcache, ← hsigs, ← hscope]
  have hkey := h.sound.nodeSigKey s.nodes.length le_rfl
  have hnode : (s.nodes ++ [node])[s.nodes.length]? = some node := getElem?_concat_length
  have hinserted (key : Signature) : ((s.sigs.addNode s.nodes.length (some sig)).insertSignature
      s.inScope sig s.nodes.length (fingerprint sig)).sigTable key =
        if key = sig then some s.nodes.length else s.sigs.sigTable key :=
    update_apply ..
  rw [hs']
  constructor
  · refine Inv.grows (h.grows_app (fun _ he => he) ⟨?_, ?_, ?_⟩ ?_ ?_ hargs (fun _ he => he)
      fun _ he => .inl he) h (fun _ => hfunc) hterm hargs
    · exact h.sound.table.wf.insertSignature hfree hkey
    · intro key v hv
      rw [hinserted] at hv
      split at hv
      · next heq => exact heq ▸ sorted_canon
      · exact h.sound.table.sorted key v hv
    · intro key v hv
      rw [hinserted] at hv
      split at hv
      · next heq =>
        cases hv
        exact ⟨node, hnode, happ, by rw [heq, canon_canon fun _ => h.sound.uf.root_root]⟩
      · exact (Tabulates.append h.sound.table).entry key v hv
    · intro key v hv
      rw [hinserted, if_neg, hv]
      rintro rfl
      rw [hfree] at hv
      cases hv
    · intro node' hnode' _
      rw [hnode] at hnode'
      cases hnode'
      exact ⟨s.nodes.length, by rw [hinserted, if_pos rfl], .refl _⟩
  · refine extends_app h hterm fun hs n hn => ?_
    rw [hs]
    exact (Signatures.extends_addNode hn).trans (Signatures.extends_insertSignature hn hfree)

theorem Inv.addCongruentApp {existing : ℕ} (h : Inv props A s) (happ : node.isApp)
    (hfunc : s.getFunctionProps node.func = props node.func)
    (hterm : s.termToNode node.term = none) (hargs : ∀ x ∈ node.args, x < s.nodes.length)
    (hfound : s.sigs.sigTable (canon props s.root node.signature) = some existing) :
    let t := registerUses s.nodes.length node.args (s.addNode node none none)
    let s' := { t with
      explCache := []
      pending := (s.nodes.length, existing, .congruence s.nodes.length existing) :: t.pending }
    Inv props { A with mark := update A.mark s.nodes.length none } s' ∧ Extends s s' := by
  intro t s'
  have ht : t = { s.addNode node none none with uf := t.uf, useList := t.useList } := registerUses_eq
  have hsigs : t.sigs = s.sigs := by
    rw [ht]
    exact Signatures.addNode_none (h.sound.nodeSigKey _ le_rfl)
  have hpending : t.pending = s.pending := (congrArg pending ht).trans rfl
  have hs' : s' = { t with
      sigs := s.sigs
      pending := (s.nodes.length, existing, .congruence s.nodes.length existing) :: s.pending
      explCache := [] } := by
    rw [← hpending, ← hsigs]
  have hnode : (s.nodes ++ [node])[s.nodes.length]? = some node := getElem?_concat_length
  have htable : Tabulates props (s.nodes ++ [node]) s.root s.sigs := Tabulates.append h.sound.table
  rw [hs']
  constructor
  · refine Inv.grows (h.grows_app (by simp) htable (fun _ _ hv => hv) ?_ hargs
      (fun _ he => mem_cons_of_mem _ he) ?_) h (fun _ => hfunc) hterm hargs
    · intro node' hnode' _
      rw [hnode] at hnode'
      cases hnode'
      exact ⟨existing, hfound, .of_mem mem_cons_self⟩
    · intro e he
      rcases mem_cons.mp he with rfl | he
      · have hjustified := htable.justified (fun _ => h.sound.uf.root_root) hnode happ hfound
        have hlt := Justified.lt hjustified
        rw [length_append, length_singleton] at hlt
        exact .inr ⟨hlt, hjustified.mono (fun _ _ h => h) (by simp)⟩
      · exact .inl he
  · exact extends_app h hterm fun _ _ _ => .refl

end

end

end EufSolver

def Asserted.create (A : Asserted) (s : EufSolver) (term : ℕ) (value : Option ℕ) : Asserted :=
  if s.termToNode term = none then
    { A with mark := update A.mark s.nodes.length value }
  else A

@[simp] theorem Asserted.create_eqs {A : Asserted} {s : EufSolver} {term : ℕ} {value : Option ℕ} :
    (A.create s term value).eqs = A.eqs := by
  unfold Asserted.create
  split <;> rfl

@[simp] theorem Asserted.create_diseqs {A : Asserted} {s : EufSolver} {term : ℕ}
    {value : Option ℕ} : (A.create s term value).diseqs = A.diseqs := by
  unfold Asserted.create
  split <;> rfl

namespace EufSolver

variable {props : ℕ → FunctionProperties} {A : Asserted} {s : EufSolver} {term func : ℕ}
  {args : List ℕ}

theorem Inv.intern (h : Inv props A s) (hpending : s.pending = []) : Inv props (A.create s term (s.valueConsts term))
    (s.intern term).1 ∧ Extends s (s.intern term).1 ∧ (s.intern term).1.pending = [] := by
  unfold EufSolver.intern Asserted.create
  cases hterm : s.termToNode term with
  | some idx => exact ⟨h, .refl s, hpending⟩
  | none =>
    refine ⟨Inv.grows h.grows_leaf h (fun happ => ?_) hterm (fun x hx => ?_), extends_addNode h.sound hterm, hpending⟩
    · rw [isApp_leaf] at happ
      cases happ
    · cases hx

theorem Clean.flattenArgs_lt (h : Clean s) (hargs : ∀ x ∈ args, x < s.nodes.length) :
    ∀ x ∈ s.flattenArgs func args, x < s.nodes.length := by
  intro x hx
  unfold flattenArgs at hx
  split at hx
  · obtain ⟨arg, harg, hx⟩ := mem_flatMap.mp hx
    cases hnode : s.nodes[arg]? with
    | none =>
      rw [hnode] at hx
      exact mem_singleton.mp hx ▸ hargs arg harg
    | some node =>
      rw [hnode] at hx
      dsimp only at hx
      split at hx
      · exact (h.args arg node hnode x hx).trans (hargs arg harg)
      · exact mem_singleton.mp hx ▸ hargs arg harg
  · exact hargs x hx

theorem Inv.internApp (h : Inv props A s) (hpending : s.pending = []) (hfunc : func ≠ ENode.noFunc)
    (hprops : s.getFunctionProps func = props func) (hargs : ∀ x ∈ args, x < s.nodes.length) :
    Inv props (A.create s term none) (s.internApp term func args).1 ∧ Extends s (s.internApp term func args).1 ∧
    (s.internApp term func args).1.pending = [] ∧
    (s.termToNode term = none → (s.internApp term func args).1.nodes =
    s.nodes ++ [⟨func, s.flattenArgs func args, term⟩]) := by
  unfold EufSolver.internApp Asserted.create
  replace hargs : ∀ x ∈ s.flattenArgs func args, x < s.nodes.length := h.clean.flattenArgs_lt hargs
  generalize s.flattenArgs func args = args at hargs ⊢
  cases hterm : s.termToNode term with
  | some idx => exact ⟨h, .refl s, hpending, by simp⟩
  | none =>
    have hcanon : Agrees s.nodes.length s.uf (canonicalizeArgs (props func) args s.uf).1 :=
      h.sound.uf.canonicalizeArgs
    have hsig : (func, (canonicalizeArgs (props func) args s.uf).2) = canon props s.root (func, args) :=
      h.sound.uf.canonicalizeArgs_snd
    simp only [hprops, hsig, h.sound.table.wf.lookupValidSig]
    set t : EufSolver := { s with uf := (canonicalizeArgs (props func) args s.uf).1 } with ht
    have hskip : Inv props A t := h.skip (nil_append _).symm (by simp) hcanon
    have hextends : Extends s t := .skip h.clean hcanon
    have hroot : t.root = s.root := hcanon.root
    have happ : (⟨func, args, term⟩ : ENode).isApp := by simp [ENode.isApp, hfunc]
    cases hfound : s.sigs.sigTable (canon props s.root (func, args)) with
    | none =>
      dsimp only
      rw [← hroot] at hfound ⊢
      obtain ⟨hinv, happended⟩ := hskip.addApp happ hprops hterm hargs hfound
      exact ⟨hinv, hextends.trans happended,
        (congrArg pending registerUses_eq).trans hpending,
        fun _ => congrArg nodes registerUses_eq⟩
    | some existing =>
      dsimp only
      rw [← hroot] at hfound
      obtain ⟨hinv, happended⟩ := hskip.addCongruentApp happ hprops hterm hargs hfound
      obtain ⟨hinv, hpropagated, hframe, hdone⟩ := hinv.propagate
      exact ⟨hinv, hextends.trans (happended.trans hpropagated), hdone,
        fun _ => hframe.nodes.trans (congrArg nodes registerUses_eq)⟩

end EufSolver

end Nixie.Euf
