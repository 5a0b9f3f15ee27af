import Nixie.Congruence
import Nixie.Euf.Solver

/-!
Canonical signatures: the arguments are replaced by their roots, and sorted if the symbol is
commutative.
-/

namespace Nixie.Euf

open Congruence Undo UnionFind List Signatures

def canon (props : ℕ → FunctionProperties) (root : ℕ → ℕ) (sig : Signature) : Signature :=
  (sig.1, if (props sig.1).commutative then (sig.2.map root).insertionSort (· ≤ ·)
    else sig.2.map root)

def ENode.signature (node : ENode) : Signature := (node.func, node.args)

def terms (props : ℕ → FunctionProperties) (nodes : List ENode) : Terms ℕ ℕ where
  app u := (nodes[u]?).bind fun node => if node.isApp then some node.signature else none
  commutative f := (props f).commutative

section

variable {props : ℕ → FunctionProperties} {root root' : ℕ → ℕ} {sig sig' : Signature}
  {nodes : List ENode} {u : ℕ}

theorem terms_app : (terms props nodes).app u = some sig ↔
    ∃ node, nodes[u]? = some node ∧ node.isApp ∧ node.signature = sig := by
  simp only [terms, Option.bind_eq_some_iff]
  grind

theorem insertionSort_eq_iff {xs ys : List ℕ} : xs.insertionSort (· ≤ ·) = ys.insertionSort (· ≤ ·) ↔ xs.Perm ys := by
  have hxs := perm_insertionSort (· ≤ ·) xs
  have hys := perm_insertionSort (· ≤ ·) ys
  constructor
  · intro h
    rw [h] at hxs
    exact hxs.symm.trans hys
  · intro h
    exact ((hxs.trans h).trans hys.symm).eq_of_pairwise' (pairwise_insertionSort _ _) (pairwise_insertionSort _ _)

theorem canon_eq_iff : canon props root sig = canon props root sig' ↔
    sig.1 = sig'.1 ∧ Matches (props sig.1).commutative (fun x y => root x = root y) sig.2 sig'.2 := by
  unfold canon
  rw [Prod.mk.injEq, matches_map]
  refine and_congr_right fun hfunc => ?_
  rw [← hfunc]
  split
  · next hcomm =>
    rw [insertionSort_eq_iff]
    constructor
    · exact fun h => .inr ⟨hcomm, h⟩
    · rintro (h | ⟨-, h⟩)
      · exact h ▸ .rfl
      · exact h
  · next hcomm =>
    constructor
    · exact .inl
    · rintro (h | ⟨h, -⟩)
      · exact h
      · exact absurd h hcomm

theorem canon_coarsen (hroot : ∀ x y, root x = root y → root' x = root' y)
    (h : canon props root sig = canon props root sig') : canon props root' sig = canon props root' sig' := by
  rw [canon_eq_iff] at h ⊢
  exact ⟨h.1, h.2.mono hroot⟩

def Sorted (props : ℕ → FunctionProperties) (sig : Signature) : Prop :=
  (props sig.1).commutative → sig.2.Pairwise (· ≤ ·)

theorem sorted_canon : Sorted props (canon props root sig) := by
  intro hcomm
  have hcomm : (props sig.1).commutative := hcomm
  simp only [canon, hcomm, ↓reduceIte]
  exact pairwise_insertionSort _ _

theorem mem_canon {x : ℕ} : x ∈ (canon props root sig).2 ↔ ∃ y ∈ sig.2, root y = x := by
  unfold canon
  dsimp only
  split <;> simp

theorem canon_of_roots (hroots : ∀ x ∈ sig.2, root x = x) (hsorted : Sorted props sig) :
    canon props root sig = sig := by
  have hmap : sig.2.map root = sig.2 := by
    rw [map_congr_left hroots, map_id']
  unfold canon
  rw [hmap]
  split
  · next hcomm => rw [(hsorted hcomm).insertionSort_eq]
  · rfl

theorem canon_canon (hroot : ∀ x, root (root x) = root x) :
    canon props root (canon props root sig) = canon props root sig := by
  refine canon_of_roots (fun x hx => ?_) sorted_canon
  obtain ⟨y, -, rfl⟩ := mem_canon.mp hx
  exact hroot y

section

variable {uf : UnionFind} {n : ℕ} {args : List ℕ}

theorem UnionFind.WF.findAll (h : uf.WF n) : Agrees n uf (findAll args uf).1 := by
  induction args generalizing uf with
  | nil => exact .refl h
  | cons a args ih => exact h.find.trans (ih h.find.wf)

theorem UnionFind.WF.findAll_snd (h : uf.WF n) : (Euf.findAll args uf).2 = args.map uf.findNoCompress := by
  induction args generalizing uf with
  | nil => rfl
  | cons a args ih =>
    simp only [Euf.findAll, find_snd, map_cons]
    rw [ih h.find.wf, h.find.root]

theorem UnionFind.WF.canonicalizeArgs (h : uf.WF n) {p : FunctionProperties} :
    Agrees n uf (canonicalizeArgs p args uf).1 := h.findAll

theorem UnionFind.WF.canonicalizeArgs_snd (h : uf.WF n) {f : ℕ} : (f, (Euf.canonicalizeArgs (props f) args uf).2) =
    canon props uf.findNoCompress (f, args) := by
  simp only [Euf.canonicalizeArgs, canon, h.findAll_snd]

end

end

def Linked (root : ℕ → ℕ) (pending : List (ℕ × ℕ × MergeReason)) : ℕ → ℕ → Prop :=
  Relation.EqvGen fun x y => root x = root y ∨ ∃ reason, (x, y, reason) ∈ pending

def Justified (T : Terms ℕ ℕ) (R : ℕ → ℕ → Prop) (eqs : List (ℕ × ℕ × ℕ)) :
    ℕ × ℕ × MergeReason → Prop
  | (x, y, .assertion reason) => (x, y, reason) ∈ eqs
  | (x, y, .congruence term1 term2) => x = term1 ∧ y = term2 ∧ ∃ f xs ys,
      T.app x = some (f, xs) ∧ T.app y = some (f, ys) ∧ Matches (T.commutative f) R xs ys

/-- The entries of the table are signatures, now or at an earlier time, of the applications they
lead to. -/
structure Tabulates (props : ℕ → FunctionProperties) (nodes : List ENode) (root : ℕ → ℕ)
    (sigs : Signatures) : Prop where
  wf : sigs.WF
  sorted : ∀ key v, sigs.sigTable key = some v → Sorted props key
  entry : ∀ key v, sigs.sigTable key = some v → ∃ node, nodes[v]? = some node ∧ node.isApp ∧
    canon props root key = canon props root node.signature

def Published (props : ℕ → FunctionProperties) (nodes : List ENode) (root : ℕ → ℕ)
    (pending : List (ℕ × ℕ × MergeReason)) (sigs : Signatures) (u : ℕ) : Prop :=
  ∀ node, nodes[u]? = some node → node.isApp →
    ∃ v, sigs.sigTable (canon props root node.signature) = some v ∧ Linked root pending u v

section

variable {root root' : ℕ → ℕ} {pending pending' : List (ℕ × ℕ × MergeReason)} {x y : ℕ}

theorem linked_equivalence : Equivalence (Linked root pending) := Relation.EqvGen.is_equivalence _

theorem Linked.of_root (h : root x = root y) : Linked root pending x y := .rel _ _ (.inl h)

theorem Linked.of_mem {reason : MergeReason} (h : (x, y, reason) ∈ pending) :
    Linked root pending x y := .rel _ _ (.inr ⟨reason, h⟩)

theorem Linked.imp {R : ℕ → ℕ → Prop} (hR : Equivalence R) (hroot : ∀ x y, root x = root y → R x y)
    (hpending : ∀ x y reason, (x, y, reason) ∈ pending → R x y) (h : Linked root pending x y) : R x y := by
  induction h with
  | rel x y h =>
    rcases h with h | ⟨reason, h⟩
    · exact hroot x y h
    · exact hpending x y reason h
  | refl x => exact hR.refl x
  | symm x y _ ih => exact hR.symm ih
  | trans x y z _ _ ih₁ ih₂ => exact hR.trans ih₁ ih₂

theorem Linked.mono (hpending : ∀ e ∈ pending, e ∈ pending') (h : Linked root pending x y) : Linked root pending' x y :=
  h.imp linked_equivalence (fun _ _ => .of_root) fun _ _ _ hmem => .of_mem (hpending _ hmem)

theorem linked_nil : Linked root [] x y ↔ root x = root y := by
  constructor
  · intro h
    refine Linked.imp (R := fun x y => root x = root y) ⟨fun _ => rfl, Eq.symm, Eq.trans⟩ (fun _ _ h => h) ?_ h
    intro x y reason hmem
    cases hmem
  · exact .of_root

end

section

variable {props : ℕ → FunctionProperties} {nodes : List ENode} {root : ℕ → ℕ} {sigs : Signatures}
  {pending : List (ℕ × ℕ × MergeReason)} {u user v n m : ℕ} {key : Signature} {node : ENode}

theorem Tabulates.lookup (h : Tabulates props nodes root sigs) :
    (if sigs.fingerprintTable (fingerprint key) ≠ [] then sigs.sigTable key else none) =
      sigs.sigTable key := by
  split
  · rfl
  · next hempty =>
    cases hkey : sigs.sigTable key with
    | none => rfl
    | some v => exact absurd (h.wf.fingerprint key v hkey) hempty

theorem Tabulates.coarsen {root' : ℕ → ℕ} (h : Tabulates props nodes root sigs)
    (hroot : ∀ x y, root x = root y → root' x = root' y) : Tabulates props nodes root' sigs := by
  refine ⟨h.wf, h.sorted, fun key v hv => ?_⟩
  obtain ⟨node, hnode, happ, hcanon⟩ := h.entry key v hv
  exact ⟨node, hnode, happ, canon_coarsen hroot hcanon⟩

theorem Tabulates.key_eq (h : Tabulates props nodes root sigs) (hkey : sigs.sigTable key = some v)
    (hroots : ∀ x ∈ key.2, root x = x) (hv : nodes[v]? = some node) : key = canon props root node.signature := by
  obtain ⟨node', hv', -, hcanon⟩ := h.entry key v hkey
  rw [hv] at hv'
  cases hv'
  rw [← hcanon, canon_of_roots hroots (h.sorted key v hkey)]

variable (hroot : ∀ x, root (root x) = root x)

include hroot

theorem root_of_mem_canon {x : ℕ} (h : x ∈ (canon props root key).2) : root x = x := by
  obtain ⟨y, -, rfl⟩ := mem_canon.mp h
  exact hroot y

section

variable (h : Tabulates props nodes root sigs)
include h

theorem Tabulates.updateSigEntry_of_ne {inScope : Bool} (hu : nodes[user]? = some node)
    (hfree : sigs.sigTable (canon props root node.signature) = none)
    (hkey : sigs.sigTable (canon props root key) = some v) :
    (sigs.updateSigEntry inScope user (canon props root node.signature)).sigTable (canon props root key) =
    some v := by
  rw [updateSigEntry_sigTable]
  split
  · next heq =>
    rw [heq, hfree] at hkey
    cases hkey
  · split
    · next hold =>
      have hv := (h.wf.key _ _).mpr hold
      have hcanon := h.key_eq hv (fun x hx => root_of_mem_canon hroot hx) hu
      rw [hcanon, hfree] at hv
      cases hv
    · exact hkey

theorem Tabulates.publish {inScope : Bool} (hu : nodes[user]? = some node) (happ : node.isApp)
    (hfree : sigs.sigTable (canon props root node.signature) = none) :
    Tabulates props nodes root ((sigs.updateSigEntry inScope user
    (canon props root node.signature)).pushFingerprint inScope
    (fingerprint (canon props root node.signature)) user) := by
  refine ⟨h.wf.updateSigEntry hfree, fun key v hv => ?_, fun key v hv => ?_⟩
  · rw [pushFingerprint_sigTable, updateSigEntry_sigTable] at hv
    split at hv
    · next heq => exact heq ▸ sorted_canon
    · split at hv
      · cases hv
      · exact h.sorted key v hv
  · rw [pushFingerprint_sigTable, updateSigEntry_sigTable] at hv
    split at hv
    · next heq =>
      cases hv
      exact ⟨node, hu, happ, by rw [heq, canon_canon hroot]⟩
    · split at hv
      · cases hv
      · exact h.entry key v hv

theorem Tabulates.justified (hu : nodes[user]? = some node) (happ : node.isApp)
    (hfound : sigs.sigTable (canon props root node.signature) = some v) :
    Justified (terms props nodes) (fun x y => root x = root y) [] (user, v, .congruence user v) := by
  obtain ⟨node', hv, happ', hcanon⟩ := h.entry _ _ hfound
  rw [canon_canon hroot, canon_eq_iff] at hcanon
  obtain ⟨hfunc, hmatch⟩ := hcanon
  refine ⟨rfl, rfl, node.func, node.args, node'.args, ?_, ?_, hmatch⟩
  · exact terms_app.mpr ⟨node, hu, happ, rfl⟩
  · exact terms_app.mpr ⟨node', hv, happ', Prod.ext hfunc.symm rfl⟩

end

end

structure Scanned (props : ℕ → FunctionProperties) (nodes : List ENode) (root : ℕ → ℕ) (n : ℕ)
    (inScope : Bool) (pending : List (ℕ × ℕ × MergeReason)) (scan scan' : Scan) : Prop where
  uf : Agrees n scan.uf scan'.uf
  table : Tabulates props nodes root scan'.sigs
  published : ∀ u, Published props nodes root (scan.buf ++ pending) scan.sigs u →
    Published props nodes root (scan'.buf ++ pending) scan'.sigs u
  buf : ∀ e ∈ scan'.buf, e ∈ scan.buf ∨
    Justified (terms props nodes) (fun x y => root x = root y) [] e
  extends_ : inScope → ∀ m, scan.sigs.Extends m scan'.sigs

namespace Scanned

variable {props : ℕ → FunctionProperties} {nodes : List ENode} {root : ℕ → ℕ} {n : ℕ}
  {inScope : Bool} {pending : List (ℕ × ℕ × MergeReason)} {scan scan' scan'' : Scan}

theorem refl (huf : scan.uf.WF n) (htable : Tabulates props nodes root scan.sigs) :
    Scanned props nodes root n inScope pending scan scan :=
  ⟨.refl huf, htable, fun _ h => h, fun _ h => .inl h, fun _ _ => .refl⟩

theorem trans (h : Scanned props nodes root n inScope pending scan scan')
    (h' : Scanned props nodes root n inScope pending scan' scan'') :
    Scanned props nodes root n inScope pending scan scan'' where
  uf := h.uf.trans h'.uf
  table := h'.table
  published u hu := h'.published u (h.published u hu)
  buf e he := (h'.buf e he).elim (h.buf e) .inr
  extends_ hs m := (h.extends_ hs m).trans (h'.extends_ hs m)

end Scanned

namespace EufSolver

section

variable {props : ℕ → FunctionProperties} {s : EufSolver} {root : ℕ → ℕ} {n user : ℕ}
  {pending : List (ℕ × ℕ × MergeReason)} {scan : Scan}

theorem scanUse_spec (hprops : ∀ node ∈ s.nodes, node.isApp → s.getFunctionProps node.func = props node.func)
    (huf : scan.uf.WF n) (hroot : scan.uf.findNoCompress = root) (htable : Tabulates props s.nodes root scan.sigs) :
    Scanned props s.nodes root n s.inScope pending scan (s.scanUse user scan) ∧
    Published props s.nodes root ((s.scanUse user scan).buf ++ pending) (s.scanUse user scan).sigs user := by
  have hidem (x : ℕ) : root (root x) = root x := hroot ▸ huf.root_root
  unfold scanUse
  cases hnode : s.nodes[user]? with
  | none =>
    refine ⟨.refl huf htable, fun node hu => ?_⟩
    rw [hnode] at hu
    cases hu
  | some node =>
    dsimp only
    by_cases happ : node.isApp
    · rw [if_pos happ, hprops node (mem_of_getElem? hnode) happ]
      have hsig : (node.func, (canonicalizeArgs (props node.func) node.args scan.uf).2) =
          canon props root node.signature := by
        rw [← hroot]
        exact huf.canonicalizeArgs_snd
      have hcanon : Agrees n scan.uf (canonicalizeArgs (props node.func) node.args scan.uf).1 := huf.canonicalizeArgs
      have hlink (pending' : List (ℕ × ℕ × MergeReason)) (sigs : Signatures) (v : ℕ)
          (hv : sigs.sigTable (canon props root node.signature) = some v)
          (hlinked : Linked root pending' user v) :
          Published props s.nodes root pending' sigs user := by
        intro node' hu _
        rw [hnode] at hu
        cases hu
        exact ⟨v, hv, hlinked⟩
      rw [hsig, htable.lookup]
      cases hfound : scan.sigs.sigTable (canon props root node.signature) with
      | none =>
        dsimp only
        refine ⟨⟨hcanon, htable.publish hidem hnode happ hfound, fun u hu node' hnode' happ' => ?_,
          fun e he => .inl he, fun hs m => ?_⟩, hlink _ _ user ?_ (.refl _)⟩
        · obtain ⟨v, hv, hlinked⟩ := hu node' hnode' happ'
          exact ⟨v, htable.updateSigEntry_of_ne hidem hnode hfound hv, hlinked⟩
        · rw [hs]
          exact (extends_updateSigEntry htable.wf hfound).trans extends_pushFingerprint
        · rw [pushFingerprint_sigTable, updateSigEntry_sigTable, if_pos rfl]
      | some existing =>
        dsimp only
        split
        · next heq =>
          exact ⟨⟨hcanon, htable, fun u hu => hu, fun e he => .inl he, fun _ _ => .refl⟩,
            hlink _ _ existing hfound (heq ▸ .refl _)⟩
        · have hsame := hcanon.wf.same (x := user) (y := existing)
          have hroots : (canonicalizeArgs (props node.func) node.args scan.uf).1.findNoCompress = root :=
            hcanon.root.trans hroot
          rw [hcanon.wf.same_snd, sameNoCompress, hroots]
          simp only [decide_eq_true_eq]
          split
          · next heq =>
            exact ⟨⟨hcanon.trans hsame, htable, fun u hu => hu, fun e he => .inl he, fun _ _ => .refl⟩,
              hlink _ _ existing hfound (.of_root heq)⟩
          · refine ⟨⟨hcanon.trans hsame, htable, fun u hu node' hnode' happ' => ?_, fun e he => ?_,
              fun _ _ => .refl⟩, hlink _ _ existing hfound (.of_mem mem_cons_self)⟩
            · obtain ⟨v, hv, hlinked⟩ := hu node' hnode' happ'
              exact ⟨v, hv, hlinked.mono fun e he => mem_cons_of_mem _ he⟩
            · rcases mem_cons.mp he with rfl | he
              · exact .inr (htable.justified hidem hnode happ hfound)
              · exact .inl he
    · rw [if_neg happ]
      refine ⟨.refl huf htable, fun node' hu hnode' => ?_⟩
      rw [hnode] at hu
      cases hu
      exact absurd hnode' happ

theorem scanUses_spec {users : List ℕ} (hprops : ∀ node ∈ s.nodes, node.isApp →
    s.getFunctionProps node.func = props node.func) (huf : scan.uf.WF n) (hroot : scan.uf.findNoCompress = root)
    (htable : Tabulates props s.nodes root scan.sigs) :
    Scanned props s.nodes root n s.inScope pending scan (s.scanUses users scan) ∧
    ∀ user ∈ users, Published props s.nodes root ((s.scanUses users scan).buf ++ pending)
    (s.scanUses users scan).sigs user := by
  induction users generalizing scan with
  | nil => exact ⟨.refl huf htable, by simp⟩
  | cons user users ih =>
    obtain ⟨hscan, huser⟩ := @scanUse_spec props s root n user pending scan hprops huf hroot htable
    obtain ⟨hrest, husers⟩ := ih hscan.uf.wf (hscan.uf.root.trans hroot) hscan.table
    refine ⟨hscan.trans hrest, fun u hu => ?_⟩
    rcases mem_cons.mp hu with rfl | hu
    · exact hrest.published u huser
    · exact husers u hu

end

abbrev root (s : EufSolver) : ℕ → ℕ := s.uf.findNoCompress

structure Merged (props : ℕ → FunctionProperties) (s s' : EufSolver) (a b : ℕ)
    (reason : MergeReason) (newRoot otherRoot : ℕ) : Prop where
  nodes : s'.nodes = s.nodes
  termToNode : s'.termToNode = s.termToNode
  valueConsts : s'.valueConsts = s.valueConsts
  contextStack : s'.contextStack = s.contextStack
  functionProperties : s'.functionProperties = s.functionProperties
  explCache : s'.explCache = []
  roots : ∀ r, r = s.root a ∨ r = s.root b ↔ r = newRoot ∨ r = otherRoot
  ne : newRoot ≠ otherRoot
  root : ∀ x, s'.root x = if s.root x = otherRoot then newRoot else s.root x
  wf : s'.uf.WF s.nodes.length
  trailLimits : s'.uf.trailLimits = s.uf.trailLimits
  ufExtends : s.uf.inScope → s.uf.Extends s'.uf
  proofForest : s'.proofForest = (s.proofForest.push s.inScope a ⟨b, reason, s.proofStamp⟩).push
    s.inScope b ⟨a, reason, s.proofStamp⟩
  values : s'.values = s.values.mergeClasses s.inScope (s.root a) (s.root b) newRoot
  diseqs : s'.diseqs = s.diseqs.mergeClasses s.inScope (s.root a) (s.root b) newRoot otherRoot
  uses : ∀ r, s'.useList.lists r =
    if r = newRoot then s.useList.lists newRoot ++ s.useList.lists otherRoot else s.useList.lists r
  useListExtends : s.inScope → ∀ m, s.useList.Extends m s'.useList
  table : Tabulates props s.nodes s'.root s'.sigs
  sigsExtends : s.inScope → ∀ m, s.sigs.Extends m s'.sigs
  published : ∀ u, u ∈ s.useList.lists otherRoot ∨
    Published props s.nodes s'.root s.pending s.sigs u →
      Published props s.nodes s'.root s'.pending s'.sigs u
  pending : ∀ e ∈ s.pending, e ∈ s'.pending
  justified : ∀ e ∈ s'.pending, e ∈ s.pending ∨
    Justified (terms props s.nodes) (fun x y => s'.root x = s'.root y) [] e

section

variable {s : EufSolver} {users : List ℕ} {newRoot : ℕ}

theorem migrateUses_eq : migrateUses newRoot users s =
    { s with useList := (migrateUses newRoot users s).useList } := by
  induction users generalizing s with
  | nil => rfl
  | cons entry users ih =>
    unfold migrateUses
    rw [ih]
    rfl

theorem migrateUses_lists {r : ℕ} : (migrateUses newRoot users s).useList.lists r =
    if r = newRoot then s.useList.lists newRoot ++ users else s.useList.lists r := by
  induction users generalizing s with
  | nil =>
    unfold migrateUses
    split
    · next h => rw [h, append_nil]
    · rfl
  | cons entry users ih =>
    unfold migrateUses
    rw [ih]
    simp only [useListPush, TrailedLists.push_lists, ↓reduceIte, append_assoc, singleton_append]
    split <;> rfl

theorem extends_migrateUses (hs : s.inScope) {m : ℕ} : s.useList.Extends m (migrateUses newRoot users s).useList := by
  induction users generalizing s with
  | nil => exact .refl
  | cons entry users ih =>
    unfold migrateUses
    refine Undo.Extends.trans ?_ (ih (s := s.useListPush newRoot entry) hs)
    simp only [useListPush, hs]
    exact TrailedLists.extends_push

end

section

variable {props : ℕ → FunctionProperties} {s : EufSolver} {a b : ℕ} {reason : MergeReason}

theorem exists_newRoot (huf : s.uf.WF s.nodes.length) (ha : a < s.nodes.length)
    (hb : b < s.nodes.length) (hne : s.root a ≠ s.root b) :
    let newRoot := ((s.uf.union (s.root a) (s.root b)).find (s.root a)).2
    let otherRoot := if newRoot = s.root a then s.root b else s.root a
    newRoot ≠ otherRoot ∧ (∀ r, r = s.root a ∨ r = s.root b ↔ r = newRoot ∨ r = otherRoot) ∧
      Joined s.nodes.length s.uf (s.uf.union (s.root a) (s.root b)) otherRoot newRoot := by
  obtain ⟨loser, winner, hroots, hjoined⟩ := huf.union (huf.root_lt ha) (huf.root_lt hb)
    (by rwa [huf.root_root, huf.root_root])
  rw [huf.root_root, huf.root_root] at hroots
  rw [find_snd, hjoined.root, huf.root_root]
  rcases hroots with ⟨rfl, rfl⟩ | ⟨rfl, rfl⟩
  · rw [if_pos rfl]
    dsimp only
    rw [if_neg hne.symm]
    exact ⟨hne.symm, fun r => or_comm, hjoined⟩
  · rw [if_neg hne]
    dsimp only
    rw [if_pos rfl]
    exact ⟨hne, fun r => Iff.rfl, hjoined⟩

theorem applyMerge_spec (huf : s.uf.WF s.nodes.length) (ha : a < s.nodes.length) (hb : b < s.nodes.length)
    (hne : s.root a ≠ s.root b) (hprops : ∀ node ∈ s.nodes, node.isApp →
    s.getFunctionProps node.func = props node.func) (htable : Tabulates props s.nodes s.root s.sigs) :
    ∃ newRoot otherRoot, Merged props s (s.applyMerge a b reason) a b reason newRoot otherRoot := by
  obtain ⟨hnew, hroots, hjoined⟩ := exists_newRoot huf ha hb hne
  unfold applyMerge
  dsimp only
  set newRoot := ((s.uf.union (s.root a) (s.root b)).find (s.root a)).2
  set otherRoot := if newRoot = s.root a then s.root b else s.root a
  refine ⟨newRoot, otherRoot, ?_⟩
  set t := s.unite a b reason (s.root a) (s.root b) newRoot otherRoot with ht
  have hfind : Agrees s.nodes.length (s.uf.union (s.root a) (s.root b)) t.uf := hjoined.wf.find
  have hroot (x : ℕ) : t.root x = if s.root x = otherRoot then newRoot else s.root x := by
    rw [root, hfind.root, hjoined.root]
  have htable' : Tabulates props t.nodes t.root t.sigs := htable.coarsen fun x y hxy => by rw [hroot, hroot, hxy]
  obtain ⟨hscan, husers⟩ := @scanUses_spec props t t.root s.nodes.length t.pending
    { uf := t.uf, sigs := t.sigs } (t.useList.lists otherRoot) hprops hfind.wf rfl htable'
  set scan := t.scanUses (t.useList.lists otherRoot) { uf := t.uf, sigs := t.sigs } with hscan'
  let r : EufSolver := { t with uf := scan.uf, sigs := scan.sigs, pending := scan.buf ++ t.pending }
  have hupdate : t.updateUsers newRoot otherRoot = migrateUses newRoot (t.useList.lists otherRoot) r := rfl
  rw [hupdate, migrateUses_eq]
  have hroot' : scan.uf.findNoCompress = t.root := hscan.uf.root
  rw [← hroot'] at hscan husers
  exact
    { nodes := rfl
      termToNode := rfl
      valueConsts := rfl
      contextStack := rfl
      functionProperties := rfl
      explCache := rfl
      roots := hroots
      ne := hnew
      root := fun x => (congrFun hroot' x).trans (hroot x)
      wf := hscan.uf.wf
      trailLimits := hscan.uf.trailLimits.trans (hfind.trailLimits.trans hjoined.trailLimits)
      ufExtends := fun hs => hjoined.extends_.trans ((hfind.trans hscan.uf).extends_ (by
        simpa only [UnionFind.inScope, hjoined.trailLimits] using hs))
      proofForest := rfl
      values := rfl
      diseqs := rfl
      uses := fun r => migrateUses_lists
      useListExtends := fun hs m => extends_migrateUses (s := r) hs
      table := hscan.table
      sigsExtends := fun hs m => hscan.extends_ hs m
      published := fun u hu => hu.elim (husers u) (hscan.published u)
      pending := fun e he => mem_append_right _ he
      justified := fun e he => (mem_append.mp he).elim
        (fun hbuf => (hscan.buf e hbuf).imp_left fun hnil => absurd hnil not_mem_nil) .inl }

end

end EufSolver

end Nixie.Euf
