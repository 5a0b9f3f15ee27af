import Nixie.Euf.Unions
import Nixie.Euf.Intern

/-!
The invariant of the index over the disequalities, and that every call keeps it.
-/

namespace Nixie.Euf

open Undo UnionFind List Function Disequalities

namespace Disequalities

variable {d : Disequalities} {root : ℕ → ℕ} {rootA rootB newRoot otherRoot : ℕ} {inScope : Bool}

def Ordered (d : Disequalities) : Prop := ∀ q ∈ d.diseqs, q.cachedPair.1 ≤ q.cachedPair.2

def Joins (root : ℕ → ℕ) (q : Diseq) (r r' : ℕ) : Prop :=
  root q.lhs = r ∧ root q.rhs = r' ∨ root q.lhs = r' ∧ root q.rhs = r

theorem Ordered.mergeClasses (h : d.Ordered) (htracks : d.Tracks root)
    (hroots : ∀ r, r = rootA ∨ r = rootB ↔ r = newRoot ∨ r = otherRoot)
    (hsides : ∀ q ∈ d.diseqs, ∀ r, Joins root q otherRoot r → r ≠ newRoot → r ≠ otherRoot →
    (otherRoot < r ↔ newRoot < r)) : (d.mergeClasses inScope rootA rootB newRoot otherRoot).Ordered := by
  intro q hq
  obtain ⟨i, hi⟩ := mem_iff_getElem?.mp hq
  obtain ⟨pair, hold, hpair⟩ := cachedPair_mergeClasses hroots htracks hi
  have hmem := mem_of_getElem? hold
  have hle : pair.1 ≤ pair.2 := h _ hmem
  have hsides (r : ℕ) : Joins root q otherRoot r → r ≠ newRoot → r ≠ otherRoot → (otherRoot < r ↔ newRoot < r) :=
    hsides _ hmem r
  have hcached : pair = (root q.lhs, root q.rhs) ∨ pair = (root q.rhs, root q.lhs) := htracks.cached i _ hold
  rw [hpair, newPair_eq hroots]
  obtain ⟨x, y⟩ := pair
  have hjoins : Joins root q x y := by
    rcases hcached with hc | hc
    · exact .inl ⟨(congrArg Prod.fst hc).symm, (congrArg Prod.snd hc).symm⟩
    · exact .inr ⟨(congrArg Prod.snd hc).symm, (congrArg Prod.fst hc).symm⟩
  have hx := hsides y
  have hy := hsides x
  have hswap : Joins root q y x := hjoins.symm
  dsimp only at hle ⊢
  split
  · next hxo =>
    subst hxo
    have hx := hx hjoins
    split
    · exact le_rfl
    · next hyo =>
      by_cases hyn : y = newRoot
      · exact hyn.ge
      · exact ((hx hyn hyo).mp (lt_of_le_of_ne hle (Ne.symm hyo))).le
  · next hxo =>
    split
    · next hyo =>
      subst hyo
      by_cases hxn : x = newRoot
      · exact hxn.le
      · exact Nat.le_of_not_lt fun hlt => absurd ((hy hswap hxn hxo).mpr hlt) (Nat.not_lt_of_le hle)
    · exact hle

end Disequalities

namespace EufSolver

def declaredValue (s : EufSolver) (x : ℕ) : Option ℕ := (s.nodes[x]?).bind fun node => s.valueConsts node.term

def KeepsSides (s : EufSolver) (a b : ℕ) : Prop :=
  ∀ q ∈ s.diseqs.diseqs, ∀ r, Disequalities.Joins s.root q (s.loser a b) r → r ≠ s.winner a b →
    r ≠ s.loser a b → (s.loser a b < r ↔ s.winner a b < r)

structure Fits (C : EufSolver → ℕ → ℕ → Prop) (s : EufSolver) : Prop where
  uf : s.uf.WF s.nodes.length
  limits : s.uf.trailLimits.length = s.contextStack.length + 1
  pending : Live s.nodes.length s.pending
  sigs : Keyed s.nodes.length s.sigs
  watch : ∀ i, s.nodes.length ≤ i → s.diseqs.diseqWatch.lists i = []
  tracks : s.diseqs.Tracks s.root
  few : s.diseqs.Few
  counted : s.diseqs.Counted
  ordered : (∀ s a b, C s a b → s.KeepsSides a b) → s.diseqs.Ordered
  classValue : ∀ i, s.nodes.length ≤ i → s.values.classValue i = none
  values : ∃ mark, s.values.Summarizes mark s.root ∧ ∀ x v, mark x = some v → s.declaredValue x = some v

structure Follows (s s' : EufSolver) : Prop where
  contextStack : s'.contextStack = s.contextStack
  trailLimits : s'.uf.trailLimits = s.uf.trailLimits
  nodes : s.nodes <+: s'.nodes
  numDiseqs : s.diseqs.diseqs.length ≤ s'.diseqs.diseqs.length
  valueConsts : ∀ term v, s.valueConsts term = some v → s'.valueConsts term = some v
  uf : s.inScope → s.uf.Extends s'.uf
  sigs : s.inScope → ∀ n ≤ s.nodes.length, s.sigs.Extends n s'.sigs
  diseqs : s.inScope → ∀ n ≤ s.nodes.length, ∀ k ≤ s.diseqs.diseqs.length,
    s.diseqs.Extends k n s'.diseqs
  values : s.inScope → ∀ n ≤ s.nodes.length, s.values.Extends n s'.values
  logged : s.inScope → s.diseqs.Logged s'.diseqs

variable {C : EufSolver → ℕ → ℕ → Prop} {s s' s'' : EufSolver} {a b x v : ℕ}
  {rest : List (ℕ × ℕ × MergeReason)}

theorem Follows.refl (s : EufSolver) : Follows s s where
  contextStack := rfl
  trailLimits := rfl
  nodes := prefix_rfl
  numDiseqs := le_rfl
  valueConsts _ _ h := h
  uf _ := .refl
  sigs _ _ _ := .refl
  diseqs _ _ _ _ _ := .refl
  values _ _ _ := .refl
  logged _ := .refl

theorem Follows.trans (h : Follows s s') (h' : Follows s' s'') : Follows s s'' := by
  have hlen := h.nodes.length_le
  have hscope (hs : s.inScope) : s'.inScope := by
    rw [inScope, h.contextStack]
    exact hs
  exact
    { contextStack := h'.contextStack.trans h.contextStack
      trailLimits := h'.trailLimits.trans h.trailLimits
      nodes := h.nodes.trans h'.nodes
      numDiseqs := h.numDiseqs.trans h'.numDiseqs
      valueConsts := fun term v hv => h'.valueConsts term v (h.valueConsts term v hv)
      uf := fun hs => (h.uf hs).trans (h'.uf (hscope hs))
      sigs := fun hs n hn => (h.sigs hs n hn).trans (h'.sigs (hscope hs) n (hn.trans hlen))
      diseqs := fun hs n hn k hk =>
        (h.diseqs hs n hn k hk).trans (h'.diseqs (hscope hs) n (hn.trans hlen) k (hk.trans h.numDiseqs))
      values := fun hs n hn => (h.values hs n hn).trans (h'.values (hscope hs) n (hn.trans hlen))
      logged := fun hs => (h.logged hs).trans (h'.logged (hscope hs)) }

theorem Follows.declaredValue (h : Follows s s') (hv : s.declaredValue x = some v) : s'.declaredValue x = some v := by
  obtain ⟨node, hnode, hvalue⟩ := Option.bind_eq_some_iff.mp hv
  obtain ⟨added, hadded⟩ := h.nodes
  refine Option.bind_eq_some_iff.mpr ⟨node, ?_, h.valueConsts _ _ hvalue⟩
  rw [← hadded, List.getElem?_append_left (List.getElem?_eq_some_iff.mp hnode).1, hnode]

theorem Fits.inScope (h : Fits C s) : s.uf.inScope = s.inScope := by
  have hlen := h.limits
  unfold UnionFind.inScope EufSolver.inScope
  cases hstack : s.contextStack with
  | nil => simp [hlen, hstack]
  | cons c stack => simp [hlen, hstack]

theorem Fits.skip (h : Fits C s) {uf : UnionFind} (huf : Agrees s.nodes.length s.uf uf)
    (hrest : Live s.nodes.length rest) :
    Fits C { s with uf := uf, pending := rest } ∧ Follows s { s with uf := uf, pending := rest } := by
  constructor
  · refine { h with
      uf := huf.wf
      limits := (congrArg List.length huf.trailLimits).trans h.limits
      pending := hrest
      tracks := ?_
      values := ?_ }
    · rw [root, huf.root]
      exact h.tracks
    · rw [root, huf.root]
      exact h.values
  · exact { Follows.refl s with
      trailLimits := huf.trailLimits
      uf := fun hs => huf.extends_ (h.inScope ▸ hs) }

theorem Fits.unites (h : Fits C s) (hC : C s a b) (ha : a < s.nodes.length) (hb : b < s.nodes.length)
    (hu : Unites s s' a b) : Fits C s' ∧ Follows s s' := by
  have hfollows : Follows s s' :=
    { contextStack := hu.contextStack
      trailLimits := hu.trailLimits
      nodes := hu.nodes ▸ prefix_rfl
      numDiseqs := by rw [hu.diseqs, length_mergeClasses]
      valueConsts := fun term v hv => hu.valueConsts ▸ hv
      uf := fun hs => hu.ufExtends (h.inScope ▸ hs)
      sigs := fun hs n _ => hu.sigsExtends hs n
      diseqs := fun hs n _ k _ => by
        rw [hu.diseqs, hs]
        exact extends_mergeClasses
      values := fun hs n _ => by
        rw [hu.values, hs]
        exact ClassValues.extends_mergeClasses
      logged := fun hs => by
        rw [hu.diseqs, hs]
        exact logged_mergeClasses }
  have hwinner : s.winner a b < s.nodes.length := by
    rcases (hu.roots _).mpr (.inl rfl) with heq | heq
    · exact heq ▸ h.uf.root_lt ha
    · exact heq ▸ h.uf.root_lt hb
  refine ⟨?_, hfollows⟩
  refine
    { uf := hu.nodes ▸ hu.wf
      limits := by rw [hu.trailLimits, hu.contextStack, h.limits]
      pending := hu.nodes ▸ hu.pending
      sigs := hu.nodes ▸ hu.sigs
      watch := fun i hi => ?_
      tracks := ?_
      few := ?_
      counted := ?_
      ordered := fun hsides => ?_
      classValue := fun i hi => ?_
      values := ?_ }
  · rw [hu.nodes] at hi
    rw [hu.diseqs, eq_nil_iff_forall_not_mem]
    intro j hj
    rcases Disequalities.mem_mergeClasses.mp hj with hj | ⟨rfl, -⟩
    · rw [h.watch i hi] at hj
      cases hj
    · omega
  · rw [hu.diseqs]
    exact h.tracks.mergeClasses hu.roots hu.root
  · rw [hu.diseqs, Disequalities.Few, length_mergeClasses]
    exact h.few
  · rw [hu.diseqs]
    exact h.counted.mergeClasses h.few
  · rw [hu.diseqs]
    exact (h.ordered hsides).mergeClasses h.tracks hu.roots (hsides s a b hC)
  · rw [hu.nodes] at hi
    rw [hu.values, ClassValues.mergeClasses_classValue, if_neg (Nat.ne_of_gt (hwinner.trans_le hi))]
    exact h.classValue i hi
  · obtain ⟨mark, hmark, hdeclared⟩ := h.values
    refine ⟨mark, ?_, fun x v hv => hfollows.declaredValue (hdeclared x v hv)⟩
    rw [hu.values]
    exact hmark.mergeClasses hu.roots h.uf.root_root h.uf.root_root hu.root

def Unions (C : EufSolver → ℕ → ℕ → Prop) : ℕ → EufSolver → Prop
  | 0, _ => True
  | fuel + 1, s =>
    match nextMerge s.pending s.uf with
    | (_, none) => True
    | (uf, some ((a, b, reason), pending)) =>
      C { s with uf := uf, pending := pending } a b ∧
        Unions C fuel (applyMerge { s with uf := uf, pending := pending } a b reason)

theorem Fits.propagateLoop {fuel : ℕ} (h : Fits C s) (hC : Unions C fuel s) (hfuel : s.numClasses ≤ fuel) :
    Fits C (s.propagateLoop fuel) ∧ Follows s (s.propagateLoop fuel) ∧ (s.propagateLoop fuel).pending = [] := by
  induction fuel generalizing s with
  | zero =>
    have hn : s.nodes.length = 0 := by
      by_contra hn
      have := numClasses_pos h.uf (Nat.pos_of_ne_zero hn)
      omega
    refine ⟨h, .refl s, eq_nil_iff_forall_not_mem.mpr fun e he => ?_⟩
    have := (h.pending e he).1
    omega
  | succ fuel ih =>
    unfold EufSolver.propagateLoop
    unfold Unions at hC
    split
    · next uf hnext =>
      have huf := (nextMerge_none h.uf (by rw [hnext])).1
      rw [hnext] at huf
      obtain ⟨hfits, hfollows⟩ := @Fits.skip _ _ [] h _ huf (by simp [Live])
      exact ⟨hfits, hfollows, rfl⟩
    · next uf a b reason rest hnext =>
      obtain ⟨huf, hne, skipped, hpending, -⟩ := nextMerge_some h.uf (by rw [hnext])
      rw [hnext] at huf hC
      obtain ⟨hmeets, hrest⟩ := hC
      have hlive : Live s.nodes.length ((a, b, reason) :: rest) := fun e he =>
        h.pending e (hpending ▸ mem_append_right _ he)
      obtain ⟨⟨ha, hb⟩, hlive⟩ := forall_mem_cons.mp hlive
      obtain ⟨hskip, hskipped⟩ := h.skip huf hlive
      set t : EufSolver := { s with uf := uf, pending := rest } with ht
      have hroot : t.root = s.root := huf.root
      have htne : t.root a ≠ t.root b := by
        rw [hroot]
        exact hne
      have hu : Unites t (t.applyMerge a b reason) a b :=
        applyMerge_unites hskip.uf hskip.sigs hskip.pending ha hb htne
      obtain ⟨hfits, hfollows⟩ := hskip.unites hmeets ha hb hu
      have hcount : t.numClasses = s.numClasses := by
        unfold numClasses
        rw [hroot]
      have hroots (r : ℕ) (hr : r = t.winner a b ∨ r = t.loser a b) : t.root r = r ∧ r < t.nodes.length := by
        rcases (hu.roots r).mpr hr with rfl | rfl
        · exact ⟨hskip.uf.root_root, hskip.uf.root_lt ha⟩
        · exact ⟨hskip.uf.root_root, hskip.uf.root_lt hb⟩
      have hless : (t.applyMerge a b reason).numClasses < t.numClasses :=
        numClasses_lt hu.nodes hu.ne hu.root (hroots _ (.inl rfl)).1 (hroots _ (.inr rfl))
      obtain ⟨hfits', hfollows', hdone⟩ := ih hfits hrest (by omega)
      exact ⟨hfits', hskipped.trans (hfollows.trans hfollows'), hdone⟩

theorem Fits.propagate (h : Fits C s) (hC : Unions C s.nodes.length s) :
    Fits C s.propagate ∧ Follows s s.propagate ∧ s.propagate.pending = [] :=
  h.propagateLoop hC ((Finset.card_filter_le _ _).trans (Finset.card_range _).le)

theorem Fits.enqueue {e : ℕ × ℕ × MergeReason} (h : Fits C s)
    (he : e.1 < s.nodes.length ∧ e.2.1 < s.nodes.length) :
    Fits C { s with explCache := [], pending := e :: s.pending } :=
  { h with pending := forall_mem_cons.mpr ⟨he, h.pending⟩ }

theorem follows_enqueue {e : ℕ × ℕ × MergeReason} :
    Follows s { s with explCache := [], pending := e :: s.pending } := { Follows.refl s with }

section

variable {reason term func existing : ℕ} {args : List ℕ} {node : ENode} {key : Option Signature}
  {value : Option ℕ} {t : EufSolver}

theorem Fits.assertDiseq (h : Fits C s) (ha : a < s.nodes.length) (hb : b < s.nodes.length)
    (hfew : s.diseqs.diseqs.length + 1 < 2 ^ 32) :
    Fits C (s.assertDiseq a b reason) ∧ Follows s (s.assertDiseq a b reason) := by
  constructor
  · exact { h with
      watch := by
        intro i hi
        rw [eq_nil_iff_forall_not_mem]
        intro j hj
        rcases Disequalities.mem_assertDiseq_watch.mp hj with hj | ⟨hroot, -⟩
        · rw [h.watch i hi] at hj
          cases hj
        · have hA := h.uf.root_lt ha
          have hB := h.uf.root_lt hb
          have hi : s.nodes.length ≤ i := hi
          omega
      tracks := h.tracks.assertDiseq
      few := by
        rw [Disequalities.Few, EufSolver.assertDiseq, assertDiseq_diseqs, length_append]
        exact hfew
      counted := h.counted.assertDiseq hfew
      ordered := by
        intro hsides q hq
        rw [EufSolver.assertDiseq, assertDiseq_diseqs, mem_append, mem_singleton] at hq
        rcases hq with hq | rfl
        · exact h.ordered hsides q hq
        · exact orderedPair_le }
  · exact { Follows.refl s with
      numDiseqs := by simp [EufSolver.assertDiseq, assertDiseq_diseqs]
      diseqs := by
        intro hs n _ k hk
        simp only [EufSolver.assertDiseq, hs]
        exact Disequalities.extends_assertDiseq hk
      logged := by
        intro hs
        simp only [EufSolver.assertDiseq, hs]
        exact logged_assertDiseq }

theorem follows_addNode (h : Fits C s) : Follows s (s.addNode node key value) :=
  { Follows.refl s with
    nodes := prefix_append _ _
    uf := fun _ => h.uf.extends_add
    sigs := fun _ _ hn => Signatures.extends_addNode hn
    values := fun _ _ hn => ClassValues.extends_addNode hn }

theorem Fits.addNode (h : Fits C s) (hvalue : ∀ v, value = some v → s.valueConsts node.term = some v)
    {uf : UnionFind} {sigs : Signatures} {useList : TrailedLists ℕ}
    (huf : Agrees (s.nodes.length + 1) s.uf.add uf) (hsigs : Keyed (s.nodes.length + 1) sigs) :
    Fits C { s.addNode node key value with uf := uf, sigs := sigs, useList := useList } := by
  have hlen : (s.nodes ++ [node]).length = s.nodes.length + 1 := by simp
  have hfresh : s.root s.nodes.length = s.nodes.length := h.uf.root_out le_rfl
  have hroot : uf.findNoCompress = s.root := huf.root.trans h.uf.root_add
  refine
    { uf := ?_
      limits := (congrArg List.length huf.trailLimits).trans h.limits
      pending := fun e he => ?_
      sigs := ?_
      watch := fun i hi => h.watch i ?_
      tracks := ?_
      few := h.few
      counted := h.counted
      ordered := h.ordered
      classValue := fun i hi => ?_
      values := ?_ }
  · show uf.WF (s.nodes ++ [node]).length
    rw [hlen]
    exact huf.wf
  · have hold := h.pending e he
    show e.1 < (s.nodes ++ [node]).length ∧ e.2.1 < (s.nodes ++ [node]).length
    omega
  · show Keyed (s.nodes ++ [node]).length sigs
    rw [hlen]
    exact hsigs
  · have hi : (s.nodes ++ [node]).length ≤ i := hi
    omega
  · show s.diseqs.Tracks uf.findNoCompress
    rw [hroot]
    exact h.tracks
  · have hi : (s.nodes ++ [node]).length ≤ i := hi
    show (s.values.addNode s.nodes.length value).classValue i = none
    rw [ClassValues.addNode_classValue, if_neg (by omega)]
    exact h.classValue i (by omega)
  · obtain ⟨mark, hmark, hdeclared⟩ := h.values
    have hnone : mark s.nodes.length = none := by
      cases hv : mark s.nodes.length with
      | none => rfl
      | some v =>
        have hdecl := hdeclared _ v hv
        rw [declaredValue, getElem?_eq_none le_rfl] at hdecl
        cases hdecl
    refine ⟨update mark s.nodes.length value, ?_, fun x v hv => ?_⟩
    · show (s.values.addNode s.nodes.length value).Summarizes _ uf.findNoCompress
      rw [hroot]
      refine hmark.addNode hfresh (fun x hx => ?_) hnone
      by_contra hne
      rcases Nat.lt_or_ge x s.nodes.length with hlt | hge
      · exact absurd hx (Nat.ne_of_lt (h.uf.root_lt hlt))
      · exact hne ((h.uf.root_out hge).symm.trans hx)
    · show ((s.nodes ++ [node])[x]?).bind (fun node => s.valueConsts node.term) = some v
      rw [update_apply] at hv
      split at hv
      · next hx =>
        rw [hx, getElem?_concat_length]
        exact hvalue v hv
      · have hdecl := hdeclared x v hv
        obtain ⟨node', hnode, hvalue'⟩ := Option.bind_eq_some_iff.mp hdecl
        rw [List.getElem?_append_left (List.getElem?_eq_some_iff.mp hnode).1, hnode]
        exact hvalue'

theorem Fits.intern (h : Fits C s) : Fits C (s.intern term).1 ∧ Follows s (s.intern term).1 := by
  unfold EufSolver.intern
  split
  · exact ⟨h, .refl s⟩
  · refine ⟨?_, follows_addNode h⟩
    have hsigs : Keyed (s.nodes.length + 1) s.sigs := ⟨h.sigs.wf, fun i hi => h.sigs.out i (by omega)⟩
    rw [← Signatures.addNode_none (h.sigs.out s.nodes.length le_rfl)] at hsigs
    have hadded : Fits C { s.addNode (.leaf term) none (s.valueConsts term) with
        uf := s.uf.add
        sigs := s.sigs.addNode s.nodes.length none
        useList := s.useList } :=
      h.addNode (fun v hv => hv) (.refl h.uf.add) hsigs
    exact hadded

def addApp (s : EufSolver) (term func : ℕ) (args : List ℕ) : EufSolver × Signature × Option ℕ :=
  let flattened := s.flattenArgs func args
  let canon := canonicalizeArgs (s.getFunctionProps func) flattened s.uf
  let sig := (func, canon.2)
  let looked := s.sigs.lookupValidSig sig
  let s := { s with uf := canon.1, sigs := looked.1 }
  let idx := s.nodes.length
  let s := s.addNode ⟨func, flattened, term⟩ (if looked.2 = none then some sig else none) none
  (registerUses idx flattened s, sig, looked.2)

theorem internApp_eq (hterm : s.termToNode term = none) : s.internApp term func args =
    match s.addApp term func args with
    | (t, _, some existing) => (t.mergeCongruent s.nodes.length existing, s.nodes.length)
    | (t, sig, none) =>
      ({ t with sigs := t.sigs.insertSignature t.inScope sig s.nodes.length (fingerprint sig) },
        s.nodes.length) := by
  unfold internApp addApp
  rw [hterm]
  dsimp only
  split
  · next existing hfound =>
    rw [hfound]
  · next hnone =>
    rw [hnone]

theorem addApp_lookup (h : Fits C s) :
    (s.addApp term func args).2.2 = s.sigs.sigTable (s.addApp term func args).2.1 ∧
      (s.addApp term func args).1.sigs = s.sigs.addNode s.nodes.length
        (if (s.addApp term func args).2.2 = none then some (s.addApp term func args).2.1 else none) := by
  have hlooked := @Signatures.WF.lookupValidSig _ (s.addApp term func args).2.1 h.sigs.wf
  refine ⟨congrArg Prod.snd hlooked, (congrArg EufSolver.sigs registerUses_eq).trans ?_⟩
  exact congrArg (fun sigs : Signatures => sigs.addNode s.nodes.length _) (congrArg Prod.fst hlooked)

theorem Fits.addApp (h : Fits C s) {sigs : Signatures} (hsigs : Keyed (s.nodes.length + 1) sigs)
    (hextends : s.inScope → ∀ n ≤ s.nodes.length, s.sigs.Extends n sigs) :
    Fits C { (s.addApp term func args).1 with sigs := sigs } ∧
      Follows s { (s.addApp term func args).1 with sigs := sigs } ∧
      (s.addApp term func args).1.nodes.length = s.nodes.length + 1 ∧
      (s.addApp term func args).1.pending = s.pending ∧
      (s.addApp term func args).1.inScope = s.inScope := by
  unfold EufSolver.addApp
  dsimp only
  rw [h.sigs.wf.lookupValidSig]
  dsimp only
  set flattened := s.flattenArgs func args
  set canon := canonicalizeArgs (s.getFunctionProps func) flattened s.uf with hcanon
  have huf : Agrees s.nodes.length s.uf canon.1 := h.uf.canonicalizeArgs
  obtain ⟨hskip, hskipped⟩ := h.skip huf h.pending
  set t : EufSolver := { s with uf := canon.1, pending := s.pending } with ht
  set t' := t.addNode ⟨func, flattened, term⟩ (if s.sigs.sigTable (func, canon.2) = none then
    some (func, canon.2) else none) none with ht'
  have huses : Agrees (s.nodes.length + 1) t'.uf (registerUses s.nodes.length flattened t').uf :=
    registerUses_uf hskip.uf.add
  have happended : Follows t t' := follows_addNode hskip
  have hfits : Fits C { t' with
      uf := (registerUses s.nodes.length flattened t').uf
      sigs := sigs
      useList := (registerUses s.nodes.length flattened t').useList } :=
    hskip.addNode (fun v hv => by cases hv) huses hsigs
  have hfollows : Follows s { t' with
      uf := (registerUses s.nodes.length flattened t').uf
      sigs := sigs
      useList := (registerUses s.nodes.length flattened t').useList } :=
    { hskipped.trans happended with
      trailLimits := huses.trailLimits.trans (hskipped.trans happended).trailLimits
      uf := fun hs => ((hskipped.trans happended).uf hs).trans (huses.extends_ (hskip.inScope ▸ hs))
      sigs := hextends }
  have hregister : registerUses s.nodes.length flattened t' = { t' with
      uf := (registerUses s.nodes.length flattened t').uf
      useList := (registerUses s.nodes.length flattened t').useList } := registerUses_eq
  refine ⟨?_, ?_, ?_, ?_, ?_⟩
  · exact hregister ▸ hfits
  · exact hregister ▸ hfollows
  · rw [hregister]
    simp [t', t, EufSolver.addNode]
  · rw [hregister]
    rfl
  · rw [hregister]
    rfl

def MergeUnions (C : EufSolver → ℕ → ℕ → Prop) (s : EufSolver) (e : ℕ × ℕ × MergeReason) : Prop :=
  Unions C s.nodes.length { s with explCache := [], pending := e :: s.pending }

def InternUnions (C : EufSolver → ℕ → ℕ → Prop) (s : EufSolver) (term func : ℕ) (args : List ℕ) : Prop :=
  s.termToNode term = none → ∀ existing, (s.addApp term func args).2.2 = some existing →
    MergeUnions C (s.addApp term func args).1
      (s.nodes.length, existing, .congruence s.nodes.length existing)

theorem Fits.mergePending {e : ℕ × ℕ × MergeReason} (h : Fits C s)
    (he : e.1 < s.nodes.length ∧ e.2.1 < s.nodes.length) (hC : MergeUnions C s e) :
    let t := { s with explCache := [], pending := e :: s.pending }.propagate
    Fits C t ∧ Follows s t ∧ t.pending = [] := by
  obtain ⟨hfits, hfollows, hdone⟩ := (h.enqueue he).propagate hC
  exact ⟨hfits, follows_enqueue.trans hfollows, hdone⟩

theorem Fits.internApp (h : Fits C s) (hpending : s.pending = []) (hC : InternUnions C s term func args) : Fits C
    (s.internApp term func args).1 ∧ Follows s (s.internApp term func args).1 ∧ (s.internApp term func args).1.pending =
    [] := by
  cases hterm : s.termToNode term with
  | some idx =>
    unfold EufSolver.internApp
    rw [hterm]
    exact ⟨h, .refl s, hpending⟩
  | none =>
    obtain ⟨hlooked, hsigs⟩ := @addApp_lookup C s term func args h
    have hmeets := hC hterm
    rw [internApp_eq hterm]
    have hadd (sigs : Signatures) (hkeyed : Keyed (s.nodes.length + 1) sigs)
        (hextends : s.inScope → ∀ n ≤ s.nodes.length, s.sigs.Extends n sigs) :=
      @Fits.addApp C s term func args h sigs hkeyed hextends
    rcases happ : s.addApp term func args with ⟨t, sig, found⟩
    rw [happ] at hlooked hsigs hmeets hadd
    dsimp only at hlooked hsigs hmeets hadd
    cases found with
    | none =>
      rw [if_pos rfl] at hsigs
      have hfree : s.sigs.sigTable sig = none := hlooked.symm
      have hkey := h.sigs.out s.nodes.length le_rfl
      have hkeyed : Keyed (s.nodes.length + 1)
        (t.sigs.insertSignature t.inScope sig s.nodes.length (fingerprint sig)) := by
        rw [hsigs]
        refine ⟨h.sigs.wf.insertSignature hfree hkey, fun i hi => ?_⟩
        show update s.sigs.nodeSigKey s.nodes.length (some sig) i = none
        rw [update_of_ne (by omega)]
        exact h.sigs.out i (by omega)
      obtain ⟨hfits, hfollows, -, hsame, -⟩ := hadd _ hkeyed fun hs n hn => by
        have hscope : t.inScope = s.inScope := (hadd s.sigs ⟨h.sigs.wf, fun i hi => h.sigs.out i (by omega)⟩
          fun _ _ _ => .refl).2.2.2.2
        rw [hsigs, hscope, hs]
        exact (Signatures.extends_addNode hn).trans (Signatures.extends_insertSignature hn hfree)
      exact ⟨hfits, hfollows, hsame.trans hpending⟩
    | some existing =>
      have hkeyed : Keyed (s.nodes.length + 1) s.sigs := ⟨h.sigs.wf, fun i hi => h.sigs.out i (by omega)⟩
      have hexisting : existing < s.nodes.length := h.sigs.lt hlooked.symm
      rw [if_neg (by simp), Signatures.addNode_none (h.sigs.out s.nodes.length le_rfl)] at hsigs
      obtain ⟨hfits, hfollows, hlen, -, -⟩ := hadd s.sigs hkeyed fun _ _ _ => .refl
      rw [← hsigs] at hfits hfollows
      have hlive : s.nodes.length < t.nodes.length ∧ existing < t.nodes.length := by omega
      obtain ⟨hmerged, hrest, hdone⟩ := hfits.mergePending hlive (hmeets existing rfl)
      exact ⟨hmerged, hfollows.trans hrest, hdone⟩

theorem Fits.find (h : Fits C s) : Fits C (s.find a).1 ∧ Follows s (s.find a).1 := h.skip h.uf.find h.pending

theorem tryExplainEquality_fst : ∃ cache, (s.tryExplainEquality a b).1 = { s with explCache := cache } := by
  unfold tryExplainEquality cacheGet
  dsimp only
  split
  · exact ⟨_, rfl⟩
  · split
    · exact ⟨_, rfl⟩
    · split
      · cases s.explCache.lookup (orderedPair a b) with
        | some reasons => exact ⟨_, rfl⟩
        | none =>
          dsimp only
          split
          · exact ⟨_, rfl⟩
          · exact ⟨_, rfl⟩
      · exact ⟨_, rfl⟩

theorem checkConflicts_fst : ∃ cache, s.checkConflicts.1 = { s with explCache := cache } := by
  have hexplain (a b : ℕ) := @tryExplainEquality_fst s a b
  unfold checkConflicts
  split
  · split
    · exact ⟨_, rfl⟩
    · next wa wb _ =>
      have hwitness := hexplain wa wb
      split
      · next heq => rwa [heq] at hwitness
      · next heq => rwa [heq] at hwitness
  · split
    · exact ⟨_, rfl⟩
    · exact hexplain _ _

theorem Fits.withCache {cache : List ((ℕ × ℕ) × List ℕ)} (h : Fits C s) :
    Fits C { s with explCache := cache } ∧ Follows s { s with explCache := cache } :=
  ⟨{ h with }, { Follows.refl s with }⟩

end

end EufSolver

end Nixie.Euf
