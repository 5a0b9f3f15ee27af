import Nixie.Euf.Merge

/-!
Propagation does all pending merges. What every single merge keeps holds after it.
-/

namespace Nixie.Euf

open Congruence UnionFind List Finset

variable {uf : UnionFind} {n : ℕ} {pending : List (ℕ × ℕ × MergeReason)}

theorem nextMerge_none (h : uf.WF n) (hnext : (nextMerge pending uf).2 = none) : Agrees n uf (nextMerge pending uf).1 ∧
    ∀ e ∈ pending, uf.findNoCompress e.1 = uf.findNoCompress e.2.1 := by
  induction pending generalizing uf with
  | nil => exact ⟨.refl h, by simp⟩
  | cons e pending ih =>
    obtain ⟨a, b, reason⟩ := e
    have hagrees := h.same (x := a) (y := b)
    unfold nextMerge at hnext ⊢
    simp only [h.same_snd, sameNoCompress, decide_eq_true_eq] at hnext ⊢
    split at hnext
    · next heq =>
      rw [if_pos heq]
      obtain ⟨hrest, hall⟩ := ih hagrees.wf hnext
      rw [hagrees.root] at hall
      exact ⟨hagrees.trans hrest, forall_mem_cons.mpr ⟨heq, hall⟩⟩
    · cases hnext

theorem nextMerge_some {a b : ℕ} {reason : MergeReason} {rest : List (ℕ × ℕ × MergeReason)} (h : uf.WF n)
    (hnext : (nextMerge pending uf).2 = some ((a, b, reason), rest)) :
    Agrees n uf (nextMerge pending uf).1 ∧ uf.findNoCompress a ≠ uf.findNoCompress b ∧
    ∃ skipped, pending = skipped ++ (a, b, reason) :: rest ∧ ∀ e ∈ skipped, uf.findNoCompress e.1 =
    uf.findNoCompress e.2.1 := by
  induction pending generalizing uf with
  | nil => cases hnext
  | cons e pending ih =>
    obtain ⟨a', b', reason'⟩ := e
    have hagrees := h.same (x := a') (y := b')
    unfold nextMerge at hnext ⊢
    simp only [h.same_snd, sameNoCompress, decide_eq_true_eq] at hnext ⊢
    split at hnext
    · next heq =>
      rw [if_pos heq]
      obtain ⟨hrest, hne, skipped, hskipped, hall⟩ := ih hagrees.wf hnext
      rw [hagrees.root] at hne hall
      exact ⟨hagrees.trans hrest, hne, (a', b', reason') :: skipped, by rw [hskipped]; rfl,
        forall_mem_cons.mpr ⟨heq, hall⟩⟩
    · next hne =>
      rw [if_neg hne]
      cases hnext
      exact ⟨hagrees, hne, [], rfl, by simp⟩

namespace EufSolver

structure Sound (props : ℕ → FunctionProperties) (s : EufSolver) : Prop where
  uf : s.uf.WF s.nodes.length
  functions : ∀ node ∈ s.nodes, node.isApp → s.getFunctionProps node.func = props node.func
  table : Tabulates props s.nodes s.root s.sigs
  pending : ∀ e ∈ s.pending, e.1 < s.nodes.length ∧ e.2.1 < s.nodes.length

def numClasses (s : EufSolver) : ℕ :=
  ((Finset.range s.nodes.length).filter fun x => s.root x = x).card

variable {props : ℕ → FunctionProperties} {s s' : EufSolver} {a b newRoot otherRoot : ℕ}
  {reason : MergeReason} {rest : List (ℕ × ℕ × MergeReason)}

theorem Justified.lt {nodes : List ENode} {R : ℕ → ℕ → Prop} {e : ℕ × ℕ × MergeReason}
    (h : Justified (terms props nodes) R [] e) : e.1 < nodes.length ∧ e.2.1 < nodes.length := by
  obtain ⟨x, y, reason⟩ := e
  cases reason with
  | assertion reason => exact absurd h List.not_mem_nil
  | congruence term1 term2 =>
    obtain ⟨-, -, f, xs, ys, hx, hy, -⟩ := h
    obtain ⟨node, hnode, -⟩ := terms_app.mp hx
    obtain ⟨node', hnode', -⟩ := terms_app.mp hy
    exact ⟨(List.getElem?_eq_some_iff.mp hnode).1, (List.getElem?_eq_some_iff.mp hnode').1⟩

section

variable (h : Sound props s)
include h

theorem Sound.skip {uf : UnionFind} (huf : Agrees s.nodes.length s.uf uf) (hrest : ∀ e ∈ rest, e ∈ s.pending) :
    Sound props { s with uf := uf, pending := rest } :=
  ⟨huf.wf, h.functions, by rw [root, huf.root]; exact h.table, fun e he => h.pending e (hrest e he)⟩

theorem Sound.merged (hmerged : Merged props s s' a b reason newRoot otherRoot) : Sound props s' := by
  refine ⟨hmerged.nodes ▸ hmerged.wf, ?_, hmerged.nodes ▸ hmerged.table, fun e he => ?_⟩
  · unfold getFunctionProps
    rw [hmerged.nodes, hmerged.functionProperties]
    exact h.functions
  · rw [hmerged.nodes]
    rcases hmerged.justified e he with he | he
    · exact h.pending e he
    · exact Justified.lt he

theorem Sound.applyMerge (hpending : s.pending = (a, b, reason) :: rest) (hne : s.root a ≠ s.root b) :
    ∃ newRoot otherRoot, Merged props { s with pending := rest }
    (applyMerge { s with pending := rest } a b reason) a b reason newRoot otherRoot := by
  have hlt := h.pending (a, b, reason) (by simp [hpending])
  exact applyMerge_spec h.uf hlt.1 hlt.2 hne h.functions h.table

theorem Sound.root_of_merged (hmerged : Merged props s s' a b reason newRoot otherRoot) (ha : a < s.nodes.length)
    (hb : b < s.nodes.length) {r : ℕ} (hr : r = newRoot ∨ r = otherRoot) : s.root r = r ∧ r < s.nodes.length := by
  rcases (hmerged.roots r).mpr hr with rfl | rfl
  · exact ⟨h.uf.root_root, h.uf.root_lt ha⟩
  · exact ⟨h.uf.root_root, h.uf.root_lt hb⟩

end

theorem numClasses_lt (hlen : s'.nodes = s.nodes) (hne : newRoot ≠ otherRoot)
    (hroot : ∀ x, s'.root x = if s.root x = otherRoot then newRoot else s.root x)
    (hnew : s.root newRoot = newRoot) (hother : s.root otherRoot = otherRoot ∧ otherRoot < s.nodes.length) :
    s'.numClasses < s.numClasses := by
  unfold numClasses
  rw [hlen]
  apply Finset.card_lt_card
  refine Finset.ssubset_iff_of_subset ?_ |>.mpr ⟨otherRoot, ?_, ?_⟩
  · intro x hx
    simp only [Finset.mem_filter, hroot] at hx ⊢
    refine ⟨hx.1, ?_⟩
    by_cases hxo : s.root x = otherRoot
    · rw [if_pos hxo] at hx
      rw [← hx.2]
      exact hnew
    · rw [if_neg hxo] at hx
      exact hx.2
  · simp [hother]
  · simp only [Finset.mem_filter, hroot, hother.1, ↓reduceIte, not_and]
    exact fun _ => hne

theorem Sound.numClasses_lt (h : Sound props s) (hmerged : Merged props s s' a b reason newRoot otherRoot)
    (ha : a < s.nodes.length) (hb : b < s.nodes.length) : s'.numClasses < s.numClasses :=
  EufSolver.numClasses_lt hmerged.nodes hmerged.ne hmerged.root (h.root_of_merged hmerged ha hb (.inl rfl)).1
    (h.root_of_merged hmerged ha hb (.inr rfl))

theorem numClasses_pos (huf : s.uf.WF s.nodes.length) (hn : 0 < s.nodes.length) : 0 < s.numClasses := by
  apply card_pos.mpr
  exact ⟨s.root 0, by simp [huf.root_lt hn, huf.root_root]⟩

theorem propagateLoop_induct {P : EufSolver → Prop}
    (hskip : ∀ s uf skipped rest, Sound props s → P s → s.pending = skipped ++ rest →
    (∀ e ∈ skipped, s.root e.1 = s.root e.2.1) → Agrees s.nodes.length s.uf uf →
    P { s with uf := uf, pending := rest }) (hmerge : ∀ s s' a b reason rest newRoot otherRoot, Sound props s → P s →
    s.pending = (a, b, reason) :: rest → Merged props { s with pending := rest } s' a b reason newRoot otherRoot →
    P s') {fuel : ℕ} (hsound : Sound props s) (hP : P s) (hfuel : s.numClasses ≤ fuel) :
    Sound props (s.propagateLoop fuel) ∧ P (s.propagateLoop fuel) ∧ (s.propagateLoop fuel).pending = [] := by
  induction fuel generalizing s with
  | zero =>
    have hn : s.nodes.length = 0 := by
      by_contra hn
      have := numClasses_pos hsound.uf (Nat.pos_of_ne_zero hn)
      omega
    refine ⟨hsound, hP, eq_nil_iff_forall_not_mem.mpr fun e he => ?_⟩
    have := (hsound.pending e he).1
    omega
  | succ fuel ih =>
    unfold propagateLoop
    split
    · next uf hnext =>
      obtain ⟨huf, hall⟩ := nextMerge_none hsound.uf (by rw [hnext])
      rw [hnext] at huf
      exact ⟨hsound.skip huf (by simp), hskip s uf s.pending [] hsound hP (by simp) hall huf, rfl⟩
    · next uf a b reason rest hnext =>
      obtain ⟨huf, hne, skipped, hpending, hall⟩ := nextMerge_some hsound.uf (by rw [hnext])
      rw [hnext] at huf
      set t : EufSolver := { s with uf := uf, pending := (a, b, reason) :: rest } with ht
      have htsound : Sound props t := hsound.skip huf fun e he => by
        rw [hpending]
        exact mem_append_right _ he
      have htP : P t := hskip s uf skipped _ hsound hP hpending hall huf
      have htne : t.root a ≠ t.root b := by
        rw [root, huf.root]
        exact hne
      obtain ⟨newRoot, otherRoot, hmerged⟩ := htsound.applyMerge rfl htne
      have hlt := htsound.pending (a, b, reason) (by simp [ht])
      have hrest : Sound props { t with pending := rest } :=
        htsound.skip (.refl htsound.uf) fun e he => mem_cons_of_mem _ he
      have hcount : numClasses { t with pending := rest } = s.numClasses := by
        have hroot : t.root = s.root := huf.root
        change ((Finset.range s.nodes.length).filter fun x => t.root x = x).card = _
        rw [hroot, numClasses]
      have hless := hrest.numClasses_lt hmerged hlt.1 hlt.2
      rw [hcount] at hless
      exact ih (hrest.merged hmerged)
        (hmerge t _ a b reason rest newRoot otherRoot htsound htP rfl hmerged)
        (Nat.le_of_lt_succ (hless.trans_le hfuel))

theorem propagate_induct {P : EufSolver → Prop}
    (hskip : ∀ s uf skipped rest, Sound props s → P s → s.pending = skipped ++ rest →
    (∀ e ∈ skipped, s.root e.1 = s.root e.2.1) → Agrees s.nodes.length s.uf uf →
    P { s with uf := uf, pending := rest }) (hmerge : ∀ s s' a b reason rest newRoot otherRoot, Sound props s → P s →
    s.pending = (a, b, reason) :: rest → Merged props { s with pending := rest } s' a b reason newRoot otherRoot →
    P s') (hsound : Sound props s) (hP : P s) : Sound props s.propagate ∧ P s.propagate ∧
    s.propagate.pending = [] := by
  refine propagateLoop_induct hskip hmerge hsound hP ?_
  exact (card_filter_le _ _).trans (card_range _).le

end EufSolver

section

variable {root root' : ℕ → ℕ} {skipped rest : List (ℕ × ℕ × MergeReason)} {x y a b : ℕ}
  {reason : MergeReason}

theorem Linked.skip (hskipped : ∀ e ∈ skipped, root e.1 = root e.2.1)
    (h : Linked root (skipped ++ rest) x y) : Linked root rest x y := by
  refine h.imp linked_equivalence (fun _ _ => .of_root) fun x y reason hmem => ?_
  rcases mem_append.mp hmem with hmem | hmem
  · exact .of_root (hskipped _ hmem)
  · exact .of_mem hmem

theorem Linked.merge (hroot : ∀ x y, root x = root y → root' x = root' y) (hab : root' a = root' b)
    (h : Linked root ((a, b, reason) :: rest) x y) : Linked root' rest x y := by
  refine h.imp linked_equivalence (fun x y hxy => .of_root (hroot x y hxy)) fun x y reason hmem => ?_
  rcases mem_cons.mp hmem with heq | hmem
  · cases heq
    exact .of_root hab
  · exact .of_mem hmem

end

theorem Justified.mono {T : Terms ℕ ℕ} {R R' : ℕ → ℕ → Prop} {eqs eqs' : List (ℕ × ℕ × ℕ)} {e : ℕ × ℕ × MergeReason}
    (hR : ∀ x y, R x y → R' x y) (heqs : ∀ e ∈ eqs, e ∈ eqs') (h : Justified T R eqs e) : Justified T R' eqs' e := by
  obtain ⟨x, y, reason⟩ := e
  cases reason with
  | assertion reason => exact heqs _ h
  | congruence term1 term2 =>
    obtain ⟨hx, hy, f, xs, ys, happ, happ', hmatch⟩ := h
    exact ⟨hx, hy, f, xs, ys, happ, happ', hmatch.mono hR⟩

namespace EufSolver

/-- Every application is on the use lists of its arguments and published under its signature;
the equations hold and the pending merges are due. -/
structure Closed (props : ℕ → FunctionProperties) (eqs : List (ℕ × ℕ × ℕ)) (s : EufSolver) :
    Prop where
  uses : ∀ u node, s.nodes[u]? = some node → node.isApp → ∀ x ∈ node.args,
    u ∈ s.useList.lists (s.root x)
  published : ∀ u, Published props s.nodes s.root s.pending s.sigs u
  holds : ∀ x y reason, (x, y, reason) ∈ eqs → Linked s.root s.pending x y
  justified : ∀ e ∈ s.pending, Justified (terms props s.nodes) (fun x y => s.root x = s.root y) eqs e

variable {props : ℕ → FunctionProperties} {eqs : List (ℕ × ℕ × ℕ)} {s s' : EufSolver}
  {a b newRoot otherRoot : ℕ} {reason : MergeReason} {skipped rest : List (ℕ × ℕ × MergeReason)}

theorem Closed.skip (h : Closed props eqs s) {uf : UnionFind} (hpending : s.pending = skipped ++ rest)
    (hskipped : ∀ e ∈ skipped, s.root e.1 = s.root e.2.1)
    (huf : uf.findNoCompress = s.root) : Closed props eqs { s with uf := uf, pending := rest } := by
  refine ⟨?_, fun u node hnode happ => ?_, fun x y reason hmem => ?_, fun e he => ?_⟩
  · simp only [root, huf]
    exact h.uses
  · obtain ⟨v, hv, hlinked⟩ := h.published u node hnode happ
    rw [hpending] at hlinked
    simp only [root, huf]
    exact ⟨v, hv, hlinked.skip hskipped⟩
  · have hlinked := h.holds x y reason hmem
    rw [hpending] at hlinked
    simp only [root, huf]
    exact hlinked.skip hskipped
  · simp only [root, huf]
    exact h.justified e (hpending ▸ mem_append_right _ he)

section

variable (hmerged : Merged props { s with pending := rest } s' a b reason newRoot otherRoot)

include hmerged

theorem Merged.root_apply (x : ℕ) :
    s'.root x = if s.root x = otherRoot then newRoot else s.root x := hmerged.root x

theorem Merged.coarsen (x y : ℕ) (hxy : s.root x = s.root y) : s'.root x = s'.root y := by
  rw [hmerged.root_apply, hmerged.root_apply, hxy]

theorem Merged.root_eq : s'.root a = s'.root b := by
  have ha : s.root a = newRoot ∨ s.root a = otherRoot := (hmerged.roots _).mp (.inl rfl)
  have hb : s.root b = newRoot ∨ s.root b = otherRoot := (hmerged.roots _).mp (.inr rfl)
  rw [hmerged.root_apply, hmerged.root_apply]
  grind

theorem Merged.canon_eq {node : ENode} (hargs : ∀ x ∈ node.args, s.root x ≠ otherRoot) :
    canon props s'.root node.signature = canon props s.root node.signature := by
  have hmap : node.signature.2.map s'.root = node.signature.2.map s.root := by
    refine map_congr_left fun x hx => ?_
    rw [hmerged.root_apply, if_neg (hargs x hx)]
  simp only [canon, hmap]

theorem Closed.merged (h : Closed props eqs s) (hpending : s.pending = (a, b, reason) :: rest) :
    Closed props eqs s' := by
  have hcoarsen := hmerged.coarsen
  refine ⟨fun u node hnode happ x hx => ?_, fun u => ?_, fun x y r hmem => ?_, fun e he => ?_⟩
  · rw [hmerged.nodes] at hnode
    have huses := h.uses u node hnode happ x hx
    rw [hmerged.root_apply, hmerged.uses]
    split
    · next heq =>
      rw [if_pos rfl]
      exact mem_append_right _ (heq ▸ huses)
    · split
      · next heq => exact mem_append_left _ (heq ▸ huses)
      · exact huses
  · rw [hmerged.nodes]
    refine hmerged.published u ?_
    by_cases huser : u ∈ s.useList.lists otherRoot
    · exact .inl huser
    · right
      intro node hnode happ
      obtain ⟨v, hv, hlinked⟩ := h.published u node hnode happ
      rw [hpending] at hlinked
      have hargs : ∀ x ∈ node.args, s.root x ≠ otherRoot := by
        intro x hx heq
        exact huser (heq ▸ h.uses u node hnode happ x hx)
      rw [hmerged.canon_eq hargs]
      exact ⟨v, hv, hlinked.merge hcoarsen hmerged.root_eq⟩
  · have hlinked := h.holds x y r hmem
    rw [hpending] at hlinked
    exact (hlinked.merge hcoarsen hmerged.root_eq).mono hmerged.pending
  · rw [hmerged.nodes]
    rcases hmerged.justified e he with he | he
    · refine (h.justified e ?_).mono hcoarsen fun _ h => h
      rw [hpending]
      exact mem_cons_of_mem _ he
    · exact he.mono (fun _ _ h => h) (by simp)

end

theorem Closed.isCongruence (h : Closed props eqs s) (hpending : s.pending = []) :
    (terms props s.nodes).IsCongruence fun x y => s.root x = s.root y where
  equivalence := ⟨fun _ => rfl, Eq.symm, Eq.trans⟩
  congr := by
    intro u v f xs ys hu hv hmatch
    obtain ⟨node, hnode, happ, hsig⟩ := terms_app.mp hu
    obtain ⟨node', hnode', happ', hsig'⟩ := terms_app.mp hv
    have hcanon : canon props s.root node.signature = canon props s.root node'.signature := by
      rw [hsig, hsig', canon_eq_iff]
      exact ⟨rfl, hmatch⟩
    obtain ⟨w, hw, hlinked⟩ := h.published u node hnode happ
    obtain ⟨w', hw', hlinked'⟩ := h.published v node' hnode' happ'
    rw [hcanon, hw'] at hw
    cases hw
    rw [hpending, linked_nil] at hlinked hlinked'
    exact hlinked.trans hlinked'.symm

end EufSolver

end Nixie.Euf
