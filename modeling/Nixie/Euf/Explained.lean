import Nixie.Euf.Explain
import Nixie.Euf.Invariant

/-!
Explanations are complete: the reasons that are collected make the nodes equal by themselves.
-/

namespace Nixie.Euf

open Congruence UnionFind List

theorem takePartner_isSome {partner : ℕ → Bool} {args : List ℕ} (h : ∃ arg ∈ args, partner arg) : ∃ arg rest,
    takePartner partner args = some (arg, rest) ∧ partner arg ∧ (arg :: rest).Perm args := by
  induction args with
  | nil => simp at h
  | cons x args ih =>
    unfold takePartner
    split
    · next hx => exact ⟨x, args, rfl, hx, .rfl⟩
    · next hx =>
      obtain ⟨arg, harg, hpartner⟩ := h
      rcases mem_cons.mp harg with rfl | harg
      · exact absurd hpartner hx
      · obtain ⟨arg, rest, htake, hpartner, hperm⟩ := ih ⟨arg, harg, hpartner⟩
        refine ⟨arg, x :: rest, by rw [htake]; rfl, hpartner, ?_⟩
        exact (List.Perm.swap x arg rest).trans (hperm.cons x)

def Explanation.Scheduled (e : Explanation) (x y : ℕ) : Prop :=
  x = y ∨ orderedPair x y ∈ e.enqueued

structure Explanation.Grew (e e' : Explanation) : Prop where
  enqueued : ∀ p ∈ e.enqueued, p ∈ e'.enqueued
  reasons : ∀ r ∈ e.reasons, r ∈ e'.reasons
  balance : e'.todo.length + e.enqueued.length = e.todo.length + e'.enqueued.length

namespace Explanation

variable {e e' e'' : Explanation} {x y : ℕ}

theorem Grew.refl (e : Explanation) : Grew e e := ⟨fun _ => id, fun _ => id, rfl⟩

theorem Grew.trans (h : Grew e e') (h' : Grew e' e'') : Grew e e'' := by
  have hbalance := h.balance
  have hbalance' := h'.balance
  exact ⟨fun p hp => h'.enqueued p (h.enqueued p hp), fun r hr => h'.reasons r (h.reasons r hr), by omega⟩

theorem mem_addReason (e : Explanation) (reason : ℕ) : reason = 0 ∨ reason ∈ (e.addReason reason).reasons := by
  unfold addReason
  split
  · simp
  · grind

theorem Scheduled.mono (hgrew : Grew e e') (h : e.Scheduled x y) : e'.Scheduled x y := h.imp_right (hgrew.enqueued _)

end Explanation

namespace EufSolver

open Explanation

structure Pairs (s : EufSolver) (eqs : List (ℕ × ℕ × ℕ)) (used : ℕ × ℕ × MergeReason → Prop)
    (e : Explanation) : Prop where
  asserted : ∀ reason ∈ e.reasons, ∃ x y, (x, y, reason) ∈ eqs
  nodup : e.enqueued.Nodup
  range : ∀ p ∈ e.enqueued, p.1 < s.nodes.length ∧ p.2 < s.nodes.length
  todo : ∀ p ∈ e.todo, p.1 < s.nodes.length ∧ p.2 < s.nodes.length ∧ s.root p.1 = s.root p.2
  done : ∀ p ∈ e.enqueued, Conn used p.1 p.2 ∨ ∃ q ∈ e.todo, orderedPair q.1 q.2 = p

variable {props : ℕ → FunctionProperties} {A : Asserted} {s : EufSolver} {e e' : Explanation}
  {eqs : List (ℕ × ℕ × ℕ)}  {used : ℕ × ℕ × MergeReason →
    Prop} {log : List (ℕ × ℕ × MergeReason)} {x y : ℕ} {xs ys : List ℕ}

theorem Pairs.schedule (h : Pairs s eqs used e) (hx : x < s.nodes.length) (hy : y < s.nodes.length)
    (hroot : s.root x = s.root y) : Pairs s eqs used (e.schedule s.nodes.length x y) ∧
    Grew e (e.schedule s.nodes.length x y) ∧ (e.schedule s.nodes.length x y).Scheduled x y := by
  unfold Explanation.schedule
  split
  · next hnew =>
    obtain ⟨-, -, -, hnew⟩ := hnew
    refine ⟨⟨h.asserted, nodup_cons.mpr ⟨hnew, h.nodup⟩, ?_, ?_, ?_⟩, ⟨?_, fun _ => id, ?_⟩, ?_⟩
    · refine forall_mem_cons.mpr ⟨?_, h.range⟩
      rcases orderedPair_cases x y with hpair | hpair
      · rw [hpair]
        exact ⟨hx, hy⟩
      · rw [hpair]
        exact ⟨hy, hx⟩
    · exact forall_mem_cons.mpr ⟨⟨hx, hy, hroot⟩, h.todo⟩
    · refine forall_mem_cons.mpr ⟨.inr ⟨(x, y), mem_cons_self, rfl⟩, fun p hp => ?_⟩
      refine (h.done p hp).imp_right ?_
      rintro ⟨q, hq, hpair⟩
      exact ⟨q, mem_cons_of_mem _ hq, hpair⟩
    · exact fun p hp => mem_cons_of_mem _ hp
    · simp only [length_cons]
      omega
    · exact .inr mem_cons_self
  · next hold =>
    refine ⟨h, .refl e, ?_⟩
    by_cases hxy : x = y
    · exact .inl hxy
    · right
      by_contra hmem
      exact hold ⟨hxy, hx, hy, hmem⟩

theorem sameNoCompress_iff : s.uf.sameNoCompress x y ↔ s.root x = s.root y := by
  simp [sameNoCompress]

theorem Pairs.schedule_forall₂ (h : Pairs s eqs used e) (hroot : List.Forall₂ (fun x y => s.root x = s.root y) xs ys)
    (hxs : ∀ x ∈ xs, x < s.nodes.length) (hys : ∀ y ∈ ys, y < s.nodes.length) :
    ∃ e', e.scheduleCongruenceSubgoals s.uf s.nodes.length xs ys = some e' ∧ Pairs s eqs used e' ∧ Grew e e' ∧
    List.Forall₂ e'.Scheduled xs ys := by
  induction hroot generalizing e with
  | nil => exact ⟨e, rfl, h, .refl e, .nil⟩
  | @cons x y xs ys hxy _ ih =>
    obtain ⟨hx, hxs⟩ := forall_mem_cons.mp hxs
    obtain ⟨hy, hys⟩ := forall_mem_cons.mp hys
    obtain ⟨hpairs, hgrew, hscheduled⟩ := h.schedule hx hy hxy
    obtain ⟨e', he', hpairs', hgrew', hrest⟩ := ih hpairs hxs hys
    refine ⟨e', ?_, hpairs', hgrew.trans hgrew', .cons (hscheduled.mono hgrew') hrest⟩
    unfold Explanation.scheduleCongruenceSubgoals
    have htake : takePartner (fun arg2 => arg2 = x ∨ s.uf.sameNoCompress x arg2) (y :: ys) =
        some (y, ys) := by
      rw [takePartner, if_pos]
      simp [sameNoCompress_iff, hxy]
    rw [htake]
    exact he'

theorem Pairs.schedule_perm (h : Pairs s eqs used e) (hroot : (xs.map s.root).Perm (ys.map s.root))
    (hxs : ∀ x ∈ xs, x < s.nodes.length) (hys : ∀ y ∈ ys, y < s.nodes.length) :
    ∃ e', e.scheduleCongruenceSubgoals s.uf s.nodes.length xs ys = some e' ∧ Pairs s eqs used e' ∧ Grew e e' ∧
    ∃ zs, zs.Perm ys ∧ List.Forall₂ e'.Scheduled xs zs := by
  induction xs generalizing e ys with
  | nil =>
    have hnil : ys = [] := by
      rw [← map_eq_nil_iff (f := s.root)]
      exact perm_nil.mp hroot.symm
    subst hnil
    exact ⟨e, rfl, h, .refl e, [], .rfl, .nil⟩
  | cons x xs ih =>
    obtain ⟨hx, hxs⟩ := forall_mem_cons.mp hxs
    have hpartner : ∃ y ∈ ys, decide (y = x ∨ s.uf.sameNoCompress x y) := by
      have hmem : s.root x ∈ ys.map s.root := hroot.mem_iff.mp mem_cons_self
      obtain ⟨y, hy, hxy⟩ := mem_map.mp hmem
      refine ⟨y, hy, ?_⟩
      simp [sameNoCompress_iff, hxy]
    obtain ⟨y, rest, htake, hxy, hperm⟩ := takePartner_isSome hpartner
    have hxy : s.root x = s.root y := by
      rcases of_decide_eq_true hxy with rfl | hxy
      · rfl
      · exact sameNoCompress_iff.mp hxy
    have hy : y < s.nodes.length := hys y (hperm.mem_iff.mp mem_cons_self)
    have hrest : ∀ z ∈ rest, z < s.nodes.length :=
      fun z hz => hys z (hperm.mem_iff.mp (mem_cons_of_mem _ hz))
    have hroot' : (xs.map s.root).Perm (rest.map s.root) := by
      have hmap := hroot.trans (hperm.map s.root).symm
      rw [map_cons, map_cons, hxy] at hmap
      exact hmap.cons_inv
    obtain ⟨hpairs, hgrew, hscheduled⟩ := h.schedule hx hy hxy
    obtain ⟨e', he', hpairs', hgrew', zs, hzs, hrest⟩ := ih hpairs hroot' hxs hrest
    refine ⟨e', ?_, hpairs', hgrew.trans hgrew', y :: zs, (hzs.cons y).trans hperm,
      .cons (hscheduled.mono hgrew') hrest⟩
    unfold Explanation.scheduleCongruenceSubgoals
    rw [htake]
    exact he'

theorem Pairs.schedule_matches {c : Prop} (h : Pairs s eqs used e)
    (hroot : Matches c (fun x y => s.root x = s.root y) xs ys) (hxs : ∀ x ∈ xs, x < s.nodes.length)
    (hys : ∀ y ∈ ys, y < s.nodes.length) : ∃ e', e.scheduleCongruenceSubgoals s.uf s.nodes.length xs ys = some e' ∧
    Pairs s eqs used e' ∧ Grew e e' ∧ Matches c e'.Scheduled xs ys := by
  rcases matches_map.mp hroot with hmap | ⟨hc, hperm⟩
  · have hforall : List.Forall₂ (fun x y => s.root x = s.root y) xs ys := by
      rw [← forall₂_map_left_iff (R := fun x y => x = s.root y), ← forall₂_map_right_iff, forall₂_eq_eq_eq]
      exact hmap
    obtain ⟨e', he', hpairs, hgrew, hscheduled⟩ := h.schedule_forall₂ hforall hxs hys
    exact ⟨e', he', hpairs, hgrew, .inl hscheduled⟩
  · obtain ⟨e', he', hpairs, hgrew, hscheduled⟩ := h.schedule_perm hperm hxs hys
    exact ⟨e', he', hpairs, hgrew, .inr ⟨hc, hscheduled⟩⟩

def Accounted (T : Terms ℕ ℕ) (e : Explanation) : ℕ × ℕ × MergeReason → Prop
  | (_, _, .assertion reason) => reason = 0 ∨ reason ∈ e.reasons
  | (x, y, .congruence _ _) => ∀ f xs ys, T.app x = some (f, xs) → T.app y = some (f, ys) →
      Matches (T.commutative f) e.Scheduled xs ys

theorem Accounted.mono {T : Terms ℕ ℕ} {entry : ℕ × ℕ × MergeReason} (hgrew : Grew e e')
    (h : Accounted T e entry) : Accounted T e' entry := by
  obtain ⟨x, y, reason⟩ := entry
  cases reason with
  | assertion reason => exact h.imp_right (hgrew.reasons reason)
  | congruence term1 term2 =>
    intro f xs ys hx hy
    exact (h f xs ys hx hy).mono fun _ _ hxy => hxy.mono hgrew

def OnStep (s : EufSolver) (step : ℕ × ℕ) (entry : ℕ × ℕ × MergeReason) : Prop :=
  ∃ edge, (s.proofForest.lists step.1)[step.2]? = some edge ∧ entry.2.2 = edge.reason

section

variable (hforest : Forested props eqs s log)

include hforest

theorem Forested.justified {entry : ℕ × ℕ × MergeReason} (hentry : entry ∈ log) :
    Justified (terms props s.nodes) (fun x y => s.root x = s.root y) eqs entry :=
  (hforest.grown.justified hentry).mono (fun x y => (hforest.conn x y).mp) fun _ h => h

theorem Forested.exists_entry {node idx : ℕ} {edge : MergeEdge}
    (hedge : (s.proofForest.lists node)[idx]? = some edge) : ∃ entry ∈ log, OnStep s (node, idx) entry ∧
    (entry.1 = node ∧ entry.2.1 = edge.other ∨ entry.1 = edge.other ∧ entry.2.1 = node) := by
  rcases hforest.logged node edge (mem_of_getElem? hedge) with hmem | hmem
  · exact ⟨_, hmem, ⟨edge, hedge, rfl⟩, .inl ⟨rfl, rfl⟩⟩
  · exact ⟨_, hmem, ⟨edge, hedge, rfl⟩, .inr ⟨rfl, rfl⟩⟩

theorem Forested.explainEdge (hclean : Clean s) (h : Pairs s eqs used e) {step : ℕ × ℕ} {edge : MergeEdge}
    (hedge : (s.proofForest.lists step.1)[step.2]? = some edge) :
    ∃ e', s.explainEdge e step = some e' ∧ Pairs s eqs used e' ∧ Grew e e' ∧ ∀ entry ∈ log, OnStep s step entry →
    Accounted (terms props s.nodes) e' entry := by
  have honStep (entry : ℕ × ℕ × MergeReason) (hentry : OnStep s step entry) :
      entry.2.2 = edge.reason := by
    obtain ⟨edge', hedge', hreason⟩ := hentry
    rw [hedge] at hedge'
    cases hedge'
    exact hreason
  obtain ⟨⟨x, y, reason⟩, hmem, hstep, -⟩ := hforest.exists_entry hedge
  have hjustified := hforest.justified hmem
  obtain rfl : reason = edge.reason := honStep _ hstep
  unfold EufSolver.explainEdge
  rw [hedge]
  dsimp only
  cases hreason : edge.reason with
  | assertion reason =>
    rw [hreason] at hjustified
    have hasserted : ∃ x y, (x, y, reason) ∈ eqs := ⟨x, y, hjustified⟩
    refine ⟨e.addReason reason, rfl, ?_, ?_, fun entry _ hentry => ?_⟩
    · unfold Explanation.addReason
      split
      · refine ⟨fun r hr => ?_, h.nodup, h.range, h.todo, h.done⟩
        rcases mem_append.mp hr with hr | hr
        · exact h.asserted r hr
        · rw [mem_singleton.mp hr]
          exact hasserted
      · exact h
    · unfold Explanation.addReason
      split
      · exact ⟨fun _ => id, fun r hr => mem_append_left _ hr, rfl⟩
      · exact .refl e
    · obtain ⟨x', y', reason'⟩ := entry
      obtain rfl : reason' = .assertion reason := (honStep _ hentry).trans hreason
      exact e.mem_addReason reason
  | congruence term1 term2 =>
    rw [hreason] at hjustified
    obtain ⟨rfl, rfl, f, xs, ys, hx, hy, hmatch⟩ := hjustified
    obtain ⟨node1, hnode1, -, hsig1⟩ := terms_app.mp hx
    obtain ⟨node2, hnode2, -, hsig2⟩ := terms_app.mp hy
    obtain rfl : node1.args = xs := congrArg Prod.snd hsig1
    obtain rfl : node2.args = ys := congrArg Prod.snd hsig2
    have hlt (u : ℕ) (node : ENode) (hnode : s.nodes[u]? = some node) :
        ∀ z ∈ node.args, z < s.nodes.length := by
      intro z hz
      have hu := (List.getElem?_eq_some_iff.mp hnode).1
      have hz := hclean.args u node hnode z hz
      omega
    obtain ⟨e', he', hpairs, hgrew, hscheduled⟩ :=
      h.schedule_matches hmatch (hlt x node1 hnode1) (hlt y node2 hnode2)
    refine ⟨e', ?_, hpairs, hgrew, fun entry hentry hstep' => ?_⟩
    · simp only [hnode1, hnode2]
      rw [if_neg]
      · exact he'
      · exact not_not_intro hmatch.length_eq
    · obtain ⟨x', y', reason'⟩ := entry
      obtain rfl : reason' = .congruence x y := (honStep _ hstep').trans hreason
      obtain ⟨rfl, rfl, -⟩ := hforest.justified hentry
      intro f' xs' ys' hx' hy'
      rw [hx] at hx'
      rw [hy] at hy'
      cases hx'
      cases hy'
      exact hscheduled

theorem Forested.explainPath (hclean : Clean s) (h : Pairs s eqs used e) {path : List (ℕ × ℕ)} {source target : ℕ}
    (hpath : Leads s.proofForest.lists source path target) : ∃ e', s.explainPath path e = some e' ∧ Pairs s eqs used e'
    ∧ Grew e e' ∧ ∀ entry ∈ log, (∃ step ∈ path, OnStep s step entry) → Accounted (terms props s.nodes) e' entry := by
  induction path generalizing e target with
  | nil => exact ⟨e, rfl, h, .refl e, by simp⟩
  | cons step path ih =>
    obtain ⟨⟨edge, hedge, -⟩, hpath⟩ := hpath
    obtain ⟨e', he', hpairs, hgrew, haccounted⟩ := hforest.explainEdge hclean h hedge
    obtain ⟨e'', he'', hpairs', hgrew', haccounted'⟩ := ih hpairs hpath
    refine ⟨e'', ?_, hpairs', hgrew.trans hgrew', fun entry hentry hstep => ?_⟩
    · rw [EufSolver.explainPath, he']
      exact he''
    · obtain ⟨step', hstep', honStep⟩ := hstep
      rcases mem_cons.mp hstep' with rfl | hstep'
      · exact (haccounted entry hentry honStep).mono hgrew'
      · exact haccounted' entry hentry ⟨step', hstep', honStep⟩

theorem Forested.conn_of_leads {path : List (ℕ × ℕ)} {source target : ℕ}
    (hpath : Leads s.proofForest.lists source path target) :
    Conn (fun entry => entry ∈ log ∧ ∃ step ∈ path, OnStep s step entry) source target := by
  induction path generalizing target with
  | nil =>
    obtain rfl : target = source := hpath
    exact .refl _
  | cons step path ih =>
    obtain ⟨node, idx⟩ := step
    obtain ⟨⟨edge, hedge, rfl⟩, hpath⟩ := hpath
    have hrest := (ih hpath).mono fun entry (h : entry ∈ log ∧ ∃ step ∈ path, OnStep s step entry) =>
      (⟨h.1, h.2.imp fun step hstep => ⟨mem_cons_of_mem _ hstep.1, hstep.2⟩⟩ :
        entry ∈ log ∧ ∃ step ∈ (node, idx) :: path, OnStep s step entry)
    refine hrest.trans _ _ _ ?_
    obtain ⟨⟨x, y, reason⟩, hmem, hstep, hends⟩ := hforest.exists_entry hedge
    have hxy : Conn (fun entry => entry ∈ log ∧ ∃ step ∈ (node, idx) :: path, OnStep s step entry) x y :=
      .rel x y ⟨reason, hmem, (node, idx), mem_cons_self, hstep⟩
    rcases hends with ⟨rfl, rfl⟩ | ⟨rfl, rfl⟩
    · exact hxy
    · exact hxy.symm _ _

theorem Forested.connected (hxy : s.root x = s.root y) :
    Relation.ReflTransGen (Step s.proofForest.lists s.nodes.length) x y := by
  have hsymm : Std.Symm (Step s.proofForest.lists s.nodes.length) := by
    constructor
    rintro a b ⟨hb, edge, hedge, rfl⟩
    rcases hforest.logged a edge hedge with hmem | hmem
    · exact ⟨(hforest.lt _ hmem).1, hforest.right _ _ _ hmem⟩
    · exact ⟨(hforest.lt _ hmem).2, hforest.left _ _ _ hmem⟩
  refine ((hforest.conn x y).mpr hxy).imp ⟨fun _ => .refl, fun h => Std.Symm.symm _ _ h, .trans⟩ fun a b l hmem => ?_
  exact .single ⟨(hforest.lt _ hmem).2, hforest.left a b l hmem⟩

theorem Forested.explained (h : Pairs s eqs used e) (htodo : e.todo = [])
    (hused : ∀ entry, used entry → entry ∈ log ∧ Accounted (terms props s.nodes) e entry)
    {p : ℕ × ℕ} (hp : p ∈ e.enqueued) : Explained props s.nodes eqs e.reasons p.1 p.2 := by
  have hdone (p : ℕ × ℕ) (hp : p ∈ e.enqueued) : Conn used p.1 p.2 := by
    refine (h.done p hp).resolve_right ?_
    rintro ⟨q, hq, -⟩
    rw [htodo] at hq
    cases hq
  have hscheduled (x y : ℕ) (hxy : e.Scheduled x y) : Conn used x y := by
    rcases hxy with rfl | hxy
    · exact .refl x
    · have hconn := hdone _ hxy
      rcases orderedPair_cases x y with hpair | hpair
      · rwa [hpair] at hconn
      · rw [hpair] at hconn
        exact hconn.symm _ _
  refine ⟨h.asserted, hforest.grown.congruent hforest.acyclic (fun entry h => (hused entry h).1)
    (fun x y reason hxy hmem => ⟨reason, (hused _ hxy).2, hmem⟩) ?_ (hdone p hp)⟩
  intro x y term1 term2 hxy f xs ys hx hy
  exact ((hused _ hxy).2 f xs ys hx hy).mono hscheduled

theorem Forested.explainLoop (hclean : Clean s) {fuel : ℕ} (h : Pairs s eqs used e)
    (hused : ∀ entry, used entry → entry ∈ log ∧ Accounted (terms props s.nodes) e entry)
    (hfuel : e.todo.length + s.nodes.length * s.nodes.length < fuel + e.enqueued.length) :
    ∃ reasons, s.explainLoop fuel e = some reasons ∧ ∀ p ∈ e.enqueued,
    Explained props s.nodes eqs reasons p.1 p.2 := by
  induction fuel generalizing e used with
  | zero =>
    have hlength : e.enqueued.length ≤ s.nodes.length * s.nodes.length := by
      have hsub : e.enqueued ⊆ List.range s.nodes.length ×ˢ List.range s.nodes.length := by
        intro p hp
        obtain ⟨h1, h2⟩ := h.range p hp
        exact mem_product.mpr ⟨mem_range.mpr h1, mem_range.mpr h2⟩
      have hlen := (h.nodup.subperm hsub).length_le
      rwa [length_product, length_range] at hlen
    omega
  | succ fuel ih =>
    unfold EufSolver.explainLoop
    split
    · next htodo => exact ⟨e.reasons, rfl, fun p hp => hforest.explained h htodo hused hp⟩
    · next source target todo htodo =>
      have hpair := h.todo (source, target) (htodo ▸ mem_cons_self)
      obtain ⟨path, hfound, hleads⟩ :=
        findPath_of_connected hpair.1 (hforest.connected hpair.2.2)
      rw [hfound]
      dsimp only
      let used' : ℕ × ℕ × MergeReason → Prop :=
        fun entry => used entry ∨ entry ∈ log ∧ ∃ step ∈ path, OnStep s step entry
      have hconn : Conn used' source target := (hforest.conn_of_leads hleads).mono fun _ => .inr
      have hpairs : Pairs s eqs used' { e with todo := todo } := by
        refine ⟨h.asserted, h.nodup, h.range, fun p hp => ?_, fun p hp => ?_⟩
        · exact h.todo p (htodo ▸ mem_cons_of_mem _ hp)
        · rcases h.done p hp with hdone | ⟨q, hq, rfl⟩
          · exact .inl (hdone.mono fun _ => .inl)
          · rw [htodo] at hq
            rcases mem_cons.mp hq with rfl | hq
            · left
              rcases orderedPair_cases source target with hpair | hpair
              · rw [hpair]
                exact hconn
              · rw [hpair]
                exact hconn.symm _ _
            · exact .inr ⟨q, hq, rfl⟩
      obtain ⟨e', he', hpairs', hgrew, haccounted⟩ := hforest.explainPath hclean hpairs hleads
      rw [he']
      have hused' : ∀ entry, used' entry → entry ∈ log ∧ Accounted (terms props s.nodes) e' entry := by
        rintro entry (hentry | ⟨hentry, hstep⟩)
        · obtain ⟨hmem, hold⟩ := hused entry hentry
          have hold' : Accounted (terms props s.nodes) { e with todo := todo } entry := hold
          exact ⟨hmem, hold'.mono hgrew⟩
        · exact ⟨hentry, haccounted entry hentry hstep⟩
      have hbalance := hgrew.balance
      obtain ⟨reasons, hreasons, hexplained⟩ := ih hpairs' hused' (by
        rw [htodo, length_cons] at hfuel
        dsimp only at hbalance
        omega)
      exact ⟨reasons, hreasons, fun p hp => hexplained p (hgrew.enqueued p hp)⟩

end

theorem Inv.withCache {cache : List ((ℕ × ℕ) × List ℕ)} (h : Inv props A s)
    (hcache : ∀ key reasons, (key, reasons) ∈ cache → Explained props s.nodes A.eqs reasons key.1 key.2) :
    Inv props A { s with explCache := cache } :=
  h.reframe h.sound.uf rfl h.sound.functions h.clean.trailLimits hcache

theorem Inv.cacheGet (h : Inv props A s) (key : ℕ × ℕ) : ∃ cache,
    (s.cacheGet key).1 = { s with explCache := cache } ∧ Inv props A { s with explCache := cache } ∧
      ∀ reasons, (s.cacheGet key).2 = some reasons →
        Explained props s.nodes A.eqs reasons key.1 key.2 := by
  unfold EufSolver.cacheGet
  split
  · refine ⟨s.explCache, rfl, h, ?_⟩
    simp
  · next reasons hlookup =>
    have hmem : (key, reasons) ∈ s.explCache := by
      obtain ⟨l₁, l₂, hsplit, -⟩ := lookup_eq_some_iff.mp hlookup
      simp [hsplit]
    refine ⟨_, rfl, h.withCache fun key' reasons' hmem' => ?_, fun reasons' heq => ?_⟩
    · rcases mem_cons.mp hmem' with heq | hmem'
      · cases heq
        exact h.cached key reasons hmem
      · exact h.cached key' reasons' (mem_of_mem_filter hmem')
    · cases heq
      exact h.cached key reasons hmem

theorem Inv.cacheInsert {key : ℕ × ℕ} {reasons : List ℕ} (h : Inv props A s)
    (hreasons : Explained props s.nodes A.eqs reasons key.1 key.2) : Inv props A (s.cacheInsert key reasons) := by
  refine h.withCache fun key' reasons' hmem => ?_
  rcases mem_cons.mp hmem with heq | hmem
  · cases heq
    exact hreasons
  · refine h.cached key' reasons' ?_
    split at hmem
    · exact mem_of_mem_filter hmem
    · split at hmem
      · exact mem_of_mem_dropLast hmem
      · exact hmem

theorem explained_of_orderedPair {nodes : List ENode} {reasons : List ℕ}
    (h : Explained props nodes eqs reasons (orderedPair x y).1 (orderedPair x y).2) :
    Explained props nodes eqs reasons x y := by
  rcases orderedPair_cases x y with hpair | hpair
  · rwa [hpair] at h
  · rw [hpair] at h
    exact ⟨h.asserted, h.congruent.symm⟩

theorem Inv.tryExplainEquality (h : Inv props A s) (x y : ℕ) :
    ∃ cache, (s.tryExplainEquality x y).1 = { s with explCache := cache } ∧ Inv props A { s with explCache := cache } ∧
    (∀ reasons, (s.tryExplainEquality x y).2 = some reasons → Explained props s.nodes A.eqs reasons x y) ∧
    (s.root x = s.root y → (s.tryExplainEquality x y).2.isSome) := by
  unfold EufSolver.tryExplainEquality
  split
  · next hxy =>
    refine ⟨s.explCache, rfl, h, fun reasons heq => ?_, fun _ => rfl⟩
    cases heq
    rw [hxy]
    exact ⟨by simp, .refl y⟩
  · next hxy =>
    dsimp only
    split
    · next hlt =>
      refine ⟨s.explCache, rfl, h, by simp, fun hroot => absurd ?_ hxy⟩
      -- a class with an element out of range has no other element
      have hside (z : ℕ) : z < s.nodes.length ∧ s.root z < s.nodes.length ∨
          s.nodes.length ≤ z ∧ s.root z = z := by
        rcases Nat.lt_or_ge z s.nodes.length with hz | hz
        · exact .inl ⟨hz, h.sound.uf.root_lt hz⟩
        · exact .inr ⟨hz, h.sound.uf.root_out hz⟩
      have hx := hside x
      have hy := hside y
      omega
    · next hlt =>
      rw [not_or, Nat.not_le, Nat.not_le] at hlt
      obtain ⟨hx, hy⟩ := hlt
      split
      · next hroot =>
        rw [sameNoCompress_iff] at hroot
        obtain ⟨cache, hget, hinv, hcached⟩ := h.cacheGet (orderedPair x y)
        split
        · next s' reasons hfound =>
          rw [hfound] at hget hcached
          obtain rfl : s' = { s with explCache := cache } := hget
          refine ⟨cache, rfl, hinv, fun reasons' heq => ?_, fun _ => rfl⟩
          cases heq
          exact explained_of_orderedPair (hcached reasons rfl)
        · next s' hfound =>
          rw [hfound] at hget
          obtain rfl : s' = { s with explCache := cache } := hget
          obtain ⟨log, hforest⟩ := hinv.forested
          have hpairs : Pairs { s with explCache := cache } A.eqs (fun _ => False)
              { todo := [(x, y)], enqueued := [orderedPair x y] } := by
            refine ⟨by simp, nodup_singleton _, ?_, ?_, ?_⟩
            · refine forall_mem_singleton.mpr ?_
              unfold orderedPair
              grind
            · exact forall_mem_singleton.mpr ⟨hx, hy, hroot⟩
            · exact forall_mem_singleton.mpr (.inr ⟨(x, y), mem_cons_self, rfl⟩)
          have hfuel : 1 + s.nodes.length * s.nodes.length < s.nodes.length * s.nodes.length + 1 + 1 := by omega
          obtain ⟨reasons, hreasons, hexplained⟩ :=
            hforest.explainLoop hinv.clean hpairs (by simp) hfuel
          rw [hreasons]
          have hpair := forall_mem_singleton.mp hexplained
          refine ⟨_, rfl, hinv.cacheInsert hpair, fun reasons' heq => ?_, fun _ => rfl⟩
          cases heq
          exact explained_of_orderedPair hpair
      · next hroot =>
        rw [sameNoCompress_iff] at hroot
        exact ⟨s.explCache, rfl, h, by simp, fun heq => absurd heq hroot⟩

theorem extends_withCache {cache : List ((ℕ × ℕ) × List ℕ)} :
    Extends s { s with explCache := cache } :=
  { Extends.refl s with }

end EufSolver

end Nixie.Euf
