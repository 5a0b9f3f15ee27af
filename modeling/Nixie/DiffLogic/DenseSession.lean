import Nixie.DiffLogic.DenseUpdate

/-!
Sessions of the dense core: the operations in any order, beside the edges that were accepted in the open scopes.
-/

namespace Nixie.DiffLogic

open Nixie.Graph Nixie.Rust List

structure Session where
  asserted : List DlEdge := []
  saved : List (List DlEdge) := []

inductive Op
  | internNode
  | internAtom (key s t : ℕ) (k : ℤ) (isEq : Bool)
  | assertEdge (e : DlEdge)
  | push
  | pop
  | takePropagations
  | reset

namespace DenseDlCore

section

variable (core : DenseDlCore)

def assert (e : DlEdge) : DenseDlCore × DlAssert :=
  core.assertEdge e.src e.dst e.offset e.key e.pol

def perform : Op → DenseDlCore
  | .internNode => core.internNode.1
  | .internAtom key s t k isEq => core.internAtom key s t k isEq
  | .assertEdge e => (core.assert e).1
  | .push => core.push
  | .pop => core.pop
  | .takePropagations => core.takePropagations.1
  | .reset => {}

def record (σ : Session) : Op → Session
  | .assertEdge e =>
    match (core.assert e).2 with
    | .ok => { σ with asserted := e :: σ.asserted }
    | .conflict _ => σ
  | .push => { σ with saved := σ.asserted :: σ.saved }
  | .pop =>
    match σ.saved with
    | [] => σ
    | E :: saved => ⟨E, saved⟩
  | .reset => {}
  | _ => σ

def Admissible (e : DlEdge) : Prop :=
  e.src < core.n ∧ e.dst < core.n ∧ |e.offset| ≤ dlMaxAbsWeight

def Legal : Op → Prop
  | .internNode => core.n < dlMaxNodes
  | .internAtom _ _ _ k _ => fitsI64 k = true
  | .assertEdge e => core.Admissible e
  | _ => True

def Storable : Op → Prop
  | .assertEdge e => e.offset < core.distOf e.src e.dst → core.edges.length < selfEdge
  | _ => True

end

inductive Runs (P : DenseDlCore → Op → Prop) : DenseDlCore → Session → Prop
  | start : Runs P {} {}
  | step {core σ} (op : Op) :
      Runs P core σ → P core op → Runs P (core.perform op) (core.record σ op)

structure Inv (core : DenseDlCore) (σ : Session) : Prop where
  shape : core.Shape
  closed : Closed core.n core.cells core.edges σ.asserted
  watched : core.Watched
  trail : ∀ c ∈ core.cellTrail, c.row < core.n ∧ c.col < core.n
  scopes : List.Forall₂ (fun m E => m.1 ≤ core.edges.length ∧ m.2 ≤ core.cellTrail.length ∧
    Closed core.n (undoCells m.2 core.cellTrail core.cells) (core.edges.take m.1) E)
      core.scopes σ.saved
  sorted : core.scopes.Pairwise fun m m' => m'.1 ≤ m.1 ∧ m'.2 ≤ m.2
  pending : ∀ p ∈ core.pending, Justified core.atoms core.edges p
  overflow : core.overflow = false
  truncated : core.truncated = false

variable {core : DenseDlCore} {σ : Session} {n : ℕ} {f : ℕ → ℕ → Cell} {edges E : List DlEdge}
  {e : DlEdge}

theorem inv_empty : Inv {} {} := by
  have hcells : ∀ a b, cells {} a b = .unreachable := fun a b => by simp [cells]
  have hclosed : Closed 0 (cells {}) [] [] := by
    refine ⟨Nat.zero_le _, fun a b _ => hcells a b, by simp, by simp, by simp, by simp, ?_, ?_⟩
    · intro a b _
      rw [hcells]
      rfl
    · intro a b hk
      rw [hcells] at hk
      exact absurd rfl hk
  exact ⟨⟨le_refl _, le_refl _, rfl⟩, hclosed, ⟨by simp, by simp, by simp, by simp⟩, by simp, .nil, .nil,
    by simp, rfl, rfl⟩

theorem undoCells_node {v : Cell} (lim : ℕ) (trail : List TrailedCell) (ht : ∀ c ∈ trail, c.row < n ∧ c.col < n)
    (f : ℕ → ℕ → Cell) : undoCells lim trail (setCell f n n v) = setCell (undoCells lim trail f) n n v := by
  induction trail generalizing f with
  | nil => rfl
  | cons c trail ih =>
    obtain ⟨hr, hc⟩ := ht c (by simp)
    have hcomm : ∀ w, setCell (setCell f n n v) c.row c.col w = setCell (setCell f c.row c.col w) n n v := by
      intro w
      funext a b
      by_cases hab : a = n ∧ b = n
      · rw [setCell_of_ne (by omega)]
        simp [setCell, hab]
      · rw [setCell_of_ne hab]
        by_cases hab' : a = c.row ∧ b = c.col
        · simp [setCell, hab']
        · rw [setCell_of_ne hab', setCell_of_ne hab', setCell_of_ne hab]
    simp only [undoCells]
    split
    · rw [hcomm]
      exact ih (fun c' hc' => ht c' (by simp [hc'])) _
    · rfl

theorem Inv.internNode (h : Inv core σ) (hn : core.n < dlMaxNodes) : Inv core.internNode.1 σ := by
  obtain ⟨cap, ds, es, heq, hshape, hcells⟩ := internNode_spec h.shape
  rw [heq]
  have htrail : ∀ c ∈ core.cellTrail, c.row < core.n + 1 ∧ c.col < core.n + 1 := by
    intro c hc
    have := h.trail c hc
    omega
  refine ⟨hshape, ?_, ⟨h.watched.pair, h.watched.bound, h.watched.keys, h.watched.fits⟩, htrail, ?_, h.sorted,
    h.pending, h.overflow, h.truncated⟩
  · rw [hcells]
    exact h.closed.internNode hn
  · rw [hcells]
    refine h.scopes.imp fun m E hm => ⟨hm.1, hm.2.1, ?_⟩
    rw [undoCells_node _ _ h.trail]
    exact hm.2.2.internNode hn

theorem mem_watch {occs : ℕ → ℕ → List ℕ} {id a b y x wid : ℕ} (h : wid ∈ watch occs id a b y x) :
    wid ∈ occs y x ∨ wid = id ∧ y = a ∧ x = b := by
  unfold watch at h
  split at h
  · next hyx =>
    rcases mem_append.mp h with h | h
    · exact .inl h
    · exact .inr ⟨by simpa using h, hyx⟩
  · exact .inl h

theorem Watched.internAtom (h : core.Watched) {key s t : ℕ} {k : ℤ} {isEq : Bool}
    (hk : fitsI64 k = true) : (core.internAtom key s t k isEq).Watched := by
  unfold DenseDlCore.internAtom
  split
  · exact h
  · next hnew =>
    -- a watch of the new atom is on its two nodes
    have hocc : ∀ y x wid, wid ∈ (if s ≠ t then
          watch (watch core.occs core.atoms.length s t) core.atoms.length t s
        else watch core.occs core.atoms.length s t) y x →
        wid ∈ core.occs y x ∨ wid = core.atoms.length ∧ (s = y ∧ t = x ∨ s = x ∧ t = y) := by
      intro y x wid hwid
      have hfirst : wid ∈ watch core.occs core.atoms.length s t y x →
          wid ∈ core.occs y x ∨ wid = core.atoms.length ∧ (s = y ∧ t = x ∨ s = x ∧ t = y) := by
        intro hw
        rcases mem_watch hw with hw | ⟨rfl, rfl, rfl⟩
        · exact .inl hw
        · exact .inr ⟨rfl, .inl ⟨rfl, rfl⟩⟩
      split at hwid
      · rcases mem_watch hwid with hw | ⟨rfl, rfl, rfl⟩
        · exact hfirst hw
        · exact .inr ⟨rfl, .inr ⟨rfl, rfl⟩⟩
      · exact hfirst hwid
    refine ⟨?_, ?_, ?_, ?_⟩
    · intro y x wid hwid a ha
      rcases hocc y x wid hwid with hold | ⟨rfl, hpair⟩
      · rw [getElem?_append_left (h.bound y x wid hold)] at ha
        exact h.pair y x wid hold a ha
      · simp only [getElem?_concat_length, Option.some.injEq] at ha
        subst ha
        exact hpair
    · intro y x wid hwid
      rw [length_append]
      rcases hocc y x wid hwid with hold | ⟨rfl, -⟩
      · exact (h.bound y x wid hold).trans_le (Nat.le_add_right _ _)
      · simp
    · intro wid a ha
      dsimp only
      by_cases hlt : wid < core.atoms.length
      · rw [getElem?_append_left hlt] at ha
        have hold := h.keys wid a ha
        rw [if_neg, hold]
        intro heq
        rw [heq] at hold
        exact hnew (by simp [hold])
      · obtain ⟨hw, heq⟩ := List.getElem?_eq_some_iff.mp ha
        rw [length_append, length_singleton] at hw
        obtain rfl : wid = core.atoms.length := by omega
        rw [getElem_concat_length rfl] at heq
        subst heq
        simp
    · intro a ha
      rcases List.mem_append.mp ha with ha | ha
      · exact h.fits a ha
      · obtain rfl : a = ⟨key, s, t, k, isEq⟩ := by simpa using ha
        exact hk

section

variable (h : Inv core σ)
include h

theorem Inv.internAtom {key s t : ℕ} {k : ℤ} {isEq : Bool} (hk : fitsI64 k = true) :
    Inv (core.internAtom key s t k isEq) σ := by
  have hwatched : (core.internAtom key s t k isEq).Watched := h.watched.internAtom hk
  unfold DenseDlCore.internAtom at hwatched ⊢
  split at hwatched
  · next hin =>
    rw [if_pos hin]
    exact h
  · next hin =>
    rw [if_neg hin]
    exact ⟨⟨h.shape.le, h.shape.size, h.shape.same⟩, h.closed, hwatched, h.trail, h.scopes, h.sorted,
      fun p hp => (h.pending p hp).mono (subset_append_left _ _) (List.Subset.refl _),
      h.overflow, h.truncated⟩

theorem Inv.within : core.Within := fun e he =>
  have := h.closed.arcs e (h.closed.stored he)
  ⟨this.1, this.2.1⟩

theorem Inv.fits_neg {s t : ℕ} (hs : s < core.n) (ht : t < core.n) : fitsI64 (-core.distOf s t) = true := by
  rw [distOf_eq hs ht]
  by_cases hk : (core.cells s t).dist = dlInf
  · rw [hk]
    decide
  · apply fits_of_abs
    rw [abs_neg]
    exact (h.closed.abs_dist_le hk).trans (by norm_num)

section

variable (ha : core.Admissible e)
include ha

theorem Inv.assert_conflict (hc : Closes σ.asserted e) : ∃ es p, es ⊆ core.edges ∧ es.Perm p ∧
    IsWalk e.dst p e.src ∧ e.offset + weight p < 0 ∧
    core.assert e = (core, .conflict (es.map DlEdge.justification ++ [e.justification])) := by
  obtain ⟨hs, hd, -⟩ := ha
  obtain ⟨hk, hlt⟩ := (h.closed.closes_iff hd).mp hc
  obtain ⟨p, hp, hnodup⟩ := h.closed.explained _ _ hk
  obtain ⟨q, hq, hreason⟩ := antecedentsScratch_spec h.within hp hnodup hd hs
  refine ⟨q, p, List.Subset.trans hq.subset hp.subset, hq, hp.isWalk, ?_, ?_⟩
  · rw [hp.weight_eq]
    exact hlt
  · have hfit := h.fits_neg hd hs
    have hcond : (core.distOf e.dst e.src ≠ dlInf ∧ core.edgeAt e.dst e.src ≠ noEdge) ∧
        wrapI64 (-core.distOf e.dst e.src) > e.offset := by
      rw [wrapI64_of_fits hfit, distOf_eq hd hs, edgeAt_eq hd hs]
      exact ⟨⟨hk, h.closed.edge_ne_noEdge hk⟩, by omega⟩
    unfold assert assertEdge
    simp only [note_of_fits hfit, if_pos hcond, hreason]
    rfl

theorem Inv.assert_ok (hc : ¬ Closes σ.asserted e) :
    core.assert e = (if e.offset < core.distOf e.src e.dst then
      ({ core with edges := core.edges ++ [e] }).updateCells (core.edges.length % 2 ^ 32)
      else core, .ok) := by
  obtain ⟨hs, hd, -⟩ := ha
  have hfit := h.fits_neg hd hs
  have hcond : ¬ ((core.distOf e.dst e.src ≠ dlInf ∧ core.edgeAt e.dst e.src ≠ noEdge) ∧
      wrapI64 (-core.distOf e.dst e.src) > e.offset) := by
    rw [wrapI64_of_fits hfit, distOf_eq hd hs]
    rintro ⟨⟨hk, -⟩, hlt⟩
    exact hc ((h.closed.closes_iff hd).mpr ⟨hk, by omega⟩)
  unfold assert assertEdge
  simp only [note_of_fits hfit, if_neg hcond]
  split
  · rfl
  · rfl

theorem Inv.conflict_iff : (∃ reason, (core.assert e).2 = .conflict reason) ↔ Closes σ.asserted e := by
  by_cases hc : Closes σ.asserted e
  · obtain ⟨es, p, -, -, -, -, heq⟩ := h.assert_conflict ha hc
    simp [heq, hc]
  · simp [h.assert_ok ha hc, hc]

theorem Inv.round (hc : ¬ Closes σ.asserted e) (hsmall : core.edges.length < selfEdge) :
    Round { core with edges := core.edges ++ [e] } core.edges σ.asserted e :=
  ⟨⟨h.shape.le, h.shape.size, h.shape.same⟩, h.closed, rfl, hsmall, ha.1, ha.2.1, ha.2.2, hc,
    ⟨h.watched.pair, h.watched.bound, h.watched.keys, h.watched.fits⟩, h.trail,
    fun p hp => (h.pending p hp).mono (List.Subset.refl _) (subset_append_left _ _)⟩

theorem Inv.assertEdge (hc : ¬ Closes σ.asserted e)
    (hsmall : e.offset < core.distOf e.src e.dst → core.edges.length < selfEdge) :
    Inv (core.assert e).1 { σ with asserted := e :: σ.asserted } := by
  rw [h.assert_ok ha hc]
  dsimp only
  split
  · next hlt =>
    have hround := h.round ha hc (hsmall hlt)
    have hid : core.edges.length % 2 ^ 32 = core.edges.length := by
      apply Nat.mod_eq_of_lt
      exact (hsmall hlt).trans (by decide)
    rw [hid]
    have hmid := hround.updateCells
    have hclosed := h.closed.relaxed ha.1 ha.2.1 ha.2.2 hc (hsmall hlt)
    obtain ⟨ds, es, trail, ps, hsame⟩ := hmid.same
    have hcells : cells _ = _ := hmid.cells
    have hshape := hmid.shape
    have htrail := hmid.trail
    have hundo := hmid.undo
    have hpending := hmid.pending
    rw [hsame] at hcells hshape htrail hundo hpending ⊢
    refine ⟨hshape, ?_, ⟨h.watched.pair, h.watched.bound, h.watched.keys, h.watched.fits⟩, htrail, ?_, h.sorted,
      hpending, h.overflow, h.truncated⟩
    · rw [hcells]
      exact hclosed
    · refine h.scopes.imp fun m E hm => ⟨?_, ?_, ?_⟩
      · rw [length_append]
        exact hm.1.trans (Nat.le_add_right _ _)
      · rw [length_append]
        exact hm.2.1.trans (Nat.le_add_left _ _)
      · rw [hundo m.2 hm.2.1, take_append_of_le_length hm.1]
        exact hm.2.2
  · next hle =>
    rw [distOf_eq ha.1 ha.2.1] at hle
    exact ⟨h.shape, h.closed.cons_of_le ha.1 ha.2.1 ha.2.2 hc (not_lt.mp hle), h.watched, h.trail,
      h.scopes, h.sorted, h.pending, h.overflow, h.truncated⟩

end

end

theorem undoCells_length (trail : List TrailedCell) : undoCells trail.length trail f = f := by
  cases trail with
  | nil => rfl
  | cons c trail => simp [undoCells]

theorem undoCells_undoCells {lim lim' : ℕ} (trail : List TrailedCell) (hle : lim' ≤ lim) (f : ℕ → ℕ → Cell) :
    undoCells lim' (trail.drop (trail.length - lim)) (undoCells lim trail f) = undoCells lim' trail f := by
  induction trail generalizing f with
  | nil => simp [undoCells]
  | cons c trail ih =>
    by_cases hlim : trail.length + 1 > lim
    · have hdrop : (c :: trail).length - lim = trail.length - lim + 1 := by
        rw [length_cons]
        omega
      rw [hdrop, drop_succ_cons, undoCells, if_pos hlim, ih, undoCells_cons (by omega)]
    · have hdrop : (c :: trail).length - lim = 0 := by
        rw [length_cons]
        omega
      have hkeep : undoCells lim (c :: trail) f = f := by rw [undoCells, if_neg hlim]
      rw [hdrop, hkeep]
      rfl

theorem Inv.push (h : Inv core σ) : Inv core.push { σ with saved := σ.asserted :: σ.saved } := by
  refine ⟨⟨h.shape.le, h.shape.size, h.shape.same⟩, h.closed,
    ⟨h.watched.pair, h.watched.bound, h.watched.keys, h.watched.fits⟩, h.trail, ?_, ?_, h.pending, h.overflow,
    h.truncated⟩
  · refine .cons ⟨le_refl _, le_refl _, ?_⟩ h.scopes
    show Closed core.n (undoCells core.cellTrail.length core.cellTrail core.cells)
      (core.edges.take core.edges.length) σ.asserted
    rw [undoCells_length, take_length]
    exact h.closed
  · refine .cons ?_ h.sorted
    intro m hm
    obtain ⟨i, hi, rfl⟩ := mem_iff_getElem.mp hm
    obtain ⟨hlen, hget⟩ := forall₂_iff_get.mp h.scopes
    have hm := hget i hi (hlen ▸ hi)
    exact ⟨hm.1, hm.2.1⟩

theorem Inv.pop (h : Inv core σ) : Inv core.pop (match σ.saved with | [] => σ | E :: saved => ⟨E, saved⟩) := by
  obtain ⟨asserted, saved⟩ := σ
  have hscopes := h.scopes
  have hsorted := h.sorted
  unfold DenseDlCore.pop
  generalize hsc : core.scopes = scopes at hscopes hsorted
  cases hscopes with
  | nil => exact h
  | @cons m E scopes saved hm hrest =>
    obtain ⟨edgesLim, trailLim⟩ := m
    obtain ⟨hel, htl, hclosed⟩ := hm
    obtain ⟨hle, hsorted'⟩ := pairwise_cons.mp hsorted
    have hshape : Shape { core with scopes := scopes } := ⟨h.shape.le, h.shape.size, h.shape.same⟩
    obtain ⟨ds, es, heq, hshape', hcells⟩ := undo_spec trailLim core.cellTrail hshape h.trail
    have hlen : (core.cellTrail.drop (core.cellTrail.length - trailLim)).length = trailLim := by
      rw [length_drop]
      dsimp only at htl
      omega
    dsimp only at heq hcells ⊢
    rw [heq]
    refine ⟨⟨hshape'.le, hshape'.size, hshape'.same⟩, ?_,
      ⟨h.watched.pair, h.watched.bound, h.watched.keys, h.watched.fits⟩,
      fun c hc => h.trail c (mem_of_mem_drop hc), ?_, hsorted', by simp, h.overflow, h.truncated⟩
    · show Closed core.n (cells { core with dist := ds, edgeOf := es, scopes := scopes }) _ _
      rw [hcells]
      exact hclosed
    · obtain ⟨hlength, hget⟩ := forall₂_iff_get.mp hrest
      refine forall₂_iff_get.mpr ⟨hlength, fun i hi hi' => ?_⟩
      obtain ⟨h₁, h₂, h₃⟩ := hget i hi hi'
      obtain ⟨hle₁, hle₂⟩ := hle _ (get_mem scopes ⟨i, hi⟩)
      refine ⟨?_, ?_, ?_⟩
      · rw [length_take]
        exact le_min hle₁ h₁
      · exact hlen.symm ▸ hle₂
      · show Closed core.n (undoCells _ _
          (cells { core with dist := ds, edgeOf := es, scopes := scopes })) _ _
        rw [hcells, take_take, min_eq_left hle₁]
        show Closed core.n (undoCells _ (core.cellTrail.drop _) (undoCells trailLim core.cellTrail
          core.cells)) _ _
        rw [undoCells_undoCells _ hle₂]
        exact h₃

theorem Inv.perform (h : Inv core σ) {op : Op} (hl : core.Legal op) (hs : core.Storable op) :
    Inv (core.perform op) (core.record σ op) := by
  cases op with
  | internNode => exact h.internNode hl
  | internAtom key s t k isEq => exact h.internAtom hl
  | assertEdge e =>
    have hl : core.Admissible e := hl
    show Inv (core.assert e).1 (match (core.assert e).2 with
      | .ok => { σ with asserted := e :: σ.asserted }
      | .conflict _ => σ)
    by_cases hc : Closes σ.asserted e
    · obtain ⟨es, p, -, -, -, -, heq⟩ := h.assert_conflict hl hc
      rw [heq]
      exact h
    · have hinv := h.assertEdge hl hc hs
      have hok : (core.assert e).2 = .ok := by rw [h.assert_ok hl hc]
      rw [hok]
      exact hinv
  | push => exact h.push
  | pop => exact h.pop
  | takePropagations =>
    exact ⟨⟨h.shape.le, h.shape.size, h.shape.same⟩, h.closed,
      ⟨h.watched.pair, h.watched.bound, h.watched.keys, h.watched.fits⟩, h.trail, h.scopes, h.sorted,
      by simp [DenseDlCore.perform, DenseDlCore.takePropagations], h.overflow, h.truncated⟩
  | reset => exact inv_empty

theorem Runs.inv (h : Runs (fun core op => core.Legal op ∧ core.Storable op) core σ) : Inv core σ := by
  induction h with
  | start => exact inv_empty
  | step _ _ hop ih => exact ih.perform hop.1 hop.2

end DenseDlCore

end Nixie.DiffLogic
