import Nixie.DiffLogic.DenseExplain

/-!
One round of `update_cells`: between two writes the matrix holds the new distances in the cells
written so far, the trail leads back to the matrix before the round, and every propagation
queued on the way is explained.
-/

namespace Nixie.DiffLogic

open Nixie.Graph Nixie.Rust List

namespace DenseDlCore

variable {base core : DenseDlCore} {edges E : List DlEdge} {e : DlEdge} {y x : ℕ}
  {W W' : ℕ → ℕ → Prop}

structure Round (base : DenseDlCore) (edges E : List DlEdge) (e : DlEdge) : Prop where
  shape : base.Shape
  closed : Closed base.n base.cells edges E
  stored : base.edges = edges ++ [e]
  small : edges.length < selfEdge
  src : e.src < base.n
  dst : e.dst < base.n
  weight : |e.offset| ≤ dlMaxAbsWeight
  opens : ¬ Closes E e
  watched : base.Watched
  trail : ∀ c ∈ base.cellTrail, c.row < base.n ∧ c.col < base.n
  pending : ∀ p ∈ base.pending, Justified base.atoms base.edges p

structure Midway (base core : DenseDlCore) (e : DlEdge) (id : ℕ) (W : ℕ → ℕ → Prop) : Prop where
  shape : core.Shape
  same : ∃ ds es trail ps, core = { base with
    dist := ds, edgeOf := es, cellTrail := trail ++ base.cellTrail, pending := base.pending ++ ps }
  cells : core.cells = relaxed base.cells e id W
  improves : ∀ y x, W y x → Improves base.cells e y x
  trail : ∀ c ∈ core.cellTrail, c.row < core.n ∧ c.col < core.n
  undo : ∀ lim ≤ base.cellTrail.length,
    undoCells lim core.cellTrail core.cells = undoCells lim base.cellTrail base.cells
  pending : ∀ p ∈ core.pending, Justified base.atoms base.edges p

theorem Midway.congr {id : ℕ} (h : Midway base core e id W) (hW : ∀ y x, W y x ↔ W' y x) :
    Midway base core e id W' := by
  have heq : W = W' := funext fun y => funext fun x => propext (hW y x)
  exact heq ▸ h

theorem Round.midway (h : Round base edges E e) : Midway base base e edges.length fun _ _ => False := by
  refine ⟨h.shape, ⟨base.dist, base.edgeOf, [], [], by simp⟩, ?_, by simp, h.trail, fun _ _ => rfl, h.pending⟩
  funext y x
  rw [relaxed_of_not not_false]

theorem Round.within (h : Round base edges E e) : base.Within := by
  intro c hc
  rw [h.stored] at hc
  rcases mem_append.mp hc with hc | hc
  · have := h.closed.arcs c (h.closed.stored hc)
    exact ⟨this.1, this.2.1⟩
  · obtain rfl : c = e := by simpa using hc
    exact ⟨h.src, h.dst⟩

theorem Round.sum_nonneg (h : Round base edges E e) (hyx : Improves base.cells e y x)
    (hxy : Improves base.cells e x y) : 0 ≤ ((base.cells y e.src).dist + e.offset + (base.cells e.dst x).dist) +
    ((base.cells x e.src).dist + e.offset + (base.cells e.dst y).dist) := by
  obtain ⟨hk₁, hle₁⟩ := h.closed.triangle hyx.2.1 hxy.1
  obtain ⟨-, hle₂⟩ := h.closed.triangle hxy.2.1 hyx.1
  have hcycle := h.closed.cycle h.dst h.opens hk₁
  omega

theorem undoCells_cons {c : TrailedCell} {trail : List TrailedCell} {lim : ℕ} {f : ℕ → ℕ → Cell}
    (hlim : lim ≤ trail.length) : undoCells lim (c :: trail) f =
    undoCells lim trail (setCell f c.row c.col ⟨c.dist, c.edge⟩) := by
  rw [undoCells, if_pos (by omega)]

theorem setCell_undo {f : ℕ → ℕ → Cell} {v : Cell} : setCell (setCell f y x v) y x (f y x) = f := by
  funext a b
  by_cases hab : a = y ∧ b = x
  · obtain ⟨rfl, rfl⟩ := hab
    simp
  · rw [setCell_of_ne hab, setCell_of_ne hab]

section

variable (h : Round base edges E e)
include h

theorem Round.fresh (hm : Midway base core e edges.length W) (hyx : W y x) : core.Fresh y x := by
  have hi := hm.improves y x hyx
  have hy := (h.closed.lt hi.1).1
  have hx := (h.closed.lt hi.2.1).2
  obtain ⟨hn, hedges, hwithin, hwatched⟩ :
      core.n = base.n ∧ core.edges = base.edges ∧ core.Within ∧ core.Watched := by
    obtain ⟨ds, es, trail, ps, rfl⟩ := hm.same
    exact ⟨rfl, rfl, h.within, h.watched.pair, h.watched.bound, h.watched.keys, h.watched.fits⟩
  have hexpl : ∀ {a b}, W a b ∨ (base.cells a b).dist ≠ dlInf ∧ ¬ Improves base.cells e a b →
      core.Explained a b := by
    intro a b hab
    obtain ⟨p, hp, hnodup⟩ := h.closed.explained_relaxed h.dst h.opens hm.improves h.small hab
    rw [← hm.cells, ← h.stored, ← hedges] at hp
    exact ⟨p, hp, hnodup⟩
  refine ⟨hwithin, hwatched, hn ▸ hy, hn ▸ hx, ?_, ?_, hexpl (.inl hyx), ?_, ?_⟩
  · rintro rfl
    exact not_improves_self h.closed h.dst h.opens hi
  · rw [hm.cells, relaxed_of hyx]
    exact h.closed.abs_sum_le h.weight hi.1 hi.2.1
  · rw [hm.cells]
    intro hk
    by_cases hxy : W x y
    · rw [relaxed_of hxy]
      have hi' := hm.improves x y hxy
      exact h.closed.abs_sum_le h.weight hi'.1 hi'.2.1
    · rw [relaxed_of_not hxy] at hk ⊢
      exact (h.closed.abs_dist_le hk).trans (by norm_num)
  · rw [hm.cells]
    intro hk hle
    by_cases hxy : W x y
    · exact hexpl (.inl hxy)
    · rw [relaxed_of_not hxy] at hk hle
      rw [relaxed_of hyx] at hle
      refine hexpl (.inr ⟨hk, fun hi' => ?_⟩)
      have hsum := h.sum_nonneg hi hi'
      have hlt := hi'.2.2
      dsimp only at hle
      omega

theorem Midway.relaxCell (hm : Midway base core e edges.length W) (hk : (base.cells y e.src).dist ≠ dlInf)
    (hk' : (base.cells e.dst x).dist ≠ dlInf) :
    Midway base (relaxCell edges.length y (base.cells y e.src).dist core
    (x, e.offset + (base.cells e.dst x).dist)) e edges.length fun a b => W a b ∨ (a = y ∧ b = x) ∧
    Improves base.cells e a b := by
  have hy := (h.closed.lt hk).1
  have hx := (h.closed.lt hk').2
  have habs := h.closed.abs_sum_le h.weight hk hk'
  rw [add_assoc] at habs
  have hfit := fits_of_abs (habs.trans (by norm_num))
  unfold DenseDlCore.relaxCell
  simp only [note_of_fits hfit, wrapI64_of_fits hfit]
  have hcn : core.n = base.n := by
    obtain ⟨ds, es, trail, ps, rfl⟩ := hm.same
    rfl
  split
  · next hxy =>
    subst hxy
    refine hm.congr fun a b => ?_
    refine ⟨.inl, ?_⟩
    rintro (hab | ⟨⟨rfl, rfl⟩, hi⟩)
    · exact hab
    · exact absurd hi (not_improves_self h.closed h.dst h.opens)
  · split
    · next hlt =>
      rw [distOf_eq (hcn ▸ hy) (hcn ▸ hx), hm.cells] at hlt
      -- the cell still held its old distance: a written one is not improved again
      have hW : ¬ W y x := by
        intro hyx
        rw [relaxed_of hyx, add_assoc] at hlt
        exact lt_irrefl _ hlt
      rw [relaxed_of_not hW] at hlt
      have hi : Improves base.cells e y x := ⟨hk, hk', by rw [add_assoc]; exact hlt⟩
      let old : TrailedCell := ⟨y, x, core.edgeAt y x, core.distOf y x⟩
      let core' : DenseDlCore := { core with cellTrail := old :: core.cellTrail }
      have hshape : core'.Shape := ⟨hm.shape.le, hm.shape.size, hm.shape.same⟩
      have hwrite : (core'.writeCell y x ((base.cells y e.src).dist +
          (e.offset + (base.cells e.dst x).dist)) edges.length).cells =
            setCell core.cells y x ⟨(base.cells y e.src).dist +
              (e.offset + (base.cells e.dst x).dist), edges.length⟩ :=
        cells_writeCell hshape (show y < core.n from hcn ▸ hy) (show x < core.n from hcn ▸ hx)
      have hmid : Midway base (core'.writeCell y x ((base.cells y e.src).dist +
          (e.offset + (base.cells e.dst x).dist)) edges.length) e edges.length
          fun a b => W a b ∨ (a = y ∧ b = x) ∧ Improves base.cells e a b := by
        refine ⟨hshape.writeCell, ?_, ?_, ?_, ?_, ?_, hm.pending⟩
        · obtain ⟨ds, es, trail, ps, rfl⟩ := hm.same
          exact ⟨_, _, old :: trail, ps, rfl⟩
        · rw [hwrite]
          funext a b
          by_cases hab : a = y ∧ b = x
          · obtain ⟨rfl, rfl⟩ := hab
            rw [setCell_self, relaxed_of (.inr ⟨⟨rfl, rfl⟩, hi⟩), add_assoc]
          · rw [setCell_of_ne hab, hm.cells]
            by_cases hab' : W a b
            · rw [relaxed_of hab', relaxed_of (.inl hab')]
            · rw [relaxed_of_not hab', relaxed_of_not]
              rintro (hw | ⟨hw, -⟩)
              · exact hab' hw
              · exact hab hw
        · rintro a b (hab | ⟨-, hab⟩)
          · exact hm.improves a b hab
          · exact hab
        · intro c hc
          rcases mem_cons.mp hc with rfl | hc
          · exact ⟨show y < core.n from hcn ▸ hy, show x < core.n from hcn ▸ hx⟩
          · exact hm.trail c hc
        · intro lim hlim
          have hlen : lim ≤ core.cellTrail.length := by
            obtain ⟨ds, es, trail, ps, rfl⟩ := hm.same
            simp only [length_append]
            omega
          rw [hwrite]
          show undoCells lim (old :: core.cellTrail) _ = _
          rw [undoCells_cons hlen, ← hm.undo lim hlim]
          have hold : (⟨old.dist, old.edge⟩ : Cell) = core.cells y x :=
            (if_pos (show y < core.n ∧ x < core.n from hcn ▸ ⟨hy, hx⟩)).symm
          rw [hold, setCell_undo]
      obtain ⟨ps, heq, hps⟩ := propagateUsingCell_spec (h.fresh hmid (.inr ⟨⟨rfl, rfl⟩, hi⟩))
      rw [heq]
      refine ⟨⟨hmid.shape.le, hmid.shape.size, hmid.shape.same⟩, ?_, hmid.cells, hmid.improves,
        hmid.trail, hmid.undo, ?_⟩
      · obtain ⟨ds, es, trail, ps', hsame⟩ := hmid.same
        refine ⟨ds, es, trail, ps' ++ ps, ?_⟩
        rw [← append_assoc]
        exact congrArg (fun c : DenseDlCore => { c with pending := c.pending ++ ps }) hsame
      · intro p hp
        rcases mem_append.mp hp with hp | hp
        · exact hmid.pending p hp
        · obtain ⟨ds, es, trail, ps', hsame⟩ := hmid.same
          have := hps p hp
          rw [hsame] at this
          exact this
    · next hlt =>
      refine hm.congr fun a b => ⟨.inl, ?_⟩
      rintro (hab | ⟨⟨rfl, rfl⟩, hi⟩)
      · exact hab
      · by_contra hW
        rw [distOf_eq (hcn ▸ hy) (hcn ▸ hx), hm.cells, relaxed_of_not hW, ← add_assoc] at hlt
        exact hlt hi.2.2

theorem Round.fits_sum (hk : (base.cells e.dst x).dist ≠ dlInf) :
    fitsI64 (e.offset + (base.cells e.dst x).dist) = true := by
  have h₁ := abs_le.mp (h.closed.abs_dist_le hk)
  have h₂ := abs_le.mp h.weight
  unfold dlMaxAbsWeight at h₂
  exact fits_of_abs (abs_le.mpr (by omega))

theorem Round.mem_sums {c : ℕ × ℤ} : c ∈ base.sums e ↔ (c.1 ≠ e.src ∧ (base.cells e.dst c.1).dist ≠ dlInf) ∧
    c.2 = e.offset + (base.cells e.dst c.1).dist := by
  obtain ⟨x, v⟩ := c
  simp only [sums, mem_filterMap, mem_range]
  constructor
  · rintro ⟨x', hx', heq⟩
    split at heq
    · simp at heq
    · next hx =>
      simp only [Option.some.injEq, Prod.mk.injEq] at heq
      obtain ⟨rfl, rfl⟩ := heq
      rw [distOf_eq h.dst hx'] at hx ⊢
      exact ⟨not_or.mp hx, rfl⟩
  · rintro ⟨⟨hne, hk⟩, rfl⟩
    have hx := (h.closed.lt hk).2
    refine ⟨x, hx, ?_⟩
    rw [distOf_eq h.dst hx, if_neg (not_or.mpr ⟨hne, hk⟩)]

theorem Round.mem_fTargets {c : ℕ × ℤ} : c ∈ base.fTargets e ↔
    ((c.1 ≠ e.src ∧ (base.cells e.dst c.1).dist ≠ dlInf) ∧ c.2 = e.offset + (base.cells e.dst c.1).dist) ∧
    c.2 < (base.cells e.src c.1).dist := by
  obtain ⟨x, v⟩ := c
  simp only [fTargets, mem_filterMap]
  constructor
  · rintro ⟨⟨x', v'⟩, hmem, heq⟩
    obtain ⟨⟨hne, hk⟩, hv⟩ := h.mem_sums.mp hmem
    dsimp only at hne hk hv heq
    subst hv
    rw [wrapI64_of_fits (h.fits_sum hk), distOf_eq h.src (h.closed.lt hk).2] at heq
    split at heq
    · next hlt =>
      simp only [Option.some.injEq, Prod.mk.injEq] at heq
      obtain ⟨rfl, rfl⟩ := heq
      exact ⟨⟨⟨hne, hk⟩, rfl⟩, hlt⟩
    · simp at heq
  · rintro ⟨⟨⟨hne, hk⟩, hv⟩, hlt⟩
    subst hv
    refine ⟨(x, e.offset + (base.cells e.dst x).dist), h.mem_sums.mpr ⟨⟨hne, hk⟩, rfl⟩, ?_⟩
    rw [wrapI64_of_fits (h.fits_sum hk), distOf_eq h.src (h.closed.lt hk).2, if_pos hlt]

theorem Round.foldl_note : (base.sums e).foldl (fun core c => core.note c.2) base = base := by
  have hmain : ∀ l : List (ℕ × ℤ), l ⊆ base.sums e →
      l.foldl (fun core c => core.note c.2) base = base := by
    intro l
    induction l with
    | nil => intro _; rfl
    | cons c l ih =>
      intro hl
      obtain ⟨hc, hl'⟩ := cons_subset.mp hl
      obtain ⟨⟨-, hk⟩, heq⟩ := h.mem_sums.mp hc
      rw [foldl_cons, heq, note_of_fits (h.fits_sum hk)]
      exact ih hl'
  exact hmain _ (List.Subset.refl _)

theorem Midway.relaxTargets (hm : Midway base core e edges.length W) (hk : (base.cells y e.src).dist ≠ dlInf)
    {targets : List (ℕ × ℤ)} (ht : targets ⊆ base.fTargets e) :
    Midway base (targets.foldl (DenseDlCore.relaxCell edges.length y
    (base.cells y e.src).dist) core) e edges.length fun a b => W a b ∨ (a = y ∧ ∃ c ∈ targets, c.1 = b) ∧
    Improves base.cells e a b := by
  induction targets generalizing core W with
  | nil => exact hm.congr fun a b => by simp
  | cons c targets ih =>
    obtain ⟨hc, ht'⟩ := cons_subset.mp ht
    obtain ⟨⟨⟨-, hk'⟩, hvia⟩, -⟩ := h.mem_fTargets.mp hc
    have hcell := hm.relaxCell h hk hk'
    rw [← hvia] at hcell
    rw [foldl_cons]
    refine (ih hcell ht').congr fun a b => ?_
    simp only [mem_cons, exists_eq_or_imp]
    constructor
    · rintro ((hw | ⟨⟨rfl, rfl⟩, hi⟩) | ⟨⟨rfl, hex⟩, hi⟩)
      · exact .inl hw
      · exact .inr ⟨⟨rfl, .inl rfl⟩, hi⟩
      · exact .inr ⟨⟨rfl, .inr hex⟩, hi⟩
    · rintro (hw | ⟨⟨rfl, rfl | hex⟩, hi⟩)
      · exact .inl (.inl hw)
      · exact .inl (.inr ⟨⟨rfl, rfl⟩, hi⟩)
      · exact .inr ⟨⟨rfl, hex⟩, hi⟩

theorem Midway.relaxRow (hm : Midway base core e edges.length W) (hy : y < base.n) :
    Midway base (relaxRow edges.length e (base.fTargets e) core y) e edges.length fun a b => W a b ∨ a = y ∧
    Improves base.cells e a b := by
  have hcn : core.n = base.n := by
    obtain ⟨ds, es, trail, ps, rfl⟩ := hm.same
    rfl
  have hdys : core.distOf y e.src = (base.cells y e.src).dist := by
    rw [distOf_eq (hcn ▸ hy) (hcn ▸ h.src), hm.cells, relaxed_of_not]
    intro hw
    exact not_improves_src h.closed h.dst h.opens (hm.improves _ _ hw)
  have hnone : (∀ b, ¬ Improves base.cells e y b) →
      Midway base core e edges.length fun a b => W a b ∨ a = y ∧ Improves base.cells e a b := by
    intro hno
    refine hm.congr fun a b => ⟨.inl, ?_⟩
    rintro (hw | ⟨rfl, hi⟩)
    · exact hw
    · exact absurd hi (hno b)
  unfold DenseDlCore.relaxRow
  simp only [hdys]
  split
  · next hyt =>
    subst hyt
    exact hnone fun b => not_improves_dst h.closed h.dst h.opens
  · split
    · next hinf => exact hnone fun b hi => hi.1 hinf
    · next hk =>
      refine (hm.relaxTargets h hk (List.Subset.refl _)).congr fun a b => ?_
      constructor
      · rintro (hw | ⟨⟨rfl, -⟩, hi⟩)
        · exact .inl hw
        · exact .inr ⟨rfl, hi⟩
      · rintro (hw | ⟨rfl, hi⟩)
        · exact .inl hw
        · refine .inr ⟨⟨rfl, (b, e.offset + (base.cells e.dst b).dist), h.mem_fTargets.mpr ?_, rfl⟩, hi⟩
          refine ⟨⟨⟨?_, hi.2.1⟩, rfl⟩, hi.src_lt h.closed h.weight⟩
          rintro rfl
          exact not_improves_src h.closed h.dst h.opens hi

theorem Round.updateCells : Midway base (base.updateCells edges.length) e edges.length (Improves base.cells e) := by
  have hlast : base.edges[edges.length]? = some e := by simp [h.stored]
  have hrows : ∀ m ≤ base.n,
      Midway base ((List.range m).foldl (DenseDlCore.relaxRow edges.length e (base.fTargets e)) base)
        e edges.length fun a b => a < m ∧ Improves base.cells e a b := by
    intro m
    induction m with
    | zero => exact fun _ => h.midway.congr fun a b => by simp
    | succ m ih =>
      intro hm
      rw [range_succ, foldl_append]
      refine ((ih (by omega)).relaxRow h (show m < base.n by omega)).congr fun a b => ?_
      rw [← or_and_right, Nat.lt_succ_iff_lt_or_eq]
  have hall : Midway base
      ((List.range base.n).foldl (DenseDlCore.relaxRow edges.length e (base.fTargets e)) base)
        e edges.length (Improves base.cells e) :=
    (hrows base.n (le_refl _)).congr fun a b =>
      ⟨fun hi => hi.2, fun hi => ⟨(h.closed.lt hi.1).1, hi⟩⟩
  unfold DenseDlCore.updateCells
  simp only [hlast, h.foldl_note]
  split
  · next hempty =>
    -- no target: the rows change nothing
    refine h.midway.congr fun a b => ⟨False.elim, fun hi => ?_⟩
    have hb : b ≠ e.src := by
      rintro rfl
      exact not_improves_src h.closed h.dst h.opens hi
    have hmem : (b, e.offset + (base.cells e.dst b).dist) ∈ base.fTargets e :=
      h.mem_fTargets.mpr ⟨⟨⟨hb, hi.2.1⟩, rfl⟩, hi.src_lt h.closed h.weight⟩
    rw [isEmpty_iff.mp hempty] at hmem
    simp at hmem
  · exact hall

end

end DenseDlCore

end Nixie.DiffLogic
