import Nixie.DiffLogic.DenseCore
import Mathlib.Tactic.Ring
import Mathlib.Tactic.Linarith

/-!
The flat matrix of the dense core as a function of the two nodes, over node creation, re-layout,
writes and the undoing of writes.
-/

namespace Nixie.DiffLogic

open List Nat

structure Cell where
  dist : ℤ
  edge : ℕ
  deriving DecidableEq

def Cell.unreachable : Cell := ⟨dlInf, noEdge⟩

def setCell (f : ℕ → ℕ → Cell) (s t : ℕ) (v : Cell) : ℕ → ℕ → Cell :=
  fun a b => if a = s ∧ b = t then v else f a b

@[simp]
theorem setCell_self {f : ℕ → ℕ → Cell} {s t : ℕ} {v : Cell} : setCell f s t v s t = v := by
  simp [setCell]

theorem setCell_of_ne {f : ℕ → ℕ → Cell} {s t a b : ℕ} {v : Cell} (h : ¬ (a = s ∧ b = t)) :
    setCell f s t v a b = f a b := by
  simp [setCell, h]

namespace DenseDlCore

def cells (core : DenseDlCore) : ℕ → ℕ → Cell := fun s t =>
  if s < core.n ∧ t < core.n then ⟨core.distOf s t, core.edgeAt s t⟩ else .unreachable

structure Shape (core : DenseDlCore) : Prop where
  le : core.n ≤ core.cap
  size : core.n * core.cap ≤ core.dist.length
  same : core.edgeOf.length = core.dist.length

variable {core : DenseDlCore} {s t a b : ℕ} {d : ℤ} {e : ℕ}

theorem distOf_eq (hs : s < core.n) (ht : t < core.n) : core.distOf s t = (core.cells s t).dist := by
  simp [cells, hs, ht]

theorem edgeAt_eq (hs : s < core.n) (ht : t < core.n) : core.edgeAt s t = (core.cells s t).edge := by
  simp [cells, hs, ht]

theorem Shape.cell_lt (h : Shape core) (hs : s < core.n) (ht : t < core.n) : core.cell s t < core.dist.length := by
  have hmul : (s + 1) * core.cap ≤ core.n * core.cap := Nat.mul_le_mul_right _ hs
  have hle := h.le
  have hsize := h.size
  rw [succ_mul] at hmul
  unfold cell
  omega

theorem cell_inj (ht : t < core.cap) (hb : b < core.cap) (h : core.cell a b = core.cell s t) : a = s ∧ b = t := by
  unfold cell at h
  have hpos : 0 < core.cap := by omega
  have hdiv : ∀ x y, y < core.cap → (x * core.cap + y) / core.cap = x := by
    intro x y hy
    rw [Nat.add_comm, add_mul_div_right _ _ hpos, div_eq_of_lt hy, Nat.zero_add]
  have has : a = s := by rw [← hdiv a b hb, h, hdiv s t ht]
  subst has
  exact ⟨rfl, by omega⟩

theorem Shape.writeCell (h : Shape core) : Shape (core.writeCell s t d e) := by
  refine ⟨h.le, ?_, ?_⟩
  · simpa [DenseDlCore.writeCell] using h.size
  · simpa [DenseDlCore.writeCell] using h.same

theorem cells_writeCell (h : Shape core) (hs : s < core.n) (ht : t < core.n) :
    (core.writeCell s t d e).cells = setCell core.cells s t ⟨d, e⟩ := by
  funext a b
  have hlt := h.cell_lt hs ht
  have hlt' : core.cell s t < core.edgeOf.length := h.same ▸ hlt
  by_cases hab : a < core.n ∧ b < core.n
  · by_cases heq : a = s ∧ b = t
    · obtain ⟨rfl, rfl⟩ := heq
      simp only [cells, writeCell, hs, ht, and_self, ↓reduceIte, setCell_self]
      simp [distOf, edgeAt, cell, getD_eq_getElem?_getD] at hlt hlt' ⊢
      simp [hlt, hlt']
    · have hne : core.cell s t ≠ core.cell a b := fun hc =>
        heq (cell_inj (ht.trans_le h.le) (hab.2.trans_le h.le) hc.symm)
      rw [setCell_of_ne heq]
      simp only [cells, writeCell, hab, and_self, ↓reduceIte]
      simp only [distOf, edgeAt, getD_eq_getElem?_getD]
      congr 2
      · exact getElem?_set_ne hne
      · exact getElem?_set_ne hne
  · have hne : ¬ (a = s ∧ b = t) := by
      rintro ⟨rfl, rfl⟩
      exact hab ⟨hs, ht⟩
    rw [setCell_of_ne hne]
    simp only [cells, hab, ↓reduceIte]
    exact if_neg hab

theorem writeCells (l : List (ℕ × ℕ)) (h : Shape core) (hl : ∀ c ∈ l, c.1 < core.n ∧ c.2 < core.n) :
    ∃ ds es, l.foldl (fun core c => core.writeCell c.1 c.2 d e) core =
        { core with dist := ds, edgeOf := es } ∧
      Shape { core with dist := ds, edgeOf := es } ∧
      ∀ a b, cells { core with dist := ds, edgeOf := es } a b =
        if (a, b) ∈ l then ⟨d, e⟩ else core.cells a b := by
  induction l generalizing core with
  | nil => exact ⟨core.dist, core.edgeOf, rfl, h, by simp⟩
  | cons c l ih =>
    obtain ⟨hc1, hc2⟩ := hl c (by simp)
    have hrest : ∀ c' ∈ l, c'.1 < (core.writeCell c.1 c.2 d e).n ∧ c'.2 < (core.writeCell c.1 c.2 d e).n :=
      fun c' hc' => hl c' (by simp [hc'])
    obtain ⟨ds, es, heq, hshape, hcells⟩ := ih h.writeCell hrest
    refine ⟨ds, es, heq, hshape, ?_⟩
    intro a b
    rw [show cells { core with dist := ds, edgeOf := es } a b = _ from hcells a b, cells_writeCell h hc1 hc2]
    by_cases hm : (a, b) ∈ l
    · simp [hm]
    · by_cases hhead : (a, b) = c
      · subst hhead
        simp
      · have hne : ¬ (a = c.1 ∧ b = c.2) := fun hh => hhead (Prod.ext hh.1 hh.2)
        simp [hm, hhead, setCell_of_ne hne]

section

variable {α : Type*} {new old : List α} {i j len k : ℕ}

theorem length_copySlice (hi : i + len ≤ new.length) (hj : j + len ≤ old.length) :
    (copySlice new old i j len).length = new.length := by
  simp only [copySlice, length_append, length_take, length_drop]
  omega

theorem getElem?_copySlice (hi : i + len ≤ new.length) (hj : j + len ≤ old.length) :
    (copySlice new old i j len)[k]? =
      if i ≤ k ∧ k < i + len then old[j + (k - i)]? else new[k]? := by
  have hlen : (new.take i ++ (old.drop j).take len).length = i + len := by
    simp only [length_append, length_take, length_drop]
    omega
  unfold copySlice
  rw [getElem?_append, hlen, getElem?_append, length_take, Nat.min_eq_left (show i ≤ new.length by omega)]
  by_cases h1 : k < i
  · rw [if_pos (by omega), if_pos h1, if_neg (by omega), getElem?_take_of_lt h1]
  · by_cases h2 : k < i + len
    · rw [if_pos h2, if_neg h1, if_pos (by omega), getElem?_take_of_lt (by omega), getElem?_drop]
    · rw [if_neg h2, if_neg (by omega), getElem?_drop]
      congr 1
      omega

theorem copyRows_spec (fill : α) {n cap newCap : ℕ} (hn : n ≤ cap) (hn' : n ≤ newCap) (hold : n * cap ≤ old.length) :
    (copyRows fill old n cap newCap).length = n * newCap ∧ ∀ r < n, ∀ c < n,
    (copyRows fill old n cap newCap)[r * newCap + c]? = old[r * cap + c]? := by
  have hrow : ∀ {w r : ℕ}, n ≤ w → r < n → r * w + n ≤ n * w := by
    intro w r hw hr
    have := Nat.mul_le_mul_right w (succ_le_of_lt hr)
    rw [succ_mul] at this
    omega
  have hmain : ∀ m ≤ n,
      ((List.range m).foldl (fun new r => copySlice new old (r * newCap) (r * cap) n)
        (List.replicate (n * newCap) fill)).length = n * newCap ∧
      ∀ r < m, ∀ c < n,
        ((List.range m).foldl (fun new r => copySlice new old (r * newCap) (r * cap) n)
          (List.replicate (n * newCap) fill))[r * newCap + c]? = old[r * cap + c]? := by
    intro m
    induction m with
    | zero => simp
    | succ m ih =>
      intro hm
      obtain ⟨hlen, hget⟩ := ih (by omega)
      rw [range_succ, foldl_append]
      simp only [foldl_cons, foldl_nil]
      have hi := hrow hn' (show m < n by omega)
      have hj := (hrow hn (show m < n by omega)).trans hold
      refine ⟨?_, ?_⟩
      · rw [length_copySlice (by rw [hlen]; exact hi) hj, hlen]
      · intro r hr c hc
        rw [getElem?_copySlice (by rw [hlen]; exact hi) hj]
        rcases Nat.lt_succ_iff_lt_or_eq.mp hr with hlt | rfl
        · have hmul := Nat.mul_le_mul_right newCap (succ_le_of_lt hlt)
          rw [succ_mul] at hmul
          rw [if_neg (by omega)]
          exact hget r hlt c hc
        · rw [if_pos (by omega)]
          congr 1
          omega
  obtain ⟨hlen, hget⟩ := hmain n (le_refl n)
  exact ⟨hlen, hget⟩

end

theorem Shape.relayout (h : Shape core) (hfull : core.n = core.cap) :
    Shape core.relayout ∧ core.relayout.cells = core.cells ∧ core.n < core.relayout.cap := by
  have hlt : core.n < core.relayout.cap := by
    show core.n < if core.cap = 0 then 4 else core.cap * 2
    split
    · omega
    · omega
  obtain ⟨hlen, hget⟩ := copyRows_spec dlInf h.le hlt.le h.size
  obtain ⟨hlen', hget'⟩ := copyRows_spec noEdge h.le hlt.le (h.same ▸ h.size)
  refine ⟨⟨hlt.le, hlen.ge, hlen'.trans hlen.symm⟩, ?_, hlt⟩
  funext a b
  by_cases hab : a < core.n ∧ b < core.n
  · have hd : core.relayout.dist[a * core.relayout.cap + b]? = core.dist[a * core.cap + b]? := hget a hab.1 b hab.2
    have he : core.relayout.edgeOf[a * core.relayout.cap + b]? = core.edgeOf[a * core.cap + b]? :=
      hget' a hab.1 b hab.2
    have hn : core.relayout.n = core.n := rfl
    simp only [cells, hn, hab, and_self, ↓reduceIte, distOf, edgeAt, cell, getD_eq_getElem?_getD, hd, he]
  · have hab' : ¬ (a < core.relayout.n ∧ b < core.relayout.n) := hab
    simp only [cells, hab, hab', ↓reduceIte]

theorem getElem?_resize {α : Type*} {l : List α} {len k : ℕ} {v : α} (h : l.length ≤ len)
    (hk : k < l.length) : (resize l len v)[k]? = l[k]? := by
  unfold resize
  rw [take_of_length_le h, getElem?_append_left hk]

theorem length_resize {α : Type*} {l : List α} {len : ℕ} {v : α} (h : l.length ≤ len) :
    (resize l len v).length = len := by
  simp only [resize, length_append, length_take, length_replicate]
  omega

theorem Shape.reserve (h : Shape core) (hlt : core.n < core.cap) :
    Shape { core.reserve with n := core.n + 1 } ∧ core.reserve.cells = core.cells := by
  unfold DenseDlCore.reserve
  dsimp only
  split
  · next hlen =>
    have hlen' : core.edgeOf.length ≤ (core.n + 1) * core.cap := h.same ▸ hlen.le
    refine ⟨⟨hlt, (length_resize hlen.le).ge, ?_⟩, ?_⟩
    · exact (length_resize hlen').trans (length_resize hlen.le).symm
    · funext a b
      by_cases hab : a < core.n ∧ b < core.n
      · have hk := h.cell_lt hab.1 hab.2
        have hd := getElem?_resize (v := dlInf) hlen.le hk
        have he := getElem?_resize (v := noEdge) hlen' (h.same ▸ hk)
        simp only [cell] at hd he
        simp only [cells, hab, and_self, ↓reduceIte, distOf, edgeAt, cell, getD_eq_getElem?_getD, hd, he]
      · simp only [cells, hab, ↓reduceIte]
  · next hlen => exact ⟨⟨hlt, not_lt.mp hlen, h.same⟩, rfl⟩

theorem internNode_spec (h : Shape core) :
    ∃ cap ds es, core.internNode =
        ({ core with n := core.n + 1, cap := cap, dist := ds, edgeOf := es }, core.n) ∧
      Shape { core with n := core.n + 1, cap := cap, dist := ds, edgeOf := es } ∧
      cells { core with n := core.n + 1, cap := cap, dist := ds, edgeOf := es } =
        setCell core.cells core.n core.n ⟨0, selfEdge⟩ := by
  obtain ⟨core₁, hcore₁, hshape₁, hcells₁, hlt, hrest₁⟩ :
      ∃ core₁, (if core.n = core.cap then core.relayout else core) = core₁ ∧ Shape core₁ ∧
        core₁.cells = core.cells ∧ core.n < core₁.cap ∧
        ∃ cap ds es, core₁ = { core with cap := cap, dist := ds, edgeOf := es } := by
    by_cases hfull : core.n = core.cap
    · obtain ⟨hs, hc, hl⟩ := h.relayout hfull
      exact ⟨core.relayout, by simp [hfull], hs, hc, hl, _, _, _, rfl⟩
    · exact ⟨core, by simp [hfull], h, rfl, lt_of_le_of_ne h.le hfull, _, _, _, rfl⟩
  obtain ⟨cap, ds₁, es₁, rfl⟩ := hrest₁
  obtain ⟨hshape₂, hcells₂⟩ := hshape₁.reserve hlt
  obtain ⟨ds₂, es₂, hcore₂⟩ : ∃ ds es, DenseDlCore.reserve
      { core with cap := cap, dist := ds₁, edgeOf := es₁ } =
        { core with cap := cap, dist := ds, edgeOf := es } := by
    unfold DenseDlCore.reserve
    dsimp only
    split
    · exact ⟨_, _, rfl⟩
    · exact ⟨_, _, rfl⟩
  rw [hcore₂] at hshape₂ hcells₂
  let row : List (ℕ × ℕ) := (List.range (core.n + 1)).map fun c => (core.n, c)
  let col : List (ℕ × ℕ) := (List.range core.n).map fun r => (r, core.n)
  obtain ⟨ds₃, es₃, hcore₃, hshape₃, hcells₃⟩ := writeCells (d := dlInf) (e := noEdge) row hshape₂ (by
    intro c hc
    obtain ⟨x, hx, rfl⟩ := mem_map.mp hc
    exact ⟨lt_succ_self _, mem_range.mp hx⟩)
  obtain ⟨ds₄, es₄, hcore₄, hshape₄, hcells₄⟩ := writeCells (d := dlInf) (e := noEdge) col hshape₃ (by
    intro c hc
    obtain ⟨x, hx, rfl⟩ := mem_map.mp hc
    exact ⟨(mem_range.mp hx).trans (lt_succ_self _), lt_succ_self _⟩)
  let core₄ : DenseDlCore := { core with n := core.n + 1, cap := cap, dist := ds₄, edgeOf := es₄ }
  have hwrite : (core₄.writeCell core.n core.n 0 selfEdge).cells =
      setCell core₄.cells core.n core.n ⟨0, selfEdge⟩ :=
    cells_writeCell hshape₄ (lt_succ_self _) (lt_succ_self _)
  refine ⟨cap, _, _, ?_, hshape₄.writeCell, hwrite.trans ?_⟩
  · unfold internNode
    rw [hcore₁]
    dsimp only
    rw [hcore₂]
    dsimp only
    simp only [row, foldl_map] at hcore₃
    simp only [col, foldl_map] at hcore₄
    rw [hcore₃, hcore₄]
    rfl
  · funext a b
    by_cases hself : a = core.n ∧ b = core.n
    · obtain ⟨rfl, rfl⟩ := hself
      simp
    · rw [setCell_of_ne hself, setCell_of_ne hself]
      -- a new pair was overwritten, an old one kept its cell
      rw [hcells₄]
      split
      · next hm =>
        obtain ⟨x, -, hx⟩ := mem_map.mp hm
        simp only [Prod.mk.injEq] at hx
        obtain ⟨-, rfl⟩ := hx
        simp [cells, Cell.unreachable]
      · next hm =>
        rw [hcells₃]
        split
        · next hm' =>
          obtain ⟨x, -, hx⟩ := mem_map.mp hm'
          simp only [Prod.mk.injEq] at hx
          obtain ⟨rfl, -⟩ := hx
          simp [cells, Cell.unreachable]
        · next hm' =>
          rw [← hcells₁, ← hcells₂]
          have hna : a ≠ core.n ∨ ¬ b < core.n + 1 := by
            by_contra hc
            simp only [not_or, not_not] at hc
            exact hm' (mem_map.mpr ⟨b, mem_range.mpr hc.2, by simp [hc.1]⟩)
          have hnb : b ≠ core.n ∨ ¬ a < core.n := by
            by_contra hc
            simp only [not_or, not_not] at hc
            exact hm (mem_map.mpr ⟨a, mem_range.mpr hc.2, by simp [hc.1]⟩)
          by_cases hab : a < core.n ∧ b < core.n
          · have ha' : a < core.n + 1 := by omega
            have hb' : b < core.n + 1 := by omega
            simp only [cells, hab, ha', hb', and_self, ↓reduceIte]
            rfl
          · have hab' : ¬ (a < core.n + 1 ∧ b < core.n + 1) := by omega
            simp only [cells, hab, hab', ↓reduceIte]

def undoCells (lim : ℕ) : List TrailedCell → (ℕ → ℕ → Cell) → ℕ → ℕ → Cell
  | [], f => f
  | c :: trail, f =>
    if trail.length + 1 > lim then undoCells lim trail (setCell f c.row c.col ⟨c.dist, c.edge⟩)
    else f

theorem undo_spec (lim : ℕ) (trail : List TrailedCell) (h : Shape core)
    (ht : ∀ c ∈ trail, c.row < core.n ∧ c.col < core.n) :
    ∃ ds es, undo lim trail core =
        { core with dist := ds, edgeOf := es, cellTrail := trail.drop (trail.length - lim) } ∧
      Shape { core with dist := ds, edgeOf := es } ∧
      cells { core with dist := ds, edgeOf := es } = undoCells lim trail core.cells := by
  induction trail generalizing core with
  | nil => exact ⟨core.dist, core.edgeOf, by simp [undo], h, rfl⟩
  | cons c trail ih =>
    obtain ⟨hr, hc⟩ := ht c (by simp)
    by_cases hlim : trail.length + 1 > lim
    · obtain ⟨ds, es, hundo, hshape, hcells⟩ := @ih (core.writeCell c.row c.col c.dist c.edge)
        h.writeCell (fun c' hc' => ht c' (by simp [hc']))
      refine ⟨ds, es, ?_, hshape, ?_⟩
      · have hdrop : (c :: trail).length - lim = trail.length - lim + 1 := by
          rw [length_cons]
          omega
        rw [undo, if_pos hlim, hundo, hdrop]
        rfl
      · rw [undoCells, if_pos hlim, ← cells_writeCell h hr hc]
        exact hcells
    · refine ⟨core.dist, core.edgeOf, ?_, h, ?_⟩
      · have hdrop : (c :: trail).length - lim = 0 := by
          rw [length_cons]
          omega
        rw [undo, if_neg hlim, hdrop]
        rfl
      · rw [undoCells, if_neg hlim]

end DenseDlCore

end Nixie.DiffLogic
