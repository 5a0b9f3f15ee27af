import Nixie.Undo
import Mathlib.Data.Finset.Card

/-!
The union-find of the e-graph, with union by rank, path compression and an undo trail for both.
Elements beyond the size are their own parents.
-/

namespace Nixie.Euf

open Undo Function Finset Nat

inductive UndoEntry
  | union (loser winner : ℕ) (rankIncremented : Bool)
  | compress (node oldParent : ℕ)

structure UnionFind where
  parent : ℕ → ℕ := fun x => x
  rank : ℕ → ℕ := fun _ => 0
  size : ℕ := 0
  trail : List UndoEntry := []
  trailLimits : List ℕ := [0]

def findFrom (parent : ℕ → ℕ) : ℕ → ℕ → ℕ
  | 0, x => x
  | fuel + 1, x => if parent x = x then x else findFrom parent fuel (parent x)

namespace UnionFind

def inScope (uf : UnionFind) : Bool := 1 < uf.trailLimits.length

def findNoCompress (uf : UnionFind) (x : ℕ) : ℕ := findFrom uf.parent uf.size x

def sameNoCompress (uf : UnionFind) (x y : ℕ) : Bool := uf.findNoCompress x = uf.findNoCompress y

def compress (root : ℕ) : ℕ → ℕ → UnionFind → UnionFind
  | 0, _, uf => uf
  | fuel + 1, x, uf =>
    if uf.parent x = root then uf
    else
      compress root fuel (uf.parent x) { uf with
        parent := update uf.parent x root
        trail := if uf.inScope then .compress x (uf.parent x) :: uf.trail else uf.trail }

section

variable (uf : UnionFind)

def find (x : ℕ) : UnionFind × ℕ :=
  let root := uf.findNoCompress x
  (compress root uf.size x uf, root)

def same (x y : ℕ) : UnionFind × Bool :=
  let (uf, rootX) := uf.find x
  let (uf, rootY) := uf.find y
  (uf, rootX = rootY)

def link (loser winner : ℕ) (rankIncremented : Bool) : UnionFind :=
  { uf with
    parent := update uf.parent loser winner
    rank := if rankIncremented then update uf.rank winner (uf.rank winner + 1) else uf.rank
    trail := .union loser winner rankIncremented :: uf.trail }

def union (x y : ℕ) : UnionFind :=
  let rootX := uf.findNoCompress x
  let rootY := uf.findNoCompress y
  if rootX = rootY then uf
  else if uf.rank rootX < uf.rank rootY then uf.link rootX rootY false
  else if uf.rank rootY < uf.rank rootX then uf.link rootY rootX false
  else uf.link rootY rootX true

def add : UnionFind :=
  { uf with
    parent := update uf.parent uf.size uf.size
    rank := update uf.rank uf.size 0
    size := uf.size + 1 }

def push : UnionFind := { uf with trailLimits := uf.trail.length :: uf.trailLimits }

def undo : UndoEntry → (ℕ → ℕ) × (ℕ → ℕ) → (ℕ → ℕ) × (ℕ → ℕ)
  | .union loser winner rankIncremented, (parent, rank) =>
    (update parent loser loser,
      if rankIncremented then update rank winner (rank winner - 1) else rank)
  | .compress node oldParent, (parent, rank) => (update parent node oldParent, rank)

def pop : UnionFind :=
  match uf.trailLimits with
  | [] => uf
  | limit :: limits =>
    let state := unwind undo limit uf.trail (uf.parent, uf.rank)
    { uf with
      parent := state.1
      rank := state.2
      trail := keep limit uf.trail
      trailLimits := limits }

end

structure WF (uf : UnionFind) (n : ℕ) : Prop where
  lt : ∀ x < n, uf.parent x < n
  out : ∀ x, n ≤ x → uf.parent x = x ∧ uf.rank x = 0
  rank : ∀ x, uf.parent x ≠ x → uf.rank x < uf.rank (uf.parent x)
  size : n ≤ uf.size

variable {uf : UnionFind} {n x y fuel : ℕ}

def above (uf : UnionFind) (n x : ℕ) : Finset ℕ :=
  (Finset.range n).filter fun y => uf.rank x < uf.rank y

theorem WF.above_parent (h : uf.WF n) (hx : uf.parent x ≠ x) :
    (uf.above n (uf.parent x)).card < (uf.above n x).card := by
  have hlt := h.rank x hx
  have hxn : x < n := by
    by_contra hge
    exact hx (h.out x (Nat.le_of_not_lt hge)).1
  apply card_lt_card
  refine ssubset_iff_of_subset ?_ |>.mpr ⟨uf.parent x, ?_, ?_⟩
  · intro y hy
    obtain ⟨hyn, hy⟩ := mem_filter.mp hy
    exact mem_filter.mpr ⟨hyn, hlt.trans hy⟩
  · exact mem_filter.mpr ⟨mem_range.mpr (h.lt x hxn), hlt⟩
  · simp [above]

theorem WF.findFrom_fixed (h : uf.WF n) (hf : (uf.above n x).card ≤ fuel) :
    uf.parent (findFrom uf.parent fuel x) = findFrom uf.parent fuel x := by
  induction fuel generalizing x with
  | zero =>
    by_contra hne
    exact absurd (h.above_parent hne) (by simp only [findFrom]; omega)
  | succ fuel ih =>
    unfold findFrom
    split
    · next hx => exact hx
    · next hx => exact ih (le_of_lt_succ ((h.above_parent hx).trans_le hf))

theorem WF.above_le (h : uf.WF n) : (uf.above n x).card ≤ uf.size :=
  ((card_filter_le _ _).trans (card_range n).le).trans h.size

theorem WF.parent_root (h : uf.WF n) : uf.parent (uf.findNoCompress x) = uf.findNoCompress x :=
  h.findFrom_fixed h.above_le

variable {parent : ℕ → ℕ}

theorem findFrom_eq {f : ℕ → ℕ} (hroot : ∀ x, parent x = x → f x = x) (hstep : ∀ x, f (parent x) = f x)
    (hfix : parent (findFrom parent fuel x) = findFrom parent fuel x) : findFrom parent fuel x = f x := by
  induction fuel generalizing x with
  | zero => exact (hroot x hfix).symm
  | succ fuel ih =>
    unfold findFrom at hfix ⊢
    split at hfix
    · next hx =>
      rw [if_pos hx]
      exact (hroot x hx).symm
    · next hx =>
      rw [if_neg hx, ih hfix]
      exact hstep x

theorem findFrom_fixed (hx : parent x = x) : findFrom parent fuel x = x := by
  cases fuel with
  | zero => rfl
  | succ fuel => rw [findFrom, if_pos hx]

theorem findFrom_step (hx : parent x ≠ x) : findFrom parent (fuel + 1) x = findFrom parent fuel (parent x) := by
  rw [findFrom, if_neg hx]

theorem findFrom_succ (hfix : parent (findFrom parent fuel x) = findFrom parent fuel x) :
    findFrom parent (fuel + 1) x = findFrom parent fuel x := by
  induction fuel generalizing x with
  | zero => exact findFrom_fixed hfix
  | succ fuel ih =>
    by_cases hx : parent x = x
    · rw [findFrom_fixed hx, findFrom_fixed hx]
    · rw [findFrom_step hx] at hfix
      rw [findFrom_step hx, findFrom_step hx, ih hfix]

theorem root_of_fixed (hx : uf.parent x = x) : uf.findNoCompress x = x := findFrom_fixed hx

section

variable (h : uf.WF n)
include h

theorem WF.root_parent : uf.findNoCompress (uf.parent x) = uf.findNoCompress x := by
  by_cases hx : uf.parent x = x
  · rw [hx]
  · have habove : (uf.above n (uf.parent x)).card < uf.size := (h.above_parent hx).trans_le h.above_le
    unfold findNoCompress
    cases hs : uf.size with
    | zero => omega
    | succ size =>
      have hfix := h.findFrom_fixed (le_of_lt_succ (hs ▸ habove))
      rw [findFrom_succ hfix, findFrom_step hx]

theorem WF.root_unique {f : ℕ → ℕ} (hroot : ∀ x, uf.parent x = x → f x = x)
    (hstep : ∀ x, f (uf.parent x) = f x) : uf.findNoCompress x = f x :=
  findFrom_eq hroot hstep h.parent_root

@[simp]
theorem WF.root_root : uf.findNoCompress (uf.findNoCompress x) = uf.findNoCompress x := root_of_fixed h.parent_root

theorem WF.root_lt (hx : x < n) : uf.findNoCompress x < n := by
  have hchain : ∀ fuel x, x < n → findFrom uf.parent fuel x < n := by
    intro fuel
    induction fuel with
    | zero => exact fun x hx => hx
    | succ fuel ih =>
      intro x hx
      unfold findFrom
      split
      · exact hx
      · exact ih _ (h.lt x hx)
  exact hchain _ x hx

theorem WF.root_out (hx : n ≤ x) : uf.findNoCompress x = x := root_of_fixed (h.out x hx).1

theorem WF.rank_le_root : uf.rank x ≤ uf.rank (uf.findNoCompress x) := by
  have hchain : ∀ fuel x, uf.rank x ≤ uf.rank (findFrom uf.parent fuel x) := by
    intro fuel
    induction fuel with
    | zero => exact fun x => le_rfl
    | succ fuel ih =>
      intro x
      unfold findFrom
      split
      · rfl
      · next hx => exact (h.rank x hx).le.trans (ih _)
  exact hchain _ x

theorem WF.rank_lt_root (hx : uf.parent x ≠ x) : uf.rank x < uf.rank (uf.findNoCompress x) := by
  have hle := h.rank_le_root (x := uf.parent x)
  rw [h.root_parent] at hle
  exact (h.rank x hx).trans_le hle

end

variable {uf' : UnionFind}

theorem WF.root_eq (h' : uf'.WF n) {f : ℕ → ℕ} (hroot : ∀ x, uf'.parent x = x → f x = x)
    (hstep : ∀ x, f (uf'.parent x) = f x) : uf'.findNoCompress = f := funext fun _ => h'.root_unique hroot hstep

theorem WF.setRoot (h : uf.WF n) (hx : uf.parent x ≠ uf.findNoCompress x) (trail : List UndoEntry) :
    let uf' := { uf with parent := update uf.parent x (uf.findNoCompress x), trail := trail }
    uf'.WF n ∧ uf'.findNoCompress = uf.findNoCompress := by
  have hne : uf.parent x ≠ x := by
    intro hfix
    rw [root_of_fixed hfix] at hx
    exact hx hfix
  have hxn : x < n := by
    by_contra hge
    exact hne (h.out x (Nat.le_of_not_lt hge)).1
  intro uf'
  have hwf : uf'.WF n := by
    refine ⟨fun y hy => ?_, fun y hy => ?_, fun y hy => ?_, h.size⟩
    · show update uf.parent x _ y < n
      rw [update_apply]
      split
      · exact h.root_lt hxn
      · exact h.lt y hy
    · have hyx : y ≠ x := Nat.ne_of_gt (hxn.trans_le hy)
      show update uf.parent x _ y = y ∧ _
      rw [update_of_ne hyx]
      exact h.out y hy
    · by_cases hyx : y = x
      · subst hyx
        show uf.rank y < uf.rank (update uf.parent y _ y)
        rw [update_self]
        exact h.rank_lt_root hne
      · have hp : uf'.parent y = uf.parent y := update_of_ne hyx _ _
        rw [hp] at hy ⊢
        exact h.rank y hy
  refine ⟨hwf, hwf.root_eq (fun y hy => ?_) (fun y => ?_)⟩
  · by_cases hyx : y = x
    · subst hyx
      have hself : uf.findNoCompress y = y := by
        simpa [uf'] using hy
      exact hself
    · have hp : uf'.parent y = uf.parent y := update_of_ne hyx _ _
      exact root_of_fixed (hp ▸ hy)
  · by_cases hyx : y = x
    · subst hyx
      have hp : uf'.parent y = uf.findNoCompress y := update_self _ _ _
      rw [hp, h.root_root]
    · have hp : uf'.parent y = uf.parent y := update_of_ne hyx _ _
      rw [hp, h.root_parent]

def Extends (uf uf' : UnionFind) : Prop :=
  Undo.Extends undo uf.trail (uf.parent, uf.rank) uf'.trail (uf'.parent, uf'.rank)

structure Agrees (n : ℕ) (uf uf' : UnionFind) : Prop where
  wf : uf'.WF n
  root : uf'.findNoCompress = uf.findNoCompress
  size : uf'.size = uf.size
  trailLimits : uf'.trailLimits = uf.trailLimits
  extends_ : uf.inScope → uf.Extends uf'

theorem Agrees.refl (h : uf.WF n) : Agrees n uf uf := ⟨h, rfl, rfl, rfl, fun _ => .refl⟩

theorem Agrees.trans {uf'' : UnionFind} (h : Agrees n uf uf') (h' : Agrees n uf' uf'') : Agrees n uf uf'' where
  wf := h'.wf
  root := h'.root.trans h.root
  size := h'.size.trans h.size
  trailLimits := h'.trailLimits.trans h.trailLimits
  extends_ hs := (h.extends_ hs).trans (h'.extends_ (by simpa [inScope, h.trailLimits] using hs))

theorem WF.compress (h : uf.WF n) : Agrees n uf (compress (uf.findNoCompress x) fuel x uf) := by
  induction fuel generalizing x uf with
  | zero => exact .refl h
  | succ fuel ih =>
    unfold UnionFind.compress
    split
    · exact .refl h
    · next hx =>
      obtain ⟨hwf, hroot⟩ := h.setRoot hx (if uf.inScope then .compress x (uf.parent x) :: uf.trail
        else uf.trail)
      have hstep : Agrees n uf { uf with
          parent := update uf.parent x (uf.findNoCompress x)
          trail := if uf.inScope then .compress x (uf.parent x) :: uf.trail else uf.trail } := by
        refine ⟨hwf, hroot, rfl, rfl, fun hs => ?_⟩
        simp only [Extends, hs, ↓reduceIte]
        exact .cons (by simp [undo])
      have hrest := ih hwf (x := uf.parent x)
      rw [hroot, h.root_parent] at hrest
      exact hstep.trans hrest

theorem WF.find (h : uf.WF n) : Agrees n uf (uf.find x).1 := h.compress

@[simp]
theorem find_snd : (uf.find x).2 = uf.findNoCompress x := rfl

theorem WF.same (h : uf.WF n) : Agrees n uf (uf.same x y).1 := h.find.trans h.find.wf.find

theorem WF.same_snd (h : uf.WF n) : (uf.same x y).2 = uf.sameNoCompress x y := by
  have hroot := (h.find (x := x)).root
  simp only [UnionFind.same, find_snd, sameNoCompress, hroot]

structure Joined (n : ℕ) (uf uf' : UnionFind) (loser winner : ℕ) : Prop where
  wf : uf'.WF n
  root : ∀ x, uf'.findNoCompress x =
    if uf.findNoCompress x = loser then winner else uf.findNoCompress x
  size : uf'.size = uf.size
  trailLimits : uf'.trailLimits = uf.trailLimits
  extends_ : uf.Extends uf'

theorem extends_link {loser winner : ℕ} {rankIncremented : Bool} (hl : uf.parent loser = loser) :
    uf.Extends (uf.link loser winner rankIncremented) := by
  refine .cons ?_
  have hparent : update uf.parent loser loser = uf.parent := by
    rw [update_eq_self_iff, hl]
  cases rankIncremented <;> simp [link, undo, hparent]

theorem WF.link {loser winner : ℕ} {rankIncremented : Bool} (h : uf.WF n) (hln : loser < n) (hwn : winner < n)
    (hl : uf.parent loser = loser) (hw : uf.parent winner = winner) (hne : loser ≠ winner)
    (hrank : uf.rank loser < (uf.link loser winner rankIncremented).rank winner) :
    Joined n uf (uf.link loser winner rankIncremented) loser winner := by
  set uf' := uf.link loser winner rankIncremented with huf'
  have hparent (x : ℕ) : uf'.parent x = if x = loser then winner else uf.parent x := update_apply _ _ _ _
  have hle (x : ℕ) : uf.rank x ≤ uf'.rank x := by
    cases rankIncremented with
    | false => exact le_rfl
    | true =>
      simp only [huf', UnionFind.link, ↓reduceIte, update_apply]
      split
      · next hx => exact hx ▸ le_succ _
      · exact le_rfl
  have hsame (x : ℕ) (hx : x ≠ winner) : uf'.rank x = uf.rank x := by
    cases rankIncremented with
    | false => rfl
    | true => exact update_of_ne hx _ _
  have hwf : uf'.WF n := by
    refine ⟨fun x hx => ?_, fun x hx => ?_, fun x hx => ?_, h.size⟩
    · rw [hparent]
      split
      · exact hwn
      · exact h.lt x hx
    · rw [hparent, if_neg (Nat.ne_of_gt (hln.trans_le hx)), hsame x (Nat.ne_of_gt (hwn.trans_le hx))]
      exact h.out x hx
    · rw [hparent] at hx ⊢
      split at hx
      · next heq => rwa [if_pos heq, heq, hsame loser hne]
      · next hxl =>
        have hxw : x ≠ winner := fun heq => hx (heq ▸ hw)
        rw [if_neg hxl, hsame x hxw]
        exact (h.rank x hx).trans_le (hle _)
  refine ⟨hwf, congrFun (hwf.root_eq (fun x hx => ?_) (fun x => ?_)), rfl, rfl, extends_link hl⟩
  · rw [hparent] at hx
    split at hx
    · next heq => exact absurd (heq ▸ hx).symm hne
    · next hxl => rw [root_of_fixed hx, if_neg hxl]
  · rw [hparent]
    split
    · next heq => rw [heq, root_of_fixed hw, root_of_fixed hl, if_neg hne.symm, if_pos rfl]
    · rw [h.root_parent]

theorem WF.union (h : uf.WF n) (hx : x < n) (hy : y < n) (hne : uf.findNoCompress x ≠ uf.findNoCompress y) :
    ∃ loser winner, (loser = uf.findNoCompress x ∧ winner = uf.findNoCompress y ∨ loser = uf.findNoCompress y ∧
    winner = uf.findNoCompress x) ∧ Joined n uf (uf.union x y) loser winner := by
  have hxn := h.root_lt hx
  have hyn := h.root_lt hy
  have hxr := h.parent_root (x := x)
  have hyr := h.parent_root (x := y)
  simp only [UnionFind.union, if_neg hne]
  split
  · next hlt => exact ⟨_, _, .inl ⟨rfl, rfl⟩, h.link hxn hyn hxr hyr hne hlt⟩
  · next hle =>
    split
    · next hlt => exact ⟨_, _, .inr ⟨rfl, rfl⟩, h.link hyn hxn hyr hxr hne.symm hlt⟩
    · refine ⟨_, _, .inr ⟨rfl, rfl⟩, h.link hyn hxn hyr hxr hne.symm ?_⟩
      simp only [UnionFind.link, ↓reduceIte, update_self]
      omega

theorem WF.add_eq (h : uf.WF n) : uf.add = { uf with size := uf.size + 1 } := by
  obtain ⟨hparent, hrank⟩ := h.out uf.size h.size
  unfold add
  congr
  · rw [update_eq_self_iff, hparent]
  · rw [update_eq_self_iff, hrank]

theorem WF.mono {m : ℕ} (h : uf.WF n) (hm : n ≤ m) (hsize : m ≤ uf.size) : uf.WF m where
  lt x hx := by
    by_cases hxn : x < n
    · exact (h.lt x hxn).trans_le hm
    · rw [(h.out x (Nat.le_of_not_lt hxn)).1]
      exact hx
  out x hx := h.out x (hm.trans hx)
  rank := h.rank
  size := hsize

theorem WF.add (h : uf.WF n) : uf.add.WF (n + 1) := by
  rw [h.add_eq]
  have hgrown : ({ uf with size := uf.size + 1 } : UnionFind).WF n := ⟨h.lt, h.out, h.rank, h.size.trans (le_succ _)⟩
  exact hgrown.mono (le_succ n) (succ_le_succ h.size)

theorem WF.root_add (h : uf.WF n) : uf.add.findNoCompress = uf.findNoCompress := by
  have hwf := h.add
  rw [h.add_eq] at hwf ⊢
  exact hwf.root_eq (fun x hx => root_of_fixed hx) (fun x => h.root_parent)

theorem WF.extends_add (h : uf.WF n) : uf.Extends uf.add := by
  rw [h.add_eq]
  exact .refl

theorem Extends.pop_eq (h : uf.Extends uf') (hlimits : uf'.trailLimits = uf.trail.length :: uf.trailLimits) :
    uf'.pop = { uf with size := uf'.size } := by
  unfold pop
  simp only [hlimits, h.unwind_eq, h.keep_eq]

end UnionFind

end Nixie.Euf
