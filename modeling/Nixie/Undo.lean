import Mathlib.Order.Nat

/-!
Undo trails. The last change stands first on a trail; going back to a limit undoes the changes
above it, and a change that was recorded is as if it had not been made.
-/

namespace Nixie.Undo

open Function

variable {ε α β : Type*}

def unwind (undo : ε → α → α) (limit : ℕ) : List ε → α → α
  | [], a => a
  | e :: trail, a => if limit < trail.length + 1 then unwind undo limit trail (undo e a) else a

def keep (limit : ℕ) (trail : List ε) : List ε := trail.drop (trail.length - limit)

section

variable {undo : ε → α → α} {limit : ℕ} {e : ε} {t t' t'' : List ε} {a a' a'' : α}

theorem unwind_cons (h : limit ≤ t.length) : unwind undo limit (e :: t) a = unwind undo limit t (undo e a) := by
  rw [unwind, if_pos (Nat.lt_succ_of_le h)]

@[simp]
theorem unwind_length : unwind undo t.length t a = a := by
  cases t with
  | nil => rfl
  | cons e t => rw [unwind, if_neg (by simp)]

theorem keep_cons (h : limit ≤ t.length) : keep limit (e :: t) = keep limit t := by
  unfold keep
  rw [List.length_cons, Nat.succ_sub h, List.drop_succ_cons]

@[simp]
theorem keep_length : keep t.length t = t := by
  simp [keep]

theorem unwind_map {undo' : ε → β → β} {f : α → β} (h : ∀ e a, undo' e (f a) = f (undo e a)) :
    unwind undo' limit t (f a) = f (unwind undo limit t a) := by
  induction t generalizing a with
  | nil => rfl
  | cons e t ih =>
    unfold unwind
    split
    · rw [h, ih]
    · rfl

structure Extends (undo : ε → α → α) (t : List ε) (a : α) (t' : List ε) (a' : α) : Prop where
  length : t.length ≤ t'.length
  keep : ∀ limit ≤ t.length, keep limit t' = keep limit t
  unwind : ∀ limit ≤ t.length, unwind undo limit t' a' = unwind undo limit t a

theorem Extends.refl : Extends undo t a t a := ⟨le_rfl, fun _ _ => rfl, fun _ _ => rfl⟩

theorem Extends.trans (h : Extends undo t a t' a') (h' : Extends undo t' a' t'' a'') :
    Extends undo t a t'' a'' where
  length := h.length.trans h'.length
  keep limit hl := (h'.keep limit (hl.trans h.length)).trans (h.keep limit hl)
  unwind limit hl := (h'.unwind limit (hl.trans h.length)).trans (h.unwind limit hl)

theorem Extends.cons (h : undo e a' = a) : Extends undo t a (e :: t) a' where
  length := by simp
  keep _ hl := keep_cons hl
  unwind _ hl := by rw [unwind_cons hl, h]

theorem Extends.keep_eq (h : Extends undo t a t' a') : Undo.keep t.length t' = t :=
  (h.keep _ le_rfl).trans keep_length

theorem Extends.unwind_eq (h : Extends undo t a t' a') : Undo.unwind undo t.length t' a' = a :=
  (h.unwind _ le_rfl).trans unwind_length

end

def truncate (n : ℕ) (default : β) (array : ℕ → β) : ℕ → β :=
  fun i => if i < n then array i else default

def setBelow (n i : ℕ) (b : β) (array : ℕ → β) : ℕ → β :=
  if i < n then update array i b else array

section

variable {n i : ℕ} {b b₀ : β} {array : ℕ → β}

theorem truncate_eq (h : ∀ i, n ≤ i → array i = b₀) : truncate n b₀ array = array := by
  funext i
  unfold truncate
  split
  · rfl
  · next hi => exact (h i (Nat.le_of_not_lt hi)).symm

theorem setBelow_truncate_update :
    setBelow n i (array i) (truncate n b₀ (update array i b)) = truncate n b₀ array := by
  unfold setBelow
  funext j
  by_cases hj : j = i
  · subst hj
    split <;> next hi => simp [truncate, hi]
  · split <;> simp [truncate, hj]

theorem setBelow_setBelow {c : β} : setBelow n i b (setBelow n i c array) = setBelow n i b array := by
  unfold setBelow
  split
  · rw [update_idem]
  · rfl

theorem truncate_update (h : n ≤ i) : truncate n b₀ (update array i b) = truncate n b₀ array := by
  funext j
  unfold truncate
  split
  · next hj => rw [update_of_ne (Nat.ne_of_lt (hj.trans_le h))]
  · rfl

end

structure TrailedLists (α : Type*) where
  lists : ℕ → List α := fun _ => []
  trail : List ℕ := []

namespace TrailedLists

def push (l : TrailedLists α) (tracked : Bool) (i : ℕ) (a : α) : TrailedLists α :=
  { lists := update l.lists i (l.lists i ++ [a])
    trail := if tracked then i :: l.trail else l.trail }

def dropLast (n i : ℕ) (lists : ℕ → List α) : ℕ → List α :=
  setBelow n i (lists i).dropLast lists

def rewind (l : TrailedLists α) (n limit : ℕ) : TrailedLists α :=
  { lists := unwind (dropLast n) limit l.trail (truncate n [] l.lists)
    trail := keep limit l.trail }

def Extends (n : ℕ) (l l' : TrailedLists α) : Prop :=
  Undo.Extends (dropLast n) l.trail (truncate n [] l.lists) l'.trail (truncate n [] l'.lists)

variable {l l' : TrailedLists α} {n limit i j : ℕ} {tracked : Bool} {a : α}

theorem dropLast_push : dropLast n i (truncate n [] (l.push tracked i a).lists) = truncate n [] l.lists := by
  have hlast (hi : i < n) :
      (truncate n [] (l.push tracked i a).lists i).dropLast = l.lists i := by
    simp [truncate, push, hi]
  unfold dropLast
  by_cases hi : i < n
  · rw [hlast hi]
    exact setBelow_truncate_update
  · rw [setBelow, if_neg hi]
    exact truncate_update (Nat.le_of_not_lt hi)

theorem extends_push : l.Extends n (l.push true i a) := Extends.cons dropLast_push

theorem Extends.rewind_eq (h : l.Extends n l') (hout : ∀ i, n ≤ i → l.lists i = []) :
    l'.rewind n l.trail.length = l := by
  unfold rewind
  rw [h.keep_eq, h.unwind_eq, truncate_eq hout]

@[simp]
theorem push_lists : (l.push tracked i a).lists j = if j = i then l.lists i ++ [a] else l.lists j := by
  simp [push, update_apply]

end TrailedLists

end Nixie.Undo
