import Nixie.Undo
import Mathlib.Tactic.Common

/-!
Distinguished values of the e-graph. The summary at the root of a class is the value of one of its
members with that member; two values in one class are a conflict.
-/

namespace Nixie.Euf

open Undo Option Function

structure ClassValues where
  classValue : ℕ → Option (ℕ × ℕ) := fun _ => none
  valueSummaryTrail : List (ℕ × Option (ℕ × ℕ)) := []
  pendingValueConflict : Option (ℕ × ℕ) := none

namespace ClassValues

def addNode (values : ClassValues) (idx : ℕ) (value : Option ℕ) : ClassValues :=
  { values with
    classValue := update values.classValue idx (value.map fun v => (v, idx)) }

def valueConflict : Option (ℕ × ℕ) → Option (ℕ × ℕ) → Option (ℕ × ℕ)
  | some (x, wa), some (y, wb) => if x ≠ y then some (wa, wb) else none
  | _, _ => none

def mergeClasses (values : ClassValues) (inScope : Bool) (rootA rootB newRoot : ℕ) : ClassValues :=
  let va := values.classValue rootA
  let vb := values.classValue rootB
  let values := { values with
    pendingValueConflict := values.pendingValueConflict.or (valueConflict va vb) }
  let merged := va.or vb
  if merged = values.classValue newRoot then values
  else
    { values with
      classValue := update values.classValue newRoot merged
      valueSummaryTrail :=
        if inScope then (newRoot, values.classValue newRoot) :: values.valueSummaryTrail
        else values.valueSummaryTrail }

def undoSummary (n : ℕ) (entry : ℕ × Option (ℕ × ℕ)) (classValue : ℕ → Option (ℕ × ℕ)) :
    ℕ → Option (ℕ × ℕ) :=
  setBelow n entry.1 entry.2 classValue

def rewind (values : ClassValues) (n limit : ℕ) (pendingValueConflict : Option (ℕ × ℕ)) :
    ClassValues :=
  { classValue := unwind (undoSummary n) limit values.valueSummaryTrail
      (truncate n none values.classValue)
    valueSummaryTrail := keep limit values.valueSummaryTrail
    pendingValueConflict := pendingValueConflict }

def Extends (n : ℕ) (values values' : ClassValues) : Prop :=
  Undo.Extends (undoSummary n) values.valueSummaryTrail (truncate n none values.classValue)
    values'.valueSummaryTrail (truncate n none values'.classValue)

variable {values values' : ClassValues} {n idx rootA rootB newRoot otherRoot : ℕ} {inScope : Bool}
  {value : Option ℕ}

theorem extends_addNode (h : n ≤ idx) : values.Extends n (values.addNode idx value) := by
  unfold Extends addNode
  rw [truncate_update h]
  exact .refl

theorem extends_mergeClasses : values.Extends n (values.mergeClasses true rootA rootB newRoot) := by
  unfold mergeClasses
  dsimp only
  split
  · exact .refl
  · exact .cons setBelow_truncate_update

theorem Extends.rewind_eq (h : values.Extends n values') (hout : ∀ i, n ≤ i → values.classValue i = none) :
    values'.rewind n values.valueSummaryTrail.length values.pendingValueConflict = values := by
  unfold rewind
  rw [h.keep_eq, h.unwind_eq, truncate_eq hout]

theorem mergeClasses_classValue {r : ℕ} :
    (values.mergeClasses inScope rootA rootB newRoot).classValue r =
      if r = newRoot then (values.classValue rootA).or (values.classValue rootB)
      else values.classValue r := by
  unfold mergeClasses
  dsimp only
  split
  · next heq =>
    split
    · next hr => rw [hr, heq]
    · rfl
  · exact update_apply ..

theorem mergeClasses_pending : (values.mergeClasses inScope rootA rootB newRoot).pendingValueConflict =
    values.pendingValueConflict.or (valueConflict (values.classValue rootA) (values.classValue rootB)) := by
  unfold mergeClasses
  dsimp only
  split <;> rfl

structure Summarizes (mark : ℕ → Option ℕ) (root : ℕ → ℕ) (values : ClassValues) : Prop where
  witness : ∀ r v w, root r = r → values.classValue r = some (v, w) → root w = r ∧ mark w = some v
  quiet : values.pendingValueConflict = none →
    ∀ x v, mark x = some v → ∃ w, values.classValue (root x) = some (v, w)
  conflict : ∀ wa wb, values.pendingValueConflict = some (wa, wb) →
    root wa = root wb ∧ ∃ v v', mark wa = some v ∧ mark wb = some v' ∧ v ≠ v'

variable {mark : ℕ → Option ℕ} {root root' : ℕ → ℕ}

theorem Summarizes.pending_eq_none_iff (h : values.Summarizes mark root) :
    values.pendingValueConflict = none ↔ ∀ x y v v', mark x = some v → mark y = some v' → root x = root y →
    v = v' := by
  constructor
  · intro hp x y v v' hx hy heq
    obtain ⟨w, hw⟩ := h.quiet hp x v hx
    obtain ⟨w', hw'⟩ := h.quiet hp y v' hy
    rw [heq, hw'] at hw
    exact congrArg Prod.fst (some.inj hw).symm
  · intro hall
    cases hp : values.pendingValueConflict with
    | none => rfl
    | some pair =>
      obtain ⟨wa, wb⟩ := pair
      obtain ⟨heq, v, v', hv, hv', hne⟩ := h.conflict wa wb hp
      exact absurd (hall wa wb v v' hv hv' heq) hne

theorem valueConflict_eq_some {va vb : Option (ℕ × ℕ)} {wa wb : ℕ} (h : valueConflict va vb = some (wa, wb)) : ∃ x y, va
    = some (x, wa) ∧ vb = some (y, wb) ∧ x ≠ y := by
  unfold valueConflict at h
  split at h
  · split at h
    · next hne =>
      cases h
      exact ⟨_, _, rfl, rfl, hne⟩
    · cases h
  · cases h

theorem eq_of_valueConflict_eq_none {x y wa wb : ℕ}
    (h : valueConflict (some (x, wa)) (some (y, wb)) = none) : x = y := by
  by_contra hne
  rw [valueConflict, if_pos hne] at h
  cases h

theorem Summarizes.mergeClasses (h : values.Summarizes mark root)
    (hroots : ∀ r, r = rootA ∨ r = rootB ↔ r = newRoot ∨ r = otherRoot)
    (hA : root rootA = rootA) (hB : root rootB = rootB)
    (hroot' : ∀ x, root' x = if root x = otherRoot then newRoot else root x) :
    (values.mergeClasses inScope rootA rootB newRoot).Summarizes mark root' := by
  have hnew (x : ℕ) : root' x = newRoot ↔ root x = rootA ∨ root x = rootB := by
    rw [hroots, hroot']
    grind
  have hold (x : ℕ) (hx : root' x ≠ newRoot) : root' x = root x := by
    rw [hroot'] at hx ⊢
    grind
  refine ⟨fun r v w hr hv => ?_, fun hp x v hx => ?_, fun wa wb hp => ?_⟩
  · rw [mergeClasses_classValue] at hv
    split at hv
    · next hrn =>
      rw [or_eq_some_iff] at hv
      rcases hv with hv | ⟨-, hv⟩
      · obtain ⟨hw, hmark⟩ := h.witness _ v w hA hv
        exact ⟨hrn ▸ (hnew w).mpr (.inl hw), hmark⟩
      · obtain ⟨hw, hmark⟩ := h.witness _ v w hB hv
        exact ⟨hrn ▸ (hnew w).mpr (.inr hw), hmark⟩
    · next hrn =>
      have hr' : root r = r := (hold r (hr.symm ▸ hrn)).symm.trans hr
      obtain ⟨hw, hmark⟩ := h.witness r v w hr' hv
      refine ⟨?_, hmark⟩
      rw [hroot', hw, ← hr', ← hroot', hr, hr']
  · rw [mergeClasses_pending, or_eq_none_iff] at hp
    obtain ⟨hp, hconflict⟩ := hp
    obtain ⟨w, hw⟩ := h.quiet hp x v hx
    rw [mergeClasses_classValue]
    split
    · next hxn =>
      rcases (hnew x).mp hxn with hx | hx
      · exact ⟨w, by rw [← hx, hw]; rfl⟩
      · cases hva : values.classValue rootA with
        | none => exact ⟨w, by rw [← hx, hw]; rfl⟩
        | some pair =>
          obtain ⟨v', w'⟩ := pair
          rw [hva, ← hx, hw] at hconflict
          exact ⟨w', by rw [eq_of_valueConflict_eq_none hconflict]; rfl⟩
    · next hxn => exact ⟨w, by rw [hold x hxn, hw]⟩
  · rw [mergeClasses_pending, or_eq_some_iff] at hp
    rcases hp with hp | ⟨-, hp⟩
    · obtain ⟨heq, hmarks⟩ := h.conflict wa wb hp
      exact ⟨by rw [hroot', hroot', heq], hmarks⟩
    · obtain ⟨x, y, hx, hy, hne⟩ := valueConflict_eq_some hp
      obtain ⟨hwa, hmarka⟩ := h.witness _ x wa hA hx
      obtain ⟨hwb, hmarkb⟩ := h.witness _ y wb hB hy
      exact ⟨((hnew wa).mpr (.inl hwa)).trans ((hnew wb).mpr (.inr hwb)).symm, x, y, hmarka, hmarkb, hne⟩

theorem addNode_classValue {r : ℕ} : (values.addNode idx value).classValue r = if r =
    idx then value.map fun v => (v, idx) else values.classValue r :=
  update_apply ..

theorem Summarizes.addNode (h : values.Summarizes mark root) (hidx : root idx = idx)
    (hclass : ∀ x, root x = idx → x = idx) (hmark : mark idx = none) :
    (values.addNode idx value).Summarizes (update mark idx value) root := by
  refine ⟨fun r v w hr hv => ?_, fun hp x v hx => ?_, fun wa wb hp => ?_⟩
  · rw [addNode_classValue] at hv
    split at hv
    · next hri =>
      obtain ⟨v', hvalue, heq⟩ := map_eq_some_iff.mp hv
      cases heq
      exact ⟨hidx.trans hri.symm, by rw [update_self, hvalue]⟩
    · next hri =>
      obtain ⟨hw, hwmark⟩ := h.witness r v w hr hv
      have hwi : w ≠ idx := fun heq => hri (hw.symm.trans (heq ▸ hidx))
      exact ⟨hw, by rw [update_of_ne hwi, hwmark]⟩
  · rw [update_apply] at hx
    split at hx
    · next hxi => exact ⟨idx, by rw [addNode_classValue, hxi, hidx, if_pos rfl, hx]; rfl⟩
    · next hxi =>
      obtain ⟨w, hw⟩ := h.quiet hp x v hx
      exact ⟨w, by rw [addNode_classValue, if_neg fun heq => hxi (hclass x heq), hw]⟩
  · obtain ⟨heq, v, v', hv, hv', hne⟩ := h.conflict wa wb hp
    have hfresh (x u : ℕ) (hx : mark x = some u) : update mark idx value x = some u := by
      rw [update_of_ne, hx]
      rintro rfl
      rw [hmark] at hx
      cases hx
    exact ⟨heq, v, v', hfresh wa v hv, hfresh wb v' hv', hne⟩

end ClassValues

end Nixie.Euf
