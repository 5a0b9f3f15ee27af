import Mathlib.Data.Finset.Card

/-!
Matchings of vertices to values of their own, alternating paths and the sets that refute a matching.
-/

namespace Nixie.Alternating

open List Function

variable {X : Type}

structure Selection (n : ℕ) (adjacent : ℕ → List X) (f : ℕ → X) : Prop where
  mem : ∀ v < n, f v ∈ adjacent v
  injective : ∀ v < n, ∀ w < n, f v = f w → v = w

structure Consistent (n : ℕ) (adjacent : ℕ → List X) (owner : X → Option ℕ) (assigned : ℕ → Option X) :
    Prop where
  assigned_of_owner : ∀ x v, owner x = some v → assigned v = some x
  owner_of_assigned : ∀ v x, assigned v = some x → owner x = some v
  bound : ∀ v x, assigned v = some x → v < n
  mem : ∀ v x, assigned v = some x → x ∈ adjacent v

/-- The values seen, the newest first, each with the vertex it was seen from: a vertex is the root or its
own value was seen before. -/
inductive Chain (n : ℕ) (adjacent : ℕ → List X) (assigned : ℕ → Option X) (root : ℕ) : List (X × ℕ) → Prop
  | nil : Chain n adjacent assigned root []
  | cons {via x v} (hfresh : x ∉ via.map Prod.fst) (hbound : v < n)
    (hmem : x ∈ adjacent v) (hlink : v = root ∨ ∃ p ∈ via.map Prod.fst, assigned v = some p)
    (hvia : Chain n adjacent assigned root via) : Chain n adjacent assigned root ((x, v) :: via)

variable {n root : ℕ} {adjacent : ℕ → List X} {owner : X → Option ℕ} {assigned : ℕ → Option X}
  {via : List (X × ℕ)}

namespace Chain

theorem nodup (h : Chain n adjacent assigned root via) : (via.map Prod.fst).Nodup := by
  induction h with
  | nil => exact nodup_nil
  | cons hfresh hbound hmem hlink hvia ih => exact nodup_cons.mpr ⟨hfresh, ih⟩

theorem of_suffix {older : List (X × ℕ)} (h : Chain n adjacent assigned root via) (hsuffix : older <:+ via) :
    Chain n adjacent assigned root older := by
  induction h with
  | nil =>
    rw [suffix_nil.mp hsuffix]
    exact .nil
  | cons hfresh hbound hmem hlink hvia ih =>
    rcases suffix_cons_iff.mp hsuffix with rfl | hsuffix
    · exact .cons hfresh hbound hmem hlink hvia
    · exact ih hsuffix

theorem exists_suffix {p : X} (hp : p ∈ via.map Prod.fst) : ∃ v older, (p, v) :: older <:+ via := by
  obtain ⟨⟨q, v⟩, hq, rfl⟩ := mem_map.mp hp
  obtain ⟨newer, older, rfl⟩ := append_of_mem hq
  exact ⟨v, older, suffix_append newer _⟩

end Chain

theorem Consistent.no_selection (h : Consistent n adjacent owner assigned)
    (hfree : assigned root = none) (reached : Finset ℕ) (seen : Finset X) (hmem : root ∈ reached)
    (hbound : ∀ v ∈ reached, v < n) (hclosed : ∀ v ∈ reached, ∀ x ∈ adjacent v, x ∈ seen)
    (howned : ∀ x ∈ seen, ∃ w ∈ reached, owner x = some w) (f : ℕ → X) : ¬ Selection n adjacent f := by
  intro hf
  have hle : reached.card ≤ seen.card := by
    refine Finset.card_le_card_of_injOn f (fun v hv => hclosed v hv _ (hf.mem v (hbound v hv))) ?_
    intro v hv w hw heq
    exact hf.injective v (hbound v hv) w (hbound w hw) heq
  have hlt : seen.card ≤ (reached.erase root).card := by
    refine Finset.card_le_card_of_injOn (fun x => (owner x).getD root) ?_ ?_
    · intro x hx
      obtain ⟨w, hw, howner⟩ := howned x hx
      have hne : w ≠ root := by
        rintro rfl
        rw [h.assigned_of_owner x w howner] at hfree
        cases hfree
      simpa [howner] using ⟨hw, hne⟩
    · intro x hx y hy heq
      obtain ⟨w, -, hw⟩ := howned x hx
      obtain ⟨u, -, hu⟩ := howned y hy
      simp only [hw, hu, Option.getD_some] at heq
      subst heq
      exact Option.some.inj ((h.assigned_of_owner x w hw).symm.trans (h.assigned_of_owner y w hu))
  have hpos := Finset.card_erase_lt_of_mem hmem
  omega

theorem assigned_update {v w : ℕ} {x y : X} (h : update assigned v (some x) w = some y) :
    w = v ∧ y = x ∨ w ≠ v ∧ assigned w = some y := by
  by_cases hw : w = v
  · subst hw
    rw [update_self] at h
    exact .inl ⟨rfl, (Option.some.inj h).symm⟩
  · rw [update_of_ne hw] at h
    exact .inr ⟨hw, h⟩

section

variable [DecidableEq X]

theorem lookup_of_mem (hnodup : (via.map Prod.fst).Nodup) {x : X} {v : ℕ} (h : (x, v) ∈ via) :
    via.lookup x = some v := by
  induction via with
  | nil => cases h
  | cons entry via ih =>
    obtain ⟨y, w⟩ := entry
    rw [map_cons, nodup_cons] at hnodup
    rw [lookup_cons]
    rcases mem_cons.mp h with heq | hmem
    · cases heq
      rw [beq_self_eq_true]
    · have hne : x ≠ y := by
        rintro rfl
        exact hnodup.1 (mem_map.mpr ⟨(x, v), hmem, rfl⟩)
      rw [beq_false_of_ne hne]
      exact ih hnodup.2 hmem

theorem lookup_isSome_iff {x : X} : (via.lookup x).isSome ↔ x ∈ via.map Prod.fst := by
  induction via with
  | nil => simp
  | cons entry via ih =>
    obtain ⟨y, w⟩ := entry
    rw [lookup_cons, map_cons, mem_cons]
    by_cases heq : x = y
    · simp [heq]
    · simp [heq, beq_false_of_ne heq, ih]

end

section

variable [DecidableEq X]

def Hole (n : ℕ) (adjacent : ℕ → List X) (owner : X → Option ℕ) (assigned : ℕ → Option X) (x : X) : Prop :=
  Consistent n adjacent (update owner x none) assigned

variable {x : X} {v : ℕ}

theorem Hole.of_free (h : Consistent n adjacent owner assigned) (hfree : owner x = none) :
    Hole n adjacent owner assigned x := by
  rwa [Hole, update_eq_self_iff.mpr hfree.symm]

section

variable (h : Hole n adjacent owner assigned x)
include h

theorem Hole.ne_of_assigned {w : ℕ} {y : X} (hw : assigned w = some y) : y ≠ x := by
  rintro rfl
  have howner := h.owner_of_assigned w y hw
  rw [update_self] at howner
  cases howner

theorem Hole.owner_of_assigned {w : ℕ} {y : X} (hw : assigned w = some y) : owner y = some w := by
  have howner := Consistent.owner_of_assigned h w y hw
  rwa [update_of_ne (h.ne_of_assigned hw)] at howner

theorem Hole.assigned_of_owner {w : ℕ} {y : X} (hne : y ≠ x) (hw : owner y = some w) : assigned w = some y := by
  refine Consistent.assigned_of_owner h y w ?_
  rwa [update_of_ne hne]

theorem Hole.assigned_of_update {w : ℕ} {y : X} (hkeep : ∀ p, assigned v = some p → y ≠ p)
    (howner : update owner x (some v) y = some w) : update assigned v (some x) w = some y := by
  by_cases hy : y = x
  · subst hy
    rw [update_self] at howner
    cases howner
    exact update_self ..
  · rw [update_of_ne hy] at howner
    have hold := h.assigned_of_owner hy howner
    have hne : w ≠ v := by
      rintro rfl
      exact hkeep y hold rfl
    rwa [update_of_ne hne]

theorem Hole.of_update (hv : v < n) (hmem : x ∈ adjacent v) {w : ℕ} {y : X}
    (hassigned : update assigned v (some x) w = some y) : w < n ∧ y ∈ adjacent w := by
  rcases assigned_update hassigned with ⟨rfl, rfl⟩ | ⟨-, hold⟩
  · exact ⟨hv, hmem⟩
  · exact ⟨Consistent.bound h w y hold, Consistent.mem h w y hold⟩

theorem Hole.fill (hv : v < n) (hmem : x ∈ adjacent v) (hnone : assigned v = none) :
    Consistent n adjacent (update owner x (some v)) (update assigned v (some x)) where
  assigned_of_owner y w howner := by
    refine h.assigned_of_update (fun p hp => ?_) howner
    rw [hnone] at hp
    cases hp
  owner_of_assigned w y hassigned := by
    rcases assigned_update hassigned with ⟨rfl, rfl⟩ | ⟨-, hold⟩
    · exact update_self ..
    · rw [update_of_ne (h.ne_of_assigned hold), h.owner_of_assigned hold]
  bound w y hassigned := (h.of_update hv hmem hassigned).1
  mem w y hassigned := (h.of_update hv hmem hassigned).2

theorem Hole.move (hv : v < n) (hmem : x ∈ adjacent v) {p : X} (hp : assigned v = some p) :
    Hole n adjacent (update owner x (some v)) (update assigned v (some x)) p where
  assigned_of_owner y w howner := by
    have hne : y ≠ p := by
      rintro rfl
      rw [update_self] at howner
      cases howner
    rw [update_of_ne hne] at howner
    refine h.assigned_of_update (fun q hq => ?_) howner
    cases hp.symm.trans hq
    exact hne
  owner_of_assigned w y hassigned := by
    rcases assigned_update hassigned with ⟨rfl, rfl⟩ | ⟨hw, hold⟩
    · rw [update_of_ne (h.ne_of_assigned hp).symm, update_self]
    · have hne : y ≠ p := by
        rintro rfl
        exact hw (Option.some.inj ((h.owner_of_assigned hold).symm.trans (h.owner_of_assigned hp)))
      rw [update_of_ne hne, update_of_ne (h.ne_of_assigned hold), h.owner_of_assigned hold]
  bound w y hassigned := (h.of_update hv hmem hassigned).1
  mem w y hassigned := (h.of_update hv hmem hassigned).2

end

end

end Nixie.Alternating
