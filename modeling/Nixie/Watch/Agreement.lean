import Nixie.Watch.Cursors

/-!
When the three scans of a watch list agree.
-/

namespace Nixie.Watch

open Nixie.Literal Nixie.Compaction WatchLists
open Nixie.Sat (Trail)

variable {ρ : Type} {onUnit : ℕ → ℕ → Core ρ → Core ρ} {falseLit lit r : ℕ} {w : Watcher}
  {watches kept rest : List Watcher} {s : Core ρ} {l l' : WatchLists} {pair : Option (ℕ × ℕ)}

/-- The clause is found in the `Vec` list exactly when it is found in the list that is in use. -/
def WatchLists.SameFound (l : WatchLists) (lit r : ℕ) : Prop :=
  ((l.get lit).any fun v => v.r == r) = ((l.iterCombined lit).any fun v => v.r == r)

def WatchLists.RepairAgrees (l : WatchLists) (w : Watcher) : Option (ℕ × ℕ) → Prop
  | none => True
  | some (a, b) =>
    l.SameFound (neg a) w.r ∧
      (l.addUnless iterCombined (neg a) { w with blocker := b }).SameFound (neg b) w.r

theorem addUnless_eq (h : l.SameFound lit w.r) :
    l.addUnless get lit w = l.addUnless iterCombined lit w := by
  unfold addUnless
  rw [h]

theorem repair_eq (h : l.RepairAgrees w pair) :
    l.repair get w pair = l.repair iterCombined w pair := by
  cases pair with
  | none => rfl
  | some p =>
    obtain ⟨a, b⟩ := p
    obtain ⟨ha, hb⟩ := h
    have hfirst : l.addUnless get (neg a) { w with blocker := b } =
        l.addUnless iterCombined (neg a) { w with blocker := b } := addUnless_eq ha
    rw [repair, repair, hfirst]
    exact addUnless_eq hb

def entries (r : ℕ) (list : List Watcher) : ℕ := list.countP fun v => v.r == r

/-- The lists of two runs that have looked into different lists for one clause: the counts of its
entries differ, and no later look-up can bring them together again. -/
structure Apart (lit r : ℕ) (l l' : WatchLists) : Prop where
  primary : l.csrPrimary = true
  primary' : l'.csrPrimary = true
  watches_eq : l.watches = l'.watches
  found : 1 ≤ entries r (l.csr lit)
  counts : ((l.get lit).any fun v => v.r == r) = false ∧ entries r (l.csr lit) < entries r (l'.csr lit) ∨
    ((l.get lit).any fun v => v.r == r) = true ∧ entries r (l'.csr lit) < entries r (l.csr lit)

theorem any_eq_true_iff_entries {list : List Watcher} : (list.any fun v => v.r == r) = true ↔ 1 ≤ entries r list := by
  rw [entries, List.one_le_countP_iff, List.any_eq_true]

theorem add_primary (h : l.csrPrimary = true) :
    l.add lit w = { l with csr := Function.update l.csr lit (l.csr lit ++ [w]) } := by
  rw [add, if_pos h]

variable {key : ℕ}

theorem entries_add (h : l.csrPrimary = true) :
    entries r ((l.add key w).csr lit) = entries r (l.csr lit) + if key = lit ∧ w.r = r then 1 else 0 := by
  rw [add_primary h]
  by_cases hkey : key = lit
  · subst hkey
    by_cases hr : w.r = r
    · simp [entries, hr]
    · simp [entries, hr]
  · simp [hkey, Function.update_of_ne (Ne.symm hkey)]

theorem add_csrPrimary : (l.add key w).csrPrimary = l.csrPrimary := by
  unfold add
  split <;> rfl

theorem add_watches (h : l.csrPrimary = true) : (l.add key w).watches = l.watches := by
  rw [add_primary h]

theorem Apart.add (h : Apart lit r l l') : Apart lit r (l.add key w) (l'.add key w) where
  primary := add_csrPrimary.trans h.primary
  primary' := add_csrPrimary.trans h.primary'
  watches_eq := by rw [add_watches h.primary, add_watches h.primary', h.watches_eq]
  found := by
    have hfound := h.found
    rw [entries_add h.primary]
    omega
  counts := by
    rw [WatchLists.get, add_watches h.primary, entries_add h.primary, entries_add h.primary']
    obtain ⟨hfound, hlt⟩ | ⟨hfound, hlt⟩ := h.counts
    · exact .inl ⟨hfound, by omega⟩
    · exact .inr ⟨hfound, by omega⟩

section

variable {view : WatchLists → ℕ → List Watcher} {key : ℕ}

theorem addUnless_csrPrimary : (l.addUnless view key w).csrPrimary = l.csrPrimary := by
  unfold addUnless
  split
  · rfl
  · exact add_csrPrimary

theorem addUnless_watches (h : l.csrPrimary = true) : (l.addUnless view key w).watches = l.watches := by
  unfold addUnless
  split
  · rfl
  · exact add_watches h

theorem entries_addUnless (h : l.csrPrimary = true) :
    entries r ((l.addUnless view key w).csr lit) = entries r (l.csr lit) +
      if ((view l key).any fun v => v.r == w.r) = false ∧ key = lit ∧ w.r = r then 1 else 0 := by
  unfold addUnless
  split
  · next hfound => simp [hfound]
  · next hfound =>
    rw [entries_add h]
    simp only [Bool.eq_false_of_not_eq_true hfound, true_and]

theorem Apart.addUnless (h : Apart lit r l l') :
    Apart lit r (l.addUnless iterCombined key w) (l'.addUnless get key w) := by
  have hsame : (l'.get key) = l.get key := by rw [WatchLists.get, WatchLists.get, h.watches_eq]
  have hfound := h.found
  have hlegacy : entries r ((l.addUnless iterCombined key w).csr lit) =
      entries r (l.csr lit) := by
    rw [entries_addUnless h.primary, if_neg, Nat.add_zero]
    rintro ⟨hnone, rfl, rfl⟩
    rw [iterCombined, if_pos h.primary, any_eq_true_iff_entries.mpr hfound] at hnone
    cases hnone
  refine ⟨addUnless_csrPrimary.trans h.primary, addUnless_csrPrimary.trans h.primary', ?_, ?_, ?_⟩
  · rw [addUnless_watches h.primary, addUnless_watches h.primary', h.watches_eq]
  · rw [hlegacy]
    exact hfound
  · rw [WatchLists.get, addUnless_watches h.primary, hlegacy, entries_addUnless h.primary', hsame]
    obtain ⟨hget, hlt⟩ | ⟨hget, hlt⟩ := h.counts
    · exact .inl ⟨hget, by omega⟩
    · refine .inr ⟨hget, ?_⟩
      rw [if_neg, Nat.add_zero]
      · exact hlt
      · rintro ⟨hnone, rfl, rfl⟩
        rw [hget] at hnone
        cases hnone

end

theorem Apart.repair (h : Apart lit r l l') :
    Apart lit r (l.repair iterCombined w pair) (l'.repair get w pair) := by
  cases pair with
  | none => exact h
  | some p => exact h.addUnless.addUnless

theorem csrPrimary_of_not_sameFound (h : ¬ l.SameFound lit r) : l.csrPrimary = true := by
  by_contra hprimary
  rw [Bool.not_eq_true] at hprimary
  refine h ?_
  rw [WatchLists.SameFound, iterCombined, hprimary]
  rfl

theorem apart_of_not_sameFound (h : ¬ l.SameFound lit w.r) :
    Apart lit w.r (l.addUnless iterCombined lit w) (l.addUnless get lit w) := by
  have hprimary := csrPrimary_of_not_sameFound h
  have hview : l.iterCombined lit = l.csr lit := by rw [iterCombined, if_pos hprimary]
  have hlegacy : entries w.r ((l.addUnless iterCombined lit w).csr lit) =
      entries w.r (l.csr lit) + if ((l.csr lit).any fun v => v.r == w.r) = false then 1 else 0 := by
    rw [entries_addUnless hprimary, hview]
    simp only [and_self, and_true]
  have hcursor : entries w.r ((l.addUnless get lit w).csr lit) =
      entries w.r (l.csr lit) + if ((l.get lit).any fun v => v.r == w.r) = false then 1 else 0 := by
    rw [entries_addUnless hprimary]
    simp only [and_self, and_true]
  rw [WatchLists.SameFound, hview] at h
  refine ⟨addUnless_csrPrimary.trans hprimary, addUnless_csrPrimary.trans hprimary, ?_, ?_, ?_⟩
  · rw [addUnless_watches hprimary, addUnless_watches hprimary]
  · rw [hlegacy]
    by_cases hcsr : ((l.csr lit).any fun v => v.r == w.r) = true
    · exact Nat.le_add_right_of_le (any_eq_true_iff_entries.mp hcsr)
    · rw [if_pos (Bool.eq_false_of_not_eq_true hcsr)]
      exact Nat.le_add_left 1 _
  · rw [WatchLists.get, addUnless_watches hprimary, hlegacy, hcursor]
    cases hget : (l.get lit).any fun v => v.r == w.r with
    | false =>
      rw [hget] at h
      have hcsr := Bool.eq_true_of_not_eq_false (Ne.symm h)
      exact .inl ⟨hget, by simp [hcsr]⟩
    | true =>
      rw [hget] at h
      have hcsr := Bool.eq_false_of_not_eq_true (Ne.symm h)
      exact .inr ⟨hget, by simp [hcsr]⟩

theorem exists_apart_of_not_repairAgrees (h : ¬ l.RepairAgrees w pair) :
    ∃ lit r, Apart lit r (l.repair iterCombined w pair) (l.repair get w pair) := by
  cases pair with
  | none => exact absurd trivial h
  | some p =>
    obtain ⟨a, b⟩ := p
    by_cases ha : l.SameFound (neg a) w.r
    · have hb : ¬ (l.addUnless iterCombined (neg a) { w with blocker := b }).SameFound
          (neg b) w.r := fun hb => h ⟨ha, hb⟩
      have hfirst : l.addUnless get (neg a) { w with blocker := b } =
          l.addUnless iterCombined (neg a) { w with blocker := b } := addUnless_eq ha
      refine ⟨neg b, w.r, ?_⟩
      rw [repair, repair, hfirst]
      exact apart_of_not_sameFound (w := { w with blocker := a }) hb
    · exact ⟨neg a, w.r, (apart_of_not_sameFound (w := { w with blocker := b }) ha).addUnless⟩

def VisitAgrees (falseLit : ℕ) (s : Core ρ) (l : WatchLists) (w : Watcher) : Prop :=
  if s.trail.litVal w.blocker > 0 then True
  else
    match s.clauses w.r with
    | none => True
    | some c =>
      match examine s.trail falseLit c with
      | .repair pair => l.RepairAgrees w pair
      | _ => True

def RepairsAgree (onUnit : ℕ → ℕ → Core ρ → Core ρ) (falseLit : ℕ) :
    List Watcher → Core ρ → WatchLists → Prop
  | [], _, _ => True
  | w :: rest, s, l =>
    VisitAgrees falseLit s l w ∧
      match visit iterCombined falseLit s l w with
      | .keep _ s l => RepairsAgree onUnit falseLit rest s l
      | .drop s l => RepairsAgree onUnit falseLit rest s l
      | .conflict _ _ _ _ => True
      | .unit first reason s l =>
        RepairsAgree onUnit falseLit rest (onUnit first reason (s.assign first reason)) l

inductive Alike (P : WatchLists → WatchLists → Prop) : Reaction ρ → Reaction ρ → Prop
  | keep {b s l l'} : P l l' → Alike P (.keep b s l) (.keep b s l')
  | drop {s : Core ρ} {l l' : WatchLists} : P l l' → Alike P (.drop s l) (.drop s l')
  | conflict {first reason s l l'} :
    P l l' → Alike P (.conflict first reason s l) (.conflict first reason s l')
  | unit {first reason : ℕ} {s : Core ρ} {l l' : WatchLists} :
    P l l' → Alike P (.unit first reason s l) (.unit first reason s l')

theorem visit_apart (h : Apart lit r l l') :
    Alike (Apart lit r) (visit iterCombined falseLit s l w) (visit get falseLit s l' w) := by
  unfold visit
  split
  · exact .keep h
  split
  · exact .drop h
  split
  · exact .drop h.repair
  · exact .keep h
  · exact .drop h.add
  · split
    · exact .conflict h
    · exact .unit h

theorem visit_eq (h : VisitAgrees falseLit s l w) :
    visit get falseLit s l w = visit iterCombined falseLit s l w := by
  unfold VisitAgrees at h
  unfold visit
  split
  · rfl
  · next hblocker =>
    rw [if_neg hblocker] at h
    revert h
    cases s.clauses w.r with
    | none => exact fun _ => rfl
    | some c =>
      dsimp only
      cases examine s.trail falseLit c with
      | repair pair => exact fun h => congrArg (Reaction.drop s) (repair_eq h)
      | park c b => exact fun _ => rfl
      | move c watched first => exact fun _ => rfl
      | stuck c first => exact fun _ => rfl

theorem exists_alike_of_not_visitAgrees (h : ¬ VisitAgrees falseLit s l w) :
    ∃ lit r, Alike (Apart lit r) (visit iterCombined falseLit s l w)
    (visit get falseLit s l w) := by
  unfold VisitAgrees at h
  unfold visit
  by_cases hblocker : s.trail.litVal w.blocker > 0
  · rw [if_pos hblocker] at h
    exact absurd trivial h
  · rw [if_neg hblocker] at h ⊢
    rw [if_neg hblocker]
    revert h
    cases s.clauses w.r with
    | none => exact fun h => absurd trivial h
    | some c =>
      dsimp only
      cases examine s.trail falseLit c with
      | repair pair =>
        intro h
        obtain ⟨lit, r, hapart⟩ := exists_apart_of_not_repairAgrees h
        exact ⟨lit, r, .drop hapart⟩
      | park c b => exact fun h => absurd trivial h
      | move c watched first => exact fun h => absurd trivial h
      | stuck c first => exact fun h => absurd trivial h

theorem walk_apart (h : Apart lit r l l') (kept rest : List Watcher) (s : Core ρ) (onUnit : ℕ → ℕ → Core ρ → Core ρ)
    (falseLit : ℕ) : Apart lit r (walk iterCombined onUnit falseLit kept rest s l).2.2.2
    (walk get onUnit falseLit kept rest s l').2.2.2 := by
  induction rest generalizing kept s l l' with
  | nil => exact h
  | cons w rest ih =>
    have halike := @visit_apart ρ falseLit lit r w s l l' h
    rw [walk, walk]
    generalize visit iterCombined falseLit s l w = x at halike ⊢
    generalize visit get falseLit s l' w = y at halike ⊢
    cases halike with
    | keep h => exact ih h _ _
    | drop h => exact ih h _ _
    | conflict h => exact h
    | unit h => exact ih h _ _

theorem Apart.ne (h : Apart lit r l l') : l ≠ l' := by
  rintro rfl
  obtain ⟨-, hlt⟩ | ⟨-, hlt⟩ := h.counts
  · exact lt_irrefl _ hlt
  · exact lt_irrefl _ hlt

theorem walk_ne_of_apart (h : Apart lit r l l') : walk get onUnit falseLit kept rest s l' ≠ walk
    iterCombined onUnit falseLit kept rest s l := by
  intro heq
  refine (walk_apart h kept rest s onUnit falseLit).ne ?_
  rw [heq]

theorem walk_eq_iff : walk get onUnit falseLit kept rest s l =
    walk iterCombined onUnit falseLit kept rest s l ↔ RepairsAgree onUnit falseLit rest s l := by
  induction rest generalizing kept s l with
  | nil => exact ⟨fun _ => trivial, fun _ => rfl⟩
  | cons w rest ih =>
    rw [RepairsAgree]
    by_cases hvisit : VisitAgrees falseLit s l w
    · rw [walk, walk, visit_eq hvisit, and_iff_right hvisit]
      cases visit iterCombined falseLit s l w with
      | keep b s l => exact ih
      | drop s l => exact ih
      | conflict first reason s l => exact ⟨fun _ => trivial, fun _ => rfl⟩
      | unit first reason s l => exact ih
    · refine ⟨fun heq => ?_, fun h => absurd h.1 hvisit⟩
      obtain ⟨lit, r, halike⟩ := exists_alike_of_not_visitAgrees hvisit
      rw [walk, walk] at heq
      generalize visit iterCombined falseLit s l w = x at halike heq
      generalize visit get falseLit s l w = y at halike heq
      cases halike with
      | keep h => exact absurd heq (walk_ne_of_apart h)
      | drop h => exact absurd heq (walk_ne_of_apart h)
      | conflict h => exact absurd (congrArg (fun x => x.2.2.2) heq) (Ne.symm h.ne)
      | unit h => exact absurd heq (walk_ne_of_apart h)

/-- The cursor kernel and, where no work follows a unit, the list kernel with or without its prefilter
leave the entries, the conflict, the trail, the clauses and the other lists as the loop does, exactly
when the repairs of the scan do not depend on the lists they look into. -/
theorem kernels_agree_iff (onUnit : ℕ → ℕ → Core ρ → Core ρ) (falseLit : ℕ) (simd : Bool)
    (watches : List Watcher) (s : Core ρ) (l : WatchLists) :
    (cursorKernel onUnit falseLit watches s l).result = (legacy onUnit falseLit watches s l).result ∧
        (listKernel falseLit simd watches s l).result =
          (legacy (fun _ _ s => s) falseLit watches s l).result ↔
      RepairsAgree onUnit falseLit watches s l := by
  rw [cursorKernel_result, legacy_result, listKernel_result, legacy_result, walk_eq_iff]
  exact and_iff_left rfl

/-- With the CSR lists in use, a stale watcher of a clause that its two literals watch already. -/
theorem kernels_disagree_stale_watcher :
    let s : Core Unit :=
      ⟨{}, Function.update (fun _ => none) 0 (some ⟨[2, 4, 6], 2, 7⟩), ()⟩
    let l : WatchLists := ⟨true, fun _ => [], fun lit => if lit = 3 ∨ lit = 5 then [⟨0, 6⟩] else []⟩
    (cursorKernel (fun _ _ s => s) 8 [⟨0, 10⟩] s l).result ≠
      (legacy (fun _ _ s => s) 8 [⟨0, 10⟩] s l).result := by
  intro s l heq
  have hcount := congrArg (fun x => (x.2.2.2.csr 3).length) heq
  revert hcount
  decide

end Nixie.Watch
