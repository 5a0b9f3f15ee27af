import Nixie.Watch.Legacy

/-!
The cursor kernel and the list kernel carry out the same walk over the entries: the one stops at
every unit, the other assigns it and skips the leading run of true blockers.
-/

namespace Nixie.Watch

open Nixie.Literal Nixie.Compaction List WatchLists
open Nixie.Sat (Trail)

variable {ρ : Type} {onUnit : ℕ → ℕ → Core ρ → Core ρ} {falseLit n read write : ℕ} {w : Watcher}
  {watches kept rest : List Watcher} {s : Core ρ} {l : WatchLists} {compact : Bool}
  {view : WatchLists → ℕ → List Watcher}

def target (compact : Bool) (read write : ℕ) : ℕ := if compact then write else read

def keepEntry (compact : Bool) (watches : List Watcher) (read write : ℕ) (w : Watcher) :
    Option ℕ → List Watcher
  | none => if compact then watches.set write w else watches
  | some b => park compact watches read write w b

theorem compacts_keepEntry (h : Compacts watches (target compact read write) read kept (w :: rest)) (b : Option ℕ) :
    Compacts (keepEntry compact watches read write w b) (target compact read write + 1) (read + 1)
    (kept ++ [withBlocker w b]) rest := by
  cases compact with
  | false =>
    replace h : Compacts watches read read kept (w :: rest) := h
    cases b with
    | none => exact h.keep_same
    | some b =>
      have hset := modify_eq_set h.getElem?_read fun v => { v with blocker := b }
      have hkeep := h.keep { w with blocker := b }
      rw [← hset] at hkeep
      exact hkeep
  | true =>
    replace h : Compacts watches write read kept (w :: rest) := h
    cases b with
    | none => exact h.keep w
    | some b =>
      have hlt : write < watches.length := Nat.lt_of_le_of_lt h.write_le h.read_lt
      have hget : (watches.set write w)[write]? = some w := getElem?_set_self hlt
      have hset := modify_eq_set hget fun v => { v with blocker := b }
      have hkeep := h.keep { w with blocker := b }
      rw [set_set] at hset
      rw [← hset] at hkeep
      exact hkeep

theorem scan_succ (hw : watches.getD read default = w) :
    scan falseLit compact (n + 1) read write watches s l =
      match visit get falseLit s l w with
      | .keep b s l =>
        scan falseLit compact n (read + 1) (if compact then write + 1 else write)
          (keepEntry compact watches read write w b) s l
      | .drop s l => scan falseLit true n (read + 1) (target compact read write) watches s l
      | .conflict first reason s l =>
        let kept := keepEntry compact watches read write w (some first)
        let nextWrite := target compact read write + 1
        let copied := if compact then copyWithin kept (read + 1) nextWrite else kept
        ⟨.conflict reason, ⟨copied.length, nextWrite + copied.length - read - 1⟩, copied, s, l⟩
      | .unit first reason s l =>
        ⟨.unit first reason, ⟨read + 1, target compact read write + 1⟩,
          keepEntry compact watches read write w (some first), s, l⟩ := by
  rw [scan, hw, visit]
  by_cases hblocker : s.trail.litVal w.blocker > 0
  · simp only [hblocker, if_true]
    cases compact with
    | false => rfl
    | true => rfl
  · simp only [hblocker, if_false]
    cases s.clauses w.r with
    | none => rfl
    | some c =>
      dsimp only
      cases examine s.trail falseLit c with
      | repair pair => rfl
      | park c b => rfl
      | move c watched first => rfl
      | stuck c first =>
        by_cases hfirst : (s.setClause w.r c).trail.litVal first < 0
        · simp only [hfirst, if_true]
          rfl
        · simp only [hfirst, if_false]
          rfl

@[simp]
theorem length_keepEntry {b : Option ℕ} : (keepEntry compact watches read write w b).length = watches.length := by
  cases b with
  | none => cases compact <;> simp [keepEntry]
  | some b => cases compact <;> simp [keepEntry, park]

/-- What `advance` has left to do: nothing, or the rest of the walk after the unit. -/
def Advance.Meets (onUnit : ℕ → ℕ → Core ρ → Core ρ) (falseLit n : ℕ) (a : Advance ρ)
    (result : List Watcher × Option ℕ × Core ρ × WatchLists) : Prop :=
  match a.step with
  | .done => (a.watches.take a.cursor.write, none, a.core, a.lists) = result
  | .conflict reason => (a.watches.take a.cursor.write, some reason, a.core, a.lists) = result
  | .unit literal reason =>
    ∃ kept rest, Compacts a.watches a.cursor.write a.cursor.read kept rest ∧ rest.length < n ∧
      walk get onUnit falseLit kept rest
        (onUnit literal reason (a.core.assign literal reason)) a.lists = result

theorem take_conflict (h : Compacts watches (target compact read write) read kept (w :: rest)) {first : ℕ} :
    let entries := keepEntry compact watches read write w (some first)
    let nextWrite := target compact read write + 1
    let copied := if compact then copyWithin entries (read + 1) nextWrite else entries
    copied.take (nextWrite + copied.length - read - 1) =
      kept ++ withBlocker w (some first) :: rest := by
  have hkeep := compacts_keepEntry h (some first)
  have hlt := h.read_lt
  cases compact with
  | false =>
    replace hkeep : Compacts _ (read + 1) (read + 1) _ rest := hkeep
    have hall := hkeep.eq_append
    simp only [target, Bool.false_eq_true, if_false, length_keepEntry]
    rw [take_of_length_le (by rw [length_keepEntry]; omega), hall, append_assoc, singleton_append]
  | true =>
    simp only [target, if_true] at hkeep ⊢
    have hlength := hkeep.length_copyWithin (by rw [length_keepEntry]; omega)
    have htake := hkeep.take_copyWithin
    rw [length_keepEntry] at hlength htake
    have hwrite : write + 1 + watches.length - read - 1 = write + 1 + (watches.length - (read + 1)) := by
      omega
    rw [hlength, hwrite, htake, append_assoc, singleton_append]

theorem scan_meets (h : Compacts watches (target compact read write) read kept rest) (hn : rest.length ≤ n) :
    (scan falseLit compact rest.length read write watches s l).Meets onUnit falseLit n
    (walk get onUnit falseLit kept rest s l) := by
  induction rest generalizing compact watches read write kept s l with
  | nil =>
    rw [length_nil, scan, walk]
    cases compact with
    | false =>
      replace h : Compacts watches read read kept [] := h
      have hall := h.eq_append
      rw [append_nil] at hall
      simp only [Advance.Meets, Bool.false_eq_true, if_false, take_length, hall]
    | true =>
      replace h : Compacts watches write read kept [] := h
      simp only [Advance.Meets, if_true, h.kept_eq]
  | cons w rest ih =>
    rw [length_cons] at hn
    rw [length_cons, scan_succ (h.getD_read default), walk]
    cases visit get falseLit s l w with
    | keep b s l =>
      refine ih ?_ (by omega)
      have htarget : target compact (read + 1) (if compact then write + 1 else write) =
          target compact read write + 1 := by
        cases compact <;> rfl
      rw [htarget]
      exact compacts_keepEntry h b
    | drop s l => exact ih h.skip (by omega)
    | conflict first reason s l =>
      simp only [Advance.Meets]
      rw [take_conflict h]
    | unit first reason s l => exact ⟨_, _, compacts_keepEntry h (some first), by omega, rfl⟩

theorem scanWatchList_result {k : Cursor} (h : Compacts watches k.write k.read kept rest) (hn : rest.length ≤ n) :
    (scanWatchList onUnit falseLit n k watches s l).result = walk get onUnit falseLit kept rest s l := by
  induction n generalizing k watches kept rest s l with
  | zero =>
    obtain rfl := eq_nil_of_length_eq_zero (Nat.le_zero.mp hn)
    rw [scanWatchList, ScanEnd.result, h.kept_eq]
    rfl
  | succ n ih =>
    rw [scanWatchList]
    split
    · next hread =>
      have htarget : target (k.write ≠ k.read) k.read k.write = k.write := by
        by_cases heq : k.write = k.read
        · simp [target, heq]
        · simp [target, heq]
      have hmeets : (k.advance falseLit watches s l).Meets onUnit falseLit (n + 1)
          (walk get onUnit falseLit kept rest s l) := by
        rw [Cursor.advance, ← h.length_rest]
        exact scan_meets (htarget.symm ▸ h) hn
      dsimp only
      generalize k.advance falseLit watches s l = a at hmeets ⊢
      obtain ⟨step, cursor, watches, s, l⟩ := a
      cases step with
      | done => exact hmeets
      | conflict reason => exact hmeets
      | unit literal reason =>
        obtain ⟨kept', rest', hkept, hlt, hwalk⟩ := hmeets
        exact (ih hkept (Nat.le_of_lt_succ hlt)).trans hwalk
    · next hread =>
      have hnil : rest = [] := eq_nil_of_length_eq_zero (by rw [h.length_rest]; omega)
      subst hnil
      rw [ScanEnd.result, h.kept_eq]
      rfl

theorem cursorKernel_result : (cursorKernel onUnit falseLit watches s l).result =
    walk get onUnit falseLit [] watches s l :=
  scanWatchList_result (compacts_start watches) le_rfl

section

theorem assignUndefined_eq {lit reason : ℕ} : s.assignUndefined lit reason = s.assign lit reason := rfl

def WatchCursor.Stands (compact : Bool) (k : WatchCursor) (kept rest : List Watcher) : Prop :=
  Compacts k.slice (target compact k.read k.write) k.read kept rest

variable {k : WatchCursor}

theorem WatchCursor.Stands.keep (h : k.Stands compact kept (w :: rest)) (b : Option ℕ) :
    ((k.next compact).keep compact w b).Stands compact (kept ++ [withBlocker w b]) rest := by
  have hkeep := compacts_keepEntry h b
  cases compact with
  | false =>
    cases b with
    | none => exact hkeep
    | some b => exact hkeep
  | true =>
    have hset := Compacts.keep h (withBlocker w b)
    cases b with
    | none => exact hset
    | some b => exact hset

theorem WatchCursor.Stands.remove (h : k.Stands compact kept (w :: rest)) : (k.next compact).Stands true kept rest := by
  cases compact with
  | false => exact Compacts.skip h
  | true => exact Compacts.skip h

theorem WatchCursor.Stands.finish (h : k.Stands compact kept rest) :
    (k.finish compact).1.take (k.finish compact).2 = kept ++ rest := by
  cases compact with
  | false =>
    have hall : k.slice = kept ++ rest := Compacts.eq_append h
    rw [WatchCursor.finish, if_neg (by simp), take_length, hall]
  | true =>
    replace h : Compacts k.slice k.write k.read kept rest := h
    rw [WatchCursor.finish, if_pos rfl]
    dsimp only
    by_cases hrest : k.slice.length - k.read = 0
    · have hnil : rest = [] := eq_nil_of_length_eq_zero (by rw [h.length_rest, hrest])
      rw [if_pos (.inl hrest), hrest, hnil, append_nil]
      exact h.kept_eq
    · by_cases hsame : k.read = k.write
      · rw [if_pos (.inr hsame)]
        rw [← hsame] at h
        rw [take_of_length_le (by dsimp only; omega)]
        exact h.eq_append
      · rw [if_neg (by omega)]
        exact h.take_copyWithin

theorem listScan_succ (hw : k.slice.getD k.read default = w) :
    listScan falseLit compact (n + 1) k s l =
      match visit iterCombined falseLit s l w with
      | .keep b s l => listScan falseLit compact n ((k.next compact).keep compact w b) s l
      | .drop s l => listScan falseLit true n (k.next compact) s l
      | .conflict first reason s l =>
        let k := (k.next compact).keep compact w (some first)
        ⟨(k.finish compact).1, (k.finish compact).2, some reason, s, l⟩
      | .unit first reason s l =>
        listScan falseLit compact n ((k.next compact).keep compact w (some first))
          (s.assign first reason) l := by
  rw [listScan, hw, visit]
  by_cases hblocker : s.trail.litVal w.blocker > 0
  · simp only [hblocker, if_true]
  · simp only [hblocker, if_false]
    cases s.clauses w.r with
    | none => rfl
    | some c =>
      dsimp only
      cases examine s.trail falseLit c with
      | repair pair => rfl
      | park c b => rfl
      | move c watched first => rfl
      | stuck c first =>
        by_cases hfirst : (s.setClause w.r c).trail.litVal first < 0
        · simp only [hfirst, if_true]
        · simp only [hfirst, if_false, assignUndefined_eq]

theorem listScan_result (h : k.Stands compact kept rest) : (listScan falseLit compact rest.length k s l).result =
    walk iterCombined (fun _ _ s => s) falseLit kept rest s l := by
  induction rest generalizing compact k kept s l with
  | nil =>
    rw [length_nil, listScan, ScanEnd.result, h.finish, append_nil]
    rfl
  | cons w rest ih =>
    rw [length_cons, listScan_succ (Compacts.getD_read h default), walk]
    cases visit iterCombined falseLit s l w with
    | keep b s l => exact ih (h.keep b)
    | drop s l => exact ih h.remove
    | conflict first reason s l =>
      dsimp only
      rw [ScanEnd.result, (h.keep (some first)).finish, append_assoc, singleton_append]
    | unit first reason s l => exact ih (h.keep (some first))

theorem walk_append {front : List Watcher} : walk view onUnit falseLit (front ++ kept) rest s l =
    (front ++ (walk view onUnit falseLit kept rest s l).1, (walk view onUnit falseLit kept rest s l).2) := by
  induction rest generalizing kept s l with
  | nil => rfl
  | cons w rest ih =>
    rw [walk, walk]
    cases visit view falseLit s l w with
    | keep b s l =>
      dsimp only
      rw [append_assoc, ih]
    | drop s l => exact ih
    | conflict first reason s l =>
      dsimp only
      rw [append_assoc]
    | unit first reason s l =>
      dsimp only
      rw [append_assoc, ih]

theorem walk_of_true {front : List Watcher} (h : ∀ w ∈ front, s.trail.litVal w.blocker > 0) :
    walk view onUnit falseLit kept (front ++ rest) s l = walk view onUnit falseLit (kept ++ front) rest s l := by
  induction front generalizing kept with
  | nil => rw [nil_append, append_nil]
  | cons w front ih =>
    obtain ⟨hw, hfront⟩ := forall_mem_cons.mp h
    have hvisit : visit view falseLit s l w = .keep none s l := by
      rw [visit, if_pos hw]
    rw [cons_append, walk, hvisit]
    dsimp only
    rw [ih hfront, append_assoc]
    rfl

theorem listScan_drop {cut : ℕ} (hcut : cut ≤ watches.length)
    (htrue : ∀ w ∈ watches.take cut, s.trail.litVal w.blocker > 0) :
    let e := listScan falseLit false (watches.length - cut) { slice := watches.drop cut } s l
    ScanEnd.result { e with watches := watches.take cut ++ e.watches, write := e.write + cut } =
      walk iterCombined (fun _ _ s => s) falseLit [] watches s l := by
  intro e
  have hlength : (watches.take cut).length = cut := length_take_of_le hcut
  have hscan : e.result =
      walk iterCombined (fun _ _ s => s) falseLit [] (watches.drop cut) s l := by
    have hstart : WatchCursor.Stands false { slice := watches.drop cut } [] (watches.drop cut) :=
      compacts_start (watches.drop cut)
    rw [← listScan_result hstart, length_drop]
  have hwhole : walk iterCombined (fun _ _ s => s) falseLit [] watches s l =
      (watches.take cut ++ e.result.1, e.result.2) := by
    nth_rewrite 1 [← take_append_drop cut watches]
    rw [walk_of_true htrue, nil_append, ← append_nil (watches.take cut), walk_append, hscan]
    simp
  have htake : (watches.take cut ++ e.watches).take (e.write + cut) =
      watches.take cut ++ e.watches.take e.write := by
    rw [Nat.add_comm]
    nth_rewrite 1 [← hlength]
    exact take_length_add_append e.write
  rw [hwhole]
  simp only [ScanEnd.result, htake]

theorem listKernel_result {simd : Bool} : (listKernel falseLit simd watches s l).result = walk iterCombined
    (fun _ _ s => s) falseLit [] watches s l := by
  unfold listKernel
  by_cases hfilter : simd ∧ 8 ≤ watches.length
  · simp only [hfilter, and_self, if_true]
    have hrun : watches.take (keptRun watches s.trail) =
        watches.takeWhile fun w => s.trail.litVal w.blocker > 0 :=
      (prefix_iff_eq_take.mp ( takeWhile_prefix _)).symm
    refine listScan_drop ?_ fun w hw => ?_
    · exact List.IsPrefix.length_le ( takeWhile_prefix _)
    · rw [hrun] at hw
      simpa using all_eq_true.mp all_takeWhile w hw
  · simp only [hfilter, if_false]
    exact listScan_drop (Nat.zero_le _) (by simp)

end

end Nixie.Watch
