import Nixie.Alternating
import Nixie.Cp.Statement

/-!
Necessary conditions on partial domains, `nixie-theories/src/cp/feasibility.rs`.  The extrema of a
domain are computed where they are read: their cache is not part of the model.
-/

namespace Nixie.Cp

/-- What the search for an augmenting path knows: the variables reached and not processed, and the
values seen, the newest first, each with the variable it was seen from. -/
structure Search where
  queue : List ℕ
  reached : List Bool
  via : List (ℤ × ℕ)

def scanValues (owner : ℤ → Option ℕ) (v : ℕ) : List ℤ → Search → Search × Option ℤ
  | [], search => (search, none)
  | value :: rest, search =>
    if (search.via.lookup value).isSome then scanValues owner v rest search
    else
      let search := { search with via := (value, v) :: search.via }
      match owner value with
      | none => (search, some value)
      | some w =>
        if search.reached.getD w false then scanValues owner v rest search
        else
          scanValues owner v rest
            { search with queue := search.queue ++ [w], reached := search.reached.set w true }

def searchLoop (owner : ℤ → Option ℕ) (domainOf : ℕ → List ℤ) : ℕ → Search → Search × Option ℤ
  | 0, search => (search, none)
  | fuel + 1, search =>
    match search.queue with
    | [] => (search, none)
    | v :: queue =>
      match scanValues owner v (domainOf v) { search with queue := queue } with
      | (search, some value) => (search, some value)
      | (search, none) => searchLoop owner domainOf fuel search

structure Matched where
  owner : ℤ → Option ℕ
  assigned : ℕ → Option ℤ

/-- The path is turned over from its free value back to the root; `none` on a missing predecessor. -/
def augment (via : List (ℤ × ℕ)) : ℕ → ℤ → Matched → Option Matched
  | 0, _, _ => none
  | fuel + 1, value, matched =>
    match via.lookup value with
    | none => none
    | some v =>
      let turned : Matched :=
        ⟨Function.update matched.owner value (some v), Function.update matched.assigned v (some value)⟩
      match matched.assigned v with
      | some previous => augment via fuel previous turned
      | none => some turned

def rootLoop (n : ℕ) (domainOf : ℕ → List ℤ) : List ℕ → Matched → Option Bool
  | [], _ => some true
  | root :: roots, matched =>
    match searchLoop matched.owner domainOf (n + 1) ⟨[root], (List.replicate n false).set root true, []⟩ with
    | (_, none) => some false
    | (search, some value) =>
      match augment search.via (search.via.length + 1) value matched with
      | none => none
      | some matched => rootLoop n domainOf roots matched

def matching (vars : List CpVar) (domains : List (List ℤ)) : Option Bool :=
  if ¬ vars.Nodup then some false
  else
    rootLoop vars.length (fun v => (vars[v]?.bind fun var => domains[var]?).getD [])
      (List.range vars.length) ⟨fun _ => none, fun _ => none⟩

def restrict (n : ℕ) : List CpVar → ℕ → List (List ℤ) → List (List ℤ)
  | [], _, domains => domains
  | v :: rest, i, domains =>
    restrict n rest (i + 1)
      (domains.modify v fun values =>
        values.filter fun x => 0 ≤ x ∧ x.toNat < n ∧ (n = 1 ∨ i ≠ x.toNat))

/-- From a node along the variables with one value left: whether no shorter cycle is entered. The nodes
seen are distinct, so that there is fuel for all of them. -/
def forcedLoop (n : ℕ) (domainOf : ℕ → List ℤ) : ℕ → List ℕ → ℕ → Bool
  | 0, _, _ => true
  | fuel + 1, seen, node =>
    match domainOf node with
    | [x] =>
      if node ∈ seen then n ≤ seen.length - seen.idxOf node
      else if x < 0 then false
      else forcedLoop n domainOf fuel (seen ++ [node]) x.toNat
    | _ => true

def addEvent (time delta : ℤ) : List (ℤ × ℤ) → List (ℤ × ℤ)
  | [] => [(time, delta)]
  | (t, d) :: rest =>
    if time < t then (time, delta) :: (t, d) :: rest
    else if time = t then (t, d + delta) :: rest
    else (t, d) :: addEvent time delta rest

/-- The extrema of a variable's values, of the value under trial for its variable. The outer `none` is an
unknown variable, the inner one an empty domain. -/
def startBounds (domains : List (List ℤ)) (trial : Option (CpVar × ℤ)) (start : CpVar) :
    Option (Option (ℤ × ℤ)) :=
  match trial with
  | some (var, value) =>
    if var = start then some (some (value, value))
    else domains[start]?.map fun values => do return (← values.min?, ← values.max?)
  | none => domains[start]?.map fun values => do return (← values.min?, ← values.max?)

def eventLoop (domains : List (List ℤ)) (presences : List (Option Bool)) (trial : Option (CpVar × ℤ))
    (capacity : ℤ) : List ScheduledTask → List (ℤ × ℤ) → Option (Option (List (ℤ × ℤ)))
  | [], events => some (some events)
  | scheduled :: rest, events => do
    let active ←
      match scheduled.presence with
      | none => some true
      | some (index, positive) => presences[index]?.map (· == some positive)
    if ¬ active then eventLoop domains presences trial capacity rest events
    else
      let task := scheduled.task
      if task.duration = 0 ∨ task.demand = 0 then eventLoop domains presences trial capacity rest events
      else if task.demand > capacity then some none
      else
        match ← startBounds domains trial task.start with
        | none => some none
        | some (earliest, latest) =>
          let finish := earliest + task.duration
          if latest < finish then
            eventLoop domains presences trial capacity rest
              (addEvent finish (-task.demand) (addEvent latest task.demand events))
          else eventLoop domains presences trial capacity rest events

def sweep (capacity : ℤ) : List (ℤ × ℤ) → ℤ → Bool
  | [], _ => true
  | (_, delta) :: rest, load =>
    if load + delta > capacity then false else sweep capacity rest (load + delta)

def cumulativeFeasible (tasks : List ScheduledTask) (capacity : ℤ) (domains : List (List ℤ))
    (presences : List (Option Bool)) (trial : Option (CpVar × ℤ)) : Option Bool :=
  if capacity < 0 then some false
  else do
    match ← eventLoop domains presences trial capacity tasks [] with
    | none => some false
    | some events => some (sweep capacity events 0)

def domainAt (domains : List (List ℤ)) (v : CpVar) : List ℤ :=
  domains[v]?.getD []

def rowFeasible (domains : List (List ℤ)) (vars : List CpVar) (row : List ℤ) : Bool :=
  (List.range vars.length).all fun i =>
    (row[i]?.any (· ∈ domainAt domains (vars.getD i 0))) &&
      (List.range i).all fun j => vars[j]? != vars[i]? || row[i]? == row[j]?

def feasibleStates (domains : List (List ℤ)) (edges : List Transition) :
    List CpVar → List ℕ → List ℕ
  | [], reachable => reachable
  | var :: rest, reachable =>
    feasibleStates domains edges rest
      ((edges.filter fun e => e.source ∈ reachable ∧ e.symbol ∈ domainAt domains var).map (·.destination)).dedup

def feasible (domains : List (List ℤ)) (presences : List (Option Bool)) : Constraint → Option Bool
  | .allDifferent vars => matching vars domains
  | .table statement => some (statement.rows.any (rowFeasible domains statement.vars))
  | .regular vars initial accepting edges =>
    let reachable := feasibleStates domains edges vars [initial]
    some (accepting.any (· ∈ reachable))
  | .circuit vars =>
    let n := vars.length
    if n = 0 then some true
    else
      let restricted := restrict n vars 0 domains
      do
        if ¬ (← matching vars restricted) then some false
        else
          some ((List.range n).all fun start =>
            forcedLoop n (fun node => domainAt restricted (vars.getD node 0)) (n + 1) [] start)
  | .cumulative tasks capacity => cumulativeFeasible tasks capacity domains presences none

def feasibleAt (domains : List (List ℤ)) (presences : List (Option Bool)) (var : CpVar) (value : ℤ) :
    Constraint → Option Bool
  | .cumulative tasks capacity => cumulativeFeasible tasks capacity domains presences (some (var, value))
  | c => if domains.length ≤ var then none else feasible (domains.set var [value]) presences c

def startLoop (domains : List (List ℤ)) (presences : List (Option Bool)) (c : Constraint) (var : CpVar) :
    List ℤ → Option Bool
  | [] => some false
  | start :: rest => do
    if ← feasibleAt domains presences var start c then some true
    else startLoop domains presences c var rest

def presentLoop (domains : List (List ℤ)) (presences : List (Option Bool)) (c : Constraint) :
    List ScheduledTask → Option Bool
  | [] => some true
  | scheduled :: rest => do
    let active ←
      match scheduled.presence with
      | none => some true
      | some (index, positive) => presences[index]?.map (· == some positive)
    if ¬ active then presentLoop domains presences c rest
    else if ← startLoop domains presences c scheduled.task.start (domainAt domains scheduled.task.start) then
      presentLoop domains presences c rest
    else some false

def presenceFeasible (domains : List (List ℤ)) (presences : List (Option Bool)) (c : Constraint) :
    Option Bool := do
  if ¬ (← feasible domains presences c) then some false
  else
    match c with
    | .cumulative tasks _ => presentLoop domains presences c tasks
    | _ => some true

end Nixie.Cp

namespace Nixie.Cp

open Alternating Finset
open List hiding lookup_isSome_iff mem_range mem_filter

variable {n root : ℕ} {domainOf : ℕ → List ℤ}

theorem augment_spec {via : List (ℤ × ℕ)} {assigned : ℕ → Option ℤ} (hvia : Chain n domainOf assigned root via)
    (fuel : ℕ) {x : ℤ} {v : ℕ} {older : List (ℤ × ℕ)} (hsuffix : (x, v) :: older <:+ via) (hfuel : older.length < fuel)
    (matched : Matched) (hole : Hole n domainOf matched.owner matched.assigned x)
    (hroot : matched.assigned root = none) (hkept : ∀ w, ∀ p ∈ older.map Prod.fst, assigned w = some p →
    matched.assigned w = some p) : ∃ after, augment via fuel x matched = some after ∧
    Consistent n domainOf after.owner after.assigned ∧ ∀ w, (after.assigned w).isSome ↔ w = root ∨
    (matched.assigned w).isSome := by
  induction fuel generalizing x v older matched with
  | zero => omega
  | succ fuel ih =>
    have hlookup : via.lookup x = some v := lookup_of_mem hvia.nodup (hsuffix.subset mem_cons_self)
    cases hvia.of_suffix hsuffix with
    | cons hfresh hbound hmem hlink holder =>
      simp only [augment, hlookup]
      rcases hlink with rfl | ⟨p, hp, hprevious⟩
      · rw [hroot]
        refine ⟨_, rfl, hole.fill hbound hmem hroot, fun w => ?_⟩
        by_cases hw : w = v <;> simp [hw]
      · have hcurrent := hkept v p hp hprevious
        rw [hcurrent]
        obtain ⟨u, oldest, hnext⟩ := Chain.exists_suffix hp
        have hlength : oldest.length < older.length := hnext.length_le
        have hne : root ≠ v := by
          rintro rfl
          rw [hroot] at hcurrent
          cases hcurrent
        have hnodup := (holder.of_suffix hnext).nodup
        rw [List.map_cons, List.nodup_cons] at hnodup
        have hfree : Function.update matched.assigned v (some x) root = none := by
          rwa [Function.update_of_ne hne]
        have hold : ∀ w, ∀ q ∈ oldest.map Prod.fst, assigned w = some q →
            Function.update matched.assigned v (some x) w = some q := by
          intro w q hq hw
          have hkeep := hkept w q ((hnext.map Prod.fst).subset (mem_cons_of_mem _ hq)) hw
          have hwv : w ≠ v := by
            rintro rfl
            rw [hcurrent] at hkeep
            cases hkeep
            exact hnodup.1 hq
          rwa [Function.update_of_ne hwv]
        obtain ⟨after, hafter, hconsistent, hassigned⟩ := ih
          (hnext.trans ((suffix_cons _ _).trans hsuffix)) (by omega)
          ⟨Function.update matched.owner x (some v), Function.update matched.assigned v (some x)⟩
          (hole.move hbound hmem hcurrent) hfree hold
        refine ⟨after, hafter, hconsistent, fun w => (hassigned w).trans ?_⟩
        by_cases hw : w = v
        · simp [hw, hcurrent]
        · simp [hw]

section

namespace Search

def keys (search : Search) : List ℤ :=
  search.via.map Prod.fst

def Reached (search : Search) (v : ℕ) : Prop :=
  search.reached.getD v false = true

def pending (search : Search) : ℕ :=
  search.queue.length + search.reached.count false

end Search

/-- What holds between the rounds: a variable reached is processed unless it waits or is current, and what
is reached besides the root owns a value seen. -/
structure Explored (n root : ℕ) (domainOf : ℕ → List ℤ) (owner : ℤ → Option ℕ) (assigned : ℕ → Option ℤ)
    (current : List ℕ) (search : Search) : Prop where
  length : search.reached.length = n
  chain : Chain n domainOf assigned root search.via
  start : search.Reached root
  linked : ∀ v, search.Reached v → v = root ∨ ∃ p ∈ search.keys, owner p = some v
  queued : ∀ v ∈ search.queue, search.Reached v
  owned : ∀ x ∈ search.keys, ∃ w, owner x = some w ∧ search.Reached w
  closed : ∀ v, search.Reached v → v ∈ search.queue ∨ v ∈ current ∨ ∀ x ∈ domainOf v, x ∈ search.keys

variable {owner : ℤ → Option ℕ} {assigned : ℕ → Option ℤ} {current : List ℕ} {search : Search}

section

variable (h : Explored n root domainOf owner assigned current search)
include h

theorem Explored.lt {v : ℕ} (hv : search.Reached v) : v < n := by
  by_contra hlt
  rw [Search.Reached, getD_eq_getElem?_getD, getElem?_eq_none (by rw [h.length]; omega)] at hv
  cases hv

theorem Explored.link (hconsistent : Consistent n domainOf owner assigned) {v : ℕ} (hv : search.Reached v) :
    v = root ∨ ∃ p ∈ search.keys, assigned v = some p :=
  (h.linked v hv).imp_right fun ⟨p, hp, howner⟩ => ⟨p, hp, hconsistent.assigned_of_owner p v howner⟩

theorem Explored.see (hconsistent : Consistent n domainOf owner assigned) {x : ℤ} {v w : ℕ}
    (hx : x ∉ search.keys) (hv : search.Reached v) (hmem : x ∈ domainOf v) (howner : owner x = some w)
    (hw : search.Reached w) :
    Explored n root domainOf owner assigned current { search with via := (x, v) :: search.via } where
  length := h.length
  chain := .cons hx (h.lt hv) hmem (h.link hconsistent hv) h.chain
  start := h.start
  linked u hu := (h.linked u hu).imp_right fun ⟨p, hp, hown⟩ => ⟨p, mem_cons_of_mem _ hp, hown⟩
  queued := h.queued
  owned y hy := by
    rcases List.mem_cons.mp hy with rfl | hy
    · exact ⟨w, howner, hw⟩
    · exact h.owned y hy
  closed u hu := by
    rcases h.closed u hu with hu | hu | hu
    · exact .inl hu
    · exact .inr (.inl hu)
    · exact .inr (.inr fun y hy => mem_cons_of_mem _ (hu y hy))

end

theorem reached_set {reached : List Bool} {u w : ℕ} (hw : w < reached.length) :
    (reached.set w true).getD u false = true ↔ u = w ∨ reached.getD u false = true := by
  rw [getD_eq_getElem?_getD, getD_eq_getElem?_getD]
  by_cases h : u = w
  · subst h
    simp [getElem?_set_self hw]
  · simp [h, getElem?_set_ne (Ne.symm h)]

theorem count_set {reached : List Bool} {w : ℕ} (hw : w < reached.length) (h : reached.getD w false = false) :
    (reached.set w true).count false + 1 = reached.count false := by
  induction reached generalizing w with
  | nil => simp at hw
  | cons b reached ih =>
    cases w with
    | zero =>
      rw [getD_cons_zero] at h
      simp [h]
    | succ w =>
      rw [getD_cons_succ] at h
      have hrest := ih (Nat.lt_of_succ_lt_succ hw) h
      simp only [set_cons_succ, count_cons]
      omega

theorem Explored.enqueue (h : Explored n root domainOf owner assigned current search)
    (hconsistent : Consistent n domainOf owner assigned) {x : ℤ} {v w : ℕ} (hx : x ∉ search.keys)
    (hv : search.Reached v) (hmem : x ∈ domainOf v) (howner : owner x = some w) :
    Explored n root domainOf owner assigned current
      { search with
        via := (x, v) :: search.via, queue := search.queue ++ [w], reached := search.reached.set w true } := by
  have hw : w < search.reached.length := by
    rw [h.length]
    exact hconsistent.bound w x (hconsistent.assigned_of_owner x w howner)
  refine ⟨(length_set ..).trans h.length, .cons hx (h.lt hv) hmem (h.link hconsistent hv) h.chain,
    (reached_set hw).mpr (.inr h.start), fun u hu => ?_, fun u hu => ?_, fun y hy => ?_, fun u hu => ?_⟩
  · rcases (reached_set hw).mp hu with rfl | hu
    · exact .inr ⟨x, mem_cons_self, howner⟩
    · exact (h.linked u hu).imp_right fun ⟨p, hp, hown⟩ => ⟨p, mem_cons_of_mem _ hp, hown⟩
  · rcases List.mem_append.mp hu with hu | hu
    · exact (reached_set hw).mpr (.inr (h.queued u hu))
    · exact (reached_set hw).mpr (.inl (List.mem_singleton.mp hu))
  · rcases List.mem_cons.mp hy with rfl | hy
    · exact ⟨w, howner, (reached_set hw).mpr (.inl rfl)⟩
    · obtain ⟨u, hown, hu⟩ := h.owned y hy
      exact ⟨u, hown, (reached_set hw).mpr (.inr hu)⟩
  · rcases (reached_set hw).mp hu with rfl | hu
    · exact .inl (List.mem_append_right _ (List.mem_singleton_self u))
    · rcases h.closed u hu with hu | hu | hu
      · exact .inl (mem_append_left _ hu)
      · exact .inr (.inl hu)
      · exact .inr (.inr fun y hy => mem_cons_of_mem _ (hu y hy))

theorem scanValues_spec (hconsistent : Consistent n domainOf owner assigned) {v : ℕ}
    (h : Explored n root domainOf owner assigned [v] search) (hv : search.Reached v) {values : List ℤ}
    (hvalues : ∀ x ∈ values, x ∈ domainOf v) :
    (∃ after, scanValues owner v values search = (after, none) ∧ Explored n root domainOf owner assigned [v] after ∧
    (∀ x ∈ values, x ∈ after.keys) ∧ (∀ x ∈ search.keys, x ∈ after.keys) ∧ after.pending = search.pending) ∨
    ∃ after x older, scanValues owner v values search = (after, some x) ∧ owner x = none ∧
    after.via = (x, v) :: older ∧ Chain n domainOf assigned root after.via := by
  induction values generalizing search with
  | nil => exact .inl ⟨search, rfl, h, by simp, fun x hx => hx, rfl⟩
  | cons x values ih =>
    rw [List.forall_mem_cons] at hvalues
    rw [scanValues]
    by_cases hx : (search.via.lookup x).isSome
    · rw [if_pos hx]
      refine (ih h hv hvalues.2).imp_left ?_
      rintro ⟨after, hscan, hafter, hseen, hkeys, hpending⟩
      have hold : x ∈ after.keys := hkeys x (lookup_isSome_iff.mp hx)
      exact ⟨after, hscan, hafter, List.forall_mem_cons.mpr ⟨hold, hseen⟩, hkeys, hpending⟩
    · rw [if_neg hx]
      rw [lookup_isSome_iff] at hx
      cases howner : owner x with
      | none =>
        exact .inr ⟨_, x, search.via, rfl, howner, rfl, .cons hx (h.lt hv) hvalues.1 (h.link hconsistent hv) h.chain⟩
      | some w =>
        simp only
        by_cases hw : search.reached.getD w false = true
        · rw [if_pos hw]
          refine (ih (h.see hconsistent hx hv hvalues.1 howner hw) hv hvalues.2).imp_left ?_
          rintro ⟨after, hscan, hafter, hseen, hkeys, hpending⟩
          exact ⟨after, hscan, hafter, List.forall_mem_cons.mpr ⟨hkeys x mem_cons_self, hseen⟩,
            fun y hy => hkeys y (mem_cons_of_mem _ hy), hpending⟩
        · rw [if_neg hw]
          have hlt : w < search.reached.length := by
            rw [h.length]
            exact hconsistent.bound w x (hconsistent.assigned_of_owner x w howner)
          have hcount := count_set hlt (by simpa using hw)
          refine (ih (h.enqueue hconsistent hx hv hvalues.1 howner)
            ((reached_set hlt).mpr (.inr hv)) hvalues.2).imp_left ?_
          rintro ⟨after, hscan, hafter, hseen, hkeys, hpending⟩
          refine ⟨after, hscan, hafter, List.forall_mem_cons.mpr ⟨hkeys x mem_cons_self, hseen⟩,
            fun y hy => hkeys y (mem_cons_of_mem _ hy), ?_⟩
          simp only [Search.pending, length_append, length_singleton] at hpending ⊢
          omega

theorem searchLoop_spec (hconsistent : Consistent n domainOf owner assigned) (hfree : assigned root = none) (fuel : ℕ)
    (h : Explored n root domainOf owner assigned [] search) (hfuel : search.pending < fuel) :
    (∃ after, searchLoop owner domainOf fuel search = (after, none) ∧ ∀ f, ¬ Selection n domainOf f) ∨
    ∃ after x v older, searchLoop owner domainOf fuel search = (after, some x) ∧ owner x = none ∧
    after.via = (x, v) :: older ∧ Chain n domainOf assigned root after.via := by
  induction fuel generalizing search with
  | zero => omega
  | succ fuel ih =>
    rw [searchLoop]
    cases hqueue : search.queue with
    | nil =>
      refine .inl ⟨search, rfl, hconsistent.no_selection hfree
        ((Finset.range n).filter fun v => search.reached.getD v false = true) search.keys.toFinset ?_ ?_ ?_ ?_⟩
      · exact mem_filter.mpr ⟨mem_range.mpr (h.lt h.start), h.start⟩
      · intro v hv
        exact mem_range.mp (mem_filter.mp hv).1
      · intro v hv x hx
        have hclosed := h.closed v (mem_filter.mp hv).2
        simp only [hqueue, not_mem_nil, false_or] at hclosed
        exact List.mem_toFinset.mpr (hclosed x hx)
      · intro x hx
        obtain ⟨w, howner, hw⟩ := h.owned x (List.mem_toFinset.mp hx)
        exact ⟨w, mem_filter.mpr ⟨mem_range.mpr (h.lt hw), hw⟩, howner⟩
    | cons v queue =>
      have hv : search.Reached v := h.queued v (hqueue ▸ mem_cons_self)
      have hpop : Explored n root domainOf owner assigned [v] { search with queue := queue } :=
        { h with
          queued := fun u hu => h.queued u (hqueue ▸ mem_cons_of_mem v hu)
          closed := fun u hu => by
            have hclosed := h.closed u hu
            simp only [hqueue, List.mem_cons, List.not_mem_nil, false_or, or_assoc] at hclosed ⊢
            tauto }
      simp only
      rcases scanValues_spec hconsistent hpop hv fun x hx => hx with
        ⟨after, hscan, hafter, hseen, -, hpending⟩ | ⟨after, x, older, hscan, howner, hvia, hchain⟩
      · rw [hscan]
        refine ih { hafter with closed := fun u hu => ?_ } ?_
        · rcases hafter.closed u hu with hu | hu | hu
          · exact .inl hu
          · rw [List.mem_singleton.mp hu]
            exact .inr (.inr hseen)
          · exact .inr (.inr hu)
        · simp only [Search.pending, hqueue, length_cons] at hpending hfuel ⊢
          omega
      · rw [hscan]
        exact .inr ⟨after, x, v, older, rfl, howner, hvia, hchain⟩

end

theorem getD_replicate_false (v : ℕ) : (List.replicate n false).getD v false = false := by
  rw [getD_eq_getElem?_getD, getElem?_replicate]
  split <;> rfl

theorem explored_root {owner : ℤ → Option ℕ} {assigned : ℕ → Option ℤ} (hroot : root < n) :
    Explored n root domainOf owner assigned [] ⟨[root], (List.replicate n false).set root true, []⟩ := by
  have hreached : ∀ v, ((List.replicate n false).set root true).getD v false = true ↔ v = root := by
    intro v
    rw [reached_set (by rwa [length_replicate]), getD_replicate_false]
    simp
  refine ⟨by simp, .nil, (hreached root).mpr rfl, fun v hv => .inl ((hreached v).mp hv), fun v hv => ?_, nofun,
    fun v hv => ?_⟩
  · rw [List.mem_singleton.mp hv]
    exact (hreached root).mpr rfl
  · exact .inl (List.mem_singleton.mpr ((hreached v).mp hv))

theorem rootLoop_spec {roots : List ℕ} (hnodup : roots.Nodup) (hroots : ∀ v ∈ roots, v < n) (matched : Matched)
    (hconsistent : Consistent n domainOf matched.owner matched.assigned)
    (hassigned : ∀ v < n, (matched.assigned v).isSome ↔ v ∉ roots) :
    ∃ b, rootLoop n domainOf roots matched = some b ∧ (b = true ↔ ∃ f, Selection n domainOf f) := by
  induction roots generalizing matched with
  | nil =>
    refine ⟨true, rfl, iff_of_true rfl ⟨fun v => (matched.assigned v).getD 0, ?_, ?_⟩⟩
    · intro v hv
      obtain ⟨x, hx⟩ := Option.isSome_iff_exists.mp ((hassigned v hv).mpr not_mem_nil)
      rw [hx]
      exact hconsistent.mem v x hx
    · intro v hv w hw heq
      obtain ⟨x, hx⟩ := Option.isSome_iff_exists.mp ((hassigned v hv).mpr not_mem_nil)
      obtain ⟨y, hy⟩ := Option.isSome_iff_exists.mp ((hassigned w hw).mpr not_mem_nil)
      simp only [hx, hy, Option.getD_some] at heq
      have howner := hconsistent.owner_of_assigned v x hx
      rw [heq, hconsistent.owner_of_assigned w y hy] at howner
      exact (Option.some.inj howner).symm
  | cons root roots ih =>
    rw [nodup_cons] at hnodup
    rw [List.forall_mem_cons] at hroots
    have hfree : matched.assigned root = none := by
      rw [← Option.not_isSome_iff_eq_none, hassigned root hroots.1]
      exact not_not_intro mem_cons_self
    have hpending : Search.pending ⟨[root], (List.replicate n false).set root true, []⟩ < n + 1 := by
      have hlt : root < (List.replicate n false).length := by
        rw [length_replicate]
        exact hroots.1
      have hcount := count_set hlt (getD_replicate_false root)
      rw [count_replicate_self] at hcount
      simp only [Search.pending, length_singleton]
      omega
    rw [rootLoop]
    rcases searchLoop_spec hconsistent hfree (n + 1) (explored_root hroots.1) hpending with
      ⟨after, hsearch, hnone⟩ | ⟨after, x, v, older, hsearch, howner, hvia, hchain⟩
    · rw [hsearch]
      exact ⟨false, rfl, iff_of_false Bool.false_ne_true fun ⟨f, hf⟩ => hnone f hf⟩
    · rw [hsearch]
      have hsuffix : (x, v) :: older <:+ after.via := by rw [hvia]
      have hlength : older.length < after.via.length + 1 := by
        rw [hvia, length_cons]
        omega
      obtain ⟨turned, hturned, hconsistent', hassigned'⟩ := augment_spec hchain (after.via.length + 1) hsuffix
        hlength matched (Hole.of_free hconsistent howner) hfree fun w p _ hw => hw
      simp only [hturned]
      refine ih hnodup.2 hroots.2 turned hconsistent' fun w hw => ?_
      rw [hassigned', hassigned w hw, List.mem_cons, not_or]
      constructor
      · rintro (rfl | h)
        · exact hnodup.1
        · exact h.2
      · intro h
        by_cases heq : w = root
        · exact .inl heq
        · exact .inr ⟨heq, h⟩

def Choosable (vars : List CpVar) (domains : List (List ℤ)) : Prop :=
  ∃ f : CpVar → ℤ, (∀ v ∈ vars, f v ∈ domainAt domains v) ∧ (vars.map f).Nodup

theorem matching_spec (vars : List CpVar) (domains : List (List ℤ)) :
    ∃ b, matching vars domains = some b ∧ (b = true ↔ Choosable vars domains) := by
  rw [matching]
  by_cases hnodup : vars.Nodup
  · rw [if_neg (not_not_intro hnodup)]
    have hdomain : ∀ i (hi : i < vars.length), (vars[i]?.bind fun var => domains[var]?).getD [] =
      domainAt domains vars[i] := by
      intro i hi
      rw [getElem?_eq_getElem hi, Option.bind_some, domainAt]
    obtain ⟨b, hb, hiff⟩ := @rootLoop_spec vars.length (fun v => (vars[v]?.bind fun var => domains[var]?).getD []) _
      nodup_range (fun v hv => List.mem_range.mp hv) ⟨fun _ => none, fun _ => none⟩ ⟨nofun, nofun, nofun, nofun⟩
      (by simp)
    refine ⟨b, hb, hiff.trans ⟨?_, ?_⟩⟩
    · rintro ⟨f, hf⟩
      have hposition : ∀ i (hi : i < vars.length), f (vars.idxOf vars[i]) = f i := by
        intro i hi
        rw [hnodup.idxOf_getElem i hi]
      refine ⟨fun var => f (vars.idxOf var), fun var hvar => ?_, ?_⟩
      · obtain ⟨i, hi, rfl⟩ := getElem_of_mem hvar
        have hmem := hf.mem i hi
        rwa [hdomain i hi, ← hposition i hi] at hmem
      · rw [nodup_iff_injective_get]
        intro i j heq
        simp only [get_eq_getElem, getElem_map] at heq
        have hi : i.1 < vars.length := by simpa using i.2
        have hj : j.1 < vars.length := by simpa using j.2
        rw [hposition i.1 hi, hposition j.1 hj] at heq
        exact Fin.ext (hf.injective i.1 hi j.1 hj heq)
    · rintro ⟨f, hmem, hf⟩
      have hgetD : ∀ i (hi : i < vars.length), vars.getD i 0 = vars[i] := by
        intro i hi
        rw [getD_eq_getElem?_getD, getElem?_eq_getElem hi, Option.getD_some]
      refine ⟨fun i => f (vars.getD i 0), fun i hi => ?_, fun i hi j hj heq => ?_⟩
      · rw [hdomain i hi, hgetD i hi]
        exact hmem _ (getElem_mem hi)
      · rw [hgetD i hi, hgetD j hj] at heq
        have hi' : i < (vars.map f).length := by rwa [length_map]
        have hj' : j < (vars.map f).length := by rwa [length_map]
        have hget : (vars.map f)[i] = (vars.map f)[j] := by
          rw [getElem_map, getElem_map]
          exact heq
        exact (List.Nodup.getElem_inj_iff hf).mp hget
  · rw [if_pos hnodup]
    refine ⟨false, rfl, iff_of_false Bool.false_ne_true ?_⟩
    rintro ⟨f, -, hf⟩
    exact hnodup hf.of_map

end Nixie.Cp
