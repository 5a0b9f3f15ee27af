import Nixie.Compaction
import Nixie.Sat.Solver

/-!
The three scans of a watch list: the loop in `nixie-sat/src/solver/propagate.rs`, the cursor kernel
`watch_kernel.rs` and the list kernel `list_kernel.rs` with `watch_cursor.rs`.
-/

namespace Nixie.Watch

open Nixie.Literal Nixie.Compaction List Function
open Nixie.Sat (Trail)
open Nixie.Sat.Solver (findSavedPosHit savedPosStore)

structure Watcher where
  r : ℕ
  blocker : ℕ
  deriving DecidableEq, Inhabited

structure LiveClause where
  lits : List ℕ
  searched : ℕ
  identity : ℕ
  deriving DecidableEq

/-- With `NIXIE_CSR_B` the lists of `csr` are the watch lists and those of `watches` are dead. -/
structure WatchLists where
  csrPrimary : Bool := false
  watches : ℕ → List Watcher := fun _ => []
  csr : ℕ → List Watcher := fun _ => []

namespace WatchLists

variable (l : WatchLists)

def add (lit : ℕ) (w : Watcher) : WatchLists :=
  if l.csrPrimary then { l with csr := update l.csr lit (l.csr lit ++ [w]) }
  else { l with watches := update l.watches lit (l.watches lit ++ [w]) }

def get (lit : ℕ) : List Watcher := l.watches lit

def iterCombined (lit : ℕ) : List Watcher := if l.csrPrimary then l.csr lit else l.watches lit

def addUnless (view : WatchLists → ℕ → List Watcher) (lit : ℕ) (w : Watcher) : WatchLists :=
  if (view l lit).any fun v => v.r == w.r then l else l.add lit w

def repair (view : WatchLists → ℕ → List Watcher) (w : Watcher) : Option (ℕ × ℕ) → WatchLists
  | none => l
  | some (a, b) =>
    (l.addUnless view (neg a) { w with blocker := b }).addUnless view (neg b) { w with blocker := a }

end WatchLists

/-- The solver without its watch lists; `rest` is what else the work after a unit may change. -/
structure Core (ρ : Type) where
  trail : Trail
  clauses : ℕ → Option LiveClause
  rest : ρ

namespace Core

variable {ρ : Type}

def setClause (s : Core ρ) (r : ℕ) (c : LiveClause) : Core ρ :=
  { s with clauses := update s.clauses r (some c) }

def assign (s : Core ρ) (lit reason : ℕ) : Core ρ :=
  { s with trail := s.trail.assignPropagation lit reason }

def assignUndefined (s : Core ρ) (lit reason : ℕ) : Core ρ :=
  let t := s.trail
  let queued := { t with
    varInfo := update t.varInfo (lit / 2)
      ⟨t.currentLevel, .propagation reason, t.assignments.length⟩
    assignments := t.assignments ++ [lit] }
  { s with
    trail := { queued with values := update (update t.values lit 1) (neg lit) (-1) } }

end Core

/-- What a visit of a live clause leads to: the watcher is stale, it is parked at another blocker,
another literal takes over, or the clause is unit or false. -/
inductive Visit
  | repair (pair : Option (ℕ × ℕ))
  | park (c : LiveClause) (blocker : ℕ)
  | move (c : LiveClause) (watched first : ℕ)
  | stuck (c : LiveClause) (first : ℕ)

def examine (t : Trail) (falseLit : ℕ) (c : LiveClause) : Visit :=
  match c.lits with
  | l₀ :: l₁ :: tail =>
    if l₀ ≠ falseLit ∧ l₁ ≠ falseLit then .repair (some (l₀, l₁))
    else
      let first := l₀ ^^^ l₁ ^^^ falseLit
      let normalized := { c with lits := first :: falseLit :: tail }
      if t.litVal first > 0 then .park normalized first
      else
        match findSavedPosHit t tail c.searched with
        | none => .stuck normalized first
        | some (i, lit) =>
          if t.litVal lit > 0 then .park { normalized with searched := savedPosStore i } lit
          else
            .move { c with
              lits := first :: lit :: tail.set i falseLit
              searched := savedPosStore i } lit first
  | _ => .repair none

/-- The watch slice after the scan with the number of kept entries, the conflict clause if there is
one, and the solver. -/
structure ScanEnd (ρ : Type) where
  watches : List Watcher
  write : ℕ
  conflict : Option ℕ
  core : Core ρ
  lists : WatchLists

def ScanEnd.result {ρ : Type} (e : ScanEnd ρ) : List Watcher × Option ℕ × Core ρ × WatchLists :=
  (e.watches.take e.write, e.conflict, e.core, e.lists)

section

variable {ρ : Type} (onUnit : ℕ → ℕ → Core ρ → Core ρ) (falseLit : ℕ)

def writeBack (watches : List Watcher) (read write : ℕ) (w : Watcher) (blocker : Option ℕ) :
    List Watcher :=
  let copied := if write ≠ read then watches.set write w else watches
  match blocker with
  | none => copied
  | some b => copied.modify write fun v => { v with blocker := b }

def legacyScan : ℕ → ℕ → ℕ → List Watcher → Core ρ → WatchLists → ScanEnd ρ
  | 0, _, write, watches, s, l => ⟨watches, write, none, s, l⟩
  | n + 1, read, write, watches, s, l =>
    let w := watches.getD read default
    if s.trail.litVal w.blocker > 0 then
      legacyScan n (read + 1) (write + 1) (writeBack watches read write w none) s l
    else
      match s.clauses w.r with
      | none => legacyScan n (read + 1) write watches s l
      | some c =>
        match examine s.trail falseLit c with
        | .repair pair =>
          legacyScan n (read + 1) write watches s (l.repair WatchLists.iterCombined w pair)
        | .park c b =>
          legacyScan n (read + 1) (write + 1) (writeBack watches read write w (some b))
            (s.setClause w.r c) l
        | .move c watched first =>
          legacyScan n (read + 1) write watches (s.setClause w.r c)
            (l.add (neg watched) { w with blocker := first })
        | .stuck c first =>
          let watches := writeBack watches read write w (some first)
          let s := s.setClause w.r c
          if s.trail.litVal first < 0 then
            let (watches, write) := copyRest default n (read + 1) (write + 1) watches
            ⟨watches, write, some c.identity, s, l⟩
          else
            legacyScan n (read + 1) (write + 1) watches
              (onUnit first c.identity (s.assign first c.identity)) l

def legacy (watches : List Watcher) (s : Core ρ) (l : WatchLists) : ScanEnd ρ :=
  legacyScan onUnit falseLit watches.length 0 0 watches s l

end

section

variable {ρ : Type} (onUnit : ℕ → ℕ → Core ρ → Core ρ) (falseLit : ℕ)

structure Cursor where
  read : ℕ := 0
  write : ℕ := 0
  deriving DecidableEq

inductive Step
  | done
  | conflict (reason : ℕ)
  | unit (literal reason : ℕ)
  deriving DecidableEq

structure Advance (ρ : Type) where
  step : Step
  cursor : Cursor
  watches : List Watcher
  core : Core ρ
  lists : WatchLists

def park (compact : Bool) (watches : List Watcher) (read write : ℕ) (w : Watcher) (b : ℕ) :
    List Watcher :=
  let kept := if compact then write else read
  let copied := if compact then watches.set kept w else watches
  copied.modify kept fun v => { v with blocker := b }

/-- `Cursor::scan` with the number of entries still to read. The first removal ends the phase in
which nothing is copied. -/
def scan : Bool → ℕ → ℕ → ℕ → List Watcher → Core ρ → WatchLists → Advance ρ
  | compact, 0, _, write, watches, s, l =>
    ⟨.done, ⟨watches.length, if compact then write else watches.length⟩, watches, s, l⟩
  | compact, n + 1, read, write, watches, s, l =>
    let w := watches.getD read default
    let afterRemoval := if compact then write else read
    if s.trail.litVal w.blocker > 0 then
      if compact then scan compact n (read + 1) (write + 1) (watches.set write w) s l
      else scan compact n (read + 1) write watches s l
    else
      match s.clauses w.r with
      | none => scan true n (read + 1) afterRemoval watches s l
      | some c =>
        match examine s.trail falseLit c with
        | .repair pair =>
          scan true n (read + 1) afterRemoval watches s (l.repair WatchLists.get w pair)
        | .park c b =>
          scan compact n (read + 1) (if compact then write + 1 else write)
            (park compact watches read write w b) (s.setClause w.r c) l
        | .move c watched first =>
          scan true n (read + 1) afterRemoval watches (s.setClause w.r c)
            (l.add (neg watched) { w with blocker := first })
        | .stuck c first =>
          let watches := park compact watches read write w first
          let nextWrite := (if compact then write else read) + 1
          let s := s.setClause w.r c
          if s.trail.litVal first < 0 then
            let watches := if compact then copyWithin watches (read + 1) nextWrite else watches
            ⟨.conflict c.identity, ⟨watches.length, nextWrite + watches.length - read - 1⟩, watches, s, l⟩
          else ⟨.unit first c.identity, ⟨read + 1, nextWrite⟩, watches, s, l⟩

def Cursor.advance (k : Cursor) (watches : List Watcher) (s : Core ρ) (l : WatchLists) : Advance ρ :=
  scan falseLit (k.write ≠ k.read) (watches.length - k.read) k.read k.write watches s l

/-- `scan_watch_list`: every unit moves the cursor forward, so as many rounds as entries are enough. -/
def scanWatchList : ℕ → Cursor → List Watcher → Core ρ → WatchLists → ScanEnd ρ
  | 0, k, watches, s, l => ⟨watches, k.write, none, s, l⟩
  | n + 1, k, watches, s, l =>
    if k.read < watches.length then
      let a := k.advance falseLit watches s l
      match a.step with
      | .done => ⟨a.watches, a.cursor.write, none, a.core, a.lists⟩
      | .conflict reason => ⟨a.watches, a.cursor.write, some reason, a.core, a.lists⟩
      | .unit literal reason =>
        scanWatchList n a.cursor a.watches
          (onUnit literal reason (a.core.assign literal reason)) a.lists
    else ⟨watches, k.write, none, s, l⟩

def cursorKernel (watches : List Watcher) (s : Core ρ) (l : WatchLists) : ScanEnd ρ :=
  scanWatchList onUnit falseLit watches.length {} watches s l

end

section

variable {ρ : Type} (falseLit : ℕ)

structure WatchCursor where
  slice : List Watcher
  read : ℕ := 0
  write : ℕ := 0

namespace WatchCursor

def next (compact : Bool) (k : WatchCursor) : WatchCursor :=
  { k with write := if compact then k.write else k.read, read := k.read + 1 }

def keep (compact : Bool) (k : WatchCursor) (w : Watcher) (blocker : Option ℕ) : WatchCursor :=
  if compact then
    { k with
      slice := k.slice.set k.write (match blocker with | none => w | some b => { w with blocker := b })
      write := k.write + 1 }
  else
    match blocker with
    | none => k
    | some b => { k with slice := k.slice.modify k.write fun v => { v with blocker := b } }

def finish (compact : Bool) (k : WatchCursor) : List Watcher × ℕ :=
  if compact then
    let remaining := k.slice.length - k.read
    if remaining = 0 ∨ k.read = k.write then (k.slice, k.write + remaining)
    else (copyWithin k.slice k.read k.write, k.write + remaining)
  else (k.slice, k.slice.length)

end WatchCursor

/-- `list_kernel::scan` with the number of entries still to read. Units are assigned on the spot. -/
def listScan : Bool → ℕ → WatchCursor → Core ρ → WatchLists → ScanEnd ρ
  | compact, 0, k, s, l => ⟨(k.finish compact).1, (k.finish compact).2, none, s, l⟩
  | compact, n + 1, k, s, l =>
    let w := k.slice.getD k.read default
    let k := k.next compact
    if s.trail.litVal w.blocker > 0 then listScan compact n (k.keep compact w none) s l
    else
      match s.clauses w.r with
      | none => listScan true n k s l
      | some c =>
        match examine s.trail falseLit c with
        | .repair pair => listScan true n k s (l.repair WatchLists.iterCombined w pair)
        | .park c b => listScan compact n (k.keep compact w (some b)) (s.setClause w.r c) l
        | .move c watched first =>
          listScan true n k (s.setClause w.r c) (l.add (neg watched) { w with blocker := first })
        | .stuck c first =>
          let k := k.keep compact w (some first)
          let s := s.setClause w.r c
          if s.trail.litVal first < 0 then
            ⟨(k.finish compact).1, (k.finish compact).2, some c.identity, s, l⟩
          else listScan compact n k (s.assignUndefined first c.identity) l

def keptRun (watches : List Watcher) (t : Trail) : ℕ :=
  (watches.takeWhile fun w => t.litVal w.blocker > 0).length

/-- `scan_list`: the leading run of true blockers is cut off where the prefilter is in use. -/
def listKernel (simd : Bool) (watches : List Watcher) (s : Core ρ) (l : WatchLists) : ScanEnd ρ :=
  let cut := if simd ∧ 8 ≤ watches.length then keptRun watches s.trail else 0
  let e := listScan falseLit false (watches.length - cut) { slice := watches.drop cut } s l
  { e with watches := watches.take cut ++ e.watches, write := e.write + cut }

end

variable {ρ : Type} {onUnit : ℕ → ℕ → Core ρ → Core ρ} {falseLit read write : ℕ} {w : Watcher}
  {watches kept rest : List Watcher} {s : Core ρ} {l : WatchLists} {b : Option ℕ}
  {view : WatchLists → ℕ → List Watcher}

inductive Reaction (ρ : Type)
  | keep (blocker : Option ℕ) (s : Core ρ) (l : WatchLists)
  | drop (s : Core ρ) (l : WatchLists)
  | conflict (first reason : ℕ) (s : Core ρ) (l : WatchLists)
  | unit (first reason : ℕ) (s : Core ρ) (l : WatchLists)

def visit (view : WatchLists → ℕ → List Watcher) (falseLit : ℕ) (s : Core ρ) (l : WatchLists)
    (w : Watcher) : Reaction ρ :=
  if s.trail.litVal w.blocker > 0 then .keep none s l
  else
    match s.clauses w.r with
    | none => .drop s l
    | some c =>
      match examine s.trail falseLit c with
      | .repair pair => .drop s (l.repair view w pair)
      | .park c b => .keep (some b) (s.setClause w.r c) l
      | .move c watched first =>
        .drop (s.setClause w.r c) (l.add (neg watched) { w with blocker := first })
      | .stuck c first =>
        if (s.setClause w.r c).trail.litVal first < 0 then
          .conflict first c.identity (s.setClause w.r c) l
        else .unit first c.identity (s.setClause w.r c) l

def withBlocker (w : Watcher) : Option ℕ → Watcher
  | none => w
  | some b => { w with blocker := b }

def walk (view : WatchLists → ℕ → List Watcher) (onUnit : ℕ → ℕ → Core ρ → Core ρ) (falseLit : ℕ) :
    List Watcher → List Watcher → Core ρ → WatchLists →
      List Watcher × Option ℕ × Core ρ × WatchLists
  | kept, [], s, l => (kept, none, s, l)
  | kept, w :: rest, s, l =>
    match visit view falseLit s l w with
    | .keep b s l => walk view onUnit falseLit (kept ++ [withBlocker w b]) rest s l
    | .drop s l => walk view onUnit falseLit kept rest s l
    | .conflict first reason s l => (kept ++ withBlocker w (some first) :: rest, some reason, s, l)
    | .unit first reason s l =>
      walk view onUnit falseLit (kept ++ [withBlocker w (some first)]) rest
        (onUnit first reason (s.assign first reason)) l

theorem modify_eq_set {i : ℕ} {v : Watcher} (h : watches[i]? = some v) (f : Watcher → Watcher) :
    watches.modify i f = watches.set i (f v) := by
  rw [modify_eq_set_getElem?, h]
  rfl

theorem compacts_writeBack (h : Compacts watches write read kept (w :: rest)) (b : Option ℕ) :
    Compacts (writeBack watches read write w b) (write + 1) (read + 1) (kept ++ [withBlocker w b]) rest := by
  by_cases hwrite : write = read
  · subst hwrite
    cases b with
    | none => simpa [writeBack, withBlocker] using h.keep_same
    | some b =>
      have hset := modify_eq_set h.getElem?_read fun v => { v with blocker := b }
      simpa [writeBack, withBlocker, hset] using h.keep { w with blocker := b }
  · cases b with
    | none => simpa [writeBack, withBlocker, hwrite] using h.keep w
    | some b =>
      have hlt : write < watches.length := Nat.lt_of_le_of_lt h.write_le h.read_lt
      have hget : (watches.set write w)[write]? = some w := getElem?_set_self hlt
      have hset := modify_eq_set hget fun v => { v with blocker := b }
      have hkeep := h.keep { w with blocker := b }
      simpa [writeBack, withBlocker, hwrite, hset, set_set] using hkeep

theorem legacyScan_succ {n : ℕ} (hw : watches.getD read default = w) :
    legacyScan onUnit falseLit (n + 1) read write watches s l =
      match visit WatchLists.iterCombined falseLit s l w with
      | .keep b s l =>
        legacyScan onUnit falseLit n (read + 1) (write + 1) (writeBack watches read write w b) s l
      | .drop s l => legacyScan onUnit falseLit n (read + 1) write watches s l
      | .conflict first reason s l =>
        let copied := copyRest default n (read + 1) (write + 1)
          (writeBack watches read write w (some first))
        ⟨copied.1, copied.2, some reason, s, l⟩
      | .unit first reason s l =>
        legacyScan onUnit falseLit n (read + 1) (write + 1)
          (writeBack watches read write w (some first)) (onUnit first reason (s.assign first reason)) l := by
  rw [legacyScan, hw, visit]
  by_cases hblocker : s.trail.litVal w.blocker > 0
  · simp only [hblocker, if_true]
  · simp only [hblocker, if_false]
    cases s.clauses w.r with
    | none => rfl
    | some c =>
      dsimp only
      cases examine s.trail falseLit c with
      | repair pair => rfl
      | park c b => rfl
      | move c watched first => rfl
      | stuck c first =>
        by_cases hfirst : (s.setClause w.r c).trail.litVal first < 0
        · simp only [hfirst, if_true]
        · simp only [hfirst, if_false]

theorem legacyScan_result (h : Compacts watches write read kept rest) :
    (legacyScan onUnit falseLit rest.length read write watches s l).result =
    walk WatchLists.iterCombined onUnit falseLit kept rest s l := by
  induction rest generalizing watches write read kept s l with
  | nil =>
    rw [length_nil, legacyScan, ScanEnd.result, h.kept_eq]
    rfl
  | cons w rest ih =>
    rw [length_cons, legacyScan_succ (h.getD_read default), walk]
    cases visit WatchLists.iterCombined falseLit s l w with
    | keep b s l => exact ih (compacts_writeBack h b)
    | drop s l => exact ih h.skip
    | conflict first reason s l =>
      dsimp only
      rw [ScanEnd.result, (compacts_writeBack h (some first)).take_copyRest, append_assoc, singleton_append]
    | unit first reason s l => exact ih (compacts_writeBack h (some first))

theorem legacy_result : (legacy onUnit falseLit watches s l).result =
    walk WatchLists.iterCombined onUnit falseLit [] watches s l :=
  legacyScan_result (compacts_start watches)

end Nixie.Watch
