import Nixie.Propositional

/-!
State of the embedded solver `nixie-sat/src/kitten.rs`, and the operations on it that do not
search.  Vectors indexed by variable or literal are total functions with the value a fresh entry
gets beyond the allocated range; the klause arena is the flat word vector of the source, with
`u32` references that wrap as a release build does.
-/

namespace Nixie.Kitten

def INVALID : ℕ := 2 ^ 32 - 1

def MAX_VARS : ℕ := 2 ^ 31 - 1

def externalLiteralSane (elit : ℕ) : Bool := elit / 2 < MAX_VARS

inductive KittenResult
  | satisfied
  | inconsistent
  | unknown
  deriving DecidableEq

inductive Status
  | unsolved
  | satisfied
  | inconsistent
  | inconsistentCore
  deriving DecidableEq

structure Kar where
  level : ℕ
  reason : ℕ
  deriving DecidableEq

structure Kink where
  next : ℕ
  prev : ℕ
  stamp : ℕ
  deriving DecidableEq

structure Katch where
  blit : ℕ
  reference : ℕ
  binary : Bool
  deriving DecidableEq

structure Queue where
  first : Option ℕ := none
  last : Option ℕ := none
  stamp : ℕ := 0
  search : Option ℕ := none
  deriving DecidableEq

end Nixie.Kitten

namespace Nixie

open Kitten Function

structure Kitten where
  status : Status := .unsolved
  antecedents : Bool := false
  learned : Bool := false
  exhausted : Bool := false
  level : ℕ := 0
  propagated : ℕ := 0
  unassigned : ℕ := 0
  inconsistent : Option ℕ := none
  failing : Option ℕ := none
  generator : UInt64 := 0
  lits : ℕ := 0
  evars : ℕ := 0
  queue : Queue := {}
  size : ℕ := 0
  vars : ℕ → Kar := fun _ => ⟨0, 0⟩
  links : ℕ → Kink := fun _ => ⟨INVALID, INVALID, 0⟩
  marks : ℕ → Bool := fun _ => false
  values : ℕ → ℤ := fun _ => 0
  failed : ℕ → Bool := fun _ => false
  phases : ℕ → ℕ := fun _ => 0
  importTable : ℕ → ℕ := fun _ => 0
  watches : ℕ → List Katch := fun _ => []
  analyzed : List ℕ := []
  assumptions : List ℕ := []
  core : List ℕ := []
  exportTable : List ℕ := []
  klause : List ℕ := []
  klauses : List ℕ := []
  resolved : List ℕ := []
  trail : List ℕ := []
  units : List ℕ := []
  ticksLimit : ℕ := 2 ^ 64 - 1
  initialized : ℕ := 0
  ticks : ℕ := 0
  /-- Not in the source: some reference `r` was handed out whose `r + 3` leaves `u32`. -/
  referenceOverflow : Bool := false

namespace Kitten

def CORE_FLAG : ℕ := 1

def LEARNED_FLAG : ℕ := 2

section

variable (k : Kitten)

def initKitten : Kitten :=
  { k with
    queue := {}
    inconsistent := none
    failing := none
    ticksLimit := 2 ^ 64 - 1
    generator := UInt64.ofNat k.initialized
    initialized := k.initialized + 1 }

def new : Kitten := initKitten {}

def clear : Kitten :=
  initKitten
    { size := k.size
      links := k.links
      importTable := k.exportTable.foldl (fun table eidx => update table eidx 0) k.importTable
      initialized := k.initialized
      ticks := k.ticks
      referenceOverflow := k.referenceOverflow }

def updateSearch (idx : ℕ) : Kitten := { k with queue.search := some idx }

def setLink (idx : ℕ) (f : Kink → Kink) : Kitten :=
  { k with links := update k.links idx (f (k.links idx)) }

def enqueue (idx : ℕ) : Kitten :=
  let last := k.queue.last
  let k := match last with
    | none => { k with queue.first := some idx }
    | some l => k.setLink l fun s => { s with next := idx }
  let k := k.setLink idx fun _ => ⟨INVALID, last.getD INVALID, k.queue.stamp⟩
  { k with queue.last := some idx, queue.stamp := (k.queue.stamp + 1) % 2 ^ 64 }

def dequeue (idx : ℕ) : Kitten :=
  let l := k.links idx
  let k := if l.prev = INVALID
    then { k with queue.first := if l.next = INVALID then none else some l.next }
    else k.setLink l.prev fun s => { s with next := l.next }
  if l.next = INVALID
    then { k with queue.last := if l.prev = INVALID then none else some l.prev }
    else k.setLink l.next fun s => { s with prev := l.prev }

def moveToFront (idx : ℕ) : Kitten :=
  if some idx = k.queue.last then k else (k.dequeue idx).enqueue idx

def searchLast : Kitten :=
  match k.queue.last with
  | none => k
  | some last => k.updateSearch last

end

def enqueueNew : ℕ → ℕ → Kitten → Kitten
  | _, 0, k => k
  | idx, count + 1, k =>
    enqueueNew (idx + 1) count (enqueue { k with unassigned := k.unassigned + 1 } idx)

section

variable (k : Kitten)

def initQueue (oldVars newVars : ℕ) : Kitten :=
  (enqueueNew oldVars (newVars - oldVars) k).searchLast

def doubleUntil (bound : ℕ) : ℕ → ℕ → ℕ
  | 0, size => size
  | fuel + 1, size => if size ≤ bound then doubleUntil bound fuel (size * 2) else size

def enlargeInternal (newLits : ℕ) : Kitten :=
  let oldLits := k.lits
  let size := if k.size < newLits
    then doubleUntil newLits newLits (if k.size = 0 then 2 else k.size * 2) else k.size
  initQueue { k with size := size, lits := newLits } (oldLits / 2) (newLits / 2)

def importLiteral (elit : ℕ) : Kitten × ℕ :=
  let eidx := elit / 2
  let k := if k.evars ≤ eidx then { k with evars := eidx + 1 } else k
  let (k, iidx) :=
    if k.importTable eidx = 0 then
      ({ k with
          exportTable := k.exportTable ++ [eidx]
          importTable := update k.importTable eidx (k.exportTable.length + 1) }, k.exportTable.length)
    else (k, k.importTable eidx - 1)
  let ilit := 2 * iidx + elit % 2
  let newLits := (ilit ||| 1) + 1
  (if k.lits < newLits then k.enlargeInternal newLits else k, ilit)

def exportLiteral (ilit : ℕ) : ℕ :=
  match k.exportTable[ilit / 2]? with
  | some eidx => 2 * eidx + ilit % 2
  | none => ilit

def word (i : ℕ) : ℕ := k.klauses.getD i 0

def wrap (reference offset : ℕ) : ℕ := (reference + offset) % 2 ^ 32

def klauseAux (reference : ℕ) : ℕ := k.word reference

def klauseSize (reference : ℕ) : ℕ := k.word (wrap reference 1)

def klauseFlags (reference : ℕ) : ℕ := k.word (wrap reference 2)

def klauseLits (reference : ℕ) : List ℕ :=
  (k.klauses.drop (wrap reference 3)).take (k.klauseSize reference)

def isLearnedKlause (reference : ℕ) : Bool :=
  k.klauseFlags reference &&& LEARNED_FLAG != 0

def isCoreKlause (reference : ℕ) : Bool := k.klauseFlags reference &&& CORE_FLAG != 0

def setCoreKlause (reference : ℕ) : Kitten :=
  { k with klauses := k.klauses.set (wrap reference 2) (k.klauseFlags reference ||| CORE_FLAG) }

def unsetCoreKlause (reference : ℕ) : Kitten :=
  { k with
    klauses := k.klauses.set (wrap reference 2) (k.klauseFlags reference &&& (2 ^ 32 - 1 - CORE_FLAG)) }

def klauseAntecedents (reference : ℕ) : List ℕ :=
  (k.klauses.drop (wrap reference 3 + k.klauseSize reference)).take (k.klauseAux reference)

def newReference : Kitten × ℕ :=
  if INVALID ≤ k.klauses.length then ({ k with exhausted := true }, INVALID)
  else ({ k with
    ticks := k.ticks + 1
    referenceOverflow := k.referenceOverflow || 2 ^ 32 ≤ k.klauses.length + 3 }, k.klauses.length)

def watchKlause (lit reference : ℕ) (binary : Bool) : Kitten :=
  let lits := k.klauseLits reference
  let blit := lits.getD 0 0 ^^^ lits.getD 1 0 ^^^ lit
  { k with watches := update k.watches lit (k.watches lit ++ [⟨blit, reference, binary⟩]) }

def connectNewKlause (reference : ℕ) : Kitten :=
  let size := k.klauseSize reference
  if size = 0 then
    if k.inconsistent.isNone then { k with inconsistent := some reference } else k
  else if size = 1 then { k with units := k.units ++ [reference] }
  else
    let lits := k.klauseLits reference
    let binary := size == 2
    (k.watchKlause (lits.getD 0 0) reference binary).watchKlause (lits.getD 1 0) reference binary

def pushKlause (aux flags : ℕ) (antecedents : List ℕ) : Kitten :=
  { k with klauses := k.klauses ++ ([aux, k.klause.length, flags] ++ k.klause ++ antecedents) }

def newOriginalKlause (id : ℕ) : Kitten :=
  if k.exhausted then k
  else
    let (k, reference) := k.newReference
    if reference = INVALID then k else (k.pushKlause id 0 []).connectNewKlause reference

def newLearnedKlause : Kitten × ℕ :=
  if k.exhausted then ({ k with klause := [], resolved := [] }, INVALID)
  else
    let (k, reference) := k.newReference
    if reference = INVALID then ({ k with klause := [], resolved := [] }, INVALID)
    else
      let antecedents := if k.antecedents then k.resolved else []
      let k := (k.pushKlause antecedents.length LEARNED_FLAG antecedents).connectNewKlause reference
      ({ k with learned := true }, reference)

def nextRandom64 (generator : UInt64) : UInt64 :=
  generator * 6364136223846793005 + 1442695040888963407

def roundF64 (n : ℕ) : ℕ :=
  if n < 2 ^ 53 then n
  else
    let s := n.log2 - 52
    let q := n / 2 ^ s
    let r := n % 2 ^ s
    (if 2 ^ (s - 1) < r ∨ (r = 2 ^ (s - 1) ∧ q % 2 = 1) then q + 1 else q) * 2 ^ s

def pickRandom (generator : UInt64) (l r : ℕ) : ℕ × UInt64 :=
  if l = r then (l, generator)
  else
    let delta := r - l
    let generator := nextRandom64 generator
    let scaled := roundF64 (delta * (generator >>> 32).toNat) / 2 ^ 32
    (l + if delta ≤ scaled then delta - 1 else scaled, generator)

def randomWord (generator : UInt64) : ℕ → UInt64
  | 0 => nextRandom64 generator
  | n + 1 => nextRandom64 (randomWord generator n)

def randomBit (generator : UInt64) (block bit : ℕ) : ℕ :=
  ((randomWord generator block >>> UInt64.ofNat bit) &&& 1).toNat

def randomizePhases : Kitten :=
  let vars := k.size / 2
  let blocks := vars / 64
  { k with
    phases := fun i =>
      if i < 64 * blocks then randomBit k.generator (i / 64) (i % 64 / 8 + 8 * (i % 8))
      else if i < vars then randomBit k.generator blocks (i - 64 * blocks)
      else k.phases i
    generator := randomWord k.generator blocks }

def flipPhases : Kitten :=
  { k with phases := fun i => if i < k.size / 2 then k.phases i ^^^ 1 else k.phases i }

end

def swap {α : Type} (xs : List α) (i j : ℕ) : List α :=
  match xs[i]?, xs[j]? with
  | some a, some b => (xs.set i b).set j a
  | _, _ => xs

/-- The draws have an exclusive upper bound: element `i` trades places with an earlier one. -/
def shuffle {α : Type} : ℕ → ℕ → List α → UInt64 → List α × UInt64
  | _, 0, xs, generator => (xs, generator)
  | i, count + 1, xs, generator =>
    let (j, generator) := pickRandom generator 0 i
    shuffle (i + 1) count (if 0 < i ∧ j ≠ i then swap xs i j else xs) generator

def shuffleQueue (vars : ℕ) : ℕ → Kitten → Kitten
  | 0, k => k
  | count + 1, k =>
    let (idx, generator) := pickRandom k.generator 0 vars
    shuffleQueue vars count (({ k with generator := generator }.dequeue idx).enqueue idx)

def shuffleWatches : ℕ → ℕ → Kitten → Kitten
  | _, 0, k => k
  | lit, count + 1, k =>
    let (watches, generator) := shuffle 0 (k.watches lit).length (k.watches lit) k.generator
    shuffleWatches (lit + 1) count
      { k with watches := update k.watches lit watches, generator := generator }

def shuffleClauses (k : Kitten) : Kitten :=
  if k.status ≠ .unsolved then k
  else
    let vars := k.lits / 2
    let k := shuffleWatches 0 k.lits (shuffleQueue vars vars k).searchLast
    let (units, generator) := shuffle 0 k.units.length k.units k.generator
    { k with units := units, generator := generator }

def noTicksLimit (k : Kitten) : Kitten := { k with ticksLimit := 2 ^ 64 - 1 }

def setTicksLimitDelta (k : Kitten) (delta : ℕ) : Kitten :=
  { k with ticksLimit := min (2 ^ 64 - 1) (k.ticks + delta) }

def trackAntecedents (k : Kitten) : Kitten :=
  if k.status ≠ .unsolved ∨ k.learned then k else { k with antecedents := true }

end Kitten

end Nixie
