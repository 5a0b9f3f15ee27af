import Nixie.Decimal

/-!
The LRAT proof checker of `nixie-proof/src/lrat_check.rs`.
-/

namespace Nixie.Lrat

open Nixie.Rust List Function

inductive LitStatus
  | true
  | false
  | unassigned
  deriving DecidableEq

abbrev Assignment := Int32 → Option Bool

abbrev Active := Int64 → Option (List Int32)

namespace Assignment

def new : Assignment := fun _ => none

def status (p : Profile) (a : Assignment) (lit : Int32) : Run LitStatus := do
  let var ← absI32 p lit
  match a var with
  | none => return .unassigned
  | some varIsTrue => return if decide (0 < lit) == varIsTrue then .true else .false

def assignTrue (p : Profile) (a : Assignment) (lit : Int32) : Run (Bool × Assignment) := do
  let var ← absI32 p lit
  let want := decide (0 < lit)
  match a var with
  | some have_ => return (have_ == want, a)
  | none => return (true, update a var (some want))

end Assignment

inductive RupError
  | inactiveHint (id : Int64)
  | notUnit (id : Int64)
  | exhausted
  deriving DecidableEq

def assumeNegation (p : Profile) : Assignment → List Int32 → Run (Option Assignment)
  | a, [] => return some a
  | a, lit :: rest => do
    let negated ← negI32 p lit
    let (consistent, a') ← a.assignTrue p negated
    if consistent then assumeNegation p a' rest else return none

structure HintScan where
  satisfied : Bool := false
  unassignedLit : Option Int32 := none
  hasMultipleUnassigned : Bool := false
  deriving DecidableEq

def HintScan.noteUnassigned (s : HintScan) (lit : Int32) : HintScan :=
  if s.unassignedLit.any (· != lit) then { s with hasMultipleUnassigned := true }
  else { s with unassignedLit := some lit }

def scanHint (p : Profile) (a : Assignment) : List Int32 → HintScan → Run HintScan
  | [], s => return s
  | lit :: rest, s => do
    match ← a.status p lit with
    | .true => return { s with satisfied := true }
    | .false => scanHint p a rest s
    | .unassigned => scanHint p a rest (s.noteUnassigned lit)

def replayHints (p : Profile) (active : Active) : Assignment → List Int64 → Run (Except RupError Unit)
  | _, [] => return .error .exhausted
  | a, hintId :: rest =>
    match active hintId with
    | none => return .error (.inactiveHint hintId)
    | some hintClause => do
      let s ← scanHint p a hintClause {}
      if s.satisfied then replayHints p active a rest
      else match s.unassignedLit with
        | none => return .ok ()
        | some lit =>
          if s.hasMultipleUnassigned then return .error (.notUnit hintId)
          else do
            let (_, a') ← a.assignTrue p lit
            replayHints p active a' rest

def rupCheck (p : Profile) (active : Active) (clause : List Int32) (hints : List Int64) :
    Run (Except RupError Unit) := do
  match ← assumeNegation p .new clause with
  | none => return .ok ()
  | some a => replayHints p active a hints

inductive LratLine
  | addition (id : Int64) (lits : List Int32) (hints : List Int64)
  | deletion (ids : List Int64)
  deriving DecidableEq

inductive Field
  | deletionIds
  | literals
  | hints
  deriving DecidableEq

inductive ParseError
  | emptyRecord
  | leadingId
  | unterminated (field : Field)
  | nonInteger (field : Field) (token : List Char)
  deriving DecidableEq

def readField {α : Type} [DecidableEq α] [OfNat α 0] (field : Field) (parse : List Char → Option α) :
    List (List Char) → Except ParseError (List α × List (List Char))
  | [] => .error (.unterminated field)
  | token :: rest =>
    match parse token with
    | none => .error (.nonInteger field token)
    | some v =>
      if v = 0 then .ok ([], rest)
      else (readField field parse rest).map fun r => (v :: r.1, r.2)

def parseLratLine (line : List Char) : Except ParseError LratLine :=
  match splitWhitespace line with
  | [] => .error .emptyRecord
  | first :: rest =>
    match parseI64 first with
    | none => .error .leadingId
    | some id =>
      if rest.head? = some ['d'] then do
        let (ids, _) ← readField .deletionIds parseI64 rest.tail
        return .deletion ids
      else do
        let (lits, rest) ← readField .literals parseI32 rest
        let (hints, _) ← readField .hints parseI64 rest
        return .addition id lits hints

inductive Failure
  | parse (lineNo : ℕ) (error : ParseError)
  | rup (lineNo : ℕ) (id : Int64) (error : RupError)
  | noEmptyClause
  deriving DecidableEq

structure LratCheckReport where
  verified : Bool
  additionsChecked : ℕ
  deletionsApplied : ℕ
  failure : Option Failure
  deriving DecidableEq

namespace LratCheckReport

def reject (reason : Failure) (additionsChecked deletionsApplied : ℕ) : LratCheckReport :=
  ⟨false, additionsChecked, deletionsApplied, some reason⟩

def accept (additionsChecked deletionsApplied : ℕ) : LratCheckReport :=
  ⟨true, additionsChecked, deletionsApplied, none⟩

end LratCheckReport

structure Checker where
  active : Active
  additionsChecked : ℕ
  deletionsApplied : ℕ

def loadOriginals : ℕ → Active → List (List Int32) → Option Active
  | _, active, [] => some active
  | i, active, clause :: rest =>
    if clause.isEmpty then none
    else loadOriginals (i + 1) (update active (Int64.ofNat (i + 1)) (some clause)) rest

def Checker.deleteIds (s : Checker) (ids : List Int64) : Checker :=
  { s with
    active := ids.foldl (fun active id => update active id none) s.active
    deletionsApplied := s.deletionsApplied + 1 }

def checkRecord (p : Profile) (s : Checker) (lineNo : ℕ) :
    LratLine → Run (Except LratCheckReport Checker)
  | .deletion ids => return .ok (s.deleteIds ids)
  | .addition id lits hints => do
    match ← rupCheck p s.active lits hints with
    | .error e => return .error (.reject (.rup lineNo id e) s.additionsChecked s.deletionsApplied)
    | .ok () =>
      let s' : Checker := { s with
        active := update s.active id (some lits)
        additionsChecked := s.additionsChecked + 1 }
      if lits.isEmpty then return .error (.accept s'.additionsChecked s'.deletionsApplied)
      else return .ok s'

def checkLine (p : Profile) (s : Checker) (lineNo : ℕ) (rawLine : List Char) :
    Run (Except LratCheckReport Checker) :=
  let line := trim rawLine
  if line.isEmpty then return .ok s
  else match parseLratLine line with
    | .error e => return .error (.reject (.parse lineNo e) s.additionsChecked s.deletionsApplied)
    | .ok record => checkRecord p s lineNo record

def checkLines (p : Profile) : Checker → ℕ → List (List Char) → Run LratCheckReport
  | s, _, [] => return .reject .noEmptyClause s.additionsChecked s.deletionsApplied
  | s, i, rawLine :: rest => do
    match ← checkLine p s (i + 1) rawLine with
    | .error report => return report
    | .ok s' => checkLines p s' (i + 1) rest

def checkLratProof (p : Profile) (originalClauses : List (List Int32)) (lratText : String) :
    Run LratCheckReport :=
  match loadOriginals 0 (fun _ => none) originalClauses with
  | none => return .accept 0 0
  | some active => checkLines p ⟨active, 0, 0⟩ 0 (lines lratText.toList)

structure MemoryLratTracer where
  proof : List Char := []
  latestId : Int64 := 0
  deleteIds : List Int64 := []
  closed : Bool := false

namespace MemoryLratTracer

section

variable (t : MemoryLratTracer)

def write (text : List Char) : MemoryLratTracer := { t with proof := t.proof ++ text }

def writeNumbers (numbers : List ℤ) : MemoryLratTracer :=
  numbers.foldl (fun t z => (t.write (displayInt z)).write [' ']) t

def flushDeletes : MemoryLratTracer :=
  if t.deleteIds.isEmpty then t
  else
    let header := ({ t with deleteIds := [] }.write (displayInt t.latestId.toInt)).write [' ', 'd', ' ']
    (header.writeNumbers (t.deleteIds.map Int64.toInt)).write ['0', '\n']

def addDerivedClause (id : Int64) (clause : List Int32) (chain : List Int64) : MemoryLratTracer :=
  if t.closed then t
  else
    let header := { t.flushDeletes with latestId := id }.writeNumbers [id.toInt]
    let lits := (header.writeNumbers (clause.map Int32.toInt)).write ['0', ' ']
    (lits.writeNumbers (chain.map Int64.toInt)).write ['0', '\n']

def deleteClause (id : Int64) : MemoryLratTracer :=
  if t.closed then t else { t with deleteIds := t.deleteIds ++ [id] }

def beginProof (id : Int64) : MemoryLratTracer :=
  if t.closed then t else { t with latestId := id }

def flush : MemoryLratTracer := if t.closed then t else t.flushDeletes

def close : MemoryLratTracer := if t.closed then t else { t.flushDeletes with closed := true }

end

end MemoryLratTracer

inductive LratRecord
  | derived (id : Int64) (clause : List Int32) (chain : List Int64)
  | delete (id : Int64)
  deriving DecidableEq

namespace LratRecord

def send (t : MemoryLratTracer) : LratRecord → MemoryLratTracer
  | .derived id clause chain => t.addDerivedClause id clause chain
  | .delete id => t.deleteClause id

def Proper : LratRecord → Prop
  | .derived _ clause chain => 0 ∉ clause ∧ 0 ∉ chain
  | .delete id => id ≠ 0

def toLines : List LratRecord → List LratLine
  | [] => []
  | .derived id clause chain :: records => .addition id clause chain :: toLines records
  | .delete id :: records =>
    match toLines records with
    | .deletion ids :: rest => .deletion (id :: ids) :: rest
    | rest => .deletion [id] :: rest

end LratRecord

section

variable {α : Type} [DecidableEq α] [OfNat α 0] {parse : List Char → Option α} {field : Field}
  {display : α → List Char} {xs : List α} {rest : List (List Char)}

theorem readField_display (hparse : ∀ x, parse (display x) = some x) (hzero : parse ['0'] = some 0)
    (hxs : 0 ∉ xs) : readField field parse (xs.map display ++ ['0'] :: rest) = .ok (xs, rest) := by
  induction xs with
  | nil =>
    rw [map_nil, nil_append, readField, hzero]
    exact if_pos rfl
  | cons x xs ih =>
    rw [mem_cons, not_or] at hxs
    obtain ⟨hx, hxs⟩ := hxs
    rw [map_cons, cons_append, readField, hparse]
    dsimp only
    rw [if_neg (Ne.symm hx), ih hxs]
    rfl

end

def LratLine.words (latestId : Int64) : LratLine → List (List Char)
  | .addition id lits hints => displayInt id.toInt :: lits.map (fun lit => displayInt lit.toInt) ++
      ['0'] :: hints.map fun hint => displayInt hint.toInt
  | .deletion ids => displayInt latestId.toInt :: ['d'] :: ids.map fun id => displayInt id.toInt

def LratLine.text (latestId : Int64) (line : LratLine) : List Char :=
  spaced (line.words latestId) ++ ['0']

def LratLine.Proper : LratLine → Prop
  | .addition _ lits hints => 0 ∉ lits ∧ 0 ∉ hints
  | .deletion ids => 0 ∉ ids

variable {latestId : Int64} {line : LratLine} {t : MemoryLratTracer}

theorem isWord_words : ∀ w ∈ line.words latestId, IsWord w := by
  have hzero : IsWord ['0'] := ⟨by simp, by simp [isWhitespace]⟩
  have hd : IsWord ['d'] := ⟨by simp, by simp [isWhitespace]⟩
  intro w hw
  cases line with
  | addition id lits hints =>
    simp only [LratLine.words, mem_cons, mem_append, mem_map] at hw
    rcases hw with (rfl | ⟨x, -, rfl⟩) | rfl | ⟨x, -, rfl⟩
    · exact isWord_displayInt
    · exact isWord_displayInt
    · exact hzero
    · exact isWord_displayInt
  | deletion ids =>
    simp only [LratLine.words, mem_cons, mem_map] at hw
    rcases hw with rfl | rfl | ⟨x, -, rfl⟩
    · exact isWord_displayInt
    · exact hd
    · exact isWord_displayInt

theorem splitWhitespace_text : splitWhitespace (line.text latestId) = line.words latestId ++ [['0']] := by
  rw [LratLine.text, splitWhitespace_spaced isWord_words]
  rfl

theorem displayInt_ne_d {z : ℤ} : displayInt z ≠ ['d'] := by
  intro h
  have hsigned := signed_displayInt (z := z)
  have hnone : signed ['d'] = none := by decide
  rw [h, hnone] at hsigned
  cases hsigned

theorem parseLratLine_text (hline : line.Proper) : parseLratLine (line.text latestId) = .ok line := by
  have h32 : parseI32 ['0'] = some 0 := by decide
  have h64 : parseI64 ['0'] = some 0 := by decide
  unfold parseLratLine
  rw [splitWhitespace_text]
  cases line with
  | addition id lits hints =>
    have hhead : ((lits.map fun lit => displayInt lit.toInt) ++
        ['0'] :: ((hints.map fun hint => displayInt hint.toInt) ++ [['0']])).head? ≠ some ['d'] := by
      cases lits with
      | nil => simp
      | cons lit lits => exact fun h => displayInt_ne_d (Option.some.inj h)
    simp only [LratLine.words, cons_append, append_assoc, parseI64_displayInt]
    rw [if_neg hhead, readField_display parseI32_displayInt h32 hline.1]
    dsimp only [bind, Except.bind]
    rw [readField_display parseI64_displayInt h64 hline.2]
    rfl
  | deletion ids =>
    simp only [LratLine.words, cons_append, parseI64_displayInt, head?_cons, tail_cons, ↓reduceIte]
    rw [readField_display parseI64_displayInt h64 hline]
    rfl

theorem isLine_text : IsLine (line.text latestId) := by
  refine ⟨fun c hc => ?_, by simp [LratLine.text]⟩
  rcases mem_append.mp hc with hc | hc
  · obtain ⟨w, hw, hc⟩ := mem_flatMap.mp hc
    rcases mem_append.mp hc with hc | hc
    · rintro rfl
      exact absurd ((isWord_words w hw).2 _ hc) (by decide)
    · rw [mem_singleton.mp hc]
      decide
  · rw [mem_singleton.mp hc]
    decide

namespace MemoryLratTracer

theorem writeNumbers_eq {numbers : List ℤ} : t.writeNumbers numbers = t.write (spaced (numbers.map displayInt)) := by
  induction numbers generalizing t with
  | nil => simp [writeNumbers, write, spaced]
  | cons z numbers ih =>
    have hstep : t.writeNumbers (z :: numbers) = ((t.write (displayInt z)).write [' ']).writeNumbers numbers := rfl
    rw [hstep, ih]
    simp [write, spaced]

def pendingLines (latestId : Int64) (ids : List Int64) : List (Int64 × LratLine) :=
  if ids.isEmpty then [] else [(latestId, .deletion ids)]

def linesText (ls : List (Int64 × LratLine)) : List Char :=
  terminated (ls.map fun l => l.2.text l.1)

theorem flushDeletes_eq : t.flushDeletes =
    { t with
      proof := t.proof ++ linesText (pendingLines t.latestId t.deleteIds)
      deleteIds := [] } := by
  unfold flushDeletes pendingLines
  split
  · next hempty =>
    rw [List.isEmpty_iff] at hempty
    simp [linesText, terminated, ← hempty]
  · simp [writeNumbers_eq, write, linesText, terminated, LratLine.text, LratLine.words, spaced, Function.comp_def]

theorem addDerivedClause_eq (hclosed : t.closed = false) {id : Int64} {clause : List Int32}
    {chain : List Int64} : t.addDerivedClause id clause chain =
      { t with
        proof := t.proof ++ linesText (pendingLines t.latestId t.deleteIds ++
          [(id, .addition id clause chain)])
        latestId := id
        deleteIds := [] } := by
  unfold addDerivedClause
  rw [if_neg (by simp [hclosed]), flushDeletes_eq]
  simp [writeNumbers_eq, write, linesText, terminated, LratLine.text, LratLine.words, spaced, comp_def]

def emitted : Int64 → List Int64 → List LratRecord → List (Int64 × LratLine)
  | latestId, ids, [] => pendingLines latestId ids
  | latestId, ids, .derived id clause chain :: records =>
    pendingLines latestId ids ++ (id, .addition id clause chain) :: emitted id [] records
  | latestId, ids, .delete id :: records => emitted latestId (ids ++ [id]) records

theorem send_flush (hclosed : t.closed = false) (records : List LratRecord) :
    (records.foldl LratRecord.send t).flush.proof = t.proof ++ linesText (emitted t.latestId t.deleteIds records) := by
  induction records generalizing t with
  | nil =>
    rw [foldl_nil, flush, if_neg (by simp [hclosed]), flushDeletes_eq]
    rfl
  | cons record records ih =>
    cases record with
    | derived id clause chain =>
      have hsend : LratRecord.send t (.derived id clause chain) = _ := addDerivedClause_eq hclosed
      rw [foldl_cons, hsend, ih (by exact hclosed)]
      simp [emitted, linesText, terminated]
    | delete id =>
      have hsend : LratRecord.send t (.delete id) = { t with deleteIds := t.deleteIds ++ [id] } :=
        if_neg (by simp [hclosed])
      rw [foldl_cons, hsend, ih (by exact hclosed)]
      rfl

def joinDeletions (ids : List Int64) : List LratLine → List LratLine
  | .deletion ids' :: rest => .deletion (ids ++ ids') :: rest
  | rest => if ids.isEmpty then rest else .deletion ids :: rest

theorem joinDeletions_nil {ls : List LratLine} : joinDeletions [] ls = ls := by
  unfold joinDeletions
  split <;> simp

end MemoryLratTracer

open MemoryLratTracer

variable {records : List LratRecord}

theorem joinDeletions_toLines_delete {ids : List Int64} {id : Int64} :
    joinDeletions ids (LratRecord.toLines (.delete id :: records)) =
    joinDeletions (ids ++ [id]) (LratRecord.toLines records) := by
  rw [LratRecord.toLines]
  split
  · next heq =>
    rw [heq]
    simp [joinDeletions]
  · next hrest =>
    cases hlines : LratRecord.toLines records with
    | nil => simp [joinDeletions]
    | cons line rest =>
      cases line with
      | addition id lits hints => simp [joinDeletions]
      | deletion ids' => exact absurd hlines (hrest ids' rest)

theorem map_emitted {latestId : Int64} {ids : List Int64} :
    (emitted latestId ids records).map Prod.snd = joinDeletions ids (LratRecord.toLines records) := by
  have hpending (latestId : Int64) (ids : List Int64) : (pendingLines latestId ids).map Prod.snd =
      if ids.isEmpty then [] else [.deletion ids] := by
    unfold pendingLines
    split <;> rfl
  induction records generalizing latestId ids with
  | nil => exact hpending latestId ids
  | cons record records ih =>
    cases record with
    | derived id clause chain =>
      rw [emitted, map_append, map_cons, hpending, ih, joinDeletions_nil, LratRecord.toLines]
      unfold joinDeletions
      split <;> rfl
    | delete id => rw [joinDeletions_toLines_delete, ← ih, emitted]

theorem proper_toLines (hrecords : ∀ r ∈ records, r.Proper) : ∀ line ∈ LratRecord.toLines records, line.Proper := by
  induction records with
  | nil => simp [LratRecord.toLines]
  | cons record records ih =>
    obtain ⟨hrecord, hrecords⟩ := forall_mem_cons.mp hrecords
    have hlines := ih hrecords
    cases record with
    | derived id clause chain => exact forall_mem_cons.mpr ⟨hrecord, hlines⟩
    | delete id =>
      have hid : id ≠ 0 := hrecord
      rw [LratRecord.toLines]
      split
      · next heq =>
        rw [heq] at hlines
        obtain ⟨hids, hrest⟩ := forall_mem_cons.mp hlines
        refine forall_mem_cons.mpr ⟨?_, hrest⟩
        rw [LratLine.Proper, mem_cons, not_or]
        exact ⟨Ne.symm hid, hids⟩
      · refine forall_mem_cons.mpr ⟨?_, hlines⟩
        rw [LratLine.Proper, mem_singleton]
        exact Ne.symm hid

/-- The text that a new tracer has after the records and a flush is parsed, line by line, as the
records. -/
theorem lrat_round_trip (firstId : Int64) (records : List LratRecord)
    (hrecords : ∀ r ∈ records, r.Proper) :
    (lines (records.foldl LratRecord.send (({} : MemoryLratTracer).beginProof firstId)).flush.proof).map
      parseLratLine = (LratRecord.toLines records).map .ok := by
  have hproof := send_flush (t := ({} : MemoryLratTracer).beginProof firstId) rfl records
  have hempty : (({} : MemoryLratTracer).beginProof firstId).proof = [] := rfl
  rw [hproof, hempty, nil_append, linesText, lines_terminated]
  · have hlines : (emitted firstId [] records).map Prod.snd = LratRecord.toLines records := by
      rw [map_emitted, joinDeletions_nil]
    rw [← hlines, map_map, map_map]
    refine map_congr_left fun l hl => ?_
    refine parseLratLine_text (proper_toLines hrecords l.2 ?_)
    rw [← hlines]
    exact mem_map_of_mem hl
  · intro l hl
    obtain ⟨p, -, rfl⟩ := mem_map.mp hl
    exact isLine_text

theorem lrat_round_trip_deletions : (lines
    ([.delete 1, .derived 5 [-3, 2] [1, 4], .delete 2, .delete 5].foldl LratRecord.send
    (({} : MemoryLratTracer).beginProof 4)).flush.proof).map parseLratLine =
    [.deletion [1], .addition 5 [-3, 2] [1, 4], .deletion [2, 5]].map .ok :=
  lrat_round_trip 4 [.delete 1, .derived 5 [-3, 2] [1, 4], .delete 2, .delete 5]
    (by simp [LratRecord.Proper])

end Nixie.Lrat
