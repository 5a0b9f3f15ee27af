import Mathlib.Data.List.DropRight
import Nixie.Rust
import Nixie.Sat.Cardinality
import Nixie.Utf8

/-!
The DIMACS reader of `nixie-sat/src/dimacs.rs`. The scanner sees one byte at a time; the inner
loops of the source over a comment, a problem line and a token are states of the line.
-/

namespace Nixie.Dimacs

open Nixie.Rust Nixie.Sat List

inductive DimacsError
  | io
  | parse (message : String)
  | invalidProblem
  | literalOutOfRange (lit : ℤ)
  deriving DecidableEq

inductive ErrorKind
  | io
  | parse
  | invalidProblem
  | literalOutOfRange
  deriving DecidableEq

def DimacsError.kind : DimacsError → ErrorKind
  | .io => .io
  | .parse _ => .parse
  | .invalidProblem => .invalidProblem
  | .literalOutOfRange _ => .literalOutOfRange

def defaultMaxVars : ℕ := 2 ^ 31

structure DimacsParser where
  numVars : ℕ := 0
  numClauses : ℕ := 0
  maxVars : ℕ := defaultMaxVars
  deriving DecidableEq

def textOf (bytes : List UInt8) : List Char := (fromUtf8 bytes).getD []

def newline : UInt8 := 10

def isSpace (b : UInt8) : Bool := b == 32 || b == 9 || b == 13 || b == 11 || b == 12

def isAsciiDigit (b : UInt8) : Bool := 48 ≤ b && b ≤ 57

def parseDigits : List UInt8 → ℕ → Option ℕ
  | [], acc => some acc
  | b :: bs, acc =>
    if isAsciiDigit b then
      let acc' := acc * 10 + (b.toNat - 48)
      if acc' > 2 ^ 31 then none else parseDigits bs acc'
    else none

def parseI32 (token : List UInt8) : Option ℤ :=
  let isNeg := token.head? == some 45
  let digits := if isNeg || token.head? == some 43 then token.tail else token
  if digits.isEmpty then none
  else
    (parseDigits digits 0).bind fun acc =>
      let v : ℤ := if isNeg then -acc else acc
      if v < -2 ^ 31 ∨ 2 ^ 31 - 1 < v then none else some v

def parseUsize : List Char → Option ℕ
  | '+' :: s => (number s).filter (· < 2 ^ 64)
  | s => (number s).filter (· < 2 ^ 64)

def trimEnd (s : List Char) : List Char := s.rdropWhile isWhitespace

namespace DimacsParser

def parseProblemLine (p : DimacsParser) (line : List Char) : DimacsParser × Except DimacsError Unit :=
  match splitWhitespace line with
  | [format, kind, vars, clauses] =>
    if format ≠ ['p'] ∨ kind ≠ ['c', 'n', 'f'] then (p, .error .invalidProblem)
    else
      match parseUsize vars with
      | none => (p, .error (.parse "Invalid number of variables"))
      | some numVars =>
        match parseUsize clauses with
        | none => ({ p with numVars }, .error (.parse "Invalid number of clauses"))
        | some numClauses =>
          ({ p with numVars, numClauses },
            if numVars > p.maxVars then .error .invalidProblem else .ok ())
  | _ => (p, .error .invalidProblem)

def dimacsToLit (p : DimacsParser) (lit : ℤ) : Except DimacsError ℕ :=
  if lit = 0 then .error (.parse "Literal cannot be 0")
  else if lit.natAbs > p.numVars then .error (.literalOutOfRange lit)
  else
    let var := lit.natAbs - 1
    .ok (if lit > 0 then 2 * var else 2 * var + 1)

end DimacsParser

inductive Line
  | blank
  | content
  | token (bytes : List UInt8)
  | comment
  | problem (bytes : List UInt8)
  deriving DecidableEq

structure Scan where
  parser : DimacsParser
  solver : Cnf
  currentClause : List ℕ := []
  line : Line := .blank
  deriving DecidableEq

structure Outcome where
  parser : DimacsParser
  solver : Cnf
  result : Except DimacsError Unit

namespace Scan

variable (s : Scan)

def fail (error : DimacsError) : Outcome := ⟨s.parser, s.solver, .error error⟩

def stop : Outcome :=
  ⟨s.parser, if s.currentClause.isEmpty then s.solver else s.solver.addClause s.currentClause, .ok ()⟩

def finishToken (token : List UInt8) (line : Line) : Except Outcome Scan :=
  match parseI32 token with
  | none => .error (s.fail (.parse ("Invalid literal: " ++ String.ofList (textOf token))))
  | some v =>
    if v = 0 then
      .ok { s with solver := s.solver.addClause s.currentClause, currentClause := [], line }
    else
      match s.parser.dimacsToLit v with
      | .error e => .error (s.fail e)
      | .ok lit => .ok { s with currentClause := s.currentClause ++ [lit], line }

def finishProblem (bytes : List UInt8) : Except Outcome Scan :=
  let (parser, result) := s.parser.parseProblemLine (trimEnd (textOf bytes))
  match result with
  | .error e => .error ({ s with parser }.fail e)
  | .ok () => .ok { s with parser, solver := s.solver.ensureVars parser.numVars, line := .blank }

def finishLine : Except Outcome Scan :=
  match s.line with
  | .token token => s.finishToken token .blank
  | .problem bytes => s.finishProblem bytes
  | _ => .ok { s with line := .blank }

def step (b : UInt8) : Except Outcome Scan :=
  if b = newline then s.finishLine
  else
    match s.line with
    | .comment => .ok s
    | .problem bytes => .ok { s with line := .problem (bytes ++ [b]) }
    | .token token =>
      if isSpace b then s.finishToken token .content else .ok { s with line := .token (token ++ [b]) }
    | .content => .ok (if isSpace b then s else { s with line := .token [b] })
    | .blank =>
      if isSpace b then .ok s
      else if b = 99 then .ok { s with line := .comment }
      else if b = 37 then .error s.stop
      else if b = 112 then .ok { s with line := .problem [b] }
      else .ok { s with line := .token [b] }

def run (bytes : List UInt8) : Except Outcome Scan := bytes.foldlM step s

def finish : Outcome :=
  match s.finishLine with
  | .error o => o
  | .ok s => s.stop

end Scan

def completeLines (window : List UInt8) : List UInt8 := window.rdropWhile (· != newline)

def partialLine (window : List UInt8) : List UInt8 := window.rtakeWhile (· != newline)

def readLoop : List (List UInt8) → List UInt8 → Scan → Outcome
  | [], tail, s =>
    match fromUtf8 tail with
    | none => s.fail .io
    | some _ =>
      match s.run tail with
      | .error o => o
      | .ok s => s.finish
  | chunk :: reads, tail, s =>
    match fromUtf8 (tail ++ chunk) with
    | none => s.fail .io
    | some _ =>
      match s.run (completeLines (tail ++ chunk)) with
      | .error o => o
      | .ok s => readLoop reads (partialLine (tail ++ chunk)) s

def chunkSize : ℕ := 2 ^ 20

structure Delivers (reads : List (List UInt8)) (bytes : List UInt8) : Prop where
  flatten : reads.flatten = bytes
  nonempty : ∀ r ∈ reads, r ≠ []
  bounded : ∀ r ∈ reads, r.length ≤ chunkSize

def DimacsParser.parseReader (p : DimacsParser) (solver : Cnf) (reads : List (List UInt8)) : Outcome :=
  readLoop reads [] ⟨p, solver, [], .blank⟩

variable {s s' s₀ : Scan} {o : Outcome} {b : UInt8} {token window xs ys chunk : List UInt8}
  {reads reads' : List (List UInt8)}

namespace Scan

/-- A step hands over clauses only behind those already handed over, and never reports `io`. -/
def Moves (s : Scan) : Except Outcome Scan → Prop
  | .ok s' => s.solver.clauses <+: s'.solver.clauses
  | .error o => s.solver.clauses <+: o.solver.clauses ∧ o.result ≠ .error .io

theorem moves_of_clauses_eq (h : s'.solver.clauses = s.solver.clauses) : s.Moves (.ok s') :=
  ⟨[], by rw [append_nil, h]⟩

theorem moves_fail {e : DimacsError} (he : e ≠ .io) : s.Moves (.error (s.fail e)) :=
  ⟨prefix_rfl, by simpa [fail] using he⟩

theorem moves_stop : s.Moves (.error s.stop) := by
  refine ⟨?_, by simp [stop]⟩
  unfold stop
  split
  · exact prefix_rfl
  · exact prefix_append _ _

theorem moves_finishToken {line : Line} : s.Moves (s.finishToken token line) := by
  unfold finishToken
  split
  · exact moves_fail (by simp)
  · split
    · exact prefix_append _ _
    · split
      · next e he =>
        refine moves_fail ?_
        rintro rfl
        unfold DimacsParser.dimacsToLit at he
        split at he
        · cases he
        · split at he <;> cases he
      · exact moves_of_clauses_eq rfl

theorem parseProblemLine_ne_io (p : DimacsParser) (text : List Char) : (p.parseProblemLine text).2 ≠ .error .io := by
  unfold DimacsParser.parseProblemLine
  split
  · split
    · simp
    · split
      · simp
      · split
        · simp
        · dsimp only
          split <;> simp
  · simp

theorem moves_finishProblem : s.Moves (s.finishProblem token) := by
  have hio := parseProblemLine_ne_io s.parser (trimEnd (textOf token))
  unfold finishProblem
  revert hio
  rcases s.parser.parseProblemLine (trimEnd (textOf token)) with ⟨p, _ | _⟩
  · intro hio
    exact ⟨prefix_rfl, hio⟩
  · intro hio
    exact moves_of_clauses_eq rfl

theorem moves_finishLine : s.Moves s.finishLine := by
  unfold finishLine
  split
  · exact moves_finishToken
  · exact moves_finishProblem
  · exact moves_of_clauses_eq rfl

theorem moves_step : s.Moves (s.step b) := by
  unfold step
  split
  · exact moves_finishLine
  · split
    · exact moves_of_clauses_eq rfl
    · exact moves_of_clauses_eq rfl
    · split
      · exact moves_finishToken
      · exact moves_of_clauses_eq rfl
    · split <;> exact moves_of_clauses_eq rfl
    · split
      · exact moves_of_clauses_eq rfl
      · split
        · exact moves_of_clauses_eq rfl
        · split
          · exact moves_stop
          · split <;> exact moves_of_clauses_eq rfl

@[simp]
theorem run_nil : s.run [] = .ok s := rfl

theorem run_cons : s.run (b :: xs) = s.step b >>= fun s' => s'.run xs := rfl

theorem run_append : s.run (xs ++ ys) = s.run xs >>= fun s' => s'.run ys := foldlM_append

theorem run_append_of_ok (h : s.run xs = .ok s') : s.run (xs ++ ys) = s'.run ys := by
  rw [run_append, h]
  rfl

theorem run_cons_of_ok (h : s.step b = .ok s') : s.run (b :: xs) = s'.run xs := by
  rw [run_cons, h]
  rfl

theorem Moves.trans {r : Except Outcome Scan} (h : s₀.solver.clauses <+: s.solver.clauses)
    (hr : s.Moves r) : s₀.Moves r := by
  cases r with
  | error o => exact ⟨h.trans hr.1, hr.2⟩
  | ok s' => exact List.IsPrefix.trans h hr

theorem moves_run (s : Scan) (xs : List UInt8) : s.Moves (s.run xs) := by
  induction xs generalizing s with
  | nil => exact moves_of_clauses_eq rfl
  | cons b xs ih =>
    rw [run_cons]
    have hstep := moves_step (s := s) (b := b)
    cases hs : s.step b with
    | error o =>
      rw [hs] at hstep
      exact hstep
    | ok s' =>
      rw [hs] at hstep
      exact Moves.trans hstep (ih s')

theorem moves_finish : s.Moves (.error s.finish) := by
  have hline := moves_finishLine (s := s)
  unfold finish
  cases hs : s.finishLine with
  | error o =>
    rw [hs] at hline
    exact hline
  | ok s' =>
    rw [hs] at hline
    exact Moves.trans hline moves_stop

theorem run_error_of_le (h : s.run xs = .error o) (hxs : xs <+: ys) : s.run ys = .error o := by
  obtain ⟨zs, rfl⟩ := hxs
  rw [run_append, h]
  rfl

theorem clauses_prefix_of_run (h : s.run xs = .ok s') : s.solver.clauses <+: s'.solver.clauses := by
  have hmoves := moves_run s xs
  rw [h] at hmoves
  exact hmoves

theorem clauses_prefix_of_le (h : s₀.run xs = .ok s) (h' : s₀.run ys = .ok s') (hxs : xs <+: ys) :
    s.solver.clauses <+: s'.solver.clauses := by
  obtain ⟨zs, rfl⟩ := hxs
  rw [run_append, h] at h'
  exact clauses_prefix_of_run h'

end Scan

theorem completeLines_append_partialLine (window : List UInt8) :
    completeLines window ++ partialLine window = window := by
  unfold completeLines partialLine
  exact rdropWhile_append_rtakeWhile ..

def EndsLine (bytes : List UInt8) : Prop := bytes = [] ∨ ∃ xs, bytes = xs ++ [newline]

theorem endsLine_completeLines : EndsLine (completeLines window) := by
  induction window using List.reverseRecOn with
  | nil => exact .inl rfl
  | append_singleton xs b ih =>
    by_cases hb : b = newline
    · refine .inr ⟨xs, ?_⟩
      rw [completeLines, rdropWhile_concat_neg _ _ _ (by simp [hb]), hb]
    · rw [completeLines, rdropWhile_concat_pos _ _ _ (by simpa using hb)]
      exact ih

theorem completeLines_append (hxs : EndsLine xs) : completeLines (xs ++ ys) = xs ++ completeLines ys := by
  induction ys using List.reverseRecOn with
  | nil =>
    obtain rfl | ⟨zs, rfl⟩ := hxs
    · rfl
    · rw [append_nil, completeLines, rdropWhile_concat_neg _ _ _ (by simp)]
      simp [completeLines]
  | append_singleton ys b ih =>
    rw [← append_assoc]
    by_cases hb : b = newline
    · rw [completeLines, completeLines, rdropWhile_concat_neg _ _ _ (by simp [hb]),
        rdropWhile_concat_neg _ _ _ (by simp [hb]), append_assoc]
    · rw [completeLines, completeLines, rdropWhile_concat_pos _ _ _ (by simpa using hb),
        rdropWhile_concat_pos _ _ _ (by simpa using hb)]
      exact ih

theorem partialLine_append (hxs : EndsLine xs) : partialLine (xs ++ ys) = partialLine ys := by
  have hsplit := completeLines_append_partialLine (xs ++ ys)
  rw [completeLines_append hxs, append_assoc, append_cancel_left_eq] at hsplit
  exact append_cancel_left (hsplit.trans (completeLines_append_partialLine ys).symm)

theorem completeLines_le : completeLines xs <+: xs := rdropWhile_prefix _ _

theorem append_eq_window (xs chunk : List UInt8) : xs ++ chunk = completeLines xs ++ (partialLine xs ++ chunk) := by
  rw [← append_assoc, completeLines_append_partialLine]

theorem completeLines_read :
    completeLines (xs ++ chunk) = completeLines xs ++ completeLines (partialLine xs ++ chunk) := by
  rw [append_eq_window, completeLines_append endsLine_completeLines]

theorem partialLine_read : partialLine (xs ++ chunk) = partialLine (partialLine xs ++ chunk) := by
  rw [append_eq_window, partialLine_append endsLine_completeLines]

theorem completeLines_mono (h : xs <+: ys) : completeLines xs <+: completeLines ys := by
  obtain ⟨zs, rfl⟩ := h
  rw [completeLines_read]
  exact prefix_append _ _

theorem EndsLine.isUtf8_append (hxs : EndsLine xs) : IsUtf8 (xs ++ ys) ↔ IsUtf8 xs ∧ IsUtf8 ys := by
  refine ⟨fun h => ?_, fun h => h.1.append h.2⟩
  obtain rfl | ⟨zs, rfl⟩ := hxs
  · exact ⟨isUtf8_nil, h⟩
  · rw [append_assoc] at h
    exact h.cut (by decide)

theorem isUtf8_read (hxs : IsUtf8 xs) (chunk : List UInt8) :
    IsUtf8 (partialLine xs ++ chunk) ↔ IsUtf8 (xs ++ chunk) := by
  rw [append_eq_window xs chunk, endsLine_completeLines.isUtf8_append]
  rw [← completeLines_append_partialLine xs, endsLine_completeLines.isUtf8_append] at hxs
  exact (and_iff_right hxs.1).symm

theorem readLoop_cons (h : IsUtf8 (window ++ chunk)) :
    readLoop (chunk :: reads) window s =
      match s.run (completeLines (window ++ chunk)) with
      | .error o => o
      | .ok s => readLoop reads (partialLine (window ++ chunk)) s := by
  obtain ⟨text, htext⟩ := Option.isSome_iff_exists.mp (isSome_fromUtf8.mpr h)
  cases hs : s.run (completeLines (window ++ chunk)) with
  | error o => simp only [readLoop, htext, hs]
  | ok s' => simp only [readLoop, htext, hs]

theorem readLoop_ill (h : ¬ IsUtf8 (window ++ chunk)) : readLoop (chunk :: reads) window s = s.fail .io := by
  rw [← isSome_fromUtf8, Option.not_isSome_iff_eq_none] at h
  rw [readLoop, h]

theorem readLoop_nil (h : IsUtf8 window) :
    readLoop [] window s =
      match s.run window with
      | .error o => o
      | .ok s => s.finish := by
  obtain ⟨text, htext⟩ := Option.isSome_iff_exists.mp (isSome_fromUtf8.mpr h)
  cases hs : s.run window with
  | error o => simp only [readLoop, htext, hs]
  | ok s' => simp only [readLoop, htext, hs]

def Clean (reads : List (List UInt8)) : Prop := ∀ r, r <+: reads → IsUtf8 r.flatten

theorem Clean.mono (h : Clean reads) (hpre : reads' <+: reads) : Clean reads' :=
  fun r hr => h r (hr.trans hpre)

theorem readLoop_append (hclean : Clean reads) :
    readLoop (reads ++ reads') [] s =
      match s.run (completeLines reads.flatten) with
      | .error o => o
      | .ok s => readLoop reads' (partialLine reads.flatten) s := by
  induction reads using List.reverseRecOn generalizing reads' with
  | nil => rfl
  | append_singleton reads chunk ih =>
    have hpre : reads <+: reads ++ [chunk] := prefix_append _ _
    have hflat : (reads ++ [chunk]).flatten = reads.flatten ++ chunk := by simp
    have hwindow : IsUtf8 (partialLine reads.flatten ++ chunk) := by
      rw [isUtf8_read (hclean reads hpre) chunk, ← hflat]
      exact hclean _ prefix_rfl
    rw [append_assoc, singleton_append, ih (hclean.mono hpre), hflat,
      completeLines_read, partialLine_read, Scan.run_append]
    cases s.run (completeLines reads.flatten) with
    | error o => rfl
    | ok s' => exact readLoop_cons hwindow

def parseWhole (s : Scan) (bytes : List UInt8) : Outcome :=
  match s.run bytes with
  | .error o => o
  | .ok s => s.finish

theorem readLoop_clean (hclean : Clean reads) : readLoop reads [] s = parseWhole s reads.flatten := by
  have hall := @readLoop_append s reads [] hclean
  have hutf8 : IsUtf8 (partialLine reads.flatten) := by
    have hread := isUtf8_read (hclean reads prefix_rfl) []
    rw [append_nil, append_nil] at hread
    exact hread.mpr (hclean reads prefix_rfl)
  have hrun : s.run reads.flatten = s.run (completeLines reads.flatten) >>=
      fun s' => s'.run (partialLine reads.flatten) := by
    rw [← Scan.run_append, completeLines_append_partialLine]
  rw [append_nil] at hall
  rw [hall, parseWhole, hrun]
  cases s.run (completeLines reads.flatten) with
  | error o => rfl
  | ok s' => exact readLoop_nil hutf8

def refused : Except Outcome Scan → Outcome
  | .error o => o
  | .ok s => s.fail .io

theorem readLoop_split (hclean : Clean reads) (hill : ¬ IsUtf8 (reads.flatten ++ chunk)) :
    readLoop (reads ++ chunk :: reads') [] s = refused (s.run (completeLines reads.flatten)) := by
  rw [readLoop_append hclean]
  cases s.run (completeLines reads.flatten) with
  | error o => rfl
  | ok s' =>
    refine readLoop_ill ?_
    rw [isUtf8_read (hclean reads prefix_rfl)]
    exact hill

theorem clean_or_split (reads : List (List UInt8)) :
    Clean reads ∨ ∃ r chunk r', reads = r ++ chunk :: r' ∧ Clean r ∧ ¬ IsUtf8 (r.flatten ++ chunk) := by
  induction reads using List.reverseRecOn with
  | nil =>
    refine .inl fun r hr => ?_
    rw [prefix_nil.mp hr]
    exact isUtf8_nil
  | append_singleton reads chunk ih =>
    obtain hclean | ⟨r, c, r', rfl, hr, hill⟩ := ih
    · by_cases hutf8 : IsUtf8 (reads.flatten ++ chunk)
      · refine .inl fun r hr => ?_
        obtain rfl | hr := prefix_concat_iff.mp hr
        · simpa using hutf8
        · exact hclean r hr
      · exact .inr ⟨reads, chunk, [], rfl, hclean, hutf8⟩
    · exact .inr ⟨r, c, r' ++ [chunk], by simp, hr, hill⟩

theorem clauses_prefix_readLoop : s.solver.clauses <+: (readLoop reads window s).solver.clauses := by
  induction reads generalizing window s with
  | nil =>
    by_cases h : IsUtf8 window
    · rw [readLoop_nil h]
      have hmoves := Scan.moves_run s window
      cases hs : s.run window with
      | error o =>
        rw [hs] at hmoves
        exact hmoves.1
      | ok s' => exact (Scan.clauses_prefix_of_run hs).trans Scan.moves_finish.1
    · rw [← isSome_fromUtf8, Option.not_isSome_iff_eq_none] at h
      rw [readLoop, h]
      exact prefix_rfl
  | cons chunk reads ih =>
    by_cases h : IsUtf8 (window ++ chunk)
    · rw [readLoop_cons h]
      have hmoves := Scan.moves_run s (completeLines (window ++ chunk))
      cases hs : s.run (completeLines (window ++ chunk)) with
      | error o =>
        rw [hs] at hmoves
        exact hmoves.1
      | ok s' => exact (Scan.clauses_prefix_of_run hs).trans ih
    · rw [readLoop_ill h]
      exact prefix_rfl

end Nixie.Dimacs
