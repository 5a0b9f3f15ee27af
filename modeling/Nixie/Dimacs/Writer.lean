import Nixie.Decimal
import Nixie.Dimacs.Chunks

/-!
The DIMACS writer of `nixie-sat/src/dimacs.rs`, and that its text is read back as it was written.
-/

namespace Nixie.Dimacs

open Nixie.Rust Nixie.Sat List Option Scan

def wrapI32 (x : ℤ) : ℤ := x.bmod (2 ^ 32)

def litToDimacs (lit : ℕ) : ℤ :=
  let varIndex : ℤ := (lit / 2 : ℕ)
  if lit % 2 = 0 then wrapI32 (varIndex + 1) else wrapI32 (-wrapI32 (varIndex + 1))

def writeClause (clause : List ℕ) : List Char :=
  spaced (clause.map fun lit => displayInt (litToDimacs lit)) ++ ['0', '\n']

def titleLine : List Char := ['c', ' ', 'D', 'I', 'M', 'A', 'C', 'S', ' ', 'C', 'N', 'F']

def problemLine (numVars numClauses : ℕ) : List Char :=
  ['p', ' ', 'c', 'n', 'f', ' '] ++ displayNat numVars ++ [' '] ++ displayNat numClauses

def writeHeader (numVars numClauses : ℕ) : List Char :=
  titleLine ++ ['\n'] ++ (problemLine numVars numClauses ++ ['\n'])

def writeCnfTo (numVars : ℕ) (clauses : List (List ℕ)) : List UInt8 :=
  utf8 (writeHeader numVars clauses.length ++ clauses.flatMap writeClause)

variable {s : Scan} {cs : List Char} {n m lit : ℕ} {z : ℤ} {w xs : List UInt8} {clause : List ℕ}
  {clauses : List (List ℕ)}

def IsNumeral (w : List UInt8) : Prop := w ≠ [] ∧ ∀ b ∈ w, isAsciiDigit b ∨ b = 45

theorem toNat_lt_of_isDigit {c : Char} (hc : c.isDigit) : c.toNat < 128 := by
  simp only [Char.isDigit, Bool.and_eq_true, decide_eq_true_eq, UInt32.le_iff_toNat_le] at hc
  have hhigh : c.toNat ≤ 57 := hc.2
  omega

theorem isAsciiDigit_of_isDigit {c : Char} (hc : c.isDigit) :
    isAsciiDigit (UInt8.ofNat c.toNat) ∧ (UInt8.ofNat c.toNat).toNat = c.toNat := by
  simp only [Char.isDigit, Bool.and_eq_true, decide_eq_true_eq, UInt32.le_iff_toNat_le] at hc
  have hlow : 48 ≤ c.toNat := hc.1
  have hhigh : c.toNat ≤ 57 := hc.2
  have hval : (UInt8.ofNat c.toNat).toNat = c.toNat := by
    rw [UInt8.toNat_ofNat', Nat.mod_eq_of_lt (by omega)]
  refine ⟨?_, hval⟩
  simp only [isAsciiDigit, Bool.and_eq_true, decide_eq_true_eq, UInt8.le_iff_toNat_le, hval]
  exact ⟨hlow, hhigh⟩

theorem utf8_displayNat : utf8 (displayNat n) = (displayNat n).map fun c => UInt8.ofNat c.toNat :=
  utf8_of_ascii fun c hc => toNat_lt_of_isDigit (isDigit_displayNat c hc)

theorem le_ofDigitChars : n ≤ Nat.ofDigitChars 10 cs n := by
  induction cs generalizing n with
  | nil => rfl
  | cons c cs ih =>
    rw [Nat.ofDigitChars_cons]
    exact le_trans (by omega) ih

theorem parseDigits_of_isDigit (hcs : ∀ c ∈ cs, c.isDigit) (hbound : Nat.ofDigitChars 10 cs n ≤ 2 ^ 31) :
    parseDigits (cs.map fun c => UInt8.ofNat c.toNat) n = some (Nat.ofDigitChars 10 cs n) := by
  induction cs generalizing n with
  | nil => rfl
  | cons c cs ih =>
    obtain ⟨hc, hcs⟩ := forall_mem_cons.mp hcs
    obtain ⟨hdigit, hval⟩ := isAsciiDigit_of_isDigit hc
    rw [Nat.ofDigitChars_cons] at hbound ⊢
    have hacc : n * 10 + (c.toNat - 48) = 10 * n + (c.toNat - '0'.toNat) := by
      rw [Nat.mul_comm]
      rfl
    rw [map_cons, parseDigits, if_pos hdigit, hval, hacc]
    dsimp only
    rw [if_neg (not_lt.mpr (le_ofDigitChars.trans hbound)), ih hcs hbound]

theorem parseDigits_displayNat (hn : n ≤ 2 ^ 31) : parseDigits (utf8 (displayNat n)) 0 = some n := by
  have hvalue : Nat.ofDigitChars 10 (displayNat n) 0 = n := Nat.ofDigitChars_ten_toDigits
  rw [utf8_displayNat, parseDigits_of_isDigit isDigit_displayNat (hvalue.symm ▸ hn), hvalue]

theorem isAsciiDigit_utf8_displayNat : ∀ b ∈ utf8 (displayNat n), isAsciiDigit b := by
  rw [utf8_displayNat]
  intro b hb
  obtain ⟨c, hc, rfl⟩ := mem_map.mp hb
  exact (isAsciiDigit_of_isDigit (isDigit_displayNat c hc)).1

theorem utf8_displayNat_ne_nil : utf8 (displayNat n) ≠ [] := by
  rw [utf8_displayNat]
  simp [displayNat, Nat.toDigits_ne_nil]

theorem isNumeral_displayNat : IsNumeral (utf8 (displayNat n)) :=
  ⟨utf8_displayNat_ne_nil, fun b hb => .inl (isAsciiDigit_utf8_displayNat b hb)⟩

theorem utf8_displayInt_of_neg (hz : z < 0) : utf8 (displayInt z) = 45 :: utf8 (displayNat z.natAbs) := by
  rw [displayInt, if_pos hz]
  rfl

theorem isNumeral_displayInt : IsNumeral (utf8 (displayInt z)) := by
  by_cases hz : z < 0
  · rw [utf8_displayInt_of_neg hz]
    refine ⟨by simp, forall_mem_cons.mpr ⟨.inr rfl, isNumeral_displayNat.2⟩⟩
  · rw [displayInt, if_neg hz]
    exact isNumeral_displayNat

theorem parseI32_displayInt (hlow : -2 ^ 31 ≤ z) (hhigh : z < 2 ^ 31) : parseI32 (utf8 (displayInt z)) = some z := by
  have habs : z.natAbs ≤ 2 ^ 31 := by omega
  by_cases hz : z < 0
  · rw [utf8_displayInt_of_neg hz]
    have hne := utf8_displayNat_ne_nil (n := z.natAbs)
    simp only [parseI32, List.head?_cons, BEq.rfl, Bool.true_or, if_true, List.tail_cons,
      List.isEmpty_iff, hne, if_false, parseDigits_displayNat habs, Option.bind_some]
    rw [if_neg (by omega)]
    congr 1
    omega
  · have hfirst : ∀ b : UInt8, isAsciiDigit b = false →
        ((utf8 (displayNat z.natAbs)).head? == some b) = false := by
      intro b hb
      rw [beq_eq_false_iff_ne]
      intro hhead
      have hdigit := isAsciiDigit_utf8_displayNat b (List.mem_of_mem_head? hhead)
      rw [hb] at hdigit
      cases hdigit
    have hne := utf8_displayNat_ne_nil (n := z.natAbs)
    rw [displayInt, if_neg hz]
    simp only [parseI32, hfirst 45 (by decide), hfirst 43 (by decide), Bool.or_self, Bool.false_eq_true,
      if_false, List.isEmpty_iff, hne, parseDigits_displayNat habs, Option.bind_some]
    rw [if_neg (by omega)]
    congr 1
    omega

theorem parseUsize_displayNat (hn : n < 2 ^ 64) : parseUsize (displayNat n) = some n := by
  have hnumber := number_displayNat (n := n)
  unfold parseUsize
  split
  · next s heq =>
    have hplus := isDigit_displayNat (n := n) '+' (by rw [heq]; exact mem_cons_self)
    exact absurd hplus (by decide)
  · rw [hnumber, filter_some, if_pos (by simpa using hn)]

theorem wrapI32_eq (hlow : -2 ^ 31 ≤ z) (hhigh : z < 2 ^ 31) : wrapI32 z = z :=
  Int.bmod_eq_of_le (by omega) (by omega)

theorem litToDimacs_eq (hlit : lit / 2 < 2 ^ 31 - 1) :
    litToDimacs lit = if lit % 2 = 0 then ((lit / 2 : ℕ) : ℤ) + 1 else -(((lit / 2 : ℕ) : ℤ) + 1) := by
  unfold litToDimacs
  split
  · exact wrapI32_eq (by omega) (by omega)
  · dsimp only
    rw [wrapI32_eq (z := ((lit / 2 : ℕ) : ℤ) + 1) (by omega) (by omega)]
    exact wrapI32_eq (by omega) (by omega)

theorem litToDimacs_bounds (hlit : lit / 2 < 2 ^ 31 - 1) :
    -2 ^ 31 ≤ litToDimacs lit ∧ litToDimacs lit < 2 ^ 31 ∧ litToDimacs lit ≠ 0 := by
  rw [litToDimacs_eq hlit]
  split <;> omega

theorem dimacsToLit_litToDimacs {p : DimacsParser} (hlit : lit / 2 < p.numVars)
    (hbound : lit / 2 < 2 ^ 31 - 1) : p.dimacsToLit (litToDimacs lit) = .ok lit := by
  unfold DimacsParser.dimacsToLit
  rw [if_neg (litToDimacs_bounds hbound).2.2, litToDimacs_eq hbound]
  split
  · next heven =>
    rw [if_neg (by omega)]
    dsimp only
    rw [if_pos (by omega)]
    congr 1
    omega
  · next hodd =>
    rw [if_neg (by omega)]
    dsimp only
    rw [if_neg (by omega)]
    congr 1
    omega

def Scan.Ready (s : Scan) : Prop := s.line = .blank ∨ s.line = .content

theorem not_isSpace_of_numeral {b : UInt8} (hb : isAsciiDigit b ∨ b = 45) :
    isSpace b = false ∧ b ≠ newline ∧ b ≠ 99 ∧ b ≠ 37 ∧ b ≠ 112 := by
  have hne : ∀ c, isAsciiDigit c = false → c ≠ 45 → b ≠ c := by
    rintro c hdigit hminus rfl
    obtain hb | hb := hb
    · rw [hdigit] at hb
      cases hb
    · exact hminus hb
  refine ⟨?_, hne _ (by decide) (by decide), hne _ (by decide) (by decide),
    hne _ (by decide) (by decide), hne _ (by decide) (by decide)⟩
  simp only [isSpace, Bool.or_eq_false_iff, beq_eq_false_iff_ne]
  exact ⟨⟨⟨⟨hne _ (by decide) (by decide), hne _ (by decide) (by decide)⟩,
    hne _ (by decide) (by decide)⟩, hne _ (by decide) (by decide)⟩, hne _ (by decide) (by decide)⟩

theorem run_singleton {b : UInt8} : s.run [b] = s.step b := by
  rw [run_cons]
  cases s.step b with
  | error o => rfl
  | ok s' => rfl

theorem run_token (hline : s.line = .token xs) (hw : ∀ b ∈ w, isAsciiDigit b ∨ b = 45) :
    s.run w = .ok { s with line := .token (xs ++ w) } := by
  induction w generalizing s xs with
  | nil =>
    rw [append_nil, ← hline]
    rfl
  | cons b w ih =>
    obtain ⟨hb, hw⟩ := forall_mem_cons.mp hw
    obtain ⟨hspace, hnewline, -⟩ := not_isSpace_of_numeral hb
    have hstep : s.step b = .ok { s with line := .token (xs ++ [b]) } := by
      simp only [step, hline, hspace]
      rw [if_neg hnewline]
      rfl
    rw [run_cons_of_ok hstep, ih rfl hw, append_assoc, singleton_append]

theorem run_numeral (hs : s.Ready) (hw : IsNumeral w) : s.run w = .ok { s with line := .token w } := by
  obtain ⟨hne, hw⟩ := hw
  cases w with
  | nil => exact absurd rfl hne
  | cons b w =>
    obtain ⟨hb, hw⟩ := forall_mem_cons.mp hw
    obtain ⟨hspace, hnewline, hc, hpercent, hp⟩ := not_isSpace_of_numeral hb
    have hstep : s.step b = .ok { s with line := .token [b] } := by
      obtain hline | hline := hs
      · simp only [step, hline, hspace, if_neg hnewline, if_neg hc, if_neg hpercent, if_neg hp]
        rfl
      · simp only [step, hline, hspace, if_neg hnewline]
        rfl
    rw [run_cons_of_ok hstep]
    exact run_token (s := { s with line := .token [b] }) rfl hw

theorem run_numeral_space (hs : s.Ready) (hw : IsNumeral w) :
    s.run (w ++ [32]) = { s with line := .token w }.finishToken w .content := by
  rw [run_append_of_ok (run_numeral hs hw)]
  exact run_singleton

theorem run_numeral_newline (hs : s.Ready) (hw : IsNumeral w) :
    s.run (w ++ [newline]) = { s with line := .token w }.finishToken w .blank := by
  rw [run_append_of_ok (run_numeral hs hw)]
  exact run_singleton

theorem run_literal (hs : s.Ready) (hlit : lit / 2 < s.parser.numVars) (hbound : lit / 2 < 2 ^ 31 - 1) :
    s.run (utf8 (displayInt (litToDimacs lit)) ++ [32]) =
      .ok { s with currentClause := s.currentClause ++ [lit], line := .content } := by
  obtain ⟨hlow, hhigh, hzero⟩ := litToDimacs_bounds hbound
  rw [run_numeral_space hs isNumeral_displayInt, finishToken, parseI32_displayInt hlow hhigh]
  dsimp only
  rw [if_neg hzero, dimacsToLit_litToDimacs hlit hbound]

theorem run_writeClause (hs : s.Ready) (hclause : ∀ lit ∈ clause, lit / 2 < s.parser.numVars)
    (hbound : s.parser.numVars < 2 ^ 31) :
    s.run (utf8 (writeClause clause)) =
      .ok { s with
        solver := s.solver.addClause (s.currentClause ++ clause), currentClause := [], line := .blank } := by
  induction clause generalizing s with
  | nil =>
    have hzero : IsNumeral [48] := ⟨by simp, by simp [isAsciiDigit]⟩
    rw [append_nil]
    exact (run_numeral_newline hs hzero).trans rfl
  | cons lit clause ih =>
    obtain ⟨hlit, hclause⟩ := forall_mem_cons.mp hclause
    have hsplit : utf8 (writeClause (lit :: clause)) =
        (utf8 (displayInt (litToDimacs lit)) ++ [32]) ++ utf8 (writeClause clause) := by
      have hspace : ([32] : List UInt8) = utf8 [' '] := rfl
      rw [hspace, ← utf8_append, ← utf8_append]
      simp [writeClause, spaced]
    rw [hsplit, run_append_of_ok (run_literal hs hlit (by omega))]
    refine (ih (s := { s with currentClause := s.currentClause ++ [lit], line := .content })
      (.inr rfl) hclause hbound).trans ?_
    simp

theorem run_clauses (clauses : List (List ℕ)) (hs : s.line = .blank) (hclause : s.currentClause = [])
    (hclauses : ∀ c ∈ clauses, ∀ lit ∈ c, lit / 2 < s.parser.numVars) (hbound : s.parser.numVars < 2 ^ 31) :
    s.run (utf8 (clauses.flatMap writeClause)) =
      .ok { s with solver := { s.solver with clauses := s.solver.clauses ++ clauses } } := by
  induction clauses generalizing s with
  | nil => simp
  | cons c clauses ih =>
    obtain ⟨hc, hclauses⟩ := forall_mem_cons.mp hclauses
    rw [flatMap_cons, utf8_append, run_append_of_ok (run_writeClause (.inl hs) hc hbound)]
    refine (ih (s := { s with
      solver := s.solver.addClause (s.currentClause ++ c), currentClause := [], line := .blank })
      rfl rfl hclauses hbound).trans ?_
    simp [Cnf.addClause, hclause, hs]

theorem splitWhitespace_problemLine :
    splitWhitespace (problemLine n m) = [['p'], ['c', 'n', 'f'], displayNat n, displayNat m] := by
  have hsplit : problemLine n m =
      ['p'] ++ ' ' :: (['c', 'n', 'f'] ++ ' ' :: (displayNat n ++ ' ' :: displayNat m)) := by
    simp [problemLine]
  have hp : IsWord ['p'] := ⟨by simp, by simp [isWhitespace]⟩
  have hcnf : IsWord ['c', 'n', 'f'] := ⟨by simp, by simp [isWhitespace]⟩
  rw [hsplit, splitWhitespace_append hp (by decide), splitWhitespace_append hcnf (by decide),
    splitWhitespace_append isWord_displayNat (by decide), splitWhitespace_word isWord_displayNat]

theorem trimEnd_problemLine : trimEnd (problemLine n m) = problemLine n m := by
  rw [trimEnd, rdropWhile_eq_self_iff]
  intro hne
  have hdigits : displayNat m ≠ [] := Nat.toDigits_ne_nil
  have hlast : (problemLine n m).getLast hne = (displayNat m).getLast hdigits := getLast_append_of_ne_nil _ hdigits
  rw [hlast, isWord_displayNat.2 _ (getLast_mem hdigits)]
  simp

theorem parseProblemLine_problemLine {p : DimacsParser} (hn : n ≤ p.maxVars) (hn' : n < 2 ^ 64)
    (hm : m < 2 ^ 64) :
    p.parseProblemLine (problemLine n m) = ({ p with numVars := n, numClauses := m }, .ok ()) := by
  unfold DimacsParser.parseProblemLine
  rw [splitWhitespace_problemLine]
  simp only [parseUsize_displayNat hn', parseUsize_displayNat hm]
  rw [if_neg (by simp), if_neg (by omega)]

theorem isAscii_problemLine : ∀ c ∈ problemLine n m, c.toNat < 128 := by
  have hp : ∀ c ∈ ['p', ' ', 'c', 'n', 'f', ' '], c.toNat < 128 := by simp
  have hdigits : ∀ k, ∀ c ∈ displayNat k, c.toNat < 128 := fun k c hc =>
    toNat_lt_of_isDigit (isDigit_displayNat c hc)
  intro c hc
  simp only [problemLine, mem_append, mem_singleton] at hc
  obtain ((hc | hc) | rfl) | hc := hc
  · exact hp c hc
  · exact hdigits n c hc
  · decide
  · exact hdigits m c hc

theorem run_problem (hline : s.line = .problem xs) (hw : newline ∉ w) :
    s.run w = .ok { s with line := .problem (xs ++ w) } := by
  induction w generalizing s xs with
  | nil =>
    rw [append_nil, ← hline]
    rfl
  | cons b w ih =>
    rw [mem_cons, not_or] at hw
    obtain ⟨hb, hw⟩ := hw
    have hstep : s.step b = .ok { s with line := .problem (xs ++ [b]) } := by
      simp only [step, hline]
      rw [if_neg (Ne.symm hb)]
    rw [run_cons_of_ok hstep, ih rfl hw, append_assoc, singleton_append]

theorem run_titleLine (hs : s.line = .blank) : s.run (utf8 (titleLine ++ ['\n'])) = .ok s := by
  obtain ⟨parser, solver, currentClause, line⟩ := s
  subst hs
  rfl

theorem newline_notMem_utf8 (h : '\n' ∉ cs) : newline ∉ utf8 cs := by
  intro hmem
  obtain ⟨c, hc, hbyte⟩ := mem_flatMap.mp hmem
  have hchar : utf8 [c] = utf8 ['\n'] := by
    have hcode := utf8EncodeChar_of_mem (by decide) hbyte
    rw [utf8_cons, hcode]
    rfl
  have htext := congrArg fromUtf8 hchar
  rw [fromUtf8_utf8, fromUtf8_utf8, some.injEq, List.cons.injEq] at htext
  exact h (htext.1 ▸ hc)

theorem newline_notMem_problemLine : '\n' ∉ problemLine n m := by
  have hdigits : ∀ k, '\n' ∉ displayNat k := fun k hmem =>
    absurd (isDigit_displayNat '\n' hmem) (by decide)
  simp [problemLine, hdigits]

theorem step_newline : s.step newline = s.finishLine := if_pos rfl

theorem run_problemLine (hs : s.line = .blank) :
    s.run (utf8 (problemLine n m)) = .ok { s with line := .problem (utf8 (problemLine n m)) } := by
  obtain ⟨rest, hrest⟩ : ∃ rest, problemLine n m = 'p' :: rest := by simp [problemLine]
  have hw : utf8 (problemLine n m) = 112 :: utf8 rest := by
    rw [hrest]
    rfl
  have hfirst : s.step 112 = .ok { s with line := .problem [112] } := by
    simp only [step, hs]
    rfl
  have hclean : newline ∉ utf8 rest := by
    have hall := newline_notMem_utf8 (newline_notMem_problemLine (n := n) (m := m))
    rw [hw, mem_cons, not_or] at hall
    exact hall.2
  rw [hw, run_cons_of_ok hfirst]
  exact run_problem (s := { s with line := .problem [112] }) rfl hclean

theorem finishProblem_problemLine (hn : n ≤ s.parser.maxVars) (hn' : n < 2 ^ 64) (hm : m < 2 ^ 64) :
    s.finishProblem (utf8 (problemLine n m)) =
      .ok { s with
        parser := { s.parser with numVars := n, numClauses := m }
        solver := s.solver.ensureVars n
        line := .blank } := by
  have htext : textOf (utf8 (problemLine n m)) = problemLine n m := by
    rw [textOf, fromUtf8_utf8, getD_some]
  rw [finishProblem, htext, trimEnd_problemLine, parseProblemLine_problemLine hn hn' hm]

theorem run_header (hs : s.line = .blank) (hn : n ≤ s.parser.maxVars) (hn' : n < 2 ^ 64)
    (hm : m < 2 ^ 64) :
    s.run (utf8 (writeHeader n m)) =
      .ok { s with
        parser := { s.parser with numVars := n, numClauses := m }
        solver := s.solver.ensureVars n
        line := .blank } := by
  have hend : utf8 ['\n'] = [newline] := rfl
  rw [writeHeader, utf8_append, run_append_of_ok (run_titleLine hs), utf8_append,
    run_append_of_ok (run_problemLine hs), hend, run_singleton, step_newline, finishLine]
  dsimp only
  rw [finishProblem_problemLine]
  · exact hn
  · exact hn'
  · exact hm

theorem isAscii_writeClause : ∀ c ∈ writeClause clause, c.toNat < 128 := by
  have hint : ∀ z, ∀ c ∈ displayInt z, c.toNat < 128 := by
    intro z c hc
    unfold displayInt at hc
    split at hc
    · obtain rfl | hc := List.mem_cons.mp hc
      · decide
      · exact toNat_lt_of_isDigit (isDigit_displayNat c hc)
    · exact toNat_lt_of_isDigit (isDigit_displayNat c hc)
  intro c hc
  simp only [writeClause, spaced, List.mem_append, List.mem_flatMap, List.mem_map, List.mem_cons] at hc
  obtain ⟨w, ⟨lit, -, rfl⟩, hc | hc⟩ | rfl | rfl | hc := hc
  · exact hint _ c hc
  · obtain rfl | hc := hc
    · decide
    · cases hc
  · decide
  · decide
  · cases hc

theorem isAscii_writeCnfTo : IsAscii (writeCnfTo n clauses) := by
  refine isAscii_utf8 fun c hc => ?_
  simp only [writeHeader, mem_append, mem_flatMap, mem_singleton] at hc
  obtain ((hc | rfl) | hc | rfl) | ⟨clause, -, hc⟩ := hc
  · have htitle : ∀ c ∈ titleLine, c.toNat < 128 := by simp [titleLine]
    exact htitle c hc
  · decide
  · exact isAscii_problemLine c hc
  · decide
  · exact isAscii_writeClause c hc

theorem parseWhole_writeCnfTo (hn : n < 2 ^ 31) (hcount : clauses.length < 2 ^ 64)
    (hclauses : ∀ c ∈ clauses, ∀ lit ∈ c, lit / 2 < n) : parseWhole ⟨{}, {}, [], .blank⟩ (writeCnfTo n clauses) =
    ⟨{ numVars := n, numClauses := clauses.length }, ⟨n, clauses⟩, .ok ()⟩ := by
  have hheader := run_header (s := ⟨{}, {}, [], .blank⟩) (m := clauses.length) rfl
    (show n ≤ 2 ^ 31 by omega) (by omega) hcount
  have hbody := run_clauses clauses
    (s := ⟨{ numVars := n, numClauses := clauses.length }, Cnf.ensureVars {} n, [], .blank⟩)
    rfl rfl hclauses hn
  have hrun : run ⟨{}, {}, [], .blank⟩ (writeCnfTo n clauses) =
      .ok ⟨{ numVars := n, numClauses := clauses.length }, ⟨n, clauses⟩, [], .blank⟩ := by
    rw [writeCnfTo, utf8_append, run_append_of_ok hheader]
    refine hbody.trans ?_
    simp [Cnf.ensureVars]
  rw [parseWhole, hrun]
  rfl

/-- However the written text is read, a new solver gets the variables and the clauses. -/
theorem parseReader_writeCnfTo (hn : n < 2 ^ 31) (hcount : clauses.length < 2 ^ 64)
    (hclauses : ∀ c ∈ clauses, ∀ lit ∈ c, lit / 2 < n) {reads : List (List UInt8)}
    (hreads : Delivers reads (writeCnfTo n clauses)) :
    DimacsParser.parseReader {} {} reads =
      ⟨{ numVars := n, numClauses := clauses.length }, ⟨n, clauses⟩, .ok ()⟩ := by
  rw [parseReader_of_isAscii isAscii_writeCnfTo hreads, parseWhole_writeCnfTo hn hcount hclauses]

/-- An empty clause, a repeated and a complementary literal, read in one piece. -/
theorem parseReader_writeCnfTo_three :
    (∀ c ∈ [[], [0, 0, 1], [5]], ∀ lit ∈ c, lit / 2 < 3) ∧
      DimacsParser.parseReader {} {} [writeCnfTo 3 [[], [0, 0, 1], [5]]] =
        ⟨{ numVars := 3, numClauses := 3 }, ⟨3, [[], [0, 0, 1], [5]]⟩, .ok ()⟩ := by
  have hlits : ∀ c ∈ [[], [0, 0, 1], [5]], ∀ lit ∈ c, lit / 2 < 3 := by decide
  have hsize : (writeCnfTo 3 [[], [0, 0, 1], [5]]).length = 39 := by decide
  have hne : writeCnfTo 3 [[], [0, 0, 1], [5]] ≠ [] := by
    rw [← length_pos_iff, hsize]
    decide
  have hdelivers : Delivers [writeCnfTo 3 [[], [0, 0, 1], [5]]] (writeCnfTo 3 [[], [0, 0, 1], [5]]) := by
    refine delivers_singleton hne ?_
    rw [hsize, chunkSize]
    omega
  exact ⟨hlits, parseReader_writeCnfTo (by decide) (by decide) hlits hdelivers⟩

end Nixie.Dimacs
