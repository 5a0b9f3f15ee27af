import Nixie.Dimacs.Windows

/-!
When the result of `parse_reader` depends on how the reader cuts its input: a read may end inside a
character of several bytes, and the window is then refused although the text is well formed.
-/

namespace Nixie.Dimacs

open Nixie.Rust Nixie.Sat List

variable {p : DimacsParser} {solver : Cnf} {s s' : Scan} {o : Outcome} {bytes xs ys : List UInt8}
  {reads : List (List UInt8)} {k : ℕ}

def Outcome.kind (o : Outcome) : Option ErrorKind :=
  match o.result with
  | .ok () => none
  | .error e => some e.kind

section

variable (p : DimacsParser)

def ChunkingIndependent (solver : Cnf) (bytes : List UInt8) : Prop :=
  ∀ reads reads', Delivers reads bytes → Delivers reads' bytes →
    (p.parseReader solver reads).solver.clauses = (p.parseReader solver reads').solver.clauses ∧
      (p.parseReader solver reads).kind = (p.parseReader solver reads').kind

/-- A complete line among the first bytes ends the parse: it begins with `%` or has an error. -/
def EndsWithin (solver : Cnf) (bytes : List UInt8) (k : ℕ) : Prop :=
  ∃ o, Scan.run ⟨p, solver, [], .blank⟩ (completeLines (bytes.take k)) = .error o

def clausesWithin (solver : Cnf) (bytes : List UInt8) (k : ℕ) : List (List ℕ) :=
  match Scan.run ⟨p, solver, [], .blank⟩ (completeLines (bytes.take k)) with
  | .error o => o.solver.clauses
  | .ok s => s.solver.clauses

def safeLength (bytes : List UInt8) : ℕ := (bytes.takeWhile (· < 128)).length + 1 - chunkSize

theorem clean_of_forall (h : ∀ r ∈ reads, IsUtf8 r) : Clean reads := by
  rintro r ⟨r', rfl⟩
  replace h := (forall_mem_append.mp h).1
  induction r with
  | nil => exact isUtf8_nil
  | cons x r ih =>
    obtain ⟨hx, hr⟩ := forall_mem_cons.mp h
    exact hx.append (ih hr)

theorem Delivers.append {reads' : List (List UInt8)} (h : Delivers reads xs) (h' : Delivers reads' ys) :
    Delivers (reads ++ reads') (xs ++ ys) where
  flatten := by rw [flatten_append, h.flatten, h'.flatten]
  nonempty := forall_mem_append.mpr ⟨h.nonempty, h'.nonempty⟩
  bounded := forall_mem_append.mpr ⟨h.bounded, h'.bounded⟩

theorem delivers_singleton (hxs : xs ≠ []) (hbound : xs.length ≤ chunkSize) : Delivers [xs] xs where
  flatten := by simp
  nonempty := forall_mem_singleton.mpr hxs
  bounded := forall_mem_singleton.mpr hbound

theorem exists_delivers_chars (cs : List Char) : ∃ reads, Delivers reads (utf8 cs) ∧ ∀ r ∈ reads, IsUtf8 r := by
  induction cs with
  | nil => exact ⟨[], ⟨rfl, by simp, by simp⟩, by simp⟩
  | cons c cs ih =>
    obtain ⟨reads, hreads, hutf8⟩ := ih
    have hbound : (String.utf8EncodeChar c).length ≤ chunkSize := by
      have hsize := c.utf8Size_le_four
      rw [String.length_utf8EncodeChar, chunkSize]
      omega
    have hc := (delivers_singleton String.utf8EncodeChar_ne_nil hbound).append hreads
    refine ⟨_, hc, forall_mem_append.mpr ⟨forall_mem_singleton.mpr ⟨[c], ?_⟩, hutf8⟩⟩
    simp [utf8_cons]

theorem exists_clean_delivers (h : IsUtf8 bytes) : ∃ reads, Delivers reads bytes ∧ Clean reads := by
  obtain ⟨cs, rfl⟩ := h
  obtain ⟨reads, hreads, hutf8⟩ := exists_delivers_chars cs
  exact ⟨reads, hreads, clean_of_forall hutf8⟩

theorem exists_delivers (bytes : List UInt8) : ∃ reads, Delivers reads bytes := by
  induction bytes with
  | nil => exact ⟨[], rfl, by simp, by simp⟩
  | cons b bytes ih =>
    obtain ⟨reads, hreads⟩ := ih
    have hone : Delivers [[b]] [b] := delivers_singleton (by simp) (by simp [chunkSize])
    exact ⟨_, hone.append hreads⟩

theorem safeLength_le {chunk : List UInt8} (hbytes : xs ++ chunk <+: bytes) (hbound : chunk.length ≤ chunkSize)
    (hill : ¬ IsUtf8 (xs ++ chunk)) : safeLength bytes ≤ xs.length := by
  by_contra! hlt
  refine hill (IsAscii.isUtf8 fun b hb => ?_)
  have hlong : (xs ++ chunk).length ≤ (bytes.takeWhile (· < 128)).length := by
    rw [safeLength] at hlt
    rw [length_append]
    omega
  have hpre : xs ++ chunk <+: bytes.takeWhile (· < 128) :=
    prefix_of_prefix_length_le hbytes ( takeWhile_prefix _) hlong
  simpa using mem_takeWhile_imp (hpre.mem hb)

theorem parseReader_cases (solver : Cnf) (hreads : Delivers reads bytes) :
    (IsUtf8 bytes ∧ p.parseReader solver reads = parseWhole ⟨p, solver, [], .blank⟩ bytes) ∨
    ∃ k, safeLength bytes ≤ k ∧ ¬ IsAscii bytes ∧ IsUtf8 (bytes.take k) ∧
    p.parseReader solver reads = refused (Scan.run ⟨p, solver, [], .blank⟩ (completeLines (bytes.take k))) := by
  obtain hclean | ⟨r, chunk, r', rfl, hclean, hill⟩ := clean_or_split reads
  · refine .inl ⟨hreads.flatten ▸ hclean reads prefix_rfl, ?_⟩
    rw [DimacsParser.parseReader, readLoop_clean hclean, hreads.flatten]
  · have hflat : bytes = r.flatten ++ (chunk ++ r'.flatten) := by
      rw [← hreads.flatten]
      simp
    have htake : bytes.take r.flatten.length = r.flatten := by
      rw [hflat, take_left']
      rfl
    have hpre : r.flatten ++ chunk <+: bytes := ⟨r'.flatten, by rw [hflat, append_assoc]⟩
    refine .inr ⟨r.flatten.length, ?_, ?_, ?_, ?_⟩
    · exact safeLength_le hpre (hreads.bounded chunk (by simp)) hill
    · intro hascii
      exact hill (IsAscii.isUtf8 fun b hb => hascii b (hpre.mem hb))
    · rw [htake]
      exact hclean r prefix_rfl
    · rw [htake]
      exact readLoop_split hclean hill

end

theorem parseWhole_of_endsWithin (h : s.run (completeLines (bytes.take k)) = .error o) : parseWhole s bytes = o := by
  have hpre : completeLines (bytes.take k) <+: bytes := completeLines_le.trans ( take_prefix _ _)
  rw [parseWhole, Scan.run_error_of_le h hpre]

theorem exists_first_high (h : ¬ IsAscii bytes) :
    ∃ b rest, bytes = bytes.takeWhile (· < 128) ++ b :: rest ∧ 128 ≤ b := by
  have hhead := head?_dropWhile_not (fun b : UInt8 => decide (b < 128)) bytes
  cases hdrop : bytes.dropWhile (· < 128) with
  | nil =>
    rw [dropWhile_eq_nil_iff] at hdrop
    exact absurd (fun b hb => by simpa using hdrop b hb) h
  | cons b rest =>
    rw [hdrop] at hhead
    refine ⟨b, rest, ?_, by simpa using hhead⟩
    rw [← hdrop, takeWhile_append_dropWhile]

theorem exists_split_read (h : ¬ IsAscii bytes) : ∃ reads, Delivers reads bytes ∧ ∀ s, readLoop reads [] s = refused
    (s.run (completeLines (bytes.take (safeLength bytes)))) := by
  obtain ⟨b, rest, hsplit, hb⟩ := exists_first_high h
  set ascii := bytes.takeWhile (· < 128)
  have hsmall : IsAscii ascii := fun b hb => by simpa using mem_takeWhile_imp hb
  have hpos : 1 ≤ chunkSize := by decide
  have hsafe : safeLength bytes = ascii.length + 1 - chunkSize := rfl
  set before := ascii.take (safeLength bytes)
  set chunk := ascii.drop (safeLength bytes) ++ [b]
  have hchunk : before ++ chunk = ascii ++ [b] := by
    rw [← append_assoc, take_append_drop]
  have htake : bytes.take (safeLength bytes) = before := by
    nth_rewrite 2 [hsplit]
    exact take_append_of_le_length (by omega)
  have hbound : chunk.length ≤ chunkSize := by
    simp only [chunk, length_append, length_drop, length_singleton, hsafe]
    omega
  have hbefore : IsAscii before := fun b hb => hsmall b (mem_of_mem_take hb)
  obtain ⟨reads, hreads, hclean⟩ := exists_clean_delivers hbefore.isUtf8
  obtain ⟨reads', hreads'⟩ := exists_delivers rest
  refine ⟨reads ++ [chunk] ++ reads', ?_, fun s => ?_⟩
  · have hall := (hreads.append (delivers_singleton (by simp [chunk]) hbound)).append hreads'
    rw [hchunk] at hall
    rw [hsplit]
    simpa using hall
  · rw [append_assoc, singleton_append, readLoop_split hclean, hreads.flatten, htake]
    rw [hreads.flatten, hchunk]
    exact not_isUtf8_append hsmall hb

theorem parseReader_of_isAscii (h : IsAscii bytes) (hreads : Delivers reads bytes) :
    p.parseReader solver reads = parseWhole ⟨p, solver, [], .blank⟩ bytes := by
  obtain ⟨-, heq⟩ | ⟨k, -, hn, -⟩ := parseReader_cases p solver hreads
  · exact heq
  · exact absurd h hn

theorem chunkingIndependent_of_isAscii (h : IsAscii bytes) : ChunkingIndependent p solver bytes := by
  intro reads reads' hreads hreads'
  rw [parseReader_of_isAscii h hreads, parseReader_of_isAscii h hreads']
  exact ⟨rfl, rfl⟩

theorem chunkingIndependent_of_endsWithin (h : EndsWithin p solver bytes (safeLength bytes)) :
    ChunkingIndependent p solver bytes := by
  obtain ⟨o, ho⟩ := h
  have hsame : ∀ reads, Delivers reads bytes → p.parseReader solver reads = o := by
    intro reads hreads
    obtain ⟨-, heq⟩ | ⟨k, hk, -, -, heq⟩ := parseReader_cases p solver hreads
    · rw [heq, parseWhole_of_endsWithin ho]
    · have hpre := completeLines_mono (take_prefix_take_left hk (l := bytes))
      rw [heq, Scan.run_error_of_le ho hpre, refused]
  intro reads reads' hreads hreads'
  rw [hsame reads hreads, hsame reads' hreads']
  exact ⟨rfl, rfl⟩

def Quiet (p : DimacsParser) (solver : Cnf) (bytes : List UInt8) : Prop :=
  ∀ k, safeLength bytes ≤ k → IsUtf8 (bytes.take k) →
    ¬ EndsWithin p solver bytes k ∧
      clausesWithin p solver bytes k = clausesWithin p solver bytes (safeLength bytes)

theorem chunkingIndependent_of_quiet (hill : ¬ IsUtf8 bytes) (h : Quiet p solver bytes) :
    ChunkingIndependent p solver bytes := by
  have hsame : ∀ reads, Delivers reads bytes →
      (p.parseReader solver reads).solver.clauses = clausesWithin p solver bytes (safeLength bytes) ∧
        (p.parseReader solver reads).kind = some .io := by
    intro reads hreads
    obtain ⟨hutf8, -⟩ | ⟨k, hk, -, hutf8, heq⟩ := parseReader_cases p solver hreads
    · exact absurd hutf8 hill
    · obtain ⟨hends, hclauses⟩ := h k hk hutf8
      rw [← hclauses, heq, clausesWithin]
      cases hs : Scan.run ⟨p, solver, [], .blank⟩ (completeLines (bytes.take k)) with
      | error o => exact absurd ⟨o, hs⟩ hends
      | ok s => exact ⟨rfl, rfl⟩
  intro reads reads' hreads hreads'
  obtain ⟨hclauses, hkind⟩ := hsame reads hreads
  obtain ⟨hclauses', hkind'⟩ := hsame reads' hreads'
  exact ⟨hclauses.trans hclauses'.symm, hkind.trans hkind'.symm⟩

theorem kind_ne_io (h : o.result ≠ .error .io) : o.kind ≠ some .io := by
  unfold Outcome.kind
  split
  · simp
  · next e he =>
    cases e with
    | io => exact absurd he h
    | parse message => simp [DimacsError.kind]
    | invalidProblem => simp [DimacsError.kind]
    | literalOutOfRange lit => simp [DimacsError.kind]

theorem parseWhole_kind_ne_io : (parseWhole s bytes).kind ≠ some .io := by
  refine kind_ne_io ?_
  have hmoves := Scan.moves_run s bytes
  unfold parseWhole
  cases hs : s.run bytes with
  | error o =>
    rw [hs] at hmoves
    exact hmoves.2
  | ok s' => exact Scan.moves_finish.2

theorem ChunkingIndependent.io (h : ChunkingIndependent p solver bytes) (hascii : ¬ IsAscii bytes)
    (hends : ¬ EndsWithin p solver bytes (safeLength bytes)) (hreads : Delivers reads bytes) :
    (p.parseReader solver reads).solver.clauses = clausesWithin p solver bytes (safeLength bytes) ∧
    (p.parseReader solver reads).kind = some .io := by
  obtain ⟨split, hsplit, heq⟩ := exists_split_read hascii
  obtain ⟨hclauses, hkind⟩ := h reads split hreads hsplit
  rw [hclauses, hkind, DimacsParser.parseReader, heq, clausesWithin]
  cases hs : Scan.run ⟨p, solver, [], .blank⟩ (completeLines (bytes.take (safeLength bytes))) with
  | error o => exact absurd ⟨o, hs⟩ hends
  | ok s => exact ⟨rfl, rfl⟩

theorem ChunkingIndependent.not_isUtf8 (h : ChunkingIndependent p solver bytes) (hascii : ¬ IsAscii bytes)
    (hends : ¬ EndsWithin p solver bytes (safeLength bytes)) : ¬ IsUtf8 bytes := by
  intro hutf8
  obtain ⟨reads, hreads, hclean⟩ := exists_clean_delivers hutf8
  have hio := (h.io hascii hends hreads).2
  rw [DimacsParser.parseReader, readLoop_clean hclean] at hio
  exact parseWhole_kind_ne_io hio

theorem exists_run_of_not_endsWithin (h : ¬ EndsWithin p solver bytes k) :
    ∃ s, Scan.run ⟨p, solver, [], .blank⟩ (completeLines (bytes.take k)) = .ok s := by
  cases hs : Scan.run ⟨p, solver, [], .blank⟩ (completeLines (bytes.take k)) with
  | error o => exact absurd ⟨o, hs⟩ h
  | ok s => exact ⟨s, rfl⟩

theorem ChunkingIndependent.quiet (h : ChunkingIndependent p solver bytes) (hascii : ¬ IsAscii bytes)
    (hends : ¬ EndsWithin p solver bytes (safeLength bytes)) : Quiet p solver bytes := by
  intro k hk hutf8
  -- The first bytes are read by characters, so that their complete lines are scanned.
  obtain ⟨r, hr, hclean⟩ := exists_clean_delivers hutf8
  obtain ⟨r', hr'⟩ := exists_delivers (bytes.drop k)
  have hreads := hr.append hr'
  rw [take_append_drop] at hreads
  obtain ⟨hclauses, hio⟩ := h.io hascii hends hreads
  rw [DimacsParser.parseReader, readLoop_append hclean, hr.flatten] at hclauses hio
  cases hs : Scan.run ⟨p, solver, [], .blank⟩ (completeLines (bytes.take k)) with
  | error o =>
    rw [hs] at hio
    have hmoves := Scan.moves_run ⟨p, solver, [], .blank⟩ (completeLines (bytes.take k))
    rw [hs] at hmoves
    exact absurd hio (kind_ne_io hmoves.2)
  | ok s =>
    rw [hs] at hclauses
    refine ⟨?_, ?_⟩
    · rintro ⟨o, ho⟩
      rw [hs] at ho
      cases ho
    · have hwithin : clausesWithin p solver bytes k = s.solver.clauses := by
        rw [clausesWithin, hs]
      have hlast : s.solver.clauses <+: clausesWithin p solver bytes (safeLength bytes) :=
        hclauses ▸ clauses_prefix_readLoop
      obtain ⟨s₁, hs₁⟩ := exists_run_of_not_endsWithin hends
      have hsafe : clausesWithin p solver bytes (safeLength bytes) = s₁.solver.clauses := by
        rw [clausesWithin, hs₁]
      have hpre := completeLines_mono (take_prefix_take_left hk (l := bytes))
      have hfirst := Scan.clauses_prefix_of_le hs₁ hs hpre
      rw [hwithin, hsafe]
      rw [hsafe] at hlast
      exact hlast.eq_of_length_le hfirst.length_le

/-- The text is ASCII, or its parse ends before any reader can cut a character, or it is no text
and what the readers scan before they notice makes no difference. -/
theorem chunkingIndependent_iff (p : DimacsParser) (solver : Cnf) (bytes : List UInt8) :
    ChunkingIndependent p solver bytes ↔
      IsAscii bytes ∨ EndsWithin p solver bytes (safeLength bytes) ∨
        (¬ IsUtf8 bytes ∧ Quiet p solver bytes) := by
  constructor
  · intro h
    by_cases hascii : IsAscii bytes
    · exact .inl hascii
    by_cases hends : EndsWithin p solver bytes (safeLength bytes)
    · exact .inr (.inl hends)
    exact .inr (.inr ⟨h.not_isUtf8 hascii hends, h.quiet hascii hends⟩)
  · rintro (h | h | ⟨hill, h⟩)
    · exact chunkingIndependent_of_isAscii h
    · exact chunkingIndependent_of_endsWithin h
    · exact chunkingIndependent_of_quiet hill h

/-- A comment with an `é`, read at once or up to the first byte of that character. -/
theorem not_chunkingIndependent_comment : ¬ ChunkingIndependent {} {} [99, 32, 195, 169, 10] := by
  intro h
  refine h.not_isUtf8 ?_ ?_ ⟨['c', ' ', 'é', '\n'], by decide⟩
  · intro hascii
    exact absurd (hascii 195 (by simp)) (by decide)
  · rintro ⟨o, ho⟩
    cases ho

end Nixie.Dimacs
