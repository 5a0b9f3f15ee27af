import Mathlib.Tactic.Common
import Nixie.Rust

/-!
Texts made of decimal numbers: what is written is read back, word by word and line by line.
-/

namespace Nixie.Rust

open List

def displayNat (n : ℕ) : List Char := Nat.toDigits 10 n

def displayInt (z : ℤ) : List Char :=
  if z < 0 then '-' :: displayNat z.natAbs else displayNat z.natAbs

section

variable {cs : List Char} {c : Char} {n m width : ℕ} {z : ℤ}

theorem digit_of_isDigit (hc : c.isDigit) : digit c = some (c.toNat - '0'.toNat) := by
  simp only [Char.isDigit, Bool.and_eq_true, decide_eq_true_eq] at hc
  unfold digit
  rw [if_pos]
  exact hc

theorem digits_of_isDigit (hcs : ∀ c ∈ cs, c.isDigit) : digits cs n = some (Nat.ofDigitChars 10 cs n) := by
  induction cs generalizing n with
  | nil => rfl
  | cons c cs ih =>
    obtain ⟨hc, hcs⟩ := forall_mem_cons.mp hcs
    rw [digits, digit_of_isDigit hc, Option.bind_some, ih hcs, Nat.ofDigitChars_cons]

theorem isDigit_displayNat : ∀ c ∈ displayNat n, c.isDigit :=
  fun _ hc => Nat.isDigit_of_mem_toDigits (by decide) (by decide) hc

theorem number_displayNat : number (displayNat n) = some n := by
  unfold number
  rw [if_neg (by simp [displayNat, Nat.toDigits_ne_nil]), digits_of_isDigit isDigit_displayNat,
    displayNat, Nat.ofDigitChars_ten_toDigits]

theorem signed_displayNat : signed (displayNat n) = some (n : ℤ) := by
  obtain ⟨c, cs, hsplit⟩ := exists_cons_of_ne_nil (Nat.toDigits_ne_nil (n := n) (b := 10))
  have hnumber := number_displayNat (n := n)
  have hc : c.isDigit := isDigit_displayNat (n := n) c (by rw [displayNat, hsplit]; exact mem_cons_self)
  rw [displayNat, hsplit] at hnumber ⊢
  unfold signed
  split
  · next heq =>
    cases heq
    exact absurd hc (by decide)
  · next heq =>
    cases heq
    exact absurd hc (by decide)
  · rw [hnumber]
    rfl

theorem signed_displayInt : signed (displayInt z) = some z := by
  unfold displayInt
  split
  · next hneg =>
    rw [signed, number_displayNat]
    refine congrArg some (?_ : -(z.natAbs : ℤ) = z)
    omega
  · next hpos =>
    rw [signed_displayNat]
    congr 1
    omega

theorem parse_displayInt (hz : -2 ^ (width - 1) ≤ z ∧ z < 2 ^ (width - 1)) : parse width (displayInt z) = some z := by
  rw [parse, signed_displayInt, Option.filter_some]
  simp [hz]

theorem parseI32_displayInt (x : Int32) : parseI32 (displayInt x.toInt) = some x := by
  rw [parseI32, parse_displayInt ⟨x.le_toInt, x.toInt_lt⟩, Option.map_some, Int32.ofInt_toInt]

theorem parseI64_displayInt (x : Int64) : parseI64 (displayInt x.toInt) = some x := by
  rw [parseI64, parse_displayInt ⟨x.le_toInt, x.toInt_lt⟩, Option.map_some, Int64.ofInt_toInt]

end

section

variable {w : List Char} {ws : List (List Char)} {n : ℕ} {z : ℤ}

def IsWord (w : List Char) : Prop := w ≠ [] ∧ ∀ c ∈ w, isWhitespace c = false

theorem isWord_displayNat : IsWord (displayNat n) := by
  refine ⟨Nat.toDigits_ne_nil, fun c hc => ?_⟩
  have hdigit := isDigit_displayNat c hc
  simp only [Char.isDigit, Bool.and_eq_true, decide_eq_true_eq, UInt32.le_iff_toNat_le] at hdigit
  have hlow : 48 ≤ c.toNat := hdigit.1
  have hhigh : c.toNat ≤ 57 := hdigit.2
  simp only [isWhitespace]
  simp
  omega

theorem isWord_displayInt : IsWord (displayInt z) := by
  unfold displayInt
  split
  · refine ⟨by simp, forall_mem_cons.mpr ⟨by decide, isWord_displayNat.2⟩⟩
  · exact isWord_displayNat

theorem splitWhitespace_word (hw : IsWord w) : splitWhitespace w = [w] := by
  rw [splitWhitespace, splitOnP_eq_singleton hw.2]
  simp [hw.1]

theorem splitWhitespace_append (hw : IsWord w) {c : Char} (hc : isWhitespace c) {s : List Char} :
    splitWhitespace (w ++ c :: s) = w :: splitWhitespace s := by
  rw [splitWhitespace, splitOnP_append_cons_of_forall_mem hw.2 c hc, filter_cons_of_pos]
  · rfl
  · simp [hw.1]

def spaced (ws : List (List Char)) : List Char := ws.flatMap fun w => w ++ [' ']

theorem splitWhitespace_spaced (hws : ∀ w ∈ ws, IsWord w) {s : List Char} :
    splitWhitespace (spaced ws ++ s) = ws ++ splitWhitespace s := by
  induction ws with
  | nil => rfl
  | cons w ws ih =>
    obtain ⟨hw, hws⟩ := forall_mem_cons.mp hws
    have hsplit : spaced (w :: ws) ++ s = w ++ ' ' :: (spaced ws ++ s) := by
      simp [spaced]
    rw [hsplit, splitWhitespace_append hw (by decide), ih hws, cons_append]

end

section

variable {ls : List (List Char)}

def IsLine (l : List Char) : Prop := (∀ c ∈ l, c ≠ '\n') ∧ l.getLast? ≠ some '\r'

def terminated (ls : List (List Char)) : List Char := ls.flatMap fun l => l ++ ['\n']

theorem splitOnP_terminated (hls : ∀ l ∈ ls, IsLine l) : (terminated ls).splitOnP (· == '\n') = ls ++ [[]] := by
  induction ls with
  | nil => rfl
  | cons l ls ih =>
    obtain ⟨hl, hls⟩ := forall_mem_cons.mp hls
    have hsplit : terminated (l :: ls) = l ++ '\n' :: terminated ls := by simp [terminated]
    have hno : ∀ c ∈ l, (c == '\n') = false := fun c hc => by simpa using hl.1 c hc
    rw [hsplit, splitOnP_append_cons_of_forall_mem hno '\n' (by decide), ih hls, cons_append]

theorem lines_terminated (hls : ∀ l ∈ ls, IsLine l) : lines (terminated ls) = ls := by
  have hstrip : ls.map stripCarriageReturn = ls := by
    rw [map_congr_left (g := id), map_id]
    intro l hl
    rw [stripCarriageReturn, if_neg (hls l hl).2]
    rfl
  unfold lines
  rw [splitOnP_terminated hls]
  simp [hstrip]

end

end Nixie.Rust
