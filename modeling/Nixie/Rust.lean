import Mathlib.Algebra.Group.Nat.Defs
import Mathlib.Algebra.Group.Int.Defs

/-!
What the modelled functions use of Rust itself: arithmetic that panics or wraps, and the string
functions of the standard library on the characters of a `&str`.
-/

namespace Nixie.Rust

structure Profile where
  overflowChecks : Bool
  deriving DecidableEq

inductive Panic
  | overflow
  deriving DecidableEq

abbrev Run := Except Panic

def negI32 (p : Profile) (x : Int32) : Run Int32 :=
  if p.overflowChecks && x == Int32.minValue then .error .overflow else .ok (-x)

def absI32 (p : Profile) (x : Int32) : Run Int32 :=
  if p.overflowChecks && x == Int32.minValue then .error .overflow else .ok x.abs

theorem negI32_eq_ok {p : Profile} {x y : Int32} (h : negI32 p x = .ok y) : y = -x := by
  unfold negI32 at h
  split at h
  · cases h
  · exact (Except.ok.inj h).symm

theorem absI32_eq_ok {p : Profile} {x y : Int32} (h : absI32 p x = .ok y) : y = x.abs := by
  unfold absI32 at h
  split at h
  · cases h
  · exact (Except.ok.inj h).symm

theorem bind_eq_ok {α β : Type} {x : Run α} {f : α → Run β} {b : β} :
    x >>= f = .ok b ↔ ∃ a, x = .ok a ∧ f a = .ok b := by
  cases x with
  | error e => simp [bind, Except.bind]
  | ok a => simp [bind, Except.bind]

def wrapI64 (x : ℤ) : ℤ := x.bmod (2 ^ 64)

def fitsI64 (x : ℤ) : Bool := -2 ^ 63 ≤ x && x < 2 ^ 63

theorem wrapI64_of_fits {x : ℤ} (h : fitsI64 x = true) : wrapI64 x = x := by
  simp only [fitsI64, Bool.and_eq_true, decide_eq_true_eq] at h
  exact Int.bmod_eq_of_le (by omega) (by omega)

def isWhitespace (c : Char) : Bool :=
  let n := c.toNat
  (9 ≤ n && n ≤ 13) || n == 0x20 || n == 0x85 || n == 0xA0 || n == 0x1680 ||
    (0x2000 ≤ n && n ≤ 0x200A) || n == 0x2028 || n == 0x2029 || n == 0x202F || n == 0x205F ||
    n == 0x3000

def trim (s : List Char) : List Char :=
  ((s.dropWhile isWhitespace).reverse.dropWhile isWhitespace).reverse

def splitWhitespace (s : List Char) : List (List Char) :=
  (s.splitOnP isWhitespace).filter (fun t => !t.isEmpty)

def stripCarriageReturn (s : List Char) : List Char :=
  if s.getLast? = some '\r' then s.dropLast else s

def lines (s : List Char) : List (List Char) :=
  let pieces := s.splitOnP (· == '\n')
  let terminated := pieces.dropLast.map stripCarriageReturn
  match pieces.getLast? with
  | some (c :: cs) => terminated ++ [c :: cs]
  | _ => terminated

def digit (c : Char) : Option ℕ :=
  if '0'.toNat ≤ c.toNat ∧ c.toNat ≤ '9'.toNat then some (c.toNat - '0'.toNat) else none

def digits : List Char → ℕ → Option ℕ
  | [], n => some n
  | c :: cs, n => (digit c).bind fun d => digits cs (10 * n + d)

def number (s : List Char) : Option ℕ := if s.isEmpty then none else digits s 0

def signed : List Char → Option ℤ
  | '+' :: s => (number s).map fun n => (n : ℤ)
  | '-' :: s => (number s).map fun n => -(n : ℤ)
  | s => (number s).map fun n => (n : ℤ)

/-- `str::parse` at a signed type of the given width; every failure is the same `Err` to its callers. -/
def parse (width : ℕ) (s : List Char) : Option ℤ :=
  (signed s).filter fun n => -2 ^ (width - 1) ≤ n && n < 2 ^ (width - 1)

def parseI32 (s : List Char) : Option Int32 := (parse 32 s).map Int32.ofInt

def parseI64 (s : List Char) : Option Int64 := (parse 64 s).map Int64.ofInt

example : (lines "1 -2 0 \r\n\n3\r".toList).map String.ofList = ["1 -2 0 ", "", "3\r"] := by decide
example : (splitWhitespace " 12\t d\u00a00 ".toList).map String.ofList = ["12", "d", "0"] := by decide
example : parseI32 "-2147483648".toList = some Int32.minValue ∧ parseI32 "2147483648".toList = none ∧
    parseI32 "+7".toList = some 7 ∧ parseI32 "-".toList = none := by decide

end Nixie.Rust
