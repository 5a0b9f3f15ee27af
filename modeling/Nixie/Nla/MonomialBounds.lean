import Nixie.Arithmetic.Rational64

/-!
Interval arithmetic over monics with the tags that justify each bound,
`nixie-theories/src/arithmetic/nla/monomial_bounds.rs`.  An operation without a result has overflowed.
-/

namespace Nixie.Nla

open Arithmetic

structure Bound where
  value : Rational64
  reasons : List ℕ
  deriving DecidableEq

namespace Bound

def new (value : Rational64) (reasons : List ℕ) : Bound := ⟨value, (reasons.insertionSort (· ≤ ·)).dedup⟩

def tagged (value : Rational64) (tag : ℕ) : Bound := ⟨value, [tag]⟩

def axiomatic (value : Rational64) : Bound := ⟨value, []⟩

end Bound

structure Interval where
  lo : Option Bound
  hi : Option Bound
  deriving DecidableEq

inductive PropOutcome
  | progress
  | fixpoint
  | conflict
  | overflow
  deriving DecidableEq

namespace Interval

def unbounded : Interval := ⟨none, none⟩

def closed (lo hi : Rational64) (tag : ℕ) : Interval := ⟨some (.tagged lo tag), some (.tagged hi tag)⟩

def isEmpty (I : Interval) : Bool :=
  match I.lo, I.hi with
  | some l, some h => decide (h.value.value < l.value.value)
  | _, _ => false

def excludesZero (I : Interval) : Bool :=
  I.lo.any (fun b => decide (0 < b.value.value)) || I.hi.any (fun b => decide (b.value.value < 0))

def tightenLo (cur other : Option Bound) : Option Bound × Bool :=
  match other with
  | none => (cur, false)
  | some nl =>
    match cur with
    | some c => if c.value.value < nl.value.value then (some nl, true) else (cur, false)
    | none => (some nl, true)

def tightenHi (cur other : Option Bound) : Option Bound × Bool :=
  match other with
  | none => (cur, false)
  | some nh =>
    match cur with
    | some c => if nh.value.value < c.value.value then (some nh, true) else (cur, false)
    | none => (some nh, true)

def tighten (I other : Interval) : Interval × PropOutcome :=
  let lo := tightenLo I.lo other.lo
  let hi := tightenHi I.hi other.hi
  let J : Interval := ⟨lo.1, hi.1⟩
  (J, if J.isEmpty then .conflict else if lo.2 || hi.2 then .progress else .fixpoint)

end Interval

inductive Ext
  | negInf
  | fin (value : Rational64) (reasons : List ℕ)
  | posInf
  deriving DecidableEq

namespace Ext

def loOf (I : Interval) : Ext :=
  match I.lo with
  | some b => .fin b.value b.reasons
  | none => .negInf

def hiOf (I : Interval) : Ext :=
  match I.hi with
  | some b => .fin b.value b.reasons
  | none => .posInf

def intoBound : Ext → Option Bound
  | .fin v r => some (.new v r)
  | _ => none

def mulInf (a : Rational64) (ra : List ℕ) (inf : Ext) : Ext :=
  if a.numer = 0 then .fin .zero ra
  else
    match inf, decide (a.value < 0) with
    | .posInf, false => .posInf
    | .negInf, true => .posInf
    | _, _ => .negInf

def mul : Ext → Ext → Option Ext
  | .fin a ra, .fin b rb => (checkedMulR64 a b).map fun p => .fin p (ra ++ rb)
  | .fin a ra, inf => some (mulInf a ra inf)
  | inf, .fin a ra => some (mulInf a ra inf)
  | .posInf, .posInf => some .posInf
  | .negInf, .negInf => some .posInf
  | _, _ => some .negInf

def cmp : Ext → Ext → Ordering
  | .negInf, .negInf => .eq
  | .posInf, .posInf => .eq
  | .negInf, _ => .lt
  | _, .posInf => .lt
  | _, .negInf => .gt
  | .posInf, _ => .gt
  | .fin a _, .fin b _ => compare a.value b.value

def min (cands : List Ext) : Ext :=
  cands.foldl (fun best c => if c.cmp best = .lt then c else best) .posInf

def max (cands : List Ext) : Ext :=
  cands.foldl (fun best c => if c.cmp best = .gt then c else best) .negInf

def pow (x : Ext) (e : ℕ) : Option Ext :=
  match x with
  | .posInf => some .posInf
  | .negInf => some (if 2 ∣ e then .posInf else .negInf)
  | .fin v r => (checkedPowR64 v e).map fun p => .fin p r

end Ext

def mul (a b : Interval) : Option Interval := do
  let ll ← (Ext.loOf a).mul (Ext.loOf b)
  let lh ← (Ext.loOf a).mul (Ext.hiOf b)
  let hl ← (Ext.hiOf a).mul (Ext.loOf b)
  let hh ← (Ext.hiOf a).mul (Ext.hiOf b)
  let cands := [ll, lh, hl, hh]
  return ⟨(Ext.min cands).intoBound, (Ext.max cands).intoBound⟩

def pow (a : Interval) (e : ℕ) : Option Interval :=
  if e = 0 then some ⟨some (.axiomatic .one), some (.axiomatic .one)⟩
  else if e = 1 then some a
  else do
    let lo := Ext.loOf a
    let hi := Ext.hiOf a
    let zero := Ext.fin .zero []
    let plo ← lo.pow e
    let phi ← hi.pow e
    if ¬ 2 ∣ e then return ⟨plo.intoBound, phi.intoBound⟩
    else if lo.cmp zero ≠ .lt then return ⟨plo.intoBound, phi.intoBound⟩
    else if hi.cmp zero ≠ .gt then return ⟨phi.intoBound, plo.intoBound⟩
    else return ⟨some (.axiomatic .zero), (Ext.max [plo, phi]).intoBound⟩

def forwardFrom (acc : Interval) : List (Interval × ℕ) → Option Interval
  | [] => some acc
  | (I, e) :: rest => do
    let p ← pow I e
    let next ← mul acc p
    forwardFrom next rest

def forward (factors : List (Interval × ℕ)) : Option Interval :=
  forwardFrom ⟨some (.axiomatic .one), some (.axiomatic .one)⟩ factors

def recipFar (far : Option Bound) (reasons : List ℕ) : Option Bound :=
  match far with
  | some b => (checkedRecipR64 b.value).map fun v => .new v b.reasons
  | none => some (.new .zero reasons)

def recip (a : Interval) : Option Interval :=
  match a.lo.filter (fun b => decide (0 < b.value.value)), a.hi.filter (fun b => decide (b.value.value < 0)) with
  | some l, _ => do
    let newHi := Bound.new (← checkedRecipR64 l.value) l.reasons
    let newLo ← recipFar a.hi l.reasons
    return ⟨some newLo, some newHi⟩
  | none, some h => do
    let newLo := Bound.new (← checkedRecipR64 h.value) h.reasons
    let newHi ← recipFar a.lo h.reasons
    return ⟨some newLo, some newHi⟩
  | none, none => none

def backward (product cofactor : Interval) : Option Interval :=
  if cofactor.excludesZero then (recip cofactor).bind (mul product) else none

structure MonicState where
  product : Interval
  factors : List (Interval × ℕ)
  deriving DecidableEq

def backwardFrom (s : MonicState) (i : ℕ) (progress : Bool) : ℕ → MonicState × PropOutcome
  | 0 => (s, if progress then .progress else .fixpoint)
  | left + 1 =>
    match s.factors[i]? with
    | some (I, 1) =>
      match forward (s.factors.eraseIdx i) with
      | none => (s, .overflow)
      | some co =>
        match backward s.product co with
        | none => backwardFrom s (i + 1) progress left
        | some derived =>
          let (J, outcome) := I.tighten derived
          let s' := { s with factors := s.factors.set i (J, 1) }
          match outcome with
          | .conflict => (s', .conflict)
          | .progress => backwardFrom s' (i + 1) true left
          | _ => backwardFrom s' (i + 1) progress left
    | _ => backwardFrom s (i + 1) progress left

def propagateMonic (s : MonicState) : MonicState × PropOutcome :=
  match forward s.factors with
  | none => (s, .overflow)
  | some fwd =>
    let (product, outcome) := s.product.tighten fwd
    let s' := { s with product := product }
    match outcome with
    | .conflict => (s', .conflict)
    | .progress => backwardFrom s' 0 true s.factors.length
    | _ => backwardFrom s' 0 false s.factors.length

end Nixie.Nla
