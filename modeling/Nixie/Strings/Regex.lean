import Mathlib.Algebra.Order.BigOperators.Group.List
import Mathlib.Algebra.Order.Ring.Nat

namespace Nixie.Strings

open List

inductive UnicodeCategory
  | letter | lowercaseLetter | uppercaseLetter | titlecaseLetter | modifierLetter | otherLetter
  | mark | nonspacingMark | spacingMark | enclosingMark
  | number | decimalNumber | letterNumber | otherNumber
  | punctuation | connectorPunctuation | dashPunctuation | openPunctuation | closePunctuation
  | initialPunctuation | finalPunctuation | otherPunctuation
  | symbol | mathSymbol | currencySymbol | modifierSymbol | otherSymbol
  | separator | spaceSeparator | lineSeparator | paragraphSeparator
  | other | control | format | surrogate | privateUse | unassigned
  deriving DecidableEq

class UnicodeTable where
  contains : UnicodeCategory → Char → Bool

inductive RegexOp (R : Type)
  | epsilon
  | none
  | all
  | allChar
  | char (c : Char)
  | range (lo hi : Char)
  | unicodeClass (cat : UnicodeCategory)
  | concat (parts : List R)
  | union (parts : List R)
  | inter (parts : List R)
  | complement (r : R)
  | star (r : R)
  | plus (r : R)
  | option (r : R)
  | loop (r : R) (min : ℕ) (max : Option ℕ)

/-- An operation with its cached nullable status.
The cached hash is a function of the operation and only cuts comparisons short, so it is left out. -/
inductive Regex
  | mk (op : RegexOp Regex) (nullable : Bool)

def RegexOp.operands {R : Type} : RegexOp R → List R
  | .concat parts | .union parts | .inter parts => parts
  | .complement r | .star r | .plus r | .option r | .loop r _ _ => [r]
  | _ => []

def opRank {R : Type} : RegexOp R → ℕ
  | .epsilon => 0
  | .none => 1
  | .all => 2
  | .allChar => 3
  | .char _ => 4
  | .range _ _ => 5
  | .unicodeClass _ => 6
  | .concat _ => 7
  | .union _ => 8
  | .inter _ => 9
  | .complement _ => 10
  | .star _ => 11
  | .plus _ => 12
  | .option _ => 13
  | .loop _ _ _ => 14

namespace Regex

def op : Regex → RegexOp Regex
  | .mk op _ => op

def nullable : Regex → Bool
  | .mk _ nullable => nullable

@[simp] theorem op_mk (op : RegexOp Regex) (n : Bool) : (mk op n).op = op := rfl
@[simp] theorem nullable_mk (op : RegexOp Regex) (n : Bool) : (mk op n).nullable = n := rfl

theorem sizeOf_lt_of_mem {op : RegexOp Regex} {n : Bool} {r : Regex} (h : r ∈ op.operands) :
    sizeOf r < sizeOf (mk op n) := by
  have hlist {l : List Regex} (hr : r ∈ l) : sizeOf r < sizeOf l := List.sizeOf_lt_of_mem hr
  cases op with
  | concat parts | union parts | inter parts =>
    have : sizeOf r < sizeOf parts := hlist h
    simp only [mk.sizeOf_spec, RegexOp.concat.sizeOf_spec, RegexOp.union.sizeOf_spec, RegexOp.inter.sizeOf_spec]
    omega
  | complement s | star s | plus s | option s | loop s _ _ =>
    rw [mem_singleton.mp h]
    simp only [mk.sizeOf_spec, RegexOp.complement.sizeOf_spec, RegexOp.star.sizeOf_spec,
      RegexOp.plus.sizeOf_spec, RegexOp.option.sizeOf_spec, RegexOp.loop.sizeOf_spec]
    omega
  | _ => cases h

theorem induct {P : Regex → Prop} (mk : ∀ op n, (∀ r ∈ op.operands, P r) → P (.mk op n)) (r : Regex) : P r := by
  match r with
  | .mk op n => exact mk op n fun s _ => induct mk s
termination_by sizeOf r
decreasing_by exact sizeOf_lt_of_mem ‹_›

def nodes : Regex → ℕ
  | .mk op n => 1 + (op.operands.attach.map fun r => nodes r.1).sum
termination_by r => sizeOf r
decreasing_by exact sizeOf_lt_of_mem r.2

end Regex

def RegexOp.nodes (op : RegexOp Regex) : ℕ :=
  1 + (op.operands.map Regex.nodes).sum

theorem Regex.nodes_eq (r : Regex) : r.nodes = r.op.nodes := by
  cases r with
  | mk op n =>
    rw [Regex.nodes, RegexOp.nodes, op_mk, attach_map_val]

inductive CmpStep
  | pair (x y : RegexOp Regex)
  | fixed (ord : Ordering)

def CmpStep.cost : CmpStep → ℕ
  | .pair x _ => 2 * x.nodes
  | .fixed _ => 1

def cmpCost (stack : List CmpStep) : ℕ :=
  (stack.map CmpStep.cost).sum

def cmpPairs (p q : List Regex) : List CmpStep :=
  List.zipWith (fun a b => .pair a.op b.op) p q

theorem cmpCost_cmpPairs_le (p q : List Regex) : cmpCost (cmpPairs p q) ≤ 2 * (p.map Regex.nodes).sum := by
  induction p generalizing q with
  | nil => simp [cmpPairs, cmpCost]
  | cons a p ih =>
    cases q with
    | nil => simp [cmpPairs, cmpCost]
    | cons b q =>
      have := ih q
      simp only [cmpPairs, cmpCost, zipWith_cons_cons, map_cons, sum_cons, CmpStep.cost, Regex.nodes_eq a] at *
      omega

@[simp] theorem cmpCost_cons (step : CmpStep) (stack : List CmpStep) :
    cmpCost (step :: stack) = step.cost + cmpCost stack := by
  simp [cmpCost]

@[simp] theorem cmpCost_append (s t : List CmpStep) : cmpCost (s ++ t) = cmpCost s + cmpCost t := by
  simp [cmpCost]

def cmpLoop : List CmpStep → Ordering
  | [] => .eq
  | .fixed ord :: stack => if ord.isEq then cmpLoop stack else ord
  | .pair x y :: stack =>
    if opRank x ≠ opRank y then compare (opRank x) (opRank y) else
      match x, y with
      | .char p, .char q => if p ≠ q then compare p q else cmpLoop stack
      | .range p₁ p₂, .range q₁ q₂ =>
        let ord := (compare p₁ q₁).then (compare p₂ q₂)
        if ord.isEq then cmpLoop stack else ord
      | .unicodeClass p, .unicodeClass q =>
        let ord := compare p.ctorIdx q.ctorIdx
        if ord.isEq then cmpLoop stack else ord
      | .concat p, .concat q | .union p, .union q | .inter p, .inter q =>
        let ord := compare p.length q.length
        if ord.isEq then cmpLoop (cmpPairs p q ++ stack) else ord
      | .complement p, .complement q | .star p, .star q | .plus p, .plus q | .option p, .option q =>
        cmpLoop (.pair p.op q.op :: stack)
      | .loop p plo phi, .loop q qlo qhi =>
        -- the bounds break the tie only if the bodies compare equal
        cmpLoop (.pair p.op q.op :: .fixed ((compare plo qlo).then (compare phi qhi)) :: stack)
      | _, _ => cmpLoop stack
termination_by stack => cmpCost stack
decreasing_by
  all_goals simp only [cmpCost_cons, cmpCost_append, CmpStep.cost, RegexOp.nodes, RegexOp.operands,
    map_cons, map_nil, sum_cons, sum_nil, Regex.nodes_eq]
  all_goals try have := cmpCost_cmpPairs_le p q
  all_goals omega

def regexCmp (a b : Regex) : Ordering :=
  cmpLoop [.pair a.op b.op]

/-- Queue the operand pairs; `none` when the lengths differ. The last pair queued is on top. -/
def pushPairs (xs ys : List Regex) (stack : List (RegexOp Regex × RegexOp Regex)) :
    Option (List (RegexOp Regex × RegexOp Regex)) :=
  if xs.length ≠ ys.length then none
  else some ((List.zipWith (fun x y => (x.op, y.op)) xs ys).reverse ++ stack)

def eqCost (stack : List (RegexOp Regex × RegexOp Regex)) : ℕ :=
  (stack.map fun p => p.1.nodes).sum

theorem eqCost_pushPairs_lt {xs ys : List Regex} {stack stack' : List (RegexOp Regex × RegexOp Regex)}
    (h : pushPairs xs ys stack = some stack') : eqCost stack' < 1 + (xs.map Regex.nodes).sum + eqCost stack := by
  have hzip : (List.map (fun p : RegexOp Regex × RegexOp Regex => p.1.nodes)
      (List.zipWith (fun x y : Regex => (x.op, y.op)) xs ys)).sum ≤ (xs.map Regex.nodes).sum := by
    clear h
    induction xs generalizing ys with
    | nil => simp
    | cons x xs ih =>
      cases ys with
      | nil => simp
      | cons y ys =>
        have := @ih ys
        simp only [zipWith_cons_cons, map_cons, sum_cons, Regex.nodes_eq x]
        omega
  unfold pushPairs at h
  split at h
  · cases h
  · cases h
    simp only [eqCost, map_append, map_reverse, sum_append, sum_reverse]
    omega

def eqLoop : List (RegexOp Regex × RegexOp Regex) → Bool
  | [] => true
  | (a, b) :: stack =>
    if opRank a ≠ opRank b then false else
      match a, b with
      | .char x, .char y => if x ≠ y then false else eqLoop stack
      | .range x₁ x₂, .range y₁ y₂ => if (x₁, x₂) ≠ (y₁, y₂) then false else eqLoop stack
      | .unicodeClass x, .unicodeClass y => if x ≠ y then false else eqLoop stack
      | .concat x, .concat y | .union x, .union y | .inter x, .inter y =>
        match h : pushPairs x y stack with
        | none => false
        | some stack' => eqLoop stack'
      | .complement x, .complement y | .star x, .star y | .plus x, .plus y | .option x, .option y =>
        eqLoop ((x.op, y.op) :: stack)
      | .loop x xlo xhi, .loop y ylo yhi =>
        if (xlo, xhi) ≠ (ylo, yhi) then false else eqLoop ((x.op, y.op) :: stack)
      | .epsilon, .epsilon | .none, .none | .all, .all | .allChar, .allChar => eqLoop stack
      | _, _ => false
termination_by stack => eqCost stack
decreasing_by
  all_goals try have := eqCost_pushPairs_lt h
  all_goals simp only [eqCost, map_cons, sum_cons, RegexOp.nodes, RegexOp.operands,
    map_nil, sum_nil, Regex.nodes_eq] at *
  all_goals omega

instance : BEq Regex := ⟨fun a b => eqLoop [(a.op, b.op)]⟩

def dedup : List Regex → List Regex
  | a :: b :: rest => if a == b then dedup (a :: rest) else a :: dedup (b :: rest)
  | flat => flat

namespace Regex

def epsilon : Regex := mk .epsilon true

def none : Regex := mk .none false

def all : Regex := mk .all true

def allChar : Regex := mk .allChar false

def char (c : Char) : Regex := mk (.char c) false

def range (lo hi : Char) : Regex :=
  if lo > hi then none else mk (.range lo hi) false

inductive Operand
  | skip
  | absorb
  | nested (inner : List Regex)
  | keep

def flatten (classify : RegexOp Regex → Operand) : List Regex → Option (List Regex)
  | [] => some []
  | p :: parts =>
    match classify p.op with
    | .skip => flatten classify parts
    | .absorb => Option.none
    | .nested inner => (flatten classify parts).map (inner ++ ·)
    | .keep => (flatten classify parts).map (p :: ·)

def concatOperand : RegexOp Regex → Operand
  | .epsilon => .skip
  | .none => .absorb
  | .concat inner => .nested inner
  | _ => .keep

def unionOperand : RegexOp Regex → Operand
  | .none => .skip
  | .all => .absorb
  | .union inner => .nested inner
  | _ => .keep

def interOperand : RegexOp Regex → Operand
  | .all => .skip
  | .none => .absorb
  | .inter inner => .nested inner
  | _ => .keep

def concat (parts : List Regex) : Regex :=
  match flatten concatOperand parts with
  | Option.none => none
  | some [] => epsilon
  | some [r] => r
  | some flat => mk (.concat flat) (flat.all nullable)

def sortDedup (flat : List Regex) : List Regex :=
  dedup (flat.mergeSort fun a b => regexCmp a b != .gt)

def union (parts : List Regex) : Regex :=
  match flatten unionOperand parts with
  | Option.none => all
  | some [] => none
  | some [r] => r
  | some flat =>
    let flat := sortDedup flat
    mk (.union flat) (flat.any nullable)

def inter (parts : List Regex) : Regex :=
  match flatten interOperand parts with
  | Option.none => none
  | some [] => all
  | some [r] => r
  | some flat =>
    let flat := sortDedup flat
    mk (.inter flat) (flat.all nullable)

def literal (s : List Char) : Regex :=
  if s.isEmpty then epsilon else concat (s.map char)

def complement (r : Regex) : Regex :=
  match r.op with
  | .none => all
  | .all => none
  | .complement inner => inner
  | _ => mk (.complement r) !r.nullable

def star (r : Regex) : Regex :=
  match r.op with
  | .epsilon | .none => epsilon
  | .star _ | .all => r
  | _ => mk (.star r) true

def plus (r : Regex) : Regex :=
  match r.op with
  | .epsilon => epsilon
  | .none => none
  | .star _ | .plus _ => r
  | _ => mk (.plus r) r.nullable

def option (r : Regex) : Regex :=
  if r.nullable then r else
    match r.op with
    | .none => epsilon
    | _ => mk (.option r) true

def loopBounded (r : Regex) (min : ℕ) (max : Option ℕ) : Regex :=
  if min = 0 ∧ max = some 0 then epsilon
  else if ∃ m ∈ max, m < min then none
  else if r.op matches .none ∧ min > 0 then none
  else if r.op matches .epsilon then epsilon
  else mk (.loop r min max) (min == 0 || r.nullable)

def isNullable (r : Regex) : Bool :=
  r.nullable

def isEmpty (r : Regex) : Bool :=
  r.op matches .none

end Regex

end Nixie.Strings
