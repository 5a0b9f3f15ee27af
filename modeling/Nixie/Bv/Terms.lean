import Nixie.Ast.Term
import Nixie.Bv.Fold

/-!
Bit-vector terms, their builders in `nixie-core/src/ast/manager/builder.rs`, and their value.  The kinds the
rewriter does not look into are leaves; a term's identifier is its structure, as terms are interned.
-/

namespace Nixie.BvRewrite

open Ast (SortId)
open BvFold

inductive BvOp
  | and
  | or
  | xor
  | add
  | sub
  | mul
  | shl
  | lshr
  | ashr
  | udiv
  | urem
  | sdiv
  | srem
  deriving DecidableEq

inductive BvCmp
  | ult
  | ule
  | slt
  | sle
  deriving DecidableEq

inductive Term
  | true
  | false
  | leaf (name : String) (sort : SortId)
  | bitVecConst (value : ℤ) (width : ℕ)
  | bvNot (arg : Term)
  | bvOp (op : BvOp) (lhs rhs : Term)
  | bvConcat (lhs rhs : Term)
  | bvExtract (high low : ℕ) (arg : Term)
  | bvCmp (op : BvCmp) (lhs rhs : Term)
  | eq (lhs rhs : Term)
  | ite (cond thenBranch elseBranch : Term)
  deriving DecidableEq

def bitvecWidth : SortId → Option ℕ
  | .bitVec width => some width
  | _ => none

def Term.sort : Term → SortId
  | .true | .false | .bvCmp .. | .eq .. => .bool
  | .leaf _ s => s
  | .bitVecConst _ width => .bitVec width
  | .bvNot arg => arg.sort
  | .bvOp _ lhs _ => lhs.sort
  | .bvConcat lhs rhs => .bitVec ((bitvecWidth lhs.sort).getD 32 + (bitvecWidth rhs.sort).getD 32)
  | .bvExtract high low _ => .bitVec (if low ≤ high then high - low + 1 else 1)
  | .ite _ thenBranch _ => thenBranch.sort

def bvWidthOf (t : Term) : Option ℕ := bitvecWidth t.sort

structure Manager where
  before : Term → Term → Bool
  shiftWiring : Bool

def mkBool (value : Bool) : Term := if value then .true else .false

def mkBitvec (value : ℤ) (width : ℕ) : Term :=
  if value < 0 ∨ width < value.natAbs.size then
    .bitVecConst ((value.tmod (modulus width) + modulus width).tmod (modulus width)) width
  else .bitVecConst value width

def bvConstUnsigned (t : Term) (width : ℕ) : Option ℤ :=
  match t with
  | .bitVecConst value _ => some (bvWrapUnsigned value width)
  | _ => none

def bvConstPair (lhs rhs : Term) (width : ℕ) : Option (ℤ × ℤ) :=
  match bvConstUnsigned lhs width, bvConstUnsigned rhs width with
  | some l, some r => some (l, r)
  | _, _ => none

def bvBinopWidth (lhs rhs : Term) : Option ℕ :=
  ((bvWidthOf lhs).or (bvWidthOf rhs)).filter (0 < ·)

section

variable (m : Manager)

def canonicalPair (lhs rhs : Term) : Term × Term := if m.before lhs rhs then (lhs, rhs) else (rhs, lhs)

/-- `mk_eq` on operands of a bit-vector sort; its other sections look at terms of other sorts. -/
def mkEq (lhs rhs : Term) : Term :=
  if lhs = rhs then .true
  else
    match lhs, rhs with
    | .bitVecConst v₁ w₁, .bitVecConst v₂ w₂ => mkBool (v₁ = v₂ ∧ w₁ = w₂)
    | _, _ =>
      let (lhs, rhs) := canonicalPair m lhs rhs
      .eq lhs rhs

def mkBvConcat (lhs rhs : Term) : Term :=
  match bvWidthOf lhs, bvWidthOf rhs with
  | some lhsWidth, some rhsWidth =>
    match bvConstUnsigned lhs lhsWidth, bvConstUnsigned rhs rhsWidth with
    | some l, some r => mkBitvec (bvConcat l r rhsWidth) (lhsWidth + rhsWidth)
    | _, _ => .bvConcat lhs rhs
  | _, _ => .bvConcat lhs rhs

def mkBvExtract (high low : ℕ) (arg : Term) : Term :=
  match bvWidthOf arg with
  | some argWidth =>
    match bvConstUnsigned arg argWidth with
    | some value =>
      if low ≤ high ∧ high < argWidth then mkBitvec (bvExtract value high low) (high - low + 1)
      else .bvExtract high low arg
    | none => .bvExtract high low arg
  | none => .bvExtract high low arg

def mkBvNot (arg : Term) : Term :=
  match (bvWidthOf arg).filter (0 < ·) with
  | some width =>
    match bvConstUnsigned arg width with
    | some value => mkBitvec (bvNot value width) width
    | none =>
      match arg with
      | .bvNot inner => inner
      | _ => .bvNot arg
  | none => .bvNot arg

def orderedAnd (lhs rhs : Term) : Term :=
  match bvBinopWidth lhs rhs with
  | some width =>
    match bvConstUnsigned lhs width, bvConstUnsigned rhs width with
    | some l, some r => mkBitvec (bvAnd l r width) width
    | l, r =>
      if lhs = rhs then lhs
      else if l = some 0 then lhs
      else if l = some (allOnes width) then rhs
      else if r = some 0 then rhs
      else if r = some (allOnes width) then lhs
      else .bvOp .and lhs rhs
  | none => .bvOp .and lhs rhs

def mkBvAnd (lhs rhs : Term) : Term :=
  let (lhs, rhs) := canonicalPair m lhs rhs
  orderedAnd lhs rhs

def orderedOr (lhs rhs : Term) : Term :=
  match bvBinopWidth lhs rhs with
  | some width =>
    match bvConstUnsigned lhs width, bvConstUnsigned rhs width with
    | some l, some r => mkBitvec (bvOr l r width) width
    | l, r =>
      if lhs = rhs then lhs
      else if l = some 0 then rhs
      else if l = some (allOnes width) then lhs
      else if r = some 0 then lhs
      else if r = some (allOnes width) then rhs
      else .bvOp .or lhs rhs
  | none => .bvOp .or lhs rhs

def mkBvOr (lhs rhs : Term) : Term :=
  let (lhs, rhs) := canonicalPair m lhs rhs
  orderedOr lhs rhs

def orderedXor (lhs rhs : Term) : Term :=
  match bvBinopWidth lhs rhs with
  | some width =>
    match bvConstUnsigned lhs width, bvConstUnsigned rhs width with
    | some l, some r => mkBitvec (bvXor l r width) width
    | l, r =>
      if lhs = rhs then mkBitvec 0 width
      else if l = some 0 then rhs
      else if r = some 0 then lhs
      else .bvOp .xor lhs rhs
  | none => .bvOp .xor lhs rhs

def mkBvXor (lhs rhs : Term) : Term :=
  let (lhs, rhs) := canonicalPair m lhs rhs
  orderedXor lhs rhs

def orderedAdd (lhs rhs : Term) : Term :=
  match bvBinopWidth lhs rhs with
  | some width =>
    match bvConstUnsigned lhs width, bvConstUnsigned rhs width with
    | some l, some r => mkBitvec (bvAdd l r width) width
    | l, r => if l = some 0 then rhs else if r = some 0 then lhs else .bvOp .add lhs rhs
  | none => .bvOp .add lhs rhs

def mkBvAdd (lhs rhs : Term) : Term :=
  let (lhs, rhs) := canonicalPair m lhs rhs
  orderedAdd lhs rhs

def mkBvSub (lhs rhs : Term) : Term :=
  match bvBinopWidth lhs rhs with
  | some width =>
    match bvConstPair lhs rhs width with
    | some (l, r) => mkBitvec (bvSub l r width) width
    | none =>
      if lhs = rhs then mkBitvec 0 width
      else if bvConstUnsigned rhs width = some 0 then lhs
      else .bvOp .sub lhs rhs
  | none => .bvOp .sub lhs rhs

def orderedMul (lhs rhs : Term) : Term :=
  match bvBinopWidth lhs rhs with
  | some width =>
    match bvConstUnsigned lhs width, bvConstUnsigned rhs width with
    | some l, some r => mkBitvec (bvMul l r width) width
    | l, r =>
      if l = some 0 then lhs
      else if l = some 1 then rhs
      else if r = some 0 then rhs
      else if r = some 1 then lhs
      else .bvOp .mul lhs rhs
  | none => .bvOp .mul lhs rhs

def mkBvMul (lhs rhs : Term) : Term :=
  let (lhs, rhs) := canonicalPair m lhs rhs
  orderedMul lhs rhs

inductive ShiftFold
  | value (value : ℤ)
  | identity
  | none

def foldBvShift (lhs rhs : Term) (width : ℕ) (foldConst : ℤ → ℤ → ℕ → ℤ) : ShiftFold :=
  match bvConstUnsigned rhs width with
  | none => .none
  | some amount =>
    match bvConstUnsigned lhs width with
    | some value => .value (foldConst value amount width)
    | none =>
      if amount = 0 then .identity
      else if (width : ℤ) ≤ amount then .value 0
      else .none

def wiredDistance (rhs : Term) (width : ℕ) : Option ℕ :=
  if m.shiftWiring then
    match bvConstUnsigned rhs width with
    | some k => if 0 < k ∧ k < width then some k.toNat else none
    | none => none
  else none

def mkBvShl (lhs rhs : Term) : Term :=
  match bvBinopWidth lhs rhs with
  | some width =>
    match foldBvShift lhs rhs width bvShl with
    | .value value => mkBitvec value width
    | .identity => lhs
    | .none =>
      match wiredDistance m rhs width with
      | some k => mkBvConcat (mkBvExtract (width - k - 1) 0 lhs) (mkBitvec 0 k)
      | none => .bvOp .shl lhs rhs
  | none => .bvOp .shl lhs rhs

def mkBvLshr (lhs rhs : Term) : Term :=
  match bvBinopWidth lhs rhs with
  | some width =>
    match foldBvShift lhs rhs width bvLshr with
    | .value value => mkBitvec value width
    | .identity => lhs
    | .none =>
      match wiredDistance m rhs width with
      | some k => mkBvConcat (mkBitvec 0 k) (mkBvExtract (width - 1) k lhs)
      | none => .bvOp .lshr lhs rhs
  | none => .bvOp .lshr lhs rhs

end

def BvOp.apply {w : ℕ} : BvOp → BitVec w → BitVec w → BitVec w
  | .and, x, y => x &&& y
  | .or, x, y => x ||| y
  | .xor, x, y => x ^^^ y
  | .add, x, y => x + y
  | .sub, x, y => x - y
  | .mul, x, y => x * y
  | .shl, x, y => x <<< y
  | .lshr, x, y => x >>> y
  | .ashr, x, y => x.sshiftRight' y
  | .udiv, x, y => x.smtUDiv y
  | .urem, x, y => x.umod y
  | .sdiv, x, y => x.smtSDiv y
  | .srem, x, y => x.srem y

def BvCmp.holds {w : ℕ} : BvCmp → BitVec w → BitVec w → Bool
  | .ult, x, y => x.ult y
  | .ule, x, y => x.ule y
  | .slt, x, y => x.slt y
  | .sle, x, y => x.sle y

inductive Value (D : Type*)
  | bool (b : Bool)
  | bits (n : ℕ)
  | other (d : D)
  deriving DecidableEq

namespace Value

variable {D : Type*}

def truth : Value D → Bool
  | .bool b => b
  | _ => false

def bv (w : ℕ) : Value D → BitVec w
  | .bits n => BitVec.ofNat w n
  | _ => 0

@[simp] theorem bv_bits {w : ℕ} (x : BitVec w) : (bits x.toNat : Value D).bv w = x := by
  rw [bv, BitVec.ofNat_toNat, BitVec.setWidth_eq]

end Value

structure Valuation (D : Type*) where
  leaf : String → SortId → Value D
  leaf_bits : ∀ name w, ∃ x : BitVec w, leaf name (.bitVec w) = .bits x.toNat
  leaf_bool : ∀ name, ∃ b, leaf name .bool = .bool b

def Term.width (t : Term) : ℕ := (bvWidthOf t).getD 0

section

variable {D : Type*} [DecidableEq D]

def eval (v : Valuation D) : Term → Value D
  | .true => .bool Bool.true
  | .false => .bool Bool.false
  | .leaf name sort => v.leaf name sort
  | .bitVecConst value width => .bits (BitVec.ofInt width value).toNat
  | .bvNot arg => .bits (~~~(eval v arg).bv arg.width).toNat
  | .bvOp op lhs rhs => .bits (op.apply ((eval v lhs).bv lhs.width) ((eval v rhs).bv lhs.width)).toNat
  | .bvConcat lhs rhs => .bits ((eval v lhs).bv lhs.width ++ (eval v rhs).bv rhs.width).toNat
  | .bvExtract high low arg => .bits (((eval v arg).bv arg.width).extractLsb high low).toNat
  | .bvCmp op lhs rhs => .bool (op.holds ((eval v lhs).bv lhs.width) ((eval v rhs).bv lhs.width))
  | .eq lhs rhs => .bool (eval v lhs = eval v rhs)
  | .ite cond thenBranch elseBranch =>
    if (eval v cond).truth then eval v thenBranch else eval v elseBranch

def bits (v : Valuation D) (w : ℕ) (t : Term) : BitVec w := (eval v t).bv w

end

/-- A well-sorted term whose literals are the residues `mk_bitvec` interns and whose widths are positive
`u32`s.  Equality also holds between the other sorts that may be compared. -/
inductive HasSort : Term → SortId → Prop
  | true : HasSort .true .bool
  | false : HasSort .false .bool
  | leaf {name s} (h : ∀ w, s = .bitVec w → 0 < w ∧ w < 2 ^ 32) :
    HasSort (.leaf name s) s
  | bitVecConst {w} (x : BitVec w) (h : 0 < w ∧ w < 2 ^ 32) :
    HasSort (.bitVecConst x.toNat w) (.bitVec w)
  | bvNot {a w} (ha : HasSort a (.bitVec w)) : HasSort (.bvNot a) (.bitVec w)
  | bvOp {op a b w} (ha : HasSort a (.bitVec w)) (hb : HasSort b (.bitVec w)) :
    HasSort (.bvOp op a b) (.bitVec w)
  | bvConcat {a b w n} (ha : HasSort a (.bitVec w)) (hb : HasSort b (.bitVec n))
    (h : w + n < 2 ^ 32) : HasSort (.bvConcat a b) (.bitVec (w + n))
  | bvExtract {a w high low} (ha : HasSort a (.bitVec w)) (hl : low ≤ high)
    (hh : high < w) : HasSort (.bvExtract high low a) (.bitVec (high - low + 1))
  | bvCmp {op a b w} (ha : HasSort a (.bitVec w)) (hb : HasSort b (.bitVec w)) :
    HasSort (.bvCmp op a b) .bool
  | eq {a b s s'} (ha : HasSort a s) (hb : HasSort b s')
    (h : bitvecWidth s = bitvecWidth s') : HasSort (.eq a b) .bool
  | ite {c t e s} (hc : HasSort c .bool) (ht : HasSort t s) (he : HasSort e s) :
    HasSort (.ite c t e) s

namespace HasSort

variable {t a b : Term} {s : SortId} {w : ℕ}

theorem sort_eq (h : HasSort t s) : t.sort = s := by
  induction h with
  | bvConcat ha hb h iha ihb => simp [Term.sort, iha, ihb, bitvecWidth]
  | bvExtract ha hl hh ih => simp [Term.sort, hl]
  | bvNot ha ih => simpa [Term.sort] using ih
  | bvOp ha hb iha ihb => simpa [Term.sort] using iha
  | ite hc ht he ihc iht ihe => simpa [Term.sort] using iht
  | _ => rfl

theorem bvWidthOf_eq (h : HasSort t (.bitVec w)) : bvWidthOf t = some w := by
  rw [bvWidthOf, h.sort_eq]
  rfl

@[simp] theorem width_eq (h : HasSort t (.bitVec w)) : t.width = w := by
  rw [Term.width, h.bvWidthOf_eq]
  rfl

theorem range (h : HasSort t s) : ∀ w, s = .bitVec w → 0 < w ∧ w < 2 ^ 32 := by
  induction h with
  | leaf h => exact h
  | bitVecConst x h =>
    rintro w ⟨⟩
    exact h
  | bvNot ha ih => exact ih
  | bvOp ha hb iha ihb => exact iha
  | bvConcat ha hb h iha ihb =>
    rintro w ⟨⟩
    have := (iha _ rfl).1
    omega
  | bvExtract ha hl hh ih =>
    rintro w ⟨⟩
    have := (ih _ rfl).2
    omega
  | ite hc ht he ihc iht ihe => exact iht
  | _ =>
    rintro w ⟨⟩

theorem bvBinopWidth_eq (ha : HasSort a (.bitVec w)) : bvBinopWidth a b = some w := by
  simp [bvBinopWidth, ha.bvWidthOf_eq, (ha.range w rfl).1]

variable {D : Type*} [DecidableEq D] (v : Valuation D)

theorem value_spec (h : HasSort t s) : (∀ w, s = .bitVec w → ∃ x : BitVec w, eval v t = .bits x.toNat) ∧
    (s = .bool → ∃ b, eval v t = .bool b) := by
  induction h with
  | leaf h =>
    constructor
    · rintro w rfl
      exact v.leaf_bits _ w
    · rintro rfl
      exact v.leaf_bool _
  | bitVecConst x h =>
    refine ⟨?_, by simp⟩
    rintro w ⟨⟩
    exact ⟨_, rfl⟩
  | bvNot ha ih =>
    refine ⟨?_, by simp⟩
    rintro w ⟨⟩
    exact ⟨_, by rw [eval, ha.width_eq]⟩
  | bvOp ha hb iha ihb =>
    refine ⟨?_, by simp⟩
    rintro w ⟨⟩
    exact ⟨_, by rw [eval, ha.width_eq]⟩
  | bvConcat ha hb h iha ihb =>
    refine ⟨?_, by simp⟩
    rintro w ⟨⟩
    exact ⟨_, by rw [eval, ha.width_eq, hb.width_eq]⟩
  | bvExtract ha hl hh ih =>
    refine ⟨?_, by simp⟩
    rintro w ⟨⟩
    exact ⟨_, by rw [eval, ha.width_eq]⟩
  | ite hc ht he ihc iht ihe =>
    simp only [eval]
    split_ifs
    · exact iht
    · exact ihe
  | _ => exact ⟨by simp, fun _ => ⟨_, rfl⟩⟩

theorem eval_eq (h : HasSort t (.bitVec w)) : eval v t = .bits (bits v w t).toNat := by
  obtain ⟨x, hx⟩ := (h.value_spec v).1 w rfl
  simp [bits, hx]

end HasSort

structure Denotes {D : Type*} [DecidableEq D] (v : Valuation D) (w : ℕ) (t : Term) (x : BitVec w) :
    Prop where
  sort : HasSort t (.bitVec w)
  value : bits v w t = x

end Nixie.BvRewrite
