import Mathlib.Algebra.Order.Archimedean.Basic
import Nixie.Ast.Builder

/-!
The values of terms.  Numbers are the elements of an ordered field with a floor, so the real numbers
and the rationals are instances; the integers among them are the values of integer sort.
-/

namespace Nixie.Ast

section

inductive Value (K D : Type*)
  | bool (b : Bool)
  | num (k : K)
  | bitVec (value : ℤ) (width : ℕ)
  | str (s : String)
  | field (value : ℤ) (order : ℕ)
  | elem (d : D)
  deriving DecidableEq

variable {K D : Type*}

namespace Value

def isTrue : Value K D → Bool
  | .bool b => b
  | _ => false

def toNum [Zero K] : Value K D → K
  | .num k => k
  | _ => 0

def HasSort [IntCast K] (v : Value K D) : SortId → Prop
  | .bool => ∃ b, v = .bool b
  | .int => ∃ n : ℤ, v = .num n
  | .real => ∃ k, v = .num k
  | _ => True

@[simp]
theorem isTrue_bool (b : Bool) : (bool b : Value K D).isTrue = b := rfl

@[simp]
theorem toNum_num [Zero K] (k : K) : (num k : Value K D).toNum = k := rfl

end Value

def SortId.isNumeric : SortId → Bool
  | .int | .real => true
  | _ => false

def SortId.Compatible (s s' : SortId) : Prop := s = s' ∨ s.isNumeric ∧ s'.isNumeric

instance (s s' : SortId) : Decidable (s.Compatible s') := inferInstanceAs (Decidable (_ ∨ _))

namespace SortId.Compatible

variable {s s' s'' : SortId}

@[refl, simp]
theorem refl (s : SortId) : s.Compatible s := .inl rfl

theorem symm (h : s.Compatible s') : s'.Compatible s := h.imp Eq.symm And.symm

theorem trans (h : s.Compatible s') (h' : s'.Compatible s'') : s.Compatible s'' := by
  rcases h with rfl | ⟨h1, h2⟩
  · exact h'
  · rcases h' with rfl | ⟨-, h3⟩
    · exact .inr ⟨h1, h2⟩
    · exact .inr ⟨h1, h3⟩

theorem numeric (h : s.Compatible s') : s.isNumeric = s'.isNumeric := by
  rcases h with rfl | ⟨h1, h2⟩
  · rfl
  · rw [h1, h2]

theorem eq_bool (h : s.Compatible .bool) : s = .bool := by
  rcases h with rfl | ⟨-, h⟩
  · rfl
  · cases h

end SortId.Compatible

structure Interp (m : Manager) (K D : Type*) [IntCast K] where
  value : Term → Value K D
  construct : String → SortId → List (Value K D) → Value K D
  divZero : K → K
  modZero : K → K
  rdivZero : K → K
  value_sort : ∀ t, (value t).HasSort t.sort
  construct_sort : ∀ c s xs, (construct c s xs).HasSort s
  construct_inj : ∀ s, (m.tupleFieldSortsOf s).isSome → ∀ c c' xs ys, xs.length = ys.length →
    (construct c s xs = construct c' s ys ↔ xs = ys)
  divZero_int : ∀ n : ℤ, ∃ k : ℤ, divZero n = k
  modZero_int : ∀ n : ℤ, ∃ k : ℤ, modZero n = k

end

section

variable {m : Manager} {K D : Type*} [Field K] [LinearOrder K] [FloorRing K] [DecidableEq D]

def euclid (x y : K) : ℤ := if 0 < y then ⌊x / y⌋ else ⌈x / y⌉

namespace Interp

variable (I : Interp m K D)

def intDiv (x y : K) : K := if y = 0 then I.divZero x else (euclid x y : ℤ)

def intMod (x y : K) : K := if y = 0 then I.modZero x else x - y * (euclid x y : ℤ)

def realDiv (x y : K) : K := if y = 0 then I.rdivZero x else x / y

mutual

def eval : Term → Value K D
  | .true => .bool Bool.true
  | .false => .bool Bool.false
  | .intConst n => .num n
  | .realConst r => .num r.value
  | .bitVecConst v w => .bitVec v w
  | .stringLit s => .str s
  | .ffConst v p => .field v p
  | .not a => .bool !(eval a).isTrue
  | .and args => .bool ((evals args).all Value.isTrue)
  | .or args => .bool ((evals args).any Value.isTrue)
  | .xor a b => .bool ((eval a).isTrue != (eval b).isTrue)
  | .implies a b => .bool (!(eval a).isTrue || (eval b).isTrue)
  | .ite c t e _ => if (eval c).isTrue then eval t else eval e
  | .eq a b => .bool (eval a = eval b)
  | .neg a _ => .num (-(eval a).toNum)
  | .add args _ => .num ((evals args).map Value.toNum).sum
  | .sub a b _ => .num ((eval a).toNum - (eval b).toNum)
  | .mul args _ => .num ((evals args).map Value.toNum).prod
  | .div a b s =>
    .num (if s = .int then I.intDiv (eval a).toNum (eval b).toNum
      else I.realDiv (eval a).toNum (eval b).toNum)
  | .mod a b _ => .num (I.intMod (eval a).toNum (eval b).toNum)
  | .cmp op a b => .bool (op.accepts (compare (eval a).toNum (eval b).toNum))
  | .dtConstructor c args s => I.construct c s (evals args)
  | .var x s => I.value (.var x s)
  | .other k args s => I.value (.other k args s)

def evals : List Term → List (Value K D)
  | [] => []
  | a :: as => eval a :: evals as

end

def truth (t : Term) : Bool := (I.eval t).isTrue

def num (t : Term) : K := (I.eval t).toNum

theorem evals_eq_map (ts : List Term) : I.evals ts = ts.map I.eval := by
  induction ts with
  | nil => rfl
  | cons t ts ih => rw [evals, ih, List.map_cons]

end Interp

end

section

variable (m : Manager)

def Manager.Fits : Term → Prop
  | .not a => a.sort = .bool
  | .and args | .or args => ∀ a ∈ args, a.sort = .bool
  | .xor a b | .implies a b => a.sort = .bool ∧ b.sort = .bool
  | .ite c t e s => c.sort = .bool ∧ t.sort.Compatible e.sort ∧ s.Compatible t.sort
  | .eq a b => a.sort.Compatible b.sort
  | .neg a s => a.sort.isNumeric ∧ s.isNumeric
  | .add args s | .mul args s => (∀ a ∈ args, a.sort.isNumeric) ∧ s.isNumeric
  | .sub a b s | .div a b s | .mod a b s => a.sort.isNumeric ∧ b.sort.isNumeric ∧ s.isNumeric
  | .cmp _ a b => a.sort.isNumeric ∧ b.sort.isNumeric
  | .dtConstructor _ args s =>
    ∀ fields ∈ m.tupleFieldSortsOf s, List.Forall₂ (fun a f => a.sort.Compatible f) args fields
  | _ => True

inductive Manager.WellSorted : Term → Prop
  | mk {t} (fits : m.Fits t) (children : ∀ a ∈ t.children, WellSorted a) : WellSorted t

end

end Nixie.Ast
