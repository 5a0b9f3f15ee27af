import Mathlib.Algebra.BigOperators.Group.List.Basic
import Mathlib.Algebra.GroupWithZero.Nat
import Mathlib.Algebra.Field.Rat

/-!
Terms, `nixie-core/src/ast/term.rs`.  Hash consing makes the identifier of a term its structure, so
a term is a tree here; the kinds that no modelled function looks into are one constructor.
-/

namespace Nixie.Ast

open List

inductive SortId
  | bool
  | int
  | real
  | bitVec (width : ℕ)
  | string
  | field (order : ℕ)
  | datatype (name : ℕ)
  | other (name : ℕ)
  deriving DecidableEq

structure Rational64 where
  value : ℚ
  num_lt : -2 ^ 63 ≤ value.num ∧ value.num < 2 ^ 63
  den_lt : value.den < 2 ^ 63
  deriving DecidableEq

theorem Rational64.den_intCast_lt (n : ℤ) : (n : ℚ).den < 2 ^ 63 := by simp

theorem Rational64.zero_fits : -2 ^ 63 ≤ (0 : ℤ) ∧ (0 : ℤ) < 2 ^ 63 := by decide

def Rational64.ofInt (n : ℤ) (h : -2 ^ 63 ≤ n ∧ n < 2 ^ 63) : Rational64 :=
  ⟨n, by simpa using h, den_intCast_lt n⟩

inductive CmpOp
  | lt
  | le
  | gt
  | ge
  deriving DecidableEq

inductive Term
  | true
  | false
  | intConst (n : ℤ)
  | realConst (r : Rational64)
  | bitVecConst (value : ℤ) (width : ℕ)
  | stringLit (s : String)
  | ffConst (value : ℤ) (field : ℕ)
  | var (name : String) (sort : SortId)
  | not (a : Term)
  | and (args : List Term)
  | or (args : List Term)
  | xor (a b : Term)
  | implies (a b : Term)
  | ite (c t e : Term) (sort : SortId)
  | eq (a b : Term)
  | neg (a : Term) (sort : SortId)
  | add (args : List Term) (sort : SortId)
  | sub (a b : Term) (sort : SortId)
  | mul (args : List Term) (sort : SortId)
  | div (a b : Term) (sort : SortId)
  | mod (a b : Term) (sort : SortId)
  | cmp (op : CmpOp) (a b : Term)
  | dtConstructor (constructor : String) (args : List Term) (sort : SortId)
  | other (kind : String) (args : List Term) (sort : SortId)

namespace Term

def sort : Term → SortId
  | .intConst _ => .int
  | .realConst _ => .real
  | .bitVecConst _ width => .bitVec width
  | .stringLit _ => .string
  | .ffConst _ field => .field field
  | .var _ s | .ite _ _ _ s | .neg _ s | .add _ s | .sub _ _ s | .mul _ s | .div _ _ s | .mod _ _ s
  | .dtConstructor _ _ s | .other _ _ s => s
  | _ => .bool

section

def children : Term → List Term
  | .not a | .neg a _ => [a]
  | .and args | .or args | .add args _ | .mul args _ | .dtConstructor _ args _ | .other _ args _ => args
  | .xor a b | .implies a b | .eq a b | .sub a b _ | .div a b _ | .mod a b _ | .cmp _ a b => [a, b]
  | .ite c t e _ => [c, t, e]
  | _ => []

theorem sizeOf_child {t a : Term} (h : a ∈ t.children) : sizeOf a < sizeOf t := by
  cases t <;> simp only [children, not_mem_nil, mem_cons, or_false] at h
  case and args | or args | add args s | mul args s | dtConstructor c args s | other k args s =>
    have := sizeOf_lt_of_mem h
    simp only [and.sizeOf_spec, or.sizeOf_spec, add.sizeOf_spec, mul.sizeOf_spec,
      dtConstructor.sizeOf_spec, other.sizeOf_spec]
    omega
  all_goals
    rcases h with rfl | rfl | rfl <;>
    simp <;> omega

mutual

def size : Term → ℕ
  | .not a | .neg a _ => a.size + 1
  | .and args | .or args | .add args _ | .mul args _ | .dtConstructor _ args _ | .other _ args _ =>
    sizes args + 1
  | .xor a b | .implies a b | .eq a b | .sub a b _ | .div a b _ | .mod a b _ | .cmp _ a b =>
    a.size + b.size + 1
  | .ite c t e _ => c.size + t.size + e.size + 1
  | _ => 1

def sizes : List Term → ℕ
  | [] => 0
  | a :: as => a.size + sizes as

end

attribute [local simp] size sizes

theorem size_pos (t : Term) : 0 < t.size := by
  cases t <;> simp

theorem induct {P : Term → Prop} (h : ∀ t, (∀ a ∈ t.children, P a) → P t) (t : Term) : P t :=
  h t fun a _ => induct h a
termination_by sizeOf t
decreasing_by exact sizeOf_child (by assumption)

end

mutual

def beq : Term → Term → Bool
  | .true, .true => Bool.true
  | .false, .false => Bool.true
  | .intConst n, .intConst n' => n == n'
  | .realConst r, .realConst r' => r == r'
  | .bitVecConst v w, .bitVecConst v' w' => v == v' && w == w'
  | .stringLit s, .stringLit s' => s == s'
  | .ffConst v f, .ffConst v' f' => v == v' && f == f'
  | .var x s, .var x' s' => x == x' && s == s'
  | .not a, .not a' => a.beq a'
  | .and as, .and as' => beqs as as'
  | .or as, .or as' => beqs as as'
  | .xor a b, .xor a' b' => a.beq a' && b.beq b'
  | .implies a b, .implies a' b' => a.beq a' && b.beq b'
  | .ite c t e s, .ite c' t' e' s' => c.beq c' && t.beq t' && e.beq e' && s == s'
  | .eq a b, .eq a' b' => a.beq a' && b.beq b'
  | .neg a s, .neg a' s' => a.beq a' && s == s'
  | .add as s, .add as' s' => beqs as as' && s == s'
  | .sub a b s, .sub a' b' s' => a.beq a' && b.beq b' && s == s'
  | .mul as s, .mul as' s' => beqs as as' && s == s'
  | .div a b s, .div a' b' s' => a.beq a' && b.beq b' && s == s'
  | .mod a b s, .mod a' b' s' => a.beq a' && b.beq b' && s == s'
  | .cmp op a b, .cmp op' a' b' => op == op' && a.beq a' && b.beq b'
  | .dtConstructor c as s, .dtConstructor c' as' s' => c == c' && beqs as as' && s == s'
  | .other k as s, .other k' as' s' => k == k' && beqs as as' && s == s'
  | _, _ => Bool.false

def beqs : List Term → List Term → Bool
  | [], [] => Bool.true
  | a :: as, b :: bs => a.beq b && beqs as bs
  | _, _ => Bool.false

end

theorem beqs_refl {as : List Term} (h : ∀ a ∈ as, a.beq a = Bool.true) : beqs as as = Bool.true := by
  induction as with
  | nil => rfl
  | cons a as ih =>
    simp only [beqs, h a (by simp), ih fun a ha => h a (mem_cons_of_mem _ ha), Bool.and_self]

theorem and_eq_true_of {p q : Bool} (hp : p = Bool.true) (hq : q = Bool.true) : (p && q) = Bool.true := by
  rw [hp, hq, Bool.and_self]

theorem beq_refl (t : Term) : t.beq t = Bool.true := by
  induction t using induct with
  | h t ih =>
    cases t with
    | true | false => rfl
    | intConst n => exact beq_self_eq_true n
    | realConst r => exact beq_self_eq_true r
    | stringLit s => exact beq_self_eq_true s
    | bitVecConst v w => exact and_eq_true_of (beq_self_eq_true v) (beq_self_eq_true w)
    | ffConst v f => exact and_eq_true_of (beq_self_eq_true v) (beq_self_eq_true f)
    | var x s => exact and_eq_true_of (beq_self_eq_true x) (beq_self_eq_true s)
    | not a => exact ih a (by simp [children])
    | and as | or as => exact beqs_refl ih
    | xor a b | implies a b | eq a b =>
      exact and_eq_true_of (ih a (by simp [children])) (ih b (by simp [children]))
    | ite c t e s =>
      have hct := and_eq_true_of (ih c (by simp [children])) (ih t (by simp [children]))
      exact and_eq_true_of (and_eq_true_of hct (ih e (by simp [children]))) (beq_self_eq_true s)
    | neg a s => exact and_eq_true_of (ih a (by simp [children])) (beq_self_eq_true s)
    | add as s | mul as s => exact and_eq_true_of (beqs_refl ih) (beq_self_eq_true s)
    | sub a b s | div a b s | mod a b s =>
      have hab := and_eq_true_of (ih a (by simp [children])) (ih b (by simp [children]))
      exact and_eq_true_of hab (beq_self_eq_true s)
    | cmp op a b =>
      have ha := and_eq_true_of (beq_self_eq_true op) (ih a (by simp [children]))
      exact and_eq_true_of ha (ih b (by simp [children]))
    | dtConstructor c as s | other c as s =>
      exact and_eq_true_of (and_eq_true_of (beq_self_eq_true c) (beqs_refl ih)) (beq_self_eq_true s)

theorem eq_of_beq (t u : Term) : t.beq u = Bool.true → t = u := by
  refine beq.induct (fun t u => t.beq u = Bool.true → t = u) (fun as bs => beqs as bs = Bool.true → as = bs)
    ?_ ?_ ?_ ?_ ?_ ?_ ?_ ?_ ?_ ?_ ?_ ?_ ?_ ?_ ?_ ?_ ?_ ?_ ?_ ?_ ?_ ?_ ?_ ?_ ?_ ?_ ?_ ?_ t u
  all_goals
    intros
    simp_all [beq, beqs]

theorem beq_iff (t u : Term) : t.beq u = Bool.true ↔ t = u := by
  constructor
  · exact eq_of_beq t u
  · rintro rfl
    exact beq_refl t

instance : DecidableEq Term := fun t u => decidable_of_iff _ (beq_iff t u)

end Term

end Nixie.Ast
