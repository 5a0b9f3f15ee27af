import Nixie.Ast.Value

/-!
What the constructors denote.
-/

namespace Nixie.Ast

open Interp List Option Int

variable {m : Manager} {K D : Type*} [Field K] [LinearOrder K] [FloorRing K] [DecidableEq D]
  (I : Interp m K D)

section

@[simp]
theorem truth_mkBool (b : Bool) : I.truth (mkBool b) = b := by
  cases b <;> rfl

@[simp]
theorem eval_mkBool (b : Bool) : I.eval (mkBool b) = .bool b := by
  cases b <;> rfl

@[simp]
theorem truth_true : I.truth .true = true := rfl

@[simp]
theorem truth_false : I.truth .false = false := rfl

@[simp]
theorem truth_not (a : Term) : I.truth (.not a) = !I.truth a := rfl

@[simp]
theorem truth_mkNot (a : Term) : I.truth (mkNot a) = !I.truth a := by
  unfold mkNot
  split <;> simp

attribute [local simp] eval

def Interp.agrees (conjunction : Bool) (t : Term) : Bool := I.truth t == conjunction

theorem eval_connective (conjunction : Bool) (args : List Term) :
    I.eval (connective conjunction args) = .bool (args.all (I.agrees conjunction) == conjunction) := by
  cases conjunction with
  | true =>
    simp only [connective, if_true, eval, evals_eq_map, List.all_map, beq_true]
    congr 2
    funext t
    simp [agrees, truth]
  | false =>
    simp only [connective, eval, evals_eq_map, List.any_map, beq_false, Bool.false_eq_true, if_false]
    congr 1
    rw [List.not_all_eq_any_not]
    congr 1
    funext t
    simp [agrees, truth]

theorem agrees_connective (conjunction : Bool) (args : List Term) :
    I.agrees conjunction (connective conjunction args) = args.all (I.agrees conjunction) := by
  simp only [agrees, truth, eval_connective, Value.isTrue_bool]
  cases conjunction <;> simp

theorem connectiveArgs_some {conjunction : Bool} {arg : Term} {inner : List Term}
    (h : connectiveArgs conjunction arg = some inner) : arg = connective conjunction inner := by
  unfold connectiveArgs at h
  split at h
  · cases h
    rfl
  · cases h
    rfl
  · cases h

theorem all_agrees_eq (conjunction : Bool) (args : List Term) : args.all (I.agrees conjunction) =
    ((flatArgs conjunction args).map fun flat => flat.all (I.agrees conjunction)).getD false := by
  induction args with
  | nil => rfl
  | cons arg args ih =>
    unfold flatArgs
    rw [all_cons, ih]
    split_ifs with h1 h2
    · subst h1
      cases conjunction <;> simp [agrees]
    · subst h2
      simp [agrees]
    · cases hinner : connectiveArgs conjunction arg with
      | some inner =>
        rw [connectiveArgs_some hinner, agrees_connective]
        cases flatArgs conjunction args <;> simp
      | none => cases flatArgs conjunction args <;> simp

theorem truth_mkConnective (conjunction : Bool) (args : List Term) :
    I.truth (mkConnective conjunction args) = (args.all (I.agrees conjunction) == conjunction) := by
  rw [all_agrees_eq]
  unfold mkConnective
  cases flatArgs conjunction args with
  | none => cases conjunction <;> simp
  | some flat =>
    match flat with
    | [] => cases conjunction <;> simp
    | [arg] => cases conjunction <;> simp [agrees]
    | a :: b :: flat => simp only [truth, eval_connective, Value.isTrue_bool, map_some, getD_some]

@[simp]
theorem truth_mkAnd (args : List Term) : I.truth (mkAnd args) = args.all I.truth := by
  rw [mkAnd, truth_mkConnective, beq_true]
  congr 1
  funext t
  simp [agrees]

@[simp]
theorem truth_mkOr (args : List Term) : I.truth (mkOr args) = args.any I.truth := by
  rw [mkOr, truth_mkConnective, beq_false, not_all_eq_any_not]
  congr 1
  funext t
  simp [agrees]

@[simp]
theorem truth_mkImplies (a b : Term) : I.truth (mkImplies a b) = (!I.truth a || I.truth b) := by
  unfold mkImplies
  split_ifs with h1 h2 h3
  · simp [h1]
  · simp [h2]
  · simp [h3]
  · rfl

end

section

@[simp]
theorem num_mkInt (n : ℤ) : I.num (mkInt n) = n := rfl

@[simp]
theorem num_mkReal (r : Rational64) : I.num (mkReal r) = r.value := rfl

variable {t : Term}

theorem intConstOf_some {n : ℤ} (h : intConstOf t = some n) : t = .intConst n := by
  unfold intConstOf at h
  split at h <;> cases h
  rfl

variable {q : ℚ}

theorem realConstOf_some (h : realConstOf t = some q) : ∃ r : Rational64, t = .realConst r ∧ r.value = q := by
  unfold realConstOf at h
  split at h <;> cases h
  exact ⟨_, rfl, rfl⟩

theorem arithConstOf_some (h : arithConstOf t = some q) : I.num t = q := by
  unfold arithConstOf at h
  split at h <;> cases h
  · simp [num, eval]
  · rfl

theorem narrowRational_some {r : Rational64} (h : narrowRational q = some r) : r.value = q := by
  unfold narrowRational at h
  split_ifs at h
  cases h
  rfl

@[simp]
theorem intConstOf_intConst (n : ℤ) : intConstOf (.intConst n) = some n := rfl

@[simp]
theorem intConstOf_realConst (r : Rational64) : intConstOf (.realConst r) = none := rfl

@[simp]
theorem realConstOf_intConst (n : ℤ) : realConstOf (.intConst n) = none := rfl

@[simp]
theorem realConstOf_realConst (r : Rational64) : realConstOf (.realConst r) = some r.value := rfl

@[simp]
theorem num_intConst (n : ℤ) : I.num (.intConst n) = n := rfl

@[simp]
theorem num_realConst (r : Rational64) : I.num (.realConst r) = r.value := rfl

section

variable (args : List Term)

@[simp]
theorem num_add (s : SortId) : I.num (.add args s) = (args.map I.num).sum := by
  simp only [num, eval, evals_eq_map, List.map_map, Value.toNum_num]
  rfl

@[simp]
theorem num_mul (s : SortId) : I.num (.mul args s) = (args.map I.num).prod := by
  simp only [num, eval, evals_eq_map, List.map_map, Value.toNum_num]
  rfl

theorem sum_ints : (args.map I.num).sum =
    ((args.filterMap intConstOf).sum : ℤ) + ((args.filter fun a => (intConstOf a).isNone).map I.num).sum := by
  induction args with
  | nil => simp
  | cons a args ih =>
    cases h : intConstOf a with
    | none =>
      simp [h, ih]
      ring
    | some n =>
      rw [intConstOf_some h]
      simp [ih]
      ring

theorem sum_reals : ((args.filter fun a => (intConstOf a).isNone).map I.num).sum =
    ((args.filterMap realConstOf).sum : ℚ) + ((otherArgs args).map I.num).sum := by
  induction args with
  | nil => simp [otherArgs]
  | cons a args ih =>
    unfold otherArgs at ih ⊢
    cases h : realConstOf a with
    | none =>
      cases h' : intConstOf a with
      | none =>
        simp [h, h', ih]
        ring
      | some n => simp [h, h', ih]
    | some q =>
      obtain ⟨r, rfl, rfl⟩ := realConstOf_some h
      simp [filter_cons, ih]
      ring

theorem foldReals_some {reals : List ℚ} {total : ℚ} {r : Rational64}
    (h : foldReals reals total = some r) : r.value = total := by
  unfold foldReals at h
  split_ifs at h
  exact narrowRational_some h

theorem sum_keptArgs : (args.map I.num).sum =
    ((args.filterMap intConstOf).sum : ℤ) + ((keptArgs args
    (foldReals (args.filterMap realConstOf) (args.filterMap realConstOf).sum)).map I.num).sum := by
  rw [sum_ints]
  unfold keptArgs
  split
  · next r hr =>
    simp [sum_reals, foldReals_some hr]
    ring
  · rfl

@[simp]
theorem num_mkAdd : I.num (mkAdd args) = (args.map I.num).sum := by
  unfold mkAdd
  split
  · simp
  · simp
  · next first rest _ =>
    dsimp only
    set args := first :: rest
    rw [sum_keptArgs]
    generalize hkept : keptArgs args (foldReals _ _) = newArgs
    split_ifs with h1 h2 h3
    · rw [num_add, sum_keptArgs, hkept]
    · simp [isEmpty_iff.mp h2]
    · simp [add_comm]
    · rw [not_not] at h3
      rw [h3]
      split <;> simp

theorem prod_ints : (args.map I.num).prod =
    ((args.filterMap intConstOf).prod : ℤ) * ((args.filter fun a => (intConstOf a).isNone).map I.num).prod := by
  induction args with
  | nil => simp
  | cons a args ih =>
    cases h : intConstOf a with
    | none =>
      simp [h, ih]
      ring
    | some n =>
      rw [intConstOf_some h]
      simp [ih]
      ring

theorem prod_reals : ((args.filter fun a => (intConstOf a).isNone).map I.num).prod =
    ((args.filterMap realConstOf).prod : ℚ) * ((otherArgs args).map I.num).prod := by
  induction args with
  | nil => simp [otherArgs]
  | cons a args ih =>
    unfold otherArgs at ih ⊢
    cases h : realConstOf a with
    | none =>
      cases h' : intConstOf a with
      | none =>
        simp [h, h', ih]
        ring
      | some n => simp [h, h', ih]
    | some q =>
      obtain ⟨r, rfl, rfl⟩ := realConstOf_some h
      simp [filter_cons, ih]
      ring

theorem prod_keptArgs : (args.map I.num).prod =
    ((args.filterMap intConstOf).prod : ℤ) *
    ((keptArgs args (foldReals (args.filterMap realConstOf) (args.filterMap realConstOf).prod)).map I.num).prod := by
  rw [prod_ints]
  unfold keptArgs
  split
  · next r hr =>
    rw [prod_reals, map_append, prod_append]
    simp [foldReals_some hr, mul_comm]
  · rfl

end

theorem prod_eq_zero_of_numeral {args : List Term}
    (h : ((!(args.filterMap intConstOf).isEmpty && decide ((args.filterMap intConstOf).prod = 0)) ||
    (!(args.filterMap realConstOf).isEmpty && decide ((args.filterMap realConstOf).prod = 0))) = true) :
    (args.map I.num).prod = 0 := by
  simp only [Bool.or_eq_true, Bool.and_eq_true, decide_eq_true_eq] at h
  rcases h with ⟨-, h⟩ | ⟨-, h⟩
  · rw [prod_ints, h, cast_zero, zero_mul]
  · rw [prod_ints, prod_reals, h, Rat.cast_zero, zero_mul, mul_zero]

@[simp]
theorem num_mkMul (args : List Term) : I.num (mkMul args) = (args.map I.num).prod := by
  unfold mkMul
  split
  · simp
  · simp
  · next first rest _ =>
    dsimp only
    set args := first :: rest
    split_ifs with h1 h2 h3 h4 h5
    · rw [prod_eq_zero_of_numeral I h1]
      simp [Rational64.ofInt]
    · rw [prod_eq_zero_of_numeral I h1]
      simp
    all_goals
      rw [prod_keptArgs]
      generalize hkept : keptArgs args (foldReals _ _) = keep at *
    · rw [isEmpty_iff.mp h3]
      split <;> simp [Rational64.ofInt]
    · simp [isEmpty_iff.mp h4]
    · simp [mul_comm]
    · rw [not_not] at h5
      rw [h5]
      split <;> simp

@[simp]
theorem num_mkSub (a b : Term) : I.num (mkSub a b) = I.num a - I.num b := by
  unfold mkSub
  dsimp only
  split
  · next x y ha hb =>
    rw [intConstOf_some ha, intConstOf_some hb]
    simp
  · split
    · next x y hs ha hb =>
      split
      · next r hr =>
        obtain ⟨r1, rfl, rfl⟩ := realConstOf_some ha
        obtain ⟨r2, rfl, rfl⟩ := realConstOf_some hb
        simp [narrowRational_some hr]
      · rfl
    · rfl

@[simp]
theorem num_mkNeg (a : Term) : I.num (mkNeg a) = -I.num a := by
  unfold mkNeg
  split
  · next x ha =>
    rw [intConstOf_some ha]
    simp
  · split
    · next x hs ha =>
      split
      · next r hr =>
        obtain ⟨r1, rfl, rfl⟩ := realConstOf_some ha
        simp [narrowRational_some hr]
      · rfl
    · rfl

theorem realDiv_some {a b : Term} (h : Nixie.Ast.realDiv a b = some t) : I.num t = I.realDiv (I.num a) (I.num b) := by
  unfold Nixie.Ast.realDiv at h
  split at h
  · cases h
  · next q hb =>
    split_ifs at h with hq
    have hb := arithConstOf_some I hb
    have hne : (q : K) ≠ 0 := by exact_mod_cast hq
    rw [Interp.realDiv, hb, if_neg hne]
    split at h
    · next r hr =>
      obtain ⟨p, ha, hr⟩ := bind_eq_some_iff.mp hr
      cases h
      rw [arithConstOf_some I ha, num_mkReal, narrowRational_some hr, Rat.cast_div]
    · obtain ⟨recip, hr, rfl⟩ := map_eq_some_iff.mp h
      simp [narrowRational_some hr, div_eq_mul_inv]

variable [IsStrictOrderedRing K]

theorem euclid_intCast (a b : ℤ) : euclid (a : K) (b : K) = a / b := by
  unfold euclid
  split_ifs with h
  · have hpos : 0 < b := by exact_mod_cast h
    rw [floor_div_cast_of_nonneg hpos.le, floor_intCast]
  · have hneg : 0 ≤ -b := by
      have : b ≤ 0 := by exact_mod_cast not_lt.mp h
      omega
    have hceil : ⌈(a : K) / b⌉ = -⌊(a : K) / (-b : ℤ)⌋ := by
      rw [cast_neg, div_neg, floor_neg, neg_neg]
    rw [hceil, floor_div_cast_of_nonneg hneg, floor_intCast, ediv_neg, neg_neg]

omit [DecidableEq D] in
theorem intDiv_intCast (a b : ℤ) : I.intDiv (a : K) (b : K) = if b = 0 then I.divZero a else ((a / b : ℤ) : K) := by
  simp only [Interp.intDiv, cast_eq_zero]
  split_ifs with hb
  · rfl
  · rw [euclid_intCast]

omit [DecidableEq D] in
theorem intMod_intCast (a b : ℤ) : I.intMod (a : K) (b : K) = if b = 0 then I.modZero a else ((a % b : ℤ) : K) := by
  simp only [Interp.intMod, cast_eq_zero]
  split_ifs with hb
  · rfl
  · rw [euclid_intCast, emod_def]
    push_cast
    rfl

theorem intDiv_some {a b : Term} {x : ℤ} (ha : I.num a = x) (h : Nixie.Ast.intDiv a b = some t) :
    I.num t = I.intDiv (I.num a) (I.num b) := by
  unfold Nixie.Ast.intDiv at h
  split at h
  · cases h
  · next y hb =>
    rw [ha, intConstOf_some hb, num_intConst, intDiv_intCast]
    split at h
    · next x' ha' =>
      split_ifs at h with hy
      cases h
      obtain rfl : x' = x := by
        rw [intConstOf_some ha', num_intConst] at ha
        exact_mod_cast ha
      rw [if_neg hy, num_mkInt]
    · split_ifs at h with h1 h2
      · cases h
        simp [ha, h1]
      · cases h
        simp [ha, h2]

theorem num_mkDivAt {a b : Term} {forceReal : Bool}
    (h : divSort a b forceReal = .int → ∃ x : ℤ, I.num a = x) :
    I.num (mkDivAt a b forceReal) = if divSort a b forceReal = .int
      then I.intDiv (I.num a) (I.num b) else I.realDiv (I.num a) (I.num b) := by
  have hnode : I.num (.div a b (divSort a b forceReal)) = if divSort a b forceReal = .int
      then I.intDiv (I.num a) (I.num b) else I.realDiv (I.num a) (I.num b) := rfl
  unfold mkDivAt
  dsimp only
  cases hfold : foldDiv a b (divSort a b forceReal) with
  | none => exact hnode
  | some t =>
    rw [getD_some]
    unfold foldDiv at hfold
    split at hfold
    · next hs =>
      obtain ⟨x, hx⟩ := h hs
      rw [intDiv_some I hx hfold, if_pos hs]
    · next hs => rw [realDiv_some I hfold, if_neg (by simp [hs])]
    · cases hfold

theorem num_mkMod {a b : Term} (ha : b = mkInt 1 ∨ b = mkInt (-1) → ∃ x : ℤ, I.num a = x) :
    I.num (mkMod a b) = I.intMod (I.num a) (I.num b) := by
  unfold mkMod
  split
  · rfl
  · next y hb =>
    have hb' : I.num b = y := by rw [intConstOf_some hb, num_intConst]
    split
    · next x hx =>
      split_ifs with hy
      · rfl
      · rw [intConstOf_some hx, num_intConst, hb', intMod_intCast, if_neg hy, num_mkInt]
    · split_ifs with hy
      · have hne : y ≠ 0 := by omega
        have hunit : b = mkInt 1 ∨ b = mkInt (-1) := by
          rw [intConstOf_some hb]
          exact hy.imp (congrArg _) (congrArg _)
        obtain ⟨x, hx⟩ := ha hunit
        rw [hx, hb', intMod_intCast, if_neg hne, num_mkInt]
        rcases hy with rfl | rfl <;> simp
      · rfl

theorem numericCmpFold_some {a b : Term} {ord : Ordering} (h : numericCmpFold a b = some ord) :
    compare (I.num a) (I.num b) = ord := by
  unfold numericCmpFold at h
  split at h
  · next x y ha hb =>
    cases h
    rw [arithConstOf_some I ha, arithConstOf_some I hb, ← cmp_eq_compare, ← cmp_eq_compare]
    exact Rat.cast_strictMono.cmp_map_eq x y
  · cases h

@[simp]
theorem truth_mkCmp (op : CmpOp) (a b : Term) : I.truth (mkCmp op a b) = op.accepts (compare (I.num a) (I.num b)) := by
  unfold mkCmp
  split
  · next ord hord => rw [truth_mkBool, numericCmpFold_some I hord]
  · split_ifs with heq
    · subst heq
      simp
    · rfl

end

end Nixie.Ast
