import Nixie.Ast.Builder

/-!
The bottom-up simplifier, `nixie-core/src/ast/manager/query/simplify.rs`.  Maps are functions, and
what is true of all entries of a vector is asked of a list.
-/

namespace Nixie.Ast

open List

def isValue : Term → Bool
  | .true | .false | .intConst _ | .realConst _ | .bitVecConst _ _ | .stringLit _ => true
  | _ => false

section

variable (m : Manager)

def Manager.rwAreEqual (a b : Term) : Bool :=
  a = b || (isValue a && isValue b && m.mkEq a b = .true)

def Manager.rwAreDistinct (a b : Term) : Bool :=
  a ≠ b && isValue a && isValue b && m.mkEq a b = .false

/-- The arguments without duplicates, unless a literal meets its negation.  The list and the hash-set
version of the scan are one. -/
def absorb : List Term → List Term → List Term → Option (List Term)
  | _, _, [] => some []
  | pos, neg, .not x :: args =>
    if x ∈ neg then absorb pos neg args
    else if x ∈ pos then none
    else (absorb pos (x :: neg) args).map (.not x :: ·)
  | pos, neg, a :: args =>
    if a ∈ pos then absorb pos neg args
    else if a ∈ neg then none
    else (absorb (a :: pos) neg args).map (a :: ·)

def absorbLiterals (args : List Term) (conjunction : Bool) : Term :=
  match flatArgs conjunction args with
  | none => mkBool !conjunction
  | some flat =>
    if flat.length < 2 then mkConnective conjunction flat
    else
      match absorb [] [] flat with
      | none => mkBool !conjunction
      | some kept => mkConnective conjunction kept

inductive IteStep
  | done (t : Term)
  | again (c t e : Term)

def swapNegated (c t e : Term) : Term × Term × Term :=
  match c with
  | .not inner => (inner, e, t)
  | c => (c, t, e)

def pruneThen (c t : Term) : Term :=
  match t with
  | .ite c2 t1 _ _ => if c2 = c then t1 else t
  | t => t

def pruneElse (c e : Term) : Term :=
  match e with
  | .ite c2 _ ee _ => if c2 = c then ee else e
  | e => e

def mergeElse (c t e : Term) : Option (Term × Term × Term) :=
  match e with
  | .ite c2 et ee _ => if et = t then some (mkOr [c, c2], t, ee) else none
  | _ => none

def Manager.connectIte (c t e : Term) : Option Term :=
  if t.sort ≠ .bool then none
  else if t = .true ∧ e = .false then some c
  else if t = .false ∧ e = .true then some (mkNot c)
  else if t = .true then some (mkOr [c, e])
  else if t = .false then some (mkAnd [mkNot c, e])
  else if e = .true then some (mkOr [mkNot c, t])
  else if e = .false then some (mkAnd [c, t])
  else if c = e then some (mkAnd [c, t])
  else if c = t then some (mkOr [c, e])
  else if e = .not t then some (m.mkEq c t)
  else if t = .not e then some (m.mkEq c t)
  else none

def mergeThen (c t e : Term) : Option (Term × Term × Term) :=
  match t with
  | .ite c2 tt te _ =>
    if e = tt then some (mkAnd [c, mkNot c2], te, e)
    else if e = te then some (mkAnd [c, c2], tt, e)
    else
      match e with
      | .ite c3 et ee _ =>
        if tt = et ∧ te = ee then some (mkOr [mkAnd [c, c2], mkAnd [mkNot c, c3]], tt, te)
        else if tt = ee ∧ te = et then
          some (mkOr [mkAnd [c, c2], mkAnd [mkNot c, mkNot c3]], tt, te)
        else none
      | _ => none
  | _ => none

def mergeTail (c t e : Term) : Option (Term × Term × Term) :=
  match e with
  | .ite c2 et ee _ =>
    if t = et then some (mkOr [c, c2], t, ee)
    else if t = ee then some (mkOr [c, mkNot c2], t, et)
    else none
  | _ => none

def Manager.rewriteTail (c t e : Term) : IteStep :=
  if c = .true then .done t
  else if c = .false then .done e
  else if t = e then .done t
  else
    match m.connectIte c t e with
    | some r => .done r
    | none =>
      match mergeThen c t e with
      | some (c, t, e) => .again c t e
      | none =>
        match mergeTail c t e with
        | some (c, t, e) => .again c t e
        | none => .done (mkIte c t e)

def Manager.rewriteStep (c t e : Term) : IteStep :=
  let (c, t, e) := swapNegated c t e
  let t := pruneThen c t
  match mergeElse c t e with
  | some (c, t, e) => .again c t e
  | none => m.rewriteTail c t (pruneElse c e)

end

section

variable {c t e c' t' e' : Term}

theorem size_swapNegated (c t e : Term) :
    (swapNegated c t e).2.1.size + (swapNegated c t e).2.2.size = t.size + e.size := by
  unfold swapNegated
  split
  · exact Nat.add_comm _ _
  · rfl

theorem size_pruneThen (c t : Term) : (pruneThen c t).size ≤ t.size := by
  unfold pruneThen
  split
  · split_ifs
    · simp only [Term.size]
      omega
    · rfl
  · rfl

theorem size_pruneElse (c e : Term) : (pruneElse c e).size ≤ e.size := by
  unfold pruneElse
  split
  · split_ifs
    · simp only [Term.size]
      omega
    · rfl
  · rfl

theorem size_mergeElse (h : mergeElse c t e = some (c', t', e')) : t'.size + e'.size < t.size + e.size := by
  unfold mergeElse at h
  split at h
  · split_ifs at h
    cases h
    simp only [Term.size]
    omega
  · cases h

theorem size_mergeThen (h : mergeThen c t e = some (c', t', e')) : t'.size + e'.size < t.size + e.size := by
  unfold mergeThen at h
  split at h
  · split_ifs at h with h1 h2
    · cases h
      simp only [Term.size]
      omega
    · cases h
      simp only [Term.size]
      omega
    · split at h
      · split_ifs at h with h3 h4
        · cases h
          simp only [Term.size, h3.2]
          omega
        · cases h
          simp only [Term.size, h4.2]
          omega
      · cases h
  · cases h

theorem size_mergeTail (h : mergeTail c t e = some (c', t', e')) : t'.size + e'.size < t.size + e.size := by
  unfold mergeTail at h
  split at h
  · split_ifs at h <;> cases h <;> simp only [Term.size] <;> omega
  · cases h

theorem size_rewriteStep {m : Manager} (h : m.rewriteStep c t e = .again c' t' e') :
    t'.size + e'.size < t.size + e.size := by
  unfold Manager.rewriteStep at h
  dsimp only at h
  have hswap := size_swapNegated c t e
  generalize swapNegated c t e = next at h hswap
  obtain ⟨c1, t1, e1⟩ := next
  dsimp only at h hswap
  have hthen := size_pruneThen c1 t1
  have helse := size_pruneElse c1 e1
  split at h
  · next c2 t2 e2 hmerge =>
    cases h
    have := size_mergeElse hmerge
    omega
  · unfold Manager.rewriteTail at h
    split_ifs at h
    split at h
    · cases h
    · split at h
      · next c2 t2 e2 hmerge =>
        cases h
        have := size_mergeThen hmerge
        omega
      · split at h
        · next c2 t2 e2 hmerge =>
          cases h
          have := size_mergeTail hmerge
          omega
        · cases h

end

def Manager.rewriteIte (m : Manager) (c t e : Term) : Term :=
  match _ : m.rewriteStep c t e with
  | .done r => r
  | .again c t e => m.rewriteIte c t e
termination_by t.size + e.size
decreasing_by exact size_rewriteStep (by assumption)

abbrev EqCache : Type := Term × Term → Option (Option Term)

def Manager.keyOf (m : Manager) (x v : Term) : Term × Term := if m.id x ≤ m.id v then (x, v) else (v, x)

def EqCache.insert (cache : EqCache) (key : Term × Term) (out : Option Term) : EqCache :=
  Function.update cache key (some out)

def solveEqFuel : ℕ := 100000

inductive Frame
  | and (key : Term × Term) (guard : Term)
  | or (key : Term × Term) (guard : Term)
  | ite (key : Term × Term) (cond val elseSide : Term) (thenRes : Option Term)

inductive Focus
  | pending (x v : Term)
  | result (r : Term)

def Frame.weight : Frame → ℕ
  | .ite _ _ _ elseSide none => 3 * elseSide.size + 2
  | _ => 1

def Focus.weight : Focus → ℕ
  | .pending x _ => 3 * x.size
  | .result _ => 0

structure Solver where
  frames : List Frame
  focus : Focus
  fuel : ℕ
  cache : EqCache

def iteWithValueLeaves : Term → Bool
  | .ite _ a b _ => isValue a && isValue b
  | _ => false

def r7ScanBudget : ℕ := 8192

def Manager.leavesDistinct (m : Manager) (v : Term) (stack seen : List Term) (visited : ℕ) : Bool :=
  match stack with
  | [] => true
  | x :: stack =>
    if x ∈ seen then m.leavesDistinct v stack seen visited
    else if r7ScanBudget < visited + 1 then false
    else
      match x with
      | .ite _ t e _ => m.leavesDistinct v (e :: t :: stack) (x :: seen) (visited + 1)
      | x =>
        if isValue x then
          if m.mkEq x v ≠ .false then false else m.leavesDistinct v stack (x :: seen) (visited + 1)
        else false
termination_by Term.sizes stack
decreasing_by
  all_goals simp only [Term.sizes, Term.size]
  · exact Nat.lt_add_of_pos_left (Term.size_pos x)
  · have := Term.size_pos ‹Term›
    omega
  · exact Nat.lt_add_of_pos_left (Term.size_pos _)

def Manager.iteLeavesAllDistinct (m : Manager) (root v : Term) : Bool := m.leavesDistinct v [root] [] 0

inductive Rule
  | result (r : Term)
  | push (frame : Frame) (x : Term)

def Manager.solveRule (m : Manager) (key : Term × Term) (x c t e v : Term) : Rule :=
  if m.rwAreEqual t v && m.rwAreDistinct e v then .result c
  else if m.rwAreEqual e v && m.rwAreDistinct t v then .result (mkNot c)
  else if isValue e && m.rwAreDistinct e v then .push (.and key c) t
  else if isValue t && m.rwAreDistinct t v then .push (.and key (mkNot c)) e
  else if isValue t && m.rwAreEqual t v then
    if isValue e && m.rwAreEqual e v then .result .true else .push (.or key c) e
  else if isValue e && m.rwAreEqual e v then .push (.or key (mkNot c)) t
  else if iteWithValueLeaves t then .push (.ite key c v e none) t
  else if iteWithValueLeaves e then .push (.ite key c v e none) t
  else if m.iteLeavesAllDistinct x v then .result .false
  else .result (m.mkEq x v)

namespace Solver

def settle (s : Solver) (key : Term × Term) (r : Term) : Solver :=
  { s with
    focus := .result r
    cache := s.cache.insert key (some r) }

def stepPending (m : Manager) (s : Solver) (x v : Term) : Solver :=
  let key := m.keyOf x v
  match s.cache key with
  | some cached => { s with focus := .result (cached.getD (m.mkEq x v)) }
  | none =>
    if s.fuel = 0 then s.settle key (m.mkEq x v)
    else
      let s := { s with fuel := s.fuel - 1 }
      match x with
      | .ite c t e _ =>
        match m.solveRule key x c t e v with
        | .result r => s.settle key r
        | .push frame y => { s with frames := frame :: s.frames, focus := .pending y v }
      | x => s.settle key (m.mkEq x v)

def step (m : Manager) (s : Solver) : Option Solver :=
  match s.focus with
  | .pending x v => some (s.stepPending m x v)
  | .result r =>
    match s.frames with
    | [] => none
    | .and key guard :: frames =>
      some ({ s with frames := frames }.settle key (absorbLiterals [guard, r] true))
    | .or key guard :: frames =>
      some ({ s with frames := frames }.settle key (absorbLiterals [guard, r] false))
    | .ite key cond val elseSide none :: frames =>
      some
        { s with
          frames := .ite key cond val elseSide (some r) :: frames
          focus := .pending elseSide val }
    | .ite key cond _ _ (some thenRes) :: frames =>
      some ({ s with frames := frames }.settle key (m.rewriteIte cond thenRes r))

def weight (s : Solver) : ℕ := (s.frames.map Frame.weight).sum + s.focus.weight

@[simp]
theorem settle_weight (s : Solver) (key : Term × Term) (r : Term) :
    (s.settle key r).weight = (s.frames.map Frame.weight).sum := rfl

variable {m : Manager}

theorem solveRule_weight {key : Term × Term} {x c t e v y : Term} {frame : Frame}
    (h : m.solveRule key x c t e v = .push frame y) :
    frame.weight + 3 * y.size < 3 * (c.size + t.size + e.size + 1) := by
  have hc := Term.size_pos c
  unfold Manager.solveRule at h
  split_ifs at h <;> cases h <;> simp only [Frame.weight] <;> omega

theorem stepPending_weight {s : Solver} {x v : Term} (h : s.focus = .pending x v) :
    (s.stepPending m x v).weight < s.weight := by
  have hx := Term.size_pos x
  have hs : s.weight = (s.frames.map Frame.weight).sum + 3 * x.size := by rw [weight, h, Focus.weight]
  unfold stepPending
  dsimp only
  split
  · simp only [weight, Focus.weight] at hs ⊢
    omega
  · split_ifs
    · rw [settle_weight]
      omega
    · split
      · next c t e _ =>
        split
        · rw [settle_weight]
          dsimp only
          omega
        · next frame y hrule =>
          have := solveRule_weight hrule
          simp only [weight, Focus.weight, map_cons, sum_cons, Term.size] at hs ⊢
          omega
      · rw [settle_weight]
        dsimp only
        omega

theorem step_weight {s s' : Solver} (h : s.step m = some s') : s'.weight < s.weight := by
  unfold step at h
  split at h
  · next x v hfocus =>
    cases h
    exact stepPending_weight hfocus
  · next r hfocus =>
    have hs : s.weight = (s.frames.map Frame.weight).sum := by rw [weight, hfocus]; rfl
    split at h
    · cases h
    · next hframes =>
      cases h
      rw [hs, hframes, settle_weight, map_cons, sum_cons]
      exact Nat.lt_add_of_pos_left Nat.one_pos
    · next hframes =>
      cases h
      rw [hs, hframes, settle_weight, map_cons, sum_cons]
      exact Nat.lt_add_of_pos_left Nat.one_pos
    · next hframes =>
      cases h
      rw [hs, hframes]
      simp only [weight, Focus.weight, map_cons, sum_cons, Frame.weight]
      omega
    · next hframes =>
      cases h
      rw [hs, hframes, settle_weight, map_cons, sum_cons]
      exact Nat.lt_add_of_pos_left Nat.one_pos

def loop (m : Manager) (s : Solver) : Solver :=
  match _ : s.step m with
  | none => s
  | some s => s.loop m
termination_by s.weight
decreasing_by exact step_weight (by assumption)

end Solver

def Focus.get : Focus → Option Term
  | .pending _ _ => none
  | .result r => some r

section

variable (m : Manager)

def Manager.solveIteValue (cache : EqCache) (ite val : Term) : Option Term × EqCache :=
  let orig := m.mkEq ite val
  if orig = .true ∨ orig = .false then (some orig, cache)
  else
    let s := Solver.loop m ⟨[], .pending ite val, solveEqFuel, cache⟩
    ((s.focus.get).filter fun r => r ≠ orig, s.cache)

def Manager.tryIteEq (ite other : Term) : Option Term :=
  match ite with
  | .ite c t e _ =>
    if m.rwAreEqual t other && m.rwAreDistinct e other then some c
    else if m.rwAreEqual e other && m.rwAreDistinct t other then some (mkNot c)
    else none
  | _ => none

def Manager.solveIteIte (l r : Term) : Option Term :=
  match l, r with
  | .ite c1 t1 e1 _, .ite c2 t2 e2 _ =>
    if isValue t1 && isValue e1 && isValue t2 && isValue e2 then
      some (mkAnd
        [mkOr [c1, c2, m.mkEq e1 e2], mkOr [mkNot c1, mkNot c2, m.mkEq t1 t2],
          mkOr [mkNot c1, c2, m.mkEq t1 e2], mkOr [c1, mkNot c2, m.mkEq e1 t2]])
    else none
  | _, _ => none

def isIte : Term → Bool
  | .ite _ _ _ _ => true
  | _ => false

def Manager.eqIteRulesUncached (cache : EqCache) (lhs rhs : Term) : Option Term × EqCache :=
  match m.tryIteEq lhs rhs with
  | some out => (some out, cache)
  | none =>
    match m.tryIteEq rhs lhs with
    | some out => (some out, cache)
    | none =>
      if isIte lhs && isValue rhs then m.solveIteValue cache lhs rhs
      else if isValue lhs && isIte rhs then m.solveIteValue cache rhs lhs
      else (m.solveIteIte lhs rhs, cache)

def Manager.eqIteRules (cache : EqCache) (lhs rhs : Term) : Option Term × EqCache :=
  match cache (m.keyOf lhs rhs) with
  | some cached => (cached, cache)
  | none =>
    let (out, cache) := m.eqIteRulesUncached cache lhs rhs
    (out, cache.insert (m.keyOf lhs rhs) out)

def simplifyAdd (args : List Term) : Term :=
  let sum := (args.filterMap intConstOf).sum
  let others := args.filter fun a => (intConstOf a).isNone
  if others.isEmpty then .intConst sum
  else
    match if sum ≠ 0 then others ++ [.intConst sum] else others with
    | [a] => a
    | others => mkAdd others

def simplifyNeg : Term → Term
  | .intConst n => .intConst (-n)
  | .neg inner _ => inner
  | arg => .neg arg arg.sort

def simplifySub (lhs rhs : Term) : Term :=
  match intConstOf lhs, intConstOf rhs with
  | some a, some b => .intConst (a - b)
  | a, b => if b = some 0 then lhs else if a = some 0 then simplifyNeg rhs else mkSub lhs rhs

def simplifyMul (args : List Term) : Term :=
  let ints := args.filterMap intConstOf
  let others := args.filter fun a => (intConstOf a).isNone
  if 0 ∈ ints then mkInt 0
  else if others.isEmpty then .intConst ints.prod
  else
    match if ints.prod ≠ 1 then .intConst ints.prod :: others else others with
    | [a] => a
    | others => mkMul others

def cmpDecide (op : CmpOp) (a b : Term) : Option Bool :=
  match intConstOf a, intConstOf b with
  | some x, some y => some (op.accepts (compare x y))
  | _, _ => none

def cmpIteRule (op : CmpOp) (lhs rhs : Term) : Option Term :=
  match lhs with
  | .ite c t e _ =>
    if !isValue rhs then none
    else
      match cmpDecide op t rhs with
      | some true => some (mkOr [c, mkCmp op e rhs])
      | some false => some (mkAnd [mkNot c, mkCmp op e rhs])
      | none =>
        match cmpDecide op e rhs with
        | some true => some (mkOr [mkNot c, mkCmp op t rhs])
        | some false => some (mkAnd [c, mkCmp op t rhs])
        | none => none
  | _ => none

def simplifyCmp (op : CmpOp) (lhs rhs : Term) : Term :=
  if lhs = rhs then mkBool (op.accepts .eq)
  else
    match cmpDecide op lhs rhs with
    | some b => mkBool b
    | none => (cmpIteRule op lhs rhs).getD (mkCmp op lhs rhs)

def simplifiableChildren : Term → List Term
  | .not a | .neg a _ => [a]
  | .and args | .or args | .add args _ | .mul args _ => args
  | .implies a b | .eq a b | .sub a b _ | .cmp _ a b => [a, b]
  | .ite c t e _ => [c, t, e]
  | _ => []

def Manager.combineSimplified (sub : Term → Term) (eqs : EqCache) : Term → Term × EqCache
  | .not a => (mkNot (sub a), eqs)
  | .and args => (absorbLiterals (args.map sub) Bool.true, eqs)
  | .or args => (absorbLiterals (args.map sub) Bool.false, eqs)
  | .implies a b => (mkImplies (sub a) (sub b), eqs)
  | .eq a b =>
    let (solved, eqs) := m.eqIteRules eqs (sub a) (sub b)
    (solved.getD (m.mkEq (sub a) (sub b)), eqs)
  | .ite c t e _ => (m.rewriteIte (sub c) (sub t) (sub e), eqs)
  | .add args _ => (simplifyAdd (args.map sub), eqs)
  | .sub a b _ => (simplifySub (sub a) (sub b), eqs)
  | .mul args _ => (simplifyMul (args.map sub), eqs)
  | .neg a _ => (simplifyNeg (sub a), eqs)
  | .cmp op a b => (simplifyCmp op (sub a) (sub b), eqs)
  | t => (t, eqs)

end

theorem sizes_simplifiableChildren (t : Term) : Term.sizes (simplifiableChildren t) < t.size := by
  cases t <;> simp only [simplifiableChildren, Term.sizes, Term.size] <;> omega

def stackWeight : List (Term × Bool) → ℕ
  | [] => 0
  | (t, expanded) :: stack => (if expanded then 1 else 2 * t.size) + stackWeight stack

theorem stackWeight_append (cs : List Term) (stack : List (Term × Bool)) :
    stackWeight (cs.map (·, false) ++ stack) = 2 * Term.sizes cs + stackWeight stack := by
  induction cs with
  | nil => simp [Term.sizes]
  | cons c cs ih =>
    simp only [map_cons, cons_append, stackWeight, Bool.false_eq_true, if_false, ih, Term.sizes]
    omega

theorem sizes_filter_le (p : Term → Bool) (cs : List Term) : Term.sizes (cs.filter p) ≤ Term.sizes cs := by
  induction cs with
  | nil => rfl
  | cons c cs ih =>
    rw [filter_cons]
    split_ifs <;> simp only [Term.sizes] <;> omega

def Manager.simplifyLoop (m : Manager) (stack : List (Term × Bool)) (cache : Term → Option Term)
    (eqs : EqCache) : (Term → Option Term) × EqCache :=
  match stack with
  | [] => (cache, eqs)
  | (current, expanded) :: stack =>
    if (cache current).isSome then m.simplifyLoop stack cache eqs
    else if expanded then
      let (result, eqs) := m.combineSimplified (fun t => (cache t).getD t) eqs current
      m.simplifyLoop stack (Function.update cache current (some result)) eqs
    else
      let children := (simplifiableChildren current).filter fun c => (cache c).isNone
      m.simplifyLoop (children.map (·, false) ++ (current, true) :: stack) cache eqs
termination_by stackWeight stack
decreasing_by
  · have := Term.size_pos current
    simp only [stackWeight]
    split_ifs <;> omega
  · simp_all [stackWeight]
  · have hexpanded : ¬ expanded = true := by assumption
    have := sizes_simplifiableChildren current
    have := sizes_filter_le (fun c => (cache c).isNone) (simplifiableChildren current)
    rw [stackWeight_append, stackWeight, stackWeight, if_pos rfl, if_neg hexpanded]
    omega

def Manager.simplify (m : Manager) (eqs : EqCache) (t : Term) : Term × EqCache :=
  let (cache, eqs) := m.simplifyLoop [(t, false)] (fun _ => none) eqs
  ((cache t).getD t, eqs)

end Nixie.Ast
