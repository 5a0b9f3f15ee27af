import Nixie.Ast.Term

/-!
Negation normal form, `nixie-core/src/ast/normal_forms/nnf.rs`: the conversion with its explicit stack and its cache for
each polarity, and the recogniser.  A term is its Boolean skeleton; the terms that neither of them looks into are atoms.
-/

namespace Nixie.NormalForms

open List

open Nixie.Ast (SortId)

inductive Formula (A T : Type)
  | const (value : Bool)
  | var (name : String) (sort : SortId)
  | atom (a : A)
  | not (arg : Formula A T)
  | connective (conjunction : Bool) (args : List (Formula A T))
  | implies (lhs rhs : Formula A T)
  | xor (lhs rhs : Formula A T)
  | quantifier (universal : Bool) (vars : List (String × SortId)) (patterns : List (List T)) (body : Formula A T)

namespace Formula

variable {A T : Type}

def children : Formula A T → List (Formula A T)
  | .not a => [a]
  | .connective _ args => args
  | .implies a b | .xor a b => [a, b]
  | .quantifier _ _ _ body => [body]
  | _ => []

theorem sizeOf_child {t a : Formula A T} (h : a ∈ t.children) : sizeOf a < sizeOf t := by
  cases t <;> simp only [children, not_mem_nil, mem_cons, or_false] at h
  case connective c args =>
    have := sizeOf_lt_of_mem h
    simp only [connective.sizeOf_spec]
    omega
  all_goals
    rcases h with rfl | rfl <;>
    simp <;> omega

theorem induct {P : Formula A T → Prop} (h : ∀ t, (∀ a ∈ t.children, P a) → P t) (t : Formula A T) : P t :=
  h t fun a _ => induct h a
termination_by sizeOf t
decreasing_by exact sizeOf_child (by assumption)

section

variable [DecidableEq A] [DecidableEq T]

mutual

def beq : Formula A T → Formula A T → Bool
  | .const b, .const b' => b == b'
  | .var x s, .var x' s' => x == x' && s == s'
  | .atom a, .atom a' => decide (a = a')
  | .not a, .not a' => a.beq a'
  | .connective c as, .connective c' as' => c == c' && beqs as as'
  | .implies a b, .implies a' b' => a.beq a' && b.beq b'
  | .xor a b, .xor a' b' => a.beq a' && b.beq b'
  | .quantifier u xs ps b, .quantifier u' xs' ps' b' => u == u' && decide (xs = xs') && decide (ps = ps') && b.beq b'
  | _, _ => false

def beqs : List (Formula A T) → List (Formula A T) → Bool
  | [], [] => true
  | a :: as, b :: bs => a.beq b && beqs as bs
  | _, _ => false

end

theorem beqs_iff {as : List (Formula A T)} (h : ∀ a ∈ as, ∀ b, a.beq b = true ↔ a = b) (bs : List (Formula A T)) :
    beqs as bs = true ↔ as = bs := by
  induction as generalizing bs with
  | nil => cases bs <;> simp [beqs]
  | cons a as ih =>
    cases bs with
    | nil => simp [beqs]
    | cons b bs =>
      simp only [beqs, Bool.and_eq_true, h a (by simp), ih fun a ha => h a (mem_cons_of_mem _ ha), List.cons.injEq]

theorem beq_iff (t u : Formula A T) : t.beq u = true ↔ t = u := by
  induction t using induct generalizing u with
  | h t ih =>
    cases t <;> cases u <;>
      simp only [beq, Bool.and_eq_true, beq_iff_eq, decide_eq_true_eq, reduceCtorEq, Bool.false_eq_true]
    all_goals
      simp only [children, mem_cons, not_mem_nil, or_false, forall_eq_or_imp, forall_eq] at ih
      first
      | simp [ih, and_assoc]; done
      | simp [beqs_iff ih]

instance : DecidableEq (Formula A T) := fun t u => decidable_of_iff _ (beq_iff t u)

end

def mkNot : Formula A T → Formula A T
  | .not inner => inner
  | .const b => .const !b
  | arg => .not arg

def flatArgs (conjunction : Bool) : List (Formula A T) → Option (List (Formula A T))
  | [] => some []
  | .const b :: args => if b = conjunction then flatArgs conjunction args else none
  | .connective c inner :: args =>
    if c = conjunction then (flatArgs conjunction args).map (inner ++ ·)
    else (flatArgs conjunction args).map (.connective c inner :: ·)
  | arg :: args => (flatArgs conjunction args).map (arg :: ·)

def mkConnective (conjunction : Bool) (args : List (Formula A T)) : Formula A T :=
  match flatArgs conjunction args with
  | none => .const !conjunction
  | some [] => .const conjunction
  | some [arg] => arg
  | some flat => .connective conjunction flat

def mkQuantifier (universal : Bool) (vars : List (String × SortId)) (patterns : List (List T)) (body : Formula A T) :
    Formula A T :=
  if vars = [] then body else .quantifier universal vars patterns body

section

variable {V : Type}

/-- The values of the sorts, the truth of a Boolean variable's value, and the atoms, whatever they look at. -/
structure Interp (A V : Type) where
  domain : SortId → Set V
  truth : V → Prop
  atom : A → (String × SortId → V) → Prop

def Interp.Rebinds (I : Interp A V) (vars : List (String × SortId)) (v v' : String × SortId → V) : Prop :=
  (∀ x ∉ vars, v' x = v x) ∧ ∀ x ∈ vars, v' x ∈ I.domain x.2

mutual

def Holds (I : Interp A V) : Formula A T → (String × SortId → V) → Prop
  | .const b, _ => b = true
  | .var x s, v => I.truth (v (x, s))
  | .atom a, v => I.atom a v
  | .not a, v => ¬ a.Holds I v
  | .connective conjunction args, v => HoldsArgs I conjunction args v
  | .implies a b, v => a.Holds I v → b.Holds I v
  | .xor a b, v => ¬ (a.Holds I v ↔ b.Holds I v)
  | .quantifier true vars _ body, v => ∀ v', I.Rebinds vars v v' → body.Holds I v'
  | .quantifier false vars _ body, v => ∃ v', I.Rebinds vars v v' ∧ body.Holds I v'

def HoldsArgs (I : Interp A V) (conjunction : Bool) : List (Formula A T) → (String × SortId → V) → Prop
  | [], _ => conjunction = true
  | a :: as, v => if conjunction then a.Holds I v ∧ HoldsArgs I conjunction as v else a.Holds I v ∨
      HoldsArgs I conjunction as v

end

end

end Formula

section

variable {A T : Type} [DecidableEq A] [DecidableEq T]

inductive NnfStep (A T : Type)
  | expand (t : Formula A T) (negate : Bool)
  | alias (t : Formula A T) (negate : Bool) (source : Formula A T) (sourceNegate : Bool)
  | combineAndOr (t : Formula A T) (negate isAnd : Bool) (children : List (Formula A T))
  | combineImplies (t : Formula A T) (negate : Bool) (lhs rhs : Formula A T)
  | combineXorBuilt (t : Formula A T) (negate : Bool) (lhs rhs : Formula A T)
  | combineXorFinal (t : Formula A T) (negate : Bool) (built : Formula A T)
  | combineQuantifier (t : Formula A T) (negate isForall : Bool) (vars : List (String × SortId))
      (patterns : List (List T)) (body : Formula A T)

abbrev Cache (A T : Type) : Type := Formula A T → Bool → Option (Formula A T)

def Cache.insert (cache : Cache A T) (t : Formula A T) (negate : Bool) (result : Formula A T) : Cache A T :=
  fun t' negate' => if t' = t ∧ negate' = negate then some result else cache t' negate'

def Cache.find (cache : Cache A T) (t : Formula A T) (negate : Bool) (default : Formula A T) : Formula A T :=
  (cache t negate).getD default

def Cache.missing (cache : Cache A T) (t : Formula A T) (negate : Bool) : List (NnfStep A T) :=
  if (cache t negate).isSome then [] else [.expand t negate]

open Formula in
def runNnfStep (cache : Cache A T) : NnfStep A T → Cache A T × List (NnfStep A T)
  | .expand t negate =>
    if (cache t negate).isSome then (cache, [])
    else
      match t with
      | .const b => (cache.insert t negate (.const (b ^^ negate)), [])
      | .not arg => (cache, cache.missing arg (!negate) ++ [.alias t negate arg (!negate)])
      | .connective isAnd args =>
        (cache, args.flatMap (fun a => cache.missing a negate) ++ [.combineAndOr t negate isAnd args])
      | .implies lhs rhs =>
        (cache, cache.missing lhs (!negate) ++ cache.missing rhs negate ++ [.combineImplies t negate lhs rhs])
      | .xor lhs rhs =>
        (cache, cache.missing rhs true ++ cache.missing lhs true ++ cache.missing rhs false ++
          cache.missing lhs false ++
          [.combineXorBuilt t negate lhs rhs])
      | .quantifier isForall vars patterns body =>
        (cache, cache.missing body negate ++ [.combineQuantifier t negate isForall vars patterns body])
      | t => (cache.insert t negate (if negate then mkNot t else t), [])
  | .alias t negate source sourceNegate => (cache.insert t negate (cache.find source sourceNegate t), [])
  | .combineAndOr t negate isAnd children =>
    (cache.insert t negate (mkConnective (isAnd ^^ negate) (children.map fun c => cache.find c negate c)), [])
  | .combineImplies t negate lhs rhs =>
    (cache.insert t negate (mkConnective negate [cache.find lhs (!negate) lhs, cache.find rhs negate rhs]), [])
  | .combineXorBuilt t negate lhs rhs =>
    let clause1 := mkConnective false [cache.find lhs false lhs, cache.find rhs false rhs]
    let clause2 := mkConnective false [cache.find lhs true lhs, cache.find rhs true rhs]
    let built := mkConnective true [clause1, clause2]
    if negate then (cache, cache.missing built true ++ [.combineXorFinal t negate built])
    else (cache.insert t negate built, [])
  | .combineXorFinal t negate built => (cache.insert t negate (cache.find built true built), [])
  | .combineQuantifier t negate isForall vars patterns body =>
    (cache.insert t negate (mkQuantifier (isForall ^^ negate) vars patterns (cache.find body negate body)), [])

def runSteps : ℕ → Cache A T → List (NnfStep A T) → Option (Cache A T)
  | _, cache, [] => some cache
  | 0, _, _ :: _ => none
  | fuel + 1, cache, step :: work =>
    let (cache, pushed) := runNnfStep cache step
    runSteps fuel cache (pushed ++ work)

def toNnf (fuel : ℕ) (t : Formula A T) : Option (Formula A T) :=
  (runSteps fuel (fun _ _ => none) [.expand t false]).map fun cache => cache.find t false t

end

section

variable {A T : Type}

def nnfChildren : Formula A T → Option (List (Formula A T))
  | .not (.var _ _) => some []
  | .not _ => none
  | .implies _ _ | .xor _ _ => none
  | .connective _ args => some args.reverse
  | .quantifier _ _ _ body => some [body]
  | _ => some []

theorem sum_nnfChildren {t : Formula A T} {cs : List (Formula A T)} (h : nnfChildren t = some cs) :
    (cs.map sizeOf).sum < sizeOf t := by
  have hsum : ∀ args : List (Formula A T), (args.map sizeOf).sum ≤ sizeOf args := by
    intro args
    induction args with
    | nil => simp
    | cons a args ih =>
      rw [map_cons, sum_cons, List.cons.sizeOf_spec]
      omega
  have hpos : ∀ u : Formula A T, 0 < sizeOf u := fun u => by cases u <;> simp <;> omega
  cases t with
  | const b =>
    cases h
    exact hpos _
  | var x s =>
    cases h
    exact hpos _
  | atom a =>
    cases h
    exact hpos _
  | not a =>
    cases a <;> cases h
    exact hpos _
  | connective c args =>
    cases h
    rw [map_reverse, sum_reverse, Formula.connective.sizeOf_spec]
    have := hsum args
    omega
  | implies a b => cases h
  | xor a b => cases h
  | quantifier u xs ps body =>
    cases h
    simp only [map_cons, map_nil, sum_cons, sum_nil, Formula.quantifier.sizeOf_spec]
    omega

variable [DecidableEq A] [DecidableEq T]

def isNnfLoop (visited : List (Formula A T)) : List (Formula A T) → Bool
  | [] => true
  | t :: stack =>
    if t ∈ visited then isNnfLoop visited stack
    else
      match h : nnfChildren t with
      | none => false
      | some cs => isNnfLoop (t :: visited) (cs ++ stack)
termination_by stack => (stack.map sizeOf).sum
decreasing_by
  · have : 0 < sizeOf t := by cases t <;> simp <;> omega
    simp only [map_cons, sum_cons]
    omega
  · have := sum_nnfChildren h
    simp only [map_append, sum_append, map_cons, sum_cons]
    omega

def isNnf (t : Formula A T) : Bool := isNnfLoop [] [t]

end

end Nixie.NormalForms
