import Mathlib.Data.Nat.Nth
import Nixie.Ast.Term

/-!
The term manager as a store, `nixie-core/src/ast/manager/mod.rs`: an identifier is the place of a
term in the arena, the table holds the identifiers that interning finds again, and a collection
forgets entries of the table alone.  The newest term is first.
-/

namespace Nixie.Tseitin

open Nixie.Ast (SortId)

inductive Kind
  | true
  | false
  | var (name : String)
  | not (arg : ℕ)
  | and (args : List ℕ)
  | or (args : List ℕ)
  | implies (lhs rhs : ℕ)
  | xor (lhs rhs : ℕ)
  | eq (lhs rhs : ℕ)
  | ite (cond thenBranch elseBranch : ℕ)
  | other (symbol : String) (args : List ℕ)
  deriving DecidableEq

def Kind.children : Kind → List ℕ
  | .not arg => [arg]
  | .and args | .or args | .other _ args => args
  | .implies lhs rhs | .xor lhs rhs | .eq lhs rhs => [lhs, rhs]
  | .ite cond thenBranch elseBranch => [cond, thenBranch, elseBranch]
  | _ => []

def Kind.isFormula : Kind → Bool
  | .true | .false | .not _ | .and _ | .or _ | .implies _ _ | .xor _ _ | .eq _ _ => Bool.true
  | _ => Bool.false

structure Node where
  kind : Kind
  sort : SortId
  deriving DecidableEq

def get : List Node → ℕ → Option Node
  | [], _ => none
  | node :: rest, i => if i = rest.length then some node else get rest i

structure Arena where
  terms : List Node
  table : List ℕ

def trueId : ℕ := 0

def falseId : ℕ := 1

namespace Arena

def new : Arena := ⟨[⟨.false, .bool⟩, ⟨.true, .bool⟩], [falseId, trueId]⟩

def findInterned (A : Arena) (node : Node) : Option ℕ :=
  A.table.find? fun id => get A.terms id = some node

def intern (A : Arena) (kind : Kind) (sort : SortId) : ℕ × Arena :=
  match A.findInterned ⟨kind, sort⟩ with
  | some id => (id, A)
  | none => (A.terms.length, ⟨⟨kind, sort⟩ :: A.terms, A.terms.length :: A.table⟩)

def marked : List Node → ℕ → List ℕ
  | [], _ => []
  | node :: rest, i =>
    if i = rest.length then i :: node.kind.children.flatMap (marked rest) else marked rest i

def gc (A : Arena) (roots : List ℕ) : Arena :=
  let reachable := (falseId :: trueId :: roots).flatMap (marked A.terms)
  { A with table := A.table.filter (· ∈ reachable) }

inductive Reached : Arena → Prop
  | new : Reached new
  | intern {A} (kind : Kind) (sort : SortId) (h : ∀ a ∈ kind.children, a < A.terms.length)
      (hsort : kind.isFormula = true → sort = .bool) :
      Reached A → Reached (A.intern kind sort).2
  | gc {A} (roots : List ℕ) : Reached A → Reached (A.gc roots)

end Arena

namespace Arena

def mkVar (A : Arena) (name : String) (sort : SortId) : ℕ × Arena := A.intern (.var name) sort

def mkNot (A : Arena) (arg : ℕ) : ℕ × Arena :=
  match (get A.terms arg).map Node.kind with
  | some (.not inner) => (inner, A)
  | some .true => (falseId, A)
  | some .false => (trueId, A)
  | _ => A.intern (.not arg) .bool

def flatArgs (terms : List Node) (conjunction : Bool) : List ℕ → Option (List ℕ)
  | [] => some []
  | arg :: args =>
    match (get terms arg).map Node.kind, conjunction with
    | some .false, true | some .true, false => none
    | some .true, true | some .false, false => flatArgs terms conjunction args
    | some (.and inner), true | some (.or inner), false =>
      (flatArgs terms conjunction args).map (inner ++ ·)
    | _, _ => (flatArgs terms conjunction args).map (arg :: ·)

def mkConnective (A : Arena) (conjunction : Bool) (args : List ℕ) : ℕ × Arena :=
  match flatArgs A.terms conjunction args with
  | none => (if conjunction then falseId else trueId, A)
  | some [] => (if conjunction then trueId else falseId, A)
  | some [arg] => (arg, A)
  | some flat => A.intern (if conjunction then .and flat else .or flat) .bool

def mkAnd (A : Arena) (args : List ℕ) : ℕ × Arena := A.mkConnective true args

def mkOr (A : Arena) (args : List ℕ) : ℕ × Arena := A.mkConnective false args

end Arena

inductive Connective
  | not (arg : ℕ)
  | and (args : List ℕ)
  | or (args : List ℕ)
  | implies (lhs rhs : ℕ)
  | xor (lhs rhs : ℕ)
  | iff (lhs rhs : ℕ)
  | ite (cond thenBranch elseBranch : ℕ)

def Connective.operands : Connective → List ℕ
  | .not arg => [arg]
  | .and args | .or args => args
  | .implies lhs rhs | .xor lhs rhs | .iff lhs rhs => [lhs, rhs]
  | .ite cond thenBranch elseBranch => [cond, thenBranch, elseBranch]

def Connective.isNot : Connective → Bool
  | .not _ => true
  | _ => false

def isBool (terms : List Node) (id : ℕ) : Bool :=
  match get terms id with
  | some node => node.sort = .bool
  | none => false

def Node.connective (terms : List Node) (node : Node) : Option Connective :=
  if node.sort ≠ .bool then none
  else
    match node.kind with
    | .not arg => some (.not arg)
    | .and args => some (.and args)
    | .or args => some (.or args)
    | .implies lhs rhs => some (.implies lhs rhs)
    | .xor lhs rhs => some (.xor lhs rhs)
    | .eq lhs rhs => if isBool terms lhs && isBool terms rhs then some (.iff lhs rhs) else none
    | .ite cond thenBranch elseBranch =>
      if isBool terms cond && isBool terms thenBranch && isBool terms elseBranch then
        some (.ite cond thenBranch elseBranch)
      else none
    | _ => none

def classify (terms : List Node) (id : ℕ) : Option Connective :=
  (get terms id).bind fun node => node.connective terms

def tseitinName (k : ℕ) : String := "tseitin!" ++ toString k

def tseitinVar (k : ℕ) : Node := ⟨.var (tseitinName k), .bool⟩

theorem tseitinName_injective : Function.Injective tseitinName := by
  intro j k h
  have hdigits : Nat.toDigits 10 j = Nat.toDigits 10 k := by
    have hlist := congrArg String.toList h
    simpa [tseitinName, String.toList_append, toString, Nat.repr] using hlist
  rw [← Nat.ofDigitChars_ten_toDigits (n := j), hdigits, Nat.ofDigitChars_ten_toDigits]

def Arena.Free (A : Arena) (k : ℕ) : Prop := A.findInterned (tseitinVar k) = none

instance (A : Arena) : DecidablePred A.Free := fun _ => inferInstanceAs (Decidable (_ = none))

theorem findInterned_some {A : Arena} {node : Node} {id : ℕ} (h : A.findInterned node = some id) :
    id ∈ A.table ∧ get A.terms id = some node := by
  unfold Arena.findInterned at h
  exact ⟨List.mem_of_find?_eq_some h, by simpa using List.find?_some h⟩

theorem Arena.exists_free (A : Arena) (counter : ℕ) : ∃ k, counter ≤ k ∧ A.Free k := by
  by_contra hnone
  push Not at hnone
  have hsome : ∀ k, ∃ id, A.findInterned (tseitinVar (counter + k)) = some id := fun k =>
    Option.ne_none_iff_exists'.mp (hnone (counter + k) (Nat.le_add_right _ _))
  choose id hid using hsome
  have hinj : Function.Injective id := by
    intro j k hjk
    have hnode := (findInterned_some (hid j)).2
    rw [hjk, (findInterned_some (hid k)).2] at hnode
    simp only [tseitinVar, Option.some.injEq, Node.mk.injEq, Kind.var.injEq, and_true] at hnode
    exact (Nat.add_left_cancel (tseitinName_injective hnode)).symm
  exact Set.infinite_of_injective_forall_mem hinj (fun k => (findInterned_some (hid k)).1) (List.finite_toSet A.table)

structure Encoder where
  arena : Arena
  reps : ℕ → Option ℕ
  clauses : List ℕ
  counter : ℕ

namespace Encoder

def repOf (e : Encoder) (id : ℕ) : ℕ := (e.reps id).getD id

def setRep (e : Encoder) (id rep : ℕ) : Encoder := { e with reps := Function.update e.reps id (some rep) }

def mkNot (e : Encoder) (arg : ℕ) : ℕ × Encoder :=
  let (r, arena) := e.arena.mkNot arg
  (r, { e with arena := arena })

def freshVar (e : Encoder) : ℕ × Encoder :=
  let k := Nat.find (e.arena.exists_free e.counter)
  let (name, arena) := e.arena.mkVar (tseitinName k) .bool
  (name, { e with arena := arena, counter := k + 1 })

def addClause (e : Encoder) (literals : List ℕ) : Encoder :=
  let (clause, arena) := e.arena.mkOr literals
  { e with
    arena := arena
    clauses := if clause ≠ trueId then e.clauses ++ [clause] else e.clauses }

def addPairs (e : Encoder) (literal : ℕ) (others : List ℕ) : Encoder :=
  others.foldl (fun e other => e.addClause [literal, other]) e

def addNegatedPairs (e : Encoder) (literal : ℕ) (others : List ℕ) : Encoder :=
  others.foldl (fun e other => let (notOther, e) := e.mkNot other; e.addClause [literal, notOther]) e

def mkNots (e : Encoder) : List ℕ → List ℕ × Encoder
  | [] => ([], e)
  | arg :: args =>
    let (notArg, e) := e.mkNot arg
    let (notArgs, e) := e.mkNots args
    (notArg :: notArgs, e)

def define (e : Encoder) (name : ℕ) : Connective → Encoder
  | .not _ => e
  | .and args =>
    let literals := args.map e.repOf
    let (notName, e) := e.mkNot name
    let e := e.addPairs notName literals
    let (notLiterals, e) := e.mkNots literals
    e.addClause (name :: notLiterals)
  | .or args =>
    let literals := args.map e.repOf
    let e := e.addNegatedPairs name literals
    let (notName, e) := e.mkNot name
    e.addClause (notName :: literals)
  | .implies lhs rhs =>
    let (lhs, rhs) := (e.repOf lhs, e.repOf rhs)
    let (notName, e) := e.mkNot name
    let (notLhs, e) := e.mkNot lhs
    let (notRhs, e) := e.mkNot rhs
    let e := e.addClause [notName, notLhs, rhs]
    let e := e.addClause [name, lhs]
    e.addClause [name, notRhs]
  | .xor lhs rhs =>
    let (lhs, rhs) := (e.repOf lhs, e.repOf rhs)
    let (notName, e) := e.mkNot name
    let (notLhs, e) := e.mkNot lhs
    let (notRhs, e) := e.mkNot rhs
    let e := e.addClause [notName, lhs, rhs]
    let e := e.addClause [notName, notLhs, notRhs]
    let e := e.addClause [name, notLhs, rhs]
    e.addClause [name, lhs, notRhs]
  | .iff lhs rhs =>
    let (lhs, rhs) := (e.repOf lhs, e.repOf rhs)
    let (notName, e) := e.mkNot name
    let (notLhs, e) := e.mkNot lhs
    let (notRhs, e) := e.mkNot rhs
    let e := e.addClause [notName, notLhs, rhs]
    let e := e.addClause [notName, lhs, notRhs]
    let e := e.addClause [name, lhs, rhs]
    e.addClause [name, notLhs, notRhs]
  | .ite cond thenBranch elseBranch =>
    let (cond, thenBranch, elseBranch) := (e.repOf cond, e.repOf thenBranch, e.repOf elseBranch)
    let (notName, e) := e.mkNot name
    let (notCond, e) := e.mkNot cond
    let (notThen, e) := e.mkNot thenBranch
    let (notElse, e) := e.mkNot elseBranch
    let e := e.addClause [notName, notCond, thenBranch]
    let e := e.addClause [notName, cond, elseBranch]
    let e := e.addClause [name, notCond, notThen]
    e.addClause [name, cond, notElse]

def combine (e : Encoder) (id : ℕ) : Encoder :=
  match classify e.arena.terms id with
  | none => e.setRep id id
  | some (.not arg) =>
    let (negated, e) := e.mkNot (e.repOf arg)
    e.setRep id negated
  | some connective =>
    let (name, e) := e.freshVar
    (e.define name connective).setRep id name

end Encoder

inductive TseitinStep
  | expand (id : ℕ)
  | combine (id : ℕ)

def TseitinStep.id : TseitinStep → ℕ
  | .expand id | .combine id => id

def Encoder.expandOperands (e : Encoder) (operands : List ℕ) : List TseitinStep :=
  (operands.filter fun operand => (e.reps operand).isNone).map .expand

def Encoder.runStep (e : Encoder) (work : List TseitinStep) : TseitinStep → List TseitinStep × Encoder
  | .expand id =>
    if (e.reps id).isSome then (work, e)
    else
      match classify e.arena.terms id with
      | none => (work, e.setRep id id)
      | some connective =>
        (e.expandOperands connective.operands ++ .combine id :: work, e)
  | .combine id => (work, e.combine id)

def Encoder.run : ℕ → List TseitinStep → Encoder → Encoder
  | _, [], e => e
  | 0, _ :: _, e => e
  | fuel + 1, step :: work, e =>
    let (work, e) := e.runStep work step
    Encoder.run fuel work e

def treeSize : List Node → ℕ → ℕ
  | [], _ => 1
  | node :: rest, i =>
    if i = rest.length then (node.kind.children.map (treeSize rest)).sum + 1 else treeSize rest i

def Arena.toCnfTseitin (A : Arena) (root : ℕ) : ℕ × Arena :=
  let e := Encoder.run (2 * treeSize A.terms root) [.expand root] ⟨A, fun _ => none, [], 0⟩
  e.arena.mkAnd (e.repOf root :: e.clauses)

end Nixie.Tseitin
