import Mathlib.Data.List.Sublists
import Nixie.Propositional

/-!
What is handed to the SAT solver: variables and clauses, in the order of the calls.
-/

namespace Nixie.Sat

open Nixie.Literal

def posLit (var : ℕ) : ℕ := 2 * var

def isTrue (σ : ℕ → Bool) (lit : ℕ) : Bool := σ (lit / 2) == (lit % 2 == 0)

def Satisfies (σ : ℕ → Bool) (clauses : List (List ℕ)) : Prop :=
  ∀ c ∈ clauses, ∃ lit ∈ c, isTrue σ lit

structure Cnf where
  numVars : ℕ := 0
  clauses : List (List ℕ) := []
  deriving DecidableEq

namespace Cnf

def newVar (f : Cnf) : Cnf × ℕ := ({ f with numVars := f.numVars + 1 }, f.numVars)

def ensureVars (f : Cnf) (numVars : ℕ) : Cnf := { f with numVars := max f.numVars numVars }

def addClause (f : Cnf) (c : List ℕ) : Cnf := { f with clauses := f.clauses ++ [c] }

def addClauses (f : Cnf) (clauses : List (List ℕ)) : Cnf := clauses.foldl addClause f

theorem addClauses_eq (f : Cnf) (clauses : List (List ℕ)) :
    f.addClauses clauses = { f with clauses := f.clauses ++ clauses } := by
  induction clauses generalizing f with
  | nil => simp [addClauses]
  | cons c clauses ih =>
    have hstep : f.addClauses (c :: clauses) = (f.addClause c).addClauses clauses := rfl
    rw [hstep, ih, addClause]
    simp

end Cnf

section

variable {σ τ : ℕ → Bool} {lit n : ℕ} {clauses clauses' : List (List ℕ)}

@[simp]
theorem isTrue_neg : isTrue σ (neg lit) = !isTrue σ lit := by
  have hmod : (neg lit % 2 == 0) = !(lit % 2 == 0) := by
    rw [neg_eq]
    rcases Nat.mod_two_eq_zero_or_one lit with h | h
    · simp [h, Nat.add_mod]
    · rw [if_neg (by omega), h]
      simp
      omega
  simp only [isTrue, neg_div_two, hmod]
  cases σ (lit / 2) <;> cases (lit % 2 == 0) <;> rfl

@[simp]
theorem isTrue_posLit {var : ℕ} : isTrue σ (posLit var) = σ var := by
  simp [isTrue, posLit]

@[simp]
theorem posLit_div_two {var : ℕ} : posLit var / 2 = var := by
  simp [posLit]

theorem isTrue_congr (hagree : ∀ v < n, τ v = σ v) (hlit : lit / 2 < n) : isTrue τ lit = isTrue σ lit := by
  rw [isTrue, isTrue, hagree _ hlit]

theorem Satisfies.congr (hagree : ∀ v < n, τ v = σ v) (hlits : ∀ c ∈ clauses, ∀ lit ∈ c, lit / 2 < n)
    (h : Satisfies σ clauses) : Satisfies τ clauses := by
  intro c hc
  obtain ⟨lit, hlit, htrue⟩ := h c hc
  exact ⟨lit, hlit, (isTrue_congr hagree (hlits c hc lit hlit)).trans htrue⟩

theorem satisfies_append : Satisfies σ (clauses ++ clauses') ↔ Satisfies σ clauses ∧ Satisfies σ clauses' :=
  List.forall_mem_append

theorem satisfies_singleton {c : List ℕ} : Satisfies σ [c] ↔ ∃ lit ∈ c, isTrue σ lit := List.forall_mem_singleton

end

namespace CardinalityEncoder

def lastMovable (n k : ℕ) (indices : List ℕ) : Option ℕ :=
  (List.range k).reverse.find? fun i => indices.getD i 0 < n - k + i

def nextCombination (n k : ℕ) (indices : List ℕ) : Option (List ℕ) :=
  (lastMovable n k indices).map fun i =>
    indices.take i ++ (List.range (k - i)).map fun j => indices.getD i 0 + 1 + j

def combinationsFrom (n k : ℕ) : ℕ → List ℕ → List (List ℕ)
  | 0, _ => []
  | fuel + 1, indices =>
    indices :: (match nextCombination n k indices with
      | none => []
      | some next => combinationsFrom n k fuel next)

def generateCombinations (n k : ℕ) : List (List ℕ) :=
  if n < k then [] else combinationsFrom n k (2 ^ n) (List.range k)

def newVars : ℕ → Cnf → Cnf × List ℕ
  | 0, f => (f, [])
  | size + 1, f =>
    let fresh := f.newVar
    let rest := newVars size fresh.1
    (rest.1, posLit fresh.2 :: rest.2)

def mergeClause (left right output : List ℕ) (i j : ℕ) : List ℕ :=
  (if 0 < i then [neg (left.getD (i - 1) 0)] else []) ++
    (if 0 < j then [neg (right.getD (j - 1) 0)] else []) ++ [output.getD (i + j - 1) 0]

def mergeClauses (left right output : List ℕ) (size : ℕ) : List (List ℕ) :=
  (List.range (left.length + 1)).flatMap fun i =>
    (List.range (right.length + 1)).flatMap fun j =>
      if i + j = 0 ∨ size < i + j then [] else [mergeClause left right output i j]

def mergeCounts (bound : ℕ) (left right : List ℕ) (f : Cnf) : Cnf × List ℕ :=
  let size := min (left.length + right.length) (bound + 1)
  let output := newVars size f
  (output.1.addClauses (mergeClauses left right output.2 size), output.2)

def mergeLayer (bound : ℕ) : List (List ℕ) → Cnf → Cnf × List (List ℕ)
  | left :: right :: pairs, f =>
    let merged := mergeCounts bound left right f
    let next := mergeLayer bound pairs merged.1
    (next.1, merged.2 :: next.2)
  | layer, f => (f, layer)

def mergeLayers (bound : ℕ) : ℕ → List (List ℕ) → Cnf → Cnf × List (List ℕ)
  | 0, layer, f => (f, layer)
  | fuel + 1, layer, f =>
    if layer.length ≤ 1 then (f, layer)
    else
      let next := mergeLayer bound layer f
      mergeLayers bound fuel next.2 next.1

def buildTotalizerTree (f : Cnf) (lits : List ℕ) (bound : ℕ) : Cnf × List ℕ :=
  let tree := mergeLayers bound lits.length (lits.map fun lit => [lit]) f
  (tree.1, tree.2.getLast?.getD [])

def encodeAtMostKDirect (f : Cnf) (lits : List ℕ) (k : ℕ) : Cnf × Bool :=
  if lits.length ≤ k then (f, true)
  else
    (f.addClauses ((generateCombinations lits.length (k + 1)).map fun combo =>
      combo.map fun i => neg (lits.getD i 0)), true)

def encodeAtMostKTotalizer (f : Cnf) (lits : List ℕ) (k : ℕ) : Cnf × Bool :=
  if lits.isEmpty ∨ lits.length ≤ k then (f, true)
  else
    let root := buildTotalizerTree f lits k
    match root.2[k]? with
    | none => (root.1, false)
    | some overflow => (root.1.addClause [neg overflow], true)

def encodeAtMostK (f : Cnf) (lits : List ℕ) (k : ℕ) : Cnf × Bool :=
  if lits.length ≤ k then (f, true)
  else if k = 0 then (f.addClauses (lits.map fun lit => [neg lit]), true)
  else if lits.length ≤ 4 then encodeAtMostKDirect f lits k
  else encodeAtMostKTotalizer f lits k

def encodeAtLeastK (f : Cnf) (lits : List ℕ) (k : ℕ) : Cnf × Bool :=
  if k = 0 then (f, true)
  else if lits.length < k then (f, false)
  else if k = 1 then (f.addClause lits, true)
  else encodeAtMostK f (lits.map neg) (lits.length - k)

def encodeExactlyK (f : Cnf) (lits : List ℕ) (k : ℕ) : Cnf × Bool :=
  if lits.length < k then (f, false)
  else
    let atMost := encodeAtMostK f lits k
    if atMost.2 then encodeAtLeastK atMost.1 lits k else atMost

end CardinalityEncoder

end Nixie.Sat
