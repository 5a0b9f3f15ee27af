import Mathlib.Data.List.Count
import Nixie.Sat.Cardinality

/-!
The boolean expression DAG and its encoding, `nixie-theories/src/bv/bool_ir.rs`.  A code is twice the index
of a node, one more for the complement; index 0 reads the other way: code 1 is true and code 0 is false.
-/

namespace Nixie.Bv

open Literal Nixie.Sat List Option Function

inductive IrNode
  | constTrue
  | and (a b : ℕ)
  | xor (a b : ℕ)
  | mux (s t f : ℕ)
  | var (v : ℕ)
  deriving DecidableEq

def litTrue : ℕ := 1

def litFalse : ℕ := 0

def litIdx (code : ℕ) : ℕ := code / 2

def litMake (idx : ℕ) (complement : Bool) : ℕ := 2 * idx + complement.toNat

def litConst (value : Bool) : ℕ := if value then litTrue else litFalse

structure Folds where
  table : ℕ → Option ℕ
  constant : ∀ i repl, table i = some repl → repl ≤ 1

namespace Folds

def empty : Folds := ⟨fun _ => none, fun _ _ h => nomatch h⟩

theorem litConst_le (value : Bool) : litConst value ≤ 1 := by
  cases value <;> decide

def insert (f : Folds) (i : ℕ) (value : Bool) : Folds where
  table := update f.table i (some (litConst value))
  constant j repl h := by
    by_cases hj : j = i
    · subst hj
      rw [update_self, some.injEq] at h
      exact h ▸ litConst_le value
    · rw [update_of_ne hj] at h
      exact f.constant j repl h

theorem xor_le {repl code : ℕ} (h : repl ≤ 1) : repl ^^^ (code % 2) ≤ 1 := by
  have hbit := Nat.mod_two_eq_zero_or_one code
  rcases Nat.le_one_iff_eq_zero_or_eq_one.mp h with rfl | rfl <;> rcases hbit with hbit | hbit <;> rw [hbit] <;>
    decide

def canonical (f : Folds) (code : ℕ) : ℕ :=
  if code ≤ 1 then code
  else
    match h : f.table (litIdx code) with
    | some repl => f.canonical (repl ^^^ (code % 2))
    | none => code
termination_by if code ≤ 1 then 0 else 1
decreasing_by
  rename_i hcode
  rw [if_neg hcode, if_pos (xor_le (f.constant _ _ h))]
  exact Nat.one_pos

def foldedLit (f : Folds) (code : ℕ) : Option Bool :=
  let c := f.canonical code
  if c = litTrue then some true
  else if c = litFalse then some false
  else none

end Folds

structure BoolIr where
  nodes : List IrNode := []
  table : IrNode → Option ℕ := fun _ => none
  pinned : ℕ → Option Bool := fun _ => none
  folded : Folds := .empty

namespace BoolIr

def intern (ir : BoolIr) (node : IrNode) : BoolIr × ℕ :=
  match ir.table node with
  | some idx => (ir, idx)
  | none =>
    ({ ir with nodes := ir.nodes ++ [node], table := update ir.table node (some ir.nodes.length) },
      ir.nodes.length)

def new : BoolIr := (intern {} .constTrue).1

def canonical (ir : BoolIr) (code : ℕ) : ℕ := ir.folded.canonical code

def internLit (ir : BoolIr) (node : IrNode) : BoolIr × ℕ :=
  let (ir, idx) := ir.intern node
  (ir, litMake idx false)

def var (ir : BoolIr) (v : ℕ) : BoolIr × ℕ := ir.internLit (.var v)

def and (ir : BoolIr) (a b : ℕ) : BoolIr × ℕ :=
  let (a, b) := (ir.canonical a, ir.canonical b)
  if a = litFalse ∨ b = litFalse then (ir, litFalse)
  else if a = litTrue then (ir, b)
  else if b = litTrue then (ir, a)
  else if a = b then (ir, a)
  else if a = neg b then (ir, litFalse)
  else
    let (x, y) := if a < b then (a, b) else (b, a)
    ir.internLit (.and x y)

def or (ir : BoolIr) (a b : ℕ) : BoolIr × ℕ :=
  let (ir, code) := ir.and (neg (ir.canonical a)) (neg (ir.canonical b))
  (ir, neg code)

def xor (ir : BoolIr) (a b : ℕ) : BoolIr × ℕ :=
  let (a, b) := (ir.canonical a, ir.canonical b)
  if a = litFalse then (ir, b)
  else if b = litFalse then (ir, a)
  else if a = litTrue then (ir, neg (ir.canonical b))
  else if b = litTrue then (ir, neg a)
  else if a = b then (ir, litFalse)
  else if a = neg b then (ir, litTrue)
  else
    let (pa, pb) := (a % 2, b % 2)
    let (xa, xb) := (a - a % 2, b - b % 2)
    let (x, y) := if xa < xb then (xa, xb) else (xb, xa)
    let (ir, base) := ir.internLit (.xor x y)
    (ir, base ^^^ pa ^^^ pb)

end BoolIr

variable {f : Folds} {code : ℕ}

theorem Folds.canonical_of_le (h : code ≤ 1) : f.canonical code = code := by
  rw [Folds.canonical, if_pos h]

theorem Folds.canonical_some {repl : ℕ} (hcode : ¬ code ≤ 1) (h : f.table (litIdx code) = some repl) :
    f.canonical code = repl ^^^ (code % 2) := by
  rw [Folds.canonical, if_neg hcode]
  split
  next repl' h' =>
    obtain rfl : repl' = repl := some.inj (h'.symm.trans h)
    exact canonical_of_le (xor_le (f.constant _ _ h))
  next h' => rw [h] at h'; cases h'

theorem Folds.canonical_none (h : f.table (litIdx code) = none) : f.canonical code = code := by
  rw [Folds.canonical]
  split
  · rfl
  · split
    next repl h' => rw [h] at h'; cases h'
    next => rfl

theorem Folds.canonical_cases (f : Folds) (code : ℕ) :
    f.canonical code ≤ 1 ∨ f.canonical code = code ∧ 1 < code ∧ f.table (litIdx code) = none := by
  by_cases hcode : code ≤ 1
  · exact .inl (by rwa [canonical_of_le hcode])
  · cases h : f.table (litIdx code) with
    | some repl => exact .inl (by rw [canonical_some hcode h]; exact xor_le (f.constant _ _ h))
    | none => exact .inr ⟨canonical_none h, by omega, rfl⟩

theorem Folds.canonical_neg (f : Folds) (code : ℕ) : f.canonical (neg (f.canonical code)) = neg (f.canonical code) := by
  rcases f.canonical_cases code with h | ⟨h, -, hnone⟩
  · refine canonical_of_le ?_
    rw [neg_eq]
    split <;> omega
  · rw [h]
    exact canonical_none (by rw [litIdx, neg_div_two]; exact hnone)

namespace BoolIr

def mux (ir : BoolIr) (sel t f : ℕ) : BoolIr × ℕ :=
  let sel' := ir.canonical sel
  let t' := ir.canonical t
  let f' := ir.canonical f
  if sel' = litTrue then (ir, t')
  else if sel' = litFalse then (ir, f')
  else if t' = f' then (ir, t')
  else if t' = litTrue ∧ f' = litFalse then (ir, sel')
  else if t' = litFalse ∧ f' = litTrue then (ir, neg sel')
  else if _h : t' % 2 = 1 ∧ f' % 2 = 1 then
    let (ir, code) := ir.mux sel' (neg t') (neg f')
    (ir, neg code)
  else ir.internLit (.mux sel' t' f')
termination_by ir.canonical t % 2
decreasing_by
  change ir.folded.canonical (neg (ir.folded.canonical t)) % 2 < ir.folded.canonical t % 2
  change ir.folded.canonical t % 2 = 1 ∧ _ at _h
  rw [Folds.canonical_neg, neg_eq, if_neg (by omega)]
  omega

def pin (ir : BoolIr) (v : ℕ) (value : Bool) : BoolIr :=
  { ir with pinned := update ir.pinned v (some value) }

theorem countP_range_lt {n i : ℕ} {p q : ℕ → Bool} (hi : i < n) (hle : ∀ j, p j = true → q j = true)
    (hp : p i = false) (hq : q i = true) : (List.range n).countP p < (List.range n).countP q := by
  have hsplit : ∀ r : ℕ → Bool, (List.range n).countP r =
      ((List.range n).erase i).countP r + if r i then 1 else 0 := by
    intro r
    rw [(perm_cons_erase (mem_range.mpr hi)).countP_eq, countP_cons]
  have hrest := countP_mono_left (l := (List.range n).erase i) fun j _ => hle j
  rw [hsplit, hsplit, if_neg (by simp [hp]), if_pos hq]
  omega

section

variable (nodes : List IrNode) (pinned : ℕ → Option Bool)

def determined (folded : Folds) : IrNode → Option Bool
  | .constTrue => some true
  | .var v => pinned v
  | .and a b =>
    match folded.foldedLit a, folded.foldedLit b with
    | some x, some y => some (x && y)
    | some false, _ => some false
    | _, some false => some false
    | _, _ => none
  | .xor a b =>
    match folded.foldedLit a, folded.foldedLit b with
    | some x, some y => some (x != y)
    | _, _ => none
  | .mux s t f =>
    match folded.foldedLit s with
    | some true => folded.foldedLit t
    | some false => folded.foldedLit f
    | none =>
      match folded.foldedLit t, folded.foldedLit f with
      | some x, some y => if x = y then some x else none
      | _, _ => none

def seedStep (st : Folds × ℕ) (i : ℕ) : Folds × ℕ :=
  match nodes[i]? with
  | some (.var v) =>
    match pinned v with
    | some value => (st.1.insert i value, st.2 + 1)
    | none => st
  | _ => st

def refoldStep (st : Folds × ℕ × Bool) (i : ℕ) : Folds × ℕ × Bool :=
  if (st.1.table i).isSome then st
  else
    match nodes[i]? with
    | none => st
    | some node =>
      match determined pinned st.1 node with
      | some value => (st.1.insert i value, st.2.1 + 1, true)
      | none => st

def refoldRound (folded : Folds) (count : ℕ) : Folds × ℕ × Bool :=
  (List.range nodes.length).foldl (refoldStep nodes pinned) (folded, count, false)

def unfolded (folded : Folds) : ℕ := (List.range nodes.length).countP fun i => (folded.table i).isNone

def Grows (folded : Folds) (st : Folds × ℕ × Bool) : Prop :=
  (∀ i, (folded.table i).isSome → (st.1.table i).isSome) ∧
    (st.2.2 = true → ∃ i < nodes.length, folded.table i = none ∧ (st.1.table i).isSome)

theorem refoldStep_grows {folded : Folds} {st : Folds × ℕ × Bool} (h : Grows nodes folded st) (i : ℕ) :
    Grows nodes folded (refoldStep nodes pinned st i) := by
  unfold refoldStep
  split
  · exact h
  next hnone =>
    split
    · exact h
    next node hnode =>
      split
      next value _ =>
        have hkeep : ∀ j, (st.1.table j).isSome → ((st.1.insert i value).table j).isSome := by
          intro j hj
          by_cases hij : j = i
          · simp [Folds.insert, hij]
          · simpa [Folds.insert, hij] using hj
        refine ⟨fun j hj => hkeep j (h.1 j hj), fun _ => ⟨i, ?_, ?_, by simp [Folds.insert]⟩⟩
        · exact (List.getElem?_eq_some_iff.mp hnode).1
        · by_contra hsome
          exact hnone (h.1 i (Option.isSome_iff_ne_none.mpr hsome))
      · exact h

theorem refoldRound_grows (folded : Folds) (count : ℕ) :
    Grows nodes folded (refoldRound nodes pinned folded count) := by
  suffices h : ∀ (is : List ℕ) (st : Folds × ℕ × Bool), Grows nodes folded st →
      Grows nodes folded (is.foldl (refoldStep nodes pinned) st) from
    h _ _ ⟨fun _ hi => hi, fun h => nomatch h⟩
  intro is
  induction is with
  | nil => exact fun st h => h
  | cons i is ih => exact fun st h => ih _ (refoldStep_grows nodes pinned h i)

theorem unfolded_lt {folded : Folds} {st : Folds × ℕ × Bool} (h : Grows nodes folded st) (hchanged : st.2.2 = true) :
    unfolded nodes st.1 < unfolded nodes folded := by
  obtain ⟨i, hi, hnone, hsome⟩ := h.2 hchanged
  refine countP_range_lt hi (fun j hj => ?_) (by simpa [isSome_iff_ne_none] using hsome) (by simp [hnone])
  by_contra hfolded
  have hkept := h.1 j (by simpa [isSome_iff_ne_none] using hfolded)
  simp [isNone_iff_eq_none.mp hj] at hkept

def refoldLoop (folded : Folds) (count : ℕ) : Folds × ℕ :=
  let round := refoldRound nodes pinned folded count
  if _h : round.2.2 = true then refoldLoop round.1 round.2.1 else (round.1, round.2.1)
termination_by unfolded nodes folded
decreasing_by exact unfolded_lt nodes (refoldRound_grows nodes pinned folded count) _h

end

def refoldConsts (ir : BoolIr) : BoolIr × ℕ :=
  let seeded := (List.range ir.nodes.length).foldl (seedStep ir.nodes ir.pinned) (ir.folded, 0)
  let (folded, count) := refoldLoop ir.nodes ir.pinned seeded.1 seeded.2
  ({ ir with folded := folded }, count)

def children : IrNode → List ℕ
  | .constTrue => []
  | .var _ => []
  | .and a b => [a, b]
  | .xor a b => [a, b]
  | .mux s t f => [s, t, f]

def fresh (ir : BoolIr) (live : List ℕ) : ℕ := (List.range ir.nodes.length).countP fun i => i ∉ live

theorem fresh_cons_le (ir : BoolIr) (live : List ℕ) (i : ℕ) : ir.fresh (i :: live) ≤ ir.fresh live := by
  refine countP_mono_left fun j _ hj => ?_
  simp only [mem_cons, not_or, decide_eq_true_eq] at hj ⊢
  exact hj.2

theorem fresh_cons_lt (ir : BoolIr) {live : List ℕ} {i : ℕ} (hi : i < ir.nodes.length) (hmem : i ∉ live) :
    ir.fresh (i :: live) < ir.fresh live := by
  refine countP_range_lt hi (fun j hj => ?_) (by simp) (by simpa using hmem)
  simp only [mem_cons, not_or, decide_eq_true_eq] at hj ⊢
  exact hj.2

def liveLoop (ir : BoolIr) (stack live : List ℕ) : List ℕ :=
  match stack with
  | [] => live
  | code :: stack =>
    let c := ir.canonical code
    if c ≤ 1 then liveLoop ir stack live
    else if hmem : litIdx c ∈ live then liveLoop ir stack live
    else
      match hnode : ir.nodes[litIdx c]? with
      | some node => liveLoop ir ((children node).reverse ++ stack) (litIdx c :: live)
      | none => liveLoop ir stack (litIdx c :: live)
termination_by (ir.fresh live, stack.length)
decreasing_by
  · exact Prod.Lex.right _ (Nat.lt_succ_self _)
  · exact Prod.Lex.right _ (Nat.lt_succ_self _)
  · exact Prod.Lex.left _ _ (ir.fresh_cons_lt (List.getElem?_eq_some_iff.mp hnode).1 hmem)
  · rcases Nat.lt_or_ge (ir.fresh (litIdx (ir.canonical code) :: live)) (ir.fresh live) with hlt | hge
    · exact Prod.Lex.left _ _ hlt
    · rw [le_antisymm (ir.fresh_cons_le live _) hge]
      exact Prod.Lex.right _ (Nat.lt_succ_self _)

def satLit (ir : BoolIr) (slot : ℕ → Option ℕ) (code : ℕ) : Option ℕ :=
  let c := ir.canonical code
  if c = litTrue then slot 0
  else if c = litFalse then (slot 0).map neg
  else (slot (litIdx c)).map fun base => if c % 2 = 1 then neg base else base

def gateClauses (ir : BoolIr) (slot : ℕ → Option ℕ) (out : ℕ) : IrNode → Option (List (List ℕ))
  | .constTrue => some []
  | .var _ => some []
  | .and a b => do
    let x ← ir.satLit slot a
    let y ← ir.satLit slot b
    some [[neg out, x], [neg out, y], [out, neg x, neg y]]
  | .xor a b => do
    let x ← ir.satLit slot a
    let y ← ir.satLit slot b
    some [[neg out, neg x, neg y], [neg out, x, y], [out, neg x, y], [out, x, neg y]]
  | .mux s t f => do
    let sl ← ir.satLit slot s
    let tl ← ir.satLit slot t
    let fl ← ir.satLit slot f
    some [[neg sl, neg tl, out], [neg sl, tl, neg out], [sl, neg fl, out], [sl, fl, neg out]]

def nodeVar (sat : Cnf) : IrNode → Cnf × ℕ
  | .var v => (sat, v)
  | _ => sat.newVar

def emitStep (ir : BoolIr) (live : List ℕ) (st : Cnf × (ℕ → Option ℕ)) (idx : ℕ) :
    Option (Cnf × (ℕ → Option ℕ)) :=
  if idx ∉ live then some st
  else
    match ir.nodes[idx]? with
    | none => some st
    | some node => do
      let (sat, v) := nodeVar st.1 node
      let slot := update st.2 idx (some (posLit v))
      let clauses ← ir.gateClauses slot (posLit v) node
      some (sat.addClauses clauses, slot)

def tseitin (ir : BoolIr) (sat : Cnf) (constTrue : ℕ) (roots : List ℕ) : Option (Cnf × List ℕ) := do
  let live := ir.liveLoop roots.reverse []
  let (sat, slot) ← (List.range ir.nodes.length).foldlM (ir.emitStep live)
    (sat, update (fun _ => none) 0 (some constTrue))
  let out ← roots.mapM (ir.satLit slot)
  some (sat, out)

end BoolIr

end Nixie.Bv
