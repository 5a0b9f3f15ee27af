import Nixie.Opt.TotalizerCount

/-!
The incremental totalizer as its callers see it, with literals of 32 bits, and the other encodings of a
bound, `nixie-opt/src/totalizer.rs`.
-/

namespace Nixie.Opt

open Literal Nixie.Sat List Option Nat Totalizer

/-- `Lit` has 32 bits, of which `Lit::pos` drops the highest of a variable. No step of an encoder looks
into a literal: a word is cut where the caller gets it. -/
def word (lit : ℕ) : ℕ := lit % 2 ^ 32

def IsWord (lit : ℕ) : Prop := lit < 2 ^ 32

/-- The new variables are below `2 ^ 31`. -/
def HasRoom (nextVar vars : ℕ) : Prop := 0 < vars → nextVar + vars ≤ 2 ^ 31

theorem word_eq {lit : ℕ} (h : IsWord lit) : word lit = lit := mod_eq_of_lt h

theorem isWord_of_below {lit n : ℕ} (h : lit / 2 < n) (hn : n ≤ 2 ^ 31) : IsWord lit := by
  unfold IsWord
  omega

theorem isWord_neg {lit : ℕ} (h : IsWord lit) : IsWord (neg lit) := by
  unfold IsWord at *
  have := neg_div_two lit
  omega

theorem map_word {lits : List ℕ} (h : ∀ lit ∈ lits, IsWord lit) : lits.map word = lits :=
  (map_congr_left fun lit hlit => word_eq (h lit hlit)).trans (map_id lits)

theorem map_map_word {clauses : List (List ℕ)} (h : ∀ c ∈ clauses, ∀ lit ∈ c, IsWord lit) :
    clauses.map (List.map word) = clauses :=
  (map_congr_left fun c hc => map_word (h c hc)).trans (map_id clauses)

namespace TotalizerNode

/-- The outputs up to `k` that an encoding of the tree would still make. -/
def missing (k : ℕ) : TotalizerNode → ℕ
  | internal outputs left right => left.missing k + right.missing k + (outputs.take k).count none
  | _ => 0

variable {node left right : TotalizerNode} {k : ℕ}

theorem Fresh.output_mem (h : node.Fresh) {lit : ℕ} (hlit : node.output k = some lit) : lit ∈ node.inputs := by
  cases h with
  | empty => cases hlit
  | leaf input => exact mem_singleton.mpr (output_leaf hlit).2
  | join => cases eq_of_mem_replicate (mem_of_getElem? (output_internal hlit))

theorem outputLoop_nextVar (n i : ℕ) (outputs : List (Option ℕ)) (e : Emitted) (h : i + n ≤ outputs.length) :
    (outputLoop left right (List.range' (i + 1) n) outputs e).2.nextVar =
      e.nextVar + ((outputs.drop i).take n).count none := by
  induction n generalizing i outputs e with
  | zero => simp [outputLoop]
  | succ n ih =>
    have hlt : i < outputs.length := by omega
    rw [range'_succ, outputLoop, Nat.add_sub_cancel, drop_eq_getElem_cons hlt, take_succ_cons,
      getElem?_eq_getElem hlt]
    cases hout : outputs[i] with
    | some lit => rw [if_pos (by rfl), ih _ _ _ (by omega), count_cons_of_ne (by simp)]
    | none =>
      have hlength : i + 1 + n ≤ (outputs.set i (some (posLit e.nextVar))).length := by
        rw [length_set]
        omega
      have hrest := ih (i + 1) _ ⟨e.nextVar + 1, e.clauses ++
        combinations left right (posLit e.nextVar) (i + 1)⟩ hlength
      rw [drop_set_of_lt (lt_succ_self i)] at hrest
      rw [if_neg (by simp), count_cons_self]
      exact hrest.trans (Nat.add_right_comm ..)

theorem encodeNode_nextVar (node : TotalizerNode) (k : ℕ) (e : Emitted) (h : node.Valid e.nextVar) :
    (encodeNode node k e).2.nextVar = e.nextVar + node.missing k := by
  induction node generalizing e with
  | empty => rfl
  | leaf lit => rfl
  | internal outputs left right ihl ihr =>
    obtain ⟨hlength, -, hl, hr⟩ := h
    obtain ⟨hleft, -⟩ := encodeNode_step left k e hl
    obtain ⟨hright, -⟩ := encodeNode_step right k (encodeNode left k e).2 (hr.mono hleft.nextVar)
    have hloop := @outputLoop_nextVar (Opt.encodeNode left k e).1
      (Opt.encodeNode right k (Opt.encodeNode left k e).2).1 (min k outputs.length) 0 outputs
      (Opt.encodeNode right k (Opt.encodeNode left k e).2).2 (by omega)
    rw [drop_zero, ← take_eq_take_min, ihr _ (hr.mono hleft.nextVar), ihl _ hl] at hloop
    rw [encodeNode, missing]
    dsimp only
    rw [hleft.size, hright.size, ← hlength, hloop]
    simp only [Nat.add_assoc]

theorem Fresh.encodeNode_eq (h : node.Fresh) (hmissing : node.missing k = 0) (e : Emitted) :
    Opt.encodeNode node k e = (node, e) := by
  induction h generalizing e with
  | empty => rfl
  | leaf lit => rfl
  | @join left right _ _ ihl ihr =>
    rw [TotalizerNode.join, missing, take_replicate, count_replicate_self, Nat.add_eq_zero_iff,
      Nat.add_eq_zero_iff] at hmissing
    rw [TotalizerNode.join, Opt.encodeNode, ihl hmissing.1.1]
    dsimp only
    rw [ihr hmissing.1.2]
    dsimp only
    rw [hmissing.2]
    rfl

end TotalizerNode

open TotalizerNode

namespace Totalizer

/-- The variables that `ensure_bound` makes. -/
def fresh (t : Totalizer) (k : ℕ) : ℕ := if t.encodedBound < k ∧ k ≤ t.size then t.root.missing k else 0

/-- All variables fit into a literal, or none has been made. -/
def Fits (taken : List (List ℕ)) (t : Totalizer) : Prop :=
  t.nextVar ≤ 2 ^ 31 ∨ t.root.Fresh ∧ taken ++ t.emitted.clauses = []

variable {inputs : List ℕ} {base k lit : ℕ} {taken : List (List ℕ)} {t : Totalizer}

theorem fits_new (inputs : List ℕ) (nextVar : ℕ) : Fits [] (new inputs nextVar) :=
  .inr ⟨fresh_new inputs nextVar, rfl⟩

theorem Fits.take (h : Fits taken t) : Fits (taken ++ t.takeClauses.2) t.takeClauses.1 :=
  h.imp_right fun h => ⟨h.1, by simpa [takeClauses] using h.2⟩

section

variable (h : Counts inputs base taken t)
include h

theorem Counts.fits_ensureBound (hfits : Fits taken t) (hfresh : HasRoom t.nextVar (t.fresh k)) :
    Fits taken (t.ensureBound k).1 := by
  unfold Totalizer.ensureBound
  split_ifs with hzero hsize hbound
  · exact hfits
  · exact hfits
  · have hmade : t.fresh k = t.root.missing k := if_pos ⟨hbound, Nat.le_of_not_lt hsize⟩
    have hnext := encodeNode_nextVar t.root k t.emitted h.valid
    rw [hmade] at hfresh
    rcases Nat.eq_zero_or_pos (t.root.missing k) with hnone | hpos
    · rcases hfits with hsmall | ⟨hroot, hclauses⟩
      · exact .inl (by simpa [nextVar, hnext, hnone] using hsmall)
      · rw [hroot.encodeNode_eq hnone]
        exact .inr ⟨hroot, hclauses⟩
    · exact .inl (hnext.trans_le (hfresh hpos))
  · exact hfits

theorem Counts.isWord_output (hfits : Fits taken t) (hwords : ∀ lit ∈ inputs, IsWord lit)
    (hlit : t.root.output k = some lit) : IsWord lit := by
  rcases hfits with hsmall | ⟨hroot, -⟩
  · exact isWord_of_below (output_below h.valid hlit) hsmall
  · exact hwords lit (h.inputs ▸ hroot.output_mem hlit)

theorem Counts.isWord (hfits : Fits taken t) : ∀ c ∈ taken ++ t.emitted.clauses, ∀ lit ∈ c, IsWord lit := by
  rcases hfits with hsmall | ⟨-, hclauses⟩
  · exact fun c hc lit hlit => isWord_of_below (h.below c hc lit hlit) hsmall
  · simp [hclauses]

end

end Totalizer

namespace IncrementalTotalizer

inductive Call
  | ensureBound (k : ℕ)
  | setBound (k : ℕ)
  | weaken
  deriving DecidableEq

structure Use where
  incremental : IncrementalTotalizer
  taken : List (List ℕ)
  obtained : List (ℕ × ℕ)

namespace Use

def start (inputs : List ℕ) (nextVar : ℕ) : Use := ⟨.new inputs nextVar, [], []⟩

def clauses (u : Use) : List (List ℕ) := u.taken ++ u.incremental.totalizer.emitted.clauses

def rebound (u : Use) (r : IncrementalTotalizer × Option ℕ × List (List ℕ)) : Use :=
  ⟨r.1, u.taken ++ r.2.2, u.obtained⟩

def call (u : Use) : Call → Use
  | .ensureBound k =>
    let (totalizer, lit) := u.incremental.totalizer.ensureBound k
    ⟨{ u.incremental with totalizer := totalizer }, u.taken,
      u.obtained ++ (lit.map (k, ·)).toList⟩
  | .setBound k => u.rebound (u.incremental.setBound k)
  | .weaken => u.rebound u.incremental.weaken

def calls (u : Use) (cs : List Call) : Use := cs.foldl call u

/-- The variables that a call makes. -/
def fresh (u : Use) : Call → ℕ
  | .ensureBound k => u.incremental.totalizer.fresh k
  | .setBound k => u.incremental.totalizer.fresh (k + 1)
  | .weaken => u.incremental.totalizer.fresh (u.incremental.currentBound + 2)

def Fits (u : Use) : List Call → Prop
  | [] => True
  | c :: cs => HasRoom u.incremental.totalizer.nextVar (u.fresh c) ∧ (u.call c).Fits cs

end Use

inductive Assumes (inputs : List ℕ) (t : IncrementalTotalizer) : Option ℕ → Prop
  | none (h : inputs.length ≤ t.currentBound) : Assumes inputs t none
  | some {lit} (h : t.totalizer.root.output (t.currentBound + 1) = some lit) : Assumes inputs t (some (neg lit))

structure Good (inputs : List ℕ) (base : ℕ) (u : Use) : Prop where
  counts : u.incremental.totalizer.Counts inputs base u.taken
  assumes : Assumes inputs u.incremental u.incremental.boundAssumption
  obtained : ∀ p ∈ u.obtained, 1 ≤ p.1 ∧ u.incremental.totalizer.root.output p.1 = some p.2

variable {inputs : List ℕ} {base : ℕ} {u : Use}

theorem good_start (hinputs : Below base inputs) : Good inputs base (.start inputs base) :=
  ⟨counts_new hinputs, .none le_rfl, by simp [Use.start]⟩

theorem Good.setBound (h : Good inputs base u) (k : ℕ) : Good inputs base (u.rebound (u.incremental.setBound k)) := by
  unfold IncrementalTotalizer.setBound
  by_cases hk : k < u.incremental.totalizer.size
  · obtain ⟨hcounts, hkept, -, hfilled⟩ := h.counts.ensureBound (k + 1)
    rw [if_pos hk]
    rw [h.counts.size] at hk
    refine ⟨hcounts.take, ?_, fun p hp => ?_⟩
    · obtain ⟨lit, hlit⟩ := hfilled (succ_pos k) hk
      have hatMost : ((u.incremental.totalizer.ensureBound (k + 1)).1).atMost k = some (neg lit) := by
        rw [atMost, if_neg (by rw [hcounts.size]; omega), atLeast,
          if_neg (succ_ne_zero k), if_neg (by rw [hcounts.size]; omega), hlit]
        rfl
      simp only [Use.rebound, hatMost]
      exact .some hlit
    · obtain ⟨hpos, hp⟩ := h.obtained p hp
      exact ⟨hpos, hkept p.1 p.2 hp⟩
  · rw [if_neg hk]
    rw [h.counts.size] at hk
    exact ⟨h.counts.take, .none (Nat.le_of_not_lt hk), h.obtained⟩

theorem Good.call (h : Good inputs base u) (c : Call) : Good inputs base (u.call c) := by
  cases c with
  | ensureBound k =>
    obtain ⟨hcounts, hkept, hlit, -⟩ := h.counts.ensureBound k
    refine ⟨hcounts, ?_, fun p hp => ?_⟩
    · have hassumes := h.assumes
      simp only [Use.call]
      generalize u.incremental.boundAssumption = a at hassumes
      cases hassumes with
      | none hbound => exact .none hbound
      | some hout => exact .some (hkept _ _ hout)
    · rcases mem_append.mp hp with hp | hp
      · obtain ⟨hpos, hp⟩ := h.obtained p hp
        exact ⟨hpos, hkept p.1 p.2 hp⟩
      · rw [mem_toList, map_eq_some_iff] at hp
        obtain ⟨lit, hresult, rfl⟩ := hp
        exact hlit lit hresult
  | setBound k => exact h.setBound k
  | weaken => exact h.setBound _

/-- The clauses emitted so far and the literal assumed say exactly that the bound is met, and a literal
obtained for a sum is forced at it. -/
structure Exact (inputs : List ℕ) (nextVar : ℕ) (u : Use) : Prop where
  bound : ∀ σ, (∃ τ, Agree nextVar σ τ ∧ Satisfies τ (u.clauses.map (List.map word)) ∧
    ∀ a ∈ u.incremental.boundAssumption.map word, isTrue τ a) ↔ trueCount σ inputs ≤ u.incremental.currentBound
  forced : ∀ p ∈ u.obtained, ∀ τ, Satisfies τ (u.clauses.map (List.map word)) →
    p.1 ≤ trueCount τ inputs → isTrue τ (word p.2)

theorem Good.exact (h : Good inputs base u) (hinputs : Below base inputs) (hwords : ∀ lit ∈ inputs, IsWord lit)
    (hfits : u.incremental.totalizer.Fits u.taken) : Exact inputs base u := by
  have hclauses : u.clauses.map (List.map word) = u.clauses := map_map_word (h.counts.isWord hfits)
  have hword {k lit : ℕ} (hlit : u.incremental.totalizer.root.output k = some lit) : IsWord lit :=
    h.counts.isWord_output hfits hwords hlit
  refine ⟨fun σ => ?_, fun p hp τ hsat hcount => ?_⟩
  · rw [hclauses]
    have hassumes := h.assumes
    generalize u.incremental.boundAssumption = a at hassumes
    cases hassumes with
    | none hbound =>
      obtain ⟨τ, hagree, hτ⟩ := h.counts.continues σ
      have hcount : trueCount σ inputs ≤ u.incremental.currentBound := trueCount_le.trans hbound
      exact ⟨fun _ => hcount, fun _ => ⟨τ, hagree, h.counts.holds τ hτ, by simp⟩⟩
    | some hout =>
      simp only [map_some, mem_def, some.injEq, forall_eq', word_eq (isWord_neg (hword hout))]
      exact h.counts.output_iff hinputs hout σ
  · rw [hclauses] at hsat
    obtain ⟨hpos, hout⟩ := h.obtained p hp
    rw [word_eq (hword hout)]
    refine (h.counts.forced τ hsat).output hpos hout ?_
    rwa [h.counts.inputs]

end IncrementalTotalizer

def encodeAtMostOnePairwise : List ℕ → List (List ℕ)
  | [] => []
  | lit :: lits => lits.map (fun other => [neg lit, neg other]) ++ encodeAtMostOnePairwise lits

def freshRow (nextVar bound : ℕ) : List ℕ :=
  (List.range bound).map fun j => posLit (nextVar + j)

/-- The rows of counters, one for each input: index `j` of row `i` is for at least `j + 1` of the first
`i + 1` inputs. -/
def counterRows (k : ℕ) : ℕ → ℕ → ℕ → List (List ℕ)
  | 0, _, _ => []
  | rest + 1, i, nextVar =>
    let bound := min (i + 1) (k + 1)
    freshRow nextVar bound :: counterRows k rest (i + 1) (nextVar + bound)

def counterClauses (input : ℕ) (prev curr : List ℕ) (j : ℕ) : List (List ℕ) :=
  let out := curr.getD (j - 1) 0
  (if j ≤ prev.length then [[neg (prev.getD (j - 1) 0), out]] else []) ++
    (if j = 1 then [[neg input, out]]
    else if j - 1 ≤ prev.length then [[neg input, neg (prev.getD (j - 2) 0), out]]
    else [])

def counterLoop : List ℕ → List ℕ → List (List ℕ) → List (List ℕ)
  | input :: inputs, prev, curr :: rows =>
    ((List.range' 1 curr.length).flatMap (counterClauses input prev curr)) ++ counterLoop inputs curr rows
  | _, _, _ => []

def encodeSequentialCounter (inputs : List ℕ) (k nextVar : ℕ) : List (List ℕ) × Option ℕ × ℕ :=
  if inputs.isEmpty ∨ inputs.length ≤ k then ([], none, nextVar)
  else
    let s := counterRows k inputs.length 0 nextVar
    let nextVar := nextVar + (s.map List.length).sum
    let clauses :=
      match inputs, s with
      | input :: rest, (out :: row) :: rows =>
        [[neg out, input], [neg input, out]] ++ counterLoop rest (out :: row) rows
      | _, _ => []
    let assumption :=
      if k < min inputs.length (k + 1) then some (neg ((s.getD (inputs.length - 1) []).getD k 0)) else none
    (clauses, assumption, nextVar)

def comparator (a b : ℕ) (e : Emitted) : List ℕ × Emitted :=
  let maxLit := posLit e.nextVar
  let minLit := posLit (e.nextVar + 1)
  ([maxLit, minLit],
    ⟨e.nextVar + 2, e.clauses ++
      [[neg maxLit, a, b], [neg a, maxLit], [neg b, maxLit],
        [neg a, neg b, neg minLit], [neg minLit, a], [neg minLit, b]]⟩)

def deinterleave : List ℕ → List ℕ × List ℕ
  | [] => ([], [])
  | [a] => ([a], [])
  | a :: b :: rest => (a :: (deinterleave rest).1, b :: (deinterleave rest).2)

def interleave (maxPairs : ℕ) (odd even : List ℕ) : List ℕ → List ℕ → Emitted → List ℕ × Emitted
  | [], result, e => (result, e)
  | i :: rest, result, e =>
    match even[i]?, odd[i + 1]? with
    | some a, some b =>
      let (compared, e) := comparator a b e
      let result := result ++ [compared.getD 0 0]
      interleave maxPairs odd even rest
        (if i + 1 < maxPairs then result ++ [compared.getD 1 0] else result) e
    | some a, none => interleave maxPairs odd even rest (result ++ [a]) e
    | none, some b => interleave maxPairs odd even rest (result ++ [b]) e
    | none, none => interleave maxPairs odd even rest result e

/-- Batcher's merge of two sorted sequences. A round halves the sequences: fuel for their lengths is
enough. -/
def oddEvenMerge : ℕ → List ℕ → List ℕ → Emitted → List ℕ × Emitted
  | _, [], [], e => ([], e)
  | _, [a], [], e => ([a], e)
  | _, [], [b], e => ([b], e)
  | _, [a], [b], e => comparator a b e
  | _, [a, b], [], e => ([a, b], e)
  | _, [], [a, b], e => ([a, b], e)
  | 0, _, _, e => ([], e)
  | fuel + 1, left, right, e =>
    let (leftOdd, leftEven) := deinterleave left
    let (rightOdd, rightEven) := deinterleave right
    let (mergedOdd, e) := oddEvenMerge fuel leftOdd rightOdd e
    let (mergedEven, e) := oddEvenMerge fuel leftEven rightEven e
    let maxPairs := max mergedOdd.length mergedEven.length
    let (result, e) := interleave maxPairs mergedOdd mergedEven (List.range maxPairs) (mergedOdd.take 1) e
    (result.take (left.length + right.length), e)

def buildSortingNetwork : ℕ → List ℕ → Emitted → List ℕ × Emitted
  | _, [], e => ([], e)
  | _, [a], e => ([a], e)
  | 0, _, e => ([], e)
  | fuel + 1, inputs, e =>
    let mid := inputs.length / 2
    let (left, e) := buildSortingNetwork fuel (inputs.take mid) e
    let (right, e) := buildSortingNetwork fuel (inputs.drop mid) e
    oddEvenMerge (left.length + right.length) left right e

structure CardinalityNetwork where
  outputs : List ℕ
  emitted : Emitted
  deriving DecidableEq

namespace CardinalityNetwork

def new (inputs : List ℕ) (nextVar : ℕ) : CardinalityNetwork :=
  let (outputs, emitted) := buildSortingNetwork inputs.length inputs ⟨nextVar, []⟩
  ⟨outputs, emitted⟩

def atMost (net : CardinalityNetwork) (k : ℕ) : Option ℕ :=
  net.outputs[k]?.map neg

/-- What the caller gets. -/
def words (net : CardinalityNetwork) : CardinalityNetwork :=
  ⟨net.outputs.map word, ⟨net.emitted.nextVar, net.emitted.clauses.map (List.map word)⟩⟩

end CardinalityNetwork

def encodeSorted (inputs : List ℕ) (k nextVar : ℕ) : List (List ℕ) × Option ℕ × ℕ :=
  if inputs.isEmpty ∨ inputs.length ≤ k then ([], none, nextVar)
  else
    let net := CardinalityNetwork.new inputs nextVar
    (net.emitted.clauses, net.atMost k, net.emitted.nextVar)

inductive CardinalityEncoding
  | pairwise
  | sequential
  | totalizer
  | sorted
  | cardinalityNetwork
  deriving DecidableEq

def encodeTotalizer (inputs : List ℕ) (k nextVar : ℕ) : List (List ℕ) × Option ℕ × ℕ :=
  let t := ((new inputs nextVar).ensureBound (k + 1)).1
  let (t, clauses) := t.takeClauses
  (clauses, t.atMost k, t.nextVar)

def cut (r : List (List ℕ) × Option ℕ × ℕ) : List (List ℕ) × Option ℕ × ℕ :=
  (r.1.map (List.map word), r.2.1.map word, r.2.2)

def encodeAtMostK (inputs : List ℕ) (k : ℕ) (encoding : CardinalityEncoding) (nextVar : ℕ) :
    List (List ℕ) × Option ℕ × ℕ :=
  cut <|
    match encoding with
    | .pairwise =>
      if k = 1 then (encodeAtMostOnePairwise inputs, none, nextVar) else encodeTotalizer inputs k nextVar
    | .totalizer => encodeTotalizer inputs k nextVar
    | .sequential => encodeSequentialCounter inputs k nextVar
    | .sorted => encodeSorted inputs k nextVar
    | .cardinalityNetwork => encodeSorted inputs k nextVar

/-- The variables of a merge of sequences of these lengths. -/
def mergeVars : ℕ → ℕ → ℕ → ℕ
  | 0, left, right => if left = 1 ∧ right = 1 then 2 else 0
  | fuel + 1, left, right =>
    if left + right ≤ 2 then if left = 1 ∧ right = 1 then 2 else 0
    else mergeVars fuel ((left + 1) / 2) ((right + 1) / 2) + mergeVars fuel (left / 2) (right / 2) +
      2 * min (left / 2 + right / 2) ((left + 1) / 2 + (right + 1) / 2 - 1)

def sortVars : ℕ → ℕ → ℕ
  | 0, _ => 0
  | fuel + 1, n =>
    if n ≤ 1 then 0 else sortVars fuel (n / 2) + sortVars fuel (n - n / 2) + mergeVars n (n / 2) (n - n / 2)

/-- The variables that an encoding makes. -/
def freshVars (inputs : List ℕ) (k nextVar : ℕ) : CardinalityEncoding → ℕ
  | .pairwise => if k = 1 then 0 else (new inputs nextVar).fresh (k + 1)
  | .totalizer => (new inputs nextVar).fresh (k + 1)
  | .sequential =>
    if inputs.length ≤ k then 0 else ((counterRows k inputs.length 0 nextVar).map List.length).sum
  | .sorted => if inputs.length ≤ k then 0 else sortVars inputs.length inputs.length
  | .cardinalityNetwork => if inputs.length ≤ k then 0 else sortVars inputs.length inputs.length

end Nixie.Opt
