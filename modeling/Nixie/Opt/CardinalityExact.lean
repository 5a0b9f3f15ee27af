import Nixie.Opt.Cardinality

namespace Nixie.Opt

open Literal Nixie.Sat CardinalityEncoder List Option Totalizer

variable {σ τ : ℕ → Bool} {inputs : List ℕ} {nextVar k : ℕ}

/-- The clauses and the assumption say exactly that at most `k` positions are true. -/
def SaysAtMost (inputs : List ℕ) (k nextVar : ℕ) (result : List (List ℕ) × Option ℕ × ℕ) : Prop :=
  ∀ σ, (∃ τ, Agree nextVar σ τ ∧ Satisfies τ result.1 ∧ ∀ a ∈ result.2.1, isTrue τ a) ↔
    trueCount σ inputs ≤ k

theorem saysAtMost_nil (h : inputs.length ≤ k) : SaysAtMost inputs k nextVar ([], none, nextVar) := by
  intro σ
  exact ⟨fun _ => trueCount_le.trans h, fun _ => ⟨σ, fun _ _ => rfl, by simp [Satisfies], by simp⟩⟩

theorem satisfies_pairwise (lits : List ℕ) : Satisfies σ (encodeAtMostOnePairwise lits) ↔ trueCount σ lits ≤ 1 := by
  induction lits with
  | nil => simp [encodeAtMostOnePairwise, Satisfies, trueCount]
  | cons lit lits ih =>
    rw [encodeAtMostOnePairwise, satisfies_append, ih]
    have hfirst : Satisfies σ (lits.map fun other => [neg lit, neg other]) ↔
        (isTrue σ lit = true → trueCount σ lits = 0) := by
      simp only [Satisfies, List.forall_mem_map, List.mem_cons, List.not_mem_nil, or_false, exists_eq_or_imp,
        exists_eq_left, isTrue_neg, Bool.not_eq_true', trueCount, List.countP_eq_zero, Bool.not_eq_true]
      cases isTrue σ lit <;> simp
    rw [hfirst]
    have hcount : trueCount σ (lit :: lits) = trueCount σ lits + if isTrue σ lit then 1 else 0 := List.countP_cons
    rw [hcount]
    cases isTrue σ lit <;> simp <;> omega

theorem pairwise_exact (hinputs : Below nextVar inputs) :
    SaysAtMost inputs 1 nextVar (encodeAtMostOnePairwise inputs, none, nextVar) := by
  intro σ
  constructor
  · rintro ⟨τ, hagree, hsat, -⟩
    rw [← trueCount_congr hagree hinputs]
    exact (satisfies_pairwise inputs).mp hsat
  · exact fun h => ⟨σ, fun _ _ => rfl, (satisfies_pairwise inputs).mpr h, by simp⟩

theorem totalizer_exact (hinputs : Below nextVar inputs) (k : ℕ) :
    SaysAtMost inputs k nextVar (encodeTotalizer inputs k nextVar) := by
  obtain ⟨hcounts, -, -, hfilled⟩ := (counts_new hinputs).ensureBound (k + 1)
  have htaken := hcounts.take
  have hsize := htaken.size
  rw [encodeTotalizer]
  generalize ((new inputs nextVar).ensureBound (k + 1)).1 = t at *
  by_cases hk : inputs.length ≤ k
  · intro σ
    have hassumption : t.takeClauses.1.atMost k = none := by
      rw [atMost, if_pos (by omega)]
    simp only [hassumption]
    obtain ⟨τ, hagree, hτ⟩ := htaken.continues σ
    refine ⟨fun _ => trueCount_le.trans hk, fun _ => ⟨τ, hagree, ?_, by simp⟩⟩
    exact (satisfies_append.mp (htaken.holds τ hτ)).1
  · obtain ⟨lit, hlit⟩ := hfilled (Nat.succ_pos k) (by omega)
    have hassumption : t.takeClauses.1.atMost k = some (neg lit) := by
      rw [atMost, if_neg (by omega), atLeast, if_neg (Nat.succ_ne_zero k),
        if_neg (by omega)]
      exact congrArg (Option.map neg) hlit
    intro σ
    have hiff := htaken.output_iff hinputs hlit σ
    simp only [hassumption, mem_def, some.injEq, forall_eq']
    simpa [takeClauses] using hiff

section

variable {input : ℕ} {done rest prev curr : List ℕ} {rows : List (List ℕ)}

theorem mem_counterClauses {out j : ℕ} (hj : j < curr.length) (hout : curr[j]? = some out)
    (h : Satisfies τ ((List.range' 1 curr.length).flatMap (counterClauses input prev curr))) :
    (∀ lit, prev[j]? = some lit → isTrue τ lit → isTrue τ out) ∧
    (isTrue τ input → (∀ i lit, j = i + 1 → prev[i]? = some lit → isTrue τ lit) → j ≤ prev.length → isTrue τ out) := by
  have hclauses : ∀ c ∈ counterClauses input prev curr (j + 1), ∃ lit ∈ c, isTrue τ lit := by
    intro c hc
    exact h c (mem_flatMap.mpr ⟨j + 1, mem_range'_1.mpr (by omega), hc⟩)
  have hget : curr.getD j 0 = out := by rw [getD_eq_getElem?_getD, hout, getD_some]
  simp only [counterClauses, Nat.add_sub_cancel, hget] at hclauses
  constructor
  · intro lit hlit htrue
    have hlt := (List.getElem?_eq_some_iff.mp hlit).1
    rw [if_pos (by omega), List.getD_eq_getElem?_getD, hlit, Option.getD_some] at hclauses
    obtain ⟨l, hl, htruel⟩ := hclauses _ (List.mem_append_left _ (List.mem_singleton_self _))
    rcases List.mem_pair.mp hl with rfl | rfl
    · rw [isTrue_neg, htrue] at htruel
      cases htruel
    · exact htruel
  · intro hinput hprev hle
    cases j with
    | zero =>
      obtain ⟨l, hl, htruel⟩ := hclauses [neg input, out] (mem_append_right _ (by simp))
      rcases mem_pair.mp hl with rfl | rfl
      · rw [isTrue_neg, hinput] at htruel
        cases htruel
      · exact htruel
    | succ i =>
      have hlt : i < prev.length := by omega
      have hlit := getElem?_eq_getElem hlt
      have hmem : [neg input, neg (prev.getD i 0), out] ∈
          (if i + 1 + 1 = 1 then [[neg input, out]]
          else if i + 1 ≤ prev.length then [[neg input, neg (prev.getD (i + 1 + 1 - 2) 0), out]] else []) := by
        rw [if_neg (by omega), if_pos hle]
        exact mem_singleton_self _
      obtain ⟨l, hl, htruel⟩ := hclauses _ (mem_append_right _ hmem)
      have hfalse := hprev i _ rfl hlit
      simp only [mem_cons, not_mem_nil, or_false] at hl
      rcases hl with rfl | rfl | rfl
      · rw [isTrue_neg, hinput] at htruel
        cases htruel
      · rw [isTrue_neg, getD_eq_getElem _ _ hlt, hfalse] at htruel
        cases htruel
      · exact htruel

theorem counted_row (hprev : Counted τ prev done) (hlength : prev.length = min done.length (k + 1))
    (hcurr : curr.length = min (done.length + 1) (k + 1))
    (h : Satisfies τ ((List.range' 1 curr.length).flatMap (counterClauses input prev curr))) :
    Counted τ curr (done ++ [input]) := by
  intro j out hout hj
  have hlt := (List.getElem?_eq_some_iff.mp hout).1
  obtain ⟨hcarry, hincrement⟩ := mem_counterClauses hlt hout h
  have hle : trueCount τ done ≤ done.length := trueCount_le
  rw [trueCount_append] at hj
  by_cases hbefore : j < trueCount τ done
  · have hget := List.getElem?_eq_getElem (show j < prev.length by omega)
    exact hcarry _ hget (hprev j _ hget hbefore)
  · have hinput : isTrue τ input := by
      by_contra hfalse
      rw [Bool.not_eq_true] at hfalse
      simp only [trueCount, List.countP_singleton, hfalse, Bool.false_eq_true, if_false] at hj
      exact hbefore (by simpa [trueCount] using hj)
    have hone : trueCount τ [input] ≤ 1 := trueCount_le
    exact hincrement hinput (fun i lit hji hlit => hprev i lit hlit (by omega)) (by omega)

theorem unary_row (hprev : Unary τ prev done) (hcurr : Unary τ curr (done ++ [input])) :
    Satisfies τ ((List.range' 1 curr.length).flatMap (counterClauses input prev curr)) := by
  intro c hc
  obtain ⟨j, hj, hc⟩ := mem_flatMap.mp hc
  rw [mem_range'_1] at hj
  have hout := hcurr (j - 1) _ (getElem?_eq_getElem (show j - 1 < curr.length by omega))
  rw [trueCount_append] at hout
  have hget : curr.getD (j - 1) 0 = curr.get ⟨j - 1, by omega⟩ := getD_eq_getElem _ _ _
  rw [counterClauses, hget] at hc
  rcases mem_append.mp hc with hc | hc
  · split at hc
    · next hle =>
      rw [mem_singleton.mp hc]
      have hlit := hprev (j - 1) _ (getElem?_eq_getElem (show j - 1 < prev.length by omega))
      rw [getD_eq_getElem _ _ (show j - 1 < prev.length by omega)]
      by_cases htrue : j - 1 < trueCount τ done
      · exact ⟨_, mem_cons_of_mem _ (mem_singleton_self _), hout.mpr (by omega)⟩
      · refine ⟨_, mem_cons_self, ?_⟩
        rw [isTrue_neg, Bool.not_eq_true']
        exact Bool.eq_false_iff.mpr fun h => htrue (hlit.mp h)
    · cases hc
  · by_cases hinput : isTrue τ input
    · have hcount : trueCount τ [input] = 1 := by simp [trueCount, hinput]
      split_ifs at hc with hone hle
      · rw [mem_singleton.mp hc]
        exact ⟨_, mem_cons_of_mem _ (mem_singleton_self _), hout.mpr (by omega)⟩
      · rw [mem_singleton.mp hc]
        have hlit := hprev (j - 2) _ (getElem?_eq_getElem (show j - 2 < prev.length by omega))
        rw [getD_eq_getElem _ _ (show j - 2 < prev.length by omega)]
        by_cases htrue : j - 2 < trueCount τ done
        · exact ⟨_, mem_cons_of_mem _ (mem_cons_of_mem _ (mem_singleton_self _)), hout.mpr (by omega)⟩
        · refine ⟨_, mem_cons_of_mem _ mem_cons_self, ?_⟩
          rw [isTrue_neg, Bool.not_eq_true']
          exact Bool.eq_false_iff.mpr fun h => htrue (hlit.mp h)
      · cases hc
    · have hneg : isTrue τ (neg input) := by simpa using hinput
      split_ifs at hc
      · rw [mem_singleton.mp hc]
        exact ⟨_, mem_cons_self, hneg⟩
      · rw [mem_singleton.mp hc]
        exact ⟨_, mem_cons_self, hneg⟩
      · cases hc

def RowsUnary (τ : ℕ → Bool) : List ℕ → List ℕ → List (List ℕ) → Prop
  | done, input :: rest, row :: rows =>
    Unary τ row (done ++ [input]) ∧ RowsUnary τ (done ++ [input]) rest rows
  | _, [], [] => True
  | _, _, _ => False

theorem freshRow_length (nextVar bound : ℕ) : (freshRow nextVar bound).length = bound := by
  simp [freshRow]

theorem freshRow_get {bound j lit : ℕ} (h : (freshRow nextVar bound)[j]? = some lit) :
    j < bound ∧ lit = posLit (nextVar + j) := by
  rw [freshRow, List.getElem?_map, Option.map_eq_some_iff] at h
  obtain ⟨i, hi, rfl⟩ := h
  obtain ⟨hlt, rfl⟩ := List.getElem?_eq_some_iff.mp hi
  rw [List.length_range] at hlt
  rw [List.getElem_range]
  exact ⟨hlt, rfl⟩

theorem counterRows_unary (rest : List ℕ) {nextVar : ℕ} (hdone : Below nextVar done) (hrest : Below nextVar rest)
    (σ : ℕ → Bool) : ∃ τ, Agree nextVar σ τ ∧
    RowsUnary τ done rest (counterRows k rest.length done.length nextVar) := by
  induction rest generalizing done nextVar σ with
  | nil => exact ⟨σ, fun _ _ => rfl, trivial⟩
  | cons input rest ih =>
    obtain ⟨hinput, hrest⟩ := forall_mem_cons.mp hrest
    have hdone' : Below nextVar (done ++ [input]) := forall_mem_append.mpr ⟨hdone, forall_mem_singleton.mpr hinput⟩
    rw [length_cons, counterRows]
    generalize min (done.length + 1) (k + 1) = bound
    have hagree : Agree nextVar σ fun v =>
        if v < nextVar then σ v else decide (v - nextVar < trueCount σ (done ++ [input])) :=
      fun v hv => if_pos hv
    obtain ⟨τ, hagree', hrows⟩ := ih (fun lit hlit => (hdone' lit hlit).trans_le (Nat.le_add_right _ bound))
      (fun lit hlit => (hrest lit hlit).trans_le (Nat.le_add_right _ bound))
      fun v => if v < nextVar then σ v else decide (v - nextVar < trueCount σ (done ++ [input]))
    rw [length_append, length_singleton] at hrows
    refine ⟨τ, hagree.trans (Nat.le_add_right _ _) hagree', fun j lit hlit => ?_, hrows⟩
    obtain ⟨hj, rfl⟩ := freshRow_get hlit
    have hvalue : τ (nextVar + j) = decide (j < trueCount σ (done ++ [input])) := by
      rw [hagree' (nextVar + j) (by omega)]
      simp
    rw [isTrue_posLit, hvalue, decide_eq_true_iff,
      trueCount_congr (hagree.trans (Nat.le_add_right _ _) hagree') hdone']

theorem counterLoop_counted (rest : List ℕ) {nextVar : ℕ} (hprev : Counted τ prev done)
    (hlength : prev.length = min done.length (k + 1))
    (h : Satisfies τ (counterLoop rest prev (counterRows k rest.length done.length nextVar))) :
    Counted τ ((prev :: counterRows k rest.length done.length nextVar).getD rest.length []) (done ++ rest) ∧
    ((prev :: counterRows k rest.length done.length nextVar).getD rest.length []).length =
    min (done.length + rest.length) (k + 1) := by
  induction rest generalizing done prev nextVar with
  | nil =>
    rw [append_nil]
    exact ⟨hprev, hlength⟩
  | cons input rest ih =>
    rw [length_cons, counterRows] at h ⊢
    rw [counterLoop, satisfies_append] at h
    rw [getD_cons_succ]
    have hrow := counted_row hprev hlength (freshRow_length ..) h.1
    have hnext := ih hrow (by rw [freshRow_length, length_append, length_singleton])
      (by rw [length_append, length_singleton]; exact h.2)
    rw [length_append, length_singleton, append_assoc, singleton_append] at hnext
    exact ⟨hnext.1, hnext.2.trans (by rw [Nat.add_right_comm, Nat.add_assoc])⟩

theorem counterLoop_unary (rest : List ℕ) (hprev : Unary τ prev done) (hrows : RowsUnary τ done rest rows) : Satisfies τ
    (counterLoop rest prev rows) ∧ Unary τ ((prev :: rows).getD rest.length []) (done ++ rest) := by
  induction rest generalizing done prev rows with
  | nil =>
    cases rows with
    | nil =>
      rw [append_nil]
      exact ⟨by simp [counterLoop, Satisfies], hprev⟩
    | cons row rows => cases hrows
  | cons input rest ih =>
    cases rows with
    | nil => cases hrows
    | cons row rows =>
      obtain ⟨hrow, hrows⟩ := hrows
      obtain ⟨hsat, hlast⟩ := ih hrow hrows
      rw [counterLoop, satisfies_append, length_cons, getD_cons_succ]
      rw [append_assoc, singleton_append] at hlast
      exact ⟨⟨unary_row hprev hrow, hsat⟩, hlast⟩

theorem sequential_exact (hinputs : Below nextVar inputs) (k : ℕ) :
    SaysAtMost inputs k nextVar (encodeSequentialCounter inputs k nextVar) := by
  rw [encodeSequentialCounter]
  by_cases hk : inputs.isEmpty ∨ inputs.length ≤ k
  · rw [if_pos hk]
    exact saysAtMost_nil (hk.elim (fun h => by simp [isEmpty_iff.mp h]) id)
  rw [if_neg hk]
  push Not at hk
  cases inputs with
  | nil => simp at hk
  | cons input rest =>
    have hone : min (0 + 1) (k + 1) = 1 := by omega
    have hrowsEq : counterRows k (input :: rest).length 0 nextVar =
        [posLit nextVar] :: counterRows k rest.length 1 (nextVar + 1) := by
      rw [length_cons, counterRows, hone]
      rfl
    have hassume : k < min (input :: rest).length (k + 1) := by omega
    simp only [hrowsEq, if_pos hassume]
    have hlast : (input :: rest).length - 1 = rest.length := by simp
    rw [hlast]
    intro σ
    simp only [mem_def, some.injEq, forall_eq', isTrue_neg, Bool.not_eq_true']
    constructor
    · rintro ⟨τ, hagree, hsat, hfalse⟩
      by_contra hcount
      rw [← trueCount_congr hagree hinputs] at hcount
      obtain ⟨hfirst, hloop⟩ := satisfies_append.mp hsat
      have hrow : Counted τ [posLit nextVar] [input] := by
        intro j lit hlit hj
        have hle : trueCount τ [input] ≤ 1 := trueCount_le
        obtain rfl : j = 0 := by omega
        cases hlit
        have htrue : isTrue τ input := TotalizerNode.trueCount_singleton.mp hj
        obtain ⟨l, hl, htruel⟩ := hfirst [neg input, posLit nextVar] (by simp)
        rcases mem_pair.mp hl with rfl | rfl
        · rw [isTrue_neg, htrue] at htruel
          cases htruel
        · exact htruel
      obtain ⟨hcounted, hlength⟩ := counterLoop_counted rest hrow (by simp) hloop
      simp only [length_cons, length_nil, Nat.zero_add] at hlength hcounted hk
      have hget := getElem?_eq_getElem (show k < (([posLit nextVar] ::
        counterRows k rest.length 1 (nextVar + 1)).getD rest.length []).length by omega)
      have htrue := hcounted k _ hget (by simpa using hcount)
      rw [getD_eq_getElem?_getD, hget, getD_some, htrue] at hfalse
      cases hfalse
    · intro hcount
      have hnil : Below nextVar [] := fun lit hlit => nomatch hlit
      obtain ⟨τ, hagree, hrows⟩ := counterRows_unary (k := k) (input :: rest) hnil hinputs σ
      rw [length_nil, hrowsEq] at hrows
      obtain ⟨hrow, hrows⟩ := hrows
      rw [nil_append] at hrow hrows
      obtain ⟨hsat, hlast⟩ := counterLoop_unary rest hrow hrows
      have hfirst : τ nextVar = isTrue τ input := by
        have hmeaning := (hrow 0 _ rfl).trans TotalizerNode.trueCount_singleton
        rw [isTrue_posLit] at hmeaning
        exact Bool.eq_iff_iff.mpr hmeaning
      have hcounted : Counted τ [posLit nextVar] [input] := fun j lit hlit => (hrow j lit hlit).mpr
      obtain ⟨-, hlength⟩ := counterLoop_counted rest hcounted (by simp) hsat
      simp only [length_cons, length_nil, Nat.zero_add] at hlength hk
      refine ⟨τ, hagree, satisfies_append.mpr ⟨?_, hsat⟩, ?_⟩
      · have hout : isTrue τ (posLit nextVar) = isTrue τ input := isTrue_posLit.trans hfirst
        intro c hc
        rcases mem_pair.mp hc with rfl | rfl
        · cases htrue : isTrue τ input with
          | true => exact ⟨input, by simp, htrue⟩
          | false => exact ⟨neg (posLit nextVar), by simp, by rw [isTrue_neg, hout, htrue]; rfl⟩
        · cases htrue : isTrue τ input with
          | true => exact ⟨posLit nextVar, by simp, hout.trans htrue⟩
          | false => exact ⟨neg input, by simp, by rw [isTrue_neg, htrue]; rfl⟩
      · have hget := getElem?_eq_getElem (show k < (([posLit nextVar] ::
          counterRows k rest.length 1 (nextVar + 1)).getD rest.length []).length by omega)
        have hmeaning := hlast k _ hget
        rw [singleton_append, trueCount_congr hagree hinputs] at hmeaning
        rw [getD_eq_getElem?_getD, hget, getD_some]
        exact Bool.eq_false_iff.mpr fun h => absurd (hmeaning.mp h) (by omega)

end

section

variable {r : List (List ℕ) × Option ℕ × ℕ} {prev : List ℕ} {rows : List (List ℕ)} {input : ℕ}

structure IsWords (r : List (List ℕ) × Option ℕ × ℕ) : Prop where
  clauses : ∀ c ∈ r.1, ∀ lit ∈ c, IsWord lit
  assumption : ∀ a ∈ r.2.1, IsWord a

theorem IsWords.cut (h : IsWords r) : cut r = r := by
  have hassumption : r.2.1.map word = r.2.1 := by
    refine map_congr (g := id) (fun a ha => word_eq (h.assumption a ha)) |>.trans map_id_apply
  rw [Opt.cut, map_map_word h.clauses, hassumption]

theorem isWords_pairwise (hwords : ∀ lit ∈ inputs, IsWord lit) :
    IsWords (encodeAtMostOnePairwise inputs, none, nextVar) := by
  refine ⟨?_, by simp⟩
  induction inputs with
  | nil => simp [encodeAtMostOnePairwise]
  | cons lit lits ih =>
    obtain ⟨hlit, hlits⟩ := forall_mem_cons.mp hwords
    refine forall_mem_append.mpr ⟨forall_mem_map.mpr fun other hother => ?_, ih hlits⟩
    simp [isWord_neg hlit, isWord_neg (hlits other hother)]

theorem Totalizer.atMost_some {t : Totalizer} {a : ℕ} (h : t.atMost k = some a) :
    ∃ lit, t.root.output (k + 1) = some lit ∧ neg lit = a := by
  unfold atMost at h
  split at h
  · cases h
  · obtain ⟨lit, hlit, hneg⟩ := map_eq_some_iff.mp h
    rw [atLeast, if_neg (Nat.succ_ne_zero k)] at hlit
    split at hlit
    · cases hlit
    · exact ⟨lit, hlit, hneg⟩

theorem isWords_totalizer (hinputs : Below nextVar inputs) (hwords : ∀ lit ∈ inputs, IsWord lit)
    (hfresh : HasRoom nextVar ((new inputs nextVar).fresh (k + 1))) :
    IsWords (encodeTotalizer inputs k nextVar) := by
  have hnew := counts_new hinputs
  have hcounts := (hnew.ensureBound (k + 1)).1
  have hfits := hnew.fits_ensureBound (fits_new inputs nextVar) hfresh
  refine ⟨hcounts.isWord hfits, fun a ha => ?_⟩
  obtain ⟨lit, hlit, rfl⟩ := atMost_some ha
  exact isWord_neg (hcounts.isWord_output hfits hwords hlit)

theorem counterRows_below (rest i : ℕ) (nextVar : ℕ) : ∀ row ∈ counterRows k rest i nextVar,
    Below (nextVar + ((counterRows k rest i nextVar).map List.length).sum) row := by
  induction rest generalizing i nextVar with
  | zero => simp [counterRows]
  | succ rest ih =>
    simp only [counterRows, map_cons, sum_cons, freshRow_length, ← Nat.add_assoc]
    refine forall_mem_cons.mpr ⟨fun lit hlit => ?_, ih _ _⟩
    obtain ⟨j, hj⟩ := mem_iff_getElem?.mp hlit
    obtain ⟨hlt, rfl⟩ := freshRow_get hj
    rw [posLit_div_two]
    omega

theorem isWord_getD {lits : List ℕ} (h : ∀ lit ∈ lits, IsWord lit) (j : ℕ) : IsWord (lits.getD j 0) := by
  rw [getD_eq_getElem?_getD]
  cases hlit : lits[j]? with
  | none => exact Nat.two_pow_pos 32
  | some lit => exact h lit (mem_of_getElem? hlit)

theorem isWord_counterLoop (hwords : ∀ lit ∈ inputs, IsWord lit) (hprev : ∀ lit ∈ prev, IsWord lit)
    (hrows : ∀ row ∈ rows, ∀ lit ∈ row, IsWord lit) :
    ∀ c ∈ counterLoop inputs prev rows, ∀ lit ∈ c, IsWord lit := by
  induction inputs generalizing prev rows with
  | nil => simp [counterLoop]
  | cons input inputs ih =>
    cases rows with
    | nil => simp [counterLoop]
    | cons curr rows =>
      obtain ⟨hinput, hinputs⟩ := forall_mem_cons.mp hwords
      obtain ⟨hcurr, hrows⟩ := forall_mem_cons.mp hrows
      refine forall_mem_append.mpr ⟨fun c hc lit hlit => ?_, ih hinputs hcurr hrows⟩
      obtain ⟨j, -, hc⟩ := mem_flatMap.mp hc
      have hp := isWord_getD hprev
      have ho := isWord_getD hcurr
      unfold counterClauses at hc
      grind [isWord_neg]

theorem isWords_sequential (hwords : ∀ lit ∈ inputs, IsWord lit)
    (hfresh : HasRoom nextVar (freshVars inputs k nextVar .sequential)) :
    IsWords (encodeSequentialCounter inputs k nextVar) := by
  rw [encodeSequentialCounter]
  by_cases hk : inputs.isEmpty ∨ inputs.length ≤ k
  · rw [if_pos hk]
    exact ⟨by simp, by simp⟩
  rw [if_neg hk]
  push Not at hk
  have hbelow := counterRows_below (k := k) inputs.length 0 nextVar
  simp only [freshVars, if_neg hk.2.not_ge] at hfresh
  generalize hs : counterRows k inputs.length 0 nextVar = s at hfresh hbelow
  have hrows : ∀ row ∈ s, ∀ lit ∈ row, IsWord lit := by
    intro row hrow lit hlit
    refine isWord_of_below (hbelow row hrow lit hlit) (hfresh ?_)
    exact List.sum_pos_iff_exists_pos_nat.mpr ⟨_, List.mem_map_of_mem hrow, List.length_pos_of_mem hlit⟩
  refine ⟨?_, fun a ha => ?_⟩
  · cases inputs with
    | nil => simp
    | cons input rest =>
      obtain ⟨hinput, hrest⟩ := forall_mem_cons.mp hwords
      cases s with
      | nil => simp
      | cons first rows =>
        cases first with
        | nil => simp
        | cons out row =>
          obtain ⟨hfirst, hrows⟩ := forall_mem_cons.mp hrows
          have hout := hfirst out mem_cons_self
          refine forall_mem_append.mpr ⟨?_, isWord_counterLoop hrest hfirst hrows⟩
          simp [hinput, hout, isWord_neg]
  · dsimp only at ha
    rw [if_pos (by omega)] at ha
    obtain rfl := some.inj ha
    refine isWord_neg (isWord_getD ?_ k)
    rw [getD_eq_getElem?_getD]
    cases hrow : s[inputs.length - 1]? with
    | none => simp
    | some row => exact hrows row (mem_of_getElem? hrow)

end

end Nixie.Opt
