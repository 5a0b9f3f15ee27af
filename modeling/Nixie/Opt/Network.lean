import Nixie.Opt.CardinalityExact

/-!
The sorting network as it is encoded.  The third clause of the smaller output of a comparator has its
literal negated: with the two others it makes that output false.
-/

namespace Nixie.Opt

open Literal Nixie.Sat List Function CardinalityNetwork

variable {σ τ : ℕ → Bool} {e e' e'' : Emitted} {n a b : ℕ} {left right odd even result : List ℕ}

def Emitted.Valid (e : Emitted) : Prop := ∀ c ∈ e.clauses, Below e.nextVar c

structure Wired (e e' : Emitted) : Prop where
  nextVar : e.nextVar ≤ e'.nextVar
  clauses : e.clauses <+: e'.clauses
  valid : e'.Valid
  continues : ∀ τ, Satisfies τ e.clauses → ∃ τ', Agree e.nextVar τ τ' ∧ Satisfies τ' e'.clauses

theorem Wired.refl (h : e.Valid) : Wired e e := ⟨le_rfl, prefix_rfl, h, fun τ hτ => ⟨τ, fun _ _ => rfl, hτ⟩⟩

theorem Wired.trans (h : Wired e e') (h' : Wired e' e'') : Wired e e'' where
  nextVar := h.nextVar.trans h'.nextVar
  clauses := h.clauses.trans h'.clauses
  valid := h'.valid
  continues τ hτ := by
    obtain ⟨τ', hagree, hτ'⟩ := h.continues τ hτ
    obtain ⟨τ'', hagree', hτ''⟩ := h'.continues τ' hτ'
    exact ⟨τ'', hagree.trans h.nextVar hagree', hτ''⟩

theorem Wired.satisfies (h : Wired e e') (hsat : Satisfies τ e'.clauses) : Satisfies τ e.clauses :=
  fun c hc => hsat c (h.clauses.subset hc)

theorem satisfies_comparator {x y : ℕ} : Satisfies τ [[neg
    (posLit x), a, b], [neg a, posLit x], [neg b, posLit x], [neg a, neg b, neg (posLit y)], [neg (posLit y), a], [neg
    (posLit y), b]] ↔ τ x = (isTrue τ a || isTrue τ b) ∧ τ y = false := by
  simp only [Satisfies, forall_mem_cons, not_mem_nil, IsEmpty.forall_iff, implies_true, and_true]
  simp only [mem_cons, not_mem_nil, or_false, exists_eq_or_imp, exists_eq_left, isTrue_neg, isTrue_posLit]
  cases isTrue τ a <;> cases isTrue τ b <;> cases τ x <;> cases τ y <;> simp

theorem comparator_wired (he : e.Valid) (ha : a / 2 < e.nextVar) (hb : b / 2 < e.nextVar) :
    Wired e (comparator a b e).2 ∧ Below (comparator a b e).2.nextVar (comparator a b e).1 := by
  refine ⟨⟨Nat.le_add_right _ 2, prefix_append _ _, forall_mem_append.mpr ⟨?_, ?_⟩, fun τ hτ => ?_⟩, ?_⟩
  · exact fun c hc lit hlit => (he c hc lit hlit).trans_le (Nat.le_add_right _ 2)
  · simp only [comparator, Below, forall_mem_cons, neg_div_two, posLit_div_two, not_mem_nil,
      IsEmpty.forall_iff, implies_true, and_true]
    omega
  · -- the larger output is the disjunction, the smaller one false
    have hagree : Agree e.nextVar τ (update (update τ e.nextVar
        (isTrue τ a || isTrue τ b)) (e.nextVar + 1) false) := fun v hv => by
      rw [update_of_ne (by omega), update_of_ne (by omega)]
    refine ⟨_, hagree, satisfies_append.mpr ⟨hτ.congr hagree he, (satisfies_comparator).mpr ⟨?_, ?_⟩⟩⟩
    · rw [update_of_ne (by omega), update_self, isTrue_congr hagree ha, isTrue_congr hagree hb]
    · exact update_self ..
  · simp only [comparator, Below, forall_mem_cons, posLit_div_two, not_mem_nil,
      IsEmpty.forall_iff, implies_true, and_true]
    omega

theorem comparator_value (h : Satisfies τ (comparator a b e).2.clauses) : ∃ larger smaller, (comparator a b e).1 =
    [larger, smaller] ∧ isTrue τ smaller = false ∧ (isTrue τ larger ↔ isTrue τ a ∨ isTrue τ b) := by
  obtain ⟨hlarger, hsmaller⟩ := (satisfies_comparator).mp (satisfies_append.mp h).2
  refine ⟨_, _, rfl, isTrue_posLit.trans hsmaller, ?_⟩
  rw [isTrue_posLit, hlarger, Bool.or_eq_true]

def AnyTrue (τ : ℕ → Bool) (lits : List ℕ) : Prop := ∃ lit ∈ lits, isTrue τ lit

def TailFalse (τ : ℕ → Bool) (lits : List ℕ) : Prop := ∀ lit ∈ lits.tail, isTrue τ lit = false

theorem interleave_wired (maxPairs : ℕ) (is result : List ℕ) {e : Emitted} (he : e.Valid) (hodd : Below e.nextVar odd)
    (heven : Below e.nextVar even) (hresult : Below e.nextVar result)
    (his : ∀ i ∈ is, i + 1 < odd.length → i + 1 < maxPairs) :
    Wired e (interleave maxPairs odd even is result e).2 ∧
    Below (interleave maxPairs odd even is result e).2.nextVar (interleave maxPairs odd even is result e).1 ∧
    (interleave maxPairs odd even is result e).1.length =
    result.length + (is.countP (· < even.length) + is.countP (· + 1 < odd.length)) ∧
    ∀ τ, Satisfies τ (interleave maxPairs odd even is result e).2.clauses → (∀ lit ∈ even, isTrue τ lit = false) →
    TailFalse τ odd → ∃ added, (interleave maxPairs odd even is result e).1 = result ++ added ∧
    ∀ lit ∈ added, isTrue τ lit = false := by
  induction is generalizing result e with
  | nil => exact ⟨.refl he, hresult, by simp [interleave], fun τ _ _ _ => ⟨[], by simp [interleave], by simp⟩⟩
  | cons i is ih =>
    obtain ⟨hi, his⟩ := forall_mem_cons.mp his
    have hget {lits : List ℕ} {j lit : ℕ} (h : lits[j]? = some lit) : lit ∈ lits := mem_of_getElem? h
    rw [interleave]
    cases ha : even[i]? with
    | some a =>
      have hlta := (List.getElem?_eq_some_iff.mp ha).1
      cases hb : odd[i + 1]? with
      | some b =>
        have hltb := (List.getElem?_eq_some_iff.mp hb).1
        obtain ⟨hwired, hbelow⟩ := comparator_wired he (heven a (hget ha)) (hodd b (hget hb))
        have hlit (j : ℕ) : ((comparator a b e).1.getD j 0) ∈ (comparator a b e).1 ∨
            (comparator a b e).1.length ≤ j := by
          by_cases hj : j < (comparator a b e).1.length
          · rw [getD_eq_getElem _ _ hj]
            exact .inl (getElem_mem hj)
          · exact .inr (by omega)
        have hlen : (comparator a b e).1.length = 2 := rfl
        have h0 := (hlit 0).resolve_right (by omega)
        have h1 := (hlit 1).resolve_right (by omega)
        simp only [if_pos (hi hltb)]
        have hmono : e.nextVar ≤ (comparator a b e).2.nextVar := hwired.nextVar
        have hfirst : Below (comparator a b e).2.nextVar
            (result ++ [(comparator a b e).1.getD 0 0] ++ [(comparator a b e).1.getD 1 0]) := by
          refine forall_mem_append.mpr ⟨forall_mem_append.mpr ⟨fun lit hlit => ?_, ?_⟩, ?_⟩
          · exact (hresult lit hlit).trans_le hmono
          · exact forall_mem_singleton.mpr (hbelow _ h0)
          · exact forall_mem_singleton.mpr (hbelow _ h1)
        obtain ⟨hrest, hbelow', hlength, hvalue⟩ := ih _ hwired.valid
          (fun lit hlit => (hodd lit hlit).trans_le hmono)
          (fun lit hlit => (heven lit hlit).trans_le hmono) hfirst his
        refine ⟨hwired.trans hrest, hbelow', ?_, fun τ hτ hevens hodds => ?_⟩
        · rw [hlength]
          simp only [countP_cons, decide_eq_true_eq, if_pos hlta, if_pos hltb, length_append, length_singleton]
          omega
        · obtain ⟨added, hadded, hfalse⟩ := hvalue τ hτ hevens hodds
          obtain ⟨larger, smaller, hpair, hsmaller, hlarger⟩ := comparator_value (hrest.satisfies hτ)
          have hfalsea := hevens a (hget ha)
          have hfalseb : isTrue τ b = false := by
            refine hodds b ?_
            rw [← getElem?_tail] at hb
            exact hget hb
          have hlargerFalse : isTrue τ larger = false := by
            rw [Bool.eq_false_iff, Ne, hlarger, hfalsea, hfalseb]
            simp
          refine ⟨larger :: smaller :: added, ?_, ?_⟩
          · rw [hadded, hpair, append_assoc, append_assoc]
            rfl
          · exact forall_mem_cons.mpr ⟨hlargerFalse, forall_mem_cons.mpr ⟨hsmaller, hfalse⟩⟩
      | none =>
        have hltb := getElem?_eq_none_iff.mp hb
        obtain ⟨hwired, hbelow, hlength, hvalue⟩ := ih (result ++ [a]) he hodd heven
          (forall_mem_append.mpr ⟨hresult, forall_mem_singleton.mpr (heven a (hget ha))⟩) his
        refine ⟨hwired, hbelow, ?_, fun τ hτ hevens hodds => ?_⟩
        · rw [hlength]
          simp only [countP_cons, decide_eq_true_eq, if_pos hlta,
            if_neg (show ¬ i + 1 < odd.length by omega), length_append, length_singleton]
          omega
        · obtain ⟨added, hadded, hfalse⟩ := hvalue τ hτ hevens hodds
          refine ⟨a :: added, by rw [hadded, append_assoc]; rfl, forall_mem_cons.mpr ⟨?_, hfalse⟩⟩
          exact hevens a (hget ha)
    | none =>
      have hlta := getElem?_eq_none_iff.mp ha
      cases hb : odd[i + 1]? with
      | some b =>
        have hltb := (List.getElem?_eq_some_iff.mp hb).1
        obtain ⟨hwired, hbelow, hlength, hvalue⟩ := ih (result ++ [b]) he hodd heven
          (List.forall_mem_append.mpr ⟨hresult, List.forall_mem_singleton.mpr (hodd b (hget hb))⟩) his
        refine ⟨hwired, hbelow, ?_, fun τ hτ hevens hodds => ?_⟩
        · rw [hlength]
          simp only [countP_cons, decide_eq_true_eq, if_pos hltb,
            if_neg (show ¬ i < even.length by omega), length_append, length_singleton]
          omega
        · obtain ⟨added, hadded, hfalse⟩ := hvalue τ hτ hevens hodds
          refine ⟨b :: added, by rw [hadded, append_assoc]; rfl, forall_mem_cons.mpr ⟨?_, hfalse⟩⟩
          rw [← getElem?_tail] at hb
          exact hodds b (hget hb)
      | none =>
        have hltb := getElem?_eq_none_iff.mp hb
        obtain ⟨hwired, hbelow, hlength, hvalue⟩ := ih result he hodd heven hresult his
        refine ⟨hwired, hbelow, ?_, hvalue⟩
        rw [hlength]
        simp only [countP_cons, decide_eq_true_eq, if_neg (show ¬ i < even.length by omega),
          if_neg (show ¬ i + 1 < odd.length by omega)]
        omega

theorem interleave_nextVar (maxPairs : ℕ) (is result : List ℕ) (e : Emitted) :
    (interleave maxPairs odd even is result e).2.nextVar =
      e.nextVar + 2 * is.countP fun i => i < even.length ∧ i + 1 < odd.length := by
  induction is generalizing result e with
  | nil => rfl
  | cons i is ih =>
    rw [interleave, countP_cons]
    cases ha : even[i]? with
    | none =>
      have hle := getElem?_eq_none_iff.mp ha
      rw [if_neg (by simpa using fun h => absurd h hle.not_gt)]
      cases odd[i + 1]? <;> exact ih _ _
    | some a =>
      have hlt := (List.getElem?_eq_some_iff.mp ha).1
      cases hb : odd[i + 1]? with
      | none =>
        have hle := List.getElem?_eq_none_iff.mp hb
        rw [if_neg (by simpa using fun _ => hle)]
        exact ih _ _
      | some b =>
        have hlt' := (List.getElem?_eq_some_iff.mp hb).1
        rw [if_pos (by simpa using ⟨hlt, hlt'⟩)]
        refine (ih _ _).trans ?_
        change e.nextVar + 2 + _ = _
        omega

theorem countP_range_lt {m bound : ℕ} (h : bound ≤ m) : (List.range m).countP (· < bound) = bound := by
  induction m with
  | zero =>
    obtain rfl : bound = 0 := by omega
    rfl
  | succ m ih =>
    rw [range_succ, countP_append, countP_singleton]
    rcases Nat.lt_or_ge m bound with hlt | hle
    · obtain rfl : bound = m + 1 := by omega
      have hall : (List.range m).countP (· < m + 1) = m := by
        refine (countP_eq_length.mpr fun i hi => ?_).trans length_range
        have := mem_range.mp hi
        simp only [decide_eq_true_eq]
        omega
      rw [hall, if_pos (by simp)]
    · rw [ih hle, if_neg (by simpa using hle), Nat.add_zero]

theorem deinterleave_spec : ∀ lits : List ℕ,
    (deinterleave lits).1.length + (deinterleave lits).2.length = lits.length ∧
      (deinterleave lits).1.length ≤ (deinterleave lits).2.length + 1 ∧
      (deinterleave lits).2.length ≤ (deinterleave lits).1.length ∧
      (∀ lit ∈ (deinterleave lits).1, lit ∈ lits) ∧ (∀ lit ∈ (deinterleave lits).2, lit ∈ lits.tail) ∧
      (deinterleave lits).1.head? = lits.head? ∧ ∀ lit ∈ (deinterleave lits).1.tail, lit ∈ lits.tail
  | [] => by simp [deinterleave]
  | [a] => by simp [deinterleave]
  | a :: b :: rest => by
    obtain ⟨hlength, hle, hge, hodd, heven, -, -⟩ := deinterleave_spec rest
    have hmem (lit : ℕ) (h : lit ∈ (deinterleave rest).2) : lit ∈ rest := mem_of_mem_tail (heven lit h)
    simp only [deinterleave, length_cons, tail_cons, head?_cons]
    refine ⟨by omega, by omega, by omega, ?_, ?_, trivial, fun lit hlit => mem_cons_of_mem _ (hodd lit hlit)⟩
    · exact forall_mem_cons.mpr ⟨mem_cons_self, fun lit hlit => mem_cons_of_mem _ (mem_cons_of_mem _ (hodd lit hlit))⟩
    · exact forall_mem_cons.mpr ⟨mem_cons_self, fun lit hlit => mem_cons_of_mem _ (hmem lit hlit)⟩

/-- A wired result with one output for each input: on inputs with false tails, only the first output can
be true, and it is their disjunction. -/
structure Flattens (e e' : Emitted) (inputs result : List ℕ) (vars : ℕ) (flat : (ℕ → Bool) → Prop) : Prop where
  wired : Wired e e'
  nextVar : e'.nextVar = e.nextVar + vars
  below : Below e'.nextVar result
  length : result.length = inputs.length
  value : ∀ τ, Satisfies τ e'.clauses → flat τ → TailFalse τ result ∧ (AnyTrue τ result ↔ AnyTrue τ inputs)

variable {lits : List ℕ}

theorem anyTrue_append {lits' : List ℕ} : AnyTrue τ (lits ++ lits') ↔ AnyTrue τ lits ∨ AnyTrue τ lits' := by
  simp only [AnyTrue, mem_append, or_and_right, exists_or]

theorem not_anyTrue (h : ∀ lit ∈ lits, isTrue τ lit = false) : ¬ AnyTrue τ lits := by
  rintro ⟨lit, hlit, htrue⟩
  rw [h lit hlit] at htrue
  cases htrue

theorem anyTrue_deinterleave (h : TailFalse τ lits) : AnyTrue τ (deinterleave lits).1 ↔ AnyTrue τ lits := by
  obtain ⟨-, -, -, hodd, -, hhead, -⟩ := deinterleave_spec lits
  constructor
  · rintro ⟨lit, hlit, htrue⟩
    exact ⟨lit, hodd lit hlit, htrue⟩
  · rintro ⟨lit, hlit, htrue⟩
    cases lits with
    | nil => cases hlit
    | cons a rest =>
      rcases mem_cons.mp hlit with rfl | hlit
      · exact ⟨lit, mem_of_mem_head? hhead, htrue⟩
      · rw [h lit hlit] at htrue
        cases htrue

theorem oddEvenMerge_succ (fuel : ℕ) (h : 3 ≤ left.length + right.length) :
    oddEvenMerge (fuel + 1) left right e =
      (let mergedOdd := oddEvenMerge fuel (deinterleave left).1 (deinterleave right).1 e
       let mergedEven := oddEvenMerge fuel (deinterleave left).2 (deinterleave right).2 mergedOdd.2
       let maxPairs := max mergedOdd.1.length mergedEven.1.length
       let merged := interleave maxPairs mergedOdd.1 mergedEven.1 (List.range maxPairs) (mergedOdd.1.take 1)
         mergedEven.2
       (merged.1.take (left.length + right.length), merged.2)) := by
  match left, right, h with
  | [], _ :: _ :: _ :: _, _ => rfl
  | [_], _ :: _ :: _, _ => rfl
  | [_, _], _ :: _, _ => rfl
  | _ :: _ :: _ :: _, _ :: _, _ => rfl
  | _ :: _ :: _ :: _, [], _ => rfl

theorem flattens_refl (he : e.Valid) {inputs : List ℕ} (hinputs : Below e.nextVar inputs)
    {flat : (ℕ → Bool) → Prop} (hflat : ∀ τ, flat τ → TailFalse τ inputs) : Flattens e e inputs inputs 0 flat :=
  ⟨.refl he, rfl, hinputs, rfl, fun τ _ h => ⟨hflat τ h, Iff.rfl⟩⟩

theorem flattens_comparator (he : e.Valid) (ha : a / 2 < e.nextVar) (hb : b / 2 < e.nextVar)
    (flat : (ℕ → Bool) → Prop) : Flattens e (comparator a b e).2 [a, b] (comparator a b e).1 2 flat := by
  obtain ⟨hwired, hbelow⟩ := comparator_wired he ha hb
  refine ⟨hwired, rfl, hbelow, rfl, fun τ hτ _ => ?_⟩
  obtain ⟨larger, smaller, hpair, hsmaller, hlarger⟩ := comparator_value hτ
  rw [hpair]
  refine ⟨forall_mem_singleton.mpr hsmaller, ?_⟩
  simp only [AnyTrue, mem_cons, not_mem_nil, or_false, exists_eq_or_imp, exists_eq_left, hlarger,
    hsmaller, Bool.false_eq_true]

theorem oddEvenMerge_flattens (fuel : ℕ) {e : Emitted} (he : e.Valid) (hleft : Below e.nextVar left)
    (hright : Below e.nextVar right) (hfuel : left.length + right.length ≤ fuel) :
    Flattens e (oddEvenMerge fuel left right e).2 (left ++ right) (oddEvenMerge fuel left right e).1
      (mergeVars fuel left.length right.length) fun τ => TailFalse τ left ∧ TailFalse τ right := by
  induction fuel generalizing left right e with
  | zero =>
    obtain rfl : left = [] := length_eq_zero_iff.mp (by omega)
    obtain rfl : right = [] := length_eq_zero_iff.mp (by omega)
    exact flattens_refl he hleft fun τ h => h.1
  | succ fuel ih =>
    by_cases hlarge : 3 ≤ left.length + right.length
    · rw [oddEvenMerge_succ fuel hlarge]
      obtain ⟨hlenl, hdiffl, hgel, hoddl, hevenl, -, htaill⟩ := deinterleave_spec left
      obtain ⟨hlenr, hdiffr, hger, hoddr, hevenr, -, htailr⟩ := deinterleave_spec right
      have hodd := ih he (fun lit hlit => hleft lit (hoddl lit hlit)) (fun lit hlit => hright lit (hoddr lit hlit))
        (by omega)
      dsimp only
      generalize oddEvenMerge fuel (deinterleave left).1 (deinterleave right).1 e = mergedOdd at hodd ⊢
      have heven := ih hodd.wired.valid
        (fun lit hlit => (hleft lit (mem_of_mem_tail (hevenl lit hlit))).trans_le hodd.wired.nextVar)
        (fun lit hlit => (hright lit (mem_of_mem_tail (hevenr lit hlit))).trans_le hodd.wired.nextVar)
        (by omega)
      generalize oddEvenMerge fuel (deinterleave left).2 (deinterleave right).2 mergedOdd.2 = mergedEven at heven ⊢
      have hbelow : Below mergedEven.2.nextVar mergedOdd.1 :=
        fun lit hlit => (hodd.below lit hlit).trans_le heven.wired.nextVar
      obtain ⟨hwired, hresult, hlength, hvalue⟩ := interleave_wired
        (max mergedOdd.1.length mergedEven.1.length) (List.range (max mergedOdd.1.length mergedEven.1.length))
        (mergedOdd.1.take 1) heven.wired.valid hbelow heven.below
        (fun lit hlit => hbelow lit (mem_of_mem_take hlit)) (fun i _ hi => by omega)
      have hsum := hodd.length
      have hsum' := heven.length
      rw [length_append] at hsum hsum'
      have hcount : (List.range (max mergedOdd.1.length mergedEven.1.length)).countP
          (· + 1 < mergedOdd.1.length) = mergedOdd.1.length - 1 := by
        rw [← countP_range_lt (show mergedOdd.1.length - 1 ≤ max mergedOdd.1.length mergedEven.1.length by omega)]
        refine countP_congr fun i _ => ?_
        simp only [decide_eq_true_eq]
        omega
      rw [countP_range_lt (by omega), hcount, length_take] at hlength
      have hall : (interleave (max mergedOdd.1.length mergedEven.1.length) mergedOdd.1 mergedEven.1
          (List.range (max mergedOdd.1.length mergedEven.1.length)) (mergedOdd.1.take 1) mergedEven.2).1.length =
            left.length + right.length := by omega
      rw [take_of_length_le hall.le]
      have hcompared : (List.range (max mergedOdd.1.length mergedEven.1.length)).countP
          (fun i => i < mergedEven.1.length ∧ i + 1 < mergedOdd.1.length) =
            min mergedEven.1.length (mergedOdd.1.length - 1) := by
        rw [← countP_range_lt (show min mergedEven.1.length (mergedOdd.1.length - 1) ≤
          max mergedOdd.1.length mergedEven.1.length by omega)]
        refine countP_congr fun i _ => ?_
        simp only [decide_eq_true_eq]
        omega
      have hhalves : (deinterleave left).1.length = (left.length + 1) / 2 ∧
          (deinterleave left).2.length = left.length / 2 ∧
          (deinterleave right).1.length = (right.length + 1) / 2 ∧
          (deinterleave right).2.length = right.length / 2 := by omega
      obtain ⟨h1, h2, h3, h4⟩ := hhalves
      refine ⟨(hodd.wired.trans heven.wired).trans hwired, ?_, hresult, by rw [hall, length_append],
        fun τ hτ hflat => ?_⟩
      · rw [interleave_nextVar, hcompared, hsum, hsum', heven.nextVar, hodd.nextVar, mergeVars, if_neg (by omega),
          h1, h2, h3, h4]
        omega
      obtain ⟨hflatl, hflatr⟩ := hflat
      have hfalse : ∀ lit ∈ (deinterleave left).2 ++ (deinterleave right).2, isTrue τ lit = false :=
        forall_mem_append.mpr
          ⟨fun lit hlit => hflatl lit (hevenl lit hlit), fun lit hlit => hflatr lit (hevenr lit hlit)⟩
      have hsatEven := hwired.satisfies hτ
      obtain ⟨hoddFlat, hoddAny⟩ := hodd.value τ (heven.wired.satisfies hsatEven)
        ⟨fun lit hlit => hflatl lit (htaill lit hlit), fun lit hlit => hflatr lit (htailr lit hlit)⟩
      obtain ⟨-, hevenAny⟩ := heven.value τ hsatEven
        ⟨fun lit hlit => hfalse lit (mem_append_left _ (mem_of_mem_tail hlit)),
          fun lit hlit => hfalse lit (mem_append_right _ (mem_of_mem_tail hlit))⟩
      have hevenFalse : ∀ lit ∈ mergedEven.1, isTrue τ lit = false := by
        intro lit hlit
        by_contra htrue
        exact not_anyTrue hfalse (hevenAny.mp ⟨lit, hlit, by simpa using htrue⟩)
      obtain ⟨added, hadded, haddedFalse⟩ := hvalue τ hτ hevenFalse hoddFlat
      rw [anyTrue_append, anyTrue_deinterleave hflatl, anyTrue_deinterleave hflatr, ← anyTrue_append] at hoddAny
      rw [hadded, ← hoddAny]
      cases hfirst : mergedOdd.1 with
      | nil => exact ⟨fun lit hlit => haddedFalse lit (mem_of_mem_tail hlit),
          iff_of_false (not_anyTrue haddedFalse) (by simp [AnyTrue])⟩
      | cons a rest =>
        rw [hfirst] at hoddFlat
        refine ⟨fun lit hlit => haddedFalse lit (by simpa using hlit), ?_⟩
        rw [anyTrue_append, show a :: rest = [a] ++ rest from rfl, anyTrue_append]
        exact or_congr Iff.rfl (iff_of_false (not_anyTrue haddedFalse) (not_anyTrue hoddFlat))
    · match left, right, hlarge with
      | [], [], _ => exact flattens_refl he hleft fun τ h => h.1
      | [a], [], _ => exact flattens_refl he hleft fun τ h => h.1
      | [], [b], _ => exact flattens_refl he hright fun τ h => h.2
      | [a], [b], _ =>
        exact flattens_comparator he (hleft a mem_cons_self) (hright b mem_cons_self) _
      | [a, b], [], _ => exact flattens_refl he hleft fun τ h => h.1
      | [], [a, b], _ => exact flattens_refl he hright fun τ h => h.2
      | _ :: _ :: _, _ :: _, h => simp only [length_cons] at h; omega
      | _ :: _ :: _ :: _, [], h => simp only [length_cons] at h; omega
      | [], _ :: _ :: _ :: _, h => simp only [length_cons] at h; omega
      | [_], _ :: _ :: _, h => simp only [length_cons] at h; omega

theorem mergeVars_pos (fuel : ℕ) {l r : ℕ} (hl : 0 < l) (hr : 0 < r) (hfuel : l + r ≤ fuel) :
    0 < mergeVars fuel l r := by
  induction fuel generalizing l r with
  | zero => omega
  | succ fuel ih =>
    rw [mergeVars]
    split_ifs with hsmall hone
    · exact Nat.two_pos
    · omega
    · have := ih (show 0 < (l + 1) / 2 by omega) (show 0 < (r + 1) / 2 by omega) (by omega)
      omega

section

theorem buildSortingNetwork_flattens (fuel : ℕ) {inputs : List ℕ} {e : Emitted} (he : e.Valid)
    (hinputs : Below e.nextVar inputs) (hfuel : inputs.length ≤ fuel) :
    Flattens e (buildSortingNetwork fuel inputs e).2 inputs (buildSortingNetwork fuel inputs e).1
      (sortVars fuel inputs.length) fun _ => True := by
  induction fuel generalizing inputs e with
  | zero =>
    obtain rfl : inputs = [] := length_eq_zero_iff.mp (by omega)
    exact flattens_refl he hinputs fun τ _ lit hlit => nomatch hlit
  | succ fuel ih =>
    match inputs with
    | [] => exact flattens_refl he hinputs fun τ _ lit hlit => nomatch hlit
    | [a] => exact flattens_refl he hinputs fun τ _ lit hlit => nomatch hlit
    | a :: b :: rest =>
      have hbuild : buildSortingNetwork (fuel + 1) (a :: b :: rest) e =
          (let mid := (a :: b :: rest).length / 2
           let left := buildSortingNetwork fuel ((a :: b :: rest).take mid) e
           let right := buildSortingNetwork fuel ((a :: b :: rest).drop mid) left.2
           oddEvenMerge (left.1.length + right.1.length) left.1 right.1 right.2) := rfl
      rw [hbuild]
      generalize hlist : a :: b :: rest = lits at hinputs hfuel
      have htwo : 2 ≤ lits.length := by simp [← hlist]
      dsimp only
      have hleft := ih he (fun lit hlit => hinputs lit (mem_of_mem_take hlit))
        (show (lits.take (lits.length / 2)).length ≤ fuel by rw [length_take]; omega)
      generalize buildSortingNetwork fuel (lits.take (lits.length / 2)) e = left at hleft ⊢
      have hright := ih hleft.wired.valid
        (fun lit hlit => (hinputs lit (mem_of_mem_drop hlit)).trans_le hleft.wired.nextVar)
        (show (lits.drop (lits.length / 2)).length ≤ fuel by rw [length_drop]; omega)
      generalize buildSortingNetwork fuel (lits.drop (lits.length / 2)) left.2 = right at hright ⊢
      have hmerge := oddEvenMerge_flattens (left.1.length + right.1.length) hright.wired.valid
        (fun lit hlit => (hleft.below lit hlit).trans_le hright.wired.nextVar) hright.below le_rfl
      have hlength : left.1.length + right.1.length = lits.length := by
        rw [hleft.length, hright.length, ← length_append, take_append_drop]
      refine ⟨(hleft.wired.trans hright.wired).trans hmerge.wired, ?_, hmerge.below, ?_, fun τ hτ _ => ?_⟩
      · rw [hmerge.nextVar, hright.nextVar, hleft.nextVar, sortVars, if_neg (by omega), hlength, hleft.length,
          hright.length, length_take, length_drop, min_eq_left (Nat.div_le_self ..)]
        omega
      · rw [hmerge.length, length_append, hlength]
      · have hsat := hmerge.wired.satisfies hτ
        obtain ⟨hflatl, hanyl⟩ := hleft.value τ (hright.wired.satisfies hsat) trivial
        obtain ⟨hflatr, hanyr⟩ := hright.value τ hsat trivial
        obtain ⟨hflat, hany⟩ := hmerge.value τ hτ ⟨hflatl, hflatr⟩
        refine ⟨hflat, hany.trans ?_⟩
        rw [anyTrue_append, hanyl, hanyr, ← anyTrue_append, take_append_drop]

variable {inputs : List ℕ} {nextVar : ℕ}

theorem network_flattens (hinputs : Below nextVar inputs) :
    Flattens ⟨nextVar, []⟩ (new inputs nextVar).emitted inputs
      (new inputs nextVar).outputs (sortVars inputs.length inputs.length) fun _ => True :=
  buildSortingNetwork_flattens inputs.length (fun _ hc => nomatch hc) hinputs le_rfl

theorem anyTrue_iff {lits : List ℕ} : AnyTrue τ lits ↔ 0 < trueCount τ lits := countP_pos_iff.symm

theorem network_output (hinputs : Below nextVar inputs)
    (hτ : Satisfies τ (new inputs nextVar).emitted.clauses) {i lit : ℕ}
    (hlit : (new inputs nextVar).outputs[i]? = some lit) :
    isTrue τ lit ↔ i = 0 ∧ 0 < trueCount τ inputs := by
  obtain ⟨hflat, hany⟩ := (network_flattens hinputs).value τ hτ trivial
  rw [← anyTrue_iff, ← hany]
  cases i with
  | succ i =>
    rw [← getElem?_tail] at hlit
    simp [hflat lit (mem_of_getElem? hlit)]
  | zero =>
    generalize (new inputs nextVar).outputs = outputs at hlit hflat
    cases outputs with
    | nil => cases hlit
    | cons larger rest =>
      cases hlit
      constructor
      · exact fun h => ⟨rfl, lit, mem_cons_self, h⟩
      · rintro ⟨-, other, hother, htrue⟩
        rcases mem_cons.mp hother with rfl | hother
        · exact htrue
        · rw [hflat other hother] at htrue
          cases htrue

/-- Output `i` says that at least `i + 1` inputs are true, and there is one output for each input. -/
structure NetworkCounts (inputs : List ℕ) (net : CardinalityNetwork) : Prop where
  length : net.outputs.length = inputs.length
  output : ∀ τ, Satisfies τ net.emitted.clauses → ∀ i lit, net.outputs[i]? = some lit →
    (isTrue τ lit ↔ i + 1 ≤ trueCount τ inputs)

theorem networkCounts_iff (hinputs : Below nextVar inputs) :
    NetworkCounts inputs (.new inputs nextVar) ↔ ∀ σ, trueCount σ inputs ≤ 1 := by
  have hflattens := network_flattens hinputs
  constructor
  · intro h σ
    by_contra hcount
    obtain ⟨τ, hagree, hτ⟩ := hflattens.wired.continues σ (by simp [Satisfies])
    have hlt : 1 < (new inputs nextVar).outputs.length := by
      have hle : trueCount σ inputs ≤ inputs.length := trueCount_le
      rw [h.length]
      omega
    have hget := getElem?_eq_getElem hlt
    have htrue := (h.output τ hτ 1 _ hget).mpr (by rw [trueCount_congr hagree hinputs]; omega)
    exact absurd ((network_output hinputs hτ hget).mp htrue).1 (by omega)
  · intro h
    refine ⟨hflattens.length, fun τ hτ i lit hlit => ?_⟩
    rw [network_output hinputs hτ hlit]
    have hle := h τ
    omega

theorem sorted_exact_iff (hinputs : Below nextVar inputs) (k : ℕ) :
    SaysAtMost inputs k nextVar (encodeSorted inputs k nextVar) ↔ k = 0 ∨ ∀ σ, trueCount σ inputs ≤ k := by
  rw [encodeSorted]
  by_cases hk : inputs.isEmpty ∨ inputs.length ≤ k
  · rw [if_pos hk]
    have hle : inputs.length ≤ k := hk.elim (fun h => by simp [isEmpty_iff.mp h]) id
    exact iff_of_true (saysAtMost_nil hle) (.inr fun σ => trueCount_le.trans hle)
  rw [if_neg hk]
  push Not at hk
  have hflattens := network_flattens hinputs
  obtain ⟨lit, hget⟩ : ∃ lit, (new inputs nextVar).outputs[k]? = some lit :=
    ⟨_, getElem?_eq_getElem (by rw [hflattens.length]; exact hk.2)⟩
  have hassumption : (new inputs nextVar).atMost k = some (neg lit) := by
    rw [atMost, hget]
    rfl
  simp only [SaysAtMost, hassumption, Option.mem_def, Option.some.injEq, forall_eq', isTrue_neg, Bool.not_eq_true']
  constructor
  · intro h
    by_contra hbad
    push Not at hbad
    obtain ⟨hpos, σ, hσ⟩ := hbad
    obtain ⟨τ, hagree, hτ⟩ := hflattens.wired.continues σ (by simp [Satisfies])
    refine absurd ((h σ).mp ⟨τ, hagree, hτ, ?_⟩) (by omega)
    rw [Bool.eq_false_iff, Ne, network_output hinputs hτ hget]
    omega
  · intro h σ
    obtain ⟨τ, hagree, hτ⟩ := hflattens.wired.continues σ (by simp [Satisfies])
    constructor
    · rintro ⟨τ', hagree', hτ', hfalse⟩
      rcases h with rfl | h
      · rw [Bool.eq_false_iff, Ne, network_output hinputs hτ' hget, trueCount_congr hagree' hinputs] at hfalse
        omega
      · exact h σ
    · intro hcount
      refine ⟨τ, hagree, hτ, ?_⟩
      rw [Bool.eq_false_iff, Ne, network_output hinputs hτ hget, trueCount_congr hagree hinputs]
      omega

theorem sortVars_pos {n : ℕ} (h : 1 < n) : 0 < sortVars n n := by
  obtain ⟨m, rfl⟩ := Nat.exists_eq_add_of_lt h
  rw [sortVars, if_neg (by omega)]
  exact Nat.add_pos_right _ (mergeVars_pos _ (by omega) (by omega) (by omega))

theorem isWord_network (hinputs : Below nextVar inputs) (hwords : ∀ lit ∈ inputs, IsWord lit)
    (hroom : HasRoom nextVar (sortVars inputs.length inputs.length)) :
    (∀ c ∈ (new inputs nextVar).emitted.clauses, ∀ lit ∈ c, IsWord lit) ∧
      ∀ lit ∈ (new inputs nextVar).outputs, IsWord lit := by
  have hflattens := network_flattens hinputs
  rcases Nat.lt_or_ge 1 inputs.length with hlong | hshort
  · have hsmall := hflattens.nextVar.trans_le (hroom (sortVars_pos hlong))
    exact ⟨fun c hc lit hlit => isWord_of_below (hflattens.wired.valid c hc lit hlit) hsmall,
      fun lit hlit => isWord_of_below (hflattens.below lit hlit) hsmall⟩
  · match inputs, hwords, hshort with
    | [], _, _ => simp [new, buildSortingNetwork]
    | [a], hwords, _ => simpa [new, buildSortingNetwork] using hwords

theorem words_network (hinputs : Below nextVar inputs) (hwords : ∀ lit ∈ inputs, IsWord lit)
    (hroom : HasRoom nextVar (sortVars inputs.length inputs.length)) :
    (new inputs nextVar).words = .new inputs nextVar := by
  obtain ⟨hclauses, houtputs⟩ := isWord_network hinputs hwords hroom
  rw [words, map_map_word hclauses, map_word houtputs]

theorem isWords_sorted (hinputs : Below nextVar inputs) (hwords : ∀ lit ∈ inputs, IsWord lit)
    (hroom : HasRoom nextVar (freshVars inputs k nextVar .sorted)) : IsWords (encodeSorted inputs k nextVar) := by
  rw [encodeSorted]
  by_cases hk : inputs.isEmpty ∨ inputs.length ≤ k
  · rw [if_pos hk]
    exact ⟨by simp, by simp⟩
  rw [if_neg hk]
  push Not at hk
  rw [freshVars, if_neg hk.2.not_ge] at hroom
  obtain ⟨hclauses, houtputs⟩ := isWord_network hinputs hwords hroom
  refine ⟨hclauses, fun a ha => ?_⟩
  obtain ⟨lit, hlit, rfl⟩ := Option.map_eq_some_iff.mp ha
  exact isWord_neg (houtputs lit (mem_of_getElem? hlit))

/-- Which encodings say what they are asked for, as long as their variables fit: all but the two by a
sorting network, and these only where one comparison is enough or the bound cannot be passed. -/
theorem encodings_exact_iff (inputs : List ℕ) (nextVar : ℕ) (hinputs : Below nextVar inputs)
    (hwords : ∀ lit ∈ inputs, IsWord lit) : (∀ k encoding, HasRoom nextVar (freshVars inputs k nextVar encoding) →
    (SaysAtMost inputs k nextVar (encodeAtMostK inputs k encoding nextVar) ↔
    (encoding = .sorted ∨ encoding = .cardinalityNetwork → k = 0 ∨ ∀ σ, trueCount σ inputs ≤ k))) ∧
    (HasRoom nextVar (sortVars inputs.length inputs.length) →
    (NetworkCounts inputs (new inputs nextVar).words ↔ ∀ σ, trueCount σ inputs ≤ 1)) := by
  refine ⟨fun k encoding hroom => ?_, fun hroom => ?_⟩
  · cases encoding with
    | pairwise =>
      refine iff_of_true ?_ (by simp)
      rw [encodeAtMostK]
      by_cases hone : k = 1
      · subst hone
        rw [if_pos rfl, (isWords_pairwise hwords).cut]
        exact pairwise_exact hinputs
      · rw [freshVars, if_neg hone] at hroom
        rw [if_neg hone, (isWords_totalizer hinputs hwords hroom).cut]
        exact totalizer_exact hinputs k
    | sequential =>
      refine iff_of_true ?_ (by simp)
      rw [encodeAtMostK, (isWords_sequential hwords hroom).cut]
      exact sequential_exact hinputs k
    | totalizer =>
      refine iff_of_true ?_ (by simp)
      rw [encodeAtMostK, (isWords_totalizer hinputs hwords hroom).cut]
      exact totalizer_exact hinputs k
    | sorted =>
      rw [encodeAtMostK, (isWords_sorted hinputs hwords hroom).cut]
      simpa using sorted_exact_iff hinputs k
    | cardinalityNetwork =>
      rw [encodeAtMostK, (isWords_sorted hinputs hwords hroom).cut]
      simpa using sorted_exact_iff hinputs k
  · rw [words_network hinputs hwords hroom]
    exact networkCounts_iff hinputs

theorem encodings_exact_three : HasRoom 3 (freshVars [0, 2, 5] 1 3 .totalizer) ∧
    (SaysAtMost [0, 2, 5] 1 3 (encodeAtMostK [0, 2, 5] 1 .totalizer 3) ↔
    (CardinalityEncoding.totalizer = .sorted ∨ CardinalityEncoding.totalizer = .cardinalityNetwork → 1 = 0 ∨
    ∀ σ, trueCount σ [0, 2, 5] ≤ 1)) ∧ HasRoom 3 (sortVars 3 3) ∧
    (NetworkCounts [0, 2, 5] (new [0, 2, 5] 3).words ↔ ∀ σ, trueCount σ [0, 2, 5] ≤ 1) := by
  have hroom : HasRoom 3 (freshVars [0, 2, 5] 1 3 .totalizer) := by unfold HasRoom; decide
  have hsort : HasRoom 3 (sortVars 3 3) := by unfold HasRoom; decide
  have hexact := encodings_exact_iff [0, 2, 5] 3 (by simp [Below]) (by simp [IsWord])
  exact ⟨hroom, hexact.1 1 .totalizer hroom, hsort, hexact.2 hsort⟩

/-- At most one of two inputs by the network: two true inputs satisfy the clauses and the assumption. -/
theorem not_sorted_exact : ¬ SaysAtMost [0, 2] 1 2 (encodeAtMostK [0, 2] 1 .sorted 2) := by
  intro h
  refine absurd ((h fun _ => true).mp ⟨fun v => v ≠ 3, fun v hv => ?_, ?_, ?_⟩) (by decide)
  · simp only [ne_eq, decide_eq_true_eq]
    omega
  · simp only [Satisfies]
    decide
  · simp only [Option.mem_def]
    decide

end

end Nixie.Opt
