import Nixie.Sat.Cardinality

/-!
The encodings are exact: an assignment can be continued to the fresh variables if and only if it
meets the bound.
-/

namespace Nixie.Sat

open Nixie.Literal List

def trueCount (σ : ℕ → Bool) (lits : List ℕ) : ℕ := lits.countP (isTrue σ)

def Agree (n : ℕ) (σ τ : ℕ → Bool) : Prop := ∀ v < n, τ v = σ v

def Below (n : ℕ) (lits : List ℕ) : Prop := ∀ lit ∈ lits, lit / 2 < n

section

variable {σ τ : ℕ → Bool} {n m k : ℕ} {lits : List ℕ}

theorem trueCount_congr (hagree : Agree n σ τ) (hlits : Below n lits) : trueCount τ lits = trueCount σ lits :=
  countP_congr fun lit hlit => by rw [isTrue_congr hagree (hlits lit hlit)]

theorem trueCount_append {lits' : List ℕ} :
    trueCount σ (lits ++ lits') = trueCount σ lits + trueCount σ lits' := countP_append

theorem trueCount_le : trueCount σ lits ≤ lits.length := countP_le_length

theorem trueCount_map_neg : trueCount σ (lits.map neg) + trueCount σ lits = lits.length := by
  induction lits with
  | nil => rfl
  | cons lit lits ih =>
    have hcons : trueCount σ (neg lit :: lits.map neg) + trueCount σ (lit :: lits) =
        trueCount σ (lits.map neg) + trueCount σ lits + 1 := by
      simp only [trueCount, countP_cons, isTrue_neg]
      cases isTrue σ lit <;> simp <;> omega
    rw [map_cons, hcons, ih, length_cons]

theorem Agree.trans {ρ : ℕ → Bool} (h : Agree n σ τ) (hnm : n ≤ m) (h' : Agree m τ ρ) :
    Agree n σ ρ := fun v hv => (h' v (by omega)).trans (h v hv)

end

structure Encodes (f g : Cnf) (meets : (ℕ → Bool) → Prop) (added : List (List ℕ)) : Prop where
  numVars : f.numVars ≤ g.numVars
  clauses : g.clauses = f.clauses ++ added
  below : ∀ c ∈ added, Below g.numVars c
  sound : ∀ τ, Satisfies τ added → meets τ
  complete : ∀ σ, meets σ → ∃ τ, Agree f.numVars σ τ ∧ Satisfies τ added

section

variable {f g : Cnf} {added : List (List ℕ)} {meets : (ℕ → Bool) → Prop}

theorem Encodes.comp {h : Cnf} {meets' : (ℕ → Bool) → Prop} {added' : List (List ℕ)}
    (hfg : Encodes f g meets added) (hgh : Encodes g h meets' added')
    (hcongr : ∀ σ τ, Agree f.numVars σ τ → (meets' τ ↔ meets' σ)) :
    Encodes f h (fun σ => meets σ ∧ meets' σ) (added ++ added') where
  numVars := hfg.numVars.trans hgh.numVars
  clauses := by rw [hgh.clauses, hfg.clauses, append_assoc]
  below := forall_mem_append.mpr
    ⟨fun c hc lit hlit => (hfg.below c hc lit hlit).trans_le hgh.numVars, hgh.below⟩
  sound τ hsat :=
    ⟨hfg.sound τ (satisfies_append.mp hsat).1, hgh.sound τ (satisfies_append.mp hsat).2⟩
  complete := by
    rintro σ ⟨hσ, hσ'⟩
    obtain ⟨τ, hagree, hsat⟩ := hfg.complete σ hσ
    obtain ⟨ρ, hagree', hsat'⟩ := hgh.complete τ ((hcongr σ τ hagree).mpr hσ')
    exact ⟨ρ, hagree.trans hfg.numVars hagree', satisfies_append.mpr ⟨hsat.congr hagree' hfg.below, hsat'⟩⟩

def Exact (f : Cnf) (result : Cnf × Bool) (meets : (ℕ → Bool) → Prop) : Prop :=
  f.clauses <+: result.1.clauses ∧
    if result.2 then
      ∀ σ, (∃ τ, Agree f.numVars σ τ ∧ Satisfies τ (result.1.clauses.drop f.clauses.length)) ↔ meets σ
    else ∀ σ, ¬ meets σ

theorem Encodes.exact (h : Encodes f g meets added) (hcongr : ∀ σ τ, Agree f.numVars σ τ → (meets τ ↔ meets σ)) :
    Exact f (g, true) meets := by
  refine ⟨⟨added, h.clauses.symm⟩, ?_⟩
  rw [if_pos rfl]
  intro σ
  rw [h.clauses, drop_left]
  constructor
  · rintro ⟨τ, hagree, hsat⟩
    exact (hcongr σ τ hagree).mp (h.sound τ hsat)
  · exact h.complete σ

theorem encodes_refl (hmeets : ∀ σ, meets σ) : Encodes f f meets [] :=
  ⟨le_rfl, by simp, by simp, fun τ _ => hmeets τ, fun σ _ => ⟨σ, fun _ _ => rfl, by simp [Satisfies]⟩⟩

theorem Exact.of_fail {result : Cnf × Bool} (hfail : ¬ result.2 = true) (hresult : result.1 = f)
    (hmeets : ∀ σ, ¬ meets σ) : Exact f result meets := by
  refine ⟨hresult ▸ prefix_rfl, ?_⟩
  rw [if_neg hfail]
  exact hmeets

end

namespace CardinalityEncoder

variable {f g : Cnf} {lits : List ℕ} {k bound : ℕ} {added : List (List ℕ)} {σ τ : ℕ → Bool}

theorem encodes_addClauses {meets : (ℕ → Bool) → Prop} (hbelow : ∀ c ∈ added, Below f.numVars c)
    (hmeets : ∀ σ, Satisfies σ added ↔ meets σ) : Encodes f (f.addClauses added) meets added := by
  rw [f.addClauses_eq]
  exact ⟨le_rfl, rfl, hbelow, fun τ => (hmeets τ).mp, fun σ h => ⟨σ, fun _ _ => rfl, (hmeets σ).mpr h⟩⟩

theorem trueCount_le_iff : trueCount σ lits ≤ k ↔
    ∀ sub : List ℕ, sub.Sublist lits → sub.length = k + 1 → ∃ lit ∈ sub, isTrue σ lit = false := by
  constructor
  · intro hcount sub hsub hlen
    by_contra hall
    have htrue : trueCount σ sub = sub.length := by
      refine countP_eq_length.mpr fun lit hlit => ?_
      by_contra hfalse
      exact hall ⟨lit, hlit, by simpa using hfalse⟩
    have hle : trueCount σ sub ≤ trueCount σ lits := hsub.countP_le
    omega
  · intro hall
    by_contra hcount
    have hfilter : (lits.filter (isTrue σ)).length = trueCount σ lits := countP_eq_length_filter.symm
    obtain ⟨lit, hlit, hfalse⟩ := hall ((lits.filter (isTrue σ)).take (k + 1))
      ((take_sublist _ _).trans filter_sublist) (by rw [length_take]; omega)
    have htrue := (mem_filter.mp (mem_of_mem_take hlit)).2
    rw [hfalse] at htrue
    cases htrue

theorem mem_generateCombinations (hlits : lits.length ≤ 4) (hk : k < lits.length) {combo : List ℕ} :
    combo ∈ generateCombinations lits.length (k + 1) ↔ combo.Sublist (List.range lits.length) ∧
    combo.length = k + 1 := by
  have hperm : ∀ n < 5, ∀ k < n,
      (generateCombinations n (k + 1)).Perm (List.sublistsLen (k + 1) (List.range n)) := by decide
  rw [(hperm lits.length (by omega) k hk).mem_iff, mem_sublistsLen]

theorem map_getD_range (lits : List ℕ) : (List.range lits.length).map (fun i => lits.getD i 0) = lits := by
  refine ext_getElem (by simp) fun i hi _ => ?_
  simp at hi
  simp [hi]

theorem encodes_direct (hbelow : Below f.numVars lits) (hlits : lits.length ≤ 4) (hk : k < lits.length) :
    (encodeAtMostKDirect f lits k).2 = true ∧ ∃ added,
    Encodes f (encodeAtMostKDirect f lits k).1 (trueCount · lits ≤ k) added := by
  unfold encodeAtMostKDirect
  rw [if_neg (by omega)]
  refine ⟨rfl, _, encodes_addClauses (fun c hc => ?_) fun σ => ?_⟩
  · obtain ⟨combo, hcombo, rfl⟩ := mem_map.mp hc
    intro lit hlit
    obtain ⟨i, hi, rfl⟩ := mem_map.mp hlit
    have hlt : i < lits.length := mem_range.mp (((mem_generateCombinations hlits hk).mp hcombo).1.subset hi)
    rw [neg_div_two, getD_eq_getElem _ _ hlt]
    exact hbelow _ (getElem_mem hlt)
  · rw [trueCount_le_iff]
    constructor
    · intro hsat sub hsub hlen
      -- a sublist of the literals is picked by a combination of indices
      rw [← map_getD_range lits] at hsub
      obtain ⟨combo, hcombo, rfl⟩ := sublist_map_iff.mp hsub
      rw [length_map] at hlen
      have hmem := (mem_generateCombinations hlits hk).mpr ⟨hcombo, hlen⟩
      obtain ⟨lit, hlit, htrue⟩ := hsat _ (mem_map_of_mem hmem)
      obtain ⟨i, hi, rfl⟩ := mem_map.mp hlit
      exact ⟨_, mem_map_of_mem hi, by simpa using htrue⟩
    · intro hall c hc
      obtain ⟨combo, hcombo, rfl⟩ := mem_map.mp hc
      obtain ⟨hsub, hlen⟩ := (mem_generateCombinations hlits hk).mp hcombo
      have hsub' := hsub.map fun i => lits.getD i 0
      rw [map_getD_range] at hsub'
      obtain ⟨lit, hlit, hfalse⟩ := hall _ hsub' (by rw [length_map, hlen])
      obtain ⟨i, hi, rfl⟩ := mem_map.mp hlit
      exact ⟨_, mem_map_of_mem hi, by simpa using hfalse⟩

def Counted (τ : ℕ → Bool) (bits inputs : List ℕ) : Prop :=
  ∀ i bit, bits[i]? = some bit → i < trueCount τ inputs → isTrue τ bit

def Unary (τ : ℕ → Bool) (bits inputs : List ℕ) : Prop :=
  ∀ i bit, bits[i]? = some bit → (isTrue τ bit ↔ i < trueCount τ inputs)

/-- Bits for groups of inputs: the added clauses force them up, and every assignment can be
continued so that they are the counts. -/
structure Counts (bound : ℕ) (f g : Cnf) (groups : List (List ℕ × List ℕ))
    (added : List (List ℕ)) : Prop where
  numVars : f.numVars ≤ g.numVars
  clauses : g.clauses = f.clauses ++ added
  below : ∀ c ∈ added, Below g.numVars c
  length : ∀ p ∈ groups, p.1.length = min p.2.length (bound + 1)
  bits : ∀ p ∈ groups, Below g.numVars p.1
  inputs : ∀ p ∈ groups, Below f.numVars p.2
  sound : ∀ τ, Satisfies τ added → ∀ p ∈ groups, Counted τ p.1 p.2
  complete : ∀ σ, ∃ τ, Agree f.numVars σ τ ∧ Satisfies τ added ∧ ∀ p ∈ groups, Unary τ p.1 p.2

theorem Counts.mono {groups groups' : List (List ℕ × List ℕ)} (h : Counts bound f g groups added)
    (hsub : ∀ p ∈ groups', p ∈ groups) : Counts bound f g groups' added where
  numVars := h.numVars
  clauses := h.clauses
  below := h.below
  length p hp := h.length p (hsub p hp)
  bits p hp := h.bits p (hsub p hp)
  inputs p hp := h.inputs p (hsub p hp)
  sound τ hτ p hp := h.sound τ hτ p (hsub p hp)
  complete σ := by
    obtain ⟨τ, hagree, hsat, hunary⟩ := h.complete σ
    exact ⟨τ, hagree, hsat, fun p hp => hunary p (hsub p hp)⟩

theorem counts_leaves (hbelow : Below f.numVars lits) : Counts bound f f (lits.map fun lit => ([lit], [lit])) [] := by
  have hmem (p : List ℕ × List ℕ) (hp : p ∈ lits.map fun lit => ([lit], [lit])) :
      ∃ lit ∈ lits, p = ([lit], [lit]) := by
    obtain ⟨lit, hlit, rfl⟩ := List.mem_map.mp hp
    exact ⟨lit, hlit, rfl⟩
  have hunary (τ : ℕ → Bool) (lit : ℕ) : Unary τ [lit] [lit] := by
    intro i bit hbit
    obtain ⟨hi, rfl⟩ := List.getElem?_eq_some_iff.mp hbit
    obtain rfl : i = 0 := by simpa using hi
    cases htrue : isTrue τ lit <;> simp [trueCount, htrue]
  refine ⟨le_rfl, by simp, by simp, fun p hp => ?_, fun p hp => ?_, fun p hp => ?_,
    fun τ _ p hp => ?_, fun σ => ⟨σ, fun _ _ => rfl, by simp [Satisfies], fun p hp => ?_⟩⟩
  · obtain ⟨lit, -, rfl⟩ := hmem p hp
    simp
  · obtain ⟨lit, hlit, rfl⟩ := hmem p hp
    exact List.forall_mem_singleton.mpr (hbelow lit hlit)
  · obtain ⟨lit, hlit, rfl⟩ := hmem p hp
    exact List.forall_mem_singleton.mpr (hbelow lit hlit)
  · obtain ⟨lit, -, rfl⟩ := hmem p hp
    exact fun i bit hbit => (hunary τ lit i bit hbit).mpr
  · obtain ⟨lit, -, rfl⟩ := hmem p hp
    exact hunary σ lit

theorem newVars_eq (size : ℕ) : newVars size f =
    ({ f with numVars := f.numVars + size }, (List.range size).map fun i => posLit (f.numVars + i)) := by
  induction size generalizing f with
  | zero => rfl
  | succ size ih =>
    rw [newVars, ih, range_succ_eq_map, map_cons, map_map]
    simp only [Cnf.newVar, Prod.mk.injEq, Cnf.mk.injEq, List.cons.injEq, and_true, true_and, Nat.add_zero]
    refine ⟨by omega, map_congr_left fun i _ => ?_⟩
    rw [Function.comp_apply, Nat.succ_eq_add_one, Nat.add_assoc, Nat.add_comm 1 i]

theorem mem_mergeClauses {left right output : List ℕ} {size : ℕ} {c : List ℕ} : c ∈ mergeClauses left right output size
    ↔ ∃ i j, i ≤ left.length ∧ j ≤ right.length ∧ 0 < i + j ∧ i + j ≤ size ∧ c = mergeClause left right output i j := by
  simp only [mergeClauses, mem_flatMap, mem_range]
  constructor
  · rintro ⟨i, hi, j, hj, hc⟩
    split at hc
    · cases hc
    · exact ⟨i, j, by omega, by omega, by omega, by omega, mem_singleton.mp hc⟩
  · rintro ⟨i, j, hi, hj, hpos, hsize, rfl⟩
    refine ⟨i, by omega, j, by omega, ?_⟩
    rw [if_neg (by omega)]
    exact mem_singleton_self _

theorem mem_mergeClause {left right output : List ℕ} {i j lit : ℕ} : lit ∈ mergeClause left right output i j ↔ 0 < i ∧
    lit = neg (left.getD (i - 1) 0) ∨ 0 < j ∧ lit = neg (right.getD (j - 1) 0) ∨ lit = output.getD (i + j - 1) 0 := by
  unfold mergeClause
  split <;> split <;> simp [*]

section

variable {left right output inl inr : List ℕ}

theorem getD_of_lt {bits : List ℕ} {i : ℕ} (hi : i < bits.length) : bits[i]? = some (bits.getD i 0) := by
  rw [getD_eq_getElem _ _ hi, getElem?_eq_getElem hi]

theorem Counted.merge (hleft : Counted τ left inl) (hright : Counted τ right inr)
    (hlenl : left.length = min inl.length (bound + 1)) (hlenr : right.length = min inr.length (bound + 1))
    (hout : output.length ≤ bound + 1) (hsat : Satisfies τ (mergeClauses left right output output.length)) :
    Counted τ output (inl ++ inr) := by
  intro i bit hbit hi
  obtain ⟨hlt, rfl⟩ := List.getElem?_eq_some_iff.mp hbit
  rw [trueCount_append] at hi
  have hcl : trueCount τ inl ≤ inl.length := trueCount_le
  have hcr : trueCount τ inr ≤ inr.length := trueCount_le
  -- as many as possible are taken from the left
  obtain ⟨a, b, hab, hal, hbl, hac, hbc⟩ : ∃ a b, a + b = i + 1 ∧ a ≤ left.length ∧
      b ≤ right.length ∧ a ≤ trueCount τ inl ∧ b ≤ trueCount τ inr := by
    refine ⟨min (i + 1) (trueCount τ inl), i + 1 - min (i + 1) (trueCount τ inl), ?_⟩
    omega
  have hmem : mergeClause left right output a b ∈ mergeClauses left right output output.length :=
    (mem_mergeClauses).mpr ⟨a, b, hal, hbl, by omega, by omega, rfl⟩
  obtain ⟨lit, hlit, htrue⟩ := hsat _ hmem
  rcases (mem_mergeClause).mp hlit with ⟨hpos, rfl⟩ | ⟨hpos, rfl⟩ | rfl
  · have := hleft (a - 1) _ (getD_of_lt (by omega)) (by omega)
    rw [isTrue_neg, this] at htrue
    cases htrue
  · have := hright (b - 1) _ (getD_of_lt (by omega)) (by omega)
    rw [isTrue_neg, this] at htrue
    cases htrue
  · have hidx : a + b - 1 = i := by omega
    rwa [hidx, getD_eq_getElem _ _ hlt] at htrue

theorem Unary.merge (hleft : Unary τ left inl) (hright : Unary τ right inr) (hout : Unary τ output (inl ++ inr)) :
    Satisfies τ (mergeClauses left right output output.length) := by
  intro c hc
  obtain ⟨a, b, hal, hbl, hpos, hsize, rfl⟩ := (mem_mergeClauses).mp hc
  by_contra hfalse
  have hall (lit : ℕ) (hlit : lit ∈ mergeClause left right output a b) : isTrue τ lit = false := by
    by_contra htrue
    exact hfalse ⟨lit, hlit, by simpa using htrue⟩
  have hacount : a ≤ trueCount τ inl := by
    rcases Nat.eq_zero_or_pos a with rfl | ha
    · exact Nat.zero_le _
    · have hbit := hall _ ((mem_mergeClause).mpr (.inl ⟨ha, rfl⟩))
      have := (hleft (a - 1) _ (getD_of_lt (by omega))).mp (by simpa using hbit)
      omega
  have hbcount : b ≤ trueCount τ inr := by
    rcases Nat.eq_zero_or_pos b with rfl | hb
    · exact Nat.zero_le _
    · have hbit := hall _ ((mem_mergeClause).mpr (.inr (.inl ⟨hb, rfl⟩)))
      have := (hright (b - 1) _ (getD_of_lt (by omega))).mp (by simpa using hbit)
      omega
  have htrue := (hout (a + b - 1) _ (getD_of_lt (by omega))).mpr (by
    rw [trueCount_append]
    omega)
  rw [hall _ ((mem_mergeClause).mpr (.inr (.inr rfl)))] at htrue
  cases htrue

theorem Unary.congr {n m : ℕ} {bits inputs : List ℕ} (h : Unary σ bits inputs) (hagree : Agree n σ τ)
    (hbits : Below n bits) (hinputs : Below m inputs) (hm : m ≤ n) : Unary τ bits inputs := by
  intro i bit hbit
  rw [isTrue_congr hagree (hbits bit (mem_of_getElem? hbit)),
    trueCount_congr hagree fun lit hlit => (hinputs lit hlit).trans_le hm]
  exact h i bit hbit

theorem Counts.merge {groups : List (List ℕ × List ℕ)}
    (h : Counts bound f g ((left, inl) :: (right, inr) :: groups) added) :
    ∃ added', Counts bound f (mergeCounts bound left right g).1
    (((mergeCounts bound left right g).2, inl ++ inr) :: groups) added' := by
  have hlenl := h.length _ mem_cons_self
  have hlenr := h.length _ (mem_cons_of_mem _ mem_cons_self)
  dsimp only at hlenl hlenr
  have hbitsl : Below g.numVars left := h.bits _ mem_cons_self
  have hbitsr : Below g.numVars right := h.bits _ (mem_cons_of_mem _ mem_cons_self)
  have hgroups (p : List ℕ × List ℕ) (hp : p ∈ groups) :
      p ∈ (left, inl) :: (right, inr) :: groups :=
    mem_cons_of_mem _ (mem_cons_of_mem _ hp)
  unfold mergeCounts
  set size := min (left.length + right.length) (bound + 1) with hsize
  simp only [newVars_eq, Cnf.addClauses_eq]
  set output := (List.range size).map fun i => posLit (g.numVars + i) with houtput
  have houtlen : output.length = size := by simp [houtput]
  rw [← houtlen]
  have hbit (i : ℕ) (bit : ℕ) (hbit : output[i]? = some bit) :
      i < size ∧ bit = posLit (g.numVars + i) := by
    obtain ⟨hi, rfl⟩ := List.getElem?_eq_some_iff.mp hbit
    exact ⟨by rwa [houtlen] at hi, by simp [houtput]⟩
  have hinputs : Below f.numVars (inl ++ inr) :=
    List.forall_mem_append.mpr ⟨h.inputs _ mem_cons_self,
      h.inputs _ (mem_cons_of_mem _ mem_cons_self)⟩
  have houtbelow : Below (g.numVars + output.length) output := by
    intro lit hlit
    obtain ⟨i, hi⟩ := mem_iff_getElem?.mp hlit
    obtain ⟨hlt, rfl⟩ := hbit i lit hi
    rw [posLit_div_two, houtlen]
    omega
  have hold {lits : List ℕ} (hlits : Below g.numVars lits) : Below (g.numVars + output.length) lits :=
    fun lit hlit => (hlits lit hlit).trans_le (Nat.le_add_right _ _)
  refine ⟨added ++ mergeClauses left right output output.length, ?_, ?_, ?_, ?_, ?_, ?_, ?_, ?_⟩
  · exact h.numVars.trans (Nat.le_add_right _ _)
  · rw [h.clauses, append_assoc]
  · refine List.forall_mem_append.mpr ⟨fun c hc => hold (h.below c hc), fun c hc lit hlit => ?_⟩
    obtain ⟨a, b, hal, hbl, hpos, hle, rfl⟩ := (mem_mergeClauses).mp hc
    rcases (mem_mergeClause).mp hlit with ⟨ha, rfl⟩ | ⟨hb, rfl⟩ | rfl
    · rw [neg_div_two]
      refine hold hbitsl _ ?_
      exact mem_of_getElem? (getD_of_lt (by omega))
    · rw [neg_div_two]
      refine hold hbitsr _ ?_
      exact mem_of_getElem? (getD_of_lt (by omega))
    · exact houtbelow _ (mem_of_getElem? (getD_of_lt (by omega)))
  · refine List.forall_mem_cons.mpr ⟨?_, fun p hp => h.length p (hgroups p hp)⟩
    rw [houtlen, length_append]
    omega
  · exact List.forall_mem_cons.mpr ⟨houtbelow, fun p hp => hold (h.bits p (hgroups p hp))⟩
  · exact List.forall_mem_cons.mpr ⟨hinputs, fun p hp => h.inputs p (hgroups p hp)⟩
  · intro τ hsat
    obtain ⟨hsat, hmerged⟩ := satisfies_append.mp hsat
    have hsound := h.sound τ hsat
    have hle : output.length ≤ bound + 1 := by omega
    refine List.forall_mem_cons.mpr ⟨?_, fun p hp => hsound p (hgroups p hp)⟩
    exact (hsound _ mem_cons_self).merge (hsound _ (mem_cons_of_mem _ mem_cons_self)) hlenl hlenr hle hmerged
  · intro σ
    obtain ⟨τ, hagree, hsat, hunary⟩ := h.complete σ
    -- the fresh variables get the count of the inputs
    let τ' : ℕ → Bool := fun v =>
      if v < g.numVars then τ v else v - g.numVars < trueCount τ (inl ++ inr)
    have hτ' : Agree g.numVars τ τ' := fun v hv => if_pos hv
    have hkeep (p : List ℕ × List ℕ) (hp : p ∈ (left, inl) :: (right, inr) :: groups) :
        Unary τ' p.1 p.2 :=
      (hunary p hp).congr hτ' (h.bits p hp) (h.inputs p hp) h.numVars
    have hout : Unary τ' output (inl ++ inr) := by
      intro i bit hi
      obtain ⟨-, rfl⟩ := hbit i bit hi
      rw [trueCount_congr hτ' fun lit hlit => (hinputs lit hlit).trans_le h.numVars]
      simp [τ']
    refine ⟨τ', hagree.trans h.numVars hτ', ?_, ?_⟩
    · exact satisfies_append.mpr ⟨hsat.congr hτ' h.below, (hkeep _ mem_cons_self).merge
        (hkeep _ (mem_cons_of_mem _ mem_cons_self)) hout⟩
    · exact List.forall_mem_cons.mpr ⟨hout, fun p hp => hkeep p (hgroups p hp)⟩

end

theorem Counts.mergeLayer {groups done : List (List ℕ × List ℕ)} (h : Counts bound f g (groups ++ done) added) :
    ∃ groups' added', (mergeLayer bound (groups.map Prod.fst) g).2 = groups'.map Prod.fst ∧
    Counts bound f (mergeLayer bound (groups.map Prod.fst) g).1 (groups' ++ done) added' ∧
    groups'.flatMap Prod.snd = groups.flatMap Prod.snd ∧ groups'.length = (groups.length + 1) / 2 := by
  induction groups using List.twoStepInduction generalizing g done added with
  | nil => exact ⟨[], added, rfl, h, rfl, rfl⟩
  | singleton p => exact ⟨[p], added, rfl, h, rfl, by simp⟩
  | cons_cons p q groups ih _ =>
    obtain ⟨added', hmerged⟩ := Counts.merge h
    have hsub : ∀ r ∈ groups ++ (((mergeCounts bound p.1 q.1 g).2, p.2 ++ q.2) :: done),
        r ∈ ((mergeCounts bound p.1 q.1 g).2, p.2 ++ q.2) :: (groups ++ done) := by
      intro r hr
      simp only [mem_append, mem_cons] at hr ⊢
      tauto
    obtain ⟨groups', added'', hlayer, hcounts, hinputs, hlength⟩ := ih (hmerged.mono hsub)
    refine ⟨((mergeCounts bound p.1 q.1 g).2, p.2 ++ q.2) :: groups', added'', ?_, hcounts.mono ?_, ?_, ?_⟩
    · simp only [map_cons, CardinalityEncoder.mergeLayer, hlayer]
    · intro r hr
      simp only [cons_append, mem_append, mem_cons] at hr ⊢
      tauto
    · simp only [flatMap_cons, hinputs, append_assoc]
    · simp only [length_cons, hlength]
      omega

theorem Counts.mergeLayers {fuel : ℕ} {groups : List (List ℕ × List ℕ)} (h : Counts bound f g groups added)
    (hne : groups ≠ []) (hfuel : groups.length ≤ fuel) : ∃ bits added',
    (mergeLayers bound fuel (groups.map Prod.fst) g).2 = [bits] ∧
    Counts bound f (mergeLayers bound fuel (groups.map Prod.fst) g).1 [(bits, groups.flatMap Prod.snd)] added' := by
  have hpos : 0 < groups.length := length_pos_of_ne_nil hne
  induction fuel generalizing g groups added with
  | zero => omega
  | succ fuel ih =>
    unfold CardinalityEncoder.mergeLayers
    rw [length_map]
    split
    · next hle =>
      obtain ⟨p, rfl⟩ := length_eq_one_iff.mp (Nat.le_antisymm hle hpos)
      exact ⟨p.1, added, rfl, by simpa using h⟩
    · next hgt =>
      have h' : Counts bound f g (groups ++ []) added := by simpa using h
      obtain ⟨groups', added', hlayer, hcounts, hinputs, hlength⟩ := h'.mergeLayer
      rw [append_nil] at hcounts
      dsimp only
      rw [hlayer, ← hinputs]
      have hpos' : 0 < groups'.length := by omega
      exact ih hcounts (ne_nil_of_length_pos hpos') (by omega) hpos'

theorem encodes_totalizer (hbelow : Below f.numVars lits) (hk : k < lits.length) : (encodeAtMostKTotalizer f lits k).2 =
    true ∧ ∃ added, Encodes f (encodeAtMostKTotalizer f lits k).1 (trueCount · lits ≤ k) added := by
  have hlits : lits ≠ [] := ne_nil_of_length_pos (by omega)
  have hleaves : Counts k f f (lits.map fun lit => ([lit], [lit])) [] := counts_leaves hbelow
  have hfuel : (lits.map fun lit => ([lit], [lit])).length ≤ lits.length := by simp
  obtain ⟨bits, added, htree, hcounts⟩ := hleaves.mergeLayers (by simpa using hlits) hfuel
  simp only [map_map, Function.comp_def, flatMap_map, flatMap_singleton'] at htree hcounts
  have hlen : bits.length = min lits.length (k + 1) := hcounts.length _ mem_cons_self
  have hroot : (buildTotalizerTree f lits k).2 = bits := by
    simp [buildTotalizerTree, htree]
  have hoverflow : bits[k]? = some (bits.getD k 0) := getD_of_lt (by omega)
  have hempty : ¬ (lits.isEmpty = true ∨ lits.length ≤ k) := by
    simp [hlits, hk]
  unfold encodeAtMostKTotalizer
  rw [if_neg hempty]
  dsimp only
  rw [hroot, hoverflow]
  refine ⟨rfl, added ++ [[neg (bits.getD k 0)]], hcounts.numVars, ?_, ?_, ?_, ?_⟩
  · simp only [Cnf.addClause, buildTotalizerTree, hcounts.clauses, append_assoc]
  · refine forall_mem_append.mpr ⟨hcounts.below, ?_⟩
    refine forall_mem_singleton.mpr (forall_mem_singleton.mpr ?_)
    rw [neg_div_two]
    exact hcounts.bits _ mem_cons_self _ (mem_of_getElem? hoverflow)
  · intro τ hsat
    obtain ⟨hsat, hlast⟩ := satisfies_append.mp hsat
    obtain ⟨lit, hlit, htrue⟩ := satisfies_singleton.mp hlast
    rw [mem_singleton.mp hlit, isTrue_neg] at htrue
    by_contra hcount
    have hover : k < trueCount τ lits := by omega
    have hbit := hcounts.sound τ hsat _ mem_cons_self k _ hoverflow hover
    rw [hbit] at htrue
    cases htrue
  · intro σ hcount
    obtain ⟨τ, hagree, hsat, hunary⟩ := hcounts.complete σ
    refine ⟨τ, hagree, satisfies_append.mpr ⟨hsat, satisfies_singleton.mpr ?_⟩⟩
    refine ⟨_, mem_singleton_self _, ?_⟩
    have hbit := hunary _ mem_cons_self k _ hoverflow
    rw [trueCount_congr hagree hbelow] at hbit
    rw [isTrue_neg, Bool.not_eq_true']
    exact Bool.eq_false_iff.mpr fun h => by have := hbit.mp h; omega

theorem encodes_atMost (hbelow : Below f.numVars lits) : (encodeAtMostK f lits k).2 = true ∧
    ∃ added, Encodes f (encodeAtMostK f lits k).1 (trueCount · lits ≤ k) added := by
  unfold encodeAtMostK
  split
  · next hle =>
    exact ⟨rfl, [], encodes_refl fun σ => trueCount_le.trans hle⟩
  · next hlt =>
    split
    · next hk =>
      refine ⟨rfl, _, encodes_addClauses (fun c hc => ?_) fun σ => ?_⟩
      · obtain ⟨lit, hlit, rfl⟩ := mem_map.mp hc
        exact forall_mem_singleton.mpr (by rw [neg_div_two]; exact hbelow lit hlit)
      · rw [hk, Nat.le_zero, trueCount, countP_eq_zero]
        simp [Satisfies]
    · split
      · next hlits => exact encodes_direct hbelow hlits (by omega)
      · exact encodes_totalizer hbelow (by omega)

theorem encodes_atLeast (hbelow : Below f.numVars lits) :
    if (encodeAtLeastK f lits k).2 then
      ∃ added, Encodes f (encodeAtLeastK f lits k).1 (k ≤ trueCount · lits) added
    else (encodeAtLeastK f lits k).1 = f ∧ lits.length < k := by
  unfold encodeAtLeastK
  split
  · next hk =>
    exact ⟨[], encodes_refl fun σ => by omega⟩
  · next hk =>
    split
    · next hlt => exact ⟨rfl, hlt⟩
    · next hle =>
      split
      · next hone =>
        refine ⟨[lits], encodes_addClauses (forall_mem_singleton.mpr hbelow) fun σ => ?_⟩
        rw [hone, Nat.one_le_iff_ne_zero, ← Nat.pos_iff_ne_zero, trueCount, countP_pos_iff]
        exact satisfies_singleton
      · have hbelow' : Below f.numVars (lits.map neg) := by
          intro lit hlit
          obtain ⟨lit', hlit', rfl⟩ := mem_map.mp hlit
          rw [neg_div_two]
          exact hbelow lit' hlit'
        obtain ⟨htrue, added, hencodes⟩ := encodes_atMost (k := lits.length - k) hbelow'
        rw [if_pos htrue]
        have hmeets (σ : ℕ → Bool) :
            trueCount σ (lits.map neg) ≤ lits.length - k ↔ k ≤ trueCount σ lits := by
          have hsum : trueCount σ (lits.map neg) + trueCount σ lits = lits.length := trueCount_map_neg
          omega
        exact ⟨added, hencodes.numVars, hencodes.clauses, hencodes.below,
          fun τ hτ => (hmeets τ).mp (hencodes.sound τ hτ),
          fun σ hσ => hencodes.complete σ ((hmeets σ).mpr hσ)⟩

theorem encode_exact (f : Cnf) (lits : List ℕ) (k : ℕ) (hbelow : ∀ lit ∈ lits, lit / 2 < f.numVars) :
    Exact f (encodeAtMostK f lits k) (trueCount · lits ≤ k) ∧
      Exact f (encodeAtLeastK f lits k) (k ≤ trueCount · lits) ∧
      Exact f (encodeExactlyK f lits k) (trueCount · lits = k) := by
  have hcount (σ τ : ℕ → Bool) (hagree : Agree f.numVars σ τ) :
      trueCount τ lits = trueCount σ lits := trueCount_congr hagree hbelow
  have hle (σ : ℕ → Bool) : trueCount σ lits ≤ lits.length := trueCount_le
  obtain ⟨htrue, added, hatMost⟩ := encodes_atMost (k := k) hbelow
  refine ⟨?_, ?_, ?_⟩
  · have hexact := hatMost.exact fun σ τ hagree => by rw [hcount σ τ hagree]
    rwa [← htrue] at hexact
  · have hatLeast := encodes_atLeast (k := k) hbelow
    split at hatLeast
    · next hok =>
      obtain ⟨added', hatLeast⟩ := hatLeast
      have hexact := hatLeast.exact fun σ τ hagree => by rw [hcount σ τ hagree]
      rwa [← hok] at hexact
    · next hfail =>
      refine .of_fail hfail hatLeast.1 fun σ hmeets => ?_
      have := hle σ
      omega
  · unfold encodeExactlyK
    split
    · next hlt =>
      refine .of_fail (by simp) rfl fun σ hmeets => ?_
      have := hle σ
      omega
    · next hk =>
      dsimp only
      rw [if_pos htrue]
      have hatLeast := encodes_atLeast (k := k) (f := (encodeAtMostK f lits k).1)
        fun lit hlit => (hbelow lit hlit).trans_le hatMost.numVars
      split at hatLeast
      · next hok =>
        obtain ⟨added', hatLeast⟩ := hatLeast
        have hboth := hatMost.comp hatLeast fun σ τ hagree => by rw [hcount σ τ hagree]
        have hexact := hboth.exact fun σ τ hagree => by rw [hcount σ τ hagree]
        rw [← hok] at hexact
        simpa only [Nat.le_antisymm_iff] using hexact
      · exact absurd hatLeast.2 hk

/-- Two of three literals, one of them twice and one negated. -/
theorem encode_exact_repeated : Exact ⟨2, []⟩ (encodeExactlyK ⟨2, []⟩ [0, 0, 3] 2)
    (trueCount · [0, 0, 3] = 2) :=
  (encode_exact ⟨2, []⟩ [0, 0, 3] 2 (by decide)).2.2

end CardinalityEncoder

end Nixie.Sat
