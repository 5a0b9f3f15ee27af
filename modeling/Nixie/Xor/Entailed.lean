import Nixie.Xor.Detect

/-!
Which detected constraints follow from the clauses they were read off, for clauses that may repeat variables.
-/

namespace Nixie.Xor

open Nixie.Sat List Nat

structure XorDetector where
  minXorSize : ℕ := 3
  maxXorSize : ℕ := 6

def XorDetector.detectXor (d : XorDetector) (clauses : List (List ℕ × ℕ)) : List XorConstraint :=
  Xor.detectXor clauses (List.range' d.minXorSize (d.maxXorSize + 1 - d.minXorSize)) []

def xorSum (σ : ℕ → Bool) (vars : List ℕ) : Bool := vars.foldr (fun v sum => σ v ^^ sum) false

def Models (σ : ℕ → Bool) (clauses : List (List ℕ × ℕ)) : Prop := ∀ c ∈ clauses, ∃ lit ∈ c.1, isTrue σ lit

def XorConstraint.Entailed (clauses : List (List ℕ × ℕ)) (xc : XorConstraint) : Prop :=
  ∀ σ, Models σ clauses → xorSum σ xc.vars = xc.rhs

/-- A clause over the variables of a group with its parity of negative literals, which it holds in no order. -/
structure Lacks (group : List (List ℕ × ℕ)) (vars lits : List ℕ) : Prop where
  vars : lits.map (· / 2) = vars
  parity : ∀ c ∈ group, negCount (polarities c.1) % 2 = negCount (polarities lits) % 2
  absent : ∀ c ∈ group, ¬ c.1.Perm lits

def Completed (clauses group : List (List ℕ × ℕ)) (vars : List ℕ) : Prop :=
  ∀ lits, Lacks group vars lits → ∀ σ, Models σ clauses → ∃ lit ∈ lits, isTrue σ lit

def Complete (clauses : List (List ℕ × ℕ)) : List ℕ → List ℕ → Prop
  | [], _ => True
  | size :: sizes, used =>
    let eligible := clauses.filter fun c => c.2 ∉ used ∧ c.1.length = size
    (∀ vars, isValidXorEncoding (polarityGroup eligible vars) size = true →
      Completed clauses (groupOf eligible vars) vars) ∧
      Complete clauses sizes (used ++ (detectXorOfSize clauses size used).flatMap XorConstraint.sourceClauses)

section

variable {clauses group : List (List ℕ × ℕ)} {vars lits c : List ℕ} {σ : ℕ → Bool}

def falsified (σ : ℕ → Bool) (vars : List ℕ) : List ℕ := vars.map fun v => if σ v then 2 * v + 1 else 2 * v

theorem not_isTrue_falsified {lit : ℕ} (h : lit ∈ falsified σ vars) : ¬ isTrue σ lit = true := by
  obtain ⟨v, -, rfl⟩ := mem_map.mp h
  split_ifs with hv
  · simp [Sat.isTrue, hv, show (2 * v + 1) / 2 = v by omega, show (2 * v + 1) % 2 = 1 by omega]
  · simp [Sat.isTrue, hv]

theorem vars_falsified : (falsified σ vars).map (· / 2) = vars := by
  rw [falsified, map_map]
  refine (map_congr_left fun v _ => ?_).trans (map_id vars)
  dsimp only [Function.comp_apply, id_eq]
  split_ifs <;> omega

theorem xorSum_eq (h : ∀ lit ∈ lits, ¬ isTrue σ lit = true) :
    xorSum σ (lits.map (· / 2)) = (negCount (polarities lits) % 2 == 1) := by
  rw [polarities_eq]
  induction lits with
  | nil => rfl
  | cons lit lits ih =>
    obtain ⟨hlit, hlits⟩ := forall_mem_cons.mp h
    have hrest := ih hlits
    have hsum : xorSum σ ((lit :: lits).map (· / 2)) = (σ (lit / 2) ^^ xorSum σ (lits.map (· / 2))) := rfl
    have hvalue : σ (lit / 2) = (lit % 2 == 1) := by
      rw [Sat.isTrue, beq_iff_eq] at hlit
      rcases mod_two_eq_zero_or_one lit with h0 | h1
      · simpa [h0] using hlit
      · simpa [h1] using hlit
    rw [hsum, hrest, hvalue, negCount, negCount, map_cons, countP_cons]
    generalize List.countP (fun p => !p) (lits.map fun lit => lit % 2 == 0) = n
    rcases mod_two_eq_zero_or_one lit with h0 | h1
    · simp [h0]
    · have hflip : (n + 1) % 2 = 1 - n % 2 := by omega
      rcases mod_two_eq_zero_or_one n with hn | hn <;> simp [h1, hflip, hn]

theorem exists_isTrue_of_perm (h : c.Perm lits) (hc : ∃ lit ∈ c, isTrue σ lit) : ∃ lit ∈ lits, isTrue σ lit := by
  obtain ⟨lit, hlit, htrue⟩ := hc
  exact ⟨lit, h.subset hlit, htrue⟩

theorem eq_of_beq_zero {m n : ℕ} (h : (m % 2 == 0) = (n % 2 == 0)) : m % 2 = n % 2 := by
  rcases mod_two_eq_zero_or_one m with hm | hm <;> rcases mod_two_eq_zero_or_one n with hn | hn <;> simp_all

theorem entailed_iff_completed {size : ℕ} {rhs : Bool} (hsub : group ⊆ clauses)
    (hvalid : isValidXorEncoding (group.map fun c => (polarities c.1, c.2)) size = true)
    (hrhs : computeXorRhs (group.map fun c => (polarities c.1, c.2)) = some rhs) :
    (∀ σ, Models σ clauses → xorSum σ vars = rhs) ↔ Completed clauses group vars := by
  have hparity := sameParity_of_valid hvalid hrhs
  constructor
  · rintro hall lits ⟨rfl, hlits, -⟩ σ hσ
    by_contra hfalse
    push Not at hfalse
    have hsum := xorSum_eq hfalse
    obtain ⟨first, hfirst⟩ : ∃ first, first ∈ group := by
      cases group with
      | nil => cases hrhs
      | cons first rest => exact ⟨first, mem_cons_self⟩
    rw [hall σ hσ, ← hparity first hfirst, hlits first hfirst] at hsum
    rcases mod_two_eq_zero_or_one (negCount (polarities lits)) with h | h <;> simp [h] at hsum
  · intro hcompleted σ hσ
    by_contra hne
    have hfalse : ∀ lit ∈ falsified σ vars, ¬ Sat.isTrue σ lit = true := fun lit hlit => not_isTrue_falsified hlit
    have hsum := xorSum_eq hfalse
    rw [vars_falsified] at hsum
    have hcount : ∀ c ∈ group, negCount (polarities c.1) % 2 = negCount (polarities (falsified σ vars)) % 2 := by
      refine fun c hc => eq_of_beq_zero ((hparity c hc).trans ?_)
      rw [hsum] at hne
      rcases mod_two_eq_zero_or_one (negCount (polarities (falsified σ vars))) with h | h <;> simp_all
    -- the falsified clause is either in the group or among those that follow
    have htrue : ∃ lit ∈ falsified σ vars, Sat.isTrue σ lit := by
      by_cases hperm : ∃ c ∈ group, c.1.Perm (falsified σ vars)
      · obtain ⟨c, hc, hperm⟩ := hperm
        exact exists_isTrue_of_perm hperm (hσ c (hsub hc))
      · push Not at hperm
        exact hcompleted _ ⟨vars_falsified, hcount, hperm⟩ σ hσ
    obtain ⟨lit, hlit, htrue⟩ := htrue
    exact hfalse lit hlit htrue

/-- A group over distinct variables that repeats no clause in another order is complete. -/
theorem not_lacks_of_distinct (hvars : vars.Nodup)
    (hvalid : isValidXorEncoding (polarityGroup clauses vars) vars.length = true)
    (hdistinct : (groupOf clauses vars).Pairwise fun c d => ¬ c.1.Perm d.1) :
    ¬ Lacks (groupOf clauses vars) vars lits := by
  rintro ⟨rfl, hparity, habsent⟩
  have hkey : ∀ c ∈ groupOf clauses (lits.map (· / 2)), sortedVars c.1 = lits.map (· / 2) := fun c hc =>
    of_decide_eq_true (mem_filter.mp hc).2
  have hwf : ∀ c ∈ groupOf clauses (lits.map (· / 2)), (c.1.map (· / 2)).Nodup := fun c hc =>
    (perm_insertionSort (· ≤ ·) _).nodup_iff.mp (hkey c hc ▸ hvars : (sortedVars c.1).Nodup)
  obtain ⟨c, hc, hneg⟩ := exists_negSet_eq hwf hvalid hdistinct (N := negSet lits)
    (fun v hv => by
      obtain ⟨lit, hlit, -, rfl⟩ := mem_negSet.mp hv
      exact List.mem_toFinset.mpr (mem_map_of_mem hlit))
    (fun c hc => (hparity c hc).trans (congrArg (· % 2) (card_negSet hvars).symm))
  -- the variables of the group are sorted, so that sorting those of the missing clause changes nothing
  have hsorted : sortedVars lits = lits.map (· / 2) := by
    have hsort : (lits.map (· / 2)).Pairwise (· ≤ ·) := hkey c hc ▸ pairwise_insertionSort (· ≤ ·) _
    exact hsort.insertionSort_eq
  exact habsent c hc (perm_of_negSet (hwf c hc) hvars ((hkey c hc).trans hsorted.symm) hneg)

end

section

variable {clauses : List (List ℕ × ℕ)} {xc : XorConstraint} {vars : List ℕ} {size : ℕ} {used : List ℕ}

theorem computeXorRhs_of_valid {groups : List (List Bool × ℕ)} (h : isValidXorEncoding groups size = true) :
    ∃ rhs, computeXorRhs groups = some rhs := by
  cases groups with
  | nil =>
    unfold isValidXorEncoding at h
    split at h
    · cases h
    · simp [sameParity] at h
  | cons first rest => exact ⟨_, rfl⟩

theorem mem_detectXorOfSize_iff : xc ∈ detectXorOfSize clauses size used ↔
    ∃ vars, detectGroup (clauses.filter fun c => c.2 ∉ used ∧ c.1.length = size) size vars = some xc := by
  rw [detectXorOfSize, mem_filterMap]
  refine ⟨fun ⟨vars, _, h⟩ => ⟨vars, h⟩, fun ⟨vars, h⟩ => ⟨vars, ?_, h⟩⟩
  dsimp only [detectGroup] at h
  split_ifs at h with hvalid
  obtain ⟨rhs, hrhs⟩ := computeXorRhs_of_valid hvalid
  obtain ⟨g, hg, -⟩ := Option.map_eq_some_iff.mp hrhs
  obtain ⟨c, hc, -⟩ := mem_map.mp (mem_of_mem_head? hg)
  obtain ⟨hc, hkey⟩ := mem_filter.mp hc
  exact mem_dedup.mpr (mem_map.mpr ⟨c, hc, of_decide_eq_true hkey⟩)

theorem entailed_detectXorOfSize_iff : (∀ xc ∈ detectXorOfSize clauses size used, xc.Entailed clauses) ↔ ∀ vars,
    isValidXorEncoding (polarityGroup (clauses.filter fun c => c.2 ∉ used ∧ c.1.length = size) vars) size = true →
    Completed clauses (groupOf (clauses.filter fun c => c.2 ∉ used ∧ c.1.length = size) vars) vars := by
  generalize heligible : (clauses.filter fun c => c.2 ∉ used ∧ c.1.length = size) = eligible
  have hsub (vars : List ℕ) : groupOf eligible vars ⊆ clauses := by
    subst heligible
    exact fun c hc => mem_of_mem_filter (mem_of_mem_filter hc)
  constructor
  · intro h vars hvalid
    obtain ⟨rhs, hrhs⟩ := computeXorRhs_of_valid hvalid
    refine (entailed_iff_completed (hsub vars) hvalid hrhs).mp
      (h ⟨vars, rhs, (polarityGroup eligible vars).map Prod.snd⟩ (mem_detectXorOfSize_iff.mpr ⟨vars, ?_⟩))
    rw [heligible, detectGroup, if_pos hvalid, hrhs, Option.map_some]
  · intro h xc hxc
    obtain ⟨vars, hgroup⟩ := mem_detectXorOfSize_iff.mp hxc
    rw [heligible] at hgroup
    dsimp only [detectGroup] at hgroup
    split_ifs at hgroup with hvalid
    obtain ⟨rhs, hrhs, rfl⟩ := Option.map_eq_some_iff.mp hgroup
    exact (entailed_iff_completed (hsub vars) hvalid hrhs).mpr (h vars hvalid)

theorem entailed_detectXor_iff (sizes : List ℕ) :
    (∀ xc ∈ detectXor clauses sizes used, xc.Entailed clauses) ↔ Complete clauses sizes used := by
  induction sizes generalizing used with
  | nil => exact ⟨fun _ => trivial, fun _ _ h => absurd h not_mem_nil⟩
  | cons size sizes ih =>
    rw [Complete, ← entailed_detectXorOfSize_iff, ← ih, detectXor]
    exact forall_mem_append

end

/-- A detector's constraints all follow from the clauses exactly when the clauses its groups lack do. -/
theorem XorDetector.detectXor_entailed_iff (d : XorDetector) (clauses : List (List ℕ × ℕ)) :
    (∀ xc ∈ d.detectXor clauses, xc.Entailed clauses) ↔
      Complete clauses (List.range' d.minXorSize (d.maxXorSize + 1 - d.minXorSize)) [] :=
  entailed_detectXor_iff _

/-- One clause in its two orders passes for both clauses of an encoding. -/
theorem XorDetector.not_entailed_reordered : ¬ ∀ (d : XorDetector) (clauses : List (List ℕ × ℕ)),
    ∀ xc ∈ d.detectXor clauses, xc.Entailed clauses := by
  intro h
  have hmem : ⟨[0, 1], false, [7, 8]⟩ ∈ XorDetector.detectXor ⟨2, 5⟩ [([0, 3], 7), ([3, 0], 8)] := by decide
  have hmodels : Models (fun v => v == 0) [([0, 3], 7), ([3, 0], 8)] := by simp [Models, Sat.isTrue]
  exact absurd (h ⟨2, 5⟩ _ _ hmem _ hmodels) (by decide)

end Nixie.Xor
