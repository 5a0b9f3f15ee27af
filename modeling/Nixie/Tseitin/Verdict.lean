import Nixie.Tseitin.Run

/-!
When the conversion is right: every model of the term has one extension to the new variables, every
model of the result is one of the term, and the variables are new.
-/

namespace Nixie.Tseitin

open List

open Nixie.Ast (SortId)

variable {A A' : Arena} {e : Encoder} {root id v k : ℕ} {σ σ' : Tree → Bool}

def Minted (A A' : Arena) (v : ℕ) : Prop :=
  A.terms.length ≤ v ∧ ∃ name sort, get A'.terms v = some ⟨.var name, sort⟩

def Extends (A A' : Arena) (σ σ' : Tree → Bool) : Prop :=
  ∀ t, (∀ v, Minted A A' v → t ≠ tree A'.terms v) → σ' t = σ t

structure Converts (A : Arena) (root : ℕ) (out : ℕ) (A' : Arena) : Prop where
  extends_unique : ∀ σ, val σ A.terms root = true →
    ∃! σ', Extends A A' σ σ' ∧ val σ' A'.terms out = true
  models : ∀ σ, val σ A'.terms out = true → val σ A.terms root = true
  fresh : ∀ v node, Minted A A' v → get A'.terms v = some node → node ∉ A.terms
  isCnf : IsCnf A'.terms out

def FreshNames (A : Arena) (root : ℕ) : Prop :=
  ∀ k, A.Free k → Nat.count A.Free k < A.definitions root → tseitinVar k ∉ A.terms

section

variable (h : Stacked A root e [])

include h

theorem Stacked.root_some : (e.reps root).isSome = true := by
  rcases h.rooted with hroot | ⟨s, hs, -⟩
  · exact hroot
  · cases hs

theorem Stacked.defined_resolved (hid : (e.reps id).isSome = true) : ∀ j ∈ defined A.terms id, j ∈ resolved A e := by
  have hclosed := h.inv.start.closed
  induction id using Nat.strong_induction_on with
  | _ id ih =>
    intro j hj
    obtain ⟨r, hr⟩ := Option.isSome_iff_exists.mp hid
    cases hc : classify A.terms id with
    | none =>
      rw [defined_atom hclosed (h.inv.represents.reps id r hr).1 hc] at hj
      cases hj
    | some c =>
      rw [defined_classify hclosed hc, mem_append] at hj
      rcases hj with hj | hj
      · split_ifs at hj with hnot
        · cases hj
        · obtain rfl := mem_singleton.mp hj
          simp only [resolved, Finset.mem_filter, Finset.mem_range]
          exact ⟨(h.inv.represents.reps j r hr).1, hid, by simpa [compound, hc] using hnot⟩
      · obtain ⟨a, ha, hj⟩ := mem_flatMap.mp hj
        exact ih a (operands_lt hclosed hc a ha) (h.inv.represents.operands id r c hr hc a ha) j hj

theorem Stacked.count_eq : Nat.count A.Free e.counter = A.definitions root := by
  have hset : resolved A e = (defined A.terms root).toFinset := by
    ext j
    rw [mem_toFinset]
    refine ⟨fun hj => ?_, h.defined_resolved h.root_some j⟩
    simp only [resolved, Finset.mem_filter, Finset.mem_range] at hj
    exact h.within j (.inl hj.2.1) (mem_defined_self h.inv.start.closed hj.2.2)
  rw [← h.inv.count, hset, card_toFinset, Arena.definitions]

theorem Stacked.freshBelow_iff : FreshBelow A e.counter ↔ FreshNames A root := by
  have hcount := h.count_eq
  constructor
  · intro hfresh k hfree hk
    exact hfresh k (Nat.lt_of_count_lt_count (hcount ▸ hk)) hfree
  · intro hfresh k hk hfree
    exact hfresh k hfree (hcount ▸ Nat.count_strict_mono hfree hk)

theorem Stacked.mkAnd_spec {args : List ℕ} (hargs : args = e.repOf root :: e.clauses) :
    Quiet e.arena (e.arena.mkAnd args).2 ∧ IsCnf (e.arena.mkAnd args).2.terms (e.arena.mkAnd args).1 ∧
    ∀ σ, val σ (e.arena.mkAnd args).2.terms (e.arena.mkAnd args).1 = true ↔ val σ A.terms root = true ∧ e.Holds σ := by
  have hrep := h.inv.represents
  obtain ⟨r, hr⟩ := Option.isSome_iff_exists.mp h.root_some
  have hrepOf : e.repOf root = r := by rw [Encoder.repOf, hr]; rfl
  have hclauses : ∀ a ∈ args, IsClause e.arena.terms a := by
    rw [hargs, hrepOf]
    exact forall_mem_cons.mpr ⟨.inl (hrep.reps root r hr).2, hrep.good.clauses⟩
  have hlt : ∀ a ∈ args, a < e.arena.terms.length := fun a ha => (hclauses a ha).lt
  refine ⟨quiet_mkConnective hrep.good.wf hlt true, isCnf_mkAnd hrep.good.wf hclauses, fun σ => ?_⟩
  rw [val_mkAnd hrep.good.wf hlt, hargs, hrepOf, all_cons, Bool.and_eq_true, all_eq_true]
  constructor
  · rintro ⟨hroot, hholds⟩
    exact ⟨by rwa [← hrep.sound σ hholds root r hr], hholds⟩
  · rintro ⟨hroot, hholds⟩
    exact ⟨by rwa [hrep.sound σ hholds root r hr], hholds⟩

variable (hq : Quiet e.arena A')

include hq

theorem Stacked.minted_iff : Minted A A' v ↔
    A.terms.length ≤ v ∧ ∃ k < e.counter, A.Free k ∧ get A'.terms v = some (tseitinVar k) := by
  have hmints : Mints A { e with arena := A' } := h.inv.mints.quiet hq rfl
  constructor
  · rintro ⟨hv, name, sort, hget⟩
    obtain ⟨k, hk, hfree, hnode⟩ := hmints.vars v name sort hv hget
    exact ⟨hv, k, hk, hfree, hget.trans (congrArg some hnode)⟩
  · rintro ⟨hv, k, -, -, hget⟩
    exact ⟨hv, tseitinName k, .bool, hget⟩

theorem Stacked.minted_tree {t : Tree} : (∃ v, Minted A A' v ∧ t = tree A'.terms v) ↔
    ∃ k < e.counter, A.Free k ∧ t = varTree k := by
  have hmints : Mints A { e with arena := A' } := h.inv.mints.quiet hq rfl
  constructor
  · rintro ⟨v, hv, rfl⟩
    obtain ⟨-, k, hk, hfree, hget⟩ := (h.minted_iff hq).mp hv
    exact ⟨k, hk, hfree, tree_tseitinVar hq.wf.closed hget⟩
  · rintro ⟨k, hk, hfree, rfl⟩
    obtain ⟨v, hv, hget⟩ := hmints.named k hk hfree
    exact ⟨v, (h.minted_iff hq).mpr ⟨hv, k, hk, hfree, hget⟩, (tree_tseitinVar hq.wf.closed hget).symm⟩

theorem Stacked.extends_iff : Extends A A' σ σ' ↔ OffVars A e.counter σ σ' := by
  refine forall_congr' fun t => imp_congr_left ?_
  have htree := not_congr (h.minted_tree hq (t := t))
  push Not at htree
  exact htree

theorem Stacked.fresh_iff : (∀ v node, Minted A A' v → get A'.terms v = some node → node ∉ A.terms) ↔
    FreshBelow A e.counter := by
  have hmints : Mints A { e with arena := A' } := h.inv.mints.quiet hq rfl
  constructor
  · intro hfresh k hk hfree
    obtain ⟨v, hv, hget⟩ := hmints.named k hk hfree
    exact hfresh v _ ((h.minted_iff hq).mpr ⟨hv, k, hk, hfree, hget⟩) hget
  · intro hfresh v node hv hget
    obtain ⟨-, k, hk, hfree, hget'⟩ := (h.minted_iff hq).mp hv
    rw [hget'] at hget
    cases hget
    exact hfresh k hk hfree

omit hq in
theorem Stacked.val_off (hfresh : FreshBelow A e.counter) (hoff : OffVars A e.counter σ σ')
    (hid : id < A.terms.length) : val σ' A.terms id = val σ A.terms id := by
  have hclosed := h.inv.start.closed
  refine val_congr hclosed (fun j hj => hoff _ fun k hk hfree htree => ?_) hid
  exact hfresh k hk hfree (mem_iff_get.mpr ⟨j, tree_eq_varTree hclosed hj htree⟩)

omit hq in
theorem Stacked.off_unique {τ : Tree → Bool} (hfresh : FreshBelow A e.counter) (hoff : OffVars A e.counter σ σ')
    (hσ' : e.Holds σ') (hτ : OffVars A e.counter σ τ) (hholds : e.Holds τ) : τ = σ' := by
  have hrep := h.inv.represents
  funext t
  by_cases ht : ∃ k < e.counter, A.Free k ∧ t = varTree k
  · obtain ⟨k, hk, hfree, rfl⟩ := ht
    obtain ⟨id, r, hr, hget⟩ := h.inv.used k hk hfree
    have hatom : classify e.arena.terms r = none := by rw [classify, hget]; rfl
    have hvar : ∀ τ, val τ e.arena.terms r = τ (varTree k) := fun τ => by
      rw [val_atom hrep.good.wf.closed hget hatom]
      rfl
    have hid := (hrep.reps id r hr).1
    rw [← hvar τ, ← hvar σ', hrep.sound τ hholds id r hr, hrep.sound σ' hσ' id r hr,
      h.val_off hfresh hτ hid, h.val_off hfresh hoff hid]
  · push Not at ht
    rw [hτ t ht, hoff t ht]

end

theorem stacked_toCnfTseitin (hA : A.WF) (hroot : root < A.terms.length) : ∃ e, Stacked A root e [] ∧
    A.toCnfTseitin root = e.arena.mkAnd (e.repOf root :: e.clauses) :=
  ⟨_, (stacked_start hA hroot).run (by simp [workWeight, stepWeight]), rfl⟩

theorem Converts.freshNames (hA : A.Reached) (hroot : root < A.terms.length)
    (hconverts : Converts A root (A.toCnfTseitin root).1 (A.toCnfTseitin root).2) : FreshNames A root := by
  obtain ⟨e, h, hout⟩ := stacked_toCnfTseitin hA.wf hroot
  obtain ⟨hq, -, -⟩ := h.mkAnd_spec rfl
  rw [hout] at hconverts
  exact h.freshBelow_iff.mp ((h.fresh_iff hq).mp hconverts.fresh)

/-- The conversion is right exactly when no name that it takes was forgotten by a collection. -/
theorem toCnfTseitin_converts_iff (hA : A.Reached) (hroot : root < A.terms.length) :
    Converts A root (A.toCnfTseitin root).1 (A.toCnfTseitin root).2 ↔ FreshNames A root := by
  refine ⟨fun h => h.freshNames hA hroot, fun hnames => ?_⟩
  obtain ⟨e, h, hout⟩ := stacked_toCnfTseitin hA.wf hroot
  obtain ⟨hq, hcnf, hval⟩ := h.mkAnd_spec rfl
  have hfresh := h.freshBelow_iff.mpr hnames
  rw [hout]
  refine ⟨fun σ hσ => ?_, fun σ hσ => ((hval σ).mp hσ).1, (h.fresh_iff hq).mpr hfresh, hcnf⟩
  obtain ⟨σ', hoff, hholds⟩ := h.inv.complete hfresh σ
  refine ⟨σ', ⟨(h.extends_iff hq).mpr hoff, (hval σ').mpr ⟨?_, hholds⟩⟩, ?_⟩
  · rw [h.val_off hfresh hoff hroot, hσ]
  · rintro τ ⟨hext, hτ⟩
    exact h.off_unique hfresh hoff hholds ((h.extends_iff hq).mp hext) ((hval τ).mp hτ).2

def conjunctionArena : Arena :=
  (((Arena.new.intern (.other "p" []) .bool).2.intern (.other "q" []) .bool).2.intern (.and [2, 3]) .bool).2

theorem reached_conjunctionArena : conjunctionArena.Reached :=
  .intern _ _ (by decide) (fun _ => rfl) (.intern _ _ (by decide) nofun (.intern _ _ (by decide) nofun .new))

theorem toCnfTseitin_converts_conjunction : Converts conjunctionArena 4
    (conjunctionArena.toCnfTseitin 4).1 (conjunctionArena.toCnfTseitin 4).2 := by
  refine (toCnfTseitin_converts_iff reached_conjunctionArena (by decide)).mpr fun k _ _ => ?_
  have hterms : conjunctionArena.terms = [⟨.and [2, 3], .bool⟩, ⟨.other "q" [], .bool⟩,
    ⟨.other "p" [], .bool⟩, ⟨.false, .bool⟩, ⟨.true, .bool⟩] := by decide
  simp [hterms, tseitinVar]

def sweptArena : Arena :=
  ((((Arena.new.intern (.var "tseitin!0") .bool).2.intern (.other "p" []) .bool).2.intern
    (.other "q" []) .bool).2.intern (.and [3, 4]) .bool).2.gc [5]

theorem reached_sweptArena : sweptArena.Reached :=
  .gc [5] (.intern _ _ (by decide) (fun _ => rfl) (.intern _ _ (by decide) nofun
    (.intern _ _ (by decide) nofun (.intern _ _ (by decide) nofun .new))))

/-- The variable of the conjunction is one that the arena has already. -/
theorem not_converts_swept : sweptArena.Reached ∧ 5 < sweptArena.terms.length ∧
    ¬ Converts sweptArena 5 (sweptArena.toCnfTseitin 5).1 (sweptArena.toCnfTseitin 5).2 := by
  refine ⟨reached_sweptArena, by decide, fun hconverts => ?_⟩
  have hfresh := hconverts.freshNames reached_sweptArena (by decide)
  exact hfresh 0 (by decide) (by decide) (by decide)

end Nixie.Tseitin
