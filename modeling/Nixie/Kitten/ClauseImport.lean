import Nixie.Kitten.Verdict

/-!
The klause that a clause call appends to the arena, against the clause it was given.
-/

namespace Nixie.Kitten

open Nixie.Propositional Nixie.Literal List

variable {k k' : Kitten} {id except : ℕ} {elits : List ℕ}

structure Tidy (k : Kitten) : Prop where
  tabled : Tabled k
  klause : k.klause = []
  marks : ∀ i, k.marks i = false

def pending (k : Kitten) : List ℕ × (ℕ → Bool) := (k.klause, k.marks)

theorem unassign_pending (k : Kitten) (lit : ℕ) : pending (k.unassign lit) = pending k := by
  unfold unassign
  dsimp only
  split
  · rfl
  · split <;> rfl

theorem unassignUnit_pending (k : Kitten) (r : ℕ) : pending (k.unassignUnit r) = pending k := by
  unfold unassignUnit
  dsimp only
  split
  · exact unassign_pending k _
  · rfl

theorem foldl_pending {f : Kitten → ℕ → Kitten} (hf : ∀ k x, pending (f k x) = pending k) (xs : List ℕ)
    (k : Kitten) : pending (xs.foldl f k) = pending k := by
  induction xs generalizing k with
  | nil => rfl
  | cons x xs ih => exact (ih _).trans (hf k x)

theorem unsetCoreFrom_pending (fuel r : ℕ) (k : Kitten) : pending (unsetCoreFrom fuel r k) = pending k := by
  induction fuel generalizing r k with
  | zero => rfl
  | succ fuel ih =>
    simp only [unsetCoreFrom]
    split
    · refine (ih _ _).trans ?_
      split <;> rfl
    · rfl

theorem resetIncremental_pending (k : Kitten) : pending k.resetIncremental = pending k := by
  have h1 : pending k.completelyBacktrackToRootLevel = pending k :=
    (foldl_pending unassignUnit_pending _ _).trans (foldl_pending unassign_pending k.trail _)
  unfold resetIncremental
  dsimp only
  generalize k.completelyBacktrackToRootLevel = k1 at *
  have h2 : pending (if k1.assumptions.isEmpty then k1 else k1.resetAssumptions) = pending k1 := by
    split <;> rfl
  generalize (if k1.assumptions.isEmpty then k1 else k1.resetAssumptions) = k2 at *
  refine Eq.trans ?_ (h2.trans h1)
  split
  · exact unsetCoreFrom_pending _ _ k2
  · rfl

theorem Tidy.renewed (h : Tidy k) : Tidy k.renewed := by
  have hp : pending k.renewed = pending k := by
    unfold Kitten.renewed
    split
    · exact resetIncremental_pending k
    · rfl
  obtain ⟨h1, h2⟩ := Prod.mk.inj hp
  exact ⟨h.tabled.carried (renewed_carried k), h1.trans h.klause, fun i => (congrFun h2 i).trans (h.marks i)⟩

theorem newOriginalKlause_words (k : Kitten) (id : ℕ) : (k.newOriginalKlause id).exhausted = true ∧
    (k.newOriginalKlause id).klauses = k.klauses ∨ (k.newOriginalKlause id).klauses =
    k.klauses ++ ([id, k.klause.length, 0] ++ k.klause) := by
  unfold newOriginalKlause
  split
  · next hex => exact .inl ⟨hex, rfl⟩
  · by_cases hlen : INVALID ≤ k.klauses.length
    · simp only [newReference, if_pos hlen]
      exact .inl ⟨rfl, rfl⟩
    · have hne : k.klauses.length ≠ INVALID := by omega
      right
      simp only [newReference, if_neg hlen, if_neg hne]
      unfold connectNewKlause
      dsimp only
      split
      · split <;> simp [pushKlause]
      · split <;> simp [pushKlause, watchKlause]

theorem exportLiteral_congr (h : k'.exportTable = k.exportTable) (l : ℕ) : k'.exportLiteral l = k.exportLiteral l := by
  unfold exportLiteral
  rw [h]

theorem clause_stores (h : Tidy k) : (k.clauseWithIdAndException id elits except).exhausted = true ∧
    (k.clauseWithIdAndException id elits except).klauses = k.renewed.klauses ∨
    ∃ lits, (k.clauseWithIdAndException id elits except).klauses =
    k.renewed.klauses ++ ([id, lits.length, 0] ++ lits) ∧
    lits.map (k.clauseWithIdAndException id elits except).exportLiteral = kept except [] elits := by
  have hr := h.renewed
  have hkept := @kept_spec except [] elits
  have hfilter : (kept except [] elits).filter (· ≠ except) = kept except [] elits :=
    filter_eq_self.mpr fun e he => by simpa using (hkept.1 e he).1
  rw [clause_kept h.tabled, clause_renewed]
  generalize kept except [] elits = es at *
  have hstart : Importing k.renewed [] :=
    ⟨hr.tabled, by simp, by simpa using hr.klause, fun i => by simp [hr.marks i, hr.klause]⟩
  obtain ⟨himp, _⟩ := @importAll_spec k.renewed except [] es (fun _ => none) ∅ hstart
    (fun e he _ => (hkept.1 e he).2.1) (by rw [nil_append, hfilter]; exact hkept.2)
  rw [nil_append, hfilter] at himp
  have henl := importAll_enlisted k.renewed except es
  unfold clauseWithIdAndException
  rw [if_neg (by simp [renewed_status])]
  dsimp only
  generalize es.foldl (importInto except) k.renewed = k1 at *
  generalize hk2 : ({ k1 with
    marks := k1.klause.foldl (fun marks ilit => Function.update marks (ilit / 2) false) k1.marks } :
    Kitten) = k2
  have hold : k2.klauses = k.renewed.klauses := by
    rw [← hk2, henl]
  have hklause : k2.klause = es.map (intern k1) := by
    rw [← hk2]
    exact himp.klause
  have hexport : k2.exportTable = k1.exportTable := by rw [← hk2]
  rcases newOriginalKlause_words k2 id with ⟨hex, hsame⟩ | hwords
  · exact .inl ⟨hex, hsame.trans hold⟩
  · refine .inr ⟨k2.klause, hwords.trans (by rw [hold]), ?_⟩
    rw [hklause, map_map]
    refine (map_congr_left fun e he => ?_).trans (map_id es)
    refine Eq.trans ?_ (himp.tabled.export_intern (himp.known e he))
    exact exportLiteral_congr ((newOriginalKlause_frame k2 id).exportTable.trans hexport) _

theorem mem_of_mem_kept {seen : List ℕ} {e : ℕ} (he : e ∈ kept except seen elits) : e ∈ elits := by
  induction elits generalizing seen with
  | nil => simp [kept] at he
  | cons x elits ih =>
    rw [kept] at he
    split at he
    · exact mem_cons_of_mem _ (ih he)
    · rcases mem_cons.mp he with rfl | he
      · exact mem_cons_self
      · exact mem_cons_of_mem _ (ih he)

theorem exists_mem_kept {seen : List ℕ} {e : ℕ} (he : e ∈ elits) (hne : e ≠ except) (hs : externalLiteralSane e = true)
    (hseen : e / 2 ∉ seen) : ∃ x ∈ kept except seen elits, x / 2 = e / 2 := by
  induction elits generalizing seen with
  | nil => simp at he
  | cons x elits ih =>
    rw [kept]
    split
    · next hx =>
      rcases mem_cons.mp he with rfl | he
      · simp [hne, hs, hseen] at hx
      · exact ih he hseen
    · by_cases hdiv : x / 2 = e / 2
      · exact ⟨x, mem_cons_self, hdiv⟩
      · have hmem : e ∈ elits := by
          rcases mem_cons.mp he with rfl | he
          · exact absurd rfl hdiv
          · exact he
        obtain ⟨y, hy, hyd⟩ := @ih (x / 2 :: seen) hmem (by simp [hseen, Ne.symm hdiv])
        exact ⟨y, mem_cons_of_mem _ hy, hyd⟩

theorem exists_falsifies {es : List ℕ} (hnd : (es.map (· / 2)).Nodup) : ∃ σ, ∀ e ∈ es, ¬ Assigns σ e := by
  refine ⟨fun x => 2 * x + 1 ∈ es, fun e he hσ => ?_⟩
  unfold Assigns at hσ
  rcases Nat.mod_two_eq_zero_or_one e with h0 | h1
  · have hmem : 2 * (e / 2) + 1 ∈ es := by simpa [h0] using hσ
    have heq := inj_on_of_nodup_map hnd hmem he (by omega)
    omega
  · have hmem : 2 * (e / 2) + 1 ∈ es := by
      rwa [show 2 * (e / 2) + 1 = e by omega]
    simp [h1, hmem] at hσ

def Means (k : Kitten) (lits elits : List ℕ) (except : ℕ) : Prop :=
  ∀ σ, (∃ l ∈ lits, Assigns σ (k.exportLiteral l)) ↔ ∃ e ∈ elits, e ≠ except ∧ Assigns σ e

def Complementary (elits : List ℕ) (except : ℕ) : Prop :=
  ∃ e ∈ elits, e ≠ except ∧ neg e ∈ elits ∧ neg e ≠ except

theorem eq_or_neg_of_div {x e : ℕ} (h : x / 2 = e / 2) : x = e ∨ x = neg e := by
  rw [neg_eq e]
  split <;> omega

theorem means_iff {lits : List ℕ} (hs : ∀ e ∈ elits, e ≠ except → externalLiteralSane e = true)
    (hl : lits.map k'.exportLiteral = kept except [] elits) :
    Means k' lits elits except ↔ ¬ Complementary elits except := by
  obtain ⟨hkept, hnd⟩ := @kept_spec except [] elits
  have hstored : ∀ σ, (∃ l ∈ lits, Assigns σ (k'.exportLiteral l)) ↔
      ∃ e ∈ kept except [] elits, Assigns σ e := by
    intro σ
    rw [← hl]
    simp
  constructor
  · rintro hm ⟨e, he, hne, hn, hnne⟩
    obtain ⟨σ, hσ⟩ := exists_falsifies hnd
    have hfalse : ¬ ∃ e ∈ elits, e ≠ except ∧ Assigns σ e := by
      rw [← hm σ, hstored]
      rintro ⟨x, hx, hv⟩
      exact hσ x hx hv
    have hneg := valuations_neg _ ⟨σ, rfl⟩ e
    by_cases hv : Assigns σ e
    · exact hfalse ⟨e, he, hne, hv⟩
    · exact hfalse ⟨neg e, hn, hnne, hneg.mpr hv⟩
  · intro hc σ
    rw [hstored]
    constructor
    · rintro ⟨e, he, hv⟩
      exact ⟨e, mem_of_mem_kept he, (hkept e he).1, hv⟩
    · rintro ⟨e, he, hne, hv⟩
      obtain ⟨x, hx, hdiv⟩ := @exists_mem_kept _ _ [] _ he hne (hs e he hne) (by simp)
      rcases eq_or_neg_of_div hdiv with rfl | rfl
      · exact ⟨x, hx, hv⟩
      · exact absurd ⟨e, he, hne, mem_of_mem_kept hx, (hkept _ hx).1⟩ hc

/-- The stored klause has the meaning of the clause unless that holds a complementary pair, of which
only the first literal is stored. -/
theorem clause_means_iff (h : Tidy k) (hs : ∀ e ∈ elits, e ≠ except → externalLiteralSane e = true) :
    let k' := k.clauseWithIdAndException id elits except
    k'.exhausted = true ∧ k'.klauses = k.renewed.klauses ∨
      ∃ lits, k'.klauses = k.renewed.klauses ++ ([id, lits.length, 0] ++ lits) ∧
        (Means k' lits elits except ↔ ¬ Complementary elits except) := by
  dsimp only
  rcases @clause_stores _ id except elits h with hex | ⟨lits, hw, hl⟩
  · exact .inl hex
  · exact .inr ⟨lits, hw, means_iff hs hl⟩

theorem tidy_new : Tidy .new := ⟨sound_new.tabled, rfl, fun _ => rfl⟩

/-- Any calls leave a kitten without a pending clause. -/
theorem run_tidy {calls : List Call} {s : Session} (hrun : run {} calls = some s)
    (hex : s.kitten.exhausted = false) (ho : s.kitten.referenceOverflow = false) : Tidy s.kitten := by
  obtain ⟨t, ht, hm⟩ := run_mirrors (.refl _) sound_new hrun ho
  rw [← hm.kitten] at hex ⊢
  obtain ⟨db, hidle, -⟩ := (ht.live hex).idle
  exact ⟨ht.tabled, hidle.clean.klause, hidle.clean.marks⟩

theorem clause_means_repeated :
    let k' := clauseWithIdAndException .new 7 [0, 2, 0, 4] 4
    k'.exhausted = true ∧ k'.klauses = (renewed .new).klauses ∨
      ∃ lits, k'.klauses = (renewed .new).klauses ++ ([7, lits.length, 0] ++ lits) ∧
        (Means k' lits [0, 2, 0, 4] 4 ↔ ¬ Complementary [0, 2, 0, 4] 4) :=
  clause_means_iff tidy_new (by simp [externalLiteralSane, MAX_VARS])

/-- Of `x ∨ ¬x ∨ y` the klause `x ∨ y` is stored. -/
theorem not_clause_means :
    (clauseWithIdAndException .new 7 [0, 1, 2] INVALID).klauses = [7, 2, 0, 0, 2] ∧
      ¬ Means (clauseWithIdAndException .new 7 [0, 1, 2] INVALID) [0, 2] [0, 1, 2] INVALID := by
  refine ⟨rfl, fun h => ?_⟩
  obtain ⟨l, hl, hv⟩ := (h fun _ => false).mpr ⟨1, by simp, by simp [INVALID], rfl⟩
  rcases mem_cons.mp hl with rfl | hl
  · cases hv
  · obtain rfl := mem_singleton.mp hl
    cases hv

end Nixie.Kitten
