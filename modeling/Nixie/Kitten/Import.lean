import Nixie.Kitten.Solve

/-!
External literals are numbered in the order in which they are first met.
-/

namespace Nixie.Kitten

open Nixie.Propositional Nixie.Literal List Function

variable {k k' k'' : Kitten} {db : ℕ → Option Klause} {F : Set (Set ℕ)} {e x : ℕ}

structure Tabled (k : Kitten) : Prop where
  lookup : ∀ i e, k.exportTable[i]? = some e ↔ k.importTable e = i + 1
  evars : ∀ e ∈ k.exportTable, e < k.evars
  sane : ∀ e ∈ k.exportTable, e < MAX_VARS

def Known (k : Kitten) (e : ℕ) : Prop := k.importTable (e / 2) ≠ 0

def intern (k : Kitten) (e : ℕ) : ℕ := 2 * (k.importTable (e / 2) - 1) + e % 2

theorem Tabled.known_iff (h : Tabled k) : k.importTable x ≠ 0 ↔ x ∈ k.exportTable := by
  rw [mem_iff_getElem?]
  constructor
  · intro hx
    exact ⟨k.importTable x - 1, (h.lookup _ x).mpr (by omega)⟩
  · rintro ⟨i, hi⟩
    rw [(h.lookup i x).mp hi]
    exact Nat.succ_ne_zero i

theorem Tabled.nodup (h : Tabled k) : k.exportTable.Nodup := by
  rw [nodup_iff_getElem?_ne_getElem?]
  intro i j hij hj heq
  obtain ⟨x, hx⟩ : ∃ x, k.exportTable[j]? = some x := ⟨_, getElem?_eq_getElem hj⟩
  have h1 := (h.lookup j x).mp hx
  have h2 := (h.lookup i x).mp (heq.trans hx)
  omega

theorem Tabled.length_le (h : Tabled k) : k.exportTable.length ≤ MAX_VARS := by
  have hsub : k.exportTable.toFinset ⊆ Finset.range MAX_VARS := by
    intro x hx
    exact Finset.mem_range.mpr (h.sane x (mem_toFinset.mp hx))
  have hcard := Finset.card_le_card hsub
  rwa [toFinset_card_of_nodup h.nodup, Finset.card_range] at hcard

theorem intern_div_two (k : Kitten) (e : ℕ) : intern k e / 2 = k.importTable (e / 2) - 1 := by
  unfold intern
  omega

theorem intern_mod_two (k : Kitten) (e : ℕ) : intern k e % 2 = e % 2 := by
  unfold intern
  omega

theorem Tabled.intern_lt (h : Tabled k) (he : Known k e) : intern k e / 2 < k.exportTable.length := by
  have hget := (h.lookup (k.importTable (e / 2) - 1) (e / 2)).mpr (by unfold Known at he; omega)
  rw [intern_div_two]
  exact (List.getElem?_eq_some_iff.mp hget).1

theorem Tabled.intern_inj {e' : ℕ} (h : Tabled k) (he : Known k e) (he' : Known k e')
    (heq : intern k e / 2 = intern k e' / 2) : e / 2 = e' / 2 := by
  rw [intern_div_two, intern_div_two] at heq
  unfold Known at he he'
  have h1 := (h.lookup (k.importTable (e / 2) - 1) (e / 2)).mpr (by omega)
  have h2 := (h.lookup (k.importTable (e' / 2) - 1) (e' / 2)).mpr (by omega)
  rw [heq] at h1
  exact Option.some.inj (h1.symm.trans h2)

theorem Tabled.export_intern (h : Tabled k) (he : Known k e) : k.exportLiteral (intern k e) = e := by
  unfold Known at he
  have hget := (h.lookup (k.importTable (e / 2) - 1) (e / 2)).mpr (by omega)
  unfold exportLiteral
  rw [intern_div_two, hget, intern_mod_two]
  dsimp only
  omega

theorem neg_intern (k : Kitten) (e : ℕ) : neg (intern k e) = intern k (neg e) := by
  have h1 := intern_mod_two k e
  have h2 := intern_div_two k e
  rw [neg_eq (intern k e), h1]
  unfold intern
  rw [neg_div_two, neg_eq e]
  split <;> omega

def Renumbers (k k' : Kitten) : Prop :=
  ∀ x, k.importTable x ≠ 0 → k'.importTable x = k.importTable x

theorem Renumbers.refl (k : Kitten) : Renumbers k k := fun _ _ => rfl

theorem Renumbers.trans (h : Renumbers k k') (h' : Renumbers k' k'') : Renumbers k k'' := by
  intro x hx
  have h1 := h x hx
  rw [h' x (h1 ▸ hx), h1]

theorem Renumbers.known (h : Renumbers k k') (he : Known k e) : Known k' e := by
  unfold Known at *
  rwa [h _ he]

theorem Renumbers.intern (h : Renumbers k k') (he : Known k e) : intern k' e = intern k e := by
  unfold Kitten.intern
  rw [h _ he]

def Grown (k k' : Kitten) : Prop :=
  k' = { k with
    evars := k'.evars
    exportTable := k'.exportTable
    importTable := k'.importTable
    size := k'.size
    lits := k'.lits
    queue := k'.queue
    links := k'.links
    unassigned := k'.unassigned }

theorem Grown.refl (k : Kitten) : Grown k k := rfl

theorem Grown.trans (h : Grown k k') (h' : Grown k' k'') : Grown k k'' := by
  unfold Grown at h h' ⊢
  rw [h', h]

theorem enqueueNew_grown (idx count : ℕ) (k : Kitten) : Grown k (enqueueNew idx count k) ∧
    (enqueueNew idx count k).importTable = k.importTable ∧ (enqueueNew idx count k).exportTable = k.exportTable ∧
    (enqueueNew idx count k).evars = k.evars := by
  induction count generalizing idx k with
  | zero => exact ⟨.refl k, rfl, rfl, rfl⟩
  | succ count ih =>
    have hrel := enqueue_relinked { k with unassigned := k.unassigned + 1 } idx
    obtain ⟨h1, h2, h3, h4⟩ := ih (idx + 1) (enqueue { k with unassigned := k.unassigned + 1 } idx)
    simp only [enqueueNew]
    generalize enqueue { k with unassigned := k.unassigned + 1 } idx = k1 at *
    unfold Relinked at hrel
    have hg : Grown k k1 := by
      unfold Grown
      rw [hrel]
    refine ⟨hg.trans h1, h2.trans ?_, h3.trans ?_, h4.trans ?_⟩
    all_goals rw [hrel]

theorem searchLast_grown (k : Kitten) : Grown k k.searchLast := by
  unfold searchLast
  split <;> rfl

theorem enlargeInternal_grown (k : Kitten) (n : ℕ) : Grown k (k.enlargeInternal n) ∧ (k.enlargeInternal n).importTable =
    k.importTable ∧ (k.enlargeInternal n).exportTable = k.exportTable ∧ (k.enlargeInternal n).evars = k.evars := by
  unfold enlargeInternal initQueue
  dsimp only
  generalize hk1 : ({ k with size := _, lits := n } : Kitten) = k1
  obtain ⟨h1, h2, h3, h4⟩ := enqueueNew_grown (k.lits / 2) (n / 2 - k.lits / 2) k1
  generalize enqueueNew (k.lits / 2) (n / 2 - k.lits / 2) k1 = k2 at *
  have hg : Grown k k1 := by
    subst hk1
    rfl
  have hlast : k2.searchLast.importTable = k2.importTable ∧
      k2.searchLast.exportTable = k2.exportTable ∧ k2.searchLast.evars = k2.evars := by
    unfold searchLast
    split <;> exact ⟨rfl, rfl, rfl⟩
  subst hk1
  exact ⟨(hg.trans h1).trans (searchLast_grown k2), hlast.1.trans h2, hlast.2.1.trans h3, hlast.2.2.trans h4⟩

def withVar (k : Kitten) (x : ℕ) : Kitten :=
  { k with
    evars := max k.evars (x + 1)
    exportTable := k.exportTable ++ [x]
    importTable := update k.importTable x (k.exportTable.length + 1) }

theorem or_one (i b : ℕ) (hb : b < 2) : 2 * i + b ||| 1 = 2 * i + 1 := by
  have h1 : (2 * i + b) / 2 = i := by omega
  apply Nat.eq_of_testBit_eq
  intro j
  cases j with
  | zero => simp
  | succ j =>
    rw [Nat.testBit_or, Nat.testBit_succ, Nat.testBit_succ, Nat.testBit_succ]
    have h2 : (2 * i + 1) / 2 = i := by omega
    simp [h1, h2]

theorem importLiteral_cases (k : Kitten) (e : ℕ) :
    (k.importTable (e / 2) = 0 ∧ k.importLiteral e =
      (if k.lits < 2 * k.exportTable.length + 2
        then (k.withVar (e / 2)).enlargeInternal (2 * k.exportTable.length + 2)
        else k.withVar (e / 2), 2 * k.exportTable.length + e % 2)) ∨
    (k.importTable (e / 2) ≠ 0 ∧ k.importLiteral e =
      (if k.lits < 2 * (k.importTable (e / 2) - 1) + 2
        then { k with evars := max k.evars (e / 2 + 1) }.enlargeInternal
          (2 * (k.importTable (e / 2) - 1) + 2)
        else { k with evars := max k.evars (e / 2 + 1) }, intern k e)) := by
  have hevars : (if k.evars ≤ e / 2 then { k with evars := e / 2 + 1 } else k) =
      { k with evars := max k.evars (e / 2 + 1) } := by
    split
    · next h => rw [max_eq_right (by omega)]
    · next h => rw [max_eq_left (by omega)]
  have hmod : e % 2 < 2 := Nat.mod_lt _ (by decide)
  unfold importLiteral
  dsimp only
  rw [hevars]
  dsimp only
  by_cases h : k.importTable (e / 2) = 0
  · left
    refine ⟨h, ?_⟩
    simp only [h, if_true, or_one _ _ hmod]
    rfl
  · right
    refine ⟨h, ?_⟩
    simp only [h, if_false, or_one _ _ hmod]
    rfl

theorem importLiteral_grown (k : Kitten) (e : ℕ) : Grown k (k.importLiteral e).1 := by
  rcases importLiteral_cases k e with ⟨_, heq⟩ | ⟨_, heq⟩
  all_goals
    rw [heq]
    dsimp only
    split
  · have hvar : Grown k (k.withVar (e / 2)) := rfl
    exact hvar.trans (enlargeInternal_grown _ _).1
  · rfl
  · have hvar : Grown k { k with evars := max k.evars (e / 2 + 1) } := rfl
    exact hvar.trans (enlargeInternal_grown _ _).1
  · rfl

theorem Tabled.withVar (h : Tabled k) (hx : k.importTable x = 0) (hs : x < MAX_VARS) : Tabled (k.withVar x) := by
  have hnew : x ∉ k.exportTable := fun hmem => h.known_iff.mpr hmem hx
  refine ⟨fun i y => ?_, fun y hy => ?_, fun y hy => ?_⟩
  · show (k.exportTable ++ [x])[i]? = some y ↔ update k.importTable x _ y = i + 1
    rw [getElem?_append]
    by_cases hyx : y = x
    · subst hyx
      rw [update_self]
      split
      · next hi =>
        constructor
        · intro hget
          exact absurd (mem_of_getElem? hget) hnew
        · intro hlen
          omega
      · next hi =>
        constructor
        · intro hget
          have := (List.getElem?_eq_some_iff.mp hget).1
          simp at this
          omega
        · intro hlen
          have h0 : i - k.exportTable.length = 0 := by omega
          simp [h0]
    · rw [update_of_ne hyx, ← h.lookup]
      split
      · rfl
      · next hi =>
        constructor
        · intro hget
          have hmem := mem_of_getElem? hget
          exact absurd (by simpa using hmem) hyx
        · intro hget
          have := (List.getElem?_eq_some_iff.mp hget).1
          omega
  · rcases List.mem_append.mp hy with hy | hy
    · exact lt_max_of_lt_left (h.evars y hy)
    · obtain rfl : y = x := by simpa using hy
      exact lt_max_of_lt_right (Nat.lt_succ_self y)
  · rcases mem_append.mp hy with hy | hy
    · exact h.sane y hy
    · obtain rfl : y = x := by simpa using hy
      exact hs

theorem Tabled.same (h : Tabled k) (h1 : k'.importTable = k.importTable)
    (h2 : k'.exportTable = k.exportTable) (h3 : k.evars ≤ k'.evars) : Tabled k' := by
  refine ⟨fun i y => ?_, fun y hy => ?_, fun y hy => ?_⟩
  · rw [h1, h2]
    exact h.lookup i y
  · exact lt_of_lt_of_le (h.evars y (h2 ▸ hy)) h3
  · exact h.sane y (h2 ▸ hy)

theorem importLiteral_table (h : Tabled k) (hs : externalLiteralSane e = true) : Tabled (k.importLiteral e).1 ∧
    (k.importLiteral e).2 = intern (k.importLiteral e).1 e ∧ Known (k.importLiteral e).1 e ∧ Renumbers k
    (k.importLiteral e).1 := by
  have hs' : e / 2 < MAX_VARS := by simpa [externalLiteralSane] using hs
  rcases importLiteral_cases k e with ⟨h0, heq⟩ | ⟨h0, heq⟩
  all_goals rw [heq]
  · have htab := h.withVar h0 hs'
    have himport : (if k.lits < 2 * k.exportTable.length + 2
        then (k.withVar (e / 2)).enlargeInternal (2 * k.exportTable.length + 2)
        else k.withVar (e / 2)).importTable =
        update k.importTable (e / 2) (k.exportTable.length + 1) := by
      split
      · exact (enlargeInternal_grown _ _).2.1
      · rfl
    refine ⟨?_, ?_, ?_, fun x hx => ?_⟩
    · dsimp only
      split
      · obtain ⟨_, h1, h2, h3⟩ :=
          enlargeInternal_grown (k.withVar (e / 2)) (2 * k.exportTable.length + 2)
        exact htab.same h1 h2 h3.ge
      · exact htab
    · unfold intern
      dsimp only
      rw [himport, update_self]
      omega
    · unfold Known
      dsimp only
      rw [himport, update_self]
      exact Nat.succ_ne_zero _
    · dsimp only
      rw [himport, update_of_ne]
      rintro rfl
      exact hx h0
  · have himport : (if k.lits < 2 * (k.importTable (e / 2) - 1) + 2
        then { k with evars := max k.evars (e / 2 + 1) }.enlargeInternal
          (2 * (k.importTable (e / 2) - 1) + 2)
        else { k with evars := max k.evars (e / 2 + 1) }).importTable = k.importTable := by
      split
      · exact (enlargeInternal_grown _ _).2.1
      · rfl
    have htab : Tabled { k with evars := max k.evars (e / 2 + 1) } := h.same rfl rfl (le_max_left _ _)
    refine ⟨?_, ?_, ?_, fun x _ => ?_⟩
    · dsimp only
      split
      · obtain ⟨_, h1, h2, h3⟩ := enlargeInternal_grown { k with evars := max k.evars (e / 2 + 1) }
          (2 * (k.importTable (e / 2) - 1) + 2)
        exact htab.same h1 h2 h3.ge
      · exact htab
    · unfold intern
      dsimp only
      rw [himport]
    · unfold Known
      dsimp only
      rwa [himport]
    · dsimp only
      rw [himport]

theorem freeCount_succ {values : ℕ → ℤ} {n : ℕ} (hv : Valued values n) :
    freeCount values (n + 1) = freeCount values n + 1 := by
  have h0 : values (2 * n) = 0 := by
    by_contra hne
    have := hv.lt _ hne
    omega
  rw [freeCount, freeCount, Finset.range_add_one, Finset.filter_insert, if_pos h0,
    Finset.card_insert_of_notMem (by simp)]

theorem Stable.withVar (h : Stable k db F) (x : ℕ) :
    Stable ((k.withVar x).enlargeInternal (2 * k.exportTable.length + 2)) db F := by
  have hn : (k.withVar x).exportTable.length = k.exportTable.length + 1 := by
    simp [Kitten.withVar]
  have hcount : (2 * k.exportTable.length + 2) / 2 - k.lits / 2 = 1 := by
    rw [h.lits]
    omega
  have hlits : k.lits / 2 = k.exportTable.length := by
    rw [h.lits]
    omega
  obtain ⟨hg, _, hexp, _⟩ := enlargeInternal_grown (k.withVar x) (2 * k.exportTable.length + 2)
  have hqueue : Queued ((k.withVar x).enlargeInternal (2 * k.exportTable.length + 2)).queue
      ((k.withVar x).enlargeInternal (2 * k.exportTable.length + 2)).links
      (k.exportTable.length + 1) ∧
      ((k.withVar x).enlargeInternal (2 * k.exportTable.length + 2)).unassigned = k.unassigned + 1 ∧
      ((k.withVar x).enlargeInternal (2 * k.exportTable.length + 2)).lits =
        2 * k.exportTable.length + 2 := by
    unfold enlargeInternal initQueue
    dsimp only
    rw [show (k.withVar x).lits = k.lits from rfl, hcount, hlits]
    simp only [enqueueNew]
    generalize hk1 : ({ k.withVar x with
      size := _, lits := 2 * k.exportTable.length + 2,
      unassigned := (k.withVar x).unassigned + 1 } : Kitten) = k1
    have hq1 : Queued k1.queue k1.links k.exportTable.length := by
      subst hk1
      exact h.queued
    have hq2 := hq1.enqueue (Nat.lt_succ_self k.exportTable.length) (Nat.le_succ _)
      fun j hj => Nat.lt_succ_iff_lt_or_eq.mp hj
    have hrel := enqueue_relinked k1 k.exportTable.length
    have hu : (k1.enqueue k.exportTable.length).unassigned = k.unassigned + 1 := by
      rw [hrel]
      subst hk1
      rfl
    have hl : (k1.enqueue k.exportTable.length).lits = 2 * k.exportTable.length + 2 := by
      rw [hrel]
      subst hk1
      rfl
    generalize k1.enqueue k.exportTable.length = k2 at *
    unfold searchLast
    split
    · exact ⟨hq2, hu, hl⟩
    · next last hlast =>
      refine ⟨⟨hq2.prev, hq2.last, ?_⟩, hu, hl⟩
      rintro _ ⟨rfl⟩
      exact hq2.last last hlast
  obtain ⟨hq, hu, hl⟩ := hqueue
  generalize (k.withVar x).enlargeInternal (2 * k.exportTable.length + 2) = k' at *
  have hlen : k'.exportTable.length = k.exportTable.length + 1 := by rw [hexp, hn]
  have hvar : Grown k (k.withVar x) := rfl
  have hgk : Grown k k' := hvar.trans hg
  unfold Grown at hgk
  have hkl := h.klauses
  have hval := h.valued
  refine ⟨?_, ?_, ?_, ?_, ?_, ?_, ?_, ?_, ?_, ?_, ?_, ?_⟩
  · rw [hgk]
    exact h.rep
  · rw [hlen, hgk]
    exact { hkl with lits_lt := fun r c hr l hl => Nat.lt_succ_of_lt (hkl.lits_lt r c hr l hl) }
  · rw [hgk]
    exact h.units
  · rw [hgk]
    exact h.refuted
  · rw [hgk]
    exact h.recorded
  · rw [hlen, hgk]
    exact ⟨hval.neg, hval.range, fun l hl => Nat.lt_succ_of_lt (hval.lt l hl)⟩
  · have hvalues : k'.values = k.values := by rw [hgk]
    rw [hu, hlen, hvalues, freeCount_succ hval, h.free]
  · rw [hlen]
    exact hq
  · rw [hgk]
    exact h.phases
  · rw [hl, hlen]
    rfl
  · rw [hgk]
    exact h.learned
  · rw [hgk]
    exact h.core

theorem Stable.importLiteral (h : Stable k db F) (ht : Tabled k) : Stable (k.importLiteral e).1 db F := by
  rcases importLiteral_cases k e with ⟨h0, heq⟩ | ⟨h0, heq⟩
  all_goals
    rw [heq]
    dsimp only
  · rw [if_pos (by rw [h.lits]; omega)]
    exact h.withVar (e / 2)
  · have hlt := ht.intern_lt h0
    rw [intern_div_two] at hlt
    rw [if_neg (by rw [h.lits]; omega)]
    exact { h with }

section

def Enlisted (k k' : Kitten) : Prop :=
  k' = { k with
    evars := k'.evars
    exportTable := k'.exportTable
    importTable := k'.importTable
    size := k'.size
    lits := k'.lits
    queue := k'.queue
    links := k'.links
    unassigned := k'.unassigned
    marks := k'.marks
    klause := k'.klause }

theorem Enlisted.trans (h : Enlisted k k') (h' : Enlisted k' k'') : Enlisted k k'' := by
  unfold Enlisted at h h' ⊢
  rw [h', h]

theorem Grown.enlisted (h : Grown k k') : Enlisted k k' := by
  unfold Grown at h
  unfold Enlisted
  rw [h]

variable {except : ℕ} {es elits : List ℕ}

theorem importInto_enlisted (k : Kitten) (except e : ℕ) : Enlisted k (k.importInto except e) := by
  have hg := importLiteral_grown k e
  unfold importInto
  split
  · rfl
  · split
    · dsimp only
      split
      · exact hg.enlisted
      · exact hg.enlisted.trans rfl
    · rfl

theorem importAll_enlisted (k : Kitten) (except : ℕ) (elits : List ℕ) :
    Enlisted k (elits.foldl (importInto except) k) := by
  induction elits generalizing k with
  | nil => rfl
  | cons e elits ih => exact (importInto_enlisted k except e).trans (ih _)

theorem importInto_table (h : Tabled k) (hs : e ≠ except → externalLiteralSane e = true) :
    Tabled (k.importInto except e) ∧ Renumbers k (k.importInto except e) ∧
    (e ≠ except → Known (k.importInto except e) e) := by
  unfold importInto
  split
  · next he => exact ⟨h, .refl k, fun hne => absurd he hne⟩
  · next he =>
    have hs := hs he
    obtain ⟨ht, _, hknown, hren⟩ := importLiteral_table h hs
    rw [if_pos hs]
    dsimp only
    split
    · exact ⟨ht, hren, fun _ => hknown⟩
    · exact ⟨ht.same rfl rfl (le_refl _), fun x hx => hren x hx, fun _ => hknown⟩

theorem importAll_table (h : Tabled k) (hs : ∀ e ∈ elits, e ≠ except → externalLiteralSane e = true) : Tabled
    (elits.foldl (importInto except) k) ∧ Renumbers k (elits.foldl (importInto except) k) ∧ ∀ e ∈ elits, e ≠ except →
    Known (elits.foldl (importInto except) k) e := by
  induction elits generalizing k with
  | nil => exact ⟨h, .refl k, by simp⟩
  | cons e elits ih =>
    obtain ⟨h1, h2, h3⟩ := importInto_table h (hs e (by simp))
    obtain ⟨h1', h2', h3'⟩ := ih h1 fun x hx => hs x (mem_cons_of_mem _ hx)
    refine ⟨h1', h2.trans h2', fun x hx hne => ?_⟩
    rcases mem_cons.mp hx with rfl | hx
    · exact h2'.known (h3 hne)
    · exact h3' x hx hne

/-- The state of the loop over the literals of a clause, of which `es` have been taken. -/
structure Importing (k : Kitten) (es : List ℕ) : Prop where
  tabled : Tabled k
  known : ∀ e ∈ es, Known k e
  klause : k.klause = es.map (intern k)
  marks : ∀ i, k.marks i = true ↔ ∃ l ∈ k.klause, i = l / 2

theorem importInto_spec (db : ℕ → Option Klause) (F : Set (Set ℕ)) (h : Importing k es)
    (hs : e ≠ except → externalLiteralSane e = true)
    (hnew : e ≠ except → ∀ x ∈ es, x / 2 ≠ e / 2) :
    Importing (k.importInto except e) (if e = except then es else es ++ [e]) ∧
      (Stable k db F → Stable (k.importInto except e) db F) := by
  unfold importInto
  split
  · exact ⟨h, id⟩
  · next hne =>
    have hs := hs hne
    have hnew := hnew hne
    rw [if_pos hs]
    have hg := importLiteral_grown k e
    obtain ⟨ht, hlit, hknown, hren⟩ := importLiteral_table h.tabled hs
    have hst : Stable k db F → Stable (k.importLiteral e).1 db F := fun hst => hst.importLiteral h.tabled
    generalize k.importLiteral e = p at *
    obtain ⟨k1, ilit⟩ := p
    dsimp only at *
    unfold Grown at hg
    have hklause : k1.klause = es.map (intern k1) := by
      have hk : k1.klause = k.klause := by rw [hg]
      rw [hk, h.klause]
      exact map_congr_left fun x hx => (hren.intern (h.known x hx)).symm
    have hmarks : ∀ i, k1.marks i = true ↔ ∃ l ∈ k1.klause, i = l / 2 := by
      rw [hg]
      exact h.marks
    have hfresh : k1.marks (ilit / 2) ≠ true := by
      rw [ne_eq, hmarks, hklause, hlit]
      rintro ⟨l, hl, hdiv⟩
      obtain ⟨x, hx, rfl⟩ := mem_map.mp hl
      exact hnew x hx (ht.intern_inj (hren.known (h.known x hx)) hknown hdiv.symm)
    rw [if_neg hfresh]
    refine ⟨⟨ht.same rfl rfl (le_refl _), fun x hx => ?_, ?_, fun i => ?_⟩, fun hk => ?_⟩
    · rcases mem_append.mp hx with hx | hx
      · exact hren.known (h.known x hx)
      · obtain rfl : x = e := by simpa using hx
        exact hknown
    · show k1.klause ++ [ilit] = (es ++ [e]).map (intern k1)
      rw [hklause, hlit, map_append, map_singleton]
    · show update k1.marks (ilit / 2) true i = true ↔ ∃ l ∈ k1.klause ++ [ilit], i = l / 2
      by_cases hi : i = ilit / 2
      · subst hi
        simp
      · simp [hi, hmarks i]
    · exact { hst hk with }

theorem importAll_spec (db : ℕ → Option Klause) (F : Set (Set ℕ)) (h : Importing k es)
    (hs : ∀ e ∈ elits, e ≠ except → externalLiteralSane e = true)
    (hnd : ((es ++ elits.filter (· ≠ except)).map (· / 2)).Nodup) :
    Importing (elits.foldl (importInto except) k) (es ++ elits.filter (· ≠ except)) ∧
    (Stable k db F → Stable (elits.foldl (importInto except) k) db F) := by
  induction elits generalizing k es with
  | nil => simpa using h
  | cons e elits ih =>
    have hstep := importInto_spec db F h (hs e (by simp)) (fun hne x hx hdiv => by
      rw [filter_cons_of_pos (by simpa using hne), map_append, map_cons, nodup_middle, nodup_cons] at hnd
      exact hnd.1 (mem_append_left _ (hdiv ▸ mem_map_of_mem hx)))
    have hlist : (if e = except then es else es ++ [e]) ++ elits.filter (· ≠ except) =
        es ++ (e :: elits).filter (· ≠ except) := by
      by_cases he : e = except <;> simp [he]
    obtain ⟨h1, h2⟩ := ih hstep.1 (fun x hx => hs x (mem_cons_of_mem _ hx)) (hlist.symm ▸ hnd)
    rw [hlist] at h1
    exact ⟨h1, fun hk => h2 (hstep.2 hk)⟩

end

section

variable {id : ℕ}

def originalKlause (k : Kitten) (id : ℕ) : Klause := ⟨id, false, false, k.klause, [], rfl⟩

theorem originalKlause_flags (k : Kitten) (id : ℕ) : (k.originalKlause id).flags = 0 := by
  simp [Klause.flags, originalKlause]

theorem newOriginalKlause_cases (h : Represents k.klauses db) (ho : (k.newOriginalKlause id).referenceOverflow = false)
    : (k.newOriginalKlause id).exhausted = true ∨ k.exhausted = false ∧ k.klauses.length + 3 < 2 ^ 32 ∧
    k.newOriginalKlause id = connected k (k.originalKlause id) := by
  unfold newOriginalKlause at ho ⊢
  split
  · next hex => exact .inl hex
  · next hex =>
    rw [if_neg hex] at ho
    have hro : k.newReference.1.referenceOverflow = false := by
      dsimp only at ho
      split at ho
      · exact ho
      · simpa [pushKlause] using ho
    rcases newReference_cases hro with hn | ⟨hlt, hn⟩
    · left
      rw [hn]
      rfl
    · right
      have hne : k.klauses.length ≠ INVALID := by
        unfold INVALID
        omega
      have hpush := pushKlause_connect (c := k.originalKlause id) h hlt rfl
      rw [originalKlause_flags] at hpush
      refine ⟨by simpa using hex, hlt, ?_⟩
      rw [hn]
      dsimp only
      rw [if_neg hne]
      exact hpush

theorem Stable.original (h : Stable k db F) (hlt : k.klauses.length + 3 < 2 ^ 32)
    (hlits : ∀ l ∈ k.klause, l / 2 < k.exportTable.length) (hnd : k.klause.Nodup) :
    Stable (connected k (k.originalKlause id)) (update db k.klauses.length (some (k.originalKlause id)))
    (insert (clauseSet k.klause) F) := by
  refine { h with
    rep := h.rep.push hlt _
    klauses := h.klauses.push_original (c := k.originalKlause id) h.rep.fresh rfl hlits hnd
    units := h.units.push h.rep.fresh
    refuted := fun hsome => ?_
    recorded := fun r hr => recorded_connected h.rep h.recorded hr
    learned := fun hl s d hs => ?_
    core := fun hst s d hs => ?_ }
  · simp only [connected, inconsistentWith] at hsome
    split at hsome
    · next hnil =>
      have hnil' : k.klause = [] := by simpa [originalKlause] using hnil.1
      intro v hv hF
      obtain ⟨l, hl, _⟩ := hF (clauseSet k.klause) (Set.mem_insert _ _)
      simp [clauseSet, hnil'] at hl
    · intro v hv hF
      exact h.refuted hsome v hv fun C hC => hF C (Set.mem_insert_of_mem _ hC)
  · by_cases hsr : s = k.klauses.length
    · subst hsr
      obtain rfl : k.originalKlause id = d := by simpa using hs
      rfl
    · exact h.learned hl s d (by simpa [hsr] using hs)
  · by_cases hsr : s = k.klauses.length
    · subst hsr
      obtain rfl : k.originalKlause id = d := by simpa using hs
      rfl
    · exact h.core hst s d (by simpa [hsr] using hs)

theorem Resting.original (id : ℕ) (h : Resting k db F) (hlt : k.klauses.length + 3 < 2 ^ 32)
    (hlits : ∀ l ∈ k.klause, l / 2 < k.exportTable.length) (hnd : k.klause.Nodup) :
    Resting (connected k (k.originalKlause id)) (update db k.klauses.length (some (k.originalKlause id)))
    (insert (clauseSet k.klause) F) := by
  refine ⟨h.stable.original hlt hlits hnd, ?_, h.nodup, h.true_of_mem, fun l hl => ?_⟩
  · exact h.watched.push h.stable.rep.fresh (c := k.originalKlause id) hnd
  · rcases h.covered l hl with ht | ⟨r, hr, c, hc, hcl⟩
    · exact .inl ht
    · have hne : r ≠ k.klauses.length := by
        rintro rfl
        simp [h.stable.rep.fresh] at hc
      refine .inr ⟨r, ?_, c, by simp [hne, hc], hcl⟩
      show r ∈ unitsWith k.units k.klauses.length k.klause
      unfold unitsWith
      split
      · exact mem_append_left _ hr
      · exact hr

theorem RecordsEmpty.original (id : ℕ) (h : RecordsEmpty k db) (hr : Represents k.klauses db) :
    RecordsEmpty (connected k (k.originalKlause id)) (update db k.klauses.length (some (k.originalKlause id))) := by
  intro r hinc
  have hinc' : inconsistentWith k.inconsistent k.klauses.length k.klause = some r := hinc
  unfold inconsistentWith at hinc'
  split at hinc'
  · next hnil =>
    obtain rfl : k.klauses.length = r := by simpa using hinc'
    exact ⟨k.originalKlause id, by simp, length_eq_zero_iff.mp hnil.1⟩
  · obtain ⟨c, hc, hcl⟩ := h r hinc'
    have hne : r ≠ k.klauses.length := by
      rintro rfl
      simp [hr.fresh] at hc
    exact ⟨c, by simp [hne, hc], hcl⟩

end

end Nixie.Kitten
