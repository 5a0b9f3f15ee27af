import Mathlib.Data.Finset.Card
import Nixie.Kitten.Search
import Nixie.Records

/-!
The klause arena as a finite map from references to klauses.
-/

namespace Nixie.Kitten

open Nixie.Records

/-- What a reference stands for: an original klause has an id in `aux`, a learned one the number of
antecedents that follow its literals. -/
structure Klause where
  aux : ℕ
  learned : Bool
  core : Bool
  lits : List ℕ
  antecedents : List ℕ
  length_antecedents : antecedents.length = if learned then aux else 0

namespace Klause

section

variable (c : Klause)

def flags : ℕ :=
  (if c.core then CORE_FLAG else 0) ||| (if c.learned then LEARNED_FLAG else 0)

def words : List ℕ :=
  [c.aux, c.lits.length, c.flags] ++ c.lits ++ c.antecedents

theorem words_ne_nil : c.words ≠ [] := by
  simp [words]

theorem flags_and_learned : (c.flags &&& LEARNED_FLAG != 0) = c.learned := by
  obtain ⟨_, learned, core, _, _, _⟩ := c
  cases core <;> cases learned <;> simp [flags, CORE_FLAG, LEARNED_FLAG]

theorem flags_and_core : (c.flags &&& CORE_FLAG != 0) = c.core := by
  obtain ⟨_, learned, core, _, _, _⟩ := c
  cases core <;> cases learned <;> simp [flags, CORE_FLAG, LEARNED_FLAG]

theorem flags_or_core : c.flags ||| CORE_FLAG = { c with core := true }.flags := by
  obtain ⟨_, learned, core, _, _, _⟩ := c
  cases core <;> cases learned <;> simp [flags, CORE_FLAG, LEARNED_FLAG]

theorem flags_and_not_core : c.flags &&& (2 ^ 32 - 1 - CORE_FLAG) = { c with core := false }.flags := by
  obtain ⟨_, learned, core, _, _, _⟩ := c
  cases core <;> cases learned <;> simp [flags, CORE_FLAG, LEARNED_FLAG]

end

end Klause

/-- The klauses of an arena all of whose references can be followed without wrapping. -/
def Represents (arena : List ℕ) (db : ℕ → Option Klause) : Prop :=
  ∃ cs, arena = encode Klause.words cs ∧ db = lookup Klause.words cs ∧
    ∀ r c, db r = some c → r + 3 < 2 ^ 32

namespace Represents

variable {k : Kitten} {arena : List ℕ} {db : ℕ → Option Klause} {r i : ℕ} {c : Klause}

theorem nil : Represents [] fun _ => none := ⟨[], rfl, rfl, by simp⟩

section

variable (h : Represents arena db)
include h

theorem lt_of_some (hr : db r = some c) : r + 3 < 2 ^ 32 := by
  obtain ⟨_, _, _, hlt⟩ := h
  exact hlt r c hr

theorem ne_invalid (hr : db r = some c) : r ≠ INVALID := by
  have := h.lt_of_some hr
  unfold INVALID
  omega

theorem invalid : db INVALID = none := by
  cases hr : db INVALID with
  | none => rfl
  | some c => exact absurd rfl (h.ne_invalid hr)

theorem add_length_le (hr : db r = some c) : r + c.words.length ≤ arena.length := by
  obtain ⟨cs, rfl, rfl, _⟩ := h
  exact add_length_le_of_lookup hr

theorem lt_length (hr : db r = some c) : r < arena.length := by
  have hle := h.add_length_le hr
  have hpos := List.length_pos_iff.mpr c.words_ne_nil
  omega

theorem fresh : db arena.length = none := by
  cases hr : db arena.length with
  | none => rfl
  | some c => exact absurd (h.lt_length hr) (lt_irrefl _)

theorem next (hr : db r = some c) : r + c.words.length = arena.length ∨ ∃ d, db (r + c.words.length) = some d := by
  obtain ⟨cs, rfl, rfl, _⟩ := h
  exact lookup_next Klause.words_ne_nil hr

end

theorem apart {s : ℕ} {d : Klause} (h : Represents arena db) (hr : db r = some c)
    (hs : db s = some d) : s ≤ r ∨ r + c.words.length ≤ s := by
  obtain ⟨cs, rfl, rfl, _⟩ := h
  exact lookup_apart Klause.words_ne_nil hr hs

theorem start (h : Represents arena db) : 0 = arena.length ∨ ∃ d, db 0 = some d := by
  obtain ⟨cs, rfl, rfl, _⟩ := h
  cases cs with
  | nil => exact .inl rfl
  | cons c cs => exact .inr ⟨c, by simp [lookup]⟩

section

variable (h : Represents k.klauses db) (hr : db r = some c)
include h hr

theorem word_eq (hi : i < c.words.length) : k.word (r + i) = c.words.getD i 0 := by
  obtain ⟨cs, harena, rfl, _⟩ := h
  obtain ⟨rest, hrest⟩ := drop_of_lookup hr
  have hdrop : k.klauses.getD (r + i) 0 = (k.klauses.drop r).getD i 0 := by
    simp [List.getD_eq_getElem?_getD]
  rw [word, hdrop, harena, hrest]
  simp [List.getD_eq_getElem?_getD, List.getElem?_append_left hi]

theorem wrap_eq (hi : i ≤ 3) : wrap r i = r + i := Nat.mod_eq_of_lt (by have := h.lt_of_some hr; omega)

theorem aux_eq : k.klauseAux r = c.aux := by
  have hw := h.word_eq (i := 0) hr (by simp [Klause.words])
  simpa [klauseAux, Klause.words] using hw

theorem size_eq : k.klauseSize r = c.lits.length := by
  rw [klauseSize, h.wrap_eq hr (by omega), h.word_eq hr (by simp [Klause.words])]
  rfl

theorem flags_eq : k.klauseFlags r = c.flags := by
  rw [klauseFlags, h.wrap_eq hr (by omega), h.word_eq hr (by simp [Klause.words])]
  rfl

theorem learned_eq : k.isLearnedKlause r = c.learned := by
  rw [isLearnedKlause, h.flags_eq hr, c.flags_and_learned]

theorem core_eq : k.isCoreKlause r = c.core := by
  rw [isCoreKlause, h.flags_eq hr, c.flags_and_core]

theorem drop_eq : ∃ rest, k.klauses.drop (wrap r 3) = c.lits ++ (c.antecedents ++ rest) := by
  rw [h.wrap_eq hr (le_refl _), ← List.drop_drop]
  obtain ⟨cs, harena, rfl, _⟩ := h
  obtain ⟨rest, hrest⟩ := drop_of_lookup hr
  refine ⟨rest, ?_⟩
  rw [harena, hrest]
  simp [Klause.words]

theorem lits_eq : k.klauseLits r = c.lits := by
  obtain ⟨rest, hrest⟩ := h.drop_eq hr
  rw [klauseLits, h.size_eq hr, hrest, List.take_left]

theorem antecedents_eq (hl : c.learned = true) : k.klauseAntecedents r = c.antecedents := by
  obtain ⟨rest, hrest⟩ := h.drop_eq hr
  have hlen : c.aux = c.antecedents.length := by simp [c.length_antecedents, hl]
  rw [klauseAntecedents, h.size_eq hr, h.aux_eq hr, ← List.drop_drop, hrest, List.drop_left, hlen, List.take_left]

end

theorem replace (h : Represents arena db) (hr : db r = some c) {d : Klause} {arena' : List ℕ}
    (hlen : d.words.length = c.words.length)
    (harena : ∀ pre post, arena = pre ++ (c.words ++ post) → pre.length = r → arena' = pre ++ (d.words ++ post)) :
    Represents arena' (Function.update db r (some d)) := by
  obtain ⟨cs, rfl, rfl, hlt⟩ := h
  obtain ⟨pre, post, rfl, rfl⟩ := split_of_lookup hr
  refine ⟨pre ++ d :: post, ?_, ?_, ?_⟩
  · simpa using harena (encode Klause.words pre) (encode Klause.words post) (by simp) rfl
  · funext s
    rw [lookup_replace Klause.words_ne_nil hlen]
    by_cases hs : s = (encode Klause.words pre).length
    · simp [hs]
    · simp [hs]
  · intro s d' hs
    by_cases hsr : s = (encode Klause.words pre).length
    · exact hsr ▸ hlt _ _ hr
    · rw [Function.update_of_ne hsr] at hs
      exact hlt s d' hs

theorem setLit (h : Represents k.klauses db) (hr : db r = some c) (lit : ℕ)
    (hi : i < c.lits.length) :
    Represents (k.setLit r i lit).klauses
      (Function.update db r (some { c with lits := c.lits.set i lit })) := by
  refine h.replace hr (by simp [Klause.words]) ?_
  rintro pre post hsplit rfl
  simp only [Kitten.setLit, h.wrap_eq hr (le_refl _), hsplit]
  rw [List.set_append_right _ _ (by omega), List.set_append_left _ _ (by simp [Klause.words]; omega)]
  have h3 : pre.length + 3 + i - pre.length = i + 1 + 1 + 1 := by omega
  simp only [h3, Klause.words, List.cons_append, List.nil_append, List.set_cons_succ, List.length_set, Klause.flags]
  rw [List.set_append_left _ _ hi]

theorem setFlags (h : Represents k.klauses db) (hr : db r = some c) (b : Bool) {flags : ℕ}
    (hflags : flags = { c with core := b }.flags) :
    Represents (k.klauses.set (wrap r 2) flags)
      (Function.update db r (some { c with core := b })) := by
  refine h.replace hr (by simp [Klause.words]) ?_
  rintro pre post hsplit rfl
  rw [h.wrap_eq hr (by omega), hsplit, hflags, List.set_append_right _ _ (by omega),
    List.set_append_left _ _ (by simp [Klause.words])]
  simp [Klause.words]

theorem push (h : Represents arena db) (hlt : arena.length + 3 < 2 ^ 32) (c : Klause) :
    Represents (arena ++ c.words) (Function.update db arena.length (some c)) := by
  obtain ⟨cs, rfl, rfl, hb⟩ := h
  refine ⟨cs ++ [c], by simp, ?_, ?_⟩
  · funext s
    rw [lookup_push Klause.words_ne_nil]
    by_cases hs : s = (encode Klause.words cs).length
    · simp [hs]
    · simp [hs]
  · intro s d hs
    by_cases hsr : s = (encode Klause.words cs).length
    · exact hsr ▸ hlt
    · rw [Function.update_of_ne hsr] at hs
      exact hb s d hs

end Represents

open Nixie.Propositional Nixie.Literal

variable {db db' : ℕ → Option Klause} {F : Set (Set ℕ)} {n r : ℕ} {c : Klause}

def originals (db : ℕ → Option Klause) : Set (Set ℕ) :=
  {C | ∃ r c, db r = some c ∧ c.learned = false ∧ C = clauseSet c.lits}

def clausesOf (db : ℕ → Option Klause) (R : List ℕ) : Set (Set ℕ) :=
  {C | ∃ r ∈ R, ∃ c, db r = some c ∧ C = clauseSet c.lits}

structure Derived (db : ℕ → Option Klause) (r : ℕ) (c : Klause) : Prop where
  older : ∀ a ∈ c.antecedents, a < r ∧ ∃ d, db a = some d
  entails : Entails valuations (clausesOf db c.antecedents) (clauseSet c.lits)

structure Klauses (F : Set (Set ℕ)) (n : ℕ) (tracked : Bool) (db : ℕ → Option Klause) : Prop where
  originals : originals db = F
  entailed : ∀ r c, db r = some c → Entails valuations F (clauseSet c.lits)
  derived : tracked = true → ∀ r c, db r = some c → c.learned = true → Derived db r c
  lits_lt : ∀ r c, db r = some c → ∀ l ∈ c.lits, l / 2 < n
  nodup : ∀ r c, db r = some c → c.lits.Nodup

def Extends (db db' : ℕ → Option Klause) : Prop :=
  ∀ r c, db r = some c → ∃ c', db' r = some c' ∧ c'.lits.Perm c.lits ∧
    c'.learned = c.learned ∧ c'.antecedents = c.antecedents

theorem Extends.refl (db : ℕ → Option Klause) : Extends db db :=
  fun _ c hr => ⟨c, hr, .refl _, rfl, rfl⟩

theorem Extends.push (hr : db r = none) (c : Klause) : Extends db (Function.update db r (some c)) := by
  intro s d hs
  have hne : s ≠ r := by
    rintro rfl
    simp [hr] at hs
  exact ⟨d, by simp [hne, hs], .refl _, rfl, rfl⟩

theorem clauseSet_perm {xs ys : List ℕ} (h : xs.Perm ys) : clauseSet xs = clauseSet ys := by
  ext l
  exact h.mem_iff

theorem clausesOf_subset (h : Extends db db') (R : List ℕ) : clausesOf db R ⊆ clausesOf db' R := by
  rintro _ ⟨r, hr, c, hc, rfl⟩
  obtain ⟨c', hc', hp, _, _⟩ := h r c hc
  exact ⟨r, hr, c', hc', (clauseSet_perm hp).symm⟩

theorem Derived.transport (hd : Derived db r c) (h : Extends db db') {c' : Klause}
    (hp : c'.lits.Perm c.lits) (ha : c'.antecedents = c.antecedents) : Derived db' r c' := by
  refine ⟨fun a hmem => ?_, ?_⟩
  · obtain ⟨hlt, d, hd⟩ := hd.older a (ha ▸ hmem)
    obtain ⟨d', hd', _⟩ := h a d hd
    exact ⟨hlt, d', hd'⟩
  · rw [clauseSet_perm hp, ha]
    exact hd.entails.mono (clausesOf_subset h _)

theorem originals_push_learned (hr : db r = none) (hl : c.learned = true) :
    originals (Function.update db r (some c)) = originals db := by
  ext C
  constructor
  · rintro ⟨s, d, hs, hd, rfl⟩
    by_cases hsr : s = r
    · subst hsr
      obtain rfl : c = d := by simpa using hs
      simp [hl] at hd
    · exact ⟨s, d, by simpa [hsr] using hs, hd, rfl⟩
  · rintro ⟨s, d, hs, hd, rfl⟩
    have hne : s ≠ r := by
      rintro rfl
      simp [hr] at hs
    exact ⟨s, d, by simp [hne, hs], hd, rfl⟩

theorem originals_push_original (hr : db r = none) (hl : c.learned = false) :
    originals (Function.update db r (some c)) = insert (clauseSet c.lits) (originals db) := by
  ext C
  constructor
  · rintro ⟨s, d, hs, hd, rfl⟩
    by_cases hsr : s = r
    · subst hsr
      obtain rfl : c = d := by simpa using hs
      exact Set.mem_insert _ _
    · exact Set.mem_insert_of_mem _ ⟨s, d, by simpa [hsr] using hs, hd, rfl⟩
  · rintro (rfl | ⟨s, d, hs, hd, rfl⟩)
    · exact ⟨r, c, by simp, hl, rfl⟩
    · have hne : s ≠ r := by
        rintro rfl
        simp [hr] at hs
      exact ⟨s, d, by simp [hne, hs], hd, rfl⟩

structure Admissible (F : Set (Set ℕ)) (n : ℕ) (tracked : Bool) (db : ℕ → Option Klause)
    (lits resolved : List ℕ) : Prop where
  entailed : Entails valuations F (clauseSet lits)
  older : tracked = true → ∀ a ∈ resolved, ∃ d, db a = some d
  derived : tracked = true → Entails valuations (clausesOf db resolved) (clauseSet lits)
  lits_lt : ∀ l ∈ lits, l / 2 < n
  nodup : lits.Nodup

variable {tracked : Bool}

theorem Klauses.push_learned (h : Klauses F n tracked db) (hr : db r = none)
    (hold : ∀ s d, db s = some d → s < r) (hl : c.learned = true)
    (hc : Admissible F n tracked db c.lits c.antecedents) : Klauses F n tracked (Function.update db r (some c)) := by
  have hext : Extends db (Function.update db r (some c)) := Extends.push hr c
  refine ⟨(originals_push_learned hr hl).trans h.originals, fun s d hs => ?_,
    fun ht s d hs hd => ?_, fun s d hs => ?_, fun s d hs => ?_⟩
  all_goals
    by_cases hsr : s = r
    · subst hsr
      obtain rfl : c = d := by simpa using hs
      first
        | exact hc.entailed
        | exact hc.lits_lt
        | exact hc.nodup
        | refine ⟨fun a ha => ?_, (hc.derived ht).mono (clausesOf_subset hext _)⟩
          obtain ⟨e, he⟩ := hc.older ht a ha
          obtain ⟨e', he', _⟩ := hext a e he
          exact ⟨hold a e he, e', he'⟩
    · rw [Function.update_of_ne hsr] at hs
      first
        | exact h.entailed s d hs
        | exact h.lits_lt s d hs
        | exact h.nodup s d hs
        | exact (h.derived ht s d hs hd).transport hext (.refl _) rfl

theorem Klauses.push_original (h : Klauses F n tracked db) (hr : db r = none) (hl : c.learned = false)
    (hlt : ∀ l ∈ c.lits, l / 2 < n) (hnd : c.lits.Nodup) :
    Klauses (insert (clauseSet c.lits) F) n tracked (Function.update db r (some c)) := by
  have hext : Extends db (Function.update db r (some c)) := Extends.push hr c
  refine ⟨by rw [originals_push_original hr hl, h.originals], fun s d hs => ?_,
    fun ht s d hs hd => ?_, fun s d hs => ?_, fun s d hs => ?_⟩
  all_goals
    by_cases hsr : s = r
    · subst hsr
      obtain rfl : c = d := by simpa using hs
      first
        | exact Entails.of_mem (Set.mem_insert _ _)
        | exact hlt
        | exact hnd
        | simp [hl] at hd
    · rw [Function.update_of_ne hsr] at hs
      first
        | exact (h.entailed s d hs).mono (Set.subset_insert _ _)
        | exact h.lits_lt s d hs
        | exact h.nodup s d hs
        | exact (h.derived ht s d hs hd).transport hext (.refl _) rfl

theorem Klauses.rearrange (h : Klauses F n tracked db) (h1 : Extends db db') (h2 : Extends db' db) :
    Klauses F n tracked db' := by
  have horig : ∀ {e e' : ℕ → Option Klause}, Extends e e' → Kitten.originals e ⊆ Kitten.originals e' := by
    rintro e e' he _ ⟨s, d, hs, hd, rfl⟩
    obtain ⟨d', hs', hp, hl, _⟩ := he s d hs
    exact ⟨s, d', hs', hl.trans hd, (clauseSet_perm hp).symm⟩
  refine ⟨(Set.Subset.antisymm (horig h2) (horig h1)).trans h.originals, fun s d hs => ?_,
    fun ht s d hs hd => ?_, fun s d hs l hl => ?_, fun s d hs => ?_⟩
  all_goals obtain ⟨d', hs', hp, hl', ha'⟩ := h2 s d hs
  · exact clauseSet_perm hp ▸ h.entailed s d' hs'
  · exact (h.derived ht s d' hs' (hl'.trans hd)).transport h1 hp.symm ha'.symm
  · exact h.lits_lt s d' hs' l (hp.mem_iff.mpr hl)
  · exact hp.nodup_iff.mp (h.nodup s d' hs')

section

def IsWatch (c : Klause) (l : ℕ) : Prop := ∃ a b t, c.lits = a :: b :: t ∧ (l = a ∨ l = b)

/-- A watch of `l` points to a klause watched by `l`, and a binary one holds the other literal. -/
structure WatchOf (db : ℕ → Option Klause) (l : ℕ) (w : Katch) (c : Klause) : Prop where
  some : db w.reference = some c
  isWatch : IsWatch c l
  blit : w.blit ∈ c.lits
  binary : w.binary = true → c.lits = [l, w.blit] ∨ c.lits = [w.blit, l]

structure Watched (ws : ℕ → List Katch) (db : ℕ → Option Klause) : Prop where
  watch : ∀ l, ∀ w ∈ ws l, ∃ c, WatchOf db l w c
  once : ∀ l, ((ws l).map Katch.reference).Nodup
  covered : ∀ r c, db r = some c → ∀ l, IsWatch c l → ∃ w ∈ ws l, w.reference = r

def watchesWith (ws : ℕ → List Katch) (r : ℕ) : List ℕ → ℕ → List Katch
  | a :: b :: t =>
    let ws := Function.update ws a (ws a ++ [⟨b, r, t.isEmpty⟩])
    Function.update ws b (ws b ++ [⟨a, r, t.isEmpty⟩])
  | _ => ws

variable {ws : ℕ → List Katch}

theorem watchesWith_eq {a b : ℕ} {t : List ℕ} (hab : a ≠ b) (l : ℕ) :
    watchesWith ws r (a :: b :: t) l = ws l ++
      if l = a then [⟨b, r, t.isEmpty⟩] else if l = b then [⟨a, r, t.isEmpty⟩] else [] := by
  by_cases hb : l = b
  · subst hb
    simp [watchesWith, hab.symm]
  · by_cases ha : l = a
    · subst ha
      simp [watchesWith, hab]
    · simp [watchesWith, ha, hb]

theorem Watched.push (h : Watched ws db) (hr : db r = none) (hnd : c.lits.Nodup) :
    Watched (watchesWith ws r c.lits) (Function.update db r (some c)) := by
  have hkeep : ∀ l, ∀ w ∈ ws l, ∃ d, WatchOf (Function.update db r (some c)) l w d := by
    intro l w hw
    obtain ⟨d, hd⟩ := h.watch l w hw
    have hne : w.reference ≠ r := by
      intro heq
      simp [← heq, hd.some] at hr
    exact ⟨d, by simp [hne, hd.some], hd.isWatch, hd.blit, hd.binary⟩
  have hfresh : ∀ l, ∀ w ∈ ws l, w.reference ≠ r := by
    intro l w hw heq
    obtain ⟨d, hd⟩ := h.watch l w hw
    simp [← heq, hd.some] at hr
  match hlits : c.lits with
  | [] | [_] =>
    refine ⟨hkeep, h.once, fun s d hs l hl => ?_⟩
    by_cases hsr : s = r
    · subst hsr
      obtain rfl : c = d := by simpa using hs
      obtain ⟨a, b, t, habt, _⟩ := hl
      simp [hlits] at habt
    · exact h.covered s d (by simpa [hsr] using hs) l hl
  | a :: b :: t =>
    have hab : a ≠ b := by
      rintro rfl
      simp [hlits] at hnd
    refine ⟨fun l w hw => ?_, fun l => ?_, fun s d hs l hl => ?_⟩
    · rw [watchesWith_eq hab, List.mem_append] at hw
      rcases hw with hw | hw
      · exact hkeep l w hw
      · refine ⟨c, ?_⟩
        split at hw
        · next hla =>
          obtain rfl : w = ⟨b, r, t.isEmpty⟩ := by simpa using hw
          refine ⟨by simp, ⟨a, b, t, hlits, .inl hla⟩, by simp [hlits], fun ht => .inl ?_⟩
          simp [hlits, hla, List.isEmpty_iff.mp ht]
        · split at hw
          · next hlb =>
            obtain rfl : w = ⟨a, r, t.isEmpty⟩ := by simpa using hw
            refine ⟨by simp, ⟨a, b, t, hlits, .inr hlb⟩, by simp [hlits], fun ht => .inr ?_⟩
            simp [hlits, hlb, List.isEmpty_iff.mp ht]
          · simp at hw
    · rw [watchesWith_eq hab, List.map_append]
      refine List.Nodup.append (h.once l) (by split <;> (try split) <;> simp) ?_
      rw [List.disjoint_left]
      intro s hs hs'
      obtain ⟨w, hw, rfl⟩ := List.mem_map.mp hs
      have := hfresh l w hw
      split at hs'
      · simp_all
      · split at hs' <;> simp_all
    · by_cases hsr : s = r
      · subst hsr
        obtain rfl : c = d := by simpa using hs
        obtain ⟨a', b', t', habt, hl⟩ := hl
        obtain ⟨rfl, rfl, rfl⟩ : a = a' ∧ b = b' ∧ t = t' := by simpa [hlits] using habt
        rw [watchesWith_eq hab]
        rcases hl with rfl | rfl
        · exact ⟨⟨b, s, t.isEmpty⟩, by simp, rfl⟩
        · exact ⟨⟨a, s, t.isEmpty⟩, by simp [hab.symm], rfl⟩
      · obtain ⟨w, hw, hwr⟩ := h.covered s d (by simpa [hsr] using hs) l hl
        exact ⟨w, by rw [watchesWith_eq hab]; exact List.mem_append_left _ hw, hwr⟩

theorem Watched.perm (h : Watched ws db) {ws' : ℕ → List Katch} (hp : ∀ l, (ws' l).Perm (ws l)) : Watched ws' db := by
  refine ⟨fun l w hw => h.watch l w ((hp l).mem_iff.mp hw), fun l => ?_, fun s d hs l hl => ?_⟩
  · exact ((hp l).map _).nodup_iff.mpr (h.once l)
  · obtain ⟨w, hw, hwr⟩ := h.covered s d hs l hl
    exact ⟨w, (hp l).mem_iff.mpr hw, hwr⟩

end

structure Units (units : List ℕ) (inconsistent : Option ℕ) (db : ℕ → Option Klause) : Prop where
  unit : ∀ r ∈ units, ∃ c l, db r = some c ∧ c.lits = [l]
  mem : ∀ r c l, db r = some c → c.lits = [l] → r ∈ units
  empty : ∀ r c, db r = some c → c.lits = [] → inconsistent.isSome = true

def unitsWith (units : List ℕ) (r : ℕ) (lits : List ℕ) : List ℕ :=
  if lits.length = 1 then units ++ [r] else units

def inconsistentWith (inconsistent : Option ℕ) (r : ℕ) (lits : List ℕ) : Option ℕ :=
  if lits.length = 0 ∧ inconsistent.isNone then some r else inconsistent

theorem Units.push {units : List ℕ} {inconsistent : Option ℕ} (h : Units units inconsistent db) (hr : db r = none) :
    Units (unitsWith units r c.lits) (inconsistentWith inconsistent r c.lits) (Function.update db r (some c)) := by
  refine ⟨fun s hs => ?_, fun s d l hs hl => ?_, fun s d hs hl => ?_⟩
  · have hold : s ∈ units → ∃ d l, Function.update db r (some c) s = some d ∧ d.lits = [l] := by
      intro hs
      obtain ⟨d, l, hd, hl⟩ := h.unit s hs
      have hne : s ≠ r := by
        rintro rfl
        simp [hr] at hd
      exact ⟨d, l, by simp [hne, hd], hl⟩
    unfold unitsWith at hs
    split at hs
    · next hlen =>
      rcases List.mem_append.mp hs with hs | hs
      · exact hold hs
      · obtain rfl : s = r := by simpa using hs
        obtain ⟨l, hl⟩ := List.length_eq_one_iff.mp hlen
        exact ⟨c, l, by simp, hl⟩
    · exact hold hs
  · by_cases hsr : s = r
    · subst hsr
      obtain rfl : c = d := by simpa using hs
      simp [unitsWith, hl]
    · have hmem := h.mem s d l (by simpa [hsr] using hs) hl
      unfold unitsWith
      split
      · exact List.mem_append_left _ hmem
      · exact hmem
  · by_cases hsr : s = r
    · subst hsr
      obtain rfl : c = d := by simpa using hs
      cases inconsistent <;> simp [inconsistentWith, hl]
    · have hsome := h.empty s d (by simpa [hsr] using hs) hl
      cases inconsistent <;> simp_all [inconsistentWith]

theorem Units.rearrange {units : List ℕ} {inconsistent : Option ℕ} (h : Units units inconsistent db)
    (h1 : Extends db db') (h2 : Extends db' db) : Units units inconsistent db' := by
  refine ⟨fun s hs => ?_, fun s d l hs hl => ?_, fun s d hs hl => ?_⟩
  · obtain ⟨d, l, hd, hl⟩ := h.unit s hs
    obtain ⟨d', hd', hp, _⟩ := h1 s d hd
    exact ⟨d', l, hd', List.perm_singleton.mp (hl ▸ hp)⟩
  · obtain ⟨d', hd', hp, _⟩ := h2 s d hs
    exact h.mem s d' l hd' (List.perm_singleton.mp (hl ▸ hp))
  · obtain ⟨d', hd', hp, _⟩ := h2 s d hs
    exact h.empty s d' hd' (List.perm_nil.mp (hl ▸ hp))

end Nixie.Kitten
