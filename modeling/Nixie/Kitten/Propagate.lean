import Nixie.Kitten.Learn

/-!
Boolean constraint propagation.
-/

namespace Nixie.Kitten

open Nixie.Propositional Nixie.Literal List Function

variable {k k' : Kitten} {db db' : ℕ → Option Klause} {F : Set (Set ℕ)} {c : Klause}
  {r lit notLit other i p : ℕ}

def swapLits (lits : List ℕ) (other i notLit : ℕ) : List ℕ :=
  ((lits.set 0 other).set 1 (lits.getD i 0)).set i notLit

theorem swapLits_eq {a b : ℕ} {t : List ℕ} (j : ℕ) :
    swapLits (a :: b :: t) other (j + 2) notLit = other :: t.getD j 0 :: t.set j notLit := by
  simp [swapLits]

variable {lits : List ℕ}

theorem swapLits_perm {j : ℕ} (hj : j + 2 < lits.length)
    (hw : lits.getD 0 0 = other ∧ lits.getD 1 0 = notLit ∨ lits.getD 0 0 = notLit ∧ lits.getD 1 0 = other) :
    (swapLits lits other (j + 2) notLit).Perm lits := by
  match lits with
  | [] | [_] => simp at hj
  | a :: b :: t =>
    have hj : j < t.length := by simpa using hj
    rw [swapLits_eq]
    have hget : t.getD j 0 = t[j] := by simp [hj]
    have hset : (t.getD j 0 :: t.set j notLit).Perm (notLit :: t) := by
      rw [hget]
      calc (t[j] :: t.set j notLit).Perm (t[j] :: notLit :: t.eraseIdx j) :=
            (set_perm_cons_eraseIdx hj notLit).cons _
        _ |>.Perm (notLit :: t[j] :: t.eraseIdx j) := List.Perm.swap _ _ _
        _ |>.Perm (notLit :: t) := (getElem_cons_eraseIdx_perm hj).cons _
    rcases hw with ⟨h1, h2⟩ | ⟨h1, h2⟩
    · obtain ⟨rfl, rfl⟩ : a = other ∧ b = notLit := by simpa using ⟨h1, h2⟩
      exact hset.cons _
    · obtain ⟨rfl, rfl⟩ : a = notLit ∧ b = other := by simpa using ⟨h1, h2⟩
      exact (hset.cons _).trans (List.Perm.swap _ _ _)

def moveDb (db : ℕ → Option Klause) (r : ℕ) (c : Klause) (other i notLit : ℕ) :
    ℕ → Option Klause :=
  update db r (some { c with lits := swapLits c.lits other i notLit })

def moveWatches (ws : ℕ → List Katch) (r rep other : ℕ) : ℕ → List Katch :=
  update ws rep (ws rep ++ [⟨other, r, false⟩])

theorem moveWatch_eq (h : Represents k.klauses db) (hr : db r = some c) {j : ℕ}
    (hj : j + 2 < c.lits.length) (other notLit : ℕ) :
    ∃ arena, Represents arena (moveDb db r c other (j + 2) notLit) ∧
      k.moveWatch r other notLit (j + 2) =
        { k with
          klauses := arena
          watches := moveWatches k.watches r (c.lits.getD (j + 2) 0) other } := by
  have hlits := h.lits_eq hr
  have h1 := h.setLit hr other (show 0 < c.lits.length by omega)
  have h2 := h1.setLit (update_self r _ db) (c.lits.getD (j + 2) 0) (i := 1) (by simp only [length_set]; omega)
  have h3 := h2.setLit (update_self r _ _) notLit (i := j + 2) (by simp only [length_set]; omega)
  simp only [update_idem] at h3
  refine ⟨_, h3, ?_⟩
  have hlits3 := h3.lits_eq (update_self r _ db)
  simp only [moveWatch, watchKlause, hlits, hlits3]
  obtain ⟨a, b, t, hc⟩ : ∃ a b t, c.lits = a :: b :: t := by
    rcases hc : c.lits with _ | ⟨a, _ | ⟨b, t⟩⟩
    · simp [hc] at hj
    · simp [hc] at hj
    · exact ⟨a, b, t, rfl⟩
  simp [hc, Kitten.setLit, moveWatches]

theorem extends_moveDb (hr : db r = some c) (hp : (swapLits c.lits other i notLit).Perm c.lits) :
    Extends db (moveDb db r c other i notLit) ∧ Extends (moveDb db r c other i notLit) db := by
  constructor
  · intro s d hs
    by_cases hsr : s = r
    · subst hsr
      obtain rfl : c = d := by simpa [hr] using hs
      exact ⟨_, update_self _ _ _, hp, rfl, rfl⟩
    · exact ⟨d, by simp [moveDb, hsr, hs], .refl _, rfl, rfl⟩
  · intro s d hs
    by_cases hsr : s = r
    · subst hsr
      obtain rfl : _ = d := by simpa [moveDb] using hs
      exact ⟨c, hr, hp.symm, rfl, rfl⟩
    · exact ⟨d, by simpa [moveDb, hsr] using hs, .refl _, rfl, rfl⟩

structure Movable (c : Klause) (other notLit j : ℕ) : Prop where
  lt : j + 2 < c.lits.length
  nodup : c.lits.Nodup
  watches : c.lits.getD 0 0 = other ∧ c.lits.getD 1 0 = notLit ∨
    c.lits.getD 0 0 = notLit ∧ c.lits.getD 1 0 = other

theorem Movable.ne {j : ℕ} (h : Movable c other notLit j) :
    other ≠ notLit ∧ c.lits.getD (j + 2) 0 ≠ notLit ∧ c.lits.getD (j + 2) 0 ≠ other := by
  obtain ⟨hlt, hnd, hw⟩ := h
  match hc : c.lits with
  | [] | [_] => simp [hc] at hlt
  | a :: b :: t =>
    have hj : j < t.length := by simpa [hc] using hlt
    have hmem : t.getD j 0 ∈ t := by simp [hj]
    simp only [hc, nodup_cons, mem_cons, not_or] at hnd
    simp only [hc, getD_cons_zero, getD_cons_succ] at hw ⊢
    grind

theorem Movable.isWatch {j l : ℕ} (h : Movable c other notLit j) : IsWatch c l ↔ l = other ∨ l = notLit := by
  obtain ⟨hlt, _, hw⟩ := h
  unfold IsWatch
  match hc : c.lits with
  | [] | [_] => simp [hc] at hlt
  | a :: b :: t =>
    simp only [hc, getD_cons_zero, getD_cons_succ] at hw
    constructor
    · rintro ⟨a', b', t', heq, hl⟩
      obtain ⟨rfl, rfl, rfl⟩ : a = a' ∧ b = b' ∧ t = t' := by simpa using heq
      grind
    · intro hl
      exact ⟨a, b, t, rfl, by grind⟩

theorem Movable.isWatch_swap {j l : ℕ} (h : Movable c other notLit j) :
    IsWatch { c with lits := swapLits c.lits other (j + 2) notLit } l ↔
      l = other ∨ l = c.lits.getD (j + 2) 0 := by
  obtain ⟨hlt, _, hw⟩ := h
  unfold IsWatch
  match hc : c.lits with
  | [] | [_] => simp [hc] at hlt
  | a :: b :: t =>
    simp only [swapLits_eq, getD_cons_succ]
    constructor
    · rintro ⟨a', b', t', heq, hl⟩
      obtain ⟨rfl, rfl, rfl⟩ : other = a' ∧ t.getD j 0 = b' ∧ t.set j notLit = t' := by
        simpa using heq
      exact hl
    · intro hl
      exact ⟨_, _, _, rfl, hl⟩

theorem Watched.move {ws : ℕ → List Katch} {kept rest : List Katch} {katch : Katch} {j : ℕ}
    (h : Watched (update ws notLit (kept ++ katch :: rest)) db) (hr : db katch.reference = some c)
    (hm : Movable c other notLit j) : Watched
    (update (moveWatches ws katch.reference (c.lits.getD (j + 2) 0) other) notLit (kept ++ rest))
    (moveDb db katch.reference c other (j + 2) notLit) := by
  obtain ⟨hon, hrn, hro⟩ := hm.ne
  have hperm := swapLits_perm hm.lt hm.watches
  have hself : moveDb db katch.reference c other (j + 2) notLit katch.reference =
      some { c with lits := swapLits c.lits other (j + 2) notLit } := update_self _ _ _
  have hne : ∀ s, s ≠ katch.reference →
      moveDb db katch.reference c other (j + 2) notLit s = db s := fun s hs => by simp [moveDb, hs]
  -- the watches of other literals that stay, and the klause they lead to now
  have hstay : ∀ l, l ≠ notLit → ∀ w ∈ ws l,
      ∃ d, WatchOf (moveDb db katch.reference c other (j + 2) notLit) l w d := by
    intro l hl w hw
    obtain ⟨d, hd⟩ := h.watch l w (by simpa [hl] using hw)
    by_cases hwr : w.reference = katch.reference
    · obtain rfl : c = d := by simpa [hwr, hr] using hd.some
      refine ⟨_, hwr ▸ hself, hm.isWatch_swap.mpr ?_, hperm.mem_iff.mpr hd.blit, fun hb => ?_⟩
      · exact .inl ((hm.isWatch.mp hd.isWatch).resolve_right hl)
      · have hlen := hm.lt
        rcases hd.binary hb with hd2 | hd2
        all_goals
          simp only [hd2, length_cons, length_nil] at hlen
          omega
    · exact ⟨d, (hne _ hwr).trans hd.some, hd.isWatch, hd.blit, hd.binary⟩
  have honce := h.once notLit
  simp only [update_self, map_append, map_cons] at honce
  have hgone : katch.reference ∉ (kept ++ rest).map Katch.reference := by
    have := (nodup_middle.mp honce)
    rw [nodup_cons, ← map_append] at this
    exact this.1
  refine ⟨fun l w hw => ?_, fun l => ?_, fun s d hs l hl => ?_⟩
  · by_cases hl : l = notLit
    · subst hl
      simp only [update_self] at hw
      obtain ⟨d, hd⟩ := h.watch l w (by
        simp only [update_self, mem_append, mem_cons] at hw ⊢
        tauto)
      have hwr : w.reference ≠ katch.reference := fun heq =>
        hgone (heq ▸ mem_map_of_mem hw)
      exact ⟨d, (hne _ hwr).trans hd.some, hd.isWatch, hd.blit, hd.binary⟩
    · rw [update_of_ne hl] at hw
      by_cases hrep : l = c.lits.getD (j + 2) 0
      · subst hrep
        simp only [moveWatches, update_self, mem_append, mem_singleton] at hw
        rcases hw with hw | rfl
        · exact hstay _ hl w hw
        · exact ⟨_, hself, hm.isWatch_swap.mpr (.inr rfl),
            hperm.mem_iff.mpr (by
              obtain ⟨a, b, t, hc, ho⟩ := hm.isWatch.mpr (.inl rfl)
              rw [hc]
              rcases ho with rfl | rfl <;> simp), by simp⟩
      · rw [moveWatches, update_of_ne hrep] at hw
        exact hstay l hl w hw
  · by_cases hl : l = notLit
    · subst hl
      rw [update_self, map_append]
      exact (nodup_middle.mp honce).of_cons
    · have hold := h.once l
      rw [update_of_ne hl] at hold ⊢
      by_cases hrep : l = c.lits.getD (j + 2) 0
      · subst hrep
        rw [moveWatches, update_self, map_append]
        refine List.Nodup.append hold (by simp) ?_
        simp only [map_cons, map_nil, disjoint_singleton]
        intro hmem
        obtain ⟨w, hw, hwr⟩ := mem_map.mp hmem
        obtain ⟨d, hd⟩ := h.watch _ w (by rwa [update_of_ne hl])
        obtain rfl : c = d := by simpa [hwr, hr] using hd.some
        rcases hm.isWatch.mp hd.isWatch with heq | heq
        · exact hro heq
        · exact hrn heq
      · rwa [moveWatches, update_of_ne hrep]
  · by_cases hsr : s = katch.reference
    · subst hsr
      obtain rfl : _ = d := by simpa [hself] using hs
      rcases hm.isWatch_swap.mp hl with rfl | rfl
      · obtain ⟨w, hw, hwr⟩ := h.covered _ c hr l (hm.isWatch.mpr (.inl rfl))
        rw [update_of_ne hon] at hw
        refine ⟨w, ?_, hwr⟩
        rw [update_of_ne hon, moveWatches, update_of_ne hro.symm]
        exact hw
      · refine ⟨⟨other, katch.reference, false⟩, ?_, rfl⟩
        rw [update_of_ne hrn, moveWatches, update_self]
        simp
    · obtain ⟨w, hw, hwr⟩ := h.covered s d ((hne s hsr).symm.trans hs) l hl
      refine ⟨w, ?_, hwr⟩
      by_cases hln : l = notLit
      · subst hln
        simp only [update_self, mem_append, mem_cons] at hw ⊢
        rcases hw with hw | rfl | hw
        · exact .inl hw
        · exact absurd hwr.symm hsr
        · exact .inr hw
      · rw [update_of_ne hln] at hw ⊢
        by_cases hrep : l = c.lits.getD (j + 2) 0
        · subst hrep
          rw [moveWatches, update_self]
          exact mem_append_left _ hw
        · rwa [moveWatches, update_of_ne hrep]

theorem findReplacement_some {values : ℕ → ℤ} (h : findReplacement values lits = some i) : ∃ j, i = j + 2 ∧
    j + 2 < lits.length ∧ 0 ≤ values (lits.getD (j + 2) 0) := by
  simp only [findReplacement, Option.map_eq_some_iff] at h
  obtain ⟨j, hj, rfl⟩ := h
  obtain ⟨hlt, hval, _⟩ := findIdx?_eq_some_iff_getElem.mp hj
  have hlt' : j + 2 < lits.length := by
    rw [length_drop] at hlt
    omega
  refine ⟨j, rfl, hlt', ?_⟩
  simpa [Nat.add_comm j 2, getElem_drop, Nat.add_comm 2 j ▸ hlt'] using hval

theorem findReplacement_none {values : ℕ → ℤ} (h : findReplacement values lits = none) :
    ∀ l ∈ lits.drop 2, values l < 0 := by
  simp only [findReplacement, Option.map_eq_none_iff, findIdx?_eq_none_iff] at h
  intro l hl
  simpa using h l hl

/-- The state of the pass over the watches of `notLit`: `kept` has been gone through, `rest` not.
The trail from position `p` on waits for its own turn. -/
structure Scanning (k : Kitten) (db : ℕ → Option Klause) (F : Set (Set ℕ)) (notLit : ℕ)
    (kept rest : List Katch) (p : ℕ) : Prop where
  running : Running k db F
  clean : Clean k
  assuming : Assuming k.assumptions k.values k.vars k.level
  watched : Watched (update k.watches notLit (kept ++ rest)) db
  blocked : Blocked k.values k.vars (update k.watches notLit kept) db (k.trail.drop p)
    INVALID
  falsified : k.values notLit = -1
  atLevel : lev k.vars notLit = k.level
  turn : p = k.propagated + 1 ∧ k.trail[k.propagated]? = some (neg notLit)
  pending : ∀ l ∈ k.trail.drop p, lev k.vars l = k.level
  rooted : 0 < k.level → ∀ l ∈ k.trail, 0 < lev k.vars l
  unitsTrue : UnitsTrue k.values k.vars db
  consistent : k.inconsistent = none

theorem Scanning.length {kept rest : List Katch} (h : Scanning k db F notLit kept rest p) : p ≤ k.trail.length := by
  obtain ⟨rfl, hlit⟩ := h.turn
  exact (List.getElem?_eq_some_iff.mp hlit).1

theorem Scanning.keep {kept rest : List Katch} {katch katch' : Katch}
    (h : Scanning k db F notLit kept (katch :: rest) p) (href : katch'.reference = katch.reference)
    (hw : WatchOf db notLit katch' c) {b : ℕ} (hb : b ∈ c.lits) (hvb : k.values b = 1) :
    Scanning k db F notLit (kept ++ [katch']) rest p := by
  have hguard : Guarded k.values k.vars db notLit katch'.reference :=
    ⟨c, b, hw.some, hb, hvb, h.atLevel.symm ▸ h.running.trailed.le_level b hvb⟩
  refine { h with watched := ?_, blocked := fun l w hwl hx hl hp => ?_ }
  · have hold := h.watched
    refine ⟨fun l w hwl => ?_, fun l => ?_, fun s d hs l hl => ?_⟩
    · by_cases hln : l = notLit
      · subst hln
        simp only [update_self, append_assoc, singleton_append, mem_append, mem_cons] at hwl
        rcases hwl with hwl | rfl | hwl
        · exact hold.watch l w (by simp [hwl])
        · exact ⟨c, hw⟩
        · exact hold.watch l w (by simp [hwl])
      · exact hold.watch l w (by simpa [hln] using hwl)
    · have honce := hold.once l
      by_cases hln : l = notLit
      · subst hln
        simpa [href] using honce
      · simpa [hln] using honce
    · obtain ⟨w, hwl, hwr⟩ := hold.covered s d hs l hl
      by_cases hln : l = notLit
      · subst hln
        simp only [update_self, mem_append, mem_cons] at hwl
        rcases hwl with hwl | rfl | hwl
        · exact ⟨w, by simp [hwl], hwr⟩
        · exact ⟨katch', by simp, href.trans hwr⟩
        · exact ⟨w, by simp [hwl], hwr⟩
      · exact ⟨w, by simpa [hln] using hwl, hwr⟩
  · by_cases hln : l = notLit
    · subst hln
      simp only [update_self, mem_append, mem_singleton] at hwl
      rcases hwl with hwl | rfl
      · exact h.blocked l w (by simpa using hwl) hx hl hp
      · exact hguard
    · exact h.blocked l w (by simpa [hln] using hwl) hx hl hp

theorem Scanning.move {kept rest : List Katch} {katch : Katch} {j : ℕ}
    (h : Scanning k db F notLit kept (katch :: rest) p) (hr : db katch.reference = some c)
    (hm : Movable c other notLit j) (hrep : 0 ≤ k.values (c.lits.getD (j + 2) 0)) :
    ∃ db', Scanning (k.moveWatch katch.reference other notLit (j + 2)) db' F notLit kept rest p := by
  obtain ⟨arena, harena, heq⟩ :=
    moveWatch_eq h.running.stable.rep hr hm.lt other notLit
  obtain ⟨hext, hext'⟩ := extends_moveDb hr (swapLits_perm hm.lt hm.watches)
  refine ⟨moveDb db katch.reference c other (j + 2) notLit, ?_⟩
  rw [heq]
  have hst := h.running.stable
  have hunits : UnitsTrue k.values k.vars (moveDb db katch.reference c other (j + 2) notLit) := by
    intro s d l hs hl
    obtain ⟨d', hs', hp, _⟩ := hext' s d hs
    exact h.unitsTrue s d' l hs' (perm_singleton.mp (hl ▸ hp))
  refine { h with
    running := ⟨{ hst with
      rep := harena
      klauses := hst.klauses.rearrange hext hext'
      units := hst.units.rearrange hext hext'
      recorded := fun s hs => ?_
      learned := fun hl s d hs => ?_
      core := fun hc s d hs => ?_ }, h.running.trailed.transport hext,
      fun he => (h.running.rootUnits he).transport hext⟩
    clean := ⟨h.clean.marks, h.clean.analyzed, h.clean.klause, h.clean.resolved⟩
    watched := h.watched.move hr hm
    unitsTrue := hunits
    blocked := fun l w hwl hx hl hp => ?_ }
  · obtain ⟨d, hd⟩ := hst.recorded s hs
    obtain ⟨d', hd', _⟩ := hext s d hd
    exact ⟨d', hd'⟩
  · obtain ⟨d', hs', _, hl', _⟩ := hext' s d hs
    exact hl'.symm.trans (hst.learned hl s d' hs')
  · by_cases hsr : s = katch.reference
    · subst hsr
      obtain rfl : _ = d := by simpa [moveDb] using hs
      exact hst.core hc _ c hr
    · exact hst.core hc s d (by simpa [moveDb, hsr] using hs)
  · refine (h.blocked l w ?_ hx hl hp).transport hext
    by_cases hln : l = notLit
    · subst hln
      simpa using hwl
    · rw [update_of_ne hln] at hwl ⊢
      by_cases hlr : l = c.lits.getD (j + 2) 0
      · -- the new watch is on a literal that is not false
        exfalso
        have hneg : k.values l = -1 := hl
        rw [← hlr] at hrep
        omega
      · have hwl' : w ∈ moveWatches k.watches katch.reference (c.lits.getD (j + 2) 0) other l := hwl
        rwa [moveWatches, update_of_ne hlr] at hwl'

theorem Scanning.assign {kept rest : List Katch} {reason : ℕ} (h : Scanning k db F notLit kept rest p)
    (h0 : k.values lit = 0) (hc : db reason = some c) (hmem : lit ∈ c.lits)
    (hothers : ∀ m ∈ c.lits, m ≠ lit → k.values m = -1) (ho : (k.assign lit reason).referenceOverflow = false) :
    ∃ db', Scanning (k.assign lit reason) db' F notLit kept rest p ∧ Extends db db' ∧
    (k.assign lit reason).values lit = 1 := by
  have hval := h.running.stable.valued
  have hlt := h.running.stable.klauses.lits_lt _ c hc lit hmem
  obtain ⟨db', hrun, hclean, hext, hws, has, hnew⟩ :=
    h.running.assign h.clean h0 hlt (.inr ⟨c, hc, hmem, hothers⟩) ho
  obtain ⟨why, hvars, hwhy⟩ := has.vars
  have hdrop : (k.assign lit reason).trail.drop p = k.trail.drop p ++ [lit] := by
    rw [has.trail, drop_append_of_le_length h.length]
  have hd := hval.div_ne h0 (l := notLit) (by have := h.falsified; omega)
  have holdlev : ∀ l ∈ k.trail, lev (setVar k.vars lit k.level why) l = lev k.vars l := by
    intro l hl
    have hvl := h.running.trailed.true_of_mem l hl
    exact lev_setVar (hval.div_ne h0 (by omega))
  refine ⟨db', ⟨hrun, hclean, ?_, ?_, ?_, ?_, ?_, ?_, ?_, ?_, ?_, has.inconsistent.trans h.consistent⟩, hext, ?_⟩
  · rw [(assign_frame k lit reason).assumptions, has.values, hvars, has.level]
    refine h.assuming.assign hval h0 (fun i a _ hi => .inl hi) fun hw => ?_
    exact absurd (hwhy hw ▸ hw) (h.running.stable.rep.ne_invalid hc)
  · rw [has.watches]
    exact hws _ h.watched
  · rw [has.watches, has.values, hvars, hdrop]
    exact (h.blocked.transport hext).assign hval h0 (by simp) (by simp)
  · rw [has.values, assignValues_of_ne hval h0 (by have := h.falsified; omega)]
    exact h.falsified
  · rw [hvars, lev_setVar hd, has.level]
    exact h.atLevel
  · obtain ⟨hp, hlit⟩ := h.turn
    have hlen := (List.getElem?_eq_some_iff.mp hlit).1
    rw [has.trail, has.propagated, getElem?_append_left hlen]
    exact ⟨hp, hlit⟩
  · rw [hdrop, hvars, has.level]
    intro l hl
    rcases mem_append.mp hl with hl | hl
    · rw [holdlev l (mem_of_mem_drop hl)]
      exact h.pending l hl
    · obtain rfl : l = lit := by simpa using hl
      exact lev_setVar_self
  · rw [has.trail, hvars, has.level]
    intro hpos l hl
    rcases mem_append.mp hl with hl | hl
    · rw [holdlev l hl]
      exact h.rooted hpos l hl
    · obtain rfl : l = lit := by simpa using hl
      rwa [lev_setVar_self]
  · rw [has.values, hvars]
    exact h.unitsTrue.assign hval h0 hnew
  · rw [has.values, assignValues_eq]
    simp

structure Conflict (k : Kitten) (db : ℕ → Option Klause) (r : ℕ) : Prop where
  falsified : ∃ c, db r = some c ∧ (∀ l ∈ c.lits, k.values l = -1) ∧
    ∃ l ∈ c.lits, lev k.vars l = k.level

theorem watches_of_isWatch (h : IsWatch c notLit) (hother : other = c.lits.getD 0 0 ^^^ c.lits.getD 1 0 ^^^ notLit) :
    (c.lits.getD 0 0 = other ∧ c.lits.getD 1 0 = notLit ∨ c.lits.getD 0 0 = notLit ∧ c.lits.getD 1 0 = other) ∧
    ∀ m ∈ c.lits, m ∈ c.lits.drop 2 ∨ m = other ∨ m = notLit := by
  obtain ⟨a, b, t, hc, hl⟩ := h
  simp only [hc, getD_cons_zero, getD_cons_succ] at hother ⊢
  rcases hl with rfl | rfl
  · rw [xor_xor_left] at hother
    subst hother
    refine ⟨.inr ⟨rfl, rfl⟩, fun m hm => ?_⟩
    simp at hm ⊢
    tauto
  · rw [xor_xor_right] at hother
    subst hother
    refine ⟨.inl ⟨rfl, rfl⟩, fun m hm => ?_⟩
    simp at hm ⊢
    tauto

theorem scanWatches_spec {rest kept : List Katch} {ticks : ℕ} {s : Scan} (h : Scanning k db F notLit kept rest p)
    (hs : scanWatches notLit k rest kept ticks = s) (ho : s.kitten.referenceOverflow = false) :
    ∃ db' kept' rest', s.kept = kept' ++ rest' ∧ Scanning s.kitten db' F notLit kept' rest' p ∧
    (s.conflict = none → rest' = []) ∧ ∀ r, s.conflict = some r → Conflict s.kitten db' r := by
  induction rest generalizing k db kept ticks with
  | nil =>
    obtain rfl : _ = s := hs
    exact ⟨db, kept, [], by simp [scanWatches], h, fun _ => rfl, by simp [scanWatches]⟩
  | cons katch rest ih =>
    obtain ⟨c, hw⟩ := h.watched.watch notLit katch (by simp)
    have hval := h.running.stable.valued
    have hframe := scanWatches_frame notLit
    have hnot := hw.isWatch
    simp only [scanWatches] at hs
    split at hs
    · next hpos =>
      have hone : k.values katch.blit = 1 := by
        have := hval.range katch.blit
        omega
      exact ih (h.keep rfl hw hw.blit hone) hs
    · next hpos =>
      split at hs
      · -- a binary klause: the blocking literal is the other one
        next hbin =>
        have hothers : ∀ m ∈ c.lits, m ≠ katch.blit → k.values m = -1 := by
          intro m hm hne
          have hmn : m = notLit := by
            rcases hw.binary hbin with hc | hc <;> simp [hc] at hm <;> tauto
          exact hmn ▸ h.falsified
        split at hs
        · next hneg =>
          subst hs
          refine ⟨db, kept, katch :: rest, rfl, h, by simp, ?_⟩
          rintro r ⟨rfl⟩
          have hmem : notLit ∈ c.lits := by
            rcases hw.binary hbin with hc | hc <;> simp [hc]
          refine ⟨c, hw.some, fun l hl => ?_, notLit, hmem, h.atLevel⟩
          by_cases hlb : l = katch.blit
          · have hrange := hval.range katch.blit
            rw [hlb]
            exact (hrange.resolve_right (by omega))
          · exact hothers l hl hlb
        · next hneg =>
          have h0 : k.values katch.blit = 0 := by omega
          have ho' := (hframe (k.assign katch.blit katch.reference) rest (kept ++ [katch]) ticks).overflow (hs ▸ ho)
          obtain ⟨db', h', hext, hone⟩ := h.assign h0 hw.some hw.blit hothers ho'
          obtain ⟨d, hd⟩ := h'.watched.watch notLit katch (by simp)
          exact ih (h'.keep rfl hd hd.blit hone) hs
      · next hbin =>
        rw [h.running.stable.rep.lits_eq hw.some] at hs
        obtain ⟨hwatches, hrest⟩ := watches_of_isWatch hnot rfl
        generalize hother : c.lits.getD 0 0 ^^^ c.lits.getD 1 0 ^^^ notLit = other at *
        have homem : other ∈ c.lits := by
          obtain ⟨a, b, t, hc, _⟩ := hnot
          simp only [hc, getD_cons_zero, getD_cons_succ] at hwatches ⊢
          rcases hwatches with ⟨rfl, _⟩ | ⟨_, rfl⟩ <;> simp
        split at hs
        · next hopos =>
          have hone : k.values other = 1 := by
            have := hval.range other
            omega
          have hw' : WatchOf db notLit { katch with blit := other } c :=
            ⟨hw.some, hw.isWatch, homem, fun hb => absurd hb hbin⟩
          have href : ({ katch with blit := other } : Katch).reference = katch.reference := rfl
          exact ih (h.keep href hw' homem hone) hs
        · next hopos =>
          split at hs
          · next j hj =>
            obtain ⟨j, rfl, hlt, hrep⟩ := findReplacement_some hj
            have hmov : Movable c other notLit j := ⟨hlt, h.running.stable.klauses.nodup _ c hw.some, hwatches⟩
            obtain ⟨db', h'⟩ := h.move hw.some hmov hrep
            exact ih h' hs
          · next hnone =>
            have htail := findReplacement_none hnone
            have hothers : ∀ m ∈ c.lits, m ≠ other → k.values m = -1 := by
              intro m hm hne
              rcases hrest m hm with hm | hm | hm
              · have := htail m hm
                have := hval.range m
                omega
              · exact absurd hm hne
              · exact hm ▸ h.falsified
            have hmem : notLit ∈ c.lits := by
              obtain ⟨a, b, t, hc, hl⟩ := hnot
              rcases hl with rfl | rfl <;> simp [hc]
            split at hs
            · next hneg =>
              subst hs
              refine ⟨db, kept, katch :: rest, rfl, h, by simp, ?_⟩
              rintro r ⟨rfl⟩
              refine ⟨c, hw.some, fun l hl => ?_, notLit, hmem, h.atLevel⟩
              by_cases hlo : l = other
              · have hrange := hval.range other
                rw [hlo]
                exact (hrange.resolve_right (by omega))
              · exact hothers l hl hlo
            · next hneg =>
              have h0 : k.values other = 0 := by omega
              have ho' := (hframe (k.assign other katch.reference) rest (kept ++ [katch])
                (ticks + 1)).overflow (hs ▸ ho)
              obtain ⟨db', h', hext, hone⟩ := h.assign h0 hw.some homem hothers ho'
              obtain ⟨d, hd⟩ := h'.watched.watch notLit katch (by simp)
              obtain ⟨d', hd', hp, _⟩ := hext _ c hw.some
              obtain rfl : d' = d := by simpa [hd'] using hd.some
              exact ih (h'.keep rfl hd (hp.mem_iff.mpr homem) hone) hs

/-- A search between two steps: the trail from position `p` on is still to be propagated. -/
structure Searching (k : Kitten) (db : ℕ → Option Klause) (F : Set (Set ℕ)) (p : ℕ) : Prop where
  running : Running k db F
  clean : Clean k
  assuming : Assuming k.assumptions k.values k.vars k.level
  watched : Watched k.watches db
  blocked : Blocked k.values k.vars k.watches db (k.trail.drop p) INVALID
  pending : ∀ l ∈ k.trail.drop p, lev k.vars l = k.level
  rooted : 0 < k.level → ∀ l ∈ k.trail, 0 < lev k.vars l
  unitsTrue : UnitsTrue k.values k.vars db
  consistent : k.inconsistent = none
  bound : p ≤ k.trail.length

theorem Searching.setPropagated (h : Searching k db F p) (q : ℕ) :
    Searching { k with propagated := q } db F p :=
  have hrun := h.running
  have hclean := h.clean
  ⟨⟨{ hrun.stable with }, hrun.trailed, hrun.rootUnits⟩,
    ⟨hclean.marks, hclean.analyzed, hclean.klause, hclean.resolved⟩, h.assuming, h.watched,
    h.blocked, h.pending, h.rooted, h.unitsTrue, h.consistent, h.bound⟩

theorem Searching.start_scan (h : Searching k db F k.propagated)
    (hlit : k.trail[k.propagated]? = some lit) :
    Scanning { k with watches := Function.update k.watches (neg lit) [] } db F (neg lit) []
      (k.watches (neg lit)) (k.propagated + 1) := by
  have hmem : lit ∈ k.trail := mem_of_getElem? hlit
  have hdrop : k.trail.drop k.propagated = lit :: k.trail.drop (k.propagated + 1) := by
    obtain ⟨hlt, rfl⟩ := List.getElem?_eq_some_iff.mp hlit
    exact drop_eq_getElem_cons hlt
  have hst := h.running.stable
  refine ⟨⟨{ hst with }, h.running.trailed, h.running.rootUnits⟩,
    ⟨h.clean.marks, h.clean.analyzed, h.clean.klause, h.clean.resolved⟩, h.assuming, ?_, ?_, ?_, ?_,
    ⟨rfl, by rwa [neg_neg]⟩, fun l hl => h.pending l (by rw [hdrop]; exact mem_cons_of_mem _ hl),
    h.rooted, h.unitsTrue, h.consistent⟩
  · simpa using h.watched
  · intro l w hw hx hl hp
    have hne : l ≠ neg lit := by
      rintro rfl
      simp at hw
    refine h.blocked l w (by simpa [hne] using hw) hx hl ?_
    rw [hdrop, mem_cons, not_or]
    exact ⟨fun heq => hne (by rw [← heq, neg_neg]), hp⟩
  · have := h.running.trailed.true_of_mem lit hmem
    show k.values (neg lit) = -1
    rw [hst.valued.neg, this]
  · show lev k.vars (neg lit) = k.level
    rw [lev_neg]
    exact h.pending lit (by simp [hdrop])

theorem propagateLiteral_spec (h : Searching k db F k.propagated)
    (hlit : k.trail[k.propagated]? = some lit)
    (ho : (k.propagateLiteral lit).1.referenceOverflow = false) :
    ∃ db', (k.propagateLiteral lit).1.propagated = k.propagated ∧
      match (k.propagateLiteral lit).2 with
      | none => Searching (k.propagateLiteral lit).1 db' F (k.propagated + 1)
      | some r => Searching (k.propagateLiteral lit).1 db' F k.propagated ∧
          Conflict (k.propagateLiteral lit).1 db' r := by
  unfold propagateLiteral at ho ⊢
  dsimp only at ho ⊢
  generalize hs : scanWatches (neg lit) _ _ _ _ = s at ho ⊢
  obtain ⟨db', kept, rest, hkept, hscan, hnone, hsome⟩ := scanWatches_spec (h.start_scan hlit) hs ho
  obtain ⟨hp, hturn⟩ := hscan.turn
  have hdrop : s.kitten.trail.drop k.propagated = lit :: s.kitten.trail.drop (k.propagated + 1) := by
    have hq : s.kitten.propagated = k.propagated := by omega
    rw [hq, neg_neg] at hturn
    obtain ⟨hlt, heq⟩ := List.getElem?_eq_some_iff.mp hturn
    rw [drop_eq_getElem_cons hlt, heq]
  have hst := hscan.running.stable
  have hrun : Running { s.kitten with
      watches := Function.update s.kitten.watches (neg lit) s.kept
      ticks := s.kitten.ticks + s.ticks } db' F :=
    ⟨{ hst with }, hscan.running.trailed, hscan.running.rootUnits⟩
  have hclean := hscan.clean
  refine ⟨db', by omega, ?_⟩
  cases hc : s.conflict with
  | none =>
    obtain rfl := hnone hc
    rw [append_nil] at hkept
    exact ⟨hrun, ⟨hclean.marks, hclean.analyzed, hclean.klause, hclean.resolved⟩, hscan.assuming,
      by simpa [hkept] using hscan.watched, by simpa [hkept] using hscan.blocked, hscan.pending, hscan.rooted,
      hscan.unitsTrue, hscan.consistent, hscan.length⟩
  | some r =>
    refine ⟨⟨hrun, ⟨hclean.marks, hclean.analyzed, hclean.klause, hclean.resolved⟩, hscan.assuming,
      by simpa [hkept] using hscan.watched, fun l w hw hx hl hpend => ?_, fun l hl => ?_, hscan.rooted, hscan.unitsTrue,
      hscan.consistent, by have := hscan.length; exact Nat.le_of_succ_le this⟩,
      ⟨(hsome r hc).falsified⟩⟩
    · rw [hdrop, mem_cons, not_or] at hpend
      have hne : l ≠ neg lit := by
        rintro rfl
        exact hpend.1 (neg_neg lit)
      exact hscan.blocked l w (by simpa [hne] using hw) hx hl hpend.2
    · rw [hdrop, mem_cons] at hl
      rcases hl with rfl | hl
      · have := hscan.atLevel
        rwa [lev_neg] at this
      · exact hscan.pending l hl

theorem propagate_spec {fuel : ℕ} {conflict : Option ℕ} (h : Searching k db F k.propagated)
    (hp : propagate fuel k = some (k', conflict)) (ho : k'.referenceOverflow = false) :
    ∃ db', (conflict = none → Searching k' db' F k'.propagated ∧ k'.trail.drop k'.propagated = []) ∧
    ∀ r, conflict = some r → ∃ p, Searching k' db' F p ∧ Conflict k' db' r := by
  induction fuel generalizing k db with
  | zero => simp [propagate] at hp
  | succ fuel ih =>
    simp only [propagate] at hp
    split at hp
    · next hnone =>
      obtain ⟨rfl, rfl⟩ : k = k' ∧ none = conflict := by simpa using hp
      exact ⟨db, fun _ => ⟨h, drop_eq_nil_of_le (getElem?_eq_none_iff.mp hnone)⟩, by simp⟩
    · next lit hlit =>
      have hstep : (k.propagateLiteral lit).1.referenceOverflow = false := by
        split at hp
        · obtain ⟨rfl, -⟩ : _ = k' ∧ _ := by simpa using hp
          exact ho
        · exact (propagate_frame hp).overflow ho
      obtain ⟨db', hprop, hnext⟩ := propagateLiteral_spec h hlit hstep
      split at hp
      · next hsome =>
        obtain ⟨rfl, rfl⟩ : _ = k' ∧ _ = conflict := by simpa using hp
        obtain ⟨r, hr⟩ := Option.isSome_iff_exists.mp hsome
        rw [hr] at hnext
        refine ⟨db', fun hn => by simp [hr] at hn, fun s hs => ?_⟩
        obtain rfl : r = s := by simpa [hr] using hs
        exact ⟨k.propagated, hnext.1.setPropagated _, ⟨hnext.2.falsified⟩⟩
      · next hsome =>
        have hnone : (k.propagateLiteral lit).2 = none := by simpa using hsome
        rw [hnone] at hnext
        rw [← hprop] at hnext
        exact ih (hnext.setPropagated _) hp

end Nixie.Kitten
