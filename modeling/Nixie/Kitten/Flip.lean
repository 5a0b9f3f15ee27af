import Nixie.Kitten.Verdict

/-!
Flipping true literals of a model in place. A flip trusts the watch list of the literal: a watch whose blocking
literal is true stays where it is.
-/

namespace Nixie.Kitten

open Nixie.Literal List Option Function

variable {k : Kitten} {db : ℕ → Option Klause} {c : Klause} {lit other e : ℕ}

def findTrue (values : ℕ → ℤ) (lits : List ℕ) : Option ℕ :=
  ((lits.drop 2).findIdx? fun l => 0 < values l).map (· + 2)

structure FlipScan where
  kitten : Kitten
  kept : List Katch
  ticks : ℕ
  res : Bool

def flipScan (lit : ℕ) : Kitten → List Katch → List Katch → ℕ → FlipScan
  | k, [], kept, ticks => ⟨k, kept, ticks, true⟩
  | k, katch :: rest, kept, ticks =>
    if 0 < k.values katch.blit then flipScan lit k rest (kept ++ [katch]) ticks
    else
      let lits := k.klauseLits katch.reference
      let other := lits.getD 0 0 ^^^ lits.getD 1 0 ^^^ lit
      if 0 < k.values other then flipScan lit k rest (kept ++ [katch]) (ticks + 1)
      else match findTrue k.values lits with
        | some i => flipScan lit (k.moveWatch katch.reference other lit i) rest kept (ticks + 1)
        | none => ⟨k, kept ++ katch :: rest, ticks + 1, false⟩

def trueLit (val : ℕ → ℤ) (lit : ℕ) : ℕ := if val lit < 0 then neg lit else lit

def finishFlip (lit : ℕ) (s : FlipScan) : Kitten × Bool :=
  let k := { s.kitten with
    watches := update s.kitten.watches lit s.kept
    ticks := s.kitten.ticks + s.ticks }
  if s.res then ({ k with values := update (update k.values lit (-1)) (neg lit) 1 }, true)
  else (k, false)

def flipInternal (k : Kitten) (lit : ℕ) : Kitten × Bool :=
  if (k.vars (lit / 2)).level = 0 then (k, false)
  else
    let lit := trueLit k.values lit
    let watches := k.watches lit
    finishFlip lit (flipScan lit { k with watches := update k.watches lit [] } watches []
      (watches.length / 16 + 1))

def fixed (k : Kitten) (elit : ℕ) : ℤ :=
  match k.internal elit with
  | none => 0
  | some ilit => if (k.vars (ilit / 2)).level ≠ 0 then 0 else k.values ilit

def flipLiteral (k : Kitten) (elit : ℕ) : Kitten × Bool :=
  if k.status ≠ .satisfied then (k, false)
  else match k.internal elit with
    | none => (k, false)
    | some ilit => if k.fixed elit ≠ 0 then (k, false) else k.flipInternal ilit

theorem findTrue_some {values : ℕ → ℤ} {lits : List ℕ} {i : ℕ} (h : findTrue values lits = some i) :
    ∃ j, i = j + 2 ∧ j + 2 < lits.length ∧ 0 < values (lits.getD (j + 2) 0) := by
  simp only [findTrue, map_eq_some_iff] at h
  obtain ⟨j, hj, rfl⟩ := h
  obtain ⟨hlt, hval, _⟩ := findIdx?_eq_some_iff_getElem.mp hj
  have hlt' : j + 2 < lits.length := by
    rw [length_drop] at hlt
    omega
  refine ⟨j, rfl, hlt', ?_⟩
  simpa [Nat.add_comm j 2, getElem_drop, Nat.add_comm 2 j ▸ hlt'] using hval

theorem findTrue_none {values : ℕ → ℤ} {lits : List ℕ} (h : findTrue values lits = none) :
    ∀ l ∈ lits.drop 2, ¬ 0 < values l := by
  simp only [findTrue, map_eq_none_iff, findIdx?_eq_none_iff] at h
  intro l hl
  simpa using h l hl

def Stops (k : Kitten) (lit : ℕ) (w : Katch) : Prop :=
  ¬ 0 < k.values w.blit ∧ ∀ x ∈ k.klauseLits w.reference, 0 < k.values x → x = lit

structure Flipping (k : Kitten) (db : ℕ → Option Klause) (lit : ℕ) (kept rest : List Katch) : Prop where
  rep : Represents k.klauses db
  watched : Watched (update k.watches lit (kept ++ rest)) db
  nodup : ∀ r c, db r = some c → c.lits.Nodup

def Rewatched (k k' : Kitten) : Prop := k' = { k with klauses := k'.klauses, watches := k'.watches }

theorem isWatch_shape (hw : IsWatch c lit) (hnd : c.lits.Nodup)
    (ho : other = c.lits.getD 0 0 ^^^ c.lits.getD 1 0 ^^^ lit) :
    2 ≤ c.lits.length ∧ other ∈ c.lits ∧ other ≠ lit ∧
    (c.lits.getD 0 0 = other ∧ c.lits.getD 1 0 = lit ∨ c.lits.getD 0 0 = lit ∧ c.lits.getD 1 0 = other) ∧
    ∀ x ∈ c.lits, x = lit ∨ x = other ∨ x ∈ c.lits.drop 2 := by
  obtain ⟨a, b, t, hc, hlit⟩ := hw
  rw [hc] at hnd ho ⊢
  have hab : a ≠ b := fun h => (nodup_cons.mp hnd).1 (h ▸ mem_cons_self)
  simp only [getD_cons_zero, getD_cons_succ] at ho ⊢
  rcases hlit with rfl | rfl
  · rw [xor_xor_left] at ho
    subst ho
    exact ⟨by simp, by simp, hab.symm, .inr ⟨rfl, rfl⟩, by simp⟩
  · rw [xor_xor_right] at ho
    subst ho
    refine ⟨by simp, by simp, hab, .inl ⟨rfl, rfl⟩, fun x hx => ?_⟩
    simp only [mem_cons, drop_succ_cons, drop_zero] at hx ⊢
    tauto

theorem flipScan_spec {kept rest : List Katch} (ticks : ℕ) (h : Flipping k db lit kept rest) :
    ∃ db', Flipping (flipScan lit k rest kept ticks).kitten db' lit (flipScan lit k rest kept ticks).kept [] ∧
    Rewatched k (flipScan lit k rest kept ticks).kitten ∧
    ((flipScan lit k rest kept ticks).res = false ↔ ∃ w ∈ rest, Stops k lit w) := by
  induction rest generalizing k db kept ticks with
  | nil => exact ⟨db, h, rfl, by simp [flipScan]⟩
  | cons katch rest ih =>
    obtain ⟨c, hw⟩ := h.watched.watch lit katch (by simp)
    have hlits : k.klauseLits katch.reference = c.lits := h.rep.lits_eq hw.some
    have hkeep : Flipping k db lit (kept ++ [katch]) rest := ⟨h.rep, by rw [append_assoc]; exact h.watched, h.nodup⟩
    have hskip : ¬ Stops k lit katch → ((∃ w ∈ rest, Stops k lit w) ↔ ∃ w ∈ katch :: rest, Stops k lit w) := by
      intro hne
      simp [hne]
    rw [flipScan]
    split_ifs with hblit
    · obtain ⟨db', hflip, hsame, hres⟩ := ih ticks hkeep
      exact ⟨db', hflip, hsame, hres.trans (hskip fun hs => hs.1 hblit)⟩
    dsimp only
    generalize hother : (k.klauseLits katch.reference).getD 0 0 ^^^ (k.klauseLits katch.reference).getD 1 0 ^^^ lit =
      other
    rw [hlits] at hother ⊢
    obtain ⟨hlen, hmem, hne, hwatches, hcases⟩ := isWatch_shape hw.isWatch (h.nodup _ c hw.some) hother.symm
    split_ifs with htrue
    · obtain ⟨db', hflip, hsame, hres⟩ := ih (ticks + 1) hkeep
      refine ⟨db', hflip, hsame, hres.trans (hskip fun hs => hne (hs.2 other ?_ htrue))⟩
      rwa [hlits]
    split
    next i hfind =>
      obtain ⟨j, rfl, hj, hval⟩ := findTrue_some hfind
      have hmov : Movable c other lit j := ⟨hj, h.nodup _ c hw.some, hwatches⟩
      obtain ⟨arena, harena, heq⟩ := moveWatch_eq h.rep hw.some hj other lit
      obtain ⟨hext, hext'⟩ := extends_moveDb hw.some (swapLits_perm hj hwatches)
      have hmoved : Flipping (k.moveWatch katch.reference other lit (j + 2))
          (moveDb db katch.reference c other (j + 2) lit) lit kept rest := by
        rw [heq]
        refine ⟨harena, h.watched.move hw.some hmov, fun r d hr => ?_⟩
        obtain ⟨d', hr', hperm, _⟩ := hext' r d hr
        exact hperm.nodup_iff.mp (h.nodup r d' hr')
      obtain ⟨db', hflip, hsame, hres⟩ := ih (ticks + 1) hmoved
      refine ⟨db', hflip, ?_, hres.trans (Iff.trans ?_ (hskip fun hs => hmov.ne.2.1 (hs.2 _ ?_ hval)))⟩
      · unfold Rewatched at hsame ⊢
        rw [heq] at hsame ⊢
        exact hsame
      · -- a klause of the rest has the literals it had
        refine exists_congr fun w => and_congr_right fun hmemw => ?_
        obtain ⟨d, hd⟩ := h.watched.watch lit w (by simp [hmemw])
        obtain ⟨d', hd', hperm, _⟩ := hext _ d hd.some
        have hvalues : (k.moveWatch katch.reference other lit (j + 2)).values = k.values := by rw [heq]
        unfold Stops
        rw [hvalues, h.rep.lits_eq hd.some, hmoved.rep.lits_eq hd']
        simp only [hperm.mem_iff]
      · rw [hlits, getD_eq_getElem _ _ hj]
        exact getElem_mem hj
    next hfind =>
      refine ⟨db, ⟨h.rep, by rw [append_nil]; exact h.watched, h.nodup⟩, rfl, ?_⟩
      refine iff_of_true rfl ⟨katch, mem_cons_self, hblit, fun x hx hpos => ?_⟩
      rw [hlits] at hx
      rcases hcases x hx with hx | rfl | hx
      · exact hx
      · exact absurd hpos htrue
      · exact absurd hpos (findTrue_none hfind x hx)

structure Flippable (k : Kitten) (db : ℕ → Option Klause) : Prop where
  rep : Represents k.klauses db
  watched : Watched k.watches db
  nodup : ∀ r c, db r = some c → c.lits.Nodup
  tabled : Tabled k
  valued : Valued k.values k.exportTable.length
  total : ∀ l, l / 2 < k.exportTable.length → k.values l ≠ 0
  status : k.status = .satisfied

theorem Flippable.trueLit_spec (h : Flippable k db) (hlit : lit / 2 < k.exportTable.length) :
    k.values (trueLit k.values lit) = 1 ∧ trueLit k.values lit / 2 = lit / 2 := by
  have h0 := h.total lit hlit
  have hrange := h.valued.range lit
  unfold trueLit
  split_ifs with hneg
  · rw [h.valued.neg, neg_div_two]
    omega
  · omega

structure Flipped (k : Kitten) (lit : ℕ) (result : Kitten × Bool) : Prop where
  flippable : ∃ db, Flippable result.1 db
  importTable : result.1.importTable = k.importTable
  evars : result.1.evars = k.evars
  stopped : result.2 = false ↔ ∃ w ∈ k.watches lit, Stops k lit w
  values : result.1.values = if result.2 then assignValues k.values (neg lit) else k.values

theorem finishFlip_flipped {db' : ℕ → Option Klause} {s : FlipScan} (h : Flippable k db)
    (hlit : lit / 2 < k.exportTable.length) (hflip : Flipping s.kitten db' lit s.kept [])
    (hsame : Rewatched k s.kitten) (hstops : s.res = false ↔ ∃ w ∈ k.watches lit, Stops k lit w) :
    Flipped k lit (finishFlip lit s) := by
  have hwatched := hflip.watched
  rw [append_nil] at hwatched
  unfold Rewatched at hsame
  have htabled : Tabled s.kitten := by
    rw [hsame]
    exact ⟨h.tabled.lookup, h.tabled.evars, h.tabled.sane⟩
  have hvalued : Valued s.kitten.values s.kitten.exportTable.length := by
    rw [hsame]
    exact h.valued
  have htotal : ∀ l, l / 2 < s.kitten.exportTable.length → s.kitten.values l ≠ 0 := by
    rw [hsame]
    exact h.total
  have hvalues : s.kitten.values = k.values := by rw [hsame]
  have hstatus : s.kitten.status = .satisfied := by
    rw [hsame]
    exact h.status
  unfold finishFlip
  dsimp only
  cases hs : s.res with
  | false =>
    rw [hs] at hstops
    refine ⟨⟨db', hflip.rep, hwatched, hflip.nodup, ⟨htabled.lookup, htabled.evars, htabled.sane⟩, hvalued, htotal,
      hstatus⟩, ?_, ?_, ?_, hvalues⟩
    · show s.kitten.importTable = k.importTable
      rw [hsame]
    · show s.kitten.evars = k.evars
      rw [hsame]
    · exact hstops
  | true =>
    rw [hs] at hstops
    have hflipped : update (update s.kitten.values lit (-1)) (neg lit) 1 =
        assignValues s.kitten.values (neg lit) := by
      unfold assignValues
      rw [Literal.neg_neg, update_comm (neg_ne lit).symm]
    have hlt : neg lit / 2 < s.kitten.exportTable.length := by
      rw [neg_div_two, hsame]
      exact hlit
    refine ⟨⟨db', hflip.rep, hwatched, hflip.nodup, ⟨htabled.lookup, htabled.evars, htabled.sane⟩, ?_, ?_, hstatus⟩,
      ?_, ?_, ?_, ?_⟩
    · show Valued (update (update s.kitten.values lit (-1)) (neg lit) 1) _
      rw [hflipped]
      exact hvalued.assign hlt
    · intro l hl
      show update (update s.kitten.values lit (-1)) (neg lit) 1 l ≠ 0
      rw [hflipped, assignValues_eq]
      split_ifs
      · decide
      · decide
      · exact htotal l hl
    · show s.kitten.importTable = k.importTable
      rw [hsame]
    · show s.kitten.evars = k.evars
      rw [hsame]
    · exact hstops
    · show update (update s.kitten.values lit (-1)) (neg lit) 1 = _
      rw [hflipped, hvalues]
      rfl

theorem flipInternal_flipped (h : Flippable k db) (hlit : lit / 2 < k.exportTable.length)
    (hlevel : (k.vars (lit / 2)).level ≠ 0) : Flipped k (trueLit k.values lit) (k.flipInternal lit) := by
  have hdiv := (h.trueLit_spec hlit).2
  unfold flipInternal
  rw [if_neg hlevel]
  have hstart : Flipping { k with watches := update k.watches (trueLit k.values lit) [] } db
      (trueLit k.values lit) [] (k.watches (trueLit k.values lit)) := ⟨h.rep, by simpa using h.watched, h.nodup⟩
  obtain ⟨db', hflip, hsame, hres⟩ := flipScan_spec ((k.watches (trueLit k.values lit)).length / 16 + 1) hstart
  exact finishFlip_flipped h (hdiv ▸ hlit) hflip hsame hres

def Kept (clauses : List (List ℕ)) (k : Kitten) (e : ℕ) : Prop :=
  (∀ c ∈ clauses, ∃ x ∈ c, 0 < (k.flipLiteral e).1.value x) ∧
    ((k.flipLiteral e).2 = false → (k.flipLiteral e).1.values = k.values)

def Watching (clauses : List (List ℕ)) (k : Kitten) (e : ℕ) : Prop :=
  ∀ l, k.internal e = some l → (k.vars (l / 2)).level ≠ 0 →
    (∃ c ∈ clauses, neg (trueLit k.value e) ∉ c ∧ ∀ x ∈ c, 0 < k.value x → x = trueLit k.value e) →
    ∃ w ∈ k.watches (trueLit k.values l), Stops k (trueLit k.values l) w

theorem Flippable.internal (h : Flippable k db) {l : ℕ} (hl : k.internal e = some l) : Known k e ∧ l = intern k e := by
  rw [h.tabled.internal_eq] at hl
  split_ifs at hl with h0
  exact ⟨h0, (some.inj hl).symm⟩

theorem Flippable.value_eq (h : Flippable k db) (x : ℕ) :
    k.value x = if k.importTable (x / 2) = 0 then 0 else k.values (intern k x) := by
  split_ifs with h0
  · simp [value, h.tabled.internal_eq, h0]
  · exact value_known h.tabled h.status h0

theorem Flippable.value_flipped {result : Kitten × Bool} (h : Flippable k db) (he : Known k e)
    (hf : Flipped k (trueLit k.values (intern k e)) result) (x : ℕ) :
    result.1.value x =
      if result.2 then
        if x = trueLit k.value e then -1 else if x = neg (trueLit k.value e) then 1 else k.value x
      else k.value x := by
  obtain ⟨db', h'⟩ := hf.flippable
  have hvalue : k.value e = k.values (intern k e) := value_known h.tabled h.status he
  -- the flipped literal, inside and outside
  have htrue : trueLit k.values (intern k e) = intern k (trueLit k.value e) := by
    unfold trueLit
    rw [hvalue]
    split_ifs
    · exact neg_intern k e
    · rfl
  have hdiv : trueLit k.value e / 2 = e / 2 := by
    unfold trueLit
    split_ifs
    · exact neg_div_two e
    · rfl
  have hm : Known k (trueLit k.value e) := by
    unfold Known
    rwa [hdiv]
  have hinter : intern result.1 x = intern k x := by
    unfold intern
    rw [hf.importTable]
  rw [h'.value_eq, h.value_eq, hinter, hf.importTable, hf.values]
  generalize trueLit k.value e = m at *
  by_cases hx : k.importTable (x / 2) = 0
  · have hne : x / 2 ≠ m / 2 := fun heq => hm (heq ▸ hx)
    have hne1 : x ≠ m := fun heq => hne (heq ▸ rfl)
    have hne2 : x ≠ neg m := fun heq => hne (by rw [heq, neg_div_two])
    simp [hx, hne1, hne2]
  · have hinj : ∀ y, Known k y → intern k x = intern k y → x = y := fun y hy heq => by
      have h1 := h.tabled.intern_inj hx hy (by rw [heq])
      have h2 : x % 2 = y % 2 := by rw [← intern_mod_two k x, ← intern_mod_two k y, heq]
      omega
    have hneg : Known k (neg m) := by
      unfold Known
      rwa [neg_div_two]
    cases result.2 with
    | false => simp [hx]
    | true =>
      simp only [hx, if_false, if_true, assignValues_eq, htrue, neg_intern, Literal.neg_neg]
      by_cases h1 : x = m
      · subst h1
        have hne : intern k x ≠ intern k (neg x) := by
          rw [← neg_intern]
          exact (neg_ne _).symm
        simp [hne]
      · have h1' : intern k x ≠ intern k m := fun heq => h1 (hinj m hm heq)
        by_cases h2 : x = neg m
        · simp [h2, Literal.neg_ne]
        · have h2' : intern k x ≠ intern k (neg m) := fun heq => h2 (hinj _ hneg heq)
          simp [h1, h2, h1', h2']

theorem flipLiteral_step {clauses : List (List ℕ)} (h : Flippable k db) (hsat : ∀ c ∈ clauses, ∃ x ∈ c, 0 < k.value x)
    (e : ℕ) : (Kept clauses k e ↔ Watching clauses k e) ∧ ∃ db', Flippable (k.flipLiteral e).1 db' := by
  have hsame : k.flipLiteral e = (k, false) → (∀ l, k.internal e = some l → (k.vars (l / 2)).level = 0) →
      (Kept clauses k e ↔ Watching clauses k e) ∧ ∃ db', Flippable (k.flipLiteral e).1 db' := by
    intro heq hlevel
    unfold Kept
    rw [heq]
    exact ⟨iff_of_true ⟨hsat, fun _ => rfl⟩ fun l hl hne => absurd (hlevel l hl) hne, db, h⟩
  cases hl : k.internal e with
  | none =>
    refine hsame ?_ fun l hl' => absurd (hl.symm.trans hl') nofun
    unfold flipLiteral
    rw [if_neg (not_not.mpr h.status), hl]
  | some l =>
    obtain ⟨he, rfl⟩ := h.internal hl
    have hlt : intern k e / 2 < k.exportTable.length := h.tabled.intern_lt he
    by_cases hlevel : (k.vars (intern k e / 2)).level = 0
    · refine hsame ?_ fun l' hl' => by rwa [← some.inj (hl.symm.trans hl')]
      have hfixed : k.fixed e ≠ 0 := by
        simp only [fixed, hl, hlevel, ne_eq, not_true_eq_false, if_false]
        exact h.total _ hlt
      unfold flipLiteral
      rw [if_neg (not_not.mpr h.status), hl]
      exact if_pos hfixed
    have hflip : k.flipLiteral e = k.flipInternal (intern k e) := by
      have hfixed : k.fixed e = 0 := by simp only [fixed, hl, hlevel, ne_eq, not_false_eq_true, if_true]
      unfold flipLiteral
      rw [if_neg (not_not.mpr h.status), hl]
      exact if_neg (not_not.mpr hfixed)
    have hf := flipInternal_flipped h hlt hlevel
    have hvalue := h.value_flipped he hf
    rw [← hflip] at hf hvalue
    refine ⟨?_, hf.flippable⟩
    unfold Kept Watching
    simp only [hl, some.injEq, forall_eq']
    constructor
    · rintro ⟨hkept, -⟩ - ⟨c, hc, hneg, hsole⟩
      rw [← hf.stopped]
      by_contra hres
      obtain ⟨x, hx, hpos⟩ := hkept c hc
      rw [hvalue, if_pos (by simpa using hres)] at hpos
      split_ifs at hpos with h1 h2
      · omega
      · exact hneg (h2 ▸ hx)
      · exact h1 (hsole x hx hpos)
    · intro hwatch
      refine ⟨fun c hc => ?_, fun hres => by rw [hf.values, hres]; rfl⟩
      cases hres : (k.flipLiteral e).2 with
      | false =>
        obtain ⟨x, hx, hpos⟩ := hsat c hc
        exact ⟨x, hx, by rwa [hvalue, hres]⟩
      | true =>
        by_contra hnone
        push Not at hnone
        have hstop := hf.stopped.mpr (hwatch hlevel ⟨c, hc, fun hmem => ?_, fun x hx hpos => ?_⟩)
        · rw [hres] at hstop
          cases hstop
        · have hle := hnone _ hmem
          rw [hvalue, hres, if_pos rfl, if_neg (neg_ne _), if_pos rfl] at hle
          omega
        · by_contra hne
          have hle := hnone x hx
          rw [hvalue, hres, if_pos rfl, if_neg hne] at hle
          split_ifs at hle <;> omega

section

variable {calls : List Call} {s : Session} {fuel : ℕ} {interrupt : ℕ → Bool}

def Throughout (P : Kitten → ℕ → Prop) : Kitten → List ℕ → Prop
  | _, [] => True
  | k, e :: elits => P k e ∧ Throughout P (k.flipLiteral e).1 elits

theorem throughout_iff {clauses : List (List ℕ)} (elits : List ℕ) (h : Flippable k db)
    (hsat : ∀ c ∈ clauses, ∃ x ∈ c, 0 < k.value x) : Throughout (Kept clauses) k elits ↔
    Throughout (Watching clauses) k elits := by
  induction elits generalizing k db with
  | nil => exact Iff.rfl
  | cons e elits ih =>
    obtain ⟨hstep, db', h'⟩ := flipLiteral_step h hsat e
    refine (and_congr_left' hstep).trans (and_congr_right fun hwatch => ?_)
    exact ih h' (hstep.mpr hwatch).1

/-- After a satisfiable run, any row of flips keeps every clause satisfied and refused calls without effect exactly
when every call is watched. -/
theorem flips_satisfy_iff (hrun : run {} calls = some s)
    (he : s.kitten.solve fuel interrupt = some (k, .satisfied)) (hex : k.exhausted = false)
    (ho : k.referenceOverflow = false) (elits : List ℕ) :
    Throughout (Kept s.clauses) k elits ↔ Throughout (Watching s.clauses) k elits := by
  obtain ⟨himp, hexp, hev, -, hex', ho'⟩ := solve_tables he
  obtain ⟨t, ht, hm⟩ := run_mirrors ⟨rfl, fun c hc => ⟨c, hc, fun _ hx => hx⟩, rfl, fun e he => he⟩ sound_new hrun
    (ho' ho)
  rw [← hm.kitten] at he himp hexp hev hex'
  obtain ⟨db, hans, -⟩ := (ht.live (hex' hex)).answered (hex' hex) he ho
  obtain ⟨db', hidle, -⟩ := hans.idle hex
  have hmodel := hans.model rfl
  refine @throughout_iff _ db' _ elits ⟨hidle.stable.rep, hidle.watched, hidle.stable.klauses.nodup,
    ht.tabled.same himp hexp hev.ge, hmodel.valued, hmodel.total, hans.status⟩ fun c hc => ?_
  obtain ⟨d, hd, hsub⟩ := hm.clauses c hc
  obtain ⟨x, hx, hone⟩ := ((ht.verdict he ho).2 rfl).clauses d hd
  exact ⟨x, hsub hx, by omega⟩

/-- A flip beside a true blocking literal. -/
theorem flips_satisfy_pair :
    ∃ s k, run {} [.clause 0 [0, 2] INVALID] = some s ∧ s.kitten.solve 9 (fun _ => false) = some (k, .satisfied) ∧
      (k.flipLiteral 0).2 = true ∧ Throughout (Kept s.clauses) k [0] := by
  obtain ⟨s, k, hrun, hsolve, hflip, hex, ho, hclauses, hone, htwo⟩ : ∃ s k,
      run {} [.clause 0 [0, 2] INVALID] = some s ∧ s.kitten.solve 9 (fun _ => false) = some (k, .satisfied) ∧
        (k.flipLiteral 0).2 = true ∧ k.exhausted = false ∧ k.referenceOverflow = false ∧ s.clauses = [[0, 2]] ∧
        k.value 0 = 1 ∧ k.value 2 = 1 := ⟨_, _, rfl, rfl, rfl, rfl, rfl, rfl, rfl, rfl⟩
  refine ⟨s, k, hrun, hsolve, hflip, (flips_satisfy_iff hrun hsolve hex ho [0]).mpr ⟨?_, trivial⟩⟩
  rintro l - - ⟨c, hc, -, honly⟩
  rw [hclauses, mem_singleton] at hc
  have heq := honly 2 (by simp [hc]) (by omega)
  simp [trueLit, hone] at heq

/-- The second flip leaves `¬x0 ∨ ¬x1 ∨ ¬x2` true by a literal that does not watch it. -/
theorem not_flips_satisfy :
    ∃ s k, run {} [.clause 0 [2, 4] INVALID, .clause 1 [1, 3, 5] INVALID, .clause 2 [4, 0] INVALID] = some s ∧
      s.kitten.solve 9 (fun _ => false) = some (k, .satisfied) ∧ ¬ Throughout (Kept s.clauses) k [0, 2, 0] := by
  obtain ⟨s, k, hrun, hsolve, hclauses, h1, h3, h5⟩ : ∃ s k,
      run {} [.clause 0 [2, 4] INVALID, .clause 1 [1, 3, 5] INVALID, .clause 2 [4, 0] INVALID] = some s ∧
        s.kitten.solve 9 (fun _ => false) = some (k, .satisfied) ∧ s.clauses = [[2, 4], [1, 3, 5], [4, 0]] ∧
        (((k.flipLiteral 0).1.flipLiteral 2).1.flipLiteral 0).1.value 1 = -1 ∧
        (((k.flipLiteral 0).1.flipLiteral 2).1.flipLiteral 0).1.value 3 = -1 ∧
        (((k.flipLiteral 0).1.flipLiteral 2).1.flipLiteral 0).1.value 5 = -1 :=
    ⟨_, _, rfl, rfl, rfl, rfl, rfl, rfl⟩
  refine ⟨s, k, hrun, hsolve, ?_⟩
  rintro ⟨-, -, ⟨hkept, -⟩, -⟩
  obtain ⟨x, hx, hpos⟩ := hkept [1, 3, 5] (by simp [hclauses])
  simp only [mem_cons, not_mem_nil, or_false] at hx
  rcases hx with rfl | rfl | rfl <;> omega

end

end Nixie.Kitten
