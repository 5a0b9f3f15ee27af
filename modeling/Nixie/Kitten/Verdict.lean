import Nixie.Kitten.Run

/-!
A klause keeps the first literal of each variable and no literal that is not sane, so every run is
one with clauses that are distinct and sane.
-/

namespace Nixie.Kitten

open Nixie.Propositional Nixie.Literal List Option Function

variable {k k' : Kitten} {e x except : ℕ} {s s' t t' : Session}

theorem enqueueNew_lits (idx count : ℕ) (k : Kitten) : (enqueueNew idx count k).lits = k.lits := by
  induction count generalizing idx k with
  | zero => rfl
  | succ count ih =>
    rw [enqueueNew, ih]
    have hrel := enqueue_relinked { k with unassigned := k.unassigned + 1 } idx
    unfold Relinked at hrel
    rw [hrel]

theorem enlargeInternal_lits (k : Kitten) (n : ℕ) : (k.enlargeInternal n).lits = n := by
  unfold enlargeInternal initQueue searchLast
  dsimp only
  split
  · exact enqueueNew_lits _ _ _
  · exact enqueueNew_lits _ _ _

structure Placed (k : Kitten) (x : ℕ) : Prop where
  known : k.importTable x ≠ 0
  evars : x < k.evars
  lits : 2 * k.importTable x ≤ k.lits

theorem Placed.importLiteral (h : Placed k (e / 2)) : k.importLiteral e = (k, intern k e) := by
  rcases importLiteral_cases k e with ⟨h0, _⟩ | ⟨_, heq⟩
  · exact absurd h0 h.known
  · have hlits := h.lits
    have hknown := h.known
    rw [heq, if_neg (by omega), max_eq_left h.evars]

theorem importLiteral_room (k : Kitten) (e : ℕ) : k.evars ≤ (k.importLiteral e).1.evars ∧
    k.lits ≤ (k.importLiteral e).1.lits ∧ e / 2 < (k.importLiteral e).1.evars ∧
    2 * (k.importLiteral e).1.importTable (e / 2) ≤ (k.importLiteral e).1.lits := by
  rcases importLiteral_cases k e with ⟨h0, heq⟩ | ⟨h0, heq⟩
  · rw [heq]
    dsimp only
    split
    · obtain ⟨_, himp, _, hev⟩ := enlargeInternal_grown (k.withVar (e / 2)) (2 * k.exportTable.length + 2)
      rw [hev, himp, enlargeInternal_lits]
      simp only [withVar, update_self]
      omega
    · simp only [withVar, update_self]
      omega
  · rw [heq]
    dsimp only
    split
    · obtain ⟨_, himp, _, hev⟩ := enlargeInternal_grown { k with evars := max k.evars (e / 2 + 1) }
        (2 * (k.importTable (e / 2) - 1) + 2)
      rw [hev, himp, enlargeInternal_lits]
      dsimp only
      omega
    · dsimp only
      omega

theorem Placed.grow (h : Placed k x) (hren : Renumbers k k') (he : k.evars ≤ k'.evars)
    (hl : k.lits ≤ k'.lits) : Placed k' x := by
  have heq := hren x h.known
  exact ⟨heq ▸ h.known, h.evars.trans_le he, heq ▸ h.lits.trans hl⟩

def Seen (k : Kitten) (seen : List ℕ) : Prop :=
  ∀ x ∈ seen, Placed k x ∧ k.marks (k.importTable x - 1) = true

def kept (except : ℕ) : List ℕ → List ℕ → List ℕ
  | _, [] => []
  | seen, elit :: elits =>
    if elit = except ∨ externalLiteralSane elit = false ∨ elit / 2 ∈ seen then kept except seen elits
    else elit :: kept except (elit / 2 :: seen) elits

variable {seen : List ℕ}

theorem importInto_skip (h : Seen k seen) (he : e = except ∨ externalLiteralSane e = false ∨ e / 2 ∈ seen) :
    k.importInto except e = k := by
  unfold importInto
  split
  · rfl
  · next hne =>
    split
    · next hs =>
      have hmem : e / 2 ∈ seen := by simpa [hne, hs] using he
      obtain ⟨hplaced, hmark⟩ := h _ hmem
      rw [hplaced.importLiteral]
      dsimp only
      rw [intern_div_two, if_pos hmark]
    · rfl

theorem importInto_seen (ht : Tabled k) (h : Seen k seen) (hne : e ≠ except)
    (hs : externalLiteralSane e = true) : Seen (k.importInto except e) (e / 2 :: seen) := by
  obtain ⟨_, hlit, hknown, hren⟩ := importLiteral_table ht hs
  obtain ⟨hev, hl, hlt, htop⟩ := importLiteral_room k e
  have hg := importLiteral_grown k e
  unfold importInto
  rw [if_neg hne, if_pos hs]
  dsimp only
  generalize k.importLiteral e = p at *
  obtain ⟨k1, ilit⟩ := p
  dsimp only at *
  have hmarks : k1.marks = k.marks := by
    rw [hg]
  have hidx : ilit / 2 = k1.importTable (e / 2) - 1 := by rw [hlit, intern_div_two]
  have hold : ∀ x ∈ seen, Placed k1 x ∧ k1.marks (k1.importTable x - 1) = true := by
    intro x hx
    obtain ⟨hp, hm⟩ := h x hx
    exact ⟨hp.grow hren hev hl, by rw [hren x hp.known, hmarks, hm]⟩
  have hnew : Placed k1 (e / 2) := ⟨hknown, hlt, htop⟩
  intro x hx
  split
  · next hm =>
    rcases mem_cons.mp hx with rfl | hx
    · exact ⟨hnew, hidx ▸ hm⟩
    · exact hold x hx
  · rcases mem_cons.mp hx with rfl | hx
    · exact ⟨⟨hnew.known, hnew.evars, hnew.lits⟩, by simp [hidx]⟩
    · obtain ⟨hp, hm⟩ := hold x hx
      refine ⟨⟨hp.known, hp.evars, hp.lits⟩, ?_⟩
      dsimp only
      by_cases heq : k1.importTable x - 1 = ilit / 2
      · rw [heq, update_self]
      · rw [update_of_ne heq, hm]

theorem importAll_kept {elits : List ℕ} (ht : Tabled k) (h : Seen k seen) :
    elits.foldl (importInto except) k = (kept except seen elits).foldl (importInto except) k := by
  induction elits generalizing k seen with
  | nil => rfl
  | cons e elits ih =>
    rw [foldl_cons, kept]
    split
    · next he =>
      rw [importInto_skip h he]
      exact ih ht h
    · next he =>
      obtain ⟨hne, hs, _⟩ : e ≠ except ∧ externalLiteralSane e = true ∧ e / 2 ∉ seen := by
        simpa using he
      rw [foldl_cons]
      exact ih (importInto_table ht fun _ => hs).1 (importInto_seen ht h hne hs)

theorem kept_spec (seen elits : List ℕ) :
    (∀ e ∈ kept except seen elits, e ≠ except ∧ externalLiteralSane e = true ∧ e / 2 ∉ seen) ∧
    ((kept except seen elits).map (· / 2)).Nodup := by
  induction elits generalizing seen with
  | nil => exact ⟨by simp [kept], by simp [kept]⟩
  | cons e elits ih =>
    rw [kept]
    split
    · exact ih seen
    · next he =>
      obtain ⟨hmem, hnd⟩ := ih (e / 2 :: seen)
      refine ⟨fun x hx => ?_, ?_⟩
      · rcases mem_cons.mp hx with rfl | hx
        · simpa using he
        · obtain ⟨h1, h2, h3⟩ := hmem x hx
          exact ⟨h1, h2, fun hs => h3 (mem_cons_of_mem _ hs)⟩
      · refine nodup_cons.mpr ⟨fun hin => ?_, hnd⟩
        obtain ⟨x, hx, heq⟩ := mem_map.mp hin
        exact (hmem x hx).2.2 (by rw [heq]; exact mem_cons_self)

theorem kept_subset (except : ℕ) (seen elits : List ℕ) : kept except seen elits ⊆ elits := by
  induction elits generalizing seen with
  | nil => exact nil_subset _
  | cons e elits ih =>
    rw [kept]
    split
    · exact fun x hx => mem_cons_of_mem _ (ih seen hx)
    · exact cons_subset_cons _ (ih (e / 2 :: seen))

theorem clause_kept (ht : Tabled k) (id : ℕ) (elits : List ℕ) (except : ℕ) : k.clauseWithIdAndException id elits except
    = k.clauseWithIdAndException id (kept except [] elits) except := by
  rw [clause_renewed, clause_renewed k id (kept except [] elits)]
  have ht' := ht.carried (renewed_carried k)
  have hkept : elits.foldl (importInto except) k.renewed =
      (kept except [] elits).foldl (importInto except) k.renewed := importAll_kept ht' (by simp [Seen])
  unfold clauseWithIdAndException
  rw [if_neg (by simp [renewed_status])]
  dsimp only
  rw [hkept]

def Call.stored : Call → List Call
  | .clause id elits except => [.clause id (kept except [] elits) except]
  | .assume elit => if externalLiteralSane elit then [.assume elit] else []
  | call => [call]

theorem Call.stored_distinct (call : Call) : ∀ c ∈ call.stored, c.Distinct := by
  cases call with
  | clause id elits except =>
    intro c hc
    obtain rfl : c = _ := by simpa [stored] using hc
    exact (kept_spec [] elits).2.sublist (filter_sublist.map _)
  | assume elit =>
    intro c hc
    by_cases hs : externalLiteralSane elit = true
    · obtain rfl : c = .assume elit := by simpa [stored, hs] using hc
      trivial
    · simp [stored, hs] at hc
  | _ =>
    intro c hc
    simp only [stored, mem_singleton] at hc
    subst hc
    trivial

theorem Call.stored_sane (call : Call) : ∀ c ∈ call.stored, c.Sane := by
  cases call with
  | clause id elits except =>
    intro c hc
    obtain rfl : c = _ := by simpa [stored] using hc
    exact fun e he _ => ((kept_spec [] elits).1 e he).2.1
  | assume elit =>
    intro c hc
    by_cases hs : externalLiteralSane elit = true
    · obtain rfl : c = .assume elit := by simpa [stored, hs] using hc
      exact hs
    · simp [stored, hs] at hc
  | _ =>
    intro c hc
    simp only [stored, mem_singleton] at hc
    subst hc
    trivial

structure Mirrors (s t : Session) : Prop where
  kitten : t.kitten = s.kitten
  clauses : ∀ c ∈ s.clauses, ∃ d ∈ t.clauses, d ⊆ c
  late : t.late = s.late
  current : ∀ e ∈ t.current, e ∈ s.current

theorem Mirrors.refl (s : Session) : Mirrors s s := ⟨rfl, fun c hc => ⟨c, hc, fun _ hx => hx⟩, rfl, fun _ he => he⟩

theorem perform_mirrors {call : Call} (h : Mirrors s t) (ht : Tabled s.kitten)
    (hp : perform s call = some s') : ∃ t', run t call.stored = some t' ∧ Mirrors s' t' := by
  obtain ⟨hk, hcl, hl, hc⟩ := h
  cases call with
  | clear =>
    obtain rfl := some.inj hp
    exact ⟨_, rfl, by rw [hk], fun c hc => ⟨c, hc, fun _ hx => hx⟩, rfl, fun e he => he⟩
  | clause id elits except =>
    obtain rfl := some.inj hp
    refine ⟨_, rfl, ?_, fun c hmem => ?_, hl, hc⟩
    · show t.kitten.clauseWithIdAndException id (kept except [] elits) except = _
      rw [hk, ← clause_kept ht]
    · rcases mem_append.mp hmem with hold | hnew
      · obtain ⟨d, hd, hsub⟩ := hcl c hold
        exact ⟨d, mem_append_left _ hd, hsub⟩
      · obtain rfl := mem_singleton.mp hnew
        refine ⟨_, mem_append_right _ (mem_singleton_self _), fun e he => ?_⟩
        obtain ⟨hkept, hne⟩ := mem_filter.mp he
        exact mem_filter.mpr ⟨kept_subset except [] elits hkept, hne⟩
  | assume elit =>
    obtain rfl := some.inj hp
    by_cases hs : externalLiteralSane elit = true
    · refine ⟨{ t with
        kitten := t.kitten.assume elit
        assumptions := t.current ++ [elit]
        answered := false }, by simp only [Call.stored, hs, if_true]; rfl, ?_, hcl, hl, fun e he => ?_⟩
      · dsimp only
        rw [hk]
      · exact mem_append.mpr ((mem_append.mp he).imp_left (hc e))
    · refine ⟨t, by simp only [Call.stored, hs]; rfl, ?_, hcl, hl, fun e he => ?_⟩
      · rw [hk]
        unfold Kitten.assume
        rw [if_neg hs]
      · exact mem_append_left _ (hc e he)
  | solve fuel interrupt =>
    simp only [perform, bind_eq_bind, bind_eq_some_iff] at hp
    obtain ⟨⟨k', result⟩, hsolve, hp⟩ := hp
    obtain rfl := some.inj hp
    refine ⟨{ t with
      kitten := k'
      assumptions := if result = .unknown then [] else t.current
      answered := result ≠ .unknown }, ?_, rfl, hcl, hl, fun e he => ?_⟩
    · simp only [Call.stored, run, foldlM_cons, foldlM_nil, perform, hk, hsolve]
      rfl
    · cases result <;> simp [Session.current] at he
  | computeClausalCore fuel =>
    simp only [perform, bind_eq_bind, bind_eq_some_iff] at hp
    obtain ⟨k', hcore, hp⟩ := hp
    obtain rfl := some.inj hp
    refine ⟨{ t with kitten := k' }, ?_, rfl, hcl, hl, hc⟩
    simp only [Call.stored, run, foldlM_cons, foldlM_nil, perform, hk, hcore]
    rfl
  | trackAntecedents =>
    obtain rfl := some.inj hp
    exact ⟨_, rfl, by rw [hk], hcl, by rw [hk, hl], hc⟩
  | _ =>
    obtain rfl := some.inj hp
    exact ⟨_, rfl, by rw [hk], hcl, hl, hc⟩

theorem run_mirrors {calls : List Call} (h : Mirrors s t) (ht : Sound t) (hrun : run s calls = some s')
    (ho : s'.kitten.referenceOverflow = false) : ∃ t', Sound t' ∧ Mirrors s' t' := by
  induction calls generalizing s t with
  | nil =>
    obtain rfl := some.inj hrun
    exact ⟨t, ht, h⟩
  | cons call calls ih =>
    simp only [run, foldlM_cons, bind_eq_bind, bind_eq_some_iff] at hrun
    obtain ⟨s1, h1, hrun⟩ := hrun
    obtain ⟨t1, hrun1, hm⟩ := perform_mirrors h (h.kitten ▸ ht.tabled) h1
    have ho1 : t1.kitten.referenceOverflow = false := by
      rw [hm.kitten]
      exact run_overflow hrun ho
    exact ih hm (run_sound ht call.stored_distinct call.stored_sane hrun1 ho1) hrun

variable {k k' : Kitten} {db : ℕ → Option Klause} {F : Set (Set ℕ)} {fuel : ℕ}
  {interrupt : ℕ → Bool} {result : KittenResult} {s s' : Session} {calls : List Call}

def pullback (k : Kitten) (σ : ℕ → Bool) (i : ℕ) : Bool := σ (k.exportTable.getD i 0)

theorem pullback_intern {e : ℕ} (ht : Tabled k) (he : Known k e) (σ : ℕ → Bool) :
    Assigns (pullback k σ) (intern k e) ↔ Assigns σ e := by
  have hget := (ht.lookup (k.importTable (e / 2) - 1) (e / 2)).mpr (by unfold Known at he; omega)
  unfold Assigns pullback
  rw [intern_div_two, intern_mod_two, getD_eq_getElem?_getD, hget]
  rfl

theorem Live.unsatisfiable (h : Live s) (ht : Tabled s.kitten) {A : List ℕ} (hA : ∀ e ∈ A, Known s.kitten e)
    (hu : Unsatisfiable valuations (s.internal ∪ assumed (A.map (intern s.kitten)))) :
    Unsatisfiable valuations (formula s.clauses ∪ assumed A) := by
  rintro _ ⟨σ, rfl⟩ hs
  refine hu _ ⟨pullback s.kitten σ, rfl⟩ ?_
  rintro C (⟨_, hmem, rfl⟩ | ⟨_, hmem, rfl⟩)
  · obtain ⟨c, hc, rfl⟩ := mem_map.mp hmem
    obtain ⟨e, he, hσ⟩ := hs (clauseSet c) (Set.mem_union_left _ ⟨c, hc, rfl⟩)
    exact ⟨intern s.kitten e, mem_map_of_mem he, (pullback_intern ht (h.clauses c hc e he) σ).mpr hσ⟩
  · obtain ⟨e, he, rfl⟩ := mem_map.mp hmem
    obtain ⟨x, hx, hσ⟩ := hs {e} (Set.mem_union_right _ ⟨e, he, rfl⟩)
    obtain rfl : e = x := hx.symm
    exact ⟨_, rfl, (pullback_intern ht (hA e he) σ).mpr hσ⟩

theorem Tabled.internal_eq {e : ℕ} (ht : Tabled k) :
    k.internal e = if k.importTable (e / 2) = 0 then none else some (intern k e) := by
  unfold internal
  by_cases h0 : k.importTable (e / 2) = 0
  · simp [h0]
  · have hlt := ht.evars _ (ht.known_iff.mp h0)
    simp only [h0, if_false, if_neg (Nat.not_le.mpr hlt)]
    rfl

theorem value_known {e : ℕ} (ht : Tabled k) (hst : k.status = .satisfied) (he : Known k e) :
    k.value e = k.values (intern k e) := by
  unfold value
  rw [if_neg (by simp [hst]), ht.internal_eq, if_neg he]

structure Satisfying (k : Kitten) (clauses : List (List ℕ)) (assumptions : List ℕ) : Prop where
  neg : ∀ e, k.value (neg e) = - k.value e
  total : ∀ c ∈ clauses, ∀ e ∈ c, k.value e = 1 ∨ k.value e = -1
  clauses : ∀ c ∈ clauses, ∃ e ∈ c, k.value e = 1
  assumptions : ∀ e ∈ assumptions, k.value e = 1

theorem Model.satisfying (hm : Model k s.internal) (h : Live s) (ht : Tabled k)
    (himp : k.importTable = s.kitten.importTable) (hst : k.status = .satisfied)
    (hass : k.assumptions = s.current.map (intern s.kitten)) : Satisfying k s.clauses s.current := by
  have hren : Renumbers s.kitten k := fun x _ => by rw [himp]
  have hvalue : ∀ e, Known s.kitten e → k.value e = k.values (intern s.kitten e) := by
    intro e he
    rw [value_known ht hst (hren.known he), hren.intern he]
  refine ⟨fun e => ?_, fun c hc e he => ?_, fun c hc => ?_, fun e he => ?_⟩
  · by_cases he : Known k e
    · have hne : Known k (neg e) := by
        unfold Known
        rwa [neg_div_two]
      rw [value_known ht hst he, value_known ht hst hne, ← neg_intern]
      exact hm.valued.neg _
    · have h0 : k.importTable (e / 2) = 0 := not_not.mp he
      simp [value, ht.internal_eq, h0]
  · have hk := h.clauses c hc e he
    have hlt := ht.intern_lt (hren.known hk)
    rw [hren.intern hk] at hlt
    rw [hvalue e hk]
    have h0 := hm.total _ hlt
    rcases hm.valued.range (intern s.kitten e) with h1 | h1 | h1
    · exact .inr h1
    · exact absurd h1 h0
    · exact .inl h1
  · obtain ⟨l, hl, hv⟩ := hm.clauses _ ⟨c.map (intern s.kitten), mem_map_of_mem hc, rfl⟩
    obtain ⟨e, he, rfl⟩ := mem_map.mp hl
    exact ⟨e, he, (hvalue e (h.clauses c hc e he)).trans hv⟩
  · rw [hvalue e (h.current e he)]
    exact hm.assumptions _ (hass ▸ mem_map_of_mem he)

def Verdict (s : Session) (k : Kitten) (result : KittenResult) : Prop :=
  (result = .inconsistent → Unsatisfiable valuations (formula s.clauses ∪ assumed s.current)) ∧
    (result = .satisfied → Satisfying k s.clauses s.current)

theorem Sound.verdict (h : Sound s) (he : s.kitten.solve fuel interrupt = some (k, result))
    (ho : k.referenceOverflow = false) : Verdict s k result := by
  by_cases hex : s.kitten.exhausted = false
  · have hlive := h.live hex
    obtain ⟨himp, hexp, hev, _⟩ := solve_tables he
    obtain ⟨db, hans, _⟩ := hlive.answered hex he ho
    have hass : result ≠ .unknown → k.assumptions = s.current.map (intern s.kitten) := by
      intro hne
      rw [hans.assumptions, if_neg hne]
      exact hlive.prepared_assumptions
    refine ⟨fun hr => ?_, fun hr => ?_⟩
    · refine hlive.unsatisfiable h.tabled hlive.current ?_
      rw [← hass (by simp [hr])]
      exact hans.unsat hr
    · refine (hans.model hr).satisfying hlive (h.tabled.same himp hexp hev.ge) himp ?_ (hass (by simp [hr]))
      rw [hans.status, hr]
      rfl
  · -- an exhausted kitten does not answer
    unfold Kitten.solve at he
    rw [if_pos (by simpa using hex)] at he
    obtain ⟨rfl, rfl⟩ := Prod.mk.inj (some.inj he)
    exact ⟨nofun, nofun⟩

/-- The answer of every run is right as long as the arena stays below its last references. -/
theorem solve_verdict (hdist : ∀ c ∈ calls, c.Distinct) (hsane : ∀ c ∈ calls, c.Sane)
    (hrun : run {} calls = some s) (he : s.kitten.solve fuel interrupt = some (k, result))
    (ho : k.referenceOverflow = false) : Verdict s k result :=
  (run_sound sound_new hdist hsane hrun ((solve_tables he).2.2.2.2.2 ho)).verdict he ho

/-- The four clauses over two variables: the search decides one and learns from the conflict. -/
def square : List Call :=
  [.trackAntecedents, .clause 0 [0, 2] INVALID, .clause 1 [1, 2] INVALID, .clause 2 [0, 3] INVALID,
    .clause 3 [1, 3] INVALID]

theorem solve_square : ((run {} square).bind fun s => (s.kitten.solve 9 fun _ => false).map
    fun p => (p.2, p.1.referenceOverflow, p.1.exhausted, p.1.antecedents, s.late)) =
    some (.inconsistent, false, false, true, false) := by decide +kernel

theorem solve_verdict_square : ∃ s k, run {} square = some s ∧
    s.kitten.solve 9 (fun _ => false) = some (k, .inconsistent) ∧ Verdict s k .inconsistent := by
  obtain ⟨s, hrun, hs⟩ := bind_eq_some_iff.mp solve_square
  obtain ⟨⟨k, result⟩, he, hk⟩ := map_eq_some_iff.mp hs
  obtain ⟨rfl, ho, -⟩ : _ ∧ _ ∧ _ := by simpa using hk
  exact ⟨s, k, hrun, he, solve_verdict (by simp [square, Call.Distinct, INVALID])
    (by simp [square, Call.Sane, externalLiteralSane, MAX_VARS]) hrun he ho⟩

/-- After any calls the arena holds the given clauses and what follows from them, every klause is on its two watch
lists and on no other, and the scratch of the analysis is empty. -/
theorem run_idle (hdist : ∀ c ∈ calls, c.Distinct) (hsane : ∀ c ∈ calls, c.Sane) (hrun : run {} calls = some s)
    (hex : s.kitten.exhausted = false) (ho : s.kitten.referenceOverflow = false) :
    Tabled s.kitten ∧ ∃ db, Idle s.kitten db s.internal := by
  have hsound := run_sound sound_new hdist hsane hrun ho
  obtain ⟨db, hidle, -⟩ := (hsound.live hex).idle
  exact ⟨hsound.tabled, db, hidle⟩

theorem run_idle_unit_clash : ∃ s db,
    run {} [.clause 0 [4] INVALID, .clause 1 [5, 2] INVALID, .solve 3 fun _ => false] = some s ∧
    Idle s.kitten db s.internal := by
  have hidle := @run_idle _ [.clause 0 [4] INVALID, .clause 1 [5, 2] INVALID, .solve 3 fun _ => false] ?_ ?_ rfl rfl rfl
  · obtain ⟨-, db, hidle⟩ := hidle
    exact ⟨_, db, rfl, hidle⟩
  · simp [Call.Distinct, INVALID]
  · simp [Call.Sane, externalLiteralSane, MAX_VARS]

/-- A literal that is not sane is left out, which strengthens the clause. -/
theorem not_verdict_insane :
    ∃ s k, (∀ c ∈ [Call.clause 0 [2 ^ 32 - 2] INVALID], c.Distinct) ∧
      run {} [.clause 0 [2 ^ 32 - 2] INVALID] = some s ∧
      s.kitten.solve 1 (fun _ => false) = some (k, .inconsistent) ∧ ¬ Verdict s k .inconsistent := by
  refine ⟨_, _, ?_, rfl, rfl, ?_⟩
  · simp [Call.Distinct, INVALID]
  · intro h
    refine h.1 rfl (Assigns fun _ => true) ⟨_, rfl⟩ ?_
    rintro C (⟨c, hc, rfl⟩ | ⟨a, ha, rfl⟩)
    · obtain rfl : c = [2 ^ 32 - 2] := by simpa [INVALID] using hc
      exact ⟨2 ^ 32 - 2, by simp [clauseSet], by simp [Assigns]⟩
    · simp [Session.current] at ha

section

variable {k1 k2 : Kitten} {db0 : ℕ → Option Klause}

def coreFormula (s : Session) (k1 k2 : Kitten) : Set (Set ℕ) :=
  {C | ∃ lits, (false, lits) ∈ k2.traverseCoreClauses ∧ C = clauseSet lits} ∪
    {C | ∃ e ∈ s.current, k1.failedAssumption e = true ∧ C = {e}}

def CoreSound (s : Session) (k1 : Kitten) : Prop :=
  (∃ fuel, (k1.computeClausalCore fuel).isSome = true) ∧
    ∀ fuel k2, k1.computeClausalCore fuel = some k2 → Unsatisfiable valuations (coreFormula s k1 k2)

theorem pullback_export {l : ℕ} (hl : l / 2 < k.exportTable.length) (σ : ℕ → Bool) :
    Assigns (pullback k σ) l ↔ Assigns σ (k.exportLiteral l) := by
  unfold Assigns pullback exportLiteral
  rw [getD_eq_getElem?_getD, getElem?_eq_getElem hl]
  dsimp only [getD_some]
  rw [show (2 * k.exportTable[l / 2] + l % 2) / 2 = k.exportTable[l / 2] by omega,
    show (2 * k.exportTable[l / 2] + l % 2) % 2 = l % 2 by omega]

theorem Cored.unsatisfiable (h : Cored k1 k2 db0 db) (hempty : RecordsEmpty k1 db0)
    (hrec : k1.inconsistent.isSome = true ∨ FailureRecorded k1 db0) :
    Unsatisfiable valuations
      (coreOriginals db ∪ {C | ∃ a ∈ k1.assumptions, k1.failed a = true ∧ C = {a}}) := by
  cases hi : k1.inconsistent with
  | some r =>
    obtain ⟨c, hc, hnil⟩ := hempty r hi
    have hent := h.root r c (by simp [hi]) hc
    intro v hv hs
    obtain ⟨l, hl, -⟩ := hent v hv fun C hC => hs C (Set.mem_union_left _ hC)
    simp [clauseSet, hnil] at hl
  | none =>
    have hfail := hrec.resolve_left (by simp [hi])
    exact hfail.unsat (fun r c hr hc => h.root r c (by simp [hi, hr]) hc) fun a ha hf => ⟨a, ha, hf, rfl⟩

theorem Cored.traversed (h : Cored k1 k2 db0 db) {r : ℕ} {c : Klause} (hr : db r = some c) (hl : c.learned = false)
    (hc : c.core = true) : (false, c.lits.map k2.exportLiteral) ∈ k2.traverseCoreClauses := by
  have hst : k2.status = .inconsistentCore := by rw [h.marked]
  unfold traverseCoreClauses
  rw [if_neg (by simp [hst])]
  refine mem_map.mpr ⟨r, h.listed r ⟨c, hr, hc⟩, ?_⟩
  rw [h.rep.learned_eq hr, h.rep.lits_eq hr, hl]

theorem Sound.core (h : Sound s) (hlate : s.late = false)
    (he : s.kitten.solve fuel interrupt = some (k1, .inconsistent)) (hex : k1.exhausted = false)
    (hant : k1.antecedents = true) (ho : k1.referenceOverflow = false) : CoreSound s k1 := by
  obtain ⟨himp, hexp, hev, hant', hexh, _⟩ := solve_tables he
  have hlive := h.live (hexh hex)
  obtain ⟨db, hans, hrec⟩ := hlive.answered (hexh hex) he ho
  obtain ⟨db1, hi, hcause, hempty⟩ := hans.idle hex
  have ha0 : s.kitten.antecedents = true := hant' ▸ hant
  have hst : k1.status = .inconsistent := hans.status
  refine ⟨computeClausalCore_halts hi.stable, fun fuel' k2 hc => ?_⟩
  obtain ⟨db2, hcored⟩ := computeClausalCore_spec hi.stable hst hant hc
  have hu := hcored.unsatisfiable (hempty ha0 (hrec hlate ha0)) (hcause rfl)
  have htab : Tabled k1 := h.tabled.same himp hexp hev.ge
  have hass : k1.assumptions = s.current.map (intern s.kitten) := by
    rw [hans.assumptions, if_neg nofun]
    exact hlive.prepared_assumptions
  have hren : Renumbers s.kitten k1 := fun x _ => by rw [himp]
  have hexp2 : k2.exportTable = k1.exportTable := by rw [hcored.marked]
  rintro _ ⟨σ, rfl⟩ hs
  refine hu _ ⟨pullback k1 σ, rfl⟩ ?_
  rintro C (⟨r, c, hr, hl, hcore, rfl⟩ | ⟨a, ha, hf, rfl⟩)
  · obtain ⟨x, hx, hσ⟩ := hs _ (Set.mem_union_left _ ⟨_, hcored.traversed hr hl hcore, rfl⟩)
    obtain ⟨l, hmem, rfl⟩ := mem_map.mp hx
    obtain ⟨c', hr', hlits, _⟩ := hcored.reflagged.symm.some hr
    have hlt := hi.stable.klauses.lits_lt r c' hr' l (by rw [hlits]; exact hmem)
    refine ⟨l, hmem, (pullback_export hlt σ).mpr ?_⟩
    unfold exportLiteral at hσ ⊢
    rwa [hexp2] at hσ
  · rw [hass] at ha
    obtain ⟨e, hce, rfl⟩ := mem_map.mp ha
    have hk := hlive.current e hce
    have hk1 := hren.known hk
    have hfail : k1.failedAssumption e = true := by
      unfold failedAssumption
      rw [if_neg (by simp [hst]), htab.internal_eq, if_neg hk1, hren.intern hk]
      exact hf
    obtain ⟨x, hx, hσ⟩ := hs {e} (Set.mem_union_right _ ⟨e, hce, hfail, rfl⟩)
    obtain rfl : e = x := hx.symm
    refine ⟨_, rfl, ?_⟩
    rw [← hren.intern hk]
    exact (pullback_intern htab hk1 σ).mpr hσ

theorem CoreSound.mirrors {t : Session} (h : CoreSound t k1) (hm : Mirrors s t) : CoreSound s k1 := by
  refine ⟨h.1, fun fuel k2 hc v hv hs => h.2 fuel k2 hc v hv ?_⟩
  rintro C (hC | ⟨e, he, hf, rfl⟩)
  · exact hs C (Set.mem_union_left _ hC)
  · exact hs _ (Set.mem_union_right _ ⟨e, hm.current e he, hf, rfl⟩)

/-- The core of every inconsistent run is unsatisfiable as long as tracking starts before a
conflict is on record and no klause is refused or misplaced by a full arena. -/
theorem core_unsatisfiable (hrun : run {} calls = some s) (hlate : s.late = false)
    (he : s.kitten.solve fuel interrupt = some (k1, .inconsistent)) (hex : k1.exhausted = false)
    (hant : k1.antecedents = true) (ho : k1.referenceOverflow = false) : CoreSound s k1 := by
  have ho' := (solve_tables he).2.2.2.2.2 ho
  obtain ⟨t, ht, hm⟩ := run_mirrors (.refl _) sound_new hrun ho'
  rw [← hm.kitten] at he
  exact (ht.core (hm.late.trans hlate) he hex hant ho).mirrors hm

theorem core_unsatisfiable_square : ∃ s k1, run {} square = some s ∧
    s.kitten.solve 9 (fun _ => false) = some (k1, .inconsistent) ∧ CoreSound s k1 := by
  obtain ⟨s, hrun, hs⟩ := bind_eq_some_iff.mp solve_square
  obtain ⟨⟨k, result⟩, he, hk⟩ := map_eq_some_iff.mp hs
  obtain ⟨rfl, ho, hex, hant, hlate⟩ : _ ∧ _ ∧ _ ∧ _ ∧ _ := by simpa using hk
  exact ⟨s, k, hrun, he, core_unsatisfiable hrun hlate he hex hant ho⟩

/-- The conflict was recorded without its antecedents. -/
theorem not_coreSound_late : ∃ s k1,
    run {} [.clause 0 [0, 2] INVALID, .clause 1 [1] INVALID, .clause 2 [3] INVALID, .solve 5
    (fun _ => false), .assume 10, .trackAntecedents] = some s ∧
    s.kitten.solve 5 (fun _ => false) = some (k1, .inconsistent) ∧ k1.antecedents = true ∧ ¬ CoreSound s k1 := by
  refine ⟨_, _, rfl, rfl, rfl, fun h => ?_⟩
  refine h.2 5 _ rfl (Assigns fun _ => true) ⟨_, rfl⟩ ?_
  rintro C (⟨lits, hmem, rfl⟩ | ⟨e, he, hf, rfl⟩)
  · have hlits : (false, lits) ∈ [(false, [0, 2])] := hmem
    obtain rfl : lits = [0, 2] := by simpa using hlits
    exact ⟨0, by simp [clauseSet], by simp [Assigns]⟩
  · have hcur : e ∈ [10] := he
    obtain rfl : e = 10 := by simpa using hcur
    exact ⟨10, rfl, by simp [Assigns]⟩

end

end Nixie.Kitten
