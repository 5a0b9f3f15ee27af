import Nixie.Ast.Context
import Nixie.Ast.SimplifyValue

/-!
A walk under a context replaces a term by one that agrees with it where the entries it rests on hold.
-/

namespace Nixie.Ast

open Interp List Walked

variable {m : Manager} {K D : Type*} [Field K] [LinearOrder K] [FloorRing K] [DecidableEq D]
  {a b c t e r : Term} {args : List Term} {ctx rests rests' : Context} {lit : Term × Bool} {q : Bool}

def Interp.Holds (I : Interp m K D) (ctx : Context) : Prop := ∀ entry ∈ ctx, I.truth entry.1 = entry.2

theorem Interp.holds_append {I : Interp m K D} :
    I.Holds (rests ++ rests') ↔ I.Holds rests ∧ I.Holds rests' := forall_mem_append

structure Agrees (m : Manager) (K D : Type*) [Field K] [LinearOrder K] [FloorRing K] [DecidableEq D]
    (rests : Context) (t r : Term) : Prop where
  wf : m.WellSorted r
  sort : r.sort.Compatible t.sort
  eval : ∀ I : Interp m K D, I.Holds rests → I.eval r = I.eval t

theorem Agrees.refl (h : m.WellSorted t) : Agrees m K D rests t t := ⟨h, .refl _, fun _ _ => rfl⟩

theorem Agrees.isBool (h : Agrees m K D rests t r) (ht : IsBool m t) : IsBool m r :=
  ⟨h.wf, (ht.sort ▸ h.sort).eq_bool⟩

theorem Agrees.truth (h : Agrees m K D rests t r) {I : Interp m K D} (hI : I.Holds rests) :
    I.truth r = I.truth t := congrArg Value.isTrue (h.eval I hI)

theorem Agrees.of_truth (ht : IsBool m t) (hr : IsBool m r)
    (h : ∀ I : Interp m K D, I.Holds rests → I.truth r = I.truth t) : Agrees m K D rests t r := by
  refine ⟨hr.wf, by rw [hr.sort, ht.sort], fun I hI => ?_⟩
  rw [hr.eval_eq, ht.eval_eq, h I hI]

theorem mem_insert {entry : Term × Bool} (h : entry ∈ ctx.insert lit.1 lit.2) : entry = lit ∨ entry ∈ ctx := by
  rcases mem_cons.mp h with rfl | h
  · exact .inl rfl
  · exact .inr (mem_filter.mp h).1

theorem truth_atomPolarity (h : atomPolarity t = some lit) (I : Interp m K D) :
    I.truth t = (I.truth lit.1 == lit.2) := by
  unfold atomPolarity at h
  split at h
  · cases h
    rw [truth_not]
    cases I.truth _ <;> rfl
  · split_ifs at h
    cases h
    cases I.truth _ <;> rfl

theorem ctxEntry_subset (ctx : Context) (t : Term) : ctxEntry ctx t ⊆ ctx := by
  unfold ctxEntry
  split
  · exact nil_subset _
  · exact nil_subset _
  · exact filter_subset_self _

theorem sort_of_ctxValue (h : ctxValue ctx t = some q) : t.sort = .bool := by
  unfold ctxValue at h
  split at h
  · rfl
  · rfl
  · obtain ⟨lit, hlit, -⟩ := Option.bind_eq_some_iff.mp h
    unfold atomPolarity at hlit
    split at hlit
    · rfl
    · split_ifs at hlit with hsort
      exact hsort

theorem truth_ctxValue (h : ctxValue ctx t = some q) {I : Interp m K D} (hI : I.Holds (ctxEntry ctx t)) :
    I.truth t = q := by
  unfold ctxValue at h
  split at h
  · cases h
    rfl
  · cases h
    rfl
  · next hnt hnf =>
    obtain ⟨lit, hlit, h⟩ := Option.bind_eq_some_iff.mp h
    obtain ⟨known, hknown, h⟩ := Option.map_eq_some_iff.mp h
    have hmem : (lit.1, known) ∈ ctxEntry ctx t := by
      obtain ⟨l₁, l₂, rfl, -⟩ := lookup_eq_some_iff.mp hknown
      rw [ctxEntry]
      · simp [hlit]
      · exact hnt
      · exact hnf
    have hatom := hI _ hmem
    rw [truth_atomPolarity hlit, hatom, ← h]
    cases lit.2 <;> cases known <;> rfl

section

variable {H α β : Type}

structure CtxState.Valid (m : Manager) (K D : Type*) [Field K] [LinearOrder K] [FloorRing K]
    [DecidableEq D] (s : CtxState H) : Prop where
  eqs : CacheValid m K D s.eqs
  memo : ∀ t sig r rests, s.memo (t, sig) = some (r, rests) → m.WellSorted t → Agrees m K D rests t r

/-- What a walk from the state does apart from its result: unless a stored result was used where an
entry it rests on is missing, the outcome rests on the context. -/
structure Walked.Runs (m : Manager) (K D : Type*) [Field K] [LinearOrder K] [FloorRing K]
    [DecidableEq D] (s : CtxState H) (ctx : Context) (w : Walked H α) : Prop where
  valid : w.state.Valid m K D
  fresh : w.state.stale = false → s.stale = false ∧ w.rests ⊆ ctx

variable {s s' : CtxState H} {w : Walked H α} {w' : Walked H β} {depth : ℕ} {walk : Walk H}

@[simp]
theorem Walked.add_out (w : Walked H α) (w' : Walked H β) : (w.add w').out = w'.out := rfl

@[simp]
theorem Walked.map_out (w : Walked H α) (f : α → β) : (w.map f).out = f w.out := rfl

theorem Walked.Runs.add (h : w.Runs m K D s ctx) (h' : w'.Runs m K D w.state ctx) :
    (w.add w').Runs m K D s ctx where
  valid := h'.valid
  fresh hst := by
    obtain ⟨hmid, hsub'⟩ := h'.fresh hst
    obtain ⟨hstart, hsub⟩ := h.fresh hmid
    exact ⟨hstart, append_subset.mpr ⟨hsub, hsub'⟩⟩

theorem Walked.Runs.map (h : w.Runs m K D s ctx) (f : α → β) : (w.map f).Runs m K D s ctx := ⟨h.valid, h.fresh⟩

theorem Walked.Runs.entry (h : w.Runs m K D s ctx) (t : Term) :
    ({ w with rests := ctxEntry ctx t ++ w.rests } : Walked H α).Runs m K D s ctx where
  valid := h.valid
  fresh hst := ⟨(h.fresh hst).1, append_subset.mpr ⟨ctxEntry_subset ctx t, (h.fresh hst).2⟩⟩

theorem CtxState.Valid.runs (h : s.Valid m K D) (out : α) (hsub : rests ⊆ ctx) :
    (⟨out, rests, s⟩ : Walked H α).Runs m K D s ctx := ⟨h, fun hst => ⟨hst, hsub⟩⟩

theorem runs_assuming {run : Context → Walked H α} (lit : Option (Term × Bool)) (h : ∀ ctx, (run ctx).Runs m K D s ctx)
    (ctx : Context) : (assuming lit run ctx).Runs m K D s ctx := by
  cases lit with
  | none => exact h ctx
  | some lit =>
    refine ⟨(h _).valid, fun hst => ?_⟩
    obtain ⟨hstart, hsub⟩ := (h (ctx.insert lit.1 lit.2)).fresh hst
    refine ⟨hstart, fun entry he => ?_⟩
    obtain ⟨hmem, hne⟩ := mem_filter.mp he
    rcases mem_insert (hsub hmem) with rfl | hctx
    · simp at hne
    · exact hctx

theorem assuming_eq (lit : Option (Term × Bool)) (run : Context → Walked H α) (ctx : Context) :
    ∃ ctx', (assuming lit run ctx).out = (run ctx').out ∧ ∀ I : Interp m K D, I.Holds (assuming lit run ctx).rests →
    (∀ l, lit = some l → I.truth l.1 = l.2) → I.Holds (run ctx').rests := by
  cases lit with
  | none => exact ⟨ctx, rfl, fun I hI _ => hI⟩
  | some lit =>
    refine ⟨ctx.insert lit.1 lit.2, rfl, fun I hI hlit entry he => ?_⟩
    by_cases hentry : entry = lit
    · rw [hentry]
      exact hlit lit rfl
    · exact hI entry (mem_filter.mpr ⟨he, by simpa using hentry⟩)

structure SoundAt (m : Manager) (K D : Type*) [Field K] [LinearOrder K] [FloorRing K] [DecidableEq D]
    (s : CtxState H) (ctx : Context) (t : Term) (w : Walked H Term) : Prop where
  runs : w.Runs m K D s ctx
  agrees : Agrees m K D w.rests t w.out

def SoundWalk (m : Manager) (K D : Type*) [Field K] [LinearOrder K] [FloorRing K] [DecidableEq D]
    (walk : Walk H) : Prop :=
  ∀ s ctx t depth, s.Valid m K D → m.WellSorted t → SoundAt m K D s ctx t (walk s ctx t depth)

end

section

variable {H : Type} {s : CtxState H} {walk : Walk H}

structure Conjoins (m : Manager) (K D : Type*) [Field K] [LinearOrder K] [FloorRing K] [DecidableEq D]
    (rests : Context) (args : List Term) (out : Option (List Term)) : Prop where
  isBool : ∀ kept, out = some kept → ∀ a ∈ kept, IsBool m a
  truth : ∀ I : Interp m K D, I.Holds rests → (out.elim false fun kept => kept.all I.truth) = args.all I.truth

theorem conjoins_ctxConjuncts (hwalk : SoundWalk m K D walk) (hs : s.Valid m K D) (hargs : ∀ a ∈ args, IsBool m a)
    (ctx : Context) (depth : ℕ) : (ctxConjuncts walk depth args s ctx).Runs m K D s ctx ∧
    Conjoins m K D (ctxConjuncts walk depth args s ctx).rests args (ctxConjuncts walk depth args s ctx).out := by
  induction args generalizing s ctx with
  | nil => exact ⟨hs.runs _ (nil_subset _), ⟨by simp [ctxConjuncts], by simp [ctxConjuncts]⟩⟩
  | cons a args ih =>
    obtain ⟨ha, hrest⟩ := forall_mem_cons.mp hargs
    unfold ctxConjuncts
    split
    · next hval =>
      refine ⟨hs.runs _ (ctxEntry_subset ctx a), by simp, fun I hI => ?_⟩
      simp [truth_ctxValue hval hI]
    · next hval =>
      obtain ⟨hruns, hconj⟩ := ih hs hrest ctx
      refine ⟨hruns.entry a, hconj.isBool, fun I hI => ?_⟩
      obtain ⟨hentry, hI⟩ := holds_append.mp hI
      simpa [truth_ctxValue hval hentry] using hconj.truth I hI
    · have hw := hwalk s ctx a (wrappingPred depth) hs ha.wf
      generalize walk s ctx a (wrappingPred depth) = w at hw ⊢
      dsimp only
      split_ifs with hfalse htrue
      · refine ⟨hw.runs.map _, by simp [Walked.map], fun I hI => ?_⟩
        have htruth := hw.agrees.truth hI
        rw [hfalse] at htruth
        simp [← htruth, Walked.map]
      · obtain ⟨hruns, hconj⟩ := ih hw.runs.valid hrest ctx
        refine ⟨hw.runs.add hruns, hconj.isBool, fun I hI => ?_⟩
        obtain ⟨hIw, hI⟩ := holds_append.mp hI
        have htruth := hw.agrees.truth hIw
        rw [htrue] at htruth
        simpa [← htruth] using hconj.truth I hI
      · have hruns := runs_assuming (atomPolarity w.out) (fun ctx => (ih hw.runs.valid hrest ctx).1) ctx
        obtain ⟨ctx', hout, hholds⟩ : ∃ ctx', _ ∧ ∀ I : Interp m K D, _ :=
          assuming_eq (atomPolarity w.out) (ctxConjuncts walk depth args w.state) ctx
        obtain ⟨-, hconj⟩ := ih hw.runs.valid hrest ctx'
        refine ⟨hw.runs.add (hruns.map _), ?_, fun I hI => ?_⟩
        · intro kept hkept
          rw [add_out, map_out, hout] at hkept
          obtain ⟨kept, hk, rfl⟩ := Option.map_eq_some_iff.mp hkept
          exact forall_mem_cons.mpr ⟨hw.agrees.isBool ha, hconj.isBool kept hk⟩
        · obtain ⟨hIw, hI⟩ := holds_append.mp hI
          rw [add_out, map_out, hout, all_cons, ← hw.agrees.truth hIw]
          -- Only where the conjunct is true is the rest of it as under the conjunct.
          cases hcase : I.truth w.out with
          | false => cases (ctxConjuncts walk depth args w.state ctx').out <;> simp [hcase]
          | true =>
            have hlit : ∀ l, atomPolarity w.out = some l → I.truth l.1 = l.2 := fun l hl => by
              simpa [hcase] using truth_atomPolarity hl I
            rw [Bool.true_and, ← hconj.truth I (hholds I hI hlit)]
            cases (ctxConjuncts walk depth args w.state ctx').out <;> simp [hcase]

structure Decides (m : Manager) (K D : Type*) [Field K] [LinearOrder K] [FloorRing K] [DecidableEq D]
    (s : CtxState H) (ctx : Context) (w : Walked H Term) (value : Interp m K D → Bool) : Prop where
  runs : w.Runs m K D s ctx
  isBool : IsBool m w.out
  truth : ∀ I : Interp m K D, I.Holds w.rests → I.truth w.out = value I

theorem Decides.sound {w : Walked H Term} {value : Interp m K D → Bool} (h : Decides m K D s ctx w value)
    (ht : IsBool m t) (hvalue : ∀ I, value I = I.truth t) : SoundAt m K D s ctx t w :=
  ⟨h.runs, .of_truth ht h.isBool fun I hI => (h.truth I hI).trans (hvalue I)⟩

theorem decides_ctxAnd (hwalk : SoundWalk m K D walk) (hs : s.Valid m K D) (hargs : ∀ a ∈ args, IsBool m a)
    (ctx : Context) (depth : ℕ) : Decides m K D s ctx (ctxAnd walk s ctx args depth) fun I => args.all I.truth := by
  obtain ⟨hruns, hconj⟩ := conjoins_ctxConjuncts hwalk hs hargs ctx depth
  refine ⟨hruns.map _, ?_, fun I hI => ?_⟩
  · rw [ctxAnd, map_out]
    split
    · exact isBool_false
    · next simplified hout => exact isBool_absorbLiterals (hconj.isBool simplified hout) true
  · rw [ctxAnd, map_out, ← hconj.truth I hI]
    split
    · next hout => simp [hout]
    · next simplified hout => simp [hout, truth_absorb_and]

theorem ctxDisjuncts_spec (hwalk : SoundWalk m K D walk) (hs : s.Valid m K D) (hargs : ∀ a ∈ args, IsBool m a)
    (ctx : Context) (depth : ℕ) : (ctxDisjuncts walk depth args s ctx).Runs m K D s ctx ∧
    (∀ a ∈ (ctxDisjuncts walk depth args s ctx).out, IsBool m a) ∧
    ∀ I : Interp m K D, I.Holds (ctxDisjuncts walk depth args s ctx).rests →
    (ctxDisjuncts walk depth args s ctx).out.any I.truth = args.any I.truth := by
  induction args generalizing s with
  | nil => exact ⟨hs.runs _ (nil_subset _), nofun, fun I _ => rfl⟩
  | cons a args ih =>
    obtain ⟨ha, hrest⟩ := forall_mem_cons.mp hargs
    unfold ctxDisjuncts
    split_ifs with hval
    · obtain ⟨hruns, hbool, htruth⟩ := ih hs hrest
      refine ⟨hruns.entry a, hbool, fun I hI => ?_⟩
      obtain ⟨hentry, hI⟩ := holds_append.mp hI
      simpa [truth_ctxValue hval hentry] using htruth I hI
    · have hw := hwalk s ctx a depth hs ha.wf
      obtain ⟨hruns, hbool, htruth⟩ := ih hw.runs.valid hrest
      refine ⟨hw.runs.add (hruns.map _), ?_, fun I hI => ?_⟩
      · exact forall_mem_cons.mpr ⟨hw.agrees.isBool ha, hbool⟩
      · obtain ⟨hIw, hI⟩ := holds_append.mp hI
        simp [hw.agrees.truth hIw, htruth I hI]

theorem decides_ctxDisjuncts (hwalk : SoundWalk m K D walk) (hs : s.Valid m K D) (hargs : ∀ a ∈ args, IsBool m a)
    (ctx : Context) (depth : ℕ) : Decides m K D s ctx
    ((ctxDisjuncts walk depth args s ctx).map (absorbLiterals · false)) fun I => args.any I.truth := by
  obtain ⟨hruns, hbool, htruth⟩ := ctxDisjuncts_spec hwalk hs hargs ctx depth
  refine ⟨hruns.map _, isBool_absorbLiterals hbool false, fun I hI => ?_⟩
  rw [map_out, truth_absorb_or, htruth I hI]

end

section

variable {H : Type} {s : CtxState H} {walk : Walk H} {cs as bs : Term}

structure Chooses (m : Manager) (K D : Type*) [Field K] [LinearOrder K] [FloorRing K] [DecidableEq D]
    (s : CtxState H) (ctx : Context) (c a b : Term) (w : Walked H Term) : Prop where
  runs : w.Runs m K D s ctx
  wf : m.WellSorted w.out
  sort : w.out.sort.Compatible a.sort
  eval : ∀ I : Interp m K D, I.Holds w.rests → I.eval w.out = I.choice c a b

theorem Selects.chooses (h : Selects m K D c a b r) (hs : s.Valid m K D) : Chooses m K D s ctx c a b ⟨r, [], s⟩ :=
  ⟨hs.runs _ (nil_subset _), h.wf, h.sort, fun I _ => h.eval I⟩

theorem Decides.chooses {w : Walked H Term} {value : Interp m K D → Bool} (h : Decides m K D s ctx w value)
    (ha : IsBool m a) (hb : IsBool m b) (hvalue : ∀ I, value I = bif I.truth c then I.truth a else I.truth b) :
    Chooses m K D s ctx c a b w := by
  refine ⟨h.runs, h.isBool.wf, by rw [h.isBool.sort, ha.sort], fun I hI => ?_⟩
  rw [h.isBool.eval_eq, h.truth I hI, hvalue, choice, ha.eval_eq, hb.eval_eq]
  cases I.truth c <;> rfl

theorem chooses_ctxConnect (hwalk : SoundWalk m K D walk) (hs : s.Valid m K D) (h : Branches m cs as bs) (ctx : Context)
    (depth : ℕ) : Chooses m K D s ctx cs as bs (ctxConnect walk s ctx cs as bs depth) := by
  have hnot := isBool_mkNot h.cond
  unfold ctxConnect
  split_ifs with hbool h1 h2 h3 h4 h5 h6
  · exact (selects_of_truth ⟨h.thenWf, hbool.1⟩ ⟨h.elseWf, hbool.2⟩ h.cond fun I => by
      cases I.truth cs <;> simp [h1]).chooses hs
  · exact (selects_of_truth ⟨h.thenWf, hbool.1⟩ ⟨h.elseWf, hbool.2⟩ hnot fun I => by
      cases hc : I.truth cs <;> simp [h2, hc]).chooses hs
  · refine (selects_of_truth ⟨h.thenWf, hbool.1⟩ ⟨h.elseWf, hbool.2⟩ (isBool_mkOr ?_) fun I => ?_).chooses hs
    · simpa using ⟨h.cond, h.elseWf, hbool.2⟩
    · cases hc : I.truth cs <;> simp [h3, hc]
  · refine (selects_of_truth ⟨h.thenWf, hbool.1⟩ ⟨h.elseWf, hbool.2⟩ (isBool_mkOr ?_) fun I => ?_).chooses hs
    · simpa using ⟨hnot, h.thenWf, hbool.1⟩
    · cases hc : I.truth cs <;> simp [h4, hc]
  · refine (decides_ctxAnd hwalk hs ?_ ctx depth).chooses ⟨h.thenWf, hbool.1⟩ ⟨h.elseWf, hbool.2⟩ fun I => ?_
    · simpa using ⟨hnot, h.elseWf, hbool.2⟩
    · cases hc : I.truth cs <;> simp [h5, hc]
  · refine (decides_ctxAnd hwalk hs ?_ ctx depth).chooses ⟨h.thenWf, hbool.1⟩ ⟨h.elseWf, hbool.2⟩ fun I => ?_
    · simpa using ⟨h.cond, h.thenWf, hbool.1⟩
    · cases hc : I.truth cs <;> simp [h6, hc]
  · exact (selects_mkIte h).chooses hs
  · exact (selects_mkIte h).chooses hs

theorem sound_ctxIte {sort : SortId} (hwalk : SoundWalk m K D walk) (hs : s.Valid m K D)
    (ht : m.WellSorted (.ite c a b sort)) (ctx : Context) (depth : ℕ) :
    SoundAt m K D s ctx (.ite c a b sort) (ctxIte walk s ctx c a b depth) := by
  have hbr := branches_ite ht
  have hsort := ht.fits.2.2
  have hwc := hwalk s ctx c depth hs hbr.cond.wf
  unfold ctxIte
  generalize walk s ctx c depth = wc at hwc ⊢
  dsimp only
  split_ifs with htrue hfalse
  · have hwa := hwalk wc.state ctx a depth hwc.runs.valid hbr.thenWf
    refine ⟨hwc.runs.add hwa.runs, hwa.agrees.wf, hwa.agrees.sort.trans hsort.symm, fun I hI => ?_⟩
    obtain ⟨hIc, hIa⟩ := holds_append.mp hI
    have hc := hwc.agrees.truth hIc
    rw [htrue, truth_true] at hc
    rw [add_out, hwa.agrees.eval I hIa, eval_ite, choice, ← hc, cond_true]
  · have hwb := hwalk wc.state ctx b depth hwc.runs.valid hbr.elseWf
    refine ⟨hwc.runs.add hwb.runs, hwb.agrees.wf, ?_, fun I hI => ?_⟩
    · exact hwb.agrees.sort.trans (hbr.sort.symm.trans hsort.symm)
    · obtain ⟨hIc, hIb⟩ := holds_append.mp hI
      have hc := hwc.agrees.truth hIc
      rw [hfalse, truth_false] at hc
      rw [add_out, hwb.agrees.eval I hIb, eval_ite, choice, ← hc, cond_false]
  · have hruna := runs_assuming (atomPolarity wc.out)
      (fun ctx => (hwalk wc.state ctx a depth hwc.runs.valid hbr.thenWf).runs) ctx
    obtain ⟨ctxa, houta, hresta⟩ : ∃ ctx', _ ∧ ∀ I : Interp m K D, _ :=
      assuming_eq (atomPolarity wc.out) (walk wc.state · a depth) ctx
    have hwa := (hwalk wc.state ctxa a depth hwc.runs.valid hbr.thenWf).agrees
    rw [← houta] at hwa
    generalize assuming (atomPolarity wc.out) (walk wc.state · a depth) ctx = wa at *
    have hrunb := runs_assuming (flipped (atomPolarity wc.out))
      (fun ctx => (hwalk wa.state ctx b depth hruna.valid hbr.elseWf).runs) ctx
    obtain ⟨ctxb, houtb, hrestb⟩ : ∃ ctx', _ ∧ ∀ I : Interp m K D, _ :=
      assuming_eq (flipped (atomPolarity wc.out)) (walk wa.state · b depth) ctx
    have hwb := (hwalk wa.state ctxb b depth hruna.valid hbr.elseWf).agrees
    rw [← houtb] at hwb
    generalize assuming (flipped (atomPolarity wc.out)) (walk wa.state · b depth) ctx = wb at *
    have hbranches : Branches m wc.out wa.out wb.out :=
      ⟨hwc.agrees.isBool hbr.cond, hwa.wf, hwb.wf, hwa.sort.trans (hbr.sort.trans hwb.sort.symm)⟩
    have hconn := chooses_ctxConnect hwalk hrunb.valid hbranches ctx depth
    refine ⟨hwc.runs.add (hruna.add (hrunb.add hconn.runs)), hconn.wf, ?_, fun I hI => ?_⟩
    · exact hconn.sort.trans (hwa.sort.trans hsort.symm)
    · obtain ⟨hIc, hI⟩ := holds_append.mp hI
      obtain ⟨hIa, hI⟩ := holds_append.mp hI
      obtain ⟨hIb, hI⟩ := holds_append.mp hI
      simp only [add_out]
      rw [hconn.eval I hI, eval_ite, choice, choice, hwc.agrees.truth hIc]
      cases hc : I.truth c with
      | true =>
        refine hwa.eval I (hresta I hIa fun l hl => ?_)
        have := truth_atomPolarity hl I
        rw [hwc.agrees.truth hIc, hc] at this
        simpa using this.symm
      | false =>
        refine hwb.eval I (hrestb I hIb fun l hl => ?_)
        obtain ⟨lit, hlit, rfl⟩ := Option.map_eq_some_iff.mp hl
        have := truth_atomPolarity hlit I
        rw [hwc.agrees.truth hIc, hc] at this
        exact Bool.eq_not.mpr (by simpa using this.symm)

theorem CtxState.Valid.withEqs (hs : s.Valid m K D) {eqs : EqCache} (heqs : CacheValid m K D eqs) :
    CtxState.Valid m K D { s with eqs := eqs } := ⟨heqs, hs.memo⟩

theorem sound_ctxEq (hwalk : SoundWalk m K D walk) (hs : s.Valid m K D) (ht : m.WellSorted (.eq a b)) (ctx : Context)
    (depth : ℕ) : SoundAt m K D s ctx (.eq a b) (ctxEq m walk s ctx a b depth) := by
  have hcomp : Comparable m a b :=
    ⟨ht.child a (by simp [Term.children]), ht.child b (by simp [Term.children]), ht.fits⟩
  obtain ⟨hout, hvalid⟩ := solves_eqIteRules hcomp hs.eqs
  have hs' := hs.withEqs hvalid
  unfold ctxEq
  split
  next solved eqs heq =>
  rw [heq] at hout hs'
  split
  · next solved =>
    have hsolved := hout solved rfl
    have hw := hwalk _ ctx solved depth hs' hsolved.isBool.wf
    have hbool := hw.agrees.isBool hsolved.isBool
    refine ⟨⟨hw.runs.valid, hw.runs.fresh⟩, .of_truth ⟨ht, rfl⟩ hbool fun I hI => ?_⟩
    rw [hw.agrees.truth hI, hsolved.truth, truth_eq]
  · have hwl := hwalk _ ctx a depth hs' hcomp.left
    dsimp only at hwl ⊢
    generalize walk _ ctx a depth = wl at hwl ⊢
    have hwr := hwalk wl.state ctx b depth hwl.runs.valid hcomp.right
    generalize walk wl.state ctx b depth = wr at hwr ⊢
    have hpair := isEq_mkEq (K := K) (D := D) hwl.agrees.wf hwr.agrees.wf
      (hwl.agrees.sort.trans (hcomp.sort.trans hwr.agrees.sort.symm))
    have hruns := hwl.runs.add (hwr.runs.map (m.mkEq wl.out))
    refine ⟨⟨hruns.valid, hruns.fresh⟩, .of_truth ⟨ht, rfl⟩ hpair.isBool fun I hI => ?_⟩
    obtain ⟨hIl, hIr⟩ := holds_append.mp hI
    simp only [add_out, map_out]
    rw [hpair.truth, hwl.agrees.eval I hIl, hwr.agrees.eval I hIr, truth_eq]

end

section

variable {H : Type} [DecidableEq H] {walk inner : Walk H} {hash : Context → H} {root : Term}

omit [DecidableEq H] in
theorem soundWalk_ctxWalkInner (hwalk : SoundWalk m K D walk) : SoundWalk m K D (ctxWalkInner m walk) := by
  intro s ctx t depth hs ht
  have hself : ∀ s : CtxState H, s.Valid m K D → SoundAt m K D s ctx t ⟨t, [], s⟩ :=
    fun s hs => ⟨hs.runs _ (nil_subset _), .refl ht⟩
  unfold ctxWalkInner
  split_ifs with hfuel
  · exact hself s hs
  · have hs' : CtxState.Valid m K D { s with fuel := s.fuel - 1 } := ⟨hs.eqs, hs.memo⟩
    suffices h : SoundAt m K D { s with fuel := s.fuel - 1 } ctx t _ from
      ⟨⟨h.runs.valid, h.runs.fresh⟩, h.agrees⟩
    dsimp only
    split
    · next v hval =>
      refine ⟨hs'.runs _ (ctxEntry_subset ctx t), ?_⟩
      refine .of_truth ⟨ht, sort_of_ctxValue hval⟩ (isBool_mkBool v) fun I hI => ?_
      rw [truth_mkBool, truth_ctxValue hval hI]
    · split
      · next inner _ =>
        have hinner : IsBool m inner := isBool_not.mp ⟨ht, rfl⟩
        have hw := hwalk _ ctx inner (depth - 1) hs' hinner.wf
        refine ⟨hw.runs.map _, .of_truth ⟨ht, rfl⟩ (isBool_mkNot (hw.agrees.isBool hinner)) fun I hI => ?_⟩
        rw [map_out, truth_mkNot, truth_not, hw.agrees.truth hI]
      · next args _ =>
        have hargs : ∀ a ∈ args, IsBool m a := fun a ha => ⟨ht.child a ha, ht.fits a ha⟩
        exact (decides_ctxAnd hwalk hs' hargs ctx _).sound ⟨ht, rfl⟩ fun I => (truth_and I args).symm
      · next args _ =>
        have hargs : ∀ a ∈ args, IsBool m a := fun a ha => ⟨ht.child a ha, ht.fits a ha⟩
        exact (decides_ctxDisjuncts hwalk hs' hargs ctx _).sound ⟨ht, rfl⟩ fun I => (truth_or I args).symm
      · exact sound_ctxIte hwalk hs' ht ctx _
      · exact sound_ctxEq hwalk hs' ht ctx _
      · exact hself _ hs'

theorem soundWalk_memoized (hinner : SoundWalk m K D inner) : SoundWalk m K D (memoized m hash root inner) := by
  intro s ctx t depth hs ht
  unfold memoized
  split_ifs
  · exact ⟨hs.runs _ (nil_subset _), .refl ht⟩
  · split
    · exact hinner s ctx t depth hs ht
    · next sig _ =>
      split
      · next r rests hmemo =>
        refine ⟨⟨⟨hs.eqs, hs.memo⟩, fun hst => ?_⟩, hs.memo t sig r rests hmemo ht⟩
        simpa using hst
      · have hw := hinner s ctx t depth hs ht
        refine ⟨⟨⟨hw.runs.valid.eqs, fun t' sig' r rests hmemo ht' => ?_⟩, hw.runs.fresh⟩, hw.agrees⟩
        dsimp only [CtxState.insert] at hmemo
        by_cases hkey : (t', sig') = (t, sig)
        · rw [hkey, Function.update_self, Option.some.injEq] at hmemo
          obtain ⟨rfl, -⟩ := Prod.mk.inj hkey
          obtain ⟨rfl, rfl⟩ := Prod.mk.inj hmemo
          exact hw.agrees
        · rw [Function.update_of_ne hkey] at hmemo
          exact hw.runs.valid.memo t' sig' r rests hmemo ht'

theorem soundWalk_ctxWalk (calls : ℕ) : SoundWalk m K D (ctxWalk m hash root calls) := by
  induction calls with
  | zero =>
    exact soundWalk_memoized fun s ctx t _ hs ht => ⟨hs.runs _ (nil_subset _), .refl ht⟩
  | succ calls ih => exact soundWalk_memoized (soundWalk_ctxWalkInner ih)

end

end Nixie.Ast
