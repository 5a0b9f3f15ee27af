import Nixie.Ast.Absorb

/-!
The equality solver: what it makes of an equality denotes the equality, and so does every entry of
its cache.
-/

namespace Nixie.Ast

open Interp List Bool Manager

variable {m : Manager} {K D : Type*} [Field K] [LinearOrder K] [FloorRing K] [DecidableEq D]
  {x v c t e r y a b : Term} {s : SortId}

structure Comparable (m : Manager) (x v : Term) : Prop where
  left : m.WellSorted x
  right : m.WellSorted v
  sort : x.sort.Compatible v.sort

theorem Comparable.symm (h : Comparable m x v) : Comparable m v x := ⟨h.right, h.left, h.sort.symm⟩

theorem Comparable.isEq (h : Comparable m x v) : IsEq m K D x v (m.mkEq x v) := isEq_mkEq h.left h.right h.sort

theorem IsEq.symm (h : IsEq m K D x v r) : IsEq m K D v x r :=
  ⟨h.isBool, fun I => by rw [h.truth I]; simp only [eq_comm]⟩

theorem Comparable.branch (h : Comparable m (.ite c t e s) v) : IsBool m c ∧ Comparable m t v ∧ Comparable m e v := by
  have hb := branches_ite h.left
  have hs := h.left.fits.2.2
  exact ⟨hb.cond, ⟨hb.thenWf, h.right, hs.symm.trans h.sort⟩,
    ⟨hb.elseWf, h.right, hb.sort.symm.trans (hs.symm.trans h.sort)⟩⟩

theorem eval_of_rwAreEqual (h : Comparable m x v) (heq : m.rwAreEqual x v = true) (I : Interp m K D) :
    I.eval x = I.eval v := by
  simp only [rwAreEqual, or_eq_true, and_eq_true, decide_eq_true_eq] at heq
  rcases heq with rfl | ⟨-, hmk⟩
  · rfl
  · have htruth := h.isEq.truth I
    rw [hmk] at htruth
    simpa using htruth.symm

theorem eval_of_rwAreDistinct (h : Comparable m x v) (hne : m.rwAreDistinct x v = true) (I : Interp m K D) :
    I.eval x ≠ I.eval v := by
  simp only [rwAreDistinct, and_eq_true, decide_eq_true_eq] at hne
  have htruth := h.isEq.truth I
  rw [hne.2] at htruth
  simpa using htruth.symm

def Splits (m : Manager) (v : Term) (P : Term → Prop) (x : Term) : Prop :=
  (∃ c t e s, x = .ite c t e s ∧ P t ∧ P e) ∨ m.mkEq x v = .false

theorem Splits.mono {P Q : Term → Prop} (h : Splits m v P x) (hPQ : ∀ y, P y → Q y) : Splits m v Q x := by
  rcases h with ⟨c, t, e, s, rfl, ht, he⟩ | hfalse
  · exact .inl ⟨c, t, e, s, rfl, hPQ t ht, hPQ e he⟩
  · exact .inr hfalse

theorem ne_of_splits {S : Term → Prop} (h : ∀ x, S x → Splits m v S x) (hx : S x)
    (hcomp : Comparable m x v) (I : Interp m K D) : I.eval x ≠ I.eval v := by
  induction x using Term.induct with
  | h x ih =>
    rcases h x hx with ⟨c, t, e, s, rfl, ht, he⟩ | hfalse
    · obtain ⟨-, hct, hce⟩ := hcomp.branch
      rw [eval_ite, Interp.choice]
      cases I.truth c
      · exact ih e (by simp [Term.children]) he hce
      · exact ih t (by simp [Term.children]) ht hct
    · have htruth := hcomp.isEq.truth I
      rw [hfalse] at htruth
      simpa using htruth.symm

theorem splits_of_leavesDistinct {stack seen : List Term} {visited : ℕ}
    (h : m.leavesDistinct v stack seen visited = true)
    (hseen : ∀ x ∈ seen, Splits m v (fun y => y ∈ seen ∨ y ∈ stack) x) :
    ∃ S : Term → Prop, (∀ x, S x → Splits m v S x) ∧ ∀ x, x ∈ stack ∨ x ∈ seen → S x := by
  fun_induction m.leavesDistinct v stack seen visited with
  | case1 seen visited => exact ⟨(· ∈ seen), by simpa using hseen, by simp⟩
  | case2 seen visited x stack hmem ih =>
    obtain ⟨S, hclosed, hS⟩ := ih h fun y hy => (hseen y hy).mono (by grind)
    exact ⟨S, hclosed, fun y hy => hS y (by grind)⟩
  | case3 => cases h
  | case4 seen visited stack hvis c t e s hmem ih =>
    obtain ⟨S, hclosed, hS⟩ := ih h fun y hy => by
      rcases mem_cons.mp hy with rfl | hy
      · exact .inl ⟨c, t, e, s, rfl, by simp, by simp⟩
      · exact (hseen y hy).mono (by grind)
    exact ⟨S, hclosed, fun y hy => hS y (by grind)⟩
  | case5 => cases h
  | case6 seen visited stack hvis x hite hval heq hmem ih =>
    obtain ⟨S, hclosed, hS⟩ := ih h fun y hy => by
      rcases mem_cons.mp hy with rfl | hy
      · exact .inr (by simpa using heq)
      · exact (hseen y hy).mono (by grind)
    exact ⟨S, hclosed, fun y hy => hS y (by grind)⟩
  | case7 => cases h

theorem ne_of_iteLeavesAllDistinct (h : m.iteLeavesAllDistinct x v = true) (hcomp : Comparable m x v)
    (I : Interp m K D) : I.eval x ≠ I.eval v := by
  obtain ⟨S, hclosed, hS⟩ := splits_of_leavesDistinct h fun _ hx => nomatch hx
  exact ne_of_splits hclosed (hS x (by simp)) hcomp I

section

def Interp.same (I : Interp m K D) (p : Term × Term) : Bool := decide (I.eval p.1 = I.eval p.2)

theorem Interp.same_comm (I : Interp m K D) (x v : Term) : I.same (x, v) = I.same (v, x) := by
  simp only [same, eq_comm]

theorem same_keyOf (I : Interp m K D) (x v : Term) : I.same (m.keyOf x v) = I.same (x, v) := by
  unfold keyOf
  split_ifs
  · rfl
  · exact I.same_comm v x

theorem IsEq.intro (hr : IsBool m r) (h : ∀ I : Interp m K D, I.truth r = I.same (x, v)) :
    IsEq m K D x v r := ⟨hr, h⟩

theorem IsEq.of_same {p q : Term × Term} (h : IsEq m K D p.1 p.2 r)
    (hpq : ∀ I : Interp m K D, I.same p = I.same q) : IsEq m K D q.1 q.2 r :=
  ⟨h.isBool, fun I => (h.truth I).trans (hpq I)⟩

def Frame.key : Frame → Term × Term
  | .and key _ | .or key _ | .ite key _ _ _ _ => key

def Frame.Awaits (m : Manager) (K D : Type*) [Field K] [LinearOrder K] [FloorRing K] [DecidableEq D]
    (p : Term × Term) : Frame → Prop
  | .and key guard => IsBool m guard ∧ ∀ I : Interp m K D, I.same key = (I.truth guard && I.same p)
  | .or key guard => IsBool m guard ∧ ∀ I : Interp m K D, I.same key = (I.truth guard || I.same p)
  | .ite key cond val elseSide none =>
    IsBool m cond ∧ Comparable m elseSide val ∧
      ∀ I : Interp m K D, I.same key = bif I.truth cond then I.same p else I.same (elseSide, val)
  | .ite key cond _ _ (some thenRes) =>
    IsBool m cond ∧ IsBool m thenRes ∧
      ∀ I : Interp m K D, I.same key = bif I.truth cond then I.truth thenRes else I.same p

theorem Frame.Awaits.of_same {p q : Term × Term} {frame : Frame} (h : frame.Awaits m K D p)
    (hpq : ∀ I : Interp m K D, I.same p = I.same q) : frame.Awaits m K D q := by
  unfold Frame.Awaits at h ⊢
  split at h <;> simpa only [hpq] using h

variable (hcomp : Comparable m (.ite c t e s) v)

theorem same_ite (I : Interp m K D) :
    I.same (.ite c t e s, v) = bif I.truth c then I.same (t, v) else I.same (e, v) := by
  simp only [same, eval_ite, choice]
  cases I.truth c <;> rfl

theorem same_of_rwAreEqual (h : Comparable m x v) (heq : m.rwAreEqual x v = true) (I : Interp m K D) :
    I.same (x, v) = true := decide_eq_true (eval_of_rwAreEqual h heq I)

theorem same_of_rwAreDistinct (h : Comparable m x v) (hne : m.rwAreDistinct x v = true)
    (I : Interp m K D) : I.same (x, v) = false := decide_eq_false (eval_of_rwAreDistinct h hne I)

include hcomp

theorem isEq_cond (ht : m.rwAreEqual t v = true) (he : m.rwAreDistinct e v = true) : IsEq m K D (.ite c t e s) v c := by
  obtain ⟨hc, hct, hce⟩ := hcomp.branch
  refine .intro hc fun I => ?_
  rw [same_ite, same_of_rwAreEqual hct ht, same_of_rwAreDistinct hce he]
  cases I.truth c <;> rfl

theorem isEq_mkNot_cond (he : m.rwAreEqual e v = true) (ht : m.rwAreDistinct t v = true) :
    IsEq m K D (.ite c t e s) v (mkNot c) := by
  obtain ⟨hc, hct, hce⟩ := hcomp.branch
  refine .intro (isBool_mkNot hc) fun I => ?_
  rw [same_ite, same_of_rwAreEqual hce he, same_of_rwAreDistinct hct ht, truth_mkNot]
  cases I.truth c <;> rfl

theorem solveRule_result {key : Term × Term}
    (h : m.solveRule key (.ite c t e s) c t e v = .result r) : IsEq m K D (.ite c t e s) v r := by
  obtain ⟨hc, hct, hce⟩ := hcomp.branch
  unfold solveRule at h
  split_ifs at h with h1 h2 h3 h4 h5 h6 h7 h8 h9 h10 <;> cases h <;>
    simp only [and_eq_true] at *
  · exact isEq_cond hcomp h1.1 h1.2
  · exact isEq_mkNot_cond hcomp h2.1 h2.2
  · refine .intro isBool_true fun I => ?_
    rw [same_ite, same_of_rwAreEqual hct h5.2, same_of_rwAreEqual hce h6.2]
    cases I.truth c <;> rfl
  · refine ⟨isBool_false, fun I => ?_⟩
    exact (decide_eq_false (ne_of_iteLeavesAllDistinct h10 hcomp I)).symm
  · exact hcomp.isEq

theorem solveRule_push {key : Term × Term} {frame : Frame} (h : m.solveRule key (.ite c t e s) c t e v = .push frame y)
    (hkey : ∀ I : Interp m K D, I.same key = I.same (.ite c t e s, v)) : Comparable m y v ∧ frame.key = key ∧
    frame.Awaits m K D (y, v) := by
  obtain ⟨hc, hct, hce⟩ := hcomp.branch
  have hnot := isBool_mkNot hc
  unfold solveRule at h
  split_ifs at h with h1 h2 h3 h4 h5 h6 h7 h8 h9 <;> cases h <;>
    simp only [and_eq_true] at *
  · refine ⟨hct, rfl, hc, fun I => ?_⟩
    rw [hkey, same_ite, same_of_rwAreDistinct hce h3.2]
    cases I.truth c <;> simp
  · refine ⟨hce, rfl, hnot, fun I => ?_⟩
    rw [hkey, same_ite, same_of_rwAreDistinct hct h4.2, truth_mkNot]
    cases I.truth c <;> simp
  · refine ⟨hce, rfl, hc, fun I => ?_⟩
    rw [hkey, same_ite, same_of_rwAreEqual hct h5.2]
    cases I.truth c <;> simp
  · refine ⟨hct, rfl, hnot, fun I => ?_⟩
    rw [hkey, same_ite, same_of_rwAreEqual hce h7.2, truth_mkNot]
    cases I.truth c <;> simp
  · exact ⟨hct, rfl, hc, hce, fun I => by rw [hkey, same_ite]⟩
  · exact ⟨hct, rfl, hc, hce, fun I => by rw [hkey, same_ite]⟩

end

section

def CacheValid (m : Manager) (K D : Type*) [Field K] [LinearOrder K] [FloorRing K] [DecidableEq D]
    (cache : EqCache) : Prop :=
  ∀ key r, cache key = some (some r) → IsEq m K D key.1 key.2 r

theorem CacheValid.insert {cache : EqCache} {key : Term × Term} {out : Option Term} (h : CacheValid m K D cache)
    (hout : ∀ r, out = some r → IsEq m K D key.1 key.2 r) : CacheValid m K D (cache.insert key out) := by
  intro key' r hr
  unfold EqCache.insert at hr
  by_cases hkey : key' = key
  · subst hkey
    rw [Function.update_self, Option.some.injEq] at hr
    exact hout r hr
  · rw [Function.update_of_ne hkey] at hr
    exact h key' r hr

theorem CacheValid.get {cache : EqCache} (h : CacheValid m K D cache)
    (hr : cache (m.keyOf x v) = some (some r)) : IsEq m K D x v r :=
  IsEq.of_same (q := (x, v)) (h _ r hr) fun I => same_keyOf I x v

def Chain (m : Manager) (K D : Type*) [Field K] [LinearOrder K] [FloorRing K] [DecidableEq D]
    (root : Term × Term) : List Frame → Term × Term → Prop
  | [], p => ∀ I : Interp m K D, I.same p = I.same root
  | frame :: frames, p => frame.Awaits m K D p ∧ Chain m K D root frames frame.key

theorem Chain.of_same {root p q : Term × Term} {frames : List Frame} (h : Chain m K D root frames p)
    (hpq : ∀ I : Interp m K D, I.same p = I.same q) : Chain m K D root frames q := by
  cases frames with
  | nil => exact fun I => (hpq I).symm.trans (h I)
  | cons frame frames => exact ⟨h.1.of_same hpq, h.2⟩

def Focus.For (m : Manager) (K D : Type*) [Field K] [LinearOrder K] [FloorRing K] [DecidableEq D]
    (root : Term × Term) (frames : List Frame) : Focus → Prop
  | .pending x v => Comparable m x v ∧ Chain m K D root frames (x, v)
  | .result r => ∃ p : Term × Term, IsEq m K D p.1 p.2 r ∧ Chain m K D root frames p

structure Solver.Inv (m : Manager) (K D : Type*) [Field K] [LinearOrder K] [FloorRing K]
    [DecidableEq D] (root : Term × Term) (s : Solver) : Prop where
  cache : CacheValid m K D s.cache
  focus : s.focus.For m K D root s.frames

variable {root key : Term × Term} {s s' : Solver}

theorem Solver.Inv.settle (hcache : CacheValid m K D s.cache) (hr : IsEq m K D key.1 key.2 r)
    (hchain : Chain m K D root s.frames key) : (s.settle key r).Inv m K D root where
  cache := hcache.insert fun _ h => Option.some.inj h ▸ hr
  focus := ⟨key, hr, hchain⟩

theorem Solver.Inv.stepPending (h : s.Inv m K D root) (hfocus : s.focus = .pending x v) :
    (s.stepPending m x v).Inv m K D root := by
  have hfor := h.focus
  rw [hfocus] at hfor
  obtain ⟨hcomp, hchain⟩ := hfor
  have hsame := fun I : Interp m K D => same_keyOf I x v
  have hkey : Chain m K D root s.frames (m.keyOf x v) := hchain.of_same fun I => (hsame I).symm
  have heq : ∀ {r}, IsEq m K D x v r → IsEq m K D (m.keyOf x v).1 (m.keyOf x v).2 r :=
    fun hr => IsEq.of_same (p := (x, v)) hr fun I => (hsame I).symm
  unfold Solver.stepPending
  dsimp only
  split
  · next cached hcached =>
    refine ⟨h.cache, (x, v), ?_, hchain⟩
    cases cached with
    | none => exact hcomp.isEq
    | some r => exact h.cache.get hcached
  · split_ifs
    · exact .settle h.cache (heq hcomp.isEq) hkey
    · split
      · next c t e sort =>
        split
        · next r hrule => exact .settle h.cache (heq (solveRule_result hcomp hrule)) hkey
        · next frame y hrule =>
          obtain ⟨hy, hfk, hawaits⟩ := solveRule_push hcomp hrule hsame
          exact ⟨h.cache, hy, hawaits, hfk ▸ hkey⟩
      · exact .settle h.cache (heq hcomp.isEq) hkey

theorem truth_rewriteIte (hc : IsBool m c) (ht : IsBool m t) (he : IsBool m e) : IsBool m (m.rewriteIte c t e) ∧ ∀ I :
    Interp m K D, I.truth (m.rewriteIte c t e) = bif I.truth c then I.truth t else I.truth e := by
  have hsort : t.sort.Compatible e.sort := by rw [ht.sort, he.sort]
  have hsel : Selects m K D c t e (m.rewriteIte c t e) := selects_rewriteIte ⟨hc, ht.wf, he.wf, hsort⟩
  have hbool : IsBool m (m.rewriteIte c t e) := ⟨hsel.wf, (ht.sort ▸ hsel.sort).eq_bool⟩
  refine ⟨hbool, fun I => ?_⟩
  have heval := hsel.eval I
  rw [hbool.eval_eq, choice, ht.eval_eq, he.eval_eq] at heval
  cases hcond : I.truth c <;> simpa [hcond] using heval

theorem Solver.Inv.step (h : s.Inv m K D root) (hstep : s.step m = some s') : s'.Inv m K D root := by
  unfold Solver.step at hstep
  split at hstep
  · next x v hfocus =>
    cases hstep
    exact h.stepPending hfocus
  · next r hfocus =>
    have hfor := h.focus
    rw [hfocus] at hfor
    obtain ⟨p, hr, hchain⟩ := hfor
    have htruth : ∀ I : Interp m K D, I.truth r = I.same p := hr.truth
    have hargs : ∀ guard, IsBool m guard → ∀ a ∈ [guard, r], IsBool m a :=
      fun guard hguard => by simpa using ⟨hguard, hr.isBool⟩
    split at hstep
    · cases hstep
    · next key guard frames hframes =>
      rw [hframes] at hchain
      obtain ⟨⟨hguard, hsame⟩, hchain⟩ := hchain
      cases hstep
      refine .settle h.cache (.intro ?_ fun I => ?_) hchain
      · exact isBool_absorbLiterals (hargs guard hguard) true
      · rw [truth_absorb_and, Prod.mk.eta, hsame, ← htruth]
        simp
    · next key guard frames hframes =>
      rw [hframes] at hchain
      obtain ⟨⟨hguard, hsame⟩, hchain⟩ := hchain
      cases hstep
      refine .settle h.cache (.intro ?_ fun I => ?_) hchain
      · exact isBool_absorbLiterals (hargs guard hguard) false
      · rw [truth_absorb_or, Prod.mk.eta, hsame, ← htruth]
        simp
    · next key cond val elseSide frames hframes =>
      rw [hframes] at hchain
      obtain ⟨⟨hcond, helse, hsame⟩, hchain⟩ := hchain
      cases hstep
      exact ⟨h.cache, helse, ⟨hcond, hr.isBool, fun I => by rw [hsame, htruth]⟩, hchain⟩
    · next key cond val elseSide thenRes frames hframes =>
      rw [hframes] at hchain
      obtain ⟨⟨hcond, hthen, hsame⟩, hchain⟩ := hchain
      obtain ⟨hbool, hvalue⟩ := truth_rewriteIte (K := K) (D := D) hcond hthen hr.isBool
      cases hstep
      refine .settle h.cache (.intro hbool fun I => ?_) hchain
      rw [hvalue, Prod.mk.eta, hsame, htruth]

theorem Solver.Inv.loop (h : s.Inv m K D root) : (s.loop m).Inv m K D root ∧ (s.loop m).step m = none := by
  fun_induction s.loop m with
  | case1 s hstep => exact ⟨h, hstep⟩
  | case2 s s' hstep ih => exact ih (h.step hstep)

theorem Solver.Inv.result (h : s.Inv m K D root) (hend : s.step m = none) :
    ∃ r, s.focus = .result r ∧ IsEq m K D root.1 root.2 r := by
  unfold Solver.step at hend
  split at hend
  · cases hend
  · next r hfocus =>
    have hfor := h.focus
    rw [hfocus] at hfor
    obtain ⟨p, hr, hchain⟩ := hfor
    split at hend
    · next hframes =>
      rw [hframes] at hchain
      exact ⟨r, hfocus, hr.of_same hchain⟩
    all_goals cases hend

end

section

variable {cache : EqCache}

def Solves (m : Manager) (K D : Type*) [Field K] [LinearOrder K] [FloorRing K] [DecidableEq D]
    (x v : Term) (out : Option Term × EqCache) : Prop :=
  (∀ r, out.1 = some r → IsEq m K D x v r) ∧ CacheValid m K D out.2

theorem Solves.symm {out : Option Term × EqCache} (h : Solves m K D x v out) : Solves m K D v x out :=
  ⟨fun r hr => (h.1 r hr).symm, h.2⟩

section

variable (hcomp : Comparable m x v)
include hcomp

theorem solves_solveIteValue (hcache : CacheValid m K D cache) : Solves m K D x v (m.solveIteValue cache x v) := by
  unfold solveIteValue
  dsimp only
  split_ifs
  · exact ⟨fun r hr => Option.some.inj hr ▸ hcomp.isEq, hcache⟩
  · have hinv : Solver.Inv m K D (x, v) ⟨[], .pending x v, solveEqFuel, cache⟩ := ⟨hcache, hcomp, fun I => rfl⟩
    obtain ⟨hloop, hend⟩ := hinv.loop
    obtain ⟨r, hfocus, hr⟩ := hloop.result hend
    refine ⟨fun r' hr' => ?_, hloop.cache⟩
    dsimp only at hr'
    rw [hfocus, Focus.get, Option.filter_eq_some_iff] at hr'
    cases hr'.1
    exact hr

theorem isEq_tryIteEq (h : m.tryIteEq x v = some r) : IsEq m K D x v r := by
  unfold tryIteEq at h
  split at h
  · split_ifs at h with h1 h2 <;> cases h <;> simp only [and_eq_true] at *
    · exact isEq_cond hcomp h1.1 h1.2
    · exact isEq_mkNot_cond hcomp h2.1 h2.2
  · cases h

theorem isEq_solveIteIte (h : m.solveIteIte x v = some r) : IsEq m K D x v r := by
  unfold solveIteIte at h
  split at h
  · next c1 t1 e1 s1 c2 t2 e2 s2 =>
    split_ifs at h
    cases h
    obtain ⟨hc1, ht, he⟩ := hcomp.branch
    obtain ⟨hc2, htt, hte⟩ := ht.symm.branch
    obtain ⟨-, het, hee⟩ := he.symm.branch
    have hn1 := isBool_mkNot hc1
    have hn2 := isBool_mkNot hc2
    have hbool : ∀ {a b}, Comparable m b a → IsBool m (m.mkEq a b) :=
      fun hba => (hba.symm.isEq (K := K) (D := D)).isBool
    have heqs : IsBool m (m.mkEq e1 e2) ∧ IsBool m (m.mkEq t1 t2) ∧ IsBool m (m.mkEq t1 e2) ∧
        IsBool m (m.mkEq e1 t2) :=
      ⟨hbool hee, hbool htt, hbool hte, hbool het⟩
    refine .intro (isBool_mkAnd ?_) fun I => ?_
    · simp only [forall_mem_cons]
      refine ⟨isBool_mkOr ?_, isBool_mkOr ?_, isBool_mkOr ?_, isBool_mkOr ?_, by simp⟩
      all_goals simp [hc1, hc2, hn1, hn2, heqs]
    · have hsame : ∀ {a b}, Comparable m b a → I.truth (m.mkEq a b) = I.same (b, a) :=
        fun hba => hba.symm.isEq.symm.truth I
      rw [same_ite, I.same_comm t1, I.same_comm e1, same_ite, same_ite]
      simp only [truth_mkAnd, truth_mkOr, truth_mkNot, all_cons, any_cons, all_nil,
        any_nil, hsame htt, hsame hte, hsame het, hsame hee]
      cases I.truth c1 <;> cases I.truth c2 <;> simp
  · cases h

theorem solves_eqIteRulesUncached (hcache : CacheValid m K D cache) :
    Solves m K D x v (m.eqIteRulesUncached cache x v) := by
  unfold eqIteRulesUncached
  split
  · next out hout => exact ⟨fun r hr => Option.some.inj hr ▸ isEq_tryIteEq hcomp hout, hcache⟩
  · split
    · next out hout =>
      exact ⟨fun r hr => Option.some.inj hr ▸ (isEq_tryIteEq hcomp.symm hout).symm, hcache⟩
    · split_ifs
      · exact solves_solveIteValue hcomp hcache
      · exact (solves_solveIteValue hcomp.symm hcache).symm
      · exact ⟨fun r hr => isEq_solveIteIte hcomp hr, hcache⟩

theorem solves_eqIteRules (hcache : CacheValid m K D cache) : Solves m K D x v (m.eqIteRules cache x v) := by
  unfold eqIteRules
  split
  · next cached hcached => exact ⟨fun r hr => hcache.get (hr ▸ hcached), hcache⟩
  · obtain ⟨hout, hnext⟩ := solves_eqIteRulesUncached hcomp hcache
    refine ⟨hout, hnext.insert fun r hr => ?_⟩
    exact IsEq.of_same (p := (x, v)) (hout r hr) fun I => (same_keyOf I x v).symm

end

end

end Nixie.Ast
