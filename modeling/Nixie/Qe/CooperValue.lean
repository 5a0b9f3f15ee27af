import Nixie.TestPoints
import Nixie.Qe.Formula
import Nixie.Qe.Cooper

/-!
What Cooper's trees say about the formula: the raw tree at an integer `n`, and the normalised tree at
the multiple of `n` that the common coefficient makes of it.
-/

namespace Nixie.Qe.Cooper

open Ast Interp List Bool

variable {m : Manager} {K D : Type*} [Field K] [LinearOrder K] [FloorRing K] [DecidableEq D]
  [IsStrictOrderedRing K] {I : Interp m K D} {x : String} {t a b : Term} {n : ℤ}

section

def cast (K : Type*) [Field K] : ℤ →+* K := Int.castRingHom K

omit [LinearOrder K] [FloorRing K] [IsStrictOrderedRing K] in
theorem cast_apply (n : ℤ) : cast K n = n := rfl

omit [IsStrictOrderedRing K] in
theorem reader_sound : reader.Sound .int (cast K) where
  numeric := rfl
  injective := Int.cast_injective
  numeral := by
    intro t c h
    cases t <;> cases h
    exact .inl ⟨_, rfl, rfl⟩
  recip := by simp [reader]

structure Means (I : Interp m K D) (t : Term) (n : ℤ) : Prop where
  isNum : IsNum m t
  num : I.num t = n

def intOf (I : Interp m K D) (t : Term) : ℤ := ⌊I.num t⌋

theorem Means.intOf_eq (h : Means I t n) : intOf I t = n := by
  rw [intOf, h.num, Int.floor_intCast]

theorem Means.self (h : Means I t n) : Means I t (intOf I t) := h.intOf_eq.symm ▸ h

omit [IsStrictOrderedRing K] in
theorem means_mkInt (n : ℤ) : Means I (mkInt n) n := ⟨isNum_intConst n, num_mkInt I n⟩

omit [IsStrictOrderedRing K] in
theorem means_mkAdd {k : ℤ} (ha : Means I a n) (hb : Means I b k) : Means I (mkAdd [a, b]) (n + k) :=
  ⟨isNum_mkAdd (by simpa using ⟨ha.isNum, hb.isNum⟩), by simp [num_mkAdd, ha.num, hb.num]⟩

omit [IsStrictOrderedRing K] in
theorem means_mkMul {k : ℤ} (ha : Means I a n) (hb : Means I b k) : Means I (mkMul [a, b]) (n * k) :=
  ⟨isNum_mkMul (by simpa using ⟨ha.isNum, hb.isNum⟩), by simp [num_mkMul, ha.num, hb.num]⟩

theorem isNum_mkNeg (h : IsNum m a) : IsNum m (mkNeg a) := by
  unfold mkNeg
  split
  · exact isNum_intConst _
  · split
    · split
      · exact isNum_mkReal _
      · exact isNum_neg h h.sort
    · exact isNum_neg h h.sort

omit [IsStrictOrderedRing K] in
theorem means_mkNeg (h : Means I a n) : Means I (mkNeg a) (-n) := ⟨isNum_mkNeg h.isNum, by simp [num_mkNeg, h.num]⟩

theorem isNum_mkMod (ha : IsNum m a) (hb : IsNum m b) : IsNum m (mkMod a b) := by
  have hnode : IsNum m (.mod a b a.sort) :=
    ⟨.mk ⟨ha.sort, hb.sort, ha.sort⟩ (by simpa [Term.children] using ⟨ha.wf, hb.wf⟩), ha.sort⟩
  unfold mkMod
  split
  · exact hnode
  · split
    · split_ifs
      · exact hnode
      · exact isNum_intConst _
    · split_ifs
      · exact isNum_intConst _
      · exact hnode

theorem means_mkMod {k : ℤ} (ha : Means I a n) (hk : 0 < k) : Means I (mkMod a (mkInt k)) (n % k) := by
  refine ⟨isNum_mkMod ha.isNum (isNum_intConst k), ?_⟩
  rw [num_mkMod I fun _ => ⟨n, ha.num⟩, ha.num, num_mkInt, intMod_intCast, if_neg hk.ne']

theorem exists_int_of_uniform (h : Uniform m .int t) : ∃ n : ℤ, I.num t = n := by
  induction t using Term.induct with
  | h t ih =>
    have hfits := h.wf.fits
    have hsort := h.sort
    have hchild : ∀ a ∈ t.children, a.sort.isNumeric = true → ∃ n : ℤ, I.num a = n :=
      fun a ha hnum => ih a ha (h.child ha hnum)
    have hvalue : ∀ {v : Value K D}, v.HasSort .int → ∃ n : ℤ, v.toNum = n := by
      rintro v ⟨n, rfl⟩
      exact ⟨n, rfl⟩
    cases t
    case intConst n => exact ⟨n, rfl⟩
    case var name s => exact hvalue (hsort ▸ I.value_sort (.var name s))
    case other k args s => exact hvalue (hsort ▸ I.value_sort (.other k args s))
    case dtConstructor c args s =>
      have hs : s = .int := hsort
      subst hs
      exact hvalue (I.construct_sort c .int _)
    case ite c t e s =>
      have hs : s = .int := hsort
      have ht : t.sort.isNumeric = true := by
        rw [← hfits.2.2.numeric, hs]
        rfl
      have he : e.sort.isNumeric = true := hfits.2.1.numeric ▸ ht
      rw [Interp.num, eval_ite, Interp.choice]
      cases I.truth c
      · exact hchild e (by simp [Term.children]) he
      · exact hchild t (by simp [Term.children]) ht
    case neg a s =>
      obtain ⟨n, hn⟩ := hchild a (by simp [Term.children]) hfits.1
      exact ⟨-n, by simp [num_neg, hn]⟩
    case add args s =>
      rw [num_add]
      exact exists_int_sum fun a ha => hchild a ha (hfits.1 a ha)
    case mul args s =>
      rw [num_mul]
      exact exists_int_prod fun a ha => hchild a ha (hfits.1 a ha)
    case sub a b s =>
      obtain ⟨n, hn⟩ := hchild a (by simp [Term.children]) hfits.1
      obtain ⟨k, hk⟩ := hchild b (by simp [Term.children]) hfits.2.1
      have hval : I.num (.sub a b s) = I.num a - I.num b := rfl
      exact ⟨n - k, by simp [hval, hn, hk]⟩
    case div a b s =>
      obtain ⟨n, hn⟩ := hchild a (by simp [Term.children]) hfits.1
      obtain ⟨k, hk⟩ := hchild b (by simp [Term.children]) hfits.2.1
      have hs : s = .int := hsort
      have hval : I.num (.div a b s) = I.intDiv (I.num a) (I.num b) := by
        simp [Interp.num, Interp.eval, hs]
      rw [hval, hn, hk, intDiv_intCast]
      split_ifs
      · exact I.divZero_int n
      · exact ⟨_, rfl⟩
    case mod a b s =>
      obtain ⟨n, hn⟩ := hchild a (by simp [Term.children]) hfits.1
      obtain ⟨k, hk⟩ := hchild b (by simp [Term.children]) hfits.2.1
      have hval : I.num (.mod a b s) = I.intMod (I.num a) (I.num b) := rfl
      rw [hval, hn, hk, intMod_intCast]
      split_ifs
      · exact I.modZero_int n
      · exact ⟨_, rfl⟩
    all_goals cases hsort

theorem means_of_uniform (h : Uniform m .int t) : Means I t (intOf I t) := by
  obtain ⟨n, hn⟩ := exists_int_of_uniform (I := I) h
  exact (⟨h.isNum rfl, hn⟩ : Means I t n).self

end

section

variable {f : LinForm ℤ}

abbrev Over (m : Manager) (x : String) (f : LinForm ℤ) : Prop :=
  f.Over fun a => Uniform m .int a ∧ Free x a

def rest (I : Interp m K D) (f : LinForm ℤ) : ℤ := (f.others.map fun e => e.2 * intOf I e.1).sum + f.constant

def eval (I : Interp m K D) (f : LinForm ℤ) (n : ℤ) : ℤ := f.xCoeff * n + rest I f

theorem sum_cast {es : List (Term × ℤ)} (h : ∀ e ∈ es, Uniform m .int e.1) :
    othersSum (cast K) I es = ((es.map fun e => e.2 * intOf I e.1).sum : ℤ) := by
  induction es with
  | nil => simp [othersSum]
  | cons e es ih =>
    obtain ⟨he, hes⟩ := forall_mem_cons.mp h
    rw [othersSum_cons, ih hes, (means_of_uniform he).num, cast_apply]
    simp

theorem rest_cast (hf : Over m x f) : f.rest (cast K) I = (rest I f : K) := by
  rw [LinForm.rest, sum_cast fun e he => (hf e he).1, cast_apply, rest]
  push_cast
  rfl

theorem eval_cast (hf : Over m x f) (n : ℤ) : f.eval (cast K) I n = (eval I f n : K) := by
  rw [LinForm.eval, rest_cast hf, cast_apply, eval]
  push_cast
  rfl

omit [IsStrictOrderedRing K] in
theorem rest_scale (f : LinForm ℤ) (k : ℤ) : rest I (f.scale k) = rest I f * k := by
  have hsum : ∀ es : List (Term × ℤ), ((es.map fun e => (e.1, e.2 * k)).map fun e => e.2 * intOf I e.1).sum =
      (es.map fun e => e.2 * intOf I e.1).sum * k := by
    intro es
    induction es with
    | nil => simp
    | cons e es ih =>
      simp only [map_cons, sum_cons, ih]
      ring
  rw [rest, rest, LinForm.scale, hsum]
  ring

theorem means_mkPart {e : Term × ℤ} (he : Uniform m .int e.1) : Means I (mkPart e) (e.2 * intOf I e.1) := by
  unfold mkPart
  split_ifs with hone
  · simpa [hone] using means_of_uniform (I := I) he
  · exact means_mkMul (means_mkInt _) (means_of_uniform he)

theorem means_parts {es : List (Term × ℤ)} (h : ∀ e ∈ es, Uniform m .int e.1) : (∀ t ∈ es.map mkPart, IsNum m t) ∧
    ((es.map mkPart).map I.num).sum = ((es.map fun e => e.2 * intOf I e.1).sum : ℤ) := by
  constructor
  · intro t ht
    obtain ⟨e, he, rfl⟩ := mem_map.mp ht
    exact (means_mkPart (I := I) (h e he)).isNum
  · induction es with
    | nil => simp
    | cons e es ih =>
      obtain ⟨he, hes⟩ := forall_mem_cons.mp h
      simp only [map_cons, sum_cons, ih hes, (means_mkPart (I := I) he).num]
      push_cast
      rfl

omit [IsStrictOrderedRing K] in
theorem means_sum {parts : List Term} (h : ∀ t ∈ parts, IsNum m t) (hsum : (parts.map I.num).sum = (n : K)) :
    Means I (sumParts parts) n := by
  unfold sumParts
  split
  · next part => exact ⟨h part (by simp), by simpa using hsum⟩
  · exact ⟨isNum_mkAdd h, (num_mkAdd I _).trans hsum⟩

omit [IsStrictOrderedRing K] in
theorem sum_entries (es : List (Term × ℤ)) :
    ((entries m es).map fun e => e.2 * intOf I e.1).sum = (es.map fun e => e.2 * intOf I e.1).sum := by
  have hfilter : ((es.filter fun e => e.2 ≠ 0).map fun e => e.2 * intOf I e.1).sum =
      (es.map fun e => e.2 * intOf I e.1).sum := by
    induction es with
    | nil => rfl
    | cons e es ih =>
      rw [filter_cons]
      split_ifs with he
      · rw [map_cons, sum_cons, ih, map_cons, sum_cons]
      · have hzero : e.2 = 0 := by simpa using he
        rw [ih, map_cons, sum_cons, hzero, zero_mul, zero_add]
  rw [← hfilter]
  exact ((mergeSort_perm _ _).map _).sum_eq

theorem means_mkLinearTerm (hf : Over m x f) : Means I (mkLinearTerm m f.others f.constant) (rest I f) := by
  have hentries : ∀ e ∈ entries m f.others, Uniform m .int e.1 := fun e he =>
    (hf e (mem_of_mem_filter ((mergeSort_perm _ _).mem_iff.mp he))).1
  obtain ⟨hnum, hsum⟩ := means_parts (I := I) hentries
  unfold mkLinearTerm
  dsimp only
  split_ifs with hconst
  · refine means_sum (fun t ht => ?_) ?_
    · rcases mem_append.mp ht with ht | ht
      · exact hnum t ht
      · rw [mem_singleton.mp ht]
        exact isNum_intConst _
    · rw [map_append, sum_append, hsum, sum_entries, rest]
      simp
  · push Not at hconst
    refine means_sum hnum ?_
    rw [hsum, sum_entries, rest, hconst.1, add_zero]

end

mutual

def Raw.Holds (I : Interp m K D) (n : ℤ) : Raw → Prop
  | .and subs => allHold I n subs
  | .or subs => anyHolds I n subs
  | .const b => b = true
  | .free t => I.truth t = true
  | .cmp form rel => rel.Holds ((eval I form n : ℤ) : K)
  | .divis modulus form negated => (modulus ∣ eval I form n) ↔ negated = false

def allHold (I : Interp m K D) (n : ℤ) : List Raw → Prop
  | [] => True
  | raw :: raws => raw.Holds I n ∧ allHold I n raws

def anyHolds (I : Interp m K D) (n : ℤ) : List Raw → Prop
  | [] => False
  | raw :: raws => raw.Holds I n ∨ anyHolds I n raws

end

inductive Raw.Proper (m : Manager) (x : String) : Raw → Prop
  | and {subs} (h : ∀ r ∈ subs, Proper m x r) : Proper m x (.and subs)
  | or {subs} (h : ∀ r ∈ subs, Proper m x r) : Proper m x (.or subs)
  | const (b : Bool) : Proper m x (.const b)
  | free (t : Term) : Proper m x (.free t)
  | cmp {form} (rel : Rel) (within : Over m x form) (coeff : form.xCoeff ≠ 0) :
    Proper m x (.cmp form rel)
  | divis {form modulus} (negated : Bool) (within : Over m x form)
    (coeff : form.xCoeff ≠ 0) (pos : 0 < modulus) : Proper m x (.divis modulus form negated)

structure Stands (I : Interp m K D) (x : String) (φ : Term) (pos : Bool) (raw : Raw) : Prop where
  proper : raw.Proper m x
  holds : ∀ n, raw.Holds I n ↔ (setInt I x n).truth φ = pos

omit [IsStrictOrderedRing K] in
theorem truth_literal (t : Term) (pos : Bool) : I.truth (literal t pos) = true ↔ I.truth t = pos := by
  cases pos <;> simp [literal]

variable {pos : Bool} {φ : Term}

omit [IsStrictOrderedRing K] in
theorem stands_literal (h : ∀ n, (setInt I x n).truth φ = I.truth φ) : Stands I x φ pos (.free (literal φ pos)) where
  proper := .free _
  holds := fun n => by rw [Raw.Holds, truth_literal, h]

omit [IsStrictOrderedRing K] in
theorem stands_free (hx : Free x φ) : Stands I x φ pos (.free (literal φ pos)) :=
  stands_literal fun _ => truth_assign_of_free hx

theorem sides_ok {f g : LinForm ℤ} (hf : toLinear x a = some f) (hg : toLinear x b = some g)
    (ha : Uniform m .int a) (hb : Uniform m .int b) :
    Over m x (f.sub g) ∧ ∀ n : ℤ, (setInt I x n).num a - (setInt I x n).num b = (eval I (f.sub g) n : K) := by
  have hra : Represents I x .int (cast K) a f := represents_toLinear reader_sound ha hf
  have hrb : Represents I x .int (cast K) b g := represents_toLinear reader_sound hb hg
  have hover := LinForm.over_sub hra.within hrb.within
  refine ⟨hover, fun n => ?_⟩
  rw [← eval_cast hover, LinForm.eval_sub, setInt, hra.num, hrb.num]

variable {rel : Rel}

omit [FloorRing K] [IsStrictOrderedRing K] in
theorem holds_negate {v : K} : rel.negate.Holds v ↔ ¬ rel.Holds v := by
  cases rel <;> simp [Rel.negate, Rel.Holds]

variable {raw : Raw}

theorem stands_sides (h : classifySides m x a b rel pos = .ok raw) (ha : Uniform m .int a)
    (hb : Uniform m .int b)
    (hφ : ∀ n, (setInt I x n).truth φ = decide (rel.Holds ((setInt I x n).num a - (setInt I x n).num b))) :
    Stands I x φ pos raw := by
  obtain ⟨f, hf, h⟩ := bind_ok.mp h
  obtain ⟨g, hg, h⟩ := bind_ok.mp h
  obtain ⟨hover, hval⟩ := sides_ok (I := I) (okOr_ok.mp hf) (okOr_ok.mp hg) ha hb
  have hpos : ∀ n, (if pos then rel else rel.negate).Holds (eval I (f.sub g) n : K) ↔
      (setInt I x n).truth φ = pos := by
    intro n
    rw [hφ, hval]
    cases pos
    · simp [holds_negate]
    · simp
  dsimp only at h
  by_cases hc : (f.sub g).xCoeff = 0
  · rw [if_pos hc] at h
    cases h
    refine ⟨.free _, fun n => ?_⟩
    have hterm := means_mkLinearTerm (I := I) hover
    have hs : (mkLinearTerm m (f.sub g).others (f.sub g).constant).sort.Compatible (mkInt 0).sort :=
      .inr ⟨hterm.isNum.sort, rfl⟩
    have hzero : IsNum m (mkInt 0) := isNum_intConst 0
    rw [Raw.Holds, truth_emitCmp _ hterm.isNum hzero hs, decide_eq_true_iff, hterm.num, ← hpos]
    simp [eval, hc]
  · rw [if_neg hc] at h
    cases h
    exact ⟨.cmp _ hover hc, hpos⟩

variable {inner : Term} {d : ℤ}

theorem trySide_some (h : trySide a b = some (d, inner)) : 0 < d ∧ b = .intConst 0 ∧
    ∃ s, a = .mod inner (.intConst d) s := by
  unfold trySide at h
  split at h
  · split_ifs at h with hd hz
    cases h
    exact ⟨not_le.mp hd, by rw [hz], _, rfl⟩
  · cases h

theorem num_mod_eq_zero {s : SortId} {J : Interp m K D} (hd : 0 < d) (h : Means J inner n) :
    J.num (.mod inner (.intConst d) s) - J.num (.intConst 0) = 0 ↔ d ∣ n := by
  have hval : J.num (.mod inner (.intConst d) s) = J.intMod (J.num inner) (J.num (.intConst d)) := rfl
  rw [hval, h.num, num_intConst, num_intConst, intMod_intCast, if_neg hd.ne', Int.dvd_iff_emod_eq_zero]
  simp

theorem matchModZero_some (h : matchModZero a b = some (d, inner)) (ha : Uniform m .int a)
    (hb : Uniform m .int b) : 0 < d ∧ Uniform m .int inner ∧ ∀ (J : Interp m K D) k, Means J inner k →
    (J.truth (.eq a b) = true ↔ d ∣ k) := by
  have htruth : ∀ J : Interp m K D, J.truth (.eq a b) = true ↔ J.num a - J.num b = 0 := fun J => by
    rw [truth_eq_nums rfl ha hb, decide_eq_true_iff]
    rfl
  have hinner : ∀ {s}, Uniform m .int (.mod inner (.intConst d) s) → Uniform m .int inner := fun h =>
    h.child (by simp [Term.children]) h.wf.fits.1
  unfold matchModZero at h
  cases hab : trySide a b with
  | some p =>
    rw [hab] at h
    cases h
    obtain ⟨hd, rfl, s, rfl⟩ := trySide_some hab
    refine ⟨hd, hinner ha, fun J k hk => ?_⟩
    rw [htruth, num_mod_eq_zero hd hk]
  | none =>
    rw [hab] at h
    obtain ⟨hd, rfl, s, rfl⟩ := trySide_some h
    refine ⟨hd, hinner hb, fun J k hk => ?_⟩
    rw [htruth, ← neg_eq_zero, neg_sub, num_mod_eq_zero hd hk]

theorem stands_divis (h : classifyDivis x (.eq a b) d inner pos = .ok raw)
    (hmatch : matchModZero a b = some (d, inner)) (ha : Uniform m .int a) (hb : Uniform m .int b) :
    Stands I x (.eq a b) pos raw := by
  obtain ⟨hd, hinner, htruth⟩ := matchModZero_some (K := K) (D := D) hmatch ha hb
  obtain ⟨f, hf, h⟩ := bind_ok.mp h
  have hr : Represents I x .int (cast K) inner f := represents_toLinear reader_sound hinner (okOr_ok.mp hf)
  have hdvd : ∀ n, (setInt I x n).truth (.eq a b) = true ↔ d ∣ eval I f n := fun n => by
    refine htruth _ _ ⟨hinner.isNum rfl, ?_⟩
    rw [setInt, hr.num, eval_cast hr.within]
  split_ifs at h with hc
  all_goals
    cases h
  · refine stands_literal fun n => ?_
    obtain ⟨n0, hn0⟩ := exists_setInt I x
    have hconst : ∀ k, eval I f k = rest I f := fun k => by simp [eval, hc]
    have h0 := hdvd n0
    rw [hn0, hconst] at h0
    rw [Bool.eq_iff_iff, hdvd, hconst, h0]
  · refine ⟨.divis _ hr.within hc hd, fun n => ?_⟩
    rw [Raw.Holds, ← hdvd]
    cases pos <;> simp

variable {raws : List Raw}

omit [IsStrictOrderedRing K] in
theorem allHold_iff : allHold I n raws ↔ ∀ r ∈ raws, r.Holds I n := by
  induction raws with
  | nil => simp [allHold]
  | cons raw raws ih => simp [allHold, ih]

omit [IsStrictOrderedRing K] in
theorem anyHolds_iff : anyHolds I n raws ↔ ∃ r ∈ raws, r.Holds I n := by
  induction raws with
  | nil => simp [anyHolds]
  | cons raw raws ih => simp [anyHolds, ih]

theorem classifySides_ne_ok (ha : Formula m .int x a) (hb : Formula m .int x b) (hx : ¬ Free x (.eq a b))
    (raw : Raw) : classifySides m x a b rel pos ≠ .ok raw := by
  intro h
  obtain ⟨fa, hfa, h⟩ := bind_ok.mp h
  obtain ⟨fb, hfb, -⟩ := bind_ok.mp h
  exact ha.not_both_linear (reader_sound (K := ℚ)) hb hx (okOr_ok.mp hfa) (okOr_ok.mp hfb)

theorem stands_classifyCmp (h : classifyCmp m x φ a b rel pos = .ok raw)
    (hφ : φ = .eq a b ∧ rel = .eq ∨ ∃ op, φ = .cmp op a b ∧ rel = .ofOp op) (hform : Formula m .int x φ) :
    Stands I x φ pos raw := by
  unfold classifyCmp at h
  by_cases hx : Free x φ
  · rw [if_pos (by simpa [Free] using hx)] at h
    cases h
    exact stands_free hx
  rw [if_neg (by simpa [Free] using hx)] at h
  rcases hφ with ⟨rfl, rfl⟩ | ⟨op, rfl, rfl⟩
  · rw [if_pos rfl] at h
    -- a numeral is no formula
    have huniform : ∀ {p}, matchModZero a b = some p → ¬ (Formula m .int x a ∧ Formula m .int x b) := by
      rintro ⟨d, inner⟩ hmatch ⟨ha, hb⟩
      unfold matchModZero at hmatch
      cases hab : trySide a b with
      | some p =>
        obtain ⟨-, rfl, -⟩ := trySide_some hab
        cases (hb.isBool rfl).sort
      | none =>
        rw [hab] at hmatch
        obtain ⟨-, rfl, -⟩ := trySide_some hmatch
        cases (ha.isBool rfl).sort
    rcases hform.of_eq with hfree | ⟨ha, hb⟩ | ⟨ha, hb⟩
    · exact absurd hfree hx
    · split at h
      · next modulus inner hmatch => exact stands_divis h hmatch ha hb
      · exact stands_sides h ha hb fun n => truth_eq_nums rfl ha hb
    · split at h
      · next modulus inner hmatch => exact absurd ⟨ha, hb⟩ (huniform hmatch)
      · exact absurd h (classifySides_ne_ok ha hb hx raw)
  · have hne : Rel.ofOp op ≠ .eq := by cases op <;> simp [Rel.ofOp]
    rw [if_neg hne] at h
    rcases hform.of_cmp with hfree | ⟨ha, hb⟩
    · exact absurd hfree hx
    · exact stands_sides h ha hb fun n => truth_cmp op a b

omit [IsStrictOrderedRing K] in
theorem stands_buildAll {args : List Term}
    (ih : ∀ a ∈ args, ∀ raw, buildRaw m x a pos = .ok raw → Stands I x a pos raw)
    (h : buildAll m x args pos = .ok raws) : (∀ r ∈ raws, r.Proper m x) ∧
    ∀ n, ((∀ r ∈ raws, r.Holds I n) ↔ ∀ a ∈ args, (setInt I x n).truth a = pos) ∧
    ((∃ r ∈ raws, r.Holds I n) ↔ ∃ a ∈ args, (setInt I x n).truth a = pos) := by
  induction args generalizing raws with
  | nil =>
    cases h
    simp
  | cons a args ihargs =>
    obtain ⟨ha, hargs⟩ := forall_mem_cons.mp ih
    obtain ⟨rs, hrs, h⟩ := bind_ok.mp h
    obtain ⟨r, hr, heq⟩ := bind_ok.mp h
    cases heq
    have hstands := ha r hr
    obtain ⟨hproper, hholds⟩ := ihargs hargs hrs
    refine ⟨forall_mem_cons.mpr ⟨hstands.proper, hproper⟩, fun n => ⟨?_, ?_⟩⟩
    · rw [forall_mem_cons, forall_mem_cons, hstands.holds, (hholds n).1]
    · rw [exists_mem_cons_iff, exists_mem_cons_iff, hstands.holds, (hholds n).2]

theorem stands_buildRaw (hφ : Formula m .int x φ) (h : buildRaw m x φ pos = .ok raw) : Stands I x φ pos raw := by
  induction φ using Term.induct generalizing pos raw with
  | h φ ih =>
    -- what is known of the operands of a node
    have ihpair : ∀ {a b}, φ.children = [a, b] → Formula m .int x a ∧ Formula m .int x b →
        (∀ {pos raw}, buildRaw m x a pos = .ok raw → Stands I x a pos raw) ∧
          ∀ {pos raw}, buildRaw m x b pos = .ok raw → Stands I x b pos raw :=
      fun hch hab => ⟨ih _ (by simp [hch]) hab.1, ih _ (by simp [hch]) hab.2⟩
    cases φ
    case true =>
      cases h
      exact ⟨.const _, fun n => by cases pos <;> simp [Raw.Holds]⟩
    case false =>
      cases h
      exact ⟨.const _, fun n => by cases pos <;> simp [Raw.Holds]⟩
    case not a =>
      have hs := ih a (by simp [Term.children]) hφ.of_not h
      refine ⟨hs.proper, fun n => ?_⟩
      rw [hs.holds, truth_not]
      cases (setInt I x n).truth a <;> cases pos <;> simp
    case and args =>
      obtain ⟨raws, hraws, heq⟩ := bind_ok.mp h
      obtain ⟨hproper, hholds⟩ := stands_buildAll (fun a ha _ => ih a ha (hφ.of_and a ha)) hraws
      cases pos
      · simp only [false_eq_true, reduceIte] at heq
        cases heq
        refine ⟨.or hproper, fun n => ?_⟩
        rw [Raw.Holds, anyHolds_iff, (hholds n).2, truth_and]
        simp [Term.children]
      · simp only [reduceIte] at heq
        cases heq
        refine ⟨.and hproper, fun n => ?_⟩
        rw [Raw.Holds, allHold_iff, (hholds n).1, truth_and]
        simp [Term.children]
    case or args =>
      obtain ⟨raws, hraws, heq⟩ := bind_ok.mp h
      obtain ⟨hproper, hholds⟩ := stands_buildAll (fun a ha _ => ih a ha (hφ.of_or a ha)) hraws
      cases pos
      · simp only [false_eq_true, reduceIte] at heq
        cases heq
        refine ⟨.and hproper, fun n => ?_⟩
        rw [Raw.Holds, allHold_iff, (hholds n).1, truth_or]
        simp [Term.children]
      · simp only [reduceIte] at heq
        cases heq
        refine ⟨.or hproper, fun n => ?_⟩
        rw [Raw.Holds, anyHolds_iff, (hholds n).2, truth_or]
        simp [Term.children]
    case implies a b =>
      obtain ⟨ha, hb⟩ := ihpair rfl hφ.of_implies
      obtain ⟨rb, hrb, h⟩ := bind_ok.mp h
      obtain ⟨ra, hra, heq⟩ := bind_ok.mp h
      have hval : ∀ n, (setInt I x n).truth (.implies a b) =
          (!(setInt I x n).truth a || (setInt I x n).truth b) := fun n => rfl
      cases pos
      · simp only [false_eq_true, reduceIte] at heq
        cases heq
        refine ⟨.and (by simpa using ⟨(ha hra).proper, (hb hrb).proper⟩), fun n => ?_⟩
        simp [Raw.Holds, allHold, (ha hra).holds, (hb hrb).holds, hval]
      · simp only [reduceIte] at heq
        cases heq
        refine ⟨.or (by simpa using ⟨(ha hra).proper, (hb hrb).proper⟩), fun n => ?_⟩
        simp [Raw.Holds, anyHolds, (ha hra).holds, (hb hrb).holds, hval]
    case xor a b =>
      obtain ⟨ha, hb⟩ := ihpair rfl hφ.of_xor
      obtain ⟨bf, hbf, h⟩ := bind_ok.mp h
      obtain ⟨bt, hbt, h⟩ := bind_ok.mp h
      obtain ⟨af, haf, h⟩ := bind_ok.mp h
      obtain ⟨at', hat, heq⟩ := bind_ok.mp h
      have hval : ∀ n, (setInt I x n).truth (.xor a b) =
          ((setInt I x n).truth a != (setInt I x n).truth b) := fun n => rfl
      cases pos
      · simp only [false_eq_true, reduceIte] at heq
        cases heq
        refine ⟨.or (by simpa using ⟨.and (by simpa using ⟨(ha hat).proper, (hb hbt).proper⟩),
          .and (by simpa using ⟨(ha haf).proper, (hb hbf).proper⟩)⟩), fun n => ?_⟩
        simp only [Raw.Holds, anyHolds, allHold, (ha hat).holds, (hb hbt).holds, (ha haf).holds, (hb hbf).holds, hval]
        cases (setInt I x n).truth a <;> cases (setInt I x n).truth b <;> simp
      · simp only [reduceIte] at heq
        cases heq
        refine ⟨.or (by simpa using ⟨.and (by simpa using ⟨(ha hat).proper, (hb hbf).proper⟩),
          .and (by simpa using ⟨(ha haf).proper, (hb hbt).proper⟩)⟩), fun n => ?_⟩
        simp only [Raw.Holds, anyHolds, allHold, (ha hat).holds, (hb hbt).holds, (ha haf).holds, (hb hbf).holds, hval]
        cases (setInt I x n).truth a <;> cases (setInt I x n).truth b <;> simp
    case ite c t e s' =>
      obtain ⟨-, hc, ht, he⟩ := hφ.of_ite
      obtain ⟨re, hre, h⟩ := bind_ok.mp h
      obtain ⟨rt, hrt, h⟩ := bind_ok.mp h
      obtain ⟨cf, hcf, h⟩ := bind_ok.mp h
      obtain ⟨ct, hct, heq⟩ := bind_ok.mp h
      cases heq
      have hscf := ih c (by simp [Term.children]) hc hcf
      have hsct := ih c (by simp [Term.children]) hc hct
      have hst := ih t (by simp [Term.children]) ht hrt
      have hse := ih e (by simp [Term.children]) he hre
      refine ⟨.or (by simpa using ⟨.and (by simpa using ⟨hsct.proper, hst.proper⟩),
        .and (by simpa using ⟨hscf.proper, hse.proper⟩)⟩), fun n => ?_⟩
      simp only [Raw.Holds, anyHolds, allHold, hscf.holds, hsct.holds, hst.holds, hse.holds]
      have hval : (setInt I x n).truth (.ite c t e s') = bif (setInt I x n).truth c
          then (setInt I x n).truth t else (setInt I x n).truth e := by
        rw [Interp.truth, eval_ite, Interp.choice]
        cases (setInt I x n).truth c <;> rfl
      rw [hval]
      cases (setInt I x n).truth c <;> simp
    case cmp op a b => exact stands_classifyCmp h (.inr ⟨op, rfl, rfl⟩) hφ
    case eq a b => exact stands_classifyCmp h (.inl ⟨rfl, rfl⟩) hφ
    all_goals
      simp only [buildRaw] at h
      split_ifs at h with hx
      cases h
      exact stands_free (by simpa [Free] using hx)

end Nixie.Qe.Cooper
