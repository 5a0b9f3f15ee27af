import Nixie.Ast.Arith
import Nixie.Qe.LinearValue

/-!
The formulas the eliminators are for: Boolean combinations of comparisons whose numeric subterms are
of one sort.
-/

namespace Nixie.Qe

open Ast Interp List

variable {m : Manager} {K D : Type*} [Field K] [LinearOrder K] [FloorRing K] [DecidableEq D]
  {I : Interp m K D} {x : String} {s : SortId} {t a b c e : Term} {args : List Term} {rel : Rel}

/-- A Boolean combination of comparisons of terms of the sort.  A part without `x` may be any
Boolean term. -/
inductive Formula (m : Manager) (s : SortId) (x : String) : Term → Prop
  | free {t : Term} (h : IsBool m t) (hx : Free x t) : Formula m s x t
  | not {a : Term} (h : Formula m s x a) : Formula m s x (.not a)
  | and {args : List Term} (h : ∀ a ∈ args, Formula m s x a) : Formula m s x (.and args)
  | or {args : List Term} (h : ∀ a ∈ args, Formula m s x a) : Formula m s x (.or args)
  | implies {a b : Term} (ha : Formula m s x a) (hb : Formula m s x b) : Formula m s x (.implies a b)
  | xor {a b : Term} (ha : Formula m s x a) (hb : Formula m s x b) : Formula m s x (.xor a b)
  | ite {c t e : Term} (hc : Formula m s x c) (ht : Formula m s x t) (he : Formula m s x e) :
    Formula m s x (.ite c t e .bool)
  | cmp {a b : Term} (op : CmpOp) (ha : Uniform m s a) (hb : Uniform m s b) : Formula m s x (.cmp op a b)
  | eq {a b : Term} (ha : Uniform m s a) (hb : Uniform m s b) : Formula m s x (.eq a b)
  | iff {a b : Term} (ha : Formula m s x a) (hb : Formula m s x b) : Formula m s x (.eq a b)

namespace Formula

theorem isBool (hs : s.isNumeric = true) (h : Formula m s x t) : IsBool m t := by
  have hpair : ∀ {a b t : Term}, t.children = [a, b] → m.WellSorted a → m.WellSorted b →
      ∀ u ∈ t.children, m.WellSorted u := by
    intro a b t ht ha hb
    simpa [ht] using ⟨ha, hb⟩
  induction h with
  | free h _ => exact h
  | not _ ih => exact isBool_not.mpr ih
  | and _ ih => exact ⟨.mk (fun a ha => (ih a ha).sort) fun a ha => (ih a ha).wf, rfl⟩
  | or _ ih => exact ⟨.mk (fun a ha => (ih a ha).sort) fun a ha => (ih a ha).wf, rfl⟩
  | implies _ _ iha ihb => exact ⟨.mk ⟨iha.sort, ihb.sort⟩ (hpair rfl iha.wf ihb.wf), rfl⟩
  | xor _ _ iha ihb => exact ⟨.mk ⟨iha.sort, ihb.sort⟩ (hpair rfl iha.wf ihb.wf), rfl⟩
  | ite _ _ _ ihc iht ihe =>
    refine ⟨.mk ⟨ihc.sort, .inl (iht.sort.trans ihe.sort.symm), .inl iht.sort.symm⟩ ?_, rfl⟩
    simpa [Term.children] using ⟨ihc.wf, iht.wf, ihe.wf⟩
  | cmp op ha hb => exact ⟨.mk ⟨(ha.isNum hs).sort, (hb.isNum hs).sort⟩ (hpair rfl ha.wf hb.wf), rfl⟩
  | eq ha hb => exact isBool_eq ha.wf hb.wf (.inl (ha.sort.trans hb.sort.symm))
  | iff _ _ iha ihb => exact isBool_eq iha.wf ihb.wf (.inl (iha.sort.trans ihb.sort.symm))

theorem of_not (h : Formula m s x (.not a)) : Formula m s x a := by
  cases h with
  | free h hx => exact .free (isBool_not.mp h) (hx.child a (by simp [Term.children]))
  | not h => exact h

theorem operands_free (h : m.WellSorted t) (hx : Free x t) (hs : ∀ a ∈ t.children, a.sort = .bool) :
    ∀ a ∈ t.children, Formula m s x a :=
  fun a ha => .free ⟨h.child a ha, hs a ha⟩ (hx.child a ha)

theorem of_and (h : Formula m s x (.and args)) : ∀ a ∈ args, Formula m s x a := by
  cases h with
  | free h hx => exact operands_free h.wf hx h.wf.fits
  | and h => exact h

theorem of_or (h : Formula m s x (.or args)) : ∀ a ∈ args, Formula m s x a := by
  cases h with
  | free h hx => exact operands_free h.wf hx h.wf.fits
  | or h => exact h

theorem of_implies (h : Formula m s x (.implies a b)) : Formula m s x a ∧ Formula m s x b := by
  cases h with
  | free h hx =>
    obtain ⟨hsa, hsb⟩ := h.wf.fits
    have := operands_free (s := s) h.wf hx (by simpa [Term.children] using ⟨hsa, hsb⟩)
    simpa [Term.children] using this
  | implies ha hb => exact ⟨ha, hb⟩

theorem of_xor (h : Formula m s x (.xor a b)) : Formula m s x a ∧ Formula m s x b := by
  cases h with
  | free h hx =>
    obtain ⟨hsa, hsb⟩ := h.wf.fits
    have := operands_free (s := s) h.wf hx (by simpa [Term.children] using ⟨hsa, hsb⟩)
    simpa [Term.children] using this
  | xor ha hb => exact ⟨ha, hb⟩

theorem of_ite {s' : SortId} (h : Formula m s x (.ite c t e s')) :
    s' = .bool ∧ Formula m s x c ∧ Formula m s x t ∧ Formula m s x e := by
  cases h with
  | free h hx =>
    have hs' : s' = .bool := h.sort
    obtain ⟨hc, hte, hst⟩ := h.wf.fits
    have ht : t.sort = .bool := (hs' ▸ hst).symm.eq_bool
    have he : e.sort = .bool := (ht ▸ hte).symm.eq_bool
    have := operands_free (s := s) h.wf hx (by simpa [Term.children] using ⟨hc, ht, he⟩)
    exact ⟨hs', by simpa [Term.children] using this⟩
  | ite hc ht he => exact ⟨rfl, hc, ht, he⟩

theorem of_cmp {op : CmpOp} (h : Formula m s x (.cmp op a b)) :
    Free x (.cmp op a b) ∨ Uniform m s a ∧ Uniform m s b := by
  cases h with
  | free _ hx => exact .inl hx
  | cmp _ ha hb => exact .inr ⟨ha, hb⟩

theorem of_eq (h : Formula m s x (.eq a b)) :
    Free x (.eq a b) ∨ (Uniform m s a ∧ Uniform m s b) ∨ Formula m s x a ∧ Formula m s x b := by
  cases h with
  | free _ hx => exact .inl hx
  | eq ha hb => exact .inr (.inl ⟨ha, hb⟩)
  | iff ha hb => exact .inr (.inr ⟨ha, hb⟩)

variable {R : Type} [CommRing R] [DecidableEq R]

omit [LinearOrder K] [FloorRing K] [DecidableEq R] in
theorem leaf_eq_none {r : Reader R} {ι : R →+* K} (hr : r.Sound s ι) (hx : ¬ Free x t) : r.leaf x t = none := by
  unfold Reader.leaf
  split
  · next c hc =>
    rcases hr.numeral t c hc with ⟨n, rfl, -⟩ | ⟨q, rfl, -⟩
    all_goals exact absurd (free_of_children rfl (by simp [Term.children])) hx
  · have hmentions : mentionsVar x t = true := by simpa [Free] using hx
    rw [if_pos hmentions]

omit [LinearOrder K] [FloorRing K] in
theorem toLinear_eq_none {r : Reader R} {ι : R →+* K} (hr : r.Sound s ι) (h : Formula m s x t)
    (hx : ¬ Free x t) : r.toLinear x t = none := by
  cases h with
  | free _ hfree => exact absurd hfree hx
  | _ =>
    simp only [Reader.toLinear]
    exact leaf_eq_none hr hx

omit [LinearOrder K] [FloorRing K] in
theorem not_both_linear {r : Reader R} {ι : R →+* K} {fa fb : LinForm R} (ha : Formula m s x a)
    (hr : r.Sound s ι) (hb : Formula m s x b) (hx : ¬ Free x (.eq a b)) (hfa : r.toLinear x a = some fa)
    (hfb : r.toLinear x b = some fb) : False := by
  by_cases hxa : Free x a
  · have hxb : ¬ Free x b := fun hxb => hx (free_of_children rfl (by simpa [Term.children] using ⟨hxa, hxb⟩))
    rw [hb.toLinear_eq_none hr hxb] at hfb
    cases hfb
  · rw [ha.toLinear_eq_none hr hxa] at hfa
    cases hfa

end Formula

theorem free_true : Free x .true := free_of_children rfl (by simp [Term.children])

theorem free_false : Free x .false := free_of_children rfl (by simp [Term.children])

theorem free_mkBool (q : Bool) : Free x (mkBool q) := by
  cases q
  · exact free_false
  · exact free_true

theorem free_not : Free x (.not a) ↔ Free x a := by
  rw [free_iff]
  simp [isVar, Term.children]

variable {conjunction : Bool}

theorem free_connective : Free x (connective conjunction args) ↔ ∀ a ∈ args, Free x a := by
  rw [free_iff]
  cases conjunction <;> simp [connective, isVar, Term.children]

theorem free_mkNot (h : Free x a) : Free x (mkNot a) := by
  unfold mkNot
  split
  · exact free_not.mp h
  · exact free_false
  · exact free_true
  · exact free_not.mpr h

theorem free_flatArgs {flat : List Term} (h : ∀ a ∈ args, Free x a)
    (hflat : flatArgs conjunction args = some flat) : ∀ a ∈ flat, Free x a := by
  induction args generalizing flat with
  | nil =>
    cases hflat
    simp
  | cons a args ih =>
    obtain ⟨ha, hargs⟩ := forall_mem_cons.mp h
    unfold flatArgs at hflat
    split_ifs at hflat
    · exact ih hargs hflat
    · split at hflat
      · next inner hinner =>
        obtain ⟨tail, htail, rfl⟩ := Option.map_eq_some_iff.mp hflat
        have hconn := connectiveArgs_some hinner
        intro b hb
        rcases mem_append.mp hb with hb | hb
        · exact free_connective.mp (hconn ▸ ha) b hb
        · exact ih hargs htail b hb
      · obtain ⟨tail, htail, rfl⟩ := Option.map_eq_some_iff.mp hflat
        exact forall_mem_cons.mpr ⟨ha, ih hargs htail⟩

theorem free_mkConnective (h : ∀ a ∈ args, Free x a) : Free x (mkConnective conjunction args) := by
  unfold mkConnective
  split
  · exact free_mkBool _
  · exact free_mkBool _
  · next hflat => exact free_flatArgs h hflat _ (by simp)
  · next hflat => exact free_connective.mpr (free_flatArgs h hflat)

theorem free_mkAnd (h : ∀ a ∈ args, Free x a) : Free x (mkAnd args) := free_mkConnective h

theorem free_mkOr (h : ∀ a ∈ args, Free x a) : Free x (mkOr args) := free_mkConnective h

theorem free_pair (hvar : isVar x t = false) (hch : t.children = [a, b]) (ha : Free x a) (hb : Free x b) : Free x t :=
  free_of_children hvar (by simpa [hch] using ⟨ha, hb⟩)

theorem free_mkImplies (ha : Free x a) (hb : Free x b) : Free x (mkImplies a b) := by
  unfold mkImplies
  split_ifs
  · exact free_true
  · exact hb
  · exact free_true
  · exact free_pair rfl rfl ha hb

theorem free_mkXor (ha : Free x a) (hb : Free x b) : Free x (mkXor a b) := by
  unfold mkXor
  split_ifs
  · exact free_false
  · exact hb
  · exact free_mkNot hb
  · exact ha
  · exact free_mkNot ha
  · exact free_pair rfl rfl ha hb

theorem free_mkIte (hc : Free x c) (ht : Free x t) (he : Free x e) : Free x (mkIte c t e) := by
  unfold mkIte
  split_ifs
  · exact ht
  · exact he
  · exact ht
  · exact hc
  · exact free_of_children rfl (by simpa [Term.children] using ⟨hc, ht, he⟩)

theorem free_mkCmp (op : CmpOp) (ha : Free x a) (hb : Free x b) : Free x (mkCmp op a b) := by
  unfold mkCmp
  split
  · exact free_mkBool _
  · split_ifs
    · exact free_mkBool _
    · exact free_pair rfl rfl ha hb

theorem free_orientEq (ha : Free x a) (hb : Free x b) : Free x (m.orientEq a b) := by
  unfold Manager.orientEq
  split_ifs
  · exact free_pair rfl rfl ha hb
  · exact free_pair rfl rfl hb ha

theorem free_plainEq (ha : Free x a) (hb : Free x b) : Free x (m.plainEq a b) := by
  unfold Manager.plainEq
  split
  · next folded hf =>
    unfold Manager.mkFfEq at hf
    split at hf
    · split_ifs at hf
      split at hf
      · cases hf
        exact free_mkBool _
      · cases hf
        exact free_orientEq ha hb
    · cases hf
  · exact free_orientEq ha hb

theorem free_constEq (ha : Free x a) (hb : Free x b) : Free x (m.constEq a b) := by
  unfold Manager.constEq
  split
  · exact free_mkBool _
  · split_ifs
    · exact free_false
    · unfold Manager.absorbEq
      split_ifs
      · exact hb
      · exact ha
      · exact free_mkNot hb
      · exact free_mkNot ha
      · exact free_plainEq ha hb

theorem free_mkEqs {xs ys : List Term} (hx : ∀ a ∈ xs, ∀ b, Free x b → Free x (m.mkEq a b))
    (hy : ∀ b ∈ ys, Free x b) : ∀ t ∈ m.mkEqs xs ys, Free x t := by
  induction xs generalizing ys with
  | nil => simp [Manager.mkEqs]
  | cons a xs ih =>
    cases ys with
    | nil => simp [Manager.mkEqs]
    | cons b ys =>
      obtain ⟨hx1, hx2⟩ := forall_mem_cons.mp hx
      obtain ⟨hy1, hy2⟩ := forall_mem_cons.mp hy
      exact forall_mem_cons.mpr ⟨hx1 b hy1, ih hx2 hy2⟩

theorem free_mkEq (ha : Free x a) (hb : Free x b) : Free x (m.mkEq a b) := by
  induction a using Term.induct generalizing b with
  | h a ih =>
    unfold Manager.mkEq
    split
    · split
      · split_ifs
        · exact free_true
        · refine free_mkAnd (free_mkEqs (fun a' ha' b' hb' => ?_) fun b' hb' => ?_)
          · exact ih a' (by simpa [Term.children] using ha') (ha.child a' (by simpa [Term.children] using ha')) hb'
          · exact hb.child b' (by simpa [Term.children] using hb')
        · exact free_constEq ha hb
      · exact free_constEq ha hb
    · split
      · exact ih _ (by simp [Term.children]) (free_not.mp ha) (free_not.mp hb)
      · exact free_constEq ha hb
    · split_ifs
      · exact free_true
      · exact free_constEq ha hb

theorem free_mkInt (n : ℤ) : Free x (mkInt n) := free_of_children rfl (by simp [mkInt, Term.children])

theorem free_mkReal (q : Rational64) : Free x (mkReal q) := free_of_children rfl (by simp [mkReal, Term.children])

section

variable (h : ∀ a ∈ args, Free x a)
include h

theorem free_keptArgs (folded : Option Rational64) : ∀ a ∈ keptArgs args folded, Free x a := by
  intro a ha
  unfold keptArgs at ha
  split at ha
  · rcases mem_append.mp ha with ha | ha
    · exact h a (mem_of_mem_filter ha)
    · rw [mem_singleton.mp ha]
      exact free_mkReal _
  · exact h a (mem_of_mem_filter ha)

theorem free_append_int (n : ℤ) : ∀ a ∈ args ++ [mkInt n], Free x a := by
  intro a ha
  rcases mem_append.mp ha with ha | ha
  · exact h a ha
  · rw [mem_singleton.mp ha]
    exact free_mkInt n

theorem free_mkAdd : Free x (mkAdd args) := by
  unfold mkAdd
  split
  · exact free_mkInt 0
  · exact h _ (by simp)
  · dsimp only
    have hkept := free_keptArgs h
    split_ifs
    · exact free_of_children rfl h
    · exact free_mkInt _
    · exact free_of_children rfl (free_append_int (hkept _) _)
    · split
      · next hargs => exact hkept _ _ (hargs ▸ mem_singleton_self _)
      · exact free_of_children rfl (hkept _)

theorem free_mkMul : Free x (mkMul args) := by
  unfold mkMul
  split
  · exact free_mkInt 1
  · exact h _ (by simp)
  · dsimp only
    have hkept := free_keptArgs h
    split_ifs
    · exact free_mkReal _
    · exact free_mkInt 0
    · split
      · next hargs => exact hkept _ _ (hargs ▸ mem_singleton_self _)
      · exact free_mkReal _
      · exact free_of_children rfl (hkept _)
    · exact free_mkInt _
    · exact free_of_children rfl (free_append_int (hkept _) _)
    · split
      · next hargs => exact hkept _ _ (hargs ▸ mem_singleton_self _)
      · exact free_of_children rfl (hkept _)

end

section

def Rel.Holds : Rel → K → Prop
  | .lt, v => v < 0
  | .le, v => v ≤ 0
  | .gt, v => 0 < v
  | .ge, v => 0 ≤ v
  | .eq, v => v = 0
  | .ne, v => v ≠ 0

instance (rel : Rel) (v : K) : Decidable (rel.Holds v) :=
  match rel with
  | .lt => inferInstanceAs (Decidable (v < 0))
  | .le => inferInstanceAs (Decidable (v ≤ 0))
  | .gt => inferInstanceAs (Decidable (0 < v))
  | .ge => inferInstanceAs (Decidable (0 ≤ v))
  | .eq => inferInstanceAs (Decidable (v = 0))
  | .ne => inferInstanceAs (Decidable (v ≠ 0))

omit [FloorRing K] in
theorem Rel.holds_congr {v w : K} (h : (v < 0 ↔ w < 0) ∧ (0 < v ↔ 0 < w)) : rel.Holds v ↔ rel.Holds w := by
  cases rel with
  | lt => exact h.1
  | le => exact not_lt.symm.trans ((not_congr h.2).trans not_lt)
  | gt => exact h.2
  | ge => exact not_lt.symm.trans ((not_congr h.1).trans not_lt)
  | eq =>
    simp only [Holds]
    rw [eq_iff_le_not_lt, eq_iff_le_not_lt, h.1, ← not_lt, ← not_lt, h.2]
  | ne =>
    simp only [Holds]
    rw [ne_iff_lt_or_gt, ne_iff_lt_or_gt]
    exact or_congr h.1 h.2

variable [IsStrictOrderedRing K]

theorem isBool_emitCmp (rel : Rel) (ha : IsNum m a) (hb : IsNum m b)
    (hs : a.sort.Compatible b.sort) : IsBool m (emitCmp m a b rel) := by
  have heq : IsEq m ℚ Unit a b (m.mkEq a b) := isEq_mkEq ha.wf hb.wf hs
  cases rel with
  | eq => exact heq.isBool
  | ne => exact isBool_mkNot heq.isBool
  | _ => exact isBool_mkCmp _ ha hb

theorem free_emitCmp (rel : Rel) (ha : Free x a) (hb : Free x b) : Free x (emitCmp m a b rel) := by
  cases rel with
  | eq => exact free_mkEq ha hb
  | ne => exact free_mkNot (free_mkEq ha hb)
  | _ => exact free_mkCmp _ ha hb

theorem truth_emitCmp (rel : Rel) (ha : IsNum m a) (hb : IsNum m b) (hs : a.sort.Compatible b.sort) :
    I.truth (emitCmp m a b rel) = decide (rel.Holds (I.num a - I.num b)) := by
  have heq : I.truth (m.mkEq a b) = decide (I.num a - I.num b = 0) := by
    rw [(isEq_mkEq (K := K) (D := D) ha.wf hb.wf hs).truth I, ha.eval_eq, hb.eval_eq]
    simp [sub_eq_zero]
  rw [Bool.eq_iff_iff, decide_eq_true_iff]
  cases rel with
  | eq => simp [emitCmp, heq, Rel.Holds]
  | ne => simp [emitCmp, heq, Rel.Holds]
  | lt | le | gt | ge =>
    simp only [emitCmp, mkLt, mkLe, mkGt, mkGe, truth_mkCmp, accepts_compare, decide_eq_true_iff]
    simp [Rel.Holds, CmpOp.Holds]

omit [FloorRing K] in
theorem holds_mul_of_pos {c d : K} (hc : 0 < c) : rel.Holds (c * d) ↔ rel.Holds d :=
  Rel.holds_congr ⟨by simp [mul_neg_iff, hc, hc.not_gt], mul_pos_iff_of_pos_left hc⟩

omit [FloorRing K] in
theorem holds_flip {d : K} : rel.flip.Holds d ↔ rel.Holds (-d) := by
  cases rel <;> simp [Rel.flip, Rel.Holds]

theorem truth_cmp (op : CmpOp) (a b : Term) :
    I.truth (.cmp op a b) = decide ((Rel.ofOp op).Holds (I.num a - I.num b)) := by
  have htruth : I.truth (.cmp op a b) = op.accepts (compare (I.num a) (I.num b)) := rfl
  rw [htruth, Bool.eq_iff_iff, decide_eq_true_iff, accepts_compare, decide_eq_true_iff]
  cases op <;> simp [CmpOp.Holds, Rel.ofOp, Rel.Holds]

omit [IsStrictOrderedRing K] in
theorem truth_eq_nums (hs : s.isNumeric = true) (ha : Uniform m s a) (hb : Uniform m s b) :
    I.truth (.eq a b) = decide (Rel.eq.Holds (I.num a - I.num b)) := by
  rw [truth_eq, (ha.isNum hs).eval_eq, (hb.isNum hs).eval_eq, Bool.eq_iff_iff]
  simp [Rel.Holds, sub_eq_zero]

end

end Nixie.Qe
