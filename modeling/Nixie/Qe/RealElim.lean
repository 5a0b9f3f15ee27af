import Nixie.Qe.LraRewrite

/-!
The two eliminators of linear real arithmetic are exact.
-/

namespace Nixie.Qe

open Ast Interp Filter TestPoints Lra List

attribute [local instance] nontrivial_field

variable {m : Manager} {K D : Type*} [Field K] [LinearOrder K] [FloorRing K] [DecidableEq D]
  [IsStrictOrderedRing K] {I : Interp m K D} {x : String} {φ ψ t a b : Term} {args : List Term}
  {atoms : List XAtom} {j k : K}

structure Proper (m : Manager) (x : String) (a : XAtom) : Prop where
  within : Over m x a.form
  coeff : a.form.xCoeff ≠ 0

def Lra.XAtom.holdsAt (I : Interp m K D) (a : XAtom) (k : K) : Prop := a.rel.Holds (a.form.eval (cast K) I k)

variable {rel : Rel}

theorem pushCmpAtom_ok (h : pushCmpAtom x a b rel = .ok atoms) (ha : Uniform m .real a)
    (hb : Uniform m .real b) : (∀ p ∈ atoms, Proper m x p) ∧
    ((∀ p ∈ atoms, p.holdsAt I j ↔ p.holdsAt I k) → cmpAt I x a b rel j = cmpAt I x a b rel k) := by
  obtain ⟨f, hsides, h⟩ := bind_ok.mp h
  obtain ⟨hf, hval⟩ := sides_ok (I := I) hsides ha hb
  split_ifs at h with hc
  · cases h
    refine ⟨by simp, fun _ => ?_⟩
    simp [cmpAt, hval, LinForm.eval, hc]
  · cases h
    refine ⟨by simpa using ⟨hf, hc⟩, fun hiff => ?_⟩
    rw [cmpAt, cmpAt, hval, hval, decide_eq_decide]
    exact hiff ⟨f, rel⟩ (by simp)

/-- The collected atoms have the variable, and the formula has the same truth value at two points that
no atom tells apart. -/
structure Decides (I : Interp m K D) (x : String) (φ : Term) (atoms : List XAtom) : Prop where
  proper : ∀ a ∈ atoms, Proper m x a
  congr : ∀ j k : K, (∀ a ∈ atoms, a.holdsAt I j ↔ a.holdsAt I k) → truthAt I x φ j = truthAt I x φ k

theorem collectAll_ok (ih : ∀ a ∈ args, ∀ atoms, collectXAtoms x a = .ok atoms → Decides I x a atoms)
    (h : collectAll x args = .ok atoms) : (∀ a ∈ atoms, Proper m x a) ∧
    ∀ j k : K, (∀ a ∈ atoms, a.holdsAt I j ↔ a.holdsAt I k) →
    args.map (fun a => truthAt I x a j) = args.map (fun a => truthAt I x a k) := by
  induction args generalizing atoms with
  | nil =>
    cases h
    exact ⟨by simp, by simp⟩
  | cons a args ihargs =>
    obtain ⟨ha, hargs⟩ := forall_mem_cons.mp ih
    obtain ⟨as, has, h⟩ := bind_ok.mp h
    obtain ⟨rest, hrest, heq⟩ := bind_ok.mp h
    cases heq
    have hdec := ha as has
    obtain ⟨hproper, hcongr⟩ := ihargs hargs hrest
    refine ⟨forall_mem_append.mpr ⟨hdec.proper, hproper⟩, fun j k hiff => ?_⟩
    obtain ⟨h1, h2⟩ := forall_mem_append.mp hiff
    rw [map_cons, map_cons, hdec.congr j k h1, hcongr j k h2]

theorem collectXAtoms_ok (h : Formula m .real x φ) (hφ : collectXAtoms x φ = .ok atoms) : Decides I x φ atoms := by
  induction φ using Term.induct generalizing atoms with
  | h φ ih =>
    unfold collectXAtoms at hφ
    by_cases hx : Free x φ
    · rw [if_pos (by simpa [Free] using hx)] at hφ
      cases hφ
      refine ⟨by simp, fun j k _ => ?_⟩
      rw [truthAt_of_free hx, truthAt_of_free hx]
    rw [if_neg (by simpa [Free] using hx)] at hφ
    cases h with
    | free _ hfree => exact absurd hfree hx
    | @not a ha =>
      have hdec := ih a (by simp [Term.children]) ha hφ
      exact ⟨hdec.proper, fun j k hiff => congrArg Bool.not (hdec.congr j k hiff)⟩
    | @and args hargs =>
      have hdec : ∀ a ∈ args, ∀ atoms, collectXAtoms x a = .ok atoms → Decides I x a atoms :=
        fun a ha _ => ih a ha (hargs a ha)
      obtain ⟨hproper, hcongr⟩ := collectAll_ok hdec hφ
      refine ⟨hproper, fun j k hiff => ?_⟩
      have hall := congrArg (List.all · id) (hcongr j k hiff)
      simpa only [truthAt, truth_and, all_map, Function.comp_def, id] using hall
    | @or args hargs =>
      have hdec : ∀ a ∈ args, ∀ atoms, collectXAtoms x a = .ok atoms → Decides I x a atoms :=
        fun a ha _ => ih a ha (hargs a ha)
      obtain ⟨hproper, hcongr⟩ := collectAll_ok hdec hφ
      refine ⟨hproper, fun j k hiff => ?_⟩
      have hany := congrArg (List.any · id) (hcongr j k hiff)
      simpa only [truthAt, truth_or, any_map, Function.comp_def, id] using hany
    | @implies a b ha hb =>
      obtain ⟨as, has, hφ⟩ := bind_ok.mp hφ
      obtain ⟨bs, hbs, heq⟩ := bind_ok.mp hφ
      cases heq
      have hda := ih a (by simp [Term.children]) ha has
      have hdb := ih b (by simp [Term.children]) hb hbs
      refine ⟨forall_mem_append.mpr ⟨hda.proper, hdb.proper⟩, fun j k hiff => ?_⟩
      obtain ⟨h1, h2⟩ := forall_mem_append.mp hiff
      exact congrArg₂ (fun p q => !p || q) (hda.congr j k h1) (hdb.congr j k h2)
    | @xor a b ha hb =>
      obtain ⟨as, has, hφ⟩ := bind_ok.mp hφ
      obtain ⟨bs, hbs, heq⟩ := bind_ok.mp hφ
      cases heq
      have hda := ih a (by simp [Term.children]) ha has
      have hdb := ih b (by simp [Term.children]) hb hbs
      refine ⟨forall_mem_append.mpr ⟨hda.proper, hdb.proper⟩, fun j k hiff => ?_⟩
      obtain ⟨h1, h2⟩ := forall_mem_append.mp hiff
      exact congrArg₂ (fun p q => p != q) (hda.congr j k h1) (hdb.congr j k h2)
    | @ite c t e hc ht he =>
      obtain ⟨cs, hcs, hφ⟩ := bind_ok.mp hφ
      obtain ⟨ts, hts, hφ⟩ := bind_ok.mp hφ
      obtain ⟨es, hes, heq⟩ := bind_ok.mp hφ
      cases heq
      have hdc := ih c (by simp [Term.children]) hc hcs
      have hdt := ih t (by simp [Term.children]) ht hts
      have hde := ih e (by simp [Term.children]) he hes
      simp only [append_assoc]
      refine ⟨forall_mem_append.mpr ⟨hdc.proper, forall_mem_append.mpr ⟨hdt.proper, hde.proper⟩⟩, fun j k hiff => ?_⟩
      obtain ⟨h1, hiff⟩ := forall_mem_append.mp hiff
      obtain ⟨h2, h3⟩ := forall_mem_append.mp hiff
      rw [truthAt_ite, truthAt_ite, hdc.congr j k h1, hdt.congr j k h2, hde.congr j k h3]
    | @cmp a b op ha hb =>
      refine ⟨(pushCmpAtom_ok (I := I) (j := 0) (k := 0) hφ ha hb).1, fun j k hiff => ?_⟩
      rw [truthAt, truthAt, truth_cmp, truth_cmp]
      exact (pushCmpAtom_ok hφ ha hb).2 hiff
    | @eq a b ha hb =>
      refine ⟨(pushCmpAtom_ok (I := I) (j := 0) (k := 0) hφ ha hb).1, fun j k hiff => ?_⟩
      rw [truthAt, truthAt, truth_eq_nums rfl ha hb, truth_eq_nums rfl ha hb]
      exact (pushCmpAtom_ok hφ ha hb).2 hiff
    | @iff a b ha hb =>
      obtain ⟨f, hf, -⟩ := bind_ok.mp hφ
      exact absurd hf (sides_ne_ok ha hb hx f)

section

/-- Substituting in the formula and simplifying keep the meaning, the sorts and the absence of the
variable. -/
structure TermOps.Preserving (ops : TermOps) (m : Manager) (K D : Type*) [Field K] [LinearOrder K]
    [FloorRing K] [DecidableEq D] (x : String) (φ : Term) : Prop where
  substitute_isBool : ∀ s, IsReal m s → IsBool m (ops.substitute φ (.var x .real) s)
  substitute_free : ∀ s, IsReal m s → Free x s → Free x (ops.substitute φ (.var x .real) s)
  substitute_truth : ∀ s, IsReal m s → ∀ I : Interp m K D,
    I.truth (ops.substitute φ (.var x .real) s) = (setReal I x (I.num s)).truth φ
  simplify_isBool : ∀ t, IsBool m t → IsBool m (ops.simplify t)
  simplify_free : ∀ t, IsBool m t → Free x t → Free x (ops.simplify t)
  simplify_truth : ∀ t, IsBool m t → ∀ I : Interp m K D, I.truth (ops.simplify t) = I.truth t

variable {ops : TermOps} (hops : ops.Preserving m K D x φ)

include hops

omit [IsStrictOrderedRing K] in
theorem instantiate_ok (ht : Denotes I x t k) : IsBool m (ops.instantiate φ x t) ∧
    Free x (ops.instantiate φ x t) ∧ I.truth (ops.instantiate φ x t) = truthAt I x φ k := by
  have hbool := hops.substitute_isBool t ht.isReal
  refine ⟨hops.simplify_isBool _ hbool, hops.simplify_free _ hbool (hops.substitute_free t ht.isReal ht.free), ?_⟩
  rw [TermOps.instantiate, hops.simplify_truth _ hbool, hops.substitute_truth t ht.isReal, ht.num, truthAt]

omit [IsStrictOrderedRing K] in
theorem disjunction_ok {ds : List Term} (hds : ∀ d ∈ ds, IsBool m d ∧ Free x d)
    (hsound : ∀ d ∈ ds, I.truth d = true → ∃ k, truthAt I x φ k = true)
    (hcover : ∀ k, truthAt I x φ k = true → ∃ d ∈ ds, I.truth d = true) :
    Free x (ops.simplify (mkOr ds)) ∧ (I.truth (ops.simplify (mkOr ds)) = true ↔ ∃ k, truthAt I x φ k = true) := by
  have hbool : IsBool m (mkOr ds) := isBool_mkOr fun d hd => (hds d hd).1
  refine ⟨hops.simplify_free _ hbool (free_mkOr fun d hd => (hds d hd).2), ?_⟩
  rw [hops.simplify_truth _ hbool, truth_mkOr, any_eq_true]
  constructor
  · rintro ⟨d, hd, htrue⟩
    exact hsound d hd htrue
  · rintro ⟨k, hk⟩
    exact hcover k hk

end

theorem mem_dedup {ts : List Term} : t ∈ dedup ts ↔ t ∈ ts := by
  induction ts with
  | nil => rfl
  | cons a ts ih =>
    cases ts with
    | nil => rfl
    | cons b ts =>
      rw [dedup]
      split_ifs with hab
      · rw [ih, hab]
        simp
      · rw [mem_cons, ih, mem_cons, mem_cons, mem_cons]

theorem mem_testPoints {ts : List Term} : t ∈ testPoints m ts ↔ t ∈ ts := by
  rw [testPoints, mem_dedup]
  exact (mergeSort_perm _ _).mem_iff

theorem mem_midpoints {half : Term} {bs : List Term} (h : t ∈ FerranteRackoff.midpoints half bs) :
    ∃ b ∈ bs, ∃ c ∈ bs, t = mkMul [half, mkAdd [b, c]] := by
  induction bs with
  | nil => cases h
  | cons b bs ih =>
    rw [FerranteRackoff.midpoints] at h
    rcases mem_append.mp h with h | h
    · obtain ⟨c, hc, rfl⟩ := mem_map.mp h
      exact ⟨b, by simp, c, hc, rfl⟩
    · obtain ⟨b', hb', c, hc, rfl⟩ := ih h
      exact ⟨b', by simp [hb'], c, by simp [hc], rfl⟩

theorem midpoints_cover {half : Term} {bs : List Term} (ha : a ∈ bs) (hb : b ∈ bs) :
    mkMul [half, mkAdd [a, b]] ∈ FerranteRackoff.midpoints half bs ∨
    mkMul [half, mkAdd [b, a]] ∈ FerranteRackoff.midpoints half bs := by
  induction bs with
  | nil => cases ha
  | cons c bs ih =>
    simp only [FerranteRackoff.midpoints, List.mem_append, List.mem_map]
    rcases List.mem_cons.mp ha with rfl | ha'
    · exact .inl (.inl ⟨b, hb, rfl⟩)
    rcases List.mem_cons.mp hb with rfl | hb'
    · exact .inr (.inl ⟨a, ha, rfl⟩)
    · exact (ih ha' hb').imp .inr .inr

def Bounds (I : Interp m K D) (a : XAtom) (b : Term) : Prop :=
  ∀ k, a.form.eval (cast K) I k = cast K a.form.xCoeff * (k - I.num b)

def orient (rel : Rel) (positive : Bool) : Rel := if positive then rel else rel.flip

omit [FloorRing K] in
theorem holds_orient {q : ℚ} {d : K} (hq : q ≠ 0) : rel.Holds (cast K q * d) ↔ (orient rel (0 < q)).Holds d := by
  rcases lt_or_gt_of_ne hq with hneg | hpos
  · rw [decide_eq_false hneg.not_gt, orient, if_neg (by simp), holds_flip, ← neg_mul_neg,
      holds_mul_of_pos (neg_pos.mpr (cast_neg.mpr hneg))]
  · rw [decide_eq_true hpos, orient, if_pos rfl, holds_mul_of_pos (cast_pos.mpr hpos)]

theorem holdsAt_iff {p : XAtom} (hp : Bounds I p b) (hc : p.form.xCoeff ≠ 0) (k : K) :
    p.holdsAt I k ↔ (orient p.rel (0 < p.form.xCoeff)).Holds (k - I.num b) := by
  rw [XAtom.holdsAt, hp k, holds_orient hc]

theorem lowerBoundPoints_eq (rel : Rel) (positive : Bool) :
    VirtualTerm.lowerBoundPoints rel positive =
      let r := orient rel positive
      (decide (r = .lt ∨ r = .ge ∨ r = .eq ∨ r = .ne), decide (r = .le ∨ r = .gt ∨ r = .eq ∨ r = .ne)) := by
  cases rel <;> cases positive <;> rfl

omit [FloorRing K] in
theorem holds_of_no_start {β : K} (hjk : j ≤ k)
    (hplain : (rel = .lt ∨ rel = .ge ∨ rel = .eq ∨ rel = .ne) → j < β → k < β)
    (heps : (rel = .le ∨ rel = .gt ∨ rel = .eq ∨ rel = .ne) → j ≤ β → k ≤ β) : rel.Holds (j - β) ↔
    rel.Holds (k - β) := by
  have hlt (h : j < β → k < β) : j < β ↔ k < β := ⟨h, hjk.trans_lt⟩
  have hle (h : j ≤ β → k ≤ β) : j ≤ β ↔ k ≤ β := ⟨h, hjk.trans⟩
  cases rel with
  | lt => simpa [Rel.Holds] using hlt (hplain (by simp))
  | ge => simpa [Rel.Holds] using not_congr (hlt (hplain (by simp)))
  | le => simpa [Rel.Holds] using hle (heps (by simp))
  | gt => simpa [Rel.Holds] using not_congr (hle (heps (by simp)))
  | eq | ne =>
    have h1 := hlt (hplain (by simp))
    have h2 := hle (heps (by simp))
    refine Rel.holds_congr ⟨?_, ?_⟩
    · simpa using h1
    · simpa using not_congr h2

section

variable {ops : TermOps} (hops : ops.Preserving m K D x φ) (hφ : Formula m .real x φ)

omit [IsStrictOrderedRing K] in
theorem truthAt_exists_of_free (hx : Free x φ) : I.truth φ = true ↔ ∃ k : K, truthAt I x φ k = true := by
  simp [truthAt_of_free hx]

theorem boundary_ok {p : XAtom} (h : boundaryTerm m p.form = some b) (hp : Proper m x p) :
    Denotes I x b (I.num b) ∧ Bounds I p b := denotes_boundaryTerm h hp.within hp.coeff

include hφ in
theorem infRewrite_ok {atPlusInf : Bool} (h : infRewrite m φ x atPlusInf = .ok t) :
    Limit I x (infinity K atPlusInf) (truthAt I x φ) t := by
  refine limit_structuralRewrite ?_ hφ h
  exact fun a b rel u ha hb hatom => limit_atomInf hatom ha hb

include hφ in
theorem epsRewrite_ok {s : Term} (hs : Denotes I x s k) (h : epsRewrite m φ x s = .ok t) :
    Limit I x (rightOf k) (truthAt I x φ) t := by
  refine limit_structuralRewrite ?_ hφ h
  exact fun a b rel u ha hb hatom => limit_atomEps hatom hs ha hb

omit [IsStrictOrderedRing K] in
theorem Lra.Limit.attained {F : Filter K} [F.NeBot] {P : K → Bool} (h : Limit I x F P t)
    (ht : I.truth t = true) : ∃ k, P k = true := by
  obtain ⟨k, hk⟩ := h.eventually.exists
  exact ⟨k, hk.trans ht⟩

omit [IsStrictOrderedRing K] in
theorem Lra.Limit.truth_of_eventually {F : Filter K} [F.NeBot] {P : K → Bool} (h : Limit I x F P t)
    (hP : ∀ᶠ k in F, P k = true) : I.truth t = true := by
  obtain ⟨k, h1, h2⟩ := (h.eventually.and hP).exists
  exact h1.symm.trans h2

instance {atPlusInf : Bool} : (infinity K atPlusInf).NeBot := by
  cases atPlusInf
  · exact atBot_neBot
  · exact atTop_neBot

include hops hφ in
theorem ferranteRackoff_ok (h : FerranteRackoff.eliminateExists m ops x φ = .ok ψ) (I : Interp m K D) :
    Free x ψ ∧ (I.truth ψ = true ↔ ∃ k : K, truthAt I x φ k = true) := by
  unfold FerranteRackoff.eliminateExists at h
  split_ifs at h with hx hsort
  · cases h
    have hfree : Free x φ := by simpa [Free] using hx
    exact ⟨hfree, truthAt_exists_of_free hfree⟩
  obtain ⟨atoms, hatoms, h⟩ := bind_ok.mp h
  obtain ⟨bs, hbs, h⟩ := bind_ok.mp h
  obtain ⟨low, hlow, h⟩ := bind_ok.mp h
  obtain ⟨high, hhigh, h⟩ := bind_ok.mp h
  obtain ⟨half, hhalf, heq⟩ := bind_ok.mp h
  cases heq
  have hdec := collectXAtoms_ok (I := I) hφ hatoms
  have hlowLim := infRewrite_ok (I := I) hφ hlow
  have hhighLim := infRewrite_ok (I := I) hφ hhigh
  have hbound : ∀ b ∈ bs, Denotes I x b (I.num b) := by
    intro b hb
    obtain ⟨p, hp, hpb⟩ := forall₂_right (mapM_ok hbs) b hb
    exact (boundary_ok (okOr_ok.mp hpb) (hdec.proper p hp)).1
  have hmid : ∀ {b c}, b ∈ bs → c ∈ bs →
      Denotes I x (mkMul [half, mkAdd [b, c]]) ((I.num b + I.num c) / 2) := by
    intro b c hb hc
    have hden := (denotes_mkRealConst (I := I) (okOr_ok.mp hhalf)).mkMul ((hbound b hb).mkAdd (hbound c hc))
    have hval : cast K (1 / 2) * (I.num b + I.num c) = (I.num b + I.num c) / 2 := by
      rw [cast_apply]
      push_cast
      ring
    rwa [hval] at hden
  have hinterior : ∀ d ∈ (FerranteRackoff.midpoints half (testPoints m bs)).map (ops.instantiate φ x),
      IsBool m d ∧ Free x d ∧ ∃ k, I.truth d = truthAt I x φ k := by
    intro d hd
    obtain ⟨t, ht, rfl⟩ := mem_map.mp hd
    obtain ⟨b, hb, c, hc, rfl⟩ := mem_midpoints ht
    obtain ⟨h1, h2, h3⟩ := instantiate_ok hops (hmid (mem_testPoints.mp hb) (mem_testPoints.mp hc))
    exact ⟨h1, h2, _, h3⟩
  refine disjunction_ok hops ?_ ?_ ?_
  · simp only [cons_append, nil_append, forall_mem_cons]
    exact ⟨⟨hlowLim.isBool, hlowLim.free⟩, ⟨hhighLim.isBool, hhighLim.free⟩,
      fun d hd => ⟨(hinterior d hd).1, (hinterior d hd).2.1⟩⟩
  · simp only [cons_append, nil_append, forall_mem_cons]
    refine ⟨hlowLim.attained, hhighLim.attained, fun d hd htrue => ?_⟩
    obtain ⟨-, -, k, hk⟩ := hinterior d hd
    exact ⟨k, hk ▸ htrue⟩
  · intro k hk
    -- the boundaries cut the line into the pieces on which the formula is constant
    have hpieces : ∀ i k : K, (∀ β ∈ (bs.map I.num).toFinset, (i < β ↔ k < β) ∧ (β < i ↔ β < k)) →
        (truthAt I x φ i = true ↔ truthAt I x φ k = true) := by
      intro i k hpos
      rw [hdec.congr i k fun p hp => ?_]
      obtain ⟨b, hb, hpb⟩ := forall₂_left (mapM_ok hbs) p hp
      have hB := (boundary_ok (I := I) (okOr_ok.mp hpb) (hdec.proper p hp)).2
      have hb' := hpos (I.num b) (by simpa using ⟨b, hb, rfl⟩)
      rw [holdsAt_iff hB (hdec.proper p hp).coeff, holdsAt_iff hB (hdec.proper p hp).coeff]
      exact Rel.holds_congr ⟨by simpa using hb'.1, by simpa using hb'.2⟩
    rcases exists_midpoint hpieces hk with hbot | htop | ⟨β, hβ, γ, hγ, hmidpoint⟩
    · exact ⟨low, by simp, hlowLim.truth_of_eventually hbot⟩
    · exact ⟨high, by simp, hhighLim.truth_of_eventually htop⟩
    · obtain ⟨b, hb, rfl⟩ := mem_map.mp (mem_toFinset.mp hβ)
      obtain ⟨c, hc, rfl⟩ := mem_map.mp (mem_toFinset.mp hγ)
      rcases midpoints_cover (mem_testPoints (m := m) |>.mpr hb) (mem_testPoints.mpr hc) with hmem | hmem
      · refine ⟨_, mem_append_right _ (mem_map_of_mem hmem), ?_⟩
        rw [(instantiate_ok hops (hmid hb hc)).2.2, hmidpoint]
      · refine ⟨_, mem_append_right _ (mem_map_of_mem hmem), ?_⟩
        rw [(instantiate_ok hops (hmid hc hb)).2.2, add_comm, hmidpoint]

theorem boundaries_ok {bounds : List (XAtom × Term)} (h : VirtualTerm.boundaries m atoms = .ok bounds) :
    (∀ e ∈ bounds, e.1 ∈ atoms ∧ boundaryTerm m e.1.form = some e.2) ∧
    ∀ p ∈ atoms, VirtualTerm.lowerBoundPoints p.rel (0 < p.form.xCoeff) ≠ (false, false) → ∃ s, (p, s) ∈ bounds := by
  have hall := mapM_ok h
  constructor
  · intro e he
    obtain ⟨p, hp, hpe⟩ := forall₂_right hall e he
    obtain ⟨s, hs, heq⟩ := bind_ok.mp hpe
    cases heq
    exact ⟨mem_of_mem_filter hp, okOr_ok.mp hs⟩
  · intro p hp hne
    have hkept : (VirtualTerm.lowerBoundPoints p.rel (0 < p.form.xCoeff)).1 ||
        (VirtualTerm.lowerBoundPoints p.rel (0 < p.form.xCoeff)).2 := by
      by_contra hnot
      simp only [Bool.or_eq_true, not_or, Bool.not_eq_true] at hnot
      exact hne (Prod.ext hnot.1 hnot.2)
    obtain ⟨e, he, hpe⟩ := forall₂_left hall p (mem_filter.mpr ⟨hp, hkept⟩)
    obtain ⟨s, hs, heq⟩ := bind_ok.mp hpe
    cases heq
    exact ⟨s, he⟩

theorem mem_points {kind : Bool × Bool → Bool} {bounds : List (XAtom × Term)} :
    t ∈ VirtualTerm.points kind bounds ↔ ∃ p, (p, t) ∈ bounds ∧
    kind (VirtualTerm.lowerBoundPoints p.rel (0 < p.form.xCoeff)) = true := by
  simp [VirtualTerm.points]

include hops hφ in
theorem virtualTerm_ok (h : VirtualTerm.eliminateExists m ops x φ = .ok ψ) (I : Interp m K D) :
    Free x ψ ∧ (I.truth ψ = true ↔ ∃ k : K, truthAt I x φ k = true) := by
  unfold VirtualTerm.eliminateExists at h
  split_ifs at h with hx hsort
  · cases h
    have hfree : Free x φ := by simpa [Free] using hx
    exact ⟨hfree, truthAt_exists_of_free hfree⟩
  obtain ⟨atoms, hatoms, h⟩ := bind_ok.mp h
  obtain ⟨bounds, hbounds, h⟩ := bind_ok.mp h
  obtain ⟨low, hlow, h⟩ := bind_ok.mp h
  obtain ⟨shifted, hshifted, heq⟩ := bind_ok.mp h
  cases heq
  have hdec := collectXAtoms_ok (I := I) hφ hatoms
  have hlowLim := infRewrite_ok (I := I) hφ hlow
  obtain ⟨hmem, hkept⟩ := boundaries_ok hbounds
  have hpoint : ∀ {kind t}, t ∈ testPoints m (VirtualTerm.points kind bounds) → Denotes I x t (I.num t) := by
    intro kind t ht
    obtain ⟨p, hp, -⟩ := mem_points.mp (mem_testPoints.mp ht)
    exact (boundary_ok (hmem _ hp).2 (hdec.proper p (hmem _ hp).1)).1
  have hplain : ∀ d ∈ (testPoints m (VirtualTerm.points Prod.fst bounds)).map (ops.instantiate φ x),
      IsBool m d ∧ Free x d ∧ ∃ k, I.truth d = truthAt I x φ k := by
    intro d hd
    obtain ⟨t, ht, rfl⟩ := mem_map.mp hd
    obtain ⟨h1, h2, h3⟩ := instantiate_ok hops (hpoint ht)
    exact ⟨h1, h2, _, h3⟩
  have heps : ∀ t ∈ shifted, ∃ s ∈ testPoints m (VirtualTerm.points Prod.snd bounds),
      Limit I x (rightOf (I.num s)) (truthAt I x φ) t := by
    intro t ht
    obtain ⟨s, hs, hst⟩ := forall₂_right (mapM_ok hshifted) t ht
    exact ⟨s, hs, epsRewrite_ok hφ (hpoint hs) hst⟩
  have hshift : ∀ d ∈ shifted.map ops.simplify,
      IsBool m d ∧ Free x d ∧ (I.truth d = true → ∃ k, truthAt I x φ k = true) := by
    intro d hd
    obtain ⟨t, ht, rfl⟩ := mem_map.mp hd
    obtain ⟨s, -, hlim⟩ := heps t ht
    refine ⟨hops.simplify_isBool t hlim.isBool, hops.simplify_free t hlim.isBool hlim.free, fun htrue => ?_⟩
    rw [hops.simplify_truth t hlim.isBool] at htrue
    exact hlim.attained htrue
  refine disjunction_ok hops ?_ ?_ ?_
  · simp only [cons_append, nil_append, forall_mem_cons, forall_mem_append]
    exact ⟨⟨hlowLim.isBool, hlowLim.free⟩, fun d hd => ⟨(hplain d hd).1, (hplain d hd).2.1⟩,
      fun d hd => ⟨(hshift d hd).1, (hshift d hd).2.1⟩⟩
  · simp only [cons_append, nil_append, forall_mem_cons, forall_mem_append]
    refine ⟨hlowLim.attained, fun d hd htrue => ?_, fun d hd => (hshift d hd).2.2⟩
    obtain ⟨-, -, k, hk⟩ := hplain d hd
    exact ⟨k, hk ▸ htrue⟩
  · intro k hk
    -- every piece of the line on which the formula is constant starts at a test point
    have hpieces : ∀ i k : K, i ≤ k →
        (∀ β ∈ ((VirtualTerm.points Prod.fst bounds).map I.num).toFinset, i < β → k < β) →
        (∀ β ∈ ((VirtualTerm.points Prod.snd bounds).map I.num).toFinset, i ≤ β → k ≤ β) →
        (truthAt I x φ i = true ↔ truthAt I x φ k = true) := by
      intro i k hik hstart heps
      rw [hdec.congr i k fun p hp => ?_]
      have hflags := lowerBoundPoints_eq p.rel (0 < p.form.xCoeff)
      dsimp only at hflags
      obtain ⟨s, hs⟩ := hkept p hp (by
        rw [hflags]
        cases orient p.rel (0 < p.form.xCoeff) <;> simp)
      have hB := (boundary_ok (I := I) (hmem _ hs).2 (hdec.proper p hp)).2
      rw [holdsAt_iff hB (hdec.proper p hp).coeff, holdsAt_iff hB (hdec.proper p hp).coeff]
      refine holds_of_no_start hik (fun hr => hstart _ ?_) fun hr => heps _ ?_
      · refine mem_toFinset.mpr (mem_map_of_mem (mem_points.mpr ⟨p, hs, ?_⟩))
        rw [hflags]
        exact decide_eq_true hr
      · refine mem_toFinset.mpr (mem_map_of_mem (mem_points.mpr ⟨p, hs, ?_⟩))
        rw [hflags]
        exact decide_eq_true hr
    rcases exists_start hpieces hk with hbot | ⟨β, hβ, htrue⟩ | ⟨β, hβ, hright⟩
    · exact ⟨low, by simp, hlowLim.truth_of_eventually hbot⟩
    · obtain ⟨b, hb, rfl⟩ := mem_map.mp (mem_toFinset.mp hβ)
      have hb' := mem_testPoints (m := m) |>.mpr hb
      refine ⟨ops.instantiate φ x b, by simpa using .inr (.inl ⟨b, hb', rfl⟩), ?_⟩
      rw [(instantiate_ok hops (hpoint hb')).2.2, htrue]
    · obtain ⟨b, hb, rfl⟩ := mem_map.mp (mem_toFinset.mp hβ)
      have hb' := mem_testPoints (m := m) |>.mpr hb
      obtain ⟨t, ht, hbt⟩ := forall₂_left (mapM_ok hshifted) b hb'
      have hlim := epsRewrite_ok hφ (hpoint hb') hbt
      refine ⟨ops.simplify t, by simpa using .inr (.inr ⟨t, ht, rfl⟩), ?_⟩
      rw [hops.simplify_truth t hlim.isBool]
      exact hlim.truth_of_eventually hright

include hops hφ in
/-- Whatever either eliminator returns is free of the variable and true exactly where some value of
the variable makes the formula true; so the two agree. -/
theorem eliminateExists_exact (I : Interp m K D) :
    (∀ ψ, FerranteRackoff.eliminateExists m ops x φ = .ok ψ → Free x ψ ∧
    (I.truth ψ = true ↔ ∃ k : K, (setReal I x k).truth φ = true)) ∧
    (∀ ψ, VirtualTerm.eliminateExists m ops x φ = .ok ψ → Free x ψ ∧
    (I.truth ψ = true ↔ ∃ k : K, (setReal I x k).truth φ = true)) ∧
    ∀ ψ ψ', FerranteRackoff.eliminateExists m ops x φ = .ok ψ → VirtualTerm.eliminateExists m ops x φ = .ok ψ' →
    I.truth ψ = I.truth ψ' := by
  refine ⟨fun ψ h => ferranteRackoff_ok hops hφ h I, fun ψ h => virtualTerm_ok hops hφ h I, fun ψ ψ' h h' => ?_⟩
  rw [Bool.eq_iff_iff, (ferranteRackoff_ok hops hφ h I).2, (virtualTerm_ok hops hφ h' I).2]

def comparisonOps : TermOps where
  substitute := fun φ v s =>
    match φ with
    | .cmp op a b => mkCmp op (if a = v then s else a) (if b = v then s else b)
    | φ => φ
  simplify := fun t => t

def xAboveY : Term := .cmp .gt (.var "x" .real) (.var "y" .real)

theorem uniform_realVar (name : String) : Uniform plainManager .real (.var name .real) :=
  .mk (.mk trivial (by simp [Term.children])) rfl (by simp [Term.children])

theorem preserving_comparisonOps : comparisonOps.Preserving plainManager ℚ Unit "x" xAboveY := by
  have hsub : ∀ s, comparisonOps.substitute xAboveY (.var "x" .real) s = mkCmp .gt s (.var "y" .real) :=
    fun s => rfl
  have hy : Free "x" (.var "y" .real) := free_of_children rfl (by simp [Term.children])
  refine ⟨fun s hs => ?_, fun s _ hx => ?_, fun s _ I => ?_, fun _ h => h, fun _ _ h => h, fun _ _ _ => rfl⟩
  · exact isBool_mkCmp _ hs.isNum ((uniform_realVar "y").isNum rfl)
  · exact free_mkCmp _ hx hy
  · have hnum : (setReal I "x" (I.num s)).num (.var "y" .real) = I.num (.var "y" .real) := num_assign_of_free hy
    have hx : (setReal I "x" (I.num s)).num (.var "x" .real) = I.num s := by
      rw [Interp.num, setReal, eval_assign_self, Value.toNum_num]
    rw [hsub, truth_mkCmp, xAboveY, truth_cmp, hnum, hx, accepts_compare, decide_eq_decide]
    simp [CmpOp.Holds, Rel.ofOp, Rel.Holds]

theorem eliminateExists_exact_xAboveY : ∃ ψ ψ',
    FerranteRackoff.eliminateExists plainManager comparisonOps "x" xAboveY = .ok ψ ∧
    VirtualTerm.eliminateExists plainManager comparisonOps "x" xAboveY = .ok ψ' ∧
    ψ ≠ ψ' ∧ halfInterp.truth ψ = halfInterp.truth ψ' := by
  have hφ : Formula plainManager .real "x" xAboveY := .cmp .gt (uniform_realVar "x") (uniform_realVar "y")
  obtain ⟨-, -, hagree⟩ := eliminateExists_exact preserving_comparisonOps hφ halfInterp
  have hfr : FerranteRackoff.eliminateExists plainManager comparisonOps "x" xAboveY = .ok .true := by
    with_unfolding_all decide
  cases hvt : VirtualTerm.eliminateExists plainManager comparisonOps "x" xAboveY with
  | error e =>
    have hok : (VirtualTerm.eliminateExists plainManager comparisonOps "x" xAboveY).isOk = true := by
      with_unfolding_all decide
    rw [hvt] at hok
    cases hok
  | ok ψ' =>
    refine ⟨.true, ψ', hfr, rfl, ?_, hagree _ _ hfr hvt⟩
    rintro rfl
    have hne : VirtualTerm.eliminateExists plainManager comparisonOps "x" xAboveY ≠ .ok .true := by
      with_unfolding_all decide
    exact hne hvt

end

end Nixie.Qe
