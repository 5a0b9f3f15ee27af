import Nixie.Qe.Lra

/-!
What the rewriting of the atoms does to the truth of a formula: the rewritten formula has the truth
value that the formula has on one side of the line, or right above a term.
-/

namespace Nixie.Qe.Lra

open Ast Interp Filter TestPoints List

/-- The instance that the neighbourhoods of a point take, whatever else is imported. -/
theorem nontrivial_field {K : Type*} [Field K] : Nontrivial K := inferInstance

attribute [local instance] nontrivial_field

variable {m : Manager} {K D : Type*} [Field K] [LinearOrder K] [FloorRing K] [DecidableEq D]
  [IsStrictOrderedRing K] {I : Interp m K D} {x : String} {t a b : Term} {rel : Rel} {f : LinForm ℚ} {k : K}

theorem sides_ok (h : sides x a b = .ok f) (ha : Uniform m .real a) (hb : Uniform m .real b) :
    Over m x f ∧ ∀ k, (setReal I x k).num a - (setReal I x k).num b = f.eval (cast K) I k := by
  obtain ⟨fa, hfa, h⟩ := bind_ok.mp h
  obtain ⟨fb, hfb, heq⟩ := bind_ok.mp h
  cases heq
  have hra : Represents I x .real (cast K) a fa := represents_toLinear reader_sound ha (okOr_ok.mp hfa)
  have hrb : Represents I x .real (cast K) b fb := represents_toLinear reader_sound hb (okOr_ok.mp hfb)
  refine ⟨LinForm.over_sub hra.within hrb.within, fun k => ?_⟩
  rw [LinForm.eval_sub, setReal, hra.num, hrb.num]

structure Limit (I : Interp m K D) (x : String) (F : Filter K) (P : K → Bool) (t : Term) : Prop where
  isBool : IsBool m t
  free : Free x t
  eventually : ∀ᶠ k in F, P k = I.truth t

variable {F : Filter K} {P : K → Bool}

omit [IsStrictOrderedRing K] in
theorem Limit.congr {Q : K → Bool} (h : Limit I x F P t) (heq : ∀ k, Q k = P k) : Limit I x F Q t :=
  ⟨h.isBool, h.free, by simpa only [heq] using h.eventually⟩

omit [IsStrictOrderedRing K] in
theorem limit_mkBool {q : Bool} (h : ∀ᶠ k in F, P k = q) : Limit I x F P (mkBool q) :=
  ⟨isBool_mkBool q, free_mkBool q, by simpa using h⟩

theorem limit_emitCmp {q : K} (hq : Denotes I x t q) (h : ∀ᶠ k in F, P k = decide (rel.Holds q)) :
    Limit I x F P (emitCmp m t zeroReal rel) := by
  have hzero : IsReal m zeroReal := isReal_mkReal _
  have hs : t.sort.Compatible zeroReal.sort := .inl hq.isReal.sort
  refine ⟨isBool_emitCmp rel hq.isReal.isNum hzero.isNum hs, free_emitCmp rel hq.free (free_mkReal _), ?_⟩
  have hnum : I.num zeroReal = 0 := by simp [zeroReal, Rational64.ofInt]
  rw [truth_emitCmp rel hq.isReal.isNum hzero.isNum hs, hnum, sub_zero, hq.num]
  exact h

section

variable {c r : K}

omit [FloorRing K] in
theorem eventually_atTop_pos (hc : 0 < c) : ∀ᶠ k in atTop, 0 < c * k + r := by
  filter_upwards [eventually_gt_atTop (-r / c)] with k hk
  have := (div_lt_iff₀ hc).mp hk
  linarith

omit [FloorRing K] in
theorem eventually_atBot_neg (hc : 0 < c) : ∀ᶠ k in atBot, c * k + r < 0 := by
  filter_upwards [eventually_lt_atBot (-r / c)] with k hk
  have := (lt_div_iff₀ hc).mp hk
  linarith

omit [FloorRing K] in
theorem eventually_atTop_neg (hc : c < 0) : ∀ᶠ k in atTop, c * k + r < 0 := by
  filter_upwards [eventually_atTop_pos (r := -r) (neg_pos.mpr hc)] with k hk
  linarith

omit [FloorRing K] in
theorem eventually_atBot_pos (hc : c < 0) : ∀ᶠ k in atBot, 0 < c * k + r := by
  filter_upwards [eventually_atBot_neg (r := -r) (neg_pos.mpr hc)] with k hk
  linarith

end

def infinity (K : Type*) [LinearOrder K] (atPlusInf : Bool) : Filter K := if atPlusInf then atTop else atBot

omit [FloorRing K] in
theorem cast_pos {q : ℚ} : 0 < cast K q ↔ 0 < q := by simp

omit [FloorRing K] in
theorem cast_neg {q : ℚ} : cast K q < 0 ↔ q < 0 := by simp

theorem eventually_infTruth (hc : f.xCoeff ≠ 0) (rel : Rel) (atPlusInf : Bool) : ∀ᶠ k in infinity K atPlusInf,
    (rel.Holds (f.eval (cast K) I k) ↔ infTruth rel (atPlusInf == decide (0 < f.xCoeff)) = true) := by
  rcases lt_or_gt_of_ne hc with hneg | hpos
  · have hdec : decide (0 < f.xCoeff) = false := decide_eq_false hneg.not_gt
    rw [hdec]
    cases atPlusInf with
    | true =>
      filter_upwards [eventually_atTop_neg (r := f.rest (cast K) I) (cast_neg.mpr hneg)] with k hk
      exact Rel.holds_of_neg hk
    | false =>
      filter_upwards [eventually_atBot_pos (r := f.rest (cast K) I) (cast_neg.mpr hneg)] with k hk
      exact Rel.holds_of_pos hk
  · rw [decide_eq_true hpos]
    cases atPlusInf with
    | true =>
      filter_upwards [eventually_atTop_pos (r := f.rest (cast K) I) (cast_pos.mpr hpos)] with k hk
      exact Rel.holds_of_pos hk
    | false =>
      filter_upwards [eventually_atBot_neg (r := f.rest (cast K) I) (cast_pos.mpr hpos)] with k hk
      exact Rel.holds_of_neg hk

theorem limit_constant (hf : Over m x f) (hc : f.xCoeff = 0) (ht : mkLinTerm m f.others f.constant = some t)
    (rel : Rel) : Limit I x F (fun k => decide (rel.Holds (f.eval (cast K) I k))) (emitCmp m t zeroReal rel) := by
  refine limit_emitCmp (denotes_mkLinTerm ht hf) (Eventually.of_forall fun k => ?_)
  simp [LinForm.eval, hc]

def cmpAt (I : Interp m K D) (x : String) (a b : Term) (rel : Rel) (k : K) : Bool :=
  rel.Holds ((setReal I x k).num a - (setReal I x k).num b)

theorem limit_atomInf {atPlusInf : Bool} (h : atomInf m x a b rel atPlusInf = .ok t) (ha : Uniform m .real a)
    (hb : Uniform m .real b) : Limit I x (infinity K atPlusInf) (cmpAt I x a b rel) t := by
  obtain ⟨f, hsides, h⟩ := bind_ok.mp h
  obtain ⟨hf, hval⟩ := sides_ok (I := I) hsides ha hb
  have hcmp : ∀ k, cmpAt I x a b rel k = decide (rel.Holds (f.eval (cast K) I k)) := fun k => by
    rw [cmpAt, hval]
  refine Limit.congr ?_ hcmp
  split_ifs at h with hc
  · obtain ⟨rest, hrest, heq⟩ := bind_ok.mp h
    cases heq
    exact limit_constant hf hc (okOr_ok.mp hrest) rel
  · cases h
    refine limit_mkBool ?_
    filter_upwards [eventually_infTruth (I := I) hc rel atPlusInf] with k hk
    rw [Bool.eq_iff_iff, decide_eq_true_iff]
    exact hk

section

variable {c r s : K}

theorem eventually_rightOf_rising (hc : 0 < c) :
    ∀ᶠ k in rightOf s, (c * s + r < 0 → c * k + r < 0) ∧ (0 ≤ c * s + r → 0 < c * k + r) := by
  rcases lt_or_ge (c * s + r) 0 with hneg | hpos
  · refine eventually_rightOf.mpr ⟨-r / c, ?_, fun k _ hk => ⟨fun _ => ?_, fun h => ?_⟩⟩
    · rw [gt_iff_lt, lt_div_iff₀ hc]
      linarith
    · have := (lt_div_iff₀ hc).mp hk
      linarith
    · exact absurd hneg h.not_gt
  · refine eventually_rightOf.mpr ⟨s + 1, by simp, fun k hk _ => ⟨fun h => ?_, fun _ => ?_⟩⟩
    · exact absurd h hpos.not_gt
    · have := mul_lt_mul_of_pos_left hk hc
      linarith

theorem eventually_rightOf_falling (hc : c < 0) :
    ∀ᶠ k in rightOf s, (0 < c * s + r → 0 < c * k + r) ∧ (c * s + r ≤ 0 → c * k + r < 0) := by
  filter_upwards [eventually_rightOf_rising (s := s) (r := -r) (neg_pos.mpr hc)] with k hk
  exact ⟨fun h => by linarith [hk.1 (by linarith)], fun h => by linarith [hk.2 (by linarith)]⟩

end

/-- The number `v` is what a form with value `d` at a point comes to right above the point. -/
structure Shifted (rising : Bool) (d v : K) : Prop where
  neg : v < 0 ↔ bif rising then d < 0 else d ≤ 0
  pos : 0 < v ↔ bif rising then 0 ≤ d else 0 < d

omit [FloorRing K] [IsStrictOrderedRing K] in
theorem shifted_rising {d v : K} (h : (d < 0 → v < 0) ∧ (0 ≤ d → 0 < v)) : Shifted true d v where
  neg := ⟨fun hv => not_le.mp fun hd => (h.2 hd).not_gt hv, h.1⟩
  pos := ⟨fun hv => not_lt.mp fun hd => (h.1 hd).not_gt hv, h.2⟩

omit [FloorRing K] [IsStrictOrderedRing K] in
theorem shifted_falling {d v : K} (h : (0 < d → 0 < v) ∧ (d ≤ 0 → v < 0)) : Shifted false d v where
  neg := ⟨fun hv => not_lt.mp fun hd => (h.1 hd).not_gt hv, h.2⟩
  pos := ⟨fun hv => not_le.mp fun hd => (h.2 hd).not_gt hv, h.1⟩

omit [FloorRing K] [IsStrictOrderedRing K] in
theorem Shifted.ne_zero {rising : Bool} {d v : K} (h : Shifted rising d v) : v ≠ 0 := by
  rw [ne_iff_lt_or_gt, h.neg, h.pos]
  cases rising
  · exact le_or_gt d 0
  · exact lt_or_ge d 0

theorem limit_emitEps {q : Term} {v : K → K} {d : K} {rising : Bool} (hq : Denotes I x q d)
    (hv : ∀ᶠ k in F, Shifted rising d (v k)) (rel : Rel) :
    Limit I x F (fun k => decide (rel.Holds (v k))) (emitEps m q rel rising) := by
  -- the twelve cases are one comparison of `d` with zero, or a constant
  have hcmp : ∀ rel' : Rel, (∀ k, Shifted rising d (v k) → (rel.Holds (v k) ↔ rel'.Holds d)) →
      Limit I x F (fun k => decide (rel.Holds (v k))) (emitCmp m q zeroReal rel') := by
    intro rel' h
    refine limit_emitCmp hq ?_
    filter_upwards [hv] with k hk
    rw [decide_eq_decide]
    exact h k hk
  have hconst : ∀ b : Bool, (∀ k, Shifted rising d (v k) → decide (rel.Holds (v k)) = b) →
      Limit I x F (fun k => decide (rel.Holds (v k))) (mkBool b) :=
    fun b h => limit_mkBool (hv.mono h)
  cases rel with
  | eq => exact hconst false fun k hk => decide_eq_false hk.ne_zero
  | ne => exact hconst true fun k hk => decide_eq_true hk.ne_zero
  | lt =>
    cases rising
    · exact hcmp .le fun k hk => hk.neg
    · exact hcmp .lt fun k hk => hk.neg
  | gt =>
    cases rising
    · exact hcmp .gt fun k hk => hk.pos
    · exact hcmp .ge fun k hk => hk.pos
  | le =>
    cases rising
    · exact hcmp .le fun k hk => not_lt.symm.trans ((not_congr hk.pos).trans not_lt)
    · exact hcmp .lt fun k hk => not_lt.symm.trans ((not_congr hk.pos).trans not_le)
  | ge =>
    cases rising
    · exact hcmp .gt fun k hk => not_lt.symm.trans ((not_congr hk.neg).trans not_le)
    · exact hcmp .ge fun k hk => not_lt.symm.trans ((not_congr hk.neg).trans not_lt)

theorem limit_atomEps {s : Term} {d : K} (h : atomEps m x a b rel s = .ok t) (hs : Denotes I x s d)
    (ha : Uniform m .real a) (hb : Uniform m .real b) : Limit I x (rightOf d) (cmpAt I x a b rel) t := by
  obtain ⟨f, hsides, h⟩ := bind_ok.mp h
  obtain ⟨hf, hval⟩ := sides_ok (I := I) hsides ha hb
  have hcmp : ∀ k, cmpAt I x a b rel k = decide (rel.Holds (f.eval (cast K) I k)) := fun k => by
    rw [cmpAt, hval]
  refine Limit.congr ?_ hcmp
  obtain ⟨rest, hrest, h⟩ := bind_ok.mp h
  split_ifs at h with hc
  · cases h
    exact limit_constant hf hc (okOr_ok.mp hrest) rel
  · obtain ⟨c, hcterm, heq⟩ := bind_ok.mp h
    cases heq
    have hq : Denotes I x (mkAdd [mkMul [c, s], rest]) (cast K f.xCoeff * d + f.rest (cast K) I) :=
      ((denotes_mkRealConst (okOr_ok.mp hcterm)).mkMul hs).mkAdd (denotes_mkLinTerm (okOr_ok.mp hrest) hf)
    refine limit_emitEps hq ?_ rel
    rcases lt_or_gt_of_ne hc with hneg | hpos
    · rw [decide_eq_false hneg.not_gt]
      exact (eventually_rightOf_falling (cast_neg.mpr hneg)).mono fun k => shifted_falling
    · rw [decide_eq_true hpos]
      exact (eventually_rightOf_rising (cast_pos.mpr hpos)).mono fun k => shifted_rising

section

variable {mode : AtomMode} {φ ψ : Term} {F : Filter K} {args : List Term}

def truthAt (I : Interp m K D) (x : String) (φ : Term) (k : K) : Bool := (setReal I x k).truth φ

omit [IsStrictOrderedRing K] in
theorem truthAt_ite {c t e : Term} (k : K) : truthAt I x (.ite c t e .bool) k =
    bif truthAt I x c k then truthAt I x t k else truthAt I x e k := by
  simp only [truthAt]
  rw [Interp.truth, eval_ite, Interp.choice]
  cases (setReal I x k).truth c <;> rfl

omit [IsStrictOrderedRing K] in
theorem truthAt_of_free (hx : Free x φ) (k : K) : truthAt I x φ k = I.truth φ := truth_assign_of_free hx

omit [IsStrictOrderedRing K] in
theorem limit_free (h : IsBool m φ) (hx : Free x φ) : Limit I x F (truthAt I x φ) φ :=
  ⟨h, hx, Eventually.of_forall (truthAt_of_free hx)⟩

omit [IsStrictOrderedRing K] in
theorem limit_mkNot {P : K → Bool} (h : Limit I x F P t) : Limit I x F (fun k => !P k) (mkNot t) :=
  ⟨isBool_mkNot h.isBool, free_mkNot h.free, by simpa using h.eventually⟩

omit [IsStrictOrderedRing K] in
theorem truth_mkXor (a b : Term) : I.truth (mkXor a b) = (I.truth a != I.truth b) := by
  unfold mkXor
  split_ifs with h1 h2 h3 h4 h5
  · simp [h1]
  · simp [h2]
  · simp [h3]
  · simp [h4]
  · simp [h5]
  · rfl

theorem isBool_mkXor (ha : IsBool m a) (hb : IsBool m b) : IsBool m (mkXor a b) := by
  unfold mkXor
  split_ifs
  · exact isBool_false
  · exact hb
  · exact isBool_mkNot hb
  · exact ha
  · exact isBool_mkNot ha
  · exact ⟨.mk ⟨ha.sort, hb.sort⟩ (by simpa [Term.children] using ⟨ha.wf, hb.wf⟩), rfl⟩

structure Limits (I : Interp m K D) (x : String) (F : Filter K) (args out : List Term) : Prop where
  isBool : ∀ t ∈ out, IsBool m t
  free : ∀ t ∈ out, Free x t
  eventually : ∀ᶠ k in F, args.map (fun a => truthAt I x a k) = out.map I.truth

omit [IsStrictOrderedRing K] in
theorem limits_rewriteAll {out : List Term}
    (ih : ∀ a ∈ args, ∀ t, structuralRewrite m x mode a = .ok t → Limit I x F (truthAt I x a) t)
    (h : rewriteAll m x mode args = .ok out) : Limits I x F args out := by
  induction args generalizing out with
  | nil =>
    cases h
    exact ⟨by simp, by simp, by simp⟩
  | cons a args ihargs =>
    obtain ⟨ha, hargs⟩ := forall_mem_cons.mp ih
    obtain ⟨ts, hts, h⟩ := bind_ok.mp h
    obtain ⟨t, ht, heq⟩ := bind_ok.mp h
    cases heq
    have hlim := ha t ht
    have hlims := ihargs hargs hts
    refine ⟨forall_mem_cons.mpr ⟨hlim.isBool, hlims.isBool⟩, forall_mem_cons.mpr ⟨hlim.free, hlims.free⟩, ?_⟩
    filter_upwards [hlim.eventually, hlims.eventually] with k h1 h2
    rw [map_cons, map_cons, h1, h2]

theorem structuralRewrite_of_free (hx : Free x φ) : structuralRewrite m x mode φ = .ok φ := by
  unfold structuralRewrite
  rw [if_pos]
  simpa [Free] using hx

theorem sides_of_atomRewrite (h : atomRewrite m x a b rel mode = .ok t) : ∃ f, sides x a b = .ok f := by
  cases mode with
  | inf atPlusInf =>
    obtain ⟨f, hf, -⟩ := bind_ok.mp h
    exact ⟨f, hf⟩
  | eps s =>
    obtain ⟨f, hf, -⟩ := bind_ok.mp h
    exact ⟨f, hf⟩

theorem sides_ne_ok (ha : Formula m .real x a) (hb : Formula m .real x b) (hx : ¬ Free x (.eq a b))
    (f : LinForm ℚ) : sides x a b ≠ .ok f := by
  intro h
  obtain ⟨fa, hfa, h⟩ := bind_ok.mp h
  obtain ⟨fb, hfb, -⟩ := bind_ok.mp h
  exact ha.not_both_linear (reader_sound (K := ℚ)) hb hx (okOr_ok.mp hfa) (okOr_ok.mp hfb)

theorem limit_structuralRewrite (hatom : ∀ a b rel t, Uniform m .real a → Uniform m .real b →
    atomRewrite m x a b rel mode = .ok t → Limit I x F (cmpAt I x a b rel) t) (h : Formula m .real x φ)
    (hψ : structuralRewrite m x mode φ = .ok ψ) : Limit I x F (truthAt I x φ) ψ := by
  induction φ using Term.induct generalizing ψ with
  | h φ ih =>
    have hbool := h.isBool rfl
    by_cases hx : Free x φ
    · rw [structuralRewrite_of_free hx] at hψ
      cases hψ
      exact limit_free hbool hx
    unfold structuralRewrite at hψ
    rw [if_neg (by simpa [Free] using hx)] at hψ
    cases h with
    | free _ hfree => exact absurd hfree hx
    | @not a ha =>
      obtain ⟨t, ht, rfl⟩ := map_ok.mp hψ
      exact limit_mkNot (ih a (by simp [Term.children]) ha ht)
    | @and args hargs =>
      obtain ⟨ts, hts, rfl⟩ := map_ok.mp hψ
      have hlims : Limits I x F args ts := limits_rewriteAll (fun a ha t ht => ih a ha (hargs a ha) ht) hts
      refine ⟨isBool_mkAnd hlims.isBool, free_mkAnd hlims.free, ?_⟩
      filter_upwards [hlims.eventually] with k hk
      have hall := congrArg (List.all · id) hk
      simpa only [truthAt, truth_and, truth_mkAnd, all_map, Function.comp_def, id] using hall
    | @or args hargs =>
      obtain ⟨ts, hts, rfl⟩ := map_ok.mp hψ
      have hlims : Limits I x F args ts := limits_rewriteAll (fun a ha t ht => ih a ha (hargs a ha) ht) hts
      refine ⟨isBool_mkOr hlims.isBool, free_mkOr hlims.free, ?_⟩
      filter_upwards [hlims.eventually] with k hk
      have hany := congrArg (List.any · id) hk
      simpa only [truthAt, truth_or, truth_mkOr, any_map, Function.comp_def, id] using hany
    | @implies a b ha hb =>
      obtain ⟨tb, htb, hψ⟩ := bind_ok.mp hψ
      obtain ⟨ta, hta, heq⟩ := bind_ok.mp hψ
      cases heq
      have hla := ih a (by simp [Term.children]) ha hta
      have hlb := ih b (by simp [Term.children]) hb htb
      refine ⟨isBool_mkImplies hla.isBool hlb.isBool, free_mkImplies hla.free hlb.free, ?_⟩
      filter_upwards [hla.eventually, hlb.eventually] with k h1 h2
      rw [truth_mkImplies, ← h1, ← h2]
      rfl
    | @xor a b ha hb =>
      obtain ⟨tb, htb, hψ⟩ := bind_ok.mp hψ
      obtain ⟨ta, hta, heq⟩ := bind_ok.mp hψ
      cases heq
      have hla := ih a (by simp [Term.children]) ha hta
      have hlb := ih b (by simp [Term.children]) hb htb
      refine ⟨isBool_mkXor hla.isBool hlb.isBool, free_mkXor hla.free hlb.free, ?_⟩
      filter_upwards [hla.eventually, hlb.eventually] with k h1 h2
      rw [truth_mkXor, ← h1, ← h2]
      rfl
    | @ite c t e hc ht he =>
      obtain ⟨te, hte, hψ⟩ := bind_ok.mp hψ
      obtain ⟨tt, htt, hψ⟩ := bind_ok.mp hψ
      obtain ⟨tc, htc, heq⟩ := bind_ok.mp hψ
      cases heq
      have hlc := ih c (by simp [Term.children]) hc htc
      have hlt := ih t (by simp [Term.children]) ht htt
      have hle := ih e (by simp [Term.children]) he hte
      have hsel : Selects m K D tc tt te (mkIte tc tt te) := selects_mkIte
        ⟨hlc.isBool, hlt.isBool.wf, hle.isBool.wf, .inl (hlt.isBool.sort.trans hle.isBool.sort.symm)⟩
      refine ⟨⟨hsel.wf, (hlt.isBool.sort ▸ hsel.sort).eq_bool⟩, free_mkIte hlc.free hlt.free hle.free, ?_⟩
      filter_upwards [hlc.eventually, hlt.eventually, hle.eventually] with k h1 h2 h3
      have hval : I.truth (mkIte tc tt te) = bif I.truth tc then I.truth tt else I.truth te := by
        rw [Interp.truth, hsel.eval, Interp.choice]
        cases I.truth tc <;> rfl
      rw [hval, ← h1, ← h2, ← h3, truthAt_ite]
    | @cmp a b op ha hb => exact (hatom a b (.ofOp op) ψ ha hb hψ).congr fun k => truth_cmp op a b
    | @eq a b ha hb => exact (hatom a b .eq ψ ha hb hψ).congr fun k => truth_eq_nums rfl ha hb
    | @iff a b ha hb =>
      obtain ⟨f, hf⟩ := sides_of_atomRewrite hψ
      exact absurd hf (sides_ne_ok ha hb hx f)

end

end Nixie.Qe.Lra
