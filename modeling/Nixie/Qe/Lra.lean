import Mathlib.Order.Filter.AtTopBot.Field
import Nixie.Qe.Formula
import Nixie.TestPoints

/-!
Linear real arithmetic, `nixie-core/src/qe/arith/lra.rs`, and the two eliminators over it,
`ferrante_rackoff.rs` and `virtual_term.rs`.  The walks over shared terms with a stack and a memo are
recursions here, in the order in which the walks meet their errors.
-/

namespace Nixie.Qe

open Ast List Option

namespace Lra

def reader : Reader ℚ := ⟨arithConstOf, some fun c => c⁻¹⟩

def toLinear (x : String) (t : Term) : Option (LinForm ℚ) := reader.toLinear x t

def mkRealConst (q : ℚ) : Option Term := (narrowRational q).map mkReal

def zeroReal : Term := mkReal (.ofInt 0 Rational64.zero_fits)

def mkPart (e : Term × ℚ) : Option Term :=
  if e.2 = 1 then some e.1 else (mkRealConst e.2).map fun c => mkMul [c, e.1]

def constantParts (parts : List Term) (constant : ℚ) : Option (List Term) :=
  if constant ≠ 0 ∨ parts = [] then (mkRealConst constant).map fun c => parts ++ [c] else some parts

def mkLinTerm (m : Manager) (others : List (Term × ℚ)) (constant : ℚ) : Option Term := do
  let parts ← (entries m others).mapM mkPart
  let parts ← constantParts parts constant
  some (sumParts parts)

def boundaryTerm (m : Manager) (f : LinForm ℚ) : Option Term :=
  let g := f.scale (-f.xCoeff⁻¹)
  mkLinTerm m g.others g.constant

structure XAtom where
  form : LinForm ℚ
  rel : Rel

def sides (x : String) (a b : Term) : Except String (LinForm ℚ) := do
  let fa ← okOr "lra: non-linear comparison operand" (toLinear x a)
  let fb ← okOr "lra: non-linear comparison operand" (toLinear x b)
  .ok (fa.sub fb)

def pushCmpAtom (x : String) (a b : Term) (rel : Rel) : Except String (List XAtom) := do
  let form ← sides x a b
  if form.xCoeff = 0 then .ok [] else .ok [⟨form, rel⟩]

mutual

def collectXAtoms (x : String) (t : Term) : Except String (List XAtom) :=
  if !mentionsVar x t then .ok []
  else
    match t with
    | .not a => collectXAtoms x a
    | .and args | .or args => collectAll x args
    | .implies a b | .xor a b => do
      let as ← collectXAtoms x a
      let bs ← collectXAtoms x b
      .ok (as ++ bs)
    | .ite c t e _ => do
      let cs ← collectXAtoms x c
      let ts ← collectXAtoms x t
      let es ← collectXAtoms x e
      .ok (cs ++ ts ++ es)
    | .cmp op a b => pushCmpAtom x a b (.ofOp op)
    | .eq a b => pushCmpAtom x a b .eq
    | _ => .error "lra: unsupported term mentioning the eliminated variable"

def collectAll (x : String) : List Term → Except String (List XAtom)
  | [] => .ok []
  | a :: as => do
    let atoms ← collectXAtoms x a
    let rest ← collectAll x as
    .ok (atoms ++ rest)

end

def infTruth (rel : Rel) (toPosInf : Bool) : Bool :=
  if toPosInf then rel = .gt ∨ rel = .ge ∨ rel = .ne else rel = .lt ∨ rel = .le ∨ rel = .ne

inductive AtomMode
  | inf (atPlusInf : Bool)
  | eps (s : Term)

def tooLarge : String := "lra: coefficient too large to eliminate"

def atomInf (m : Manager) (x : String) (a b : Term) (rel : Rel) (atPlusInf : Bool) : Except String Term := do
  let form ← sides x a b
  if form.xCoeff = 0 then
    let rest ← okOr tooLarge (mkLinTerm m form.others form.constant)
    .ok (emitCmp m rest zeroReal rel)
  else .ok (mkBool (infTruth rel (atPlusInf == decide (0 < form.xCoeff))))

def emitEps (m : Manager) (q : Term) : Rel → Bool → Term
  | .lt, true => emitCmp m q zeroReal .lt
  | .lt, false => emitCmp m q zeroReal .le
  | .le, true => emitCmp m q zeroReal .lt
  | .le, false => emitCmp m q zeroReal .le
  | .gt, true => emitCmp m q zeroReal .ge
  | .gt, false => emitCmp m q zeroReal .gt
  | .ge, true => emitCmp m q zeroReal .ge
  | .ge, false => emitCmp m q zeroReal .gt
  | .eq, _ => .false
  | .ne, _ => .true

def atomEps (m : Manager) (x : String) (a b : Term) (rel : Rel) (s : Term) : Except String Term := do
  let form ← sides x a b
  let rest ← okOr tooLarge (mkLinTerm m form.others form.constant)
  if form.xCoeff = 0 then .ok (emitCmp m rest zeroReal rel)
  else
    let c ← okOr tooLarge (mkRealConst form.xCoeff)
    .ok (emitEps m (mkAdd [mkMul [c, s], rest]) rel (0 < form.xCoeff))

def atomRewrite (m : Manager) (x : String) (a b : Term) (rel : Rel) : AtomMode → Except String Term
  | .inf atPlusInf => atomInf m x a b rel atPlusInf
  | .eps s => atomEps m x a b rel s

mutual

/-- Every comparison with `x` rewritten; the operands of a node are met from the right. -/
def structuralRewrite (m : Manager) (x : String) (mode : AtomMode) (t : Term) : Except String Term :=
  if !mentionsVar x t then .ok t
  else
    match t with
    | .not a => (structuralRewrite m x mode a).map mkNot
    | .and args => (rewriteAll m x mode args).map mkAnd
    | .or args => (rewriteAll m x mode args).map mkOr
    | .implies a b => do
      let b ← structuralRewrite m x mode b
      let a ← structuralRewrite m x mode a
      .ok (mkImplies a b)
    | .xor a b => do
      let b ← structuralRewrite m x mode b
      let a ← structuralRewrite m x mode a
      .ok (mkXor a b)
    | .ite c t e _ => do
      let e ← structuralRewrite m x mode e
      let t ← structuralRewrite m x mode t
      let c ← structuralRewrite m x mode c
      .ok (mkIte c t e)
    | .cmp op a b => atomRewrite m x a b (.ofOp op) mode
    | .eq a b => atomRewrite m x a b .eq mode
    | _ => .error "lra: unsupported term mentioning the eliminated variable"

def rewriteAll (m : Manager) (x : String) (mode : AtomMode) : List Term → Except String (List Term)
  | [] => .ok []
  | a :: as => do
    let as ← rewriteAll m x mode as
    let a ← structuralRewrite m x mode a
    .ok (a :: as)

end

def infRewrite (m : Manager) (formula : Term) (x : String) (atPlusInf : Bool) : Except String Term :=
  structuralRewrite m x (.inf atPlusInf) formula

def epsRewrite (m : Manager) (formula : Term) (x : String) (s : Term) : Except String Term :=
  structuralRewrite m x (.eps s) formula

end Lra

section

def dedup : List Term → List Term
  | a :: b :: ts => if a = b then dedup (b :: ts) else a :: dedup (b :: ts)
  | ts => ts

def testPoints (m : Manager) (ts : List Term) : List Term :=
  dedup (ts.mergeSort fun t u => m.id t ≤ m.id u)

structure TermOps where
  substitute : Term → Term → Term → Term
  simplify : Term → Term

variable (m : Manager) (ops : TermOps)

def TermOps.instantiate (formula : Term) (x : String) (s : Term) : Term :=
  ops.simplify (ops.substitute formula (.var x .real) s)

namespace FerranteRackoff

def midpoints (half : Term) : List Term → List Term
  | [] => []
  | b :: bs => (b :: bs).map (fun b' => mkMul [half, mkAdd [b, b']]) ++ midpoints half bs

def eliminateExists (x : String) (formula : Term) : Except String Term :=
  if !mentionsVar x formula then .ok formula
  else if findVarSort x formula ≠ some .real then
    .error "ferrante_rackoff: eliminated variable must be of real sort (use CooperEliminator for integers)"
  else do
    let atoms ← Lra.collectXAtoms x formula
    let boundaries ← atoms.mapM fun a =>
      okOr "ferrante_rackoff: coefficient too large to eliminate" (Lra.boundaryTerm m a.form)
    let negInf ← Lra.infRewrite m formula x false
    let posInf ← Lra.infRewrite m formula x true
    let half ← okOr "ferrante_rackoff: internal error building 1/2" (Lra.mkRealConst (1 / 2))
    let interior := (midpoints half (testPoints m boundaries)).map (ops.instantiate formula x)
    .ok (ops.simplify (mkOr ([negInf, posInf] ++ interior)))

end FerranteRackoff

namespace VirtualTerm

def lowerBoundPoints (rel : Rel) (xCoeffPositive : Bool) : Bool × Bool :=
  let rels := [rel, rel.negate].map fun r => if xCoeffPositive then r else r.flip
  (rels.any fun r => r = .ge ∨ r = .eq, rels.any fun r => r = .gt ∨ r = .ne)

def points (kind : Bool × Bool → Bool) (atoms : List (Lra.XAtom × Term)) : List Term :=
  (atoms.filter fun a => kind (lowerBoundPoints a.1.rel (0 < a.1.form.xCoeff))).map Prod.snd

def boundaries (atoms : List Lra.XAtom) : Except String (List (Lra.XAtom × Term)) :=
  (atoms.filter fun a =>
    let p := lowerBoundPoints a.rel (0 < a.form.xCoeff)
    p.1 || p.2).mapM fun a => do
      let s ← okOr "virtual_term: coefficient too large to eliminate" (Lra.boundaryTerm m a.form)
      .ok (a, s)

def eliminateExists (x : String) (formula : Term) : Except String Term :=
  if !mentionsVar x formula then .ok formula
  else if findVarSort x formula ≠ some .real then
    .error ("virtual_term: Loos-Weispfenning virtual substitution requires real sort " ++
      "(use CooperEliminator for integers)")
  else do
    let atoms ← Lra.collectXAtoms x formula
    let bounds ← boundaries m atoms
    let negInf ← Lra.infRewrite m formula x false
    let plain := (testPoints m (points Prod.fst bounds)).map (ops.instantiate formula x)
    let shifted ← (testPoints m (points Prod.snd bounds)).mapM fun s => Lra.epsRewrite m formula x s
    .ok (ops.simplify (mkOr ([negInf] ++ plain ++ shifted.map ops.simplify)))

end VirtualTerm

end

open Interp Filter TestPoints

variable {m : Manager} {K D : Type*} [Field K] [LinearOrder K] [FloorRing K] [DecidableEq D]
  {I : Interp m K D} {x : String} {t a b : Term} {args : List Term} {rel : Rel}

structure IsReal (m : Manager) (t : Term) : Prop where
  wf : m.WellSorted t
  sort : t.sort = .real

theorem IsReal.isNum (h : IsReal m t) : IsNum m t := ⟨h.wf, h.sort ▸ rfl⟩

theorem Uniform.isReal (h : Uniform m .real t) : IsReal m t := ⟨h.wf, h.sort⟩

theorem isReal_mkReal (q : Rational64) : IsReal m (mkReal q) := ⟨(isNum_mkReal q).wf, rfl⟩

section

variable (h : ∀ a ∈ args, a.sort = .real)
include h

theorem ints_eq_nil : args.filterMap intConstOf = [] := by
  rw [filterMap_eq_nil_iff]
  intro a ha
  have hsort := h a ha
  cases a <;> first | rfl | cases hsort

theorem unifiedArithSort_real (hne : args ≠ []) (first : Term) : unifiedArithSort first args = .real := by
  obtain ⟨a, ha⟩ := exists_mem_of_ne_nil args hne
  unfold unifiedArithSort
  rw [if_pos]
  simpa using ⟨a, ha, h a ha⟩

theorem sort_keptArgs (folded : Option Rational64) : ∀ a ∈ keptArgs args folded, a.sort = .real := by
  intro a ha
  unfold keptArgs at ha
  split at ha
  · rcases mem_append.mp ha with ha | ha
    · exact h a (mem_of_mem_filter ha)
    · rw [mem_singleton.mp ha]
      rfl
  · exact h a (mem_of_mem_filter ha)

theorem keptArgs_ne_nil (hne : args ≠ []) (folded : Option Rational64) : keptArgs args folded ≠ [] := by
  unfold keptArgs
  split
  · simp
  · rw [filter_eq_self.mpr]
    · exact hne
    · intro a ha
      have := filterMap_eq_nil_iff.mp (ints_eq_nil h) a ha
      simp [this]

theorem sort_mkAdd (hne : args ≠ []) : (mkAdd args).sort = .real := by
  unfold mkAdd
  split
  · exact absurd rfl hne
  · exact h _ (by simp)
  · dsimp only
    have hkept := sort_keptArgs h
    rw [ints_eq_nil h]
    split_ifs with h1 h2 h3
    · exact unifiedArithSort_real h hne _
    · exact absurd (by simpa using h2) (keptArgs_ne_nil h hne _)
    · exact absurd rfl h3
    · split
      · next hargs => exact hkept _ _ (hargs ▸ mem_singleton_self _)
      · exact unifiedArithSort_real h hne _

theorem sort_mkMul (hne : args ≠ []) : (mkMul args).sort = .real := by
  unfold mkMul
  split
  · exact absurd rfl hne
  · exact h _ (by simp)
  · dsimp only
    have hkept := sort_keptArgs h
    rw [ints_eq_nil h]
    split_ifs with h1 h2 h3
    · rfl
    · exact absurd (unifiedArithSort_real h hne _) h2
    · split
      · next hargs => exact hkept _ _ (hargs ▸ mem_singleton_self _)
      · rfl
      · exact unifiedArithSort_real h hne _
    all_goals exact absurd rfl h3

end

theorem isReal_mkAdd (h : ∀ a ∈ args, IsReal m a) (hne : args ≠ []) : IsReal m (mkAdd args) :=
  ⟨(isNum_mkAdd fun a ha => (h a ha).isNum).wf, sort_mkAdd (fun a ha => (h a ha).sort) hne⟩

theorem isReal_mkMul (h : ∀ a ∈ args, IsReal m a) (hne : args ≠ []) : IsReal m (mkMul args) :=
  ⟨(isNum_mkMul fun a ha => (h a ha).isNum).wf, sort_mkMul (fun a ha => (h a ha).sort) hne⟩

omit [FloorRing K] in
theorem Rel.holds_of_pos {v : K} (h : 0 < v) : rel.Holds v ↔ Lra.infTruth rel true = true := by
  cases rel <;> simp [Holds, Lra.infTruth, h, h.le, h.ne', h.not_gt, h.not_ge]

omit [FloorRing K] in
theorem Rel.holds_of_neg {v : K} (h : v < 0) : rel.Holds v ↔ Lra.infTruth rel false = true := by
  cases rel <;> simp [Holds, Lra.infTruth, h, h.le, h.ne, h.not_gt, h.not_ge]

namespace Lra

variable [IsStrictOrderedRing K]

def cast (K : Type*) [Field K] [LinearOrder K] [IsStrictOrderedRing K] : ℚ →+* K := Rat.castHom K

omit [FloorRing K] in
theorem cast_apply (q : ℚ) : cast K q = q := rfl

theorem reader_sound : reader.Sound .real (cast K) where
  numeric := rfl
  injective := Rat.cast_injective
  numeral := by
    intro t c h
    cases t <;> cases h
    · exact .inl ⟨_, rfl, by simp⟩
    · exact .inr ⟨_, rfl, rfl⟩
  recip := by
    intro inv h
    cases h
    exact ⟨by simp, fun c => by simp⟩

section

variable {f : LinForm ℚ} {k : K}

structure Denotes (I : Interp m K D) (x : String) (t : Term) (k : K) : Prop where
  isReal : IsReal m t
  free : Free x t
  num : I.num t = k

theorem denotes_mkRealConst {q : ℚ} (h : mkRealConst q = some t) : Denotes I x t (cast K q) := by
  obtain ⟨r, hr, rfl⟩ := map_eq_some_iff.mp h
  refine ⟨isReal_mkReal r, free_mkReal r, ?_⟩
  rw [num_mkReal, narrowRational_some hr, cast_apply]

omit [IsStrictOrderedRing K] in
theorem denotes_mkAdd {ts : List Term} (h : ∀ a ∈ ts, IsReal m a ∧ Free x a) (hne : ts ≠ []) :
    Denotes I x (mkAdd ts) (ts.map I.num).sum :=
  ⟨isReal_mkAdd (fun a ha => (h a ha).1) hne, free_mkAdd fun a ha => (h a ha).2, num_mkAdd I ts⟩

omit [IsStrictOrderedRing K] in
theorem Denotes.mkMul {k' : K} (ha : Denotes I x a k) (hb : Denotes I x b k') :
    Denotes I x (mkMul [a, b]) (k * k') := by
  refine ⟨isReal_mkMul (by simpa using ⟨ha.isReal, hb.isReal⟩) (by simp),
    free_mkMul (by simpa using ⟨ha.free, hb.free⟩), ?_⟩
  simp [num_mkMul, ha.num, hb.num]

omit [IsStrictOrderedRing K] in
theorem Denotes.mkAdd {k' : K} (ha : Denotes I x a k) (hb : Denotes I x b k') :
    Denotes I x (mkAdd [a, b]) (k + k') := by
  have hab : ∀ c ∈ [a, b], IsReal m c ∧ Free x c := by
    simpa using ⟨⟨ha.isReal, ha.free⟩, hb.isReal, hb.free⟩
  simpa [ha.num, hb.num] using denotes_mkAdd (I := I) hab (by simp)

omit [IsStrictOrderedRing K] in
theorem denotes_self (h : Uniform m .real t ∧ Free x t) : Denotes I x t (I.num t) := ⟨h.1.isReal, h.2, rfl⟩

theorem denotes_mkPart {e : Term × ℚ} (h : mkPart e = some t) (he : Uniform m .real e.1 ∧ Free x e.1) :
    Denotes I x t (cast K e.2 * I.num e.1) := by
  unfold mkPart at h
  split_ifs at h with hone
  · cases h
    simpa [hone] using denotes_self (I := I) he
  · obtain ⟨c, hc, rfl⟩ := map_eq_some_iff.mp h
    exact (denotes_mkRealConst hc).mkMul (denotes_self he)

variable {parts : List Term}

theorem denotes_parts {es : List (Term × ℚ)} (h : es.mapM mkPart = some parts)
    (hes : ∀ e ∈ es, Uniform m .real e.1 ∧ Free x e.1) : (∀ a ∈ parts, IsReal m a ∧ Free x a) ∧
    (parts.map I.num).sum = othersSum (cast K) I es := by
  have hall := mapM_some h
  clear h
  induction hall with
  | nil => exact ⟨by simp, rfl⟩
  | cons ha _ ih =>
    obtain ⟨he, hes⟩ := forall_mem_cons.mp hes
    have hpart := denotes_mkPart (I := I) ha he
    obtain ⟨hreal, hsum⟩ := ih hes
    refine ⟨forall_mem_cons.mpr ⟨⟨hpart.isReal, hpart.free⟩, hreal⟩, ?_⟩
    rw [map_cons, sum_cons, hsum, hpart.num, othersSum_cons]

theorem denotes_constantParts {parts' : List Term} {q : ℚ} (h : constantParts parts q = some parts')
    (hparts : ∀ a ∈ parts, IsReal m a ∧ Free x a) : (∀ a ∈ parts', IsReal m a ∧ Free x a) ∧ parts' ≠ [] ∧
    (parts'.map I.num).sum = (parts.map I.num).sum + cast K q := by
  unfold constantParts at h
  split_ifs at h with hq
  · obtain ⟨c, hc, rfl⟩ := map_eq_some_iff.mp h
    have hden := denotes_mkRealConst (I := I) (x := x) hc
    refine ⟨fun a ha => ?_, by simp, by simp [hden.num]⟩
    rcases mem_append.mp ha with ha | ha
    · exact hparts a ha
    · rw [mem_singleton.mp ha]
      exact ⟨hden.isReal, hden.free⟩
  · cases h
    push Not at hq
    exact ⟨hparts, hq.2, by simp [hq.1]⟩

omit [IsStrictOrderedRing K] in
theorem denotes_sumParts (h : ∀ a ∈ parts, IsReal m a ∧ Free x a) (hne : parts ≠ []) :
    Denotes I x (sumParts parts) (parts.map I.num).sum := by
  unfold sumParts
  split
  · next part =>
    obtain ⟨hreal, hfree⟩ := h part (by simp)
    exact ⟨hreal, hfree, by simp⟩
  · exact denotes_mkAdd h hne

abbrev Over (m : Manager) (x : String) (f : LinForm ℚ) : Prop :=
  f.Over fun a => Uniform m .real a ∧ Free x a

theorem denotes_mkLinTerm (h : mkLinTerm m f.others f.constant = some t) (hf : Over m x f) :
    Denotes I x t (f.rest (cast K) I) := by
  simp only [mkLinTerm, bind_eq_bind, bind_eq_some_iff] at h
  obtain ⟨parts, hparts, parts', hparts', heq⟩ := h
  cases heq
  have hentries : ∀ e ∈ entries m f.others, Uniform m .real e.1 ∧ Free x e.1 := fun e he =>
    hf e (mem_of_mem_filter ((mergeSort_perm _ _).mem_iff.mp he))
  obtain ⟨hreal, hsum⟩ := denotes_parts (I := I) hparts hentries
  obtain ⟨hreal', hne, hsum'⟩ := denotes_constantParts (I := I) hparts' hreal
  have hden := denotes_sumParts (I := I) hreal' hne
  rwa [hsum', hsum, othersSum_entries] at hden

theorem denotes_boundaryTerm (h : boundaryTerm m f = some t) (hf : Over m x f) (hc : f.xCoeff ≠ 0) :
    Denotes I x t (I.num t) ∧ ∀ k, f.eval (cast K) I k = cast K f.xCoeff * (k - I.num t) := by
  have hden := denotes_mkLinTerm (I := I) h (LinForm.over_scale hf _)
  refine ⟨⟨hden.isReal, hden.free, rfl⟩, fun k => ?_⟩
  have hne : cast K f.xCoeff ≠ 0 := by simpa [cast_apply] using hc
  rw [hden.num, LinForm.rest_scale, LinForm.eval, map_neg, map_inv₀]
  field_simp
  ring

end

end Lra

end Nixie.Qe
