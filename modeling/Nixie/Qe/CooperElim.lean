import Mathlib.Order.Filter.Finite
import Nixie.Qe.CooperValue

/-!
Cooper's elimination is exact over the integers.
-/

namespace Nixie.Qe.Cooper

open Ast Interp Filter TestPoints List

variable {m : Manager} {K D : Type*} [Field K] [LinearOrder K] [FloorRing K] [DecidableEq D]
  [IsStrictOrderedRing K] {I : Interp m K D} {x : String} {t a b : Term} {n u L : ℤ} {raw : Raw}

inductive Raw.CoeffsDvd (L : ℤ) : Raw → Prop
  | and {subs} (h : ∀ r ∈ subs, CoeffsDvd L r) : CoeffsDvd L (.and subs)
  | or {subs} (h : ∀ r ∈ subs, CoeffsDvd L r) : CoeffsDvd L (.or subs)
  | const (b : Bool) : CoeffsDvd L (.const b)
  | free (t : Term) : CoeffsDvd L (.free t)
  | cmp {form} (rel : Rel) (h : form.xCoeff ∣ L) : CoeffsDvd L (.cmp form rel)
  | divis {form} (modulus : ℤ) (negated : Bool) (h : form.xCoeff ∣ L) :
    CoeffsDvd L (.divis modulus form negated)

theorem Raw.CoeffsDvd.mono {L' : ℤ} (h : raw.CoeffsDvd L) (hL : L ∣ L') : raw.CoeffsDvd L' := by
  induction h with
  | and _ ih => exact .and ih
  | or _ ih => exact .or ih
  | const b => exact .const b
  | free t => exact .free t
  | cmp rel h => exact .cmp rel (h.trans hL)
  | divis modulus negated h => exact .divis modulus negated (h.trans hL)

structure Collects (acc out : ℤ) : Prop where
  dvd : acc ∣ out
  pos : 0 < acc → 0 < out

theorem Collects.refl (acc : ℤ) : Collects acc acc := ⟨dvd_rfl, id⟩

theorem Collects.trans {a b c : ℤ} (h : Collects a b) (h' : Collects b c) : Collects a c :=
  ⟨h.dvd.trans h'.dvd, h'.pos ∘ h.pos⟩

theorem collects_lcm {acc k : ℤ} (hk : k ≠ 0) : Collects acc (Int.lcm acc k) where
  dvd := Int.dvd_lcm_left acc k
  pos := fun hacc => by
    have := Int.lcm_ne_zero hacc.ne' hk
    omega

theorem collectAllCoeffs_ok {raws : List Raw}
    (ih : ∀ r ∈ raws, ∀ acc, Collects acc (collectXCoeffLcm r acc) ∧ r.CoeffsDvd (collectXCoeffLcm r acc)) (acc : ℤ) :
    Collects acc (collectAllCoeffs raws acc) ∧ ∀ r ∈ raws, r.CoeffsDvd (collectAllCoeffs raws acc) := by
  induction raws with
  | nil => exact ⟨.refl acc, by simp⟩
  | cons raw raws ihraws =>
    obtain ⟨hraw, hraws⟩ := forall_mem_cons.mp ih
    obtain ⟨hcollects, hdvd⟩ := ihraws hraws
    obtain ⟨hcollects', hdvd'⟩ := hraw (collectAllCoeffs raws acc)
    rw [collectAllCoeffs]
    exact ⟨hcollects.trans hcollects', forall_mem_cons.mpr ⟨hdvd', fun r hr => (hdvd r hr).mono hcollects'.dvd⟩⟩

theorem collects_coeff {c : ℤ} (hc : c ≠ 0) (acc : ℤ) :
    Collects acc (Int.lcm acc |c|) ∧ c ∣ (Int.lcm acc |c| : ℤ) :=
  ⟨collects_lcm (abs_ne_zero.mpr hc), (self_dvd_abs c).trans (Int.dvd_lcm_right _ _)⟩

theorem collectXCoeffLcm_ok (h : raw.Proper m x) (acc : ℤ) :
    Collects acc (collectXCoeffLcm raw acc) ∧ raw.CoeffsDvd (collectXCoeffLcm raw acc) := by
  induction h generalizing acc with
  | and _ ih =>
    obtain ⟨h1, h2⟩ := collectAllCoeffs_ok ih acc
    exact ⟨h1, .and h2⟩
  | or _ ih =>
    obtain ⟨h1, h2⟩ := collectAllCoeffs_ok ih acc
    exact ⟨h1, .or h2⟩
  | const b => exact ⟨.refl acc, .const b⟩
  | free t => exact ⟨.refl acc, .free t⟩
  | cmp rel _ hc =>
    rw [collectXCoeffLcm, if_neg hc]
    exact ⟨(collects_coeff hc acc).1, .cmp rel (collects_coeff hc acc).2⟩
  | divis negated _ hc _ =>
    rw [collectXCoeffLcm, if_neg hc]
    exact ⟨(collects_coeff hc acc).1, .divis _ negated (collects_coeff hc acc).2⟩

section

def NLit.Holds (I : Interp m K D) (u : ℤ) : NLit → Prop
  | .lower b => intOf I b < u
  | .upper b => u < intOf I b
  | .div modulus off => modulus ∣ u + intOf I off
  | .notDiv modulus off => ¬ modulus ∣ u + intOf I off
  | .free t => I.truth t = true
  | .const b => b = true

def NLit.FarDown (I : Interp m K D) (u : ℤ) : NLit → Prop
  | .lower _ => False
  | .upper _ => True
  | l => l.Holds I u

/-- The terms of the literal are integers, its modulus is positive and divides `δ`. -/
def NLit.Proper (I : Interp m K D) : NLit → Prop
  | .lower b | .upper b => Means I b (intOf I b)
  | .div modulus off | .notDiv modulus off => 0 < modulus ∧ Means I off (intOf I off)
  | .free _ | .const _ => True

mutual

def Node.Sat (p : NLit → Prop) : Node → Prop
  | .and subs => allSat p subs
  | .or subs => anySat p subs
  | .lit l => p l

def allSat (p : NLit → Prop) : List Node → Prop
  | [] => True
  | node :: nodes => node.Sat p ∧ allSat p nodes

def anySat (p : NLit → Prop) : List Node → Prop
  | [] => False
  | node :: nodes => node.Sat p ∨ anySat p nodes

end

inductive Node.Each (p : NLit → Prop) : Node → Prop
  | and {subs} (h : ∀ s ∈ subs, Each p s) : Each p (.and subs)
  | or {subs} (h : ∀ s ∈ subs, Each p s) : Each p (.or subs)
  | lit {l} (h : p l) : Each p (.lit l)

variable {p q r : NLit → Prop} {node : Node}

theorem allSat_iff {nodes : List Node} : allSat p nodes ↔ ∀ s ∈ nodes, s.Sat p := by
  induction nodes with
  | nil => simp [allSat]
  | cons s nodes ih => simp [allSat, ih]

theorem anySat_iff {nodes : List Node} : anySat p nodes ↔ ∃ s ∈ nodes, s.Sat p := by
  induction nodes with
  | nil => simp [anySat]
  | cons s nodes ih => simp [anySat, ih]

theorem Node.Each.sat_mono (h : node.Each fun l => p l → q l) (hp : node.Sat p) : node.Sat q := by
  induction h with
  | and _ ih =>
    rw [Node.Sat, allSat_iff] at hp ⊢
    exact fun s hs => ih s hs (hp s hs)
  | or _ ih =>
    rw [Node.Sat, anySat_iff] at hp ⊢
    obtain ⟨s, hs, hsat⟩ := hp
    exact ⟨s, hs, ih s hs hsat⟩
  | lit h => exact h hp

theorem Node.Each.imp (h : node.Each p) (himp : ∀ l, p l → q l) : node.Each q := by
  induction h with
  | and _ ih => exact .and ih
  | or _ ih => exact .or ih
  | lit h => exact .lit (himp _ h)

theorem Node.Each.and_each (h : node.Each p) (h' : node.Each q) : node.Each fun l => p l ∧ q l := by
  induction h with
  | and _ ih =>
    cases h' with
    | and h' => exact .and fun s hs => ih s hs (h' s hs)
  | or _ ih =>
    cases h' with
    | or h' => exact .or fun s hs => ih s hs (h' s hs)
  | lit h =>
    cases h' with
    | lit h' => exact .lit ⟨h, h'⟩

theorem Node.Each.sat_congr (h : node.Each fun l => p l ↔ q l) : node.Sat p ↔ node.Sat q :=
  ⟨(h.imp fun _ hl => hl.mp).sat_mono, (h.imp fun _ hl => hl.mpr).sat_mono⟩

end

section

variable {f : LinForm ℤ} {β : ℤ}

/-- The tree has integers for terms and, at an integer, the truth value of the proposition. -/
structure Normal (I : Interp m K D) (node : Node) (u : ℤ) (P : Prop) : Prop where
  proper : node.Each (NLit.Proper I)
  sat : node.Sat (NLit.Holds I u) ↔ P

omit [IsStrictOrderedRing K] in
theorem means_shift {k : ℤ} (h : Means I t n) : Means I (shift t k) (n + k) := by
  unfold shift
  split_ifs with hk
  · simpa [hk] using h
  · exact means_mkAdd h (means_mkInt k)

theorem normal_boundNode (h : Means I b β) (rel : Rel) :
    Normal I (boundNode b rel) u (rel.Holds ((u - β : ℤ) : K)) := by
  have hup := means_shift (k := 1) h
  have hdown := means_shift (k := -1) h
  have hlt : ((u - β : ℤ) : K) < 0 ↔ u - β < 0 := by exact_mod_cast Iff.rfl
  have hle : ((u - β : ℤ) : K) ≤ 0 ↔ u - β ≤ 0 := by exact_mod_cast Iff.rfl
  have hgt : 0 < ((u - β : ℤ) : K) ↔ 0 < u - β := by exact_mod_cast Iff.rfl
  have hge : 0 ≤ ((u - β : ℤ) : K) ↔ 0 ≤ u - β := by exact_mod_cast Iff.rfl
  have hzero : ((u - β : ℤ) : K) = 0 ↔ u - β = 0 := Int.cast_eq_zero
  cases rel with
  | lt =>
    refine ⟨.lit h.self, ?_⟩
    simp only [boundNode, Node.Sat, NLit.Holds, Rel.Holds, h.intOf_eq, hlt]
    omega
  | le =>
    refine ⟨.lit hup.self, ?_⟩
    simp only [boundNode, Node.Sat, NLit.Holds, Rel.Holds, hup.intOf_eq, hle]
    omega
  | gt =>
    refine ⟨.lit h.self, ?_⟩
    simp only [boundNode, Node.Sat, NLit.Holds, Rel.Holds, h.intOf_eq, hgt]
    omega
  | ge =>
    refine ⟨.lit hdown.self, ?_⟩
    simp only [boundNode, Node.Sat, NLit.Holds, Rel.Holds, hdown.intOf_eq, hge]
    omega
  | eq =>
    refine ⟨.and (by simpa using ⟨.lit hdown.self, .lit hup.self⟩), ?_⟩
    simp only [boundNode, Node.Sat, allSat, NLit.Holds, Rel.Holds, hdown.intOf_eq, hup.intOf_eq, hzero, and_true]
    omega
  | ne =>
    refine ⟨.or (by simpa using ⟨.lit h.self, .lit h.self⟩), ?_⟩
    simp only [boundNode, Node.Sat, anySat, NLit.Holds, Rel.Holds, h.intOf_eq, ne_eq, hzero, or_false]
    omega

theorem scale_ok (hc : f.xCoeff ≠ 0) (hdvd : f.xCoeff ∣ L) (hL : 0 < L) :
    0 < L / |f.xCoeff| ∧ L = |f.xCoeff| * (L / |f.xCoeff|) := by
  have hpos : 0 < |f.xCoeff| := abs_pos.mpr hc
  have habs : |f.xCoeff| ∣ L := (abs_dvd _ _).mpr hdvd
  exact ⟨Int.ediv_pos_of_pos_of_dvd hL hpos.le habs, (Int.mul_ediv_cancel' habs).symm⟩

theorem means_scaledRest (hf : Over m x f) : Means I (scaledRest m L f) (rest I f * (L / |f.xCoeff|)) := by
  rw [← rest_scale]
  exact means_mkLinearTerm (LinForm.over_scale hf _)

theorem normal_convertCmp (hf : Over m x f) (hc : f.xCoeff ≠ 0) (hdvd : f.xCoeff ∣ L) (hL : 0 < L)
    (rel : Rel) (n : ℤ) : Normal I (convertCmp m L f rel) (L * n) (rel.Holds (eval I f n : K)) := by
  obtain ⟨hk, hLk⟩ := scale_ok hc hdvd hL
  have hrest := means_scaledRest (I := I) (L := L) hf
  generalize L / |f.xCoeff| = k at hk hLk hrest
  have hscale : rel.Holds (eval I f n : K) ↔ rel.Holds (((k * eval I f n : ℤ)) : K) := by
    rw [Int.cast_mul, holds_mul_of_pos (by exact_mod_cast hk)]
  unfold convertCmp
  dsimp only
  split_ifs with hneg
  · have hnode := normal_boundNode (u := L * n) hrest rel.flip
    refine ⟨hnode.proper, hnode.sat.trans ?_⟩
    rw [hscale, holds_flip, ← Int.cast_neg, hLk, abs_of_neg hneg, eval]
    ring_nf
  · have hnode := normal_boundNode (u := L * n) (means_mkNeg hrest) rel
    refine ⟨hnode.proper, hnode.sat.trans ?_⟩
    rw [hscale, hLk, abs_of_nonneg (not_lt.mp hneg), eval]
    ring_nf

theorem normal_convertDivis {d : ℤ} (hf : Over m x f) (hc : f.xCoeff ≠ 0) (hdvd : f.xCoeff ∣ L) (hL : 0 < L)
    (hd : 0 < d) (negated : Bool) (n : ℤ) :
    Normal I (convertDivis m L d f negated) (L * n) ((d ∣ eval I f n) ↔ negated = false) := by
  obtain ⟨hk, hLk⟩ := scale_ok hc hdvd hL
  have hrest := means_scaledRest (I := I) (L := L) hf
  unfold convertDivis
  dsimp only
  generalize L / |f.xCoeff| = k at hk hLk hrest ⊢
  obtain ⟨off, hoff⟩ : ∃ off, Means I (if f.xCoeff < 0 then mkNeg (scaledRest m L f) else scaledRest m L f) off ∧
      (d * k ∣ L * n + off ↔ d ∣ eval I f n) := by
    split_ifs with hneg
    · refine ⟨_, means_mkNeg hrest, ?_⟩
      have heq : L * n + -(rest I f * k) = -(eval I f n * k) := by
        rw [hLk, abs_of_neg hneg, eval]
        ring
      rw [heq, dvd_neg, Int.mul_dvd_mul_iff_right hk.ne']
    · refine ⟨_, hrest, ?_⟩
      have heq : L * n + rest I f * k = eval I f n * k := by
        rw [hLk, abs_of_nonneg (not_lt.mp hneg), eval]
        ring
      rw [heq, Int.mul_dvd_mul_iff_right hk.ne']
  cases negated
  · refine ⟨.lit ⟨mul_pos hd hk, hoff.1.self⟩, ?_⟩
    simp only [Bool.false_eq_true, reduceIte, Node.Sat, NLit.Holds, hoff.1.intOf_eq, hoff.2, iff_true]
  · refine ⟨.lit ⟨mul_pos hd hk, hoff.1.self⟩, ?_⟩
    simp only [reduceIte, Node.Sat, NLit.Holds, hoff.1.intOf_eq, hoff.2, Bool.true_eq_false, iff_false]

theorem convertAll_eq_map (raws : List Raw) : convertAll m L raws = raws.map (convert m L) := by
  induction raws with
  | nil => rfl
  | cons raw raws ih => rw [convertAll, ih, map_cons]

theorem normal_convert (h : raw.Proper m x) (hdvd : raw.CoeffsDvd L) (hL : 0 < L) (n : ℤ) :
    Normal I (convert m L raw) (L * n) (raw.Holds I n) := by
  induction h with
  | @and subs _ ih =>
    cases hdvd with
    | and hdvd =>
      have hsubs : ∀ r ∈ subs, Normal I (convert m L r) (L * n) (r.Holds I n) := fun r hr => ih r hr (hdvd r hr)
      rw [convert, convertAll_eq_map]
      refine ⟨.and (by simpa using fun r hr => (hsubs r hr).proper), ?_⟩
      rw [Node.Sat, allSat_iff, Raw.Holds, allHold_iff, List.forall_mem_map]
      exact forall₂_congr fun r hr => (hsubs r hr).sat
  | @or subs _ ih =>
    cases hdvd with
    | or hdvd =>
      have hsubs : ∀ r ∈ subs, Normal I (convert m L r) (L * n) (r.Holds I n) := fun r hr => ih r hr (hdvd r hr)
      rw [convert, convertAll_eq_map]
      refine ⟨.or (by simpa using fun r hr => (hsubs r hr).proper), ?_⟩
      rw [Node.Sat, anySat_iff, Raw.Holds, anyHolds_iff]
      simp only [List.mem_map, exists_exists_and_eq_and]
      exact exists_congr fun r => and_congr_right fun hr => (hsubs r hr).sat
  | const b => exact ⟨.lit trivial, Iff.rfl⟩
  | free t => exact ⟨.lit trivial, Iff.rfl⟩
  | cmp rel hover hc =>
    cases hdvd with
    | cmp _ hdvd => exact normal_convertCmp hover hc hdvd hL rel n
  | divis negated hover hc hd =>
    cases hdvd with
    | divis _ _ hdvd => exact normal_convertDivis hover hc hdvd hL hd negated n

end

section

variable {node : Node} {δ : ℤ}

def NLit.ModulusDvd (δ : ℤ) : NLit → Prop
  | .div modulus _ | .notDiv modulus _ => modulus ∣ δ
  | _ => True

theorem NLit.ModulusDvd.mono {δ' : ℤ} {l : NLit} (h : l.ModulusDvd δ) (hδ : δ ∣ δ') : l.ModulusDvd δ' := by
  cases l with
  | div modulus off => exact dvd_trans h hδ
  | notDiv modulus off => exact dvd_trans h hδ
  | _ => trivial

theorem collectAllModuli_ok {nodes : List Node}
    (ih : ∀ s ∈ nodes, ∀ acc, Collects acc (collectModuliLcm s acc) ∧
    s.Each (NLit.ModulusDvd (collectModuliLcm s acc))) (acc : ℤ) :
    Collects acc (collectAllModuli nodes acc) ∧ ∀ s ∈ nodes,
    s.Each (NLit.ModulusDvd (collectAllModuli nodes acc)) := by
  induction nodes with
  | nil => exact ⟨.refl acc, by simp⟩
  | cons node nodes ihnodes =>
    obtain ⟨hnode, hnodes⟩ := forall_mem_cons.mp ih
    obtain ⟨hcollects, hdvd⟩ := ihnodes hnodes
    obtain ⟨hcollects', hdvd'⟩ := hnode (collectAllModuli nodes acc)
    rw [collectAllModuli]
    exact ⟨hcollects.trans hcollects', forall_mem_cons.mpr
      ⟨hdvd', fun s hs => (hdvd s hs).imp fun _ hl => hl.mono hcollects'.dvd⟩⟩

omit [IsStrictOrderedRing K] in
theorem collectModuliLcm_ok (h : node.Each (NLit.Proper I)) (acc : ℤ) :
    Collects acc (collectModuliLcm node acc) ∧ node.Each (NLit.ModulusDvd (collectModuliLcm node acc)) := by
  induction h generalizing acc with
  | and _ ih =>
    obtain ⟨h1, h2⟩ := collectAllModuli_ok ih acc
    exact ⟨h1, .and h2⟩
  | or _ ih =>
    obtain ⟨h1, h2⟩ := collectAllModuli_ok ih acc
    exact ⟨h1, .or h2⟩
  | @lit l hl =>
    cases l with
    | div modulus off => exact ⟨collects_lcm hl.1.ne', .lit (Int.dvd_lcm_right _ _)⟩
    | notDiv modulus off => exact ⟨collects_lcm hl.1.ne', .lit (Int.dvd_lcm_right _ _)⟩
    | _ => exact ⟨.refl acc, .lit trivial⟩

def NLit.BoundIn (out : List Term) : NLit → Prop
  | .lower b => b ∈ out
  | _ => True

structure Gathers (I : Interp m K D) (out out' : List Term) : Prop where
  subset : out ⊆ out'
  means : (∀ b ∈ out, Means I b (intOf I b)) → ∀ b ∈ out', Means I b (intOf I b)

omit [IsStrictOrderedRing K] in
theorem Gathers.refl (out : List Term) : Gathers I out out := ⟨fun _ h => h, id⟩

omit [IsStrictOrderedRing K] in
theorem Gathers.trans {a b c : List Term} (h : Gathers I a b) (h' : Gathers I b c) : Gathers I a c :=
  ⟨fun _ hb => h'.subset (h.subset hb), h'.means ∘ h.means⟩

theorem NLit.BoundIn.mono {l : NLit} {out out' : List Term} (h : l.BoundIn out) (hsub : out ⊆ out') :
    l.BoundIn out' := by
  cases l with
  | lower b => exact hsub h
  | _ => trivial

omit [IsStrictOrderedRing K] in
theorem collectAllLowerBounds_ok {nodes : List Node}
    (ih : ∀ s ∈ nodes, ∀ out, Gathers I out (collectLowerBounds s out) ∧
    s.Each (NLit.BoundIn (collectLowerBounds s out))) (out : List Term) :
    Gathers I out (collectAllLowerBounds nodes out) ∧ ∀ s ∈ nodes,
    s.Each (NLit.BoundIn (collectAllLowerBounds nodes out)) := by
  induction nodes with
  | nil => exact ⟨.refl out, by simp⟩
  | cons node nodes ihnodes =>
    obtain ⟨hnode, hnodes⟩ := forall_mem_cons.mp ih
    obtain ⟨hgathers, hin⟩ := ihnodes hnodes
    obtain ⟨hgathers', hin'⟩ := hnode (collectAllLowerBounds nodes out)
    rw [collectAllLowerBounds]
    exact ⟨hgathers.trans hgathers', forall_mem_cons.mpr
      ⟨hin', fun s hs => (hin s hs).imp fun _ hl => hl.mono hgathers'.subset⟩⟩

omit [IsStrictOrderedRing K] in
theorem collectLowerBounds_ok (h : node.Each (NLit.Proper I)) (out : List Term) :
    Gathers I out (collectLowerBounds node out) ∧ node.Each (NLit.BoundIn (collectLowerBounds node out)) := by
  induction h generalizing out with
  | and _ ih =>
    obtain ⟨h1, h2⟩ := collectAllLowerBounds_ok ih out
    exact ⟨h1, .and h2⟩
  | or _ ih =>
    obtain ⟨h1, h2⟩ := collectAllLowerBounds_ok ih out
    exact ⟨h1, .or h2⟩
  | @lit l hl =>
    cases l with
    | lower b =>
      rw [collectLowerBounds]
      split_ifs with hmem
      · exact ⟨.refl out, .lit hmem⟩
      · refine ⟨⟨subset_append_left _ _, fun hout c hc => ?_⟩, .lit (by simp [NLit.BoundIn])⟩
        rcases mem_append.mp hc with hc | hc
        · exact hout c hc
        · rw [mem_singleton.mp hc]
          exact hl
    | _ => exact ⟨.refl out, .lit trivial⟩

section

variable {l : NLit}

omit [IsStrictOrderedRing K] in
theorem holds_add_period (h : l.ModulusDvd δ) (j : ℤ) : l.FarDown I u ↔ l.FarDown I (u + j * δ) := by
  have hdvd : ∀ {d off : ℤ}, d ∣ δ → (d ∣ u + off ↔ d ∣ u + j * δ + off) := by
    intro d off hd
    rw [show u + j * δ + off = u + off + j * δ by ring]
    exact (dvd_add_left (hd.mul_left j)).symm
  cases l with
  | div modulus off => exact hdvd h
  | notDiv modulus off => exact not_congr (hdvd h)
  | _ => exact Iff.rfl

omit [IsStrictOrderedRing K] in
theorem eventually_farDown (l : NLit) : ∀ᶠ u in atBot, (l.Holds I u ↔ l.FarDown I u) := by
  cases l with
  | lower b =>
    filter_upwards [eventually_le_atBot (intOf I b)] with u hu
    exact iff_of_false (not_lt.mpr hu) id
  | upper b =>
    filter_upwards [eventually_lt_atBot (intOf I b)] with u hu
    exact iff_of_true hu trivial
  | _ => exact Eventually.of_forall fun u => Iff.rfl

omit [IsStrictOrderedRing K] in
theorem Node.Each.eventually {p : NLit → Prop} (h : node.Each p) :
    ∀ᶠ u in atBot, (node.Sat (NLit.Holds I u) ↔ node.Sat (NLit.FarDown I u)) := by
  have hall : ∀ᶠ u in atBot, node.Each fun l => l.Holds I u ↔ l.FarDown I u := by
    induction h with
    | @and subs _ ih =>
      have hsubs : ∀ᶠ u in atBot, ∀ s ∈ subs, s.Each fun l => l.Holds I u ↔ l.FarDown I u := by
        exact (eventually_all_finite (finite_toSet subs)).mpr ih
      exact hsubs.mono fun u hu => .and hu
    | @or subs _ ih =>
      have hsubs : ∀ᶠ u in atBot, ∀ s ∈ subs, s.Each fun l => l.Holds I u ↔ l.FarDown I u := by
        exact (eventually_all_finite (finite_toSet subs)).mpr ih
      exact hsubs.mono fun u hu => .or hu
    | @lit l _ => exact (eventually_farDown l).mono fun u hu => .lit hu
  exact hall.mono fun u hu => hu.sat_congr

omit [IsStrictOrderedRing K] in
theorem holds_sub_period {out : List Term} (hδ : 0 < δ) (hmod : l.ModulusDvd δ) (hin : l.BoundIn out)
    (hfar : ∀ b ∈ out, ∀ j ∈ Finset.Icc 1 δ, u ≠ intOf I b + j) (h : l.Holds I u) : l.Holds I (u - δ) := by
  cases l with
  | lower b =>
    simp only [NLit.Holds] at h ⊢
    by_contra hlow
    exact hfar b hin (u - intOf I b) (Finset.mem_Icc.mpr (by omega)) (by ring)
  | upper b =>
    simp only [NLit.Holds] at h ⊢
    omega
  | div modulus off =>
    have := (holds_add_period (I := I) (u := u) (l := .div modulus off) hmod (-1)).mp h
    simpa [NLit.FarDown, sub_eq_add_neg] using this
  | notDiv modulus off =>
    have := (holds_add_period (I := I) (u := u) (l := .notDiv modulus off) hmod (-1)).mp h
    simpa [NLit.FarDown, sub_eq_add_neg] using this
  | free t => exact h
  | const b => exact h

end

section

variable {l : NLit} {xval : XVal}

theorem truth_materializeDiv {d : ℤ} {v off : Term} (hv : Means I v u) (hoff : Means I off n) (hd : 0 < d) :
    I.truth (m.mkEq (mkMod (mkAdd [v, off]) (mkInt d)) (mkInt 0)) = true ↔ d ∣ u + n := by
  have hmod := means_mkMod (means_mkAdd hv hoff) hd
  have hzero : IsNum m (mkInt 0) := isNum_intConst 0
  have hs : (mkMod (mkAdd [v, off]) (mkInt d)).sort.Compatible (mkInt 0).sort := .inr ⟨hmod.isNum.sort, rfl⟩
  rw [(isEq_mkEq hmod.isNum.wf hzero.wf hs).truth I, decide_eq_true_iff, hmod.isNum.eval_eq,
    hzero.eval_eq, hmod.num, num_mkInt, Int.dvd_iff_emod_eq_zero]
  simp

theorem truth_materializeLit_at {v : Term} (hv : Means I v u) (hl : l.Proper I) :
    I.truth (materializeLit m l (.at v)) = true ↔ l.Holds I u := by
  cases l with
  | lower b =>
    rw [materializeLit, mkLt, truth_mkCmp, accepts_compare, decide_eq_true_iff, hl.num, hv.num]
    exact Int.cast_lt
  | upper b =>
    rw [materializeLit, mkLt, truth_mkCmp, accepts_compare, decide_eq_true_iff, hl.num, hv.num]
    exact Int.cast_lt
  | div modulus off => exact truth_materializeDiv hv hl.2 hl.1
  | notDiv modulus off =>
    simp only [materializeLit, materializeDiv, reduceIte, truth_mkNot, Bool.not_eq_true', NLit.Holds]
    rw [← truth_materializeDiv hv hl.2 hl.1, Bool.not_eq_true]
  | free t => exact Iff.rfl
  | const b => cases b <;> simp [materializeLit, NLit.Holds]

theorem truth_materializeLit_minusInf (j : ℤ) (hl : l.Proper I) :
    I.truth (materializeLit m l (.minusInf j)) = true ↔ l.FarDown I j := by
  cases l with
  | lower b => simp [materializeLit, NLit.FarDown]
  | upper b => simp [materializeLit, NLit.FarDown]
  | div modulus off => exact truth_materializeDiv (means_mkInt j) hl.2 hl.1
  | notDiv modulus off =>
    simp only [materializeLit, materializeDiv, reduceIte, truth_mkNot, Bool.not_eq_true', NLit.FarDown, NLit.Holds]
    rw [← truth_materializeDiv (means_mkInt j) hl.2 hl.1, Bool.not_eq_true]
  | free t => exact Iff.rfl
  | const b => cases b <;> simp [materializeLit, NLit.FarDown, NLit.Holds]

theorem materializeAll_eq_map (nodes : List Node) :
    materializeAll m nodes xval = nodes.map fun s => materialize m s xval := by
  induction nodes with
  | nil => rfl
  | cons node nodes ih => rw [materializeAll, ih, map_cons]

omit [IsStrictOrderedRing K] in
theorem truth_materialize {p : NLit → Prop} (h : node.Each fun l => I.truth (materializeLit m l xval) = true ↔ p l) :
    I.truth (materialize m node xval) = true ↔ node.Sat p := by
  induction h with
  | @and subs _ ih =>
    rw [materialize, truth_mkAnd, materializeAll_eq_map, all_map, all_eq_true, Node.Sat, allSat_iff]
    exact forall₂_congr ih
  | @or subs _ ih =>
    rw [materialize, truth_mkOr, materializeAll_eq_map, any_map, any_eq_true, Node.Sat, anySat_iff]
    exact exists_congr fun s => and_congr_right (ih s)
  | lit h => exact h

theorem truth_materialize_at {v : Term} (hv : Means I v u) (h : node.Each (NLit.Proper I)) :
    I.truth (materialize m node (.at v)) = true ↔ node.Sat (NLit.Holds I u) :=
  truth_materialize (h.imp fun _ => truth_materializeLit_at hv)

theorem truth_materialize_minusInf (j : ℤ) (h : node.Each (NLit.Proper I)) :
    I.truth (materialize m node (.minusInf j)) = true ↔ node.Sat (NLit.FarDown I j) :=
  truth_materialize (h.imp fun _ => truth_materializeLit_minusInf j)

end

theorem mem_upTo {j : ℤ} : j ∈ upTo δ ↔ j ∈ Finset.Icc 1 δ := by
  simp only [upTo, List.mem_map, List.mem_range, Finset.mem_Icc]
  constructor
  · rintro ⟨i, hi, rfl⟩
    omega
  · intro hj
    exact ⟨(j - 1).toNat, by omega, by omega⟩

theorem exists_disjunct (h : node.Each (NLit.Proper I)) {bset : List Term} (hb : ∀ b ∈ bset, Means I b (intOf I b)) :
    I.truth (mkOr (disjuncts m node δ bset)) = true ↔ (∃ j ∈ Finset.Icc 1 δ, node.Sat (NLit.FarDown I j)) ∨ ∃ b ∈
    (bset.map (intOf I)).toFinset, ∃ j ∈ Finset.Icc 1 δ, node.Sat (NLit.Holds I (b + j)) := by
  rw [truth_mkOr, List.any_eq_true]
  simp only [disjuncts, List.mem_append, List.mem_map, List.mem_flatMap, or_and_right, exists_or]
  refine or_congr ?_ ?_
  · constructor
    · rintro ⟨_, ⟨j, hj, rfl⟩, htrue⟩
      exact ⟨j, mem_upTo.mp hj, (truth_materialize_minusInf j h).mp htrue⟩
    · rintro ⟨j, hj, hsat⟩
      exact ⟨_, ⟨j, mem_upTo.mpr hj, rfl⟩, (truth_materialize_minusInf j h).mpr hsat⟩
  · constructor
    · rintro ⟨_, ⟨b, hmem, j, hj, rfl⟩, htrue⟩
      refine ⟨intOf I b, by simpa using ⟨b, hmem, rfl⟩, j, mem_upTo.mp hj, ?_⟩
      exact (truth_materialize_at (means_mkAdd (hb b hmem) (means_mkInt j)) h).mp htrue
    · rintro ⟨β, hβ, j, hj, hsat⟩
      obtain ⟨b, hmem, rfl⟩ := List.mem_map.mp (List.mem_toFinset.mp hβ)
      refine ⟨_, ⟨b, hmem, j, mem_upTo.mpr hj, rfl⟩, ?_⟩
      exact (truth_materialize_at (means_mkAdd (hb b hmem) (means_mkInt j)) h).mpr hsat

theorem exists_sat_iff (h : node.Each (NLit.Proper I)) : (∃ u, node.Sat (NLit.Holds I u)) ↔
    I.truth (mkOr (disjuncts m node (collectModuliLcm node 1) (collectLowerBounds node []))) = true := by
  obtain ⟨hcollects, hmod⟩ := collectModuliLcm_ok h 1
  obtain ⟨hgathers, hin⟩ := collectLowerBounds_ok h []
  generalize collectModuliLcm node 1 = δ at hcollects hmod ⊢
  generalize collectLowerBounds node [] = bset at hgathers hin ⊢
  have hδ : 0 < δ := hcollects.pos one_pos
  rw [exists_disjunct h (hgathers.means (by simp))]
  refine exists_iff_residue_or_bound hδ (fun u j => ?_) h.eventually fun u hu hfar => ?_
  · exact (hmod.imp fun _ hl => holds_add_period hl j).sat_congr
  · have hfar' : ∀ b ∈ bset, ∀ j ∈ Finset.Icc 1 δ, u ≠ intOf I b + j := fun b hb =>
      hfar (intOf I b) (by simpa using ⟨b, hb, rfl⟩)
    exact ((hmod.and_each hin).imp fun _ hl => holds_sub_period hδ hl.1 hl.2 hfar').sat_mono hu

theorem withPeriod_ok {P : ℤ → Prop} (hL : 0 < L) (h : ∀ n, Normal I node (L * n) (P n)) : (withPeriod L node).Each
    (NLit.Proper I) ∧ ((∃ u, (withPeriod L node).Sat (NLit.Holds I u)) ↔ ∃ n, P n) := by
  have hzero := means_mkInt (I := I) 0
  unfold withPeriod
  split_ifs with hone
  · have hdiv : NLit.Proper I (.div L (mkInt 0)) := ⟨hL, hzero.self⟩
    refine ⟨.and (by simpa using ⟨(h 0).proper, .lit hdiv⟩), ?_⟩
    simp only [Node.Sat, allSat, NLit.Holds, hzero.intOf_eq, add_zero, and_true]
    constructor
    · rintro ⟨u, hu, n, rfl⟩
      exact ⟨n, (h n).sat.mp hu⟩
    · rintro ⟨n, hn⟩
      exact ⟨L * n, (h n).sat.mpr hn, dvd_mul_right L n⟩
  · obtain rfl : L = 1 := by omega
    refine ⟨(h 0).proper, exists_congr fun n => ?_⟩
    simpa using (h n).sat

variable {φ ψ : Term}

omit [IsStrictOrderedRing K] [LinearOrder K] [FloorRing K] [DecidableEq D] in
theorem setInt_setInt (I : Interp m K D) (x : String) (n k : ℤ) : setInt (setInt I x n) x k = setInt I x k :=
  assign_assign

/-- Whatever the eliminator returns is true, at every value of the variable, exactly if some integer
makes the formula true. -/
theorem cooper_exact (hφ : Formula m .int x φ) (h : eliminateExists m x φ = .ok ψ) (I : Interp m K D) (n : ℤ) :
    (setInt I x n).truth ψ = true ↔ ∃ k : ℤ, (setInt I x k).truth φ = true := by
  unfold eliminateExists at h
  by_cases hx : Free x φ
  · rw [if_pos (by simpa [Free] using hx)] at h
    cases h
    simp only [setInt, truth_assign_of_free hx, exists_const]
  rw [if_neg (by simpa [Free] using hx)] at h
  split_ifs at h with hsort
  obtain ⟨raw, hraw, h⟩ := bind_ok.mp h
  dsimp only at h
  split_ifs at h with hδ htotal
  cases h
  have hstands : Stands (setInt I x n) x φ true raw := stands_buildRaw hφ hraw
  obtain ⟨hcollects, hdvd⟩ := collectXCoeffLcm_ok hstands.proper 1
  have hL := hcollects.pos one_pos
  obtain ⟨hproper, hexists⟩ := withPeriod_ok (I := setInt I x n) hL (normal_convert hstands.proper hdvd hL)
  rw [← exists_sat_iff hproper, hexists]
  refine exists_congr fun k => ?_
  rw [hstands.holds, setInt_setInt]

def doubledMultiple : Term :=
  .and [.cmp .lt (.var "y" .int) (.mul [.intConst 2, .var "x" .int] .int),
    .eq (.mod (.var "x" .int) (.intConst 3) .int) (.intConst 0)]

theorem uniform_leaf (hsort : t.sort = .int) (hfits : plainManager.Fits t) (h : t.children = []) :
    Uniform plainManager .int t := .mk (.mk hfits (by simp [h])) hsort (by simp [h])

theorem formula_doubledMultiple : Formula plainManager .int "x" doubledMultiple := by
  have hvar : ∀ name, Uniform plainManager .int (.var name .int) := fun name => uniform_leaf rfl trivial rfl
  have hint : ∀ n, Uniform plainManager .int (.intConst n) := fun n => uniform_leaf rfl trivial rfl
  have hmul : Uniform plainManager .int (.mul [.intConst 2, .var "x" .int] .int) := by
    refine .mk (.mk ⟨by simp [Term.sort, SortId.isNumeric], rfl⟩ ?_) rfl ?_
    · simpa [Term.children] using ⟨(hint 2).wf, (hvar "x").wf⟩
    · simpa [Term.children] using ⟨fun _ => hint 2, fun _ => hvar "x"⟩
  have hmod : Uniform plainManager .int (.mod (.var "x" .int) (.intConst 3) .int) := by
    refine .mk (.mk ⟨rfl, rfl, rfl⟩ ?_) rfl ?_
    · simpa [Term.children] using ⟨(hvar "x").wf, (hint 3).wf⟩
    · simpa [Term.children] using ⟨fun _ => hvar "x", fun _ => hint 3⟩
  refine .and ?_
  simpa using ⟨.cmp .lt (hvar "y") hmul, .eq hmod (hint 0)⟩

theorem cooper_exact_doubledMultiple : ∃ ψ, eliminateExists plainManager "x" doubledMultiple = .ok ψ ∧
    (setInt halfInterp "x" 7).truth ψ = true := by
  have hok : (eliminateExists plainManager "x" doubledMultiple).isOk = true := by with_unfolding_all decide
  cases hψ : eliminateExists plainManager "x" doubledMultiple with
  | error e =>
    rw [hψ] at hok
    cases hok
  | ok ψ =>
    refine ⟨ψ, rfl, (cooper_exact formula_doubledMultiple hψ halfInterp 7).mpr ⟨3, ?_⟩⟩
    with_unfolding_all decide

end

end Nixie.Qe.Cooper
