import Nixie.Arithmetic.Simplex

/-!
A move keeps the tableau feasible, and patching ends in an integral point or where it began.
-/

namespace Nixie.Arithmetic

open List Option Function DeltaRational BigDeltaRational TableRow

namespace BigDeltaRational

def Le (a b : BigDeltaRational) : Prop := a.real < b.real ∨ a.real = b.real ∧ a.delta ≤ b.delta

theorem lt_eq_false_iff {a b : BigDeltaRational} : b.lt a = false ↔ a.Le b := by
  unfold lt Le
  rw [Bool.or_eq_false_iff, Bool.and_eq_false_iff, decide_eq_false_iff_not, decide_eq_false_iff_not,
    decide_eq_false_iff_not, not_lt, not_lt, le_iff_lt_or_eq]
  constructor
  · rintro ⟨hlt | heq, hne | hle⟩
    · exact .inl hlt
    · exact .inl hlt
    · exact absurd heq.symm hne
    · exact .inr ⟨heq, hle⟩
  · rintro (hlt | ⟨heq, hle⟩)
    · exact ⟨.inl hlt, .inl hlt.ne'⟩
    · exact ⟨.inr heq, .inr hle⟩

def shift (d : BigDeltaRational) (e : ℚ) : BigDeltaRational := ⟨d.real + e, d.delta⟩

@[simp] theorem shift_zero (d : BigDeltaRational) : d.shift 0 = d := by rw [shift, add_zero]

theorem isIntegral_iff {d : BigDeltaRational} : d.isIntegral = true ↔ ∃ n : ℤ, d = ⟨n, 0⟩ := by
  unfold isIntegral
  rw [Bool.and_eq_true, decide_eq_true_iff, decide_eq_true_iff]
  constructor
  · rintro ⟨hreal, hdelta⟩
    exact ⟨d.real.num, by cases d; simp_all [Rat.den_eq_one_iff]⟩
  · rintro ⟨n, rfl⟩
    exact ⟨Rat.den_intCast n, rfl⟩

end BigDeltaRational

def TableRow.big : TableRow → BigLinExpr
  | lin row => ⟨row.terms.map fun t => (t.1, t.2.value), row.constant.value⟩
  | linNoInt row => ⟨row.terms.map fun t => (t.1, t.2.value), row.constant.value⟩
  | int row => ⟨row.terms.map fun t => (t.1, t.2 / row.denom), row.constNum / row.denom⟩

namespace Simplex

def content (s : Simplex) (b : ℕ) : Option BigLinExpr := (s.tableau b).map big

def Nonbasic (s : Simplex) (v : ℕ) : Prop := s.content v = none ∧ s.wideRows v = none

/-- What holds of the tableau: no variable occurs twice in a row, a narrow row excludes a wide row and
a wide point, rows are about variables without one, the columns list all rows, and the numerators are
not zero and in the bound. -/
structure Consistent (s : Simplex) : Prop where
  nodup : ∀ b e, s.content b = some e → (e.terms.map Prod.fst).Nodup
  narrow : ∀ b e, s.content b = some e → s.wideRows b = none ∧ s.widePoints b = none
  nonbasic : ∀ b e, s.content b = some e ∨ s.wideRows b = some e → ∀ t ∈ e.terms, s.Nonbasic t.1
  column : ∀ b e, s.content b = some e ∨ s.wideRows b = some e → ∀ t ∈ e.terms,
    ∃ col, s.columns t.1 = some col ∧ b ∈ col
  budget : ∀ b row, s.tableau b = some (.int row) → row.denom ≤ 2 ^ 62 ∧ ∀ t ∈ row.terms, |t.2| ≤ 2 ^ 62 ∧ t.2 ≠ 0

structure Feasible (s : Simplex) : Prop where
  rows : ∀ b e, s.content b = some e → ∃ p, s.pointValueExact b = some p ∧ s.evalBigRaw e = some p
  wideRows : ∀ b e, s.wideRows b = some e → ∃ p, s.pointValueExact b = some p ∧ s.evalBigRaw e = some p
  lower : ∀ v lo, s.lower v = some lo → ∃ p, s.pointValueExact v = some p ∧ lo.toBig.Le p
  upper : ∀ v hi, s.upper v = some hi → ∃ p, s.pointValueExact v = some p ∧ p.Le hi.toBig

structure Keeps (s s' : Simplex) : Prop where
  consistent : s'.Consistent
  feasible : s'.Feasible
  length : s'.assignment.length = s.assignment.length
  content : s'.content = s.content
  wideRows : s'.wideRows = s.wideRows
  lower : s'.lower = s.lower
  upper : s'.upper = s.upper

variable {s s' s'' : Simplex} {j b v : ℕ} {delta : ℤ} {d : ℚ} {e : BigLinExpr} {row : TableRow} {dr coef : Rational64}

theorem Keeps.refl (hs : s.Consistent) (hf : s.Feasible) : Keeps s s := ⟨hs, hf, rfl, rfl, rfl, rfl, rfl⟩

theorem Keeps.trans (h : Keeps s s') (h' : Keeps s' s'') : Keeps s s'' :=
  ⟨h'.consistent, h'.feasible, h'.length.trans h.length, h'.content.trans h.content,
    h'.wideRows.trans h.wideRows, h'.lower.trans h.lower, h'.upper.trans h.upper⟩

def coefOf (j : ℕ) (terms : List (ℕ × ℚ)) : ℚ := ((terms.find? fun t => t.1 = j).map Prod.snd).getD 0

variable {terms : List (ℕ × ℚ)}

theorem coefOf_of_not_mem (h : j ∉ terms.map Prod.fst) : coefOf j terms = 0 := by
  have hnone : terms.find? (fun t => t.1 = j) = none := by
    rw [find?_eq_none]
    intro t ht heq
    exact h (mem_map.mpr ⟨t, ht, of_decide_eq_true heq⟩)
  rw [coefOf, hnone]
  rfl

theorem evalTerms_shift (acc : BigDeltaRational) {d f : ℚ}
    (hother : ∀ t ∈ terms, t.1 ≠ j → s'.rawPoint t.1 = s.rawPoint t.1)
    (hj : s'.rawPoint j = (s.rawPoint j).map fun p => p.shift d) (hnodup : (terms.map Prod.fst).Nodup) :
    s'.evalTerms terms (acc.shift f) = (s.evalTerms terms acc).map fun p => p.shift (f + coefOf j terms * d) := by
  induction terms generalizing acc f with
  | nil => simp [evalTerms, coefOf]
  | cons t terms ih =>
    obtain ⟨v, c⟩ := t
    rw [map_cons, nodup_cons] at hnodup
    have hrest := fun t ht => hother t (mem_cons_of_mem _ ht)
    by_cases hv : v = j
    · subst hv
      have hzero := coefOf_of_not_mem hnodup.1
      have hself : coefOf v ((v, c) :: terms) = c := by simp [coefOf]
      rw [evalTerms, evalTerms, hj]
      cases s.rawPoint v with
      | none => rfl
      | some p =>
        have hacc : (⟨(acc.shift f).real + (p.shift d).real * c, (acc.shift f).delta + (p.shift d).delta * c⟩ :
            BigDeltaRational) = (⟨acc.real + p.real * c, acc.delta + p.delta * c⟩ : BigDeltaRational).shift
              (f + c * d) := by
          simp only [shift, BigDeltaRational.mk.injEq, and_true]
          ring
        simp only [map_some]
        rw [hacc, ih _ hrest hnodup.2, hzero, hself]
        simp only [zero_mul, add_zero]
    · have hother' : coefOf j ((v, c) :: terms) = coefOf j terms := by simp [coefOf, hv]
      rw [evalTerms, evalTerms, hother (v, c) mem_cons_self hv]
      cases s.rawPoint v with
      | none => rfl
      | some p =>
        have hacc : (⟨(acc.shift f).real + p.real * c, (acc.shift f).delta + p.delta * c⟩ : BigDeltaRational) =
            (⟨acc.real + p.real * c, acc.delta + p.delta * c⟩ : BigDeltaRational).shift f := by
          simp only [shift, BigDeltaRational.mk.injEq, and_true]
          ring
        simp only []
        rw [hacc, ih _ hrest hnodup.2, hother']

theorem evalTerms_congr {acc : BigDeltaRational} (h : ∀ t ∈ terms, s'.rawPoint t.1 = s.rawPoint t.1) :
    s'.evalTerms terms acc = s.evalTerms terms acc := by
  induction terms generalizing acc with
  | nil => rfl
  | cons t terms ih =>
    obtain ⟨v, c⟩ := t
    rw [evalTerms, evalTerms, h (v, c) mem_cons_self]
    cases s.rawPoint v with
    | none => rfl
    | some p => exact ih fun t ht => h t (mem_cons_of_mem _ ht)

theorem lowestTerms_of_le {n d : ℤ} (hd : 0 < d) (hn : |n| ≤ 2 ^ 62) (hd' : d ≤ 2 ^ 62) :
    ∃ c, lowestTerms n d hd = some c := by
  have habs : ∀ {v : ℤ}, |v| ≤ 2 ^ 62 → InI64 (v / Int.gcd n d) := by
    intro v hv
    have hle := abs_le.mp ((Int.abs_ediv_le_abs v (Int.gcd n d)).trans hv)
    constructor
    · omega
    · omega
  exact ⟨_, dif_pos ⟨habs hn, habs ((abs_of_pos hd).trans_le hd')⟩⟩

theorem coefficient_of_mem
    (hbudget : ∀ r, row = .int r → r.denom ≤ 2 ^ 62 ∧ ∀ t ∈ r.terms, |t.2| ≤ 2 ^ 62 ∧ t.2 ≠ 0)
    (h : ∃ t ∈ row.big.terms, t.1 = j) :
    ∃ coef, row.coefficient j = some coef ∧ coef.value = coefOf j row.big.terms := by
  have hlin : ∀ terms : List (ℕ × Rational64), (∃ t ∈ terms.map fun t => (t.1, t.2.value), t.1 = j) →
      ∃ coef, (terms.find? fun t => t.1 = j).map Prod.snd = some coef ∧
        coef.value = coefOf j (terms.map fun t => (t.1, t.2.value)) := by
    rintro terms ⟨t, ht, htj⟩
    obtain ⟨u, hu, rfl⟩ := mem_map.mp ht
    obtain ⟨w, hw⟩ := isSome_iff_exists.mp
      (find?_isSome (p := fun t => decide (t.1 = j)) |>.mpr ⟨u, hu, decide_eq_true htj⟩)
    refine ⟨w.2, by rw [hw]; rfl, ?_⟩
    rw [coefOf, find?_map]
    simp only [comp_def]
    rw [hw]
    rfl
  cases row with
  | lin row => exact hlin row.terms h
  | linNoInt row => exact hlin row.terms h
  | int row =>
    obtain ⟨t, ht, htj⟩ := h
    obtain ⟨u, hu, rfl⟩ := mem_map.mp ht
    obtain ⟨w, hw⟩ := isSome_iff_exists.mp
      (find?_isSome (p := fun t => decide (t.1 = j)) |>.mpr ⟨u, hu, decide_eq_true htj⟩)
    obtain ⟨hdenom, hterms⟩ := hbudget row rfl
    obtain ⟨c, hc⟩ := lowestTerms_of_le row.denom_pos (hterms w (mem_of_find?_eq_some hw)).1 hdenom
    have hratio : checkedRatioI128 w.2 row.denom = some c := by
      rw [checkedRatioI128, dif_neg row.denom_pos.ne', dif_neg (not_lt.mpr row.denom_pos.le), hc]
    refine ⟨c, ?_, ?_⟩
    · simp only [coefficient, hw, bind_some, hratio]
    · simp only [big, coefOf, find?_map, comp_def]
      rw [hw, value_lowestTerms hc]
      rfl

theorem coefficient_of_not_mem (h : ¬∃ t ∈ row.big.terms, t.1 = j) : row.coefficient j = none := by
  cases row with
  | lin row =>
    simp only [coefficient, map_eq_none_iff, find?_eq_none]
    exact fun t ht htj => h ⟨_, mem_map_of_mem ht, of_decide_eq_true htj⟩
  | linNoInt row =>
    simp only [coefficient, map_eq_none_iff, find?_eq_none]
    exact fun t ht htj => h ⟨_, mem_map_of_mem ht, of_decide_eq_true htj⟩
  | int row =>
    have hnone : row.terms.find? (fun t => t.1 = j) = none := by
      rw [find?_eq_none]
      exact fun t ht htj => h ⟨_, mem_map_of_mem ht, of_decide_eq_true htj⟩
    simp only [coefficient, hnone, bind_none]

theorem mapM_lowestTerms {terms : List (ℕ × ℤ)} {d : ℤ} {hd : 0 < d} {out : List (ℕ × Rational64)}
    (h : terms.mapM (fun (v, n) => (lowestTerms n d hd).map fun c => (v, c)) = some out) :
    out.map (fun t => (t.1, t.2.value)) = terms.map fun t => (t.1, (t.2 : ℚ) / d) := by
  induction terms generalizing out with
  | nil =>
    rw [mapM_nil] at h
    obtain rfl := some.inj h
    rfl
  | cons t terms ih =>
    simp only [mapM_cons, bind_eq_bind, bind_eq_some_iff, map_eq_some_iff] at h
    obtain ⟨u, ⟨c, hc, rfl⟩, rest, hrest, hout⟩ := h
    obtain rfl := some.inj hout
    rw [map_cons, map_cons, ih hrest, value_lowestTerms hc]

theorem big_materializeLin {row : IntRow} {lin : LinExpr} (hne : ∀ t ∈ row.terms, t.2 ≠ 0)
    (h : materializeLin row = some lin) : (TableRow.lin lin).big = (TableRow.int row).big := by
  simp only [materializeLin, bind_eq_bind, bind_eq_some_iff] at h
  obtain ⟨constant, hconstant, terms, hterms, hlin⟩ := h
  obtain rfl := some.inj hlin
  have hmap := mapM_lowestTerms hterms
  have hfilter : terms.filter (fun t => !t.2.isZero) = terms := by
    rw [filter_eq_self]
    intro t ht
    rw [Bool.not_eq_true', Bool.eq_false_iff]
    intro hzero
    have hmem := hmap ▸ mem_map_of_mem (f := fun t : ℕ × Rational64 => (t.1, t.2.value)) ht
    obtain ⟨u, hu, heq⟩ := mem_map.mp hmem
    have hvalue : (u.2 : ℚ) / row.denom = t.2.value := congrArg Prod.snd heq
    rw [Rational64.isZero_iff.mp hzero, div_eq_zero_iff, Int.cast_eq_zero, Int.cast_eq_zero] at hvalue
    exact hvalue.elim (hne u hu) row.denom_pos.ne'
  simp only [big, hfilter, hmap, value_lowestTerms hconstant]

theorem rowLin_spec {r : Option LinExpr} (hs : s.Consistent) (hf : s.Feasible) (h : s.rowLin v = some (r, s')) :
    Keeps s s' ∧ ∀ row, r = some row → s'.content v = some (lin row).big := by
  unfold rowLin at h
  cases hrow : s.tableau v with
  | none =>
    rw [hrow] at h
    obtain ⟨rfl, rfl⟩ := Prod.mk.inj (some.inj h)
    refine ⟨.refl hs hf, fun row hrow => ?_⟩
    cases hrow
  | some tableRow =>
    rw [hrow] at h
    cases tableRow with
    | lin row =>
      obtain ⟨rfl, rfl⟩ := Prod.mk.inj (some.inj h)
      refine ⟨.refl hs hf, fun row' h' => ?_⟩
      rw [content, hrow, ← some.inj h']
      rfl
    | linNoInt row =>
      obtain ⟨rfl, rfl⟩ := Prod.mk.inj (some.inj h)
      refine ⟨.refl hs hf, fun row' h' => ?_⟩
      rw [content, hrow, ← some.inj h']
      rfl
    | int row =>
      obtain ⟨lin, hlin, hpair⟩ := map_eq_some_iff.mp h
      obtain ⟨rfl, rfl⟩ := Prod.mk.inj hpair
      have hbig := big_materializeLin (fun t ht => ((hs.budget v row hrow).2 t ht).2) hlin
      have hcontent : ∀ b, ((update s.tableau v (some (.lin lin))) b).map big = s.content b := by
        intro b
        by_cases hb : b = v
        · subst hb
          rw [update_self, content, hrow, map_some, map_some, hbig]
        · rw [update_of_ne hb, content]
      have heval : ∀ e : BigLinExpr,
          ({ s with tableau := update s.tableau v (some (.lin lin)) } : Simplex).evalBigRaw e =
            s.evalBigRaw e := fun e => evalTerms_congr fun _ _ => rfl
      have hpoint : ∀ u, ({ s with tableau := update s.tableau v (some (.lin lin)) } : Simplex).pointValueExact u =
          s.pointValueExact u := by
        intro u
        simp only [pointValueExact, heval]
      have hfun : ({ s with tableau := update s.tableau v (some (.lin lin)) } : Simplex).content = s.content :=
        funext hcontent
      refine ⟨⟨⟨?_, ?_, ?_, ?_, ?_⟩, ⟨?_, ?_, ?_, ?_⟩, rfl, hfun, rfl, rfl, rfl⟩, ?_⟩
      · exact hfun ▸ hs.nodup
      · exact hfun ▸ hs.narrow
      · unfold Nonbasic
        rw [hfun]
        exact hs.nonbasic
      · rw [hfun]
        exact hs.column
      · intro b r hb
        by_cases hbv : b = v
        · subst hbv
          simp only [update_self] at hb
          cases hb
        · simp only [update_of_ne hbv] at hb
          exact hs.budget b r hb
      · intro b e hb
        rw [hpoint, heval]
        exact hf.rows b e (hfun ▸ hb)
      · intro b e hb
        rw [hpoint, heval]
        exact hf.wideRows b e hb
      · intro u lo hu
        rw [hpoint]
        exact hf.lower u lo hu
      · intro u hi hu
        rw [hpoint]
        exact hf.upper u hi hu
      · intro row' h'
        obtain rfl := some.inj h'
        simp only [content, update_self, map_some]

variable {us : List (ℕ × DeltaRational)} {l : List DeltaRational}

theorem foldl_set_of_not_mem (h : ∀ u ∈ us, u.1 ≠ v) : (us.foldl (fun a (oi, nv) => a.set oi nv) l)[v]? = l[v]? := by
  induction us generalizing l with
  | nil => rfl
  | cons u us ih =>
    rw [foldl_cons, ih fun w hw => h w (mem_cons_of_mem _ hw), getElem?_set_ne (h u mem_cons_self)]

theorem length_foldl_set : (us.foldl (fun a (oi, nv) => a.set oi nv) l).length = l.length := by
  induction us generalizing l with
  | nil => rfl
  | cons u us ih => rw [foldl_cons, ih, length_set]

theorem foldl_set_of_mem {new : DeltaRational} (hsame : ∀ u ∈ us, u.1 = v → u.2 = new) (hmem : ∃ u ∈ us, u.1 = v)
    (hv : v < l.length) : (us.foldl (fun a (oi, nv) => a.set oi nv) l)[v]? = some new := by
  induction us generalizing l with
  | nil => simp at hmem
  | cons u us ih =>
    rw [foldl_cons]
    have hrest : ∀ w ∈ us, w.1 = v → w.2 = new := fun w hw => hsame w (mem_cons_of_mem _ hw)
    by_cases hin : ∃ w ∈ us, w.1 = v
    · exact ih hrest hin (by rwa [length_set])
    · obtain ⟨w, hw, hwv⟩ := hmem
      obtain rfl | hw := mem_cons.mp hw
      · rw [foldl_set_of_not_mem fun x hx hxv => hin ⟨x, hx, hxv⟩, ← hwv, getElem?_set_self (hwv ▸ hv),
          hsame w mem_cons_self hwv]
      · exact absurd ⟨w, hw, hwv⟩ hin

theorem patchUpdates_spec {owners : List ℕ} (h : s.patchUpdates j dr owners = some us) :
    (∀ u ∈ us, s.ownerUpdate j dr u.1 = some (some u.2)) ∧ ∀ o ∈ owners, s.ownerUpdate j dr o = some none ∨
    ∃ u ∈ us, u.1 = o := by
  induction owners generalizing us with
  | nil =>
    obtain rfl := some.inj h
    refine ⟨fun u hu => ?_, fun o ho => ?_⟩
    · cases hu
    · cases ho
  | cons o owners ih =>
    rw [patchUpdates] at h
    split at h
    · cases h
    · next hnone =>
      obtain ⟨hus, howners⟩ := ih h
      refine ⟨hus, fun o' ho' => ?_⟩
      obtain rfl | ho' := mem_cons.mp ho'
      · exact .inl hnone
      · exact howners o' ho'
    · next new hnew =>
      obtain ⟨us', hus', rfl⟩ := map_eq_some_iff.mp h
      obtain ⟨hus, howners⟩ := ih hus'
      refine ⟨forall_mem_cons.mpr ⟨hnew, hus⟩, fun o' ho' => ?_⟩
      obtain rfl | ho' := mem_cons.mp ho'
      · exact .inr ⟨_, mem_cons_self, rfl⟩
      · obtain hnone | ⟨u, hu, huo⟩ := howners o' ho'
        · exact .inl hnone
        · exact .inr ⟨u, mem_cons_of_mem _ hu, huo⟩

theorem ownerUpdate_none (h : s.ownerUpdate j dr b = some none) :
    s.wideRows b = none ∧ ∀ row, s.tableau b = some row → row.coefficient j = none := by
  unfold ownerUpdate at h
  split at h
  · cases h
  · next hwide =>
    refine ⟨not_isSome_iff_eq_none.mp hwide, fun row hrow => ?_⟩
    rw [hrow] at h
    simp only [bind_eq_bind] at h
    split at h
    · next hcoef => exact hcoef
    · obtain ⟨old, -, h⟩ := bind_eq_some_iff.mp h
      obtain ⟨prod, -, h⟩ := bind_eq_some_iff.mp h
      obtain ⟨real, -, h⟩ := bind_eq_some_iff.mp h
      split_ifs at h
      cases some.inj h

theorem ownerUpdate_some {new : DeltaRational} (h : s.ownerUpdate j dr b = some (some new)) : s.wideRows b = none ∧
    s.withinBounds b new = true ∧ ∃ row coef old, s.tableau b = some row ∧ row.coefficient j = some coef ∧
    s.assignment[b]? = some old ∧ new.toBig = old.toBig.shift (coef.value * dr.value) := by
  unfold ownerUpdate at h
  split at h
  · cases h
  · next hwide =>
    split at h
    · cases h
    · next row hrow =>
      split at h
      · cases h
      · next coef hcoef =>
        simp only [bind_eq_bind] at h
        obtain ⟨old, hold, h⟩ := bind_eq_some_iff.mp h
        obtain ⟨prod, hprod, h⟩ := bind_eq_some_iff.mp h
        obtain ⟨real, hreal, h⟩ := bind_eq_some_iff.mp h
        split_ifs at h with hbounds _
        obtain rfl := some.inj (some.inj h)
        refine ⟨not_isSome_iff_eq_none.mp hwide, by simpa using hbounds, row, coef, old, hrow, hcoef, hold, ?_⟩
        simp only [toBig, shift, value_checkedAddR64 hreal, value_checkedMulR64 hprod]

theorem withinBounds_iff {value : DeltaRational} : s.withinBounds v value = true ↔
    (∀ lo, s.lower v = some lo → lo.toBig.Le value.toBig) ∧ ∀ hi, s.upper v = some hi → value.toBig.Le hi.toBig := by
  unfold withinBounds
  rw [Bool.and_eq_true, Bool.not_eq_true', Bool.not_eq_true']
  refine and_congr ?_ ?_
  · cases s.lower v with
    | none => simp
    | some lo => simp [lt_eq_false_iff]
  · cases s.upper v with
    | none => simp
    | some hi => simp [lt_eq_false_iff]

structure Move (s s' : Simplex) (j : ℕ) (d : ℚ) : Prop where
  state : s' = { s with assignment := s'.assignment }
  length : s'.assignment.length = s.assignment.length
  point : s.widePoints j = none
  moved : (s'.assignment[j]?).map toBig = ((s.assignment[j]?).map toBig).map fun p =>
    p.shift d
  other : ∀ v, v ≠ j → s.content v = none → s'.assignment[v]? = s.assignment[v]?
  row : ∀ b e, s.content b = some e → (s'.assignment[b]?).map toBig =
    ((s.assignment[b]?).map toBig).map fun p => p.shift (coefOf j e.terms * d)
  wide : ∀ b e, s.wideRows b = some e → ∀ t ∈ e.terms, t.1 ≠ j
  bounds : ∀ v, s'.assignment[v]? = s.assignment[v]? ∨
    (v = j ∨ s.content v ≠ none) ∧ ∃ new, s'.assignment[v]? = some new ∧ s.withinBounds v new = true

theorem content_of_tableau (h : s.tableau b = some row) : s.content b = some row.big := by
  rw [content, h, map_some]

theorem tryPatchColumn_move (hs : s.Consistent) (hj : s.Nonbasic j) (h : s.tryPatchColumn j delta = some s') :
    Move s s' j delta := by
  simp only [tryPatchColumn, Option.bind_eq_bind, Option.bind_eq_some_iff] at h
  obtain ⟨dr, hdr, jv, hjv, h⟩ := h
  split_ifs at h with hpoint hint
  · rw [Option.bind_fun_none] at h
    cases h
  obtain ⟨real, hreal, h⟩ := Option.bind_eq_some_iff.mp h
  split_ifs at h with hbounds
  simp only [Option.bind_eq_some_iff] at h
  obtain ⟨col, hcol, us, hus, h⟩ := h
  obtain rfl := Option.some.inj h
  obtain ⟨hupdates, howners⟩ := patchUpdates_spec hus
  have hlt : j < s.assignment.length := (List.getElem?_eq_some_iff.mp hjv).1
  have hvalue := value_fromInteger hdr
  have hrow : ∀ u ∈ us, ∃ row, s.tableau u.1 = some row := fun u hu => by
    obtain ⟨-, -, row, -, -, hrow, -⟩ := ownerUpdate_some (hupdates u hu)
    exact ⟨row, hrow⟩
  have hne : ∀ u ∈ us, u.1 ≠ j := by
    rintro u hu rfl
    obtain ⟨row, hrow⟩ := hrow u hu
    cases (content_of_tableau hrow).symm.trans hj.1
  have hkept : ∀ v, v ≠ j → (∀ u ∈ us, u.1 ≠ v) →
      (us.foldl (fun a (oi, nv) => a.set oi nv) (s.assignment.set j ⟨real, jv.delta⟩))[v]? = s.assignment[v]? := by
    intro v hv hmem
    rw [foldl_set_of_not_mem hmem, List.getElem?_set_ne (Ne.symm hv)]
  have hself : (us.foldl (fun a (oi, nv) => a.set oi nv) (s.assignment.set j ⟨real, jv.delta⟩))[j]? =
      some ⟨real, jv.delta⟩ := by
    rw [foldl_set_of_not_mem hne, List.getElem?_set_self hlt]
  have hset : ∀ u ∈ us, (us.foldl (fun a (oi, nv) => a.set oi nv) (s.assignment.set j ⟨real, jv.delta⟩))[u.1]? =
      some u.2 := by
    intro u hu
    obtain ⟨-, -, -, -, old, -, -, hold, -⟩ := ownerUpdate_some (hupdates u hu)
    refine foldl_set_of_mem (fun w hw hwu => ?_) ⟨u, hu, rfl⟩ ?_
    · have hsame := hupdates w hw
      rw [hwu, hupdates u hu] at hsame
      exact (Option.some.inj (Option.some.inj hsame)).symm
    · rw [List.length_set]
      exact (List.getElem?_eq_some_iff.mp hold).1
  have hlisted : ∀ b e, s.content b = some e ∨ s.wideRows b = some e → (∃ t ∈ e.terms, t.1 = j) →
      s.ownerUpdate j dr b = some none ∨ ∃ u ∈ us, u.1 = b := by
    rintro b e he ⟨t, ht, rfl⟩
    obtain ⟨col', hcol', hmem⟩ := hs.column b e he t ht
    obtain rfl := Option.some.inj (hcol'.symm.trans hcol)
    exact howners b hmem
  refine ⟨rfl, ?_, Option.not_isSome_iff_eq_none.mp hpoint, ?_, ?_, ?_, ?_, ?_⟩
  · exact length_foldl_set.trans List.length_set
  · rw [hself, hjv]
    simp only [Option.map_some, toBig, shift, value_checkedAddR64 hreal, hvalue]
  · intro v hv hnone
    refine hkept v hv ?_
    rintro u hu rfl
    obtain ⟨row, hrow⟩ := hrow u hu
    rw [content_of_tableau hrow] at hnone
    cases hnone
  · intro b e he
    obtain ⟨row, hbrow, rfl⟩ := Option.map_eq_some_iff.mp he
    have hbj : b ≠ j := by
      rintro rfl
      cases he.symm.trans hj.1
    by_cases hmem : ∃ t ∈ row.big.terms, t.1 = j
    · obtain ⟨coef, hcoef, hexact⟩ := coefficient_of_mem (fun r hr => hs.budget b r (hr ▸ hbrow)) hmem
      obtain hnone | ⟨u, hu, rfl⟩ := hlisted b _ (.inl he) hmem
      · rw [(ownerUpdate_none hnone).2 row hbrow] at hcoef
        cases hcoef
      · obtain ⟨-, -, row', coef', old, hrow', hcoef', hold, hnew⟩ := ownerUpdate_some (hupdates u hu)
        obtain rfl := Option.some.inj (hrow'.symm.trans hbrow)
        obtain rfl := Option.some.inj (hcoef'.symm.trans hcoef)
        rw [hset u hu, hold, Option.map_some, Option.map_some, Option.map_some, hnew, hexact, hvalue]
    · have hzero : coefOf j row.big.terms = 0 :=
        coefOf_of_not_mem fun h => hmem (by simpa only [List.mem_map] using h)
      rw [hkept b hbj, hzero]
      · simp only [zero_mul, shift_zero, Option.map_id']
      · rintro u hu rfl
        obtain ⟨-, -, row', coef', -, hrow', hcoef', -⟩ := ownerUpdate_some (hupdates u hu)
        obtain rfl := Option.some.inj (hrow'.symm.trans hbrow)
        rw [coefficient_of_not_mem hmem] at hcoef'
        cases hcoef'
  · intro b e he t ht htj
    have hwide : s.wideRows b = none := by
      obtain hnone | ⟨u, hu, rfl⟩ := hlisted b e (.inr he) ⟨t, ht, htj⟩
      · exact (ownerUpdate_none hnone).1
      · exact (ownerUpdate_some (hupdates u hu)).1
    rw [he] at hwide
    cases hwide
  · intro v
    by_cases hv : v = j
    · subst hv
      exact .inr ⟨.inl rfl, _, hself, by simpa using hbounds⟩
    · by_cases hmem : ∃ u ∈ us, u.1 = v
      · obtain ⟨u, hu, rfl⟩ := hmem
        obtain ⟨row, hurow⟩ := hrow u hu
        refine .inr ⟨.inr ?_, _, hset u hu, (ownerUpdate_some (hupdates u hu)).2.1⟩
        rw [content_of_tableau hurow]
        nofun
      · exact .inl (hkept v hv fun u hu huv => hmem ⟨u, hu, huv⟩)

theorem Move.keeps (h : Move s s' j d) (hs : s.Consistent) (hf : s.Feasible) (hj : s.Nonbasic j) : Keeps s s' := by
  have hcontent : s'.content = s.content := by rw [h.state]; rfl
  have hwideRows : s'.wideRows = s.wideRows := by rw [h.state]
  have hpoints : s'.widePoints = s.widePoints := by rw [h.state]
  have hraw : ∀ v, v ≠ j → s.Nonbasic v → s'.rawPoint v = s.rawPoint v := by
    intro v hv hnon
    rw [rawPoint, rawPoint, h.other v hv hnon.1, hpoints]
  have hrawj : s'.rawPoint j = (s.rawPoint j).map fun p => p.shift d := by
    have hmoved := h.moved
    simp only [rawPoint, hpoints, h.point, getD_none]
    exact hmoved
  have heval : ∀ b e, s.content b = some e →
      s'.evalBigRaw e = (s.evalBigRaw e).map fun p => p.shift (coefOf j e.terms * d) := by
    intro b e he
    have hshift := evalTerms_shift ⟨e.constant, 0⟩ (f := 0)
      (fun t ht htj => hraw t.1 htj (hs.nonbasic b e (.inl he) t ht)) hrawj (hs.nodup b e he)
    rwa [shift_zero, zero_add] at hshift
  have hevalWide : ∀ b e, s.wideRows b = some e → s'.evalBigRaw e = s.evalBigRaw e := fun b e he =>
    evalTerms_congr fun t ht => hraw t.1 (h.wide b e he t ht) (hs.nonbasic b e (.inr he) t ht)
  have hnarrow : ∀ b e, s.content b = some e →
      s'.pointValueExact b = (s.pointValueExact b).map fun p => p.shift (coefOf j e.terms * d) := by
    intro b e he
    obtain ⟨hwide, hpoint⟩ := hs.narrow b e he
    simp only [pointValueExact, hwideRows, hpoints, hwide, hpoint]
    exact h.row b e he
  have hpoint : ∀ v, s'.pointValueExact v = s.pointValueExact v ∨
      ∃ new : DeltaRational, s'.pointValueExact v = some new.toBig ∧ s.withinBounds v new = true := by
    intro v
    cases hwide : s.wideRows v with
    | some e =>
      left
      simp only [pointValueExact, hwideRows, hwide]
      exact hevalWide v e hwide
    | none =>
      obtain hsame | ⟨hbasic, new, hnew, hbounds⟩ := h.bounds v
      · left
        simp only [pointValueExact, hwideRows, hpoints, hwide, hsame]
      · right
        refine ⟨new, ?_, hbounds⟩
        have hnone : s.widePoints v = none := by
          obtain rfl | hne := hbasic
          · exact h.point
          · obtain ⟨e, he⟩ := ne_none_iff_exists'.mp hne
            exact (hs.narrow v e he).2
        simp only [pointValueExact, hwideRows, hpoints, hwide, hnone, hnew, map_some]
  have hlower : s'.lower = s.lower := by rw [h.state]
  have hupper : s'.upper = s.upper := by rw [h.state]
  refine ⟨?_, ⟨?_, ?_, ?_, ?_⟩, h.length, hcontent, hwideRows, hlower, hupper⟩
  · rw [h.state]
    exact ⟨hs.nodup, hs.narrow, hs.nonbasic, hs.column, hs.budget⟩
  · intro b e he
    rw [hcontent] at he
    obtain ⟨p, hp, hrow⟩ := hf.rows b e he
    exact ⟨_, by rw [hnarrow b e he, hp, map_some], by rw [heval b e he, hrow, map_some]⟩
  · intro b e he
    rw [hwideRows] at he
    obtain ⟨p, hp, hrow⟩ := hf.wideRows b e he
    rw [hevalWide b e he]
    refine ⟨p, ?_, hrow⟩
    simp only [pointValueExact, hwideRows, he]
    exact (hevalWide b e he).trans hrow
  · intro v lo hlo
    rw [hlower] at hlo
    obtain hsame | ⟨new, hnew, hbounds⟩ := hpoint v
    · rw [hsame]
      exact hf.lower v lo hlo
    · exact ⟨_, hnew, (withinBounds_iff.mp hbounds).1 lo hlo⟩
  · intro v hi hhi
    rw [hupper] at hhi
    obtain hsame | ⟨new, hnew, hbounds⟩ := hpoint v
    · rw [hsame]
      exact hf.upper v hi hhi
    · exact ⟨_, hnew, (withinBounds_iff.mp hbounds).2 hi hhi⟩

theorem tryPatchColumn_keeps (hs : s.Consistent) (hf : s.Feasible) (hj : s.Nonbasic j)
    (h : s.tryPatchColumn j delta = some s') : Keeps s s' := (tryPatchColumn_move hs hj h).keeps hs hf hj

variable {isInt : ℕ → Bool}

theorem patchTerms_keeps {r : Rational64} {terms : List (ℕ × Rational64)} (hs : s.Consistent) (hf : s.Feasible)
    (hterms : ∀ t ∈ terms, s.Nonbasic t.1) (h : patchTerms isInt r terms s = some s') : Keeps s s' := by
  induction terms with
  | nil =>
    obtain rfl := some.inj h
    exact .refl hs hf
  | cons t terms ih =>
    obtain ⟨j, coef⟩ := t
    have hj : s.Nonbasic j := hterms _ mem_cons_self
    have hrest := ih fun t ht => hterms t (mem_cons_of_mem _ ht)
    rw [patchTerms] at h
    split_ifs at h
    · exact hrest h
    · split at h
      · cases h
      · split at h
        · exact hrest h
        · split at h
          · cases h
          · exact hrest h
          · split at h
            · next hplus =>
              obtain rfl := some.inj h
              exact tryPatchColumn_keeps hs hf hj hplus
            · split at h
              · next hminus =>
                obtain rfl := some.inj h
                exact tryPatchColumn_keeps hs hf hj hminus
              · exact hrest h

theorem patchBasicColumn_keeps (hs : s.Consistent) (hf : s.Feasible) (h : patchBasicColumn isInt s v = some s') :
    Keeps s s' := by
  unfold patchBasicColumn at h
  split_ifs at h
  · obtain rfl := some.inj h
    exact .refl hs hf
  · split at h
    · cases h
    · next hrow =>
      obtain rfl := some.inj h
      exact (rowLin_spec hs hf hrow).1
    · next row s₁ hrow =>
      obtain ⟨hkeeps, hcontent⟩ := rowLin_spec hs hf hrow
      split at h
      · obtain rfl := some.inj h
        exact hkeeps
      · split_ifs at h
        · obtain rfl := some.inj h
          exact hkeeps
        · split at h
          · cases h
          · split at h
            · obtain rfl := some.inj h
              exact hkeeps
            · refine hkeeps.trans (patchTerms_keeps hkeeps.consistent hkeeps.feasible (fun t ht => ?_) h)
              exact hkeeps.consistent.nonbasic v _ (.inl (hcontent row rfl)) (t.1, t.2.value)
                (mem_map_of_mem (f := fun t : ℕ × Rational64 => (t.1, t.2.value)) ht)

theorem foldlM_keeps {vars : List ℕ} (hs : s.Consistent) (hf : s.Feasible)
    (h : vars.foldlM (patchBasicColumn isInt) s = some s') : Keeps s s' := by
  induction vars generalizing s with
  | nil =>
    obtain rfl := some.inj h
    exact .refl hs hf
  | cons v vars ih =>
    obtain ⟨s₁, hfirst, hrest⟩ := bind_eq_some_iff.mp h
    have hkeeps := patchBasicColumn_keeps hs hf hfirst
    exact hkeeps.trans (ih hkeeps.consistent hkeeps.feasible hrest)

/-- The moves of a fraction are the least ones, and patching succeeds with an integral point of the same
rows and bounds or leaves the assignment as it was. -/
theorem patchIntColumns_correct : (∀ x alpha : Rational64, 0 < x.value → x.value < 1 → 0 < alpha.value →
    alpha.value < 1 → (patchingDeltas x alpha = some none ∧ ∀ d, ¬Integral x alpha d) ∨
    ∃ dplus dminus, patchingDeltas x alpha = some (some (dplus, dminus)) ∧
    IsLeast {d | 0 < d ∧ Integral x alpha d} dplus ∧ IsGreatest {d | d < 0 ∧ Integral x alpha d} dminus) ∧
    ∀ (isInt : ℕ → Bool) (s s' : Simplex) (done : Bool), s.Consistent → s.Feasible →
    patchIntColumns isInt s = some (done, s') →
    (done = true → Keeps s s' ∧ ∀ v < s'.assignment.length, isInt v = true →
    ∃ n : ℤ, s'.pointValueExact v = some ⟨n, 0⟩) ∧ (done = false → s'.assignment = s.assignment) := by
  refine ⟨fun x alpha hx0 hx1 ha0 ha1 => patchingDeltas_spec hx0 hx1 ha0 ha1, ?_⟩
  intro isInt s s' done hs hf h
  unfold patchIntColumns at h
  dsimp only at h
  split at h
  · obtain ⟨rfl, rfl⟩ := Prod.mk.inj (some.inj h)
    exact ⟨nofun, fun _ => rfl⟩
  · split at h
    · cases h
    · next s₁ hfold =>
      have hkeeps := foldlM_keeps hs hf hfold
      split_ifs at h with hall
      · obtain ⟨rfl, rfl⟩ := Prod.mk.inj (some.inj h)
        refine ⟨fun _ => ⟨hkeeps, fun v hv hint => ?_⟩, nofun⟩
        have hmem : v ∈ (List.range s.assignment.length).filter isInt :=
          mem_filter.mpr ⟨mem_range.mpr (hkeeps.length ▸ hv), hint⟩
        have hany := all_eq_true.mp hall v hmem
        cases hp : s₁.pointValueExact v with
        | none =>
          rw [hp] at hany
          cases hany
        | some p =>
          rw [hp] at hany
          obtain ⟨n, hn⟩ := BigDeltaRational.isIntegral_iff.mp hany
          exact ⟨n, by rw [hn]⟩
      · obtain ⟨rfl, rfl⟩ := Prod.mk.inj (some.inj h)
        exact ⟨nofun, fun _ => rfl⟩

def thirds (n : ℤ) (h : InI64 n) (hc : Int.gcd n 3 = 1) : Rational64 :=
  ⟨n, 3, h, by decide, by decide, Int.isCoprime_iff_gcd_eq_one.mpr hc⟩

def sample : Simplex where
  assignment := [⟨thirds (-1) (by decide) (by decide), .zero⟩, ⟨.zero, .zero⟩]
  lower v := if v = 0 then some (.narrow ⟨.ofInt (-4) (by decide), .zero⟩) else none
  upper v := if v = 1 then some (.narrow ⟨.ofInt 4 (by decide), .zero⟩) else none
  tableau v := if v = 0 then some (.int ⟨[(1, -2)], -1, 3, by decide⟩) else none
  wideRows _ := none
  widePoints _ := none
  columns v := if v = 1 then some [0] else none
  basic v := v = 0

theorem content_sample (h : sample.content b = some e) : b = 0 ∧
    e = ⟨[(1, (-2 : ℤ) / (3 : ℤ))], (-1 : ℤ) / (3 : ℤ)⟩ := by
  by_cases hb : b = 0
  · subst hb
    exact ⟨rfl, (some.inj h).symm⟩
  · simp [content, sample, hb] at h

theorem consistent_sample : sample.Consistent := by
  have hwide : ∀ b, sample.wideRows b = none := fun _ => rfl
  refine ⟨?_, fun _ _ _ => ⟨rfl, rfl⟩, ?_, ?_, ?_⟩
  · intro b e h
    obtain ⟨rfl, rfl⟩ := content_sample h
    simp
  · rintro b e (h | h) t ht
    · obtain ⟨rfl, rfl⟩ := content_sample h
      obtain rfl := mem_singleton.mp ht
      exact ⟨rfl, rfl⟩
    · rw [hwide] at h
      cases h
  · rintro b e (h | h) t ht
    · obtain ⟨rfl, rfl⟩ := content_sample h
      obtain rfl := mem_singleton.mp ht
      exact ⟨[0], rfl, mem_singleton.mpr rfl⟩
    · rw [hwide] at h
      cases h
  · intro b row h
    by_cases hb : b = 0
    · subst hb
      obtain rfl := TableRow.int.inj (some.inj h)
      exact ⟨by decide, by simp⟩
    · simp [sample, hb] at h

theorem feasible_sample : sample.Feasible := by
  have hwide : ∀ b, sample.wideRows b = none := fun _ => rfl
  have hpoint : sample.pointValueExact 0 = some ⟨-1 / 3, 0⟩ := by
    simp [pointValueExact, sample, toBig, thirds, Rational64.value, Rational64.zero, Rational64.ofInt]
  have hpoint' : sample.pointValueExact 1 = some ⟨0, 0⟩ := by
    simp [pointValueExact, sample, toBig]
  refine ⟨?_, ?_, ?_, ?_⟩
  · intro b e h
    obtain ⟨rfl, rfl⟩ := content_sample h
    refine ⟨_, hpoint, ?_⟩
    simp [evalBigRaw, evalTerms, rawPoint, sample, toBig]
  · intro b e h
    rw [hwide] at h
    cases h
  · intro v lo h
    by_cases hv : v = 0
    · subst hv
      obtain rfl := some.inj h
      refine ⟨_, hpoint, .inl ?_⟩
      simp only [BoundValue.toBig, toBig, Rational64.value_ofInt]
      norm_num
    · simp [sample, hv] at h
  · intro v hi h
    by_cases hv : v = 1
    · subst hv
      obtain rfl := some.inj h
      refine ⟨_, hpoint', .inl ?_⟩
      simp only [BoundValue.toBig, toBig, Rational64.value_ofInt]
      norm_num
    · simp [sample, hv] at h

/-- The sample is patched by a move of one, and two thirds and a third have moves. -/
theorem patchIntColumns_correct_sample : (∃ s', patchIntColumns (fun _ => true) sample = some (true, s') ∧
    s'.Feasible ∧ ∃ n : ℤ, s'.pointValueExact 0 = some ⟨n, 0⟩) ∧
    ∃ r, patchingDeltas (thirds 2 (by decide) (by decide)) (thirds 1 (by decide) (by decide)) = some r := by
  constructor
  · have hdone : (patchIntColumns (fun _ => true) sample).map Prod.fst = some true := by with_unfolding_all rfl
    obtain ⟨⟨done, s'⟩, hrun, rfl⟩ := map_eq_some_iff.mp hdone
    obtain ⟨hkeeps, hint⟩ :=
      (patchIntColumns_correct.2 (fun _ => true) sample s' true consistent_sample feasible_sample hrun).1 rfl
    exact ⟨s', hrun, hkeeps.feasible, hint 0 (hkeeps.length ▸ (by decide : 0 < sample.assignment.length)) rfl⟩
  · have hvalue : ∀ n h hc, (thirds n h hc).value = n / 3 := fun n h hc => by simp [thirds, Rational64.value]
    obtain ⟨hnone, -⟩ | ⟨dplus, dminus, hsome, -⟩ := patchIntColumns_correct.1
      (thirds 2 (by decide) (by decide)) (thirds 1 (by decide) (by decide))
      (by rw [hvalue]; norm_num) (by rw [hvalue]; norm_num) (by rw [hvalue]; norm_num) (by rw [hvalue]; norm_num)
    · exact ⟨_, hnone⟩
    · exact ⟨_, hsome⟩

end Simplex

end Nixie.Arithmetic
