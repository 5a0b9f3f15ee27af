import Nixie.Ast.BuilderValue

/-!
Values and labels of arithmetic terms: whatever the constructors are nested into, the term has the value SMT-LIB gives
the operators, and a term labelled `Int` has an integer value.
-/

namespace Nixie.Ast

open Interp List

variable {m : Manager} {K D : Type*} [Field K] [LinearOrder K] [FloorRing K] [DecidableEq D]
  (I : Interp m K D)

section

structure Numeric (t : Term) : Prop where
  value : ∃ k, I.eval t = .num k
  sort : t.sort.isNumeric = true
  label : t.sort = .int → ∃ n : ℤ, I.num t = n

variable {I} {t a b : Term}

theorem Numeric.eval_eq (h : Numeric I t) : I.eval t = .num (I.num t) := by
  obtain ⟨k, hk⟩ := h.value
  rw [num, hk, Value.toNum_num]

theorem Numeric.int_or_real (h : Numeric I t) : t.sort = .int ∨ t.sort = .real := by
  have := h.sort
  revert this
  cases t.sort <;> simp [SortId.isNumeric]

variable (I) in
theorem numeric_mkInt (n : ℤ) : Numeric I (mkInt n) := ⟨⟨n, rfl⟩, rfl, fun _ => ⟨n, rfl⟩⟩

variable (I) in
theorem numeric_mkReal (r : Rational64) : Numeric I (mkReal r) := ⟨⟨r.value, rfl⟩, rfl, nofun⟩

section

variable {args : List Term} {first : Term}

theorem unified_isNumeric (hfirst : first.sort.isNumeric = true) : (unifiedArithSort first args).isNumeric = true := by
  unfold unifiedArithSort
  split_ifs
  · rfl
  · exact hfirst

theorem unified_int (h : ∀ a ∈ args, Numeric I a) (hint : unifiedArithSort first args = .int) :
    ∀ a ∈ args, a.sort = .int := by
  intro a ha
  refine (h a ha).int_or_real.resolve_right fun hreal => ?_
  have hany : (args.any fun t => t.sort = .real) = true := any_eq_true.mpr ⟨a, ha, by simpa using hreal⟩
  rw [unifiedArithSort, if_pos hany] at hint
  cases hint

end

section

variable {args : List Term} {s : SortId}

theorem exists_int_sum (h : ∀ a ∈ args, ∃ n : ℤ, I.num a = n) : ∃ n : ℤ, (args.map I.num).sum = n := by
  induction args with
  | nil => exact ⟨0, by simp⟩
  | cons a args ih =>
    obtain ⟨x, hx⟩ := h a (by simp)
    obtain ⟨y, hy⟩ := ih fun a ha => h a (mem_cons_of_mem _ ha)
    exact ⟨x + y, by simp [hx, hy]⟩

theorem exists_int_prod (h : ∀ a ∈ args, ∃ n : ℤ, I.num a = n) : ∃ n : ℤ, (args.map I.num).prod = n := by
  induction args with
  | nil => exact ⟨1, by simp⟩
  | cons a args ih =>
    obtain ⟨x, hx⟩ := h a (by simp)
    obtain ⟨y, hy⟩ := ih fun a ha => h a (mem_cons_of_mem _ ha)
    exact ⟨x * y, by simp [hx, hy]⟩

def Under (I : Interp m K D) (s : SortId) (args : List Term) : Prop :=
  ∀ a ∈ args, Numeric I a ∧ (s = .int → a.sort = .int)

theorem Under.exists_int (h : Under I .int args) : ∀ a ∈ args, ∃ n : ℤ, I.num a = n :=
  fun a ha => (h a ha).1.label ((h a ha).2 rfl)

theorem numeric_add (hs : s.isNumeric = true) (h : Under I s args) : Numeric I (.add args s) where
  value := ⟨_, rfl⟩
  sort := hs
  label := fun hint => by
    obtain rfl : s = .int := hint
    rw [num_add]
    exact exists_int_sum h.exists_int

theorem numeric_mul (hs : s.isNumeric = true) (h : Under I s args) : Numeric I (.mul args s) where
  value := ⟨_, rfl⟩
  sort := hs
  label := fun hint => by
    obtain rfl : s = .int := hint
    rw [num_mul]
    exact exists_int_prod h.exists_int

theorem under_append_int (h : Under I s args) (n : ℤ) : Under I s (args ++ [mkInt n]) := by
  intro a ha
  rcases mem_append.mp ha with ha | ha
  · exact h a ha
  · obtain rfl := mem_singleton.mp ha
    exact ⟨numeric_mkInt I n, fun _ => rfl⟩

section

variable (h : ∀ a ∈ args, Numeric I a)
include h

theorem under_unified (first : Term) : Under I (unifiedArithSort first args) args :=
  fun a ha => ⟨h a ha, fun hint => unified_int h hint a ha⟩

theorem under_keptArgs (first : Term) (total : ℚ) :
    Under I (unifiedArithSort first args) (keptArgs args (foldReals (args.filterMap realConstOf) total)) := by
  intro a ha
  unfold keptArgs at ha
  split at ha
  · next r hr =>
    rcases mem_append.mp ha with ha | ha
    · exact under_unified h first a (mem_filter.mp ha).1
    · obtain rfl := mem_singleton.mp ha
      refine ⟨numeric_mkReal I r, fun hint => ?_⟩
      -- a folded numeral comes from a real one among the arguments
      unfold foldReals at hr
      split_ifs at hr with hempty
      obtain ⟨q, hq⟩ := exists_mem_of_ne_nil _ (mt isEmpty_iff.mpr hempty)
      obtain ⟨b, hb, hbq⟩ := mem_filterMap.mp hq
      obtain ⟨r', rfl, -⟩ := realConstOf_some hbq
      exact absurd (unified_int h hint _ hb) (by simp [Term.sort])
  · exact under_unified h first a (mem_filter.mp ha).1

theorem numeric_mkAdd : Numeric I (mkAdd args) := by
  unfold mkAdd
  split
  · exact numeric_mkInt I 0
  · exact h _ (by simp)
  · next first rest _ =>
    dsimp only
    set args := first :: rest
    have hs : (unifiedArithSort first args).isNumeric = true := unified_isNumeric (h first (by simp [args])).sort
    have hkept := under_keptArgs h first (args.filterMap realConstOf).sum
    generalize keptArgs args (foldReals _ _) = newArgs at hkept ⊢
    split_ifs
    · exact numeric_add hs (under_unified h first)
    · exact numeric_mkInt I _
    · exact numeric_add hs (under_append_int hkept _)
    · split
      · exact (hkept _ (by simp)).1
      · exact numeric_add hs hkept

theorem numeric_mkMul : Numeric I (mkMul args) := by
  unfold mkMul
  split
  · exact numeric_mkInt I 1
  · exact h _ (by simp)
  · next first rest _ =>
    dsimp only
    set args := first :: rest
    have hs : (unifiedArithSort first args).isNumeric = true := unified_isNumeric (h first (by simp [args])).sort
    have hkept := under_keptArgs h first (args.filterMap realConstOf).prod
    generalize keptArgs args (foldReals _ _) = keep at hkept ⊢
    split_ifs
    · exact numeric_mkReal I _
    · exact numeric_mkInt I 0
    · split
      · exact (hkept _ (by simp)).1
      · exact numeric_mkReal I _
      · exact numeric_mul hs hkept
    · exact numeric_mkInt I _
    · exact numeric_mul hs (under_append_int hkept _)
    · split
      · exact (hkept _ (by simp)).1
      · exact numeric_mul hs hkept

end

end

section

variable (ha : Numeric I a) (hb : Numeric I b)

include ha in
theorem numeric_mkNeg : Numeric I (mkNeg a) := by
  have hnode : Numeric I (.neg a a.sort) := by
    refine ⟨⟨_, rfl⟩, ha.sort, fun hint => ?_⟩
    obtain ⟨n, hn⟩ := ha.label hint
    exact ⟨-n, by simp [num, eval] at hn ⊢; exact hn⟩
  unfold mkNeg
  split
  · exact numeric_mkInt I _
  · split
    · split
      · exact numeric_mkReal I _
      · exact hnode
    · exact hnode

include ha hb

theorem under_pair (first : Term) : Under I (unifiedArithSort first [a, b]) [a, b] :=
  under_unified (by simpa using ⟨ha, hb⟩) first

theorem numeric_mkSub : Numeric I (mkSub a b) := by
  have hnode : Numeric I (.sub a b (unifiedArithSort a [a, b])) := by
    refine ⟨⟨_, rfl⟩, unified_isNumeric ha.sort, fun hint => ?_⟩
    have hunder := under_pair ha hb a
    obtain ⟨x, hx⟩ := ha.label ((hunder a (by simp)).2 hint)
    obtain ⟨y, hy⟩ := hb.label ((hunder b (by simp)).2 hint)
    exact ⟨x - y, by rw [Int.cast_sub, ← hx, ← hy]; rfl⟩
  unfold mkSub
  dsimp only
  split
  · exact numeric_mkInt I _
  · split
    · split
      · exact numeric_mkReal I _
      · exact hnode
    · exact hnode

theorem divSort_int {forceReal : Bool} (hint : divSort a b forceReal = .int) : a.sort = .int ∧ b.sort = .int := by
  unfold divSort at hint
  split_ifs at hint
  have hunder := under_pair ha hb a
  exact ⟨(hunder a (by simp)).2 hint, (hunder b (by simp)).2 hint⟩

variable [IsStrictOrderedRing K]

theorem numeric_div (forceReal : Bool) : Numeric I (.div a b (divSort a b forceReal)) := by
  refine ⟨⟨_, rfl⟩, ?_, fun hint => ?_⟩
  · change (divSort a b forceReal).isNumeric = true
    unfold divSort
    split_ifs
    · rfl
    · exact unified_isNumeric ha.sort
  · replace hint : divSort a b forceReal = .int := hint
    obtain ⟨hda, hdb⟩ := divSort_int ha hb hint
    obtain ⟨x, hx⟩ := ha.label hda
    obtain ⟨y, hy⟩ := hb.label hdb
    change ∃ n : ℤ, (if divSort a b forceReal = .int then I.intDiv (I.num a) (I.num b)
      else I.realDiv (I.num a) (I.num b)) = n
    rw [if_pos hint, hx, hy, intDiv_intCast]
    split_ifs
    · exact I.divZero_int x
    · exact ⟨_, rfl⟩

theorem numeric_mkDivAt (forceReal : Bool) : Numeric I (mkDivAt a b forceReal) := by
  unfold mkDivAt
  dsimp only
  cases hfold : foldDiv a b (divSort a b forceReal) with
  | none => exact numeric_div ha hb forceReal
  | some t =>
    rw [Option.getD_some]
    unfold foldDiv at hfold
    split at hfold
    · unfold Nixie.Ast.intDiv at hfold
      split at hfold
      · cases hfold
      · split at hfold <;> split_ifs at hfold <;> cases hfold
        · exact numeric_mkInt I _
        · exact ha
        · exact numeric_mkNeg ha
    · unfold Nixie.Ast.realDiv at hfold
      split at hfold
      · cases hfold
      · split_ifs at hfold
        split at hfold
        · cases hfold
          exact numeric_mkReal I _
        · obtain ⟨recip, -, rfl⟩ := Option.map_eq_some_iff.mp hfold
          refine numeric_mkMul fun c hc => ?_
          rcases mem_cons.mp hc with rfl | hc
          · exact ha
          · obtain rfl := mem_singleton.mp hc
            exact numeric_mkReal I _
    · cases hfold

theorem numeric_mkMod (h : a.sort = .int → b.sort = .int) : Numeric I (mkMod a b) := by
  have hnode : Numeric I (.mod a b a.sort) := by
    refine ⟨⟨_, rfl⟩, ha.sort, fun hint => ?_⟩
    obtain ⟨x, hx⟩ := ha.label hint
    obtain ⟨y, hy⟩ := hb.label (h hint)
    change ∃ n : ℤ, I.intMod (I.num a) (I.num b) = n
    rw [hx, hy, intMod_intCast]
    split_ifs
    · exact I.modZero_int x
    · exact ⟨_, rfl⟩
  unfold mkMod
  split
  · exact hnode
  · split <;> split_ifs
    · exact hnode
    · exact numeric_mkInt I _
    · exact numeric_mkInt I 0
    · exact hnode

end

end

section

def CmpOp.Holds : CmpOp → K → K → Prop
  | .lt, x, y => x < y
  | .le, x, y => x ≤ y
  | .gt, x, y => x > y
  | .ge, x, y => x ≥ y

instance : ∀ (op : CmpOp) (x y : K), Decidable (op.Holds x y)
  | .lt, x, y => inferInstanceAs (Decidable (x < y))
  | .le, x, y => inferInstanceAs (Decidable (x ≤ y))
  | .gt, x, y => inferInstanceAs (Decidable (x > y))
  | .ge, x, y => inferInstanceAs (Decidable (x ≥ y))

omit [Field K] [FloorRing K] in
theorem accepts_compare (op : CmpOp) (x y : K) : op.accepts (compare x y) = decide (op.Holds x y) := by
  rw [Bool.eq_iff_iff, decide_eq_true_iff]
  cases op <;> simp [CmpOp.accepts, CmpOp.Holds, compare_lt_iff_lt, compare_gt_iff_gt]

/-- The terms the constructors make and the values SMT-LIB gives them.  The sort that `mk_div` divides
at picks the operator.  Under `matching`, the constructors that copy one operand's label to the node
they make are not given a real operand beside an integer one, nor `mk_mod` a real dividend where it
folds a remainder by a unit to zero. -/
inductive Built (I : Interp m K D) (matching : Prop) : Term → Value K D → Prop
  | intVar (x : String) : Built I matching (.var x .int) (I.value (.var x .int))
  | realVar (x : String) : Built I matching (.var x .real) (I.value (.var x .real))
  | intConst (n : ℤ) : Built I matching (mkInt n) (.num n)
  | realConst (r : Rational64) : Built I matching (mkReal r) (.num r.value)
  | add (args : List (Term × K)) (h : ∀ p ∈ args, Built I matching p.1 (.num p.2)) :
    Built I matching (mkAdd (args.map Prod.fst)) (.num (args.map Prod.snd).sum)
  | sub {a b x y} (ha : Built I matching a (.num x)) (hb : Built I matching b (.num y)) :
    Built I matching (mkSub a b) (.num (x - y))
  | neg {a x} (ha : Built I matching a (.num x)) : Built I matching (mkNeg a) (.num (-x))
  | mul (args : List (Term × K)) (h : ∀ p ∈ args, Built I matching p.1 (.num p.2)) :
    Built I matching (mkMul (args.map Prod.fst)) (.num (args.map Prod.snd).prod)
  | div {a b x y} (ha : Built I matching a (.num x)) (hb : Built I matching b (.num y)) :
    Built I matching (mkDiv a b)
      (.num (if unifiedArithSort a [a, b] = .int then I.intDiv x y else I.realDiv x y))
  | rdiv {a b x y} (ha : Built I matching a (.num x)) (hb : Built I matching b (.num y)) :
    Built I matching (mkRdiv a b) (.num (I.realDiv x y))
  | mod {a b x y} (ha : Built I matching a (.num x)) (hb : Built I matching b (.num y))
    (h : matching → (a.sort = .int → b.sort = .int) ∧ (b = mkInt 1 ∨ b = mkInt (-1) → a.sort = .int)) :
    Built I matching (mkMod a b) (.num (I.intMod x y))
  | ite {c t e p v w} (hc : Built I matching c (.bool p))
    (ht : Built I matching t v) (he : Built I matching e w) (hs : t.sort.Compatible e.sort)
    (h : matching → c ≠ .true → c ≠ .false → t ≠ e → t.sort = .int → e.sort = .int) :
    Built I matching (mkIte c t e) (if p then v else w)
  | cmp (op : CmpOp) {a b : Term} {x y : K} (ha : Built I matching a (.num x))
    (hb : Built I matching b (.num y)) : Built I matching (mkCmp op a b) (.bool (op.Holds x y))

structure Sound (I : Interp m K D) (t : Term) (v : Value K D) : Prop where
  eval : I.eval t = v
  label : v.HasSort t.sort

inductive Carries (I : Interp m K D) (t : Term) : Value K D → Prop
  | num {x} (numeric : Numeric I t) (value : I.num t = x) : Carries I t (.num x)
  | bool {b} (sort : t.sort = .bool) (value : I.eval t = .bool b) : Carries I t (.bool b)

variable {I} {t a b c e : Term} {v w : Value K D} {p : Bool} {x y : K}

theorem Carries.numeric (h : Carries I t (.num x)) : Numeric I t := by
  cases h with
  | num numeric _ => exact numeric

theorem Carries.value (h : Carries I t (.num x)) : I.num t = x := by
  cases h with
  | num _ value => exact value

theorem Carries.sound (h : Carries I t v) : Sound I t v := by
  cases h with
  | num numeric value =>
    subst value
    refine ⟨numeric.eval_eq, ?_⟩
    rcases numeric.int_or_real with hs | hs
    · obtain ⟨n, hn⟩ := numeric.label hs
      rw [hs]
      exact ⟨n, by rw [hn]⟩
    · rw [hs]
      exact ⟨_, rfl⟩
  | bool sort value =>
    exact ⟨value, by rw [sort]; exact ⟨_, rfl⟩⟩

theorem carries_var {s : SortId} (x : String) (hs : s.isNumeric = true) :
    Carries I (.var x s) (I.value (.var x s)) := by
  have hv := I.value_sort (.var x s)
  have hint : ∃ k, I.value (.var x s) = .num k := by
    cases s <;> simp only [SortId.isNumeric, Bool.false_eq_true] at hs
    · obtain ⟨n, hn⟩ := hv
      exact ⟨n, hn⟩
    · exact hv
  obtain ⟨k, hk⟩ := hint
  rw [hk]
  refine .num ⟨⟨k, hk⟩, hs, fun hi => ?_⟩ (by simp [num, eval, hk])
  obtain rfl : s = .int := hi
  obtain ⟨n, hn⟩ := hv
  exact ⟨n, by simp [num, eval, hn]⟩

theorem eval_mkIte (hc : I.eval c = .bool p) : I.eval (mkIte c t e) = bif p then I.eval t else I.eval e := by
  unfold mkIte
  split_ifs with h1 h2 h3 h4
  · subst h1
    cases hc
    rfl
  · subst h2
    cases hc
    rfl
  · subst h3
    simp
  · rw [h4.1, h4.2, hc]
    cases p <;> rfl
  · simp [eval, hc, Bool.cond_eq_ite]

theorem numeric_mkIte (hc : I.eval c = .bool p) (ht : Numeric I t) (he : Numeric I e)
    (h : c ≠ .true → c ≠ .false → t ≠ e → t.sort = .int → e.sort = .int) : Numeric I (mkIte c t e) := by
  unfold mkIte
  split_ifs with h1 h2 h3 h4
  · exact ht
  · exact he
  · exact ht
  · exact absurd ht.sort (by simp [h4.1, Term.sort, SortId.isNumeric])
  · have hval : I.eval (.ite c t e t.sort) = if p then I.eval t else I.eval e := by simp [eval, hc]
    refine ⟨?_, ht.sort, fun hint => ?_⟩
    · rw [hval, ht.eval_eq, he.eval_eq]
      cases p <;> simp
    · obtain ⟨n, hn⟩ := ht.label hint
      obtain ⟨k, hk⟩ := he.label (h h1 h2 h3 hint)
      rw [num, hval, ht.eval_eq, he.eval_eq]
      cases p
      · exact ⟨k, by simp [hk]⟩
      · exact ⟨n, by simp [hn]⟩

theorem sort_mkIte_bool (hc : c.sort = .bool) (ht : t.sort = .bool) (he : e.sort = .bool) :
    (mkIte c t e).sort = .bool := by
  unfold mkIte
  split_ifs
  · exact ht
  · exact he
  · exact ht
  · exact hc
  · exact ht

theorem carries_mkIte (hc : Carries I c (.bool p)) (ht : Carries I t v) (he : Carries I e w)
    (hs : t.sort.Compatible e.sort) (h : c ≠ .true → c ≠ .false → t ≠ e → t.sort = .int → e.sort = .int) :
    Carries I (mkIte c t e) (if p then v else w) := by
  obtain ⟨hcs, hcv⟩ : c.sort = .bool ∧ I.eval c = .bool p := by
    cases hc with
    | bool sort value => exact ⟨sort, value⟩
  have heval : I.eval (mkIte c t e) = if p then v else w := by
    rw [eval_mkIte hcv, ht.sound.eval, he.sound.eval, Bool.cond_eq_ite]
  cases ht with
  | num htn htv =>
    cases he with
    | num hen hev =>
      have hnum := numeric_mkIte hcv htn hen h
      rw [hnum.eval_eq] at heval
      rw [← heval]
      exact .num hnum rfl
    | bool hes _ =>
      have hnum := hs.numeric
      rw [htn.sort, hes] at hnum
      cases hnum
  | bool hts _ =>
    cases he with
    | num hen _ =>
      have hnum := hs.numeric
      rw [hen.sort, hts] at hnum
      cases hnum
    | bool hes _ =>
      rw [← apply_ite] at heval ⊢
      exact .bool (sort_mkIte_bool hcs hts hes) heval

theorem sort_mkCmp (op : CmpOp) (a b : Term) : (mkCmp op a b).sort = .bool := by
  have hbool : ∀ q, (mkBool q).sort = .bool := fun q => by cases q <;> rfl
  unfold mkCmp
  split
  · exact hbool _
  · split_ifs
    · exact hbool _
    · rfl

variable [IsStrictOrderedRing K]

theorem eval_mkCmp (op : CmpOp) (a b : Term) : I.eval (mkCmp op a b) = .bool (op.Holds (I.num a) (I.num b)) := by
  have htruth := truth_mkCmp I op a b
  have hbool : ∃ q, I.eval (mkCmp op a b) = .bool q := by
    unfold mkCmp
    split
    · exact ⟨_, eval_mkBool I _⟩
    · split_ifs
      · exact ⟨_, eval_mkBool I _⟩
      · exact ⟨_, rfl⟩
  obtain ⟨q, hq⟩ := hbool
  rw [truth, hq, accepts_compare] at htruth
  rw [hq, ← htruth]
  rfl

theorem Built.carries (h : Built I True t v) : Carries I t v := by
  induction h with
  | intVar x => exact carries_var x rfl
  | realVar x => exact carries_var x rfl
  | intConst n => exact .num (numeric_mkInt I n) rfl
  | realConst r => exact .num (numeric_mkReal I r) rfl
  | add args _ ih =>
    refine .num (numeric_mkAdd fun a ha => ?_) ?_
    · obtain ⟨p, hp, rfl⟩ := mem_map.mp ha
      exact (ih p hp).numeric
    · have hmap : args.map (I.num ∘ Prod.fst) = args.map Prod.snd := map_congr_left fun p hp => (ih p hp).value
      rw [num_mkAdd, map_map, hmap]
  | sub _ _ iha ihb =>
    exact .num (numeric_mkSub iha.numeric ihb.numeric) (by rw [num_mkSub, iha.value, ihb.value])
  | neg _ iha => exact .num (numeric_mkNeg iha.numeric) (by rw [num_mkNeg, iha.value])
  | mul args _ ih =>
    refine .num (numeric_mkMul fun a ha => ?_) ?_
    · obtain ⟨p, hp, rfl⟩ := mem_map.mp ha
      exact (ih p hp).numeric
    · have hmap : args.map (I.num ∘ Prod.fst) = args.map Prod.snd := map_congr_left fun p hp => (ih p hp).value
      rw [num_mkMul, map_map, hmap]
  | @div a b x y _ _ iha ihb =>
    refine .num (numeric_mkDivAt iha.numeric ihb.numeric false) ?_
    have hint : divSort a b false = .int → ∃ n : ℤ, I.num a = n := fun hs =>
      iha.numeric.label (divSort_int iha.numeric ihb.numeric hs).1
    rw [mkDiv, num_mkDivAt I hint, iha.value, ihb.value]
    rfl
  | @rdiv a b x y _ _ iha ihb =>
    refine .num (numeric_mkDivAt iha.numeric ihb.numeric true) ?_
    rw [mkRdiv, num_mkDivAt I (by simp [divSort]), iha.value, ihb.value, if_neg (by simp [divSort])]
  | mod _ _ h iha ihb =>
    obtain ⟨hlabel, hunit⟩ := h trivial
    exact .num (numeric_mkMod iha.numeric ihb.numeric hlabel)
      (by rw [num_mkMod I fun hb => iha.numeric.label (hunit hb), iha.value, ihb.value])
  | ite _ _ _ hs h ihc iht ihe => exact carries_mkIte ihc iht ihe hs (h trivial)
  | cmp op _ _ iha ihb =>
    exact .bool (sort_mkCmp op _ _) (by rw [eval_mkCmp, iha.value, ihb.value])

/-- Where no label is copied past a real operand, a term has the value of its operators and an
integer value if it is labelled `Int`. -/
theorem built_sound (h : Built I True t v) : Sound I t v := h.carries.sound

end

def plainManager : Manager where
  id := fun _ => 0
  tupleFieldSortsOf := fun _ => none

def halfValue (t : Term) : Value ℚ Unit :=
  match t.sort with
  | .bool => .bool false
  | .int => .num 1
  | .real => .num (1 / 2)
  | _ => .elem ()

def halfInterp : Interp plainManager ℚ Unit where
  value := halfValue
  construct := fun _ s _ => halfValue (.var "" s)
  divZero := fun _ => 0
  modZero := fun _ => 0
  rdivZero := fun _ => 0
  value_sort := fun t => by
    unfold halfValue
    cases t.sort <;> simp [Value.HasSort]
    exact ⟨1, by simp⟩
  construct_sort := fun _ s _ => by
    unfold halfValue
    cases s <;> simp [Value.HasSort, Term.sort]
    exact ⟨1, by simp⟩
  construct_inj := by simp [plainManager]
  divZero_int := fun _ => ⟨0, by simp⟩
  modZero_int := fun _ => ⟨0, by simp⟩

theorem built_sound_ite : Sound halfInterp
    (mkIte (mkLt (.var "x" .int) (mkInt 2)) (.var "x" .int) (mkInt 3)) (.num 1) := by
  have hx : Built halfInterp True (.var "x" .int) (.num 1) := .intVar "x"
  have hcond : Built halfInterp True (mkLt (.var "x" .int) (mkInt 2)) (.bool true) := by
    have h := Built.cmp .lt hx (.intConst 2)
    rwa [decide_eq_true (by norm_num [CmpOp.Holds])] at h
  exact built_sound (.ite hcond hx (.intConst 3) (.inl rfl) fun _ _ _ _ _ => rfl)

/-- The label of the first branch does not hold for the other one. -/
theorem not_sound_mkIte : ∃ t v, Built halfInterp False t v ∧ t.sort = .int ∧ ¬ Sound halfInterp t v := by
  have hx : Built halfInterp False (.var "x" .int) (.num 1) := .intVar "x"
  have hr : Built halfInterp False (.var "r" .real) (.num (1 / 2)) := .realVar "r"
  have hcond : Built halfInterp False (mkLt (.var "x" .int) (.var "r" .real)) (.bool false) := by
    have h := Built.cmp .lt hx hr
    rwa [decide_eq_false (by norm_num [CmpOp.Holds])] at h
  refine ⟨_, _, .ite hcond hx hr (.inr ⟨rfl, rfl⟩) nofun, rfl, fun hsound => ?_⟩
  obtain ⟨n, hn⟩ := hsound.label
  have hhalf : (1 / 2 : ℚ) = n := by simpa using hn
  have hden := congrArg Rat.den hhalf
  simp at hden

end Nixie.Ast
