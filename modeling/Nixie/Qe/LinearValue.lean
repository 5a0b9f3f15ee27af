import Nixie.Qe.Linear

/-!
A linear form has the value of the term it was read from, at every value of the variable.
-/

namespace Nixie.Qe

open Ast Interp List Option LinForm

variable {m : Manager} {K D : Type*} [Field K] [LinearOrder K] [FloorRing K] [DecidableEq D]
  {I : Interp m K D} {x : String} {s : SortId} {t a b : Term} {α : Type} {β : Type}

theorem mapM_some {f : α → Option β} {l : List α} {l' : List β} (h : l.mapM f = some l') :
    List.Forall₂ (fun a b => f a = some b) l l' := by
  induction l generalizing l' with
  | nil =>
    cases h
    exact .nil
  | cons a l ih =>
    simp only [mapM_cons, bind_eq_bind, bind_eq_some_iff] at h
    obtain ⟨b, hb, l'', hl, heq⟩ := h
    cases heq
    exact .cons hb (ih hl)

theorem bind_ok {e : Except String α} {f : α → Except String β} {b : β} : e.bind f = .ok b ↔ ∃ a, e = .ok a ∧
    f a = .ok b := by
  cases e <;> simp [Except.bind]

theorem map_ok {e : Except String α} {f : α → β} {b : β} : e.map f = .ok b ↔ ∃ a, e = .ok a ∧ f a = b := by
  cases e <;> simp [Except.map]

theorem mapM_ok {f : α → Except String β} {l : List α} {l' : List β} (h : l.mapM f = .ok l') :
    List.Forall₂ (fun a b => f a = .ok b) l l' := by
  induction l generalizing l' with
  | nil =>
    cases h
    exact .nil
  | cons a l ih =>
    rw [mapM_cons] at h
    obtain ⟨b, hb, h⟩ := bind_ok.mp h
    obtain ⟨l'', hl, heq⟩ := bind_ok.mp h
    cases heq
    exact .cons hb (ih hl)

theorem forall₂_left {R : α → β → Prop} {l : List α} {l' : List β} (h : List.Forall₂ R l l') :
    ∀ a ∈ l, ∃ b ∈ l', R a b := by
  induction h with
  | nil => simp
  | @cons a b l l' hab _ ih =>
    refine forall_mem_cons.mpr ⟨⟨b, by simp, hab⟩, fun a' ha' => ?_⟩
    obtain ⟨b', hb', hR⟩ := ih a' ha'
    exact ⟨b', by simp [hb'], hR⟩

theorem forall₂_right {R : α → β → Prop} {l : List α} {l' : List β} (h : List.Forall₂ R l l') :
    ∀ b ∈ l', ∃ a ∈ l, R a b := forall₂_left h.flip

theorem okOr_ok {message : String} {o : Option α} {a : α} : okOr message o = .ok a ↔ o = some a := by
  cases o <;> simp [okOr]

theorem mentionsVar_eq (x : String) (t : Term) : mentionsVar x t = (isVar x t || t.children.any (mentionsVar x)) := by
  rw [mentionsVar]
  simp

def Free (x : String) (t : Term) : Prop := mentionsVar x t = false

instance : Decidable (Free x t) := inferInstanceAs (Decidable (_ = false))

theorem free_iff : Free x t ↔ isVar x t = false ∧ ∀ a ∈ t.children, Free x a := by
  rw [Free, mentionsVar_eq, Bool.or_eq_false_iff, List.any_eq_false]
  simp [Free]

theorem Free.child (h : Free x t) : ∀ a ∈ t.children, Free x a := (free_iff.mp h).2

theorem free_of_children (hvar : isVar x t = false) (h : ∀ a ∈ t.children, Free x a) : Free x t :=
  free_iff.mpr ⟨hvar, h⟩

section

def assign (I : Interp m K D) (x : String) (s : SortId) (v : Value K D) (hv : v.HasSort s) : Interp m K D :=
  { I with
    value := fun t => if t = .var x s then v else I.value t
    value_sort := fun t => by
      split_ifs with h
      · exact h ▸ hv
      · exact I.value_sort t }

omit [LinearOrder K] [FloorRing K] [DecidableEq D] in
theorem hasSort_real (k : K) : (Value.num k : Value K D).HasSort .real := ⟨k, rfl⟩

omit [LinearOrder K] [FloorRing K] [DecidableEq D] in
theorem hasSort_int (n : ℤ) : (Value.num (n : K) : Value K D).HasSort .int := ⟨n, rfl⟩

def setReal (I : Interp m K D) (x : String) (k : K) : Interp m K D := assign I x .real (.num k) (hasSort_real k)

def setInt (I : Interp m K D) (x : String) (n : ℤ) : Interp m K D := assign I x .int (.num n) (hasSort_int n)

variable {v : Value K D} {hv : v.HasSort s}

theorem eval_assign_self : (assign I x s v hv).eval (.var x s) = v := by
  simp [eval, assign]

omit [LinearOrder K] [FloorRing K] [DecidableEq D] in
theorem assign_value (h : (I.value (.var x s)).HasSort s) : assign I x s (I.value (.var x s)) h = I := by
  have hvalue : (fun t => if t = .var x s then I.value (.var x s) else I.value t) = I.value := by
    funext t
    split_ifs with ht
    · rw [ht]
    · rfl
  cases I
  simp only [assign, Interp.mk.injEq, and_true]
  exact hvalue

omit [LinearOrder K] [FloorRing K] [DecidableEq D] in
theorem assign_assign {w : Value K D} {hw : w.HasSort s} : assign (assign I x s v hv) x s w hw = assign I x s w hw := by
  simp only [assign, Interp.mk.injEq, and_true]
  funext t
  split_ifs <;> rfl

omit [LinearOrder K] [FloorRing K] [DecidableEq D] in
theorem exists_setInt (I : Interp m K D) (x : String) : ∃ n, setInt I x n = I := by
  obtain ⟨n, hn⟩ := I.value_sort (.var x .int)
  refine ⟨n, ?_⟩
  rw [setInt]
  simp only [← hn]
  exact assign_value _

theorem eval_assign_of_free (h : Free x t) : (assign I x s v hv).eval t = I.eval t := by
  induction t using Term.induct with
  | h t ih =>
    have hchild : ∀ a ∈ t.children, (assign I x s v hv).eval a = I.eval a :=
      fun a ha => ih a ha (h.child a ha)
    cases t
    case var name s' =>
      have hname : name ≠ x := by simpa [isVar] using (free_iff.mp h).1
      simp [eval, assign, hname]
    case other k args s' => simp [eval, assign]
    all_goals
      simp only [Term.children, forall_mem_cons, not_mem_nil, false_imp_iff, implies_true, and_true] at hchild
      simp only [eval]
    case and args | or args | add args s' | mul args s' =>
      simp only [evals_eq_map, map_congr_left hchild]
    case dtConstructor c args s' =>
      rw [evals_eq_map, map_congr_left hchild, evals_eq_map]
      rfl
    all_goals
      simp only [hchild]
      try rfl

theorem truth_assign_of_free (h : Free x t) : (assign I x s v hv).truth t = I.truth t := by
  rw [truth, eval_assign_of_free h, truth]

theorem num_assign_of_free (h : Free x t) : (assign I x s v hv).num t = I.num t := by
  rw [num, eval_assign_of_free h, num]

end

inductive Uniform (m : Manager) (s : SortId) : Term → Prop
  | mk {t : Term} (wf : m.WellSorted t) (sort : t.sort = s)
    (children : ∀ a ∈ t.children, a.sort.isNumeric = true → Uniform m s a) : Uniform m s t

namespace Uniform

theorem wf (h : Uniform m s t) : m.WellSorted t := by
  cases h with
  | mk wf _ _ => exact wf

theorem sort (h : Uniform m s t) : t.sort = s := by
  cases h with
  | mk _ sort _ => exact sort

theorem child (h : Uniform m s t) (ha : a ∈ t.children) (hnum : a.sort.isNumeric = true) : Uniform m s a := by
  cases h with
  | mk _ _ children => exact children a ha hnum

theorem isNum (h : Uniform m s t) (hs : s.isNumeric = true) : IsNum m t := ⟨h.wf, h.sort ▸ hs⟩

end Uniform

section

variable {R : Type} [CommRing R] {ι : R →+* K} {k : K} {f g : LinForm R}

def othersSum (ι : R →+* K) (I : Interp m K D) (others : List (Term × R)) : K :=
  (others.map fun e => ι e.2 * I.num e.1).sum

namespace LinForm

def rest (f : LinForm R) (ι : R →+* K) (I : Interp m K D) : K := othersSum ι I f.others + ι f.constant

def eval (f : LinForm R) (ι : R →+* K) (I : Interp m K D) (k : K) : K := ι f.xCoeff * k + f.rest ι I

end LinForm

theorem othersSum_nil : othersSum ι I ([] : List (Term × R)) = 0 := rfl

theorem othersSum_cons (e : Term × R) (es : List (Term × R)) :
    othersSum ι I (e :: es) = ι e.2 * I.num e.1 + othersSum ι I es := by
  simp [othersSum]

theorem othersSum_addEntry (es : List (Term × R)) (e : Term × R) :
    othersSum ι I (addEntry es e) = othersSum ι I es + ι e.2 * I.num e.1 := by
  induction es with
  | nil => simp [addEntry, othersSum]
  | cons e' es ih =>
    rw [addEntry]
    split_ifs with heq
    · rw [othersSum_cons, othersSum_cons, heq, map_add]
      ring
    · rw [othersSum_cons, othersSum_cons, ih]
      ring

theorem othersSum_foldl (es es' : List (Term × R)) :
    othersSum ι I (es'.foldl addEntry es) = othersSum ι I es + othersSum ι I es' := by
  induction es' generalizing es with
  | nil => simp [othersSum_nil]
  | cons e es' ih =>
    rw [foldl_cons, ih, othersSum_addEntry, othersSum_cons]
    ring

theorem othersSum_map_mul (es : List (Term × R)) (c : R) :
    othersSum ι I (es.map fun e => (e.1, e.2 * c)) = othersSum ι I es * ι c := by
  induction es with
  | nil => simp [othersSum_nil]
  | cons e es ih =>
    rw [map_cons, othersSum_cons, ih, othersSum_cons, map_mul]
    ring

theorem othersSum_map_neg (es : List (Term × R)) : othersSum ι I (es.map fun e => (e.1, -e.2)) = -othersSum ι I es := by
  simpa using othersSum_map_mul (ι := ι) (I := I) es (-1)

theorem othersSum_eq_zero {es : List (Term × R)} (h : ∀ e ∈ es, e.2 = 0) : othersSum ι I es = 0 := by
  induction es with
  | nil => rfl
  | cons e es ih =>
    obtain ⟨he, hes⟩ := forall_mem_cons.mp h
    rw [othersSum_cons, he, ih hes, map_zero, zero_mul, zero_add]

theorem othersSum_entries [DecidableEq R] (es : List (Term × R)) : othersSum ι I (entries m es) = othersSum ι I es := by
  have hfilter : othersSum ι I (es.filter fun e => e.2 ≠ 0) = othersSum ι I es := by
    induction es with
    | nil => rfl
    | cons e es ih =>
      rw [filter_cons]
      split_ifs with he
      · rw [othersSum_cons, ih, othersSum_cons]
      · have hzero : e.2 = 0 := by simpa using he
        rw [ih, othersSum_cons, hzero, map_zero, zero_mul, zero_add]
  rw [← hfilter]
  exact ((mergeSort_perm _ _).map _).sum_eq

namespace LinForm

theorem eval_constantVal (c : R) : (constantVal c : LinForm R).eval ι I k = ι c := by
  simp [eval, rest, constantVal, othersSum_nil]

theorem eval_x : (LinForm.x : LinForm R).eval ι I k = k := by
  simp [eval, rest, x, othersSum_nil]

theorem eval_atom (t : Term) : (atom t : LinForm R).eval ι I k = I.num t := by
  simp [eval, rest, atom, othersSum]

theorem eval_neg (f : LinForm R) : f.neg.eval ι I k = -f.eval ι I k := by
  simp only [eval, rest, neg, othersSum_map_neg, map_neg]
  ring

theorem eval_add (f g : LinForm R) : (f.add g).eval ι I k = f.eval ι I k + g.eval ι I k := by
  simp only [eval, rest, add, othersSum_foldl, map_add]
  ring

theorem eval_sub (f g : LinForm R) : (f.sub g).eval ι I k = f.eval ι I k - g.eval ι I k := by
  rw [sub, eval_add, eval_neg, sub_eq_add_neg]

theorem rest_scale (f : LinForm R) (c : R) : (f.scale c).rest ι I = f.rest ι I * ι c := by
  simp only [rest, scale, othersSum_map_mul, map_mul]
  ring

theorem eval_scale (f : LinForm R) (c : R) : (f.scale c).eval ι I k = f.eval ι I k * ι c := by
  rw [eval, rest_scale, eval, scale, map_mul]
  ring

theorem eval_foldl_add (f : LinForm R) (fs : List (LinForm R)) :
    (fs.foldl add f).eval ι I k = f.eval ι I k + (fs.map fun g => g.eval ι I k).sum := by
  induction fs generalizing f with
  | nil => simp
  | cons g fs ih =>
    rw [foldl_cons, ih, eval_add, map_cons, sum_cons]
    ring

theorem eval_of_isConstant [DecidableEq R] (h : f.isConstant = true) : f.eval ι I k = ι f.constant := by
  obtain ⟨hx, hothers⟩ := of_decide_eq_true h
  rw [eval, rest, othersSum_eq_zero hothers, hx]
  simp

variable {fs : List (LinForm R)}

theorem eval_product [DecidableEq R] {c : R} {nonconst : Option (LinForm R)} (h : product c nonconst fs = some g) :
    g.eval ι I k = ι c * (nonconst.elim 1 fun f => f.eval ι I k) * (fs.map fun f => f.eval ι I k).prod := by
  induction fs generalizing c nonconst with
  | nil =>
    cases nonconst <;> cases h
    · simp [eval_constantVal]
    · simp [eval_scale, mul_comm]
  | cons f fs ih =>
    unfold product at h
    split_ifs at h with hconst
    · rw [ih h, map_mul, map_cons, prod_cons, eval_of_isConstant hconst]
      ring
    · cases nonconst with
      | none =>
        rw [ih h, map_cons, prod_cons]
        simp only [elim_none, elim_some]
        ring
      | some f' => cases h

def Over (f : LinForm R) (p : Term → Prop) : Prop := ∀ e ∈ f.others, p e.1

variable {p : Term → Prop}

theorem over_neg (h : f.Over p) : f.neg.Over p := by
  intro e he
  obtain ⟨e', he', rfl⟩ := mem_map.mp he
  exact h e' he'

theorem over_scale (h : f.Over p) (c : R) : (f.scale c).Over p := by
  intro e he
  obtain ⟨e', he', rfl⟩ := mem_map.mp he
  exact h e' he'

theorem over_addEntry {es : List (Term × R)} {e : Term × R} (h : ∀ e ∈ es, p e.1) (he : p e.1) :
    ∀ e' ∈ addEntry es e, p e'.1 := by
  induction es with
  | nil => simpa [addEntry] using he
  | cons e' es ih =>
    obtain ⟨h1, h2⟩ := forall_mem_cons.mp h
    rw [addEntry]
    split_ifs
    · exact forall_mem_cons.mpr ⟨h1, h2⟩
    · exact forall_mem_cons.mpr ⟨h1, ih h2⟩

theorem over_add (hf : f.Over p) (hg : g.Over p) : (f.add g).Over p := by
  have hfold : ∀ es es' : List (Term × R), (∀ e ∈ es, p e.1) → (∀ e ∈ es', p e.1) →
      ∀ e ∈ es'.foldl addEntry es, p e.1 := by
    intro es es' h h'
    induction es' generalizing es with
    | nil => exact h
    | cons e es' ih =>
      obtain ⟨h1, h2⟩ := forall_mem_cons.mp h'
      exact ih _ (over_addEntry h h1) h2
  exact hfold _ _ hf hg

theorem over_sub (hf : f.Over p) (hg : g.Over p) : (f.sub g).Over p := over_add hf (over_neg hg)

theorem over_foldl_add (hf : f.Over p) (h : ∀ g ∈ fs, g.Over p) : (fs.foldl add f).Over p := by
  induction fs generalizing f with
  | nil => exact hf
  | cons g fs ih =>
    obtain ⟨h1, h2⟩ := forall_mem_cons.mp h
    exact ih (over_add hf h1) h2

theorem over_product [DecidableEq R] {c : R} {nonconst : Option (LinForm R)} (h : product c nonconst fs = some g)
    (hn : ∀ f ∈ nonconst, f.Over p) (hfs : ∀ f ∈ fs, f.Over p) : g.Over p := by
  induction fs generalizing c nonconst with
  | nil =>
    cases nonconst <;> cases h
    · simp [Over, constantVal]
    · exact over_scale (hn _ rfl) c
  | cons f fs ih =>
    obtain ⟨h1, h2⟩ := forall_mem_cons.mp hfs
    unfold product at h
    split_ifs at h
    · exact ih h hn h2
    · cases nonconst with
      | none => exact ih h (by simpa using h1) h2
      | some f' => cases h

end LinForm

end

section

variable {R : Type} [CommRing R] {r : Reader R} {ι : R →+* K} {f : LinForm R}

structure Reader.Sound (r : Reader R) (s : SortId) (ι : R →+* K) : Prop where
  numeric : s.isNumeric = true
  injective : Function.Injective ι
  numeral : ∀ t c, r.numeral t = some c →
    (∃ n : ℤ, t = .intConst n ∧ ι c = n) ∨ ∃ q : Rational64, t = .realConst q ∧ ι c = q.value
  recip : ∀ inv, r.recip = some inv → s ≠ .int ∧ ∀ c, ι (inv c) = (ι c)⁻¹

structure Represents (I : Interp m K D) (x : String) (s : SortId) (ι : R →+* K) (t : Term)
    (f : LinForm R) : Prop where
  num : ∀ k hv, (assign I x s (.num k) hv).num t = f.eval ι I k
  within : f.Over fun a => Uniform m s a ∧ Free x a

theorem represents_atom (h : Uniform m s t) (hfree : Free x t) : Represents I x s ι t (.atom t) where
  num := fun k hv => by rw [num_assign_of_free hfree, eval_atom]
  within := by simpa [LinForm.Over, atom] using ⟨h, hfree⟩

theorem represents_leaf (hr : r.Sound s ι) (h : Uniform m s t) (hf : r.leaf x t = some f) : Represents I x s ι t f := by
  unfold Reader.leaf at hf
  split at hf
  · next c hc =>
    cases hf
    refine ⟨fun k hv => ?_, by simp [LinForm.Over, constantVal]⟩
    rw [eval_constantVal]
    rcases hr.numeral t c hc with ⟨n, rfl, hn⟩ | ⟨q, rfl, hq⟩
    · rw [hn, num_intConst]
    · rw [hq, num_realConst]
  · split_ifs at hf with hx
    cases hf
    exact represents_atom h (by simpa [Free] using hx)

theorem toLinears_eq_some [DecidableEq R] {args : List Term} {fs : List (LinForm R)} :
    r.toLinears x args = some fs ↔ List.Forall₂ (fun a f => r.toLinear x a = some f) args fs := by
  induction args generalizing fs with
  | nil => simp [Reader.toLinears, eq_comm]
  | cons a args ih =>
    simp only [Reader.toLinears, bind_eq_bind, bind_eq_some_iff, forall₂_cons_left_iff, ih]
    constructor
    · rintro ⟨f, hf, fs', hfs, heq⟩
      cases heq
      exact ⟨f, fs', hf, hfs, rfl⟩
    · rintro ⟨f, fs', hf, hfs, rfl⟩
      exact ⟨f, hf, fs', hfs, rfl⟩

variable {args : List Term} {fs : List (LinForm R)}

theorem represents_toLinears [DecidableEq R] (ih : ∀ a ∈ args, ∀ f, r.toLinear x a = some f → Represents I x s ι a f)
    (h : r.toLinears x args = some fs) : List.Forall₂ (Represents I x s ι) args fs := by
  induction (toLinears_eq_some).mp h with
  | nil => exact .nil
  | cons hf _ tail_ih =>
    obtain ⟨h1, h2⟩ := forall_mem_cons.mp ih
    exact .cons (h1 _ hf) (tail_ih h2 ((toLinears_eq_some).mpr ‹_›))

theorem nums_of_represents (h : List.Forall₂ (Represents I x s ι) args fs) (k : K)
    (hv : (Value.num k : Value K D).HasSort s) : args.map (assign I x s (.num k) hv).num =
    fs.map fun f => f.eval ι I k := by
  induction h with
  | nil => rfl
  | cons hf _ ih => rw [map_cons, hf.num, ih, map_cons]

theorem over_of_represents (h : List.Forall₂ (Represents I x s ι) args fs) :
    ∀ f ∈ fs, f.Over fun a => Uniform m s a ∧ Free x a := by
  induction h with
  | nil => simp
  | cons hf _ ih => exact forall_mem_cons.mpr ⟨hf.within, ih⟩

theorem represents_toLinear [DecidableEq R] (hr : r.Sound s ι) (h : Uniform m s t) (hf : r.toLinear x t = some f) :
    Represents I x s ι t f := by
  induction t using Term.induct generalizing f with
  | h t ih =>
    have hfits := h.wf.fits
    cases t
    case var name s' =>
      have hsort : s' = s := h.sort
      rw [Reader.toLinear] at hf
      split_ifs at hf with hname
      · cases hf
        subst hname hsort
        refine ⟨fun k hv => ?_, by simp [LinForm.Over, x]⟩
        rw [LinForm.eval_x, num, eval_assign_self, Value.toNum_num]
      · cases hf
        exact represents_atom h (free_of_children (by simpa [isVar] using hname) (by simp [Term.children]))
    case neg a s' =>
      rw [Reader.toLinear, map_eq_some_iff] at hf
      obtain ⟨g, hg, rfl⟩ := hf
      have ha := ih a (by simp [Term.children]) (h.child (by simp [Term.children]) hfits.1) hg
      refine ⟨fun k hv => ?_, over_neg ha.within⟩
      rw [num_neg, ha.num, eval_neg]
    case add args s' =>
      rw [Reader.toLinear, map_eq_some_iff] at hf
      obtain ⟨fs, hfs, rfl⟩ := hf
      have hall : List.Forall₂ (Represents I x s ι) args fs :=
        represents_toLinears (fun a ha f hf => ih a ha (h.child ha (hfits.1 a ha)) hf) hfs
      refine ⟨fun k hv => ?_, over_foldl_add (by simp [LinForm.Over, zero]) (over_of_represents hall)⟩
      rw [num_add, nums_of_represents hall, eval_foldl_add]
      simp [LinForm.eval, LinForm.rest, LinForm.zero, othersSum_nil]
    case sub a b s' =>
      simp only [Reader.toLinear, bind_eq_bind, bind_eq_some_iff] at hf
      obtain ⟨f, hf, g, hg, heq⟩ := hf
      cases heq
      have ha := ih a (by simp [Term.children]) (h.child (by simp [Term.children]) hfits.1) hf
      have hb := ih b (by simp [Term.children]) (h.child (by simp [Term.children]) hfits.2.1) hg
      refine ⟨fun k hv => ?_, over_sub ha.within hb.within⟩
      rw [eval_sub, ← ha.num k hv, ← hb.num k hv]
      rfl
    case mul args s' =>
      simp only [Reader.toLinear, bind_eq_bind, bind_eq_some_iff] at hf
      obtain ⟨fs, hfs, hprod⟩ := hf
      have hall : List.Forall₂ (Represents I x s ι) args fs :=
        represents_toLinears (fun a ha f hf => ih a ha (h.child ha (hfits.1 a ha)) hf) hfs
      refine ⟨fun k hv => ?_, over_product hprod (by simp) (over_of_represents hall)⟩
      rw [num_mul, nums_of_represents hall, eval_product hprod]
      simp
    case div a b s' =>
      rw [Reader.toLinear] at hf
      split at hf
      · next inv hinv =>
        obtain ⟨hs, hrecip⟩ := hr.recip inv hinv
        simp only [bind_eq_bind, bind_eq_some_iff] at hf
        obtain ⟨g, hg, hf⟩ := hf
        split_ifs at hf with hconst
        simp only [Bool.or_eq_true, Bool.not_eq_true', decide_eq_true_eq, not_or, Bool.not_eq_false] at hconst
        obtain ⟨fa, hfa, heq⟩ := bind_eq_some_iff.mp hf
        cases heq
        have ha := ih a (by simp [Term.children]) (h.child (by simp [Term.children]) hfits.1) hfa
        have hb := ih b (by simp [Term.children]) (h.child (by simp [Term.children]) hfits.2.1) hg
        refine ⟨fun k hv => ?_, over_scale ha.within _⟩
        have hsort : s' ≠ .int := by
          rw [show s' = s from h.sort]
          exact hs
        have hne : ι g.constant ≠ 0 := fun h0 => hconst.2 (hr.injective (h0.trans (map_zero ι).symm))
        have hdiv : (assign I x s (.num k) hv).num (.div a b s') = (assign I x s (.num k) hv).realDiv
            ((assign I x s (.num k) hv).num a) ((assign I x s (.num k) hv).num b) := by
          simp only [Interp.num, Interp.eval, if_neg hsort, Value.toNum_num]
        rw [hdiv, ha.num, hb.num, eval_of_isConstant hconst.1, eval_scale, hrecip,
          Interp.realDiv, if_neg hne, div_eq_mul_inv]
      · exact represents_leaf hr h hf
    all_goals
      simp only [Reader.toLinear] at hf
      exact represents_leaf hr h hf

end

end Nixie.Qe
