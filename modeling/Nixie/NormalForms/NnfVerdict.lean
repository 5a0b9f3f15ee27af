import Nixie.NormalForms.NnfNormal

/-!
The stack and the cache of the conversion compute the normal form of every term; the recogniser takes it when no atom is
left under a negation.
-/

namespace Nixie.NormalForms

open List Option

open Nixie.Ast (SortId)
open Formula

variable {A T : Type} [DecidableEq A] [DecidableEq T] {t a : Formula A T} {args : List (Formula A T)} {n : Bool}

section

variable {cache cache' cache'' : Cache A T} {steps steps' work : List (NnfStep A T)}

def Advances (cache : Cache A T) (steps : List (NnfStep A T)) (cache' : Cache A T) : Prop :=
  ∃ k, ∀ fuel work, runSteps (k + fuel) cache (steps ++ work) = runSteps fuel cache' work

theorem Advances.nil : Advances cache [] cache := ⟨0, fun fuel work => by rw [Nat.zero_add, nil_append]⟩

theorem Advances.append (h : Advances cache steps cache') (h' : Advances cache' steps' cache'') :
    Advances cache (steps ++ steps') cache'' := by
  obtain ⟨k, hk⟩ := h
  obtain ⟨k', hk'⟩ := h'
  refine ⟨k + k', fun fuel work => ?_⟩
  rw [append_assoc, Nat.add_assoc, hk, hk']

theorem Advances.step {step : NnfStep A T} (h : Advances (runNnfStep cache step).1 (runNnfStep cache step).2 cache') :
    Advances cache [step] cache' := by
  obtain ⟨k, hk⟩ := h
  refine ⟨k + 1, fun fuel work => ?_⟩
  rw [Nat.add_right_comm, singleton_append, runSteps]
  exact hk fuel work

def Cache.Right (cache : Cache A T) : Prop := ∀ t n r, cache t n = some r → r = t.nnf n

structure Cache.Grows (cache cache' : Cache A T) : Prop where
  right : cache'.Right
  keeps : ∀ t n, (cache t n).isSome → (cache' t n).isSome

omit [DecidableEq A] [DecidableEq T] in
theorem Cache.Right.grows (h : cache.Right) : cache.Grows cache := ⟨h, fun _ _ => id⟩

omit [DecidableEq A] [DecidableEq T] in
theorem Cache.Grows.trans (h : cache.Grows cache') (h' : cache'.Grows cache'') : cache.Grows cache'' :=
  ⟨h'.right, fun t n hsome => h'.keeps t n (h.keeps t n hsome)⟩

omit [DecidableEq A] [DecidableEq T] in
theorem Cache.Right.find (h : cache.Right) (hsome : (cache t n).isSome) {default : Formula A T} :
    cache.find t n default = t.nnf n := by
  obtain ⟨r, hr⟩ := isSome_iff_exists.mp hsome
  rw [Cache.find, hr, getD_some, h t n r hr]

variable {r : Formula A T}

@[simp] theorem Cache.insert_self : cache.insert t n r t n = some r := if_pos ⟨rfl, rfl⟩

theorem Cache.Right.insert (h : cache.Right) (hr : r = t.nnf n) : cache.Grows (cache.insert t n r) := by
  refine ⟨fun t' n' r' h' => ?_, fun t' n' hsome => ?_⟩
  · rw [Cache.insert] at h'
    split_ifs at h' with heq
    · obtain ⟨rfl, rfl⟩ := heq
      rw [← some.inj h', hr]
    · exact h t' n' r' h'
  · rw [Cache.insert]
    split_ifs
    · rfl
    · exact hsome

def Expandable (t : Formula A T) (n : Bool) : Prop :=
  ∀ cache : Cache A T, cache.Right → ∃ cache', Advances cache [.expand t n] cache' ∧ cache.Grows cache' ∧
    (cache' t n).isSome

theorem Cache.Right.missing (h : cache.Right) (ht : Expandable t n) (earlier : Cache A T)
    (hgrows : earlier.Grows cache) : ∃ cache', Advances cache (earlier.missing t n) cache' ∧ cache.Grows cache' ∧
    (cache' t n).isSome := by
  rw [Cache.missing]
  split_ifs with hsome
  · exact ⟨cache, .nil, h.grows, hgrows.keeps t n hsome⟩
  · exact ht cache h

theorem Cache.Right.missing_all (h : cache.Right) (hargs : ∀ a ∈ args, Expandable a n) (earlier : Cache A T)
    (hgrows : earlier.Grows cache) : ∃ cache', Advances cache (args.flatMap fun a => earlier.missing a n) cache' ∧
    cache.Grows cache' ∧ ∀ a ∈ args, (cache' a n).isSome := by
  induction args generalizing cache with
  | nil => exact ⟨cache, .nil, h.grows, fun _ ha => absurd ha not_mem_nil⟩
  | cons a args ih =>
    obtain ⟨ha, hrest⟩ := forall_mem_cons.mp hargs
    obtain ⟨middle, hfirst, hmiddle, hfound⟩ := h.missing ha earlier hgrows
    obtain ⟨last, hsecond, hlast, hall⟩ := ih hmiddle.right hrest (hgrows.trans hmiddle)
    rw [flatMap_cons]
    exact ⟨last, hfirst.append hsecond, hmiddle.trans hlast, forall_mem_cons.mpr ⟨hlast.keeps a n hfound, hall⟩⟩

theorem Cache.Grows.combine {step : NnfStep A T} (hsteps : Advances cache steps cache') (h : cache.Grows cache')
    (hstep : runNnfStep cache' step = (cache'.insert t n (t.nnf n), [])) :
    ∃ last, Advances cache (steps ++ [step]) last ∧ cache.Grows last ∧ (last t n).isSome := by
  refine ⟨_, hsteps.append (.step ?_), h.trans (h.right.insert rfl), by rw [Cache.insert_self]; rfl⟩
  rw [hstep]
  exact .nil

theorem expandable_of (h : ∀ cache : Cache A T, cache.Right → cache t n = none →
    ∃ cache', Advances (runNnfStep cache (.expand t n)).1 (runNnfStep cache (.expand t n)).2 cache' ∧
    cache.Grows cache' ∧ (cache' t n).isSome) : Expandable t n := by
  intro cache hright
  cases hcached : cache t n with
  | some r =>
    refine ⟨cache, .step ?_, hright.grows, by rw [hcached]; rfl⟩
    have hstep : runNnfStep cache (.expand t n) = (cache, []) := if_pos (by rw [hcached]; rfl)
    rw [hstep]
    exact .nil
  | none =>
    obtain ⟨cache', hsteps, hgrows, hfound⟩ := h cache hright hcached
    exact ⟨cache', .step hsteps, hgrows, hfound⟩

theorem expandable_leaf (hstep : ∀ cache : Cache A T, cache t n = none →
    runNnfStep cache (.expand t n) = (cache.insert t n (t.nnf n), [])) : Expandable t n := by
  refine expandable_of fun cache hright hcached => ⟨cache.insert t n (t.nnf n), ?_, hright.insert rfl, ?_⟩
  · rw [hstep cache hcached]
    exact .nil
  · rw [Cache.insert_self]
    rfl

omit [DecidableEq A] [DecidableEq T] in
theorem combineXorBuilt_find {lhs rhs : Formula A T} (h : cache.Right) (hfound : ∀ k, (cache lhs k).isSome ∧ (cache rhs
    k).isSome) : mkConnective true [mkConnective false [cache.find lhs false lhs, cache.find rhs false rhs],
    mkConnective false [cache.find lhs true lhs, cache.find rhs true rhs]] = (Formula.xor lhs rhs).nnf false := by
  rw [h.find (hfound false).1, h.find (hfound false).2, h.find (hfound true).1, h.find (hfound true).2, nnf,
    Bool.not_false]

theorem expandable_step (t : Formula A T) (hchildren : ∀ a ∈ t.children, ∀ k, Expandable a k)
    (hbuilt : ∀ lhs rhs, t = .xor lhs rhs → Expandable (t.nnf false) true) : Expandable t n := by
  cases t with
  | const b => exact expandable_leaf fun cache hcached => by simp only [runNnfStep, hcached, nnf]; rfl
  | var x s =>
    exact expandable_leaf fun cache hcached => by cases n <;> simp only [runNnfStep, hcached, nnf] <;> rfl
  | atom a =>
    exact expandable_leaf fun cache hcached => by cases n <;> simp only [runNnfStep, hcached, nnf] <;> rfl
  | not arg =>
    refine expandable_of fun cache hright hcached => ?_
    obtain ⟨cache', hsteps, hgrows, hfound⟩ := hright.missing (hchildren arg mem_cons_self (!n)) cache hright.grows
    simp only [runNnfStep, hcached, isSome_none, Bool.false_eq_true, if_false]
    exact hgrows.combine hsteps (by rw [runNnfStep, hgrows.right.find hfound, nnf])
  | connective c args =>
    refine expandable_of fun cache hright hcached => ?_
    obtain ⟨cache', hsteps, hgrows, hfound⟩ := hright.missing_all (fun a ha => hchildren a ha n) cache hright.grows
    simp only [runNnfStep, hcached, isSome_none, Bool.false_eq_true, if_false]
    refine hgrows.combine hsteps ?_
    have hfind : (args.map fun a => cache'.find a n a) = args.map fun a => a.nnf n :=
      map_congr_left fun a ha => hgrows.right.find (hfound a ha)
    rw [runNnfStep, hfind, nnf, nnfs_eq_map]
  | implies lhs rhs =>
    refine expandable_of fun cache hright hcached => ?_
    obtain ⟨middle, hfirst, hmiddle, hlhs⟩ :=
      hright.missing (hchildren lhs (by simp [children]) (!n)) cache hright.grows
    obtain ⟨last, hsecond, hlast, hrhs⟩ := hmiddle.right.missing (hchildren rhs (by simp [children]) n) cache hmiddle
    simp only [runNnfStep, hcached, isSome_none, Bool.false_eq_true, if_false]
    refine (hmiddle.trans hlast).combine (hfirst.append hsecond) ?_
    rw [runNnfStep, hlast.right.find (hlast.keeps _ _ hlhs), hlast.right.find hrhs, nnf]
  | xor lhs rhs =>
    have hl := hchildren lhs (by simp [children])
    have hr := hchildren rhs (by simp [children])
    refine expandable_of fun cache hright hcached => ?_
    obtain ⟨c₁, hs₁, hg₁, hf₁⟩ := hright.missing (hr true) cache hright.grows
    obtain ⟨c₂, hs₂, hg₂, hf₂⟩ := hg₁.right.missing (hl true) cache hg₁
    obtain ⟨c₃, hs₃, hg₃, hf₃⟩ := hg₂.right.missing (hr false) cache (hg₁.trans hg₂)
    obtain ⟨c₄, hs₄, hg₄, hf₄⟩ := hg₃.right.missing (hl false) cache ((hg₁.trans hg₂).trans hg₃)
    have hgrows := ((hg₁.trans hg₂).trans hg₃).trans hg₄
    have hsteps := ((hs₁.append hs₂).append hs₃).append hs₄
    have hfound : ∀ k, (c₄ lhs k).isSome ∧ (c₄ rhs k).isSome := by
      intro k
      cases k with
      | false => exact ⟨hf₄, hg₄.keeps _ _ hf₃⟩
      | true => exact ⟨(hg₃.trans hg₄).keeps _ _ hf₂, ((hg₂.trans hg₃).trans hg₄).keeps _ _ hf₁⟩
    have hxor := combineXorBuilt_find hgrows.right hfound
    simp only [runNnfStep, hcached, isSome_none, Bool.false_eq_true, if_false]
    cases n with
    | false => exact hgrows.combine hsteps (by simp only [runNnfStep, hxor, Bool.false_eq_true, if_false])
    | true =>
      -- the built term is converted once more, under the negation
      obtain ⟨c₅, hs₅, hg₅, hf₅⟩ := hgrows.right.missing (hbuilt lhs rhs rfl) c₄ hgrows.right.grows
      obtain ⟨last, hlast, hlastGrows, hlastFound⟩ :
        ∃ last, Advances c₄ (c₄.missing ((Formula.xor lhs rhs).nnf false) true ++
          [.combineXorFinal (Formula.xor lhs rhs) true ((Formula.xor lhs rhs).nnf false)]) last ∧ c₄.Grows last ∧
            (last (Formula.xor lhs rhs) true).isSome :=
        hg₅.combine hs₅ (by rw [runNnfStep, hg₅.right.find hf₅, nnf_nnf_true, Bool.not_false])
      refine ⟨last, hsteps.append (.step ?_), hgrows.trans hlastGrows, hlastFound⟩
      simp only [runNnfStep, hxor, if_true]
      exact hlast
  | quantifier u vars ps body =>
    refine expandable_of fun cache hright hcached => ?_
    obtain ⟨cache', hsteps, hgrows, hfound⟩ := hright.missing (hchildren body (by simp [children]) n) cache hright.grows
    simp only [runNnfStep, hcached, isSome_none, Bool.false_eq_true, if_false]
    exact hgrows.combine hsteps (by rw [runNnfStep, hgrows.right.find hfound, nnf])

theorem Formula.Normal.expandable (h : Normal t) (n : Bool) : Expandable t n := by
  induction h generalizing n with
  | const b => exact expandable_step _ (by simp [children]) (by simp)
  | var x s => exact expandable_step _ (by simp [children]) (by simp)
  | atom a => exact expandable_step _ (by simp [children]) (by simp)
  | notVar x s =>
    exact expandable_step _ (forall_mem_singleton.mpr fun k => expandable_step _ (by simp [children]) (by simp))
      (by simp)
  | notAtom a =>
    exact expandable_step _ (forall_mem_singleton.mpr fun k => expandable_step _ (by simp [children]) (by simp))
      (by simp)
  | connective _ _ _ ih => exact expandable_step _ (fun a ha k => ih a ha k) (by simp)
  | quantifier _ _ ih => exact expandable_step _ (forall_mem_singleton.mpr ih) (by simp)

theorem expandable (t : Formula A T) (n : Bool) : Expandable t n := by
  induction t using induct generalizing n with
  | h t ih => exact expandable_step t ih fun _ _ _ => (normal_nnf t false).expandable true

theorem runSteps_fuel {fuel : ℕ} (h : runSteps fuel cache work = some cache') (k : ℕ) :
    runSteps (fuel + k) cache work = some cache' := by
  induction fuel generalizing cache work with
  | zero =>
    cases work with
    | nil => cases k <;> exact h
    | cons step work => cases h
  | succ fuel ih =>
    cases work with
    | nil =>
      rw [Nat.add_right_comm]
      exact h
    | cons step work =>
      rw [Nat.add_right_comm, runSteps]
      exact ih h

def Converts (t r : Formula A T) : Prop := ∃ fuel, toNnf fuel t = some r

theorem converts_iff : Converts t r ↔ r = t.nnf false := by
  have hempty : Cache.Right (fun _ _ => none : Cache A T) := nofun
  obtain ⟨cache, ⟨k, hk⟩, hgrows, hfound⟩ := expandable t false _ hempty
  have hends : runSteps k (fun _ _ => none) [.expand t false] = some cache := hk 0 []
  constructor
  · rintro ⟨fuel, h⟩
    obtain ⟨other, hother, rfl⟩ := map_eq_some_iff.mp h
    have hsame : some other = some cache := by
      rw [← runSteps_fuel hother k, Nat.add_comm, runSteps_fuel hends fuel]
    rw [some.inj hsame, hgrows.right.find hfound]
  · rintro rfl
    refine ⟨k, ?_⟩
    rw [toNnf, hends, map_some, hgrows.right.find hfound]

end

section

inductive Recognised : Formula A T → Prop
  | intro {t cs} : nnfChildren t = some cs → (∀ a ∈ cs, Recognised a) → Recognised t

omit [DecidableEq A] [DecidableEq T] in
theorem recognised_iff {cs : List (Formula A T)} (h : nnfChildren t = some cs) :
    Recognised t ↔ ∀ a ∈ cs, Recognised a := by
  refine ⟨?_, .intro h⟩
  rintro ⟨hcs, hall⟩
  rw [h] at hcs
  rwa [some.inj hcs]

omit [DecidableEq A] [DecidableEq T] in
theorem recognised_connective {c : Bool} : Recognised (connective c args) ↔ ∀ a ∈ args, Recognised a := by
  rw [recognised_iff (rfl : nnfChildren (connective c args) = some args.reverse)]
  simp only [mem_reverse]

omit [DecidableEq A] [DecidableEq T] in
theorem recognised_quantifier {u : Bool} {vars : List (String × SortId)} {ps : List (List T)} :
    Recognised (quantifier u vars ps t) ↔ Recognised t := by
  rw [recognised_iff (rfl : nnfChildren (quantifier u vars ps t) = some [t]), forall_mem_singleton]

omit [DecidableEq A] [DecidableEq T] in
theorem recognised_const {b : Bool} : Recognised (const b : Formula A T) := .intro rfl nofun

omit [DecidableEq A] [DecidableEq T] in
theorem not_recognised_notAtom {a : A} : ¬ Recognised (not (atom a) : Formula A T) := by
  rintro ⟨hcs, -⟩
  cases hcs

theorem isNnfLoop_of_recognised {visited stack : List (Formula A T)} (h : ∀ t ∈ stack, Recognised t) :
    isNnfLoop visited stack = true := by
  fun_induction isNnfLoop visited stack with
  | case1 visited => rfl
  | case2 visited t stack _ ih => exact ih (forall_mem_cons.mp h).2
  | case3 visited t stack _ hnone =>
    obtain ⟨hcs, -⟩ := (forall_mem_cons.mp h).1
    rw [hnone] at hcs
    cases hcs
  | case4 visited t stack _ cs hcs ih =>
    obtain ⟨ht, hstack⟩ := forall_mem_cons.mp h
    exact ih (forall_mem_append.mpr ⟨(recognised_iff hcs).mp ht, hstack⟩)

theorem isNnfLoop_closed {visited stack : List (Formula A T)}
    (hvisited : ∀ t ∈ visited, ∃ cs, nnfChildren t = some cs ∧ ∀ a ∈ cs, a ∈ visited ∨ a ∈ stack)
    (h : isNnfLoop visited stack = true) : ∃ seen : List (Formula A T), stack ⊆ seen ∧ visited ⊆ seen ∧
    ∀ t ∈ seen, ∃ cs, nnfChildren t = some cs ∧ ∀ a ∈ cs, a ∈ seen := by
  fun_induction isNnfLoop visited stack with
  | case1 visited => exact ⟨visited, nil_subset _, fun _ => id, by simpa using hvisited⟩
  | case2 visited t stack ht ih =>
    have hpending : ∀ a, a ∈ visited ∨ a ∈ t :: stack → a ∈ visited ∨ a ∈ stack := by
      rintro a (ha | ha)
      · exact .inl ha
      · rcases mem_cons.mp ha with rfl | ha
        · exact .inl ht
        · exact .inr ha
    obtain ⟨seen, hstack, hseen, hclosed⟩ := ih (fun v hv =>
      (hvisited v hv).imp fun cs hcs => ⟨hcs.1, fun a ha => hpending a (hcs.2 a ha)⟩) h
    exact ⟨seen, cons_subset.mpr ⟨hseen ht, hstack⟩, hseen, hclosed⟩
  | case3 => cases h
  | case4 visited t stack ht cs hcs ih =>
    have hnext : ∀ v ∈ t :: visited, ∃ ds, nnfChildren v = some ds ∧ ∀ a ∈ ds, a ∈ t :: visited ∨ a ∈ cs ++ stack := by
      refine forall_mem_cons.mpr ⟨⟨cs, hcs, fun a ha => .inr (mem_append_left _ ha)⟩, fun v hv => ?_⟩
      obtain ⟨ds, hds, hmem⟩ := hvisited v hv
      refine ⟨ds, hds, fun a ha => ?_⟩
      rcases hmem a ha with ha | ha
      · exact .inl (mem_cons_of_mem _ ha)
      · rcases mem_cons.mp ha with rfl | ha
        · exact .inl mem_cons_self
        · exact .inr (mem_append_right _ ha)
    obtain ⟨seen, hstack, hseen, hclosed⟩ := ih hnext h
    obtain ⟨htseen, hseen⟩ := cons_subset.mp hseen
    exact ⟨seen, cons_subset.mpr ⟨htseen, (append_subset.mp hstack).2⟩, hseen, hclosed⟩

omit [DecidableEq A] [DecidableEq T] in
theorem nnfChildren_children {cs : List (Formula A T)} (h : nnfChildren t = some cs) : ∀ a ∈ cs, a ∈ t.children := by
  cases t with
  | not b =>
    cases b <;> cases h
    exact nofun
  | connective c args =>
    cases h
    exact fun a ha => mem_reverse.mp ha
  | quantifier => cases h; exact fun a ha => ha
  | implies => cases h
  | xor => cases h
  | _ => cases h; exact nofun

theorem isNnf_iff : isNnf t = true ↔ Recognised t := by
  refine ⟨fun h => ?_, fun h => isNnfLoop_of_recognised (forall_mem_singleton.mpr h)⟩
  obtain ⟨seen, hstack, -, hclosed⟩ := isNnfLoop_closed (fun _ ht => absurd ht not_mem_nil) h
  have hall : ∀ t, t ∈ seen → Recognised t := by
    intro t
    induction t using induct with
    | h t ih =>
      intro ht
      obtain ⟨cs, hcs, hmem⟩ := hclosed t ht
      exact .intro hcs fun a ha => ih a (nnfChildren_children hcs a ha) (hmem a ha)
  exact hall t (hstack mem_cons_self)

end

namespace Formula

section

def foldTwo (conjunction : Bool) : Option Bool → Option Bool → Option Bool
  | some a, some b => some (if conjunction then a && b else a || b)
  | some a, none | none, some a => if a = conjunction then none else some a
  | none, none => none

mutual

def folds : Formula A T → Option Bool
  | .const b => some b
  | .not a => a.folds.map (!·)
  | .connective c args => foldsAll c args
  | .implies a b => foldTwo false (a.folds.map (!·)) b.folds
  | .xor a b => a.folds.bind fun x => b.folds.map fun y => x ^^ y
  | .quantifier _ vars _ body => if vars = [] then body.folds else none
  | _ => none

def foldsAll (conjunction : Bool) : List (Formula A T) → Option Bool
  | [] => some conjunction
  | a :: as => foldTwo conjunction a.folds (foldsAll conjunction as)

end

mutual

def unnegated (t : Formula A T) (n : Bool) : Bool :=
  t.folds.isSome ||
    match t with
    | .atom _ => !n
    | .not a => a.unnegated (!n)
    | .connective _ args => unnegatedAll args n
    | .implies a b => a.unnegated (!n) && b.unnegated n
    | .xor a b =>
      match a.folds, b.folds with
      | some x, _ => b.unnegated (x ^^ n)
      | none, some y => a.unnegated (y ^^ n)
      | none, none => a.unnegated n && b.unnegated n && (a.unnegated (!n) && b.unnegated (!n))
    | .quantifier _ _ _ body => body.unnegated n
    | _ => true

def unnegatedAll : List (Formula A T) → Bool → Bool
  | [], _ => true
  | a :: as, n => a.unnegated n && unnegatedAll as n

end

mutual

def flattened : Formula A T → Formula A T
  | .connective c args => mkConnective c (flattenedAll args)
  | .quantifier u vars ps body => mkQuantifier u vars ps body.flattened
  | t => t

def flattenedAll : List (Formula A T) → List (Formula A T)
  | [] => []
  | a :: as => a.flattened :: flattenedAll as

end

omit [DecidableEq A] [DecidableEq T] in
theorem unnegatedAll_iff : unnegatedAll args n = true ↔ ∀ a ∈ args, a.unnegated n = true := by
  induction args with
  | nil => simp [unnegatedAll]
  | cons a args ih => rw [unnegatedAll, Bool.and_eq_true, ih, forall_mem_cons]

omit [DecidableEq A] [DecidableEq T] in
theorem flattenedAll_eq_map : flattenedAll args = args.map flattened := by
  induction args with
  | nil => rfl
  | cons a args ih => rw [flattenedAll, ih, map_cons]

end

omit [DecidableEq A] [DecidableEq T]

section

variable {c : Bool}

def constOf : Formula A T → Option Bool
  | .const b => some b
  | _ => none

theorem constOf_of_inner (h : Inner c a) : a.constOf = none := by
  cases a with
  | const b => exact absurd rfl (h.1 b)
  | _ => rfl

theorem eq_const_of_constOf {b : Bool} (h : t.constOf = some b) : t = .const b := by
  cases t <;> cases h
  rfl

def flatConst (c : Bool) : Option (List (Formula A T)) → Option Bool
  | none => some !c
  | some [] => some c
  | some (_ :: _) => none

theorem flatConst_nonempty (h : args ≠ []) (rest : Option (List (Formula A T))) :
    flatConst c (rest.map (args ++ ·)) = foldTwo c none (flatConst c rest) := by
  obtain ⟨a, args, rfl⟩ := exists_cons_of_ne_nil h
  match rest with
  | none => cases c <;> rfl
  | some [] => simp [flatConst, foldTwo]
  | some (b :: rest) => rfl

theorem flatConst_flatArgs (hargs : ∀ a ∈ args, Normal a) :
    flatConst c (flatArgs c args) = args.foldr (fun a rest => foldTwo c a.constOf rest) (some c) := by
  induction args with
  | nil => rfl
  | cons a args ih =>
    obtain ⟨ha, hrest⟩ := forall_mem_cons.mp hargs
    rw [foldr_cons, ← ih hrest]
    rcases inner_cases c a with ⟨b, rfl⟩ | ⟨inner, rfl⟩ | hinner
    · rw [flatArgs, constOf]
      match flatArgs c args with
      | none => cases b <;> cases c <;> rfl
      | some [] => cases b <;> cases c <;> rfl
      | some (x :: rest) => cases b <;> cases c <;> rfl
    · cases ha with
      | connective hlength _ _ =>
        rw [flatArgs_connective]
        exact flatConst_nonempty (ne_nil_of_length_pos (by omega)) _
    · rw [flatArgs_inner hinner, constOf_of_inner hinner]
      exact flatConst_nonempty (cons_ne_nil a []) _

theorem constOf_mkConnective (hargs : ∀ a ∈ args, Normal a) :
    (mkConnective c args).constOf = args.foldr (fun a rest => foldTwo c a.constOf rest) (some c) := by
  rw [← flatConst_flatArgs hargs]
  have hnormal : ∀ flat, flatArgs c args = some flat → ∀ a ∈ flat, Normal a ∧ Inner c a := fun _ =>
    flatArgs_normal hargs
  unfold mkConnective
  match flatArgs c args, hnormal with
  | none, _ => rfl
  | some [], _ => rfl
  | some [x], hnormal => exact constOf_of_inner (hnormal _ rfl x mem_cons_self).2
  | some (x :: y :: flat), _ => rfl

theorem foldTwo_xor (x y : Option Bool) :
    foldTwo (c ^^ n) (x.map (· ^^ n)) (y.map (· ^^ n)) = (foldTwo c x y).map (· ^^ n) := by
  cases x with
  | none =>
    cases y with
    | none => rfl
    | some y => cases y <;> cases c <;> cases n <;> rfl
  | some x =>
    cases y with
    | none => cases x <;> cases c <;> cases n <;> rfl
    | some y => cases x <;> cases y <;> cases c <;> cases n <;> rfl

theorem constOf_nnf (t : Formula A T) (n : Bool) : (t.nnf n).constOf = t.folds.map (· ^^ n) := by
  induction t using induct generalizing n with
  | h t ih =>
    cases t with
    | const b => rfl
    | var x s => cases n <;> rfl
    | atom a => cases n <;> rfl
    | not a =>
      rw [nnf, ih a mem_cons_self, folds]
      cases a.folds with
      | none => rfl
      | some b => cases b <;> cases n <;> rfl
    | connective c args =>
      rw [nnf, nnfs_eq_map, constOf_mkConnective (forall_mem_map.mpr fun a _ => normal_nnf a n), folds]
      have hargs : ∀ a ∈ args, (a.nnf n).constOf = a.folds.map (· ^^ n) := fun a ha => ih a ha n
      clear ih
      induction args with
      | nil => rfl
      | cons a args ihArgs =>
        obtain ⟨ha, hrest⟩ := forall_mem_cons.mp hargs
        rw [map_cons, foldr_cons, ihArgs hrest, ha, foldsAll, foldTwo_xor]
    | implies a b =>
      rw [nnf, constOf_mkConnective (forall_mem_pair (normal_nnf _ _) (normal_nnf _ _)), folds]
      simp only [foldr_cons, foldr_nil, ih a (by simp [children]), ih b (by simp [children])]
      cases a.folds with
      | none =>
        cases b.folds with
        | none => cases n <;> rfl
        | some y => cases y <;> cases n <;> rfl
      | some x =>
        cases b.folds with
        | none => cases x <;> cases n <;> rfl
        | some y => cases x <;> cases y <;> cases n <;> rfl
    | xor a b =>
      have hpair : ∀ k m, ∀ x ∈ [a.nnf k, b.nnf m], Normal x :=
        fun _ _ => forall_mem_pair (normal_nnf _ _) (normal_nnf _ _)
      rw [nnf, constOf_mkConnective (forall_mem_pair (mkConnective_normal (hpair _ _))
        (mkConnective_normal (hpair _ _))),
        folds]
      simp only [foldr_cons, foldr_nil, constOf_mkConnective (hpair _ _), ih a (by simp [children]),
        ih b (by simp [children])]
      cases a.folds with
      | none =>
        cases b.folds with
        | none => cases n <;> rfl
        | some y => cases y <;> cases n <;> rfl
      | some x =>
        cases b.folds with
        | none => cases x <;> cases n <;> rfl
        | some y => cases x <;> cases y <;> cases n <;> rfl
    | quantifier u vars ps body =>
      rw [nnf, folds, mkQuantifier]
      split_ifs with hvars
      · exact ih body (by simp [children]) n
      · rfl

theorem nnf_of_folds {b : Bool} (h : t.folds = some b) (n : Bool) : t.nnf n = .const (b ^^ n) :=
  eq_const_of_constOf (by rw [constOf_nnf, h, map_some])

end

section

variable {c : Bool}

theorem recognised_mkConnective (h : (mkConnective c args).constOf = none) :
    Recognised (mkConnective c args) ↔ ∀ a ∈ args, Recognised a := by
  have hflat : ∀ flat, flatArgs c args = some flat → ((∀ a ∈ flat, Recognised a) ↔ ∀ a ∈ args, Recognised a) := by
    clear h
    induction args with
    | nil =>
      intro flat h
      rw [← some.inj h]
    | cons a args ih =>
      intro flat h
      rw [forall_mem_cons]
      rcases inner_cases c a with ⟨b, rfl⟩ | ⟨inner, rfl⟩ | hinner
      · rw [flatArgs] at h
        split_ifs at h
        rw [ih flat h, and_iff_right recognised_const]
      · rw [flatArgs_connective] at h
        obtain ⟨rest, hrest, rfl⟩ := map_eq_some_iff.mp h
        rw [forall_mem_append, ih rest hrest, recognised_connective]
      · rw [flatArgs_inner hinner] at h
        obtain ⟨rest, hrest, rfl⟩ := map_eq_some_iff.mp h
        rw [forall_mem_cons, ih rest hrest]
  unfold mkConnective at h ⊢
  match flatArgs c args, hflat, h with
  | none, _, h => cases h
  | some [], _, h => cases h
  | some [x], hflat, _ => rw [← hflat _ rfl, forall_mem_singleton]
  | some (x :: y :: flat), hflat, _ => exact recognised_connective.trans (hflat _ rfl)

theorem Normal.mkConnective_singleton (h : Normal t) : mkConnective c [t] = t := by
  unfold mkConnective
  rcases inner_cases c t with ⟨b, rfl⟩ | ⟨inner, rfl⟩ | hinner
  · cases b <;> cases c <;> rfl
  · rw [flatArgs_connective]
    cases h with
    | connective hlength _ _ =>
      match inner, hlength with
      | x :: y :: inner, _ => simp [flatArgs]
  · rw [flatArgs_inner hinner]
    rfl

theorem mkConnective_unit_left (h : Normal t) : mkConnective c [.const c, t] = t := by
  have hdrop : flatArgs c [.const c, t] = flatArgs c [t] := by rw [flatArgs, if_pos rfl]
  rw [mkConnective, hdrop]
  exact h.mkConnective_singleton

theorem mkConnective_zero_left : mkConnective c [.const !c, t] = .const !c := by
  have hzero : flatArgs c [.const !c, t] = none := by rw [flatArgs, if_neg (by cases c <;> simp)]
  rw [mkConnective, hzero]

theorem flatArgs_pair_const (b : Bool) : flatArgs c [t, .const b] = if b = c then flatArgs c [t] else none := by
  have hconst : flatArgs c [.const b] = if b =
    c then some ([] : List (Formula A T)) else none := by rw [flatArgs, flatArgs]
  rcases inner_cases c t with ⟨d, rfl⟩ | ⟨inner, rfl⟩ | hinner
  · cases b <;> cases c <;> cases d <;> rfl
  · rw [flatArgs_connective, flatArgs_connective, hconst]
    split_ifs <;> rfl
  · rw [flatArgs_inner hinner, flatArgs_inner hinner, hconst]
    split_ifs <;> rfl

theorem mkConnective_unit_right (h : Normal t) : mkConnective c [t, .const c] = t := by
  rw [mkConnective, flatArgs_pair_const, if_pos rfl]
  exact h.mkConnective_singleton

theorem mkConnective_zero_right : mkConnective c [t, .const !c] = .const !c := by
  rw [mkConnective, flatArgs_pair_const, if_neg (by cases c <;> simp)]

theorem nnf_xor_left {b : Formula A T} {x : Bool} (h : a.folds = some x) :
    (Formula.xor a b).nnf n = b.nnf (x ^^ n) := by
  rw [nnf, nnf_of_folds h, nnf_of_folds h]
  cases x with
  | false =>
    rw [Bool.false_xor, Bool.false_xor, mkConnective_unit_left (normal_nnf b n), mkConnective_zero_left]
    exact mkConnective_unit_right (normal_nnf b n)
  | true =>
    rw [Bool.true_xor, Bool.true_xor, Bool.not_not, mkConnective_zero_left, mkConnective_unit_left (normal_nnf b _)]
    exact mkConnective_unit_left (normal_nnf b _)

theorem nnf_xor_right {b : Formula A T} {y : Bool} (h : b.folds = some y) :
    (Formula.xor a b).nnf n = a.nnf (y ^^ n) := by
  rw [nnf, nnf_of_folds h, nnf_of_folds h]
  cases y with
  | false =>
    rw [Bool.false_xor, Bool.false_xor, mkConnective_unit_right (normal_nnf a n), mkConnective_zero_right]
    exact mkConnective_unit_right (normal_nnf a n)
  | true =>
    rw [Bool.true_xor, Bool.true_xor, Bool.not_not, mkConnective_zero_right, mkConnective_unit_right (normal_nnf a _)]
    exact mkConnective_unit_left (normal_nnf a _)

theorem unnegated_of_folds {b : Bool} (h : t.folds = some b) : t.unnegated n = true := by
  cases t <;> simp [unnegated, h]

theorem recognised_nnf (t : Formula A T) (n : Bool) : Recognised (t.nnf n) ↔ t.unnegated n = true := by
  induction t using induct generalizing n with
  | h t ih =>
    cases hfolds : t.folds with
    | some b =>
      rw [nnf_of_folds hfolds]
      exact iff_of_true recognised_const (unnegated_of_folds hfolds)
    | none =>
      have hconst : (t.nnf n).constOf = none := by rw [constOf_nnf, hfolds, map_none]
      cases t with
      | const b => cases hfolds
      | var x s => cases n <;> exact iff_of_true (.intro rfl nofun) rfl
      | atom a =>
        cases n with
        | false => exact iff_of_true (.intro rfl nofun) rfl
        | true => exact iff_of_false not_recognised_notAtom (by simp [unnegated, folds])
      | not a =>
        rw [unnegated, hfolds, isSome_none, Bool.false_or]
        exact ih a mem_cons_self _
      | connective c args =>
        rw [unnegated, hfolds, isSome_none, Bool.false_or]
        rw [nnf, nnfs_eq_map] at hconst ⊢
        rw [recognised_mkConnective hconst, unnegatedAll_iff, List.forall_mem_map]
        exact forall₂_congr fun a ha => ih a ha n
      | implies a b =>
        rw [unnegated, hfolds, Option.isSome_none, Bool.false_or]
        rw [nnf] at hconst ⊢
        rw [recognised_mkConnective hconst, Bool.and_eq_true, forall_mem_cons, forall_mem_singleton,
          ih a (by simp [children]), ih b (by simp [children])]
      | xor a b =>
        have ha := ih a (by simp [children])
        have hb := ih b (by simp [children])
        rw [unnegated, hfolds, isSome_none, Bool.false_or]
        cases hx : a.folds with
        | some x => rw [nnf_xor_left hx, hb]
        | none =>
          cases hy : b.folds with
          | some y => rw [nnf_xor_right hy, ha]
          | none =>
            have hpair : ∀ k, (mkConnective n [a.nnf k, b.nnf k]).constOf = none := by
              intro k
              rw [constOf_mkConnective (forall_mem_pair (normal_nnf _ _) (normal_nnf _ _))]
              simp only [foldr_cons, foldr_nil, constOf_nnf, hx, hy, map_none]
              cases n <;> rfl
            rw [nnf] at hconst ⊢
            rw [recognised_mkConnective hconst, forall_mem_cons, forall_mem_singleton,
              recognised_mkConnective (hpair n), recognised_mkConnective (hpair !n)]
            simp only [forall_mem_cons, not_mem_nil, IsEmpty.forall_iff, implies_true, and_true, ha, hb,
              Bool.and_eq_true]
      | quantifier u vars ps body =>
        rw [unnegated, hfolds, isSome_none, Bool.false_or, nnf, mkQuantifier, ← ih body (by simp [children]) n]
        split_ifs
        · rfl
        · exact recognised_quantifier

theorem nnf_of_recognised (h : Recognised t) : t.nnf false = t.flattened := by
  induction t using induct with
  | h t ih =>
    cases t with
    | const b => rw [nnf, Bool.xor_false, flattened] <;> exact nofun
    | var x s => rfl
    | atom a => rfl
    | not a =>
      obtain ⟨hcs, -⟩ := h
      cases a <;> cases hcs
      rfl
    | connective c args =>
      have hargs := recognised_connective.mp h
      rw [nnf, nnfs_eq_map, Bool.xor_false, flattened, flattenedAll_eq_map]
      exact congrArg _ (map_congr_left fun a ha => ih a ha (hargs a ha))
    | implies a b =>
      obtain ⟨hcs, -⟩ := h
      cases hcs
    | xor a b =>
      obtain ⟨hcs, -⟩ := h
      cases hcs
    | quantifier u vars ps body =>
      rw [nnf, Bool.xor_false, flattened, ih body (by simp [children]) (recognised_quantifier.mp h)]

end

end Formula

structure Normalises (t r : Formula A T) : Prop where
  converts : Converts t r
  equivalent : ∀ (V : Type) (I : Interp A V) (v : String × SortId → V), r.Holds I v ↔ t.Holds I v
  accepted : isNnf r = true
  again : Converts r r
  flattens : isNnf t = true → r = t.flattened

theorem toNnf_normalises_iff (t : Formula A T) : (∃ r, Normalises t r) ↔ t.unnegated false = true := by
  rw [← recognised_nnf, ← isNnf_iff]
  constructor
  · rintro ⟨r, h⟩
    rw [← converts_iff.mp h.converts]
    exact h.accepted
  · intro haccepted
    refine ⟨t.nnf false, converts_iff.mpr rfl, fun V I v => ?_, haccepted, ?_,
      fun h => nnf_of_recognised (isNnf_iff.mp h)⟩
    · rw [holds_nnf, if_neg Bool.false_ne_true]
    · exact converts_iff.mpr (normal_nnf t false).nnf_false.symm

/-- The negation of an atom is what its conversion leaves, and the recogniser does not take it. -/
theorem toNnf_negated_atom : ¬ ∀ t : Formula ℕ ℕ, ∃ r, Normalises t r := by
  intro h
  obtain ⟨r, hr⟩ := h (.not (.atom 0))
  have hresult : r = .not (.atom 0) := converts_iff.mp hr.converts
  have haccepted := isNnf_iff.mp hr.accepted
  rw [hresult] at haccepted
  exact not_recognised_notAtom haccepted

end Nixie.NormalForms
