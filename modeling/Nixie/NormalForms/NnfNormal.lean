import Nixie.NormalForms.Nnf

/-!
What the conversion computes: a normal term of the same meaning, which a second conversion leaves alone and a conversion
under a negation turns into the one of the other polarity.
-/

namespace Nixie.NormalForms

open List Option

open Nixie.Ast (SortId)

namespace Formula

variable {A T V : Type} {t a : Formula A T} {args flat : List (Formula A T)} {c n m : Bool}

section

mutual

def nnf : Formula A T → Bool → Formula A T
  | .const b, n => .const (b ^^ n)
  | .var x s, n => if n then .not (.var x s) else .var x s
  | .atom a, n => if n then .not (.atom a) else .atom a
  | .not a, n => a.nnf (!n)
  | .connective c args, n => mkConnective (c ^^ n) (nnfs args n)
  | .implies a b, n => mkConnective n [a.nnf (!n), b.nnf n]
  | .xor a b, n => mkConnective (!n) [mkConnective n [a.nnf n, b.nnf n], mkConnective n [a.nnf (!n), b.nnf (!n)]]
  | .quantifier u vars ps body, n => mkQuantifier (u ^^ n) vars ps (body.nnf n)

def nnfs : List (Formula A T) → Bool → List (Formula A T)
  | [], _ => []
  | a :: as, n => a.nnf n :: nnfs as n

end

attribute [local simp] nnf nnfs flatArgs

theorem nnfs_eq_map : nnfs args n = args.map fun a => a.nnf n := by
  induction args with
  | nil => rfl
  | cons a args ih => rw [nnfs, ih, map_cons]

def Inner (c : Bool) (a : Formula A T) : Prop := (∀ b, a ≠ .const b) ∧ ∀ args, a ≠ .connective c args

inductive Normal : Formula A T → Prop
  | const (b : Bool) : Normal (.const b)
  | var (x : String) (s : SortId) : Normal (.var x s)
  | atom (a : A) : Normal (.atom a)
  | notVar (x : String) (s : SortId) : Normal (.not (.var x s))
  | notAtom (a : A) : Normal (.not (.atom a))
  | connective {c : Bool} {args : List (Formula A T)} : 2 ≤ args.length → (∀ a ∈ args, Normal a) →
      (∀ a ∈ args, Inner c a) →
      Normal (.connective c args)
  | quantifier {u vars ps body} : vars ≠ [] →
      Normal body → Normal (.quantifier u vars ps body)

theorem inner_cases (c : Bool) (a : Formula A T) :
    (∃ b, a = .const b) ∨ (∃ inner, a = .connective c inner) ∨ Inner c a := by
  by_cases hconst : ∃ b, a = .const b
  · exact .inl hconst
  · by_cases hconn : ∃ inner, a = .connective c inner
    · exact .inr (.inl hconn)
    · exact .inr (.inr ⟨fun b heq => hconst ⟨b, heq⟩, fun inner heq => hconn ⟨inner, heq⟩⟩)

theorem flatArgs_inner (h : Inner c a) : flatArgs c (a :: args) = (flatArgs c args).map (a :: ·) := by
  cases a with
  | const b => exact absurd rfl (h.1 b)
  | connective d inner =>
    have hdc : d ≠ c := by
      rintro rfl
      exact h.2 inner rfl
    rw [flatArgs, if_neg hdc]
  | _ => rw [flatArgs] <;> simp

theorem flatArgs_connective {inner : List (Formula A T)} :
    flatArgs c (.connective c inner :: args) = (flatArgs c args).map (inner ++ ·) := by
  rw [flatArgs, if_pos rfl]

theorem flatArgs_of_inner (h : ∀ a ∈ args, Inner c a) : flatArgs c args = some args := by
  induction args with
  | nil => rfl
  | cons a args ih =>
    obtain ⟨ha, hargs⟩ := forall_mem_cons.mp h
    rw [flatArgs_inner ha, ih hargs]
    rfl

theorem mkConnective_of_flat (h : flatArgs c args = some flat) (hlength : 2 ≤ flat.length) :
    mkConnective c args = .connective c flat := by
  match flat, hlength with
  | a :: b :: flat, _ => rw [mkConnective, h]

theorem flatArgs_normal (hargs : ∀ a ∈ args, Normal a) (h : flatArgs c args = some flat) :
    ∀ a ∈ flat, Normal a ∧ Inner c a := by
  induction args generalizing flat with
  | nil =>
    obtain rfl := some.inj h
    exact fun _ ha => absurd ha not_mem_nil
  | cons a args ih =>
    obtain ⟨ha, hrest⟩ := forall_mem_cons.mp hargs
    rcases inner_cases c a with ⟨b, rfl⟩ | ⟨inner, rfl⟩ | hinner
    · rw [flatArgs] at h
      split_ifs at h
      exact ih hrest h
    · rw [flatArgs_connective] at h
      obtain ⟨rest, hflat, rfl⟩ := map_eq_some_iff.mp h
      cases ha with
      | connective _ hnormal hinner =>
        exact forall_mem_append.mpr ⟨fun x hx => ⟨hnormal x hx, hinner x hx⟩, ih hrest hflat⟩
    · rw [flatArgs_inner hinner] at h
      obtain ⟨rest, hflat, rfl⟩ := map_eq_some_iff.mp h
      exact forall_mem_cons.mpr ⟨⟨ha, hinner⟩, ih hrest hflat⟩

theorem mkConnective_normal (hargs : ∀ a ∈ args, Normal a) : Normal (mkConnective c args) := by
  unfold mkConnective
  split
  next => exact .const _
  next => exact .const _
  next a h => exact (flatArgs_normal hargs h a mem_cons_self).1
  next flat hnil hone h =>
    have hflat := flatArgs_normal hargs h
    refine .connective ?_ (fun x hx => (hflat x hx).1) fun x hx => (hflat x hx).2
    match flat with
    | [] => exact absurd rfl hnil
    | [x] => exact absurd rfl (hone x)
    | _ :: _ :: _ => simp

theorem mkQuantifier_normal {u : Bool} {vars : List (String × SortId)} {ps : List (List T)} (h : Normal t) :
    Normal (mkQuantifier u vars ps t) := by
  unfold mkQuantifier
  split_ifs with hvars
  · exact h
  · exact .quantifier hvars h

theorem forall_mem_pair {P : Formula A T → Prop} {b : Formula A T} (ha : P a) (hb : P b) : ∀ x ∈ [a, b], P x :=
  forall_mem_cons.mpr ⟨ha, forall_mem_singleton.mpr hb⟩

theorem normal_nnf (t : Formula A T) (n : Bool) : Normal (t.nnf n) := by
  induction t using induct generalizing n with
  | h t ih =>
    cases t with
    | const b => exact .const _
    | var x s =>
      rw [nnf]
      split_ifs
      · exact .notVar x s
      · exact .var x s
    | atom a =>
      rw [nnf]
      split_ifs
      · exact .notAtom a
      · exact .atom a
    | not a => exact ih a mem_cons_self _
    | connective c args =>
      rw [nnf, nnfs_eq_map]
      exact mkConnective_normal (forall_mem_map.mpr fun a ha => ih a ha n)
    | implies a b =>
      exact mkConnective_normal (forall_mem_pair (ih a (by simp [children]) _) (ih b (by simp [children]) _))
    | xor a b =>
      have hpair : ∀ k, Normal (mkConnective n [a.nnf k, b.nnf k]) := fun k =>
        mkConnective_normal (forall_mem_pair (ih a (by simp [children]) k) (ih b (by simp [children]) k))
      exact mkConnective_normal (forall_mem_pair (hpair _) (hpair _))
    | quantifier u vars ps body => exact mkQuantifier_normal (ih body (by simp [children]) n)

end

theorem nnf_connective (hlength : 2 ≤ args.length) (h : ∀ a ∈ args, Inner (c ^^ n) (a.nnf n)) :
    (connective c args).nnf n = .connective (c ^^ n) (args.map fun a => a.nnf n) := by
  rw [nnf, nnfs_eq_map]
  refine mkConnective_of_flat (flatArgs_of_inner (forall_mem_map.mpr h)) ?_
  rw [length_map]
  exact hlength

theorem Normal.inner_nnf (h : Normal a) (n : Bool) : ∀ {c}, Inner c a → Inner (c ^^ n) (a.nnf n) := by
  induction h with
  | const b => exact fun hinner => absurd rfl (hinner.1 b)
  | var x s => cases n <;> exact fun _ => ⟨nofun, nofun⟩
  | atom a => cases n <;> exact fun _ => ⟨nofun, nofun⟩
  | notVar x s => cases n <;> exact fun _ => ⟨nofun, nofun⟩
  | notAtom a => cases n <;> exact fun _ => ⟨nofun, nofun⟩
  | @connective d args hlength hnormal hinner ih =>
    intro c hc
    rw [nnf_connective hlength fun a ha => ih a ha (hinner a ha)]
    refine ⟨nofun, fun inner heq => ?_⟩
    have hdc : d = c := by
      have hxor := (Formula.connective.inj heq).1
      cases d <;> cases c <;> cases n <;> simp_all
    exact hc.2 args (hdc ▸ rfl)
  | quantifier hvars hnormal ih =>
    intro c hc
    rw [nnf, mkQuantifier, if_neg hvars]
    exact ⟨nofun, nofun⟩

theorem nnf_mkConnective (hargs : ∀ a ∈ args, Normal a) :
    (mkConnective c args).nnf n = mkConnective (c ^^ n) (args.map fun a => a.nnf n) := by
  have hflat : flatArgs (c ^^ n) (args.map fun a => a.nnf n) = (flatArgs c args).map fun flat => flat.map fun a =>
    a.nnf n := by
    induction args with
    | nil => rfl
    | cons a args ih =>
      obtain ⟨ha, hrest⟩ := forall_mem_cons.mp hargs
      rw [map_cons]
      rcases inner_cases c a with ⟨b, rfl⟩ | ⟨inner, rfl⟩ | hinner
      · rw [nnf, flatArgs, flatArgs, ih hrest]
        by_cases hb : b = c
        · rw [if_pos hb, if_pos (by rw [hb])]
        · rw [if_neg hb, if_neg (by cases b <;> cases c <;> cases n <;> simp_all)]
          rfl
      · cases ha with
        | connective hlength hnormal hinner =>
          rw [nnf_connective hlength fun x hx => (hnormal x hx).inner_nnf n (hinner x hx), flatArgs_connective,
            flatArgs_connective, ih hrest]
          cases flatArgs c args with
          | none => rfl
          | some rest => simp
      · rw [flatArgs_inner (ha.inner_nnf n hinner), flatArgs_inner hinner, ih hrest]
        cases flatArgs c args with
        | none => rfl
        | some rest => rfl
  have hnormal : ∀ flat, flatArgs c args = some flat → ∀ a ∈ flat, Normal a ∧ Inner c a := fun _ =>
    flatArgs_normal hargs
  unfold mkConnective
  rw [hflat]
  cases hf : flatArgs c args with
  | none =>
    dsimp only [map_none]
    rw [nnf]
    cases c <;> cases n <;> rfl
  | some flat =>
    dsimp only [map_some]
    match flat, hf with
    | [], _ => rfl
    | [x], _ => rfl
    | x :: y :: flat, hf =>
      exact nnf_connective (by simp) fun z hz => ((hnormal _ hf) z hz).1.inner_nnf n ((hnormal _ hf) z hz).2

theorem Normal.nnf_false (h : Normal t) : t.nnf false = t := by
  induction h with
  | const b => rw [nnf, Bool.xor_false]
  | var x s => rfl
  | atom a => rfl
  | notVar x s => rfl
  | notAtom a => rfl
  | @connective c args hlength hnormal hinner ih =>
    rw [nnf_connective hlength fun a ha => (hnormal a ha).inner_nnf false (hinner a ha), Bool.xor_false]
    exact congrArg _ ((map_congr_left ih).trans (map_id' args))
  | quantifier hvars hnormal ih => rw [nnf, ih, mkQuantifier, if_neg hvars, Bool.xor_false]

theorem nnf_nnf_true (t : Formula A T) (n : Bool) : (t.nnf n).nnf true = t.nnf (!n) := by
  induction t using induct generalizing n with
  | h t ih =>
    cases t with
    | const b => cases b <;> cases n <;> rfl
    | var x s => cases n <;> rfl
    | atom a => cases n <;> rfl
    | not a => exact ih a mem_cons_self _
    | connective c args =>
      rw [nnf, nnfs_eq_map, nnf_mkConnective (List.forall_mem_map.mpr fun a _ => normal_nnf a n), List.map_map, nnf,
        nnfs_eq_map]
      congr 1
      · cases c <;> cases n <;> rfl
      · exact map_congr_left fun a ha => ih a ha n
    | implies a b =>
      rw [nnf, nnf_mkConnective (forall_mem_pair (normal_nnf _ _) (normal_nnf _ _)), nnf]
      simp only [map_cons, map_nil, ih a (by simp [children]), ih b (by simp [children]), Bool.xor_true]
    | xor a b =>
      have hpair : ∀ k, Normal (mkConnective n [a.nnf k, b.nnf k]) := fun k =>
        mkConnective_normal (forall_mem_pair (normal_nnf _ _) (normal_nnf _ _))
      have hnegated : ∀ k, (mkConnective n [a.nnf k, b.nnf k]).nnf true =
        mkConnective (!n) [a.nnf (!k), b.nnf (!k)] := by
        intro k
        rw [nnf_mkConnective (forall_mem_pair (normal_nnf _ _) (normal_nnf _ _)), Bool.xor_true]
        simp only [map_cons, map_nil, ih a (by simp [children]), ih b (by simp [children])]
      rw [nnf, nnf_mkConnective (forall_mem_pair (hpair _) (hpair _)), nnf]
      simp only [map_cons, map_nil, hnegated, Bool.xor_true]
    | quantifier u vars ps body =>
      have hbody := ih body (by simp [children]) n
      rw [nnf, nnf]
      unfold mkQuantifier
      split_ifs with hvars
      · exact hbody
      · rw [nnf, hbody, mkQuantifier, if_neg hvars]
        cases u <;> cases n <;> rfl

section

variable {I : Interp A V} {v : String × SortId → V}

attribute [local simp] Holds HoldsArgs

theorem holdsArgs_true : HoldsArgs I true args v ↔ ∀ a ∈ args, a.Holds I v := by
  induction args with
  | nil => simp [HoldsArgs]
  | cons a args ih => simp [HoldsArgs, ih]

theorem holdsArgs_false : HoldsArgs I false args v ↔ ∃ a ∈ args, a.Holds I v := by
  induction args with
  | nil => simp [HoldsArgs]
  | cons a args ih => simp [HoldsArgs, ih]

theorem holdsArgs_cons : HoldsArgs I c (a :: args) v ↔
    if c then a.Holds I v ∧ HoldsArgs I c args v else a.Holds I v ∨ HoldsArgs I c args v := by
  rw [HoldsArgs]

theorem holdsArgs_append {as bs : List (Formula A T)} : HoldsArgs I c (as ++ bs) v ↔
    if c then HoldsArgs I c as v ∧ HoldsArgs I c bs v else HoldsArgs I c as v ∨ HoldsArgs I c bs v := by
  cases c with
  | true => simp only [holdsArgs_true, forall_mem_append, if_true]
  | false => simp only [holdsArgs_false, mem_append, or_and_right, exists_or, Bool.false_eq_true, if_false]

theorem holdsArgs_flatArgs : HoldsArgs I c args v ↔
    ((flatArgs c args).elim (c = false) fun flat => HoldsArgs I c flat v) := by
  induction args with
  | nil => rfl
  | cons a args ih =>
    rcases inner_cases c a with ⟨b, rfl⟩ | ⟨inner, rfl⟩ | hinner
    · rw [holdsArgs_cons, flatArgs, Holds]
      by_cases hb : b = c
      · rw [if_pos hb, ← ih, hb]
        cases c <;> simp
      · rw [if_neg hb]
        cases b <;> cases c <;> simp_all
    · rw [holdsArgs_cons, flatArgs_connective, Holds, ih]
      cases flatArgs c args with
      | none => cases c <;> simp
      | some flat => exact holdsArgs_append.symm
    · rw [holdsArgs_cons, flatArgs_inner hinner, ih]
      cases flatArgs c args with
      | none => cases c <;> simp
      | some flat => exact holdsArgs_cons.symm

theorem holds_mkConnective : (mkConnective c args).Holds I v ↔ HoldsArgs I c args v := by
  rw [holdsArgs_flatArgs, mkConnective]
  cases flatArgs c args with
  | none => cases c <;> simp [Holds]
  | some flat =>
    match flat with
    | [] => simp [Holds, HoldsArgs]
    | [a] => cases c <;> simp [HoldsArgs]
    | a :: b :: flat => simp [Holds]

theorem holds_mkQuantifier {u : Bool} {vars : List (String × SortId)} {ps : List (List T)} :
    (mkQuantifier u vars ps t).Holds I v ↔ (quantifier u vars ps t).Holds I v := by
  unfold mkQuantifier
  split_ifs with hvars
  · have honly : ∀ v', I.Rebinds vars v v' ↔ v' = v := by
      intro v'
      rw [hvars]
      refine ⟨fun h => funext fun x => h.1 x not_mem_nil, ?_⟩
      rintro rfl
      exact ⟨fun _ _ => rfl, fun _ hx => absurd hx not_mem_nil⟩
    cases u with
    | true => simp [Holds, honly]
    | false => simp [Holds, honly]
  · rfl

theorem holds_nnf (t : Formula A T) (n : Bool) (v : String × SortId → V) :
    (t.nnf n).Holds I v ↔ if n then ¬ t.Holds I v else t.Holds I v := by
  induction t using induct generalizing n v with
  | h t ih =>
    cases t with
    | const b => cases b <;> cases n <;> simp [nnf, Holds]
    | var x s => cases n <;> simp [nnf, Holds]
    | atom a => cases n <;> simp [nnf, Holds]
    | not a =>
      rw [nnf, ih a List.mem_cons_self]
      cases n <;> simp [Holds]
    | connective c args =>
      have hargs : ∀ a ∈ args, (a.nnf n).Holds I v ↔ if n then ¬ a.Holds I v else a.Holds I v := fun a ha => ih a ha n v
      rw [nnf, nnfs_eq_map, holds_mkConnective, Holds]
      have hall : (∀ b ∈ args.map fun a => a.nnf n, b.Holds I v) ↔
        ∀ a ∈ args, if n then ¬ a.Holds I v else a.Holds I v :=
        List.forall_mem_map.trans (forall₂_congr hargs)
      have hany : (∃ b ∈ args.map fun a => a.nnf n, b.Holds I v) ↔
        ∃ a ∈ args, if n then ¬ a.Holds I v else a.Holds I v := by
        simp only [List.mem_map, exists_exists_and_eq_and]
        exact exists_congr fun a => and_congr_right (hargs a)
      cases c <;> cases n
      · exact holdsArgs_false.trans (hany.trans holdsArgs_false.symm)
      · refine holdsArgs_true.trans (hall.trans ?_)
        simp only [if_true, holdsArgs_false]
        push Not
        rfl
      · exact holdsArgs_true.trans (hall.trans holdsArgs_true.symm)
      · refine holdsArgs_false.trans (hany.trans ?_)
        simp only [if_true, holdsArgs_true]
        push Not
        rfl
    | implies a b =>
      rw [nnf, holds_mkConnective, holdsArgs_cons, holdsArgs_cons, ih a (by simp [children]), ih b (by simp [children])]
      cases n <;> simp [Holds, HoldsArgs, imp_iff_not_or]
    | xor a b =>
      rw [nnf, holds_mkConnective, holdsArgs_cons, holdsArgs_cons, holds_mkConnective, holds_mkConnective]
      simp only [ih a (by simp [children]), ih b (by simp [children]), Holds, HoldsArgs]
      cases n <;> simp only [Bool.not_true, Bool.not_false, if_true, if_false, Bool.false_eq_true, and_true,
        or_false] <;>
        tauto
    | quantifier u vars ps body =>
      have hbody := fun v' => ih body (by simp [children]) n v'
      rw [nnf, holds_mkQuantifier]
      cases u <;> cases n <;>
        simp only [Bool.false_xor, Bool.true_xor, Bool.not_true, Bool.not_false, Holds, hbody, Bool.false_eq_true,
          if_false,
          if_true]
      · push Not
        rfl
      · push Not
        rfl

end

end Formula

end Nixie.NormalForms
