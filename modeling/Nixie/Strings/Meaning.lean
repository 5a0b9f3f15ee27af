import Mathlib.Algebra.BigOperators.Ring.List
import Mathlib.Data.Char
import Nixie.Quotient
import Nixie.Strings.Derivative

namespace Nixie.Strings

open Language Computability Nixie.Quotient List

variable [UnicodeTable]

section

def RegexOp.lang {R : Type} (f : R → Language Char) : RegexOp R → Language Char
  | .epsilon => 1
  | .none => 0
  | .all => ⊤
  | .allChar => letters fun _ => True
  | .char c => letters (· = c)
  | .range lo hi => letters fun c => lo ≤ c ∧ c ≤ hi
  | .unicodeClass cat => letters fun c => UnicodeTable.contains cat c = true
  | .concat parts => (parts.map f).prod
  | .union parts => {w | ∃ r ∈ parts, w ∈ f r}
  | .inter parts => {w | ∀ r ∈ parts, w ∈ f r}
  | .complement r => (f r)ᶜ
  | .star r => (f r)∗
  | .plus r => f r * (f r)∗
  | .option r => 1 + f r
  | .loop r min max => between (f r) min max

theorem RegexOp.lang_congr {R : Type} {f g : R → Language Char} {op : RegexOp R}
    (h : ∀ r ∈ op.operands, f r = g r) : op.lang f = op.lang g := by
  cases op with
  | concat parts => exact congrArg List.prod (map_congr_left h)
  | union parts =>
    ext w
    exact exists_congr fun r => and_congr_right fun hr => by rw [h r hr]
  | inter parts =>
    ext w
    exact forall_congr' fun r => forall_congr' fun hr => by rw [h r hr]
  | complement r | star r | plus r | option r | loop r _ _ =>
    simp only [RegexOp.lang, h r (mem_singleton_self r)]
  | _ => rfl

open Classical in
noncomputable def Regex.lang : Regex → Language Char
  | .mk op _ => op.lang fun r => if _h : r ∈ op.operands then Regex.lang r else 0
termination_by r => sizeOf r
decreasing_by exact Regex.sizeOf_lt_of_mem _h

@[simp] theorem Regex.lang_mk (op : RegexOp Regex) (n : Bool) :
    (Regex.mk op n).lang = op.lang Regex.lang := by
  rw [Regex.lang]
  exact RegexOp.lang_congr fun r hr => dif_pos hr

theorem Regex.lang_eq (r : Regex) : r.lang = r.op.lang Regex.lang := by
  cases r with
  | mk op n => exact Regex.lang_mk op n

end

namespace Regex

inductive Sound : Regex → Prop
  | mk {op n} (operands : ∀ r ∈ op.operands, Sound r)
      (nullable : n = true ↔ [] ∈ op.lang lang)
      (bounded : ∀ r min, op ≠ .loop r min (some 0)) : Sound (.mk op n)

namespace Sound

variable {r s : Regex}

theorem of_operand (h : Sound r) (hs : s ∈ r.op.operands) : Sound s := by
  cases h with
  | mk operands _ _ => exact operands s hs

theorem nullable_iff (h : Sound r) : r.nullable = true ↔ [] ∈ r.lang := by
  cases h with
  | mk _ nullable _ => rwa [lang_mk]

theorem bound_ne (h : Sound r) {body : Regex} {min : ℕ} {max : Option ℕ} (hop : r.op = .loop body min max) :
    max ≠ some 0 := by
  cases h with
  | mk _ _ bounded =>
    rintro rfl
    exact bounded body min hop

theorem eq_of_op (hr : Sound r) (hs : Sound s) (h : r.op = s.op) : r = s := by
  have hflag : r.nullable = s.nullable := by
    rw [Bool.eq_iff_iff, hr.nullable_iff, hs.nullable_iff, lang_eq r, lang_eq s, h]
  cases r with
  | mk op n =>
    cases s with
    | mk op' n' =>
      cases h
      cases hflag
      rfl

end Sound

section

variable {stack stack' : List (RegexOp Regex × RegexOp Regex)} {xs ys : List Regex}

theorem eq_of_pushPairs (h : pushPairs xs ys stack = some stack') (hxs : ∀ x ∈ xs, Sound x) (hys : ∀ y ∈ ys, Sound y)
    (heq : ∀ p ∈ stack', p.1 = p.2) : xs = ys ∧ ∀ p ∈ stack, p.1 = p.2 := by
  unfold pushPairs at h
  split at h
  · cases h
  · next hlen =>
    cases h
    refine ⟨?_, fun p hp => heq p (mem_append_right _ hp)⟩
    refine ext_getElem (not_not.mp hlen) fun i hi hi' => ?_
    refine (hxs _ (getElem_mem hi)).eq_of_op (hys _ (getElem_mem hi')) ?_
    refine heq (xs[i].op, ys[i].op) (mem_append_left _ (List.mem_reverse.mpr ?_))
    exact List.mem_iff_getElem.mpr ⟨i, by simpa using ⟨hi, hi'⟩, by simp⟩

theorem sound_pushPairs (h : pushPairs xs ys stack = some stack') (hxs : ∀ x ∈ xs, Sound x) (hys : ∀ y ∈ ys, Sound y)
    (hs : ∀ p ∈ stack, (∀ r ∈ p.1.operands, Sound r) ∧ ∀ r ∈ p.2.operands, Sound r) :
    ∀ p ∈ stack', (∀ r ∈ p.1.operands, Sound r) ∧ ∀ r ∈ p.2.operands, Sound r := by
  unfold pushPairs at h
  split at h
  · cases h
  · cases h
    intro p hp
    rcases mem_append.mp hp with hp | hp
    · obtain ⟨i, hi, rfl⟩ := List.mem_iff_getElem.mp (List.mem_reverse.mp hp)
      simp only [length_zipWith, lt_min_iff] at hi
      rw [getElem_zipWith]
      exact ⟨fun r hr => (hxs _ (getElem_mem hi.1)).of_operand hr,
        fun r hr => (hys _ (getElem_mem hi.2)).of_operand hr⟩
    · exact hs p hp

theorem sound_operand {a b : RegexOp Regex} {x y : Regex}
    (h : (∀ r ∈ a.operands, Sound r) ∧ ∀ r ∈ b.operands, Sound r)
    (hx : a.operands = [x] := by rfl) (hy : b.operands = [y] := by rfl) : Sound x ∧ Sound y :=
  ⟨h.1 x (by simp [hx]), h.2 y (by simp [hy])⟩

theorem eq_of_eqLoop (h : eqLoop stack = true)
    (hs : ∀ p ∈ stack, (∀ r ∈ p.1.operands, Sound r) ∧ ∀ r ∈ p.2.operands, Sound r) : ∀ p ∈ stack, p.1 = p.2 := by
  fun_induction eqLoop stack with
  | case1 => simp
  | case4 x y stack hxy _ ih | case6 x₁ x₂ y₁ y₂ stack hxy _ ih | case8 x y stack hxy _ ih =>
    rw [forall_mem_cons] at hs ⊢
    exact ⟨by simp_all, ih h hs.2⟩
  | case10 x y stack stack' hpush _ ih | case12 x y stack stack' hpush _ ih
  | case14 x y stack stack' hpush _ ih =>
    rw [forall_mem_cons] at hs ⊢
    obtain ⟨⟨hx, hy⟩, hs⟩ := hs
    obtain ⟨rfl, htail⟩ := eq_of_pushPairs hpush hx hy (ih h (sound_pushPairs hpush hx hy hs))
    exact ⟨rfl, htail⟩
  | case15 x y stack _ ih | case16 x y stack _ ih | case17 x y stack _ ih | case18 x y stack _ ih =>
    rw [forall_mem_cons] at hs ⊢
    obtain ⟨hx, hy⟩ := sound_operand hs.1
    obtain ⟨hop, htail⟩ := forall_mem_cons.mp
      (ih h (forall_mem_cons.mpr ⟨⟨fun _ => hx.of_operand, fun _ => hy.of_operand⟩, hs.2⟩))
    exact ⟨by rw [hx.eq_of_op hy hop], htail⟩
  | case20 x xlo xhi y ylo yhi stack hbounds _ ih =>
    rw [forall_mem_cons] at hs ⊢
    obtain ⟨hx, hy⟩ := sound_operand hs.1
    obtain ⟨hop, htail⟩ := forall_mem_cons.mp
      (ih h (forall_mem_cons.mpr ⟨⟨fun _ => hx.of_operand, fun _ => hy.of_operand⟩, hs.2⟩))
    rw [not_not, Prod.mk.injEq] at hbounds
    exact ⟨by rw [hx.eq_of_op hy hop, hbounds.1, hbounds.2], htail⟩
  | case21 stack _ ih | case22 stack _ ih | case23 stack _ ih | case24 stack _ ih =>
    rw [forall_mem_cons] at hs ⊢
    exact ⟨rfl, ih h hs.2⟩
  | _ => cases h

omit [UnicodeTable] in
theorem eqLoop_of_eq (h : ∀ p ∈ stack, p.1 = p.2) : eqLoop stack = true := by
  fun_induction eqLoop stack with
  | case1 => rfl
  | case2 a b stack hrank =>
    exact absurd (congrArg opRank (List.forall_mem_cons.mp h).1) hrank
  | case4 x y stack hxy _ ih | case6 x₁ x₂ y₁ y₂ stack hxy _ ih | case8 x y stack hxy _ ih
  | case21 stack _ ih | case22 stack _ ih | case23 stack _ ih | case24 stack _ ih =>
    exact ih (List.forall_mem_cons.mp h).2
  | case9 x y stack hpush | case11 x y stack hpush | case13 x y stack hpush =>
    obtain ⟨heq, -⟩ := List.forall_mem_cons.mp h
    cases heq
    simp [pushPairs] at hpush
  | case10 x y stack stack' hpush _ ih | case12 x y stack stack' hpush _ ih
  | case14 x y stack stack' hpush _ ih =>
    obtain ⟨heq, htail⟩ := List.forall_mem_cons.mp h
    cases heq
    refine ih fun p hp => ?_
    simp only [pushPairs, ne_eq, not_true_eq_false, if_false, Option.some.injEq] at hpush
    rw [← hpush] at hp
    rcases List.mem_append.mp hp with hp | hp
    · obtain ⟨i, hi, rfl⟩ := List.mem_iff_getElem.mp (List.mem_reverse.mp hp)
      rw [getElem_zipWith]
    · exact htail p hp
  | case15 x y stack _ ih | case16 x y stack _ ih | case17 x y stack _ ih | case18 x y stack _ ih
  | case20 x xlo xhi y ylo yhi stack hbounds _ ih =>
    obtain ⟨heq, htail⟩ := List.forall_mem_cons.mp h
    cases heq
    exact ih (List.forall_mem_cons.mpr ⟨rfl, htail⟩)
  | case25 a b stack =>
    have heq := (List.forall_mem_cons.mp h).1
    cases heq
    cases a <;> grind
  | _ =>
    have heq := (List.forall_mem_cons.mp h).1
    simp_all

theorem beq_iff {r s : Regex} (hr : Sound r) (hs : Sound s) : (r == s) = true ↔ r = s := by
  constructor
  · intro h
    refine hr.eq_of_op hs (eq_of_eqLoop h ?_ (r.op, s.op) mem_cons_self)
    intro p hp
    rw [mem_singleton.mp hp]
    exact ⟨fun _ => hr.of_operand, fun _ => hs.of_operand⟩
  · rintro rfl
    exact eqLoop_of_eq fun p hp => by rw [mem_singleton.mp hp]

theorem mem_dedup {l : List Regex} (h : ∀ r ∈ l, Sound r) {r : Regex} : r ∈ dedup l ↔ r ∈ l := by
  fun_induction dedup l with
  | case1 a b rest hab ih =>
    rw [forall_mem_cons, forall_mem_cons] at h
    rw [beq_iff h.1 h.2.1] at hab
    rw [ih (forall_mem_cons.mpr ⟨h.1, h.2.2⟩), hab]
    simp
  | case2 a b rest hab ih => rw [mem_cons, ih (forall_mem_cons.mp h).2, ← mem_cons]
  | case3 => rfl

theorem mem_sortDedup {flat : List Regex} (h : ∀ r ∈ flat, Sound r) {r : Regex} : r ∈ sortDedup flat ↔ r ∈ flat := by
  have hperm := mergeSort_perm flat fun a b => regexCmp a b != .gt
  rw [sortDedup, mem_dedup fun s hs => h s (hperm.mem_iff.mp hs), hperm.mem_iff]

end

section

variable {op : RegexOp Regex} {inner : List Regex}

omit [UnicodeTable]

attribute [local simp] concatOperand unionOperand interOperand

theorem concatOperand_skip : concatOperand op = .skip ↔ op = .epsilon := by
  cases op <;> simp

theorem concatOperand_absorb : concatOperand op = .absorb ↔ op = .none := by
  cases op <;> simp

theorem concatOperand_nested : concatOperand op = .nested inner ↔ op = .concat inner := by
  cases op <;> simp

theorem unionOperand_skip : unionOperand op = .skip ↔ op = .none := by
  cases op <;> simp

theorem unionOperand_absorb : unionOperand op = .absorb ↔ op = .all := by
  cases op <;> simp

theorem unionOperand_nested : unionOperand op = .nested inner ↔ op = .union inner := by
  cases op <;> simp

theorem interOperand_skip : interOperand op = .skip ↔ op = .all := by
  cases op <;> simp

theorem interOperand_absorb : interOperand op = .absorb ↔ op = .none := by
  cases op <;> simp

theorem interOperand_nested : interOperand op = .nested inner ↔ op = .inter inner := by
  cases op <;> simp

theorem operands_of_concatOperand (h : concatOperand op = .nested inner) : inner = op.operands := by
  rw [concatOperand_nested.mp h, RegexOp.operands]

theorem operands_of_unionOperand (h : unionOperand op = .nested inner) : inner = op.operands := by
  rw [unionOperand_nested.mp h, RegexOp.operands]

theorem operands_of_interOperand (h : interOperand op = .nested inner) : inner = op.operands := by
  rw [interOperand_nested.mp h, RegexOp.operands]

end

section

variable {classify : RegexOp Regex → Operand} {parts flat : List Regex}

omit [UnicodeTable] in
theorem flatten_induct {R : List Regex → List Regex → Prop} (nil : R [] [])
    (skip : ∀ p parts flat, classify p.op = .skip → R parts flat → R (p :: parts) flat)
    (nested : ∀ p inner parts flat, classify p.op = .nested inner → R parts flat → R (p :: parts) (inner ++ flat))
    (keep : ∀ p parts flat, classify p.op = .keep → R parts flat → R (p :: parts) (p :: flat))
    (h : flatten classify parts = some flat) : R parts flat := by
  fun_induction flatten classify parts generalizing flat with
  | case1 =>
    cases h
    exact nil
  | case2 p parts hp ih => exact skip p parts flat hp (ih h)
  | case3 => cases h
  | case4 p parts inner hp ih =>
    obtain ⟨rest, hrest, rfl⟩ := Option.map_eq_some_iff.mp h
    exact nested p inner parts rest hp (ih hrest)
  | case5 p parts hp ih =>
    obtain ⟨rest, hrest, rfl⟩ := Option.map_eq_some_iff.mp h
    exact keep p parts rest hp (ih hrest)

omit [UnicodeTable] in
theorem flatten_eq_none (h : flatten classify parts = Option.none) : ∃ p ∈ parts, classify p.op = .absorb := by
  fun_induction flatten classify parts with
  | case1 => cases h
  | case2 p parts hp ih =>
    obtain ⟨q, hq, hop⟩ := ih h
    exact ⟨q, mem_cons_of_mem _ hq, hop⟩
  | case3 p parts hp => exact ⟨p, mem_cons_self, hp⟩
  | case4 p parts inner hp ih | case5 p parts hp ih =>
    obtain ⟨q, hq, hop⟩ := ih (Option.map_eq_none_iff.mp h)
    exact ⟨q, mem_cons_of_mem _ hq, hop⟩

theorem sound_flatten (hnested : ∀ op inner, classify op = .nested inner → inner = op.operands)
    (h : flatten classify parts = some flat) (hparts : ∀ p ∈ parts, Sound p) : ∀ r ∈ flat, Sound r := by
  refine flatten_induct (R := fun parts flat => (∀ p ∈ parts, Sound p) → ∀ r ∈ flat, Sound r)
    (by simp) ?_ ?_ ?_ h hparts
  · intro p parts flat _ ih hp
    exact ih (forall_mem_cons.mp hp).2
  · intro p inner parts flat hop ih hp r hr
    rw [forall_mem_cons] at hp
    rcases mem_append.mp hr with hr | hr
    · rw [hnested _ _ hop] at hr
      exact hp.1.of_operand hr
    · exact ih hp.2 r hr
  · intro p parts flat _ ih hp
    rw [forall_mem_cons] at hp ⊢
    exact ⟨hp.1, ih hp.2⟩

end

section

variable {parts : List Regex} {r : Regex} {w : List Char}

@[simp] theorem lang_epsilon : epsilon.lang = 1 := lang_mk _ _

@[simp] theorem lang_none : none.lang = 0 := lang_mk _ _

@[simp] theorem lang_all : all.lang = ⊤ := lang_mk _ _

theorem sound_leaf {op : RegexOp Regex} {n : Bool} (hop : op.operands = [])
    (h : n = true ↔ [] ∈ op.lang lang) : Sound (mk op n) := by
  refine ⟨by simp [hop], h, ?_⟩
  rintro body min rfl
  cases hop

theorem sound_epsilon : Sound epsilon := sound_leaf rfl (by simp [RegexOp.lang])

theorem sound_none : Sound none := sound_leaf rfl (by simp [RegexOp.lang])

theorem sound_all : Sound all := sound_leaf rfl (iff_of_true rfl trivial)

theorem sound_allChar : Sound allChar := sound_leaf rfl (by simp [RegexOp.lang])

theorem sound_char (c : Char) : Sound (char c) := sound_leaf rfl (by simp [RegexOp.lang])

theorem sound_range (lo hi : Char) : Sound (range lo hi) := by
  unfold range
  split
  · exact sound_none
  · exact sound_leaf rfl (by simp [RegexOp.lang])

theorem lang_range (lo hi : Char) : (range lo hi).lang = letters fun c => lo ≤ c ∧ c ≤ hi := by
  unfold range
  split
  · next hlt =>
    ext w
    rw [lang_none, mem_letters]
    refine iff_of_false (notMem_zero w) ?_
    rintro ⟨c, ⟨hlo, hhi⟩, -⟩
    exact absurd (le_trans hlo hhi) (not_le_of_gt hlt)
  · rw [lang_mk, RegexOp.lang]

theorem lang_concat (parts : List Regex) : (concat parts).lang = (parts.map lang).prod := by
  have hflat {flat : List Regex} (h : flatten concatOperand parts = some flat) :
      (flat.map lang).prod = (parts.map lang).prod := by
    refine flatten_induct (R := fun parts flat => (flat.map lang).prod = (parts.map lang).prod) rfl ?_ ?_ ?_ h
    · intro p parts flat hp ih
      have hone : p.lang = 1 := by rw [lang_eq, concatOperand_skip.mp hp, RegexOp.lang]
      rw [map_cons, prod_cons, hone, one_mul, ih]
    · intro p inner parts flat hp ih
      have hinner : p.lang = (inner.map lang).prod := by
        rw [lang_eq, concatOperand_nested.mp hp, RegexOp.lang]
      rw [map_append, prod_append, ih, map_cons, prod_cons, hinner]
    · intro p parts flat _ ih
      rw [map_cons, prod_cons, ih, map_cons, prod_cons]
  unfold concat
  split
  · next h =>
    obtain ⟨p, hp, hop⟩ := flatten_eq_none h
    have hzero : p.lang = 0 := by rw [lang_eq, concatOperand_absorb.mp hop, RegexOp.lang]
    rw [lang_none]
    exact (prod_eq_zero (mem_map.mpr ⟨p, hp, hzero⟩)).symm
  · next h => rw [← hflat h, lang_epsilon, map_nil, prod_nil]
  · next h => rw [← hflat h, map_singleton, prod_singleton]
  · next h => rw [← hflat h, lang_mk, RegexOp.lang]

section

variable (h : ∀ p ∈ parts, Sound p)
include h

theorem Sound.concat : Sound (concat parts) := by
  unfold Regex.concat
  split
  · exact sound_none
  · exact sound_epsilon
  · next hflat => exact sound_flatten (fun _ _ => operands_of_concatOperand) hflat h _ mem_cons_self
  · next flat _ _ hflat =>
    have hsound := sound_flatten (fun _ _ => operands_of_concatOperand) hflat h
    refine ⟨hsound, ?_, fun _ _ hop => by cases hop⟩
    rw [all_eq_true, RegexOp.lang, nil_mem_prod, forall_mem_map]
    exact forall₂_congr fun r hr => (hsound r hr).nullable_iff

theorem mem_union : w ∈ (union parts).lang ↔ ∃ p ∈ parts, w ∈ p.lang := by
  have hflat {flat : List Regex} (hf : flatten unionOperand parts = some flat) :
      (∃ r ∈ flat, w ∈ r.lang) ↔ ∃ p ∈ parts, w ∈ p.lang := by
    refine flatten_induct
      (R := fun parts flat => (∃ r ∈ flat, w ∈ r.lang) ↔ ∃ p ∈ parts, w ∈ p.lang)
      (by simp) ?_ ?_ ?_ hf
    · intro p parts flat hp ih
      rw [ih, exists_mem_cons_iff, lang_eq p, unionOperand_skip.mp hp]
      simp [RegexOp.lang]
    · intro p inner parts flat hp ih
      rw [exists_mem_cons_iff, ← ih, lang_eq p, unionOperand_nested.mp hp]
      simp only [mem_append, or_and_right, exists_or]
      rfl
    · intro p parts flat _ ih
      rw [exists_mem_cons_iff, exists_mem_cons_iff, ih]
  unfold union
  split
  · next hf =>
    obtain ⟨p, hp, hop⟩ := flatten_eq_none hf
    rw [lang_all]
    refine iff_of_true trivial ⟨p, hp, ?_⟩
    rw [lang_eq, unionOperand_absorb.mp hop]
    trivial
  · next hf => rw [← hflat hf, lang_none]; simp
  · next hf => rw [← hflat hf]; simp
  · next flat _ _ hf =>
    have hsound := sound_flatten (fun _ _ => operands_of_unionOperand) hf h
    rw [← hflat hf, lang_mk]
    exact exists_congr fun r => and_congr_left fun _ => mem_sortDedup hsound

theorem Sound.union : Sound (union parts) := by
  unfold Regex.union
  split
  · exact sound_all
  · exact sound_none
  · next hflat => exact sound_flatten (fun _ _ => operands_of_unionOperand) hflat h _ mem_cons_self
  · next flat _ _ hflat =>
    have hsound := sound_flatten (fun _ _ => operands_of_unionOperand) hflat h
    have hsorted (r : Regex) (hr : r ∈ sortDedup flat) : Sound r := hsound r ((mem_sortDedup hsound).mp hr)
    refine ⟨hsorted, ?_, fun _ _ hop => by cases hop⟩
    rw [any_eq_true]
    exact exists_congr fun r => and_congr_right fun hr => (hsorted r hr).nullable_iff

theorem mem_inter : w ∈ (inter parts).lang ↔ ∀ p ∈ parts, w ∈ p.lang := by
  have hflat {flat : List Regex} (hf : flatten interOperand parts = some flat) :
      (∀ r ∈ flat, w ∈ r.lang) ↔ ∀ p ∈ parts, w ∈ p.lang := by
    refine flatten_induct
      (R := fun parts flat => (∀ r ∈ flat, w ∈ r.lang) ↔ ∀ p ∈ parts, w ∈ p.lang)
      (by simp) ?_ ?_ ?_ hf
    · intro p parts flat hp ih
      rw [ih, forall_mem_cons, lang_eq p, interOperand_skip.mp hp]
      exact (and_iff_right trivial).symm
    · intro p inner parts flat hp ih
      rw [forall_mem_cons, ← ih, forall_mem_append, lang_eq p, interOperand_nested.mp hp]
      rfl
    · intro p parts flat _ ih
      rw [forall_mem_cons, forall_mem_cons, ih]
  unfold inter
  split
  · next hf =>
    obtain ⟨p, hp, hop⟩ := flatten_eq_none hf
    rw [lang_none]
    refine iff_of_false (notMem_zero w) fun hw => ?_
    have hmem := hw p hp
    rw [lang_eq, interOperand_absorb.mp hop] at hmem
    exact notMem_zero w hmem
  · next hf => rw [← hflat hf, lang_all]; exact iff_of_true trivial (by simp)
  · next hf => rw [← hflat hf]; simp
  · next flat _ _ hf =>
    have hsound := sound_flatten (fun _ _ => operands_of_interOperand) hf h
    rw [← hflat hf, lang_mk]
    exact forall_congr' fun r => imp_congr_left (mem_sortDedup hsound)

theorem Sound.inter : Sound (inter parts) := by
  unfold Regex.inter
  split
  · exact sound_none
  · exact sound_all
  · next hflat => exact sound_flatten (fun _ _ => operands_of_interOperand) hflat h _ mem_cons_self
  · next flat _ _ hflat =>
    have hsound := sound_flatten (fun _ _ => operands_of_interOperand) hflat h
    have hsorted (r : Regex) (hr : r ∈ sortDedup flat) : Sound r := hsound r ((mem_sortDedup hsound).mp hr)
    refine ⟨hsorted, ?_, fun _ _ hop => by cases hop⟩
    rw [all_eq_true]
    exact forall₂_congr fun r hr => (hsorted r hr).nullable_iff

end

theorem lang_complement (r : Regex) : (complement r).lang = r.langᶜ := by
  rw [lang_eq r]
  unfold complement
  split
  · next hop =>
    rw [hop, lang_all, RegexOp.lang]
    exact compl_bot.symm
  · next hop =>
    rw [hop, lang_none, RegexOp.lang]
    exact compl_top.symm
  · next inner hop => rw [hop, RegexOp.lang, compl_compl]
  · rw [lang_mk, RegexOp.lang, lang_eq r]

theorem Sound.complement (h : Sound r) : Sound (complement r) := by
  unfold Regex.complement
  split
  · exact sound_all
  · exact sound_none
  · next hop => exact h.of_operand (by rw [hop]; exact mem_singleton_self _)
  · refine ⟨fun s hs => by rwa [mem_singleton.mp hs], ?_, fun _ _ hop => by cases hop⟩
    rw [Bool.not_eq_true', ← Bool.not_eq_true, h.nullable_iff]
    rfl

theorem lang_star (r : Regex) : (star r).lang = r.lang∗ := by
  rw [lang_eq r]
  unfold star
  split
  · next hop => rw [hop, lang_epsilon, RegexOp.lang, kstar_one]
  · next hop => rw [hop, lang_epsilon, RegexOp.lang, kstar_zero]
  · next inner hop => rw [lang_eq r, hop, RegexOp.lang, kstar_idem]
  · next hop =>
    rw [lang_eq r, hop, RegexOp.lang]
    exact le_antisymm le_kstar le_top
  · rw [lang_mk, RegexOp.lang, lang_eq r]

theorem Sound.star (h : Sound r) : Sound (star r) := by
  unfold Regex.star
  split
  · exact sound_epsilon
  · exact sound_epsilon
  · exact h
  · exact h
  · exact ⟨fun s hs => by rwa [mem_singleton.mp hs], iff_of_true rfl (nil_mem_kstar _), fun _ _ hop => by cases hop⟩

theorem lang_plus (r : Regex) : (plus r).lang = r.lang * r.lang∗ := by
  rw [lang_eq r]
  unfold plus
  split
  · next hop => rw [hop, lang_epsilon, RegexOp.lang, kstar_one, mul_one]
  · next hop => rw [hop, lang_none, RegexOp.lang, zero_mul]
  · next inner hop => rw [lang_eq r, hop, RegexOp.lang, kstar_idem, kstar_mul_kstar]
  · next inner hop =>
    rw [lang_eq r, hop, RegexOp.lang, mul_assoc]
    congr 1
    refine le_antisymm ?_ ?_
    · exact le_mul_of_one_le_right' one_le_kstar
    · calc inner.lang∗ * (inner.lang * inner.lang∗)∗
          ≤ inner.lang∗ * (inner.lang∗)∗ := by
            gcongr
            exact mul_kstar_le_kstar
        _ = inner.lang∗ := by rw [kstar_idem, kstar_mul_kstar]
  · rw [lang_mk, RegexOp.lang, lang_eq r]

theorem Sound.plus (h : Sound r) : Sound (plus r) := by
  unfold Regex.plus
  split
  · exact sound_epsilon
  · exact sound_none
  · exact h
  · exact h
  · refine ⟨fun s hs => by rwa [mem_singleton.mp hs], ?_, fun _ _ hop => by cases hop⟩
    rw [h.nullable_iff, RegexOp.lang, nil_mem_mul]
    exact (and_iff_left (nil_mem_kstar _)).symm

theorem lang_option (h : Sound r) : (option r).lang = 1 + r.lang := by
  unfold option
  split
  · next hn =>
    refine le_antisymm le_sup_right (sup_le ?_ le_rfl)
    intro w hw
    rw [(mem_one w).mp hw]
    exact h.nullable_iff.mp hn
  · rw [lang_eq r]
    split
    · next hop => rw [hop, lang_epsilon, RegexOp.lang, add_zero]
    · rw [lang_mk, RegexOp.lang, lang_eq r]

theorem Sound.option (h : Sound r) : Sound (option r) := by
  unfold Regex.option
  split
  · exact h
  · split
    · exact sound_epsilon
    · exact ⟨fun s hs => by rwa [mem_singleton.mp hs], iff_of_true rfl (.inl rfl), fun _ _ hop => by cases hop⟩

theorem lang_loopBounded (r : Regex) (min : ℕ) (max : Option ℕ) :
    (loopBounded r min max).lang = between r.lang min max := by
  unfold loopBounded
  split_ifs with hzero hlt hnone hepsilon
  · rw [hzero.1, hzero.2, lang_epsilon, between_zero_zero]
  · obtain ⟨m, rfl, hm⟩ := hlt
    rw [lang_none, between_of_lt hm]
  · obtain ⟨hop, hmin⟩ := hnone
    have hop' : r.op = .none := by
      split at hop
      · assumption
      · cases hop
    rw [lang_none, lang_eq r, hop', RegexOp.lang, zero_between hmin]
  · have hop' : r.op = .epsilon := by
      split at hepsilon
      · assumption
      · cases hepsilon
    push Not at hlt
    rw [lang_epsilon, lang_eq r, hop', RegexOp.lang, one_between hlt]
  · rw [lang_mk, RegexOp.lang]

theorem Sound.loopBounded (h : Sound r) (min : ℕ) (max : Option ℕ) : Sound (loopBounded r min max) := by
  unfold Regex.loopBounded
  split_ifs with hzero hlt hnone hepsilon
  · exact sound_epsilon
  · exact sound_none
  · exact sound_none
  · exact sound_epsilon
  · push Not at hlt
    refine ⟨fun s hs => by rwa [mem_singleton.mp hs], ?_, ?_⟩
    · rw [RegexOp.lang, nil_mem_between hlt, Bool.or_eq_true, beq_iff_eq, h.nullable_iff]
    · intro body min' hop
      cases hop
      have := hlt 0 rfl
      exact hzero ⟨by omega, rfl⟩

omit [UnicodeTable] in
theorem prod_letters (s : List Char) : (s.map fun c => letters (· = c)).prod = {s} := by
  induction s with
  | nil => rfl
  | cons c s ih =>
    ext w
    rw [map_cons, prod_cons, ih, mem_mul]
    constructor
    · rintro ⟨x, ⟨a, rfl, rfl⟩, y, rfl, rfl⟩
      rfl
    · rintro rfl
      exact ⟨[c], ⟨c, rfl, rfl⟩, s, rfl, rfl⟩

theorem lang_literal (s : List Char) : (literal s).lang = {s} := by
  unfold literal
  split
  · next hs =>
    rw [isEmpty_iff.mp hs, lang_epsilon]
    rfl
  · rw [lang_concat, List.map_map, ← prod_letters]
    simp only [Function.comp_def, char, lang_mk, RegexOp.lang]

theorem sound_literal (s : List Char) : Sound (literal s) := by
  unfold literal
  split
  · exact sound_epsilon
  · refine Sound.concat fun p hp => ?_
    obtain ⟨c, -, rfl⟩ := mem_map.mp hp
    exact sound_char c

end

end Regex

end Nixie.Strings
