import Nixie.Bv.BoolIr
import Nixie.Circuit

namespace Nixie.Bv

open Literal Nixie.Sat Circuit List Option Function

def codeValue (vals : List Bool) (code : ℕ) : Bool :=
  if code ≤ 1 then code == 1 else vals.getD (litIdx code) false ^^ (code % 2 == 1)

def gate (σ : ℕ → Bool) (vals : List Bool) : IrNode → Bool
  | .constTrue => true
  | .var v => σ v
  | .and a b => codeValue vals a && codeValue vals b
  | .xor a b => codeValue vals a ^^ codeValue vals b
  | .mux s t f => if codeValue vals s then codeValue vals t else codeValue vals f

namespace BoolIr

def value (ir : BoolIr) (σ : ℕ → Bool) (code : ℕ) : Bool := codeValue (values (gate σ) ir.nodes) code

def Valid (ir : BoolIr) (code : ℕ) : Prop := litIdx code < ir.nodes.length

structure Wf (ir : BoolIr) : Prop where
  first : ir.nodes[0]? = some .constTrue
  only : ∀ i, ir.nodes[i]? = some .constTrue → i = 0
  ordered : Ordered (fun node => (children node).map litIdx) ir.nodes
  table : ∀ node i, ir.table node = some i → ir.nodes[i]? = some node

end BoolIr

open BoolIr

section

variable {vals vals' : List Bool} {code : ℕ} {σ : ℕ → Bool}

@[simp]
theorem codeValue_litTrue : codeValue vals litTrue = true := rfl

@[simp]
theorem codeValue_litFalse : codeValue vals litFalse = false := rfl

@[simp]
theorem codeValue_litConst {b : Bool} : codeValue vals (litConst b) = b := by
  cases b <;> rfl

@[simp]
theorem codeValue_neg : codeValue vals (neg code) = !codeValue vals code := by
  unfold codeValue
  rw [litIdx, litIdx, neg_div_two]
  by_cases hcode : code ≤ 1
  · rcases Nat.le_one_iff_eq_zero_or_eq_one.mp hcode with rfl | rfl <;> rfl
  · have hneg : ¬ neg code ≤ 1 := by
      rw [neg_eq]
      split <;> omega
    rw [if_neg hcode, if_neg hneg]
    have hmod : (neg code % 2 == 1) = !(code % 2 == 1) := by
      rw [neg_eq]
      rcases Nat.mod_two_eq_zero_or_one code with h | h
      · rw [if_pos h, h]
        have hodd : (code + 1) % 2 = 1 := by omega
        rw [hodd]
        rfl
      · rw [if_neg (by omega), h]
        have heven : (code - 1) % 2 = 0 := by omega
        rw [heven]
        rfl
    rw [hmod, Bool.xor_not]

theorem codeValue_congr (h : vals[litIdx code]? = vals'[litIdx code]?) :
    codeValue vals code = codeValue vals' code := by
  unfold codeValue
  rw [getD_eq_getElem?_getD, getD_eq_getElem?_getD, h]

theorem codeValue_litMake {i : ℕ} {b : Bool} (hi : i ≠ 0) (h : vals[i]? = some b) :
    codeValue vals (litMake i false) = b := by
  have hcode : litMake i false = 2 * i := rfl
  rw [codeValue, hcode, if_neg (by omega), litIdx, Nat.mul_div_cancel_left i Nat.two_pos,
    getD_eq_getElem?_getD, h, Nat.mul_mod_right]
  simp

theorem codeValue_xor_one : codeValue vals (code ^^^ 1) = !codeValue vals code := codeValue_neg

theorem codeValue_xor_bit {bit : ℕ} (hbit : bit < 2) :
    codeValue vals (code ^^^ bit) = (codeValue vals code ^^ (bit == 1)) := by
  rcases Nat.le_one_iff_eq_zero_or_eq_one.mp (by omega : bit ≤ 1) with rfl | rfl
  · rw [Nat.xor_zero]
    simp
  · rw [codeValue_xor_one]
    simp

theorem codeValue_even : codeValue vals (code - code % 2) = (codeValue vals code ^^ (code % 2 == 1)) := by
  rcases Nat.mod_two_eq_zero_or_one code with h | h
  · simp [h]
  · have hneg : code - 1 = neg code := by rw [neg_eq, if_neg (by omega)]
    rw [h, hneg, codeValue_neg]
    simp

theorem gate_local : Local (fun node => (children node).map litIdx) (gate σ) := by
  intro node vals vals' h
  cases node with
  | constTrue => rfl
  | var v => rfl
  | and a b =>
    simp only [children, map_cons, map_nil, mem_cons, not_mem_nil, or_false, forall_eq_or_imp, forall_eq] at h
    rw [gate, gate, codeValue_congr h.1, codeValue_congr h.2]
  | xor a b =>
    simp only [children, map_cons, map_nil, mem_cons, not_mem_nil, or_false, forall_eq_or_imp, forall_eq] at h
    rw [gate, gate, codeValue_congr h.1, codeValue_congr h.2]
  | mux s t f =>
    simp only [children, map_cons, map_nil, mem_cons, not_mem_nil, or_false, forall_eq_or_imp, forall_eq] at h
    rw [gate, gate, codeValue_congr h.1, codeValue_congr h.2.1, codeValue_congr h.2.2]

end

section

variable {ir ir' : BoolIr} {code a b c : ℕ} {node : IrNode} {σ : ℕ → Bool}

theorem value_neg : ir.value σ (neg code) = !ir.value σ code := codeValue_neg

theorem BoolIr.Valid.neg (h : ir.Valid code) : ir.Valid (neg code) := by
  unfold BoolIr.Valid litIdx at *
  rwa [neg_div_two]

structure Extends (ir ir' : BoolIr) : Prop where
  nodes : ir.nodes <+: ir'.nodes
  folded : ir'.folded = ir.folded

theorem Extends.refl : Extends ir ir := ⟨prefix_rfl, rfl⟩

theorem Extends.valid (h : Extends ir ir') (hcode : ir.Valid code) : ir'.Valid code :=
  lt_of_lt_of_le hcode h.nodes.length_le

theorem Extends.value (h : Extends ir ir') (hcode : ir.Valid code) : ir'.value σ code = ir.value σ code := by
  obtain ⟨added, hadded⟩ := h.nodes
  refine codeValue_congr ?_
  rw [← hadded, values_append_of_lt hcode]

structure Gives (ir : BoolIr) (r : BoolIr × ℕ) (f : (ℕ → Bool) → Bool) : Prop where
  wf : r.1.Wf
  extend : Extends ir r.1
  valid : r.1.Valid r.2
  value : ∀ σ, r.1.value σ r.2 = f σ

theorem Gives.same (h : ir.Wf) (hcode : ir.Valid code) {f : (ℕ → Bool) → Bool}
    (hvalue : ∀ σ, ir.value σ code = f σ) : Gives ir (ir, code) f := ⟨h, .refl, hcode, hvalue⟩

theorem Gives.imp {r : BoolIr × ℕ} {f g : (ℕ → Bool) → Bool} (h : Gives ir r f) (hfg : ∀ σ, f σ = g σ) :
    Gives ir r g := ⟨h.wf, h.extend, h.valid, fun σ => (h.value σ).trans (hfg σ)⟩

theorem BoolIr.Wf.pos (h : ir.Wf) : 0 < ir.nodes.length := (List.getElem?_eq_some_iff.mp h.first).1

theorem BoolIr.Wf.valid_const (h : ir.Wf) (hcode : code ≤ 1) : ir.Valid code := by
  have hpos := h.pos
  unfold BoolIr.Valid litIdx
  omega

theorem BoolIr.Wf.value_node (h : ir.Wf) {i : ℕ} (hnode : ir.nodes[i]? = some node) :
    (values (gate σ) ir.nodes)[i]? = some (gate σ (values (gate σ) ir.nodes) node) :=
  values_eq gate_local h.ordered hnode

theorem internLit_gives (h : ir.Wf) (hconst : node ≠ .constTrue) (hchildren : ∀ c ∈ children node, ir.Valid c) :
    Gives ir (ir.internLit node) fun σ => gate σ (values (gate σ) ir.nodes) node := by
  unfold internLit intern
  cases htable : ir.table node with
  | some i =>
    have hnode := h.table node i htable
    have hi : i ≠ 0 := by
      rintro rfl
      exact hconst (some.inj (hnode.symm.trans h.first))
    refine .same h ?_ fun σ => codeValue_litMake hi (h.value_node hnode)
    have hlt := (List.getElem?_eq_some_iff.mp hnode).1
    simp only [BoolIr.Valid, litIdx, litMake, Bool.toNat_false]
    omega
  | none =>
    have hpos := h.pos
    dsimp only
    refine ⟨⟨?_, fun i hi => ?_, h.ordered.concat fun j hj => ?_, fun node' i hi => ?_⟩,
      ⟨prefix_append _ _, rfl⟩, ?_, fun σ => codeValue_litMake (by omega) ?_⟩
    · rw [getElem?_append_left hpos]
      exact h.first
    · rcases Nat.lt_or_ge i ir.nodes.length with hlt | hge
      · exact h.only i (by rwa [getElem?_append_left hlt] at hi)
      · rw [getElem?_append_right hge, getElem?_singleton] at hi
        split at hi
        · exact absurd (some.inj hi) hconst
        · cases hi
    · obtain ⟨c, hc, rfl⟩ := mem_map.mp hj
      exact hchildren c hc
    · dsimp only at hi ⊢
      by_cases hsame : node' = node
      · subst hsame
        rw [update_self, some.injEq] at hi
        rw [← hi, getElem?_concat_length]
      · rw [update_of_ne hsame] at hi
        have hold := h.table node' i hi
        rwa [List.getElem?_append_left (List.getElem?_eq_some_iff.mp hold).1]
    · simp only [BoolIr.Valid, litIdx, litMake, Bool.toNat_false, List.length_append, List.length_singleton]
      omega
    · rw [values_concat, List.getElem?_append_right (by rw [length_values]), length_values, Nat.sub_self,
        getElem?_cons_zero]

theorem canonical_empty (h : ir.folded = .empty) : ir.canonical code = code := by
  rw [canonical, h]
  exact Folds.canonical_none rfl

theorem value_litTrue : ir.value σ litTrue = true := rfl

theorem value_litFalse : ir.value σ litFalse = false := rfl

theorem and_gives (h : ir.Wf) (hfolded : ir.folded = .empty) (ha : ir.Valid a) (hb : ir.Valid b) :
    Gives ir (ir.and a b) fun σ => ir.value σ a && ir.value σ b := by
  unfold BoolIr.and
  simp only [canonical_empty hfolded]
  have hfalse : ir.Valid litFalse := h.valid_const (by decide)
  split
  next hor =>
    refine .same h hfalse fun σ => ?_
    rcases hor with rfl | rfl <;> simp [value_litFalse]
  split
  next heq => exact .same h hb fun σ => by rw [heq, value_litTrue, Bool.true_and]
  split
  next heq => exact .same h ha fun σ => by rw [heq, value_litTrue, Bool.and_true]
  split
  next heq => exact .same h ha fun σ => by rw [heq, Bool.and_self]
  split
  next heq => exact .same h hfalse fun σ => by rw [heq, value_neg, value_litFalse, Bool.not_and_self]
  split
  · exact internLit_gives h (by simp) (by simp [children, ha, hb])
  · refine (internLit_gives h (by simp) (by simp [children, ha, hb])).imp fun σ => ?_
    exact Bool.and_comm _ _

theorem or_gives (h : ir.Wf) (hfolded : ir.folded = .empty) (ha : ir.Valid a) (hb : ir.Valid b) :
    Gives ir (ir.or a b) fun σ => ir.value σ a || ir.value σ b := by
  unfold BoolIr.or
  simp only [canonical_empty hfolded]
  have hand := and_gives h hfolded ha.neg hb.neg
  refine ⟨hand.wf, hand.extend, hand.valid.neg, fun σ => ?_⟩
  rw [value_neg, hand.value, value_neg, value_neg, Bool.not_and, Bool.not_not, Bool.not_not]

theorem valid_even (ha : ir.Valid a) : ir.Valid (a - a % 2) := by
  unfold BoolIr.Valid litIdx at *
  omega

theorem xor_gives (h : ir.Wf) (hfolded : ir.folded = .empty) (ha : ir.Valid a) (hb : ir.Valid b) :
    Gives ir (ir.xor a b) fun σ => ir.value σ a ^^ ir.value σ b := by
  unfold BoolIr.xor
  simp only [canonical_empty hfolded]
  split
  next heq => exact .same h hb fun σ => by rw [heq, value_litFalse, Bool.false_xor]
  split
  next heq => exact .same h ha fun σ => by rw [heq, value_litFalse, Bool.xor_false]
  split
  next heq => exact .same h hb.neg fun σ => by rw [heq, value_litTrue, value_neg, Bool.true_xor]
  split
  next heq => exact .same h ha.neg fun σ => by rw [heq, value_litTrue, value_neg, Bool.xor_true]
  split
  next heq => exact .same h (h.valid_const (by decide)) fun σ => by rw [heq, value_litFalse, Bool.xor_self]
  split
  next heq =>
    exact .same h (h.valid_const (by decide)) fun σ => by rw [heq, value_neg, value_litTrue, Bool.not_xor_self]
  have hparity : ∀ (x y : ℕ), ir.Valid x → ir.Valid y →
      (∀ σ, (ir.value σ x ^^ ir.value σ y) = ((ir.value σ a ^^ (a % 2 == 1)) ^^ (ir.value σ b ^^ (b % 2 == 1)))) →
      Gives ir ((ir.internLit (.xor x y)).1, (ir.internLit (.xor x y)).2 ^^^ (a % 2) ^^^ (b % 2))
        fun σ => ir.value σ a ^^ ir.value σ b := by
    intro x y hx hy hvalue
    have hintern := internLit_gives h (by simp : IrNode.xor x y ≠ .constTrue) (by simp [children, hx, hy])
    refine ⟨hintern.wf, hintern.extend, ?_, fun σ => ?_⟩
    · have hbit : ∀ code bit, bit < 2 → litIdx (code ^^^ bit) = litIdx code := by
        intro code bit hbit
        rcases Nat.le_one_iff_eq_zero_or_eq_one.mp (by omega : bit ≤ 1) with rfl | rfl
        · rw [Nat.xor_zero]
        · exact neg_div_two code
      have hvalid := hintern.valid
      unfold BoolIr.Valid at hvalid ⊢
      rwa [hbit _ _ (Nat.mod_lt b Nat.two_pos), hbit _ _ (Nat.mod_lt a Nat.two_pos)]
    · rw [value, codeValue_xor_bit (Nat.mod_lt b Nat.two_pos), codeValue_xor_bit (Nat.mod_lt a Nat.two_pos)]
      have hbase := hintern.value σ
      rw [value] at hbase
      rw [hbase]
      have hxy := hvalue σ
      change (((ir.value σ x ^^ ir.value σ y) ^^ (a % 2 == 1)) ^^ (b % 2 == 1)) = _
      rw [hxy]
      cases ir.value σ a <;> cases ir.value σ b <;> cases (a % 2 == 1) <;> cases (b % 2 == 1) <;> rfl
  have heven : ∀ c σ, ir.value σ (c - c % 2) = (ir.value σ c ^^ (c % 2 == 1)) := fun c σ => codeValue_even
  split
  · exact hparity _ _ (valid_even ha) (valid_even hb) fun σ => by rw [heven, heven]
  · exact hparity _ _ (valid_even hb) (valid_even ha) fun σ => by rw [heven, heven, Bool.xor_comm]

theorem mux_gives_of (h : ir.Wf) (hfolded : ir.folded = .empty) (ha : ir.Valid a) (hb : ir.Valid b)
    (hc : ir.Valid c)
    (hflip : b % 2 = 1 → c % 2 = 1 → Gives ir (ir.mux a (neg b) (neg c)) fun σ =>
      if ir.value σ a then !ir.value σ b else !ir.value σ c) :
    Gives ir (ir.mux a b c) fun σ => if ir.value σ a then ir.value σ b else ir.value σ c := by
  rw [mux]
  simp only [canonical_empty hfolded]
  split
  next heq => exact .same h hb fun σ => by rw [heq, value_litTrue, if_pos rfl]
  split
  next heq => exact .same h hc fun σ => by rw [heq, value_litFalse, if_neg Bool.false_ne_true]
  split
  next heq => exact .same h hb fun σ => by rw [heq, ite_self]
  split
  next heq =>
    refine .same h ha fun σ => ?_
    rw [heq.1, heq.2, value_litTrue, value_litFalse]
    cases ir.value σ a <;> rfl
  split
  next heq =>
    refine .same h ha.neg fun σ => ?_
    rw [heq.1, heq.2, value_litTrue, value_litFalse, value_neg]
    cases ir.value σ a <;> rfl
  split
  next hodd =>
    have hrest := hflip hodd.1 hodd.2
    refine ⟨hrest.wf, hrest.extend, hrest.valid.neg, fun σ => ?_⟩
    rw [value_neg, hrest.value]
    cases ir.value σ a <;> simp
  · exact internLit_gives h (by simp) (by simp [children, ha, hb, hc])

theorem mux_gives (h : ir.Wf) (hfolded : ir.folded = .empty) (ha : ir.Valid a) (hb : ir.Valid b)
    (hc : ir.Valid c) :
    Gives ir (ir.mux a b c) fun σ => if ir.value σ a then ir.value σ b else ir.value σ c := by
  refine mux_gives_of h hfolded ha hb hc fun hodd _ => ?_
  refine (mux_gives_of h hfolded ha hb.neg hc.neg fun heven => ?_).imp fun σ => by rw [value_neg, value_neg]
  rw [neg_eq, if_neg (by omega)] at heven
  omega

end

inductive Expr
  | const (b : Bool)
  | var (v : ℕ)
  | not (e : Expr)
  | and (a b : Expr)
  | or (a b : Expr)
  | xor (a b : Expr)
  | mux (s t f : Expr)

def Expr.eval (σ : ℕ → Bool) : Expr → Bool
  | .const b => b
  | .var v => σ v
  | .not e => !e.eval σ
  | .and a b => a.eval σ && b.eval σ
  | .or a b => a.eval σ || b.eval σ
  | .xor a b => a.eval σ ^^ b.eval σ
  | .mux s t f => if s.eval σ then t.eval σ else f.eval σ

/-- A graph built by calls on codes obtained before, with the codes and what they stand for. -/
inductive Built : BoolIr → List (ℕ × Expr) → Prop
  | new : Built .new [(litTrue, .const true), (litFalse, .const false)]
  | neg {ir codes p} (h : Built ir codes) (hp : p ∈ codes) :
    Built ir ((neg p.1, .not p.2) :: codes)
  | var {ir codes} (h : Built ir codes) (v : ℕ) :
    Built (ir.var v).1 (((ir.var v).2, .var v) :: codes)
  | and {ir codes p q} (h : Built ir codes) (hp : p ∈ codes)
    (hq : q ∈ codes) : Built (ir.and p.1 q.1).1 (((ir.and p.1 q.1).2, .and p.2 q.2) :: codes)
  | or {ir codes p q} (h : Built ir codes) (hp : p ∈ codes)
    (hq : q ∈ codes) : Built (ir.or p.1 q.1).1 (((ir.or p.1 q.1).2, .or p.2 q.2) :: codes)
  | xor {ir codes p q} (h : Built ir codes) (hp : p ∈ codes)
    (hq : q ∈ codes) : Built (ir.xor p.1 q.1).1 (((ir.xor p.1 q.1).2, .xor p.2 q.2) :: codes)
  | mux {ir codes p q r} (h : Built ir codes) (hp : p ∈ codes)
    (hq : q ∈ codes) (hr : r ∈ codes) :
    Built (ir.mux p.1 q.1 r.1).1 (((ir.mux p.1 q.1 r.1).2, .mux p.2 q.2 r.2) :: codes)

structure Sound (ir : BoolIr) (codes : List (ℕ × Expr)) : Prop where
  wf : ir.Wf
  folded : ir.folded = .empty
  codes : ∀ p ∈ codes, ir.Valid p.1 ∧ ∀ σ, ir.value σ p.1 = p.2.eval σ

section

variable {ir : BoolIr} {codes : List (ℕ × Expr)}

theorem wf_new : BoolIr.new.Wf where
  first := rfl
  only i hi := by
    obtain ⟨hlt, -⟩ := List.getElem?_eq_some_iff.mp hi
    exact Nat.lt_one_iff.mp hlt
  ordered i node hnode := by
    obtain ⟨hlt, hget⟩ := List.getElem?_eq_some_iff.mp hnode
    obtain rfl : i = 0 := Nat.lt_one_iff.mp hlt
    obtain rfl : node = .constTrue := hget.symm
    exact fun j hj => absurd hj List.not_mem_nil
  table node i hi := by
    have htable : BoolIr.new.table = Function.update (fun _ => none) IrNode.constTrue (some 0) := rfl
    rw [htable] at hi
    by_cases hnode : node = .constTrue
    · subst hnode
      rw [Function.update_self, Option.some.injEq] at hi
      exact hi ▸ rfl
    · rw [Function.update_of_ne hnode] at hi
      cases hi

theorem Sound.step (h : Sound ir codes) {r : BoolIr × ℕ} {e : Expr} (hr : Gives ir r fun σ => e.eval σ) :
    Sound r.1 ((r.2, e) :: codes) where
  wf := hr.wf
  folded := hr.extend.folded.trans h.folded
  codes := forall_mem_cons.mpr ⟨⟨hr.valid, hr.value⟩, fun p hp => by
    obtain ⟨hvalid, hvalue⟩ := h.codes p hp
    exact ⟨hr.extend.valid hvalid, fun σ => (hr.extend.value hvalid).trans (hvalue σ)⟩⟩

theorem Built.sound (h : Built ir codes) : Sound ir codes := by
  induction h with
  | new => exact ⟨wf_new, rfl, by simp [wf_new.valid_const, litTrue, litFalse, value, codeValue, Expr.eval]⟩
  | neg _ hp ih =>
    obtain ⟨hvalid, hvalue⟩ := ih.codes _ hp
    refine ⟨ih.wf, ih.folded, forall_mem_cons.mpr ⟨⟨hvalid.neg, fun σ => ?_⟩, ih.codes⟩⟩
    rw [value_neg, hvalue, Expr.eval]
  | var _ v ih => exact ih.step (internLit_gives ih.wf (by simp) (by simp [children]))
  | and _ hp hq ih =>
    obtain ⟨hvp, hp⟩ := ih.codes _ hp
    obtain ⟨hvq, hq⟩ := ih.codes _ hq
    exact ih.step ((and_gives ih.wf ih.folded hvp hvq).imp fun σ => by rw [hp, hq, Expr.eval])
  | or _ hp hq ih =>
    obtain ⟨hvp, hp⟩ := ih.codes _ hp
    obtain ⟨hvq, hq⟩ := ih.codes _ hq
    exact ih.step ((or_gives ih.wf ih.folded hvp hvq).imp fun σ => by rw [hp, hq, Expr.eval])
  | xor _ hp hq ih =>
    obtain ⟨hvp, hp⟩ := ih.codes _ hp
    obtain ⟨hvq, hq⟩ := ih.codes _ hq
    exact ih.step ((xor_gives ih.wf ih.folded hvp hvq).imp fun σ => by rw [hp, hq, Expr.eval])
  | mux _ hp hq hr ih =>
    obtain ⟨hvp, hp⟩ := ih.codes _ hp
    obtain ⟨hvq, hq⟩ := ih.codes _ hq
    obtain ⟨hvr, hr⟩ := ih.codes _ hr
    exact ih.step ((mux_gives ih.wf ih.folded hvp hvq hvr).imp fun σ => by rw [hp, hq, hr, Expr.eval])

end

end Nixie.Bv

namespace Nixie.Bv

open Literal Nixie.Sat Circuit BoolIr List Option Function

def Agrees (nodes : List IrNode) (pinned : ℕ → Option Bool) (σ : ℕ → Bool) : Prop :=
  ∀ v, .var v ∈ nodes → ∀ b, pinned v = some b → σ v = b

def FoldsRight (nodes : List IrNode) (pinned : ℕ → Option Bool) (folded : Folds) : Prop :=
  ∀ σ, Agrees nodes pinned σ → ∀ i repl, folded.table i = some repl →
    (values (gate σ) nodes)[i]? = some (codeValue (values (gate σ) nodes) repl)

section

variable {nodes : List IrNode} {pinned : ℕ → Option Bool} {folded : Folds} {σ : ℕ → Bool} {code i : ℕ}
  {node : IrNode} {b : Bool}

section

variable (h : FoldsRight nodes pinned folded)
include h

section

variable (hσ : Agrees nodes pinned σ)
include hσ

theorem canonical_value : codeValue (values (gate σ) nodes) (folded.canonical code) =
    codeValue (values (gate σ) nodes) code := by
  by_cases hcode : code ≤ 1
  · rw [Folds.canonical_of_le hcode]
  · cases htable : folded.table (litIdx code) with
    | none => rw [Folds.canonical_none htable]
    | some repl =>
      rw [Folds.canonical_some hcode htable, codeValue_xor_bit (Nat.mod_lt code Nat.two_pos)]
      have hvalue := h σ hσ _ _ htable
      conv_rhs => rw [codeValue, if_neg hcode, getD_eq_getElem?_getD, hvalue]
      rfl

theorem foldedLit_value (hfold : folded.foldedLit code = some b) : codeValue (values (gate σ) nodes) code = b := by
  rw [← canonical_value h hσ]
  unfold Folds.foldedLit at hfold
  dsimp only at hfold
  split at hfold
  next heq => rw [heq, ← some.inj hfold, codeValue_litTrue]
  next =>
    split at hfold
    next heq => rw [heq, ← some.inj hfold, codeValue_litFalse]
    next => cases hfold

theorem determined_value (hnode : node ∈ nodes) (hdetermined : determined pinned folded node = some b) :
    gate σ (values (gate σ) nodes) node = b := by
  have hfold : ∀ c x, folded.foldedLit c = some x → codeValue (values (gate σ) nodes) c = x :=
    fun c x => foldedLit_value h hσ
  cases node with
  | constTrue => exact some.inj hdetermined
  | var v => exact hσ v hnode b hdetermined
  | and x y =>
    rw [gate]
    simp only [determined] at hdetermined
    split at hdetermined
    next hx hy => rw [hfold x _ hx, hfold y _ hy, some.inj hdetermined]
    next hx _ => rw [hfold x _ hx, ← some.inj hdetermined, Bool.false_and]
    next hy _ => rw [hfold y _ hy, ← some.inj hdetermined, Bool.and_false]
    next => cases hdetermined
  | xor x y =>
    rw [gate]
    simp only [determined] at hdetermined
    split at hdetermined
    next hx hy =>
      rw [hfold x _ hx, hfold y _ hy, ← some.inj hdetermined]
    next => cases hdetermined
  | mux s t f =>
    rw [gate]
    simp only [determined] at hdetermined
    split at hdetermined
    next hs => rw [hfold s _ hs, if_pos rfl, hfold t _ hdetermined]
    next hs => rw [hfold s _ hs, if_neg Bool.false_ne_true, hfold f _ hdetermined]
    next =>
      split at hdetermined
      next ht hf =>
        split at hdetermined
        next heq => rw [hfold t _ ht, hfold f _ hf, ← heq, ite_self, some.inj hdetermined]
        next => cases hdetermined
      next => cases hdetermined

end

theorem FoldsRight.insert (hvalue : ∀ σ, Agrees nodes pinned σ → (values (gate σ) nodes)[i]? = some b) :
    FoldsRight nodes pinned (folded.insert i b) := by
  intro σ hσ j repl hj
  simp only [Folds.insert] at hj
  by_cases hij : j = i
  · subst hij
    rw [update_self, some.injEq] at hj
    rw [← hj, codeValue_litConst, hvalue σ hσ]
  · rw [update_of_ne hij] at hj
    exact h σ hσ j repl hj

end

theorem seedStep_right (hordered : Ordered (fun node => (children node).map litIdx) nodes) {st : Folds × ℕ}
    (h : FoldsRight nodes pinned st.1) (i : ℕ) : FoldsRight nodes pinned (seedStep nodes pinned st i).1 := by
  unfold seedStep
  split
  next v hnode =>
    split
    next b hb =>
      refine h.insert fun σ hσ => ?_
      rw [values_eq gate_local hordered hnode, gate, hσ v (mem_of_getElem? hnode) b hb]
    next => exact h
  next => exact h

theorem refoldStep_right (hordered : Ordered (fun node => (children node).map litIdx) nodes) {st : Folds × ℕ × Bool}
    (h : FoldsRight nodes pinned st.1) (i : ℕ) : FoldsRight nodes pinned (refoldStep nodes pinned st i).1 := by
  unfold refoldStep
  split
  · exact h
  · split
    next => exact h
    next node hnode =>
      split
      next b hb =>
        refine h.insert fun σ hσ => ?_
        rw [values_eq gate_local hordered hnode, determined_value h hσ (mem_of_getElem? hnode) hb]
      next => exact h

theorem foldl_right {α : Type} {step : Folds × α → ℕ → Folds × α}
    (hstep : ∀ st i, FoldsRight nodes pinned st.1 → FoldsRight nodes pinned (step st i).1) (is : List ℕ)
    {st : Folds × α} (h : FoldsRight nodes pinned st.1) : FoldsRight nodes pinned (is.foldl step st).1 := by
  induction is generalizing st with
  | nil => exact h
  | cons i is ih => exact ih (hstep st i h)

theorem refoldLoop_right (hordered : Ordered (fun node => (children node).map litIdx) nodes)
    (h : FoldsRight nodes pinned folded) (count : ℕ) :
    FoldsRight nodes pinned (refoldLoop nodes pinned folded count).1 := by
  induction folded, count using BoolIr.refoldLoop.induct nodes pinned with
  | case1 folded count round hchanged ih =>
    rw [refoldLoop, dif_pos hchanged]
    exact ih (foldl_right (fun _ i h => refoldStep_right hordered h i) _ h)
  | case2 folded count round hquiet =>
    rw [refoldLoop, dif_neg hquiet]
    exact foldl_right (fun _ i h => refoldStep_right hordered h i) _ h

theorem refoldConsts_right {ir : BoolIr} (h : ir.Wf) (hfolded : ir.folded = .empty) :
    FoldsRight ir.nodes ir.pinned ir.refoldConsts.1.folded := by
  have hempty : FoldsRight ir.nodes ir.pinned ir.folded := by
    intro σ hσ i repl hi
    rw [hfolded] at hi
    cases hi
  exact refoldLoop_right h.ordered (foldl_right (fun _ i h' => seedStep_right h.ordered h' i) _ hempty) _

end

end Nixie.Bv
