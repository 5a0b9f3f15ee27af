import Nixie.Congruence

/-!
Forests that grow edge by edge.
-/

namespace Nixie.Congruence

open List

variable {α L : Type*}

def Respects (R : α → α → Prop) (S : α → Bool) : Prop := ∀ x y, R x y → S x = S y

def Balanced (R : α → α → Prop) (xs ys : List α) : Prop :=
  ∀ S, Respects R S → xs.countP S = ys.countP S

section

variable {R R' F U : α → α → Prop} {S : α → Bool} {xs ys : List α} {a b x y : α}

theorem Respects.eqvGen (h : Respects R S) (hxy : Relation.EqvGen R x y) : S x = S y := by
  induction hxy with
  | rel x y hxy => exact h x y hxy
  | refl x => rfl
  | symm x y _ ih => exact ih.symm
  | trans x y z _ _ ih₁ ih₂ => exact ih₁.trans ih₂

noncomputable def classOf (R : α → α → Prop) (x : α) : α → Bool :=
  fun y => @decide (Relation.EqvGen R x y) (Classical.propDecidable _)

theorem classOf_iff : classOf R x y ↔ Relation.EqvGen R x y := by
  simp [classOf]

theorem respects_classOf (hR : ∀ x y, R' x y → Relation.EqvGen R x y) : Respects R' (classOf R a) := by
  intro x y hxy
  rw [Bool.eq_iff_iff, classOf_iff, classOf_iff]
  exact ⟨fun h => h.trans _ _ _ (hR x y hxy), fun h => h.trans _ _ _ ((hR x y hxy).symm _ _)⟩

theorem Balanced.mono (hR : ∀ x y, R x y → R' x y) (h : Balanced R xs ys) : Balanced R' xs ys :=
  fun S hS => h S fun x y hxy => hS x y (hR x y hxy)

theorem Balanced.length_eq (h : Balanced R xs ys) : xs.length = ys.length := by
  have hall := h (fun _ => true) fun _ _ _ => rfl
  simpa using hall

theorem countP_split (S A : α → Bool) (xs : List α) :
    xs.countP S = xs.countP (fun x => S x && A x) + xs.countP fun x => S x && !A x := by
  induction xs with
  | nil => rfl
  | cons x xs ih =>
    simp only [countP_cons, ih]
    cases S x <;> cases A x <;> simp <;> omega

theorem Balanced.remove_edge_of (hUF : ∀ x y, U x y → Relation.EqvGen F x y) (hab : ¬ Relation.EqvGen F a b)
    (hF : Balanced F xs ys) (hU : Balanced (fun x y => U x y ∨ x = a ∧ y = b) xs ys) (hS : Respects U S)
    (ha : S a = true) (hb : S b = false) : xs.countP S = ys.countP S := by
  set A := classOf F a with hA
  have hAU : Respects U A := respects_classOf hUF
  have hAa : A a = true := classOf_iff.mpr (.refl a)
  have hAb : A b = false := by
    rw [Bool.eq_false_iff]
    exact fun h => hab (classOf_iff.mp h)
  have hout := hU (fun x => S x && !A x) (by
    rintro x y (hxy | ⟨rfl, rfl⟩)
    · simp only [hS x y hxy, hAU x y hxy]
    · simp only [hAa, hb, Bool.not_true, Bool.and_false, Bool.false_and])
  have hin := hU (fun x => A x && !S x) (by
    rintro x y (hxy | ⟨rfl, rfl⟩)
    · simp only [hS x y hxy, hAU x y hxy]
    · simp only [ha, hAb, Bool.not_true, Bool.and_false, Bool.false_and])
  have hclass := hF A (respects_classOf fun x y hxy => .rel x y hxy)
  rw [countP_split A S xs, countP_split A S ys] at hclass
  have hcomm (zs : List α) : zs.countP (fun x => A x && S x) = zs.countP fun x => S x && A x := by
    simp only [Bool.and_comm]
  rw [hcomm, hcomm] at hclass
  rw [countP_split S A xs, countP_split S A ys]
  omega

theorem Balanced.remove_edge (hUF : ∀ x y, U x y → Relation.EqvGen F x y) (hab : ¬ Relation.EqvGen F a b)
    (hF : Balanced F xs ys) (hU : Balanced (fun x y => U x y ∨ x = a ∧ y = b) xs ys) : Balanced U xs ys := by
  intro S hS
  by_cases hS' : S a = S b
  · refine hU S ?_
    rintro x y (hxy | ⟨rfl, rfl⟩)
    · exact hS x y hxy
    · exact hS'
  · cases ha : S a with
    | true =>
      have hb : S b = false := by
        rw [ha] at hS'
        simpa using Ne.symm hS'
      exact hF.remove_edge_of hUF hab hU hS ha hb
    | false =>
      have hb : S b = true := by
        rw [ha] at hS'
        simpa using Ne.symm hS'
      have hS'' : Respects U fun x => !S x := fun x y hxy => by simp only [hS x y hxy]
      have hcompl := hF.remove_edge_of hUF hab hU hS'' (by simp [ha]) (by simp [hb])
      have hxs := length_eq_countP_add_countP S (l := xs)
      have hys := length_eq_countP_add_countP S (l := ys)
      have hlen := hU.length_eq
      have hnot (zs : List α) : zs.countP (fun x => decide ¬ S x = true) = zs.countP fun x => !S x := by
        simp
      rw [hnot] at hxs hys
      omega

theorem Balanced.of_forall₂ {zs : List α} (hperm : zs.Perm ys)
    (h : List.Forall₂ (Relation.EqvGen R) xs zs) : Balanced R xs ys := by
  intro S hS
  rw [← hperm.countP_eq]
  clear hperm
  induction h with
  | nil => rfl
  | cons hxy _ ih => rw [countP_cons, countP_cons, ih, hS.eqvGen hxy]

theorem Balanced.exists_forall₂ (h : Balanced R xs ys) : ∃ zs, zs.Perm ys ∧ List.Forall₂ (Relation.EqvGen R) xs zs := by
  induction xs generalizing ys with
  | nil =>
    have hys : ys = [] := length_eq_zero_iff.mp h.length_eq.symm
    exact ⟨[], hys ▸ .rfl, .nil⟩
  | cons x xs ih =>
    have hcount := h (classOf R x) (respects_classOf fun x y hxy => .rel x y hxy)
    rw [countP_cons_of_pos (classOf_iff.mpr (.refl x))] at hcount
    have hpos : 0 < ys.countP (classOf R x) := by omega
    obtain ⟨y, hy, hxy⟩ := countP_pos_iff.mp hpos
    obtain ⟨before, after, rfl⟩ := append_of_mem hy
    have hrest : Balanced R xs (before ++ after) := by
      intro S hS
      have hS' := h S hS
      rw [perm_middle.countP_eq, countP_cons, countP_cons, hS.eqvGen (classOf_iff.mp hxy)] at hS'
      exact Nat.add_right_cancel hS'
    obtain ⟨zs, hperm, hzs⟩ := ih hrest
    exact ⟨y :: zs, (hperm.cons y).trans perm_middle.symm, .cons (classOf_iff.mp hxy) hzs⟩

theorem balanced_singleton : Balanced R [x] [y] ↔ Relation.EqvGen R x y := by
  constructor
  · intro h
    obtain ⟨zs, hperm, hzs⟩ := h.exists_forall₂
    rw [perm_singleton.mp hperm] at hzs
    exact (forall₂_cons.mp hzs).1
  · exact fun h => .of_forall₂ .rfl (.cons h .nil)

end

def Edge (E : α × α × L → Prop) (x y : α) : Prop := ∃ l, E (x, y, l)

def Conn (E : α × α × L → Prop) : α → α → Prop := Relation.EqvGen (Edge E)

def Acyclic : List (α × α × L) → Prop
  | [] => True
  | (a, b, _) :: log => ¬ Conn (· ∈ log) a b ∧ Acyclic log

section

variable {E E' U : α × α × L → Prop} {log later older : List (α × α × L)} {x y : α}
  {xs ys : List α}

theorem conn_equivalence : Equivalence (Conn E) := Relation.EqvGen.is_equivalence _

theorem Conn.imp {R : α → α → Prop} (hR : Equivalence R) (hE : ∀ x y l, E (x, y, l) → R x y)
    (h : Conn E x y) : R x y := by
  induction h with
  | rel x y h =>
    obtain ⟨l, h⟩ := h
    exact hE x y l h
  | refl x => exact hR.refl x
  | symm x y _ ih => exact hR.symm ih
  | trans x y z _ _ ih₁ ih₂ => exact hR.trans ih₁ ih₂

theorem Conn.mono (hE : ∀ e, E e → E' e) (h : Conn E x y) : Conn E' x y :=
  h.imp conn_equivalence fun x y l hxy => .rel x y ⟨l, hE _ hxy⟩

theorem Balanced.earlier (hacyclic : Acyclic (later ++ older))
    (hU : Balanced (Edge fun e => U e ∧ e ∈ later ++ older) xs ys) (holder : Balanced (Edge (· ∈ older)) xs ys) :
    Balanced (Edge fun e => U e ∧ e ∈ older) xs ys := by
  induction later with
  | nil => exact hU
  | cons e later ih =>
    obtain ⟨a, b, l⟩ := e
    obtain ⟨hab, hacyclic⟩ := hacyclic
    refine ih hacyclic ?_
    have hall : Balanced (Edge (· ∈ later ++ older)) xs ys := holder.mono fun x y ⟨l, h⟩ => ⟨l, mem_append_right _ h⟩
    refine hall.remove_edge (fun x y ⟨l, h⟩ => .rel x y ⟨l, h.2⟩) hab ?_
    refine hU.mono fun x y ⟨l, hused, hmem⟩ => ?_
    rcases mem_cons.mp hmem with heq | hmem
    · cases heq
      exact .inr ⟨rfl, rfl⟩
    · exact .inl ⟨l, hused, hmem⟩

theorem Matches.balanced {c : Prop} {R : α → α → Prop} (h : Matches c (Relation.EqvGen R) xs ys) :
    Balanced R xs ys := by
  rcases h with h | ⟨-, zs, hperm, h⟩
  · exact .of_forall₂ .rfl h
  · exact .of_forall₂ hperm h

theorem Matches.earlier {c : Prop} (hacyclic : Acyclic (later ++ older))
    (hU : Matches c (Conn fun e => U e ∧ e ∈ later ++ older) xs ys) (holder : Matches c (Conn (· ∈ older)) xs ys) :
    Matches c (Conn fun e => U e ∧ e ∈ older) xs ys := by
  by_cases hc : c
  · exact .inr ⟨hc, (hU.balanced.earlier hacyclic holder.balanced).exists_forall₂⟩
  · left
    have hpos : List.Forall₂ (Conn (· ∈ older)) xs ys := holder.resolve_right fun h => hc h.1
    have hused := hU.resolve_right fun h => hc h.1
    clear hU holder
    -- each pair of arguments on its own
    induction hused with
    | nil => exact .nil
    | cons hxy _ ih =>
      obtain ⟨hxy', hrest⟩ := forall₂_cons.mp hpos
      refine .cons ?_ (ih hrest)
      exact balanced_singleton.mp ((balanced_singleton.mpr hxy).earlier hacyclic (balanced_singleton.mpr hxy'))

end

end Nixie.Congruence
