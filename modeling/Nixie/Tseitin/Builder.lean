import Nixie.Tseitin.Value

/-!
What the constructors add to an arena and what they denote.
-/

namespace Nixie.Tseitin

open List Option Arena

open Nixie.Ast (SortId)

variable {A A' A'' : Arena} {terms news : List Node} {node : Node} {i a : ℕ} {args : List ℕ}
  {σ : Tree → Bool}

structure Arena.WF (A : Arena) : Prop where
  closed : Closed A.terms
  sorted : ∀ node ∈ A.terms, node.kind.isFormula = true → node.sort = .bool
  table : ∀ id ∈ A.table, id < A.terms.length
  isTrue : get A.terms trueId = some ⟨.true, .bool⟩
  isFalse : get A.terms falseId = some ⟨.false, .bool⟩

structure Quiet (A A' : Arena) : Prop where
  wf : A'.WF
  grows : ∃ news, A'.terms = news ++ A.terms ∧ ∀ node ∈ news, ∀ name, node.kind ≠ .var name
  free : ∀ k, A'.Free k ↔ A.Free k

theorem Quiet.refl (h : A.WF) : Quiet A A := ⟨h, ⟨[], rfl, nofun⟩, fun _ => Iff.rfl⟩

theorem Quiet.trans (h : Quiet A A') (h' : Quiet A' A'') : Quiet A A'' := by
  obtain ⟨news, hnews, hvar⟩ := h.grows
  obtain ⟨news', hnews', hvar'⟩ := h'.grows
  refine ⟨h'.wf, ⟨news' ++ news, by rw [hnews', hnews, append_assoc], ?_⟩, ?_⟩
  · intro node hnode
    exact (mem_append.mp hnode).elim (hvar' node) (hvar node)
  · exact fun k => (h'.free k).trans (h.free k)

def Arena.Below (A A' : Arena) : Prop := ∃ news, A'.terms = news ++ A.terms

theorem Quiet.below (h : Quiet A A') : A.Below A' := h.grows.imp fun _ hnews => hnews.1

theorem Arena.Below.refl (A : Arena) : A.Below A := ⟨[], rfl⟩

theorem Arena.Below.trans (h : A.Below A') (h' : A'.Below A'') : A.Below A'' := by
  obtain ⟨news, hnews⟩ := h
  obtain ⟨news', hnews'⟩ := h'
  exact ⟨news' ++ news, by rw [hnews', hnews, append_assoc]⟩

section

variable (h : A.Below A')

include h

theorem Arena.Below.length_le : A.terms.length ≤ A'.terms.length := by
  obtain ⟨news, hnews⟩ := h
  simp [hnews]

theorem Arena.Below.lt (ha : a < A.terms.length) : a < A'.terms.length := ha.trans_le h.length_le

theorem Arena.Below.get_eq (ha : a < A.terms.length) : get A'.terms a = get A.terms a := by
  obtain ⟨news, hnews⟩ := h
  rw [hnews, get_append ha]

theorem Arena.Below.val_eq (ha : a < A.terms.length) : val σ A'.terms a = val σ A.terms a := by
  obtain ⟨news, hnews⟩ := h
  rw [hnews, val_append σ ha]

theorem Arena.Below.classify_eq (hA : A.WF) (ha : a < A.terms.length) : classify A'.terms a = classify A.terms a := by
  obtain ⟨news, hnews⟩ := h
  rw [hnews, classify_append hA.closed ha]

end

theorem get_cons_self (node : Node) (terms : List Node) : get (node :: terms) terms.length = some node := by
  rw [get, if_pos rfl]

theorem Arena.WF.push (h : A.WF) (hnode : ∀ a ∈ node.kind.children, a < A.terms.length)
    (hsort : node.kind.isFormula = true → node.sort = .bool) :
    Arena.WF ⟨node :: A.terms, A.terms.length :: A.table⟩ where
  closed i x hx a ha := by
    rw [get] at hx
    split_ifs at hx with hi
    · cases hx
      rw [hi]
      exact hnode a ha
    · exact h.closed i x hx a ha
  sorted := forall_mem_cons.mpr ⟨hsort, h.sorted⟩
  table id hid := by
    rcases mem_cons.mp hid with rfl | hid
    · simp
    · exact (h.table id hid).trans (by simp)
  isTrue := by rw [get, if_neg (get_lt h.isTrue).ne, h.isTrue]
  isFalse := by rw [get, if_neg (get_lt h.isFalse).ne, h.isFalse]

theorem find?_congr {α : Type*} {p q : α → Bool} {l : List α} (h : ∀ x ∈ l, p x = q x) : l.find? p = l.find? q := by
  induction l with
  | nil => rfl
  | cons x l ih =>
    rw [find?_cons, find?_cons, h x (by simp), ih fun y hy => h y (mem_cons_of_mem _ hy)]

theorem findInterned_push (h : A.WF) (x : Node) (hx : x ≠ node) :
    findInterned ⟨node :: A.terms, A.terms.length :: A.table⟩ x = A.findInterned x := by
  have hhead : decide (get (node :: A.terms) A.terms.length = some x) = false := by
    simpa [get_cons_self] using Ne.symm hx
  rw [findInterned, find?_cons, hhead]
  refine find?_congr fun id hid => ?_
  rw [get, if_neg (h.table id hid).ne]

theorem intern_spec (h : A.WF) {kind : Kind} {sort : SortId} (hkind : ∀ a ∈ kind.children, a < A.terms.length)
    (hsort : kind.isFormula = true → sort = .bool) : (A.intern kind sort).2.WF ∧ A.Below (A.intern kind sort).2 ∧
    get (A.intern kind sort).2.terms (A.intern kind sort).1 = some ⟨kind, sort⟩ := by
  unfold intern
  split
  · next id hid => exact ⟨h, .refl A, (findInterned_some hid).2⟩
  · exact ⟨h.push hkind hsort, ⟨[⟨kind, sort⟩], rfl⟩, get_cons_self _ _⟩

theorem quiet_intern (h : A.WF) {kind : Kind} {sort : SortId} (hkind : ∀ a ∈ kind.children, a < A.terms.length)
    (hsort : kind.isFormula = true → sort = .bool) (hvar : ∀ name, kind ≠ .var name) :
    Quiet A (A.intern kind sort).2 := by
  unfold intern
  split
  · exact .refl h
  · refine ⟨h.push hkind hsort, ⟨[⟨kind, sort⟩], rfl, by simpa using hvar⟩, fun k => ?_⟩
    rw [Arena.Free, Arena.Free, findInterned_push h]
    rintro ⟨⟩
    exact hvar _ rfl

theorem wf_new : Arena.new.WF where
  closed i node hnode := by
    simp only [new, get] at hnode
    split_ifs at hnode <;> cases hnode <;> simp [Kind.children]
  sorted := by simp [new]
  table := by simp [new, trueId, falseId]
  isTrue := rfl
  isFalse := rfl

theorem Arena.Reached.wf (h : A.Reached) : A.WF := by
  induction h with
  | new => exact wf_new
  | intern kind sort hkind hsort _ ih => exact (intern_spec ih hkind hsort).1
  | gc roots _ ih =>
    exact ⟨ih.closed, ih.sorted, fun id hid => ih.table id (mem_filter.mp hid).1, ih.isTrue, ih.isFalse⟩

theorem kind_of_map {kind : Kind} (h : (get terms a).map Node.kind = some kind) :
    ∃ sort, get terms a = some ⟨kind, sort⟩ := by
  obtain ⟨⟨kind, sort⟩, hnode, rfl⟩ := map_eq_some_iff.mp h
  exact ⟨sort, hnode⟩

theorem Arena.WF.get_formula (h : A.WF) {kind : Kind} (hkind : (get A.terms a).map Node.kind = some kind)
    (hformula : kind.isFormula = true) : get A.terms a = some ⟨kind, .bool⟩ := by
  obtain ⟨sort, hnode⟩ := kind_of_map hkind
  obtain rfl : sort = .bool := h.sorted _ (mem_iff_get.mpr ⟨a, hnode⟩) hformula
  exact hnode

theorem val_trueId (h : A.WF) : val σ A.terms trueId = true := by
  rw [val_atom h.closed h.isTrue (by rw [classify, h.isTrue]; rfl)]
  rfl

theorem val_falseId (h : A.WF) : val σ A.terms falseId = false := by
  rw [val_atom h.closed h.isFalse (by rw [classify, h.isFalse]; rfl)]
  rfl

theorem val_of_get (h : A.WF) {node : Node} (hnode : get A.terms a = some node) :
    val σ A.terms a = match node.connective A.terms with
      | some c => c.eval (val σ A.terms)
      | none => node.atomValue σ (tree A.terms) := by
  have hclass : classify A.terms a = node.connective A.terms := by rw [classify, hnode]; rfl
  split
  · next c hc => exact val_classify h.closed (hclass.trans hc)
  · next hc => exact val_atom h.closed hnode (hclass.trans hc)

theorem val_not (h : A.WF) (hnode : get A.terms a = some ⟨.not i, .bool⟩) :
    val σ A.terms a = !val σ A.terms i := val_of_get h hnode

theorem quiet_mkNot (h : A.WF) (ha : a < A.terms.length) : Quiet A (A.mkNot a).2 := by
  unfold mkNot
  split
  · exact .refl h
  · exact .refl h
  · exact .refl h
  · exact quiet_intern h (by simpa [Kind.children] using ha) (fun _ => rfl) nofun

theorem val_mkNot (h : A.WF) (ha : a < A.terms.length) :
    val σ (A.mkNot a).2.terms (A.mkNot a).1 = !val σ A.terms a := by
  unfold mkNot
  split
  · next inner hkind => rw [val_not h (h.get_formula hkind rfl), Bool.not_not]
  · next hkind => rw [val_falseId h, val_of_get h (h.get_formula hkind rfl)]; rfl
  · next hkind => rw [val_trueId h, val_of_get h (h.get_formula hkind rfl)]; rfl
  · obtain ⟨hwf, hbelow, hget⟩ := @intern_spec A h (.not a) .bool (by simpa [Kind.children] using ha) fun _ => rfl
    rw [val_not hwf hget, hbelow.val_eq ha]

section

variable {conjunction : Bool} {flat : List ℕ}

def undecided (σ : Tree → Bool) (terms : List Node) (conjunction : Bool) (args : List ℕ) : Bool :=
  args.all fun a => val σ terms a == conjunction

theorem undecided_cons : undecided σ terms conjunction (a :: args) =
    ((val σ terms a == conjunction) && undecided σ terms conjunction args) := rfl

theorem undecided_append {args' : List ℕ} : undecided σ terms conjunction (args ++ args') =
    (undecided σ terms conjunction args && undecided σ terms conjunction args') := all_append

theorem undecided_inner (h : A.WF) {inner : List ℕ} {kind : Kind}
    (hkind : (get A.terms a).map Node.kind = some kind)
    (hinner : kind = if conjunction then .and inner else .or inner) :
    (val σ A.terms a == conjunction) = undecided σ A.terms conjunction inner := by
  subst hinner
  cases conjunction with
  | true =>
    rw [val_of_get h (h.get_formula hkind rfl)]
    simp [Node.connective, Connective.eval, undecided]
  | false =>
    rw [val_of_get h (h.get_formula hkind rfl)]
    simp only [Node.connective, Connective.eval, undecided, ne_eq, not_true_eq_false, if_false, beq_false,
      Bool.false_eq_true]
    rw [not_any_eq_all_not]

theorem flatArgs_undecided (h : A.WF) (args : List ℕ) :
    ((flatArgs A.terms conjunction args).elim false (undecided σ A.terms conjunction)) =
    undecided σ A.terms conjunction args := by
  induction args with
  | nil => rfl
  | cons arg args ih =>
    have hcons : ∀ (f : List ℕ → List ℕ) (v : Bool),
        (∀ flat, undecided σ A.terms conjunction (f flat) = (v && undecided σ A.terms conjunction flat)) →
        (((flatArgs A.terms conjunction args).map f).elim false (undecided σ A.terms conjunction)) =
          (v && undecided σ A.terms conjunction args) := by
      intro f v hf
      rw [← ih]
      cases flatArgs A.terms conjunction args <;> simp [hf]
    rw [undecided_cons]
    unfold flatArgs
    split
    · next hkind => rw [val_of_get h (h.get_formula hkind rfl)]; rfl
    · next hkind => rw [val_of_get h (h.get_formula hkind rfl)]; rfl
    · next hkind => rw [val_of_get h (h.get_formula hkind rfl), ih]; rfl
    · next hkind => rw [val_of_get h (h.get_formula hkind rfl), ih]; rfl
    · next inner hkind =>
      rw [undecided_inner h hkind rfl]
      exact hcons (inner ++ ·) _ fun flat => undecided_append
    · next inner hkind =>
      rw [undecided_inner h hkind rfl]
      exact hcons (inner ++ ·) _ fun flat => undecided_append
    · exact hcons (arg :: ·) _ fun flat => undecided_cons

theorem flatArgs_lt (h : A.WF) (hargs : ∀ a ∈ args, a < A.terms.length)
    (hflat : flatArgs A.terms conjunction args = some flat) : ∀ a ∈ flat, a < A.terms.length := by
  induction args generalizing flat with
  | nil =>
    cases hflat
    nofun
  | cons arg args ih =>
    obtain ⟨harg, hargs⟩ := forall_mem_cons.mp hargs
    have hinner : ∀ {kind}, (get A.terms arg).map Node.kind = some kind →
        ∀ a ∈ kind.children, a < A.terms.length := by
      intro kind hkind a ha
      obtain ⟨sort, hnode⟩ := kind_of_map hkind
      exact (h.closed arg _ hnode a ha).trans harg
    have hmap : ∀ {first : List ℕ}, (∀ a ∈ first, a < A.terms.length) →
        (flatArgs A.terms conjunction args).map (first ++ ·) = some flat →
        ∀ a ∈ flat, a < A.terms.length := by
      intro first hfirst hsome a ha
      obtain ⟨rest, hrest, rfl⟩ := map_eq_some_iff.mp hsome
      exact (mem_append.mp ha).elim (hfirst a) (ih hargs hrest a)
    unfold flatArgs at hflat
    split at hflat
    · cases hflat
    · cases hflat
    · exact ih hargs hflat
    · exact ih hargs hflat
    · next hkind => exact hmap (hinner hkind) hflat
    · next hkind => exact hmap (hinner hkind) hflat
    · exact @hmap [arg] (by simpa using harg) hflat

variable (h : A.WF) (hargs : ∀ a ∈ args, a < A.terms.length)

include h hargs

theorem mkConnective_spec : Quiet A (A.mkConnective conjunction args).2 ∧
    (A.mkConnective conjunction args).1 < (A.mkConnective conjunction args).2.terms.length ∧
    val σ (A.mkConnective conjunction args).2.terms (A.mkConnective conjunction args).1 =
    (undecided σ A.terms conjunction args == conjunction) := by
  have hvalue : ((flatArgs A.terms conjunction args).elim false
      (undecided σ A.terms conjunction)) = undecided σ A.terms conjunction args := flatArgs_undecided h args
  unfold mkConnective
  split
  · next hflat =>
    rw [hflat, elim_none] at hvalue
    rw [← hvalue]
    cases conjunction
    · exact ⟨.refl h, get_lt h.isTrue, val_trueId h⟩
    · exact ⟨.refl h, get_lt h.isFalse, val_falseId h⟩
  · next hflat =>
    rw [hflat, elim_some] at hvalue
    rw [← hvalue]
    cases conjunction
    · exact ⟨.refl h, get_lt h.isFalse, val_falseId h⟩
    · exact ⟨.refl h, get_lt h.isTrue, val_trueId h⟩
  · next arg hflat =>
    rw [hflat, elim_some] at hvalue
    refine ⟨.refl h, flatArgs_lt h hargs hflat arg (by simp), ?_⟩
    rw [← hvalue]
    cases conjunction <;> simp [undecided]
  · next flat _ _ hflat =>
    have hlt := flatArgs_lt h hargs hflat
    rw [hflat, elim_some] at hvalue
    set kind : Kind := if conjunction then .and flat else .or flat with hkind
    have hchildren : ∀ a ∈ kind.children, a < A.terms.length := by
      cases conjunction <;> simpa [hkind, Kind.children] using hlt
    have hvar : ∀ name, kind ≠ .var name := by
      cases conjunction <;> simp [hkind]
    obtain ⟨hwf, hbelow, hget⟩ := @intern_spec A h kind .bool hchildren fun _ => rfl
    refine ⟨quiet_intern h hchildren (fun _ => rfl) hvar, get_lt hget, ?_⟩
    have hinner : (val σ (A.intern kind .bool).2.terms (A.intern kind .bool).1 == conjunction) =
        undecided σ (A.intern kind .bool).2.terms conjunction flat :=
      undecided_inner hwf (by rw [hget]; rfl) hkind
    have hsame : undecided σ (A.intern kind .bool).2.terms conjunction flat =
        undecided σ A.terms conjunction flat := by
      rw [undecided, undecided, Bool.eq_iff_iff, List.all_eq_true, List.all_eq_true]
      exact forall₂_congr fun a ha => by rw [hbelow.val_eq (hlt a ha)]
    rw [← hvalue, ← hsame, ← hinner]
    cases conjunction <;> simp

theorem quiet_mkConnective (conjunction : Bool) : Quiet A (A.mkConnective conjunction args).2 :=
  (mkConnective_spec (σ := fun _ => true) h hargs).1

theorem val_mkOr : val σ (A.mkOr args).2.terms (A.mkOr args).1 = args.any (val σ A.terms) := by
  rw [mkOr, (mkConnective_spec h hargs).2.2]
  simp [undecided, not_all_eq_any_not]

theorem val_mkAnd : val σ (A.mkAnd args).2.terms (A.mkAnd args).1 = args.all (val σ A.terms) := by
  rw [mkAnd, (mkConnective_spec h hargs).2.2]
  simp [undecided]

end

section

def IsAtom (terms : List Node) (a : ℕ) : Prop := a < terms.length ∧ classify terms a = none

def IsLiteral (terms : List Node) (a : ℕ) : Prop :=
  IsAtom terms a ∨ ∃ x, get terms a = some ⟨.not x, .bool⟩ ∧ IsAtom terms x

def IsClause (terms : List Node) (a : ℕ) : Prop :=
  IsLiteral terms a ∨ ∃ args, get terms a = some ⟨.or args, .bool⟩ ∧ ∀ x ∈ args, IsLiteral terms x

def IsCnf (terms : List Node) (a : ℕ) : Prop :=
  IsClause terms a ∨ ∃ args, get terms a = some ⟨.and args, .bool⟩ ∧ ∀ x ∈ args, IsClause terms x

theorem IsLiteral.lt (h : IsLiteral terms a) : a < terms.length := by
  rcases h with h | ⟨x, hx, -⟩
  · exact h.1
  · exact get_lt hx

theorem IsClause.lt (h : IsClause terms a) : a < terms.length := by
  rcases h with h | ⟨args, hargs, -⟩
  · exact h.lt
  · exact get_lt hargs

variable (hA : A.WF)

include hA

omit hA in
theorem isAtom_of_get {kind : Kind} (h : get A.terms a = some ⟨kind, .bool⟩)
    (hkind : Node.connective A.terms ⟨kind, .bool⟩ = none) : IsAtom A.terms a :=
  ⟨get_lt h, by rw [classify, h]; exact hkind⟩

theorem isLiteral_trueId : IsLiteral A.terms trueId := .inl (isAtom_of_get hA.isTrue rfl)

theorem isLiteral_falseId : IsLiteral A.terms falseId := .inl (isAtom_of_get hA.isFalse rfl)

section

variable (h : A.Below A')

include h

theorem IsAtom.below (ha : IsAtom A.terms a) : IsAtom A'.terms a := ⟨h.lt ha.1, by rw [h.classify_eq hA ha.1, ha.2]⟩

theorem IsLiteral.below (ha : IsLiteral A.terms a) : IsLiteral A'.terms a := by
  rcases ha with ha | ⟨x, hx, hatom⟩
  · exact .inl (ha.below hA h)
  · exact .inr ⟨x, by rw [h.get_eq (get_lt hx), hx], hatom.below hA h⟩

theorem IsClause.below (ha : IsClause A.terms a) : IsClause A'.terms a := by
  rcases ha with ha | ⟨args, hget, hargs⟩
  · exact .inl (ha.below hA h)
  · exact .inr ⟨args, by rw [h.get_eq (get_lt hget), hget], fun x hx => (hargs x hx).below hA h⟩

end

theorem isLiteral_mkNot (ha : IsLiteral A.terms a) : IsLiteral (A.mkNot a).2.terms (A.mkNot a).1 := by
  have hlt := ha.lt
  unfold mkNot
  split
  · next inner hkind =>
    have hnode := hA.get_formula hkind rfl
    rcases ha with ha | ⟨x, hx, hatom⟩
    · have hclass : classify A.terms a = some (.not inner) := by rw [classify, hnode]; rfl
      rw [ha.2] at hclass
      cases hclass
    · rw [hnode] at hx
      cases hx
      exact .inl hatom
  · exact isLiteral_falseId hA
  · exact isLiteral_trueId hA
  · next hnot _ _ =>
    obtain ⟨hwf, hbelow, hget⟩ := @intern_spec A hA (.not a) .bool (by simpa [Kind.children] using hlt) fun _ => rfl
    rcases ha with ha | ⟨x, hx, hatom⟩
    · exact .inr ⟨a, hget, ha.below hA hbelow⟩
    · exact absurd (by rw [hx]; rfl) (hnot x)

theorem flatArgs_subset {conjunction : Bool} {flat : List ℕ}
    (hargs : ∀ a ∈ args, ∀ inner, get A.terms a ≠
      some ⟨if conjunction then .and inner else .or inner, .bool⟩)
    (hflat : flatArgs A.terms conjunction args = some flat) : flat ⊆ args := by
  induction args generalizing flat with
  | nil =>
    cases hflat
    exact List.Subset.refl _
  | cons arg args ih =>
    obtain ⟨harg, hargs⟩ := forall_mem_cons.mp hargs
    unfold flatArgs at hflat
    split at hflat
    · cases hflat
    · cases hflat
    · exact subset_cons_of_subset _ (ih hargs hflat)
    · exact subset_cons_of_subset _ (ih hargs hflat)
    · next inner hkind _ => exact absurd (hA.get_formula hkind rfl) (harg inner)
    · next inner hkind _ => exact absurd (hA.get_formula hkind rfl) (harg inner)
    · obtain ⟨rest, hrest, rfl⟩ := map_eq_some_iff.mp hflat
      exact cons_subset_cons _ (ih hargs hrest)

theorem isClause_mkOr (hargs : ∀ a ∈ args, IsLiteral A.terms a) : IsClause (A.mkOr args).2.terms (A.mkOr args).1 := by
  have hnot : ∀ a ∈ args, ∀ inner, get A.terms a ≠ some ⟨.or inner, .bool⟩ := by
    intro a ha inner hget
    rcases hargs a ha with hatom | ⟨x, hx, -⟩
    · have hclass : classify A.terms a = some (.or inner) := by rw [classify, hget]; rfl
      rw [hatom.2] at hclass
      cases hclass
    · rw [hget] at hx
      cases hx
  unfold mkOr mkConnective
  split
  · exact .inl (isLiteral_trueId hA)
  · exact .inl (isLiteral_falseId hA)
  · next arg hflat => exact .inl (hargs arg (flatArgs_subset hA hnot hflat (by simp)))
  · next flat _ _ hflat =>
    have hsub := flatArgs_subset hA hnot hflat
    obtain ⟨hwf, hbelow, hget⟩ := @intern_spec A hA (.or flat) .bool (fun a ha => (hargs a (hsub ha)).lt) fun _ => rfl
    exact .inr ⟨flat, hget, fun x hx => (hargs x (hsub hx)).below hA hbelow⟩

theorem isCnf_mkAnd (hargs : ∀ a ∈ args, IsClause A.terms a) : IsCnf (A.mkAnd args).2.terms (A.mkAnd args).1 := by
  have hnot : ∀ a ∈ args, ∀ inner, get A.terms a ≠ some ⟨.and inner, .bool⟩ := by
    intro a ha inner hget
    rcases hargs a ha with (hatom | ⟨x, hx, -⟩) | ⟨inner', hor, -⟩
    · have hclass : classify A.terms a = some (.and inner) := by rw [classify, hget]; rfl
      rw [hatom.2] at hclass
      cases hclass
    · rw [hget] at hx
      cases hx
    · rw [hget] at hor
      cases hor
  unfold mkAnd mkConnective
  split
  · exact .inl (.inl (isLiteral_falseId hA))
  · exact .inl (.inl (isLiteral_trueId hA))
  · next arg hflat => exact .inl (hargs arg (flatArgs_subset hA hnot hflat (by simp)))
  · next flat _ _ hflat =>
    have hsub := flatArgs_subset hA hnot hflat
    obtain ⟨hwf, hbelow, hget⟩ := @intern_spec A hA (.and flat) .bool
      (fun a ha => (hargs a (hsub ha)).lt) fun _ => rfl
    exact .inr ⟨flat, hget, fun x hx => (hargs x (hsub hx)).below hA hbelow⟩

end

end Nixie.Tseitin
