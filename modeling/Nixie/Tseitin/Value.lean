import Nixie.Tseitin.Encoder

/-!
The meaning of terms.  An atom is named by what it is built of, so two places of the arena with one
name are one atom.
-/

namespace Nixie.Tseitin

open List

open Nixie.Ast (SortId)

inductive Symbol
  | true
  | false
  | var (name : String)
  | not
  | and
  | or
  | implies
  | xor
  | eq
  | ite
  | other (symbol : String)

def Kind.symbol : Kind → Symbol
  | .true => .true
  | .false => .false
  | .var name => .var name
  | .not _ => .not
  | .and _ => .and
  | .or _ => .or
  | .implies _ _ => .implies
  | .xor _ _ => .xor
  | .eq _ _ => .eq
  | .ite _ _ _ => .ite
  | .other symbol _ => .other symbol

inductive Tree
  | mk (symbol : Symbol) (sort : SortId) (args : List Tree)

def Node.tree (subtree : ℕ → Tree) (node : Node) : Tree :=
  .mk node.kind.symbol node.sort (node.kind.children.map subtree)

def tree : List Node → ℕ → Tree
  | [], _ => .mk .false .bool []
  | node :: rest, i => if i = rest.length then node.tree (tree rest) else tree rest i

def Connective.eval (value : ℕ → Bool) : Connective → Bool
  | .not arg => !value arg
  | .and args => args.all value
  | .or args => args.any value
  | .implies lhs rhs => !value lhs || value rhs
  | .xor lhs rhs => value lhs != value rhs
  | .iff lhs rhs => value lhs == value rhs
  | .ite cond thenBranch elseBranch => if value cond then value thenBranch else value elseBranch

def Node.atomValue (σ : Tree → Bool) (subtree : ℕ → Tree) (node : Node) : Bool :=
  match node.kind with
  | .true => true
  | .false => false
  | _ => σ (node.tree subtree)

def val (σ : Tree → Bool) : List Node → ℕ → Bool
  | [], _ => false
  | node :: rest, i =>
    if i = rest.length then
      match node.connective rest with
      | some connective => connective.eval (val σ rest)
      | none => node.atomValue σ (tree rest)
    else val σ rest i

section

variable {terms news : List Node} {node : Node} {i : ℕ}

theorem get_split (h : get terms i = some node) : ∃ news rest, terms = news ++ node :: rest ∧ rest.length = i := by
  induction terms with
  | nil => cases h
  | cons first terms ih =>
    rw [get] at h
    split_ifs at h with hi
    · cases h
      exact ⟨[], terms, rfl, hi.symm⟩
    · obtain ⟨news, rest, rfl, hlen⟩ := ih h
      exact ⟨first :: news, rest, rfl, hlen⟩

theorem get_lt (h : get terms i = some node) : i < terms.length := by
  obtain ⟨news, rest, rfl, rfl⟩ := get_split h
  simp
  omega

theorem exists_get (h : i < terms.length) : ∃ node, get terms i = some node := by
  induction terms with
  | nil => cases h
  | cons first terms ih =>
    rw [get]
    split_ifs with hi
    · exact ⟨first, rfl⟩
    · exact ih (by simp at h; omega)

theorem mem_iff_get : node ∈ terms ↔ ∃ i, get terms i = some node := by
  constructor
  · intro h
    induction terms with
    | nil => cases h
    | cons first terms ih =>
      by_cases hfirst : first = node
      · exact ⟨terms.length, by simp [get, hfirst]⟩
      · obtain ⟨i, hi⟩ := ih ((mem_cons.mp h).resolve_left (Ne.symm hfirst))
        refine ⟨i, ?_⟩
        rw [get, if_neg (get_lt hi).ne, hi]
  · rintro ⟨i, hi⟩
    obtain ⟨news, rest, rfl, -⟩ := get_split hi
    simp

theorem append_eq {α : Type*} {f : List Node → ℕ → α}
    (hf : ∀ node rest i, i ≠ rest.length → f (node :: rest) i = f rest i) (h : i < terms.length) :
    f (news ++ terms) i = f terms i := by
  induction news with
  | nil => rfl
  | cons node news ih =>
    rw [cons_append, hf, ih]
    simp
    omega

theorem get_append (h : i < terms.length) : get (news ++ terms) i = get terms i :=
  append_eq (fun node rest i hi => by rw [get, if_neg hi]) h

theorem mem_of_get_append (h : get (news ++ terms) i = some node) (hi : terms.length ≤ i) : node ∈ news := by
  induction news with
  | nil => exact absurd (get_lt h) hi.not_gt
  | cons first news ih =>
    rw [cons_append, get] at h
    split_ifs at h
    · cases h
      exact mem_cons_self
    · exact mem_cons_of_mem _ (ih h)

theorem tree_append (h : i < terms.length) : tree (news ++ terms) i = tree terms i :=
  append_eq (fun node rest i hi => by rw [tree, if_neg hi]) h

theorem val_append (σ : Tree → Bool) (h : i < terms.length) : val σ (news ++ terms) i = val σ terms i :=
  append_eq (fun node rest i hi => by rw [val, if_neg hi]) h

theorem treeSize_append (h : i < terms.length) : treeSize (news ++ terms) i = treeSize terms i :=
  append_eq (fun node rest i hi => by rw [treeSize, if_neg hi]) h

theorem isBool_append (h : i < terms.length) : isBool (news ++ terms) i = isBool terms i := by
  rw [isBool, isBool, get_append h]

end

section

variable {terms news : List Node} {node : Node} {i : ℕ} {c : Connective} {σ : Tree → Bool}

def Closed (terms : List Node) : Prop :=
  ∀ i node, get terms i = some node → ∀ a ∈ node.kind.children, a < i

theorem operands_subset (h : node.connective terms = some c) : c.operands ⊆ node.kind.children := by
  obtain ⟨kind, sort⟩ := node
  unfold Node.connective at h
  split_ifs at h
  cases kind with
  | eq lhs rhs | ite cond thenBranch elseBranch =>
    dsimp only at h
    split_ifs at h
    cases h
    exact List.Subset.refl _
  | not arg | and args | or args | implies lhs rhs | xor lhs rhs =>
    cases h
    exact List.Subset.refl _
  | _ => cases h

theorem connective_append (h : ∀ a ∈ node.kind.children, a < terms.length) :
    node.connective (news ++ terms) = node.connective terms := by
  unfold Node.connective
  split_ifs
  · rfl
  · split
    all_goals try rfl
    · next hkind =>
      rw [hkind] at h
      simp only [Kind.children, forall_mem_cons] at h
      rw [isBool_append h.1, isBool_append h.2.1]
    · next hkind =>
      rw [hkind] at h
      simp only [Kind.children, forall_mem_cons] at h
      rw [isBool_append h.1, isBool_append h.2.1, isBool_append h.2.2.1]

theorem classify_append (hclosed : Closed terms) (h : i < terms.length) :
    classify (news ++ terms) i = classify terms i := by
  obtain ⟨node, hnode⟩ := exists_get h
  have hchildren := hclosed i node hnode
  rw [classify, classify, get_append h, hnode]
  exact connective_append fun a ha => (hchildren a ha).trans h

theorem eval_congr {f g : ℕ → Bool} (h : ∀ a ∈ c.operands, f a = g a) : c.eval f = c.eval g := by
  cases c with
  | and args =>
    rw [Connective.eval, Connective.eval, Bool.eq_iff_iff, all_eq_true, all_eq_true]
    exact forall₂_congr fun a ha => by rw [h a ha]
  | or args =>
    rw [Connective.eval, Connective.eval, Bool.eq_iff_iff, any_eq_true, any_eq_true]
    exact exists_congr fun a => and_congr_right fun ha => by rw [h a ha]
  | _ =>
    simp only [Connective.operands, forall_mem_cons] at h
    simp [Connective.eval, h]

section

variable (hclosed : Closed terms)
include hclosed

theorem operands_lt (h : classify terms i = some c) : ∀ a ∈ c.operands, a < i := by
  obtain ⟨node, hnode, hc⟩ := Option.bind_eq_some_iff.mp h
  exact fun a ha => hclosed i node hnode a (operands_subset hc ha)

theorem val_classify (h : classify terms i = some c) : val σ terms i = c.eval (val σ terms) := by
  obtain ⟨node, hnode, hc⟩ := Option.bind_eq_some_iff.mp h
  have hlt := operands_lt hclosed h
  have hchildren := hclosed i node hnode
  obtain ⟨news, rest, rfl, rfl⟩ := get_split hnode
  have hsplit : news ++ node :: rest = (news ++ [node]) ++ rest := by simp
  rw [val_append σ (by simp), val, if_pos rfl, ← connective_append hchildren, ← hsplit, hc]
  refine eval_congr fun a ha => ?_
  rw [hsplit, val_append σ (hlt a ha)]

section

variable (hnode : get terms i = some node)
include hnode

theorem val_atom (h : classify terms i = none) : val σ terms i = node.atomValue σ (tree terms) := by
  have hchildren := hclosed i node hnode
  rw [classify, hnode, Option.bind_some] at h
  obtain ⟨news, rest, rfl, rfl⟩ := get_split hnode
  have hsplit : news ++ node :: rest = (news ++ [node]) ++ rest := by simp
  rw [val_append σ (by simp), val, if_pos rfl, ← connective_append hchildren, ← hsplit, h]
  have htree : node.tree (tree rest) = node.tree (tree (news ++ node :: rest)) := by
    rw [Node.tree, Node.tree, map_congr_left fun a ha => ?_]
    rw [hsplit, tree_append (hchildren a ha)]
  simp only [Node.atomValue, htree]

theorem tree_get : tree terms i = node.tree (tree terms) := by
  have hchildren := hclosed i node hnode
  obtain ⟨news, rest, rfl, rfl⟩ := get_split hnode
  have hsplit : news ++ node :: rest = (news ++ [node]) ++ rest := by simp
  rw [tree_append (by simp), tree, if_pos rfl, Node.tree, Node.tree, map_congr_left fun a ha => ?_]
  rw [hsplit, tree_append (hchildren a ha)]

theorem treeSize_get : treeSize terms i = (node.kind.children.map (treeSize terms)).sum + 1 := by
  have hchildren := hclosed i node hnode
  obtain ⟨news, rest, rfl, rfl⟩ := get_split hnode
  have hsplit : news ++ node :: rest = (news ++ [node]) ++ rest := by simp
  rw [treeSize_append (by simp), treeSize, if_pos rfl, map_congr_left fun a ha => ?_]
  rw [hsplit, treeSize_append (hchildren a ha)]

end

end

end

end Nixie.Tseitin
