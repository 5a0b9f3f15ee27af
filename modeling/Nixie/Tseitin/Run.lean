import Nixie.Tseitin.Define

/-!
The run of the encoder: the representatives have the values of their terms wherever the clauses hold,
and the clauses hold for some values of the new variables.
-/

namespace Nixie.Tseitin

open List Option Function Encoder

open Nixie.Ast (SortId)

variable {A : Arena} {e e' : Encoder} {root id a i k : ℕ} {c : Connective} {σ σ' : Tree → Bool}
  {terms : List Node} {node : Node}

def varTree (k : ℕ) : Tree := .mk (.var (tseitinName k)) .bool []

theorem tseitinVar_injective : Function.Injective tseitinVar := fun j k h =>
  tseitinName_injective (by simpa [tseitinVar] using h)

theorem tree_eq_varTree (hclosed : Closed terms) (hi : i < terms.length) (h : tree terms i = varTree k) :
    get terms i = some (tseitinVar k) := by
  obtain ⟨⟨kind, sort⟩, hnode⟩ := exists_get hi
  rw [tree_get hclosed hnode, Node.tree, varTree, Tree.mk.injEq] at h
  obtain ⟨hsymbol, rfl, -⟩ := h
  cases kind with
  | var name =>
    cases hsymbol
    exact hnode
  | _ => cases hsymbol

theorem tree_tseitinVar (hclosed : Closed terms) (h : get terms i = some (tseitinVar k)) :
    tree terms i = varTree k := by
  rw [tree_get hclosed h]
  rfl

theorem val_congr (hclosed : Closed terms) (h : ∀ j < terms.length, σ' (tree terms j) = σ (tree terms j))
    (hi : i < terms.length) : val σ' terms i = val σ terms i := by
  induction i using Nat.strong_induction_on with
  | _ i ih =>
    obtain ⟨node, hnode⟩ := exists_get hi
    cases hc : classify terms i with
    | some c =>
      rw [val_classify hclosed hc, val_classify hclosed hc]
      have hlt := operands_lt hclosed hc
      exact eval_congr fun a ha => ih a (hlt a ha) ((hlt a ha).trans hi)
    | none =>
      rw [val_atom hclosed hnode hc, val_atom hclosed hnode hc]
      have htree := h i hi
      rw [tree_get hclosed hnode] at htree
      simp only [Node.atomValue, htree]

theorem count_succ_find {p : ℕ → Prop} [DecidablePred p] {counter : ℕ} (hk : counter ≤ k) (hp : p k)
    (hmin : ∀ j, counter ≤ j → j < k → ¬ p j) : Nat.count p (k + 1) = Nat.count p counter + 1 := by
  have hsame : Nat.count p k = Nat.count p counter := by
    clear hp
    induction k, hk using Nat.le_induction with
    | base => rfl
    | succ k hk ih =>
      rw [Nat.count_succ, if_neg (hmin k hk (Nat.lt_succ_self k)), add_zero]
      exact ih fun j hj hjk => hmin j hj (hjk.trans (Nat.lt_succ_self k))
  rw [Nat.count_succ, if_pos hp, hsame]

def compound (terms : List Node) (id : ℕ) : Bool :=
  match classify terms id with
  | some c => !c.isNot
  | none => false

def defined : List Node → ℕ → List ℕ
  | [], _ => []
  | node :: rest, i =>
    if i = rest.length then
      match node.connective rest with
      | some c => (if c.isNot then [] else [i]) ++ c.operands.flatMap (defined rest)
      | none => []
    else defined rest i

def Arena.definitions (A : Arena) (root : ℕ) : ℕ := (defined A.terms root).dedup.length

theorem defined_append {news : List Node} (h : i < terms.length) : defined (news ++ terms) i = defined terms i :=
  append_eq (fun node rest i hi => by rw [defined, if_neg hi]) h

section

variable (hclosed : Closed terms)
include hclosed

theorem defined_atom (hi : i < terms.length) (h : classify terms i = none) : defined terms i = [] := by
  obtain ⟨node, hnode⟩ := exists_get hi
  have hchildren := hclosed i node hnode
  rw [classify, hnode, bind_some] at h
  obtain ⟨news, rest, rfl, rfl⟩ := get_split hnode
  have hsplit : news ++ node :: rest = (news ++ [node]) ++ rest := by simp
  rw [defined_append (by simp), defined, if_pos rfl, ← connective_append hchildren, ← hsplit, h]

theorem defined_classify (hc : classify terms i = some c) :
    defined terms i = (if c.isNot then [] else [i]) ++ c.operands.flatMap (defined terms) := by
  obtain ⟨node, hnode, hconn⟩ := bind_eq_some_iff.mp hc
  have hlt := operands_lt hclosed hc
  have hchildren := hclosed i node hnode
  obtain ⟨news, rest, rfl, rfl⟩ := get_split hnode
  have hsplit : news ++ node :: rest = (news ++ [node]) ++ rest := by simp
  rw [defined_append (by simp), defined, if_pos rfl, ← connective_append hchildren, ← hsplit, hconn]
  dsimp only
  congr 1
  refine flatMap_congr fun a ha => ?_
  rw [hsplit, defined_append (hlt a ha)]

theorem defined_operand (hc : classify terms i = some c) (ha : a ∈ c.operands) :
    defined terms a ⊆ defined terms i := by
  rw [defined_classify hclosed hc]
  intro j hj
  exact mem_append_right _ (mem_flatMap.mpr ⟨a, ha, hj⟩)

theorem mem_defined_self (h : compound terms i = true) : i ∈ defined terms i := by
  unfold compound at h
  split at h
  · next c hc =>
    rw [defined_classify hclosed hc, if_neg (by simpa using h)]
    simp
  · cases h

end

section

def resolved (A : Arena) (e : Encoder) : Finset ℕ :=
  (Finset.range A.terms.length).filter fun id => (e.reps id).isSome = true ∧ compound A.terms id = true

def FreshBelow (A : Arena) (counter : ℕ) : Prop := ∀ k < counter, A.Free k → tseitinVar k ∉ A.terms

def OffVars (A : Arena) (counter : ℕ) (σ σ' : Tree → Bool) : Prop :=
  ∀ t, (∀ k < counter, A.Free k → t ≠ varTree k) → σ' t = σ t

structure Represents (A : Arena) (e : Encoder) : Prop where
  good : e.Good
  below : A.Below e.arena
  reps : ∀ id r, e.reps id = some r → id < A.terms.length ∧ IsLiteral e.arena.terms r
  operands : ∀ id r c, e.reps id = some r → classify A.terms id = some c →
    ∀ a ∈ c.operands, (e.reps a).isSome = true
  sound : ∀ σ, e.Holds σ → ∀ id r, e.reps id = some r → val σ e.arena.terms r = val σ A.terms id

/-- The variables of the arena that are not of its start are those of the indices tried so far that
were free then. -/
structure Mints (A : Arena) (e : Encoder) : Prop where
  vars : ∀ i name sort, A.terms.length ≤ i → get e.arena.terms i = some ⟨.var name, sort⟩ →
    ∃ k < e.counter, A.Free k ∧ (⟨.var name, sort⟩ : Node) = tseitinVar k
  named : ∀ k < e.counter, A.Free k → ∃ i, A.terms.length ≤ i ∧ get e.arena.terms i = some (tseitinVar k)
  free : ∀ k, e.counter ≤ k → (e.arena.Free k ↔ A.Free k)

structure Inv (A : Arena) (e : Encoder) : Prop where
  start : A.WF
  represents : Represents A e
  mints : Mints A e
  complete : FreshBelow A e.counter → ∀ σ, ∃ σ', OffVars A e.counter σ σ' ∧ e.Holds σ'
  used : ∀ k < e.counter, A.Free k → ∃ id r, e.reps id = some r ∧ get e.arena.terms r = some (tseitinVar k)
  count : (resolved A e).card = Nat.count A.Free e.counter

theorem inv_start (hA : A.WF) : Inv A ⟨A, fun _ => none, [], 0⟩ where
  start := hA
  represents := ⟨⟨hA, nofun⟩, .refl A, nofun, nofun, nofun⟩
  mints := ⟨fun i _ _ hi h => absurd (get_lt h) hi.not_gt, nofun, fun _ _ => Iff.rfl⟩
  complete _ σ := ⟨σ, fun _ _ => rfl, nofun⟩
  used := nofun
  count := by simp [resolved]

variable {r : ℕ}

theorem Represents.setRep (h : Represents A e) (hgood : e'.Good) (hbelow : e.arena.Below e'.arena)
    (hreps : e'.reps = e.reps) (hholds : ∀ σ, e'.Holds σ → e.Holds σ) (hid : id < A.terms.length)
    (hr : IsLiteral e'.arena.terms r)
    (hops : ∀ c, classify A.terms id = some c → ∀ a ∈ c.operands, (e.reps a).isSome = true)
    (hvalue : ∀ σ, e'.Holds σ → val σ e'.arena.terms r = val σ A.terms id) : Represents A (e'.setRep id r) := by
  have hupdate : (e'.setRep id r).reps = update e.reps id (some r) := by
    rw [Encoder.setRep, hreps]
  have hcases : ∀ j s, (e'.setRep id r).reps j = some s → j = id ∧ s = r ∨ e.reps j = some s := by
    intro j s hs
    rw [hupdate] at hs
    by_cases hj : j = id
    · rw [hj, update_self] at hs
      exact .inl ⟨hj, (some.inj hs).symm⟩
    · rw [update_of_ne hj] at hs
      exact .inr hs
  refine ⟨⟨hgood.wf, hgood.clauses⟩, h.below.trans hbelow, ?_, ?_, ?_⟩
  · intro j s hs
    rcases hcases j s hs with ⟨rfl, rfl⟩ | hs
    · exact ⟨hid, hr⟩
    · exact ⟨(h.reps j s hs).1, (h.reps j s hs).2.below h.good.wf hbelow⟩
  · intro j s c hs hc a ha
    have hold : (e.reps a).isSome = true := by
      rcases hcases j s hs with ⟨rfl, -⟩ | hs
      · exact hops c hc a ha
      · exact h.operands j s c hs hc a ha
    rw [hupdate]
    by_cases ha' : a = id
    · rw [ha', update_self]
      rfl
    · rwa [update_of_ne ha']
  · intro σ hσ j s hs
    rcases hcases j s hs with ⟨rfl, rfl⟩ | hs
    · exact hvalue σ hσ
    · exact (hbelow.val_eq (h.reps j s hs).2.lt).trans (h.sound σ (hholds σ hσ) j s hs)

theorem Mints.quiet (h : Mints A e) (hq : Quiet e.arena e'.arena) (hcounter : e'.counter = e.counter) : Mints A e' := by
  obtain ⟨news, hnews, hvar⟩ := hq.grows
  refine ⟨fun i name sort hi hget => ?_, fun k hk hfree => ?_, fun k hk => ?_⟩
  · by_cases hlt : i < e.arena.terms.length
    · rw [hq.below.get_eq hlt] at hget
      exact hcounter ▸ h.vars i name sort hi hget
    · rw [hnews] at hget
      exact absurd rfl (hvar _ (mem_of_get_append hget (not_lt.mp hlt)) name)
  · obtain ⟨i, hi, hget⟩ := h.named k (hcounter ▸ hk) hfree
    exact ⟨i, hi, by rw [hq.below.get_eq (get_lt hget), hget]⟩
  · rw [hq.free, h.free k (hcounter ▸ hk)]

theorem freshVar_spec (e : Encoder) : ∃ k, e.counter ≤ k ∧ e.arena.Free k ∧
    (∀ j, e.counter ≤ j → j < k → ¬ e.arena.Free j) ∧
    e.freshVar = (e.arena.terms.length,
      { e with
        arena := ⟨tseitinVar k :: e.arena.terms, e.arena.terms.length :: e.arena.table⟩
        counter := k + 1 }) := by
  have hspec := Nat.find_spec (e.arena.exists_free e.counter)
  refine ⟨_, hspec.1, hspec.2, fun j hj hlt hfree => Nat.find_min _ hlt ⟨hj, hfree⟩, ?_⟩
  have hnone : e.arena.findInterned (tseitinVar _) = none := hspec.2
  rw [freshVar, Arena.mkVar, Arena.intern, ← tseitinVar, hnone]

structure Adds (e e' : Encoder) (name k : ℕ) : Prop where
  le : e.counter ≤ k
  isFree : e.arena.Free k
  min : ∀ j, e.counter ≤ j → j < k → ¬ e.arena.Free j
  terms : e'.arena.terms = tseitinVar k :: e.arena.terms
  good : e'.Good
  reps : e'.reps = e.reps
  counter : e'.counter = k + 1
  free : ∀ j, j ≠ k → (e'.arena.Free j ↔ e.arena.Free j)
  holds : ∀ σ, e'.Holds σ ↔ e.Holds σ
  get_name : get e'.arena.terms name = some (tseitinVar k)
  lit : Lit e' name fun σ => σ (varTree k)

variable {name : ℕ}

theorem Adds.below (h : Adds e e' name k) : e.arena.Below e'.arena := ⟨[tseitinVar k], h.terms⟩

theorem freshVar_adds (hg : e.Good) (hm : e.freshVar = (name, e')) : ∃ k, Adds e e' name k := by
  obtain ⟨k, hle, hfree, hmin, hfresh⟩ := freshVar_spec e
  rw [hfresh] at hm
  obtain ⟨rfl, rfl⟩ := Prod.mk.inj hm
  have hwf : Arena.WF ⟨tseitinVar k :: e.arena.terms, e.arena.terms.length :: e.arena.table⟩ := hg.wf.push nofun nofun
  have hbelow : e.arena.Below ⟨tseitinVar k :: e.arena.terms, e.arena.terms.length :: e.arena.table⟩ :=
    ⟨[tseitinVar k], rfl⟩
  have hget := get_cons_self (tseitinVar k) e.arena.terms
  have hatom : classify (tseitinVar k :: e.arena.terms) e.arena.terms.length = none := by
    rw [classify, hget]
    rfl
  refine ⟨k, hle, hfree, hmin, rfl, ⟨hwf, fun c hc => (hg.clauses c hc).below hg.wf hbelow⟩, rfl, rfl, ?_, ?_,
    hget, ?_⟩
  · intro j hj
    rw [Arena.Free, Arena.Free, findInterned_push hg.wf]
    exact fun heq => hj (tseitinVar_injective heq)
  · exact fun σ => forall₂_congr fun c hc =>
      iff_of_eq (congrArg (· = true) (hbelow.val_eq (hg.clauses c hc).lt))
  · refine ⟨.inl ⟨get_lt hget, hatom⟩, fun σ => ?_⟩
    rw [val_atom hwf.closed hget hatom]
    rfl

theorem Mints.adds (h : Mints A e) (hA : A.Below e.arena) (ha : Adds e e' name k) : Mints A e' := by
  have hfree : A.Free k := (h.free k ha.le).mp ha.isFree
  refine ⟨fun i n sort hi hget => ?_, fun j hj hjfree => ?_, fun j hj => ?_⟩
  · rw [ha.counter]
    rw [ha.terms, get] at hget
    split_ifs at hget
    · exact ⟨k, Nat.lt_succ_self k, hfree, (some.inj hget).symm⟩
    · obtain ⟨j, hj, hjfree, hnode⟩ := h.vars i n sort hi hget
      exact ⟨j, hj.trans_le (ha.le.trans (Nat.le_succ k)), hjfree, hnode⟩
  · by_cases hjk : j = k
    · rw [hjk]
      exact ⟨e.arena.terms.length, hA.length_le, by rw [ha.terms, get_cons_self]⟩
    · have hlt : j < e.counter := by
        by_contra hle
        rw [ha.counter] at hj
        exact ha.min j (not_lt.mp hle) (by omega) ((h.free j (not_lt.mp hle)).mpr hjfree)
      obtain ⟨i, hi, hget⟩ := h.named j hlt hjfree
      exact ⟨i, hi, by rw [ha.below.get_eq (get_lt hget), hget]⟩
  · rw [ha.counter] at hj
    have hle := ha.le
    rw [ha.free j (by omega), h.free j (by omega)]

theorem used_setRep (hreps : e'.reps = e.reps) (hbelow : e.arena.Below e'.arena) (hnew : e.reps id = none)
    (h : ∃ id r, e.reps id = some r ∧ get e.arena.terms r = some node) :
    ∃ j s, (e'.setRep id r).reps j = some s ∧ get e'.arena.terms s = some node := by
  obtain ⟨j, s, hs, hget⟩ := h
  refine ⟨j, s, ?_, by rw [hbelow.get_eq (get_lt hget), hget]⟩
  have hj : j ≠ id := by
    rintro rfl
    rw [hnew] at hs
    cases hs
  rw [setRep, hreps]
  exact (update_of_ne hj _ _).trans hs

theorem resolved_setRep (hreps : e'.reps = e.reps) (hid : id < A.terms.length) (hnew : e.reps id = none) :
    (resolved A (e'.setRep id r)).card = (resolved A e).card + if compound A.terms id = true then 1 else 0 := by
  have hupdate : (e'.setRep id r).reps = update e.reps id (some r) := by
    rw [setRep, hreps]
  split_ifs with hcompound
  · have hinsert : resolved A (e'.setRep id r) = insert id (resolved A e) := by
      ext j
      simp only [resolved, hupdate, Finset.mem_filter, Finset.mem_range, Finset.mem_insert]
      by_cases hj : j = id
      · simp [hj, hid, hcompound]
      · simp [hj]
    rw [hinsert, Finset.card_insert_of_notMem (by simp [resolved, hnew])]
  · have hsame : resolved A (e'.setRep id r) = resolved A e := by
      ext j
      simp only [resolved, hupdate, Finset.mem_filter, Finset.mem_range]
      by_cases hj : j = id
      · simp [hj, hcompound]
      · simp [hj]
    rw [hsame, add_zero]

variable (h : Inv A e) (hid : id < A.terms.length) (hnew : e.reps id = none)
  (hops : ∀ c, classify A.terms id = some c → ∀ a ∈ c.operands, (e.reps a).isSome = true)

include h hid hnew hops

theorem Inv.setRep (he : Emits e e' fun _ => True) (hcompound : compound A.terms id = false)
    (hr : IsLiteral e'.arena.terms r) (hvalue : ∀ σ, e.Holds σ → val σ e'.arena.terms r = val σ A.terms id) :
    Inv A (e'.setRep id r) := by
  have hholds : ∀ σ, e'.Holds σ ↔ e.Holds σ := fun σ => by rw [he.holds, and_iff_left trivial]
  have hmints := h.mints.quiet he.quiet he.counter
  have hcounter : (e'.setRep id r).counter = e.counter := he.counter
  refine ⟨h.start, ?_, ⟨hmints.vars, hmints.named, hmints.free⟩, fun hfresh σ => ?_, fun k hk hfree => ?_, ?_⟩
  · exact h.represents.setRep he.good he.quiet.below he.reps (fun σ => (hholds σ).mp) hid hr hops
      fun σ hσ => hvalue σ ((hholds σ).mp hσ)
  · rw [hcounter] at hfresh ⊢
    obtain ⟨σ', hoff, hσ'⟩ := h.complete hfresh σ
    exact ⟨σ', hoff, (hholds σ').mpr hσ'⟩
  · rw [hcounter] at hk
    exact used_setRep he.reps he.quiet.below hnew (h.used k hk hfree)
  · rw [resolved_setRep he.reps hid hnew, hcompound, hcounter, h.count]
    rfl

omit hid hnew in
theorem Inv.lit_repOf (hc : classify A.terms id = some c) (ha : a ∈ c.operands) :
    Lit e (e.repOf a) fun σ => val σ e.arena.terms (e.repOf a) := by
  obtain ⟨r, hr⟩ := isSome_iff_exists.mp (hops c hc a ha)
  refine ⟨?_, fun _ => rfl⟩
  rw [repOf, hr]
  exact (h.represents.reps a r hr).2

omit hid hnew in
theorem Inv.val_repOf (hσ : e.Holds σ) (hc : classify A.terms id = some c) (ha : a ∈ c.operands) :
    val σ e.arena.terms (e.repOf a) = val σ A.terms a := by
  obtain ⟨r, hr⟩ := isSome_iff_exists.mp (hops c hc a ha)
  rw [repOf, hr]
  exact h.represents.sound σ hσ a r hr

theorem Inv.define (hc : classify A.terms id = some c) (hnot : c.isNot = false) (hm : e.freshVar = (name, e')) :
    Inv A ((e'.define name c).setRep id name) ∧ (e'.define name c).reps = e.reps := by
  have hrep := h.represents
  obtain ⟨k, hadds⟩ := freshVar_adds hrep.good hm
  have hrepOf : e'.repOf = e.repOf := by
    funext a
    rw [repOf, repOf, hadds.reps]
  have hlits : ∀ a ∈ c.operands, Lit e' (e'.repOf a) fun σ => val σ e.arena.terms (e.repOf a) := by
    intro a ha
    have hlit := h.lit_repOf hops hc ha
    rw [hrepOf]
    exact ⟨hlit.isLiteral.below hrep.good.wf hadds.below, fun σ => hadds.below.val_eq hlit.isLiteral.lt⟩
  have hdef := define_spec hadds.good hadds.lit hnot hlits
  have hholds : ∀ σ, (e'.define name c).Holds σ ↔ e.Holds σ ∧
      σ (varTree k) = c.eval fun a => val σ e.arena.terms (e.repOf a) := fun σ => by
    rw [hdef.holds, hadds.holds]
  have hvalue : ∀ σ, e.Holds σ →
      (c.eval fun a => val σ e.arena.terms (e.repOf a)) = val σ A.terms id := fun σ hσ => by
    rw [val_classify h.start.closed hc]
    exact eval_congr fun a ha => h.val_repOf hops hσ hc ha
  have hreps : (e'.define name c).reps = e.reps := hdef.reps.trans hadds.reps
  have hcounter : ((e'.define name c).setRep id name).counter = k + 1 := hdef.counter.trans hadds.counter
  have hmints := (h.mints.adds hrep.below hadds).quiet hdef.quiet hdef.counter
  have hfreeA : A.Free k := (h.mints.free k hadds.le).mp hadds.isFree
  refine ⟨⟨h.start, ?_, ⟨hmints.vars, hmints.named, hmints.free⟩, fun hfresh σ => ?_, fun j hj hfree => ?_,
    ?_⟩, hreps⟩
  · have hname := hadds.lit.keep hadds.good hdef
    refine hrep.setRep hdef.good (hadds.below.trans hdef.quiet.below) hreps
      (fun σ hσ => ((hholds σ).mp hσ).1) hid hname.isLiteral hops fun σ hσ => ?_
    obtain ⟨hσ, hvar⟩ := (hholds σ).mp hσ
    rw [hname.value, hvar, hvalue σ hσ]
  · rw [hcounter] at hfresh ⊢
    have hle := hadds.le
    obtain ⟨σ', hoff, hσ'⟩ := h.complete (fun j hj => hfresh j (by omega)) σ
    -- The new variable names no term so far, so its value can be chosen.
    have hother : ∀ j < e.arena.terms.length, tree e.arena.terms j ≠ varTree k := by
      intro j hj htree
      have hget := tree_eq_varTree hrep.good.wf.closed hj htree
      by_cases hold : j < A.terms.length
      · rw [hrep.below.get_eq hold] at hget
        exact hfresh k (Nat.lt_succ_self k) hfreeA (mem_iff_get.mpr ⟨j, hget⟩)
      · obtain ⟨k', hk', -, hnode⟩ := h.mints.vars j _ _ (not_lt.mp hold) hget
        have := tseitinVar_injective hnode
        omega
    classical
    set σ'' := update σ' (varTree k) (val σ' A.terms id) with hσ''
    have hval : ∀ i < e.arena.terms.length, val σ'' e.arena.terms i = val σ' e.arena.terms i :=
      fun i hi => val_congr hrep.good.wf.closed
        (fun j hj => update_of_ne (hother j hj) _ _) hi
    refine ⟨σ'', fun t ht => ?_, (hholds σ'').mpr ⟨fun c hc => ?_, ?_⟩⟩
    · rw [hσ'', update_of_ne (ht k (Nat.lt_succ_self k) hfreeA)]
      exact hoff t fun j hj => ht j (by omega)
    · rw [hval c (hrep.good.clauses c hc).lt]
      exact hσ' c hc
    · have hnew : σ'' (varTree k) = val σ' A.terms id := by rw [hσ'', update_self]
      rw [hnew, ← hvalue σ' hσ']
      exact eval_congr fun a ha => (hval _ (h.lit_repOf hops hc ha).isLiteral.lt).symm
  · by_cases hjk : j = k
    · refine ⟨id, name, by simp [Encoder.setRep], ?_⟩
      rw [hjk]
      exact (hdef.quiet.below.get_eq hadds.lit.isLiteral.lt).trans hadds.get_name
    · refine used_setRep hreps (hadds.below.trans hdef.quiet.below) hnew (h.used j ?_ hfree)
      rw [hcounter] at hj
      by_contra hle
      have hjle := not_lt.mp hle
      exact hadds.min j hjle (by omega) ((h.mints.free j hjle).mpr hfree)
  · have hcompound : compound A.terms id = true := by
      simp [compound, hc, hnot]
    rw [resolved_setRep hreps hid hnew, if_pos hcompound, hcounter, h.count]
    refine (count_succ_find hadds.le hfreeA fun j hj hjk hfree => ?_).symm
    exact hadds.min j hj hjk ((h.mints.free j hj).mpr hfree)

end

section

def Supported (terms : List Node) (reps : ℕ → Option ℕ) : List ℕ → List TseitinStep → Prop
  | _, [] => True
  | above, step :: work =>
    (∀ j c, step = .combine j → classify terms j = some c →
      ∀ a ∈ c.operands, (reps a).isSome = true ∨ a ∈ above) ∧
    Supported terms reps (step.id :: above) work

theorem Supported.mono {reps reps' : ℕ → Option ℕ} {above above' : List ℕ} {work : List TseitinStep}
    (h : Supported terms reps above work) (hreps : ∀ a, (reps a).isSome = true ∨ a ∈ above → (reps' a).isSome = true ∨
    a ∈ above') : Supported terms reps' above' work := by
  induction work generalizing above above' with
  | nil => trivial
  | cons step work ih =>
    refine ⟨fun j c hstep hc a ha => hreps a (h.1 j c hstep hc a ha), ih h.2 fun a ha => ?_⟩
    have := hreps a
    simp only [mem_cons] at ha ⊢
    tauto

theorem supported_expand {reps : ℕ → Option ℕ} {above ids : List ℕ} {work : List TseitinStep}
    (h : Supported terms reps (ids.reverse ++ above) work) : Supported terms reps above (ids.map .expand ++ work) := by
  induction ids generalizing above with
  | nil => exact h
  | cons id ids ih =>
    refine ⟨nofun, ih ?_⟩
    simpa [TseitinStep.id] using h

structure Stacked (A : Arena) (root : ℕ) (e : Encoder) (work : List TseitinStep) : Prop where
  inv : Inv A e
  lt : ∀ s ∈ work, s.id < A.terms.length
  order : work.Pairwise fun s t => ∀ j, t = .combine j → s.id < j
  combine : ∀ j, .combine j ∈ work → e.reps j = none ∧ (classify A.terms j).isSome = true
  supported : Supported A.terms e.reps [] work
  rooted : (e.reps root).isSome = true ∨ ∃ s ∈ work, s.id = root
  within : ∀ j, ((e.reps j).isSome = true ∨ ∃ s ∈ work, s.id = j) → defined A.terms j ⊆ defined A.terms root

variable {work : List TseitinStep} {s : TseitinStep}

theorem Stacked.pop (h : Stacked A root e (s :: work)) (hinv : Inv A e')
    (hreps : ∀ j, e'.reps j = none ↔ e.reps j = none ∧ j ≠ s.id) : Stacked A root e' work := by
  have hsome : ∀ j, (e'.reps j).isSome = true ↔ (e.reps j).isSome = true ∨ j = s.id := by
    intro j
    rw [← not_iff_not, not_isSome_iff_eq_none, hreps, not_or, not_isSome_iff_eq_none]
  refine ⟨hinv, fun t ht => h.lt t (mem_cons_of_mem _ ht), (pairwise_cons.mp h.order).2, ?_, ?_, ?_, ?_⟩
  · intro j hj
    obtain ⟨hnone, hclass⟩ := h.combine j (mem_cons_of_mem _ hj)
    have hlt := (pairwise_cons.mp h.order).1 _ hj j rfl
    exact ⟨(hreps j).mpr ⟨hnone, hlt.ne'⟩, hclass⟩
  · refine h.supported.2.mono fun a ha => .inl ((hsome a).mpr ?_)
    simpa using ha
  · rw [hsome]
    rcases h.rooted with hroot | ⟨t, ht, htroot⟩
    · exact .inl (.inl hroot)
    · rcases mem_cons.mp ht with rfl | ht
      · exact .inl (.inr htroot.symm)
      · exact .inr ⟨t, ht, htroot⟩
  · intro j hj
    refine h.within j ?_
    rw [hsome] at hj
    rcases hj with (hj | rfl) | ⟨t, ht, htj⟩
    · exact .inl hj
    · exact .inr ⟨s, by simp, rfl⟩
    · exact .inr ⟨t, mem_cons_of_mem _ ht, htj⟩

theorem Stacked.push (h : Stacked A root e (.expand id :: work)) (hnone : e.reps id = none)
    (hc : classify A.terms id = some c) : Stacked A root e (e.expandOperands c.operands ++ .combine id :: work) := by
  have hclosed := h.inv.start.closed
  have hlt := operands_lt hclosed hc
  have hid := h.lt (.expand id) (by simp)
  obtain ⟨hbelow, horder⟩ := pairwise_cons.mp h.order
  have hexpand : ∀ t ∈ e.expandOperands c.operands, ∃ a ∈ c.operands, t = .expand a := by
    intro t ht
    obtain ⟨a, ha, rfl⟩ := mem_map.mp ht
    exact ⟨a, (mem_filter.mp ha).1, rfl⟩
  refine ⟨h.inv, ?_, ?_, ?_, ?_, ?_, ?_⟩
  · intro t ht
    rcases mem_append.mp ht with ht | ht
    · obtain ⟨a, ha, rfl⟩ := hexpand t ht
      exact (hlt a ha).trans hid
    · rcases mem_cons.mp ht with rfl | ht
      · exact hid
      · exact h.lt t (mem_cons_of_mem _ ht)
  · refine pairwise_append.mpr ⟨?_, pairwise_cons.mpr ⟨hbelow, horder⟩, ?_⟩
    · refine pairwise_of_forall_mem_list fun s _ t ht j hj => ?_
      obtain ⟨a, -, rfl⟩ := hexpand t ht
      cases hj
    · intro s hs t ht j hj
      obtain ⟨a, ha, rfl⟩ := hexpand s hs
      rcases mem_cons.mp ht with rfl | ht
      · cases hj
        exact hlt a ha
      · exact (hlt a ha).trans (hbelow t ht j hj)
  · intro j hj
    rcases mem_append.mp hj with hj | hj
    · obtain ⟨a, -, ha⟩ := hexpand _ hj
      cases ha
    · rcases mem_cons.mp hj with hj | hj
      · cases hj
        exact ⟨hnone, by rw [hc]; rfl⟩
      · exact h.combine j (mem_cons_of_mem _ hj)
  · refine supported_expand ⟨fun j c' hj hc' a ha => ?_, ?_⟩
    · cases hj
      rw [hc] at hc'
      cases hc'
      by_cases hsome : (e.reps a).isSome = true
      · exact .inl hsome
      · refine .inr ?_
        simpa [ha] using hsome
    · refine h.supported.2.mono fun a ha => ?_
      simp only [TseitinStep.id, mem_cons] at ha ⊢
      tauto
  · refine h.rooted.imp_right ?_
    rintro ⟨t, ht, htroot⟩
    rcases mem_cons.mp ht with rfl | ht
    · exact ⟨.combine id, by simp, htroot⟩
    · exact ⟨t, by simp [ht], htroot⟩
  · rintro j (hj | ⟨t, ht, rfl⟩)
    · exact h.within j (.inl hj)
    · have hself := h.within id (.inr ⟨.expand id, by simp, rfl⟩)
      rcases mem_append.mp ht with ht | ht
      · obtain ⟨a, ha, rfl⟩ := hexpand t ht
        exact List.Subset.trans (defined_operand hclosed hc ha) hself
      · rcases mem_cons.mp ht with rfl | ht
        · exact hself
        · exact h.within t.id (.inr ⟨t, mem_cons_of_mem _ ht, rfl⟩)

theorem setRep_reps {r : ℕ} (hreps : e'.reps = e.reps) (j : ℕ) :
    (e'.setRep id r).reps j = none ↔ e.reps j = none ∧ j ≠ id := by
  rw [setRep, hreps]
  by_cases hj : j = id
  · simp [hj]
  · simp [hj]

theorem Stacked.operands (h : Stacked A root e (.combine id :: work)) :
    ∀ c, classify A.terms id = some c → ∀ a ∈ c.operands, (e.reps a).isSome = true := by
  intro c hc a ha
  simpa using h.supported.1 id c rfl hc a ha

theorem Stacked.runCombine (h : Stacked A root e (.combine id :: work)) : Stacked A root (e.combine id) work := by
  have hid : id < A.terms.length := h.lt (.combine id) (by simp)
  obtain ⟨hnone, hsome⟩ := h.combine id (by simp)
  have hops := h.operands
  have hclass := h.inv.represents.below.classify_eq h.inv.start hid
  obtain ⟨c, hc⟩ := isSome_iff_exists.mp hsome
  have hgood := h.inv.represents.good
  unfold Encoder.combine
  rw [hclass, hc]
  cases c with
  | not arg =>
    dsimp only
    have hlit := h.inv.lit_repOf hops hc (a := arg) (by simp [Connective.operands])
    rcases hm : e.mkNot (e.repOf arg) with ⟨negated, e'⟩
    obtain ⟨hemits, hneg⟩ := mkNot_spec hm hgood hlit
    have hcompound : compound A.terms id = false := by simp [compound, hc, Connective.isNot]
    refine h.pop (h.inv.setRep hid hnone hops hemits hcompound hneg.isLiteral fun σ hσ => ?_)
      (setRep_reps hemits.reps)
    rw [hneg.value, h.inv.val_repOf hops hσ hc (by simp [Connective.operands]), val_classify h.inv.start.closed hc]
    rfl
  | and args | or args | implies lhs rhs | xor lhs rhs | iff lhs rhs | ite cond thenBranch elseBranch =>
    dsimp only
    rcases hm : e.freshVar with ⟨name, e'⟩
    obtain ⟨hinv, hreps⟩ := h.inv.define hid hnone hops hc rfl hm
    exact h.pop hinv (setRep_reps hreps)

theorem Stacked.runStep (h : Stacked A root e (s :: work)) :
    Stacked A root (e.runStep work s).2 (e.runStep work s).1 := by
  cases s with
  | combine id => exact h.runCombine
  | expand id =>
    have hid : id < A.terms.length := h.lt (.expand id) (by simp)
    have hclass := h.inv.represents.below.classify_eq h.inv.start hid
    have hgood := h.inv.represents.good
    unfold runStep
    dsimp only
    split_ifs with hsome
    · refine h.pop h.inv fun j => ⟨fun hj => ⟨hj, fun hji : j = id => ?_⟩, And.left⟩
      rw [← hji, hj] at hsome
      cases hsome
    · have hnone : e.reps id = none := by simpa using hsome
      split
      · next hatom =>
        have hatomA : classify A.terms id = none := hclass ▸ hatom
        have hcompound : compound A.terms id = false := by simp [compound, hatomA]
        refine h.pop (h.inv.setRep hid hnone (by simp [hatomA]) (.refl hgood) hcompound
          (.inl ⟨h.inv.represents.below.lt hid, hatom⟩) fun σ _ => ?_) (setRep_reps rfl)
        exact h.inv.represents.below.val_eq hid
      · next c hc => exact h.push hnone (hclass ▸ hc)

def stepWeight (terms : List Node) : TseitinStep → ℕ
  | .expand id => 2 * treeSize terms id
  | .combine _ => 1

def workWeight (terms : List Node) (work : List TseitinStep) : ℕ := (work.map (stepWeight terms)).sum

theorem treeSize_pos (terms : List Node) (i : ℕ) : 0 < treeSize terms i := by
  induction terms with
  | nil => exact Nat.one_pos
  | cons node rest ih =>
    rw [treeSize]
    split_ifs
    · exact Nat.succ_pos _
    · exact ih

theorem workWeight_expandOperands (e : Encoder) (operands : List ℕ) :
    workWeight terms (e.expandOperands operands) ≤ 2 * (operands.map (treeSize terms)).sum := by
  induction operands with
  | nil => simp [expandOperands, workWeight]
  | cons a operands ih =>
    simp only [expandOperands, workWeight, filter_cons, map_cons, sum_cons] at ih ⊢
    split_ifs
    · simp only [map_cons, sum_cons, stepWeight]
      omega
    · omega

theorem sum_operands_le (hc : node.connective terms = some c) (f : ℕ → ℕ) :
    (c.operands.map f).sum = (node.kind.children.map f).sum := by
  obtain ⟨kind, sort⟩ := node
  unfold Node.connective at hc
  split_ifs at hc
  cases kind with
  | eq lhs rhs | ite cond thenBranch elseBranch =>
    dsimp only at hc
    split_ifs at hc
    cases hc
    rfl
  | not arg | and args | or args | implies lhs rhs | xor lhs rhs =>
    cases hc
    rfl
  | _ => cases hc

theorem Stacked.runStep_weight (h : Stacked A root e (s :: work)) :
    workWeight A.terms (e.runStep work s).1 < workWeight A.terms (s :: work) := by
  have hcons : workWeight A.terms (s :: work) = stepWeight A.terms s + workWeight A.terms work := by
    simp [workWeight]
  cases s with
  | combine id =>
    rw [hcons]
    simp [Encoder.runStep, stepWeight]
  | expand id =>
    have hid : id < A.terms.length := h.lt (.expand id) (by simp)
    have hclass := h.inv.represents.below.classify_eq h.inv.start hid
    have hpos := treeSize_pos A.terms id
    rw [hcons, stepWeight]
    unfold Encoder.runStep
    dsimp only
    split_ifs
    · dsimp only
      omega
    · split
      · dsimp only
        omega
      · next c hc =>
        obtain ⟨node, hnode, hconn⟩ := bind_eq_some_iff.mp (hclass ▸ hc)
        have hsize := treeSize_get h.inv.start.closed hnode
        rw [← sum_operands_le hconn] at hsize
        have hops := @workWeight_expandOperands A.terms e c.operands
        simp only [workWeight, map_append, map_cons, sum_append, sum_cons, stepWeight] at hops ⊢
        omega

theorem Stacked.run {fuel : ℕ} (h : Stacked A root e work) (hfuel : workWeight A.terms work ≤ fuel) :
    Stacked A root (run fuel work e) [] := by
  induction fuel generalizing e work with
  | zero =>
    cases work with
    | nil => exact h
    | cons s work =>
      have := h.runStep_weight
      omega
  | succ fuel ih =>
    cases work with
    | nil => exact h
    | cons s work =>
      have hweight := h.runStep_weight
      have hrest : workWeight A.terms (e.runStep work s).1 ≤ fuel := by omega
      exact ih h.runStep hrest

theorem stacked_start (hA : A.WF) (hroot : root < A.terms.length) :
    Stacked A root ⟨A, fun _ => none, [], 0⟩ [.expand root] where
  inv := inv_start hA
  lt := by simpa [TseitinStep.id] using hroot
  order := pairwise_singleton _ _
  combine := by simp
  supported := ⟨nofun, trivial⟩
  rooted := .inr ⟨.expand root, by simp, rfl⟩
  within := by
    rintro j (hj | ⟨s, hs, rfl⟩)
    · cases hj
    · rw [mem_singleton.mp hs]
      exact List.Subset.refl _

end

end Nixie.Tseitin
