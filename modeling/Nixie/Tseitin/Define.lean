import Nixie.Tseitin.Builder

/-!
The clauses of a definition say that its variable has the value of the connective.
-/

namespace Nixie.Tseitin

open List Connective Encoder

variable {e e' e'' : Encoder} {a r : ℕ} {lits : List ℕ} {σ : Tree → Bool}

section

def Encoder.Holds (e : Encoder) (σ : Tree → Bool) : Prop := ∀ c ∈ e.clauses, val σ e.arena.terms c = true

structure Encoder.Good (e : Encoder) : Prop where
  wf : e.arena.WF
  clauses : ∀ c ∈ e.clauses, IsClause e.arena.terms c

structure Emits (e e' : Encoder) (P : (Tree → Bool) → Prop) : Prop where
  good : e'.Good
  quiet : Quiet e.arena e'.arena
  reps : e'.reps = e.reps
  counter : e'.counter = e.counter
  holds : ∀ σ, e'.Holds σ ↔ e.Holds σ ∧ P σ

variable {P Q : (Tree → Bool) → Prop}

theorem Emits.trans (h : Emits e e' P) (h' : Emits e' e'' Q) : Emits e e'' fun σ => P σ ∧ Q σ :=
  ⟨h'.good, h.quiet.trans h'.quiet, h'.reps.trans h.reps, h'.counter.trans h.counter,
    fun σ => by rw [h'.holds, h.holds, and_assoc]⟩

theorem Emits.congr (h : Emits e e' P) (hPQ : ∀ σ, P σ ↔ Q σ) : Emits e e' Q :=
  ⟨h.good, h.quiet, h.reps, h.counter, fun σ => by rw [h.holds, hPQ]⟩

theorem Emits.refl (h : e.Good) : Emits e e fun _ => True :=
  ⟨h, .refl h.wf, rfl, rfl, fun _ => (and_iff_left trivial).symm⟩

abbrev Truth : Type := (Tree → Bool) → Bool

structure Lit (e : Encoder) (a : ℕ) (v : Truth) : Prop where
  isLiteral : IsLiteral e.arena.terms a
  value : ∀ σ, val σ e.arena.terms a = v σ

variable {v w n l : Truth} {vs : List Truth}

theorem Lit.keep (h : Lit e a v) (hg : e.Good) (he : Emits e e' P) : Lit e' a v :=
  ⟨h.isLiteral.below hg.wf he.quiet.below,
    fun σ => by rw [he.quiet.below.val_eq h.isLiteral.lt, h.value]⟩

theorem mkNot_spec (hm : e.mkNot a = (r, e')) (hg : e.Good) (ha : Lit e a v) :
    Emits e e' (fun _ => True) ∧ Lit e' r fun σ => !v σ := by
  obtain ⟨rfl, rfl⟩ := Prod.mk.inj hm
  have hquiet := quiet_mkNot hg.wf ha.isLiteral.lt
  have hclauses : ∀ c ∈ e.clauses, IsClause (e.arena.mkNot a).2.terms c :=
    fun c hc => (hg.clauses c hc).below hg.wf hquiet.below
  refine ⟨⟨⟨hquiet.wf, hclauses⟩, hquiet, rfl, rfl, fun σ => ?_⟩, isLiteral_mkNot hg.wf ha.isLiteral, fun σ => ?_⟩
  · rw [and_iff_left trivial]
    exact forall₂_congr fun c hc =>
      iff_of_eq (congrArg (· = true) (hquiet.below.val_eq (hg.clauses c hc).lt))
  · rw [← ha.value]
    exact val_mkNot hg.wf ha.isLiteral.lt

theorem any_lits (h : List.Forall₂ (Lit e) lits vs) (σ : Tree → Bool) :
    lits.any (val σ e.arena.terms) = vs.any fun v => v σ := by
  induction h with
  | nil => rfl
  | cons h _ ih => rw [any_cons, any_cons, h.value, ih]

theorem isLiteral_of_mem (h : List.Forall₂ (Lit e) lits vs) : ∀ a ∈ lits, IsLiteral e.arena.terms a := by
  induction h with
  | nil => nofun
  | cons h _ ih => exact forall_mem_cons.mpr ⟨h.isLiteral, ih⟩

theorem addClause_spec (hg : e.Good) (h : List.Forall₂ (Lit e) lits vs) :
    Emits e (e.addClause lits) fun σ => (vs.any fun v => v σ) = true := by
  have hlits := isLiteral_of_mem h
  have hlt : ∀ a ∈ lits, a < e.arena.terms.length := fun a ha => (hlits a ha).lt
  have hquiet : Quiet e.arena (e.arena.mkOr lits).2 := quiet_mkConnective hg.wf hlt false
  have hclause := isClause_mkOr hg.wf hlits
  have hvalue : ∀ σ, val σ (e.arena.mkOr lits).2.terms (e.arena.mkOr lits).1 = vs.any fun v => v σ :=
    fun σ => by rw [val_mkOr hg.wf hlt, any_lits h]
  have hold : ∀ c ∈ e.clauses, IsClause (e.arena.mkOr lits).2.terms c :=
    fun c hc => (hg.clauses c hc).below hg.wf hquiet.below
  have hholds : ∀ σ, (∀ c ∈ e.clauses, val σ (e.arena.mkOr lits).2.terms c = true) ↔ e.Holds σ :=
    fun σ => forall₂_congr fun c hc => by rw [hquiet.below.val_eq (hg.clauses c hc).lt]
  unfold addClause
  dsimp only
  split_ifs with htrue
  · refine ⟨⟨hquiet.wf, fun c hc => ?_⟩, hquiet, rfl, rfl, fun σ => ?_⟩
    · rcases mem_append.mp hc with hc | hc
      · exact hold c hc
      · rwa [mem_singleton.mp hc]
    · rw [← hholds, ← hvalue]
      simp only [Encoder.Holds, forall_mem_append, forall_mem_singleton]
  · refine ⟨⟨hquiet.wf, hold⟩, hquiet, rfl, rfl, fun σ => ?_⟩
    rw [← hholds, ← hvalue, not_not.mp htrue, val_trueId hquiet.wf]
    exact (and_iff_left rfl).symm

theorem addClauses_spec {css : List (List ℕ)} {vss : List (List Truth)} (hg : e.Good)
    (h : List.Forall₂ (List.Forall₂ (Lit e)) css vss) : Emits e (css.foldl addClause e) fun σ => ∀ vs ∈ vss,
    (vs.any fun v => v σ) = true := by
  induction css generalizing e vss with
  | nil =>
    cases h
    exact (Emits.refl hg).congr (by simp)
  | cons cs css ih =>
    obtain ⟨vs, vss, hcs, hrest, rfl⟩ := forall₂_cons_left_iff.mp h
    have hfirst := addClause_spec hg hcs
    have hkeep : List.Forall₂ (List.Forall₂ (Lit (e.addClause cs))) css vss :=
      hrest.imp fun _ _ hx => hx.imp fun _ _ hy => hy.keep hg hfirst
    refine (hfirst.trans (ih hfirst.good hkeep)).congr fun σ => ?_
    rw [forall_mem_cons]

theorem addPairs_spec (hg : e.Good) (ha : Lit e a v) (h : List.Forall₂ (Lit e) lits vs) :
    Emits e (e.addPairs a lits) fun σ => ∀ w ∈ vs, (v σ || w σ) = true := by
  have hpairs : List.Forall₂ (List.Forall₂ (Lit e)) (lits.map fun b => [a, b]) (vs.map fun w => [v, w]) := by
    rw [forall₂_map_left_iff, forall₂_map_right_iff]
    exact h.imp fun _ _ hb => .cons ha (.cons hb .nil)
  have hall := addClauses_spec hg hpairs
  rw [foldl_map] at hall
  exact hall.congr fun σ => by simp

theorem addNegatedPairs_spec (hg : e.Good) (ha : Lit e a v) (h : List.Forall₂ (Lit e) lits vs) :
    Emits e (e.addNegatedPairs a lits) fun σ => ∀ w ∈ vs, (v σ || !w σ) = true := by
  induction lits generalizing e vs with
  | nil =>
    cases h
    exact (Emits.refl hg).congr (by simp)
  | cons b lits ih =>
    obtain ⟨w, vs, hb, hrest, rfl⟩ := forall₂_cons_left_iff.mp h
    rw [addNegatedPairs, foldl_cons]
    rcases hm : e.mkNot b with ⟨notB, e₁⟩
    obtain ⟨h₁, hnot⟩ := mkNot_spec hm hg hb
    have h₂ := addClause_spec h₁.good (.cons (ha.keep hg h₁) (.cons hnot .nil))
    have hboth := h₁.trans h₂
    have hkeep : List.Forall₂ (Lit (e₁.addClause [a, notB])) lits vs := hrest.imp fun _ _ hx => hx.keep hg hboth
    refine (hboth.trans (ih h₂.good (ha.keep hg hboth) hkeep)).congr fun σ => ?_
    simp

theorem mkNots_spec (hg : e.Good) (h : List.Forall₂ (Lit e) lits vs) : Emits e (e.mkNots lits).2 (fun _ => True) ∧
    List.Forall₂ (Lit (e.mkNots lits).2) (e.mkNots lits).1 (vs.map fun v σ => !v σ) := by
  induction lits generalizing e vs with
  | nil =>
    cases h
    exact ⟨.refl hg, .nil⟩
  | cons b lits ih =>
    obtain ⟨w, vs, hb, hrest, rfl⟩ := forall₂_cons_left_iff.mp h
    rw [mkNots]
    rcases hm : e.mkNot b with ⟨notB, e₁⟩
    obtain ⟨h₁, hnot⟩ := mkNot_spec hm hg hb
    obtain ⟨h₂, hnots⟩ := ih h₁.good (hrest.imp fun _ _ hx => hx.keep hg h₁)
    dsimp only
    exact ⟨(h₁.trans h₂).congr (by simp), .cons (hnot.keep h₁.good h₂) hnots⟩

end

section

variable {name : ℕ} {n : Truth} {value : ℕ → Truth} {args : List ℕ}

theorem lits_map (h : ∀ a ∈ args, Lit e (e.repOf a) (value a)) :
    List.Forall₂ (Lit e) (args.map e.repOf) (args.map value) := by
  rw [forall₂_map_left_iff, forall₂_map_right_iff, forall₂_same]
  exact h

variable (hg : e.Good) (hn : Lit e name n)

include hg hn

theorem define_and (h : ∀ a ∈ args, Lit e (e.repOf a) (value a)) :
    Emits e (e.define name (.and args)) fun σ => n σ = args.all fun a => value a σ := by
  rw [define]
  have hlits := lits_map h
  rcases hm : e.mkNot name with ⟨notName, e₁⟩
  obtain ⟨h₁, hnot⟩ := mkNot_spec hm hg hn
  have h₂ := addPairs_spec h₁.good hnot (hlits.imp fun _ _ hx => hx.keep hg h₁)
  have h₁₂ := h₁.trans h₂
  obtain ⟨h₃, hnots⟩ := mkNots_spec h₂.good (hlits.imp fun _ _ hx => hx.keep hg h₁₂)
  have h₁₃ := h₁₂.trans h₃
  have h₄ := addClause_spec h₃.good (.cons (hn.keep hg h₁₃) hnots)
  refine (h₁₃.trans h₄).congr fun σ => ?_
  simp only [forall_mem_map, any_cons, any_map, true_and, and_true]
  cases n σ with
  | false => simp
  | true => simp

theorem define_or (h : ∀ a ∈ args, Lit e (e.repOf a) (value a)) :
    Emits e (e.define name (.or args)) fun σ => n σ = args.any fun a => value a σ := by
  rw [define]
  have hlits := lits_map h
  have h₁ := addNegatedPairs_spec hg hn hlits
  dsimp only
  rcases hm : (e.addNegatedPairs name (args.map e.repOf)).mkNot name with ⟨notName, e₂⟩
  obtain ⟨h₂, hnot⟩ := mkNot_spec hm h₁.good (hn.keep hg h₁)
  have h₁₂ := h₁.trans h₂
  have h₃ := addClause_spec h₂.good (.cons hnot (hlits.imp fun _ _ hx => hx.keep hg h₁₂))
  refine (h₁₂.trans h₃).congr fun σ => ?_
  simp only [forall_mem_map, any_cons, any_map, and_true]
  cases n σ with
  | false => simp
  | true => simp

variable {lhs rhs cond thenBranch elseBranch : ℕ}

section

variable (hl : Lit e (e.repOf lhs) (value lhs)) (hr : Lit e (e.repOf rhs) (value rhs))
include hl hr

theorem mkNot_pair : ∃ notName notLhs notRhs e₁ e₂ e₃, e.mkNot name = (notName, e₁) ∧
    e₁.mkNot (e.repOf lhs) = (notLhs, e₂) ∧ e₂.mkNot (e.repOf rhs) = (notRhs, e₃) ∧ Emits e e₃ (fun _ => True) ∧
    (Lit e₃ name n ∧ Lit e₃ notName fun σ => !n σ) ∧
    (Lit e₃ (e.repOf lhs) (value lhs) ∧ Lit e₃ notLhs fun σ => !value lhs σ) ∧
    Lit e₃ (e.repOf rhs) (value rhs) ∧ Lit e₃ notRhs fun σ => !value rhs σ := by
  rcases hm₁ : e.mkNot name with ⟨notName, e₁⟩
  rcases hm₂ : e₁.mkNot (e.repOf lhs) with ⟨notLhs, e₂⟩
  rcases hm₃ : e₂.mkNot (e.repOf rhs) with ⟨notRhs, e₃⟩
  obtain ⟨h₁, hn₁⟩ := mkNot_spec hm₁ hg hn
  obtain ⟨h₂, hl₂⟩ := mkNot_spec hm₂ h₁.good (hl.keep hg h₁)
  have h₁₂ := h₁.trans h₂
  obtain ⟨h₃, hr₃⟩ := mkNot_spec hm₃ h₂.good (hr.keep hg h₁₂)
  have hall : Emits e e₃ (fun _ => True) := (h₁₂.trans h₃).congr fun σ => by simp
  refine ⟨_, _, _, e₁, e₂, e₃, rfl, hm₂, hm₃, hall, ⟨hn.keep hg hall, hn₁.keep h₁.good (h₂.trans h₃)⟩, ?_⟩
  exact ⟨⟨hl.keep hg hall, hl₂.keep h₂.good h₃⟩, hr.keep hg hall, hr₃⟩

theorem define_implies : Emits e (e.define name (.implies lhs rhs)) fun σ => n σ =
    (!value lhs σ || value rhs σ) := by
  obtain ⟨_, _, _, _, _, _, hm₁, hm₂, hm₃, h₃, ⟨hn₃, hnn⟩, ⟨hl₃, hnl⟩, hr₃, hnr⟩ := mkNot_pair hg hn hl hr
  simp only [define, hm₁, hm₂, hm₃]
  have hall := addClauses_spec h₃.good (.cons (.cons hnn (.cons hnl (.cons hr₃ .nil)))
    (.cons (.cons hn₃ (.cons hl₃ .nil)) (.cons (.cons hn₃ (.cons hnr .nil)) .nil)))
  refine (h₃.trans hall).congr fun σ => ?_
  simp only [forall_mem_cons, any_cons, any_nil, true_and]
  cases n σ <;> cases value lhs σ <;> cases value rhs σ <;> simp

theorem define_xor : Emits e (e.define name (.xor lhs rhs)) fun σ => n σ = (value lhs σ != value rhs σ) := by
  obtain ⟨_, _, _, _, _, _, hm₁, hm₂, hm₃, h₃, ⟨hn₃, hnn⟩, ⟨hl₃, hnl⟩, hr₃, hnr⟩ := mkNot_pair hg hn hl hr
  simp only [define, hm₁, hm₂, hm₃]
  have hall := addClauses_spec h₃.good (.cons (.cons hnn (.cons hl₃ (.cons hr₃ .nil)))
    (.cons (.cons hnn (.cons hnl (.cons hnr .nil)))
    (.cons (.cons hn₃ (.cons hnl (.cons hr₃ .nil)))
    (.cons (.cons hn₃ (.cons hl₃ (.cons hnr .nil))) .nil))))
  refine (h₃.trans hall).congr fun σ => ?_
  simp only [forall_mem_cons, any_cons, any_nil, true_and]
  cases n σ <;> cases value lhs σ <;> cases value rhs σ <;> simp

theorem define_iff : Emits e (e.define name (.iff lhs rhs)) fun σ => n σ = (value lhs σ == value rhs σ) := by
  obtain ⟨_, _, _, _, _, _, hm₁, hm₂, hm₃, h₃, ⟨hn₃, hnn⟩, ⟨hl₃, hnl⟩, hr₃, hnr⟩ := mkNot_pair hg hn hl hr
  simp only [define, hm₁, hm₂, hm₃]
  have hall := addClauses_spec h₃.good (.cons (.cons hnn (.cons hnl (.cons hr₃ .nil)))
    (.cons (.cons hnn (.cons hl₃ (.cons hnr .nil)))
    (.cons (.cons hn₃ (.cons hl₃ (.cons hr₃ .nil)))
    (.cons (.cons hn₃ (.cons hnl (.cons hnr .nil))) .nil))))
  refine (h₃.trans hall).congr fun σ => ?_
  simp only [forall_mem_cons, any_cons, any_nil, true_and]
  cases n σ <;> cases value lhs σ <;> cases value rhs σ <;> simp

end

theorem define_ite (hc : Lit e (e.repOf cond) (value cond))
    (ht : Lit e (e.repOf thenBranch) (value thenBranch))
    (he : Lit e (e.repOf elseBranch) (value elseBranch)) :
    Emits e (e.define name (.ite cond thenBranch elseBranch)) fun σ =>
      n σ = if value cond σ then value thenBranch σ else value elseBranch σ := by
  obtain ⟨_, _, _, _, _, e₃, hm₁, hm₂, hm₃, h₃, ⟨-, hnn⟩, ⟨-, hnc⟩, -, hnt⟩ := mkNot_pair hg hn hc ht
  rcases hm₄ : e₃.mkNot (e.repOf elseBranch) with ⟨notElse, e₄⟩
  simp only [define, hm₁, hm₂, hm₃, hm₄]
  obtain ⟨h₄, hne⟩ := mkNot_spec hm₄ h₃.good (he.keep hg h₃)
  have h₁₄ := h₃.trans h₄
  have hn₄ := hn.keep hg h₁₄
  have hnn₄ := hnn.keep h₃.good h₄
  have hc₄ := hc.keep hg h₁₄
  have hnc₄ := hnc.keep h₃.good h₄
  have ht₄ := ht.keep hg h₁₄
  have hnt₄ := hnt.keep h₃.good h₄
  have he₄ := he.keep hg h₁₄
  have hall := addClauses_spec h₄.good (.cons (.cons hnn₄ (.cons hnc₄ (.cons ht₄ .nil)))
    (.cons (.cons hnn₄ (.cons hc₄ (.cons he₄ .nil)))
    (.cons (.cons hn₄ (.cons hnc₄ (.cons hnt₄ .nil)))
    (.cons (.cons hn₄ (.cons hc₄ (.cons hne .nil))) .nil))))
  refine (h₁₄.trans hall).congr fun σ => ?_
  simp only [forall_mem_cons, any_cons, any_nil, true_and]
  cases n σ <;> cases value cond σ <;> cases value thenBranch σ <;> cases value elseBranch σ <;> simp

theorem define_spec {c : Connective} (hc : c.isNot = false) (h : ∀ a ∈ c.operands, Lit e (e.repOf a) (value a)) :
    Emits e (e.define name c) fun σ => n σ = c.eval fun a => value a σ := by
  cases c with
  | not arg => cases hc
  | and args => exact define_and hg hn h
  | or args => exact define_or hg hn h
  | implies lhs rhs =>
    exact define_implies hg hn (h lhs (by simp [operands])) (h rhs (by simp [operands]))
  | xor lhs rhs =>
    exact define_xor hg hn (h lhs (by simp [operands])) (h rhs (by simp [operands]))
  | iff lhs rhs =>
    exact define_iff hg hn (h lhs (by simp [operands])) (h rhs (by simp [operands]))
  | ite cond thenBranch elseBranch =>
    exact define_ite hg hn (h cond (by simp [operands]))
      (h thenBranch (by simp [operands])) (h elseBranch (by simp [operands]))

end

end Nixie.Tseitin
