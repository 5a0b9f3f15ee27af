import Nixie.Propositional

/-!
Clauses that were taken out of a formula, each with the literal that may be made true to satisfy
it again.  Replaying them from the last to the first turns a model of what is left into a model of
the whole.
-/

namespace Nixie.Witness

open Nixie.Literal List Function

def holds (σ : ℕ → Bool) (c : List ℕ) : Bool := c.any fun l => σ (l / 2) == (l % 2 == 0)

def repair (σ : ℕ → Bool) (l : ℕ) : ℕ → Bool := update σ (l / 2) (l % 2 == 0)

structure Entry where
  witness : ℕ
  clause : List ℕ
  deriving DecidableEq

def replayEntry (e : Entry) (σ : ℕ → Bool) : ℕ → Bool :=
  if holds σ e.clause then σ else repair σ e.witness

def replay (stack : List Entry) (σ : ℕ → Bool) : ℕ → Bool := stack.foldr replayEntry σ

variable {σ τ : ℕ → Bool} {c d : List ℕ} {l m p : ℕ} {stack : List Entry}

theorem holds_iff : holds σ c = true ↔ ∃ l ∈ c, Assigns σ l := by
  simp [holds, Assigns]

theorem assigns_neg (σ : ℕ → Bool) (l : ℕ) : Assigns σ (neg l) ↔ ¬ Assigns σ l := valuations_neg _ ⟨σ, rfl⟩ l

theorem holds_mono (h : holds σ c = true) (hs : ∀ l ∈ c, l ∈ d) : holds σ d = true := by
  obtain ⟨l, hl, hσ⟩ := holds_iff.mp h
  exact holds_iff.mpr ⟨l, hs l hl, hσ⟩

theorem assigns_repair (σ : ℕ → Bool) (l : ℕ) : Assigns (repair σ l) l := by
  simp [Assigns, repair]

theorem assigns_repair_of_ne (h : m / 2 ≠ l / 2) : Assigns (repair σ l) m ↔ Assigns σ m := by
  simp [Assigns, repair, update_of_ne h]

theorem holds_repair (h : l ∈ c) : holds (repair σ l) c = true := holds_iff.mpr ⟨l, h, assigns_repair σ l⟩

theorem holds_congr (h : ∀ l ∈ c, σ (l / 2) = τ (l / 2)) : holds σ c = holds τ c := by
  unfold holds
  induction c with
  | nil => rfl
  | cons l c ih =>
    rw [any_cons, any_cons, h l (by simp), ih fun m hm => h m (by simp [hm])]

@[simp]
theorem replay_nil (σ : ℕ → Bool) : replay [] σ = σ := rfl

theorem replay_append (xs ys : List Entry) (σ : ℕ → Bool) : replay (xs ++ ys) σ = replay xs (replay ys σ) :=
  foldr_append

theorem replay_of_ne {v : ℕ} (h : ∀ e ∈ stack, e.witness / 2 ≠ v) : replay stack σ v = σ v := by
  induction stack with
  | nil => rfl
  | cons e stack ih =>
    have hrest := ih fun d hd => h d (by simp [hd])
    change replayEntry e (replay stack σ) v = σ v
    unfold replayEntry
    split
    · exact hrest
    · rw [repair, update_of_ne (h e (by simp)).symm, hrest]

theorem replay_side {cs : List (List ℕ)} (h : ∀ c ∈ cs, p ∈ c) :
    replay (cs.map (Entry.mk p)) σ = if ∀ c ∈ cs, holds σ c = true then σ else repair σ p := by
  induction cs with
  | nil => simp
  | cons c cs ih =>
    have hrest := ih fun d hd => h d (by simp [hd])
    change replayEntry ⟨p, c⟩ (replay (cs.map (Entry.mk p)) σ) = _
    rw [hrest]
    unfold replayEntry
    by_cases hcs : ∀ d ∈ cs, holds σ d = true
    · rw [if_pos hcs]
      by_cases hc : holds σ c = true
      · have hall : ∀ d ∈ c :: cs, holds σ d = true := by
          rintro d (_ | ⟨_, hd⟩)
          · exact hc
          · exact hcs d hd
        rw [if_pos hc, if_pos hall]
      · rw [if_neg hc, if_neg fun hall => hc (hall c (by simp))]
    · have hall : ¬ ∀ d ∈ c :: cs, holds σ d = true := fun h' => hcs fun d hd => h' d (by simp [hd])
      rw [if_neg hcs, if_neg hall, if_pos (holds_repair (h c (by simp)))]

def without (l : ℕ) (c : List ℕ) : List ℕ := c.filter (· ≠ l)

theorem mem_without : m ∈ without l c ↔ m ∈ c ∧ m ≠ l := by
  simp [without]

theorem holds_of_without (h : holds σ (without l c) = true) : holds σ c = true :=
  holds_mono h fun _ hm => (mem_without.mp hm).1

theorem holds_without_repair (hm : m / 2 = l / 2) (hl : neg l ∉ c) :
    holds (repair σ m) (without l c) = holds σ (without l c) := by
  refine holds_congr fun k hk => ?_
  obtain ⟨hkc, hne⟩ := mem_without.mp hk
  have hvar : k / 2 ≠ m / 2 := by
    intro heq
    rcases eq_or_eq_neg (heq.trans hm) with rfl | rfl
    · exact hne rfl
    · exact hl hkc
  rw [repair, update_of_ne hvar]

theorem replay_pivot {ps ns : List (List ℕ)} (hp : ∀ c ∈ ps, p ∈ c ∧ neg p ∉ c) (hn : ∀ d ∈ ns, neg p ∈ d ∧ p ∉ d)
    (h : ∀ c ∈ ps, ∀ d ∈ ns, holds σ (without p c) = true ∨ holds σ (without (neg p) d) = true) :
    (∀ c ∈ ps ++ ns, holds (replay (ps.map (Entry.mk p) ++ ns.map (Entry.mk (neg p))) σ) c = true) ∧
    ∀ v ≠ p / 2, replay (ps.map (Entry.mk p) ++ ns.map (Entry.mk (neg p))) σ v = σ v := by
  constructor
  · rw [replay_append, replay_side fun d hd => (hn d hd).1, replay_side fun c hc => (hp c hc).1]
    set τ := if ∀ d ∈ ns, holds σ d = true then σ else repair σ (neg p) with hτ
    have hns : ∀ d ∈ ns, holds τ d = true := by
      intro d hd
      rw [hτ]
      split
      · next hall => exact hall d hd
      · exact holds_repair (hn d hd).1
    split
    · next hall =>
      intro c hc
      rcases mem_append.mp hc with hc | hc
      · exact hall c hc
      · exact hns c hc
    · next hall =>
      push Not at hall
      obtain ⟨c, hc, hfail⟩ := hall
      -- the pivot is what this clause needs, so the other side does not
      have hpart : ¬ holds σ (without p c) = true := by
        intro htrue
        refine hfail (holds_of_without (l := p) ?_)
        rw [hτ]
        split
        · exact htrue
        · rw [holds_without_repair (neg_div_two p) (hp c hc).2]
          exact htrue
      intro d hd
      rcases mem_append.mp hd with hd | hd
      · exact holds_repair (hp d hd).1
      · have hother := (h c hc d hd).resolve_left hpart
        have hfree : neg (neg p) ∉ d := by
          rw [neg_neg]
          exact (hn d hd).2
        refine holds_of_without (l := neg p) ?_
        rw [holds_without_repair (neg_div_two p).symm hfree, hτ]
        split
        · exact hother
        · rw [holds_without_repair rfl hfree]
          exact hother
  · intro v hv
    refine replay_of_ne fun e he => ?_
    rcases mem_append.mp he with he | he
    · obtain ⟨c, -, rfl⟩ := mem_map.mp he
      exact hv.symm
    · obtain ⟨d, -, rfl⟩ := mem_map.mp he
      simpa using hv.symm

end Nixie.Witness
