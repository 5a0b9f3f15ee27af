import Nixie.Kitten.Invariant

/-!
Values, levels and reasons, and the trail they come from.
-/

namespace Nixie.Kitten

open Nixie.Propositional Nixie.Literal List Function

variable {db db' : ℕ → Option Klause} {F : Set (Set ℕ)} {n : ℕ} {values : ℕ → ℤ} {vars : ℕ → Kar}
  {trail : List ℕ} {level lit l m reason : ℕ}

def assignValues (values : ℕ → ℤ) (lit : ℕ) : ℕ → ℤ :=
  update (update values lit 1) (neg lit) (-1)

def unassignValues (values : ℕ → ℤ) (lit : ℕ) : ℕ → ℤ :=
  update (update values lit 0) (neg lit) 0

theorem assignValues_eq (values : ℕ → ℤ) (lit l : ℕ) :
    assignValues values lit l = if l = lit then 1 else if l = neg lit then -1 else values l := by
  have := neg_ne lit
  unfold assignValues
  grind [update_apply]

theorem unassignValues_eq (values : ℕ → ℤ) (lit l : ℕ) :
    unassignValues values lit l = if l / 2 = lit / 2 then 0 else values l := by
  unfold unassignValues
  by_cases h : l / 2 = lit / 2
  · rcases eq_or_eq_neg h with rfl | rfl <;> simp [update_apply]
  · have h1 : l ≠ lit := by rintro rfl; exact h rfl
    have h2 : l ≠ neg lit := by rintro rfl; exact h (neg_div_two lit)
    simp [h, h1, h2]

structure Valued (values : ℕ → ℤ) (n : ℕ) : Prop where
  neg : ∀ l, values (neg l) = - values l
  range : ∀ l, values l = -1 ∨ values l = 0 ∨ values l = 1
  lt : ∀ l, values l ≠ 0 → l / 2 < n

section

variable (h : Valued values n)
include h

theorem Valued.neg_true : values (Literal.neg l) = 1 ↔ values l = -1 := by
  rw [h.neg]
  omega

theorem Valued.eq_of_div (hl : l / 2 = m / 2) : values l = 0 ↔ values m = 0 := by
  rcases eq_or_eq_neg hl with rfl | rfl
  · rfl
  · rw [h.neg]
    omega

theorem Valued.div_ne (h0 : values lit = 0) (hl : values l ≠ 0) : l / 2 ≠ lit / 2 :=
  fun heq => hl ((h.eq_of_div heq).mpr h0)

theorem Valued.assign (hlt : lit / 2 < n) : Valued (assignValues values lit) n := by
  refine ⟨fun l => ?_, fun l => ?_, fun l hl => ?_⟩
  · have h1 : Literal.neg l = lit ↔ l = Literal.neg lit := by
      rw [← neg_inj, neg_neg]
    simp only [assignValues_eq, h1, neg_inj]
    rcases eq_or_ne l lit with rfl | hl
    · simp [(neg_ne l).symm]
    · rcases eq_or_ne l (Literal.neg lit) with rfl | hl'
      · simp [neg_ne]
      · simp [hl, hl', h.neg]
  · have := h.range l
    rw [assignValues_eq]
    split_ifs <;> simp_all
  · rw [assignValues_eq] at hl
    split_ifs at hl with h1 h2
    · exact h1 ▸ hlt
    · rw [h2, neg_div_two]
      exact hlt
    · exact h.lt l hl

theorem Valued.unassign (lit : ℕ) : Valued (unassignValues values lit) n := by
  refine ⟨fun l => ?_, fun l => ?_, fun l hl => ?_⟩
  · simp only [unassignValues_eq, neg_div_two, h.neg]
    split_ifs <;> simp
  · rw [unassignValues_eq]
    split_ifs
    · simp
    · exact h.range l
  · rw [unassignValues_eq] at hl
    split_ifs at hl
    · simp at hl
    · exact h.lt l hl

end

def freeCount (values : ℕ → ℤ) (n : ℕ) : ℕ :=
  ((Finset.range n).filter fun i => values (2 * i) = 0).card

variable {values' : ℕ → ℤ}

theorem freeCount_eq_succ (hlt : lit / 2 < n) (h0 : values (2 * (lit / 2)) = 0)
    (h1 : values' (2 * (lit / 2)) ≠ 0) (hne : ∀ i, i ≠ lit / 2 → (values (2 * i) = 0 ↔ values' (2 * i) = 0)) :
    freeCount values n = freeCount values' n + 1 := by
  have hset : (Finset.range n).filter (fun i => values (2 * i) = 0) =
      insert (lit / 2) ((Finset.range n).filter fun i => values' (2 * i) = 0) := by
    ext i
    by_cases hi : i = lit / 2
    · subst hi
      simp [hlt, h0]
    · simp [hi, hne i hi]
  rw [freeCount, hset, Finset.card_insert_of_notMem (by simp [h1]), freeCount]

theorem freeCount_assign (h : Valued values n) (hlt : lit / 2 < n) (h0 : values lit = 0) :
    freeCount values n = freeCount (assignValues values lit) n + 1 := by
  have hd : 2 * (lit / 2) / 2 = lit / 2 := by omega
  have ha := h.assign hlt
  refine freeCount_eq_succ hlt ((h.eq_of_div hd).mpr h0) ?_ fun i hi => ?_
  · rw [ne_eq, ha.eq_of_div hd, assignValues_eq]
    simp
  · have h1 : 2 * i ≠ lit := by omega
    have h2 : 2 * i ≠ neg lit := by
      intro heq
      have := neg_div_two lit
      omega
    simp [assignValues_eq, h1, h2]

theorem freeCount_unassign (h : Valued values n) (h0 : values lit ≠ 0) :
    freeCount (unassignValues values lit) n = freeCount values n + 1 := by
  have hd : 2 * (lit / 2) / 2 = lit / 2 := by omega
  refine freeCount_eq_succ (h.lt lit h0) (by simp [unassignValues_eq, hd]) ?_ fun i hi => ?_
  · rwa [ne_eq, h.eq_of_div hd]
  · simp [unassignValues_eq, hi]

theorem freeCount_eq_zero (h : Valued values n) (h0 : freeCount values n = 0) (hl : l / 2 < n) : values l ≠ 0 := by
  intro hv
  have hmem : l / 2 ∈ (Finset.range n).filter fun i => values (2 * i) = 0 := by
    rw [Finset.mem_filter, h.eq_of_div (l := 2 * (l / 2)) (m := l) (by omega)]
    exact ⟨Finset.mem_range.mpr hl, hv⟩
  rw [freeCount, Finset.card_eq_zero] at h0
  simp [h0] at hmem

def lev (vars : ℕ → Kar) (l : ℕ) : ℕ := (vars (l / 2)).level

def why (vars : ℕ → Kar) (l : ℕ) : ℕ := (vars (l / 2)).reason

@[simp]
theorem lev_neg (vars : ℕ → Kar) (l : ℕ) : lev vars (neg l) = lev vars l := by
  simp [lev]

/-- All literals of the klause but `l` are false, by root facts or by literals in `t`. -/
def Forces (values : ℕ → ℤ) (vars : ℕ → Kar) (t : List ℕ) (l : ℕ) (c : Klause) : Prop :=
  l ∈ c.lits ∧ ∀ m ∈ c.lits, m ≠ l → values m = -1 ∧ (lev vars m = 0 ∨ neg m ∈ t)

def Justified (values : ℕ → ℤ) (vars : ℕ → Kar) (db : ℕ → Option Klause) (t : List ℕ) (l : ℕ) :
    Prop :=
  (why vars l = INVALID ∧ 0 < lev vars l ∧ ∀ m ∈ t, lev vars m ≠ lev vars l) ∨
    ∃ c, db (why vars l) = some c ∧ Forces values vars t l c

structure Trailed (values : ℕ → ℤ) (vars : ℕ → Kar) (trail : List ℕ) (level : ℕ)
    (db : ℕ → Option Klause) (F : Set (Set ℕ)) : Prop where
  nodup : trail.Nodup
  true_of_mem : ∀ l ∈ trail, values l = 1
  root : ∀ l, values l = 1 → l ∉ trail → lev vars l = 0
  le_level : ∀ l, values l = 1 → lev vars l ≤ level
  sorted : trail.Pairwise fun a b => lev vars a ≤ lev vars b
  justified : ∀ t l t', trail = t ++ l :: t' → Justified values vars db t l
  entailed : ∀ l, values l = 1 → lev vars l = 0 → Entails valuations F {l}

def RootUnits (values : ℕ → ℤ) (vars : ℕ → Kar) (db : ℕ → Option Klause) : Prop :=
  ∀ l, values l = 1 → lev vars l = 0 → ∃ c, db (why vars l) = some c ∧ c.lits = [l]

def UnitsTrue (values : ℕ → ℤ) (vars : ℕ → Kar) (db : ℕ → Option Klause) : Prop :=
  ∀ r c l, db r = some c → c.lits = [l] → values l = 1 ∧ lev vars l = 0

theorem Forces.transport {t : List ℕ} {c c' : Klause} (h : Forces values vars t l c)
    (hp : c'.lits.Perm c.lits) : Forces values vars t l c' :=
  ⟨hp.mem_iff.mpr h.1, fun m hm hne => h.2 m (hp.mem_iff.mp hm) hne⟩

theorem Trailed.transport (h : Trailed values vars trail level db F) (hext : Extends db db') :
    Trailed values vars trail level db' F := by
  refine { h with justified := fun t l t' ht => ?_ }
  rcases h.justified t l t' ht with hd | ⟨c, hc, hf⟩
  · exact .inl hd
  · obtain ⟨c', hc', hp, _⟩ := hext _ c hc
    exact .inr ⟨c', hc', hf.transport hp⟩

theorem RootUnits.transport (h : RootUnits values vars db) (hext : Extends db db') : RootUnits values vars db' := by
  intro l hl hlev
  obtain ⟨c, hc, hcl⟩ := h l hl hlev
  obtain ⟨c', hc', hp, _⟩ := hext _ c hc
  exact ⟨c', hc', perm_singleton.mp (hcl ▸ hp)⟩

def setVar (vars : ℕ → Kar) (lit level reason : ℕ) : ℕ → Kar :=
  update vars (lit / 2) ⟨level, reason⟩

theorem lev_setVar_self : lev (setVar vars lit level reason) lit = level := by
  simp [lev, setVar]

theorem why_setVar_self : why (setVar vars lit level reason) lit = reason := by
  simp [why, setVar]

theorem lev_setVar (h : l / 2 ≠ lit / 2) : lev (setVar vars lit level reason) l = lev vars l := by
  simp [lev, setVar, h]

theorem why_setVar (h : l / 2 ≠ lit / 2) : why (setVar vars lit level reason) l = why vars l := by
  simp [why, setVar, h]

theorem assignValues_of_ne (hv : Valued values n) (h0 : values lit = 0) (hl : values l ≠ 0) :
    assignValues values lit l = values l := by
  have hd := hv.div_ne h0 hl
  have h1 : l ≠ lit := by rintro rfl; exact hd rfl
  have h2 : l ≠ neg lit := by rintro rfl; exact hd (neg_div_two lit)
  simp [assignValues_eq, h1, h2]

theorem assignValues_eq_one (hv : Valued values n) (h0 : values lit = 0) :
    assignValues values lit l = 1 ↔ l = lit ∨ values l = 1 := by
  have h1 : values (neg lit) = 0 := by rw [hv.neg, h0]; rfl
  rw [assignValues_eq]
  split_ifs <;> simp_all

theorem UnitsTrue.assign (h : UnitsTrue values vars db) (hv : Valued values n) (h0 : values lit = 0)
    (hnew : ∀ s d, db' s = some d → db s = some d ∨ d.lits = [lit] ∧ level = 0) :
    UnitsTrue (assignValues values lit) (setVar vars lit level reason) db' := by
  intro s d l hs hl
  rcases hnew s d hs with hs | ⟨hlit, hlev⟩
  · obtain ⟨hvl, hlev⟩ := h s d l hs hl
    rw [assignValues_of_ne hv h0 (by omega), lev_setVar (hv.div_ne h0 (by omega))]
    exact ⟨hvl, hlev⟩
  · obtain rfl : lit = l := by simpa [hlit] using hl
    rw [lev_setVar_self, assignValues_eq, if_pos rfl]
    exact ⟨rfl, hlev⟩

theorem Justified.congr {vars' : ℕ → Kar} {t : List ℕ} (h : Justified values vars db t l)
    (hl : vars' (l / 2) = vars (l / 2)) (ht : ∀ m ∈ t, vars' (m / 2) = vars (m / 2))
    (hm : ∀ m, values m = -1 → lev vars m = 0 ∨ neg m ∈ t → values' m = -1 ∧ vars' (m / 2) = vars (m / 2)) :
    Justified values' vars' db t l := by
  rcases h with ⟨hw, hpos, hne⟩ | ⟨c, hc, hmem, hothers⟩
  · refine .inl ⟨by rwa [why, hl], by rwa [lev, hl], fun m hm => ?_⟩
    rw [lev, lev, hl, ht m hm]
    exact hne m hm
  · refine .inr ⟨c, by rwa [why, hl], hmem, fun m hmc hne => ?_⟩
    obtain ⟨hvm, hloc⟩ := hothers m hmc hne
    obtain ⟨hvm', hvars⟩ := hm m hvm hloc
    exact ⟨hvm', by rwa [lev, hvars]⟩

theorem Trailed.assign (h : Trailed values vars trail level db F) (hv : Valued values n) (h0 : values lit = 0)
    (hent : ∀ r c, db r = some c → Entails valuations F (clauseSet c.lits))
    (hj : (reason = INVALID ∧ 0 < level ∧ ∀ m ∈ trail, lev vars m ≠ level) ∨ ∃ c, db reason = some c ∧ lit ∈ c.lits ∧
    ∀ m ∈ c.lits, m ≠ lit → values m = -1) :
    Trailed (assignValues values lit) (setVar vars lit level reason) (trail ++ [lit]) level db F := by
  have hvar : ∀ m, values m ≠ 0 → setVar vars lit level reason (m / 2) = vars (m / 2) := by
    intro m hm
    simp [setVar, hv.div_ne h0 hm]
  have hold : ∀ m, values m = 1 → lev (setVar vars lit level reason) m = lev vars m :=
    fun m hm => lev_setVar (hv.div_ne h0 (by omega))
  have hfalse : ∀ m, values m = -1 → lev vars m = 0 ∨ neg m ∈ trail := by
    intro m hm
    by_cases hmem : neg m ∈ trail
    · exact .inr hmem
    · exact .inl (by simpa using h.root (neg m) (hv.neg_true.mpr hm) hmem)
  refine ⟨?_, fun l hl => ?_, fun l hl hmem => ?_, fun l hl => ?_, ?_, fun t l t' ht => ?_, fun l hl hlev => ?_⟩
  · refine List.Nodup.append h.nodup (by simp) ?_
    simp only [disjoint_singleton]
    intro hmem
    have := h.true_of_mem lit hmem
    omega
  · rw [assignValues_eq_one hv h0]
    rcases mem_append.mp hl with hl | hl
    · exact .inr (h.true_of_mem l hl)
    · exact .inl (by simpa using hl)
  · simp only [mem_append, mem_singleton, not_or] at hmem
    rcases (assignValues_eq_one hv h0).mp hl with rfl | hl
    · exact absurd rfl hmem.2
    · rw [hold l hl]
      exact h.root l hl hmem.1
  · rcases (assignValues_eq_one hv h0).mp hl with rfl | hl
    · exact lev_setVar_self.le
    · rw [hold l hl]
      exact h.le_level l hl
  · rw [pairwise_append]
    refine ⟨h.sorted.imp_of_mem fun {a b} ha hb hab => ?_, by simp, fun a ha b hb => ?_⟩
    · rwa [hold a (h.true_of_mem a ha), hold b (h.true_of_mem b hb)]
    · obtain rfl : b = lit := by simpa using hb
      rw [lev_setVar_self, hold a (h.true_of_mem a ha)]
      exact h.le_level a (h.true_of_mem a ha)
  · rcases eq_nil_or_concat t' with rfl | ⟨t'', x, rfl⟩
    · -- the new literal
      obtain ⟨rfl, rfl⟩ : trail = t ∧ lit = l := by simpa using ht
      rcases hj with ⟨hi, hpos, hne⟩ | ⟨c, hc, hmem, hothers⟩
      · refine .inl ⟨why_setVar_self.trans hi, by rwa [lev_setVar_self], fun m hm => ?_⟩
        rw [lev_setVar_self, hold m (h.true_of_mem m hm)]
        exact hne m hm
      · refine .inr ⟨c, by rwa [why_setVar_self], hmem, fun m hm hne => ?_⟩
        have hvm := hothers m hm hne
        rw [assignValues_of_ne hv h0 (by omega), lev_setVar (hv.div_ne h0 (by omega))]
        exact ⟨hvm, hfalse m hvm⟩
    · have htr : trail = t ++ l :: t'' := by
        rw [concat_eq_append, ← cons_append, ← append_assoc] at ht
        exact (append_inj' ht rfl).1
      have hl : values l = 1 := h.true_of_mem l (by simp [htr])
      refine (h.justified t l t'' htr).congr (hvar l (by omega)) (fun m hm => hvar m ?_) ?_
      · have := h.true_of_mem m (by simp [htr, hm])
        omega
      · intro m hm _
        exact ⟨(assignValues_of_ne hv h0 (by omega)).trans hm, hvar m (by omega)⟩
  · rcases (assignValues_eq_one hv h0).mp hl with rfl | hl
    · -- a literal assigned at the root follows from its reason
      rw [lev_setVar_self] at hlev
      rcases hj with ⟨_, hpos, _⟩ | ⟨c, hc, hmem, hothers⟩
      · omega
      · refine (hent _ c hc).resolve valuations_neg fun m hm hne => ?_
        have hvm := hv.neg_true.mpr (hothers m hm hne)
        have hle := h.le_level _ hvm
        exact h.entailed _ hvm (by omega)
    · rw [hold l hl] at hlev
      exact h.entailed l hl hlev

theorem Trailed.shrink {keep popped : List ℕ} {jump : ℕ} (h : Trailed values vars trail level db F)
    (hsplit : trail = keep ++ popped) (hkeep : ∀ l ∈ keep, lev vars l ≤ jump)
    (hpop : ∀ l ∈ popped, jump < lev vars l)
    (hval : ∀ l, values' l = if l ∈ popped ∨ neg l ∈ popped then 0 else values l) :
    Trailed values' vars keep jump db F := by
  subst hsplit
  have hone : ∀ l, values' l = 1 → values l = 1 ∧ l ∉ popped := by
    intro l hl
    rw [hval] at hl
    split_ifs at hl with hmem
    · simp at hl
    · exact ⟨hl, fun hm => hmem (.inl hm)⟩
  have hstay : ∀ l, values l = -1 → lev vars l ≤ jump → values' l = -1 := by
    intro l hl hlev
    rw [hval, if_neg, hl]
    rintro (hm | hm)
    · have := h.true_of_mem l (mem_append_right _ hm)
      omega
    · have := hpop _ hm
      simp at this
      omega
  refine ⟨h.nodup.of_append_left, fun l hl => ?_, fun l hl hmem => ?_, fun l hl => ?_,
    (pairwise_append.mp h.sorted).1, fun t l t' ht => ?_, fun l hl hlev => ?_⟩
  · have hvl := h.true_of_mem l (mem_append_left _ hl)
    rw [hval, if_neg, hvl]
    rintro (hm | hm)
    · have := hpop l hm
      have := hkeep l hl
      omega
    · have := hpop _ hm
      have := hkeep l hl
      simp at *
      omega
  · obtain ⟨hl1, hl2⟩ := hone l hl
    exact h.root l hl1 (by simp [hmem, hl2])
  · obtain ⟨hl1, hl2⟩ := hone l hl
    by_cases hmem : l ∈ keep
    · exact hkeep l hmem
    · have := h.root l hl1 (by simp [hmem, hl2])
      omega
  · refine (h.justified t l (t' ++ popped) (by simp [ht])).congr rfl (fun _ _ => rfl) ?_
    intro m hm hloc
    refine ⟨hstay m hm ?_, rfl⟩
    rcases hloc with h0 | hmem
    · omega
    · have := hkeep (neg m) (by simp [ht, hmem])
      simpa using this
  · exact h.entailed l (hone l hl).1 hlev

section

variable {ws : ℕ → List Katch} {pending pending' : List ℕ} {x : ℕ}

def Guarded (values : ℕ → ℤ) (vars : ℕ → Kar) (db : ℕ → Option Klause) (l r : ℕ) : Prop :=
  ∃ c b, db r = some c ∧ b ∈ c.lits ∧ values b = 1 ∧ lev vars b ≤ lev vars l

/-- A false literal whose complement has been propagated watches guarded klauses only; `x` is a
klause left out. -/
def Blocked (values : ℕ → ℤ) (vars : ℕ → Kar) (ws : ℕ → List Katch) (db : ℕ → Option Klause)
    (pending : List ℕ) (x : ℕ) : Prop :=
  ∀ l, ∀ w ∈ ws l, w.reference ≠ x → values l = -1 → neg l ∉ pending →
    Guarded values vars db l w.reference

variable {r : ℕ}

theorem Guarded.transport (h : Guarded values vars db l r) (hext : Extends db db') : Guarded values vars db' l r := by
  obtain ⟨c, b, hc, hb, hvb, hlev⟩ := h
  obtain ⟨c', hc', hp, _⟩ := hext r c hc
  exact ⟨c', b, hc', hp.mem_iff.mpr hb, hvb, hlev⟩

theorem Blocked.transport (h : Blocked values vars ws db pending x) (hext : Extends db db') :
    Blocked values vars ws db' pending x :=
  fun l w hw hx hl hp => (h l w hw hx hl hp).transport hext

theorem Guarded.assign (h : Guarded values vars db l r) (hv : Valued values n) (h0 : values lit = 0)
    (hl : values l ≠ 0) : Guarded (assignValues values lit) (setVar vars lit level reason) db l r := by
  obtain ⟨c, b, hc, hb, hvb, hlev⟩ := h
  refine ⟨c, b, hc, hb, (assignValues_of_ne hv h0 (by omega)).trans hvb, ?_⟩
  rwa [lev_setVar (hv.div_ne h0 (by omega)), lev_setVar (hv.div_ne h0 hl)]

theorem Blocked.assign (h : Blocked values vars ws db pending x) (hv : Valued values n)
    (h0 : values lit = 0) (hlit : lit ∈ pending') (hsub : pending ⊆ pending') :
    Blocked (assignValues values lit) (setVar vars lit level reason) ws db pending' x := by
  intro l w hw hx hl hp
  have hvl : values l = -1 := by
    rw [assignValues_eq] at hl
    split_ifs at hl with h1 h2
    · rw [h2, neg_neg] at hp
      exact absurd hlit hp
    · exact hl
  exact (h l w hw hx hvl fun hm => hp (hsub hm)).assign hv h0 (by omega)

theorem Blocked.shrink {keep popped : List ℕ} {jump : ℕ} {values' : ℕ → ℤ}
    (h : Blocked values vars ws db pending x) (hv : Valued values n)
    (ht : Trailed values vars trail level db F)
    (hsplit : trail = keep ++ popped) (hkeep : ∀ l ∈ keep, lev vars l ≤ jump)
    (hpop : ∀ l ∈ popped, jump < lev vars l) (hpend : ∀ l ∈ pending, jump < lev vars l)
    (hval : ∀ l, values' l = if l ∈ popped ∨ neg l ∈ popped then 0 else values l) :
    Blocked values' vars ws db [] x := by
  intro l w hw hx hl _
  rw [hval] at hl
  split_ifs at hl with hmem
  have hlev : lev vars l ≤ jump := by
    by_cases hk : neg l ∈ trail
    · rw [hsplit, mem_append] at hk
      rcases hk with hk | hk
      · simpa using hkeep _ hk
      · exact absurd (.inr hk) hmem
    · have := ht.root (neg l) (hv.neg_true.mpr hl) hk
      simp at this
      omega
  obtain ⟨c, b, hc, hb, hvb, hlevb⟩ := h l w hw hx hl fun hm => by
    have := hpend _ hm
    simp at this
    omega
  refine ⟨c, b, hc, hb, ?_, hlevb⟩
  rw [hval, if_neg, hvb]
  rintro (hm | hm)
  · have := hpop b hm
    omega
  · have := hpop _ hm
    simp at this
    omega

theorem mem_watchesWith {lits : List ℕ} (hnd : lits.Nodup) {w : Katch} (hw : w ∈ watchesWith ws r lits l) :
    w ∈ ws l ∨ w.reference = r := by
  match lits with
  | [] | [_] => exact .inl hw
  | a :: b :: t =>
    have hab : a ≠ b := by
      rintro rfl
      simp at hnd
    rw [watchesWith_eq hab, mem_append] at hw
    rcases hw with hw | hw
    · exact .inl hw
    · right
      split_ifs at hw <;> simp_all

theorem Blocked.push {c : Klause} (h : Blocked values vars ws db pending INVALID) (hw : Watched ws db)
    (hne : ∀ {s : ℕ} {d : Klause}, db s = some d → s ≠ INVALID) (hr : db r = none) (hnd : c.lits.Nodup) :
    Blocked values vars (watchesWith ws r c.lits) (update db r (some c)) pending r := by
  intro l w hwl hwr hl hp
  have hold := (mem_watchesWith hnd hwl).resolve_right hwr
  obtain ⟨d, hd⟩ := hw.watch l w hold
  exact (h l w hold (hne hd.some) hl hp).transport (Extends.push hr c)

end

section

variable {assumptions : List ℕ}

/-- The first levels belong to the assumptions: each that has been reached is true there, and no
other literal is a decision on them. -/
structure Assuming (assumptions : List ℕ) (values : ℕ → ℤ) (vars : ℕ → Kar) (level : ℕ) : Prop where
  taken : ∀ i a, assumptions[i]? = some a → i < level → values a = 1 ∧ lev vars a ≤ i + 1
  decided : ∀ l, values l = 1 → why vars l = INVALID → lev vars l ≤ assumptions.length →
    l ∈ assumptions

theorem Assuming.assign (h : Assuming assumptions values vars level) (hv : Valued values n) (h0 : values lit = 0)
    {level' : ℕ} (htaken : ∀ i a, assumptions[i]? = some a → i < level' → i < level ∨ a = lit ∧ level' = i + 1)
    (hreason : reason = INVALID → level' ≤ assumptions.length → lit ∈ assumptions) :
    Assuming assumptions (assignValues values lit) (setVar vars lit level' reason) level' := by
  refine ⟨fun i a ha hi => ?_, fun l hl hw hlev => ?_⟩
  · rw [assignValues_eq_one hv h0]
    rcases htaken i a ha hi with hi | ⟨rfl, rfl⟩
    · obtain ⟨hva, hlev⟩ := h.taken i a ha hi
      exact ⟨.inr hva, by rwa [lev_setVar (hv.div_ne h0 (by omega))]⟩
    · exact ⟨.inl rfl, lev_setVar_self.le⟩
  · rcases (assignValues_eq_one hv h0).mp hl with rfl | hl
    · rw [why_setVar_self] at hw
      rw [lev_setVar_self] at hlev
      exact hreason hw hlev
    · have hd := hv.div_ne h0 (l := l) (by omega)
      rw [why_setVar hd] at hw
      rw [lev_setVar hd] at hlev
      exact h.decided l hl hw hlev

theorem Assuming.shrink {values' : ℕ → ℤ} {jump : ℕ} (h : Assuming assumptions values vars level) (hjump : jump ≤ level)
    (hval : ∀ l, values' l = 1 → values l = 1) (hkeep : ∀ l, values l = 1 → lev vars l ≤ jump → values' l = 1) :
    Assuming assumptions values' vars jump := by
  refine ⟨fun i a ha hi => ?_, fun l hl => h.decided l (hval l hl)⟩
  obtain ⟨hva, hlev⟩ := h.taken i a ha (by omega)
  exact ⟨hkeep a hva (by omega), hlev⟩

end

structure Queued (queue : Queue) (links : ℕ → Kink) (n : ℕ) : Prop where
  prev : ∀ i < n, (links i).prev < n ∨ (links i).prev = INVALID
  last : ∀ i, queue.last = some i → i < n
  search : ∀ i, queue.search = some i → i < n

end Nixie.Kitten
