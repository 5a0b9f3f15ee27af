import Mathlib.Data.Finmap
import Mathlib.Algebra.GroupWithZero.Nat

/-!
Assignments and scopes of the pseudo-Boolean solver `nixie-theories/src/pb.rs`.  A hash map is a
finite map; every iteration over its keys comes with the order it happens in.
-/

namespace Nixie.PseudoBoolean

open List Option

structure WeightedLiteral where
  lit : ℕ
  weight : ℕ
  deriving DecidableEq

structure PbConstraint where
  lits : List WeightedLiteral
  k : ℕ
  deriving DecidableEq

abbrev Assignments := Finmap fun _ : ℕ => Bool

structure PbSolver where
  constraints : List PbConstraint := []
  numPropagations : ℕ := 0
  assignments : Assignments := ∅
  contextStack : List ℕ := []

def saturatingAdd (a b : ℕ) : ℕ := min (a + b) (2 ^ 64 - 1)

/-- A sum of `u64`, which wraps in a release build and stops the program in a debug build. -/
def sumWeights (wraps : Bool) (lits : List WeightedLiteral) : Option ℕ :=
  let total := (lits.map (·.weight)).sum
  if total < 2 ^ 64 then some total else if wraps then some (total % 2 ^ 64) else none

def PbConstraint.isTrivial (c : PbConstraint) : Bool := c.k = 0

def scan (m : Assignments) : List WeightedLiteral → ℕ → List WeightedLiteral → ℕ × List WeightedLiteral
  | [], sum, unassigned => (sum, unassigned)
  | wl :: lits, sum, unassigned =>
    match m.lookup wl.lit with
    | some true => scan m lits (saturatingAdd sum wl.weight) unassigned
    | some false => scan m lits sum unassigned
    | none => scan m lits sum (unassigned ++ [wl])

def force : List WeightedLiteral → Assignments × List (ℕ × Bool) → Assignments × List (ℕ × Bool)
  | [], p => p
  | wl :: lits, (m, propagated) =>
    force lits (m.insert wl.lit true,
      if (m.lookup wl.lit).isNone then propagated ++ [(wl.lit, true)] else propagated)

def propagateConstraint (wraps : Bool) (p : Assignments × List (ℕ × Bool)) (c : PbConstraint) :
    Option (Assignments × List (ℕ × Bool)) :=
  if c.isTrivial then some p
  else
    let (sum, unassigned) := scan p.1 c.lits 0 []
    if sum < c.k then do
      let minRemaining ← sumWeights wraps unassigned
      if 0 < minRemaining ∧ minRemaining ≤ c.k - sum then some (force unassigned p) else some p
    else some p

namespace PbSolver

def assign (s : PbSolver) (lit : ℕ) (value : Bool) : PbSolver :=
  { s with assignments := s.assignments.insert lit value }

def propagate (wraps : Bool) (s : PbSolver) : Option (PbSolver × List (ℕ × Bool)) := do
  let (m, propagated) ← s.constraints.foldlM (propagateConstraint wraps) (s.assignments, [])
  return ({ s with
    assignments := m
    numPropagations := if propagated.isEmpty then s.numPropagations
      else saturatingAdd s.numPropagations propagated.length }, propagated)

def push (s : PbSolver) : PbSolver :=
  { s with contextStack := s.assignments.keys.card :: s.contextStack }

def eraseAll (m : Assignments) (lits : List ℕ) : Assignments := lits.foldl (fun m lit => m.erase lit) m

def popLevel (s : PbSolver) (order : List ℕ) : PbSolver :=
  match s.contextStack with
  | [] => s
  | size :: rest => { s with
      assignments := eraseAll s.assignments (order.drop size)
      contextStack := rest }

def pop (s : PbSolver) (orders : List (List ℕ)) : PbSolver := orders.foldl popLevel s

def Iterates : PbSolver → List (List ℕ) → Prop
  | _, [] => True
  | s, order :: orders => (order : Multiset ℕ) = s.assignments.keys.val ∧ Iterates (s.popLevel order) orders

inductive Reaches (wraps : Bool) : PbSolver → List Assignments → Prop
  | start {s} (h : s.contextStack = []) : Reaches wraps s []
  | assign {s opens} (lit : ℕ) (value : Bool) (h : Reaches wraps s opens) :
      Reaches wraps (s.assign lit value) opens
  | propagate {s s' opens propagated} (h : Reaches wraps s opens)
      (hp : s.propagate wraps = some (s', propagated)) : Reaches wraps s' opens
  | push {s opens} (h : Reaches wraps s opens) : Reaches wraps s.push (s.assignments :: opens)
  | pop {s opens orders} (h : Reaches wraps s opens) (hlen : orders.length ≤ opens.length)
      (hi : s.Iterates orders) : Reaches wraps (s.pop orders) (opens.drop orders.length)

variable {wraps : Bool} {s s' : PbSolver} {m : Assignments} {opens : List Assignments} {order : List ℕ}
  {orders : List (List ℕ)}

theorem lookup_eraseAll (m : Assignments) (lits : List ℕ) (x : ℕ) :
    (eraseAll m lits).lookup x = if x ∈ lits then none else m.lookup x := by
  induction lits generalizing m with
  | nil => simp [eraseAll]
  | cons lit lits ih =>
    refine (ih (m.erase lit)).trans ?_
    by_cases hx : x = lit
    · subst hx
      simp [Finmap.lookup_erase]
    · simp [hx, Finmap.lookup_erase_ne hx]

theorem keys_eraseAll (m : Assignments) (lits : List ℕ) : (eraseAll m lits).keys = m.keys \ lits.toFinset := by
  ext x
  rw [Finmap.mem_keys, ← Finmap.lookup_isSome, lookup_eraseAll, Finset.mem_sdiff, Finmap.mem_keys,
    ← Finmap.lookup_isSome, List.mem_toFinset]
  by_cases hx : x ∈ lits <;> simp [hx]

theorem card_eraseAll (ho : (order : Multiset ℕ) = m.keys.val) {size : ℕ} (hs : size ≤ m.keys.card) :
    (eraseAll m (order.drop size)).keys.card = size := by
  have hnd : order.Nodup := Multiset.coe_nodup.mp (ho ▸ m.keys.nodup)
  have hlen : order.length = m.keys.card := by
    rw [Finset.card_def, ← ho]
    rfl
  have hsub : (order.drop size).toFinset ⊆ m.keys := by
    intro x hx
    have hx := mem_of_mem_drop (mem_toFinset.mp hx)
    exact Finset.mem_def.mpr (ho ▸ Multiset.mem_coe.mpr hx)
  rw [keys_eraseAll, Finset.card_sdiff_of_subset hsub,
    toFinset_card_of_nodup (hnd.sublist (drop_sublist size order)), length_drop, hlen]
  omega

theorem subset_keys_insert (m : Assignments) (lit : ℕ) (value : Bool) : m.keys ⊆ (m.insert lit value).keys := by
  intro x hx
  exact Finmap.mem_keys.mpr (Finmap.mem_insert.mpr (.inr (Finmap.mem_keys.mp hx)))

theorem force_grows (lits : List WeightedLiteral) (p : Assignments × List (ℕ × Bool)) :
    p.1.keys ⊆ (force lits p).1.keys := by
  induction lits generalizing p with
  | nil => exact Finset.Subset.refl _
  | cons wl lits ih =>
    have htail := fun out => ih (p.1.insert wl.lit true, out)
    exact (subset_keys_insert p.1 wl.lit true).trans (htail _)

theorem propagateConstraint_grows {c : PbConstraint} {p p' : Assignments × List (ℕ × Bool)}
    (h : propagateConstraint wraps p c = some p') : p.1.keys ⊆ p'.1.keys := by
  unfold propagateConstraint at h
  split at h
  · obtain rfl := some.inj h
    exact Finset.Subset.refl _
  · dsimp only at h
    split at h
    · obtain ⟨total, _, h⟩ := bind_eq_some_iff.mp h
      split at h
      all_goals obtain rfl := some.inj h
      · exact force_grows _ p
      · exact Finset.Subset.refl _
    · obtain rfl := some.inj h
      exact Finset.Subset.refl _

theorem foldlM_grows {cs : List PbConstraint} {p p' : Assignments × List (ℕ × Bool)}
    (h : cs.foldlM (propagateConstraint wraps) p = some p') : p.1.keys ⊆ p'.1.keys := by
  induction cs generalizing p with
  | nil =>
    obtain rfl := some.inj h
    exact Finset.Subset.refl _
  | cons c cs ih =>
    rw [foldlM_cons] at h
    obtain ⟨q, hq, h⟩ := bind_eq_some_iff.mp h
    exact (propagateConstraint_grows hq).trans (ih h)

theorem propagate_grows {propagated : List (ℕ × Bool)} (h : s.propagate wraps = some (s', propagated)) :
    s.assignments.keys ⊆ s'.assignments.keys ∧ s'.contextStack = s.contextStack := by
  obtain ⟨⟨m, out⟩, hm, h⟩ := bind_eq_some_iff.mp h
  obtain ⟨rfl, rfl⟩ := Prod.mk.inj (some.inj h)
  exact ⟨foldlM_grows hm, rfl⟩

/-- The sizes on record are those of the contents at the pushes, and no scope is larger than one
inside it. -/
structure Scoped (s : PbSolver) (opens : List Assignments) : Prop where
  sizes : s.contextStack = opens.map fun m => m.keys.card
  descending : (s.assignments.keys.card :: s.contextStack).Pairwise (· ≥ ·)

theorem Scoped.grow (h : Scoped s opens) (hsub : s.assignments.keys ⊆ s'.assignments.keys)
    (hstack : s'.contextStack = s.contextStack) : Scoped s' opens := by
  obtain ⟨hhead, htail⟩ := pairwise_cons.mp h.descending
  refine ⟨hstack.trans h.sizes, ?_⟩
  rw [hstack]
  exact pairwise_cons.mpr ⟨fun n hn => (hhead n hn).trans (Finset.card_le_card hsub), htail⟩

theorem Scoped.push (h : Scoped s opens) : Scoped s.push (s.assignments :: opens) := by
  refine ⟨congrArg (s.assignments.keys.card :: ·) h.sizes, pairwise_cons.mpr ⟨fun n hn => ?_, h.descending⟩⟩
  rcases mem_cons.mp hn with rfl | hn
  · exact le_refl _
  · exact (pairwise_cons.mp h.descending).1 n hn

theorem Scoped.popLevel (h : Scoped s (m :: opens)) (ho : (order : Multiset ℕ) = s.assignments.keys.val) : Scoped
    (s.popLevel order) opens ∧ (s.popLevel order).assignments.keys.card = m.keys.card ∧ (s.popLevel order).assignments =
    eraseAll s.assignments (order.drop m.keys.card) := by
  obtain ⟨hsizes, hdesc⟩ := h
  rw [hsizes, map_cons] at hdesc
  obtain ⟨hhead, htail⟩ := pairwise_cons.mp hdesc
  have hcard := card_eraseAll ho (hhead _ mem_cons_self)
  unfold PbSolver.popLevel
  rw [hsizes, map_cons]
  dsimp only
  exact ⟨⟨rfl, by rw [hcard]; exact htail⟩, hcard, rfl⟩

theorem Scoped.pop (h : Scoped s opens) (hlen : orders.length ≤ opens.length) (hi : s.Iterates orders) :
    Scoped (s.pop orders) (opens.drop orders.length) := by
  induction orders generalizing s opens with
  | nil => exact h
  | cons order orders ih =>
    cases opens with
    | nil => simp at hlen
    | cons m opens => exact ih (h.popLevel hi.1).1 (by simpa using hlen) hi.2

theorem Reaches.scoped (h : Reaches wraps s opens) : Scoped s opens := by
  induction h with
  | start h => exact ⟨by simp [h], by simp [h]⟩
  | assign lit value _ ih => exact ih.grow (subset_keys_insert _ lit value) rfl
  | propagate _ hp ih => exact ih.grow (propagate_grows hp).1 (propagate_grows hp).2
  | push _ ih => exact ih.push
  | pop _ hlen hi ih => exact ih.pop hlen hi

theorem eq_empty_of_card {m : Assignments} (h : m.keys.card = 0) : m = ∅ := by
  refine Finmap.ext_lookup fun x => ?_
  rw [Finmap.lookup_empty, Finmap.lookup_eq_none, ← Finmap.mem_keys, Finset.card_eq_zero.mp h]
  exact Finset.notMem_empty x

theorem length_order (ho : (order : Multiset ℕ) = m.keys.val) : order.length = m.keys.card := by
  rw [Finset.card_def, ← ho]
  rfl

theorem exists_order (m : Assignments) (k : ℕ) : ∃ order : List ℕ, (order : Multiset ℕ) = m.keys.val ∧
    (k ∈ m.keys → ∀ n < m.keys.card, k ∈ order.drop n) := by
  by_cases hk : k ∈ m.keys
  · have heq : (((m.keys.erase k).toList ++ [k] : List ℕ) : Multiset ℕ) = m.keys.val := by
      rw [← Multiset.coe_add, Finset.coe_toList, Finset.erase_val, Multiset.coe_singleton, add_comm,
        Multiset.singleton_add, Multiset.cons_erase hk]
    refine ⟨_, heq, fun _ n hn => ?_⟩
    have hlen := length_order heq
    rw [length_append, length_singleton] at hlen
    rw [drop_append_of_le_length (by omega)]
    exact mem_append_right _ mem_cons_self
  · exact ⟨m.keys.toList, Finset.coe_toList _, fun h => absurd h hk⟩

theorem Scoped.card_le (h : Scoped s opens) {levels : ℕ} (hm : opens[levels]? = some m) :
    m.keys.card ≤ s.assignments.keys.card := by
  refine (pairwise_cons.mp h.descending).1 _ ?_
  rw [h.sizes]
  exact mem_map_of_mem (mem_of_getElem? hm)

theorem Scoped.outer_le {m' : Assignments} (h : Scoped s (m' :: opens)) {levels : ℕ}
    (hm : opens[levels]? = some m) : m.keys.card ≤ m'.keys.card := by
  have htail := (pairwise_cons.mp h.descending).2
  rw [h.sizes, map_cons] at htail
  exact (pairwise_cons.mp htail).1 _ (mem_map_of_mem (mem_of_getElem? hm))

theorem Scoped.card_pop (h : Scoped s opens) {levels : ℕ} (hm : opens[levels]? = some m)
    (hlen : orders.length = levels + 1) (hi : s.Iterates orders) :
    (s.pop orders).assignments.keys.card = m.keys.card := by
  induction levels generalizing s opens orders with
  | zero =>
    obtain ⟨order, rfl⟩ := length_eq_one_iff.mp hlen
    cases opens with
    | nil => simp at hm
    | cons m' opens =>
      obtain rfl : m' = m := by simpa using hm
      exact (h.popLevel hi.1).2.1
  | succ levels ih =>
    cases orders with
    | nil => simp at hlen
    | cons order orders =>
      cases opens with
      | nil => simp at hm
      | cons m' opens =>
        have hrest := ih (h.popLevel hi.1).1 (by simpa using hm) (by simpa using hlen) hi.2
        exact hrest

theorem Scoped.pop_full (h : Scoped s opens) {levels : ℕ} (hm : opens[levels]? = some m)
    (hcard : s.assignments.keys.card = m.keys.card) (hlen : orders.length = levels + 1)
    (hi : s.Iterates orders) : (s.pop orders).assignments = s.assignments := by
  induction levels generalizing s opens orders with
  | zero =>
    obtain ⟨order, rfl⟩ := length_eq_one_iff.mp hlen
    cases opens with
    | nil => simp at hm
    | cons m' opens =>
      obtain rfl : m' = m := by simpa using hm
      refine (h.popLevel hi.1).2.2.trans ?_
      rw [drop_of_length_le (by rw [length_order hi.1, hcard])]
      rfl
  | succ levels ih =>
    cases orders with
    | nil => simp at hlen
    | cons order orders =>
      cases opens with
      | nil => simp at hm
      | cons m' opens =>
        obtain ⟨h1, _, h3⟩ := h.popLevel hi.1
        have hm' : opens[levels]? = some m := by simpa using hm
        have hsame : (s.popLevel order).assignments = s.assignments := by
          have hle := h.outer_le hm'
          rw [h3, drop_of_length_le (by rw [length_order hi.1, hcard]; exact hle)]
          rfl
        exact (ih h1 hm' (by rw [hsame, hcard]) (by simpa using hlen) hi.2).trans hsame

theorem notMem_pop {k : ℕ} (hk : k ∉ s.assignments.keys) (orders : List (List ℕ)) :
    k ∉ (s.pop orders).assignments.keys := by
  induction orders generalizing s with
  | nil => exact hk
  | cons order orders ih =>
    refine ih (s := s.popLevel order) ?_
    unfold PbSolver.popLevel
    split
    · exact hk
    · rw [keys_eraseAll]
      exact fun hmem => hk (Finset.mem_sdiff.mp hmem).1

theorem Scoped.erased {k : ℕ} (h : Scoped s (m :: opens)) (ho : (order : Multiset ℕ) = s.assignments.keys.val)
    (hlast : k ∈ s.assignments.keys → ∀ n < s.assignments.keys.card, k ∈ order.drop n)
    (hlt : m.keys.card < s.assignments.keys.card) : k ∉ (s.popLevel order).assignments.keys := by
  rw [(h.popLevel ho).2.2, keys_eraseAll]
  intro hmem
  obtain ⟨hk, hnot⟩ := Finset.mem_sdiff.mp hmem
  exact hnot (mem_toFinset.mpr (hlast hk _ hlt))

theorem Scoped.exists_erased (h : Scoped s opens) {levels : ℕ} (hm : opens[levels]? = some m) (k : ℕ) :
    ∃ orders, orders.length = levels + 1 ∧ s.Iterates orders ∧
    (m.keys.card < s.assignments.keys.card → k ∉ (s.pop orders).assignments.keys) := by
  induction levels generalizing s opens with
  | zero =>
    obtain ⟨order, ho, hlast⟩ := exists_order s.assignments k
    cases opens with
    | nil => simp at hm
    | cons m' opens =>
      obtain rfl : m' = m := by simpa using hm
      exact ⟨[order], rfl, ⟨ho, trivial⟩, h.erased ho hlast⟩
  | succ levels ih =>
    obtain ⟨order, ho, hlast⟩ := exists_order s.assignments k
    cases opens with
    | nil => simp at hm
    | cons m' opens =>
      obtain ⟨h1, h2, _⟩ := h.popLevel ho
      obtain ⟨orders, hlen, hi, hout⟩ := ih h1 (by simpa using hm)
      refine ⟨order :: orders, by simpa using hlen, ⟨ho, hi⟩, fun hlt => ?_⟩
      -- either an inner level erases the key already, or the rest does
      by_cases hinner : m.keys.card < m'.keys.card
      · exact hout (h2 ▸ hinner)
      · exact notMem_pop (h.erased ho hlast (by omega)) orders

/-- Whatever order the keys come in, closing scopes restores the map just when it was empty at the push
or has the same content again. -/
theorem pop_restores_iff (h : Reaches wraps s opens) {levels : ℕ} (hm : opens[levels]? = some m) :
    (∀ orders, orders.length = levels + 1 → s.Iterates orders → (s.pop orders).assignments = m) ↔
      m = ∅ ∨ s.assignments = m := by
  have hs := h.scoped
  constructor
  · intro hall
    by_contra hne
    obtain ⟨hempty, hdiff⟩ := not_or.mp hne
    obtain ⟨k, hk⟩ := Finset.card_pos.mp (Nat.pos_of_ne_zero fun h0 => hempty (eq_empty_of_card h0))
    obtain ⟨orders, hlen, hi, herased⟩ := hs.exists_erased hm k
    rcases (hs.card_le hm).lt_or_eq with hlt | heq
    · exact herased hlt (hall orders hlen hi ▸ hk)
    · exact hdiff ((hs.pop_full hm heq.symm hlen hi).symm.trans (hall orders hlen hi))
  · rintro (rfl | rfl) orders hlen hi
    · exact eq_empty_of_card (hs.card_pop hm hlen hi)
    · exact hs.pop_full hm rfl hlen hi

def nested : PbSolver := assign (push (assign (push {}) 1 true)) 2 false

/-- The outer scope is restored in every order, the inner one is not. -/
theorem pop_restores_nested :
    (∀ orders, orders.length = 2 → nested.Iterates orders → (nested.pop orders).assignments = ∅) ∧
    ¬ ∀ orders, orders.length = 1 → nested.Iterates orders →
      (nested.pop orders).assignments = (assign {} 1 true).assignments := by
  have h : Reaches true nested _ := .assign 2 false (.push (.assign 1 true (.push (.start rfl))))
  refine ⟨(@pop_restores_iff _ _ _ _ h 1 rfl).mpr (.inl rfl), fun hall => ?_⟩
  rcases (@pop_restores_iff _ _ _ _ h 0 rfl).mp hall with heq | heq
  · cases congrArg (Finmap.lookup 1) heq
  · cases congrArg (Finmap.lookup 2) heq

/-- A value that is overwritten inside a scope is lost in every order. -/
theorem not_pop_restores :
    ∃ s opens, Reaches true s opens ∧ ∃ m, opens[0]? = some m ∧ s.Iterates [[1]] ∧
      (s.pop [[1]]).assignments ≠ m := by
  refine ⟨assign (push (assign {} 1 true)) 1 false, _,
    .assign 1 false (.push (.assign 1 true (.start rfl))), _, rfl, ⟨rfl, trivial⟩, fun h => ?_⟩
  cases congrArg (Finmap.lookup 1) h

end PbSolver

end Nixie.PseudoBoolean
