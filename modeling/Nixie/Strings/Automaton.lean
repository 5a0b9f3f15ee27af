import Mathlib.Data.Set.Card
import Mathlib.Order.Interval.Finset.Nat
import Nixie.Strings.Membership

namespace Nixie.Strings

open Language Computability Nixie.Quotient List Option

variable [UnicodeTable]

structure DerivativeCache where
  cache : List ((Regex × Char) × Regex) := []

def DerivativeCache.derivative (m : DerivativeCache) (r : Regex) (c : Char) : Regex × DerivativeCache :=
  match m.cache.find? fun e => e.1.1 == r && e.1.2 == c with
  | some e => (e.2, m)
  | none =>
    let d := r.derivative c
    (d, ⟨((r, c), d) :: m.cache⟩)

structure AutomatonState where
  regex : Regex
  id : ℕ
  accepting : Bool

structure RegexAutomaton where
  states : List AutomatonState
  transitions : List (List (Char × Char × ℕ))
  regexToState : List (Regex × ℕ)
  initial : ℕ
  cache : DerivativeCache

namespace RegexAutomaton

def new (regex : Regex) : RegexAutomaton where
  states := [⟨regex, 0, regex.isNullable⟩]
  transitions := [[]]
  regexToState := [(regex, 0)]
  initial := 0
  cache := {}

def getOrCreateState (a : RegexAutomaton) (regex : Regex) : ℕ × RegexAutomaton :=
  match a.regexToState.find? fun e => e.1 == regex with
  | some e => (e.2, a)
  | none =>
    let id := a.states.length % 2 ^ 32
    (id, { a with
      states := a.states ++ [⟨regex, id, regex.isNullable⟩]
      transitions := a.transitions ++ [[]]
      regexToState := (regex, id) :: a.regexToState })

def pushTransition (a : RegexAutomaton) (state : ℕ) (c : Char) (target : ℕ) : RegexAutomaton :=
  { a with transitions := a.transitions.modify state (· ++ [(c, c, target)]) }

def transition (a : RegexAutomaton) (state : ℕ) (c : Char) : Option (ℕ × RegexAutomaton) := do
  let row ← a.transitions[state]?
  match row.find? fun e => e.1 ≤ c && c ≤ e.2.1 with
  | some e => some (e.2.2, a)
  | none =>
    let st ← a.states[state]?
    let (derivative, cache) := a.cache.derivative st.regex c
    let a := { a with cache := cache }
    let regex := if derivative.isEmpty then .none else derivative
    let (target, a) := a.getOrCreateState regex
    return (target, a.pushTransition state c target)

def acceptsFrom (a : RegexAutomaton) (current : ℕ) : List Char → Option (Bool × RegexAutomaton)
  | [] => do
    let st ← a.states[current]?
    return (st.accepting, a)
  | c :: s => do
    let (current, a) ← a.transition current c
    let st ← a.states[current]?
    if st.regex.isEmpty then return (false, a)
    a.acceptsFrom current s

def accepts (a : RegexAutomaton) (s : List Char) : Option (Bool × RegexAutomaton) :=
  a.acceptsFrom a.initial s

def answers (a : RegexAutomaton) : List (List Char) → Option (List Bool)
  | [] => some []
  | s :: queries => do
    let (b, a) ← a.accepts s
    let bs ← a.answers queries
    return b :: bs

end RegexAutomaton

namespace Regex

def visited (r : Regex) (queries : List (List Char)) : Set Regex :=
  {d | ∃ s ∈ queries, ∃ p, p <+: s ∧ d = r.derivs p}

theorem finite_visited (r : Regex) (queries : List (List Char)) : (visited r queries).Finite := by
  refine ((queries.flatMap List.inits).map r.derivs).finite_toSet.subset ?_
  rintro d ⟨s, hs, p, hp, rfl⟩
  simp only [Set.mem_ofPred_eq, List.mem_map, List.mem_flatMap, List.mem_inits]
  exact ⟨p, ⟨s, hs, hp⟩, rfl⟩

theorem ncard_visited_le (r : Regex) (queries : List (List Char)) :
    (visited r queries).ncard ≤ (queries.flatMap List.inits).length := by
  classical
  have hsub : visited r queries ⊆ ((queries.flatMap List.inits).toFinset.image r.derivs : Finset Regex) := by
    rintro d ⟨s, hs, p, hp, rfl⟩
    rw [Finset.mem_coe, Finset.mem_image]
    exact ⟨p, mem_toFinset.mpr (mem_flatMap.mpr ⟨s, hs, (mem_inits _ _).mpr hp⟩), rfl⟩
  calc (visited r queries).ncard
      ≤ ((queries.flatMap List.inits).toFinset.image r.derivs).card := by
        rw [← Set.ncard_coe_finset]
        exact Set.ncard_le_ncard hsub (Finset.finite_toSet _)
    _ ≤ (queries.flatMap List.inits).toFinset.card := Finset.card_image_le
    _ ≤ (queries.flatMap List.inits).length := toFinset_card_le _

end Regex

namespace RegexAutomaton

open Regex

def At (a : RegexAutomaton) (state : ℕ) (r : Regex) : Prop :=
  ∃ st ∈ a.states[state]?, st.regex = r

structure Inv (V : Set Regex) (r : Regex) (a : RegexAutomaton) : Prop where
  initial : a.At a.initial r
  rows : a.transitions.length = a.states.length
  nodup : (a.states.map AutomatonState.regex).Nodup
  sound : ∀ st ∈ a.states, Sound st.regex
  within : ∀ st ∈ a.states, st.regex ∈ V
  accepting : ∀ st ∈ a.states, st.accepting = st.regex.isNullable
  known : ∀ st ∈ a.states, ∃ id, (st.regex, id) ∈ a.regexToState
  ids : ∀ e ∈ a.regexToState, a.At e.2 e.1
  targets : ∀ state q, a.At state q → ∀ row ∈ a.transitions[state]?, ∀ e ∈ row, ∀ c,
    e.1 ≤ c → c ≤ e.2.1 → a.At e.2.2 (q.derivative c)
  cached : ∀ e ∈ a.cache.cache, Sound e.1.1 ∧ e.2 = e.1.1.derivative e.1.2

variable {V : Set Regex} {r q : Regex} {a a' : RegexAutomaton} {state : ℕ} {c : Char}

section

omit [UnicodeTable]

theorem At.mem (h : a.At state q) : ∃ st ∈ a.states, st.regex = q := by
  obtain ⟨st, hst, rfl⟩ := h
  exact ⟨st, mem_of_getElem? hst, rfl⟩

theorem At.lt (h : a.At state q) : state < a.states.length := by
  obtain ⟨st, hst, -⟩ := h
  exact (List.getElem?_eq_some_iff.mp hst).1

theorem getElem?_mono {st : AutomatonState} (hle : a.states <+: a'.states)
    (hst : a.states[state]? = some st) : a'.states[state]? = some st := by
  obtain ⟨rest, hrest⟩ := hle
  rwa [← hrest, List.getElem?_append_left (List.getElem?_eq_some_iff.mp hst).1]

theorem At.mono (h : a.At state q) (hle : a.states <+: a'.states) : a'.At state q := by
  obtain ⟨st, hst, hq⟩ := h
  exact ⟨st, getElem?_mono hle hst, hq⟩

theorem At.unique {q' : Regex} (h : a.At state q) (h' : a.At state q') : q = q' := by
  obtain ⟨st, hst, rfl⟩ := h
  obtain ⟨st', hst', rfl⟩ := h'
  rw [mem_def.mp hst] at hst'
  cases hst'
  rfl

end

theorem Inv.sound_at (h : Inv V r a) (hq : a.At state q) : Sound q := by
  obtain ⟨st, hst, rfl⟩ := hq.mem
  exact h.sound st hst

theorem Inv.new (hr : Sound r) (hV : r ∈ V) : Inv V r (new r) where
  initial := ⟨_, rfl, rfl⟩
  rows := rfl
  nodup := nodup_singleton r
  sound := by simpa [RegexAutomaton.new] using hr
  within := by simpa [RegexAutomaton.new] using hV
  accepting := by simp [RegexAutomaton.new]
  known := by simp [RegexAutomaton.new]
  ids := by
    intro e he
    rw [mem_singleton.mp he]
    exact ⟨_, rfl, rfl⟩
  targets := by
    intro state q hq row hrow e he
    have hrow' := mem_of_getElem? hrow
    rw [mem_singleton.mp hrow'] at he
    cases he
  cached := by simp [RegexAutomaton.new]

theorem Inv.length_lt (h : Inv V r a) (hfin : V.Finite) (hcard : V.ncard ≤ 2 ^ 32) (hq : q ∈ V)
    (hnew : ∀ st ∈ a.states, st.regex ≠ q) : a.states.length < 2 ^ 32 := by
  classical
  have hnodup : (q :: a.states.map AutomatonState.regex).Nodup := by
    refine nodup_cons.mpr ⟨fun hmem => ?_, h.nodup⟩
    obtain ⟨st, hst, heq⟩ := mem_map.mp hmem
    exact hnew st hst heq
  have hsub : ((q :: a.states.map AutomatonState.regex).toFinset : Set Regex) ⊆ V := by
    intro d hd
    rw [Finset.mem_coe, List.mem_toFinset, List.mem_cons] at hd
    rcases hd with rfl | hd
    · exact hq
    · obtain ⟨st, hst, rfl⟩ := List.mem_map.mp hd
      exact h.within st hst
  have hle := Set.ncard_le_ncard hsub hfin
  rw [Set.ncard_coe_finset, toFinset_card_of_nodup hnodup, length_cons, length_map] at hle
  omega

theorem Inv.with_cache {m : DerivativeCache} (h : Inv V r a)
    (hm : ∀ e ∈ m.cache, Sound e.1.1 ∧ e.2 = e.1.1.derivative e.1.2) :
    Inv V r { a with cache := m } :=
  ⟨h.initial, h.rows, h.nodup, h.sound, h.within, h.accepting, h.known, h.ids, h.targets, hm⟩

theorem Inv.derivative (h : Inv V r a) (hq : Sound q) : (a.cache.derivative q c).1 = q.derivative c ∧ ∀ e ∈
    (a.cache.derivative q c).2.cache, Sound e.1.1 ∧ e.2 = e.1.1.derivative e.1.2 := by
  unfold DerivativeCache.derivative
  split
  · next e he =>
    have hmem := h.cached e (mem_of_find?_eq_some he)
    have hkey := find?_some he
    rw [Bool.and_eq_true, beq_iff hmem.1 hq, beq_iff_eq] at hkey
    refine ⟨?_, h.cached⟩
    rw [hmem.2, hkey.1, hkey.2]
  · exact ⟨rfl, forall_mem_cons.mpr ⟨⟨hq, rfl⟩, h.cached⟩⟩

theorem Inv.getOrCreateState (h : Inv V r a) (hfin : V.Finite) (hcard : V.ncard ≤ 2 ^ 32) (hq : Sound q) (hV : q ∈ V) :
    Inv V r (a.getOrCreateState q).2 ∧ (a.getOrCreateState q).2.At (a.getOrCreateState q).1 q ∧ a.states <+:
    (a.getOrCreateState q).2.states := by
  have hid (e : Regex × ℕ) (he : e ∈ a.regexToState) : Sound e.1 := h.sound_at (h.ids e he)
  unfold RegexAutomaton.getOrCreateState
  split
  · next e he =>
    have hmem := mem_of_find?_eq_some he
    have hkey := find?_some he
    rw [beq_iff (hid e hmem) hq] at hkey
    exact ⟨h, hkey ▸ h.ids e hmem, prefix_rfl⟩
  · next hnone =>
    have hnew : ∀ st ∈ a.states, st.regex ≠ q := by
      rintro st hst rfl
      obtain ⟨id, hmem⟩ := h.known st hst
      have hne := find?_eq_none.mp hnone _ hmem
      exact hne ((beq_iff hq hq).mpr rfl)
    have hlen := h.length_lt hfin hcard hV hnew
    rw [Nat.mod_eq_of_lt hlen]
    set st : AutomatonState := ⟨q, a.states.length, q.isNullable⟩
    have hpre : a.states <+: a.states ++ [st] := prefix_append _ _
    have hat {state : ℕ} {p : Regex} (hp : a.At state p) :
        RegexAutomaton.At
          { a with
            states := a.states ++ [st]
            transitions := a.transitions ++ [[]]
            regexToState := (q, a.states.length) :: a.regexToState } state p :=
      hp.mono hpre
    have hlast : (a.states ++ [st])[a.states.length]? = some st := by simp
    refine ⟨⟨hat h.initial, ?_, ?_, ?_, ?_, ?_, ?_, ?_, ?_, h.cached⟩, ⟨st, hlast, rfl⟩, hpre⟩
    · simp [h.rows]
    · rw [map_append, map_singleton]
      refine List.Nodup.append h.nodup (nodup_singleton _) ?_
      rw [disjoint_singleton]
      intro hmem
      obtain ⟨st', hst', heq⟩ := mem_map.mp hmem
      exact hnew st' hst' heq
    · exact forall_mem_append.mpr ⟨h.sound, by simpa [st] using hq⟩
    · exact forall_mem_append.mpr ⟨h.within, by simpa [st] using hV⟩
    · exact forall_mem_append.mpr ⟨h.accepting, by simp⟩
    · refine forall_mem_append.mpr ⟨fun st' hst' => ?_, ?_⟩
      · obtain ⟨id, hmem⟩ := h.known st' hst'
        exact ⟨id, mem_cons_of_mem _ hmem⟩
      · simp only [mem_singleton, forall_eq]
        exact ⟨_, mem_cons_self⟩
    · exact forall_mem_cons.mpr ⟨⟨st, hlast, rfl⟩, fun e he => hat (h.ids e he)⟩
    · intro state p hp row hrow e he c hlo hhi
      rcases Nat.lt_or_ge state a.transitions.length with hlt | hge
      · dsimp only at hrow
        rw [getElem?_append_left hlt] at hrow
        rw [h.rows] at hlt
        have hp' : a.At state p := by
          obtain ⟨st', hst', rfl⟩ := hp
          dsimp only at hst'
          rw [getElem?_append_left hlt] at hst'
          exact ⟨st', hst', rfl⟩
        exact hat (h.targets state p hp' row hrow e he c hlo hhi)
      · dsimp only at hrow
        rw [getElem?_append_right hge] at hrow
        rw [mem_singleton.mp (mem_of_getElem? hrow)] at he
        cases he

theorem Inv.pushTransition {p : Regex} {target : ℕ} (h : Inv V r a) (hp : a.At state p)
    (htarget : a.At target (p.derivative c)) : Inv V r (a.pushTransition state c target) where
  initial := h.initial
  rows := by simp [RegexAutomaton.pushTransition, h.rows]
  nodup := h.nodup
  sound := h.sound
  within := h.within
  accepting := h.accepting
  known := h.known
  ids := h.ids
  targets := by
    intro state' q hq row hrow e he b hlo hhi
    simp only [RegexAutomaton.pushTransition, List.getElem?_modify, Option.mem_def,
      Option.map_eq_map, Option.map_eq_some_iff] at hrow
    obtain ⟨row', hrow', rfl⟩ := hrow
    have hold : ∀ e ∈ row', e.1 ≤ b → b ≤ e.2.1 → a.At e.2.2 (q.derivative b) :=
      fun e he => h.targets state' q hq row' hrow' e he b
    split at he
    · next heq =>
      rcases List.mem_append.mp he with he | he
      · exact hold e he hlo hhi
      · rw [List.mem_singleton.mp he] at hlo hhi ⊢
        have hcb : c = b := le_antisymm hlo hhi
        subst heq hcb
        rw [hq.unique hp]
        exact htarget
    · exact hold e he hlo hhi
  cached := h.cached

theorem eq_none_of_isEmpty (hq : Sound q) (h : q.isEmpty = true) : q = Regex.none := by
  refine hq.eq_of_op sound_none ?_
  unfold Regex.isEmpty at h
  split at h
  · assumption
  · cases h

theorem Inv.transition (h : Inv V r a) (hfin : V.Finite) (hcard : V.ncard ≤ 2 ^ 32) (hq : a.At state q)
    (hV : q.derivative c ∈ V) : ∃ target a', a.transition state c = some (target, a') ∧ Inv V r a' ∧
    a'.At target (q.derivative c) ∧ a.states <+: a'.states := by
  have hsound := h.sound_at hq
  have hrow : state < a.transitions.length := by
    rw [h.rows]
    exact hq.lt
  unfold RegexAutomaton.transition
  rw [List.getElem?_eq_getElem hrow, Option.bind_eq_bind, Option.bind_some]
  cases hfind : a.transitions[state].find? fun e => e.1 ≤ c && c ≤ e.2.1 with
  | some e =>
    have hkey := List.find?_some hfind
    rw [Bool.and_eq_true, decide_eq_true_iff, decide_eq_true_iff] at hkey
    exact ⟨e.2.2, a, rfl, h, h.targets state q hq _ (List.getElem?_eq_getElem hrow) e
      (List.mem_of_find?_eq_some hfind) c hkey.1 hkey.2, List.prefix_rfl⟩
  | none =>
    obtain ⟨hd, hcache⟩ := h.derivative (c := c) hsound
    have hdead : (if (q.derivative c).isEmpty then Regex.none else q.derivative c) = q.derivative c := by
      split
      · next hempty => exact (eq_none_of_isEmpty (hsound.derivative c) hempty).symm
      · rfl
    obtain ⟨hinv, hat, hpre⟩ :=
      (h.with_cache hcache).getOrCreateState hfin hcard (hsound.derivative c) hV
    obtain ⟨st, hst, rfl⟩ := hq
    refine ⟨_, _, ?_, hinv.pushTransition (At.mono (a := a) ⟨st, hst, rfl⟩ hpre) hat, hat, hpre⟩
    dsimp only
    simp only [Option.mem_def.mp hst, Option.bind_eq_bind, Option.bind_some, hd, hdead, Option.pure_def]

theorem Inv.transition_full (h : Inv V r a) (hfull : a.states.length = 2 ^ 32) (hq : a.At state q)
    (hV : q.derivative c ∉ V) : ∃ a', a.transition state c = some (0, a') ∧ a.states <+: a'.states := by
  have hsound := h.sound_at hq
  have hnot {state' : ℕ} (hat : a.At state' (q.derivative c)) : False := by
    obtain ⟨st, hst, heq⟩ := hat.mem
    exact hV (heq ▸ h.within st hst)
  have hrow : state < a.transitions.length := by
    rw [h.rows]
    exact hq.lt
  have hdead : (if (q.derivative c).isEmpty then Regex.none else q.derivative c) = q.derivative c := by
    split
    · next hempty => exact (eq_none_of_isEmpty (hsound.derivative c) hempty).symm
    · rfl
  have hfind : a.transitions[state].find? (fun e => e.1 ≤ c && c ≤ e.2.1) = Option.none := by
    refine find?_eq_none.mpr fun e he hkey => ?_
    rw [Bool.and_eq_true, decide_eq_true_iff, decide_eq_true_iff] at hkey
    exact hnot (h.targets state q hq _ (getElem?_eq_getElem hrow) e he c hkey.1 hkey.2)
  have hstate : a.regexToState.find? (fun e => e.1 == q.derivative c) = Option.none := by
    refine find?_eq_none.mpr fun e he hkey => ?_
    have hat := h.ids e he
    rw [beq_iff (h.sound_at hat) (hsound.derivative c)] at hkey
    exact hnot (hkey ▸ hat)
  obtain ⟨hd, -⟩ := h.derivative (c := c) hsound
  obtain ⟨st, hst, rfl⟩ := hq
  unfold RegexAutomaton.transition
  simp only [getElem?_eq_getElem hrow, mem_def.mp hst, bind_eq_bind, bind_some,
    hfind, hd, hdead, RegexAutomaton.getOrCreateState, hstate, hfull, Nat.mod_self, Option.pure_def]
  exact ⟨_, rfl, List.prefix_append a.states _⟩

variable {s : List Char}

theorem acceptsFrom_cons {target : ℕ} {st : AutomatonState} (h : a.transition state c = some (target, a'))
    (hst : a'.states[target]? = some st) : a.acceptsFrom state (c :: s) =
    if st.regex.isEmpty then some (false, a') else a'.acceptsFrom target s := by
  simp only [RegexAutomaton.acceptsFrom, h, hst, Option.bind_eq_bind, Option.bind_some, Option.pure_def]

variable {queries : List (List Char)}

theorem answers_cons {b : Bool} (h : a.accepts s = some (b, a')) :
    a.answers (s :: queries) = (a'.answers queries).map (b :: ·) := by
  simp only [RegexAutomaton.answers, h, Option.bind_eq_bind, Option.bind_some, Option.pure_def]
  cases a'.answers queries <;> rfl

theorem Inv.read (h : Inv V r a) (hfin : V.Finite) (hcard : V.ncard ≤ 2 ^ 32) (hq : a.At state q)
    (hV : ∀ p, p <+: s → q.derivs p ∈ V) (hlive : ∀ p, p <+: s → (q.derivs p).isEmpty = false ∨ p = []) :
    ∃ state' a', (∀ t, a.acceptsFrom state (s ++ t) = a'.acceptsFrom state' t) ∧ Inv V r a' ∧
    a'.At state' (q.derivs s) ∧ a.states <+: a'.states ∧ ∀ p, p <+: s → ∃ st ∈ a'.states, st.regex = q.derivs p := by
  induction s generalizing a state q with
  | nil =>
    refine ⟨state, a, fun t => rfl, h, hq, prefix_rfl, fun p hp => ?_⟩
    rw [prefix_nil.mp hp]
    exact hq.mem
  | cons c s ih =>
    have hcons {p : List Char} (hp : p <+: s) : c :: p <+: c :: s := cons_prefix_cons.mpr ⟨rfl, hp⟩
    obtain ⟨target, b, hstep, hb, hat, hpre⟩ :=
      h.transition hfin hcard hq (hV [c] (hcons nil_prefix))
    obtain ⟨st, hst, hregex⟩ := id hat
    have hnempty : (q.derivative c).isEmpty = false := (hlive [c] (hcons nil_prefix)).resolve_right (cons_ne_nil _ _)
    obtain ⟨state', a', hread, hinv, hat', hpre', hmem⟩ :=
      ih hb hat (fun p hp => hV (c :: p) (hcons hp))
        fun p hp => .inl ((hlive (c :: p) (hcons hp)).resolve_right (cons_ne_nil _ _))
    refine ⟨state', a', fun t => ?_, hinv, hat', hpre.trans hpre', fun p hp => ?_⟩
    · rw [cons_append, acceptsFrom_cons hstep hst, hregex, hnempty, ← hread t]
      rfl
    · rcases prefix_cons_iff.mp hp with rfl | ⟨p', rfl, hp'⟩
      · exact (hq.mono (hpre.trans hpre')).mem
      · exact hmem p' hp'

theorem Inv.acceptsFrom (h : Inv V r a) (hfin : V.Finite) (hcard : V.ncard ≤ 2 ^ 32) (hq : a.At state q)
    (hV : ∀ p, p <+: s → q.derivs p ∈ V) : ∃ a', a.acceptsFrom state s = some (q.matchesFrom s, a') ∧
    Inv V r a' := by
  induction s generalizing a state q with
  | nil =>
    obtain ⟨st, hst, rfl⟩ := hq
    refine ⟨a, ?_, h⟩
    rw [RegexAutomaton.acceptsFrom, mem_def.mp hst, bind_eq_bind, bind_some, h.accepting st (mem_of_getElem? hst)]
    rfl
  | cons c s ih =>
    have hcons {p : List Char} (hp : p <+: s) : c :: p <+: c :: s := cons_prefix_cons.mpr ⟨rfl, hp⟩
    obtain ⟨target, b, hstep, hb, hat, -⟩ :=
      h.transition hfin hcard hq (hV [c] (hcons nil_prefix))
    obtain ⟨a', hread, hinv⟩ := ih hb hat fun p hp => hV (c :: p) (hcons hp)
    obtain ⟨st, hst, hregex⟩ := hat
    rw [acceptsFrom_cons hstep hst, hregex, matchesFrom]
    split
    · exact ⟨b, rfl, hb⟩
    · exact ⟨a', hread, hinv⟩

theorem Inv.answers (h : Inv V r a) (hfin : V.Finite) (hcard : V.ncard ≤ 2 ^ 32) (hV : visited r queries ⊆ V) :
    a.answers queries = some (queries.map r.matches) := by
  induction queries generalizing a with
  | nil => rfl
  | cons s queries ih =>
    obtain ⟨a', haccept, hinv⟩ :=
      h.acceptsFrom (s := s) hfin hcard h.initial fun p hp => hV ⟨s, mem_cons_self, p, hp, rfl⟩
    have hrest := ih hinv fun d ⟨t, ht, hd⟩ => hV ⟨t, mem_cons_of_mem _ ht, hd⟩
    rw [answers_cons haccept, hrest]
    rfl

theorem answers_new (hr : Sound r) (hcard : (visited r queries).ncard ≤ 2 ^ 32) :
    (RegexAutomaton.new r).answers queries = some (queries.map r.matches) := by
  cases queries with
  | nil => rfl
  | cons s queries =>
    have hmem : r ∈ visited r (s :: queries) := ⟨s, mem_cons_self, [], nil_prefix, rfl⟩
    exact (Inv.new hr hmem).answers (finite_visited _ _) hcard subset_rfl

end RegexAutomaton

namespace Regex

/-- The engine decides the denoted language; an automaton does on all queries whose prefixes have at
most `2 ^ 32` derivatives. -/
theorem engine_correct {r : Regex} {L : Language Char} (h : Denotes r L) :
    (∀ s, r.matches s = true ↔ s ∈ L) ∧ (r.isNullable = true ↔ [] ∈ L) ∧
      (∀ c s, (r.derivative c).matches s = true ↔ s ∈ L.leftQuotient [c]) ∧
      ∀ queries, (visited r queries).ncard ≤ 2 ^ 32 →
        (RegexAutomaton.new r).answers queries = some (queries.map r.matches) := by
  obtain ⟨hsound, rfl⟩ := h.spec
  refine ⟨matches_iff hsound, hsound.nullable_iff, fun c s => ?_, fun queries => ?_⟩
  · rw [matches_iff (hsound.derivative c), lang_derivative hsound]
  · exact RegexAutomaton.answers_new hsound

omit [UnicodeTable] in
theorem engine_correct_star :
    letI : UnicodeTable := ⟨fun _ _ => false⟩
    (RegexAutomaton.new (star (char 'a'))).answers [['a'], ['b', 'a'], ['a', 'a']] =
      some ([['a'], ['b', 'a'], ['a', 'a']].map (star (char 'a')).matches) := by
  let _ : UnicodeTable := ⟨fun _ _ => false⟩
  refine (engine_correct (Denotes.char 'a').star).2.2.2 _ ((ncard_visited_le _ _).trans ?_)
  decide

section

def atMost (c : Char) (n : ℕ) : Regex :=
  loopBounded (char c) 0 (some n)

omit [UnicodeTable] in
theorem denotes_atMost (c : Char) (n : ℕ) : Denotes (atMost c n) (between {[c]} 0 (some n)) :=
  (Denotes.char c).loopBounded 0 (some n)

omit [UnicodeTable] in
theorem atMost_zero (c : Char) : atMost c 0 = epsilon := by
  rw [atMost, loopBounded, if_pos ⟨rfl, rfl⟩]

omit [UnicodeTable] in
theorem atMost_succ (c : Char) (n : ℕ) : atMost c (n + 1) = mk (.loop (char c) 0 (some (n + 1))) true := by
  simp [atMost, loopBounded, char]

omit [UnicodeTable] in
theorem isNullable_atMost (c : Char) (n : ℕ) : (atMost c n).isNullable = true := by
  cases n with
  | zero => rw [atMost_zero]; rfl
  | succ n => rw [atMost_succ]; rfl

omit [UnicodeTable] in
theorem isEmpty_atMost (c : Char) (n : ℕ) : (atMost c n).isEmpty = false := by
  cases n with
  | zero => rw [atMost_zero]; rfl
  | succ n => rw [atMost_succ]; rfl

omit [UnicodeTable] in
theorem atMost_injective (c : Char) : Function.Injective (atMost c) := by
  intro m n h
  cases m with
  | zero =>
    cases n with
    | zero => rfl
    | succ n => rw [atMost_zero, atMost_succ] at h; cases h
  | succ m =>
    cases n with
    | zero => rw [atMost_zero, atMost_succ] at h; cases h
    | succ n => rw [atMost_succ, atMost_succ] at h; cases h; rfl

theorem derivative_atMost (c : Char) (n : ℕ) : (atMost c (n + 1)).derivative c = atMost c n := by
  have hchar : derive c (char c) = epsilon := derive_leaf (by simp [openDerivative, unwrapOption, openNode, char])
  have hopen : openDerivative c (atMost c (n + 1)) = .frame ⟨.suffix (atMost c n), [char c], []⟩ := by
    rw [atMost_succ]
    rfl
  rw [derivative_eq_derive, derive_frame hopen, map_singleton, hchar]
  cases n with
  | zero => rw [atMost_zero]; rfl
  | succ n => rw [atMost_succ]; rfl

theorem derivs_atMost (c : Char) (k n : ℕ) : (atMost c (n + k)).derivs (List.replicate k c) = atMost c n := by
  induction k with
  | zero => rfl
  | succ k ih =>
    rw [replicate_succ, derivs, foldl_cons, ← Nat.add_assoc, derivative_atMost]
    exact ih

theorem visited_atMost (c : Char) (n : ℕ) : visited (atMost c n) [List.replicate n c] = atMost c '' Set.Iic n := by
  ext d
  simp only [visited, mem_singleton, exists_eq_left, Set.mem_ofPred_eq, Set.mem_image, Set.mem_Iic]
  constructor
  · rintro ⟨p, hp, rfl⟩
    obtain ⟨hlen, hrep⟩ := eq_replicate_iff.mp (eq_replicate_of_mem fun b hb =>
      eq_of_mem_replicate (hp.subset hb))
    have hle := hp.length_le
    rw [length_replicate] at hle
    refine ⟨n - p.length, Nat.sub_le _ _, ?_⟩
    rw [eq_replicate_of_mem fun b hb => hrep b hb, length_replicate]
    conv_rhs => rw [← Nat.sub_add_cancel hle]
    exact (derivs_atMost c p.length (n - p.length)).symm
  · rintro ⟨m, hm, rfl⟩
    refine ⟨List.replicate (n - m) c, ?_, ?_⟩
    · exact prefix_iff_eq_take.mpr (by simp [take_replicate])
    · have hderivs := derivs_atMost c (n - m) m
      rw [Nat.add_sub_cancel' hm] at hderivs
      exact hderivs.symm

theorem not_matches_atMost (c : Char) (n : ℕ) : (atMost c n).matches (List.replicate (n + 1) c) = false := by
  have hlength {k : ℕ} {w : List Char} (hw : w ∈ ({[c]} : Language Char) ^ k) : w.length = k := by
    induction k generalizing w with
    | zero => rw [pow_zero, mem_one] at hw; rw [hw]; rfl
    | succ k ih =>
      rw [pow_succ, mem_mul] at hw
      obtain ⟨x, hx, y, rfl, rfl⟩ := hw
      rw [length_append, ih hx, length_singleton]
  have hspec := (denotes_atMost c n).spec
  rw [← Bool.not_eq_true, matches_iff hspec.1, hspec.2]
  rintro ⟨k, -, hk, hw⟩
  have := hlength hw
  rw [length_replicate] at this
  have := hk n rfl
  omega

theorem accepts_atMost (c : Char) {n : ℕ} (hn : n + 1 = 2 ^ 32) :
    (RegexAutomaton.new (atMost c n)).answers [List.replicate (n + 1) c] = some [true] := by
  set r := atMost c n with hr
  set V := visited r [List.replicate n c] with hV
  have hVset : V = atMost c '' Set.Iic n := visited_atMost c n
  have hcard : V.ncard = 2 ^ 32 := by
    rw [hVset, Set.ncard_image_of_injective _ (atMost_injective c),
      Set.ncard_eq_toFinset_card', Set.toFinset_Iic, Nat.card_Iic, hn]
  have hfin : V.Finite := finite_visited _ _
  have hnone : none ∉ V := by
    rw [hVset]
    rintro ⟨m, -, hm⟩
    have := isEmpty_atMost c m
    rw [hm] at this
    cases this
  have hvisited (p : List Char) (hp : p <+: List.replicate n c) : r.derivs p ∈ V :=
    ⟨_, mem_singleton_self _, p, hp, rfl⟩
  have hnew : RegexAutomaton.Inv V r (RegexAutomaton.new r) :=
    .new (denotes_atMost c n).spec.1 (hvisited [] nil_prefix)
  have hlive (d : Regex) (hd : d ∈ V) : d.isEmpty = false := by
    rw [hVset] at hd
    obtain ⟨m, -, rfl⟩ := hd
    exact isEmpty_atMost c m
  have hinitial : (RegexAutomaton.new r).At 0 r := ⟨_, rfl, rfl⟩
  obtain ⟨state, a, hread, hinv, hat, hpre, hmem⟩ :=
    hnew.read hfin hcard.le hinitial hvisited fun p hp => .inl (hlive _ (hvisited p hp))
  have hlast : r.derivs (List.replicate n c) = epsilon := by
    have hderivs := derivs_atMost c n 0
    rwa [Nat.zero_add, atMost_zero] at hderivs
  rw [hlast] at hat
  have hfull : a.states.length = 2 ^ 32 := by
    classical
    have hset : ((a.states.map AutomatonState.regex).toFinset : Set Regex) = V := by
      ext d
      rw [Finset.mem_coe, List.mem_toFinset, List.mem_map]
      constructor
      · rintro ⟨st, hst, rfl⟩
        exact hinv.within st hst
      · rintro ⟨s, hs, p, hp, rfl⟩
        rw [mem_singleton.mp hs] at hp
        exact hmem p hp
    rw [← hcard, ← hset, Set.ncard_coe_finset, toFinset_card_of_nodup hinv.nodup, length_map]
  have hdead : epsilon.derivative c = none := by
    rw [derivative_eq_derive]
    exact derive_leaf rfl
  obtain ⟨a', hstep, hpre'⟩ := hinv.transition_full (c := c) hfull hat (by rwa [hdead])
  obtain ⟨st, hst, hregex⟩ := hinitial.mono hpre
  have haccepting : st.accepting = true := by
    rw [hinv.accepting st (mem_of_getElem? hst), hregex]
    exact isNullable_atMost c n
  have hst' := RegexAutomaton.getElem?_mono hpre' hst
  have hend : a'.acceptsFrom 0 [] = some (true, a') := by
    simp only [RegexAutomaton.acceptsFrom, hst', Option.bind_eq_bind, Option.bind_some, haccepting, Option.pure_def]
  have haccepts : (RegexAutomaton.new r).accepts (List.replicate (n + 1) c) = some (true, a') := by
    have hempty : st.regex.isEmpty = false := by
      rw [hregex]
      exact isEmpty_atMost c n
    rw [replicate_succ', RegexAutomaton.accepts]
    refine (hread [c]).trans ?_
    rw [RegexAutomaton.acceptsFrom_cons hstep hst', hempty, if_neg Bool.false_ne_true, hend]
  rw [RegexAutomaton.answers_cons haccepts]
  rfl

end

omit [UnicodeTable] in
theorem not_engine_correct :
    letI : UnicodeTable := ⟨fun _ _ => false⟩
    Denotes (atMost 'a' (2 ^ 32 - 1)) (between {['a']} 0 (some (2 ^ 32 - 1))) ∧
      (RegexAutomaton.new (atMost 'a' (2 ^ 32 - 1))).answers [List.replicate (2 ^ 32) 'a'] = some [true] ∧
      (atMost 'a' (2 ^ 32 - 1)).matches (List.replicate (2 ^ 32) 'a') = false := by
  let _ : UnicodeTable := ⟨fun _ _ => false⟩
  have hn : 2 ^ 32 - 1 + 1 = 2 ^ 32 := Nat.sub_add_cancel (Nat.one_le_two_pow)
  have haccepts := accepts_atMost 'a' hn
  have hmatches := not_matches_atMost 'a' (2 ^ 32 - 1)
  rw [hn] at haccepts hmatches
  exact ⟨denotes_atMost 'a' _, haccepts, hmatches⟩

end Regex

end Nixie.Strings
