import Mathlib.Tactic.Linarith
import Nixie.Strings.Meaning

namespace Nixie.Strings

open Language Computability Nixie.Quotient List Option

variable [UnicodeTable]

namespace Regex

section

variable {c : Char} {r : Regex}

theorem sound_unwrapOption (h : Sound r) : Sound (unwrapOption r) := by
  fun_induction unwrapOption r with
  | case1 inner n ih => exact ih (h.of_operand (mem_singleton_self inner))
  | case2 => exact h

theorem leftQuotient_unwrapOption (c : Char) (r : Regex) :
    (unwrapOption r).lang.leftQuotient [c] = r.lang.leftQuotient [c] := by
  fun_induction unwrapOption r with
  | case1 inner n ih =>
    ext w
    rw [ih, lang_mk, RegexOp.lang, mem_leftQuotient, mem_leftQuotient, mem_add, mem_one]
    simp
  | case2 => rfl

theorem leftQuotient_prod {c : Char} {d : Regex → Regex} (pre parts : List Regex) (hsound : ∀ p ∈ parts, Sound p)
    (hd : ∀ p ∈ parts, (d p).lang = p.lang.leftQuotient [c]) (w : List Char) :
    c :: w ∈ (parts.map lang).prod ↔ ∃ i ∈ takenFrom pre.length parts, ∃ p ∈ (pre ++ parts)[i]?,
    w ∈ (d p).lang * (((pre ++ parts).drop (i + 1)).map lang).prod := by
  induction parts generalizing pre with
  | nil => simp [takenFrom]
  | cons part parts ih =>
    have hget : (pre ++ part :: parts)[pre.length]? = some part := by simp
    have hdrop : (pre ++ part :: parts).drop (pre.length + 1) = parts := by
      rw [← drop_drop, drop_left, drop_one, tail_cons]
    rw [forall_mem_cons] at hsound hd
    have hrest := ih (pre ++ [part]) hsound.2 hd.2
    rw [length_append, length_singleton, append_assoc, singleton_append] at hrest
    rw [map_cons, prod_cons, cons_mem_mul, takenFrom, exists_mem_cons_iff, hget, hdrop,
      ← hd.1, mem_leftQuotient, singleton_append, hrest, ← hsound.1.nullable_iff]
    cases hn : part.nullable <;> simp

omit [UnicodeTable] in
theorem lt_of_mem_takenFrom (i : ℕ) (parts : List Regex) {k : ℕ} (hk : k ∈ takenFrom i parts) :
    k < i + parts.length := by
  induction parts generalizing i with
  | nil => cases hk
  | cons part parts ih =>
    rw [takenFrom, mem_cons] at hk
    rw [length_cons]
    rcases hk with rfl | hk
    · omega
    · split at hk
      · have := ih (i + 1) hk
        omega
      · cases hk

omit [UnicodeTable] in
theorem zip_taken (parts : List Regex) (d : Regex → Regex) {taken : List ℕ} (h : ∀ i ∈ taken, i < parts.length) :
    ((taken.filterMap (parts[·]?)).map d).zip taken = taken.filterMap fun i => parts[i]?.map fun p => (d p, i) := by
  induction taken with
  | nil => rfl
  | cons i taken ih =>
    obtain ⟨hi, htail⟩ := forall_mem_cons.mp h
    simp [getElem?_eq_getElem hi, ih htail]

theorem lang_of_isEmpty (h : r.isEmpty = true) : r.lang = 0 := by
  unfold isEmpty at h
  split at h
  · next hop => rw [lang_eq, hop, RegexOp.lang]
  · cases h

structure Derives (c : Char) (parts : List Regex) : Prop where
  sound : ∀ p ∈ parts, Sound p
  derived : ∀ p ∈ parts, Sound (derive c p)
  lang : ∀ p ∈ parts, (derive c p).lang = p.lang.leftQuotient [c]

theorem Derives.sound_map {parts : List Regex} (h : Derives c parts) : ∀ d ∈ parts.map (derive c), Sound d :=
  forall_mem_map.mpr h.derived

theorem finish_concat {parts : List Regex} (h : Derives c parts) :
    let d := (DerivFrame.mk (.concat parts (takenFrom 0 parts)) []
      (((takenFrom 0 parts).filterMap (parts[·]?)).map (derive c))).finish
    Sound d ∧ d.lang = (parts.map Regex.lang).prod.leftQuotient [c] := by
  have hmem (p : Regex) (i : ℕ) (hp : parts[i]? = some p) : p ∈ parts := mem_of_getElem? hp
  have hsound : ∀ q ∈ ((takenFrom 0 parts).filterMap fun i => parts[i]?.map fun p => (derive c p, i)).filterMap
      fun q => if q.1.isEmpty then Option.none else some (concat (q.1 :: parts.drop (q.2 + 1))), Sound q := by
    intro q hq
    obtain ⟨⟨d, i⟩, hdi, hq⟩ := mem_filterMap.mp hq
    obtain ⟨j, -, hj⟩ := mem_filterMap.mp hdi
    obtain ⟨p, hp, hpd⟩ := map_eq_some_iff.mp hj
    cases hpd
    dsimp only at hq
    split at hq
    · cases hq
    · cases hq
      refine Sound.concat (forall_mem_cons.mpr ⟨h.derived p (hmem p _ hp), fun q hq => ?_⟩)
      exact h.sound q (mem_of_mem_drop hq)
  dsimp only [DerivFrame.finish]
  rw [zip_taken parts (derive c) fun i hi => by simpa using lt_of_mem_takenFrom 0 parts hi]
  refine ⟨Sound.union hsound, ?_⟩
  ext w
  rw [mem_union hsound, mem_leftQuotient, singleton_append,
    leftQuotient_prod [] parts h.sound h.lang w, length_nil, nil_append]
  constructor
  · rintro ⟨q, hq, hw⟩
    obtain ⟨⟨d, i⟩, hdi, hq⟩ := mem_filterMap.mp hq
    obtain ⟨j, hj, hj'⟩ := mem_filterMap.mp hdi
    obtain ⟨p, hp, hpd⟩ := map_eq_some_iff.mp hj'
    cases hpd
    dsimp only at hq
    split at hq
    · cases hq
    · cases hq
      rw [lang_concat, map_cons, prod_cons] at hw
      exact ⟨_, hj, p, hp, hw⟩
  · rintro ⟨i, hi, p, hp, hw⟩
    have hne : (derive c p).isEmpty ≠ true := by
      intro hempty
      rw [lang_of_isEmpty hempty, zero_mul] at hw
      exact notMem_zero w hw
    refine ⟨concat (derive c p :: parts.drop (i + 1)), mem_filterMap.mpr
      ⟨(derive c p, i), mem_filterMap.mpr ⟨i, hi, ?_⟩, if_neg hne⟩, ?_⟩
    · rw [mem_def.mp hp, map_some]
    · rwa [lang_concat, map_cons, prod_cons]

theorem finish_suffix {inner rest : Regex} (h : Derives c [inner]) (hrest : Sound rest) :
    Sound (concat [derive c inner, rest]) ∧ (concat [derive c inner, rest]).lang =
    inner.lang.leftQuotient [c] * rest.lang := by
  refine ⟨Sound.concat fun p hp => ?_, ?_⟩
  · rcases mem_pair.mp hp with rfl | rfl
    · exact h.derived inner (mem_singleton_self inner)
    · exact hrest
  · rw [lang_concat, ← h.lang inner (mem_singleton_self inner)]
    simp

theorem finish_single {inner : Regex} (h : Derives c [inner]) :
    Sound (union [derive c inner]) ∧ (union [derive c inner]).lang = inner.lang.leftQuotient [c] := by
  have hsound : ∀ p ∈ [derive c inner], Sound p := h.sound_map
  refine ⟨Sound.union hsound, ?_⟩
  rw [← h.lang inner (mem_singleton_self inner)]
  ext w
  rw [mem_union hsound]
  simp

theorem finish_spec {node : Regex} {f : DerivFrame} (hopen : openNode c node = .frame f) (hnode : Sound node)
    (hd : Derives c node.op.operands) : Sound (DerivFrame.mk f.build [] (f.pending.map (derive c))).finish ∧
    (DerivFrame.mk f.build [] (f.pending.map (derive c))).finish.lang = node.lang.leftQuotient [c] := by
  rw [lang_eq node]
  unfold openNode at hopen
  split at hopen
  all_goals cases hopen
  case h_8 parts hop =>
    rw [hop] at hd ⊢
    exact finish_concat hd
  case h_9 parts hop =>
    rw [hop] at hd ⊢
    replace hd : Derives c parts := hd
    refine ⟨Sound.union hd.sound_map, ?_⟩
    ext w
    dsimp only [DerivFrame.finish]
    rw [mem_union hd.sound_map]
    simp only [List.mem_map, exists_exists_and_eq_and]
    exact exists_congr fun p => and_congr_right fun hp => by rw [hd.lang p hp]; rfl
  case h_10 parts hop =>
    rw [hop] at hd ⊢
    replace hd : Derives c parts := hd
    refine ⟨Sound.inter hd.sound_map, ?_⟩
    ext w
    dsimp only [DerivFrame.finish]
    rw [mem_inter hd.sound_map, List.forall_mem_map]
    exact forall₂_congr fun p hp => by rw [hd.lang p hp]; rfl
  case h_11 inner hop =>
    rw [hop] at hd ⊢
    obtain ⟨hsound, hlang⟩ := finish_single hd
    refine ⟨hsound.complement, ?_⟩
    exact (lang_complement _).trans (congrArg compl hlang)
  case h_12 inner hop =>
    have hnode' := lang_eq node
    rw [hop] at hd hnode' ⊢
    refine ⟨(finish_suffix hd hnode).1, (finish_suffix hd hnode).2.trans ?_⟩
    rw [hnode', RegexOp.lang, leftQuotient_kstar]
  case h_13 inner hop =>
    rw [hop] at hd ⊢
    have hstar := (hd.sound inner (List.mem_singleton_self inner)).star
    refine ⟨(finish_suffix hd hstar).1, (finish_suffix hd hstar).2.trans ?_⟩
    rw [lang_star, RegexOp.lang, leftQuotient_mul_kstar]
  case h_14 inner min max hop =>
    have hbound := hnode.bound_ne hop
    rw [hop] at hd ⊢
    have hrest := (hd.sound inner (List.mem_singleton_self inner)).loopBounded (min - 1) (max.map (· - 1))
    refine ⟨(finish_suffix hd hrest).1, (finish_suffix hd hrest).2.trans ?_⟩
    rw [lang_loopBounded, RegexOp.lang, leftQuotient_between hbound]
  case h_15 inner hop =>
    rw [hop] at hd ⊢
    refine ⟨(finish_single hd).1, (finish_single hd).2.trans ?_⟩
    ext w
    rw [RegexOp.lang, mem_leftQuotient, mem_leftQuotient, mem_add, mem_one]
    simp

theorem leaf_spec {node d : Regex} (hopen : openNode c node = .leaf d) :
    Sound d ∧ d.lang = node.lang.leftQuotient [c] := by
  have hletter (p : Char → Prop) [Decidable (p c)] :
      Sound (if p c then epsilon else none) ∧
        (if p c then epsilon else none).lang = (letters p).leftQuotient [c] := by
    rw [leftQuotient_letters]
    split
    · exact ⟨sound_epsilon, lang_epsilon⟩
    · exact ⟨sound_none, lang_none⟩
  rw [lang_eq node]
  unfold openNode at hopen
  split at hopen
  all_goals cases hopen
  case h_1 hop => rw [hop]; exact ⟨sound_none, lang_none.trans leftQuotient_one.symm⟩
  case h_2 hop => rw [hop]; exact ⟨sound_none, lang_none⟩
  case h_3 hop => rw [hop]; exact ⟨sound_all, lang_all⟩
  case h_4 hop => rw [hop]; exact hletter fun _ => True
  case h_5 ch hop =>
    rw [hop]
    simp only [eq_comm (a := ch)]
    exact hletter (· = ch)
  case h_6 lo hi hop => rw [hop]; exact hletter fun c => lo ≤ c ∧ c ≤ hi
  case h_7 cat hop => rw [hop]; exact hletter fun c => UnicodeTable.contains cat c = true

theorem derive_spec (c : Char) (h : Sound r) : Sound (derive c r) ∧ (derive c r).lang = r.lang.leftQuotient [c] := by
  induction hn : r.nodes using Nat.strong_induction_on generalizing r with
  | _ n ih =>
    subst hn
    have hnode := sound_unwrapOption h
    have hle := nodes_unwrapOption_le r
    rw [← leftQuotient_unwrapOption]
    cases hopen : openDerivative c r with
    | leaf d =>
      rw [derive_leaf hopen]
      exact leaf_spec hopen
    | frame f =>
      have hlt {p : Regex} (hp : p ∈ (unwrapOption r).op.operands) : p.nodes < r.nodes := by
        have := single_le_sum (fun _ _ => Nat.zero_le _) _ (mem_map_of_mem (f := nodes) hp)
        rw [nodes_eq (unwrapOption r), RegexOp.nodes] at hle
        omega
      rw [derive_frame hopen]
      refine finish_spec hopen hnode ⟨fun p hp => hnode.of_operand hp, ?_, ?_⟩
      · exact fun p hp => (ih _ (hlt hp) (hnode.of_operand hp) rfl).1
      · exact fun p hp => (ih _ (hlt hp) (hnode.of_operand hp) rfl).2

theorem Sound.derivative (h : Sound r) (c : Char) : Sound (r.derivative c) := by
  rw [derivative_eq_derive]
  exact (derive_spec c h).1

theorem lang_derivative (h : Sound r) (c : Char) : (r.derivative c).lang = r.lang.leftQuotient [c] := by
  rw [derivative_eq_derive]
  exact (derive_spec c h).2

def derivs (r : Regex) (s : List Char) : Regex :=
  s.foldl derivative r

theorem Sound.derivs (h : Sound r) (s : List Char) : Sound (r.derivs s) := by
  induction s generalizing r with
  | nil => exact h
  | cons c s ih => exact ih (h.derivative c)

theorem lang_derivs (h : Sound r) (s : List Char) : (r.derivs s).lang = r.lang.leftQuotient s := by
  induction s generalizing r with
  | nil => rfl
  | cons c s ih =>
    rw [Regex.derivs, foldl_cons]
    refine (ih (h.derivative c)).trans ?_
    rw [lang_derivative h, ← leftQuotient_append, singleton_append]

theorem matches_iff (h : Sound r) (s : List Char) : r.matches s = true ↔ s ∈ r.lang := by
  unfold «matches»
  induction s generalizing r with
  | nil => exact h.nullable_iff
  | cons c s ih =>
    have hlang : c :: s ∈ r.lang ↔ s ∈ (r.derivative c).lang := by
      rw [lang_derivative h, mem_leftQuotient, singleton_append]
    rw [matchesFrom, hlang]
    split
    · next hempty =>
      rw [lang_of_isEmpty hempty]
      exact iff_of_false Bool.false_ne_true (notMem_zero s)
    · exact ih (h.derivative c)

end

/-- `r` is built with the constructors, and its operands' languages make up `L`. -/
inductive Denotes : Regex → Language Char → Prop
  | epsilon : Denotes epsilon 1
  | none : Denotes none 0
  | all : Denotes all ⊤
  | allChar : Denotes allChar (letters fun _ => True)
  | char (c : Char) : Denotes (char c) {[c]}
  | range (lo hi : Char) : Denotes (range lo hi) (letters fun c => lo ≤ c ∧ c ≤ hi)
  | literal (s : List Char) : Denotes (literal s) {s}
  | concat {parts : List (Regex × Language Char)} (h : ∀ p ∈ parts, Denotes p.1 p.2) :
    Denotes (concat (parts.map Prod.fst)) (parts.map Prod.snd).prod
  | union {parts : List (Regex × Language Char)} (h : ∀ p ∈ parts, Denotes p.1 p.2) :
    Denotes (union (parts.map Prod.fst)) {w | ∃ p ∈ parts, w ∈ p.2}
  | inter {parts : List (Regex × Language Char)} (h : ∀ p ∈ parts, Denotes p.1 p.2) :
    Denotes (inter (parts.map Prod.fst)) {w | ∀ p ∈ parts, w ∈ p.2}
  | complement {r L} (h : Denotes r L) : Denotes (complement r) Lᶜ
  | star {r L} (h : Denotes r L) : Denotes (star r) L∗
  | plus {r L} (h : Denotes r L) : Denotes (plus r) (L * L∗)
  | option {r L} (h : Denotes r L) : Denotes (option r) (1 + L)
  | loopBounded {r L} (h : Denotes r L) (min : ℕ) (max : Option ℕ) :
    Denotes (loopBounded r min max) (between L min max)

theorem Denotes.spec {r : Regex} {L : Language Char} (h : Denotes r L) : Sound r ∧ r.lang = L := by
  have hparts {parts : List (Regex × Language Char)} (ih : ∀ p ∈ parts, Sound p.1 ∧ p.1.lang = p.2) :
      ∀ r ∈ parts.map Prod.fst, Sound r :=
    List.forall_mem_map.mpr fun p hp => (ih p hp).1
  induction h with
  | epsilon => exact ⟨sound_epsilon, lang_epsilon⟩
  | none => exact ⟨sound_none, lang_none⟩
  | all => exact ⟨sound_all, lang_all⟩
  | allChar => exact ⟨sound_allChar, lang_mk _ _⟩
  | char c =>
    refine ⟨sound_char c, (lang_mk _ _).trans ?_⟩
    ext w
    simp only [RegexOp.lang, mem_letters, exists_eq_left]
    rfl
  | range lo hi => exact ⟨sound_range lo hi, lang_range lo hi⟩
  | literal s => exact ⟨sound_literal s, lang_literal s⟩
  | concat h ih =>
    refine ⟨Sound.concat (hparts ih), ?_⟩
    rw [lang_concat, List.map_map]
    exact congrArg List.prod (List.map_congr_left fun p hp => (ih p hp).2)
  | union h ih =>
    refine ⟨Sound.union (hparts ih), ?_⟩
    ext w
    rw [mem_union (hparts ih)]
    simp only [List.mem_map, exists_exists_and_eq_and]
    exact exists_congr fun p => and_congr_right fun hp => by rw [(ih p hp).2]
  | inter h ih =>
    refine ⟨Sound.inter (hparts ih), ?_⟩
    ext w
    rw [mem_inter (hparts ih), List.forall_mem_map]
    exact forall₂_congr fun p hp => by rw [(ih p hp).2]
  | complement h ih => exact ⟨ih.1.complement, by rw [lang_complement, ih.2]⟩
  | star h ih => exact ⟨ih.1.star, by rw [lang_star, ih.2]⟩
  | plus h ih => exact ⟨ih.1.plus, by rw [lang_plus, ih.2]⟩
  | option h ih => exact ⟨ih.1.option, by rw [lang_option ih.1, ih.2]⟩
  | loopBounded h min max ih => exact ⟨ih.1.loopBounded min max, by rw [lang_loopBounded, ih.2]⟩

end Regex

end Nixie.Strings

namespace Nixie.Strings

open List Option

variable [UnicodeTable]

structure Atoms where
  endpoints : List Char := []
  ranges : List (Char × Char) := []
  hasUnicodeClass : Bool := false

def collectLoop (atoms : Atoms) : List Regex → Atoms
  | [] => atoms
  | node :: stack =>
    match node with
    | .mk (.char c) _ => collectLoop { atoms with endpoints := atoms.endpoints ++ [c] } stack
    | .mk (.range lo hi) _ =>
      collectLoop { atoms with endpoints := atoms.endpoints ++ [lo, hi], ranges := atoms.ranges ++ [(lo, hi)] }
        stack
    | .mk (.unicodeClass _) _ => collectLoop { atoms with hasUnicodeClass := true } stack
    | .mk op _ => collectLoop atoms (op.operands ++ stack)
termination_by stack => (stack.map Regex.nodes).sum
decreasing_by
  all_goals simp only [map_cons, sum_cons, map_append, sum_append, Regex.nodes_eq (.mk _ _),
    Regex.op_mk, RegexOp.nodes]
  all_goals omega

def collectAtoms (r : Regex) : Atoms :=
  collectLoop {} [r]

def charFromU32 (n : ℕ) : Option Char :=
  if h : n.isValidChar then some (Char.ofNatAux n h) else none

def nextChar (c : Char) : Option Char :=
  let n := c.toNat + 1
  let n := if n = 0xD800 then 0xE000 else n
  charFromU32 n

def Atoms.uncovered (atoms : Atoms) (c : Char) : Bool :=
  !atoms.endpoints.contains c && !atoms.ranges.any fun p => p.1 ≤ c && c ≤ p.2

def pickFresh (atoms : Atoms) : Option Char :=
  match ['a', 'b', 'c', '0', '1', 'x', 'y', 'z', ' ', '!'].find? atoms.uncovered with
  | some c => some c
  | none =>
    (List.range' 0x20 (0x10FFFF + 1 - 0x20)).findSome? fun cp =>
      if 0xD800 ≤ cp ∧ cp ≤ 0xDFFF then none else (charFromU32 cp).filter atoms.uncovered

def buildAlphabet (r : Regex) : List Char × Bool :=
  let atoms := collectAtoms r
  let candidates := atoms.endpoints.flatMap (fun e => e :: (nextChar e).toList) ++ (pickFresh atoms).toList
  (candidates.eraseDups, !atoms.hasUnicodeClass)

inductive WordSearch
  | found (word : List Char)
  | empty
  | unknown
  deriving DecidableEq

structure Bounds where
  alphabet : List Char
  complete : Bool
  lenLo : ℕ
  lenHi : Option ℕ
  maxStates : ℕ
  maxLen : ℕ

namespace Bounds

def bounded (b : Bounds) : Bool :=
  b.lenLo > 0 || b.lenHi.isSome

def depthCap (b : Bounds) : ℕ :=
  match b.lenHi with
  | some h => min h b.maxLen
  | none => b.maxLen

def key (b : Bounds) (depth : ℕ) : ℕ :=
  if b.bounded then depth else 0

def inWindow (b : Bounds) (depth : ℕ) : Bool :=
  decide (b.lenLo ≤ depth) && b.lenHi.all (depth ≤ ·)

def successors (b : Bounds) (state : Regex) (word : List Char) : List (Regex × List Char) :=
  b.alphabet.filterMap fun c =>
    let deriv := state.derivative c
    if deriv.isEmpty then none else some (deriv, word ++ [c])

def searchLoop (b : Bounds) (visited : List (Regex × ℕ)) (hitCap : Bool) :
    List (Regex × List Char) → WordSearch
  | [] => if !b.complete || hitCap then .unknown else .empty
  | (state, word) :: queue =>
    let depth := word.length
    if visited.any fun e => e.1 == state && e.2 == b.key depth then b.searchLoop visited hitCap queue
    else if visited.length + 1 > b.maxStates then .unknown
    else if state.isNullable && b.inWindow depth then .found word
    else
      let visited' := (state, b.key depth) :: visited
      if state.isEmpty then b.searchLoop visited' hitCap queue
      else if depth ≥ b.depthCap then b.searchLoop visited' true queue
      else b.searchLoop visited' hitCap (queue ++ b.successors state word)
termination_by queue => (b.maxStates - visited.length, queue.length)
decreasing_by
  · exact Prod.Lex.right _ (by simp)
  all_goals exact Prod.Lex.left _ _ (by simp only [length_cons]; omega)

end Bounds

def searchWord (r : Regex) (lenLo : ℕ) (lenHi : Option ℕ) (maxStates maxLen : ℕ) : WordSearch :=
  let (alphabet, complete) := buildAlphabet r
  Bounds.searchLoop ⟨alphabet, complete, lenLo, lenHi, maxStates, maxLen⟩ [] false [(r, [])]

abbrev TermId := ℕ

structure Membership where
  positive : Bool
  regex : Regex
  origin : TermId

inductive VarModel
  | assign (word : List Char)
  | conflict (origins : List TermId)
  | undecided

def maxRegexStates : ℕ := 4000
def maxRegexWordLen : ℕ := 4096

def combined (memberships : List Membership) : Regex :=
  Regex.inter (memberships.map fun m => if m.positive then m.regex else Regex.complement m.regex)

def solveMembership (memberships : List Membership) (lenLo : ℕ) (lenHi : Option ℕ)
    (extraOrigins : List TermId) : VarModel :=
  match searchWord (combined memberships) lenLo lenHi maxRegexStates maxRegexWordLen with
  | .found word => .assign word
  | .empty => .conflict (memberships.map Membership.origin ++ extraOrigins)
  | .unknown => .undecided

section

open Language Computability

variable {r state : Regex} {L : Language Char} {chars t out : List Char}
  {offset minLen len budget left fuel : ℕ}

inductive ReplaceReMode
  | first
  | all

def maxReplaceReSteps : ℕ := 2 ^ 20

/-- The characters after the first `offset`; nothing at all once the budget is used up. -/
def shortestMatchFrom (minLen : ℕ) : Regex → ℕ → List Char → ℕ → Option (Option ℕ × ℕ)
  | _, _, [], budget => some (none, budget)
  | state, offset, c :: cs, budget =>
    if budget = 0 then none
    else
      let state := state.derivative c
      if state.isEmpty then some (none, budget - 1)
      else if minLen ≤ offset + 1 ∧ state.isNullable then some (some (offset + 1), budget - 1)
      else shortestMatchFrom minLen state (offset + 1) cs (budget - 1)

def shortestMatchAt (r : Regex) (chars : List Char) (minLen budget : ℕ) : Option (Option ℕ × ℕ) :=
  if minLen = 0 ∧ r.isNullable then some (some 0, budget) else shortestMatchFrom minLen r 0 chars budget

def replaceFirst (r : Regex) (t : List Char) : List Char → ℕ → Option (List Char)
  | [], budget => do
    let (found, _) ← shortestMatchAt r [] 0 budget
    return if found.isSome then t else []
  | c :: cs, budget => do
    let (found, budget) ← shortestMatchAt r (c :: cs) 0 budget
    match found with
    | some len => return t ++ (c :: cs).drop len
    | none => (replaceFirst r t cs budget).map (c :: ·)

def replaceAll (r : Regex) (t : List Char) : ℕ → List Char → ℕ → Option (List Char)
  | _, [], _ => some []
  | 0, _, _ => some []
  | fuel + 1, c :: cs, budget => do
    let (found, budget) ← shortestMatchAt r (c :: cs) 1 budget
    match found with
    | some len => (replaceAll r t fuel ((c :: cs).drop len) budget).map (t ++ ·)
    | none => (replaceAll r t fuel cs budget).map (c :: ·)

def replaceRe (s : List Char) (r : Regex) (t : List Char) : ReplaceReMode → Option (List Char)
  | .first => replaceFirst r t s maxReplaceReSteps
  | .all => replaceAll r t s.length s maxReplaceReSteps

def Shortest (L : Language Char) (chars : List Char) (minLen : ℕ) : Option ℕ → Prop
  | some len => minLen ≤ len ∧ len ≤ chars.length ∧ chars.take len ∈ L ∧ ∀ j, minLen ≤ j → j < len → chars.take j ∉ L
  | none => ∀ j, minLen ≤ j → j ≤ chars.length → chars.take j ∉ L

theorem shortestMatchFrom_spec (h : Regex.Sound state) (hmin : minLen ≤ offset + 1) {found : Option ℕ}
    (hrun : shortestMatchFrom minLen state offset chars budget = some (found, left)) :
    ∃ k, found = k.map (offset + ·) ∧ Shortest state.lang chars 1 k := by
  induction chars generalizing state offset budget with
  | nil =>
    cases hrun
    exact ⟨none, rfl, fun j hj hle => absurd (hj.trans hle) (by simp)⟩
  | cons c cs ih =>
    have hlang : ∀ j, (c :: cs).take (j + 1) ∈ state.lang ↔ cs.take j ∈ (state.derivative c).lang := fun j => by
      rw [Regex.lang_derivative h, mem_leftQuotient, singleton_append, take_succ_cons]
    have hnullable : (state.derivative c).isNullable = true ↔ [c] ∈ state.lang := by
      have hempty := hlang 0
      rw [take_zero, take_succ_cons, take_zero] at hempty
      exact (h.derivative c).nullable_iff.trans hempty.symm
    rw [shortestMatchFrom] at hrun
    dsimp only at hrun
    split_ifs at hrun with hbudget hempty hfound
    · cases hrun
      refine ⟨none, rfl, fun j hj _ => ?_⟩
      obtain ⟨j, rfl⟩ := Nat.exists_eq_add_of_le' hj
      rw [hlang, Regex.lang_of_isEmpty hempty]
      exact notMem_zero _
    · cases hrun
      exact ⟨some 1, rfl, le_rfl, by simp, by simpa using hnullable.mp hfound.2,
        fun j hj hlt => absurd hj (not_le.mpr hlt)⟩
    · have hnot : [c] ∉ state.lang := fun hmem => hfound ⟨hmin, hnullable.mpr hmem⟩
      obtain ⟨k, rfl, hk⟩ := ih (h.derivative c) (hmin.trans (Nat.le_succ _)) hrun
      refine ⟨k.map (1 + ·), by cases k <;> simp [Nat.add_assoc], ?_⟩
      cases k with
      | none =>
        intro j hj hle
        obtain ⟨j, rfl⟩ := Nat.exists_eq_add_of_le' hj
        rw [hlang]
        by_cases hzero : j = 0
        · subst hzero
          rw [← hlang]
          simpa using hnot
        · exact hk j (by omega) (by simpa using hle)
      | some k =>
        obtain ⟨hpos, hle, hmem, hshort⟩ := hk
        rw [map_some, Nat.add_comm]
        refine ⟨by omega, by simpa using hle, (hlang k).mpr hmem, fun j hj hlt => ?_⟩
        obtain ⟨j, rfl⟩ := Nat.exists_eq_add_of_le' hj
        rw [hlang]
        by_cases hzero : j = 0
        · subst hzero
          rw [← hlang]
          simpa using hnot
        · exact hshort j (by omega) (by omega)

theorem shortestMatchAt_spec (h : Regex.Denotes r L) (hmin : minLen ≤ 1) {found : Option ℕ}
    (hrun : shortestMatchAt r chars minLen budget = some (found, left)) : Shortest L chars minLen found := by
  obtain ⟨hsound, rfl⟩ := h.spec
  have hnil : r.isNullable = true ↔ chars.take 0 ∈ r.lang := hsound.nullable_iff
  unfold shortestMatchAt at hrun
  split_ifs at hrun with hzero
  · cases hrun
    exact ⟨hzero.1.le, Nat.zero_le _, hnil.mp hzero.2, fun j _ hj => absurd hj (Nat.not_lt_zero j)⟩
  · obtain ⟨k, rfl, hk⟩ := shortestMatchFrom_spec hsound (by omega) hrun
    have hnot : ∀ j, minLen ≤ j → ¬ 1 ≤ j → chars.take j ∉ r.lang := fun j hj hlt hmem => by
      obtain rfl : j = 0 := by omega
      exact hzero ⟨by omega, hnil.mpr hmem⟩
    cases k with
    | none => exact fun j hj hle => if hpos : 1 ≤ j then hk j hpos hle else hnot j hj hpos
    | some k =>
      obtain ⟨hpos, hle, hmem, hshort⟩ := hk
      rw [map_some, Nat.zero_add]
      exact ⟨by omega, hle, hmem, fun j hj hlt => if hpos : 1 ≤ j then hshort j hpos hlt else hnot j hj hpos⟩

theorem shortestMatchFrom_left (minLen : ℕ) (state : Regex) (offset : ℕ) (h : chars.length ≤ budget) : ∃ found left,
    shortestMatchFrom minLen state offset chars budget = some (found, left) ∧ budget ≤ left + chars.length := by
  induction chars generalizing state offset budget with
  | nil => exact ⟨none, budget, rfl, le_rfl⟩
  | cons c cs ih =>
    rw [length_cons] at h
    rw [shortestMatchFrom, if_neg (by omega)]
    dsimp only
    split_ifs
    · exact ⟨_, _, rfl, by simp; omega⟩
    · exact ⟨_, _, rfl, by simp; omega⟩
    · obtain ⟨found, left, hrun, hleft⟩ := ih (state.derivative c) (offset + 1) (show cs.length ≤ budget - 1 by omega)
      exact ⟨found, left, hrun, by simp; omega⟩

theorem shortestMatchAt_left (r : Regex) (minLen : ℕ) (h : chars.length ≤ budget) : ∃ found left,
    shortestMatchAt r chars minLen budget = some (found, left) ∧ budget ≤ left + chars.length := by
  unfold shortestMatchAt
  split_ifs
  · exact ⟨_, _, rfl, Nat.le_add_right _ _⟩
  · exact shortestMatchFrom_left minLen r 0 h

def withinBudget (chars : List Char) (budget : ℕ) : Prop :=
  chars.length * (chars.length + 1) ≤ 2 * budget

omit [UnicodeTable] in
theorem withinBudget.length_le (h : withinBudget chars budget) : chars.length ≤ budget := by
  unfold withinBudget at h
  nlinarith

omit [UnicodeTable] in
theorem withinBudget.drop {c : Char} {cs rest : List Char} (h : withinBudget (c :: cs) budget)
    (hleft : budget ≤ left + (c :: cs).length) (hrest : rest.length ≤ cs.length) : withinBudget rest left := by
  unfold withinBudget at h ⊢
  rw [length_cons] at h hleft
  nlinarith

theorem replaceFirst_isSome (s : List Char) (h : withinBudget s budget) : (replaceFirst r t s budget).isSome := by
  obtain ⟨found, left, hfound, hleft⟩ := shortestMatchAt_left r 0 h.length_le
  induction s generalizing budget found left with
  | nil => simp [replaceFirst, hfound]
  | cons c cs ih =>
    cases found with
    | some len => simp [replaceFirst, hfound]
    | none =>
      have hrest := h.drop hleft le_rfl
      obtain ⟨found, left, hnext, hle⟩ := shortestMatchAt_left r 0 hrest.length_le
      simpa [replaceFirst, hfound] using ih hrest found left hnext hle

theorem replaceAll_isSome (h : Regex.Denotes r L) (s : List Char) (hbudget : withinBudget s budget) :
    (replaceAll r t fuel s budget).isSome := by
  induction fuel generalizing s budget with
  | zero => cases s <;> rfl
  | succ fuel ih =>
    cases s with
    | nil => rfl
    | cons c cs =>
      obtain ⟨found, left, hfound, hleft⟩ := shortestMatchAt_left r 1 hbudget.length_le
      cases found with
      | some len =>
        have hpos := (shortestMatchAt_spec h le_rfl hfound).1
        simpa [replaceAll, hfound] using ih _ (hbudget.drop hleft (by simpa using by omega))
      | none => simpa [replaceAll, hfound] using ih _ (hbudget.drop hleft le_rfl)

omit [UnicodeTable] in
theorem Shortest.not_mem {minLen : ℕ} (h : Shortest L chars minLen none) {k : ℕ} (hk : minLen ≤ k)
    (hlen : minLen ≤ chars.length) : chars.take k ∉ L := by
  rcases Nat.le_total k chars.length with hle | hle
  · exact h k hk hle
  · rw [take_of_length_le hle, ← take_length (l := chars)]
    exact h chars.length hlen le_rfl

/-- The leftmost match is replaced, the shortest one there; without a match the string stays. -/
def ReplacedFirst (L : Language Char) (t s out : List Char) : Prop :=
  (∃ i len, i + len ≤ s.length ∧ (s.drop i).take len ∈ L ∧ out = s.take i ++ t ++ s.drop (i + len) ∧
    (∀ j < i, ∀ k, (s.drop j).take k ∉ L) ∧ ∀ k < len, (s.drop i).take k ∉ L) ∨
  (∀ j k, (s.drop j).take k ∉ L) ∧ out = s

theorem replaceFirst_spec (h : Regex.Denotes r L) (s : List Char) (hrun : replaceFirst r t s budget = some out) :
    ReplacedFirst L t s out := by
  induction s generalizing budget out with
  | nil =>
    obtain ⟨⟨found, left⟩, hfound, hout⟩ := bind_eq_some_iff.mp hrun
    have hspec := shortestMatchAt_spec h (Nat.zero_le 1) hfound
    cases found with
    | none =>
      refine .inr ⟨fun j k => ?_, (some.inj hout).symm⟩
      simpa using hspec.not_mem (Nat.zero_le 0) (Nat.zero_le _)
    | some len =>
      obtain ⟨-, hle, hmem, hshort⟩ := hspec
      obtain rfl : len = 0 := by simpa using hle
      exact .inl ⟨0, 0, le_rfl, hmem, by simpa using (some.inj hout).symm, by simp, by simp⟩
  | cons c cs ih =>
    obtain ⟨⟨found, left⟩, hfound, hout⟩ := bind_eq_some_iff.mp hrun
    have hspec := shortestMatchAt_spec h (Nat.zero_le 1) hfound
    cases found with
    | some len =>
      obtain ⟨-, hle, hmem, hshort⟩ := hspec
      exact .inl ⟨0, len, by simpa using hle, hmem, by simpa using (some.inj hout).symm, by simp,
        fun k hk => hshort k (Nat.zero_le _) hk⟩
    | none =>
      have hnone : ∀ k, (c :: cs).take k ∉ L := fun k => hspec.not_mem (Nat.zero_le _) (Nat.zero_le _)
      obtain ⟨out, hrest, rfl⟩ := map_eq_some_iff.mp hout
      rcases ih hrest with ⟨i, len, hle, hmem, rfl, hleft, hshort⟩ | ⟨hnot, rfl⟩
      · refine .inl ⟨i + 1, len, by simp; omega, hmem, by simp [Nat.add_right_comm], fun j hj k => ?_, hshort⟩
        cases j with
        | zero => exact hnone k
        | succ j => exact hleft j (by omega) k
      · refine .inr ⟨fun j k => ?_, rfl⟩
        cases j with
        | zero => exact hnone k
        | succ j => exact hnot j k

/-- Replacing once is as the theory of strings says, and no string within the budget is given up. -/
theorem replaceRe_first (h : Regex.Denotes r L) (s t : List Char) :
    (withinBudget s maxReplaceReSteps → (replaceRe s r t .first).isSome) ∧
      ∀ out, replaceRe s r t .first = some out → ReplacedFirst L t s out :=
  ⟨replaceFirst_isSome s, fun _ => replaceFirst_spec h s⟩

omit [UnicodeTable] in
theorem replaceRe_first_stars : letI : UnicodeTable := ⟨fun _ _ => false⟩
    ∃ out, replaceRe ['b', 'a'] (Regex.plus (Regex.char 'a')) ['c'] .first = some out ∧
      ReplacedFirst ({['a']} * {['a']}∗) ['c'] ['b', 'a'] out := by
  let _ : UnicodeTable := ⟨fun _ _ => false⟩
  obtain ⟨hgiven, hspec⟩ := replaceRe_first (Regex.Denotes.char 'a').plus ['b', 'a'] ['c']
  obtain ⟨out, hout⟩ := isSome_iff_exists.mp (hgiven (by norm_num [withinBudget, maxReplaceReSteps]))
  exact ⟨out, hout, hspec out hout⟩

/-- From left to right each shortest match that is not empty is replaced, and other characters stay. -/
inductive Replaced (L : Language Char) (t : List Char) : List Char → List Char → Prop
  | nil : Replaced L t [] []
  | hit {chars out : List Char} {len : ℕ} (h : Shortest L chars 1 (some len))
      (hrest : Replaced L t (chars.drop len) out) :
    Replaced L t chars (t ++ out)
  | skip {c : Char} {cs out : List Char} (h : ∀ k, 1 ≤ k → (c :: cs).take k ∉ L) (hrest : Replaced L t cs out) :
    Replaced L t (c :: cs) (c :: out)

theorem replaceAll_spec (h : Regex.Denotes r L) (hfuel : chars.length ≤ fuel)
    (hrun : replaceAll r t fuel chars budget = some out) : Replaced L t chars out := by
  induction fuel generalizing chars budget out with
  | zero =>
    obtain rfl := length_eq_zero_iff.mp (Nat.le_zero.mp hfuel)
    cases hrun
    exact .nil
  | succ fuel ih =>
    cases chars with
    | nil =>
      cases hrun
      exact .nil
    | cons c cs =>
      obtain ⟨⟨found, left⟩, hfound, hout⟩ := bind_eq_some_iff.mp hrun
      have hspec := shortestMatchAt_spec h le_rfl hfound
      rw [length_cons] at hfuel
      cases found with
      | some len =>
        obtain ⟨out, hrest, rfl⟩ := map_eq_some_iff.mp hout
        have hpos := hspec.1
        exact .hit hspec (ih (by simp; omega) hrest)
      | none =>
        obtain ⟨out, hrest, rfl⟩ := map_eq_some_iff.mp hout
        exact .skip (fun k hk => hspec.not_mem hk (by simp)) (ih (by omega) hrest)

theorem replaceRe_all (h : Regex.Denotes r L) (s t : List Char) :
    (withinBudget s maxReplaceReSteps → (replaceRe s r t .all).isSome) ∧
      ∀ out, replaceRe s r t .all = some out → Replaced L t s out :=
  ⟨replaceAll_isSome h s, fun _ => replaceAll_spec h le_rfl⟩

omit [UnicodeTable] in
theorem replaceRe_all_stars : letI : UnicodeTable := ⟨fun _ _ => false⟩
    ∃ out, replaceRe ['a', 'b'] (Regex.star (Regex.char 'a')) ['c'] .all = some out ∧
      Replaced {['a']}∗ ['c'] ['a', 'b'] out := by
  let _ : UnicodeTable := ⟨fun _ _ => false⟩
  obtain ⟨hgiven, hspec⟩ := replaceRe_all (Regex.Denotes.char 'a').star ['a', 'b'] ['c']
  obtain ⟨out, hout⟩ := isSome_iff_exists.mp (hgiven (by norm_num [withinBudget, maxReplaceReSteps]))
  exact ⟨out, hout, hspec out hout⟩

end

end Nixie.Strings
