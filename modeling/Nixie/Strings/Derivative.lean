import Nixie.Strings.Regex

namespace Nixie.Strings

open List

namespace Regex

inductive DerivBuild
  | concat (parts : List Regex) (taken : List ℕ)
  | union
  | inter
  | complement
  | suffix (rest : Regex)

/-- One pending node of the derivative walk; the operands still to differentiate stand in operand order. -/
structure DerivFrame where
  build : DerivBuild
  pending : List Regex
  done : List Regex

def DerivFrame.finish (f : DerivFrame) : Regex :=
  match f.build with
  | .concat parts taken =>
    Regex.union ((f.done.zip taken).filterMap fun (d, i) =>
      if d.isEmpty then Option.none else some (Regex.concat (d :: parts.drop (i + 1))))
  | .union => Regex.union f.done
  | .inter => Regex.inter f.done
  | .complement => Regex.complement (Regex.union f.done)
  | .suffix rest => Regex.concat (f.done ++ [rest])

inductive DerivOpened
  | leaf (r : Regex)
  | frame (f : DerivFrame)

def unwrapOption : Regex → Regex
  | mk (.option inner) _ => unwrapOption inner
  | mk op n => mk op n

def takenFrom (i : ℕ) : List Regex → List ℕ
  | [] => []
  | part :: parts => i :: if part.nullable then takenFrom (i + 1) parts else []

theorem nodes_unwrapOption_le (r : Regex) : (unwrapOption r).nodes ≤ r.nodes := by
  fun_induction unwrapOption r with
  | case1 inner n ih =>
    rw [nodes_eq (mk _ n)]
    simp only [op_mk, RegexOp.nodes, RegexOp.operands, map_cons, map_nil, sum_cons, sum_nil]
    omega
  | case2 op n => exact Nat.le_refl _

theorem filterMap_takenFrom (pre parts : List Regex) :
    ∃ k, (takenFrom pre.length parts).filterMap ((pre ++ parts)[·]?) = parts.take k := by
  induction parts generalizing pre with
  | nil => exact ⟨0, rfl⟩
  | cons part parts ih =>
    have hget : (pre ++ part :: parts)[pre.length]? = some part := by simp
    obtain ⟨k, hk⟩ := ih (pre ++ [part])
    rw [length_append, length_singleton, append_assoc, singleton_append] at hk
    rw [takenFrom, filterMap_cons_some hget]
    split
    · exact ⟨k + 1, by rw [hk, take_succ_cons]⟩
    · exact ⟨1, by simp⟩

theorem sum_nodes_take_le (parts : List Regex) (k : ℕ) : ((parts.take k).map nodes).sum ≤ (parts.map nodes).sum :=
  List.Sublist.sum_le_sum ((take_sublist k parts).map nodes) fun _ _ => Nat.zero_le _

theorem nodes_pos (r : Regex) : 0 < r.nodes := by
  rw [nodes_eq, RegexOp.nodes]
  omega

def derivCost (frames : List DerivFrame) : ℕ :=
  (frames.map fun f => 1 + 2 * (f.pending.map nodes).sum).sum

@[simp] theorem derivCost_cons (f : DerivFrame) (frames : List DerivFrame) :
    derivCost (f :: frames) = 1 + 2 * (f.pending.map nodes).sum + derivCost frames := by
  simp [derivCost]

variable [UnicodeTable]

def openNode (c : Char) (node : Regex) : DerivOpened :=
  match node.op with
  | .epsilon | .none => .leaf none
  | .all => .leaf all
  | .allChar => .leaf epsilon
  | .char ch => .leaf (if ch = c then epsilon else none)
  | .range lo hi => .leaf (if c ≥ lo ∧ c ≤ hi then epsilon else none)
  | .unicodeClass cat => .leaf (if UnicodeTable.contains cat c then epsilon else none)
  | .concat parts =>
    let taken := takenFrom 0 parts
    .frame ⟨.concat parts taken, taken.filterMap (parts[·]?), []⟩
  | .union parts => .frame ⟨.union, parts, []⟩
  | .inter parts => .frame ⟨.inter, parts, []⟩
  | .complement inner => .frame ⟨.complement, [inner], []⟩
  | .star inner => .frame ⟨.suffix node, [inner], []⟩
  | .plus inner => .frame ⟨.suffix (star inner), [inner], []⟩
  | .loop inner min max =>
    .frame ⟨.suffix (loopBounded inner (min - 1) (max.map (· - 1))), [inner], []⟩
  | .option inner => .frame ⟨.union, [inner], []⟩

def openDerivative (c : Char) (node : Regex) : DerivOpened :=
  openNode c (unwrapOption node)

variable {f : DerivFrame} {c : Char} {r : Regex}

theorem openDerivative_nodes (h : openDerivative c r = .frame f) : (f.pending.map nodes).sum < r.nodes := by
  have hle := nodes_unwrapOption_le r
  rw [nodes_eq (unwrapOption r), RegexOp.nodes] at hle
  unfold openDerivative openNode at h
  split at h
  all_goals cases h
  case h_8 parts hop =>
    obtain ⟨k, hk⟩ := filterMap_takenFrom [] parts
    have := sum_nodes_take_le parts k
    simp only [length_nil, nil_append] at hk
    rw [hop, RegexOp.operands] at hle
    simp only [hk]
    omega
  all_goals
    rename_i hop
    rw [hop, RegexOp.operands] at hle
    dsimp only at hle ⊢
    omega

/-- The explicit-stack driver; `carry` is a finished derivative on its way to the frame that asked for it. -/
def derivLoop (c : Char) : List DerivFrame → Option Regex → Regex
  | [], carry => carry.getD none
  | ⟨build, child :: pending, done⟩ :: frames, carry =>
    match h : openDerivative c child with
    | .leaf r => derivLoop c (⟨build, pending, done ++ carry.toList⟩ :: frames) (some r)
    | .frame f => derivLoop c (f :: ⟨build, pending, done ++ carry.toList⟩ :: frames) Option.none
  | ⟨build, [], done⟩ :: frames, carry =>
    derivLoop c frames (some (DerivFrame.mk build [] (done ++ carry.toList)).finish)
termination_by frames _ => derivCost frames
decreasing_by
  · have := nodes_pos child
    simp
    omega
  · have := openDerivative_nodes h
    simp
    omega
  · simp

def derivative (r : Regex) (c : Char) : Regex :=
  match openDerivative c r with
  | .leaf d => d
  | .frame f => derivLoop c [f] Option.none

def matchesFrom (current : Regex) : List Char → Bool
  | [] => current.isNullable
  | c :: s =>
    let current := current.derivative c
    if current.isEmpty then false else matchesFrom current s

def «matches» (r : Regex) (s : List Char) : Bool :=
  r.matchesFrom s

def derive (c : Char) (r : Regex) : Regex :=
  match h : openDerivative c r with
  | .leaf d => d
  | .frame f => (DerivFrame.mk f.build [] (f.pending.attach.map fun p => derive c p.1)).finish
termination_by r.nodes
decreasing_by
  have := openDerivative_nodes h
  have hmem : p.1.nodes ∈ f.pending.map nodes := mem_map_of_mem p.2
  have := single_le_sum (fun _ _ => Nat.zero_le _) _ hmem
  omega

theorem derive_leaf {d : Regex} (h : openDerivative c r = .leaf d) : derive c r = d := by
  rw [derive]
  split
  · next h' => rw [h] at h'; cases h'; rfl
  · next h' => rw [h] at h'; cases h'

theorem derive_frame (h : openDerivative c r = .frame f) :
    derive c r = (DerivFrame.mk f.build [] (f.pending.map (derive c))).finish := by
  rw [derive]
  split
  · next h' => rw [h] at h'; cases h'
  · next h' =>
    rw [h] at h'
    cases h'
    rw [attach_map_val]

theorem openDerivative_done (h : openDerivative c r = .frame f) : f.done = [] := by
  unfold openDerivative openNode at h
  split at h
  all_goals cases h
  all_goals rfl

theorem derivLoop_cons (c : Char) (f : DerivFrame) (frames : List DerivFrame) (carry : Option Regex) :
    derivLoop c (f :: frames) carry = derivLoop c frames
    (some (DerivFrame.mk f.build [] (f.done ++ carry.toList ++ f.pending.map (derive c))).finish) := by
  induction hn : derivCost (f :: frames) using Nat.strong_induction_on
    generalizing f frames carry with
  | _ n ih =>
    obtain ⟨build, pending, done⟩ := f
    cases pending with
    | nil =>
      rw [derivLoop]
      simp [DerivFrame.finish]
    | cons child pending =>
      have hpos := nodes_pos child
      subst hn
      rw [derivLoop]
      split
      · next d hopen =>
        rw [ih _ (by simp; omega) _ _ _ rfl, map_cons, derive_leaf hopen]
        simp
      · next g hopen =>
        have hcost := openDerivative_nodes hopen
        rw [ih _ (by simp; omega) g _ _ rfl, ih _ (by simp; omega) _ _ _ rfl, map_cons,
          derive_frame hopen, openDerivative_done hopen]
        simp

theorem derivative_eq_derive (r : Regex) (c : Char) : r.derivative c = derive c r := by
  unfold derivative
  split
  · next d h => exact (derive_leaf h).symm
  · next f h =>
    rw [derivLoop_cons, derive_frame h, openDerivative_done h]
    simp [derivLoop]

end Regex

end Nixie.Strings
