import Nixie.Opt.Totalizer

namespace Nixie.Opt

open Literal Nixie.Sat List Option Function

variable {σ τ : ℕ → Bool} {n m : ℕ}

namespace TotalizerNode

section

def inputs : TotalizerNode → List ℕ
  | empty => []
  | leaf lit => [lit]
  | internal _ left right => left.inputs ++ right.inputs

theorem size_eq (node : TotalizerNode) : node.size = node.inputs.length := by
  induction node with
  | empty => rfl
  | leaf lit => rfl
  | internal outputs left right ihl ihr => rw [size, inputs, length_append, ihl, ihr]

def Valid (n : ℕ) : TotalizerNode → Prop
  | empty => True
  | leaf lit => lit / 2 < n
  | internal outputs left right => outputs.length = left.size + right.size ∧
      (∀ lit, some lit ∈ outputs → lit / 2 < n) ∧ left.Valid n ∧ right.Valid n

def Interprets (τ : ℕ → Bool) : TotalizerNode → Prop
  | internal outputs left right =>
    (∀ i lit, outputs[i]? = some (some lit) →
      (isTrue τ lit ↔ i < trueCount τ (left.inputs ++ right.inputs))) ∧
      left.Interprets τ ∧ right.Interprets τ
  | _ => True

def Forced (τ : ℕ → Bool) : TotalizerNode → Prop
  | internal outputs left right =>
    (∀ i lit, outputs[i]? = some (some lit) →
      i < trueCount τ (left.inputs ++ right.inputs) → isTrue τ lit) ∧ left.Forced τ ∧ right.Forced τ
  | _ => True

variable {node left right : TotalizerNode} {outputs : List (Option ℕ)} {k lit : ℕ}

theorem Valid.mono (h : node.Valid n) (hnm : n ≤ m) : node.Valid m := by
  induction node with
  | empty => trivial
  | leaf lit => exact Nat.lt_of_lt_of_le h hnm
  | internal outputs left right ihl ihr =>
    exact ⟨h.1, fun lit hlit => (h.2.1 lit hlit).trans_le hnm, ihl h.2.2.1, ihr h.2.2.2⟩

theorem Valid.below_inputs (h : node.Valid n) : Below n node.inputs := by
  induction node with
  | empty => exact fun lit hlit => nomatch hlit
  | leaf lit => exact forall_mem_singleton.mpr h
  | internal outputs left right ihl ihr => exact forall_mem_append.mpr ⟨ihl h.2.2.1, ihr h.2.2.2⟩

theorem Interprets.forced (h : node.Interprets τ) : node.Forced τ := by
  induction node with
  | empty => trivial
  | leaf lit => trivial
  | internal outputs left right ihl ihr =>
    exact ⟨fun i lit hlit => (h.1 i lit hlit).mpr, ihl h.2.1, ihr h.2.2⟩

theorem Interprets.congr (hvalid : node.Valid n) (hagree : Agree n σ τ) (h : node.Interprets σ) :
    node.Interprets τ := by
  induction node with
  | empty => trivial
  | leaf lit => trivial
  | internal outputs left right ihl ihr =>
    refine ⟨fun i lit hlit => ?_, ihl hvalid.2.2.1 h.2.1, ihr hvalid.2.2.2 h.2.2⟩
    rw [isTrue_congr hagree (hvalid.2.1 lit (mem_of_getElem? hlit)),
      trueCount_congr hagree (forall_mem_append.mpr
        ⟨hvalid.2.2.1.below_inputs, hvalid.2.2.2.below_inputs⟩)]
    exact h.1 i lit hlit

theorem output_internal (h : (internal outputs left right).output k = some lit) : outputs[k - 1]? = some (some lit) :=
  join_eq_some_iff.mp h

theorem output_leaf {input : ℕ} (h : (leaf input).output k = some lit) : k ≤ 1 ∧ lit = input := by
  have hget : [some input][k - 1]? = some (some lit) := join_eq_some_iff.mp h
  rw [getElem?_singleton] at hget
  split at hget
  · next hk =>
    cases hget
    exact ⟨by omega, rfl⟩
  · cases hget

theorem trueCount_singleton : 1 ≤ trueCount τ [lit] ↔ isTrue τ lit := by
  cases h : isTrue τ lit <;> simp [trueCount, h]

theorem Interprets.output (h : node.Interprets τ) (hk : 1 ≤ k) (hlit : node.output k = some lit) :
    isTrue τ lit ↔ k ≤ trueCount τ node.inputs := by
  cases node with
  | empty => cases hlit
  | leaf input =>
    obtain ⟨hle, rfl⟩ := output_leaf hlit
    obtain rfl : k = 1 := by omega
    exact (trueCount_singleton).symm
  | internal outputs left right =>
    rw [h.1 (k - 1) lit (output_internal hlit)]
    exact (show k - 1 < trueCount τ (left.inputs ++ right.inputs) ↔ _ by rw [inputs]; omega)

theorem Forced.output (h : node.Forced τ) (hk : 1 ≤ k) (hlit : node.output k = some lit)
    (hcount : k ≤ trueCount τ node.inputs) : isTrue τ lit := by
  cases node with
  | empty => cases hlit
  | leaf input =>
    obtain ⟨hle, rfl⟩ := output_leaf hlit
    obtain rfl : k = 1 := by omega
    exact (trueCount_singleton).mp hcount
  | internal outputs left right =>
    rw [inputs] at hcount
    exact h.1 (k - 1) lit (output_internal hlit) (by omega)

def Filled (k : ℕ) (node : TotalizerNode) : Prop :=
  ∀ j, 1 ≤ j → j ≤ k → j ≤ node.size → ∃ lit, node.output j = some lit

end

theorem pairUp_length : ∀ level : List TotalizerNode, (pairUp level).length = (level.length + 1) / 2
  | [] => rfl
  | [_] => by simp [pairUp]
  | _ :: _ :: rest => by
    rw [pairUp, length_cons, pairUp_length rest, length_cons, length_cons]
    omega

theorem inputs_pairUp : ∀ level : List TotalizerNode,
    (pairUp level).flatMap inputs = level.flatMap inputs
  | [] => rfl
  | [_] => by simp [pairUp]
  | left :: right :: rest => by
    rw [pairUp, flatMap_cons, inputs_pairUp rest, flatMap_cons, flatMap_cons, ← append_assoc]
    rfl

theorem inputs_buildLevels (fuel : ℕ) (level : List TotalizerNode) (h : level.length ≤ fuel + 1) :
    (buildLevels fuel level).inputs = level.flatMap inputs := by
  induction fuel generalizing level with
  | zero =>
    match level with
    | [] => rfl
    | [_] => simp [buildLevels]
    | _ :: _ :: _ => simp at h
  | succ fuel ih =>
    match level with
    | [] => rfl
    | [_] => simp [buildLevels]
    | left :: right :: rest =>
      have hlength : (pairUp (left :: right :: rest)).length ≤ fuel + 1 := by
        rw [pairUp_length]
        simp only [length_cons] at h ⊢
        omega
      have hbuild : buildLevels (fuel + 1) (left :: right :: rest) =
          buildLevels fuel (pairUp (left :: right :: rest)) := rfl
      rw [hbuild, ih _ hlength, inputs_pairUp]

inductive Fresh : TotalizerNode → Prop
  | empty : Fresh empty
  | leaf (lit : ℕ) : Fresh (leaf lit)
  | join {left right} (hleft : Fresh left) (hright : Fresh right) : Fresh (join left right)

theorem fresh_pairUp : ∀ level : List TotalizerNode, (∀ node ∈ level, node.Fresh) →
    ∀ node ∈ pairUp level, node.Fresh
  | [], h => h
  | [_], h => by simpa [pairUp] using h
  | left :: right :: rest, h => by
    rw [forall_mem_cons, forall_mem_cons] at h
    exact forall_mem_cons.mpr ⟨.join h.1 h.2.1, fresh_pairUp rest h.2.2⟩

theorem fresh_buildLevels (fuel : ℕ) (level : List TotalizerNode) (h : ∀ node ∈ level, node.Fresh) :
    (buildLevels fuel level).Fresh := by
  induction fuel generalizing level with
  | zero =>
    match level with
    | [] => exact .empty
    | [node] => simpa [buildLevels] using h
    | _ :: _ :: _ => exact .empty
  | succ fuel ih =>
    match level with
    | [] => exact .empty
    | [node] => simpa [buildLevels] using h
    | left :: right :: rest => exact ih _ (fresh_pairUp _ h)

theorem Fresh.interprets {node : TotalizerNode} (h : node.Fresh) : node.Interprets τ := by
  induction h with
  | empty => trivial
  | leaf lit => trivial
  | join hleft hright ihl ihr =>
    refine ⟨fun i lit hlit => ?_, ihl, ihr⟩
    have hmem := eq_of_mem_replicate (mem_of_getElem? hlit)
    cases hmem

theorem Fresh.valid {node : TotalizerNode} (h : node.Fresh) (hinputs : Below n node.inputs) : node.Valid n := by
  induction h with
  | empty => trivial
  | leaf lit => exact hinputs lit (mem_singleton_self lit)
  | join hleft hright ihl ihr =>
    obtain ⟨hl, hr⟩ := forall_mem_append.mp hinputs
    refine ⟨length_replicate .., fun lit hlit => ?_, ihl hl, ihr hr⟩
    cases eq_of_mem_replicate hlit

end TotalizerNode

open TotalizerNode

section

/-- What encoding does to a node: outputs are only added, the clauses force them, counts satisfy the
clauses, and a reading of the old node continues to the new variables. -/
structure Step (node node' : TotalizerNode) (e e' : Emitted) : Prop where
  nextVar : e.nextVar ≤ e'.nextVar
  clauses : e.clauses <+: e'.clauses
  below : (∀ c ∈ e.clauses, Below e.nextVar c) → ∀ c ∈ e'.clauses, Below e'.nextVar c
  valid : node'.Valid e'.nextVar
  inputs : node'.inputs = node.inputs
  kept : ∀ k lit, node.output k = some lit → node'.output k = some lit
  grows : ∀ τ, node'.Interprets τ → node.Interprets τ
  forced : ∀ τ, Satisfies τ e'.clauses → node.Forced τ → node'.Forced τ
  holds : ∀ τ, node'.Interprets τ → Satisfies τ e.clauses → Satisfies τ e'.clauses
  continues : ∀ τ, node.Interprets τ → ∃ τ', Agree e.nextVar τ τ' ∧ node'.Interprets τ'

namespace Step

variable {node node' node'' left left' right right' : TotalizerNode} {e e' e'' : Emitted}
  {outputs : List (Option ℕ)} {k : ℕ}

theorem refl (h : node.Valid e.nextVar) : Step node node e e :=
  ⟨le_rfl, prefix_rfl, fun h => h, h, rfl, fun _ _ h => h, fun _ h => h, fun _ _ h => h,
    fun _ _ h => h, fun τ h => ⟨τ, fun _ _ => rfl, h⟩⟩

theorem trans (h : Step node node' e e') (h' : Step node' node'' e' e'') : Step node node'' e e'' where
  nextVar := h.nextVar.trans h'.nextVar
  clauses := h.clauses.trans h'.clauses
  below hbelow := h'.below (h.below hbelow)
  valid := h'.valid
  inputs := h'.inputs.trans h.inputs
  kept k lit hlit := h'.kept k lit (h.kept k lit hlit)
  grows τ hτ := h.grows τ (h'.grows τ hτ)
  forced τ hsat hforced :=
    h'.forced τ hsat (h.forced τ (fun c hc => hsat c (h'.clauses.subset hc)) hforced)
  holds τ hτ hsat := h'.holds τ hτ (h.holds τ (h'.grows τ hτ) hsat)
  continues τ hτ := by
    obtain ⟨τ', hagree, hτ'⟩ := h.continues τ hτ
    obtain ⟨τ'', hagree', hτ''⟩ := h'.continues τ' hτ'
    exact ⟨τ'', hagree.trans h.nextVar hagree', hτ''⟩

theorem size (h : Step node node' e e') : node'.size = node.size := by
  rw [size_eq, size_eq, h.inputs]

theorem of_left (h : Step left left' e e') (hvalid : (internal outputs left right).Valid e.nextVar) :
    Step (internal outputs left right) (internal outputs left' right) e e' where
  nextVar := h.nextVar
  clauses := h.clauses
  below := h.below
  valid := by
    obtain ⟨hlength, hlits, -, hright⟩ := hvalid
    exact ⟨by rw [hlength, h.size], fun lit hlit => (hlits lit hlit).trans_le h.nextVar, h.valid,
      hright.mono h.nextVar⟩
  inputs := by rw [TotalizerNode.inputs, TotalizerNode.inputs, h.inputs]
  kept k lit hlit := hlit
  grows τ hτ := ⟨h.inputs ▸ hτ.1, h.grows τ hτ.2.1, hτ.2.2⟩
  forced τ hsat hforced := ⟨h.inputs ▸ hforced.1, h.forced τ hsat hforced.2.1, hforced.2.2⟩
  holds τ hτ := h.holds τ hτ.2.1
  continues τ hτ := by
    obtain ⟨τ', hagree, hτ'⟩ := h.continues τ hτ.2.1
    have hold := hτ.congr hvalid hagree
    exact ⟨τ', hagree, h.inputs ▸ hold.1, hτ', hold.2.2⟩

theorem of_right (h : Step right right' e e') (hvalid : (internal outputs left right).Valid e.nextVar) :
    Step (internal outputs left right) (internal outputs left right') e e' where
  nextVar := h.nextVar
  clauses := h.clauses
  below := h.below
  valid := by
    obtain ⟨hlength, hlits, hleft, -⟩ := hvalid
    exact ⟨by rw [hlength, h.size], fun lit hlit => (hlits lit hlit).trans_le h.nextVar,
      hleft.mono h.nextVar, h.valid⟩
  inputs := by rw [TotalizerNode.inputs, TotalizerNode.inputs, h.inputs]
  kept k lit hlit := hlit
  grows τ hτ := ⟨h.inputs ▸ hτ.1, hτ.2.1, h.grows τ hτ.2.2⟩
  forced τ hsat hforced := ⟨h.inputs ▸ hforced.1, hforced.2.1, h.forced τ hsat hforced.2.2⟩
  holds τ hτ := h.holds τ hτ.2.2
  continues τ hτ := by
    obtain ⟨τ', hagree, hτ'⟩ := h.continues τ hτ.2.2
    have hold := hτ.congr hvalid hagree
    exact ⟨τ', hagree, h.inputs ▸ hold.1, hold.2.1, hτ'⟩

end Step

variable {node left right : TotalizerNode} {e : Emitted} {outputs : List (Option ℕ)} {i j k out : ℕ}

theorem condition_of_filled (hfilled : node.Filled k) (hpos : j ≠ 0) (hj : j ≤ k) (hsize : j ≤ node.size) :
    ∃ lit, node.output j = some lit ∧ condition node j = [neg lit] := by
  obtain ⟨lit, hlit⟩ := hfilled j (by omega) hj hsize
  exact ⟨lit, hlit, by rw [condition, if_neg hpos, hlit]; rfl⟩

theorem condition_or_le (hfilled : node.Filled k) (hj : j ≤ k) (hsize : j ≤ node.size) (h : node.Interprets τ) :
    (∃ lit ∈ condition node j, isTrue τ lit) ∨ j ≤ trueCount τ node.inputs := by
  by_cases hpos : j = 0
  · exact .inr (by omega)
  · obtain ⟨lit, hlit, hcondition⟩ := condition_of_filled hfilled hpos hj hsize
    have hmeaning := h.output (by omega) hlit
    cases htrue : isTrue τ lit with
    | true => exact .inr (hmeaning.mp htrue)
    | false => exact .inl ⟨neg lit, by rw [hcondition]; exact mem_singleton_self _, by simp [htrue]⟩

theorem condition_false (h : node.Forced τ) (hj : j ≤ trueCount τ node.inputs) {lit : ℕ}
    (hlit : lit ∈ condition node j) : isTrue τ lit = false := by
  unfold condition at hlit
  split at hlit
  · cases hlit
  · next hpos =>
    cases hout : node.output j with
    | none =>
      rw [hout] at hlit
      cases hlit
    | some lit' =>
      rw [hout] at hlit
      rw [mem_singleton.mp hlit, isTrue_neg, h.output (by omega) hout hj]
      rfl

theorem mem_combinations {c : List ℕ} (hc : c ∈ combinations left right out i) : ∃ j ≤ i, j ≤ left.size ∧
    i - j ≤ right.size ∧ c = condition left j ++ condition right (i - j) ++ [out] := by
  obtain ⟨j, hj, hc⟩ := mem_flatMap.mp hc
  rw [mem_range] at hj
  unfold combine at hc
  dsimp only at hc
  split_ifs at hc with hsize
  · cases hc
  · cases hc
  · exact ⟨j, by omega, by omega, by omega, mem_singleton.mp hc⟩

theorem combinations_hold (hleft : left.Filled i) (hright : right.Filled i) (hl : left.Interprets τ)
    (hr : right.Interprets τ) (hout : i ≤ trueCount τ (left.inputs ++ right.inputs) → isTrue τ out) :
    Satisfies τ (combinations left right out i) := by
  intro c hc
  obtain ⟨j1, hj1, hsizel, hsizer, rfl⟩ := mem_combinations hc
  rcases condition_or_le hleft hj1 hsizel hl with ⟨lit, hlit, htrue⟩ | hcl
  · exact ⟨lit, mem_append_left _ (mem_append_left _ hlit), htrue⟩
  · rcases condition_or_le hright (Nat.sub_le i j1) hsizer hr with ⟨lit, hlit, htrue⟩ | hcr
    · exact ⟨lit, mem_append_left _ (mem_append_right _ hlit), htrue⟩
    · rw [trueCount_append] at hout
      exact ⟨out, mem_append_right _ (mem_singleton_self _), hout (by omega)⟩

theorem combinations_force (hi : 1 ≤ i) (hleft : left.Filled i) (hright : right.Filled i)
    (hl : left.Forced τ) (hr : right.Forced τ) (hsat : Satisfies τ (combinations left right out i))
    (hcount : i ≤ trueCount τ (left.inputs ++ right.inputs)) : isTrue τ out := by
  rw [trueCount_append] at hcount
  have hcl : trueCount τ left.inputs ≤ left.size := left.size_eq ▸ trueCount_le
  have hcr : trueCount τ right.inputs ≤ right.size := right.size_eq ▸ trueCount_le
  -- as many as possible are taken from the left
  obtain ⟨j1, j2, hsum, h1, h2⟩ : ∃ j1 j2, j1 + j2 = i ∧ j1 ≤ trueCount τ left.inputs ∧
      j2 ≤ trueCount τ right.inputs :=
    ⟨min i (trueCount τ left.inputs), i - min i (trueCount τ left.inputs), by omega, by omega, by omega⟩
  have hempty : ¬ (condition left j1 ++ condition right j2).isEmpty := by
    by_cases hpos : j1 = 0
    · obtain ⟨lit, -, hcondition⟩ := condition_of_filled hright (show j2 ≠ 0 by omega) (by omega) (by omega)
      simp [hcondition]
    · obtain ⟨lit, -, hcondition⟩ := condition_of_filled hleft hpos (by omega) (by omega)
      simp [hcondition]
  have hmem : condition left j1 ++ condition right j2 ++ [out] ∈ combinations left right out i := by
    refine mem_flatMap.mpr ⟨j1, mem_range.mpr (by omega), ?_⟩
    rw [show i - j1 = j2 by omega, combine, if_neg (by omega), if_neg hempty]
    exact mem_singleton_self _
  obtain ⟨lit, hlit, htrue⟩ := hsat _ hmem
  rcases mem_append.mp hlit with hlit | hlit
  · rcases mem_append.mp hlit with hlit | hlit
    · rw [condition_false hl h1 hlit] at htrue
      cases htrue
    · rw [condition_false hr h2 hlit] at htrue
      cases htrue
  · rwa [← mem_singleton.mp hlit]

theorem output_below (h : node.Valid n) {lit : ℕ} (hlit : node.output j = some lit) : lit / 2 < n := by
  cases node with
  | empty => cases hlit
  | leaf input =>
    obtain ⟨-, rfl⟩ := output_leaf hlit
    exact h
  | internal outputs left right => exact h.2.1 lit (mem_of_getElem? (output_internal hlit))

theorem condition_below (h : node.Valid n) : Below n (condition node j) := by
  intro lit hlit
  unfold condition at hlit
  rw [mem_toList, map_eq_some_iff] at hlit
  obtain ⟨out, hout, rfl⟩ := hlit
  split at hout
  · cases hout
  · rw [neg_div_two]
    exact output_below h hout

theorem combinations_below (hl : left.Valid n) (hr : right.Valid n) (hout : out / 2 < n) :
    ∀ c ∈ combinations left right out i, Below n c := by
  intro c hc
  obtain ⟨j1, -, -, -, rfl⟩ := mem_combinations hc
  exact forall_mem_append.mpr ⟨forall_mem_append.mpr ⟨condition_below hl, condition_below hr⟩,
    forall_mem_singleton.mpr hout⟩

theorem output_step (hi : 1 ≤ i) (hplace : outputs[i - 1]? = some none) (hleft : left.Filled i)
    (hright : right.Filled i) (hvalid : (internal outputs left right).Valid e.nextVar) :
    Step (internal outputs left right) (internal (outputs.set (i - 1) (some (posLit e.nextVar))) left right) e
    ⟨e.nextVar + 1, e.clauses ++ combinations left right (posLit e.nextVar) i⟩ := by
  have ⟨hlength, hlits, hl, hr⟩ := hvalid
  have hlt : i - 1 < outputs.length := (List.getElem?_eq_some_iff.mp hplace).1
  have hmem (j lit : ℕ) (h : (outputs.set (i - 1) (some (posLit e.nextVar)))[j]? = some (some lit)) :
      j = i - 1 ∧ lit = posLit e.nextVar ∨ j ≠ i - 1 ∧ outputs[j]? = some (some lit) := by
    by_cases hj : j = i - 1
    · rw [hj, getElem?_set_self hlt] at h
      exact .inl ⟨hj, by simpa using h.symm⟩
    · rw [getElem?_set_ne (Ne.symm hj)] at h
      exact .inr ⟨hj, h⟩
  have hne (j lit : ℕ) (h : outputs[j]? = some (some lit)) : j ≠ i - 1 := by
    rintro rfl
    rw [hplace] at h
    cases h
  refine ⟨Nat.le_succ _, prefix_append _ _, fun hbelow => ?_,
    ⟨?_, ?_, hl.mono (Nat.le_succ _), hr.mono (Nat.le_succ _)⟩, rfl, fun k lit h => ?_, fun τ h =>
      ⟨fun j lit hlit => ?_, h.2⟩,
    fun τ hsat h => ⟨fun j lit hlit hcount => ?_, h.2⟩, fun τ h hsat => ?_, fun τ h => ?_⟩
  · refine forall_mem_append.mpr ⟨fun c hc lit hlit => (hbelow c hc lit hlit).trans (Nat.lt_succ_self _), ?_⟩
    refine combinations_below (hl.mono (Nat.le_succ _)) (hr.mono (Nat.le_succ _)) ?_
    rw [posLit_div_two]
    exact Nat.lt_succ_self _
  · rw [length_set, hlength]
  · intro lit hlit
    obtain ⟨j, hj⟩ := mem_iff_getElem?.mp hlit
    rcases hmem j lit hj with ⟨-, rfl⟩ | ⟨-, hold⟩
    · rw [posLit_div_two]
      exact Nat.lt_succ_self _
    · exact (hlits lit (mem_of_getElem? hold)).trans (Nat.lt_succ_self _)
  · have hold := output_internal h
    exact join_eq_some_iff.mpr ((getElem?_set_ne (Ne.symm (hne _ _ hold))).trans hold)
  · exact h.1 j lit ((getElem?_set_ne (Ne.symm (hne j lit hlit))).trans hlit)
  · rcases hmem j lit hlit with ⟨rfl, rfl⟩ | ⟨-, hold⟩
    · exact combinations_force hi hleft hright h.2.1 h.2.2 (satisfies_append.mp hsat).2 (by omega)
    · exact h.1 j lit hold hcount
  · refine satisfies_append.mpr ⟨hsat, combinations_hold hleft hright h.2.1 h.2.2 fun hcount => ?_⟩
    exact (h.1 (i - 1) _ (getElem?_set_self hlt)).mpr (by omega)
  · -- the new variable is given the comparison as its value
    refine ⟨update τ e.nextVar (decide (i ≤ trueCount τ (left.inputs ++ right.inputs))), ?_, ?_⟩
    · exact fun v hv => update_of_ne hv.ne _ _
    · have hagree : Agree e.nextVar τ
          (update τ e.nextVar (decide (i ≤ trueCount τ (left.inputs ++ right.inputs)))) :=
        fun v hv => update_of_ne hv.ne _ _
      have hold := h.congr hvalid hagree
      refine ⟨fun j lit hlit => ?_, hold.2⟩
      rcases hmem j lit hlit with ⟨rfl, rfl⟩ | ⟨-, hj⟩
      · rw [isTrue_posLit, update_self, decide_eq_true_iff,
          trueCount_congr hagree (forall_mem_append.mpr ⟨hl.below_inputs, hr.below_inputs⟩)]
        omega
      · exact hold.1 j lit hj

theorem outputLoop_step (sums : List ℕ) (hleft : left.Filled k) (hright : right.Filled k)
    (hsums : ∀ i ∈ sums, 1 ≤ i ∧ i ≤ k ∧ i ≤ left.size + right.size)
    (hvalid : (internal outputs left right).Valid e.nextVar) :
    Step (internal outputs left right) (internal (outputLoop left right sums outputs e).1 left right) e
    (outputLoop left right sums outputs e).2 ∧ ∀ i ∈ sums, ∃ lit,
    (internal (outputLoop left right sums outputs e).1 left right).output i = some lit := by
  induction sums generalizing outputs e with
  | nil => exact ⟨.refl hvalid, by simp⟩
  | cons i sums ih =>
    rw [forall_mem_cons] at hsums
    obtain ⟨⟨hi, hik, hsize⟩, hsums⟩ := hsums
    rw [outputLoop]
    by_cases hsome : ((outputs[i - 1]?).join).isSome
    · rw [if_pos hsome]
      obtain ⟨hstep, hfilled⟩ := ih hsums hvalid
      obtain ⟨lit, hlit⟩ := isSome_iff_exists.mp hsome
      exact ⟨hstep, forall_mem_cons.mpr ⟨⟨lit, hstep.kept i lit hlit⟩, hfilled⟩⟩
    · rw [if_neg hsome]
      have hlt : i - 1 < outputs.length := by
        rw [hvalid.1]
        omega
      have hplace : outputs[i - 1]? = some none := by
        rw [getElem?_eq_getElem hlt] at hsome ⊢
        simpa using hsome
      have hfirst := output_step hi hplace (fun j hj hji => hleft j hj (hji.trans hik))
        (fun j hj hji => hright j hj (hji.trans hik)) hvalid
      obtain ⟨hstep, hfilled⟩ := ih hsums hfirst.valid
      have hnew : (internal (outputs.set (i - 1) (some (posLit e.nextVar))) left right).output i =
          some (posLit e.nextVar) :=
        join_eq_some_iff.mpr (getElem?_set_self hlt)
      exact ⟨hfirst.trans hstep, forall_mem_cons.mpr ⟨⟨_, hstep.kept i _ hnew⟩, hfilled⟩⟩

theorem encodeNode_step (node : TotalizerNode) (k : ℕ) (e : Emitted) (hvalid : node.Valid e.nextVar) :
    Step node (encodeNode node k e).1 e (encodeNode node k e).2 ∧ (encodeNode node k e).1.Filled k := by
  induction node generalizing e with
  | empty => exact ⟨.refl hvalid, fun j hj _ hsize => absurd hsize (by simp only [encodeNode, size]; omega)⟩
  | leaf lit =>
    refine ⟨.refl hvalid, fun j hj _ hsize => ⟨lit, ?_⟩⟩
    obtain rfl : j = 1 := by
      simp only [encodeNode, size] at hsize
      omega
    rfl
  | internal outputs left right ihl ihr =>
    rw [encodeNode]
    obtain ⟨hleft, hfilledl⟩ := ihl e hvalid.2.2.1
    generalize hl : encodeNode left k e = l at hleft hfilledl
    obtain ⟨left', e1⟩ := l
    have hfirst : Step (internal outputs left right) (internal outputs left' right) e e1 := hleft.of_left hvalid
    obtain ⟨hright, hfilledr⟩ := ihr e1 hfirst.valid.2.2.2
    dsimp only
    generalize hr : encodeNode right k e1 = r at hright hfilledr
    obtain ⟨right', e2⟩ := r
    have hsecond : Step (internal outputs left' right) (internal outputs left' right') e1 e2 :=
      hright.of_right hfirst.valid
    have hsums : ∀ i ∈ List.range' 1 (min k (left'.size + right'.size)),
        1 ≤ i ∧ i ≤ k ∧ i ≤ left'.size + right'.size := by
      intro i hi
      rw [mem_range'_1] at hi
      omega
    obtain ⟨hloop, hfilled⟩ := outputLoop_step _ hfilledl hfilledr hsums hsecond.valid
    refine ⟨(hfirst.trans hsecond).trans hloop, fun j hj hjk hsize => hfilled j ?_⟩
    rw [mem_range'_1]
    simp only [size] at hsize
    omega

end

namespace Totalizer

/-- What is known of a totalizer and the clauses taken from it so far: they force the outputs, and every
assignment of the first variables continues to a reading of the tree. -/
structure Counts (inputs : List ℕ) (base : ℕ) (taken : List (List ℕ)) (t : Totalizer) : Prop where
  inputs : t.root.inputs = inputs
  start : base ≤ t.nextVar
  below : ∀ c ∈ taken ++ t.emitted.clauses, Below t.nextVar c
  valid : t.root.Valid t.nextVar
  filled : t.root.Filled t.encodedBound
  forced : ∀ τ, Satisfies τ (taken ++ t.emitted.clauses) → t.root.Forced τ
  holds : ∀ τ, t.root.Interprets τ → Satisfies τ (taken ++ t.emitted.clauses)
  continues : ∀ σ, ∃ τ, Agree base σ τ ∧ t.root.Interprets τ

variable {inputs : List ℕ} {base k lit : ℕ} {taken : List (List ℕ)} {t : Totalizer}

theorem Counts.size (h : Counts inputs base taken t) : t.size = inputs.length := by
  rw [Totalizer.size, size_eq, h.inputs]

theorem fresh_new (inputs : List ℕ) (nextVar : ℕ) : (new inputs nextVar).root.Fresh := by
  refine fresh_buildLevels _ _ fun node hnode => ?_
  obtain ⟨lit, -, rfl⟩ := mem_map.mp hnode
  exact .leaf lit

theorem counts_new (hinputs : Below base inputs) : Counts inputs base [] (new inputs base) := by
  have hleaves : (inputs.map TotalizerNode.leaf).flatMap TotalizerNode.inputs = inputs := by
    rw [flatMap_map]
    exact flatMap_singleton' inputs
  have hroot : (new inputs base).root.inputs = inputs := by
    refine (inputs_buildLevels _ _ ?_).trans hleaves
    rw [length_map]
    exact Nat.le_succ _
  have hfresh := fresh_new inputs base
  have hclauses : [] ++ (new inputs base).emitted.clauses = [] := rfl
  exact ⟨hroot, le_rfl, by simp [hclauses], hfresh.valid (by rwa [hroot]), fun j hj hj0 => absurd hj (by
    rw [show (new inputs base).encodedBound = 0 from rfl] at hj0
    omega), fun τ _ => hfresh.interprets.forced, fun τ _ => by simp [Satisfies, hclauses],
    fun σ => ⟨σ, fun _ _ => rfl, hfresh.interprets⟩⟩

section

variable (h : Counts inputs base taken t)
include h

theorem Counts.take : Counts inputs base (taken ++ t.takeClauses.2) t.takeClauses.1 where
  inputs := h.inputs
  start := h.start
  below c hc := h.below c (by simpa [takeClauses] using hc)
  valid := h.valid
  filled := h.filled
  forced τ hsat := h.forced τ (by simpa [takeClauses] using hsat)
  holds τ hτ := by simpa [takeClauses] using h.holds τ hτ
  continues := h.continues

theorem Counts.encode (k : ℕ) :
    Counts inputs base taken ⟨(encodeNode t.root k t.emitted).1, (encodeNode t.root k t.emitted).2, k⟩ ∧
    ∀ j lit, t.root.output j = some lit → (encodeNode t.root k t.emitted).1.output j = some lit := by
  obtain ⟨hstep, hfilled⟩ := encodeNode_step t.root k t.emitted h.valid
  refine ⟨⟨hstep.inputs.trans h.inputs, h.start.trans hstep.nextVar, ?_, hstep.valid, hfilled,
    fun τ hsat => ?_, fun τ hτ => ?_, fun σ => ?_⟩, hstep.kept⟩
  · obtain ⟨htaken, hclauses⟩ := forall_mem_append.mp h.below
    exact forall_mem_append.mpr
      ⟨fun c hc lit hlit => (htaken c hc lit hlit).trans_le hstep.nextVar, hstep.below hclauses⟩
  · obtain ⟨htaken, hclauses⟩ := satisfies_append.mp hsat
    refine hstep.forced τ hclauses (h.forced τ (satisfies_append.mpr ⟨htaken, fun c hc => ?_⟩))
    exact hclauses c (hstep.clauses.subset hc)
  · obtain ⟨htaken, hclauses⟩ := satisfies_append.mp (h.holds τ (hstep.grows τ hτ))
    exact satisfies_append.mpr ⟨htaken, hstep.holds τ hτ hclauses⟩
  · obtain ⟨τ, hagree, hτ⟩ := h.continues σ
    obtain ⟨τ', hagree', hτ'⟩ := hstep.continues τ hτ
    exact ⟨τ', hagree.trans h.start hagree', hτ'⟩

theorem Counts.ensureBound (k : ℕ) : Counts inputs base taken (t.ensureBound k).1 ∧
    (∀ j lit, t.root.output j = some lit → (t.ensureBound k).1.root.output j = some lit) ∧
    (∀ lit, (t.ensureBound k).2 = some lit → 1 ≤ k ∧ (t.ensureBound k).1.root.output k = some lit) ∧
    (1 ≤ k → k ≤ inputs.length → ∃ lit, (t.ensureBound k).1.root.output k = some lit) := by
  unfold Totalizer.ensureBound
  by_cases hk : k = 0
  · rw [if_pos hk]
    exact ⟨h, fun _ _ hlit => hlit, by simp, fun hpos => absurd hk (by omega)⟩
  rw [if_neg hk]
  by_cases hsize : t.size < k
  · rw [if_pos hsize]
    rw [h.size] at hsize
    exact ⟨h, fun _ _ hlit => hlit, by simp, fun _ hle => absurd hle (by omega)⟩
  rw [if_neg hsize]
  have hle : k ≤ t.root.size := Nat.le_of_not_lt hsize
  by_cases hbound : t.encodedBound < k
  · obtain ⟨hcounts, hkept⟩ := h.encode k
    simp only [if_pos hbound]
    refine ⟨hcounts, hkept, fun lit hlit => ⟨by omega, hlit⟩, fun hpos _ => ?_⟩
    refine hcounts.filled k hpos le_rfl ?_
    rw [size_eq, hcounts.inputs, ← h.inputs, ← size_eq]
    exact hle
  · simp only [if_neg hbound]
    exact ⟨h, fun _ _ hlit => hlit, fun lit hlit => ⟨by omega, hlit⟩, fun hpos _ => h.filled k hpos (by omega) hle⟩

theorem Counts.output_iff (hinputs : Below base inputs) (hlit : t.root.output (k + 1) = some lit)
    (σ : ℕ → Bool) : (∃ τ, Agree base σ τ ∧ Satisfies τ (taken ++ t.emitted.clauses) ∧ isTrue τ (neg lit)) ↔
    trueCount σ inputs ≤ k := by
  constructor
  · rintro ⟨τ, hagree, hsat, hfalse⟩
    by_contra hcount
    have htrue := (h.forced τ hsat).output (Nat.succ_pos k) hlit (by
      rw [h.inputs, trueCount_congr hagree hinputs]
      omega)
    rw [isTrue_neg, htrue] at hfalse
    cases hfalse
  · intro hcount
    obtain ⟨τ, hagree, hτ⟩ := h.continues σ
    refine ⟨τ, hagree, h.holds τ hτ, ?_⟩
    have hmeaning := hτ.output (Nat.succ_pos k) hlit
    rw [h.inputs, trueCount_congr hagree hinputs] at hmeaning
    rw [isTrue_neg, Bool.not_eq_true']
    exact Bool.eq_false_iff.mpr fun htrue => absurd (hmeaning.mp htrue) (by omega)

end

end Totalizer

end Nixie.Opt
