import Nixie.Bv.BoolIrValue
import Nixie.Sat.Counting

namespace Nixie.Bv

open Literal Nixie.Sat Circuit BoolIr List Option Function Nat

def Reached (ir : BoolIr) (live : List ℕ) (code : ℕ) : Prop :=
  ir.canonical code ≤ 1 ∨ litIdx (ir.canonical code) ∈ live

structure Alive (ir : BoolIr) (live : List ℕ) (i : ℕ) : Prop where
  pos : i ≠ 0
  lt : i < ir.nodes.length
  children : ∀ node, ir.nodes[i]? = some node → ∀ c ∈ children node, Reached ir live c

section

variable {ir : BoolIr} {live live' stack : List ℕ} {code : ℕ}

theorem canonical_eq (hcode : ¬ ir.canonical code ≤ 1) : ir.canonical code = code ∧ 1 < code := by
  rcases ir.folded.canonical_cases code with h | ⟨h, hlt, -⟩
  · exact absurd h hcode
  · exact ⟨h, hlt⟩

theorem liveLoop_spec (hwf : ir.Wf) (hstack : ∀ c ∈ stack, ir.Valid c) :
    live ⊆ ir.liveLoop stack live ∧ (∀ c ∈ stack, Reached ir (ir.liveLoop stack live) c) ∧
    ∀ i ∈ ir.liveLoop stack live, i ∈ live ∨ Alive ir (ir.liveLoop stack live) i := by
  induction stack, live using BoolIr.liveLoop.induct ir with
  | case1 live =>
    rw [liveLoop]
    exact ⟨List.Subset.refl _, fun c hc => absurd hc not_mem_nil, fun i hi => .inl hi⟩
  | case2 live code stack c hc ih =>
    obtain ⟨-, hstack⟩ := forall_mem_cons.mp hstack
    obtain ⟨hsub, hreached, halive⟩ := ih hstack
    rw [liveLoop]
    rw [if_pos hc]
    exact ⟨hsub, forall_mem_cons.mpr ⟨.inl hc, hreached⟩, halive⟩
  | case3 live code stack c hc hmem ih =>
    obtain ⟨-, hstack⟩ := forall_mem_cons.mp hstack
    obtain ⟨hsub, hreached, halive⟩ := ih hstack
    rw [liveLoop]
    rw [if_neg hc, dif_pos hmem]
    exact ⟨hsub, forall_mem_cons.mpr ⟨.inr (hsub hmem), hreached⟩, halive⟩
  | case4 live code stack c hc hmem node hnode ih =>
    obtain ⟨-, hstack⟩ := forall_mem_cons.mp hstack
    have hlt := (List.getElem?_eq_some_iff.mp hnode).1
    have hchildren : ∀ d ∈ children node, ir.Valid d := fun d hd =>
      (hwf.ordered _ node hnode _ (List.mem_map_of_mem hd)).trans hlt
    obtain ⟨hsub, hreached, halive⟩ := ih (List.forall_mem_append.mpr
      ⟨fun d hd => hchildren d (mem_reverse.mp hd), hstack⟩)
    obtain ⟨hnew, hrest⟩ := forall_mem_append.mp hreached
    have hself : litIdx c ∈ ir.liveLoop ((children node).reverse ++ stack) (litIdx c :: live) := hsub mem_cons_self
    have heq : ir.liveLoop (code :: stack) live =
        ir.liveLoop ((children node).reverse ++ stack) (litIdx c :: live) := by
      rw [liveLoop]
      rw [if_neg hc, dif_neg hmem]
      split
      next node' hnode' => rw [some.inj (hnode'.symm.trans hnode)]
      next hnone => rw [hnone] at hnode; cases hnode
    rw [heq]
    refine ⟨fun i hi => hsub (mem_cons_of_mem _ hi), forall_mem_cons.mpr ⟨.inr hself, hrest⟩, fun i hi => ?_⟩
    rcases halive i hi with hmem | halive
    · rcases mem_cons.mp hmem with rfl | hmem
      · refine .inr ⟨?_, hlt, fun node' hnode' d hd => ?_⟩
        · have hcode : 1 < c := by
            obtain ⟨heq, hlt⟩ := canonical_eq hc
            exact hlt.trans_eq heq.symm
          unfold litIdx
          omega
        · obtain rfl : node' = node := some.inj (hnode'.symm.trans hnode)
          exact hnew d (mem_reverse.mpr hd)
      · exact .inl hmem
    · exact .inr halive
  | case5 live code stack c hc hmem hnode ih =>
    obtain ⟨hcode, -⟩ := forall_mem_cons.mp hstack
    obtain ⟨heq, -⟩ := canonical_eq hc
    have hlt : litIdx c < ir.nodes.length := (congrArg litIdx heq).trans_lt hcode
    rw [getElem?_eq_getElem hlt] at hnode
    cases hnode

end

/-- What the encoding of the live nodes below `k` leaves: each has a literal that the clauses force to its
value, each new variable is such a literal, and every assignment before continues. -/
structure Encoded (ir : BoolIr) (live : List ℕ) (base : Cnf) (constTrue k : ℕ) (added : List (List ℕ))
    (st : Cnf × (ℕ → Option ℕ)) : Prop where
  numVars : base.numVars ≤ st.1.numVars
  clauses : st.1.clauses = base.clauses ++ added
  below : ∀ c ∈ added, Below st.1.numVars c
  const : st.2 0 = some constTrue
  slots : ∀ i < k, i ∈ live → ∃ lit, st.2 i = some lit ∧ lit / 2 < st.1.numVars
  new : ∀ v, base.numVars ≤ v → v < st.1.numVars → ∃ i < k, i ∈ live ∧ st.2 i = some (posLit v)
  forced : ∀ τ, Agrees ir.nodes ir.pinned τ → Sat.isTrue τ constTrue → Satisfies τ added →
    ∀ i < k, i ∈ live → ∀ lit, st.2 i = some lit →
      (values (gate τ) ir.nodes)[i]? = some (Sat.isTrue τ lit)
  continues : ∀ σ, Agrees ir.nodes ir.pinned σ → Sat.isTrue σ constTrue →
    ∃ τ, Agree base.numVars σ τ ∧ Satisfies τ added

section

variable {ir : BoolIr} {live : List ℕ} {base : Cnf} {constTrue k code out n : ℕ} {added : List (List ℕ)}
  {st : Cnf × (ℕ → Option ℕ)} {slot : ℕ → Option ℕ} {σ τ : ℕ → Bool} {node : IrNode}

def Leaves (nodes : List IrNode) (n : ℕ) : Prop := ∀ v, .var v ∈ nodes → v < n

theorem Agrees.congr {pinned : ℕ → Option Bool} (h : Agrees ir.nodes pinned σ) (hleaves : Leaves ir.nodes n)
    (hagree : Agree n σ τ) : Agrees ir.nodes pinned τ := by
  intro v hv b hb
  rw [hagree v (hleaves v hv)]
  exact h v hv b hb

theorem values_congr {nodes : List IrNode} (hleaves : Leaves nodes n) (hagree : Agree n σ τ) :
    values (gate τ) nodes = values (gate σ) nodes := by
  induction nodes using List.reverseRecOn with
  | nil => rfl
  | append_singleton nodes node ih =>
    rw [values_concat, values_concat, ih fun v hv => hleaves v (mem_append_left _ hv)]
    congr 2
    cases node with
    | var v => exact hagree v (hleaves v (by simp))
    | _ => rfl

theorem satLit_spec (hright : FoldsRight ir.nodes ir.pinned ir.folded) (h : Encoded ir live base constTrue k added st)
    (hconst : constTrue / 2 < base.numVars) (hslot : ∀ i < k, slot i = st.2 i) (hpos : 0 < k) (hcode : litIdx code < k)
    (hreached : Reached ir live code) : ∃ lit, ir.satLit slot code = some lit ∧ lit / 2 < st.1.numVars ∧
    ∀ τ, Agrees ir.nodes ir.pinned τ → Sat.isTrue τ constTrue → Satisfies τ added →
    Sat.isTrue τ lit = ir.value τ code := by
  have hzero : slot 0 = some constTrue := (hslot 0 hpos).trans h.const
  have hvalue := fun τ hτ => @canonical_value _ _ _ τ code hright hτ
  unfold BoolIr.satLit
  dsimp only
  by_cases htrue : ir.canonical code = litTrue
  · rw [if_pos htrue]
    refine ⟨constTrue, hzero, hconst.trans_le h.numVars, fun τ hτ hholds _ => ?_⟩
    have hcode := hvalue τ hτ
    change codeValue _ (ir.canonical code) = _ at hcode
    rw [htrue, codeValue_litTrue] at hcode
    exact hholds.trans hcode
  rw [if_neg htrue]
  by_cases hfalse : ir.canonical code = litFalse
  · rw [if_pos hfalse, hzero]
    refine ⟨neg constTrue, rfl, by rw [neg_div_two]; exact hconst.trans_le h.numVars, fun τ hτ hholds _ => ?_⟩
    have hcode := hvalue τ hτ
    change codeValue _ (ir.canonical code) = _ at hcode
    rw [hfalse, codeValue_litFalse] at hcode
    rw [isTrue_neg, hholds]
    exact hcode
  rw [if_neg hfalse]
  have hbig : ¬ ir.canonical code ≤ 1 := by
    unfold litTrue at htrue
    unfold litFalse at hfalse
    omega
  have hlive := hreached.resolve_left hbig
  obtain ⟨heq, hlt⟩ := canonical_eq hbig
  rw [heq] at hlive ⊢
  obtain ⟨lit, hlit, hbelow⟩ := h.slots _ hcode hlive
  rw [hslot _ hcode, hlit, map_some]
  refine ⟨_, rfl, ?_, fun τ hτ hholds hsat => ?_⟩
  · split
    · rwa [neg_div_two]
    · exact hbelow
  · have hforced := h.forced τ hτ hholds hsat _ hcode hlive lit hlit
    rw [BoolIr.value, codeValue, if_neg (by omega : ¬ code ≤ 1), getD_eq_getElem?_getD, hforced]
    rcases mod_two_eq_zero_or_one code with hbit | hbit
    · rw [hbit, if_neg (by decide)]
      simp
    · rw [hbit, if_pos rfl, isTrue_neg]
      simp

theorem gateClauses_spec (hvar : ∀ v, node ≠ .var v) (hconst : node ≠ .constTrue) (hout : out / 2 < n)
    {Good : (ℕ → Bool) → Prop} (hchildren : ∀ c ∈ children node, ∃ lit, ir.satLit slot c = some lit ∧ lit / 2 < n ∧
    ∀ τ, Good τ → Sat.isTrue τ lit = ir.value τ c) : ∃ clauses, ir.gateClauses slot out node = some clauses ∧
    (∀ c ∈ clauses, Below n c) ∧ ∀ τ, Good τ →
    (Satisfies τ clauses ↔ Sat.isTrue τ out = gate τ (values (gate τ) ir.nodes) node) := by
  cases node with
  | constTrue => exact absurd rfl hconst
  | var v => exact absurd rfl (hvar v)
  | and a b =>
    simp only [children, forall_mem_cons, not_mem_nil, false_imp_iff, implies_true, and_true] at hchildren
    obtain ⟨⟨x, hx, hxn, hxv⟩, y, hy, hyn, hyv⟩ := hchildren
    refine ⟨[[neg out, x], [neg out, y], [out, neg x, neg y]], by simp [gateClauses, hx, hy], ?_, fun τ hτ => ?_⟩
    · simp [Below, hxn, hyn, hout]
    · have hvx := hxv τ hτ
      have hvy := hyv τ hτ
      rw [BoolIr.value] at hvx hvy
      rw [gate, ← hvx, ← hvy]
      simp only [Satisfies, forall_mem_cons, not_mem_nil, false_imp_iff, implies_true, and_true,
        exists_mem_cons_iff, false_and, exists_false, or_false, isTrue_neg]
      cases Sat.isTrue τ out <;> cases Sat.isTrue τ x <;> cases Sat.isTrue τ y <;> simp
  | xor a b =>
    simp only [children, forall_mem_cons, not_mem_nil, false_imp_iff, implies_true, and_true] at hchildren
    obtain ⟨⟨x, hx, hxn, hxv⟩, y, hy, hyn, hyv⟩ := hchildren
    refine ⟨[[neg out, neg x, neg y], [neg out, x, y], [out, neg x, y], [out, x, neg y]],
      by simp [gateClauses, hx, hy], ?_, fun τ hτ => ?_⟩
    · simp [Below, hxn, hyn, hout]
    · have hvx := hxv τ hτ
      have hvy := hyv τ hτ
      rw [BoolIr.value] at hvx hvy
      rw [gate, ← hvx, ← hvy]
      simp only [Satisfies, forall_mem_cons, not_mem_nil, false_imp_iff, implies_true, and_true,
        exists_mem_cons_iff, false_and, exists_false, or_false, isTrue_neg]
      cases Sat.isTrue τ out <;> cases Sat.isTrue τ x <;> cases Sat.isTrue τ y <;> simp
  | mux s t f =>
    simp only [children, forall_mem_cons, not_mem_nil, false_imp_iff, implies_true, and_true] at hchildren
    obtain ⟨⟨x, hx, hxn, hxv⟩, ⟨y, hy, hyn, hyv⟩, z, hz, hzn, hzv⟩ := hchildren
    refine ⟨[[neg x, neg y, out], [neg x, y, neg out], [x, neg z, out], [x, z, neg out]],
      by simp [gateClauses, hx, hy, hz], ?_, fun τ hτ => ?_⟩
    · simp [Below, hxn, hyn, hzn, hout]
    · have hvx := hxv τ hτ
      have hvy := hyv τ hτ
      have hvz := hzv τ hτ
      rw [BoolIr.value] at hvx hvy hvz
      rw [gate, ← hvx, ← hvy, ← hvz]
      simp only [Satisfies, forall_mem_cons, not_mem_nil, false_imp_iff, implies_true, and_true,
        exists_mem_cons_iff, false_and, exists_false, or_false, isTrue_neg]
      cases Sat.isTrue τ out <;> cases Sat.isTrue τ x <;> cases Sat.isTrue τ y <;> cases Sat.isTrue τ z <;> simp

theorem Encoded.skip (h : Encoded ir live base constTrue k added st) (hmem : k ∉ live) :
    Encoded ir live base constTrue (k + 1) added st := by
  have hlt : ∀ i < k + 1, i ∈ live → i < k := fun i hi hlive =>
    lt_of_le_of_ne (le_of_lt_succ hi) fun heq => hmem (heq ▸ hlive)
  refine ⟨h.numVars, h.clauses, h.below, h.const, fun i hi hlive => h.slots i (hlt i hi hlive) hlive,
    fun v hv hv' => ?_, fun τ hτ hholds hsat i hi hlive => h.forced τ hτ hholds hsat i (hlt i hi hlive) hlive,
    h.continues⟩
  obtain ⟨i, hi, hrest⟩ := h.new v hv hv'
  exact ⟨i, lt_succ_of_lt hi, hrest⟩

theorem Encoded.add (h : Encoded ir live base constTrue k added st) (hmem : k ∈ live) (hk : k ≠ 0) {v numVars : ℕ}
    {clauses : List (List ℕ)} (hle : st.1.numVars ≤ numVars) (hv : v < numVars)
    (hbelow : ∀ c ∈ clauses, Below numVars c) (hnew : ∀ w, st.1.numVars ≤ w → w < numVars → w = v)
    (hforced : ∀ τ, Agrees ir.nodes ir.pinned τ → Sat.isTrue τ constTrue → Satisfies τ (added ++ clauses) →
    (values (gate τ) ir.nodes)[k]? = some (τ v))
    (hcontinues : ∀ σ, Agrees ir.nodes ir.pinned σ → Sat.isTrue σ constTrue → ∃ τ, Agree base.numVars σ τ ∧
    Satisfies τ (added ++ clauses)) : Encoded ir live base constTrue (k + 1) (added ++ clauses)
    (⟨numVars, st.1.clauses ++ clauses⟩, update st.2 k (some (posLit v))) := by
  have hkeep : ∀ i < k, update st.2 k (some (posLit v)) i = st.2 i := fun i hi =>
    update_of_ne hi.ne _ _
  refine ⟨h.numVars.trans hle, by simp [h.clauses], ?_, ?_, fun i hi hlive => ?_, fun w hw hw' => ?_,
    fun τ hτ hholds hsat i hi hlive lit hlit => ?_, hcontinues⟩
  · exact forall_mem_append.mpr ⟨fun c hc lit hlit => (h.below c hc lit hlit).trans_le hle, hbelow⟩
  · exact (update_of_ne hk.symm _ _).trans h.const
  · rcases Nat.lt_succ_iff_lt_or_eq.mp hi with hi | rfl
    · obtain ⟨lit, hlit, hlt⟩ := h.slots i hi hlive
      exact ⟨lit, (hkeep i hi).trans hlit, hlt.trans_le hle⟩
    · exact ⟨posLit v, update_self _ _ _, by rwa [posLit_div_two]⟩
  · rcases Nat.lt_or_ge w st.1.numVars with hlt | hge
    · obtain ⟨i, hi, hlive, hslot⟩ := h.new w hw hlt
      exact ⟨i, lt_succ_of_lt hi, hlive, (hkeep i hi).trans hslot⟩
    · obtain rfl := hnew w hge hw'
      exact ⟨k, lt_succ_self k, hmem, update_self _ _ _⟩
  · dsimp only at hlit
    rcases Nat.lt_succ_iff_lt_or_eq.mp hi with hi | rfl
    · rw [hkeep i hi] at hlit
      exact h.forced τ hτ hholds (satisfies_append.mp hsat).1 i hi hlive lit hlit
    · rw [update_self, some.injEq] at hlit
      rw [← hlit, isTrue_posLit]
      exact hforced τ hτ hholds hsat

theorem addClauses_mk {f : Cnf} {clauses : List (List ℕ)} :
    f.addClauses clauses = ⟨f.numVars, f.clauses ++ clauses⟩ := Cnf.addClauses_eq f clauses

theorem emitStep_spec (hwf : ir.Wf) (hright : FoldsRight ir.nodes ir.pinned ir.folded)
    (hleaves : Leaves ir.nodes base.numVars) (hconst : constTrue / 2 < base.numVars)
    (halive : ∀ i ∈ live, Alive ir live i) (h : Encoded ir live base constTrue k added st) :
    ∃ st' added', ir.emitStep live st k = some st' ∧ Encoded ir live base constTrue (k + 1) added' st' := by
  unfold BoolIr.emitStep
  by_cases hmem : k ∈ live
  swap
  · rw [if_pos hmem]
    exact ⟨st, added, rfl, h.skip hmem⟩
  rw [if_neg (not_not.mpr hmem)]
  obtain ⟨hk, hlt, hchildren⟩ := halive k hmem
  have hnode : ir.nodes[k]? = some ir.nodes[k] := getElem?_eq_getElem hlt
  have hvalue : ∀ τ : ℕ → Bool, (values (gate τ) ir.nodes)[k]? =
      some (gate τ (values (gate τ) ir.nodes) ir.nodes[k]) := fun τ => hwf.value_node hnode
  rw [hnode]
  dsimp only
  by_cases hvar : ∃ v, ir.nodes[k] = .var v
  · obtain ⟨v, hv⟩ := hvar
    have hleaf : v < base.numVars := hleaves v (hv ▸ getElem_mem hlt)
    refine ⟨(⟨st.1.numVars, st.1.clauses ++ []⟩, update st.2 k (some (posLit v))), added ++ [], ?_, ?_⟩
    · rw [hv]
      simp [nodeVar, gateClauses, addClauses_mk]
    · refine h.add hmem hk le_rfl (hleaf.trans_le h.numVars) (fun c hc => absurd hc not_mem_nil)
        (fun w hw hw' => absurd hw' (Nat.not_lt.mpr hw)) (fun τ _ _ _ => ?_) fun σ hσ hholds => ?_
      · rw [hvalue, hv, gate]
      · rw [append_nil]
        exact h.continues σ hσ hholds
  · have hne : ∀ v, ir.nodes[k] ≠ .var v := fun v hv => hvar ⟨v, hv⟩
    have hnot : ir.nodes[k] ≠ .constTrue := fun heq => hk (hwf.only k (hnode.trans (congrArg some heq)))
    have hnodeVar : nodeVar st.1 ir.nodes[k] = st.1.newVar := by
      unfold nodeVar
      split
      next v hv => exact absurd hv (hne v)
      next => rfl
    have hslot : ∀ i < k, update st.2 k (some (posLit st.1.numVars)) i = st.2 i := fun i hi =>
      update_of_ne hi.ne _ _
    have hlits : ∀ c ∈ children ir.nodes[k], ∃ lit,
        ir.satLit (update st.2 k (some (posLit st.1.numVars))) c = some lit ∧ lit / 2 < st.1.numVars + 1 ∧
          ∀ τ, Agrees ir.nodes ir.pinned τ ∧ Sat.isTrue τ constTrue ∧ Satisfies τ added →
            Sat.isTrue τ lit = ir.value τ c := by
      intro c hc
      obtain ⟨lit, hlit, hltlit, hlitvalue⟩ := satLit_spec hright h hconst hslot (Nat.pos_of_ne_zero hk)
        (hwf.ordered k _ hnode _ (mem_map_of_mem hc)) (hchildren _ hnode c hc)
      exact ⟨lit, hlit, hltlit.trans (lt_succ_self _), fun τ hτ => hlitvalue τ hτ.1 hτ.2.1 hτ.2.2⟩
    obtain ⟨clauses, hclauses, hbelow, hmeans⟩ := gateClauses_spec hne hnot
      (by rw [posLit_div_two]; exact lt_succ_self _) hlits
    refine ⟨(⟨st.1.numVars + 1, st.1.clauses ++ clauses⟩,
      update st.2 k (some (posLit st.1.numVars))), added ++ clauses, ?_, ?_⟩
    · rw [hnodeVar]
      simp [Cnf.newVar, hclauses, addClauses_mk]
    · refine h.add hmem hk (le_succ _) (lt_succ_self _) hbelow (fun w hw hw' => by omega)
        (fun τ hτ hholds hsat => ?_) fun σ hσ hholds => ?_
      · obtain ⟨hadded, hgate⟩ := satisfies_append.mp hsat
        rw [hvalue, ← (hmeans τ ⟨hτ, hholds, hadded⟩).mp hgate, isTrue_posLit]
      · obtain ⟨τ, hagree, hsat⟩ := h.continues σ hσ hholds
        obtain ⟨τ', hτ'⟩ : ∃ τ', τ' = update τ st.1.numVars
          (gate τ (values (gate τ) ir.nodes) ir.nodes[k]) := ⟨_, rfl⟩
        have hagree' : Agree st.1.numVars τ τ' := fun v hv => by rw [hτ', update_of_ne hv.ne]
        have htotal : Agree base.numVars σ τ' := hagree.trans h.numVars hagree'
        have hadded : Satisfies τ' added := hsat.congr hagree' h.below
        have hsame : values (gate τ') ir.nodes = values (gate τ) ir.nodes :=
          values_congr hleaves fun v hv => hagree' v (hv.trans_le h.numVars)
        refine ⟨τ', htotal, satisfies_append.mpr ⟨hadded, (hmeans τ' ⟨hσ.congr hleaves htotal, ?_, hadded⟩).mpr ?_⟩⟩
        · rwa [isTrue_congr htotal hconst]
        · rw [isTrue_posLit, hsame]
          have hset : τ' st.1.numVars = gate τ (values (gate τ) ir.nodes) ir.nodes[k] := by
            rw [hτ', update_self]
          rw [hset]
          cases hcase : ir.nodes[k] with
          | var v => exact absurd hcase (hne v)
          | _ => rfl

theorem encoded_start : Encoded ir live base constTrue 0 []
    (base, update (fun _ => none) 0 (some constTrue)) :=
  ⟨le_rfl, (append_nil _).symm, fun c hc => absurd hc not_mem_nil, by simp,
    fun i hi => absurd hi (Nat.not_lt_zero i), fun v hv hv' => absurd hv' (Nat.not_lt.mpr hv),
    fun _ _ _ _ i hi => absurd hi (Nat.not_lt_zero i),
    fun σ _ _ => ⟨σ, fun _ _ => rfl, fun c hc => absurd hc not_mem_nil⟩⟩

theorem emitLoop_spec (hwf : ir.Wf) (hright : FoldsRight ir.nodes ir.pinned ir.folded)
    (hleaves : Leaves ir.nodes base.numVars) (hconst : constTrue / 2 < base.numVars)
    (halive : ∀ i ∈ live, Alive ir live i) (k : ℕ) : ∃ st added,
    (List.range k).foldlM (ir.emitStep live) (base, update (fun _ => none) 0 (some constTrue)) = some st ∧
    Encoded ir live base constTrue k added st := by
  induction k with
  | zero => exact ⟨_, [], rfl, encoded_start⟩
  | succ k ih =>
    obtain ⟨st, added, hfold, hencoded⟩ := ih
    obtain ⟨st', added', hstep, hencoded'⟩ := emitStep_spec hwf hright hleaves hconst halive hencoded
    refine ⟨st', added', ?_, hencoded'⟩
    rw [range_succ, foldlM_append, hfold]
    simp [hstep]

theorem mapM_spec {f : ℕ → Option ℕ} {P : ℕ → ℕ → Prop} (codes : List ℕ)
    (h : ∀ c ∈ codes, ∃ lit, f c = some lit ∧ P c lit) : ∃ lits, codes.mapM f = some lits ∧
    List.Forall₂ P codes lits := by
  induction codes with
  | nil => exact ⟨[], rfl, .nil⟩
  | cons c codes ih =>
    obtain ⟨⟨lit, hlit, hP⟩, hrest⟩ := forall_mem_cons.mp h
    obtain ⟨lits, hlits, hall⟩ := ih hrest
    exact ⟨lit :: lits, by simp [hlit, hlits], .cons hP hall⟩

theorem tseitin_spec (hwf : ir.Wf) (hright : FoldsRight ir.nodes ir.pinned ir.folded)
    (hleaves : Leaves ir.nodes base.numVars) (hconst : constTrue / 2 < base.numVars) {roots : List ℕ}
    (hroots : ∀ c ∈ roots, ir.Valid c) : ∃ sat lits added, ir.tseitin base constTrue roots = some (sat, lits) ∧
    base.numVars ≤ sat.numVars ∧ sat.clauses = base.clauses ++ added ∧ ∀ σ, Agrees ir.nodes ir.pinned σ →
    Sat.isTrue σ constTrue → (∃ τ, Agree base.numVars σ τ ∧ Satisfies τ added) ∧ ∀ τ, Agree base.numVars σ τ →
    Satisfies τ added → (∀ τ', Agree base.numVars σ τ' → Satisfies τ' added → Agree sat.numVars τ τ') ∧
    List.Forall₂ (fun c lit => Sat.isTrue τ lit = ir.value σ c) roots lits := by
  obtain ⟨-, hreached, halive⟩ := @liveLoop_spec ir [] roots.reverse hwf fun c hc =>
    hroots c (mem_reverse.mp hc)
  replace halive : ∀ i ∈ ir.liveLoop roots.reverse [], Alive ir (ir.liveLoop roots.reverse []) i := fun i hi =>
    (halive i hi).resolve_left not_mem_nil
  obtain ⟨st, added, hloop, hencoded⟩ := emitLoop_spec hwf hright hleaves hconst halive ir.nodes.length
  obtain ⟨lits, hlits, hall⟩ := mapM_spec roots fun c hc => by
    obtain ⟨lit, hlit, -, hvalue⟩ := satLit_spec hright hencoded hconst (fun _ _ => rfl) hwf.pos (hroots c hc)
      (hreached c (mem_reverse.mpr hc))
    exact ⟨lit, hlit, hvalue⟩
  refine ⟨st.1, lits, added, ?_, hencoded.numVars, hencoded.clauses, fun σ hσ hholds => ?_⟩
  · unfold BoolIr.tseitin
    dsimp only
    rw [hloop]
    simp [hlits]
  refine ⟨hencoded.continues σ hσ hholds, fun τ hagree hsat => ⟨fun τ' hagree' hsat' v hv => ?_, ?_⟩⟩
  · have hforced : ∀ ρ, Agree base.numVars σ ρ → Satisfies ρ added → ∀ i < ir.nodes.length,
        i ∈ ir.liveLoop roots.reverse [] → st.2 i = some (posLit v) →
          (values (gate σ) ir.nodes)[i]? = some (ρ v) := by
      intro ρ hρ hsatρ i hi hlive hslot
      have hvalue := hencoded.forced ρ (hσ.congr hleaves hρ) (by rwa [isTrue_congr hρ hconst]) hsatρ i hi hlive
        _ hslot
      rwa [values_congr hleaves hρ, isTrue_posLit] at hvalue
    rcases Nat.lt_or_ge v base.numVars with hlt | hge
    · rw [hagree v hlt, hagree' v hlt]
    · obtain ⟨i, hi, hlive, hslot⟩ := hencoded.new v hge hv
      have hone := hforced τ hagree hsat i hi hlive hslot
      have htwo := hforced τ' hagree' hsat' i hi hlive hslot
      exact some.inj (htwo.symm.trans hone)
  · refine hall.imp fun c lit hvalue => ?_
    rw [hvalue τ (hσ.congr hleaves hagree) (by rwa [isTrue_congr hagree hconst]) hsat, BoolIr.value,
      values_congr hleaves hagree]
    rfl

end

theorem forall₂_imp_mem {α β : Type} {P Q : α → β → Prop} {as : List α} {bs : List β} (h : List.Forall₂ P as bs)
    (himp : ∀ a ∈ as, ∀ b, P a b → Q a b) : List.Forall₂ Q as bs := by
  induction h with
  | nil => exact .nil
  | cons hab _ ih =>
    exact .cons (himp _ mem_cons_self _ hab) (ih fun a ha => himp a (mem_cons_of_mem _ ha))

def BoolIr.pins (ir : BoolIr) (ps : List (ℕ × Bool)) : BoolIr := ps.foldl (fun ir p => ir.pin p.1 p.2) ir

theorem pins_spec (ir : BoolIr) (ps : List (ℕ × Bool)) : (ir.pins ps).nodes = ir.nodes ∧
    (ir.pins ps).table = ir.table ∧ (ir.pins ps).folded = ir.folded := by
  induction ps generalizing ir with
  | nil => exact ⟨rfl, rfl, rfl⟩
  | cons p ps ih => exact ih (ir.pin p.1 p.2)

/-- A graph with pins folded in is encoded exactly: no lookup fails, an assignment of the variables before
that has the pinned values on the leaves continues in one way to the new ones, and then each literal has the
value of the expression its root stands for. -/
theorem tseitin_exact {ir : BoolIr} {codes : List (ℕ × Expr)} (hbuilt : Built ir codes) (ps : List (ℕ × Bool))
    (roots : List (ℕ × Expr)) (hroots : roots ⊆ codes) (base : Cnf) (constTrue : ℕ)
    (hleaves : ∀ v, .var v ∈ ir.nodes → v < base.numVars) (hconst : constTrue / 2 < base.numVars) :
    ∃ sat lits added,
      (ir.pins ps).refoldConsts.1.tseitin base constTrue (roots.map Prod.fst) = some (sat, lits) ∧
      base.numVars ≤ sat.numVars ∧ sat.clauses = base.clauses ++ added ∧
      ∀ σ, Agrees ir.nodes (ir.pins ps).pinned σ → Sat.isTrue σ constTrue →
        (∃ τ, Agree base.numVars σ τ ∧ Satisfies τ added) ∧
        ∀ τ, Agree base.numVars σ τ → Satisfies τ added →
          (∀ τ', Agree base.numVars σ τ' → Satisfies τ' added → Agree sat.numVars τ τ') ∧
          List.Forall₂ (fun r lit => Sat.isTrue τ lit = r.2.eval σ) roots lits := by
  have hsound := hbuilt.sound
  obtain ⟨hnodes, htable, hfolded⟩ := pins_spec ir ps
  have hwf : (ir.pins ps).Wf := by
    refine ⟨?_, ?_, ?_, ?_⟩
    · rw [hnodes]; exact hsound.wf.first
    · rw [hnodes]; exact hsound.wf.only
    · rw [hnodes]; exact hsound.wf.ordered
    · rw [hnodes, htable]; exact hsound.wf.table
  have hright := refoldConsts_right hwf (hfolded.trans hsound.folded)
  have hwf' : (ir.pins ps).refoldConsts.1.Wf := ⟨hwf.first, hwf.only, hwf.ordered, hwf.table⟩
  have hcodes : ∀ r ∈ roots, (ir.pins ps).refoldConsts.1.Valid r.1 ∧
      ∀ σ, (ir.pins ps).refoldConsts.1.value σ r.1 = r.2.eval σ := by
    intro r hr
    have hsame : (ir.pins ps).refoldConsts.1.nodes = ir.nodes := hnodes
    rw [BoolIr.Valid, hsame]
    refine ⟨(hsound.codes r (hroots hr)).1, fun σ => ?_⟩
    rw [BoolIr.value, hsame]
    exact (hsound.codes r (hroots hr)).2 σ
  obtain ⟨sat, lits, added, htseitin, hle, hclauses, hexact⟩ := @tseitin_spec _ base constTrue hwf' hright
    (fun v hv => hleaves v (hnodes ▸ hv)) hconst (roots.map Prod.fst) fun c hc => by
      obtain ⟨r, hr, rfl⟩ := mem_map.mp hc
      exact (hcodes r hr).1
  refine ⟨sat, lits, added, htseitin, hle, hclauses, fun σ hσ hholds => ?_⟩
  obtain ⟨hcontinues, hunique⟩ := hexact σ (fun v hv b hb => hσ v (hnodes ▸ hv) b hb) hholds
  refine ⟨hcontinues, fun τ hagree hsat => ?_⟩
  obtain ⟨hsame, hvalues⟩ := hunique τ hagree hsat
  refine ⟨hsame, ?_⟩
  rw [forall₂_map_left_iff] at hvalues
  refine forall₂_imp_mem hvalues fun r hr lit hlit => hlit.trans ((hcodes r hr).2 σ)

def chosen : BoolIr × ℕ × ℕ :=
  let (ir, x) := BoolIr.new.var 0
  let (ir, y) := ir.var 1
  let (ir, s) := ir.xor x y
  let (ir, m) := ir.mux s x (neg y)
  (ir, s, m)

def chosenRoots : List (ℕ × Expr) :=
  [(chosen.2.2, .mux (.xor (.var 0) (.var 1)) (.var 0) (.not (.var 1))), (chosen.2.1, .xor (.var 0) (.var 1))]

theorem built_chosen : ∃ codes, Built chosen.1 codes ∧ chosenRoots ⊆ codes := by
  refine ⟨_, ((((Built.new.var 0).var 1).xor (.tail _ (.head _)) (.head _)).neg (.tail _ (.head _))).mux
    (.tail _ (.head _)) (.tail _ (.tail _ (.tail _ (.head _)))) (.head _), fun r hr => ?_⟩
  rcases mem_cons.mp hr with rfl | hr
  · exact .head _
  · rw [mem_singleton.mp hr]
    exact .tail _ (.tail _ (.head _))

theorem leaves_chosen {v : ℕ} (hv : .var v ∈ chosen.1.nodes) : v = 0 ∨ v = 1 := by
  have hnodes : chosen.1.nodes = [.constTrue, .var 0, .var 1, .xor 2 4, .mux 6 2 5] := by with_unfolding_all decide
  simpa [hnodes] using hv

theorem tseitin_exact_chosen :
    ∃ sat lits, (chosen.1.pins [(1, true)]).refoldConsts.1.tseitin ⟨3, []⟩ 4 (chosenRoots.map Prod.fst) =
        some (sat, lits) ∧
      ∀ σ : ℕ → Bool, σ 1 = true → σ 2 = true → ∃ τ, Agree 3 σ τ ∧
        List.Forall₂ (fun r lit => Sat.isTrue τ lit = r.2.eval σ) chosenRoots lits := by
  obtain ⟨codes, hbuilt, hroots⟩ := built_chosen
  obtain ⟨sat, lits, added, htseitin, -, -, hexact⟩ := tseitin_exact hbuilt [(1, true)] chosenRoots hroots
    ⟨3, []⟩ 4 (fun v hv => by rcases leaves_chosen hv with rfl | rfl <;> decide) (by decide)
  have hzero : (chosen.1.pins [(1, true)]).pinned 0 = none := by with_unfolding_all decide
  refine ⟨sat, lits, htseitin, fun σ hone htwo => ?_⟩
  obtain ⟨⟨τ, hagree, hsat⟩, hunique⟩ := hexact σ (fun v hv b hb => by
    rcases leaves_chosen hv with rfl | rfl
    · rw [hzero] at hb
      cases hb
    · rw [hone]
      exact some.inj hb) (by simpa [Sat.isTrue] using htwo)
  exact ⟨τ, hagree, (hunique τ hagree hsat).2⟩

end Nixie.Bv
