import Mathlib.Data.Finset.Card
import Nixie.Opt.Cardinality
import Nixie.Opt.WeightedSearch

namespace Nixie.Opt

open Literal Nixie.Sat TotalizerNode List IncrementalTotalizer

def Auxiliary (n : ℕ) (c : List ℕ) : Prop := ∃ v, n ≤ v ∧ posLit v ∈ c

section

variable {n k i : ℕ} {left right : TotalizerNode} {inputs : List ℕ} {t : Totalizer}

theorem combinations_auxiliary {v : ℕ} (hv : n ≤ v) : ∀ c ∈ combinations left right (posLit v) i, Auxiliary n c := by
  intro c hc
  obtain ⟨j1, -, -, -, rfl⟩ := mem_combinations hc
  exact ⟨v, hv, mem_append_right _ (mem_singleton_self _)⟩

theorem outputLoop_auxiliary (sums : List ℕ) (outputs : List (Option ℕ)) (e : Emitted) (hn : n ≤ e.nextVar)
    (hclauses : ∀ c ∈ e.clauses, Auxiliary n c) : n ≤ (outputLoop left right sums outputs e).2.nextVar ∧
    ∀ c ∈ (outputLoop left right sums outputs e).2.clauses, Auxiliary n c := by
  induction sums generalizing outputs e with
  | nil => exact ⟨hn, hclauses⟩
  | cons i sums ih =>
    rw [outputLoop]
    split
    · exact ih outputs e hn hclauses
    · exact ih _ _ (Nat.le_succ_of_le hn) (forall_mem_append.mpr ⟨hclauses, combinations_auxiliary hn⟩)

theorem encodeNode_auxiliary (node : TotalizerNode) (k : ℕ) (e : Emitted) (hn : n ≤ e.nextVar)
    (hclauses : ∀ c ∈ e.clauses, Auxiliary n c) :
    n ≤ (encodeNode node k e).2.nextVar ∧ ∀ c ∈ (encodeNode node k e).2.clauses, Auxiliary n c := by
  induction node generalizing e with
  | empty => exact ⟨hn, hclauses⟩
  | leaf lit => exact ⟨hn, hclauses⟩
  | internal outputs left right ihl ihr =>
    rw [encodeNode]
    obtain ⟨hnl, hleft⟩ := ihl e hn hclauses
    obtain ⟨hnr, hright⟩ := ihr _ hnl hleft
    exact outputLoop_auxiliary _ _ _ hnr hright

theorem ensureBound_auxiliary (hn : n ≤ t.emitted.nextVar) (hclauses : ∀ c ∈ t.emitted.clauses, Auxiliary n c) :
    ∀ c ∈ (t.ensureBound k).1.emitted.clauses, Auxiliary n c := by
  unfold Totalizer.ensureBound
  split
  · exact hclauses
  · split
    · exact hclauses
    · dsimp only
      split
      · exact (encodeNode_auxiliary t.root k t.emitted hn hclauses).2
      · exact hclauses

theorem setBound_one (hinputs : Below n inputs) :
    (∀ c ∈ ((new inputs n).setBound 1).2.2, Auxiliary n c) ∧
    ∀ τ, Satisfies τ ((new inputs n).setBound 1).2.2 →
    (∀ a ∈ ((new inputs n).setBound 1).1.boundAssumption, Sat.isTrue τ a) →
    trueCount τ inputs ≤ 1 := by
  have hgood := (good_start hinputs).setBound 1
  have hempty : ((new inputs n).setBound 1).1.totalizer.emitted.clauses = [] := by
    unfold setBound
    split <;> rfl
  have hbound : ((new inputs n).setBound 1).1.currentBound = 1 := by
    unfold setBound
    split <;> rfl
  refine ⟨?_, fun τ hsat hassume => ?_⟩
  · have hnone : ∀ c ∈ (new inputs n).totalizer.emitted.clauses, Auxiliary n c :=
      fun c hc => absurd hc not_mem_nil
    unfold setBound
    by_cases hsize : 1 < (new inputs n).totalizer.size
    · rw [if_pos hsize]
      exact ensureBound_auxiliary le_rfl hnone
    · rw [if_neg hsize]
      exact hnone
  · have hassumes := hgood.assumes
    have hcounts := hgood.counts
    simp only [IncrementalTotalizer.Use.rebound, IncrementalTotalizer.Use.start, nil_append] at hassumes hcounts
    generalize (new inputs n).setBound 1 = r at *
    generalize r.1.boundAssumption = a at hassumes hassume
    cases hassumes with
    | none hlength => exact trueCount_le.trans (hbound ▸ hlength)
    | some hlit =>
      rw [hbound] at hlit
      refine (hcounts.output_iff hinputs hlit τ).mp ⟨τ, fun _ _ => rfl, ?_, hassume _ rfl⟩
      rwa [hempty, append_nil]

end

section

variable {V : Finset ℕ} {groups : List (List ℕ)}

theorem length_le_card (hdisjoint : groups.Pairwise List.Disjoint)
    (hmeets : ∀ ids ∈ groups, ∃ id ∈ ids, id ∈ V) : groups.length ≤ V.card := by
  induction groups generalizing V with
  | nil => exact Nat.zero_le _
  | cons ids groups ih =>
    obtain ⟨hids, hdisjoint⟩ := pairwise_cons.mp hdisjoint
    obtain ⟨⟨id, hid, hV⟩, hmeets⟩ := forall_mem_cons.mp hmeets
    have hrest : groups.length ≤ (V.erase id).card := by
      refine ih hdisjoint fun ids' hids' => ?_
      obtain ⟨id', hid', hV'⟩ := hmeets ids' hids'
      refine ⟨id', hid', Finset.mem_erase.mpr ⟨?_, hV'⟩⟩
      rintro rfl
      exact hids ids' hids' hid hid'
    have hcard := Finset.card_erase_add_one hV
    rw [length_cons]
    omega

theorem card_le_length (hcover : ∀ id ∈ V, ∃ ids ∈ groups, id ∈ ids)
    (hone : ∀ ids ∈ groups, ∀ id ∈ ids, ∀ id' ∈ ids, id ∈ V → id' ∈ V → id = id') : V.card ≤ groups.length := by
  induction groups generalizing V with
  | nil =>
    have hempty : V = ∅ := Finset.eq_empty_of_forall_notMem fun id hid => by
      obtain ⟨ids, hids, -⟩ := hcover id hid
      cases hids
    rw [hempty, Finset.card_empty]
    exact Nat.zero_le _
  | cons ids groups ih =>
    obtain ⟨hids, hone⟩ := forall_mem_cons.mp hone
    rw [length_cons]
    by_cases hmeets : ∃ id ∈ ids, id ∈ V
    · obtain ⟨id, hid, hV⟩ := hmeets
      have hrest : (V.erase id).card ≤ groups.length := by
        refine ih (fun id' hid' => ?_) fun ids' hids' i hi j hj hVi hVj =>
          hone ids' hids' i hi j hj (Finset.mem_of_mem_erase hVi) (Finset.mem_of_mem_erase hVj)
        obtain ⟨hne, hV'⟩ := Finset.mem_erase.mp hid'
        obtain ⟨ids', hids', hmem⟩ := hcover id' hV'
        rcases mem_cons.mp hids' with rfl | hids'
        · exact absurd (hids id' hmem id hid hV' hV) hne
        · exact ⟨ids', hids', hmem⟩
      have hcard := Finset.card_erase_add_one hV
      omega
    · push Not at hmeets
      refine (ih (fun id hid => ?_) hone).trans (Nat.le_succ _)
      obtain ⟨ids', hids', hmem⟩ := hcover id hid
      rcases mem_cons.mp hids' with rfl | hids'
      · exact absurd hid (hmeets id hmem)
      · exact ⟨ids', hids', hmem⟩

theorem eq_of_countP_le_one {α : Type} {p : α → Bool} {l : List α} (h : l.countP p ≤ 1) {a b : α}
    (ha : a ∈ l) (hb : b ∈ l) (hpa : p a = true) (hpb : p b = true) : a = b := by
  rw [countP_eq_length_filter] at h
  have ha' := mem_filter.mpr ⟨ha, hpa⟩
  have hb' := mem_filter.mpr ⟨hb, hpb⟩
  generalize l.filter p = found at h ha' hb'
  match found with
  | [] => cases ha'
  | [c] => rw [mem_singleton.mp ha', mem_singleton.mp hb']
  | _ :: _ :: _ =>
    simp only [length_cons] at h
    omega

end

def violates (holds : ℕ → Bool) (items : List (ℕ × List ℕ)) (id : ℕ) : Bool :=
  (items[id]?.map fun item => !item.2.any holds).getD false

def violatedIds (holds : ℕ → Bool) (items : List (ℕ × List ℕ)) : Finset ℕ :=
  ((List.range items.length).filter (violates holds items)).toFinset

section

variable {holds : ℕ → Bool} {items : List (ℕ × List ℕ)} {soft : List (List ℕ × Weight)} {w : WithTop ℚ}
  {hard added : List (List ℕ)} {base id : ℕ} {σ : ℕ → Bool}

theorem lt_of_violates (h : violates holds items id = true) : id < items.length := by
  by_contra hle
  rw [violates, getElem?_eq_none (by omega)] at h
  cases h

theorem mem_violatedIds : id ∈ violatedIds holds items ↔ violates holds items id = true := by
  rw [violatedIds, mem_toFinset, mem_filter, mem_range, and_iff_right_iff_imp]
  exact lt_of_violates

theorem card_violatedIds : (violatedIds holds items).card = violations holds items := by
  have hmap : (List.range items.length).map (violates holds items) =
      items.map fun item => !item.2.any holds := by
    refine ext_getElem (by simp) fun i hi _ => ?_
    simp only [length_map, length_range] at hi
    rw [getElem_map, getElem_map, getElem_range, violates, getElem?_eq_getElem hi]
    rfl
  calc (violatedIds holds items).card
      = ((List.range items.length).map (violates holds items)).countP id := by
        rw [countP_map, countP_eq_length_filter, violatedIds, toFinset_card_of_nodup (nodup_range.filter _)]
        rfl
    _ = violations holds items := by
        rw [hmap, countP_map]
        rfl

theorem violatedWeight_equal (hequal : ∀ p ∈ soft, p.2.value = w) (hitems : items.map Prod.snd = soft.map Prod.fst) :
    violatedWeight holds soft = violations holds items • w := by
  have hcount : violations holds items = (soft.map Prod.fst).countP fun lits => !lits.any holds := by
    rw [← hitems, countP_map]
    rfl
  rw [hcount]
  clear hcount hitems
  induction soft with
  | nil => simp [violatedWeight_nil]
  | cons p soft ih =>
    obtain ⟨hp, hequal⟩ := forall_mem_cons.mp hequal
    rw [violatedWeight_cons, map_cons, countP_cons, add_nsmul, ih hequal, add_comm]
    congr 1
    by_cases h : p.1.any holds = true
    · rw [if_pos h, if_neg (by simp [h]), zero_nsmul]
    · rw [if_neg h, if_pos (by simpa using h), one_nsmul, hp]

def allAuxiliary (σ : ℕ → Bool) (base : ℕ) (items : List (ℕ × List ℕ)) (v : ℕ) : Bool :=
  if v < base + items.length then marked σ base items v else true

theorem allAuxiliary_agree : Agree (base + items.length) (marked σ base items) (allAuxiliary σ base items) :=
  fun _ hv => if_pos hv

theorem allAuxiliary_add (hid : id < items.length) :
    allAuxiliary σ base items (base + id) = violates (Sat.isTrue σ) items id := by
  rw [allAuxiliary, if_pos (by omega), marked, if_neg (by omega), Nat.add_sub_cancel_left]
  rfl

theorem satisfies_allAuxiliary (hσ : Satisfies σ hard) (habove : Above hard [] items base)
    (hadded : ∀ c ∈ added, Auxiliary (base + items.length) c) :
    Satisfies (allAuxiliary σ base items) (hard ++ itemClauses items (List.range' base items.length) ++ added) := by
  have hagree : Agree base σ (allAuxiliary σ base items) :=
    marked_agree.trans (Nat.le_add_right base items.length) allAuxiliary_agree
  have hhard : ∀ c ∈ hard, Below base c := fun c hc => habove.clauses c (mem_append_left _ hc)
  refine satisfies_append.mpr ⟨satisfies_append.mpr ⟨hσ.congr hagree hhard, ?_⟩, fun c hc => ?_⟩
  · exact (satisfies_marked habove.items).congr allAuxiliary_agree (below_itemClauses habove.items)
  · obtain ⟨v, hv, hmem⟩ := hadded c hc
    exact ⟨posLit v, hmem, by rw [isTrue_posLit, allAuxiliary, if_neg (by omega)]⟩

end

end Nixie.Opt
