import Nixie.Sat.Solver

/-!
The tables of the trail agree over every sequence of operations, and backtracking is a filter by
recorded level.
-/

namespace Nixie.Sat.Trail

open Nixie.Literal List Option Function

variable {t : Trail} {lit level : ℕ} {reason : Reason}

theorem Valid.assignAt (h : Valid t) (hl : t.values lit = 0) (hle : level ≤ t.currentLevel) :
    Valid (t.assignAt lit reason level) := by
  have hfresh := h.fresh hl
  have hnot : lit ∉ t.assignments := fun hm => hfresh lit hm rfl
  have hnotneg : neg lit ∉ t.assignments := fun hm => hfresh _ hm (neg_div_two lit)
  have hinfo : ∀ m ∈ t.assignments, (t.assignAt lit reason level).varInfo (m / 2) = t.varInfo (m / 2) := by
    intro m hm
    exact update_of_ne (hfresh m hm) _ _
  have hself : (t.assignAt lit reason level).varInfo (lit / 2) =
      ⟨level, reason, t.assignments.length⟩ := update_self _ _ _
  have hget : ∀ p l, (t.assignments ++ [lit])[p]? = some l →
      t.assignments[p]? = some l ∨ p = t.assignments.length ∧ l = lit := by
    intro p l hp
    rw [getElem?_append] at hp
    split at hp
    · exact .inl hp
    · next hge =>
      right
      have hp0 : p - t.assignments.length = 0 := by
        by_contra hne
        simp [hne] at hp
      rw [hp0] at hp
      exact ⟨by omega, by simpa using hp.symm⟩
  refine ⟨?_, fun l => ?_, fun p l hp => ?_, h.starts, h.sorted, fun x hx => ?_, fun p l hp => ?_, ?_⟩
  · show ((t.assignments ++ [lit]).map (· / 2)).Nodup
    rw [map_append, nodup_append]
    refine ⟨h.nodup, by simp, ?_⟩
    intro a ha b hb
    obtain ⟨m, hm, rfl⟩ := mem_map.mp ha
    obtain rfl : b = lit / 2 := by simpa using hb
    exact hfresh m hm
  · show update (update t.values lit 1) (neg lit) (-1) l =
      if l ∈ t.assignments ++ [lit] then 1 else if neg l ∈ t.assignments ++ [lit] then -1 else 0
    simp only [mem_append, mem_singleton]
    by_cases h1 : l = lit
    · subst h1
      rw [update_of_ne (neg_ne l).symm, update_self]
      simp
    · by_cases h2 : l = neg lit
      · subst h2
        simp [update_self, h1, hnotneg]
      · have h3 : neg l ≠ lit := fun he => h2 (by rw [← he, neg_neg])
        rw [update_of_ne h2, update_of_ne h1, h.values]
        simp [h1, h3]
  · rcases hget p l hp with hp | ⟨rfl, rfl⟩
    · rw [hinfo l (mem_of_getElem? hp)]
      exact h.index p l hp
    · rw [hself]
  · show x ≤ (t.assignments ++ [lit]).length
    rw [length_append]
    exact (h.bound x hx).trans (Nat.le_add_right _ _)
  · unfold Trail.level
    rcases hget p l hp with hp | ⟨rfl, rfl⟩
    · rw [hinfo l (mem_of_getElem? hp)]
      exact h.level p l hp
    · rw [hself]
      -- every level was opened at or before the end of the trail
      have hall : t.segment t.assignments.length = t.currentLevel := by
        unfold segment
        rw [countP_eq_length.mpr, length_drop, h.starts]
        · rfl
        · intro x hx
          exact decide_eq_true (h.bound x (mem_of_mem_drop hx))
      exact hle.trans hall.ge
  · show t.propHead ≤ (t.assignments ++ [lit]).length
    rw [length_append]
    exact h.head.trans (Nat.le_add_right _ _)

theorem Valid.newDecisionLevel (h : Valid t) : Valid t.newDecisionLevel := by
  refine ⟨h.nodup, h.values, h.index, ?_, ?_, fun x hx => ?_, fun p l hp => ?_, h.head⟩
  · show (t.levelStarts ++ [t.assignments.length]).length = t.currentLevel + 1 + 1
    rw [length_append, h.starts]
    rfl
  · show (t.levelStarts ++ [t.assignments.length]).Pairwise (· ≤ ·)
    rw [pairwise_append]
    refine ⟨h.sorted, by simp, fun a ha b hb => ?_⟩
    obtain rfl : b = t.assignments.length := by simpa using hb
    exact h.bound a ha
  · have hx' : x ∈ t.levelStarts ++ [t.assignments.length] := hx
    rcases mem_append.mp hx' with hx | hx
    · exact h.bound x hx
    · exact (mem_singleton.mp hx).le
  · have hseg : t.newDecisionLevel.segment p = t.segment p := by
      unfold segment Trail.newDecisionLevel
      have hlt : p < t.assignments.length := (List.getElem?_eq_some_iff.mp hp).1
      have hpos : 0 < t.levelStarts.length := by rw [h.starts]; omega
      rw [List.drop_append_of_le_length hpos, List.countP_append]
      simp [Nat.not_le.mpr hlt]
    rw [hseg]
    exact h.level p l hp

structure Compacted (level : ℕ) (rest : List ℕ) (t t' : Trail) (called : List ℕ) : Prop where
  assignments : t'.assignments = t.assignments ++ rest.filter fun l => t.level (l / 2) ≤ level
  called : called = rest.filter fun l => level < t.level (l / 2)
  values : ∀ l, t'.values l =
    if ∃ r ∈ rest, level < t.level (r / 2) ∧ r / 2 = l / 2 then 0 else t.values l
  info : ∀ v, (∀ r ∈ rest, r / 2 ≠ v) → t'.varInfo v = t.varInfo v
  kept : ∀ r ∈ rest, t.level (r / 2) ≤ level →
    t'.level (r / 2) = t.level (r / 2) ∧ t'.reason (r / 2) = t.reason (r / 2)
  dropped : ∀ r ∈ rest, level < t.level (r / 2) → t'.varInfo (r / 2) = {}
  index : ∀ p l, t.assignments.length ≤ p → t'.assignments[p]? = some l → (t'.varInfo (l / 2)).trailIdx = p
  rest : t'.levelStarts = t.levelStarts ∧ t'.currentLevel = t.currentLevel ∧ t'.propHead = t.propHead

theorem compact_spec {rest : List ℕ} (t : Trail) (hnd : (rest.map (· / 2)).Nodup) :
    Compacted level rest t (compact level rest t).1 (compact level rest t).2 := by
  induction rest generalizing t with
  | nil => exact ⟨by simp [compact], rfl, by simp [compact], by simp [compact], by simp, by simp,
      fun p l hp hl => by simp [compact, getElem?_eq_none hp] at hl, rfl, rfl, rfl⟩
  | cons lit rest ih =>
    rw [map_cons, nodup_cons] at hnd
    have hne : ∀ r ∈ rest, r / 2 ≠ lit / 2 := fun r hr he => hnd.1 (he ▸ mem_map_of_mem hr)
    rw [compact]
    split
    · next hlt =>
      have h := ih (t.unassign lit) hnd.2
      dsimp only
      generalize compact level rest (t.unassign lit) = out at *
      obtain ⟨t', called⟩ := out
      have hinfo : ∀ r ∈ rest, (t.unassign lit).varInfo (r / 2) = t.varInfo (r / 2) :=
        fun r hr => update_of_ne (hne r hr) _ _
      have hlev : ∀ r ∈ rest, (t.unassign lit).level (r / 2) = t.level (r / 2) :=
        fun r hr => congrArg VarInfo.level (hinfo r hr)
      refine ⟨?_, ?_, fun l => ?_, fun v hv => ?_, fun r hr hle => ?_, fun r hr hgt => ?_, h.index, h.rest⟩
      · rw [h.assignments, filter_cons_of_neg (by simpa using hlt)]
        exact congrArg (t.assignments ++ ·) (filter_congr fun r hr => by rw [hlev r hr])
      · rw [h.called, filter_cons_of_pos (by simpa using hlt)]
        exact congrArg (lit :: ·) (filter_congr fun r hr => by rw [hlev r hr])
      · have hiff : (∃ r ∈ rest, level < (t.unassign lit).level (r / 2) ∧ r / 2 = l / 2) ↔
            ∃ r ∈ rest, level < t.level (r / 2) ∧ r / 2 = l / 2 := by
          refine exists_congr fun r => and_congr_right fun hr => ?_
          rw [hlev r hr]
        rw [h.values]
        simp only [hiff, mem_cons, exists_eq_or_imp, hlt, true_and]
        have hval : (t.unassign lit).values l = if lit / 2 = l / 2 then 0 else t.values l := by
          show update (update t.values lit 0) (neg lit) 0 l = _
          by_cases h1 : l = neg lit
          · rw [h1, update_self, if_pos (neg_div_two lit).symm]
          · rw [update_of_ne h1]
            by_cases h2 : l = lit
            · rw [h2, update_self, if_pos rfl]
            · rw [update_of_ne h2, if_neg]
              intro he
              rcases eq_or_eq_neg he.symm with h3 | h3
              · exact h2 h3
              · exact h1 h3
        rw [hval]
        by_cases h1 : lit / 2 = l / 2 <;> simp [h1]
      · have hv' : lit / 2 ≠ v := hv lit (by simp)
        rw [h.info v fun r hr => hv r (by simp [hr])]
        exact update_of_ne hv'.symm _ _
      · rcases mem_cons.mp hr with rfl | hr
        · exact absurd hlt (Nat.not_lt.mpr hle)
        · obtain ⟨h1, h2⟩ := h.kept r hr (by rw [hlev r hr]; exact hle)
          exact ⟨h1.trans (hlev r hr), h2.trans (congrArg VarInfo.reason (hinfo r hr))⟩
      · rcases mem_cons.mp hr with rfl | hr
        · rw [h.info _ hne]
          exact update_self _ _ _
        · exact h.dropped r hr (by rw [hlev r hr]; exact hgt)
    · next hle =>
      have h := ih (t.keep lit) hnd.2
      generalize compact level rest (t.keep lit) = out at *
      obtain ⟨t', called⟩ := out
      have hlev : ∀ v, (t.keep lit).level v = t.level v ∧ (t.keep lit).reason v = t.reason v := by
        intro v
        unfold Trail.level Trail.reason keep
        by_cases hv : v = lit / 2
        · subst hv
          simp
        · simp [hv]
      have hself : (t.keep lit).varInfo (lit / 2) =
          { t.varInfo (lit / 2) with trailIdx := t.assignments.length } := update_self _ _ _
      refine ⟨?_, ?_, fun l => ?_, fun v hv => ?_, fun r hr hk => ?_, fun r hr hgt => ?_, fun p l hp hl => ?_, h.rest⟩
      · rw [h.assignments, filter_cons_of_pos (by simpa using hle)]
        simp only [(hlev _).1]
        show (t.assignments ++ [lit]) ++ _ = _
        rw [append_assoc]
        rfl
      · rw [h.called, filter_cons_of_neg (by simpa using hle)]
        simp only [(hlev _).1]
      · rw [h.values]
        simp only [(hlev _).1, mem_cons, exists_eq_or_imp, hle, false_and, false_or]
        rfl
      · have hv' : v ≠ lit / 2 := fun he => hv lit (by simp) he.symm
        rw [h.info v fun r hr => hv r (by simp [hr])]
        exact update_of_ne hv' _ _
      · rcases mem_cons.mp hr with rfl | hr
        · unfold Trail.level Trail.reason
          rw [h.info _ hne, hself]
          exact ⟨rfl, rfl⟩
        · obtain ⟨h1, h2⟩ := h.kept r hr (by rw [(hlev _).1]; exact hk)
          exact ⟨h1.trans (hlev _).1, h2.trans (hlev _).2⟩
      · rcases mem_cons.mp hr with rfl | hr
        · exact absurd hgt hle
        · exact h.dropped r hr (by rw [(hlev _).1]; exact hgt)
      · by_cases hp' : p = t.assignments.length
        · have hat : t'.assignments[p]? = some lit := by
            rw [h.assignments, hp']
            simp [keep]
          obtain rfl : lit = l := by simpa [hat] using hl
          rw [h.info _ hne, hself, hp']
        · refine h.index p l ?_ hl
          have hlen : (t.keep lit).assignments.length = t.assignments.length + 1 := by simp [keep]
          omega

def boundary (t : Trail) (level : ℕ) : ℕ := t.levelStarts.getD (level + 1) 0

section

variable (h : Valid t)
include h

section

variable (hlt : level < t.currentLevel)
include hlt

theorem Valid.starts_split : (∀ x ∈ t.levelStarts.take (level + 1), x ≤ t.boundary level) ∧
    ∀ x ∈ t.levelStarts.drop (level + 1), t.boundary level ≤ x := by
  have hlen : level + 1 < t.levelStarts.length := by rw [h.starts]; omega
  have hb : t.boundary level = t.levelStarts[level + 1] := by
    unfold boundary
    rw [getD_eq_getElem?_getD, getElem?_eq_getElem hlen]
    rfl
  have hdrop : t.levelStarts.drop (level + 1) =
      t.boundary level :: t.levelStarts.drop (level + 2) := by
    rw [hb]
    exact drop_eq_getElem_cons hlen
  have hs := h.sorted
  rw [← take_append_drop (level + 1) t.levelStarts, hdrop, pairwise_append] at hs
  refine ⟨fun x hx => hs.2.2 x hx _ (by simp), fun x hx => ?_⟩
  rw [hdrop] at hx
  rcases mem_cons.mp hx with rfl | hx
  · exact le_refl _
  · exact (pairwise_cons.mp hs.2.1).1 x hx

theorem Valid.boundary_le : t.boundary level ≤ t.assignments.length := by
  refine h.bound _ ?_
  have hlen : level + 1 < t.levelStarts.length := by rw [h.starts]; omega
  unfold boundary
  rw [getD_eq_getElem?_getD, getElem?_eq_getElem hlen]
  exact getElem_mem hlen

theorem Valid.segment_split (p : ℕ) : t.segment p =
    ((t.levelStarts.take (level + 1)).drop 1).countP (· ≤ p) + (t.levelStarts.drop (level + 1)).countP (· ≤ p) := by
  unfold segment
  rw [← countP_append]
  conv_lhs => rw [← take_append_drop (level + 1) t.levelStarts]
  rw [drop_append_of_le_length]
  rw [length_take, h.starts]
  omega

theorem Valid.length_take_starts : ((t.levelStarts.take (level + 1)).drop 1).length = level := by
  rw [length_drop, length_take, h.starts]
  omega

theorem Valid.segment_of_lt {p : ℕ} (hp : p < t.boundary level) :
    t.segment p = ((t.levelStarts.take (level + 1)).drop 1).countP (· ≤ p) := by
  rw [h.segment_split hlt, Nat.add_eq_left, countP_eq_zero]
  intro x hx
  have := (h.starts_split hlt).2 x hx
  simp only [decide_eq_true_eq]
  omega

theorem Valid.segment_of_le {p : ℕ} (hp : t.boundary level ≤ p) :
    ((t.levelStarts.take (level + 1)).drop 1).countP (· ≤ p) = level := by
  rw [countP_eq_length.mpr, h.length_take_starts hlt]
  intro x hx
  exact decide_eq_true (((h.starts_split hlt).1 x (mem_of_mem_drop hx)).trans hp)

theorem Valid.level_le_of_mem_take {l : ℕ} (hl : l ∈ t.assignments.take (t.boundary level)) :
    t.level (l / 2) ≤ level := by
  obtain ⟨p, hp⟩ := mem_iff_getElem?.mp hl
  rw [getElem?_take] at hp
  split at hp
  · next hpb =>
    calc t.level (l / 2) ≤ t.segment p := h.level p l hp
      _ = ((t.levelStarts.take (level + 1)).drop 1).countP (· ≤ p) := h.segment_of_lt hlt hpb
      _ ≤ level := countP_le_length.trans (h.length_take_starts hlt).le
  · simp at hp

theorem backtrack_compacted :
    ∃ s, Compacted level (t.assignments.drop (t.boundary level))
        { t with assignments := t.assignments.take (t.boundary level) } s
        (t.backtrackToWithCallback level).2 ∧
      t.backtrackTo level = { s with
        levelStarts := t.levelStarts.take (level + 1)
        currentLevel := level
        propHead := min t.propHead (t.boundary level) } := by
  have hnd : ((t.assignments.drop (t.boundary level)).map (· / 2)).Nodup := by
    rw [map_drop]
    exact h.nodup.sublist (drop_sublist _ _)
  have hspec := @compact_spec level _ { t with assignments := t.assignments.take (t.boundary level) } hnd
  unfold backtrackTo backtrackToWithCallback
  rw [if_neg (by omega)]
  exact ⟨_, hspec, rfl⟩

end

theorem backtrack_assignments (level : ℕ) : (t.backtrackTo level).assignments =
    t.assignments.filter (fun l => t.level (l / 2) ≤ level) ∧
    (t.backtrackToWithCallback level).2 = t.assignments.filter fun l => level < t.level (l / 2) := by
  by_cases hlt : level < t.currentLevel
  · obtain ⟨s, hc, heq⟩ := backtrack_compacted h hlt
    have hlow : ∀ l ∈ t.assignments.take (t.boundary level), t.level (l / 2) ≤ level :=
      fun l => h.level_le_of_mem_take hlt
    have hsplit := take_append_drop (t.boundary level) t.assignments
    constructor
    · rw [heq]
      show s.assignments = _
      rw [hc.assignments]
      conv_rhs => rw [← hsplit, filter_append]
      refine congrArg (· ++ _) (filter_eq_self.mpr fun l hl => ?_).symm
      exact decide_eq_true (hlow l hl)
    · rw [hc.called]
      conv_rhs => rw [← hsplit, filter_append]
      have hnil : (t.assignments.take (t.boundary level)).filter
          (fun l => level < t.level (l / 2)) = [] := by
        refine filter_eq_nil_iff.mpr fun l hl => ?_
        have := hlow l hl
        simp only [decide_eq_true_eq]
        omega
      rw [hnil]
      rfl
  · have hle : ∀ l ∈ t.assignments, t.level (l / 2) ≤ level :=
      fun l hl => (h.level_le hl).trans (by omega)
    unfold backtrackTo backtrackToWithCallback
    rw [if_pos (by omega)]
    constructor
    · exact (filter_eq_self.mpr fun l hl => decide_eq_true (hle l hl)).symm
    · refine (filter_eq_nil_iff.mpr fun l hl => ?_).symm
      have := hle l hl
      simp only [decide_eq_true_eq]
      omega

theorem Valid.removed_iff (hlt : level < t.currentLevel) (l : ℕ) :
    (∃ r ∈ t.assignments.drop (t.boundary level), level < t.level (r / 2) ∧ r / 2 = l / 2) ↔
    level < t.level (l / 2) ∧ (l ∈ t.assignments ∨ neg l ∈ t.assignments) := by
  constructor
  · rintro ⟨r, hr, hgt, hv⟩
    refine ⟨hv ▸ hgt, ?_⟩
    rcases eq_or_eq_neg hv with rfl | rfl
    · exact .inl (mem_of_mem_drop hr)
    · exact .inr (mem_of_mem_drop hr)
  · rintro ⟨hgt, hmem⟩
    have hdrop : ∀ r ∈ t.assignments, r / 2 = l / 2 → r ∈ t.assignments.drop (t.boundary level) := by
      intro r hr hv
      rw [← take_append_drop (t.boundary level) t.assignments] at hr
      refine (mem_append.mp hr).resolve_left fun htake => ?_
      have := h.level_le_of_mem_take hlt htake
      rw [hv] at this
      omega
    rcases hmem with hm | hm
    · exact ⟨l, hdrop l hm rfl, hgt, rfl⟩
    · have hv := neg_div_two l
      exact ⟨neg l, hdrop _ hm hv, by rw [hv]; exact hgt, hv⟩

theorem Valid.backtrackTo (level : ℕ) : Valid (t.backtrackTo level) := by
  by_cases hlt : level < t.currentLevel
  swap
  · unfold Trail.backtrackTo backtrackToWithCallback
    rw [if_pos (by omega)]
    exact h
  obtain ⟨s, hc, heq⟩ := backtrack_compacted h hlt
  have hfilter := (backtrack_assignments h level).1
  have hB := h.boundary_le hlt
  have hlen : (t.assignments.take (t.boundary level)).length = t.boundary level := by
    rw [length_take]
    omega
  rw [heq] at hfilter ⊢
  dsimp only at hfilter
  have hlow : ∀ p l, p < t.boundary level → s.assignments[p]? = some l →
      t.assignments[p]? = some l ∧ s.varInfo (l / 2) = t.varInfo (l / 2) := by
    intro p l hp hl
    rw [hc.assignments, getElem?_append_left (by rw [hlen]; exact hp), getElem?_take_of_lt hp] at hl
    refine ⟨hl, hc.info _ fun r hr hv => ?_⟩
    -- a variable below the boundary does not come back above it
    have hnd := h.nodup
    rw [← take_append_drop (t.boundary level) t.assignments, map_append, nodup_append] at hnd
    have hmem : l ∈ t.assignments.take (t.boundary level) := by
      refine mem_iff_getElem?.mpr ⟨p, ?_⟩
      rw [getElem?_take_of_lt hp]
      exact hl
    exact hnd.2.2 _ (mem_map_of_mem hmem) _ (mem_map_of_mem hr) hv.symm
  refine ⟨?_, fun l => ?_, fun p l hp => ?_, ?_, ?_, fun x hx => ?_, fun p l hp => ?_, ?_⟩
  · show (s.assignments.map (· / 2)).Nodup
    rw [hfilter]
    exact h.nodup.sublist (filter_sublist.map _)
  · show s.values l = if l ∈ s.assignments then 1 else if neg l ∈ s.assignments then -1 else 0
    rw [hc.values, hfilter]
    have hiff := h.removed_iff hlt l
    show (if ∃ r ∈ t.assignments.drop (t.boundary level), level < t.level (r / 2) ∧ r / 2 = l / 2
      then 0 else t.values l) = _
    simp only [hiff, mem_filter, decide_eq_true_eq, neg_div_two]
    rw [h.values]
    by_cases h1 : l ∈ t.assignments <;> by_cases h2 : neg l ∈ t.assignments <;>
      by_cases h3 : t.level (l / 2) ≤ level <;> simp [h1, h2, h3]
  · rcases Nat.lt_or_ge p (t.boundary level) with hpb | hpb
    · obtain ⟨h1, h2⟩ := hlow p l hpb hp
      show (s.varInfo (l / 2)).trailIdx = p
      rw [h2]
      exact h.index p l h1
    · exact hc.index p l (by rw [hlen]; exact hpb) hp
  · show (t.levelStarts.take (level + 1)).length = level + 1
    rw [length_take, h.starts]
    omega
  · exact h.sorted.sublist (take_sublist _ _)
  · show x ≤ s.assignments.length
    rw [hc.assignments, length_append, hlen]
    exact ((h.starts_split hlt).1 x hx).trans (Nat.le_add_right _ _)
  · show s.level (l / 2) ≤ ((t.levelStarts.take (level + 1)).drop 1).countP (· ≤ p)
    rcases Nat.lt_or_ge p (t.boundary level) with hpb | hpb
    · obtain ⟨h1, h2⟩ := hlow p l hpb hp
      rw [← h.segment_of_lt hlt hpb]
      unfold Trail.level
      rw [h2]
      exact h.level p l h1
    · rw [h.segment_of_le hlt hpb]
      have hl : s.assignments[p]? = some l := hp
      rw [hc.assignments, getElem?_append_right (by rw [hlen]; exact hpb)] at hl
      obtain ⟨hr, hle⟩ := mem_filter.mp (mem_of_getElem? hl)
      have hle' : t.level (l / 2) ≤ level := of_decide_eq_true hle
      rw [(hc.kept l hr hle').1]
      exact hle'
  · show min t.propHead (t.boundary level) ≤ s.assignments.length
    rw [hc.assignments, length_append, hlen]
    omega

theorem backtrack_head (level : ℕ) : (t.backtrackTo level).propHead ≤ t.propHead ∧
    (t.backtrackTo level).assignments.take (t.backtrackTo level).propHead =
    t.assignments.take (t.backtrackTo level).propHead := by
  by_cases hlt : level < t.currentLevel
  · obtain ⟨s, hc, heq⟩ := backtrack_compacted h hlt
    have hB := h.boundary_le hlt
    rw [heq]
    dsimp only
    refine ⟨min_le_left _ _, ?_⟩
    rw [hc.assignments, take_append_of_le_length, take_take]
    · congr 1
      omega
    · rw [length_take]
      omega
  · unfold Trail.backtrackTo backtrackToWithCallback
    rw [if_pos (by omega)]
    exact ⟨le_refl _, rfl⟩

end

theorem clearValues_eq (lits : List ℕ) (values : ℕ → ℤ) (l : ℕ) :
    clearValues lits values l = if ∃ r ∈ lits, r / 2 = l / 2 then 0 else values l := by
  induction lits generalizing values with
  | nil => simp [clearValues]
  | cons r lits ih =>
    rw [clearValues, ih]
    by_cases hr : r / 2 = l / 2
    · have hzero : update (update values r 0) (neg r) 0 l = 0 := by
        rcases eq_or_eq_neg hr.symm with rfl | rfl
        · rw [update_of_ne (neg_ne l).symm, update_self]
        · rw [update_self]
      simp [hr, hzero]
    · have h1 : l ≠ r := fun he => hr (by rw [he])
      have h2 : l ≠ neg r := fun he => hr (by rw [he, neg_div_two])
      simp [hr, h1, h2]

theorem Valid.clear (h : Valid t) : Valid t.clear := by
  refine ⟨nodup_nil, fun l => ?_, by simp [Trail.clear], rfl, by simp [Trail.clear],
    by simp [Trail.clear], by simp [Trail.clear], by simp [Trail.clear]⟩
  show clearValues t.assignments t.values l = _
  rw [clearValues_eq]
  split
  · simp [Trail.clear]
  · next hno =>
    have h1 : l ∉ t.assignments := fun hl => hno ⟨l, hl, rfl⟩
    have h2 : neg l ∉ t.assignments := fun hl => hno ⟨_, hl, neg_div_two l⟩
    rw [h.values]
    simp [Trail.clear, h1, h2]

section

inductive Op
  | newDecisionLevel
  | assignDecision (lit : ℕ)
  | assignPropagation (lit clause : ℕ)
  | assignTheory (lit : ℕ)
  | assignPropagationAt (lit clause level : ℕ)
  | assignUnitFact (lit : ℕ)
  | nextToPropagate
  | requeueLastPropagated
  | resetPropagationHead
  | backtrackTo (level : ℕ)
  | clear

structure Play where
  trail : Trail := {}
  propagated : List ℕ := []

def Play.assign (s : Play) (lit : ℕ) (reason : Reason) (level : ℕ) : Option Play :=
  if s.trail.values lit = 0 ∧ level ≤ s.trail.currentLevel
  then some { s with trail := s.trail.assignAt lit reason level } else none

def Play.perform (s : Play) : Op → Option Play
  | .newDecisionLevel => some { s with trail := s.trail.newDecisionLevel }
  | .assignDecision lit => s.assign lit .decision s.trail.currentLevel
  | .assignPropagation lit clause => s.assign lit (.propagation clause) s.trail.currentLevel
  | .assignTheory lit => s.assign lit .theory s.trail.currentLevel
  | .assignPropagationAt lit clause level => s.assign lit (.propagation clause) level
  | .assignUnitFact lit => s.assign lit .decision 0
  | .nextToPropagate =>
    match s.trail.nextToPropagate with
    | none => some s
    | some (lit, trail) => some ⟨trail, lit :: s.propagated⟩
  | .requeueLastPropagated => some
    { trail := s.trail.requeueLastPropagated
      propagated := s.propagated.filter fun l =>
        s.trail.assignments[s.trail.propHead - 1]? ≠ some l }
  | .resetPropagationHead => some { trail := s.trail.resetPropagationHead, propagated := [] }
  | .backtrackTo level => some
    { trail := s.trail.backtrackTo level
      propagated := s.propagated.filter fun l => l ∈ (s.trail.backtrackTo level).assignments }
  | .clear => some { trail := s.trail.clear, propagated := [] }

def Play.run (s : Play) (ops : List Op) : Option Play := ops.foldlM Play.perform s

structure Play.Sound (s : Play) : Prop where
  valid : Valid s.trail
  propagated : ∀ l ∈ s.trail.assignments.take s.trail.propHead, l ∈ s.propagated

variable {s s' : Play}

theorem Play.Sound.assign (h : s.Sound) (ha : s.assign lit reason level = some s') : s'.Sound := by
  unfold Play.assign at ha
  split at ha
  · next hc =>
    obtain rfl := some.inj ha
    refine ⟨h.valid.assignAt hc.1 hc.2, fun l hl => h.propagated l ?_⟩
    have hl' : l ∈ (s.trail.assignments ++ [lit]).take s.trail.propHead := hl
    rwa [take_append_of_le_length h.valid.head] at hl'
  · cases ha

theorem Play.Sound.backtrackTo (h : s.Sound) (level : ℕ) : ∀ l ∈ (s.trail.backtrackTo level).assignments.take
    (s.trail.backtrackTo level).propHead, l ∈ s.propagated := by
  obtain ⟨hle, htake⟩ := backtrack_head h.valid level
  intro l hl
  rw [htake] at hl
  exact h.propagated l ((take_subset_take_left _ hle) hl)

theorem Play.Sound.perform {op : Op} (h : s.Sound) (hp : s.perform op = some s') : s'.Sound := by
  cases op with
  | newDecisionLevel =>
    obtain rfl := some.inj hp
    exact ⟨h.valid.newDecisionLevel, h.propagated⟩
  | assignDecision lit => exact h.assign hp
  | assignPropagation lit clause => exact h.assign hp
  | assignTheory lit => exact h.assign hp
  | assignPropagationAt lit clause level => exact h.assign hp
  | assignUnitFact lit => exact h.assign hp
  | nextToPropagate =>
    unfold Play.perform at hp
    cases hget : s.trail.assignments[s.trail.propHead]? with
    | none =>
      simp only [Trail.nextToPropagate, hget, map_none] at hp
      obtain rfl := some.inj hp
      exact h
    | some lit =>
      simp only [Trail.nextToPropagate, hget, map_some] at hp
      obtain rfl := some.inj hp
      have hlt : s.trail.propHead < s.trail.assignments.length := (List.getElem?_eq_some_iff.mp hget).1
      refine ⟨{ h.valid with head := hlt }, fun l hl => ?_⟩
      have hl' : l ∈ s.trail.assignments.take (s.trail.propHead + 1) := hl
      rw [List.take_add_one, hget] at hl'
      rcases mem_append.mp hl' with hl' | hl'
      · exact mem_cons_of_mem _ (h.propagated l hl')
      · obtain rfl : l = lit := by simpa using hl'
        exact mem_cons_self
  | requeueLastPropagated =>
    obtain rfl := some.inj hp
    refine ⟨{ h.valid with head := (Nat.sub_le _ _).trans h.valid.head }, fun l hl => ?_⟩
    have hl' : l ∈ s.trail.assignments.take (s.trail.propHead - 1) := hl
    refine mem_filter.mpr ⟨h.propagated l (take_subset_take_left _ (Nat.sub_le _ _) hl'), ?_⟩
    refine decide_eq_true fun hlast => ?_
    -- the literal handed back stands nowhere before its place
    obtain ⟨p, hpos⟩ := mem_iff_getElem?.mp hl'
    rw [getElem?_take] at hpos
    split at hpos
    · next hlt =>
      have h1 := h.valid.index p l hpos
      have h2 := h.valid.index _ l hlast
      omega
    · simp at hpos
  | resetPropagationHead =>
    obtain rfl := some.inj hp
    exact ⟨{ h.valid with head := Nat.zero_le _ }, by simp [Trail.resetPropagationHead]⟩
  | backtrackTo level =>
    obtain rfl := some.inj hp
    refine ⟨h.valid.backtrackTo level, fun l hl => ?_⟩
    exact mem_filter.mpr ⟨h.backtrackTo level l hl, decide_eq_true (mem_of_mem_take hl)⟩
  | clear =>
    obtain rfl := some.inj hp
    exact ⟨h.valid.clear, by simp [Trail.clear]⟩

theorem Play.run_sound {ops : List Op} (h : s.Sound) (hr : s.run ops = some s') : s'.Sound := by
  induction ops generalizing s with
  | nil =>
    obtain rfl := some.inj hr
    exact h
  | cons op ops ih =>
    simp only [Play.run, foldlM_cons, bind_eq_bind, bind_eq_some_iff] at hr
    obtain ⟨s1, h1, hr⟩ := hr
    exact ih (h.perform h1) hr

structure Agree (t : Trail) : Prop where
  nodup : (t.assignments.map (· / 2)).Nodup
  assigned : ∀ v, t.isAssigned v = true ↔ ∃ l ∈ t.assignments, l / 2 = v
  value : ∀ l, (t.litVal l = 1 ↔ l ∈ t.assignments) ∧ (t.litVal l = -1 ↔ neg l ∈ t.assignments)
  index : ∀ l ∈ t.assignments, t.assignments[(t.varInfo (l / 2)).trailIdx]? = some l
  segment : ∀ k p l, t.levelStart k ≤ p → p < t.levelStart (k + 1) → t.assignments[p]? = some l →
    t.level (l / 2) ≤ k

structure Filters (t : Trail) (level : ℕ) (propagated : List ℕ) : Prop where
  kept : (t.backtrackTo level).assignments = t.assignments.filter fun l => t.level (l / 2) ≤ level
  called : (t.backtrackToWithCallback level).2.Nodup ∧
    ∀ l, l ∈ (t.backtrackToWithCallback level).2 ↔
      l ∈ t.assignments ∧ l ∉ (t.backtrackTo level).assignments
  head : ∀ l ∈ (t.backtrackTo level).assignments.take (t.backtrackTo level).propHead, l ∈ propagated

theorem Valid.agree (h : Valid t) : Agree t := by
  refine ⟨h.nodup, fun v => ?_, fun l => ⟨h.mem_iff.symm, h.neg_mem_iff.symm⟩, fun l hl => ?_,
    fun k p l _ hp hl => (h.level p l hl).trans ?_⟩
  · unfold isAssigned
    rw [decide_eq_true_eq]
    constructor
    · intro hne
      by_cases hpos : 2 * v ∈ t.assignments
      · exact ⟨2 * v, hpos, by omega⟩
      · have hneg : neg (2 * v) ∈ t.assignments := by
          by_contra hn
          exact hne (by rw [h.values, if_neg hpos, if_neg hn])
        exact ⟨_, hneg, by rw [neg_div_two]; omega⟩
    · rintro ⟨l, hl, rfl⟩
      have hv : l / 2 = 2 * (l / 2) / 2 := by omega
      intro hzero
      exact h.fresh hzero l hl hv
  · obtain ⟨p, hp⟩ := mem_iff_getElem?.mp hl
    rw [h.index p l hp]
    exact hp
  · rcases Nat.lt_or_ge k t.currentLevel with hk | hk
    · have hb : t.levelStart (k + 1) = t.boundary k := by
        have hlen : k + 1 < t.levelStarts.length := by rw [h.starts]; omega
        unfold levelStart boundary
        rw [getD_eq_getElem _ _ hlen, getD_eq_getElem _ _ hlen]
      rw [h.segment_of_lt hk (hb ▸ hp)]
      exact countP_le_length.trans (h.length_take_starts hk).le
    · exact (h.segment_le p).trans hk

theorem Play.Sound.filters (h : s.Sound) (level : ℕ) : Filters s.trail level s.propagated := by
  obtain ⟨hkept, hcalled⟩ := backtrack_assignments h.valid level
  refine ⟨hkept, ⟨?_, fun l => ?_⟩, h.backtrackTo level⟩
  · rw [hcalled]
    exact h.valid.nodup.of_map.sublist filter_sublist
  · rw [hcalled, hkept, mem_filter, mem_filter]
    simp only [decide_eq_true_eq]
    constructor
    · rintro ⟨hl, hgt⟩
      exact ⟨hl, fun hk => by omega⟩
    · rintro ⟨hl, hk⟩
      exact ⟨hl, Nat.lt_of_not_le fun hle => hk ⟨hl, hle⟩⟩

theorem trail_agrees {ops : List Op} (hrun : Play.run {} ops = some s) :
    Agree s.trail ∧ ∀ level, Filters s.trail level s.propagated := by
  have hsound : s.Sound := Play.run_sound ⟨valid_empty, by simp⟩ hrun
  exact ⟨hsound.valid.agree, hsound.filters⟩

theorem trail_agrees_out_of_order :
    ∃ s, Play.run {} [.newDecisionLevel, .assignDecision 0, .nextToPropagate, .newDecisionLevel,
        .assignDecision 2, .nextToPropagate, .assignPropagationAt 5 7 1, .nextToPropagate,
        .backtrackTo 1] = some s ∧ s.trail.assignments = [0, 5] ∧ s.trail.propHead = 1 ∧
      Agree s.trail ∧ ∀ level, Filters s.trail level s.propagated :=
  ⟨_, rfl, rfl, rfl, @trail_agrees _ [.newDecisionLevel, .assignDecision 0, .nextToPropagate,
    .newDecisionLevel, .assignDecision 2, .nextToPropagate, .assignPropagationAt 5 7 1,
    .nextToPropagate, .backtrackTo 1] rfl⟩

end

end Nixie.Sat.Trail
