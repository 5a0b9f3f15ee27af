import Nixie.DiffLogic.DenseSession

/-!
What the dense core answers over whole sessions: the distances are those of the asserted edges,
conflicts are negative cycles, and reasons entail what they are given for. All of it rests on the
ids of the stored edges staying below the two sentinels.
-/

namespace Nixie.DiffLogic

open Nixie.Graph Nixie.Rust List

def DlEdge.Holds (e : DlEdge) (v : ℕ → ℤ) : Prop := v e.dst - v e.src ≤ e.offset

def DlAtomEntry.Holds (a : DlAtomEntry) (v : ℕ → ℤ) : Prop :=
  if a.isEq then v a.t - v a.s = a.k else v a.t - v a.s ≤ a.k

theorem sub_le_weight {v : ℕ → ℤ} {es p : List DlEdge} {a b : ℕ} (hv : ∀ e ∈ es, e.Holds v)
    (hp : p ⊆ es) (hw : IsWalk a p b) : v b - v a ≤ weight p := by
  have hf : Feasible es v := by
    intro e he
    have := hv e he
    unfold DlEdge.Holds at this
    show v e.dst ≤ v e.src + e.offset
    omega
  have := hf.le_weight hp hw
  omega

theorem Grounds.entails {a : DlAtomEntry} {pol : Bool} {es : List DlEdge} {v : ℕ → ℤ}
    (h : Grounds a pol es) (hv : ∀ e ∈ es, e.Holds v) : a.Holds v ↔ pol = true := by
  unfold DlAtomEntry.Holds
  cases h with
  | upper heq hperm hw hle =>
    have := sub_le_weight hv hperm.symm.subset hw
    simp only [heq, Bool.false_eq_true, ↓reduceIte, iff_true]
    omega
  | lower heq hperm hw hlt =>
    have := sub_le_weight hv hperm.symm.subset hw
    simp only [heq, Bool.false_eq_true, ↓reduceIte, iff_false]
    omega
  | both heq _ hperm hp hple hq hqle =>
    have hsub := append_subset.mp hperm.symm.subset
    have h₁ := sub_le_weight hv hsub.1 hp
    have h₂ := sub_le_weight hv hsub.2 hq
    simp only [heq, ↓reduceIte, iff_true]
    omega

namespace DenseDlCore

variable {core : DenseDlCore} {σ : Session}

structure ClosureExact (core : DenseDlCore) (σ : Session) : Prop where
  distance : ∀ s t d, s < core.n → t < core.n →
    (core.distance s t = some d ↔ IsDist σ.asserted s t d)
  known : ∀ s t, s < core.n → t < core.n →
    ((core.distance s t).isSome ↔ Reaches σ.asserted s t)
  conflict : ∀ e, core.Admissible e →
    ((∃ reason, (core.assert e).2 = .conflict reason) ↔ Closes σ.asserted e)
  unchanged : ∀ e reason, core.Admissible e → (core.assert e).2 = .conflict reason →
    (core.assert e).1 = core
  overflow : core.overflow = false
  sentinel : ∀ s t d, s < core.n → IsDist σ.asserted s t d → d ≠ dlInf

structure ReasonsEntail (core : DenseDlCore) (σ : Session) : Prop where
  queued : ∀ p ∈ core.pending, ∃ a, core.atomOf p.key = some a ∧
    ∃ es, es ⊆ σ.asserted ∧ p.reason = es.map DlEdge.justification ∧
      (∀ v, (∀ e ∈ es, e.Holds v) → (a.Holds v ↔ p.pol = true)) ∧
      (a.isEq = true → ∃ d d', core.distance a.s a.t = some d ∧ d ≤ a.k ∧
        core.distance a.t a.s = some d' ∧ d' ≤ -a.k)
  conflict : ∀ e reason, core.Admissible e → (core.assert e).2 = .conflict reason →
    ∃ es p, es ⊆ σ.asserted ∧ reason = es.map DlEdge.justification ++ [e.justification] ∧
      es.Perm p ∧ IsWalk e.dst p e.src ∧ e.offset + weight p < 0
  complete : core.truncated = false

theorem Inv.distance_eq (h : Inv core σ) {s t : ℕ} (hs : s < core.n) (ht : t < core.n) :
    core.distance s t =
      if (core.cells s t).dist ≠ dlInf then some (core.cells s t).dist else none := by
  unfold DenseDlCore.distance
  simp only [distOf_eq hs ht, edgeAt_eq hs ht]
  by_cases hk : (core.cells s t).dist ≠ dlInf
  · rw [if_pos hk, if_pos ⟨hk, h.closed.edge_ne_noEdge hk⟩]
  · rw [if_neg hk, if_neg fun hc => hk hc.1]

theorem Inv.distance_iff (h : Inv core σ) {s t : ℕ} {d : ℤ} (hs : s < core.n) (ht : t < core.n) :
    core.distance s t = some d ↔ IsDist σ.asserted s t d := by
  rw [h.distance_eq hs ht]
  constructor
  · intro heq
    split at heq
    · next hk =>
      obtain rfl := Option.some.inj heq
      exact h.closed.isDist hk
    · simp at heq
  · intro hd
    have hk := (h.closed.known_iff hs).mpr hd.reaches
    rw [if_pos hk, (h.closed.isDist hk).unique hd]

theorem Inv.distance_le (h : Inv core σ) {s t : ℕ} {p : List DlEdge} {k : ℤ} (hs : s < core.n) (hp : p ⊆ σ.asserted)
    (hw : IsWalk s p t) (hle : weight p ≤ k) : ∃ d, core.distance s t = some d ∧ d ≤ k := by
  obtain ⟨hk, hle'⟩ := h.closed.least s t p hs hp hw
  refine ⟨(core.cells s t).dist, ?_, hle'.trans hle⟩
  rw [h.distance_eq hs (h.closed.lt hk).2, if_pos hk]

theorem Inv.closureExact (h : Inv core σ) : ClosureExact core σ := by
  refine ⟨fun s t d hs ht => h.distance_iff hs ht, ?_, fun e ha => h.conflict_iff ha, ?_, h.overflow, ?_⟩
  · intro s t hs ht
    rw [← h.closed.known_iff hs, h.distance_eq hs ht]
    by_cases hk : (core.cells s t).dist ≠ dlInf
    · simp [hk]
    · simp [hk]
  · intro e reason ha hconf
    obtain ⟨es, p, -, -, -, -, heq⟩ := h.assert_conflict ha ((h.conflict_iff ha).mp ⟨reason, hconf⟩)
    rw [heq]
  · intro s t d hs hd heq
    have hk := (h.closed.known_iff hs).mpr hd.reaches
    rw [hd.unique (h.closed.isDist hk)] at heq
    exact hk heq

theorem closure_exact (h : Runs (fun core op => core.Legal op ∧ core.Storable op) core σ) :
    ClosureExact core σ := h.inv.closureExact

theorem Inv.bounded_of_both (h : Inv core σ) {a : DlAtomEntry} {pol : Bool} {es : List DlEdge} (hg : Grounds a pol es)
    (heq : a.isEq = true) (hes : es ⊆ σ.asserted) : ∃ d d', core.distance a.s a.t = some d ∧ d ≤ a.k ∧
    core.distance a.t a.s = some d' ∧ d' ≤ -a.k := by
  cases hg with
  | upper hne => simp [heq] at hne
  | lower hne => simp [heq] at hne
  | @both _ p q _ hst hperm hp hple hq hqle =>
    have hsub := append_subset.mp (List.Subset.trans hperm.symm.subset hes)
    have hstart : ∀ {u v : ℕ} {r : List DlEdge}, u ≠ v → r ⊆ σ.asserted → IsWalk u r v → u < core.n := by
      intro u v r hne hr hw
      cases r with
      | nil => exact absurd hw hne
      | cons e r => exact hw.1 ▸ (h.closed.arcs e (hr (by simp))).1
    obtain ⟨d, hd, hdle⟩ := h.distance_le (hstart hst hsub.1 hp) hsub.1 hp hple
    obtain ⟨d', hd', hdle'⟩ := h.distance_le (hstart hst.symm hsub.2 hq) hsub.2 hq hqle
    exact ⟨d, d', hd, hdle, hd', hdle'⟩

theorem Inv.reasonsEntail (h : Inv core σ) : ReasonsEntail core σ := by
  refine ⟨?_, ?_, h.truncated⟩
  · intro p hp
    obtain ⟨a, hmem, hkey, es, hes, hreason, hg⟩ := h.pending p hp
    obtain ⟨wid, hwid⟩ := mem_iff_getElem?.mp hmem
    have hes' := List.Subset.trans hes h.closed.stored
    refine ⟨a, ?_, es, hes', hreason, fun v hv => hg.entails hv, fun heq => h.bounded_of_both hg heq hes'⟩
    unfold atomOf
    rw [← hkey, h.watched.keys wid a hwid]
    exact hwid
  · intro e reason ha hconf
    obtain ⟨es, p, hes, hperm, hw, hlt, heq⟩ :=
      h.assert_conflict ha ((h.conflict_iff ha).mp ⟨reason, hconf⟩)
    rw [heq] at hconf
    exact ⟨es, p, List.Subset.trans hes h.closed.stored, (DlAssert.conflict.inj hconf).symm, hperm, hw, hlt⟩

theorem reasons_entail (h : Runs (fun core op => core.Legal op ∧ core.Storable op) core σ) :
    ReasonsEntail core σ := h.inv.reasonsEntail

def chain : List Op :=
  [.internNode, .internNode, .internNode, .internAtom 100 0 2 5 false,
    .assertEdge ⟨0, 1, 3, 10, true⟩, .push, .assertEdge ⟨1, 2, 2, 11, true⟩]

def play : List Op → DenseDlCore × Session → DenseDlCore × Session
  | [], c => c
  | op :: ops, (core, σ) => play ops (core.perform op, core.record σ op)

theorem runs_chain : Runs (fun core op => core.Legal op ∧ core.Storable op)
    (play chain ({}, {})).1 (play chain ({}, {})).2 := by
  have hnode : ∀ {core : DenseDlCore} {σ : Session},
      Runs (fun core op => core.Legal op ∧ core.Storable op) core σ → core.n < dlMaxNodes →
      Runs (fun core op => core.Legal op ∧ core.Storable op) (core.perform .internNode) σ :=
    fun h hn => .step .internNode h ⟨hn, trivial⟩
  have h₃ := hnode (hnode (hnode .start (by decide)) (by decide)) (by decide)
  have h₄ := Runs.step (.internAtom 100 0 2 5 false) h₃ ⟨by unfold Legal; decide, trivial⟩
  have h₅ := Runs.step (.assertEdge ⟨0, 1, 3, 10, true⟩) h₄ ⟨⟨by decide, by decide, by decide⟩, fun _ => by decide⟩
  have h₆ := Runs.step .push h₅ ⟨trivial, trivial⟩
  exact Runs.step (.assertEdge ⟨1, 2, 2, 11, true⟩) h₆ ⟨⟨by decide, by decide, by decide⟩, fun _ => by decide⟩

theorem closure_exact_chain : (play chain ({}, {})).1.distance 0 2 = some 5 ∧
    ClosureExact (play chain ({}, {})).1 (play chain ({}, {})).2 :=
  ⟨by decide, closure_exact runs_chain⟩

theorem reasons_entail_chain : (play chain ({}, {})).1.pending = [⟨100, true, [(11, true), (10, true)]⟩] ∧
    ReasonsEntail (play chain ({}, {})).1 (play chain ({}, {})).2 :=
  ⟨by decide, reasons_entail runs_chain⟩

section

def pair : DenseDlCore :=
  ({} : DenseDlCore).internNode.1.internNode.1.internAtom 7 0 1 (2 ^ 40 - 2 ^ 32 + 1) false

def paired (d : ℤ) (id : ℕ) (edges : List DlEdge) (trail : List TrailedCell) : DenseDlCore :=
  { pair with
    dist := [0, d, dlInf, dlInf, dlInf, 0, dlInf, dlInf]
    edgeOf := [selfEdge, id, noEdge, noEdge, noEdge, selfEdge, noEdge, noEdge]
    edges := edges
    cellTrail := trail }

theorem pair_eq : pair = paired dlInf noEdge [] [] := rfl

variable {d k : ℤ} {id n : ℕ} {edges : List DlEdge} {trail : List TrailedCell}

theorem updateCells_paired {e : DlEdge} (he : e = ⟨0, 1, k, 1, true⟩) (hd : k < d) (hfit : fitsI64 k = true)
    (hlast : edges[n]? = some e) : (paired d id edges trail).updateCells n =
    (paired k n edges (⟨0, 1, id, d⟩ :: trail)).propagateUsingCell 0 1 := by
  subst he
  have hsums : (paired d id edges trail).sums ⟨0, 1, k, 1, true⟩ = [(1, k)] := by
    show [(1, k + 0)] = _
    rw [add_zero]
  have htargets : (paired d id edges trail).fTargets ⟨0, 1, k, 1, true⟩ = [(1, k)] := by
    unfold fTargets
    rw [hsums]
    simp only [filterMap_cons, filterMap_nil, wrapI64_of_fits hfit]
    rw [show (paired d id edges trail).distOf 0 1 = d from rfl, if_pos hd]
  have hzero : relaxRow n ⟨0, 1, k, 1, true⟩ [(1, k)] (paired d id edges trail) 0 =
      (paired k n edges (⟨0, 1, id, d⟩ :: trail)).propagateUsingCell 0 1 := by
    show relaxCell n 0 0 (paired d id edges trail) (1, k) = _
    simp only [relaxCell, zero_add, note_of_fits hfit, wrapI64_of_fits hfit]
    rw [if_neg (by decide), show (paired d id edges trail).distOf 0 1 = d from rfl, if_pos hd]
    rfl
  have hone : ∀ core, relaxRow n ⟨0, 1, k, 1, true⟩ [(1, k)] core 1 = core := fun core => rfl
  unfold updateCells
  rw [show (paired d id edges trail).edges = edges from rfl, hlast]
  simp only [htargets, hsums, foldl_cons, foldl_nil, note_of_fits hfit]
  show relaxRow n ⟨0, 1, k, 1, true⟩ [(1, k)]
    (relaxRow n ⟨0, 1, k, 1, true⟩ [(1, k)] (paired d id edges trail) 0) 1 = _
  rw [hone, hzero]

theorem assert_paired (hd : k < d) (hk : |k| ≤ dlMaxAbsWeight) (hlen : edges.length < 2 ^ 32) :
    (paired d id edges trail).assert ⟨0, 1, k, 1, true⟩ =
    ((paired k edges.length (edges ++ [⟨0, 1, k, 1, true⟩])
    (⟨0, 1, id, d⟩ :: trail)).propagateUsingCell 0 1, .ok) := by
  have hfit : fitsI64 k = true := fits_of_abs (hk.trans (by decide))
  have hassert : (paired d id edges trail).assert ⟨0, 1, k, 1, true⟩ =
      ((paired d id (edges ++ [⟨0, 1, k, 1, true⟩]) trail).updateCells (edges.length % 2 ^ 32), .ok) := by
    unfold assert assertEdge
    simp only [show (paired d id edges trail).distOf 1 0 = dlInf from rfl,
      note_of_fits (show fitsI64 (-dlInf) = true by decide)]
    rw [if_neg (by simp), show (paired d id edges trail).distOf 0 1 = d from rfl, if_pos hd]
    rfl
  rw [hassert, Nat.mod_eq_of_lt hlen, updateCells_paired rfl hd hfit (by simp)]

theorem propagate_paired (hk : 2 ^ 40 - 2 ^ 32 + 1 < k) :
    (paired k id edges trail).propagateUsingCell 0 1 = paired k id edges trail := by
  show propagateWatch 0 1 (paired k id edges trail) 0 = _
  show (if k ≤ 2 ^ 40 - 2 ^ 32 + 1 then _ else paired k id edges trail) = _
  rw [if_neg (by omega)]

def rung (i : ℕ) : DlEdge := ⟨0, 1, 2 ^ 40 - i, 1, true⟩

def ladder : ℕ → DenseDlCore
  | 0 => pair
  | m + 1 => ((ladder m).assert (rung m)).1

def climb : ℕ → Session
  | 0 => {}
  | m + 1 => { climb m with asserted := rung m :: (climb m).asserted }

variable {m : ℕ}

theorem abs_rung_le (hm : m < 2 ^ 32) : |(2 : ℤ) ^ 40 - m| ≤ dlMaxAbsWeight := by
  unfold dlMaxAbsWeight
  exact abs_le.mpr (by omega)

theorem ladder_eq (hm : m < 2 ^ 32) : ∃ d id edges trail, ladder m = paired d id edges trail ∧
    edges.length = m ∧ 2 ^ 40 - m < d := by
  induction m with
  | zero => exact ⟨dlInf, noEdge, [], [], pair_eq, rfl, by decide⟩
  | succ m ih =>
    obtain ⟨d, id, edges, trail, heq, hlen, hlt⟩ := ih (by omega)
    refine ⟨2 ^ 40 - m, edges.length, edges ++ [rung m], ⟨0, 1, id, d⟩ :: trail, ?_, ?_, ?_⟩
    · show ((ladder m).assert (rung m)).1 = _
      rw [heq, rung, assert_paired hlt (abs_rung_le (by omega)) (by omega), propagate_paired (by omega)]
    · rw [length_append, hlen, length_singleton]
    · push_cast
      omega

theorem runs_ladder (hm : m ≤ 2 ^ 32) : Runs Legal (ladder m) (climb m) := by
  induction m with
  | zero =>
    have h₁ : Runs Legal _ _ := .step .internNode .start (by unfold Legal; decide)
    have h₂ : Runs Legal _ _ := .step .internNode h₁ (by unfold Legal; decide)
    exact .step (.internAtom 7 0 1 (2 ^ 40 - 2 ^ 32 + 1) false) h₂ (by unfold Legal; decide)
  | succ m ih =>
    have hm' : m < 2 ^ 32 := by omega
    obtain ⟨d, id, edges, trail, heq, hlen, hlt⟩ := ladder_eq hm'
    have hlegal : (ladder m).Legal (.assertEdge (rung m)) := by
      rw [heq]
      exact ⟨Nat.zero_lt_two, Nat.one_lt_two, abs_rung_le hm'⟩
    have hok : ((ladder m).assert (rung m)).2 = .ok := by
      rw [heq, rung, assert_paired hlt (abs_rung_le hm') (by omega)]
    have hrecord : (ladder m).record (climb m) (.assertEdge (rung m)) = climb (m + 1) := by
      simp only [record, hok]
      rfl
    have hstep : Runs Legal _ _ := .step _ (ih (by omega)) hlegal
    rw [hrecord] at hstep
    exact hstep

theorem ladder_top (hm : m + 1 = 2 ^ 32) : ∃ edges trail, ladder (m + 1) =
    { paired (2 ^ 40 - 2 ^ 32 + 1) noEdge edges trail with pending := [⟨7, true, []⟩] } := by
  obtain ⟨d, id, edges, trail, heq, hlen, hlt⟩ := ladder_eq (m := m) (by omega)
  have hweight : (2 : ℤ) ^ 40 - m = 2 ^ 40 - 2 ^ 32 + 1 := by omega
  have hid : edges.length = noEdge := by
    unfold noEdge
    omega
  refine ⟨edges ++ [rung m], ⟨0, 1, id, d⟩ :: trail, ?_⟩
  show ((ladder m).assert (rung m)).1 = _
  rw [heq, rung, assert_paired hlt (abs_rung_le (by omega)) (by omega), hweight, hid]
  rfl

theorem closure_inexact_at_noEdge : ¬ ∀ core σ, Runs Legal core σ → ClosureExact core σ := by
  intro h
  obtain ⟨m, hm⟩ : ∃ m, m + 1 = 2 ^ 32 := ⟨2 ^ 32 - 1, by norm_num⟩
  obtain ⟨edges, trail, heq⟩ := ladder_top hm
  have hexact := h _ _ (runs_ladder hm.le)
  have hn : (ladder (m + 1)).n = 2 := by rw [heq]; rfl
  have hnone : (ladder (m + 1)).distance 0 1 = none := by rw [heq]; rfl
  have hknown := hexact.known 0 1 (by omega) (by omega)
  have hreach : Reaches (climb (m + 1)).asserted 0 1 := ⟨[rung m], cons_subset.mpr ⟨mem_cons_self, by simp⟩, rfl, rfl⟩
  rw [hnone] at hknown
  exact absurd (hknown.mpr hreach) (by simp)

theorem reasons_empty_at_noEdge : ¬ ∀ core σ, Runs Legal core σ → ReasonsEntail core σ := by
  intro h
  obtain ⟨m, hm⟩ : ∃ m, m + 1 = 2 ^ 32 := ⟨2 ^ 32 - 1, by norm_num⟩
  obtain ⟨edges, trail, heq⟩ := ladder_top hm
  have hentail := h _ _ (runs_ladder hm.le)
  obtain ⟨a, ha, es, -, hreason, hholds, -⟩ := hentail.queued ⟨7, true, []⟩ (by rw [heq]; simp)
  obtain rfl : (⟨7, 0, 1, 2 ^ 40 - 2 ^ 32 + 1, false⟩ : DlAtomEntry) = a := by
    rw [heq] at ha
    exact Option.some.inj ha
  obtain rfl : es = [] := by simpa using hreason.symm
  -- nothing bounds the difference of the two nodes
  have := (hholds (fun i => if i = 1 then 2 ^ 40 else 0) (by simp)).mpr rfl
  simp [DlAtomEntry.Holds] at this

end

end DenseDlCore

end Nixie.DiffLogic
