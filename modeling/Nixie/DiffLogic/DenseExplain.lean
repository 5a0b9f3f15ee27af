import Nixie.DiffLogic.DenseClosure

/-!
Explanations of the dense core: the worklist emits the path a cell decomposes into, within its
step cap, and every queued propagation rests on such paths.
-/

namespace Nixie.DiffLogic

open Nixie.Graph Nixie.Rust List

def DlEdge.justification (e : DlEdge) : ℕ × Bool := (e.key, e.pol)

namespace DenseDlCore

variable {core : DenseDlCore} {a b s t y x : ℕ} {p : List DlEdge}

def Within (core : DenseDlCore) : Prop := ∀ e ∈ core.edges, e.src < core.n ∧ e.dst < core.n

theorem antecedentsLoop_spec (hin : core.Within) (hp : Decomposes core.cells core.edges a b p)
    (ha : a < core.n) (hb : b < core.n) (fuel steps : ℕ) (todo : List (ℕ × ℕ))
    (scratch : List (ℕ × Bool)) (hcap : steps + p.length ≤ core.edges.length * 2 + 8) :
    ∃ q : List DlEdge, q.Perm p ∧
      core.antecedentsLoop (fuel + p.length) steps (if a ≠ b then (a, b) :: todo else todo) scratch =
        core.antecedentsLoop fuel (steps + p.length) todo (scratch ++ q.map DlEdge.justification) := by
  induction hp generalizing fuel steps todo scratch with
  | nil h0 => exact ⟨[], .refl _, by simp⟩
  | @step a b e p q hne hlt he hd hp hq ihp ihq =>
    obtain ⟨hsrc, hdst⟩ := hin e (mem_of_getElem? he)
    have hlen : (p ++ e :: q).length = p.length + q.length + 1 := by
      simp only [length_append, length_cons]
      omega
    rw [hlen] at hcap ⊢
    obtain ⟨q', hq', heq⟩ := ihq hdst hb (fuel + p.length) (steps + 1)
      (if a ≠ e.src then (a, e.src) :: todo else todo) (scratch ++ [(e.key, e.pol)]) (by omega)
    obtain ⟨p', hp', hep⟩ := ihp ha hsrc fuel (steps + 1 + q.length) todo
      (scratch ++ [(e.key, e.pol)] ++ q'.map DlEdge.justification) (by omega)
    refine ⟨e :: (q' ++ p'), ?_, ?_⟩
    · exact ((hq'.append hp').cons e).trans (@perm_append_comm _ (e :: q) p)
    · have hedge : core.edgeAt a b = (core.cells a b).edge := edgeAt_eq ha hb
      have hsentinel : ¬ ((core.cells a b).edge = noEdge ∨ (core.cells a b).edge = selfEdge) := by
        unfold noEdge selfEdge at *
        omega
      rw [if_pos hne, show fuel + (p.length + q.length + 1) = fuel + p.length + q.length + 1 by omega,
        antecedentsLoop, if_neg hne]
      simp only [hedge, if_neg hsentinel, he]
      rw [if_neg (by omega), heq, hep]
      congr 1
      · omega
      · simp [DlEdge.justification]

theorem antecedentsScratch_spec (hin : core.Within) (hp : Decomposes core.cells core.edges s t p)
    (hnodup : (vertices p t).Nodup) (hs : s < core.n) (ht : t < core.n) :
    ∃ q : List DlEdge, q.Perm p ∧ core.antecedentsScratch s t = (q.map DlEdge.justification, core) := by
  have hlen : p.length ≤ core.edges.length := ((nodup_of_vertices hnodup).subperm hp.subset).length_le
  unfold antecedentsScratch
  by_cases hst : s = t
  · subst hst
    cases hp with
    | nil => exact ⟨[], .refl _, by simp⟩
    | step hne => exact absurd rfl hne
  · obtain ⟨q, hq, heq⟩ := antecedentsLoop_spec hin hp hs ht
      (2 * (core.edges.length * 2 + 8) + 4 - p.length) 0 [] [] (by omega)
    rw [if_pos hst, Nat.sub_add_cancel (by omega)] at heq
    refine ⟨q, hq, ?_⟩
    rw [if_pos hst, heq]
    obtain ⟨fuel, hfuel⟩ : ∃ fuel, 2 * (core.edges.length * 2 + 8) + 4 - p.length = fuel + 1 :=
      ⟨_, (Nat.succ_pred_eq_of_pos (by omega)).symm⟩
    rw [hfuel]
    simp [antecedentsLoop]

end DenseDlCore

/-- What the reason of a propagation has to name: a path that bounds the atom's difference, one
that bounds its reverse, or for an equality both. -/
inductive Grounds (a : DlAtomEntry) : Bool → List DlEdge → Prop
  | upper {es p} : a.isEq = false → es.Perm p → IsWalk a.s p a.t → weight p ≤ a.k →
      Grounds a true es
  | lower {es p} : a.isEq = false → es.Perm p → IsWalk a.t p a.s → a.k < -weight p →
      Grounds a false es
  | both {es p q} : a.isEq = true → a.s ≠ a.t → es.Perm (p ++ q) → IsWalk a.s p a.t →
      weight p ≤ a.k → IsWalk a.t q a.s → weight q ≤ -a.k → Grounds a true es

def Justified (atoms : List DlAtomEntry) (edges : List DlEdge) (prop : DlPropagation) : Prop :=
  ∃ a ∈ atoms, a.key = prop.key ∧
    ∃ es, es ⊆ edges ∧ prop.reason = es.map DlEdge.justification ∧ Grounds a prop.pol es

theorem Justified.mono {atoms atoms' : List DlAtomEntry} {edges edges' : List DlEdge} {prop : DlPropagation}
    (h : Justified atoms edges prop) (ha : atoms ⊆ atoms') (he : edges ⊆ edges') : Justified atoms' edges' prop := by
  obtain ⟨a, hmem, hkey, es, hes, hrest⟩ := h
  exact ⟨a, ha hmem, hkey, es, List.Subset.trans hes he, hrest⟩

namespace DenseDlCore

variable {core : DenseDlCore} {y x : ℕ}

structure Watched (core : DenseDlCore) : Prop where
  pair : ∀ y x, ∀ wid ∈ core.occs y x, ∀ a, core.atoms[wid]? = some a →
    a.s = y ∧ a.t = x ∨ a.s = x ∧ a.t = y
  bound : ∀ y x, ∀ wid ∈ core.occs y x, wid < core.atoms.length
  keys : ∀ wid a, core.atoms[wid]? = some a → core.keyToAtom a.key = some wid
  fits : ∀ a ∈ core.atoms, fitsI64 a.k = true

def Explained (core : DenseDlCore) (a b : ℕ) : Prop :=
  ∃ p, Decomposes core.cells core.edges a b p ∧ (vertices p b).Nodup

/-- What propagation at a just improved cell relies on. The reverse cell may itself be about to
improve, but then the two do not bound an equality. -/
structure Fresh (core : DenseDlCore) (y x : ℕ) : Prop where
  within : core.Within
  watched : core.Watched
  row : y < core.n
  col : x < core.n
  ne : y ≠ x
  bound : |(core.cells y x).dist| ≤ 2 ^ 53
  cell : core.Explained y x
  backBound : (core.cells x y).dist ≠ dlInf → |(core.cells x y).dist| ≤ 2 ^ 53
  back : (core.cells x y).dist ≠ dlInf → (core.cells y x).dist + (core.cells x y).dist ≤ 0 →
    core.Explained x y

theorem pushProp_spec {key : ℕ} {pol : Bool} {reason : List (ℕ × Bool)}
    (h : Justified core.atoms core.edges ⟨key, pol, reason⟩) :
    ∃ ps, core.pushProp key pol reason = { core with pending := core.pending ++ ps } ∧
      ∀ p ∈ ps, Justified core.atoms core.edges p := by
  unfold pushProp
  split
  · exact ⟨[], by simp, by simp⟩
  · refine ⟨[⟨key, pol, reason⟩], rfl, ?_⟩
    intro p hp
    obtain rfl : p = ⟨key, pol, reason⟩ := by simpa using hp
    exact h

theorem note_of_fits {v : ℤ} (h : fitsI64 v = true) : core.note v = core := by
  simp [note, h]

theorem fits_of_abs {v : ℤ} (h : |v| ≤ 2 ^ 54) : fitsI64 v = true := by
  have := abs_le.mp h
  simp only [fitsI64, Bool.and_eq_true, decide_eq_true_eq]
  omega

theorem wrapI64_neg {k d : ℤ} (hk : fitsI64 k = true) (hd : |d| ≤ 2 ^ 53) (hle : d ≤ k) : wrapI64 (-k) = -k := by
  have hd' := abs_le.mp hd
  simp only [fitsI64, Bool.and_eq_true, decide_eq_true_eq] at hk
  apply wrapI64_of_fits
  simp only [fitsI64, Bool.and_eq_true, decide_eq_true_eq]
  omega

theorem propagateWatch_spec (h : core.Fresh y x) {wid : ℕ} (hwid : wid ∈ core.occs y x) :
    ∃ ps, propagateWatch y x core wid = { core with pending := core.pending ++ ps } ∧
      ∀ p ∈ ps, Justified core.atoms core.edges p := by
  have hskip : ∃ ps, core = { core with pending := core.pending ++ ps } ∧
      ∀ p ∈ ps, Justified core.atoms core.edges p := ⟨[], by simp, by simp⟩
  obtain ⟨p, hp, hpn⟩ := h.cell
  obtain ⟨q, hq, hreason⟩ := antecedentsScratch_spec h.within hp hpn h.row h.col
  have hqs : q ⊆ core.edges := List.Subset.trans hq.subset hp.subset
  have hd : core.distOf y x = (core.cells y x).dist := distOf_eq h.row h.col
  have hb : core.distOf x y = (core.cells x y).dist := distOf_eq h.col h.row
  unfold propagateWatch
  cases ha : core.atoms[wid]? with
  | none => exact hskip
  | some a =>
    have hmem := mem_of_getElem? ha
    have hfit := h.watched.fits a hmem
    dsimp only
    by_cases hfwd : a.s = y ∧ a.t = x
    · obtain ⟨rfl, rfl⟩ := hfwd
      simp only [and_self, ↓reduceIte, hreason]
      split
      · next hle =>
        rw [hd] at hle
        cases heq : a.isEq with
        | false =>
          refine pushProp_spec ⟨a, hmem, rfl, q, hqs, rfl, .upper heq hq hp.isWalk ?_⟩
          rwa [hp.weight_eq]
        | true =>
          simp only [↓reduceIte]
          split
          · next hback =>
            obtain ⟨⟨hk, -⟩, hback⟩ := hback
            rw [hb] at hk hback
            rw [wrapI64_neg hfit h.bound hle] at hback
            obtain ⟨p', hp', hpn'⟩ := h.back hk (by omega)
            obtain ⟨q', hq', hreason'⟩ := antecedentsScratch_spec h.within hp' hpn' h.col h.row
            rw [hreason']
            refine pushProp_spec ⟨a, hmem, rfl, q ++ q', ?_, by simp,
              .both heq h.ne (hq.append hq') hp.isWalk ?_ hp'.isWalk ?_⟩
            · exact append_subset.mpr ⟨hqs, List.Subset.trans hq'.subset hp'.subset⟩
            · rwa [hp.weight_eq]
            · rwa [hp'.weight_eq]
          · exact hskip
      · exact hskip
    · obtain ⟨rfl, rfl⟩ := (h.watched.pair y x wid hwid a ha).resolve_left hfwd
      rw [if_neg hfwd]
      cases heq : a.isEq with
      | true =>
        simp only [↓reduceIte]
        split
        · next hboth =>
          obtain ⟨hle, ⟨hk, -⟩, hfwd'⟩ := hboth
          rw [hb] at hk hfwd'
          rw [hd, wrapI64_neg hfit (h.backBound hk) hfwd'] at hle
          obtain ⟨p', hp', hpn'⟩ := h.back hk (by omega)
          obtain ⟨q', hq', hreason'⟩ := antecedentsScratch_spec h.within hp' hpn' h.col h.row
          simp only [hreason, hreason']
          refine pushProp_spec ⟨a, hmem, rfl, q ++ q', ?_, by simp,
            .both heq h.ne.symm ((hq.append hq').trans perm_append_comm) hp'.isWalk ?_ hp.isWalk ?_⟩
          · exact append_subset.mpr ⟨hqs, List.Subset.trans hq'.subset hp'.subset⟩
          · rwa [hp'.weight_eq]
          · rwa [hp.weight_eq]
        · exact hskip
      | false =>
        have hneg : fitsI64 (-core.distOf a.t a.s) = true := by
          apply fits_of_abs
          rw [abs_neg, hd]
          exact h.bound.trans (by norm_num)
        simp only [Bool.false_eq_true, ↓reduceIte, note_of_fits hneg, wrapI64_of_fits hneg, hreason]
        split
        · next hlt =>
          rw [hd] at hlt
          refine pushProp_spec ⟨a, hmem, rfl, q, hqs, rfl, .lower heq hq hp.isWalk ?_⟩
          rwa [hp.weight_eq]
        · exact hskip

theorem propagateUsingCell_spec (h : core.Fresh y x) :
    ∃ ps, core.propagateUsingCell y x = { core with pending := core.pending ++ ps } ∧
      ∀ p ∈ ps, Justified core.atoms core.edges p := by
  have hmain : ∀ (l : List ℕ) (pending : List DlPropagation), l ⊆ core.occs y x →
      ∃ ps, l.foldl (propagateWatch y x) { core with pending := pending } =
          { core with pending := pending ++ ps } ∧ ∀ p ∈ ps, Justified core.atoms core.edges p := by
    intro l
    induction l with
    | nil => exact fun pending _ => ⟨[], by simp, by simp⟩
    | cons wid l ih =>
      intro pending hl
      obtain ⟨hwid, hl'⟩ := cons_subset.mp hl
      have hfresh : Fresh { core with pending := pending } y x :=
        ⟨h.within, ⟨h.watched.pair, h.watched.bound, h.watched.keys, h.watched.fits⟩, h.row, h.col, h.ne, h.bound,
          h.cell,
          h.backBound, h.back⟩
      obtain ⟨ps, heq, hps⟩ := propagateWatch_spec hfresh hwid
      obtain ⟨ps', heq', hps'⟩ := ih (pending ++ ps) hl'
      refine ⟨ps ++ ps', ?_, ?_⟩
      · rw [foldl_cons, heq, ← append_assoc]
        exact heq'
      · intro p hp
        rcases mem_append.mp hp with hp | hp
        · exact hps p hp
        · exact hps' p hp
  exact hmain (core.occs y x) core.pending (List.Subset.refl _)

end DenseDlCore

end Nixie.DiffLogic
