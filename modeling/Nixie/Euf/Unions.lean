import Nixie.Euf.Explain
import Nixie.Euf.PairCounts
import Nixie.Euf.Rewind

/-!
What one union does to the classes, the values, the disequalities and the table, whatever the
properties of the function symbols are.
-/

namespace Nixie.Euf

open Undo UnionFind

structure Keyed (n : ℕ) (sigs : Signatures) : Prop where
  wf : sigs.WF
  out : ∀ i, n ≤ i → sigs.nodeSigKey i = none

section

variable {n user v : ℕ} {sigs : Signatures} {key : Signature} {inScope : Bool}

theorem Keyed.lt (h : Keyed n sigs) (hv : sigs.sigTable key = some v) : v < n := by
  by_contra hge
  have hkey := (h.wf.key key v).mp hv
  rw [h.out v (Nat.le_of_not_lt hge)] at hkey
  cases hkey

theorem Keyed.lookup (h : Keyed n sigs)
    (hnone : (if sigs.fingerprintTable (fingerprint key) ≠ [] then sigs.sigTable key else none) = none) :
    sigs.sigTable key = none := by
  split at hnone
  · exact hnone
  · next hempty =>
    cases hv : sigs.sigTable key with
    | none => rfl
    | some v => exact absurd (h.wf.fingerprint key v hv) hempty

theorem Keyed.updateSigEntry (h : Keyed n sigs) (hfree : sigs.sigTable key = none) (huser : user < n) :
    Keyed n ((sigs.updateSigEntry inScope user key).pushFingerprint inScope (fingerprint key) user) := by
  refine ⟨h.wf.updateSigEntry hfree, fun i hi => ?_⟩
  rw [Signatures.pushFingerprint_nodeSigKey, Signatures.updateSigEntry_nodeSigKey, Function.update_of_ne (by omega)]
  exact h.out i hi

end

def Live (n : ℕ) (pending : List (ℕ × ℕ × MergeReason)) : Prop := ∀ e ∈ pending, e.1 < n ∧ e.2.1 < n

structure Scans (n : ℕ) (inScope : Bool) (scan scan' : Scan) : Prop where
  uf : Agrees n scan.uf scan'.uf
  sigs : Keyed n scan'.sigs
  buf : Live n scan'.buf
  extends_ : inScope → ∀ m, scan.sigs.Extends m scan'.sigs

namespace EufSolver

variable {s : EufSolver} {scan : Scan} {user : ℕ}

theorem scanUse_scans (huf : scan.uf.WF s.nodes.length) (hsigs : Keyed s.nodes.length scan.sigs)
    (hbuf : Live s.nodes.length scan.buf) : Scans s.nodes.length s.inScope scan (s.scanUse user scan) := by
  have hrefl : Scans s.nodes.length s.inScope scan scan := ⟨.refl huf, hsigs, hbuf, fun _ _ => .refl⟩
  unfold scanUse
  cases hnode : s.nodes[user]? with
  | none => exact hrefl
  | some node =>
    have huser := (List.getElem?_eq_some_iff.mp hnode).1
    have hcanon : Agrees s.nodes.length scan.uf
        (canonicalizeArgs (s.getFunctionProps node.func) node.args scan.uf).1 := huf.canonicalizeArgs
    dsimp only
    split
    · split
      · next existing hfound =>
        split
        · exact ⟨hcanon, hsigs, hbuf, fun _ _ => .refl⟩
        · refine ⟨hcanon.trans hcanon.wf.same, hsigs, ?_, fun _ _ => .refl⟩
          dsimp only
          split
          · exact hbuf
          · refine List.forall_mem_cons.mpr ⟨⟨huser, ?_⟩, hbuf⟩
            split at hfound
            · exact hsigs.lt hfound
            · cases hfound
      · next hnone =>
        have hfree := hsigs.lookup hnone
        refine ⟨hcanon, hsigs.updateSigEntry hfree huser, hbuf, fun hs m => ?_⟩
        dsimp only
        rw [hs]
        exact (Signatures.extends_updateSigEntry hsigs.wf hfree).trans Signatures.extends_pushFingerprint
    · exact hrefl

theorem scanUses_scans {users : List ℕ} (huf : scan.uf.WF s.nodes.length) (hsigs : Keyed s.nodes.length scan.sigs)
    (hbuf : Live s.nodes.length scan.buf) : Scans s.nodes.length s.inScope scan (s.scanUses users scan) := by
  induction users generalizing scan with
  | nil => exact ⟨.refl huf, hsigs, hbuf, fun _ _ => .refl⟩
  | cons user users ih =>
    have huse := @scanUse_scans s scan user huf hsigs hbuf
    have hrest := ih huse.uf.wf huse.sigs huse.buf
    exact ⟨huse.uf.trans hrest.uf, hrest.sigs, hrest.buf,
      fun hs m => (huse.extends_ hs m).trans (hrest.extends_ hs m)⟩

def winner (s : EufSolver) (a b : ℕ) : ℕ := ((s.uf.union (s.root a) (s.root b)).find (s.root a)).2

def loser (s : EufSolver) (a b : ℕ) : ℕ := if s.winner a b = s.root a then s.root b else s.root a

structure Unites (s s' : EufSolver) (a b : ℕ) : Prop where
  nodes : s'.nodes = s.nodes
  contextStack : s'.contextStack = s.contextStack
  valueConsts : s'.valueConsts = s.valueConsts
  ne : s.winner a b ≠ s.loser a b
  roots : ∀ r, r = s.root a ∨ r = s.root b ↔ r = s.winner a b ∨ r = s.loser a b
  root : ∀ x, s'.root x = if s.root x = s.loser a b then s.winner a b else s.root x
  wf : s'.uf.WF s.nodes.length
  trailLimits : s'.uf.trailLimits = s.uf.trailLimits
  ufExtends : s.uf.inScope → s.uf.Extends s'.uf
  sigs : Keyed s.nodes.length s'.sigs
  sigsExtends : s.inScope → ∀ m, s.sigs.Extends m s'.sigs
  pending : Live s.nodes.length s'.pending
  values : s'.values = s.values.mergeClasses s.inScope (s.root a) (s.root b) (s.winner a b)
  diseqs : s'.diseqs =
    s.diseqs.mergeClasses s.inScope (s.root a) (s.root b) (s.winner a b) (s.loser a b)

theorem applyMerge_unites {a b : ℕ} {reason : MergeReason} (huf : s.uf.WF s.nodes.length)
    (hsigs : Keyed s.nodes.length s.sigs) (hpending : Live s.nodes.length s.pending) (ha : a < s.nodes.length)
    (hb : b < s.nodes.length) (hne : s.root a ≠ s.root b) : Unites s (s.applyMerge a b reason) a b := by
  obtain ⟨hnew, hroots, hjoined⟩ := exists_newRoot huf ha hb hne
  set t := s.unite a b reason (s.root a) (s.root b) (s.winner a b) (s.loser a b) with ht
  have hfind : Agrees s.nodes.length (s.uf.union (s.root a) (s.root b)) t.uf := hjoined.wf.find
  have hscan : Scans s.nodes.length s.inScope { uf := t.uf, sigs := s.sigs }
      (t.scanUses (t.useList.lists (s.loser a b)) { uf := t.uf, sigs := s.sigs }) :=
    @scanUses_scans t { uf := t.uf, sigs := s.sigs } _ hfind.wf hsigs fun e he => absurd he List.not_mem_nil
  set scan := t.scanUses (t.useList.lists (s.loser a b)) { uf := t.uf, sigs := s.sigs } with hscan'
  have happly : s.applyMerge a b reason = migrateUses (s.winner a b) (t.useList.lists (s.loser a b))
      { t with uf := scan.uf, sigs := scan.sigs, pending := scan.buf ++ s.pending } := rfl
  rw [happly, migrateUses_eq]
  exact
    { nodes := rfl
      contextStack := rfl
      valueConsts := rfl
      ne := hnew
      roots := hroots
      root := fun x => by
        rw [root, hscan.uf.root, hfind.root]
        exact hjoined.root x
      wf := hscan.uf.wf
      trailLimits := hscan.uf.trailLimits.trans (hfind.trailLimits.trans hjoined.trailLimits)
      ufExtends := fun hs => hjoined.extends_.trans ((hfind.trans hscan.uf).extends_ (by
        simpa only [UnionFind.inScope, hjoined.trailLimits] using hs))
      sigs := hscan.sigs
      sigsExtends := hscan.extends_
      pending := fun e he => (List.mem_append.mp he).elim (hscan.buf e) (hpending e)
      values := rfl
      diseqs := rfl }

end EufSolver

end Nixie.Euf
