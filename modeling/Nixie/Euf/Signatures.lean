import Nixie.Undo
import Mathlib.Tactic.Common
import Mathlib.Algebra.Group.Nat.Defs

/-!
The signature table of the e-graph: a function symbol with the canonical arguments of an
application leads to one application with that signature. The fingerprint table is a filter in
front of it.
-/

namespace Nixie.Euf

open Undo Function

abbrev Signature := ℕ × List ℕ

def fingerprint (sig : Signature) : ℕ :=
  sig.2.foldl (fun h arg => (h * 0x517cc1b727220a95 + arg) % 2 ^ 64) sig.1

inductive SigTrailEntry
  | insertedSig (key : Signature) (node : ℕ)
  | removedSig (key : Signature) (node : ℕ)
  | insertedFingerprint (fp node : ℕ)

structure SigTables where
  sigTable : Signature → Option ℕ := fun _ => none
  nodeSigKey : ℕ → Option Signature := fun _ => none
  fingerprintTable : ℕ → List ℕ := fun _ => []

structure Signatures extends SigTables where
  sigTrail : List SigTrailEntry := []

namespace Signatures

section

variable (sigs : Signatures)

def pushFingerprint (inScope : Bool) (fp node : ℕ) : Signatures :=
  { sigs with
    fingerprintTable := update sigs.fingerprintTable fp (node :: sigs.fingerprintTable fp)
    sigTrail := if inScope then .insertedFingerprint fp node :: sigs.sigTrail else sigs.sigTrail }

def insertSignature (inScope : Bool) (key : Signature) (node fp : ℕ) : Signatures :=
  pushFingerprint
    { sigs with
      sigTable := update sigs.sigTable key (some node)
      sigTrail := if inScope then .insertedSig key node :: sigs.sigTrail else sigs.sigTrail }
    inScope fp node

def removeSigEntry (inScope : Bool) (user : ℕ) : Signatures :=
  match sigs.nodeSigKey user with
  | none => sigs
  | some oldKey =>
    { sigs with
      sigTable := update sigs.sigTable oldKey none
      sigTrail := if inScope then .removedSig oldKey user :: sigs.sigTrail else sigs.sigTrail }

def updateSigEntry (inScope : Bool) (user : ℕ) (newKey : Signature) : Signatures :=
  let sigs := sigs.removeSigEntry inScope user
  { sigs with
    sigTable := update sigs.sigTable newKey (some user)
    sigTrail := if inScope then .insertedSig newKey user :: sigs.sigTrail else sigs.sigTrail
    nodeSigKey := update sigs.nodeSigKey user (some newKey) }

def lookupValidSig (sig : Signature) : Signatures × Option ℕ :=
  match sigs.sigTable sig with
  | none => (sigs, none)
  | some node =>
    if sigs.nodeSigKey node = some sig then (sigs, some node)
    else ({ sigs with sigTable := update sigs.sigTable sig none }, none)

def addNode (idx : ℕ) (key : Option Signature) : Signatures :=
  { sigs with nodeSigKey := update sigs.nodeSigKey idx key }

end

end Signatures

namespace SigTables

def undo (n : ℕ) : SigTrailEntry → SigTables → SigTables
  | .insertedSig key node, sigs =>
    { sigs with
      sigTable := update sigs.sigTable key none
      nodeSigKey := setBelow n node none sigs.nodeSigKey }
  | .removedSig key node, sigs =>
    { sigs with
      sigTable := update sigs.sigTable key (some node)
      nodeSigKey := setBelow n node (some key) sigs.nodeSigKey }
  | .insertedFingerprint fp node, sigs =>
    { sigs with
      fingerprintTable :=
        update sigs.fingerprintTable fp ((sigs.fingerprintTable fp).erase node) }

def truncate (n : ℕ) (sigs : SigTables) : SigTables :=
  { sigs with nodeSigKey := Undo.truncate n none sigs.nodeSigKey }

end SigTables

namespace Signatures

def rewind (sigs : Signatures) (n limit : ℕ) : Signatures :=
  { unwind (SigTables.undo n) limit sigs.sigTrail (sigs.toSigTables.truncate n) with
    sigTrail := keep limit sigs.sigTrail }

def Extends (n : ℕ) (sigs sigs' : Signatures) : Prop :=
  Undo.Extends (SigTables.undo n) sigs.sigTrail (sigs.toSigTables.truncate n)
    sigs'.sigTrail (sigs'.toSigTables.truncate n)

/-- A node is registered under the keys that lead to it, and a key that is taken has its
fingerprint in the filter. -/
structure WF (sigs : Signatures) : Prop where
  key : ∀ key v, sigs.sigTable key = some v ↔ sigs.nodeSigKey v = some key
  fingerprint : ∀ key v, sigs.sigTable key = some v →
    sigs.fingerprintTable (fingerprint key) ≠ []

variable {sigs sigs' : Signatures} {n limit node user fp idx v : ℕ} {key newKey sig : Signature}
  {inScope : Bool}

theorem Extends.rewind_eq (h : sigs.Extends n sigs') (hout : ∀ i, n ≤ i → sigs.nodeSigKey i = none) :
    sigs'.rewind n sigs.sigTrail.length = sigs := by
  unfold rewind
  rw [h.keep_eq, h.unwind_eq, SigTables.truncate, truncate_eq hout]

theorem extends_pushFingerprint : sigs.Extends n (sigs.pushFingerprint true fp node) := by
  refine .cons ?_
  simp [SigTables.undo, SigTables.truncate, pushFingerprint]

theorem extends_addNode (h : n ≤ idx) {key : Option Signature} : sigs.Extends n (sigs.addNode idx key) := by
  unfold Extends addNode SigTables.truncate
  simp only [truncate_update h]
  exact .refl

theorem extends_insertSignature (h : n ≤ node) (hkey : sigs.sigTable key = none) :
    sigs.Extends n (sigs.insertSignature true key node fp) := by
  have hnode : ¬ node < n := Nat.not_lt_of_le h
  have hinserted : sigs.Extends n { sigs with
      sigTable := update sigs.sigTable key (some node)
      sigTrail := .insertedSig key node :: sigs.sigTrail } := by
    refine .cons ?_
    simp [SigTables.undo, SigTables.truncate, setBelow, hnode, ← hkey]
  exact hinserted.trans extends_pushFingerprint

theorem WF.lookupValidSig (h : sigs.WF) : sigs.lookupValidSig sig = (sigs, sigs.sigTable sig) := by
  unfold Signatures.lookupValidSig
  split
  · next hnone => rw [hnone]
  · next node hnode => rw [if_pos ((h.key _ _).mp hnode), hnode]

theorem extends_updateSigEntry (h : sigs.WF) (hkey : sigs.sigTable newKey = none) :
    sigs.Extends n (sigs.updateSigEntry true user newKey) := by
  unfold Extends updateSigEntry removeSigEntry
  cases hold : sigs.nodeSigKey user with
  | none =>
    refine .cons ?_
    simp only [SigTables.undo, SigTables.truncate, update_idem, ← hkey,
      update_eq_self, ← hold, setBelow_truncate_update]
  | some oldKey =>
    have htaken := (h.key oldKey user).mpr hold
    have hne : oldKey ≠ newKey := by
      rintro rfl
      rw [hkey] at htaken
      cases htaken
    -- the key of the node comes back with the older of the two entries
    refine .trans (.cons ?_) (.cons rfl)
    simp only [SigTables.undo, SigTables.truncate, SigTables.mk.injEq, and_true]
    constructor
    · have hold' : update sigs.sigTable oldKey (some user) = sigs.sigTable := by
        rw [← htaken, update_eq_self]
      rw [update_idem, update_comm hne.symm, update_idem, hold', ← hkey, update_eq_self]
    · rw [setBelow_setBelow, ← hold, setBelow_truncate_update]

@[simp]
theorem pushFingerprint_sigTable :
    (sigs.pushFingerprint inScope fp node).sigTable = sigs.sigTable := rfl

@[simp]
theorem pushFingerprint_nodeSigKey :
    (sigs.pushFingerprint inScope fp node).nodeSigKey = sigs.nodeSigKey := rfl

theorem updateSigEntry_sigTable : (sigs.updateSigEntry inScope user newKey).sigTable key =
    if key = newKey then some user
    else if sigs.nodeSigKey user = some key then none else sigs.sigTable key := by
  unfold updateSigEntry removeSigEntry
  cases hold : sigs.nodeSigKey user with
  | none => simp [update_apply]
  | some oldKey => simp [update_apply, eq_comm]

theorem updateSigEntry_nodeSigKey : (sigs.updateSigEntry inScope user newKey).nodeSigKey =
    update sigs.nodeSigKey user (some newKey) := by
  unfold updateSigEntry removeSigEntry
  split <;> rfl

theorem updateSigEntry_fingerprintTable :
    (sigs.updateSigEntry inScope user newKey).fingerprintTable = sigs.fingerprintTable := by
  unfold updateSigEntry removeSigEntry
  split <;> rfl

theorem pushFingerprint_ne_nil {fp' : ℕ} (h : sigs.fingerprintTable fp' ≠ [] ∨ fp' = fp) :
    (sigs.pushFingerprint inScope fp node).fingerprintTable fp' ≠ [] := by
  simp only [pushFingerprint, update_apply]
  split
  · simp
  · next hne => exact h.resolve_right hne

theorem WF.updateSigEntry (h : sigs.WF) (hkey : sigs.sigTable newKey = none) :
    ((sigs.updateSigEntry inScope user newKey).pushFingerprint inScope (Euf.fingerprint newKey) user).WF := by
  constructor
  · intro key v
    rw [pushFingerprint_sigTable, pushFingerprint_nodeSigKey, updateSigEntry_sigTable,
      updateSigEntry_nodeSigKey, update_apply]
    have hfree : sigs.nodeSigKey v ≠ some newKey := by
      intro hv
      rw [← h.key, hkey] at hv
      cases hv
    have huser := h.key key user
    have hother := h.key key v
    grind
  · intro key v hv
    rw [pushFingerprint_sigTable, updateSigEntry_sigTable] at hv
    apply pushFingerprint_ne_nil
    rw [updateSigEntry_fingerprintTable]
    split at hv
    · next hk => exact .inr (congrArg _ hk)
    · split at hv
      · cases hv
      · exact .inl (h.fingerprint key v hv)

theorem WF.insertSignature (h : sigs.WF) (hkey : sigs.sigTable key = none) (hidx : sigs.nodeSigKey idx = none) :
    ((sigs.addNode idx (some key)).insertSignature inScope key idx (Euf.fingerprint key)).WF := by
  constructor
  · intro key' v
    simp only [Signatures.insertSignature, pushFingerprint_sigTable, pushFingerprint_nodeSigKey,
      addNode, update_apply]
    have hfree : sigs.nodeSigKey v ≠ some key := by
      intro hv
      rw [← h.key, hkey] at hv
      cases hv
    have hnew := h.key key' idx
    have hother := h.key key' v
    grind
  · intro key' v hv
    apply pushFingerprint_ne_nil
    simp only [Signatures.insertSignature, pushFingerprint_sigTable, addNode, update_apply] at hv
    split at hv
    · next hk => exact .inr (congrArg _ hk)
    · exact .inl (h.fingerprint key' v hv)

theorem addNode_none (hidx : sigs.nodeSigKey idx = none) : sigs.addNode idx none = sigs := by
  unfold Signatures.addNode
  rw [← hidx, update_eq_self]

end Signatures

end Nixie.Euf
