import Mathlib.Data.List.Basic
import Mathlib.Data.List.Induction
import Mathlib.Order.Nat

/-!
The proof forest of `nixie-theories/src/euf/proof.rs`: which explanations of a run of merges are proofs. The
proof of a merge is put on the link between the two roots, whatever the merged terms were.
-/

namespace Nixie.Euf

open List Option

inductive ProofStep
  | given (left right reason : ℕ)
  | refl (term : ℕ)
  | symm (proof : ProofStep)
  | trans (left right : ProofStep)
  | cong (func : ℕ) (argProofs : List ProofStep)

namespace ProofStep

def endpoint : ProofStep → Bool → ℕ
  | given left right _, wantRight => if wantRight then right else left
  | refl term, _ => term
  | symm proof, wantRight => endpoint proof !wantRight
  | trans left right, wantRight => if wantRight then endpoint right wantRight else endpoint left wantRight
  | cong func _, _ => func

def terms (proof : ProofStep) : ℕ × ℕ := (proof.endpoint false, proof.endpoint true)

mutual

def size : ProofStep → ℕ
  | given _ _ _ => 1
  | refl _ => 1
  | symm proof => size proof + 1
  | trans left right => size left + size right + 1
  | cong _ argProofs => sizes argProofs + 1

def sizes : List ProofStep → ℕ
  | [] => 0
  | proof :: proofs => size proof + sizes proofs

end

def collectReasons : ℕ → List ProofStep → List ℕ → List ℕ
  | 0, _, reasons => reasons
  | _, [], reasons => reasons
  | fuel + 1, node :: stack, reasons =>
    match node with
    | given _ _ reason => collectReasons fuel stack (reasons ++ [reason])
    | refl _ => collectReasons fuel stack reasons
    | symm proof => collectReasons fuel (proof :: stack) reasons
    | trans left right => collectReasons fuel (left :: right :: stack) reasons
    | cong _ argProofs => collectReasons fuel (argProofs ++ stack) reasons

def reasons (proof : ProofStep) : List ℕ := collectReasons proof.size [proof] []

def Chained : ProofStep → Prop
  | given _ _ _ => True
  | refl _ => True
  | symm proof => Chained proof
  | trans left right => Chained left ∧ Chained right ∧ left.endpoint true = right.endpoint false
  | cong _ _ => True

end ProofStep

structure ProofForest where
  parent : List (ℕ × ℕ) := []
  proofToParent : List (ℕ × ProofStep) := []
  rank : List (ℕ × ℕ) := []

namespace ProofForest

variable (forest : ProofForest)

def make (term : ℕ) : ProofForest :=
  match forest.parent.lookup term with
  | some _ => forest
  | none => { forest with parent := (term, term) :: forest.parent, rank := (term, 0) :: forest.rank }

def findLoop (term : ℕ) : ℕ → ℕ → ℕ
  | 0, current => current
  | fuel + 1, current =>
    match forest.parent.lookup current with
    | some parent => if parent = current then current else findLoop term fuel parent
    | none => term

def find (term : ℕ) : ℕ := forest.findLoop term forest.parent.length term

def rankOf (term : ℕ) : ℕ := (forest.rank.lookup term).getD 0

def link (child parent : ℕ) (proof : ProofStep) : ProofForest :=
  { forest with
    parent := (child, parent) :: forest.parent
    proofToParent := (child, proof) :: forest.proofToParent }

def union (a b : ℕ) (proof : ProofStep) : ProofForest :=
  let rootA := forest.find a
  let rootB := forest.find b
  if rootA = rootB then forest
  else
    match compare (forest.rankOf rootA) (forest.rankOf rootB) with
    | .lt => forest.link rootA rootB proof
    | .gt => forest.link rootB rootA proof
    | .eq =>
      { forest.link rootB rootA proof with rank := (rootA, forest.rankOf rootA + 1) :: forest.rank }

def pathLoop : ℕ → ℕ → List ℕ
  | 0, _ => []
  | fuel + 1, current =>
    match forest.parent.lookup current with
    | some parent => if parent = current then [] else parent :: pathLoop fuel parent
    | none => []

def pathToRoot (term : ℕ) : List ℕ := term :: forest.pathLoop forest.parent.length term

def buildProofPath : List ℕ → Option ProofStep
  | [] => none
  | [term] => some (.refl term)
  | term :: path =>
    (forest.proofToParent.lookup term).bind fun proof =>
      path.dropLast.foldlM (fun current next => (forest.proofToParent.lookup next).map current.trans) proof

def explain (a b : ℕ) : Option ProofStep :=
  if a = b then some (.refl a)
  else
    let pathA := forest.pathToRoot a
    let pathB := forest.pathToRoot b
    if pathA.isEmpty || pathB.isEmpty then none
    else if pathA.getLast? ≠ pathB.getLast? then none
    else do
      let proofAToRoot ← forest.buildProofPath pathA
      let proofBToRoot ← forest.buildProofPath pathB
      return .trans proofAToRoot (.symm proofBToRoot)

end ProofForest

structure ProofManager where
  forest : ProofForest := {}

namespace ProofManager

def merge (manager : ProofManager) (a b : ℕ) (proof : ProofStep) : ProofManager :=
  ⟨((manager.forest.make a).make b).union a b proof⟩

def areEqual (manager : ProofManager) (a b : ℕ) : Bool := manager.forest.find a = manager.forest.find b

def explain (manager : ProofManager) (a b : ℕ) : Option ProofStep := manager.forest.explain a b

end ProofManager

namespace ProofStep

mutual

def reasonsOf : ProofStep → List ℕ
  | given _ _ reason => [reason]
  | refl _ => []
  | symm proof => reasonsOf proof
  | trans left right => reasonsOf left ++ reasonsOf right
  | cong _ argProofs => reasonsOfs argProofs

def reasonsOfs : List ProofStep → List ℕ
  | [] => []
  | proof :: proofs => reasonsOf proof ++ reasonsOfs proofs

end

variable {p q : ProofStep} {ps qs : List ProofStep}

theorem sizes_append : sizes (ps ++ qs) = sizes ps + sizes qs := by
  induction ps with
  | nil => rw [nil_append, sizes, Nat.zero_add]
  | cons p ps ih => rw [cons_append, sizes, sizes, ih, Nat.add_assoc]

theorem reasonsOfs_append : reasonsOfs (ps ++ qs) = reasonsOfs ps ++ reasonsOfs qs := by
  induction ps with
  | nil => rw [nil_append, reasonsOfs, nil_append]
  | cons p ps ih => rw [cons_append, reasonsOfs, reasonsOfs, ih, append_assoc]

theorem collectReasons_eq {fuel : ℕ} {stack : List ProofStep} (h : sizes stack ≤ fuel) (acc : List ℕ) :
    collectReasons fuel stack acc = acc ++ reasonsOfs stack := by
  induction fuel generalizing stack acc with
  | zero =>
    cases stack with
    | nil => simp [collectReasons, reasonsOfs]
    | cons node stack =>
      have hpos : 0 < size node := by cases node <;> simp [size]
      rw [sizes] at h
      omega
  | succ fuel ih =>
    cases stack with
    | nil => simp [collectReasons, reasonsOfs]
    | cons node stack =>
      rw [sizes] at h
      cases node with
      | given left right reason =>
        rw [size] at h
        rw [collectReasons.eq_def, reasonsOfs]
        dsimp only
        rw [ih (by omega), reasonsOf, append_assoc]
      | refl term =>
        rw [size] at h
        rw [collectReasons.eq_def, reasonsOfs]
        dsimp only
        rw [ih (by omega), reasonsOf, nil_append]
      | symm proof =>
        rw [size] at h
        rw [collectReasons.eq_def, reasonsOfs]
        dsimp only
        rw [ih (by rw [sizes]; omega), reasonsOf, reasonsOfs]
      | trans left right =>
        rw [size] at h
        rw [collectReasons.eq_def, reasonsOfs]
        dsimp only
        rw [ih (by rw [sizes, sizes]; omega), reasonsOf, reasonsOfs, reasonsOfs, append_assoc]
      | cong func argProofs =>
        rw [size] at h
        rw [collectReasons.eq_def, reasonsOfs]
        dsimp only
        rw [ih (by rw [sizes_append]; omega), reasonsOf, reasonsOfs_append]

theorem reasons_eq (p : ProofStep) : p.reasons = p.reasonsOf := by
  rw [reasons, collectReasons_eq (by simp [sizes]), reasonsOfs, reasonsOfs, append_nil, nil_append]

end ProofStep

structure Merge where
  left : ℕ
  right : ℕ
  reason : ℕ

def Merge.step (m : Merge) : ProofStep := .given m.left m.right m.reason

def Reads : List Merge → ℕ → ℕ → Prop
  | [], s, t => s = t
  | m :: ls, s, t => m.left = s ∧ Reads ls m.right t

section

variable {ls : List Merge} {s t u : ℕ} {p : ProofStep}

def chainProof (u : ℕ) : List Merge → ProofStep
  | [] => .refl u
  | m :: ls => ls.foldl (fun p m => .trans p m.step) m.step

theorem foldl_trans_iff : (ls.foldl (fun p m => ProofStep.trans p m.step) p).Chained ∧
    (ls.foldl (fun p m => ProofStep.trans p m.step) p).endpoint false = s ∧
    (ls.foldl (fun p m => ProofStep.trans p m.step) p).endpoint true = t ↔ p.Chained ∧ p.endpoint false = s ∧
    Reads ls (p.endpoint true) t := by
  induction ls generalizing p with
  | nil => rfl
  | cons m ls ih =>
    rw [foldl_cons, ih]
    simp only [ProofStep.Chained, Merge.step, ProofStep.endpoint, Reads, Bool.false_eq_true, ↓reduceIte, true_and]
    constructor
    · rintro ⟨⟨hp, hmid⟩, hs, hr⟩
      exact ⟨hp, hs, hmid.symm, hr⟩
    · rintro ⟨hp, hs, hmid, hr⟩
      exact ⟨⟨hp, hmid.symm⟩, hs, hr⟩

theorem chainProof_iff : (chainProof u ls).Chained ∧ (chainProof u ls).endpoint false = u ∧
    (chainProof u ls).endpoint true = t ↔ Reads ls u t := by
  cases ls with
  | nil => simp [chainProof, ProofStep.Chained, ProofStep.endpoint, Reads]
  | cons m ls =>
    rw [chainProof, foldl_trans_iff]
    simp [Merge.step, ProofStep.Chained, ProofStep.endpoint, Reads]

theorem reasonsOf_foldl : (ls.foldl (fun p m => ProofStep.trans p m.step) p).reasonsOf =
    p.reasonsOf ++ ls.map Merge.reason := by
  induction ls generalizing p with
  | nil => simp
  | cons m ls ih =>
    rw [foldl_cons, ih, ProofStep.reasonsOf, Merge.step, ProofStep.reasonsOf]
    simp

theorem reasonsOf_chainProof : (chainProof u ls).reasonsOf = ls.map Merge.reason := by
  cases ls with
  | nil => rw [chainProof, ProofStep.reasonsOf, map_nil]
  | cons m ls => rw [chainProof, reasonsOf_foldl, Merge.step, ProofStep.reasonsOf]; rfl

def Entails (ms : List Merge) (reasons : List ℕ) : ℕ → ℕ → Prop :=
  Relation.EqvGen fun a b => ∃ m ∈ ms, m.reason ∈ reasons ∧ m.left = a ∧ m.right = b

theorem Reads.entails {ms : List Merge} {reasons : List ℕ} (h : Reads ls s t) (hms : ls ⊆ ms)
    (hreasons : ls.map Merge.reason ⊆ reasons) : Entails ms reasons s t := by
  induction ls generalizing s with
  | nil =>
    obtain rfl : s = t := h
    exact .refl s
  | cons m ls ih =>
    obtain ⟨rfl, h⟩ := h
    obtain ⟨hm, hms⟩ := cons_subset.mp hms
    rw [map_cons] at hreasons
    obtain ⟨hr, hreasons⟩ := cons_subset.mp hreasons
    exact .trans _ _ _ (.rel _ _ ⟨m, hm, hr, rfl, rfl⟩) (ih h hms hreasons)

end

namespace ProofForest

variable {F : ProofForest} {ms : List Merge} {m : Merge} {t u v r fuel : ℕ}

theorem lookup_entry {β : Type} (k u : ℕ) (b : β) (l : List (ℕ × β)) :
    ((k, b) :: l).lookup u = if u = k then some b else l.lookup u := by
  rw [lookup_cons]
  by_cases hu : u = k
  · simp [hu]
  · simp [hu, beq_eq_false_iff_ne.mpr hu]

/-- The forest after some merges: ranks grow towards the roots, and every link holds the step of a merge. -/
structure Ranked (ms : List Merge) (F : ProofForest) : Prop where
  closed : ∀ u v, F.parent.lookup u = some v → (F.parent.lookup v).isSome
  rank : ∀ u v, F.parent.lookup u = some v → v ≠ u → F.rankOf u < F.rankOf v
  link : ∀ u v, F.parent.lookup u = some v → v ≠ u → ∃ m ∈ ms, F.proofToParent.lookup u = some m.step

theorem ranked_nil : Ranked [] {} := ⟨by simp, by simp, by simp⟩

theorem Ranked.mono (h : Ranked ms F) (m : Merge) : Ranked (ms ++ [m]) F := by
  refine ⟨h.closed, h.rank, fun u v huv hne => ?_⟩
  obtain ⟨n, hn, hstep⟩ := h.link u v huv hne
  exact ⟨n, mem_append_left _ hn, hstep⟩

theorem Ranked.make (h : Ranked ms F) (t : ℕ) : Ranked ms (F.make t) := by
  unfold ProofForest.make
  cases ht : F.parent.lookup t with
  | some _ => exact h
  | none =>
    have hold : ∀ u v, F.parent.lookup u = some v → u ≠ t ∧ v ≠ t := by
      intro u v huv
      constructor
      · rintro rfl
        simp [ht] at huv
      · rintro rfl
        simpa [ht] using h.closed u v huv
    refine ⟨?_, ?_, ?_⟩
    · intro u v huv
      simp only [lookup_entry] at huv ⊢
      split at huv
      · obtain rfl := some.inj huv
        simp
      · rw [if_neg (hold u v huv).2]
        exact h.closed u v huv
    · intro u v huv hne
      simp only [lookup_entry] at huv
      split at huv
      · next hu => exact absurd ((some.inj huv).symm.trans hu.symm) hne
      · have hlt := h.rank u v huv hne
        simp only [rankOf, lookup_entry] at hlt ⊢
        rw [if_neg (hold u v huv).1, if_neg (hold u v huv).2]
        exact hlt
    · intro u v huv hne
      simp only [lookup_entry] at huv
      split at huv
      · next hu => exact absurd ((some.inj huv).symm.trans hu.symm) hne
      · exact h.link u v huv hne

theorem make_isSome (F : ProofForest) (t : ℕ) : ((F.make t).parent.lookup t).isSome := by
  unfold make
  cases ht : F.parent.lookup t with
  | some _ => simp [ht]
  | none => simp

theorem make_isSome_of (t : ℕ) (h : (F.parent.lookup u).isSome) : ((F.make t).parent.lookup u).isSome := by
  unfold make
  cases ht : F.parent.lookup t with
  | some _ => exact h
  | none =>
    simp only [lookup_entry]
    split
    · rfl
    · exact h

theorem Ranked.linkRoot (h : Ranked ms F) (hm : m ∈ ms)
    (hv : F.parent.lookup v = some v) (hne : v ≠ u) {rank : List (ℕ × ℕ)}
    (hsame : ∀ w, w ≠ v → (rank.lookup w).getD 0 = F.rankOf w) (hle : F.rankOf v ≤ (rank.lookup v).getD 0)
    (hlt : F.rankOf u < (rank.lookup v).getD 0) : Ranked ms { F.link u v m.step with rank := rank } := by
  have hge : ∀ w, F.rankOf w ≤ (rank.lookup w).getD 0 := by
    intro w
    by_cases hw : w = v
    · rw [hw]
      exact hle
    · exact (hsame w hw).symm.le
  refine ⟨?_, ?_, ?_⟩
  · intro a b hab
    simp only [ProofForest.link, lookup_entry] at hab ⊢
    split
    · rfl
    · split at hab
      · obtain rfl := some.inj hab
        rw [hv]
        rfl
      · exact h.closed a b hab
  · intro a b hab hba
    simp only [ProofForest.link, lookup_entry, rankOf] at hab ⊢
    split at hab
    · next ha =>
      obtain rfl := some.inj hab
      rw [ha, hsame u hne.symm]
      exact hlt
    · have hav : a ≠ v := by
        rintro rfl
        exact hba (some.inj (hab.symm.trans hv))
      rw [hsame a hav]
      exact (h.rank a b hab hba).trans_le (hge b)
  · intro a b hab hba
    simp only [ProofForest.link, lookup_entry] at hab ⊢
    split at hab
    · next ha =>
      rw [if_pos ha]
      exact ⟨m, hm, rfl⟩
    · next ha =>
      rw [if_neg ha]
      exact h.link a b hab hba

def above (F : ProofForest) (u : ℕ) : ℕ := F.parent.countP fun entry => F.rankOf u < F.rankOf entry.1

theorem Ranked.above_lt (h : Ranked ms F) (huv : F.parent.lookup u = some v) (hne : v ≠ u) : F.above v < F.above u := by
  have hlt := h.rank u v huv hne
  obtain ⟨w, hw⟩ := isSome_iff_exists.mp (h.closed u v huv)
  obtain ⟨l₁, l₂, hsplit, -⟩ := lookup_eq_some_iff.mp hw
  have hle : ∀ l : List (ℕ × ℕ), (l.countP fun entry => F.rankOf v < F.rankOf entry.1) ≤
      l.countP fun entry => F.rankOf u < F.rankOf entry.1 := by
    intro l
    refine countP_mono_left fun entry _ hentry => ?_
    rw [decide_eq_true_eq] at hentry ⊢
    exact hlt.trans hentry
  have h₁ := hle l₁
  have h₂ := hle l₂
  unfold above
  rw [hsplit, countP_append, countP_append, countP_cons, countP_cons]
  simp only [lt_irrefl, decide_false, hlt, decide_true, Bool.false_eq_true, ↓reduceIte]
  omega

theorem Ranked.above_lt_length (h : (F.parent.lookup u).isSome) : F.above u < F.parent.length := by
  obtain ⟨w, hw⟩ := isSome_iff_exists.mp h
  obtain ⟨l₁, l₂, hsplit, -⟩ := lookup_eq_some_iff.mp hw
  have h₁ := @countP_le_length _ (fun entry : ℕ × ℕ => decide (F.rankOf u < F.rankOf entry.1)) l₁
  have h₂ := @countP_le_length _ (fun entry : ℕ × ℕ => decide (F.rankOf u < F.rankOf entry.1)) l₂
  unfold above
  rw [hsplit, countP_append, countP_cons, length_append, length_cons]
  simp only [lt_irrefl, decide_false, Bool.false_eq_true, ↓reduceIte]
  omega

theorem Ranked.path_spec (h : Ranked ms F) (hu : (F.parent.lookup u).isSome) (hfuel : F.above u < fuel) (t : ℕ) :
    ∃ r, F.parent.lookup r = some r ∧ F.findLoop t fuel u = r ∧ (u :: F.pathLoop fuel u).getLast? = some r ∧
    ∃ ls ⊆ ms, (u :: F.pathLoop fuel u).dropLast.map (fun w => F.proofToParent.lookup w) =
    ls.map fun m => some m.step := by
  induction fuel generalizing u with
  | zero => exact absurd hfuel (Nat.not_lt_zero _)
  | succ fuel ih =>
    obtain ⟨v, huv⟩ := isSome_iff_exists.mp hu
    rw [findLoop, pathLoop, huv]
    dsimp only
    by_cases hvu : v = u
    · rw [if_pos hvu, if_pos hvu]
      exact ⟨u, hvu ▸ huv, rfl, rfl, [], nil_subset _, rfl⟩
    · rw [if_neg hvu, if_neg hvu]
      obtain ⟨r, hr, hfind, hlast, ls, hls, hmap⟩ := ih (h.closed u v huv) (by have := h.above_lt huv hvu; omega)
      obtain ⟨m, hm, hstep⟩ := h.link u v huv hvu
      refine ⟨r, hr, hfind, ?_, m :: ls, cons_subset.mpr ⟨hm, hls⟩, ?_⟩
      · rw [getLast?_cons_cons]
        exact hlast
      · rw [dropLast_cons_cons, map_cons, hmap, hstep, map_cons]

theorem Ranked.find_spec (h : Ranked ms F) (hu : (F.parent.lookup u).isSome) :
    F.parent.lookup (F.find u) = some (F.find u) ∧ (F.pathToRoot u).getLast? = some (F.find u) := by
  obtain ⟨r, hr, hfind, hlast, -⟩ := h.path_spec hu (Ranked.above_lt_length hu) u
  have hroot : F.find u = r := hfind
  rw [hroot]
  exact ⟨hr, hlast⟩

theorem pathLoop_of_none (hu : F.parent.lookup u = none) : F.pathLoop fuel u = [] ∧ F.findLoop u fuel u = u := by
  cases fuel with
  | zero => exact ⟨rfl, rfl⟩
  | succ fuel => rw [pathLoop, findLoop, hu]; exact ⟨rfl, rfl⟩

theorem Ranked.exists_links (h : Ranked ms F) (u : ℕ) : (F.pathToRoot u).getLast? = some (F.find u) ∧
    ∃ ls ⊆ ms, (F.pathToRoot u).dropLast.map (fun w => F.proofToParent.lookup w) = ls.map fun m => some m.step := by
  cases hu : F.parent.lookup u with
  | none =>
    obtain ⟨hpath, hfind⟩ := @pathLoop_of_none F u F.parent.length hu
    rw [pathToRoot, find, hpath, hfind]
    exact ⟨rfl, [], nil_subset _, rfl⟩
  | some v =>
    have hsome : (F.parent.lookup u).isSome := by simp [hu]
    obtain ⟨-, -, -, -, hlinks⟩ := h.path_spec hsome (Ranked.above_lt_length hsome) u
    exact ⟨(h.find_spec hsome).2, hlinks⟩

theorem Ranked.union (h : Ranked ms F) (hm : m ∈ ms) (hl : (F.parent.lookup m.left).isSome)
    (hr : (F.parent.lookup m.right).isSome) : Ranked ms (F.union m.left m.right m.step) := by
  have ha := (h.find_spec hl).1
  have hb := (h.find_spec hr).1
  unfold ProofForest.union
  dsimp only
  by_cases heq : F.find m.left = F.find m.right
  · rw [if_pos heq]
    exact h
  · rw [if_neg heq]
    cases hcmp : compare (F.rankOf (F.find m.left)) (F.rankOf (F.find m.right)) with
    | lt => exact h.linkRoot hm hb (Ne.symm heq) (fun _ _ => rfl) (le_refl _) (compare_lt_iff_lt.mp hcmp)
    | gt => exact h.linkRoot hm ha heq (fun _ _ => rfl) (le_refl _) (compare_gt_iff_gt.mp hcmp)
    | eq =>
      have hrank := compare_eq_iff_eq.mp hcmp
      refine h.linkRoot hm ha heq (fun w hw => ?_) ?_ ?_
      · rw [lookup_entry, if_neg hw]
        rfl
      · rw [lookup_entry, if_pos rfl]
        exact Nat.le_succ _
      · rw [lookup_entry, if_pos rfl]
        exact hrank ▸ Nat.lt_succ_self _

variable {ls : List Merge}

theorem foldlM_steps {path : List ℕ} (p : ProofStep)
    (h : path.map (fun w => F.proofToParent.lookup w) = ls.map fun m => some m.step) :
    path.foldlM (fun current next => (F.proofToParent.lookup next).map current.trans) p =
    some (ls.foldl (fun p m => ProofStep.trans p m.step) p) := by
  induction path generalizing ls p with
  | nil =>
    obtain rfl := map_eq_nil_iff.mp h.symm
    rfl
  | cons u path ih =>
    cases ls with
    | nil => exact absurd h (by simp)
    | cons m ls =>
      rw [map_cons, map_cons, List.cons.injEq] at h
      rw [foldlM_cons, h.1]
      exact ih _ h.2

theorem buildProofPath_eq {path : List ℕ}
    (h : (u :: path).dropLast.map (fun w => F.proofToParent.lookup w) = ls.map fun m => some m.step) :
    F.buildProofPath (u :: path) = some (chainProof u ls) := by
  cases path with
  | nil =>
    obtain rfl := map_eq_nil_iff.mp h.symm
    rfl
  | cons v path =>
    cases ls with
    | nil => exact absurd h (by simp)
    | cons m ls =>
      rw [dropLast_cons_cons, map_cons, map_cons, List.cons.injEq] at h
      rw [buildProofPath, h.1, bind_some]
      · exact foldlM_steps m.step h.2
      · simp

def Reading (F : ProofForest) (u t : ℕ) : Prop :=
  ∃ ls : List Merge, (F.pathToRoot u).dropLast.map (fun w => F.proofToParent.lookup w) = ls.map (fun m => some m.step) ∧
    Reads ls u t

theorem step_inj : Function.Injective fun m : Merge => some m.step := by
  intro m n hmn
  obtain ⟨left, right, reason⟩ := m
  obtain ⟨left', right', reason'⟩ := n
  simpa [Merge.step] using hmn

theorem reading_iff
    (h : (F.pathToRoot u).dropLast.map (fun w => F.proofToParent.lookup w) = ls.map fun m => some m.step) :
    F.Reading u t ↔ Reads ls u t := by
  constructor
  · rintro ⟨ls', hls', hreads⟩
    obtain rfl := step_inj.list_map (h.symm.trans hls')
    exact hreads
  · exact fun hreads => ⟨ls, h, hreads⟩

theorem Ranked.explain_spec (h : Ranked ms F) {x y : ℕ} (hne : x ≠ y) :
    (F.find x ≠ F.find y → F.explain x y = none) ∧
    (F.find x = F.find y → ∃ p, F.explain x y = some p ∧
    (p.terms = (x, y) ∧ p.Chained ↔ ∃ z, F.Reading x z ∧ F.Reading y z) ∧
    (p.terms = (x, y) ∧ p.Chained → Entails ms p.reasons x y)) := by
  obtain ⟨hlastx, lx, hlx, hmapx⟩ := h.exists_links x
  obtain ⟨hlasty, ly, hly, hmapy⟩ := h.exists_links y
  have hexplain : F.explain x y =
      if F.find x ≠ F.find y then none else some (.trans (chainProof x lx) (.symm (chainProof y ly))) := by
    unfold explain
    rw [if_neg hne]
    dsimp only
    rw [hlastx, hlasty]
    have hx : F.buildProofPath (F.pathToRoot x) = some (chainProof x lx) := buildProofPath_eq hmapx
    have hy : F.buildProofPath (F.pathToRoot y) = some (chainProof y ly) := buildProofPath_eq hmapy
    rw [hx, hy]
    simp [pathToRoot]
  have hiff : ((chainProof x lx).trans (chainProof y ly).symm).terms = (x, y) ∧
      ((chainProof x lx).trans (chainProof y ly).symm).Chained ↔ ∃ z, F.Reading x z ∧ F.Reading y z := by
    simp only [reading_iff hmapx, reading_iff hmapy, ← chainProof_iff]
    simp only [ProofStep.terms, ProofStep.Chained, ProofStep.endpoint, Bool.false_eq_true, ↓reduceIte, Prod.mk.injEq,
      Bool.not_true, Bool.not_false]
    constructor
    · rintro ⟨⟨hx, hy⟩, hcx, hcy, hmid⟩
      exact ⟨_, ⟨hcx, hx, hmid⟩, hcy, hy, rfl⟩
    · rintro ⟨z, ⟨hcx, hx, hzx⟩, hcy, hy, hzy⟩
      exact ⟨⟨hx, hy⟩, hcx, hcy, hzx.trans hzy.symm⟩
  rw [hexplain]
  refine ⟨fun hroots => if_pos hroots, fun hroots => ⟨_, if_neg (not_not.mpr hroots), hiff, fun hp => ?_⟩⟩
  obtain ⟨z, hx, hy⟩ := hiff.mp hp
  have hreasons : ((chainProof x lx).trans (chainProof y ly).symm).reasons =
      lx.map Merge.reason ++ ly.map Merge.reason := by
    rw [ProofStep.reasons_eq, ProofStep.reasonsOf, ProofStep.reasonsOf, reasonsOf_chainProof, reasonsOf_chainProof]
  rw [hreasons]
  refine .trans _ z _ ?_ (.symm _ _ ?_)
  · exact ((reading_iff hmapx).mp hx).entails hlx (subset_append_left _ _)
  · exact ((reading_iff hmapy).mp hy).entails hly (subset_append_right _ _)

theorem Ranked.findLoop_congr (h : Ranked ms F) (t t' : ℕ) {fuel' : ℕ} (hu : (F.parent.lookup u).isSome)
    (hfuel : F.above u < fuel) (hfuel' : F.above u < fuel') : F.findLoop t fuel u = F.findLoop t' fuel' u := by
  induction fuel generalizing u fuel' with
  | zero => exact absurd hfuel (Nat.not_lt_zero _)
  | succ fuel ih =>
    cases fuel' with
    | zero => exact absurd hfuel' (Nat.not_lt_zero _)
    | succ fuel' =>
      obtain ⟨v, huv⟩ := isSome_iff_exists.mp hu
      rw [findLoop, findLoop, huv]
      dsimp only
      by_cases hvu : v = u
      · rw [if_pos hvu, if_pos hvu]
      · rw [if_neg hvu, if_neg hvu]
        have hlt := h.above_lt huv hvu
        exact ih (h.closed u v huv) (by omega) (by omega)

theorem Ranked.find_parent (h : Ranked ms F) (huv : F.parent.lookup u = some v) (hne : v ≠ u) :
    F.find u = F.find v := by
  have hu : (F.parent.lookup u).isSome := by simp [huv]
  have hlt := h.above_lt huv hne
  have hlen := Ranked.above_lt_length hu
  rw [find, h.findLoop_congr u u hu hlen (Nat.lt_succ_of_lt hlen), findLoop, huv]
  dsimp only
  rw [if_neg hne]
  exact h.findLoop_congr u v (h.closed u v huv) (by omega) (by omega)

structure Skewed (F : ProofForest) (u v : ℕ) (m : Merge) : Prop where
  parent : F.parent.lookup u = some v
  ne : v ≠ u
  step : F.proofToParent.lookup u = some m.step
  left : m.left ≠ u

theorem Skewed.make (h : F.Skewed u v m) (t : ℕ) : (F.make t).Skewed u v m := by
  unfold ProofForest.make
  cases ht : F.parent.lookup t with
  | some _ => exact h
  | none =>
    refine ⟨?_, h.ne, h.step, h.left⟩
    rw [lookup_entry, if_neg, h.parent]
    rintro rfl
    exact absurd (ht.symm.trans h.parent) (by simp)

theorem Skewed.union (h : F.Skewed u v m) (hF : Ranked ms F) {a b : ℕ} {p : ProofStep}
    (ha : (F.parent.lookup a).isSome) (hb : (F.parent.lookup b).isSome) : (F.union a b p).Skewed u v m := by
  have hroot : ∀ w, (F.parent.lookup w).isSome → u ≠ F.find w := by
    rintro w hw rfl
    exact h.ne (some.inj (h.parent.symm.trans (hF.find_spec hw).1))
  have hlink : ∀ w w', (F.parent.lookup w).isSome → (F.link (F.find w) w' p).Skewed u v m := by
    intro w w' hw
    refine ⟨?_, h.ne, ?_, h.left⟩
    · rw [link, lookup_entry, if_neg (hroot w hw), h.parent]
    · rw [link, lookup_entry, if_neg (hroot w hw), h.step]
  unfold ProofForest.union
  dsimp only
  by_cases heq : F.find a = F.find b
  · rw [if_pos heq]
    exact h
  · rw [if_neg heq]
    cases compare (F.rankOf (F.find a)) (F.rankOf (F.find b)) with
    | lt => exact hlink a _ ha
    | gt => exact hlink b _ hb
    | eq => exact ⟨(hlink b (F.find a) hb).parent, h.ne, (hlink b (F.find a) hb).step, h.left⟩

theorem Skewed.not_reading (h : F.Skewed u v m) : ¬ F.Reading u t := by
  rintro ⟨ls, hls, hreads⟩
  obtain ⟨l₁, l₂, hsplit, -⟩ := lookup_eq_some_iff.mp h.parent
  have hlen : F.parent.length = (l₁.length + l₂.length) + 1 := by
    rw [hsplit, length_append, length_cons]
    rfl
  rw [pathToRoot, hlen, pathLoop, h.parent] at hls
  dsimp only at hls
  rw [if_neg h.ne, dropLast_cons_cons, map_cons, h.step] at hls
  cases ls with
  | nil => exact absurd hls (by simp)
  | cons n ls =>
    rw [map_cons, List.cons.injEq] at hls
    obtain rfl := step_inj hls.1
    exact h.left hreads.1

structure Flat (F : ProofForest) : Prop where
  parent : ∀ u v, F.parent.lookup u = some v → v = u
  rank : ∀ u, F.rankOf u = 0

theorem Flat.find (h : Flat F) (u : ℕ) : F.find u = u := by
  unfold ProofForest.find
  cases F.parent.length with
  | zero => rfl
  | succ fuel =>
    rw [findLoop]
    cases hu : F.parent.lookup u with
    | none => rfl
    | some v => exact if_pos (h.parent u v hu)

theorem Flat.make (h : Flat F) (t : ℕ) : Flat (F.make t) := by
  unfold ProofForest.make
  cases ht : F.parent.lookup t with
  | some _ => exact h
  | none =>
    refine ⟨fun u v huv => ?_, fun u => ?_⟩
    · rw [lookup_entry] at huv
      split at huv
      · next hu => exact (some.inj huv).symm.trans hu.symm
      · exact h.parent u v huv
    · rw [rankOf, lookup_entry]
      split
      · rfl
      · exact h.rank u

end ProofForest

namespace ProofManager

open ProofForest

variable {ms : List Merge} {x y : ℕ}

def run (ms : List Merge) : ProofManager :=
  ms.foldl (fun manager m => manager.merge m.left m.right m.step) {}

theorem run_concat (ms : List Merge) (m : Merge) : run (ms ++ [m]) = (run ms).merge m.left m.right m.step := by
  rw [run, foldl_append]
  rfl

theorem ranked_run (ms : List Merge) : Ranked ms (run ms).forest := by
  induction ms using List.reverseRecOn with
  | nil => exact ranked_nil
  | append_singleton ms m ih =>
    rw [run_concat]
    refine (((ih.mono m).make m.left).make m.right).union (by simp) ?_ (make_isSome _ _)
    exact make_isSome_of _ (make_isSome _ _)

theorem flat_or_skewed (ms : List Merge) : ((∀ m ∈ ms, m.left = m.right) ∧ Flat (run ms).forest) ∨
    ((¬ ∀ m ∈ ms, m.left = m.right) ∧ ∃ u v m, (run ms).forest.Skewed u v m) := by
  induction ms using List.reverseRecOn with
  | nil => exact .inl ⟨by simp, ⟨by simp [run], fun _ => rfl⟩⟩
  | append_singleton ms m ih =>
    rw [run_concat]
    have hranked := ((ranked_run ms).make m.left).make m.right
    have hleft : (((run ms).forest.make m.left).make m.right).parent.lookup m.left |>.isSome :=
      make_isSome_of _ (make_isSome _ _)
    have hright : (((run ms).forest.make m.left).make m.right).parent.lookup m.right |>.isSome := make_isSome _ _
    rcases ih with ⟨htrivial, hflat⟩ | ⟨hnot, u, v, n, hskew⟩
    · have hflat := (hflat.make m.left).make m.right
      show (_ ∧ Flat (union _ _ _ _)) ∨ (_ ∧ ∃ u v n, (union _ _ _ _).Skewed u v n)
      unfold union
      dsimp only
      rw [hflat.find, hflat.find, hflat.rank, hflat.rank]
      by_cases heq : m.left = m.right
      · rw [if_pos heq]
        refine .inl ⟨fun n hn => ?_, hflat⟩
        rcases mem_append.mp hn with hn | hn
        · exact htrivial n hn
        · rw [mem_singleton.mp hn]
          exact heq
      · rw [if_neg heq]
        refine .inr ⟨fun hall => heq (hall m (by simp)), m.right, m.left, m, ?_, heq, ?_, heq⟩
        · exact lookup_cons_self
        · exact lookup_cons_self
    · refine .inr ⟨fun hall => hnot fun n hn => hall n (mem_append_left _ hn), u, v, n, ?_⟩
      exact ((hskew.make m.left).make m.right).union hranked hleft hright

def Explains (ms : List Merge) (x y : ℕ) : Prop :=
  ∀ p, (run ms).explain x y = some p → p.terms = (x, y) ∧ p.Chained ∧ Entails ms p.reasons x y

theorem explains_iff : Explains ms x y ↔ x = y ∨ (run ms).areEqual x y = false ∨
    ∃ z, (run ms).forest.Reading x z ∧ (run ms).forest.Reading y z := by
  rw [areEqual, decide_eq_false_iff_not]
  unfold Explains ProofManager.explain
  by_cases hxy : x = y
  · subst hxy
    refine iff_of_true (fun p hp => ?_) (.inl rfl)
    rw [ProofForest.explain, if_pos rfl] at hp
    obtain rfl := some.inj hp
    exact ⟨rfl, trivial, .refl x⟩
  · obtain ⟨hnone, hsome⟩ := (ranked_run ms).explain_spec hxy
    by_cases hroots : (run ms).forest.find x = (run ms).forest.find y
    · obtain ⟨p, hp, hiff, hentails⟩ := hsome hroots
      rw [hp]
      simp only [hxy, hroots, not_true_eq_false, false_or, ← hiff]
      constructor
      · intro h
        obtain ⟨hterms, hchained, -⟩ := h p rfl
        exact ⟨hterms, hchained⟩
      · rintro h q hq
        obtain rfl := some.inj hq
        exact ⟨h.1, h.2, hentails h⟩
    · rw [hnone hroots]
      exact iff_of_true (by simp) (.inr (.inl hroots))

/-- Two terms are explained where the merges on their links read on; all terms are only in runs that merge nothing. -/
theorem run_explains_iff (ms : List Merge) :
    (∀ x y, Explains ms x y ↔ x = y ∨ (run ms).areEqual x y = false ∨ ∃ z, (run ms).forest.Reading x z ∧
    (run ms).forest.Reading y z) ∧ ((∀ x y, Explains ms x y) ↔ ∀ m ∈ ms, m.left = m.right) := by
  refine ⟨fun x y => explains_iff, ?_⟩
  rcases flat_or_skewed ms with ⟨htrivial, hflat⟩ | ⟨hnot, u, v, m, hskew⟩
  · refine iff_of_true (fun x y => explains_iff.mpr ?_) htrivial
    by_cases hxy : x = y
    · exact .inl hxy
    · refine .inr (.inl ?_)
      rw [areEqual, hflat.find, hflat.find]
      exact decide_eq_false hxy
  · refine iff_of_false (fun h => ?_) hnot
    rcases explains_iff.mp (h u v) with huv | hroots | ⟨z, hread, -⟩
    · exact hskew.ne huv.symm
    · rw [areEqual, (ranked_run ms).find_parent hskew.parent hskew.ne] at hroots
      simp at hroots
    · exact hskew.not_reading hread

/-- The first merge of two terms is explained as an equality of the first with itself. -/
theorem not_run_explains : ¬ ∀ (ms : List Merge) (x y : ℕ), Explains ms x y := by
  intro h
  obtain ⟨hterms, -⟩ := h [⟨1, 2, 0⟩] 1 2 (.trans (.refl 1) (.symm (.given 1 2 0))) (by rfl)
  exact absurd hterms (by decide)

end ProofManager

end Nixie.Euf
