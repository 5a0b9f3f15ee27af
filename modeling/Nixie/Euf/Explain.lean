import Mathlib.Algebra.BigOperators.Group.Finset.Basic
import Mathlib.Algebra.GroupWithZero.Nat
import Nixie.Euf.Solver

/-!
Explanations from the proof forest, and the conflicts that rest on them.
-/

namespace Nixie.Euf

open Undo List Function

abbrev PathCost := ℕ × ℕ

def PathCost.lt (c d : PathCost) : Bool := c.1 < d.1 ∨ c.1 = d.1 ∧ c.2 < d.2

def heapLe (p q : PathCost × ℕ) : Bool := p.1.lt q.1 ∨ p.1 = q.1 ∧ p.2 ≤ q.2

structure PathSearch where
  settled : List ℕ := []
  dist : ℕ → Option PathCost := fun _ => none
  parent : ℕ → Option (ℕ × ℕ) := fun _ => none
  heap : List (PathCost × ℕ) := []

namespace PathSearch

def improves (search : PathSearch) (node : ℕ) (cost : PathCost) : Bool :=
  match search.dist node with
  | none => true
  | some known => cost.lt known

def relaxEdge (search : PathSearch) (n node : ℕ) (cost : PathCost) (idx : ℕ) (edge : MergeEdge) :
    PathSearch :=
  if n ≤ edge.other ∨ edge.other ∈ search.settled then search
  else
    let new : PathCost := (max cost.1 edge.stamp, cost.2 + 1)
    if search.improves edge.other new then
      { search with
        dist := update search.dist edge.other (some new)
        parent := update search.parent edge.other (some (node, idx))
        heap := search.heap.orderedInsert (heapLe · ·) (new, edge.other) }
    else search

def relaxEdges (n node : ℕ) (cost : PathCost) : List (MergeEdge × ℕ) → PathSearch → PathSearch
  | [], search => search
  | (edge, idx) :: edges, search =>
    relaxEdges n node cost edges (search.relaxEdge n node cost idx edge)

def run (forest : ℕ → List MergeEdge) (n target : ℕ) : ℕ → PathSearch → PathSearch × Bool
  | 0, search => (search, false)
  | fuel + 1, search =>
    match search.heap with
    | [] => (search, false)
    | (cost, node) :: heap =>
      let search := { search with heap := heap }
      if node ∈ search.settled then run forest n target fuel search
      else
        let search := { search with settled := node :: search.settled }
        if node = target then (search, true)
        else run forest n target fuel (relaxEdges n node cost (forest node).zipIdx search)

def start (source : ℕ) : PathSearch :=
  { dist := update (fun _ => none) source (some (0, 0))
    heap := [((0, 0), source)] }

/-- The edges of the path from the target back to the source, each as a node with the position
of the edge in its list. -/
def walkBack (parent : ℕ → Option (ℕ × ℕ)) (source : ℕ) : ℕ → ℕ → List (ℕ × ℕ)
  | 0, _ => []
  | fuel + 1, current =>
    if current = source then []
    else
      match parent current with
      | none => []
      | some (prev, idx) => (prev, idx) :: walkBack parent source fuel prev

end PathSearch

def findPath (forest : ℕ → List MergeEdge) (n source target : ℕ) : Option (List (ℕ × ℕ)) :=
  let fuel := ((List.range n).map fun i => (forest i).length).sum + 2
  let result := (PathSearch.start source).run forest n target fuel
  if result.2 then some (PathSearch.walkBack result.1.parent source n target) else none

structure Explanation where
  todo : List (ℕ × ℕ)
  enqueued : List (ℕ × ℕ)
  reasons : List ℕ := []

def takePartner (partner : ℕ → Bool) : List ℕ → Option (ℕ × List ℕ)
  | [] => none
  | arg :: args =>
    if partner arg then some (arg, args)
    else (takePartner partner args).map fun found => (found.1, arg :: found.2)

namespace Explanation

def addReason (e : Explanation) (reason : ℕ) : Explanation :=
  if reason ≠ 0 ∧ reason ∉ e.reasons then { e with reasons := e.reasons ++ [reason] } else e

def schedule (e : Explanation) (n arg1 arg2 : ℕ) : Explanation :=
  if arg1 ≠ arg2 ∧ arg1 < n ∧ arg2 < n ∧ orderedPair arg1 arg2 ∉ e.enqueued then
    { e with
      todo := (arg1, arg2) :: e.todo
      enqueued := orderedPair arg1 arg2 :: e.enqueued }
  else e

def scheduleCongruenceSubgoals (uf : UnionFind) (n : ℕ) :
    List ℕ → List ℕ → Explanation → Option Explanation
  | [], _, e => some e
  | arg1 :: args1, args2, e =>
    match takePartner (fun arg2 => arg2 = arg1 ∨ uf.sameNoCompress arg1 arg2) args2 with
    | none => none
    | some (arg2, args2) =>
      scheduleCongruenceSubgoals uf n args1 args2 (e.schedule n arg1 arg2)

end Explanation

namespace EufSolver

def explainEdge (s : EufSolver) (e : Explanation) (step : ℕ × ℕ) : Option Explanation :=
  match (s.proofForest.lists step.1)[step.2]? with
  | none => none
  | some edge =>
    match edge.reason with
    | .assertion reason => some (e.addReason reason)
    | .congruence term1 term2 =>
      match s.nodes[term1]?, s.nodes[term2]? with
      | some node1, some node2 =>
        if node1.args.length ≠ node2.args.length then none
        else e.scheduleCongruenceSubgoals s.uf s.nodes.length node1.args node2.args
      | _, _ => none

def explainPath (s : EufSolver) : List (ℕ × ℕ) → Explanation → Option Explanation
  | [], e => some e
  | step :: path, e => (s.explainEdge e step).bind (s.explainPath path)

def explainLoop (s : EufSolver) : ℕ → Explanation → Option (List ℕ)
  | 0, _ => none
  | fuel + 1, e =>
    match e.todo with
    | [] => some e.reasons
    | (source, target) :: todo =>
      match findPath s.proofForest.lists s.nodes.length source target with
      | none => none
      | some path => (s.explainPath path { e with todo := todo }).bind (s.explainLoop fuel)

def cacheCapacity : ℕ := 1024

def cacheGet (s : EufSolver) (key : ℕ × ℕ) : EufSolver × Option (List ℕ) :=
  match s.explCache.lookup key with
  | none => (s, none)
  | some reasons =>
    ({ s with explCache := (key, reasons) :: s.explCache.filter (·.1 ≠ key) }, some reasons)

def cacheInsert (s : EufSolver) (key : ℕ × ℕ) (reasons : List ℕ) : EufSolver :=
  let cache :=
    if (s.explCache.lookup key).isSome then s.explCache.filter (·.1 ≠ key)
    else if cacheCapacity ≤ s.explCache.length then s.explCache.dropLast
    else s.explCache
  { s with explCache := (key, reasons) :: cache }

def tryExplainEquality (s : EufSolver) (a b : ℕ) : EufSolver × Option (List ℕ) :=
  if a = b then (s, some [])
  else
    let n := s.nodes.length
    if n ≤ a ∨ n ≤ b then (s, none)
    else if s.uf.sameNoCompress a b then
      let key := orderedPair a b
      match s.cacheGet key with
      | (s, some cached) => (s, some cached)
      | (s, none) =>
        match s.explainLoop (n * n + 1) { todo := [(a, b)], enqueued := [key] } with
        | none => (s, none)
        | some reasons => (s.cacheInsert key reasons, some reasons)
    else (s, none)

/-- The loop with its count of `explain_generation`: there is no result when the `u32` overflows. -/
def explainLoop32 (s : EufSolver) : ℕ → ℕ → Explanation → Option (ℕ × Option (List ℕ))
  | 0, generation, _ => some (generation, none)
  | fuel + 1, generation, e =>
    match e.todo with
    | [] => some (generation, some e.reasons)
    | (source, target) :: todo =>
      if generation + 1 < 2 ^ 32 then
        match findPath s.proofForest.lists s.nodes.length source target with
        | none => some (generation + 1, none)
        | some path =>
          match s.explainPath path { e with todo := todo } with
          | none => some (generation + 1, none)
          | some e => s.explainLoop32 fuel (generation + 1) e
      else none

/-- The generation is rolled over before the loop, and not within it. -/
def rollOver (generation : ℕ) : ℕ := if 2 ^ 32 - 2 ≤ generation then 0 else generation

def tryExplainEquality32 (s : EufSolver) (generation a b : ℕ) : Option (ℕ × EufSolver × Option (List ℕ)) :=
  if a = b then some (generation, s, some [])
  else
    let n := s.nodes.length
    if n ≤ a ∨ n ≤ b then some (generation, s, none)
    else if s.uf.sameNoCompress a b then
      let key := orderedPair a b
      match s.cacheGet key with
      | (s, some cached) => some (generation, s, some cached)
      | (s, none) =>
        match s.explainLoop32 (n * n + 1) (rollOver generation) { todo := [(a, b)], enqueued := [key] } with
        | none => none
        | some (generation, none) => some (generation, s, none)
        | some (generation, some reasons) => some (generation, s.cacheInsert key reasons, some reasons)
    else some (generation, s, none)

/-- The pairs that a run of the loop takes off its worklist. -/
def searches (s : EufSolver) : ℕ → Explanation → ℕ
  | 0, _ => 0
  | fuel + 1, e =>
    match e.todo with
    | [] => 0
    | (source, target) :: todo =>
      match findPath s.proofForest.lists s.nodes.length source target with
      | none => 1
      | some path =>
        match s.explainPath path { e with todo := todo } with
        | none => 1
        | some e => s.searches fuel e + 1

def HasRoom (s : EufSolver) (generation a b : ℕ) : Prop :=
  a = b ∨ (s.explCache.lookup (orderedPair a b)).isSome ∨ rollOver generation +
    s.searches (s.nodes.length * s.nodes.length + 1) { todo := [(a, b)], enqueued := [orderedPair a b] } < 2 ^ 32

theorem searches_le {s : EufSolver} {fuel : ℕ} {e : Explanation} : s.searches fuel e ≤ fuel := by
  induction fuel generalizing e with
  | zero => exact le_rfl
  | succ fuel ih =>
    unfold searches
    split
    · exact Nat.zero_le _
    · split
      · exact Nat.succ_pos fuel
      · split
        · exact Nat.succ_pos fuel
        · exact Nat.succ_le_succ ih

theorem hasRoom_of_lt {s : EufSolver} {generation a b : ℕ}
    (h : rollOver generation + (s.nodes.length * s.nodes.length + 1) < 2 ^ 32) : s.HasRoom generation a b :=
  .inr (.inr ((Nat.add_le_add_left searches_le _).trans_lt h))

theorem explainLoop32_isSome {s : EufSolver} {fuel generation : ℕ} {e : Explanation} (h : generation < 2 ^ 32) :
    (s.explainLoop32 fuel generation e).isSome ↔ generation + s.searches fuel e < 2 ^ 32 := by
  induction fuel generalizing generation e with
  | zero => exact iff_of_true rfl h
  | succ fuel ih =>
    unfold explainLoop32 searches
    cases e.todo with
    | nil => exact iff_of_true rfl h
    | cons goal todo =>
      dsimp only
      by_cases hlt : generation + 1 < 2 ^ 32
      · rw [if_pos hlt]
        split
        · exact iff_of_true rfl hlt
        · split
          · exact iff_of_true rfl hlt
          · rw [ih hlt, Nat.add_right_comm, Nat.add_assoc]
      · rw [if_neg hlt]
        refine iff_of_false Bool.false_ne_true fun hroom => hlt (lt_of_le_of_lt ?_ hroom)
        split
        · exact le_rfl
        · split <;> omega

theorem explainLoop32_eq {s : EufSolver} {fuel generation : ℕ} {e : Explanation} {r : ℕ × Option (List ℕ)}
    (h : s.explainLoop32 fuel generation e = some r) : s.explainLoop fuel e = r.2 := by
  induction fuel generalizing generation e with
  | zero =>
    cases h
    rfl
  | succ fuel ih =>
    unfold explainLoop32 at h
    unfold explainLoop
    cases htodo : e.todo with
    | nil =>
      rw [htodo] at h
      cases h
      rfl
    | cons goal todo =>
      obtain ⟨source, target⟩ := goal
      simp only [htodo] at h ⊢
      split_ifs at h
      cases hpath : findPath s.proofForest.lists s.nodes.length source target with
      | none =>
        rw [hpath] at h
        cases h
        rfl
      | some path =>
        simp only [hpath] at h ⊢
        cases hexplained : s.explainPath path { e with todo := todo } with
        | none =>
          rw [hexplained] at h
          cases h
          rfl
        | some e' =>
          rw [hexplained] at h
          exact ih h

theorem tryExplainEquality32_eq {s : EufSolver} {generation a b : ℕ} {r : ℕ × EufSolver × Option (List ℕ)}
    (h : s.tryExplainEquality32 generation a b = some r) : s.tryExplainEquality a b = r.2 := by
  unfold tryExplainEquality32 at h
  unfold tryExplainEquality
  dsimp only at h ⊢
  split_ifs at h ⊢
  · cases h
    rfl
  · cases h
    rfl
  · generalize s.cacheGet (orderedPair a b) = got at h ⊢
    obtain ⟨t, cached⟩ := got
    cases cached with
    | some cached =>
      cases h
      rfl
    | none =>
      dsimp only at h ⊢
      split at h
      · cases h
      · next hloop =>
        cases h
        rw [explainLoop32_eq hloop]
      · next hloop =>
        cases h
        rw [explainLoop32_eq hloop]
  · cases h
    rfl

theorem tryExplainEquality32_isSome {s : EufSolver} {generation a b : ℕ} (h : (s.tryExplainEquality a b).2.isSome) :
    (s.tryExplainEquality32 generation a b).isSome ↔ s.HasRoom generation a b := by
  have hlt : rollOver generation < 2 ^ 32 := by
    rw [rollOver]
    split_ifs <;> omega
  unfold tryExplainEquality at h
  unfold tryExplainEquality32 HasRoom
  dsimp only at h ⊢
  split_ifs at h ⊢ with hab
  · exact iff_of_true rfl (.inl hab)
  · cases h
  · rw [or_iff_right hab]
    unfold cacheGet
    cases hcached : s.explCache.lookup (orderedPair a b) with
    | some cached => exact iff_of_true rfl (.inl rfl)
    | none =>
      rw [Option.isSome_none, or_iff_right Bool.false_ne_true, ← explainLoop32_isSome hlt]
      dsimp only
      generalize s.explainLoop32 _ (rollOver generation) _ = result
      rcases result with _ | ⟨generation', _ | reasons⟩ <;> rfl
  · cases h

def edgeReason (edge : MergeEdge) : Option ℕ :=
  match edge.reason with
  | .assertion reason => some reason
  | .congruence _ _ => none

def allAssertedReasons (s : EufSolver) : List ℕ :=
  let edges := (List.range s.nodes.length).flatMap s.proofForest.lists
  let reasons := edges.filterMap edgeReason ++ s.diseqs.diseqs.map Diseq.reason
  reasons.foldl (fun out reason => if reason ≠ 0 ∧ reason ∉ out then out ++ [reason] else out) []

def checkConflicts (s : EufSolver) : EufSolver × Option (List ℕ) :=
  match s.diseqs.pendingDiseqConflict with
  | none =>
    match s.values.pendingValueConflict with
    | none => (s, none)
    | some (wa, wb) =>
      match s.tryExplainEquality wa wb with
      | (s, some explanation) =>
        (s, some (if explanation ≠ [] then explanation else s.allAssertedReasons))
      | (s, none) => (s, some s.allAssertedReasons)
  | some idx =>
    match s.diseqs.diseqs[idx]? with
    | none => (s, none)
    | some d =>
      let (s, explained) := s.tryExplainEquality d.lhs d.rhs
      let explanation := explained.getD s.allAssertedReasons
      (s, some (if d.reason ∈ explanation then explanation else explanation ++ [d.reason]))

end EufSolver

def EdgeAt (forest : ℕ → List MergeEdge) (node idx other : ℕ) : Prop :=
  ∃ edge, (forest node)[idx]? = some edge ∧ edge.other = other

def Step (forest : ℕ → List MergeEdge) (n x y : ℕ) : Prop :=
  y < n ∧ ∃ edge ∈ forest x, edge.other = y

def Leads (forest : ℕ → List MergeEdge) (source : ℕ) : List (ℕ × ℕ) → ℕ → Prop
  | [], x => x = source
  | (node, idx) :: path, x => EdgeAt forest node idx x ∧ Leads forest source path node

namespace PathSearch

def Reached (forest : ℕ → List MergeEdge) (source : ℕ) (parent : ℕ → Option (ℕ × ℕ))
    (settled : List ℕ) (x : ℕ) : Prop :=
  x = source ∨ ∃ node idx, parent x = some (node, idx) ∧ node ∈ settled ∧ EdgeAt forest node idx x

def Rooted (forest : ℕ → List MergeEdge) (source : ℕ) (parent : ℕ → Option (ℕ × ℕ)) :
    List ℕ → Prop
  | [] => True
  | x :: settled => Reached forest source parent settled x ∧ Rooted forest source parent settled

structure Inv (forest : ℕ → List MergeEdge) (n source : ℕ) (s : PathSearch) : Prop where
  nodup : s.settled.Nodup
  rooted : Rooted forest source s.parent s.settled
  reached : ∀ x, (s.dist x).isSome → x < n ∧ Reached forest source s.parent s.settled x
  settled : ∀ x ∈ s.settled, (s.dist x).isSome
  heap : ∀ e ∈ s.heap, (s.dist e.2).isSome
  seen : ∀ x, (s.dist x).isSome → x ∈ s.settled ∨ ∃ e ∈ s.heap, e.2 = x

def Explored (forest : ℕ → List MergeEdge) (n : ℕ) (s : PathSearch) : Prop :=
  ∀ x ∈ s.settled, ∀ edge ∈ forest x, edge.other < n → (s.dist edge.other).isSome

def potential (forest : ℕ → List MergeEdge) (n : ℕ) (s : PathSearch) : ℕ :=
  s.heap.length + ∑ x ∈ Finset.range n \ s.settled.toFinset, (forest x).length

variable {forest : ℕ → List MergeEdge} {n source target node idx : ℕ} {s s' : PathSearch}
  {cost : PathCost} {edge : MergeEdge} {parent parent' : ℕ → Option (ℕ × ℕ)} {settled : List ℕ}

theorem Reached.mono {settled' : List ℕ} {x : ℕ} (h : Reached forest source parent settled x)
    (hsettled : ∀ y ∈ settled, y ∈ settled') : Reached forest source parent settled' x := by
  refine h.imp_right ?_
  rintro ⟨node, idx, hparent, hnode, hedge⟩
  exact ⟨node, idx, hparent, hsettled node hnode, hedge⟩

theorem Rooted.congr (hparent : ∀ x ∈ settled, parent' x = parent x)
    (h : Rooted forest source parent settled) : Rooted forest source parent' settled := by
  induction settled with
  | nil => trivial
  | cons x settled ih =>
    refine ⟨h.1.imp_right ?_, ih (fun y hy => hparent y (mem_cons_of_mem _ hy)) h.2⟩
    rintro ⟨node, idx, hx, hrest⟩
    exact ⟨node, idx, (hparent x mem_cons_self).trans hx, hrest⟩

structure Relaxed (s s' : PathSearch) (count : ℕ) : Prop where
  settled : s'.settled = s.settled
  length : s'.heap.length ≤ s.heap.length + count
  dist : ∀ x, (s.dist x).isSome → (s'.dist x).isSome

theorem Inv.relaxEdge (h : Inv forest n source s) (cost : PathCost) (hnode : node ∈ s.settled)
    (hedge : (forest node)[idx]? = some edge) : Inv forest n source (s.relaxEdge n node cost idx edge) ∧
    Relaxed s (s.relaxEdge n node cost idx edge) 1 ∧
    (edge.other < n → ((s.relaxEdge n node cost idx edge).dist edge.other).isSome) := by
  unfold PathSearch.relaxEdge
  split
  · next hskip =>
    refine ⟨h, ⟨rfl, Nat.le_succ _, fun _ => id⟩, fun hlt => ?_⟩
    exact h.settled _ (hskip.resolve_left (by omega))
  · next hskip =>
    rw [not_or] at hskip
    obtain ⟨hlt, hother⟩ := hskip
    dsimp only
    split
    · have hdist (x : ℕ) : (update s.dist edge.other
          (some (max cost.1 edge.stamp, cost.2 + 1)) x).isSome ↔ x = edge.other ∨ (s.dist x).isSome := by
        by_cases hx : x = edge.other
        · simp [hx]
        · simp [hx]
      refine ⟨⟨h.nodup, ?_, fun x hx => ?_, fun x hx => ?_, fun e he => ?_, fun x hx => ?_⟩,
        ⟨rfl, ?_, fun x hx => ?_⟩, fun _ => ?_⟩
      · refine h.rooted.congr fun x hx => update_of_ne ?_ _ _
        exact fun heq => hother (heq ▸ hx)
      · rcases (hdist x).mp hx with rfl | hx
        · exact ⟨by omega, .inr ⟨node, idx, update_self _ _ _, hnode, edge, hedge, rfl⟩⟩
        · by_cases heq : x = edge.other
          · subst heq
            exact ⟨by omega, .inr ⟨node, idx, update_self _ _ _, hnode, edge, hedge, rfl⟩⟩
          · obtain ⟨hx, hreached⟩ := h.reached x hx
            refine ⟨hx, hreached.imp_right ?_⟩
            rintro ⟨p, i, hparent, hrest⟩
            exact ⟨p, i, (update_of_ne heq _ _).trans hparent, hrest⟩
      · exact (hdist x).mpr (.inr (h.settled x hx))
      · rcases (mem_orderedInsert _).mp he with rfl | he
        · exact (hdist _).mpr (.inl rfl)
        · exact (hdist _).mpr (.inr (h.heap e he))
      · rcases (hdist x).mp hx with rfl | hx
        · exact .inr ⟨_, (mem_orderedInsert _).mpr (.inl rfl), rfl⟩
        · refine (h.seen x hx).imp_right ?_
          rintro ⟨e, he, rfl⟩
          exact ⟨e, (mem_orderedInsert _).mpr (.inr he), rfl⟩
      · exact (orderedInsert_length _ _ _).le
      · exact (hdist x).mpr (.inr hx)
      · exact (hdist _).mpr (.inl rfl)
    · next himproves =>
      refine ⟨h, ⟨rfl, Nat.le_succ _, fun _ => id⟩, fun _ => ?_⟩
      unfold improves at himproves
      split at himproves
      · simp at himproves
      · next hknown => simp [hknown]

theorem Inv.relaxEdges (h : Inv forest n source s) (cost : PathCost) (hnode : node ∈ s.settled)
    {edges : List (MergeEdge × ℕ)} (hedges : ∀ e ∈ edges, (forest node)[e.2]? = some e.1) :
    Inv forest n source (relaxEdges n node cost edges s) ∧ Relaxed s (relaxEdges n node cost edges s) edges.length ∧
    ∀ e ∈ edges, e.1.other < n → ((relaxEdges n node cost edges s).dist e.1.other).isSome := by
  induction edges generalizing s with
  | nil => exact ⟨h, ⟨rfl, Nat.le_refl _, fun _ => id⟩, by simp⟩
  | cons e edges ih =>
    obtain ⟨edge, idx⟩ := e
    obtain ⟨hedge, hedges⟩ := forall_mem_cons.mp hedges
    obtain ⟨hinv, hrelaxed, hdist⟩ := h.relaxEdge cost hnode hedge
    dsimp only at hinv hrelaxed hdist
    obtain ⟨hinv', hrelaxed', hdist'⟩ := ih hinv (hrelaxed.settled ▸ hnode) hedges
    have hlength := hrelaxed.length
    have hlength' := hrelaxed'.length
    refine ⟨hinv', ⟨hrelaxed'.settled.trans hrelaxed.settled, ?_, fun x hx => ?_⟩, ?_⟩
    · rw [PathSearch.relaxEdges, length_cons]
      omega
    · exact hrelaxed'.dist x (hrelaxed.dist x hx)
    · refine forall_mem_cons.mpr ⟨fun hlt => ?_, hdist'⟩
      exact hrelaxed'.dist _ (hdist hlt)

variable {heap : List (PathCost × ℕ)}

theorem potential_settle (forest : ℕ → List MergeEdge) (hheap : s.heap = (cost, node) :: heap) (hlt : node < n)
    (hnode : node ∉ s.settled) :
    potential forest n { s with heap := heap, settled := node :: s.settled } + (forest node).length + 1 =
    potential forest n s := by
  have herase : Finset.range n \ (node :: s.settled).toFinset =
      (Finset.range n \ s.settled.toFinset).erase node := by
    ext x
    simp only [Finset.mem_sdiff, Finset.mem_erase, mem_toFinset, mem_cons]
    tauto
  have hmem : node ∈ Finset.range n \ s.settled.toFinset := by simp [hlt, hnode]
  have hsum := Finset.add_sum_erase _ (fun x => (forest x).length) hmem
  simp only [potential, herase, hheap, length_cons]
  omega

theorem Inv.settle (h : Inv forest n source s) (hheap : s.heap = (cost, node) :: heap)
    (hnode : node ∉ s.settled) : Inv forest n source { s with heap := heap, settled := node :: s.settled } where
  nodup := nodup_cons.mpr ⟨hnode, h.nodup⟩
  rooted := ⟨(h.reached node (h.heap _ (by rw [hheap]; exact mem_cons_self))).2, h.rooted⟩
  reached x hx := by
    obtain ⟨hlt, hreached⟩ := h.reached x hx
    exact ⟨hlt, hreached.mono fun y hy => mem_cons_of_mem _ hy⟩
  settled := by
    refine forall_mem_cons.mpr ⟨?_, h.settled⟩
    exact h.heap (cost, node) (by rw [hheap]; exact mem_cons_self)
  heap e he := h.heap e (by rw [hheap]; exact mem_cons_of_mem _ he)
  seen x hx := by
    rcases h.seen x hx with hmem | ⟨e, he, rfl⟩
    · exact .inl (mem_cons_of_mem _ hmem)
    · rw [hheap] at he
      rcases mem_cons.mp he with rfl | he
      · exact .inl mem_cons_self
      · exact .inr ⟨e, he, rfl⟩

theorem Inv.skip (h : Inv forest n source s) (hheap : s.heap = (cost, node) :: heap) (hnode : node ∈ s.settled) :
    Inv forest n source { s with heap := heap } where
  nodup := h.nodup
  rooted := h.rooted
  reached := h.reached
  settled := h.settled
  heap e he := h.heap e (by rw [hheap]; exact mem_cons_of_mem _ he)
  seen x hx := by
    rcases h.seen x hx with hmem | ⟨e, he, rfl⟩
    · exact .inl hmem
    · rw [hheap] at he
      rcases mem_cons.mp he with rfl | he
      · exact .inl hnode
      · exact .inr ⟨e, he, rfl⟩

theorem Inv.run {fuel : ℕ} (h : Inv forest n source s) (hexplored : Explored forest n s)
    (htarget : target ∉ s.settled) (hfuel : potential forest n s < fuel) :
    let result := s.run forest n target fuel
    Inv forest n source result.1 ∧ (∀ x, (s.dist x).isSome → (result.1.dist x).isSome) ∧
      (if result.2 then target ∈ result.1.settled
        else target ∉ result.1.settled ∧ result.1.heap = [] ∧ Explored forest n result.1) := by
  induction fuel generalizing s with
  | zero => omega
  | succ fuel ih =>
    unfold PathSearch.run
    split
    · next hheap =>
      refine ⟨h, fun _ => id, ?_⟩
      rw [if_neg (by simp)]
      exact ⟨htarget, hheap, hexplored⟩
    · next cost node heap hheap =>
      dsimp only
      split
      · next hnode =>
        have hfuel' : potential forest n { s with heap := heap } < fuel := by
          simp only [potential, hheap, length_cons] at hfuel ⊢
          omega
        exact ih (h.skip hheap hnode) hexplored htarget hfuel'
      · next hnode =>
        have hsettled := h.settle hheap hnode
        split
        · next heq =>
          refine ⟨hsettled, fun _ => id, ?_⟩
          rw [if_pos rfl, heq]
          exact mem_cons_self
        · next hne =>
          have hlt : node < n := (h.reached node (h.heap (cost, node) (by rw [hheap]; exact mem_cons_self))).1
          have hpotential := potential_settle forest hheap hlt hnode
          have hedges : ∀ e ∈ (forest node).zipIdx, (forest node)[e.2]? = some e.1 :=
            fun e he => mem_zipIdx_iff_getElem?.mp he
          obtain ⟨hinv, hrelaxed, hdist⟩ := hsettled.relaxEdges cost mem_cons_self hedges
          have hlength := hrelaxed.length
          rw [length_zipIdx] at hlength
          dsimp only at hlength
          have hexplored' : Explored forest n (PathSearch.relaxEdges n node cost (forest node).zipIdx
              { s with heap := heap, settled := node :: s.settled }) := by
            intro x hx edge hedge hother
            rw [hrelaxed.settled] at hx
            rcases mem_cons.mp hx with rfl | hx
            · obtain ⟨idx, hidx⟩ := mem_iff_getElem?.mp hedge
              exact hdist (edge, idx) (mem_zipIdx_iff_getElem?.mpr hidx) hother
            · exact hrelaxed.dist _ (hexplored x hx edge hedge hother)
          obtain ⟨hinv', hmono, hresult⟩ := ih hinv hexplored' (by
            rw [hrelaxed.settled, mem_cons, not_or]
            exact ⟨Ne.symm hne, htarget⟩) (by
            simp only [potential, hrelaxed.settled] at hpotential hfuel ⊢
            omega)
          exact ⟨hinv', fun x hx => hmono x (hrelaxed.dist x hx), hresult⟩

theorem inv_start (forest : ℕ → List MergeEdge) (hsource : source < n) : Inv forest n source (start source) := by
  have hdist (x : ℕ) : ((start source).dist x).isSome ↔ x = source := by
    by_cases hx : x = source
    · simp [start, hx]
    · simp [start, hx]
  refine ⟨nodup_nil, trivial, fun x hx => ?_, by simp [start], fun e he => ?_, fun x hx => ?_⟩
  · obtain rfl := (hdist x).mp hx
    exact ⟨hsource, .inl rfl⟩
  · obtain rfl : e = ((0, 0), source) := by simpa [start] using he
    exact (hdist _).mpr rfl
  · obtain rfl := (hdist x).mp hx
    exact .inr ⟨((0, 0), x), by simp [start], rfl⟩

theorem Inv.settled_of_connected (h : Inv forest n source s) (hexplored : Explored forest n s)
    (hheap : s.heap = []) (hsource : (s.dist source).isSome) {x : ℕ}
    (hconn : Relation.ReflTransGen (Step forest n) source x) : x ∈ s.settled := by
  have hseen (x : ℕ) (hx : (s.dist x).isSome) : x ∈ s.settled := by
    rcases h.seen x hx with hx | ⟨e, he, -⟩
    · exact hx
    · rw [hheap] at he
      cases he
  induction hconn with
  | refl => exact hseen source hsource
  | tail _ hstep ih =>
    obtain ⟨hlt, edge, hedge, rfl⟩ := hstep
    exact hseen _ (hexplored _ ih edge hedge hlt)

theorem Inv.length_settled (h : Inv forest n source s) : s.settled.length ≤ n := by
  have hsub : s.settled ⊆ List.range n :=
    fun x hx => mem_range.mpr (h.reached x (h.settled x hx)).1
  have hlen := (h.nodup.subperm hsub).length_le
  rwa [length_range] at hlen

theorem Rooted.walkBack {fuel x : ℕ} (h : Rooted forest source parent settled) (hx : x ∈ settled)
    (hfuel : settled.length ≤ fuel) : Leads forest source (walkBack parent source fuel x) x := by
  induction settled generalizing fuel x with
  | nil => cases hx
  | cons y settled ih =>
    obtain ⟨hreached, hrooted⟩ := h
    rw [length_cons] at hfuel
    rcases mem_cons.mp hx with rfl | hx
    · obtain ⟨fuel, rfl⟩ : ∃ m, fuel = m + 1 := ⟨fuel - 1, by omega⟩
      unfold PathSearch.walkBack
      split
      · next heq => exact heq
      · next hne =>
        obtain ⟨node, idx, hparent, hnode, hedge⟩ := hreached.resolve_left hne
        rw [hparent]
        exact ⟨hedge, ih hrooted hnode (by omega)⟩
    · exact ih hrooted hx (by omega)

end PathSearch

open PathSearch in
theorem findPath_of_connected {forest : ℕ → List MergeEdge} {n source target : ℕ}
    (hsource : source < n) (hconn : Relation.ReflTransGen (Step forest n) source target) :
    ∃ path, findPath forest n source target = some path ∧ Leads forest source path target := by
  unfold findPath
  set fuel := ((List.range n).map fun i => (forest i).length).sum + 2 with hfuel
  have hpotential : potential forest n (start source) < fuel := by
    have hsum : ∑ x ∈ Finset.range n, (forest x).length = ((List.range n).map fun i => (forest i).length).sum := rfl
    simp only [potential, start, toFinset_nil, Finset.sdiff_empty, hsum, length_singleton]
    omega
  have hexplored : Explored forest n (start source) := fun x hx => by simp [start] at hx
  have htarget : target ∉ (start source).settled := by simp [start]
  obtain ⟨hinv, hdist, hresult⟩ := (inv_start forest hsource).run hexplored htarget hpotential
  dsimp only
  split at hresult
  · next hfound => exact ⟨_, if_pos hfound, hinv.rooted.walkBack hresult hinv.length_settled⟩
  · obtain ⟨htarget, hheap, hexplored⟩ := hresult
    refine absurd (hinv.settled_of_connected hexplored hheap ?_ hconn) htarget
    exact hdist source (by simp [start])

end Nixie.Euf
