import Nixie.Kitten.Backtrack

/-!
The decision queue.
-/

namespace Nixie.Kitten

open List Function

variable {k k' k'' : Kitten} {n i idx : ℕ}

def Relinked (k k' : Kitten) : Prop := k' = { k with queue := k'.queue, links := k'.links }

theorem Relinked.trans (h : Relinked k k') (h' : Relinked k' k'') : Relinked k k'' := by
  unfold Relinked at h h' ⊢
  rw [h', h]

theorem Queued.setLink (h : Queued k.queue k.links n) {f : Kink → Kink}
    (hf : i < n → (f (k.links i)).prev < n ∨ (f (k.links i)).prev = INVALID) :
    Queued (k.setLink i f).queue (k.setLink i f).links n := by
  refine ⟨fun j hj => ?_, h.last, h.search⟩
  by_cases hji : j = i
  · subst hji
    simpa [Kitten.setLink] using hf hj
  · simpa [Kitten.setLink, hji] using h.prev j hj

theorem Queued.setLink_next (h : Queued k.queue k.links n) (i next : ℕ) :
    Queued (k.setLink i fun s => { s with next := next }).queue
      (k.setLink i fun s => { s with next := next }).links n :=
  h.setLink fun hi => h.prev i hi

theorem enqueue_relinked (k : Kitten) (idx : ℕ) : Relinked k (k.enqueue idx) := by
  unfold enqueue
  cases k.queue.last <;> rfl

theorem Queued.enqueue (h : Queued k.queue k.links n) {n' : ℕ} (hidx : idx < n') (hn : n ≤ n')
    (hnew : ∀ j < n', j < n ∨ j = idx) : Queued (k.enqueue idx).queue (k.enqueue idx).links n' := by
  have hprev : ∀ j < n', ((k.enqueue idx).links j).prev < n' ∨
      ((k.enqueue idx).links j).prev = INVALID := by
    intro j hj
    by_cases hji : j = idx
    · subst hji
      unfold Kitten.enqueue
      cases hl : k.queue.last with
      | none => simp [Kitten.setLink]
      | some l =>
        have hlt := lt_of_lt_of_le (h.last l hl) hn
        simp [Kitten.setLink, hlt]
    · have hjn := (hnew j hj).resolve_right hji
      have hold : ((k.enqueue idx).links j).prev = (k.links j).prev := by
        unfold Kitten.enqueue
        cases k.queue.last with
        | none => simp [Kitten.setLink, hji]
        | some l =>
          by_cases hjl : j = l
          · subst hjl
            simp [Kitten.setLink, hji]
          · simp [Kitten.setLink, hji, hjl]
      rw [hold]
      rcases h.prev j hjn with hlt | heq
      · exact .inl (by omega)
      · exact .inr heq
  refine ⟨hprev, fun j hj => ?_, fun j hj => ?_⟩
  · have : idx = j := by
      unfold Kitten.enqueue at hj
      cases hl : k.queue.last <;> simpa [hl] using hj
    omega
  · have : k.queue.search = some j := by
      unfold Kitten.enqueue at hj
      cases hl : k.queue.last <;> simpa [hl, Kitten.setLink] using hj
    exact lt_of_lt_of_le (h.search j this) hn

theorem dequeue_relinked (k : Kitten) (idx : ℕ) : Relinked k (k.dequeue idx) := by
  unfold dequeue
  dsimp only
  split <;> split <;> rfl

theorem Queued.dequeue (h : Queued k.queue k.links n) (hidx : idx < n) :
    Queued (k.dequeue idx).queue (k.dequeue idx).links n := by
  have hprev := h.prev idx hidx
  -- the first half only touches `next` fields and the front of the queue
  have hfirst : ∀ kk : Kitten, kk = (if (k.links idx).prev = INVALID
      then { k with queue.first := if (k.links idx).next = INVALID then none else some (k.links idx).next }
      else k.setLink (k.links idx).prev fun s => { s with next := (k.links idx).next }) →
      Queued kk.queue kk.links n := by
    rintro kk rfl
    split
    · exact ⟨h.prev, h.last, h.search⟩
    · exact h.setLink_next _ _
  unfold Kitten.dequeue
  dsimp only
  generalize hkk : (if (k.links idx).prev = INVALID then _ else _ : Kitten) = kk
  have hq := hfirst kk hkk.symm
  split
  · refine ⟨hq.prev, fun i hi => ?_, hq.search⟩
    dsimp only at hi
    split at hi
    · simp at hi
    · next hne =>
      obtain rfl : (k.links idx).prev = i := by simpa using hi
      exact hprev.resolve_right hne
  · exact hq.setLink fun _ => hprev

theorem moveToFront_relinked (k : Kitten) (idx : ℕ) : Relinked k (k.moveToFront idx) := by
  unfold moveToFront
  split
  · rfl
  · exact (dequeue_relinked k idx).trans (enqueue_relinked _ idx)

theorem Queued.moveToFront (h : Queued k.queue k.links n) (hidx : idx < n) :
    Queued (k.moveToFront idx).queue (k.moveToFront idx).links n := by
  unfold Kitten.moveToFront
  split
  · exact h
  · exact (h.dequeue hidx).enqueue hidx (le_refl n) fun j hj => .inl hj

def Bumped (k k' : Kitten) : Prop :=
  k' = { k with queue := k'.queue, links := k'.links, marks := k'.marks, analyzed := k'.analyzed }

theorem bumpAll_spec (xs : List ℕ) (h : Queued k.queue k.links n) (hxs : ∀ i ∈ xs, i < n) :
    let k' := xs.foldl
      (fun k idx => moveToFront { k with marks := update k.marks idx false } idx) k
    Bumped k k' ∧ Queued k'.queue k'.links n ∧ k'.analyzed = k.analyzed ∧
      ∀ i, k'.marks i = if i ∈ xs then false else k.marks i := by
  induction xs generalizing k with
  | nil => exact ⟨rfl, h, rfl, by simp⟩
  | cons x xs ih =>
    have hq : Queued (moveToFront { k with marks := update k.marks x false } x).queue
        (moveToFront { k with marks := update k.marks x false } x).links n :=
      Queued.moveToFront (k := { k with marks := update k.marks x false }) h (hxs x (by simp))
    have hrel := moveToFront_relinked { k with marks := update k.marks x false } x
    obtain ⟨hb, hq', ha, hm⟩ := ih hq fun i hi => hxs i (mem_cons_of_mem _ hi)
    rw [foldl_cons]
    refine ⟨?_, hq', ?_, fun i => ?_⟩
    · unfold Bumped at hb ⊢
      rw [hb, hrel]
    · rw [ha, hrel]
    · rw [hm, hrel]
      by_cases hi : i ∈ xs
      · simp [hi]
      · by_cases hix : i = x <;> simp [hi, hix]

theorem bump_spec (h : Queued k.queue k.links n) (hlt : ∀ i ∈ k.analyzed, i < n)
    (hmarks : ∀ i, k.marks i = true → i ∈ k.analyzed) : Bumped k k.bump ∧ Queued k.bump.queue k.bump.links n ∧
    k.bump.analyzed = [] ∧ ∀ i, k.bump.marks i = false := by
  obtain ⟨hb, hq, _, hm⟩ := bumpAll_spec k.analyzed h hlt
  refine ⟨?_, hq, rfl, fun i => ?_⟩
  · unfold Bumped at hb ⊢
    exact congrArg (fun k : Kitten => { k with analyzed := [] }) hb
  · refine (hm i).trans ?_
    split
    · rfl
    · next hi =>
      cases hmi : k.marks i with
      | false => rfl
      | true => exact absurd (hmarks i hmi) hi

open Nixie.Propositional Nixie.Literal

variable {k k' : Kitten} {db : ℕ → Option Klause} {F : Set (Set ℕ)} {m q r : ℕ} {s s' : Analysis}

section

def openCount (marks : ℕ → Bool) (vars : ℕ → Kar) (counts : ℕ → Bool) (seg : List ℕ) : ℕ :=
  seg.countP fun l => marks (l / 2) && counts (lev vars l)

variable {marks : ℕ → Bool} {vars : ℕ → Kar} {counts : ℕ → Bool} {l : ℕ} {seg : List ℕ}

theorem openCount_append (seg seg' : List ℕ) : openCount marks vars counts (seg ++ seg') =
    openCount marks vars counts seg + openCount marks vars counts seg' :=
  countP_append

theorem openCount_pos (h : 0 < openCount marks vars counts seg) :
    ∃ l ∈ seg, marks (l / 2) = true ∧ counts (lev vars l) = true := by
  obtain ⟨l, hl, hp⟩ := countP_pos_iff.mp h
  exact ⟨l, hl, by simpa using hp⟩

theorem openCount_mark_other {i : ℕ} (h : ∀ l ∈ seg, l / 2 = i → counts (lev vars l) = false) :
    openCount (update marks i true) vars counts seg = openCount marks vars counts seg := by
  refine countP_congr fun l hl => ?_
  by_cases hi : l / 2 = i
  · simp [h l hl hi]
  · simp [hi]

theorem openCount_mark (hl : l ∈ seg) (hnd : (seg.map (· / 2)).Nodup) (hm : marks (l / 2) = false)
    (hlev : counts (lev vars l) = true) : openCount (update marks (l / 2) true) vars counts seg =
    openCount marks vars counts seg + 1 := by
  obtain ⟨pre, post, rfl⟩ := append_of_mem hl
  rw [map_append, map_cons, nodup_middle, nodup_cons, mem_append, not_or] at hnd
  have hother : ∀ t : List ℕ, l / 2 ∉ t.map (· / 2) →
      openCount (update marks (l / 2) true) vars counts t = openCount marks vars counts t :=
    fun t ht => openCount_mark_other fun a ha heq => absurd (heq ▸ mem_map_of_mem ha) ht
  have hself : ∀ b, openCount (update marks (l / 2) b) vars counts [l] = if b then 1 else 0 := by
    intro b
    cases b <;> simp [openCount, hlev]
  have hself' : openCount marks vars counts [l] = 0 := by simp [openCount, hm]
  have hcons : ∀ (ms : ℕ → Bool) (t : List ℕ), openCount ms vars counts (l :: t) =
      openCount ms vars counts [l] + openCount ms vars counts t :=
    fun ms t => openCount_append [l] t
  rw [openCount_append, openCount_append, hcons, hcons marks, hother pre hnd.1.1, hother post hnd.1.2, hself, hself']
  simp
  omega

end

def restWith (rest : List ℕ) (lit : ℕ) (newJump : Bool) : List ℕ :=
  match rest with
  | [] => [lit]
  | x :: t => if newJump then lit :: t ++ [x] else x :: t ++ [lit]

theorem addLearned_cons (rest : List ℕ) (lit : ℕ) (newJump : Bool) :
    addLearned (INVALID :: rest) lit newJump = INVALID :: restWith rest lit newJump := by
  cases rest <;> cases newJump <;> simp [addLearned, restWith]

theorem restWith_perm (rest : List ℕ) (lit : ℕ) (newJump : Bool) : (restWith rest lit newJump).Perm (lit :: rest) := by
  cases rest with
  | nil => exact .refl _
  | cons x t =>
    cases newJump with
    | true => exact (perm_append_singleton x t).cons lit
    | false => exact perm_append_singleton lit (x :: t)

structure Lower (k : Kitten) (marks : ℕ → Bool) (jump : ℕ) (rest : List ℕ) : Prop where
  nodup : rest.Nodup
  mem : ∀ m, m ∈ rest ↔ k.values m = -1 ∧ marks (m / 2) = true ∧ lev k.vars m < k.level
  le : ∀ m ∈ rest, lev k.vars m ≤ jump
  head : (rest = [] ∧ jump = 0) ∨ ∃ m t, rest = m :: t ∧ lev k.vars m = jump

structure Analyzing (k : Kitten) (q : ℕ) (s : Analysis) : Prop where
  same : s.kitten = { k with
    marks := s.kitten.marks
    analyzed := s.kitten.analyzed
    klause := s.kitten.klause
    resolved := s.kitten.resolved }
  marks : ∀ i, s.kitten.marks i = true ↔ i ∈ s.kitten.analyzed
  assigned : ∀ i ∈ s.kitten.analyzed, k.values (2 * i) ≠ 0
  jump_lt : s.jump < k.level
  open_eq : s.open = openCount s.kitten.marks k.vars (· == k.level) (k.trail.take q)
  lower : ∃ rest, s.kitten.klause = INVALID :: rest ∧ Lower k s.kitten.marks s.jump rest

theorem Trailed.nodup_div {values : ℕ → ℤ} {vars : ℕ → Kar} {trail : List ℕ} {level n : ℕ}
    (h : Trailed values vars trail level db F) (hv : Valued values n) : (trail.map (· / 2)).Nodup := by
  refine List.Nodup.map_on (fun a ha b hb heq => ?_) h.nodup
  rcases eq_or_eq_neg heq with rfl | rfl
  · rfl
  · have h1 := h.true_of_mem _ ha
    have h2 := h.true_of_mem _ hb
    rw [hv.neg, h2] at h1
    omega

theorem update_true_iff {marks : ℕ → Bool} {v : ℕ} : update marks v true i = true ↔ marks i = true ∨ i = v := by
  by_cases hi : i = v <;> simp [hi]

theorem update_true_iff_mem {marks : ℕ → Bool} {v : ℕ} {vs : List ℕ} (h : ∀ i, marks i = true ↔ i ∈ vs) :
    update marks v true i = true ↔ i ∈ vs ++ [v] := by
  rw [update_true_iff, h, mem_append, mem_singleton]

theorem Running.eq_neg (hrun : Running k db F) (hm : k.values m = -1) {l : ℕ} (hl : l ∈ k.trail)
    (hdiv : l / 2 = m / 2) : l = neg m := by
  rcases eq_or_eq_neg hdiv with rfl | rfl
  · have := hrun.trailed.true_of_mem _ hl
    omega
  · rfl

theorem Running.values_ne_zero (hrun : Running k db F) (hm : k.values m = -1) : k.values (2 * (m / 2)) ≠ 0 := by
  rw [ne_eq, hrun.stable.valued.eq_of_div (l := 2 * (m / 2)) (m := m) (by omega)]
  omega

theorem analyzeLit_spec (hrun : Running k db F) (h : Analyzing k q s)
    (hm : s.kitten.marks (m / 2) = true ∨ k.values m = -1 ∧ (lev k.vars m < k.level ∨ neg m ∈ k.trail.take q)) :
    Analyzing k q (analyzeLit s m) ∧ (∀ i, (analyzeLit s m).kitten.marks i = true ↔ s.kitten.marks i = true ∨
    i = m / 2) ∧ (analyzeLit s m).kitten.resolved = s.kitten.resolved := by
  have hvars : s.kitten.vars = k.vars := by rw [h.same]
  have hlevel : s.kitten.level = k.level := by rw [h.same]
  have hval := hrun.stable.valued
  unfold analyzeLit
  dsimp only
  split
  · next hmark =>
    refine ⟨h, fun i => ⟨.inl, ?_⟩, rfl⟩
    rintro (hi | rfl)
    · exact hi
    · exact hmark
  · next hmark =>
    obtain ⟨hvm, hloc⟩ := hm.resolve_left hmark
    have hmark' : s.kitten.marks (m / 2) = false := by simpa using hmark
    have hmarks : ∀ i, update s.kitten.marks (m / 2) true i = true ↔ s.kitten.marks i = true ∨ i = m / 2 := fun _ =>
      update_true_iff
    have hmem : ∀ i, update s.kitten.marks (m / 2) true i = true ↔ i ∈ s.kitten.analyzed ++ [m / 2] := fun _ =>
      update_true_iff_mem h.marks
    have hassigned : ∀ i ∈ s.kitten.analyzed ++ [m / 2], k.values (2 * i) ≠ 0 := by
      intro i hi
      rcases mem_append.mp hi with hi | hi
      · exact h.assigned i hi
      · obtain rfl : i = m / 2 := by simpa using hi
        exact hrun.values_ne_zero hvm
    obtain ⟨rest, hklause, hlow⟩ := h.lower
    have hnotmem : m ∉ rest := fun hmr => hmark ((hlow.mem m).mp hmr).2.1
    have hlev : (s.kitten.vars (m / 2)).level = lev k.vars m := by rw [hvars]; rfl
    rw [hlev, hlevel]
    split
    · -- below the current level: the literal joins the learned klause
      next hlt =>
      refine ⟨⟨?_, hmem, hassigned, ?_, ?_, restWith rest m (s.jump < lev k.vars m), ?_, ?_⟩, hmarks, rfl⟩
      · conv_lhs => rw [h.same]
      · have := h.jump_lt
        show max s.jump (lev k.vars m) < k.level
        omega
      · show s.open = _
        rw [h.open_eq, openCount_mark_other fun l hl hdiv => ?_]
        rw [hrun.eq_neg hvm (mem_of_mem_take hl) hdiv, lev_neg, beq_eq_false_iff_ne]
        omega
      · show addLearned s.kitten.klause m _ = _
        rw [hklause, addLearned_cons]
      · have hperm := restWith_perm rest m (s.jump < lev k.vars m)
        refine ⟨hperm.nodup_iff.mpr (nodup_cons.mpr ⟨hnotmem, hlow.nodup⟩), fun l => ?_, fun l hl => ?_, .inr ?_⟩
        · rw [hperm.mem_iff, mem_cons, hlow.mem]
          constructor
          · rintro (rfl | ⟨h1, h2, h3⟩)
            · exact ⟨hvm, by simp, hlt⟩
            · exact ⟨h1, (hmarks _).mpr (.inl h2), h3⟩
          · rintro ⟨h1, h2, h3⟩
            rcases (hmarks _).mp h2 with h2 | h2
            · exact .inr ⟨h1, h2, h3⟩
            · rcases eq_or_eq_neg h2 with rfl | rfl
              · exact .inl rfl
              · rw [hval.neg] at h1
                omega
        · show _ ≤ max s.jump (lev k.vars m)
          rcases mem_cons.mp (hperm.mem_iff.mp hl) with rfl | hl
          · exact le_max_right _ _
          · exact le_max_of_le_left (hlow.le l hl)
        · show ∃ l t, _ ∧ _ = max s.jump (lev k.vars m)
          rcases hlow.head with ⟨rfl, h0⟩ | ⟨x, t, rfl, hx⟩
          · exact ⟨m, [], rfl, by omega⟩
          · by_cases hnew : s.jump < lev k.vars m
            · exact ⟨m, t ++ [x], by simp [restWith, hnew], by omega⟩
            · exact ⟨x, t ++ [m], by simp [restWith, hnew], by omega⟩
    · -- on the current level: one more literal is open
      next hlt =>
      have hle := hrun.trailed.le_level (neg m) (hval.neg_true.mpr hvm)
      rw [lev_neg] at hle
      have hin := hloc.resolve_left hlt
      refine ⟨⟨?_, hmem, hassigned, h.jump_lt, ?_, rest, hklause, ?_⟩, hmarks, rfl⟩
      · conv_lhs => rw [h.same]
      · show s.open + 1 = _
        have hnd := (hrun.trailed.nodup_div hval).sublist ((take_sublist q _).map (· / 2))
        have hmark'' : s.kitten.marks (neg m / 2) = false := by simpa using hmark'
        have hcount : openCount (update s.kitten.marks (neg m / 2) true) k.vars
            (· == k.level) (k.trail.take q) = _ :=
          openCount_mark hin hnd hmark'' (by rw [lev_neg, beq_iff_eq]; omega)
        rw [neg_div_two] at hcount
        rw [hcount, h.open_eq]
      · refine { hlow with mem := fun l => ?_ }
        rw [hlow.mem, hmarks]
        constructor
        · rintro ⟨h1, h2, h3⟩
          exact ⟨h1, .inl h2, h3⟩
        · rintro ⟨h1, h2 | h2, h3⟩
          · exact ⟨h1, h2, h3⟩
          · rcases eq_or_eq_neg h2 with rfl | rfl
            · omega
            · rw [lev_neg] at h3
              omega

theorem analyzeLits_spec (hrun : Running k db F) {lits : List ℕ} (h : Analyzing k q s)
    (hm : ∀ m ∈ lits, s.kitten.marks (m / 2) = true ∨ k.values m = -1 ∧
    (lev k.vars m < k.level ∨ neg m ∈ k.trail.take q)) : Analyzing k q (lits.foldl analyzeLit s) ∧
    (∀ i, (lits.foldl analyzeLit s).kitten.marks i = true ↔ s.kitten.marks i = true ∨ ∃ m ∈ lits, i = m / 2) ∧
    (lits.foldl analyzeLit s).kitten.resolved = s.kitten.resolved := by
  induction lits generalizing s with
  | nil => exact ⟨h, by simp, rfl⟩
  | cons m lits ih =>
    obtain ⟨h1, hmarks1, hres1⟩ := analyzeLit_spec hrun h (hm m (by simp))
    obtain ⟨h2, hmarks2, hres2⟩ := ih h1 fun l hl => by
      rcases hm l (mem_cons_of_mem _ hl) with hl | hl
      · exact .inl ((hmarks1 _).mpr (.inl hl))
      · exact .inr hl
    refine ⟨h2, fun i => ?_, hres2.trans hres1⟩
    rw [foldl_cons, hmarks2, hmarks1]
    simp only [mem_cons]
    grind

/-- What has been resolved so far: each marked literal of the current level from position `q` on
has its reason among the resolved klauses, and all literals of these are marked. -/
structure Resolved (k : Kitten) (db : ℕ → Option Klause) (q : ℕ) (s : Analysis) : Prop where
  marked : ∀ r ∈ s.kitten.resolved, ∃ c, db r = some c ∧ ∀ m ∈ c.lits, s.kitten.marks (m / 2) = true
  reasons : ∀ l ∈ k.trail.drop q, s.kitten.marks (l / 2) = true → lev k.vars l = k.level →
    why k.vars l ∈ s.kitten.resolved

theorem analyzeReason_spec (hrun : Running k db F) {c : Klause} (h : Analyzing k q s) (hc : db r = some c)
    (hm : ∀ m ∈ c.lits, s.kitten.marks (m / 2) = true ∨ k.values m = -1 ∧
    (lev k.vars m < k.level ∨ neg m ∈ k.trail.take q)) : Analyzing k q (analyzeReason s r) ∧
    (∀ i, (analyzeReason s r).kitten.marks i = true ↔ s.kitten.marks i = true ∨ ∃ m ∈ c.lits, i = m / 2) ∧
    (analyzeReason s r).kitten.resolved = s.kitten.resolved ++ [r] := by
  have hlits : ({ s.kitten with resolved := s.kitten.resolved ++ [r] } : Kitten).klauseLits r =
      c.lits := by
    have hklauses : s.kitten.klauses = k.klauses := by rw [h.same]
    have hrep : Represents s.kitten.klauses db := hklauses ▸ hrun.stable.rep
    exact hrep.lits_eq (k := { s.kitten with resolved := s.kitten.resolved ++ [r] }) hc
  unfold analyzeReason
  dsimp only
  rw [hlits]
  refine analyzeLits_spec hrun ⟨?_, h.marks, h.assigned, h.jump_lt, h.open_eq, h.lower⟩ hm
  conv_lhs => rw [h.same]

theorem Resolved.reason (hrun : Running k db F) {c : Klause} {p : ℕ} (h : Resolved k db p s) (hA : Analyzing k q s)
    (hqp : q ≤ p) (hc : db r = some c) (hm : ∀ m ∈ c.lits, s.kitten.marks (m / 2) = true ∨ k.values m = -1 ∧
    (lev k.vars m < k.level ∨ neg m ∈ k.trail.take q)) : Resolved k db p (analyzeReason s r) := by
  obtain ⟨_, hmarks, hres⟩ := analyzeReason_spec hrun hA hc hm
  refine ⟨fun r' hr' => ?_, fun l hl hml hlev => ?_⟩
  · rw [hres, mem_append, mem_singleton] at hr'
    rcases hr' with hr' | rfl
    · obtain ⟨d, hd, hdm⟩ := h.marked r' hr'
      exact ⟨d, hd, fun m hmd => (hmarks _).mpr (.inl (hdm m hmd))⟩
    · exact ⟨c, hc, fun m hmc => (hmarks _).mpr (.inr ⟨m, hmc, rfl⟩)⟩
  · rw [hres, mem_append]
    left
    rcases (hmarks _).mp hml with hml | ⟨m, hmc, hdiv⟩
    · exact h.reasons l hl hml hlev
    · rcases hm m hmc with hmm | ⟨hvm, hloc⟩
      · exact h.reasons l hl (hdiv ▸ hmm) hlev
      · exfalso
        have hvl := hrun.trailed.true_of_mem l (mem_of_mem_drop hl)
        rcases eq_or_eq_neg hdiv with rfl | rfl
        · omega
        · rw [lev_neg] at hlev
          rcases hloc with hlt | hmem
          · omega
          · have hnd := hrun.trailed.nodup
            rw [← take_append_drop q k.trail] at hnd
            obtain ⟨d, rfl⟩ := Nat.exists_eq_add_of_le hqp
            rw [← drop_drop] at hl
            exact disjoint_of_nodup_append hnd hmem (mem_of_mem_drop hl)

theorem take_succ_of_get {l : List ℕ} {a : ℕ} (h : l[q]? = some a) : l.take (q + 1) = l.take q ++ [a] := by
  rw [take_add_one, h]
  rfl

theorem drop_of_get {l : List ℕ} {a : ℕ} (h : l[q]? = some a) : l.drop q = a :: l.drop (q + 1) := by
  obtain ⟨hlt, rfl⟩ := List.getElem?_eq_some_iff.mp h
  exact drop_eq_getElem_cons hlt

theorem split_of_get {l : List ℕ} {a : ℕ} (h : l[q]? = some a) : l = l.take q ++ a :: l.drop (q + 1) := by
  rw [← drop_of_get h, take_append_drop]

/-- As long as literals of the current level are open, the walk has not come below it. -/
theorem Analyzing.level_eq (h : Analyzing k (q + 1) s) (hrun : Running k db F) (hopen : 0 < s.open) {l : ℕ}
    (hl : k.trail[q]? = some l) : lev k.vars l = k.level := by
  rw [h.open_eq] at hopen
  obtain ⟨m, hm, _, hlev⟩ := openCount_pos hopen
  rw [beq_iff_eq] at hlev
  have hle := hrun.trailed.le_level l (hrun.trailed.true_of_mem l (mem_of_getElem? hl))
  rw [take_succ_of_get hl, mem_append, mem_singleton] at hm
  rcases hm with hm | rfl
  · have hsorted := hrun.trailed.sorted
    rw [split_of_get hl, pairwise_append] at hsorted
    have := hsorted.2.2 m hm l (by simp)
    omega
  · exact hlev

theorem analyzeWalk_spec (hrun : Running k db F) {uip : ℕ} (hA : Analyzing k q s) (hR : Resolved k db q s)
    (hopen : 0 < s.open) (hw : analyzeWalk q s = some (s', uip)) :
    ∃ q', k.trail[q']? = some uip ∧ lev k.vars uip = k.level ∧ s'.kitten.marks (uip / 2) = true ∧ Analyzing k q' s' ∧
    Resolved k db (q' + 1) s' ∧ s'.open = 0 ∧ s.kitten.resolved ⊆ s'.kitten.resolved := by
  induction q generalizing s with
  | zero =>
    rw [hA.open_eq] at hopen
    simp [openCount] at hopen
  | succ q ih =>
    simp only [analyzeWalk] at hw
    have htrail : s.kitten.trail = k.trail := by rw [hA.same]
    have hvars : s.kitten.vars = k.vars := by rw [hA.same]
    rw [htrail] at hw
    split at hw
    · simp at hw
    · next candidate hcand =>
      have hdrop := drop_of_get hcand
      have hcount : s.open = openCount s.kitten.marks k.vars (· == k.level) (k.trail.take q) +
          openCount s.kitten.marks k.vars (· == k.level) [candidate] := by
        rw [hA.open_eq, take_succ_of_get hcand, openCount_append]
      split at hw
      · next hmark =>
        have hlev := hA.level_eq hrun hopen hcand
        have hself : openCount s.kitten.marks k.vars (· == k.level) [candidate] = 1 := by
          simp [openCount, hmark, hlev]
        have hopen' : s.open - 1 = openCount s.kitten.marks k.vars (· == k.level) (k.trail.take q) := by
          omega
        have hA' : Analyzing k q { s with «open» := s.open - 1 } :=
          ⟨hA.same, hA.marks, hA.assigned, hA.jump_lt, hopen', hA.lower⟩
        split at hw
        · next h0 =>
          obtain ⟨rfl, rfl⟩ : _ = s' ∧ candidate = uip := by simpa using hw
          exact ⟨q, hcand, hlev, hmark, hA', ⟨hR.marked, hR.reasons⟩, h0, fun _ => id⟩
        · next h0 =>
          have hpos : 0 < openCount s.kitten.marks k.vars (· == k.level) (k.trail.take q) := by
            rw [← hopen']
            exact Nat.pos_of_ne_zero h0
          obtain ⟨l0, hl0, hmark0, hlev0⟩ := openCount_pos hpos
          rw [beq_iff_eq] at hlev0
          obtain ⟨c, hc, hf⟩ : ∃ c, db (why k.vars candidate) = some c ∧
              Forces k.values k.vars (k.trail.take q) candidate c := by
            rcases hrun.trailed.justified _ _ _ (split_of_get hcand) with ⟨_, _, hfirst⟩ | hc
            · exact absurd (hlev0.trans hlev.symm) (hfirst l0 hl0)
            · exact hc
          have hm : ∀ m ∈ c.lits, s.kitten.marks (m / 2) = true ∨
              k.values m = -1 ∧ (lev k.vars m < k.level ∨ neg m ∈ k.trail.take q) := by
            intro m hmc
            by_cases hmcand : m = candidate
            · exact .inl (hmcand ▸ hmark)
            · obtain ⟨hvm, hloc⟩ := hf.2 m hmc hmcand
              have hlpos : 0 < k.level := by have := hA.jump_lt; omega
              refine .inr ⟨hvm, ?_⟩
              rcases hloc with h0' | hin
              · exact .inl (by omega)
              · exact .inr hin
          have hwhy : (s.kitten.vars (candidate / 2)).reason = why k.vars candidate := by
            rw [hvars]
            rfl
          rw [hwhy] at hw
          obtain ⟨hA2, hmarks2, hres2⟩ := analyzeReason_spec hrun hA' hc hm
          -- the klause of the candidate is resolved now
          have hR2 : Resolved k db q (analyzeReason { s with «open» := s.open - 1 }
              (why k.vars candidate)) := by
            have hR' : Resolved k db (q + 1) { s with «open» := s.open - 1 } := ⟨hR.marked, hR.reasons⟩
            have hnext := hR'.reason hrun hA' (Nat.le_succ q) hc hm
            refine ⟨hnext.marked, fun l hl hml hlevl => ?_⟩
            rw [hdrop, mem_cons] at hl
            rcases hl with rfl | hl
            · rw [hres2]
              simp
            · exact hnext.reasons l hl hml hlevl
          have hopen2 : 0 < (analyzeReason { s with «open» := s.open - 1 }
              (why k.vars candidate)).open := by
            rw [hA2.open_eq]
            refine List.countP_pos_iff.mpr ⟨l0, hl0, ?_⟩
            simp [(hmarks2 _).mpr (.inl hmark0), hlev0]
          obtain ⟨q', h1, h2, h3, h4, h5, h6, h7⟩ := ih hA2 hR2 hopen2 hw
          refine ⟨q', h1, h2, h3, h4, h5, h6, fun r hr => h7 ?_⟩
          rw [hres2]
          exact mem_append_left _ hr
      · next hmark =>
        have hself : openCount s.kitten.marks k.vars (· == k.level) [candidate] = 0 := by
          simp [openCount, hmark]
        refine ih ⟨hA.same, hA.marks, hA.assigned, hA.jump_lt, by omega, hA.lower⟩
          ⟨hR.marked, fun l hl hml hlev => ?_⟩ hopen hw
        rw [hdrop, mem_cons] at hl
        rcases hl with rfl | hl
        · exact absurd hml hmark
        · exact hR.reasons l hl hml hlev

end Nixie.Kitten
