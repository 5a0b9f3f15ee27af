import Mathlib.Data.Set.Finite.List
import Mathlib.Algebra.GroupWithZero.Nat

/-!
Reachability in a finite directed graph that is given by its arcs: breadth-first closure, removal of
vertices without predecessors, and depth-first search with three colours.
-/

namespace Nixie.Digraph

open Relation List Function

variable {V : Type*} {es : List (V × V)} {a b v w : V}

def Step (es : List (V × V)) (a b : V) : Prop := (a, b) ∈ es

def Reaches (es : List (V × V)) : V → V → Prop := TransGen (Step es)

def Cyclic (es : List (V × V)) : Prop := ∃ v, Reaches es v v

theorem Reaches.mono {es' : List (V × V)} (hsub : ∀ e ∈ es, e ∈ es') (h : Reaches es a b) : Reaches es' a b :=
  TransGen.mono (fun _ _ he => hsub _ he) _ _ h

theorem Cyclic.mono {es' : List (V × V)} (hsub : ∀ e ∈ es, e ∈ es') (h : Cyclic es) : Cyclic es' :=
  h.imp fun _ hv => hv.mono hsub

variable {S : Set V}

theorem Reaches.mem_of_closed (h : Reaches es a b) (ha : ∀ w, Step es a w → w ∈ S)
    (hS : ∀ v ∈ S, ∀ w, Step es v w → w ∈ S) : b ∈ S := by
  induction h with
  | single hab => exact ha _ hab
  | tail _ hbc ih => exact hS _ ih _ hbc

theorem Reaches.mem_of_closed_back (h : Reaches es a b) (hb : ∀ w, Step es w b → w ∈ S)
    (hS : ∀ v ∈ S, ∀ w, Step es w v → w ∈ S) : a ∈ S := by
  induction h using TransGen.head_induction_on with
  | single hab => exact hb _ hab
  | head hab _ ih => exact hS _ ih _ hab

theorem not_cyclic_of_rank (rank : V → ℕ) (h : ∀ a b, Step es a b → rank a < rank b) : ¬ Cyclic es := by
  rintro ⟨v, hv⟩
  have hlt : ∀ {a b}, Reaches es a b → rank a < rank b := by
    intro a b hab
    induction hab with
    | single hab => exact h _ _ hab
    | tail _ hbc ih => exact ih.trans (h _ _ hbc)
  exact lt_irrefl _ (hlt hv)

theorem Reaches.ends (h : Reaches es a b) : (∃ w, Step es a w) ∧ ∃ v, Step es v b := by
  constructor
  · induction h using TransGen.head_induction_on with
    | single hab => exact ⟨_, hab⟩
    | head hab _ _ => exact ⟨_, hab⟩
  · cases h with
    | single hab => exact ⟨_, hab⟩
    | tail _ hbc => exact ⟨_, hbc⟩

variable {vs : List V}

theorem cyclic_of_predecessors (hvs : ∀ v ∈ S, v ∈ vs) (hv : v ∈ S) (hS : ∀ w ∈ S, ∃ u ∈ S, Step es u w) :
    Cyclic es := by
  by_contra hacyclic
  have hfin : Finite S := (vs.finite_toSet.subset hvs).to_subtype
  let r : S → S → Prop := fun a b => Reaches es a b
  have : IsTrans S r := ⟨fun _ _ _ => TransGen.trans⟩
  have : Std.Irrefl r := ⟨fun a ha => hacyclic ⟨a, ha⟩⟩
  -- a finite set without cycles has a vertex that no other one reaches
  obtain ⟨m, -, hmin⟩ := (Finite.wellFounded_of_trans_of_irrefl r).has_min Set.univ ⟨⟨v, hv⟩, trivial⟩
  obtain ⟨u, hu, hstep⟩ := hS m m.2
  exact hmin ⟨u, hu⟩ trivial (.single hstep)

variable [DecidableEq V]

def successors (es : List (V × V)) (v : V) : List V := (es.filter fun e => e.1 = v).map Prod.snd

theorem mem_successors : w ∈ successors es v ↔ Step es v w := by
  simp [successors, Step]

def absorb (acc : (V → Bool) × List V) (w : V) : (V → Bool) × List V :=
  if acc.1 w then acc else (update acc.1 w true, acc.2 ++ [w])

def breadth (succ : V → List V) : ℕ → List V → (V → Bool) → V → Bool
  | 0, _, seen => seen
  | _ + 1, [], seen => seen
  | fuel + 1, v :: queue, seen =>
    let (seen, queue) := (succ v).foldl absorb (seen, queue)
    breadth succ fuel queue seen

def unseen (vs : List V) (seen : V → Bool) : ℕ := vs.countP fun v => !seen v

theorem unseen_update {seen : V → Bool} (hw : w ∈ vs) (hs : seen w = false) :
    unseen vs (update seen w true) + 1 ≤ unseen vs seen := by
  induction vs with
  | nil => cases hw
  | cons v vs ih =>
    have hmono : unseen vs (update seen w true) ≤ unseen vs seen := by
      refine countP_mono_left fun u _ hu => ?_
      by_cases h : u = w
      · simp [h, hs]
      · simpa [update_of_ne h] using hu
    unfold unseen at *
    rw [countP_cons, countP_cons]
    by_cases h : v = w
    · subst h
      simp only [update_self, Bool.not_true, Bool.false_eq_true, if_false, hs, Bool.not_false,
        if_true]
      omega
    · have hmem : w ∈ vs := (mem_cons.mp hw).resolve_left fun h' => h h'.symm
      have := ih hmem
      simp only [update_of_ne h]
      omega

theorem foldl_absorb {ws : List V} (hws : ∀ w ∈ ws, w ∈ vs) (seen : V → Bool) (queue : List V) :
    ∃ new, (ws.foldl absorb (seen, queue)).2 = queue ++ new ∧
    (∀ v, (ws.foldl absorb (seen, queue)).1 v = true ↔ seen v = true ∨ v ∈ ws) ∧ (∀ v ∈ new, v ∈ ws) ∧
    (∀ v ∈ ws, seen v = true ∨ v ∈ new) ∧
    unseen vs (ws.foldl absorb (seen, queue)).1 + new.length ≤ unseen vs seen := by
  induction ws generalizing seen queue with
  | nil => exact ⟨[], by simp⟩
  | cons w ws ih =>
    have hrest : ∀ u ∈ ws, u ∈ vs := fun u hu => hws u (by simp [hu])
    rw [foldl_cons]
    by_cases hw : seen w = true
    · have hstep : absorb (seen, queue) w = (seen, queue) := if_pos hw
      obtain ⟨new, h1, h2, h3, h4, h5⟩ := ih hrest seen queue
      rw [hstep]
      refine ⟨new, h1, fun v => ?_, fun v hv => by simp [h3 v hv], fun v hv => ?_, h5⟩
      · rw [h2, mem_cons]
        constructor
        · tauto
        · rintro (h | rfl | h)
          · exact .inl h
          · exact .inl hw
          · exact .inr h
      · rcases mem_cons.mp hv with rfl | hv
        · exact .inl hw
        · exact h4 v hv
    · have hstep : absorb (seen, queue) w = (update seen w true, queue ++ [w]) := if_neg hw
      obtain ⟨new, h1, h2, h3, h4, h5⟩ := ih hrest (update seen w true) (queue ++ [w])
      have hless := unseen_update (hws w (by simp)) (Bool.eq_false_iff.mpr hw)
      rw [hstep]
      refine ⟨w :: new, by rw [h1]; simp, fun v => ?_, fun v hv => ?_, fun v hv => ?_, ?_⟩
      · rw [h2, mem_cons]
        by_cases hvw : v = w
        · subst hvw
          simp
        · simp [hvw]
      · rcases mem_cons.mp hv with rfl | hv
        · simp
        · simp [h3 v hv]
      · rcases mem_cons.mp hv with rfl | hv
        · exact .inr (by simp)
        · rcases h4 v hv with h | h
          · by_cases hvw : v = w
            · exact .inr (by simp [hvw])
            · exact .inl (by simpa [update_of_ne hvw] using h)
          · exact .inr (by simp [h])
      · rw [length_cons]
        omega

variable {fuel : ℕ} {queue : List V}

theorem breadth_spec (hvs : ∀ e ∈ es, e.2 ∈ vs) {seen : V → Bool} (hreach : ∀ v, seen v = true → Reaches es a v)
    (hqueue : ∀ v ∈ queue, seen v = true)
    (hclosed : ∀ v, seen v = true → v ∈ queue ∨ ∀ w, Step es v w → seen w = true)
    (hfuel : queue.length + unseen vs seen ≤ fuel) :
    (∀ v, breadth (successors es) fuel queue seen v = true → Reaches es a v) ∧
    (∀ v, seen v = true → breadth (successors es) fuel queue seen v = true) ∧
    ∀ v, breadth (successors es) fuel queue seen v = true → ∀ w, Step es v w →
    breadth (successors es) fuel queue seen w = true := by
  induction fuel generalizing queue seen with
  | zero =>
    obtain rfl : queue = [] := eq_nil_of_length_eq_zero (by omega)
    exact ⟨hreach, fun _ h => h, fun v hv => (hclosed v hv).resolve_left (by simp)⟩
  | succ fuel ih =>
    cases queue with
    | nil => exact ⟨hreach, fun _ h => h, fun v hv => (hclosed v hv).resolve_left (by simp)⟩
    | cons v queue =>
      have hws : ∀ w ∈ successors es v, w ∈ vs := fun w hw => hvs _ (mem_successors.mp hw)
      obtain ⟨new, h1, h2, h3, h4, h5⟩ := foldl_absorb hws seen queue
      unfold breadth
      rcases hout : (successors es v).foldl absorb (seen, queue) with ⟨seen', queue'⟩
      rw [hout] at h1 h2 h5
      dsimp only at h1 h2 h5 ⊢
      subst h1
      have hv := hqueue v (by simp)
      have hreach' : ∀ u, seen' u = true → Reaches es a u := by
        intro u hu
        rcases (h2 u).mp hu with hu | hu
        · exact hreach u hu
        · exact (hreach v hv).tail (mem_successors.mp hu)
      have hqueue' : ∀ u ∈ queue ++ new, seen' u = true := by
        intro u hu
        rcases mem_append.mp hu with hu | hu
        · exact (h2 u).mpr (.inl (hqueue u (by simp [hu])))
        · exact (h2 u).mpr (.inr (h3 u hu))
      have hold : ∀ u, seen u = true → u ∈ queue ++ new ∨ ∀ w, Step es u w → seen' w = true := by
        intro u hu
        rcases hclosed u hu with hq | hall
        · rcases mem_cons.mp hq with rfl | hq
          · exact .inr fun w hw => (h2 w).mpr (.inr (mem_successors.mpr hw))
          · exact .inl (by simp [hq])
        · exact .inr fun w hw => (h2 w).mpr (.inl (hall w hw))
      have hclosed' : ∀ u, seen' u = true → u ∈ queue ++ new ∨ ∀ w, Step es u w → seen' w = true := by
        intro u hu
        rcases (h2 u).mp hu with hu | hu
        · exact hold u hu
        · rcases h4 u hu with hs | hn
          · exact hold u hs
          · exact .inl (by simp [hn])
      have hfuel' : (queue ++ new).length + unseen vs seen' ≤ fuel := by
        rw [length_append]
        rw [length_cons] at hfuel
        omega
      obtain ⟨r1, r2, r3⟩ := ih hreach' hqueue' hclosed' hfuel'
      exact ⟨r1, fun u hu => r2 u ((h2 u).mpr (.inl hu)), r3⟩

theorem breadth_iff (hvs : ∀ e ∈ es, e.2 ∈ vs) (hfuel : (successors es a).length + vs.length ≤ fuel) :
    breadth (successors es) fuel (successors es a) (fun v => (successors es a).contains v) b = true ↔
    Reaches es a b := by
  have hseed : ∀ v, (successors es a).contains v = true ↔ Step es a v := fun v => by
    rw [contains_iff_mem, mem_successors]
  have hunseen : unseen vs (fun v => (successors es a).contains v) ≤ vs.length := countP_le_length
  set seen : V → Bool := fun v => (successors es a).contains v with hseen
  have hfuel' : (successors es a).length + unseen vs seen ≤ fuel := by omega
  obtain ⟨h1, h2, h3⟩ := breadth_spec hvs (fun v hv => .single ((hseed v).mp hv))
    (fun v hv => by simpa [hseen] using hv) (fun v hv => .inl (by simpa [hseen] using hv)) hfuel'
  refine ⟨h1 b, fun h => ?_⟩
  exact h.mem_of_closed (S := {v | breadth (successors es) fuel (successors es a) seen v = true})
    (fun w hw => h2 w ((hseed w).mpr hw)) h3

def settle (acc : (V → ℕ) × List V) (w : V) : (V → ℕ) × List V :=
  (update acc.1 w (acc.1 w - 1), if acc.1 w - 1 = 0 then acc.2 ++ [w] else acc.2)

def kahn (succ : V → List V) : ℕ → List V → (V → ℕ) → ℕ → ℕ
  | 0, _, _, removed => removed
  | _ + 1, [], _, removed => removed
  | fuel + 1, v :: queue, indegree, removed =>
    let (indegree, queue) := (succ v).foldl settle (indegree, queue)
    kahn succ fuel queue indegree (removed + 1)

variable {indegree : V → ℕ}

theorem foldl_settle {ws : List V} (h : ∀ w ∈ ws, ws.count w ≤ indegree w) (queue : List V) :
    ∃ new, (ws.foldl settle (indegree, queue)).2 = queue ++ new ∧ new.Nodup ∧
    (∀ w, (ws.foldl settle (indegree, queue)).1 w = indegree w - ws.count w) ∧ ∀ w, w ∈ new ↔ w ∈ ws ∧
    indegree w = ws.count w := by
  induction ws generalizing indegree queue with
  | nil => exact ⟨[], by simp⟩
  | cons u ws ih =>
    have hu : ws.count u + 1 ≤ indegree u := by
      have := h u (by simp)
      rwa [count_cons_self] at this
    have hrest : ∀ w ∈ ws, ws.count w ≤ update indegree u (indegree u - 1) w := by
      intro w hw
      by_cases hwu : w = u
      · subst hwu
        rw [update_self]
        omega
      · have := h w (by simp [hw])
        rw [count_cons_of_ne fun h' => hwu h'.symm] at this
        rwa [update_of_ne hwu]
    obtain ⟨new, h1, h2, h3, h4⟩ := ih hrest (if indegree u - 1 = 0 then queue ++ [u] else queue)
    have hmem : ∀ w, w ≠ u → (w ∈ new ↔ w ∈ u :: ws ∧ indegree w = (u :: ws).count w) := by
      intro w hw
      rw [h4, update_of_ne hw, count_cons_of_ne fun h' => hw h'.symm, mem_cons]
      simp [hw]
    rw [foldl_cons]
    change ∃ new', (ws.foldl settle (update indegree u (indegree u - 1),
      if indegree u - 1 = 0 then queue ++ [u] else queue)).2 = queue ++ new' ∧ _
    have hval : ∀ w, (ws.foldl settle (settle (indegree, queue) u)).1 w =
        indegree w - (u :: ws).count w := by
      intro w
      refine (h3 w).trans ?_
      by_cases hw : w = u
      · subst hw
        rw [update_self, count_cons_self]
        omega
      · rw [update_of_ne hw, count_cons_of_ne fun h' => hw h'.symm]
    by_cases hd : indegree u - 1 = 0
    · have hnot : u ∉ ws := count_eq_zero.mp (by omega)
      rw [if_pos hd] at h1 ⊢
      refine ⟨u :: new, by rw [h1]; simp, nodup_cons.mpr ⟨fun hn => hnot ((h4 u).mp hn).1, h2⟩, hval, fun w => ?_⟩
      by_cases hw : w = u
      · subst hw
        simp only [mem_cons, true_or, count_cons_self, true_and, true_iff]
        omega
      · rw [← hmem w hw]
        simp [hw]
    · rw [if_neg hd] at h1 ⊢
      refine ⟨new, h1, h2, hval, fun w => ?_⟩
      by_cases hw : w = u
      · subst hw
        rw [h4, update_self, count_cons_self]
        constructor
        · rintro ⟨-, heq⟩
          exact ⟨by simp, by omega⟩
        · rintro ⟨-, heq⟩
          have hpos : 0 < ws.count w := by omega
          exact ⟨count_pos_iff.mp hpos, by omega⟩
      · exact hmem w hw

structure Peeling (es : List (V × V)) (vs done queue : List V) (indegree : V → ℕ) : Prop where
  nodup : (done ++ queue).Nodup
  subset : ∀ v ∈ done ++ queue, v ∈ vs
  degree : ∀ w, indegree w = es.countP fun e => e.2 = w ∧ e.1 ∉ done
  free : ∀ w ∈ vs, indegree w = 0 → w ∈ done ++ queue
  ready : ∀ w ∈ done ++ queue, indegree w = 0
  acyclic : ∀ v ∈ done, ¬ Reaches es v v

variable {done : List V}

theorem Peeling.predecessor (h : Peeling es vs done queue indegree) (hw : indegree w = 0) (hstep : Step es v w) :
    v ∈ done := by
  rw [h.degree, countP_eq_zero] at hw
  by_contra hv
  exact hw (v, w) hstep (by simp [hv])

theorem countP_filter_fst (es : List (V × V)) (done : List V) (v w : V) (hv : v ∉ done) :
    (es.countP fun e => e.2 = w ∧ e.1 ∉ done) =
    (es.countP fun e => e.2 = w ∧ e.1 ∉ done ++ [v]) + (successors es v).count w := by
  induction es with
  | nil => rfl
  | cons e es ih =>
    have hsucc : (successors (e :: es) v).count w =
        (successors es v).count w + if e.1 = v ∧ e.2 = w then 1 else 0 := by
      unfold successors
      by_cases he : e.1 = v
      · simp [he, count_cons]
      · simp [he]
    rw [countP_cons, countP_cons, ih, hsucc]
    by_cases he : e.1 = v
    · subst he
      by_cases hw : e.2 = w
      · simp [hw, hv]
        omega
      · simp [hw]
    · simp only [mem_append, mem_singleton, he, or_false, false_and, if_false]
      omega

theorem Peeling.step (hvs : ∀ e ∈ es, e.2 ∈ vs) (h : Peeling es vs done (v :: queue) indegree) :
    Peeling es vs (done ++ [v]) ((successors es v).foldl settle (indegree, queue)).2
    ((successors es v).foldl settle (indegree, queue)).1 := by
  have hnot : v ∉ done := fun hv =>
    (nodup_append'.mp h.nodup).2.2 hv (by simp)
  have hdegree : ∀ w, indegree w = (es.countP fun e => e.2 = w ∧ e.1 ∉ done ++ [v]) +
      (successors es v).count w := fun w => (h.degree w).trans (countP_filter_fst es done v w hnot)
  have hle : ∀ w ∈ successors es v, (successors es v).count w ≤ indegree w := fun w _ => by
    have := hdegree w
    omega
  obtain ⟨new, h1, h2, h3, h4⟩ := foldl_settle hle queue
  rw [h1]
  have hnew : ∀ w ∈ new, w ∉ done ++ v :: queue := by
    intro w hw hold
    obtain ⟨hs, heq⟩ := (h4 w).mp hw
    have hpos := count_pos_iff.mpr hs
    have := h.ready w hold
    omega
  have hperm : (done ++ [v] ++ (queue ++ new)) = done ++ v :: queue ++ new := by simp
  refine ⟨?_, ?_, fun w => ?_, fun w hw h0 => ?_, fun w hw => ?_, fun u hu => ?_⟩
  · rw [hperm]
    exact nodup_append'.mpr ⟨h.nodup, h2, fun w hold hw => hnew w hw hold⟩
  · rw [hperm]
    intro w hw
    rcases mem_append.mp hw with hw | hw
    · exact h.subset w hw
    · exact hvs _ (mem_successors.mp ((h4 w).mp hw).1)
  · rw [h3]
    have := hdegree w
    omega
  · rw [hperm]
    rw [h3] at h0
    by_cases hold : indegree w = 0
    · exact mem_append_left _ (h.free w hw hold)
    · have hle' := hdegree w
      have hin : w ∈ successors es v := count_pos_iff.mp (by omega)
      exact mem_append_right _ ((h4 w).mpr ⟨hin, by omega⟩)
  · rw [hperm] at hw
    rw [h3]
    rcases mem_append.mp hw with hw | hw
    · have := h.ready w hw
      omega
    · have := ((h4 w).mp hw).2
      omega
  · rcases mem_append.mp hu with hu | hu
    · exact h.acyclic u hu
    · obtain rfl : u = v := by simpa using hu
      -- what reaches the new vertex was removed before it
      intro hcycle
      refine hnot (hcycle.mem_of_closed_back (S := {x | x ∈ done}) (fun w hw => ?_) fun x hx w hw => ?_)
      · exact h.predecessor (h.ready u (by simp)) hw
      · exact h.predecessor (h.ready x (by simp [show x ∈ done from hx])) hw

theorem kahn_spec (hvs : ∀ e ∈ es, e.2 ∈ vs) (h : Peeling es vs done queue indegree)
    (hfuel : vs.length ≤ fuel + done.length) : ∃ all indegree', Peeling es vs all [] indegree' ∧
    kahn (successors es) fuel queue indegree done.length = all.length := by
  induction fuel generalizing done queue indegree with
  | zero =>
    have hsub := subperm_of_subset h.nodup h.subset
    have hlen := hsub.length_le
    rw [length_append] at hlen
    obtain rfl : queue = [] := eq_nil_of_length_eq_zero (by omega)
    exact ⟨done, indegree, h, rfl⟩
  | succ fuel ih =>
    cases queue with
    | nil => exact ⟨done, indegree, h, rfl⟩
    | cons v queue =>
      have hlen : (done ++ [v]).length = done.length + 1 := by simp
      obtain ⟨all, indegree', hall, heq⟩ := ih (h.step hvs) (by omega)
      rw [hlen] at heq
      exact ⟨all, indegree', hall, heq⟩

theorem kahn_iff (hnodup : vs.Nodup) (hvs : ∀ e ∈ es, e.1 ∈ vs ∧ e.2 ∈ vs) (hfuel : vs.length ≤ fuel) :
    kahn (successors es) fuel (vs.filter fun v => es.countP (fun e => e.2 = v) = 0) (fun v => es.countP fun e => e.2 =
    v) 0 = vs.length ↔ ¬ Cyclic es := by
  have hstart : Peeling es vs [] (vs.filter fun v => es.countP (fun e => e.2 = v) = 0)
      (fun v => es.countP fun e => e.2 = v) := by
    refine ⟨by simpa using hnodup.filter _, ?_, fun w => by simp, ?_, ?_, nofun⟩
    · intro v hv
      exact (mem_filter.mp hv).1
    · intro w hw h0
      exact mem_filter.mpr ⟨hw, decide_eq_true h0⟩
    · intro w hw
      exact of_decide_eq_true (mem_filter.mp hw).2
  obtain ⟨all, indegree, hall, heq⟩ := kahn_spec (fun e he => (hvs e he).2) hstart (by simpa using hfuel)
  rw [length_nil] at heq
  rw [heq]
  have hsub : ∀ v ∈ all, v ∈ vs := fun v hv => hall.subset v (by simp [hv])
  have hnd : all.Nodup := by simpa using hall.nodup
  constructor
  · rintro hlen ⟨v, hv⟩
    have hperm := (subperm_of_subset hnd hsub).perm_of_length_le (by omega)
    obtain ⟨⟨w, hw⟩, -⟩ := hv.ends
    exact hall.acyclic v (hperm.mem_iff.mpr (hvs _ hw).1) hv
  · intro hacyclic
    have hevery : ∀ v ∈ vs, v ∈ all := by
      intro v hv
      by_contra hnot
      refine hacyclic (cyclic_of_predecessors (S := {x | x ∈ vs ∧ x ∉ all}) (fun _ h => h.1)
        ⟨hv, hnot⟩ fun w hw => ?_)
      have hpos : indegree w ≠ 0 := fun h0 => hw.2 (by simpa using hall.free w hw.1 h0)
      rw [hall.degree] at hpos
      obtain ⟨e, he, hcond⟩ := countP_pos_iff.mp (Nat.pos_of_ne_zero hpos)
      simp only [decide_eq_true_eq] at hcond
      obtain ⟨rfl, hout⟩ := hcond
      exact ⟨e.1, ⟨(hvs e he).1, hout⟩, he⟩
    exact le_antisymm (subperm_of_subset hnd hsub).length_le (subperm_of_subset hnodup hevery).length_le

section

inductive Color
  | white
  | gray
  | black
  deriving DecidableEq

/-- Depth-first search from the frames of a stack, each a vertex with the arcs it has left; `true`
when an arc leads back into the stack. -/
def depth (succ : V → List V) : ℕ → List (V × List V) → (V → Color) → (V → Color) × Bool
  | 0, _, color => (color, false)
  | _ + 1, [], color => (color, false)
  | fuel + 1, (v, []) :: stack, color => depth succ fuel stack (update color v .black)
  | fuel + 1, (v, w :: ws) :: stack, color =>
    match color w with
    | .white => depth succ fuel ((w, succ w) :: (v, ws) :: stack) (update color w .gray)
    | .gray => (color, true)
    | .black => depth succ fuel ((v, ws) :: stack) color

def depthFrom (succ : V → List V) (fuel : ℕ) : List V → (V → Color) → Bool
  | [], _ => false
  | start :: starts, color =>
    if color start ≠ .white then depthFrom succ fuel starts color
    else
      let (color, found) := depth succ fuel [(start, succ start)] (update color start .gray)
      if found then true else depthFrom succ fuel starts color

def Frames (es : List (V × V)) (color : V → Color) : Option V → List (V × List V) → Prop
  | _, [] => True
  | above, (v, ws) :: stack => (∀ w ∈ ws, Step es v w) ∧
      (∀ w, Step es v w → w ∈ ws ∨ color w = .black ∨ above = some w) ∧
      (∀ w, above = some w → Step es v w) ∧ Frames es color (some v) stack

variable {color color' : V → Color} {stack : List (V × List V)} {above : Option V} {ws : List V}

omit [DecidableEq V] in
theorem Frames.mono (h : Frames es color above stack)
    (hc : ∀ w, color w = .black → color' w = .black) : Frames es color' above stack := by
  induction stack generalizing above with
  | nil => trivial
  | cons f stack ih =>
    obtain ⟨v, ws⟩ := f
    obtain ⟨h1, h2, h3, h4⟩ := h
    exact ⟨h1, fun w hw => (h2 w hw).imp_right fun h => h.imp_left (hc w), h3, ih h4⟩

omit [DecidableEq V] in
theorem Frames.finish (h : Frames es color (some v) stack) (hc : ∀ w, color w = .black → color' w = .black)
    (hv : color' v = .black) : Frames es color' none stack := by
  cases stack with
  | nil => trivial
  | cons f stack =>
    obtain ⟨u, ws⟩ := f
    obtain ⟨h1, h2, -, h4⟩ := h
    refine ⟨h1, fun w hw => ?_, nofun, h4.mono hc⟩
    rcases h2 w hw with h | h | h
    · exact .inl h
    · exact .inr (.inl (hc w h))
    · obtain rfl := Option.some.inj h
      exact .inr (.inl hv)

omit [DecidableEq V] in
theorem Frames.reaches (h : Frames es color (some w) stack) (hv : v ∈ stack.map Prod.fst) : Reaches es v w := by
  induction stack generalizing w with
  | nil => cases hv
  | cons f stack ih =>
    obtain ⟨u, ws⟩ := f
    obtain ⟨-, -, h3, h4⟩ := h
    rcases mem_cons.mp hv with rfl | hv
    · exact .single (h3 w rfl)
    · exact (ih h4 hv).tail (h3 w rfl)

structure Exploring (es : List (V × V)) (color : V → Color) (stack : List (V × List V)) : Prop where
  gray : ∀ v, color v = .gray ↔ v ∈ stack.map Prod.fst
  nodup : (stack.map Prod.fst).Nodup
  closed : ∀ v, color v = .black → ∀ w, Step es v w → color w = .black
  acyclic : ∀ v, color v = .black → ¬ Reaches es v v
  frames : Frames es color none stack

theorem Exploring.pop (h : Exploring es color ((v, []) :: stack)) : Exploring es (update color v .black) stack := by
  obtain ⟨-, hsucc, -, hframes⟩ := h.frames
  have hv : color v = .gray := (h.gray v).mpr (by simp)
  obtain ⟨hnot, hnodup⟩ := nodup_cons.mp h.nodup
  have hmono : ∀ w, color w = .black → update color v .black w = .black := by
    intro w hw
    by_cases hwv : w = v
    · simp [hwv]
    · rwa [update_of_ne hwv]
  have hblack : ∀ w, Step es v w → color w = .black := fun w hw => by
    simpa using hsucc w hw
  refine ⟨fun u => ?_, hnodup, fun u hu w hw => ?_, fun u hu => ?_, hframes.finish hmono (by simp)⟩
  · by_cases huv : u = v
    · subst huv
      simpa using hnot
    · rw [update_of_ne huv, h.gray]
      simp [huv]
  · by_cases huv : u = v
    · exact hmono w (hblack w (huv ▸ hw))
    · rw [update_of_ne huv] at hu
      exact hmono w (h.closed u hu w hw)
  · by_cases huv : u = v
    · subst huv
      intro hcycle
      have := hcycle.mem_of_closed (S := {x | color x = .black}) hblack h.closed
      simp [show color u = .black from this] at hv
    · rw [update_of_ne huv] at hu
      exact h.acyclic u hu

omit [DecidableEq V] in
theorem Exploring.skip (h : Exploring es color ((v, w :: ws) :: stack)) (hw : color w = .black) :
    Exploring es color ((v, ws) :: stack) := by
  obtain ⟨h1, h2, h3, h4⟩ := h.frames
  refine ⟨h.gray, h.nodup, h.closed, h.acyclic, fun u hu => h1 u (by simp [hu]), fun u hu => ?_, h3, h4⟩
  rcases h2 u hu with h' | h'
  · rcases mem_cons.mp h' with rfl | h'
    · exact .inr (.inl hw)
    · exact .inl h'
  · exact .inr h'

theorem update_gray_black (hw : color w = .white) (u : V) : update color w .gray u = .black ↔ color u = .black := by
  by_cases huw : u = w
  · subst huw
    simp [hw]
  · rw [update_of_ne huw]

theorem Exploring.push (h : Exploring es color ((v, w :: ws) :: stack)) (hw : color w = .white) :
    Exploring es (update color w .gray) ((w, successors es w) :: (v, ws) :: stack) := by
  obtain ⟨h1, h2, h3, h4⟩ := h.frames
  have hblack := update_gray_black hw
  have hnot : w ∉ ((v, w :: ws) :: stack).map Prod.fst := fun hmem => by
    simp [(h.gray w).mpr hmem] at hw
  refine ⟨fun u => ?_, nodup_cons.mpr ⟨hnot, h.nodup⟩, fun u hu x hx => ?_, fun u hu => ?_,
    fun u hu => mem_successors.mp hu, fun u hu => .inl (mem_successors.mpr hu), nofun,
    fun u hu => h1 u (by simp [hu]), fun u hu => ?_, ?_, h4.mono fun u hu => (hblack u).mpr hu⟩
  · by_cases huw : u = w
    · simp [huw]
    · rw [update_of_ne huw, h.gray]
      simp [huw]
  · exact (hblack x).mpr (h.closed u ((hblack u).mp hu) x hx)
  · exact h.acyclic u ((hblack u).mp hu)
  · rcases h2 u hu with h' | h' | h'
    · rcases mem_cons.mp h' with rfl | h'
      · exact .inr (.inr rfl)
      · exact .inl h'
    · exact .inr (.inl ((hblack u).mpr h'))
    · cases h'
  · rintro u ⟨⟩
    exact h1 w (by simp)

theorem Exploring.start (h : Exploring es color []) (hv : color v = .white) :
    Exploring es (update color v .gray) [(v, successors es v)] := by
  have hblack := update_gray_black hv
  refine ⟨fun u => ?_, by simp, fun u hu x hx => ?_, fun u hu => ?_,
    fun u hu => mem_successors.mp hu, fun u hu => .inl (mem_successors.mpr hu), nofun, trivial⟩
  · by_cases huv : u = v
    · simp [huv]
    · rw [update_of_ne huv, h.gray]
      simp [huv]
  · exact (hblack x).mpr (h.closed u ((hblack u).mp hu) x hx)
  · exact h.acyclic u ((hblack u).mp hu)

def whites (succ : V → List V) (color : V → Color) (vs : List V) : ℕ :=
  (vs.map fun v => if color v = .white then (succ v).length + 1 else 0).sum

omit [DecidableEq V] in
theorem whites_mono {succ : V → List V} {vs : List V} (h : ∀ v, color' v = .white → color v = .white) :
    whites succ color' vs ≤ whites succ color vs := by
  induction vs with
  | nil => exact Nat.le_refl _
  | cons v vs ih =>
    unfold whites at *
    rw [map_cons, sum_cons, map_cons, sum_cons]
    by_cases hv : color' v = .white
    · rw [if_pos hv, if_pos (h v hv)]
      omega
    · rw [if_neg hv]
      omega

theorem whites_update (succ : V → List V) {vs : List V} {c : Color} (hc : c ≠ .white) (hw : w ∈ vs)
    (hwhite : color w = .white) : whites succ (update color w c) vs +
    ((succ w).length + 1) ≤ whites succ color vs := by
  have hmono : ∀ vs, whites succ (update color w c) vs ≤ whites succ color vs := fun vs =>
    whites_mono fun v hv => by
      by_cases hvw : v = w
      · rw [hvw, hwhite]
      · rwa [update_of_ne hvw] at hv
  induction vs with
  | nil => cases hw
  | cons v vs ih =>
    unfold whites at *
    rw [map_cons, sum_cons, map_cons, sum_cons]
    by_cases hvw : v = w
    · subst hvw
      have := hmono vs
      rw [update_self, if_neg hc, if_pos hwhite]
      omega
    · have := ih ((mem_cons.mp hw).resolve_left fun h => hvw h.symm)
      rw [update_of_ne hvw]
      omega

def work (succ : V → List V) (color : V → Color) (vs : List V) (stack : List (V × List V)) : ℕ :=
  (stack.map fun f => f.2.length + 1).sum + whites succ color vs

theorem depth_spec {vs : List V} (hvs : ∀ e ∈ es, e.2 ∈ vs) {fuel : ℕ} (h : Exploring es color stack)
    (hfuel : work (successors es) color vs stack ≤ fuel) :
    ((depth (successors es) fuel stack color).2 = true → Cyclic es) ∧
    ((depth (successors es) fuel stack color).2 = false → Exploring es (depth (successors es) fuel stack color).1 [] ∧
    ∀ v, color v ≠ .white → (depth (successors es) fuel stack color).1 v ≠ .white) := by
  induction fuel generalizing color stack with
  | zero =>
    cases stack with
    | nil => exact ⟨nofun, fun _ => ⟨h, fun _ h => h⟩⟩
    | cons f stack =>
      unfold work at hfuel
      rw [map_cons, sum_cons] at hfuel
      omega
  | succ fuel ih =>
    unfold work at hfuel
    match stack with
    | [] => exact ⟨nofun, fun _ => ⟨h, fun _ h => h⟩⟩
    | (v, []) :: stack =>
      have hmono : ∀ u, color u ≠ .white → update color v .black u ≠ .white := by
        intro u hu
        by_cases huv : u = v
        · simp [huv]
        · rwa [update_of_ne huv]
      have hle : whites (successors es) (update color v .black) vs ≤
          whites (successors es) color vs := whites_mono fun u hu => by_contra fun hne => hmono u hne hu
      obtain ⟨h1, h2⟩ := ih h.pop (by
        unfold work
        rw [map_cons, sum_cons] at hfuel
        omega)
      exact ⟨h1, fun hf => ⟨(h2 hf).1, fun u hu => (h2 hf).2 u (hmono u hu)⟩⟩
    | (v, w :: ws) :: stack =>
      rw [map_cons, sum_cons, length_cons] at hfuel
      have hstep : Step es v w := h.frames.1 w (by simp)
      unfold depth
      cases hw : color w with
      | white =>
        have hmono : ∀ u, color u ≠ .white → update color w .gray u ≠ .white := by
          intro u hu
          by_cases huw : u = w
          · simp [huw]
          · rwa [update_of_ne huw]
        have hle := whites_update (successors es) (c := .gray) nofun (hvs (v, w) hstep) hw
        obtain ⟨h1, h2⟩ := ih (h.push hw) (by
          unfold work
          rw [map_cons, sum_cons, map_cons, sum_cons]
          dsimp only at hle ⊢
          omega)
        exact ⟨h1, fun hf => ⟨(h2 hf).1, fun u hu => (h2 hf).2 u (hmono u hu)⟩⟩
      | gray =>
        refine ⟨fun _ => ⟨w, ?_⟩, nofun⟩
        rcases mem_cons.mp ((h.gray w).mp hw) with heq | hmem
        · exact .single (heq ▸ hstep)
        · exact (h.frames.2.2.2.reaches hmem).tail hstep
      | black => exact ih (h.skip hw) (by
          unfold work
          rw [map_cons, sum_cons]
          dsimp only
          omega)

theorem depthFrom_spec {vs starts : List V} (hvs : ∀ e ∈ es, e.2 ∈ vs) {fuel : ℕ}
    (hfuel : whites (successors es) (fun _ => .white) vs ≤ fuel) (hstarts : ∀ v ∈ starts, v ∈ vs)
    (h : Exploring es color []) : (depthFrom (successors es) fuel starts color = true → Cyclic es) ∧
    (depthFrom (successors es) fuel starts color = false → ∃ color', Exploring es color' [] ∧
    (∀ v, color v ≠ .white → color' v ≠ .white) ∧ ∀ v ∈ starts, color' v ≠ .white) := by
  induction starts generalizing color with
  | nil => exact ⟨nofun, fun _ => ⟨color, h, fun _ h => h, nofun⟩⟩
  | cons v starts ih =>
    have hrest : ∀ u ∈ starts, u ∈ vs := fun u hu => hstarts u (by simp [hu])
    unfold depthFrom
    split
    · next hv =>
      obtain ⟨h1, h2⟩ := ih hrest h
      refine ⟨h1, fun hf => ?_⟩
      obtain ⟨color', hc, hmono, hall⟩ := h2 hf
      refine ⟨color', hc, hmono, ?_⟩
      rintro u (_ | ⟨_, hu⟩)
      · exact hmono v hv
      · exact hall u hu
    · next hv =>
      rw [not_not] at hv
      have hle := whites_update (successors es) (c := .gray) nofun (hstarts v (by simp)) hv
      have hall : whites (successors es) color vs ≤ whites (successors es) (fun _ => .white) vs :=
        whites_mono fun _ _ => rfl
      have hwork : work (successors es) (update color v .gray) vs [(v, successors es v)] ≤
          fuel := by
        unfold work
        simp only [map_cons, map_nil, sum_cons, sum_nil]
        omega
      obtain ⟨h1, h2⟩ := depth_spec hvs (h.start hv) hwork
      rcases hout : depth (successors es) fuel [(v, successors es v)] (update color v .gray) with
        ⟨color', found⟩
      rw [hout] at h1 h2
      dsimp only at h1 h2 ⊢
      cases found with
      | true => exact ⟨fun _ => h1 rfl, by simp⟩
      | false =>
        obtain ⟨hc, hmono⟩ := h2 rfl
        obtain ⟨r1, r2⟩ := ih hrest hc
        refine ⟨by simpa using r1, fun hf => ?_⟩
        obtain ⟨color'', hc', hmono', hall'⟩ := r2 (by simpa using hf)
        have hkeep : ∀ u, color u ≠ .white → color' u ≠ .white := fun u hu => hmono u (by
          by_cases huv : u = v
          · simp [huv]
          · rwa [update_of_ne huv])
        refine ⟨color'', hc', fun u hu => hmono' u (hkeep u hu), ?_⟩
        rintro u (_ | ⟨_, hu⟩)
        · exact hmono' v (hmono v (by simp))
        · exact hall' u hu

theorem depthFrom_iff {vs : List V} (hvs : ∀ e ∈ es, e.1 ∈ vs ∧ e.2 ∈ vs) {fuel : ℕ}
    (hfuel : whites (successors es) (fun _ => .white) vs ≤ fuel) :
    depthFrom (successors es) fuel vs (fun _ => .white) = true ↔ Cyclic es := by
  have hstart : Exploring es (fun _ : V => Color.white) [] := ⟨fun v => by simp, by simp, nofun, nofun, trivial⟩
  obtain ⟨h1, h2⟩ := depthFrom_spec (fun e he => (hvs e he).2) hfuel (fun _ h => h) hstart
  refine ⟨h1, fun ⟨v, hv⟩ => ?_⟩
  by_contra hf
  obtain ⟨color, hc, -, hall⟩ := h2 (Bool.eq_false_iff.mpr hf)
  obtain ⟨⟨w, hw⟩, -⟩ := hv.ends
  have hwhite := hall v (hvs _ hw).1
  have hgray : color v ≠ .gray := fun hg => by simpa using (hc.gray v).mp hg
  cases hcol : color v with
  | white => exact hwhite hcol
  | gray => exact hgray hcol
  | black => exact hc.acyclic v hcol hv

end

end Nixie.Digraph
