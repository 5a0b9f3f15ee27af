import Nixie.Cp.Checker
import Nixie.SingleCycle

namespace Nixie.Cp

open Ast Budget List

variable {value : CpVar → ℤ}

theorem clash_spec (a : CpVar) (before : List CpVar) :
    Ensures (clash value a before) fun b => b = true ↔ value a ∈ before.map value := by
  induction before with
  | nil => exact .pure (by simp)
  | cons b before ih =>
    refine .spend_bind (.ite (fun heq => .pure (by simp [heq])) fun hne => ?_)
    refine ih.mono fun r hr => ?_
    rw [hr, map_cons, mem_cons, or_iff_right hne]

theorem allDifferentLoop_spec (before vars : List CpVar) (hbefore : (before.map value).Nodup) : Ensures
    (allDifferentLoop value before vars) fun b => b = true ↔ ((before ++ vars).map value).Nodup := by
  induction vars generalizing before with
  | nil => exact .pure (by simpa using hbefore)
  | cons a vars ih =>
    refine .bind (clash_spec a before) fun clashes hclash => ?_
    refine .ite (fun h => .pure ?_) fun h => ?_
    · refine iff_of_false Bool.false_ne_true fun hnodup => ?_
      rw [map_append, map_cons] at hnodup
      exact (nodup_append.mp hnodup).2.2 _ (hclash.mp h) _ mem_cons_self rfl
    · have hnew : ((before ++ [a]).map value).Nodup := by
        rw [map_append, nodup_append]
        refine ⟨hbefore, by simp, ?_⟩
        rintro x hx y hy rfl
        rw [map_singleton, mem_singleton] at hy
        exact h (hclash.mpr (hy ▸ hx))
      refine (ih (before ++ [a]) hnew).mono fun r hr => ?_
      rw [hr, append_assoc, singleton_append]

theorem rowLoop_spec (cells : List (CpVar × ℤ)) (agrees : Bool) : Ensures (rowLoop value cells agrees) fun b => b =
    (agrees && cells.all fun c => value c.1 == c.2) := by
  induction cells generalizing agrees with
  | nil => exact .pure (by simp)
  | cons c cells ih =>
    obtain ⟨var, entry⟩ := c
    refine .spend_bind ((ih _).mono fun r hr => ?_)
    rw [hr, all_cons, Bool.and_assoc]

theorem all_zip_iff {vars : List CpVar} {row : List ℤ} (h : row.length = vars.length) :
    ((vars.zip row).all fun c => value c.1 == c.2) = true ↔ vars.map value = row := by
  induction vars generalizing row with
  | nil =>
    rw [length_nil, length_eq_zero_iff] at h
    simp [h]
  | cons var vars ih =>
    cases row with
    | nil => cases h
    | cons entry row =>
      rw [zip_cons_cons, all_cons, Bool.and_eq_true, ih (Nat.succ.inj h), map_cons, List.cons.injEq, beq_iff_eq]

theorem tableLoop_spec (vars : List CpVar) (rows : List (List ℤ)) (harity : ∀ row ∈ rows, row.length = vars.length) :
    Ensures (tableLoop value vars rows) fun b => b = true ↔ vars.map value ∈ rows := by
  induction rows with
  | nil => exact .pure (by simp)
  | cons row rows ih =>
    have hrow := harity row mem_cons_self
    refine .spend_bind (.bind (rowLoop_spec _ true) fun agrees hagrees => ?_)
    rw [Bool.true_and] at hagrees
    refine .ite (fun h => .pure ?_) fun h => ?_
    · rw [hagrees, all_zip_iff hrow] at h
      simp [h]
    · rw [hagrees, all_zip_iff hrow] at h
      refine (ih fun r hr => harity r (mem_cons_of_mem row hr)).mono fun r hr => ?_
      rw [hr, mem_cons, or_iff_right h]

theorem edgeLoop_spec (states : Finset ℕ) (symbol : ℤ) (edges : List Transition) (next : Finset ℕ) :
    Ensures (edgeLoop states symbol edges next) fun result => ∀ q, q ∈ result ↔ q ∈ next ∨
    ∃ e ∈ edges, e.source ∈ states ∧ symbol = e.symbol ∧ e.destination = q := by
  induction edges generalizing next with
  | nil => exact .pure (by simp)
  | cons e edges ih =>
    refine .spend_bind ((ih _).mono fun result h q => ?_)
    rw [h q]
    split
    · next hfires =>
      rw [Finset.mem_insert]
      constructor
      · rintro ((rfl | hq) | ⟨e', he', hq⟩)
        · exact .inr ⟨e, mem_cons_self, hfires.1, hfires.2, rfl⟩
        · exact .inl hq
        · exact .inr ⟨e', mem_cons_of_mem e he', hq⟩
      · rintro (hq | ⟨e', he', hsource, hsymbol, hq⟩)
        · exact .inl (.inr hq)
        · rcases mem_cons.mp he' with rfl | he'
          · exact .inl (.inl hq.symm)
          · exact .inr ⟨e', he', hsource, hsymbol, hq⟩
    · next hidle =>
      refine or_congr_right ⟨?_, ?_⟩
      · rintro ⟨e', he', hq⟩
        exact ⟨e', mem_cons_of_mem e he', hq⟩
      · rintro ⟨e', he', hsource, hsymbol, hq⟩
        rcases mem_cons.mp he' with rfl | he'
        · exact absurd ⟨hsource, hsymbol⟩ hidle
        · exact ⟨e', he', hsource, hsymbol, hq⟩

theorem run_cons_iff {edges : List Transition} {p q : ℕ} {z : ℤ} {word : List ℤ} :
    Run edges p (z :: word) q ↔ ∃ e ∈ edges, e.source = p ∧ e.symbol = z ∧ Run edges e.destination word q := by
  constructor
  · intro h
    cases h with
    | @cons e _ _ he tail => exact ⟨e, he, rfl, rfl, tail⟩
  · rintro ⟨e, he, rfl, rfl, tail⟩
    exact .cons he tail

theorem run_nil_iff {edges : List Transition} {p q : ℕ} : Run edges p [] q ↔ p = q := by
  constructor
  · intro h
    cases h
    rfl
  · rintro rfl
    exact .nil p

theorem regularLoop_spec (edges : List Transition) (vars : List CpVar) (states : Finset ℕ) :
    Ensures (regularLoop value edges vars states) fun result => ∀ q, q ∈ result ↔
    ∃ p ∈ states, Run edges p (vars.map value) q := by
  induction vars generalizing states with
  | nil => exact .pure (by simp [run_nil_iff])
  | cons var vars ih =>
    refine .bind (edgeLoop_spec states (value var) edges ∅) fun next hnext => ?_
    refine (ih next).mono fun result hresult q => ?_
    simp only [hresult q, hnext, map_cons, run_cons_iff, Finset.notMem_empty, false_or]
    constructor
    · rintro ⟨p, ⟨e, he, hsource, hsymbol, rfl⟩, htail⟩
      exact ⟨e.source, hsource, e, he, rfl, hsymbol.symm, htail⟩
    · rintro ⟨p, hp, e, he, rfl, hsymbol, htail⟩
      exact ⟨e.destination, ⟨e, he, hp, hsymbol.symm, rfl⟩, htail⟩

section

open SingleCycle

inductive Path (step : ℕ → Option ℕ) : ℕ → List ℕ → ℕ → Prop
  | nil (a : ℕ) : Path step a [] a
  | cons {a b m path} (h : step a = some b) (tail : Path step b path m) :
    Path step a (a :: path) m

variable (value) in
def successor (vars : List CpVar) (node : ℕ) : Option ℕ :=
  (vars[node]?).bind fun v => nodeOf vars.length (value v)

theorem nodeOf_eq_some {n next : ℕ} {z : ℤ} : nodeOf n z = some next ↔ z = next ∧ next < n := by
  unfold nodeOf
  split_ifs with h
  · rw [Option.some.injEq]
    omega
  · refine iff_of_false (by simp) ?_
    rintro ⟨rfl, hlt⟩
    exact h ⟨Int.natCast_nonneg next, by simpa using hlt⟩

theorem successor_eq_some {vars : List CpVar} {a b : ℕ} :
    successor value vars a = some b ↔ ∃ h : a < vars.length, value vars[a] = b ∧ b < vars.length := by
  simp only [successor, Option.bind_eq_some_iff, getElem?_eq_some_iff, nodeOf_eq_some]
  constructor
  · rintro ⟨v, ⟨h, rfl⟩, hb⟩
    exact ⟨h, hb⟩
  · rintro ⟨h, hb⟩
    exact ⟨vars[a], ⟨h, rfl⟩, hb⟩

theorem getD_set_self {seen : List Bool} {a : ℕ} (h : a < seen.length) : (seen.set a true).getD a false = true := by
  simp [getD_eq_getElem?_getD, h]

theorem getD_set_ne {seen : List Bool} {a x : ℕ} (h : x ≠ a) : (seen.set a true).getD x false = seen.getD x false := by
  simp [getD_eq_getElem?_getD, Ne.symm h]

theorem circuitLoop_path (vars rounds : List CpVar) (seen : List Bool) (node : ℕ)
    (hlength : seen.length = vars.length) : Ensures (circuitLoop value vars rounds seen node) fun result => ∀ m,
    result = some m → ∃ path, path.length = rounds.length ∧ Path (successor value vars) node path m ∧ path.Nodup ∧
    ∀ x ∈ path, x < vars.length ∧ seen.getD x false = false := by
  induction rounds generalizing seen node with
  | nil =>
    refine .pure fun m hm => ?_
    cases hm
    exact ⟨[], rfl, .nil node, nodup_nil, by simp⟩
  | cons round rounds ih =>
    refine .spend_bind (.ite (fun _ => .pure (by simp)) fun hseen => ?_)
    split
    · next next hnext =>
      obtain ⟨hnode, -, -⟩ := successor_eq_some.mp hnext
      refine (ih (seen.set node true) next (by simpa using hlength)).mono fun result h m hm => ?_
      obtain ⟨path, hrounds, hpath, hnodup, hunseen⟩ := h m hm
      have hfresh : node ∉ path := by
        intro hmem
        have htrue := getD_set_self (hlength ▸ hnode)
        rw [(hunseen node hmem).2] at htrue
        cases htrue
      refine ⟨node :: path, by simp [hrounds], .cons hnext hpath, nodup_cons.mpr ⟨hfresh, hnodup⟩, ?_⟩
      intro x hx
      rcases mem_cons.mp hx with rfl | hx
      · exact ⟨hnode, Bool.not_eq_true _ ▸ hseen⟩
      · obtain ⟨hlt, hfalse⟩ := hunseen x hx
        rw [getD_set_ne (ne_of_mem_of_not_mem hx hfresh)] at hfalse
        exact ⟨hlt, hfalse⟩
    · exact .pure (by simp)

theorem circuitLoop_iterate (vars rounds : List CpVar) (seen : List Bool) (hlength : seen.length = vars.length)
    {next : Fin vars.length → Fin vars.length} (hnext : ∀ i, value (vars.get i) = next i) (i : Fin vars.length)
    (hseen : ∀ j < rounds.length, seen.getD (next^[j] i) false = false)
    (hdistinct : ∀ j k, j < k → k < rounds.length → next^[j] i ≠ next^[k] i) :
    Ensures (circuitLoop value vars rounds seen i) fun result => result = some (next^[rounds.length] i).val := by
  induction rounds generalizing seen i with
  | nil => exact .pure rfl
  | cons round rounds ih =>
    have hnew : seen.getD i false = false := hseen 0 (Nat.succ_pos _)
    refine .spend_bind (.ite (fun h => absurd (hnew.symm.trans h) Bool.false_ne_true) fun _ => ?_)
    have hstep : successor value vars i = some (next i).val := successor_eq_some.mpr ⟨i.2, hnext i, (next i).2⟩
    rw [successor] at hstep
    rw [hstep]
    refine (ih (seen.set i true) (by simpa using hlength) (next i) ?_ ?_).mono fun result h => ?_
    · intro j hj
      have hne : next^[j + 1] i ≠ i := (hdistinct 0 (j + 1) (Nat.succ_pos j) (Nat.succ_lt_succ hj)).symm
      rw [← Function.iterate_succ_apply, getD_set_ne fun h => hne (Fin.ext h)]
      exact hseen (j + 1) (Nat.succ_lt_succ hj)
    · intro j k hjk hk
      exact hdistinct (j + 1) (k + 1) (Nat.succ_lt_succ hjk) (Nat.succ_lt_succ hk)
    · exact h

variable {step : ℕ → Option ℕ} {path : List ℕ}

theorem Path.split {a m x : ℕ} (h : Path step a path m) (hx : x ∈ path) : (∃ before, Path step a before x) ∧
    ∃ after, Path step x after m := by
  induction h with
  | nil => cases hx
  | @cons a b m path hstep tail ih =>
    rcases mem_cons.mp hx with rfl | hx
    · exact ⟨⟨[], .nil x⟩, x :: path, .cons hstep tail⟩
    · obtain ⟨⟨before, hbefore⟩, hafter⟩ := ih hx
      exact ⟨⟨a :: before, .cons hstep hbefore⟩, hafter⟩

theorem Path.successor {a m x : ℕ} (h : Path step a path m) (hx : x ∈ path) : ∃ b, step x = some b := by
  induction h with
  | nil => cases hx
  | @cons a b m path hstep tail ih =>
    rcases mem_cons.mp hx with rfl | hx
    · exact ⟨b, hstep⟩
    · exact ih hx

theorem Path.iterate {n : ℕ} {next : Fin n → Fin n} {a m : ℕ} (hnext : ∀ i : Fin n, step i = some (next i).val)
    (h : Path step a path m) (ha : a < n) (hm : m < n) : ∃ k, next^[k] ⟨a, ha⟩ = ⟨m, hm⟩ := by
  induction h with
  | nil => exact ⟨0, rfl⟩
  | @cons a b m path hstep tail ih =>
    have hb : (next ⟨a, ha⟩).val = b := Option.some.inj ((hnext ⟨a, ha⟩).symm.trans hstep)
    obtain ⟨k, hk⟩ := ih (hb ▸ (next ⟨a, ha⟩).2) hm
    refine ⟨k + 1, ?_⟩
    rw [Function.iterate_succ_apply, ← hk]
    congr
    exact Fin.ext hb

theorem holds_of_path {vars path : List CpVar} (hne : 0 < vars.length) (hlength : path.length = vars.length)
    (hpath : Path (successor value vars) 0 path 0) (hnodup : path.Nodup) (hbound : ∀ x ∈ path, x < vars.length)
    {presences : ℕ → Bool} : (Constraint.circuit vars).Holds value presences := by
  have hall : ∀ x < vars.length, x ∈ path := by
    have hsub : path ⊆ List.range vars.length := fun x hx => mem_range.mpr (hbound x hx)
    have hperm : path.Perm (List.range vars.length) := (hnodup.subperm hsub).perm_of_length_le (by simp [hlength])
    intro x hx
    exact hperm.mem_iff.mpr (mem_range.mpr hx)
  choose! target htarget using fun x (hx : x < vars.length) => hpath.successor (hall x hx)
  have hlt : ∀ x < vars.length, target x < vars.length := by
    intro x hx
    obtain ⟨-, -, hlt⟩ := successor_eq_some.mp (htarget x hx)
    exact hlt
  let next : Fin vars.length → Fin vars.length := fun i => ⟨target i, hlt i i.2⟩
  have hnext : ∀ i : Fin vars.length, successor value vars i = some (next i).val :=
    fun i => htarget i i.2
  refine ⟨next, fun i => ?_, fun i j => ?_⟩
  · obtain ⟨_, hsuccessor, -⟩ := successor_eq_some.mp (htarget i i.2)
    exact hsuccessor
  · obtain ⟨-, after, hafter⟩ := hpath.split (hall i i.2)
    obtain ⟨⟨before, hbefore⟩, -⟩ := hpath.split (hall j j.2)
    obtain ⟨k, hk⟩ := hafter.iterate hnext i.2 hne
    obtain ⟨l, hl⟩ := hbefore.iterate hnext hne j.2
    exact ⟨l + k, by rw [Function.iterate_add_apply, hk, hl]⟩

theorem circuit_spec (vars : List CpVar) (presences : ℕ → Bool) (hne : 0 < vars.length) :
    Ensures (circuitLoop value vars vars (List.replicate vars.length false) 0) fun result => result = some 0 ↔
    (Constraint.circuit vars).Holds value presences := by
  by_cases hholds : (Constraint.circuit vars).Holds value presences
  · obtain ⟨next, hnext, hcycle⟩ := hholds
    have htransitive : Transitive next := hcycle
    have hcard : Fintype.card (Fin vars.length) = vars.length := Fintype.card_fin _
    refine (circuitLoop_iterate vars vars _ (length_replicate ..) hnext ⟨0, hne⟩ ?_ ?_).mono fun result h => ?_
    · intro j hj
      simp [getD_eq_getElem?_getD]
    · intro j k hjk hk
      exact htransitive.iterate_ne hjk (hcard.symm ▸ hk)
    · have hback : next^[vars.length] ⟨0, hne⟩ = ⟨0, hne⟩ := by
        have h := htransitive.iterate_card ⟨0, hne⟩
        rwa [hcard] at h
      rw [h, hback]
      exact iff_of_true rfl ⟨next, hnext, hcycle⟩
  · refine (circuitLoop_path vars vars _ 0 (length_replicate ..)).mono fun result h => ?_
    refine iff_of_false (fun hzero => hholds ?_) hholds
    obtain ⟨path, hlength, hpath, hnodup, hunseen⟩ := h 0 hzero
    exact holds_of_path hne hlength hpath hnodup fun x hx => (hunseen x hx).1

end

section

def truthAt (presences : List Bool) (i : ℕ) : Bool :=
  presences[i]?.getD false

variable {presences : List Bool}

theorem isPresent_spec (task : ScheduledTask) :
    Ensures (isPresent presences task) fun b => b = task.present (truthAt presences) := by
  unfold isPresent ScheduledTask.present
  cases task.presence with
  | none => exact .pure rfl
  | some p =>
    obtain ⟨i, sign⟩ := p
    dsimp only
    cases h : presences[i]? with
    | none => exact .throw _
    | some truth => exact .pure (by simp [truthAt, h])

theorem loadLoop_spec (time : ℤ) (tasks : List ScheduledTask) (total : ℤ) :
    Ensures (loadLoop value presences time tasks total) fun result => result =
    total + load value (truthAt presences) tasks time := by
  induction tasks generalizing total with
  | nil => exact .pure (by simp [load])
  | cons task tasks ih =>
    refine .spend_bind (.bind (isPresent_spec task) fun present hpresent => ?_)
    subst hpresent
    have hload : load value (truthAt presences) (task :: tasks) time =
        (if task.Running value (truthAt presences) time then task.task.demand else 0) +
          load value (truthAt presences) tasks time := by
      unfold load
      rw [filter_cons]
      by_cases hrunning : task.Running value (truthAt presences) time <;> simp [hrunning]
    refine .ite (fun h => ?_) fun h => ?_
    · refine (ih _).mono fun result hresult => ?_
      rw [hresult, hload]
      simp only [ScheduledTask.Running, h, true_and]
      split <;> omega
    · refine (ih _).mono fun result hresult => ?_
      rw [hresult, hload]
      simp [ScheduledTask.Running, h]

theorem cumulativeLoop_spec (tasks : List ScheduledTask) (capacity : ℤ) (rest : List ScheduledTask) : Ensures
    (cumulativeLoop value presences tasks capacity rest) fun b => b = true ↔ ∀ t ∈ rest, t.present (truthAt presences) =
    true → load value (truthAt presences) tasks (value t.task.start) ≤ capacity := by
  induction rest with
  | nil => exact .pure (by simp)
  | cons task rest ih =>
    refine .spend_bind (.bind (isPresent_spec task) fun present hpresent => ?_)
    subst hpresent
    refine .ite (fun h => ?_) fun h => ?_
    · refine .bind (loadLoop_spec (value task.task.start) tasks 0) fun total htotal => ?_
      rw [zero_add] at htotal
      subst htotal
      refine .ite (fun hgt => .pure ?_) fun hle => ?_
      · exact iff_of_false Bool.false_ne_true fun hall =>
          absurd (hall task mem_cons_self h) (not_le.mpr hgt)
      · refine ih.mono fun b hb => ?_
        rw [hb, forall_mem_cons]
        exact (and_iff_right fun _ => not_lt.mp hle).symm
    · refine ih.mono fun b hb => ?_
      rw [hb, forall_mem_cons]
      exact (and_iff_right fun htrue => absurd htrue h).symm

theorem sum_filter_le {P Q : ScheduledTask → Prop} [DecidablePred P] [DecidablePred Q] {tasks : List ScheduledTask}
    (hdemand : ∀ t ∈ tasks, 0 ≤ t.task.demand) (himp : ∀ t ∈ tasks, P t → Q t) :
    ((tasks.filter (P ·)).map (·.task.demand)).sum ≤ ((tasks.filter (Q ·)).map (·.task.demand)).sum := by
  induction tasks with
  | nil => simp
  | cons task tasks ih =>
    rw [forall_mem_cons] at hdemand himp
    have htail := ih hdemand.2 himp.2
    rw [filter_cons, filter_cons]
    by_cases hP : P task
    · simp only [hP, himp.1 hP, decide_true, if_true, map_cons, sum_cons]
      omega
    · by_cases hQ : Q task
      · simp only [hP, hQ, decide_true, decide_false, if_true, Bool.false_eq_true, if_false, map_cons, sum_cons]
        omega
      · simpa only [hP, hQ, decide_false, Bool.false_eq_true, if_false] using htail

theorem exists_lt_starts (tasks : List ScheduledTask) : ∃ time, ∀ t ∈ tasks, time < value t.task.start := by
  induction tasks with
  | nil => exact ⟨0, by simp⟩
  | cons task tasks ih =>
    obtain ⟨time, h⟩ := ih
    refine ⟨min time (value task.task.start - 1), ?_⟩
    rw [forall_mem_cons]
    refine ⟨by omega, fun t ht => ?_⟩
    have := h t ht
    omega

theorem cumulative_iff {tasks : List ScheduledTask} {capacity : ℤ} {truths : ℕ → Bool}
    (hdemand : ∀ t ∈ tasks, 0 ≤ t.task.demand) : (Constraint.cumulative tasks capacity).Holds value truths ↔
    0 ≤ capacity ∧ ∀ t ∈ tasks, t.present truths = true → load value truths tasks (value t.task.start) ≤ capacity := by
  constructor
  · intro h
    refine ⟨?_, fun t _ _ => h _⟩
    obtain ⟨time, hbefore⟩ := @exists_lt_starts value tasks
    have hidle : load value truths tasks time = 0 := by
      have hempty : tasks.filter (·.Running value truths time) = [] := by
        rw [filter_eq_nil_iff]
        intro t ht hrunning
        have hstart := (of_decide_eq_true hrunning).2.1
        exact absurd (hbefore t ht) (not_lt.mpr hstart)
      rw [load, hempty, map_nil, sum_nil]
    exact hidle ▸ h time
  · rintro ⟨hcapacity, hstarts⟩ time
    by_cases hempty : tasks.filter (·.Running value truths time) = []
    · rw [load, hempty]
      exact hcapacity
    · -- the running task that started last
      obtain ⟨t, ht, hlast⟩ := (tasks.filter (·.Running value truths time)).toFinset.exists_max_image
        (fun t => value t.task.start) ((toFinset_nonempty_iff _).mpr hempty)
      rw [mem_toFinset, mem_filter, decide_eq_true_eq] at ht
      obtain ⟨hmem, hpresent, hstart, -⟩ := ht
      refine le_trans (sum_filter_le hdemand fun k hk hrunning => ?_) (hstarts t hmem hpresent)
      have hle := hlast k (by simpa using ⟨hk, hrunning⟩)
      exact ⟨hrunning.1, hle, hstart.trans_lt hrunning.2.2⟩

end

theorem satisfiedBy_spec {presences : List Bool} (c : Constraint)
    (hdemand : ∀ tasks capacity, c = .cumulative tasks capacity → ∀ t ∈ tasks, 0 ≤ t.task.demand) :
    Ensures (satisfiedBy value presences c) fun b => b = true ↔ c.Holds value (truthAt presences) := by
  cases c with
  | allDifferent vars => exact allDifferentLoop_spec [] vars nodup_nil
  | table statement => exact tableLoop_spec statement.vars statement.rows statement.arity
  | regular vars initial accepting edges =>
    refine .bind (regularLoop_spec edges vars {initial}) fun states hstates => .pure ?_
    simp [Constraint.Holds, hstates]
  | circuit vars =>
    refine .ite (fun hempty => .pure ?_) fun hne => ?_
    · rw [List.isEmpty_iff] at hempty
      subst hempty
      exact iff_of_true rfl ⟨fun i => i, fun i => i.elim0, fun i => i.elim0⟩
    · have hpos : 0 < vars.length := by
        rw [List.isEmpty_iff] at hne
        exact List.length_pos_iff.mpr hne
      refine .bind (circuit_spec vars (truthAt presences) hpos) fun node hnode => .pure ?_
      rw [beq_iff_eq, hnode]
  | cumulative tasks capacity =>
    refine .ite (fun hneg => .pure ?_) fun hcapacity => ?_
    · rw [cumulative_iff (hdemand tasks capacity rfl)]
      exact iff_of_false Bool.false_ne_true fun h => absurd hneg (not_lt.mpr h.1)
    · refine (cumulativeLoop_spec tasks capacity tasks).mono fun b hb => ?_
      rw [hb, cumulative_iff (hdemand tasks capacity rfl)]
      exact (and_iff_right (not_lt.mp hcapacity)).symm

end Nixie.Cp
