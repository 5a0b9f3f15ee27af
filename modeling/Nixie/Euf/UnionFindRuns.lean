import Nixie.Euf.UnionFind

/-!
Runs of the union-find: what is found agrees with the unions of the open scopes, and closing a scope
goes back to the arrays at its push.
-/

namespace Nixie.Euf.UnionFind

open Undo

inductive Reaches : UnionFind → List (ℕ × ℕ) → List (UnionFind × List (ℕ × ℕ)) → Prop
  | start (n : ℕ) : Reaches { size := n } [] []
  | find {uf unions opens} (h : Reaches uf unions opens) (x : ℕ) (hx : x < uf.size) :
      Reaches (uf.find x).1 unions opens
  | same {uf unions opens} (h : Reaches uf unions opens) (x y : ℕ) (hx : x < uf.size) (hy : y < uf.size) :
      Reaches (uf.same x y).1 unions opens
  | union {uf unions opens} (h : Reaches uf unions opens) (x y : ℕ) (hx : x < uf.size) (hy : y < uf.size) :
      Reaches (uf.union x y) ((x, y) :: unions) opens
  | add {uf unions opens} (h : Reaches uf unions opens) : Reaches uf.add unions opens
  | push {uf unions opens} (h : Reaches uf unions opens) : Reaches uf.push unions ((uf, unions) :: opens)
  | pop {uf unions saved unions' opens} (h : Reaches uf unions ((saved, unions') :: opens)) :
      Reaches uf.pop unions' opens

variable {uf uf' : UnionFind} {n x y a b fuel : ℕ} {unions : List (ℕ × ℕ)}
  {opens : List (UnionFind × List (ℕ × ℕ))}

theorem WF.compress_succ (h : uf.WF n) (hf : (uf.above n x).card ≤ fuel) : UnionFind.compress (uf.findNoCompress x)
    (fuel + 1) x uf = UnionFind.compress (uf.findNoCompress x) fuel x uf := by
  induction fuel generalizing uf x with
  | zero =>
    have hx : uf.parent x = x := by
      by_contra hne
      exact absurd (h.above_parent hne) (by omega)
    rw [root_of_fixed hx, UnionFind.compress, UnionFind.compress, if_pos hx]
  | succ fuel ih =>
    by_cases hroot : uf.parent x = uf.findNoCompress x
    · rw [UnionFind.compress, if_pos hroot, UnionFind.compress, if_pos hroot]
    · have hx : uf.parent x ≠ x := fun hx => hroot (by rw [root_of_fixed hx, hx])
      obtain ⟨hwf, hsame⟩ := h.setRoot hroot (if uf.inScope then .compress x (uf.parent x) :: uf.trail
        else uf.trail)
      have hless := h.above_parent hx
      have hrest := ih hwf (x := uf.parent x) (by show (uf.above n (uf.parent x)).card ≤ fuel; omega)
      rw [hsame, h.root_parent] at hrest
      refine Eq.trans ?_ (hrest.trans ?_)
      · rw [UnionFind.compress, if_neg hroot]
      · rw [UnionFind.compress, if_neg hroot]

theorem WF.find_turns (h : uf.WF n) (hf : uf.size ≤ fuel) :
    findFrom uf.parent fuel x = (uf.find x).2 ∧ UnionFind.compress (uf.find x).2 fuel x uf = (uf.find x).1 := by
  induction fuel, hf using Nat.le_induction with
  | base => exact ⟨rfl, rfl⟩
  | succ fuel hle ih =>
    refine ⟨?_, (h.compress_succ (h.above_le.trans hle)).trans ih.2⟩
    rw [findFrom_succ (by rw [ih.1]; exact h.parent_root), ih.1]

def Related (unions : List (ℕ × ℕ)) : ℕ → ℕ → Prop := Relation.EqvGen fun x y => (x, y) ∈ unions

theorem Related.cons (h : Related unions x y) (p : ℕ × ℕ) : Related (p :: unions) x y :=
  Relation.EqvGen.mono (fun _ _ hmem => List.mem_cons_of_mem _ hmem) _ _ h

theorem related_head : Related ((a, b) :: unions) a b := .rel _ _ List.mem_cons_self

theorem Related.congr {f : ℕ → ℕ} (hf : ∀ x y, (x, y) ∈ unions → f x = f y) (h : Related unions x y) : f x = f y := by
  induction h with
  | rel x y hxy => exact hf x y hxy
  | refl x => rfl
  | symm x y _ ih => exact ih.symm
  | trans x y z _ _ ih1 ih2 => exact ih1.trans ih2

theorem related_joined {f f' : ℕ → ℕ} (hf : ∀ x y, f x = f y ↔ Related unions x y) {loser winner : ℕ}
    (hends : loser = f a ∧ winner = f b ∨ loser = f b ∧ winner = f a)
    (hf' : ∀ x, f' x = if f x = loser then winner else f x) :
    f' x = f' y ↔ Related ((a, b) :: unions) x y := by
  have hjoin : ∀ x y, f x = loser → f y = winner → Related ((a, b) :: unions) x y := by
    intro x y hx hy
    rcases hends with ⟨rfl, rfl⟩ | ⟨rfl, rfl⟩
    · exact (((hf _ _).mp hx).cons _).trans _ _ _ (related_head.trans _ _ _ (((hf _ _).mp hy.symm).cons _))
    · exact (((hf _ _).mp hx).cons _).trans _ _ _ ((related_head.symm _ _).trans _ _ _ (((hf _ _).mp hy.symm).cons _))
  constructor
  · intro heq
    rw [hf', hf'] at heq
    split at heq
    · next hx =>
      split at heq
      · next hy => exact ((hf x y).mp (hx.trans hy.symm)).cons _
      · exact hjoin x y hx heq.symm
    · split at heq
      · next hy => exact (hjoin y x hy heq).symm _ _
      · exact ((hf x y).mp heq).cons _
  · refine Related.congr fun x y hmem => ?_
    rcases List.mem_cons.mp hmem with heq | hmem
    · obtain ⟨rfl, rfl⟩ := Prod.mk.inj heq
      rw [hf', hf']
      rcases hends with ⟨rfl, rfl⟩ | ⟨rfl, rfl⟩ <;> simp
    · rw [hf', hf', (hf x y).mpr (.rel _ _ hmem)]

structure Sound (uf : UnionFind) (unions : List (ℕ × ℕ)) : Prop where
  wf : uf.WF uf.size
  root : ∀ x y, uf.findNoCompress x = uf.findNoCompress y ↔ Related unions x y

def Scoped : UnionFind → List (UnionFind × List (ℕ × ℕ)) → Prop
  | uf, [] => uf.trailLimits = [0]
  | uf, (saved, unions) :: opens =>
    uf.trailLimits = saved.trail.length :: saved.trailLimits ∧ saved.Extends uf ∧ saved.size ≤ uf.size ∧
      saved.Sound unions ∧ Scoped saved opens

theorem Scoped.inScope {saved : UnionFind} (h : Scoped uf ((saved, unions) :: opens)) : uf.inScope = true := by
  obtain ⟨hlimits, _, _, _, hsaved⟩ := h
  have hpos : 0 < saved.trailLimits.length := by
    cases opens with
    | nil => simp [show saved.trailLimits = [0] from hsaved]
    | cons o opens => simp [show saved.trailLimits = _ from hsaved.1]
  simp only [UnionFind.inScope, hlimits, List.length_cons, decide_eq_true_eq]
  omega

theorem Scoped.keep (h : Scoped uf opens) (hlimits : uf'.trailLimits = uf.trailLimits)
    (hsize : uf.size ≤ uf'.size) (hext : uf.inScope → uf.Extends uf') : Scoped uf' opens := by
  cases opens with
  | nil => exact hlimits.trans h
  | cons o opens =>
    have hin := h.inScope
    obtain ⟨h1, h2, h3, h4, h5⟩ := h
    exact ⟨hlimits.trans h1, h2.trans (hext hin), h3.trans hsize, h4, h5⟩

theorem Sound.agrees (h : Sound uf unions) (ha : Agrees uf.size uf uf') : Sound uf' unions :=
  ⟨ha.size ▸ ha.wf, by rw [ha.root]; exact h.root⟩

theorem WF.grow (h : uf.WF n) {m : ℕ} (hn : n ≤ m) :
    ({ uf with size := m } : UnionFind).WF m ∧
      ({ uf with size := m } : UnionFind).findNoCompress = uf.findNoCompress := by
  have hgrown : ({ uf with size := m } : UnionFind).WF n := ⟨h.lt, h.out, h.rank, hn⟩
  exact ⟨hgrown.mono hn le_rfl, hgrown.root_eq (fun x hx => root_of_fixed hx) fun x => h.root_parent⟩

theorem Sound.grow (h : Sound uf unions) {m : ℕ} (hm : uf.size ≤ m) : Sound { uf with size := m } unions := by
  obtain ⟨hwf, hroot⟩ := h.wf.grow hm
  exact ⟨hwf, by rw [hroot]; exact h.root⟩

theorem Sound.union (h : Sound uf unions) (hx : x < uf.size) (hy : y < uf.size) :
    Sound (uf.union x y) ((x, y) :: unions) ∧ (uf.union x y).size = uf.size ∧
    (uf.union x y).trailLimits = uf.trailLimits ∧ uf.Extends (uf.union x y) := by
  by_cases heq : uf.findNoCompress x = uf.findNoCompress y
  · have hsame : uf.union x y = uf := by simp [UnionFind.union, heq]
    rw [hsame]
    refine ⟨⟨h.wf, fun a b => ⟨fun hab => ((h.root a b).mp hab).cons _, ?_⟩⟩, rfl, rfl, .refl⟩
    refine Related.congr fun a b hmem => ?_
    rcases List.mem_cons.mp hmem with hpair | hmem
    · obtain ⟨rfl, rfl⟩ := Prod.mk.inj hpair
      exact heq
    · exact (h.root a b).mpr (.rel _ _ hmem)
  · obtain ⟨loser, winner, hends, hj⟩ := h.wf.union hx hy heq
    exact ⟨⟨hj.size ▸ hj.wf, fun a b => related_joined h.root hends hj.root⟩, hj.size, hj.trailLimits, hj.extends_⟩

theorem Scoped.pop_eq {saved : UnionFind} (h : Scoped uf ((saved, unions) :: opens)) :
    uf.pop = { saved with size := uf.size } := h.2.1.pop_eq h.1

theorem Reaches.sound (h : Reaches uf unions opens) : Sound uf unions ∧ Scoped uf opens := by
  induction h with
  | start n =>
    have hwf : ({ size := n } : UnionFind).WF n :=
      ⟨fun x hx => hx, fun _ _ => ⟨rfl, rfl⟩, fun x hx => absurd rfl hx, le_rfl⟩
    refine ⟨⟨hwf, fun x y => ?_⟩, rfl⟩
    rw [root_of_fixed rfl, root_of_fixed rfl]
    exact ⟨fun hxy => hxy ▸ .refl _, Related.congr (f := id) (by simp)⟩
  | find _ x hx ih =>
    have ha := ih.1.wf.find (x := x)
    exact ⟨ih.1.agrees ha, ih.2.keep ha.trailLimits ha.size.ge ha.extends_⟩
  | same _ x y hx hy ih =>
    have ha := ih.1.wf.same (x := x) (y := y)
    exact ⟨ih.1.agrees ha, ih.2.keep ha.trailLimits ha.size.ge ha.extends_⟩
  | union _ x y hx hy ih =>
    obtain ⟨h1, h2, h3, h4⟩ := ih.1.union hx hy
    exact ⟨h1, ih.2.keep h3 h2.ge fun _ => h4⟩
  | @add uf unions opens _ ih =>
    have hsound := ih.1.grow (Nat.le_succ uf.size)
    rw [← ih.1.wf.add_eq] at hsound
    exact ⟨hsound, ih.2.keep rfl (Nat.le_succ _) fun _ => ih.1.wf.extends_add⟩
  | @push uf unions opens _ ih =>
    exact ⟨⟨⟨ih.1.wf.lt, ih.1.wf.out, ih.1.wf.rank, le_rfl⟩, ih.1.root⟩, rfl, .refl, le_rfl, ih.1, ih.2⟩
  | @pop uf unions saved unions' opens _ ih =>
    obtain ⟨_, _, hsize, hsaved, hrest⟩ := ih.2
    rw [ih.2.pop_eq]
    exact ⟨hsaved.grow hsize, hrest.keep rfl hsize fun _ => .refl⟩

/-- In every run the searches end, find agrees with the unions of the open scopes, and closing a scope
restores both arrays. -/
theorem unionFind_backtracks (h : Reaches uf unions opens) :
    (∀ x, uf.parent (uf.find x).2 = (uf.find x).2 ∧ ∀ fuel, uf.size ≤ fuel →
    findFrom uf.parent fuel x = (uf.find x).2 ∧ UnionFind.compress (uf.find x).2 fuel x uf = (uf.find x).1) ∧
    (∀ x y, ((uf.find x).2 = (uf.find y).2 ↔ Related unions x y) ∧ ((uf.same x y).2 = true ↔ Related unions x y)) ∧
    ∀ saved unions' rest, opens = (saved, unions') :: rest → ∀ x < saved.size, uf.pop.parent x = saved.parent x ∧
    uf.pop.rank x = saved.rank x := by
  obtain ⟨hs, hscoped⟩ := h.sound
  refine ⟨fun x => ⟨hs.wf.parent_root, fun fuel hf => hs.wf.find_turns hf⟩, fun x y => ⟨hs.root x y, ?_⟩, ?_⟩
  · rw [hs.wf.same_snd, sameNoCompress, decide_eq_true_eq]
    exact hs.root x y
  · rintro saved unions' rest rfl x _
    rw [hscoped.pop_eq]
    exact ⟨rfl, rfl⟩

theorem unionFind_backtracks_deep :
    let uf := (((({ size := 4 } : UnionFind).push.union 0 1).union 2 3).union 0 2 |>.find 3).1
    uf.trail.length = 4 ∧ ∀ x < 4, uf.pop.parent x = x :=
  ⟨rfl, fun x hx => ((unionFind_backtracks (.find (.union (.union (.union (.push (.start 4)) 0 1
    (by decide) (by decide)) 2 3 (by decide) (by decide)) 0 2 (by decide) (by decide)) 3
    (by decide))).2.2 _ _ _ rfl x hx).1⟩

end Nixie.Euf.UnionFind
