import Mathlib.Data.List.Sort
import Nixie.Sat.Cardinality
import Nixie.Sat.Solver
import Nixie.Xor.Matrix

/-!
The XOR detector of `nixie-sat/src/xor.rs`: what a detected group of clauses says, and when.  A group is keyed by its
sorted variables; the order in which the hash map hands the groups out is left open.
-/

namespace Nixie.Xor

open Parity Nixie.Sat List Option

structure XorConstraint where
  vars : List ℕ
  rhs : Bool
  sourceClauses : List ℕ
  deriving DecidableEq

def sortedVars (lits : List ℕ) : List ℕ := (lits.map (· / 2)).insertionSort (· ≤ ·)

def polarityLoop : List ℕ → List ℕ → List Bool
  | _, [] => []
  | v, lit :: lits =>
    if lit / 2 ∈ v then (lit % 2 == 0) :: polarityLoop (v.erase (lit / 2)) lits else polarityLoop v lits

def polarities (lits : List ℕ) : List Bool := polarityLoop (sortedVars lits) lits

def expectedClauseCount (size : ℕ) : Option ℕ := if 2 ≤ size ∧ size ≤ 32 then some (2 ^ (size - 1)) else none

def negCount (p : List Bool) : ℕ := p.countP (!·)

def sameParity : List (List Bool × ℕ) → Bool
  | [] => false
  | first :: rest => rest.all fun g => negCount g.1 % 2 == negCount first.1 % 2

def isValidXorEncoding (groups : List (List Bool × ℕ)) (size : ℕ) : Bool :=
  match expectedClauseCount size with
  | none => false
  | some expected => decide (groups.length = expected ∧ (groups.map Prod.fst).Nodup) && sameParity groups

def computeXorRhs (groups : List (List Bool × ℕ)) : Option Bool := groups.head?.map fun g => negCount g.1 % 2 == 0

def polarityGroup (clauses : List (List ℕ × ℕ)) (vars : List ℕ) : List (List Bool × ℕ) :=
  (clauses.filter fun c => sortedVars c.1 = vars).map fun c => (polarities c.1, c.2)

def detectGroup (eligible : List (List ℕ × ℕ)) (size : ℕ) (vars : List ℕ) : Option XorConstraint :=
  let groups := polarityGroup eligible vars
  if isValidXorEncoding groups size then
    (computeXorRhs groups).map fun rhs => ⟨vars, rhs, groups.map Prod.snd⟩
  else none

def detectXorOfSize (clauses : List (List ℕ × ℕ)) (size : ℕ) (used : List ℕ) : List XorConstraint :=
  let eligible := clauses.filter fun c => c.2 ∉ used ∧ c.1.length = size
  ((eligible.map fun c => sortedVars c.1).dedup).filterMap (detectGroup eligible size)

def detectXor (clauses : List (List ℕ × ℕ)) : List ℕ → List ℕ → List XorConstraint
  | [], _ => []
  | size :: sizes, used =>
    let xors := detectXorOfSize clauses size used
    xors ++ detectXor clauses sizes (used ++ xors.flatMap XorConstraint.sourceClauses)

def maxXorWidth : ℕ := 5

def maxGroups : ℕ := 4000000

def candidate (s : Solver) (id : ℕ) : Option (List ℕ × ℕ) :=
  match s.clauses id with
  | some c => if c.learned ∨ c.lits = [] ∨ maxXorWidth < c.lits.length then none else some (c.lits, id)
  | none => none

def candidates (s : Solver) : List (List ℕ × ℕ) := ((List.range s.nextId).filterMap (candidate s)).take maxGroups

def detectXorConstraints (s : Solver) (triviallyUnsat : Bool) : List XorConstraint :=
  if s.trail.currentLevel ≠ 0 ∨ triviallyUnsat then []
  else detectXor (candidates s) [2, 3, 4, 5] []

section

variable {clauses : List (List ℕ × ℕ)} {vars lits c d : List ℕ} {σ : ℕ → Bool} {size : ℕ}

theorem polarityLoop_eq {v : List ℕ} (h : (lits.map (· / 2)).Subperm v) :
    polarityLoop v lits = lits.map fun lit => lit % 2 == 0 := by
  induction lits generalizing v with
  | nil => rfl
  | cons lit lits ih =>
    have hmem : lit / 2 ∈ v := h.subset mem_cons_self
    have hrest : (lits.map (· / 2)).Subperm (v.erase (lit / 2)) := by
      have herase := h.erase (lit / 2)
      rwa [map_cons, erase_cons_head] at herase
    rw [polarityLoop, if_pos hmem, ih hrest, map_cons]

theorem polarities_eq : polarities lits = lits.map fun lit => lit % 2 == 0 :=
  polarityLoop_eq (perm_insertionSort _ _).symm.subperm

def negSet (lits : List ℕ) : Finset ℕ := ((lits.filter fun lit => lit % 2 == 1).map (· / 2)).toFinset

theorem mem_negSet {v : ℕ} : v ∈ negSet lits ↔ ∃ lit ∈ lits, lit % 2 = 1 ∧ lit / 2 = v := by
  simp [negSet, and_assoc]

theorem card_negSet (hnodup : (lits.map (· / 2)).Nodup) : (negSet lits).card = negCount (polarities lits) := by
  have hsub : ((lits.filter fun lit => lit % 2 == 1).map (· / 2)).Nodup := hnodup.sublist (filter_sublist.map _)
  rw [negSet, toFinset_card_of_nodup hsub, length_map, polarities_eq, negCount, countP_map, countP_eq_length_filter]
  congr 2
  funext lit
  rcases Nat.mod_two_eq_zero_or_one lit with h | h <;> simp [h]

theorem perm_of_negSet (hc : (c.map (· / 2)).Nodup) (hd : (d.map (· / 2)).Nodup) (hvars : sortedVars c = sortedVars d)
    (hneg : negSet c = negSet d) : c.Perm d := by
  have hsub : ∀ {c d : List ℕ}, (c.map (· / 2)).Nodup → (d.map (· / 2)).Nodup → sortedVars c = sortedVars d →
      negSet c = negSet d → ∀ lit ∈ c, lit ∈ d := by
    intro c d hc hd hvars hneg lit hlit
    have hvar : lit / 2 ∈ d.map (· / 2) := by
      have hmem : lit / 2 ∈ sortedVars c := (mem_insertionSort _).mpr (mem_map_of_mem hlit)
      rw [hvars] at hmem
      exact (mem_insertionSort _).mp hmem
    obtain ⟨m, hm, hmvar⟩ := mem_map.mp hvar
    have hsame : m % 2 = lit % 2 := by
      rcases Nat.mod_two_eq_zero_or_one lit with hlit0 | hlit1
      · by_contra hne
        have hmem : m / 2 ∈ negSet c := hneg ▸ mem_negSet.mpr ⟨m, hm, by omega, rfl⟩
        obtain ⟨l, hl, hl1, hlvar⟩ := mem_negSet.mp hmem
        obtain rfl := inj_on_of_nodup_map hc hl hlit (hlvar.trans hmvar)
        omega
      · have hmem : lit / 2 ∈ negSet d := hneg ▸ mem_negSet.mpr ⟨lit, hlit, hlit1, rfl⟩
        obtain ⟨l, hl, hl1, hlvar⟩ := mem_negSet.mp hmem
        obtain rfl := inj_on_of_nodup_map hd hl hm (hlvar.trans hmvar.symm)
        omega
    have heq : m = lit := by omega
    exact heq ▸ hm
  have hcnodup : c.Nodup := hc.of_map _
  have hdnodup : d.Nodup := hd.of_map _
  exact (perm_ext_iff_of_nodup hcnodup hdnodup).mpr fun lit =>
    ⟨hsub hc hd hvars hneg lit, hsub hd hc hvars.symm hneg.symm lit⟩

def groupOf (clauses : List (List ℕ × ℕ)) (vars : List ℕ) : List (List ℕ × ℕ) :=
  clauses.filter fun c => sortedVars c.1 = vars

theorem polarityGroup_eq : polarityGroup clauses vars = (groupOf clauses vars).map fun c => (polarities c.1, c.2) := rfl

theorem sameParity_cons {first : List Bool × ℕ} {rest : List (List Bool × ℕ)} (h : sameParity (first :: rest) = true) :
    ∀ g ∈ first :: rest, negCount g.1 % 2 = negCount first.1 % 2 := by
  intro g hg
  rcases mem_cons.mp hg with rfl | hg
  · rfl
  · exact beq_iff_eq.mp (all_eq_true.mp h g hg)

theorem not_isTrue_of_negSet {lit : ℕ} (hnodup : (lits.map (· / 2)).Nodup) (hlit : lit ∈ lits)
    (hiff : lit / 2 ∈ negSet lits ↔ σ (lit / 2) = true) : ¬ Sat.isTrue σ lit = true := by
  have hodd : lit / 2 ∈ negSet lits ↔ lit % 2 = 1 := by
    rw [mem_negSet]
    constructor
    · rintro ⟨l, hl, hl1, hlvar⟩
      rwa [← inj_on_of_nodup_map hnodup hl hlit hlvar]
    · exact fun h => ⟨lit, hlit, h, rfl⟩
  intro htrue
  rw [Sat.isTrue, beq_iff_eq] at htrue
  rcases Nat.mod_two_eq_zero_or_one lit with h0 | h1
  · have hnot : ¬ σ (lit / 2) = true := fun h => by have := hodd.mp (hiff.mpr h); omega
    exact hnot (htrue.trans (by simp [h0]))
  · have hyes := hiff.mp (hodd.mpr h1)
    rw [htrue, h1] at hyes
    cases hyes

/-- A group without a repeated clause holds one for each set of negated variables of its parity. -/
theorem exists_negSet_eq (hwf : ∀ c ∈ groupOf clauses vars, (c.1.map (· / 2)).Nodup)
    (hvalid : isValidXorEncoding (polarityGroup clauses vars) vars.length = true)
    (hdistinct : (groupOf clauses vars).Pairwise fun c d => ¬ c.1.Perm d.1) {N : Finset ℕ} (hN : N ⊆ vars.toFinset)
    (hcount : ∀ c ∈ groupOf clauses vars, negCount (polarities c.1) % 2 = N.card % 2) :
    ∃ c ∈ groupOf clauses vars, negSet c.1 = N := by
  have hkey : ∀ c ∈ groupOf clauses vars, sortedVars c.1 = vars := fun c hc => of_decide_eq_true (mem_filter.mp hc).2
  unfold isValidXorEncoding at hvalid
  split at hvalid
  · cases hvalid
  next expected hexpected =>
    have hlength : (polarityGroup clauses vars).length = expected :=
      (of_decide_eq_true (Bool.and_eq_true_iff.mp hvalid).1).1
    obtain ⟨hsize, rfl⟩ : (2 ≤ vars.length ∧ vars.length ≤ 32) ∧ 2 ^ (vars.length - 1) = expected := by
      unfold expectedClauseCount at hexpected
      split_ifs at hexpected with hsize
      exact ⟨hsize, some.inj hexpected⟩
    rw [polarityGroup_eq, length_map] at hlength
    have hvars : vars.Nodup := by
      have hpos : 0 < (groupOf clauses vars).length := hlength ▸ Nat.two_pow_pos _
      have hfirst := getElem_mem hpos
      rw [← hkey _ hfirst]
      exact (perm_insertionSort _ _).nodup_iff.mpr (hwf _ hfirst)
    have hcard : vars.toFinset.card = vars.length := toFinset_card_of_nodup hvars
    have hnegs : ((groupOf clauses vars).map fun c => negSet c.1).Nodup := by
      refine pairwise_map.mpr (hdistinct.imp_of_mem fun {c d} hc hd hne heq => hne ?_)
      exact perm_of_negSet (hwf c hc) (hwf d hd) ((hkey c hc).trans (hkey d hd).symm) heq
    have hmem := mem_of_parity (V := vars.toFinset) (p := N.card % 2)
      (F := ((groupOf clauses vars).map fun c => negSet c.1).toFinset) (N := N)
      (by rw [← Finset.card_pos, hcard]; omega) ?_ ?_ hN rfl
    · exact mem_map.mp (List.mem_toFinset.mp hmem)
    · intro M hM
      obtain ⟨c, hc, rfl⟩ := mem_map.mp (List.mem_toFinset.mp hM)
      refine ⟨fun v hv => ?_, (congrArg (· % 2) (card_negSet (hwf c hc))).trans (hcount c hc)⟩
      obtain ⟨lit, hlit, -, rfl⟩ := mem_negSet.mp hv
      rw [List.mem_toFinset, ← hkey c hc]
      exact (mem_insertionSort _).mpr (mem_map_of_mem hlit)
    · rw [toFinset_card_of_nodup hnegs, length_map, hcard, hlength]

theorem sameParity_of_valid {group : List (List ℕ × ℕ)} {rhs : Bool}
    (hvalid : isValidXorEncoding (group.map fun c => (polarities c.1, c.2)) size = true)
    (hrhs : computeXorRhs (group.map fun c => (polarities c.1, c.2)) = some rhs) :
    ∀ c ∈ group, (negCount (polarities c.1) % 2 == 0) = rhs := by
  cases group with
  | nil => exact fun _ hc => absurd hc not_mem_nil
  | cons first rest =>
    have hsame : sameParity ((polarities first.1, first.2) :: rest.map fun c => (polarities c.1, c.2)) = true := by
      unfold isValidXorEncoding at hvalid
      split at hvalid
      · cases hvalid
      · exact (Bool.and_eq_true_iff.mp hvalid).2
    intro c hc
    have hmem : (polarities c.1, c.2) ∈ (first :: rest).map fun c => (polarities c.1, c.2) := mem_map.mpr ⟨c, hc, rfl⟩
    rw [sameParity_cons hsame _ hmem]
    exact some.inj hrhs

theorem group_parity (hwf : ∀ c ∈ groupOf clauses vars, (c.1.map (· / 2)).Nodup)
    (hvalid : isValidXorEncoding (polarityGroup clauses vars) vars.length = true)
    (hdistinct : (groupOf clauses vars).Pairwise fun c d => ¬ c.1.Perm d.1) {rhs : Bool}
    (hrhs : computeXorRhs (polarityGroup clauses vars) = some rhs)
    (hσ : ∀ c ∈ groupOf clauses vars, ∃ lit ∈ c.1, Sat.isTrue σ lit) : parity σ vars.toFinset = rhs := by
  by_contra hne
  -- the variables true in the valuation are the negative ones of a clause, which is then false
  obtain ⟨c, hc, hneg⟩ := exists_negSet_eq hwf hvalid hdistinct (N := vars.toFinset.filter fun v => σ v)
    (Finset.filter_subset _ _) fun c hc => by
      have hrhs := sameParity_of_valid hvalid hrhs c hc
      rw [parity] at hne
      rcases Nat.mod_two_eq_zero_or_one (vars.toFinset.filter fun v => σ v).card with h | h <;>
        rcases Nat.mod_two_eq_zero_or_one (negCount (polarities c.1)) with h' | h' <;> simp_all
  obtain ⟨lit, hlit, htrue⟩ := hσ c hc
  have hvar : lit / 2 ∈ vars := by
    rw [← (of_decide_eq_true (mem_filter.mp hc).2 : sortedVars c.1 = vars)]
    exact (mem_insertionSort _).mpr (mem_map_of_mem hlit)
  have hiff : lit / 2 ∈ negSet c.1 ↔ σ (lit / 2) = true := by
    rw [hneg, Finset.mem_filter, List.mem_toFinset, and_iff_right hvar]
  exact not_isTrue_of_negSet (hwf c hc) hlit hiff htrue

end

section

variable {clauses : List (List ℕ × ℕ)} {xc : XorConstraint}

theorem length_sortedVars {lits : List ℕ} : (sortedVars lits).length = lits.length := by
  rw [sortedVars, length_insertionSort, length_map]

theorem mem_detectXorOfSize {size : ℕ} {used : List ℕ} (hused : ∀ c ∈ clauses, c.2 ∈ used → c.1.length ≠ size)
    (h : xc ∈ detectXorOfSize clauses size used) : xc.vars.length = size ∧
    isValidXorEncoding (polarityGroup clauses xc.vars) xc.vars.length = true ∧
    computeXorRhs (polarityGroup clauses xc.vars) = some xc.rhs ∧
    xc.sourceClauses = (polarityGroup clauses xc.vars).map Prod.snd := by
  obtain ⟨vars, hvars, hgroup⟩ := mem_filterMap.mp h
  obtain ⟨c, hc, rfl⟩ := mem_map.mp (mem_dedup.mp hvars)
  have hlength : c.1.length = size := by simpa using (of_decide_eq_true (mem_filter.mp hc).2).2
  have hsame : polarityGroup (clauses.filter fun c => c.2 ∉ used ∧ c.1.length = size) (sortedVars c.1) =
      polarityGroup clauses (sortedVars c.1) := by
    rw [polarityGroup, polarityGroup, List.filter_filter]
    congr 1
    refine List.filter_congr fun d hd => ?_
    by_cases heq : sortedVars d.1 = sortedVars c.1
    · have hdlength : d.1.length = size := by rw [← length_sortedVars, heq, length_sortedVars, hlength]
      have hdused : d.2 ∉ used := fun hmem => hused d hd hmem hdlength
      simp [heq, hdlength, hdused]
    · simp [heq]
  unfold detectGroup at hgroup
  dsimp only at hgroup
  rw [hsame] at hgroup
  split_ifs at hgroup with hvalid
  obtain ⟨rhs, hrhs, rfl⟩ := map_eq_some_iff.mp hgroup
  have hsize : (sortedVars c.1).length = size := length_sortedVars.trans hlength
  exact ⟨hsize, by rwa [hsize], hrhs, rfl⟩

theorem mem_detectXor {sizes used : List ℕ} (hids : (clauses.map Prod.snd).Nodup) (hsizes : sizes.Nodup)
    (hused : ∀ c ∈ clauses, c.2 ∈ used → c.1.length ∉ sizes) (h : xc ∈ detectXor clauses sizes used) :
    isValidXorEncoding (polarityGroup clauses xc.vars) xc.vars.length = true ∧
    computeXorRhs (polarityGroup clauses xc.vars) = some xc.rhs := by
  induction sizes generalizing used with
  | nil => cases h
  | cons size sizes ih =>
    obtain ⟨hsize, hsizes⟩ := nodup_cons.mp hsizes
    have husedSize : ∀ c ∈ clauses, c.2 ∈ used → c.1.length ≠ size := fun c hc hmem heq =>
      hused c hc hmem (heq ▸ mem_cons_self)
    rcases mem_append.mp h with h | h
    · obtain ⟨-, hvalid, hrhs, -⟩ := mem_detectXorOfSize husedSize h
      exact ⟨hvalid, hrhs⟩
    · refine ih hsizes (fun c hc hmem hin => ?_) h
      rcases mem_append.mp hmem with hmem | hmem
      · exact hused c hc hmem (mem_cons_of_mem _ hin)
      · obtain ⟨other, hother, hsource⟩ := mem_flatMap.mp hmem
        obtain ⟨hlength, -, -, hsources⟩ := mem_detectXorOfSize husedSize hother
        rw [hsources, polarityGroup, List.map_map] at hsource
        obtain ⟨d, hd, hid⟩ := List.mem_map.mp hsource
        obtain ⟨hd, hkey⟩ := List.mem_filter.mp hd
        obtain rfl := List.inj_on_of_nodup_map hids hd hc hid
        have hlen : d.1.length = size := by
          rw [← length_sortedVars, of_decide_eq_true hkey, hlength]
        exact hsize (hlen ▸ hin)

def NoReordered (clauses : List (List ℕ × ℕ)) : Prop :=
  ∀ vars, isValidXorEncoding (polarityGroup clauses vars) vars.length = true →
    (groupOf clauses vars).Pairwise fun c d => ¬ c.1.Perm d.1

def problemClauses (s : Solver) : List (List ℕ) :=
  (List.range s.nextId).filterMap fun id => ((s.clauses id).filter fun c => !c.learned).map Clause.lits

theorem mem_candidates {s : Solver} {c : List ℕ × ℕ} (h : c ∈ candidates s) :
    c.2 < s.nextId ∧ ∃ stored, s.clauses c.2 = some stored ∧ stored.learned = false ∧ stored.lits = c.1 := by
  obtain ⟨id, hid, hc⟩ := mem_filterMap.mp (mem_of_mem_take h)
  unfold candidate at hc
  split at hc
  next stored hstored =>
    split_ifs at hc with hskip
    obtain rfl := some.inj hc
    rw [not_or] at hskip
    exact ⟨mem_range.mp hid, stored, hstored, Bool.eq_false_iff.mpr hskip.1, rfl⟩
  next => cases hc

theorem candidates_nodup (s : Solver) : ((candidates s).map Prod.snd).Nodup := by
  refine List.Nodup.sublist (List.Sublist.map _ (take_sublist _ _)) ?_
  rw [map_filterMap]
  have hid : ∀ a b, b ∈ Option.map Prod.snd (candidate s a) → a = b := by
    intro a b hb
    obtain ⟨c, hc, rfl⟩ := map_eq_some_iff.mp hb
    unfold candidate at hc
    split at hc
    · split_ifs at hc
      exact congrArg Prod.snd (some.inj hc)
    · cases hc
  exact nodup_range.filterMap fun a a' b hb hb' => (hid a b hb).trans (hid a' b hb').symm

theorem detectXorConstraints_sound {s : Solver} {triviallyUnsat : Bool}
    (hwf : ∀ id c, s.clauses id = some c → (c.lits.map (· / 2)).Nodup) (hno : NoReordered (candidates s))
    (h : xc ∈ detectXorConstraints s triviallyUnsat) {σ : ℕ → Bool} (hσ : Satisfies σ (problemClauses s)) :
    parity σ xc.vars.toFinset = xc.rhs := by
  unfold detectXorConstraints at h
  split_ifs at h
  · cases h
  · obtain ⟨hvalid, hrhs⟩ := mem_detectXor (candidates_nodup s) (by decide) (fun _ _ hmem => absurd hmem not_mem_nil) h
    refine group_parity (fun c hc => ?_) hvalid (hno _ hvalid) hrhs fun c hc => ?_
    · obtain ⟨-, stored, hstored, -, hlits⟩ := mem_candidates (mem_filter.mp hc).1
      exact hlits ▸ hwf _ _ hstored
    · obtain ⟨hlt, stored, hstored, hlearned, hlits⟩ := mem_candidates (mem_filter.mp hc).1
      have hmem : c.1 ∈ problemClauses s := by
        refine mem_filterMap.mpr ⟨c.2, mem_range.mpr hlt, ?_⟩
        rw [hstored]
        simp [hlearned, hlits]
      exact hσ c.1 hmem

end

end Nixie.Xor
