import Mathlib.Data.Finset.Max
import Nixie.Strings.Membership

namespace Nixie.Strings

open Language Computability Nixie.Quotient Bounds
open List hiding isEmpty

variable [UnicodeTable]

namespace Regex

section

inductive Node : Regex → Regex → Prop
  | root (r : Regex) : Node r r
  | operand {r s t} (h : s ∈ r.op.operands) (ht : Node s t) : Node r t

def Respects (f : Char → Char) (r : Regex) : Prop :=
  match r.op with
  | .char a => ∀ c, f c = a ↔ c = a
  | .range lo hi => ∀ c, lo ≤ f c ∧ f c ≤ hi ↔ lo ≤ c ∧ c ≤ hi
  | .unicodeClass cat => ∀ c, UnicodeTable.contains cat (f c) = UnicodeTable.contains cat c
  | _ => True

variable {f : Char → Char} {r : Regex} {w : List Char}

omit [UnicodeTable] in
theorem map_mem_letters {p : Char → Prop} (h : ∀ c, p (f c) ↔ p c) : w.map f ∈ letters p ↔ w ∈ letters p := by
  rw [mem_letters, mem_letters]
  constructor
  · rintro ⟨c, hc, hw⟩
    obtain ⟨b, rfl, rfl⟩ := List.map_eq_singleton_iff.mp hw
    exact ⟨b, (h b).mp hc, rfl⟩
  · rintro ⟨c, hc, rfl⟩
    exact ⟨f c, (h c).mpr hc, rfl⟩

def Saturated (f : Char → Char) (L : Language Char) : Prop :=
  ∀ w, w.map f ∈ L ↔ w ∈ L

omit [UnicodeTable] in
theorem saturated_one : Saturated f 1 := fun w => by simp [mem_one]

variable {L : Language Char}

omit [UnicodeTable] in
theorem Saturated.mul {M : Language Char} (hL : Saturated f L) (hM : Saturated f M) : Saturated f (L * M) := by
  intro w
  rw [mem_mul, mem_mul]
  constructor
  · rintro ⟨x, hx, y, hy, hxy⟩
    obtain ⟨x, y, rfl, rfl, rfl⟩ := List.map_eq_append_iff.mp hxy.symm
    exact ⟨x, (hL x).mp hx, y, (hM y).mp hy, rfl⟩
  · rintro ⟨x, hx, y, hy, rfl⟩
    exact ⟨x.map f, (hL x).mpr hx, y.map f, (hM y).mpr hy, List.map_append.symm⟩

omit [UnicodeTable] in
theorem Saturated.pow (hL : Saturated f L) (k : ℕ) : Saturated f (L ^ k) := by
  induction k with
  | zero => rw [pow_zero]; exact saturated_one
  | succ k ih => rw [pow_succ]; exact ih.mul hL

omit [UnicodeTable] in
theorem Saturated.kstar (hL : Saturated f L) : Saturated f (L∗) := by
  intro w
  rw [kstar_eq_iSup_pow, mem_iSup, mem_iSup]
  exact exists_congr fun k => hL.pow k w

omit [UnicodeTable] in
theorem Saturated.prod {Ls : List (Language Char)} (h : ∀ L ∈ Ls, Saturated f L) : Saturated f Ls.prod := by
  induction Ls with
  | nil => exact saturated_one
  | cons L Ls ih =>
    rw [forall_mem_cons] at h
    rw [prod_cons]
    exact h.1.mul (ih h.2)

theorem saturated_lang (h : ∀ s, Node r s → Respects f s) : Saturated f r.lang := by
  induction r using Regex.induct with
  | mk op n ih =>
    have hoperand (s : Regex) (hs : s ∈ op.operands) : Saturated f s.lang := ih s hs fun t ht => h t (.operand hs ht)
    have hroot := h _ (.root _)
    rw [lang_mk]
    cases op with
    | epsilon => exact saturated_one
    | none => exact fun w => iff_of_false (notMem_zero _) (notMem_zero _)
    | all => exact fun w => iff_of_true trivial trivial
    | allChar => exact fun w => map_mem_letters fun c => Iff.rfl
    | char a => exact fun w => map_mem_letters hroot
    | range lo hi => exact fun w => map_mem_letters hroot
    | unicodeClass cat => exact fun w => map_mem_letters fun c => by rw [hroot c]
    | concat parts => exact Saturated.prod (List.forall_mem_map.mpr hoperand)
    | union parts => exact fun w => exists_congr fun s => and_congr_right fun hs => hoperand s hs w
    | inter parts => exact fun w => forall₂_congr fun s hs => hoperand s hs w
    | complement s => exact fun w => not_congr (hoperand s (mem_singleton_self s) w)
    | star s => exact (hoperand s (mem_singleton_self s)).kstar
    | plus s =>
      have hs := hoperand s (mem_singleton_self s)
      exact hs.mul hs.kstar
    | option s =>
      intro w
      exact or_congr (saturated_one w) (hoperand s (mem_singleton_self s) w)
    | loop s min max =>
      intro w
      refine exists_congr fun k => and_congr_right fun _ => and_congr_right fun _ => ?_
      exact (hoperand s (mem_singleton_self s)).pow k w

end

end Regex

section

open Regex

def Atoms.Has (atoms : Atoms) (r : Regex) : Prop :=
  match r.op with
  | .char c => c ∈ atoms.endpoints
  | .range lo hi => lo ∈ atoms.endpoints ∧ hi ∈ atoms.endpoints ∧ (lo, hi) ∈ atoms.ranges
  | .unicodeClass _ => atoms.hasUnicodeClass = true
  | _ => True

structure Atoms.Le (a b : Atoms) : Prop where
  endpoints : a.endpoints ⊆ b.endpoints
  ranges : a.ranges ⊆ b.ranges
  hasUnicodeClass : a.hasUnicodeClass = true → b.hasUnicodeClass = true

variable {atoms : Atoms} {stack : List Regex} {r s : Regex}

omit [UnicodeTable]

theorem Atoms.Has.mono {a b : Atoms} (h : a.Has s) (hle : a.Le b) : b.Has s := by
  unfold Atoms.Has at *
  split
  all_goals simp_all
  · exact hle.endpoints h
  · exact ⟨hle.endpoints h.1, hle.endpoints h.2.1, hle.ranges h.2.2⟩
  · exact hle.hasUnicodeClass h

theorem eq_of_node (h : Node r s) (hleaf : r.op.operands = []) : s = r := by
  cases h with
  | root => rfl
  | operand hs _ => simp [hleaf] at hs

theorem collectLoop_spec (atoms : Atoms) (stack : List Regex) : atoms.Le (collectLoop atoms stack) ∧ ∀ r ∈ stack, ∀ s,
    Node r s → (collectLoop atoms stack).Has s := by
  have hleaf {atoms' final : Atoms} {r : Regex} {stack : List Regex} (hr : r.op.operands = [])
      (hhas : atoms'.Has r) (ih : atoms'.Le final ∧ ∀ r ∈ stack, ∀ s, Node r s → final.Has s) :
      ∀ q ∈ r :: stack, ∀ s, Node q s → final.Has s := by
    refine List.forall_mem_cons.mpr ⟨fun s hs => ?_, ih.2⟩
    rw [eq_of_node hs hr]
    exact hhas.mono ih.1
  fun_induction collectLoop atoms stack with
  | case1 => exact ⟨⟨fun _ => id, fun _ => id, id⟩, by simp⟩
  | case2 atoms stack c n ih =>
    refine ⟨⟨fun x hx => ih.1.endpoints (mem_append_left _ hx), ih.1.ranges, ih.1.hasUnicodeClass⟩, hleaf rfl ?_ ih⟩
    exact mem_append_right _ (mem_singleton_self c)
  | case3 atoms stack lo hi n ih =>
    refine ⟨⟨fun x hx => ih.1.endpoints (mem_append_left _ hx),
      fun x hx => ih.1.ranges (mem_append_left _ hx), ih.1.hasUnicodeClass⟩, hleaf rfl ?_ ih⟩
    exact ⟨by simp, by simp, mem_append_right _ (mem_singleton_self _)⟩
  | case4 atoms stack cat n ih =>
    exact ⟨⟨ih.1.endpoints, ih.1.ranges, fun _ => ih.1.hasUnicodeClass rfl⟩, hleaf rfl (by exact rfl) ih⟩
  | case5 atoms stack op n hchar hrange hclass ih =>
    refine ⟨ih.1, List.forall_mem_cons.mpr ⟨fun s hs => ?_, fun r hr => ih.2 r (mem_append_right _ hr)⟩⟩
    cases hs with
    | root =>
      unfold Atoms.Has
      rw [op_mk]
      split
      · exact absurd rfl (hchar _)
      · exact absurd rfl (hrange _ _)
      · exact absurd rfl (hclass _)
      · trivial
    | operand ht hs => exact ih.2 _ (mem_append_left _ ht) s hs

theorem collectAtoms_has (r : Regex) {s : Regex} (h : Node r s) : (collectAtoms r).Has s :=
  (collectLoop_spec {} [r]).2 r (mem_singleton_self r) s h

def Atoms.Closed (atoms : Atoms) : Prop :=
  ∀ p ∈ atoms.ranges, p.1 ∈ atoms.endpoints ∧ p.2 ∈ atoms.endpoints

theorem closed_collectLoop (h : atoms.Closed) : (collectLoop atoms stack).Closed := by
  fun_induction collectLoop atoms stack with
  | case1 => exact h
  | case2 atoms stack c n ih =>
    exact ih fun p hp => ⟨mem_append_left _ (h p hp).1, mem_append_left _ (h p hp).2⟩
  | case3 atoms stack lo hi n ih =>
    refine ih fun p hp => ?_
    rcases List.mem_append.mp hp with hp | hp
    · exact ⟨mem_append_left _ (h p hp).1, mem_append_left _ (h p hp).2⟩
    · rw [List.mem_singleton.mp hp]
      simp
  | case4 atoms stack cat n ih => exact ih h
  | case5 atoms stack op n hchar hrange hclass ih => exact ih h

theorem closed_collectAtoms (r : Regex) : (collectAtoms r).Closed := closed_collectLoop fun _ hp => by cases hp

structure Atoms.Alike (atoms : Atoms) (a b : Char) : Prop where
  endpoint : ∀ e ∈ atoms.endpoints, a = e ↔ b = e
  range : ∀ p ∈ atoms.ranges, p.1 ≤ a ∧ a ≤ p.2 ↔ p.1 ≤ b ∧ b ≤ p.2

variable {a b c e x : Char} {n : ℕ}

theorem Atoms.Alike.refl (atoms : Atoms) (a : Char) : atoms.Alike a a := ⟨fun _ _ => Iff.rfl, fun _ _ => Iff.rfl⟩

theorem Atoms.Alike.trans (h : atoms.Alike a b) (h' : atoms.Alike b c) : atoms.Alike a c :=
  ⟨fun e he => (h.endpoint e he).trans (h'.endpoint e he),
    fun p hp => (h.range p hp).trans (h'.range p hp)⟩

theorem Atoms.alike_of_between (hclosed : atoms.Closed) (hax : a ≤ x) (ha : a ∉ atoms.endpoints)
    (hbetween : ∀ e ∈ atoms.endpoints, a < e → x < e) : atoms.Alike a x := by
  refine ⟨fun e he => iff_of_false ?_ ?_, fun p hp => ?_⟩
  · rintro rfl
    exact ha he
  · rintro rfl
    rcases hax.lt_or_eq with hlt | rfl
    · exact lt_irrefl _ (hbetween x he hlt)
    · exact ha he
  · obtain ⟨hlo, hhi⟩ := hclosed p hp
    constructor
    · rintro ⟨h1, h2⟩
      have hne : a ≠ p.2 := by
        rintro rfl
        exact ha hhi
      exact ⟨h1.trans hax, (hbetween _ hhi (lt_of_le_of_ne h2 hne)).le⟩
    · rintro ⟨h1, h2⟩
      refine ⟨?_, hax.trans h2⟩
      by_contra hlt
      exact absurd (hbetween _ hlo (not_le.mp hlt)) (not_lt.mpr h1)

theorem charFromU32_eq_some : charFromU32 n = some c ↔ c.toNat = n := by
  by_cases hn : n.isValidChar
  · rw [charFromU32, dif_pos hn, Option.some.injEq]
    constructor
    · rintro rfl
      rfl
    · rintro rfl
      exact Char.ext (UInt32.toNat_inj.mp rfl)
  · rw [charFromU32, dif_neg hn]
    refine iff_of_false (by simp) ?_
    rintro rfl
    exact hn c.valid

theorem lt_iff_toNat {a b : Char} : a < b ↔ a.toNat < b.toNat := Iff.rfl

theorem nextChar_of_lt (h : e < x) : ∃ a, nextChar e = some a ∧ e < a ∧ ∀ y, e < y → a ≤ y := by
  have hvalid : (if e.toNat + 1 = 0xD800 then 0xE000 else e.toNat + 1).isValidChar := by
    have hx : x.toNat.isValidChar := x.valid
    have he : e.toNat.isValidChar := e.valid
    rw [lt_iff_toNat] at h
    unfold Nat.isValidChar at *
    split <;> omega
  obtain ⟨a, ha⟩ : ∃ a, nextChar e = some a := ⟨_, dif_pos hvalid⟩
  have hnat : a.toNat = if e.toNat + 1 = 0xD800 then 0xE000 else e.toNat + 1 := charFromU32_eq_some.mp ha
  refine ⟨a, ha, ?_, fun y hy => ?_⟩
  · rw [lt_iff_toNat, hnat]
    split <;> omega
  · have hvalid : y.toNat.isValidChar := y.valid
    rw [lt_iff_toNat] at hy
    rw [← not_lt, lt_iff_toNat, hnat]
    unfold Nat.isValidChar at hvalid
    split <;> omega

theorem exists_alike (r : Regex) (x : Char) :
    (∃ a ∈ (buildAlphabet r).1, (collectAtoms r).Alike a x) ∨ (collectAtoms r).Alike '\x00' x := by
  have hclosed := closed_collectAtoms r
  have hmem {a : Char} (e : Char) (he : e ∈ (collectAtoms r).endpoints) (ha : a = e ∨ nextChar e = some a) :
      a ∈ (buildAlphabet r).1 := by
    refine List.mem_eraseDups.mpr (mem_append_left _ (List.mem_flatMap.mpr ⟨e, he, ?_⟩))
    rcases ha with rfl | ha
    · exact mem_cons_self
    · simp [ha]
  by_cases hx : x ∈ (collectAtoms r).endpoints
  · exact .inl ⟨x, hmem x hx (.inl rfl), .refl _ x⟩
  · by_cases hbelow : ∃ e ∈ (collectAtoms r).endpoints, e < x
    · left
      have hne : ((collectAtoms r).endpoints.toFinset.filter (· < x)).Nonempty := by
        obtain ⟨e, he, hlt⟩ := hbelow
        exact ⟨e, by simp [he, hlt]⟩
      -- the greatest endpoint below
      obtain ⟨e, he, hmax⟩ := Finset.exists_max_image _ id hne
      rw [Finset.mem_filter, mem_toFinset] at he
      obtain ⟨a, hnext, hea, hleast⟩ := nextChar_of_lt he.2
      have hgap {e' : Char} (he' : e' ∈ (collectAtoms r).endpoints) (hlt : e < e') : x < e' := by
        by_contra hle
        have hle' : e' < x := lt_of_le_of_ne (not_lt.mp hle) fun heq => hx (heq ▸ he')
        exact absurd (hmax e' (by simp [he', hle'])) (not_le.mpr hlt)
      refine ⟨a, hmem e he.1 (.inr hnext), Atoms.alike_of_between hclosed (hleast x he.2) ?_ ?_⟩
      · intro ha
        exact absurd (hgap ha hea) (not_lt.mpr (hleast x he.2))
      · exact fun e' he' hlt => hgap he' (hea.trans hlt)
    · right
      push Not at hbelow
      have hzero (c : Char) : '\x00' ≤ c := not_lt.mp fun h => Nat.not_lt_zero _ (lt_iff_toNat.mp h)
      have hgap (e : Char) (he : e ∈ (collectAtoms r).endpoints) : x < e :=
        lt_of_le_of_ne (hbelow e he) fun heq => hx (heq ▸ he)
      refine Atoms.alike_of_between hclosed (hzero x) ?_ fun e he _ => hgap e he
      exact fun h => absurd (hgap _ h) (not_lt.mpr (hzero x))

end

def InWindow (lenLo : ℕ) (lenHi : Option ℕ) (n : ℕ) : Prop :=
  lenLo ≤ n ∧ ∀ h ∈ lenHi, n ≤ h

def Spelled (alphabet : List Char) (L : Language Char) (lenLo : ℕ) (lenHi : Option ℕ) : Prop :=
  ∀ v ∈ L, InWindow lenLo lenHi v.length →
    ∃ u ∈ L, InWindow lenLo lenHi u.length ∧ u.length ≤ v.length ∧ ∀ c ∈ u, c ∈ alphabet

def WordSearch.Correct (L : Language Char) (lenLo : ℕ) (lenHi : Option ℕ) : WordSearch → Prop
  | .found w => w ∈ L ∧ InWindow lenLo lenHi w.length ∧
      ∀ v ∈ L, InWindow lenLo lenHi v.length → w.length ≤ v.length
  | .empty => ∀ v ∈ L, ¬ InWindow lenLo lenHi v.length
  | .unknown => True

theorem spelled_of_alike {r : Regex} (hclass : (buildAlphabet r).2 = true)
    (hzero : ∃ a ∈ (buildAlphabet r).1, (collectAtoms r).Alike a '\x00') (lenLo : ℕ) (lenHi : Option ℕ) :
    Spelled (buildAlphabet r).1 r.lang lenLo lenHi := by
  have hrep (x : Char) : ∃ a ∈ (buildAlphabet r).1, (collectAtoms r).Alike a x := by
    rcases exists_alike r x with h | hx
    · exact h
    · obtain ⟨a, ha, halike⟩ := hzero
      exact ⟨a, ha, halike.trans hx⟩
  choose f hf halike using hrep
  have hrespects (s : Regex) (hs : Regex.Node r s) : Regex.Respects f s := by
    have hhas := collectAtoms_has r hs
    unfold Atoms.Has at hhas
    unfold Regex.Respects
    split at hhas
    · exact fun c => (halike c).endpoint _ hhas
    · exact fun c => (halike c).range _ hhas.2.2
    · simp [buildAlphabet, hhas] at hclass
    · trivial
  intro v hv hwindow
  refine ⟨v.map f, (Regex.saturated_lang hrespects v).mpr hv, ?_, ?_, fun c hc => ?_⟩
  · rwa [length_map]
  · rw [length_map]
  · obtain ⟨b, -, rfl⟩ := List.mem_map.mp hc
    exact hf b

section

open Regex

namespace Bounds

variable {b : Bounds} {r q : Regex} {seen : List (Regex × ℕ)} {queue : List (Regex × List Char)}
  {hitCap : Bool} {w v : List Char} {n : ℕ}

def pool (seen : List (Regex × ℕ)) (queue : List (Regex × List Char)) : List (Regex × ℕ) :=
  seen ++ queue.map fun p => (p.1, p.2.length)

def Met (b : Bounds) (pool : List (Regex × ℕ)) (q : Regex) (n : ℕ) : Prop :=
  ∃ d, (q, d) ∈ pool ∧ d ≤ n ∧ (b.bounded = true → d = n)

/-- The invariant of the search: each word leads to its state, the queue is in the order of lengths, and every
expanded state rejects and has all its successors met, unless it was cut at the depth cap. -/
structure SearchInv (b : Bounds) (r : Regex) (seen : List (Regex × ℕ)) (hitCap : Bool)
    (queue : List (Regex × List Char)) : Prop where
  reached : ∀ p ∈ queue, p.1 = r.derivs p.2 ∧ (∀ c ∈ p.2, c ∈ b.alphabet) ∧ p.2.length ≤ b.depthCap
  sorted : queue.Pairwise fun p p' => p.2.length ≤ p'.2.length
  close : ∀ p ∈ queue, ∀ p' ∈ queue, p'.2.length ≤ p.2.length + 1
  before : ∀ e ∈ seen, ∀ p ∈ queue, e.2 ≤ p.2.length
  sound : ∀ e ∈ seen, Sound e.1
  rejecting : ∀ e ∈ seen, ¬ (e.1.isNullable = true ∧ b.inWindow e.2 = true)
  root : b.Met (pool seen queue) r 0
  expanded : ∀ e ∈ seen, e.1.isEmpty = true ∨ (hitCap = true ∧ b.depthCap ≤ e.2) ∨
    ∀ c ∈ b.alphabet, (e.1.derivative c).isEmpty = true ∨ b.Met (pool seen queue) (e.1.derivative c) (e.2 + 1)

section

variable {p : Regex × List Char} {rest kids : List (Regex × List Char)} {pool pool' : List (Regex × ℕ)}

omit [UnicodeTable] in
theorem Met.mono (h : b.Met pool q n) (hsub : pool ⊆ pool') : b.Met pool' q n := by
  obtain ⟨d, hd, hn⟩ := h
  exact ⟨d, hsub hd, hn⟩

theorem SearchInv.skip (h : SearchInv b r seen hitCap (p :: queue)) {d : ℕ} (hd : (p.1, d) ∈ seen)
    (hkey : b.key d = b.key p.2.length) : SearchInv b r seen hitCap queue := by
  have hle : d ≤ p.2.length := h.before _ hd p mem_cons_self
  have hmet {x : Regex} {n : ℕ} (hx : b.Met (pool seen (p :: queue)) x n) :
      b.Met (pool seen queue) x n := by
    obtain ⟨m, hm, hmn, hbound⟩ := hx
    rw [pool, map_cons] at hm
    rcases List.mem_append.mp hm with hm | hm
    · exact ⟨m, mem_append_left _ hm, hmn, hbound⟩
    · rcases List.mem_cons.mp hm with heq | hm
      · cases heq
        refine ⟨d, mem_append_left _ hd, hle.trans hmn, fun hb => ?_⟩
        rw [key, key, if_pos hb, if_pos hb] at hkey
        rw [hkey]
        exact hbound hb
      · exact ⟨m, mem_append_right _ hm, hmn, hbound⟩
  exact
    { reached := (List.forall_mem_cons.mp h.reached).2
      sorted := (List.pairwise_cons.mp h.sorted).2
      close := fun x hx y hy => h.close x (mem_cons_of_mem _ hx) y (mem_cons_of_mem _ hy)
      before := fun e he x hx => h.before e he x (mem_cons_of_mem _ hx)
      sound := h.sound
      rejecting := h.rejecting
      root := hmet h.root
      expanded := fun e he => (h.expanded e he).imp_right
        (Or.imp_right fun hc c hmem => (hc c hmem).imp_right hmet) }

theorem SearchInv.expand {hitCap' : Bool} (h : SearchInv b r seen hitCap (p :: queue)) (hr : Sound r)
    (hreject : ¬ (p.1.isNullable = true ∧ b.inWindow p.2.length = true)) (hcap : hitCap = true → hitCap' = true)
    (hkids : ∀ k ∈ kids, k.1 = r.derivs k.2 ∧ (∀ c ∈ k.2, c ∈ b.alphabet) ∧ k.2.length ≤ b.depthCap ∧
    k.2.length = p.2.length + 1) (hexpand : p.1.isEmpty = true ∨ (hitCap' = true ∧ b.depthCap ≤ p.2.length) ∨
    ∀ c ∈ b.alphabet, (p.1.derivative c).isEmpty = true ∨ ∃ k ∈ kids, k.1 = p.1.derivative c) :
    SearchInv b r ((p.1, p.2.length) :: seen) hitCap' (queue ++ kids) := by
  obtain ⟨⟨hstate, hletters, -⟩, hreached⟩ := List.forall_mem_cons.mp h.reached
  obtain ⟨hsort, hsorted⟩ := List.pairwise_cons.mp h.sorted
  have hclose (x : Regex × List Char) (hx : x ∈ queue) : x.2.length ≤ p.2.length + 1 :=
    h.close p mem_cons_self x (mem_cons_of_mem _ hx)
  have hpool : pool seen (p :: queue) ⊆ pool ((p.1, p.2.length) :: seen) (queue ++ kids) := by
    intro e he
    simp only [pool, mem_append, map_cons, mem_cons, map_append] at he ⊢
    tauto
  have hlen (x : Regex × List Char) (hx : x ∈ queue ++ kids) :
      p.2.length ≤ x.2.length ∧ x.2.length ≤ p.2.length + 1 := by
    rcases List.mem_append.mp hx with hx | hx
    · exact ⟨hsort x hx, hclose x hx⟩
    · have := (hkids x hx).2.2.2
      omega
  refine ⟨?_, ?_, ?_, ?_, ?_, ?_, h.root.mono hpool, ?_⟩
  · exact List.forall_mem_append.mpr ⟨hreached, fun k hk => ⟨(hkids k hk).1, (hkids k hk).2.1, (hkids k hk).2.2.1⟩⟩
  · refine List.pairwise_append.mpr ⟨hsorted, ?_, fun x hx k hk => ?_⟩
    · refine List.Pairwise.imp_of_mem (R := fun _ _ => True) (fun {x y} hx hy _ => ?_)
        (pairwise_of_forall fun _ _ => trivial)
      have := (hkids x hx).2.2.2
      have := (hkids y hy).2.2.2
      omega
    · have := (hkids k hk).2.2.2
      have := hclose x hx
      omega
  · intro x hx y hy
    have := hlen x hx
    have := hlen y hy
    omega
  · refine List.forall_mem_cons.mpr ⟨fun x hx => (hlen x hx).1, fun e he x hx => ?_⟩
    exact (h.before e he p mem_cons_self).trans (hlen x hx).1
  · refine List.forall_mem_cons.mpr ⟨?_, h.sound⟩
    rw [hstate]
    exact hr.derivs p.2
  · exact List.forall_mem_cons.mpr ⟨hreject, h.rejecting⟩
  · refine List.forall_mem_cons.mpr ⟨hexpand.imp_right (Or.imp_right fun hall c hc => ?_), fun e he => ?_⟩
    · refine (hall c hc).imp_right fun ⟨k, hk, hkc⟩ => ?_
      refine ⟨p.2.length + 1, ?_, le_rfl, fun _ => rfl⟩
      refine mem_append_right _ (List.mem_map.mpr ⟨k, mem_append_right _ hk, ?_⟩)
      rw [hkc, (hkids k hk).2.2.2]
    · exact (h.expanded e he).imp_right (Or.imp (And.imp_left hcap)
        fun hall c hc => (hall c hc).imp_right fun hmet => hmet.mono hpool)

end

section

omit [UnicodeTable] in
theorem inWindow_iff : b.inWindow n = true ↔ InWindow b.lenLo b.lenHi n := by
  unfold inWindow InWindow
  cases b.lenHi <;> simp

omit [UnicodeTable] in
theorem inWindow_of_not_bounded (h : b.bounded = false) (n : ℕ) : b.inWindow n = true := by
  unfold bounded at h
  rw [Bool.or_eq_false_iff, decide_eq_false_iff_not, Option.isSome_eq_false_iff] at h
  rw [inWindow_iff]
  refine ⟨by omega, fun m hm => ?_⟩
  rw [Option.isNone_iff_eq_none.mp h.2] at hm
  cases hm

theorem derivs_concat (r : Regex) (u : List Char) (c : Char) : r.derivs (u ++ [c]) = (r.derivs u).derivative c := by
  rw [derivs, derivs, foldl_append]
  rfl

theorem not_isEmpty_derivs (hr : Sound r) (hv : v ∈ r.lang) {u : List Char} (hu : u <+: v) :
    (r.derivs u).isEmpty = false := by
  obtain ⟨t, rfl⟩ := hu
  by_contra hempty
  have hzero := lang_of_isEmpty (Bool.not_eq_false _ ▸ hempty)
  rw [lang_derivs hr] at hzero
  have hmem : t ∈ r.lang.leftQuotient u := hv
  rw [hzero] at hmem
  exact notMem_zero t hmem

theorem SearchInv.exists_pending (h : SearchInv b r seen hitCap queue) (hr : Sound r) (hv : v ∈ r.lang)
    (hletters : ∀ c ∈ v, c ∈ b.alphabet) (hwindow : b.inWindow v.length = true) :
    (∃ p ∈ queue, p.2.length ≤ v.length) ∨ (hitCap = true ∧ b.depthCap < v.length) := by
  have hmet {q : Regex} {n : ℕ} (hq : b.Met (pool seen queue) q n) :
      (∃ p ∈ queue, p.2.length ≤ n) ∨ ∃ d, (q, d) ∈ seen ∧ d ≤ n ∧ (b.bounded = true → d = n) := by
    obtain ⟨d, hd, hdn, hbound⟩ := hq
    rcases List.mem_append.mp hd with hd | hd
    · exact .inr ⟨d, hd, hdn, hbound⟩
    · obtain ⟨p, hp, heq⟩ := List.mem_map.mp hd
      cases heq
      exact .inl ⟨p, hp, hdn⟩
  have hwalk (u : List Char) : u <+: v →
      (∃ p ∈ queue, p.2.length ≤ v.length) ∨ (hitCap = true ∧ b.depthCap < v.length) ∨
        ∃ d, (r.derivs u, d) ∈ seen ∧ d ≤ u.length ∧ (b.bounded = true → d = u.length) := by
    induction u using List.reverseRecOn with
    | nil =>
      intro _
      rcases hmet h.root with ⟨p, hp, hlen⟩ | hseen
      · exact .inl ⟨p, hp, hlen.trans (Nat.zero_le _)⟩
      · exact .inr (.inr hseen)
    | append_singleton u c ih =>
      intro huc
      have hu : u <+: v := (prefix_append u [c]).trans huc
      have hlen := huc.length_le
      rw [length_append, length_singleton] at hlen
      rcases ih hu with hpending | hcut | ⟨d, hd, hdu, hbound⟩
      · exact .inl hpending
      · exact .inr (.inl hcut)
      · rcases h.expanded _ hd with hdead | ⟨hcap, hle⟩ | hall
        · rw [not_isEmpty_derivs hr hv hu] at hdead
          cases hdead
        · exact .inr (.inl ⟨hcap, by dsimp only at hle; omega⟩)
        · have hc : c ∈ b.alphabet := hletters c (huc.subset (by simp))
          rcases hall c hc with hdead | hnext
          · rw [← derivs_concat, not_isEmpty_derivs hr hv huc] at hdead
            cases hdead
          · rcases hmet hnext with ⟨p, hp, hlen'⟩ | ⟨d', hd', hle', hbound'⟩
            · exact .inl ⟨p, hp, by dsimp only at hlen'; omega⟩
            · refine .inr (.inr ⟨d', ?_, ?_, fun hb => ?_⟩)
              · rwa [derivs_concat]
              · rw [length_append, length_singleton]
                dsimp only at hle'
                omega
              · rw [hbound' hb, hbound hb, length_append, length_singleton]
  rcases hwalk v prefix_rfl with hpending | hcut | ⟨d, hd, -, hbound⟩
  · exact .inl hpending
  · exact .inr hcut
  · refine absurd ⟨?_, ?_⟩ (h.rejecting _ hd)
    · have hnil : [] ∈ (r.derivs v).lang := by
        rw [lang_derivs hr, mem_leftQuotient, append_nil]
        exact hv
      exact (h.sound _ hd).nullable_iff.mpr hnil
    · cases hb : b.bounded with
      | false => exact inWindow_of_not_bounded hb d
      | true => rw [hbound hb]; exact hwindow

def Verdict (b : Bounds) (L : Language Char) : WordSearch → Prop
  | .found w => w ∈ L ∧ b.inWindow w.length = true ∧ (∀ c ∈ w, c ∈ b.alphabet) ∧
      ∀ v ∈ L, (∀ c ∈ v, c ∈ b.alphabet) → b.inWindow v.length = true → w.length ≤ v.length
  | .empty => ∀ v ∈ L, (∀ c ∈ v, c ∈ b.alphabet) → ¬ b.inWindow v.length = true
  | .unknown => True

theorem successors_spec {p : Regex × List Char} (hstate : p.1 = r.derivs p.2) (hletters : ∀ c ∈ p.2, c ∈ b.alphabet)
    (hcap : p.2.length < b.depthCap) : ∀ k ∈ b.successors p.1 p.2, k.1 = r.derivs k.2 ∧ (∀ c ∈ k.2, c ∈ b.alphabet) ∧
    k.2.length ≤ b.depthCap ∧ k.2.length = p.2.length + 1 := by
  intro k hk
  obtain ⟨c, hc, hk⟩ := List.mem_filterMap.mp hk
  dsimp only at hk
  split at hk
  · cases hk
  · cases hk
    refine ⟨?_, ?_, ?_, ?_⟩
    · rw [derivs_concat, hstate]
    · exact List.forall_mem_append.mpr ⟨hletters, by simpa using hc⟩
    · rw [length_append, length_singleton]
      omega
    · rw [length_append, length_singleton]

theorem mem_successors {p : Regex × List Char} {c : Char} (hc : c ∈ b.alphabet) :
    (p.1.derivative c).isEmpty = true ∨ ∃ k ∈ b.successors p.1 p.2, k.1 = p.1.derivative c := by
  cases hempty : (p.1.derivative c).isEmpty with
  | true => exact .inl rfl
  | false =>
    refine .inr ⟨(p.1.derivative c, p.2 ++ [c]), List.mem_filterMap.mpr ⟨c, hc, ?_⟩, rfl⟩
    dsimp only
    rw [if_neg (by simp [hempty])]

theorem searchLoop_verdict (hr : Sound r) (h : SearchInv b r seen hitCap queue) :
    b.Verdict r.lang (b.searchLoop (seen.map fun e => (e.1, b.key e.2)) hitCap queue) := by
  have hhead {seen : List (Regex × ℕ)} {hitCap : Bool} {p : Regex × List Char}
      {queue : List (Regex × List Char)} (h : SearchInv b r seen hitCap (p :: queue)) : Sound p.1 := by
    rw [(h.reached p mem_cons_self).1]
    exact hr.derivs p.2
  generalize hvisited : (seen.map fun e => (e.1, b.key e.2)) = visited
  fun_induction searchLoop b visited hitCap queue generalizing seen with
  | case1 visited hitCap hunknown => trivial
  | case2 visited hitCap hempty =>
    intro v hv hletters hwindow
    rcases h.exists_pending hr hv hletters hwindow with ⟨p, hp, -⟩ | ⟨hcap, -⟩
    · cases hp
    · simp [hcap] at hempty
  | case3 visited hitCap state word queue depth hdup =>
    rename_i ih
    subst hvisited
    obtain ⟨e, he, heq⟩ := List.any_eq_true.mp hdup
    obtain ⟨⟨q, d⟩, hd, rfl⟩ := List.mem_map.mp he
    rw [Bool.and_eq_true, beq_iff (h.sound _ hd) (hhead h), beq_iff_eq] at heq
    obtain ⟨rfl, hkey⟩ := heq
    exact ih (h.skip hd hkey) rfl
  | case4 => trivial
  | case5 visited hitCap state word queue depth hdup hmax =>
    rename_i hfound
    rw [Bool.and_eq_true] at hfound
    obtain ⟨hstate, hletters, hlen⟩ := h.reached _ mem_cons_self
    have hnil := (hhead h).nullable_iff.mp hfound.1
    dsimp only at hstate hletters hlen
    rw [hstate, lang_derivs hr, mem_leftQuotient, append_nil] at hnil
    refine ⟨hnil, hfound.2, hletters, fun v hv hvletters hwindow => ?_⟩
    rcases h.exists_pending hr hv hvletters hwindow with ⟨p, hp, hpv⟩ | ⟨-, hcut⟩
    · rcases List.mem_cons.mp hp with rfl | hp
      · exact hpv
      · exact ((List.pairwise_cons.mp h.sorted).1 p hp).trans hpv
    · omega
  | case6 visited hitCap state word queue depth hdup hmax hfound visited' =>
    rename_i hdead ih
    subst hvisited
    have hnext : SearchInv b r ((state, word.length) :: seen) hitCap (queue ++ []) :=
      h.expand hr (by simpa using hfound) id (by simp) (.inl hdead)
    rw [append_nil] at hnext
    exact ih hnext rfl
  | case7 visited hitCap state word queue depth hdup hmax hfound visited' hdead =>
    rename_i hcut ih
    subst hvisited
    have hnext : SearchInv b r ((state, word.length) :: seen) true (queue ++ []) :=
      h.expand hr (by simpa using hfound) (fun _ => rfl) (by simp) (.inr (.inl ⟨rfl, hcut⟩))
    rw [append_nil] at hnext
    exact ih hnext rfl
  | case8 visited hitCap state word queue depth hdup hmax hfound visited' hdead =>
    rename_i hcut ih
    subst hvisited
    obtain ⟨hstate, hletters, -⟩ := h.reached _ mem_cons_self
    exact ih (h.expand hr (by simpa using hfound) id (successors_spec hstate hletters (not_le.mp hcut))
      (.inr (.inr fun c hc => mem_successors hc))) rfl

theorem searchInv_init : SearchInv b r [] false [(r, [])] where
  reached := by simp [derivs]
  sorted := pairwise_singleton _ _
  close := by simp
  before := by simp
  sound := by simp
  rejecting := by simp
  root := ⟨0, by simp [pool], le_rfl, fun _ => rfl⟩
  expanded := by simp

end

end Bounds

end

section

open Regex

variable {r : Regex} {L : Language Char}

theorem searchWord_eq (r : Regex) (lenLo : ℕ) (lenHi : Option ℕ) (maxStates maxLen : ℕ) :
    searchWord r lenLo lenHi maxStates maxLen =
    searchLoop ⟨(buildAlphabet r).1, (buildAlphabet r).2, lenLo, lenHi, maxStates, maxLen⟩ [] false [(r, [])] :=
  rfl

theorem correct_iff_spelled (hr : Sound r) (lenLo : ℕ) (lenHi : Option ℕ) (maxStates maxLen : ℕ)
    (hanswer : searchWord r lenLo lenHi maxStates maxLen ≠ .unknown) :
    (searchWord r lenLo lenHi maxStates maxLen).Correct r.lang lenLo lenHi ↔
    Spelled (buildAlphabet r).1 r.lang lenLo lenHi := by
  have hinit := searchInv_init
    (b := ⟨(buildAlphabet r).1, (buildAlphabet r).2, lenLo, lenHi, maxStates, maxLen⟩) (r := r)
  have hverdict := searchLoop_verdict hr hinit
  rw [map_nil, ← searchWord_eq] at hverdict
  cases hsearch : searchWord r lenLo lenHi maxStates maxLen with
  | unknown => exact absurd hsearch hanswer
  | found w =>
    rw [hsearch] at hverdict
    obtain ⟨hw, hwindow, hletters, hleast⟩ := hverdict
    rw [inWindow_iff] at hwindow
    constructor
    · rintro ⟨-, -, hmin⟩ v hv hvwindow
      exact ⟨w, hw, hwindow, hmin v hv hvwindow, hletters⟩
    · intro hspelled
      refine ⟨hw, hwindow, fun v hv hvwindow => ?_⟩
      obtain ⟨u, hu, huwindow, hle, huletters⟩ := hspelled v hv hvwindow
      exact (hleast u hu huletters (Bounds.inWindow_iff.mpr huwindow)).trans hle
  | empty =>
    rw [hsearch] at hverdict
    constructor
    · exact fun hempty v hv hvwindow => absurd hvwindow (hempty v hv)
    · intro hspelled v hv hvwindow
      obtain ⟨u, hu, huwindow, -, huletters⟩ := hspelled v hv hvwindow
      exact hverdict u hu huletters (Bounds.inWindow_iff.mpr huwindow)

def Satisfies (memberships : List (Membership × Language Char)) (w : List Char) : Prop :=
  ∀ m ∈ memberships, m.1.positive = true ↔ w ∈ m.2

theorem combined_spec {memberships : List (Membership × Language Char)}
    (h : ∀ m ∈ memberships, Denotes m.1.regex m.2) :
    Sound (combined (memberships.map Prod.fst)) ∧
      (combined (memberships.map Prod.fst)).lang = {w | Satisfies memberships w} := by
  have hparts : ∀ p ∈ (memberships.map Prod.fst).map
      (fun m => if m.positive then m.regex else complement m.regex), Sound p := by
    intro p hp
    rw [List.map_map] at hp
    obtain ⟨m, hm, rfl⟩ := List.mem_map.mp hp
    dsimp only [Function.comp_apply]
    split
    · exact (h m hm).spec.1
    · exact (h m hm).spec.1.complement
  refine ⟨Sound.inter hparts, ?_⟩
  ext w
  rw [combined, mem_inter hparts, List.map_map, List.forall_mem_map]
  refine forall₂_congr fun m hm => ?_
  dsimp only [Function.comp_apply]
  cases m.1.positive with
  | true => simp [(h m hm).spec.2]
  | false =>
    rw [if_neg Bool.false_ne_true, lang_complement, (h m hm).spec.2]
    simp only [Bool.false_eq_true, false_iff]
    rfl

/-- A verdict is right exactly where no matching word of the window is shorter than all those spelled over
the representative alphabet. -/
theorem verdicts_correct_iff : (∀ (r : Regex) (L : Language Char) (lenLo : ℕ) (lenHi : Option ℕ)
    (maxStates maxLen : ℕ), Denotes r L → searchWord r lenLo lenHi maxStates maxLen ≠ .unknown →
    ((searchWord r lenLo lenHi maxStates maxLen).Correct L lenLo lenHi ↔ Spelled (buildAlphabet r).1 L lenLo lenHi)) ∧
    (∀ (memberships : List (Membership × Language Char)) (lenLo : ℕ) (lenHi : Option ℕ)
    (extraOrigins origins : List TermId), (∀ m ∈ memberships, Denotes m.1.regex m.2) →
    solveMembership (memberships.map Prod.fst) lenLo lenHi extraOrigins = .conflict origins →
    ((¬ ∃ w, InWindow lenLo lenHi w.length ∧ Satisfies memberships w) ↔
    Spelled (buildAlphabet (combined (memberships.map Prod.fst))).1 {w | Satisfies memberships w} lenLo lenHi)) ∧
    ∀ (r : Regex) (L : Language Char), Denotes r L → (buildAlphabet r).2 = true →
    (∃ a ∈ (buildAlphabet r).1, (collectAtoms r).Alike a '\x00') →
    ∀ lenLo lenHi, Spelled (buildAlphabet r).1 L lenLo lenHi := by
  refine ⟨?_, ?_, ?_⟩
  · intro r L lenLo lenHi maxStates maxLen h hanswer
    obtain ⟨hsound, rfl⟩ := h.spec
    exact correct_iff_spelled hsound lenLo lenHi maxStates maxLen hanswer
  · intro memberships lenLo lenHi extraOrigins origins h hconflict
    obtain ⟨hsound, hlang⟩ := combined_spec h
    rw [← hlang]
    unfold solveMembership at hconflict
    split at hconflict
    · cases hconflict
    · next hsearch =>
      have hiff := correct_iff_spelled hsound lenLo lenHi maxRegexStates maxRegexWordLen (by rw [hsearch]; simp)
      rw [hsearch] at hiff
      rw [← hiff, hlang]
      constructor
      · exact fun hnone w hw hwindow => hnone ⟨w, hwindow, hw⟩
      · rintro hempty ⟨w, hwindow, hw⟩
        exact hempty w hw hwindow
    · cases hconflict
  · intro r L h hclass hzero lenLo lenHi
    obtain ⟨-, rfl⟩ := h.spec
    exact spelled_of_alike hclass hzero lenLo lenHi

omit [UnicodeTable] in
theorem verdicts_correct_iff_small :
    letI : UnicodeTable := ⟨fun _ _ => false⟩
    ((searchWord (char 'a') 0 Option.none 10 10).Correct ({['a']} : Language Char) 0 Option.none ↔
      Spelled (buildAlphabet (char 'a')).1 ({['a']} : Language Char) 0 Option.none) ∧
    ((¬ ∃ w, InWindow 2 Option.none w.length ∧ Satisfies [(⟨true, char 'a', 7⟩, {['a']})] w) ↔
      Spelled (buildAlphabet (combined [⟨true, char 'a', 7⟩])).1 {w | Satisfies [(⟨true, char 'a', 7⟩, {['a']})] w}
        2 Option.none) ∧
    Spelled (buildAlphabet (char 'a')).1 {['a']} 0 Option.none := by
  let _ : UnicodeTable := ⟨fun _ _ => false⟩
  have hatoms : collectAtoms (char 'a') = ⟨['a'], [], false⟩ := by
    simp [collectAtoms, char, collectLoop]
  have halphabet : buildAlphabet (char 'a') = (['a', 'b'], true) := by
    dsimp only [buildAlphabet]
    rw [hatoms]
    with_unfolding_all decide
  have hstep : (char 'a').derivative 'a' = epsilon ∧ (char 'a').derivative 'b' = Regex.none := by
    simp only [derivative_eq_derive]
    exact ⟨derive_leaf rfl, derive_leaf rfl⟩
  have hend : ∀ c, epsilon.derivative c = Regex.none := by
    intro c
    rw [derivative_eq_derive]
    exact derive_leaf rfl
  have hflags : (char 'a').isNullable = false ∧ (char 'a').isEmpty = false ∧ epsilon.isNullable = true ∧
    epsilon.isEmpty = false ∧ Regex.none.isEmpty = true := ⟨rfl, rfl, rfl, rfl, rfl⟩
  have hne : (char 'a' == epsilon) = false := by with_unfolding_all decide
  refine ⟨verdicts_correct_iff.1 _ _ 0 Option.none 10 10 (Denotes.char 'a') ?_,
    verdicts_correct_iff.2.1 [(⟨true, char 'a', 7⟩, {['a']})] 2 Option.none [] [7] (by simpa using Denotes.char 'a') ?_,
    verdicts_correct_iff.2.2 _ _ (Denotes.char 'a') (by rw [halphabet]) ?_ 0 Option.none⟩
  · rw [searchWord_eq, halphabet, searchLoop]
    simp [hflags, hstep, hne, searchLoop, successors, key, bounded,
      depthCap, inWindow]
  · have hcombined : combined [⟨true, char 'a', 7⟩] = char 'a' := rfl
    have hsearch : searchWord (char 'a') 2 Option.none maxRegexStates maxRegexWordLen = .empty := by
      rw [searchWord_eq, halphabet, searchLoop]
      simp [hflags, hstep, hend, hne, searchLoop, successors, key, bounded,
        depthCap, inWindow, maxRegexStates, maxRegexWordLen]
    rw [map_singleton, solveMembership, hcombined, hsearch]
    rfl
  · rw [halphabet, hatoms]
    exact ⟨'b', by simp, by simp, by simp⟩

section

def notPrintable : Regex :=
  complement (star (range ' ' (Char.ofNat 0x10FFFF)))

def printable : Regex :=
  mk (.star (mk (.range ' ' (Char.ofNat 0x10FFFF)) false)) true

omit [UnicodeTable] in
theorem notPrintable_eq : notPrintable = mk (.complement printable) false := by
  have hrange : range ' ' (Char.ofNat 0x10FFFF) = mk (.range ' ' (Char.ofNat 0x10FFFF)) false :=
    if_neg (by decide)
  rw [notPrintable, hrange]
  rfl

omit [UnicodeTable] in
theorem collectAtoms_notPrintable :
    collectAtoms notPrintable = ⟨[' ', Char.ofNat 0x10FFFF], [(' ', Char.ofNat 0x10FFFF)], false⟩ := by
  rw [notPrintable_eq]
  simp [collectAtoms, printable, collectLoop, RegexOp.operands]

omit [UnicodeTable] in
theorem buildAlphabet_notPrintable : buildAlphabet notPrintable = ([' ', '!', Char.ofNat 0x10FFFF], true) := by
  have hcovered {c : Char} (hc : 0x20 ≤ c.toNat) : (collectAtoms notPrintable).uncovered c = false := by
    have hvalid : c.toNat.isValidChar := c.valid
    have hhi : c ≤ Char.ofNat 0x10FFFF := by
      rw [← not_lt, lt_iff_toNat]
      have hmax : (Char.ofNat 0x10FFFF).toNat = 0x10FFFF := by decide
      unfold Nat.isValidChar at hvalid
      omega
    have hlo : ' ' ≤ c := by
      rw [← not_lt, lt_iff_toNat]
      have hblank : ' '.toNat = 0x20 := by decide
      omega
    rw [collectAtoms_notPrintable]
    simp [Atoms.uncovered, hlo, hhi]
  have hfresh : pickFresh (collectAtoms notPrintable) = Option.none := by
    have hreadable : ['a', 'b', 'c', '0', '1', 'x', 'y', 'z', ' ', '!'].find?
        (collectAtoms notPrintable).uncovered = Option.none := by
      refine List.find?_eq_none.mpr fun c hc => ?_
      rw [hcovered]
      · exact Bool.false_ne_true
      · simp only [mem_cons, not_mem_nil, or_false] at hc
        rcases hc with rfl | rfl | rfl | rfl | rfl | rfl | rfl | rfl | rfl | rfl <;> decide
    rw [pickFresh, hreadable]
    refine List.findSome?_eq_none_iff.mpr fun cp hcp => ?_
    split
    · rfl
    · refine Option.filter_eq_none_iff.mpr fun c hc => ?_
      have hnat := charFromU32_eq_some.mp hc
      have hge := (mem_range'_1.mp hcp).1
      rw [hcovered (by omega)]
      exact Bool.false_ne_true
  dsimp only [buildAlphabet]
  rw [hfresh, collectAtoms_notPrintable]
  decide

theorem derivative_notPrintable {c : Char} (hc : ' ' ≤ c ∧ c ≤ Char.ofNat 0x10FFFF) :
    notPrintable.derivative c = notPrintable := by
  have hrange : derive c (mk (.range ' ' (Char.ofNat 0x10FFFF)) false) = epsilon :=
    derive_leaf (by simp [openDerivative, unwrapOption, openNode, hc])
  have hprintable : derive c printable = printable := by
    rw [derive_frame (f := ⟨.suffix printable, [mk (.range ' ' (Char.ofNat 0x10FFFF)) false], []⟩) rfl,
      map_singleton, hrange]
    rfl
  rw [derivative_eq_derive, notPrintable_eq, derive_frame (f := ⟨.complement, [printable], []⟩) rfl,
    map_singleton, hprintable]
  rfl

omit [UnicodeTable] in
theorem not_verdicts_correct :
    letI : UnicodeTable := ⟨fun _ _ => false⟩
    Denotes notPrintable (letters fun c => ' ' ≤ c ∧ c ≤ Char.ofNat 0x10FFFF)∗ᶜ ∧
      searchWord notPrintable 0 Option.none maxRegexStates maxRegexWordLen = .empty ∧
      ['\n'] ∈ ((letters fun c => ' ' ≤ c ∧ c ≤ Char.ofNat 0x10FFFF)∗ᶜ : Language Char) ∧
      InWindow 0 Option.none ['\n'].length := by
  let _ : UnicodeTable := ⟨fun _ _ => false⟩
  refine ⟨(Denotes.range _ _).star.complement, ?_, ?_, Nat.zero_le _, by simp⟩
  · have hsound : Sound notPrintable := ((sound_range _ _).star).complement
    have hsame : (notPrintable == notPrintable) = true := (beq_iff hsound hsound).mpr rfl
    have hflags : notPrintable.isNullable = false ∧ notPrintable.isEmpty = false := by
      rw [notPrintable_eq]
      exact ⟨rfl, rfl⟩
    have hstep : ∀ c ∈ [' ', '!', Char.ofNat 0x10FFFF], notPrintable.derivative c = notPrintable := by
      simp only [forall_mem_cons]
      refine ⟨derivative_notPrintable (by decide), derivative_notPrintable (by decide),
        derivative_notPrintable (by decide), by simp⟩
    simp only [forall_mem_cons] at hstep
    rw [searchWord_eq, buildAlphabet_notPrintable, searchLoop]
    simp [hflags, hsame, hstep, searchLoop, successors, key, bounded,
      depthCap, maxRegexStates, maxRegexWordLen]
  · intro hmem
    have hquotient : [] ∈ ((letters fun c => ' ' ≤ c ∧ c ≤ Char.ofNat 0x10FFFF)∗ : Language Char).leftQuotient ['\n'] :=
      hmem
    rw [leftQuotient_kstar, leftQuotient_letters, if_neg (by decide), zero_mul] at hquotient
    exact notMem_zero _ hquotient

end

end

end Nixie.Strings
