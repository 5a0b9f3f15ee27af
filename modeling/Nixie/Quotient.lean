import Mathlib.Computability.MyhillNerode

namespace Nixie.Quotient

open Language Computability List

variable {α : Type*} {L M : Language α} {a : α} {w : List α}

/-- The words that are the product of between `min` and `max` words of the language; no `max` is no upper end. -/
def between (L : Language α) (min : ℕ) (max : Option ℕ) : Language α :=
  {w | ∃ k, min ≤ k ∧ (∀ m ∈ max, k ≤ m) ∧ w ∈ L ^ k}

theorem mem_between {min : ℕ} {max : Option ℕ} :
    w ∈ between L min max ↔ ∃ k, min ≤ k ∧ (∀ m ∈ max, k ≤ m) ∧ w ∈ L ^ k :=
  Iff.rfl

def letters (p : α → Prop) : Language α :=
  {w | ∃ a, p a ∧ w = [a]}

@[simp] theorem mem_letters {p : α → Prop} : w ∈ letters p ↔ ∃ a, p a ∧ w = [a] :=
  Iff.rfl

theorem cons_mem_mul : a :: w ∈ L * M ↔ w ∈ L.leftQuotient [a] * M ∨ [] ∈ L ∧ w ∈ M.leftQuotient [a] := by
  simp only [mem_mul, mem_leftQuotient, cons_append, nil_append]
  constructor
  · rintro ⟨x, hx, y, hy, hxy⟩
    cases x with
    | nil =>
      rw [nil_append] at hxy
      exact .inr ⟨hx, hxy ▸ hy⟩
    | cons b x =>
      rw [cons_append, List.cons.injEq] at hxy
      obtain ⟨rfl, rfl⟩ := hxy
      exact .inl ⟨x, hx, y, hy, rfl⟩
  · rintro (⟨x, hx, y, hy, rfl⟩ | ⟨hL, hw⟩)
    · exact ⟨a :: x, hx, y, hy, rfl⟩
    · exact ⟨[], hL, a :: w, hw, rfl⟩

theorem leftQuotient_one : (1 : Language α).leftQuotient [a] = 0 := by
  ext w
  simp

theorem leftQuotient_letters (p : α → Prop) [Decidable (p a)] :
    (letters p).leftQuotient [a] = if p a then 1 else 0 := by
  ext w
  by_cases ha : p a <;> simp [ha]

theorem leftQuotient_mul [Decidable ([] ∈ L)] :
    (L * M).leftQuotient [a] =
      L.leftQuotient [a] * M + if [] ∈ L then M.leftQuotient [a] else 0 := by
  ext w
  rw [mem_leftQuotient, cons_append, nil_append, cons_mem_mul, mem_add]
  split <;> simp_all

theorem leftQuotient_kstar : (L∗).leftQuotient [a] = L.leftQuotient [a] * L∗ := by
  ext w
  rw [mem_leftQuotient, cons_append, nil_append, mem_kstar_iff_exists_nonempty, mem_mul]
  constructor
  · rintro ⟨ws, hws, hmem⟩
    cases ws with
    | nil => cases hws
    | cons x ws =>
      obtain ⟨hx, hne⟩ := hmem x mem_cons_self
      obtain ⟨b, x, rfl⟩ := exists_cons_of_ne_nil hne
      rw [flatten_cons, cons_append, List.cons.injEq] at hws
      obtain ⟨rfl, rfl⟩ := hws
      refine ⟨x, hx, ws.flatten, join_mem_kstar ?_, rfl⟩
      exact fun y hy => (hmem y (mem_cons_of_mem _ hy)).1
  · rintro ⟨x, hx, y, hy, rfl⟩
    obtain ⟨ws, rfl, hws⟩ := mem_kstar_iff_exists_nonempty.mp hy
    refine ⟨(a :: x) :: ws, rfl, fun y hy => ?_⟩
    rcases mem_cons.mp hy with rfl | hy
    · exact ⟨hx, cons_ne_nil _ _⟩
    · exact hws y hy

theorem leftQuotient_mul_kstar : (L * L∗).leftQuotient [a] = L.leftQuotient [a] * L∗ := by
  ext w
  rw [mem_leftQuotient, singleton_append, cons_mem_mul, leftQuotient_kstar]
  exact or_iff_left_of_imp And.right

theorem leftQuotient_pow_succ (k : ℕ) : (L ^ (k + 1)).leftQuotient [a] = L.leftQuotient [a] * L ^ k := by
  classical
  induction k with
  | zero => simp
  | succ k ih =>
    rw [pow_succ' L (k + 1), leftQuotient_mul, ih]
    split
    case isFalse => simp
    case isTrue hL =>
      have hone : (1 : Language α) ≤ L := by
        intro w hw
        rwa [(mem_one w).mp hw]
      have hle : L.leftQuotient [a] * L ^ k ≤ L.leftQuotient [a] * L ^ (k + 1) := by
        rw [pow_succ']
        exact mul_le_mul_right (le_mul_of_one_le_left' hone) _
      exact le_antisymm (sup_le le_rfl hle) le_sup_left

theorem leftQuotient_between {min : ℕ} {max : Option ℕ} (hmax : max ≠ some 0) : (between L min max).leftQuotient [a] =
    L.leftQuotient [a] * between L (min - 1) (max.map (· - 1)) := by
  ext w
  simp only [mem_leftQuotient, cons_append, nil_append, mem_between, mem_mul]
  constructor
  · rintro ⟨k, hmin, hk, hw⟩
    cases k with
    | zero => simp at hw
    | succ k =>
      have hw' : w ∈ (L ^ (k + 1)).leftQuotient [a] := hw
      rw [leftQuotient_pow_succ] at hw'
      obtain ⟨x, hx, y, hy, rfl⟩ := mem_mul.mp hw'
      refine ⟨x, hx, y, ⟨k, by omega, ?_, hy⟩, rfl⟩
      simp only [Option.mem_def, Option.map_eq_some_iff]
      rintro _ ⟨m, hm, rfl⟩
      have := hk m hm
      omega
  · rintro ⟨x, hx, y, ⟨k, hmin, hk, hy⟩, rfl⟩
    refine ⟨k + 1, by omega, fun m hm => ?_, ?_⟩
    · have hm0 : m ≠ 0 := by
        rintro rfl
        exact hmax hm
      have := hk (m - 1) (by simp [Option.mem_def.mp hm])
      omega
    · have hmem : x ++ y ∈ (L ^ (k + 1)).leftQuotient [a] := by
        rw [leftQuotient_pow_succ]
        exact append_mem_mul hx hy
      exact hmem

theorem between_zero_zero : between L 0 (some 0) = 1 := by
  ext w
  rw [mem_between]
  constructor
  · rintro ⟨k, -, hk, hw⟩
    have hk0 : k = 0 := by simpa using hk
    rwa [hk0, pow_zero] at hw
  · intro hw
    exact ⟨0, le_rfl, by simp, by rwa [pow_zero]⟩

theorem between_of_lt {min m : ℕ} (h : m < min) : between L min (some m) = 0 := by
  ext w
  simp only [mem_between, notMem_zero, iff_false, not_exists, not_and]
  intro k hmin hk
  have := hk m rfl
  omega

theorem zero_between {min : ℕ} {max : Option ℕ} (hmin : 0 < min) : between (0 : Language α) min max = 0 := by
  ext w
  simp only [mem_between, notMem_zero, iff_false, not_exists, not_and]
  intro k hk
  rw [zero_pow (by omega)]
  exact fun _ => notMem_zero w

theorem one_between {min : ℕ} {max : Option ℕ} (h : ∀ m ∈ max, min ≤ m) : between (1 : Language α) min max = 1 := by
  ext w
  simp only [mem_between, one_pow]
  exact ⟨fun ⟨_, _, _, hw⟩ => hw, fun hw => ⟨min, le_rfl, h, hw⟩⟩

theorem nil_mem_pow {k : ℕ} : [] ∈ L ^ k ↔ k = 0 ∨ [] ∈ L := by
  induction k with
  | zero => simp
  | succ k ih =>
    rw [pow_succ, mem_mul]
    constructor
    · rintro ⟨x, hx, y, hy, hxy⟩
      obtain ⟨rfl, rfl⟩ := append_eq_nil_iff.mp hxy
      exact .inr hy
    · rintro (h | h)
      · omega
      · exact ⟨[], ih.mpr (.inr h), [], h, rfl⟩

theorem nil_mem_between {min : ℕ} {max : Option ℕ} (h : ∀ m ∈ max, min ≤ m) :
    [] ∈ between L min max ↔ min = 0 ∨ [] ∈ L := by
  simp only [mem_between, nil_mem_pow]
  constructor
  · rintro ⟨k, hk, -, rfl | hL⟩
    · exact .inl (by omega)
    · exact .inr hL
  · intro hL
    exact ⟨min, le_rfl, h, hL⟩

theorem nil_mem_mul : [] ∈ L * M ↔ [] ∈ L ∧ [] ∈ M := by
  simp [mem_mul]

theorem nil_mem_prod {Ls : List (Language α)} : [] ∈ Ls.prod ↔ ∀ L ∈ Ls, [] ∈ L := by
  induction Ls with
  | nil => simp
  | cons L Ls ih => rw [prod_cons, nil_mem_mul, ih, forall_mem_cons]

end Nixie.Quotient
