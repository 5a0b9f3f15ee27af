import Mathlib.Tactic.Common

/-!
UTF-8 texts as lists of bytes: `str::from_utf8` and where a text may be cut.
-/

namespace Nixie.Rust

open List Nat

def utf8 (cs : List Char) : List UInt8 := cs.flatMap String.utf8EncodeChar

def fromUtf8 (bs : List UInt8) : Option (List Char) := bs.toByteArray.utf8Decode?.map Array.toList

def IsUtf8 (bs : List UInt8) : Prop := ∃ cs, bs = utf8 cs

def IsAscii (bs : List UInt8) : Prop := ∀ b ∈ bs, b < 128

variable {bs bs' xs ys : List UInt8} {cs : List Char} {b : UInt8} {c : Char}

theorem toByteArray_utf8 : (utf8 cs).toByteArray = cs.utf8Encode := rfl

@[simp]
theorem utf8_nil : utf8 [] = [] := rfl

theorem utf8_cons : utf8 (c :: cs) = String.utf8EncodeChar c ++ utf8 cs := rfl

theorem utf8_append {cs' : List Char} : utf8 (cs ++ cs') = utf8 cs ++ utf8 cs' := flatMap_append

theorem fromUtf8_utf8 : fromUtf8 (utf8 cs) = some cs := by
  rw [fromUtf8, toByteArray_utf8, utf8Decode?_utf8Encode, Option.map_some]

theorem isSome_fromUtf8 : (fromUtf8 bs).isSome ↔ IsUtf8 bs := by
  rw [fromUtf8, Option.isSome_map, ByteArray.isSome_utf8Decode?_iff]
  constructor
  · rintro ⟨cs, hcs⟩
    exact ⟨cs, toByteArray_inj.mp hcs⟩
  · rintro ⟨cs, rfl⟩
    exact ⟨cs, rfl⟩

theorem isUtf8_nil : IsUtf8 [] := ⟨[], rfl⟩

theorem IsUtf8.append (h : IsUtf8 xs) (h' : IsUtf8 ys) : IsUtf8 (xs ++ ys) := by
  obtain ⟨cs, rfl⟩ := h
  obtain ⟨cs', rfl⟩ := h'
  exact ⟨cs ++ cs', utf8_append.symm⟩

theorem utf8EncodeChar_cases : (∃ b < 128, String.utf8EncodeChar c = [b]) ∨ (∀ b ∈ String.utf8EncodeChar c, 128 ≤ b) ∧
    2 ≤ (String.utf8EncodeChar c).length := by
  have hhigh : ∀ n : ℕ, 128 ≤ n → n < 256 → 128 ≤ UInt8.ofNat n := by
    intro n hn hn'
    rw [UInt8.le_iff_toNat_le, UInt8.toNat_ofNat', mod_eq_of_lt hn']
    exact hn
  fun_cases String.utf8EncodeChar with
  | case1 v hv =>
    refine .inl ⟨UInt8.ofNat v, ?_, rfl⟩
    rw [UInt8.lt_iff_toNat_lt, UInt8.toNat_ofNat', mod_eq_of_lt (by omega)]
    exact lt_succ_of_le hv
  | case2 v _ hv =>
    refine .inr ⟨?_, by simp⟩
    simp only [forall_mem_cons]
    refine ⟨hhigh _ ?_ ?_, hhigh _ ?_ ?_, by simp⟩ <;> omega
  | case3 v _ _ hv =>
    refine .inr ⟨?_, by simp⟩
    simp only [forall_mem_cons]
    refine ⟨hhigh _ ?_ ?_, hhigh _ ?_ ?_, hhigh _ ?_ ?_, by simp⟩ <;> omega
  | case4 v =>
    refine .inr ⟨?_, by simp⟩
    simp only [forall_mem_cons]
    refine ⟨hhigh _ ?_ ?_, hhigh _ ?_ ?_, hhigh _ ?_ ?_, hhigh _ ?_ ?_, by simp⟩ <;> omega

theorem utf8EncodeChar_of_mem (hb : b < 128) (hmem : b ∈ String.utf8EncodeChar c) : String.utf8EncodeChar c = [b] := by
  obtain ⟨b', -, heq⟩ | ⟨hhigh, -⟩ := utf8EncodeChar_cases (c := c)
  · rw [heq, mem_singleton] at hmem
    rw [heq, hmem]
  · exact absurd (hhigh b hmem) (UInt8.not_le.mpr hb)

theorem IsUtf8.cut (h : IsUtf8 (xs ++ b :: ys)) (hb : b < 128) : IsUtf8 (xs ++ [b]) ∧ IsUtf8 ys := by
  obtain ⟨cs, hcs⟩ := h
  induction cs generalizing xs with
  | nil => simp at hcs
  | cons c cs ih =>
    rw [utf8_cons] at hcs
    have hc : IsUtf8 (String.utf8EncodeChar c) := ⟨[c], by simp [utf8_cons]⟩
    obtain ⟨zs, hzs, hrest⟩ | ⟨zs, rfl, hrest⟩ := append_eq_append_iff.mp hcs
    · cases zs with
      | nil =>
        rw [append_nil] at hzs
        obtain ⟨hleft, hright⟩ := @ih [] hrest
        exact ⟨hzs ▸ hc.append hleft, hright⟩
      | cons z zs =>
        obtain ⟨rfl, hys⟩ := List.cons.inj hrest
        -- The byte is a whole character, so the cut falls right after it.
        have hsingle := utf8EncodeChar_of_mem hb (by rw [hzs]; simp)
        rw [hzs, append_eq_singleton_iff] at hsingle
        obtain ⟨rfl, hzs'⟩ | ⟨-, hzs'⟩ := hsingle
        · obtain ⟨-, rfl⟩ := List.cons.inj hzs'
          exact ⟨hzs ▸ hc, cs, hys⟩
        · cases hzs'
    · obtain ⟨hleft, hright⟩ := ih hrest.symm
      exact ⟨append_assoc _ zs [b] ▸ hc.append hleft, hright⟩

theorem IsAscii.isUtf8 (h : IsAscii bs) : IsUtf8 bs := by
  induction bs with
  | nil => exact isUtf8_nil
  | cons b bs ih =>
    obtain ⟨hb, hbs⟩ := forall_mem_cons.mp h
    have hone : IsUtf8 [b] := by
      refine ⟨[Char.ofNat b.toNat], ?_⟩
      have hlt : b.toNat < 128 := hb
      have hval : (Char.ofNat b.toNat).val.toNat = b.toNat := by
        have hvalid : b.toNat.isValidChar := .inl (by omega)
        rw [Char.ofNat, dif_pos hvalid]
        rfl
      simp only [utf8_cons, String.utf8EncodeChar, hval]
      rw [if_pos (by omega), UInt8.ofNat_toNat]
      rfl
    exact hone.append (ih hbs)

theorem utf8_of_ascii (h : ∀ c ∈ cs, c.toNat < 128) : utf8 cs = cs.map fun c => UInt8.ofNat c.toNat := by
  induction cs with
  | nil => rfl
  | cons c cs ih =>
    obtain ⟨hc, hcs⟩ := forall_mem_cons.mp h
    have hval : c.val.toNat ≤ 0x7f := le_of_lt_succ hc
    rw [utf8_cons, ih hcs, String.utf8EncodeChar]
    simp only [hval, if_true]
    rfl

theorem isAscii_utf8 (h : ∀ c ∈ cs, c.toNat < 128) : IsAscii (utf8 cs) := by
  rw [utf8_of_ascii h]
  intro b hb
  obtain ⟨c, hc, rfl⟩ := mem_map.mp hb
  have hlt := h c hc
  rw [UInt8.lt_iff_toNat_lt, UInt8.toNat_ofNat', mod_eq_of_lt (by omega)]
  exact hlt

theorem not_isUtf8_append (h : IsAscii xs) (hb : 128 ≤ b) : ¬ IsUtf8 (xs ++ [b]) := by
  induction xs with
  | nil =>
    rintro ⟨cs, hcs⟩
    cases cs with
    | nil => simp at hcs
    | cons c cs =>
      rw [utf8_cons, nil_append] at hcs
      have hlength := congrArg List.length hcs
      rw [length_singleton, length_append] at hlength
      obtain ⟨b', hb', heq⟩ | ⟨-, htwo⟩ := utf8EncodeChar_cases (c := c)
      · rw [heq] at hcs
        obtain rfl : b = b' := (List.cons.inj hcs).1
        exact absurd hb (UInt8.not_le.mpr hb')
      · omega
  | cons x xs ih =>
    obtain ⟨hx, hxs⟩ := forall_mem_cons.mp h
    intro hutf8
    have hcut : IsUtf8 ([] ++ x :: (xs ++ [b])) := hutf8
    exact ih hxs (hcut.cut hx).2

end Nixie.Rust
