import Mathlib.Data.List.Basic

/-!
Records of varying length laid end to end in one flat vector of words and addressed by the
offset of their first word.
-/

namespace Nixie.Records

open List

variable {α β : Type*} (words : α → List β)

def encode (cs : List α) : List β := cs.flatMap words

def lookup : List α → ℕ → Option α
  | [], _ => none
  | c :: cs, r =>
    if r = 0 then some c
    else if r < (words c).length then none
    else lookup cs (r - (words c).length)

variable {words} {cs pre post : List α} {c d : α} {r : ℕ}

@[simp]
theorem encode_nil : encode words [] = [] := rfl

@[simp]
theorem encode_cons : encode words (c :: cs) = words c ++ encode words cs := by
  simp [encode]

@[simp]
theorem encode_append : encode words (pre ++ post) = encode words pre ++ encode words post := by
  simp [encode]

section

variable (h : lookup words cs r = some c)
include h

theorem split_of_lookup : ∃ pre post, cs = pre ++ c :: post ∧ r = (encode words pre).length := by
  induction cs generalizing r with
  | nil => simp [lookup] at h
  | cons d cs ih =>
    simp only [lookup] at h
    split at h
    · next hr =>
      obtain rfl : d = c := by simpa using h
      exact ⟨[], cs, rfl, by simpa using hr⟩
    · split at h
      · simp at h
      · next hlt =>
        obtain ⟨pre, post, rfl, hr⟩ := ih h
        refine ⟨d :: pre, post, rfl, ?_⟩
        simp only [encode_cons, length_append]
        omega

theorem add_length_le_of_lookup : r + (words c).length ≤ (encode words cs).length := by
  obtain ⟨pre, post, rfl, rfl⟩ := split_of_lookup h
  simp only [encode_append, encode_cons, length_append]
  omega

theorem drop_of_lookup : ∃ rest, (encode words cs).drop r = words c ++ rest := by
  obtain ⟨pre, post, rfl, rfl⟩ := split_of_lookup h
  refine ⟨encode words post, ?_⟩
  simp

end

section

variable (hpos : ∀ c, words c ≠ [])

include hpos

theorem lookup_append (r : ℕ) :
    lookup words (pre ++ c :: post) r =
      if r < (encode words pre).length then lookup words pre r
      else lookup words (c :: post) (r - (encode words pre).length) := by
  induction pre generalizing r with
  | nil => simp
  | cons d pre ih =>
    have hd : 0 < (words d).length := List.length_pos_iff.mpr (hpos d)
    rw [cons_append, lookup, encode_cons, length_append, ih, lookup.eq_2 words r d pre]
    by_cases h0 : r = 0
    · simp [h0, hd, Nat.add_pos_left]
    · by_cases h1 : r < (words d).length
      · simp [h0, h1, Nat.lt_add_right]
      · rw [if_neg h0, if_neg h1, if_neg h0, if_neg h1, Nat.sub_sub]
        by_cases h2 : r - (words d).length < (encode words pre).length
        · rw [if_pos h2, if_pos (by omega)]
        · rw [if_neg h2, if_neg (by omega)]

theorem lookup_at : lookup words (pre ++ c :: post) (encode words pre).length = some c := by
  simp [lookup_append hpos, lookup]

theorem lookup_replace (hlen : (words d).length = (words c).length) (r : ℕ) :
    lookup words (pre ++ d :: post) r =
      if r = (encode words pre).length then some d else lookup words (pre ++ c :: post) r := by
  by_cases hr : r = (encode words pre).length
  · simp [hr, lookup_at hpos]
  · rw [if_neg hr, lookup_append hpos, lookup_append hpos]
    split
    · rfl
    · have h0 : r - (encode words pre).length ≠ 0 := by omega
      simp [lookup, h0, hlen]

theorem lookup_push (cs : List α) (c : α) (r : ℕ) :
    lookup words (cs ++ [c]) r =
      if r = (encode words cs).length then some c else lookup words cs r := by
  by_cases hr : r = (encode words cs).length
  · simp [hr, lookup_at hpos]
  · rw [if_neg hr, lookup_append hpos]
    split
    · rfl
    · next hlt =>
      have hout : lookup words cs r = none := by
        cases hl : lookup words cs r with
        | none => rfl
        | some d =>
          have hle := add_length_le_of_lookup hl
          omega
      have h0 : r - (encode words cs).length ≠ 0 := by omega
      simp [lookup, h0, hout]

theorem lookup_next (h : lookup words cs r = some c) : r + (words c).length = (encode words cs).length ∨
    ∃ d, lookup words cs (r + (words c).length) = some d := by
  obtain ⟨pre, post, rfl, rfl⟩ := split_of_lookup h
  cases post with
  | nil =>
    left
    simp
  | cons d post =>
    right
    have hsplit : pre ++ c :: d :: post = (pre ++ [c]) ++ d :: post := by simp
    have hlen : (encode words pre).length + (words c).length = (encode words (pre ++ [c])).length := by
      simp
    rw [hsplit, hlen]
    exact ⟨d, lookup_at hpos⟩

theorem lookup_apart {s : ℕ} (h : lookup words cs r = some c) (hs : lookup words cs s = some d) :
    s ≤ r ∨ r + (words c).length ≤ s := by
  obtain ⟨pre, post, rfl, rfl⟩ := split_of_lookup h
  rw [lookup_append hpos] at hs
  split at hs
  · exact .inl (by omega)
  · simp only [lookup] at hs
    split_ifs at hs
    · exact .inl (by omega)
    · exact .inr (by omega)

end

end Nixie.Records
