import Mathlib.Data.List.Induction
import Mathlib.Order.Nat

/-!
Nodes in creation order, each with a value from those before it.
-/

namespace Nixie.Circuit

open List

variable {ν β : Type} {gate : List β → ν → β} {reads : ν → List ℕ} {nodes added : List ν} {i : ℕ} {node : ν}

def values (gate : List β → ν → β) (nodes : List ν) : List β :=
  nodes.foldl (fun vals node => vals ++ [gate vals node]) []

def Ordered (reads : ν → List ℕ) (nodes : List ν) : Prop :=
  ∀ i node, nodes[i]? = some node → ∀ j ∈ reads node, j < i

def Local (reads : ν → List ℕ) (gate : List β → ν → β) : Prop :=
  ∀ node vals vals', (∀ j ∈ reads node, vals[j]? = vals'[j]?) → gate vals node = gate vals' node

theorem values_concat : values gate (nodes ++ [node]) = values gate nodes ++ [gate (values gate nodes) node] := by
  rw [values, foldl_append]
  rfl

@[simp]
theorem length_values : (values gate nodes).length = nodes.length := by
  induction nodes using List.reverseRecOn with
  | nil => rfl
  | append_singleton nodes node ih => rw [values_concat, length_append, length_append, ih]; rfl

theorem values_append_of_lt (hi : i < nodes.length) : (values gate (nodes ++ added))[i]? = (values gate nodes)[i]? := by
  induction added using List.reverseRecOn with
  | nil => rw [append_nil]
  | append_singleton added node ih =>
    rw [← append_assoc, values_concat, getElem?_append_left, ih]
    rw [length_values, length_append]
    omega

theorem Ordered.of_concat (h : Ordered reads (nodes ++ [node])) : Ordered reads nodes := by
  intro i n hn
  refine h i n ?_
  rw [getElem?_append_left (List.getElem?_eq_some_iff.mp hn).1, hn]

theorem Ordered.concat (h : Ordered reads nodes) (hnode : ∀ j ∈ reads node, j < nodes.length) :
    Ordered reads (nodes ++ [node]) := by
  intro i n hn j hj
  rcases Nat.lt_or_ge i nodes.length with hi | hi
  · rw [getElem?_append_left hi] at hn
    exact h i n hn j hj
  · rw [getElem?_append_right hi] at hn
    obtain ⟨hlt, rfl⟩ := List.getElem?_eq_some_iff.mp hn
    simp only [length_singleton] at hlt
    have hget : [node][i - nodes.length] = node := by simp
    rw [hget] at hj
    exact lt_of_lt_of_le (hnode j hj) hi

theorem values_eq (hlocal : Local reads gate) (hordered : Ordered reads nodes) (hnode : nodes[i]? = some node) :
    (values gate nodes)[i]? = some (gate (values gate nodes) node) := by
  induction nodes using List.reverseRecOn with
  | nil => cases hnode
  | append_singleton nodes last ih =>
    have hsame : ∀ j < nodes.length, (values gate (nodes ++ [last]))[j]? = (values gate nodes)[j]? :=
      fun j hj => values_append_of_lt hj
    have hreads := hordered i node hnode
    rcases Nat.lt_or_ge i nodes.length with hi | hi
    · rw [getElem?_append_left hi] at hnode
      rw [hsame i hi, ih hordered.of_concat hnode]
      exact congrArg some (hlocal node _ _ fun j hj => (hsame j ((hreads j hj).trans hi)).symm)
    · obtain ⟨hlt, hget⟩ := List.getElem?_eq_some_iff.mp hnode
      simp only [length_append, length_singleton] at hlt
      obtain rfl : i = nodes.length := by omega
      rw [getElem_concat_length rfl] at hget
      subst hget
      rw [values_concat, getElem?_append_right (by simp), length_values, Nat.sub_self, getElem?_cons_zero]
      refine congrArg some (hlocal last _ _ fun j hj => ?_)
      rw [getElem?_append_left (by rw [length_values]; exact hreads j hj)]

end Nixie.Circuit
