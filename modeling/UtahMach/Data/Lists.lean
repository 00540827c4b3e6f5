import Mathlib

/-!
This module contains lists that are changed at one position.
-/

namespace Lists

variable {α : Type} {f : α → Nat} {l : List α} {i : Nat} {x y : α}

theorem getElem?_append_singleton (h : (l ++ [x])[i]? = some y) : l[i]? = some y ∨ i = l.length ∧ y = x := by
  by_cases hlt : i < l.length
  . rw [List.getElem?_append_left hlt] at h
    exact Or.inl h
  . rw [List.getElem?_append_right (Nat.le_of_not_lt hlt)] at h
    obtain ⟨hlt', hget⟩ := List.getElem?_eq_some_iff.1 h
    rw [List.length_singleton] at hlt'
    rw [List.getElem_singleton] at hget
    exact Or.inr ⟨by omega, hget.symm⟩

theorem forall_set {P : α → Prop} (h : ∀ (k : Nat) a, l[k]? = some a → P a) (hx : P x) (k : Nat) (a : α)
    (ha : (l.set i x)[k]? = some a) : P a := by
  obtain hmem | rfl := List.mem_or_eq_of_mem_set (List.mem_of_getElem? ha)
  . obtain ⟨j, hj⟩ := List.mem_iff_getElem?.1 hmem
    exact h j a hj
  . exact hx

theorem sum_map_set (h : l[i]? = some x) : ((l.set i y).map f).sum + f x = (l.map f).sum + f y := by
  induction l generalizing i with
  | nil => cases h
  | cons z l ih =>
    cases i with
    | zero =>
      cases h
      rw [List.set_cons_zero, List.map_cons, List.map_cons, List.sum_cons, List.sum_cons]
      omega
    | succ i =>
      have := ih (i := i) h
      rw [List.set_cons_succ, List.map_cons, List.map_cons, List.sum_cons, List.sum_cons]
      omega

end Lists
