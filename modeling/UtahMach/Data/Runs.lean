import Mathlib

/-!
This module contains runs, which are consecutive numbers with a property.
-/

namespace Runs

variable {f : Nat → Bool} {s n p q : Nat}

def IsRun (f : Nat → Bool) (s n : Nat) : Prop := ∀ i < n, f (s + i)

def endingAt (f : Nat → Bool) : Nat → Nat
  | 0 => 0
  | p + 1 => if f p then endingAt f p + 1 else 0

theorem endingAt_succ_of_true (h : f p) : endingAt f (p + 1) = endingAt f p + 1 := if_pos h

theorem endingAt_succ_of_false (h : f p = false) : endingAt f (p + 1) = 0 := by
  rw [endingAt, h]
  rfl

theorem endingAt_le (f : Nat → Bool) (p : Nat) : endingAt f p ≤ p := by
  induction p with
  | zero => exact Nat.le_refl _
  | succ p ih =>
    rw [endingAt]
    split <;> omega

theorem isRun_endingAt (f : Nat → Bool) (p : Nat) : IsRun f (p - endingAt f p) (endingAt f p) := by
  induction p with
  | zero => exact nofun
  | succ p ih =>
    intro i hi
    cases hf : f p with
    | false =>
      rw [endingAt_succ_of_false hf] at hi
      contradiction
    | true =>
      have hle := endingAt_le f p
      rw [endingAt_succ_of_true hf] at hi ⊢
      obtain hlt | rfl := Nat.lt_succ_iff_lt_or_eq.1 hi
      . have := ih i hlt
        rwa [Nat.add_sub_add_right]
      . have hp : p + 1 - (endingAt f p + 1) + endingAt f p = p := by omega
        rw [hp]
        exact hf

theorem le_endingAt (h : IsRun f s n) (hp : s + n = p) : n ≤ endingAt f p := by
  induction n generalizing p with
  | zero => exact Nat.zero_le _
  | succ n ih =>
    subst hp
    have hrest := ih (fun i hi => h i (by omega)) rfl
    rw [← Nat.add_assoc, endingAt_succ_of_true (h n (by omega))]
    omega

theorem not_isRun (h : ∀ q ≤ p, endingAt f q < n) (hp : s + n ≤ p) : ¬ IsRun f s n := by
  intro hrun
  have := h (s + n) hp
  have := le_endingAt hrun rfl
  omega

end Runs
