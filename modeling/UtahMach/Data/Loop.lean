import Mathlib

/-!
This module contains loops whose body goes on with another state or leaves the loop with a result.
-/

namespace Loop

variable {σ ρ ε : Type}

abbrev Body (σ ρ ε : Type) := σ → Except ε (σ ⊕ ρ)

def run (body : Body σ ρ ε) : Nat → σ → Except ε (Option ρ)
  | 0, _ => .ok none
  | fuel + 1, s =>
    match body s with
    | .error e => .error e
    | .ok (.inr r) => .ok (some r)
    | .ok (.inl s) => run body fuel s

def states (body : Body σ ρ ε) : Nat → σ → List σ
  | 0, _ => []
  | fuel + 1, s =>
    match body s with
    | .ok (.inl s') => s :: states body fuel s'
    | _ => [s]

variable {body : Body σ ρ ε} {C I : σ → Prop} {size : σ → Nat} {P : ρ → Prop} {fuel : Nat} {s s' : σ}

theorem states_of_next (h : body s = .ok (.inl s')) : states body (fuel + 1) s = s :: states body fuel s' := by
  rw [states, h]

theorem states_of_last (h : body s = .ok (.inr r)) : states body (fuel + 1) s = [s] := by
  rw [states, h]

theorem self_mem_states : s ∈ states body (fuel + 1) s := by
  rw [states]
  split
  . exact List.mem_cons_self
  . exact List.mem_cons_self

def Advances (body : Body σ ρ ε) (I : σ → Prop) (size : σ → Nat) (P : ρ → Prop) (s : σ) : Prop :=
  (∃ s', body s = .ok (.inl s') ∧ I s' ∧ size s' < size s) ∨ ∃ r, body s = .ok (.inr r) ∧ P r

section

variable (hbody : ∀ s, C s → I s → Advances body I size P s) (hC : ∀ x ∈ states body fuel s, C x) (hs : I s)
include hbody hC hs

theorem run_returns (hfuel : size s < fuel) : ∃ r, run body fuel s = .ok (some r) ∧ P r := by
  induction fuel generalizing s with
  | zero => contradiction
  | succ fuel ih =>
    obtain ⟨s', heq, hs', hlt⟩ | ⟨r, heq, hr⟩ := hbody s (hC s self_mem_states) hs
    . rw [run, heq]
      rw [states_of_next heq] at hC
      apply ih _ hs'
      . omega
      . intro x hx
        exact hC x (List.mem_cons_of_mem _ hx)
    . refine ⟨r, ?_, hr⟩
      rw [run, heq]

theorem states_pairwise
    : (∀ x ∈ states body fuel s, size x ≤ size s) ∧ (states body fuel s).Pairwise fun x y => size y < size x := by
  induction fuel generalizing s with
  | zero => exact ⟨nofun, List.Pairwise.nil⟩
  | succ fuel ih =>
    obtain ⟨s', heq, hs', hlt⟩ | ⟨r, heq, -⟩ := hbody s (hC s self_mem_states) hs
    . rw [states_of_next heq] at hC ⊢
      obtain ⟨hle, hpairwise⟩ := ih (fun x hx => hC x (List.mem_cons_of_mem _ hx)) hs'
      have hless (x : σ) (hx : x ∈ states body fuel s') : size x < size s := Nat.lt_of_le_of_lt (hle x hx) hlt
      exact ⟨List.forall_mem_cons.2 ⟨Nat.le_refl _, fun x hx => Nat.le_of_lt (hless x hx)⟩,
        List.Pairwise.cons hless hpairwise⟩
    . rw [states_of_last heq]
      refine ⟨?_, List.pairwise_singleton _ _⟩
      intro x hx
      cases List.mem_singleton.1 hx
      exact Nat.le_refl _

end

theorem run_returns_iff (hfault : ∀ s, I s → ¬ C s → ∃ e, body s = .error e)
    (hbody : ∀ s, C s → I s → Advances body I size P s) (hs : I s) (hfuel : size s < fuel)
    : (∃ r, run body fuel s = .ok (some r)) ↔ ∀ x ∈ states body fuel s, C x := by
  constructor
  . rintro ⟨r, hr⟩
    induction fuel generalizing s with
    | zero => contradiction
    | succ fuel ih =>
      have hC : C s := by
        apply Classical.byContradiction
        intro hC
        obtain ⟨e, he⟩ := hfault s hs hC
        rw [run, he] at hr
        contradiction
      obtain ⟨s', heq, hs', hlt⟩ | ⟨r, heq, -⟩ := hbody s hC hs
      . rw [run, heq] at hr
        rw [states_of_next heq]
        exact List.forall_mem_cons.2 ⟨hC, ih hs' (by omega) hr⟩
      . rw [states_of_last heq]
        exact List.forall_mem_cons.2 ⟨hC, nofun⟩
  . intro hC
    obtain ⟨r, hr, -⟩ := run_returns hbody hC hs hfuel
    exact ⟨r, hr⟩

end Loop
