import Mathlib

/-!
This module contains chains of links.
-/

namespace Chain

open Function

variable {α : Type} {next : α → Option α} {a b c : α}

def Reaches (next : α → Option α) : α → α → Prop := Relation.ReflTransGen fun a b => next a = some b

def Acyclic (next : α → Option α) : Prop := WellFounded fun b a => next a = some b

theorem Reaches.head (h : next a = some b) (hr : Reaches next b c) : Reaches next a c := Relation.ReflTransGen.head h hr

theorem Reaches.cases_head (h : Reaches next a c) : a = c ∨ ∃ b, next a = some b ∧ Reaches next b c :=
  Relation.ReflTransGen.cases_head h

theorem Reaches.of_next (h : Reaches next a c) (hne : a ≠ c) (hab : next a = some b) : Reaches next b c := by
  obtain heq | ⟨b', hb', hr⟩ := h.cases_head
  . exact absurd heq hne
  . rw [hab] at hb'
    injection hb' with hb'
    rw [hb']
    exact hr

theorem Reaches.eq_of_end (h : Reaches next a c) (hend : next a = none) : a = c := by
  obtain heq | ⟨b, hb, -⟩ := h.cases_head
  . exact heq
  . rw [hend] at hb
    contradiction

theorem Reaches.end_unique (hb : Reaches next a b) (hc : Reaches next a c) (hbend : next b = none)
    (hcend : next c = none) : b = c := by
  induction hb using Relation.ReflTransGen.head_induction_on with
  | refl => exact Reaches.eq_of_end hc hbend
  | head hlink _ ih =>
    apply ih
    apply hc.of_next _ hlink
    intro heq
    rw [heq, hcend] at hlink
    contradiction

theorem Reaches.mono (hsub : ∀ y z, next' y = some z → next y = some z)
    (h : Reaches next' a b) : Reaches next a b := by
  induction h with
  | refl => exact .refl
  | @tail y z _ hlink ih => exact .tail ih (hsub y z hlink)

theorem acyclic_of_lt (f : α → Nat) (h : ∀ a b, next a = some b → f b < f a) : Acyclic next :=
  Subrelation.wf (fun hlink => h _ _ hlink) (InvImage.wf f Nat.lt_wfRel.wf)

def Skips (next next' : α → Option α) (a b : α) : Prop :=
  ∀ y z, next' y = some z → (y = a ∧ next b = some z) ∨ (y ≠ a ∧ next y = some z)

theorem Skips.reaches (hskips : Skips next next' a b) (hab : next a = some b)
    (h : Reaches next' a c) : Reaches next a c := by
  induction h with
  | refl => exact .refl
  | @tail y z _ hlink ih =>
    obtain ⟨rfl, hlink⟩ | ⟨-, hlink⟩ := hskips y z hlink
    . exact .tail (.tail .refl hab) hlink
    . exact .tail ih hlink

namespace Acyclic

theorem not_reaches (h : Acyclic next) (hab : next a = some b) : ¬ Reaches next b a := by
  intro hr
  have htrans : Relation.TransGen (fun b a => next a = some b) a a := by
    have hgen : Relation.TransGen (fun a b => next a = some b) a a := .head' hab hr
    exact Relation.transGen_swap.mp hgen
  exact h.transGen.irrefl.irrefl a htrans

-- the element that is skipped is not reached any more
theorem not_reaches_of_skips (h : Acyclic next) (hskips : Skips next next' a b)
    (hab : next a = some b) : ¬ Reaches next' a b := by
  intro hr
  obtain heq | ⟨y, hr, hlink⟩ := Relation.ReflTransGen.cases_tail hr
  . exact h.not_reaches hab (heq ▸ .refl)
  . obtain ⟨-, hlink⟩ | ⟨hne, hlink⟩ := hskips y b hlink
    . exact h.not_reaches hlink .refl
    . exact h.not_reaches hlink ((hskips.reaches hab hr).of_next (Ne.symm hne) hab)

theorem exists_end (h : Acyclic next) (a : α) : ∃ b, Reaches next a b ∧ next b = none := by
  induction a using h.induction with
  | h a ih =>
    cases hab : next a with
    | none => exact ⟨a, .refl, hab⟩
    | some b =>
      obtain ⟨c, hr, hend⟩ := ih b hab
      exact ⟨c, hr.head hab, hend⟩

variable [DecidableEq α]

theorem update_none (h : Acyclic next) (a : α) : Acyclic (update next a none) := by
  apply Subrelation.wf _ h
  intro b c hlink
  by_cases hc : c = a
  . rw [hc, update_self] at hlink
    contradiction
  . rw [update_of_ne hc] at hlink
    exact hlink

theorem update_some (h : Acyclic next) (hno : ¬ Reaches next b a) : Acyclic (update next a (some b)) := by
  -- a chain that does not come to `a` is as before
  have hfar : ∀ c, ¬ Reaches next c a → Acc (fun x y => update next a (some b) y = some x) c := by
    intro c
    induction c using h.induction with
    | h c ih =>
      intro hc
      constructor
      intro d hlink
      have hne : c ≠ a := fun heq => hc (heq ▸ .refl)
      rw [update_of_ne hne] at hlink
      exact ih d hlink fun hd => hc (hd.head hlink)
  have ha : Acc (fun x y => update next a (some b) y = some x) a := by
    constructor
    intro d hlink
    rw [update_self] at hlink
    cases hlink
    exact hfar b hno
  constructor
  intro c
  induction c using h.induction with
  | h c ih =>
    by_cases hne : c = a
    . rw [hne]
      exact ha
    . constructor
      intro d hlink
      rw [update_of_ne hne] at hlink
      exact ih d hlink

end Acyclic

def follow (next : α → Option α) : Nat → α → Option α
  | 0, _ => none
  | fuel + 1, a =>
    match next a with
    | none => some a
    | some b => follow next fuel b

theorem follow_spec (h : Acyclic next) (s : Finset α) [DecidableEq α]
    (hs : ∀ c, Reaches next a c → next c ≠ none → c ∈ s)
    : ∃ b, follow next (s.card + 1) a = some b ∧ Reaches next a b ∧ next b = none := by
  induction hcard : s.card generalizing s a with
  | zero =>
    have hend : next a = none := by
      by_contra hne
      have hmem := hs a .refl hne
      rw [Finset.card_eq_zero.mp hcard] at hmem
      exact absurd hmem (Finset.notMem_empty a)
    refine ⟨a, ?_, .refl, hend⟩
    simp [follow, hend]
  | succ n ih =>
    cases hab : next a with
    | none =>
      refine ⟨a, ?_, .refl, hab⟩
      simp [follow, hab]
    | some b =>
      have hmem : a ∈ s := hs a .refl (by rw [hab]; exact Option.some_ne_none b)
      obtain ⟨c, hfollow, hr, hend⟩ := ih (a := b) (s.erase a) (by
        intro c hbc hc
        refine Finset.mem_erase.mpr ⟨fun heq => ?_, hs c (hbc.head hab) hc⟩
        exact h.not_reaches hab (heq ▸ hbc)) (by rw [Finset.card_erase_of_mem hmem, hcard]; rfl)
      refine ⟨c, ?_, hr.head hab, hend⟩
      rw [follow, hab]
      exact hfollow

end Chain
