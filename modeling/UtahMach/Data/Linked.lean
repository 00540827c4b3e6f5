import Mathlib

/-!
This module contains singly linked lists.
-/

variable {α : Type} {next : α → Option α} {a b : α} {head : Option α} {l l' : List α}

def Linked (next : α → Option α) : Option α → List α → Prop
  | none, [] => True
  | some a, b :: l => a = b ∧ Linked next (next a) l
  | none, _ :: _ => False
  | some _, [] => False

namespace Linked

open Function

theorem nil_iff : Linked next head [] ↔ head = none := by
  cases head <;> simp [Linked]

theorem cons_iff : Linked next head (a :: l) ↔ head = some a ∧ Linked next (next a) l := by
  cases head with
  | none => simp [Linked]
  | some b =>
    simp only [Linked, Option.some.injEq]
    constructor
    . rintro ⟨rfl, h⟩
      exact ⟨rfl, h⟩
    . rintro ⟨rfl, h⟩
      exact ⟨rfl, h⟩

theorem head_eq (h : Linked next head l) : head = l.head? := by
  cases l with
  | nil => exact nil_iff.1 h
  | cons a l => exact (cons_iff.1 h).1

theorem of_append (h : Linked next head (l ++ a :: l')) : Linked next (next a) l' := by
  induction l generalizing head with
  | nil => exact (cons_iff.1 h).2
  | cons b l ih => exact ih (cons_iff.1 h).2

theorem unique (h : Linked next head l) (h' : Linked next head l') : l = l' := by
  induction l generalizing head l' with
  | nil =>
    obtain rfl := nil_iff.1 h
    cases l' with
    | nil => rfl
    | cons b l' => simp [Linked] at h'
  | cons a l ih =>
    obtain ⟨rfl, hrest⟩ := cons_iff.1 h
    cases l' with
    | nil => simp [Linked] at h'
    | cons b l' =>
      obtain ⟨hb, h'⟩ := cons_iff.1 h'
      cases hb
      rw [ih hrest h']

theorem congr (h : Linked next head l) (heq : ∀ a ∈ l, next' a = next a) : Linked next' head l := by
  induction l generalizing head with
  | nil => exact nil_iff.2 (nil_iff.1 h)
  | cons b l ih =>
    obtain ⟨rfl, hrest⟩ := cons_iff.1 h
    rw [List.forall_mem_cons] at heq
    apply cons_iff.2
    refine ⟨rfl, ?_⟩
    rw [heq.1]
    exact ih hrest heq.2

variable [DecidableEq α]

theorem update_of_notMem (h : Linked next head l) (ha : a ∉ l) (x : Option α) : Linked (update next a x) head l := by
  apply h.congr
  intro b hb
  apply update_of_ne
  rintro rfl
  exact ha hb

theorem unlink (h : Linked next head (l ++ a :: b :: l')) (hnodup : (l ++ a :: b :: l').Nodup)
    : Linked (update next a (next b)) head (l ++ a :: l') := by
  induction l generalizing head with
  | nil =>
    obtain ⟨rfl, hrest⟩ := cons_iff.1 h
    obtain ⟨-, hrest⟩ := cons_iff.1 hrest
    apply cons_iff.2
    refine ⟨rfl, ?_⟩
    rw [update_self]
    apply hrest.update_of_notMem
    intro ha
    exact (List.nodup_cons.1 hnodup).1 (by simp [ha])
  | cons c l ih =>
    obtain ⟨rfl, hrest⟩ := cons_iff.1 h
    obtain ⟨hc, hnodup⟩ := List.nodup_cons.1 hnodup
    have hne : c ≠ a := fun heq => hc (by simp [heq])
    apply cons_iff.2
    refine ⟨rfl, ?_⟩
    rw [update_of_ne hne]
    exact ih hrest hnodup

end Linked
