import Mathlib

/-!
This module contains lists of segments that are sorted by address and do not overlap, and the segment of
such a list that an address is in.
-/

namespace Segments

variable {α : Type}

structure Sorted (lo hi : α → Nat) (l : List α) : Prop where
  lt : ∀ e ∈ l, lo e < hi e
  pairwise : l.Pairwise fun e f => hi e ≤ lo f

def segmentAt (lo hi : α → Nat) (l : List α) (p : Nat) : Option α := l.find? fun e => decide (lo e ≤ p ∧ p < hi e)

def total (lo hi : α → Nat) (l : List α) : Nat := (l.map fun e => hi e - lo e).sum

variable {lo hi : α → Nat} {l l' : List α} {e f : α} {p : Nat}

instance (lo hi : α → Nat) (l : List α) : Decidable (Sorted lo hi l) :=
  decidable_of_iff ((∀ e ∈ l, lo e < hi e) ∧ l.Pairwise fun e f => hi e ≤ lo f)
    ⟨fun h => ⟨h.1, h.2⟩, fun h => ⟨h.lt, h.pairwise⟩⟩

namespace Sorted

theorem cons_iff : Sorted lo hi (e :: l) ↔ lo e < hi e ∧ (∀ f ∈ l, hi e ≤ lo f) ∧ Sorted lo hi l := by
  constructor
  . intro h
    have hp := List.pairwise_cons.1 h.pairwise
    exact ⟨h.lt e (by simp), hp.1, fun f hf => h.lt f (by simp [hf]), hp.2⟩
  . rintro ⟨hlt, hle, h⟩
    exact ⟨List.forall_mem_cons.2 ⟨hlt, h.lt⟩, List.pairwise_cons.2 ⟨hle, h.pairwise⟩⟩

theorem append_iff : Sorted lo hi (l ++ l') ↔
      Sorted lo hi l ∧ Sorted lo hi l' ∧ ∀ e ∈ l, ∀ f ∈ l', hi e ≤ lo f := by
  constructor
  . intro h
    have hp := List.pairwise_append.1 h.pairwise
    exact ⟨⟨fun e he => h.lt e (by simp [he]), hp.1⟩, ⟨fun e he => h.lt e (by simp [he]), hp.2.1⟩, hp.2.2⟩
  . rintro ⟨h, h', hle⟩
    exact ⟨List.forall_mem_append.2 ⟨h.lt, h'.lt⟩, List.pairwise_append.2 ⟨h.pairwise, h'.pairwise, hle⟩⟩

theorem split (h : Sorted lo hi (l ++ e :: l')) (hx : lo x = lo e) (hxy : hi x = lo y) (hy : hi y = hi e)
    (hlt : lo e < lo y) (hlt' : lo y < hi e) : Sorted lo hi (l ++ x :: y :: l') := by
  obtain ⟨hl, he, hle⟩ := append_iff.1 h
  obtain ⟨_, hle', hl'⟩ := cons_iff.1 he
  refine append_iff.2 ⟨hl, cons_iff.2 ⟨by omega, ?_, cons_iff.2 ⟨by omega, ?_, hl'⟩⟩, ?_⟩
  . refine List.forall_mem_cons.2 ⟨Nat.le_of_eq hxy, fun f hf => ?_⟩
    have := hle' f hf
    omega
  . intro f hf
    have := hle' f hf
    omega
  . intro d hd
    obtain ⟨hde, hle⟩ := List.forall_mem_cons.1 (hle d hd)
    exact List.forall_mem_cons.2 ⟨by omega, List.forall_mem_cons.2 ⟨by omega, hle⟩⟩

end Sorted

theorem segmentAt_append : segmentAt lo hi (l ++ l') p = (segmentAt lo hi l p).or (segmentAt lo hi l' p) :=
  List.find?_append

theorem segmentAt_cons : segmentAt lo hi (e :: l) p = if lo e ≤ p ∧ p < hi e then some e else segmentAt lo hi l p := by
  unfold segmentAt
  rw [List.find?_cons]
  by_cases h : lo e ≤ p ∧ p < hi e
  . rw [if_pos h, decide_eq_true h]
  . rw [if_neg h, decide_eq_false h]

theorem segmentAt_map {f : α → α} (hlo : ∀ e, lo (f e) = lo e) (hhi : ∀ e, hi (f e) = hi e) (l : List α) (p : Nat)
    : segmentAt lo hi (l.map f) p = (segmentAt lo hi l p).map f := by
  unfold segmentAt
  rw [List.find?_map]
  congr 2
  funext e
  simp only [Function.comp_apply, hlo, hhi]

@[simp]
theorem total_cons : total lo hi (e :: l) = (hi e - lo e) + total lo hi l := by simp [total]

@[simp]
theorem total_append : total lo hi (l ++ l') = total lo hi l + total lo hi l' := by simp [total]

end Segments
