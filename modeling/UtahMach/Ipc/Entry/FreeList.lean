import UtahMach.Ipc.Entry.Impl

/-!
This module contains the free list of a table, which starts at slot 0.
-/

namespace Ipc

def FreeChain (table : Nat → Entry) (i : Nat) : List Nat → Prop
  | [] => (table i).ieNext = 0
  | j :: free => (table i).ieNext = j ∧ j ≠ 0 ∧ FreeChain table j free

namespace FreeChain

section

variable (h : FreeChain table i free)
include h

theorem next_eq_head : (table i).ieNext = free.headD 0 := by
  cases free with
  | nil => exact h
  | cons j free => exact h.1

theorem congr {k : Nat} (heq : (table' k).ieNext = (table i).ieNext)
    (hmem : ∀ j ∈ free, (table' j).ieNext = (table j).ieNext) : FreeChain table' k free := by
  induction free generalizing i k with
  | nil => exact heq.trans h
  | cons j free ih =>
    obtain ⟨hnext, hj, hrest⟩ := h
    exact ⟨heq.trans hnext, hj, ih hrest (hmem j List.mem_cons_self) (fun k hk => hmem k (List.mem_cons_of_mem _ hk))⟩

theorem congr_of_ne (hzero : i ≠ j) (hfree : j ∉ free) (hother : ∀ k, k ≠ j → table' k = table k)
    : FreeChain table' i free := by
  apply h.congr
  . rw [hother i hzero]
  . intro k hk
    rw [hother k (by rintro rfl; exact hfree hk)]

theorem ne_zero : ∀ j ∈ free, j ≠ 0 := by
  induction free generalizing i with
  | nil => simp
  | cons j free ih =>
    obtain ⟨-, hj, hrest⟩ := h
    exact List.forall_mem_cons.2 ⟨hj, ih hrest⟩

theorem freePredecessor_spec (hnodup : (i :: free).Nodup) (hj : j ∈ free) (fuel : Nat) (hfuel : free.length ≤ fuel)
    : ∃ k, freePredecessor table j fuel i = some k ∧ (k = i ∨ k ∈ free) ∧ k ≠ j ∧
        ∀ table', (table' k).ieNext = (table j).ieNext →
          (∀ l, l ≠ k → l ≠ j → (table' l).ieNext = (table l).ieNext) → FreeChain table' i (free.erase j) := by
  induction free generalizing i fuel with
  | nil => simp at hj
  | cons a free ih =>
    obtain ⟨hnext, ha, hrest⟩ := h
    rw [List.nodup_cons] at hnodup
    match fuel, hfuel with
    | fuel + 1, hfuel =>
      by_cases haj : a = j
      . subst haj
        refine ⟨i, ?_, Or.inl rfl, ?_, ?_⟩
        . simp [freePredecessor, hnext]
        . rintro rfl
          exact hnodup.1 hj
        . intro table' hk hl
          rw [List.erase_cons_head]
          have hia : i ∉ free := fun hin => hnodup.1 (List.mem_cons_of_mem _ hin)
          have hafree : a ∉ free := (List.nodup_cons.mp hnodup.2).1
          -- The chain behind `a` now hangs at `i`.
          cases free with
          | nil => exact hk.trans hrest
          | cons b free =>
            obtain ⟨hb, hb0, hchain⟩ := hrest
            refine ⟨hk.trans hb, hb0, hchain.congr (hl b ?_ ?_) ?_⟩
            . rintro rfl
              exact hia List.mem_cons_self
            . rintro rfl
              exact hafree List.mem_cons_self
            . intro c hc
              apply hl c
              . rintro rfl
                exact hia (List.mem_cons_of_mem _ hc)
              . rintro rfl
                exact hafree (List.mem_cons_of_mem _ hc)
      . have hjfree : j ∈ free := (List.mem_cons.mp hj).resolve_left (fun heq => haj heq.symm)
        obtain ⟨k, hk, hin, hkj, hchain⟩ := ih hrest hnodup.2 hjfree fuel (by simpa using hfuel)
        refine ⟨k, ?_, ?_, hkj, ?_⟩
        . simp [freePredecessor, hnext, haj, hk]
        . rcases hin with rfl | hin
          . exact Or.inr List.mem_cons_self
          . exact Or.inr (List.mem_cons_of_mem _ hin)
        . intro table' hk' hl
          rw [List.erase_cons_tail (by simpa using haj)]
          refine ⟨(hl i ?_ ?_).trans hnext, ha, hchain table' hk' hl⟩
          . rintro rfl
            rcases hin with rfl | hin
            . exact hnodup.1 List.mem_cons_self
            . exact hnodup.1 (List.mem_cons_of_mem _ hin)
          . rintro rfl
            exact hnodup.1 hj

end

end FreeChain

end Ipc
