import Mathlib

/-!
This module contains extents, which are ranges of addresses given by a start and a size.
-/

structure Extent where
  addr : Nat
  size : Nat
deriving DecidableEq, Repr

namespace Extent

def Has (e : Extent) (a : Nat) : Prop := e.addr ≤ a ∧ a < e.addr + e.size

instance (e : Extent) (a : Nat) : Decidable (e.Has a) := inferInstanceAs (Decidable (_ ∧ _))

def count (es : List Extent) (a : Nat) : Nat := es.countP fun e => decide (e.Has a)

def total (es : List Extent) : Nat := (es.map size).sum

variable {e f : Extent} {es fs : List Extent} {a x m n k : Nat}

@[simp]
theorem count_nil : count [] a = 0 := rfl

@[simp]
theorem count_append : count (es ++ fs) a = count es a + count fs a := List.countP_append

theorem count_cons : count (e :: es) a = (if e.Has a then 1 else 0) + count es a := by
  unfold count
  by_cases h : e.Has a <;> simp [h, Nat.add_comm]

theorem count_pos (he : e ∈ es) (h : e.Has a) : 0 < count es a := List.countP_pos_iff.2 ⟨e, he, by simpa using h⟩

theorem count_cut (x : Nat) (hk : k ≤ n) (es : List Extent) (a : Nat)
    : count (⟨x, n⟩ :: es) a = count (⟨x, k⟩ :: ⟨x + k, n - k⟩ :: es) a := by
  simp only [count_cons]
  repeat' split
  all_goals simp only [Has] at *; omega

theorem count_perm (h : es.Perm fs) : count es a = count fs a := h.countP_eq _

@[simp]
theorem total_nil : total [] = 0 := rfl

@[simp]
theorem total_cons : total (e :: es) = e.size + total es := by
  simp [total]

@[simp]
theorem total_append : total (es ++ fs) = total es + total fs := by
  simp [total]

-- an extent that is left out when it is empty
def nonempty (x n : Nat) : List Extent := if 0 < n then [⟨x, n⟩] else []

theorem mem_nonempty : f ∈ nonempty x n ↔ f = ⟨x, n⟩ ∧ 0 < n := by
  unfold nonempty
  split
  . next h => rw [List.mem_singleton, and_iff_left h]
  . next h => exact iff_of_false List.not_mem_nil fun hf => h hf.2

theorem count_nonempty : count (nonempty x n) a = count [⟨x, n⟩] a := by
  unfold nonempty
  split
  . rfl
  . rw [count_cons, if_neg]
    . rfl
    . unfold Has
      dsimp only
      omega

theorem total_nonempty : total (nonempty x n) = n := by
  unfold nonempty
  split
  . rfl
  . rw [total_nil]
    omega

structure Apart (es : List Extent) : Prop where
  pos : ∀ e ∈ es, 0 < e.size
  room : es.Pairwise fun e f => e.addr + e.size < f.addr

namespace Apart

theorem nil : Apart [] := ⟨by simp, .nil⟩

theorem of_nonempty (x n : Nat) : Apart (nonempty x n) where
  pos f hf := by
    obtain ⟨rfl, hpos⟩ := mem_nonempty.1 hf
    exact hpos
  room := by
    unfold nonempty
    split
    . exact List.pairwise_singleton _ _
    . exact .nil

theorem cons_iff : Apart (e :: es) ↔ 0 < e.size ∧ (∀ f ∈ es, e.addr + e.size < f.addr) ∧ Apart es := by
  constructor
  . intro h
    obtain ⟨hroom, hrest⟩ := List.pairwise_cons.1 h.room
    exact ⟨h.pos e (by simp), hroom, fun f hf => h.pos f (by simp [hf]), hrest⟩
  . intro ⟨hpos, hroom, hrest⟩
    refine ⟨?_, List.pairwise_cons.2 ⟨hroom, hrest.room⟩⟩
    simpa using ⟨hpos, hrest.pos⟩

theorem append_iff : Apart (es ++ fs) ↔ Apart es ∧ Apart fs ∧ ∀ e ∈ es, ∀ f ∈ fs, e.addr + e.size < f.addr := by
  constructor
  . intro h
    obtain ⟨hes, hfs, hroom⟩ := List.pairwise_append.1 h.room
    exact ⟨⟨fun e he => h.pos e (by simp [he]), hes⟩, ⟨fun f hf => h.pos f (by simp [hf]), hfs⟩, hroom⟩
  . intro ⟨hes, hfs, hroom⟩
    exact ⟨List.forall_mem_append.2 ⟨hes.pos, hfs.pos⟩, List.pairwise_append.2 ⟨hes.room, hfs.room, hroom⟩⟩

theorem le_of_last (h : Apart (es ++ [e])) (hf : f ∈ es ++ [e]) : f.addr + f.size ≤ e.addr + e.size := by
  obtain hf | hf := List.mem_append.1 hf
  . have := (append_iff.1 h).2.2 f hf e (by simp)
    omega
  . obtain rfl := List.mem_singleton.1 hf
    apply Nat.le_refl

theorem le_of_mem_dropWhile (h : Apart es) (he : e ∈ es.dropWhile (·.addr < x)) : x ≤ e.addr := by
  induction es with
  | nil => simp at he
  | cons f es ih =>
    obtain ⟨-, hroom, hrest⟩ := cons_iff.1 h
    rw [List.dropWhile_cons] at he
    split at he
    . exact ih hrest he
    . next hf =>
      have hf : x ≤ f.addr := by simpa using hf
      obtain rfl | he := List.mem_cons.1 he
      . exact hf
      . have := hroom e he
        omega

theorem total_le (h : Apart es) (hlo : ∀ e ∈ es, m ≤ e.addr) (hhi : ∀ e ∈ es, e.addr + e.size ≤ n)
    : total es ≤ n - m := by
  induction es generalizing m with
  | nil => simp
  | cons e es ih =>
    obtain ⟨-, hroom, hrest⟩ := cons_iff.1 h
    have htail := ih (m := e.addr + e.size) hrest (fun f hf => Nat.le_of_lt (hroom f hf))
      fun f hf => hhi f (by simp [hf])
    have := hlo e (by simp)
    have := hhi e (by simp)
    rw [total_cons]
    omega

end Apart

theorem disjoint_of_count_le_one (h : ∀ a, count es a + count fs a ≤ 1) (he : e ∈ es) (hf : f ∈ fs)
    (hepos : 0 < e.size) (hfpos : 0 < f.size) : e.addr + e.size ≤ f.addr ∨ f.addr + f.size ≤ e.addr := by
  by_contra hno
  have hboth : ∀ a, e.Has a → ¬ f.Has a := by
    intro a hea hfa
    have := h a
    have := count_pos he hea
    have := count_pos hf hfa
    omega
  obtain hle | hle := Nat.le_total e.addr f.addr
  . exact hboth f.addr ⟨hle, by omega⟩ ⟨Nat.le_refl _, by omega⟩
  . exact hboth e.addr ⟨Nat.le_refl _, by omega⟩ ⟨hle, by omega⟩

end Extent
