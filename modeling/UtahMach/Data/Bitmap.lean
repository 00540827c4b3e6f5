import Mathlib

/-!
This module contains maps of bits that are kept in words.
-/

namespace Bitmap

variable {w : Nat} {l : List (BitVec w)} {i j n : Nat}

def test (l : List (BitVec w)) (i : Nat) : Bool := (l.getD (i / w) 0).getLsbD (i % w)

def set (l : List (BitVec w)) (i : Nat) : List (BitVec w) := l.modify (i / w) (· ||| BitVec.twoPow w (i % w))

def clear (l : List (BitVec w)) (i : Nat) : List (BitVec w) := l.modify (i / w) (· &&& ~~~BitVec.twoPow w (i % w))

def clearWord (l : List (BitVec w)) : Option Nat := l.findIdx? (· ≠ BitVec.allOnes w)

def clearBit (b : BitVec w) : Option Nat := (List.range w).find? fun i => !b.getLsbD i

@[simp]
theorem length_set : (set l i).length = l.length := List.length_modify ..

@[simp]
theorem length_clear : (clear l i).length = l.length := List.length_modify ..

theorem test_replicate_zero : test (List.replicate n (0 : BitVec w)) i = false := by
  rw [test, List.getD_eq_getElem?_getD, List.getElem?_replicate]
  split <;> exact BitVec.getLsbD_zero

theorem pos_of_lt_mul (h : i < n * w) : 0 < w := by
  apply Nat.pos_of_ne_zero
  rintro rfl
  omega

theorem getD_modify {f : BitVec w → BitVec w} (hi : i / w < l.length)
    : (l.modify (i / w) f).getD (j / w) 0 = if i / w = j / w then f (l.getD (j / w) 0) else l.getD (j / w) 0 := by
  rw [List.getD_eq_getElem?_getD, List.getElem?_modify, List.getD_eq_getElem?_getD]
  split
  . next heq =>
    rw [← heq, List.getElem?_eq_getElem hi]
    rfl
  . cases l[j / w]? <;> rfl

theorem mod_eq_iff_of_div_eq (h : i / w = j / w) : i % w = j % w ↔ i = j := by
  constructor
  . intro hmod
    rw [← Nat.div_add_mod i w, h, hmod, Nat.div_add_mod]
  . rintro rfl
    rfl

theorem test_set (hi : i < l.length * w) : test (set l i) j = (decide (i = j) || test l j) := by
  have hw := pos_of_lt_mul hi
  have hlen : i / w < l.length := (Nat.div_lt_iff_lt_mul hw).2 hi
  rw [test, set, getD_modify hlen, test]
  by_cases hword : i / w = j / w
  . rw [if_pos hword, BitVec.getLsbD_or, BitVec.getLsbD_twoPow, decide_eq_true (Nat.mod_lt _ hw),
      Bool.true_and, Bool.or_comm, decide_eq_decide.2 (mod_eq_iff_of_div_eq hword)]
  . rw [if_neg hword, decide_eq_false, Bool.false_or]
    rintro rfl
    exact hword rfl

theorem test_clear (hi : i < l.length * w) : test (clear l i) j = (!decide (i = j) && test l j) := by
  have hw := pos_of_lt_mul hi
  have hlen : i / w < l.length := (Nat.div_lt_iff_lt_mul hw).2 hi
  rw [test, clear, getD_modify hlen, test]
  by_cases hword : i / w = j / w
  . rw [if_pos hword, BitVec.getLsbD_and, BitVec.getLsbD_not, BitVec.getLsbD_twoPow,
      decide_eq_true (Nat.mod_lt i hw), decide_eq_true (Nat.mod_lt j hw), Bool.true_and, Bool.true_and,
      Bool.and_comm, decide_eq_decide.2 (mod_eq_iff_of_div_eq hword)]
  . rw [if_neg hword, decide_eq_false, Bool.not_false, Bool.true_and]
    rintro rfl
    exact hword rfl

theorem clearBit_eq_some {b : BitVec w} (h : clearBit b = some i)
    : i < w ∧ b.getLsbD i = false ∧ ∀ j < i, b.getLsbD j = true := by
  rw [clearBit, List.find?_range_eq_some] at h
  obtain ⟨hclear, hmem, hbefore⟩ := h
  rw [Bool.not_eq_true'] at hclear
  refine ⟨List.mem_range.1 hmem, hclear, ?_⟩
  intro j hj
  simpa using hbefore j hj

theorem exists_clearBit {b : BitVec w} (h : b ≠ BitVec.allOnes w) : ∃ i, clearBit b = some i := by
  rw [← Option.isSome_iff_exists, clearBit, List.find?_isSome]
  apply Classical.byContradiction
  intro hnone
  apply h
  apply BitVec.eq_of_getLsbD_eq
  intro i hi
  rw [BitVec.getLsbD_allOnes, decide_eq_true hi]
  cases hb : b.getLsbD i with
  | true => rfl
  | false => exact absurd ⟨i, List.mem_range.2 hi, by rw [hb]; rfl⟩ hnone

theorem clear_of_search (hword : clearWord l = some e) (hbit : clearBit (l.getD e 0) = some i)
    : e < l.length ∧ i < w ∧ test l (e * w + i) = false ∧ ∀ j < e * w + i, test l j = true := by
  rw [clearWord, List.findIdx?_eq_some_iff_getElem] at hword
  obtain ⟨he, -, hbefore⟩ := hword
  obtain ⟨hi, hclear, hlow⟩ := clearBit_eq_some hbit
  have hw : 0 < w := by omega
  refine ⟨he, hi, ?_, ?_⟩
  . rw [test, Nat.mul_comm e w, Nat.mul_add_div hw, Nat.mul_add_mod, Nat.mod_eq_of_lt hi,
      Nat.div_eq_of_lt hi, Nat.add_zero]
    exact hclear
  . intro j hj
    have hle : j / w ≤ e := by
      apply Nat.le_of_lt_succ
      apply (Nat.div_lt_iff_lt_mul hw).2
      rw [Nat.succ_mul]
      omega
    rw [test]
    obtain hlt | heq := Nat.lt_or_eq_of_le hle
    . have hfull := hbefore (j / w) hlt
      have hones : l.getD (j / w) 0 = BitVec.allOnes w := by
        rw [List.getD_eq_getElem?_getD, List.getElem?_eq_getElem (by omega)]
        simpa using hfull
      rw [hones, BitVec.getLsbD_allOnes, decide_eq_true (Nat.mod_lt _ hw)]
    . rw [heq]
      apply hlow
      have hdiv := Nat.div_add_mod j w
      rw [heq, Nat.mul_comm] at hdiv
      omega

theorem exists_clearWord (hi : i < l.length * w) (h : test l i = false) : ∃ e, clearWord l = some e := by
  have hw := pos_of_lt_mul hi
  have hlen : i / w < l.length := (Nat.div_lt_iff_lt_mul hw).2 hi
  rw [← Option.isSome_iff_exists, clearWord, List.findIdx?_isSome, List.any_eq_true]
  refine ⟨l[i / w], List.getElem_mem hlen, ?_⟩
  apply decide_eq_true
  intro hones
  rw [test, List.getD_eq_getElem?_getD, List.getElem?_eq_getElem hlen, Option.getD_some, hones,
    BitVec.getLsbD_allOnes, decide_eq_true (Nat.mod_lt _ hw)] at h
  contradiction

variable {f g : Nat → Bool}

theorem count_congr (h : ∀ j < n, f j = g j)
    : Nat.count (fun j => f j = true) n = Nat.count (fun j => g j = true) n := by
  induction n with
  | zero => rw [Nat.count_zero, Nat.count_zero]
  | succ n ih => rw [Nat.count_succ, Nat.count_succ, ih fun j hj => h j (by omega), h n (by omega)]

theorem count_add_one (hi : i < n) (hf : f i = false) (hg : g i = true) (h : ∀ j, j ≠ i → g j = f j)
    : Nat.count (fun j => g j = true) n = Nat.count (fun j => f j = true) n + 1 := by
  induction n with
  | zero => omega
  | succ n ih =>
    rw [Nat.count_succ, Nat.count_succ]
    by_cases heq : i = n
    . subst heq
      rw [hf, hg, count_congr fun j hj => h j (by omega)]
      simp
    . rw [ih (by omega), h n (by omega)]
      omega

end Bitmap
