import Mathlib

/-!
This module contains the sizes that a capability table of a space goes through, and those of the
dead-name requests of a port.
-/

namespace Ipc

def pageSize : Nat := 4096

def entryBytes : Nat := 16

def treeEntryBytes : Nat := 32

def ipcTableFill (num least elemsize : Nat) : List Nat :=
  let (size, its) := powers 32 1 []
  pages num pageSize size its
where
  add (size : Nat) (its : List Nat) : List Nat := if least * elemsize ≤ size then its ++ [size / elemsize] else its
  -- first use powers of two, up to the page size
  powers : Nat → Nat → List Nat → Nat × List Nat
    | 0, size, its => (size, its)
    | fuel + 1, size, its =>
      if its.length < num ∧ size < pageSize then powers fuel (size * 2) (add size its)
      else (size, its)
  -- then increments of a page, then two pages, etc.
  pages : Nat → Nat → Nat → List Nat → List Nat
    | 0, _, _, its => its
    | fuel + 1, incrsize, size, its =>
      if its.length < num then
        let (size, its) := period 15 incrsize size its
        pages fuel (if incrsize < pageSize * 8 then incrsize * 2 else incrsize) size its
      else
        its
  period : Nat → Nat → Nat → List Nat → Nat × List Nat
    | 0, _, size, its => (size, its)
    | n + 1, incrsize, size, its =>
      if its.length < num then period n incrsize (size + incrsize) (add size its)
      else (size, its)

def ipcTableEntriesSize : Nat := 512

def ipcTableEntries : List Nat :=
  let its := ipcTableFill (ipcTableEntriesSize - 1) 4 entryBytes
  its ++ [its.getLastD 0]

def itsSize (its : Nat) : Nat := ipcTableEntries.getD its 0

def portRequestBytes : Nat := 8

def ipcTableDnrequestsSize : Nat := 64

def ipcTableDnrequests : List Nat := ipcTableFill (ipcTableDnrequestsSize - 1) 2 portRequestBytes ++ [0]

def dnSize (its : Nat) : Nat := ipcTableDnrequests.getD its 0

variable {num least elemsize : Nat}

structure Filled (num least elemsize size : Nat) (its : List Nat) : Prop where
  sorted : its.Pairwise (· < ·)
  range : ∀ n ∈ its, least ≤ n ∧ n < size / elemsize
  length_le : its.length ≤ num
  size_le : size ≤ pageSize * 2 + pageSize * 16 * its.length

variable {size : Nat} {its : List Nat}

theorem Filled.add (size' : Nat) (h : Filled num least elemsize size its)
    (helem : 0 < elemsize) (hlt : its.length < num)
    (hstep : least * elemsize ≤ size → size + elemsize ≤ size' ∧ size' ≤ size + pageSize * 16)
    (hskip : size < least * elemsize → size ≤ size' ∧ size' ≤ pageSize * 2)
    : Filled num least elemsize size' (ipcTableFill.add least elemsize size its) := by
  unfold ipcTableFill.add
  split
  . next hmin =>
    obtain ⟨hle, hle'⟩ := hstep hmin
    have hdiv : size / elemsize < size' / elemsize := by
      rw [Nat.lt_iff_add_one_le, ← Nat.add_div_right _ helem]
      exact Nat.div_le_div_right hle
    exact {
      sorted := by
        rw [List.pairwise_append]
        refine ⟨h.sorted, List.pairwise_singleton _ _, ?_⟩
        intro n hn m hm
        rw [List.mem_singleton] at hm
        rw [hm]
        exact (h.range n hn).2
      range := by
        intro n hn
        rcases List.mem_append.mp hn with hin | hin
        . exact ⟨(h.range n hin).1, Nat.lt_trans (h.range n hin).2 hdiv⟩
        . rw [List.mem_singleton] at hin
          rw [hin]
          exact ⟨(Nat.le_div_iff_mul_le helem).mpr hmin, hdiv⟩
      length_le := by
        rw [List.length_append]
        exact hlt
      size_le := by
        have hsize := h.size_le
        rw [List.length_append, List.length_singleton, Nat.mul_add]
        omega
    }
  . next hmin =>
    obtain ⟨hle, -⟩ := hskip (by omega)
    exact {
      sorted := h.sorted
      range := fun n hn => ⟨(h.range n hn).1, Nat.lt_of_lt_of_le (h.range n hn).2 (Nat.div_le_div_right hle)⟩
      length_le := h.length_le
      size_le := by omega
    }

theorem Filled.powers (h : Filled num least elemsize size its) (hmin : 0 < least) (helem : 0 < elemsize) (fuel : Nat)
    : Filled num least elemsize (ipcTableFill.powers num least elemsize fuel size its).1
        (ipcTableFill.powers num least elemsize fuel size its).2 := by
  induction fuel generalizing size its with
  | zero => exact h
  | succ fuel ih =>
    rw [ipcTableFill.powers]
    split
    . next hcond =>
      apply ih
      have hone : elemsize ≤ least * elemsize := Nat.le_mul_of_pos_left _ hmin
      refine h.add _ helem hcond.1 ?_ ?_ <;> simp only [pageSize] at * <;> omega
    . exact h

theorem Filled.period (h : Filled num least elemsize size its) (helem : 0 < elemsize)
    (hsize : least * elemsize ≤ size) (hincr : elemsize ≤ incrsize) (hincr' : incrsize ≤ pageSize * 16) (n : Nat)
    : Filled num least elemsize (ipcTableFill.period num least elemsize n incrsize size its).1
        (ipcTableFill.period num least elemsize n incrsize size its).2 ∧
      size ≤ (ipcTableFill.period num least elemsize n incrsize size its).1 ∧
      (ipcTableFill.period num least elemsize n incrsize size its).2.length = min num (its.length + n) := by
  induction n generalizing size its with
  | zero =>
    have hlen := h.length_le
    exact ⟨h, Nat.le_refl _, by simp [ipcTableFill.period, hlen]⟩
  | succ n ih =>
    rw [ipcTableFill.period]
    split
    . next hlt =>
      have hadd := h.add (size + incrsize) helem hlt (by omega) (by omega)
      obtain ⟨hfilled, hle, hlen⟩ := ih hadd (by omega)
      refine ⟨hfilled, by omega, ?_⟩
      rw [hlen]
      simp only [ipcTableFill.add, hsize, if_true, List.length_append, List.length_singleton]
      omega
    . next hge =>
      have hlen := h.length_le
      refine ⟨h, Nat.le_refl _, ?_⟩
      show its.length = min num (its.length + (n + 1))
      omega

theorem Filled.pages (incrsize : Nat) (h : Filled num least elemsize size its)
    (helem : 0 < elemsize) (hsize : least * elemsize ≤ size) (hincr : elemsize ≤ incrsize)
    (hincr' : incrsize ≤ pageSize * 16) (fuel : Nat) (hfuel : num ≤ its.length + fuel)
    : ∃ size', Filled num least elemsize size' (ipcTableFill.pages num least elemsize fuel incrsize size its) ∧
        (ipcTableFill.pages num least elemsize fuel incrsize size its).length = num := by
  induction fuel generalizing size incrsize its with
  | zero =>
    have hlen := h.length_le
    exact ⟨size, h, by simp only [ipcTableFill.pages]; omega⟩
  | succ fuel ih =>
    rw [ipcTableFill.pages]
    split
    . obtain ⟨hfilled, hle, hlen⟩ := h.period helem hsize hincr hincr' 15
      apply ih _ hfilled (by omega)
      . split <;> omega
      . split <;> simp only [pageSize] at * <;> omega
      . omega
    . have hlen := h.length_le
      exact ⟨size, h, by omega⟩

theorem ipcTableEntries_eq : ∃ its size, ipcTableEntries = its ++ [its.getLastD 0] ∧ Filled 511 4 entryBytes size its ∧
        its.length = 511 := by
  have hstart : Filled 511 4 entryBytes 1 [] := by
    constructor <;> simp [pageSize]
  have hpow := hstart.powers (by decide) (by decide) 32
  have hsize : (ipcTableFill.powers 511 4 entryBytes 32 1 []).1 = pageSize := by decide +kernel
  obtain ⟨size, hfilled, hlen⟩ := hpow.pages pageSize (by decide)
    (by rw [hsize]; decide) (by decide) (by decide) 511 (by omega)
  exact ⟨_, size, rfl, hfilled, hlen⟩

theorem itsSize_lt_succ {i : Nat} (h : i < 510) : itsSize i < itsSize (i + 1) := by
  obtain ⟨its, size, heq, hfilled, hlen⟩ := ipcTableEntries_eq
  rw [itsSize, itsSize, heq, List.getD_append _ _ _ _ (by omega), List.getD_append _ _ _ _ (by omega),
    List.getD_eq_getElem _ _ (by omega), List.getD_eq_getElem _ _ (by omega)]
  exact List.pairwise_iff_getElem.mp hfilled.sorted i (i + 1) (by omega) (by omega) (by omega)

theorem itsSize_last : itsSize 511 = itsSize 510 := by
  obtain ⟨its, size, heq, -, hlen⟩ := ipcTableEntries_eq
  rw [itsSize, itsSize, heq, List.getD_append _ _ _ 510 (by omega),
    List.getD_append_right _ _ _ _ (by omega), hlen, List.getLastD_eq_getLast?,
    List.getLast?_eq_getElem?, hlen]
  simp [List.getD]

theorem itsSize_range {i : Nat} (h : i < 512) : 4 ≤ itsSize i ∧ itsSize i < 2 ^ 21 := by
  have hlt : ∀ i, i < 511 → 4 ≤ itsSize i ∧ itsSize i < 2 ^ 21 := by
    intro i hi
    obtain ⟨its, size, heq, hfilled, hlen⟩ := ipcTableEntries_eq
    have hmem : itsSize i ∈ its := by
      rw [itsSize, heq, List.getD_append _ _ _ _ (by omega), List.getD_eq_getElem _ _ (by omega)]
      exact List.getElem_mem _
    have hrange := hfilled.range _ hmem
    have hsize := hfilled.size_le
    simp only [pageSize, entryBytes, hlen] at hrange hsize
    omega
  rcases Nat.lt_or_ge i 511 with hi | hi
  . exact hlt i hi
  . obtain rfl : i = 511 := by omega
    rw [itsSize_last]
    exact hlt 510 (by omega)

theorem itsSize_le_succ {i : Nat} (h : i < 511) : itsSize i ≤ itsSize (i + 1) := by
  rcases Nat.lt_or_ge i 510 with hlt | hge
  . exact Nat.le_of_lt (itsSize_lt_succ hlt)
  . obtain rfl : i = 510 := by omega
    exact Nat.le_of_eq itsSize_last.symm

theorem isPrefix_period (n incrsize size : Nat) (its : List Nat)
    : its <+: (ipcTableFill.period num least elemsize n incrsize size its).2 := by
  induction n generalizing size its with
  | zero => exact List.prefix_refl its
  | succ n ih =>
    rw [ipcTableFill.period]
    split
    . refine List.IsPrefix.trans ?_ (ih _ _)
      unfold ipcTableFill.add
      split
      . exact List.prefix_append _ _
      . exact List.prefix_refl its
    . exact List.prefix_refl its

theorem isPrefix_pages (num least elemsize fuel incrsize size : Nat) (its : List Nat)
    : its <+: ipcTableFill.pages num least elemsize fuel incrsize size its := by
  induction fuel generalizing incrsize size its with
  | zero => exact List.prefix_refl its
  | succ fuel ih =>
    rw [ipcTableFill.pages]
    split
    . exact (isPrefix_period 15 incrsize size its).trans (ih _ _ _)
    . exact List.prefix_refl its

theorem itsSize_zero : itsSize 0 = 4 := by
  have hpowers : ipcTableFill.powers 511 4 entryBytes 32 1 [] = (4096, [4, 8, 16, 32, 64, 128]) := by decide
  obtain ⟨rest, hrest⟩ := isPrefix_pages 511 4 entryBytes 511 pageSize 4096 [4, 8, 16, 32, 64, 128]
  have hfill : ipcTableFill (ipcTableEntriesSize - 1) 4 entryBytes = [4, 8, 16, 32, 64, 128] ++ rest := by
    show (let (size, its) := ipcTableFill.powers 511 4 entryBytes 32 1 []
      ipcTableFill.pages 511 4 entryBytes 511 pageSize size its) = _
    rw [hpowers, hrest]
  unfold itsSize ipcTableEntries
  rw [hfill]
  rfl

example : [0, 1, 2, 3, 4, 5, 6, 7].map (fun i => (ipcTableFill 10 4 entryBytes).getD i 0) =
    [4, 8, 16, 32, 64, 128, 256, 512] := by
  decide +kernel

-- The table of sizes is never to be unfolded from here on.
attribute [irreducible] itsSize dnSize

end Ipc
