import Mathlib

/-!
This module contains the pageouts of a mapped file.
-/

namespace Lites

structure VnPager where
  pageSize : Nat
  size : Nat
  pageSize_pos : 0 < pageSize
  size_lt : size < 2 ^ 32

structure Vnode where
  pager : VnPager
  iSize : Nat
  maxFileSize : Nat
  bytes : Nat → UInt8

def vnodePagerSetsize (vn : Vnode) (size : Nat) : Vnode :=
  { vn with pager := { vn.pager with size := size % 2 ^ 32, size_lt := Nat.mod_lt _ (Nat.two_pow_pos 32) } }

section Write

-- `refused` if the limit of the process or the allocation of a block makes the write fail
variable (mem : Nat → UInt8) (refused : Bool)

def vopWrite (vn : Vnode) (base offset : Nat) (resid : Int) : Vnode × Nat :=
  let last := offset + resid.toNat
  if 0 < resid ∧ last ≤ vn.maxFileSize ∧ ¬ refused then
    let written : Vnode :=
      { vn with bytes := fun k => if offset ≤ k ∧ k < last then mem (base + (k - offset)) else vn.bytes k }
    (if vn.iSize < last then vnodePagerSetsize { written with iSize := last } last else written, resid.toNat)
  else (vn, 0)

-- the length is an `int` here, but a `vm_size_t` in the caller
def vnPageinout (vn : Vnode) (base len offset : Nat) : Vnode × Nat :=
  vopWrite mem refused vn base offset (if len < 2 ^ 31 then len else len - 2 ^ 32)

def uioSysspace : Nat := 1

/--
The `off_t` that `vn_pageinout` reads. It has two words, there is no prototype, and the caller passes one word for the
offset, so that the next argument is the high word.
-/
def quad (low high : Nat) : Nat := low + high * 2 ^ 32

def seqnosMemoryObjectDataWrite (vn : Vnode) (offset data length : Nat) : Option (Vnode × Nat) :=
  if vn.pager.pageSize ≠ length then none
  else if vn.pager.size < offset then some (vn, 0)
  else
    let wlen := vn.pager.size - offset
    some (vnPageinout mem refused vn data wlen (quad offset uioSysspace))

end Write

structure Stores (mem : Nat → UInt8) (vn : Vnode) (offset data length : Nat) (res : Vnode × Nat) : Prop where
  taken : res.2 ≤ length
  iSize : res.1.iSize = vn.iSize
  bytes : ∀ k, res.1.bytes k =
    if offset ≤ k ∧ k < min vn.pager.size (offset + length) then mem (data + (k - offset)) else vn.bytes k

inductive PagerOp where
  | pageout (mem : Nat → UInt8) (refused : Bool) (offset data length : Nat)
  | resize (iSize size : Nat)

def PagerOp.Exact (vn : Vnode) : PagerOp → Prop
  | .pageout _ refused offset data length => ∀ mem bytes,
    ∃ res, seqnosMemoryObjectDataWrite mem refused { vn with bytes } offset data length = some res ∧
      Stores mem { vn with bytes } offset data length res
  | .resize .. => True

def PagerOp.Fits (vn : Vnode) : PagerOp → Prop
  | .pageout _ _ offset _ length => vn.pager.pageSize = length ∧ vn.pager.size ≤ offset
  | .resize .. => True

-- after a panic nothing more is done
def step (vn : Vnode) : PagerOp → Option Vnode
  | .pageout mem refused offset data length =>
    (seqnosMemoryObjectDataWrite mem refused vn offset data length).map Prod.fst
  | .resize iSize size => some (vnodePagerSetsize { vn with iSize } size)

def Each (P : Vnode → PagerOp → Prop) : Vnode → List PagerOp → Prop
  | _, [] => True
  | vn, op :: ops => P vn op ∧ ∀ vn' ∈ step vn op, Each P vn' ops

variable (mem : Nat → UInt8) (refused : Bool) (data : Nat) {vn : Vnode} {offset length : Nat}

theorem vopWrite_below {base k : Nat} {resid : Int} (hk : k < offset)
    : (vopWrite mem refused vn base offset resid).1.bytes k = vn.bytes k := by
  unfold vopWrite
  dsimp only
  split
  . split
    . exact if_neg fun h => Nat.not_le.2 hk h.1
    . exact if_neg fun h => Nat.not_le.2 hk h.1
  . rfl

theorem stores_of_le (hle : vn.pager.size ≤ offset) (hpage : vn.pager.pageSize = length)
    : ∃ res, seqnosMemoryObjectDataWrite mem refused vn offset data length = some res ∧
        Stores mem vn offset data length res := by
  have hwrite : seqnosMemoryObjectDataWrite mem refused vn offset data length = some (vn, 0) := by
    have hzero : vn.pager.size - offset = 0 := Nat.sub_eq_zero_of_le hle
    simp [seqnosMemoryObjectDataWrite, vnPageinout, vopWrite, hpage, hzero]
  refine ⟨_, hwrite, Nat.zero_le _, rfl, ?_⟩
  intro k
  rw [if_neg (by omega)]

-- the data goes behind the first 4 gigabytes, or nowhere
theorem dataWrite_below (hwrite : seqnosMemoryObjectDataWrite mem refused vn offset data length = some res)
    : vn.pager.pageSize = length ∧ res.1.bytes offset = vn.bytes offset := by
  unfold seqnosMemoryObjectDataWrite at hwrite
  split at hwrite
  . contradiction
  . next hpage =>
    refine ⟨not_not.1 hpage, ?_⟩
    split at hwrite
    . cases hwrite
      rfl
    . cases hwrite
      apply vopWrite_below
      exact Nat.lt_add_of_pos_right (Nat.two_pow_pos 32)

theorem fits_of_stores (hne : vn.bytes offset ≠ mem data)
    (hwrite : seqnosMemoryObjectDataWrite mem refused vn offset data length = some res)
    (hstores : Stores mem vn offset data length res) : (PagerOp.pageout mem refused offset data length).Fits vn := by
  obtain ⟨hpage, hbelow⟩ := dataWrite_below mem refused data hwrite
  refine ⟨hpage, Nat.le_of_not_lt fun hlt => hne ?_⟩
  have hpos := vn.pager.pageSize_pos
  have hbyte := hstores.bytes offset
  rw [hbelow, if_pos (by omega), Nat.sub_self] at hbyte
  exact hbyte

theorem exact_iff (vn : Vnode) (op : PagerOp) : op.Exact vn ↔ op.Fits vn := by
  cases op with
  | resize iSize size => exact Iff.rfl
  | pageout mem refused offset data length =>
    constructor
    . intro h
      obtain ⟨res, hwrite, hstores⟩ := h (fun _ => 1) fun _ => 0
      have hfits := fits_of_stores (fun _ => 1) refused data (show (0 : UInt8) ≠ 1 by decide) hwrite hstores
      exact hfits
    . rintro ⟨hpage, hle⟩ mem bytes
      exact stores_of_le mem refused data hle hpage

def twoPages : Vnode where
  pager := ⟨4096, 8192, by decide, by decide⟩
  iSize := 8192
  maxFileSize := 2 ^ 40
  bytes := fun _ => 0

end Lites
