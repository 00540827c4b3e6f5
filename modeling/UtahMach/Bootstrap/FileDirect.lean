import Mathlib

/-!
This module contains the transfers between memory and a paging file, whose blocks are kept in an array.
-/

namespace Bootstrap

inductive FsError where
  | notInFile
  | invalidFs
  | panic
  | device (rc : Nat)
deriving DecidableEq, Repr

def devBsize : Nat := 512

def vmPageSize : Nat := 4096

/--
The block size of a file system is `2 ^ bshift`, and `fsbtodb` turns its block numbers into sectors.
-/
structure Fs where
  bshift : Nat
  fsbtodb : Nat
deriving DecidableEq, Repr

/--
A file with the results of `block_map`, or a device without a file system.
-/
inductive File where
  | structured (fs : Fs) (iSize : Nat) (blockMap : Nat → Except FsError (BitVec 32))
  | device (deviceSize recordSize : Nat)

structure FileDirect where
  blocks : List (BitVec 32)
  size : Nat
  bshift : Nat
  fsbtodb : Nat
deriving DecidableEq, Repr

namespace FileDirect

def bsize (fd : FileDirect) : Nat := 2 ^ fd.bshift

def ffsOpenFileDirect : Option Fs → FileDirect
  | none => ⟨[], 0, Nat.log2 vmPageSize, 0⟩
  | some fs => ⟨[], 0, fs.bshift, fs.fsbtodb⟩

def ext2BlockSize (sLogBlockSize : Nat) : Nat := 1024 <<< sLogBlockSize

def ext2Fs (sLogBlockSize : Nat) : Fs :=
  ⟨Nat.log2 (ext2BlockSize sLogBlockSize), Nat.log2 (ext2BlockSize sLogBlockSize / devBsize)⟩

def ext2OpenFileDirect (sLogBlockSize : Option Nat) : FileDirect := ffsOpenFileDirect (sLogBlockSize.map ext2Fs)

def addFileDirect (same : Fs → Bool) (fd : FileDirect) : File → Except FsError FileDirect
  | .device deviceSize recordSize =>
    .ok { fd with size := deviceSize >>> fd.bshift, fsbtodb := Nat.log2 (fd.bsize / recordSize) }
  | .structured fs iSize blockMap =>
    if same fs then do
      -- the number of blocks in the file, ignoring fragments
      let blocks ← (List.range (iSize >>> fs.bshift)).mapM blockMap
      .ok { fd with blocks := fd.blocks ++ blocks, size := fd.size + blocks.length }
    else .error .invalidFs

def ffsAddFileDirect (fd : FileDirect) : File → Except FsError FileDirect :=
  fd.addFileDirect fun fs => fd.bshift = fs.bshift ∧ fd.fsbtodb = fs.fsbtodb

-- the comparison of the sector shifts is a comment in this one
def ext2AddFileDirect (fd : FileDirect) : File → Except FsError FileDirect :=
  fd.addFileDirect fun fs => fd.bshift = fs.bshift

structure Request where
  recnum : BitVec 32
  size : Nat
deriving DecidableEq, Repr

def diskBlock (fd : FileDirect) (fileBlock : Nat) : Except FsError (BitVec 32) :=
  if fd.blocks = [] then .ok (BitVec.ofNat 32 fileBlock)
  else
    match fd.blocks[fileBlock]? with
    | none => .error .notInFile
    | some b => if b = 0 then .error .notInFile else .ok b

def request (fd : FileDirect) (offset size : Nat) : Except FsError Request :=
  if offset % devBsize ≠ 0 ∨ size % devBsize ≠ 0 then .error .panic
  else if offset ≥ (fd.size <<< fd.bshift) % 2 ^ 32 then .error .notInFile
  else do
    let diskBlock ← fd.diskBlock (offset / fd.bsize)
    .ok ⟨diskBlock <<< fd.fsbtodb + BitVec.ofNat 32 (offset % fd.bsize / devBsize), min size fd.bsize⟩

section Transfers

variable (fd : FileDirect) (device : Request → Except FsError Nat) (offset size : Nat)

def pageFileDirect : Except FsError Nat := do device (← fd.request offset size)

def ffsPageReadFileDirect : Except FsError Nat := fd.pageFileDirect device offset size

def ffsPageWriteFileDirect : Except FsError Nat := fd.pageFileDirect device offset size

def ext2PageReadFileDirect : Except FsError Nat := fd.pageFileDirect device offset size

def ext2PageWriteFileDirect : Except FsError Nat := fd.pageFileDirect device offset size

/-- Each of the functions gives the device this one request. -/
def Asks (r : Request) : Prop :=
  ∀ device, fd.ffsPageReadFileDirect device offset size = device r ∧
    fd.ffsPageWriteFileDirect device offset size = device r ∧
    fd.ext2PageReadFileDirect device offset size = device r ∧ fd.ext2PageWriteFileDirect device offset size = device r

theorem asks_of_request {r : Request} (h : fd.request offset size = .ok r) : fd.Asks offset size r := by
  intro device
  have hpage : fd.pageFileDirect device offset size = device r := by
    unfold pageFileDirect
    rw [h]
    rfl
  exact ⟨hpage, hpage, hpage, hpage⟩

end Transfers

def recordSize (fd : FileDirect) : Nat := if fd.blocks = [] then 2 ^ (fd.bshift - fd.fsbtodb) else devBsize

/-- The number of the sector, or of the record, with which a block begins. -/
def sectorOf (fd : FileDirect) (b : BitVec 32) : Nat := b.toNat <<< fd.fsbtodb

def byteAt (fd : FileDirect) (pos : Nat) : Option Nat :=
  if pos < fd.size <<< fd.bshift then
    match fd.diskBlock (pos / fd.bsize) with
    | .error _ => none
    | .ok b => some (fd.sectorOf b * fd.recordSize + pos % fd.bsize)
  else none

def Inside (fd : FileDirect) (offset size : Nat) (r : Request) : Prop :=
  (∀ k < r.size, ∃ j < size, fd.byteAt (offset + j) = some (r.recnum.toNat * fd.recordSize + k)) ∧
    ∀ n ≤ r.size, ∀ k < n, fd.byteAt (offset + k) = some (r.recnum.toNat * fd.recordSize + k)

def Adjacent (fd : FileDirect) (fileBlock : Nat) : Prop :=
  ∃ a, fd.byteAt (fileBlock * fd.bsize) = some a ∧ fd.byteAt ((fileBlock + 1) * fd.bsize) = some (a + fd.bsize)

inductive Built : FileDirect → Prop where
  | ffsOpen (fs : Fs) (h : 9 ≤ fs.bshift) : Built (ffsOpenFileDirect (some fs))
  | ext2Open (sLogBlockSize : Nat) : Built (ext2OpenFileDirect (some sLogBlockSize))
  | ffsAdd {fd fd' : FileDirect} {fs : Fs} {iSize : Nat} {blockMap : Nat → Except FsError (BitVec 32)} (h : Built fd)
      (hadd : fd.ffsAddFileDirect (.structured fs iSize blockMap) = .ok fd') : Built fd'
  | ext2Add {fd fd' : FileDirect} {fs : Fs} {iSize : Nat} {blockMap : Nat → Except FsError (BitVec 32)} (h : Built fd)
      (hadd : fd.ext2AddFileDirect (.structured fs iSize blockMap) = .ok fd') : Built fd'
  | ffsDevice {fd : FileDirect} (deviceSize n : Nat) (hn : n ≤ 12)
      (hadd : (ffsOpenFileDirect none).ffsAddFileDirect (.device deviceSize (2 ^ n)) = .ok fd) : Built fd
  | ext2Device {fd : FileDirect} (deviceSize n : Nat) (hn : n ≤ 12)
      (hadd : (ext2OpenFileDirect none).ext2AddFileDirect (.device deviceSize (2 ^ n)) = .ok fd) : Built fd

variable {fd : FileDirect} {offset size fb j a : Nat} {r : Request}

theorem bshift_addFileDirect {same : Fs → Bool} {f : File} (h : fd.addFileDirect same f = .ok fd')
    : fd'.bshift = fd.bshift := by
  cases f with
  | device deviceSize recordSize =>
    cases h
    rfl
  | structured fs iSize blockMap =>
    unfold addFileDirect at h
    dsimp only at h
    split at h
    . cases hmap : (List.range (iSize >>> fs.bshift)).mapM blockMap with
      | error e =>
        rw [hmap] at h
        contradiction
      | ok blocks =>
        rw [hmap] at h
        cases h
        rfl
    . contradiction

theorem Built.le_bshift (h : Built fd) : 9 ≤ fd.bshift := by
  induction h with
  | ffsOpen fs h => exact h
  | ext2Open n =>
    have hsize : ext2BlockSize n = 2 ^ (10 + n) := by
      rw [ext2BlockSize, Nat.shiftLeft_eq, Nat.pow_add]
    show 9 ≤ Nat.log2 (ext2BlockSize n)
    rw [hsize, Nat.log2_two_pow]
    omega
  | ffsAdd h hadd ih | ext2Add h hadd ih =>
    rw [bshift_addFileDirect hadd]
    exact ih
  | ffsDevice deviceSize n hn hadd | ext2Device deviceSize n hn hadd =>
    rw [bshift_addFileDirect hadd]
    decide

theorem bsize_pos (fd : FileDirect) : 0 < fd.bsize := Nat.two_pow_pos _

theorem byteAt_add (hj : j < fd.bsize) : fd.byteAt (fb * fd.bsize + j) = (fd.byteAt (fb * fd.bsize)).map (· + j) := by
  have hlt (j : Nat) (hj : j < fd.bsize) : fb * fd.bsize + j < fd.size <<< fd.bshift ↔ fb < fd.size := by
    rw [Nat.shiftLeft_eq]
    show fb * fd.bsize + j < fd.size * fd.bsize ↔ _
    constructor
    . intro h
      exact Nat.lt_of_mul_lt_mul_right (Nat.lt_of_le_of_lt (Nat.le_add_right _ _) h)
    . intro h
      have hle := Nat.mul_le_mul_right fd.bsize h
      rw [Nat.succ_mul] at hle
      omega
  have hdiv (j : Nat) (hj : j < fd.bsize) :
      (fb * fd.bsize + j) / fd.bsize = fb ∧ (fb * fd.bsize + j) % fd.bsize = j := by
    rw [Nat.mul_comm]
    exact (Nat.div_mod_unique fd.bsize_pos).2 ⟨Nat.add_comm _ _, hj⟩
  have hzero := hdiv 0 fd.bsize_pos
  have hlt' := hlt 0 fd.bsize_pos
  rw [Nat.add_zero] at hzero hlt'
  unfold byteAt
  rw [if_congr (hlt j hj) rfl rfl, if_congr hlt' rfl rfl, (hdiv j hj).1, (hdiv j hj).2, hzero.1, hzero.2]
  split
  . split
    . rfl
    . rfl
  . rfl

theorem request_spec (h : fd.request offset size = .ok r)
    : ∃ b, fd.diskBlock (offset / fd.bsize) = .ok b ∧
        fd.byteAt (offset / fd.bsize * fd.bsize) = some (fd.sectorOf b * fd.recordSize) ∧ r.size = min size fd.bsize ∧
        r.recnum.toNat = (fd.sectorOf b + offset % fd.bsize / devBsize) % 2 ^ 32 ∧
        offset % devBsize = 0 ∧ offset < 2 ^ 32 := by
  unfold request at h
  split at h
  . contradiction
  . next haligned =>
    split at h
    . contradiction
    . next hlt =>
      cases hblock : fd.diskBlock (offset / fd.bsize) with
      | error e =>
        rw [hblock] at h
        contradiction
      | ok b =>
        rw [hblock] at h
        cases h
        have hle := Nat.mod_le (fd.size <<< fd.bshift) (2 ^ 32)
        have hmod := Nat.mod_lt (fd.size <<< fd.bshift) (Nat.two_pow_pos 32)
        have hmul := Nat.div_mul_le_self offset fd.bsize
        refine ⟨b, rfl, ?_, rfl, ?_, by omega, by omega⟩
        . rw [byteAt, if_pos (by omega), Nat.mul_div_cancel _ fd.bsize_pos, hblock, Nat.mul_mod_left]
          rfl
        . rw [BitVec.toNat_add, BitVec.toNat_shiftLeft, BitVec.toNat_ofNat, ← Nat.add_mod]
          rfl

def Fits (fd : FileDirect) (offset size : Nat) : Prop :=
  size = 0 ∨ (∃ b, fd.diskBlock (offset / fd.bsize) = .ok b ∧
      fd.sectorOf b + offset % fd.bsize / devBsize < 2 ^ 32) ∧
    (offset % fd.bsize = 0 ∨ fd.recordSize = devBsize) ∧
    (offset % fd.bsize + min size fd.bsize ≤ fd.bsize ∨ fd.Adjacent (offset / fd.bsize))

theorem div_mul_eq_iff {off n : Nat} (hoff : off % devBsize = 0)
    : off / devBsize * n = off ↔ off = 0 ∨ n = devBsize := by
  obtain ⟨q, rfl⟩ := Nat.dvd_of_mod_eq_zero hoff
  have hpos : 0 < devBsize := by decide
  rw [Nat.mul_div_cancel_left q hpos, Nat.mul_comm devBsize q]
  rcases Nat.eq_zero_or_pos q with rfl | hq
  . rw [Nat.zero_mul, Nat.zero_mul]
    exact iff_of_true rfl (Or.inl rfl)
  . rw [Nat.mul_right_inj (Nat.ne_of_gt hq)]
    exact (or_iff_right (Nat.ne_of_gt (Nat.mul_pos hq hpos))).symm

theorem recordSize_pos (fd : FileDirect) : 0 < fd.recordSize := by
  unfold recordSize
  split
  . exact Nat.two_pow_pos _
  . decide

-- a sector number that is cut off begins before its block
theorem starts_iff (sector : Nat) {off rec : Nat} (hrec : 0 < rec) (hoff : off < 2 ^ 32)
    : (sector + off / devBsize) % 2 ^ 32 * rec = sector * rec + off ↔
        sector + off / devBsize < 2 ^ 32 ∧ off / devBsize * rec = off := by
  have hdiv := Nat.div_le_self off devBsize
  by_cases hlt : sector + off / devBsize < 2 ^ 32
  . rw [Nat.mod_eq_of_lt hlt, Nat.add_mul, Nat.add_left_cancel_iff]
    exact (and_iff_right hlt).symm
  . refine iff_of_false (fun heq => ?_) fun h => hlt h.1
    have hcut : (sector + off / devBsize) % 2 ^ 32 < sector := by omega
    have hmul := Nat.mul_lt_mul_of_pos_right hcut hrec
    omega

theorem request_inside_iff (fd : FileDirect) (offset size : Nat) (r : Request) (hfd : Built fd)
    (hr : fd.request offset size = .ok r)
    : fd.Asks offset size r ∧ (fd.Inside offset size r ↔ fd.Fits offset size) := by
  refine ⟨fd.asks_of_request offset size hr, ?_⟩
  obtain ⟨b, hb, ha, hsize, hrec, hoffset, hoff32⟩ := request_spec hr
  have hpos := fd.bsize_pos
  have hoff : offset % fd.bsize % devBsize = 0 := by
    have hdvd : devBsize ∣ fd.bsize := pow_dvd_pow 2 hfd.le_bshift
    rw [Nat.mod_mod_of_dvd _ hdvd]
    exact hoffset
  have hlt := Nat.mod_lt offset hpos
  have hdiv := Nat.div_add_mod' offset fd.bsize
  have hrecord := div_mul_eq_iff (n := fd.recordSize) hoff
  have hstarts := starts_iff (fd.sectorOf b) fd.recordSize_pos
    (Nat.lt_of_le_of_lt (Nat.mod_le offset fd.bsize) hoff32)
  rw [← hrec, hrecord] at hstarts
  unfold Fits
  generalize offset / fd.bsize = fb at *
  generalize offset % fd.bsize = off at *
  generalize fd.sectorOf b * fd.recordSize = a at *
  have hfirst (k : Nat) (hk : off + k < fd.bsize) : fd.byteAt (offset + k) = some (a + (off + k)) := by
    rw [← hdiv, Nat.add_assoc, byteAt_add hk, ha, Option.map_some]
  have hnext (k : Nat) : fb * fd.bsize + off + (fd.bsize - off + k) = (fb + 1) * fd.bsize + k := by
    rw [Nat.succ_mul]
    omega
  constructor
  . rintro ⟨-, h⟩
    rcases Nat.eq_zero_or_pos size with hzero | hsz
    . exact Or.inl hzero
    . have hstart := h r.size (Nat.le_refl _) 0 (by omega)
      rw [hfirst 0 hlt, Option.some_inj] at hstart
      obtain ⟨hsector, haligned⟩ := hstarts.1 hstart.symm
      refine Or.inr ⟨⟨b, hb, hsector⟩, haligned, ?_⟩
      by_cases hcross : off + min size fd.bsize ≤ fd.bsize
      . exact Or.inl hcross
      . refine Or.inr ⟨a, ha, ?_⟩
        have hbyte := h r.size (Nat.le_refl _) (fd.bsize - off + 0) (by omega)
        rw [← hdiv, hnext, Nat.add_zero] at hbyte
        rw [hbyte]
        congr 1
        omega
  . rintro (hzero | ⟨⟨b', hb', hsector⟩, haligned, hfits⟩)
    . have hnone : r.size = 0 := by omega
      rw [Inside, hnone]
      exact ⟨by simp, fun n hn k hk => by omega⟩
    . cases hb.symm.trans hb'
      have hstart := hstarts.2 ⟨hsector, haligned⟩
      have hall (k : Nat) (hk : k < r.size)
          : fd.byteAt (offset + k) = some (r.recnum.toNat * fd.recordSize + k) := by
        rw [hstart]
        by_cases hcross : off + k < fd.bsize
        . rw [hfirst k hcross, Nat.add_assoc]
        . obtain hle | ⟨a', ha', hadj⟩ := hfits
          . omega
          . -- the transfer goes on in the next block
            cases ha.symm.trans ha'
            obtain ⟨j, rfl⟩ : ∃ j, k = fd.bsize - off + j := ⟨k - (fd.bsize - off), by omega⟩
            rw [← hdiv, hnext, byteAt_add (by omega), hadj, Option.map_some]
            congr 1
            omega
      refine ⟨fun k hk => ⟨k, by omega, hall k hk⟩, fun n hn k hk => hall k (by omega)⟩

def apart : FileDirect := ⟨[100, 200], 2, 10, 1⟩

theorem apart_built : Built apart :=
  .ext2Add (.ext2Open 0)
    (show ext2AddFileDirect _ (.structured ⟨10, 1⟩ 2048 fun i => .ok (if i = 0 then 100 else 200)) = .ok apart by rfl)

theorem request_inside_apart : apart.Asks 512 512 ⟨201, 512⟩ ∧ apart.Inside 512 512 ⟨201, 512⟩ := by
  obtain ⟨hasks, hiff⟩ := request_inside_iff apart 512 512 ⟨201, 512⟩ apart_built (by decide)
  exact ⟨hasks, hiff.2 (.inr ⟨⟨100, by decide, by decide⟩, .inr (by decide), .inl (by decide)⟩)⟩

theorem request_apart
    : Built apart ∧ apart.Asks 512 1024 ⟨201, 1024⟩ ∧ ¬ apart.Inside 512 1024 ⟨201, 1024⟩ := by
  refine ⟨apart_built, apart.asks_of_request 512 1024 (by decide), ?_⟩
  rintro ⟨-, h⟩
  have hbyte := h 1024 (Nat.le_refl _) 512 (by decide)
  revert hbyte
  decide

end FileDirect

end Bootstrap
