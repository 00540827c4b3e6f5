import UtahMach.Data.Prog

/-!
This module contains the list of free pages and the routine that takes consecutive pages off it.
-/

namespace Vm

def pageShift : Nat := 12

def pageSize : Nat := 2 ^ pageShift

def nbpel : Nat := 32

def physSize : Nat := 2 ^ 32

structure FreePages where
  physAddr : Nat → Nat
  pageqNext : Nat → Option Nat
  free : Nat → Bool
  vmPageQueueFree : Option Nat
  vmPageFreeCount : Nat
  vmPageFreeCountMinimum : Nat

structure PageTargets where
  vmPageBigPagenum : Nat
  vmPageFreeReserved : Nat
  vmPageFreeMin : Nat
  vmPageFreeTarget : Nat
  vmPageInactiveCount : Nat
  vmPageInactiveTarget : Nat
deriving DecidableEq, Repr

namespace FreePages

variable (s : FreePages)

def setBits : Nat → Option Nat → (Nat → Nat) → Except Stop (Nat → Nat)
  | _, none, bits => .ok bits
  | 0, some _, _ => .error .undefined
  | fuel + 1, some mem, bits =>
    let pagenum := s.physAddr mem >>> pageShift
    let wordIndex := pagenum / nbpel
    let bitIndex := pagenum - wordIndex * nbpel
    setBits fuel (s.pageqNext mem) (Function.update bits wordIndex (bits wordIndex ||| 1 <<< bitIndex))

end FreePages

def countOnes (npages : Nat) : Nat → Nat → Nat → Nat → Option (Nat × Nat × Nat)
  | 0, v, bitpos, bitsSoFar => some (v, bitpos, bitsSoFar)
  | fuel + 1, v, bitpos, bitsSoFar =>
    if v % 2 = 1 then
      if bitsSoFar + 1 = npages then
        none
      else
        countOnes npages fuel (v / 2) (bitpos + 1) (bitsSoFar + 1)
    else
      some (v, bitpos, bitsSoFar)

def countZeroes : Nat → Nat → Nat → Nat × Nat
  | 0, v, bitpos => (v, bitpos)
  | fuel + 1, v, bitpos =>
    if bitpos < nbpel ∧ v % 2 = 0 then
      countZeroes fuel (v / 2) (bitpos + 1)
    else
      (v, bitpos)

inductive Scanned where
  | found (firstSet : Nat)
  | more (bitsSoFar firstSet : Nat)
deriving DecidableEq, Repr

def scanWord (npages i : Nat) : Nat → Bool → Nat → Nat → Nat → Nat → Scanned
  | 0, _, _, _, bitsSoFar, firstSet => .more bitsSoFar firstSet
  | fuel + 1, true, v, bitpos, bitsSoFar, firstSet =>
    match countOnes npages (nbpel + 1) v bitpos bitsSoFar with
    | none => .found firstSet
    | some (v, bitpos, bitsSoFar) =>
      if bitpos = nbpel then
        .more bitsSoFar firstSet
      else
        scanWord npages i fuel false v bitpos 0 firstSet
  | fuel + 1, false, v, bitpos, _, firstSet =>
    let (v, bitpos) := countZeroes (nbpel + 1) v bitpos
    if v % 2 = 1 then
      scanWord npages i fuel true v bitpos 0 (i + bitpos)
    else
      .more 0 firstSet

def scanBits (npages : Nat) (bits : Nat → Nat) : Nat → Nat → Nat → Nat → Option Nat
  | 0, _, _, _ => none
  | count + 1, word, bitsSoFar, firstSet =>
    let scanned :=
      if bits word ≠ 0 then
        scanWord npages (word * nbpel) (2 * nbpel + 2) (bitsSoFar ≠ 0) (bits word) 0 bitsSoFar firstSet
      else
        .more 0 firstSet
    match scanned with
    | .found firstSet => some firstSet
    | .more bitsSoFar firstSet => scanBits npages bits count (word + 1) bitsSoFar firstSet

structure Taken where
  pageqNext : Nat → Option Nat
  free : Nat → Bool
  pages : Nat → Nat

def Taken.take (t : Taken) (prevmem : Option Nat) (mem index : Nat) : Taken where
  pageqNext :=
    match prevmem with
    | some prevmem => Function.update t.pageqNext prevmem (t.pageqNext mem)
    | none => t.pageqNext
  free := Function.update t.free mem false
  pages := Function.update t.pages index mem

def FreePages.takePages (s : FreePages) (firstPhys lastPhys : Nat)
    : Nat → Taken → Option Nat → Option Nat → Nat → Except Stop Taken
  | _, t, _, none, _ => .ok t
  | 0, _, _, some _, _ => .error .undefined
  | fuel + 1, t, prevmem, some mem, npages =>
    let addr := s.physAddr mem
    if firstPhys ≤ addr ∧ addr < lastPhys then
      let t := t.take prevmem mem ((addr - firstPhys) >>> pageShift)
      if npages - 1 = 0 then
        .ok t
      else
        s.takePages firstPhys lastPhys fuel t prevmem (t.pageqNext mem) (npages - 1)
    else
      s.takePages firstPhys lastPhys fuel t (some mem) (t.pageqNext mem) npages

/--
A call that waits for a page to become free has not returned.
-/
inductive GrabReturn where
  | kernSuccess
  | kernResourceShortage
  | waits
deriving DecidableEq, Repr

structure Grabbed where
  ret : GrabReturn
  free : FreePages
  pages : Nat → Nat
  allocated : Nat
  wakeup : Bool

/--
Where the bit array comes from: the caller, or the kernel map, which may have no space left.
-/
inductive WorkSpace where
  | given
  | noSpace
  | alloc (vmPrivilege : Bool)
deriving DecidableEq, Repr

namespace FreePages

def vmPageGrab (s : FreePages) (c : PageTargets) (vmPrivilege : Bool) : Except Stop (Option (Nat × FreePages)) :=
  if s.vmPageFreeCount < c.vmPageFreeReserved ∧ ¬ vmPrivilege then
    .ok none
  else
    match s.vmPageQueueFree with
    | none => .error .panic
    | some mem =>
      .ok (some (mem, {
        s with
        free := Function.update s.free mem false
        vmPageQueueFree := s.pageqNext mem
        vmPageFreeCount := s.vmPageFreeCount - 1
        vmPageFreeCountMinimum := min (s.vmPageFreeCount - 1) s.vmPageFreeCountMinimum
      }))

def kmemAllocPages (c : PageTargets) (vmPrivilege : Bool)
    : Nat → FreePages → Except Stop (Option (List Nat × FreePages))
  | 0, s => .ok (some ([], s))
  | n + 1, s => do
    match ← s.vmPageGrab c vmPrivilege with
    | none => .ok none
    | some (mem, s) =>
      let rest ← kmemAllocPages c vmPrivilege n s
      .ok (rest.map fun (work, s) => (mem :: work, s))

def vmPageRelease (s : FreePages) (mem : Nat) : Except Stop FreePages :=
  if s.free mem then
    .error .panic
  else
    .ok {
      s with
      free := Function.update s.free mem true
      pageqNext := Function.update s.pageqNext mem s.vmPageQueueFree
      vmPageQueueFree := some mem
      vmPageFreeCount := s.vmPageFreeCount + 1
    }

def kmemFree : FreePages → List Nat → Except Stop FreePages
  | s, [] => .ok s
  | s, mem :: work => do
    let s ← s.vmPageRelease mem
    kmemFree s work

end FreePages

def workPages (c : PageTargets) : Nat :=
  ((c.vmPageBigPagenum + nbpel - 1) / nbpel * (nbpel / 8) + pageSize - 1) / pageSize

def FreePages.foundEm (s : FreePages) (c : PageTargets) (npages : Nat) (pages : Nat → Nat)
    (firstSet : Nat) : Except Stop Grabbed := do
  let vmPageFreeCount := s.vmPageFreeCount - npages
  let firstPhys := firstSet <<< pageShift % physSize
  let lastPhys := (firstPhys + npages <<< pageShift) % physSize
  let t ← s.takePages firstPhys lastPhys s.vmPageFreeCount ⟨s.pageqNext, s.free, pages⟩ none
    s.vmPageQueueFree npages
  .ok {
    ret := .kernSuccess
    free := {
      s with
      pageqNext := t.pageqNext
      free := t.free
      vmPageFreeCount
      vmPageFreeCountMinimum := min vmPageFreeCount s.vmPageFreeCountMinimum
    }
    pages := t.pages
    allocated := 0
    wakeup := vmPageFreeCount < c.vmPageFreeMin
      ∨ vmPageFreeCount < c.vmPageFreeTarget ∧ c.vmPageInactiveCount < c.vmPageInactiveTarget
  }

def FreePages.grabWith (s : FreePages) (c : PageTargets) (npages : Nat) (pages : Nat → Nat) (work : List Nat)
    : Except Stop Grabbed :=
  if s.vmPageFreeCount < c.vmPageFreeReserved then
    -- the bit array is not freed here
    .ok ⟨.kernResourceShortage, s, pages, work.length, false⟩
  else do
    let bits ← s.setBits s.vmPageFreeCount s.vmPageQueueFree fun _ => 0
    match scanBits npages bits ((c.vmPageBigPagenum + nbpel - 1) / nbpel) 0 0 0 with
    | none =>
      let free ← s.kmemFree work
      .ok ⟨.kernResourceShortage, free, pages, 0, false⟩
    | some firstSet =>
      let r ← s.foundEm c npages pages firstSet
      let free ← r.free.kmemFree work
      .ok { r with free }

def FreePages.vmPageGrabContiguousPages (s : FreePages) (c : PageTargets) (npages : Nat)
    (pages : Nat → Nat) : WorkSpace → Except Stop Grabbed
  | .given => s.grabWith c npages pages []
  | .noSpace => .ok ⟨.kernResourceShortage, s, pages, 0, false⟩
  | .alloc vmPrivilege => do
    match ← kmemAllocPages c vmPrivilege (workPages c) s with
    | none => .ok ⟨.waits, s, pages, 0, false⟩
    | some (work, s) => s.grabWith c npages pages work

end Vm
