import UtahMach.Data.Prog
import UtahMach.Data.Extent

/-!
This module contains the list memory manager.
-/

namespace Lmm

def alignSize : Nat := 8

def headerSize : Nat := 24

def addrSize : Nat := 2 ^ 32

def truncAlign (x : Nat) : Nat := x / alignSize * alignSize

def roundAlign (x : Nat) : Nat := truncAlign ((x + (alignSize - 1)) % addrSize)

abbrev Node := Extent

structure Region where
  base : Nat
  nodes : List Node
  flags : BitVec 32
  pri : Int
  size : Nat
  free : Nat
deriving DecidableEq, Repr

def link (nodes : List Node) : Nat := (nodes.head?.map Extent.addr).getD 0

def comesBefore (reg r : Region) : Bool := reg.pri < r.pri ∨ r.pri = reg.pri ∧ reg.size < r.size

def insert (reg : Region) (regions : List Region) : List Region :=
  let before := regions.takeWhile (comesBefore reg)
  if reg.base = 0 then
    before
  else
    before ++ reg :: regions.dropWhile (comesBefore reg)

def lmmAdd (regions : List Region) (min size : Nat) (flags : BitVec 32) (pri : Int) : List Region :=
  let max := (min + size) % addrSize
  let min := roundAlign min
  let max := truncAlign max
  if max < min ∨ max - min < headerSize + alignSize then
    regions
  else
    let nodes := [⟨min + headerSize, max - (min + headerSize)⟩]
    insert ⟨min, nodes, flags, pri, max - min, max - (min + headerSize)⟩ regions

section Calls

-- the assertions are compiled in only with DEBUG
variable (debug : Bool)

def Region.check (reg : Region) : Except Stop Unit := do
  Stop.check (debug → reg.base + headerSize ≤ link reg.nodes)
  Stop.check (debug → reg.free ≤ reg.size - headerSize)

def Region.checkNode (reg : Region) (node : Node) (next : List Node) : Except Stop Unit := do
  Stop.check (debug → node.addr % alignSize = 0)
  Stop.check (debug → node.size % alignSize = 0)
  Stop.check (debug → link next = 0 ∨ node.addr < link next)
  Stop.check (debug → node.addr < reg.base + reg.size)

structure Taken where
  addr : Nat
  size : Nat
  nodes : List Node
deriving DecidableEq, Repr

def Taken.cons (node : Node) (t : Taken) : Taken := { t with nodes := node :: t.nodes }

def takeFirst (reg : Region) (size : Nat) : List Node → Except Stop (Option Taken)
  | [] => .ok none
  | node :: next => do
    reg.checkNode debug node next
    if size ≤ node.size then
      if size < node.size then
        .ok (some ⟨node.addr, size, ⟨node.addr + size, node.size - size⟩ :: next⟩)
      else
        .ok (some ⟨node.addr, size, next⟩)
    else do
      let taken ← takeFirst reg size next
      .ok (taken.map (Taken.cons node))

def alignAddr (alignBits : Fin 32) (alignOfs addr : Nat) : Nat :=
  (List.range alignBits).foldl
    (fun addr i => if (addr ^^^ alignOfs).testBit i then (addr + 2 ^ i) % addrSize else addr) addr

structure Request where
  size : Nat
  flags : BitVec 32
  alignBits : Fin 32
  alignOfs : Nat
  inMin : Nat
  inSize : Nat
deriving DecidableEq, Repr

def Request.inMax (r : Request) : Nat := (r.inMin + r.inSize) % addrSize

def carve (node : Node) (addr size : Nat) (next : List Node) : Except Stop Taken := do
  let anode := truncAlign addr
  Stop.check (debug → node.addr ≤ anode)
  Stop.check (debug → (anode - node.addr) % alignSize = 0)
  let before := if node.addr < anode then [⟨node.addr, anode - node.addr⟩] else []
  let rest := node.size - (anode - node.addr)
  let size := roundAlign (addr % alignSize + size)
  if size < rest then
    .ok ⟨addr, size, before ++ ⟨anode + size, rest - size⟩ :: next⟩
  else
    .ok ⟨addr, size, before ++ next⟩

def takeGen (reg : Region) (r : Request) : List Node → Except Stop (Option Taken)
  | [] => .ok none
  | node :: next => do
    reg.checkNode debug node next
    let addr := alignAddr r.alignBits r.alignOfs (max node.addr r.inMin)
    if node.size < r.size ∨ node.size < (addr + addrSize - node.addr + r.size) % addrSize then
      let taken ← takeGen reg r next
      .ok (taken.map (Taken.cons node))
    else if r.inMax < (addr + r.size) % addrSize then
      .ok none
    else do
      let taken ← carve debug node addr r.size next
      .ok (some taken)

def takeIn (fits : Region → Bool) (take : Region → List Node → Except Stop (Option Taken)) (reg : Region)
    : Except Stop (Option Taken) :=
  if fits reg then take reg reg.nodes else .ok none

def takeFrom (fits : Region → Bool) (take : Region → List Node → Except Stop (Option Taken))
    : List Region → Except Stop (Option Nat × List Region)
  | [] => .ok (none, [])
  | reg :: regions => do
    reg.check debug
    match ← takeIn fits take reg with
    | some taken => do
      Stop.check (debug → taken.size ≤ reg.free)
      .ok (some taken.addr,
        { reg with nodes := taken.nodes, free := (reg.free + addrSize - taken.size) % addrSize } :: regions)
    | none => do
      let (addr, regions) ← takeFrom fits take regions
      .ok (addr, reg :: regions)

def hasFlags (flags : BitVec 32) (reg : Region) : Bool := flags &&& ~~~reg.flags = 0

def lmmAlloc (regions : List Region) (size : Nat) (flags : BitVec 32)
    : Except Stop (Option Nat × List Region) :=
  takeFrom debug (hasFlags flags) (fun reg => takeFirst debug reg (roundAlign size)) regions

def Request.fits (r : Request) (reg : Region) : Bool :=
  hasFlags r.flags reg ∧ reg.base < r.inMax ∧ r.inMin < reg.base + reg.size

def lmmAllocGen (regions : List Region) (r : Request) : Except Stop (Option Nat × List Region) :=
  takeFrom debug r.fits (fun reg => takeGen debug reg r) regions

def putNode (node size : Nat) (next : List Node) : Except Stop (List Node) :=
  if link next ≤ node + size then
    match next with
    | [] => .error .undefined
    | n :: next => .ok (⟨node, size + n.size⟩ :: next)
  else
    .ok (⟨node, size⟩ :: next)

def freeNode (node size : Nat) (nodes : List Node) : Except Stop (List Node) :=
  let before := nodes.takeWhile (·.addr < node)
  let next := nodes.dropWhile (·.addr < node)
  match before.getLast? with
  | none => putNode node size next
  | some prev =>
    if node ≤ prev.addr + prev.size then do
      Stop.check (debug → prev.addr + prev.size = node)
      if link next ≤ node + size then do
        Stop.check (debug → node + size = link next)
        match next with
        | [] => .error .undefined
        | n :: next => .ok (before.dropLast ++ ⟨prev.addr, prev.size + (size + n.size)⟩ :: next)
      else
        .ok (before.dropLast ++ ⟨prev.addr, prev.size + size⟩ :: next)
    else do
      let put ← putNode node size next
      .ok (before ++ put)

def Region.holds (reg : Region) (addr : Nat) : Bool := reg.base ≤ addr ∧ addr < reg.base + reg.size

def freeIn (node size : Nat) : List Region → Except Stop (List Region)
  | [] => .error (if debug then .panic else .undefined)
  | reg :: regions => do
    reg.check debug
    if reg.holds node then do
      let free := (reg.free + size) % addrSize
      Stop.check (debug → free ≤ reg.size - headerSize)
      let nodes ← freeNode debug node size reg.nodes
      .ok ({ reg with nodes, free } :: regions)
    else do
      let regions ← freeIn node size regions
      .ok (reg :: regions)

def lmmFree (regions : List Region) (block size : Nat) : Except Stop (List Region) :=
  freeIn debug (truncAlign block) (roundAlign (block % alignSize + size)) regions

end Calls

end Lmm
