import UtahMach.Ipc.Entry.Basic

/-!
This module contains the body of a kernel message, with offsets and sizes in words.
-/

namespace Ipc

namespace MachMsgType

def moveReceive : Nat := 16
def moveSend : Nat := 17
def moveSendOnce : Nat := 18
def copySend : Nat := 19
def makeSend : Nat := 20
def makeSendOnce : Nat := 21
def portReceive : Nat := moveReceive
def portSend : Nat := moveSend
def portSendOnce : Nat := moveSendOnce
def msgTypePort : Nat := 6
def msgTypePortAll : Nat := 5

def portAny (name : Nat) : Bool := moveReceive ≤ name && name ≤ makeSendOnce

end MachMsgType

def portTSizeInBits : Nat := 32

open MachMsgType in
def ipcObjectCopyinType (name : Nat) : Option Nat :=
  if name = 0 then some 0
  else if name = moveReceive then some portReceive
  else if name = moveSendOnce ∨ name = makeSendOnce then some portSendOnce
  else if name = moveSend ∨ name = makeSend ∨ name = copySend then some portSend
  else if name = msgTypePort then some portSend
  else if name = msgTypePortAll then some portReceive
  else none

structure MsgType where
  name : Nat
  size : Nat
  number : Nat
  inline : Bool
  longform : Bool
  deallocate : Bool
  unused : Bool
  header : Bool
deriving DecidableEq, Repr

namespace MsgType

def words (t : MsgType) : Nat := if t.longform then 3 else 1

def isPort (t : MsgType) : Bool := MachMsgType.portAny t.name

def length (t : MsgType) : Nat := ((t.number * t.size % 2 ^ 32 + 7) % 2 ^ 32) / 8

def dataWords (t : MsgType) : Nat := if t.inline then (t.length + 3) / 4 else 1

end MsgType

section Descriptor

variable (w : Nat)

def msgtName : Nat := w % 2 ^ 8
def msgtSize : Nat := w / 2 ^ 8 % 2 ^ 8
def msgtNumber : Nat := w / 2 ^ 16 % 2 ^ 12
def msgtInline : Bool := w / 2 ^ 28 % 2 = 1
def msgtLongform : Bool := w / 2 ^ 29 % 2 = 1
def msgtDeallocate : Bool := w / 2 ^ 30 % 2 = 1
def msgtUnused : Bool := w / 2 ^ 31 % 2 = 1
def msgtlName : Nat := w % 2 ^ 16
def msgtlSize : Nat := w / 2 ^ 16 % 2 ^ 16
def msgtlNumber : Nat := w % 2 ^ 32

def setMsgtName (name : Nat) : Nat := w - w % 2 ^ 8 + name
def setMsgtSize (size : Nat) : Nat := w - msgtSize w * 2 ^ 8 + size * 2 ^ 8
def setMsgtDeallocate (b : Bool) : Nat := w - (if msgtDeallocate w then 2 ^ 30 else 0) + (if b then 2 ^ 30 else 0)
def setMsgtlName (name : Nat) : Nat := w - w % 2 ^ 16 + name
def setMsgtlSize (size : Nat) : Nat := w - msgtlSize w * 2 ^ 16 + size * 2 ^ 16

end Descriptor

structure Block where
  size : Nat
  word : Nat → Nat

def Block.set (b : Block) (i w : Nat) : Block := { b with word := Function.update b.word i w }

def shortType (w : Nat) : MsgType where
  name := msgtName w
  size := msgtSize w
  number := msgtNumber w
  inline := msgtInline w
  longform := false
  deallocate := msgtDeallocate w
  unused := msgtUnused w
  header := true

def longType (w w1 w2 : Nat) : MsgType where
  name := msgtlName w1
  size := msgtlSize w1
  number := msgtlNumber w2
  inline := msgtInline w
  longform := true
  deallocate := msgtDeallocate w
  unused := msgtUnused w
  header := msgtName w = 0 ∧ msgtSize w = 0 ∧ msgtNumber w = 0

inductive Objects where
  | inline (pos : Nat)
  | ool (addr : Nat)
deriving DecidableEq, Repr

inductive Fault where
  | descriptor (pos : Nat)
  | slot (objects : Objects) (i : Nat)
  | assertion
  | free (addr : Nat)
  | diverge
deriving DecidableEq, Repr

inductive Walker where
  | copyin
  | copyout
  | clean
deriving DecidableEq, Repr

structure Visit where
  desc : Nat
  data : Nat
  next : Nat
deriving DecidableEq, Repr

inductive KmsgEvent where
  | visit (walker : Walker) (v : Visit)
  | copyin (object name : Nat)
  | destroy (object name : Nat)
  | kalloc (addr : Nat)
  | kfree (addr : Nat)
  | mapCopyin (copy : Nat)
  | mapDiscard (copy : Nat)
  | mapCopyout (copy : Nat)
deriving DecidableEq, Repr

structure KmsgState where
  body : Block
  heap : Nat → Option Block
  calls : Nat
  circular : Bool
  log : List KmsgEvent

namespace KmsgState

def slot? (s : KmsgState) (objects : Objects) (i : Nat) : Option Nat :=
  match objects with
  | .inline pos => if pos + i < s.body.size then some (s.body.word (pos + i)) else none
  | .ool addr => (s.heap addr).bind fun b => if i < b.size then some (b.word i) else none

def setSlot (s : KmsgState) (objects : Objects) (i w : Nat) : KmsgState :=
  match objects with
  | .inline pos => { s with body := s.body.set (pos + i) w }
  | .ool addr => { s with heap := Function.update s.heap addr ((s.heap addr).map (·.set i w)) }

end KmsgState

structure Env where
  kalloc : Nat → Nat
  copyinmap : Nat → Option (Nat → Nat)
  vmDeallocate : Nat → Bool
  vmMapCopyin : Nat → Option Nat
  objectCopyin : Nat → Option Nat
  checkCircularity : Nat → Bool
  vmAllocate : Nat → Except KernReturn Nat
  vmMapCopyout : Nat → Except KernReturn Nat
  copyoutObject : Nat → Nat × Nat

abbrev KmsgM := StateT KmsgState (Except Fault)

namespace KmsgM

def emit (ev : KmsgEvent) : KmsgM Unit := modify fun s => { s with log := s.log ++ [ev] }

def call : KmsgM Nat := do
  let s ← get
  set { s with calls := s.calls + 1 }
  return s.calls

def readWord (pos : Nat) : KmsgM Nat := do
  let s ← get
  if pos < s.body.size then return s.body.word pos else throw (.descriptor pos)

def writeWord (pos w : Nat) : KmsgM Unit := do
  let s ← get
  if pos < s.body.size then set { s with body := s.body.set pos w } else throw (.descriptor pos)

def readSlot (objects : Objects) (i : Nat) : KmsgM Nat := do
  match (← get).slot? objects i with
  | some w => return w
  | none => throw (.slot objects i)

def writeSlot (objects : Objects) (i w : Nat) : KmsgM Unit := do
  let s ← get
  match s.slot? objects i with
  | some _ => set (s.setSlot objects i w)
  | none => throw (.slot objects i)

def assert (p : Prop) [Decidable p] : KmsgM Unit := if p then return () else throw .assertion

def kalloc (env : Env) (words : Nat) : KmsgM Nat := do
  let addr := env.kalloc (← call)
  let s ← get
  if addr = 0 ∨ (s.heap addr).isSome then
    return 0
  else
    set { s with heap := Function.update s.heap addr (some ⟨words, fun _ => 0⟩) }
    emit (.kalloc addr)
    return addr

def kfree (addr words : Nat) : KmsgM Unit := do
  let s ← get
  match s.heap addr with
  | some b =>
    if b.size = words then
      set { s with heap := Function.update s.heap addr none }
      emit (.kfree addr)
    else
      throw (.free addr)
  | none => throw (.free addr)

def readType (pos : Nat) : KmsgM MsgType := do
  let w ← readWord pos
  if msgtLongform w then
    let w1 ← readWord (pos + 1)
    let w2 ← readWord (pos + 2)
    return longType w w1 w2
  else
    return shortType w

end KmsgM

end Ipc
