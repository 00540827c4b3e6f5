import UtahMach.Ipc.Kmsg.Basic

/-!
This module contains the functions that walk over the body of a message.
-/

namespace Ipc

open KmsgM

inductive MachMsgReturn where
  | success
  | sendMsgTooSmall
  | sendInvalidType
  | sendInvalidMemory
  | sendInvalidRight
deriving DecidableEq, Repr

def machMsgIpcSpace : Nat := 0x2000
def machMsgVmSpace : Nat := 0x1000
def machMsgIpcKernel : Nat := 0x800
def machMsgVmKernel : Nat := 0x400

def destroySlots (objects : Objects) (name : Nat) : Nat → Nat → KmsgM Unit
  | 0, _ => return ()
  | k + 1, i => do
    let object ← readSlot objects i
    if ioValid object then
      emit (.destroy object name)
    destroySlots objects name k (i + 1)

def destroyMemory (type : MsgType) (data : Nat) : KmsgM Unit := do
  if type.length = 0 then
    KmsgM.assert (data = 0)
  else if type.isPort then
    kfree data (type.length / 4)
  else
    emit (.mapDiscard data)

def ipcKmsgCleanBody (eaddr : Nat) : Nat → Nat → KmsgM Nat
  | 0, _ => throw .diverge
  | fuel + 1, saddr => do
    if saddr < eaddr then
      let taddr := saddr
      let type ← readType saddr
      let saddr := saddr + type.words
      emit (.visit .clean ⟨taddr, saddr, saddr + type.dataWords⟩)
      if type.inline then
        if type.isPort then
          KmsgM.assert (saddr ≤ eaddr)
          -- sanity check
          let number := min type.number (eaddr - saddr)
          destroySlots (.inline saddr) type.name number 0
      else
        let data ← readWord saddr
        if type.isPort then
          destroySlots (.ool data) type.name type.number 0
        destroyMemory type data
      ipcKmsgCleanBody eaddr fuel (saddr + type.dataWords)
    else
      return saddr

structure KmsgHeader where
  remote : Nat
  remoteType : Nat
  localPort : Nat
  localType : Nat

def destroyHeader (header : KmsgHeader) : KmsgM Unit := do
  KmsgM.assert (ioValid header.remote = true)
  emit (.destroy header.remote header.remoteType)
  if ioValid header.localPort then
    emit (.destroy header.localPort header.localType)

def ipcKmsgCleanPartial (header : KmsgHeader) (eaddr : Nat) (dolast : Bool) (number : Nat)
    : KmsgM Unit := do
  destroyHeader header
  let _ ← ipcKmsgCleanBody eaddr (eaddr + 1) 0
  if dolast then
    let type ← readType eaddr
    let eaddr := eaddr + type.words
    let data ← if type.inline then pure 0 else readWord eaddr
    if type.isPort then
      destroySlots (if type.inline then .inline eaddr else .ool data) type.name number 0
    if !type.inline then
      destroyMemory type data

structure CopyinFailure where
  mr : MachMsgReturn
  dolast : Bool
  number : Nat

def checkCircularity (env : Env) (newname : Nat) : KmsgM Unit := do
  if newname = MachMsgType.portReceive then
    if env.checkCircularity (← call) then
      modify fun s => { s with circular := true }

def copyinSlots (env : Env) (name newname : Nat) (objects : Objects) : Nat → Nat → KmsgM (Option Nat)
  | 0, _ => return none
  | k + 1, i => do
    let port ← readSlot objects i
    if machPortValid port then
      match env.objectCopyin (← call) with
      | none => return some i
      | some object =>
        emit (.copyin object name)
        checkCircularity env newname
        writeSlot objects i object
        copyinSlots env name newname objects k (i + 1)
    else
      copyinSlots env name newname objects k (i + 1)

def copyinMemory (env : Env) (type : MsgType) : KmsgM (Option Nat) := do
  if type.length = 0 then
    return some 0
  else if type.isPort then
    let data ← kalloc env (type.length / 4)
    if data = 0 then
      return none
    else
      match env.copyinmap (← call) with
      | none =>
        kfree data (type.length / 4)
        return none
      | some word =>
        modify fun s => { s with heap := Function.update s.heap data (some ⟨type.length / 4, word⟩) }
        if type.deallocate then
          if env.vmDeallocate (← call) then
            return some data
          else
            kfree data (type.length / 4)
            return none
        else
          return some data
  else
    match env.vmMapCopyin (← call) with
    | none => return none
    | some copy =>
      emit (.mapCopyin copy)
      return some copy

def invalidType (type : MsgType) : Bool :=
  (type.isPort && type.size != portTSizeInBits) || !type.header || type.unused ||
    (type.deallocate && type.inline)

def copyinPorts (env : Env) (taddr : Nat) (type : MsgType) (objects : Objects)
    : KmsgM (Option Nat) := do
  match ipcObjectCopyinType type.name with
  | none => throw .assertion
  | some newname =>
    if type.longform then
      writeWord (taddr + 1) (setMsgtlName (← readWord (taddr + 1)) newname)
    else
      writeWord taddr (setMsgtName (← readWord taddr) newname)
    copyinSlots env type.name newname objects type.number 0

def copyinInline (env : Env) (taddr saddr : Nat) (type : MsgType)
    : KmsgM (Except CopyinFailure (Bool × Nat)) := do
  if type.isPort then
    match ← copyinPorts env taddr type (.inline saddr) with
    | some i => return .error ⟨.sendInvalidRight, true, i⟩
    | none => return .ok (true, saddr + type.dataWords)
  else
    return .ok (false, saddr + type.dataWords)

def copyinOol (env : Env) (taddr saddr : Nat) (type : MsgType)
    : KmsgM (Except CopyinFailure (Bool × Nat)) := do
  match ← copyinMemory env type with
  | none => return .error ⟨.sendInvalidMemory, false, 0⟩
  | some data =>
    writeWord saddr data
    if type.isPort then
      match ← copyinPorts env taddr type (.ool data) with
      | some i => return .error ⟨.sendInvalidRight, true, i⟩
      | none => return .ok (true, saddr + type.dataWords)
    else
      return .ok (true, saddr + type.dataWords)

def copyinItem (env : Env) (saddr : Nat) : KmsgM (Except CopyinFailure (Bool × Nat)) := do
  let taddr := saddr
  let left := (← get).body.size - saddr
  if left < 1 then
    return .error ⟨.sendMsgTooSmall, false, 0⟩
  else if msgtLongform (← readWord saddr) ∧ left < 3 then
    return .error ⟨.sendMsgTooSmall, false, 0⟩
  else
    let type ← readType saddr
    let saddr := saddr + type.words
    if invalidType type then
      return .error ⟨.sendInvalidType, false, 0⟩
    else
      let left := (← get).body.size - saddr
      if left < type.dataWords then
        return .error ⟨.sendMsgTooSmall, false, 0⟩
      else
        emit (.visit .copyin ⟨taddr, saddr, saddr + type.dataWords⟩)
        if type.inline then copyinInline env taddr saddr type else copyinOol env taddr saddr type

def copyinItems (env : Env) (header : KmsgHeader)
    : Nat → Bool → Nat → KmsgM (MachMsgReturn × Bool × Nat)
  | 0, _, _ => throw .diverge
  | fuel + 1, complex, saddr => do
    if saddr < (← get).body.size then
      match ← copyinItem env saddr with
      | .error e =>
        ipcKmsgCleanPartial header saddr e.dolast e.number
        return (e.mr, complex, saddr)
      | .ok (b, saddr) => copyinItems env header fuel (complex || b) saddr
    else
      return (.success, complex, saddr)

def ipcKmsgCopyinBody (env : Env) (header : KmsgHeader) : KmsgM (MachMsgReturn × Bool × Nat) := do
  copyinItems env header ((← get).body.size + 1) false 0

def copyoutSlots (env : Env) (objects : Objects) : Nat → Nat → Nat → KmsgM Nat
  | 0, _, mr => return mr
  | k + 1, i, mr => do
    let object ← readSlot objects i
    if ioValid object then
      let (mr', name) := env.copyoutObject (← call)
      writeSlot objects i name
      copyoutSlots env objects k (i + 1) (mr ||| mr')
    else
      writeSlot objects i object
      copyoutSlots env objects k (i + 1) mr

def vmCopyoutFailure (taddr : Nat) (type : MsgType) (kr : KernReturn) : KmsgM Nat := do
  if type.longform then
    writeWord (taddr + 1) (setMsgtlSize (← readWord (taddr + 1)) 0)
  else
    writeWord taddr (setMsgtSize (← readWord taddr) 0)
  return if kr = .resourceShortage then machMsgVmKernel else machMsgVmSpace

def copyoutInline (env : Env) (saddr : Nat) (type : MsgType) (mr : Nat) : KmsgM Nat :=
  if type.isPort then copyoutSlots env (.inline saddr) type.number 0 mr else return mr

def copyoutOol (env : Env) (taddr saddr : Nat) (type : MsgType) (mr : Nat) : KmsgM (Nat × Nat) := do
  if type.isPort then
    if type.length ≠ 0 then
      -- first allocate memory in the map
      match env.vmAllocate (← call) with
      | .error kr =>
        let _ ← ipcKmsgCleanBody saddr (saddr - taddr + 1) taddr
        let bits ← vmCopyoutFailure taddr type kr
        return (0, mr ||| bits)
      | .ok addr =>
        let mr ← copyoutSlots env (.ool (← readWord saddr)) type.number 0 mr
        let data ← readWord saddr
        -- copyout to memory allocated above
        kfree data (type.length / 4)
        return (addr, mr)
    else
      let mr ← copyoutSlots env (.ool (← readWord saddr)) type.number 0 mr
      KmsgM.assert ((← readWord saddr) = 0)
      return (0, mr)
  else
    let data ← readWord saddr
    if type.length = 0 then
      KmsgM.assert (data = 0)
      return (0, mr)
    else
      match env.vmMapCopyout (← call) with
      | .error kr =>
        emit (.mapDiscard data)
        let bits ← vmCopyoutFailure taddr type kr
        return (0, mr ||| bits)
      | .ok addr =>
        emit (.mapCopyout data)
        return (addr, mr)

def ipcKmsgCopyoutBody (env : Env) (eaddr : Nat) : Nat → Nat → Nat → KmsgM (Nat × Nat)
  | 0, _, _ => throw .diverge
  | fuel + 1, saddr, mr => do
    if saddr < eaddr then
      let taddr := saddr
      let type ← readType saddr
      let saddr := saddr + type.words
      emit (.visit .copyout ⟨taddr, saddr, saddr + type.dataWords⟩)
      if type.inline then
        let mr ← copyoutInline env saddr type mr
        writeWord taddr (setMsgtDeallocate (← readWord taddr) false)
        ipcKmsgCopyoutBody env eaddr fuel (saddr + type.dataWords) mr
      else
        let (addr, mr) ← copyoutOol env taddr saddr type mr
        writeWord taddr (setMsgtDeallocate (← readWord taddr) true)
        writeWord saddr addr
        ipcKmsgCopyoutBody env eaddr fuel (saddr + type.dataWords) mr
    else
      return (mr, saddr)

end Ipc
