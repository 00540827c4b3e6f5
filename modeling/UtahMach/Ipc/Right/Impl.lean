import UtahMach.Ipc.Port.Impl
import UtahMach.Ipc.Right.Basic

/-!
This module contains the functions that manipulate the rights of a space.
-/

namespace Ipc

open KProg

def setBits (space name : Nat) (bits : Right) : KProg Unit := do
  let e ← getEntry space name
  setEntry space name { bits with object := e.object, request := e.request }

def setObject (space name object : Nat) : KProg Unit := do
  let e ← getEntry space name
  setEntry space name { e with object := object }

def setRequest (space name request : Nat) : KProg Unit := do
  let e ← getEntry space name
  setEntry space name { e with request := request }

def deallocEntry (space name : Nat) : KProg Unit := do
  setObject space name ioNull
  entryDealloc space name

def kassertActive (space : Nat) : KProg Unit := do
  let active ← isActive space
  kassert (active = true)

def Right.addUrefs (bits : Right) (delta : Int) : Right :=
  { bits with urefs := (bits.urefs + delta : Int).toNat }

def addUrefs (space name : Nat) (bits : Right) (delta : Int) : KProg Unit := do
  require ((bits.word + delta) / 2 ^ 16 = bits.upper)
  setBits space name (bits.addUrefs delta)

def ipcMarequestCancel (space name : Nat) (bits : Right) : KProg Unit :=
  if bits.marequest then marequestCancel space name else return ()

def kassertReceiver (space name port : Nat) : KProg Unit := do
  let p ← getPort port
  kassert (p.ipActive = true)
  kassert (p.ipReceiverName = name)
  kassert (p.ipReceiver = some space)

def kassertSrights (port : Nat) : KProg Unit := do
  let p ← getPort port
  kassert (0 < p.ipSrights)

def kassertSorights (port : Nat) : KProg Unit := do
  let p ← getPort port
  kassert (0 < p.ipSorights)

def ipcRightDncancel (space port name : Nat) : KProg Nat := do
  let p ← getPort port
  kassert (p.ipActive = true)
  let e ← getEntry space name
  require (e.object = port)
  let dnrequest ← ipcPortDncancel port name e.request
  setRequest space name 0
  kassert (iprSpacep dnrequest = e.compat)
  if e.compat then
    kassert (iprSpace dnrequest = space)
    tell [.spaceRelease space]
    return ipNull
  else
    return dnrequest

def ipcRightDncancelMacro (space port name : Nat) : KProg Nat := do
  let e ← getEntry space name
  if e.request = 0 then return ipNull else ipcRightDncancel space port name

def ipcRightReverse (space port : Nat) : KProg (Option Nat) := do
  kassertActive space
  kassert (ioValid port = true)
  ipLock port
  let p ← getPort port
  if p.ipActive = false then
    return none
  else if p.ipReceiver = some space then
    let name := p.ipReceiverName
    kassert (name ≠ machPortNull)
    let found ← entryLookup space name
    kassert (found = true)
    let e ← getEntry space name
    kassert (e.type.hasReceive = true)
    kassert (e.object = port)
    return some name
  else
    match ← hashLookup space port with
    | some name =>
      let e ← getEntry space name
      require (e.type = .send)
      require (e.object = port)
      return some name
    | none => return none

def ipcRightInuse (space name : Nat) : KProg Bool := do
  let bits ← getEntry space name
  if bits.type = .none then
    return false
  else if bits.compat ∧ (bits.type = .send ∨ bits.type = .sendOnce) then
    require (0 < bits.urefs)
    kassert (bits.request ≠ 0)
    require (bits.object ≠ ipNull)
    ipLock bits.object
    let p ← getPort bits.object
    if p.ipActive then
      return true
    else
      if bits.type = .send then
        ipcMarequestCancel space name bits
        hashDelete space bits.object name
        cleanEntry bits
      else
        require (bits.urefs = 1)
        require (bits.marequest = false)
        cleanEntry bits
  else
    return true
where
  cleanEntry (bits : Right) : KProg Bool := do
    ipcPortRelease bits.object
    setRequest space name 0
    setObject space name ioNull
    setBits space name .null
    return false

def ipcRightCheck (space port name : Nat) : KProg Bool := do
  kassertActive space
  let bits ← getEntry space name
  require (bits.object = port)
  ipLock port
  let p ← getPort port
  if p.ipActive then
    return false
  else
    -- this was either a pure send right or a send-once right
    kassert (bits.type.hasReceive = false)
    require (0 < bits.urefs)
    if bits.type.hasSend then
      ipcMarequestCancel space name bits
      hashDelete space port name
      deadEntry { bits with marequest := false }
    else
      require (bits.type = .sendOnce)
      require (bits.urefs = 1)
      require (bits.marequest = false)
      deadEntry bits
where
  deadEntry (bits : Right) : KProg Bool := do
    ipcPortRelease port
    if bits.compat then
      kassert (bits.request ≠ 0)
      setRequest space name 0
      deallocEntry space name
      return true
    else if bits.request ≠ 0 then
      require (bits.urefs < machPortUrefsMax)
      setRequest space name 0
      addUrefs space name { bits with type := .deadName } 1
      setObject space name ioNull
      return true
    else
      setBits space name { bits with type := .deadName }
      setObject space name ioNull
      return true

inductive DnOutcome where
  | done (kr : KernReturn) (previous : Nat)
  | grow (port : Nat) (g : DnGrow)
deriving DecidableEq, Repr

def ipcRightDnrequest (space name : Nat) (immediate : Bool) (notify : Nat) : KProg DnOutcome := do
  let bits ← getEntry space name
  if bits.type.hasPortRights then
    require (bits.object ≠ ipNull)
    if ← ipcRightCheck space bits.object name then
      if bits.compat then return .done .invalidName ipNull else deadName bits.object
    else
      request bits
  else
    deadName bits.object
where
  request (bits : Right) : KProg DnOutcome := do
    if notify = ipNull then
      if bits.compat then
        kassert (bits.request ≠ 0)
        return .done .success ipNull
      else
        let previous ← ipcRightDncancelMacro space bits.object name
        return .done .success previous
    else
      -- switch atomically with a registered right, its slot is used again
      let previous ← ipcRightDncancelMacro space bits.object name
      let request ← ipcPortDnrequest bits.object name notify
      if request = 0 then
        kassert (previous = ipNull)
        let g ← ipcPortDngrowBegin bits.object
        return .grow bits.object g
      else
        setRequest space name request
        setBits space name { bits with compat := false }
        return .done .success previous
  deadName (port : Nat) : KProg DnOutcome := do
    let bits ← getEntry space name
    if bits.type = .deadName ∧ immediate ∧ notify ≠ ipNull then
      require (0 < bits.urefs)
      if machPortUrefsOverflow bits.urefs 1 then return .done .urefsOverflow ipNull
      else
        addUrefs space name bits 1
        tell [.deadName port notify name]
        return .done .success ipNull
    else
      return .done (if bits.type.hasPortRights ∨ bits.type = .deadName then .invalidArgument
        else .invalidRight) ipNull

def releaseRights (space port : Nat) (type : PortType) (receiver : KProg Unit) : KProg Unit := do
  if type.hasSend then
    kassertSrights port
    let nsrequest ← dropSright port
    releasePort
    ipcNotifyNoSenders port nsrequest
  else
    releasePort
where
  releasePort : KProg Unit := do
    if type.hasReceive then
      receiver
      ipcPortClearReceiver port
      ipcPortDestroy port
    else if type = .sendOnce then
      kassertSorights port
      ipcNotifySendOnce port
    else
      let p ← getPort port
      kassert (p.ipReceiver ≠ some space)
      ipRelease port

def ipcRightDestroy (space name : Nat) : KProg KernReturn := do
  let bits ← getEntry space name
  kassertActive space
  match bits.type with
  | .deadName =>
    require (bits.request = 0)
    require (bits.object = ioNull)
    require (bits.marequest = false)
    entryDealloc space name
    return .success
  | .portSet =>
    require (bits.request = 0)
    require (bits.object ≠ ioNull)
    deallocEntry space name
    tell [.psetDestroy bits.object]
    return .success
  | .none =>
    require False
    return .success
  | .send =>
    require (bits.object ≠ ipNull)
    ipcMarequestCancel space name bits
    hashDelete space bits.object name
    destroyPort bits
  | _ =>
    require (bits.object ≠ ipNull)
    require (bits.marequest = true → bits.type.hasSend = true ∨ bits.type.hasReceive = true)
    ipcMarequestCancel space name bits
    destroyPort bits
where
  destroyPort (bits : Right) : KProg KernReturn := do
    ipLock bits.object
    let p ← getPort bits.object
    if p.ipActive then
      let dnrequest ← ipcRightDncancelMacro space bits.object name
      deallocEntry space name
      releaseRights space bits.object bits.type do
        let p ← getPort bits.object
        kassert (p.ipActive = true)
        kassert (p.ipReceiver = some space)
      ipcNotifyPortDeleted bits.object dnrequest name
      return .success
    else
      kassert (bits.type.hasReceive = false)
      ipRelease bits.object
      setRequest space name 0
      deallocEntry space name
      return if bits.compat then .invalidName else .success

def deallocDeadName (space name : Nat) : KProg KernReturn := do
  let bits ← getEntry space name
  require (bits.type = .deadName)
  require (0 < bits.urefs)
  require (bits.request = 0)
  require (bits.object = ioNull)
  require (bits.marequest = false)
  if bits.urefs = 1 then
    entryDealloc space name
    return .success
  else
    addUrefs space name bits (-1)
    return .success

def deallocSend (space name port : Nat) (bits : Right) : KProg Unit := do
  let nsrequest ← dropSright port
  let dnrequest ← ipcRightDncancelMacro space port name
  hashDelete space port name
  ipcMarequestCancel space name bits
  ipRelease port
  deallocEntry space name
  ipcNotifyNoSenders port nsrequest
  ipcNotifyPortDeleted port dnrequest name

def clearSendRight (space name port : Nat) (bits : Right) : KProg Unit := do
  let nsrequest ← dropSright port
  setBits space name { bits with type := bits.type.clearSend, urefs := 0 }
  ipcNotifyNoSenders port nsrequest

def deallocSendOnce (space name port : Nat) : KProg Unit := do
  let dnrequest ← ipcRightDncancelMacro space port name
  deallocEntry space name
  ipcNotifySendOnce port
  ipcNotifyPortDeleted port dnrequest name

def ipcRightDealloc (space name : Nat) : KProg KernReturn := do
  let bits ← getEntry space name
  kassertActive space
  match bits.type with
  | .deadName => deallocDeadName space name
  | .sendOnce =>
    require (bits.urefs = 1)
    require (bits.marequest = false)
    require (bits.object ≠ ipNull)
    if ← ipcRightCheck space bits.object name then
      if bits.compat then return .invalidName else deallocDeadName space name
    else
      kassertSorights bits.object
      deallocSendOnce space name bits.object
      return .success
  | .send =>
    require (0 < bits.urefs)
    require (bits.object ≠ ipNull)
    if ← ipcRightCheck space bits.object name then
      if bits.compat then return .invalidName else deallocDeadName space name
    else
      kassertSrights bits.object
      if bits.urefs = 1 then
        deallocSend space name bits.object bits
        return .success
      else
        addUrefs space name bits (-1)
        return .success
  | .sendReceive =>
    require (0 < bits.urefs)
    require (bits.object ≠ ipNull)
    ipLock bits.object
    kassertReceiver space name bits.object
    kassertSrights bits.object
    if bits.urefs = 1 then
      clearSendRight space name bits.object bits
      return .success
    else
      addUrefs space name bits (-1)
      return .success
  | _ => return .invalidRight

def ipcRightDelta (space name : Nat) (right : PortRight) (delta : Int) : KProg KernReturn := do
  let bits ← getEntry space name
  kassertActive space
  match right with
  | .portSet =>
    if bits.type ≠ .portSet then return .invalidRight
    else
      require (bits.urefs = 0)
      require (bits.marequest = false)
      require (bits.request = 0)
      if delta = 0 then return .success
      else if delta ≠ -1 then return .invalidValue
      else
        require (bits.object ≠ ioNull)
        deallocEntry space name
        tell [.psetDestroy bits.object]
        return .success
  | .receive =>
    if bits.type.hasReceive = false then return .invalidRight
    else if delta = 0 then return .success
    else if delta ≠ -1 then return .invalidValue
    else
      ipcMarequestCancel space name bits
      deltaReceive { bits with marequest := false }
  | .sendOnce =>
    if bits.type ≠ .sendOnce then return .invalidRight
    else
      require (bits.urefs = 1)
      require (bits.marequest = false)
      if 0 < delta ∨ delta < -1 then return .invalidValue
      else
        require (bits.object ≠ ipNull)
        if ← ipcRightCheck space bits.object name then
          return if bits.compat then .invalidName else .invalidRight
        else
          kassertSorights bits.object
          if delta = 0 then return .success
          else
            deallocSendOnce space name bits.object
            return .success
  | .deadName =>
    if bits.type.hasSendRights then
      require (bits.object ≠ ipNull)
      if ← ipcRightCheck space bits.object name then
        if bits.compat then return .invalidName else deltaDeadName
      else
        return .invalidRight
    else if bits.type ≠ .deadName then return .invalidRight
    else deltaDeadName
  | .send =>
    if bits.type.hasSend = false then return .invalidRight
    -- the maximum for a send right is one less, so that it can become a dead name
    else if machPortUrefsUnderflow bits.urefs delta then return .invalidValue
    else if machPortUrefsOverflow (bits.urefs + 1) delta then return .urefsOverflow
    else
      require (bits.object ≠ ipNull)
      if ← ipcRightCheck space bits.object name then
        return if bits.compat then .invalidName else .invalidRight
      else
        kassertSrights bits.object
        deltaSend bits
where
  deltaReceive (bits : Right) : KProg KernReturn := do
    require (bits.object ≠ ipNull)
    ipLock bits.object
    kassertReceiver space name bits.object
    if bits.compat then
      kassert (bits.request ≠ 0)
      let dnrequest ← ipcRightDncancel space bits.object name
      kassert (dnrequest = ipNull)
      deallocEntry space name
      destroyPort bits.object dnrequest
    else if bits.type.hasSend then
      require (0 < bits.urefs)
      require (bits.urefs < machPortUrefsMax)
      kassertSrights bits.object
      -- the remaining send right turns into a dead name, the port is destroyed "first"
      if bits.request ≠ 0 then
        setRequest space name 0
        addUrefs space name { bits with type := .deadName } 1
        setObject space name ioNull
        destroyPort bits.object ipNull
      else
        setBits space name { bits with type := .deadName }
        setObject space name ioNull
        destroyPort bits.object ipNull
    else
      require (bits.urefs = 0)
      let dnrequest ← ipcRightDncancelMacro space bits.object name
      deallocEntry space name
      destroyPort bits.object dnrequest
  destroyPort (port dnrequest : Nat) : KProg KernReturn := do
    ipcPortClearReceiver port
    ipcPortDestroy port
    ipcNotifyPortDeleted port dnrequest name
    return .success
  deltaDeadName : KProg KernReturn := do
    let bits ← getEntry space name
    require (bits.type = .deadName)
    require (0 < bits.urefs)
    require (bits.marequest = false)
    require (bits.object = ioNull)
    require (bits.request = 0)
    if machPortUrefsUnderflow bits.urefs delta then return .invalidValue
    else if machPortUrefsOverflow bits.urefs delta then return .urefsOverflow
    else if (bits.urefs + delta : Int) = 0 then
      entryDealloc space name
      return .success
    else
      addUrefs space name bits delta
      return .success
  deltaSend (bits : Right) : KProg KernReturn := do
    if (bits.urefs + delta : Int) = 0 then
      if bits.type.hasReceive then
        kassertReceiver space name bits.object
        clearSendRight space name bits.object bits
        return .success
      else
        deallocSend space name bits.object bits
        return .success
    else
      addUrefs space name bits delta
      return .success

abbrev Copied := Except KernReturn (Nat × Nat)

def requireDeadName (bits : Right) : KProg Unit := do
  require (bits.type = .deadName)
  require (0 < bits.urefs)
  require (bits.marequest = false)
  require (bits.request = 0)
  require (bits.object = ioNull)

def copyDead (space name : Nat) (deadok : Bool) : KProg Copied := do
  let bits ← getEntry space name
  requireDeadName bits
  return if deadok then .ok (ioDead, ipNull) else .error .invalidRight

def moveDead (space name : Nat) (deadok : Bool) : KProg Copied := do
  let bits ← getEntry space name
  requireDeadName bits
  if deadok then
    if bits.urefs = 1 then
      setBits space name { bits with type := .none }
      return .ok (ioDead, ipNull)
    else
      addUrefs space name bits (-1)
      return .ok (ioDead, ipNull)
  else
    return .error .invalidRight

def moveLastSend (space name port : Nat) (bits : Right) : KProg Nat := do
  let dnrequest ← ipcRightDncancelMacro space port name
  hashDelete space port name
  ipcMarequestCancel space name bits
  setObject space name ioNull
  return dnrequest

def moveReceiver (port : Nat) : KProg Unit := do
  ipcPortClearReceiver port
  modifyPort port Port.inLimbo

def ipcRightCopyin (space name : Nat) (msgtName : MsgTypeName) (deadok : Bool) : KProg Copied := do
  let bits ← getEntry space name
  kassertActive space
  match msgtName with
  | .makeSend =>
    if bits.type.hasReceive = false then return .error .invalidRight
    else
      require (bits.object ≠ ipNull)
      ipLock bits.object
      kassertReceiver space name bits.object
      modifyPort bits.object fun p => { p.reference with ipMscount := p.ipMscount + 1, ipSrights := p.ipSrights + 1 }
      return .ok (bits.object, ipNull)
  | .makeSendOnce =>
    if bits.type.hasReceive = false then return .error .invalidRight
    else
      require (bits.object ≠ ipNull)
      ipLock bits.object
      kassertReceiver space name bits.object
      modifyPort bits.object fun p => { p.reference with ipSorights := p.ipSorights + 1 }
      return .ok (bits.object, ipNull)
  | .moveReceive =>
    if bits.type.hasReceive = false then return .error .invalidRight
    else
      require (bits.object ≠ ipNull)
      ipLock bits.object
      kassertReceiver space name bits.object
      if bits.type.hasSend then
        require (0 < bits.urefs)
        kassertSrights bits.object
        hashInsert space bits.object name
        ipReference bits.object
        setBits space name { bits with type := bits.type.clearReceive }
        moveReceiver bits.object
        return .ok (bits.object, ipNull)
      else
        require (bits.urefs = 0)
        let dnrequest ← ipcRightDncancelMacro space bits.object name
        ipcMarequestCancel space name bits
        setObject space name ioNull
        setBits space name { bits with type := bits.type.clearReceive }
        moveReceiver bits.object
        return .ok (bits.object, dnrequest)
  | .copySend => live bits (copyDead space name deadok) do
      if bits.type.hasSend = false then
        kassertSorights bits.object
        return .error .invalidRight
      else
        kassertSrights bits.object
        modifyPort bits.object fun p => { p.reference with ipSrights := p.ipSrights + 1 }
        return .ok (bits.object, ipNull)
  | .moveSend => live bits (moveDead space name deadok) do
      if bits.type.hasSend = false then
        kassertSorights bits.object
        return .error .invalidRight
      else
        kassertSrights bits.object
        moveSend bits
  | .moveSendOnce => live bits (moveDead space name deadok) do
      if bits.type ≠ .sendOnce then
        kassertSrights bits.object
        return .error .invalidRight
      else
        require (bits.urefs = 1)
        require (bits.marequest = false)
        kassertSorights bits.object
        let dnrequest ← ipcRightDncancelMacro space bits.object name
        setObject space name ioNull
        setBits space name { bits with type := .none }
        return .ok (bits.object, dnrequest)
where
  /-- A send or send-once right is as good as a dead name if its port has died. -/
  live (bits : Right) (dead alive : KProg Copied) : KProg Copied := do
    if bits.type = .deadName then dead
    else if bits.type.hasSendRights = false then return .error .invalidRight
    else
      require (0 < bits.urefs)
      require (bits.object ≠ ipNull)
      if ← ipcRightCheck space bits.object name then
        if bits.compat then return .error .invalidName else dead
      else
        alive
  moveSend (bits : Right) : KProg Copied := do
    if bits.urefs = 1 then
      if bits.type.hasReceive then
        kassertReceiver space name bits.object
        ipReference bits.object
        setBits space name { bits with type := bits.type.clearSend, urefs := 0 }
        return .ok (bits.object, ipNull)
      else
        let dnrequest ← moveLastSend space name bits.object bits
        setBits space name { bits with type := bits.type.clearSend, urefs := 0 }
        return .ok (bits.object, dnrequest)
    else
      modifyPort bits.object fun p => { p.reference with ipSrights := p.ipSrights + 1 }
      addUrefs space name bits (-1)
      return .ok (bits.object, ipNull)

def deadNameBits (urefs : Nat) : Right := { Right.null with type := .deadName, urefs := urefs }

def ipcRightCopyinUndo (space name : Nat) (msgtName : MsgTypeName) (object soright : Nat)
    : KProg Unit := do
  let bits ← getEntry space name
  kassertActive space
  kassert (msgtName = .moveSend ∨ msgtName = .copySend ∨ msgtName = .moveSendOnce)
  if soright ≠ ipNull then
    kassert (msgtName = .moveSend ∨ msgtName = .moveSendOnce)
    require (bits.type = .none)
    require (bits.object = ioNull)
    require (object ≠ ioDead)
    setBits space name (deadNameBits 2)
    releaseObject
  else if bits.type = .none then
    kassert (msgtName = .moveSend ∨ msgtName = .moveSendOnce)
    require (bits.object = ioNull)
    setBits space name (deadNameBits 1)
    releaseObject
  else if bits.type = .deadName then
    require (bits.object = ioNull)
    require (object = ioDead)
    require (0 < bits.urefs)
    if msgtName ≠ .copySend then
      require (bits.urefs < machPortUrefsMax)
      addUrefs space name bits 1
      releaseObject
    else
      releaseObject
  else
    kassert (msgtName = .moveSend ∨ msgtName = .copySend)
    kassert (bits.type = .send)
    require (object ≠ ioDead)
    require (bits.object = object)
    require (0 < bits.urefs)
    if msgtName ≠ .copySend then
      require (bits.urefs < machPortUrefsMax - 1)
      addUrefs space name bits 1
      -- may as well convert the entry to a dead name
      let _ ← ipcRightCheck space object name
      releaseObject
    else
      let _ ← ipcRightCheck space object name
      releaseObject
where
  releaseObject : KProg Unit := if object ≠ ioDead then ipcPortRelease object else return ()

def ipcRightCopyinTwo (space name : Nat) : KProg Copied := do
  let bits ← getEntry space name
  kassertActive space
  if bits.type.hasSend = false then return .error .invalidRight
  else if bits.urefs < 2 then return .error .invalidRight
  else
    require (bits.object ≠ ipNull)
    if ← ipcRightCheck space bits.object name then
      return .error (if bits.compat then .invalidName else .invalidRight)
    else
      kassertSrights bits.object
      moveTwo bits
where
  moveTwo (bits : Right) : KProg Copied := do
    if bits.urefs = 2 then
      if bits.type.hasReceive then
        kassertReceiver space name bits.object
        modifyPort bits.object fun p => { p.reference.reference with ipSrights := p.ipSrights + 1 }
        setBits space name { bits with type := bits.type.clearSend, urefs := 0 }
        return .ok (bits.object, ipNull)
      else
        let dnrequest ← ipcRightDncancelMacro space bits.object name
        hashDelete space bits.object name
        ipcMarequestCancel space name bits
        modifyPort bits.object fun p => { p.reference with ipSrights := p.ipSrights + 1 }
        setObject space name ioNull
        setBits space name { bits with type := bits.type.clearSend, urefs := 0 }
        return .ok (bits.object, dnrequest)
    else
      modifyPort bits.object fun p => { p.reference.reference with ipSrights := p.ipSrights + 2 }
      addUrefs space name bits (-2)
      return .ok (bits.object, ipNull)

def ipcRightCopyout (space name : Nat) (msgtName : PortName) (overflow : Bool) (object : Nat)
    : KProg KernReturn := do
  let bits ← getEntry space name
  let p ← getPort object
  kassert (ioValid object = true)
  kassert (p.ipActive = true)
  require (bits.object = object)
  match msgtName with
  | .portSendOnce =>
    require (bits.type = .none)
    kassert (0 < p.ipSorights)
    -- transfer the send-once right and the reference to the entry
    setBits space name { bits with type := .sendOnce, urefs := bits.urefs ||| 1 }
    return .success
  | .portSend =>
    kassert (0 < p.ipSrights)
    if bits.type.hasSend then
      kassert (1 < p.ipSrights)
      require (0 < bits.urefs)
      require (bits.urefs < machPortUrefsMax)
      if bits.urefs + 1 = machPortUrefsMax then
        if overflow then
          -- leave the user references pegged to the maximum
          setPort object { p.release with ipSrights := p.ipSrights - 1 }
          return .success
        else
          return .urefsOverflow
      else
        setPort object { p.release with ipSrights := p.ipSrights - 1 }
        addSend bits
    else if bits.type.hasReceive then
      require (bits.urefs = 0)
      setPort object p.release
      addSend bits
    else
      require (bits.type = .none)
      require (bits.urefs = 0)
      hashInsert space object name
      addSend bits
  | .portReceive =>
    kassert (p.ipMscount = 0)
    kassert (p.ipReceiverName = machPortNull)
    setPort object { p with ipReceiverName := name, data := .receiver space }
    kassert (bits.type.hasReceive = false)
    if bits.type.hasSend then
      require (0 < bits.urefs)
      kassert (0 < p.ipSrights)
      ipRelease object
      hashDelete space object name
      addReceive bits p.ipDestination
    else
      require (bits.type = .none)
      require (bits.urefs = 0)
      addReceive bits p.ipDestination
where
  addSend (bits : Right) : KProg KernReturn := do
    addUrefs space name { bits with type := bits.type.withSend } 1
    return .success
  addReceive (bits : Right) (dest : Nat) : KProg KernReturn := do
    setBits space name { bits with type := bits.type.withReceive }
    if dest ≠ ipNull then
      ipcPortRelease dest
      return .success
    else
      return .success

def ipcRightRename (space oname nname : Nat) : KProg KernReturn := do
  let bits ← getEntry space oname
  kassertActive space
  kassert (oname ≠ nname)
  if bits.request ≠ 0 then
    require (bits.type.hasPortRights = true)
    require (bits.object ≠ ipNull)
    if ← ipcRightCheck space bits.object oname then
      if bits.compat then
        entryDealloc space nname
        return .invalidName
      else
        let bits ← getEntry space oname
        require (bits.type = .deadName)
        require (bits.request = 0)
        require (bits.object = ioNull)
        move bits
    else
      ipcPortDnrename bits.object bits.request oname nname
      setRequest space oname 0
      move bits
  else
    move bits
where
  move (bits : Right) : KProg KernReturn := do
    if bits.marequest then
      require (bits.type.hasSend = true ∨ bits.type.hasReceive = true)
      marequestRename space oname nname
      fill bits
    else
      fill bits
  fill (bits : Right) : KProg KernReturn := do
    let nentry ← getEntry space nname
    require ({ nentry with object := ioNull, request := 0 } = Right.null)
    setEntry space nname bits
    match bits.type with
    | .send =>
      require (bits.object ≠ ipNull)
      hashDelete space bits.object oname
      hashInsert space bits.object nname
      finish
    | .receive | .sendReceive =>
      require (bits.object ≠ ipNull)
      ipLock bits.object
      kassertReceiver space oname bits.object
      modifyPort bits.object fun p => { p with ipReceiverName := nname }
      finish
    | .portSet =>
      require (bits.object ≠ ioNull)
      finish
    | .sendOnce | .deadName => finish
    | .none =>
      require False
      finish
  finish : KProg KernReturn := do
    let oentry ← getEntry space oname
    require (oentry.request = 0)
    deallocEntry space oname
    return .success

def ipcRightCopyinCompat (space name : Nat) (msgtName : CompatName) (dealloc : Bool)
    : KProg (Except KernReturn Nat) := do
  let bits ← getEntry space name
  kassertActive space
  match msgtName, dealloc with
  | .port, true =>
    if bits.type ≠ .send then return .error .invalidRight
    else
      require (bits.object ≠ ipNull)
      if ← ipcRightCheck space bits.object name then
        return .error (if bits.compat then .invalidName else .invalidRight)
      else
        let dnrequest ← ipcRightDncancelMacro space bits.object name
        kassertSrights bits.object
        ipcMarequestCancel space name bits
        deallocEntry space name
        ipcNotifyPortDeleted bits.object dnrequest name
        return .ok bits.object
  | .port, false =>
    if bits.type.hasSend = false ∧ bits.type.hasReceive = false then return .error .invalidRight
    else
      require (bits.object ≠ ipNull)
      if ← ipcRightCheck space bits.object name then
        return .error (if bits.compat then .invalidName else .invalidRight)
      else if bits.type.hasSend = false then
        require (bits.urefs = 0)
        modifyPort bits.object fun p => { p.reference with ipMscount := p.ipMscount + 1, ipSrights := p.ipSrights + 1 }
        return .ok bits.object
      else
        modifyPort bits.object fun p => { p.reference with ipSrights := p.ipSrights + 1 }
        return .ok bits.object
  | .portAll, true =>
    if bits.type.hasReceive = false then return .error .invalidRight
    else
      require (bits.object ≠ ipNull)
      ipLock bits.object
      kassertReceiver space name bits.object
      let dnrequest ← ipcRightDncancelMacro space bits.object name
      ipcMarequestCancel space name bits
      deallocEntry space name
      if bits.type.hasSend then
        require (0 < bits.urefs)
        kassertSrights bits.object
        let nsrequest ← dropSright bits.object
        moveReceiver bits.object
        ipcNotifyNoSenders bits.object nsrequest
        ipcNotifyPortDeleted bits.object dnrequest name
        return .ok bits.object
      else
        moveReceiver bits.object
        ipcNotifyPortDeleted bits.object dnrequest name
        return .ok bits.object
  | .portAll, false =>
    if bits.type.hasReceive = false then return .error .invalidRight
    else
      require (bits.object ≠ ipNull)
      ipLock bits.object
      kassertReceiver space name bits.object
      if bits.type.hasSend = false then
        require (bits.urefs = 0)
        modifyPort bits.object fun p => { p with ipSrights := p.ipSrights + 1 }
        leaveSend { bits with type := bits.type.withSend, urefs := bits.urefs ||| 1 }
      else
        leaveSend bits
where
  leaveSend (bits : Right) : KProg (Except KernReturn Nat) := do
    hashInsert space bits.object name
    setBits space name { bits with type := bits.type.clearReceive }
    moveReceiver bits.object
    ipReference bits.object
    return .ok bits.object

def ipcRightCopyinHeader (space name : Nat) : KProg (Except KernReturn (Nat × PortName)) := do
  let bits ← getEntry space name
  kassertActive space
  match bits.type with
  | .portSet | .deadName => return .error .invalidRight
  | .receive =>
    require (bits.object ≠ ipNull)
    ipLock bits.object
    kassertReceiver space name bits.object
    modifyPort bits.object fun p => { p.reference with ipMscount := p.ipMscount + 1, ipSrights := p.ipSrights + 1 }
    return .ok (bits.object, .portSend)
  | .send | .sendReceive =>
    require (0 < bits.urefs)
    require (bits.object ≠ ipNull)
    if ← ipcRightCheck space bits.object name then
      return .error (if bits.compat then .invalidName else .invalidRight)
    else
      kassertSrights bits.object
      modifyPort bits.object fun p => { p.reference with ipSrights := p.ipSrights + 1 }
      return .ok (bits.object, .portSend)
  | .sendOnce =>
    require (bits.urefs = 1)
    require (bits.marequest = false)
    require (bits.object ≠ ipNull)
    if ← ipcRightCheck space bits.object name then
      return .error (if bits.compat then .invalidName else .invalidRight)
    else
      kassertSorights bits.object
      let dnrequest ← ipcRightDncancelMacro space bits.object name
      deallocEntry space name
      let is_notify ← isNotify space
      let sright ← ipcPortCopySend is_notify
      ipcNotifyPortDeleted bits.object dnrequest name
      tell (if ioValid sright then [.portDeletedCompat sright name] else [])
      return .ok (bits.object, .portSendOnce)
  | .none =>
    require False
    return .error .invalidRight

-- a program that calls one of these is handled as if its commands stood there
attribute [reducible] setBits setObject setRequest deallocEntry addUrefs ipcMarequestCancel kassertActive
  kassertReceiver kassertSrights kassertSorights ipcRightDncancel ipcRightDncancelMacro ipcRightDestroy.destroyPort
  ipcRightDelta.destroyPort moveReceiver ipcRightCopyinUndo.releaseObject

end Ipc
